import QuorumCanvas.Utf16

/-!
# Comparing tokens

`tokensMatch` compares the lengths of two strings in UTF-16 code units, and then
their UTF-8 bytes with `timingSafeEqual`, which throws when there is not the same
number of them.  Strings of the same number of code units need not have the same
number of bytes.
-/

namespace QuorumCanvas

open Utf16 (WellFormed utf8)

/-- What `timingSafeEqual` throws. -/
inductive RangeError
  /-- input buffers must have the same byte length -/
  | timingSafeEqualLength
  deriving DecidableEq

/-- `timingSafeEqual` throws on different lengths. -/
def timingSafeEqual (a b : List UInt8) : Except RangeError Bool :=
  if a.length ≠ b.length then .error .timingSafeEqualLength else .ok (decide (a = b))

/-- `tokensMatch`; `none` stands for `null`, and among those provided for `undefined`. -/
def tokensMatch (provided expected : Option (List UInt16)) : Except RangeError Bool :=
  match expected, provided with
  | none, _ => .ok true
  | some _, none => .ok false
  | some expected, some provided =>
      if provided = [] ∨ provided.length ≠ expected.length then .ok false
      else timingSafeEqual (utf8 provided) (utf8 expected)

/-- Both tokens are there. -/
theorem tokensMatch_some (s t : List UInt16) :
    tokensMatch (some s) (some t) =
      if s = [] ∨ s.length ≠ t.length then .ok false else timingSafeEqual (utf8 s) (utf8 t) := rfl

/-- The comparison is total and exact: it returns, and it returns `true` when
authentication is off or the token is the one expected, and only then unless the
token is no well-formed string. -/
def ComparesExactly (provided expected : Option (List UInt16)) : Prop :=
  ∃ answer, tokensMatch provided expected = .ok answer ∧
    (expected = none ∨ provided = expected → answer = true) ∧
    ((∀ s ∈ provided, WellFormed s) → answer = true → expected = none ∨ provided = expected)

/-- Two strings of as many code units, but not of as many bytes. -/
def Misjudged (provided expected : Option (List UInt16)) : Prop :=
  ∃ s ∈ provided, ∃ t ∈ expected, s.length = t.length ∧ (utf8 s).length ≠ (utf8 t).length

/-- A token that is refused for its length is not the one expected. -/
theorem comparesExactly_of_refused {s t : List UInt16} (ht : t ≠ [])
    (h : s = [] ∨ s.length ≠ t.length) : ComparesExactly (some s) (some t) := by
  have hne : s ≠ t := by
    intro heq
    subst heq
    exact h.elim ht fun hlength => hlength rfl
  refine ⟨false, if_pos h, ?_, nofun⟩
  intro heq
  rcases heq with hnone | hsame
  · cases hnone
  · exact absurd (Option.some.inj hsame) hne

/-- Bytes of the same number are compared one by one. -/
theorem comparesExactly_of_bytes {s t : List UInt16} (hwell : WellFormed t)
    (h : ¬ (s = [] ∨ s.length ≠ t.length)) (hbytes : (utf8 s).length = (utf8 t).length) :
    ComparesExactly (some s) (some t) := by
  have hanswer : tokensMatch (some s) (some t) = .ok (decide (utf8 s = utf8 t)) := by
    rw [tokensMatch_some, if_neg h]
    exact if_neg (not_not.mpr hbytes)
  refine ⟨_, hanswer, ?_, ?_⟩
  · intro heq
    rcases heq with hnone | hsame
    · cases hnone
    · rw [Option.some.inj hsame]
      exact decide_eq_true rfl
  · intro hs htrue
    exact Or.inr (congrArg some (Utf16.utf8_inj (hs s rfl) hwell (of_decide_eq_true htrue)))

/-- **Token comparison** is exact and total unless the two strings have as many code
units but not as many bytes. -/
theorem tokensMatch_exact (provided expected : Option (List UInt16))
    (hexpected : ∀ t ∈ expected, t ≠ [] ∧ WellFormed t) :
    ComparesExactly provided expected ↔ ¬ Misjudged provided expected := by
  cases expected with
  | none =>
      refine iff_of_true ⟨true, rfl, fun _ => rfl, fun _ _ => Or.inl rfl⟩ ?_
      intro ⟨s, _, t, ht, _⟩
      cases ht
  | some t =>
      obtain ⟨hne, hwell⟩ := hexpected t rfl
      cases provided with
      | none =>
          refine iff_of_true ⟨false, rfl, ?_, nofun⟩ ?_
          · intro heq
            rcases heq with hnone | hsame
            · cases hnone
            · cases hsame
          · intro ⟨s, hs, _⟩
            cases hs
      | some s =>
          by_cases hrefused : s = [] ∨ s.length ≠ t.length
          · refine iff_of_true (comparesExactly_of_refused hne hrefused) ?_
            intro ⟨s', hs, t', ht, hlength, hbytes⟩
            obtain rfl := Option.some.inj hs
            obtain rfl := Option.some.inj ht
            rcases hrefused with hempty | hother
            · rw [hempty] at hlength
              exact hne (List.length_eq_zero_iff.mp hlength.symm)
            · exact hother hlength
          · by_cases hbytes : (utf8 s).length = (utf8 t).length
            · refine iff_of_true (comparesExactly_of_bytes hwell hrefused hbytes) ?_
              intro ⟨s', hs, t', ht, _, hbytes'⟩
              obtain rfl := Option.some.inj hs
              obtain rfl := Option.some.inj ht
              exact hbytes' hbytes
            · have hlength : s.length = t.length := by
                by_contra hother
                exact hrefused (Or.inr hother)
              refine iff_of_false ?_ (not_not.mpr ⟨s, rfl, t, rfl, hlength, hbytes⟩)
              intro ⟨answer, hanswer, _⟩
              have hthrows : tokensMatch (some s) (some t) = .error .timingSafeEqualLength := by
                rw [tokensMatch_some, if_neg hrefused]
                exact if_pos hbytes
              rw [hthrows] at hanswer
              cases hanswer

/-- The code units of a string of characters. -/
def token (s : String) : Option (List UInt16) := some (Utf16.encode s.toList)

/-- A wrong token of the right length. -/
theorem tokensMatch_exact_wrong : ComparesExactly (token "aaaaaa") (token "secret") := by
  refine (tokensMatch_exact _ _ ?_).mpr ?_
  · intro t ht
    obtain rfl := Option.some.inj ht
    exact ⟨by decide, Utf16.wellFormed_encode _⟩
  · intro ⟨s, hs, t, ht, _, hbytes⟩
    obtain rfl := Option.some.inj hs
    obtain rfl := Option.some.inj ht
    exact hbytes (by decide)

/-- **A token that throws:** six code units like the one expected, but seven bytes. -/
theorem tokensMatch_throws :
    tokensMatch (token "sécret") (token "secret") = .error .timingSafeEqualLength ∧
      ¬ ComparesExactly (token "sécret") (token "secret") := by
  have hthrows : tokensMatch (token "sécret") (token "secret") =
      .error .timingSafeEqualLength := by
    decide
  refine ⟨hthrows, ?_⟩
  intro ⟨answer, hanswer, _⟩
  rw [hthrows] at hanswer
  cases hanswer

end QuorumCanvas
