import QuorumCanvas.Quorum

/-!
# Ballots: elections by voters that may forget

A voter has a term, a choice for that term, and a role.  The textbook argument
for elections keeps one vote per voter and term.  Here a voter that stood for
election itself and hears of another winner forgets its own vote and may give
the term's vote away again, so a voter may well vote twice in a term: once for
itself and once for another.

What survives is the division of labour of `History.Sound`: votes for others are
unique, and a voter that voted for another never wins that term itself.  That is
enough for two winners of one term to be the same (`History.Sound.unique`).
-/

namespace Ballots

open Quorum (Majority)

/-- Follower, candidate or leader. -/
inductive Role
  | follower
  | candidate
  | leader
  deriving DecidableEq

/-- What a voter remembers of elections. -/
structure Voter (ι : Type*) where
  term : ℕ
  choice : Option ι
  role : Role

/-- The votes ever cast, as voter, term and candidate, and the elections ever won. -/
structure History (ι : Type*) where
  vote : ι → ℕ → ι → Prop
  won : ℕ → ι → Prop

variable {ι : Type*}

namespace History

/-- The rules by which votes are cast and counted. -/
structure Sound (members : Finset ι) (H : History ι) : Prop where
  once : ∀ v t c d, H.vote v t c → H.vote v t d → c ≠ v → d ≠ v → c = d
  majority : ∀ t c, H.won t c → ∃ Q, Majority members Q ∧ ∀ v ∈ Q, H.vote v t c
  loyal : ∀ v t c, H.vote v t c → c ≠ v → ¬ H.won t v

/-- **Election safety.**  A term has at most one winner. -/
theorem Sound.unique [DecidableEq ι] {members : Finset ι} {H : History ι}
    (h : H.Sound members) {t : ℕ} {c d : ι} (hc : H.won t c) (hd : H.won t d) : c = d := by
  obtain ⟨Q, hQ, hvQ⟩ := h.majority t c hc
  obtain ⟨R, hR, hvR⟩ := h.majority t d hd
  obtain ⟨v, hvq, hvr⟩ := hQ.exists_common hR
  have hvc := hvQ v hvq
  have hvd := hvR v hvr
  by_cases hcv : c = v
  · by_cases hdv : d = v
    · rw [hcv, hdv]
    · exact absurd (hcv ▸ hc) (h.loyal v t d hvd hdv)
  · by_cases hdv : d = v
    · exact absurd (hdv ▸ hd) (h.loyal v t c hvc hcv)
    · exact h.once v t c d hvc hvd hcv hdv

/-- `H'` extends `H` by votes and wins of `v` alone. -/
structure Extends (v : ι) (H H' : History ι) : Prop where
  vote : ∀ w t c, H.vote w t c → H'.vote w t c
  won : ∀ t c, H.won t c → H'.won t c
  vote_of_ne : ∀ w t c, w ≠ v → H'.vote w t c → H.vote w t c
  won_of_ne : ∀ t c, c ≠ v → H'.won t c → H.won t c

theorem Extends.refl (v : ι) (H : History ι) : H.Extends v H :=
  ⟨fun _ _ _ h => h, fun _ _ h => h, fun _ _ _ _ h => h, fun _ _ _ h => h⟩

theorem Extends.trans {v : ι} {H H' H'' : History ι} (h : H.Extends v H')
    (h' : H'.Extends v H'') : H.Extends v H'' where
  vote := fun w t c hv => h'.vote w t c (h.vote w t c hv)
  won := fun t c hw => h'.won t c (h.won t c hw)
  vote_of_ne := fun w t c hne hv => h.vote_of_ne w t c hne (h'.vote_of_ne w t c hne hv)
  won_of_ne := fun t c hne hw => h.won_of_ne t c hne (h'.won_of_ne t c hne hw)

/-- `H'` continues `H`: no vote and no win is taken back. -/
structure Continues (H H' : History ι) : Prop where
  vote : ∀ w t c, H.vote w t c → H'.vote w t c
  won : ∀ t c, H.won t c → H'.won t c

theorem Continues.refl (H : History ι) : H.Continues H := ⟨fun _ _ _ h => h, fun _ _ h => h⟩

theorem Continues.trans {H H' H'' : History ι} (h : H.Continues H') (h' : H'.Continues H'') :
    H.Continues H'' :=
  ⟨fun w t c hv => h'.vote w t c (h.vote w t c hv), fun t c hw => h'.won t c (h.won t c hw)⟩

/-- A history that one voter extends goes on. -/
theorem Extends.continues {v : ι} {H H' : History ι} (h : H.Extends v H') : H.Continues H' :=
  ⟨h.vote, h.won⟩

/-- Record a vote. -/
def cast (H : History ι) (v : ι) (t : ℕ) (c : ι) : History ι :=
  { H with vote := fun w s d => H.vote w s d ∨ w = v ∧ s = t ∧ d = c }

/-- Record a win. -/
def declare (H : History ι) (t : ℕ) (v : ι) : History ι :=
  { H with won := fun s d => H.won s d ∨ s = t ∧ d = v }

/-- A vote is added by its voter. -/
theorem extends_cast (H : History ι) (v : ι) (t : ℕ) (c : ι) : H.Extends v (H.cast v t c) where
  vote := fun _ _ _ h => Or.inl h
  won := fun _ _ h => h
  vote_of_ne := fun _ _ _ hne h => h.resolve_right fun h' => hne h'.1
  won_of_ne := fun _ _ _ h => h

/-- A victory is added by its winner. -/
theorem extends_declare (H : History ι) (t : ℕ) (v : ι) : H.Extends v (H.declare t v) where
  vote := fun _ _ _ h => h
  won := fun _ _ h => Or.inl h
  vote_of_ne := fun _ _ _ _ h => h
  won_of_ne := fun _ _ hne h => h.resolve_right fun h' => hne h'.2

/-- No vote, no winner. -/
def blank (ι : Type*) : History ι := ⟨fun _ _ _ => False, fun _ _ => False⟩

/-- The blank history is sound. -/
theorem sound_blank (members : Finset ι) : (blank ι).Sound members where
  once := fun _ _ _ _ h => h.elim
  majority := fun _ _ h => h.elim
  loyal := fun _ _ _ h => h.elim

end History

/-- What voter `v` remembers agrees with the votes it has cast: the vote it
still has to honour is its choice, and it has only forgotten a vote for itself
that can no longer win. -/
structure Honours (H : History ι) (v : ι) (s : Voter ι) : Prop where
  vote_le : ∀ t c, H.vote v t c → t ≤ s.term
  choice_of_vote : ∀ c, H.vote v s.term c → c ≠ v → s.choice = some c ∧ s.role = .follower
  own_vote : s.role ≠ .follower → s.choice = some v ∧ H.vote v s.term v
  won_of_leader : s.role = .leader → H.won s.term v
  won_le : ∀ t, H.won t v → t ≤ s.term
  choice_of_won : H.won s.term v → s.choice = some v

namespace Honours

variable {H H' : History ι} {v w : ι} {s : Voter ι}

/-- What others do does not concern a voter. -/
theorem extend (h : Honours H w s) (hx : H.Extends v H') (hne : w ≠ v) : Honours H' w s where
  vote_le := fun t c hv => h.vote_le t c (hx.vote_of_ne w t c hne hv)
  choice_of_vote := fun c hv => h.choice_of_vote c (hx.vote_of_ne w _ c hne hv)
  own_vote := fun hr => ⟨(h.own_vote hr).1, hx.vote w _ w (h.own_vote hr).2⟩
  won_of_leader := fun hr => hx.won _ w (h.won_of_leader hr)
  won_le := fun t hw => h.won_le t (hx.won_of_ne t w hne hw)
  choice_of_won := fun hw => h.choice_of_won (hx.won_of_ne _ w hne hw)

/-- A fresh voter has nothing to honour. -/
theorem blank (v : ι) : Honours (.blank ι) v ⟨0, none, .follower⟩ where
  vote_le := fun _ _ h => h.elim
  choice_of_vote := fun _ h => h.elim
  own_vote := fun h => absurd rfl h
  won_of_leader := fun h => by cases h
  won_le := fun _ h => h.elim
  choice_of_won := fun h => h.elim

/-- A voter that comes back with its term and choice has lost its role only. -/
theorem reboot (h : Honours H v s) : Honours H v { s with role := .follower } where
  vote_le := h.vote_le
  choice_of_vote := fun c hv hne => ⟨(h.choice_of_vote c hv hne).1, rfl⟩
  own_vote := fun hr => absurd rfl hr
  won_of_leader := fun hr => by cases hr
  won_le := h.won_le
  choice_of_won := h.choice_of_won

/-- A later term comes with a free choice. -/
theorem later (h : Honours H v s) {t : ℕ} (ht : s.term < t) (choice : Option ι) :
    Honours H v ⟨t, choice, .follower⟩ where
  vote_le := fun u c hv => (h.vote_le u c hv).trans ht.le
  choice_of_vote := fun c hv _ => absurd (h.vote_le t c hv) (by simpa using ht)
  own_vote := fun hr => absurd rfl hr
  won_of_leader := fun hr => by cases hr
  won_le := fun u hw => (h.won_le u hw).trans ht.le
  choice_of_won := fun hw => absurd (h.won_le t hw) (by simpa using ht)

/-- Stand down for the winner of the voter's own term. -/
theorem defer [DecidableEq ι] {members : Finset ι} (hH : H.Sound members) (h : Honours H v s)
    (hrole : s.role ≠ .follower) (hwon : H.won s.term w) (hne : w ≠ v) :
    Honours H v ⟨s.term, none, .follower⟩ where
  vote_le := h.vote_le
  choice_of_vote := fun c hv hc => absurd (h.choice_of_vote c hv hc).2 hrole
  own_vote := fun hr => absurd rfl hr
  won_of_leader := fun hr => by cases hr
  won_le := h.won_le
  choice_of_won := fun hw => absurd (hH.unique hwon hw) hne

/-- Stand for election in the next term. -/
theorem campaign (h : Honours H v s) :
    Honours (H.cast v (s.term + 1) v) v ⟨s.term + 1, some v, .candidate⟩ where
  vote_le := by
    rintro t c (hv | ⟨-, rfl, -⟩)
    · exact (h.vote_le t c hv).trans (Nat.le_succ _)
    · exact le_rfl
  choice_of_vote := by
    rintro c (hv | ⟨-, -, rfl⟩) hne
    · exact absurd (h.vote_le _ c hv) (Nat.not_succ_le_self _)
    · exact absurd rfl hne
  own_vote := fun _ => ⟨rfl, Or.inr ⟨rfl, rfl, rfl⟩⟩
  won_of_leader := fun hr => by cases hr
  won_le := fun t hw => (h.won_le t hw).trans (Nat.le_succ _)
  choice_of_won := fun _ => rfl

/-- A voter asked by another has no choice of its own unless it stands itself. -/
theorem follower_of_free (h : Honours H v s) {c : ι} (hc : c ≠ v)
    (hfree : s.choice = none ∨ s.choice = some c) : s.role = .follower := by
  by_contra hrole
  have hown := (h.own_vote hrole).1
  rcases hfree with hf | hf
  · rw [hf] at hown
    cases hown
  · rw [hf] at hown
    exact hc (Option.some.inj hown)

/-- Before it is recorded, a vote for another is consistent with the old ones. -/
theorem pregrant (h : Honours H v s) {c : ι} (hc : c ≠ v)
    (hfree : s.choice = none ∨ s.choice = some c) : Honours H v ⟨s.term, some c, s.role⟩ where
  vote_le := h.vote_le
  choice_of_vote := by
    intro d hv hd
    obtain ⟨hchoice, hrole⟩ := h.choice_of_vote d hv hd
    refine ⟨?_, hrole⟩
    rcases hfree with hf | hf
    · rw [hf] at hchoice
      cases hchoice
    · exact hf.symm.trans hchoice
  own_vote := fun hrole => absurd (h.follower_of_free hc hfree) hrole
  won_of_leader := h.won_of_leader
  won_le := h.won_le
  choice_of_won := by
    intro hw
    have hown := h.choice_of_won hw
    rcases hfree with hf | hf
    · rw [hf] at hown
      cases hown
    · exact hf.symm.trans hown

/-- Vote for another. -/
theorem grant (h : Honours H v s) {c : ι} (hc : c ≠ v)
    (hfree : s.choice = none ∨ s.choice = some c) :
    Honours (H.cast v s.term c) v ⟨s.term, some c, s.role⟩ where
  vote_le := by
    rintro t d (hv | ⟨-, rfl, -⟩)
    · exact h.vote_le t d hv
    · exact le_rfl
  choice_of_vote := by
    rintro d (hv | ⟨-, -, rfl⟩) hd
    · exact (h.pregrant hc hfree).choice_of_vote d hv hd
    · exact ⟨rfl, h.follower_of_free hc hfree⟩
  own_vote := fun hrole => absurd (h.follower_of_free hc hfree) hrole
  won_of_leader := h.won_of_leader
  won_le := h.won_le
  choice_of_won := (h.pregrant hc hfree).choice_of_won

/-- Win the election of the voter's own term. -/
theorem win (h : Honours H v s) (hrole : s.role = .candidate) :
    Honours (H.declare s.term v) v ⟨s.term, s.choice, .leader⟩ where
  vote_le := h.vote_le
  choice_of_vote := by
    intro c hv hc
    have := (h.choice_of_vote c hv hc).2
    rw [hrole] at this
    cases this
  own_vote := fun _ => h.own_vote (by rw [hrole]; decide)
  won_of_leader := fun _ => Or.inr ⟨rfl, rfl⟩
  won_le := by
    rintro t (hw | ⟨rfl, -⟩)
    · exact h.won_le t hw
    · exact le_rfl
  choice_of_won := fun _ => (h.own_vote (by rw [hrole]; decide)).1

end Honours

namespace History.Sound

variable {members : Finset ι} {H : History ι} {v : ι} {s : Voter ι}

/-- A vote for oneself in a term to come breaks no rule. -/
theorem campaign (hH : H.Sound members) : (H.cast v (s.term + 1) v).Sound members where
  once := by
    rintro w t c d (hc | ⟨hw, -, hc⟩) (hd | ⟨hw', -, hd⟩) hcw hdw
    · exact hH.once w t c d hc hd hcw hdw
    · exact absurd (hd.trans hw'.symm) hdw
    · exact absurd (hc.trans hw.symm) hcw
    · exact hc.trans hd.symm
  majority := fun t c hw => by
    obtain ⟨Q, hQ, hv⟩ := hH.majority t c hw
    exact ⟨Q, hQ, fun w hw => Or.inl (hv w hw)⟩
  loyal := by
    rintro w t c (hv | ⟨rfl, rfl, rfl⟩) hne
    · exact hH.loyal w t c hv hne
    · exact absurd rfl hne

/-- A vote for another breaks no rule when the voter is free to cast it. -/
theorem grant (hH : H.Sound members) (h : Honours H v s) {c : ι} (hc : c ≠ v)
    (hfree : s.choice = none ∨ s.choice = some c) : (H.cast v s.term c).Sound members where
  once := by
    -- an earlier vote for another is still the voter's choice
    have hold : ∀ d, H.vote v s.term d → d ≠ v → d = c := by
      intro d hd hdv
      have hchoice := (h.choice_of_vote d hd hdv).1
      rcases hfree with hf | hf
      · rw [hf] at hchoice
        cases hchoice
      · rw [hf] at hchoice
        exact (Option.some.inj hchoice).symm
    rintro w t d e (hd | ⟨hw, ht, hdc⟩) (he | ⟨hw', ht', hec⟩) hdw hew
    · exact hH.once w t d e hd he hdw hew
    · subst hw' ht' hec
      exact hold d hd hdw
    · subst hw ht hdc
      exact (hold e he hew).symm
    · exact hdc.trans hec.symm
  majority := fun t c hw => by
    obtain ⟨Q, hQ, hv⟩ := hH.majority t c hw
    exact ⟨Q, hQ, fun w hw => Or.inl (hv w hw)⟩
  loyal := by
    rintro w t d (hv | ⟨rfl, rfl, rfl⟩) hne hw
    · exact hH.loyal w t d hv hne hw
    · have hown := h.choice_of_won hw
      rcases hfree with hf | hf
      · rw [hf] at hown
        cases hown
      · rw [hf] at hown
        exact hc (Option.some.inj hown)

/-- A candidate that counted a majority of votes may win. -/
theorem win (hH : H.Sound members) (h : Honours H v s) (hrole : s.role = .candidate)
    {Q : Finset ι} (hQ : Majority members Q) (hv : ∀ w ∈ Q, H.vote w s.term v) :
    (H.declare s.term v).Sound members where
  once := hH.once
  majority := by
    rintro t c (hw | ⟨rfl, rfl⟩)
    · exact hH.majority t c hw
    · exact ⟨Q, hQ, hv⟩
  loyal := by
    rintro w t c hvote hne (hw | ⟨rfl, rfl⟩)
    · exact hH.loyal w t c hvote hne hw
    · have := (h.choice_of_vote c hvote hne).2
      rw [hrole] at this
      cases this

end History.Sound

end Ballots
