import Mathlib.Data.List.Basic
import Mathlib.Data.List.Infix

/-!
# Reading UTF-8

Bytes are read as characters, with U+FFFD for every longest piece that begins a character and
cannot be completed, and for every byte that begins none.  Bytes that encode characters are read
back as they are, and a character that is cut short by an ASCII byte, or by the end, is read as
one U+FFFD (`decode_torn`).
-/

namespace Utf8

/-- U+FFFD -/
def replacement : Char := Char.ofNat 0xFFFD

/-- Where a reader stands between two bytes. -/
inductive State
  | start
  /-- `left` more bytes are needed, of which the first is between `low` and `high`; `code` is
  what the bytes so far say -/
  | inside (code left low high : ℕ)
  deriving DecidableEq

/-- The first byte of a character. -/
def begin (b : ℕ) : State × List Char :=
  if b < 0x80 then (.start, [Char.ofNat b])
  else if 0xC2 ≤ b ∧ b ≤ 0xDF then (.inside (b - 0xC0) 1 0x80 0xBF, [])
  else if 0xE0 ≤ b ∧ b ≤ 0xEF then
    (.inside (b - 0xE0) 2 (if b = 0xE0 then 0xA0 else 0x80) (if b = 0xED then 0x9F else 0xBF), [])
  else if 0xF0 ≤ b ∧ b ≤ 0xF4 then
    (.inside (b - 0xF0) 3 (if b = 0xF0 then 0x90 else 0x80) (if b = 0xF4 then 0x8F else 0xBF), [])
  else (.start, [replacement])

/-- One byte: where the reader stands behind it, and the characters it has read. -/
def step (s : State) (b : ℕ) : State × List Char :=
  match s with
  | .start => begin b
  | .inside code left low high =>
      if low ≤ b ∧ b ≤ high then
        if left = 1 then (.start, [Char.ofNat (code * 64 + (b - 0x80))])
        else (.inside (code * 64 + (b - 0x80)) (left - 1) 0x80 0xBF, [])
      else ((begin b).1, replacement :: (begin b).2)

/-- Read on from a state. -/
def decodeFrom : State → List UInt8 → List Char
  | .start, [] => []
  | .inside _ _ _ _, [] => [replacement]
  | s, b :: bs => (step s b.toNat).2 ++ decodeFrom (step s b.toNat).1 bs

/-- Read the bytes of a text. -/
def decode (bs : List UInt8) : List Char := decodeFrom .start bs

/-- One to four bytes a character. -/
def encode (cs : List Char) : List UInt8 := cs.flatMap String.utf8EncodeChar

@[simp] theorem encode_nil : encode [] = [] := rfl

@[simp] theorem encode_cons (c : Char) (cs : List Char) :
    encode (c :: cs) = String.utf8EncodeChar c ++ encode cs := List.flatMap_cons

@[simp] theorem encode_append (cs ds : List Char) : encode (cs ++ ds) = encode cs ++ encode ds :=
  List.flatMap_append

/-- One more byte. -/
theorem decodeFrom_cons (s : State) (b : UInt8) (bs : List UInt8) :
    decodeFrom s (b :: bs) = (step s b.toNat).2 ++ decodeFrom (step s b.toNat).1 bs := by
  cases s <;> rfl

/-! ## The bytes of one character -/

/-- From `s` the bytes spell `c`. -/
inductive Spells : State → List UInt8 → Char → Prop
  | last {s : State} {b : UInt8} {c : Char} (h : step s b.toNat = (.start, [c])) : Spells s [b] c
  | cons {s : State} {b : UInt8} {bs : List UInt8} {c : Char} {code left low high : ℕ}
      (h : step s b.toNat = (.inside code left low high, [])) (hlow : 0x80 ≤ low)
      (hrest : Spells (.inside code left low high) bs c) : Spells s (b :: bs) c

/-- The last byte of a character completes it. -/
theorem step_last {code low high b : ℕ} (hlow : low ≤ b) (hhigh : b ≤ high) :
    step (.inside code 1 low high) b = (.start, [Char.ofNat (code * 64 + (b - 0x80))]) := by
  unfold step
  dsimp only
  rw [if_pos ⟨hlow, hhigh⟩, if_pos rfl]

/-- A byte before the last one adds six bits. -/
theorem step_inside {code left low high b : ℕ} (hleft : left ≠ 1) (hlow : low ≤ b)
    (hhigh : b ≤ high) : step (.inside code left low high) b =
      (.inside (code * 64 + (b - 0x80)) (left - 1) 0x80 0xBF, []) := by
  unfold step
  dsimp only
  rw [if_pos ⟨hlow, hhigh⟩, if_neg hleft]

/-- The lead byte of two. -/
theorem begin_two {b : ℕ} (hlow : 0xC2 ≤ b) (hhigh : b ≤ 0xDF) :
    begin b = (.inside (b - 0xC0) 1 0x80 0xBF, []) := by
  unfold begin
  rw [if_neg (by omega), if_pos ⟨hlow, hhigh⟩]

/-- The lead byte of three; two of them narrow what may follow. -/
theorem begin_three {b : ℕ} (hlow : 0xE0 ≤ b) (hhigh : b ≤ 0xEF) :
    begin b = (.inside (b - 0xE0) 2 (if b = 0xE0 then 0xA0 else 0x80)
      (if b = 0xED then 0x9F else 0xBF), []) := by
  unfold begin
  rw [if_neg (by omega), if_neg (by omega), if_pos ⟨hlow, hhigh⟩]

/-- The lead byte of four; two of them narrow what may follow. -/
theorem begin_four {b : ℕ} (hlow : 0xF0 ≤ b) (hhigh : b ≤ 0xF4) :
    begin b = (.inside (b - 0xF0) 3 (if b = 0xF0 then 0x90 else 0x80)
      (if b = 0xF4 then 0x8F else 0xBF), []) := by
  unfold begin
  rw [if_neg (by omega), if_neg (by omega), if_neg (by omega), if_pos ⟨hlow, hhigh⟩]

section Bytes

variable {b₀ b₁ b₂ b₃ : UInt8} {c : Char}

/-- Two bytes that spell a character. -/
theorem spells_two (h₀ : 0xC2 ≤ b₀.toNat ∧ b₀.toNat ≤ 0xDF) (h₁ : 0x80 ≤ b₁.toNat ∧ b₁.toNat ≤ 0xBF)
    (hc : Char.ofNat ((b₀.toNat - 0xC0) * 64 + (b₁.toNat - 0x80)) = c) :
    Spells .start [b₀, b₁] c :=
  .cons (begin_two h₀.1 h₀.2) le_rfl (.last (hc ▸ step_last h₁.1 h₁.2))

/-- Three bytes that do. -/
theorem spells_three (h₀ : 0xE0 ≤ b₀.toNat ∧ b₀.toNat ≤ 0xEF)
    (h₁ : (if b₀.toNat = 0xE0 then 0xA0 else 0x80) ≤ b₁.toNat ∧
      b₁.toNat ≤ if b₀.toNat = 0xED then 0x9F else 0xBF)
    (h₂ : 0x80 ≤ b₂.toNat ∧ b₂.toNat ≤ 0xBF)
    (hc : Char.ofNat (((b₀.toNat - 0xE0) * 64 + (b₁.toNat - 0x80)) * 64 + (b₂.toNat - 0x80)) = c) :
    Spells .start [b₀, b₁, b₂] c :=
  .cons (begin_three h₀.1 h₀.2) (by split <;> omega)
    (.cons (step_inside (by decide) h₁.1 h₁.2) le_rfl (.last (hc ▸ step_last h₂.1 h₂.2)))

/-- Four bytes that do. -/
theorem spells_four (h₀ : 0xF0 ≤ b₀.toNat ∧ b₀.toNat ≤ 0xF4)
    (h₁ : (if b₀.toNat = 0xF0 then 0x90 else 0x80) ≤ b₁.toNat ∧
      b₁.toNat ≤ if b₀.toNat = 0xF4 then 0x8F else 0xBF)
    (h₂ : 0x80 ≤ b₂.toNat ∧ b₂.toNat ≤ 0xBF) (h₃ : 0x80 ≤ b₃.toNat ∧ b₃.toNat ≤ 0xBF)
    (hc : Char.ofNat ((((b₀.toNat - 0xF0) * 64 + (b₁.toNat - 0x80)) * 64 + (b₂.toNat - 0x80)) * 64 +
      (b₃.toNat - 0x80)) = c) : Spells .start [b₀, b₁, b₂, b₃] c :=
  .cons (begin_four h₀.1 h₀.2) (by split <;> omega)
    (.cons (step_inside (by decide) h₁.1 h₁.2) le_rfl
      (.cons (step_inside (by decide) h₂.1 h₂.2) le_rfl (.last (hc ▸ step_last h₃.1 h₃.2))))

end Bytes

/-- A byte below 256 is itself. -/
theorem toNat_ofNat {k : ℕ} (h : k < 256) : (UInt8.ofNat k).toNat = k :=
  UInt8.toNat_ofNat_of_lt' h

/-- **A character is spelled by its bytes.** -/
theorem spells_encodeChar (c : Char) : Spells .start (String.utf8EncodeChar c) c := by
  have hvalid : c.toNat < 0xD800 ∨ 0xDFFF < c.toNat ∧ c.toNat < 0x110000 := c.valid
  have hchar : Char.ofNat c.toNat = c := Char.ofNat_toNat c
  unfold String.utf8EncodeChar
  dsimp only
  rw [show c.val.toNat = c.toNat from rfl]
  generalize c.toNat = v at hvalid hchar
  have htail : ∀ d, (UInt8.ofNat (d % 0x40 + 0x80)).toNat = d % 0x40 + 0x80 := fun d =>
    toNat_ofNat (by omega)
  split
  · apply Spells.last
    rw [toNat_ofNat (by omega)]
    unfold step begin
    dsimp only
    rw [if_pos (by omega), hchar]
  · split
    · have hfirst := toNat_ofNat (k := v / 64 % 0x20 + 0xC0) (by omega)
      apply spells_two
      · rw [hfirst]
        omega
      · rw [htail]
        omega
      · rw [hfirst, htail, ← hchar]
        exact congrArg Char.ofNat (by omega)
    · split
      · have hfirst := toNat_ofNat (k := v / 4096 % 0x10 + 0xE0) (by omega)
        apply spells_three
        · rw [hfirst]
          omega
        · rw [hfirst, htail]
          constructor <;> split <;> omega
        · rw [htail]
          omega
        · rw [hfirst, htail, htail, ← hchar]
          exact congrArg Char.ofNat (by omega)
      · have hfirst := toNat_ofNat (k := v / 262144 % 0x08 + 0xF0) (by omega)
        apply spells_four
        · rw [hfirst]
          omega
        · rw [hfirst, htail]
          constructor <;> split <;> omega
        · rw [htail]
          omega
        · rw [htail]
          omega
        · rw [hfirst, htail, htail, htail, ← hchar]
          exact congrArg Char.ofNat (by omega)

/-! ## Reading what was written -/

/-- Bytes that spell a character decode to it, whatever follows. -/
theorem Spells.decodeFrom {s : State} {bs : List UInt8} {c : Char} (h : Spells s bs c)
    (rest : List UInt8) : decodeFrom s (bs ++ rest) = c :: decode rest := by
  induction h with
  | last h =>
      rw [List.singleton_append, decodeFrom_cons, h]
      rfl
  | cons h _ _ ih =>
      rw [List.cons_append, decodeFrom_cons, h]
      exact ih

/-- What encodes characters is read back as they are. -/
theorem decode_encode_append (cs : List Char) (rest : List UInt8) :
    decode (encode cs ++ rest) = cs ++ decode rest := by
  induction cs with
  | nil => rfl
  | cons c cs ih =>
      rw [encode_cons, List.append_assoc]
      exact ((spells_encodeChar c).decodeFrom _).trans (congrArg (c :: ·) ih)

/-- A text is decoded back, by induction on its characters. -/
theorem decode_encode (cs : List Char) : decode (encode cs) = cs := by
  have h := decode_encode_append cs []
  rwa [List.append_nil, show decode [] = [] from rfl, List.append_nil] at h

/-! ## Reading what was cut short -/

/-- There is no byte, or the first one is ASCII. -/
def AsciiHead (bs : List UInt8) : Prop := ∀ b ∈ bs.head?, b.toNat < 0x80

theorem asciiHead_nil : AsciiHead [] := nofun

/-- A character that is cut short is read as one U+FFFD. -/
theorem decodeFrom_cut {code left low high : ℕ} (hlow : 0x80 ≤ low) {rest : List UInt8}
    (hrest : AsciiHead rest) :
    decodeFrom (.inside code left low high) rest = replacement :: decode rest := by
  cases rest with
  | nil => rfl
  | cons b rest =>
      have hb : b.toNat < 0x80 := hrest b rfl
      have hstep : step (.inside code left low high) b.toNat =
          ((begin b.toNat).1, replacement :: (begin b.toNat).2) := by
        unfold step
        dsimp only
        rw [if_neg (by omega)]
      rw [decodeFrom_cons, hstep]
      rfl

/-- A character that is cut short decodes to the replacement character, and what follows is not
harmed. -/
theorem Spells.torn {s : State} {bs t : List UInt8} {c : Char} (h : Spells s bs c)
    (ht : t <+: bs) (hne : t ≠ bs) (hnil : t ≠ []) {rest : List UInt8} (hrest : AsciiHead rest) :
    Utf8.decodeFrom s (t ++ rest) = replacement :: decode rest := by
  induction h generalizing t with
  | last h =>
      rcases List.prefix_cons_iff.mp ht with rfl | ⟨t', rfl, ht'⟩
      · exact (hnil rfl).elim
      · exact (hne (congrArg _ (List.prefix_nil.mp ht'))).elim
  | cons h hlow _ ih =>
      rcases List.prefix_cons_iff.mp ht with rfl | ⟨t', rfl, ht'⟩
      · exact (hnil rfl).elim
      · rw [List.cons_append, decodeFrom_cons, h, List.nil_append]
        by_cases hnil' : t' = []
        · rw [hnil']
          exact decodeFrom_cut hlow hrest
        · exact ih ht' (fun heq => hne (congrArg _ heq)) hnil'

/-- **A torn character** is read as one U+FFFD. -/
theorem decode_torn {c : Char} {t : List UInt8} (ht : t <+: String.utf8EncodeChar c)
    (hne : t ≠ String.utf8EncodeChar c) (hnil : t ≠ []) {rest : List UInt8}
    (hrest : AsciiHead rest) : decode (t ++ rest) = replacement :: decode rest :=
  (spells_encodeChar c).torn ht hne hnil hrest

/-- A front of the bytes of a text: some characters, and a piece of the next one. -/
theorem prefix_encode {cs : List Char} {p : List UInt8} (h : p <+: encode cs) :
    p = encode cs ∨ ∃ ds c rest t, cs = ds ++ c :: rest ∧ p = encode ds ++ t ∧
      t <+: String.utf8EncodeChar c ∧ t ≠ String.utf8EncodeChar c := by
  induction cs generalizing p with
  | nil => exact Or.inl (List.prefix_nil.mp h)
  | cons c cs ih =>
      rw [encode_cons] at h
      by_cases hwhole : String.utf8EncodeChar c <+: p
      · obtain ⟨p', rfl⟩ := hwhole
        rcases ih ((List.prefix_append_right_inj _).mp h) with rfl | ⟨ds, d, rest, t, rfl, rfl, ht⟩
        · exact Or.inl rfl
        · refine Or.inr ⟨c :: ds, d, rest, t, rfl, ?_, ht⟩
          rw [encode_cons, List.append_assoc]
      · refine Or.inr ⟨[], c, cs, p, rfl, rfl, ?_, ?_⟩
        · rcases List.prefix_or_prefix_of_prefix h (List.prefix_append _ _) with hp | hp
          · exact hp
          · exact (hwhole hp).elim
        · rintro rfl
          exact hwhole List.prefix_rfl

example : decode [0x7B, 0xE2, 0x82, 0x7D] = ['{', replacement, '}'] := by decide

end Utf8
