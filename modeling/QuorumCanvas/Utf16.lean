import Mathlib.Data.List.Basic

/-!
# UTF-16 and UTF-8

A string is a list of UTF-16 code units, of which any list is one: a surrogate may
stand alone.  Its UTF-8 bytes are those of the characters it decodes to, where a
surrogate that stands alone counts as U+FFFD.  On well-formed strings, those
without one, the bytes determine the string.
-/

namespace Utf16

/-- A high surrogate. -/
def isHigh (u : UInt16) : Bool := 0xD800 ≤ u.toNat && u.toNat < 0xDC00

/-- A low surrogate. -/
def isLow (u : UInt16) : Bool := 0xDC00 ≤ u.toNat && u.toNat < 0xE000

/-- The character of a surrogate pair. -/
def pair (u v : UInt16) : Char :=
  Char.ofNat (0x10000 + (u.toNat - 0xD800) * 0x400 + (v.toNat - 0xDC00))

/-- The character of a code unit by itself. -/
def single (u : UInt16) : Char :=
  if isHigh u || isLow u then Char.ofNat 0xFFFD else Char.ofNat u.toNat

/-- The characters of a string. -/
def decode : List UInt16 → List Char
  | [] => []
  | [u] => [single u]
  | u :: v :: us =>
      if isHigh u && isLow v then pair u v :: decode us else single u :: decode (v :: us)

/-- The code units of a character. -/
def encodeChar (c : Char) : List UInt16 :=
  if c.toNat < 0x10000 then [UInt16.ofNat c.toNat]
  else
    [UInt16.ofNat (0xD800 + (c.toNat - 0x10000) / 0x400),
      UInt16.ofNat (0xDC00 + (c.toNat - 0x10000) % 0x400)]

/-- One unit or two for each character. -/
def encode (cs : List Char) : List UInt16 := cs.flatMap encodeChar

/-- No surrogate stands alone. -/
def WellFormed (s : List UInt16) : Prop := encode (decode s) = s

instance (s : List UInt16) : Decidable (WellFormed s) := by unfold WellFormed; infer_instance

/-- The UTF-8 bytes of a string. -/
def utf8 (s : List UInt16) : List UInt8 := (decode s).flatMap String.utf8EncodeChar

/-- A code unit that is no surrogate stands for itself. -/
theorem decode_cons {u : UInt16} (hhigh : isHigh u = false) (hlow : isLow u = false)
    (us : List UInt16) : decode (u :: us) = Char.ofNat u.toNat :: decode us := by
  have hsingle : single u = Char.ofNat u.toNat := by simp [single, hhigh, hlow]
  cases us with
  | nil => simp [decode, hsingle]
  | cons v us => simp [decode, hhigh, hsingle]

/-- A character is decoded back, whatever follows. -/
theorem decode_encodeChar_append (c : Char) (us : List UInt16) :
    decode (encodeChar c ++ us) = c :: decode us := by
  have hvalid : c.toNat < 0xD800 ∨ 0xDFFF < c.toNat ∧ c.toNat < 0x110000 := c.valid
  unfold encodeChar
  by_cases hsmall : c.toNat < 0x10000
  · have hunit : (UInt16.ofNat c.toNat).toNat = c.toNat := UInt16.toNat_ofNat_of_lt' hsmall
    rw [if_pos hsmall, List.singleton_append, decode_cons, hunit, Char.ofNat_toNat]
    · unfold isHigh
      rw [hunit]
      simp
      omega
    · unfold isLow
      rw [hunit]
      simp
      omega
  · -- a pair: the surrogates hold the two halves of what exceeds 0x10000
    have hu : (UInt16.ofNat (0xD800 + (c.toNat - 0x10000) / 0x400)).toNat =
        0xD800 + (c.toNat - 0x10000) / 0x400 :=
      UInt16.toNat_ofNat_of_lt' (by show _ < 65536; omega)
    have hv : (UInt16.ofNat (0xDC00 + (c.toNat - 0x10000) % 0x400)).toNat =
        0xDC00 + (c.toNat - 0x10000) % 0x400 :=
      UInt16.toNat_ofNat_of_lt' (by show _ < 65536; omega)
    have hpair : pair (UInt16.ofNat (0xD800 + (c.toNat - 0x10000) / 0x400))
        (UInt16.ofNat (0xDC00 + (c.toNat - 0x10000) % 0x400)) = c := by
      unfold pair
      rw [hu, hv]
      have hsum : 0x10000 + (0xD800 + (c.toNat - 0x10000) / 0x400 - 0xD800) * 0x400 +
          (0xDC00 + (c.toNat - 0x10000) % 0x400 - 0xDC00) = c.toNat := by omega
      rw [hsum, Char.ofNat_toNat]
    have hhigh : isHigh (UInt16.ofNat (0xD800 + (c.toNat - 0x10000) / 0x400)) = true := by
      unfold isHigh
      rw [hu]
      simp
      omega
    have hlow : isLow (UInt16.ofNat (0xDC00 + (c.toNat - 0x10000) % 0x400)) = true := by
      unfold isLow
      rw [hv]
      simp
      omega
    rw [if_neg hsmall, List.cons_append, List.singleton_append, decode, hhigh, hlow, hpair]
    rfl

/-- Decoding undoes encoding. -/
theorem decode_encode (cs : List Char) : decode (encode cs) = cs := by
  induction cs with
  | nil => rfl
  | cons c cs ih =>
      show decode (encodeChar c ++ encode cs) = c :: cs
      rw [decode_encodeChar_append, ih]

/-- The strings that characters encode to are the well-formed ones. -/
theorem wellFormed_encode (cs : List Char) : WellFormed (encode cs) := by
  unfold WellFormed
  rw [decode_encode]

/-- Characters can be read back from their bytes. -/
theorem flatMap_utf8EncodeChar_inj {cs ds : List Char}
    (h : cs.flatMap String.utf8EncodeChar = ds.flatMap String.utf8EncodeChar) : cs = ds := by
  have hbytes : cs.utf8Encode = ds.utf8Encode := congrArg List.toByteArray h
  have hread := congrArg ByteArray.utf8Decode? hbytes
  rw [List.utf8Decode?_utf8Encode, List.utf8Decode?_utf8Encode] at hread
  exact Array.toList_inj.mpr (Option.some.inj hread)

/-- **Equal bytes, equal strings,** as long as both are well formed. -/
theorem utf8_inj {s t : List UInt16} (hs : WellFormed s) (ht : WellFormed t)
    (h : utf8 s = utf8 t) : s = t := by
  have hchars : decode s = decode t := flatMap_utf8EncodeChar_inj h
  calc s = encode (decode s) := hs.symm
    _ = encode (decode t) := by rw [hchars]
    _ = t := ht

example : utf8 (encode "é€".toList) = [0xC3, 0xA9, 0xE2, 0x82, 0xAC] := by decide

end Utf16
