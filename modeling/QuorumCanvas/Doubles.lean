import Mathlib.Data.Rat.Defs
import Mathlib.Algebra.Order.Field.Rat
import QuorumCanvas.JsonText

/-!
# Number literals and doubles

A script reads a number literal as the nearest double, and prints a double by the shortest
literal that is read as it.  A literal is `Printed` when it is what the double that it is read as is
printed as; such literals stand for their doubles one by one.

`parse` keeps literals, and has no strings with lone surrogates.  A text is `Faithful` when that
makes no difference: its numbers are printed, and no surrogate is escaped in it.
-/

namespace Binary64

/-- `base ^ e`. -/
def scale (base : ℕ) (e : ℤ) : ℚ :=
  if 0 ≤ e then ((base ^ e.toNat : ℕ) : ℚ) else 1 / ((base ^ (-e).toNat : ℕ) : ℚ)

/-- The nearest integer, the even one of two. -/
def nearest (q : ℚ) : ℤ :=
  let n := q.floor
  let rest := q - n
  if rest < 1 / 2 ∨ rest = 1 / 2 ∧ n % 2 = 0 then n else n + 1

/-- The `e` with `2 ^ e ≤ q < 2 ^ (e + 1)`, for `q` above 0. -/
def binaryExponent (q : ℚ) : ℤ :=
  let e : ℤ := (Nat.log2 q.num.natAbs : ℤ) - Nat.log2 q.den
  if scale 2 e ≤ q then e else e - 1

/-- The double nearest to a number that is not negative; `none` beyond the range of doubles. -/
def ofRat (q : ℚ) : Option ℚ :=
  let e := max (binaryExponent q - 52) (-1074)
  let x := nearest (q / scale 2 e) * scale 2 e
  if x < scale 2 1024 then some x else none

/-- The `n` with `10 ^ (n - 1) ≤ x < 10 ^ n`, for `x` above 0. -/
def decimalExponent (x : ℚ) : ℤ :=
  let n : ℤ := ((Nat.toDigits 10 x.num.natAbs).length : ℤ) - (Nat.toDigits 10 x.den).length
  if scale 10 n ≤ x then n + 1 else n

/-- The literal with digits `ds`, the first of them at `10 ^ (n - 1)`. -/
def shape (ds : List Char) (n : ℤ) : List Char :=
  if (ds.length : ℤ) ≤ n ∧ n ≤ 21 then ds ++ List.replicate (n.toNat - ds.length) '0'
  else if 0 < n ∧ n ≤ 21 then ds.take n.toNat ++ '.' :: ds.drop n.toNat
  else if -6 < n ∧ n ≤ 0 then '0' :: '.' :: (List.replicate (-n).toNat '0' ++ ds)
  else
    let power := 'e' :: (if 0 < n then '+' else '-') :: Nat.toDigits 10 (n - 1).natAbs
    match ds with
    | [] => power
    | [d] => d :: power
    | d :: ds => d :: '.' :: (ds ++ power)

/-- `Number.prototype.toString` above 0: the fewest digits that are read as `x`, and of those
with as many digits the nearest.  No double needs more than 17. -/
def print (x : ℚ) : List Char :=
  let n := decimalExponent x
  let digits (k : ℕ) : ℤ := nearest (x / scale 10 (n - k))
  match (List.range' 1 17).find? fun k => ofRat (digits k * scale 10 (n - k)) = some x with
  | none => []
  | some k =>
      -- rounded up to the next power of ten
      if digits k = 10 ^ k then shape ['1'] (n + 1)
      else shape (Nat.toDigits 10 (digits k).toNat) n

end Binary64

namespace Json

namespace Number

/-- Digits of a literal as a number. -/
def digits (cs : List Char) : ℕ := cs.foldl (fun n c => 10 * n + (c.toNat - '0'.toNat)) 0

/-- The exponent of a literal, with its sign. -/
def exponent : List Char → ℤ
  | '-' :: cs => -digits cs
  | '+' :: cs => digits cs
  | cs => digits cs

/-- The value of a literal.  The literals are those that printing gives, and they are ordered
like the numbers that they stand for. -/
def value (n : Number) : ℚ :=
  let (significand, power) := n.lit.span fun c => c ≠ 'e' ∧ c ≠ 'E'
  let (whole, fraction) := significand.span fun c => c ≠ '.'
  let magnitude : ℚ := digits (whole.filter Char.isDigit ++ fraction.drop 1) *
    10 ^ (exponent (power.drop 1) - (fraction.drop 1).length)
  if n.lit.head? = some '-' then -magnitude else magnitude

/-- What is printed when a literal has been read: 0 without a sign, `null` beyond the range. -/
def reprint (n : Number) : List Char :=
  match Binary64.ofRat |n.value| with
  | none => ['n', 'u', 'l', 'l']
  | some x =>
      if x = 0 then ['0']
      else if n.value < 0 then '-' :: Binary64.print x else Binary64.print x

/-- The literal is what the double that it is read as is printed as. -/
def Printed (n : Number) : Prop := n.reprint = n.lit

instance (n : Number) : Decidable n.Printed := by unfold Printed; infer_instance

example : reprint ⟨"1e23".toList, by decide⟩ = "1e+23".toList := by decide +kernel

example : reprint ⟨"1e400".toList, by decide⟩ = "null".toList := by decide +kernel

end Number

/-! ## Texts that are read as they stand -/

namespace Value

mutual

/-- All numbers are printed. -/
def printed : Value → Bool
  | null | bool _ | string _ => true
  | number n => n.Printed
  | infinity _ => false
  | array items => printedItems items
  | object members => printedMembers members

/-- All items are. -/
def printedItems : List Value → Bool
  | [] => true
  | v :: items => printed v && printedItems items

/-- All members are. -/
def printedMembers : List (String × Value) → Bool
  | [] => true
  | (_, v) :: members => printed v && printedMembers members

end

/-- A member of a printed object is printed. -/
theorem printed_member {members : List (String × Value)} (h : printed (.object members) = true)
    {name : String} {v : Value} (hv : OrderedMap.get? members name = some v) :
    v.printed = true := by
  have hmem : ∀ members : List (String × Value), printedMembers members = true →
      ∀ b ∈ members, b.2.printed = true := by
    intro members
    induction members with
    | nil => exact fun _ _ hb => by cases hb
    | cons b members ih =>
        intro h b' hb'
        obtain ⟨hhead, hrest⟩ := Bool.and_eq_true_iff.mp h
        rcases List.mem_cons.mp hb' with rfl | hb'
        · exact hhead
        · exact ih hrest b' hb'
  exact hmem members h _ (OrderedMap.mem_of_get? hv)

end Value

/-- No surrogate is escaped: a pair of them is a character, which can stand for itself, and a lone
one is none. -/
def sparesSurrogates : List Char → Bool
  | '\\' :: 'u' :: d :: e :: text =>
      !((d = 'd' || d = 'D') && !('0' ≤ e && e ≤ '7')) && sparesSurrogates text
  | '\\' :: _ :: text => sparesSurrogates text
  | _ :: text => sparesSurrogates text
  | [] => true

/-- How deep a text may nest for its value to be printed again, or joined, on the stack of a
script. -/
def nestingLimit : ℕ := 1000

/-- A text that a script reads as `parse` does. -/
structure Faithful (text : List Char) : Prop where
  surrogates : sparesSurrogates text = true
  printed : ∀ v, parse text = some v → v.printed = true
  nesting : ∀ v, parse text = some v → v.nesting ≤ nestingLimit

/-- A text that was printed is faithful if its value is. -/
theorem faithful_stringify {members : List (String × Value)} (h : Plain (.object members))
    (hsurrogates : sparesSurrogates (stringify (.object members)) = true)
    (hprinted : Value.printed (.object members) = true)
    (hnesting : Value.nesting (.object members) ≤ nestingLimit) :
    Faithful (stringify (.object members)) := by
  refine ⟨hsurrogates, fun v hv => ?_, fun v hv => ?_⟩
  · obtain rfl := Option.some.inj ((parse_stringify h).symm.trans hv)
    exact hprinted
  · obtain rfl := Option.some.inj ((parse_stringify h).symm.trans hv)
    exact hnesting

end Json
