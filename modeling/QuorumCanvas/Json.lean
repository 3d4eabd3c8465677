import Mathlib.Data.List.Basic

/-!
# JSON texts

A JSON number is kept as the literal that denotes it, so that printing and
reading it back is exact whatever the host language's number type is.  Two numbers
are equal when their literals are: a literal is the one that printing gives.
-/

namespace Json

/-- Where a reader stands inside a number literal. -/
inductive NumberState
  | start
  | minus
  | zero
  | digits
  | point
  | fraction
  | exponent
  | sign
  | power
  deriving DecidableEq

namespace NumberState

/-- The grammar of number literals, one character at a time. -/
def next : NumberState → Char → Option NumberState
  | start, c =>
      if c = '-' then some minus else if c = '0' then some zero
      else if c.isDigit then some digits else none
  | minus, c => if c = '0' then some zero else if c.isDigit then some digits else none
  | zero, c =>
      if c = '.' then some point else if c = 'e' ∨ c = 'E' then some exponent else none
  | digits, c =>
      if c.isDigit then some digits else if c = '.' then some point
      else if c = 'e' ∨ c = 'E' then some exponent else none
  | point, c => if c.isDigit then some fraction else none
  | fraction, c =>
      if c.isDigit then some fraction
      else if c = 'e' ∨ c = 'E' then some exponent else none
  | exponent, c =>
      if c = '+' ∨ c = '-' then some sign else if c.isDigit then some power else none
  | sign, c => if c.isDigit then some power else none
  | power, c => if c.isDigit then some power else none

/-- A literal may end here. -/
def accepts : NumberState → Bool
  | zero | digits | fraction | power => true
  | _ => false

/-- Read a whole literal. -/
def run : NumberState → List Char → Option NumberState
  | s, [] => some s
  | s, c :: cs => (s.next c).bind fun s' => run s' cs

end NumberState

/-- `cs` is a number literal of the JSON grammar. -/
def isNumber (cs : List Char) : Bool :=
  ((NumberState.run .start cs).map NumberState.accepts).getD false

/-- A JSON number, as its literal. -/
structure Number where
  lit : List Char
  valid : isNumber lit = true
  deriving DecidableEq

/-- The literal `0`. -/
def Number.zero : Number := ⟨['0'], rfl⟩

/-- The literal `1`. -/
def Number.one : Number := ⟨['1'], rfl⟩

/-- A value of the host language that came out of a JSON text.  There a literal beyond the
range of its numbers is read as an infinity; the reader of this development keeps every
literal as it is, and never yields one. -/
inductive Value
  | null
  | bool (b : Bool)
  | number (n : Number)
  | infinity (negative : Bool)
  | string (s : String)
  | array (items : List Value)
  | object (members : List (String × Value))

namespace Value

/-! ## Reading back

Printing has no literal for an infinity: it comes out as `null`.
-/

mutual

/-- What is read back after a value has been printed. -/
def reread : Value → Value
  | null => null
  | bool b => bool b
  | number n => number n
  | infinity _ => null
  | string s => string s
  | array items => array (rereadItems items)
  | object members => object (rereadMembers members)

/-- The items of an array, read back. -/
def rereadItems : List Value → List Value
  | [] => []
  | v :: items => reread v :: rereadItems items

/-- The members of an object, read back. -/
def rereadMembers : List (String × Value) → List (String × Value)
  | [] => []
  | (k, v) :: members => (k, reread v) :: rereadMembers members

end

/-! ## Nesting -/

mutual

/-- How many arrays and objects lie in one another. -/
def nesting : Value → ℕ
  | null | bool _ | number _ | infinity _ | string _ => 0
  | array items => itemsNesting items + 1
  | object members => membersNesting members + 1

/-- The depth of the deepest item. -/
def itemsNesting : List Value → ℕ
  | [] => 0
  | v :: items => max (nesting v) (itemsNesting items)

/-- The depth of the deepest member. -/
def membersNesting : List (String × Value) → ℕ
  | [] => 0
  | (_, v) :: members => max (nesting v) (membersNesting members)

end

mutual

/-- How many arrays lie in one another, with nothing else between them. -/
def arrayNesting : Value → ℕ
  | array items => itemsArrayNesting items + 1
  | null | bool _ | number _ | infinity _ | string _ | object _ => 0

/-- The same for arrays in arrays. -/
def itemsArrayNesting : List Value → ℕ
  | [] => 0
  | v :: items => max (arrayNesting v) (itemsArrayNesting items)

end

mutual

/-- Reading back keeps the depth, as it keeps arrays and objects. -/
theorem nesting_reread : ∀ v : Value, v.reread.nesting = v.nesting
  | null | bool _ | number _ | infinity _ | string _ => rfl
  | array items => congrArg (· + 1) (itemsNesting_reread items)
  | object members => congrArg (· + 1) (membersNesting_reread members)

/-- It keeps the depth of items. -/
theorem itemsNesting_reread : ∀ items, itemsNesting (rereadItems items) = itemsNesting items
  | [] => rfl
  | v :: items => congrArg₂ max (nesting_reread v) (itemsNesting_reread items)

/-- It keeps the depth of members. -/
theorem membersNesting_reread :
    ∀ members, membersNesting (rereadMembers members) = membersNesting members
  | [] => rfl
  | (_, v) :: members => congrArg₂ max (nesting_reread v) (membersNesting_reread members)

end

mutual

/-- It keeps the depth of arrays in arrays. -/
theorem arrayNesting_reread : ∀ v : Value, v.reread.arrayNesting = v.arrayNesting
  | null | bool _ | number _ | infinity _ | string _ | object _ => rfl
  | array items => congrArg (· + 1) (itemsArrayNesting_reread items)

/-- It keeps theirs, item by item. -/
theorem itemsArrayNesting_reread :
    ∀ items, itemsArrayNesting (rereadItems items) = itemsArrayNesting items
  | [] => rfl
  | v :: items => congrArg₂ max (arrayNesting_reread v) (itemsArrayNesting_reread items)

end

end Value

end Json
