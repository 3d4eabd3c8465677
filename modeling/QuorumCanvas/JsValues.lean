import QuorumCanvas.Json
import QuorumCanvas.OrderedMap

/-!
# Values of a script that come from JSON

A variable holds a value that came out of `JSON.parse`, or `undefined`.  What a
script does with such a value without knowing its shape is partial: reading a
property of `undefined` or `null` throws, and so does using as a property name
what has no primitive form.  `JSON.stringify` and `join` call themselves for what lies
inside a value, and throw when it is nested too deep for the stack.

Objects and arrays are compared by identity.  Two variables that are compared
never hold the same object here, so an object equals no other value.
-/

namespace Js

open Json (Value)

/-- `undefined`, or a value. -/
abbrev Var := Option Value

/-- What is thrown in this model. -/
inductive Thrown
  /-- `TypeError`: cannot read properties of `undefined` or `null` -/
  | readOfNullish
  /-- `TypeError`: cannot convert an object to a primitive value -/
  | notPrimitive
  /-- `RangeError`: maximum call stack size exceeded -/
  | stackOverflow
  deriving DecidableEq

/-- `v?.name`: what a property holds, when `v` has properties. -/
def get (v : Var) (name : String) : Except Thrown Var :=
  match v with
  | none | some .null => .error .readOfNullish
  | some (.object members) => .ok (OrderedMap.get? members name)
  | some _ => .ok none

/-- `v ?? other`. -/
def orElse (v : Var) (other : Value) : Value :=
  match v with
  | none | some .null => other
  | some value => value

/-- `v` counts as true in a condition. -/
def truthy : Var → Bool
  | none | some .null => false
  | some (.bool b) => b
  | some (.number n) => n.lit ≠ ['0']
  | some (.string s) => s ≠ ""
  | some (.infinity _) | some (.array _) | some (.object _) => true

/-- `v === w`, and equality of keys. -/
def same : Var → Var → Bool
  | none, none => true
  | some .null, some .null => true
  | some (.bool a), some (.bool b) => a = b
  | some (.number a), some (.number b) => a = b
  | some (.infinity a), some (.infinity b) => a = b
  | some (.string a), some (.string b) => a = b
  | _, _ => false

/-- `v === 'text'`. -/
def isText (v : Value) (text : String) : Bool := same (some v) (some (.string text))

/-! ## The stack -/

/-- How deep a value may be nested before a function that calls itself for what lies inside
overflows the stack.  The objects that a script builds itself fit. -/
structure Stack where
  stringify : ℕ
  join : ℕ
  roomy : 4 ≤ stringify

/-- How deep a variable is nested; `undefined` is not. -/
def nesting (v : Var) : ℕ := (v.map Value.nesting).getD 0

@[simp] theorem nesting_none : nesting none = 0 := rfl

@[simp] theorem nesting_some (v : Value) : nesting (some v) = v.nesting := rfl

/-- `JSON.stringify` of an object that holds the variables, as far as it may throw. -/
def stringify (stack : Stack) (members : List Var) : Except Thrown Unit :=
  if members.any fun v => stack.stringify < nesting v + 1 then .error .stackOverflow else .ok ()

/-- An object of members that are not too deep. -/
theorem stringify_ok {stack : Stack} {members : List Var}
    (h : ∀ v ∈ members, nesting v + 1 ≤ stack.stringify) : stringify stack members = .ok () := by
  refine if_neg fun hany => ?_
  obtain ⟨v, hv, hlt⟩ := List.any_eq_true.mp hany
  have hle := h v hv
  have hlt := of_decide_eq_true hlt
  omega

/-! ## Conversion to a property name -/

mutual

/-- `String(v)`.  An object is converted by its `toString`: a member of that name
is no function, and the `valueOf` tried next gives the object itself. -/
def toText : Value → Except Thrown String
  | .null => .ok "null"
  | .bool b => .ok (if b then "true" else "false")
  | .number n => .ok (String.ofList n.lit)
  | .infinity negative => .ok (if negative then "-Infinity" else "Infinity")
  | .string s => .ok s
  | .array items => joinItems items
  | .object members =>
      match OrderedMap.get? members "toString" with
      | some _ => .error .notPrimitive
      | none => .ok "[object Object]"

/-- `items.join()`: `null` is left out. -/
def joinItems : List Value → Except Thrown String
  | [] => .ok ""
  | v :: items => do
      let text ← match v with
        | .null => .ok ""
        | _ => toText v
      if items.isEmpty then return text
      return text ++ "," ++ (← joinItems items)

end

/-- The property that `object[v]` names. -/
def propertyName : Var → Except Thrown String
  | none => .ok "undefined"
  | some v => toText v

/-- The same on a stack that arrays in arrays may overflow. -/
def propertyNameOn (stack : Stack) (v : Var) : Except Thrown String :=
  if stack.join < (v.map Value.arrayNesting).getD 0 then .error .stackOverflow
  else propertyName v

end Js
