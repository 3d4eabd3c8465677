import QuorumCanvas.Json
import QuorumCanvas.OrderedMap
import QuorumCanvas.Utf16

/-!
# Printing and reading JSON texts

`stringify` prints a value without blanks.  `parse` reads a text character by character, with
the containers that are open on a stack.  What was printed is read back (`parse_stringify`), and
while a container is open a text is not complete: a front of an object's text, and an object's
text behind such a front, are not texts of anything (`Open.fails_object`).

A script reads doubles and code units, `parse` keeps literals and has characters only; on the texts
that are `Faithful` this is the same.
-/

namespace Json

/-! ## Printing -/

/-- Digits below ten, then lower-case letters. -/
def hexDigit (d : ℕ) : Char := if d < 10 then Char.ofNat (0x30 + d) else Char.ofNat (0x57 + d)

/-- The letter that a character is escaped with. -/
def escapeLetter (c : Char) : Option Char :=
  if c = '\"' ∨ c = '\\' then some c
  else if c = '\x08' then some 'b' else if c = '\x0c' then some 'f'
  else if c = '\n' then some 'n' else if c = '\r' then some 'r'
  else if c = '\t' then some 't' else none

/-- A character as it stands in a string literal. -/
def escape (c : Char) : List Char :=
  match escapeLetter c with
  | some d => ['\\', d]
  | none =>
      if c.toNat < 0x20 then
        ['\\', 'u', '0', '0', hexDigit (c.toNat / 16), hexDigit (c.toNat % 16)]
      else [c]

/-- A string between its quotes. -/
def quote (s : String) : List Char := '\"' :: (s.toList.flatMap escape ++ ['\"'])

mutual

/-- `JSON.stringify`. -/
def stringify : Value → List Char
  | .null => ['n', 'u', 'l', 'l']
  | .bool true => ['t', 'r', 'u', 'e']
  | .bool false => ['f', 'a', 'l', 's', 'e']
  | .number n => n.lit
  | .infinity _ => ['n', 'u', 'l', 'l']
  | .string s => quote s
  | .array [] => ['[', ']']
  | .array (v :: items) => '[' :: (stringify v ++ stringifyItems items)
  | .object [] => ['\x7b', '\x7d']
  | .object ((key, v) :: members) =>
      '\x7b' :: (quote key ++ ':' :: (stringify v ++ stringifyMembers members))

/-- The other items, and the end of the array. -/
def stringifyItems : List Value → List Char
  | [] => [']']
  | v :: items => ',' :: (stringify v ++ stringifyItems items)

/-- The other members, and the end of the object. -/
def stringifyMembers : List (String × Value) → List Char
  | [] => ['\x7d']
  | (key, v) :: members => ',' :: (quote key ++ ':' :: (stringify v ++ stringifyMembers members))

end

/-! ## Whole numbers -/

/-- One more character. -/
theorem NumberState.run_concat {s s' : NumberState} {cs : List Char} (c : Char)
    (h : run s cs = some s') : run s (cs ++ [c]) = s'.next c := by
  induction cs generalizing s with
  | nil =>
      obtain rfl : s = s' := Option.some.inj h
      exact Option.bind_fun_some (s.next c)
  | cons d cs ih =>
      obtain ⟨s₁, hs₁, hrest⟩ := Option.bind_eq_some_iff.mp h
      rw [List.cons_append, run, hs₁]
      exact ih hrest

/-- The digits of a positive number are read as digits. -/
theorem run_toDigits (n : ℕ) (hn : 0 < n) :
    NumberState.run .start (Nat.toDigits 10 n) = some .digits := by
  have hfirst : ∀ d < 10, 0 < d → NumberState.run .start [d.digitChar] = some .digits := by
    decide
  have hnext : ∀ d < 10, NumberState.digits.next d.digitChar = some .digits := by decide
  induction n using Nat.strongRecOn with
  | ind n ih =>
      by_cases hsmall : n < 10
      · rw [Nat.toDigits_of_lt_base hsmall]
        exact hfirst n hsmall hn
      · rw [Nat.toDigits_of_base_le (by decide) (by omega),
          NumberState.run_concat _ (ih (n / 10) (by omega) (by omega))]
        exact hnext _ (Nat.mod_lt n (by decide))

/-- The digits of a number are a literal. -/
theorem isNumber_toDigits (n : ℕ) : isNumber (Nat.toDigits 10 n) = true := by
  by_cases hn : n = 0
  · rw [hn]
    rfl
  · unfold isNumber
    rw [run_toDigits n (by omega)]
    rfl

/-- A natural number as JavaScript prints it. -/
def Number.ofNat (n : ℕ) : Number := ⟨Nat.toDigits 10 n, isNumber_toDigits n⟩

/-! ## Reading -/

/-- A container that is open. -/
inductive Frame
  | array (items : List Value)
  /-- `key` is the key read last -/
  | object (members : OrderedMap String Value) (key : String)

/-- The literals that are words. -/
inductive Word
  | null
  | true
  | false
  deriving DecidableEq

namespace Word

/-- The three literals. -/
def letters : Word → List Char
  | null => ['n', 'u', 'l', 'l']
  | true => ['t', 'r', 'u', 'e']
  | false => ['f', 'a', 'l', 's', 'e']

/-- What they stand for. -/
def value : Word → Value
  | null => .null
  | true => .bool Bool.true
  | false => .bool Bool.false

end Word

/-- What a reader is in the middle of. -/
inductive Control
  /-- a value begins -/
  | value
  /-- the first item of an array, or its end -/
  | firstItem
  /-- the first key of an object, or its end -/
  | firstKey
  | nextKey
  | colon
  /-- behind a value -/
  | after
  /-- behind the value of the text -/
  | done (v : Value)
  /-- inside a string, which may be a key, behind these code units -/
  | string (isKey : Bool) (units : List UInt16)
  | escaped (isKey : Bool) (units : List UInt16)
  /-- `left` digits of a code unit are missing -/
  | codeUnit (isKey : Bool) (units : List UInt16) (code left : ℕ)
  | number (lit : List Char) (s : NumberState)
  /-- `read` letters of the word are read -/
  | word (w : Word) (read : ℕ)

/-- Open arrays and objects, and where the reader is. -/
structure Reader where
  stack : List Frame
  control : Control

/-- White space. -/
def isSpace (c : Char) : Bool := c = ' ' || c = '\t' || c = '\n' || c = '\r'

namespace Reader

/-- A value is complete. -/
def complete (v : Value) : List Frame → Reader
  | [] => ⟨[], .done v⟩
  | .array items :: stack => ⟨.array (items ++ [v]) :: stack, .after⟩
  | .object members key :: stack => ⟨.object (OrderedMap.set members key v) key :: stack, .after⟩

/-- A character behind a value, or the end of an empty container. -/
def follow (stack : List Frame) (control : Control) (c : Char) : Option Reader :=
  if isSpace c then some ⟨stack, control⟩
  else
    match stack with
    | [] => none
    | .array items :: rest =>
        if c = ',' then some ⟨stack, .value⟩
        else if c = ']' then some (complete (.array items) rest)
        else none
    | .object members _ :: rest =>
        if c = ',' then some ⟨stack, .nextKey⟩
        else if c = '\x7d' then some (complete (.object members) rest)
        else none

/-- The first character of a value. -/
def beginValue (stack : List Frame) (c : Char) : Option Reader :=
  if c = '\"' then some ⟨stack, .string false []⟩
  else if c = '\x7b' then some ⟨.object [] "" :: stack, .firstKey⟩
  else if c = '[' then some ⟨.array [] :: stack, .firstItem⟩
  else if c = 'n' then some ⟨stack, .word .null 1⟩
  else if c = 't' then some ⟨stack, .word .true 1⟩
  else if c = 'f' then some ⟨stack, .word .false 1⟩
  else (NumberState.start.next c).map fun s => ⟨stack, .number [c] s⟩

/-- The end of a string literal.  A lone surrogate becomes the replacement character. -/
def closeString (isKey : Bool) (units : List UInt16) (stack : List Frame) : Reader :=
  let s := String.ofList (Utf16.decode units)
  match isKey, stack with
  | true, .object members _ :: rest => ⟨.object members s :: rest, .colon⟩
  | _, _ => complete (.string s) stack

/-- The character that an escape of one letter stands for. -/
def unescape (c : Char) : Option Char :=
  if c = '\"' ∨ c = '\\' ∨ c = '/' then some c
  else if c = 'b' then some '\x08' else if c = 'f' then some '\x0c'
  else if c = 'n' then some '\n' else if c = 'r' then some '\r'
  else if c = 't' then some '\t' else none

/-- A hexadecimal digit in either case. -/
def hexValue (c : Char) : Option ℕ :=
  if c.isDigit then some (c.toNat - 0x30)
  else if 'a' ≤ c ∧ c ≤ 'f' then some (c.toNat - 0x57)
  else if 'A' ≤ c ∧ c ≤ 'F' then some (c.toNat - 0x37)
  else none

/-- One character.  Every number literal is kept, whatever its value. -/
def step (r : Reader) (c : Char) : Option Reader :=
  match r.control with
  | .value => if isSpace c then some r else beginValue r.stack c
  | .firstItem =>
      if isSpace c then some r
      else if c = ']' then follow r.stack .after c else beginValue r.stack c
  | .firstKey =>
      if isSpace c then some r
      else if c = '\x7d' then follow r.stack .after c
      else if c = '\"' then some ⟨r.stack, .string true []⟩ else none
  | .nextKey =>
      if isSpace c then some r
      else if c = '\"' then some ⟨r.stack, .string true []⟩ else none
  | .colon => if isSpace c then some r else if c = ':' then some ⟨r.stack, .value⟩ else none
  | .after | .done _ => follow r.stack r.control c
  | .string isKey units =>
      if c = '\"' then some (closeString isKey units r.stack)
      else if c = '\\' then some ⟨r.stack, .escaped isKey units⟩
      else if c.toNat < 0x20 then none
      else some ⟨r.stack, .string isKey (units ++ Utf16.encodeChar c)⟩
  | .escaped isKey units =>
      match unescape c with
      | some d => some ⟨r.stack, .string isKey (units ++ Utf16.encodeChar d)⟩
      | none => if c = 'u' then some ⟨r.stack, .codeUnit isKey units 0 4⟩ else none
  | .codeUnit isKey units code left =>
      (hexValue c).map fun d =>
        if left = 1 then ⟨r.stack, .string isKey (units ++ [UInt16.ofNat (code * 16 + d)])⟩
        else ⟨r.stack, .codeUnit isKey units (code * 16 + d) (left - 1)⟩
  | .number lit s =>
      match s.next c with
      | some s => some ⟨r.stack, .number (lit ++ [c]) s⟩
      | none =>
          if h : isNumber lit = true then
            let r := complete (.number ⟨lit, h⟩) r.stack
            follow r.stack r.control c
          else none
  | .word w read =>
      if w.letters[read]? = some c then
        if read + 1 = w.letters.length then some (complete w.value r.stack)
        else some ⟨r.stack, .word w (read + 1)⟩
      else none

/-- A text is read character by character. -/
def run : Reader → List Char → Option Reader
  | r, [] => some r
  | r, c :: cs => (r.step c).bind fun r => run r cs

/-- The value of the text, when it may end here. -/
def result (r : Reader) : Option Value :=
  match r.control, r.stack with
  | .done v, _ => some v
  | .number lit _, [] => if h : isNumber lit = true then some (.number ⟨lit, h⟩) else none
  | _, _ => none

end Reader

/-- `JSON.parse`; `none` when it throws. -/
def parse (cs : List Char) : Option Value := (Reader.run ⟨[], .value⟩ cs).bind Reader.result

/-! ## Reading what was printed -/

namespace Reader

variable {r r' : Reader} {st : List Frame} {rest : List Char}

/-- A text is read in parts. -/
theorem run_append (r : Reader) (cs ds : List Char) :
    r.run (cs ++ ds) = (r.run cs).bind fun r => r.run ds := by
  induction cs generalizing r with
  | nil => rfl
  | cons c cs ih =>
      rw [List.cons_append, run, run]
      cases r.step c with
      | none => rfl
      | some r => exact ih r

/-- A digit that was written is read back. -/
theorem hexValue_hexDigit : ∀ d < 16, hexValue (hexDigit d) = some d := by decide

/-- A letter that was escaped is read back. -/
theorem unescape_escapeLetter {c d : Char} (h : escapeLetter c = some d) :
    unescape d = some c := by
  unfold escapeLetter at h
  split at h
  · next hsame =>
      obtain rfl := Option.some.inj h
      rcases hsame with rfl | rfl <;> rfl
  · repeat' split at h
    all_goals
      subst_vars
      cases h <;> rfl

/-- Quotes and backslashes are escaped. -/
theorem not_special_of_escapeLetter {c : Char} (h : escapeLetter c = none) :
    c ≠ '\"' ∧ c ≠ '\\' := by
  rw [← not_or]
  intro hspecial
  rw [escapeLetter, if_pos hspecial] at h
  cases h

/-- A character is read back from its escape. -/
theorem run_escape (isKey : Bool) (units : List UInt16) (c : Char) :
    run ⟨st, .string isKey units⟩ (escape c ++ rest) =
      run ⟨st, .string isKey (units ++ Utf16.encodeChar c)⟩ rest := by
  unfold escape
  split
  · next d hletter =>
      have hslash : step ⟨st, .string isKey units⟩ '\\' = some ⟨st, .escaped isKey units⟩ := rfl
      simp only [List.cons_append, List.nil_append, run, hslash, Option.bind_some]
      simp only [step, unescape_escapeLetter hletter, Option.bind_some]
  · next hletter =>
      obtain ⟨hquote, hslash⟩ := not_special_of_escapeLetter hletter
      split
      · next hsmall =>
          have hunit : Utf16.encodeChar c = [UInt16.ofNat c.toNat] := by
            unfold Utf16.encodeChar
            rw [if_pos (by omega)]
          have hcode : (0 * 16 + c.toNat / 16) * 16 + c.toNat % 16 = c.toNat := by omega
          have hhigh := hexValue_hexDigit (c.toNat / 16) (by omega)
          have hlow := hexValue_hexDigit (c.toNat % 16) (by omega)
          have hbegin : run ⟨st, .string isKey units⟩ ['\\', 'u', '0', '0'] =
              some ⟨st, .codeUnit isKey units 0 2⟩ := rfl
          rw [show ∀ x y : Char, ['\\', 'u', '0', '0', x, y] ++ rest =
            ['\\', 'u', '0', '0'] ++ x :: y :: rest from fun _ _ => rfl, run_append, hbegin,
            Option.bind_some]
          simp only [run, step, hhigh, hlow, Option.map_some, Option.bind_some]
          rw [if_neg (by decide), Option.bind_some, if_pos rfl, hcode, hunit]
      · next hlarge =>
          rw [List.singleton_append, run, step]
          dsimp only
          rw [if_neg hquote, if_neg hslash, if_neg hlarge, Option.bind_some]

/-- The escaped characters of a string, by induction on them. -/
theorem run_escapes (isKey : Bool) (units : List UInt16) (cs : List Char) :
    run ⟨st, .string isKey units⟩ (cs.flatMap escape ++ rest) =
      run ⟨st, .string isKey (units ++ Utf16.encode cs)⟩ rest := by
  induction cs generalizing units with
  | nil => rw [Utf16.encode, List.flatMap_nil, List.flatMap_nil, List.append_nil, List.nil_append]
  | cons c cs ih =>
      rw [List.flatMap_cons, List.append_assoc, run_escape, ih, List.append_assoc]
      rfl

/-- The units of a string end as this string. -/
theorem closeString_encode (isKey : Bool) (s : String) :
    closeString isKey (Utf16.encode s.toList) st =
      match isKey, st with
      | true, .object members _ :: rest => ⟨.object members s :: rest, .colon⟩
      | _, _ => complete (.string s) st := by
  unfold closeString
  rw [Utf16.decode_encode, String.ofList_toList]

/-- A whole string, up to the closing quote. -/
theorem run_quote (isKey : Bool) (s : String) :
    run ⟨st, .string isKey []⟩ (s.toList.flatMap escape ++ '\"' :: rest) =
      run (closeString isKey (Utf16.encode s.toList) st) rest := by
  rw [run_escapes, List.nil_append]
  rfl

/-- A string in the place of a value. -/
theorem run_string (s : String) :
    run ⟨st, .value⟩ (quote s ++ rest) = run (complete (.string s) st) rest := by
  have hbegin : run ⟨st, .value⟩ (quote s ++ rest) =
      run ⟨st, .string false []⟩ (s.toList.flatMap escape ++ '\"' :: rest) := by
    unfold quote
    rw [List.cons_append, List.append_assoc]
    rfl
  rw [hbegin, run_quote, closeString_encode]

/-- A key, up to the value of its member. -/
theorem run_key {members : OrderedMap String Value} {last : String} {control : Control}
    (h : control = .firstKey ∨ control = .nextKey) (key : String) :
    run ⟨.object members last :: st, control⟩ (quote key ++ ':' :: rest) =
      run ⟨.object members key :: st, .value⟩ rest := by
  have hbegin : run ⟨.object members last :: st, control⟩ (quote key ++ ':' :: rest) =
      run ⟨.object members last :: st, .string true []⟩
        (key.toList.flatMap escape ++ '\"' :: ':' :: rest) := by
    unfold quote
    rw [List.cons_append, List.append_assoc]
    rcases h with rfl | rfl <;> rfl
  rw [hbegin, run_quote, closeString_encode]
  rfl

/-- The characters of a literal, by induction on them. -/
theorem run_numberState (lit : List Char) {s s' : NumberState} {cs : List Char}
    (h : NumberState.run s cs = some s') :
    run ⟨st, .number lit s⟩ (cs ++ rest) = run ⟨st, .number (lit ++ cs) s'⟩ rest := by
  induction cs generalizing lit s with
  | nil =>
      obtain rfl := Option.some.inj h
      rw [List.append_nil, List.nil_append]
  | cons c cs ih =>
      obtain ⟨s₁, hs₁, hrest⟩ := Option.bind_eq_some_iff.mp h
      have hstep : step ⟨st, .number lit s⟩ c = some ⟨st, .number (lit ++ [c]) s₁⟩ := by
        simp only [step, hs₁]
      rw [List.cons_append, run, hstep, Option.bind_some, ih _ hrest, List.append_assoc]
      rfl

/-- What may stand behind a value inside a container. -/
def StopHead (cs : List Char) : Prop :=
  ∃ c rest, cs = c :: rest ∧ (c = ',' ∨ c = ']' ∨ c = '\x7d')

/-- A number ends with the comma or bracket behind it. -/
theorem step_after_number {n : Number} {s : NumberState} {c : Char}
    (hc : c = ',' ∨ c = ']' ∨ c = '\x7d') :
    step ⟨st, .number n.lit s⟩ c = step (complete (.number n) st) c := by
  have hnext : s.next c = none := by
    rcases hc with rfl | rfl | rfl <;> cases s <;> rfl
  have hafter : step (complete (.number n) st) c =
      follow (complete (.number n) st).stack (complete (.number n) st).control c := by
    cases st with
    | nil => rfl
    | cons frame st => cases frame <;> rfl
  rw [hafter, step]
  simp only [hnext, n.valid, dite_true]

/-- A number begins like no other value, and like nothing else that a reader looks for. -/
theorem number_head {c : Char} {s : NumberState} (h : NumberState.start.next c = some s) :
    isSpace c = false ∧ c ≠ '\"' ∧ c ≠ '\x7b' ∧ c ≠ '[' ∧ c ≠ 'n' ∧ c ≠ 't' ∧ c ≠ 'f' ∧
      c ≠ ']' := by
  refine ⟨?_, ?_, ?_, ?_, ?_, ?_, ?_, ?_⟩
  · rw [Bool.eq_false_iff]
    intro hspace
    simp only [isSpace, Bool.or_eq_true, decide_eq_true_eq, or_assoc] at hspace
    rcases hspace with rfl | rfl | rfl | rfl <;> cases h
  all_goals
    rintro rfl
    cases h

/-- The first character of a number. -/
theorem exists_number_head (n : Number) :
    ∃ c cs s, n.lit = c :: cs ∧ NumberState.start.next c = some s := by
  have hvalid := n.valid
  cases hlit : n.lit with
  | nil =>
      rw [hlit] at hvalid
      cases hvalid
  | cons c cs =>
      rw [hlit] at hvalid
      cases hnext : NumberState.start.next c with
      | none => simp [isNumber, NumberState.run, hnext] at hvalid
      | some s => exact ⟨c, cs, s, rfl, hnext⟩

/-- A number in the place of a value. -/
theorem run_number (n : Number) (hrest : StopHead rest) :
    run ⟨st, .value⟩ (n.lit ++ rest) = run (complete (.number n) st) rest := by
  obtain ⟨c, tail, rfl, hc⟩ := hrest
  obtain ⟨s, hs⟩ : ∃ s, NumberState.run .start n.lit = some s := by
    have hvalid := n.valid
    unfold isNumber at hvalid
    cases hrun : NumberState.run .start n.lit with
    | none =>
        rw [hrun] at hvalid
        cases hvalid
    | some s => exact ⟨s, rfl⟩
  have hwhole : run ⟨st, .value⟩ (n.lit ++ c :: tail) =
      run ⟨st, .number n.lit s⟩ (c :: tail) := by
    obtain ⟨d, ds, s₁, hlit, hs₁⟩ := exists_number_head n
    rw [hlit, NumberState.run, hs₁, Option.bind_some] at hs
    have hbegin : step ⟨st, .value⟩ d = some ⟨st, .number [d] s₁⟩ := by
      obtain ⟨hspace, h₁, h₂, h₃, h₄, h₅, h₆, -⟩ := number_head hs₁
      simp only [step, hspace, beginValue, h₁, h₂, h₃, h₄, h₅, h₆, hs₁, if_false,
        Option.map_some, Bool.false_eq_true]
    rw [hlit, List.cons_append, run, hbegin, Option.bind_some, run_numberState _ hs]
    rfl
  rw [hwhole, run, run, step_after_number hc]

end Reader

/-! A value that printing does not change: it has no infinity and no key twice. -/

mutual

/-- No infinite number and no repeated key: the text of such a value reads back as the value. -/
def Plain : Value → Prop
  | .infinity _ => False
  | .array items => PlainItems items
  | .object members => (members.map Prod.fst).Nodup ∧ PlainMembers members
  | .null | .bool _ | .number _ | .string _ => True

/-- The items of an array are plain. -/
def PlainItems : List Value → Prop
  | [] => True
  | v :: items => Plain v ∧ PlainItems items

/-- The members of an object are plain. -/
def PlainMembers : List (String × Value) → Prop
  | [] => True
  | (_, v) :: members => Plain v ∧ PlainMembers members

end

namespace Reader

variable {st : List Frame} {rest : List Char}

/-- Behind an item there is a comma or the bracket. -/
theorem stopHead_items (items : List Value) : StopHead (stringifyItems items ++ rest) := by
  cases items with
  | nil => exact ⟨_, _, rfl, Or.inr (Or.inl rfl)⟩
  | cons v items => exact ⟨_, _, rfl, Or.inl rfl⟩

/-- Behind a member there is a comma or the brace. -/
theorem stopHead_members (members : List (String × Value)) :
    StopHead (stringifyMembers members ++ rest) := by
  cases members with
  | nil => exact ⟨_, _, rfl, Or.inr (Or.inr rfl)⟩
  | cons m members => exact ⟨_, _, rfl, Or.inl rfl⟩

/-- No value begins with a blank or like the end of an array. -/
theorem exists_head (v : Value) (h : Plain v) :
    ∃ c cs, stringify v = c :: cs ∧ isSpace c = false ∧ c ≠ ']' := by
  match v with
  | .null | .bool true | .bool false | .string _ | .array [] | .array (_ :: _) | .object []
  | .object (_ :: _) => exact ⟨_, _, rfl, by decide, by decide⟩
  | .infinity _ => exact h.elim
  | .number n =>
      obtain ⟨c, cs, s, hlit, hnext⟩ := exists_number_head n
      obtain ⟨hspace, -, -, -, -, -, -, hne⟩ := number_head hnext
      exact ⟨c, cs, hlit, hspace, hne⟩

/-- Behind an opening bracket a value is read as elsewhere. -/
theorem run_firstItem {v : Value} (h : Plain v) :
    run ⟨st, .firstItem⟩ (stringify v ++ rest) = run ⟨st, .value⟩ (stringify v ++ rest) := by
  obtain ⟨c, cs, hv, hspace, hne⟩ := exists_head v h
  rw [hv, List.cons_append, run, run]
  simp only [step, hspace, if_neg hne, Bool.false_eq_true, if_false]

mutual

/-- **A printed value is read back,** in whatever containers it stands.  A number needs
something behind it. -/
theorem run_stringify (v : Value) (h : Plain v) (st : List Frame) (rest : List Char)
    (hrest : ∀ n, v = .number n → StopHead rest) :
    run ⟨st, .value⟩ (stringify v ++ rest) = run (complete v st) rest := by
  match v with
  | .null => rfl
  | .bool true => rfl
  | .bool false => rfl
  | .number n => exact run_number n (hrest n rfl)
  | .infinity _ => exact h.elim
  | .string s => exact run_string s
  | .array [] => rfl
  | .array (v :: items) =>
      obtain ⟨hv, hitems⟩ := h
      have hbegin : run ⟨st, .value⟩ (stringify (.array (v :: items)) ++ rest) =
          run ⟨.array [] :: st, .firstItem⟩ (stringify v ++ (stringifyItems items ++ rest)) := by
        simp only [stringify, List.cons_append, List.append_assoc]
        rfl
      rw [hbegin, run_firstItem hv, run_stringify v hv _ _ fun _ _ => stopHead_items items]
      exact run_items items hitems [v] st rest
  | .object [] => rfl
  | .object ((key, v) :: members) =>
      obtain ⟨hkeys, hv, hmembers⟩ := h
      have hbegin : run ⟨st, .value⟩ (stringify (.object ((key, v) :: members)) ++ rest) =
          run ⟨.object [] "" :: st, .firstKey⟩
            (quote key ++ ':' :: (stringify v ++ (stringifyMembers members ++ rest))) := by
        simp only [stringify, List.cons_append, List.append_assoc]
        rfl
      rw [hbegin, run_key (Or.inl rfl), run_stringify v hv _ _ fun _ _ => stopHead_members members]
      exact run_members members hmembers [(key, v)] key st rest hkeys

/-- The items of an array, behind those that were read. -/
theorem run_items (items : List Value) (h : PlainItems items) (read : List Value)
    (st : List Frame) (rest : List Char) :
    run ⟨.array read :: st, .after⟩ (stringifyItems items ++ rest) =
      run (complete (.array (read ++ items)) st) rest := by
  match items with
  | [] =>
      rw [List.append_nil]
      rfl
  | v :: items =>
      have hbegin : run ⟨.array read :: st, .after⟩ (stringifyItems (v :: items) ++ rest) =
          run ⟨.array read :: st, .value⟩ (stringify v ++ (stringifyItems items ++ rest)) := by
        simp only [stringifyItems, List.cons_append, List.append_assoc]
        rfl
      rw [hbegin, run_stringify v h.1 _ _ fun _ _ => stopHead_items items]
      have hnext := run_items items h.2 (read ++ [v]) st rest
      rw [List.append_assoc] at hnext
      exact hnext

/-- The members of an object, behind those that were read under other keys. -/
theorem run_members (members : List (String × Value)) (h : PlainMembers members)
    (read : OrderedMap String Value) (last : String) (st : List Frame) (rest : List Char)
    (hkeys : ((read ++ members).map Prod.fst).Nodup) :
    run ⟨.object read last :: st, .after⟩ (stringifyMembers members ++ rest) =
      run (complete (.object (read ++ members)) st) rest := by
  match members with
  | [] =>
      rw [List.append_nil]
      rfl
  | (key, v) :: members =>
      have hbegin : run ⟨.object read last :: st, .after⟩
            (stringifyMembers ((key, v) :: members) ++ rest) =
          run ⟨.object read last :: st, .nextKey⟩
            (quote key ++ ':' :: (stringify v ++ (stringifyMembers members ++ rest))) := by
        simp only [stringifyMembers, List.cons_append, List.append_assoc]
        rfl
      rw [hbegin, run_key (Or.inr rfl),
        run_stringify v h.1 _ _ fun _ _ => stopHead_members members]
      have hnew : key ∉ read.map Prod.fst := by
        rw [List.map_append, List.map_cons] at hkeys
        obtain ⟨-, -, hdisj⟩ := List.nodup_append.mp hkeys
        exact fun hmem => hdisj key hmem key List.mem_cons_self rfl
      have hnext := run_members members h.2 (read ++ [(key, v)]) key st rest (by
        rwa [List.append_assoc])
      rw [List.append_assoc, ← OrderedMap.set_eq_append v hnew] at hnext
      exact hnext

end

/-- An object is read back whatever stands behind it. -/
theorem run_object {members : List (String × Value)} (h : Plain (.object members))
    (st : List Frame) (rest : List Char) :
    run ⟨st, .value⟩ (stringify (.object members) ++ rest) =
      run (complete (.object members) st) rest :=
  run_stringify _ h st rest nofun

/-! ## While a container is open -/

/-- A container is open, so the text cannot end here. -/
def Open (r : Reader) : Prop := r.stack ≠ [] ∧ ∀ v, r.control ≠ .done v

variable {r r' : Reader} {c : Char} {v : Value}

/-- A value inside an array or object leaves it open. -/
theorem open_complete (hst : st ≠ []) : (complete v st).Open := by
  cases st with
  | nil => exact (hst rfl).elim
  | cons frame st =>
      cases frame <;> exact ⟨List.cons_ne_nil _ _, fun _ => nofun⟩

/-- A completed value leaves the reader open, or done. -/
theorem complete_cases (v : Value) (st : List Frame) :
    (complete v st).Open ∨ complete v st = ⟨[], .done v⟩ := by
  cases st with
  | nil => exact Or.inr rfl
  | cons frame st => exact Or.inl (open_complete (List.cons_ne_nil _ _))

/-- A string inside an array or object leaves it open. -/
theorem open_closeString {isKey : Bool} {units : List UInt16} (hst : st ≠ []) :
    (closeString isKey units st).Open := by
  unfold closeString
  dsimp only
  split
  · exact ⟨List.cons_ne_nil _ _, fun _ => nofun⟩
  · exact open_complete hst

/-- Only the end of the outermost container ends the text. -/
theorem follow_cases {control : Control} (hst : st ≠ []) (hcontrol : ∀ v, control ≠ .done v)
    (h : follow st control c = some r') :
    r'.Open ∨ (c = ']' ∨ c = '\x7d') ∧ ∃ v, r' = ⟨[], .done v⟩ := by
  unfold follow at h
  split at h
  · obtain rfl := Option.some.inj h
    exact Or.inl ⟨hst, hcontrol⟩
  · split at h
    · cases h
    · split at h
      · obtain rfl := Option.some.inj h
        exact Or.inl ⟨hst, fun _ => nofun⟩
      · split at h
        · next hc =>
            obtain rfl := Option.some.inj h
            exact (complete_cases _ _).imp_right fun heq => ⟨Or.inl hc, _, heq⟩
        · cases h
    · split at h
      · obtain rfl := Option.some.inj h
        exact Or.inl ⟨hst, fun _ => nofun⟩
      · split at h
        · next hc =>
            obtain rfl := Option.some.inj h
            exact (complete_cases _ _).imp_right fun heq => ⟨Or.inr hc, _, heq⟩
        · cases h

/-- So does the first character of a value. -/
theorem open_beginValue (hst : st ≠ []) (h : beginValue st c = some r') : r'.Open := by
  unfold beginValue at h
  repeat' split at h
  all_goals try
    obtain rfl := Option.some.inj h
    exact ⟨by first | exact hst | exact List.cons_ne_nil _ _, fun _ => nofun⟩
  obtain ⟨s, -, rfl⟩ := Option.map_eq_some_iff.mp h
  exact ⟨hst, fun _ => nofun⟩

/-- **One character leaves a container open,** or it ends the text. -/
theorem Open.step (hr : r.Open) (h : r.step c = some r') :
    r'.Open ∨ (c = ']' ∨ c = '\x7d') ∧ ∃ v, r' = ⟨[], .done v⟩ := by
  obtain ⟨st, control⟩ := r
  obtain ⟨hst, hcontrol⟩ := hr
  have hst : st ≠ [] := hst
  have hstay : ∀ control' : Control, (∀ v, control' ≠ .done v) →
      (⟨st, control'⟩ : Reader).Open := fun _ hnot => ⟨hst, hnot⟩
  unfold Reader.step at h
  cases control with
  | value =>
      dsimp only at h
      split at h
      · obtain rfl := Option.some.inj h
        exact Or.inl (hstay _ hcontrol)
      · exact Or.inl (open_beginValue hst h)
  | firstItem =>
      dsimp only at h
      split at h
      · obtain rfl := Option.some.inj h
        exact Or.inl (hstay _ hcontrol)
      · split at h
        · have hfollow : follow st .after c = some r' := h
          exact follow_cases hst (fun _ hafter => by cases hafter) hfollow
        · exact Or.inl (open_beginValue hst h)
  | firstKey =>
      dsimp only at h
      split at h
      · obtain rfl := Option.some.inj h
        exact Or.inl (hstay _ hcontrol)
      · split at h
        · have hfollow : follow st .after c = some r' := h
          exact follow_cases hst (fun _ hafter => by cases hafter) hfollow
        · obtain ⟨-, h⟩ := Option.ite_none_right_eq_some.mp h
          obtain rfl := Option.some.inj h
          exact Or.inl (hstay _ fun _ => nofun)
  | nextKey =>
      dsimp only at h
      split at h
      · obtain rfl := Option.some.inj h
        exact Or.inl (hstay _ hcontrol)
      · obtain ⟨-, h⟩ := Option.ite_none_right_eq_some.mp h
        obtain rfl := Option.some.inj h
        exact Or.inl (hstay _ fun _ => nofun)
  | colon =>
      dsimp only at h
      split at h
      · obtain rfl := Option.some.inj h
        exact Or.inl (hstay _ hcontrol)
      · obtain ⟨-, h⟩ := Option.ite_none_right_eq_some.mp h
        obtain rfl := Option.some.inj h
        exact Or.inl (hstay _ fun _ => nofun)
  | after => exact follow_cases hst hcontrol h
  | done v => exact (hcontrol v rfl).elim
  | string isKey units =>
      dsimp only at h
      split at h
      · obtain rfl := Option.some.inj h
        exact Or.inl (open_closeString hst)
      · split at h
        · obtain rfl := Option.some.inj h
          exact Or.inl (hstay _ fun _ => nofun)
        · obtain ⟨-, h⟩ := Option.ite_none_left_eq_some.mp h
          obtain rfl := Option.some.inj h
          exact Or.inl (hstay _ fun _ => nofun)
  | escaped isKey units =>
      dsimp only at h
      split at h
      · obtain rfl := Option.some.inj h
        exact Or.inl (hstay _ fun _ => nofun)
      · obtain ⟨-, h⟩ := Option.ite_none_right_eq_some.mp h
        obtain rfl := Option.some.inj h
        exact Or.inl (hstay _ fun _ => nofun)
  | codeUnit isKey units code left =>
      obtain ⟨d, -, rfl⟩ := Option.map_eq_some_iff.mp h
      split
      · exact Or.inl (hstay _ fun _ => nofun)
      · exact Or.inl (hstay _ fun _ => nofun)
  | number lit s =>
      dsimp only at h
      split at h
      · obtain rfl := Option.some.inj h
        exact Or.inl (hstay _ fun _ => nofun)
      · split at h
        · next hvalid =>
            have hopen : (complete (.number ⟨lit, hvalid⟩) st).Open := open_complete hst
            exact follow_cases hopen.1 hopen.2 h
        · cases h
  | word w read =>
      obtain ⟨-, h⟩ := Option.ite_none_right_eq_some.mp h
      split at h
      · obtain rfl := Option.some.inj h
        exact Or.inl (open_complete hst)
      · obtain rfl := Option.some.inj h
        exact Or.inl (hstay _ fun _ => nofun)

/-- Behind the end of the text there is nothing but blanks. -/
theorem run_done {cs : List Char} (h : run ⟨[], .done v⟩ cs = some r') :
    r' = ⟨[], .done v⟩ ∧ ∀ c ∈ cs, isSpace c = true := by
  induction cs with
  | nil => exact ⟨(Option.some.inj h).symm, nofun⟩
  | cons c cs ih =>
      obtain ⟨r₁, hstep, hrest⟩ := Option.bind_eq_some_iff.mp h
      have hfollow : follow [] (.done v) c = some r₁ := hstep
      unfold follow at hfollow
      split at hfollow
      · next hspace =>
          obtain rfl := Option.some.inj hfollow
          obtain ⟨hsame, hall⟩ := ih hrest
          refine ⟨hsame, fun d hd => ?_⟩
          rcases List.mem_cons.mp hd with rfl | hd
          · exact hspace
          · exact hall d hd
      · cases hfollow

/-- An open reader stays open until it is done. -/
theorem Open.run {cs : List Char} (hr : r.Open) (h : r.run cs = some r') :
    r'.Open ∨ ∃ v, r' = ⟨[], .done v⟩ := by
  induction cs generalizing r with
  | nil =>
      obtain rfl := Option.some.inj h
      exact Or.inl hr
  | cons c cs ih =>
      obtain ⟨r₁, hstep, hrest⟩ := Option.bind_eq_some_iff.mp h
      rcases hr.step hstep with hr₁ | ⟨-, v, rfl⟩
      · exact ih hr₁ hrest
      · exact Or.inr ⟨v, (run_done hrest).1⟩

/-- An open container has no value. -/
theorem Open.result (hr : r.Open) : r.result = none := by
  obtain ⟨hst, hcontrol⟩ := hr
  unfold Reader.result
  split
  · next v h => exact (hcontrol v h).elim
  · next h => exact (hst h).elim
  · rfl

/-! ## Torn texts -/

/-- The reader fails on it, or it stays inside a container. -/
def Fails (r : Reader) (cs : List Char) : Prop :=
  r.run cs = none ∨ ∃ r', r.run cs = some r' ∧ r'.Open

/-- A character that is refused fails the text. -/
theorem fails_of_step (h : r.step c = none) (cs : List Char) : r.Fails (c :: cs) := by
  refine Or.inl ?_
  rw [run, h]
  rfl

/-- A part that fails, or stays open until a part that fails. -/
theorem Fails.append {cs ds : List Char} (h : r.Fails cs)
    (hopen : ∀ r' : Reader, r'.Open → r'.Fails ds) : r.Fails (cs ++ ds) := by
  unfold Fails
  rw [run_append]
  rcases h with hnone | ⟨r', hr', hr''⟩
  · exact Or.inl (by rw [hnone]; rfl)
  · rw [hr', Option.bind_some]
    exact hopen r' hr''

/-- A text that ends inside an array or object fails. -/
theorem Open.fails_char (hr : r.Open) (hc : c ≠ ']' ∧ c ≠ '\x7d') : r.Fails [c] := by
  cases hstep : r.step c with
  | none => exact fails_of_step hstep []
  | some r' =>
      rcases hr.step hstep with hr' | ⟨hend, -⟩
      · refine Or.inr ⟨r', ?_, hr'⟩
        rw [Reader.run, hstep]
        rfl
      · exact absurd hend (not_or.mpr hc)

/-- A front of an object's text, read inside a container. -/
theorem fails_front {members : List (String × Value)} (h : Plain (.object members)) {p : List Char}
    (hp : p <+: stringify (.object members)) (hst : st ≠ []) : Fails ⟨st, .value⟩ p := by
  obtain ⟨q, hq⟩ := hp
  have hwhole := run_object h st []
  rw [List.append_nil, ← hq, run_append] at hwhole
  obtain ⟨r', hr', hrest⟩ := Option.bind_eq_some_iff.mp hwhole
  have hstart : (⟨st, .value⟩ : Reader).Open := ⟨hst, fun _ => nofun⟩
  rcases hstart.run hr' with hopen | ⟨v, rfl⟩
  · exact Or.inr ⟨r', hr', hopen⟩
  · have hend : (complete (.object members) st).Open := open_complete hst
    rw [(run_done hrest).1] at hend
    exact (hend.1 rfl).elim

/-- A letter is no space and no punctuation. -/
theorem alpha_plain (h : c.isAlpha = true) :
    isSpace c = false ∧ c ≠ ',' ∧ c ≠ ']' ∧ c ≠ '\x7d' ∧ c ≠ ':' := by
  refine ⟨?_, ?_, ?_, ?_, ?_⟩
  · rw [Bool.eq_false_iff]
    intro hspace
    simp only [isSpace, Bool.or_eq_true, decide_eq_true_eq, or_assoc] at hspace
    rcases hspace with rfl | rfl | rfl | rfl <;> cases h
  all_goals
    rintro rfl
    cases h

/-- No letter comes right behind a value. -/
theorem follow_alpha {control : Control} (h : c.isAlpha = true) : follow st control c = none := by
  obtain ⟨hspace, hcomma, hbracket, hbrace, -⟩ := alpha_plain h
  unfold follow
  rw [hspace]
  cases st with
  | nil => rfl
  | cons frame st => cases frame <;> simp [hcomma, hbracket, hbrace]

/-- A letter behind a string is refused. -/
theorem step_closeString_alpha {isKey : Bool} {units : List UInt16} (h : c.isAlpha = true) :
    step (closeString isKey units st) c = none := by
  obtain ⟨hspace, -, -, -, hcolon⟩ := alpha_plain h
  unfold closeString
  dsimp only
  split
  · simp [step, hspace, hcolon]
  · cases st with
    | nil => exact follow_alpha h
    | cons frame st => cases frame <;> exact follow_alpha h

/-- **An object's text inside a torn one:** wherever a reader stands inside a container, no
front of the text of an object whose first key begins with a letter takes it out again. -/
theorem Open.fails_object {members : List (String × Value)} (h : Plain (.object members))
    {first : Char} {tail p : List Char}
    (htext : stringify (.object members) = '\x7b' :: '\"' :: first :: tail)
    (hfirst : first.isAlpha = true) (hp : p <+: stringify (.object members)) (hnil : p ≠ [])
    (hr : r.Open) : r.Fails p := by
  obtain ⟨st, control⟩ := r
  obtain ⟨hst, hcontrol⟩ := hr
  have hst : st ≠ [] := hst
  obtain ⟨p', rfl⟩ : ∃ p', p = '\x7b' :: p' := by
    rw [htext] at hp
    rcases List.prefix_cons_iff.mp hp with hnil' | ⟨p', hp', -⟩
    · exact (hnil hnil').elim
    · exact ⟨p', hp'⟩
  cases control with
  | value => exact fails_front h hp hst
  | firstItem =>
      have hvalue := fails_front h hp hst
      exact hvalue
  | firstKey => exact fails_of_step rfl _
  | nextKey => exact fails_of_step rfl _
  | colon => exact fails_of_step rfl _
  | after =>
      refine fails_of_step ?_ _
      cases st with
      | nil => rfl
      | cons frame st => cases frame <;> rfl
  | done v => exact (hcontrol v rfl).elim
  | string isKey units =>
      -- the brace belongs to the string, which the quote then closes
      rw [htext] at hp
      have hp' := (List.cons_prefix_cons.mp hp).2
      have hbrace : ∀ cs, Reader.run ⟨st, .string isKey units⟩ ('\x7b' :: cs) =
          Reader.run ⟨st, .string isKey (units ++ Utf16.encodeChar '\x7b')⟩ cs := fun _ => rfl
      unfold Fails
      rw [hbrace]
      rcases List.prefix_cons_iff.mp hp' with rfl | ⟨p'', rfl, hp''⟩
      · exact Or.inr ⟨_, rfl, hst, fun _ => nofun⟩
      · have hquote : ∀ cs, Reader.run ⟨st, .string isKey (units ++ Utf16.encodeChar '\x7b')⟩
            ('\"' :: cs) =
          Reader.run (closeString isKey (units ++ Utf16.encodeChar '\x7b') st) cs := fun _ => rfl
        rw [hquote]
        rcases List.prefix_cons_iff.mp hp'' with rfl | ⟨p₃, rfl, -⟩
        · exact Or.inr ⟨_, rfl, open_closeString hst⟩
        · exact fails_of_step (step_closeString_alpha hfirst) p₃
  | escaped isKey units => exact fails_of_step rfl _
  | codeUnit isKey units code left => exact fails_of_step rfl _
  | number lit s =>
      refine fails_of_step ?_ _
      have hnext : s.next '\x7b' = none := by cases s <;> rfl
      simp only [Reader.step, hnext]
      split
      · cases st with
        | nil => rfl
        | cons frame st => cases frame <;> rfl
      · rfl
  | word w read =>
      refine fails_of_step ?_ _
      have hnot : w.letters[read]? ≠ some '\x7b' := by
        intro hletter
        have hmem := List.mem_of_getElem? hletter
        cases w <;> exact absurd hmem (by decide)
      simp only [Reader.step, if_neg hnot]

end Reader

/-! ## Texts of objects -/

/-- No value can be read from these characters, nor from a longer text that goes on with
fronts of objects' texts. -/
def Torn (cs : List Char) : Prop := Reader.Fails ⟨[], .value⟩ cs

/-- A torn text does not parse. -/
theorem Torn.parse_none {cs : List Char} (h : Torn cs) : parse cs = none := by
  unfold parse
  rcases h with hnone | ⟨r, hr, hopen⟩
  · rw [hnone]
    rfl
  · rw [hr]
    exact hopen.result

/-- A torn text with a character behind it is torn. -/
theorem Torn.append_char {cs : List Char} {c : Char} (h : Torn cs) (hc : c ≠ ']' ∧ c ≠ '\x7d') :
    Torn (cs ++ [c]) :=
  Reader.Fails.append h fun _ hr => hr.fails_char hc

variable {members others : List (String × Value)} {first : Char} {tail p : List Char}

/-- **What was printed is read back.** -/
theorem parse_stringify (h : Plain (.object members)) :
    parse (stringify (.object members)) = some (.object members) := by
  have hrun := Reader.run_object h [] []
  rw [List.append_nil] at hrun
  unfold parse
  rw [hrun]
  rfl

/-- The front of an object's text after a torn text. -/
theorem Torn.append_object (h : Plain (.object members))
    (htext : stringify (.object members) = '\x7b' :: '\"' :: first :: tail)
    (hfirst : first.isAlpha = true) (hp : p <+: stringify (.object members)) (hnil : p ≠ [])
    {cs : List Char} (hcs : Torn cs) : Torn (cs ++ p) :=
  Reader.Fails.append hcs fun _ hr => hr.fails_object h htext hfirst hp hnil

/-- The text of an object begins and ends with its braces. -/
theorem exists_braces (members : List (String × Value)) :
    ∃ cs, stringify (.object members) = '\x7b' :: cs ++ ['\x7d'] := by
  have hrest : ∀ ms : List (String × Value), ∃ cs, stringifyMembers ms = cs ++ ['\x7d'] := by
    intro ms
    induction ms with
    | nil => exact ⟨[], rfl⟩
    | cons m ms ih =>
        obtain ⟨cs, hcs⟩ := ih
        refine ⟨',' :: (quote m.1 ++ ':' :: (stringify m.2 ++ cs)), ?_⟩
        simp only [stringifyMembers, hcs, List.cons_append, List.append_assoc]
  cases members with
  | nil => exact ⟨[], rfl⟩
  | cons m ms =>
      obtain ⟨cs, hcs⟩ := hrest ms
      refine ⟨quote m.1 ++ ':' :: (stringify m.2 ++ cs), ?_⟩
      simp only [stringify, hcs, List.cons_append, List.append_assoc]

/-- A prefix of a printed object begins with its brace. -/
theorem exists_brace (hp : p <+: stringify (.object members)) (hnil : p ≠ []) :
    ∃ p', p = '\x7b' :: p' := by
  obtain ⟨cs, hcs⟩ := exists_braces members
  rw [hcs] at hp
  rcases List.prefix_cons_iff.mp hp with hnil' | ⟨p', hp', -⟩
  · exact (hnil hnil').elim
  · exact ⟨p', hp'⟩

/-- The front of an object's text behind a whole one. -/
theorem torn_behind (h : Plain (.object members)) (hp : p <+: stringify (.object others))
    (hnil : p ≠ []) : Torn (stringify (.object members) ++ p) := by
  obtain ⟨p', rfl⟩ := exists_brace hp hnil
  unfold Torn Reader.Fails
  rw [Reader.run_object h]
  exact Or.inl rfl

/-- **A front of an object's text** that is not all of it. -/
theorem torn_front (h : Plain (.object members)) (hp : p <+: stringify (.object members))
    (hnil : p ≠ []) (hne : p ≠ stringify (.object members)) : Torn p := by
  obtain ⟨p', rfl⟩ := exists_brace hp hnil
  obtain ⟨q, hq⟩ := hp
  have hwhole := Reader.run_object h [] []
  rw [List.append_nil, ← hq, Reader.run_append] at hwhole
  obtain ⟨r, hr, hrest⟩ := Option.bind_eq_some_iff.mp hwhole
  have hinside : Reader.run ⟨[.object [] ""], .firstKey⟩ p' = some r := hr
  have hstart : Reader.Open ⟨[.object [] ""], .firstKey⟩ :=
    ⟨List.cons_ne_nil _ _, fun _ => nofun⟩
  rcases hstart.run hinside with hopen | ⟨v, rfl⟩
  · exact Or.inr ⟨r, hr, hopen⟩
  · -- what is missing ends with a brace, which is no blank
    have hblank := (Reader.run_done hrest).2
    rcases List.eq_nil_or_concat q with rfl | ⟨q', c, rfl⟩
    · rw [List.append_nil] at hq
      exact (hne hq).elim
    · obtain ⟨cs, hcs⟩ := exists_braces members
      rw [hcs, List.concat_eq_append, ← List.append_assoc] at hq
      have hlast := (List.append_inj' hq rfl).2
      have hbrace := hblank c (by simp)
      rw [(List.cons.inj hlast).1] at hbrace
      cases hbrace

/-! ## The characters of a text -/

/-- There is no control character, and so no line break. -/
def Clean (cs : List Char) : Prop := ∀ c ∈ cs, 0x20 ≤ c.toNat

/-- Clean texts, one after the other. -/
theorem Clean.append {cs ds : List Char} (h : Clean cs) (h' : Clean ds) : Clean (cs ++ ds) :=
  fun c hc => (List.mem_append.mp hc).elim (h c) (h' c)

theorem Clean.cons {cs : List Char} {c : Char} (hc : 0x20 ≤ c.toNat) (h : Clean cs) :
    Clean (c :: cs) := fun d hd => by
  rcases List.mem_cons.mp hd with rfl | hd
  · exact hc
  · exact h d hd

/-- A closed text is checked. -/
theorem clean_of_all {cs : List Char} (h : (cs.all fun c => 0x20 ≤ c.toNat) = true) :
    Clean cs := fun c hc => of_decide_eq_true (List.all_eq_true.mp h c hc)

/-- Control characters are escaped. -/
theorem clean_escape (c : Char) : Clean (escape c) := by
  have hhex : ∀ k < 16, 0x20 ≤ (hexDigit k).toNat := by decide
  unfold escape
  split
  · next d hletter =>
      have hd : 0x20 ≤ d.toNat := by
        unfold escapeLetter at hletter
        split at hletter
        · next hsame =>
            obtain rfl := Option.some.inj hletter
            rcases hsame with rfl | rfl <;> decide
        · repeat' split at hletter
          all_goals cases hletter <;> decide
      exact .cons (by decide) (.cons hd nofun)
  · split
    · next hsmall =>
        have hhigh := hhex (c.toNat / 16) (by omega)
        have hlow := hhex (c.toNat % 16) (by omega)
        exact .cons (by decide) (.cons (by decide) (.cons (by decide) (.cons (by decide)
          (.cons hhigh (.cons hlow nofun)))))
    · exact .cons (by omega) nofun

/-- A string prints without control characters. -/
theorem clean_quote (s : String) : Clean (quote s) := by
  have hall : ∀ cs : List Char, Clean (cs.flatMap escape) := fun cs d hd => by
    obtain ⟨c, -, hc⟩ := List.mem_flatMap.mp hd
    exact clean_escape c d hc
  exact .cons (by decide) ((hall _).append (.cons (by decide) nofun))

/-- A number literal has no control characters. -/
theorem clean_numberState {s s' : NumberState} {cs : List Char}
    (h : NumberState.run s cs = some s') : Clean cs := by
  have hnext : ∀ (s s₁ : NumberState) (c : Char), s.next c = some s₁ → 0x20 ≤ c.toNat := by
    intro s s₁ c hs
    by_contra hsmall
    have hdigit : c.isDigit = false := by
      rw [Bool.eq_false_iff]
      intro hdigit
      have hle : (0x30 : ℕ) ≤ c.toNat := (Char.isDigit_iff_toNat.mp hdigit).1
      omega
    have hne : ∀ d : Char, 0x20 ≤ d.toNat → c ≠ d := by
      rintro d hd rfl
      exact hsmall hd
    cases s <;> simp [NumberState.next, hdigit, hne] at hs
  induction cs generalizing s with
  | nil => nofun
  | cons c cs ih =>
      obtain ⟨s₁, hs₁, hrest⟩ := Option.bind_eq_some_iff.mp h
      exact .cons (hnext s s₁ c hs₁) (ih hrest)

/-- So a number prints without them. -/
theorem clean_number (n : Number) : Clean n.lit := by
  have hvalid := n.valid
  unfold isNumber at hvalid
  cases hrun : NumberState.run .start n.lit with
  | none =>
      rw [hrun] at hvalid
      cases hvalid
  | some s => exact clean_numberState hrun

mutual

/-- **A printed value stands on one line.** -/
theorem clean_stringify (v : Value) : Clean (stringify v) := by
  match v with
  | .null | .infinity _ | .bool true | .bool false | .array [] | .object [] =>
      exact clean_of_all rfl
  | .number n => exact clean_number n
  | .string s => exact clean_quote s
  | .array (v :: items) =>
      exact .cons (by decide) ((clean_stringify v).append (clean_items items))
  | .object ((key, v) :: members) =>
      exact .cons (by decide) ((clean_quote key).append
        (.cons (by decide) ((clean_stringify v).append (clean_members members))))

/-- Items print without them. -/
theorem clean_items (items : List Value) : Clean (stringifyItems items) := by
  match items with
  | [] => exact .cons (by decide) nofun
  | v :: items => exact .cons (by decide) ((clean_stringify v).append (clean_items items))

/-- Members print without them. -/
theorem clean_members (members : List (String × Value)) : Clean (stringifyMembers members) := by
  match members with
  | [] => exact .cons (by decide) nofun
  | (key, v) :: members =>
      exact .cons (by decide) ((clean_quote key).append
        (.cons (by decide) ((clean_stringify v).append (clean_members members))))

end

end Json
