import QuorumCanvas.BodyLimit

/-!
# Records that are read back from JSON

The code gives what `JSON.parse` returns the type of what it expects and reads the fields it
needs.  `ofJson` reads all fields of a record, and undoes the `toJson` of the same type: a value
of the model is the same on both sides of a socket or of a file.

The history variable of a snapshot is not written, so what is read back is a record without its
history (`forget`).
-/

/-! ## Reading fields -/

namespace Json

/-- The whole number of a literal, when it is the literal that printing gives. -/
def Number.toNat? (n : Number) : Option ℕ :=
  let k := Nat.ofDigitChars 10 n.lit 0
  if Number.ofNat k = n then some k else none

/-- A natural number is read back. -/
theorem Number.toNat?_ofNat (k : ℕ) : (Number.ofNat k).toNat? = some k := by
  have hvalue : Nat.ofDigitChars 10 (Number.ofNat k).lit 0 = k := Nat.ofDigitChars_ten_toDigits
  unfold Number.toNat?
  simp only [hvalue, if_true]

namespace Value

variable {α β : Type}

/-- A number. -/
def asNumber : Value → Option Number
  | .number n => some n
  | _ => none

/-- A natural number. -/
def asNat : Value → Option ℕ
  | .number n => n.toNat?
  | _ => none

/-- A truth value. -/
def asBool : Value → Option Bool
  | .bool b => some b
  | _ => none

/-- A string. -/
def asString : Value → Option String
  | .string s => some s
  | _ => none

/-- A string or `null`. -/
def asNullable : Value → Option (Option String)
  | .null => some none
  | .string s => some (some s)
  | _ => none

/-- Read all values of a list. -/
def readAll (as : Value → Option α) : List Value → Option (List α)
  | [] => some []
  | v :: items => (as v).bind fun a => (readAll as items).map (a :: ·)

/-- An array, each item of which is read. -/
def asArray (as : Value → Option α) : Value → Option (List α)
  | .array items => readAll as items
  | _ => none

/-- Read the values of all members, in their order. -/
def readMembers (as : Value → Option α) : List (String × Value) → Option (List (String × α))
  | [] => some []
  | (key, v) :: members =>
      (as v).bind fun a => (readMembers as members).map ((key, a) :: ·)

/-- An object, each member of which is read. -/
def asRecord (as : Value → Option α) : Value → Option (List (String × α))
  | .object members => readMembers as members
  | _ => none

/-- A property that must be there. -/
def read (v : Value) (key : String) (as : Value → Option α) : Option α :=
  match v with
  | .object members => (OrderedMap.get? members key).bind as
  | _ => none

/-- A property that may be missing. -/
def readOptional (v : Value) (key : String) (as : Value → Option α) : Option (Option α) :=
  match v with
  | .object members =>
      match OrderedMap.get? members key with
      | some w => (as w).map some
      | none => some none
  | _ => none

@[simp] theorem asNat_ofNat (k : ℕ) : asNat (.number (.ofNat k)) = some k :=
  Number.toNat?_ofNat k

/-- Items that are read back one by one are read back together. -/
theorem readAll_map {as : Value → Option β} {toJson : α → Value} {f : α → β}
    (h : ∀ a, as (toJson a) = some (f a)) (items : List α) :
    readAll as (items.map toJson) = some (items.map f) := by
  induction items with
  | nil => rfl
  | cons a items ih => simp [readAll, h, ih]

/-- So are members. -/
theorem readMembers_map {as : Value → Option β} {toJson : α → Value} {f : α → β}
    (h : ∀ a, as (toJson a) = some (f a)) (members : List (String × α)) :
    readMembers as (members.map fun m => (m.1, toJson m.2)) =
      some (members.map fun m => (m.1, f m.2)) := by
  induction members with
  | nil => rfl
  | cons m members ih => simp [readMembers, h, ih]

/-- What was written is read. -/
theorem asArray_map {as : Value → Option α} {toJson : α → Value}
    (h : ∀ a, as (toJson a) = some a) (items : List α) :
    asArray as (.array (items.map toJson)) = some items := by
  rw [asArray, readAll_map (f := id) h, List.map_id]

/-- So is an object. -/
theorem asRecord_map {as : Value → Option α} {toJson : α → Value}
    (h : ∀ a, as (toJson a) = some a) (members : List (String × α)) :
    asRecord as (.object (members.map fun m => (m.1, toJson m.2))) = some members := by
  rw [asRecord, readMembers_map (f := id) h]
  simp

end Value

end Json

namespace QuorumCanvas

open Json (Value)
open Json.Value (asNumber asNat asBool asString asNullable asArray asRecord)

/-! ## Strokes and entries -/

/-- One of the three actions. -/
def StrokeAction.ofJson (v : Value) : Option StrokeAction :=
  match v with
  | .string s =>
      if s = "stroke" then some .stroke else if s = "undo_stroke" then some .undoStroke
      else if s = "redo_stroke" then some .redoStroke else none
  | _ => none

/-- A point, as an array of two numbers. -/
def pointOfJson : Value → Option (Json.Number × Json.Number)
  | .array [.number x, .number y] => some (x, y)
  | _ => none

/-- The fields of a stroke; a missing `targetStrokeId` is `undefined`. -/
def Stroke.ofJson (v : Value) : Option Stroke := do
  let id ← v.read "id" asString
  let boardId ← v.read "boardId" asString
  let userId ← v.read "userId" asString
  let color ← v.read "color" asString
  let width ← v.read "width" asNumber
  let points ← v.read "points" (asArray pointOfJson)
  let timestamp ← v.read "timestamp" asNumber
  let action ← v.readOptional "action" StrokeAction.ofJson
  let targetStrokeId ← v.readOptional "targetStrokeId" asString
  return ⟨id, boardId, userId, color, width, points, timestamp, action, targetStrokeId⟩

/-- An action is read back. -/
theorem StrokeAction.ofJson_text (action : StrokeAction) :
    ofJson (.string action.text) = some action := by
  cases action <;> decide +kernel

/-- Points are read back. -/
theorem asArray_points (points : List (Json.Number × Json.Number)) :
    asArray pointOfJson (.array (points.map fun p => .array [.number p.1, .number p.2])) =
      some points := by
  have hpoint : ∀ p : Json.Number × Json.Number,
      pointOfJson ((fun p => .array [.number p.1, .number p.2]) p) = some p := fun _ => rfl
  exact Json.Value.asArray_map hpoint points

/-- **A stroke is read back.** -/
theorem Stroke.ofJson_toJson (stroke : Stroke) : ofJson stroke.toJson = some stroke := by
  obtain ⟨id, boardId, userId, color, width, points, timestamp, action, target⟩ := stroke
  have hpoints := asArray_points points
  cases action with
  | none =>
      cases target <;>
        simp [ofJson, toJson, optionalMember, Value.read, Value.readOptional, OrderedMap.get?,
          asString, asNumber, hpoints]
  | some action =>
      have haction := action.ofJson_text
      cases target <;>
        simp [ofJson, toJson, optionalMember, Value.read, Value.readOptional, OrderedMap.get?,
          asString, asNumber, hpoints, haction]

/-- Index, term and stroke. -/
def LogEntry.ofJson (v : Value) : Option LogEntry := do
  let index ← v.read "index" asNat
  let term ← v.read "term" asNat
  let stroke ← v.read "stroke" Stroke.ofJson
  return ⟨index, term, stroke⟩

/-- An entry is read back. -/
theorem LogEntry.ofJson_toJson (entry : LogEntry) : ofJson entry.toJson = some entry := by
  simp [ofJson, toJson, members, Value.read, OrderedMap.get?, entry.stroke.ofJson_toJson]

/-- A log that is read back. -/
theorem asArray_entries (entries : List LogEntry) :
    asArray LogEntry.ofJson (.array (entries.map LogEntry.toJson)) = some entries :=
  Json.Value.asArray_map LogEntry.ofJson_toJson entries

/-! ## The other files -/

/-- A string or `null`. -/
def nullable : Option String → Value
  | some s => .string s
  | none => .null

/-- A value that may be null is read back. -/
theorem asNullable_nullable (v : Option String) : asNullable (nullable v) = some v := by
  cases v <;> rfl

/-- The state file. -/
def PersistedState.toJson (state : PersistedState) : Value := .object [
  ("currentTerm", .number (.ofNat state.currentTerm)),
  ("votedFor", nullable state.votedFor),
  ("commitIndex", .number (.ofNat state.commitIndex))]

/-- What `loadState` makes of the value: `commitIndex` may be missing. -/
def PersistedState.ofJson (v : Value) : Option PersistedState := do
  let currentTerm ← v.read "currentTerm" asNat
  let votedFor ← v.read "votedFor" asNullable
  let commitIndex ← v.readOptional "commitIndex" asNat
  return ⟨currentTerm, votedFor, commitIndex.getD 0⟩

/-- The state file is read back. -/
theorem PersistedState.ofJson_toJson (state : PersistedState) :
    ofJson state.toJson = some state := by
  simp [ofJson, toJson, Value.read, Value.readOptional, OrderedMap.get?, asNullable_nullable]

/-- Boards by name, each a list of strokes. -/
def Record.ofJson : Value → Option Record := asRecord (asArray Stroke.ofJson)

/-- Boards are read back. -/
theorem Record.ofJson_toJson (boards : Record) : ofJson boards.toJson = some boards :=
  Json.Value.asRecord_map (fun events => Json.Value.asArray_map Stroke.ofJson_toJson events) boards

/-- What is written of a snapshot. -/
def Snapshot.forget (snapshot : Snapshot) : Snapshot := { snapshot with covered := [] }

/-- The snapshot file. -/
def Snapshot.toJson (snapshot : Snapshot) : Value := .object [
  ("lastIncludedIndex", .number (.ofNat snapshot.lastIncludedIndex)),
  ("lastIncludedTerm", .number (.ofNat snapshot.lastIncludedTerm)),
  ("boards", snapshot.boards.toJson)]

/-- Its fields; what it covers is not on file. -/
def Snapshot.ofJson (v : Value) : Option Snapshot := do
  let lastIncludedIndex ← v.read "lastIncludedIndex" asNat
  let lastIncludedTerm ← v.read "lastIncludedTerm" asNat
  let boards ← v.read "boards" Record.ofJson
  return ⟨lastIncludedIndex, lastIncludedTerm, boards, []⟩

/-- A snapshot is read back, but for what is not on file. -/
theorem Snapshot.ofJson_toJson (snapshot : Snapshot) :
    ofJson snapshot.toJson = some snapshot.forget := by
  have hindex : snapshot.toJson.read "lastIncludedIndex" asNat = some snapshot.lastIncludedIndex :=
    Json.Value.asNat_ofNat _
  have hterm : snapshot.toJson.read "lastIncludedTerm" asNat = some snapshot.lastIncludedTerm :=
    Json.Value.asNat_ofNat _
  have hboards : snapshot.toJson.read "boards" Record.ofJson = some snapshot.boards :=
    Record.ofJson_toJson _
  simp [ofJson, forget, hindex, hterm, hboards]

end QuorumCanvas
