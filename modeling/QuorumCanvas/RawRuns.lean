import QuorumCanvas.RawNode
import QuorumCanvas.Runs

/-!
# What one bad write does to a cluster

`Harmless` says which strokes can go through a log, a file, a message and a snapshot
without anything throwing, on a given stack.  The runs here leave the protocol open: a node may take
any role, its log may be overwritten with any entries that are on their way, its
commit index may move anywhere, any snapshot on its way may be installed, and a crash
may fall between any two persistence calls.  The runs of the replicas are among these.
-/

namespace QuorumCanvas

open Js (Var Thrown Stack)
open Json (Value)

/-! ## Harmless strokes -/

/-- A stroke that has properties, also once it is on file, whose `boardId` can name a property,
and which can be printed inside a log entry, and inside a snapshot if its board gets there. -/
structure Harmless (stack : Stack) (stroke : Var) : Prop where
  readable : ∃ v, stroke = some v ∧ v.reread ≠ .null
  named : ∃ boardId name, Js.get stroke "boardId" = .ok boardId ∧
    Js.propertyNameOn stack boardId = .ok name ∧
    Js.nesting stroke + (if name = "__proto__" then 1 else 3) ≤ stack.stringify

variable {stack : Stack}

/-- What throws nothing is followed by what throws nothing. -/
theorem exists_bind {α β : Type} {x : Except Thrown α} {f : α → Except Thrown β} {P : α → Prop}
    {Q : β → Prop} (hx : ∃ a, x = .ok a ∧ P a) (hf : ∀ a, P a → ∃ b, f a = .ok b ∧ Q b) :
    ∃ b, x >>= f = .ok b ∧ Q b := by
  obtain ⟨a, rfl, ha⟩ := hx
  exact hf a ha

/-- A value that rereads to something was something. -/
theorem ne_null_of_reread {v : Value} (h : v.reread ≠ .null) : v ≠ .null := by
  rintro rfl
  exact h rfl

/-- A value that is not `null` has properties, even if they hold nothing. -/
theorem exists_get {v : Value} (hv : v ≠ .null) (name : String) :
    ∃ w, Js.get (some v) name = .ok w := by
  cases v with
  | null => exact absurd rfl hv
  | object members => exact ⟨_, rfl⟩
  | bool b => exact ⟨_, rfl⟩
  | number n => exact ⟨_, rfl⟩
  | infinity negative => exact ⟨_, rfl⟩
  | string s => exact ⟨_, rfl⟩
  | array items => exact ⟨_, rfl⟩

/-- A field of a harmless stroke can be read. -/
theorem Harmless.exists_get {stroke : Var} (h : Harmless stack stroke) (name : String) :
    ∃ w, Js.get stroke name = .ok w := by
  obtain ⟨v, rfl, hv⟩ := h.readable
  exact QuorumCanvas.exists_get (ne_null_of_reread hv) name

/-- A member is no deeper than its object. -/
theorem nesting_le_membersNesting {members : List (String × Value)} {name : String} {v : Value}
    (h : OrderedMap.get? members name = some v) : v.nesting ≤ Value.membersNesting members := by
  induction members with
  | nil => cases h
  | cons m members ih =>
      obtain ⟨k, w⟩ := m
      simp only [OrderedMap.get?] at h
      split at h
      · obtain rfl := Option.some.inj h
        exact le_max_left _ _
      · exact (ih h).trans (le_max_right _ _)

/-- What a property holds can be printed inside one more object. -/
theorem Harmless.nesting_get {stroke w : Var} (h : Harmless stack stroke) {name : String}
    (hget : Js.get stroke name = .ok w) : Js.nesting w + 1 ≤ stack.stringify := by
  obtain ⟨v, rfl, -⟩ := h.readable
  obtain ⟨-, board, -, -, hdeep⟩ := h.named
  have hroomy := stack.roomy
  have hplain : w = none → Js.nesting w + 1 ≤ stack.stringify := by
    rintro rfl
    rw [Js.nesting_none]
    omega
  cases v with
  | null => cases hget
  | object members =>
      obtain rfl := Except.ok.inj hget
      cases hw : OrderedMap.get? members name with
      | none => exact hw ▸ hplain hw
      | some value =>
          have hle := nesting_le_membersNesting hw
          simp only [Js.nesting_some, Value.nesting] at hdeep ⊢
          split at hdeep <;> omega
  | bool b => exact hplain (Except.ok.inj hget).symm
  | number n => exact hplain (Except.ok.inj hget).symm
  | infinity negative => exact hplain (Except.ok.inj hget).symm
  | string text => exact hplain (Except.ok.inj hget).symm
  | array items => exact hplain (Except.ok.inj hget).symm

/-! ### Reading back -/

mutual

/-- What was read back once is read back the same. -/
theorem reread_reread : ∀ v : Value, v.reread.reread = v.reread
  | .null | .bool _ | .number _ | .infinity _ | .string _ => rfl
  | .array items => congrArg Value.array (rereadItems_rereadItems items)
  | .object members => congrArg Value.object (rereadMembers_rereadMembers members)

/-- So are the items of an array. -/
theorem rereadItems_rereadItems : ∀ items : List Value,
    Value.rereadItems (Value.rereadItems items) = Value.rereadItems items
  | [] => rfl
  | v :: items => by
      simp only [Value.rereadItems]
      rw [reread_reread v, rereadItems_rereadItems items]

/-- So are the members of an object. -/
theorem rereadMembers_rereadMembers : ∀ members : List (String × Value),
    Value.rereadMembers (Value.rereadMembers members) = Value.rereadMembers members
  | [] => rfl
  | (k, v) :: members => by
      simp only [Value.rereadMembers]
      rw [reread_reread v, rereadMembers_rereadMembers members]

end

/-- A member of the reread object is the reread member. -/
theorem get?_rereadMembers (members : List (String × Value)) (name : String) :
    OrderedMap.get? (Value.rereadMembers members) name =
      (OrderedMap.get? members name).map Value.reread := by
  induction members with
  | nil => rfl
  | cons m members ih =>
      obtain ⟨k, v⟩ := m
      simp only [Value.rereadMembers, OrderedMap.get?]
      split
      · rfl
      · exact ih

/-- What is put in front of the items that are joined. -/
theorem joinItems_cons {v : Value} (hv : v ≠ .null) (items : List Value) :
    Js.joinItems (v :: items) = do
      let text ← Js.toText v
      if items.isEmpty then return text
      return text ++ "," ++ (← Js.joinItems items) := by
  cases v with
  | null => exact absurd rfl hv
  | _ => rfl

/-- Items can be joined when each of them, `null` apart, has a text. -/
theorem exists_joinItems_cons {v : Value} {items : List Value} :
    (∃ text, Js.joinItems (v :: items) = .ok text) ↔
      (v = .null ∨ ∃ text, Js.toText v = .ok text) ∧ ∃ text, Js.joinItems items = .ok text := by
  have hjoin : ∀ head : Except Thrown String,
      (∃ text, (do
        let text ← head
        if items.isEmpty then return text
        return text ++ "," ++ (← Js.joinItems items)) = Except.ok text) ↔
      (∃ text, head = .ok text) ∧ ∃ text, Js.joinItems items = .ok text := by
    intro head
    cases head with
    | error e => exact ⟨fun ⟨_, h⟩ => (nomatch h), fun ⟨⟨_, h⟩, _⟩ => (nomatch h)⟩
    | ok text =>
        cases items with
        | nil => exact ⟨fun _ => ⟨⟨_, rfl⟩, _, rfl⟩, fun _ => ⟨_, rfl⟩⟩
        | cons w items =>
            cases Js.joinItems (w :: items) with
            | error e => exact ⟨fun ⟨_, h⟩ => (nomatch h), fun ⟨_, _, h⟩ => (nomatch h)⟩
            | ok rest => exact ⟨fun _ => ⟨⟨_, rfl⟩, _, rfl⟩, fun _ => ⟨_, rfl⟩⟩
  by_cases hv : v = .null
  · subst hv
    exact (hjoin (.ok "")).trans ⟨fun h => ⟨Or.inl rfl, h.2⟩, fun h => ⟨⟨_, rfl⟩, h.2⟩⟩
  · rw [joinItems_cons hv, hjoin]
    exact ⟨fun h => ⟨Or.inr h.1, h.2⟩, fun h => ⟨h.1.resolve_left hv, h.2⟩⟩

mutual

/-- What can name a property still can once it has been read back. -/
theorem exists_toText_reread : ∀ v : Value, (∃ text, Js.toText v = .ok text) →
    ∃ text, Js.toText v.reread = .ok text
  | .null, h | .bool _, h | .number _, h | .string _, h => h
  | .infinity _, _ => ⟨_, rfl⟩
  | .array items, h => exists_joinItems_reread items h
  | .object members, h => by
      obtain ⟨text, htext⟩ := h
      simp only [Value.reread, Js.toText, get?_rereadMembers] at htext ⊢
      cases hmember : OrderedMap.get? members "toString" with
      | some w =>
          rw [hmember] at htext
          cases htext
      | none => exact ⟨_, rfl⟩

/-- An array that joins still joins after it was read back. -/
theorem exists_joinItems_reread : ∀ items : List Value, (∃ text, Js.joinItems items = .ok text) →
    ∃ text, Js.joinItems (Value.rereadItems items) = .ok text
  | [], h => h
  | v :: items, h => by
      obtain ⟨hv, hitems⟩ := exists_joinItems_cons.mp h
      refine exists_joinItems_cons.mpr ⟨?_, exists_joinItems_reread items hitems⟩
      rcases hv with rfl | hv
      · exact Or.inl rfl
      · exact Or.inr (exists_toText_reread v hv)

end

mutual

/-- A text that reads `__proto__` has no infinity behind it. -/
theorem toText_proto : ∀ v : Value, Js.toText v = .ok "__proto__" →
    Js.toText v.reread = .ok "__proto__"
  | .null, h | .bool _, h | .number _, h | .string _, h => h
  | .infinity negative, h => by
      cases negative <;> exact absurd (Except.ok.inj h) (by decide)
  | .array items, h => joinItems_proto items h
  | .object members, h => by
      simp only [Js.toText] at h
      split at h
      · cases h
      · exact absurd (Except.ok.inj h) (by decide)

/-- The one array that joins to `__proto__` still does. -/
theorem joinItems_proto : ∀ items : List Value, Js.joinItems items = .ok "__proto__" →
    Js.joinItems (Value.rereadItems items) = .ok "__proto__"
  | [], h => h
  | [v], h => by
      have hv : v ≠ .null := by
        rintro rfl
        exact absurd (Except.ok.inj h) (by decide)
      have hjoin : ∀ v : Value, v ≠ .null → Js.joinItems [v] = Js.toText v := by
        intro v hv
        rw [joinItems_cons hv]
        cases Js.toText v <;> rfl
      rw [hjoin v hv] at h
      have hre := toText_proto v h
      have hne : v.reread ≠ .null := by
        intro hnull
        rw [hnull] at hre
        exact absurd (Except.ok.inj hre) (by decide)
      exact (hjoin _ hne).trans hre
  | v :: w :: items, h => by
      -- a comma stands between two items
      have hcomma : ∀ head : Except Thrown String, (do
          let text ← head
          if (w :: items).isEmpty then return text
          return text ++ "," ++ (← Js.joinItems (w :: items))) ≠ Except.ok "__proto__" := by
        intro head hok
        cases head with
        | error e => cases hok
        | ok text =>
            cases hrest : Js.joinItems (w :: items) with
            | error e =>
                rw [hrest] at hok
                cases hok
            | ok rest =>
                rw [hrest] at hok
                have htext := congrArg String.toList (Except.ok.inj hok)
                have hmem : ',' ∈ (text ++ "," ++ rest).toList := by simp
                rw [htext] at hmem
                exact absurd hmem (by decide)
      by_cases hv : v = .null
      · subst hv
        exact absurd h (hcomma (.ok ""))
      · rw [joinItems_cons hv] at h
        exact absurd h (hcomma _)

end

/-- What names a property on the stack still does once it has been read back, and
`__proto__` stays what it is. -/
theorem exists_propertyNameOn_reread {boardId : Var} {name : String}
    (h : Js.propertyNameOn stack boardId = .ok name) :
    ∃ name', Js.propertyNameOn stack (boardId.map Value.reread) = .ok name' ∧
      (name = "__proto__" → name' = "__proto__") := by
  cases boardId with
  | none => exact ⟨name, h, id⟩
  | some v =>
      unfold Js.propertyNameOn at h ⊢
      simp only [Option.map_some, Option.getD_some, Value.arrayNesting_reread] at h ⊢
      split at h
      · cases h
      · next hdeep =>
          rw [if_neg hdeep]
          by_cases hproto : name = "__proto__"
          · subst hproto
            exact ⟨_, toText_proto v h, fun _ => rfl⟩
          · obtain ⟨name', hname'⟩ := exists_toText_reread v ⟨name, h⟩
            exact ⟨name', hname', fun heq => absurd heq hproto⟩

/-- Reading back keeps the depth. -/
theorem nesting_reread (stroke : Var) :
    Js.nesting (stroke.map Value.reread) = Js.nesting stroke := by
  cases stroke with
  | none => rfl
  | some v => exact Value.nesting_reread v

/-- A field of the reread value is the reread field. -/
theorem get_reread {v : Value} (hv : v.reread ≠ .null) {name : String} {w : Var}
    (h : Js.get (some v) name = .ok w) :
    Js.get (some v.reread) name = .ok (w.map Value.reread) := by
  cases v with
  | null => exact absurd rfl hv
  | infinity negative => exact absurd rfl hv
  | object members =>
      obtain rfl : OrderedMap.get? members name = w := Except.ok.inj h
      exact congrArg Except.ok (get?_rereadMembers members name)
  | bool b =>
      obtain rfl := Except.ok.inj h
      rfl
  | number n =>
      obtain rfl := Except.ok.inj h
      rfl
  | string text =>
      obtain rfl := Except.ok.inj h
      rfl
  | array items =>
      obtain rfl := Except.ok.inj h
      rfl

/-- A harmless stroke stays harmless when it is read back. -/
theorem Harmless.reread {stroke : Var} (h : Harmless stack stroke) :
    Harmless stack (stroke.map Value.reread) := by
  obtain ⟨boardId, name, hget, hname, hdeep⟩ := h.named
  obtain ⟨v, rfl, hv⟩ := h.readable
  obtain ⟨name', hname', hproto⟩ := exists_propertyNameOn_reread hname
  refine ⟨⟨v.reread, rfl, by rwa [reread_reread]⟩, boardId.map Value.reread, name',
    get_reread hv hget, hname', ?_⟩
  rw [nesting_reread]
  split
  · split at hdeep <;> omega
  · next hne => rwa [if_neg fun heq => hne (hproto heq)] at hdeep

/-- So it does as an item of an array. -/
theorem Harmless.rereadItem {stroke : Var} (h : Harmless stack stroke) :
    Harmless stack (rereadItem stroke) := by
  have hre := h.reread
  obtain ⟨v, rfl, -⟩ := h.readable
  exact hre

/-- A harmless stroke that can be printed inside a snapshot. -/
structure Shallow (stack : Stack) (stroke : Var) : Prop where
  harmless : Harmless stack stroke
  deep : Js.nesting stroke + 3 ≤ stack.stringify

/-- A shallow stroke stays shallow as an item. -/
theorem Shallow.rereadItem {stroke : Var} (h : Shallow stack stroke) :
    Shallow stack (rereadItem stroke) := by
  have hdeep := h.deep
  obtain ⟨v, rfl, -⟩ := h.harmless.readable
  refine ⟨h.harmless.rereadItem, ?_⟩
  rwa [← nesting_reread (some v)] at hdeep

/-! ## Boards of harmless events -/

namespace RawBoards

/-- A board that can be put into a snapshot. -/
structure Clean (stack : Stack) (board : RawBoard) : Prop where
  named : ∃ name, Js.propertyNameOn stack board.boardId = .ok name
  events : ∀ e ∈ board.events, Harmless stack e
  deep : ∀ name, Js.propertyNameOn stack board.boardId = .ok name → name ≠ "__proto__" →
    ∀ e ∈ board.events, Js.nesting e + 3 ≤ stack.stringify
  visible : ∀ e ∈ board.visible, Harmless stack e

/-- Removing a stroke by its id throws nothing. -/
theorem exists_withoutId (target : Var) {visible : List Var} (h : ∀ e ∈ visible, Harmless stack e) :
    ∃ rest, withoutId target visible = .ok rest ∧ rest ⊆ visible := by
  induction visible with
  | nil => exact ⟨[], rfl, List.Subset.refl _⟩
  | cons stroke visible ih =>
      obtain ⟨id, hid⟩ := (h stroke List.mem_cons_self).exists_get "id"
      obtain ⟨rest, hrest, hsub⟩ := ih fun e he => h e (List.mem_cons_of_mem _ he)
      have heq : withoutId target (stroke :: visible) =
          .ok (if Js.same id target then rest else stroke :: rest) := by
        rw [withoutId, hid, hrest]
        rfl
      refine ⟨_, heq, ?_⟩
      split
      · exact List.subset_cons_of_subset _ hsub
      · exact List.cons_subset_cons _ hsub

/-- Looking for an id throws nothing. -/
theorem exists_showsId (target : Var) {visible : List Var} (h : ∀ e ∈ visible, Harmless stack e) :
    ∃ shown, showsId target visible = .ok shown := by
  induction visible with
  | nil => exact ⟨false, rfl⟩
  | cons stroke visible ih =>
      obtain ⟨id, hid⟩ := (h stroke List.mem_cons_self).exists_get "id"
      obtain ⟨shown, hshown⟩ := ih fun e he => h e (List.mem_cons_of_mem _ he)
      cases hsame : Js.same id target with
      | true =>
        refine ⟨true, ?_⟩
        rw [showsId, hid]
        simp [hsame, bind, Except.bind, pure, Except.pure]
      | false =>
          exact ⟨shown, by rw [showsId, hid]; simpa [hsame, bind, Except.bind] using hshown⟩

/-- The action of a harmless event can be read. -/
theorem exists_action {event : Var} (h : Harmless stack event) :
    ∃ kind, action event = .ok kind := by
  obtain ⟨v, hv⟩ := h.exists_get "action"
  exact ⟨_, by rw [action, hv]; rfl⟩

/-- Looking for the drawing behind an undo throws nothing, and finds one of the events. -/
theorem exists_findDrawing (target : Var) {events : List Var} (h : ∀ e ∈ events, Harmless stack e) :
    ∃ found, findDrawing target events = .ok found ∧ ∀ e ∈ found, e ∈ events := by
  induction events with
  | nil => exact ⟨none, rfl, fun e he => nomatch he⟩
  | cons event events ih =>
      obtain ⟨id, hid⟩ := (h event List.mem_cons_self).exists_get "id"
      obtain ⟨kind, hkind⟩ := exists_action (h event List.mem_cons_self)
      obtain ⟨found, hfound, hmem⟩ := ih fun e he => h e (List.mem_cons_of_mem _ he)
      have heq : findDrawing target (event :: events) =
          .ok (if Js.isText kind "stroke" ∧ Js.same id target then some event else found) := by
        rw [findDrawing, hkind, hid, hfound]
        by_cases htext : Js.isText kind "stroke" = true <;>
          by_cases hsame : Js.same id target = true <;>
          simp [htext, hsame, bind, Except.bind, pure, Except.pure]
      refine ⟨_, heq, ?_⟩
      split
      · intro e he
        obtain rfl := Option.mem_some_iff.mp he
        exact List.mem_cons_self
      · exact fun e he => List.mem_cons_of_mem _ (hmem e he)

/-- A harmless event on a clean board throws nothing and leaves it clean. -/
theorem exists_applyTo {board : RawBoard} (hb : Clean stack board) {event : Var}
    (he : Harmless stack event) (hkey : Js.get event "boardId" = .ok board.boardId) :
    ∃ board', applyTo board event = .ok board' ∧ Clean stack board' := by
  have hevents : ∀ e ∈ board.events ++ [event], Harmless stack e := by
    intro e hmem
    rcases List.mem_append.mp hmem with hold | hnew
    · exact hb.events e hold
    · rwa [List.mem_singleton.mp hnew]
  have hdeep : ∀ name, Js.propertyNameOn stack board.boardId = .ok name → name ≠ "__proto__" →
      ∀ e ∈ board.events ++ [event], Js.nesting e + 3 ≤ stack.stringify := by
    intro name hname hproto e hmem
    rcases List.mem_append.mp hmem with hold | hnew
    · exact hb.deep name hname hproto e hold
    · rw [List.mem_singleton.mp hnew]
      obtain ⟨boardId, name', hget, hname', hfits⟩ := he.named
      obtain rfl := Except.ok.inj (hget.symm.trans hkey)
      obtain rfl := Except.ok.inj (hname'.symm.trans hname)
      rwa [if_neg hproto] at hfits
  obtain ⟨kind, hkind⟩ := exists_action he
  obtain ⟨target, htarget⟩ := he.exists_get "targetStrokeId"
  obtain ⟨id, hid⟩ := he.exists_get "id"
  obtain ⟨rest, hrest, hsub⟩ := exists_withoutId target hb.visible
  obtain ⟨shown, hshown⟩ := exists_showsId target hb.visible
  obtain ⟨found, hfound, hmem⟩ := exists_findDrawing target hevents
  have hclean : ∀ (undone visible : List Var), (∀ e ∈ visible, Harmless stack e) →
      Clean stack ⟨board.boardId, board.events ++ [event], undone, visible⟩ :=
    fun _ _ hv => ⟨hb.named, hevents, hdeep, hv⟩
  unfold applyTo
  rw [hkind, htarget]
  simp only [bind, Except.bind]
  split
  · simp only [hrest, pure, Except.pure]
    exact ⟨_, rfl, hclean _ _ fun e he => hb.visible e (hsub he)⟩
  · split
    · simp only [hshown]
      split
      · exact ⟨_, rfl, hclean _ _ hb.visible⟩
      · simp only [hfound, pure, Except.pure]
        refine ⟨_, rfl, hclean _ _ fun e he => ?_⟩
        rcases List.mem_append.mp he with hold | hnew
        · exact hb.visible e hold
        · exact hevents e (hmem e (Option.mem_toList.mp hnew))
    · simp only [hid]
      split
      · exact ⟨_, rfl, hclean _ _ hb.visible⟩
      · refine ⟨_, rfl, hclean _ _ fun e he' => ?_⟩
        rcases List.mem_append.mp he' with hold | hnew
        · exact hb.visible e hold
        · rwa [List.mem_singleton.mp hnew]

/-- The boards of a node, all clean. -/
def AllClean (stack : Stack) (boards : RawBoards) : Prop := ∀ board ∈ boards, Clean stack board

/-- Keys that are the same are equal. -/
theorem eq_of_same {a b : Var} (h : Js.same a b = true) : a = b := by
  unfold Js.same at h
  split at h
  · rfl
  · rfl
  all_goals first
    | exact congrArg some (congrArg _ (of_decide_eq_true h))
    | exact absurd h Bool.false_ne_true

@[simp] theorem boardId_board (boards : RawBoards) (boardId : Var) :
    (boards.board boardId).boardId = boardId := by
  unfold RawBoards.board
  cases hfind : boards.find? fun b => Js.same b.boardId boardId with
  | none => rfl
  | some b =>
      have hsame := List.find?_some hfind
      exact eq_of_same hsame

/-- A board that is looked up is clean, or new and empty. -/
theorem AllClean.board {boards : RawBoards} (h : AllClean stack boards) {boardId : Var}
    (hnamed : ∃ name, Js.propertyNameOn stack boardId = .ok name) :
    Clean stack (boards.board boardId) := by
  unfold RawBoards.board
  cases hfind : boards.find? fun b => Js.same b.boardId boardId with
  | none =>
      exact ⟨hnamed, fun _ he => (nomatch he), fun _ _ _ _ he => (nomatch he),
        fun _ he => (nomatch he)⟩
  | some b => exact h b (List.mem_of_find?_eq_some hfind)

/-- A clean board may be put back. -/
theorem AllClean.setBoard {boards : RawBoards} (h : AllClean stack boards) {board : RawBoard}
    (hb : Clean stack board) : AllClean stack (boards.setBoard board) := by
  unfold RawBoards.setBoard
  split
  · intro b hmem
    obtain ⟨b', hmem', rfl⟩ := List.mem_map.mp hmem
    split
    · exact hb
    · exact h b' hmem'
  · intro b hmem
    rcases List.mem_append.mp hmem with hold | hnew
    · exact h b hold
    · rwa [List.mem_singleton.mp hnew]

/-- A harmless event applies to clean boards. -/
theorem AllClean.exists_applyBoardEvent {boards : RawBoards} (h : AllClean stack boards)
    {event : Var} (he : Harmless stack event) :
    ∃ boards', boards.applyBoardEvent event = .ok boards' ∧ AllClean stack boards' := by
  obtain ⟨boardId, name, hget, hname, -⟩ := he.named
  have hkey : Js.get event "boardId" = .ok (boards.board boardId).boardId := by
    rw [boardId_board]
    exact hget
  obtain ⟨board, hboard, hclean⟩ := exists_applyTo (h.board ⟨name, hname⟩) he hkey
  refine ⟨_, ?_, h.setBoard hclean⟩
  rw [applyBoardEvent, hget]
  simp only [bind, Except.bind, hboard]
  rfl

/-- Harmless events replay, by induction on them. -/
theorem AllClean.exists_replay {boards : RawBoards} (h : AllClean stack boards)
    {events : List Var} (he : ∀ e ∈ events, Harmless stack e) :
    ∃ boards', replay boards events = .ok boards' ∧ AllClean stack boards' := by
  induction events generalizing boards with
  | nil => exact ⟨boards, rfl, h⟩
  | cons event events ih =>
      obtain ⟨boards₁, h₁, hclean₁⟩ := h.exists_applyBoardEvent (he event List.mem_cons_self)
      obtain ⟨boards₂, h₂, hclean₂⟩ := ih hclean₁ fun e hmem => he e (List.mem_cons_of_mem _ hmem)
      refine ⟨boards₂, ?_, hclean₂⟩
      rw [replay, List.foldlM_cons, h₁]
      exact h₂

/-- The events of a snapshot. -/
def RecordShallow (stack : Stack) (record : RawRecord) : Prop :=
  ∀ e ∈ record.flatMap Prod.snd, Shallow stack e

/-- A board of shallow events may be assigned, and `__proto__` is dropped. -/
theorem recordShallow_assign {record : RawRecord} (h : RecordShallow stack record) (name : String)
    {events : List Var} (he : name ≠ "__proto__" → ∀ e ∈ events, Shallow stack e) :
    RecordShallow stack (record.assign name events) := by
  unfold RawRecord.assign
  split
  · exact h
  · next hproto =>
      intro e hmem
      obtain ⟨b, hb, hin⟩ := List.mem_flatMap.mp hmem
      rcases OrderedMap.mem_set hb with rfl | hold
      · exact he hproto e hin
      · exact h e (List.mem_flatMap.mpr ⟨b, hold, hin⟩)

/-- Clean boards make an object of events that can be printed. -/
theorem AllClean.exists_record {boards : RawBoards} (h : AllClean stack boards) :
    ∃ record, boards.record stack = .ok record ∧ RecordShallow stack record := by
  have hfold : ∀ (boards : RawBoards) (record : RawRecord), AllClean stack boards →
      RecordShallow stack record →
      ∃ record', boards.foldlM (fun record board => do
        return record.assign (← Js.propertyNameOn stack board.boardId) board.events) record =
          Except.ok record' ∧ RecordShallow stack record' := by
    intro boards
    induction boards with
    | nil => exact fun record _ hrecord => ⟨record, rfl, hrecord⟩
    | cons board boards ih =>
        intro record hclean hrecord
        have hb := hclean board List.mem_cons_self
        obtain ⟨name, hname⟩ := hb.named
        have hassign : RecordShallow stack (record.assign name board.events) :=
          recordShallow_assign hrecord name fun hproto e he =>
            ⟨hb.events e he, hb.deep name hname hproto e he⟩
        obtain ⟨record', hrec, hharm⟩ :=
          ih _ (fun b hmem => hclean b (List.mem_cons_of_mem _ hmem)) hassign
        refine ⟨record', ?_, hharm⟩
        rw [List.foldlM_cons, hname]
        exact hrec
  exact hfold boards [] h fun e he => (nomatch he)

end RawBoards

/-! ## Nodes that hold harmless strokes -/

open RawBoards (RecordShallow)

/-- What is on file is harmless. -/
structure RawFiles.Clean (stack : Stack) (files : RawFiles) : Prop where
  log : ∀ e ∈ files.loadLog, Harmless stack e.stroke
  snapshot : ∀ s, files.loadSnapshot = some s → RecordShallow stack s.boards

/-- What a call writes is harmless. -/
def RawCall.Clean (stack : Stack) : RawCall → Prop
  | .saveState _ => True
  | .appendLog entry => Harmless stack entry.stroke
  | .rewriteLog entries => ∀ e ∈ entries, Harmless stack e.stroke
  | .saveSnapshot snapshot => RecordShallow stack snapshot.boards

/-- The deepest of several is no deeper than a bound on all. -/
theorem deepest_le {depths : List ℕ} {b : ℕ} (h : ∀ d ∈ depths, d ≤ b) : deepest depths ≤ b := by
  induction depths with
  | nil => exact Nat.zero_le b
  | cons d depths ih =>
      exact max_le (h d List.mem_cons_self) (ih fun d' hd' => h d' (List.mem_cons_of_mem _ hd'))

/-- An entry around a harmless stroke can be stringified. -/
theorem Harmless.nesting_entry {entry : RawEntry} (h : Harmless stack entry.stroke) :
    entry.nesting ≤ stack.stringify := by
  obtain ⟨-, name, -, -, hdeep⟩ := h.named
  unfold RawEntry.nesting
  split at hdeep <;> omega

/-- A clean call can be printed. -/
theorem RawCall.Clean.nesting_le {call : RawCall} (h : call.Clean stack) :
    call.nesting ≤ stack.stringify := by
  have hroomy := stack.roomy
  cases call with
  | saveState state => exact le_trans (show 1 ≤ 4 by decide) hroomy
  | appendLog entry => exact Harmless.nesting_entry h
  | rewriteLog entries =>
      refine deepest_le fun d hd => ?_
      obtain ⟨e, he, rfl⟩ := List.mem_map.mp hd
      exact (h e he).nesting_entry
  | saveSnapshot snapshot =>
      have hboards : deepest (snapshot.boards.map fun b => deepest (b.2.map Js.nesting) + 1) ≤
          stack.stringify - 2 := by
        refine deepest_le fun d hd => ?_
        obtain ⟨b, hb, rfl⟩ := List.mem_map.mp hd
        have hevents : deepest (b.2.map Js.nesting) ≤ stack.stringify - 3 := by
          refine deepest_le fun d hd => ?_
          obtain ⟨e, he, rfl⟩ := List.mem_map.mp hd
          have hdeep := (h e (List.mem_flatMap.mpr ⟨b, hb, he⟩)).deep
          omega
        omega
      show deepest _ + 2 ≤ stack.stringify
      omega

/-- Boards that were read back are no deeper. -/
theorem recordShallow_reread {s : RawSnapshot} (h : RecordShallow stack s.boards) :
    RecordShallow stack s.reread.boards := by
  intro e he
  obtain ⟨b, hb, hin⟩ := List.mem_flatMap.mp he
  obtain ⟨b', hb', rfl⟩ := List.mem_map.mp hb
  obtain ⟨e', he', rfl⟩ := List.mem_map.mp hin
  exact (h e' (List.mem_flatMap.mpr ⟨b', hb', he'⟩)).rereadItem

/-- A clean call leaves clean files. -/
theorem RawFiles.Clean.run {files : RawFiles} (h : files.Clean stack) {call : RawCall}
    (hcall : call.Clean stack) : (files.run call).Clean stack := by
  unfold RawFiles.run
  split
  · exact h
  · cases call with
    | saveState state => exact ⟨h.log, h.snapshot⟩
    | appendLog entry =>
        refine ⟨fun e he => ?_, h.snapshot⟩
        rcases List.mem_append.mp he with hold | hnew
        · exact h.log e hold
        · rw [List.mem_singleton.mp hnew]
          exact Harmless.reread hcall
    | rewriteLog entries =>
        refine ⟨fun e he => ?_, h.snapshot⟩
        obtain ⟨e', he', rfl⟩ := List.mem_map.mp he
        exact (hcall e' he').reread
    | saveSnapshot snapshot =>
        refine ⟨h.log, fun s hs => ?_⟩
        obtain rfl := Option.some.inj hs
        exact recordShallow_reread hcall

/-- So do several, by induction on them. -/
theorem RawFiles.Clean.replay {files : RawFiles} (h : files.Clean stack) {calls : List RawCall}
    (hcalls : ∀ call ∈ calls, call.Clean stack) : (files.replay calls).Clean stack := by
  induction calls generalizing files with
  | nil => exact h
  | cons call calls ih =>
      exact ih (h.run (hcalls call List.mem_cons_self)) fun c hc =>
        hcalls c (List.mem_cons_of_mem _ hc)

namespace RawNode

/-- A node whose log, boards, files and calls hold harmless strokes only. -/
structure Clean (stack : Stack) (n : RawNode) : Prop where
  log : ∀ e ∈ n.log.entries, Harmless stack e.stroke
  boards : RawBoards.AllClean stack n.boards
  files : n.files.Clean stack
  calls : ∀ call ∈ n.calls, call.Clean stack

variable {n : RawNode}

/-- A clean call goes through. -/
theorem Clean.exists_persist (h : n.Clean stack) {call : RawCall} (hcall : call.Clean stack) :
    ∃ n', n.persist stack call = .ok n' ∧ n'.Clean stack := by
  have hle := hcall.nesting_le
  refine ⟨_, if_neg fun hdeep => ?_, h.log, h.boards, h.files.run hcall, fun c hc => ?_⟩
  · exact absurd hdeep.2 (Nat.not_lt.mpr hle)
  · rcases List.mem_append.mp hc with hold | hnew
    · exact h.calls c hold
    · rwa [List.mem_singleton.mp hnew]

theorem Clean.beginTurn (h : n.Clean stack) : n.beginTurn.Clean stack :=
  ⟨h.log, h.boards, h.files, fun _ hc => (nomatch hc)⟩

/-- Only the strokes of a log matter. -/
theorem Clean.setLog (h : n.Clean stack) {log : RawLog}
    (hlog : ∀ e ∈ log.entries, Harmless stack e.stroke) : ({ n with log } : RawNode).Clean stack :=
  ⟨hlog, h.boards, h.files, h.calls⟩

/-- A harmless entry may be pushed. -/
theorem Clean.pushLog (h : n.Clean stack) {entry : RawEntry} (he : Harmless stack entry.stroke) :
    (n.pushLog entry).Clean stack := by
  refine h.setLog fun e hmem => ?_
  rcases List.mem_append.mp hmem with hold | hnew
  · exact h.log e hold
  · rwa [List.mem_singleton.mp hnew]

/-- It is pushed and appended to the file. -/
theorem Clean.exists_appendLog (h : n.Clean stack) {entry : RawEntry}
    (he : Harmless stack entry.stroke) :
    ∃ n', n.appendLog stack entry = .ok n' ∧ n'.Clean stack :=
  (h.pushLog he).exists_persist he

/-- The log rewritten from entries that it had. -/
theorem Clean.exists_rewriteLog (h : n.Clean stack) {log : RawLog}
    (hsub : log.entries ⊆ n.log.entries) :
    ∃ n', n.rewriteLog stack log = .ok n' ∧ n'.Clean stack :=
  (h.setLog fun e he => h.log e (hsub he)).exists_persist fun e he => h.log e (hsub he)

/-- The rest of the log can be rewritten. -/
theorem Clean.exists_compactLog (h : n.Clean stack) (uptoIndex term : ℕ) :
    ∃ n', n.compactLog stack uptoIndex term = .ok n' ∧ n'.Clean stack := by
  unfold RawNode.compactLog
  split
  · exact ⟨n, rfl, h⟩
  · exact h.exists_rewriteLog (List.drop_subset _ _)

/-- What a harmless entry puts on the console can be printed. -/
theorem stringify_applied {stroke boardId id : Var} {kind : Value} (h : Harmless stack stroke)
    (hboard : Js.get stroke "boardId" = .ok boardId) (hid : Js.get stroke "id" = .ok id)
    (hkind : RawBoards.action stroke = .ok kind) :
    Js.stringify stack [boardId, id, some kind] = .ok () := by
  obtain ⟨v, hv⟩ := h.exists_get "action"
  have heq : kind = Js.orElse v (.string "stroke") := by
    rw [RawBoards.action, hv] at hkind
    exact (Except.ok.inj hkind).symm
  have hkindle : Js.nesting (some kind) + 1 ≤ stack.stringify := by
    have hv := h.nesting_get hv
    have hroomy := stack.roomy
    subst heq
    unfold Js.orElse
    split
    · exact le_trans (by decide) hroomy
    · exact le_trans (by decide) hroomy
    · exact hv
  refine Js.stringify_ok fun w hw => ?_
  rcases List.mem_cons.mp hw with rfl | hw
  · exact h.nesting_get hboard
  · rcases List.mem_cons.mp hw with rfl | hw
    · exact h.nesting_get hid
    · rw [List.mem_singleton.mp hw]
      exact hkindle

/-- One round of the loop over an entry that throws nothing. -/
theorem applyNext_entry {entry : RawEntry} {boards : RawBoards} {boardId id : Var} {kind : Value}
    (hentry : n.log.getEntry (n.lastApplied + 1) = some entry)
    (hboards : n.boards.applyBoardEvent entry.stroke = .ok boards)
    (hboardId : Js.get entry.stroke "boardId" = .ok boardId)
    (hid : Js.get entry.stroke "id" = .ok id)
    (hkind : RawBoards.action entry.stroke = .ok kind)
    (hprint : Js.stringify stack [boardId, id, some kind] = .ok ()) :
    n.applyNext stack = .ok { n with lastApplied := n.lastApplied + 1, boards } := by
  unfold applyNext
  simp only [hentry, hboards, hboardId, hid, hkind, hprint, bind, Except.bind]
  rfl

/-- One round of the loop over an entry, looked at from its end. -/
theorem applyNext_ok {n' : RawNode} {entry : RawEntry}
    (hentry : n.log.getEntry (n.lastApplied + 1) = some entry)
    (h : n.applyNext stack = .ok n') :
    ∃ boards, n.boards.applyBoardEvent entry.stroke = .ok boards ∧
      n' = { n with lastApplied := n.lastApplied + 1, boards } := by
  unfold applyNext at h
  simp only [hentry, bind, Except.bind] at h
  repeat' split at h
  all_goals first
    | cases h; done
    | exact ⟨_, ‹_›, (Except.ok.inj h).symm⟩

/-- The next entry can be applied. -/
theorem Clean.exists_applyNext (h : n.Clean stack) :
    ∃ n', n.applyNext stack = .ok n' ∧ n'.Clean stack := by
  cases hentry : n.log.getEntry (n.lastApplied + 1) with
  | none =>
      refine ⟨{ n with lastApplied := n.lastApplied + 1 }, ?_, h.log, h.boards, h.files, h.calls⟩
      unfold applyNext
      simp only [hentry]
      rfl
  | some entry =>
      have hmem : entry ∈ n.log.entries := by
        unfold RawLog.getEntry at hentry
        split at hentry
        · cases hentry
        · exact List.mem_of_getElem? hentry
      have hharm := h.log entry hmem
      obtain ⟨boards, hboards, hclean⟩ := h.boards.exists_applyBoardEvent hharm
      obtain ⟨boardId, hboardId⟩ := hharm.exists_get "boardId"
      obtain ⟨id, hid⟩ := hharm.exists_get "id"
      obtain ⟨kind, hkind⟩ := RawBoards.exists_action hharm
      refine ⟨{ n with lastApplied := n.lastApplied + 1, boards }, ?_, h.log, hclean, h.files,
        h.calls⟩
      exact applyNext_entry hentry hboards hboardId hid hkind
        (stringify_applied hharm hboardId hid hkind)

/-- Several entries can be, by induction on their number. -/
theorem Clean.exists_applyRounds (h : n.Clean stack) (k : ℕ) :
    ∃ n', applyRounds stack k n = .ok n' ∧ n'.Clean stack := by
  induction k generalizing n with
  | zero => exact ⟨n, rfl, h⟩
  | succ k ih => exact exists_bind h.exists_applyNext fun n' hn' => ih hn'

/-- A snapshot of clean boards can be saved. -/
theorem Clean.exists_takeSnapshot (h : n.Clean stack) :
    ∃ n', n.takeSnapshot stack = .ok n' ∧ n'.Clean stack := by
  refine exists_bind h.boards.exists_record fun record hrecord => ?_
  exact exists_bind (h.exists_persist hrecord) fun n' hn' => hn'.exists_compactLog _ _

/-- All that is committed can be applied. -/
theorem Clean.exists_applyCommitted (h : n.Clean stack) :
    ∃ n', n.applyCommitted stack = .ok n' ∧ n'.Clean stack := by
  refine exists_bind (h.exists_applyRounds _) fun n' hn' => ?_
  unfold maybeSnapshot
  split
  · exact ⟨n', rfl, hn'⟩
  · exact hn'.exists_takeSnapshot

/-- Term, vote and commit index can always be saved. -/
theorem Clean.exists_persistState (h : n.Clean stack) :
    ∃ n', n.persistState stack = .ok n' ∧ n'.Clean stack := h.exists_persist trivial

/-- The commit index can be moved. -/
theorem Clean.exists_advanceCommit (h : n.Clean stack) (index : ℕ) :
    ∃ n', n.advanceCommit stack index = .ok n' ∧ n'.Clean stack := by
  have hset : ({ n with commitIndex := index } : RawNode).Clean stack :=
    ⟨h.log, h.boards, h.files, h.calls⟩
  exact exists_bind hset.exists_persistState fun n' hn' => hn'.exists_applyCommitted

/-- Shallow boards can be restored. -/
theorem Clean.exists_restoreBoardState (h : n.Clean stack) {boards : RawRecord}
    (hb : RecordShallow stack boards) :
    ∃ n', n.restoreBoardState boards = .ok n' ∧ n'.Clean stack := by
  have hnone : RawBoards.AllClean stack [] := fun _ hmem => (nomatch hmem)
  refine exists_bind (hnone.exists_replay fun e he => (hb e he).harmless) fun boards' hclean => ?_
  exact ⟨_, rfl, h.log, hclean, h.files, h.calls⟩

/-- A shallow snapshot can be applied. -/
theorem Clean.exists_applySnapshot (h : n.Clean stack) {snapshot : RawSnapshot}
    (hs : RecordShallow stack snapshot.boards) :
    ∃ n', n.applySnapshot stack snapshot = .ok n' ∧ n'.Clean stack := by
  refine exists_bind (h.exists_rewriteLog List.filter_sublist.subset) fun n₁ h₁ => ?_
  refine exists_bind (h₁.exists_restoreBoardState hs) fun n₂ h₂ => ?_
  have hset : ({ n₂ with
      commitIndex := snapshot.lastIncludedIndex
      lastApplied := snapshot.lastIncludedIndex } : RawNode).Clean stack :=
    ⟨h₂.log, h₂.boards, h₂.files, h₂.calls⟩
  exact exists_bind (hset.exists_persist hs) fun n₃ h₃ => h₃.exists_persistState

/-- A node comes up on clean files. -/
theorem exists_construct (snapshotThreshold : ℕ) {files : RawFiles} (h : files.Clean stack) :
    ∃ n', construct stack snapshotThreshold files = .ok n' ∧ n'.Clean stack := by
  have hlog : ∀ e ∈ (RawLog.ofFiles files).entries, Harmless stack e.stroke := by
    unfold RawLog.ofFiles
    split
    · exact fun e he => h.log e (List.mem_of_mem_filter he)
    · exact h.log
  have hn : (blank snapshotThreshold files).Clean stack :=
    ⟨hlog, fun _ hmem => (nomatch hmem), h, fun _ hc => (nomatch hc)⟩
  have hsaved : ∀ n : RawNode, n.Clean stack → ({ n with
      currentTerm := files.loadState.currentTerm
      votedFor := files.loadState.votedFor
      commitIndex := max files.loadState.commitIndex n.log.lastIncludedIndex } : RawNode).Clean
        stack :=
    fun n hn => ⟨hn.log, hn.boards, hn.files, hn.calls⟩
  unfold construct
  cases hsnap : files.loadSnapshot with
  | none => exact (hsaved _ hn).exists_applyCommitted
  | some snapshot =>
      obtain ⟨n₁, h₁, hclean₁⟩ := hn.exists_restoreBoardState (h.snapshot snapshot hsnap)
      have hset : ({ n₁ with lastApplied := snapshot.lastIncludedIndex } : RawNode).Clean stack :=
        ⟨hclean₁.log, hclean₁.boards, hclean₁.files, hclean₁.calls⟩
      simp only [h₁]
      exact (hsaved _ hset).exists_applyCommitted

/-- A harmless write throws nothing. -/
theorem Clean.handleClientWrite (h : n.Clean stack) {stroke : Var} (hs : Harmless stack stroke) :
    (n.handleClientWrite stack stroke).2 = .ok () ∧
      (n.handleClientWrite stack stroke).1.Clean stack := by
  unfold RawNode.handleClientWrite
  split
  · exact ⟨rfl, h⟩
  · have happend : ∃ n', n.appendLog stack ⟨n.log.getLastIndex + 1, n.currentTerm, stroke⟩ =
        .ok n' ∧ n'.Clean stack := h.exists_appendLog hs
    obtain ⟨n', hn', hclean⟩ := happend
    obtain ⟨id, hid⟩ := hs.exists_get "id"
    simp only [hn']
    refine ⟨?_, hclean⟩
    simp only [hid, bind, Except.bind]
    refine Js.stringify_ok fun w hw => ?_
    rw [List.mem_singleton.mp hw]
    exact hs.nesting_get hid

end RawNode

/-! ## Runs of harmless writes -/

/-- The strokes written in a turn meet `P`. -/
def RawAction.Writes (P : Var → Prop) : RawAction → Prop
  | .clientWrite _ stroke => P stroke
  | _ => True

/-- The strokes that clients write in the event meet `P`. -/
def RawEvent.Writes (P : Var → Prop) : RawEvent → Prop
  | .act action | .crash action _ => action.Writes P
  | .restart _ _ => True

/-- A suffix of the log can be overwritten by harmless entries. -/
theorem RawNode.Clean.exists_overwrite {n : RawNode} (h : n.Clean stack) (keep : ℕ)
    {entries : List RawEntry} (he : ∀ e ∈ entries, Harmless stack e.stroke) :
    ∃ n', n.overwrite stack keep entries = .ok n' ∧ n'.Clean stack := by
  have hfold : ∀ (entries : List RawEntry) (n : RawNode), n.Clean stack →
      (∀ e ∈ entries, Harmless stack e.stroke) →
      ∃ n', entries.foldlM (RawNode.appendLog stack) n = .ok n' ∧ n'.Clean stack := by
    intro entries
    induction entries with
    | nil => exact fun n hn _ => ⟨n, rfl, hn⟩
    | cons entry entries ih =>
        intro n hn hentries
        rw [List.foldlM_cons]
        refine exists_bind (hn.exists_appendLog (hentries entry List.mem_cons_self)) ?_
        exact fun n' hn' => ih n' hn' fun e hmem => hentries e (List.mem_cons_of_mem _ hmem)
  have hcut : ∃ n', n.cutLog stack keep = .ok n' ∧ n'.Clean stack := by
    unfold RawNode.cutLog
    split
    · exact ⟨n, rfl, h⟩
    · exact h.exists_rewriteLog (List.take_subset _ _)
  exact exists_bind hcut fun n' hn' => hfold entries n' hn' he

namespace RawCluster

variable {threshold : String → ℕ} {c c' : RawCluster}

/-- Everywhere there are harmless strokes only. -/
structure Clean (stack : Stack) (c : RawCluster) : Prop where
  nodes : ∀ a, (c.replicas a).Clean stack
  entries : ∀ e ∈ c.entries, Harmless stack e.stroke
  snapshots : ∀ s ∈ c.snapshots, RecordShallow stack s.boards

/-- A turn that writes nothing harmful throws nothing. -/
theorem Clean.exists_turn (h : c.Clean stack) {action : RawAction}
    (hw : action.Writes (Harmless stack)) :
    ∃ n, c.turn stack action = .ok n ∧ n.Clean stack := by
  have hn := (h.nodes action.replica).beginTurn
  cases action with
  | setRole a state term votedFor =>
      have hset : ({ (c.replicas a).beginTurn with
          state, currentTerm := term, votedFor } : RawNode).Clean stack :=
        ⟨hn.log, hn.boards, hn.files, hn.calls⟩
      exact hset.exists_persistState
  | clientWrite a stroke => exact ⟨_, rfl, (hn.handleClientWrite hw).2⟩
  | overwrite a keep picks =>
      refine hn.exists_overwrite keep fun e he => ?_
      obtain ⟨k, -, hk⟩ := List.mem_filterMap.mp he
      exact h.entries e (List.mem_of_getElem? hk)
  | commit a index => exact hn.exists_advanceCommit index
  | install a pick =>
      cases hpick : c.snapshots[pick]? with
      | none =>
          refine ⟨(c.replicas a).beginTurn, ?_, hn⟩
          simp only [turn, hpick]
          rfl
      | some snapshot =>
          simp only [turn, hpick]
          exact hn.exists_applySnapshot (h.snapshots snapshot (List.mem_of_getElem? hpick))
  | send a => exact ⟨_, rfl, hn⟩

/-- One replica may be replaced by a clean one. -/
theorem Clean.update (h : c.Clean stack) (a : String) {n : RawNode} (hn : n.Clean stack) :
    ({ c with replicas := Function.update c.replicas a n } : RawCluster).Clean stack := by
  refine ⟨fun b => ?_, h.entries, h.snapshots⟩
  show (Function.update c.replicas a n b).Clean stack
  by_cases hb : b = a
  · subst hb
    rw [Function.update_self]
    exact hn
  · rw [Function.update_of_ne hb]
    exact h.nodes b

/-- What a clean replica sends is clean. -/
theorem Clean.post (h : c.Clean stack) {n : RawNode} (hn : n.Clean stack) :
    (c.post n).Clean stack := by
  refine ⟨h.nodes, fun e he => ?_, fun s hs => ?_⟩
  · rcases List.mem_append.mp he with hold | hnew
    · exact h.entries e hold
    · obtain ⟨e', he', rfl⟩ := List.mem_map.mp hnew
      exact (hn.log e' he').reread
  · rcases List.mem_append.mp hs with hold | hnew
    · exact h.snapshots s hold
    · obtain ⟨s', hs', rfl⟩ := Option.map_eq_some_iff.mp (Option.mem_toList.mp hnew)
      exact recordShallow_reread (hn.files.snapshot s' hs')

/-- A turn that leaves its replica clean leaves the cluster clean. -/
theorem Clean.finishTurn (h : c.Clean stack) (action : RawAction) {n : RawNode}
    (hn : n.Clean stack) :
    (c.finishTurn action n).Clean stack := by
  unfold RawCluster.finishTurn
  cases action with
  | send a => exact (h.post hn).update a hn
  | setRole a _ _ _ => exact h.update a hn
  | clientWrite a _ => exact h.update a hn
  | overwrite a _ _ => exact h.update a hn
  | commit a _ => exact h.update a hn
  | install a _ => exact h.update a hn

/-- So does a restart on clean files. -/
theorem Clean.reboot (h : c.Clean stack) (a : String) {files : RawFiles} (hf : files.Clean stack)
    (hnext : c.reboot stack threshold a files = some c') : c'.Clean stack := by
  obtain ⟨n, hn, hclean⟩ := RawNode.exists_construct (threshold a) hf
  unfold RawCluster.reboot at hnext
  rw [hn] at hnext
  obtain rfl := Option.some.inj hnext
  exact h.update a hclean

/-- A step that writes nothing harmful keeps the cluster clean. -/
theorem Clean.next (h : c.Clean stack) {e : RawEvent} (hw : e.Writes (Harmless stack))
    (hnext : c.next stack threshold e = some c') : c'.Clean stack := by
  cases e with
  | act action =>
      obtain ⟨n, hn, hclean⟩ := h.exists_turn hw
      simp only [RawCluster.next, hn] at hnext
      obtain rfl := Option.some.inj hnext
      exact h.finishTurn action hclean
  | crash action calls =>
      obtain ⟨n, hn, hclean⟩ := h.exists_turn hw
      simp only [RawCluster.next, hn] at hnext
      refine h.reboot action.replica ((h.nodes action.replica).files.replay ?_) hnext
      exact fun call hcall => hclean.calls call (List.mem_of_mem_take hcall)
  | restart a calls =>
      obtain ⟨n, hn, hclean⟩ := RawNode.exists_construct (threshold a) (h.nodes a).files
      simp only [RawCluster.next, hn] at hnext
      refine h.reboot a ((h.nodes a).files.replay ?_) hnext
      exact fun call hcall => hclean.calls call (List.mem_of_mem_take hcall)

/-- A new cluster is clean. -/
theorem clean_init (stack : Stack) (threshold : String → ℕ) (backend : String → Backend) :
    (init stack threshold backend).Clean stack := by
  refine ⟨fun a => ?_, fun _ he => (nomatch he), fun _ hs => (nomatch hs)⟩
  have hfresh : (RawFiles.fresh (backend a)).Clean stack :=
    ⟨fun _ he => (nomatch he), fun _ hs => (nomatch hs)⟩
  obtain ⟨n, hn, hclean⟩ := RawNode.exists_construct (threshold a) hfresh
  unfold init
  dsimp only
  rw [hn]
  exact hclean

/-- The runs in which every stroke written meets `P`. -/
abbrev Reach (stack : Stack) (threshold : String → ℕ) (P : Var → Prop) :
    RawCluster → RawCluster → Prop :=
  Runs.Reach (next stack threshold) fun _ e => e.Writes P

/-- Clean clusters stay clean while clients write harmless strokes. -/
theorem Clean.reach (h : c.Clean stack) (hrun : Reach stack threshold (Harmless stack) c c') :
    c'.Clean stack :=
  hrun.invariant (I := Clean stack) h fun _ _ _ hc hw hnext => hc.next hw hnext

/-! ## One bad write -/

/-- In this state a write of `stroke` changes neither log nor files if it throws, and
nothing else throws: whatever is committed is applied, every snapshot on its way can be
installed, and every replica comes up again. -/
structure Weathers (stack : Stack) (threshold : String → ℕ) (c : RawCluster) (stroke : Var) :
    Prop where
  write : ∀ a, ((c.replicas a).handleClientWrite stack stroke).2 ≠ .ok () →
    ((c.replicas a).handleClientWrite stack stroke).1.log = (c.replicas a).log ∧
      ((c.replicas a).handleClientWrite stack stroke).1.files = (c.replicas a).files
  commit : ∀ a index, ∃ n, (c.replicas a).advanceCommit stack index = .ok n
  install : ∀ a, ∀ s ∈ c.snapshots, ∃ n, (c.replicas a).applySnapshot stack s = .ok n
  restart : ∀ a, ∃ n, RawNode.construct stack (threshold a) (c.replicas a).files = .ok n

/-- A harmless stroke does no harm to a clean cluster. -/
theorem Clean.weathers (h : c.Clean stack) {stroke : Var} (hs : Harmless stack stroke) :
    c.Weathers stack threshold stroke where
  write a hthrow := absurd ((h.nodes a).handleClientWrite hs).1 hthrow
  commit a index := by
    obtain ⟨n, hn, -⟩ := (h.nodes a).exists_advanceCommit index
    exact ⟨n, hn⟩
  install a s hmem := by
    obtain ⟨n, hn, -⟩ := (h.nodes a).exists_applySnapshot (h.snapshots s hmem)
    exact ⟨n, hn⟩
  restart a := by
    obtain ⟨n, hn, -⟩ := RawNode.exists_construct (threshold a) (h.nodes a).files
    exact ⟨n, hn⟩

/-! ### The ways in which a write does harm -/

/-- Replicas with files, each to take a snapshot after `threshold` entries. -/
abbrev fresh (stack : Stack) (threshold : ℕ) : RawCluster :=
  init stack (fun _ => threshold) fun _ => .file

/-- The leader of term 1, with nothing in its log yet. -/
def leading (threshold : ℕ) : RawNode where
  snapshotThreshold := threshold
  currentTerm := 1
  votedFor := none
  state := .leader
  log := ⟨[], 0, 0⟩
  commitIndex := 0
  lastApplied := 0
  boards := []
  files := ⟨.file, ⟨1, none, 0⟩, [], none⟩
  calls := [.saveState ⟨1, none, 0⟩]

/-- Replica `a` leads term 1. -/
def elected (stack : Stack) (threshold : ℕ) : RawCluster :=
  (fresh stack threshold).finishTurn (.setRole "a" .leader 1 none) (leading threshold)

/-- It has taken a write. -/
def written (stack : Stack) (threshold : ℕ) (stroke : Var) : RawCluster :=
  (elected stack threshold).finishTurn (.clientWrite "a" stroke)
    (((elected stack threshold).replicas "a").beginTurn.handleClientWrite stack stroke).1

/-- The objects of a node itself can be printed. -/
theorem persist_saveState (stack : Stack) (n : RawNode) (state : PersistedState) :
    n.persist stack (.saveState state) = .ok { n with
      files := n.files.run (.saveState state), calls := n.calls ++ [.saveState state] } := by
  refine if_neg fun hdeep => ?_
  have hroomy := stack.roomy
  have hone : stack.stringify < 1 := hdeep.2
  omega

/-- A node comes up on files that are not there, whatever its stack. -/
theorem construct_fresh (stack : Stack) {threshold : ℕ} (hpos : 0 < threshold) :
    RawNode.construct stack threshold (.fresh .file) = .ok (.blank threshold (.fresh .file)) := by
  have hkeep : ¬ threshold ≤ 0 := Nat.not_le.mpr hpos
  show RawNode.maybeSnapshot stack (RawNode.blank threshold (.fresh .file)) = _
  exact if_pos hpos

/-- The single replica elects itself. -/
theorem reach_elected (stack : Stack) {threshold : ℕ} (hpos : 0 < threshold) (P : Var → Prop) :
    Reach stack (fun _ => threshold) P (fresh stack threshold) (elected stack threshold) := by
  have hfresh : (fresh stack threshold).replicas "a" = .blank threshold (.fresh .file) := by
    simp only [fresh, init, construct_fresh stack hpos]
  refine .tail .refl (e := .act (.setRole "a" .leader 1 none)) trivial ?_
  have hturn : (fresh stack threshold).turn stack (.setRole "a" .leader 1 none) =
      .ok (leading threshold) := by
    show ((fresh stack threshold).replicas "a").beginTurn.setRole stack .leader 1 none = _
    rw [hfresh]
    exact persist_saveState stack _ _
  simp only [RawCluster.next, hturn]
  rfl

/-- It takes the stroke. -/
theorem reach_written (stack : Stack) {threshold : ℕ} (hpos : 0 < threshold) (stroke : Var) :
    Reach stack (fun _ => threshold) (fun s => s = stroke ∨ Harmless stack s)
      (fresh stack threshold) (written stack threshold stroke) :=
  .tail (reach_elected stack hpos _) (e := .act (.clientWrite "a" stroke)) (Or.inl rfl) rfl

/-- The entry that a leader makes of a stroke. -/
def clientEntry (n : RawNode) (stroke : Var) : RawEntry :=
  ⟨n.log.getLastIndex + 1, n.currentTerm, stroke⟩

/-- A leader takes in what can be printed. -/
theorem handleClientWrite_fits {n : RawNode} {stroke : Var} (hlead : n.state = .leader)
    (h : Js.nesting stroke + 1 ≤ stack.stringify) :
    n.handleClientWrite stack stroke =
      ({ n.pushLog (clientEntry n stroke) with
        files := n.files.run (.appendLog (clientEntry n stroke))
        calls := n.calls ++ [.appendLog (clientEntry n stroke)] },
      do Js.stringify stack [← Js.get stroke "id"]) := by
  have happend : n.appendLog stack ⟨n.log.getLastIndex + 1, n.currentTerm, stroke⟩ = .ok
      { n.pushLog (clientEntry n stroke) with
        files := n.files.run (.appendLog (clientEntry n stroke))
        calls := n.calls ++ [.appendLog (clientEntry n stroke)] } :=
    if_neg fun hdeep => absurd hdeep.2 (Nat.not_lt.mpr h)
  unfold RawNode.handleClientWrite
  rw [if_neg (not_not.mpr hlead)]
  simp only [happend]

/-- What is nested too deep for its line on file is in the log when that throws. -/
theorem handleClientWrite_deep {n : RawNode} {stroke : Var} (hlead : n.state = .leader)
    (hfile : n.files.backend = .file) (h : stack.stringify < Js.nesting stroke + 1) :
    n.handleClientWrite stack stroke =
      (n.pushLog (clientEntry n stroke), .error .stackOverflow) := by
  have happend : n.appendLog stack ⟨n.log.getLastIndex + 1, n.currentTerm, stroke⟩ =
      .error .stackOverflow :=
    if_pos ⟨hfile, h⟩
  unfold RawNode.handleClientWrite
  rw [if_neg (not_not.mpr hlead)]
  simp only [happend, clientEntry]

@[simp] theorem replicas_finishTurn (c : RawCluster) (action : RawAction) (n : RawNode) :
    (c.finishTurn action n).replicas action.replica = n := by
  unfold RawCluster.finishTurn
  cases action <;> exact Function.update_self (β := fun _ => RawNode) ..

/-- A write that throws has put its entry into the log. -/
theorem not_weathers_of_throws {stroke : Var} {thrown : Thrown}
    (h : ((leading 2).handleClientWrite stack stroke).2 = .error thrown)
    (hlog : ((leading 2).handleClientWrite stack stroke).1.log.entries.length = 1) :
    ¬ (elected stack 2).Weathers stack (fun _ => 2) stroke := by
  intro hw
  have hlead : (elected stack 2).replicas "a" = leading 2 := replicas_finishTurn ..
  have hwrite := hw.write "a"
  rw [hlead, h] at hwrite
  obtain ⟨hsame, -⟩ := hwrite nofun
  rw [hsame] at hlog
  cases hlog

/-- A stroke without properties throws after it has been appended. -/
theorem not_weathers_nullish {stroke : Var} (h : Js.get stroke "id" = .error .readOfNullish)
    (hflat : Js.nesting stroke = 0) :
    ¬ (elected stack 2).Weathers stack (fun _ => 2) stroke := by
  have hroomy := stack.roomy
  have hfits : Js.nesting stroke + 1 ≤ stack.stringify := by omega
  have hwrite := handleClientWrite_fits (n := leading 2) rfl hfits
  have hthrow : ((leading 2).handleClientWrite stack stroke).2 = .error .readOfNullish := by
    rw [hwrite, h]
    rfl
  refine not_weathers_of_throws hthrow ?_
  rw [hwrite]
  rfl

/-- A stroke too deep to stringify is pushed, and the write rejected. -/
theorem not_weathers_deep {stroke : Var} (h : stack.stringify < Js.nesting stroke + 1) :
    ¬ (elected stack 2).Weathers stack (fun _ => 2) stroke := by
  have hwrite := handleClientWrite_deep (n := leading 2) rfl rfl h
  refine not_weathers_of_throws (congrArg Prod.snd hwrite) ?_
  rw [hwrite]
  rfl

/-- A node that has put its commit index at the first entry of all. -/
def committing (n : RawNode) : RawNode :=
  { n with
    commitIndex := 1
    files := n.files.run (.saveState ⟨n.currentTerm, n.votedFor, 1⟩)
    calls := n.calls ++ [.saveState ⟨n.currentTerm, n.votedFor, 1⟩] }

/-- It applies the entry, and takes a snapshot if it is time. -/
theorem advanceCommit_one {n : RawNode} (happlied : n.lastApplied = 0) :
    n.advanceCommit stack 1 =
      ((committing n).applyNext stack >>= RawNode.maybeSnapshot stack) := by
  have hsave : ({ n with commitIndex := 1 } : RawNode).persistState stack = .ok (committing n) :=
    persist_saveState stack _ _
  unfold RawNode.advanceCommit
  rw [hsave]
  simp only [bind, Except.bind, RawNode.applyCommitted]
  rw [show (committing n).commitIndex - (committing n).lastApplied = 1 by
    show 1 - n.lastApplied = 1
    rw [happlied]]
  simp only [RawNode.applyRounds, bind, Except.bind]
  cases (committing n).applyNext stack <;> rfl

/-- The leader with one entry, in its log and on file. -/
def holding (threshold : ℕ) (stroke : Var) : RawNode :=
  { leading threshold with
    log := ⟨[⟨1, 1, stroke⟩], 0, 0⟩
    files := ⟨.file, ⟨1, none, 0⟩, [⟨1, 1, stroke.map Value.reread⟩], none⟩
    calls := [.appendLog ⟨1, 1, stroke⟩] }

/-- The replica holds one entry. -/
theorem replicas_written {stroke : Var} (threshold : ℕ)
    (h : Js.nesting stroke + 1 ≤ stack.stringify) :
    (written stack threshold stroke).replicas "a" = holding threshold stroke := by
  have hwritten : (written stack threshold stroke).replicas "a" = _ := replicas_finishTurn ..
  have hlead : (elected stack threshold).replicas "a" = leading threshold := replicas_finishTurn ..
  rw [hwritten, hlead, handleClientWrite_fits rfl h]
  rfl

/-- An infinity is `null` once it is on file. -/
theorem not_weathers_infinity (stack : Stack) (negative : Bool) :
    ∃ c, Reach stack (fun _ => 2) (fun s => s = some (.infinity negative) ∨ Harmless stack s)
        (fresh stack 2) c ∧
      ¬ c.Weathers stack (fun _ => 2) (some (.infinity negative)) := by
  have hroomy := stack.roomy
  have hprint : Js.stringify stack [none, none, some (.string "stroke")] = .ok () := by
    refine Js.stringify_ok fun v hv => ?_
    have hflat : Js.nesting v = 0 := by
      rcases List.mem_cons.mp hv with rfl | hv
      · rfl
      · rcases List.mem_cons.mp hv with rfl | hv
        · rfl
        · rw [List.mem_singleton.mp hv]
          rfl
    omega
  have happly : (committing (holding 2 (some (.infinity negative))).beginTurn).applyNext stack =
      .ok _ := RawNode.applyNext_entry rfl rfl rfl rfl rfl hprint
  obtain ⟨n, hn, hfiles⟩ : ∃ n,
      (written stack 2 (some (.infinity negative))).turn stack (.commit "a" 1) = .ok n ∧
        n.files = ⟨.file, ⟨1, none, 1⟩, [⟨1, 1, some .null⟩], none⟩ := by
    have hturn : (written stack 2 (some (.infinity negative))).turn stack (.commit "a" 1) =
        ((written stack 2 (some (.infinity negative))).replicas "a").beginTurn.advanceCommit
          stack 1 := rfl
    rw [hturn, replicas_written 2 (show 0 + 1 ≤ _ by omega), advanceCommit_one rfl, happly]
    exact ⟨_, rfl, rfl⟩
  have hnext : (written stack 2 (some (.infinity negative))).next stack (fun _ => 2)
      (.act (.commit "a" 1)) = some ((written stack 2 (some (.infinity negative))).finishTurn
        (.commit "a" 1) n) := by
    simp only [RawCluster.next, hn]
  refine ⟨_, (reach_written stack (by decide) _).tail (e := .act (.commit "a" 1)) trivial hnext,
    fun hw => ?_⟩
  obtain ⟨n', hn'⟩ := hw.restart "a"
  have hself : ((written stack 2 (some (.infinity negative))).finishTurn
      (.commit "a" 1) n).replicas "a" = n := replicas_finishTurn ..
  have hconstruct : RawNode.construct stack 2
      ⟨.file, ⟨1, none, 1⟩, [⟨1, 1, some .null⟩], none⟩ = .error .readOfNullish := rfl
  rw [hself, hfiles, hconstruct] at hn'
  cases hn'

/-- The board after an event is under the same key, and lists the event. -/
theorem eq_applyTo {board board' : RawBoard} {event : Var}
    (h : RawBoards.applyTo board event = .ok board') :
    board'.boardId = board.boardId ∧ board'.events = board.events ++ [event] := by
  unfold RawBoards.applyTo at h
  simp only [bind, Except.bind, pure, Except.pure] at h
  split at h
  · cases h
  · split at h
    · cases h
    · split at h
      · split at h
        · cases h
        · obtain rfl := Except.ok.inj h
          exact ⟨rfl, rfl⟩
      · split at h
        · split at h
          · cases h
          · split at h
            · obtain rfl := Except.ok.inj h
              exact ⟨rfl, rfl⟩
            · split at h
              · cases h
              · obtain rfl := Except.ok.inj h
                exact ⟨rfl, rfl⟩
        · split at h
          · cases h
          · split at h <;> obtain rfl := Except.ok.inj h <;> exact ⟨rfl, rfl⟩

/-- A board that no snapshot can take in: its key has no text, or the text is a property and
its event is nested too deep. -/
theorem not_ok_takeSnapshot {n n' : RawNode} {board : RawBoard} {stroke : Var}
    (hboards : n.boards = [board]) (hevents : board.events = [stroke])
    (hfile : n.files.backend = .file)
    (hrefused : ∀ name, Js.propertyNameOn stack board.boardId = .ok name →
      name ≠ "__proto__" ∧ stack.stringify < Js.nesting stroke + 3) :
    n.takeSnapshot stack ≠ .ok n' := by
  intro h
  have hrecord : n.boards.record stack = (do
      return RawRecord.assign [] (← Js.propertyNameOn stack board.boardId) [stroke]) := by
    rw [hboards, RawBoards.record, List.foldlM_cons, hevents]
    exact bind_pure _
  unfold RawNode.takeSnapshot at h
  rw [hrecord] at h
  cases hname : Js.propertyNameOn stack board.boardId with
  | error thrown =>
      rw [hname] at h
      cases h
  | ok name =>
      obtain ⟨hproto, hdeep⟩ := hrefused name hname
      have hassign : RawRecord.assign [] name [stroke] = [(name, [stroke])] := if_neg hproto
      have hpersist : n.persist stack (.saveSnapshot ⟨n.commitIndex, n.log.getTermAt n.commitIndex,
          [(name, [stroke])]⟩) = .error .stackOverflow := by
        refine if_pos ⟨hfile, ?_⟩
        show stack.stringify < max (max (Js.nesting stroke) 0 + 1) 0 + 2
        omega
      rw [hname] at h
      simp only [bind, Except.bind, pure, Except.pure, hassign, hpersist] at h
      cases h

/-- A stroke that no snapshot can take in breaks the first one. -/
theorem not_weathers_unsaved {stroke boardId : Var}
    (hfits : Js.nesting stroke + 1 ≤ stack.stringify)
    (hget : Js.get stroke "boardId" = .ok boardId)
    (hrefused : ∀ name, Js.propertyNameOn stack boardId = .ok name →
      name ≠ "__proto__" ∧ stack.stringify < Js.nesting stroke + 3) :
    ¬ (written stack 1 stroke).Weathers stack (fun _ => 1) stroke := by
  intro hw
  obtain ⟨n, hn⟩ := hw.commit "a" 1
  rw [replicas_written 1 hfits, advanceCommit_one rfl] at hn
  cases happly : (committing (holding 1 stroke)).applyNext stack with
  | error thrown =>
      rw [happly] at hn
      cases hn
  | ok n₁ =>
      have hentry : (committing (holding 1 stroke)).log.getEntry 1 = some ⟨1, 1, stroke⟩ := rfl
      obtain ⟨boards, hboards, rfl⟩ := RawNode.applyNext_ok hentry happly
      obtain ⟨board, rfl, hkey, hevents⟩ :
          ∃ board, boards = [board] ∧ board.boardId = boardId ∧ board.events = [stroke] := by
        unfold RawBoards.applyBoardEvent at hboards
        simp only [hget, bind, Except.bind] at hboards
        split at hboards
        · cases hboards
        · next board hboard =>
            obtain rfl := Except.ok.inj hboards
            obtain ⟨hkey, hevents⟩ := eq_applyTo hboard
            exact ⟨board, rfl, hkey, hevents⟩
      rw [happly] at hn
      exact not_ok_takeSnapshot rfl hevents rfl (hkey ▸ hrefused) hn

/-- **A write does no harm exactly when its stroke is harmless:** when it is neither
absent nor `null`, nor a number too large to be read back, its `boardId` can be made a
property name, and it is not nested too deep to be printed, in the log and, unless its board
is `__proto__`, in a snapshot.  Of all the writes of a run, the others harmless, it is the one
in question. -/
theorem weathers_iff_harmless (stack : Stack) (stroke : Var) :
    (∀ threshold backend c, Reach stack threshold (fun s => s = stroke ∨ Harmless stack s)
      (init stack threshold backend) c → c.Weathers stack threshold stroke) ↔
      Harmless stack stroke := by
  constructor
  · intro hall
    have helected : (elected stack 2).Weathers stack (fun _ => 2) stroke :=
      hall (fun _ => 2) (fun _ => .file) _ (reach_elected stack (by decide) _)
    have hwritten := hall (fun _ => 1) (fun _ => .file) _ (reach_written stack (by decide) stroke)
    have hread : ∃ v, stroke = some v ∧ v.reread ≠ .null := by
      cases stroke with
      | none => exact absurd helected (not_weathers_nullish rfl rfl)
      | some v =>
          cases v with
          | null => exact absurd helected (not_weathers_nullish rfl rfl)
          | infinity negative =>
              obtain ⟨c, hrun, hno⟩ := not_weathers_infinity stack negative
              exact absurd (hall _ _ c hrun) hno
          | bool b => exact ⟨_, rfl, Value.noConfusion⟩
          | number n => exact ⟨_, rfl, Value.noConfusion⟩
          | string s => exact ⟨_, rfl, Value.noConfusion⟩
          | array items => exact ⟨_, rfl, Value.noConfusion⟩
          | object members => exact ⟨_, rfl, Value.noConfusion⟩
    obtain ⟨v, rfl, hv⟩ := hread
    obtain ⟨boardId, hget⟩ := exists_get (ne_null_of_reread hv) "boardId"
    have hfits : Js.nesting (some v) + 1 ≤ stack.stringify := by
      by_contra hdeep
      exact not_weathers_deep (Nat.lt_of_not_le hdeep) helected
    refine ⟨⟨v, rfl, hv⟩, boardId, ?_⟩
    cases hname : Js.propertyNameOn stack boardId with
    | error thrown =>
        refine absurd hwritten (not_weathers_unsaved hfits hget fun name hok => ?_)
        cases hname.symm.trans hok
    | ok name =>
        refine ⟨name, hget, rfl, ?_⟩
        split
        · exact hfits
        · next hproto =>
            by_contra hdeep
            refine not_weathers_unsaved hfits hget (fun name' hok => ?_) hwritten
            obtain rfl := Except.ok.inj (hname.symm.trans hok)
            exact ⟨hproto, Nat.lt_of_not_le hdeep⟩
  · intro hs threshold backend c hrun
    have hclean := (clean_init stack threshold backend).reach (hrun.mono fun _ e hw => by
      cases e with
      | act action => cases action with
        | clientWrite a stroke' => exact hw.elim (fun h => h ▸ hs) id
        | _ => trivial
      | crash action calls => cases action with
        | clientWrite a stroke' => exact hw.elim (fun h => h ▸ hs) id
        | _ => trivial
      | restart a calls => trivial)
    exact hclean.weathers hs

/-- A stack that a thousand arrays in one another fit in. -/
def smallStack : Stack := ⟨1000, 1000, by decide⟩

/-- **`null` poisons the log:** the call throws with its entry appended and on file;
once that is committed nothing can apply it. -/
theorem null_write_poisons :
    Reach smallStack (fun _ => 2) (fun s => s = some .null ∨ Harmless smallStack s)
        (fresh smallStack 2) (elected smallStack 2) ∧
      ¬ (elected smallStack 2).Weathers smallStack (fun _ => 2) (some .null) :=
  ⟨reach_elected _ (by decide) _, not_weathers_nullish rfl rfl⟩

end RawCluster

end QuorumCanvas
