import Mathlib.Data.List.Induction
import QuorumCanvas.Boards

/-!
# Which drawings a board shows

A drawing is shown unless the last word on its id was an undo.  What was drawn
and what the last word was can be read off the list of events, without running
the board (`mem_visible`).
-/

namespace QuorumCanvas

open BoardEvent (kind target?)

variable {ε : Type*} [BoardEvent ε]

namespace BoardEvent

/-- An undo or redo names its target. -/
def Proper (event : ε) : Prop := kind event = .stroke ∨ (target? event).isSome

instance (event : ε) : Decidable (Proper event) := by unfold Proper; infer_instance

/-- A proper undo or redo has a target. -/
theorem Proper.exists_target {event : ε} (h : Proper event) (hk : kind event ≠ .stroke) :
    ∃ target, target? event = some target :=
  Option.isSome_iff_exists.mp (h.resolve_left hk)

/-- What an event says about an id: `false` for an undo, `true` for a redo. -/
def mark (id : String) (event : ε) : Option Bool :=
  match kind event, target? event with
  | .undoStroke, some target => if target = id then some false else none
  | .redoStroke, some target => if target = id then some true else none
  | _, _ => none

/-- The last word on an id. -/
def lastMark (events : List ε) (id : String) : Option Bool :=
  (events.filterMap (mark id)).getLast?

/-- A drawing with this id is among the events. -/
def Drawn (events : List ε) (id : String) : Prop :=
  ∃ event ∈ events, kind event = .stroke ∧ BoardEvent.id event = id

@[simp] theorem lastMark_nil (id : String) : lastMark ([] : List ε) id = none := rfl

/-- The last word on an id is that of the later events, if they have one. -/
theorem lastMark_append (xs ys : List ε) (id : String) :
    lastMark (xs ++ ys) id = (lastMark ys id).or (lastMark xs id) := by
  unfold lastMark
  rw [List.filterMap_append, List.getLast?_append]

/-- One event. -/
theorem lastMark_singleton (event : ε) (id : String) : lastMark [event] id = mark id event := by
  unfold lastMark
  cases h : mark id event <;> simp [h]

/-- Later events decide before earlier ones. -/
theorem lastMark_cons (event : ε) (events : List ε) (id : String) :
    lastMark (event :: events) id = (lastMark events id).or (mark id event) := by
  rw [← List.singleton_append, lastMark_append, lastMark_singleton]

@[simp] theorem not_drawn_nil (id : String) : ¬ Drawn ([] : List ε) id :=
  fun ⟨_, h, _⟩ => by cases h

/-- What was drawn first or next. -/
theorem drawn_append {xs ys : List ε} {id : String} :
    Drawn (xs ++ ys) id ↔ Drawn xs id ∨ Drawn ys id := by
  constructor
  · rintro ⟨event, hmem, h⟩
    rcases List.mem_append.mp hmem with hx | hy
    · exact Or.inl ⟨event, hx, h⟩
    · exact Or.inr ⟨event, hy, h⟩
  · rintro (⟨event, hmem, h⟩ | ⟨event, hmem, h⟩)
    · exact ⟨event, List.mem_append_left _ hmem, h⟩
    · exact ⟨event, List.mem_append_right _ hmem, h⟩

/-- A drawing draws its own id. -/
theorem drawn_singleton {event : ε} {id : String} :
    Drawn [event] id ↔ kind event = .stroke ∧ BoardEvent.id event = id :=
  ⟨fun ⟨_, hmem, h⟩ => List.mem_singleton.mp hmem ▸ h,
    fun h => ⟨event, List.mem_singleton_self _, h⟩⟩

variable {event : ε} {id target : String}

/-- A drawing says nothing about any id. -/
theorem mark_of_drawing (h : kind event = .stroke) (id : String) : mark id event = none := by
  unfold mark
  rw [h]

/-- An undo marks its target as hidden. -/
theorem mark_of_undo (h : kind event = .undoStroke) (ht : target? event = some target) :
    mark id event = if target = id then some false else none := by
  unfold mark
  rw [h, ht]

/-- A redo marks its target as shown. -/
theorem mark_of_redo (h : kind event = .redoStroke) (ht : target? event = some target) :
    mark id event = if target = id then some true else none := by
  unfold mark
  rw [h, ht]

end BoardEvent

open BoardEvent

namespace BoardState

variable {board : BoardState ε} {event : ε} {id : String}

/-- Some drawing with this id is shown. -/
def Shows (board : BoardState ε) (id : String) : Prop :=
  ∃ stroke ∈ board.visible, BoardEvent.id stroke = id

/-- A drawing is shown behind the others. -/
theorem apply_drawing (h : kind event = .stroke) :
    board.apply event =
      { events := board.events ++ [event]
        undone := board.undone
        visible :=
          if BoardEvent.id event ∈ board.undone then board.visible
          else board.visible ++ [event] } := by
  unfold apply
  rw [h]

/-- An undo hides its target. -/
theorem apply_undo {target : String} (h : kind event = .undoStroke)
    (ht : target? event = some target) :
    board.apply event =
      { events := board.events ++ [event]
        undone := addId board.undone target
        visible := board.visible.filter fun stroke => BoardEvent.id stroke ≠ target } := by
  unfold apply
  rw [h, ht]

/-- A redo shows its target behind the others. -/
theorem apply_redo {target : String} (h : kind event = .redoStroke)
    (ht : target? event = some target) :
    board.apply event =
      { events := board.events ++ [event]
        undone := deleteId board.undone target
        visible :=
          if board.visible.any fun stroke => BoardEvent.id stroke = target then board.visible
          else board.visible ++ (findDrawing (board.events ++ [event]) target).toList } := by
  unfold apply
  rw [h, ht]

/-- The undone ids are those whose last word was an undo. -/
theorem mem_undone_apply (hproper : Proper event) :
    id ∈ (board.apply event).undone ↔
      (mark id event).or (if id ∈ board.undone then some false else none) = some false := by
  cases hk : kind event with
  | stroke =>
      rw [apply_drawing hk, mark_of_drawing hk]
      simp
  | undoStroke =>
      obtain ⟨target, ht⟩ := hproper.exists_target (by simp [hk])
      rw [apply_undo hk ht, mark_of_undo hk ht]
      by_cases hti : target = id
      · simp [hti]
      · simp [hti, Ne.symm hti]
  | redoStroke =>
      obtain ⟨target, ht⟩ := hproper.exists_target (by simp [hk])
      rw [apply_redo hk ht, mark_of_redo hk ht]
      by_cases hti : target = id
      · simp [hti]
      · simp [hti, Ne.symm hti]

/-- An id is undone if its last mark says so. -/
theorem mem_undone_foldl {events : List ε} (hproper : ∀ event ∈ events, Proper event) :
    id ∈ (events.foldl apply board).undone ↔
      (lastMark events id).or (if id ∈ board.undone then some false else none) = some false := by
  induction events generalizing board with
  | nil => simp
  | cons event events ih =>
      have hone : id ∈ (board.apply event).undone ↔ _ :=
        mem_undone_apply (hproper event List.mem_cons_self)
      rw [List.foldl_cons, ih fun e he => hproper e (List.mem_cons_of_mem _ he), lastMark_cons,
        Option.or_assoc]
      cases lastMark events id with
      | some b => simp
      | none =>
          rw [Option.none_or, Option.none_or, ← hone]
          by_cases h : id ∈ (board.apply event).undone <;> simp [h]

/-- A drawing is found if there is one. -/
theorem findDrawing_isSome {events : List ε} :
    (findDrawing events id).isSome ↔ Drawn events id := by
  unfold findDrawing Drawn
  rw [List.find?_isSome]
  simp

/-- What is found is a drawing with that id. -/
theorem findDrawing_some {events : List ε} {stroke : ε} (h : findDrawing events id = some stroke) :
    stroke ∈ events ∧ kind stroke = .stroke ∧ BoardEvent.id stroke = id := by
  refine ⟨List.mem_of_find?_eq_some h, ?_⟩
  simpa using List.find?_some h

/-- What one proper event does to the ids shown: an undo hides its target, a redo shows
it if it was ever drawn, a drawing shows its own id unless that is undone. -/
theorem shows_apply (hproper : Proper event) :
    (board.apply event).Shows id ↔
      mark id event = none ∧ board.Shows id ∨
      mark id event = some true ∧ (board.Shows id ∨ Drawn (board.events ++ [event]) id) ∨
      kind event = .stroke ∧ BoardEvent.id event = id ∧ id ∉ board.undone := by
  unfold Shows
  cases hk : kind event with
  | stroke =>
      rw [apply_drawing hk, mark_of_drawing hk]
      dsimp only
      split
      · next hundone => grind
      · next hnot => grind
  | undoStroke =>
      obtain ⟨target, ht⟩ := hproper.exists_target (by simp [hk])
      rw [apply_undo hk ht, mark_of_undo hk ht]
      by_cases hti : target = id
      · simp [hti]
      · simp [hti]; grind
  | redoStroke =>
      obtain ⟨target, ht⟩ := hproper.exists_target (by simp [hk])
      rw [apply_redo hk ht, mark_of_redo hk ht]
      have hfound : ∀ stroke, findDrawing (board.events ++ [event]) target = some stroke →
          BoardEvent.id stroke = target := fun _ h => (findDrawing_some h).2.2
      have hdrawn : (findDrawing (board.events ++ [event]) target).isSome ↔ _ := findDrawing_isSome
      by_cases hti : target = id
      · subst hti
        dsimp only
        split
        · grind
        · cases hf : findDrawing (board.events ++ [event]) target <;> grind
      · dsimp only
        split
        · grind
        · cases hf : findDrawing (board.events ++ [event]) target <;> grind

/-- **What a board shows** after a list of proper events: the ids that were drawn and whose
last word was not an undo. -/
theorem shows_foldl {events : List ε} (hproper : ∀ event ∈ events, Proper event) :
    (events.foldl apply (BoardState.empty ε)).Shows id ↔
      Drawn events id ∧ lastMark events id ≠ some false := by
  induction events using List.reverseRecOn with
  | nil => simp [Shows, BoardState.empty]
  | append_singleton events event ih =>
      have hevents : ∀ e ∈ events, Proper e := fun e he =>
        hproper e (List.mem_append_left _ he)
      have hevent := hproper event (List.mem_append_right _ (List.mem_singleton_self _))
      rw [List.foldl_append, List.foldl_cons, List.foldl_nil, shows_apply hevent, ih hevents,
        mem_undone_foldl hevents, Boards.events_foldl, lastMark_append, lastMark_singleton,
        drawn_append, drawn_singleton]
      have hdraw : kind event = .stroke → mark id event = none := fun h => mark_of_drawing h id
      simp only [BoardState.empty, List.nil_append, drawn_append, drawn_singleton]
      cases hm : mark id event with
      | none => cases lastMark events id <;> grind
      | some said =>
          have hnot : kind event ≠ .stroke := fun h => by simp [hdraw h] at hm
          cases said <;> cases lastMark events id <;> grind

/-- What is shown is a drawing of the board. -/
theorem visible_apply {stroke : ε} (hproper : Proper event)
    (hmem : stroke ∈ (board.apply event).visible) :
    stroke ∈ board.visible ∨ stroke ∈ board.events ++ [event] ∧ kind stroke = .stroke := by
  cases hk : kind event with
  | stroke =>
      rw [apply_drawing hk] at hmem
      dsimp only at hmem
      split at hmem <;> grind
  | undoStroke =>
      obtain ⟨target, ht⟩ := hproper.exists_target (by simp [hk])
      rw [apply_undo hk ht] at hmem
      grind
  | redoStroke =>
      obtain ⟨target, ht⟩ := hproper.exists_target (by simp [hk])
      rw [apply_redo hk ht] at hmem
      dsimp only at hmem
      split at hmem
      · exact Or.inl hmem
      · rcases List.mem_append.mp hmem with hold | hnew
        · exact Or.inl hold
        · obtain ⟨hin, hdraw, -⟩ := findDrawing_some (Option.mem_toList.mp hnew)
          exact Or.inr ⟨hin, hdraw⟩

/-- Only drawings are visible. -/
theorem visible_foldl {events : List ε} (hproper : ∀ event ∈ events, Proper event) {stroke : ε}
    (hmem : stroke ∈ (events.foldl apply (BoardState.empty ε)).visible) :
    stroke ∈ events ∧ kind stroke = .stroke := by
  induction events using List.reverseRecOn with
  | nil => simp [BoardState.empty] at hmem
  | append_singleton events event ih =>
      rw [List.foldl_append, List.foldl_cons, List.foldl_nil] at hmem
      have hevent := hproper event (List.mem_append_right _ (List.mem_singleton_self _))
      rcases visible_apply hevent hmem with hold | ⟨hin, hdraw⟩
      · obtain ⟨hin, hdraw⟩ := ih (fun e he => hproper e (List.mem_append_left _ he)) hold
        exact ⟨List.mem_append_left _ hin, hdraw⟩
      · rw [Boards.events_foldl] at hin
        exact ⟨by simpa [BoardState.empty] using hin, hdraw⟩

end BoardState

end QuorumCanvas
