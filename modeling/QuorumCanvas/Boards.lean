import QuorumCanvas.Json
import QuorumCanvas.OrderedMap

/-!
# Boards: the replicated state machine

A board is rebuilt from its stream of events.  A drawing becomes visible, an
undo hides every copy of its target and remembers the target's id, a redo
forgets that id and brings back the first drawing that carried it.  The code
reads four fields of an event and nothing else, so the machine is written for
any type of event that has them.
-/

namespace QuorumCanvas

/-- What an event does to its board. -/
inductive StrokeAction
  | stroke
  | undoStroke
  | redoStroke
  deriving DecidableEq, Repr

/-- A drawing, or an undo or redo of one. -/
structure Stroke where
  id : String
  boardId : String
  userId : String
  color : String
  width : Json.Number
  points : List (Json.Number × Json.Number)
  timestamp : Json.Number
  action : Option StrokeAction
  targetStrokeId : Option String
  deriving DecidableEq

/-- A black dot at the origin. -/
def Stroke.dot (id boardId : String) : Stroke where
  id := id
  boardId := boardId
  userId := "user"
  color := "#000000"
  width := .one
  points := [(.zero, .zero)]
  timestamp := .zero
  action := none
  targetStrokeId := none

/-- The fields of an event that the boards read. -/
class BoardEvent (ε : Type*) where
  id : ε → String
  boardId : ε → String
  action : ε → Option StrokeAction
  targetStrokeId : ε → Option String

instance : BoardEvent Stroke where
  id := Stroke.id
  boardId := Stroke.boardId
  action := Stroke.action
  targetStrokeId := Stroke.targetStrokeId

namespace BoardEvent

variable {ε : Type*} [BoardEvent ε]

/-- `event.action ?? 'stroke'`. -/
def kind (event : ε) : StrokeAction := (action event).getD .stroke

/-- The target of an event, when the code takes it for one: an empty
`targetStrokeId` is falsy. -/
def target? (event : ε) : Option String := (targetStrokeId event).filter (· ≠ "")

end BoardEvent

open BoardEvent (kind target?)

/-- The state of one board: every event it received, the ids undone and not
redone, and the drawings it shows. -/
structure BoardState (ε : Type*) where
  events : List ε
  undone : List String
  visible : List ε

/-- A board before its first event. -/
def BoardState.empty (ε : Type*) : BoardState ε := ⟨[], [], []⟩

variable {ε : Type*} [BoardEvent ε]

/-- `Set.add`. -/
def addId (ids : List String) (id : String) : List String :=
  if id ∈ ids then ids else ids ++ [id]

/-- `Set.delete`. -/
def deleteId (ids : List String) (id : String) : List String :=
  ids.filter (· ≠ id)

@[simp] theorem mem_addId {ids : List String} {i j : String} :
    i ∈ addId ids j ↔ i ∈ ids ∨ i = j := by
  unfold addId
  split <;> grind

@[simp] theorem mem_deleteId {ids : List String} {i j : String} :
    i ∈ deleteId ids j ↔ i ∈ ids ∧ i ≠ j := by
  simp [deleteId]

/-- The first drawing with a given id among the events of a board. -/
def findDrawing (events : List ε) (id : String) : Option ε :=
  events.find? fun event => kind event = .stroke ∧ BoardEvent.id event = id

/-- One event on its own board. -/
def BoardState.apply (board : BoardState ε) (event : ε) : BoardState ε :=
  let events := board.events ++ [event]
  match kind event, target? event with
  | .undoStroke, some target =>
      { events
        undone := addId board.undone target
        visible := board.visible.filter fun stroke => BoardEvent.id stroke ≠ target }
  | .redoStroke, some target =>
      { events
        undone := deleteId board.undone target
        visible :=
          if board.visible.any fun stroke => BoardEvent.id stroke = target then board.visible
          else board.visible ++ (findDrawing events target).toList }
  | _, _ =>
      { events
        undone := board.undone
        visible :=
          if BoardEvent.id event ∈ board.undone then board.visible
          else board.visible ++ [event] }

/-- The boards of a replica, in the order in which they first received an event. -/
abbrev Boards (ε : Type*) := OrderedMap String (BoardState ε)

namespace Boards

/-- The state of a board; an unknown board is empty. -/
def board (boards : Boards ε) (boardId : String) : BoardState ε :=
  (OrderedMap.get? boards boardId).getD (BoardState.empty ε)

/-- `RaftNode.applyBoardEvent`. -/
def applyBoardEvent (boards : Boards ε) (event : ε) : Boards ε :=
  OrderedMap.set boards (BoardEvent.boardId event)
    ((boards.board (BoardEvent.boardId event)).apply event)

/-- Events applied one after the other. -/
def replay (boards : Boards ε) (events : List ε) : Boards ε :=
  events.foldl applyBoardEvent boards

/-- `RaftNode.getStrokes`. -/
def getStrokes (boards : Boards ε) (boardId : String) : List ε :=
  (boards.board boardId).visible

omit [BoardEvent ε] in
@[simp] theorem board_nil (boardId : String) :
    board ([] : Boards ε) boardId = BoardState.empty ε := rfl

/-- An event reaches its own board and no other. -/
theorem board_applyBoardEvent (boards : Boards ε) (event : ε) (boardId : String) :
    (boards.applyBoardEvent event).board boardId =
      if BoardEvent.boardId event = boardId then (boards.board boardId).apply event
      else boards.board boardId := by
  unfold applyBoardEvent board
  split
  · next h => subst h; simp
  · next h => rw [OrderedMap.get?_set_ne _ _ (Ne.symm h)]

/-- The events of one board among all events. -/
def eventsOf (events : List ε) (boardId : String) : List ε :=
  events.filter fun event => BoardEvent.boardId event = boardId

@[simp] theorem replay_nil (boards : Boards ε) : boards.replay [] = boards := rfl

@[simp] theorem replay_cons (boards : Boards ε) (event : ε) (events : List ε) :
    boards.replay (event :: events) = (boards.applyBoardEvent event).replay events := rfl

/-- Events are replayed in parts. -/
theorem replay_append (boards : Boards ε) (xs ys : List ε) :
    boards.replay (xs ++ ys) = (boards.replay xs).replay ys := by
  simp [replay, List.foldl_append]

/-- A board is a function of the events addressed to it. -/
theorem board_replay (boards : Boards ε) (events : List ε) (boardId : String) :
    (boards.replay events).board boardId =
      (eventsOf events boardId).foldl BoardState.apply (boards.board boardId) := by
  induction events generalizing boards with
  | nil => rfl
  | cons event events ih =>
      rw [replay_cons, ih, board_applyBoardEvent]
      by_cases h : BoardEvent.boardId event = boardId <;> simp [eventsOf, h]

/-- Whatever an event does, its board keeps it. -/
theorem events_apply (board : BoardState ε) (event : ε) :
    (board.apply event).events = board.events ++ [event] := by
  unfold BoardState.apply
  split <;> rfl

/-- Every event is kept. -/
theorem events_foldl (board : BoardState ε) (events : List ε) :
    (events.foldl BoardState.apply board).events = board.events ++ events := by
  induction events generalizing board with
  | nil => simp
  | cons event events ih => simp [ih, events_apply]

/-- A board replayed from nothing remembers exactly the events addressed to it. -/
theorem events_board_replay (events : List ε) (boardId : String) :
    ((replay [] events).board boardId).events = eventsOf events boardId := by
  rw [board_replay, events_foldl]
  simp [BoardState.empty]

/-- No board is listed twice. -/
theorem keysDistinct_replay (boards : Boards ε) (h : OrderedMap.KeysDistinct boards)
    (events : List ε) : OrderedMap.KeysDistinct (boards.replay events) := by
  induction events generalizing boards with
  | nil => exact h
  | cons event events ih => exact ih _ (h.set _ _)

omit [BoardEvent ε] in
/-- A listed board is the one its id looks up. -/
theorem board_of_mem {boards : Boards ε} (h : OrderedMap.KeysDistinct boards) {boardId : String}
    {state : BoardState ε} (hmem : (boardId, state) ∈ boards) : boards.board boardId = state := by
  unfold board
  rw [(OrderedMap.get?_eq_some_iff h).mpr hmem, Option.getD_some]

omit [BoardEvent ε] in
/-- A board that has received an event is listed. -/
theorem mem_keys_of_events {boards : Boards ε} {boardId : String}
    (h : (boards.board boardId).events ≠ []) : boardId ∈ boards.map Prod.fst := by
  have hsome : ∃ state, OrderedMap.get? boards boardId = some state := by
    cases hget : OrderedMap.get? boards boardId with
    | none =>
        unfold board at h
        rw [hget] at h
        exact absurd rfl h
    | some state => exact ⟨state, rfl⟩
  obtain ⟨state, hget⟩ := hsome
  exact List.mem_map.mpr ⟨_, OrderedMap.mem_of_get? hget, rfl⟩

/-- The events of one board among those of several distinct boards. -/
theorem eventsOf_flatMap (events : List ε) {ids : List String} (h : ids.Nodup)
    (boardId : String) :
    eventsOf (ids.flatMap fun i => eventsOf events i) boardId =
      if boardId ∈ ids then eventsOf events boardId else [] := by
  induction ids with
  | nil => rfl
  | cons i ids ih =>
      obtain ⟨hi, hnd⟩ := List.nodup_cons.mp h
      have happ : ∀ xs ys : List ε, eventsOf (xs ++ ys) boardId =
          eventsOf xs boardId ++ eventsOf ys boardId := fun xs ys => List.filter_append ..
      rw [List.flatMap_cons, happ, ih hnd]
      by_cases hb : boardId = i
      · subst hb
        simp [eventsOf, hi]
      · have hnone : eventsOf (eventsOf events i) boardId = [] := by
          refine List.filter_eq_nil_iff.mpr fun e he => ?_
          have := (List.mem_filter.mp he).2
          grind
        simp [hnone, hb]

end Boards

end QuorumCanvas
