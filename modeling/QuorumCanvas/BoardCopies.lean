import QuorumCanvas.VisibleStrokes

/-!
# Two copies of the board

The replica and the gateway each keep boards of their own, with code written twice.
`NodeBoards` are the three maps of `RaftNode`, `ManagerBoards` the map of records of
`BoardManager`.  Both refine `BoardState`: what they hold for a board is that board's
state, event by event.  So they show the same strokes in the same order, and what is
shown can be read off the history (`copies_agree`).
-/

namespace QuorumCanvas

open BoardEvent (kind target? Proper Drawn lastMark)

variable {ε : Type*} [BoardEvent ε]

/-! ## The replica -/

/-- `boardEvents`, `undoneStrokeIds` and `boardStrokes` of a `RaftNode`. -/
structure NodeBoards (ε : Type*) where
  boardEvents : OrderedMap String (List ε)
  undoneStrokeIds : OrderedMap String (List String)
  boardStrokes : OrderedMap String (List ε)

/-- `if (!map.has(key)) map.set(key, value)`. -/
def OrderedMap.ensure {β : Type*} (m : OrderedMap String β) (key : String) (value : β) :
    OrderedMap String β :=
  if (OrderedMap.get? m key).isSome then m else OrderedMap.set m key value

namespace NodeBoards

/-- No board was written to. -/
def empty (ε : Type*) : NodeBoards ε := ⟨[], [], []⟩

/-- `ensureBoardState` makes room for a board. -/
def ensureBoardState (r : NodeBoards ε) (boardId : String) : NodeBoards ε where
  boardEvents := OrderedMap.ensure r.boardEvents boardId []
  undoneStrokeIds := OrderedMap.ensure r.undoneStrokeIds boardId []
  boardStrokes := OrderedMap.ensure r.boardStrokes boardId []

/-- The events of a board, none if there is no room for it. -/
def events (r : NodeBoards ε) (boardId : String) : List ε :=
  (OrderedMap.get? r.boardEvents boardId).getD []

/-- The ids undone on a board. -/
def undone (r : NodeBoards ε) (boardId : String) : List String :=
  (OrderedMap.get? r.undoneStrokeIds boardId).getD []

/-- `RaftNode.getStrokes`. -/
def getStrokes (r : NodeBoards ε) (boardId : String) : List ε :=
  (OrderedMap.get? r.boardStrokes boardId).getD []

/-- The events of one board. -/
def setEvents (r : NodeBoards ε) (boardId : String) (events : List ε) : NodeBoards ε :=
  { r with boardEvents := OrderedMap.set r.boardEvents boardId events }

/-- The undone ids of one board. -/
def setUndone (r : NodeBoards ε) (boardId : String) (undone : List String) : NodeBoards ε :=
  { r with undoneStrokeIds := OrderedMap.set r.undoneStrokeIds boardId undone }

/-- The visible strokes of one board. -/
def setStrokes (r : NodeBoards ε) (boardId : String) (strokes : List ε) : NodeBoards ε :=
  { r with boardStrokes := OrderedMap.set r.boardStrokes boardId strokes }

/-- `RaftNode.applyBoardEvent`. -/
def applyBoardEvent (r : NodeBoards ε) (event : ε) : NodeBoards ε :=
  let boardId := BoardEvent.boardId event
  let r := r.ensureBoardState boardId
  let events := r.events boardId ++ [event]
  let undone := r.undone boardId
  let visible := r.getStrokes boardId
  let r := r.setEvents boardId events
  match kind event, target? event with
  | .undoStroke, some target =>
      (r.setUndone boardId (addId undone target)).setStrokes boardId
        (visible.filter fun stroke => BoardEvent.id stroke ≠ target)
  | .redoStroke, some target =>
      let r := r.setUndone boardId (deleteId undone target)
      if visible.any fun stroke => BoardEvent.id stroke = target then r
      else
        match findDrawing events target with
        | some stroke => r.setStrokes boardId (visible ++ [stroke])
        | none => r
  | _, _ =>
      if BoardEvent.id event ∈ undone then r else r.setStrokes boardId (visible ++ [event])

/-- All events, applied in order. -/
def replay (events : List ε) : NodeBoards ε := events.foldl applyBoardEvent (empty ε)

/-- What the three maps hold for one board. -/
def board (r : NodeBoards ε) (boardId : String) : BoardState ε :=
  ⟨r.events boardId, r.undone boardId, r.getStrokes boardId⟩

omit [BoardEvent ε] in
/-- Making room changes no list. -/
theorem getD_ensure {β : Type*} (m : OrderedMap String (List β)) (key key' : String) :
    (OrderedMap.get? (OrderedMap.ensure m key []) key').getD [] =
      (OrderedMap.get? m key').getD [] := by
  unfold OrderedMap.ensure
  split
  · rfl
  · next h =>
      by_cases hkey : key' = key
      · rw [hkey, OrderedMap.get?_set_self, Option.not_isSome_iff_eq_none.mp h]
        rfl
      · rw [OrderedMap.get?_set_ne _ _ hkey]

omit [BoardEvent ε] in
/-- Setting one key changes its list only. -/
theorem getD_set {β : Type*} (m : OrderedMap String (List β)) (key key' : String)
    (value : List β) :
    (OrderedMap.get? (OrderedMap.set m key value) key').getD [] =
      if key = key' then value else (OrderedMap.get? m key').getD [] := by
  by_cases hkey : key = key'
  · rw [if_pos hkey, hkey, OrderedMap.get?_set_self, Option.getD_some]
  · rw [if_neg hkey, OrderedMap.get?_set_ne _ _ (Ne.symm hkey)]

section Fields

variable (r : NodeBoards ε) (key boardId : String) (events' : List ε) (undone' : List String)

omit [BoardEvent ε]

@[simp] theorem events_ensureBoardState :
    (r.ensureBoardState key).events boardId = r.events boardId := getD_ensure _ _ _

@[simp] theorem undone_ensureBoardState :
    (r.ensureBoardState key).undone boardId = r.undone boardId := getD_ensure _ _ _

@[simp] theorem getStrokes_ensureBoardState :
    (r.ensureBoardState key).getStrokes boardId = r.getStrokes boardId := getD_ensure _ _ _

@[simp] theorem events_setEvents :
    (r.setEvents key events').events boardId =
      if key = boardId then events' else r.events boardId := getD_set _ _ _ _

@[simp] theorem undone_setEvents :
    (r.setEvents key events').undone boardId = r.undone boardId := rfl

@[simp] theorem getStrokes_setEvents :
    (r.setEvents key events').getStrokes boardId = r.getStrokes boardId := rfl

@[simp] theorem events_setUndone :
    (r.setUndone key undone').events boardId = r.events boardId := rfl

@[simp] theorem undone_setUndone :
    (r.setUndone key undone').undone boardId =
      if key = boardId then undone' else r.undone boardId := getD_set _ _ _ _

@[simp] theorem getStrokes_setUndone :
    (r.setUndone key undone').getStrokes boardId = r.getStrokes boardId := rfl

@[simp] theorem events_setStrokes :
    (r.setStrokes key events').events boardId = r.events boardId := rfl

@[simp] theorem undone_setStrokes :
    (r.setStrokes key events').undone boardId = r.undone boardId := rfl

@[simp] theorem getStrokes_setStrokes :
    (r.setStrokes key events').getStrokes boardId =
      if key = boardId then events' else r.getStrokes boardId := getD_set _ _ _ _

end Fields

/-- The three maps move as the state of the event's board does, and no other board moves. -/
theorem board_applyBoardEvent (r : NodeBoards ε) (event : ε) (boardId : String) :
    (r.applyBoardEvent event).board boardId =
      if BoardEvent.boardId event = boardId then (r.board boardId).apply event
      else r.board boardId := by
  unfold applyBoardEvent BoardState.apply board
  by_cases hsame : BoardEvent.boardId event = boardId
  · subst hsame
    rw [if_pos rfl]
    cases kind event with
    | stroke =>
        dsimp only
        split <;> simp_all
    | undoStroke =>
        cases target? event with
        | none =>
            dsimp only
            split <;> simp_all
        | some target => simp
    | redoStroke =>
        cases target? event with
        | none =>
            dsimp only
            split <;> simp_all
        | some target =>
            dsimp only
            split
            · next hshown => simp_all
            · next hhidden =>
                -- a redo of a drawing that is not shown brings back the first one
                cases hfound : findDrawing
                  ((r.ensureBoardState (BoardEvent.boardId event)).events
                    (BoardEvent.boardId event) ++ [event]) target <;> simp_all
  · rw [if_neg hsame]
    cases kind event with
    | stroke =>
        dsimp only
        split <;> simp [hsame]
    | undoStroke =>
        cases target? event with
        | none =>
            dsimp only
            split <;> simp [hsame]
        | some target => simp [hsame]
    | redoStroke =>
        cases target? event with
        | none =>
            dsimp only
            split <;> simp [hsame]
        | some target =>
            dsimp only
            split
            · simp [hsame]
            · split <;> simp [hsame]

/-- The node's replay is that of each board's own events. -/
theorem board_replay (events : List ε) (boardId : String) :
    (replay events).board boardId =
      (Boards.eventsOf events boardId).foldl BoardState.apply (BoardState.empty ε) := by
  have hfold : ∀ r : NodeBoards ε, (events.foldl applyBoardEvent r).board boardId =
      (Boards.eventsOf events boardId).foldl BoardState.apply (r.board boardId) := by
    induction events with
    | nil => exact fun r => rfl
    | cons event events ih =>
        intro r
        rw [List.foldl_cons, ih, board_applyBoardEvent]
        by_cases h : BoardEvent.boardId event = boardId <;> simp [Boards.eventsOf, h]
  exact hfold (empty ε)

end NodeBoards

/-! ## The gateway -/

/-- A board of the gateway, without its users. -/
structure ManagedBoard (ε : Type*) where
  boardId : String
  strokes : List ε
  events : List ε
  undoneStrokeIds : List String

/-- The boards of `BoardManager`. -/
abbrev ManagerBoards (ε : Type*) := OrderedMap String (ManagedBoard ε)

namespace ManagerBoards

/-- The board that `getOrCreateBoard` returns. -/
def getOrCreateBoard (m : ManagerBoards ε) (boardId : String) : ManagedBoard ε :=
  (OrderedMap.get? m boardId).getD ⟨boardId, [], [], []⟩

/-- `BoardManager.addStroke` on the board it has looked up. -/
def addTo (board : ManagedBoard ε) (stroke : ε) : ManagedBoard ε :=
  let board := { board with events := board.events ++ [stroke] }
  match kind stroke, target? stroke with
  | .undoStroke, some target =>
      { board with
        undoneStrokeIds := addId board.undoneStrokeIds target
        strokes := board.strokes.filter fun entry => BoardEvent.id entry ≠ target }
  | .redoStroke, some target =>
      let board := { board with undoneStrokeIds := deleteId board.undoneStrokeIds target }
      let alreadyVisible := board.strokes.any fun entry => BoardEvent.id entry = target
      if alreadyVisible then board
      else
        match findDrawing board.events target with
        | some found => { board with strokes := board.strokes ++ [found] }
        | none => board
  | _, _ =>
      if BoardEvent.id stroke ∈ board.undoneStrokeIds then board
      else { board with strokes := board.strokes ++ [stroke] }

/-- `BoardManager.addStroke`. -/
def addStroke (m : ManagerBoards ε) (boardId : String) (stroke : ε) : ManagerBoards ε :=
  OrderedMap.set m boardId (addTo (m.getOrCreateBoard boardId) stroke)

/-- `BoardManager.getStrokes`. -/
def getStrokes (m : ManagerBoards ε) (boardId : String) : List ε :=
  ((OrderedMap.get? m boardId).map ManagedBoard.strokes).getD []

/-- All events, added in order. -/
def replay (events : List ε) : ManagerBoards ε :=
  events.foldl (fun m event => m.addStroke (BoardEvent.boardId event) event) []

/-- What a managed board holds. -/
def state (board : ManagedBoard ε) : BoardState ε :=
  ⟨board.events, board.undoneStrokeIds, board.strokes⟩

/-- The state of a board at the manager. -/
def board (m : ManagerBoards ε) (boardId : String) : BoardState ε :=
  state (m.getOrCreateBoard boardId)

/-- Adding an event to a managed board is applying it. -/
theorem state_addTo (board : ManagedBoard ε) (stroke : ε) :
    state (addTo board stroke) = (state board).apply stroke := by
  unfold addTo BoardState.apply state
  cases kind stroke with
  | stroke =>
      dsimp only
      split <;> rfl
  | undoStroke =>
      cases target? stroke with
      | none =>
          dsimp only
          split <;> rfl
      | some target => rfl
  | redoStroke =>
      cases target? stroke with
      | none =>
          dsimp only
          split <;> rfl
      | some target =>
          dsimp only
          split
          · rfl
          · cases findDrawing (board.events ++ [stroke]) target <;> simp

/-- Adding an event to one board changes that board only. -/
theorem board_addStroke (m : ManagerBoards ε) (stroke : ε) (key boardId : String) :
    (m.addStroke key stroke).board boardId =
      if key = boardId then (m.board boardId).apply stroke else m.board boardId := by
  unfold addStroke board getOrCreateBoard
  split
  · next h =>
      subst h
      rw [OrderedMap.get?_set_self, Option.getD_some, state_addTo]
  · next h => rw [OrderedMap.get?_set_ne _ _ (Ne.symm h)]

/-- The manager's replay is that of each board's own events. -/
theorem board_replay (events : List ε) (boardId : String) :
    (replay events).board boardId =
      (Boards.eventsOf events boardId).foldl BoardState.apply (BoardState.empty ε) := by
  have hfold : ∀ m : ManagerBoards ε,
      (events.foldl (fun m event => m.addStroke (BoardEvent.boardId event) event) m).board boardId =
        (Boards.eventsOf events boardId).foldl BoardState.apply (m.board boardId) := by
    induction events with
    | nil => exact fun m => rfl
    | cons event events ih =>
        intro m
        rw [List.foldl_cons, ih, board_addStroke]
        by_cases h : BoardEvent.boardId event = boardId <;> simp [Boards.eventsOf, h]
  exact hfold []

omit [BoardEvent ε] in
/-- The manager returns what is visible. -/
theorem getStrokes_eq (m : ManagerBoards ε) (boardId : String) :
    m.getStrokes boardId = (m.board boardId).visible := by
  unfold getStrokes board getOrCreateBoard
  cases OrderedMap.get? m boardId <;> rfl

end ManagerBoards

/-! ## Agreement -/

/-- The node returns what the replay of the board shows. -/
theorem NodeBoards.getStrokes_eq (events : List ε) (boardId : String) :
    (NodeBoards.replay events).getStrokes boardId =
      ((Boards.eventsOf events boardId).foldl BoardState.apply (BoardState.empty ε)).visible :=
  congrArg BoardState.visible (NodeBoards.board_replay events boardId)

/-- The boards of a `RaftNode` show what its three maps show. -/
theorem Boards.getStrokes_replay (events : List ε) (boardId : String) :
    (Boards.replay [] events).getStrokes boardId =
      (NodeBoards.replay events).getStrokes boardId := by
  rw [NodeBoards.getStrokes_eq]
  exact congrArg BoardState.visible (Boards.board_replay [] events boardId)

/-- So does the manager: both copies agree. -/
theorem ManagerBoards.getStrokes_replay (events : List ε) (boardId : String) :
    (ManagerBoards.replay events).getStrokes boardId =
      (NodeBoards.replay events).getStrokes boardId := by
  rw [ManagerBoards.getStrokes_eq, ManagerBoards.board_replay, NodeBoards.getStrokes_eq]

/-- One more event on its board. -/
theorem NodeBoards.getStrokes_append (events : List ε) (event : ε) :
    (NodeBoards.replay (events ++ [event])).getStrokes (BoardEvent.boardId event) =
      (((NodeBoards.replay events).board (BoardEvent.boardId event)).apply event).visible := by
  have happly := NodeBoards.board_applyBoardEvent (NodeBoards.replay events) event
    (BoardEvent.boardId event)
  rw [if_pos rfl] at happly
  unfold NodeBoards.replay at happly ⊢
  rw [List.foldl_append]
  exact congrArg BoardState.visible happly

/-- A redo adds at most one copy of its target, and none when it is shown. -/
theorem BoardState.redo_once (board : BoardState ε) {event : ε} {target : String}
    (hk : kind event = .redoStroke) (ht : target? event = some target) :
    (board.Shows target → (board.apply event).visible = board.visible) ∧
    (¬ board.Shows target →
      (board.apply event).visible.countP (fun s => BoardEvent.id s = target) ≤ 1) := by
  rw [apply_redo hk ht]
  constructor
  · intro ⟨stroke, hmem, hid⟩
    exact if_pos (List.any_eq_true.mpr ⟨stroke, hmem, by simpa using hid⟩)
  · intro hhidden
    have hnone : ¬ (board.visible.any fun s => BoardEvent.id s = target) = true := by
      intro hany
      obtain ⟨stroke, hmem, hid⟩ := List.any_eq_true.mp hany
      exact hhidden ⟨stroke, hmem, by simpa using hid⟩
    have hzero : board.visible.countP (fun s => BoardEvent.id s = target) = 0 := by
      refine List.countP_eq_zero.mpr fun stroke hmem hid => ?_
      exact hhidden ⟨stroke, hmem, by simpa using hid⟩
    dsimp only
    rw [if_neg hnone, List.countP_append, hzero, Nat.zero_add]
    cases findDrawing (board.events ++ [event]) target with
    | none => simp
    | some found => exact List.countP_le_length

/-- A drawing of the board is one among all events. -/
theorem Drawn.iff_eventsOf {events : List ε} {boardId id : String} :
    Drawn (Boards.eventsOf events boardId) id ↔
      ∃ e ∈ events, BoardEvent.boardId e = boardId ∧ kind e = .stroke ∧ BoardEvent.id e = id := by
  unfold Drawn Boards.eventsOf
  constructor
  · intro ⟨e, hmem, hdrawn⟩
    obtain ⟨he, hboard⟩ := List.mem_filter.mp hmem
    exact ⟨e, he, by simpa using hboard, hdrawn⟩
  · intro ⟨e, he, hboard, hdrawn⟩
    exact ⟨e, List.mem_filter.mpr ⟨he, by simpa using hboard⟩, hdrawn⟩

/-- **Undo and redo, in both copies.**  After any sequence of drawings and of undos and
redos with a target, replica and gateway show the same strokes of every board in the same
order; an id is shown exactly when it was drawn on the board and the last undo or redo of
it there, if there is one, is a redo.  An undo leaves no copy of its target, and a redo
leaves the board as it is when its target is shown, and else shows it at most once. -/
theorem copies_agree (events : List ε) (hproper : ∀ event ∈ events, Proper event)
    (boardId : String) :
    (NodeBoards.replay events).getStrokes boardId =
      (ManagerBoards.replay events).getStrokes boardId ∧
    (∀ id, (∃ s ∈ (NodeBoards.replay events).getStrokes boardId, BoardEvent.id s = id) ↔
      (∃ e ∈ events, BoardEvent.boardId e = boardId ∧ kind e = .stroke ∧ BoardEvent.id e = id) ∧
        lastMark (Boards.eventsOf events boardId) id ≠ some false) ∧
    ∀ (event : ε) (target : String), target? event = some target →
      BoardEvent.boardId event = boardId →
      (kind event = .undoStroke →
        ∀ s ∈ (NodeBoards.replay (events ++ [event])).getStrokes boardId,
          BoardEvent.id s ≠ target) ∧
      (kind event = .redoStroke →
        ((∃ s ∈ (NodeBoards.replay events).getStrokes boardId, BoardEvent.id s = target) →
          (NodeBoards.replay (events ++ [event])).getStrokes boardId =
            (NodeBoards.replay events).getStrokes boardId) ∧
        ((¬ ∃ s ∈ (NodeBoards.replay events).getStrokes boardId, BoardEvent.id s = target) →
          ((NodeBoards.replay (events ++ [event])).getStrokes boardId).countP
            (fun s => BoardEvent.id s = target) ≤ 1)) := by
  refine ⟨(ManagerBoards.getStrokes_replay events boardId).symm, fun id => ?_, ?_⟩
  · have hboard : ∀ e ∈ Boards.eventsOf events boardId, Proper e := fun e he =>
      hproper e (List.mem_filter.mp he).1
    rw [NodeBoards.getStrokes_eq, ← Drawn.iff_eventsOf]
    exact BoardState.shows_foldl hboard
  · intro event target ht hb
    subst hb
    rw [NodeBoards.getStrokes_append]
    constructor
    · intro hk s hs
      rw [BoardState.apply_undo hk ht] at hs
      simpa using (List.mem_filter.mp hs).2
    · intro hk
      exact ((NodeBoards.replay events).board (BoardEvent.boardId event)).redo_once hk ht

/-- A drawing that was undone before it arrived, and redone afterwards. -/
theorem copies_agree_early_undo :
    let undo : Stroke := { Stroke.dot "u" "b" with
      action := some .undoStroke, targetStrokeId := some "x" }
    let redo : Stroke := { Stroke.dot "r" "b" with
      action := some .redoStroke, targetStrokeId := some "x" }
    let events := [undo, Stroke.dot "x" "b", Stroke.dot "y" "b", redo]
    (NodeBoards.replay events).getStrokes "b" = [Stroke.dot "y" "b", Stroke.dot "x" "b"] ∧
      (ManagerBoards.replay events).getStrokes "b" = [Stroke.dot "y" "b", Stroke.dot "x" "b"] := by
  intro undo redo events
  have hproper : ∀ event ∈ events, Proper event := by decide
  have hshown : (NodeBoards.replay events).getStrokes "b" =
      [Stroke.dot "y" "b", Stroke.dot "x" "b"] := by decide
  exact ⟨hshown, (copies_agree events hproper "b").1.symm.trans hshown⟩

end QuorumCanvas
