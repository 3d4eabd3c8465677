import QuorumCanvas.BoardCopies
import QuorumCanvas.Doubles
import QuorumCanvas.JsValues
import QuorumCanvas.RateLimit
import QuorumCanvas.Runs
import QuorumCanvas.Utf16

/-!
# What the gateway validates and what the boards show

`validateStroke` goes by the `action` of an event: an undo or redo needs a target
that is a string, and its width and points are not looked at.  `applyBoardEvent`
goes by the action and by whether the target is truthy, and takes an undo of the
empty string for a drawing.  Nothing but valid drawings is shown as long as every
such event carries an id that is undone (`shows_valid_iff`).
-/

namespace QuorumCanvas

open Js (Var)
open Json (Value)
open BoardEvent (kind target?)

/-! ## The checks -/

/-- A property of a value that is an object. -/
def member (v : Value) (name : String) : Var :=
  match v with
  | .object members => OrderedMap.get? members name
  | _ => none

/-- `v && typeof v === 'object'`. -/
def isObject : Value → Bool
  | .object _ | .array _ => true
  | _ => false

/-- A name is a string of 1 to 200 UTF-16 units. -/
def validId : Var → Bool
  | some (.string s) => 0 < s.length ∧ (Utf16.encode s.toList).length ≤ 200
  | _ => false

/-- A string of any length. -/
def isString : Var → Bool
  | some (.string _) => true
  | _ => false

/-- `/^#[0-9a-fA-F]{6}$/` -/
def hexColor (s : String) : Bool :=
  match s.toList with
  | '#' :: cs => cs.length = 6 ∧ cs.all fun c => c.isDigit ∨ 'a' ≤ c ∧ c ≤ 'f' ∨ 'A' ≤ c ∧ c ≤ 'F'
  | _ => false

/-- A colour is six hexadecimal digits behind a `#`. -/
def validColor : Var → Bool
  | some (.string s) => hexColor s
  | _ => false

/-- `typeof v === 'number' && Number.isFinite(v)`. -/
def finite : Var → Bool
  | some (.number _) => true
  | _ => false

/-- A width is a number above 0 and up to 100. -/
def validWidth : Var → Bool
  | some (.number n) => 0 < n.value ∧ n.value ≤ 100
  | _ => false

/-- `GATEWAY_SECURITY.maxStrokePoints` -/
def maxStrokePoints : ℕ := 2000

/-- Points are an array, neither empty nor longer than the limit. -/
def validPoints : Var → Bool
  | some (.array points) => points ≠ [] ∧ points.length ≤ maxStrokePoints
  | _ => false

/-- A point is a pair of numbers. -/
def validPoint : Value → Bool
  | .array [.number _, .number _] => true
  | _ => false

/-- The loop over the points. -/
def allPointsValid : Var → Bool
  | some (.array points) => points.all validPoint
  | _ => true

/-- `action === 'undo_stroke' || action === 'redo_stroke'`. -/
def isUndoRedo (action : Var) : Bool :=
  Js.same action (some (.string "undo_stroke")) || Js.same action (some (.string "redo_stroke"))

/-- `STROKE_ACTIONS.has(action)` -/
def isStrokeAction (action : Var) : Bool :=
  Js.same action (some (.string "stroke")) || isUndoRedo action

/-- The checks in the order in which they are made, each with the reason it gives when it
fails.  An undo or redo is accepted before the last three. -/
def checks (s : Value) (conn : ConnectionInfo) : List (Bool × String) :=
  [(validId (member s "id"), "Invalid stroke id"),
    (Js.same (member s "boardId") (some (.string conn.boardId)) &&
      Js.same (member s "userId") (some (.string conn.userId)),
      "Stroke boardId/userId must match connection"),
    ((member s "action").isNone || isStrokeAction (member s "action"), "Invalid stroke action"),
    ((member s "targetStrokeId").isNone || isString (member s "targetStrokeId"),
      "Invalid targetStrokeId"),
    (!isUndoRedo (member s "action") || isString (member s "targetStrokeId"),
      "undo_stroke/redo_stroke requires targetStrokeId"),
    (validColor (member s "color"), "Invalid stroke color"),
    (finite (member s "timestamp"), "Invalid stroke timestamp")] ++
  if isUndoRedo (member s "action") then []
  else
    [(validWidth (member s "width"), "Invalid stroke width"),
      (validPoints (member s "points"), "Invalid stroke points"),
      (allPointsValid (member s "points"), "Invalid stroke point")]

/-- The first check that fails gives the reason. -/
def validateStroke (stroke : Var) (conn : ConnectionInfo) : Except String Unit :=
  match stroke with
  | none => .error "Stroke must be an object"
  | some s =>
      if isObject s = false then .error "Stroke must be an object"
      else
        match (checks s conn).find? fun check => !check.1 with
        | some (_, reason) => .error reason
        | none => .ok ()

/-- A stroke that was accepted on some connection. -/
structure AcceptedStroke where
  stroke : Value
  conn : ConnectionInfo
  accepted : validateStroke (some stroke) conn = .ok ()

namespace AcceptedStroke

/-- The text of a property that holds one. -/
def text : Var → Option String
  | some (.string s) => some s
  | _ => none

instance : BoardEvent AcceptedStroke where
  id event := (text (member event.stroke "id")).getD ""
  boardId event := (text (member event.stroke "boardId")).getD ""
  action event :=
    if Js.same (member event.stroke "action") (some (.string "undo_stroke")) then some .undoStroke
    else if Js.same (member event.stroke "action") (some (.string "redo_stroke")) then
      some .redoStroke
    else if (member event.stroke "action").isSome then some .stroke
    else none
  targetStrokeId event := text (member event.stroke "targetStrokeId")

end AcceptedStroke

/-- A drawing as the gateway means it. -/
structure ValidDrawing (s : Value) : Prop where
  action : member s "action" = none ∨ Js.same (member s "action") (some (.string "stroke")) = true
  color : ∃ color, member s "color" = some (.string color) ∧ hexColor color = true
  width : ∃ n, member s "width" = some (.number n) ∧ 0 < n.value ∧ n.value ≤ 100
  points : ∃ points, member s "points" = some (.array points) ∧ 1 ≤ points.length ∧
    points.length ≤ maxStrokePoints ∧ ∀ p ∈ points, ∃ x y, p = .array [.number x, .number y]

/-! ## What acceptance means -/

/-- An accepted stroke passes every check. -/
theorem checks_of_accepted {s : Value} {conn : ConnectionInfo}
    (h : validateStroke (some s) conn = .ok ()) : ∀ check ∈ checks s conn, check.1 = true := by
  unfold validateStroke at h
  dsimp only at h
  split at h
  · cases h
  · split at h
    · cases h
    · next hfind =>
        intro check hmem
        have hnot := List.find?_eq_none.mp hfind check hmem
        simpa using hnot

namespace AcceptedStroke

variable (a : AcceptedStroke)

/-- The boards and the gateway agree on what is an undo or a redo. -/
theorem kind_eq_stroke_iff : kind a = .stroke ↔ isUndoRedo (member a.stroke "action") = false := by
  unfold isUndoRedo
  show (BoardEvent.action a).getD .stroke = .stroke ↔ _
  simp only [BoardEvent.action]
  by_cases hundo : Js.same (member a.stroke "action") (some (.string "undo_stroke")) = true
  · simp [hundo]
  · by_cases hredo : Js.same (member a.stroke "action") (some (.string "redo_stroke")) = true
    · simp [hundo, hredo]
    · by_cases hsome : (member a.stroke "action").isSome = true <;> simp [hundo, hredo, hsome]

/-- **An accepted drawing is a valid one.** -/
theorem validDrawing (hkind : kind a = .stroke) : ValidDrawing a.stroke := by
  have hchecks := checks_of_accepted a.accepted
  have hdrawing := (kind_eq_stroke_iff a).mp hkind
  simp only [checks, hdrawing, Bool.false_eq_true, if_false, List.cons_append, List.nil_append,
    List.forall_mem_cons] at hchecks
  obtain ⟨-, -, haction, -, -, hcolor, -, hwidth, hpoints, hpoint, -⟩ := hchecks
  refine ⟨?_, ?_, ?_, ?_⟩
  · rcases Bool.or_eq_true_iff.mp haction with hnone | hsome
    · exact Or.inl (Option.isNone_iff_eq_none.mp hnone)
    · unfold isStrokeAction at hsome
      rw [hdrawing, Bool.or_false] at hsome
      exact Or.inr hsome
  · unfold validColor at hcolor
    split at hcolor
    · next color heq => exact ⟨color, heq, hcolor⟩
    · cases hcolor
  · unfold validWidth at hwidth
    split at hwidth
    · next n heq => exact ⟨n, heq, of_decide_eq_true hwidth⟩
    · cases hwidth
  · unfold validPoints at hpoints
    split at hpoints
    · next points heq =>
        obtain ⟨hne, hlength⟩ := of_decide_eq_true hpoints
        refine ⟨points, heq, List.length_pos_iff.mpr hne, hlength, fun p hp => ?_⟩
        rw [heq] at hpoint
        have hvalid := List.all_eq_true.mp hpoint p hp
        unfold validPoint at hvalid
        split at hvalid
        · next x y => exact ⟨x, y, rfl⟩
        · cases hvalid
    · cases hpoints

/-- An undo or a redo is none. -/
theorem not_validDrawing (hkind : kind a ≠ .stroke) : ¬ ValidDrawing a.stroke := by
  intro hvalid
  refine hkind ((kind_eq_stroke_iff a).mpr ?_)
  unfold isUndoRedo
  rcases hvalid.action with hnone | hstroke
  · rw [hnone]
    rfl
  · have htext : member a.stroke "action" = some (.string "stroke") := by
      revert hstroke
      cases haction : member a.stroke "action" with
      | none => simp [Js.same]
      | some v => cases v <;> simp [Js.same]
    rw [htext]
    rfl

end AcceptedStroke

/-! ## What is shown -/

/-- One event after the other is committed and applied. -/
def commit (boards : Boards AcceptedStroke) (event : AcceptedStroke) :
    Option (Boards AcceptedStroke) := some (boards.applyBoardEvent event)

/-- All that is shown on any board are valid drawings. -/
def ShowsValid (boards : Boards AcceptedStroke) : Prop :=
  ∀ boardId, ∀ event ∈ boards.getStrokes boardId, ValidDrawing event.stroke

/-- An undo or redo of the empty string comes with an id that is undone. -/
def Hidden (boards : Boards AcceptedStroke) (event : AcceptedStroke) : Prop :=
  kind event ≠ .stroke → target? event = none →
    BoardEvent.id event ∈ (boards.board (BoardEvent.boardId event)).undone

variable {boards : Boards AcceptedStroke} {event : AcceptedStroke}

/-- An event changes what its own board shows. -/
theorem getStrokes_applyBoardEvent (boards : Boards AcceptedStroke) (event : AcceptedStroke)
    (boardId : String) :
    (boards.applyBoardEvent event).getStrokes boardId =
      if BoardEvent.boardId event = boardId then ((boards.board boardId).apply event).visible
      else boards.getStrokes boardId := by
  unfold Boards.getStrokes
  rw [Boards.board_applyBoardEvent]
  split <;> rfl

/-- An event that is not taken for a drawing shows nothing but what was shown, or a drawing. -/
theorem visible_apply_target {board : BoardState AcceptedStroke} {target : String}
    (hkind : kind event ≠ .stroke) (ht : target? event = some target) :
    ∀ shown ∈ (board.apply event).visible, shown ∈ board.visible ∨ kind shown = .stroke := by
  intro shown hshown
  cases hk : kind event with
  | stroke => exact (hkind hk).elim
  | undoStroke =>
      rw [BoardState.apply_undo hk ht] at hshown
      exact Or.inl (List.mem_filter.mp hshown).1
  | redoStroke =>
      rw [BoardState.apply_redo hk ht] at hshown
      dsimp only at hshown
      split at hshown
      · exact Or.inl hshown
      · rcases List.mem_append.mp hshown with hold | hfound
        · exact Or.inl hold
        · have hfind := List.find?_some (Option.mem_toList.mp hfound)
          exact Or.inr (of_decide_eq_true hfind).1

/-- An undo or redo of the empty string is shown unless its id is undone. -/
theorem visible_apply_empty {board : BoardState AcceptedStroke} (ht : target? event = none) :
    (board.apply event).visible =
      if BoardEvent.id event ∈ board.undone then board.visible else board.visible ++ [event] := by
  unfold BoardState.apply
  rw [ht]
  split
  · next hsome => cases hsome
  · next hsome => cases hsome
  · rfl

/-- A hidden event leaves boards that show valid strokes only. -/
theorem showsValid_apply (h : ShowsValid boards) (hhidden : Hidden boards event) :
    ShowsValid (boards.applyBoardEvent event) := by
  intro boardId shown hshown
  rw [getStrokes_applyBoardEvent] at hshown
  split at hshown
  · next hboard =>
      subst hboard
      have hold : ∀ shown ∈ (boards.board (BoardEvent.boardId event)).visible,
          ValidDrawing shown.stroke := h _
      by_cases hkind : kind event = .stroke
      · rw [BoardState.apply_drawing hkind] at hshown
        dsimp only at hshown
        split at hshown
        · exact hold shown hshown
        · rcases List.mem_append.mp hshown with hmem | hnew
          · exact hold shown hmem
          · rw [List.mem_singleton.mp hnew]
            exact event.validDrawing hkind
      · cases ht : target? event with
        | none =>
            rw [visible_apply_empty ht, if_pos (hhidden hkind ht)] at hshown
            exact hold shown hshown
        | some target =>
            rcases visible_apply_target hkind ht shown hshown with hmem | hdrawing
            · exact hold shown hmem
            · exact shown.validDrawing hdrawing
  · exact h boardId shown hshown

/-- An event that is not hidden is shown, and is not valid. -/
theorem not_showsValid_apply (hhidden : ¬ Hidden boards event) :
    ¬ ShowsValid (boards.applyBoardEvent event) := by
  intro h
  refine hhidden fun hkind ht => not_not.mp fun hnot => ?_
  have hshown : event ∈ (boards.applyBoardEvent event).getStrokes (BoardEvent.boardId event) := by
    rw [getStrokes_applyBoardEvent, if_pos rfl, visible_apply_empty ht, if_neg hnot]
    exact List.mem_append_right _ (List.mem_singleton_self event)
  exact event.not_validDrawing hkind (h _ event hshown)

/-- Committing events one by one is replaying them. -/
theorem exec_commit (boards : Boards AcceptedStroke) (events : List AcceptedStroke) :
    Runs.exec commit boards events = some (boards.replay events) := by
  induction events generalizing boards with
  | nil => rfl
  | cons event events ih => exact ih (boards.applyBoardEvent event)

/-- **Nothing but valid drawings is shown**, all along a history, exactly when every undo and
redo of the empty string in it comes with an id that is undone.  The gateway's own boards show
the same. -/
theorem shows_valid_iff (events : List AcceptedStroke) :
    (Runs.Always commit ShowsValid [] events ↔ Runs.ExecOk commit Hidden [] events) ∧
    ∀ boardId, (ManagerBoards.replay events).getStrokes boardId =
      (Boards.replay [] events).getStrokes boardId := by
  constructor
  · apply Runs.always_iff_execOk (I := ShowsValid) (E := fun _ => True) (fun _ h => h)
    · intro boards event boards' hvalid _ hhidden hnext
      obtain rfl := Option.some.inj hnext
      exact showsValid_apply hvalid hhidden
    · intro boards event boards' _ _ hhidden hnext
      obtain rfl := Option.some.inj hnext
      exact not_showsValid_apply hhidden
    · exact fun _ _ => trivial
    · exact fun boardId shown hshown => by cases hshown
    · exact exec_commit [] events
  · intro boardId
    rw [ManagerBoards.getStrokes_replay, Boards.getStrokes_replay]

/-- An undo of the empty string. -/
def blankUndo : Value :=
  .object [("id", .string "u"), ("boardId", .string "board"), ("userId", .string "user"),
    ("color", .string "#000000"), ("width", .number .zero), ("points", .array []),
    ("timestamp", .number .zero), ("action", .string "undo_stroke"),
    ("targetStrokeId", .string "")]

/-- The gateway accepts it, and the board shows it. -/
theorem blankUndo_shown :
    ∃ event : AcceptedStroke, event.stroke = blankUndo ∧
      (Boards.replay [] [event]).getStrokes "board" = [event] ∧ kind event = .undoStroke ∧
      ¬ ValidDrawing event.stroke := by
  have haccepted : validateStroke (some blankUndo) ⟨"board", "user", 0, 0⟩ = .ok () := by rfl
  refine ⟨⟨blankUndo, _, haccepted⟩, rfl, by rfl, by rfl, ?_⟩
  refine AcceptedStroke.not_validDrawing ⟨blankUndo, _, haccepted⟩ ?_
  show StrokeAction.undoStroke ≠ .stroke
  decide

end QuorumCanvas
