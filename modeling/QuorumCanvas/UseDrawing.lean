import QuorumCanvas.BodyLimit
import QuorumCanvas.OptimisticEdits

/-!
# The pen

`useDrawing` gathers the points of a stroke from pointer events.  Its handlers belong to the last
render, and so does the `isDrawing` that they read, whatever `setIsDrawing` has been told since.

In whatever order events and renders come, a stroke that is handed on has two points or more, and
the segments drawn just before are its path (`completed_inked`).  When every event finds the
handlers up to date, the strokes are the gestures of the pointer: from a press over at least one
move to the release (`strokes_are_gestures`).

The gateway takes such a stroke exactly if it has no more than `maxStrokePoints` points
(`accepted_iff_short`).  The refusal of a longer one has no code, and the client that drew it goes
on showing it.
-/

namespace QuorumCanvas

/-- A point on the canvas. -/
abbrev Point := Json.Number × Json.Number

/-- What the hook is called with. -/
structure UseDrawing.Props where
  boardId : String
  userId : String
  color : String

/-- The state of the hook, as its refs and its last render have it. -/
structure UseDrawing where
  /-- what `setIsDrawing` was told last -/
  isDrawing : Bool
  /-- the `isDrawing` of the handlers -/
  rendered : Bool
  /-- `pointsRef` -/
  points : List Point
  /-- the props of the last render, `colorRef` among them -/
  props : UseDrawing.Props

namespace UseDrawing

/-- `BRUSH_WIDTH` -/
def brushWidth : Json.Number := ⟨['3'], rfl⟩

/-- The stroke of a gesture, with its id and time. -/
def createStroke (boardId userId color : String) (width : Json.Number) (points : List Point)
    (stamp : UseBoard.Stamp) : Stroke where
  id := stamp.id
  boardId := boardId
  userId := userId
  color := color
  width := width
  points := points
  timestamp := stamp.timestamp
  action := none
  targetStrokeId := none

/-- A render, or what the pointer does. -/
inductive Event
  | render (props : Props)
  | pointerDown (point : Point)
  | pointerMove (point : Point)
  /-- also when the pointer leaves the canvas -/
  | pointerUp (stamp : UseBoard.Stamp)

/-- What a handler does besides changing the state. -/
inductive Effect
  /-- a segment drawn at once -/
  | segment (prev curr : Point) (color : String)
  /-- a call of `onStrokeComplete` -/
  | complete (stroke : Stroke)

/-- The hook before the first event. -/
def mounted (props : Props) : UseDrawing := ⟨false, false, [], props⟩

/-- The handlers of a render close over what it knows. -/
def render (s : UseDrawing) (props : Props) : UseDrawing :=
  { s with rendered := s.isDrawing, props }

/-- A press begins a path. -/
def handlePointerDown (s : UseDrawing) (point : Point) : UseDrawing :=
  { s with isDrawing := true, points := [point] }

/-- A move is ignored until a render has seen the press. -/
def handlePointerMove (s : UseDrawing) (point : Point) : UseDrawing × List Effect :=
  if s.rendered then
    ({ s with points := s.points ++ [point] },
      (s.points.getLast?.map fun prev => Effect.segment prev point s.props.color).toList)
  else (s, [])

/-- A release completes a path of two points or more. -/
def handlePointerUp (s : UseDrawing) (stamp : UseBoard.Stamp) : UseDrawing × List Effect :=
  if s.rendered then
    ({ s with isDrawing := false, points := [] },
      if 2 ≤ s.points.length then
        [.complete (createStroke s.props.boardId s.props.userId s.props.color brushWidth s.points
          stamp)]
      else [])
  else (s, [])

/-- One event. -/
def next (s : UseDrawing) : Event → UseDrawing × List Effect
  | .render props => (s.render props, [])
  | .pointerDown point => (s.handlePointerDown point, [])
  | .pointerMove point => s.handlePointerMove point
  | .pointerUp stamp => s.handlePointerUp stamp

/-- What the hook does on some events. -/
def effects (s : UseDrawing) : List Event → List Effect
  | [] => []
  | e :: es => (s.next e).2 ++ effects (s.next e).1 es

variable {s : UseDrawing} {e : Event} {stroke : Stroke}

/-! ## Ink -/

/-- The segments of a path. -/
def lines (points : List Point) : List (Point × Point) := points.zip points.tail

/-- The two ends of a segment. -/
def Effect.line? : Effect → Option (Point × Point)
  | .segment prev curr _ => some (prev, curr)
  | .complete _ => none

/-- The last effects are the segments of the path. -/
def Inked (effects : List Effect) (points : List Point) : Prop :=
  ∃ earlier ink, effects = earlier ++ ink ∧ ink.map Effect.line? = (lines points).map some

/-- A further point adds the line to it. -/
theorem lines_concat (points : List Point) (point : Point) :
    lines (points ++ [point]) =
      lines points ++ (points.getLast?.map fun prev => (prev, point)).toList := by
  induction points with
  | nil => rfl
  | cons p points ih =>
      cases points with
      | nil => rfl
      | cons q points =>
          have ih' : lines (q :: points ++ [point]) = _ := ih
          show (p, q) :: lines (q :: points ++ [point]) = _
          rw [ih', List.getLast?_cons_cons]
          rfl

/-- A path without segments. -/
theorem inked_short (done : List Effect) {points : List Point} (h : lines points = []) :
    Inked done points :=
  ⟨done, [], (List.append_nil done).symm, by rw [h]; rfl⟩

/-- **One event** goes on with the path or starts another. -/
theorem Inked.next {done : List Effect} (h : Inked done s.points) (e : Event) :
    Inked (done ++ (s.next e).2) (s.next e).1.points := by
  cases e with
  | render props =>
      rw [UseDrawing.next, List.append_nil]
      exact h
  | pointerDown point => exact inked_short _ rfl
  | pointerMove point =>
      rw [UseDrawing.next, handlePointerMove]
      split
      · obtain ⟨earlier, ink, rfl, hink⟩ := h
        refine ⟨earlier, ink ++ _, List.append_assoc .., ?_⟩
        rw [List.map_append, hink, lines_concat, List.map_append]
        cases s.points.getLast? <;> rfl
      · rw [List.append_nil]
        exact h
  | pointerUp stamp =>
      rw [UseDrawing.next, handlePointerUp]
      split
      · exact inked_short _ rfl
      · rw [List.append_nil]
        exact h

/-- What an event hands on is the path so far. -/
theorem complete_mem_next (h : .complete stroke ∈ (s.next e).2) :
    (s.next e).2 = [.complete stroke] ∧ stroke.points = s.points ∧ 2 ≤ s.points.length := by
  cases e with
  | render props | pointerDown point => cases h
  | pointerMove point =>
      rw [next, handlePointerMove] at h
      split at h
      · cases hlast : s.points.getLast? <;> simp [hlast] at h
      · cases h
  | pointerUp stamp =>
      rw [next, handlePointerUp] at h ⊢
      split at h
      · next hrendered =>
        rw [if_pos hrendered]
        dsimp only at h ⊢
        split at h
        · next hlen =>
          rw [if_pos hlen]
          obtain rfl := Effect.complete.inj (List.mem_singleton.mp h)
          exact ⟨rfl, rfl, hlen⟩
        · cases h
      · cases h

/-- What was drawn so far covers the path so far, by induction on the events. -/
theorem completed_inked_from {done : List Effect} (hdone : Inked done s.points)
    {events : List Event} {before after : List Effect}
    (h : effects s events = before ++ Effect.complete stroke :: after) :
    2 ≤ stroke.points.length ∧ Inked (done ++ before) stroke.points := by
  induction events generalizing s done before with
  | nil => cases before <;> cases h
  | cons e events ih =>
      have hnext := hdone.next e
      rw [effects] at h
      rcases List.append_eq_append_iff.mp h with ⟨rest, hbefore, hrest⟩ | ⟨rest, hfirst, hrest⟩
      · -- handed on later
        rw [hbefore, ← List.append_assoc]
        exact ih hnext hrest
      · cases rest with
        | nil =>
            have hbefore : before = (s.next e).2 := by simpa using hfirst.symm
            have hlater : effects (s.next e).1 events = [] ++ Effect.complete stroke :: after :=
              hrest.symm
            have hinked := ih hnext hlater
            rwa [List.append_nil, ← hbefore] at hinked
        | cons effect rest =>
            obtain rfl : Effect.complete stroke = effect := (List.cons.inj hrest).1
            have hmem : .complete stroke ∈ (s.next e).2 := by
              rw [hfirst]
              simp
            obtain ⟨hone, hpoints, hlen⟩ := complete_mem_next hmem
            obtain rfl : before = [] := by
              rw [hone] at hfirst
              cases before with
              | nil => rfl
              | cons effect before => cases before <;> cases hfirst
            rw [List.append_nil, hpoints]
            exact ⟨hlen, hdone⟩

/-- **Ink.**  In whatever order events and renders come, a stroke that is handed on has two points
or more, and what was drawn last are the segments of its path, all of them and in order. -/
theorem completed_inked {props : Props} {events : List Event} {before after : List Effect}
    (h : effects (mounted props) events = before ++ .complete stroke :: after) :
    2 ≤ stroke.points.length ∧ ∃ earlier ink, before = earlier ++ ink ∧
      ink.map Effect.line? = (stroke.points.zip stroke.points.tail).map some :=
  completed_inked_from (inked_short [] rfl) h

/-- The props of a page. -/
def page : Props := ⟨"b", "u", "#E74C3C"⟩

/-- A press, two moves and the release. -/
def scribble : List Event :=
  [.pointerDown (.zero, .zero), .render page, .pointerMove (.zero, .one), .pointerMove (.one, .one),
    .pointerUp ⟨"s", .zero⟩, .render page]

/-- The stroke of the scribble. -/
def scribbled : Stroke :=
  createStroke "b" "u" "#E74C3C" brushWidth [(.zero, .zero), (.zero, .one), (.one, .one)]
    ⟨"s", .zero⟩

/-- The scribble was drawn in two segments. -/
theorem completed_inked_scribble : 2 ≤ scribbled.points.length ∧ ∃ earlier ink,
    [Effect.segment (.zero, .zero) (.zero, .one) "#E74C3C",
      Effect.segment (.zero, .one) (.one, .one) "#E74C3C"] = earlier ++ ink ∧
      ink.map Effect.line? = (scribbled.points.zip scribbled.points.tail).map some := by
  have heffects : effects (mounted page) scribble =
      [.segment (.zero, .zero) (.zero, .one) "#E74C3C",
        .segment (.zero, .one) (.one, .one) "#E74C3C"] ++ Effect.complete scribbled :: [] := rfl
  exact completed_inked heffects

/-! ## Gestures -/

/-- What the pointer did, seen from outside. -/
inductive Input
  | down (point : Point)
  | move (point : Point)
  | up

/-- Renders are not seen from outside. -/
def Event.input? : Event → Option Input
  | .render _ => none
  | .pointerDown point => some (.down point)
  | .pointerMove point => some (.move point)
  | .pointerUp _ => some .up

/-- The paths that are handed on. -/
def Effect.path? : Effect → Option (List Point)
  | .segment _ _ _ => none
  | .complete stroke => some stroke.points

/-- The paths of the strokes that were completed. -/
def paths (s : UseDrawing) (events : List Event) : List (List Point) :=
  (effects s events).filterMap Effect.path?

/-- The path of a gesture that goes on: moves up to the release, at least two points in all. -/
def finish (points : List Point) : List Input → Option (List Point)
  | .move point :: rest => finish (points ++ [point]) rest
  | .up :: _ => if 2 ≤ points.length then some points else none
  | _ => none

/-- The paths of the gestures, one for each press that is followed by moves and a release. -/
def gestures : List Input → List (List Point)
  | [] => []
  | .down point :: rest => (finish [point] rest).toList ++ gestures rest
  | _ :: rest => gestures rest

/-- The event finds the handlers up to date if it reads `isDrawing`. -/
def Current (s : UseDrawing) : Event → Prop
  | .pointerMove _ | .pointerUp _ => s.rendered = s.isDrawing
  | .render _ | .pointerDown _ => True

/-- Every pointer event finds handlers of the present state. -/
def Prompt (s : UseDrawing) : List Event → Prop
  | [] => True
  | e :: es => s.Current e ∧ Prompt (s.next e).1 es

/-- The paths of one event, then those of the rest. -/
theorem paths_cons (e : Event) (events : List Event) :
    paths s (e :: events) = (s.next e).2.filterMap Effect.path? ++ paths (s.next e).1 events :=
  List.filterMap_append

/-- What is handed on of the path so far, and of the gestures to come. -/
theorem paths_eq {events : List Event} (h : Prompt s events) :
    paths s events =
      (if s.isDrawing then (finish s.points (events.filterMap Event.input?)).toList else []) ++
        gestures (events.filterMap Event.input?) := by
  induction events generalizing s with
  | nil => cases s.isDrawing <;> rfl
  | cons e events ih =>
      obtain ⟨hcurrent, hrest⟩ := h
      rw [paths_cons, ih hrest]
      cases e with
      | render props => rfl
      | pointerDown point => cases hdrawing : s.isDrawing <;> rfl
      | pointerMove point =>
          have hrendered : s.rendered = s.isDrawing := hcurrent
          rw [next, handlePointerMove, hrendered]
          cases hdrawing : s.isDrawing with
          | false => simp [hdrawing, Event.input?, gestures]
          | true =>
              cases s.points.getLast? <;>
                simp [Event.input?, gestures, finish, Effect.path?]
      | pointerUp stamp =>
          have hrendered : s.rendered = s.isDrawing := hcurrent
          rw [next, handlePointerUp, hrendered]
          cases hdrawing : s.isDrawing with
          | false => simp [hdrawing, Event.input?, gestures]
          | true =>
              by_cases hlen : 2 ≤ s.points.length <;>
                simp [Event.input?, gestures, finish, Effect.path?, hlen, createStroke]

/-- The moves up to the release. -/
theorem finish_eq_some {points path : List Point} {inputs : List Input} :
    finish points inputs = some path ↔ ∃ moves rest,
      inputs = moves.map Input.move ++ Input.up :: rest ∧
        path = points ++ moves ∧ 2 ≤ path.length := by
  induction inputs generalizing points with
  | nil => simp [finish]
  | cons input inputs ih =>
      cases input with
      | down point =>
          refine iff_of_false (fun h => by cases h) fun h => ?_
          obtain ⟨moves, rest, heq, -⟩ := h
          cases moves <;> cases heq
      | move point =>
          rw [finish, ih]
          constructor
          · intro h
            obtain ⟨moves, rest, rfl, rfl, hlen⟩ := h
            exact ⟨point :: moves, rest, rfl, List.append_assoc .., hlen⟩
          · intro h
            obtain ⟨moves, rest, heq, rfl, hlen⟩ := h
            cases moves with
            | nil => cases heq
            | cons p moves =>
                obtain ⟨hhead, htail⟩ := List.cons.inj heq
                obtain rfl := Input.move.inj hhead
                exact ⟨moves, rest, htail, by simp, hlen⟩
      | up =>
          rw [finish]
          constructor
          · intro h
            split at h
            · next hlen =>
              obtain rfl := Option.some.inj h
              exact ⟨[], inputs, rfl, (List.append_nil _).symm, hlen⟩
            · cases h
          · intro h
            obtain ⟨moves, rest, heq, rfl, hlen⟩ := h
            cases moves with
            | nil =>
                rw [List.append_nil] at hlen ⊢
                exact if_pos hlen
            | cons p moves => cases heq

/-- A gesture is a press, moves, and a release. -/
theorem mem_gestures {path : List Point} {inputs : List Input} :
    path ∈ gestures inputs ↔ ∃ before press moves after,
      inputs = before ++ Input.down press :: (moves.map Input.move ++ Input.up :: after) ∧
        moves ≠ [] ∧ path = press :: moves := by
  induction inputs with
  | nil => simp [gestures]
  | cons input inputs ih =>
      -- the gesture begins here or later
      have hsplit : (∃ before press moves after, input :: inputs =
            before ++ Input.down press :: (moves.map Input.move ++ Input.up :: after) ∧
              moves ≠ [] ∧ path = press :: moves) ↔
          (∃ press moves after, input = .down press ∧
            inputs = moves.map Input.move ++ Input.up :: after ∧
              moves ≠ [] ∧ path = press :: moves) ∨
          path ∈ gestures inputs := by
        rw [ih]
        constructor
        · intro h
          obtain ⟨before, press, moves, after, heq, hmoves, hpath⟩ := h
          cases before with
          | nil =>
              obtain ⟨hhead, htail⟩ := List.cons.inj heq
              exact .inl ⟨press, moves, after, hhead, htail, hmoves, hpath⟩
          | cons first before =>
              obtain ⟨-, htail⟩ := List.cons.inj heq
              exact .inr ⟨before, press, moves, after, htail, hmoves, hpath⟩
        · intro h
          rcases h with h | h
          · obtain ⟨press, moves, after, rfl, rfl, hmoves, hpath⟩ := h
            exact ⟨[], press, moves, after, rfl, hmoves, hpath⟩
          · obtain ⟨before, press, moves, after, rfl, hmoves, hpath⟩ := h
            exact ⟨input :: before, press, moves, after, rfl, hmoves, hpath⟩
      rw [hsplit]
      cases input with
      | move point | up =>
          refine (or_iff_right fun h => ?_).symm
          obtain ⟨press, moves, after, heq, -⟩ := h
          cases heq
      | down press =>
          rw [gestures, List.mem_append, Option.mem_toList, finish_eq_some]
          refine or_congr_left ?_
          constructor
          · intro h
            obtain ⟨moves, rest, rfl, rfl, hlen⟩ := h
            refine ⟨press, moves, rest, rfl, rfl, ?_, rfl⟩
            rintro rfl
            simp at hlen
          · intro h
            obtain ⟨press', moves, rest, heq, rfl, hmoves, rfl⟩ := h
            obtain rfl := Input.down.inj heq
            refine ⟨moves, rest, rfl, rfl, ?_⟩
            have hpos := List.length_pos_iff.mpr hmoves
            rw [List.length_cons]
            omega

/-- **The strokes are the gestures** of the pointer, in their order, when every event finds the
handlers up to date: each is a press, the moves that follow it, at least one, and the release. -/
theorem strokes_are_gestures {props : Props} {events : List Event}
    (h : Prompt (mounted props) events) :
    paths (mounted props) events = gestures (events.filterMap Event.input?) ∧
      ∀ path, path ∈ paths (mounted props) events ↔ ∃ before press moves after,
        events.filterMap Event.input? =
          before ++ .down press :: (moves.map .move ++ .up :: after) ∧
        moves ≠ [] ∧ path = press :: moves := by
  have hpaths : paths (mounted props) events = gestures (events.filterMap Event.input?) :=
    paths_eq h
  refine ⟨hpaths, fun path => ?_⟩
  rw [hpaths]
  exact mem_gestures

/-- The scribble is one gesture. -/
theorem strokes_are_gestures_scribble :
    paths (mounted page) scribble = [scribbled.points] ∧
      ∀ path, path ∈ paths (mounted page) scribble ↔ ∃ before press moves after,
        scribble.filterMap Event.input? =
          before ++ .down press :: (moves.map .move ++ .up :: after) ∧
        moves ≠ [] ∧ path = press :: moves := by
  have hprompt : Prompt (mounted page) scribble :=
    ⟨trivial, trivial, rfl, rfl, rfl, trivial, trivial⟩
  exact ⟨(strokes_are_gestures hprompt).1, (strokes_are_gestures hprompt).2⟩

/-! ## At the gateway -/

/-- `COLORS` -/
def colors : List String := ["#E74C3C", "#3498DB", "#2ECC71", "#F39C12", "#9B59B6"]

/-- Props as the page of the connection's board passes them. -/
structure Props.Fits (props : Props) (conn : ConnectionInfo) : Prop where
  boardId : props.boardId = conn.boardId
  userId : props.userId = conn.userId
  color : props.color ∈ colors

/-- A render has props that fit, and an id that is made is one that the gateway admits. -/
def Event.Fits (conn : ConnectionInfo) : Event → Prop
  | .render props => props.Fits conn
  | .pointerUp stamp => validId (some (.string stamp.id)) = true
  | .pointerDown _ | .pointerMove _ => True

/-- What `handleStroke` answers when a stroke is not valid. -/
def refusal (reason : String) : ServerMessage := .error reason none none none

variable {conn : ConnectionInfo}

/-- What is handed on was made from the props of some render. -/
theorem complete_createStroke {events : List Event} (hprops : s.props.Fits conn)
    (hevents : ∀ e ∈ events, e.Fits conn) (hmem : .complete stroke ∈ effects s events) :
    ∃ (props : Props) (points : List Point) (stamp : UseBoard.Stamp),
      props.Fits conn ∧ validId (some (.string stamp.id)) = true ∧
      stroke = createStroke props.boardId props.userId props.color brushWidth points stamp := by
  induction events generalizing s with
  | nil => cases hmem
  | cons e events ih =>
      obtain ⟨he, hrest⟩ := List.forall_mem_cons.mp hevents
      rcases List.mem_append.mp hmem with hnow | hlater
      · cases e with
        | render props | pointerDown point => cases hnow
        | pointerMove point =>
            obtain ⟨hone, -⟩ := complete_mem_next hnow
            rw [next, handlePointerMove] at hone
            split at hone
            · cases hlast : s.points.getLast? <;> simp [hlast] at hone
            · cases hone
        | pointerUp stamp =>
            rw [next, handlePointerUp] at hnow
            split at hnow
            · dsimp only at hnow
              split at hnow
              · exact ⟨s.props, s.points, stamp, hprops, he,
                  Effect.complete.inj (List.mem_singleton.mp hnow)⟩
              · cases hnow
            · cases hnow
      · refine ih ?_ hrest hlater
        cases e with
        | render props => exact he
        | pointerDown point => exact hprops
        | pointerMove point =>
            rw [next, handlePointerMove]
            split <;> exact hprops
        | pointerUp stamp =>
            rw [next, handlePointerUp]
            split <;> exact hprops

/-- The palette holds colours. -/
theorem hexColor_of_mem {color : String} (h : color ∈ colors) : hexColor color = true := by
  revert color
  decide +kernel

/-- A stroke of the hook passes the checks, if its path is not too long. -/
theorem validateStroke_createStroke {props : Props} (hprops : props.Fits conn)
    (points : List Point) {stamp : UseBoard.Stamp} (hpoints : points ≠ [])
    (hid : validId (some (.string stamp.id)) = true) :
    validateStroke (some (createStroke props.boardId props.userId props.color brushWidth points
        stamp).toJson) conn =
      if points.length ≤ maxStrokePoints then .ok () else .error "Invalid stroke points" := by
  have hcolor : validColor (some (.string props.color)) = true := hexColor_of_mem hprops.color
  have hwidth : validWidth (some (.number brushWidth)) = true := by decide +kernel
  have hlength :
      validPoints (some (.array (points.map fun p => .array [.number p.1, .number p.2]))) =
      decide (points.length ≤ maxStrokePoints) := by
    simp [validPoints, hpoints]
  have hall : allPointsValid
      (some (.array (points.map fun p => .array [.number p.1, .number p.2]))) = true := by
    simp [allPointsValid, validPoint]
  have hchecks : checks (createStroke props.boardId props.userId props.color brushWidth points
        stamp).toJson conn =
      [(validId (some (.string stamp.id)), "Invalid stroke id"),
        (decide (props.boardId = conn.boardId) && decide (props.userId = conn.userId),
          "Stroke boardId/userId must match connection"),
        (true, "Invalid stroke action"), (true, "Invalid targetStrokeId"),
        (true, "undo_stroke/redo_stroke requires targetStrokeId"),
        (validColor (some (.string props.color)), "Invalid stroke color"),
        (true, "Invalid stroke timestamp"),
        (validWidth (some (.number brushWidth)), "Invalid stroke width"),
        (validPoints (some (.array (points.map fun p => .array [.number p.1, .number p.2]))),
          "Invalid stroke points"),
        (allPointsValid (some (.array (points.map fun p => .array [.number p.1, .number p.2]))),
          "Invalid stroke point")] := rfl
  unfold validateStroke
  simp only [hchecks]
  simp only [hid, hprops.boardId, hprops.userId, hcolor, hwidth, hlength, hall]
  by_cases hlen : points.length ≤ maxStrokePoints
  · rw [if_pos hlen, decide_eq_true hlen]
    rfl
  · rw [if_neg hlen, decide_eq_false hlen]
    rfl

/-- What the gateway says to a stroke that was handed on. -/
theorem validateStroke_drawn {props : Props} {events : List Event} (hprops : props.Fits conn)
    (hevents : ∀ e ∈ events, e.Fits conn)
    (hmem : .complete stroke ∈ effects (mounted props) events) :
    BoardEvent.kind stroke = .stroke ∧ validateStroke (some stroke.toJson) conn =
      if stroke.points.length ≤ maxStrokePoints then .ok ()
      else .error "Invalid stroke points" := by
  obtain ⟨before, after, heffects⟩ := List.append_of_mem hmem
  obtain ⟨hlen, -⟩ := completed_inked_from (inked_short [] rfl) heffects
  have hne : stroke.points ≠ [] := List.ne_nil_of_length_pos (by omega)
  obtain ⟨props', points, stamp, hfits, hid, rfl⟩ := complete_createStroke hprops hevents hmem
  exact ⟨rfl, validateStroke_createStroke hfits points hne hid⟩

/-- A stroke that was sent stays on the client that drew it through a refusal, and past the moment
at which the rollback is forgotten. -/
theorem mem_strokes_refused {b : UseBoard} (hkind : BoardEvent.kind stroke = .stroke)
    (hnew : ¬ b.Shows stroke.id) (reason : String) :
    stroke ∈ (((b.addStroke stroke true).handleMessage (refusal reason)).expirePending
      stroke.id).strokes := by
  have hnot : ¬ UseBoard.showsStroke b.strokes stroke.id = true := fun hshows =>
    hnew (UseBoard.showsStroke_iff.mp hshows)
  have hadd := (UseBoard.applyStrokeEvent_drawing (b := { b with
    archive := b.archive.set stroke.id stroke }) hkind).trans (if_neg hnot)
  have hstrokes : (((b.addStroke stroke true).handleMessage (refusal reason)).expirePending
      stroke.id).strokes = b.strokes ++ [stroke] := congrArg UseBoard.strokes hadd
  rw [hstrokes]
  exact List.mem_append_right _ (List.mem_singleton_self _)

/-- **The gateway takes a drawn stroke if and only if it is not too long.**  A longer one is
refused for its points, and the client goes on showing it. -/
theorem accepted_iff_short {props : Props} {events : List Event} (hprops : props.Fits conn)
    (hevents : ∀ e ∈ events, e.Fits conn)
    (hmem : .complete stroke ∈ effects (mounted props) events) :
    (validateStroke (some stroke.toJson) conn = .ok () ↔
      stroke.points.length ≤ maxStrokePoints) ∧
    (maxStrokePoints < stroke.points.length →
      validateStroke (some stroke.toJson) conn = .error "Invalid stroke points" ∧
      ∀ b : UseBoard, ¬ b.Shows stroke.id →
        stroke ∈ (((b.addStroke stroke true).handleMessage
          (refusal "Invalid stroke points")).expirePending stroke.id).strokes) := by
  obtain ⟨hkind, hvalidate⟩ := validateStroke_drawn hprops hevents hmem
  rw [hvalidate]
  constructor
  · constructor
    · intro haccepted
      by_contra hlong
      rw [if_neg hlong] at haccepted
      cases haccepted
    · exact fun hshort => if_pos hshort
  · intro hlong
    refine ⟨if_neg (Nat.not_le.mpr hlong), fun b hnew => ?_⟩
    exact mem_strokes_refused hkind hnew _

/-- A pen that is down hands on its path with all the moves up to the release. -/
theorem complete_mem_moves (hrendered : s.rendered = true) (point : Point)
    (stamp : UseBoard.Stamp) {n : ℕ} (hlen : 2 ≤ s.points.length + n) :
    .complete (createStroke s.props.boardId s.props.userId s.props.color brushWidth
        (s.points ++ List.replicate n point) stamp) ∈
      effects s (List.replicate n (.pointerMove point) ++ [.pointerUp stamp]) := by
  induction n generalizing s with
  | zero =>
      have hup : (s.next (.pointerUp stamp)).2 = [.complete (createStroke s.props.boardId
          s.props.userId s.props.color brushWidth s.points stamp)] := by
        rw [next, handlePointerUp, if_pos hrendered]
        exact if_pos hlen
      rw [List.replicate_zero, List.replicate_zero, List.append_nil, List.nil_append, effects, hup]
      exact List.mem_cons_self
  | succ n ih =>
      have hmove : (s.next (.pointerMove point)).1 = { s with points := s.points ++ [point] } := by
        rw [next, handlePointerMove, if_pos hrendered]
      rw [List.replicate_succ, List.replicate_succ, List.cons_append, effects, hmove]
      apply List.mem_append_right
      have hlen' : 2 ≤ (s.points ++ [point]).length + n := by
        rw [List.length_append, List.length_singleton]
        omega
      have hmem := ih (s := { s with points := s.points ++ [point] }) hrendered hlen'
      rwa [List.append_assoc, List.singleton_append] at hmem

/-- A press, some moves on the spot, and the release. -/
def dwell (n : ℕ) : List Event :=
  .pointerDown (.zero, .zero) :: .render page ::
    (List.replicate n (.pointerMove (.zero, .zero)) ++ [.pointerUp ⟨"s", .zero⟩])

/-- The stroke of a pointer that stays where it is. -/
def dwelled (n : ℕ) : Stroke :=
  createStroke "b" "u" "#E74C3C" brushWidth
    ([(.zero, .zero)] ++ List.replicate n (.zero, .zero)) ⟨"s", .zero⟩

/-- It is completed. -/
theorem complete_mem_dwell {n : ℕ} (hn : 2 ≤ 1 + n) :
    .complete (dwelled n) ∈ effects (mounted page) (dwell n) :=
  complete_mem_moves (s := ⟨true, true, [(Json.Number.zero, Json.Number.zero)], page⟩) rfl _ _ hn

/-- The page has valid names and a colour of the palette. -/
theorem fits_page : page.Fits ⟨"b", "u", 0, 0⟩ := ⟨rfl, rfl, by decide⟩

/-- So do its stamps. -/
theorem fits_dwell {n : ℕ} : ∀ e ∈ dwell n, e.Fits ⟨"b", "u", 0, 0⟩ := by
  have hid : validId (some (.string "s")) = true := by decide +kernel
  intro e he
  rcases List.mem_cons.mp he with rfl | he
  · trivial
  rcases List.mem_cons.mp he with rfl | he
  · exact fits_page
  rcases List.mem_append.mp he with he | he
  · rw [List.eq_of_mem_replicate he]
    trivial
  · rw [List.mem_singleton.mp he]
    exact hid

/-- A pointer that dwells too long draws a stroke that is refused and stays on the board. -/
theorem accepted_iff_short_dwell :
    validateStroke (some (dwelled maxStrokePoints).toJson) ⟨"b", "u", 0, 0⟩ =
      .error "Invalid stroke points" ∧
    ∀ b : UseBoard, ¬ b.Shows (dwelled maxStrokePoints).id → dwelled maxStrokePoints ∈
      (((b.addStroke (dwelled maxStrokePoints) true).handleMessage
        (refusal "Invalid stroke points")).expirePending (dwelled maxStrokePoints).id).strokes := by
  have hlong : ∀ n, n < (dwelled n).points.length := by
    intro n
    unfold dwelled createStroke
    rw [List.length_append, List.length_replicate, List.length_singleton]
    omega
  exact (accepted_iff_short fits_page fits_dwell (complete_mem_dwell (by decide))).2 (hlong _)

end UseDrawing

end QuorumCanvas
