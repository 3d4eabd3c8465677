import QuorumCanvas.VisibleStrokes

/-!
# The board in the browser

`useBoard` keeps the strokes a client shows, an archive of those it has seen, and
for each event it has sent a closure that takes the optimistic change back.  The
closures are kept here as the data they close over.  An entry of `pending` stands
for a rollback and its timer, which are set and cleared together.

Each message and each action is rendered before the next one comes: the updaters
that it queues have run, and the callbacks see what they have made.
-/

namespace QuorumCanvas

open BoardEvent (kind target?)

/-- The messages of the gateway. -/
inductive ServerMessage
  | joinAck (boardId : String) (strokes : List Stroke)
  | strokeBroadcast (stroke : Stroke)
  | userJoined (userId : String)
  | userLeft (userId : String)
  | error (message : String) (code strokeId : Option String) (retryable : Option Bool)
  deriving DecidableEq

/-- The rollback closures of the three actions. -/
inductive Rollback
  | addStroke (strokeId : String)
  | undoStroke (targetStrokeId : String) (targetStroke : Stroke)
  | redoStroke (targetStrokeId : String)
  deriving DecidableEq

/-- The state and the refs of the hook. -/
structure UseBoard where
  strokes : List Stroke
  users : List String
  redoStrokeIds : List String
  /-- `strokeArchiveRef` -/
  archive : OrderedMap String Stroke
  /-- `pendingRollbackRef` and `pendingTimersRef` -/
  pending : OrderedMap String Rollback
  deriving DecidableEq

namespace UseBoard

/-- The state of a hook that was just mounted. -/
def mounted : UseBoard := ⟨[], [], [], [], []⟩

/-- `prev.filter((stroke) => stroke.id !== strokeId)`. -/
def dropStroke (strokes : List Stroke) (strokeId : String) : List Stroke :=
  strokes.filter fun stroke => stroke.id ≠ strokeId

/-- `strokes.some((stroke) => stroke.id === strokeId)`. -/
def showsStroke (strokes : List Stroke) (strokeId : String) : Bool :=
  strokes.any fun stroke => stroke.id = strokeId

/-- `setStrokes((prev) => applyStrokeEvent(prev, event))`. -/
def applyStrokeEvent (b : UseBoard) (event : Stroke) : UseBoard :=
  match kind event, target? event with
  | .undoStroke, some target => { b with strokes := dropStroke b.strokes target }
  | .redoStroke, some target =>
      if showsStroke b.strokes target then b
      else
        match OrderedMap.get? b.archive target with
        | some stroke => { b with strokes := b.strokes ++ [stroke] }
        | none => b
  | _, _ =>
      if showsStroke b.strokes event.id then b
      else
        { b with
          archive := b.archive.set event.id event
          strokes := b.strokes ++ [event] }

/-! ## Rollbacks -/

/-- A rollback waits for the answer. -/
def trackPending (b : UseBoard) (strokeId : String) (rollback : Rollback) : UseBoard :=
  { b with pending := b.pending.set strokeId rollback }

/-- It waits no more. -/
def clearPending (b : UseBoard) (strokeId : String) : UseBoard :=
  { b with pending := b.pending.erase strokeId }

/-- The timer of a pending event fires after 20 seconds: the rollback is forgotten. -/
def expirePending (b : UseBoard) (strokeId : String) : UseBoard := b.clearPending strokeId

/-- Calling a rollback closure. -/
def rollBack (b : UseBoard) : Rollback → UseBoard
  | .addStroke strokeId => { b with strokes := dropStroke b.strokes strokeId }
  | .undoStroke targetStrokeId targetStroke =>
      { b with
        strokes :=
          if showsStroke b.strokes targetStrokeId then b.strokes else b.strokes ++ [targetStroke]
        redoStrokeIds := b.redoStrokeIds.filter fun id => id ≠ targetStrokeId }
  | .redoStroke targetStrokeId =>
      { b with
        strokes := dropStroke b.strokes targetStrokeId
        redoStrokeIds := b.redoStrokeIds ++ [targetStrokeId] }

/-- The rollback is run, or the stroke dropped. -/
def runPendingRollback (b : UseBoard) (strokeId : String) : UseBoard :=
  match OrderedMap.get? b.pending strokeId with
  | some rollback => (b.clearPending strokeId).rollBack rollback
  | none => { b.clearPending strokeId with strokes := dropStroke b.strokes strokeId }

/-! ## Messages -/

/-- `new Map(strokes.filter(...).map((stroke) => [stroke.id, stroke]))`. -/
def archiveOf (strokes : List Stroke) : OrderedMap String Stroke :=
  (strokes.filter fun stroke => kind stroke = .stroke).foldl
    (fun archive stroke => archive.set stroke.id stroke) []

/-- What a message of the gateway does to the hook. -/
def handleMessage (b : UseBoard) : ServerMessage → UseBoard
  | .joinAck _ strokes =>
      { b with
        archive := archiveOf strokes
        strokes
        redoStrokeIds := [] }
  | .strokeBroadcast stroke => b.applyStrokeEvent stroke
  | .userJoined userId =>
      { b with users := if userId ∈ b.users then b.users else b.users ++ [userId] }
  | .userLeft userId => { b with users := b.users.filter fun id => id ≠ userId }
  | .error _ code strokeId _ =>
      match strokeId.filter (· ≠ "") with
      | some strokeId =>
        if code = some "RAFT_WRITE_FAILED" then b.runPendingRollback strokeId else b
      | none => b

/-! ## Actions -/

/-- `submitStrokeMessage`; `sent` is what `send` returns. -/
def submitStrokeMessage (b : UseBoard) (stroke : Stroke) (rollback : Rollback) (sent : Bool) :
    UseBoard :=
  let b := b.trackPending stroke.id rollback
  if sent then b else b.runPendingRollback stroke.id

/-- `addStroke`, of a stroke with points: `logStroke` reads the first of them before anything
else is done, and throws when there is none. -/
def addStroke (b : UseBoard) (stroke : Stroke) (sent : Bool) : UseBoard :=
  let b := { b with archive := b.archive.set stroke.id stroke }.applyStrokeEvent stroke
  { b with redoStrokeIds := [] }.submitStrokeMessage stroke (.addStroke stroke.id) sent

/-- The hook's `boardId` and `userId`, and what `generateId` and `Date.now` return. -/
structure Session where
  boardId : String
  userId : String

/-- A fresh id, and the time. -/
structure Stamp where
  id : String
  timestamp : Json.Number
  deriving DecidableEq

/-- The events made by `undoLastStroke` and `redoLastStroke`. -/
def pointer (session : Session) (stamp : Stamp) (action : StrokeAction) (targetStrokeId : String) :
    Stroke where
  id := stamp.id
  boardId := session.boardId
  userId := session.userId
  color := "#000000"
  width := .zero
  points := []
  timestamp := stamp.timestamp
  action := some action
  targetStrokeId := some targetStrokeId

/-- The drawings of the user that are shown. -/
def ownVisibleStrokeIds (b : UseBoard) (userId : String) : List String :=
  (b.strokes.filter fun stroke => stroke.userId = userId ∧ kind stroke = .stroke).map Stroke.id

/-- A target found in the archive, `none` when the action does nothing. -/
def targetOf (b : UseBoard) (ids : List String) : Option (String × Stroke) := do
  let targetStrokeId ← ids.getLast?
  guard (targetStrokeId ≠ "")
  let targetStroke ← OrderedMap.get? b.archive targetStrokeId
  pure (targetStrokeId, targetStroke)

/-- `undoLastStroke`, with the event it submits. -/
def undoLastStroke (b : UseBoard) (session : Session) (stamp : Stamp) (sent : Bool) :
    UseBoard × Option Stroke :=
  match b.targetOf (b.ownVisibleStrokeIds session.userId) with
  | none => (b, none)
  | some (targetStrokeId, targetStroke) =>
      let undoEvent := pointer session stamp .undoStroke targetStrokeId
      let b := b.applyStrokeEvent undoEvent
      let b := { b with redoStrokeIds := b.redoStrokeIds ++ [targetStrokeId] }
      (b.submitStrokeMessage undoEvent (.undoStroke targetStrokeId targetStroke) sent,
        some undoEvent)

/-- `redoLastStroke`, with the event it submits. -/
def redoLastStroke (b : UseBoard) (session : Session) (stamp : Stamp) (sent : Bool) :
    UseBoard × Option Stroke :=
  match b.targetOf b.redoStrokeIds with
  | none => (b, none)
  | some (targetStrokeId, _) =>
      let redoEvent := pointer session stamp .redoStroke targetStrokeId
      let b := b.applyStrokeEvent redoEvent
      let b := { b with redoStrokeIds := b.redoStrokeIds.dropLast }
      (b.submitStrokeMessage redoEvent (.redoStroke targetStrokeId) sent, some redoEvent)

/-! ## What is shown -/

variable {b : UseBoard} {event : Stroke} {id : String}

/-- Some stroke with this id is shown. -/
def Shows (b : UseBoard) (id : String) : Prop := ∃ stroke ∈ b.strokes, stroke.id = id

/-- The archive knows a stroke with this id. -/
def Archived (b : UseBoard) (id : String) : Prop := (OrderedMap.get? b.archive id).isSome

/-- A stroke is shown under its id. -/
theorem showsStroke_iff {strokes : List Stroke} :
    showsStroke strokes id = true ↔ ∃ stroke ∈ strokes, stroke.id = id := by
  simp [showsStroke]

end UseBoard

end QuorumCanvas
