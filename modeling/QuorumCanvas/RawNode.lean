import Mathlib.Logic.Function.Iterate
import QuorumCanvas.JsValues
import QuorumCanvas.RaftNode

/-!
# A node that takes strokes unseen

`POST /client-write` hands `req.body.stroke` to the node as it is: any JSON value, or
`undefined`.  The functions that touch such a stroke are modelled here once more, on
variables of a script, with what they can throw: the append of `handleClientWrite`,
`applyBoardEvent`, `applyCommitted`, `takeSnapshot`, `restoreBoardState`, the constructor,
and the calls of `FilePersistence` and of the console, which print what they are given.
Files and messages hold JSON text, so what has passed through them is read back (`reread`).

Terms, votes and roles are only carried along: no stroke touches them.
-/

namespace QuorumCanvas

open Js (Var Thrown Stack)

/-- `undefined` inside an array is printed as `null`. -/
def rereadItem (v : Var) : Var := some ((v.map Json.Value.reread).getD .null)

/-! ## Log entries, snapshots and files -/

/-- A log entry whose stroke is whatever the client sent. -/
structure RawEntry where
  index : ℕ
  term : ℕ
  stroke : Var

/-- What is read back of an entry; a member that is `undefined` is not printed. -/
def RawEntry.reread (entry : RawEntry) : RawEntry :=
  { entry with stroke := entry.stroke.map Json.Value.reread }

/-- How deep an entry is nested. -/
def RawEntry.nesting (entry : RawEntry) : ℕ := Js.nesting entry.stroke + 1

/-- `Record<string, Stroke[]>`. -/
abbrev RawRecord := OrderedMap String (List Var)

/-- Assignment to a property, with the exception of `__proto__`. -/
def RawRecord.assign (boards : RawRecord) (boardId : String) (events : List Var) : RawRecord :=
  if boardId = "__proto__" then boards else OrderedMap.set boards boardId events

/-- A snapshot of raw boards. -/
structure RawSnapshot where
  lastIncludedIndex : ℕ
  lastIncludedTerm : ℕ
  boards : RawRecord

/-- The snapshot as it is read back from text. -/
def RawSnapshot.reread (snapshot : RawSnapshot) : RawSnapshot :=
  { snapshot with boards := snapshot.boards.map fun b => (b.1, b.2.map rereadItem) }

/-- The greatest of some numbers. -/
def deepest (depths : List ℕ) : ℕ := depths.foldr max 0

/-- How deep a snapshot is nested: its object, that of the boards, and the list of each. -/
def RawSnapshot.nesting (snapshot : RawSnapshot) : ℕ :=
  deepest (snapshot.boards.map fun b => deepest (b.2.map Js.nesting) + 1) + 2

/-- What the loading half of `Persistence` returns. -/
structure RawFiles where
  backend : Backend
  loadState : PersistedState
  loadLog : List RawEntry
  loadSnapshot : Option RawSnapshot

/-- The saving half of `Persistence`. -/
inductive RawCall
  | saveState (state : PersistedState)
  | appendLog (entry : RawEntry)
  | rewriteLog (entries : List RawEntry)
  | saveSnapshot (snapshot : RawSnapshot)

/-- How deep the deepest text of a call is nested; a log is printed entry by entry. -/
def RawCall.nesting : RawCall → ℕ
  | .saveState _ => 1
  | .appendLog entry => entry.nesting
  | .rewriteLog entries => deepest (entries.map RawEntry.nesting)
  | .saveSnapshot snapshot => snapshot.nesting

namespace RawFiles

/-- Files that do not exist yet. -/
def fresh (backend : Backend) : RawFiles := ⟨backend, ⟨0, none, 0⟩, [], none⟩

/-- One call.  `MemoryPersistence` ignores them all. -/
def run (files : RawFiles) (call : RawCall) : RawFiles :=
  match files.backend with
  | .memory => files
  | .file =>
      match call with
      | .saveState state => { files with loadState := state }
      | .appendLog entry => { files with loadLog := files.loadLog ++ [entry.reread] }
      | .rewriteLog entries => { files with loadLog := entries.map RawEntry.reread }
      | .saveSnapshot snapshot => { files with loadSnapshot := some snapshot.reread }

/-- Calls made one after the other. -/
def replay (files : RawFiles) (calls : List RawCall) : RawFiles := calls.foldl run files

end RawFiles

/-- The log, with the boundary of the last snapshot. -/
structure RawLog where
  entries : List RawEntry
  lastIncludedIndex : ℕ
  lastIncludedTerm : ℕ

namespace RawLog

/-- The constructor: entries the snapshot already covers are dropped by index. -/
def ofFiles (files : RawFiles) : RawLog :=
  match files.loadSnapshot with
  | some snapshot =>
      ⟨files.loadLog.filter fun e => snapshot.lastIncludedIndex < e.index,
        snapshot.lastIncludedIndex, snapshot.lastIncludedTerm⟩
  | none => ⟨files.loadLog, 0, 0⟩

variable (log : RawLog)

/-- `RaftLog.append` on raw entries. -/
def append (entry : RawEntry) : RawLog := { log with entries := log.entries ++ [entry] }

/-- `RaftLog.getEntry`, none up to the boundary. -/
def getEntry (index : ℕ) : Option RawEntry :=
  if index ≤ log.lastIncludedIndex then none
  else log.entries[index - log.lastIncludedIndex - 1]?

/-- `RaftLog.getTermAt`, the recorded term at the boundary. -/
def getTermAt (index : ℕ) : ℕ :=
  if index = log.lastIncludedIndex then log.lastIncludedTerm
  else ((log.getEntry index).map RawEntry.term).getD 0

/-- `RaftLog.getLastIndex`. -/
def getLastIndex : ℕ := log.lastIncludedIndex + log.entries.length

/-- `RaftLog.compact` drops what the snapshot covers. -/
def compact (uptoIndex term : ℕ) : RawLog :=
  ⟨log.entries.drop (uptoIndex - log.lastIncludedIndex), uptoIndex, term⟩

/-- `RaftLog.installSnapshot` keeps what is above the boundary. -/
def installSnapshot (lastIncludedIndex lastIncludedTerm : ℕ) : RawLog :=
  ⟨log.entries.filter fun e => lastIncludedIndex < e.index, lastIncludedIndex, lastIncludedTerm⟩

end RawLog

/-! ## Boards -/

/-- The state of one board, under the key that `event.boardId` gave. -/
structure RawBoard where
  boardId : Var
  events : List Var
  undone : List Var
  visible : List Var

/-- The boards in the order in which they first received an event. -/
abbrev RawBoards := List RawBoard

namespace RawBoards

/-- `ensureBoardState`, and the state of the board. -/
def board (boards : RawBoards) (boardId : Var) : RawBoard :=
  (boards.find? fun b => Js.same b.boardId boardId).getD ⟨boardId, [], [], []⟩

/-- Replace the state of a board, or put down that of a new one. -/
def setBoard (boards : RawBoards) (board : RawBoard) : RawBoards :=
  if boards.any fun b => Js.same b.boardId board.boardId then
    boards.map fun b => if Js.same b.boardId board.boardId then board else b
  else boards ++ [board]

/-- `Set.add`. -/
def addId (ids : List Var) (id : Var) : List Var :=
  if ids.any fun known => Js.same known id then ids else ids ++ [id]

/-- `visible.filter((stroke) => stroke.id !== target)`. -/
def withoutId (target : Var) : List Var → Except Thrown (List Var)
  | [] => .ok []
  | stroke :: visible => do
      let id ← Js.get stroke "id"
      let visible ← withoutId target visible
      return if Js.same id target then visible else stroke :: visible

/-- `visible.some((stroke) => stroke.id === target)`. -/
def showsId (target : Var) : List Var → Except Thrown Bool
  | [] => .ok false
  | stroke :: visible => do
      let id ← Js.get stroke "id"
      if Js.same id target then return true
      showsId target visible

/-- `event.action ?? 'stroke'`. -/
def action (event : Var) : Except Thrown Json.Value := do
  return Js.orElse (← Js.get event "action") (.string "stroke")

/-- The first drawing with a given id among the events of a board. -/
def findDrawing (target : Var) : List Var → Except Thrown (Option Var)
  | [] => .ok none
  | event :: events => do
      if Js.isText (← action event) "stroke" then
        if Js.same (← Js.get event "id") target then return some event
      findDrawing target events

/-- One event on its own board. -/
def applyTo (board : RawBoard) (event : Var) : Except Thrown RawBoard := do
  let action ← action event
  let board := { board with events := board.events ++ [event] }
  let target ← Js.get event "targetStrokeId"
  if Js.isText action "undo_stroke" && Js.truthy target then
    let visible ← withoutId target board.visible
    return { board with undone := addId board.undone target, visible }
  if Js.isText action "redo_stroke" && Js.truthy target then
    let board := { board with undone := board.undone.filter fun id => !Js.same id target }
    if ← showsId target board.visible then return board
    let found ← findDrawing target board.events
    return { board with visible := board.visible ++ found.toList }
  let id ← Js.get event "id"
  if board.undone.any fun undone => Js.same undone id then return board
  return { board with visible := board.visible ++ [event] }

/-- `applyBoardEvent`. -/
def applyBoardEvent (boards : RawBoards) (event : Var) : Except Thrown RawBoards := do
  let boardId ← Js.get event "boardId"
  let board ← applyTo (boards.board boardId) event
  return boards.setBoard board

/-- Events applied one after the other. -/
def replay (boards : RawBoards) (events : List Var) : Except Thrown RawBoards :=
  events.foldlM applyBoardEvent boards

/-- The object built by `takeSnapshot`: each key is converted to a property name. -/
def record (stack : Stack) (boards : RawBoards) : Except Thrown RawRecord :=
  boards.foldlM (fun record board => do
    return record.assign (← Js.propertyNameOn stack board.boardId) board.events) []

end RawBoards

/-! ## The node -/

/-- The part of a node that raw strokes reach. -/
structure RawNode where
  snapshotThreshold : ℕ
  currentTerm : ℕ
  votedFor : Option String
  state : NodeState
  log : RawLog
  commitIndex : ℕ
  lastApplied : ℕ
  boards : RawBoards
  files : RawFiles
  /-- the persistence calls of the turn in progress -/
  calls : List RawCall

namespace RawNode

variable (stack : Stack)

/-- One call of the persistence interface.  `FilePersistence` prints what it is to write
before it touches the file. -/
def persist (n : RawNode) (call : RawCall) : Except Thrown RawNode :=
  if n.files.backend = .file ∧ stack.stringify < call.nesting then .error .stackOverflow
  else .ok { n with files := n.files.run call, calls := n.calls ++ [call] }

/-- A turn begins with no call made. -/
def beginTurn (n : RawNode) : RawNode := { n with calls := [] }

/-- Saving term, vote and commit index. -/
def persistState (n : RawNode) : Except Thrown RawNode :=
  n.persist stack (.saveState ⟨n.currentTerm, n.votedFor, n.commitIndex⟩)

/-- `RaftLog.append`, in memory. -/
def pushLog (n : RawNode) (entry : RawEntry) : RawNode := { n with log := n.log.append entry }

/-- `RaftLog.append`: in memory, then in the file. -/
def appendLog (n : RawNode) (entry : RawEntry) : Except Thrown RawNode :=
  (n.pushLog entry).persist stack (.appendLog entry)

/-- A log that takes the place of the old one, in memory and in the file. -/
def rewriteLog (n : RawNode) (log : RawLog) : Except Thrown RawNode :=
  { n with log }.persist stack (.rewriteLog log.entries)

/-- `RaftLog.compact`. -/
def compactLog (n : RawNode) (uptoIndex term : ℕ) : Except Thrown RawNode :=
  if uptoIndex ≤ n.log.lastIncludedIndex then .ok n
  else n.rewriteLog stack (n.log.compact uptoIndex term)

/-- `handleClientWrite` up to its first `await`, for a leader.  The entry is in the log when
it is printed for the file, and on file when the message for the console reads
`stroke.id` and prints it. -/
def handleClientWrite (n : RawNode) (stroke : Var) : RawNode × Except Thrown Unit :=
  if n.state ≠ .leader then (n, .ok ())
  else
    let entry := ⟨n.log.getLastIndex + 1, n.currentTerm, stroke⟩
    match n.appendLog stack entry with
    | .error thrown => (n.pushLog entry, .error thrown)
    | .ok n => (n, do Js.stringify stack [← Js.get stroke "id"])

/-- One round of the `applyCommitted` loop, with its message for the console. -/
def applyNext (n : RawNode) : Except Thrown RawNode := do
  let n := { n with lastApplied := n.lastApplied + 1 }
  match n.log.getEntry n.lastApplied with
  | some entry =>
      let boards ← n.boards.applyBoardEvent entry.stroke
      Js.stringify stack [← Js.get entry.stroke "boardId", ← Js.get entry.stroke "id",
        some (← RawBoards.action entry.stroke)]
      return { n with boards }
  | none => return n

/-- The rounds of the loop. -/
def applyRounds : ℕ → RawNode → Except Thrown RawNode
  | 0, n => .ok n
  | k + 1, n => do applyRounds k (← n.applyNext stack)

/-- The snapshot is saved before the log is cut, and either may throw. -/
def takeSnapshot (n : RawNode) : Except Thrown RawNode := do
  let boards ← n.boards.record stack
  let term := n.log.getTermAt n.commitIndex
  let n ← n.persist stack (.saveSnapshot ⟨n.commitIndex, term, boards⟩)
  n.compactLog stack n.commitIndex term

/-- A snapshot is taken when it is due. -/
def maybeSnapshot (n : RawNode) : Except Thrown RawNode :=
  if n.commitIndex - n.log.lastIncludedIndex < n.snapshotThreshold then .ok n
  else n.takeSnapshot stack

/-- Entries are applied one by one, then a snapshot may be taken. -/
def applyCommitted (n : RawNode) : Except Thrown RawNode := do
  maybeSnapshot stack (← applyRounds stack (n.commitIndex - n.lastApplied) n)

/-- The boards of a snapshot are replayed from empty ones. -/
def restoreBoardState (n : RawNode) (boards : RawRecord) : Except Thrown RawNode := do
  return { n with boards := ← RawBoards.replay [] (boards.flatMap Prod.snd) }

/-- Set the commit index, save it, and apply what it covers. -/
def advanceCommit (n : RawNode) (index : ℕ) : Except Thrown RawNode := do
  let n ← { n with commitIndex := index }.persistState stack
  n.applyCommitted stack

/-- The log is rewritten before the snapshot is saved. -/
def applySnapshot (n : RawNode) (snapshot : RawSnapshot) : Except Thrown RawNode := do
  let n ← n.rewriteLog stack
    (n.log.installSnapshot snapshot.lastIncludedIndex snapshot.lastIncludedTerm)
  let n ← n.restoreBoardState snapshot.boards
  let n := { n with
    commitIndex := snapshot.lastIncludedIndex
    lastApplied := snapshot.lastIncludedIndex }
  let n ← n.persist stack (.saveSnapshot snapshot)
  n.persistState stack

/-- A node that has only opened its log. -/
def blank (snapshotThreshold : ℕ) (files : RawFiles) : RawNode where
  snapshotThreshold := snapshotThreshold
  currentTerm := 0
  votedFor := none
  state := .follower
  log := RawLog.ofFiles files
  commitIndex := 0
  lastApplied := 0
  boards := []
  files := files
  calls := []

/-- The constructor, on whatever files there are. -/
def construct (snapshotThreshold : ℕ) (files : RawFiles) : Except Thrown RawNode := do
  let n := blank snapshotThreshold files
  let n ← match files.loadSnapshot with
    | some snapshot => do
        let n ← n.restoreBoardState snapshot.boards
        pure { n with lastApplied := snapshot.lastIncludedIndex }
    | none => pure n
  let saved := files.loadState
  applyCommitted stack { n with
    currentTerm := saved.currentTerm
    votedFor := saved.votedFor
    commitIndex := max saved.commitIndex n.log.lastIncludedIndex }

/-! ## What the protocol may do to a node -/

/-- A change of role or term. -/
def setRole (n : RawNode) (state : NodeState) (term : ℕ) (votedFor : Option String) :
    Except Thrown RawNode :=
  { n with state, currentTerm := term, votedFor }.persistState stack

/-- A log cut after its first `keep` entries. -/
def cutLog (n : RawNode) (keep : ℕ) : Except Thrown RawNode :=
  if n.log.entries.length ≤ keep then .ok n
  else n.rewriteLog stack { n.log with entries := n.log.entries.take keep }

/-- A log cut, and continued with other entries. -/
def overwrite (n : RawNode) (keep : ℕ) (entries : List RawEntry) : Except Thrown RawNode := do
  entries.foldlM (appendLog stack) (← n.cutLog stack keep)

end RawNode

/-! ## The cluster -/

/-- Replicas, and what is on its way between them. -/
structure RawCluster where
  replicas : String → RawNode
  /-- the entries that are on their way, in requests and replies -/
  entries : List RawEntry
  snapshots : List RawSnapshot

/-- One turn of one replica; entries and snapshots are picked from those on their way. -/
inductive RawAction
  | setRole (a : String) (state : NodeState) (term : ℕ) (votedFor : Option String)
  | clientWrite (a : String) (stroke : Var)
  | overwrite (a : String) (keep : ℕ) (picks : List ℕ)
  | commit (a : String) (index : ℕ)
  | install (a : String) (pick : ℕ)
  | send (a : String)

/-- The replica whose turn it is. -/
def RawAction.replica : RawAction → String
  | setRole a _ _ _ | clientWrite a _ | overwrite a _ _ | commit a _ | install a _ | send a => a

/-- A turn, a turn cut by a crash, or a restart. -/
inductive RawEvent
  | act (action : RawAction)
  /-- a turn cut by a crash after its first `calls` persistence calls -/
  | crash (action : RawAction) (calls : ℕ)
  /-- a restart, itself cut after `calls` calls and run again -/
  | restart (a : String) (calls : ℕ)

namespace RawCluster

variable (stack : Stack) (threshold : String → ℕ)

/-- A turn; one in which something throws has no outcome, but a write that throws. -/
def turn (c : RawCluster) (action : RawAction) : Except Thrown RawNode :=
  let n := (c.replicas action.replica).beginTurn
  match action with
  | .setRole _ state term votedFor => n.setRole stack state term votedFor
  | .clientWrite _ stroke => .ok (n.handleClientWrite stack stroke).1
  | .overwrite _ keep picks => n.overwrite stack keep (picks.filterMap fun k => c.entries[k]?)
  | .commit _ index => n.advanceCommit stack index
  | .install _ pick =>
      match c.snapshots[pick]? with
      | some snapshot => n.applySnapshot stack snapshot
      | none => .ok n
  | .send _ => .ok n

/-- What a node may put into its messages.  A message that is nested too deep is not sent;
the runs here include those in which it is. -/
def post (c : RawCluster) (n : RawNode) : RawCluster :=
  { c with
    entries := c.entries ++ n.log.entries.map RawEntry.reread
    snapshots := c.snapshots ++ (n.files.loadSnapshot.map RawSnapshot.reread).toList }

/-- What the turn left, and what it sent. -/
def finishTurn (c : RawCluster) (action : RawAction) (n : RawNode) : RawCluster :=
  let c := match action with
    | .send _ => c.post n
    | _ => c
  { c with replicas := Function.update c.replicas action.replica n }

/-- Replica `a` comes up again on `files`. -/
def reboot (c : RawCluster) (a : String) (files : RawFiles) : Option RawCluster :=
  match RawNode.construct stack (threshold a) files with
  | .ok n => some { c with replicas := Function.update c.replicas a n }
  | .error _ => none

/-- An event that throws is no step. -/
def next (c : RawCluster) : RawEvent → Option RawCluster
  | .act action =>
      match c.turn stack action with
      | .ok n => some (c.finishTurn action n)
      | .error _ => none
  | .crash action calls =>
      match c.turn stack action with
      | .ok n => c.reboot stack threshold action.replica
          ((c.replicas action.replica).files.replay (n.calls.take calls))
      | .error _ => none
  | .restart a calls =>
      match RawNode.construct stack (threshold a) (c.replicas a).files with
      | .ok n => c.reboot stack threshold a ((c.replicas a).files.replay (n.calls.take calls))
      | .error _ => none

/-- Every replica has come up on files that do not exist yet. -/
def init (backend : String → Backend) : RawCluster where
  replicas := fun a =>
    match RawNode.construct stack (threshold a) (.fresh (backend a)) with
    | .ok n => n
    | .error _ => .blank (threshold a) (.fresh (backend a))
  entries := []
  snapshots := []

end RawCluster

end QuorumCanvas
