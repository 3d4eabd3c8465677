import Mathlib.Logic.Function.Basic
import Mathlib.Logic.Function.Iterate
import QuorumCanvas.RaftLog

/-!
# One replica

The synchronous parts of `RaftNode`: everything between two `await`s is one
function on the node's state.  The memory of the node and its files move
together; `calls` lists the persistence calls of the turn in progress, so that a
crash in the middle of a turn can be placed after any of them.

`history` and `restored` are history variables, which no code reads.  `history`
lists the entries applied, directly or through a snapshot, each with the index
it was applied at; `restored` is the snapshot the boards were last rebuilt from.
-/

namespace QuorumCanvas

/-- The role of a replica. -/
inductive NodeState
  | follower
  | candidate
  | leader
  deriving DecidableEq

/-- A candidate asks for a vote, and shows the end of its log. -/
structure RequestVoteArgs where
  term : ℕ
  candidateId : String
  lastLogIndex : ℕ
  lastLogTerm : ℕ
  deriving DecidableEq

/-- The vote, with the term of the voter. -/
structure RequestVoteResult where
  term : ℕ
  voteGranted : Bool
  responderId : String
  deriving DecidableEq

/-- Entries from a leader, and the one they follow. -/
structure AppendEntriesArgs where
  term : ℕ
  leaderId : String
  leaderAddr : Option String
  prevLogIndex : ℕ
  prevLogTerm : ℕ
  entries : List LogEntry
  leaderCommit : ℕ
  deriving DecidableEq

/-- Whether they were taken in, and the length of the log now. -/
structure AppendEntriesResult where
  term : ℕ
  success : Bool
  responderId : String
  currentLogLength : ℕ
  deriving DecidableEq

/-- A leader is alive, and this far committed. -/
structure HeartbeatArgs where
  term : ℕ
  leaderId : String
  leaderAddr : Option String
  leaderCommit : ℕ
  deriving DecidableEq

/-- Whether the replica follows its term. -/
structure HeartbeatResult where
  term : ℕ
  success : Bool
  responderId : String
  deriving DecidableEq

/-- A replica asks for the log from an index on. -/
structure SyncLogArgs where
  fromIndex : ℕ
  term : ℕ
  leaderId : String
  deriving DecidableEq

/-- The log from there, or a snapshot. -/
structure SyncLogResult where
  term : ℕ
  entries : List LogEntry
  commitIndex : ℕ
  snapshot : Option Snapshot
  deriving DecidableEq

/-- The message carries a snapshot's fields one by one; they are kept together here. -/
structure InstallSnapshotArgs where
  term : ℕ
  leaderId : String
  snapshot : Snapshot
  deriving DecidableEq

/-- The term of the replica that was sent a snapshot. -/
structure InstallSnapshotResult where
  term : ℕ
  responderId : String
  deriving DecidableEq

/-- `DefaultTimerManager`: whether the election callback is set, the election
timer is armed, and the heartbeat interval is running. -/
structure Timers where
  electionCallback : Bool
  electionTimer : Bool
  heartbeatTimer : Bool
  deriving DecidableEq

namespace Timers

/-- `startElectionTimer` keeps the callback and arms the timer. -/
def startElectionTimer (t : Timers) : Timers :=
  { t with electionCallback := true, electionTimer := true }

/-- `resetElectionTimer` arms the timer again, if there is a callback. -/
def resetElectionTimer (t : Timers) : Timers := { t with electionTimer := t.electionCallback }

/-- `stopElectionTimer` disarms the timer, and keeps the callback. -/
def stopElectionTimer (t : Timers) : Timers := { t with electionTimer := false }

/-- `startHeartbeat` arms the interval. -/
def startHeartbeat (t : Timers) : Timers := { t with heartbeatTimer := true }

/-- `stopHeartbeat` disarms it. -/
def stopHeartbeat (t : Timers) : Timers := { t with heartbeatTimer := false }

end Timers

/-- The fields of `RaftNode`, and the calls it made to its storage in this turn. -/
structure RaftNode where
  replicaId : String
  peers : List String
  selfUrl : String
  snapshotThreshold : ℕ
  batchCap : ℕ
  currentTerm : ℕ
  votedFor : Option String
  log : RaftLog
  state : NodeState
  leaderId : Option String
  leaderAddr : Option String
  commitIndex : ℕ
  lastApplied : ℕ
  nextIndex : String → Option ℕ
  matchIndex : String → Option ℕ
  boards : Boards Stroke
  timers : Timers
  persistence : Persistence
  /-- the persistence calls of the turn in progress -/
  calls : List PersistenceCall
  /-- history variable: the entries applied, each with the index it was applied at -/
  history : List (ℕ × LogEntry)
  /-- history variable: boundary and boards of the snapshot last restored -/
  restored : ℕ × Record

namespace RaftNode

/-- One call of the persistence interface. -/
def persist (n : RaftNode) (call : PersistenceCall) : RaftNode :=
  { n with persistence := n.persistence.run call, calls := n.calls ++ [call] }

/-- A turn begins with no call made. -/
def beginTurn (n : RaftNode) : RaftNode := { n with calls := [] }

/-- Term, vote and commit index, as they are now. -/
def persistState (n : RaftNode) : RaftNode :=
  n.persist (.saveState ⟨n.currentTerm, n.votedFor, n.commitIndex⟩)

/-- The node's own timer. -/
def resetElectionTimer (n : RaftNode) : RaftNode :=
  { n with timers := n.timers.resetElectionTimer }

/-- `RaftLog.append`: in memory, then in the file. -/
def appendLog (n : RaftNode) (entry : LogEntry) : RaftNode :=
  { n with log := n.log.append entry }.persist (.appendLog entry)

/-- `RaftLog.truncateFrom`. -/
def truncateFrom (n : RaftNode) (index : ℕ) : RaftNode :=
  if n.log.inRange index then
    let log := n.log.truncateFrom index
    { n with log }.persist (.rewriteLog log.entries)
  else n

/-- `RaftLog.compact`. -/
def compactLog (n : RaftNode) (uptoIndex term : ℕ) : RaftNode :=
  if uptoIndex ≤ n.log.lastIncludedIndex then n
  else
    let log := n.log.compact uptoIndex term
    { n with log }.persist (.rewriteLog log.entries)

/-- `RaftLog.installSnapshot`. -/
def installLog (n : RaftNode) (lastIncludedIndex lastIncludedTerm : ℕ) : RaftNode :=
  let log := n.log.installSnapshot lastIncludedIndex lastIncludedTerm
  { n with log }.persist (.rewriteLog log.entries)

/-! ## State transitions -/

/-- A leader that steps down stops its heartbeats. -/
def becomeFollower (n : RaftNode) (term : ℕ) (leaderId leaderAddr : Option String) : RaftNode :=
  let wasLeader := n.state = .leader
  let n := { n with
    state := .follower
    currentTerm := term
    votedFor := none
    leaderId := leaderId <|> n.leaderId
    leaderAddr := leaderAddr <|> n.leaderAddr }
  let n := n.persistState
  let n := if wasLeader then { n with timers := n.timers.stopHeartbeat } else n
  n.resetElectionTimer

/-- A candidate votes for itself in the next term. -/
def becomeCandidate (n : RaftNode) : RaftNode :=
  { n with
    state := .candidate
    currentTerm := n.currentTerm + 1
    votedFor := some n.replicaId
    leaderId := none }.persistState

/-- A leader starts behind its own log with every peer. -/
def becomeLeader (n : RaftNode) : RaftNode :=
  let nextIdx := n.log.getLastIndex + 1
  { n with
    state := .leader
    leaderId := some n.replicaId
    leaderAddr := some n.selfUrl
    nextIndex := fun peer => if peer ∈ n.peers then some nextIdx else n.nextIndex peer
    matchIndex := fun peer => if peer ∈ n.peers then some 0 else n.matchIndex peer
    timers := n.timers.stopElectionTimer.startHeartbeat }

/-! ## Applying committed entries, snapshots and compaction -/

/-- One round of the `applyCommitted` loop. -/
def applyNext (n : RaftNode) : RaftNode :=
  let lastApplied := n.lastApplied + 1
  match n.log.getEntry lastApplied with
  | some entry =>
      { n with
        lastApplied
        boards := n.boards.applyBoardEvent entry.stroke
        history := n.history ++ [(lastApplied, entry)] }
  | none => { n with lastApplied }

/-- The object built by `takeSnapshot` from the event lists of the boards. -/
def boardsRecord (boards : Boards Stroke) : Record :=
  boards.foldl (fun record b => record.assign b.1 b.2.events) []

/-- `Object.values(boards)`, event by event. -/
def recordEvents (boards : Record) : List Stroke := boards.flatMap Prod.snd

/-- The snapshot of a node's boards at its commit index. -/
def snapshotHere (n : RaftNode) : Snapshot :=
  ⟨n.commitIndex, n.log.getTermAt n.commitIndex, boardsRecord n.boards, n.history⟩

/-- The snapshot is saved before the log is cut. -/
def takeSnapshot (n : RaftNode) : RaftNode :=
  (n.persist (.saveSnapshot n.snapshotHere)).compactLog n.commitIndex
    (n.log.getTermAt n.commitIndex)

/-- A snapshot is due when enough entries were committed since the last one. -/
def maybeSnapshot (n : RaftNode) : RaftNode :=
  if n.commitIndex - n.log.lastIncludedIndex < n.snapshotThreshold then n else n.takeSnapshot

/-- Entries up to the commit index are applied one by one. -/
def applyCommitted (n : RaftNode) : RaftNode :=
  (applyNext^[n.commitIndex - n.lastApplied] n).maybeSnapshot

/-- `restoreBoardState`, with the history that the snapshot stands for. -/
def restoreBoardState (n : RaftNode) (snapshot : Snapshot) : RaftNode :=
  { n with
    boards := Boards.replay [] (recordEvents snapshot.boards)
    history := snapshot.covered
    restored := (snapshot.lastIncludedIndex, snapshot.boards) }

/-- A snapshot counts as committed and applied. -/
def setBoundary (n : RaftNode) (index : ℕ) : RaftNode :=
  { n with commitIndex := index, lastApplied := index }

/-- The log is rewritten before the snapshot is saved. -/
def applySnapshot (n : RaftNode) (snapshot : Snapshot) : RaftNode :=
  ((((n.installLog snapshot.lastIncludedIndex snapshot.lastIncludedTerm).restoreBoardState
    snapshot).setBoundary snapshot.lastIncludedIndex).persist
      (.saveSnapshot snapshot)).persistState

/-! ## Construction -/

/-- The parameters of the constructor. -/
structure Params where
  replicaId : String
  peers : List String
  selfUrl : String
  snapshotThreshold : ℕ
  batchCap : ℕ

/-- The constructor, on whatever files there are, followed by `start()`. -/
def construct (params : Params) (p : Persistence) : RaftNode :=
  let log := RaftLog.ofPersistence p
  let n : RaftNode :=
    { replicaId := params.replicaId
      peers := params.peers
      selfUrl := params.selfUrl
      snapshotThreshold := params.snapshotThreshold
      batchCap := params.batchCap
      currentTerm := 0
      votedFor := none
      log
      state := .follower
      leaderId := none
      leaderAddr := none
      commitIndex := 0
      lastApplied := 0
      nextIndex := fun _ => none
      matchIndex := fun _ => none
      boards := []
      timers := ⟨false, false, false⟩
      persistence := p
      calls := []
      history := []
      restored := (0, []) }
  let n :=
    match p.loadSnapshot with
    | some snapshot =>
        { n.restoreBoardState snapshot with lastApplied := snapshot.lastIncludedIndex }
    | none => n
  let saved := p.loadState
  let n := { n with
    currentTerm := saved.currentTerm
    votedFor := saved.votedFor
    commitIndex := max saved.commitIndex log.lastIncludedIndex }
  let n := n.applyCommitted
  { n with timers := n.timers.startElectionTimer }

/-! ## Elections -/

/-- `Math.floor((peers.length + 1) / 2) + 1`. -/
def majority (n : RaftNode) : ℕ := (n.peers.length + 1) / 2 + 1

/-- What a candidate sends to each peer. -/
def requestVoteArgs (n : RaftNode) : RequestVoteArgs :=
  ⟨n.currentTerm, n.replicaId, n.log.getLastIndex, n.log.getLastTerm⟩

/-- The later last term wins, then the longer log. -/
def isLogUpToDate (n : RaftNode) (candidateLastIndex candidateLastTerm : ℕ) : Bool :=
  if candidateLastTerm ≠ n.log.getLastTerm then n.log.getLastTerm < candidateLastTerm
  else n.log.getLastIndex ≤ candidateLastIndex

/-- One vote a term, to a candidate whose log is as good. -/
def handleRequestVote (n : RaftNode) (args : RequestVoteArgs) : RaftNode × RequestVoteResult :=
  let n := if n.currentTerm < args.term then n.becomeFollower args.term none none else n
  let canVote :=
    decide (n.currentTerm ≤ args.term) &&
    (n.votedFor = none || n.votedFor = some args.candidateId) &&
    n.isLogUpToDate args.lastLogIndex args.lastLogTerm
  let n :=
    if canVote then
      { n with
        votedFor := some args.candidateId
        currentTerm := args.term }.persistState.resetElectionTimer
    else n
  (n, ⟨n.currentTerm, canVote, n.replicaId⟩)

/-! ## Replication, follower side -/

/-- What every message of a leader does first: step down, or just note the leader. -/
def hearLeader (n : RaftNode) (term : ℕ) (leaderId : String) (leaderAddr : Option String) :
    RaftNode :=
  if n.currentTerm < term ∨ n.state ≠ .follower then
    n.becomeFollower term (some leaderId) leaderAddr
  else
    { n with
      leaderId := some leaderId
      leaderAddr := leaderAddr <|> n.leaderAddr }.resetElectionTimer

/-- The consistency check of `handleAppendEntries`. -/
def consistent (n : RaftNode) (args : AppendEntriesArgs) : Bool :=
  let lastIncluded := n.log.lastIncludedIndex
  if lastIncluded < args.prevLogIndex then
    match n.log.getEntry args.prevLogIndex with
    | some prevEntry => prevEntry.term = args.prevLogTerm
    | none => false
  else if args.prevLogIndex = lastIncluded ∧ 0 < lastIncluded then
    n.log.lastIncludedTerm = args.prevLogTerm
  else true

/-- `existing && existing.term !== entry.term`. -/
def conflicts (n : RaftNode) (entry : LogEntry) : Bool :=
  (n.log.getEntry entry.index).any fun existing => existing.term ≠ entry.term

/-- An entry of another term, and all behind it, give way. -/
def dropConflict (n : RaftNode) (entry : LogEntry) : RaftNode :=
  if n.conflicts entry then n.truncateFrom entry.index else n

/-- An entry that is there already is left alone. -/
def appendMissing (n : RaftNode) (entry : LogEntry) : RaftNode :=
  if (n.log.getEntry entry.index).isNone then n.appendLog entry else n

/-- One incoming entry: drop a conflicting tail, then append what is missing.
`none` when the entry conflicts with a committed one. -/
def spliceEntry (n : RaftNode) (entry : LogEntry) : Option RaftNode :=
  if n.conflicts entry ∧ entry.index ≤ n.commitIndex then none
  else some ((n.dropConflict entry).appendMissing entry)

/-- The append loop of `handleAppendEntries`; `false` when it gave up on a
conflict with a committed entry. -/
def appendEntriesLoop (lastIncluded : ℕ) : RaftNode → List LogEntry → RaftNode × Bool
  | n, [] => (n, true)
  | n, entry :: rest =>
      if entry.index ≤ lastIncluded then appendEntriesLoop lastIncluded n rest
      else
        match n.spliceEntry entry with
        | some n => appendEntriesLoop lastIncluded n rest
        | none => (n, false)

/-- Set the commit index, save it, and apply what it covers. -/
def advanceCommit (n : RaftNode) (index : ℕ) : RaftNode :=
  { n with commitIndex := index }.persistState.applyCommitted

/-- Follow the leader's commit index as far as the log reaches. -/
def followCommit (n : RaftNode) (leaderCommit : ℕ) : RaftNode :=
  if n.commitIndex < leaderCommit then
    n.advanceCommit (min leaderCommit n.log.getLastIndex)
  else n

/-- The answer to an append. -/
def appendEntriesResult (n : RaftNode) (success : Bool) : AppendEntriesResult :=
  ⟨n.currentTerm, success, n.replicaId, n.log.getLength⟩

/-- A leader of no earlier term is heard even when its entries do not fit. -/
def handleAppendEntries (n : RaftNode) (args : AppendEntriesArgs) :
    RaftNode × AppendEntriesResult :=
  if args.term < n.currentTerm then (n, n.appendEntriesResult false)
  else
    let n := n.hearLeader args.term args.leaderId args.leaderAddr
    if n.consistent args then
      match n.appendEntriesLoop n.log.lastIncludedIndex args.entries with
      | (n, true) =>
          let n := n.followCommit args.leaderCommit
          (n, n.appendEntriesResult true)
      | (n, false) => (n, n.appendEntriesResult false)
    else (n, n.appendEntriesResult false)

/-- The commit index is followed without a look at the log. -/
def handleHeartbeat (n : RaftNode) (args : HeartbeatArgs) : RaftNode × HeartbeatResult :=
  if args.term < n.currentTerm then (n, ⟨n.currentTerm, false, n.replicaId⟩)
  else
    let n := n.hearLeader args.term args.leaderId args.leaderAddr
    let n := n.followCommit args.leaderCommit
    (n, ⟨n.currentTerm, true, n.replicaId⟩)

/-- A snapshot that is not ahead of the commit index changes nothing. -/
def handleInstallSnapshot (n : RaftNode) (args : InstallSnapshotArgs) :
    RaftNode × InstallSnapshotResult :=
  if args.term < n.currentTerm then (n, ⟨n.currentTerm, n.replicaId⟩)
  else
    let n := n.hearLeader args.term args.leaderId none
    let n :=
      if args.snapshot.lastIncludedIndex ≤ n.commitIndex then n
      else n.applySnapshot args.snapshot
    (n, ⟨n.currentTerm, n.replicaId⟩)

/-! ## Replication, leader side -/

/-- How many replicas are known to hold index `n`, the node itself included. -/
def replicatedCount (n : RaftNode) (index : ℕ) : ℕ :=
  1 + n.peers.countP fun peer => index ≤ (n.matchIndex peer).getD 0

/-- The scan of `updateCommitIndex`, from `index` downwards. -/
def commitCandidate (n : RaftNode) : ℕ → Option ℕ
  | 0 => none
  | index + 1 =>
      if index + 1 ≤ n.commitIndex then none
      else if ((n.log.getEntry (index + 1)).any fun e => e.term = n.currentTerm) ∧
          n.majority ≤ n.replicatedCount (index + 1) then some (index + 1)
      else n.commitCandidate index

/-- A leader commits the highest index that the scan finds. -/
def updateCommitIndex (n : RaftNode) : RaftNode :=
  match n.commitCandidate n.log.getLastIndex with
  | some index => n.advanceCommit index
  | none => n

/-- The requests a node sends to its peers. -/
inductive Request
  | requestVote (args : RequestVoteArgs)
  | appendEntries (args : AppendEntriesArgs)
  | heartbeat (args : HeartbeatArgs)
  | syncLog (args : SyncLogArgs)
  | installSnapshot (args : InstallSnapshotArgs)
  deriving DecidableEq

/-- The five answers. -/
inductive Reply
  | requestVote (result : RequestVoteResult)
  | appendEntries (result : AppendEntriesResult)
  | heartbeat (result : HeartbeatResult)
  | syncLog (result : SyncLogResult)
  | installSnapshot (result : InstallSnapshotResult)
  deriving DecidableEq

/-- The request `replicateOnce` sends to a peer, if any: the next slice of the
log, or the snapshot when the slice has been compacted away. -/
def replicateRequest (n : RaftNode) (peer : String) : Option Request :=
  if n.state ≠ .leader then none
  else
    let nextIdx := (n.nextIndex peer).getD (n.log.getLastIndex + 1)
    if nextIdx ≤ n.log.lastIncludedIndex then
      n.persistence.loadSnapshot.map fun snapshot =>
        .installSnapshot ⟨n.currentTerm, n.replicaId, snapshot⟩
    else
      some (.appendEntries
        { term := n.currentTerm
          leaderId := n.replicaId
          leaderAddr := some n.selfUrl
          prevLogIndex := nextIdx - 1
          prevLogTerm := n.log.getTermAt (nextIdx - 1)
          entries := (n.log.getEntriesFrom nextIdx).take n.batchCap
          leaderCommit := n.commitIndex })

/-- The cursor of one peer. -/
def setNextIndex (n : RaftNode) (peer : String) (index : ℕ) : RaftNode :=
  { n with nextIndex := Function.update n.nextIndex peer (some index) }

/-- What one peer is known to match. -/
def setMatchIndex (n : RaftNode) (peer : String) (index : ℕ) : RaftNode :=
  { n with matchIndex := Function.update n.matchIndex peer (some index) }

/-- `replicateOnce` after its `appendEntries` call; `nextIdx` is `prevLogIndex + 1`. -/
def onAppendEntriesReply (n : RaftNode) (peer : String) (args : AppendEntriesArgs)
    (result : AppendEntriesResult) : RaftNode :=
  if n.currentTerm < result.term then n.becomeFollower result.term none none
  else if result.success then
    if 0 < args.entries.length then
      (n.setNextIndex peer (args.prevLogIndex + 1 + args.entries.length)).setMatchIndex peer
        (args.prevLogIndex + args.entries.length)
    else n.setMatchIndex peer (max ((n.matchIndex peer).getD 0) args.prevLogIndex)
  else n.setNextIndex peer (max 1 (result.currentLogLength + 1))

/-- `sendInstallSnapshot` after its `installSnapshot` call. -/
def onInstallSnapshotReply (n : RaftNode) (peer : String) (args : InstallSnapshotArgs)
    (result : InstallSnapshotResult) : RaftNode :=
  if n.currentTerm < result.term then n.becomeFollower result.term none none
  else
    (n.setNextIndex peer (args.snapshot.lastIncludedIndex + 1)).setMatchIndex peer
      args.snapshot.lastIncludedIndex

/-! ## Client writes -/

/-- The entry `handleClientWrite` creates. -/
def clientEntry (n : RaftNode) (stroke : Stroke) : LogEntry :=
  ⟨n.log.getLastIndex + 1, n.currentTerm, stroke⟩

/-- `handleClientWrite` up to its first `await`. -/
def clientAppend (n : RaftNode) (stroke : Stroke) : RaftNode :=
  (n.appendLog (n.clientEntry stroke)).setMatchIndex n.replicaId (n.clientEntry stroke).index

/-! ## Catch-up -/

/-- A snapshot is served in place of entries that are gone. -/
def handleSyncLog (n : RaftNode) (args : SyncLogArgs) : RaftNode × SyncLogResult :=
  let n := if n.currentTerm < args.term then n.becomeFollower args.term none none else n
  let served :=
    if args.fromIndex ≤ n.log.lastIncludedIndex then n.persistence.loadSnapshot else none
  match served with
  | some snapshot => (n, ⟨n.currentTerm, [], n.commitIndex, some snapshot⟩)
  | none =>
      (n, ⟨n.currentTerm,
        (n.log.getEntriesFrom args.fromIndex).filter fun e => e.index ≤ n.commitIndex,
        n.commitIndex, none⟩)

/-- The leader if its address is known, else every peer. -/
def catchUpTargets (n : RaftNode) : List String :=
  match n.leaderAddr with
  | some addr => if addr = "" then n.peers else [addr]
  | none => n.peers

/-- A replica asks for what follows its last entry. -/
def syncLogArgs (n : RaftNode) : SyncLogArgs :=
  ⟨n.log.getLastIndex + 1, n.currentTerm, n.leaderId.getD ""⟩

/-- The splice loop of `requestCatchUp`: as in `handleAppendEntries`, but a
conflict with a committed entry is skipped. -/
def catchUpLoop (lastIncluded : ℕ) : RaftNode → List LogEntry → RaftNode
  | n, [] => n
  | n, entry :: rest =>
      if entry.index ≤ lastIncluded then catchUpLoop lastIncluded n rest
      else catchUpLoop lastIncluded ((n.spliceEntry entry).getD n) rest

/-- Install the snapshot of a reply when it is ahead of the commit index. -/
def catchUpSnapshot (n : RaftNode) (snapshot : Option Snapshot) : RaftNode :=
  match snapshot with
  | some snapshot =>
      if n.commitIndex < snapshot.lastIncludedIndex then n.applySnapshot snapshot else n
  | none => n

/-- `requestCatchUp` after its `syncLog` call. -/
def onSyncLogReply (n : RaftNode) (result : SyncLogResult) : RaftNode :=
  let n := if n.currentTerm < result.term then n.becomeFollower result.term none none else n
  let n := n.catchUpSnapshot result.snapshot
  let committedEntries := result.entries.filter fun e => e.index ≤ result.commitIndex
  let n := n.catchUpLoop n.log.lastIncludedIndex committedEntries
  n.followCommit result.commitIndex

/-! ## Reads -/

/-- What a leader sends to each peer. -/
def heartbeatArgs (n : RaftNode) : HeartbeatArgs :=
  ⟨n.currentTerm, n.replicaId, some n.selfUrl, n.commitIndex⟩

/-- The loop of `confirmLeadership` over the settled heartbeats, in peer order;
`none` when one of them reports a higher term. -/
def countAcks : RaftNode → ℕ → List (Option HeartbeatResult) → RaftNode × Option ℕ
  | n, acks, [] => (n, some acks)
  | n, acks, none :: rest => n.countAcks acks rest
  | n, acks, some r :: rest =>
      if n.currentTerm < r.term then (n.becomeFollower r.term none none, none)
      else n.countAcks (if r.success then acks + 1 else acks) rest

/-- `confirmLeadership` after its heartbeats have settled. -/
def confirmLeadership (n : RaftNode) (term : ℕ) (results : List (Option HeartbeatResult)) :
    RaftNode × Bool :=
  match n.countAcks 1 results with
  | (n, some acks) =>
      (n, decide (n.state = .leader) && decide (n.currentTerm = term) && decide (n.majority ≤ acks))
  | (n, none) => (n, false)

/-- The entry applied at an index. -/
def appliedAt (n : RaftNode) (index : ℕ) : Option LogEntry :=
  (n.history.find? fun applied => applied.1 = index).map Prod.snd

/-- The strokes of a board. -/
def getStrokes (n : RaftNode) (boardId : String) : List Stroke := n.boards.getStrokes boardId

/-! ## Routing -/

/-- `createRpcRouter`: the handler of each request. -/
def handle (n : RaftNode) : Request → RaftNode × Reply
  | .requestVote args => let (n, r) := n.handleRequestVote args; (n, .requestVote r)
  | .appendEntries args => let (n, r) := n.handleAppendEntries args; (n, .appendEntries r)
  | .heartbeat args => let (n, r) := n.handleHeartbeat args; (n, .heartbeat r)
  | .syncLog args => let (n, r) := n.handleSyncLog args; (n, .syncLog r)
  | .installSnapshot args => let (n, r) := n.handleInstallSnapshot args; (n, .installSnapshot r)

end RaftNode

end QuorumCanvas
