import QuorumCanvas.RaftNode
import QuorumCanvas.Runs

/-!
# The cluster: replicas, their suspended calls, and the network

A replica is a node together with its suspended asynchronous calls.  One *turn*
is what runs between two `await`s: a timer or a client's call, the delivery of a
request, or the resumption of a suspended call.  The network never forgets a
request or a reply, so a request may be delivered late, never, or several times,
while the caller's promise settles at most once, with any reply made so far or
with an error.  A crash loses the memory and the suspended calls of a replica
and keeps its files, as any prefix of the persistence calls of the turn it cuts.

Timers are free: an election timeout, a heartbeat or a catch-up may happen at
any time.  That allows more runs than the code has; where runs have to exist,
`TimedRuns` lets timers fire only while they are armed.
-/

namespace QuorumCanvas

/-- A request on its way.  `rpc` identifies the caller's promise. -/
structure Packet where
  rpc : ℕ
  src : String
  dst : String
  request : RaftNode.Request
  deriving DecidableEq

/-- The answer to a client's call. -/
inductive Response
  | write (success : Bool) (leaderHint : Option String)
  | read (strokes : Option (List Stroke)) (leaderHint : Option String)
  deriving DecidableEq

/-- A `runElection` and the variables its callbacks share. -/
structure Election where
  term : ℕ
  votesGranted : ℕ
  pendingReplies : ℕ
  settled : Bool
  /-- promises not yet settled, with the peer asked -/
  awaiting : List (ℕ × String)
  /-- `then` or `catch` has run, `finally` has not -/
  closing : ℕ
  /-- history variable: the peers whose grants were counted -/
  voters : List String

/-- A `replicateOnce`: waiting for its reply, or finished and about to be
removed from `replicating`. -/
structure Send where
  promise : ℕ
  peer : String
  waiting : Option (ℕ × RaftNode.Request)

/-- A `handleClientWrite` waiting for the replications it has driven. -/
structure Write where
  id : ℕ
  entry : LogEntry
  attempt : ℕ
  waiting : List ℕ

/-- A `requestCatchUp` waiting for the reply of one target. -/
structure CatchUp where
  rpc : ℕ
  remaining : List String

/-- A `readBoardState` waiting for the heartbeats of `confirmLeadership`: for
each peer the promise, and how it settled.  `confirmed` is what
`confirmLeadership` returned, once it has. -/
structure Read where
  id : ℕ
  boardId : String
  term : ℕ
  heartbeats : List (ℕ × Option (Option HeartbeatResult))
  confirmed : Option Bool

/-- A node with its suspended calls. -/
structure Replica where
  node : RaftNode
  elections : List Election
  replicating : String → Option ℕ
  sends : List Send
  rounds : List (List ℕ)
  writes : List Write
  catchUps : List CatchUp
  reads : List Read

/-- A freshly constructed node. -/
def Replica.boot (params : RaftNode.Params) (p : Persistence) : Replica where
  node := .construct params p
  elections := []
  replicating := fun _ => none
  sends := []
  rounds := []
  writes := []
  catchUps := []
  reads := []

/-- A turn of one replica in progress: its state and what it has sent. -/
structure Turn where
  replica : Replica
  fresh : ℕ
  sent : List Packet
  replied : List (ℕ × RaftNode.Reply)
  responses : List (ℕ × Response)

namespace Turn

open RaftNode (Request Reply)

/-- The turn has come to this node. -/
def setNode (t : Turn) (node : RaftNode) : Turn :=
  { t with replica := { t.replica with node } }

/-- Elections that are open or settled. -/
def setElections (t : Turn) (elections : List Election) : Turn :=
  { t with replica := { t.replica with elections } }

/-- Slots and calls of `replicate`. -/
def setSends (t : Turn) (replicating : String → Option ℕ) (sends : List Send) : Turn :=
  { t with replica := { t.replica with replicating, sends } }

/-- Rounds of heartbeats that have not settled. -/
def setRounds (t : Turn) (rounds : List (List ℕ)) : Turn :=
  { t with replica := { t.replica with rounds } }

/-- Calls of `handleClientWrite` that wait. -/
def setWrites (t : Turn) (writes : List Write) : Turn :=
  { t with replica := { t.replica with writes } }

/-- Catch-ups that wait. -/
def setCatchUps (t : Turn) (catchUps : List CatchUp) : Turn :=
  { t with replica := { t.replica with catchUps } }

/-- Reads that have not been answered. -/
def setReads (t : Turn) (reads : List Read) : Turn :=
  { t with replica := { t.replica with reads } }

/-- Take the number `t.fresh`. -/
def number (t : Turn) : Turn := { t with fresh := t.fresh + 1 }

/-- A client is answered. -/
def respond (t : Turn) (id : ℕ) (response : Response) : Turn :=
  { t with responses := t.responses ++ [(id, response)] }

/-- Send a request; its promise is the next fresh number. -/
def send (t : Turn) (dst : String) (request : Request) : Turn :=
  { t with
    fresh := t.fresh + 1
    sent := t.sent ++ [⟨t.fresh, t.replica.node.selfUrl, dst, request⟩] }

/-- Send the same request to several peers. -/
def sendAll (t : Turn) (request : Request) : List String → Turn
  | [] => t
  | peer :: peers => (t.send peer request).sendAll request peers

/-- The promises of `sendAll`, in order. -/
def promises (t : Turn) (peers : List String) : List ℕ :=
  List.range' t.fresh peers.length

/-! ## Elections -/

/-- `finalizeElection`. -/
def finalize (n : RaftNode) (e : Election) : RaftNode × Election :=
  if e.settled then (n, e)
  else
    let n :=
      if n.state = .candidate ∧ n.currentTerm = e.term then
        if n.majority ≤ e.votesGranted then n.becomeLeader else n.resetElectionTimer
      else n
    (n, { e with settled := true })

/-- The variables of a `runElection` of `n` that asks every peer. -/
def newElection (t : Turn) (n : RaftNode) : Election where
  term := n.currentTerm
  votesGranted := 1
  pendingReplies := n.peers.length
  settled := false
  awaiting := (t.promises n.peers).zip n.peers
  closing := 0
  voters := []

/-- With no peer to ask, the election is finalized before any request goes out. -/
def openElection (t : Turn) (n : RaftNode) : RaftNode × Election :=
  if n.peers = [] then finalize n (t.newElection n) else (n, t.newElection n)

/-- `runElection` up to its `await`. -/
def runElection (t : Turn) : Turn :=
  let n := t.replica.node.becomeCandidate
  let (node, election) := t.openElection n
  ((t.setNode node).setElections (t.replica.elections ++ [election])).sendAll
    (.requestVote n.requestVoteArgs) n.peers

/-- The `then` callback of a vote. -/
def onVote (n : RaftNode) (e : Election) (peer : String) (reply : RequestVoteResult) :
    RaftNode × Election :=
  if e.settled ∨ n.state ≠ .candidate ∨ n.currentTerm ≠ e.term then (n, e)
  else if n.currentTerm < reply.term then
    finalize (n.becomeFollower reply.term none none) e
  else if reply.voteGranted then
    let e := { e with votesGranted := e.votesGranted + 1, voters := e.voters ++ [peer] }
    if n.majority ≤ e.votesGranted then finalize n e else (n, e)
  else (n, e)

/-- Promise `rpc` of an election has settled. -/
def closeVote (e : Election) (rpc : ℕ) : Election :=
  { e with
    awaiting := e.awaiting.filter fun p => p.1 ≠ rpc
    closing := e.closing + 1 }

/-- The `then` and `catch` callbacks of a vote. -/
def onVoteOutcome (n : RaftNode) (e : Election) (peer : String) :
    Option RequestVoteResult → RaftNode × Election
  | some reply => onVote n e peer reply
  | none => (n, e)

/-- The promise `rpc` of election `k` settles, with a reply or an error. -/
def voteReply (t : Turn) (k rpc : ℕ) (outcome : Option RequestVoteResult) : Option Turn := do
  let e ← t.replica.elections[k]?
  let (_, peer) ← e.awaiting.find? fun p => p.1 = rpc
  let (node, e) := onVoteOutcome t.replica.node (closeVote e rpc) peer outcome
  return (t.setNode node).setElections (t.replica.elections.set k e)

/-- The `finally` callback of a vote. -/
def onVoteSettled (n : RaftNode) (e : Election) : RaftNode × Election :=
  let e := { e with closing := e.closing - 1, pendingReplies := e.pendingReplies - 1 }
  if e.pendingReplies = 0 then finalize n e else (n, e)

/-- A `finally` callback of election `k`. -/
def voteFinally (t : Turn) (k : ℕ) : Option Turn := do
  let e ← t.replica.elections[k]?
  guard (0 < e.closing)
  let (node, e) := onVoteSettled t.replica.node e
  return (t.setNode node).setElections (t.replica.elections.set k e)

/-! ## Replication -/

/-- `driveReplication`, up to the point where it returns a promise. -/
def driveReplication (t : Turn) (peer : String) : Turn × ℕ :=
  match t.replica.replicating peer with
  | some promise => (t, promise)
  | none =>
      let promise := t.fresh
      let t := t.number
      let request := t.replica.node.replicateRequest peer
      let send : Send := ⟨promise, peer, request.map fun request => (t.fresh, request)⟩
      let t := t.setSends (Function.update t.replica.replicating peer (some promise))
        (t.replica.sends ++ [send])
      match request with
      | some request => (t.send peer request, promise)
      | none => (t, promise)

/-- `this.peers.map((peer) => this.driveReplication(peer))`. -/
def driveAll (t : Turn) : List String → Turn × List ℕ
  | [] => (t, [])
  | peer :: peers =>
      let (t, promise) := t.driveReplication peer
      let (t, promises) := t.driveAll peers
      (t, promise :: promises)

/-- None of these replications is still running. -/
def Settled (t : Turn) (promises : List ℕ) : Prop :=
  ∀ send ∈ t.replica.sends, send.promise ∉ promises

instance (t : Turn) (promises : List ℕ) : Decidable (t.Settled promises) := by
  unfold Settled; infer_instance

/-- `sendHeartbeats` up to its `await`. -/
def sendHeartbeats (t : Turn) : Turn :=
  if t.replica.node.state ≠ .leader then t
  else
    let (t, promises) := t.driveAll t.replica.node.peers
    t.setRounds (t.replica.rounds ++ [promises])

/-- The rest of `sendHeartbeats`. -/
def resumeRound (t : Turn) (k : ℕ) : Turn :=
  let t := t.setRounds (t.replica.rounds.eraseIdx k)
  if t.replica.node.state = .leader then t.setNode t.replica.node.updateCommitIndex else t

/-- The replications of round `k` have settled. -/
def roundResume (t : Turn) (k : ℕ) : Option Turn := do
  let promises ← t.replica.rounds[k]?
  guard (t.Settled promises)
  return t.resumeRound k

/-- What `replicateOnce` does with the outcome of its RPC; an error changes nothing. -/
def onSendReply (n : RaftNode) (peer : String) : Request → Option Reply → RaftNode
  | .appendEntries args, some (.appendEntries result) => n.onAppendEntriesReply peer args result
  | .installSnapshot args, some (.installSnapshot result) =>
      n.onInstallSnapshotReply peer args result
  | _, _ => n

/-- The RPC of replication `k` settles. -/
def sendReply (t : Turn) (k : ℕ) (outcome : Option Reply) : Option Turn := do
  let send ← t.replica.sends[k]?
  let (_, request) ← send.waiting
  return (t.setNode (onSendReply t.replica.node send.peer request outcome)).setSends
    t.replica.replicating (t.replica.sends.set k { send with waiting := none })

/-- The `finally` of replication `k`. -/
def sendFinally (t : Turn) (k : ℕ) : Option Turn := do
  let send ← t.replica.sends[k]?
  guard send.waiting.isNone
  return t.setSends (Function.update t.replica.replicating send.peer none)
    (t.replica.sends.eraseIdx k)

/-! ## Client writes -/

/-- `handleClientWrite` up to its first `await`; the answer to a refused write
is immediate. -/
def clientWrite (t : Turn) (stroke : Stroke) : Turn :=
  let id := t.fresh
  let t := t.number
  let n := t.replica.node
  if n.state ≠ .leader then t.respond id (.write false n.leaderAddr)
  else
    let (t, promises) := (t.setNode (n.clientAppend stroke)).driveAll n.peers
    t.setWrites (t.replica.writes ++ [⟨id, n.clientEntry stroke, 0, promises⟩])

/-- A round of the retry loop after its `await`, and what follows the loop. -/
def resumeWrite (t : Turn) (k : ℕ) (w : Write) : Turn :=
  let done := t.setWrites (t.replica.writes.eraseIdx k)
  let n := t.replica.node
  if n.state ≠ .leader then done.respond w.id (.write false n.leaderAddr)
  else if n.majority ≤ n.replicatedCount w.entry.index then
    (done.setNode n.updateCommitIndex).respond w.id (.write true none)
  else if w.attempt + 1 < 3 then
    let (t, promises) := t.driveAll n.peers
    t.setWrites (t.replica.writes.set k { w with attempt := w.attempt + 1, waiting := promises })
  else done.respond w.id (.write false none)

/-- The replications that write `k` waits for have settled. -/
def writeResume (t : Turn) (k : ℕ) : Option Turn := do
  let w ← t.replica.writes[k]?
  guard (t.Settled w.waiting)
  return t.resumeWrite k w

/-! ## Catch-up -/

/-- Ask the next target, if there is one. -/
def askCatchUp (t : Turn) : List String → Turn × Option CatchUp
  | [] => (t, none)
  | target :: remaining =>
      (t.send target (.syncLog t.replica.node.syncLogArgs), some ⟨t.fresh, remaining⟩)

/-- `requestCatchUp` up to its first `await`. -/
def requestCatchUp (t : Turn) : Turn :=
  if t.replica.node.state ≠ .follower then t
  else
    let (t, task) := t.askCatchUp t.replica.node.catchUpTargets
    t.setCatchUps (t.replica.catchUps ++ task.toList)

/-- What follows the RPC of a catch-up: a reply ends it, an error moves on. -/
def resumeCatchUp (t : Turn) (k : ℕ) (task : CatchUp) (outcome : Option SyncLogResult) : Turn :=
  let t := t.setCatchUps (t.replica.catchUps.eraseIdx k)
  match outcome with
  | some result => t.setNode (t.replica.node.onSyncLogReply result)
  | none =>
      let (t, task) := t.askCatchUp task.remaining
      t.setCatchUps (t.replica.catchUps ++ task.toList)

/-- The RPC of catch-up `k` settles. -/
def catchUpReply (t : Turn) (k : ℕ) (outcome : Option SyncLogResult) : Option Turn := do
  let task ← t.replica.catchUps[k]?
  return t.resumeCatchUp k task outcome

/-! ## Reads -/

/-- `readBoardState` up to the `await` in `confirmLeadership`. -/
def readBoardState (t : Turn) (boardId : String) : Turn :=
  let id := t.fresh
  let t := t.number
  let n := t.replica.node
  if n.state ≠ .leader then t.respond id (.read none n.leaderAddr)
  else
    let read : Read :=
      ⟨id, boardId, n.currentTerm, (t.promises n.peers).map fun rpc => (rpc, none), none⟩
    (t.setReads (t.replica.reads ++ [read])).sendAll (.heartbeat n.heartbeatArgs) n.peers

/-- Promise `rpc` of a read has settled. -/
def closeHeartbeat (r : Read) (rpc : ℕ) (outcome : Option HeartbeatResult) : Read :=
  { r with heartbeats := r.heartbeats.map fun h => if h.1 = rpc then (rpc, some outcome) else h }

/-- A heartbeat of read `k` settles. -/
def readReply (t : Turn) (k rpc : ℕ) (outcome : Option HeartbeatResult) : Option Turn := do
  let r ← t.replica.reads[k]?
  guard ((rpc, none) ∈ r.heartbeats)
  return t.setReads (t.replica.reads.set k (closeHeartbeat r rpc outcome))

/-- `confirmLeadership` after its `await`. -/
def resumeRead (t : Turn) (k : ℕ) (r : Read) : Turn :=
  let (n, confirmed) :=
    t.replica.node.confirmLeadership r.term (r.heartbeats.map fun h => h.2.join)
  (t.setNode n).setReads (t.replica.reads.set k { r with confirmed := some confirmed })

/-- All heartbeats of read `k` have settled. -/
def readResume (t : Turn) (k : ℕ) : Option Turn := do
  let r ← t.replica.reads[k]?
  guard (r.confirmed.isNone ∧ r.heartbeats.all fun h => h.2.isSome)
  return t.resumeRead k r

/-- `readBoardState` after its `await`. -/
def finishRead (t : Turn) (k : ℕ) (r : Read) (confirmed : Bool) : Turn :=
  let n := t.replica.node
  (t.setReads (t.replica.reads.eraseIdx k)).respond r.id (
    if confirmed then .read (some (n.getStrokes r.boardId)) none
    else .read none n.leaderAddr)

/-- `confirmLeadership` of read `k` has returned. -/
def readFinish (t : Turn) (k : ℕ) : Option Turn := do
  let r ← t.replica.reads[k]?
  let confirmed ← r.confirmed
  return t.finishRead k r confirmed

/-! ## Delivery -/

/-- A request reaches its target, which answers it at once. -/
def deliver (t : Turn) (packet : Packet) : Turn :=
  let (node, reply) := t.replica.node.handle packet.request
  { t.setNode node with replied := t.replied ++ [(packet.rpc, reply)] }

end Turn

/-- Who takes part, and how each replica is set up.  A replica is known to its
peers, and advertises itself, by its address. -/
structure Config where
  members : List String
  replicaId : String → String
  peers : String → List String
  snapshotThreshold : String → ℕ
  batchCap : String → ℕ
  /-- files for a replica that has a `DATA_DIR`, memory for one that has none -/
  backend : String → Backend
  members_nodup : members.Nodup
  replicaId_inj : ∀ a ∈ members, ∀ b ∈ members, replicaId a = replicaId b → a = b
  peers_nodup : ∀ a ∈ members, (peers a).Nodup
  mem_peers : ∀ a ∈ members, ∀ b, b ∈ peers a ↔ b ∈ members ∧ b ≠ a

/-- What the replica's constructor is given. -/
def Config.params (cfg : Config) (a : String) : RaftNode.Params :=
  ⟨cfg.replicaId a, cfg.peers a, a, cfg.snapshotThreshold a, cfg.batchCap a⟩

/-- Every replica has a `DATA_DIR`. -/
class Config.OnFiles (cfg : Config) : Prop where
  backend : ∀ a ∈ cfg.members, cfg.backend a = .file

/-- The replicas, and everything that was ever sent between them or answered. -/
structure Cluster where
  replicas : String → Replica
  wire : List Packet
  replies : List (ℕ × RaftNode.Reply)
  responses : List (ℕ × Response)
  nextId : ℕ

/-- One turn of one replica. -/
inductive Action
  | electionTimeout (a : String)
  | voteReply (a : String) (k rpc : ℕ) (outcome : Option RequestVoteResult)
  | voteFinally (a : String) (k : ℕ)
  | sendHeartbeats (a : String)
  | roundResume (a : String) (k : ℕ)
  | sendReply (a : String) (k : ℕ) (outcome : Option RaftNode.Reply)
  | sendFinally (a : String) (k : ℕ)
  | clientWrite (a : String) (stroke : Stroke)
  | writeResume (a : String) (k : ℕ)
  | requestCatchUp (a : String)
  | catchUpReply (a : String) (k : ℕ) (outcome : Option SyncLogResult)
  | readBoardState (a : String) (boardId : String)
  | readReply (a : String) (k rpc : ℕ) (outcome : Option HeartbeatResult)
  | readResume (a : String) (k : ℕ)
  | readFinish (a : String) (k : ℕ)
  | deliver (packet : Packet)
  deriving DecidableEq

/-- The replica whose turn it is. -/
def Action.replica : Action → String
  | electionTimeout a | voteReply a _ _ _ | voteFinally a _ | sendHeartbeats a
  | roundResume a _ | sendReply a _ _ | sendFinally a _ | clientWrite a _ | writeResume a _
  | requestCatchUp a | catchUpReply a _ _ | readBoardState a _ | readReply a _ _ _
  | readResume a _ | readFinish a _ => a
  | deliver packet => packet.dst

/-- The actions that step an election. -/
def Action.Votes : Action → Prop
  | electionTimeout _ | voteReply _ _ _ _ | voteFinally _ _ => True
  | _ => False

namespace Cluster

open RaftNode (Reply)

/-- The turn of a replica as it starts. -/
def startTurn (c : Cluster) (a : String) : Turn where
  replica := { c.replicas a with node := (c.replicas a).node.beginTurn }
  fresh := c.nextId
  sent := []
  replied := []
  responses := []

/-- A promise may reject at any time, or fulfil with a reply that was made to it. -/
def Possible (c : Cluster) (rpc : ℕ) (outcome : Option Reply) : Prop :=
  match outcome with
  | some reply => (rpc, reply) ∈ c.replies
  | none => True

instance (c : Cluster) (rpc : ℕ) (outcome : Option Reply) : Decidable (c.Possible rpc outcome) := by
  unfold Possible; split <;> infer_instance

/-- What one turn does to its replica, when it is possible at all. -/
def turn (c : Cluster) (action : Action) : Option Turn :=
  let t := c.startTurn action.replica
  match action with
  | .electionTimeout _ => if t.replica.node.state = .leader then some t else some t.runElection
  | .voteReply _ k rpc outcome =>
      if c.Possible rpc (outcome.map .requestVote) then t.voteReply k rpc outcome else none
  | .voteFinally _ k => t.voteFinally k
  | .sendHeartbeats _ => some t.sendHeartbeats
  | .roundResume _ k => t.roundResume k
  | .sendReply _ k outcome =>
      match (t.replica.sends[k]?).bind Send.waiting with
      | some (rpc, _) => if c.Possible rpc outcome then t.sendReply k outcome else none
      | none => none
  | .sendFinally _ k => t.sendFinally k
  | .clientWrite _ stroke => some (t.clientWrite stroke)
  | .writeResume _ k => t.writeResume k
  | .requestCatchUp _ => some t.requestCatchUp
  | .catchUpReply _ k outcome =>
      match t.replica.catchUps[k]? with
      | some task =>
          if c.Possible task.rpc (outcome.map .syncLog) then t.catchUpReply k outcome else none
      | none => none
  | .readBoardState _ boardId => some (t.readBoardState boardId)
  | .readReply _ k rpc outcome =>
      if c.Possible rpc (outcome.map .heartbeat) then t.readReply k rpc outcome else none
  | .readResume _ k => t.readResume k
  | .readFinish _ k => t.readFinish k
  | .deliver packet => if packet ∈ c.wire then some (t.deliver packet) else none

/-- The cluster after a turn of replica `a`. -/
def finishTurn (c : Cluster) (a : String) (t : Turn) : Cluster where
  replicas := Function.update c.replicas a t.replica
  wire := c.wire ++ t.sent
  replies := c.replies ++ t.replied
  responses := c.responses ++ t.responses
  nextId := t.fresh

/-- Replica `a` goes down and comes up again on the files `p`. -/
def reboot (cfg : Config) (c : Cluster) (a : String) (p : Persistence) : Cluster :=
  { c with replicas := Function.update c.replicas a (.boot (cfg.params a) p) }

/-- The files of a replica. -/
def files (c : Cluster) (a : String) : Persistence := (c.replicas a).node.persistence

/-- What can happen to the cluster. -/
inductive Event
  /-- a turn runs to its end -/
  | act (action : Action)
  /-- a turn is cut by a crash after its first `calls` persistence calls -/
  | crash (action : Action) (calls : ℕ)
  /-- a replica restarts; the constructor itself may be cut after `calls` calls
  and run again -/
  | restart (a : String) (calls : ℕ)
  deriving DecidableEq

/-- The stroke that a client asks to write in an event. -/
def Event.stroke? : Event → Option Stroke
  | .act (.clientWrite _ stroke) | .crash (.clientWrite _ stroke) _ => some stroke
  | _ => none

/-- An event of one replica; a crash keeps the first calls of the turn. -/
def next (cfg : Config) (c : Cluster) : Event → Option Cluster
  | .act action =>
      if action.replica ∈ cfg.members then
        (c.turn action).map (c.finishTurn action.replica)
      else none
  | .crash action calls =>
      if action.replica ∈ cfg.members then
        (c.turn action).map fun t =>
          c.reboot cfg action.replica
            ((c.files action.replica).replay (t.replica.node.calls.take calls))
      else none
  | .restart a calls =>
      if a ∈ cfg.members then
        let n := RaftNode.construct (cfg.params a) (c.files a)
        some (c.reboot cfg a ((c.files a).replay (n.calls.take calls)))
      else none

/-- Every replica starts on its backend, with nothing saved yet. -/
def init (cfg : Config) : Cluster where
  replicas := fun a => .boot (cfg.params a) (.fresh (cfg.backend a))
  wire := []
  replies := []
  responses := []
  nextId := 0

/-- The states reached by runs whose events all meet `ok`. -/
abbrev Reach (cfg : Config) (ok : Cluster → Event → Prop) : Cluster → Cluster → Prop :=
  Runs.Reach (next cfg) ok

/-- The state after a list of events, when they can all happen. -/
def play (cfg : Config) (c : Cluster) (events : List Event) : Cluster :=
  (Runs.exec (next cfg) c events).getD c

/-- What events lead to is reached. -/
theorem reach_play {cfg : Config} {c : Cluster} {events : List Event}
    (h : (Runs.exec (next cfg) c events).isSome = true) :
    Reach cfg Runs.Any c (play cfg c events) := by
  obtain ⟨c', hc'⟩ := Option.isSome_iff_exists.mp h
  rw [play, hc']
  exact Runs.Reach.of_exec_any hc'

end Cluster

end QuorumCanvas
