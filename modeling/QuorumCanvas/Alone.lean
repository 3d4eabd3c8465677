import QuorumCanvas.Turns

/-!
# One replica and its timers

A replica by itself, under anything that the network may deliver or answer: a
request of any content, and any answer to a pending call.  The two timers are no
longer free: each fires only when it is armed, the election timer once, the
heartbeat interval again and again.

What matters to the timers is a small part of the node, its `Stance`.  The
lemmas here say what each event does to it: most leave it alone; the others make
the node follow (`Stance.follow`), grant a vote (`Stance.grant`), or step an
election.
-/

namespace QuorumCanvas

open RaftNode (Request Reply)

namespace RaftNode

/-- `stop`. -/
def stop (n : RaftNode) : RaftNode :=
  { n with timers := n.timers.stopElectionTimer.stopHeartbeat }

/-- The election timer has fired and is no longer armed. -/
def expireElectionTimer (n : RaftNode) : RaftNode :=
  { n with timers := n.timers.stopElectionTimer }

end RaftNode

namespace Turn

/-- `onElectionTimeout`, called by the timer. -/
def onElectionTimeout (t : Turn) : Turn :=
  let t := t.setNode t.replica.node.expireElectionTimer
  if t.replica.node.state = .leader then t else t.runElection

/-- `stop()` of the node, in a turn of its own. -/
def stop (t : Turn) : Turn := t.setNode t.replica.node.stop

end Turn

namespace Alone

/-- What can happen to a replica by itself. -/
inductive Event
  | electionTimer
  | heartbeatTimer
  | voteReply (k rpc : ℕ) (outcome : Option RequestVoteResult)
  | voteFinally (k : ℕ)
  | roundResume (k : ℕ)
  | sendReply (k : ℕ) (outcome : Option Reply)
  | sendFinally (k : ℕ)
  | clientWrite (stroke : Stroke)
  | writeResume (k : ℕ)
  | requestCatchUp
  | catchUpReply (k : ℕ) (outcome : Option SyncLogResult)
  | readBoardState (boardId : String)
  | readReply (k rpc : ℕ) (outcome : Option HeartbeatResult)
  | readResume (k : ℕ)
  | readFinish (k : ℕ)
  | deliver (packet : Packet)
  | stop
  deriving DecidableEq

/-- One event; `none` when it cannot happen. -/
def next (t : Turn) : Event → Option Turn
  | .electionTimer =>
      if t.replica.node.timers.electionTimer then some t.onElectionTimeout else none
  | .heartbeatTimer => if t.replica.node.timers.heartbeatTimer then some t.sendHeartbeats else none
  | .voteReply k rpc outcome => t.voteReply k rpc outcome
  | .voteFinally k => t.voteFinally k
  | .roundResume k => t.roundResume k
  | .sendReply k outcome => t.sendReply k outcome
  | .sendFinally k => t.sendFinally k
  | .clientWrite stroke => some (t.clientWrite stroke)
  | .writeResume k => t.writeResume k
  | .requestCatchUp => some t.requestCatchUp
  | .catchUpReply k outcome => t.catchUpReply k outcome
  | .readBoardState boardId => some (t.readBoardState boardId)
  | .readReply k rpc outcome => t.readReply k rpc outcome
  | .readResume k => t.readResume k
  | .readFinish k => t.readFinish k
  | .deliver packet => some (t.deliver packet)
  | .stop => some t.stop

/-- A node just constructed and started, on whatever files there are. -/
def boot (params : RaftNode.Params) (p : Persistence) : Turn where
  replica := .boot params p
  fresh := 0
  sent := []
  replied := []
  responses := []

end Alone

/-! ## What the timers depend on -/

/-- The part of a node that the timers depend on. -/
structure Stance where
  params : RaftNode.Params
  currentTerm : ℕ
  votedFor : Option String
  state : NodeState
  timers : Timers

namespace Stance

/-- The node hears of a term, or of its leader, and follows. -/
def follow (s : Stance) (term : ℕ) (votedFor : Option String) : Stance :=
  { s with
    currentTerm := term
    votedFor
    state := .follower
    timers := (if s.state = .leader then s.timers.stopHeartbeat else s.timers).resetElectionTimer }

/-- The node grants a vote. -/
def grant (s : Stance) (candidateId : String) : Stance :=
  { s with votedFor := some candidateId, timers := s.timers.resetElectionTimer }

/-- The node becomes the leader. -/
def lead (s : Stance) : Stance :=
  { s with state := .leader, timers := s.timers.stopElectionTimer.startHeartbeat }

/-- The node gives up an election and waits for the next timeout. -/
def retry (s : Stance) : Stance := { s with timers := s.timers.resetElectionTimer }

/-- The election timer has fired. -/
def expire (s : Stance) : Stance := { s with timers := s.timers.stopElectionTimer }

/-- The node asks for votes in the next term. -/
def campaign (s : Stance) : Stance :=
  { s.expire with
    currentTerm := s.currentTerm + 1
    votedFor := some s.params.replicaId
    state := .candidate }

end Stance

namespace RaftNode

/-- Everything that elections and timers depend on. -/
def stance (n : RaftNode) : Stance :=
  ⟨n.params, n.currentTerm, n.votedFor, n.state, n.timers⟩

/-- `n'` follows in a term that is not below that of `n`. -/
def Yields (n n' : RaftNode) : Prop :=
  ∃ term votedFor, n.currentTerm ≤ term ∧ n'.stance = n.stance.follow term votedFor

/-- A quiet step keeps the stance. -/
theorem Quiet.stance {n n' : RaftNode} (h : Quiet n n') : n'.stance = n.stance := by
  have htimers : n'.timers = n.timers := congrArg Frame.timers h.frame
  simp only [RaftNode.stance, h.params, h.currentTerm, h.votedFor, h.state, htimers]

/-- What is quiet afterwards changes nothing about following. -/
theorem Yields.quiet {n n' n'' : RaftNode} (h : Yields n n') (hq : Quiet n' n'') :
    Yields n n'' := by
  obtain ⟨term, votedFor, hle, heq⟩ := h
  exact ⟨term, votedFor, hle, hq.stance.trans heq⟩

variable (n : RaftNode)

/-- Stepping down takes the term and forgets the vote. -/
theorem stance_becomeFollower (term : ℕ) (leaderId leaderAddr : Option String) :
    (n.becomeFollower term leaderId leaderAddr).stance = n.stance.follow term none := by
  unfold becomeFollower
  by_cases hlead : n.state = .leader
  · simp [hlead, stance, Stance.follow, params, persistState, persist, resetElectionTimer]
  · simp [hlead, stance, Stance.follow, params, persistState, persist, resetElectionTimer]

/-- Every message of a leader that is not late makes the node follow. -/
theorem yields_hearLeader {term : ℕ} (leaderId : String) (leaderAddr : Option String)
    (h : n.currentTerm ≤ term) : Yields n (n.hearLeader term leaderId leaderAddr) := by
  unfold hearLeader
  split
  · exact ⟨term, none, h, stance_becomeFollower n _ _ _⟩
  · next hno =>
      have hstate : n.state = .follower := by
        by_contra hstate
        exact hno (Or.inr hstate)
      refine ⟨n.currentTerm, n.votedFor, le_rfl, ?_⟩
      simp [stance, Stance.follow, params, resetElectionTimer, hstate]

/-- The vote that `handleRequestVote` grants without a new term. -/
def Grants (args : RequestVoteArgs) : Prop :=
  args.term = n.currentTerm ∧ (n.votedFor = none ∨ n.votedFor = some args.candidateId) ∧
    n.isLogUpToDate args.lastLogIndex args.lastLogTerm = true

/-- The requests that reset the election timer. -/
def Rearms : Request → Prop
  | .requestVote args => n.currentTerm < args.term ∨ n.Grants args
  | .appendEntries args => n.currentTerm ≤ args.term
  | .heartbeat args => n.currentTerm ≤ args.term
  | .syncLog args => n.currentTerm < args.term
  | .installSnapshot args => n.currentTerm ≤ args.term

/-- **What a request does** to the stance of the node that serves it. -/
inductive Serves (n : RaftNode) (request : Request) (n' : RaftNode) : Prop
  | ignored (hno : ¬ n.Rearms request) (h : n'.stance = n.stance)
  | followed (hre : n.Rearms request) (h : Yields n n')
  | granted (args : RequestVoteArgs) (hreq : request = .requestVote args) (hgrant : n.Grants args)
      (h : n'.stance = n.stance.grant args.candidateId)

/-- The code's condition for a vote. -/
theorem canVote_iff (args : RequestVoteArgs) (hle : ¬ n.currentTerm < args.term) :
    (decide (n.currentTerm ≤ args.term) &&
      (n.votedFor = none || n.votedFor = some args.candidateId) &&
      n.isLogUpToDate args.lastLogIndex args.lastLogTerm) = true ↔ n.Grants args := by
  have heq : n.currentTerm ≤ args.term ↔ args.term = n.currentTerm := by omega
  simp [Grants, heq, and_assoc]

/-- The vote in the term that a request names. -/
theorem stance_vote (args : RequestVoteArgs) :
    (if (decide (n.currentTerm ≤ args.term) &&
        (n.votedFor = none || n.votedFor = some args.candidateId) &&
        n.isLogUpToDate args.lastLogIndex args.lastLogTerm) = true then
      { n with
        votedFor := some args.candidateId
        currentTerm := args.term }.persistState.resetElectionTimer
    else n).stance = n.stance ∨
      (if (decide (n.currentTerm ≤ args.term) &&
          (n.votedFor = none || n.votedFor = some args.candidateId) &&
          n.isLogUpToDate args.lastLogIndex args.lastLogTerm) = true then
        { n with
          votedFor := some args.candidateId
          currentTerm := args.term }.persistState.resetElectionTimer
      else n).stance = { n.stance with currentTerm := args.term }.grant args.candidateId := by
  split
  · exact Or.inr rfl
  · exact Or.inl rfl

/-- A vote granted without a new term. -/
theorem stance_granted (args : RequestVoteArgs) (hgrant : n.Grants args) :
    (n.handleRequestVote args).1.stance = n.stance.grant args.candidateId := by
  have hlt : ¬ n.currentTerm < args.term := hgrant.1.le.not_gt
  unfold handleRequestVote
  simp only [hlt, if_false]
  rw [if_pos ((n.canVote_iff args hlt).mpr hgrant)]
  simp [stance, Stance.grant, params, persistState, persist, resetElectionTimer, hgrant.1]

/-- A vote request is refused, followed or granted. -/
theorem serves_requestVote (args : RequestVoteArgs) :
    Serves n (.requestVote args) (n.handleRequestVote args).1 := by
  by_cases hlt : n.currentTerm < args.term
  · unfold handleRequestVote
    simp only [hlt, if_true]
    have hstand := stance_becomeFollower n args.term none none
    refine .followed (Or.inl hlt) ?_
    rcases stance_vote (n.becomeFollower args.term none none) args with h | h
    · exact ⟨args.term, none, hlt.le, h.trans hstand⟩
    · exact ⟨args.term, some args.candidateId, hlt.le, by rw [h, hstand]; rfl⟩
  · by_cases hgrant : n.Grants args
    · exact .granted args rfl hgrant (n.stance_granted args hgrant)
    · unfold handleRequestVote
      simp only [hlt, if_false]
      rw [if_neg (mt (n.canVote_iff args hlt).mp hgrant)]
      refine .ignored ?_ rfl
      intro hre
      exact hre.elim hlt hgrant

/-- Entries of an earlier term are ignored, others make a follower. -/
theorem serves_appendEntries (args : AppendEntriesArgs) :
    Serves n (.appendEntries args) (n.handleAppendEntries args).1 := by
  unfold handleAppendEntries
  by_cases hlate : args.term < n.currentTerm
  · simp only [hlate, if_true]
    exact .ignored (by simpa [Rearms] using hlate) rfl
  · simp only [hlate, if_false]
    have hle : n.currentTerm ≤ args.term := Nat.le_of_not_lt hlate
    refine .followed hle ?_
    have hyields := yields_hearLeader n args.leaderId args.leaderAddr hle
    generalize n.hearLeader args.term args.leaderId args.leaderAddr = m at hyields ⊢
    have hloop : Quiet m (m.appendEntriesLoop m.log.lastIncludedIndex args.entries).1 :=
      quiet_appendEntriesLoop _ _
    split
    · split
      · next m' heq =>
          rw [heq] at hloop
          exact hyields.quiet (hloop.trans (quiet_followCommit _ _))
      · next m' heq =>
          rw [heq] at hloop
          exact hyields.quiet hloop
    · exact hyields

/-- So are heartbeats. -/
theorem serves_heartbeat (args : HeartbeatArgs) :
    Serves n (.heartbeat args) (n.handleHeartbeat args).1 := by
  unfold handleHeartbeat
  by_cases hlate : args.term < n.currentTerm
  · simp only [hlate, if_true]
    exact .ignored (by simpa [Rearms] using hlate) rfl
  · simp only [hlate, if_false]
    have hle : n.currentTerm ≤ args.term := Nat.le_of_not_lt hlate
    exact .followed hle
      ((yields_hearLeader n args.leaderId args.leaderAddr hle).quiet (quiet_followCommit _ _))

/-- So are snapshots. -/
theorem serves_installSnapshot (args : InstallSnapshotArgs) :
    Serves n (.installSnapshot args) (n.handleInstallSnapshot args).1 := by
  unfold handleInstallSnapshot
  by_cases hlate : args.term < n.currentTerm
  · simp only [hlate, if_true]
    exact .ignored (by simpa [Rearms] using hlate) rfl
  · simp only [hlate, if_false]
    have hle : n.currentTerm ≤ args.term := Nat.le_of_not_lt hlate
    have hyields := yields_hearLeader n args.leaderId none hle
    refine .followed hle ?_
    split
    · exact hyields
    · exact hyields.quiet (quiet_applySnapshot _ _)

/-- A catch-up of a later term makes a follower. -/
theorem serves_syncLog (args : SyncLogArgs) :
    Serves n (.syncLog args) (n.handleSyncLog args).1 := by
  have hnode : (n.handleSyncLog args).1 =
      if n.currentTerm < args.term then n.becomeFollower args.term none none else n := by
    unfold handleSyncLog
    dsimp only
    split <;> rfl
  rw [hnode]
  split
  · next hlt => exact .followed hlt ⟨args.term, none, hlt.le, stance_becomeFollower n _ _ _⟩
  · next hle => exact .ignored hle rfl

/-- Every request is served so. -/
theorem serves_handle (request : Request) : Serves n request (n.handle request).1 := by
  cases request with
  | requestVote args => exact n.serves_requestVote args
  | appendEntries args => exact n.serves_appendEntries args
  | heartbeat args => exact n.serves_heartbeat args
  | syncLog args => exact n.serves_syncLog args
  | installSnapshot args => exact n.serves_installSnapshot args

/-! ### Answers -/

/-- A node that steps down for a later term yields. -/
theorem yields_becomeFollower {term : ℕ} (leaderId leaderAddr : Option String)
    (h : n.currentTerm < term) : Yields n (n.becomeFollower term leaderId leaderAddr) :=
  ⟨term, none, h.le, stance_becomeFollower n _ _ _⟩

/-- An answer that reports term `term` makes the node follow if the term is
later than its own, and leaves its stance alone otherwise. -/
def Heeds (term : ℕ) (n n' : RaftNode) : Prop :=
  (n.currentTerm < term ∧ Yields n n') ∨ (¬ n.currentTerm < term ∧ n'.stance = n.stance)

/-- A reply of a later term is heeded. -/
theorem heeds_onAppendEntriesReply (peer : String) (args : AppendEntriesArgs)
    (result : AppendEntriesResult) :
    Heeds result.term n (n.onAppendEntriesReply peer args result) := by
  unfold onAppendEntriesReply
  split
  · next hlt => exact Or.inl ⟨hlt, yields_becomeFollower n _ _ hlt⟩
  · next hle =>
      refine Or.inr ⟨hle, ?_⟩
      split
      · split <;> rfl
      · rfl

/-- After a snapshot too. -/
theorem heeds_onInstallSnapshotReply (peer : String) (args : InstallSnapshotArgs)
    (result : InstallSnapshotResult) :
    Heeds result.term n (n.onInstallSnapshotReply peer args result) := by
  unfold onInstallSnapshotReply
  split
  · next hlt => exact Or.inl ⟨hlt, yields_becomeFollower n _ _ hlt⟩
  · next hle => exact Or.inr ⟨hle, rfl⟩

/-- After a catch-up too. -/
theorem heeds_onSyncLogReply (result : SyncLogResult) :
    Heeds result.term n (n.onSyncLogReply result) := by
  have hquiet : ∀ m : RaftNode, Quiet m
      (((m.catchUpSnapshot result.snapshot).catchUpLoop
        (m.catchUpSnapshot result.snapshot).log.lastIncludedIndex
        (result.entries.filter fun e => e.index ≤ result.commitIndex)).followCommit
          result.commitIndex) :=
    fun m => ((quiet_catchUpSnapshot result.snapshot).trans (quiet_catchUpLoop _ _)).trans
      (quiet_followCommit _ _)
  unfold onSyncLogReply
  by_cases hlt : n.currentTerm < result.term
  · simp only [hlt, if_true]
    exact Or.inl ⟨hlt, (yields_becomeFollower n none none hlt).quiet (hquiet _)⟩
  · simp only [hlt, if_false]
    exact Or.inr ⟨hlt, (hquiet n).stance⟩

/-- Counting heartbeats ends at the first one that reports a later term. -/
theorem countAcks_stance (acks : ℕ) (results : List (Option HeartbeatResult)) :
    ((∃ r, some r ∈ results ∧ n.currentTerm < r.term) ∧ Yields n (n.countAcks acks results).1) ∨
      ((¬ ∃ r, some r ∈ results ∧ n.currentTerm < r.term) ∧
        (n.countAcks acks results).1 = n) := by
  induction results generalizing acks with
  | nil => exact Or.inr ⟨by simp, rfl⟩
  | cons r rest ih =>
      cases r with
      | none =>
          simp only [countAcks, List.mem_cons, reduceCtorEq, false_or]
          exact ih acks
      | some r =>
          unfold countAcks
          by_cases hlt : n.currentTerm < r.term
          · simp only [hlt, if_true]
            exact Or.inl ⟨⟨r, List.mem_cons_self, hlt⟩, yields_becomeFollower n _ _ hlt⟩
          · simp only [hlt, if_false]
            have hmem : (∃ r', some r' ∈ some r :: rest ∧ n.currentTerm < r'.term) ↔
                ∃ r', some r' ∈ rest ∧ n.currentTerm < r'.term := by
              constructor
              · intro ⟨r', hr', hlt'⟩
                rcases List.mem_cons.mp hr' with heq | hrest
                · obtain rfl := Option.some.inj heq
                  exact absurd hlt' hlt
                · exact ⟨r', hrest, hlt'⟩
              · intro ⟨r', hr', hlt'⟩
                exact ⟨r', List.mem_cons_of_mem _ hr', hlt'⟩
            rw [hmem]
            exact ih _

/-- What a read does to the node is what counting its acknowledgements does. -/
theorem confirmLeadership_fst (term : ℕ) (results : List (Option HeartbeatResult)) :
    (n.confirmLeadership term results).1 = (n.countAcks 1 results).1 := by
  unfold confirmLeadership
  split <;> next heq => simp only [heq]

/-- A node just started follows, with its election timer armed. -/
theorem stance_construct (params : Params) (p : Persistence) :
    (construct params p).stance =
      ⟨params, p.loadState.currentTerm, p.loadState.votedFor, .follower, ⟨true, true, false⟩⟩ := by
  obtain ⟨base, hbase, hstance⟩ : ∃ base : RaftNode,
      construct params p =
        { base.applyCommitted with timers := base.applyCommitted.timers.startElectionTimer } ∧
      base.stance = ⟨params, p.loadState.currentTerm, p.loadState.votedFor, .follower,
        ⟨false, false, false⟩⟩ := by
    unfold construct
    cases p.loadSnapshot with
    | none => exact ⟨_, rfl, rfl⟩
    | some snapshot => exact ⟨_, rfl, rfl⟩
  have happlied := (quiet_applyCommitted base).stance.trans hstance
  rw [hbase]
  have hstart : ∀ m : RaftNode,
      stance { m with timers := m.timers.startElectionTimer } =
        { m.stance with timers := m.stance.timers.startElectionTimer } := fun _ => rfl
  rw [hstart, happlied]
  rfl

end RaftNode

/-! ## What an event does to the stance -/

/-- The election is still open for the node: it asks for votes in its term. -/
structure Election.Open (e : Election) (n : RaftNode) : Prop where
  unsettled : e.settled = false
  candidate : n.state = .candidate
  term : n.currentTerm = e.term

namespace Alone

/-- The term that the answer to a replication call reports. -/
def replyTerm : Request → Option Reply → Option ℕ
  | .appendEntries _, some (.appendEntries result) => some result.term
  | .installSnapshot _, some (.installSnapshot result) => some result.term
  | _, _ => none

/-- The events after which the node starts its election timer anew: a request
that it heeds, an answer with a later term, and an election lost. -/
def Stirs (t : Turn) : Event → Prop
  | .deliver packet => t.replica.node.Rearms packet.request
  | .sendReply k outcome => ∃ send w term, t.replica.sends[k]? = some send ∧
      send.waiting = some w ∧ replyTerm w.2 outcome = some term ∧ t.replica.node.currentTerm < term
  | .catchUpReply _ outcome => ∃ result, outcome = some result ∧
      t.replica.node.currentTerm < result.term
  | .readResume k => ∃ r, t.replica.reads[k]? = some r ∧
      ∃ result, some result ∈ r.heartbeats.map (fun h => h.2.join) ∧
        t.replica.node.currentTerm < result.term
  | .voteReply k _ outcome => ∃ e reply, t.replica.elections[k]? = some e ∧
      outcome = some reply ∧ e.Open t.replica.node ∧ t.replica.node.currentTerm < reply.term
  | .voteFinally k => ∃ e, t.replica.elections[k]? = some e ∧ e.Open t.replica.node ∧
      e.pendingReplies ≤ 1 ∧ ¬ t.replica.node.majority ≤ e.votesGranted
  | _ => False

/-- The events that win an election. -/
def Wins (t : Turn) : Event → Prop
  | .voteReply k _ outcome => ∃ e reply, t.replica.elections[k]? = some e ∧
      outcome = some reply ∧ e.Open t.replica.node ∧ reply.term ≤ t.replica.node.currentTerm ∧
      reply.voteGranted = true ∧ t.replica.node.majority ≤ e.votesGranted + 1
  | .voteFinally k => ∃ e, t.replica.elections[k]? = some e ∧ e.Open t.replica.node ∧
      e.pendingReplies ≤ 1 ∧ t.replica.node.majority ≤ e.votesGranted
  | _ => False

/-- The events that have to do with elections, and `stop`. -/
def Event.Steers : Event → Prop
  | .electionTimer | .voteReply _ _ _ | .voteFinally _ | .stop => True
  | _ => False

/-- What an event that steers no election does to the stance of the node. -/
inductive Shifts (t : Turn) (ev : Event) (n' : RaftNode) : Prop
  | rested (hno : ¬ Stirs t ev) (h : n'.stance = t.replica.node.stance)
  | followed (hre : Stirs t ev) (h : RaftNode.Yields t.replica.node n')
  | granted (packet : Packet) (args : RequestVoteArgs) (hev : ev = .deliver packet)
      (hreq : packet.request = .requestVote args) (hgrant : t.replica.node.Grants args)
      (h : n'.stance = t.replica.node.stance.grant args.candidateId)

variable {t t' : Turn}

/-- Driving the peers keeps the stance. -/
theorem shifts_driveAll (ev : Event) (hno : ¬ Stirs t ev) (s : Turn) (peers : List String)
    (h : s.replica.node.stance = t.replica.node.stance) :
    Shifts t ev (s.driveAll peers).1.replica.node :=
  .rested hno (by rw [(s.driveAll_spec peers).1.node, h])

/-- A reply to a replication call may depose. -/
theorem shifts_sendReply {k : ℕ} {outcome : Option Reply} (h : t.sendReply k outcome = some t') :
    Shifts t (.sendReply k outcome) t'.replica.node := by
  obtain ⟨send, w, hk, hw, rfl⟩ := Turn.sendReply_some h
  have hstirs : ∀ term, replyTerm w.2 outcome = some term →
      (Stirs t (.sendReply k outcome) ↔ t.replica.node.currentTerm < term) := by
    intro term hterm
    constructor
    · intro ⟨send', w', term', hk', hw', hterm', hlt⟩
      obtain rfl := Option.some.inj (hk.symm.trans hk')
      obtain rfl := Option.some.inj (hw.symm.trans hw')
      obtain rfl := Option.some.inj (hterm.symm.trans hterm')
      exact hlt
    · intro hlt
      exact ⟨send, w, term, hk, hw, hterm, hlt⟩
  have hheeds : ∀ term n', replyTerm w.2 outcome = some term →
      RaftNode.Heeds term t.replica.node n' → Shifts t (.sendReply k outcome) n' := by
    intro term n' hterm hn
    rcases hn with ⟨hlt, hyields⟩ | ⟨hle, hsame⟩
    · exact .followed ((hstirs term hterm).mpr hlt) hyields
    · exact .rested (mt (hstirs term hterm).mp hle) hsame
  have hnone : replyTerm w.2 outcome = none → ¬ Stirs t (.sendReply k outcome) := by
    intro hterm ⟨send', w', term', hk', hw', hterm', _⟩
    obtain rfl := Option.some.inj (hk.symm.trans hk')
    obtain rfl := Option.some.inj (hw.symm.trans hw')
    rw [hterm] at hterm'
    cases hterm'
  simp only [Turn.setSends, Turn.setNode]
  unfold Turn.onSendReply
  split
  · next args result heq =>
      exact hheeds result.term _ (by rw [heq]; rfl)
        (RaftNode.heeds_onAppendEntriesReply _ _ _ _)
  · next args result heq =>
      exact hheeds result.term _ (by rw [heq]; rfl)
        (RaftNode.heeds_onInstallSnapshotReply _ _ _ _)
  · next hA hI =>
      refine .rested (hnone ?_) rfl
      unfold replyTerm
      split
      · next args result heq => exact absurd rfl (hA args result heq)
      · next args result heq => exact absurd rfl (hI args result heq)
      · rfl

/-- Asking for a log keeps the node. -/
theorem shifts_askCatchUp (ev : Event) (hno : ¬ Stirs t ev) (s : Turn) (targets : List String)
    (h : s.replica.node = t.replica.node) :
    Shifts t ev (s.askCatchUp targets).1.replica.node := by
  have hnode : (s.askCatchUp targets).1.replica.node = s.replica.node := by
    cases targets <;> rfl
  exact .rested hno (by rw [hnode, h])

/-- A write appends, and keeps the stance. -/
theorem shifts_clientWrite (t : Turn) (stroke : Stroke) :
    Shifts t (.clientWrite stroke) (t.clientWrite stroke).replica.node := by
  unfold Turn.clientWrite
  dsimp only
  split
  · exact .rested not_false rfl
  · exact shifts_driveAll (.clientWrite stroke) not_false _ _ rfl

/-- A write that resumes may commit, and keeps the stance. -/
theorem shifts_resumeWrite (t : Turn) (k : ℕ) (w : Write) :
    Shifts t (.writeResume k) (t.resumeWrite k w).replica.node := by
  unfold Turn.resumeWrite
  dsimp only
  split
  · exact .rested not_false rfl
  · split
    · exact .rested not_false (RaftNode.quiet_updateCommitIndex _).stance
    · split
      · exact shifts_driveAll (.writeResume k) not_false t _ rfl
      · exact .rested not_false rfl

/-- A catch-up of a later term deposes. -/
theorem shifts_resumeCatchUp (t : Turn) (k : ℕ) (task : CatchUp)
    (outcome : Option SyncLogResult) :
    Shifts t (.catchUpReply k outcome) (t.resumeCatchUp k task outcome).replica.node := by
  cases outcome with
  | none =>
      refine shifts_askCatchUp _ ?_ _ _ rfl
      intro ⟨result, heq, _⟩
      cases heq
  | some result =>
      rcases RaftNode.heeds_onSyncLogReply t.replica.node result with ⟨hlt, h⟩ | ⟨hle, h⟩
      · exact .followed ⟨result, rfl, hlt⟩ h
      · refine .rested ?_ h
        intro ⟨result', heq, hlt⟩
        obtain rfl := Option.some.inj heq
        exact hle hlt

/-- The acknowledgements of a read are counted. -/
theorem shifts_resumeRead {t : Turn} {k : ℕ} {r : Read} (hk : t.replica.reads[k]? = some r) :
    Shifts t (.readResume k) (t.resumeRead k r).replica.node := by
  have hnode : (t.resumeRead k r).replica.node =
      (t.replica.node.countAcks 1 (r.heartbeats.map fun h => h.2.join)).1 :=
    RaftNode.confirmLeadership_fst _ _ _
  rw [hnode]
  rcases RaftNode.countAcks_stance t.replica.node 1 (r.heartbeats.map fun h => h.2.join) with
    ⟨hmem, h⟩ | ⟨hnot, h⟩
  · exact .followed ⟨r, hk, hmem⟩ h
  · refine .rested ?_ (congrArg _ h)
    intro ⟨r', hk', hmem⟩
    obtain rfl := Option.some.inj (hk.symm.trans hk')
    exact hnot hmem

/-- **An event without election** leaves the elections alone, and the stance of
the node follows, grants a vote, or stays. -/
theorem next_plain {ev : Event} (h : next t ev = some t') (hno : ¬ ev.Steers) :
    t'.replica.elections = t.replica.elections ∧ Shifts t ev t'.replica.node := by
  cases ev with
  | electionTimer => exact absurd trivial hno
  | voteReply k rpc outcome => exact absurd trivial hno
  | voteFinally k => exact absurd trivial hno
  | stop => exact absurd trivial hno
  | heartbeatTimer =>
      obtain rfl := Option.some.inj (Option.ite_none_right_eq_some.mp h).2
      refine ⟨t.plain_sendHeartbeats.elections, ?_⟩
      unfold Turn.sendHeartbeats
      split
      · exact .rested not_false rfl
      · exact shifts_driveAll .heartbeatTimer not_false t _ rfl
  | roundResume k =>
      obtain ⟨promises, -, rfl⟩ := Turn.roundResume_some h
      refine ⟨(t.plain_resumeRound k).elections, .rested not_false ?_⟩
      unfold Turn.resumeRound
      dsimp only
      split
      · exact (RaftNode.quiet_updateCommitIndex _).stance
      · rfl
  | sendReply k outcome => exact ⟨(Turn.plain_sendReply h).elections, shifts_sendReply h⟩
  | sendFinally k =>
      obtain ⟨send, -, rfl⟩ := Turn.sendFinally_some h
      exact ⟨rfl, .rested not_false rfl⟩
  | clientWrite stroke =>
      obtain rfl := Option.some.inj h
      exact ⟨(t.plain_clientWrite stroke).elections, shifts_clientWrite t stroke⟩
  | writeResume k =>
      obtain ⟨w, -, rfl⟩ := Turn.writeResume_some h
      exact ⟨(t.plain_resumeWrite k w).elections, shifts_resumeWrite t k w⟩
  | requestCatchUp =>
      obtain rfl := Option.some.inj h
      refine ⟨t.plain_requestCatchUp.elections, ?_⟩
      unfold Turn.requestCatchUp
      split
      · exact .rested not_false rfl
      · exact shifts_askCatchUp .requestCatchUp not_false t _ rfl
  | catchUpReply k outcome =>
      obtain ⟨task, -, rfl⟩ := Turn.catchUpReply_some h
      exact ⟨(t.plain_resumeCatchUp k task outcome).elections,
        shifts_resumeCatchUp t k task outcome⟩
  | readBoardState boardId =>
      obtain rfl := Option.some.inj h
      refine ⟨(t.plain_readBoardState boardId).elections, .rested not_false ?_⟩
      unfold Turn.readBoardState
      dsimp only
      split
      · rfl
      · rw [Turn.sendAll_eq]
        rfl
  | readReply k rpc outcome =>
      obtain ⟨r, -, -, rfl⟩ := Turn.readReply_some h
      exact ⟨rfl, .rested not_false rfl⟩
  | readResume k =>
      obtain ⟨r, hk, -, -, rfl⟩ := Turn.readResume_some h
      exact ⟨rfl, shifts_resumeRead hk⟩
  | readFinish k =>
      obtain ⟨r, confirmed, -, -, rfl⟩ := Turn.readFinish_some h
      exact ⟨rfl, .rested not_false rfl⟩
  | deliver packet =>
      obtain rfl := Option.some.inj h
      refine ⟨rfl, ?_⟩
      cases RaftNode.serves_handle t.replica.node packet.request with
      | ignored hno h => exact .rested hno h
      | followed hre h => exact .followed hre h
      | granted args hreq hgrant h => exact .granted packet args rfl hreq hgrant h

/-! ## Elections -/

/-- `finalizeElection` wins or retries an open election, and only settles any other. -/
theorem finalize_open {n : RaftNode} {e : Election} (h : e.Open n) :
    Turn.finalize n e = (if n.majority ≤ e.votesGranted then n.becomeLeader
      else n.resetElectionTimer, { e with settled := true }) := by
  simp only [Turn.finalize, h.unsettled, Bool.false_eq_true, if_false, h.candidate, h.term,
    and_self, if_true]

/-- An election that is not open is only settled. -/
theorem finalize_closed {n : RaftNode} {e : Election} (h : ¬ e.Open n) :
    Turn.finalize n e = (n, { e with settled := true }) := by
  unfold Turn.finalize
  split
  · next hsettled => simp [← hsettled]
  · next hopen =>
      have hno : ¬ (n.state = .candidate ∧ n.currentTerm = e.term) := fun hc =>
        h ⟨by simpa using hopen, hc.1, hc.2⟩
      simp only [hno, if_false]

/-- The bookkeeping of an election: every reply still pending is awaited, or its
`finally` has yet to run, and an election with nothing pending is settled. -/
structure Tallied (e : Election) : Prop where
  pending : e.pendingReplies = e.awaiting.length + e.closing
  nodup : (e.awaiting.map Prod.fst).Nodup
  open_pending : e.settled = false → 0 < e.pendingReplies

/-- What one callback does to an election, and to the node that holds it. -/
inductive Polls (t : Turn) (ev : Event) (e : Election) (n' : RaftNode) (e' : Election) : Prop
  | idle (hno : ¬ Stirs t ev) (hlost : ¬ Wins t ev) (h : n' = t.replica.node)
      (hopen : e.Open t.replica.node → e'.settled = false)
  | won (hwins : Wins t ev) (hopen : e.Open t.replica.node)
      (h : n' = t.replica.node.becomeLeader)
  | retried (hre : Stirs t ev) (hlost : ¬ Wins t ev) (hopen : e.Open t.replica.node)
      (h : n' = t.replica.node.resetElectionTimer)
  | overtaken (hre : Stirs t ev) (hlost : ¬ Wins t ev) (hopen : e.Open t.replica.node)
      (h : RaftNode.Yields t.replica.node n')

/-- A vote that comes in leaves the election open. -/
theorem open_closeVote {e : Election} {n : RaftNode} {rpc : ℕ} :
    (Turn.closeVote e rpc).Open n ↔ e.Open n :=
  ⟨fun h => ⟨h.1, h.2, h.3⟩, fun h => ⟨h.1, h.2, h.3⟩⟩

/-- A vote counts in an open election only. -/
theorem onVote_closed {n : RaftNode} {e : Election} (h : ¬ e.Open n) (peer : String)
    (reply : RequestVoteResult) : Turn.onVote n e peer reply = (n, e) := by
  unfold Turn.onVote
  refine if_pos ?_
  by_contra hno
  simp only [not_or, not_not] at hno
  exact h ⟨by simpa using hno.1, hno.2.1, hno.2.2⟩

/-- A vote deposes, counts, or is refused. -/
theorem onVote_open {n : RaftNode} {e : Election} (h : e.Open n) (peer : String)
    (reply : RequestVoteResult) : Turn.onVote n e peer reply =
      if n.currentTerm < reply.term then
        (n.becomeFollower reply.term none none, { e with settled := true })
      else if reply.voteGranted then
        if n.majority ≤ e.votesGranted + 1 then
          (n.becomeLeader,
            { e with
              votesGranted := e.votesGranted + 1
              voters := e.voters ++ [peer]
              settled := true })
        else (n, { e with votesGranted := e.votesGranted + 1, voters := e.voters ++ [peer] })
      else (n, e) := by
  have hskip : ¬ (e.settled = true ∨ n.state ≠ .candidate ∨ n.currentTerm ≠ e.term) := by
    simp [h.unsettled, h.candidate, h.term]
  unfold Turn.onVote
  rw [if_neg hskip]
  split
  · refine finalize_closed ?_
    intro hopen
    have hstate : (n.becomeFollower reply.term none none).state = .follower := by
      have := congrArg Stance.state (RaftNode.stance_becomeFollower n reply.term none none)
      exact this
    rw [hopen.candidate] at hstate
    cases hstate
  · split
    · dsimp only
      split
      · next hmajority =>
          have hopen : Election.Open
              { e with votesGranted := e.votesGranted + 1, voters := e.voters ++ [peer] } n :=
            ⟨h.1, h.2, h.3⟩
          rw [finalize_open hopen, if_pos hmajority]
      · rfl
    · rfl

/-- A promise that settles is awaited no longer. -/
theorem length_awaiting {awaiting : List (ℕ × String)} {rpc : ℕ} {q : ℕ × String}
    (hnd : (awaiting.map Prod.fst).Nodup) (hq : awaiting.find? (fun p => p.1 = rpc) = some q) :
    (awaiting.filter fun p => p.1 ≠ rpc).length + 1 = awaiting.length := by
  have hrpc : q.1 = rpc := by simpa using List.find?_some hq
  have hmem : rpc ∈ awaiting.map Prod.fst :=
    hrpc ▸ List.mem_map_of_mem (List.mem_of_find?_eq_some hq)
  have hone := List.count_eq_one_of_mem hnd hmem
  have hsplit := List.length_eq_countP_add_countP (fun p : ℕ × String => decide (p.1 = rpc))
    (l := awaiting)
  have hcount : awaiting.countP (fun p => decide (p.1 = rpc)) = 1 := by
    rw [← hone, List.count, List.countP_map]
    exact List.countP_congr fun p _ => by simp
  rw [hcount] at hsplit
  rw [← List.countP_eq_length_filter]
  have hneg : awaiting.countP (fun p => decide (p.1 ≠ rpc)) =
      awaiting.countP (fun p => decide ¬ decide (p.1 = rpc) = true) :=
    List.countP_congr fun p _ => by simp
  rw [hneg]
  omega

/-- `then` and `catch` leave the counters as `closeVote` leaves them. -/
theorem onVoteOutcome_counters (n : RaftNode) (e : Election) (peer : String)
    (outcome : Option RequestVoteResult) :
    let e' := (Turn.onVoteOutcome n e peer outcome).2
    e'.term = e.term ∧ e'.awaiting = e.awaiting ∧ e'.closing = e.closing ∧
      e'.pendingReplies = e.pendingReplies ∧ (e'.settled = false → e.settled = false) := by
  cases outcome with
  | none => exact ⟨rfl, rfl, rfl, rfl, id⟩
  | some reply =>
      by_cases hopen : e.Open n
      · simp only [Turn.onVoteOutcome, onVote_open hopen]
        split
        · exact ⟨rfl, rfl, rfl, rfl, nofun⟩
        · split
          · split
            · exact ⟨rfl, rfl, rfl, rfl, nofun⟩
            · exact ⟨rfl, rfl, rfl, rfl, id⟩
          · exact ⟨rfl, rfl, rfl, rfl, id⟩
      · simp [Turn.onVoteOutcome, onVote_closed hopen]

/-- The vote that comes in is awaited no more, and closing. -/
theorem tallied_voteOutcome {e : Election} (h : Tallied e) {rpc : ℕ} {q : ℕ × String}
    (hq : e.awaiting.find? (fun p => p.1 = rpc) = some q) (n : RaftNode)
    (outcome : Option RequestVoteResult) :
    Tallied (Turn.onVoteOutcome n (Turn.closeVote e rpc) q.2 outcome).2 := by
  obtain ⟨-, hawait, hclosing, hpending, hsettled⟩ :=
    onVoteOutcome_counters n (Turn.closeVote e rpc) q.2 outcome
  have hlength := length_awaiting h.nodup hq
  constructor
  · rw [hpending, hawait, hclosing]
    show e.pendingReplies = (e.awaiting.filter fun p => p.1 ≠ rpc).length + (e.closing + 1)
    rw [h.pending]
    omega
  · rw [hawait]
    exact h.nodup.sublist (List.filter_sublist.map _)
  · intro hopen
    rw [hpending]
    exact h.open_pending (hsettled hopen)

/-- **A vote's outcome,** seen from the election and from the node. -/
theorem next_voteReply {k rpc : ℕ} {outcome : Option RequestVoteResult}
    (h : t.voteReply k rpc outcome = some t') :
    ∃ e e', t.replica.elections[k]? = some e ∧
      t'.replica.elections = t.replica.elections.set k e' ∧ e'.term = e.term ∧
      (Tallied e → Tallied e') ∧
      Polls t (.voteReply k rpc outcome) e t'.replica.node e' := by
  obtain ⟨e, q, hk, hq, rfl⟩ := Turn.voteReply_some h
  refine ⟨e, _, hk, rfl, (onVoteOutcome_counters _ _ _ _).1,
    fun htally => tallied_voteOutcome htally hq _ _, ?_⟩
  have honly : ∀ e', t.replica.elections[k]? = some e' → e = e' := fun e' hk' =>
    Option.some.inj (hk.symm.trans hk')
  show Polls t _ e (Turn.onVoteOutcome _ _ _ _).1 _
  cases outcome with
  | none =>
      refine .idle ?_ ?_ rfl (fun hopen => hopen.unsettled)
      · intro ⟨e', reply, _, hnone, _⟩
        cases hnone
      · intro ⟨e', reply, _, hnone, _⟩
        cases hnone
  | some reply =>
      simp only [Turn.onVoteOutcome]
      by_cases hopen : e.Open t.replica.node
      · rw [onVote_open (open_closeVote.mpr hopen)]
        split
        · next hlt =>
            refine .overtaken ⟨e, reply, hk, rfl, hopen, hlt⟩ ?_ hopen
              (RaftNode.yields_becomeFollower _ _ _ hlt)
            intro ⟨e', reply', hk', heq, _, hle, _⟩
            obtain rfl := Option.some.inj heq
            omega
        · next hle =>
            have hno : ¬ Stirs t (.voteReply k rpc (some reply)) := by
              intro ⟨e', reply', hk', heq, _, hlt⟩
              obtain rfl := Option.some.inj heq
              exact hle hlt
            split
            · next hgranted =>
                split
                · next hmajority =>
                    exact .won ⟨e, reply, hk, rfl, hopen, Nat.le_of_not_lt hle, hgranted, hmajority⟩
                      hopen rfl
                · next hfew =>
                    refine .idle hno ?_ rfl (fun _ => hopen.unsettled)
                    intro ⟨e', reply', hk', heq, _, _, _, hmajority⟩
                    obtain rfl := honly e' hk'
                    exact hfew hmajority
            · next hdenied =>
                refine .idle hno ?_ rfl (fun _ => hopen.unsettled)
                intro ⟨e', reply', hk', heq, _, _, hgranted, _⟩
                obtain rfl := Option.some.inj heq
                exact hdenied hgranted
      · rw [onVote_closed (mt open_closeVote.mp hopen)]
        refine .idle ?_ ?_ rfl (fun h => absurd h hopen)
        · intro ⟨e', reply', hk', _, hopen', _⟩
          exact hopen (honly e' hk' ▸ hopen')
        · intro ⟨e', reply', hk', _, hopen', _⟩
          exact hopen (honly e' hk' ▸ hopen')

/-- The counters of an election after one `finally`. -/
def countFinally (e : Election) : Election :=
  { e with closing := e.closing - 1, pendingReplies := e.pendingReplies - 1 }

/-- A `finally` leaves the election open. -/
theorem open_countFinally {e : Election} {n : RaftNode} : (countFinally e).Open n ↔ e.Open n :=
  ⟨fun h => ⟨h.1, h.2, h.3⟩, fun h => ⟨h.1, h.2, h.3⟩⟩

/-- The last `finally` finalizes the election. -/
theorem onVoteSettled_eq (n : RaftNode) (e : Election) :
    Turn.onVoteSettled n e =
      if e.pendingReplies ≤ 1 then Turn.finalize n (countFinally e) else (n, countFinally e) := by
  have hiff : e.pendingReplies - 1 = 0 ↔ e.pendingReplies ≤ 1 := by omega
  simp only [Turn.onVoteSettled, hiff, countFinally]

/-- Finalizing keeps the counters. -/
theorem finalize_counters (n : RaftNode) (e : Election) :
    (Turn.finalize n e).2 = { e with settled := true } := by
  by_cases h : e.Open n
  · rw [finalize_open h]
  · rw [finalize_closed h]

/-- A `finally` closes one that was closing. -/
theorem tallied_voteSettled {e : Election} (h : Tallied e) (hclosing : 0 < e.closing)
    (n : RaftNode) : Tallied (Turn.onVoteSettled n e).2 := by
  have hpending := h.pending
  have hcount : e.pendingReplies - 1 = e.awaiting.length + (e.closing - 1) := by omega
  rw [onVoteSettled_eq]
  split
  · rw [finalize_counters]
    exact ⟨hcount, h.nodup, nofun⟩
  · next hmore =>
      refine ⟨hcount, h.nodup, fun _ => ?_⟩
      show 0 < e.pendingReplies - 1
      omega

/-- **The end of a vote,** seen from the election and from the node. -/
theorem next_voteFinally {k : ℕ} (h : t.voteFinally k = some t') :
    ∃ e e', t.replica.elections[k]? = some e ∧
      t'.replica.elections = t.replica.elections.set k e' ∧ e'.term = e.term ∧
      (Tallied e → Tallied e') ∧ Polls t (.voteFinally k) e t'.replica.node e' := by
  have hclosing : ∃ e, t.replica.elections[k]? = some e ∧ 0 < e.closing := by
    simp only [Turn.voteFinally, Option.bind_eq_bind, Option.bind_eq_some_iff] at h
    obtain ⟨e, hk, u, hg, -⟩ := h
    exact ⟨e, hk, Turn.guard_elim hg⟩
  obtain ⟨e, hk, rfl⟩ := Turn.voteFinally_some h
  obtain ⟨e₀, hk₀, hclosing⟩ := hclosing
  obtain rfl := Option.some.inj (hk.symm.trans hk₀)
  have honly : ∀ e', t.replica.elections[k]? = some e' → e = e' := fun e' hk' =>
    Option.some.inj (hk.symm.trans hk')
  have hterm : (Turn.onVoteSettled t.replica.node e).2.term = e.term := by
    rw [onVoteSettled_eq]
    split
    · rw [finalize_counters]
      rfl
    · rfl
  refine ⟨e, _, hk, rfl, hterm, fun htally => tallied_voteSettled htally hclosing _, ?_⟩
  show Polls t _ e (Turn.onVoteSettled _ _).1 _
  have hidle : ¬ (e.Open t.replica.node ∧ e.pendingReplies ≤ 1) →
      ¬ Stirs t (.voteFinally k) ∧ ¬ Wins t (.voteFinally k) := by
    intro hno
    constructor
    · rintro ⟨e', hk', hopen, hlast, -⟩
      obtain rfl := honly e' hk'
      exact hno ⟨hopen, hlast⟩
    · rintro ⟨e', hk', hopen, hlast, -⟩
      obtain rfl := honly e' hk'
      exact hno ⟨hopen, hlast⟩
  rw [onVoteSettled_eq]
  split
  · next hlast =>
      by_cases hopen : e.Open t.replica.node
      · rw [finalize_open (open_countFinally.mpr hopen)]
        by_cases hmajority : t.replica.node.majority ≤ e.votesGranted
        · refine .won ⟨e, hk, hopen, hlast, hmajority⟩ hopen ?_
          exact if_pos hmajority
        · refine .retried ⟨e, hk, hopen, hlast, hmajority⟩ ?_ hopen (if_neg hmajority)
          rintro ⟨e', hk', -, -, hmajority'⟩
          obtain rfl := honly e' hk'
          exact hmajority hmajority'
      · obtain ⟨hno, hlost⟩ := hidle fun h => hopen h.1
        rw [finalize_closed (mt open_countFinally.mp hopen)]
        exact .idle hno hlost rfl fun h => absurd h hopen
  · next hmore =>
      obtain ⟨hno, hlost⟩ := hidle fun h => hmore h.2
      exact .idle hno hlost rfl fun hopen => hopen.unsettled

/-- **The election timer fires:** a leader ignores it; any other node asks for
votes, and a node without peers wins at once. -/
theorem next_electionTimer (h : next t .electionTimer = some t') :
    (t.replica.node.state = .leader ∧ t'.replica.elections = t.replica.elections ∧
        t'.replica.node.stance = t.replica.node.stance.expire) ∨
      (t.replica.node.state ≠ .leader ∧ ∃ e,
        t'.replica.elections = t.replica.elections ++ [e] ∧ Tallied e ∧
        (t'.replica.node.stance = t.replica.node.stance.campaign.lead ∨
          t'.replica.node.stance = t.replica.node.stance.campaign ∧
            e.Open t'.replica.node)) := by
  obtain rfl := Option.some.inj (Option.ite_none_right_eq_some.mp h).2
  unfold Turn.onElectionTimeout
  by_cases hlead : t.replica.node.state = .leader
  · refine Or.inl ⟨hlead, ?_⟩
    have hlead' : (t.setNode t.replica.node.expireElectionTimer).replica.node.state = .leader :=
      hlead
    simp only [hlead', if_true]
    exact ⟨rfl, rfl⟩
  · refine Or.inr ⟨hlead, ?_⟩
    have hlead' : (t.setNode t.replica.node.expireElectionTimer).replica.node.state ≠ .leader :=
      hlead
    simp only [hlead', if_false]
    set s := t.setNode t.replica.node.expireElectionTimer
    have hcampaign : s.replica.node.becomeCandidate.stance =
        t.replica.node.stance.campaign := rfl
    have hopen : (s.newElection s.replica.node.becomeCandidate).Open
        s.replica.node.becomeCandidate := ⟨rfl, rfl, rfl⟩
    unfold Turn.runElection Turn.openElection
    dsimp only
    rw [Turn.sendAll_eq]
    by_cases hpeers : s.replica.node.becomeCandidate.peers = []
    · have hmajority : s.replica.node.becomeCandidate.majority ≤
          (s.newElection s.replica.node.becomeCandidate).votesGranted := by
        simp only [RaftNode.majority, hpeers]
        exact le_rfl
      rw [if_pos hpeers, finalize_open hopen, if_pos hmajority]
      refine ⟨_, rfl, ⟨?_, ?_, nofun⟩, Or.inl ?_⟩
      · simp [Turn.newElection, hpeers]
      · simp [Turn.newElection, hpeers]
      · rw [← hcampaign]
        rfl
    · rw [if_neg hpeers]
      refine ⟨_, rfl, ⟨?_, ?_, ?_⟩, Or.inr ⟨hcampaign, hopen⟩⟩
      · simp [Turn.newElection, Turn.promises]
      · have hfst : (s.newElection s.replica.node.becomeCandidate).awaiting.map Prod.fst =
            s.promises s.replica.node.becomeCandidate.peers :=
          List.map_fst_zip (by simp [Turn.promises])
        rw [hfst]
        exact List.nodup_range'
      · intro _
        exact List.length_pos_iff.mpr hpeers

end Alone

end QuorumCanvas
