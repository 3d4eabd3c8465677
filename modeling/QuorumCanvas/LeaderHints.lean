import QuorumCanvas.ElectionSafety
import QuorumCanvas.Links
import QuorumCanvas.NodeOps

/-!
# Redirect hints

A replica that is not the leader refuses a client's write or read and hints at
`leaderAddr`.  That address and `leaderId` are two fields, and the transitions of
a node do not always set both: `Bearing` is what a node knows of the leader, and
`bearing_run` what each operation makes of it.  The hint is right as long as no
leader steps down on a bare term, no replica stands for election while it holds
an address, and no snapshot is installed over the address of another leader
(`hints_right`).
-/

namespace QuorumCanvas

namespace RaftNode

/-- What a node knows of the leader, with its own role and address. -/
structure Bearing where
  selfUrl : String
  state : NodeState
  leaderId : Option String
  leaderAddr : Option String

/-- Role, address and what is known of the leader. -/
def bearing (n : RaftNode) : Bearing := ⟨n.selfUrl, n.state, n.leaderId, n.leaderAddr⟩

namespace Bearing

/-- Step down, with what is told of the leader. -/
def stepDown (b : Bearing) (leaderId leaderAddr : Option String) : Bearing :=
  ⟨b.selfUrl, .follower, leaderId <|> b.leaderId, leaderAddr <|> b.leaderAddr⟩

/-- A leader holds its own address. -/
def Leads (b : Bearing) : Prop := b.state = .leader → b.leaderAddr = some b.selfUrl

/-- A node that has stepped down does not lead. -/
theorem leads_stepDown (b : Bearing) (leaderId leaderAddr : Option String) :
    (b.stepDown leaderId leaderAddr).Leads := fun h => by cases h

/-- **The hint is right:** a node that does not lead and holds an address holds that of
another member, the one that it names as the leader. -/
def Points (cfg : Config) (b : Bearing) : Prop :=
  b.state ≠ .leader → ∀ addr, b.leaderAddr = some addr →
    addr ≠ b.selfUrl ∧ addr ∈ cfg.members ∧ b.leaderId = some (cfg.replicaId addr)

variable {cfg : Config} {b : Bearing}

/-- Stepping down on a bare term makes a leader's own address its hint. -/
theorem points_stepDown_iff (hb : b.Points cfg) (hlead : b.Leads) :
    (b.stepDown none none).Points cfg ↔ b.state ≠ .leader := by
  constructor
  · intro h hstate
    have hself := (h NodeState.noConfusion b.selfUrl (hlead hstate)).1
    exact hself rfl
  · intro hstate _ addr haddr
    exact hb hstate addr haddr

/-- A candidate has forgotten who leads. -/
theorem points_stand_iff :
    Points cfg ⟨b.selfUrl, .candidate, none, b.leaderAddr⟩ ↔ b.leaderAddr = none := by
  constructor
  · intro h
    cases haddr : b.leaderAddr with
    | none => rfl
    | some addr =>
        obtain ⟨-, -, hid⟩ := h NodeState.noConfusion addr haddr
        cases hid
  · intro hnone _ addr haddr
    cases hnone.symm.trans haddr

/-- A message with name and address of another member sets both. -/
theorem points_hear {src : String} (hsrc : src ∈ cfg.members) (hne : src ≠ b.selfUrl) :
    (b.stepDown (some (cfg.replicaId src)) (some src)).Points cfg := by
  intro _ addr haddr
  obtain rfl := Option.some.inj haddr
  exact ⟨hne, hsrc, rfl⟩

/-- A message with the name only is right about the address already held, or there is none. -/
theorem points_install_iff {src : String} (hsrc : src ∈ cfg.members) (hne : src ≠ b.selfUrl) :
    (b.stepDown (some (cfg.replicaId src)) none).Points cfg ↔
      ∀ addr, b.leaderAddr = some addr → addr = src := by
  constructor
  · intro h addr haddr
    obtain ⟨-, hmem, hid⟩ := h NodeState.noConfusion addr haddr
    exact cfg.replicaId_inj addr hmem src hsrc (Option.some.inj hid).symm
  · intro h _ addr haddr
    obtain rfl := h addr haddr
    exact ⟨hne, hsrc, rfl⟩

end Bearing

/-! ## What the operations make of it -/

variable {n n' : RaftNode}

/-- A quiet step keeps the bearing. -/
theorem Quiet.bearing (h : Quiet n n') : n'.bearing = n.bearing := by
  have hself := congrArg Params.selfUrl h.params
  have hid := congrArg Frame.leaderId h.frame
  have haddr := congrArg Frame.leaderAddr h.frame
  exact Bearing.mk.injEq _ _ _ _ _ _ _ _ |>.mpr ⟨hself, h.state, hid, haddr⟩

/-- Stepping down keeps old hints when there are no new ones. -/
theorem bearing_becomeFollower (n : RaftNode) (term : ℕ) (leaderId leaderAddr : Option String) :
    (n.becomeFollower term leaderId leaderAddr).bearing =
      n.bearing.stepDown leaderId leaderAddr := by
  unfold becomeFollower
  dsimp only
  split <;> rfl

/-- Stepping down for a later term, when there is one. -/
theorem bearing_ite_becomeFollower (n : RaftNode) (term : ℕ) :
    (if n.currentTerm < term then n.becomeFollower term none none else n).bearing =
      if n.currentTerm < term then n.bearing.stepDown none none else n.bearing := by
  split
  · exact bearing_becomeFollower n term none none
  · rfl

/-- A leader that is heard is noted. -/
theorem bearing_hearLeader (n : RaftNode) (term : ℕ) (leaderId : String)
    (leaderAddr : Option String) :
    (n.hearLeader term leaderId leaderAddr).bearing =
      n.bearing.stepDown (some leaderId) leaderAddr := by
  unfold hearLeader
  split
  · exact bearing_becomeFollower n term _ _
  · next h =>
      have hstate : n.state = .follower := not_not.mp fun hne => h (Or.inr hne)
      show (⟨n.selfUrl, n.state, _, _⟩ : Bearing) = ⟨n.selfUrl, .follower, _, _⟩
      rw [hstate]
      rfl

/-- The address of the leader that a message carries. -/
def Request.leaderAddr : Request → Option String
  | .appendEntries args => args.leaderAddr
  | .heartbeat args => args.leaderAddr
  | .requestVote _ | .syncLog _ | .installSnapshot _ => none

/-- A leader's message, unless its term has passed, is heard. -/
theorem bearing_handle_leader (n : RaftNode) {request : Request} {l : ℕ × String}
    (h : request.leader? = some l) :
    (n.handle request).1.bearing =
      if l.1 < n.currentTerm then n.bearing
      else n.bearing.stepDown (some l.2) request.leaderAddr := by
  cases request with
  | requestVote args => cases h
  | syncLog args => cases h
  | appendEntries args =>
      obtain rfl := Option.some.inj h
      show (n.handleAppendEntries args).1.bearing = _
      unfold handleAppendEntries
      split
      · rfl
      · refine Eq.trans ?_ (bearing_hearLeader n args.term args.leaderId args.leaderAddr)
        dsimp only
        generalize n.hearLeader args.term args.leaderId args.leaderAddr = m
        split
        · have hloop := (quiet_appendEntriesLoop (n := m) m.log.lastIncludedIndex
            args.entries).bearing
          split
          · next heq =>
              rw [heq] at hloop
              exact ((quiet_followCommit _ _).bearing).trans hloop
          · next heq =>
              rw [heq] at hloop
              exact hloop
        · rfl
  | heartbeat args =>
      obtain rfl := Option.some.inj h
      show (n.handleHeartbeat args).1.bearing = _
      unfold handleHeartbeat
      split
      · rfl
      · exact ((quiet_followCommit _ _).bearing).trans (bearing_hearLeader n _ _ _)
  | installSnapshot args =>
      obtain rfl := Option.some.inj h
      show (n.handleInstallSnapshot args).1.bearing = _
      unfold handleInstallSnapshot
      split
      · rfl
      · refine Eq.trans ?_ (bearing_hearLeader n args.term args.leaderId none)
        dsimp only
        split
        · rfl
        · exact (quiet_applySnapshot _ _).bearing

/-- A vote request of a later term makes a node step down without a hint. -/
theorem bearing_handleRequestVote (n : RaftNode) (args : RequestVoteArgs) :
    (n.handleRequestVote args).1.bearing =
      if n.currentTerm < args.term then n.bearing.stepDown none none else n.bearing := by
  rw [← bearing_ite_becomeFollower]
  unfold handleRequestVote
  dsimp only
  generalize (if n.currentTerm < args.term then n.becomeFollower args.term none none else n) = m
  split <;> rfl

/-- So does a catch-up. -/
theorem bearing_handleSyncLog (n : RaftNode) (args : SyncLogArgs) :
    (n.handleSyncLog args).1.bearing =
      if n.currentTerm < args.term then n.bearing.stepDown none none else n.bearing := by
  rw [← bearing_ite_becomeFollower]
  unfold handleSyncLog
  dsimp only
  split <;> rfl

/-- So does the reply to an append. -/
theorem bearing_onAppendEntriesReply (n : RaftNode) (peer : String) (args : AppendEntriesArgs)
    (result : AppendEntriesResult) :
    (n.onAppendEntriesReply peer args result).bearing =
      if n.currentTerm < result.term then n.bearing.stepDown none none else n.bearing := by
  unfold onAppendEntriesReply
  split
  · exact bearing_becomeFollower n _ _ _
  · split
    · split <;> rfl
    · rfl

/-- So does the reply to a snapshot. -/
theorem bearing_onInstallSnapshotReply (n : RaftNode) (peer : String) (args : InstallSnapshotArgs)
    (result : InstallSnapshotResult) :
    (n.onInstallSnapshotReply peer args result).bearing =
      if n.currentTerm < result.term then n.bearing.stepDown none none else n.bearing := by
  unfold onInstallSnapshotReply
  split
  · exact bearing_becomeFollower n _ _ _
  · rfl

/-- So does the reply to a catch-up. -/
theorem bearing_onSyncLogReply (n : RaftNode) (result : SyncLogResult) :
    (n.onSyncLogReply result).bearing =
      if n.currentTerm < result.term then n.bearing.stepDown none none else n.bearing := by
  rw [← bearing_ite_becomeFollower]
  unfold onSyncLogReply
  exact (((quiet_catchUpSnapshot _).trans (quiet_catchUpLoop _ _)).trans
    (quiet_followCommit _ _)).bearing

/-- A write keeps the bearing. -/
theorem bearing_clientAppend (n : RaftNode) (stroke : Stroke) :
    (n.clientAppend stroke).bearing = n.bearing :=
  (quiet_appendLog n (n.clientEntry stroke)).bearing

/-- A node is what it was constructed as. -/
theorem params_construct (params : Params) (p : Persistence) :
    (construct params p).params = params := by
  unfold construct
  cases p.loadSnapshot with
  | none => exact (quiet_applyCommitted _).params
  | some snapshot => exact (quiet_applyCommitted _).params

/-- A new node knows no leader. -/
theorem bearing_construct (params : Params) (p : Persistence) :
    (construct params p).bearing = ⟨params.selfUrl, .follower, none, none⟩ := by
  unfold construct
  cases p.loadSnapshot with
  | none => exact (quiet_applyCommitted _).bearing
  | some snapshot => exact (quiet_applyCommitted _).bearing

/-- Every operation leaves a leader with its own address. -/
theorem leads_run (h : n.bearing.Leads) (op : Op) : (Op.run n op).bearing.Leads := by
  have hbare : ∀ term, (if n.currentTerm < term then n.bearing.stepDown none none
      else n.bearing).Leads := fun term => by
    split
    · exact Bearing.leads_stepDown _ _ _
    · exact h
  cases op with
  | becomeCandidate => exact fun hlead => by cases hlead
  | becomeLeader => exact fun _ => rfl
  | resetElectionTimer => exact h
  | becomeFollower term leaderId leaderAddr =>
      show (n.becomeFollower term leaderId leaderAddr).bearing.Leads
      rw [bearing_becomeFollower]
      exact Bearing.leads_stepDown _ _ _
  | handle request =>
      show (n.handle request).1.bearing.Leads
      cases hl : request.leader? with
      | some l =>
          rw [n.bearing_handle_leader hl]
          split
          · exact h
          · exact Bearing.leads_stepDown _ _ _
      | none =>
          cases request with
          | requestVote args => exact (n.bearing_handleRequestVote args).symm ▸ hbare args.term
          | syncLog args => exact (n.bearing_handleSyncLog args).symm ▸ hbare args.term
          | appendEntries args => cases hl
          | heartbeat args => cases hl
          | installSnapshot args => cases hl
  | onAppendEntriesReply peer args result =>
      exact (n.bearing_onAppendEntriesReply peer args result).symm ▸ hbare result.term
  | onInstallSnapshotReply peer args result =>
      exact (n.bearing_onInstallSnapshotReply peer args result).symm ▸ hbare result.term
  | onSyncLogReply result => exact (n.bearing_onSyncLogReply result).symm ▸ hbare result.term
  | updateCommitIndex => exact (quiet_updateCommitIndex n).bearing.symm ▸ h
  | clientAppend stroke => exact (n.bearing_clientAppend stroke).symm ▸ h

end RaftNode

/-- A request that carries the address of a leader carries that of its sender. -/
def RaftNode.Request.SignedBy (src : String) : RaftNode.Request → Prop
  | .appendEntries args => args.leaderAddr = some src
  | .heartbeat args => args.leaderAddr = some src
  | .requestVote _ | .syncLog _ | .installSnapshot _ => True

/-- What a node issues, it signs. -/
theorem RaftNode.Issues.signedBy {n : RaftNode} {dst : String} {request : RaftNode.Request}
    (h : n.Issues dst request) : request.SignedBy n.selfUrl := by
  cases h with
  | requestVote => trivial
  | heartbeat hlead => rfl
  | syncLog => trivial
  | replicate _ hreq =>
      unfold RaftNode.replicateRequest at hreq
      split at hreq
      · cases hreq
      · dsimp only at hreq
        split at hreq
        · obtain ⟨snapshot, -, rfl⟩ := Option.map_eq_some_iff.mp hreq
          trivial
        · obtain rfl := Option.some.inj hreq
          rfl

/-- The hint of a refused write or read. -/
def Response.refusal : Response → Option String
  | .write false hint => hint
  | .read none hint => hint
  | _ => none

namespace Cluster

open RaftNode (Bearing Request Reply)

variable {cfg : Config} {c c' : Cluster} {action : Action} {t : Turn}

/-- What every run keeps: leaders hold their own addresses, and their messages carry them. -/
structure Advertised (cfg : Config) (c : Cluster) : Prop where
  leads : ∀ a ∈ cfg.members, (c.replicas a).node.bearing.Leads
  signed : ∀ p ∈ c.wire, p.request.SignedBy p.src

/-- A restarted replica does not lead. -/
theorem leads_reboot (hc : ∀ a ∈ cfg.members, (c.replicas a).node.bearing.Leads) (a : String)
    (p : Persistence) : ∀ b ∈ cfg.members, ((c.reboot cfg a p).replicas b).node.bearing.Leads := by
  intro b hb
  by_cases hne : b = a
  · rw [hne, replicas_reboot_self]
    show (RaftNode.construct _ _).bearing.Leads
    rw [RaftNode.bearing_construct]
    exact fun hlead => by cases hlead
  · rw [replicas_reboot_ne c p hne]
    exact hc b hb

/-- Leaders advertise their own address, after every event. -/
theorem Advertised.next (hc : Advertised cfg c) {e : Event} (h : next cfg c e = some c') :
    Advertised cfg c' := by
  rcases next_cases h with ⟨action, t, rfl, ha, ht, rfl⟩ | ⟨action, t, calls, rfl, ha, -, rfl⟩ |
    ⟨a, calls, rfl, ha, rfl⟩
  · refine ⟨fun b hb => ?_, fun p hp => ?_⟩
    · by_cases hne : b = action.replica
      · rw [hne, replicas_finishTurn_self]
        refine Runs.Reach.invariant (I := fun n => n.bearing.Leads) (hc.leads _ ha) ?_
          (moves_turn ht)
        intro n op n' hn _ hrun
        obtain rfl := Option.some.inj hrun
        exact RaftNode.leads_run hn op
      · rw [replicas_finishTurn_ne c t hne]
        exact hc.leads b hb
    · rcases List.mem_append.mp hp with hold | hnew
      · exact hc.signed p hold
      · obtain ⟨hsrc, hissues⟩ := issues_turn ht p hnew
        exact hsrc ▸ hissues.signedBy
  · exact ⟨leads_reboot hc.leads _ _, hc.signed⟩
  · exact ⟨leads_reboot hc.leads _ _, hc.signed⟩

/-- At the start nobody leads. -/
theorem advertised_init (cfg : Config) : Advertised cfg (.init cfg) := by
  refine ⟨fun a _ => ?_, fun p hp => by cases hp⟩
  show (RaftNode.construct _ _).bearing.Leads
  rw [RaftNode.bearing_construct]
  exact fun hlead => by cases hlead

/-- A leader's message, of any turn, names its sender, which leads, and goes to a peer. -/
theorem leads_turn (h : c.turn action = some t) {p : Packet} (hp : p ∈ t.sent) {l : ℕ × String}
    (hl : p.request.leader? = some l) :
    l = (t.replica.node.currentTerm, t.replica.node.replicaId) ∧
      t.replica.node.state = .leader ∧ p.dst ∈ t.replica.node.peers := by
  rcases turn_cases h with hplain | rfl | ⟨k, rpc, outcome, -, hrun⟩ | ⟨k, hrun⟩ |
    ⟨packet, -, -, rfl⟩
  · obtain ⟨-, ps, hsent, -, hps⟩ := hplain.sends
    have hmem : p ∈ ps := by simpa [hsent, startTurn] using hp
    exact (hps p hmem).1.leads l hl
  · unfold Turn.runElection at hp
    dsimp only at hp
    rw [Turn.sendAll_eq] at hp
    obtain ⟨q, -, rfl⟩ := List.mem_map.mp hp
    cases hl
  · obtain ⟨e, q, -, -, rfl⟩ := Turn.voteReply_some hrun
    cases hp
  · obtain ⟨e, -, rfl⟩ := Turn.voteFinally_some hrun
    cases hp
  · cases hp

/-- Replicas are what they were constructed as, and a leader's message names its sender and goes
to a peer. -/
structure Addressed (cfg : Config) (c : Cluster) : Prop where
  params : ∀ a ∈ cfg.members, (c.replicas a).node.params = cfg.params a
  src : ∀ p ∈ c.wire, p.src ∈ cfg.members
  leads : ∀ p ∈ c.wire, ∀ l, p.request.leader? = some l →
    l.2 = cfg.replicaId p.src ∧ p.dst ∈ cfg.peers p.src

/-- A turn keeps the parameters of its node. -/
theorem Addressed.turn (hc : Addressed cfg c) (ha : action.replica ∈ cfg.members)
    (h : c.turn action = some t) : t.replica.node.params = cfg.params action.replica := by
  refine Runs.Reach.invariant (I := fun n => n.params = cfg.params action.replica)
    (hc.params _ ha) ?_ (moves_turn h)
  intro n op n' hn _ hrun
  obtain rfl := Option.some.inj hrun
  exact (RaftNode.params_run n op).trans hn

/-- A replica that comes up again is constructed as before. -/
theorem Addressed.reboot (hc : Addressed cfg c) (a : String) (p : Persistence) :
    Addressed cfg (c.reboot cfg a p) := by
  refine ⟨fun b hb => ?_, hc.src, hc.leads⟩
  by_cases hne : b = a
  · rw [hne, replicas_reboot_self]
    exact RaftNode.params_construct _ p
  · rw [replicas_reboot_ne c p hne]
    exact hc.params b hb

/-- Addresses are those of the configuration, after every event. -/
theorem Addressed.next (hc : Addressed cfg c) {e : Event} (h : next cfg c e = some c') :
    Addressed cfg c' := by
  rcases next_cases h with ⟨action, t, rfl, ha, ht, rfl⟩ | ⟨action, t, calls, rfl, -, -, rfl⟩ |
    ⟨a, calls, rfl, -, rfl⟩
  · have hparams := hc.turn ha ht
    have hsrc : ∀ p ∈ t.sent, p.src = action.replica := fun p hp =>
      (issues_turn ht p hp).1.trans (congrArg RaftNode.Params.selfUrl hparams)
    refine ⟨fun b hb => ?_, fun p hp => ?_, fun p hp l hl => ?_⟩
    · by_cases hne : b = action.replica
      · rw [hne, replicas_finishTurn_self]
        exact hparams
      · rw [replicas_finishTurn_ne c t hne]
        exact hc.params b hb
    · rcases List.mem_append.mp hp with hold | hnew
      · exact hc.src p hold
      · exact (hsrc p hnew).symm ▸ ha
    · rcases List.mem_append.mp hp with hold | hnew
      · exact hc.leads p hold l hl
      · obtain ⟨rfl, -, hpeer⟩ := leads_turn ht hnew hl
        rw [hsrc p hnew]
        have hpeers : t.replica.node.peers = cfg.peers action.replica :=
          congrArg RaftNode.Params.peers hparams
        exact ⟨congrArg RaftNode.Params.replicaId hparams, hpeers ▸ hpeer⟩
  · exact hc.reboot _ _
  · exact hc.reboot _ _

/-- So they are at the start. -/
theorem addressed_init (cfg : Config) : Addressed cfg (.init cfg) :=
  ⟨fun _ _ => RaftNode.params_construct _ _, (fun p hp => by cases hp), fun p hp => by cases hp⟩

/-! ## Which turns keep the hints right -/

/-- No leader learns of a later term from these. -/
def Unchallenged (n : RaftNode) (terms : List ℕ) : Prop :=
  n.state = .leader → ∀ term ∈ terms, term ≤ n.currentTerm

/-- The term in the reply that a replication takes in. -/
def replyTerms : Request → Option Reply → List ℕ
  | .appendEntries _, some (.appendEntries result) => [result.term]
  | .installSnapshot _, some (.installSnapshot result) => [result.term]
  | _, _ => []

/-- The requests that keep the hint of node `n` right when they come from `src`. -/
def KeepsBearing (n : RaftNode) (src : String) : Request → Prop
  | .requestVote args => Unchallenged n [args.term]
  | .syncLog args => Unchallenged n [args.term]
  | .installSnapshot args => n.currentTerm ≤ args.term →
      ∀ addr, n.leaderAddr = some addr → addr = src
  | .appendEntries _ | .heartbeat _ => True

/-- **The turns that keep the hints right:** no leader steps down on the bare term of a reply or
a request, no replica stands for election while it holds an address, and no snapshot arrives
from another leader than the one whose address is held. -/
def Steady (c : Cluster) : Action → Prop
  | .electionTimeout a =>
      (c.replicas a).node.state ≠ .leader → (c.replicas a).node.leaderAddr = none
  | .sendReply a k outcome => ∀ send w, (c.replicas a).sends[k]? = some send →
      send.waiting = some w → Unchallenged (c.replicas a).node (replyTerms w.2 outcome)
  | .catchUpReply a _ outcome =>
      Unchallenged (c.replicas a).node (outcome.toList.map SyncLogResult.term)
  | .readResume a k => ∀ r, (c.replicas a).reads[k]? = some r →
      Unchallenged (c.replicas a).node
        ((r.heartbeats.filterMap fun h => h.2.join).map HeartbeatResult.term)
  | .deliver packet => KeepsBearing (c.replicas packet.dst).node packet.src packet.request
  | _ => True

/-- The events that keep the hints right: a crash or a restart forgets them. -/
def KeepsHints (c : Cluster) : Event → Prop
  | .act action => c.Steady action
  | .crash _ _ => True
  | .restart _ _ => True

/-- Stepping down on a bare term keeps the hint right exactly when the node did not lead. -/
theorem points_unchallenged_iff {n : RaftNode} {term : ℕ} (hn : n.bearing.Points cfg)
    (hlead : n.bearing.Leads) :
    (if n.currentTerm < term then n.bearing.stepDown none none else n.bearing).Points cfg ↔
      Unchallenged n [term] := by
  have hone : Unchallenged n [term] ↔ (n.state = .leader → term ≤ n.currentTerm) := by
    unfold Unchallenged
    simp
  rw [hone]
  split
  · next hlt =>
      rw [RaftNode.Bearing.points_stepDown_iff hn hlead]
      exact ⟨fun hne hstate => absurd hstate hne, fun h hstate => by
        have := h hstate
        omega⟩
  · next hle => exact ⟨fun _ _ => Nat.not_lt.mp hle, fun _ => hn⟩

/-- Counting acknowledgements keeps right hints unless one is of a later term. -/
theorem points_countAcks_iff {n : RaftNode} (hn : n.bearing.Points cfg) (hlead : n.bearing.Leads)
    (acks : ℕ) (results : List (Option HeartbeatResult)) :
    (n.countAcks acks results).1.bearing.Points cfg ↔
      Unchallenged n ((results.filterMap id).map HeartbeatResult.term) := by
  induction results generalizing acks with
  | nil => exact ⟨fun _ _ term hterm => (List.not_mem_nil hterm).elim, fun _ => hn⟩
  | cons r rest ih =>
      cases r with
      | none => exact ih acks
      | some r =>
          have hcons : Unchallenged n (((some r :: rest).filterMap id).map HeartbeatResult.term) ↔
              Unchallenged n [r.term] ∧
                Unchallenged n ((rest.filterMap id).map HeartbeatResult.term) := by
            simp only [Unchallenged, List.filterMap_cons, id_eq, List.map_cons,
              List.forall_mem_cons]
            tauto
          have hone : (if n.currentTerm < r.term then n.bearing.stepDown none none
              else n.bearing).Points cfg ↔ Unchallenged n [r.term] :=
            points_unchallenged_iff hn hlead
          rw [hcons, ← hone]
          unfold RaftNode.countAcks
          split
          · next hlt =>
              rw [RaftNode.bearing_becomeFollower]
              refine ⟨fun h => ⟨h, fun hstate => ?_⟩, And.left⟩
              exact absurd hstate ((RaftNode.Bearing.points_stepDown_iff hn hlead).mp h)
          · rw [ih]
            exact ⟨fun h => ⟨hn, h⟩, And.right⟩

/-- So does the read that counts them. -/
theorem points_confirmLeadership_iff {n : RaftNode} (hn : n.bearing.Points cfg)
    (hlead : n.bearing.Leads) (term : ℕ) (results : List (Option HeartbeatResult)) :
    (n.confirmLeadership term results).1.bearing.Points cfg ↔
      Unchallenged n ((results.filterMap id).map HeartbeatResult.term) := by
  rw [← points_countAcks_iff hn hlead 1]
  unfold RaftNode.confirmLeadership
  split <;> next h => rw [h]

/-- So does a reply to a replication call. -/
theorem points_onSendReply_iff {n : RaftNode} (hn : n.bearing.Points cfg) (hlead : n.bearing.Leads)
    (peer : String) (request : Request) (outcome : Option Reply) :
    (Turn.onSendReply n peer request outcome).bearing.Points cfg ↔
      Unchallenged n (replyTerms request outcome) := by
  unfold Turn.onSendReply
  split
  · rw [RaftNode.bearing_onAppendEntriesReply]
    exact points_unchallenged_iff hn hlead
  · rw [RaftNode.bearing_onInstallSnapshotReply]
    exact points_unchallenged_iff hn hlead
  · next happend hinstall =>
      have hnil : replyTerms request outcome = [] := by
        unfold replyTerms
        split
        · exact (happend _ _ rfl rfl).elim
        · exact (hinstall _ _ rfl rfl).elim
        · rfl
      rw [hnil]
      exact ⟨fun _ _ term hterm => (List.not_mem_nil hterm).elim, fun _ => hn⟩

/-- Winning an election keeps the hint right, as does not winning it. -/
theorem points_finalize {n : RaftNode} (hn : n.bearing.Points cfg) (e : Election) :
    (Turn.finalize n e).1.bearing.Points cfg := by
  rcases (Turn.finalize_cases n e).2 with hsame | hreset | ⟨-, -, -, hwin⟩
  · rw [hsame]
    exact hn
  · rw [hreset]
    exact hn
  · rw [hwin]
    exact fun hstate => absurd rfl hstate

/-- Only a candidate listens to votes, and it holds no address that it could be wrong about. -/
theorem points_onVote {n : RaftNode} (hn : n.bearing.Points cfg) (hlead : n.bearing.Leads)
    (e : Election) (peer : String) (reply : RequestVoteResult) :
    (Turn.onVote n e peer reply).1.bearing.Points cfg := by
  unfold Turn.onVote
  split
  · exact hn
  · next hopen =>
      have hcand : n.state = .candidate := not_not.mp fun hne => hopen (Or.inr (Or.inl hne))
      split
      · refine points_finalize ?_ _
        rw [RaftNode.bearing_becomeFollower, RaftNode.Bearing.points_stepDown_iff hn hlead]
        show n.state ≠ .leader
        rw [hcand]
        decide
      · split
        · dsimp only
          split
          · exact points_finalize hn _
          · exact hn
        · exact hn

/-- A candidate keeps the old hint and no leader, unless it wins at once. -/
theorem points_electionTimeout_iff (ha : action.replica ∈ cfg.members) {n : RaftNode}
    (hpeers : n.peers = cfg.peers action.replica) (hself : n.selfUrl = action.replica)
    (hn : n.bearing.Points cfg) (hstate : n.state ≠ .leader) (u : Turn) :
    (u.openElection n.becomeCandidate).1.bearing.Points cfg ↔ n.leaderAddr = none := by
  have hstand : n.becomeCandidate.bearing.Points cfg ↔ n.leaderAddr = none :=
    RaftNode.Bearing.points_stand_iff (b := n.bearing)
  unfold Turn.openElection
  split
  · next hnil =>
      -- whoever has no peers has heard of nobody
      have hnone : n.leaderAddr = none := by
        cases haddr : n.leaderAddr with
        | none => rfl
        | some addr =>
            obtain ⟨hne, hmem, -⟩ := hn hstate addr haddr
            have hne : addr ≠ action.replica := hself ▸ hne
            have hpeer := (cfg.mem_peers _ ha addr).mpr ⟨hmem, hne⟩
            have hnil : n.peers = [] := hnil
            rw [← hpeers, hnil] at hpeer
            cases hpeer
      exact ⟨fun _ => hnone, fun _ => points_finalize (hstand.mpr hnone) _⟩
  · exact hstand

/-- Serving a request. -/
theorem points_handle_iff {n : RaftNode} (hn : n.bearing.Points cfg) (hlead : n.bearing.Leads)
    {src : String} {request : Request} (hsrc : src ∈ cfg.members) (hsigned : request.SignedBy src)
    (hleader : ∀ l, request.leader? = some l → src ≠ n.selfUrl ∧ l.2 = cfg.replicaId src) :
    (n.handle request).1.bearing.Points cfg ↔ KeepsBearing n src request := by
  -- a message that sets both fields is right, whatever the node knew before
  have hhear : ∀ l, request.leader? = some l → request.leaderAddr = some src →
      (n.handle request).1.bearing.Points cfg := by
    intro l hl haddr
    obtain ⟨hne, hid⟩ := hleader l hl
    rw [n.bearing_handle_leader hl, haddr, hid]
    split
    · exact hn
    · exact RaftNode.Bearing.points_hear hsrc hne
  cases request with
  | requestVote args =>
      show (n.handleRequestVote args).1.bearing.Points cfg ↔ _
      rw [n.bearing_handleRequestVote]
      exact points_unchallenged_iff hn hlead
  | syncLog args =>
      show (n.handleSyncLog args).1.bearing.Points cfg ↔ _
      rw [n.bearing_handleSyncLog]
      exact points_unchallenged_iff hn hlead
  | appendEntries args => exact iff_true_intro (hhear _ rfl hsigned)
  | heartbeat args => exact iff_true_intro (hhear _ rfl hsigned)
  | installSnapshot args =>
      obtain ⟨hne, hid⟩ := hleader _ rfl
      rw [n.bearing_handle_leader rfl, hid]
      split
      · next hlt => exact ⟨fun _ hle => absurd hlt (Nat.not_lt.mpr hle), fun _ => hn⟩
      · next hle =>
          rw [show (Request.installSnapshot args).leaderAddr = none from rfl,
            RaftNode.Bearing.points_install_iff hsrc hne]
          exact ⟨fun h _ => h, fun h => h (Nat.not_lt.mp hle)⟩

/-! What the turns that talk to peers or clients leave alone. -/

/-- A round of heartbeats keeps the bearing. -/
theorem bearing_sendHeartbeats (u : Turn) :
    u.sendHeartbeats.replica.node.bearing = u.replica.node.bearing := by
  unfold Turn.sendHeartbeats
  split
  · rfl
  · exact congrArg RaftNode.bearing (node_driveAll _ _)

/-- So does the end of one. -/
theorem bearing_resumeRound (u : Turn) (k : ℕ) :
    (u.resumeRound k).replica.node.bearing = u.replica.node.bearing := by
  unfold Turn.resumeRound
  dsimp only
  split
  · exact (RaftNode.quiet_updateCommitIndex _).bearing
  · rfl

/-- So does a write. -/
theorem bearing_clientWrite (u : Turn) (stroke : Stroke) :
    (u.clientWrite stroke).replica.node.bearing = u.replica.node.bearing := by
  unfold Turn.clientWrite
  dsimp only
  split
  · rfl
  · exact (congrArg RaftNode.bearing (node_driveAll _ _)).trans
      (RaftNode.bearing_clientAppend _ stroke)

/-- So does a write that resumes. -/
theorem bearing_resumeWrite (u : Turn) (k : ℕ) (w : Write) :
    (u.resumeWrite k w).replica.node.bearing = u.replica.node.bearing := by
  unfold Turn.resumeWrite
  dsimp only
  split
  · rfl
  · split
    · exact (RaftNode.quiet_updateCommitIndex _).bearing
    · split
      · exact congrArg RaftNode.bearing (node_driveAll _ _)
      · rfl

/-- So does asking for a log. -/
theorem bearing_requestCatchUp (u : Turn) :
    u.requestCatchUp.replica.node.bearing = u.replica.node.bearing := by
  unfold Turn.requestCatchUp
  split
  · rfl
  · exact congrArg RaftNode.bearing (node_askCatchUp _ _)

/-- So does a read. -/
theorem bearing_readBoardState (u : Turn) (boardId : String) :
    (u.readBoardState boardId).replica.node.bearing = u.replica.node.bearing := by
  unfold Turn.readBoardState
  dsimp only
  split
  · rfl
  · rw [Turn.sendAll_eq]
    rfl

section Turns

variable (hc : Addressed cfg c) (hadv : Advertised cfg c) (ha : action.replica ∈ cfg.members)
  (hn : (c.start action).bearing.Points cfg) (ht : c.turn action = some t)

include hn ht

include hc ha in
/-- A timeout keeps the hint right if the node leads or has none. -/
theorem points_timeout_iff (hact : action = .electionTimeout action.replica) :
    t.replica.node.bearing.Points cfg ↔ c.Steady action := by
  have hparams := hc.params _ ha
  rw [hact] at ht ⊢
  simp only [turn] at ht
  split at ht
  · next hstate =>
      obtain rfl := Option.some.inj ht
      exact ⟨fun _ hne => absurd hstate hne, fun _ => hn⟩
  · next hstate =>
      obtain rfl := Option.some.inj ht
      have hopen := points_electionTimeout_iff (n := c.start action) ha
        (congrArg RaftNode.Params.peers hparams) (congrArg RaftNode.Params.selfUrl hparams)
        hn hstate (c.startTurn action.replica)
      show (c.startTurn action.replica).runElection.replica.node.bearing.Points cfg ↔ _
      unfold Turn.runElection
      dsimp only
      rw [Turn.sendAll_eq]
      exact hopen.trans ⟨fun h _ => h, fun h => h hstate⟩

include hadv ha in
/-- A vote keeps the hint right, whatever it says. -/
theorem points_votes (hvotes : action.Votes) (hno : action ≠ .electionTimeout action.replica) :
    t.replica.node.bearing.Points cfg := by
  have hlead : (c.start action).bearing.Leads := hadv.leads _ ha
  cases action with
  | electionTimeout a => exact absurd rfl hno
  | voteReply a k rpc outcome =>
      simp only [turn, Option.ite_none_right_eq_some] at ht
      obtain ⟨e, q, -, -, rfl⟩ := Turn.voteReply_some ht.2
      cases outcome with
      | none => exact hn
      | some reply => exact points_onVote hn hlead _ _ reply
  | voteFinally a k =>
      obtain ⟨e, -, rfl⟩ := Turn.voteFinally_some ht
      show (Turn.onVoteSettled _ e).1.bearing.Points cfg
      unfold Turn.onVoteSettled
      dsimp only
      split
      · exact points_finalize hn _
      · exact hn
  | _ => exact absurd hvotes not_false

end Turns

/-- The settling of a replication. -/
theorem points_sendReply_iff {a : String} {k : ℕ} {outcome : Option Reply}
    (hlead : (c.startTurn a).replica.node.bearing.Leads)
    (hn : (c.startTurn a).replica.node.bearing.Points cfg)
    (ht : c.turn (.sendReply a k outcome) = some t) :
    t.replica.node.bearing.Points cfg ↔ c.Steady (.sendReply a k outcome) := by
  simp only [turn] at ht
  split at ht
  · next rpc request hwait =>
      obtain ⟨-, ht⟩ := Option.ite_none_right_eq_some.mp ht
      obtain ⟨send, hk, hw⟩ := Option.bind_eq_some_iff.mp hwait
      obtain ⟨send', w, hk', hw', rfl⟩ := Turn.sendReply_some ht
      obtain rfl := Option.some.inj (hk.symm.trans hk')
      obtain rfl := Option.some.inj (hw.symm.trans hw')
      have hsteady : c.Steady (.sendReply a k outcome) ↔
          Unchallenged (c.replicas a).node (replyTerms request outcome) := by
        refine ⟨fun h => h send (rpc, request) hk hw, fun h send' w hk' hw' => ?_⟩
        obtain rfl := Option.some.inj (hk.symm.trans hk')
        obtain rfl := Option.some.inj (hw.symm.trans hw')
        exact h
      rw [hsteady]
      exact points_onSendReply_iff hn hlead send.peer request outcome
  · cases ht

/-- The settling of a catch-up. -/
theorem points_catchUpReply_iff {a : String} {k : ℕ} {outcome : Option SyncLogResult}
    (hlead : (c.startTurn a).replica.node.bearing.Leads)
    (hn : (c.startTurn a).replica.node.bearing.Points cfg)
    (ht : c.turn (.catchUpReply a k outcome) = some t) :
    t.replica.node.bearing.Points cfg ↔ c.Steady (.catchUpReply a k outcome) := by
  simp only [turn] at ht
  split at ht
  · obtain ⟨task, -, rfl⟩ := Turn.catchUpReply_some (Option.ite_none_right_eq_some.mp ht).2
    cases outcome with
    | some result =>
        show ((c.startTurn a).replica.node.onSyncLogReply result).bearing.Points cfg ↔ _
        rw [RaftNode.bearing_onSyncLogReply]
        exact points_unchallenged_iff hn hlead
    | none =>
        refine iff_of_true ?_ fun _ term hterm => (List.not_mem_nil hterm).elim
        have hsame : (((c.startTurn a).setCatchUps ((c.startTurn a).replica.catchUps.eraseIdx
            k)).askCatchUp task.remaining).1.replica.node = (c.startTurn a).replica.node :=
          node_askCatchUp _ _
        show RaftNode.Bearing.Points cfg (RaftNode.bearing _)
        rw [← hsame] at hn
        exact hn
  · cases ht

/-- The confirmation of a leadership. -/
theorem points_readResume_iff {a : String} {k : ℕ}
    (hlead : (c.startTurn a).replica.node.bearing.Leads)
    (hn : (c.startTurn a).replica.node.bearing.Points cfg)
    (ht : c.turn (.readResume a k) = some t) :
    t.replica.node.bearing.Points cfg ↔ c.Steady (.readResume a k) := by
  obtain ⟨r, hk, -, -, rfl⟩ := Turn.readResume_some ht
  have hsteady : c.Steady (.readResume a k) ↔ Unchallenged (c.replicas a).node
      ((r.heartbeats.filterMap fun h => h.2.join).map HeartbeatResult.term) := by
    refine ⟨fun h => h r hk, fun h r' hk' => ?_⟩
    obtain rfl := Option.some.inj (hk.symm.trans hk')
    exact h
  rw [hsteady]
  have hconfirm := points_confirmLeadership_iff hn hlead r.term
    (r.heartbeats.map fun h => h.2.join)
  rw [List.filterMap_map] at hconfirm
  exact hconfirm

/-- **Which turns keep the hint right.** -/
theorem points_turn_iff (hc : Addressed cfg c) (hadv : Advertised cfg c)
    (ha : action.replica ∈ cfg.members)
    (hn : (c.start action).bearing.Points cfg) (ht : c.turn action = some t) :
    t.replica.node.bearing.Points cfg ↔ c.Steady action := by
  have hlead : (c.start action).bearing.Leads := hadv.leads _ ha
  have hsame : t.replica.node.bearing = (c.start action).bearing →
      (t.replica.node.bearing.Points cfg ↔ True) := fun heq => by
    rw [heq]
    exact iff_true_intro hn
  cases action with
  | electionTimeout a => exact points_timeout_iff hc ha hn ht rfl
  | voteReply a k rpc outcome =>
      exact iff_true_intro (points_votes hadv ha hn ht trivial nofun)
  | voteFinally a k => exact iff_true_intro (points_votes hadv ha hn ht trivial nofun)
  | sendHeartbeats a =>
      obtain rfl := Option.some.inj ht
      exact hsame (bearing_sendHeartbeats _)
  | roundResume a k =>
      obtain ⟨promises, -, rfl⟩ := Turn.roundResume_some ht
      exact hsame (bearing_resumeRound _ k)
  | sendReply a k outcome => exact points_sendReply_iff hlead hn ht
  | sendFinally a k =>
      obtain ⟨send, -, rfl⟩ := Turn.sendFinally_some ht
      exact iff_true_intro hn
  | clientWrite a stroke =>
      obtain rfl := Option.some.inj ht
      exact hsame (bearing_clientWrite _ stroke)
  | writeResume a k =>
      obtain ⟨w, -, rfl⟩ := Turn.writeResume_some ht
      exact hsame (bearing_resumeWrite _ k w)
  | requestCatchUp a =>
      obtain rfl := Option.some.inj ht
      exact hsame (bearing_requestCatchUp _)
  | catchUpReply a k outcome => exact points_catchUpReply_iff hlead hn ht
  | readBoardState a boardId =>
      obtain rfl := Option.some.inj ht
      exact hsame (bearing_readBoardState _ boardId)
  | readReply a k rpc outcome =>
      simp only [turn, Option.ite_none_right_eq_some] at ht
      obtain ⟨r, -, -, rfl⟩ := Turn.readReply_some ht.2
      exact iff_true_intro hn
  | readResume a k => exact points_readResume_iff hlead hn ht
  | readFinish a k =>
      obtain ⟨r, confirmed, -, -, rfl⟩ := Turn.readFinish_some ht
      exact iff_true_intro hn
  | deliver packet =>
      simp only [turn, Option.ite_none_right_eq_some] at ht
      obtain ⟨hmem, ht⟩ := ht
      obtain rfl := Option.some.inj ht
      have hsrc := hc.src packet hmem
      refine points_handle_iff hn hlead hsrc (hadv.signed packet hmem) ?_
      intro l hl
      obtain ⟨hid, hpeer⟩ := hc.leads packet hmem l hl
      have hself := congrArg RaftNode.Params.selfUrl (hc.params _ ha)
      refine ⟨fun heq => ?_, hid⟩
      exact ((cfg.mem_peers _ hsrc _).mp hpeer).2 (hself.symm.trans heq.symm)

/-! ## Refusals -/

/-- Driving the peers answers no client. -/
theorem responses_driveAll (u : Turn) (peers : List String) :
    (u.driveAll peers).1.responses = u.responses := (u.driveAll_spec peers).1.responses

/-- The turn answers no client with a hint, unless the hint is the address held and the node is
left alone. -/
def Refuses (u t : Turn) : Prop :=
  ∀ id r hint, (id, r) ∈ t.responses → r.refusal = some hint → (id, r) ∈ u.responses ∨
    t.replica.node = u.replica.node ∧ u.replica.node.leaderAddr = some hint

/-- Answers that come last. -/
theorem mem_responses_respond {u : Turn} {id id' : ℕ} {r r' : Response}
    (h : (id, r) ∈ (u.respond id' r').responses) : (id, r) ∈ u.responses ∨ r = r' :=
  (List.mem_append.mp h).imp_right fun hnew => (Prod.mk.inj (List.mem_singleton.mp hnew)).2

/-- A write is refused with the hint of now. -/
theorem refuses_clientWrite (u : Turn) (stroke : Stroke) : Refuses u (u.clientWrite stroke) := by
  intro id r hint hmem hr
  unfold Turn.clientWrite at hmem ⊢
  dsimp only at hmem ⊢
  split at hmem
  · next hstate =>
      rw [if_pos hstate]
      rcases mem_responses_respond hmem with hold | rfl
      · exact Or.inl hold
      · exact Or.inr ⟨rfl, hr⟩
  · have hold : (id, r) ∈ ((u.number.setNode (u.number.replica.node.clientAppend stroke)).driveAll
        u.number.replica.node.peers).1.responses := hmem
    rw [responses_driveAll] at hold
    exact Or.inl hold

/-- So is one that resumes on a node that leads no more. -/
theorem refuses_resumeWrite (u : Turn) (k : ℕ) (w : Write) : Refuses u (u.resumeWrite k w) := by
  intro id r hint hmem hr
  unfold Turn.resumeWrite at hmem ⊢
  dsimp only at hmem ⊢
  split at hmem
  · next hstate =>
      rw [if_pos hstate]
      rcases mem_responses_respond hmem with hold | rfl
      · exact Or.inl hold
      · exact Or.inr ⟨rfl, hr⟩
  · split at hmem
    · rcases mem_responses_respond hmem with hold | rfl
      · exact Or.inl hold
      · cases hr
    · split at hmem
      · exact Or.inl (responses_driveAll _ _ ▸ hmem)
      · rcases mem_responses_respond hmem with hold | rfl
        · exact Or.inl hold
        · cases hr

/-- So is a read. -/
theorem refuses_readBoardState (u : Turn) (boardId : String) :
    Refuses u (u.readBoardState boardId) := by
  intro id r hint hmem hr
  unfold Turn.readBoardState at hmem ⊢
  dsimp only at hmem ⊢
  split at hmem
  · next hstate =>
      rw [if_pos hstate]
      rcases mem_responses_respond hmem with hold | rfl
      · exact Or.inl hold
      · exact Or.inr ⟨rfl, hr⟩
  · rw [Turn.sendAll_eq] at hmem
    exact Or.inl hmem

/-- So is a read that was not confirmed. -/
theorem refuses_finishRead (u : Turn) (k : ℕ) (r : Read) (confirmed : Bool) :
    Refuses u (u.finishRead k r confirmed) := by
  intro id response hint hmem hr
  rcases mem_responses_respond hmem with hold | rfl
  · exact Or.inl hold
  · cases confirmed with
    | true => cases hr
    | false => exact Or.inr ⟨rfl, hr⟩

/-- Every turn. -/
theorem refuses_turn (ht : c.turn action = some t) : Refuses (c.startTurn action.replica) t := by
  by_cases hanswers : action.Answers
  · cases action with
    | clientWrite a stroke => exact Option.some.inj ht ▸ refuses_clientWrite _ stroke
    | writeResume a k =>
        obtain ⟨w, -, rfl⟩ := Turn.writeResume_some ht
        exact refuses_resumeWrite _ k w
    | readBoardState a boardId =>
        exact Option.some.inj ht ▸ refuses_readBoardState _ boardId
    | readFinish a k =>
        obtain ⟨read, confirmed, -, -, rfl⟩ := Turn.readFinish_some ht
        exact refuses_finishRead _ k read confirmed
    | _ => exact absurd hanswers not_false
  · intro id r hint hmem _
    exact Or.inl ((touches_turn ht).responses hanswers ▸ hmem)

/-- **A refusal** hints at the address that the node holds, and changes nothing. -/
theorem refusals_turn (ht : c.turn action = some t) {id : ℕ} {r : Response} {hint : String}
    (hmem : (id, r) ∈ t.responses) (hr : r.refusal = some hint) :
    t.replica.node = c.start action ∧ (c.start action).leaderAddr = some hint := by
  rcases refuses_turn ht id r hint hmem hr with hold | hheld
  · cases hold
  · exact hheld

/-- **Every refusal is right:** when a replica that does not lead refuses a write or a read with
a hint, the hint is not its own address, and it is the address of the member that the replica
names as the leader. -/
def RefusesRightly (cfg : Config) (c : Cluster) : Prop :=
  ∀ action t id r hint, action.replica ∈ cfg.members → c.turn action = some t →
    (id, r) ∈ t.responses → r.refusal = some hint → t.replica.node.state ≠ .leader →
      hint ≠ t.replica.node.selfUrl ∧ ∃ b ∈ cfg.members, (c.replicas b).node.selfUrl = hint ∧
        t.replica.node.leaderId = some (c.replicas b).node.replicaId

/-- A replica may be asked for a write at any moment. -/
theorem refusesRightly_iff (hc : Addressed cfg c) :
    RefusesRightly cfg c ↔ ∀ a ∈ cfg.members, (c.replicas a).node.bearing.Points cfg := by
  have hself : ∀ b ∈ cfg.members, (c.replicas b).node.selfUrl = b := fun b hb =>
    congrArg RaftNode.Params.selfUrl (hc.params b hb)
  have hid : ∀ b ∈ cfg.members, (c.replicas b).node.replicaId = cfg.replicaId b := fun b hb =>
    congrArg RaftNode.Params.replicaId (hc.params b hb)
  constructor
  · intro h a ha hstate addr haddr
    have hrefuse : c.turn (.clientWrite a (.dot "x" "board")) =
        some ((c.startTurn a).number.respond c.nextId (.write false (some addr))) := by
      show some ((c.startTurn a).clientWrite _) = _
      have haddr : (c.startTurn a).number.replica.node.leaderAddr = some addr := haddr
      have hstate : (c.startTurn a).number.replica.node.state ≠ .leader := hstate
      unfold Turn.clientWrite
      dsimp only
      rw [haddr, if_pos hstate]
      rfl
    obtain ⟨hne, b, hb, hurl, hleader⟩ := h (.clientWrite a _) _ c.nextId _ addr ha hrefuse
      (List.mem_singleton_self _) rfl hstate
    obtain rfl : b = addr := (hself b hb).symm.trans hurl
    exact ⟨hne, hb, (hid b hb) ▸ hleader⟩
  · intro h action t id r hint ha ht hmem hr hstate
    obtain ⟨hnode, haddr⟩ := refusals_turn ht hmem hr
    rw [hnode] at hstate ⊢
    obtain ⟨hne, hmember, hleader⟩ := h _ ha hstate hint haddr
    exact ⟨hne, hint, hmember, hself hint hmember, (hid hint hmember).symm ▸ hleader⟩

/-- One event. -/
theorem points_next_iff (hc : Addressed cfg c) (hadv : Advertised cfg c)
    (hp : ∀ a ∈ cfg.members, (c.replicas a).node.bearing.Points cfg) {e : Event}
    (h : next cfg c e = some c') :
    KeepsHints c e ↔ ∀ a ∈ cfg.members, (c'.replicas a).node.bearing.Points cfg := by
  have hreboot : ∀ a p, ∀ b ∈ cfg.members,
      ((c.reboot cfg a p).replicas b).node.bearing.Points cfg := by
    intro a p b hb
    by_cases hne : b = a
    · rw [hne, replicas_reboot_self]
      show (RaftNode.construct _ _).bearing.Points cfg
      rw [RaftNode.bearing_construct]
      exact fun _ addr haddr => by cases haddr
    · rw [replicas_reboot_ne c p hne]
      exact hp b hb
  rcases next_cases h with ⟨action, t, rfl, ha, ht, rfl⟩ | ⟨action, t, calls, rfl, -, -, rfl⟩ |
    ⟨a, calls, rfl, -, rfl⟩
  · have hturn := points_turn_iff hc hadv ha (hp _ ha) ht
    refine ⟨fun hsteady b hb => ?_, fun hall => ?_⟩
    · by_cases hne : b = action.replica
      · rw [hne, replicas_finishTurn_self]
        exact hturn.mpr hsteady
      · rw [replicas_finishTurn_ne c t hne]
        exact hp b hb
    · have hself := hall _ ha
      rw [replicas_finishTurn_self] at hself
      exact hturn.mp hself
  · exact ⟨fun _ => hreboot _ _, fun _ => trivial⟩
  · exact ⟨fun _ => hreboot _ _, fun _ => trivial⟩

/-- **Redirect hints.**  In every run whose events all keep the hints right, every refusal is
right; and an event that does not keep them right leaves a replica that refuses the next write
with a wrong hint. -/
theorem hints_right (cfg : Config) {c : Cluster} (h : Reach cfg KeepsHints (.init cfg) c) :
    RefusesRightly cfg c ∧
      ∀ e c', next cfg c e = some c' → (KeepsHints c e ↔ RefusesRightly cfg c') := by
  obtain ⟨hc, hadv, hp⟩ : Addressed cfg c ∧ Advertised cfg c ∧
      ∀ a ∈ cfg.members, (c.replicas a).node.bearing.Points cfg := by
    induction h with
    | refl =>
        refine ⟨addressed_init cfg, advertised_init cfg, fun a _ => ?_⟩
        show (RaftNode.construct _ _).bearing.Points cfg
        rw [RaftNode.bearing_construct]
        exact fun _ addr haddr => by cases haddr
    | tail _ hok hstep ih =>
        obtain ⟨hc, hadv, hp⟩ := ih
        exact ⟨hc.next hstep, hadv.next hstep, (points_next_iff hc hadv hp hstep).mp hok⟩
  refine ⟨(refusesRightly_iff hc).mpr hp, fun e c' hstep => ?_⟩
  rw [refusesRightly_iff (hc.next hstep)]
  exact points_next_iff hc hadv hp hstep

end Cluster

/-- Replica `a` is elected and tells `b`, which is then asked for a write. -/
def redirected : List Cluster.Event :=
  trioElection ++
    [Cluster.Event.act (.sendHeartbeats "a"),
      .act (.deliver ⟨3, "a", "b", .appendEntries ⟨1, "a", some "a", 0, 0, [], 0⟩⟩)]

/-- The state after the first of these events. -/
def redirectedTrio (k : ℕ) : Cluster := Cluster.play .trio (.init .trio) (redirected.take k)

/-- After the redirection every refusal is right. -/
theorem hints_right_trio : Cluster.RefusesRightly .trio (redirectedTrio 5) := by
  have h₁ : Cluster.Reach .trio Cluster.KeepsHints (.init .trio) (redirectedTrio 1) :=
    .tail (e := redirected[0]) .refl (fun _ => rfl) (by rfl)
  have h₂ : Cluster.Reach .trio Cluster.KeepsHints (.init .trio) (redirectedTrio 2) :=
    h₁.tail (e := redirected[1]) (fun hlead => by cases hlead) (by rfl)
  have h₃ : Cluster.Reach .trio Cluster.KeepsHints (.init .trio) (redirectedTrio 3) :=
    h₂.tail (e := redirected[2]) trivial (by rfl)
  have h₄ : Cluster.Reach .trio Cluster.KeepsHints (.init .trio) (redirectedTrio 4) :=
    h₃.tail (e := redirected[3]) trivial (by rfl)
  have h₅ : Cluster.Reach .trio Cluster.KeepsHints (.init .trio) (redirectedTrio 5) :=
    h₄.tail (e := redirected[4]) trivial (by rfl)
  exact (Cluster.hints_right .trio h₅).1

/-- Candidate `c` of term 1 reaches nobody, and stands again; leader `a` of term 1 votes for it in
term 2. -/
def deposed : List Cluster.Event :=
  trioElection ++
    [Cluster.Event.act (.voteFinally "a" 0), .act (.electionTimeout "c"),
      .act (.voteReply "c" 0 2 none), .act (.voteFinally "c" 0),
      .act (.voteReply "c" 0 3 none), .act (.voteFinally "c" 0), .act (.electionTimeout "c"),
      .act (.deliver ⟨4, "c", "a", .requestVote ⟨2, "c", 0, 0⟩⟩)]

/-- The state after these events. -/
def deposedTrio : Cluster := Cluster.play .trio (.init .trio) deposed

/-- **A deposed leader redirects to itself.** -/
theorem deposed_leader_hints_itself :
    Cluster.Reach .trio Runs.Any (.init .trio) deposedTrio ∧
      (∃ t, deposedTrio.turn (.clientWrite "a" (.dot "x" "board")) = some t ∧
        t.responses = [(6, .write false (some "a"))] ∧ t.replica.node.state = .follower ∧
        t.replica.node.selfUrl = "a") ∧
      ¬ Cluster.RefusesRightly .trio deposedTrio := by
  obtain ⟨t, ht, hresp, hstate, hself⟩ :
      ∃ t, deposedTrio.turn (.clientWrite "a" (.dot "x" "board")) = some t ∧
        t.responses = [(6, .write false (some "a"))] ∧ t.replica.node.state = .follower ∧
        t.replica.node.selfUrl = "a" := ⟨_, by rfl, by rfl, by rfl, by rfl⟩
  refine ⟨Cluster.reach_play (by rfl), ⟨t, ht, hresp, hstate, hself⟩, fun h => ?_⟩
  have hmem : (6, Response.write false (some "a")) ∈ t.responses := by
    rw [hresp]
    exact List.mem_singleton_self _
  obtain ⟨hne, -⟩ := h _ t 6 _ "a" (by decide) ht hmem rfl (by rw [hstate]; decide)
  exact hne hself.symm

end QuorumCanvas
