import QuorumCanvas.LeaderHints
import QuorumCanvas.NodeLedger

/-!
# The leader that a replica knows

`leaderId` outlives what it was learnt from: a replica that steps down on a bare term keeps the
name that it holds.  Whatever name it holds is still that of a replica that has led, in a term
that the holder has reached (`leader_known`).  A replica that is ready knows such a name.
-/

namespace QuorumCanvas

open RaftNode (Op Request Issues)

namespace RaftNode

/-! ## Status -/

/-- The answer of `/status`. -/
structure ReplicaStatus where
  replicaId : String
  state : NodeState
  currentTerm : ℕ
  leaderId : Option String
  logLength : ℕ
  commitIndex : ℕ
  lastApplied : ℕ

/-- What a node says of itself. -/
def getStatus (n : RaftNode) : ReplicaStatus :=
  ⟨n.replicaId, n.state, n.currentTerm, n.leaderId, n.log.getLength, n.commitIndex, n.lastApplied⟩

/-- A node is ready when it leads or knows who does. -/
def isReady (n : RaftNode) : Bool :=
  n.state = .leader || (n.state = .follower && n.leaderId.isSome)

/-! ## What the operations make of the name -/

namespace Bearing

/-- A leader holds its own name, and a candidate none. -/
structure Aware (id : String) (b : Bearing) : Prop where
  leader : b.state = .leader → b.leaderId = some id
  candidate : b.state = .candidate → b.leaderId = none

/-- A follower need not be aware. -/
theorem aware_follower {id : String} {b : Bearing} (h : b.state = .follower) : b.Aware id := by
  constructor <;>
    · intro hstate
      cases h.symm.trans hstate

/-- The name stays, or is forgotten. -/
def Keeps (b b' : Bearing) : Prop := b'.leaderId = b.leaderId ∨ b'.leaderId = none

/-- Stepping down without a hint keeps the leader that was known. -/
theorem keeps_stepDown (b : Bearing) : b.Keeps (b.stepDown none none) := Or.inl rfl

end Bearing

variable {n n' : RaftNode}

/-- Stepping down for a later term, when there is one. -/
theorem bearing_keeps {id : String} {b : Bearing} (hn : n.bearing.Aware id) {term : ℕ}
    (h : b = if n.currentTerm < term then n.bearing.stepDown none none else n.bearing) :
    b.Aware id ∧ n.bearing.Keeps b := by
  rw [h]
  split
  · exact ⟨Bearing.aware_follower rfl, n.bearing.keeps_stepDown⟩
  · exact ⟨hn, Or.inl rfl⟩

/-- What one operation makes of the name: it is kept, forgotten, or taken from the message of a
leader whose term the node has then reached. -/
theorem leaderId_run (hn : n.bearing.Aware n.replicaId) (op : Op)
    (hop : op ≠ .becomeLeader) (hbare : Cluster.Bare op) :
    (Op.run n op).bearing.Aware n.replicaId ∧
      (n.bearing.Keeps (Op.run n op).bearing ∨ ∃ request l, op = .handle request ∧
        request.leader? = some l ∧ (Op.run n op).leaderId = some l.2 ∧
        l.1 = (Op.run n op).currentTerm) := by
  have hplain : ∀ {b : Bearing} {term : ℕ},
      b = (if n.currentTerm < term then n.bearing.stepDown none none else n.bearing) →
      b = (Op.run n op).bearing → (Op.run n op).bearing.Aware n.replicaId ∧
        n.bearing.Keeps (Op.run n op).bearing := by
    rintro b term h rfl
    exact bearing_keeps hn h
  cases op with
  | becomeLeader => exact (hop rfl).elim
  | becomeCandidate =>
      refine ⟨⟨nofun, fun _ => rfl⟩, Or.inl (Or.inr rfl)⟩
  | resetElectionTimer => exact ⟨hn, Or.inl (Or.inl rfl)⟩
  | becomeFollower term leaderId leaderAddr =>
      obtain ⟨rfl, rfl⟩ := hbare
      have hdown := bearing_becomeFollower n term none none
      refine ⟨?_, Or.inl ?_⟩
      · exact hdown.symm ▸ Bearing.aware_follower rfl
      · exact hdown.symm ▸ n.bearing.keeps_stepDown
  | handle request =>
      cases hl : request.leader? with
      | some l =>
          have hbearing := n.bearing_handle_leader hl
          rcases n.handle_leader hl with ⟨hlt, hsame⟩ | ⟨hle, hstate, hterm⟩
          · rw [if_pos hlt] at hbearing
            exact ⟨hbearing.symm ▸ hn, Or.inl (Or.inl (congrArg Bearing.leaderId hbearing))⟩
          · rw [if_neg (Nat.not_lt.mpr hle)] at hbearing
            refine ⟨Bearing.aware_follower hstate, Or.inr ⟨request, l, rfl, hl, ?_, hterm.symm⟩⟩
            exact congrArg Bearing.leaderId hbearing
      | none =>
          cases request with
          | requestVote args =>
              exact (hplain (n.bearing_handleRequestVote args) rfl).imp_right Or.inl
          | syncLog args => exact (hplain (n.bearing_handleSyncLog args) rfl).imp_right Or.inl
          | appendEntries args => cases hl
          | heartbeat args => cases hl
          | installSnapshot args => cases hl
  | onAppendEntriesReply peer args result =>
      exact (hplain (n.bearing_onAppendEntriesReply peer args result) rfl).imp_right Or.inl
  | onInstallSnapshotReply peer args result =>
      exact (hplain (n.bearing_onInstallSnapshotReply peer args result) rfl).imp_right Or.inl
  | onSyncLogReply result =>
      exact (hplain (n.bearing_onSyncLogReply result) rfl).imp_right Or.inl
  | updateCommitIndex =>
      have hquiet := (quiet_updateCommitIndex n).bearing
      exact ⟨hquiet.symm ▸ hn, Or.inl (Or.inl (congrArg Bearing.leaderId hquiet))⟩
  | clientAppend stroke =>
      have hquiet := n.bearing_clientAppend stroke
      exact ⟨hquiet.symm ▸ hn, Or.inl (Or.inl (congrArg Bearing.leaderId hquiet))⟩

/-- No operation takes a node back to an earlier term. -/
theorem currentTerm_le_run {op : Op}
    (hlater : ∀ term leaderId leaderAddr, op = .becomeFollower term leaderId leaderAddr →
      n.currentTerm ≤ term) : n.currentTerm ≤ (Op.run n op).currentTerm := by
  have hdown : ∀ term, n.currentTerm ≤
      (if n.currentTerm < term then n.becomeFollower term none none else n).currentTerm :=
    fun term => (stays_ite_becomeFollower n term).term_le
  cases op with
  | becomeCandidate => exact Nat.le_succ _
  | becomeLeader => exact le_rfl
  | resetElectionTimer => exact le_rfl
  | becomeFollower term leaderId leaderAddr =>
      exact (stays_becomeFollower n leaderId leaderAddr (hlater _ _ _ rfl)).term_le
  | handle request => exact (stays_handle n request).term_le
  | onAppendEntriesReply peer args result =>
      show n.currentTerm ≤ (n.onAppendEntriesReply peer args result).currentTerm
      unfold onAppendEntriesReply
      split
      · next hlt => exact (stays_becomeFollower n none none hlt.le).term_le
      · split
        · split <;> exact le_rfl
        · exact le_rfl
  | onInstallSnapshotReply peer args result =>
      show n.currentTerm ≤ (n.onInstallSnapshotReply peer args result).currentTerm
      unfold onInstallSnapshotReply
      split
      · next hlt => exact (stays_becomeFollower n none none hlt.le).term_le
      · exact le_rfl
  | onSyncLogReply result => exact (stays_onSyncLogReply n result).term_le
  | updateCommitIndex => exact (quiet_updateCommitIndex n).currentTerm.ge
  | clientAppend stroke => exact (quiet_appendLog n (n.clientEntry stroke)).currentTerm.ge

end RaftNode

namespace Cluster

/-! ## Turns -/

variable {cfg : Config} {c c' : Cluster} {action : Action} {t : Turn}

/-- The turn of an election makes the node stand, or step down on a bare term, or neither; and
then it may win, or wait for its next timeout. -/
theorem votes_turn (h : c.turn action = some t) (hvotes : action.Votes) :
    ∃ m : RaftNode, (m = c.start action ∨ m = (c.start action).becomeCandidate ∨
        ∃ term, m = (c.start action).becomeFollower term none none) ∧
      (t.replica.node = m ∨ t.replica.node = m.resetElectionTimer ∨
        t.replica.node = m.becomeLeader) := by
  have hfinal : ∀ (m : RaftNode) (e : Election), (Turn.finalize m e).1 = m ∨
      (Turn.finalize m e).1 = m.resetElectionTimer ∨ (Turn.finalize m e).1 = m.becomeLeader := by
    intro m e
    rcases (Turn.finalize_cases m e).2 with hsame | hreset | ⟨-, -, -, hwin⟩
    · exact Or.inl hsame
    · exact Or.inr (Or.inl hreset)
    · exact Or.inr (Or.inr hwin)
  cases action with
  | electionTimeout a =>
      simp only [turn] at h
      split at h
      · obtain rfl := Option.some.inj h
        exact ⟨_, Or.inl rfl, Or.inl rfl⟩
      · obtain rfl := Option.some.inj h
        refine ⟨_, Or.inr (Or.inl rfl), ?_⟩
        unfold Turn.runElection
        dsimp only
        rw [Turn.sendAll_eq]
        unfold Turn.openElection
        split
        · exact hfinal _ _
        · exact Or.inl rfl
  | voteReply a k rpc outcome =>
      simp only [turn, Option.ite_none_right_eq_some] at h
      obtain ⟨e, q, -, -, rfl⟩ := Turn.voteReply_some h.2
      cases outcome with
      | none => exact ⟨_, Or.inl rfl, Or.inl rfl⟩
      | some reply =>
          obtain ⟨m, e₁, hm, -, hend⟩ := Turn.onVote_cases
            (c.start (.voteReply a k rpc (some reply)))
            (Turn.closeVote e rpc) q.2 reply
          have hm' : m = c.start (.voteReply a k rpc (some reply)) ∨
              ∃ term,
                m = (c.start (.voteReply a k rpc (some reply))).becomeFollower term none none := by
            rcases hm with hsame | ⟨term, -, hdown⟩
            · exact Or.inl hsame
            · exact Or.inr ⟨term, hdown⟩
          refine ⟨m, hm'.imp_right Or.inr, ?_⟩
          rcases hend with hend | hend
          · exact Or.inl (congrArg Prod.fst hend)
          · have hfin := hfinal m e₁
            rw [← hend] at hfin
            exact hfin
  | voteFinally a k =>
      obtain ⟨e, -, rfl⟩ := Turn.voteFinally_some h
      refine ⟨_, Or.inl rfl, ?_⟩
      show (Turn.onVoteSettled _ e).1 = _ ∨ (Turn.onVoteSettled _ e).1 = _ ∨
        (Turn.onVoteSettled _ e).1 = _
      unfold Turn.onVoteSettled
      dsimp only
      split
      · exact hfinal _ _
      · exact Or.inl rfl
  | _ => exact hvotes.elim

/-- Nor does a turn. -/
theorem currentTerm_le_turn (ht : c.turn action = some t) :
    (c.start action).currentTerm ≤ t.replica.node.currentTerm := by
  refine Runs.Reach.invariant (I := fun n => (c.start action).currentTerm ≤ n.currentTerm)
    le_rfl ?_ (moves_turn ht)
  intro n op n' hn hadmits hrun
  obtain rfl := Option.some.inj hrun
  apply hn.trans (RaftNode.currentTerm_le_run _)
  rintro term leaderId leaderAddr rfl
  exact hadmits.le

/-! ## Runs -/

/-- At some moment of the events the replica of this name has led this term. -/
def Led (cfg : Config) (es : List Event) (term : ℕ) (id : String) : Prop :=
  ∃ k c₀ b, Runs.exec (next cfg) (.init cfg) (es.take k) = some c₀ ∧ b ∈ cfg.members ∧
    cfg.replicaId b = id ∧ (c₀.replicas b).node.state = .leader ∧
    (c₀.replicas b).node.currentTerm = term

variable {es : List Event}

/-- What has been, has been in a longer run too. -/
theorem Led.of_take {k term : ℕ} {id : String} (h : Led cfg (es.take k) term id) :
    Led cfg es term id := by
  obtain ⟨l, c₀, b, hexec, hb⟩ := h
  rw [List.take_take] at hexec
  exact ⟨_, c₀, b, hexec, hb⟩

/-- A name that a node holds is that of a leader of a term that it has reached. -/
structure Knows (cfg : Config) (es : List Event) (a : String) (n : RaftNode) : Prop where
  aware : n.bearing.Aware (cfg.replicaId a)
  led : ∀ id, n.leaderId = some id → ∃ term ≤ n.currentTerm, Led cfg es term id

/-- **The invariant.** -/
structure Known (cfg : Config) (es : List Event) (c : Cluster) : Prop where
  nodes : ∀ a ∈ cfg.members, Knows cfg es a (c.replicas a).node
  packets : ∀ p ∈ c.wire, ∀ l, p.request.leader? = some l → Led cfg es l.1 l.2

/-- A name that is kept, in a later term. -/
theorem Knows.of_keeps {a : String} {n n' : RaftNode} (h : Knows cfg es a n)
    (haware : n'.bearing.Aware (cfg.replicaId a)) (hkeeps : n.bearing.Keeps n'.bearing)
    (hterm : n.currentTerm ≤ n'.currentTerm) : Knows cfg es a n' := by
  refine ⟨haware, fun id hid => ?_⟩
  rcases hkeeps with hsame | hnone
  · obtain ⟨term, hle, hled⟩ := h.led id (hsame.symm.trans hid)
    exact ⟨term, hle.trans hterm, hled⟩
  · cases hnone.symm.trans hid

/-- A fresh node knows no leader. -/
theorem knows_construct (cfg : Config) (es : List Event) (a : String) (p : Persistence) :
    Knows cfg es a (.construct (cfg.params a) p) := by
  have hbearing := RaftNode.bearing_construct (cfg.params a) p
  refine ⟨?_, fun id hid => ?_⟩
  · rw [hbearing]
    exact RaftNode.Bearing.aware_follower rfl
  · have hnone := congrArg RaftNode.Bearing.leaderId hbearing
    cases hnone.symm.trans hid

/-- **One turn:** its node knows a leader, provided that it has led itself if it leads now. -/
theorem Known.turn (hc : Known cfg es c) (ha : action.replica ∈ cfg.members)
    (ht : c.turn action = some t)
    (hid : (c.start action).replicaId = cfg.replicaId action.replica)
    (hleads : t.replica.node.state = .leader →
      Led cfg es t.replica.node.currentTerm (cfg.replicaId action.replica)) :
    Knows cfg es action.replica t.replica.node := by
  have hnode := hc.nodes _ ha
  have hstart : Knows cfg es action.replica (c.start action) := ⟨hnode.aware, hnode.led⟩
  have haware := hstart.aware
  have hterm := currentTerm_le_turn ht
  by_cases hvotes : action.Votes
  · obtain ⟨m, hm, hend⟩ := votes_turn ht hvotes
    have hmid : m.bearing.Aware (cfg.replicaId action.replica) ∧
        (c.start action).bearing.Keeps m.bearing ∧ m.replicaId = (c.start action).replicaId := by
      rcases hm with rfl | rfl | ⟨term, rfl⟩
      · exact ⟨haware, Or.inl rfl, rfl⟩
      · exact ⟨⟨nofun, fun _ => rfl⟩, Or.inr rfl, rfl⟩
      · rw [RaftNode.bearing_becomeFollower]
        refine ⟨RaftNode.Bearing.aware_follower rfl, Or.inl rfl, ?_⟩
        unfold RaftNode.becomeFollower
        dsimp only
        split <;> rfl
    rcases hend with hend | hend | hend
    · rw [hend] at hterm ⊢
      exact hstart.of_keeps hmid.1 hmid.2.1 hterm
    · rw [hend] at hterm ⊢
      exact hstart.of_keeps hmid.1 hmid.2.1 hterm
    · have hname : t.replica.node.leaderId = some (cfg.replicaId action.replica) := by
        rw [hend, ← hid, ← hmid.2.2]
        rfl
      have hstate : t.replica.node.state = .leader := by
        rw [hend]
        rfl
      refine ⟨⟨fun _ => hname, fun hcand => ?_⟩, fun id hid' => ?_⟩
      · cases hstate.symm.trans hcand
      · obtain rfl := Option.some.inj (hname.symm.trans hid')
        exact ⟨_, le_rfl, hleads hstate⟩
  · rcases bare_turn ht hvotes with hsame | ⟨op, hadmits, hplain, hbare, hrun⟩
    · rw [hsame]
      exact hstart
    · have hop : op ≠ .becomeLeader := by
        rintro rfl
        exact hplain trivial
      rw [← hid] at haware
      obtain ⟨haware', hkeeps⟩ := RaftNode.leaderId_run haware op hop hbare
      rw [hid, ← hrun] at haware'
      rcases hkeeps with hkeeps | ⟨request, l, rfl, hl, hname, hheard⟩
      · rw [← hrun] at hkeeps
        exact hstart.of_keeps haware' hkeeps hterm
      · obtain ⟨-, packet, hmem, -, rfl⟩ := hadmits
        rw [← hrun] at hname hheard
        refine ⟨haware', fun id hid' => ?_⟩
        obtain rfl := Option.some.inj (hname.symm.trans hid')
        exact ⟨l.1, hheard.le, hc.packets packet hmem l hl⟩

/-- At the start nobody is known. -/
theorem known_init (cfg : Config) (es : List Event) : Known cfg es (.init cfg) :=
  ⟨fun a _ => knows_construct cfg es a _, fun p hp => by cases hp⟩

/-- The id is that of the configuration. -/
theorem replicaId_of_params {a : String} {n : RaftNode} (h : n.params = cfg.params a) :
    n.replicaId = cfg.replicaId a := congrArg RaftNode.Params.replicaId h

/-- A replica comes up again. -/
theorem Known.reboot (hc : Known cfg es c) (a : String) (p : Persistence) :
    Known cfg es (c.reboot cfg a p) := by
  refine ⟨fun b hb => ?_, hc.packets⟩
  by_cases hne : b = a
  · rw [hne, replicas_reboot_self]
    exact knows_construct cfg es a p
  · rw [replicas_reboot_ne c p hne]
    exact hc.nodes b hb

/-- **The invariant step,** at a moment of the events. -/
theorem Known.next (hc : Known cfg es c) (haddr : Addressed cfg c) {e : Event}
    (h : next cfg c e = some c') {k : ℕ}
    (hnow : Runs.exec (Cluster.next cfg) (.init cfg) (es.take k) = some c') :
    Known cfg es c' := by
  rcases next_cases h with ⟨action, t, rfl, ha, ht, rfl⟩ | ⟨action, t, calls, rfl, ha, ht, rfl⟩ |
    ⟨a, calls, rfl, ha, rfl⟩
  · have hself := replicas_finishTurn_self c action.replica t
    have hid' := replicaId_of_params (haddr.turn ha ht)
    -- whoever leads at the end of the turn has led by then
    have hleads : t.replica.node.state = .leader →
        Led cfg es t.replica.node.currentTerm (cfg.replicaId action.replica) := by
      intro hstate
      refine ⟨k, _, action.replica, hnow, ha, rfl, ?_, ?_⟩ <;> rw [hself]
      exact hstate
    have hturn := hc.turn ha ht (replicaId_of_params (haddr.params _ ha)) hleads
    constructor
    · intro b hb
      by_cases hne : b = action.replica
      · rw [hne, hself]
        exact hturn
      · rw [replicas_finishTurn_ne c t hne]
        exact hc.nodes b hb
    · intro packet hpacket l hl
      rcases List.mem_append.mp hpacket with hold | hnew
      · exact hc.packets packet hold l hl
      · obtain ⟨rfl, hstate, -⟩ := leads_turn ht hnew hl
        rw [hid']
        exact hleads hstate
  · exact hc.reboot _ _
  · exact hc.reboot _ _

/-- Who is known has led, in every run. -/
theorem known_exec (h : Runs.exec (next cfg) (.init cfg) es = some c) : Known cfg es c := by
  have hboth : Known cfg es c ∧ Addressed cfg c := by
    apply (Runs.Reach.along h).invariant (I := fun c => Known cfg es c ∧ Addressed cfg c)
      ⟨known_init cfg es, addressed_init cfg⟩
    rintro c₁ e c₂ ⟨hknown, haddr⟩ ⟨before, after, heq, hbefore⟩ hnext
    have hnow : Runs.exec (next cfg) (.init cfg) (es.take (before.length + 1)) = some c₂ := by
      rw [heq, List.take_length_add_append, List.take_one, List.head?_cons, Option.toList_some,
        Runs.exec_append, hbefore, Option.bind_some, Runs.exec, hnext]
      rfl
    exact ⟨hknown.next haddr hnext hnow, haddr.next hnext⟩
  exact hboth.1

/-- **A leader that is known has led.**  In every run, whatever name of a leader a replica holds,
the replica of that name has led at a moment of the run, in a term that the holder has reached.
A leader holds its own name and a candidate none, and a replica that is ready holds one. -/
theorem leader_known (h : Runs.exec (next cfg) (.init cfg) es = some c) {a : String}
    (ha : a ∈ cfg.members) :
    (∀ id, (c.replicas a).node.leaderId = some id →
      ∃ term ≤ (c.replicas a).node.currentTerm, Led cfg es term id) ∧
    ((c.replicas a).node.state = .leader →
      (c.replicas a).node.leaderId = some (cfg.replicaId a)) ∧
    ((c.replicas a).node.state = .candidate → (c.replicas a).node.leaderId = none) ∧
    ((c.replicas a).node.isReady = true → ∃ id, (c.replicas a).node.leaderId = some id) := by
  have hnode := (known_exec h).nodes a ha
  refine ⟨hnode.led, hnode.aware.leader, hnode.aware.candidate, fun hready => ?_⟩
  unfold RaftNode.isReady at hready
  rcases Bool.or_eq_true_iff.mp hready with hlead | hfollow
  · exact ⟨_, hnode.aware.leader (of_decide_eq_true hlead)⟩
  · exact Option.isSome_iff_exists.mp (Bool.and_eq_true_iff.mp hfollow).2

/-- A message of the leader `a` of the trio makes `b` ready. -/
def trioReady : List Event := trioElection ++
  [Event.act (.sendHeartbeats "a"), .act (.deliver
    ⟨3, "a", "b", .appendEntries ⟨1, "a", some "a", 0, 0, [], 0⟩⟩)]

/-- `b` is ready, and `a` has led. -/
theorem leader_known_trio : ∃ c, Runs.exec (next .trio) (.init .trio) trioReady = some c ∧
    (c.replicas "b").node.isReady = true ∧ ∃ term ≤ 1, Led .trio trioReady term "a" := by
  have hrun : Runs.exec (next .trio) (.init .trio) trioReady =
      some (Cluster.play .trio (.init .trio) trioReady) := by rfl
  have hknown := leader_known hrun (a := "b") (by decide)
  exact ⟨_, hrun, by rfl, hknown.1 "a" rfl⟩

end Cluster

end QuorumCanvas
