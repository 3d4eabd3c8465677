import QuorumCanvas.Turns

/-!
# Node operations, and invariants that live on single nodes

Seen from the node, a turn is a short run of operations: those of `Op`.  An
invariant that speaks about one node, its files, or one message at a time need
only be checked against these operations (`LocalInvariant`); it then holds in
every state of every run of the cluster, crashes in the middle of a turn
included (`LocalInvariant.reach`).
-/

namespace QuorumCanvas

namespace RaftNode

/-- What the code does to a node between two `await`s, in its smallest steps. -/
inductive Op
  | becomeCandidate
  | becomeLeader
  | resetElectionTimer
  | becomeFollower (term : ℕ) (leaderId leaderAddr : Option String)
  | handle (request : Request)
  | onAppendEntriesReply (peer : String) (args : AppendEntriesArgs) (result : AppendEntriesResult)
  | onInstallSnapshotReply (peer : String) (args : InstallSnapshotArgs)
      (result : InstallSnapshotResult)
  | onSyncLogReply (result : SyncLogResult)
  | updateCommitIndex
  | clientAppend (stroke : Stroke)
  deriving DecidableEq

/-- What an operation does. -/
def Op.run (n : RaftNode) : Op → RaftNode
  | .becomeCandidate => n.becomeCandidate
  | .becomeLeader => n.becomeLeader
  | .resetElectionTimer => n.resetElectionTimer
  | .becomeFollower term leaderId leaderAddr => n.becomeFollower term leaderId leaderAddr
  | .handle request => (n.handle request).1
  | .onAppendEntriesReply peer args result => n.onAppendEntriesReply peer args result
  | .onInstallSnapshotReply peer args result => n.onInstallSnapshotReply peer args result
  | .onSyncLogReply result => n.onSyncLogReply result
  | .updateCommitIndex => n.updateCommitIndex
  | .clientAppend stroke => n.clientAppend stroke

/-- `n'` comes out of `n` by operations that meet `ok` where they happen. -/
abbrev Moves (ok : RaftNode → Op → Prop) : RaftNode → RaftNode → Prop :=
  Runs.Reach (fun n op => some (Op.run n op)) ok

/-- One operation is a run. -/
theorem Moves.one {A : RaftNode → Op → Prop} {n : RaftNode} (op : Op) (h : A n op) :
    Moves A n (Op.run n op) :=
  Runs.Reach.refl.tail h rfl

/-- The calls that lead from `n` to `n'`, with files that meet `F` before and
after each of them. -/
def Through (F : Persistence → Prop) (n n' : RaftNode) : Prop :=
  ∃ calls, n'.calls = n.calls ++ calls ∧ n'.persistence = n.persistence.replay calls ∧
    ∀ k, F (n.persistence.replay (calls.take k))

namespace Through

variable {F G : Persistence → Prop} {n n' n'' : RaftNode}

theorem of_eq (hc : n'.calls = n.calls) (hp : n'.persistence = n.persistence)
    (h : F n.persistence) : Through F n n' :=
  ⟨[], by simp [hc], by simp [hp], fun k => by simpa using h⟩

theorem refl (h : F n.persistence) : Through F n n := of_eq rfl rfl h

theorem last (h : Through F n n') : F n'.persistence := by
  obtain ⟨calls, -, hp, hF⟩ := h
  have := hF calls.length
  rwa [List.take_length, ← hp] at this

theorem trans (h : Through F n n') (h' : Through F n' n'') : Through F n n'' := by
  obtain ⟨cs, hc, hp, hF⟩ := h
  obtain ⟨cs', hc', hp', hF'⟩ := h'
  refine ⟨cs ++ cs', by rw [hc', hc, List.append_assoc], ?_, fun k => ?_⟩
  · rw [hp', hp, Persistence.replay_append]
  · rw [List.take_append, Persistence.replay_append]
    rcases Nat.le_total k cs.length with hk | hk
    · rw [Nat.sub_eq_zero_of_le hk, List.take_zero, Persistence.replay_nil]
      exact hF k
    · rw [List.take_of_length_le hk, ← hp]
      exact hF' _

theorem mono (h : Through F n n') (hFG : ∀ p, F p → G p) : Through G n n' := by
  obtain ⟨cs, hc, hp, hF⟩ := h
  exact ⟨cs, hc, hp, fun k => hFG _ (hF k)⟩

/-- One call. -/
theorem persist (call : PersistenceCall) (h : F n.persistence) (h' : F (n.persistence.run call)) :
    Through F n (n.persist call) := by
  refine ⟨[call], rfl, rfl, fun k => ?_⟩
  cases k with
  | zero => exact h
  | succ k => simpa [Persistence.replay] using h'

/-- Steps after which calls and files are those of another node. -/
theorem before (h : Through F n n') (hc : n''.calls = n'.calls)
    (hp : n''.persistence = n'.persistence) : Through F n n'' := by
  obtain ⟨cs, hcs, hps, hF⟩ := h
  exact ⟨cs, hc.trans hcs, hp.trans hps, hF⟩

theorem after (h : Through F n' n'') (hc : n'.calls = n.calls)
    (hp : n'.persistence = n.persistence) : Through F n n'' := by
  obtain ⟨cs, hcs, hps, hF⟩ := h
  exact ⟨cs, by rw [hcs, hc], by rw [hps, hp], hp ▸ hF⟩

end Through

end RaftNode

namespace Cluster

open RaftNode (Op Moves Issues Request Reply)

/-- The node of a replica as its turn starts. -/
def start (c : Cluster) (action : Action) : RaftNode := (c.replicas action.replica).node.beginTurn

/-- What the cluster lets an action do to the node of its replica. -/
def Admits (c : Cluster) (action : Action) (n : RaftNode) : Op → Prop
  | .becomeCandidate => n.state ≠ .leader
  | .becomeLeader => n.state = .candidate
  | .resetElectionTimer => True
  | .becomeFollower term _ _ => n.currentTerm < term
  | .handle request =>
      n = c.start action ∧ ∃ packet ∈ c.wire, action = .deliver packet ∧ packet.request = request
  | .onAppendEntriesReply peer args result =>
      n = c.start action ∧ ∃ k send rpc,
        action = .sendReply action.replica k (some (.appendEntries result)) ∧
        (c.replicas action.replica).sends[k]? = some send ∧ send.peer = peer ∧
        send.waiting = some (rpc, .appendEntries args) ∧ (rpc, .appendEntries result) ∈ c.replies
  | .onInstallSnapshotReply peer args result =>
      n = c.start action ∧ ∃ k send rpc,
        action = .sendReply action.replica k (some (.installSnapshot result)) ∧
        (c.replicas action.replica).sends[k]? = some send ∧ send.peer = peer ∧
        send.waiting = some (rpc, .installSnapshot args) ∧
          (rpc, .installSnapshot result) ∈ c.replies
  | .onSyncLogReply result =>
      n = c.start action ∧ ∃ k task, action = .catchUpReply action.replica k (some result) ∧
        (c.replicas action.replica).catchUps[k]? = some task ∧
        (task.rpc, .syncLog result) ∈ c.replies
  | .updateCommitIndex => n = c.start action ∧ n.state = .leader
  | .clientAppend stroke =>
      n = c.start action ∧ n.state = .leader ∧ action = .clientWrite action.replica stroke

variable {c : Cluster} {a : String} {action : Action}

/-- An election ends with a leader, a new timeout, or nothing. -/
theorem moves_finalize {ok : RaftNode → Op → Prop} (n : RaftNode) (e : Election)
    (hlead : ∀ m, m.state = .candidate → ok m .becomeLeader)
    (hreset : ∀ m, ok m .resetElectionTimer) : Moves ok n (Turn.finalize n e).1 := by
  unfold Turn.finalize
  split
  · exact .refl
  · dsimp only
    split
    · next hcand =>
        split
        · exact .one .becomeLeader (hlead n hcand.1)
        · exact .one .resetElectionTimer (hreset n)
    · exact .refl

/-- A vote may depose, or end an election. -/
theorem moves_onVote (n : RaftNode) (e : Election) (peer : String) (reply : RequestVoteResult) :
    Moves (c.Admits action) n (Turn.onVote n e peer reply).1 := by
  have hfinal : ∀ m e, Moves (c.Admits action) m (Turn.finalize m e).1 := fun m e =>
    moves_finalize m e (fun _ h => h) fun _ => trivial
  unfold Turn.onVote
  split
  · exact .refl
  · split
    · next hlt =>
        exact (Moves.one (A := c.Admits action) (.becomeFollower reply.term none none) hlt).trans
          (hfinal _ e)
    · split
      · dsimp only
        split
        · exact hfinal n _
        · exact .refl
      · exact .refl

/-- Counting heartbeats leaves a node as it is, or makes it step down once. -/
theorem countAcks_cases (n : RaftNode) (acks : ℕ) (results : List (Option HeartbeatResult)) :
    (n.countAcks acks results).1 = n ∨ ∃ term, n.currentTerm < term ∧
      (n.countAcks acks results).1 = n.becomeFollower term none none := by
  induction results generalizing acks with
  | nil => exact Or.inl rfl
  | cons r rest ih =>
      cases r with
      | none => exact ih acks
      | some r =>
          unfold RaftNode.countAcks
          split
          · next hlt => exact Or.inr ⟨r.term, hlt, rfl⟩
          · exact ih _

/-- A read may depose its leader, by a later term only. -/
theorem confirmLeadership_cases (n : RaftNode) (term : ℕ)
    (results : List (Option HeartbeatResult)) :
    (n.confirmLeadership term results).1 = n ∨ ∃ term', n.currentTerm < term' ∧
      (n.confirmLeadership term results).1 = n.becomeFollower term' none none := by
  have hacks := countAcks_cases n 1 results
  unfold RaftNode.confirmLeadership
  split <;> next h => rw [h] at hacks; exact hacks

/-- Driving the peers keeps the node. -/
theorem node_driveAll (t : Turn) (peers : List String) :
    (t.driveAll peers).1.replica.node = t.replica.node := (t.driveAll_spec peers).1.node

/-- So does asking for a log. -/
theorem node_askCatchUp (t : Turn) (targets : List String) :
    (t.askCatchUp targets).1.replica.node = t.replica.node := by
  cases targets <;> rfl

/-- The operations of an election. -/
def Campaigns : Op → Prop
  | .becomeCandidate | .becomeLeader | .resetElectionTimer => True
  | _ => False

/-- A step down is told a term and no leader. -/
def Bare : Op → Prop
  | .becomeFollower _ leaderId leaderAddr => leaderId = none ∧ leaderAddr = none
  | _ => True

/-- The node of the turn is left alone, or one operation is done to it, and it steps down on a
bare term only. -/
def Works (c : Cluster) (action : Action) (t : Turn) : Prop :=
  t.replica.node = c.start action ∨
    ∃ op, c.Admits action (c.start action) op ∧ ¬ Campaigns op ∧ Bare op ∧
      t.replica.node = Op.run (c.start action) op

/-- A reply is handled by one operation, or by none. -/
theorem works_sendReply {a : String} {k : ℕ} {outcome : Option Reply} {t : Turn}
    (h : c.turn (.sendReply a k outcome) = some t) : c.Works (.sendReply a k outcome) t := by
  simp only [turn] at h
  split at h
  · next rpc request hwait =>
      obtain ⟨hp, h⟩ := Option.ite_none_right_eq_some.mp h
      obtain ⟨send, hk, hw⟩ := Option.bind_eq_some_iff.mp hwait
      obtain ⟨send', w, hk', hw', rfl⟩ := Turn.sendReply_some h
      obtain rfl := Option.some.inj (hk.symm.trans hk')
      obtain rfl := Option.some.inj (hw.symm.trans hw')
      simp only [Works, Turn.setSends, Turn.setNode]
      unfold Turn.onSendReply
      split
      · next args result _ =>
          exact Or.inr ⟨.onAppendEntriesReply send.peer args result,
            ⟨rfl, k, send, rpc, rfl, hk, rfl, hw, hp⟩, not_false, trivial, rfl⟩
      · next args result _ =>
          exact Or.inr ⟨.onInstallSnapshotReply send.peer args result,
            ⟨rfl, k, send, rpc, rfl, hk, rfl, hw, hp⟩, not_false, trivial, rfl⟩
      · exact Or.inl rfl
  · cases h

/-- A leader appends. -/
theorem works_clientWrite (c : Cluster) (a : String) (stroke : Stroke) :
    c.Works (.clientWrite a stroke) ((c.startTurn a).clientWrite stroke) := by
  unfold Turn.clientWrite
  dsimp only
  split
  · exact Or.inl rfl
  · next hstate =>
      exact Or.inr ⟨.clientAppend stroke, ⟨rfl, not_not.mp hstate, rfl⟩, not_false, trivial,
        node_driveAll _ _⟩

/-- A write that resumes may count its majority. -/
theorem works_resumeWrite (c : Cluster) (a : String) (k : ℕ) (w : Write) :
    c.Works (.writeResume a k) ((c.startTurn a).resumeWrite k w) := by
  unfold Turn.resumeWrite
  dsimp only
  split
  · exact Or.inl rfl
  · next hstate =>
      split
      · exact Or.inr ⟨.updateCommitIndex, ⟨rfl, not_not.mp hstate⟩, not_false, trivial, rfl⟩
      · split
        · exact Or.inl (node_driveAll _ _)
        · exact Or.inl rfl

/-- A catch-up is taken in. -/
theorem works_catchUpReply {a : String} {k : ℕ} {outcome : Option SyncLogResult} {t : Turn}
    (h : c.turn (.catchUpReply a k outcome) = some t) : c.Works (.catchUpReply a k outcome) t := by
  simp only [turn] at h
  split at h
  · next task hk =>
      obtain ⟨hp, h⟩ := Option.ite_none_right_eq_some.mp h
      obtain ⟨task', hk', rfl⟩ := Turn.catchUpReply_some h
      obtain rfl := Option.some.inj (hk.symm.trans hk')
      cases outcome with
      | some result =>
          exact Or.inr ⟨.onSyncLogReply result, ⟨rfl, k, task, rfl, hk, hp⟩, not_false, trivial,
            rfl⟩
      | none => exact Or.inl (node_askCatchUp _ _)
  · cases h

/-- A turn without election does one operation to its node, or none, and steps down on a bare
term only. -/
theorem bare_turn {t : Turn} (h : c.turn action = some t) (hno : ¬ action.Votes) :
    c.Works action t := by
  cases action with
  | electionTimeout a => exact absurd trivial hno
  | voteReply a k rpc outcome => exact absurd trivial hno
  | voteFinally a k => exact absurd trivial hno
  | sendHeartbeats a =>
      obtain rfl := Option.some.inj h
      unfold Turn.sendHeartbeats
      split
      · exact Or.inl rfl
      · exact Or.inl (node_driveAll _ _)
  | roundResume a k =>
      obtain ⟨promises, -, rfl⟩ := Turn.roundResume_some h
      unfold Turn.resumeRound
      dsimp only
      split
      · next hlead => exact Or.inr ⟨.updateCommitIndex, ⟨rfl, hlead⟩, not_false, trivial, rfl⟩
      · exact Or.inl rfl
  | sendReply a k outcome => exact works_sendReply h
  | sendFinally a k =>
      obtain ⟨send, -, rfl⟩ := Turn.sendFinally_some h
      exact Or.inl rfl
  | clientWrite a stroke => exact Option.some.inj h ▸ c.works_clientWrite a stroke
  | writeResume a k =>
      obtain ⟨w, -, rfl⟩ := Turn.writeResume_some h
      exact c.works_resumeWrite a k w
  | requestCatchUp a =>
      obtain rfl := Option.some.inj h
      unfold Turn.requestCatchUp
      split
      · exact Or.inl rfl
      · exact Or.inl (node_askCatchUp _ _)
  | catchUpReply a k outcome => exact works_catchUpReply h
  | readBoardState a boardId =>
      obtain rfl := Option.some.inj h
      unfold Turn.readBoardState
      dsimp only
      split
      · exact Or.inl rfl
      · rw [Turn.sendAll_eq]
        exact Or.inl rfl
  | readReply a k rpc outcome =>
      simp only [turn, Option.ite_none_right_eq_some] at h
      obtain ⟨r, -, -, rfl⟩ := Turn.readReply_some h.2
      exact Or.inl rfl
  | readResume a k =>
      obtain ⟨r, -, -, -, rfl⟩ := Turn.readResume_some h
      rcases confirmLeadership_cases _ _ _ with hsame | ⟨term, hlt, heq⟩
      · exact Or.inl hsame
      · exact Or.inr ⟨.becomeFollower term none none, hlt, not_false, ⟨rfl, rfl⟩, heq⟩
  | readFinish a k =>
      obtain ⟨r, confirmed, -, -, rfl⟩ := Turn.readFinish_some h
      exact Or.inl rfl
  | deliver packet =>
      simp only [turn, Option.ite_none_right_eq_some] at h
      obtain ⟨hmem, h⟩ := h
      obtain rfl := Option.some.inj h
      exact Or.inr ⟨.handle packet.request, ⟨rfl, packet, hmem, rfl, rfl⟩, not_false, trivial, rfl⟩

/-- **A turn without election** does one operation to its node, or none. -/
theorem single_turn {t : Turn} (h : c.turn action = some t) (hno : ¬ action.Votes) :
    t.replica.node = c.start action ∨
      ∃ op, c.Admits action (c.start action) op ∧ ¬ Campaigns op ∧
        t.replica.node = Op.run (c.start action) op := by
  rcases bare_turn h hno with hsame | ⟨op, hadmits, hplain, -, hrun⟩
  · exact Or.inl hsame
  · exact Or.inr ⟨op, hadmits, hplain, hrun⟩

/-- **A turn, seen from its node,** is a run of admitted operations. -/
theorem moves_turn {t : Turn} (h : c.turn action = some t) :
    Moves (c.Admits action) (c.replicas action.replica).node.beginTurn t.replica.node := by
  cases action with
  | electionTimeout a =>
      simp only [turn] at h
      split at h
      · obtain rfl := Option.some.inj h
        exact .refl
      · next hstate =>
          obtain rfl := Option.some.inj h
          have hcand : Moves (c.Admits (.electionTimeout a)) (c.replicas a).node.beginTurn
              (c.startTurn a).replica.node.becomeCandidate := .one .becomeCandidate hstate
          refine hcand.trans ?_
          unfold Turn.runElection
          dsimp only
          rw [Turn.sendAll_eq]
          show Moves _ _ ((c.startTurn a).openElection _).1
          unfold Turn.openElection
          split
          · exact moves_finalize _ _ (fun _ h => h) fun _ => trivial
          · exact .refl
  | voteReply a k rpc outcome =>
      simp only [turn, Option.ite_none_right_eq_some] at h
      obtain ⟨e, q, -, -, rfl⟩ := Turn.voteReply_some h.2
      cases outcome with
      | none => exact .refl
      | some reply => exact moves_onVote _ _ _ reply
  | voteFinally a k =>
      obtain ⟨e, -, rfl⟩ := Turn.voteFinally_some h
      show Moves _ _ (Turn.onVoteSettled _ e).1
      unfold Turn.onVoteSettled
      dsimp only
      split
      · exact moves_finalize _ _ (fun _ h => h) fun _ => trivial
      · exact .refl
  | _ =>
      rcases single_turn h not_false with hsame | ⟨op, hadmits, -, hrun⟩
      · rw [hsame]
        exact .refl
      · rw [hrun]
        exact .one op hadmits

/-- Every request of a turn is one its node issues. -/
theorem issues_turn {t : Turn} (h : c.turn action = some t) :
    ∀ p ∈ t.sent, p.src = t.replica.node.selfUrl ∧ Issues t.replica.node p.dst p.request := by
  intro p hp
  rcases turn_cases h with hplain | rfl | ⟨k, rpc, outcome, -, hrun⟩ | ⟨k, hrun⟩ |
    ⟨packet, hmem, hact, rfl⟩
  · obtain ⟨-, ps, hsent, -, hps⟩ := hplain.sends
    have hmem : p ∈ ps := by simpa [hsent, startTurn] using hp
    exact ⟨(hps p hmem).1.src, (hps p hmem).1.issues⟩
  · unfold Turn.runElection at hp ⊢
    dsimp only at hp ⊢
    rw [Turn.sendAll_eq] at hp ⊢
    obtain ⟨q, hq, rfl⟩ := List.mem_map.mp hp
    have hpeers : (c.startTurn action.replica).replica.node.becomeCandidate.peers ≠ [] := by
      intro hnil
      have := (List.of_mem_zip hq).2
      rw [hnil] at this
      cases this
    have hopen : ∀ t n, n.peers ≠ [] → (Turn.openElection t n).1 = n := fun t n hn => by
      unfold Turn.openElection
      rw [if_neg hn]
    refine ⟨rfl, ?_⟩
    show Issues ((c.startTurn action.replica).openElection _).1 _ _
    rw [hopen _ _ hpeers]
    exact .requestVote q.2
  · obtain ⟨e, q, -, -, rfl⟩ := Turn.voteReply_some hrun
    cases hp
  · obtain ⟨e, -, rfl⟩ := Turn.voteFinally_some hrun
    cases hp
  · cases hp

/-- Every answer of a turn is its node's answer to a request delivered to it. -/
theorem answers_turn {t : Turn} (h : c.turn action = some t) :
    ∀ r ∈ t.replied, ∃ packet ∈ c.wire, packet.dst = action.replica ∧
      r = (packet.rpc,
        ((c.replicas action.replica).node.beginTurn.handle packet.request).2) := by
  intro r hr
  rcases turn_cases h with hplain | rfl | ⟨k, rpc, outcome, -, hrun⟩ | ⟨k, hrun⟩ |
    ⟨packet, hmem, rfl, rfl⟩
  · rw [hplain.replied] at hr
    cases hr
  · unfold Turn.runElection at hr
    dsimp only at hr
    rw [Turn.sendAll_eq] at hr
    cases hr
  · obtain ⟨e, q, -, -, rfl⟩ := Turn.voteReply_some hrun
    cases hr
  · obtain ⟨e, -, rfl⟩ := Turn.voteFinally_some hrun
    cases hr
  · exact ⟨packet, hmem, rfl, List.mem_singleton.mp hr⟩

/-- Driving the peers starts calls whose packets are sent. -/
theorem started_driveAll (u : Turn) (peers : List String) :
    ∀ send ∈ (u.driveAll peers).1.replica.sends, send ∈ u.replica.sends ∨
      ∀ w, send.waiting = some w →
        ⟨w.1, (u.driveAll peers).1.replica.node.selfUrl, send.peer, w.2⟩ ∈
          (u.driveAll peers).1.sent := by
  intro send hsend
  rw [node_driveAll]
  exact (u.driveAll_spec peers).1.started send hsend

/-- A replication call waits for a request that is on the wire, or for nothing. -/
theorem started_turn {t : Turn} (h : c.turn action = some t) :
    ∀ send ∈ t.replica.sends, send ∈ (c.replicas action.replica).sends ∨
      ∀ w, send.waiting = some w →
        ⟨w.1, t.replica.node.selfUrl, send.peer, w.2⟩ ∈ t.sent := by
  by_cases hrep : action.Replicates
  · cases action with
    | sendHeartbeats a =>
        obtain rfl := Option.some.inj h
        unfold Turn.sendHeartbeats
        split
        · exact fun send hsend => Or.inl hsend
        · exact started_driveAll _ _
    | roundResume a k =>
        obtain ⟨promises, -, rfl⟩ := Turn.roundResume_some h
        unfold Turn.resumeRound
        dsimp only
        split <;> exact fun send hsend => Or.inl hsend
    | sendReply a k outcome =>
        simp only [turn] at h
        split at h
        · obtain ⟨send, w, hk, -, rfl⟩ :=
            Turn.sendReply_some (Option.ite_none_right_eq_some.mp h).2
          intro send' hsend
          rcases List.mem_or_eq_of_mem_set hsend with hold | rfl
          · exact Or.inl hold
          · exact Or.inr fun w hw => by cases hw
        · cases h
    | sendFinally a k =>
        obtain ⟨send, -, rfl⟩ := Turn.sendFinally_some h
        exact fun send' hsend => Or.inl (List.mem_of_mem_eraseIdx hsend)
    | clientWrite a stroke =>
        obtain rfl := Option.some.inj h
        unfold Turn.clientWrite
        dsimp only
        split
        · exact fun send hsend => Or.inl hsend
        · exact started_driveAll _ _
    | writeResume a k =>
        obtain ⟨w, -, rfl⟩ := Turn.writeResume_some h
        unfold Turn.resumeWrite
        dsimp only
        split
        · exact fun send hsend => Or.inl hsend
        · split
          · exact fun send hsend => Or.inl hsend
          · split
            · exact started_driveAll _ _
            · exact fun send hsend => Or.inl hsend
    | _ => exact absurd hrep not_false
  · intro send hsend
    exact Or.inl ((touches_turn h).sends hrep ▸ hsend)

/-- The catch-up waits for the packet that was sent. -/
theorem asked_askCatchUp (t : Turn) (targets : List String) :
    ∀ task ∈ (t.askCatchUp targets).2, ∃ dst args,
      ⟨task.rpc, t.replica.node.selfUrl, dst, .syncLog args⟩ ∈ (t.askCatchUp targets).1.sent := by
  intro task htask
  cases targets with
  | nil => cases htask
  | cons target remaining =>
      obtain rfl := Option.some.inj htask
      exact ⟨target, _, List.mem_append_right _ (List.mem_singleton_self _)⟩

/-- Asking keeps the replica. -/
theorem catchUps_askCatchUp (t : Turn) (targets : List String) :
    (t.askCatchUp targets).1.replica = t.replica := by
  cases targets <;> rfl

/-- The catch-ups there are, and the one that was started. -/
theorem asked_catchUps (u : Turn) (targets : List String) :
    ∀ task ∈ (u.askCatchUp targets).1.replica.catchUps ++ (u.askCatchUp targets).2.toList,
      task ∈ u.replica.catchUps ∨ ∃ dst args,
        ⟨task.rpc, (u.askCatchUp targets).1.replica.node.selfUrl, dst, .syncLog args⟩ ∈
          (u.askCatchUp targets).1.sent := by
  intro task htask
  rw [catchUps_askCatchUp] at htask ⊢
  rcases List.mem_append.mp htask with hold | hnew
  · exact Or.inl hold
  · exact Or.inr (asked_askCatchUp u targets task (Option.mem_toList.mp hnew))

/-- A catch-up waits for a request that is on the wire. -/
theorem asked_turn {t : Turn} (h : c.turn action = some t) :
    ∀ task ∈ t.replica.catchUps, task ∈ (c.replicas action.replica).catchUps ∨
      ∃ dst args, ⟨task.rpc, t.replica.node.selfUrl, dst, .syncLog args⟩ ∈ t.sent := by
  by_cases hcatch : action.CatchesUp
  · cases action with
    | requestCatchUp a =>
        obtain rfl := Option.some.inj h
        unfold Turn.requestCatchUp
        split
        · exact fun task htask => Or.inl htask
        · exact asked_catchUps _ _
    | catchUpReply a k outcome =>
        simp only [turn] at h
        split at h
        · obtain ⟨task', -, rfl⟩ :=
            Turn.catchUpReply_some (Option.ite_none_right_eq_some.mp h).2
          cases outcome with
          | some result => exact fun task htask => Or.inl (List.mem_of_mem_eraseIdx htask)
          | none =>
              intro task htask
              exact (asked_catchUps _ _ task htask).imp_left List.mem_of_mem_eraseIdx
        · cases h
    | _ => exact absurd hcatch not_false
  · intro task htask
    exact Or.inl ((touches_turn h).catchUps hcatch ▸ htask)

/-! ## Invariants of single nodes and messages -/

/-- What an operation may rely on: the messages it takes in meet `Q` and `R`, and
what a client asks it to write meets `W`. -/
def Allowed (Q : Request → Prop) (R : Reply → Prop) (W : RaftNode → Stroke → Prop)
    (n : RaftNode) : Op → Prop
  | .becomeCandidate => n.state ≠ .leader
  | .becomeLeader => n.state = .candidate
  | .resetElectionTimer => True
  | .becomeFollower term _ _ => n.currentTerm < term
  | .handle request => Q request
  | .onAppendEntriesReply _ args result => Q (.appendEntries args) ∧ R (.appendEntries result)
  | .onInstallSnapshotReply _ args result =>
      Q (.installSnapshot args) ∧ R (.installSnapshot result)
  | .onSyncLogReply result => R (.syncLog result)
  | .updateCommitIndex => n.state = .leader
  | .clientAppend stroke => n.state = .leader ∧ W n stroke

/-- Nodes meet `P`, requests `Q` and replies `R`. -/
structure Local (cfg : Config) (P : RaftNode → Prop) (Q : Request → Prop) (R : Reply → Prop)
    (c : Cluster) : Prop where
  nodes : ∀ a ∈ cfg.members, P (c.replicas a).node
  sends : ∀ a ∈ cfg.members, ∀ send ∈ (c.replicas a).sends, ∀ w, send.waiting = some w → Q w.2
  wire : ∀ p ∈ c.wire, Q p.request
  replies : ∀ r ∈ c.replies, R r.2

theorem Local.mono {P P' : RaftNode → Prop} {Q Q' : Request → Prop} {R R' : Reply → Prop}
    (hP : ∀ n, P n → P' n) (hQ : ∀ request, Q request → Q' request)
    (hR : ∀ reply, R reply → R' reply) (hc : Local cfg P Q R c) : Local cfg P' Q' R' c where
  nodes := fun a ha => hP _ (hc.nodes a ha)
  sends := fun a ha send hsend w hw => hQ _ (hc.sends a ha send hsend w hw)
  wire := fun p hp => hQ _ (hc.wire p hp)
  replies := fun r hr => hR _ (hc.replies r hr)

/-- An invariant `P` of nodes, `F` of their files, and `Q`, `R` of the requests and
replies they exchange, as long as clients write what `W` allows. -/
structure LocalInvariant (cfg : Config) (P : RaftNode → Prop) (F : Persistence → Prop)
    (Q : Request → Prop) (R : Reply → Prop) (W : RaftNode → Stroke → Prop) : Prop where
  construct : ∀ a ∈ cfg.members, ∀ p, F p → P (.construct (cfg.params a) p) ∧
    ∀ k, F (p.replay ((RaftNode.construct (cfg.params a) p).calls.take k))
  file : ∀ n, P n → F n.persistence
  begin_turn : ∀ n, P n → P n.beginTurn
  step : ∀ n op, P n → Allowed Q R W n op → P (Op.run n op) ∧ RaftNode.Through F n (Op.run n op)
  issue : ∀ n peer request, P n → Issues n peer request → Q request
  answer : ∀ n request, P n → Q request → R (n.handle request).2

namespace LocalInvariant

variable {cfg : Config} {P : RaftNode → Prop} {F : Persistence → Prop} {Q : Request → Prop}
  {R : Reply → Prop} {W : RaftNode → Stroke → Prop}

/-- A run of allowed operations keeps `P`, with files that meet `F` throughout. -/
theorem moves (hI : LocalInvariant cfg P F Q R W) {n n' : RaftNode} (hn : P n)
    (h : Moves (Allowed Q R W) n n') : P n' ∧ RaftNode.Through F n n' := by
  induction h with
  | refl => exact ⟨hn, .refl (hI.file _ hn)⟩
  | tail _ hok hstep ih =>
      obtain ⟨hP, hthrough⟩ := ih
      obtain rfl := Option.some.inj hstep
      obtain ⟨hP', hthrough'⟩ := hI.step _ _ hP hok
      exact ⟨hP', hthrough.trans hthrough'⟩

/-- What the cluster admits, the invariant allows. -/
theorem allowed_of_admits (hc : Local cfg P Q R c) (ha : action.replica ∈ cfg.members)
    (hW : ∀ stroke, action = .clientWrite action.replica stroke →
      W (c.replicas action.replica).node.beginTurn stroke)
    {n : RaftNode} {op : Op} (h : c.Admits action n op) : Allowed Q R W n op := by
  cases op with
  | becomeCandidate => exact h
  | becomeLeader => exact h
  | resetElectionTimer => exact h
  | becomeFollower term leaderId leaderAddr => exact h
  | handle request =>
      obtain ⟨-, packet, hmem, -, rfl⟩ := h
      exact hc.wire packet hmem
  | onAppendEntriesReply peer args result =>
      obtain ⟨-, k, send, rpc, -, hk, -, hwait, hreply⟩ := h
      exact ⟨hc.sends _ ha send (List.mem_of_getElem? hk) _ hwait, hc.replies _ hreply⟩
  | onInstallSnapshotReply peer args result =>
      obtain ⟨-, k, send, rpc, -, hk, -, hwait, hreply⟩ := h
      exact ⟨hc.sends _ ha send (List.mem_of_getElem? hk) _ hwait, hc.replies _ hreply⟩
  | onSyncLogReply result =>
      obtain ⟨-, k, task, -, -, hreply⟩ := h
      exact hc.replies _ hreply
  | updateCommitIndex => exact h.2
  | clientAppend stroke =>
      obtain ⟨rfl, hstate, hact⟩ := h
      exact ⟨hstate, hW stroke hact⟩

/-- What one turn leaves behind: its node, its files at every moment, and its messages. -/
theorem turn (hI : LocalInvariant cfg P F Q R W) (hc : Local cfg P Q R c)
    (ha : action.replica ∈ cfg.members)
    (hW : ∀ stroke, action = .clientWrite action.replica stroke →
      W (c.replicas action.replica).node.beginTurn stroke)
    {t : Turn} (h : c.turn action = some t) :
    Local cfg P Q R (c.finishTurn action.replica t) ∧
      ∀ k, F ((c.files action.replica).replay (t.replica.node.calls.take k)) := by
  have hstart := hI.begin_turn _ (hc.nodes _ ha)
  obtain ⟨hP, hthrough⟩ := hI.moves hstart
    ((moves_turn h).mono fun n op => allowed_of_admits hc ha hW)
  have hsent : ∀ p ∈ t.sent, Q p.request := fun p hp =>
    hI.issue _ _ _ hP (issues_turn h p hp).2
  constructor
  · constructor
    · intro b hb
      by_cases hne : b = action.replica
      · rw [hne, replicas_finishTurn_self]
        exact hP
      · rw [replicas_finishTurn_ne c t hne]
        exact hc.nodes b hb
    · intro b hb send hsend w hw
      by_cases hne : b = action.replica
      · rw [hne, replicas_finishTurn_self] at hsend
        rcases started_turn h send hsend with hold | hnew
        · exact hc.sends _ ha send hold w hw
        · exact hsent _ (hnew w hw)
      · rw [replicas_finishTurn_ne c t hne] at hsend
        exact hc.sends b hb send hsend w hw
    · intro p hp
      rcases List.mem_append.mp hp with hold | hnew
      · exact hc.wire p hold
      · exact hsent p hnew
    · intro r hr
      rcases List.mem_append.mp hr with hold | hnew
      · exact hc.replies r hold
      · obtain ⟨packet, hmem, -, rfl⟩ := answers_turn h r hnew
        exact hI.answer _ _ hstart (hc.wire packet hmem)
  · intro k
    obtain ⟨calls, hcalls, -, hF⟩ := hthrough
    have hcalls : t.replica.node.calls = calls := hcalls
    rw [hcalls]
    exact hF k

/-- **The invariant step.** -/
theorem next (hI : LocalInvariant cfg P F Q R W) (hc : Local cfg P Q R c) {e : Event}
    {c' : Cluster} (hW : ∀ a stroke, (e = .act (.clientWrite a stroke) ∨
        ∃ calls, e = .crash (.clientWrite a stroke) calls) →
      W (c.replicas a).node.beginTurn stroke)
    (h : next cfg c e = some c') : Local cfg P Q R c' := by
  have hreboot : ∀ a ∈ cfg.members, ∀ p, F p → Local cfg P Q R (c.reboot cfg a p) := by
    intro a ha p hp
    refine ⟨fun b hb => ?_, fun b hb send hsend => ?_, hc.wire, hc.replies⟩
    · by_cases hne : b = a
      · rw [hne, replicas_reboot_self]
        exact (hI.construct a ha p hp).1
      · rw [replicas_reboot_ne c p hne]
        exact hc.nodes b hb
    · by_cases hne : b = a
      · rw [hne, replicas_reboot_self] at hsend
        cases hsend
      · rw [replicas_reboot_ne c p hne] at hsend
        exact hc.sends b hb send hsend
  rcases next_cases h with ⟨action, t, rfl, ha, ht, rfl⟩ | ⟨action, t, calls, rfl, ha, ht, rfl⟩ |
    ⟨a, calls, rfl, ha, rfl⟩
  · exact (hI.turn hc ha (fun stroke hact => hW _ stroke (Or.inl (congrArg _ hact))) ht).1
  · have hturn := hI.turn hc ha (fun stroke hact =>
      hW _ stroke (Or.inr ⟨calls, congrArg (Event.crash · calls) hact⟩)) ht
    exact hreboot _ ha _ (hturn.2 calls)
  · exact hreboot a ha _ ((hI.construct a ha _ (hI.file _ (hc.nodes a ha))).2 calls)

/-- They hold at the start. -/
theorem init (hI : LocalInvariant cfg P F Q R W) (hfresh : ∀ backend, F (.fresh backend)) :
    Local cfg P Q R (.init cfg) :=
  ⟨fun a ha => (hI.construct a ha _ (hfresh _)).1, (fun a _ send hsend => by cases hsend),
    (fun p hp => by cases hp), fun r hr => by cases hr⟩

/-- **The run rule.**  A local invariant holds in every state of every run whose
client writes meet `W`. -/
theorem reach (hI : LocalInvariant cfg P F Q R W) {ok : Cluster → Event → Prop} {c' : Cluster}
    (hW : ∀ c e, ok c e → ∀ a stroke, (e = .act (.clientWrite a stroke) ∨
        ∃ calls, e = .crash (.clientWrite a stroke) calls) →
      W (c.replicas a).node.beginTurn stroke)
    (hc : Local cfg P Q R c) (h : Reach cfg ok c c') : Local cfg P Q R c' :=
  h.invariant hc fun _ _ _ hc hok hnext => hI.next hc (hW _ _ hok) hnext

end LocalInvariant

end Cluster

end QuorumCanvas
