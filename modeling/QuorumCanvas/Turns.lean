import QuorumCanvas.Cluster
import QuorumCanvas.NodeTerms

/-!
# What a turn sends, and whose turn changes what

Three facts about turns that every invariant of the cluster uses: requests go out
under fresh numbers (`Sends`), replication touches nothing but the replication
calls themselves (`Drives`), and a turn changes one replica (`next_cases`).
-/

namespace QuorumCanvas

namespace RaftNode

/-- The requests a node in state `n` sends. -/
inductive Issues (n : RaftNode) : String → Request → Prop
  | requestVote (peer : String) : Issues n peer (.requestVote n.requestVoteArgs)
  | replicate (peer : String) (request : Request) (h : n.replicateRequest peer = some request) :
      Issues n peer request
  | heartbeat (peer : String) (h : n.state = .leader) : Issues n peer (.heartbeat n.heartbeatArgs)
  | syncLog (target : String) : Issues n target (.syncLog n.syncLogArgs)

end RaftNode

namespace Turn

open RaftNode (Request Reply Issues)

/-! ## Sending -/

/-- From `t` to `t'` requests that meet `P` were sent, under fresh numbers. -/
structure Sends (P : Packet → Prop) (t t' : Turn) : Prop where
  fresh_le : t.fresh ≤ t'.fresh
  sent : ∃ ps, t'.sent = t.sent ++ ps ∧ (ps.map Packet.rpc).Nodup ∧
    ∀ p ∈ ps, P p ∧ t.fresh ≤ p.rpc ∧ p.rpc < t'.fresh

namespace Sends

variable {P Q : Packet → Prop} {t t' t'' : Turn}

/-- A turn that sends nothing. -/
theorem of_eq (hfresh : t.fresh ≤ t'.fresh) (hsent : t'.sent = t.sent) : Sends P t t' :=
  ⟨hfresh, [], by simp [hsent], by simp, by simp⟩

theorem refl (t : Turn) : Sends P t t := of_eq le_rfl rfl

theorem trans (h : Sends P t t') (h' : Sends P t' t'') : Sends P t t'' := by
  obtain ⟨hle, ps, hs, hnd, hps⟩ := h
  obtain ⟨hle', ps', hs', hnd', hps'⟩ := h'
  refine ⟨hle.trans hle', ps ++ ps', by rw [hs', hs, List.append_assoc], ?_, ?_⟩
  · rw [List.map_append]
    refine List.nodup_append.mpr ⟨hnd, hnd', ?_⟩
    intro i hi j hj
    obtain ⟨p, hp, rfl⟩ := List.mem_map.mp hi
    obtain ⟨q, hq, rfl⟩ := List.mem_map.mp hj
    have := (hps p hp).2.2
    have := (hps' q hq).2.1
    omega
  · intro p hp
    rcases List.mem_append.mp hp with hp | hp
    · obtain ⟨hP, h1, h2⟩ := hps p hp
      exact ⟨hP, h1, by omega⟩
    · obtain ⟨hP, h1, h2⟩ := hps' p hp
      exact ⟨hP, by omega, h2⟩

theorem mono (h : Sends P t t') (himp : ∀ p, P p → Q p) : Sends Q t t' := by
  obtain ⟨hle, ps, hs, hnd, hps⟩ := h
  exact ⟨hle, ps, hs, hnd, fun p hp => ⟨himp p (hps p hp).1, (hps p hp).2⟩⟩

/-- Something that sends nothing happens first. -/
theorem after (h : Sends P t' t'') (hfresh : t.fresh ≤ t'.fresh) (hsent : t'.sent = t.sent) :
    Sends P t t'' :=
  (of_eq hfresh hsent).trans h

/-- Something that sends nothing happens last. -/
theorem before (h : Sends P t t') (hfresh : t'.fresh = t''.fresh) (hsent : t''.sent = t'.sent) :
    Sends P t t'' :=
  h.trans (of_eq hfresh.le hsent)

end Sends

/-- One request is sent, under the next number. -/
theorem sends_send (t : Turn) (dst : String) (request : Request) :
    Sends (· = ⟨t.fresh, t.replica.node.selfUrl, dst, request⟩) t (t.send dst request) :=
  ⟨Nat.le_succ _, [⟨t.fresh, t.replica.node.selfUrl, dst, request⟩], rfl, by simp,
    fun p hp => by
      obtain rfl := List.mem_singleton.mp hp
      exact ⟨rfl, le_rfl, Nat.lt_succ_self _⟩⟩

/-- The packets of `sendAll`, one for each peer in order. -/
def packets (t : Turn) (request : Request) (peers : List String) : List Packet :=
  ((t.promises peers).zip peers).map fun q => ⟨q.1, t.replica.node.selfUrl, q.2, request⟩

/-- The recursion in closed form: one packet a peer, numbered in order. -/
theorem sendAll_eq (t : Turn) (request : Request) (peers : List String) :
    t.sendAll request peers =
      { t with
        fresh := t.fresh + peers.length
        sent := t.sent ++ t.packets request peers } := by
  induction peers generalizing t with
  | nil => simp [sendAll, packets]
  | cons peer peers ih =>
      rw [sendAll, ih]
      simp only [send, packets, promises, List.length_cons, List.range'_succ, List.zip_cons_cons,
        List.map_cons, List.append_assoc, List.singleton_append]
      congr 1
      omega

/-- The packets of `sendAll` are the request, one to each peer. -/
theorem sends_sendAll (t : Turn) (request : Request) (peers : List String) :
    Sends (fun p => p.src = t.replica.node.selfUrl ∧ p.dst ∈ peers ∧ p.request = request) t
      (t.sendAll request peers) := by
  rw [sendAll_eq]
  refine ⟨Nat.le_add_right _ _, t.packets request peers, rfl, ?_, ?_⟩
  · have hrpc : (t.packets request peers).map Packet.rpc = t.promises peers := by
      simp only [packets, List.map_map]
      exact List.map_fst_zip (by simp [promises])
    rw [hrpc]
    exact List.nodup_range'
  · intro p hp
    obtain ⟨q, hq, rfl⟩ := List.mem_map.mp hp
    have hfst := (List.of_mem_zip hq).1
    have hsnd := (List.of_mem_zip hq).2
    simp only [promises, List.mem_range'_1] at hfst
    exact ⟨⟨rfl, hsnd, rfl⟩, hfst.1, hfst.2⟩

/-! ## Driving replication -/

/-- From `t` to `t'` only replication calls started. -/
structure Drives (t t' : Turn) : Prop where
  node : t'.replica.node = t.replica.node
  elections : t'.replica.elections = t.replica.elections
  rounds : t'.replica.rounds = t.replica.rounds
  writes : t'.replica.writes = t.replica.writes
  catchUps : t'.replica.catchUps = t.replica.catchUps
  reads : t'.replica.reads = t.replica.reads
  replied : t'.replied = t.replied
  responses : t'.responses = t.responses
  started : ∀ send ∈ t'.replica.sends, send ∈ t.replica.sends ∨
    ∀ w, send.waiting = some w → ⟨w.1, t.replica.node.selfUrl, send.peer, w.2⟩ ∈ t'.sent

namespace Drives

theorem refl (t : Turn) : Drives t t :=
  ⟨rfl, rfl, rfl, rfl, rfl, rfl, rfl, rfl, fun _ h => Or.inl h⟩

theorem trans {t t' t'' : Turn} (h : Drives t t') (h' : Drives t' t'')
    (hsent : t'.sent ⊆ t''.sent) : Drives t t'' where
  node := h'.node.trans h.node
  elections := h'.elections.trans h.elections
  rounds := h'.rounds.trans h.rounds
  writes := h'.writes.trans h.writes
  catchUps := h'.catchUps.trans h.catchUps
  reads := h'.reads.trans h.reads
  replied := h'.replied.trans h.replied
  responses := h'.responses.trans h.responses
  started := by
    intro send hsend
    rcases h'.started send hsend with hold | hnew
    · exact (h.started send hold).imp_right fun hw w hwait => hsent (hw w hwait)
    · rw [h.node] at hnew
      exact Or.inr hnew

end Drives

/-- A packet of `replicateOnce`. -/
def Replicates (n : RaftNode) (p : Packet) : Prop :=
  p.src = n.selfUrl ∧ n.replicateRequest p.dst = some p.request

/-- Driving one peer starts a call of `replicateOnce` unless one is running. -/
theorem driveReplication_spec (t : Turn) (peer : String) :
    Drives t (t.driveReplication peer).1 ∧
      Sends (fun p => Replicates t.replica.node p ∧ p.dst = peer) t
        (t.driveReplication peer).1 := by
  have hskip : Sends (fun p => Replicates t.replica.node p ∧ p.dst = peer) t t.number :=
    Sends.of_eq (Nat.le_succ _) rfl
  cases hrun : t.replica.replicating peer with
  | some promise =>
      simp only [driveReplication, hrun]
      exact ⟨Drives.refl t, Sends.refl t⟩
  | none =>
      cases hreq : t.replica.node.replicateRequest peer with
      | none =>
          have hreq' : t.number.replica.node.replicateRequest peer = none := hreq
          simp only [driveReplication, hrun, hreq']
          refine ⟨⟨rfl, rfl, rfl, rfl, rfl, rfl, rfl, rfl, ?_⟩, hskip.before rfl rfl⟩
          intro send hsend
          rcases List.mem_append.mp hsend with hold | hnew
          · exact Or.inl hold
          · obtain rfl := List.mem_singleton.mp hnew
            exact Or.inr fun w hw => by cases hw
      | some request =>
          have hreq' : t.number.replica.node.replicateRequest peer = some request := hreq
          simp only [driveReplication, hrun, hreq']
          constructor
          · refine ⟨rfl, rfl, rfl, rfl, rfl, rfl, rfl, rfl, ?_⟩
            intro send hmem
            rcases List.mem_append.mp hmem with hold | hnew
            · exact Or.inl hold
            · obtain rfl := List.mem_singleton.mp hnew
              refine Or.inr fun w hw => ?_
              obtain rfl : (t.fresh + 1, request) = w := Option.some.inj hw
              exact List.mem_append_right _ (List.mem_singleton_self _)
          · have hsend := sends_send (t.number.setSends
              (Function.update t.replica.replicating peer (some t.fresh))
              (t.replica.sends ++ [⟨t.fresh, peer, some (t.fresh + 1, request)⟩])) peer request
            refine (hsend.mono ?_).after (Nat.le_succ _) rfl
            rintro p rfl
            exact ⟨⟨rfl, hreq⟩, rfl⟩

/-- Driving every peer, by induction on the peers. -/
theorem driveAll_spec (t : Turn) (peers : List String) :
    Drives t (t.driveAll peers).1 ∧
      Sends (fun p => Replicates t.replica.node p ∧ p.dst ∈ peers) t (t.driveAll peers).1 := by
  induction peers generalizing t with
  | nil => exact ⟨Drives.refl t, Sends.refl t⟩
  | cons peer peers ih =>
      obtain ⟨hd, hs⟩ := driveReplication_spec t peer
      obtain ⟨hd', hs'⟩ := ih (t.driveReplication peer).1
      rw [hd.node] at hs'
      refine ⟨hd.trans hd' ?_, ?_⟩
      · obtain ⟨ps, hps, -⟩ := hs'.sent
        exact fun p hp => hps ▸ List.mem_append_left ps hp
      · exact (hs.mono fun p hp => ⟨hp.1, List.mem_cons.mpr (Or.inl hp.2)⟩).trans
          (hs'.mono fun p hp => ⟨hp.1, List.mem_cons_of_mem _ hp.2⟩)

/-! ## When a suspended call can resume -/

/-- A guard that lets through holds. -/
theorem guard_elim {p : Prop} [Decidable p] {u : Unit} (h : (guard p : Option Unit) = some u) :
    p := by
  unfold guard at h
  split at h
  · assumption
  · cases h

section Inversion

variable {t t' : Turn} {k rpc : ℕ}

/-- A vote settles a promise that its election still awaits. -/
theorem voteReply_some {outcome : Option RequestVoteResult}
    (h : t.voteReply k rpc outcome = some t') :
    ∃ e q, t.replica.elections[k]? = some e ∧ e.awaiting.find? (fun p => p.1 = rpc) = some q ∧
      t' = (t.setNode (onVoteOutcome t.replica.node (closeVote e rpc) q.2 outcome).1).setElections
        (t.replica.elections.set k
          (onVoteOutcome t.replica.node (closeVote e rpc) q.2 outcome).2) := by
  simp only [voteReply, Option.bind_eq_bind, Option.bind_eq_some_iff, Option.pure_def,
    Option.some.injEq] at h
  obtain ⟨e, hk, q, hq, rfl⟩ := h
  exact ⟨e, q, hk, hq, rfl⟩

/-- A `finally` belongs to one of the elections. -/
theorem voteFinally_some (h : t.voteFinally k = some t') :
    ∃ e, t.replica.elections[k]? = some e ∧
      t' = (t.setNode (onVoteSettled t.replica.node e).1).setElections
        (t.replica.elections.set k (onVoteSettled t.replica.node e).2) := by
  simp only [voteFinally, Option.bind_eq_bind, Option.bind_eq_some_iff, Option.pure_def,
    Option.some.injEq] at h
  obtain ⟨e, hk, -, -, rfl⟩ := h
  exact ⟨e, hk, rfl⟩

/-- A round resumes when it is there. -/
theorem roundResume_some (h : t.roundResume k = some t') :
    ∃ promises, t.replica.rounds[k]? = some promises ∧ t' = t.resumeRound k := by
  simp only [roundResume, Option.bind_eq_bind, Option.bind_eq_some_iff, Option.pure_def,
    Option.some.injEq] at h
  obtain ⟨promises, hk, -, -, rfl⟩ := h
  exact ⟨promises, hk, rfl⟩

/-- A reply settles a call that waits for one. -/
theorem sendReply_some {outcome : Option Reply} (h : t.sendReply k outcome = some t') :
    ∃ send w, t.replica.sends[k]? = some send ∧ send.waiting = some w ∧
      t' = (t.setNode (onSendReply t.replica.node send.peer w.2 outcome)).setSends
        t.replica.replicating (t.replica.sends.set k { send with waiting := none }) := by
  simp only [sendReply, Option.bind_eq_bind, Option.bind_eq_some_iff, Option.pure_def,
    Option.some.injEq] at h
  obtain ⟨send, hk, w, hw, rfl⟩ := h
  exact ⟨send, w, hk, hw, rfl⟩

/-- The `finally` of a call frees its slot. -/
theorem sendFinally_some (h : t.sendFinally k = some t') :
    ∃ send, t.replica.sends[k]? = some send ∧
      t' = t.setSends (Function.update t.replica.replicating send.peer none)
        (t.replica.sends.eraseIdx k) := by
  simp only [sendFinally, Option.bind_eq_bind, Option.bind_eq_some_iff, Option.pure_def,
    Option.some.injEq] at h
  obtain ⟨send, hk, -, -, rfl⟩ := h
  exact ⟨send, hk, rfl⟩

/-- A suspended write resumes. -/
theorem writeResume_some (h : t.writeResume k = some t') :
    ∃ w, t.replica.writes[k]? = some w ∧ t' = t.resumeWrite k w := by
  simp only [writeResume, Option.bind_eq_bind, Option.bind_eq_some_iff, Option.pure_def,
    Option.some.injEq] at h
  obtain ⟨w, hk, -, -, rfl⟩ := h
  exact ⟨w, hk, rfl⟩

/-- A catch-up hears from the peer it asked. -/
theorem catchUpReply_some {outcome : Option SyncLogResult}
    (h : t.catchUpReply k outcome = some t') :
    ∃ task, t.replica.catchUps[k]? = some task ∧ t' = t.resumeCatchUp k task outcome := by
  simp only [catchUpReply, Option.bind_eq_bind, Option.bind_eq_some_iff, Option.pure_def,
    Option.some.injEq] at h
  obtain ⟨task, hk, rfl⟩ := h
  exact ⟨task, hk, rfl⟩

/-- A heartbeat of a read settles once. -/
theorem readReply_some {outcome : Option HeartbeatResult}
    (h : t.readReply k rpc outcome = some t') :
    ∃ r, t.replica.reads[k]? = some r ∧ (rpc, none) ∈ r.heartbeats ∧
      t' = t.setReads (t.replica.reads.set k (closeHeartbeat r rpc outcome)) := by
  simp only [readReply, Option.bind_eq_bind, Option.bind_eq_some_iff, Option.pure_def,
    Option.some.injEq] at h
  obtain ⟨r, hk, u, hg, rfl⟩ := h
  exact ⟨r, hk, guard_elim hg, rfl⟩

/-- A read resumes when all of its heartbeats have settled. -/
theorem readResume_some (h : t.readResume k = some t') :
    ∃ r, t.replica.reads[k]? = some r ∧ r.confirmed = none ∧ (∀ h ∈ r.heartbeats, h.2.isSome) ∧
      t' = t.resumeRead k r := by
  simp only [readResume, Option.bind_eq_bind, Option.bind_eq_some_iff, Option.pure_def,
    Option.some.injEq] at h
  obtain ⟨r, hk, u, hg, rfl⟩ := h
  obtain ⟨hopen, hall⟩ := guard_elim hg
  exact ⟨r, hk, Option.isNone_iff_eq_none.mp hopen, List.all_eq_true.mp hall, rfl⟩

/-- A read that has counted its acknowledgements is answered. -/
theorem readFinish_some (h : t.readFinish k = some t') :
    ∃ r confirmed, t.replica.reads[k]? = some r ∧ r.confirmed = some confirmed ∧
      t' = t.finishRead k r confirmed := by
  simp only [readFinish, Option.bind_eq_bind, Option.bind_eq_some_iff, Option.pure_def,
    Option.some.injEq] at h
  obtain ⟨r, hk, confirmed, hc, rfl⟩ := h
  exact ⟨r, confirmed, hk, hc, rfl⟩

end Inversion

/-! ## Turns that hold no election -/

/-- What a packet may say: a vote request comes out of no such turn, and a
message of a leader names its sender, which leads the term it names. -/
structure Speaks (n : RaftNode) (p : Packet) : Prop where
  src : p.src = n.selfUrl
  issues : Issues n p.dst p.request
  no_vote : ∀ args, p.request ≠ .requestVote args
  leads : ∀ l, p.request.leader? = some l →
    l = (n.currentTerm, n.replicaId) ∧ n.state = .leader ∧ p.dst ∈ n.peers

/-- A leader's message, sent to a peer. -/
theorem speaks_of_leader {n : RaftNode} {p : Packet} {request : Request}
    (hsrc : p.src = n.selfUrl) (hissues : Issues n p.dst p.request) (hreq : p.request = request)
    (hnames : request.leader? = some (n.currentTerm, n.replicaId)) (hstate : n.state = .leader)
    (hdst : p.dst ∈ n.peers) : Speaks n p := by
  subst hreq
  refine ⟨hsrc, hissues, ?_, ?_⟩
  · intro args h
    rw [h] at hnames
    cases hnames
  · intro l hl
    exact ⟨Option.some.inj (hl.symm.trans hnames), hstate, hdst⟩

/-- The packets of `replicateOnce` are among those a leader may send. -/
theorem Replicates.speaks {n : RaftNode} {p : Packet} (h : Replicates n p)
    (hdst : p.dst ∈ n.peers) : Speaks n p := by
  obtain ⟨hsrc, hreq⟩ := h
  have hissues : Issues n p.dst p.request := .replicate p.dst p.request hreq
  unfold RaftNode.replicateRequest at hreq
  split at hreq
  · cases hreq
  · next hstate =>
      have hlead : n.state = .leader := Decidable.not_not.mp hstate
      dsimp only at hreq
      split at hreq
      · obtain ⟨snapshot, -, heq⟩ := Option.map_eq_some_iff.mp hreq
        exact speaks_of_leader hsrc hissues heq.symm rfl hlead hdst
      · exact speaks_of_leader hsrc hissues (Option.some.inj hreq).symm rfl hlead hdst

/-- A turn that runs no election: its node drifts, and it sends what `Speaks` allows. -/
structure Plain (t t' : Turn) : Prop where
  elections : t'.replica.elections = t.replica.elections
  node : RaftNode.Drifts (fun _ => False) t.replica.node t'.replica.node
  sends : Sends (Speaks t'.replica.node) t t'
  replied : t'.replied = t.replied

theorem Plain.refl (t : Turn) : Plain t t :=
  ⟨rfl, .refl _, Sends.refl t, rfl⟩

/-- What is done last concerns neither node, elections nor network. -/
theorem Plain.before {t t' t'' : Turn} (h : Plain t t')
    (helections : t''.replica.elections = t'.replica.elections)
    (hnode : t''.replica.node = t'.replica.node) (hfresh : t''.fresh = t'.fresh)
    (hsent : t''.sent = t'.sent) (hreplied : t''.replied = t'.replied) : Plain t t'' where
  elections := helections.trans h.elections
  node := hnode ▸ h.node
  sends := hnode ▸ h.sends.before hfresh.symm hsent
  replied := hreplied.trans h.replied

/-- What is done first lets the node drift and sends nothing. -/
theorem Plain.after {t t' t'' : Turn} (h : Plain t' t'')
    (helections : t'.replica.elections = t.replica.elections)
    (hnode : RaftNode.Drifts (fun _ => False) t.replica.node t'.replica.node)
    (hfresh : t.fresh ≤ t'.fresh) (hsent : t'.sent = t.sent) (hreplied : t'.replied = t.replied) :
    Plain t t'' where
  elections := h.elections.trans helections
  node := hnode.trans h.node
  sends := h.sends.after hfresh hsent
  replied := h.replied.trans hreplied

/-- Driving every peer is plain. -/
theorem plain_driveAll (t : Turn) : Plain t (t.driveAll t.replica.node.peers).1 := by
  obtain ⟨hd, hs⟩ := t.driveAll_spec t.replica.node.peers
  refine ⟨hd.elections, ?_, ?_, hd.replied⟩
  · rw [hd.node]
    exact .refl _
  · rw [hd.node]
    exact hs.mono fun p hp => hp.1.speaks hp.2

/-- A round of heartbeats is plain. -/
theorem plain_sendHeartbeats (t : Turn) : Plain t t.sendHeartbeats := by
  unfold sendHeartbeats
  split
  · exact Plain.refl t
  · exact t.plain_driveAll.before rfl rfl rfl rfl rfl

/-- A round that has settled may move the commit index. -/
theorem plain_resumeRound (t : Turn) (k : ℕ) : Plain t (t.resumeRound k) := by
  unfold resumeRound
  dsimp only
  split
  · exact ⟨rfl, .of_quiet (RaftNode.quiet_updateCommitIndex _), Sends.of_eq le_rfl rfl, rfl⟩
  · exact ⟨rfl, .refl _, Sends.of_eq le_rfl rfl, rfl⟩

/-- A reply to a replication call moves cursors or deposes the leader. -/
theorem drifts_onSendReply (n : RaftNode) (peer : String) (request : Request)
    (outcome : Option Reply) :
    RaftNode.Drifts (fun _ => False) n (onSendReply n peer request outcome) := by
  unfold onSendReply
  split
  · exact RaftNode.drifts_onAppendEntriesReply n _ _ _
  · exact RaftNode.drifts_onInstallSnapshotReply n _ _ _
  · exact .refl n

/-- A reply is plain. -/
theorem plain_sendReply {t t' : Turn} {k : ℕ} {outcome : Option Reply}
    (h : t.sendReply k outcome = some t') : Plain t t' := by
  obtain ⟨send, w, -, -, rfl⟩ := sendReply_some h
  exact ⟨rfl, drifts_onSendReply _ _ _ _, Sends.of_eq le_rfl rfl, rfl⟩

/-- Freeing a slot is plain. -/
theorem plain_sendFinally {t t' : Turn} {k : ℕ} (h : t.sendFinally k = some t') :
    Plain t t' := by
  obtain ⟨send, -, rfl⟩ := sendFinally_some h
  exact ⟨rfl, .refl _, Sends.of_eq le_rfl rfl, rfl⟩

/-- A write appends to the leader's log and drives every peer. -/
theorem plain_clientWrite (t : Turn) (stroke : Stroke) : Plain t (t.clientWrite stroke) := by
  unfold clientWrite
  dsimp only
  split
  · exact ⟨rfl, .refl _, Sends.of_eq (Nat.le_succ _) rfl, rfl⟩
  · have happend : RaftNode.Drifts (fun _ => False) t.replica.node
        (t.replica.node.clientAppend stroke) := RaftNode.drifts_clientAppend _ stroke
    have hdrive := (t.number.setNode (t.replica.node.clientAppend stroke)).plain_driveAll
    exact (hdrive.after (t := t) rfl happend (Nat.le_succ _) rfl rfl).before rfl rfl rfl rfl rfl

/-- A write that resumes drives the peers again, or answers. -/
theorem plain_resumeWrite (t : Turn) (k : ℕ) (w : Write) : Plain t (t.resumeWrite k w) := by
  unfold resumeWrite
  dsimp only
  split
  · exact ⟨rfl, .refl _, Sends.of_eq le_rfl rfl, rfl⟩
  · split
    · exact ⟨rfl, .of_quiet (RaftNode.quiet_updateCommitIndex _), Sends.of_eq le_rfl rfl, rfl⟩
    · split
      · exact t.plain_driveAll.before rfl rfl rfl rfl rfl
      · exact ⟨rfl, .refl _, Sends.of_eq le_rfl rfl, rfl⟩

/-- The request for a log is sent to the first target. -/
theorem plain_askCatchUp (t : Turn) (targets : List String) :
    Plain t (t.askCatchUp targets).1 := by
  cases targets with
  | nil => exact Plain.refl t
  | cons target remaining =>
      refine ⟨rfl, .refl _, ?_, rfl⟩
      refine (t.sends_send target (.syncLog t.replica.node.syncLogArgs)).mono ?_
      intro p hp
      subst hp
      exact ⟨rfl, .syncLog target, (fun args h => by cases h), (fun l hl => by cases hl)⟩

/-- Asking for a log is plain. -/
theorem plain_requestCatchUp (t : Turn) : Plain t t.requestCatchUp := by
  unfold requestCatchUp
  split
  · exact Plain.refl t
  · exact (t.plain_askCatchUp t.replica.node.catchUpTargets).before rfl rfl rfl rfl rfl

/-- Hearing of a log, or asking the next target, is plain. -/
theorem plain_resumeCatchUp (t : Turn) (k : ℕ) (task : CatchUp)
    (outcome : Option SyncLogResult) : Plain t (t.resumeCatchUp k task outcome) := by
  cases outcome with
  | some result =>
      exact ⟨rfl, RaftNode.drifts_onSyncLogReply _ _, Sends.of_eq le_rfl rfl, rfl⟩
  | none =>
      have hask := (t.setCatchUps (t.replica.catchUps.eraseIdx k)).plain_askCatchUp task.remaining
      exact (hask.after (t := t) rfl (.refl _) le_rfl rfl rfl).before rfl rfl rfl rfl rfl

/-- A read asks every peer for a heartbeat. -/
theorem plain_readBoardState (t : Turn) (boardId : String) :
    Plain t (t.readBoardState boardId) := by
  unfold readBoardState
  dsimp only
  split
  · exact ⟨rfl, .refl _, Sends.of_eq (Nat.le_succ _) rfl, rfl⟩
  · next hstate =>
      have hlead : t.replica.node.state = .leader := Decidable.not_not.mp hstate
      have hsends := sends_sendAll (t.number.setReads (t.replica.reads ++ [⟨t.fresh, boardId,
        t.replica.node.currentTerm, (t.number.promises t.replica.node.peers).map
          fun rpc => (rpc, none), none⟩])) (.heartbeat t.replica.node.heartbeatArgs)
            t.replica.node.peers
      have hspeak := hsends.mono fun p hp =>
        speaks_of_leader (n := t.replica.node) hp.1
          (hp.2.2 ▸ .heartbeat p.dst hlead) hp.2.2 rfl hlead hp.2.1
      rw [sendAll_eq] at hspeak ⊢
      exact ⟨rfl, .refl _, hspeak.after (Nat.le_succ _) rfl, rfl⟩

/-- A heartbeat that settles is plain. -/
theorem plain_readReply {t t' : Turn} {k rpc : ℕ} {outcome : Option HeartbeatResult}
    (h : t.readReply k rpc outcome = some t') : Plain t t' := by
  obtain ⟨r, -, -, rfl⟩ := readReply_some h
  exact ⟨rfl, .refl _, Sends.of_eq le_rfl rfl, rfl⟩

/-- Counting the acknowledgements of a read can depose the leader. -/
theorem plain_resumeRead (t : Turn) (k : ℕ) (r : Read) : Plain t (t.resumeRead k r) :=
  ⟨rfl, RaftNode.drifts_confirmLeadership _ _ _, Sends.of_eq le_rfl rfl, rfl⟩

/-- Answering a read is plain. -/
theorem plain_finishRead (t : Turn) (k : ℕ) (r : Read) (confirmed : Bool) :
    Plain t (t.finishRead k r confirmed) :=
  ⟨rfl, .refl _, Sends.of_eq le_rfl rfl, rfl⟩

end Turn

/-! ## What a turn leaves alone -/

/-- The turn starts or settles calls of `replicate`, or resumes those that wait for them. -/
def Action.Replicates : Action → Prop
  | .sendHeartbeats _ | .roundResume _ _ | .sendReply _ _ _ | .sendFinally _ _
  | .clientWrite _ _ | .writeResume _ _ => True
  | _ => False

/-- The turn asks a peer for its log, or hears from it. -/
def Action.CatchesUp : Action → Prop
  | .requestCatchUp _ | .catchUpReply _ _ _ => True
  | _ => False

/-- The turn is one of a read. -/
def Action.Reads : Action → Prop
  | .readBoardState _ _ | .readReply _ _ _ _ | .readResume _ _ | .readFinish _ _ => True
  | _ => False

/-- The turn may answer a client. -/
def Action.Answers : Action → Prop
  | .clientWrite _ _ | .writeResume _ _ | .readBoardState _ _ | .readFinish _ _ => True
  | _ => False

/-- Calls of the kinds that the action does not serve stay as they are. -/
structure Touches (action : Action) (u t : Turn) : Prop where
  replicating : ¬ action.Replicates → t.replica.replicating = u.replica.replicating
  sends : ¬ action.Replicates → t.replica.sends = u.replica.sends
  rounds : ¬ action.Replicates → t.replica.rounds = u.replica.rounds
  writes : ¬ action.Replicates → t.replica.writes = u.replica.writes
  catchUps : ¬ action.CatchesUp → t.replica.catchUps = u.replica.catchUps
  reads : ¬ action.Reads → t.replica.reads = u.replica.reads
  responses : ¬ action.Answers → t.responses = u.responses

namespace Touches

variable {action : Action} {u t : Turn}

/-- A turn on the node and its elections. -/
theorem of_votes (h : t.replica =
      { u.replica with node := t.replica.node, elections := t.replica.elections })
    (hresponses : t.responses = u.responses) : Touches action u t where
  replicating _ := by rw [h]
  sends _ := by rw [h]
  rounds _ := by rw [h]
  writes _ := by rw [h]
  catchUps _ := by rw [h]
  reads _ := by rw [h]
  responses _ := hresponses

/-- A turn of replication. -/
theorem of_replicates (hrep : action.Replicates)
    (hcatchUps : t.replica.catchUps = u.replica.catchUps)
    (hreads : t.replica.reads = u.replica.reads)
    (hresponses : ¬ action.Answers → t.responses = u.responses) : Touches action u t where
  replicating hno := absurd hrep hno
  sends hno := absurd hrep hno
  rounds hno := absurd hrep hno
  writes hno := absurd hrep hno
  catchUps _ := hcatchUps
  reads _ := hreads
  responses := hresponses

/-- Driving every peer is a turn of replication. -/
theorem of_drives {u' : Turn} (hrep : action.Replicates) (h : Turn.Drives u' t)
    (hcatchUps : u'.replica.catchUps = u.replica.catchUps)
    (hreads : u'.replica.reads = u.replica.reads)
    (hresponses : u'.responses = u.responses) : Touches action u t :=
  .of_replicates hrep (h.catchUps.trans hcatchUps) (h.reads.trans hreads)
    fun _ => h.responses.trans hresponses

/-- A turn that catches up. -/
theorem of_catchesUp (hcatch : action.CatchesUp) (h : t.replica =
      { u.replica with node := t.replica.node, catchUps := t.replica.catchUps })
    (hresponses : t.responses = u.responses) : Touches action u t where
  replicating _ := by rw [h]
  sends _ := by rw [h]
  rounds _ := by rw [h]
  writes _ := by rw [h]
  catchUps hno := absurd hcatch hno
  reads _ := by rw [h]
  responses _ := hresponses

/-- A turn of a read. -/
theorem of_reads (hread : action.Reads) (h : t.replica =
      { u.replica with node := t.replica.node, reads := t.replica.reads })
    (hresponses : ¬ action.Answers → t.responses = u.responses) : Touches action u t where
  replicating _ := by rw [h]
  sends _ := by rw [h]
  rounds _ := by rw [h]
  writes _ := by rw [h]
  catchUps _ := by rw [h]
  reads hno := absurd hread hno
  responses := hresponses

/-- A round of heartbeats drives replication. -/
theorem sendHeartbeats (a : String) (u : Turn) :
    Touches (.sendHeartbeats a) u u.sendHeartbeats := by
  unfold Turn.sendHeartbeats
  split
  · exact .of_votes rfl rfl
  · have hd := (u.driveAll_spec u.replica.node.peers).1
    exact .of_replicates trivial hd.catchUps hd.reads fun _ => hd.responses

/-- The end of a round drops the round. -/
theorem resumeRound (a : String) (u : Turn) (k : ℕ) :
    Touches (.roundResume a k) u (u.resumeRound k) := by
  unfold Turn.resumeRound
  dsimp only
  split <;> exact .of_replicates trivial rfl rfl fun _ => rfl

/-- A write starts calls of `replicate`, or is refused. -/
theorem clientWrite (a : String) (u : Turn) (stroke : Stroke) :
    Touches (.clientWrite a stroke) u (u.clientWrite stroke) := by
  unfold Turn.clientWrite
  dsimp only
  split
  · exact .of_replicates trivial rfl rfl fun hno => absurd trivial hno
  · have hd := ((u.number.setNode (u.replica.node.clientAppend stroke)).driveAll_spec
      u.replica.node.peers).1
    exact .of_replicates trivial hd.catchUps hd.reads fun hno => absurd trivial hno

/-- A write that resumes starts them again, or is answered. -/
theorem resumeWrite (a : String) (u : Turn) (k : ℕ) (w : Write) :
    Touches (.writeResume a k) u (u.resumeWrite k w) := by
  unfold Turn.resumeWrite
  dsimp only
  split
  · exact .of_replicates trivial rfl rfl fun hno => absurd trivial hno
  · split
    · exact .of_replicates trivial rfl rfl fun hno => absurd trivial hno
    · split
      · have hd := (u.driveAll_spec u.replica.node.peers).1
        exact .of_replicates trivial hd.catchUps hd.reads fun hno => absurd trivial hno
      · exact .of_replicates trivial rfl rfl fun hno => absurd trivial hno

/-- Asking for a log adds a catch-up. -/
theorem requestCatchUp (a : String) (u : Turn) :
    Touches (.requestCatchUp a) u u.requestCatchUp := by
  unfold Turn.requestCatchUp
  split
  · exact .of_votes rfl rfl
  · cases u.replica.node.catchUpTargets <;> exact .of_catchesUp trivial rfl rfl

/-- The answer removes it, and the next target may be asked. -/
theorem resumeCatchUp (a : String) (u : Turn) (k : ℕ) (task : CatchUp)
    (outcome : Option SyncLogResult) :
    Touches (.catchUpReply a k outcome) u (u.resumeCatchUp k task outcome) := by
  cases outcome with
  | some result => exact .of_catchesUp trivial rfl rfl
  | none =>
      obtain ⟨rpc, remaining⟩ := task
      cases remaining <;> exact .of_catchesUp trivial rfl rfl

/-- A read is refused or added. -/
theorem readBoardState (a : String) (u : Turn) (boardId : String) :
    Touches (.readBoardState a boardId) u (u.readBoardState boardId) := by
  unfold Turn.readBoardState
  dsimp only
  split
  · exact .of_reads trivial rfl fun hno => absurd trivial hno
  · rw [Turn.sendAll_eq]
    exact .of_reads trivial rfl fun _ => rfl

end Touches

namespace Cluster

variable {cfg : Config} {c c' : Cluster}

/-- **What can happen** to the cluster: a turn of one replica, or a restart of
one on files that some of the calls of its turn have reached. -/
theorem next_cases {e : Event} (h : next cfg c e = some c') :
    (∃ action t, e = .act action ∧ action.replica ∈ cfg.members ∧ c.turn action = some t ∧
        c' = c.finishTurn action.replica t) ∨
      (∃ action t calls, e = .crash action calls ∧ action.replica ∈ cfg.members ∧
        c.turn action = some t ∧
        c' = c.reboot cfg action.replica
          ((c.files action.replica).replay (t.replica.node.calls.take calls))) ∨
      (∃ a calls, e = .restart a calls ∧ a ∈ cfg.members ∧
        c' = c.reboot cfg a ((c.files a).replay
          ((RaftNode.construct (cfg.params a) (c.files a)).calls.take calls))) := by
  cases e with
  | act action =>
      simp only [next, Option.ite_none_right_eq_some, Option.map_eq_some_iff] at h
      obtain ⟨hmem, t, ht, rfl⟩ := h
      exact Or.inl ⟨action, t, rfl, hmem, ht, rfl⟩
  | crash action calls =>
      simp only [next, Option.ite_none_right_eq_some, Option.map_eq_some_iff] at h
      obtain ⟨hmem, t, ht, rfl⟩ := h
      exact Or.inr (Or.inl ⟨action, t, calls, rfl, hmem, ht, rfl⟩)
  | restart a calls =>
      simp only [next, Option.ite_none_right_eq_some] at h
      obtain ⟨hmem, hc⟩ := h
      exact Or.inr (Or.inr ⟨a, calls, rfl, hmem, (Option.some.inj hc).symm⟩)

/-- A turn that neither steps an election nor serves a request is plain. -/
theorem plain_turn {action : Action} {t : Turn} (h : c.turn action = some t)
    (hvotes : ¬ action.Votes) (hdeliver : ∀ packet, action ≠ .deliver packet) :
    Turn.Plain (c.startTurn action.replica) t := by
  cases action with
  | electionTimeout a => exact absurd trivial hvotes
  | voteReply a k rpc outcome => exact absurd trivial hvotes
  | voteFinally a k => exact absurd trivial hvotes
  | sendHeartbeats a => exact Option.some.inj h ▸ Turn.plain_sendHeartbeats _
  | roundResume a k =>
      obtain ⟨promises, -, rfl⟩ := Turn.roundResume_some h
      exact Turn.plain_resumeRound _ k
  | sendReply a k outcome =>
      simp only [turn] at h
      split at h
      · exact Turn.plain_sendReply (Option.ite_none_right_eq_some.mp h).2
      · cases h
  | sendFinally a k => exact Turn.plain_sendFinally h
  | clientWrite a stroke => exact Option.some.inj h ▸ Turn.plain_clientWrite _ _
  | writeResume a k =>
      obtain ⟨w, -, rfl⟩ := Turn.writeResume_some h
      exact Turn.plain_resumeWrite _ k w
  | requestCatchUp a => exact Option.some.inj h ▸ Turn.plain_requestCatchUp _
  | catchUpReply a k outcome =>
      simp only [turn] at h
      split at h
      · obtain ⟨task, -, rfl⟩ := Turn.catchUpReply_some (Option.ite_none_right_eq_some.mp h).2
        exact Turn.plain_resumeCatchUp _ k task outcome
      · cases h
  | readBoardState a boardId => exact Option.some.inj h ▸ Turn.plain_readBoardState _ _
  | readReply a k rpc outcome =>
      simp only [turn, Option.ite_none_right_eq_some] at h
      exact Turn.plain_readReply h.2
  | readResume a k =>
      obtain ⟨r, -, -, -, rfl⟩ := Turn.readResume_some h
      exact Turn.plain_resumeRead _ k r
  | readFinish a k =>
      obtain ⟨r, confirmed, -, -, rfl⟩ := Turn.readFinish_some h
      exact Turn.plain_finishRead _ k r confirmed
  | deliver packet => exact absurd rfl (hdeliver packet)

/-- A turn is plain, or steps an election, or serves a request. -/
theorem turn_cases {action : Action} {t : Turn} (h : c.turn action = some t) :
    Turn.Plain (c.startTurn action.replica) t ∨
      t = (c.startTurn action.replica).runElection ∨
      (∃ k rpc outcome, c.Possible rpc (outcome.map .requestVote) ∧
        (c.startTurn action.replica).voteReply k rpc outcome = some t) ∨
      (∃ k, (c.startTurn action.replica).voteFinally k = some t) ∨
      (∃ packet ∈ c.wire, action = .deliver packet ∧
        t = (c.startTurn packet.dst).deliver packet) := by
  cases action with
  | electionTimeout a =>
      simp only [turn] at h
      split at h
      · exact Or.inl (Option.some.inj h ▸ Turn.Plain.refl _)
      · exact Or.inr (Or.inl (Option.some.inj h).symm)
  | voteReply a k rpc outcome =>
      simp only [turn, Option.ite_none_right_eq_some] at h
      exact Or.inr (Or.inr (Or.inl ⟨k, rpc, outcome, h⟩))
  | voteFinally a k => exact Or.inr (Or.inr (Or.inr (Or.inl ⟨k, h⟩)))
  | deliver packet =>
      simp only [turn, Option.ite_none_right_eq_some] at h
      exact Or.inr (Or.inr (Or.inr (Or.inr ⟨packet, h.1, rfl, (Option.some.inj h.2).symm⟩)))
  | _ => exact Or.inl (plain_turn h not_false fun packet hd => by cases hd)

/-- **A turn touches** only the calls that its action is about. -/
theorem touches_turn {action : Action} {t : Turn} (h : c.turn action = some t) :
    Touches action (c.startTurn action.replica) t := by
  cases action with
  | electionTimeout a =>
      simp only [turn] at h
      split at h
      · exact Option.some.inj h ▸ .of_votes rfl rfl
      · obtain rfl := Option.some.inj h
        unfold Turn.runElection
        dsimp only
        rw [Turn.sendAll_eq]
        exact .of_votes rfl rfl
  | voteReply a k rpc outcome =>
      simp only [turn, Option.ite_none_right_eq_some] at h
      obtain ⟨e, q, -, -, rfl⟩ := Turn.voteReply_some h.2
      exact .of_votes rfl rfl
  | voteFinally a k =>
      obtain ⟨e, -, rfl⟩ := Turn.voteFinally_some h
      exact .of_votes rfl rfl
  | sendHeartbeats a => exact Option.some.inj h ▸ .sendHeartbeats a _
  | roundResume a k =>
      obtain ⟨promises, -, rfl⟩ := Turn.roundResume_some h
      exact .resumeRound a _ k
  | sendReply a k outcome =>
      simp only [turn] at h
      split at h
      · obtain ⟨send, w, -, -, rfl⟩ := Turn.sendReply_some (Option.ite_none_right_eq_some.mp h).2
        exact .of_replicates trivial rfl rfl fun _ => rfl
      · cases h
  | sendFinally a k =>
      obtain ⟨send, -, rfl⟩ := Turn.sendFinally_some h
      exact .of_replicates trivial rfl rfl fun _ => rfl
  | clientWrite a stroke => exact Option.some.inj h ▸ .clientWrite a _ stroke
  | writeResume a k =>
      obtain ⟨w, -, rfl⟩ := Turn.writeResume_some h
      exact .resumeWrite a _ k w
  | requestCatchUp a => exact Option.some.inj h ▸ .requestCatchUp a _
  | catchUpReply a k outcome =>
      simp only [turn] at h
      split at h
      · obtain ⟨task, -, rfl⟩ := Turn.catchUpReply_some (Option.ite_none_right_eq_some.mp h).2
        exact .resumeCatchUp a _ k task outcome
      · cases h
  | readBoardState a boardId => exact Option.some.inj h ▸ .readBoardState a _ boardId
  | readReply a k rpc outcome =>
      simp only [turn, Option.ite_none_right_eq_some] at h
      obtain ⟨r, -, -, rfl⟩ := Turn.readReply_some h.2
      exact .of_reads trivial rfl fun _ => rfl
  | readResume a k =>
      obtain ⟨r, -, -, -, rfl⟩ := Turn.readResume_some h
      exact .of_reads trivial rfl fun _ => rfl
  | readFinish a k =>
      obtain ⟨r, confirmed, -, -, rfl⟩ := Turn.readFinish_some h
      exact .of_reads trivial rfl fun hno => absurd trivial hno
  | deliver packet =>
      simp only [turn, Option.ite_none_right_eq_some] at h
      exact Option.some.inj h.2 ▸ .of_votes rfl rfl

/-! ## Promise numbers -/

/-- No promise is made twice, and only requests are answered. -/
structure Numbered (c : Cluster) : Prop where
  rpc_lt : ∀ p ∈ c.wire, p.rpc < c.nextId
  rpc_nodup : (c.wire.map Packet.rpc).Nodup
  replied : ∀ r ∈ c.replies, ∃ p ∈ c.wire, p.rpc = r.1

/-- A promise belongs to one request. -/
theorem Numbered.packet_inj (h : c.Numbered) {p q : Packet} (hp : p ∈ c.wire) (hq : q ∈ c.wire)
    (hrpc : p.rpc = q.rpc) : p = q :=
  List.inj_on_of_nodup_map h.rpc_nodup hp hq hrpc

/-- Whatever a turn sends, it sends under fresh numbers, and it answers only what
was delivered to it. -/
theorem sends_turn {action : Action} {t : Turn} (h : c.turn action = some t) :
    Turn.Sends (fun _ => True) (c.startTurn action.replica) t ∧
      ∀ r ∈ t.replied, ∃ p ∈ c.wire, p.rpc = r.1 := by
  rcases turn_cases h with hplain | rfl | ⟨k, rpc, outcome, -, hrun⟩ | ⟨k, hrun⟩ |
    ⟨packet, hmem, hact, rfl⟩
  · refine ⟨hplain.sends.mono fun _ _ => trivial, ?_⟩
    rw [hplain.replied]
    simp [startTurn]
  · unfold Turn.runElection
    dsimp only
    refine ⟨((Turn.sends_sendAll _ _ _).mono fun _ _ => trivial).after le_rfl rfl, ?_⟩
    rw [Turn.sendAll_eq]
    simp [startTurn, Turn.setNode, Turn.setElections]
  · obtain ⟨e, q, -, -, rfl⟩ := Turn.voteReply_some hrun
    exact ⟨Turn.Sends.of_eq le_rfl rfl, by simp [startTurn, Turn.setNode, Turn.setElections]⟩
  · obtain ⟨e, -, rfl⟩ := Turn.voteFinally_some hrun
    exact ⟨Turn.Sends.of_eq le_rfl rfl, by simp [startTurn, Turn.setNode, Turn.setElections]⟩
  · subst hact
    refine ⟨Turn.Sends.of_eq le_rfl rfl, ?_⟩
    intro r hr
    simp only [Turn.deliver, startTurn, List.nil_append, List.mem_singleton] at hr
    exact ⟨packet, hmem, by rw [hr]⟩

/-- A turn numbers its packets from where the last one stopped. -/
theorem Numbered.finishTurn (hn : c.Numbered) {action : Action} {t : Turn}
    (h : c.turn action = some t) : (c.finishTurn action.replica t).Numbered := by
  obtain ⟨⟨hle, ps, hsent, hnd, hps⟩, hreplied⟩ := sends_turn h
  have hsent : t.sent = ps := by simpa [startTurn] using hsent
  have hle : c.nextId ≤ t.fresh := hle
  constructor
  · intro p hp
    rcases List.mem_append.mp hp with hold | hnew
    · exact (hn.rpc_lt p hold).trans_le hle
    · exact (hps p (hsent ▸ hnew)).2.2
  · show ((c.wire ++ t.sent).map Packet.rpc).Nodup
    rw [List.map_append, hsent]
    refine List.nodup_append.mpr ⟨hn.rpc_nodup, hnd, ?_⟩
    intro i hi j hj
    obtain ⟨p, hp, rfl⟩ := List.mem_map.mp hi
    obtain ⟨q, hq, rfl⟩ := List.mem_map.mp hj
    exact ((hn.rpc_lt p hp).trans_le (hps q hq).2.1).ne
  · intro r hr
    rcases List.mem_append.mp hr with hold | hnew
    · obtain ⟨p, hp, heq⟩ := hn.replied r hold
      exact ⟨p, List.mem_append_left _ hp, heq⟩
    · obtain ⟨p, hp, heq⟩ := hreplied r hnew
      exact ⟨p, List.mem_append_left _ hp, heq⟩

/-- A restart sends nothing. -/
theorem Numbered.reboot (hn : c.Numbered) (cfg : Config) (a : String) (p : Persistence) :
    (c.reboot cfg a p).Numbered :=
  ⟨hn.rpc_lt, hn.rpc_nodup, hn.replied⟩

@[simp] theorem replicas_finishTurn_self (c : Cluster) (a : String) (t : Turn) :
    (c.finishTurn a t).replicas a = t.replica := by simp [finishTurn]

/-- A turn concerns one replica. -/
theorem replicas_finishTurn_ne (c : Cluster) {a b : String} (t : Turn) (h : b ≠ a) :
    (c.finishTurn a t).replicas b = c.replicas b := by
  simp [finishTurn, Function.update_of_ne h]

@[simp] theorem replicas_reboot_self (c : Cluster) (a : String) (p : Persistence) :
    (c.reboot cfg a p).replicas a = .boot (cfg.params a) p := by simp [reboot]

/-- A restart concerns one replica. -/
theorem replicas_reboot_ne (c : Cluster) {a b : String} (p : Persistence) (h : b ≠ a) :
    (c.reboot cfg a p).replicas b = c.replicas b := by
  simp [reboot, Function.update_of_ne h]

end Cluster

end QuorumCanvas
