import QuorumCanvas.ElectionSafety
import QuorumCanvas.NodeLedger
import QuorumCanvas.NodeOps

/-!
# The ledger of a cluster

A whole run of the cluster is entered in one ledger, replicas being named by
their `replicaId`.  `Ledgered` relates it to a state of the cluster: every node
has its standing, a leader's log is the one in the ledger, every request tells
the truth about the node that sent it, and every reply about the node that
answered.

Nothing here restricts the runs.  What a step must observe for the ledger to go
on is the subject of the next module.
-/

namespace QuorumCanvas

open Ledger (History Standing SameTermAt lastTerm)
open Quorum (Majority)
open RaftNode (Backs InLedger Slice Served Request Reply Issues Evolves Consecutive)

/-! ## What the ledger says of nodes and messages -/

section Sound

variable (cfg : Config) (L : History String LogEntry)

/-- A leader's log is the one in the ledger, and its `matchIndex` names what its
peers have acknowledged. -/
structure Leading (a : String) (n : RaftNode) : Prop where
  leader : L.leader n.currentTerm = some (cfg.replicaId a)
  log : L.log n.currentTerm = n.fullLog
  acked : ∀ k ≤ n.fullLog.length, L.acked (cfg.replicaId a) n.currentTerm k
  matched : ∀ p ∈ cfg.peers a, ∀ k, 0 < k → k ≤ (n.matchIndex p).getD 0 →
    L.acked (cfg.replicaId p) n.currentTerm k

/-- Node `n` of replica `a` is in keeping with the ledger. -/
structure Booked (a : String) (n : RaftNode) : Prop where
  coherent : n.Coherent
  standing : Standing L cfg.ids (cfg.replicaId a) n.currentTerm n.fullLog n.commitIndex
  leads : n.state = .leader → Leading cfg L a n
  stands : n.state = .candidate → 0 < n.currentTerm ∧
    L.leader n.currentTerm ≠ some (cfg.replicaId a)

/-- A request tells the truth about the node `n` of replica `a` that sent it. -/
def RequestSound (a : String) (n : RaftNode) : Request → Prop
  | .requestVote args => args.term ≤ n.currentTerm ∧ ∃ ℓ, L.Chained ℓ ∧
      (∀ e ∈ ℓ, e.term ≤ args.term) ∧ args.lastLogIndex = ℓ.length ∧
      args.lastLogTerm = lastTerm ℓ ∧
      (n.state = .candidate → n.currentTerm = args.term → L.Inherits ℓ n.fullLog args.term)
  | .appendEntries args => L.leader args.term = some (cfg.replicaId a) ∧
      Slice (L.log args.term) args ∧ Backs L cfg.ids n args.leaderCommit args.term
  | .heartbeat args => Backs L cfg.ids n args.leaderCommit args.term
  | .installSnapshot args => L.leader args.term = some (cfg.replicaId a) ∧
      args.snapshot.WellFormed ∧ L.Settled cfg.ids args.snapshot.entries args.term
  | .syncLog args => 0 < args.fromIndex

/-- A reply tells the truth about the node `m` of replica `dst` that gave it; `n` is
the node that asked. -/
def ReplySound (dst : String) (n m : RaftNode) : Request → Reply → Prop
  | .requestVote args, .requestVote result => result.voteGranted = true →
      n.state = .candidate → n.currentTerm = args.term →
      L.Owed (cfg.replicaId dst) n.fullLog args.term
  | .appendEntries args, .appendEntries result => result.success = true →
      ∀ k ≤ args.prevLogIndex + args.entries.length, L.acked (cfg.replicaId dst) args.term k
  | .installSnapshot args, .installSnapshot result => result.term ≤ args.term →
      ∀ k ≤ args.snapshot.lastIncludedIndex, L.acked (cfg.replicaId dst) args.term k
  | .syncLog args, .syncLog result =>
      dst ∈ cfg.members ∧ Served L cfg.ids m args.fromIndex result
  | _, _ => True

/-- What the voters of an election owe is in the candidate's log. -/
structure Polled (n : RaftNode) (e : Election) : Prop where
  term_le : e.term ≤ n.currentTerm
  owed : n.state = .candidate → n.currentTerm = e.term →
    ∀ p ∈ e.voters, L.Owed (cfg.replicaId p) n.fullLog e.term

/-- **The invariant** of the ledger. -/
structure Ledgered (H : Ballots.History String) (c : Cluster) : Prop where
  electoral : Electoral cfg H c
  sound : L.Sound cfg.ids
  vacant : ¬ L.Elected 0
  won : ∀ t v, L.leader t = some v → H.won t v
  nodes : ∀ a ∈ cfg.members, Booked cfg L a (c.replicas a).node
  elections : ∀ a ∈ cfg.members, ∀ e ∈ (c.replicas a).elections,
    Polled cfg L (c.replicas a).node e
  sends : ∀ a ∈ cfg.members, ∀ send ∈ (c.replicas a).sends, ∀ w, send.waiting = some w →
    ⟨w.1, a, send.peer, w.2⟩ ∈ c.wire
  catchUps : ∀ a ∈ cfg.members, ∀ task ∈ (c.replicas a).catchUps, ∃ dst args,
    ⟨task.rpc, a, dst, .syncLog args⟩ ∈ c.wire
  packets : ∀ p ∈ c.wire, RequestSound cfg L p.src (c.replicas p.src).node p.request
  replies : ∀ p ∈ c.wire, ∀ r, (p.rpc, r) ∈ c.replies →
    ReplySound cfg L p.dst (c.replicas p.src).node (c.replicas p.dst).node p.request r

end Sound

variable {cfg : Config} {L L' L'' : History String LogEntry} {H H' : Ballots.History String}
  {c c' : Cluster} {a b : String} {n n' m m' : RaftNode}

/-! ## What a turn enters in the ledger -/

/-- `L'` continues `L` by what replica `a` did in a turn. -/
structure Grown (cfg : Config) (c : Cluster) (a : String) (L L' : History String LogEntry) :
    Prop where
  grows : L.Grows L'
  sound : L'.Sound cfg.ids
  acked : ∀ v t k, L'.acked v t k → L.acked v t k ∨
    v = cfg.replicaId a ∧ (c.replicas a).node.currentTerm ≤ t
  voters : ∀ b ∈ cfg.members, b ≠ a → ∀ t, cfg.replicaId b ∈ L'.voters t →
    cfg.replicaId b ∈ L.voters t ∨ t ≤ (c.replicas b).node.currentTerm
  leader : ∀ t v, L'.leader t = some v → L.leader t = some v ∨ v = cfg.replicaId a ∧ 0 < t
  log : ∀ t v, L.leader t = some v → v ≠ cfg.replicaId a → L'.log t = L.log t

namespace Grown

theorem refl (hL : L.Sound cfg.ids) : Grown cfg c a L L :=
  ⟨.refl L, hL, fun _ _ _ h => Or.inl h, fun _ _ _ _ h => Or.inl h, fun _ _ h => Or.inl h,
    fun _ _ _ _ => rfl⟩

theorem trans (h : Grown cfg c a L L') (h' : Grown cfg c a L' L'') : Grown cfg c a L L'' where
  grows := h.grows.trans h'.grows
  sound := h'.sound
  acked := fun v t k ha => (h'.acked v t k ha).elim (h.acked v t k) Or.inr
  voters := fun b hb hne t hv => (h'.voters b hb hne t hv).elim (h.voters b hb hne t) Or.inr
  leader := fun t v hv => (h'.leader t v hv).elim (h.leader t v) Or.inr
  log := fun t v hv hne => (h'.log t v (h.grows.leader t v hv) hne).trans (h.log t v hv hne)

/-- The replica acknowledges part of a leader's log. -/
theorem acknowledge (hL : L.Sound cfg.ids) {t k : ℕ} (hel : L.Elected t)
    (hk : k ≤ (L.log t).length) (hvote : ∀ u, cfg.replicaId a ∈ L.voters u → u ≤ t)
    (hterm : (c.replicas a).node.currentTerm ≤ t) :
    Grown cfg c a L (L.acknowledge (cfg.replicaId a) t k) where
  grows := L.grows_acknowledge _ _ _
  sound := hL.acknowledge hel hk hvote
  acked := by
    intro v s i h
    rcases h with hold | ⟨hv, hs, -⟩
    · exact Or.inl hold
    · exact Or.inr ⟨hv, hs ▸ hterm⟩
  voters := fun _ _ _ _ h => Or.inl h
  leader := fun _ _ h => Or.inl h
  log := fun _ _ _ _ => rfl

/-- The replica appends to its log as a leader. -/
theorem append (hL : L.Sound cfg.ids) {t : ℕ} {e : LogEntry}
    (hlead : L.leader t = some (cfg.replicaId a)) (he : e.term = t) :
    Grown cfg c a L (L.append t e) where
  grows := L.grows_append _ _
  sound := hL.append (Option.isSome_iff_exists.mpr ⟨_, hlead⟩) he
  acked := fun _ _ _ h => Or.inl h
  voters := fun _ _ _ _ h => Or.inl h
  leader := fun _ _ h => Or.inl h
  log := by
    intro s v hv hne
    have hst : s ≠ t := fun heq => hne (Option.some.inj (hv.symm.trans (heq ▸ hlead)))
    exact Function.update_of_ne hst _ _

/-- What another member, or this one in an older term, has acknowledged is not new. -/
theorem acked_of_lt (hg : Grown cfg c a L L') (ha : a ∈ cfg.members) (hb : b ∈ cfg.members)
    {s t k : ℕ} (ht : t ≤ (c.replicas b).node.currentTerm) (hs : s < t)
    (h : L'.acked (cfg.replicaId b) s k) : L.acked (cfg.replicaId b) s k := by
  rcases hg.acked _ s k h with hold | ⟨heq, hle⟩
  · exact hold
  · obtain rfl := cfg.replicaId_inj b hb a ha heq
    omega

end Grown

/-! ## What a turn leaves in place -/

/-- Node `n'` comes after `n`: nothing committed is taken back, and a candidate of the
same term still holds what it may need. -/
structure Follows (L : History String LogEntry) (n n' : RaftNode) : Prop where
  term_le : n.currentTerm ≤ n'.currentTerm
  commit_le : n.commitIndex ≤ n'.commitIndex
  committed : n'.fullLog.take n.commitIndex = n.fullLog.take n.commitIndex
  campaign : n'.state = .candidate → n.currentTerm < n'.currentTerm ∨
    n.state = .candidate ∧ n.currentTerm = n'.currentTerm ∧
      L.Inherits n.fullLog n'.fullLog n'.currentTerm

namespace Follows

theorem refl (n : RaftNode) : Follows L n n :=
  ⟨le_rfl, le_rfl, rfl, fun hstate => Or.inr ⟨hstate, rfl, .refl _ _⟩⟩

/-- What a node had committed before, at the same positions. -/
theorem take (h : Follows L n n') {k : ℕ} (hk : k ≤ n.commitIndex) :
    n'.fullLog.take k = n.fullLog.take k := by
  have := congrArg (List.take k) h.committed
  rwa [List.take_take, List.take_take, min_eq_left hk] at this

/-- A log and commit index in good standing before and after. -/
theorem of_standing (hL : L.Sound cfg.ids) {v : String} {b c c' : ℕ} {ℓ ℓ' : List LogEntry}
    (hset : L.Settled cfg.ids (ℓ.take c) b) (hc : c ≤ ℓ.length)
    (hst' : Standing L cfg.ids v b ℓ' c') (hle : c ≤ c') : ℓ'.take c = ℓ.take c := by
  have htake := hst'.take_committed hL (Or.inr hset) hle (by rw [List.length_take]; omega)
  rwa [List.take_take, min_self] at htake

end Follows

/-- What a node backs, it goes on backing. -/
theorem RaftNode.Backs.follow (hL : L.Sound cfg.ids) (hg : L.Grows L') (hf : Follows L' n n')
    {k t : ℕ} (h : Backs L cfg.ids n k t) : Backs L' cfg.ids n' k t :=
  ⟨h.le.trans hf.commit_le, hf.take h.le ▸ hg.settled hL h.settled⟩

/-- A candidate that still stands in term `t` stood in it before. -/
theorem Follows.candidate (hf : Follows L n n') {t : ℕ} (ht : t ≤ n.currentTerm)
    (hstate : n'.state = .candidate) (hterm : n'.currentTerm = t) :
    n.state = .candidate ∧ n.currentTerm = t ∧ L.Inherits n.fullLog n'.fullLog t := by
  rcases hf.campaign hstate with hlt | ⟨hold, heq, hin⟩
  · omega
  · exact ⟨hold, heq.trans hterm, hterm ▸ hin⟩

/-- A sound request stays sound while its sender goes on. -/
theorem RequestSound.follow (hL : L.Sound cfg.ids) (hg : L.Grows L') (hf : Follows L' n n')
    {request : Request} (h : RequestSound cfg L a n request) :
    RequestSound cfg L' a n' request := by
  cases request with
  | requestVote args =>
      obtain ⟨hterm, ℓ, hℓ, hle, hindex, hlast, hin⟩ := h
      refine ⟨hterm.trans hf.term_le, ℓ, hg.chained hℓ, hle, hindex, hlast, fun hstate ht => ?_⟩
      obtain ⟨hold, heq, hin'⟩ := hf.candidate hterm hstate ht
      exact (hg.inherits hℓ (hin hold heq)).trans hin'
  | appendEntries args =>
      obtain ⟨hlead, hslice, hback⟩ := h
      exact ⟨hg.leader _ _ hlead, hslice.grow (hg.log _), hback.follow hL hg hf⟩
  | heartbeat args => exact RaftNode.Backs.follow hL hg hf h
  | installSnapshot args =>
      obtain ⟨hlead, hwf, hset⟩ := h
      exact ⟨hg.leader _ _ hlead, hwf, hg.settled hL hset⟩
  | syncLog args => exact h

/-- So does what was served. -/
theorem RaftNode.Served.follow (hL : L.Sound cfg.ids) (hg : L.Grows L') (hf : Follows L' m m')
    {i : ℕ} {result : SyncLogResult} (h : Served L cfg.ids m i result) :
    Served L' cfg.ids m' i result := by
  have htake := hf.take h.backs.le
  refine ⟨h.backs.follow hL hg hf, fun s hs => ?_, fun hnone => ?_⟩
  · rw [htake]
    exact h.snapshot s hs
  · rw [htake]
    exact h.entries hnone

/-- A reply stays true; a vote counts only while the candidate stands in its term. -/
theorem ReplySound.follow (hL : L.Sound cfg.ids) (hg : Grown cfg c a L L') (ha : a ∈ cfg.members)
    (hf : Follows L' n n') (hf' : Follows L' m m') {request : Request} {reply : Reply}
    (hreq : RequestSound cfg L b n request) {dst : String}
    (hvote : ∀ args result, request = .requestVote args → reply = .requestVote result →
      result.voteGranted = true → dst ∈ cfg.members ∧
        args.term ≤ (c.replicas dst).node.currentTerm)
    (h : ReplySound cfg L dst n m request reply) : ReplySound cfg L' dst n' m' request reply := by
  cases request with
  | requestVote args =>
      cases reply with
      | requestVote result =>
          intro hgrant hstate hterm
          obtain ⟨hold, heq, hin⟩ := hf.candidate hreq.1 hstate hterm
          obtain ⟨hdst, hle⟩ := hvote args result rfl rfl hgrant
          have howed := h hgrant hold heq
          exact hin.owed (hg.grows.owed hL (fun s k hs hk => hg.acked_of_lt ha hdst hle hs hk)
            howed)
      | _ => trivial
  | appendEntries args =>
      cases reply with
      | appendEntries result => exact fun hok k hk => hg.grows.acked _ _ _ (h hok k hk)
      | _ => trivial
  | installSnapshot args =>
      cases reply with
      | installSnapshot result => exact fun hok k hk => hg.grows.acked _ _ _ (h hok k hk)
      | _ => trivial
  | syncLog args =>
      cases reply with
      | syncLog result => exact h.imp_right (RaftNode.Served.follow hL hg.grows hf')
      | _ => trivial
  | heartbeat args => cases reply <;> trivial

/-- So does a poll. -/
theorem Polled.follow (hL : L.Sound cfg.ids) (hg : Grown cfg c a L L') (ha : a ∈ cfg.members)
    (hf : Follows L' n n') {e : Election}
    (hvote : ∀ p ∈ e.voters, p ∈ cfg.members ∧ e.term ≤ (c.replicas p).node.currentTerm)
    (h : Polled cfg L n e) : Polled cfg L' n' e := by
  refine ⟨h.term_le.trans hf.term_le, fun hstate hterm p hp => ?_⟩
  obtain ⟨hold, heq, hin⟩ := hf.candidate h.term_le hstate hterm
  obtain ⟨hmem, hle⟩ := hvote p hp
  exact hin.owed (hg.grows.owed hL (fun s k hs hk => hg.acked_of_lt ha hmem hle hs hk)
    (h.owed hold heq p hp))

/-- The turn of another replica does not concern a node. -/
theorem Booked.grow (hL : L.Sound cfg.ids) (hg : Grown cfg c a L L') (ha : a ∈ cfg.members)
    (hb : b ∈ cfg.members) (hne : b ≠ a) (h : Booked cfg L b (c.replicas b).node) :
    Booked cfg L' b (c.replicas b).node := by
  have hid : cfg.replicaId b ≠ cfg.replicaId a := fun heq =>
    hne (cfg.replicaId_inj b hb a ha heq)
  refine ⟨h.coherent, ?_, fun hstate => ?_, fun hstate => ⟨(h.stands hstate).1, fun hlead => ?_⟩⟩
  · refine h.standing.grow hL hg.grows (fun t k hk => ?_) fun t ht => ?_
    · exact (hg.acked _ t k hk).resolve_right fun hnew => hid hnew.1
    · exact (hg.voters b hb hne t ht).elim (h.standing.voter_le t) id
  · obtain ⟨hleader, hlog, hacked, hmatched⟩ := h.leads hstate
    refine ⟨hg.grows.leader _ _ hleader, (hg.log _ _ hleader hid).trans hlog, ?_, ?_⟩
    · exact fun k hk => hg.grows.acked _ _ _ (hacked k hk)
    · exact fun p hp k hpos hk => hg.grows.acked _ _ _ (hmatched p hp k hpos hk)
  · rcases hg.leader _ _ hlead with hold | ⟨heq, -⟩
    · exact (h.stands hstate).2 hold
    · exact hid heq

/-! ## Requests -/

/-- A leader's slice of its log. -/
theorem slice_of_coherent (hn : n.Coherent) {nextIdx cap : ℕ}
    (hlt : n.log.lastIncludedIndex < nextIdx) (args : AppendEntriesArgs)
    (hprev : args.prevLogIndex = nextIdx - 1)
    (hterm : args.prevLogTerm = n.log.getTermAt (nextIdx - 1))
    (hentries : args.entries = (n.log.getEntriesFrom nextIdx).take cap) :
    Slice n.fullLog args := by
  have hes : args.entries = (n.fullLog.drop (nextIdx - 1)).take cap := by
    rw [hentries]
    unfold RaftLog.getEntriesFrom
    rw [if_neg (Nat.not_le.mpr hlt), hn.entries, List.drop_drop]
    congr 2
    omega
  have hget : ∀ k e, args.entries[k]? = some e → n.fullLog[args.prevLogIndex + k]? = some e := by
    intro k e hk
    rw [hes, List.getElem?_take] at hk
    split at hk
    · rwa [List.getElem?_drop, ← hprev] at hk
    · cases hk
  refine ⟨fun k e hk => ?_, hget, fun hpos => ?_⟩
  · exact hn.inOrder _ e (hget k e hk)
  · rw [hprev] at hpos ⊢
    rw [hterm]
    rcases Nat.lt_or_ge n.fullLog.length (nextIdx - 1) with hover | hle
    · left
      unfold RaftLog.getTermAt
      rw [if_neg (by have := hn.boundary_le; have := hn.commit_le; omega),
        RaftLog.getEntry_eq_none.mpr (Or.inr (hn.getLastIndex ▸ hover))]
      rfl
    · right
      have hlen : (n.fullLog.take (nextIdx - 1)).length = nextIdx - 1 := by
        rw [List.length_take, min_eq_left hle]
      obtain ⟨e, he, hlast⟩ := Ledger.exists_last (ℓ := n.fullLog.take (nextIdx - 1)) (by omega)
      rw [hlen, List.getElem?_take, if_pos (by omega)] at he
      exact ⟨e, he, hlast.trans (hn.getTermAt (by omega) hle).symm⟩

/-- The snapshot on file holds what the node has committed. -/
theorem settled_snapshot (hst : Booked cfg L a n) {s : Snapshot}
    (hs : n.persistence.loadSnapshot = some s) :
    s.WellFormed ∧ L.Settled cfg.ids s.entries n.currentTerm := by
  have hn := hst.coherent
  have hwf := hn.kept.snapshot s hs
  refine ⟨hwf, hst.standing.settled.shorten (List.prefix_take_iff.mpr ⟨?_, ?_⟩)⟩
  · show s.entries <+: n.persistence.fullLog
    unfold Persistence.fullLog Persistence.covered
    rw [hs]
    exact List.prefix_append _ _
  · rw [hwf.boundary]
    refine le_trans ?_ hn.boundary_le
    rw [hn.log]
    unfold RaftLog.ofPersistence
    rw [hs]

/-- **What a node sends** tells the truth about it. -/
theorem requestSound_issues (hst : Booked cfg L a n) {peer : String} {request : Request}
    (h : Issues n peer request) : RequestSound cfg L a n request := by
  have hn := hst.coherent
  cases h with
  | requestVote =>
      exact ⟨le_rfl, n.fullLog, hst.standing.chained, hst.standing.term_le, hn.getLastIndex,
        hn.getLastTerm, fun _ _ => .refl _ _⟩
  | replicate _ h =>
      unfold RaftNode.replicateRequest at h
      split at h
      · cases h
      · next hstate =>
          obtain ⟨hleader, hlog, -, -⟩ := hst.leads (Decidable.not_not.mp hstate)
          dsimp only at h
          split at h
          · obtain ⟨s, hs, rfl⟩ := Option.map_eq_some_iff.mp h
            obtain ⟨hwf, hset⟩ := settled_snapshot hst hs
            exact ⟨hleader, hwf, hset⟩
          · next hlt =>
              obtain rfl := Option.some.inj h
              refine ⟨hleader, ?_, le_rfl, hst.standing.settled⟩
              show Slice (L.log n.currentTerm) _
              rw [hlog]
              exact slice_of_coherent hn (Nat.not_le.mp hlt) _ rfl rfl rfl
  | heartbeat hstate => exact ⟨le_rfl, hst.standing.settled⟩
  | syncLog => exact Nat.succ_pos _

/-! ## Finishing a turn, and coming up again -/

/-- Whoever cast a vote is in its term, at least. -/
theorem Electoral.term_le_of_vote (hc : Electoral cfg H c) (hb : b ∈ cfg.members) {t : ℕ}
    {cand : String} (h : H.vote (cfg.replicaId b) t cand) : t ≤ (c.replicas b).node.currentTerm :=
  (hc.nodes b hb).honours.vote_le t cand h

/-- The voters of an election are in its term, at least. -/
theorem Electoral.voters_le (hc : Electoral cfg H c) (ha : a ∈ cfg.members) {e : Election}
    (he : e ∈ (c.replicas a).elections) :
    ∀ p ∈ e.voters, p ∈ cfg.members ∧ e.term ≤ (c.replicas p).node.currentTerm := by
  intro p hp
  have hok := hc.elections a ha e he
  have hmem := Config.mem_of_mem_peers ha (hok.peers p (List.mem_append_right _ hp))
  exact ⟨hmem, hc.term_le_of_vote hmem (hok.votes p hp)⟩

/-- What a finished turn of replica `a` has made of the ledger. -/
structure Entered (cfg : Config) (L L' : History String LogEntry) (H' : Ballots.History String)
    (c : Cluster) (a : String) (t : Turn) : Prop where
  grown : Grown cfg c a L L'
  won : ∀ u v, L'.leader u = some v → H'.won u v
  node : Booked cfg L' a t.replica.node
  follows : Follows L' (c.replicas a).node t.replica.node
  elections : ∀ e ∈ t.replica.elections, Polled cfg L' t.replica.node e
  replied : ∀ p ∈ c.wire, p.dst = a → ∀ r, (p.rpc, r) ∈ t.replied →
    ReplySound cfg L' a ((c.finishTurn a t).replicas p.src).node t.replica.node p.request r

variable {t : Turn}

/-- After a turn, every replica follows what it was before. -/
theorem Follows.finishTurn (h : Follows L (c.replicas a).node t.replica.node) (b : String) :
    Follows L (c.replicas b).node ((c.finishTurn a t).replicas b).node := by
  by_cases hne : b = a
  · rw [hne, Cluster.replicas_finishTurn_self]
    exact h
  · rw [Cluster.replicas_finishTurn_ne c t hne]
    exact .refl _

/-- A vote that was granted was cast. -/
theorem Electoral.vote_of_reply (hc : Electoral cfg H c) {p : Packet} (hp : p ∈ c.wire)
    {r : Reply} (hr : (p.rpc, r) ∈ c.replies) {args : RequestVoteArgs}
    {result : RequestVoteResult} (hreq : p.request = .requestVote args)
    (hres : r = .requestVote result) (hgrant : result.voteGranted = true) :
    p.dst ∈ cfg.members ∧ args.term ≤ (c.replicas p.dst).node.currentTerm := by
  have hpacket := hc.packets p hp
  have hdst := Config.mem_of_mem_peers hpacket.src (hpacket.vote args hreq).2
  exact ⟨hdst, hc.term_le_of_vote hdst (hc.votes p hp r hr args result hreq hres hgrant)⟩

/-- **A finished turn** keeps the ledger. -/
theorem Ledgered.finishTurn (hc : Ledgered cfg L H c) {action : Action}
    (ha : action.replica ∈ cfg.members) (h : c.turn action = some t)
    (hc' : Electoral cfg H' (c.finishTurn action.replica t))
    (ht : Entered cfg L L' H' c action.replica t) :
    Ledgered cfg L' H' (c.finishTurn action.replica t) := by
  have hL := hc.sound
  have hg := ht.grown
  have hfollows := ht.follows.finishTurn
  have hurl : t.replica.node.selfUrl = action.replica := by
    have hparams := (hc'.nodes _ ha).params
    rw [Cluster.replicas_finishTurn_self] at hparams
    exact congrArg RaftNode.Params.selfUrl hparams
  refine ⟨hc', hg.sound, ?_, ht.won, ?_, ?_, ?_, ?_, ?_, ?_⟩
  · intro hel
    obtain ⟨v, hv⟩ := Option.isSome_iff_exists.mp hel
    rcases hg.leader 0 v hv with hold | ⟨-, hlt⟩
    · exact hc.vacant (Option.isSome_iff_exists.mpr ⟨v, hold⟩)
    · exact absurd hlt (lt_irrefl 0)
  · intro b hb
    by_cases hne : b = action.replica
    · rw [hne, Cluster.replicas_finishTurn_self]
      exact ht.node
    · rw [Cluster.replicas_finishTurn_ne c t hne]
      exact (hc.nodes b hb).grow hL hg ha hb hne
  · intro b hb e he
    by_cases hne : b = action.replica
    · rw [hne, Cluster.replicas_finishTurn_self] at he ⊢
      exact ht.elections e he
    · rw [Cluster.replicas_finishTurn_ne c t hne] at he ⊢
      exact (hc.elections b hb e he).follow hL hg ha (.refl _) (hc.electoral.voters_le hb he)
  · intro b hb send hsend w hw
    by_cases hne : b = action.replica
    · rw [hne, Cluster.replicas_finishTurn_self] at hsend
      rcases Cluster.started_turn h send hsend with hold | hnew
      · exact List.mem_append_left _ (hne ▸ hc.sends _ ha send hold w hw)
      · rw [hne, ← hurl]
        exact List.mem_append_right _ (hnew w hw)
    · rw [Cluster.replicas_finishTurn_ne c t hne] at hsend
      exact List.mem_append_left _ (hc.sends b hb send hsend w hw)
  · intro b hb task htask
    by_cases hne : b = action.replica
    · rw [hne, Cluster.replicas_finishTurn_self] at htask
      rcases Cluster.asked_turn h task htask with hold | ⟨dst, args, hnew⟩
      · obtain ⟨dst, args, hmem⟩ := hc.catchUps _ ha task hold
        exact ⟨dst, args, List.mem_append_left _ (hne ▸ hmem)⟩
      · rw [hurl] at hnew
        exact ⟨dst, args, List.mem_append_right _ (hne ▸ hnew)⟩
    · rw [Cluster.replicas_finishTurn_ne c t hne] at htask
      obtain ⟨dst, args, hmem⟩ := hc.catchUps b hb task htask
      exact ⟨dst, args, List.mem_append_left _ hmem⟩
  · intro p hp
    rcases List.mem_append.mp hp with hold | hnew
    · exact (hc.packets p hold).follow hL hg.grows (hfollows p.src)
    · obtain ⟨hsrc, hissues⟩ := Cluster.issues_turn h p hnew
      rw [hsrc, hurl, Cluster.replicas_finishTurn_self]
      exact requestSound_issues ht.node hissues
  · intro p hp r hr
    -- a reply made so far answers a request sent so far
    have hwire : p ∈ c.wire := by
      obtain ⟨q, hq, hrpc⟩ : ∃ q ∈ c.wire, q.rpc = p.rpc := by
        rcases List.mem_append.mp hr with hold | hnew
        · exact hc.electoral.numbered.replied _ hold
        · exact (Cluster.sends_turn h).2 _ hnew
      exact hc'.numbered.packet_inj (List.mem_append_left _ hq) hp hrpc ▸ hq
    rcases List.mem_append.mp hr with hold | hnew
    · exact (hc.replies p hwire r hold).follow hL hg ha (hfollows p.src) (hfollows p.dst)
        (hc.packets p hwire) fun args result hreq hres hgrant =>
          hc.electoral.vote_of_reply hwire hold hreq hres hgrant
    · obtain ⟨q, hq, hdst, heq⟩ := Cluster.answers_turn h _ hnew
      have hsame : q = p := hc.electoral.numbered.packet_inj hq hwire (Prod.mk.inj heq).1.symm
      rw [hsame] at hdst
      have hsound := ht.replied p hwire hdst r hnew
      rwa [hdst, Cluster.replicas_finishTurn_self]

/-- The state in which a restart finds a replica. -/
theorem state_construct (params : RaftNode.Params) (p : Persistence) :
    (RaftNode.construct params p).state = .follower := by
  have hstate : ∀ base : RaftNode, base.state = .follower → base.applyCommitted.state = .follower :=
    fun base hbase => (RaftNode.quiet_applyCommitted base).state.trans hbase
  unfold RaftNode.construct
  cases p.loadSnapshot with
  | none => exact hstate _ rfl
  | some s => exact hstate _ rfl

/-- **Coming up again** on files that are in keeping with the ledger. -/
theorem Ledgered.reboot (hc : Ledgered cfg L H c) (ha : a ∈ cfg.members) {p : Persistence}
    (hc' : Electoral cfg H' (c.reboot cfg a p)) (hg : Grown cfg c a L L')
    (hwon : ∀ u v, L'.leader u = some v → H'.won u v)
    (hterm : (c.replicas a).node.currentTerm ≤ p.loadState.currentTerm)
    (hp : p.Meets (InLedger L' cfg.ids (cfg.replicaId a) (c.replicas a).node.commitIndex)) :
    Ledgered cfg L' H' (c.reboot cfg a p) := by
  have hL := hc.sound
  obtain ⟨hcoh, hfull, hcommit, hcurrent, -⟩ := RaftNode.coherent_construct (cfg.params a) hp
  have hstate := state_construct (cfg.params a) p
  have hold := hc.nodes a ha
  have hst : Standing L' cfg.ids (cfg.replicaId a)
      (RaftNode.construct (cfg.params a) p).currentTerm
      (RaftNode.construct (cfg.params a) p).fullLog
      (RaftNode.construct (cfg.params a) p).commitIndex := by
    rw [hfull, hcommit, hcurrent]
    exact hp.holds.1
  have hfollow : Follows L' (c.replicas a).node (RaftNode.construct (cfg.params a) p) := by
    have hle : (c.replicas a).node.currentTerm ≤
        (RaftNode.construct (cfg.params a) p).currentTerm := hcurrent ▸ hterm
    have hcle : (c.replicas a).node.commitIndex ≤
        (RaftNode.construct (cfg.params a) p).commitIndex := hcommit ▸ hp.holds.2
    refine ⟨hle, hcle, ?_, fun hcand => ?_⟩
    · exact Follows.of_standing hg.sound ((hg.grows.settled hL hold.standing.settled).mono hle)
        hold.standing.commit_le hst hcle
    · rw [hstate] at hcand
      cases hcand
  have hfollows : ∀ b, Follows L' (c.replicas b).node ((c.reboot cfg a p).replicas b).node := by
    intro b
    by_cases hne : b = a
    · rw [hne, Cluster.replicas_reboot_self]
      exact hfollow
    · rw [Cluster.replicas_reboot_ne c p hne]
      exact .refl _
  refine ⟨hc', hg.sound, ?_, hwon, ?_, ?_, ?_, ?_, ?_, ?_⟩
  · intro hel
    obtain ⟨v, hv⟩ := Option.isSome_iff_exists.mp hel
    rcases hg.leader 0 v hv with hlead | ⟨-, hlt⟩
    · exact hc.vacant (Option.isSome_iff_exists.mpr ⟨v, hlead⟩)
    · exact absurd hlt (lt_irrefl 0)
  · intro b hb
    by_cases hne : b = a
    · rw [hne, Cluster.replicas_reboot_self]
      refine ⟨hcoh, hst, fun hlead => ?_, fun hcand => ?_⟩
      · exact absurd (hstate.symm.trans hlead) (by decide)
      · exact absurd (hstate.symm.trans hcand) (by decide)
    · rw [Cluster.replicas_reboot_ne c p hne]
      exact (hc.nodes b hb).grow hL hg ha hb hne
  · intro b hb e he
    by_cases hne : b = a
    · rw [hne, Cluster.replicas_reboot_self] at he
      cases he
    · rw [Cluster.replicas_reboot_ne c p hne] at he ⊢
      exact (hc.elections b hb e he).follow hL hg ha (.refl _) (hc.electoral.voters_le hb he)
  · intro b hb send hsend
    by_cases hne : b = a
    · rw [hne, Cluster.replicas_reboot_self] at hsend
      cases hsend
    · rw [Cluster.replicas_reboot_ne c p hne] at hsend
      exact hc.sends b hb send hsend
  · intro b hb task htask
    by_cases hne : b = a
    · rw [hne, Cluster.replicas_reboot_self] at htask
      cases htask
    · rw [Cluster.replicas_reboot_ne c p hne] at htask
      exact hc.catchUps b hb task htask
  · exact fun q hq => (hc.packets q hq).follow hL hg.grows (hfollows q.src)
  · exact fun q hq r hr => (hc.replies q hq r hr).follow hL hg ha (hfollows q.src) (hfollows q.dst)
      (hc.packets q hq) fun args result hreq hres hgrant =>
        hc.electoral.vote_of_reply hq hr hreq hres hgrant

/-- A fresh cluster has entered nothing. -/
theorem ledgered_init (cfg : Config) [cfg.OnFiles] :
    Ledgered cfg (.blank String LogEntry) (.blank String) (.init cfg) := by
  have hfresh : (Persistence.fresh .file).Meets
      (fun ℓ c b => ℓ = [] ∧ c = 0 ∧ b = 0) := by
    refine ⟨⟨rfl, (fun s hs => by cases hs), InOrder.nil, le_rfl⟩, rfl, rfl, rfl⟩
  refine ⟨electoral_init cfg, History.sound_blank, (fun h => by cases h), (fun t v h => by cases h),
    fun a ha => ?_, (fun a _ e he => by cases he), (fun a _ s hs => by cases hs),
    (fun a _ s hs => by cases hs), (fun p hp => by cases hp), fun p hp => by cases hp⟩
  obtain ⟨hcoh, hfull, hcommit, hterm, -⟩ := RaftNode.coherent_construct (cfg.params a) hfresh
  have hstate := state_construct (cfg.params a) (.fresh .file)
  show Booked cfg _ a (RaftNode.construct (cfg.params a) (.fresh (cfg.backend a)))
  rw [Config.OnFiles.backend a ha]
  refine ⟨hcoh, ?_, fun hlead => ?_, fun hcand => ?_⟩
  · rw [hfull, hcommit, hterm]
    exact Standing.blank _
  · exact absurd (hstate.symm.trans hlead) (by decide)
  · exact absurd (hstate.symm.trans hcand) (by decide)

end QuorumCanvas
