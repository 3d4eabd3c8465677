import QuorumCanvas.AgreedCommits
import QuorumCanvas.Links

/-!
# Match indices

A leader counts a peer for every entry up to the peer's `matchIndex`.  While the peer
stays in the leader's term it gives up nothing of what it shares with the leader's log
(`retaining_next`), so whatever it has acknowledged in that term it still holds; and if
only acknowledgements of the leader's own term are counted, a match index is sound
(`match_index_sound`).
-/

namespace QuorumCanvas

open Ledger (History Standing Grafting)
open RaftNode (Evolves Op Request Reply Served Slice Stays Moves Installable Consecutive)

/-! ## What a node retains -/

/-- Files that go back on no term from `b₀` on, and in `b₀` on nothing that `ℓ₀` shares
with the log of that term. -/
def Retaining (L : History String LogEntry) (b₀ : ℕ) (ℓ₀ : List LogEntry) : Holding :=
  fun ℓ _ b => b₀ ≤ b ∧ (b = b₀ → L.Retains ℓ₀ ℓ b₀)

variable {L : History String LogEntry} {b₀ : ℕ} {ℓ₀ : List LogEntry}

/-- The same log at a later term. -/
theorem Retaining.same {k b : ℕ} (h : b₀ ≤ b) : Retaining L b₀ ℓ₀ ℓ₀ k b :=
  ⟨h, fun _ => .refl ℓ₀ b₀⟩

/-- A later term and another commit index change nothing. -/
theorem Retaining.bump {ℓ : List LogEntry} {k k' b b' : ℕ} (h : Retaining L b₀ ℓ₀ ℓ k b)
    (hb : b ≤ b') : Retaining L b₀ ℓ₀ ℓ k' b' :=
  ⟨h.1.trans hb, fun heq => h.2 (by have := h.1; omega)⟩

namespace RaftNode

variable {members : Finset String} {v : String} {n m : RaftNode} {T : Prop}

/-- Copying entry by entry what is vouched for takes back nothing that is shared. -/
theorem splices_retaining (hL : L.Sound members) {b c i : ℕ} {P : List LogEntry}
    (hP : L.Vouched members P b) {es : List LogEntry}
    (hes : ∀ k e, es[k]? = some e → P[i + k]? = some e) :
    Splices c (fun j ℓ => Grafting L members v b c P ℓ₀ j ℓ ∧ L.Retains ℓ₀ ℓ b) i es := by
  intro k e hk
  obtain ⟨hkept, hsame, hdrop, hadd⟩ : Splicing c (Grafting L members v b c P ℓ₀) e (i + k) :=
    splices_grafting hL hP hes k e hk
  refine ⟨fun ℓ hJ hlt => ⟨hkept ℓ hJ.1 hlt, hJ.2⟩,
    fun ℓ e' hJ he' hterm => ⟨hsame ℓ e' hJ.1 he' hterm, hJ.2⟩,
    fun ℓ e' hJ he' hne hle => ⟨hdrop ℓ e' hJ.1 he' hne hle, hJ.2.trans ?_⟩,
    fun ℓ hJ hlen => ⟨hadd ℓ hJ.1 hlen, hJ.2.trans (.extended (List.prefix_append _ _))⟩⟩
  exact .cut hL hP (hes k e hk) he' hne

/-- A slice of a leader's log cuts nothing that an earlier leader counts on. -/
theorem retaining_handleAppendEntries (hL : L.Sound members) (hzero : ¬ L.Elected 0)
    (hn : n.Coherent) (hst : Standing L members v n.currentTerm n.fullLog n.commitIndex)
    {args : AppendEntriesArgs} (hslice : Slice (L.log args.term) args)
    (hel : L.Elected args.term) :
    Evolves T (Retaining L n.currentTerm n.fullLog) n (n.handleAppendEntries args).1 := by
  rcases Nat.lt_or_ge args.term n.currentTerm with hold | hle
  · have hrefuse : n.handleAppendEntries args = (n, n.appendEntriesResult false) := if_pos hold
    rw [hrefuse]
    exact .refl hn (.same le_rfl)
  have hP : L.Vouched members (L.log args.term) args.term := Or.inl ⟨hel, List.prefix_rfl⟩
  have hG : ∀ {ℓ k}, L.Retains n.fullLog ℓ args.term →
      Retaining L n.currentTerm n.fullLog ℓ k args.term := fun h => ⟨hle, fun heq => heq ▸ h⟩
  exact (evolves_handleAppendEntries (T := T) (G := Retaining L n.currentTerm n.fullLog)
    (J := fun j ℓ => Grafting L members v args.term n.commitIndex (L.log args.term) n.fullLog j ℓ ∧
      L.Retains n.fullLog ℓ args.term)
    hn hslice.consecutive (.same le_rfl) (fun _ => Retaining.same hle)
    (fun _ hprev =>
      ⟨.start (hst.bump hle) (hslice.start hL hzero hel (hst.bump hle) hprev), .refl _ _⟩)
    (fun _ => splices_retaining hL hP hslice.entries)
    (fun _ _ hJ _ => hG hJ.2) (fun _ hJ _ _ => hG hJ.2)).1

/-- A snapshot of what is settled puts back nothing that is shared. -/
theorem installable_retaining (hL : L.Sound members) (hn : n.Coherent) {b : ℕ}
    (hle : n.currentTerm ≤ b) {s : Snapshot} (hwf : s.WellFormed)
    (hset : L.Settled members s.entries b) (hahead : n.commitIndex < s.lastIncludedIndex) :
    Installable (n.log.entries ≠ []) (Retaining L n.currentTerm n.fullLog) n b s := by
  refine ⟨hwf, ⟨hle, fun heq => ?_⟩, ?_⟩
  · rw [← hwf.boundary, ← heq]
    exact .install hL (Or.inr hset)
  · refine (torn_or_empty hn hahead).imp_right fun ⟨hc, hlast, hall⟩ => ⟨hc, hlast, ?_⟩
    rw [hall]
    exact Retaining.same hle

/-- Neither does a settled snapshot. -/
theorem retaining_handleInstallSnapshot (hL : L.Sound members) (hn : n.Coherent)
    {args : InstallSnapshotArgs} (hwf : args.snapshot.WellFormed)
    (hset : L.Settled members args.snapshot.entries args.term) :
    Evolves (n.log.entries ≠ []) (Retaining L n.currentTerm n.fullLog) n
      (n.handleInstallSnapshot args).1 :=
  (evolves_handleInstallSnapshot hn (.same le_rfl) (fun hle => Retaining.same hle)
    fun hle hahead => installable_retaining hL hn hle hwf hset hahead).1

/-- Neither does a catch-up that agrees. -/
theorem retaining_onSyncLogReply (hL : L.Sound members) (hn : n.Coherent) (hm : m.Coherent)
    (hst : Standing L members v n.currentTerm n.fullLog n.commitIndex) {fromIndex : ℕ}
    {result : SyncLogResult} (hs : Served L members m fromIndex result)
    (hok : CatchUpAgrees n m fromIndex result) :
    Evolves (n.log.entries ≠ []) (Retaining L n.currentTerm n.fullLog) n
      (n.onSyncLogReply result) := by
  have hle : n.currentTerm ≤ max n.currentTerm result.term := le_max_left _ _
  have hback := hs.backs.mono (le_max_right n.currentTerm result.term)
  have hG : ∀ {ℓ k}, L.Retains n.fullLog ℓ (max n.currentTerm result.term) →
      Retaining L n.currentTerm n.fullLog ℓ k (max n.currentTerm result.term) := fun h =>
    ⟨hle, fun heq => by rwa [heq] at h⟩
  unfold CatchUpAgrees at hok
  refine evolves_onSyncLogReply (i := if result.entries = [] then 0 else fromIndex - 1) hn rfl
    (.same le_rfl) (fun hlt => .same hlt.le) ?_ ?_
    (J := fun j ℓ => Grafting L members v (max n.currentTerm result.term) n.commitIndex
      (m.fullLog.take result.commitIndex) n.fullLog j ℓ ∧
        L.Retains n.fullLog ℓ (max n.currentTerm result.term))
  · intro s hsome
    obtain ⟨hnil, hwf, hpre⟩ := hs.snapshot s hsome
    refine ⟨hnil, fun hahead => ?_, fun _ _ => .same hle⟩
    have hinstall := installable_retaining hL hn hle hwf (hback.settled.shorten hpre) hahead
    exact ⟨hinstall, fun _ => hinstall.holds.bump le_rfl⟩
  · intro hnone
    rw [hnone] at hok
    rw [hs.filter_entries hm hnone]
    obtain ⟨hcons, hi, hJ, -, -, -⟩ := catching_entries
      (i := if result.entries = [] then 0 else fromIndex - 1) hL hn hm (hst.bump hle) hback
      (fun hne => by rw [if_neg hne]; exact ⟨hs.entries hnone, (if_neg hne).mp hok⟩)
      (fun hnil => by rw [if_pos hnil]; exact ⟨rfl, (if_pos hnil).mp hok⟩)
    refine ⟨hcons, hi, ⟨hJ, .refl _ _⟩, splices_retaining hL (Or.inr hback.settled) ?_,
      fun _ _ hJ _ => hG hJ.2, fun _ hJ _ _ => hG hJ.2⟩
    intro k e hk
    have hne : result.entries ≠ [] := List.ne_nil_of_mem (List.mem_of_getElem? hk)
    rw [if_neg hne]
    rwa [hs.entries hnone, List.getElem?_drop] at hk

end RaftNode

variable {cfg : Config} {H : Ballots.History String} {c c' : Cluster} {a b p : String}
  {action : Action} {n m : RaftNode} {T : Prop}

/-- A request that is delivered. -/
theorem retaining_deliver (hc : Ledgered cfg L H c) {packet : Packet} (hmem : packet ∈ c.wire)
    (hdst : packet.dst ∈ cfg.members) :
    Evolves ((c.start (.deliver packet)).log.entries ≠ []) (Retaining L
      (c.start (.deliver packet)).currentTerm (c.start (.deliver packet)).fullLog)
      (c.start (.deliver packet)) ((c.start (.deliver packet)).handle packet.request).1 := by
  have hb : Booked cfg L packet.dst (c.start (.deliver packet)) := (hc.nodes _ hdst).beginTurn
  have hn := hb.coherent
  have hreq := hc.packets packet hmem
  generalize c.start (.deliver packet) = n at *
  cases hrequest : packet.request with
  | requestVote args =>
      exact (RaftNode.evolves_handleRequestVote hn args (.same le_rfl) fun hlt => .same hlt.le).1
  | appendEntries args =>
      rw [hrequest] at hreq
      obtain ⟨hlead, hslice, -⟩ := hreq
      exact RaftNode.retaining_handleAppendEntries hc.sound hc.vacant hn hb.standing hslice
        (Option.isSome_iff_exists.mpr ⟨_, hlead⟩)
  | heartbeat args =>
      exact (RaftNode.evolves_handleHeartbeat hn (.same le_rfl) (fun hle => .same hle)
        fun hle _ => .same hle).1
  | syncLog args =>
      exact (RaftNode.evolves_handleSyncLog hn args (.same le_rfl) fun hlt => .same hlt.le).1
  | installSnapshot args =>
      rw [hrequest] at hreq
      obtain ⟨-, hwf, hset⟩ := hreq
      exact RaftNode.retaining_handleInstallSnapshot hc.sound hn hwf hset

/-- A change that concerns neither log nor term nor files. -/
theorem RaftNode.Evolves.of_files {G : Holding} (h : Evolves T G n m) {m' : RaftNode}
    (hm' : m'.Coherent) (hcalls : m'.calls = m.calls) (hfiles : m'.persistence = m.persistence) :
    Evolves T G n m' :=
  h.trans ⟨hm', .of_eq hcalls hfiles (h.coherent.meets h.holds)⟩

/-- **One operation** of a careful turn. -/
theorem retaining_admitted (hc : Ledgered cfg L H c) (ha : action.replica ∈ cfg.members)
    (hheed : c.Heeds cfg action) {op : Op} (hadmits : c.Admits action m op)
    (h : Evolves ((c.start action).log.entries ≠ []) (Retaining L (c.start action).currentTerm
      (c.start action).fullLog) (c.start action) m) :
    Evolves ((c.start action).log.entries ≠ []) (Retaining L (c.start action).currentTerm
      (c.start action).fullLog) (c.start action) (Op.run m op) := by
  have hm := h.coherent
  have hG := h.holds
  have hb : Booked cfg L action.replica (c.start action) := (hc.nodes _ ha).beginTurn
  cases op with
  | becomeCandidate =>
      exact h.trans (RaftNode.evolves_becomeCandidate hm hG (hG.bump (Nat.le_succ _))).1
  | becomeLeader => exact h.of_files (hm.of_eq rfl rfl rfl rfl rfl rfl rfl) rfl rfl
  | resetElectionTimer => exact h.of_files (hm.of_eq rfl rfl rfl rfl rfl rfl rfl) rfl rfl
  | becomeFollower term leaderId leaderAddr =>
      exact h.trans (RaftNode.evolves_becomeFollower hm _ _ hG (hG.bump (Nat.le_of_lt hadmits))).1
  | handle request =>
      obtain ⟨rfl, packet, hmem, rfl, rfl⟩ := hadmits
      exact retaining_deliver hc hmem ha
  | onAppendEntriesReply peer args result =>
      show Evolves _ _ _ (m.onAppendEntriesReply peer args result)
      unfold RaftNode.onAppendEntriesReply
      split
      · next hlt => exact h.trans (RaftNode.evolves_becomeFollower hm _ _ hG (hG.bump hlt.le)).1
      · repeat' split
        all_goals exact h.of_files (hm.of_eq rfl rfl rfl rfl rfl rfl rfl) rfl rfl
  | onInstallSnapshotReply peer args result =>
      show Evolves _ _ _ (m.onInstallSnapshotReply peer args result)
      unfold RaftNode.onInstallSnapshotReply
      split
      · next hlt => exact h.trans (RaftNode.evolves_becomeFollower hm _ _ hG (hG.bump hlt.le)).1
      · exact h.of_files (hm.of_eq rfl rfl rfl rfl rfl rfl rfl) rfl rfl
  | onSyncLogReply result =>
      obtain ⟨rfl, k, task, hact, hk, hreply⟩ := hadmits
      obtain ⟨dst, args, hwire⟩ := hc.catchUps _ ha task (List.mem_of_getElem? hk)
      obtain ⟨hdst, hserved⟩ := hc.replies _ hwire _ hreply
      rw [hact] at hheed
      have hagrees := hheed task dst args hk hwire
      exact RaftNode.retaining_onSyncLogReply hc.sound hm (hc.nodes dst hdst).coherent hb.standing
        hserved hagrees
  | updateCommitIndex =>
      exact h.trans (RaftNode.evolves_updateCommitIndex hm hG fun _ _ _ _ _ _ => hG.bump le_rfl).1
  | clientAppend stroke =>
      refine h.trans (RaftNode.evolves_clientAppend hm stroke hG ⟨hG.1, fun heq => ?_⟩).1
      exact (hG.2 heq).trans (.extended (List.prefix_append _ _))

/-- **A careful turn** retains what its replica shares with the leader of its term. -/
theorem retaining_turn (hc : Ledgered cfg L H c) (ha : action.replica ∈ cfg.members)
    (hheed : c.Heeds cfg action) {t : Turn} (h : c.turn action = some t) :
    Evolves ((c.start action).log.entries ≠ []) (Retaining L (c.start action).currentTerm
      (c.start action).fullLog) (c.start action) t.replica.node := by
  have hmoves : Moves (c.Admits action) (c.start action) t.replica.node := Cluster.moves_turn h
  generalize t.replica.node = m at hmoves
  induction hmoves with
  | refl => exact .refl (hc.nodes _ ha).beginTurn.coherent (.same le_rfl)
  | tail _ hok hstep ih =>
      obtain rfl := Option.some.inj hstep
      exact retaining_admitted hc ha hheed hok ih

/-- Coming up again from files that retain what is shared. -/
theorem retaining_reboot {files : Persistence} {l : List LogEntry} {t : ℕ}
    (h : files.Meets (Retaining L t l)) :
    Retaining L t l ((c.reboot cfg a files).replicas a).node.fullLog
      ((c.reboot cfg a files).replicas a).node.commitIndex
      ((c.reboot cfg a files).replicas a).node.currentTerm := by
  obtain ⟨hcoh, hfull, hcommit, hterm, -⟩ := RaftNode.coherent_construct (cfg.params a) h
  rw [Cluster.replicas_reboot_self]
  exact (hfull ▸ hterm ▸ h.holds : Retaining L t l (RaftNode.construct (cfg.params a) files).fullLog
    files.commit (RaftNode.construct (cfg.params a) files).currentTerm).bump le_rfl

/-- **A careful event** retains what each replica shares with the leader of its term. -/
theorem retaining_next (hc : Ledgered cfg L H c) {e : Cluster.Event} (hok : c.Careful cfg e)
    (h : Cluster.next cfg c e = some c') (b : String) :
    Retaining L (c.replicas b).node.currentTerm (c.replicas b).node.fullLog
      (c'.replicas b).node.fullLog (c'.replicas b).node.commitIndex
      (c'.replicas b).node.currentTerm := by
  rcases Cluster.next_cases h with ⟨action, t, rfl, ha, ht, rfl⟩ |
    ⟨action, t, calls, rfl, ha, ht, rfl⟩ | ⟨a, calls, rfl, ha, rfl⟩
  · by_cases hne : b = action.replica
    · subst hne
      rw [Cluster.replicas_finishTurn_self]
      exact (retaining_turn hc ha hok ht).holds
    · rw [Cluster.replicas_finishTurn_ne c t hne]
      exact .same le_rfl
  · by_cases hne : b = action.replica
    · subst hne
      refine retaining_reboot ?_
      obtain ⟨made, hcalls, -, hspan⟩ := (retaining_turn hc ha hok.1 ht).spans
      have hcalls : t.replica.node.calls = made := hcalls
      rw [hcalls]
      exact hspan calls fun ⟨hfull, htorn⟩ => hfull (hok.2 t ht (hcalls ▸ htorn))
    · rw [Cluster.replicas_reboot_ne c _ hne]
      exact .same le_rfl
  · by_cases hne : b = a
    · subst hne
      exact retaining_reboot ((RaftNode.coherent_construct (cfg.params b)
        ((hc.nodes b ha).coherent.meets (.same le_rfl))).2.2.2.2 calls)
    · rw [Cluster.replicas_reboot_ne c _ hne]
      exact .same le_rfl

/-! ## What is counted -/

/-- In term `t`, node `m` has come to hold the first `k` entries of that term's log; while
it stays in `t` it holds them. -/
def HoldsUpTo (L : History String LogEntry) (m : RaftNode) (t k : ℕ) : Prop :=
  k = 0 ∨ t ≤ m.currentTerm ∧ k ≤ (L.log t).length ∧
    (m.currentTerm = t → (L.log t).take k <+: m.fullLog)

namespace HoldsUpTo

variable {L' : History String LogEntry} {t k k' : ℕ}

/-- What holds up to two indices holds up to the greater. -/
theorem max (h : HoldsUpTo L m t k) (h' : HoldsUpTo L m t k') : HoldsUpTo L m t (max k k') := by
  rcases Nat.le_total k k' with hle | hle
  · rwa [max_eq_right hle]
  · rwa [max_eq_left hle]

/-- The ledger grows, and the node retains what it shares with its term's leader. -/
theorem follow (h : HoldsUpTo L m t k) (hg : L.Grows L') {m' : RaftNode}
    (hret : Retaining L m.currentTerm m.fullLog m'.fullLog m'.commitIndex m'.currentTerm) :
    HoldsUpTo L' m' t k := by
  refine h.imp_right fun ⟨hle, hlen, hheld⟩ =>
    ⟨hle.trans hret.1, hlen.trans (hg.log t).length_le, fun hterm => ?_⟩
  -- the node was in this term before
  have hold : m.currentTerm = t := by
    have := hret.1
    omega
  rw [hg.take_log hlen]
  refine hret.2 (hterm.trans hold.symm) _ ?_ (hheld hold)
  rw [hold]
  exact List.take_prefix _ _

end HoldsUpTo

/-- What a reply acknowledges, the node that gave it holds. -/
def Answered (L : History String LogEntry) (m : RaftNode) : Request → Reply → Prop
  | .appendEntries args, .appendEntries result => result.success = true →
      HoldsUpTo L m args.term (args.prevLogIndex + args.entries.length)
  | .installSnapshot args, .installSnapshot result => result.term ≤ args.term →
      HoldsUpTo L m args.term args.snapshot.lastIncludedIndex
  | _, _ => True

/-- An answer stays true while the log retains. -/
theorem Answered.follow {L' : History String LogEntry} {request : Request} {reply : Reply}
    (h : Answered L m request reply) (hg : L.Grows L') {m' : RaftNode}
    (hret : Retaining L m.currentTerm m.fullLog m'.fullLog m'.commitIndex m'.currentTerm) :
    Answered L' m' request reply := by
  cases request <;> cases reply
  case appendEntries.appendEntries => exact fun hs => (h hs).follow hg hret
  case installSnapshot.installSnapshot => exact fun hle => (h hle).follow hg hret
  all_goals trivial

/-- **The match indices** of every leader, and the acknowledgements they come from. -/
structure Matched (cfg : Config) (L : History String LogEntry) (c : Cluster) : Prop where
  replies : ∀ p ∈ c.wire, ∀ r, (p.rpc, r) ∈ c.replies →
    Answered L (c.replicas p.dst).node p.request r
  leads : ∀ a ∈ cfg.members, (c.replicas a).node.state = .leader → ∀ p ∈ cfg.peers a,
    HoldsUpTo L (c.replicas p).node (c.replicas a).node.currentTerm
      (((c.replicas a).node.matchIndex p).getD 0)

/-- A replica that acknowledges a request holds what it acknowledges. -/
theorem answered_deliver (hc : Ledgered cfg L H c) {packet : Packet} (hmem : packet ∈ c.wire)
    (hdst : packet.dst ∈ cfg.members) (hheed : c.Heeds cfg (.deliver packet)) :
    Answered L ((c.start (.deliver packet)).handle packet.request).1 packet.request
      ((c.start (.deliver packet)).handle packet.request).2 := by
  have hb : Booked cfg L packet.dst (c.start (.deliver packet)) := (hc.nodes _ hdst).beginTurn
  have hreq := hc.packets packet hmem
  have hm := (hc.nodes _ (hc.electoral.packets packet hmem).src).coherent
  have hagreed : (c.start (.deliver packet)).Agreed (c.replicas packet.src).node packet.request :=
    hheed
  generalize c.start (.deliver packet) = n at *
  cases hrequest : packet.request with
  | requestVote args => trivial
  | heartbeat args => trivial
  | syncLog args => trivial
  | appendEntries args =>
      rw [hrequest] at hreq hagreed
      obtain ⟨hlead, hslice, hback⟩ := hreq
      obtain ⟨-, hdone⟩ := RaftNode.ledger_handleAppendEntries (T := True) hc.sound hc.vacant
        hb.coherent hm hb.standing hslice (Option.isSome_iff_exists.mpr ⟨_, hlead⟩) hback hagreed
      intro hsuccess
      obtain ⟨hle, hlen, hheld⟩ := hdone hsuccess
      have hleader : (Request.appendEntries args).leader? = some (args.term, args.leaderId) := rfl
      refine Or.inr ⟨?_, hlen, fun _ => hheld⟩
      rcases RaftNode.handle_leader n hleader with ⟨hlt, -⟩ | ⟨-, -, heq⟩
      · exact absurd hle (Nat.not_le.mpr hlt)
      · exact heq.ge
  | installSnapshot args =>
      rw [hrequest] at hreq hagreed
      obtain ⟨hlead, hwf, hset⟩ := hreq
      obtain ⟨-, hdone⟩ := RaftNode.ledger_handleInstallSnapshot hc.sound hb.coherent hb.standing
        hwf
        (Option.isSome_iff_exists.mpr ⟨_, hlead⟩) hset hagreed
      intro hle
      have hleader : (Request.installSnapshot args).leader? = some (args.term, args.leaderId) := rfl
      rcases RaftNode.handle_leader n hleader with ⟨hlt, -⟩ | ⟨hle', -, heq⟩
      · -- a refusal carries the later term
        have hrefuse : (n.handleInstallSnapshot args).2.term = n.currentTerm := by
          unfold RaftNode.handleInstallSnapshot
          rw [if_pos hlt]
        exact absurd (hrefuse ▸ hle) (Nat.not_le.mpr hlt)
      · obtain ⟨hheld, hlen⟩ := hdone hle'
        exact Or.inr ⟨heq.ge, hlen, fun _ => hheld⟩

/-- If `m`, a node of replica `a`, leads, its peers hold what it counts them for. -/
structure Counts (cfg : Config) (L : History String LogEntry) (c : Cluster) (a : String)
    (m : RaftNode) : Prop where
  params : m.params = cfg.params a
  counted : m.state = .leader → ∀ p ∈ cfg.peers a,
    HoldsUpTo L (c.replicas p).node m.currentTerm ((m.matchIndex p).getD 0)

namespace Counts

/-- A node that keeps its role and its match indices, or follows. -/
theorem of_stays {m' : RaftNode} (h : Counts cfg L c a m) (hparams : m'.params = m.params)
    (hstays : Stays m m') : Counts cfg L c a m' := by
  refine ⟨hparams.trans h.params, fun hlead p hp => ?_⟩
  obtain ⟨hstate, hterm⟩ := hstays.kept (by rw [hlead]; decide)
  rw [hterm, hstays.matchIndex]
  exact h.counted (hstate.symm.trans hlead) p hp

/-- A peer is counted anew for what it holds. -/
theorem setMatchIndex (h : Counts cfg L c a m) {peer : String} {index : ℕ}
    (hnew : m.state = .leader → peer ∈ cfg.peers a →
      HoldsUpTo L (c.replicas peer).node m.currentTerm index) :
    Counts cfg L c a (m.setMatchIndex peer index) := by
  refine ⟨h.params, fun hlead p hp => ?_⟩
  by_cases hpeer : p = peer
  · subst hpeer
    simpa [RaftNode.setMatchIndex] using hnew hlead hp
  · simpa [RaftNode.setMatchIndex, Function.update_of_ne hpeer] using h.counted hlead p hp

theorem setNextIndex (h : Counts cfg L c a m) (peer : String) (index : ℕ) :
    Counts cfg L c a (m.setNextIndex peer index) := ⟨h.params, h.counted⟩

/-- A deposed leader counts on nothing. -/
theorem becomeFollower (h : Counts cfg L c a m) {term : ℕ} (leaderId leaderAddr : Option String)
    (hlt : m.currentTerm < term) : Counts cfg L c a (m.becomeFollower term leaderId leaderAddr) :=
  h.of_stays (RaftNode.params_run m (.becomeFollower term leaderId leaderAddr))
    (RaftNode.stays_becomeFollower m _ _ hlt.le)

/-- The reply to an `appendEntries` of the leader's own term. -/
theorem onAppendEntriesReply (h : Counts cfg L c a m) {peer : String} {args : AppendEntriesArgs}
    {result : AppendEntriesResult}
    (hanswered : Answered L (c.replicas peer).node (.appendEntries args) (.appendEntries result))
    (htimely : m.Timely (.appendEntries args) (.appendEntries result)) :
    Counts cfg L c a (m.onAppendEntriesReply peer args result) := by
  unfold RaftNode.onAppendEntriesReply
  split
  · next hlt => exact h.becomeFollower _ _ hlt
  · next hge =>
      have hheld : result.success = true → m.state = .leader →
          HoldsUpTo L (c.replicas peer).node m.currentTerm
            (args.prevLogIndex + args.entries.length) := fun hs hlead =>
        htimely hlead hs (Nat.not_lt.mp hge) ▸ hanswered hs
      split
      · next hsuccess =>
          split
          · exact (h.setNextIndex _ _).setMatchIndex fun hlead _ => hheld hsuccess hlead
          · next hnil =>
              refine h.setMatchIndex fun hlead hp => (h.counted hlead _ hp).max ?_
              have hnew := hheld hsuccess hlead
              rwa [Nat.eq_zero_of_not_pos hnil] at hnew
      · exact h.setNextIndex _ _

/-- The reply to an `installSnapshot` of the leader's own term. -/
theorem onInstallSnapshotReply (h : Counts cfg L c a m) {peer : String}
    {args : InstallSnapshotArgs} {result : InstallSnapshotResult}
    (hanswered : Answered L (c.replicas peer).node (.installSnapshot args)
      (.installSnapshot result))
    (htimely : m.Timely (.installSnapshot args) (.installSnapshot result)) :
    Counts cfg L c a (m.onInstallSnapshotReply peer args result) := by
  unfold RaftNode.onInstallSnapshotReply
  split
  · next hlt => exact h.becomeFollower _ _ hlt
  · next hge =>
      refine (h.setNextIndex _ _).setMatchIndex fun hlead _ => ?_
      have hterm := htimely hlead (Nat.not_lt.mp hge)
      show HoldsUpTo L _ m.currentTerm _
      rw [← hterm]
      exact hanswered (by omega)

end Counts

/-- **One operation** of a careful turn counts a peer for nothing that it does not hold. -/
theorem counts_admitted (hc : Ledgered cfg L H c) (hM : Matched cfg L c)
    (ha : action.replica ∈ cfg.members) (hheed : c.Heeds cfg action) {op : Op}
    (hadmits : c.Admits action m op) (h : Counts cfg L c action.replica m) :
    Counts cfg L c action.replica (Op.run m op) := by
  have hparams := RaftNode.params_run m op
  cases op with
  | becomeCandidate => exact ⟨hparams.trans h.params, fun hlead => by cases hlead⟩
  | becomeLeader =>
      refine ⟨hparams.trans h.params, fun _ p hp => Or.inl ?_⟩
      -- a new leader starts from nothing
      have hpeer : p ∈ m.peers := by
        rw [show m.peers = cfg.peers action.replica from congrArg RaftNode.Params.peers h.params]
        exact hp
      show ((if p ∈ m.peers then some 0 else m.matchIndex p).getD 0) = 0
      rw [if_pos hpeer]
      rfl
  | resetElectionTimer => exact ⟨h.params, h.counted⟩
  | becomeFollower term leaderId leaderAddr =>
      exact h.becomeFollower _ _ hadmits
  | handle request => exact h.of_stays hparams (RaftNode.stays_handle m request)
  | onAppendEntriesReply peer args result =>
      obtain ⟨rfl, k, send, rpc, hact, hk, rfl, hwait, hreply⟩ := hadmits
      have hanswered := hM.replies _ (hc.sends _ ha send (List.mem_of_getElem? hk) _ hwait) _ hreply
      rw [hact] at hheed
      exact h.onAppendEntriesReply hanswered (hheed send _ hk hwait)
  | onInstallSnapshotReply peer args result =>
      obtain ⟨rfl, k, send, rpc, hact, hk, rfl, hwait, hreply⟩ := hadmits
      have hanswered := hM.replies _ (hc.sends _ ha send (List.mem_of_getElem? hk) _ hwait) _ hreply
      rw [hact] at hheed
      exact h.onInstallSnapshotReply hanswered (hheed send _ hk hwait)
  | onSyncLogReply result => exact h.of_stays hparams (RaftNode.stays_onSyncLogReply m result)
  | updateCommitIndex =>
      exact h.of_stays hparams (.of_quiet (RaftNode.quiet_updateCommitIndex m))
  | clientAppend stroke =>
      obtain ⟨-, -, hact⟩ := hadmits
      rw [hact] at hheed
      have hquiet := RaftNode.quiet_appendLog m (m.clientEntry stroke)
      refine (h.of_stays hquiet.params (.of_quiet hquiet)).setMatchIndex fun _ hp => ?_
      rw [show m.replicaId = cfg.replicaId action.replica from
        congrArg RaftNode.Params.replicaId h.params] at hp
      exact absurd hp hheed

/-- **A careful turn** counts a peer for nothing that it does not hold. -/
theorem counts_turn (hc : Ledgered cfg L H c) (hM : Matched cfg L c)
    (ha : action.replica ∈ cfg.members) (hheed : c.Heeds cfg action) {t : Turn}
    (h : c.turn action = some t) : Counts cfg L c action.replica t.replica.node := by
  have hmoves : Moves (c.Admits action) (c.start action) t.replica.node := Cluster.moves_turn h
  generalize t.replica.node = m at hmoves
  induction hmoves with
  | refl => exact ⟨(hc.electoral.nodes _ ha).params, hM.leads _ ha⟩
  | tail _ hok hstep ih =>
      obtain rfl := Option.some.inj hstep
      exact counts_admitted hc hM ha hheed hok ih

/-- The answers of a careful turn. -/
theorem answered_turn (hc : Ledgered cfg L H c) (ha : action.replica ∈ cfg.members)
    (hheed : c.Heeds cfg action) {t : Turn} (h : c.turn action = some t) {r : ℕ × Reply}
    (hr : r ∈ t.replied) : ∃ q ∈ c.wire, q.dst = action.replica ∧ q.rpc = r.1 ∧
      Answered L t.replica.node q.request r.2 := by
  rcases Cluster.turn_cases h with hplain | rfl | ⟨k, rpc, outcome, -, hrun⟩ | ⟨k, hrun⟩ |
    ⟨packet, hmem, rfl, rfl⟩
  · rw [hplain.replied] at hr
    cases hr
  · unfold Turn.runElection at hr
    dsimp only at hr
    rw [Turn.sendAll_eq] at hr
    cases hr
  · obtain ⟨e, q, -, -, rfl⟩ := Turn.voteReply_some hrun
    cases hr
  · obtain ⟨e, -, rfl⟩ := Turn.voteFinally_some hrun
    cases hr
  · obtain rfl := List.mem_singleton.mp hr
    exact ⟨packet, hmem, rfl, rfl, answered_deliver hc hmem ha hheed⟩

/-- A finished turn keeps the match indices. -/
theorem Matched.finishTurn {L' : History String LogEntry} {H' : Ballots.History String} {t : Turn}
    (hM : Matched cfg L c) (hc : Ledgered cfg L H c) (ha : action.replica ∈ cfg.members)
    (hheed : c.Heeds cfg action) (h : c.turn action = some t) (hg : L.Grows L')
    (hc' : Ledgered cfg L' H' (c.finishTurn action.replica t))
    (hret : ∀ b, Retaining L (c.replicas b).node.currentTerm (c.replicas b).node.fullLog
      ((c.finishTurn action.replica t).replicas b).node.fullLog
      ((c.finishTurn action.replica t).replicas b).node.commitIndex
      ((c.finishTurn action.replica t).replicas b).node.currentTerm) :
    Matched cfg L' (c.finishTurn action.replica t) := by
  refine ⟨fun p hp r hr => ?_, fun a ha' hlead p hp => ?_⟩
  · have hnum := hc'.electoral.numbered
    rcases List.mem_append.mp hr with hold | hnew
    · obtain ⟨q, hq, hrpc⟩ := hc.electoral.numbered.replied _ hold
      obtain rfl := hnum.packet_inj (List.mem_append_left _ hq) hp hrpc
      exact (hM.replies q hq r hold).follow hg (hret q.dst)
    · obtain ⟨q, hq, hdst, hrpc, hanswered⟩ := answered_turn hc ha hheed h hnew
      obtain rfl := hnum.packet_inj (List.mem_append_left _ hq) hp hrpc
      rw [hdst, Cluster.replicas_finishTurn_self]
      exact hanswered.follow hg (.same le_rfl)
  · by_cases hne : a = action.replica
    · -- the peers of the replica whose turn it was have not moved
      subst hne
      have hcounted := (counts_turn hc hM ha hheed h).counted
      have hother := ((cfg.mem_peers _ ha' p).mp hp).2
      rw [Cluster.replicas_finishTurn_self] at hlead ⊢
      rw [Cluster.replicas_finishTurn_ne c t hother]
      exact (hcounted hlead p hp).follow hg (.same le_rfl)
    · rw [Cluster.replicas_finishTurn_ne c t hne] at hlead ⊢
      exact (hM.leads a ha' hlead p hp).follow hg (hret p)

/-- Coming up again keeps them, too: whoever comes up does not lead. -/
theorem Matched.reboot {L' : History String LogEntry} {files : Persistence} (hM : Matched cfg L c)
    (hg : L.Grows L') (hret : ∀ b, Retaining L (c.replicas b).node.currentTerm
      (c.replicas b).node.fullLog ((c.reboot cfg a files).replicas b).node.fullLog
      ((c.reboot cfg a files).replicas b).node.commitIndex
      ((c.reboot cfg a files).replicas b).node.currentTerm) :
    Matched cfg L' (c.reboot cfg a files) := by
  refine ⟨fun p hp r hr => (hM.replies p hp r hr).follow hg (hret p.dst),
    fun b hb hlead p hp => ?_⟩
  by_cases hne : b = a
  · rw [hne, Cluster.replicas_reboot_self] at hlead
    exact absurd ((state_construct _ _).symm.trans hlead) (by decide)
  · rw [Cluster.replicas_reboot_ne c _ hne] at hlead ⊢
    exact (hM.leads b hb hlead p hp).follow hg (hret p)

/-- **The step lemma** of match indices. -/
theorem Matched.next (hM : Matched cfg L c) (hc : Ledgered cfg L H c) {e : Cluster.Event}
    (hok : c.Careful cfg e) (h : Cluster.next cfg c e = some c') :
    ∃ L' H', L.Grows L' ∧ Ledgered cfg L' H' c' ∧ Matched cfg L' c' := by
  obtain ⟨L', H', hg, hc'⟩ := hc.next hok h
  have hret := retaining_next hc hok h
  refine ⟨L', H', hg, hc', ?_⟩
  rcases Cluster.next_cases h with ⟨action, t, rfl, ha, ht, rfl⟩ |
    ⟨action, t, calls, rfl, ha, ht, rfl⟩ | ⟨a, calls, rfl, ha, rfl⟩
  · exact hM.finishTurn hc ha hok ht hg hc' hret
  · exact hM.reboot hg hret
  · exact hM.reboot hg hret

/-- **The run lemma** of match indices. -/
theorem Matched.reach (hM : Matched cfg L c) (hc : Ledgered cfg L H c)
    (h : Cluster.Reach cfg (Cluster.Careful cfg) c c') :
    ∃ L' H', Ledgered cfg L' H' c' ∧ Matched cfg L' c' := by
  induction h with
  | refl => exact ⟨L, H, hc, hM⟩
  | tail _ hok hstep ih =>
      obtain ⟨L₁, H₁, hc₁, hM₁⟩ := ih
      obtain ⟨L₂, H₂, -, hc₂, hM₂⟩ := hM₁.next hc₁ hok hstep
      exact ⟨L₂, H₂, hc₂, hM₂⟩

/-- At the start nobody leads. -/
theorem matched_init (cfg : Config) : Matched cfg (.blank String LogEntry) (.init cfg) := by
  refine ⟨fun p hp => (by cases hp), fun a _ hlead => ?_⟩
  exact absurd ((state_construct (cfg.params a) (.fresh (cfg.backend a))).symm.trans hlead)
    (by decide)

/-! ## Match indices are sound -/

/-- Up to index `k`, node `m` holds what `n` has, in log or snapshot, term by term. -/
def RaftNode.SharesUpTo (n m : RaftNode) (k : ℕ) : Prop :=
  ∀ i e, i < k → n.fullLog[i]? = some e → ∃ e', m.fullLog[i]? = some e' ∧ e'.term = e.term

/-- **Match indices are sound.**  In a careful run, each peer of a leader holds what the
leader has up to the peer's match index, or is in a later term; so for an entry of the
leader `replicatedCount` counts no peer but such. -/
theorem match_index_sound (cfg : Config) [cfg.OnFiles] {c : Cluster} {a : String}
    (h : Cluster.Reach cfg (Cluster.Careful cfg) (.init cfg) c) (ha : a ∈ cfg.members)
    (hlead : (c.replicas a).node.state = .leader) :
    (∀ p ∈ cfg.peers a, (c.replicas a).node.currentTerm < (c.replicas p).node.currentTerm ∨
      (c.replicas a).node.SharesUpTo (c.replicas p).node
        (((c.replicas a).node.matchIndex p).getD 0)) ∧
    ∀ index e, (c.replicas a).node.log.getEntry index = some e →
      (c.replicas a).node.replicatedCount index = 1 + (cfg.peers a).countP fun p =>
        index ≤ ((c.replicas a).node.matchIndex p).getD 0 ∧
          ((c.replicas a).node.currentTerm < (c.replicas p).node.currentTerm ∨
            (c.replicas p).node.fullLog[index - 1]?.map LogEntry.term = some e.term) := by
  obtain ⟨L, H, hc, hM⟩ := (matched_init cfg).reach (ledgered_init cfg) h
  have hb := hc.nodes a ha
  have hsound : ∀ p ∈ cfg.peers a,
      (c.replicas a).node.currentTerm < (c.replicas p).node.currentTerm ∨
        (c.replicas a).node.SharesUpTo (c.replicas p).node
          (((c.replicas a).node.matchIndex p).getD 0) := by
    intro p hp
    rcases hM.leads a ha hlead p hp with hzero | ⟨hle, -, hheld⟩
    · exact Or.inr fun i e hi => by omega
    · refine hle.lt_or_eq.imp_right fun hterm i e hi he => ⟨e, ?_, rfl⟩
      -- in the leader's own term the peer holds a prefix of its log
      have hpre := hheld hterm.symm
      rw [(hb.leads hlead).log] at hpre
      have hlt := (List.getElem?_eq_some_iff.mp he).1
      rw [List.prefix_iff_getElem?.mp hpre i (by rw [List.length_take]; omega), List.getElem_take,
        ← List.getElem?_eq_getElem hlt, he]
  refine ⟨hsound, fun index e he => ?_⟩
  have hbound := (RaftLog.bounds_of_getEntry he).1
  have hfull := (hb.coherent.getEntry hbound).symm.trans he
  have hpeers : (c.replicas a).node.peers = cfg.peers a :=
    congrArg RaftNode.Params.peers (hc.electoral.nodes a ha).params
  unfold RaftNode.replicatedCount
  rw [hpeers]
  refine congrArg (1 + ·) (List.countP_congr fun p hp => ?_)
  simp only [decide_eq_true_eq]
  refine ⟨fun hcounted => ⟨hcounted, (hsound p hp).imp_right fun hshares => ?_⟩, And.left⟩
  obtain ⟨e', he', hterm⟩ := hshares (index - 1) e (by omega) hfull
  rw [he', Option.map_some, hterm]

/-- After a write, `b` has what `a` counts on. -/
theorem match_index_sound_trio :
    ((trioAfter 10).replicas "a").node.matchIndex "b" = some 1 ∧
      ((trioAfter 10).replicas "a").node.SharesUpTo ((trioAfter 10).replicas "b").node 1 := by
  have hlead : ((trioAfter 10).replicas "a").node.state = .leader := by rfl
  obtain ⟨hsound, -⟩ := match_index_sound .trio carefulTrio_written (by decide) hlead
  refine ⟨by rfl, (hsound "b" (by decide)).resolve_left ?_⟩
  exact Nat.not_lt.mpr (Nat.le_of_eq (by rfl))

/-- Five replicas that go by their addresses. -/
def Config.five : Config where
  members := ["a", "b", "c", "d", "e"]
  replicaId := id
  peers := fun x => ["a", "b", "c", "d", "e"].filter (· ≠ x)
  snapshotThreshold := fun _ => 100
  batchCap := fun _ => 50
  backend := fun _ => .file
  members_nodup := by decide
  replicaId_inj := fun _ _ _ _ h => h
  peers_nodup := by decide
  mem_peers := fun a _ b => by simp

instance : Config.five.OnFiles := ⟨fun _ _ => rfl⟩

/-- Leader `a` of term 1 sends `x` to `b`, whose acknowledgement is delayed.  Leader `c` of
term 2 overwrites `x` with `y` at `a`, which then leads again, in term 3, and receives the
acknowledgement of `x`. -/
def belated : List Cluster.Event :=
  [.act (.electionTimeout "a"),
    .act (.deliver ⟨0, "a", "b", .requestVote ⟨1, "a", 0, 0⟩⟩),
    .act (.voteReply "a" 0 0 (some ⟨1, true, "b"⟩)),
    .act (.deliver ⟨1, "a", "c", .requestVote ⟨1, "a", 0, 0⟩⟩),
    .act (.voteReply "a" 0 1 (some ⟨1, true, "c"⟩)),
    .act (.clientWrite "a" (.dot "x" "board")),
    .act (.deliver ⟨6, "a", "b", .appendEntries
      ⟨1, "a", some "a", 0, 0, [⟨1, 1, .dot "x" "board"⟩], 0⟩⟩),
    .act (.electionTimeout "c"),
    .act (.deliver ⟨15, "c", "d", .requestVote ⟨2, "c", 0, 0⟩⟩),
    .act (.voteReply "c" 0 15 (some ⟨2, true, "d"⟩)),
    .act (.deliver ⟨16, "c", "e", .requestVote ⟨2, "c", 0, 0⟩⟩),
    .act (.voteReply "c" 0 16 (some ⟨2, true, "e"⟩)),
    .act (.clientWrite "c" (.dot "y" "board")),
    .act (.deliver ⟨19, "c", "a", .appendEntries
      ⟨2, "c", some "c", 0, 0, [⟨1, 2, .dot "y" "board"⟩], 0⟩⟩),
    .act (.electionTimeout "a"),
    .act (.deliver ⟨28, "a", "d", .requestVote ⟨3, "a", 1, 2⟩⟩),
    .act (.voteReply "a" 1 28 (some ⟨3, true, "d"⟩)),
    .act (.deliver ⟨29, "a", "e", .requestVote ⟨3, "a", 1, 2⟩⟩),
    .act (.voteReply "a" 1 29 (some ⟨3, true, "e"⟩)),
    .act (.sendReply "a" 0 (some (.appendEntries ⟨1, true, "b", 1⟩)))]

/-- The state after these events. -/
def belatedFive : Cluster := Cluster.play .five (.init .five) belated

/-- **A belated acknowledgement counts a peer for what it does not hold:** `a` counts `b`
for `y` at index 1, where `b` still has `x`. -/
theorem match_index_unsound :
    Cluster.Reach .five Runs.Any (.init .five) belatedFive ∧
      (belatedFive.replicas "a").node.state = .leader ∧
      (belatedFive.replicas "a").node.matchIndex "b" = some 1 ∧
      (belatedFive.replicas "b").node.currentTerm ≤ (belatedFive.replicas "a").node.currentTerm ∧
      ¬ (belatedFive.replicas "a").node.SharesUpTo (belatedFive.replicas "b").node 1 := by
  refine ⟨Cluster.reach_play (by rfl), by rfl, by rfl, ?_, fun h => ?_⟩
  · have ha : (belatedFive.replicas "a").node.currentTerm = 3 := by rfl
    have hb : (belatedFive.replicas "b").node.currentTerm = 1 := by rfl
    omega
  · have hy : (belatedFive.replicas "a").node.fullLog[0]? = some ⟨1, 2, .dot "y" "board"⟩ := by rfl
    have hx : (belatedFive.replicas "b").node.fullLog[0]? = some ⟨1, 1, .dot "x" "board"⟩ := by rfl
    obtain ⟨e', he', hterm⟩ := h 0 _ Nat.one_pos hy
    obtain rfl := Option.some.inj (hx.symm.trans he')
    exact absurd hterm (by decide)

end QuorumCanvas
