import QuorumCanvas.LogShape

/-!
# What one node does, seen from the ledger

A ledger records which leader wrote what and who acknowledged it.  For every
handler this module says what a node must know about a message, and in which
cases the message lets it commit more than it has verified, so that the node
keeps its standing in the ledger at every crash point on the way.

Four handlers commit entries that nothing in the message vouches for: a
heartbeat, the tail of an `appendEntries`, an installed snapshot in front of a
kept tail, and a catch-up.  `Agrees` is what would have vouched for them.
-/

namespace QuorumCanvas

open Ledger (History Standing Grafting SameTermAt lastTerm)

namespace RaftNode

/-- Up to index `k` there is nothing for `n` to learn from `m`: `n` has committed
that far, or the entries of the two nodes at `k` carry one term. -/
def Agrees (n m : RaftNode) (k : ℕ) : Prop := k ≤ n.commitIndex ∨ SameTermAt n.fullLog m.fullLog k

/-- Node `m` has committed its first `k` entries, and they are settled by term `b`. -/
structure Backs (L : History String LogEntry) (members : Finset String) (m : RaftNode)
    (k b : ℕ) : Prop where
  le : k ≤ m.commitIndex
  settled : L.Settled members (m.fullLog.take k) b

/-- What a replica has on file: a log in keeping with the ledger, of which it has
committed `c₀` entries at least. -/
def InLedger (L : History String LogEntry) (members : Finset String) (v : String) (c₀ : ℕ) :
    Holding :=
  fun ℓ c b => Standing L members v b ℓ c ∧ c₀ ≤ c

variable {L : History String LogEntry} {members : Finset String} {v : String} {T : Prop}
  {G : Holding} {n n' m : RaftNode}

/-- What holds at every crash point holds of the node in the end. -/
theorem Evolves.holds (h : Evolves T G n n') : G n'.fullLog n'.commitIndex n'.currentTerm := by
  have hlast := h.spans.last.holds
  rwa [← h.coherent.commit, h.coherent.synced.currentTerm] at hlast

/-- The backing node has that many entries. -/
theorem Backs.length (hm : m.Coherent) {k b : ℕ} (h : Backs L members m k b) :
    (m.fullLog.take k).length = k := by
  rw [List.length_take, min_eq_left (h.le.trans hm.commit_le)]

theorem Backs.mono {k b b' : ℕ} (h : Backs L members m k b) (hb : b ≤ b') :
    Backs L members m k b' := ⟨h.le, h.settled.mono hb⟩

/-- Within what `m` backs, an agreement with `m` is one with what it backs. -/
theorem Agrees.take {k k₀ : ℕ} (h : n.Agrees m k) (hk : k ≤ k₀) :
    k ≤ n.commitIndex ∨ SameTermAt n.fullLog (m.fullLog.take k₀) k := by
  refine h.imp_right fun ⟨e, e', hpos, he, he', hterm⟩ => ⟨e, e', hpos, he, ?_, hterm⟩
  rw [List.getElem?_take, if_pos (by omega), he']

/-- A node may commit as far as it agrees with what another one backs. -/
theorem settled_of_agrees (hL : L.Sound members) {b c k k₀ : ℕ} (hm : m.Coherent)
    (hst : Standing L members v b n.fullLog c) (hc : c = n.commitIndex)
    (hback : Backs L members m k₀ b) (hk : k ≤ k₀) (hagree : n.Agrees m k) :
    n.fullLog.take k = (m.fullLog.take k₀).take k ∧ L.Settled members (n.fullLog.take k) b := by
  have heq := hst.take_eq hL (Or.inr hback.settled) (hk.trans_eq (hback.length hm).symm)
    (hc ▸ hagree.take hk)
  exact ⟨heq, heq ▸ hback.settled.shorten (List.take_prefix _ _)⟩

/-! ## Terms -/

/-- Hearing of a later term changes nothing in the ledger. -/
theorem InLedger.bump {c₀ b b' c : ℕ} {ℓ : List LogEntry} (h : InLedger L members v c₀ ℓ c b)
    (hb : b ≤ b') : InLedger L members v c₀ ℓ c b' := ⟨h.1.bump hb, h.2⟩

/-! ## Heartbeats -/

/-- A heartbeat commits nothing new, or what the sender `m` holds as well. -/
def HeartbeatAgrees (n m : RaftNode) (args : HeartbeatArgs) : Prop :=
  args.term < n.currentTerm ∨ n.Agrees m (min args.leaderCommit n.log.getLastIndex)

/-- A heartbeat that agrees with the log commits what the leader has settled. -/
theorem ledger_handleHeartbeat (hL : L.Sound members) (hn : n.Coherent) (hm : m.Coherent)
    (hst : Standing L members v n.currentTerm n.fullLog n.commitIndex) {args : HeartbeatArgs}
    (hback : Backs L members m args.leaderCommit args.term) (hok : HeartbeatAgrees n m args) :
    Evolves T (InLedger L members v n.commitIndex) n (n.handleHeartbeat args).1 ∧
      (n.handleHeartbeat args).1.fullLog = n.fullLog := by
  refine evolves_handleHeartbeat hn ⟨hst, le_rfl⟩ (fun hle => ⟨hst.bump hle, le_rfl⟩) ?_
  intro hle hlt
  have hagree := hok.resolve_left (Nat.not_lt.mpr hle)
  rw [hn.getLastIndex] at hagree
  have hset := (settled_of_agrees hL hm (hst.bump hle) rfl hback (min_le_left _ _) hagree).2
  exact ⟨(hst.bump hle).commit (min_le_right _ _) hset, le_min hlt.le hst.commit_le⟩

/-! ## AppendEntries -/

/-- A slice of the leader's log `P`.  Past the end of the log, the term in front of
the slice is given as `0`, and there are no entries. -/
structure Slice (P : List LogEntry) (args : AppendEntriesArgs) : Prop where
  consecutive : Consecutive args.prevLogIndex args.entries
  entries : ∀ k e, args.entries[k]? = some e → P[args.prevLogIndex + k]? = some e
  prev : 0 < args.prevLogIndex → args.prevLogTerm = 0 ∨
    ∃ e, P[args.prevLogIndex - 1]? = some e ∧ e.term = args.prevLogTerm

/-- A slice of a log is one of the longer log. -/
theorem Slice.grow {P P' : List LogEntry} {args : AppendEntriesArgs} (h : Slice P args)
    (hp : P <+: P') : Slice P' args := by
  have hget : ∀ k e, P[k]? = some e → P'[k]? = some e := fun k e hk => by
    obtain ⟨hlt, rfl⟩ := List.getElem?_eq_some_iff.mp hk
    exact List.prefix_iff_getElem?.mp hp k hlt
  refine ⟨h.consecutive, fun k e hk => hget _ e (h.entries k e hk), fun hpos => ?_⟩
  exact (h.prev hpos).imp_right fun ⟨e, he, hterm⟩ => ⟨e, hget _ e he, hterm⟩

/-- The message commits no further than it reaches, or leaves nothing behind it, or
the sender `m` holds the last entry that is committed as well. -/
def AppendAgrees (n m : RaftNode) (args : AppendEntriesArgs) : Prop :=
  args.term < n.currentTerm ∨
  args.leaderCommit ≤ args.prevLogIndex + args.entries.length ∨
  n.log.getLastIndex ≤ args.prevLogIndex + args.entries.length ∨
  (∃ e ∈ args.entries, n.log.Clashes e) ∨
  n.Agrees m (min args.leaderCommit n.log.getLastIndex)

/-- Copying entry by entry what is vouched for. -/
theorem splices_grafting (hL : L.Sound members) {b c i : ℕ} {P ℓ₀ : List LogEntry}
    (hP : L.Vouched members P b) {es : List LogEntry}
    (hes : ∀ k e, es[k]? = some e → P[i + k]? = some e) :
    Splices c (Grafting L members v b c P ℓ₀) i es := by
  intro k e hk
  have he := hes k e hk
  have hlt : i + k < P.length := (List.getElem?_eq_some_iff.mp he).1
  constructor
  · intro ℓ hJ hcommitted
    have hlen := hJ.standing.commit_le
    exact hJ.extend (by omega) (hJ.standing.take_committed hL hP (by omega) (by omega))
  · intro ℓ e' hJ he' hterm
    refine hJ.extend (List.getElem?_eq_some_iff.mp he').1 ?_
    exact hJ.standing.chained.matching (hP.chained hL) he' he hterm
  · exact fun ℓ e' hJ he' hne _ => hJ.cut hL hP he he' hne
  · exact fun ℓ hJ hlen => hJ.add hL hP he hlen

/-- Where a leader's log starts to be copied, it agrees with the node's own. -/
theorem Slice.start (hL : L.Sound members) (hzero : ¬ L.Elected 0) {args : AppendEntriesArgs}
    (hslice : Slice (L.log args.term) args) (hel : L.Elected args.term) {c : ℕ}
    {ℓ : List LogEntry} (hst : Standing L members v args.term ℓ c)
    (hprev : args.prevLogIndex ≤ c ∨ 0 < args.prevLogIndex ∧
      ∃ e, ℓ[args.prevLogIndex - 1]? = some e ∧ e.term = args.prevLogTerm) :
    ℓ.take args.prevLogIndex = (L.log args.term).take args.prevLogIndex := by
  have hP : L.Vouched members (L.log args.term) args.term := Or.inl ⟨hel, List.prefix_rfl⟩
  rcases hprev with hle | ⟨hpos, e, he, hterm⟩
  · have hlong := (hst.committed_prefix_log hL le_rfl hel).length_le
    have hc := hst.commit_le
    rw [List.length_take] at hlong
    exact hst.take_committed hL hP hle (by omega)
  · rcases hslice.prev hpos with hnone | ⟨e', he', hterm'⟩
    · exact absurd ((hterm.trans hnone) ▸ (hst.chained _ e he).1) hzero
    · have hsame : SameTermAt ℓ (L.log args.term) args.prevLogIndex :=
        ⟨e, e', hpos, he, he', hterm.trans hterm'.symm⟩
      exact hsame.take_eq hst.chained (hL.chained _)

/-- What a node commits on behalf of an `appendEntries` that it has taken in. -/
theorem settled_of_append (hL : L.Sound members) (hn : n.Coherent) (hm : m.Coherent)
    {args : AppendEntriesArgs} (hslice : Slice (L.log args.term) args)
    (hel : L.Elected args.term) (hle : n.currentTerm ≤ args.term)
    (hst : Standing L members v args.term n.fullLog n.commitIndex)
    (hback : Backs L members m args.leaderCommit args.term) (hok : AppendAgrees n m args)
    {ℓ : List LogEntry} (hJ : Grafting L members v args.term n.commitIndex (L.log args.term)
      n.fullLog (args.prevLogIndex + args.entries.length) ℓ)
    (hlen : args.prevLogIndex + args.entries.length ≤ ℓ.length) :
    L.Settled members (ℓ.take (min args.leaderCommit ℓ.length)) args.term := by
  have hS : m.fullLog.take args.leaderCommit <+: L.log args.term :=
    hback.settled.prefix_log hL le_rfl hel
  -- whatever is copied from the leader is what the leader has committed
  have hverified : min args.leaderCommit ℓ.length ≤ args.prevLogIndex + args.entries.length →
      L.Settled members (ℓ.take (min args.leaderCommit ℓ.length)) args.term := by
    intro hk
    have hcopy := congrArg (List.take (min args.leaderCommit ℓ.length)) hJ.copied
    rw [List.take_take, List.take_take, min_eq_left hk] at hcopy
    rw [hcopy]
    refine hback.settled.shorten ?_
    have hpart : (L.log args.term).take args.leaderCommit = m.fullLog.take args.leaderCommit := by
      rw [List.prefix_iff_eq_take.mp hS, hback.length hm]
    rw [← hpart]
    exact List.take_prefix_take_left (min_le_left _ _)
  rcases hJ.ends with rfl | hend
  swap
  · exact hverified (hend ▸ min_le_right _ _)
  rcases hok with hold | hreach | hlast | ⟨e, he, hclash⟩ | hagree
  · omega
  · exact hverified ((min_le_left _ _).trans hreach)
  · exact hverified ((min_le_right _ _).trans (hn.getLastIndex ▸ hlast))
  · -- nothing was cut, so nothing can have clashed
    obtain ⟨k, hk⟩ := List.mem_iff_getElem?.mp he
    have hindex := hslice.consecutive k e hk
    have hlt : k < args.entries.length := (List.getElem?_eq_some_iff.mp hk).1
    obtain ⟨e', he', hne⟩ := hclash
    rw [hn.getEntry (RaftLog.bounds_of_getEntry he').1, hindex, Nat.add_sub_cancel] at he'
    have hcopy := congrArg (fun es => es[args.prevLogIndex + k]?) hJ.copied
    simp only [List.getElem?_take] at hcopy
    rw [if_pos (by omega), if_pos (by omega), he', hslice.entries k e hk] at hcopy
    exact absurd (congrArg LogEntry.term (Option.some.inj hcopy)) hne
  · rw [hn.getLastIndex] at hagree
    exact (settled_of_agrees hL hm hst rfl hback (min_le_left _ _) hagree).2

/-- A slice of the leader's log is spliced in, and what the leader settled committed. -/
theorem ledger_handleAppendEntries (hL : L.Sound members) (hzero : ¬ L.Elected 0)
    (hn : n.Coherent) (hm : m.Coherent)
    (hst : Standing L members v n.currentTerm n.fullLog n.commitIndex) {args : AppendEntriesArgs}
    (hslice : Slice (L.log args.term) args) (hel : L.Elected args.term)
    (hback : Backs L members m args.leaderCommit args.term) (hok : AppendAgrees n m args) :
    Evolves T (InLedger L members v n.commitIndex) n (n.handleAppendEntries args).1 ∧
      ((n.handleAppendEntries args).2.success = true → n.currentTerm ≤ args.term ∧
        args.prevLogIndex + args.entries.length ≤ (L.log args.term).length ∧
        (L.log args.term).take (args.prevLogIndex + args.entries.length) <+:
          (n.handleAppendEntries args).1.fullLog) := by
  rcases Nat.lt_or_ge args.term n.currentTerm with hold | hle
  · have hrefuse : n.handleAppendEntries args = (n, n.appendEntriesResult false) := if_pos hold
    rw [hrefuse]
    exact ⟨.refl hn ⟨hst, le_rfl⟩, fun hf => by cases hf⟩
  have hP : L.Vouched members (L.log args.term) args.term := Or.inl ⟨hel, List.prefix_rfl⟩
  obtain ⟨hev, hdone⟩ := evolves_handleAppendEntries (T := T)
    (G := InLedger L members v n.commitIndex)
    (J := Grafting L members v args.term n.commitIndex (L.log args.term) n.fullLog)
    hn hslice.consecutive ⟨hst, le_rfl⟩ (fun _ => ⟨hst.bump hle, le_rfl⟩)
    (fun _ hprev => .start (hst.bump hle) (hslice.start hL hzero hel (hst.bump hle) hprev))
    (fun _ => splices_grafting hL hP hslice.entries)
    (fun _ _ hJ _ => ⟨hJ.standing, le_rfl⟩)
    (fun ℓ hJ hlen hlt => by
      have hset := settled_of_append hL hn hm hslice hel hle (hst.bump hle) hback hok hJ hlen
      have hc := hJ.standing.commit_le
      exact ⟨hJ.standing.commit (min_le_right _ _) hset, le_min hlt.le hc⟩)
  refine ⟨hev, fun hsuccess => ?_⟩
  obtain ⟨-, hJ, hlen⟩ := hdone hsuccess
  have hcopied := hJ.copied
  refine ⟨hle, ?_, hcopied ▸ List.take_prefix _ _⟩
  have := congrArg List.length hcopied
  rw [List.length_take, List.length_take] at this
  omega

/-! ## Snapshots of other replicas -/

/-- A crash in the middle of installing a snapshot loses the log, unless there is none. -/
theorem torn_or_empty (hn : n.Coherent) {c : ℕ} (hahead : n.commitIndex < c) :
    n.log.entries ≠ [] ∨ n.commitIndex = n.log.lastIncludedIndex ∧ n.log.getLastIndex ≤ c ∧
      n.fullLog.take n.commitIndex = n.fullLog := by
  by_cases hnil : n.log.entries = []
  · have hlast : n.log.getLastIndex = n.log.lastIncludedIndex := by
      unfold RaftLog.getLastIndex
      rw [hnil]
      rfl
    have hfull := hn.getLastIndex
    have hbound := hn.boundary_le
    have hcommit := hn.commit_le
    exact Or.inr ⟨by omega, by omega, List.take_of_length_le (by omega)⟩
  · exact Or.inl hnil

/-- What a node makes of a snapshot that is settled and covers its log or agrees with it. -/
theorem standing_install (hL : L.Sound members) {b c : ℕ} {ℓ : List LogEntry}
    (hst : Standing L members v b ℓ c) {s : Snapshot} (hwf : s.WellFormed)
    (hset : L.Settled members s.entries b)
    (hcov : ℓ.length ≤ s.lastIncludedIndex ∨ ℓ.take s.lastIncludedIndex = s.entries) :
    Standing L members v b (s.entries ++ ℓ.drop s.lastIncludedIndex) s.lastIncludedIndex ∧
      L.Inherits ℓ (s.entries ++ ℓ.drop s.lastIncludedIndex) b ∧
      (s.entries <+: ℓ → s.entries ++ ℓ.drop s.lastIncludedIndex = ℓ) := by
  rw [← hwf.boundary] at hcov ⊢
  obtain ⟨hst', hin, hsame⟩ := hst.install hL (Or.inr hset) hcov
  refine ⟨hst'.commit ?_ ?_, hin, hsame⟩
  · rw [List.length_append]
    exact Nat.le_add_right _ _
  · rw [List.take_left]
    exact hset

/-- The snapshot covers the log, or the log agrees with it at its boundary. -/
def InstallAgrees (n : RaftNode) (args : InstallSnapshotArgs) : Prop :=
  args.term < n.currentTerm ∨ args.snapshot.lastIncludedIndex ≤ n.commitIndex ∨
  n.log.getLastIndex ≤ args.snapshot.lastIncludedIndex ∨
  n.log.getTermAt args.snapshot.lastIncludedIndex = args.snapshot.lastIncludedTerm

/-- An entry at the boundary of a snapshot, with the term of that snapshot. -/
theorem sameTermAt_boundary (hn : n.Coherent) {s : Snapshot} (hwf : s.WellFormed)
    (hahead : n.commitIndex < s.lastIncludedIndex) (hlast : s.lastIncludedIndex ≤ n.fullLog.length)
    (hterm : n.log.getTermAt s.lastIncludedIndex = s.lastIncludedTerm) :
    SameTermAt n.fullLog s.entries s.lastIncludedIndex := by
  have hbound := hn.boundary_le
  rw [hn.getTermAt (by omega) hlast, hwf.term] at hterm
  have hlen : (n.fullLog.take s.lastIncludedIndex).length = s.lastIncludedIndex := by
    rw [List.length_take, min_eq_left hlast]
  obtain ⟨e, he, heterm⟩ := Ledger.exists_last (ℓ := n.fullLog.take s.lastIncludedIndex) (by omega)
  obtain ⟨e', he', heterm'⟩ := Ledger.exists_last (ℓ := s.entries) (by rw [hwf.boundary]; omega)
  rw [hlen, List.getElem?_take, if_pos (by omega)] at he
  rw [hwf.boundary] at he'
  exact ⟨e, e', by omega, he, he', heterm.trans (hterm.trans heterm'.symm)⟩

/-- A settled snapshot takes the place of a log that agrees. -/
theorem ledger_handleInstallSnapshot (hL : L.Sound members) (hn : n.Coherent)
    (hst : Standing L members v n.currentTerm n.fullLog n.commitIndex)
    {args : InstallSnapshotArgs} (hwf : args.snapshot.WellFormed) (hel : L.Elected args.term)
    (hset : L.Settled members args.snapshot.entries args.term) (hok : InstallAgrees n args) :
    Evolves (n.log.entries ≠ []) (InLedger L members v n.commitIndex) n
        (n.handleInstallSnapshot args).1 ∧
      (n.currentTerm ≤ args.term →
        (L.log args.term).take args.snapshot.lastIncludedIndex <+:
          (n.handleInstallSnapshot args).1.fullLog ∧
        args.snapshot.lastIncludedIndex ≤ (L.log args.term).length) := by
  have hinstall : n.currentTerm ≤ args.term → n.commitIndex < args.snapshot.lastIncludedIndex →
      Installable (n.log.entries ≠ []) (InLedger L members v n.commitIndex) n args.term
        args.snapshot := by
    intro hle hahead
    have hcov : n.fullLog.length ≤ args.snapshot.lastIncludedIndex ∨
        n.fullLog.take args.snapshot.lastIncludedIndex = args.snapshot.entries := by
      rcases Nat.le_total n.fullLog.length args.snapshot.lastIncludedIndex with hle' | hge
      · exact Or.inl hle'
      rcases hok with hold | hbehind | hlast | hterm
      · omega
      · omega
      · exact Or.inl (hn.getLastIndex ▸ hlast)
      · have hsame := sameTermAt_boundary hn hwf hahead hge hterm
        refine Or.inr ((hsame.take_eq hst.chained ?_).trans ?_)
        · exact History.Vouched.chained hL (Or.inr hset)
        · rw [← hwf.boundary, List.take_length]
    obtain ⟨hst', -, -⟩ := standing_install hL (hst.bump hle) hwf hset hcov
    refine ⟨hwf, ⟨hst', hahead.le⟩, ?_⟩
    refine (torn_or_empty hn hahead).imp_right fun ⟨hc, hlast, hsame⟩ => ⟨hc, hlast, ?_⟩
    rw [hsame]
    exact ⟨hst.bump hle, le_rfl⟩
  obtain ⟨hev, hfull⟩ := evolves_handleInstallSnapshot (T := n.log.entries ≠ [])
    (G := InLedger L members v n.commitIndex) hn ⟨hst, le_rfl⟩
    (fun hle => ⟨hst.bump hle, le_rfl⟩) hinstall
  refine ⟨hev, fun hle => ?_⟩
  have hpre := hset.prefix_log hL le_rfl hel
  have hlong := hpre.length_le
  have hcut := List.prefix_iff_eq_take.mp hpre
  rw [hwf.boundary] at hlong hcut
  refine ⟨?_, hlong⟩
  rw [hfull, ← hcut]
  split
  · exact List.prefix_append _ _
  · next hnot =>
      have hbehind : args.snapshot.lastIncludedIndex ≤ n.commitIndex := by
        by_contra hgt
        exact hnot ⟨hle, Nat.not_le.mp hgt⟩
      have hcopy := (hst.bump hle).take_committed hL (Or.inr hset) hbehind hwf.boundary.ge
      rw [← hwf.boundary, List.take_length] at hcopy
      exact hcopy ▸ List.take_prefix _ _

/-! ## Catch-up -/

/-- What `m` answers to a catch-up from index `fromIndex` on: a snapshot of what it
has committed, or the committed entries from there on. -/
structure Served (L : History String LogEntry) (members : Finset String) (m : RaftNode)
    (fromIndex : ℕ) (result : SyncLogResult) : Prop where
  backs : Backs L members m result.commitIndex result.term
  snapshot : ∀ s, result.snapshot = some s → result.entries = [] ∧ s.WellFormed ∧
    s.entries <+: m.fullLog.take result.commitIndex
  entries : result.snapshot = none →
    result.entries = (m.fullLog.take result.commitIndex).drop (fromIndex - 1)

/-- What is served is the log of a standing node. -/
theorem ledger_handleSyncLog (hn : n.Coherent)
    (hst : Standing L members v n.currentTerm n.fullLog n.commitIndex) {args : SyncLogArgs}
    (hpos : 0 < args.fromIndex) :
    Evolves T (InLedger L members v n.commitIndex) n (n.handleSyncLog args).1 ∧
      (n.handleSyncLog args).1.fullLog = n.fullLog ∧
      Served L members (n.handleSyncLog args).1 args.fromIndex (n.handleSyncLog args).2 := by
  obtain ⟨hev, hfull⟩ := evolves_handleSyncLog (T := T) (G := InLedger L members v n.commitIndex)
    hn args ⟨hst, le_rfl⟩ fun hlt => ⟨hst.bump hlt.le, le_rfl⟩
  refine ⟨hev, hfull, ?_⟩
  have hst' := hev.holds.1
  have hm := hev.coherent
  -- the answer reads the node that has heard of the term
  obtain ⟨m, hnode, hresult⟩ : ∃ m, (n.handleSyncLog args).1 = m ∧
      ((∃ s, (if args.fromIndex ≤ m.log.lastIncludedIndex then m.persistence.loadSnapshot
          else none) = some s ∧
        (n.handleSyncLog args).2 = ⟨m.currentTerm, [], m.commitIndex, some s⟩) ∨
      (if args.fromIndex ≤ m.log.lastIncludedIndex then m.persistence.loadSnapshot
          else none) = none ∧
        (n.handleSyncLog args).2 = ⟨m.currentTerm,
          (m.log.getEntriesFrom args.fromIndex).filter fun e => e.index ≤ m.commitIndex,
          m.commitIndex, none⟩) := by
    unfold handleSyncLog
    dsimp only
    split
    · next s hs => exact ⟨_, rfl, Or.inl ⟨s, hs, rfl⟩⟩
    · next hnone => exact ⟨_, rfl, Or.inr ⟨hnone, rfl⟩⟩
  rw [hnode] at hst' hm ⊢
  rcases hresult with ⟨s, hs, hresult⟩ | ⟨hnone, hresult⟩
  · rw [hresult]
    obtain ⟨-, hfile⟩ := Option.ite_none_right_eq_some.mp hs
    have hwf := hm.kept.snapshot s hfile
    refine ⟨⟨le_rfl, hst'.settled⟩, fun s' hs' => ?_, fun hnone => by cases hnone⟩
    obtain rfl := Option.some.inj hs'
    refine ⟨rfl, hwf, List.prefix_take_iff.mpr ⟨?_, ?_⟩⟩
    · show s.entries <+: m.persistence.fullLog
      unfold Persistence.fullLog Persistence.covered
      rw [hfile]
      exact List.prefix_append _ _
    · rw [hwf.boundary]
      refine le_trans ?_ hm.boundary_le
      rw [hm.log]
      unfold RaftLog.ofPersistence
      rw [hfile]
  · rw [hresult]
    refine ⟨⟨le_rfl, hst'.settled⟩, (fun s hs => by cases hs), fun _ => ?_⟩
    have hbeyond : m.log.lastIncludedIndex < args.fromIndex := by
      by_contra hle
      rw [if_pos (Nat.not_lt.mp hle)] at hnone
      have hzero : m.log.lastIncludedIndex = 0 := by
        rw [hm.log]
        unfold RaftLog.ofPersistence
        rw [hnone]
      omega
    show (m.log.getEntriesFrom args.fromIndex).filter _ = (m.fullLog.take m.commitIndex).drop _
    unfold RaftLog.getEntriesFrom
    rw [if_neg (Nat.not_le.mpr hbeyond), hm.entries, List.drop_drop]
    have hpos' : m.log.lastIncludedIndex + (args.fromIndex - m.log.lastIncludedIndex - 1) =
        args.fromIndex - 1 := by omega
    rw [hpos']
    exact hm.inOrder.filter_take _ _

/-- The reply commits nothing new, or agrees with the node where it comes in: at the
boundary of its snapshot, right before its first entry, or where it commits. -/
def CatchUpAgrees (n m : RaftNode) (fromIndex : ℕ) (result : SyncLogResult) : Prop :=
  match result.snapshot with
  | some s => n.log.getLastIndex ≤ s.lastIncludedIndex ∨
      n.Agrees m (min result.commitIndex n.log.getLastIndex)
  | none =>
      if result.entries = [] then n.Agrees m (min result.commitIndex n.log.getLastIndex)
      else n.Agrees m (fromIndex - 1)

/-- What a replica has on file while it catches up from log `ℓ₀` with the list `P`:
nothing of `ℓ₀` is lost that a later leader may need, and nothing changes if `P`
brings nothing new. -/
def Catching (L : History String LogEntry) (members : Finset String) (v : String) (c₀ : ℕ)
    (P ℓ₀ : List LogEntry) : Holding :=
  fun ℓ c b => InLedger L members v c₀ ℓ c b ∧ L.Inherits ℓ₀ ℓ b ∧ (P <+: ℓ₀ → ℓ = ℓ₀)

section CatchUp

variable {fromIndex : ℕ} {result : SyncLogResult} {b : ℕ}

/-- The entries of a reply are those of the responder, from the index asked for on. -/
theorem Served.filter_entries (hm : m.Coherent) (hs : Served L members m fromIndex result)
    (hnone : result.snapshot = none) :
    (result.entries.filter fun e => e.index ≤ result.commitIndex) = result.entries := by
  refine List.filter_eq_self.mpr fun e he => ?_
  rw [hs.entries hnone] at he
  simpa using hm.inOrder.index_le_of_mem_take (List.mem_of_mem_drop he)

/-- A snapshot in a reply covers the log or agrees with it. -/
theorem Served.covers (hL : L.Sound members) (hm : m.Coherent)
    (hn : n.Coherent) (hst : Standing L members v b n.fullLog n.commitIndex)
    (hback : Backs L members m result.commitIndex b) {s : Snapshot} (hwf : s.WellFormed)
    (hpre : s.entries <+: m.fullLog.take result.commitIndex)
    (hok : n.log.getLastIndex ≤ s.lastIncludedIndex ∨
      n.Agrees m (min result.commitIndex n.log.getLastIndex)) :
    n.fullLog.length ≤ s.lastIncludedIndex ∨
      n.fullLog.take s.lastIncludedIndex = s.entries ∧
        L.Settled members (n.fullLog.take (min result.commitIndex n.fullLog.length)) b := by
  rw [hn.getLastIndex] at hok
  rcases Nat.le_total n.fullLog.length s.lastIncludedIndex with hle | hge
  · exact Or.inl hle
  rcases hok with hle | hagree
  · exact Or.inl hle
  obtain ⟨heq, hset⟩ := settled_of_agrees hL hm hst rfl hback (min_le_left _ _) hagree
  have hlong := hpre.length_le
  have hcut := List.prefix_iff_eq_take.mp hpre
  rw [hback.length hm, hwf.boundary] at hlong
  rw [hwf.boundary] at hcut
  have hfront := congrArg (List.take s.lastIncludedIndex) heq
  rw [List.take_take, List.take_take, min_eq_left (le_min hlong hge), ← hcut] at hfront
  exact Or.inr ⟨hfront, hset⟩

/-- What catching up with a snapshot leads to. -/
theorem catching_snapshot (hL : L.Sound members) (hn : n.Coherent) (hm : m.Coherent)
    (hst : Standing L members v b n.fullLog n.commitIndex)
    (hback : Backs L members m result.commitIndex b) {s : Snapshot} (hwf : s.WellFormed)
    (hpre : s.entries <+: m.fullLog.take result.commitIndex)
    (hok : n.log.getLastIndex ≤ s.lastIncludedIndex ∨
      n.Agrees m (min result.commitIndex n.log.getLastIndex)) :
    let G := Catching L members v n.commitIndex (m.fullLog.take result.commitIndex) n.fullLog
    (n.commitIndex < s.lastIncludedIndex → Installable (n.log.entries ≠ []) G n b s ∧
      (s.lastIncludedIndex < result.commitIndex →
        G (s.entries ++ n.fullLog.drop s.lastIncludedIndex) (min result.commitIndex
          (s.entries ++ n.fullLog.drop s.lastIncludedIndex).length) b)) ∧
    (s.lastIncludedIndex ≤ n.commitIndex → n.commitIndex < result.commitIndex →
      G n.fullLog (min result.commitIndex n.fullLog.length) b) := by
  intro G
  have hset : L.Settled members s.entries b := hback.settled.shorten hpre
  have hcov := Served.covers hL hm hn hst hback hwf hpre hok
  constructor
  · intro hahead
    obtain ⟨hst', hin, hsame⟩ := standing_install hL hst hwf hset (hcov.imp_right And.left)
    have hidle : m.fullLog.take result.commitIndex <+: n.fullLog →
        s.entries ++ n.fullLog.drop s.lastIncludedIndex = n.fullLog := fun hp =>
      hsame (hpre.trans hp)
    refine ⟨⟨hwf, ⟨⟨hst', hahead.le⟩, hin, hidle⟩, ?_⟩, fun hlt => ?_⟩
    · refine (torn_or_empty hn hahead).imp_right fun ⟨hc, hlast, hall⟩ => ⟨hc, hlast, ?_⟩
      rw [hall]
      exact ⟨⟨hst, le_rfl⟩, .refl _ _, fun _ => rfl⟩
    · refine ⟨⟨hst'.commit (min_le_right _ _) ?_, ?_⟩, hin, hidle⟩
      · rcases hcov with hle | ⟨hfront, hset'⟩
        · rw [List.drop_of_length_le hle, List.append_nil, hwf.boundary, min_eq_right hlt.le,
            ← hwf.boundary, List.take_length]
          exact hset
        · have hwhole : s.entries ++ n.fullLog.drop s.lastIncludedIndex = n.fullLog := by
            rw [← hfront, List.take_append_drop]
          rwa [hwhole]
      · rw [List.length_append, hwf.boundary]
        omega
  · intro hbehind hlt
    refine ⟨⟨hst.commit (min_le_right _ _) ?_, le_min hlt.le hn.commit_le⟩, .refl _ _, fun _ => rfl⟩
    rcases hcov with hle | ⟨-, hset'⟩
    · refine hst.settled.shorten (List.take_prefix_take_left ?_)
      omega
    · exact hset'

/-- What catching up with entries leads to. -/
theorem catching_entries (hL : L.Sound members) (hn : n.Coherent) (hm : m.Coherent)
    (hst : Standing L members v b n.fullLog n.commitIndex)
    (hback : Backs L members m result.commitIndex b) {i : ℕ}
    (hentries : result.entries ≠ [] →
      result.entries = (m.fullLog.take result.commitIndex).drop i ∧ n.Agrees m i)
    (hnil : result.entries = [] →
      i = 0 ∧ n.Agrees m (min result.commitIndex n.log.getLastIndex)) :
    let G := Catching L members v n.commitIndex (m.fullLog.take result.commitIndex) n.fullLog
    let J := Grafting L members v b n.commitIndex (m.fullLog.take result.commitIndex) n.fullLog
    Consecutive i result.entries ∧ i ≤ n.fullLog.length ∧ J i n.fullLog ∧
      Splices n.commitIndex J i result.entries ∧
      (∀ j ℓ, J j ℓ → n.commitIndex ≤ ℓ.length → G ℓ n.commitIndex b) ∧
      ∀ ℓ, J (i + result.entries.length) ℓ → n.commitIndex < result.commitIndex →
        n.commitIndex ≤ ℓ.length → G ℓ (min result.commitIndex ℓ.length) b := by
  intro G J
  have hlen := hback.length hm
  have hes : ∀ k e, result.entries[k]? = some e →
      (m.fullLog.take result.commitIndex)[i + k]? = some e := by
    intro k e hk
    have hne : result.entries ≠ [] := List.ne_nil_of_mem (List.mem_of_getElem? hk)
    rwa [(hentries hne).1, List.getElem?_drop] at hk
  have hstart : i ≤ n.fullLog.length ∧
      n.fullLog.take i = (m.fullLog.take result.commitIndex).take i := by
    by_cases hne : result.entries = []
    · obtain ⟨rfl, -⟩ := hnil hne
      exact ⟨Nat.zero_le _, by simp⟩
    · obtain ⟨hdrop, hagree⟩ := hentries hne
      have hi : i < (m.fullLog.take result.commitIndex).length := by
        by_contra hge
        exact hne (hdrop.trans (List.drop_of_length_le (Nat.not_lt.mp hge)))
      refine ⟨?_, ?_⟩
      · exact hagree.elim (fun hle => hle.trans hn.commit_le) SameTermAt.le
      · exact (settled_of_agrees hL hm hst rfl hback (by omega) hagree).1
  refine ⟨fun k e hk => ?_, hstart.1, .start hst hstart.2,
    splices_grafting hL (Or.inr hback.settled) hes,
    fun _ _ hJ _ => ⟨⟨hJ.standing, le_rfl⟩, hJ.inherits, hJ.idle⟩, fun ℓ hJ hlt hle => ?_⟩
  · exact (hm.inOrder.take _) _ e (hes k e hk)
  · refine ⟨⟨hJ.standing.commit (min_le_right _ _) ?_, le_min hlt.le hle⟩, hJ.inherits, hJ.idle⟩
    by_cases hne : result.entries = []
    · obtain ⟨rfl, hagree⟩ := hnil hne
      rw [hn.getLastIndex] at hagree
      rcases hJ.ends with rfl | hend
      · exact (settled_of_agrees hL hm hst rfl hback (min_le_left _ _) hagree).2
      · rw [hne] at hend
        rw [List.length_eq_zero_iff.mp hend]
        exact Or.inl List.take_nil
    · obtain ⟨hdrop, -⟩ := hentries hne
      have hall : i + result.entries.length = result.commitIndex := by
        have hpos := List.length_pos_iff.mpr hne
        have hcount := congrArg List.length hdrop
        rw [List.length_drop, hlen] at hcount
        omega
      have hcopied := hJ.copied
      rw [hall, List.take_take, min_self] at hcopied
      refine hback.settled.shorten ?_
      rw [← hcopied]
      exact List.take_prefix_take_left (min_le_left _ _)

end CatchUp

/-- A catch-up that agrees is spliced in, and what is settled committed. -/
theorem ledger_onSyncLogReply (hL : L.Sound members) (hn : n.Coherent) (hm : m.Coherent)
    (hst : Standing L members v n.currentTerm n.fullLog n.commitIndex) {fromIndex : ℕ}
    {result : SyncLogResult} (hs : Served L members m fromIndex result)
    (hok : CatchUpAgrees n m fromIndex result) :
    Evolves (n.log.entries ≠ []) (Catching L members v n.commitIndex
      (m.fullLog.take result.commitIndex) n.fullLog) n (n.onSyncLogReply result) := by
  have hback := hs.backs.mono (le_max_right n.currentTerm result.term)
  have hst' := hst.bump (le_max_left n.currentTerm result.term)
  have hstart : ∀ {b'}, n.currentTerm ≤ b' → Catching L members v n.commitIndex
      (m.fullLog.take result.commitIndex) n.fullLog n.fullLog n.commitIndex b' := fun hb =>
    ⟨⟨hst.bump hb, le_rfl⟩, .refl _ _, fun _ => rfl⟩
  unfold CatchUpAgrees at hok
  refine evolves_onSyncLogReply (i := if result.entries = [] then 0 else fromIndex - 1) hn rfl
    (hstart le_rfl) (fun hlt => hstart hlt.le) ?_ ?_
    (J := Grafting L members v (max n.currentTerm result.term) n.commitIndex
      (m.fullLog.take result.commitIndex) n.fullLog)
  · intro s hsome
    obtain ⟨hnil, hwf, hpre⟩ := hs.snapshot s hsome
    rw [hsome] at hok
    exact ⟨hnil, catching_snapshot hL hn hm hst' hback hwf hpre hok⟩
  · intro hnone
    rw [hnone] at hok
    rw [hs.filter_entries hm hnone]
    refine catching_entries hL hn hm hst' hback (fun hne => ?_) fun hnil => ?_
    · rw [if_neg hne]
      exact ⟨hs.entries hnone, (if_neg hne).mp hok⟩
    · rw [if_pos hnil]
      exact ⟨rfl, (if_pos hnil).mp hok⟩

/-! ## Leaders -/

/-- A leader commits what a majority has acknowledged, if it ends in its own term. -/
theorem ledger_updateCommitIndex (hn : n.Coherent)
    (hst : Standing L members v n.currentTerm n.fullLog n.commitIndex)
    (hlog : L.log n.currentTerm = n.fullLog)
    (hcount : ∀ index ≤ n.fullLog.length, 0 < index → n.majority ≤ n.replicatedCount index →
      ∃ Q, Quorum.Majority members Q ∧ ∀ w ∈ Q, L.acked w n.currentTerm index) :
    Evolves T (InLedger L members v n.commitIndex) n n.updateCommitIndex ∧
      n.updateCommitIndex.fullLog = n.fullLog := by
  refine evolves_updateCommitIndex hn ⟨hst, le_rfl⟩ ?_
  intro index e hlt he hterm hmaj
  have hlen : index ≤ n.fullLog.length := by
    have := (List.getElem?_eq_some_iff.mp he).1
    omega
  have hcommitted : L.Committed members n.currentTerm index :=
    ⟨⟨index - 1, e, by omega, hlog ▸ he, hterm⟩, hcount index hlen (by omega) hmaj⟩
  refine ⟨hst.commit hlen (Or.inr ⟨n.currentTerm, index, hcommitted, le_rfl, ?_⟩), hlt.le⟩
  rw [hlog]

/-- A leader appends to its own log, in the ledger as on file. -/
theorem ledger_clientAppend (hL : L.Sound members) (hn : n.Coherent)
    (hst : Standing L members v n.currentTerm n.fullLog n.commitIndex)
    (hel : L.Elected n.currentTerm) (hlog : L.log n.currentTerm = n.fullLog) (stroke : Stroke) :
    let L' := L.append n.currentTerm (n.clientEntry stroke)
    Evolves T (InLedger L' members v n.commitIndex) n (n.clientAppend stroke) ∧
      (n.clientAppend stroke).fullLog = n.fullLog ++ [n.clientEntry stroke] ∧
      L'.log n.currentTerm = n.fullLog ++ [n.clientEntry stroke] := by
  intro L'
  have hgrow : L.Grows L' := L.grows_append _ _
  have hL' : L'.Sound members := hL.append hel rfl
  have hst' : Standing L' members v n.currentTerm n.fullLog n.commitIndex :=
    hst.grow hL hgrow (fun _ _ h => h) hst.voter_le
  have hlog' : L'.log n.currentTerm = n.fullLog ++ [n.clientEntry stroke] := by
    rw [← hlog]
    exact Function.update_self _ _ _
  have hnew : Standing L' members v n.currentTerm (n.fullLog ++ [n.clientEntry stroke])
      n.commitIndex := by
    have hadopt := hst'.adopt hL' le_rfl (hgrow.elected hel)
      (m := (n.fullLog ++ [n.clientEntry stroke]).length)
      (fun p hp _ => hp.length_le.trans (by simp)) (Or.inl rfl)
    rwa [hlog', List.take_length] at hadopt
  obtain ⟨hev, hfull⟩ := evolves_clientAppend (T := T) hn stroke
    (G := InLedger L' members v n.commitIndex) ⟨hst', le_rfl⟩ ⟨hnew, le_rfl⟩
  exact ⟨hev, hfull, hlog'⟩

/-! ## Votes -/

/-- A candidate's log is as up to date as the voter's. -/
theorem upToDate_of_isLogUpToDate (hn : n.Coherent) {ℓ : List LogEntry}
    (h : n.isLogUpToDate ℓ.length (lastTerm ℓ) = true) : Ledger.UpToDate ℓ n.fullLog := by
  unfold isLogUpToDate at h
  rw [hn.getLastTerm, hn.getLastIndex] at h
  unfold Ledger.UpToDate
  split at h
  · exact Or.inl (by simpa using h)
  · next heq => exact Or.inr ⟨Decidable.not_not.mp heq, by simpa using h⟩

/-- **A vote** is given only to a log that has whatever the voter acknowledged. -/
theorem ledger_handleRequestVote (hL : L.Sound members) (hn : n.Coherent)
    (hst : Standing L members v n.currentTerm n.fullLog n.commitIndex) {args : RequestVoteArgs}
    {ℓ : List LogEntry} (hℓ : L.Chained ℓ) (hterm : ∀ e ∈ ℓ, e.term ≤ args.term)
    (hindex : args.lastLogIndex = ℓ.length) (hlast : args.lastLogTerm = lastTerm ℓ) :
    Evolves T (InLedger L members v n.commitIndex) n (n.handleRequestVote args).1 ∧
      (n.handleRequestVote args).1.fullLog = n.fullLog ∧
      ((n.handleRequestVote args).2.voteGranted = true → L.Owed v ℓ args.term) := by
  obtain ⟨hev, hfull⟩ := evolves_handleRequestVote (T := T)
    (G := InLedger L members v n.commitIndex)
    hn args ⟨hst, le_rfl⟩ fun hlt => ⟨hst.bump hlt.le, le_rfl⟩
  refine ⟨hev, hfull, fun hgrant => ?_⟩
  -- the vote is decided by the log of the node that has heard of the term
  obtain ⟨m, hle, hcoh, hmfull, hup⟩ : ∃ m : RaftNode, n.currentTerm ≤ args.term ∧ m.Coherent ∧
      m.fullLog = n.fullLog ∧ m.isLogUpToDate args.lastLogIndex args.lastLogTerm = true := by
    have hbump : n.currentTerm < args.term →
        InLedger L members v n.commitIndex n.fullLog n.commitIndex args.term := fun hlt =>
      ⟨hst.bump hlt.le, le_rfl⟩
    obtain ⟨hev', hfull', hterm'⟩ := evolves_ite_becomeFollower (T := T)
      (G := InLedger L members v n.commitIndex) hn ⟨hst, le_rfl⟩ hbump
    unfold handleRequestVote at hgrant
    dsimp only at hgrant
    simp only [Bool.and_eq_true, decide_eq_true_eq] at hgrant
    exact ⟨_, by omega, hev'.coherent, hfull', hgrant.2⟩
  rw [hindex, hlast] at hup
  have hup' := upToDate_of_isLogUpToDate hcoh hup
  rw [hmfull] at hup'
  exact ((hst.bump hle).backed.of_upToDate hL hst.chained hℓ hterm hup').owed

/-! ## Roles -/

/-- The node keeps its role and term, or becomes a follower; what its peers have
acknowledged stays as it is. -/
structure Stays (n n' : RaftNode) : Prop where
  matchIndex : n'.matchIndex = n.matchIndex
  role : n'.state = n.state ∧ n'.currentTerm = n.currentTerm ∨
    n'.state = .follower ∧ n.currentTerm ≤ n'.currentTerm

namespace Stays

theorem of_quiet (h : Quiet n n') : Stays n n' := ⟨h.matchIndex, Or.inl ⟨h.state, h.currentTerm⟩⟩

theorem refl (n : RaftNode) : Stays n n := of_quiet (.refl n)

/-- Terms do not go back. -/
theorem term_le (h : Stays n n') : n.currentTerm ≤ n'.currentTerm := by
  rcases h.role with ⟨-, hterm⟩ | ⟨-, hle⟩
  · exact hterm.ge
  · exact hle

theorem trans {n'' : RaftNode} (h : Stays n n') (h' : Stays n' n'') : Stays n n'' := by
  refine ⟨h'.matchIndex.trans h.matchIndex, ?_⟩
  rcases h'.role with ⟨hstate, hterm⟩ | ⟨hstate, hle⟩
  · rw [hstate, hterm]
    exact h.role
  · exact Or.inr ⟨hstate, h.term_le.trans hle⟩

/-- Whoever is not a follower afterwards has kept its role. -/
theorem kept (h : Stays n n') (hstate : n'.state ≠ .follower) :
    n'.state = n.state ∧ n'.currentTerm = n.currentTerm :=
  h.role.resolve_right fun hr => hstate hr.1

end Stays

/-- A node that steps down leads no more. -/
theorem stays_becomeFollower (n : RaftNode) {term : ℕ} (leaderId leaderAddr : Option String)
    (hle : n.currentTerm ≤ term) : Stays n (n.becomeFollower term leaderId leaderAddr) := by
  unfold becomeFollower
  dsimp only
  split <;> exact ⟨rfl, Or.inr ⟨rfl, hle⟩⟩

theorem stays_ite_becomeFollower (n : RaftNode) (term : ℕ) :
    Stays n (if n.currentTerm < term then n.becomeFollower term none none else n) := by
  split
  · next hlt => exact stays_becomeFollower n none none hlt.le
  · exact .refl n

/-- Neither does one that hears from a leader. -/
theorem stays_hearLeader (n : RaftNode) {term : ℕ} (leaderId : String)
    (leaderAddr : Option String) (hle : n.currentTerm ≤ term) :
    Stays n (n.hearLeader term leaderId leaderAddr) := by
  unfold hearLeader
  split
  · exact stays_becomeFollower n _ _ hle
  · exact ⟨rfl, Or.inl ⟨rfl, rfl⟩⟩

/-- A vote for a later term ends the reign. -/
theorem stays_handleRequestVote (n : RaftNode) (args : RequestVoteArgs) :
    Stays n (n.handleRequestVote args).1 := by
  unfold handleRequestVote
  dsimp only
  split
  · next hlt =>
      have hnew := stays_becomeFollower n none none hlt.le
      have hfollower : (n.becomeFollower args.term none none).state = .follower := by
        unfold becomeFollower
        dsimp only
        split <;> rfl
      split
      · exact ⟨hnew.matchIndex, Or.inr ⟨hfollower, hlt.le⟩⟩
      · exact hnew
  · next hge =>
      split
      · next hcan =>
          simp only [Bool.and_eq_true, decide_eq_true_eq] at hcan
          exact ⟨rfl, Or.inl ⟨rfl, le_antisymm (Nat.not_lt.mp hge) hcan.1.1⟩⟩
      · exact .refl n

/-- Whoever hears a leader follows it. -/
theorem hearLeader_role (n : RaftNode) {term : ℕ} (leaderId : String)
    (leaderAddr : Option String) (hle : n.currentTerm ≤ term) :
    (n.hearLeader term leaderId leaderAddr).state = .follower ∧
      (n.hearLeader term leaderId leaderAddr).currentTerm = term := by
  unfold hearLeader
  split
  · unfold becomeFollower
    dsimp only
    split <;> exact ⟨rfl, rfl⟩
  · next hsame =>
      simp only [not_or, Decidable.not_not] at hsame
      refine ⟨hsame.2, ?_⟩
      show n.currentTerm = term
      omega

/-- A leader's message is refused, or makes its receiver follow that leader. -/
theorem handle_leader (n : RaftNode) {request : Request} {l : ℕ × String}
    (h : request.leader? = some l) :
    l.1 < n.currentTerm ∧ (n.handle request).1 = n ∨
      n.currentTerm ≤ l.1 ∧ (n.handle request).1.state = .follower ∧
        (n.handle request).1.currentTerm = l.1 := by
  -- whatever comes after hearing the leader leaves term and role alone
  have hquiet : ∀ {m m' : RaftNode} {term : ℕ}, m.state = .follower ∧ m.currentTerm = term →
      Quiet m m' → m'.state = .follower ∧ m'.currentTerm = term := fun hm hq =>
    ⟨hq.state.trans hm.1, hq.currentTerm.trans hm.2⟩
  cases request with
  | requestVote args => cases h
  | syncLog args => cases h
  | appendEntries args =>
      obtain rfl := Option.some.inj h
      show args.term < n.currentTerm ∧ (n.handleAppendEntries args).1 = n ∨
        n.currentTerm ≤ args.term ∧ (n.handleAppendEntries args).1.state = .follower ∧
          (n.handleAppendEntries args).1.currentTerm = args.term
      unfold handleAppendEntries
      split
      · next hlt => exact Or.inl ⟨hlt, rfl⟩
      · next hge =>
          have hhear := n.hearLeader_role args.leaderId args.leaderAddr (Nat.not_lt.mp hge)
          refine Or.inr ⟨Nat.not_lt.mp hge, ?_⟩
          dsimp only
          generalize n.hearLeader args.term args.leaderId args.leaderAddr = m at hhear ⊢
          split
          · have hloop := quiet_appendEntriesLoop (n := m) m.log.lastIncludedIndex args.entries
            split
            · next m' heq =>
                rw [heq] at hloop
                exact hquiet hhear (hloop.trans (quiet_followCommit m' _))
            · next m' heq =>
                rw [heq] at hloop
                exact hquiet hhear hloop
          · exact hhear
  | heartbeat args =>
      obtain rfl := Option.some.inj h
      show args.term < n.currentTerm ∧ (n.handleHeartbeat args).1 = n ∨
        n.currentTerm ≤ args.term ∧ (n.handleHeartbeat args).1.state = .follower ∧
          (n.handleHeartbeat args).1.currentTerm = args.term
      unfold handleHeartbeat
      split
      · next hlt => exact Or.inl ⟨hlt, rfl⟩
      · next hge =>
          have hhear := n.hearLeader_role args.leaderId args.leaderAddr (Nat.not_lt.mp hge)
          exact Or.inr ⟨Nat.not_lt.mp hge, hquiet hhear (quiet_followCommit _ _)⟩
  | installSnapshot args =>
      obtain rfl := Option.some.inj h
      show args.term < n.currentTerm ∧ (n.handleInstallSnapshot args).1 = n ∨
        n.currentTerm ≤ args.term ∧ (n.handleInstallSnapshot args).1.state = .follower ∧
          (n.handleInstallSnapshot args).1.currentTerm = args.term
      unfold handleInstallSnapshot
      split
      · next hlt => exact Or.inl ⟨hlt, rfl⟩
      · next hge =>
          have hhear := n.hearLeader_role args.leaderId none (Nat.not_lt.mp hge)
          refine Or.inr ⟨Nat.not_lt.mp hge, ?_⟩
          dsimp only
          split
          · exact hhear
          · exact hquiet hhear (quiet_applySnapshot _ _)

/-- **A request** leaves its receiver in its role, or makes it a follower. -/
theorem stays_handle (n : RaftNode) (request : Request) : Stays n (n.handle request).1 := by
  cases request with
  | requestVote args => exact stays_handleRequestVote n args
  | appendEntries args =>
      show Stays n (n.handleAppendEntries args).1
      unfold handleAppendEntries
      split
      · exact .refl n
      · next hge =>
          have hhear := stays_hearLeader n args.leaderId args.leaderAddr (Nat.not_lt.mp hge)
          dsimp only
          generalize n.hearLeader args.term args.leaderId args.leaderAddr = m at hhear ⊢
          split
          · have hloop := quiet_appendEntriesLoop (n := m) m.log.lastIncludedIndex args.entries
            split
            · next m' heq =>
                rw [heq] at hloop
                exact hhear.trans (.of_quiet (hloop.trans (quiet_followCommit m' _)))
            · next m' heq =>
                rw [heq] at hloop
                exact hhear.trans (.of_quiet hloop)
          · exact hhear
  | heartbeat args =>
      show Stays n (n.handleHeartbeat args).1
      unfold handleHeartbeat
      split
      · exact .refl n
      · next hge =>
          exact (stays_hearLeader n _ _ (Nat.not_lt.mp hge)).trans
            (.of_quiet (quiet_followCommit _ _))
  | syncLog args =>
      show Stays n (n.handleSyncLog args).1
      unfold handleSyncLog
      dsimp only
      split <;> exact stays_ite_becomeFollower n args.term
  | installSnapshot args =>
      show Stays n (n.handleInstallSnapshot args).1
      unfold handleInstallSnapshot
      split
      · exact .refl n
      · next hge =>
          have hhear := stays_hearLeader n args.leaderId none (Nat.not_lt.mp hge)
          dsimp only
          split
          · exact hhear
          · exact hhear.trans (.of_quiet (quiet_applySnapshot _ _))

/-- A catch-up keeps the matches. -/
theorem stays_onSyncLogReply (n : RaftNode) (result : SyncLogResult) :
    Stays n (n.onSyncLogReply result) := by
  unfold onSyncLogReply
  dsimp only
  exact (stays_ite_becomeFollower n result.term).trans (.of_quiet (((quiet_catchUpSnapshot _).trans
    (quiet_catchUpLoop _ _)).trans (quiet_followCommit _ _)))

end RaftNode

end QuorumCanvas
