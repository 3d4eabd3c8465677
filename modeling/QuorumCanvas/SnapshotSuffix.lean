import QuorumCanvas.Indices

/-!
# What stays behind an installed snapshot

`installSnapshot` keeps every entry above the new boundary, whatever stood at the
boundary before.  The entries kept continue the snapshot exactly when the old log did
not reach past it, or held an entry of the snapshot's term there (`suffix_continues_iff`).
-/

namespace QuorumCanvas

namespace RaftLog

variable {log leader : RaftLog} {m t k : ℕ}

/-- The log has a term on record for this index: its boundary or an entry. -/
def Reaches (log : RaftLog) (k : ℕ) : Prop :=
  log.lastIncludedIndex ≤ k ∧ k ≤ log.getLastIndex

/-- **Log matching,** between logs that may be compacted: where both have the same term,
they have the same terms and entries up to there, as far as both still hold them. -/
def Matches (log leader : RaftLog) : Prop :=
  ∀ k, log.Reaches k → leader.Reaches k → log.getTermAt k = leader.getTermAt k →
    ∀ j ≤ k, log.Reaches j → leader.Reaches j →
      log.getTermAt j = leader.getTermAt j ∧
        ∀ e e', log.getEntry j = some e → leader.getEntry j = some e' → e = e'

/-- The terms of the entries never fall along the log. -/
def Ascending (log : RaftLog) : Prop := (log.entries.map LogEntry.term).Pairwise (· ≤ ·)

instance : Decidable log.Ascending := by unfold Ascending; infer_instance

/-- The term on record at an index above the boundary is that of the entry there. -/
theorem getTermAt_eq {e : LogEntry} (h : log.getEntry k = some e) : log.getTermAt k = e.term := by
  have hk := (bounds_of_getEntry h).1
  unfold getTermAt
  rw [if_neg (by omega), h]
  rfl

variable (hlog : log.Contiguous) (hm : log.lastIncludedIndex ≤ m)

include hlog hm

/-- The entries above the boundary are a suffix. -/
theorem entries_installSnapshot :
    (log.installSnapshot m t).entries = log.entries.drop (m - log.lastIncludedIndex) :=
  hlog.filter_eq_drop hm

/-- What is kept above the new boundary is what stood there. -/
theorem getEntry_installSnapshot (hk : m < k) :
    (log.installSnapshot m t).getEntry k = log.getEntry k := by
  have hboundary : (log.installSnapshot m t).lastIncludedIndex = m := rfl
  unfold getEntry
  rw [entries_installSnapshot hlog hm, hboundary, if_neg (by omega), if_neg (by omega),
    List.getElem?_drop]
  congr 1
  omega

/-- The log ends where it did, or at the boundary. -/
theorem getLastIndex_installSnapshot :
    (log.installSnapshot m t).getLastIndex = max m log.getLastIndex := by
  have hboundary : (log.installSnapshot m t).lastIncludedIndex = m := rfl
  unfold getLastIndex
  rw [entries_installSnapshot hlog hm, hboundary, List.length_drop]
  omega

/-- Nothing is kept exactly when the log did not reach past the snapshot. -/
theorem installSnapshot_eq_nil_iff :
    (log.installSnapshot m t).entries = [] ↔ log.getLastIndex ≤ m := by
  rw [entries_installSnapshot hlog hm, List.drop_eq_nil_iff]
  unfold getLastIndex
  omega

/-- **A suffix kept continues the snapshot** exactly when the old log ended there or had
the snapshot's term there. -/
theorem suffix_continues_iff (hlt : log.lastIncludedIndex < m) :
    ((log.installSnapshot m t).entries = [] ∨ ∃ e, log.getEntry m = some e ∧ e.term = t) ↔
      log.getLastIndex ≤ m ∨ log.getTermAt m = t := by
  rw [installSnapshot_eq_nil_iff hlog hm]
  by_cases hend : log.getLastIndex ≤ m
  · simp [hend]
  · obtain ⟨e, he⟩ := exists_getEntry hlt (Nat.le_of_lt (Nat.not_le.mp hend))
    rw [getTermAt_eq he, he]
    simp [hend]

/-- Terms that do not fall along the old log do not fall behind a snapshot it continues. -/
theorem ascending_installSnapshot (hlt : log.lastIncludedIndex < m)
    (hcontinues : log.getLastIndex ≤ m ∨ log.getTermAt m = t) (hasc : log.Ascending) :
    (t :: (log.installSnapshot m t).entries.map LogEntry.term).Pairwise (· ≤ ·) := by
  rw [entries_installSnapshot hlog hm]
  by_cases hend : log.getLastIndex ≤ m
  · have hnone : log.entries.drop (m - log.lastIncludedIndex) = [] := by
      rw [List.drop_eq_nil_iff]
      unfold getLastIndex at hend
      omega
    rw [hnone]
    exact List.pairwise_singleton _ _
  · obtain ⟨e, he⟩ := exists_getEntry hlt (Nat.le_of_lt (Nat.not_le.mp hend))
    have hterm : e.term = t := (getTermAt_eq he).symm.trans (hcontinues.resolve_left hend)
    -- the entry at the boundary stands right before those kept
    have hdrop : log.entries.drop (m - log.lastIncludedIndex - 1) =
        e :: log.entries.drop (m - log.lastIncludedIndex) := by
      unfold getEntry at he
      rw [if_neg (by omega)] at he
      obtain ⟨hbound, heq⟩ := List.getElem?_eq_some_iff.mp he
      rw [List.drop_eq_getElem_cons hbound, heq,
        show m - log.lastIncludedIndex - 1 + 1 = m - log.lastIncludedIndex by omega]
    have hsub := hasc.sublist ((List.drop_sublist (m - log.lastIncludedIndex - 1)
      log.entries).map LogEntry.term)
    rw [hdrop, List.map_cons, hterm] at hsub
    exact hsub

/-- A snapshot of the leader keeps the log matching with the leader's. -/
theorem matches_installSnapshot (hmatch : log.Matches leader)
    (hterm : leader.getTermAt m = t) : (log.installSnapshot m t).Matches leader := by
  have hat : (log.installSnapshot m t).getTermAt m = t := if_pos rfl
  have habove : ∀ {j}, m < j → (log.installSnapshot m t).getTermAt j = log.getTermAt j := by
    intro j hj
    have hboundary : (log.installSnapshot m t).lastIncludedIndex = m := rfl
    unfold getTermAt
    rw [getEntry_installSnapshot hlog hm hj, hboundary, if_neg (by omega), if_neg (by omega)]
  have hreaches : ∀ {j}, m < j → (log.installSnapshot m t).Reaches j → log.Reaches j := by
    intro j hj hr
    have hlast := hr.2
    rw [getLastIndex_installSnapshot hlog hm] at hlast
    exact ⟨by omega, by omega⟩
  intro k hk hk' hsame j hjk hj hj'
  have hmj : m ≤ j := hj.1
  rcases Nat.eq_or_lt_of_le hmj with rfl | hlt
  · refine ⟨hat.trans hterm.symm, fun e e' he _ => ?_⟩
    have hbound : m < m := (bounds_of_getEntry he).1
    omega
  · have hk_lt : m < k := hlt.trans_le hjk
    rw [habove hk_lt] at hsame
    rw [habove hlt, getEntry_installSnapshot hlog hm hlt]
    exact hmatch k (hreaches hk_lt hk) hk' hsame j hjk (hreaches hlt hj) hj'

end RaftLog

namespace RaftNode

variable {n : RaftNode} {args : InstallSnapshotArgs}

/-- The log that an applied `InstallSnapshot` leaves. -/
theorem log_handleInstallSnapshot (hterm : n.currentTerm ≤ args.term)
    (happlied : n.commitIndex < args.snapshot.lastIncludedIndex) :
    (n.handleInstallSnapshot args).1.log =
      n.log.installSnapshot args.snapshot.lastIncludedIndex args.snapshot.lastIncludedTerm := by
  have hcommit := commitIndex_of_marks (marks_hearLeader n args.term args.leaderId none)
  unfold handleInstallSnapshot
  rw [if_neg (by omega)]
  dsimp only
  rw [if_neg (by omega), ← hearLeader_log n args.term args.leaderId none]
  rfl

/-- **An installed snapshot and the suffix it keeps.**  For every node with a log without
gaps and its boundary within what it has committed, and every message that is applied: the
suffix kept is empty or continues the snapshot exactly when the old log ended at the
snapshot or had its term there.  Terms then do not fall, and in any case the log goes on
matching that of a leader whose term the snapshot carries. -/
theorem install_keeps_continuation (hlog : n.log.Contiguous)
    (hbound : n.log.lastIncludedIndex ≤ n.commitIndex) (hterm : n.currentTerm ≤ args.term)
    (happlied : n.commitIndex < args.snapshot.lastIncludedIndex) :
    (((n.handleInstallSnapshot args).1.log.entries = [] ∨
        ∃ e, n.log.getEntry args.snapshot.lastIncludedIndex = some e ∧
          e.term = args.snapshot.lastIncludedTerm) ↔
      n.log.getLastIndex ≤ args.snapshot.lastIncludedIndex ∨
        n.log.getTermAt args.snapshot.lastIncludedIndex = args.snapshot.lastIncludedTerm) ∧
    (n.log.getLastIndex ≤ args.snapshot.lastIncludedIndex ∨
        n.log.getTermAt args.snapshot.lastIncludedIndex = args.snapshot.lastIncludedTerm →
      n.log.Ascending →
      (args.snapshot.lastIncludedTerm ::
        (n.handleInstallSnapshot args).1.log.entries.map LogEntry.term).Pairwise (· ≤ ·)) ∧
    ∀ leader : RaftLog, n.log.Matches leader →
      leader.getTermAt args.snapshot.lastIncludedIndex = args.snapshot.lastIncludedTerm →
      (n.handleInstallSnapshot args).1.log.Matches leader := by
  have hlt : n.log.lastIncludedIndex < args.snapshot.lastIncludedIndex := by omega
  rw [log_handleInstallSnapshot hterm happlied]
  exact ⟨RaftLog.suffix_continues_iff hlog hlt.le hlt,
    fun hcontinues hasc => RaftLog.ascending_installSnapshot hlog hlt.le hlt hcontinues hasc,
    fun leader hmatch hsame => RaftLog.matches_installSnapshot hlog hlt.le hmatch hsame⟩

/-- A follower with two entries of term 1, neither of them committed. -/
def overtaken : RaftNode :=
  ((construct ⟨"a", ["b", "c"], "a", 100, 64⟩ (.fresh .file)).handleAppendEntries
    ⟨1, "b", some "b", 0, 0, [⟨1, 1, .dot "x" "board"⟩, ⟨2, 1, .dot "y" "board"⟩], 0⟩).1

/-- The snapshot of the leader of term 2, whose own first entry is of that term. -/
def superseding (lastIncludedTerm : ℕ) : InstallSnapshotArgs :=
  ⟨2, "c", 1, lastIncludedTerm, [("board", [.dot "z" "board"])],
    [(1, ⟨1, lastIncludedTerm, .dot "z" "board"⟩)]⟩

/-- The log that a snapshot overtakes is contiguous. -/
theorem contiguous_overtaken : overtaken.log.Contiguous := by
  intro k e hk
  have hentries : overtaken.log.entries =
      [⟨1, 1, .dot "x" "board"⟩, ⟨2, 1, .dot "y" "board"⟩] := by decide
  have hboundary : overtaken.log.lastIncludedIndex = 0 := by decide
  rw [hentries] at hk
  rw [hboundary]
  match k, hk with
  | 0, hk => obtain rfl := Option.some.inj hk; rfl
  | 1, hk => obtain rfl := Option.some.inj hk; rfl
  | k + 2, hk => simp at hk

/-- A snapshot of term 1 is continued by what the follower keeps. -/
theorem install_keeps_continuation_overtaken :
    (1 :: (overtaken.handleInstallSnapshot (superseding 1)).1.log.entries.map
      LogEntry.term).Pairwise (· ≤ ·) := by
  have hterm : overtaken.currentTerm ≤ (superseding 1).term := by decide
  exact (install_keeps_continuation contiguous_overtaken (by decide) hterm (by decide)).2.1
    (Or.inr (by decide)) (by decide)

/-- **A stale suffix.**  Behind the snapshot of term 2 the follower keeps an entry of
term 1, although its entry at the boundary was of term 1 too. -/
theorem install_keeps_stale_suffix :
    (overtaken.handleInstallSnapshot (superseding 2)).1.log.entries.map LogEntry.term = [1] ∧
      (overtaken.handleInstallSnapshot (superseding 2)).1.log.lastIncludedTerm = 2 ∧
      overtaken.commitIndex < (superseding 2).snapshot.lastIncludedIndex ∧
      overtaken.log.Ascending ∧
      ¬ ((overtaken.handleInstallSnapshot (superseding 2)).1.log.entries = [] ∨
        ∃ e, overtaken.log.getEntry 1 = some e ∧ e.term = 2) := by
  refine ⟨by decide, by decide, by decide, by decide, ?_⟩
  intro h
  rcases h with h | ⟨e, he, hterm⟩
  · revert h
    decide
  · have hone : overtaken.log.getEntry 1 = some ⟨1, 1, .dot "x" "board"⟩ := by decide
    obtain rfl := Option.some.inj (hone.symm.trans he)
    cases hterm

end RaftNode

end QuorumCanvas
