import Mathlib.Order.Bounds.Basic
import QuorumCanvas.AckedWrites
import QuorumCanvas.CatchUps

/-!
# The commit scan

`updateCommitIndex` looks through the log from its end down to the commit index and stops at
the first entry of the node's own term that a majority is known to hold.  What it commits is
the greatest index that may be committed at all, whatever the terms and the match indices, and
committing it applies what lies between (`updateCommitIndex_exact`).  Entries of older terms
are only ever committed below one of the node's own.
-/

namespace QuorumCanvas

/-- In a contiguous log the entry at an index is the one that carries it. -/
theorem RaftLog.Contiguous.getEntry_iff {log : RaftLog} (h : log.Contiguous) {index : ℕ}
    {e : LogEntry} : log.getEntry index = some e ↔ e ∈ log.entries ∧ e.index = index := by
  unfold RaftLog.getEntry
  constructor
  · intro he
    split at he
    · cases he
    · have hindex := h _ e he
      exact ⟨List.mem_of_getElem? he, by omega⟩
  · intro he
    obtain ⟨hmem, rfl⟩ := he
    obtain ⟨k, hk⟩ := List.mem_iff_getElem?.mp hmem
    have hindex := h k e hk
    rw [if_neg (by omega), show e.index - log.lastIncludedIndex - 1 = k by omega, hk]

namespace RaftNode

variable {n : RaftNode} {index : ℕ}

/-- A leader may commit this index: it is not committed yet, the entry there is of the
current term, and those known to hold it are a majority. -/
structure Committable (n : RaftNode) (index : ℕ) : Prop where
  uncommitted : n.commitIndex < index
  le_lastIndex : index ≤ n.log.getLastIndex
  own_term : ∃ e ∈ n.log.entries, e.index = index ∧ e.term = n.currentTerm
  quorum : (n.peers.length + 1) / 2 + 1 ≤
    1 + (n.peers.filter fun peer => index ≤ (n.matchIndex peer).getD 0).length

/-- The entries to be applied next, up to an index. -/
def pendingUpto (n : RaftNode) (index : ℕ) : List LogEntry :=
  (n.log.getEntriesFrom (n.lastApplied + 1)).take (index - n.lastApplied)

/-- From `n` to `n'` everything up to an index is committed and applied. -/
structure CommitsUpto (n n' : RaftNode) (index : ℕ) : Prop where
  commitIndex : n'.commitIndex = index
  lastApplied : n'.lastApplied = index
  history : n'.history = n.history ++ (n.pendingUpto index).map fun e => (e.index, e)
  boards : n'.boards = n.boards.replay ((n.pendingUpto index).map LogEntry.stroke)

/-! ## What the scan finds -/

/-- The leader counts itself, then its peers. -/
theorem replicatedCount_eq (n : RaftNode) (index : ℕ) : n.replicatedCount index =
    1 + (n.peers.filter fun peer => index ≤ (n.matchIndex peer).getD 0).length :=
  congrArg (1 + ·) List.countP_eq_length_filter

/-- What the scan finds can be committed. -/
theorem committable_of_commitCandidate (hlog : n.log.Contiguous)
    (h : n.commitCandidate n.log.getLastIndex = some index) : n.Committable index := by
  obtain ⟨hlo, hhi, ⟨e, he, hterm⟩, hcount⟩ := commitCandidate_some h
  obtain ⟨hmem, hindex⟩ := hlog.getEntry_iff.mp he
  exact ⟨hlo, hhi, ⟨e, hmem, hindex, hterm⟩, n.replicatedCount_eq index ▸ hcount⟩

/-- The scan passes over no index that may be committed. -/
theorem Committable.le_commitCandidate (hlog : n.log.Contiguous) (h : n.Committable index) :
    ∃ found, n.commitCandidate n.log.getLastIndex = some found ∧ index ≤ found := by
  obtain ⟨e, hmem, hindex, hterm⟩ := h.own_term
  have he : n.log.getEntry index = some e := hlog.getEntry_iff.mpr ⟨hmem, hindex⟩
  apply exists_commitCandidate h.uncommitted h.le_lastIndex he hterm
  rw [replicatedCount_eq]
  exact h.quorum

/-- **The scan finds the greatest index** that may be committed. -/
theorem isGreatest_commitCandidate (hlog : n.log.Contiguous)
    (h : n.commitCandidate n.log.getLastIndex = some index) :
    IsGreatest {i | n.Committable i} index := by
  refine ⟨committable_of_commitCandidate hlog h, fun i hi => ?_⟩
  obtain ⟨found, hfound, hle⟩ := Committable.le_commitCandidate hlog hi
  rw [h] at hfound
  exact Option.some.inj hfound ▸ hle

/-- If nothing can be, nothing changes. -/
theorem updateCommitIndex_of_none (hlog : n.log.Contiguous)
    (h : ∀ i, ¬ n.Committable i) : n.updateCommitIndex = n := by
  unfold updateCommitIndex
  cases hfound : n.commitCandidate n.log.getLastIndex with
  | none => rfl
  | some index => exact (h index (committable_of_commitCandidate hlog hfound)).elim

/-- If something can be, the greatest of it is. -/
theorem updateCommitIndex_of_some (hlog : n.log.Contiguous) (h : ∃ i, n.Committable i) :
    ∃ index, IsGreatest {i | n.Committable i} index ∧
      n.updateCommitIndex = n.advanceCommit index := by
  obtain ⟨i, hi⟩ := h
  obtain ⟨index, hfound, -⟩ := Committable.le_commitCandidate hlog hi
  refine ⟨index, isGreatest_commitCandidate hlog hfound, ?_⟩
  unfold updateCommitIndex
  rw [hfound]

/-! ## What is applied -/

/-- The next entry is applied to history and boards. -/
theorem applyNext_some {e : LogEntry} (h : n.log.getEntry (n.lastApplied + 1) = some e) :
    n.applyNext.history = n.history ++ [(n.lastApplied + 1, e)] ∧
      n.applyNext.boards = n.boards.applyBoardEvent e.stroke := by
  unfold applyNext
  dsimp only
  rw [h]
  exact ⟨rfl, rfl⟩

/-- Beyond the log nothing is applied. -/
theorem applyNext_none (h : n.log.getEntry (n.lastApplied + 1) = none) :
    n.applyNext.history = n.history ∧ n.applyNext.boards = n.boards := by
  unfold applyNext
  dsimp only
  rw [h]
  exact ⟨rfl, rfl⟩

/-- The rounds of `applyCommitted` apply one pending entry after the other. -/
theorem applied_iterate (hlog : n.log.Contiguous)
    (hboundary : n.log.lastIncludedIndex ≤ n.lastApplied) (k : ℕ) :
    (applyNext^[k] n).history = n.history ++
        ((n.log.getEntriesFrom (n.lastApplied + 1)).take k).map (fun e => (e.index, e)) ∧
      (applyNext^[k] n).boards = n.boards.replay
        (((n.log.getEntriesFrom (n.lastApplied + 1)).take k).map LogEntry.stroke) := by
  induction k with
  | zero => simp
  | succ k ih =>
      obtain ⟨hhistory, hboards⟩ := ih
      have happlied : (applyNext^[k] n).lastApplied = n.lastApplied + k :=
        congrArg Marks.lastApplied (marks_iterate n k)
      have hnext : (applyNext^[k] n).log.getEntry ((applyNext^[k] n).lastApplied + 1) =
          (n.log.getEntriesFrom (n.lastApplied + 1))[k]? := by
        rw [log_applyNext_iterate, happlied, RaftLog.getElem?_getEntriesFrom (by omega)]
        congr 1
        omega
      rw [Function.iterate_succ_apply', List.take_add_one]
      cases hentry : (n.log.getEntriesFrom (n.lastApplied + 1))[k]? with
      | none =>
          obtain ⟨hhistory', hboards'⟩ := applyNext_none (hnext.trans hentry)
          rw [hhistory', hboards', Option.toList_none, List.append_nil]
          exact ⟨hhistory, hboards⟩
      | some e =>
          have he := hnext.trans hentry
          obtain ⟨hhistory', hboards'⟩ := applyNext_some he
          rw [log_applyNext_iterate] at he
          have hindex : e.index = (applyNext^[k] n).lastApplied + 1 := (hlog.getEntry_iff.mp he).2
          rw [hhistory', hboards', hhistory, hboards, ← hindex, Option.toList_some,
            List.map_append, List.map_append, Boards.replay_append, List.append_assoc]
          exact ⟨rfl, rfl⟩

/-- A snapshot changes no board. -/
theorem boards_maybeSnapshot (n : RaftNode) : n.maybeSnapshot.boards = n.boards := by
  unfold maybeSnapshot
  split
  · rfl
  · unfold takeSnapshot compactLog
    split <;> rfl

/-- Committing up to an index applies what is pending up to there. -/
theorem commitsUpto_advanceCommit (hlog : n.log.Contiguous)
    (hboundary : n.log.lastIncludedIndex ≤ n.lastApplied) (hle : n.lastApplied ≤ index) :
    n.CommitsUpto (n.advanceCommit index) index := by
  obtain ⟨hlast, hcommit, -⟩ :=
    applied_applyCommitted { n with commitIndex := index }.persistState
  have hlast : (n.advanceCommit index).lastApplied = max n.lastApplied index := hlast
  obtain ⟨hhistory, hboards⟩ := applied_iterate
    (n := { n with commitIndex := index }.persistState) hlog hboundary (index - n.lastApplied)
  refine ⟨hcommit, by omega, ?_, ?_⟩
  · unfold advanceCommit applyCommitted
    rw [history_maybeSnapshot]
    exact hhistory
  · unfold advanceCommit applyCommitted
    rw [boards_maybeSnapshot]
    exact hboards

/-! ## The scan and its effect -/

/-- **The commit scan is exact,** on any contiguous log, whatever the peers and the match
indices.  Everything up to the greatest index that may be committed is committed and applied,
and nothing happens where there is none.  So an entry of another term is committed only below
one of the node's own, and a commit index that moves leaves nothing to apply. -/
theorem updateCommitIndex_exact (n : RaftNode) (hlog : n.log.Contiguous)
    (hboundary : n.log.lastIncludedIndex ≤ n.lastApplied)
    (happlied : n.lastApplied ≤ n.commitIndex) :
    ((∃ i, n.Committable i) → ∃ index, IsGreatest {i | n.Committable i} index ∧
      n.CommitsUpto n.updateCommitIndex index) ∧
    ((∀ i, ¬ n.Committable i) → n.updateCommitIndex = n) ∧
    (∀ e ∈ n.log.entries, n.commitIndex < e.index →
      e.index ≤ n.updateCommitIndex.commitIndex → e.term ≠ n.currentTerm →
      ∃ later ∈ n.log.entries, e.index < later.index ∧
        later.index ≤ n.updateCommitIndex.commitIndex ∧ later.term = n.currentTerm) ∧
    (n.updateCommitIndex.commitIndex ≠ n.commitIndex →
      n.updateCommitIndex.lastApplied = n.updateCommitIndex.commitIndex) := by
  have hadvance : (∃ i, n.Committable i) → ∃ index, IsGreatest {i | n.Committable i} index ∧
      n.CommitsUpto n.updateCommitIndex index := by
    intro hsome
    obtain ⟨index, hgreatest, hnode⟩ := updateCommitIndex_of_some hlog hsome
    have hlo : n.commitIndex < index := hgreatest.1.uncommitted
    rw [hnode]
    exact ⟨index, hgreatest, commitsUpto_advanceCommit hlog hboundary (by omega)⟩
  have hnone : (∀ i, ¬ n.Committable i) → n.updateCommitIndex = n :=
    updateCommitIndex_of_none hlog
  have hmoved : n.updateCommitIndex.commitIndex ≠ n.commitIndex →
      ∃ index, IsGreatest {i | n.Committable i} index ∧
        n.CommitsUpto n.updateCommitIndex index := by
    intro hne
    apply hadvance
    by_contra hnot
    exact hne (congrArg commitIndex (hnone (not_exists.mp hnot)))
  refine ⟨hadvance, hnone, fun e he hlo hhi hterm => ?_, fun hne => ?_⟩
  · obtain ⟨index, hgreatest, hcommits⟩ := hmoved (by omega)
    obtain ⟨later, hlater, hindex, hown⟩ := hgreatest.1.own_term
    rw [hcommits.commitIndex] at hhi ⊢
    refine ⟨later, hlater, ?_, hindex.le, hown⟩
    rw [hindex]
    refine lt_of_le_of_ne hhi fun heq => hterm ?_
    -- two entries at one index are the same
    have hfirst := hlog.getEntry_iff.mpr ⟨he, heq⟩
    have hsecond := hlog.getEntry_iff.mpr ⟨hlater, hindex⟩
    rw [hfirst] at hsecond
    exact Option.some.inj hsecond ▸ hown
  · obtain ⟨index, -, hcommits⟩ := hmoved hne
    exact hcommits.lastApplied.trans hcommits.commitIndex.symm

/-- A leader of term 2 behind an entry of term 1, which two replicas hold and which it must
not commit by itself; one peer has the entry of term 2 as well. -/
def inherited : RaftNode :=
  { construct ⟨"a", ["b", "c"], "a", 100, 50⟩ (.fresh .file) with
    currentTerm := 2
    state := .leader
    log := ⟨[⟨1, 1, .dot "x" "board"⟩, ⟨2, 2, .dot "y" "board"⟩], 0, 0⟩
    matchIndex := fun peer => if peer = "b" then some 2 else some 1 }

/-- Two inherited entries are committed together. -/
theorem updateCommitIndex_exact_inherited :
    IsGreatest {i | inherited.Committable i} 2 ∧
      inherited.CommitsUpto inherited.updateCommitIndex 2 := by
  have hlog : inherited.log.Contiguous := by
    intro k e he
    match k with
    | 0 => exact (Option.some.inj he ▸ rfl : e.index = 1)
    | 1 => exact (Option.some.inj he ▸ rfl : e.index = 2)
    | k + 2 => cases he
  have hcommittable : inherited.Committable 2 :=
    ⟨by decide, by decide, ⟨⟨2, 2, .dot "y" "board"⟩, by decide, rfl, rfl⟩, by decide⟩
  obtain ⟨hadvance, -⟩ := updateCommitIndex_exact inherited hlog (by decide) (by decide)
  obtain ⟨index, hgreatest, hcommits⟩ := hadvance ⟨2, hcommittable⟩
  have hindex : index = 2 := le_antisymm hgreatest.1.le_lastIndex (hgreatest.2 hcommittable)
  subst hindex
  exact ⟨hgreatest, hcommits⟩

end RaftNode

end QuorumCanvas
