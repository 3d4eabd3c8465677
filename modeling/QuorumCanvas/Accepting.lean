import QuorumCanvas.LogShape

/-!
# What a follower makes of AppendEntries

The answer of `handleAppendEntries` for any node and any message whose entries
stand under consecutive indices.  A success splices the entries in and then
follows the leader's commit index as far as the log reaches, which may be beyond
what the message supplied; a rejection leaves the log alone, on file as in
memory, even when it is raised from the middle of the loop.
-/

namespace QuorumCanvas

namespace RaftNode

open RaftLog (Spliced)

variable {n : RaftNode} {e : LogEntry} {es : List LogEntry} {i : ℕ}

/-! ## The loop -/

/-- The code's test for a conflict. -/
theorem conflicts_iff : n.conflicts e = true ↔ n.log.Clashes e := by
  unfold conflicts RaftLog.Clashes
  rw [Option.any_eq_true]
  simp

/-- Appending or cutting, seen from the log. -/
theorem log_appendLog (n : RaftNode) (e : LogEntry) : (n.appendLog e).log = n.log.append e := rfl

/-- The node's log is truncated. -/
theorem log_truncateFrom (n : RaftNode) (i : ℕ) :
    (n.truncateFrom i).log = n.log.truncateFrom i := by
  unfold truncateFrom
  split
  · rfl
  · next h =>
      unfold RaftLog.truncateFrom
      rw [if_neg h]

/-- An entry that the log has, with the same term, changes nothing. -/
theorem splice_same {e' : LogEntry} (h : n.log.getEntry e.index = some e')
    (hterm : e'.term = e.term) :
    (n.dropConflict e).appendMissing e = n := by
  have hno : ¬ n.conflicts e = true := by
    rw [conflicts_iff]
    rintro ⟨e₁, he₁, hne⟩
    rw [h] at he₁
    exact hne (Option.some.inj he₁ ▸ hterm)
  have hdrop : n.dropConflict e = n := if_neg hno
  rw [hdrop]
  unfold appendMissing
  rw [h]
  rfl

/-- Any other entry becomes the last of the log. -/
theorem splice_last (he : e.index = i + 1)
    (hend : n.log.getLastIndex = i ∨ n.log.Clashes e) :
    let log := ((n.dropConflict e).appendMissing e).log
    log.getLastIndex = i + 1 ∧ log.lastIncludedIndex = n.log.lastIncludedIndex ∧
      log.lastIncludedTerm = n.log.lastIncludedTerm ∧ log.getEntry (i + 1) = some e ∧
      ∀ k ≤ i, log.getEntry k = n.log.getEntry k := by
  -- what is left ends right before the entry
  obtain ⟨hlast, hli, hlt, hold⟩ : (n.dropConflict e).log.getLastIndex = i ∧
      (n.dropConflict e).log.lastIncludedIndex = n.log.lastIncludedIndex ∧
      (n.dropConflict e).log.lastIncludedTerm = n.log.lastIncludedTerm ∧
      ∀ k ≤ i, (n.dropConflict e).log.getEntry k = n.log.getEntry k := by
    unfold dropConflict
    split
    · next hconf =>
        have hbounds := (conflicts_iff.mp hconf).bounds
        rw [log_truncateFrom]
        refine ⟨?_, by simp, by simp, fun k hk => RaftLog.getEntry_truncateFrom (by omega)⟩
        rw [RaftLog.getLastIndex_truncateFrom hbounds, he]
        rfl
    · next hconf =>
        rcases hend with hend | hclash
        · exact ⟨hend, rfl, rfl, fun _ _ => rfl⟩
        · exact absurd (conflicts_iff.mpr hclash) hconf
  have hnone : (n.dropConflict e).log.getEntry e.index = none :=
    RaftLog.getEntry_eq_none.mpr (Or.inr (by omega))
  have happend : (n.dropConflict e).appendMissing e = (n.dropConflict e).appendLog e := by
    unfold appendMissing
    rw [hnone]
    rfl
  dsimp only
  rw [happend, log_appendLog]
  refine ⟨by simp [hlast], hli, hlt, ?_, fun k hk => ?_⟩
  · exact RaftLog.getEntry_append_last (by omega)
  · rw [RaftLog.getEntry_append (by omega), hold k hk]

/-- **The append loop,** when it does not give up, splices the entries in, and
none of them clashes with a committed one. -/
theorem spliced_appendEntriesLoop {li : ℕ} (hli : n.log.lastIncludedIndex = li)
    (hes : Consecutive i es) (hi : i ≤ n.log.getLastIndex)
    (h : (n.appendEntriesLoop li es).2 = true) :
    Spliced n.log i es (n.appendEntriesLoop li es).1.log ∧
      ∀ e ∈ es, n.log.Clashes e → n.commitIndex < e.index := by
  induction es generalizing n i with
  | nil => exact ⟨.nil hi, fun e he => by cases he⟩
  | cons e rest ih =>
      obtain ⟨he, hrest⟩ := hes.tail
      unfold appendEntriesLoop at h ⊢
      split at h
      · next hcovered =>
          rw [if_pos hcovered]
          have hno : ¬ n.log.Clashes e := fun hclash => by
            have := hclash.bounds
            omega
          have hlong : i + 1 ≤ n.log.getLastIndex := by
            unfold RaftLog.getLastIndex
            omega
          obtain ⟨hspliced, hlate⟩ := ih hli hrest hlong h
          refine ⟨hspliced.cons_same hno (fun hlt => by omega) hes, fun e₁ he₁ hclash => ?_⟩
          rcases List.mem_cons.mp he₁ with rfl | he₁
          · exact absurd hclash hno
          · exact hlate e₁ he₁ hclash
      · next hbeyond =>
          rw [if_neg hbeyond]
          cases hsplice : n.spliceEntry e with
          | none =>
              rw [hsplice] at h
              cases h
          | some n' =>
              rw [hsplice] at h
              have hmarks := marks_spliceEntry hsplice
              have hallow : n.log.Clashes e → n.commitIndex < e.index := fun hclash => by
                by_contra hle
                have hnone : n.spliceEntry e = none :=
                  if_pos ⟨conflicts_iff.mpr hclash, Nat.not_lt.mp hle⟩
                rw [hnone] at hsplice
                cases hsplice
              obtain rfl : (n.dropConflict e).appendMissing e = n' := by
                unfold spliceEntry at hsplice
                split at hsplice
                · cases hsplice
                · exact Option.some.inj hsplice
              have hcommit := commitIndex_of_marks hmarks
              by_cases hend : n.log.getLastIndex = i ∨ n.log.Clashes e
              · obtain ⟨hlast, hli', hlt', hnew, hold⟩ := splice_last he hend
                obtain ⟨hspliced, -⟩ := ih (hli'.trans hli) hrest hlast.ge h
                refine ⟨hspliced.cons_last hlast hli' hlt' hnew hold hend hes, ?_⟩
                intro e₁ he₁ hclash
                rcases List.mem_cons.mp he₁ with rfl | he₁
                · exact hallow hclash
                · rcases hend with hend | hclash'
                  · have := hclash.bounds
                    obtain ⟨j, hj⟩ := List.mem_iff_getElem?.mp he₁
                    have := hrest j e₁ hj
                    omega
                  · have := hallow hclash'
                    obtain ⟨j, hj⟩ := List.mem_iff_getElem?.mp he₁
                    have := hrest j e₁ hj
                    omega
              · obtain ⟨hlast, hno⟩ := not_or.mp hend
                obtain ⟨e', he'⟩ : ∃ e', n.log.getEntry e.index = some e' :=
                  RaftLog.exists_getEntry (by omega) (by omega)
                have hterm : e'.term = e.term := by
                  by_contra hne
                  exact hno ⟨e', he', hne⟩
                rw [splice_same he' hterm] at h ⊢
                obtain ⟨hspliced, hlate⟩ := ih hli hrest (by omega) h
                refine ⟨hspliced.cons_same hno (fun _ => ⟨e', he', hterm⟩) hes, ?_⟩
                intro e₁ he₁ hclash
                rcases List.mem_cons.mp he₁ with rfl | he₁
                · exact absurd hclash hno
                · exact hlate e₁ he₁ hclash

/-- Behind the commit index the loop never gives up. -/
theorem appendEntriesLoop_of_uncommitted {li : ℕ} (h : ∀ e ∈ es, n.commitIndex < e.index) :
    (n.appendEntriesLoop li es).2 = true := by
  induction es generalizing n with
  | nil => rfl
  | cons e rest ih =>
      have hrest : ∀ e₁ ∈ rest, n.commitIndex < e₁.index := fun e₁ he₁ =>
        h e₁ (List.mem_cons_of_mem _ he₁)
      unfold appendEntriesLoop
      split
      · exact ih hrest
      · have hlate := h e List.mem_cons_self
        have hsome : n.spliceEntry e = some ((n.dropConflict e).appendMissing e) :=
          if_neg fun hc => absurd hc.2 (Nat.not_le.mpr hlate)
        rw [hsome]
        refine ih fun e₁ he₁ => ?_
        rw [commitIndex_of_marks (marks_splice n e)]
        exact hrest e₁ he₁

/-- **Giving up** leaves the node as it was: everything before the offending
entry is committed too, and already there. -/
theorem appendEntriesLoop_false {li : ℕ} (hli : n.log.lastIncludedIndex = li)
    (hes : Consecutive i es) (hcommit : n.commitIndex ≤ n.log.getLastIndex)
    (h : (n.appendEntriesLoop li es).2 = false) : (n.appendEntriesLoop li es).1 = n := by
  induction es generalizing i with
  | nil => rfl
  | cons e rest ih =>
      obtain ⟨he, hrest⟩ := hes.tail
      unfold appendEntriesLoop at h ⊢
      split at h
      · next hcovered =>
          rw [if_pos hcovered]
          exact ih hrest h
      · next hbeyond =>
          rw [if_neg hbeyond]
          cases hsplice : n.spliceEntry e with
          | none => rfl
          | some n' =>
              rw [hsplice] at h
              have hallow : ¬ (n.conflicts e ∧ e.index ≤ n.commitIndex) := fun hc => by
                have hnone : n.spliceEntry e = none := if_pos hc
                rw [hnone] at hsplice
                cases hsplice
              have hsome : n.spliceEntry e = some ((n.dropConflict e).appendMissing e) :=
                if_neg hallow
              rw [hsome] at hsplice
              obtain rfl := Option.some.inj hsplice
              by_cases hlate : n.commitIndex < e.index
              · have htrue : (((n.dropConflict e).appendMissing e).appendEntriesLoop li rest).2 =
                    true := by
                  refine appendEntriesLoop_of_uncommitted fun e₁ he₁ => ?_
                  obtain ⟨j, hj⟩ := List.mem_iff_getElem?.mp he₁
                  have := hrest j e₁ hj
                  rw [commitIndex_of_marks (marks_splice n e)]
                  omega
                rw [htrue] at h
                cases h
              · obtain ⟨e', he'⟩ : ∃ e', n.log.getEntry e.index = some e' :=
                  RaftLog.exists_getEntry (by omega) (by omega)
                have hterm : e'.term = e.term := by
                  by_contra hne
                  exact hallow ⟨conflicts_iff.mpr ⟨e', he', hne⟩, Nat.not_lt.mp hlate⟩
                rw [splice_same he' hterm] at h ⊢
                exact ih hrest h

/-- Entries that are there already are passed over. -/
theorem appendEntriesLoop_settled {li : ℕ}
    (h : ∀ e ∈ es, li < e.index → ∃ e', n.log.getEntry e.index = some e' ∧ e'.term = e.term) :
    n.appendEntriesLoop li es = (n, true) := by
  induction es with
  | nil => rfl
  | cons e rest ih =>
      have hrest := ih fun e₁ he₁ => h e₁ (List.mem_cons_of_mem _ he₁)
      unfold appendEntriesLoop
      split
      · exact hrest
      · next hbeyond =>
          obtain ⟨e', he', hterm⟩ := h e List.mem_cons_self (Nat.not_le.mp hbeyond)
          have hno : ¬ (n.conflicts e ∧ e.index ≤ n.commitIndex) := fun hc => by
            obtain ⟨e₁, he₁, hne⟩ := conflicts_iff.mp hc.1
            rw [he'] at he₁
            exact hne (Option.some.inj he₁ ▸ hterm)
          have hsome : n.spliceEntry e = some ((n.dropConflict e).appendMissing e) := if_neg hno
          rw [hsome, splice_same he' hterm]
          exact hrest

/-! ## The commit index -/

theorem log_applyNext_iterate (n : RaftNode) (k : ℕ) : (applyNext^[k] n).log = n.log := by
  induction k with
  | zero => rfl
  | succ k ih =>
      rw [Function.iterate_succ_apply', ← ih]
      unfold applyNext
      dsimp only
      split <;> rfl

/-- A snapshot, when one is due, compacts the log. -/
theorem log_maybeSnapshot (n : RaftNode) :
    n.maybeSnapshot.log =
      if n.commitIndex - n.log.lastIncludedIndex < n.snapshotThreshold then n.log
      else n.log.compact n.commitIndex (n.log.getTermAt n.commitIndex) := by
  unfold maybeSnapshot
  split
  · rfl
  · unfold takeSnapshot compactLog
    split
    · next hle => exact (if_pos hle).symm
    · rfl

/-- What is applied may be compacted. -/
theorem log_applyCommitted (n : RaftNode) :
    n.applyCommitted.log =
      if n.commitIndex - n.log.lastIncludedIndex < n.snapshotThreshold then n.log
      else n.log.compact n.commitIndex (n.log.getTermAt n.commitIndex) := by
  obtain ⟨hcommit, -, hbound, hthreshold⟩ :=
    Marks.mk.inj (marks_iterate n (n.commitIndex - n.lastApplied))
  unfold applyCommitted
  rw [log_maybeSnapshot, hcommit, hbound, hthreshold, log_applyNext_iterate]
  rfl

/-- The commit index that following the leader's leads to. -/
theorem commitIndex_followCommit (n : RaftNode) (leaderCommit : ℕ) :
    (n.followCommit leaderCommit).commitIndex =
      if n.commitIndex < leaderCommit then min leaderCommit n.log.getLastIndex
      else n.commitIndex := by
  unfold followCommit
  split
  · exact (applied_applyCommitted _).2.1
  · rfl

/-- The log is compacted if the new commit index is far enough ahead. -/
theorem log_followCommit (n : RaftNode) (leaderCommit : ℕ) :
    (n.followCommit leaderCommit).log =
      if n.commitIndex < leaderCommit ∧ n.snapshotThreshold ≤
          (n.followCommit leaderCommit).commitIndex - n.log.lastIncludedIndex then
        n.log.compact (n.followCommit leaderCommit).commitIndex
          (n.log.getTermAt (n.followCommit leaderCommit).commitIndex)
      else n.log := by
  rw [commitIndex_followCommit]
  unfold followCommit
  by_cases hlt : n.commitIndex < leaderCommit
  · simp only [hlt, if_true, true_and]
    refine (log_applyCommitted _).trans ?_
    show (if min leaderCommit n.log.getLastIndex - n.log.lastIncludedIndex < n.snapshotThreshold
      then n.log else n.log.compact _ _) = _
    by_cases hdue : min leaderCommit n.log.getLastIndex - n.log.lastIncludedIndex <
        n.snapshotThreshold
    · rw [if_pos hdue, if_neg (Nat.not_le.mpr hdue)]
    · rw [if_neg hdue, if_pos (Nat.not_lt.mp hdue)]
      rfl
  · simp only [hlt, if_false, false_and]

/-- Beyond the new boundary, and in its length, the log is what it was. -/
theorem followCommit_log (n : RaftNode) (leaderCommit : ℕ)
    (hc : n.commitIndex ≤ n.log.getLastIndex) :
    (n.followCommit leaderCommit).log.getLastIndex = n.log.getLastIndex ∧
      n.log.lastIncludedIndex ≤ (n.followCommit leaderCommit).log.lastIncludedIndex ∧
      ∀ k, (n.followCommit leaderCommit).log.lastIncludedIndex < k →
        (n.followCommit leaderCommit).log.getEntry k = n.log.getEntry k := by
  have hle : (n.followCommit leaderCommit).commitIndex ≤ n.log.getLastIndex := by
    rw [commitIndex_followCommit]
    split
    · exact min_le_right _ _
    · exact hc
  rw [log_followCommit]
  split
  · refine ⟨RaftLog.getLastIndex_compact hle, ?_, fun k hk => RaftLog.getEntry_compact hk⟩
    rw [RaftLog.lastIncludedIndex_compact]
    exact le_max_left _ _
  · exact ⟨rfl, le_rfl, fun _ _ => rfl⟩

/-- The boundary term is that of the entry the boundary was moved to. -/
theorem boundaryTerm_followCommit (n : RaftNode) (leaderCommit : ℕ) :
    (n.followCommit leaderCommit).log.lastIncludedTerm =
      n.log.getTermAt (n.followCommit leaderCommit).log.lastIncludedIndex := by
  have hhere : n.log.lastIncludedTerm = n.log.getTermAt n.log.lastIncludedIndex := by
    unfold RaftLog.getTermAt
    rw [if_pos rfl]
  rw [log_followCommit]
  split
  · unfold RaftLog.compact
    split
    · exact hhere
    · rfl
  · exact hhere

/-- Following the same commit index again changes neither log nor commit index. -/
theorem followCommit_again {m : RaftNode} {leaderCommit : ℕ}
    (hc : n.commitIndex ≤ n.log.getLastIndex)
    (hlog : m.log = (n.followCommit leaderCommit).log)
    (hcommit : m.commitIndex = (n.followCommit leaderCommit).commitIndex)
    (hthreshold : m.snapshotThreshold = n.snapshotThreshold) :
    (m.followCommit leaderCommit).log = m.log ∧
      (m.followCommit leaderCommit).commitIndex = m.commitIndex := by
  obtain ⟨hlast, -⟩ := followCommit_log n leaderCommit hc
  rw [← hlog] at hlast
  have hsame : (m.followCommit leaderCommit).commitIndex = m.commitIndex := by
    rw [commitIndex_followCommit, hlast]
    rw [commitIndex_followCommit] at hcommit
    split at hcommit <;> split <;> omega
  refine ⟨?_, hsame⟩
  rw [log_followCommit, hsame]
  split
  · next hdue =>
      -- the first time has compacted already
      have hfirst := log_followCommit n leaderCommit
      rw [← hlog, ← hcommit] at hfirst
      have hahead : n.commitIndex < leaderCommit := by
        rw [commitIndex_followCommit] at hcommit
        split at hcommit <;> omega
      unfold RaftLog.compact
      refine if_pos ?_
      by_cases hdone : n.commitIndex < leaderCommit ∧
          n.snapshotThreshold ≤ m.commitIndex - n.log.lastIncludedIndex
      · rw [if_pos hdone] at hfirst
        rw [hfirst, RaftLog.lastIncludedIndex_compact]
        exact le_max_right _ _
      · rw [if_neg hdone] at hfirst
        rw [hfirst, hthreshold] at hdue
        exact absurd ⟨hahead, hdue.2⟩ hdone
  · rfl

/-! ## The handler -/

/-- The log matches a message that continues it behind `prevLogIndex`. -/
def Connects (n : RaftNode) (args : AppendEntriesArgs) : Prop :=
  (n.log.lastIncludedIndex < args.prevLogIndex →
    ∃ e, n.log.getEntry args.prevLogIndex = some e ∧ e.term = args.prevLogTerm) ∧
  (args.prevLogIndex = n.log.lastIncludedIndex → 0 < n.log.lastIncludedIndex →
    n.log.lastIncludedTerm = args.prevLogTerm)

/-- The code's test of the previous entry. -/
theorem consistent_iff {args : AppendEntriesArgs} :
    n.consistent args = true ↔ n.Connects args := by
  unfold consistent Connects
  dsimp only
  split
  · next hlt =>
      have hne : args.prevLogIndex ≠ n.log.lastIncludedIndex := by omega
      cases hprev : n.log.getEntry args.prevLogIndex <;> simp [hlt, hne]
  · next hle =>
      split
      · next hat => simp [hat.1, hat.2]
      · next hnot =>
          have himp : args.prevLogIndex = n.log.lastIncludedIndex → ¬ 0 < n.log.lastIncludedIndex :=
            fun heq hpos => hnot ⟨heq, hpos⟩
          simp only [true_iff]
          exact ⟨fun hlt => absurd hlt hle, fun heq hpos => absurd hpos (himp heq)⟩

/-- The previous entry is in the log. -/
theorem Connects.prevLogIndex_le {args : AppendEntriesArgs} (h : n.Connects args) :
    args.prevLogIndex ≤ n.log.getLastIndex := by
  rcases Nat.lt_or_ge n.log.lastIncludedIndex args.prevLogIndex with hlt | hge
  · obtain ⟨e, he, -⟩ := h.1 hlt
    exact (RaftLog.bounds_of_getEntry he).2
  · unfold RaftLog.getLastIndex
    omega

/-- Hearing from the leader keeps the log, and so what connects to it. -/
theorem connects_hearLeader (args : AppendEntriesArgs) (term : ℕ) (leaderId : String)
    (leaderAddr : Option String) :
    (n.hearLeader term leaderId leaderAddr).Connects args ↔ n.Connects args := by
  unfold Connects
  rw [hearLeader_log]

/-- The node that has heard the leader of a message. -/
def heard (n : RaftNode) (args : AppendEntriesArgs) : RaftNode :=
  n.hearLeader args.term args.leaderId args.leaderAddr

/-- The loop of the handler. -/
def spliced (n : RaftNode) (args : AppendEntriesArgs) : RaftNode × Bool :=
  (n.heard args).appendEntriesLoop n.log.lastIncludedIndex args.entries

/-- What hearing a leader leaves alone: everything but term, vote, role, hint and timers. -/
theorem heard_frame (n : RaftNode) (args : AppendEntriesArgs) :
    (n.heard args).log = n.log ∧ (n.heard args).persistence.loadLog = n.persistence.loadLog ∧
      (n.heard args).persistence.loadSnapshot = n.persistence.loadSnapshot ∧
      (n.heard args).commitIndex = n.commitIndex ∧ (n.heard args).lastApplied = n.lastApplied ∧
      (n.heard args).snapshotThreshold = n.snapshotThreshold ∧
      (n.heard args).boards = n.boards := by
  have hsave : ∀ (p : Persistence) (s : PersistedState),
      (p.run (.saveState s)).loadLog = p.loadLog ∧
        (p.run (.saveState s)).loadSnapshot = p.loadSnapshot := by
    intro p s
    unfold Persistence.run
    cases p.backend <;> exact ⟨rfl, rfl⟩
  unfold heard hearLeader
  split
  · unfold becomeFollower
    dsimp only
    split <;> exact ⟨rfl, (hsave _ _).1, (hsave _ _).2, rfl, rfl, rfl, rfl⟩
  · exact ⟨rfl, rfl, rfl, rfl, rfl, rfl, rfl⟩

/-- The leader's term was taken over. -/
theorem heard_term {args : AppendEntriesArgs} (h : n.currentTerm ≤ args.term) :
    (n.heard args).currentTerm = args.term := by
  unfold heard hearLeader
  split
  · unfold becomeFollower
    dsimp only
    split <;> rfl
  · next hsame =>
      show n.currentTerm = args.term
      omega

/-- How the handler comes to its answer. -/
theorem handleAppendEntries_eq (n : RaftNode) (args : AppendEntriesArgs) :
    ((n.handleAppendEntries args).1, (n.handleAppendEntries args).2.success) =
      if args.term < n.currentTerm then (n, false)
      else if n.consistent args then
        if (n.spliced args).2 then ((n.spliced args).1.followCommit args.leaderCommit, true)
        else ((n.spliced args).1, false)
      else (n.heard args, false) := by
  have hcons : (n.hearLeader args.term args.leaderId args.leaderAddr).consistent args =
      n.consistent args := by
    rw [Bool.eq_iff_iff, consistent_iff, consistent_iff, connects_hearLeader]
  unfold handleAppendEntries spliced heard
  split
  · rfl
  · dsimp only
    rw [hcons, hearLeader_log]
    split
    · cases hloop : (n.hearLeader args.term args.leaderId args.leaderAddr).appendEntriesLoop
        n.log.lastIncludedIndex args.entries with
      | mk m b => cases b <;> rfl
    · rfl

/-- What a success says about the steps before it. -/
theorem handleAppendEntries_success {args : AppendEntriesArgs}
    (h : (n.handleAppendEntries args).2.success = true) :
    n.currentTerm ≤ args.term ∧ n.Connects args ∧ (n.spliced args).2 = true ∧
      (n.handleAppendEntries args).1 = (n.spliced args).1.followCommit args.leaderCommit := by
  have heq := handleAppendEntries_eq n args
  rw [h] at heq
  split at heq
  · cases (Prod.mk.inj heq).2
  · next hge =>
      split at heq
      · next hcons =>
          split at heq
          · next hloop =>
              exact ⟨Nat.not_lt.mp hge, consistent_iff.mp hcons, hloop, (Prod.mk.inj heq).1⟩
          · cases (Prod.mk.inj heq).2
      · cases (Prod.mk.inj heq).2

variable {args : AppendEntriesArgs} (hes : Consecutive args.prevLogIndex args.entries)

include hes

/-- The log and commit index that the loop of a success leaves. -/
theorem spliced_success (h : (n.handleAppendEntries args).2.success = true) :
    Spliced n.log args.prevLogIndex args.entries (n.spliced args).1.log ∧
      (∀ e ∈ args.entries, n.log.Clashes e → n.commitIndex < e.index) ∧
      (n.spliced args).1.commitIndex = n.commitIndex := by
  obtain ⟨-, hconnects, hloop, -⟩ := handleAppendEntries_success h
  have hheard := commitIndex_of_marks (marks_hearLeader n args.term args.leaderId args.leaderAddr)
  have hlog : (n.heard args).log = n.log := hearLeader_log n _ _ _
  obtain ⟨hspliced, hlate⟩ := spliced_appendEntriesLoop (n := n.heard args)
    (congrArg RaftLog.lastIncludedIndex hlog) hes (hlog ▸ hconnects.prevLogIndex_le) hloop
  rw [hlog] at hspliced hlate
  refine ⟨hspliced, fun e he hclash => ?_, ?_⟩
  · have := hlate e he hclash
    rwa [show (n.heard args).commitIndex = n.commitIndex from hheard] at this
  · exact (commitIndex_of_marks (marks_appendEntriesLoop _ _ _)).trans hheard

/-- **How far a success commits.**  It stays within what the message verified or
supplied exactly when the leader's commit index does, or when no entry is left
over behind the message: the log did not reach further, or it was cut because of
a clash. -/
theorem commit_verified_iff (h : (n.handleAppendEntries args).2.success = true) :
    (n.handleAppendEntries args).1.commitIndex ≤
        max n.commitIndex (args.prevLogIndex + args.entries.length) ↔
      args.leaderCommit ≤ max n.commitIndex (args.prevLogIndex + args.entries.length) ∨
      n.log.getLastIndex ≤ max n.commitIndex (args.prevLogIndex + args.entries.length) ∨
      ∃ e ∈ args.entries, n.log.Clashes e := by
  obtain ⟨hspliced, -, hcommit⟩ := spliced_success hes h
  obtain ⟨-, -, -, hnode⟩ := handleAppendEntries_success h
  rw [hnode, commitIndex_followCommit, hcommit]
  by_cases hclash : ∃ e ∈ args.entries, n.log.Clashes e
  · have hlast := hspliced.clashed hclash
    simp only [hclash, or_true, iff_true]
    split <;> omega
  · have hlast := hspliced.unclashed fun e he hc => hclash ⟨e, he, hc⟩
    simp only [hclash, or_false]
    split <;> omega

/-- Three entries of an old leader, none of them committed. -/
def straying : AppendEntriesArgs :=
  ⟨1, "a", some "a", 0, 0, [⟨1, 1, .dot "x" "board"⟩, ⟨2, 1, .dot "y" "board"⟩,
    ⟨3, 1, .dot "z" "board"⟩], 0⟩

/-- A follower that has taken them in. -/
def strayed : RaftNode :=
  ((construct ⟨"b", ["a", "c"], "b", 100, 64⟩ (.fresh .file)).handleAppendEntries straying).1

/-- A capped batch of a later leader, which has committed two entries. -/
def capped : AppendEntriesArgs := ⟨2, "c", some "c", 0, 0, [⟨1, 1, .dot "x" "board"⟩], 2⟩

omit hes in
/-- A request of two entries behind the first. -/
theorem consecutive_capped : Consecutive capped.prevLogIndex capped.entries := by
  rintro (_ | k) e hk
  · obtain rfl := Option.some.inj hk
    rfl
  · simp [capped] at hk

omit hes in
/-- The request commits more than it verifies. -/
theorem commit_verified_iff_capped :
    (strayed.handleAppendEntries capped).1.commitIndex ≤
        max strayed.commitIndex (capped.prevLogIndex + capped.entries.length) ↔
      capped.leaderCommit ≤ max strayed.commitIndex (capped.prevLogIndex + capped.entries.length) ∨
      strayed.log.getLastIndex ≤
        max strayed.commitIndex (capped.prevLogIndex + capped.entries.length) ∨
      ∃ e ∈ capped.entries, strayed.log.Clashes e :=
  commit_verified_iff consecutive_capped (by decide +kernel)

omit hes in
/-- The batch ends at index 1, and index 2 is committed with the old leader's entry. -/
theorem commits_unverified :
    ¬ ∀ (n : RaftNode) (args : AppendEntriesArgs), n.log.Contiguous →
      n.log.lastIncludedIndex ≤ n.commitIndex → n.commitIndex ≤ n.log.getLastIndex →
      Consecutive args.prevLogIndex args.entries →
      (n.handleAppendEntries args).2.success = true →
      (n.handleAppendEntries args).1.commitIndex ≤
        max n.commitIndex (args.prevLogIndex + args.entries.length) := by
  intro h
  have hcontiguous : strayed.log.Contiguous := by
    have hlog : strayed.log = ⟨straying.entries, 0, 0⟩ := by decide +kernel
    rw [hlog]
    rintro (_ | _ | _ | k) e hk
    · obtain rfl := Option.some.inj hk
      rfl
    · obtain rfl := Option.some.inj hk
      rfl
    · obtain rfl := Option.some.inj hk
      rfl
    · simp [straying] at hk
  have hbound := h strayed capped hcontiguous (by decide +kernel) (by decide +kernel)
    consecutive_capped (by decide +kernel)
  revert hbound
  decide +kernel

/-- What was committed is still covered by the log after the loop. -/
theorem commit_le_spliced (hcommit : n.commitIndex ≤ n.log.getLastIndex)
    (h : (n.handleAppendEntries args).2.success = true) :
    n.commitIndex ≤ (n.spliced args).1.log.getLastIndex := by
  obtain ⟨hspliced, hlate, -⟩ := spliced_success hes h
  by_cases hclash : ∃ e ∈ args.entries, n.log.Clashes e
  · obtain ⟨e, he, hc⟩ := hclash
    have hend := hspliced.clashed ⟨e, he, hc⟩
    have hgt := hlate e he hc
    obtain ⟨j, hj⟩ := List.mem_iff_getElem?.mp he
    have hindex := hes j e hj
    have hlt := (List.getElem?_eq_some_iff.mp hj).1
    omega
  · have hend := hspliced.unclashed fun e he hc => hclash ⟨e, he, hc⟩
    omega

/-- A message that was accepted still connects. -/
theorem connects_again (hcommit : n.commitIndex ≤ n.log.getLastIndex)
    (h : (n.handleAppendEntries args).2.success = true) :
    (n.handleAppendEntries args).1.Connects args := by
  obtain ⟨hspliced, -, hci⟩ := spliced_success hes h
  obtain ⟨-, hconnects, -, hnode⟩ := handleAppendEntries_success h
  obtain ⟨-, hbound, hentry⟩ := followCommit_log (n.spliced args).1 args.leaderCommit
    (hci ▸ commit_le_spliced hes hcommit h)
  have hterm := boundaryTerm_followCommit (n.spliced args).1 args.leaderCommit
  rw [← hnode] at hbound hentry hterm
  have hboundary := hspliced.boundary
  -- the entry at `prevLogIndex` comes before the message
  have hprev : n.log.lastIncludedIndex < args.prevLogIndex →
      ∃ e, (n.spliced args).1.log.getEntry args.prevLogIndex = some e ∧
        e.term = args.prevLogTerm := by
    intro hlt
    obtain ⟨e, he, hsame⟩ := hconnects.1 hlt
    refine ⟨e, ?_, hsame⟩
    rw [hspliced.untouched _ (RaftLog.bounds_of_getEntry he).2, he]
    intro e' he' hle
    obtain ⟨j, hj⟩ := List.mem_iff_getElem?.mp he'
    have := hes j e' hj
    omega
  refine ⟨fun hlt => ?_, fun heq hpos => ?_⟩
  · obtain ⟨e, he, hsame⟩ := hprev (by omega)
    exact ⟨e, by rw [hentry _ hlt, he], hsame⟩
  · rw [hterm, ← heq]
    unfold RaftLog.getTermAt
    split
    · next hat =>
        rw [hspliced.boundaryTerm]
        exact hconnects.2 (hat.trans hboundary) (by omega)
    · next hne =>
        obtain ⟨e, he, hsame⟩ := hprev (by omega)
        rw [he]
        exact hsame

/-- **Retransmission:** an accepted message is accepted again and changes nothing. -/
theorem handleAppendEntries_again (hcommit : n.commitIndex ≤ n.log.getLastIndex)
    (h : (n.handleAppendEntries args).2.success = true) :
    let n' := (n.handleAppendEntries args).1
    (n'.handleAppendEntries args).2.success = true ∧
      (n'.handleAppendEntries args).1.log = n'.log ∧
      (n'.handleAppendEntries args).1.commitIndex = n'.commitIndex := by
  obtain ⟨hspliced, -, hci⟩ := spliced_success hes h
  obtain ⟨hle, -, -, hnode⟩ := handleAppendEntries_success h
  have hlong := commit_le_spliced hes hcommit h
  obtain ⟨-, hbound, hentry⟩ := followCommit_log (n.spliced args).1 args.leaderCommit
    (hci ▸ hlong)
  have hconnects := connects_again hes hcommit h
  have hterm : (n.handleAppendEntries args).1.currentTerm = args.term := by
    rw [hnode]
    exact ((quiet_appendEntriesLoop _ _).trans (quiet_followCommit _ _)).currentTerm.trans
      (heard_term hle)
  have hthreshold : (n.handleAppendEntries args).1.snapshotThreshold =
      (n.spliced args).1.snapshotThreshold := by
    rw [hnode]
    exact (advances_followCommit _ _ : Advances 0 _ _).threshold
  dsimp only
  rw [← hnode] at hbound hentry
  generalize hn' : (n.handleAppendEntries args).1 = n' at *
  obtain ⟨hlog', -, -, hcommit', -, hthreshold', -⟩ := heard_frame n' args
  -- nothing is left to splice in
  have hsettled : n'.spliced args = (n'.heard args, true) := by
    refine appendEntriesLoop_settled fun e he hbeyond => ?_
    have := hspliced.boundary
    obtain ⟨e', he', hsame⟩ := hspliced.supplied e he (by omega)
    exact ⟨e', by rw [hlog', hentry _ hbeyond, he'], hsame⟩
  have heq := handleAppendEntries_eq n' args
  rw [if_neg (by omega), if_pos (consistent_iff.mpr hconnects), hsettled, if_pos rfl] at heq
  obtain ⟨hnode', hsuccess⟩ := Prod.mk.inj heq
  obtain ⟨hsame, hsame'⟩ : ((n'.heard args).followCommit args.leaderCommit).log =
      (n'.heard args).log ∧ ((n'.heard args).followCommit args.leaderCommit).commitIndex =
        (n'.heard args).commitIndex :=
    followCommit_again (n := (n.spliced args).1) (hci ▸ hlong) (by rw [hlog', hnode])
      (by rw [hcommit', hnode]) (hthreshold'.trans hthreshold)
  exact ⟨hsuccess, by rw [hnode', hsame, hlog'], by rw [hnode', hsame', hcommit']⟩

/-- **AppendEntries, accepted.**  Every entry of the message that is not compacted
is there with its term; what stood before the first clash stands; without a clash
nothing goes missing; what was committed stays; the log reaches the end of the
message; and the same message again is accepted and changes nothing. -/
theorem append_entries_accepted (hcommit : n.commitIndex ≤ n.log.getLastIndex)
    (h : (n.handleAppendEntries args).2.success = true) :
    let n' := (n.handleAppendEntries args).1
    let again := n'.handleAppendEntries args
    (∀ e ∈ args.entries, n'.log.lastIncludedIndex < e.index →
      ∃ e', n'.log.getEntry e.index = some e' ∧ e'.term = e.term) ∧
    (∀ k, n'.log.lastIncludedIndex < k → k ≤ n.log.getLastIndex →
      (∀ e ∈ args.entries, e.index ≤ k → ¬ n.log.Clashes e) →
        n'.log.getEntry k = n.log.getEntry k) ∧
    ((∀ e ∈ args.entries, ¬ n.log.Clashes e) → n.log.getLastIndex ≤ n'.log.getLastIndex ∧
      ∀ k, n'.log.lastIncludedIndex < k → k ≤ n.log.getLastIndex →
        n'.log.getEntry k = n.log.getEntry k) ∧
    (∀ k, n'.log.lastIncludedIndex < k → k ≤ n.commitIndex →
      n'.log.getEntry k = n.log.getEntry k) ∧
    args.prevLogIndex + args.entries.length ≤ n'.log.getLastIndex ∧
    again.2.success = true ∧ again.1.log = n'.log ∧ again.1.commitIndex = n'.commitIndex := by
  obtain ⟨hspliced, hlate, hci⟩ := spliced_success hes h
  obtain ⟨hterm, hconnects, -, hnode⟩ := handleAppendEntries_success h
  obtain ⟨hagain, hlog, hcommit'⟩ := handleAppendEntries_again hes hcommit h
  dsimp only
  have hlong := commit_le_spliced hes hcommit h
  obtain ⟨hlast, hbound, hentry⟩ := followCommit_log (n.spliced args).1 args.leaderCommit
    (hci ▸ hlong)
  rw [← hnode] at hlast hbound hentry
  have hstand : ∀ k, (n.handleAppendEntries args).1.log.lastIncludedIndex < k →
      k ≤ n.log.getLastIndex → (∀ e ∈ args.entries, e.index ≤ k → ¬ n.log.Clashes e) →
        (n.handleAppendEntries args).1.log.getEntry k = n.log.getEntry k := fun k hk hle hno => by
    rw [hentry k hk, hspliced.untouched k hle hno]
  refine ⟨?_, hstand, ?_, ?_, ?_, hagain, hlog, hcommit'⟩
  · intro e he hbeyond
    have := hspliced.boundary
    obtain ⟨e', he', hsame⟩ := hspliced.supplied e he (by omega)
    exact ⟨e', by rw [hentry _ hbeyond, he'], hsame⟩
  · intro hno
    refine ⟨?_, fun k hk hle => hstand k hk hle fun e he _ => hno e he⟩
    rw [hlast, hspliced.unclashed hno]
    exact le_max_left _ _
  · intro k hk hle
    refine hstand k hk (hle.trans hcommit) fun e he hek hclash => ?_
    have := hlate e he hclash
    omega
  · rw [hlast]
    exact hspliced.reaches

omit hes in
/-- What it leaves in the log. -/
theorem append_entries_accepted_capped :
    let n' := (strayed.handleAppendEntries capped).1
    let again := n'.handleAppendEntries capped
    (∀ e ∈ capped.entries, n'.log.lastIncludedIndex < e.index →
      ∃ e', n'.log.getEntry e.index = some e' ∧ e'.term = e.term) ∧
    (∀ k, n'.log.lastIncludedIndex < k → k ≤ strayed.log.getLastIndex →
      (∀ e ∈ capped.entries, e.index ≤ k → ¬ strayed.log.Clashes e) →
        n'.log.getEntry k = strayed.log.getEntry k) ∧
    ((∀ e ∈ capped.entries, ¬ strayed.log.Clashes e) →
      strayed.log.getLastIndex ≤ n'.log.getLastIndex ∧
      ∀ k, n'.log.lastIncludedIndex < k → k ≤ strayed.log.getLastIndex →
        n'.log.getEntry k = strayed.log.getEntry k) ∧
    (∀ k, n'.log.lastIncludedIndex < k → k ≤ strayed.commitIndex →
      n'.log.getEntry k = strayed.log.getEntry k) ∧
    capped.prevLogIndex + capped.entries.length ≤ n'.log.getLastIndex ∧
    again.2.success = true ∧ again.1.log = n'.log ∧ again.1.commitIndex = n'.commitIndex :=
  append_entries_accepted consecutive_capped (by decide +kernel) (by decide +kernel)

/-- **AppendEntries, rejected.**  The log, on file and in memory, its boundary, the
indices and the boards are as before; a message of an old term changes nothing at all. -/
theorem append_entries_rejected (hcommit : n.commitIndex ≤ n.log.getLastIndex)
    (h : (n.handleAppendEntries args).2.success = false) :
    let n' := (n.handleAppendEntries args).1
    n'.log = n.log ∧ n'.persistence.loadLog = n.persistence.loadLog ∧
      n'.persistence.loadSnapshot = n.persistence.loadSnapshot ∧
      n'.commitIndex = n.commitIndex ∧ n'.lastApplied = n.lastApplied ∧ n'.boards = n.boards ∧
      (args.term < n.currentTerm → n' = n) := by
  obtain ⟨hlog, hfile, hsnapshot, hindex, happlied, -, hboards⟩ := heard_frame n args
  have heq := handleAppendEntries_eq n args
  rw [h] at heq
  dsimp only
  split at heq
  · rw [(Prod.mk.inj heq).1]
    exact ⟨rfl, rfl, rfl, rfl, rfl, rfl, fun _ => rfl⟩
  · next hge =>
      have hheard : (n.handleAppendEntries args).1 = n.heard args := by
        split at heq
        · split at heq
          · cases (Prod.mk.inj heq).2
          · next hloop =>
              rw [(Prod.mk.inj heq).1]
              exact appendEntriesLoop_false (congrArg RaftLog.lastIncludedIndex hlog) hes
                (by rw [hindex, hlog]; exact hcommit) (Bool.not_eq_true _ ▸ hloop)
        · exact (Prod.mk.inj heq).1
      rw [hheard]
      exact ⟨hlog, hfile, hsnapshot, hindex, happlied, hboards, fun hlt => absurd hlt hge⟩

/-- A later leader's batch, the second entry of which conflicts with a committed one. -/
def conflicting : AppendEntriesArgs :=
  ⟨3, "a", some "a", 0, 0, [⟨1, 1, .dot "x" "board"⟩, ⟨2, 3, .dot "w" "board"⟩], 2⟩

omit hes in
/-- The follower has committed two entries, and gives up at the second of the batch. -/
theorem append_entries_rejected_conflict :
    let n := (strayed.handleAppendEntries capped).1
    let n' := (n.handleAppendEntries conflicting).1
    n.commitIndex = 2 ∧ n'.log = n.log ∧ n'.persistence.loadLog = n.persistence.loadLog ∧
      n'.persistence.loadSnapshot = n.persistence.loadSnapshot ∧
      n'.commitIndex = n.commitIndex ∧ n'.lastApplied = n.lastApplied ∧ n'.boards = n.boards ∧
      (conflicting.term < n.currentTerm → n' = n) := by
  have hes : Consecutive conflicting.prevLogIndex conflicting.entries := by
    rintro (_ | _ | k) e hk
    · obtain rfl := Option.some.inj hk
      rfl
    · obtain rfl := Option.some.inj hk
      rfl
    · simp [conflicting] at hk
  exact ⟨by decide +kernel, append_entries_rejected hes (by decide +kernel) (by decide +kernel)⟩

end RaftNode

end QuorumCanvas
