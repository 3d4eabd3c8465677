import QuorumCanvas.Accepting

/-!
# The indices of one replica

Whatever terms, indices, commit indices and snapshots the messages name, a
replica keeps a contiguous log with its commit index inside, applies exactly what
it commits, and keeps its files such that a restart reads all of this back
(`Tidy`).  Every operation keeps a node tidy and takes no index back (`Ascends`).
-/

namespace QuorumCanvas

/-! ## What a restart reads -/

namespace Persistence

variable {p : Persistence} (hp : p.backend = .file)

include hp

/-- Terms and votes are no log. -/
theorem ofPersistence_saveState (s : PersistedState) :
    RaftLog.ofPersistence (p.run (.saveState s)) = RaftLog.ofPersistence p := by
  rw [run_saveState hp]
  rfl

/-- An entry above the boundary is read back behind the others. -/
theorem ofPersistence_appendLog {e : LogEntry}
    (he : (RaftLog.ofPersistence p).lastIncludedIndex < e.index) :
    RaftLog.ofPersistence (p.run (.appendLog e)) = (RaftLog.ofPersistence p).append e := by
  rw [run_appendLog hp]
  revert he
  unfold RaftLog.ofPersistence RaftLog.append
  cases p.loadSnapshot with
  | none => exact fun _ => rfl
  | some s =>
      intro he
      dsimp only at he ⊢
      rw [List.filter_append, List.filter_cons_of_pos (by simpa using he), List.filter_nil]

/-- Entries above the boundary are read back instead of the others. -/
theorem ofPersistence_rewriteLog (es : List LogEntry)
    (hes : ∀ e ∈ es, (RaftLog.ofPersistence p).lastIncludedIndex < e.index) :
    RaftLog.ofPersistence (p.run (.rewriteLog es)) =
      { RaftLog.ofPersistence p with entries := es } := by
  rw [run_rewriteLog hp]
  revert hes
  unfold RaftLog.ofPersistence
  cases p.loadSnapshot with
  | none => exact fun _ => rfl
  | some s =>
      intro hes
      dsimp only at hes ⊢
      rw [List.filter_eq_self.mpr fun e he => by simpa using hes e he]

/-- A later snapshot is read back as the boundary. -/
theorem ofPersistence_saveSnapshot {s : Snapshot}
    (hs : (RaftLog.ofPersistence p).lastIncludedIndex ≤ s.lastIncludedIndex) :
    RaftLog.ofPersistence (p.run (.saveSnapshot s)) =
      (RaftLog.ofPersistence p).installSnapshot s.lastIncludedIndex s.lastIncludedTerm := by
  rw [run_saveSnapshot hp]
  revert hs
  unfold RaftLog.ofPersistence RaftLog.installSnapshot
  cases p.loadSnapshot with
  | none => exact fun _ => rfl
  | some s' =>
      intro hs
      dsimp only at hs ⊢
      rw [List.filter_filter]
      congr 1
      refine List.filter_congr fun e _ => ?_
      by_cases hlt : s.lastIncludedIndex < e.index
      · simp [hlt]
        omega
      · simp [hlt]

omit hp in
/-- The commit index on file is not below the boundary. -/
theorem commit_eq {s : PersistedState} {log : RaftLog} (hstate : p.loadState = s)
    (hlog : RaftLog.ofPersistence p = log) :
    p.commit = max s.commitIndex log.lastIncludedIndex := by
  subst hstate hlog
  rfl

end Persistence

/-- Entries are above the boundary. -/
theorem RaftLog.Contiguous.lt_index {log : RaftLog} (h : log.Contiguous) {e : LogEntry}
    (he : e ∈ log.entries) : log.lastIncludedIndex < e.index := by
  obtain ⟨k, hk⟩ := List.mem_iff_getElem?.mp he
  have := h k e hk
  omega

/-- Compacting a contiguous log and installing a snapshot there come to the same. -/
theorem RaftLog.Contiguous.compact_eq {log : RaftLog} (h : log.Contiguous) {u t : ℕ}
    (hu : log.lastIncludedIndex < u) : log.compact u t = log.installSnapshot u t := by
  unfold RaftLog.compact RaftLog.installSnapshot
  rw [if_neg (by omega), h.filter_eq_drop hu.le]

namespace RaftNode

/-- A node whose log is contiguous, whose indices lie in it, and whose files say the same. -/
structure Tidy (n : RaftNode) : Prop where
  file : n.persistence.backend = .file
  log : n.log = RaftLog.ofPersistence n.persistence
  commit : n.commitIndex = n.persistence.commit
  contiguous : n.log.Contiguous
  boundary_le : n.log.lastIncludedIndex ≤ n.commitIndex
  applied : n.lastApplied = n.commitIndex
  commit_le : n.commitIndex ≤ n.log.getLastIndex

/-- From `n` to `n'` the node stays tidy, and neither boundary nor commit index goes back. -/
def Ascends (n n' : RaftNode) : Prop :=
  n.Tidy → n'.Tidy ∧ n.log.lastIncludedIndex ≤ n'.log.lastIncludedIndex ∧
    n.commitIndex ≤ n'.commitIndex

variable {n n' n'' : RaftNode}

namespace Ascends

theorem of_eq (hp : n'.persistence = n.persistence) (hlog : n'.log = n.log)
    (hcommit : n'.commitIndex = n.commitIndex) (happlied : n'.lastApplied = n.lastApplied) :
    Ascends n n' := fun h => by
  refine ⟨⟨?_, ?_, ?_, ?_, ?_, ?_, ?_⟩, ?_, ?_⟩
  · rw [hp, h.file]
  · rw [hp, hlog, h.log]
  · rw [hp, hcommit, h.commit]
  · rw [hlog]
    exact h.contiguous
  · rw [hlog, hcommit]
    exact h.boundary_le
  · rw [happlied, hcommit, h.applied]
  · rw [hlog, hcommit]
    exact h.commit_le
  · rw [hlog]
  · rw [hcommit]

theorem refl (n : RaftNode) : Ascends n n := of_eq rfl rfl rfl rfl

theorem trans (h : Ascends n n') (h' : Ascends n' n'') : Ascends n n'' := fun hn => by
  obtain ⟨hn', hb, hc⟩ := h hn
  obtain ⟨hn'', hb', hc'⟩ := h' hn'
  exact ⟨hn'', hb.trans hb', hc.trans hc'⟩

end Ascends

/-! ## State and commit index -/

/-- Saving term and vote. -/
theorem ascends_persistState (n : RaftNode) : Ascends n n.persistState := fun h => by
  have hread := Persistence.ofPersistence_saveState h.file
    ⟨n.currentTerm, n.votedFor, n.commitIndex⟩
  have hbound := h.boundary_le
  refine ⟨⟨?_, h.log.trans hread.symm, ?_, h.contiguous, h.boundary_le, h.applied, h.commit_le⟩,
    le_rfl, le_rfl⟩
  · exact (Persistence.backend_run _ _).trans h.file
  · refine Eq.trans ?_ (Persistence.commit_eq (by rw [Persistence.run_saveState h.file])
      (hread.trans h.log.symm)).symm
    exact (max_eq_left hbound).symm

/-- Stepping down saves a term. -/
theorem ascends_becomeFollower (n : RaftNode) (term : ℕ) (leaderId leaderAddr : Option String) :
    Ascends n (n.becomeFollower term leaderId leaderAddr) := by
  have hset : Ascends n { n with
      state := .follower
      currentTerm := term
      votedFor := none
      leaderId := leaderId <|> n.leaderId
      leaderAddr := leaderAddr <|> n.leaderAddr } := .of_eq rfl rfl rfl rfl
  refine (hset.trans (ascends_persistState _)).trans ?_
  unfold becomeFollower
  dsimp only
  split <;> exact .of_eq rfl rfl rfl rfl

/-- Hearing from a leader does no more. -/
theorem ascends_hearLeader (n : RaftNode) (term : ℕ) (leaderId : String)
    (leaderAddr : Option String) : Ascends n (n.hearLeader term leaderId leaderAddr) := by
  unfold hearLeader
  split
  · exact ascends_becomeFollower n _ _ _
  · exact .of_eq rfl rfl rfl rfl

/-! ## Applying and compacting -/

/-- A tidy node, except that committed entries may be waiting to be applied. -/
structure Waiting (n : RaftNode) : Prop where
  file : n.persistence.backend = .file
  log : n.log = RaftLog.ofPersistence n.persistence
  commit : n.commitIndex = n.persistence.commit
  contiguous : n.log.Contiguous
  boundary_le : n.log.lastIncludedIndex ≤ n.commitIndex
  applied_le : n.lastApplied ≤ n.commitIndex
  commit_le : n.commitIndex ≤ n.log.getLastIndex

theorem persistence_applyNext_iterate (n : RaftNode) (k : ℕ) :
    (applyNext^[k] n).persistence = n.persistence := by
  induction k with
  | zero => rfl
  | succ k ih =>
      rw [Function.iterate_succ_apply', ← ih]
      unfold applyNext
      dsimp only
      split <;> rfl

/-- A snapshot is taken at the commit index. -/
theorem ascends_takeSnapshot (n : RaftNode) : Ascends n n.takeSnapshot := fun h => by
  have hbound : (RaftLog.ofPersistence n.persistence).lastIncludedIndex ≤
      n.snapshotHere.lastIncludedIndex := h.log ▸ h.boundary_le
  have hread := Persistence.ofPersistence_saveSnapshot h.file hbound
  rw [← h.log] at hread
  have hfile : (n.persistence.run (.saveSnapshot n.snapshotHere)).backend = .file :=
    (Persistence.backend_run _ _).trans h.file
  have hstate : (n.persistence.run (.saveSnapshot n.snapshotHere)).loadState =
      n.persistence.loadState := by rw [Persistence.run_saveSnapshot h.file]
  have hsaved : n.persistence.loadState.commitIndex ≤ n.commitIndex := by
    rw [h.commit]
    exact le_max_left _ _
  have hlog : n.log.compact n.commitIndex (n.log.getTermAt n.commitIndex) =
      n.log.installSnapshot n.commitIndex (n.log.getTermAt n.commitIndex) := by
    rcases Nat.eq_or_lt_of_le h.boundary_le with heq | hlt
    · have hterm : n.log.getTermAt n.commitIndex = n.log.lastIncludedTerm := if_pos heq.symm
      unfold RaftLog.compact RaftLog.installSnapshot
      rw [if_pos heq.ge, hterm, h.contiguous.filter_eq_drop h.boundary_le, ← heq, Nat.sub_self,
        List.drop_zero]
    · exact h.contiguous.compact_eq hlt
  have hcompact := h.contiguous.compact n.commitIndex (n.log.getTermAt n.commitIndex)
  have hbound' := n.log.lastIncludedIndex_compact (u := n.commitIndex)
    (t := n.log.getTermAt n.commitIndex)
  rw [max_eq_right h.boundary_le] at hbound'
  have hlast := RaftLog.getLastIndex_compact (t := n.log.getTermAt n.commitIndex) h.commit_le
  have hread' : RaftLog.ofPersistence (n.persistence.run (.saveSnapshot n.snapshotHere)) =
      n.log.compact n.commitIndex (n.log.getTermAt n.commitIndex) := hread.trans hlog.symm
  unfold takeSnapshot compactLog
  split
  · next hle =>
      have hsame : n.log.compact n.commitIndex (n.log.getTermAt n.commitIndex) = n.log :=
        if_pos hle
      refine ⟨⟨hfile, hsame.symm.trans hread'.symm, ?_, h.contiguous, h.boundary_le, h.applied,
        h.commit_le⟩, le_rfl, le_rfl⟩
      show n.commitIndex = _
      refine Eq.trans ?_ (Persistence.commit_eq hstate hread').symm
      rw [hbound', max_eq_right hsaved]
  · have hrewrite := Persistence.ofPersistence_rewriteLog hfile _
      (fun e he => hread' ▸ hcompact.lt_index he)
    have hfinal := hrewrite.trans (by rw [hread'])
    refine ⟨⟨(Persistence.backend_run _ _).trans hfile, hfinal.symm, ?_, hcompact, hbound'.le,
      h.applied, h.commit_le.trans hlast.ge⟩, ?_, le_rfl⟩
    · show n.commitIndex = _
      refine Eq.trans ?_ (Persistence.commit_eq (by rw [Persistence.run_rewriteLog hfile, hstate])
        hfinal).symm
      rw [hbound', max_eq_right hsaved]
    · exact h.boundary_le.trans hbound'.ge

/-- **`applyCommitted`** leaves a tidy node, with the commit index as it was. -/
theorem Waiting.applyCommitted (h : n.Waiting) :
    n.applyCommitted.Tidy ∧ n.log.lastIncludedIndex ≤ n.applyCommitted.log.lastIncludedIndex ∧
      n.applyCommitted.commitIndex = n.commitIndex := by
  obtain ⟨happlied, hcommit, -⟩ := applied_applyCommitted n
  have hmarks := marks_iterate n (n.commitIndex - n.lastApplied)
  have hlog := log_applyNext_iterate n (n.commitIndex - n.lastApplied)
  have hfiles := persistence_applyNext_iterate n (n.commitIndex - n.lastApplied)
  have hindex := congrArg Marks.commitIndex hmarks
  have hdone := congrArg Marks.lastApplied hmarks
  unfold RaftNode.applyCommitted at hcommit ⊢
  generalize applyNext^[n.commitIndex - n.lastApplied] n = m at *
  have hindex : m.commitIndex = n.commitIndex := hindex
  have hdone : m.lastApplied = n.lastApplied + (n.commitIndex - n.lastApplied) := hdone
  have hm : m.Tidy := by
    refine ⟨by rw [hfiles, h.file], by rw [hlog, hfiles, h.log], by rw [hindex, hfiles, h.commit],
      by rw [hlog]; exact h.contiguous, by rw [hlog, hindex]; exact h.boundary_le, ?_,
      by rw [hlog, hindex]; exact h.commit_le⟩
    have := h.applied_le
    omega
  have hstep : Ascends m m.maybeSnapshot := by
    unfold maybeSnapshot
    split
    · exact .refl m
    · exact ascends_takeSnapshot m
  obtain ⟨htidy, hbound, -⟩ := hstep hm
  exact ⟨htidy, hlog ▸ hbound, hcommit⟩

/-- The commit index moves up to a higher one within the log. -/
theorem ascends_advanceCommit (n : RaftNode) {index : ℕ} (hlo : n.commitIndex ≤ index)
    (hhi : index ≤ n.log.getLastIndex) : Ascends n (n.advanceCommit index) := fun h => by
  have hread := Persistence.ofPersistence_saveState h.file ⟨n.currentTerm, n.votedFor, index⟩
  have hwait : ({ n with commitIndex := index } : RaftNode).persistState.Waiting := by
    refine ⟨(Persistence.backend_run _ _).trans h.file, h.log.trans hread.symm, ?_, h.contiguous,
      h.boundary_le.trans hlo, h.applied.le.trans hlo, hhi⟩
    show index = _
    refine Eq.trans ?_ (Persistence.commit_eq (by rw [Persistence.run_saveState h.file])
      (hread.trans h.log.symm)).symm
    exact (max_eq_left (h.boundary_le.trans hlo)).symm
  obtain ⟨htidy, hbound, hcommit⟩ := hwait.applyCommitted
  exact ⟨htidy, hbound, hlo.trans hcommit.ge⟩

/-- A commit index is followed no further than the log goes. -/
theorem ascends_followCommit (n : RaftNode) (leaderCommit : ℕ) :
    Ascends n (n.followCommit leaderCommit) := fun h => by
  unfold followCommit
  split
  · next hlt =>
      exact ascends_advanceCommit n (le_min hlt.le h.commit_le) (min_le_right _ _) h
  · exact Ascends.refl n h

/-- A leader commits what its log has. -/
theorem ascends_updateCommitIndex (n : RaftNode) : Ascends n n.updateCommitIndex := by
  unfold updateCommitIndex
  split
  · next index hfound =>
      obtain ⟨hlo, hhi, -⟩ := commitCandidate_some hfound
      exact ascends_advanceCommit n hlo.le hhi
  · exact .refl n

/-! ## Changing the log -/

/-- Changes to the log that keep what is committed and reach the file. -/
theorem Tidy.of_log (h : n.Tidy) (hfile : n'.persistence.backend = .file)
    (hlog : n'.log = RaftLog.ofPersistence n'.persistence)
    (hstate : n'.persistence.loadState = n.persistence.loadState)
    (hbound : n'.log.lastIncludedIndex = n.log.lastIncludedIndex)
    (hcommit : n'.commitIndex = n.commitIndex) (happlied : n'.lastApplied = n.lastApplied)
    (hcontiguous : n'.log.Contiguous) (hlast : n.commitIndex ≤ n'.log.getLastIndex) :
    n'.Tidy ∧ n.log.lastIncludedIndex ≤ n'.log.lastIncludedIndex ∧
      n.commitIndex ≤ n'.commitIndex := by
  refine ⟨⟨hfile, hlog, ?_, hcontiguous, ?_, ?_, ?_⟩, hbound.ge, hcommit.ge⟩
  · rw [hcommit, h.commit, Persistence.commit_eq rfl h.log.symm, Persistence.commit_eq hstate
      hlog.symm, hbound]
  · rw [hbound, hcommit]
    exact h.boundary_le
  · rw [happlied, hcommit, h.applied]
  · rw [hcommit]
    exact hlast

/-- The next entry may be appended. -/
theorem ascends_appendLog (n : RaftNode) {e : LogEntry} (he : e.index = n.log.getLastIndex + 1) :
    Ascends n (n.appendLog e) := fun h => by
  have hbeyond : (RaftLog.ofPersistence n.persistence).lastIncludedIndex < e.index := by
    rw [← h.log, he]
    unfold RaftLog.getLastIndex
    omega
  have hread := Persistence.ofPersistence_appendLog h.file hbeyond
  refine h.of_log ((Persistence.backend_run _ _).trans h.file) ?_ ?_ rfl rfl rfl
    (h.contiguous.append he) ?_
  · exact (congrArg (RaftLog.append · e) h.log).trans hread.symm
  · show (n.persistence.run _).loadState = _
    rw [Persistence.run_appendLog h.file]
  · rw [log_appendLog, RaftLog.getLastIndex_append]
    exact h.commit_le.trans (Nat.le_succ _)

/-- What is not committed may be cut. -/
theorem ascends_truncateFrom (n : RaftNode) {i : ℕ} (hi : n.commitIndex < i) :
    Ascends n (n.truncateFrom i) := fun h => by
  unfold truncateFrom
  split
  · next hrange =>
      have hcut := h.contiguous.truncateFrom i
      have hread := Persistence.ofPersistence_rewriteLog h.file
        (n.log.truncateFrom i).entries (fun e he => by
          rw [← h.log]
          exact RaftLog.lastIncludedIndex_truncateFrom ▸ hcut.lt_index he)
      refine h.of_log ((Persistence.backend_run _ _).trans h.file) ?_ ?_
        RaftLog.lastIncludedIndex_truncateFrom rfl rfl hcut ?_
      · refine Eq.trans ?_ hread.symm
        rw [← h.log]
        show n.log.truncateFrom i = _
        unfold RaftLog.truncateFrom
        rw [if_pos hrange]
      · show (n.persistence.run _).loadState = _
        rw [Persistence.run_rewriteLog h.file]
      · show n.commitIndex ≤ (n.log.truncateFrom i).getLastIndex
        rw [RaftLog.getLastIndex_truncateFrom hrange]
        omega
  · exact Ascends.refl n h

/-- One entry that continues the log at `i` or lies in it. -/
theorem ascends_spliceEntry {e : LogEntry} (he : e.index ≤ n.log.getLastIndex + 1)
    (hbeyond : n.log.lastIncludedIndex < e.index) (h : n.spliceEntry e = some n') :
    Ascends n n' := by
  unfold spliceEntry at h
  split at h
  · cases h
  · next hno =>
      obtain rfl := Option.some.inj h
      by_cases hclash : n.conflicts e = true
      · have hlate : n.commitIndex < e.index := Nat.not_le.mp fun hle => hno ⟨hclash, hle⟩
        have hrange := (conflicts_iff.mp hclash).bounds
        have hdrop : n.dropConflict e = n.truncateFrom e.index := if_pos hclash
        rw [hdrop]
        refine (ascends_truncateFrom n hlate).trans ?_
        unfold appendMissing
        split
        · refine ascends_appendLog _ ?_
          rw [log_truncateFrom, RaftLog.getLastIndex_truncateFrom hrange]
          omega
        · exact .refl _
      · have hdrop : n.dropConflict e = n := if_neg hclash
        rw [hdrop]
        unfold appendMissing
        split
        · next hnone =>
            refine ascends_appendLog n ?_
            rcases RaftLog.getEntry_eq_none.mp (Option.isNone_iff_eq_none.mp hnone) with h | h
            · omega
            · omega
        · exact .refl n

/-- Splicing leaves the boundary alone, and the log reaches the entry. -/
theorem reaches_spliceEntry {e : LogEntry} {i : ℕ} (he : e.index = i + 1)
    (hi : i ≤ n.log.getLastIndex) (hbeyond : n.log.lastIncludedIndex < e.index)
    (h : n.spliceEntry e = some n') :
    i + 1 ≤ n'.log.getLastIndex ∧ n'.log.lastIncludedIndex = n.log.lastIncludedIndex := by
  unfold spliceEntry at h
  split at h
  · cases h
  · obtain rfl := Option.some.inj h
    by_cases hend : n.log.getLastIndex = i ∨ n.log.Clashes e
    · obtain ⟨hlast, hbound, -⟩ := splice_last he hend
      exact ⟨hlast.ge, hbound⟩
    · obtain ⟨hlast, hno⟩ := not_or.mp hend
      obtain ⟨e', he'⟩ : ∃ e', n.log.getEntry e.index = some e' :=
        RaftLog.exists_getEntry hbeyond (by omega)
      have hterm : e'.term = e.term := by
        by_contra hne
        exact hno ⟨e', he', hne⟩
      rw [splice_same he' hterm]
      exact ⟨by omega, rfl⟩

/-- Consecutive entries, by induction on them. -/
theorem ascends_appendEntriesLoop {es : List LogEntry} {i li : ℕ}
    (hli : n.log.lastIncludedIndex = li) (hes : Consecutive i es) (hi : i ≤ n.log.getLastIndex) :
    Ascends n (n.appendEntriesLoop li es).1 := by
  induction es generalizing n i with
  | nil => exact .refl n
  | cons e rest ih =>
      obtain ⟨he, hrest⟩ := hes.tail
      unfold appendEntriesLoop
      split
      · refine ih hli hrest ?_
        unfold RaftLog.getLastIndex
        omega
      · next hbeyond =>
          cases hsplice : n.spliceEntry e with
          | none => exact .refl n
          | some n' =>
              have hlt : n.log.lastIncludedIndex < e.index := by omega
              obtain ⟨hreach, hbound⟩ := reaches_spliceEntry he hi hlt hsplice
              exact (ascends_spliceEntry (by omega) hlt hsplice).trans
                (ih (hbound.trans hli) hrest hreach)

/-- A snapshot ahead of the commit index replaces the front of the log. -/
theorem ascends_applySnapshot (n : RaftNode) {s : Snapshot}
    (hs : n.commitIndex < s.lastIncludedIndex) :
    Ascends n (n.applySnapshot s) := fun h => by
  have hahead : n.log.lastIncludedIndex ≤ s.lastIncludedIndex := h.boundary_le.trans hs.le
  have hlog := h.contiguous.installSnapshot (t := s.lastIncludedTerm) hahead
  have hread := Persistence.ofPersistence_saveSnapshot h.file (s := s) (h.log ▸ hahead)
  rw [← h.log] at hread
  have hfile : (n.persistence.run (.saveSnapshot s)).backend = .file :=
    (Persistence.backend_run _ _).trans h.file
  have hrewrite := Persistence.ofPersistence_rewriteLog hfile
    (n.log.installSnapshot s.lastIncludedIndex s.lastIncludedTerm).entries
        (fun e he => hread ▸ hlog.lt_index he)
  rw [hread] at hrewrite
  have hfile' := (Persistence.backend_run (n.persistence.run (.saveSnapshot s)) (.rewriteLog
    (n.log.installSnapshot s.lastIncludedIndex s.lastIncludedTerm).entries)).trans hfile
  have hfiles : (n.applySnapshot s).persistence = ((n.persistence.run (.saveSnapshot s)).run
      (.rewriteLog (n.log.installSnapshot s.lastIncludedIndex s.lastIncludedTerm).entries)).run
        (.saveState ⟨n.currentTerm, n.votedFor, s.lastIncludedIndex⟩) := by
    rw [← Persistence.run_rewriteLog_saveSnapshot]
    rfl
  have hfinal := (Persistence.ofPersistence_saveState hfile'
    ⟨n.currentTerm, n.votedFor, s.lastIncludedIndex⟩).trans hrewrite
  refine ⟨⟨?_, ?_, ?_, hlog, le_rfl, rfl, ?_⟩, hahead, hs.le⟩
  · rw [hfiles, Persistence.backend_run, hfile']
  · rw [hfiles, hfinal]
    rfl
  · rw [hfiles]
    show s.lastIncludedIndex = _
    refine Eq.trans ?_ (Persistence.commit_eq (by rw [Persistence.run_saveState hfile'])
      hfinal).symm
    exact (max_self _).symm
  · exact Nat.le_add_right _ _

/-! ## Operations and restarts -/

/-- A request of consecutive entries ascends, whatever its terms. -/
theorem ascends_handleAppendEntries (n : RaftNode) {args : AppendEntriesArgs}
    (hes : Consecutive args.prevLogIndex args.entries) :
    Ascends n (n.handleAppendEntries args).1 := by
  have heq := handleAppendEntries_eq n args
  have hheard : Ascends n (n.heard args) := ascends_hearLeader n _ _ _
  have hlog : (n.heard args).log = n.log := (heard_frame n args).1
  split at heq
  · rw [(Prod.mk.inj heq).1]
    exact .refl n
  · split at heq
    · next hcons =>
        have hloop : Ascends n (n.spliced args).1 :=
          hheard.trans (ascends_appendEntriesLoop (congrArg RaftLog.lastIncludedIndex hlog) hes
            (hlog ▸ (consistent_iff.mp hcons).prevLogIndex_le))
        split at heq
        · rw [(Prod.mk.inj heq).1]
          exact hloop.trans (ascends_followCommit _ _)
        · rw [(Prod.mk.inj heq).1]
          exact hloop
    · rw [(Prod.mk.inj heq).1]
      exact hheard

/-- What the receiver of a message may rely on: only that entries are in order. -/
def Request.InOrder : Request → Prop
  | .appendEntries args => Consecutive args.prevLogIndex args.entries
  | .requestVote _ | .heartbeat _ | .syncLog _ | .installSnapshot _ => True

theorem ascends_ite_becomeFollower (n : RaftNode) (term : ℕ) :
    Ascends n (if n.currentTerm < term then n.becomeFollower term none none else n) := by
  split
  · exact ascends_becomeFollower n _ _ _
  · exact .refl n

/-- Every request that is in order ascends. -/
theorem ascends_handle (n : RaftNode) (request : Request) (h : request.InOrder) :
    Ascends n (n.handle request).1 := by
  cases request with
  | requestVote args =>
      show Ascends n (n.handleRequestVote args).1
      unfold handleRequestVote
      dsimp only
      refine (ascends_ite_becomeFollower n args.term).trans ?_
      generalize (if n.currentTerm < args.term then n.becomeFollower args.term none none else n) = m
      split
      · have hset : Ascends m { m with
            votedFor := some args.candidateId
            currentTerm := args.term } := .of_eq rfl rfl rfl rfl
        exact (hset.trans (ascends_persistState _)).trans (.of_eq rfl rfl rfl rfl)
      · exact .refl m
  | appendEntries args => exact ascends_handleAppendEntries n h
  | heartbeat args =>
      show Ascends n (n.handleHeartbeat args).1
      unfold handleHeartbeat
      split
      · exact .refl n
      · exact (ascends_hearLeader n _ _ _).trans (ascends_followCommit _ _)
  | syncLog args =>
      show Ascends n (n.handleSyncLog args).1
      unfold handleSyncLog
      dsimp only
      split <;> exact ascends_ite_becomeFollower n _
  | installSnapshot args =>
      show Ascends n (n.handleInstallSnapshot args).1
      unfold handleInstallSnapshot
      split
      · exact .refl n
      · dsimp only
        refine (ascends_hearLeader n args.term args.leaderId none).trans ?_
        split
        · exact .refl _
        · next hnew => exact ascends_applySnapshot _ (Nat.not_le.mp hnew)

/-- The operations of a replica that are run to the end: any but a reply to
`requestCatchUp`, with entries in order, and stepping down only to a later term. -/
def Op.Orderly (n : RaftNode) : Op → Prop
  | .handle request => request.InOrder
  | .becomeFollower term _ _ => n.currentTerm < term
  | .onSyncLogReply _ => False
  | _ => True

/-- Every orderly operation does. -/
theorem ascends_run (n : RaftNode) (op : Op) (h : op.Orderly n) : Ascends n (Op.run n op) := by
  cases op with
  | becomeCandidate =>
      have hset : Ascends n { n with
          state := .candidate
          currentTerm := n.currentTerm + 1
          votedFor := some n.replicaId
          leaderId := none } := .of_eq rfl rfl rfl rfl
      exact hset.trans (ascends_persistState _)
  | becomeLeader => exact .of_eq rfl rfl rfl rfl
  | resetElectionTimer => exact .of_eq rfl rfl rfl rfl
  | becomeFollower term leaderId leaderAddr => exact ascends_becomeFollower n _ _ _
  | handle request => exact ascends_handle n request h
  | onAppendEntriesReply peer args result =>
      show Ascends n (n.onAppendEntriesReply peer args result)
      unfold onAppendEntriesReply
      split
      · exact ascends_becomeFollower n _ _ _
      · split
        · split <;> exact .of_eq rfl rfl rfl rfl
        · exact .of_eq rfl rfl rfl rfl
  | onInstallSnapshotReply peer args result =>
      show Ascends n (n.onInstallSnapshotReply peer args result)
      unfold onInstallSnapshotReply
      split
      · exact ascends_becomeFollower n _ _ _
      · exact .of_eq rfl rfl rfl rfl
  | onSyncLogReply result => cases h
  | updateCommitIndex => exact ascends_updateCommitIndex n
  | clientAppend stroke =>
      exact (ascends_appendLog n rfl).trans (.of_eq rfl rfl rfl rfl)

/-- The term never goes back either, and the state file keeps it. -/
theorem terms_run (hn : n.Synced) (op : Op) (h : op.Orderly n) :
    (Op.run n op).Synced ∧ n.currentTerm ≤ (Op.run n op).currentTerm := by
  have hdrift : ∀ {m : RaftNode}, Drifts (fun _ => True) n m →
      m.Synced ∧ n.currentTerm ≤ m.currentTerm := fun hd => ⟨hd.synced hn, hd.currentTerm_le⟩
  cases op with
  | becomeCandidate =>
      exact ⟨synced_persistState (n := { n with
        state := .candidate
        currentTerm := n.currentTerm + 1
        votedFor := some n.replicaId
        leaderId := none }) hn.file, Nat.le_succ _⟩
  | becomeLeader => exact ⟨⟨hn.file, hn.currentTerm, hn.votedFor⟩, le_rfl⟩
  | resetElectionTimer => exact ⟨⟨hn.file, hn.currentTerm, hn.votedFor⟩, le_rfl⟩
  | becomeFollower term leaderId leaderAddr =>
      exact hdrift (drifts_becomeFollower n leaderId leaderAddr (Or.inl h))
  | handle request =>
      by_cases hvote : ∃ args, request = .requestVote args
      · obtain ⟨args, rfl⟩ := hvote
        obtain ⟨m, hm, hcases⟩ := handleRequestVote_cases n args
        obtain ⟨hsync, hle⟩ := hdrift (hm.mono fun _ h => h.elim)
        show (n.handleRequestVote args).1.Synced ∧
            n.currentTerm ≤ (n.handleRequestVote args).1.currentTerm
        rcases hcases with heq | ⟨-, -, -, heq⟩
        · rw [heq]
          exact ⟨hsync, hle⟩
        · rw [heq]
          have hsaved :
              ({ m with votedFor := some args.candidateId } : RaftNode).persistState.Synced :=
            synced_persistState hsync.file
          exact ⟨⟨hsaved.file, hsaved.currentTerm, hsaved.votedFor⟩, hle⟩
      · exact hdrift ((drifts_handle n request fun args heq => hvote ⟨args, heq⟩).mono
          fun _ _ => trivial)
  | onAppendEntriesReply peer args result =>
      exact hdrift (drifts_onAppendEntriesReply n peer args result)
  | onInstallSnapshotReply peer args result =>
      exact hdrift (drifts_onInstallSnapshotReply n peer args result)
  | onSyncLogReply result => cases h
  | updateCommitIndex => exact hdrift (.of_quiet (quiet_updateCommitIndex n))
  | clientAppend stroke => exact hdrift (drifts_clientAppend n stroke)

/-- What happens to a replica: an operation, or a restart on its files. -/
inductive Step
  | operate (op : Op)
  | restart

/-- An operation, or a restart on the files. -/
def Step.run (params : Params) (n : RaftNode) : Step → RaftNode
  | .operate op => Op.run n op
  | .restart => construct params n.persistence

/-- Restarts are orderly. -/
def Step.Orderly (n : RaftNode) : Step → Prop
  | .operate op => op.Orderly n
  | .restart => True

/-- The life of a replica: orderly operations and restarts, in any order. -/
abbrev Lives (params : Params) : RaftNode → RaftNode → Prop :=
  Runs.Reach (fun n step => some (Step.run params n step)) Step.Orderly

end RaftNode

/-- Files that were written cleanly: a log without gaps that the saved indices lie in. -/
structure Persistence.Clean (p : Persistence) : Prop where
  file : p.backend = .file
  contiguous : (RaftLog.ofPersistence p).Contiguous
  commit_le : p.commit ≤ (RaftLog.ofPersistence p).getLastIndex

/-- New files are clean. -/
theorem Persistence.clean_fresh : (Persistence.fresh .file).Clean :=
  ⟨rfl, fun k e h => by simp [fresh, RaftLog.ofPersistence] at h, le_rfl⟩

namespace RaftNode

variable {n n' : RaftNode} {params : Params} {p : Persistence}

/-- **A restart** on clean files. -/
theorem tidy_construct (params : Params) (hp : p.Clean) :
    (construct params p).Tidy ∧ (construct params p).Synced ∧
      (RaftLog.ofPersistence p).lastIncludedIndex ≤
        (construct params p).log.lastIncludedIndex ∧
      (construct params p).commitIndex = p.commit ∧
      (construct params p).currentTerm = p.loadState.currentTerm ∧
      (construct params p).snapshotThreshold = params.snapshotThreshold ∧
      (0 < params.snapshotThreshold → (construct params p).Compacted) := by
  obtain ⟨base, hbase⟩ := boots_construct params p
  have hwait : base.Waiting := by
    refine ⟨by rw [hbase.files, hp.file], by rw [hbase.log, hbase.files],
      by rw [hbase.commitIndex, hbase.files], by rw [hbase.log]; exact hp.contiguous, ?_, ?_, ?_⟩
    · rw [hbase.log, hbase.commitIndex]
      exact le_max_right _ _
    · rw [hbase.lastApplied, hbase.commitIndex]
      exact le_max_right _ _
    · rw [hbase.log, hbase.commitIndex]
      exact hp.commit_le
  have hsync : base.Synced := by
    refine ⟨hwait.file, ?_, ?_⟩
    · rw [hbase.files, hbase.currentTerm]
    · rw [hbase.files, hbase.votedFor]
  obtain ⟨htidy, hbound, hcommit⟩ := hwait.applyCommitted
  obtain ⟨-, -, hthreshold, hcompact⟩ := applied_applyCommitted base
  have hquiet := quiet_applyCommitted base
  have hsync' := hquiet.synced hsync
  rw [hbase.eq]
  have htimers : Ascends base.applyCommitted
      { base.applyCommitted with timers := base.applyCommitted.timers.startElectionTimer } :=
    .of_eq rfl rfl rfl rfl
  refine ⟨(htimers htidy).1, ⟨hsync'.file, hsync'.currentTerm, hsync'.votedFor⟩,
    hbase.log ▸ hbound, hcommit.trans hbase.commitIndex, hquiet.currentTerm.trans hbase.currentTerm,
    hthreshold.trans hbase.threshold, fun hpos => hcompact (hbase.threshold ▸ hpos)⟩

/-- The files of a tidy node are clean. -/
theorem Tidy.clean (h : n.Tidy) : n.persistence.Clean :=
  ⟨h.file, h.log ▸ h.contiguous, by rw [← h.commit, ← h.log]; exact h.commit_le⟩

/-- What every step keeps. -/
structure Steady (params : Params) (n : RaftNode) : Prop where
  tidy : n.Tidy
  synced : n.Synced
  threshold : n.snapshotThreshold = params.snapshotThreshold
  compacted : 0 < params.snapshotThreshold → n.Compacted

/-- **One step** keeps this, and takes neither term nor index back. -/
theorem Steady.step (h : n.Steady params) (step : Step) (hstep : step.Orderly n) :
    (step.run params n).Steady params ∧
      n.log.lastIncludedIndex ≤ (step.run params n).log.lastIncludedIndex ∧
      n.commitIndex ≤ (step.run params n).commitIndex ∧
      n.currentTerm ≤ (step.run params n).currentTerm := by
  cases step with
  | operate op =>
      obtain ⟨htidy, hbound, hcommit⟩ := ascends_run n op hstep h.tidy
      obtain ⟨hsync, hterm⟩ := terms_run h.synced op hstep
      have hadvance := advances_run n op (op.above_zero n)
      exact ⟨⟨htidy, hsync, hadvance.threshold.trans h.threshold, fun hpos =>
        hadvance.compacted (h.threshold ▸ hpos) (h.compacted hpos)⟩, hbound, hcommit, hterm⟩
  | restart =>
      obtain ⟨htidy, hsync, hbound, hcommit, hterm, hthreshold, hcompact⟩ :=
        tidy_construct params h.tidy.clean
      refine ⟨⟨htidy, hsync, hthreshold, hcompact⟩, h.tidy.log ▸ hbound, ?_, ?_⟩
      · exact (h.tidy.commit.trans hcommit.symm).le
      · exact (hterm.trans h.synced.currentTerm).ge

/-- A node starts steady on clean files. -/
theorem steady_construct (params : Params) (hp : p.Clean) : (construct params p).Steady params := by
  obtain ⟨htidy, hsync, -, -, -, hthreshold, hcompact⟩ := tidy_construct params hp
  exact ⟨htidy, hsync, hthreshold, hcompact⟩

/-- It stays steady, by induction on its life. -/
theorem steady_lives (hp : p.Clean) (h : Lives params (construct params p) n) :
    n.Steady params :=
  h.invariant (steady_construct params hp) fun _ step _ hn hok hnext =>
    Option.some.inj hnext ▸ (hn.step step hok).1

/-- **Index invariants of one replica,** over its whole life and whatever the messages
say: a log without gaps, applied and commit index equal and within it, compaction never
overdue, and no index or term ever taken back. -/
theorem index_invariants (hthreshold : 1 ≤ params.snapshotThreshold) (hp : p.Clean)
    (h : Lives params (construct params p) n) :
    (∀ k e, n.log.entries[k]? = some e → e.index = n.log.lastIncludedIndex + k + 1) ∧
    (∀ k, n.log.lastIncludedIndex < k → k ≤ n.log.getLastIndex →
      ∃ e, n.log.getEntry k = some e ∧ e.index = k) ∧
    n.log.lastIncludedIndex ≤ n.lastApplied ∧ n.lastApplied = n.commitIndex ∧
    n.commitIndex ≤ n.log.getLastIndex ∧
    n.commitIndex - n.log.lastIncludedIndex < params.snapshotThreshold ∧
    ∀ step : Step, step.Orderly n →
      n.commitIndex ≤ (step.run params n).commitIndex ∧
      n.log.lastIncludedIndex ≤ (step.run params n).log.lastIncludedIndex ∧
      n.currentTerm ≤ (step.run params n).currentTerm := by
  have hn := steady_lives hp h
  refine ⟨hn.tidy.contiguous, fun k hlo hhi => ?_, hn.tidy.applied ▸ hn.tidy.boundary_le,
    hn.tidy.applied, hn.tidy.commit_le, hn.threshold ▸ hn.compacted hthreshold, ?_⟩
  · obtain ⟨e, he⟩ := RaftLog.exists_getEntry hlo hhi
    refine ⟨e, he, ?_⟩
    unfold RaftLog.getEntry at he
    rw [if_neg (by omega)] at he
    have := hn.tidy.contiguous _ e he
    omega
  · intro step hstep
    obtain ⟨-, hbound, hcommit, hterm⟩ := hn.step step hstep
    exact ⟨hcommit, hbound, hterm⟩

/-- A replica that has answered one message. -/
theorem index_invariants_strayed :
    let params : Params := ⟨"b", ["a", "c"], "b", 100, 64⟩
    let n := strayed
    (∀ k e, n.log.entries[k]? = some e → e.index = n.log.lastIncludedIndex + k + 1) ∧
    (∀ k, n.log.lastIncludedIndex < k → k ≤ n.log.getLastIndex →
      ∃ e, n.log.getEntry k = some e ∧ e.index = k) ∧
    n.log.lastIncludedIndex ≤ n.lastApplied ∧ n.lastApplied = n.commitIndex ∧
    n.commitIndex ≤ n.log.getLastIndex ∧
    n.commitIndex - n.log.lastIncludedIndex < params.snapshotThreshold ∧
    ∀ step : Step, step.Orderly n →
      n.commitIndex ≤ (step.run params n).commitIndex ∧
      n.log.lastIncludedIndex ≤ (step.run params n).log.lastIncludedIndex ∧
      n.currentTerm ≤ (step.run params n).currentTerm := by
  have hes : Consecutive straying.prevLogIndex straying.entries := by
    rintro (_ | _ | _ | k) e hk
    · obtain rfl := Option.some.inj hk
      rfl
    · obtain rfl := Option.some.inj hk
      rfl
    · obtain rfl := Option.some.inj hk
      rfl
    · simp [straying] at hk
  exact index_invariants (by decide) Persistence.clean_fresh
    (.tail .refl (e := .operate (.handle (.appendEntries straying))) hes rfl)

end RaftNode

end QuorumCanvas
