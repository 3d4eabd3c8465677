import QuorumCanvas.FullLog
import QuorumCanvas.Progress

/-!
# What node operations do to the full log

Each operation on a coherent node leaves it coherent, and at every crash point
on the way the files stand for a full log that the operation explains: the one
before, the one after, or one in between.  `Evolves G` says so for any property
`G` of full logs that the caller cares about.
-/

namespace QuorumCanvas

open Ledger (lastTerm)

namespace RaftNode

/-- A node that has loaded its files, and may still have committed entries to apply. -/
structure Loaded (n : RaftNode) : Prop where
  kept : n.persistence.WellKept
  synced : n.Synced
  log : n.log = RaftLog.ofPersistence n.persistence
  commit : n.commitIndex = n.persistence.commit
  boundary_le : n.log.lastIncludedIndex ≤ n.lastApplied
  applied_le : n.lastApplied ≤ n.commitIndex
  history : n.history = indexed (n.fullLog.take n.lastApplied)

/-- From the coherent node `n` to the coherent node `n'`, through files that meet `G`. -/
structure Evolves (T : Prop) (G : Holding) (n n' : RaftNode) : Prop where
  coherent : n'.Coherent
  spans : Spans T G n n'

variable {T : Prop} {G G' : Holding} {n n' n'' : RaftNode}

namespace Evolves

theorem refl (hn : n.Coherent) (h : G n.fullLog n.commitIndex n.currentTerm) :
    Evolves T G n n := ⟨hn, .refl (hn.meets h)⟩

theorem trans (h : Evolves T G n n') (h' : Evolves T G n' n'') : Evolves T G n n'' :=
  ⟨h'.coherent, h.spans.trans h'.spans⟩

theorem mono (h : Evolves T G n n') (himp : ∀ ℓ c b, G ℓ c b → G' ℓ c b) :
    Evolves T G' n n' := ⟨h.coherent, h.spans.mono himp⟩

end Evolves

/-! ## Applying and compacting -/

/-- A coherent node is loaded. -/
theorem Coherent.loaded (hn : n.Coherent) : n.Loaded where
  kept := hn.kept
  synced := hn.synced
  log := hn.log
  commit := hn.commit
  boundary_le := hn.applied ▸ hn.boundary_le
  applied_le := hn.applied.le
  history := hn.applied ▸ hn.history

namespace Loaded

/-- A loaded node that has applied what is committed is coherent. -/
theorem coherent (hn : n.Loaded) (h : n.commitIndex ≤ n.lastApplied) : n.Coherent where
  kept := hn.kept
  synced := hn.synced
  log := hn.log
  commit := hn.commit
  applied := le_antisymm hn.applied_le h
  history := by
    have := hn.history
    rwa [le_antisymm hn.applied_le h] at this

/-- The next committed entry is there, and is applied. -/
theorem applyNext (hn : n.Loaded) (h : n.lastApplied < n.commitIndex) :
    n.applyNext.Loaded ∧ n.applyNext.persistence = n.persistence ∧ n.applyNext.calls = n.calls ∧
      n.applyNext.commitIndex = n.commitIndex := by
  have hlt : n.lastApplied < n.fullLog.length := by
    have hle : n.commitIndex ≤ n.fullLog.length := hn.commit ▸ hn.kept.commit_le
    omega
  have hentry : n.log.getEntry (n.lastApplied + 1) = some n.fullLog[n.lastApplied] := by
    have hbound := hn.boundary_le
    unfold RaftLog.getEntry
    rw [if_neg (by omega), ← List.getElem?_eq_getElem hlt, hn.log, hn.kept.entries_eq,
      List.getElem?_drop, ← hn.log]
    congr 1
    omega
  unfold RaftNode.applyNext
  dsimp only
  rw [hentry]
  refine ⟨⟨hn.kept, ⟨hn.synced.file, hn.synced.currentTerm, hn.synced.votedFor⟩, hn.log,
    hn.commit, Nat.le_succ_of_le hn.boundary_le, h, ?_⟩, rfl, rfl, rfl⟩
  have hindex := hn.kept.inOrder n.lastApplied _ (List.getElem?_eq_getElem hlt)
  show n.history ++ [_] = indexed (n.fullLog.take (n.lastApplied + 1))
  rw [List.take_succ_eq_append_getElem hlt, indexed_append, hn.history]
  show _ = _ ++ [(n.fullLog[n.lastApplied].index, n.fullLog[n.lastApplied])]
  rw [← hindex]

theorem applyNext_iterate (hn : n.Loaded) {k : ℕ} (hk : n.lastApplied + k ≤ n.commitIndex) :
    (RaftNode.applyNext^[k] n).Loaded ∧ (RaftNode.applyNext^[k] n).persistence = n.persistence ∧
      (RaftNode.applyNext^[k] n).calls = n.calls := by
  induction k with
  | zero => exact ⟨hn, rfl, rfl⟩
  | succ k ih =>
      obtain ⟨hl, hp, hc⟩ := ih (by omega)
      have happlied : (RaftNode.applyNext^[k] n).lastApplied = n.lastApplied + k :=
        congrArg Marks.lastApplied (marks_iterate n k)
      have hcommit : (RaftNode.applyNext^[k] n).commitIndex = n.commitIndex :=
        congrArg Marks.commitIndex (marks_iterate n k)
      rw [Function.iterate_succ_apply']
      obtain ⟨hl', hp', hc', -⟩ := hl.applyNext (by omega)
      exact ⟨hl', hp'.trans hp, hc'.trans hc⟩

end Loaded

/-- The snapshot of a coherent node is well formed. -/
theorem Coherent.snapshotHere (hn : n.Coherent) :
    n.snapshotHere.WellFormed ∧ n.snapshotHere.entries = n.fullLog.take n.commitIndex := by
  have hentries : n.snapshotHere.entries = n.fullLog.take n.commitIndex := by
    show n.history.map Prod.snd = _
    rw [hn.history, map_snd_indexed]
  refine ⟨⟨?_, ?_, ?_, ?_⟩, hentries⟩
  · rw [hentries]
    exact hn.inOrder.take _
  · rw [hentries]
    exact hn.history
  · rw [hentries, List.length_take, min_eq_left hn.commit_le]
    rfl
  · rw [hentries]
    exact hn.getTermAt hn.boundary_le hn.commit_le

/-- A change of files and log that keeps what was committed. -/
theorem Coherent.of_files (hn : n.Coherent)
    (hsame : n'.currentTerm = n.currentTerm ∧ n'.votedFor = n.votedFor ∧
      n'.commitIndex = n.commitIndex ∧ n'.lastApplied = n.lastApplied ∧ n'.history = n.history)
    (hkept : n'.persistence.WellKept) (hlog : n'.log = RaftLog.ofPersistence n'.persistence)
    (hstate : n'.persistence.loadState = n.persistence.loadState)
    (hcommit : n'.persistence.commit = n.commitIndex)
    (hfull : n'.fullLog.take n.commitIndex = n.fullLog.take n.commitIndex) : n'.Coherent := by
  obtain ⟨hterm, hvote, hcommit', happlied, hhist⟩ := hsame
  refine ⟨hkept, ⟨hkept.file, ?_, ?_⟩, hlog, ?_, ?_, ?_⟩
  · rw [hstate, hterm, hn.synced.currentTerm]
  · rw [hstate, hvote, hn.synced.votedFor]
  · rw [hcommit, hcommit']
  · rw [happlied, hcommit', hn.applied]
  · rw [hhist, hcommit', hfull]
    exact hn.history

/-- The files once the snapshot of a node's own is saved. -/
theorem Coherent.saveSnapshotHere (hn : n.Coherent) :
    let p := n.persistence.run (.saveSnapshot n.snapshotHere)
    p.WellKept ∧ p.fullLog = n.fullLog ∧ p.commit = n.commitIndex ∧
      p.loadState = n.persistence.loadState ∧
      RaftLog.ofPersistence p =
        ⟨n.fullLog.drop n.commitIndex, n.commitIndex, n.log.getTermAt n.commitIndex⟩ := by
  obtain ⟨hwf, hentries⟩ := hn.snapshotHere
  have hbound : (RaftLog.ofPersistence n.persistence).lastIncludedIndex ≤ n.commitIndex :=
    hn.log ▸ hn.boundary_le
  have hsaved : n.persistence.loadState.commitIndex ≤ n.commitIndex := by
    rw [hn.commit]
    exact le_max_left _ _
  have hwhole : n.snapshotHere.entries ++ n.persistence.fullLog.drop n.commitIndex =
      n.persistence.fullLog := by
    rw [hentries]
    exact List.take_append_drop _ _
  obtain ⟨hkept, hfull, hcommit, hlog⟩ := hn.kept.saveSnapshot hwf hbound (by
    show n.persistence.loadState.commitIndex ≤ (n.snapshotHere.entries ++
      n.persistence.fullLog.drop n.commitIndex).length
    rw [hwhole]
    exact hsaved.trans hn.commit_le)
  exact ⟨hkept, hfull.trans hwhole, hcommit.trans (max_eq_right hsaved),
    by rw [Persistence.run_saveSnapshot hn.kept.file], hlog⟩

/-- A snapshot of the node's own changes nothing of what its files stand for. -/
theorem evolves_takeSnapshot (hn : n.Coherent) (h : G n.fullLog n.commitIndex n.currentTerm) :
    Evolves T G n n.takeSnapshot ∧ n.takeSnapshot.fullLog = n.fullLog := by
  obtain ⟨hkept, hfull, hcommit, hstate, hlog⟩ := hn.saveSnapshotHere
  have hlog' : n.log.compact n.commitIndex (n.log.getTermAt n.commitIndex) =
      RaftLog.ofPersistence (n.persistence.run (.saveSnapshot n.snapshotHere)) := by
    have hle := hn.boundary_le
    rw [hlog]
    unfold RaftLog.compact
    split
    · next hge =>
        have heq : n.commitIndex = n.log.lastIncludedIndex := by omega
        have hterm : n.log.getTermAt n.commitIndex = n.log.lastIncludedTerm := by
          unfold RaftLog.getTermAt
          rw [if_pos heq]
        rw [hterm, heq, ← hn.entries]
    · rw [hn.entries, List.drop_drop]
      congr 2
      omega
  have hterm : n.persistence.loadState.currentTerm = n.currentTerm := hn.synced.currentTerm
  have hmid : (n.persist (.saveSnapshot n.snapshotHere)).persistence.Meets G :=
    .of_eq h hkept hfull hcommit (hstate ▸ hterm)
  have hsave : Spans T G n (n.persist (.saveSnapshot n.snapshotHere)) :=
    .persist _ (hn.meets h) hmid
  unfold takeSnapshot compactLog
  split
  · next hle =>
      have hsame : n.log.compact n.commitIndex (n.log.getTermAt n.commitIndex) = n.log :=
        if_pos hle
      exact ⟨⟨hn.of_files ⟨rfl, rfl, rfl, rfl, rfl⟩ hkept (hsame.symm.trans hlog') hstate hcommit
        (congrArg _ hfull), hsave⟩, hfull⟩
  · obtain ⟨hkept', hfull', hcommit', hstate', hread⟩ := hkept.rewriteLog_self hlog'
    rw [hfull] at hfull'
    rw [hcommit] at hcommit'
    rw [hstate] at hstate'
    have hlast := Persistence.Meets.of_eq h hkept' hfull' hcommit' (hstate' ▸ hterm)
    exact ⟨⟨hn.of_files ⟨rfl, rfl, rfl, rfl, rfl⟩ hkept' hread.symm hstate' hcommit'
      (congrArg _ hfull'), hsave.trans ((Spans.persist _ hmid hlast).after rfl rfl)⟩, hfull'⟩

/-- **`applyCommitted`** applies what is committed and leaves the full log alone. -/
theorem Loaded.evolves_applyCommitted (hn : n.Loaded)
    (h : G n.fullLog n.commitIndex n.currentTerm) :
    n.applyCommitted.Coherent ∧ Spans T G n n.applyCommitted ∧
      n.applyCommitted.fullLog = n.fullLog := by
  obtain ⟨hl, hp, hc⟩ := hn.applyNext_iterate (k := n.commitIndex - n.lastApplied)
    (by have := hn.applied_le; omega)
  have hmarks := marks_iterate n (n.commitIndex - n.lastApplied)
  have happlied : (RaftNode.applyNext^[n.commitIndex - n.lastApplied] n).lastApplied =
      n.lastApplied + (n.commitIndex - n.lastApplied) := congrArg Marks.lastApplied hmarks
  have hcommit : (RaftNode.applyNext^[n.commitIndex - n.lastApplied] n).commitIndex =
      n.commitIndex := congrArg Marks.commitIndex hmarks
  have hterm := (quiet_applyNext_iterate n (n.commitIndex - n.lastApplied)).currentTerm
  have hcoh := hl.coherent (by omega)
  have hfull : (RaftNode.applyNext^[n.commitIndex - n.lastApplied] n).fullLog = n.fullLog :=
    congrArg Persistence.fullLog hp
  unfold applyCommitted maybeSnapshot
  have hG : G (RaftNode.applyNext^[n.commitIndex - n.lastApplied] n).fullLog
      (RaftNode.applyNext^[n.commitIndex - n.lastApplied] n).commitIndex
      (RaftNode.applyNext^[n.commitIndex - n.lastApplied] n).currentTerm := by
    rw [hfull, hcommit, hterm]
    exact h
  split
  · exact ⟨hcoh, .of_eq hc hp (hp ▸ hcoh.meets hG), hfull⟩
  · obtain ⟨⟨hcoh', hspan⟩, hfull'⟩ := evolves_takeSnapshot (T := T) hcoh hG
    exact ⟨hcoh', hspan.after hc hp, hfull'.trans hfull⟩

/-! ## State and commit index -/

/-- Saving a new term and vote. -/
theorem Coherent.evolves_persistState {m : RaftNode} (hn : n.Coherent)
    (hfiles : m.persistence = n.persistence) (hcalls : m.calls = n.calls)
    (hlog : m.log = n.log) (hsame : m.commitIndex = n.commitIndex ∧
      m.lastApplied = n.lastApplied ∧ m.history = n.history)
    (h : G n.fullLog n.commitIndex n.currentTerm) (h' : G n.fullLog n.commitIndex m.currentTerm) :
    Evolves T G n m.persistState ∧ m.persistState.fullLog = n.fullLog := by
  obtain ⟨hcommit, happlied, hhist⟩ := hsame
  have hle : m.commitIndex ≤ m.persistence.fullLog.length := by
    rw [hcommit, hfiles]
    exact hn.commit_le
  obtain ⟨hkept, hfull, hc⟩ := (hfiles ▸ hn.kept : m.persistence.WellKept).saveState
    (s := ⟨m.currentTerm, m.votedFor, m.commitIndex⟩) hle
  have hbound : (RaftLog.ofPersistence m.persistence).lastIncludedIndex ≤ m.commitIndex := by
    rw [hfiles, ← hn.log, hcommit]
    exact hn.boundary_le
  have hc := hc.trans (max_eq_left hbound)
  have hstate : (m.persistence.run
      (.saveState ⟨m.currentTerm, m.votedFor, m.commitIndex⟩)).loadState =
        ⟨m.currentTerm, m.votedFor, m.commitIndex⟩ := by
    rw [Persistence.run_saveState (hfiles ▸ hn.kept.file)]
  have hread : RaftLog.ofPersistence (m.persistence.run
      (.saveState ⟨m.currentTerm, m.votedFor, m.commitIndex⟩)) =
        RaftLog.ofPersistence m.persistence := by
    rw [Persistence.run_saveState (hfiles ▸ hn.kept.file)]
    rfl
  have hfull : m.persistState.fullLog = n.fullLog := hfull.trans (congrArg _ hfiles)
  refine ⟨⟨⟨hkept, ?_, ?_, hc.symm, ?_, ?_⟩, ?_⟩, hfull⟩
  · exact synced_persistState (hfiles ▸ hn.kept.file)
  · exact (hlog.trans (hn.log.trans (congrArg _ hfiles.symm))).trans hread.symm
  · show m.lastApplied = m.commitIndex
    rw [happlied, hcommit, hn.applied]
  · show m.history = indexed (m.persistState.fullLog.take m.commitIndex)
    rw [hfull, hhist, hcommit]
    exact hn.history
  · have hmeets : m.persistence.Meets G := hfiles ▸ hn.meets h
    refine (Spans.persist _ hmeets ?_).after hcalls hfiles
    exact .of_eq h' hkept hfull (hc.trans hcommit) (by rw [hstate])

/-- The files meet the condition at the old term, then at the new one. -/
theorem evolves_becomeFollower (hn : n.Coherent) {term : ℕ} (leaderId leaderAddr : Option String)
    (h : G n.fullLog n.commitIndex n.currentTerm) (h' : G n.fullLog n.commitIndex term) :
    Evolves T G n (n.becomeFollower term leaderId leaderAddr) ∧
      (n.becomeFollower term leaderId leaderAddr).fullLog = n.fullLog ∧
      (n.becomeFollower term leaderId leaderAddr).currentTerm = term := by
  obtain ⟨⟨hcoh, hspan⟩, hfull⟩ := hn.evolves_persistState (T := T)
    (m := { n with
      state := .follower
      currentTerm := term
      votedFor := none
      leaderId := leaderId <|> n.leaderId
      leaderAddr := leaderAddr <|> n.leaderAddr }) rfl rfl rfl ⟨rfl, rfl, rfl⟩ h h'
  unfold becomeFollower
  dsimp only
  split <;> exact ⟨⟨hcoh.of_eq rfl rfl rfl rfl rfl rfl rfl, hspan.before rfl rfl⟩, hfull, rfl⟩

/-- The commit index moves forward, and what it covers is applied. -/
theorem evolves_advanceCommit (hn : n.Coherent) {index : ℕ} (hlo : n.commitIndex ≤ index)
    (hhi : index ≤ n.fullLog.length) (h : G n.fullLog n.commitIndex n.currentTerm)
    (h' : G n.fullLog index n.currentTerm) :
    Evolves T G n (n.advanceCommit index) ∧ (n.advanceCommit index).fullLog = n.fullLog := by
  obtain ⟨hkept, hfull, hc⟩ := hn.kept.saveState (s := ⟨n.currentTerm, n.votedFor, index⟩) hhi
  have hbound : (RaftLog.ofPersistence n.persistence).lastIncludedIndex ≤ index := by
    rw [← hn.log]
    exact hn.boundary_le.trans hlo
  have hc := hc.trans (max_eq_left hbound)
  have hstate : (n.persistence.run (.saveState ⟨n.currentTerm, n.votedFor, index⟩)).loadState =
      ⟨n.currentTerm, n.votedFor, index⟩ := by
    rw [Persistence.run_saveState hn.kept.file]
  have hread : RaftLog.ofPersistence (n.persistence.run
      (.saveState ⟨n.currentTerm, n.votedFor, index⟩)) = n.log := by
    rw [Persistence.run_saveState hn.kept.file, hn.log]
    rfl
  have hmeets := Persistence.Meets.of_eq h' hkept hfull hc (by rw [hstate])
  have hloaded : ({ n with commitIndex := index } : RaftNode).persistState.Loaded := by
    refine ⟨hkept, ⟨hkept.file, ?_, ?_⟩, hread.symm, hc.symm, ?_, ?_, ?_⟩
    · exact congrArg PersistedState.currentTerm hstate
    · exact congrArg PersistedState.votedFor hstate
    · exact hn.applied ▸ hn.boundary_le
    · exact hn.applied ▸ hlo
    · show n.history = indexed (Persistence.fullLog (n.persistence.run _) |>.take n.lastApplied)
      rw [hfull, hn.applied]
      exact hn.history
  have hG : G ({ n with commitIndex := index } : RaftNode).persistState.fullLog index
      n.currentTerm := by
    show G (Persistence.fullLog (n.persistence.run _)) index n.currentTerm
    rw [hfull]
    exact h'
  obtain ⟨hcoh, hspan, hfull'⟩ := hloaded.evolves_applyCommitted (T := T) hG
  exact ⟨⟨hcoh, (Spans.after (Spans.persist _ (hn.meets h) hmeets) rfl rfl).trans hspan⟩,
    hfull'.trans hfull⟩

/-- `followCommit` commits up to the end of the log at most. -/
theorem evolves_followCommit (hn : n.Coherent) (leaderCommit : ℕ)
    (h : G n.fullLog n.commitIndex n.currentTerm)
    (h' : n.commitIndex < leaderCommit →
      G n.fullLog (min leaderCommit n.fullLog.length) n.currentTerm) :
    Evolves T G n (n.followCommit leaderCommit) ∧
      (n.followCommit leaderCommit).fullLog = n.fullLog := by
  unfold followCommit
  split
  · next hlt =>
      rw [hn.getLastIndex]
      exact evolves_advanceCommit hn (le_min hlt.le hn.commit_le) (min_le_right _ _) h (h' hlt)
  · exact ⟨.refl hn h, rfl⟩

/-! ## Appending and cutting -/

/-- The next entry is appended. -/
theorem evolves_appendLog (hn : n.Coherent) {e : LogEntry} (he : e.index = n.fullLog.length + 1)
    (h : G n.fullLog n.commitIndex n.currentTerm)
    (h' : G (n.fullLog ++ [e]) n.commitIndex n.currentTerm) :
    Evolves T G n (n.appendLog e) ∧ (n.appendLog e).fullLog = n.fullLog ++ [e] := by
  obtain ⟨hkept, hfull, hcommit, hread⟩ := hn.kept.appendLog he
  have hstate : (n.persistence.run (.appendLog e)).loadState = n.persistence.loadState := by
    rw [Persistence.run_appendLog hn.kept.file]
  have hcommit := hcommit.trans hn.commit.symm
  have hmeets := Persistence.Meets.of_eq h' hkept hfull hcommit (hstate ▸ hn.synced.currentTerm)
  refine ⟨⟨hn.of_files ⟨rfl, rfl, rfl, rfl, rfl⟩ hkept ?_ hstate hcommit ?_,
    (Spans.persist _ (hn.meets h) hmeets).after rfl rfl⟩, hfull⟩
  · exact (congrArg (RaftLog.append · e) hn.log).trans hread.symm
  · show (Persistence.fullLog (n.persistence.run _)).take _ = _
    rw [hfull]
    exact List.take_append_of_le_length hn.commit_le

/-- The log is cut behind the commit index. -/
theorem evolves_truncateFrom (hn : n.Coherent) {i : ℕ} (hi : n.commitIndex ≤ i)
    (h : G n.fullLog n.commitIndex n.currentTerm)
    (h' : G (n.fullLog.take i) n.commitIndex n.currentTerm) :
    Evolves T G n (n.truncateFrom (i + 1)) ∧
      (n.truncateFrom (i + 1)).fullLog = n.fullLog.take i := by
  have hle := hn.boundary_le
  unfold truncateFrom
  split
  · next hrange =>
      obtain ⟨hkept, hfull, hcommit, hread⟩ := hn.kept.rewriteLog_take (m := i) (hn.commit ▸ hi)
      have hentries : (RaftLog.ofPersistence n.persistence).entries.take
          (i - (RaftLog.ofPersistence n.persistence).lastIncludedIndex) =
            (n.log.truncateFrom (i + 1)).entries := by
        unfold RaftLog.truncateFrom
        rw [if_pos hrange, ← hn.log]
        show _ = n.log.entries.take _
        congr 1
        omega
      rw [hentries] at hkept hfull hcommit hread
      have hstate : (n.persistence.run (.rewriteLog (n.log.truncateFrom (i + 1)).entries)).loadState
          = n.persistence.loadState := by
        rw [Persistence.run_rewriteLog hn.kept.file]
      have hcommit := hcommit.trans hn.commit.symm
      have hmeets := Persistence.Meets.of_eq h' hkept hfull hcommit
        (hstate ▸ hn.synced.currentTerm)
      refine ⟨⟨hn.of_files ⟨rfl, rfl, rfl, rfl, rfl⟩ hkept ?_ hstate hcommit ?_,
        (Spans.persist _ (hn.meets h) hmeets).after rfl rfl⟩, hfull⟩
      · refine Eq.trans ?_ hread.symm
        show n.log.truncateFrom (i + 1) = _
        rw [← hn.log]
        unfold RaftLog.truncateFrom
        rw [if_pos hrange]
      · show (Persistence.fullLog (n.persistence.run _)).take _ = _
        rw [hfull, List.take_take, min_eq_left hi]
        rfl
  · next hrange =>
      have hlast := hn.getLastIndex
      have hall : n.fullLog.take i = n.fullLog := by
        refine List.take_of_length_le ?_
        unfold RaftLog.inRange at hrange
        omega
      rw [hall]
      exact ⟨.refl hn h, rfl⟩

/-! ## Splicing entries in -/

/-- Whether entries stand under consecutive indices, from `i + 1` on. -/
def Consecutive (i : ℕ) (es : List LogEntry) : Prop :=
  ∀ k e, es[k]? = some e → e.index = i + k + 1

/-- The entries behind the first are consecutive as well. -/
theorem Consecutive.tail {i : ℕ} {e : LogEntry} {es : List LogEntry}
    (h : Consecutive i (e :: es)) : e.index = i + 1 ∧ Consecutive (i + 1) es := by
  refine ⟨h 0 e rfl, fun k e' hk => ?_⟩
  have := h (k + 1) e' hk
  omega

/-- What splicing in entry `e` may rely on and must keep: `J i ℓ` says that the
message has been dealt with up to index `i`, with full log `ℓ`. -/
structure Splicing (commit : ℕ) (J : ℕ → List LogEntry → Prop) (e : LogEntry) (i : ℕ) : Prop where
  /-- the entry is committed already -/
  kept : ∀ ℓ, J i ℓ → i < commit → J (i + 1) ℓ
  /-- an entry of its term is there -/
  same : ∀ ℓ e', J i ℓ → ℓ[i]? = some e' → e'.term = e.term → J (i + 1) ℓ
  /-- an entry of another term is there -/
  drop : ∀ ℓ e', J i ℓ → ℓ[i]? = some e' → e'.term ≠ e.term → commit ≤ i → J i (ℓ.take i)
  /-- the log ends before it -/
  add : ∀ ℓ, J i ℓ → ℓ.length = i → J (i + 1) (ℓ ++ [e])

/-- **One entry** is found, appended, or put in place of a conflicting tail. -/
theorem evolves_splice (hn : n.Coherent) {J : ℕ → List LogEntry → Prop} {e : LogEntry} {i : ℕ}
    (he : e.index = i + 1) (hi : i ≤ n.fullLog.length) (hbound : n.log.lastIncludedIndex ≤ i)
    (hJ : J i n.fullLog) (hs : Splicing n.commitIndex J e i)
    (hno : ¬ (n.conflicts e ∧ e.index ≤ n.commitIndex))
    (hG : ∀ j ℓ, J j ℓ → n.commitIndex ≤ ℓ.length → G ℓ n.commitIndex n.currentTerm) :
    Evolves T G n ((n.dropConflict e).appendMissing e) ∧
      J (i + 1) ((n.dropConflict e).appendMissing e).fullLog ∧
      i + 1 ≤ ((n.dropConflict e).appendMissing e).fullLog.length := by
  have hget : n.log.getEntry e.index = n.fullLog[i]? := by
    rw [he, hn.getEntry (by omega)]
    rfl
  have hGn := hG i n.fullLog hJ hn.commit_le
  -- the entry comes right behind the log
  have happend : ∀ m : RaftNode, m.Coherent → Spans T G n m → J i m.fullLog →
      m.fullLog.length = i → m.commitIndex = n.commitIndex → m.currentTerm = n.currentTerm →
      m.log.getEntry e.index = none →
      Evolves T G n (m.appendMissing e) ∧ J (i + 1) (m.appendMissing e).fullLog ∧
        i + 1 ≤ (m.appendMissing e).fullLog.length := by
    intro m hm hspan hJm hlen hcommit hterm hnone
    have hJ' := hs.add _ hJm hlen
    unfold appendMissing
    rw [hnone, if_pos Option.isNone_none]
    obtain ⟨⟨hcoh, hspan'⟩, hfull⟩ := evolves_appendLog (T := T) (G := G) hm
      (by rw [he, hlen])
      (hcommit ▸ hterm ▸ hG i _ hJm (hcommit ▸ hm.commit_le))
      (hcommit ▸ hterm ▸ hG (i + 1) _ hJ' (by
        have := hm.commit_le
        rw [List.length_append]
        omega))
    refine ⟨⟨hcoh, hspan.trans hspan'⟩, ?_, ?_⟩
    · rw [hfull]
      exact hJ'
    · rw [hfull, List.length_append, hlen]
      exact le_rfl
  cases hat : n.fullLog[i]? with
  | none =>
      have hlen : n.fullLog.length = i := by
        have := List.getElem?_eq_none_iff.mp hat
        omega
      have hsame : n.dropConflict e = n := by
        unfold dropConflict conflicts
        rw [hget, hat]
        rfl
      rw [hsame]
      exact happend n hn (.refl (hn.meets hGn)) hJ hlen rfl rfl (hget.trans hat)
  | some e' =>
      by_cases hterm : e'.term = e.term
      · have hsame : (n.dropConflict e).appendMissing e = n := by
          have hdrop : n.dropConflict e = n := by
            unfold dropConflict conflicts
            rw [hget, hat]
            simp [hterm]
          rw [hdrop]
          unfold appendMissing
          rw [hget, hat]
          rfl
        rw [hsame]
        refine ⟨.refl hn hGn, hs.same _ e' hJ hat hterm, ?_⟩
        exact (List.getElem?_eq_some_iff.mp hat).1
      · have hconf : n.conflicts e = true := by
          unfold conflicts
          rw [hget, hat]
          simpa using hterm
        have hlate : n.commitIndex ≤ i := by
          by_contra hlt
          exact hno ⟨hconf, by omega⟩
        have hJ' := hs.drop _ e' hJ hat hterm hlate
        have hlen : (n.fullLog.take i).length = i := by
          rw [List.length_take]
          omega
        have hdrop : n.dropConflict e = n.truncateFrom (i + 1) := by
          unfold dropConflict
          rw [if_pos hconf, he]
        obtain ⟨⟨hcoh, hspan⟩, hfull⟩ := evolves_truncateFrom (T := T) (G := G) hn hlate hGn
          (hG i _ hJ' (by rw [hlen]; exact hlate))
        have hframe := quiet_truncateFrom n (i + 1)
        have hindices : (n.truncateFrom (i + 1)).commitIndex = n.commitIndex ∧
            (n.truncateFrom (i + 1)).log.lastIncludedIndex = n.log.lastIncludedIndex := by
          unfold truncateFrom
          split
          · refine ⟨rfl, ?_⟩
            show (n.log.truncateFrom (i + 1)).lastIncludedIndex = _
            unfold RaftLog.truncateFrom
            split <;> rfl
          · exact ⟨rfl, rfl⟩
        rw [hdrop]
        refine happend _ hcoh hspan (hfull ▸ hJ') (hfull ▸ hlen) hindices.1 hframe.currentTerm ?_
        rw [he, hcoh.getEntry (by omega), hfull]
        exact List.getElem?_eq_none (by rw [hlen]; exact le_rfl)

/-- Splicing leaves boundary, commit index and term alone. -/
theorem splice_frame (n : RaftNode) (e : LogEntry) :
    ((n.dropConflict e).appendMissing e).log.lastIncludedIndex = n.log.lastIncludedIndex ∧
      ((n.dropConflict e).appendMissing e).commitIndex = n.commitIndex ∧
      ((n.dropConflict e).appendMissing e).currentTerm = n.currentTerm := by
  exact ⟨congrArg Marks.boundary (marks_splice n e), commitIndex_of_marks (marks_splice n e),
    ((quiet_dropConflict n e).trans (quiet_appendMissing _ e)).currentTerm⟩

/-- What a whole message may rely on and must keep, from index `i` on. -/
def Splices (commit : ℕ) (J : ℕ → List LogEntry → Prop) (i : ℕ) (es : List LogEntry) : Prop :=
  ∀ k e, es[k]? = some e → Splicing commit J e (i + k)

/-- So are the conditions on them. -/
theorem Splices.tail {commit i : ℕ} {J : ℕ → List LogEntry → Prop} {e : LogEntry}
    {es : List LogEntry} (h : Splices commit J i (e :: es)) :
    Splicing commit J e i ∧ Splices commit J (i + 1) es := by
  refine ⟨h 0 e rfl, fun k e' hk => ?_⟩
  have := h (k + 1) e' hk
  rwa [Nat.add_right_comm i 1 k]

/-- **The loop of `handleAppendEntries`.** -/
theorem evolves_appendEntriesLoop {J : ℕ → List LogEntry → Prop} {es : List LogEntry} {i li : ℕ}
    (hn : n.Coherent) (hli : n.log.lastIncludedIndex = li) (hes : Consecutive i es)
    (hi : i ≤ n.fullLog.length) (hJ : J i n.fullLog) (hs : Splices n.commitIndex J i es)
    (hG : ∀ j ℓ, J j ℓ → n.commitIndex ≤ ℓ.length → G ℓ n.commitIndex n.currentTerm) :
    Evolves T G n (n.appendEntriesLoop li es).1 ∧
      (∃ j, J j (n.appendEntriesLoop li es).1.fullLog) ∧
      ((n.appendEntriesLoop li es).2 = true →
        J (i + es.length) (n.appendEntriesLoop li es).1.fullLog ∧
          i + es.length ≤ (n.appendEntriesLoop li es).1.fullLog.length) := by
  induction es generalizing n i with
  | nil => exact ⟨.refl hn (hG i _ hJ hn.commit_le), ⟨i, hJ⟩, fun _ => ⟨hJ, hi⟩⟩
  | cons e rest ih =>
      obtain ⟨he, hrest⟩ := hes.tail
      obtain ⟨hse, hsrest⟩ := hs.tail
      have hle := hn.boundary_le
      have hlen : i + (e :: rest).length = i + 1 + rest.length := by
        simp only [List.length_cons]
        omega
      rw [hlen]
      unfold appendEntriesLoop
      split
      · next hcovered =>
          have hcommitted : i < n.commitIndex := by omega
          exact ih hn hli hrest (hcommitted.trans_le hn.commit_le) (hse.kept _ hJ hcommitted)
            hsrest hG
      · next hbeyond =>
          by_cases hno : n.conflicts e ∧ e.index ≤ n.commitIndex
          · have hnone : n.spliceEntry e = none := if_pos hno
            rw [hnone]
            exact ⟨.refl hn (hG i _ hJ hn.commit_le), ⟨i, hJ⟩, fun h => by cases h⟩
          · have hsome : n.spliceEntry e = some ((n.dropConflict e).appendMissing e) := if_neg hno
            rw [hsome]
            obtain ⟨hev, hJ', hi'⟩ := evolves_splice (T := T) hn he hi (by omega) hJ hse hno hG
            obtain ⟨hli', hcommit, hterm⟩ := splice_frame n e
            obtain ⟨hev', hrest'⟩ := ih hev.coherent (hli'.trans hli) hrest hi' hJ'
              (hcommit.symm ▸ hsrest) (hcommit.symm ▸ hterm.symm ▸ hG)
            exact ⟨hev.trans hev', hrest'⟩

/-- **The loop of `requestCatchUp`.** -/
theorem evolves_catchUpLoop {J : ℕ → List LogEntry → Prop} {es : List LogEntry} {i li : ℕ}
    (hn : n.Coherent) (hli : n.log.lastIncludedIndex = li) (hes : Consecutive i es)
    (hi : i ≤ n.fullLog.length) (hJ : J i n.fullLog) (hs : Splices n.commitIndex J i es)
    (hG : ∀ j ℓ, J j ℓ → n.commitIndex ≤ ℓ.length → G ℓ n.commitIndex n.currentTerm) :
    Evolves T G n (n.catchUpLoop li es) ∧
      J (i + es.length) (n.catchUpLoop li es).fullLog ∧
      i + es.length ≤ (n.catchUpLoop li es).fullLog.length := by
  induction es generalizing n i with
  | nil => exact ⟨.refl hn (hG i _ hJ hn.commit_le), hJ, hi⟩
  | cons e rest ih =>
      obtain ⟨he, hrest⟩ := hes.tail
      obtain ⟨hse, hsrest⟩ := hs.tail
      have hle := hn.boundary_le
      have hlen : i + (e :: rest).length = i + 1 + rest.length := by
        simp only [List.length_cons]
        omega
      -- a committed entry changes nothing, whatever the message says
      have hskip : i < n.commitIndex → Evolves T G n (n.catchUpLoop li rest) ∧
          J (i + 1 + rest.length) (n.catchUpLoop li rest).fullLog ∧
          i + 1 + rest.length ≤ (n.catchUpLoop li rest).fullLog.length := fun hcommitted =>
        ih hn hli hrest (hcommitted.trans_le hn.commit_le) (hse.kept _ hJ hcommitted) hsrest hG
      rw [hlen]
      unfold catchUpLoop
      split
      · exact hskip (by omega)
      · next hbeyond =>
          by_cases hno : n.conflicts e ∧ e.index ≤ n.commitIndex
          · have hnone : n.spliceEntry e = none := if_pos hno
            rw [hnone]
            exact hskip (by omega)
          · have hsome : n.spliceEntry e = some ((n.dropConflict e).appendMissing e) := if_neg hno
            rw [hsome]
            obtain ⟨hev, hJ', hi'⟩ := evolves_splice (T := T) hn he hi (by omega) hJ hse hno hG
            obtain ⟨hli', hcommit, hterm⟩ := splice_frame n e
            obtain ⟨hev', hrest'⟩ := ih hev.coherent (hli'.trans hli) hrest hi' hJ'
              (hcommit.symm ▸ hsrest) (hcommit.symm ▸ hterm.symm ▸ hG)
            exact ⟨hev.trans hev', hrest'⟩

/-! ## Snapshots of other replicas -/

/-- The files of `applySnapshot` at its crash points: untouched, torn, and
holding the snapshot.  A torn log file does no harm when all it lost was either
uncommitted or covered by the old snapshot. -/
theorem evolves_applySnapshot (hn : n.Coherent) {s : Snapshot} (hs : s.WellFormed)
    (hahead : n.commitIndex < s.lastIncludedIndex)
    (h : G n.fullLog n.commitIndex n.currentTerm)
    (h' : G (s.entries ++ n.fullLog.drop s.lastIncludedIndex) s.lastIncludedIndex n.currentTerm)
    (htorn : T ∨ n.commitIndex = n.log.lastIncludedIndex ∧
      n.log.getLastIndex ≤ s.lastIncludedIndex ∧
        G (n.fullLog.take n.commitIndex) n.commitIndex n.currentTerm) :
    Evolves T G n (n.applySnapshot s) ∧
      (n.applySnapshot s).fullLog = s.entries ++ n.fullLog.drop s.lastIncludedIndex := by
  obtain ⟨hkept, hfull, hcommit, hstate, hlog⟩ := hn.kept.install hs (hn.commit ▸ hahead)
  have hbound := hn.boundary_le
  have hentries : (n.log.installSnapshot s.lastIncludedIndex s.lastIncludedTerm).entries =
      n.persistence.fullLog.drop s.lastIncludedIndex := by
    show n.log.entries.filter _ = _
    rw [hn.entries]
    exact hn.inOrder.filter_drop (by omega)
  -- the files before and after the last call
  let p₂ := (n.persistence.run (.rewriteLog (n.persistence.fullLog.drop s.lastIncludedIndex))).run
    (.saveSnapshot s)
  have hmeets₂ : p₂.Meets G :=
    .of_eq h' hkept hfull hcommit (hstate ▸ hn.synced.currentTerm)
  have hlong : s.lastIncludedIndex ≤ p₂.fullLog.length := hcommit.symm.le.trans hkept.commit_le
  obtain ⟨hkept₃, hfull₃, hcommit₃⟩ := hkept.saveState
    (s := ⟨n.currentTerm, n.votedFor, s.lastIncludedIndex⟩) hlong
  have hfull₃ := hfull₃.trans hfull
  have hcommit₃ := hcommit₃.trans (by rw [hlog, max_self])
  have hstate₃ : (p₂.run (.saveState ⟨n.currentTerm, n.votedFor, s.lastIncludedIndex⟩)).loadState =
      ⟨n.currentTerm, n.votedFor, s.lastIncludedIndex⟩ := by
    rw [Persistence.run_saveState hkept.file]
  have hread₃ : RaftLog.ofPersistence
      (p₂.run (.saveState ⟨n.currentTerm, n.votedFor, s.lastIncludedIndex⟩)) =
        n.log.installSnapshot s.lastIncludedIndex s.lastIncludedTerm := by
    rw [Persistence.run_saveState hkept.file]
    refine Eq.trans ?_ (hlog.trans ?_)
    · rfl
    · exact congrArg (RaftLog.mk · s.lastIncludedIndex s.lastIncludedTerm) hentries.symm
  have hmeets₃ := Persistence.Meets.of_eq h' hkept₃ hfull₃ hcommit₃ (by rw [hstate₃])
  have hcalls : (n.applySnapshot s).calls = n.calls ++
      [.rewriteLog (n.persistence.fullLog.drop s.lastIncludedIndex), .saveSnapshot s,
        .saveState ⟨n.currentTerm, n.votedFor, s.lastIncludedIndex⟩] := by
    rw [← hentries]
    simp [applySnapshot, installLog, restoreBoardState, setBoundary, persist, persistState]
  have hfiles : (n.applySnapshot s).persistence =
      p₂.run (.saveState ⟨n.currentTerm, n.votedFor, s.lastIncludedIndex⟩) := by
    have hrun : (n.applySnapshot s).persistence = ((n.persistence.run (.rewriteLog
        (n.log.installSnapshot s.lastIncludedIndex s.lastIncludedTerm).entries)).run
          (.saveSnapshot s)).run
            (.saveState ⟨n.currentTerm, n.votedFor, s.lastIncludedIndex⟩) := rfl
    rw [hrun, hentries]
  have hresult : (n.applySnapshot s).fullLog = s.entries ++ n.fullLog.drop s.lastIncludedIndex := by
    unfold fullLog
    rw [hfiles]
    exact hfull₃
  refine ⟨⟨?_, _, hcalls, hfiles, fun k hk => ?_⟩, hresult⟩
  · refine ⟨hfiles ▸ hkept₃, ⟨hfiles ▸ hkept₃.file, ?_, ?_⟩, ?_, ?_, rfl, ?_⟩
    · rw [hfiles, hstate₃]
      rfl
    · rw [hfiles, hstate₃]
      rfl
    · rw [hfiles, hread₃]
      rfl
    · rw [hfiles, hcommit₃]
      rfl
    · rw [hresult]
      show s.covered = indexed ((s.entries ++ _).take s.lastIncludedIndex)
      rw [← hs.boundary, List.take_left]
      exact hs.covered
  · rcases k with _ | _ | _ | k
    · exact hn.meets h
    · -- the torn point
      rcases htorn with ht | ⟨hc, hlast, hG⟩
      · exact absurd ⟨ht, ⟨_, rfl⟩, _, rfl⟩ hk
      · obtain ⟨hkept₁, hfull₁, hcommit₁, hstate₁⟩ := hn.kept.torn
          (m := s.lastIncludedIndex) (hn.getLastIndex ▸ hlast)
          (by rw [← hn.commit, hc, hn.log])
        rw [← hn.commit] at hfull₁ hcommit₁
        exact .of_eq hG hkept₁ hfull₁ hcommit₁ (hstate₁ ▸ hn.synced.currentTerm)
    · exact hmeets₂
    · simpa [Persistence.replay] using hmeets₃

/-! ## Handlers -/

/-- Stepping down keeps the log. -/
theorem becomeFollower_log (n : RaftNode) (term : ℕ) (leaderId leaderAddr : Option String) :
    (n.becomeFollower term leaderId leaderAddr).log = n.log := by
  unfold becomeFollower
  dsimp only
  split <;> rfl

/-- Hearing from a leader keeps it. -/
theorem hearLeader_log (n : RaftNode) (term : ℕ) (leaderId : String)
    (leaderAddr : Option String) : (n.hearLeader term leaderId leaderAddr).log = n.log := by
  unfold hearLeader
  split
  · exact becomeFollower_log n _ _ _
  · rfl

/-- A candidate's own vote is saved with the next term. -/
theorem evolves_becomeCandidate (hn : n.Coherent) (h : G n.fullLog n.commitIndex n.currentTerm)
    (h' : G n.fullLog n.commitIndex (n.currentTerm + 1)) :
    Evolves T G n n.becomeCandidate ∧ n.becomeCandidate.fullLog = n.fullLog :=
  hn.evolves_persistState (m := { n with
    state := .candidate
    currentTerm := n.currentTerm + 1
    votedFor := some n.replicaId
    leaderId := none }) rfl rfl rfl ⟨rfl, rfl, rfl⟩ h h'

theorem evolves_ite_becomeFollower (hn : n.Coherent) {term : ℕ}
    (h : G n.fullLog n.commitIndex n.currentTerm)
    (h' : n.currentTerm < term → G n.fullLog n.commitIndex term) :
    Evolves T G n (if n.currentTerm < term then n.becomeFollower term none none else n) ∧
      (if n.currentTerm < term then n.becomeFollower term none none else n).fullLog = n.fullLog ∧
      (if n.currentTerm < term then n.becomeFollower term none none else n).currentTerm =
        max n.currentTerm term := by
  split
  · next hlt =>
      obtain ⟨hev, hfull, hterm⟩ := evolves_becomeFollower (T := T) hn none none h (h' hlt)
      exact ⟨hev, hfull, hterm.trans (by omega)⟩
  · next hge => exact ⟨.refl hn h, rfl, by omega⟩

/-- A leader's term is saved, if it is later. -/
theorem evolves_hearLeader (hn : n.Coherent) {term : ℕ} (leaderId : String)
    (leaderAddr : Option String) (hle : n.currentTerm ≤ term)
    (h : G n.fullLog n.commitIndex n.currentTerm) (h' : G n.fullLog n.commitIndex term) :
    Evolves T G n (n.hearLeader term leaderId leaderAddr) ∧
      (n.hearLeader term leaderId leaderAddr).fullLog = n.fullLog ∧
      (n.hearLeader term leaderId leaderAddr).currentTerm = term := by
  unfold hearLeader
  split
  · exact evolves_becomeFollower hn _ _ h h'
  · next hsame =>
      exact ⟨⟨hn.of_eq rfl rfl rfl rfl rfl rfl rfl, .of_eq rfl rfl (hn.meets h)⟩, rfl,
        by show n.currentTerm = term; omega⟩

/-- A vote is saved before it is given. -/
theorem evolves_handleRequestVote (hn : n.Coherent) (args : RequestVoteArgs)
    (h : G n.fullLog n.commitIndex n.currentTerm)
    (h' : n.currentTerm < args.term → G n.fullLog n.commitIndex args.term) :
    Evolves T G n (n.handleRequestVote args).1 ∧
      (n.handleRequestVote args).1.fullLog = n.fullLog := by
  obtain ⟨hev, hfull, hterm⟩ := evolves_ite_becomeFollower (T := T) hn h h'
  have hcommit := commitIndex_of_marks (marks_ite_becomeFollower n args.term)
  unfold handleRequestVote
  dsimp only
  generalize (if n.currentTerm < args.term then n.becomeFollower args.term none none else n) = m
    at hev hfull hterm hcommit
  have hG : G m.fullLog m.commitIndex m.currentTerm := by
    rw [hfull, hcommit, hterm]
    rcases Nat.lt_or_ge n.currentTerm args.term with hlt | hge
    · rw [max_eq_right hlt.le]
      exact h' hlt
    · rwa [max_eq_left hge]
  split
  · next hcan =>
      simp only [Bool.and_eq_true, decide_eq_true_eq] at hcan
      have hsame : args.term = m.currentTerm := by omega
      obtain ⟨⟨hcoh, hspan⟩, hfull'⟩ := hev.coherent.evolves_persistState (T := T)
        (m := { m with
          votedFor := some args.candidateId
          currentTerm := args.term }) rfl rfl rfl ⟨rfl, rfl, rfl⟩ hG (by
            show G m.fullLog m.commitIndex args.term
            rw [hsame]
            exact hG)
      exact ⟨⟨hcoh.of_eq rfl rfl rfl rfl rfl rfl rfl, (hev.spans.trans hspan).before rfl rfl⟩,
        hfull'.trans hfull⟩
  · exact ⟨hev, hfull⟩

/-- What the consistency check of `handleAppendEntries` establishes. -/
theorem Coherent.consistent (hn : n.Coherent) {args : AppendEntriesArgs}
    (h : n.consistent args = true) :
    args.prevLogIndex ≤ n.commitIndex ∨ 0 < args.prevLogIndex ∧
      ∃ e, n.fullLog[args.prevLogIndex - 1]? = some e ∧ e.term = args.prevLogTerm := by
  unfold RaftNode.consistent at h
  dsimp only at h
  split at h
  · next hlt =>
      rw [hn.getEntry hlt] at h
      split at h
      · next e he => exact Or.inr ⟨by omega, e, he, by simpa using h⟩
      · cases h
  · next hle => exact Or.inl ((Nat.not_lt.mp hle).trans hn.boundary_le)

/-- **`handleAppendEntries`.** -/
theorem evolves_handleAppendEntries (hn : n.Coherent) {args : AppendEntriesArgs}
    {J : ℕ → List LogEntry → Prop} (hes : Consecutive args.prevLogIndex args.entries)
    (h : G n.fullLog n.commitIndex n.currentTerm)
    (hhear : n.currentTerm ≤ args.term → G n.fullLog n.commitIndex args.term)
    (hstart : n.currentTerm ≤ args.term → (args.prevLogIndex ≤ n.commitIndex ∨
      0 < args.prevLogIndex ∧ ∃ e, n.fullLog[args.prevLogIndex - 1]? = some e ∧
        e.term = args.prevLogTerm) → J args.prevLogIndex n.fullLog)
    (hs : n.currentTerm ≤ args.term → Splices n.commitIndex J args.prevLogIndex args.entries)
    (hG : ∀ j ℓ, J j ℓ → n.commitIndex ≤ ℓ.length → G ℓ n.commitIndex args.term)
    (hcommit : ∀ ℓ, J (args.prevLogIndex + args.entries.length) ℓ →
      args.prevLogIndex + args.entries.length ≤ ℓ.length → n.commitIndex < args.leaderCommit →
      G ℓ (min args.leaderCommit ℓ.length) args.term) :
    Evolves T G n (n.handleAppendEntries args).1 ∧
      ((n.handleAppendEntries args).2.success = true → n.currentTerm ≤ args.term ∧
        J (args.prevLogIndex + args.entries.length) (n.handleAppendEntries args).1.fullLog ∧
        args.prevLogIndex + args.entries.length ≤
          (n.handleAppendEntries args).1.fullLog.length) := by
  unfold handleAppendEntries
  split
  · exact ⟨.refl hn h, fun hf => by cases hf⟩
  · next hge =>
      have hle := Nat.not_lt.mp hge
      obtain ⟨hev, hfull, hterm⟩ := evolves_hearLeader (T := T) hn args.leaderId
        args.leaderAddr hle h (hhear hle)
      have hci := commitIndex_of_marks
        (marks_hearLeader n args.term args.leaderId args.leaderAddr)
      dsimp only
      generalize n.hearLeader args.term args.leaderId args.leaderAddr = m at *
      have hm := hev.coherent
      split
      · next hcons =>
          have hprev := hm.consistent hcons
          rw [hfull, hci] at hprev
          have hlen : args.prevLogIndex ≤ m.fullLog.length := by
            rw [hfull]
            rcases hprev with hc | ⟨hpos, e, he, -⟩
            · exact hc.trans hn.commit_le
            · have := (List.getElem?_eq_some_iff.mp he).1
              omega
          have hloop := evolves_appendEntriesLoop (T := T) (G := G) (J := J) hm rfl hes hlen
            (hfull ▸ hstart hle hprev) (hci ▸ hs hle) (hci ▸ hterm ▸ hG)
          have hframe := commitIndex_of_marks
            (marks_appendEntriesLoop m m.log.lastIncludedIndex args.entries)
          have hquiet := quiet_appendEntriesLoop (n := m) m.log.lastIncludedIndex args.entries
          obtain ⟨hev', ⟨j, hJ⟩, hdone⟩ := hloop
          split
          · next m' heq =>
              rw [heq] at hframe hquiet hev' hJ hdone
              obtain ⟨hJ', hlen'⟩ := hdone rfl
              have hc' : m'.commitIndex = n.commitIndex := hframe.trans hci
              have ht' : m'.currentTerm = args.term := hquiet.currentTerm.trans hterm
              obtain ⟨hev'', hfull''⟩ := evolves_followCommit (T := T) (G := G) hev'.coherent
                args.leaderCommit
                (by rw [hc', ht']; exact hG j _ hJ (hc' ▸ hev'.coherent.commit_le))
                (by rw [hc', ht']; exact hcommit _ hJ' hlen')
              refine ⟨(hev.trans hev').trans hev'', fun _ => ⟨hle, ?_, ?_⟩⟩
              · rw [hfull'']
                exact hJ'
              · rw [hfull'']
                exact hlen'
          · next m' heq =>
              rw [heq] at hev'
              exact ⟨hev.trans hev', fun hf => by cases hf⟩
      · exact ⟨hev, fun hf => by cases hf⟩

/-- A heartbeat moves the commit index, at most to the end of the log. -/
theorem evolves_handleHeartbeat (hn : n.Coherent) {args : HeartbeatArgs}
    (h : G n.fullLog n.commitIndex n.currentTerm)
    (hhear : n.currentTerm ≤ args.term → G n.fullLog n.commitIndex args.term)
    (hcommit : n.currentTerm ≤ args.term → n.commitIndex < args.leaderCommit →
      G n.fullLog (min args.leaderCommit n.fullLog.length) args.term) :
    Evolves T G n (n.handleHeartbeat args).1 ∧
      (n.handleHeartbeat args).1.fullLog = n.fullLog := by
  unfold handleHeartbeat
  split
  · exact ⟨.refl hn h, rfl⟩
  · next hge =>
      have hle := Nat.not_lt.mp hge
      obtain ⟨hev, hfull, hterm⟩ := evolves_hearLeader (T := T) hn args.leaderId
        args.leaderAddr hle h (hhear hle)
      have hci := commitIndex_of_marks
        (marks_hearLeader n args.term args.leaderId args.leaderAddr)
      dsimp only
      generalize n.hearLeader args.term args.leaderId args.leaderAddr = m at *
      obtain ⟨hev', hfull'⟩ := evolves_followCommit (T := T) (G := G) hev.coherent
        args.leaderCommit (by rw [hfull, hci, hterm]; exact hhear hle)
        (by rw [hfull, hci, hterm]; exact hcommit hle)
      exact ⟨hev.trans hev', hfull'.trans hfull⟩

/-- A catch-up may bring a later term. -/
theorem evolves_handleSyncLog (hn : n.Coherent) (args : SyncLogArgs)
    (h : G n.fullLog n.commitIndex n.currentTerm)
    (h' : n.currentTerm < args.term → G n.fullLog n.commitIndex args.term) :
    Evolves T G n (n.handleSyncLog args).1 ∧
      (n.handleSyncLog args).1.fullLog = n.fullLog := by
  obtain ⟨hev, hfull, -⟩ := evolves_ite_becomeFollower (T := T) hn h h'
  unfold handleSyncLog
  dsimp only
  split <;> exact ⟨hev, hfull⟩

/-- A snapshot that a node can take over: `s` is well formed, and the node and
its files hold what `G` says before and after. -/
structure Installable (T : Prop) (G : Holding) (n : RaftNode) (b : ℕ) (s : Snapshot) : Prop where
  wellFormed : s.WellFormed
  holds : G (s.entries ++ n.fullLog.drop s.lastIncludedIndex) s.lastIncludedIndex b
  torn : T ∨ n.commitIndex = n.log.lastIncludedIndex ∧
    n.log.getLastIndex ≤ s.lastIncludedIndex ∧ G (n.fullLog.take n.commitIndex) n.commitIndex b

/-- A snapshot that can be installed, if it is ahead. -/
theorem evolves_handleInstallSnapshot (hn : n.Coherent) {args : InstallSnapshotArgs}
    (h : G n.fullLog n.commitIndex n.currentTerm)
    (hhear : n.currentTerm ≤ args.term → G n.fullLog n.commitIndex args.term)
    (hs : n.currentTerm ≤ args.term → n.commitIndex < args.snapshot.lastIncludedIndex →
      Installable T G n args.term args.snapshot) :
    Evolves T G n (n.handleInstallSnapshot args).1 ∧
      (n.handleInstallSnapshot args).1.fullLog =
        if n.currentTerm ≤ args.term ∧ n.commitIndex < args.snapshot.lastIncludedIndex then
          args.snapshot.entries ++ n.fullLog.drop args.snapshot.lastIncludedIndex
        else n.fullLog := by
  unfold handleInstallSnapshot
  split
  · next hlt =>
      rw [if_neg (fun hc => absurd hc.1 (Nat.not_le.mpr hlt))]
      exact ⟨.refl hn h, rfl⟩
  · next hge =>
      have hle := Nat.not_lt.mp hge
      obtain ⟨hev, hfull, hterm⟩ := evolves_hearLeader (T := T) hn args.leaderId none hle h
        (hhear hle)
      have hci := commitIndex_of_marks (marks_hearLeader n args.term args.leaderId none)
      have hlog := hearLeader_log n args.term args.leaderId none
      dsimp only
      generalize n.hearLeader args.term args.leaderId none = m at *
      have hm := hev.coherent
      split
      · next hold =>
          rw [hci] at hold
          rw [if_neg (fun hc => absurd hc.2 (Nat.not_lt.mpr hold))]
          exact ⟨hev, hfull⟩
      · next hnew =>
          rw [hci] at hnew
          have hahead := Nat.not_le.mp hnew
          obtain ⟨hwf, hholds, htorn⟩ := hs hle hahead
          obtain ⟨hev', hfull'⟩ := evolves_applySnapshot (T := T) (G := G) hm hwf
            (by rw [hci]; exact hahead) (by rw [hfull, hci, hterm]; exact hhear hle)
            (by rw [hfull, hterm]; exact hholds)
            (by rw [hfull, hci, hterm, hlog]; exact htorn)
          rw [if_pos ⟨hle, hahead⟩]
          exact ⟨hev.trans hev', hfull'.trans (by rw [hfull])⟩

/-- **`requestCatchUp` with its reply.**  A reply brings a snapshot or entries;
`i` is the index behind which its entries start. -/
theorem evolves_onSyncLogReply (hn : n.Coherent) {result : SyncLogResult}
    {J : ℕ → List LogEntry → Prop} {i b : ℕ} (hb : b = max n.currentTerm result.term)
    (h : G n.fullLog n.commitIndex n.currentTerm)
    (hbump : n.currentTerm < result.term → G n.fullLog n.commitIndex result.term)
    (hsnap : ∀ s, result.snapshot = some s → result.entries = [] ∧
      (n.commitIndex < s.lastIncludedIndex → Installable T G n b s ∧
        (s.lastIncludedIndex < result.commitIndex →
          G (s.entries ++ n.fullLog.drop s.lastIncludedIndex) (min result.commitIndex
            (s.entries ++ n.fullLog.drop s.lastIncludedIndex).length) b)) ∧
      (s.lastIncludedIndex ≤ n.commitIndex → n.commitIndex < result.commitIndex →
        G n.fullLog (min result.commitIndex n.fullLog.length) b))
    (hentries : result.snapshot = none →
      Consecutive i (result.entries.filter fun e => e.index ≤ result.commitIndex) ∧
      i ≤ n.fullLog.length ∧ J i n.fullLog ∧
      Splices n.commitIndex J i (result.entries.filter fun e => e.index ≤ result.commitIndex) ∧
      (∀ j ℓ, J j ℓ → n.commitIndex ≤ ℓ.length → G ℓ n.commitIndex b) ∧
      ∀ ℓ, J (i + (result.entries.filter fun e => e.index ≤ result.commitIndex).length) ℓ →
        n.commitIndex < result.commitIndex → n.commitIndex ≤ ℓ.length →
        G ℓ (min result.commitIndex ℓ.length) b) :
    Evolves T G n (n.onSyncLogReply result) := by
  obtain ⟨hev, hfull, hterm⟩ := evolves_ite_becomeFollower (T := T) hn h hbump
  have hci := commitIndex_of_marks (marks_ite_becomeFollower n result.term)
  have hlog : (if n.currentTerm < result.term then n.becomeFollower result.term none none
      else n).log = n.log := by
    split
    · exact becomeFollower_log n _ _ _
    · rfl
  unfold onSyncLogReply
  dsimp only
  generalize (if n.currentTerm < result.term then n.becomeFollower result.term none none
    else n) = m at *
  have hm := hev.coherent
  have hmb : m.currentTerm = b := hterm.trans hb.symm
  have hGm : G n.fullLog n.commitIndex b := by
    rcases Nat.lt_or_ge n.currentTerm result.term with hlt | hge
    · rw [hb, max_eq_right hlt.le]
      exact hbump hlt
    · rw [hb, max_eq_left hge]
      exact h
  cases hsome : result.snapshot with
  | some s =>
      obtain ⟨hnil, hnew, hold⟩ := hsnap s hsome
      rw [hnil]
      show Evolves T G n ((m.catchUpSnapshot (some s)).followCommit result.commitIndex)
      unfold catchUpSnapshot
      dsimp only
      split
      · next hahead =>
          rw [hci] at hahead
          obtain ⟨⟨hwf, hholds, htorn⟩, hfollow⟩ := hnew hahead
          obtain ⟨hev', hfull'⟩ := evolves_applySnapshot (T := T) (G := G) hm hwf
            (by rw [hci]; exact hahead) (by rw [hfull, hci, hmb]; exact hGm)
            (by rw [hfull, hmb]; exact hholds)
            (by rw [hfull, hci, hmb, hlog]; exact htorn)
          rw [hfull] at hfull'
          have hterm' : (m.applySnapshot s).currentTerm = b :=
            (quiet_applySnapshot m s).currentTerm.trans hmb
          have hci' : (m.applySnapshot s).commitIndex = s.lastIncludedIndex := rfl
          exact (hev.trans hev').trans (evolves_followCommit hev'.coherent _
            (by rw [hfull', hci', hterm']; exact hholds)
            (by rw [hfull', hci', hterm']; exact hfollow)).1
      · next hbehind =>
          rw [hci] at hbehind
          exact hev.trans (evolves_followCommit hm _ (by rw [hfull, hci, hmb]; exact hGm)
            (by rw [hfull, hci, hmb]; exact hold (Nat.not_lt.mp hbehind))).1
  | none =>
      obtain ⟨hes, hi, hJ, hs, hG, hfollow⟩ := hentries hsome
      show Evolves T G n ((m.catchUpLoop m.log.lastIncludedIndex _).followCommit _)
      obtain ⟨hev', hJ', hi'⟩ := evolves_catchUpLoop (T := T) (G := G) (J := J) hm rfl hes
        (hfull.symm ▸ hi) (hfull.symm ▸ hJ) (hci.symm ▸ hs) (hci.symm ▸ hmb.symm ▸ hG)
      have hci' := (commitIndex_of_marks (marks_catchUpLoop m m.log.lastIncludedIndex
        (result.entries.filter fun e => e.index ≤ result.commitIndex))).trans hci
      have hterm' := (quiet_catchUpLoop (n := m) m.log.lastIncludedIndex
        (result.entries.filter fun e => e.index ≤ result.commitIndex)).currentTerm.trans hmb
      have hle := hci' ▸ hev'.coherent.commit_le
      exact (hev.trans hev').trans (evolves_followCommit hev'.coherent _
        (by rw [hci', hterm']; exact hG _ _ hJ' hle)
        (by rw [hci', hterm']; exact fun hlt => hfollow _ hJ' hlt hle)).1

/-- What the scan of `updateCommitIndex` finds. -/
theorem commitCandidate_some {k index : ℕ} (h : n.commitCandidate k = some index) :
    n.commitIndex < index ∧ index ≤ k ∧
      (∃ e, n.log.getEntry index = some e ∧ e.term = n.currentTerm) ∧
      n.majority ≤ n.replicatedCount index := by
  induction k with
  | zero => cases h
  | succ k ih =>
      unfold commitCandidate at h
      split at h
      · cases h
      · next hlt =>
          split at h
          · next hfound =>
              obtain rfl := Option.some.inj h
              obtain ⟨hown, hcount⟩ := hfound
              cases he : n.log.getEntry (k + 1) with
              | none =>
                  rw [he] at hown
                  cases hown
              | some e =>
                  rw [he] at hown
                  exact ⟨by omega, le_rfl, ⟨e, rfl, by simpa using hown⟩, hcount⟩
          · obtain ⟨h1, h2, h3⟩ := ih h
            exact ⟨h1, by omega, h3⟩

/-- A leader commits an entry of its term that a majority has. -/
theorem evolves_updateCommitIndex (hn : n.Coherent)
    (h : G n.fullLog n.commitIndex n.currentTerm)
    (h' : ∀ index e, n.commitIndex < index → n.fullLog[index - 1]? = some e →
      e.term = n.currentTerm → n.majority ≤ n.replicatedCount index →
      G n.fullLog index n.currentTerm) :
    Evolves T G n n.updateCommitIndex ∧ n.updateCommitIndex.fullLog = n.fullLog := by
  unfold updateCommitIndex
  split
  · next index hfound =>
      obtain ⟨hlo, hhi, ⟨e, he, hterm⟩, hcount⟩ := commitCandidate_some hfound
      have hbound := hn.boundary_le
      rw [hn.getEntry (by omega)] at he
      rw [hn.getLastIndex] at hhi
      exact evolves_advanceCommit hn hlo.le hhi h (h' index e hlo he hterm hcount)
  · exact ⟨.refl hn h, rfl⟩

/-- The entry of a write is the last one. -/
theorem evolves_clientAppend (hn : n.Coherent) (stroke : Stroke)
    (h : G n.fullLog n.commitIndex n.currentTerm)
    (h' : G (n.fullLog ++ [n.clientEntry stroke]) n.commitIndex n.currentTerm) :
    Evolves T G n (n.clientAppend stroke) ∧
      (n.clientAppend stroke).fullLog = n.fullLog ++ [n.clientEntry stroke] := by
  have he : (n.clientEntry stroke).index = n.fullLog.length + 1 := by
    show n.log.getLastIndex + 1 = _
    rw [hn.getLastIndex]
  obtain ⟨⟨hcoh, hspan⟩, hfull⟩ := evolves_appendLog (T := T) hn he h h'
  exact ⟨⟨hcoh.of_eq rfl rfl rfl rfl rfl rfl rfl, hspan.before rfl rfl⟩, hfull⟩

/-! ## Restart -/

/-- `base` is what the constructor makes of the files before it applies what is
committed. -/
structure Boots (params : Params) (p : Persistence) (base : RaftNode) : Prop where
  eq : construct params p =
    { base.applyCommitted with timers := base.applyCommitted.timers.startElectionTimer }
  files : base.persistence = p
  calls : base.calls = []
  log : base.log = RaftLog.ofPersistence p
  commitIndex : base.commitIndex = p.commit
  lastApplied : base.lastApplied = (RaftLog.ofPersistence p).lastIncludedIndex
  currentTerm : base.currentTerm = p.loadState.currentTerm
  votedFor : base.votedFor = p.loadState.votedFor
  threshold : base.snapshotThreshold = params.snapshotThreshold
  history : base.history = (p.loadSnapshot.map Snapshot.covered).getD []

/-- What a node starts from. -/
theorem boots_construct (params : Params) (p : Persistence) : ∃ base, Boots params p base := by
  obtain ⟨base, heq, hrest⟩ : ∃ base : RaftNode, construct params p =
      { base.applyCommitted with timers := base.applyCommitted.timers.startElectionTimer } ∧
      base.persistence = p ∧ base.calls = [] ∧ base.log = RaftLog.ofPersistence p ∧
      base.commitIndex = p.commit ∧
      base.lastApplied = (RaftLog.ofPersistence p).lastIncludedIndex ∧
      base.currentTerm = p.loadState.currentTerm ∧ base.votedFor = p.loadState.votedFor ∧
      base.snapshotThreshold = params.snapshotThreshold ∧
      base.history = (p.loadSnapshot.map Snapshot.covered).getD [] := by
    unfold construct
    cases hs : p.loadSnapshot with
    | none =>
        have hbound : 0 = (RaftLog.ofPersistence p).lastIncludedIndex := by
          unfold RaftLog.ofPersistence
          rw [hs]
        exact ⟨_, rfl, rfl, rfl, rfl, rfl, hbound, rfl, rfl, rfl, rfl⟩
    | some s =>
        have hbound : s.lastIncludedIndex = (RaftLog.ofPersistence p).lastIncludedIndex := by
          unfold RaftLog.ofPersistence
          rw [hs]
        exact ⟨_, rfl, rfl, rfl, rfl, rfl, hbound, rfl, rfl, rfl, rfl⟩
  obtain ⟨h1, h2, h3, h4, h5, h6, h7, h8, h9⟩ := hrest
  exact ⟨base, heq, h1, h2, h3, h4, h5, h6, h7, h8, h9⟩

/-- What the constructor has loaded from files that are well kept. -/
theorem Boots.loaded {params : Params} {p : Persistence} {base : RaftNode}
    (hbase : Boots params p base) (hp : p.WellKept) : base.Loaded := by
  have hhistory : base.history =
      indexed (p.fullLog.take (RaftLog.ofPersistence p).lastIncludedIndex) := by
    rw [hbase.history, ← hp.covered_eq]
    unfold Persistence.covered
    cases hs : p.loadSnapshot with
    | none => rfl
    | some s => exact (hp.snapshot s hs).covered
  refine ⟨hbase.files ▸ hp, ⟨hbase.files ▸ hp.file, ?_, ?_⟩, ?_, ?_, ?_, ?_, ?_⟩
  · rw [hbase.files, hbase.currentTerm]
  · rw [hbase.files, hbase.votedFor]
  · rw [hbase.log, hbase.files]
  · rw [hbase.commitIndex, hbase.files]
  · rw [hbase.log, hbase.lastApplied]
  · rw [hbase.lastApplied, hbase.commitIndex]
    exact hp.boundary_le_commit
  · unfold fullLog
    rw [hhistory, hbase.files, hbase.lastApplied]

/-- **A restart** on files that are well kept is coherent, and takes nothing away. -/
theorem coherent_construct (params : Params) {p : Persistence} (hp : p.Meets G) :
    (construct params p).Coherent ∧ (construct params p).fullLog = p.fullLog ∧
      (construct params p).commitIndex = p.commit ∧
      (construct params p).currentTerm = p.loadState.currentTerm ∧
      ∀ k, (p.replay ((construct params p).calls.take k)).Meets G := by
  obtain ⟨base, hbase⟩ := boots_construct params p
  have hloaded := hbase.loaded hp.kept
  have hG : G base.fullLog base.commitIndex base.currentTerm := by
    unfold fullLog
    rw [hbase.files, hbase.commitIndex, hbase.currentTerm]
    exact hp.holds
  obtain ⟨hcoh, ⟨calls, hc, -, hspan⟩, hfull⟩ := hloaded.evolves_applyCommitted (T := False) hG
  rw [hbase.eq]
  refine ⟨hcoh.of_eq rfl rfl rfl rfl rfl rfl rfl, ?_, ?_, ?_, fun k => ?_⟩
  · exact hfull.trans (congrArg _ hbase.files)
  · exact (applied_applyCommitted base).2.1.trans hbase.commitIndex
  · exact (quiet_applyCommitted base).currentTerm.trans hbase.currentTerm
  · have hc : base.applyCommitted.calls = calls := by rw [hc, hbase.calls, List.nil_append]
    have := hspan k fun ht => ht.1
    rwa [hbase.files, ← hc] at this

end RaftNode

end QuorumCanvas
