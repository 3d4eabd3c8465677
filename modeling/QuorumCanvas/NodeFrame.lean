import QuorumCanvas.RaftNode

/-!
# What the log operations leave alone

Most of a node's code works on the log, the commit index, the boards and the
files, and leaves its term, vote, role and cursors alone.  `Quiet` says so once;
every later invariant about elections or cursors uses it instead of unfolding
the log code.  It also says what a crash in the middle can leave in the state
file: the old contents or the node's own term and vote.
-/

namespace QuorumCanvas

namespace Persistence

/-- Only `saveState` writes the state file. -/
theorem loadState_run (p : Persistence) (call : PersistenceCall) :
    (p.run call).loadState = p.loadState ∨
      ∃ s, call = .saveState s ∧ (p.run call).loadState = s := by
  cases hb : p.backend with
  | memory => exact Or.inl (by simp [run, hb])
  | file =>
      cases call with
      | saveState s => exact Or.inr ⟨s, rfl, by rw [run_saveState hb]⟩
      | appendLog e => exact Or.inl (by rw [run_appendLog hb])
      | rewriteLog es => exact Or.inl (by rw [run_rewriteLog hb])
      | saveSnapshot s => exact Or.inl (by rw [run_saveSnapshot hb])

/-- The state file after some calls is the old one or one of those saved. -/
theorem loadState_replay (p : Persistence) (calls : List PersistenceCall) :
    (p.replay calls).loadState = p.loadState ∨
      ∃ s, .saveState s ∈ calls ∧ (p.replay calls).loadState = s := by
  induction calls generalizing p with
  | nil => exact Or.inl rfl
  | cons call calls ih =>
      rcases ih (p.run call) with hold | ⟨s, hs, h⟩
      · rcases loadState_run p call with h | ⟨s, rfl, h⟩
        · exact Or.inl (hold.trans h)
        · exact Or.inr ⟨s, List.mem_cons_self, hold.trans h⟩
      · exact Or.inr ⟨s, List.mem_cons_of_mem _ hs, h⟩

@[simp] theorem backend_replay (p : Persistence) (calls : List PersistenceCall) :
    (p.replay calls).backend = p.backend := by
  induction calls generalizing p with
  | nil => rfl
  | cons call calls ih => exact (ih (p.run call)).trans (backend_run p call)

end Persistence

namespace RaftNode

/-- The calls that lead from `n` to `n'`, all of whose saved states meet `P`. -/
def Saves (P : PersistedState → Prop) (n n' : RaftNode) : Prop :=
  ∃ calls, n'.calls = n.calls ++ calls ∧ n'.persistence = n.persistence.replay calls ∧
    ∀ s, .saveState s ∈ calls → P s

namespace Saves

variable {P Q : PersistedState → Prop} {n n' n'' : RaftNode}

theorem refl (n : RaftNode) : Saves P n n := ⟨[], by simp, rfl, by simp⟩

theorem trans (h : Saves P n n') (h' : Saves P n' n'') : Saves P n n'' := by
  obtain ⟨cs, hc, hp, hs⟩ := h
  obtain ⟨cs', hc', hp', hs'⟩ := h'
  refine ⟨cs ++ cs', by rw [hc', hc, List.append_assoc], ?_, ?_⟩
  · rw [hp', hp, Persistence.replay_append]
  · intro s hmem
    rcases List.mem_append.mp hmem with h | h
    · exact hs s h
    · exact hs' s h

theorem mono (h : Saves P n n') (hPQ : ∀ s, P s → Q s) : Saves Q n n' := by
  obtain ⟨cs, hc, hp, hs⟩ := h
  exact ⟨cs, hc, hp, fun s hmem => hPQ s (hs s hmem)⟩

/-- Steps that touch neither the files nor the list of calls. -/
theorem of_eq (hc : n'.calls = n.calls) (hp : n'.persistence = n.persistence) : Saves P n n' :=
  ⟨[], by simp [hc], by simp [hp], by simp⟩

/-- One call. -/
theorem persist (n : RaftNode) (call : PersistenceCall) (h : ∀ s, call = .saveState s → P s) :
    Saves P n (n.persist call) :=
  ⟨[call], rfl, rfl, fun s hmem => h s (List.mem_singleton.mp hmem).symm⟩

end Saves

/-- The part of a node that log operations never touch. -/
structure Frame where
  params : Params
  currentTerm : ℕ
  votedFor : Option String
  state : NodeState
  leaderId : Option String
  leaderAddr : Option String
  nextIndex : String → Option ℕ
  matchIndex : String → Option ℕ
  timers : Timers

/-- What the constructor was given, and never changes afterwards. -/
def params (n : RaftNode) : Params :=
  ⟨n.replicaId, n.peers, n.selfUrl, n.snapshotThreshold, n.batchCap⟩

/-- What an election looks at, and replication keeps. -/
def frame (n : RaftNode) : Frame :=
  ⟨n.params, n.currentTerm, n.votedFor, n.state, n.leaderId, n.leaderAddr, n.nextIndex,
    n.matchIndex, n.timers⟩

/-- The state `s` records the term and vote of `n`. -/
def SavesOwn (n : RaftNode) (s : PersistedState) : Prop :=
  s.currentTerm = n.currentTerm ∧ s.votedFor = n.votedFor

/-- `n'` differs from `n` in log, commit index, boards and files only. -/
structure Quiet (n n' : RaftNode) : Prop where
  frame : n'.frame = n.frame
  saves : Saves n.SavesOwn n n'

namespace Quiet

variable {n n' n'' : RaftNode}

theorem refl (n : RaftNode) : Quiet n n := ⟨rfl, Saves.refl n⟩

/-- A quiet step keeps the parameters of the node. -/
theorem params (h : Quiet n n') : n'.params = n.params := congrArg Frame.params h.frame

/-- A quiet step keeps the peers. -/
theorem peers (h : Quiet n n') : n'.peers = n.peers := congrArg Params.peers h.params

/-- A quiet step keeps the name of the replica. -/
theorem replicaId (h : Quiet n n') : n'.replicaId = n.replicaId :=
  congrArg Params.replicaId h.params

/-- A quiet step keeps the term. -/
theorem currentTerm (h : Quiet n n') : n'.currentTerm = n.currentTerm :=
  congrArg Frame.currentTerm h.frame

/-- A quiet step keeps the vote. -/
theorem votedFor (h : Quiet n n') : n'.votedFor = n.votedFor := congrArg Frame.votedFor h.frame

/-- A quiet step keeps the role. -/
theorem state (h : Quiet n n') : n'.state = n.state := congrArg Frame.state h.frame

/-- A quiet step keeps what the peers are known to match. -/
theorem matchIndex (h : Quiet n n') : n'.matchIndex = n.matchIndex :=
  congrArg Frame.matchIndex h.frame

/-- A quiet step keeps the cursors. -/
theorem nextIndex (h : Quiet n n') : n'.nextIndex = n.nextIndex :=
  congrArg Frame.nextIndex h.frame

theorem trans (h : Quiet n n') (h' : Quiet n' n'') : Quiet n n'' where
  frame := h'.frame.trans h.frame
  saves := h.saves.trans <| h'.saves.mono fun _ hs =>
    ⟨hs.1.trans h.currentTerm, hs.2.trans h.votedFor⟩

end Quiet

variable (n : RaftNode)

/-- Any call but `saveState` is quiet. -/
theorem quiet_persist (call : PersistenceCall) (h : ∀ s, call ≠ .saveState s) :
    Quiet n (n.persist call) :=
  ⟨rfl, Saves.persist n call fun s hs => absurd hs (h s)⟩

/-- Saving the term and vote of now changes neither. -/
theorem quiet_persistState : Quiet n n.persistState :=
  ⟨rfl, Saves.persist n _ fun s hs => by cases hs; exact ⟨rfl, rfl⟩⟩

/-- Appending concerns the log and its file. -/
theorem quiet_appendLog (entry : LogEntry) : Quiet n (n.appendLog entry) :=
  ⟨rfl, [.appendLog entry], rfl, rfl, by simp⟩

/-- Truncating concerns the log and its file. -/
theorem quiet_truncateFrom (index : ℕ) : Quiet n (n.truncateFrom index) := by
  unfold truncateFrom
  split
  · exact ⟨rfl, [.rewriteLog _], rfl, rfl, by simp⟩
  · exact Quiet.refl n

/-- Compacting concerns the log and its file. -/
theorem quiet_compactLog (uptoIndex term : ℕ) : Quiet n (n.compactLog uptoIndex term) := by
  unfold compactLog
  split
  · exact Quiet.refl n
  · exact ⟨rfl, [.rewriteLog _], rfl, rfl, by simp⟩

/-- A log behind a snapshot concerns the log and its file. -/
theorem quiet_installLog (index term : ℕ) : Quiet n (n.installLog index term) :=
  ⟨rfl, [.rewriteLog _], rfl, rfl, by simp⟩

/-- Applying an entry concerns the boards. -/
theorem quiet_applyNext : Quiet n n.applyNext := by
  unfold applyNext
  dsimp only
  split <;> exact ⟨rfl, Saves.of_eq rfl rfl⟩

theorem quiet_applyNext_iterate (k : ℕ) : Quiet n (applyNext^[k] n) := by
  induction k with
  | zero => exact Quiet.refl n
  | succ k ih =>
      rw [Function.iterate_succ_apply']
      exact ih.trans (quiet_applyNext _)

/-- Taking a snapshot concerns the log and the files. -/
theorem quiet_takeSnapshot : Quiet n n.takeSnapshot :=
  (quiet_persist n _ (by simp)).trans (quiet_compactLog _ _ _)

/-- So does taking one if it is due. -/
theorem quiet_maybeSnapshot : Quiet n n.maybeSnapshot := by
  unfold maybeSnapshot
  split
  · exact Quiet.refl n
  · exact quiet_takeSnapshot n

/-- Applying what is committed is quiet, the snapshot that may follow included. -/
theorem quiet_applyCommitted : Quiet n n.applyCommitted :=
  (quiet_applyNext_iterate n _).trans (quiet_maybeSnapshot _)

/-- Moving the commit index is quiet. -/
theorem quiet_advanceCommit (index : ℕ) : Quiet n (n.advanceCommit index) := by
  have hset : Quiet n { n with commitIndex := index } := ⟨rfl, Saves.of_eq rfl rfl⟩
  exact (hset.trans (quiet_persistState _)).trans (quiet_applyCommitted _)

/-- Restoring a snapshot is quiet. -/
theorem quiet_applySnapshot (snapshot : Snapshot) : Quiet n (n.applySnapshot snapshot) := by
  have hinstall := quiet_installLog n snapshot.lastIncludedIndex snapshot.lastIncludedTerm
  have hrestore : ∀ m : RaftNode,
      Quiet m ((m.restoreBoardState snapshot).setBoundary snapshot.lastIncludedIndex) :=
    fun m => ⟨rfl, Saves.of_eq rfl rfl⟩
  exact ((hinstall.trans (hrestore _)).trans (quiet_persist _ _ (by simp))).trans
    (quiet_persistState _)

/-- Following the leader's commit index is quiet. -/
theorem quiet_followCommit (leaderCommit : ℕ) : Quiet n (n.followCommit leaderCommit) := by
  unfold followCommit
  split
  · exact quiet_advanceCommit n _
  · exact Quiet.refl n

/-- A leader that counts its majority is quiet. -/
theorem quiet_updateCommitIndex : Quiet n n.updateCommitIndex := by
  unfold updateCommitIndex
  split
  · exact quiet_advanceCommit n _
  · exact Quiet.refl n

/-- Dropping a conflicting suffix is quiet. -/
theorem quiet_dropConflict (entry : LogEntry) : Quiet n (n.dropConflict entry) := by
  unfold dropConflict
  split
  · exact quiet_truncateFrom n _
  · exact Quiet.refl n

/-- Appending an entry that is not there is quiet. -/
theorem quiet_appendMissing (entry : LogEntry) : Quiet n (n.appendMissing entry) := by
  unfold appendMissing
  split
  · exact quiet_appendLog n _
  · exact Quiet.refl n

variable {n}

/-- One entry of a request is spliced quietly. -/
theorem quiet_spliceEntry {entry : LogEntry} {n' : RaftNode}
    (h : n.spliceEntry entry = some n') : Quiet n n' := by
  unfold spliceEntry at h
  split at h
  · cases h
  · cases h
    exact (quiet_dropConflict n entry).trans (quiet_appendMissing _ entry)

/-- All entries of a request, by induction on them. -/
theorem quiet_appendEntriesLoop (lastIncluded : ℕ) (entries : List LogEntry) :
    Quiet n (n.appendEntriesLoop lastIncluded entries).1 := by
  induction entries generalizing n with
  | nil => exact Quiet.refl n
  | cons entry rest ih =>
      unfold appendEntriesLoop
      split
      · exact ih
      · split
        · next n' h => exact (quiet_spliceEntry h).trans ih
        · exact Quiet.refl n

/-- All entries of a catch-up, by induction on them. -/
theorem quiet_catchUpLoop (lastIncluded : ℕ) (entries : List LogEntry) :
    Quiet n (n.catchUpLoop lastIncluded entries) := by
  induction entries generalizing n with
  | nil => exact Quiet.refl n
  | cons entry rest ih =>
      unfold catchUpLoop
      split
      · exact ih
      · cases h : n.spliceEntry entry with
        | none => exact ih
        | some n' => exact (quiet_spliceEntry h).trans ih

/-- The snapshot of a catch-up is restored quietly, or not at all. -/
theorem quiet_catchUpSnapshot (snapshot : Option Snapshot) :
    Quiet n (n.catchUpSnapshot snapshot) := by
  unfold catchUpSnapshot
  split
  · split
    · exact quiet_applySnapshot n _
    · exact Quiet.refl n
  · exact Quiet.refl n

end RaftNode

end QuorumCanvas
