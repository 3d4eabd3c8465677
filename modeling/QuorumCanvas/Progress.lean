import QuorumCanvas.NodeOps

/-!
# How far a replica has applied and compacted

Between any two turns a node has applied everything up to its commit index, and
has compacted its log if that was due.  Only a snapshot can take the applied
index back, and only one whose boundary lies below it.  `Advances floor` says
this of one operation: the node stays caught up and compacted, and once it has
applied `floor` it does not fall below it.
-/

namespace QuorumCanvas

open RaftNode (Op Request Reply)

namespace RaftNode

/-- Everything committed has been applied. -/
def CaughtUp (n : RaftNode) : Prop := n.commitIndex ≤ n.lastApplied

/-- There is no snapshot to be taken. -/
def Compacted (n : RaftNode) : Prop :=
  n.commitIndex - n.log.lastIncludedIndex < n.snapshotThreshold

/-- The indices of a node that progress is measured by. -/
structure Marks where
  commitIndex : ℕ
  lastApplied : ℕ
  boundary : ℕ
  snapshotThreshold : ℕ

/-- How far a node has come, and when it takes its next snapshot. -/
def marks (n : RaftNode) : Marks :=
  ⟨n.commitIndex, n.lastApplied, n.log.lastIncludedIndex, n.snapshotThreshold⟩

/-- The commit index is one of the marks. -/
theorem commitIndex_of_marks {n n' : RaftNode} (h : n'.marks = n.marks) :
    n'.commitIndex = n.commitIndex := congrArg Marks.commitIndex h

/-- From `n` to `n'` the node stays caught up and compacted, and stays at `floor`
or above. -/
structure Advances (floor : ℕ) (n n' : RaftNode) : Prop where
  caught : n.CaughtUp → n'.CaughtUp
  floor_le : floor ≤ n.lastApplied → floor ≤ n'.lastApplied
  compacted : 0 < n.snapshotThreshold → n.Compacted → n'.Compacted
  threshold : n'.snapshotThreshold = n.snapshotThreshold

variable {floor : ℕ} {n n' n'' : RaftNode}

namespace Advances

theorem of_eq (h : n'.marks = n.marks) : Advances floor n n' := by
  obtain ⟨hcommit, happlied, hbound, hthreshold⟩ := Marks.mk.inj h
  refine ⟨fun hn => ?_, fun hn => happlied ▸ hn, fun _ hn => ?_, hthreshold⟩
  · unfold CaughtUp
    rw [hcommit, happlied]
    exact hn
  · unfold Compacted
    rw [hcommit, hbound, hthreshold]
    exact hn

theorem refl (n : RaftNode) : Advances floor n n := of_eq rfl

theorem trans (h : Advances floor n n') (h' : Advances floor n' n'') : Advances floor n n'' :=
  ⟨fun hn => h'.caught (h.caught hn), fun hn => h'.floor_le (h.floor_le hn),
    fun ht hn => h'.compacted (h.threshold ▸ ht) (h.compacted ht hn),
    h'.threshold.trans h.threshold⟩

end Advances

/-! ## Applying and compacting -/

/-- Applying an entry moves one mark by one. -/
theorem marks_applyNext (n : RaftNode) :
    n.applyNext.marks = { n.marks with lastApplied := n.lastApplied + 1 } := by
  unfold applyNext
  dsimp only
  split <;> rfl

theorem marks_iterate (n : RaftNode) (k : ℕ) :
    (applyNext^[k] n).marks = { n.marks with lastApplied := n.lastApplied + k } := by
  induction k with
  | zero => rfl
  | succ k ih =>
      rw [Function.iterate_succ_apply', marks_applyNext, ih]
      have happlied : (applyNext^[k] n).lastApplied = n.lastApplied + k :=
        congrArg Marks.lastApplied ih
      rw [happlied]
      rfl

/-- A snapshot of the node's own moves the boundary alone. -/
theorem marks_maybeSnapshot (n : RaftNode) :
    n.maybeSnapshot.marks = { n.marks with boundary := n.maybeSnapshot.log.lastIncludedIndex } ∧
      (0 < n.snapshotThreshold → n.maybeSnapshot.Compacted) := by
  unfold maybeSnapshot
  split
  · next h => exact ⟨rfl, fun _ => h⟩
  · unfold takeSnapshot compactLog
    split
    · next hle =>
        refine ⟨rfl, fun hpos => ?_⟩
        have hle : n.commitIndex ≤ n.log.lastIncludedIndex := hle
        show n.commitIndex - n.log.lastIncludedIndex < n.snapshotThreshold
        omega
    · next hlt =>
        have hlt : ¬ n.commitIndex ≤ n.log.lastIncludedIndex := hlt
        refine ⟨rfl, fun hpos => ?_⟩
        show n.commitIndex - (n.log.compact n.commitIndex _).lastIncludedIndex <
          n.snapshotThreshold
        unfold RaftLog.compact
        rw [if_neg hlt]
        show n.commitIndex - n.commitIndex < _
        omega

/-- **`applyCommitted` catches up,** from whatever point, and compacts. -/
theorem applied_applyCommitted (n : RaftNode) :
    n.applyCommitted.lastApplied = max n.lastApplied n.commitIndex ∧
      n.applyCommitted.commitIndex = n.commitIndex ∧
      n.applyCommitted.snapshotThreshold = n.snapshotThreshold ∧
      (0 < n.snapshotThreshold → n.applyCommitted.Compacted) := by
  have hrounds := marks_iterate n (n.commitIndex - n.lastApplied)
  obtain ⟨hmarks, hcompact⟩ := marks_maybeSnapshot (applyNext^[n.commitIndex - n.lastApplied] n)
  rw [hrounds] at hmarks
  obtain ⟨hcommit, happlied, -, hthreshold⟩ := Marks.mk.inj hmarks
  have happlied : n.applyCommitted.lastApplied =
    n.lastApplied + (n.commitIndex - n.lastApplied) := happlied
  refine ⟨by omega, hcommit, hthreshold, fun hpos => hcompact ?_⟩
  rw [show
    (applyNext^[n.commitIndex - n.lastApplied] n).snapshotThreshold = n.snapshotThreshold from
    congrArg Marks.snapshotThreshold hrounds]
  exact hpos

/-- Applying only moves up, wherever the commit index is put. -/
theorem advances_advanceCommit (n : RaftNode) (index : ℕ) :
    Advances floor n (n.advanceCommit index) := by
  obtain ⟨happlied, hcommit, hthreshold, hcompact⟩ := applied_applyCommitted
    ({ n with commitIndex := index } : RaftNode).persistState
  have happlied : (n.advanceCommit index).lastApplied = max n.lastApplied index := happlied
  have hcommit : (n.advanceCommit index).commitIndex = index := hcommit
  refine ⟨fun _ => ?_, fun h => ?_, fun hpos _ => hcompact hpos, hthreshold⟩
  · unfold CaughtUp
    omega
  · omega

/-- A leader's commit index is followed upwards only. -/
theorem advances_followCommit (n : RaftNode) (leaderCommit : ℕ) :
    Advances floor n (n.followCommit leaderCommit) := by
  unfold followCommit
  split
  · exact advances_advanceCommit n _
  · exact .refl n

/-- A majority is counted above the commit index only. -/
theorem advances_updateCommitIndex (n : RaftNode) : Advances floor n n.updateCommitIndex := by
  unfold updateCommitIndex
  split
  · exact advances_advanceCommit n _
  · exact .refl n

/-- A snapshot puts all indices at its boundary. -/
theorem marks_applySnapshot (n : RaftNode) (snapshot : Snapshot) :
    (n.applySnapshot snapshot).marks = ⟨snapshot.lastIncludedIndex, snapshot.lastIncludedIndex,
      snapshot.lastIncludedIndex, n.snapshotThreshold⟩ := by
  simp only [applySnapshot, persistState, persist, setBoundary, restoreBoardState, installLog,
    marks, RaftLog.installSnapshot]

/-- Behind a snapshot nothing waits to be applied or compacted. -/
theorem advances_applySnapshot (n : RaftNode) {snapshot : Snapshot}
    (h : floor ≤ snapshot.lastIncludedIndex) : Advances floor n (n.applySnapshot snapshot) := by
  obtain ⟨hcommit, happlied, hbound, hthreshold⟩ :=
    Marks.mk.inj (n.marks_applySnapshot snapshot)
  refine ⟨fun _ => ?_, fun _ => happlied ▸ h, fun hpos _ => ?_, hthreshold⟩
  · unfold CaughtUp
    rw [happlied, hcommit]
  · unfold Compacted
    rw [hcommit, hbound, hthreshold]
    omega

/-! ## What leaves the marks alone -/

/-- Stepping down moves no mark. -/
theorem marks_becomeFollower (n : RaftNode) (term : ℕ) (leaderId leaderAddr : Option String) :
    (n.becomeFollower term leaderId leaderAddr).marks = n.marks := by
  unfold becomeFollower
  dsimp only
  split <;> rfl

theorem marks_ite_becomeFollower (n : RaftNode) (term : ℕ) :
    (if n.currentTerm < term then n.becomeFollower term none none else n).marks = n.marks := by
  split
  · exact marks_becomeFollower n _ _ _
  · rfl

/-- Hearing from a leader moves none. -/
theorem marks_hearLeader (n : RaftNode) (term : ℕ) (leaderId : String)
    (leaderAddr : Option String) : (n.hearLeader term leaderId leaderAddr).marks = n.marks := by
  unfold hearLeader
  split
  · exact marks_becomeFollower n _ _ _
  · rfl

/-- Splicing an entry moves none. -/
theorem marks_splice (n : RaftNode) (entry : LogEntry) :
    ((n.dropConflict entry).appendMissing entry).marks = n.marks := by
  have hdrop : (n.dropConflict entry).marks = n.marks := by
    unfold dropConflict truncateFrom
    split
    · split
      · have hbound : (n.log.truncateFrom entry.index).lastIncludedIndex =
            n.log.lastIncludedIndex := by
          unfold RaftLog.truncateFrom
          split <;> rfl
        exact congrArg (Marks.mk n.commitIndex n.lastApplied · n.snapshotThreshold) hbound
      · rfl
    · rfl
  unfold appendMissing
  split <;> exact hdrop

/-- Neither does one that goes through. -/
theorem marks_spliceEntry {entry : LogEntry} (h : n.spliceEntry entry = some n') :
    n'.marks = n.marks := by
  unfold spliceEntry at h
  split at h
  · cases h
  · obtain rfl := Option.some.inj h
    exact marks_splice n entry

/-- The entries of a request, by induction on them. -/
theorem marks_appendEntriesLoop (n : RaftNode) (lastIncluded : ℕ) (entries : List LogEntry) :
    (n.appendEntriesLoop lastIncluded entries).1.marks = n.marks := by
  induction entries generalizing n with
  | nil => rfl
  | cons entry rest ih =>
      unfold appendEntriesLoop
      split
      · exact ih n
      · split
        · next m h => exact (ih m).trans (marks_spliceEntry h)
        · rfl

/-- The entries of a catch-up, by induction on them. -/
theorem marks_catchUpLoop (n : RaftNode) (lastIncluded : ℕ) (entries : List LogEntry) :
    (n.catchUpLoop lastIncluded entries).marks = n.marks := by
  induction entries generalizing n with
  | nil => rfl
  | cons entry rest ih =>
      unfold catchUpLoop
      split
      · exact ih n
      · cases h : n.spliceEntry entry with
        | none => exact ih n
        | some m => exact (ih m).trans (marks_spliceEntry h)

/-! ## Operations -/

/-- Stepping down advances. -/
theorem advances_becomeFollower (n : RaftNode) (term : ℕ) (leaderId leaderAddr : Option String) :
    Advances floor n (n.becomeFollower term leaderId leaderAddr) :=
  .of_eq (marks_becomeFollower n _ _ _)

/-- Hearing from a leader advances. -/
theorem advances_hearLeader (n : RaftNode) (term : ℕ) (leaderId : String)
    (leaderAddr : Option String) : Advances floor n (n.hearLeader term leaderId leaderAddr) :=
  .of_eq (marks_hearLeader n _ _ _)

/-- The snapshot a message brings, if it is taken in, is not below `floor`. -/
def InstallsAbove (floor : ℕ) (n : RaftNode) (snapshot : Snapshot) : Prop :=
  n.commitIndex < snapshot.lastIncludedIndex → floor ≤ snapshot.lastIncludedIndex

/-- A request advances if its snapshot is above the floor. -/
theorem advances_handle (n : RaftNode) (request : Request)
    (h : ∀ args, request = .installSnapshot args → n.InstallsAbove floor args.snapshot) :
    Advances floor n (n.handle request).1 := by
  cases request with
  | requestVote args =>
      show Advances floor n (n.handleRequestVote args).1
      have hstep := marks_ite_becomeFollower n args.term
      unfold handleRequestVote
      dsimp only
      generalize (if n.currentTerm < args.term then n.becomeFollower args.term none none else n) = m
        at hstep
      split <;> exact .of_eq hstep
  | appendEntries args =>
      show Advances floor n (n.handleAppendEntries args).1
      unfold handleAppendEntries
      split
      · exact .refl n
      · have hhear : Advances floor n (n.hearLeader args.term args.leaderId args.leaderAddr) :=
          advances_hearLeader n _ _ _
        dsimp only
        split
        · have hloop := marks_appendEntriesLoop
            (n.hearLeader args.term args.leaderId args.leaderAddr)
            (n.hearLeader args.term args.leaderId args.leaderAddr).log.lastIncludedIndex
            args.entries
          split
          · next m heq =>
              rw [heq] at hloop
              exact (hhear.trans (.of_eq hloop)).trans (advances_followCommit m _)
          · next m heq =>
              rw [heq] at hloop
              exact hhear.trans (.of_eq hloop)
        · exact hhear
  | heartbeat args =>
      show Advances floor n (n.handleHeartbeat args).1
      unfold handleHeartbeat
      split
      · exact .refl n
      · exact (advances_hearLeader n _ _ _).trans (advances_followCommit _ _)
  | syncLog args =>
      show Advances floor n (n.handleSyncLog args).1
      have hstep := marks_ite_becomeFollower n args.term
      unfold handleSyncLog
      dsimp only
      split <;> exact .of_eq hstep
  | installSnapshot args =>
      show Advances floor n (n.handleInstallSnapshot args).1
      unfold handleInstallSnapshot
      split
      · exact .refl n
      · dsimp only
        split
        · exact advances_hearLeader n _ _ _
        · next hahead =>
            refine (advances_hearLeader n _ _ _).trans (advances_applySnapshot _ (h args rfl ?_))
            have hcommit := commitIndex_of_marks (marks_hearLeader n args.term args.leaderId none)
            omega

/-- So does a catch-up. -/
theorem advances_onSyncLogReply (n : RaftNode) (result : SyncLogResult)
    (h : ∀ s, result.snapshot = some s → n.InstallsAbove floor s) :
    Advances floor n (n.onSyncLogReply result) := by
  have hstep := marks_ite_becomeFollower n result.term
  unfold onSyncLogReply
  dsimp only
  refine (Advances.trans ?_ (.of_eq (marks_catchUpLoop _ _ _))).trans (advances_followCommit _ _)
  refine (Advances.of_eq hstep).trans ?_
  cases hs : result.snapshot with
  | none => exact .refl _
  | some s =>
      have hcommit := commitIndex_of_marks hstep
      generalize (if n.currentTerm < result.term then n.becomeFollower result.term none none else n)
        = m at hcommit
      unfold catchUpSnapshot
      dsimp only
      split
      · next hahead => exact advances_applySnapshot _ (h s hs (hcommit ▸ hahead))
      · exact .refl _

/-- What an operation must not do for the node to stay at `floor`. -/
def Op.Above (floor : ℕ) (n : RaftNode) : Op → Prop
  | .handle request => ∀ args, request = .installSnapshot args → n.InstallsAbove floor args.snapshot
  | .onSyncLogReply result => ∀ s, result.snapshot = some s → n.InstallsAbove floor s
  | _ => True

/-- **Every operation advances,** unless it installs a snapshot below `floor`. -/
theorem advances_run (n : RaftNode) (op : Op) (h : op.Above floor n) :
    Advances floor n (Op.run n op) := by
  cases op with
  | becomeCandidate => exact .of_eq rfl
  | becomeLeader => exact .of_eq rfl
  | resetElectionTimer => exact .of_eq rfl
  | becomeFollower term leaderId leaderAddr => exact advances_becomeFollower n _ _ _
  | handle request => exact advances_handle n request h
  | onAppendEntriesReply peer args result =>
      show Advances floor n (n.onAppendEntriesReply peer args result)
      unfold onAppendEntriesReply
      split
      · exact advances_becomeFollower n _ _ _
      · split
        · split <;> exact .of_eq rfl
        · exact .of_eq rfl
  | onInstallSnapshotReply peer args result =>
      show Advances floor n (n.onInstallSnapshotReply peer args result)
      unfold onInstallSnapshotReply
      split
      · exact advances_becomeFollower n _ _ _
      · exact .of_eq rfl
  | onSyncLogReply result => exact advances_onSyncLogReply n result h
  | updateCommitIndex => exact advances_updateCommitIndex n
  | clientAppend stroke => exact .of_eq rfl

/-- The constructor catches up. -/
theorem caughtUp_construct (params : Params) (p : Persistence) :
    (construct params p).CaughtUp := by
  obtain ⟨base, hbase⟩ : ∃ base : RaftNode, construct params p =
      { base.applyCommitted with timers := base.applyCommitted.timers.startElectionTimer } := by
    unfold construct
    exact ⟨_, rfl⟩
  obtain ⟨happlied, hcommit, -⟩ := applied_applyCommitted base
  rw [hbase]
  show base.applyCommitted.commitIndex ≤ base.applyCommitted.lastApplied
  omega

/-- Everything is above nothing. -/
theorem Op.above_zero (n : RaftNode) (op : Op) : op.Above 0 n := by
  cases op with
  | handle request => exact fun _ _ _ => Nat.zero_le _
  | onSyncLogReply result => exact fun _ _ _ => Nat.zero_le _
  | _ => trivial

/-- A run of operations advances, by induction on it. -/
theorem advances_moves {ok : RaftNode → Op → Prop} (hok : ∀ n op, ok n op → op.Above floor n)
    (h : Moves ok n n') : Advances floor n n' := by
  induction h with
  | refl => exact .refl n
  | tail _ hop hstep ih =>
      obtain rfl := Option.some.inj hstep
      exact ih.trans (advances_run _ _ (hok _ _ hop))

end RaftNode

namespace Cluster

variable {cfg : Config} {c c' : Cluster} {a : String} {action : Action} {t : Turn}

/-- **Between turns everything committed has been applied.** -/
theorem caughtUp_next (hc : ∀ a ∈ cfg.members, (c.replicas a).node.CaughtUp) {e : Event}
    (h : next cfg c e = some c') : ∀ a ∈ cfg.members, (c'.replicas a).node.CaughtUp := by
  have hreboot : ∀ b p, ∀ a ∈ cfg.members, ((c.reboot cfg b p).replicas a).node.CaughtUp := by
    intro b p a ha
    by_cases hne : a = b
    · rw [hne, replicas_reboot_self]
      exact RaftNode.caughtUp_construct _ _
    · rw [replicas_reboot_ne c p hne]
      exact hc a ha
  rcases next_cases h with ⟨action, t, rfl, ha, ht, rfl⟩ | ⟨action, t, calls, rfl, ha, ht, rfl⟩ |
    ⟨b, calls, rfl, ha, rfl⟩
  · intro a ha'
    by_cases hne : a = action.replica
    · rw [hne, replicas_finishTurn_self]
      exact (RaftNode.advances_moves (fun n op _ => op.above_zero n) (moves_turn ht)).caught
        (hc _ ha)
    · rw [replicas_finishTurn_ne c t hne]
      exact hc a ha'
  · exact hreboot _ _
  · exact hreboot _ _

/-- What is committed is applied, in every run. -/
theorem caughtUp_reach {ok : Cluster → Event → Prop} (h : Reach cfg ok (.init cfg) c) :
    ∀ a ∈ cfg.members, (c.replicas a).node.CaughtUp :=
  h.invariant (fun _ _ => RaftNode.caughtUp_construct _ _) fun _ _ _ hc _ => caughtUp_next hc

/-- The snapshots a replica takes in during an event are not below what it has applied. -/
def SnapshotsAhead (a : String) (c : Cluster) : Event → Prop
  | .act (.deliver packet) => packet.dst = a → ∀ args, packet.request = .installSnapshot args →
      (c.replicas a).node.InstallsAbove (c.replicas a).node.lastApplied args.snapshot
  | .act (.catchUpReply b _ (some result)) => b = a → ∀ s, result.snapshot = some s →
      (c.replicas a).node.InstallsAbove (c.replicas a).node.lastApplied s
  | _ => True

/-- A turn that takes in no such snapshot does not take the applied index back. -/
theorem lastApplied_le_turn (h : c.turn action = some t)
    (hahead : SnapshotsAhead action.replica c (.act action)) :
    (c.replicas action.replica).node.lastApplied ≤ t.replica.node.lastApplied := by
  have hmoves := moves_turn h
  refine (RaftNode.advances_moves ?_ hmoves).floor_le le_rfl
  intro n op hop
  cases op with
  | handle request =>
      obtain ⟨rfl, packet, -, hact, rfl⟩ := hop
      intro args hargs
      subst hact
      exact hahead rfl args hargs
  | onSyncLogReply result =>
      obtain ⟨rfl, k, task, hact, -⟩ := hop
      intro s hs
      rw [hact] at hahead
      exact hahead rfl s hs
  | _ => trivial

end Cluster

end QuorumCanvas
