import Mathlib.Logic.Relation
import QuorumCanvas.Accepting

/-!
# Operations, link by link

Whatever an operation does to the log, the indices and the files of a node, it does by
a chain of five kinds of links: it appends an entry, cuts the log above the commit
index, moves the commit index inside the log, installs a snapshot that is ahead of the
commit index, or leaves all of this alone but for the saved term and vote.  An
invariant of log, indices and files is shown once for each kind of link.
-/

namespace QuorumCanvas

namespace RaftNode

/-- One link of an operation. -/
inductive Link (n : RaftNode) : RaftNode → Prop
  /-- term, vote, role, leader hints, cursors and timers may change, and may be saved -/
  | frame (n' : RaftNode) (hparams : n'.params = n.params) (hlog : n'.log = n.log)
      (hmarks : n'.marks = n.marks) (hboards : n'.boards = n.boards)
      (hhistory : n'.history = n.history)
      (hfiles : n'.persistence = n.persistence ∨
        ∃ s, n'.persistence = n.persistence.run (.saveState s)) : Link n n'
  | append (entry : LogEntry) : Link n (n.appendLog entry)
  | truncate (index : ℕ) (h : n.commitIndex < index) : Link n (n.truncateFrom index)
  | commit (index : ℕ) (h : n.commitIndex < index ∨ index = n.log.getLastIndex)
      (hle : index ≤ n.log.getLastIndex) : Link n (n.advanceCommit index)
  | install (snapshot : Snapshot) (h : n.commitIndex < snapshot.lastIncludedIndex) :
      Link n (n.applySnapshot snapshot)

/-- Any number of links. -/
abbrev Links : RaftNode → RaftNode → Prop := Relation.ReflTransGen Link

variable {n n' n'' : RaftNode}

/-- Stepping down changes term and role, then saves. -/
theorem links_becomeFollower (n : RaftNode) (term : ℕ) (leaderId leaderAddr : Option String) :
    Links n (n.becomeFollower term leaderId leaderAddr) := by
  refine .single (.frame _ ?_ ?_ (marks_becomeFollower n _ _ _) ?_ ?_ (Or.inr ?_))
  all_goals
    unfold becomeFollower
    dsimp only
    split
  all_goals first | rfl | exact ⟨_, rfl⟩

theorem links_ite_becomeFollower (n : RaftNode) (term : ℕ) :
    Links n (if n.currentTerm < term then n.becomeFollower term none none else n) := by
  split
  · exact links_becomeFollower n _ _ _
  · exact .refl

/-- Hearing from a leader steps down, then notes who leads. -/
theorem links_hearLeader (n : RaftNode) (term : ℕ) (leaderId : String)
    (leaderAddr : Option String) : Links n (n.hearLeader term leaderId leaderAddr) := by
  unfold hearLeader
  split
  · exact links_becomeFollower n _ _ _
  · exact .single (.frame _ rfl rfl rfl rfl rfl (Or.inl rfl))

/-- Following a commit index moves it, saves and applies. -/
theorem links_followCommit (n : RaftNode) (leaderCommit : ℕ) :
    Links n (n.followCommit leaderCommit) := by
  unfold followCommit
  split
  · next hlt =>
      refine .single (.commit _ ?_ (min_le_right _ _))
      rcases le_total leaderCommit n.log.getLastIndex with hle | hge
      · exact Or.inl (by rwa [min_eq_left hle])
      · exact Or.inr (min_eq_right hge)
  · exact .refl

/-- Counting a majority does the same. -/
theorem links_updateCommitIndex (n : RaftNode) : Links n n.updateCommitIndex := by
  unfold updateCommitIndex
  split
  · next index hc =>
      obtain ⟨hlo, hhi, -⟩ := commitCandidate_some hc
      exact .single (.commit index (Or.inl hlo) hhi)
  · exact .refl

/-- An entry is spliced by a truncation and an append. -/
theorem links_spliceEntry {entry : LogEntry} (h : n.spliceEntry entry = some n') : Links n n' := by
  unfold spliceEntry at h
  split at h
  · cases h
  · next hkeep =>
      obtain rfl := Option.some.inj h
      have hdrop : Links n (n.dropConflict entry) := by
        unfold dropConflict
        split
        · next hconflict =>
            refine .single (.truncate _ ?_)
            by_contra hge
            exact hkeep ⟨hconflict, Nat.not_lt.mp hge⟩
        · exact .refl
      unfold appendMissing
      split
      · exact hdrop.tail (.append entry)
      · exact hdrop

/-- The entries of a request, by induction on them. -/
theorem links_appendEntriesLoop (n : RaftNode) (lastIncluded : ℕ) (entries : List LogEntry) :
    Links n (n.appendEntriesLoop lastIncluded entries).1 := by
  induction entries generalizing n with
  | nil => exact .refl
  | cons entry rest ih =>
      unfold appendEntriesLoop
      split
      · exact ih n
      · split
        · next m h => exact (links_spliceEntry h).trans (ih m)
        · exact .refl

/-- The entries of a catch-up, by induction on them. -/
theorem links_catchUpLoop (n : RaftNode) (lastIncluded : ℕ) (entries : List LogEntry) :
    Links n (n.catchUpLoop lastIncluded entries) := by
  induction entries generalizing n with
  | nil => exact .refl
  | cons entry rest ih =>
      unfold catchUpLoop
      split
      · exact ih n
      · cases h : n.spliceEntry entry with
        | none => exact ih n
        | some m => exact (links_spliceEntry h).trans (ih m)

/-- The snapshot of a catch-up is applied, or left. -/
theorem links_catchUpSnapshot (n : RaftNode) (snapshot : Option Snapshot) :
    Links n (n.catchUpSnapshot snapshot) := by
  unfold catchUpSnapshot
  split
  · split
    · next hahead => exact .single (.install _ hahead)
    · exact .refl
  · exact .refl

/-- Every request is handled by links. -/
theorem links_handle (n : RaftNode) (request : Request) : Links n (n.handle request).1 := by
  cases request with
  | requestVote args =>
      show Links n (n.handleRequestVote args).1
      have hdown := links_ite_becomeFollower n args.term
      unfold handleRequestVote
      dsimp only
      generalize (if n.currentTerm < args.term then n.becomeFollower args.term none none else n)
        = m at hdown
      split
      · exact hdown.tail (.frame _ rfl rfl rfl rfl rfl (Or.inr ⟨_, rfl⟩))
      · exact hdown
  | appendEntries args =>
      show Links n (n.handleAppendEntries args).1
      unfold handleAppendEntries
      split
      · exact .refl
      · have hhear := links_hearLeader n args.term args.leaderId args.leaderAddr
        dsimp only
        generalize n.hearLeader args.term args.leaderId args.leaderAddr = m at hhear ⊢
        split
        · have hloop := links_appendEntriesLoop m m.log.lastIncludedIndex args.entries
          split
          · next m' heq =>
              rw [heq] at hloop
              exact (hhear.trans hloop).trans (links_followCommit m' _)
          · next m' heq =>
              rw [heq] at hloop
              exact hhear.trans hloop
        · exact hhear
  | heartbeat args =>
      show Links n (n.handleHeartbeat args).1
      unfold handleHeartbeat
      split
      · exact .refl
      · exact (links_hearLeader n _ _ _).trans (links_followCommit _ _)
  | syncLog args =>
      show Links n (n.handleSyncLog args).1
      have hdown := links_ite_becomeFollower n args.term
      unfold handleSyncLog
      dsimp only
      split <;> exact hdown
  | installSnapshot args =>
      show Links n (n.handleInstallSnapshot args).1
      unfold handleInstallSnapshot
      split
      · exact .refl
      · have hhear := links_hearLeader n args.term args.leaderId none
        dsimp only
        split
        · exact hhear
        · next hahead => exact hhear.tail (.install _ (Nat.not_le.mp hahead))

/-- So is a catch-up. -/
theorem links_onSyncLogReply (n : RaftNode) (result : SyncLogResult) :
    Links n (n.onSyncLogReply result) := by
  unfold onSyncLogReply
  dsimp only
  exact (((links_ite_becomeFollower n _).trans (links_catchUpSnapshot _ _)).trans
    (links_catchUpLoop _ _ _)).trans (links_followCommit _ _)

/-- **An operation is a chain of links.** -/
theorem links_run (n : RaftNode) (op : Op) : Links n (Op.run n op) := by
  cases op with
  | becomeCandidate => exact .single (.frame _ rfl rfl rfl rfl rfl (Or.inr ⟨_, rfl⟩))
  | becomeLeader => exact .single (.frame _ rfl rfl rfl rfl rfl (Or.inl rfl))
  | resetElectionTimer => exact .single (.frame _ rfl rfl rfl rfl rfl (Or.inl rfl))
  | becomeFollower term leaderId leaderAddr => exact links_becomeFollower n _ _ _
  | handle request => exact links_handle n request
  | onAppendEntriesReply peer args result =>
      show Links n (n.onAppendEntriesReply peer args result)
      unfold onAppendEntriesReply
      split
      · exact links_becomeFollower n _ _ _
      · split
        · split <;> exact .single (.frame _ rfl rfl rfl rfl rfl (Or.inl rfl))
        · exact .single (.frame _ rfl rfl rfl rfl rfl (Or.inl rfl))
  | onInstallSnapshotReply peer args result =>
      show Links n (n.onInstallSnapshotReply peer args result)
      unfold onInstallSnapshotReply
      split
      · exact links_becomeFollower n _ _ _
      · exact .single (.frame _ rfl rfl rfl rfl rfl (Or.inl rfl))
  | onSyncLogReply result => exact links_onSyncLogReply n result
  | updateCommitIndex => exact links_updateCommitIndex n
  | clientAppend stroke =>
      have hentry : Link n (n.appendLog (n.clientEntry stroke)) := .append _
      exact .tail (.single hentry) (.frame _ rfl rfl rfl rfl rfl (Or.inl rfl))

/-- A link keeps the parameters of the node. -/
theorem Link.params (h : Link n n') : n'.params = n.params := by
  cases h with
  | frame n' hparams => exact hparams
  | append entry => exact (quiet_appendLog n entry).params
  | truncate index _ => exact (quiet_truncateFrom n index).params
  | commit index _ _ => exact (quiet_advanceCommit n index).params
  | install snapshot _ => exact (quiet_applySnapshot n snapshot).params

/-- Nothing but a restart changes what a node was constructed with. -/
theorem params_run (n : RaftNode) (op : Op) : (Op.run n op).params = n.params := by
  have hlinks := links_run n op
  generalize Op.run n op = n' at hlinks
  induction hlinks with
  | refl => rfl
  | tail _ hlink ih => exact hlink.params.trans ih

end RaftNode

end QuorumCanvas
