import QuorumCanvas.Accepting

/-!
# A replica does not see its storage

Between two restarts a replica never reads back what it has saved, except to hand a
snapshot to a peer.  So an operation does the same on any storage: it makes the same
persistence calls and leaves the same node, on whatever those calls make of the storage
(`blind_run`).  A replica on `MemoryPersistence` thus goes through the states of one
whose calls reach a file.
-/

namespace QuorumCanvas

namespace RaftNode

/-- The node on another storage. -/
def on (n : RaftNode) (q : Persistence) : RaftNode := { n with persistence := q }

/-- What `f` does to a node does not depend on its storage. -/
def Blind (f : RaftNode → RaftNode) : Prop :=
  ∀ n, ∃ calls, ∀ q, f (n.on q) = (f n).on (q.replay calls)

namespace Blind

variable {f g : RaftNode → RaftNode}

/-- Doing nothing does not look at the storage. -/
theorem id : Blind fun n => n := fun _ => ⟨[], fun _ => rfl⟩

/-- Steps that touch no file and look at none. -/
theorem of_on (h : ∀ n q, f (n.on q) = (f n).on q) : Blind f := fun n => ⟨[], fun q => h n q⟩

/-- One blind step after another. -/
theorem comp (hf : Blind f) (hg : Blind g) : Blind fun n => g (f n) := by
  intro n
  obtain ⟨calls, hcalls⟩ := hf n
  obtain ⟨calls', hcalls'⟩ := hg (f n)
  refine ⟨calls ++ calls', fun q => ?_⟩
  dsimp only
  rw [hcalls, hcalls', Persistence.replay_append]

/-- A choice between blind steps, on a condition that does not look at the storage. -/
theorem ite {c : RaftNode → Prop} [DecidablePred c] (hc : ∀ n q, c (n.on q) ↔ c n)
    (hf : Blind f) (hg : Blind g) : Blind fun n => if c n then f n else g n := by
  intro n
  by_cases h : c n
  · obtain ⟨calls, hcalls⟩ := hf n
    refine ⟨calls, fun q => ?_⟩
    dsimp only
    rw [if_pos h, if_pos ((hc n q).mpr h), hcalls]
  · obtain ⟨calls, hcalls⟩ := hg n
    refine ⟨calls, fun q => ?_⟩
    dsimp only
    rw [if_neg h, if_neg fun h' => h ((hc n q).mp h'), hcalls]

/-- A step that looks at the node, but not at its storage. -/
theorem look {β : Type*} {d : RaftNode → β} {f : β → RaftNode → RaftNode}
    (hd : ∀ n q, d (n.on q) = d n) (hf : ∀ b, Blind (f b)) : Blind fun n => f (d n) n := by
  intro n
  obtain ⟨calls, hcalls⟩ := hf (d n) n
  refine ⟨calls, fun q => ?_⟩
  dsimp only
  rw [hd, hcalls]

/-- What a blind step leaves on the node's own storage. -/
theorem persistence (hf : Blind f) (n : RaftNode) :
    ∃ calls, (f n).persistence = n.persistence.replay calls ∧
      ∀ q, f (n.on q) = (f n).on (q.replay calls) := by
  obtain ⟨calls, hcalls⟩ := hf n
  exact ⟨calls, congrArg RaftNode.persistence (hcalls n.persistence), hcalls⟩

end Blind

/-- A call is recorded, whatever the storage makes of it. -/
theorem blind_persist (call : PersistenceCall) : Blind (persist · call) :=
  fun _ => ⟨[call], fun _ => rfl⟩

/-- Saving looks at the node only. -/
theorem blind_persistState : Blind persistState :=
  fun n => ⟨[.saveState ⟨n.currentTerm, n.votedFor, n.commitIndex⟩], fun _ => rfl⟩

/-- Appending looks at the log in memory. -/
theorem blind_appendLog (entry : LogEntry) : Blind (appendLog · entry) :=
  fun _ => ⟨[.appendLog entry], fun _ => rfl⟩

/-- Truncating looks at the log in memory. -/
theorem blind_truncateFrom (index : ℕ) : Blind (truncateFrom · index) :=
  .ite (fun _ _ => Iff.rfl) (fun n => ⟨[.rewriteLog (n.log.truncateFrom index).entries],
    fun _ => rfl⟩) .id

/-- Compacting rewrites the file from the log in memory. -/
theorem blind_compactLog (uptoIndex term : ℕ) : Blind (compactLog · uptoIndex term) :=
  .ite (fun _ _ => Iff.rfl) .id (fun n => ⟨[.rewriteLog (n.log.compact uptoIndex term).entries],
    fun _ => rfl⟩)

/-- So does a log behind a snapshot. -/
theorem blind_installLog (index term : ℕ) : Blind (installLog · index term) :=
  fun n => ⟨[.rewriteLog (n.log.installSnapshot index term).entries], fun _ => rfl⟩

/-- Stepping down saves the node's own term and vote. -/
theorem blind_becomeFollower (term : ℕ) (leaderId leaderAddr : Option String) :
    Blind (becomeFollower · term leaderId leaderAddr) := by
  intro n
  refine ⟨[.saveState ⟨term, none, n.commitIndex⟩], fun q => ?_⟩
  unfold becomeFollower
  dsimp only
  rw [show (n.on q).state = n.state from rfl]
  split <;> rfl

/-- So does standing for election. -/
theorem blind_becomeCandidate : Blind becomeCandidate :=
  fun n => ⟨[.saveState ⟨n.currentTerm + 1, some n.replicaId, n.commitIndex⟩], fun _ => rfl⟩

/-- Applying an entry reads the log in memory. -/
theorem blind_applyNext : Blind applyNext := .of_on fun n q => by
  unfold applyNext
  dsimp only
  rw [show (n.on q).log = n.log from rfl, show (n.on q).lastApplied = n.lastApplied from rfl]
  split <;> rfl

theorem blind_applyNext_iterate (k : ℕ) : Blind applyNext^[k] := by
  induction k with
  | zero => exact .id
  | succ k ih => exact blind_applyNext.comp ih

/-- A snapshot is taken of what is in memory. -/
theorem blind_takeSnapshot : Blind takeSnapshot :=
  .look (d := fun n => (n.snapshotHere, n.commitIndex, n.log.getTermAt n.commitIndex))
    (f := fun d n => (n.persist (.saveSnapshot d.1)).compactLog d.2.1 d.2.2) (fun _ _ => rfl)
    fun _ => (blind_persist _).comp (blind_compactLog _ _)

/-- Whether a snapshot is due is read from memory. -/
theorem blind_maybeSnapshot : Blind maybeSnapshot :=
  .ite (fun _ _ => Iff.rfl) .id blind_takeSnapshot

/-- Applying what is committed is applying entries, then perhaps a snapshot. -/
theorem blind_applyCommitted : Blind applyCommitted :=
  .look (d := fun n => n.commitIndex - n.lastApplied)
    (f := fun k n => (applyNext^[k] n).maybeSnapshot) (fun _ _ => rfl)
    fun k => (blind_applyNext_iterate k).comp blind_maybeSnapshot

/-- Moving the commit index, saving it and applying. -/
theorem blind_advanceCommit (index : ℕ) : Blind (advanceCommit · index) := by
  have hset : Blind fun n : RaftNode => { n with commitIndex := index } := .of_on fun _ _ => rfl
  exact (hset.comp blind_persistState).comp blind_applyCommitted

/-- Following the leader's commit index. -/
theorem blind_followCommit (leaderCommit : ℕ) : Blind (followCommit · leaderCommit) :=
  .ite (fun _ _ => Iff.rfl)
    (.look (d := fun n => min leaderCommit n.log.getLastIndex) (f := fun i n => n.advanceCommit i)
      (fun _ _ => rfl) blind_advanceCommit) .id

/-- The candidate for the commit index depends on no storage. -/
theorem commitCandidate_on (n : RaftNode) (q : Persistence) (k : ℕ) :
    (n.on q).commitCandidate k = n.commitCandidate k := by
  induction k with
  | zero => rfl
  | succ k ih =>
      unfold commitCandidate
      rw [ih]
      rfl

/-- Counting a majority is blind, as its candidate is. -/
theorem blind_updateCommitIndex : Blind updateCommitIndex := by
  have hscan : Blind fun n => (n.commitCandidate n.log.getLastIndex).elim n n.advanceCommit :=
    .look (d := fun n => n.commitCandidate n.log.getLastIndex)
      (f := fun found n => found.elim n n.advanceCommit)
      (fun n q => commitCandidate_on n q _) fun found => by
        cases found with
        | none => exact .id
        | some index => exact blind_advanceCommit index
  have heq : updateCommitIndex = fun n : RaftNode =>
      (n.commitCandidate n.log.getLastIndex).elim n n.advanceCommit := by
    funext n
    unfold updateCommitIndex
    cases n.commitCandidate n.log.getLastIndex <;> rfl
  exact heq ▸ hscan

/-- Restoring a snapshot that was received. -/
theorem blind_applySnapshot (snapshot : Snapshot) : Blind (applySnapshot · snapshot) := by
  have hrestore : Blind fun n : RaftNode =>
      (n.restoreBoardState snapshot).setBoundary snapshot.lastIncludedIndex :=
    .of_on fun _ _ => rfl
  exact (((blind_installLog _ _).comp hrestore).comp (blind_persist (.saveSnapshot snapshot))).comp
    blind_persistState

/-! ## The handlers -/

/-- A conflict is found in the log in memory. -/
theorem blind_dropConflict (entry : LogEntry) : Blind (dropConflict · entry) :=
  .ite (fun _ _ => Iff.rfl) (blind_truncateFrom _) .id

/-- So is a missing entry. -/
theorem blind_appendMissing (entry : LogEntry) : Blind (appendMissing · entry) :=
  .ite (fun _ _ => Iff.rfl) (blind_appendLog _) .id

/-- Both, as for one entry of a request. -/
theorem blind_splice (entry : LogEntry) :
    Blind fun n => (n.dropConflict entry).appendMissing entry :=
  (blind_dropConflict entry).comp (blind_appendMissing entry)

/-- The loop of `handleAppendEntries`, with its verdict. -/
theorem blind_appendEntriesLoop (lastIncluded : ℕ) (entries : List LogEntry) :
    (Blind fun n => (n.appendEntriesLoop lastIncluded entries).1) ∧
      ∀ n q, ((on n q).appendEntriesLoop lastIncluded entries).2 =
        (n.appendEntriesLoop lastIncluded entries).2 := by
  induction entries with
  | nil => exact ⟨.id, fun _ _ => rfl⟩
  | cons entry rest ih =>
      obtain ⟨hblind, hverdict⟩ := ih
      have hloop : ∀ n : RaftNode, n.appendEntriesLoop lastIncluded (entry :: rest) =
          if entry.index ≤ lastIncluded then n.appendEntriesLoop lastIncluded rest
          else if n.conflicts entry ∧ entry.index ≤ n.commitIndex then (n, false)
          else ((n.dropConflict entry).appendMissing entry).appendEntriesLoop lastIncluded
            rest := by
        intro n
        rw [appendEntriesLoop]
        unfold spliceEntry
        split
        · rfl
        · by_cases hstop : n.conflicts entry ∧ entry.index ≤ n.commitIndex
          · rw [if_pos hstop, if_pos hstop]
          · rw [if_neg hstop, if_neg hstop]
      constructor
      · have hbranch : Blind fun n : RaftNode =>
            if entry.index ≤ lastIncluded then (n.appendEntriesLoop lastIncluded rest).1
            else if n.conflicts entry ∧ entry.index ≤ n.commitIndex then n
            else (((n.dropConflict entry).appendMissing entry).appendEntriesLoop lastIncluded
              rest).1 :=
          .ite (fun _ _ => Iff.rfl) hblind
            (.ite (fun _ _ => Iff.rfl) .id ((blind_splice entry).comp hblind))
        have heq : (fun n : RaftNode => (n.appendEntriesLoop lastIncluded (entry :: rest)).1) = _ :=
          funext fun n => by rw [hloop, apply_ite Prod.fst, apply_ite Prod.fst]
        rw [heq]
        exact hbranch
      · intro n q
        obtain ⟨calls, hcalls⟩ := blind_splice entry n
        rw [hloop, hloop]
        split
        · exact hverdict n q
        · by_cases hstop : n.conflicts entry ∧ entry.index ≤ n.commitIndex
          · have hstop' : (n.on q).conflicts entry ∧ entry.index ≤ (n.on q).commitIndex := hstop
            rw [if_pos hstop, if_pos hstop']
          · have hstop' : ¬ ((n.on q).conflicts entry ∧ entry.index ≤ (n.on q).commitIndex) :=
              hstop
            rw [if_neg hstop, if_neg hstop',
              show ((n.on q).dropConflict entry).appendMissing entry =
              _ from hcalls q]
            exact hverdict _ _

/-- The entries of a catch-up, by induction on them. -/
theorem blind_catchUpLoop (lastIncluded : ℕ) (entries : List LogEntry) :
    Blind (catchUpLoop lastIncluded · entries) := by
  induction entries with
  | nil => exact .id
  | cons entry rest ih =>
      by_cases hskip : entry.index ≤ lastIncluded
      · have heq : (catchUpLoop lastIncluded · (entry :: rest)) =
            (catchUpLoop lastIncluded · rest) := by
          funext n
          exact if_pos hskip
        rw [heq]
        exact ih
      · have hstep : Blind fun n : RaftNode =>
            if n.conflicts entry ∧ entry.index ≤ n.commitIndex then n
            else (n.dropConflict entry).appendMissing entry :=
          .ite (fun _ _ => Iff.rfl) .id (blind_splice entry)
        have heq : (catchUpLoop lastIncluded · (entry :: rest)) = fun n =>
            catchUpLoop lastIncluded
              (if n.conflicts entry ∧ entry.index ≤ n.commitIndex then n
              else (n.dropConflict entry).appendMissing entry) rest := by
          funext n
          rw [catchUpLoop, if_neg hskip]
          unfold spliceEntry
          split <;> rfl
        rw [heq]
        exact hstep.comp ih

/-- Hearing from a leader. -/
theorem blind_hearLeader (term : ℕ) (leaderId : String) (leaderAddr : Option String) :
    Blind (hearLeader · term leaderId leaderAddr) :=
  .ite (fun _ _ => Iff.rfl) (blind_becomeFollower _ _ _) (.of_on fun _ _ => rfl)

theorem blind_ite_becomeFollower (term : ℕ) :
    Blind fun n => if n.currentTerm < term then n.becomeFollower term none none else n :=
  .ite (fun _ _ => Iff.rfl) (blind_becomeFollower _ _ _) .id

/-- Votes are blind. -/
theorem blind_handleRequestVote (args : RequestVoteArgs) :
    Blind fun n => (n.handleRequestVote args).1 := by
  have hgrant : Blind fun n : RaftNode =>
      if (decide (n.currentTerm ≤ args.term) &&
        (n.votedFor = none || n.votedFor = some args.candidateId) &&
        n.isLogUpToDate args.lastLogIndex args.lastLogTerm) = true then
        ({ n with votedFor := some args.candidateId
                  currentTerm := args.term } : RaftNode).persistState.resetElectionTimer
      else n := by
    have hset : Blind fun n : RaftNode =>
        { n with votedFor := some args.candidateId, currentTerm := args.term } :=
      .of_on fun _ _ => rfl
    have htimer : Blind resetElectionTimer := .of_on fun _ _ => rfl
    exact .ite (fun _ _ => Iff.rfl) ((hset.comp blind_persistState).comp htimer) .id
  exact (blind_ite_becomeFollower args.term).comp hgrant

/-- Taking in a leader's entries is blind. -/
theorem blind_handleAppendEntries (args : AppendEntriesArgs) :
    Blind fun n => (n.handleAppendEntries args).1 := by
  have hheard : Blind (heard · args) := blind_hearLeader _ _ _
  have hloop : ∀ li, Blind fun n => ((n.heard args).appendEntriesLoop li args.entries).1 :=
    fun li =>
    hheard.comp (blind_appendEntriesLoop li args.entries).1
  have hspliced : Blind fun n => (n.spliced args).1 :=
    .look (d := fun n => n.log.lastIncludedIndex)
      (f := fun li n => ((n.heard args).appendEntriesLoop li args.entries).1) (fun _ _ => rfl) hloop
  have hverdict : ∀ n q, ((on n q).spliced args).2 = (n.spliced args).2 := by
    intro n q
    obtain ⟨calls, hcalls⟩ := hheard n
    unfold spliced
    rw [show (n.on q).heard args = _ from hcalls q]
    exact (blind_appendEntriesLoop _ args.entries).2 _ _
  have hbranch : Blind fun n : RaftNode =>
      if args.term < n.currentTerm then n
      else if n.consistent args then
        if (n.spliced args).2 then (n.spliced args).1.followCommit args.leaderCommit
        else (n.spliced args).1
      else n.heard args := by
    refine .ite (fun _ _ => Iff.rfl) .id (.ite (fun _ _ => Iff.rfl) (.ite ?_ ?_ hspliced) hheard)
    · intro n q
      rw [hverdict]
    · exact hspliced.comp (blind_followCommit _)
  have heq : (fun n : RaftNode => (n.handleAppendEntries args).1) = _ := funext fun n =>
    (congrArg Prod.fst (handleAppendEntries_eq n args)).trans (by
      rw [apply_ite Prod.fst, apply_ite Prod.fst, apply_ite Prod.fst])
  rw [heq]
  exact hbranch

/-- Heartbeats are blind. -/
theorem blind_handleHeartbeat (args : HeartbeatArgs) :
    Blind fun n => (n.handleHeartbeat args).1 := by
  have heq : (fun n : RaftNode => (n.handleHeartbeat args).1) = fun n =>
      if args.term < n.currentTerm then n
      else (n.hearLeader args.term args.leaderId args.leaderAddr).followCommit
        args.leaderCommit := by
    funext n
    unfold handleHeartbeat
    split <;> rfl
  rw [heq]
  exact .ite (fun _ _ => Iff.rfl) .id ((blind_hearLeader _ _ _).comp (blind_followCommit _))

/-- Install a snapshot that is ahead of the commit index. -/
theorem blind_install (snapshot : Snapshot) :
    Blind fun n => if snapshot.lastIncludedIndex ≤ n.commitIndex then n
      else n.applySnapshot snapshot :=
  .ite (fun _ _ => Iff.rfl) .id (blind_applySnapshot _)

/-- Taking in a leader's snapshot is blind. -/
theorem blind_handleInstallSnapshot (args : InstallSnapshotArgs) :
    Blind fun n => (n.handleInstallSnapshot args).1 := by
  have hhear := (blind_hearLeader args.term args.leaderId none).comp (blind_install args.snapshot)
  have heq : ∀ n : RaftNode, (n.handleInstallSnapshot args).1 =
      if args.term < n.currentTerm then n
      else if args.snapshot.lastIncludedIndex ≤
          (n.hearLeader args.term args.leaderId none).commitIndex then
        n.hearLeader args.term args.leaderId none
      else (n.hearLeader args.term args.leaderId none).applySnapshot args.snapshot := by
    intro n
    unfold handleInstallSnapshot
    split <;> rfl
  rw [funext heq]
  exact .ite (fun _ _ => Iff.rfl) .id hhear

/-- Answering a catch-up is blind. -/
theorem blind_handleSyncLog (args : SyncLogArgs) : Blind fun n => (n.handleSyncLog args).1 := by
  have heq : (fun n : RaftNode => (n.handleSyncLog args).1) = fun n =>
      if n.currentTerm < args.term then n.becomeFollower args.term none none else n := by
    funext n
    unfold handleSyncLog
    dsimp only
    generalize (if n.currentTerm < args.term then n.becomeFollower args.term none none else n) = m
    split <;> rfl
  rw [heq]
  exact blind_ite_becomeFollower args.term

/-- Cursors are kept in memory. -/
theorem blind_onAppendEntriesReply (peer : String) (args : AppendEntriesArgs)
    (result : AppendEntriesResult) : Blind (onAppendEntriesReply · peer args result) :=
  .ite (fun _ _ => Iff.rfl) (blind_becomeFollower _ _ _)
    (.ite (fun _ _ => Iff.rfl)
      (.ite (fun _ _ => Iff.rfl) (.of_on fun _ _ => rfl) (.of_on fun _ _ => rfl))
      (.of_on fun _ _ => rfl))

/-- After a snapshot too. -/
theorem blind_onInstallSnapshotReply (peer : String) (args : InstallSnapshotArgs)
    (result : InstallSnapshotResult) : Blind (onInstallSnapshotReply · peer args result) :=
  .ite (fun _ _ => Iff.rfl) (blind_becomeFollower _ _ _) (.of_on fun _ _ => rfl)

/-- The snapshot of a catch-up, if it is ahead. -/
theorem blind_catchUpSnapshot (snapshot : Option Snapshot) :
    Blind (catchUpSnapshot · snapshot) := by
  cases snapshot with
  | none => exact .id
  | some s => exact .ite (fun _ _ => Iff.rfl) (blind_applySnapshot s) .id

/-- A whole catch-up: step down, snapshot, entries, commit index. -/
theorem blind_onSyncLogReply (result : SyncLogResult) : Blind (onSyncLogReply · result) := by
  have hloop : Blind fun n : RaftNode => n.catchUpLoop n.log.lastIncludedIndex
      (result.entries.filter fun e => e.index ≤ result.commitIndex) :=
    .look (d := fun n => n.log.lastIncludedIndex)
      (f := fun li n => n.catchUpLoop li
        (result.entries.filter fun e => e.index ≤ result.commitIndex))
      (fun _ _ => rfl) fun li => blind_catchUpLoop li _
  exact (((blind_ite_becomeFollower result.term).comp (blind_catchUpSnapshot result.snapshot)).comp
    hloop).comp (blind_followCommit result.commitIndex)

/-- **A replica does not see its storage.** -/
theorem blind_run (op : Op) : Blind (Op.run · op) := by
  cases op with
  | becomeCandidate => exact blind_becomeCandidate
  | becomeLeader => exact .of_on fun _ _ => rfl
  | resetElectionTimer => exact .of_on fun _ _ => rfl
  | becomeFollower term leaderId leaderAddr => exact blind_becomeFollower _ _ _
  | handle request =>
      cases request with
      | requestVote args => exact blind_handleRequestVote args
      | appendEntries args => exact blind_handleAppendEntries args
      | heartbeat args => exact blind_handleHeartbeat args
      | syncLog args => exact blind_handleSyncLog args
      | installSnapshot args => exact blind_handleInstallSnapshot args
  | onAppendEntriesReply peer args result => exact blind_onAppendEntriesReply _ _ _
  | onInstallSnapshotReply peer args result => exact blind_onInstallSnapshotReply _ _ _
  | onSyncLogReply result => exact blind_onSyncLogReply result
  | updateCommitIndex => exact blind_updateCommitIndex
  | clientAppend stroke =>
      have hmatch : ∀ e : LogEntry, Blind fun n => n.setMatchIndex n.replicaId e.index :=
        fun e => .of_on fun _ _ => rfl
      exact .look (d := fun n => n.clientEntry stroke)
        (f := fun e n => (n.appendLog e).setMatchIndex (n.appendLog e).replicaId e.index)
        (fun _ _ => rfl) fun e => (blind_appendLog e).comp (hmatch e)

end RaftNode

end QuorumCanvas
