import QuorumCanvas.Backends
import QuorumCanvas.Indices

/-!
# The snapshot behind a compacted log

Once entries have been compacted away, only the saved snapshot can stand for them:
`handleSyncLog` and `sendInstallSnapshot` read it back.  On files the snapshot of the
boundary is always there, whatever a replica receives.  `MemoryPersistence` forgets
what it is given, so there the boundary is backed only as long as it is at zero.
-/

namespace QuorumCanvas

namespace RaftNode

variable {n n' : RaftNode} {params : Params}

/-! ## Catch-up replies that reach the log -/

/-- The operations that leave no gap in a log: the entries of a message are in order,
and those of a catch-up reply begin no later than behind the node's last entry. -/
def Op.Gapless (n : RaftNode) : Op → Prop
  | .onSyncLogReply result => ∃ i ≤ n.log.getLastIndex, Consecutive i result.entries
  | op => op.Orderly n

/-- The committed part of consecutive entries. -/
theorem Consecutive.filter_le {i c : ℕ} {es : List LogEntry} (h : Consecutive i es) :
    Consecutive i (es.filter fun e => e.index ≤ c) := by
  induction es generalizing i with
  | nil => exact fun k e hk => by simp at hk
  | cons e rest ih =>
      obtain ⟨he, hrest⟩ := h.tail
      by_cases hle : e.index ≤ c
      · rw [List.filter_cons_of_pos (by simpa using hle)]
        intro k e' hk
        cases k with
        | zero =>
            obtain rfl := Option.some.inj hk
            omega
        | succ k =>
            have := ih hrest k e' hk
            omega
      · -- the entries behind lie beyond as well
        have hnone : (rest.filter fun e => e.index ≤ c) = [] := by
          refine List.filter_eq_nil_iff.mpr fun e' he' => ?_
          obtain ⟨k, hk⟩ := List.mem_iff_getElem?.mp he'
          have := hrest k e' hk
          simp
          omega
        rw [List.filter_cons_of_neg (by simpa using hle), hnone]
        exact fun k e' hk => by simp at hk

/-- The entries of a catch-up, by induction on them. -/
theorem ascends_catchUpLoop {es : List LogEntry} {i li : ℕ}
    (hli : n.log.lastIncludedIndex = li) (hes : Consecutive i es) (hi : i ≤ n.log.getLastIndex) :
    Ascends n (n.catchUpLoop li es) := by
  induction es generalizing n i with
  | nil => exact .refl n
  | cons e rest ih =>
      obtain ⟨he, hrest⟩ := hes.tail
      unfold catchUpLoop
      split
      · refine ih hli hrest ?_
        unfold RaftLog.getLastIndex
        omega
      · next hbeyond =>
          have hlt : n.log.lastIncludedIndex < e.index := by omega
          cases hsplice : n.spliceEntry e with
          | none =>
              -- the entry clashes with a committed one, so the log holds one at its index
              have hclash : n.conflicts e = true := by
                unfold spliceEntry at hsplice
                split at hsplice
                · next hno => exact hno.1
                · cases hsplice
              have := (conflicts_iff.mp hclash).bounds.2
              exact ih hli hrest (by omega)
          | some n' =>
              obtain ⟨hreach, hbound⟩ := reaches_spliceEntry he hi hlt hsplice
              exact (ascends_spliceEntry (by omega) hlt hsplice).trans
                (ih (hbound.trans hli) hrest hreach)

/-- A snapshot takes no entry behind it away. -/
theorem getLastIndex_applySnapshot (hn : n.Tidy) (s : Snapshot)
    (hs : n.commitIndex < s.lastIncludedIndex) :
    n.log.getLastIndex ≤ (n.applySnapshot s).log.getLastIndex := by
  have hahead : n.log.lastIncludedIndex ≤ s.lastIncludedIndex := hn.boundary_le.trans hs.le
  show n.log.getLastIndex ≤
    (n.log.installSnapshot s.lastIncludedIndex s.lastIncludedTerm).getLastIndex
  unfold RaftLog.installSnapshot RaftLog.getLastIndex
  dsimp only
  rw [hn.contiguous.filter_eq_drop hahead, List.length_drop]
  omega

/-- The snapshot of a catch-up does not shorten the log. -/
theorem getLastIndex_catchUpSnapshot (hn : n.Tidy) (snapshot : Option Snapshot) :
    n.log.getLastIndex ≤ (n.catchUpSnapshot snapshot).log.getLastIndex := by
  unfold catchUpSnapshot
  split
  · split
    · next hlt => exact getLastIndex_applySnapshot hn _ hlt
    · exact le_rfl
  · exact le_rfl

/-- It ascends. -/
theorem ascends_catchUpSnapshot (n : RaftNode) (snapshot : Option Snapshot) :
    Ascends n (n.catchUpSnapshot snapshot) := by
  unfold catchUpSnapshot
  split
  · split
    · next hlt => exact ascends_applySnapshot n hlt
    · exact .refl n
  · exact .refl n

/-- So does a catch-up without gaps. -/
theorem ascends_onSyncLogReply {result : SyncLogResult} {i : ℕ} (hi : i ≤ n.log.getLastIndex)
    (hes : Consecutive i result.entries) : Ascends n (n.onSyncLogReply result) := fun h => by
  have hlog : (if n.currentTerm < result.term then n.becomeFollower result.term none none
      else n).log = n.log := by
    split
    · exact becomeFollower_log n _ _ _
    · rfl
  have hdown := ascends_ite_becomeFollower n result.term
  unfold onSyncLogReply
  generalize (if n.currentTerm < result.term then n.becomeFollower result.term none none
    else n) = m at hlog hdown ⊢
  have hreach := getLastIndex_catchUpSnapshot (hdown h).1 result.snapshot
  rw [hlog] at hreach
  exact (((hdown.trans (ascends_catchUpSnapshot m result.snapshot)).trans
    (ascends_catchUpLoop rfl hes.filter_le (hi.trans hreach))).trans
      (ascends_followCommit _ _)) h

/-- A gapless operation keeps a node tidy. -/
theorem ascends_gapless (n : RaftNode) (op : Op) (h : op.Gapless n) : Ascends n (Op.run n op) := by
  cases op with
  | onSyncLogReply result =>
      obtain ⟨i, hi, hes⟩ := h
      exact ascends_onSyncLogReply hi hes
  | _ => exact ascends_run n _ h

/-! ## On files -/

/-- What a restart would read is what the node has, so the boundary is the snapshot's. -/
theorem Tidy.backed (h : n.Tidy) (hpos : 0 < n.log.lastIncludedIndex) :
    ∃ s, n.persistence.loadSnapshot = some s ∧ s.lastIncludedIndex = n.log.lastIncludedIndex ∧
      s.lastIncludedTerm = n.log.lastIncludedTerm := by
  have hlog := h.log
  unfold RaftLog.ofPersistence at hlog
  cases hs : n.persistence.loadSnapshot with
  | none =>
      rw [hs] at hlog
      rw [hlog] at hpos
      cases hpos
  | some s =>
      rw [hs] at hlog
      rw [hlog]
      exact ⟨s, rfl, rfl, rfl⟩

/-- The entries a contiguous log serves from an index above its boundary. -/
theorem RaftLog.Contiguous.consecutive_getEntriesFrom {log : RaftLog} (h : log.Contiguous)
    {from' : ℕ} (hfrom : log.lastIncludedIndex < from') :
    Consecutive (from' - 1) (log.getEntriesFrom from') := by
  intro k e hk
  unfold RaftLog.getEntriesFrom at hk
  rw [if_neg (by omega), List.getElem?_drop] at hk
  have := h _ e hk
  omega

/-- What the readers of the snapshot need: a boundary above zero is backed. -/
def Backed (n : RaftNode) : Prop :=
  0 < n.log.lastIncludedIndex →
    ∃ s, n.persistence.loadSnapshot = some s ∧ s.lastIncludedIndex = n.log.lastIncludedIndex ∧
      s.lastIncludedTerm = n.log.lastIncludedTerm

/-- The node that answers a `syncLog` differs from the one asked in term and vote only. -/
theorem handleSyncLog_reads (n : RaftNode) (args : SyncLogArgs) :
    ∃ m : RaftNode, m.log = n.log ∧ m.commitIndex = n.commitIndex ∧
      m.persistence.loadSnapshot = n.persistence.loadSnapshot ∧
      (n.handleSyncLog args).2 =
        match (if args.fromIndex ≤ m.log.lastIncludedIndex then m.persistence.loadSnapshot
          else none) with
        | some snapshot => ⟨m.currentTerm, [], m.commitIndex, some snapshot⟩
        | none => ⟨m.currentTerm, (m.log.getEntriesFrom args.fromIndex).filter
            fun e => e.index ≤ m.commitIndex, m.commitIndex, none⟩ := by
  refine ⟨if n.currentTerm < args.term then n.becomeFollower args.term none none else n,
    ?_, ?_, ?_, ?_⟩
  · split
    · exact becomeFollower_log n _ _ _
    · rfl
  · exact commitIndex_of_marks (marks_ite_becomeFollower n args.term)
  · split
    · unfold becomeFollower persistState persist Persistence.run
      dsimp only
      cases hb : n.persistence.backend <;> split <;> rfl
    · rfl
  · unfold handleSyncLog
    dsimp only
    generalize (if n.currentTerm < args.term then n.becomeFollower args.term none none
      else n) = m
    cases (if args.fromIndex ≤ m.log.lastIncludedIndex then m.persistence.loadSnapshot
      else none) <;> rfl

/-- **The reply to a catch-up** from a node whose boundary is backed has no gap. -/
theorem Backed.handleSyncLog (h : n.Backed) (hlog : n.log.Contiguous) {args : SyncLogArgs}
    (hfrom : 1 ≤ args.fromIndex) :
    (∃ s, (n.handleSyncLog args).2.snapshot = some s ∧ args.fromIndex ≤ s.lastIncludedIndex) ∨
      (n.handleSyncLog args).2.snapshot = none ∧
        Consecutive (args.fromIndex - 1) (n.handleSyncLog args).2.entries := by
  obtain ⟨m, hmlog, hcommit, hfiles, heq⟩ := handleSyncLog_reads n args
  rw [heq, hmlog, hfiles, hcommit]
  by_cases hle : args.fromIndex ≤ n.log.lastIncludedIndex
  · obtain ⟨s, hs, hindex, -⟩ := h (hfrom.trans hle)
    rw [if_pos hle, hs]
    exact Or.inl ⟨s, rfl, hle.trans hindex.ge⟩
  · rw [if_neg hle]
    exact Or.inr ⟨rfl, (RaftLog.Contiguous.consecutive_getEntriesFrom hlog
      (Nat.not_le.mp hle)).filter_le⟩

/-- **A peer whose entries are compacted away** is sent the snapshot. -/
theorem Backed.replicateRequest (h : n.Backed) {peer : String} {i : ℕ}
    (hlead : n.state = .leader) (hpos : 0 < n.log.lastIncludedIndex)
    (hnext : n.nextIndex peer = some i) (hi : i ≤ n.log.lastIncludedIndex) :
    ∃ s, n.replicateRequest peer = some (.installSnapshot ⟨n.currentTerm, n.replicaId, s⟩) ∧
      i ≤ s.lastIncludedIndex := by
  obtain ⟨s, hs, hindex, -⟩ := h hpos
  refine ⟨s, ?_, hi.trans hindex.ge⟩
  unfold RaftNode.replicateRequest
  rw [if_neg (not_not.mpr hlead), hnext]
  dsimp only [Option.getD_some]
  rw [if_pos hi, hs]
  rfl

/-! ## In memory -/

/-- The operation takes in a snapshot that is ahead of the commit index. -/
def Op.Installs (n : RaftNode) : Op → Prop
  | .handle (.installSnapshot args) =>
      n.currentTerm ≤ args.term ∧ n.commitIndex < args.snapshot.lastIncludedIndex
  | .onSyncLogReply result => ∃ s, result.snapshot = some s ∧ n.commitIndex < s.lastIncludedIndex
  | _ => False

/-- The operation takes in no snapshot, and leaves the commit index below the threshold
at which the node takes one. -/
def Op.Spares (n : RaftNode) (op : Op) : Prop :=
  ¬ op.Installs n ∧ (Op.run n op).commitIndex < n.snapshotThreshold

/-- Boundary and threshold are marks. -/
theorem lastIncludedIndex_of_marks (h : n'.marks = n.marks) :
    n'.log.lastIncludedIndex = n.log.lastIncludedIndex ∧
      n'.snapshotThreshold = n.snapshotThreshold :=
  ⟨congrArg Marks.boundary h, congrArg Marks.snapshotThreshold h⟩

/-- No snapshot is taken below the threshold. -/
theorem lastIncludedIndex_advanceCommit {index : ℕ} (h : index < n.snapshotThreshold) :
    (n.advanceCommit index).log.lastIncludedIndex = n.log.lastIncludedIndex := by
  have hlog := log_applyCommitted ({ n with commitIndex := index } : RaftNode).persistState
  have hbelow : index - n.log.lastIncludedIndex < n.snapshotThreshold := by omega
  exact congrArg RaftLog.lastIncludedIndex (hlog.trans (if_pos hbelow))

/-- Following a commit index below the threshold takes no snapshot. -/
theorem lastIncludedIndex_followCommit {leaderCommit : ℕ}
    (h : (n.followCommit leaderCommit).commitIndex < n.snapshotThreshold) :
    (n.followCommit leaderCommit).log.lastIncludedIndex = n.log.lastIncludedIndex := by
  rw [commitIndex_followCommit] at h
  unfold followCommit
  split
  · next hlt =>
      rw [if_pos hlt] at h
      exact lastIncludedIndex_advanceCommit h
  · rfl

/-- Following a commit index after steps that leave the marks alone. -/
theorem lastIncludedIndex_followCommit_of_marks {m : RaftNode} {leaderCommit : ℕ}
    (hm : m.marks = n.marks) (h : (m.followCommit leaderCommit).commitIndex < n.snapshotThreshold) :
    (m.followCommit leaderCommit).log.lastIncludedIndex = n.log.lastIncludedIndex := by
  obtain ⟨hbound, hthreshold⟩ := lastIncludedIndex_of_marks hm
  exact (lastIncludedIndex_followCommit (hthreshold ▸ h)).trans hbound

/-- Votes move no mark. -/
theorem marks_handleRequestVote (n : RaftNode) (args : RequestVoteArgs) :
    (n.handleRequestVote args).1.marks = n.marks := by
  have hdown := marks_ite_becomeFollower n args.term
  unfold handleRequestVote
  dsimp only
  generalize (if n.currentTerm < args.term then n.becomeFollower args.term none none
    else n) = m at hdown
  split <;> exact hdown

/-- Neither does answering a catch-up. -/
theorem marks_handleSyncLog (n : RaftNode) (args : SyncLogArgs) :
    (n.handleSyncLog args).1.marks = n.marks := by
  have hdown := marks_ite_becomeFollower n args.term
  unfold handleSyncLog
  dsimp only
  split <;> exact hdown

/-- Replies move cursors only. -/
theorem marks_onAppendEntriesReply (n : RaftNode) (peer : String) (args : AppendEntriesArgs)
    (result : AppendEntriesResult) : (n.onAppendEntriesReply peer args result).marks = n.marks := by
  unfold onAppendEntriesReply
  split
  · exact marks_becomeFollower n _ _ _
  · split
    · split <;> rfl
    · rfl

/-- After a snapshot too. -/
theorem marks_onInstallSnapshotReply (n : RaftNode) (peer : String) (args : InstallSnapshotArgs)
    (result : InstallSnapshotResult) :
    (n.onInstallSnapshotReply peer args result).marks = n.marks := by
  unfold onInstallSnapshotReply
  split
  · exact marks_becomeFollower n _ _ _
  · rfl

/-- Entries of a leader, committed below the threshold. -/
theorem lastIncludedIndex_handleAppendEntries {args : AppendEntriesArgs}
    (h : (n.handleAppendEntries args).1.commitIndex < n.snapshotThreshold) :
    (n.handleAppendEntries args).1.log.lastIncludedIndex = n.log.lastIncludedIndex := by
  have heq := handleAppendEntries_eq n args
  have hheard : (n.heard args).marks = n.marks := marks_hearLeader n _ _ _
  have hloop : (n.spliced args).1.marks = n.marks := (marks_appendEntriesLoop _ _ _).trans hheard
  split at heq
  · rw [(Prod.mk.inj heq).1]
  · split at heq
    · split at heq
      · rw [(Prod.mk.inj heq).1] at h ⊢
        exact lastIncludedIndex_followCommit_of_marks hloop h
      · rw [(Prod.mk.inj heq).1]
        exact (lastIncludedIndex_of_marks hloop).1
    · rw [(Prod.mk.inj heq).1]
      exact (lastIncludedIndex_of_marks hheard).1

/-- A heartbeat, committed below the threshold. -/
theorem lastIncludedIndex_handleHeartbeat {args : HeartbeatArgs}
    (h : (n.handleHeartbeat args).1.commitIndex < n.snapshotThreshold) :
    (n.handleHeartbeat args).1.log.lastIncludedIndex = n.log.lastIncludedIndex := by
  unfold handleHeartbeat at h ⊢
  split at h
  · next hlt => rw [if_pos hlt]
  · next hge =>
      rw [if_neg hge]
      exact lastIncludedIndex_followCommit_of_marks (marks_hearLeader n _ _ _) h

/-- A snapshot that is not ahead is not installed. -/
theorem lastIncludedIndex_handleInstallSnapshot {args : InstallSnapshotArgs}
    (hstale : ¬ (n.currentTerm ≤ args.term ∧ n.commitIndex < args.snapshot.lastIncludedIndex)) :
    (n.handleInstallSnapshot args).1.log.lastIncludedIndex = n.log.lastIncludedIndex := by
  have hhear := marks_hearLeader n args.term args.leaderId none
  unfold handleInstallSnapshot
  split
  · rfl
  · next hge =>
      dsimp only
      rw [if_pos ((commitIndex_of_marks hhear).trans_ge (by omega))]
      exact (lastIncludedIndex_of_marks hhear).1

/-- A catch-up without a snapshot that is ahead, committed below the threshold. -/
theorem lastIncludedIndex_onSyncLogReply {result : SyncLogResult}
    (hno : ¬ ∃ s, result.snapshot = some s ∧ n.commitIndex < s.lastIncludedIndex)
    (h : (n.onSyncLogReply result).commitIndex < n.snapshotThreshold) :
    (n.onSyncLogReply result).log.lastIncludedIndex = n.log.lastIncludedIndex := by
  have hdown := marks_ite_becomeFollower n result.term
  unfold onSyncLogReply at h ⊢
  generalize (if n.currentTerm < result.term then n.becomeFollower result.term none none
    else n) = m at hdown h ⊢
  have hsame : m.catchUpSnapshot result.snapshot = m := by
    unfold catchUpSnapshot
    split
    · next s hs =>
        have hstale : ¬ m.commitIndex < s.lastIncludedIndex := fun hlt =>
          hno ⟨s, hs, commitIndex_of_marks hdown ▸ hlt⟩
        exact if_neg hstale
    · rfl
  dsimp only at h ⊢
  rw [hsame] at h ⊢
  exact lastIncludedIndex_followCommit_of_marks ((marks_catchUpLoop _ _ _).trans hdown) h

/-- A majority, counted below the threshold. -/
theorem lastIncludedIndex_updateCommitIndex
    (h : n.updateCommitIndex.commitIndex < n.snapshotThreshold) :
    n.updateCommitIndex.log.lastIncludedIndex = n.log.lastIncludedIndex := by
  unfold updateCommitIndex at h ⊢
  cases hfound : n.commitCandidate n.log.getLastIndex with
  | none => rfl
  | some index =>
      rw [hfound] at h
      have hindex : (n.advanceCommit index).commitIndex = index := (applied_applyCommitted _).2.1
      exact lastIncludedIndex_advanceCommit (hindex ▸ h)

/-- **An operation that spares the log** leaves its boundary where it is. -/
theorem lastIncludedIndex_run (op : Op) (h : op.Spares n) :
    (Op.run n op).log.lastIncludedIndex = n.log.lastIncludedIndex := by
  obtain ⟨hno, hbelow⟩ := h
  cases op with
  | becomeCandidate => rfl
  | becomeLeader => rfl
  | resetElectionTimer => rfl
  | becomeFollower term leaderId leaderAddr =>
      exact (lastIncludedIndex_of_marks (marks_becomeFollower n _ _ _)).1
  | handle request =>
      cases request with
      | requestVote args => exact (lastIncludedIndex_of_marks (n.marks_handleRequestVote args)).1
      | appendEntries args => exact lastIncludedIndex_handleAppendEntries hbelow
      | heartbeat args => exact lastIncludedIndex_handleHeartbeat hbelow
      | syncLog args => exact (lastIncludedIndex_of_marks (n.marks_handleSyncLog args)).1
      | installSnapshot args => exact lastIncludedIndex_handleInstallSnapshot hno
  | onAppendEntriesReply peer args result =>
      exact (lastIncludedIndex_of_marks (n.marks_onAppendEntriesReply peer args result)).1
  | onInstallSnapshotReply peer args result =>
      exact (lastIncludedIndex_of_marks (n.marks_onInstallSnapshotReply peer args result)).1
  | onSyncLogReply result => exact lastIncludedIndex_onSyncLogReply hno hbelow
  | updateCommitIndex => exact lastIncludedIndex_updateCommitIndex hbelow
  | clientAppend stroke => rfl

/-- A node in memory that would be tidy if its calls had reached a file, and that has
not compacted its log. -/
structure Unsaved (n : RaftNode) : Prop where
  files : n.persistence = .fresh .memory
  tidy : ∃ q, (n.on q).Tidy
  whole : n.log.lastIncludedIndex = 0

/-- Memory keeps no files. -/
theorem replay_memory (calls : List PersistenceCall) :
    (Persistence.fresh .memory).replay calls = .fresh .memory := by
  induction calls with
  | nil => rfl
  | cons call calls ih => exact ih

/-- A node in memory that takes no snapshot has all its entries. -/
theorem Unsaved.run (h : n.Unsaved) {op : Op} (hop : op.Gapless n) (hspares : op.Spares n) :
    (Op.run n op).Unsaved := by
  obtain ⟨q, hq⟩ := h.tidy
  obtain ⟨calls, hfiles, hblind⟩ := (blind_run op).persistence n
  refine ⟨?_, ⟨q.replay calls, ?_⟩, (lastIncludedIndex_run op hspares).trans h.whole⟩
  · rw [hfiles, h.files, replay_memory]
  · rw [← hblind q]
    have hop' : op.Gapless (n.on q) := by
      cases op <;> exact hop
    exact (ascends_gapless (n.on q) op hop' hq).1

/-- A node in memory starts like one on files that do not exist yet. -/
theorem construct_memory (params : Params) :
    ∃ calls, (construct params (.fresh .memory)).on ((Persistence.fresh .file).replay calls) =
      construct params (.fresh .file) := by
  obtain ⟨base, hbase⟩ : ∃ base : RaftNode, ∀ q, q.loadSnapshot = none →
      q.loadState = ⟨0, none, 0⟩ → q.loadLog = [] → construct params q =
        { (base.on q).applyCommitted with
          timers := (base.on q).applyCommitted.timers.startElectionTimer } := by
    refine ⟨{ replicaId := params.replicaId, peers := params.peers, selfUrl := params.selfUrl,
              snapshotThreshold := params.snapshotThreshold, batchCap := params.batchCap,
              currentTerm := 0, votedFor := none, log := ⟨[], 0, 0⟩, state := .follower,
              leaderId := none, leaderAddr := none, commitIndex := 0, lastApplied := 0,
              nextIndex := fun _ => none, matchIndex := fun _ => none, boards := [],
              timers := ⟨false, false, false⟩, persistence := .fresh .file, calls := [],
              history := [], restored := (0, []) }, fun q hsnapshot hstate hlog => ?_⟩
    unfold construct RaftLog.ofPersistence
    dsimp only
    rw [hsnapshot, hstate, hlog]
    rfl
  obtain ⟨calls, hcalls⟩ := blind_applyCommitted base
  refine ⟨calls, ?_⟩
  rw [hbase _ rfl rfl rfl, hbase _ rfl rfl rfl, hcalls, hcalls]
  rfl

/-- So has a new one. -/
theorem unsaved_construct (params : Params) : (construct params (.fresh .memory)).Unsaved := by
  obtain ⟨calls, hsame⟩ := construct_memory params
  obtain ⟨base, hbase⟩ := boots_construct params (.fresh .memory)
  obtain ⟨calls', hfiles, -⟩ := (blind_applyCommitted).persistence base
  refine ⟨?_, ⟨(Persistence.fresh .file).replay calls, ?_⟩, ?_⟩
  · rw [hbase.eq]
    show base.applyCommitted.persistence = _
    rw [hfiles, hbase.files, replay_memory]
  · rw [hsame]
    exact (tidy_construct params Persistence.clean_fresh).1
  · rw [hbase.eq]
    show base.applyCommitted.log.lastIncludedIndex = 0
    have hzero : base.log.lastIncludedIndex = 0 := congrArg RaftLog.lastIncludedIndex hbase.log
    have hcommit : base.commitIndex = 0 := hbase.commitIndex
    rw [log_applyCommitted]
    split
    · exact hzero
    · rw [RaftLog.lastIncludedIndex_compact, hzero, hcommit]
      rfl

/-! ## Whole lives -/

/-- An operation that leaves no gap, and compacts the log only if the snapshot is kept. -/
def Op.Backs (n : RaftNode) (op : Op) : Prop :=
  op.Gapless n ∧ (n.persistence.backend = .file ∨ op.Spares n)

/-- A step whose operation meets `ok`; a restart always does. -/
def Step.Meets (ok : RaftNode → Op → Prop) (n : RaftNode) : Step → Prop
  | .operate op => ok n op
  | .restart => True

/-- The states a replica can come to by operations that meet `ok` and restarts. -/
abbrev Endures (params : Params) (ok : RaftNode → Op → Prop) : RaftNode → RaftNode → Prop :=
  Runs.Reach (fun n step => some (Step.run params n step)) (Step.Meets ok)

/-- What every such step keeps. -/
def Grounded (n : RaftNode) : Prop := n.Tidy ∨ n.Unsaved

/-- Every backed step leaves the node grounded. -/
theorem Grounded.step (h : n.Grounded) (step : Step) (hstep : step.Meets Op.Backs n) :
    (step.run params n).Grounded := by
  rcases h with htidy | hmem
  · left
    cases step with
    | operate op => exact (ascends_gapless n op hstep.1 htidy).1
    | restart => exact (tidy_construct params htidy.clean).1
  · right
    have hfile : n.persistence.backend ≠ .file := by
      rw [hmem.files]
      exact nofun
    cases step with
    | operate op => exact hmem.run hstep.1 (hstep.2.resolve_left hfile)
    | restart =>
        show (construct params n.persistence).Unsaved
        rw [hmem.files]
        exact unsaved_construct params

/-- A new node is. -/
theorem grounded_construct (params : Params) (backend : Backend) :
    (construct params (.fresh backend)).Grounded := by
  cases backend with
  | file => exact Or.inl (tidy_construct params Persistence.clean_fresh).1
  | memory => exact Or.inr (unsaved_construct params)

/-- A grounded node backs its log, by entries or by a snapshot. -/
theorem Grounded.backed (h : n.Grounded) : n.Backed ∧ n.log.Contiguous := by
  rcases h with htidy | hmem
  · exact ⟨htidy.backed, htidy.contiguous⟩
  · obtain ⟨q, hq⟩ := hmem.tidy
    refine ⟨fun hpos => ?_, hq.contiguous⟩
    rw [hmem.whole] at hpos
    cases hpos

/-- **A compacted log has its snapshot,** on either backend, after any steps that leave no
gap in the log and compact it only where the snapshot is kept.  A reply to a catch-up then
carries a snapshot that covers the index asked for, or entries that begin there; and a
peer whose next entry is compacted away is sent the snapshot. -/
theorem compacted_log_has_snapshot {backend : Backend}
    (h : Endures params Op.Backs (construct params (.fresh backend)) n) :
    (0 < n.log.lastIncludedIndex →
      ∃ s, n.persistence.loadSnapshot = some s ∧
        s.lastIncludedIndex = n.log.lastIncludedIndex ∧
        s.lastIncludedTerm = n.log.lastIncludedTerm) ∧
    (∀ args : SyncLogArgs, 1 ≤ args.fromIndex →
      (∃ s, (n.handleSyncLog args).2.snapshot = some s ∧ args.fromIndex ≤ s.lastIncludedIndex) ∨
        (n.handleSyncLog args).2.snapshot = none ∧
          Consecutive (args.fromIndex - 1) (n.handleSyncLog args).2.entries) ∧
    ∀ (peer : String) (i : ℕ), n.state = .leader → 0 < n.log.lastIncludedIndex →
      n.nextIndex peer = some i → i ≤ n.log.lastIncludedIndex →
      ∃ s, n.replicateRequest peer = some (.installSnapshot ⟨n.currentTerm, n.replicaId, s⟩) ∧
        i ≤ s.lastIncludedIndex := by
  have hn : n.Grounded := h.invariant (grounded_construct params backend)
    fun _ step _ hn hok hnext => Option.some.inj hnext ▸ hn.step step hok
  obtain ⟨hbacked, hlog⟩ := hn.backed
  exact ⟨hbacked, fun args hfrom => hbacked.handleSyncLog hlog hfrom,
    fun peer i hlead hpos hnext hi => hbacked.replicateRequest hlead hpos hnext hi⟩

/-- A replica of its own that takes a snapshot after two entries. -/
def hermit : Params := ⟨"a", [], "a", 2, 64⟩

/-- It leads. -/
def leading (backend : Backend) : RaftNode :=
  (construct hermit (.fresh backend)).becomeCandidate.becomeLeader

/-- It has written three strokes, and taken a snapshot after the second. -/
def written (backend : Backend) : RaftNode :=
  (((((leading backend).clientAppend (.dot "x" "board")).updateCommitIndex.clientAppend
    (.dot "y" "board")).updateCommitIndex).clientAppend (.dot "z" "board")).updateCommitIndex

/-- A write and its commit, on either storage. -/
theorem endures_written {ok : RaftNode → Op → Prop} {backend : Backend}
    (hok : ∀ n op, n.persistence.backend = backend → op.Gapless n → ok n op) :
    Endures hermit ok (construct hermit (.fresh backend)) (written backend) := by
  have hstep : ∀ {n : RaftNode} (op : Op), n.persistence.backend = backend → op.Gapless n →
      Endures hermit ok (construct hermit (.fresh backend)) n →
      Endures hermit ok (construct hermit (.fresh backend)) (Op.run n op) :=
    fun op hb hop h => h.tail (e := .operate op) (hok _ op hb hop) rfl
  have hlead : Endures hermit ok (construct hermit (.fresh backend)) (leading backend) :=
    hstep .becomeLeader (by cases backend <;> rfl) trivial
      (hstep .becomeCandidate (by cases backend <;> rfl) trivial .refl)
  have hone := hstep .updateCommitIndex (by cases backend <;> rfl) trivial
    (hstep (.clientAppend (.dot "x" "board")) (by cases backend <;> rfl) trivial hlead)
  have htwo := hstep .updateCommitIndex (by cases backend <;> rfl) trivial
    (hstep (.clientAppend (.dot "y" "board")) (by cases backend <;> rfl) trivial hone)
  exact hstep .updateCommitIndex (by cases backend <;> rfl) trivial
    (hstep (.clientAppend (.dot "z" "board")) (by cases backend <;> rfl) trivial htwo)

/-- On files it answers a peer that has nothing with its snapshot. -/
theorem compacted_log_has_snapshot_written :
    ∃ s, ((written .file).handleSyncLog ⟨1, 1, "a"⟩).2.snapshot = some s ∧
      s.lastIncludedIndex = 2 := by
  have hrun : Endures hermit Op.Backs (construct hermit (.fresh .file)) (written .file) :=
    endures_written fun n op hb hop => ⟨hop, Or.inl hb⟩
  obtain ⟨s, hs, hindex, -⟩ := (compacted_log_has_snapshot hrun).1 (by decide)
  have hsame : ((written .file).handleSyncLog ⟨1, 1, "a"⟩).2.snapshot =
      (written .file).persistence.loadSnapshot := by decide
  exact ⟨s, hsame.trans hs, hindex.trans (by decide)⟩

/-- **A compacted log without its snapshot.**  In memory the same three writes leave a
log that begins at index 3: a peer that asks from index 1 gets that entry and nothing
before it, and one that starts there is sent nothing at all. -/
theorem compacted_log_lacks_snapshot :
    Endures hermit Op.Gapless (construct hermit (.fresh .memory)) (written .memory) ∧
      0 < (written .memory).log.lastIncludedIndex ∧
      (written .memory).persistence.loadSnapshot = none ∧
      ((written .memory).handleSyncLog ⟨1, 1, "a"⟩).2.snapshot = none ∧
      ((written .memory).handleSyncLog ⟨1, 1, "a"⟩).2.entries.map LogEntry.index = [3] ∧
      ((written .memory).setNextIndex "b" 1).replicateRequest "b" = none :=
  ⟨endures_written fun _ _ _ hop => hop, by decide, by decide, by decide, by decide, by decide⟩

end RaftNode

end QuorumCanvas
