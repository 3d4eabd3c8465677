import QuorumCanvas.NodeOps

/-!
# The snapshots of a run

A snapshot is made by `takeSnapshot`, and from then on only handed on: to the file of the
replica, to a peer, and to the file of the peer.  What holds of every snapshot that a node can
make therefore holds of all snapshots on file and on their way (`stores_localInvariant`).
-/

namespace QuorumCanvas

open RaftNode (Request Reply Op Through Issues)

section Stores

variable (T : ℕ → Prop) (S : Snapshot → Prop)

/-- A node whose boards come from events, and whose threshold is one of `T`. -/
structure Groomed (n : RaftNode) : Prop where
  boards : ∃ events, n.boards = Boards.replay [] events
  threshold : T n.snapshotThreshold

/-- The snapshot on file, if there is one, meets `S`. -/
def SnapshotFile (p : Persistence) : Prop := ∀ s, p.loadSnapshot = some s → S s

/-- From a groomed node `n` to `n'` the snapshot on file meets `S` at every moment, if it does at
first. -/
def Stores (n n' : RaftNode) : Prop :=
  Groomed T n → SnapshotFile S n.persistence → Groomed T n' ∧ Through (SnapshotFile S) n n'

variable {T S} {n n' n'' : RaftNode}

theorem Groomed.of_eq (h : Groomed T n) (hboards : n'.boards = n.boards)
    (hthreshold : n'.snapshotThreshold = n.snapshotThreshold) : Groomed T n' :=
  ⟨hboards ▸ h.boards, hthreshold ▸ h.threshold⟩

/-- A call that saves a good snapshot, or none, leaves a good file. -/
theorem SnapshotFile.run {p : Persistence} (h : SnapshotFile S p) {call : PersistenceCall}
    (hcall : ∀ s, call = .saveSnapshot s → S s) : SnapshotFile S (p.run call) := by
  intro s hs
  unfold Persistence.run at hs
  split at hs
  · exact h s hs
  · cases call with
    | saveState state => exact h s hs
    | appendLog entry => exact h s hs
    | rewriteLog entries => exact h s hs
    | saveSnapshot snapshot =>
        obtain rfl := Option.some.inj hs
        exact hcall _ rfl

namespace Stores

theorem refl (n : RaftNode) : Stores T S n n := fun hn h => ⟨hn, .refl h⟩

theorem trans (h : Stores T S n n') (h' : Stores T S n' n'') : Stores T S n n'' := by
  intro hn hfile
  obtain ⟨hn', hthrough⟩ := h hn hfile
  obtain ⟨hn'', hthrough'⟩ := h' hn' hthrough.last
  exact ⟨hn'', hthrough.trans hthrough'⟩

/-- Steps that make no call. -/
theorem of_eq (hc : n'.calls = n.calls) (hp : n'.persistence = n.persistence)
    (hboards : n'.boards = n.boards) (hthreshold : n'.snapshotThreshold = n.snapshotThreshold) :
    Stores T S n n' :=
  fun hn h => ⟨hn.of_eq hboards hthreshold, .of_eq hc hp h⟩

/-- A single call, from a node that is groomed. -/
theorem persist (n : RaftNode) (call : PersistenceCall)
    (h : Groomed T n → ∀ s, call = .saveSnapshot s → S s) : Stores T S n (n.persist call) :=
  fun hn hfile => ⟨hn.of_eq rfl rfl, .persist call hfile (hfile.run (h hn))⟩

/-- A change of the log that is written through. -/
theorem rewrite (n : RaftNode) (log : RaftLog) :
    Stores T S n ({ n with log }.persist (.rewriteLog log.entries)) :=
  (of_eq rfl rfl rfl rfl : Stores T S n { n with log }).trans (persist _ _ fun _ => nofun)

end Stores

/-- Terms and votes are no snapshot. -/
theorem stores_persistState (n : RaftNode) : Stores T S n n.persistState :=
  .persist n _ fun _ => nofun

/-- Stepping down stores none. -/
theorem stores_becomeFollower (n : RaftNode) (term : ℕ) (leaderId leaderAddr : Option String) :
    Stores T S n (n.becomeFollower term leaderId leaderAddr) := by
  have hset : Stores T S n { n with
      state := .follower
      currentTerm := term
      votedFor := none
      leaderId := leaderId <|> n.leaderId
      leaderAddr := leaderAddr <|> n.leaderAddr } := .of_eq rfl rfl rfl rfl
  apply (hset.trans (stores_persistState _)).trans
  unfold RaftNode.becomeFollower
  dsimp only
  split <;> exact .of_eq rfl rfl rfl rfl

theorem stores_ite_becomeFollower (n : RaftNode) (term : ℕ) :
    Stores T S n (if n.currentTerm < term then n.becomeFollower term none none else n) := by
  split
  · exact stores_becomeFollower n _ _ _
  · exact .refl n

/-- Appending stores none. -/
theorem stores_appendLog (n : RaftNode) (entry : LogEntry) : Stores T S n (n.appendLog entry) :=
  (Stores.of_eq rfl rfl rfl rfl : Stores T S n { n with log := n.log.append entry }).trans
    (.persist _ _ fun _ => nofun)

/-- Compacting rewrites the log, and stores none. -/
theorem stores_compactLog (n : RaftNode) (uptoIndex term : ℕ) :
    Stores T S n (n.compactLog uptoIndex term) := by
  unfold RaftNode.compactLog
  split
  · exact .refl n
  · exact .rewrite n _

/-- Applying an entry keeps the boards groomed. -/
theorem stores_applyNext (n : RaftNode) : Stores T S n n.applyNext := by
  unfold RaftNode.applyNext
  dsimp only
  split
  · next entry _ =>
      intro hn h
      obtain ⟨events, hboards⟩ := hn.boards
      refine ⟨⟨⟨events ++ [entry.stroke], ?_⟩, hn.threshold⟩, .of_eq rfl rfl h⟩
      rw [Boards.replay_append, ← hboards]
      rfl
  · exact .of_eq rfl rfl rfl rfl

theorem stores_applyNext_iterate (n : RaftNode) (k : ℕ) :
    Stores T S n (RaftNode.applyNext^[k] n) := by
  induction k with
  | zero => exact .refl n
  | succ k ih =>
      rw [Function.iterate_succ_apply']
      exact ih.trans (stores_applyNext _)

/-- The snapshots that a groomed node makes when it is time meet `S`. -/
def Makes (T : ℕ → Prop) (S : Snapshot → Prop) : Prop :=
  ∀ n : RaftNode, Groomed T n → n.snapshotThreshold ≤ n.commitIndex → S n.snapshotHere

variable (hS : Makes T S)

include hS

/-- Applying what is committed may store a snapshot of the boards then. -/
theorem stores_applyCommitted (n : RaftNode) : Stores T S n n.applyCommitted := by
  apply (stores_applyNext_iterate n (n.commitIndex - n.lastApplied)).trans
  unfold RaftNode.applyCommitted RaftNode.maybeSnapshot
  split
  · exact .refl _
  · next hlong =>
      have hsave : ∀ m : RaftNode, m.snapshotThreshold ≤ m.commitIndex →
          Stores T S m (m.persist (.saveSnapshot m.snapshotHere)) := by
        intro m hm
        apply Stores.persist
        intro hgroomed s hs
        obtain rfl := PersistenceCall.saveSnapshot.inj hs
        exact hS m hgroomed hm
      exact (hsave _ (by omega)).trans (stores_compactLog _ _ _)

/-- So may moving the commit index. -/
theorem stores_advanceCommit (n : RaftNode) (index : ℕ) :
    Stores T S n (n.advanceCommit index) := by
  have hset : Stores T S n { n with commitIndex := index } := .of_eq rfl rfl rfl rfl
  exact (hset.trans (stores_persistState _)).trans (stores_applyCommitted hS _)

/-- So may following the leader's. -/
theorem stores_followCommit (n : RaftNode) (leaderCommit : ℕ) :
    Stores T S n (n.followCommit leaderCommit) := by
  unfold RaftNode.followCommit
  split
  · exact stores_advanceCommit hS n _
  · exact .refl n

/-- So may counting a majority. -/
theorem stores_updateCommitIndex (n : RaftNode) : Stores T S n n.updateCommitIndex := by
  unfold RaftNode.updateCommitIndex
  split
  · exact stores_advanceCommit hS n _
  · exact .refl n

omit hS

/-- A snapshot that is restored is stored as it came. -/
theorem stores_applySnapshot (n : RaftNode) {snapshot : Snapshot} (hs : S snapshot) :
    Stores T S n (n.applySnapshot snapshot) := by
  have hset : ∀ m : RaftNode,
      Stores T S m ((m.restoreBoardState snapshot).setBoundary snapshot.lastIncludedIndex) :=
    fun m hm h => ⟨⟨⟨_, rfl⟩, hm.threshold⟩, .of_eq rfl rfl h⟩
  have hsave : ∀ m : RaftNode, Stores T S m (m.persist (.saveSnapshot snapshot)) := by
    intro m
    apply Stores.persist
    intro _ s heq
    obtain rfl := PersistenceCall.saveSnapshot.inj heq
    exact hs
  exact (((Stores.rewrite n _).trans (hset _)).trans (hsave _)).trans (stores_persistState _)

/-- Splicing an entry stores none. -/
theorem stores_spliceEntry (n : RaftNode) (entry : LogEntry) :
    Stores T S n ((n.dropConflict entry).appendMissing entry) := by
  have hdrop : Stores T S n (n.dropConflict entry) := by
    unfold RaftNode.dropConflict RaftNode.truncateFrom
    split
    · split
      · exact .rewrite n _
      · exact .refl n
    · exact .refl n
  apply hdrop.trans
  unfold RaftNode.appendMissing
  split
  · exact stores_appendLog _ _
  · exact .refl _

/-- The entries of a request, by induction on them. -/
theorem stores_appendEntriesLoop (n : RaftNode) (lastIncluded : ℕ) (entries : List LogEntry) :
    Stores T S n (n.appendEntriesLoop lastIncluded entries).1 := by
  induction entries generalizing n with
  | nil => exact .refl n
  | cons entry rest ih =>
      unfold RaftNode.appendEntriesLoop
      split
      · exact ih n
      · unfold RaftNode.spliceEntry
        split
        · next hsome =>
            split at hsome
            · cases hsome
            · obtain rfl := Option.some.inj hsome
              exact (stores_spliceEntry n entry).trans (ih _)
        · exact .refl n

/-- The entries of a catch-up, by induction on them. -/
theorem stores_catchUpLoop (n : RaftNode) (lastIncluded : ℕ) (entries : List LogEntry) :
    Stores T S n (n.catchUpLoop lastIncluded entries) := by
  induction entries generalizing n with
  | nil => exact .refl n
  | cons entry rest ih =>
      unfold RaftNode.catchUpLoop
      split
      · exact ih n
      · unfold RaftNode.spliceEntry
        split
        · exact ih n
        · exact (stores_spliceEntry n entry).trans (ih _)

/-- Hearing from a leader stores none. -/
theorem stores_hearLeader (n : RaftNode) (term : ℕ) (leaderId : String)
    (leaderAddr : Option String) : Stores T S n (n.hearLeader term leaderId leaderAddr) := by
  unfold RaftNode.hearLeader
  split
  · exact stores_becomeFollower n _ _ _
  · exact .of_eq rfl rfl rfl rfl

/-- The snapshot that a request brings meets `S`. -/
def BringsRequest (S : Snapshot → Prop) : Request → Prop
  | .installSnapshot args => S args.snapshot
  | _ => True

/-- The snapshot that a reply brings meets `S`. -/
def BringsReply (S : Snapshot → Prop) : Reply → Prop
  | .syncLog result => ∀ s, result.snapshot = some s → S s
  | _ => True

include hS

/-- A request that brings good snapshots only. -/
theorem stores_handle (n : RaftNode) (request : Request) (h : BringsRequest S request) :
    Stores T S n (n.handle request).1 := by
  cases request with
  | requestVote args =>
      show Stores T S n (n.handleRequestVote args).1
      unfold RaftNode.handleRequestVote
      dsimp only
      apply (stores_ite_becomeFollower n args.term).trans
      generalize (if n.currentTerm < args.term then n.becomeFollower args.term none none else n) = m
      split
      · have hset : Stores T S m
            { m with votedFor := some args.candidateId, currentTerm := args.term } :=
          .of_eq rfl rfl rfl rfl
        have htimer : ∀ m : RaftNode, Stores T S m m.resetElectionTimer :=
          fun m => .of_eq rfl rfl rfl rfl
        exact (hset.trans (stores_persistState _)).trans (htimer _)
      · exact .refl _
  | appendEntries args =>
      show Stores T S n (n.handleAppendEntries args).1
      unfold RaftNode.handleAppendEntries
      split
      · exact .refl n
      · dsimp only
        have hhear : Stores T S n (n.hearLeader args.term args.leaderId args.leaderAddr) :=
          stores_hearLeader n _ _ _
        generalize n.hearLeader args.term args.leaderId args.leaderAddr = m at hhear ⊢
        split
        · have hloop : Stores T S m (m.appendEntriesLoop m.log.lastIncludedIndex args.entries).1 :=
            stores_appendEntriesLoop m _ _
          split
          · next m' heq =>
              rw [heq] at hloop
              exact (hhear.trans hloop).trans (stores_followCommit hS m' _)
          · next m' heq =>
              rw [heq] at hloop
              exact hhear.trans hloop
        · exact hhear
  | heartbeat args =>
      show Stores T S n (n.handleHeartbeat args).1
      unfold RaftNode.handleHeartbeat
      split
      · exact .refl n
      · exact (stores_hearLeader n _ _ _).trans (stores_followCommit hS _ _)
  | syncLog args =>
      show Stores T S n (n.handleSyncLog args).1
      unfold RaftNode.handleSyncLog
      dsimp only
      split <;> exact stores_ite_becomeFollower n _
  | installSnapshot args =>
      show Stores T S n (n.handleInstallSnapshot args).1
      unfold RaftNode.handleInstallSnapshot
      split
      · exact .refl n
      · dsimp only
        apply (stores_hearLeader n args.term args.leaderId none).trans
        split
        · exact .refl _
        · exact stores_applySnapshot _ h

/-- A catch-up that brings good snapshots only. -/
theorem stores_onSyncLogReply (n : RaftNode) {result : SyncLogResult}
    (h : BringsReply S (.syncLog result)) : Stores T S n (n.onSyncLogReply result) := by
  unfold RaftNode.onSyncLogReply
  dsimp only
  apply (stores_ite_becomeFollower n result.term).trans
  generalize (if n.currentTerm < result.term then n.becomeFollower result.term none none else n) = m
  have hinstall : Stores T S m (m.catchUpSnapshot result.snapshot) := by
    unfold RaftNode.catchUpSnapshot
    split
    · next s hs =>
        split
        · exact stores_applySnapshot m (h s hs)
        · exact .refl m
    · exact .refl m
  exact (hinstall.trans (stores_catchUpLoop _ _ _)).trans (stores_followCommit hS _ _)

/-- An operation that takes in snapshots that meet `S`. -/
theorem stores_run (n : RaftNode) (op : Op) (hrequest : ∀ request, op = .handle request →
    BringsRequest S request) (hreply : ∀ result, op = .onSyncLogReply result →
    BringsReply S (.syncLog result)) : Stores T S n (Op.run n op) := by
  cases op with
  | becomeCandidate =>
      have hset : Stores T S n { n with
          state := .candidate
          currentTerm := n.currentTerm + 1
          votedFor := some n.replicaId
          leaderId := none } := .of_eq rfl rfl rfl rfl
      exact hset.trans (stores_persistState _)
  | becomeLeader => exact .of_eq rfl rfl rfl rfl
  | resetElectionTimer => exact .of_eq rfl rfl rfl rfl
  | becomeFollower term leaderId leaderAddr => exact stores_becomeFollower n _ _ _
  | handle request => exact stores_handle hS n request (hrequest request rfl)
  | onAppendEntriesReply peer args result =>
      show Stores T S n (n.onAppendEntriesReply peer args result)
      unfold RaftNode.onAppendEntriesReply
      split
      · exact stores_becomeFollower n _ _ _
      · split
        · split <;> exact .of_eq rfl rfl rfl rfl
        · exact .of_eq rfl rfl rfl rfl
  | onInstallSnapshotReply peer args result =>
      show Stores T S n (n.onInstallSnapshotReply peer args result)
      unfold RaftNode.onInstallSnapshotReply
      split
      · exact stores_becomeFollower n _ _ _
      · exact .of_eq rfl rfl rfl rfl
  | onSyncLogReply result => exact stores_onSyncLogReply hS n (hreply result rfl)
  | updateCommitIndex => exact stores_updateCommitIndex hS n
  | clientAppend stroke => exact (stores_appendLog n _).trans (.of_eq rfl rfl rfl rfl)

/-- A node that starts on a good file rewrites none before it is done. -/
theorem stores_construct (params : RaftNode.Params) (hT : T params.snapshotThreshold)
    {p : Persistence} (hp : SnapshotFile S p) :
    (Groomed T (.construct params p) ∧
      SnapshotFile S (RaftNode.construct params p).persistence) ∧
      ∀ k, SnapshotFile S (p.replay ((RaftNode.construct params p).calls.take k)) := by
  obtain ⟨base, hbase, hcalls, hfiles, hgroomed⟩ :
      ∃ base : RaftNode, RaftNode.construct params p =
          { base.applyCommitted with timers := base.applyCommitted.timers.startElectionTimer } ∧
        base.calls = [] ∧ base.persistence = p ∧ Groomed T base := by
    unfold RaftNode.construct
    cases p.loadSnapshot with
    | none => exact ⟨_, rfl, rfl, rfl, ⟨[], rfl⟩, hT⟩
    | some snapshot => exact ⟨_, rfl, rfl, rfl, ⟨_, rfl⟩, hT⟩
  subst hfiles
  obtain ⟨happlied, hthrough⟩ := stores_applyCommitted hS base hgroomed hp
  rw [hbase]
  refine ⟨⟨happlied.of_eq rfl rfl, hthrough.last⟩, fun k => ?_⟩
  obtain ⟨calls, hc, -, hF⟩ := hthrough
  rw [hcalls, List.nil_append] at hc
  dsimp only
  rw [hc]
  exact hF k

/-- **All snapshots of a run** meet `S`: those on file and those on their way. -/
theorem stores_localInvariant (cfg : Config)
    (hT : ∀ a ∈ cfg.members, T (cfg.params a).snapshotThreshold) :
    Cluster.LocalInvariant cfg (fun n => Groomed T n ∧ SnapshotFile S n.persistence)
      (SnapshotFile S) (BringsRequest S) (BringsReply S) (fun _ _ => True) where
  construct := fun a ha _ hp => stores_construct hS (cfg.params a) (hT a ha) hp
  file := fun _ h => h.2
  begin_turn := fun _ h => ⟨h.1.of_eq rfl rfl, h.2⟩
  step := fun n op hn h => by
    obtain ⟨hgroomed, hthrough⟩ := stores_run hS n op (fun request heq => by subst heq; exact h)
      (fun result heq => by subst heq; exact h) hn.1 hn.2
    exact ⟨⟨hgroomed, hthrough.last⟩, hthrough⟩
  issue := fun n peer request h hi => by
    cases hi with
    | requestVote => trivial
    | heartbeat => trivial
    | syncLog => trivial
    | replicate _ hreq =>
        unfold RaftNode.replicateRequest at hreq
        dsimp only at hreq
        split at hreq
        · cases hreq
        · split at hreq
          · obtain ⟨snapshot, hsnap, rfl⟩ := Option.map_eq_some_iff.mp hreq
            exact h.2 snapshot hsnap
          · obtain rfl := Option.some.inj hreq
            trivial
  answer := by
    intro n request h _
    cases request with
    | requestVote args => trivial
    | appendEntries args => trivial
    | heartbeat args => trivial
    | installSnapshot args => trivial
    | syncLog args =>
        show BringsReply S (.syncLog (n.handleSyncLog args).2)
        have hm := (stores_ite_becomeFollower n args.term h.1 h.2).2.last
        unfold RaftNode.handleSyncLog
        dsimp only
        generalize (if n.currentTerm < args.term then n.becomeFollower args.term none none else n) =
          m at *
        split
        · next snapshot hserved =>
            intro s hs
            obtain rfl := Option.some.inj hs
            split at hserved
            · exact hm _ hserved
            · cases hserved
        · exact nofun

omit hS

end Stores

/-! ## Records -/

/-- The boards of a record have distinct names. -/
def Snapshot.IsRecord (snapshot : Snapshot) : Prop := OrderedMap.KeysDistinct snapshot.boards

/-- `takeSnapshot` builds a record. -/
theorem makes_isRecord (T : ℕ → Prop) : Makes T Snapshot.IsRecord := by
  have hfold : ∀ (boards : Boards Stroke) (record : Record), OrderedMap.KeysDistinct record →
      OrderedMap.KeysDistinct
        (boards.foldl (fun record b => Record.assign record b.1 b.2.events) record) := by
    intro boards
    induction boards with
    | nil => exact fun _ h => h
    | cons b boards ih =>
        intro record h
        apply ih
        by_cases hproto : b.1 = "__proto__"
        · simp only [Record.assign, if_pos hproto]
          exact h
        · simp only [Record.assign, if_neg hproto]
          exact h.set _ _
  intro n _ _
  exact hfold n.boards [] OrderedMap.keysDistinct_nil

/-- The snapshots of a run are records. -/
theorem Cluster.records_reach {cfg : Config} {c : Cluster}
    (h : Reach cfg Runs.Any (.init cfg) c) :
    Local cfg (fun n => Groomed (fun _ => True) n ∧ SnapshotFile Snapshot.IsRecord n.persistence)
      (BringsRequest Snapshot.IsRecord) (BringsReply Snapshot.IsRecord) c := by
  have hI := stores_localInvariant (makes_isRecord fun _ => True) cfg fun _ _ => trivial
  apply hI.reach (fun _ _ _ _ _ _ => trivial) (hI.init _) h
  intro backend s hs
  cases hs

end QuorumCanvas
