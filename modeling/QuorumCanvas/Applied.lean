import QuorumCanvas.NodeOps

/-!
# What the boards of a replica show

The boards of a node are the replay of some list of events, and board by board
that list is the history of entries the node has applied.  The one exception is
the board called `__proto__`: a snapshot is a plain object, which cannot hold a
property of that name, so its events do not survive a snapshot.

`Kept C B` states this for the boards in `B`, together with a condition `C` that
every entry ever written meets.  It is a local invariant.
-/

namespace QuorumCanvas

open Boards (eventsOf)
open RaftNode (Through recordEvents boardsRecord Request Reply Issues Op)

/-- The events among entries with their indices. -/
def strokesOf (history : List (ℕ × LogEntry)) : List Stroke := history.map fun x => x.2.stroke

/-! ## The object of a snapshot -/

/-- The object of `takeSnapshot` lists the boards in order, without `__proto__`. -/
theorem foldl_assign (boards : Boards Stroke) (record : Record)
    (h : (record.map Prod.fst ++ boards.map Prod.fst).Nodup) :
    boards.foldl (fun record b => record.assign b.1 b.2.events) record =
      record ++ (boards.filter fun b => b.1 ≠ "__proto__").map fun b => (b.1, b.2.events) := by
  induction boards generalizing record with
  | nil => simp
  | cons b boards ih =>
      obtain ⟨hr, hb, hdisj⟩ := List.nodup_append.mp h
      obtain ⟨hbnot, hnd⟩ := List.nodup_cons.mp hb
      rw [List.foldl_cons]
      by_cases hproto : b.1 = "__proto__"
      · have hassign : record.assign b.1 b.2.events = record := by
          unfold Record.assign
          rw [if_pos hproto]
        rw [hassign, ih record]
        · simp [hproto]
        · exact List.nodup_append.mpr ⟨hr, hnd, fun x hx y hy =>
            hdisj x hx y (List.mem_cons_of_mem _ hy)⟩
      · have hnew : b.1 ∉ record.map Prod.fst := fun hin =>
          hdisj _ hin _ List.mem_cons_self rfl
        have hassign : record.assign b.1 b.2.events = record ++ [(b.1, b.2.events)] := by
          unfold Record.assign
          rw [if_neg hproto]
          exact OrderedMap.set_eq_append _ hnew
        rw [hassign, ih (record ++ [(b.1, b.2.events)])]
        · simp [hproto]
        · rw [List.map_append, List.append_assoc]
          exact h

/-- **Board by board,** the object of `takeSnapshot` holds the events the boards
were replayed from, `__proto__` excepted. -/
theorem eventsOf_boardsRecord (events : List Stroke) (boardId : String) :
    eventsOf (recordEvents (boardsRecord (Boards.replay [] events))) boardId =
      if boardId = "__proto__" then [] else eventsOf events boardId := by
  have hkeys := Boards.keysDistinct_replay [] OrderedMap.keysDistinct_nil events
  have hfold := foldl_assign (Boards.replay [] events) []
      (by simpa [OrderedMap.KeysDistinct] using hkeys)
  have hids : (((Boards.replay [] events).filter fun b => b.1 ≠ "__proto__").map Prod.fst).Nodup :=
    hkeys.sublist (List.filter_sublist.map _)
  have hrecord : recordEvents (boardsRecord (Boards.replay [] events)) =
      (((Boards.replay [] events).filter fun b => b.1 ≠ "__proto__").map Prod.fst).flatMap
        fun i => eventsOf events i := by
    unfold recordEvents boardsRecord
    rw [hfold, List.nil_append, List.flatMap_map, List.flatMap_map]
    refine List.flatMap_congr fun b hb => ?_
    have hboard := Boards.board_of_mem hkeys (List.mem_of_mem_filter hb)
    rw [← Boards.events_board_replay events b.1, hboard]
  rw [hrecord, Boards.eventsOf_flatMap events hids]
  by_cases hproto : boardId = "__proto__"
  · simp [hproto]
  · rw [if_neg hproto]
    by_cases hnil : eventsOf events boardId = []
    · simp [hnil]
    · have hmem : boardId ∈ (Boards.replay [] events).map Prod.fst := by
        refine Boards.mem_keys_of_events ?_
        rwa [Boards.events_board_replay]
      obtain ⟨b, hb, rfl⟩ := List.mem_map.mp hmem
      rw [if_pos]
      exact List.mem_map.mpr ⟨b, List.mem_filter.mpr ⟨hb, by simpa using hproto⟩, rfl⟩

/-! ## The invariant -/

section Kept

variable (C : LogEntry → Prop) (B : String → Prop)

/-- A snapshot that stands for the history it covers, on the boards in `B`. -/
structure KeptSnapshot (s : Snapshot) : Prop where
  entries : ∀ x ∈ s.covered, C x.2
  boards : ∀ b, B b → eventsOf (recordEvents s.boards) b = eventsOf (strokesOf s.covered) b

/-- Entries and snapshot on file are kept. -/
structure KeptFiles (p : Persistence) : Prop where
  log : ∀ e ∈ p.loadLog, C e
  snapshot : ∀ s, p.loadSnapshot = some s → KeptSnapshot C B s

/-- A node that shows its history, on the boards in `B`. -/
structure KeptNode (n : RaftNode) : Prop where
  files : KeptFiles C B n.persistence
  log : ∀ e ∈ n.log.entries, C e
  history : ∀ x ∈ n.history, C x.2
  boards : ∃ events, n.boards = Boards.replay [] events ∧
    ∀ b, B b → eventsOf events b = eventsOf (strokesOf n.history) b

/-- The entries and snapshots of a request are kept. -/
def KeptRequest : Request → Prop
  | .appendEntries args => ∀ e ∈ args.entries, C e
  | .installSnapshot args => KeptSnapshot C B args.snapshot
  | .requestVote _ | .heartbeat _ | .syncLog _ => True

/-- The entries and snapshots of a reply are kept. -/
def KeptReply : Reply → Prop
  | .syncLog result => (∀ e ∈ result.entries, C e) ∧
      ∀ s, result.snapshot = some s → KeptSnapshot C B s
  | .requestVote _ | .appendEntries _ | .heartbeat _ | .installSnapshot _ => True

/-! The invariant allows more entries when `C` does. -/

section Mono

variable {C B} {D : LogEntry → Prop} (hle : ∀ e, C e → D e)

include hle

theorem KeptSnapshot.mono {s : Snapshot} (h : KeptSnapshot C B s) : KeptSnapshot D B s :=
  ⟨fun x hx => hle _ (h.entries x hx), h.boards⟩

theorem KeptFiles.mono {p : Persistence} (h : KeptFiles C B p) : KeptFiles D B p :=
  ⟨fun e he => hle e (h.log e he), fun s hs => (h.snapshot s hs).mono hle⟩

theorem KeptNode.mono {n : RaftNode} (h : KeptNode C B n) : KeptNode D B n :=
  ⟨h.files.mono hle, fun e he => hle e (h.log e he), fun x hx => hle _ (h.history x hx), h.boards⟩

theorem KeptRequest.mono {request : Request} (h : KeptRequest C B request) :
    KeptRequest D B request := by
  cases request with
  | requestVote args => trivial
  | heartbeat args => trivial
  | syncLog args => trivial
  | appendEntries args => exact fun e he => hle e (h e he)
  | installSnapshot args => exact KeptSnapshot.mono hle h

theorem KeptReply.mono {reply : Reply} (h : KeptReply C B reply) : KeptReply D B reply := by
  cases reply with
  | requestVote result => trivial
  | heartbeat result => trivial
  | appendEntries result => trivial
  | installSnapshot result => trivial
  | syncLog result =>
      exact ⟨fun e he => hle e (h.1 e he), fun s hs => KeptSnapshot.mono hle (h.2 s hs)⟩

end Mono

/-- What an operation may take in. -/
def KeptOp (n : RaftNode) : Op → Prop
  | .handle request => KeptRequest C B request
  | .onSyncLogReply result => KeptReply C B (.syncLog result)
  | .clientAppend stroke => C (n.clientEntry stroke)
  | _ => True

/-- What a persistence call may write. -/
def KeptCall : PersistenceCall → Prop
  | .saveState _ => True
  | .appendLog e => C e
  | .rewriteLog es => ∀ e ∈ es, C e
  | .saveSnapshot s => KeptSnapshot C B s

/-- From `n` to `n'` the invariant is kept, by the files at every moment. -/
def Keeps (n n' : RaftNode) : Prop :=
  KeptNode C B n → KeptNode C B n' ∧ Through (KeptFiles C B) n n'

variable {C B} {n n' n'' : RaftNode}

/-- A kept call leaves kept files. -/
theorem KeptFiles.run {p : Persistence} (h : KeptFiles C B p) {call : PersistenceCall}
    (hcall : KeptCall C B call) : KeptFiles C B (p.run call) := by
  cases hb : p.backend with
  | memory =>
      have hsame : p.run call = p := by simp [Persistence.run, hb]
      rw [hsame]
      exact h
  | file =>
      cases call with
      | saveState s =>
          rw [Persistence.run_saveState hb]
          exact ⟨h.log, h.snapshot⟩
      | appendLog e =>
          rw [Persistence.run_appendLog hb]
          refine ⟨fun e' he' => ?_, h.snapshot⟩
          rcases List.mem_append.mp he' with hold | hnew
          · exact h.log e' hold
          · rw [List.mem_singleton.mp hnew]
            exact hcall
      | rewriteLog es =>
          rw [Persistence.run_rewriteLog hb]
          exact ⟨hcall, h.snapshot⟩
      | saveSnapshot s =>
          rw [Persistence.run_saveSnapshot hb]
          refine ⟨h.log, fun s' hs' => ?_⟩
          obtain rfl := Option.some.inj hs'
          exact hcall

namespace Keeps

theorem refl (n : RaftNode) : Keeps C B n n := fun h => ⟨h, .refl h.files⟩

theorem trans (h : Keeps C B n n') (h' : Keeps C B n' n'') : Keeps C B n n'' := fun hn => by
  obtain ⟨hn', ht⟩ := h hn
  obtain ⟨hn'', ht'⟩ := h' hn'
  exact ⟨hn'', ht.trans ht'⟩

/-- Steps that concern none of log, history, boards and files. -/
theorem of_eq (hlog : n'.log = n.log) (hhist : n'.history = n.history)
    (hboards : n'.boards = n.boards) (hcalls : n'.calls = n.calls)
    (hfiles : n'.persistence = n.persistence) : Keeps C B n n' := fun h => by
  refine ⟨⟨?_, ?_, ?_, ?_⟩, .of_eq hcalls hfiles h.files⟩
  · rw [hfiles]
    exact h.files
  · rw [hlog]
    exact h.log
  · rw [hhist]
    exact h.history
  · rw [hboards, hhist]
    exact h.boards

/-- A persistence call. -/
theorem persist (call : PersistenceCall) (hcall : KeptNode C B n → KeptCall C B call) :
    Keeps C B n (n.persist call) := fun h => by
  have hfiles := h.files.run (hcall h)
  exact ⟨⟨hfiles, h.log, h.history, h.boards⟩, .persist call h.files hfiles⟩

/-- A change of the in-memory log that brings in no other entries. -/
theorem setLog (log : RaftLog) (hlog : KeptNode C B n → ∀ e ∈ log.entries, C e) :
    Keeps C B n { n with log } := fun h =>
  ⟨⟨h.files, hlog h, h.history, h.boards⟩, .of_eq rfl rfl h.files⟩

end Keeps

/-- Terms and votes are no entries. -/
theorem keeps_persistState (n : RaftNode) : Keeps C B n n.persistState :=
  .persist _ fun _ => trivial

/-- Stepping down adds no entry. -/
theorem keeps_becomeFollower (n : RaftNode) (term : ℕ) (leaderId leaderAddr : Option String) :
    Keeps C B n (n.becomeFollower term leaderId leaderAddr) := by
  have hset : Keeps C B n { n with
      state := .follower
      currentTerm := term
      votedFor := none
      leaderId := leaderId <|> n.leaderId
      leaderAddr := leaderAddr <|> n.leaderAddr } := .of_eq rfl rfl rfl rfl rfl
  refine (hset.trans (keeps_persistState _)).trans ?_
  unfold RaftNode.becomeFollower
  dsimp only
  split <;> exact .of_eq rfl rfl rfl rfl rfl

theorem keeps_ite_becomeFollower (n : RaftNode) (term : ℕ) :
    Keeps C B n (if n.currentTerm < term then n.becomeFollower term none none else n) := by
  split
  · exact keeps_becomeFollower n _ _ _
  · exact .refl n

/-- A kept entry may be appended. -/
theorem keeps_appendLog (n : RaftNode) {entry : LogEntry} (he : C entry) :
    Keeps C B n (n.appendLog entry) := by
  refine (Keeps.setLog (n.log.append entry) fun h e hmem => ?_).trans (.persist _ fun _ => he)
  rcases List.mem_append.mp hmem with hold | hnew
  · exact h.log e hold
  · rw [List.mem_singleton.mp hnew]
    exact he

/-- Rewriting the log from entries it had. -/
theorem keeps_rewriteLog (n : RaftNode) {log : RaftLog} (hsub : log.entries ⊆ n.log.entries) :
    Keeps C B n ({ n with log }.persist (.rewriteLog log.entries)) :=
  (Keeps.setLog log fun h e he => h.log e (hsub he)).trans (.persist _ fun h => h.log)

/-- Truncating only removes entries. -/
theorem keeps_truncateFrom (n : RaftNode) (index : ℕ) : Keeps C B n (n.truncateFrom index) := by
  unfold RaftNode.truncateFrom
  split
  · exact keeps_rewriteLog n (n.log.truncateFrom_subset index)
  · exact .refl n

/-- Compacting only removes entries, and rewrites the file with the rest. -/
theorem keeps_compactLog (n : RaftNode) (uptoIndex term : ℕ) :
    Keeps C B n (n.compactLog uptoIndex term) := by
  unfold RaftNode.compactLog
  split
  · exact .refl n
  · exact keeps_rewriteLog n (n.log.compact_subset uptoIndex term)

/-- So does a log behind a snapshot. -/
theorem keeps_installLog (n : RaftNode) (index term : ℕ) :
    Keeps C B n (n.installLog index term) :=
  keeps_rewriteLog n List.filter_sublist.subset

/-- An applied entry is one of the log. -/
theorem keeps_applyNext (n : RaftNode) : Keeps C B n n.applyNext := by
  intro h
  unfold RaftNode.applyNext
  dsimp only
  split
  · next entry hentry =>
      have hmem : entry ∈ n.log.entries := by
        unfold RaftLog.getEntry at hentry
        split at hentry
        · cases hentry
        · exact List.mem_of_getElem? hentry
      obtain ⟨events, hboards, hevents⟩ := h.boards
      refine ⟨⟨h.files, h.log, ?_, events ++ [entry.stroke], ?_, fun b hb => ?_⟩,
        .of_eq rfl rfl h.files⟩
      · intro x hx
        rcases List.mem_append.mp hx with hold | hnew
        · exact h.history x hold
        · rw [List.mem_singleton.mp hnew]
          exact h.log entry hmem
      · rw [Boards.replay_append, hboards]
        rfl
      · have happ : ∀ xs ys : List Stroke, eventsOf (xs ++ ys) b =
            eventsOf xs b ++ eventsOf ys b := fun xs ys => List.filter_append ..
        unfold strokesOf
        rw [List.map_append, happ, happ, hevents b hb]
        rfl
  · exact ⟨⟨h.files, h.log, h.history, h.boards⟩, .of_eq rfl rfl h.files⟩

theorem keeps_applyNext_iterate (n : RaftNode) (k : ℕ) :
    Keeps C B n (RaftNode.applyNext^[k] n) := by
  induction k with
  | zero => exact .refl n
  | succ k ih =>
      rw [Function.iterate_succ_apply']
      exact ih.trans (keeps_applyNext _)

/-- `__proto__` is in `B` only when no entry is about it. -/
def SparesProto (C : LogEntry → Prop) (B : String → Prop) : Prop :=
  B "__proto__" → ∀ e, C e → e.stroke.boardId ≠ "__proto__"

variable (hB : SparesProto C B)

include hB

/-- The snapshot of the present state is kept, as the boards are. -/
theorem keptSnapshot_here (h : KeptNode C B n) : KeptSnapshot C B n.snapshotHere := by
  refine ⟨h.history, fun b hb => ?_⟩
  obtain ⟨events, hboards, hevents⟩ := h.boards
  unfold RaftNode.snapshotHere
  dsimp only
  rw [hboards, eventsOf_boardsRecord, hevents b hb]
  split
  · next hproto =>
      subst hproto
      refine (List.filter_eq_nil_iff.mpr fun stroke hstroke => ?_).symm
      obtain ⟨x, hx, rfl⟩ := List.mem_map.mp hstroke
      have hne := hB hb x.2 (h.history x hx)
      simpa [BoardEvent.boardId] using hne
  · rfl

/-- It may be saved. -/
theorem keeps_takeSnapshot (n : RaftNode) : Keeps C B n n.takeSnapshot :=
  (Keeps.persist (.saveSnapshot n.snapshotHere) fun h => keptSnapshot_here hB h).trans
      (keeps_compactLog _ _ _)

/-- Applying what is committed keeps boards and snapshot. -/
theorem keeps_applyCommitted (n : RaftNode) : Keeps C B n n.applyCommitted := by
  refine (keeps_applyNext_iterate n (n.commitIndex - n.lastApplied)).trans ?_
  unfold RaftNode.applyCommitted RaftNode.maybeSnapshot
  split
  · exact .refl _
  · exact keeps_takeSnapshot hB _

/-- Moving the commit index adds no entry. -/
theorem keeps_advanceCommit (n : RaftNode) (index : ℕ) : Keeps C B n (n.advanceCommit index) := by
  have hset : Keeps C B n { n with commitIndex := index } := .of_eq rfl rfl rfl rfl rfl
  exact (hset.trans (keeps_persistState _)).trans (keeps_applyCommitted hB _)

/-- Following the leader's commit index adds none either. -/
theorem keeps_followCommit (n : RaftNode) (leaderCommit : ℕ) :
    Keeps C B n (n.followCommit leaderCommit) := by
  unfold RaftNode.followCommit
  split
  · exact keeps_advanceCommit hB n _
  · exact .refl n

/-- A leader that counts its majority adds none. -/
theorem keeps_updateCommitIndex (n : RaftNode) : Keeps C B n n.updateCommitIndex := by
  unfold RaftNode.updateCommitIndex
  split
  · exact keeps_advanceCommit hB n _
  · exact .refl n

omit hB

/-- Boards are restored from kept snapshots. -/
theorem keeps_restoreBoardState (n : RaftNode) {snapshot : Snapshot}
    (hs : KeptSnapshot C B snapshot) : Keeps C B n (n.restoreBoardState snapshot) := fun h =>
  ⟨⟨h.files, h.log, hs.entries, _, rfl, hs.boards⟩, .of_eq rfl rfl h.files⟩

/-- A kept snapshot may be applied. -/
theorem keeps_applySnapshot (n : RaftNode) {snapshot : Snapshot}
    (hs : KeptSnapshot C B snapshot) : Keeps C B n (n.applySnapshot snapshot) := by
  have hset : ∀ m : RaftNode, Keeps C B m (m.setBoundary snapshot.lastIncludedIndex) :=
    fun m => .of_eq rfl rfl rfl rfl rfl
  exact ((((keeps_installLog n _ _).trans (keeps_restoreBoardState _ hs)).trans (hset _)).trans
    (.persist (.saveSnapshot snapshot) fun _ => hs)).trans (keeps_persistState _)

/-- A kept entry may be spliced in. -/
theorem keeps_spliceEntry (n : RaftNode) {entry : LogEntry} (he : C entry) :
    Keeps C B n ((n.dropConflict entry).appendMissing entry) := by
  have hdrop : Keeps C B n (n.dropConflict entry) := by
    unfold RaftNode.dropConflict
    split
    · exact keeps_truncateFrom n _
    · exact .refl n
  refine hdrop.trans ?_
  unfold RaftNode.appendMissing
  split
  · exact keeps_appendLog _ he
  · exact .refl _

/-- The entries of a request, by induction on them. -/
theorem keeps_appendEntriesLoop (n : RaftNode) (lastIncluded : ℕ) {entries : List LogEntry}
    (hs : ∀ e ∈ entries, C e) :
    Keeps C B n (n.appendEntriesLoop lastIncluded entries).1 := by
  induction entries generalizing n with
  | nil => exact .refl n
  | cons entry rest ih =>
      have hrest : ∀ e ∈ rest, C e := fun e he => hs e (List.mem_cons_of_mem _ he)
      unfold RaftNode.appendEntriesLoop
      split
      · exact ih n hrest
      · unfold RaftNode.spliceEntry
        split
        · next hsome =>
            split at hsome
            · cases hsome
            · obtain rfl := Option.some.inj hsome
              exact (keeps_spliceEntry n (hs entry List.mem_cons_self)).trans (ih _ hrest)
        · exact .refl n

/-- The entries of a catch-up, by induction on them. -/
theorem keeps_catchUpLoop (n : RaftNode) (lastIncluded : ℕ) {entries : List LogEntry}
    (hs : ∀ e ∈ entries, C e) : Keeps C B n (n.catchUpLoop lastIncluded entries) := by
  induction entries generalizing n with
  | nil => exact .refl n
  | cons entry rest ih =>
      have hrest : ∀ e ∈ rest, C e := fun e he => hs e (List.mem_cons_of_mem _ he)
      unfold RaftNode.catchUpLoop
      split
      · exact ih n hrest
      · unfold RaftNode.spliceEntry
        split
        · exact ih n hrest
        · exact (keeps_spliceEntry n (hs entry List.mem_cons_self)).trans (ih _ hrest)

/-- Hearing from a leader adds no entry. -/
theorem keeps_hearLeader (n : RaftNode) (term : ℕ) (leaderId : String)
    (leaderAddr : Option String) : Keeps C B n (n.hearLeader term leaderId leaderAddr) := by
  unfold RaftNode.hearLeader
  split
  · exact keeps_becomeFollower n _ _ _
  · exact .of_eq rfl rfl rfl rfl rfl

/-- Votes carry no entry. -/
theorem keeps_handleRequestVote (n : RaftNode) (args : RequestVoteArgs) :
    Keeps C B n (n.handleRequestVote args).1 := by
  unfold RaftNode.handleRequestVote
  dsimp only
  refine (keeps_ite_becomeFollower n args.term).trans ?_
  generalize (if n.currentTerm < args.term then n.becomeFollower args.term none none else n) = m
  split
  · have hset : ∀ m : RaftNode, Keeps C B m
        { m with votedFor := some args.candidateId, currentTerm := args.term } :=
      fun m => .of_eq rfl rfl rfl rfl rfl
    have htimer : ∀ m : RaftNode, Keeps C B m m.resetElectionTimer :=
      fun m => .of_eq rfl rfl rfl rfl rfl
    exact ((hset m).trans (keeps_persistState _)).trans (htimer _)
  · exact .refl _

include hB

/-- Kept entries of a leader may be taken in. -/
theorem keeps_handleAppendEntries (n : RaftNode) {args : AppendEntriesArgs}
    (hs : ∀ e ∈ args.entries, C e) : Keeps C B n (n.handleAppendEntries args).1 := by
  unfold RaftNode.handleAppendEntries
  split
  · exact .refl n
  · dsimp only
    have hhear : Keeps C B n (n.hearLeader args.term args.leaderId args.leaderAddr) :=
      keeps_hearLeader n _ _ _
    split
    · have hloop := keeps_appendEntriesLoop (B := B)
        (n.hearLeader args.term args.leaderId args.leaderAddr)
        (n.hearLeader args.term args.leaderId args.leaderAddr).log.lastIncludedIndex hs
      split
      · next m heq =>
          rw [heq] at hloop
          exact (hhear.trans hloop).trans (keeps_followCommit hB m _)
      · next m heq =>
          rw [heq] at hloop
          exact hhear.trans hloop
    · exact hhear

/-- A heartbeat carries no entry. -/
theorem keeps_handleHeartbeat (n : RaftNode) (args : HeartbeatArgs) :
    Keeps C B n (n.handleHeartbeat args).1 := by
  unfold RaftNode.handleHeartbeat
  split
  · exact .refl n
  · exact (keeps_hearLeader n _ _ _).trans (keeps_followCommit hB _ _)

omit hB

/-- A kept snapshot of a leader may be taken in. -/
theorem keeps_handleInstallSnapshot (n : RaftNode) {args : InstallSnapshotArgs}
    (hs : KeptSnapshot C B args.snapshot) : Keeps C B n (n.handleInstallSnapshot args).1 := by
  unfold RaftNode.handleInstallSnapshot
  split
  · exact .refl n
  · dsimp only
    refine (keeps_hearLeader n args.term args.leaderId none).trans ?_
    split
    · exact .refl _
    · exact keeps_applySnapshot _ hs

/-- So may the kept snapshot of a catch-up. -/
theorem keeps_catchUpSnapshot (n : RaftNode) {snapshot : Option Snapshot}
    (hs : ∀ s, snapshot = some s → KeptSnapshot C B s) :
    Keeps C B n (n.catchUpSnapshot snapshot) := by
  cases snapshot with
  | none => exact .refl n
  | some s =>
      unfold RaftNode.catchUpSnapshot
      dsimp only
      split
      · exact keeps_applySnapshot n (hs s rfl)
      · exact .refl n

/-- Answering a catch-up changes no entry. -/
theorem keeps_handleSyncLog (n : RaftNode) (args : SyncLogArgs) :
    Keeps C B n (n.handleSyncLog args).1 := by
  unfold RaftNode.handleSyncLog
  dsimp only
  split <;> exact keeps_ite_becomeFollower n _

include hB

/-- A kept catch-up may be taken in whole. -/
theorem keeps_onSyncLogReply (n : RaftNode) {result : SyncLogResult}
    (hs : KeptReply C B (.syncLog result)) : Keeps C B n (n.onSyncLogReply result) := by
  unfold RaftNode.onSyncLogReply
  dsimp only
  refine (keeps_ite_becomeFollower n result.term).trans ?_
  generalize (if n.currentTerm < result.term then n.becomeFollower result.term none none else n) = m
  exact ((keeps_catchUpSnapshot m hs.2).trans (keeps_catchUpLoop _ _ fun e he =>
    hs.1 e (List.mem_of_mem_filter he))).trans (keeps_followCommit hB _ _)

omit hB in
/-- A node answers with entries and the snapshot it has. -/
theorem keptReply_handleSyncLog (h : KeptNode C B n) (args : SyncLogArgs) :
    KeptReply C B (.syncLog (n.handleSyncLog args).2) := by
  have hm := (keeps_ite_becomeFollower n args.term h).1
  unfold RaftNode.handleSyncLog
  dsimp only
  generalize
    (if n.currentTerm < args.term then n.becomeFollower args.term none none else n) = m at *
  split
  · next snapshot hserved =>
      refine ⟨(fun e he => by cases he), fun s hs => ?_⟩
      obtain rfl := Option.some.inj hs
      split at hserved
      · exact hm.files.snapshot _ hserved
      · cases hserved
  · refine ⟨fun e he => ?_, fun s hs => by cases hs⟩
    have hdrop := List.mem_of_mem_filter he
    unfold RaftLog.getEntriesFrom at hdrop
    exact hm.log e (List.mem_of_mem_drop hdrop)

omit hB in
/-- What a node sends is what it has. -/
theorem keptRequest_issues (h : KeptNode C B n) {peer : String} {request : Request}
    (hi : Issues n peer request) : KeptRequest C B request := by
  cases hi with
  | requestVote => trivial
  | heartbeat => trivial
  | syncLog => trivial
  | replicate _ hreq =>
      unfold RaftNode.replicateRequest at hreq
      dsimp only at hreq
      split at hreq
      · cases hreq
      · split at hreq
        · obtain ⟨snapshot, hsnap, rfl⟩ := Option.map_eq_some_iff.mp hreq
          exact h.files.snapshot snapshot hsnap
        · obtain rfl := Option.some.inj hreq
          intro e he
          have hdrop := List.mem_of_mem_take he
          unfold RaftLog.getEntriesFrom at hdrop
          exact h.log e (List.mem_of_mem_drop hdrop)

/-- A node that starts on kept files is kept, and so are its files at every moment of the start.
-/
theorem keeps_construct (params : RaftNode.Params) {p : Persistence} (hp : KeptFiles C B p) :
    KeptNode C B (.construct params p) ∧
      ∀ k, KeptFiles C B (p.replay ((RaftNode.construct params p).calls.take k)) := by
  obtain ⟨base, hbase, hcalls, hfiles, hnode⟩ :
      ∃ base : RaftNode, RaftNode.construct params p =
          { base.applyCommitted with timers := base.applyCommitted.timers.startElectionTimer } ∧
        base.calls = [] ∧ base.persistence = p ∧ KeptNode C B base := by
    have hlog : ∀ e ∈ (RaftLog.ofPersistence p).entries, C e := by
      unfold RaftLog.ofPersistence
      split
      · exact fun e he => hp.log e (List.mem_of_mem_filter he)
      · exact hp.log
    unfold RaftNode.construct
    cases hsnap : p.loadSnapshot with
    | none =>
        exact ⟨_, rfl, rfl, rfl, hp, hlog, (fun x hx => by cases hx), [], rfl, fun _ _ => rfl⟩
    | some snapshot =>
        have hs := hp.snapshot snapshot hsnap
        exact ⟨_, rfl, rfl, rfl, hp, hlog, hs.entries, _, rfl, hs.boards⟩
  obtain ⟨hn, calls, hc, -, hF⟩ := keeps_applyCommitted hB base hnode
  rw [hbase]
  refine ⟨⟨hn.files, hn.log, hn.history, hn.boards⟩, fun k => ?_⟩
  have hc : base.applyCommitted.calls = calls := by rw [hc, hcalls, List.nil_append]
  have := hF k
  rwa [hfiles, ← hc] at this

/-- Every operation keeps the invariant. -/
theorem keeps_run (n : RaftNode) (op : Op) (h : KeptOp C B n op) : Keeps C B n (Op.run n op) := by
  cases op with
  | becomeCandidate =>
      have hset : Keeps C B n { n with
          state := .candidate
          currentTerm := n.currentTerm + 1
          votedFor := some n.replicaId
          leaderId := none } := .of_eq rfl rfl rfl rfl rfl
      exact hset.trans (keeps_persistState _)
  | becomeLeader => exact .of_eq rfl rfl rfl rfl rfl
  | resetElectionTimer => exact .of_eq rfl rfl rfl rfl rfl
  | becomeFollower term leaderId leaderAddr => exact keeps_becomeFollower n _ _ _
  | handle request =>
      cases request with
      | requestVote args => exact keeps_handleRequestVote n args
      | appendEntries args => exact keeps_handleAppendEntries hB n h
      | heartbeat args => exact keeps_handleHeartbeat hB n args
      | syncLog args => exact keeps_handleSyncLog n args
      | installSnapshot args => exact keeps_handleInstallSnapshot n h
  | onAppendEntriesReply peer args result =>
      show Keeps C B n (n.onAppendEntriesReply peer args result)
      unfold RaftNode.onAppendEntriesReply
      split
      · exact keeps_becomeFollower n _ _ _
      · split
        · split <;> exact .of_eq rfl rfl rfl rfl rfl
        · exact .of_eq rfl rfl rfl rfl rfl
  | onInstallSnapshotReply peer args result =>
      show Keeps C B n (n.onInstallSnapshotReply peer args result)
      unfold RaftNode.onInstallSnapshotReply
      split
      · exact keeps_becomeFollower n _ _ _
      · exact .of_eq rfl rfl rfl rfl rfl
  | onSyncLogReply result => exact keeps_onSyncLogReply hB n h
  | updateCommitIndex => exact keeps_updateCommitIndex hB n
  | clientAppend stroke =>
      have hset : ∀ m : RaftNode, ∀ i, Keeps C B m (m.setMatchIndex n.replicaId i) :=
        fun m i => .of_eq rfl rfl rfl rfl rfl
      exact (keeps_appendLog n h).trans (hset _ _)

/-- **Every replica shows what it has applied,** on the boards in `B`, as long as
clients write entries that meet `C`. -/
theorem kept_localInvariant (cfg : Config) :
    Cluster.LocalInvariant cfg (KeptNode C B) (KeptFiles C B) (KeptRequest C B) (KeptReply C B)
      (fun n stroke => C (n.clientEntry stroke)) where
  construct := fun a _ _ hp => keeps_construct hB (cfg.params a) hp
  file := fun _ h => h.files
  begin_turn := fun _ h => ⟨h.files, h.log, h.history, h.boards⟩
  step := fun n op hn h => by
    refine keeps_run hB n op ?_ hn
    cases op with
    | handle request => exact h
    | onSyncLogReply result => exact h
    | clientAppend stroke => exact h.2
    | _ => trivial
  issue := fun _ _ _ h hi => keptRequest_issues h hi
  answer := by
    intro n request h _
    cases request with
    | requestVote args => trivial
    | appendEntries args => trivial
    | heartbeat args => trivial
    | syncLog args => exact keptReply_handleSyncLog h args
    | installSnapshot args => trivial

omit hB in
/-- Fresh storage holds nothing. -/
theorem keptFiles_fresh (backend : Backend) : KeptFiles C B (.fresh backend) :=
  ⟨(fun e he => by cases he), fun s hs => by cases hs⟩

end Kept

/-- A node's strokes are the replay of its history, on the boards in `B`. -/
theorem KeptNode.getStrokes {C : LogEntry → Prop} {B : String → Prop} {n : RaftNode}
    (h : KeptNode C B n) {b : String} (hb : B b) :
    n.getStrokes b = (Boards.replay [] (strokesOf n.history)).getStrokes b := by
  obtain ⟨events, hboards, hevents⟩ := h.boards
  unfold RaftNode.getStrokes Boards.getStrokes
  rw [hboards, Boards.board_replay, Boards.board_replay, hevents b hb]

end QuorumCanvas
