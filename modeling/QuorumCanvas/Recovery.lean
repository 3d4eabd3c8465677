import QuorumCanvas.Applied
import QuorumCanvas.Evolution
import QuorumCanvas.SnapshotBacking

/-!
# Crashes and restarts of one replica

A replica takes in messages, and may crash after any persistence call of what it
does, also of its constructor.  What it had committed before is there again after
the restart, and applied, unless the crash tears the installation of a snapshot,
between the cut of the log and the snapshot that makes up for it, or the entry is about
the board `__proto__`, which no snapshot holds (`crash_safe`).
A restart between two operations changes nothing at all (`restart_same`).
-/

namespace QuorumCanvas

open Boards (eventsOf)

namespace RaftNode

/-! ## What a replica may be told -/

/-- A snapshot that stands for the entries it covers, `C` among them if the node takes it
over. -/
structure FitsSnapshot (C : List LogEntry) (commitIndex : ℕ) (s : Snapshot) : Prop where
  wellFormed : s.WellFormed
  kept : KeptSnapshot (fun _ => True) (· ≠ "__proto__") s
  agrees : commitIndex < s.lastIncludedIndex → C <+: s.entries

/-- A message that another replica can have sent: the entries follow one another, those of
a catch-up no later than right behind the log. -/
def Op.Fits (C : List LogEntry) (n : RaftNode) : Op → Prop
  | .handle (.appendEntries args) => Consecutive args.prevLogIndex args.entries
  | .handle (.installSnapshot args) => FitsSnapshot C n.commitIndex args.snapshot
  | .onSyncLogReply result =>
      match result.snapshot with
      | some s => result.entries = [] ∧ FitsSnapshot C n.commitIndex s
      | none => ∃ i ≤ n.log.getLastIndex,
          Consecutive i (result.entries.filter fun e => e.index ≤ result.commitIndex)
  | _ => True

/-- The log holds nothing but what the old snapshot or the new one covers, or the new one is
not taken over. -/
def Harmless (n : RaftNode) (s : Snapshot) : Prop :=
  s.lastIncludedIndex ≤ n.commitIndex ∨
    n.commitIndex = n.log.lastIncludedIndex ∧ n.log.getLastIndex ≤ s.lastIncludedIndex

/-- The operation installs no snapshot that makes the node cut away what it still needs. -/
def Op.Harmless (n : RaftNode) : Op → Prop
  | .handle (.installSnapshot args) => n.Harmless args.snapshot
  | .onSyncLogReply result => ∀ s, result.snapshot = some s → n.Harmless s
  | _ => True

/-- Nothing of `C` is lost, and all of it is committed. -/
def KeepsAll (C : List LogEntry) : Holding := fun ℓ c _ => C <+: ℓ ∧ C.length ≤ c

variable {C : List LogEntry} {n n' : RaftNode}

/-! ## Operations -/

/-- Whatever a message brings behind the commit index leaves `C` alone. -/
theorem splices_prefix {c i : ℕ} (hC : C.length ≤ c) (es : List LogEntry) :
    Splices c (fun _ ℓ => C <+: ℓ) i es := by
  intro k e _
  refine ⟨fun ℓ h _ => h, fun ℓ e' h _ _ => h, fun ℓ e' h _ _ hci => ?_, fun ℓ h _ => ?_⟩
  · exact List.prefix_take_iff.mpr ⟨h, hC.trans hci⟩
  · exact h.trans (List.prefix_append ℓ [e])

/-- A commit index that is followed keeps what was committed. -/
theorem keepsAll_min {ℓ : List LogEntry} {c leaderCommit : ℕ} (hℓ : C <+: ℓ) (hC : C.length ≤ c)
    (hlt : c < leaderCommit) (b : ℕ) : KeepsAll C ℓ (min leaderCommit ℓ.length) b :=
  ⟨hℓ, le_min (hC.trans hlt.le) hℓ.length_le⟩

/-- A snapshot that fits can be taken over. -/
theorem FitsSnapshot.installable {T : Prop} {s : Snapshot} (h : FitsSnapshot C n.commitIndex s)
    (hT : ¬ n.Harmless s → T) (hC : KeepsAll C n.fullLog n.commitIndex n.currentTerm)
    (hahead : n.commitIndex < s.lastIncludedIndex) (b : ℕ) : Installable T (KeepsAll C) n b s := by
  have hbegins := h.agrees hahead
  refine ⟨h.wellFormed, ⟨hbegins.trans (List.prefix_append _ _), hC.2.trans hahead.le⟩, ?_⟩
  by_cases hharmless : n.Harmless s
  · rcases hharmless with hbehind | ⟨hcommit, hlast⟩
    · omega
    · exact Or.inr ⟨hcommit, hlast, List.prefix_take_iff.mpr ⟨hC.1, hC.2⟩, hC.2⟩
  · exact Or.inl (hT hharmless)

/-- **One operation** keeps what was committed, at every crash point but a torn one. -/
theorem evolves_run (hn : n.Coherent) {op : Op} (hfit : op.Fits C n)
    (hC : KeepsAll C n.fullLog n.commitIndex n.currentTerm) :
    Evolves (¬ op.Harmless n) (KeepsAll C) n (Op.run n op) := by
  have hsame : ∀ n' : RaftNode, n'.persistence = n.persistence → n'.log = n.log →
      n'.currentTerm = n.currentTerm → n'.votedFor = n.votedFor →
      n'.commitIndex = n.commitIndex → n'.lastApplied = n.lastApplied → n'.history = n.history →
      n'.calls = n.calls → Evolves (¬ op.Harmless n) (KeepsAll C) n n' :=
    fun n' hp hl ht hv hc ha hh hcalls =>
      ⟨hn.of_eq hp hl ht hv hc ha hh, .of_eq hcalls hp (hn.meets hC)⟩
  have hfollower : ∀ term leaderId leaderAddr,
      Evolves (¬ op.Harmless n) (KeepsAll C) n (n.becomeFollower term leaderId leaderAddr) :=
    fun term leaderId leaderAddr => (evolves_becomeFollower hn leaderId leaderAddr hC
      (show KeepsAll C n.fullLog n.commitIndex term from hC)).1
  cases op with
  | becomeCandidate => exact (evolves_becomeCandidate hn hC hC).1
  | becomeLeader => exact hsame _ rfl rfl rfl rfl rfl rfl rfl rfl
  | resetElectionTimer => exact hsame _ rfl rfl rfl rfl rfl rfl rfl rfl
  | becomeFollower term leaderId leaderAddr => exact hfollower term leaderId leaderAddr
  | handle request =>
      cases request with
      | requestVote args => exact (evolves_handleRequestVote hn args hC fun _ => hC).1
      | appendEntries args =>
          refine (evolves_handleAppendEntries hn (J := fun _ ℓ => C <+: ℓ) hfit hC (fun _ => hC)
            (fun _ _ => hC.1) (fun _ => splices_prefix hC.2 _) (fun _ ℓ h _ => ⟨h, hC.2⟩)
            fun ℓ h _ hlt => ?_).1
          exact keepsAll_min h hC.2 hlt args.term
      | heartbeat args =>
          refine (evolves_handleHeartbeat hn hC (fun _ => hC) fun _ hlt => ?_).1
          exact keepsAll_min hC.1 hC.2 hlt args.term
      | syncLog args => exact (evolves_handleSyncLog hn args hC fun _ => hC).1
      | installSnapshot args =>
          refine (evolves_handleInstallSnapshot hn hC (fun _ => hC) fun _ hahead => ?_).1
          exact FitsSnapshot.installable hfit (fun h => h) hC hahead args.term
  | onAppendEntriesReply peer args result =>
      show Evolves _ _ n (n.onAppendEntriesReply peer args result)
      unfold onAppendEntriesReply
      split
      · exact hfollower _ _ _
      · split
        · split <;> exact hsame _ rfl rfl rfl rfl rfl rfl rfl rfl
        · exact hsame _ rfl rfl rfl rfl rfl rfl rfl rfl
  | onInstallSnapshotReply peer args result =>
      show Evolves _ _ n (n.onInstallSnapshotReply peer args result)
      unfold onInstallSnapshotReply
      split
      · exact hfollower _ _ _
      · exact hsame _ rfl rfl rfl rfl rfl rfl rfl rfl
  | onSyncLogReply result =>
      cases hsnap : result.snapshot with
      | some s =>
          simp only [Op.Fits, hsnap] at hfit
          obtain ⟨hnil, hs⟩ := hfit
          refine evolves_onSyncLogReply hn (J := fun _ ℓ => C <+: ℓ) (i := 0) rfl hC (fun _ => hC)
            (fun s' hs' => ?_) fun hnone => ?_
          · obtain rfl := Option.some.inj (hsnap.symm.trans hs')
            refine ⟨hnil, fun hahead => ⟨?_, fun hlt => ?_⟩, fun _ hlt => ?_⟩
            · refine hs.installable (fun hnot hharmless => hnot ?_) hC hahead _
              exact hharmless s hsnap
            · have hbegins := (hs.agrees hahead).trans
                (List.prefix_append s.entries (n.fullLog.drop s.lastIncludedIndex))
              exact keepsAll_min hbegins (hC.2.trans hahead.le) hlt _
            · exact keepsAll_min hC.1 hC.2 hlt _
          · cases hsnap.symm.trans hnone
      | none =>
          simp only [Op.Fits, hsnap] at hfit
          obtain ⟨i, hi, hes⟩ := hfit
          refine evolves_onSyncLogReply hn (J := fun _ ℓ => C <+: ℓ) (i := i) rfl hC (fun _ => hC)
            (fun s hs => ?_) fun _ => ?_
          · cases hsnap.symm.trans hs
          · refine ⟨hes, hn.getLastIndex ▸ hi, hC.1, splices_prefix hC.2 _, ?_, ?_⟩
            · exact fun _ ℓ h _ => ⟨h, hC.2⟩
            · exact fun ℓ h hlt _ => keepsAll_min h hC.2 hlt _
  | updateCommitIndex =>
      refine (evolves_updateCommitIndex hn hC fun index e hlt _ _ _ => ?_).1
      exact ⟨hC.1, hC.2.trans hlt.le⟩
  | clientAppend stroke =>
      refine (evolves_clientAppend hn stroke hC ?_).1
      exact ⟨hC.1.trans (List.prefix_append _ _), hC.2⟩

/-! ## What a replica is sure of -/

/-- No board but `__proto__` is excepted. -/
theorem sparesProto : SparesProto (fun _ => True) (· ≠ "__proto__") := fun h => absurd rfl h

/-- What every operation and every restart keeps. -/
structure Sure (params : Params) (n : RaftNode) : Prop where
  coherent : n.Coherent
  kept : KeptNode (fun _ => True) (· ≠ "__proto__") n
  threshold : n.snapshotThreshold = params.snapshotThreshold
  compacted : 0 < params.snapshotThreshold → n.Compacted

variable {params : Params}

/-- A fitting operation writes to boards other than `__proto__`. -/
theorem Op.Fits.keptOp {op : Op} (h : op.Fits C n) :
    KeptOp (fun _ => True) (· ≠ "__proto__") n op := by
  cases op with
  | handle request =>
      cases request with
      | appendEntries args => exact fun _ _ => trivial
      | installSnapshot args => exact FitsSnapshot.kept h
      | requestVote args => trivial
      | heartbeat args => trivial
      | syncLog args => trivial
  | onSyncLogReply result =>
      refine ⟨fun _ _ => trivial, fun s hs => ?_⟩
      simp only [Op.Fits, hs] at h
      exact h.2.kept
  | clientAppend stroke => trivial
  | _ => trivial

theorem holds_nil (n : RaftNode) : KeepsAll [] n.fullLog n.commitIndex n.currentTerm :=
  ⟨List.nil_prefix, Nat.zero_le _⟩

/-- A fitting operation leaves a node in order. -/
theorem Sure.run (h : Sure params n) {op : Op} (hfit : op.Fits C n)
    (hC : KeepsAll C n.fullLog n.commitIndex n.currentTerm) : Sure params (Op.run n op) := by
  have hadvances := advances_run n op (op.above_zero n)
  refine ⟨(evolves_run h.coherent hfit hC).coherent, ?_, ?_, fun hpos => ?_⟩
  · exact (keeps_run sparesProto n op hfit.keptOp h.kept).1
  · exact hadvances.threshold.trans h.threshold
  · exact hadvances.compacted (h.threshold ▸ hpos) (h.compacted hpos)

/-- The constructor compacts. -/
theorem compacted_construct (params : Params) (p : Persistence) :
    (construct params p).snapshotThreshold = params.snapshotThreshold ∧
      (0 < params.snapshotThreshold → (construct params p).Compacted) := by
  obtain ⟨base, hbase⟩ := boots_construct params p
  obtain ⟨-, -, hthreshold, hcompact⟩ := applied_applyCommitted base
  rw [hbase.eq]
  exact ⟨hthreshold.trans hbase.threshold, fun hpos => hcompact (hbase.threshold ▸ hpos)⟩

/-- So does a start on files in order. -/
theorem sure_construct {G : Holding} {p : Persistence} (hp : p.Meets G)
    (hkept : KeptFiles (fun _ => True) (· ≠ "__proto__") p) : Sure params (construct params p) where
  coherent := (coherent_construct params hp).1
  kept := (keeps_construct sparesProto params hkept).1
  threshold := (compacted_construct params p).1
  compacted := (compacted_construct params p).2

/-- New files keep nothing. -/
theorem meets_fresh : (Persistence.fresh .file).Meets (KeepsAll []) :=
  ⟨⟨rfl, fun s hs => (by cases hs), InOrder.nil, le_rfl⟩, List.nil_prefix, Nat.zero_le _⟩

/-- A node on new files is in order. -/
theorem sure_fresh (params : Params) : Sure params (construct params (.fresh .file)) :=
  sure_construct meets_fresh (keptFiles_fresh _)

/-! ## A restart between two operations -/

/-- **A restart on the files of a compacted node** writes nothing. -/
theorem construct_same (hn : n.Coherent)
    (hthreshold : n.snapshotThreshold = params.snapshotThreshold)
    (hcompact : n.Compacted) :
    (construct params n.persistence).persistence = n.persistence ∧
      (construct params n.persistence).log = n.log := by
  obtain ⟨base, hbase⟩ := boots_construct params n.persistence
  have hloaded := hbase.loaded hn.kept
  have hle := hloaded.applied_le
  obtain ⟨hl, hfiles, -⟩ := hloaded.applyNext_iterate (k := base.commitIndex - base.lastApplied)
    (by omega)
  have hmarks := marks_iterate base (base.commitIndex - base.lastApplied)
  have hsame : base.applyCommitted = applyNext^[base.commitIndex - base.lastApplied] base := by
    refine if_pos ?_
    rw [show (applyNext^[base.commitIndex - base.lastApplied] base).commitIndex = base.commitIndex
        from congrArg Marks.commitIndex hmarks,
      show (applyNext^[base.commitIndex - base.lastApplied] base).log.lastIncludedIndex =
        base.log.lastIncludedIndex from congrArg Marks.boundary hmarks,
      show (applyNext^[base.commitIndex - base.lastApplied] base).snapshotThreshold =
        base.snapshotThreshold from congrArg Marks.snapshotThreshold hmarks,
      hbase.commitIndex, hbase.log, hbase.threshold, ← hthreshold, ← hn.commit, ← hn.log]
    exact hcompact
  have hfiles := hfiles.trans hbase.files
  rw [hbase.eq, hsame]
  refine ⟨hfiles, ?_⟩
  show (applyNext^[base.commitIndex - base.lastApplied] base).log = n.log
  rw [hl.log, hfiles, hn.log]

/-- What fits keeps a replica sure. -/
theorem sure_endures
    (hrun : Endures params (fun n op => op.Fits [] n) (construct params (.fresh .file)) n) :
    Sure params n := by
  refine hrun.invariant (sure_fresh params) fun n step n' hn hok hnext => ?_
  obtain rfl := Option.some.inj hnext
  cases step with
  | operate op => exact hn.run hok (holds_nil n)
  | restart => exact sure_construct (hn.coherent.meets (holds_nil n)) hn.kept.files

/-- The state of a board is the replay of the history. -/
theorem board_of_kept {P : LogEntry → Prop} {B : String → Prop} (h : KeptNode P B n)
    {b : String} (hb : B b) :
    n.boards.board b =
      (eventsOf (strokesOf n.history) b).foldl BoardState.apply (BoardState.empty Stroke) := by
  obtain ⟨events, hboards, hevents⟩ := h.boards
  rw [hboards, Boards.board_replay, hevents b hb]
  rfl

/-- **Restart equivalence.**  After any messages that other replicas can have sent, client
writes, elections and earlier restarts, a node constructed on the files has the same state,
and shows the same strokes now and after any further events. -/
theorem restart_same (hthreshold : 1 ≤ params.snapshotThreshold)
    (hrun : Endures params (fun n op => op.Fits [] n) (construct params (.fresh .file)) n) :
    let r := construct params n.persistence
    (r.currentTerm = n.currentTerm ∧ r.votedFor = n.votedFor ∧ r.commitIndex = n.commitIndex ∧
      r.lastApplied = n.lastApplied ∧ r.log = n.log) ∧
    ∀ b ≠ "__proto__", ∀ events : List Stroke,
      (r.boards.replay events).getStrokes b = (n.boards.replay events).getStrokes b := by
  intro r
  have hn := sure_endures hrun
  have hmeets := hn.coherent.meets (holds_nil n)
  have hr : Sure params r := sure_construct hmeets hn.kept.files
  obtain ⟨hcoh, hfull, hcommit, hterm, -⟩ := coherent_construct params hmeets
  obtain ⟨hfiles, hlog⟩ := construct_same hn.coherent hn.threshold (hn.compacted hthreshold)
  have hcommit : r.commitIndex = n.commitIndex := hcommit.trans hn.coherent.commit.symm
  have hvoted : r.votedFor = n.votedFor := by
    rw [← hcoh.synced.votedFor, hfiles, hn.coherent.synced.votedFor]
  have hhistory : r.history = n.history := by
    rw [hr.coherent.history, hn.coherent.history, hcommit]
    exact congrArg (fun ℓ => indexed (ℓ.take n.commitIndex)) hfull
  refine ⟨⟨hterm.trans hn.coherent.synced.currentTerm, hvoted, hcommit, ?_, hlog⟩, ?_⟩
  · rw [hr.coherent.applied, hn.coherent.applied, hcommit]
  · intro b hb events
    unfold Boards.getStrokes
    rw [Boards.board_replay, Boards.board_replay, board_of_kept hr.kept hb,
      board_of_kept hn.kept hb,
      hhistory]

/-- A replica leads, writes three strokes, and compacts its log on the way. -/
theorem endures_written_of {ok : RaftNode → Op → Prop}
    (helect : ∀ n, ok n .becomeCandidate ∧ ok n .becomeLeader)
    (hwrite : ∀ n id, ok n (.clientAppend (.dot id "board")))
    (hcommit : ∀ n, ok n .updateCommitIndex) :
    Endures hermit ok (construct hermit (.fresh .file)) (written .file) := by
  have hexec : Runs.exec (fun n step => some (Step.run hermit n step))
      (construct hermit (.fresh .file))
      [.operate .becomeCandidate, .operate .becomeLeader,
        .operate (.clientAppend (.dot "x" "board")), .operate .updateCommitIndex,
        .operate (.clientAppend (.dot "y" "board")), .operate .updateCommitIndex,
        .operate (.clientAppend (.dot "z" "board")), .operate .updateCommitIndex] =
      some (written .file) := rfl
  refine .of_exec hexec ?_
  exact .cons (helect _).1 rfl (.cons (helect _).2 rfl (.cons (hwrite _ _) rfl
    (.cons (hcommit _) rfl (.cons (hwrite _ _) rfl (.cons (hcommit _) rfl
      (.cons (hwrite _ _) rfl (.cons (hcommit _) rfl .nil)))))))

/-- A write and its commit. -/
theorem endures_fits_written :
    Endures hermit (fun n op => op.Fits [] n) (construct hermit (.fresh .file)) (written .file) :=
  endures_written_of (fun _ => ⟨trivial, trivial⟩) (fun _ _ => trivial) fun _ => trivial

/-- It comes back with the index it had applied, and shows the same board. -/
theorem restart_same_written :
    (construct hermit (written .file).persistence).lastApplied = 3 ∧
      (construct hermit (written .file).persistence).boards.getStrokes "board" =
        (written .file).boards.getStrokes "board" := by
  obtain ⟨⟨-, -, -, happlied, -⟩, hboards⟩ := restart_same (by decide) endures_fits_written
  exact ⟨happlied.trans (by decide), hboards "board" (by decide) []⟩

/-! ## A crash at any call -/

/-- What may happen to a replica: an operation, an operation that a crash cuts short after
`calls` persistence calls, and a restart that is cut short itself. -/
inductive Incident
  | operate (op : Op)
  | crash (op : Op) (calls : ℕ)
  | reboot (calls : ℕ)

/-- The files after some calls of an operation. -/
def filesAt (n : RaftNode) (op : Op) (calls : ℕ) : Persistence :=
  n.persistence.replay ((Op.run n.beginTurn op).calls.take calls)

/-- Whoever crashes is constructed again. -/
def Incident.next (params : Params) (n : RaftNode) : Incident → Option RaftNode
  | .operate op => some (Op.run n.beginTurn op)
  | .crash op calls => some (construct params (n.filesAt op calls))
  | .reboot calls => some (construct params
      (n.persistence.replay ((construct params n.persistence).calls.take calls)))

/-- What the node knows to be committed. -/
def committed (n : RaftNode) : List LogEntry := n.fullLog.take n.commitIndex

/-- An entry about a board that a snapshot can hold. -/
abbrev OffProto (e : LogEntry) : Prop := e.stroke.boardId ≠ "__proto__"

/-- Nothing that a client writes or a message brings is about the board `__proto__`, and a
snapshot lists for each board the strokes it stands for. -/
def Op.OffProto (n : RaftNode) (op : Op) : Prop :=
  KeptOp RaftNode.OffProto (fun _ => True) n op

/-- Messages fit, none of them is about `__proto__`, and no crash tears a snapshot that the
node needs. -/
def Incident.Careful (n : RaftNode) : Incident → Prop
  | .operate op => op.Fits n.committed n ∧ op.OffProto n
  | .crash op calls => (op.Fits n.committed n ∧ op.OffProto n) ∧
      ¬ (¬ op.Harmless n ∧ Torn (Op.run n.beginTurn op).calls calls)
  | .reboot _ => True

/-- The entry is in the log, or its stroke is in the snapshot on file, on its board. -/
def Has (r : RaftNode) (index : ℕ) (e : LogEntry) : Prop :=
  r.log.getEntry index = some e ∨
    ∃ s, r.persistence.loadSnapshot = some s ∧ index ≤ s.lastIncludedIndex ∧
      e.stroke ∈ eventsOf (recordEvents s.boards) e.stroke.boardId

/-- `r` has come through what happened to `n`. -/
structure Recovered (n r : RaftNode) : Prop where
  contiguous : r.log.Contiguous
  commit_le : r.commitIndex ≤ r.log.getLastIndex
  applied : r.lastApplied = r.commitIndex
  kept : ∀ k < n.commitIndex, k < r.commitIndex ∧
    ∃ e, n.fullLog[k]? = some e ∧ r.Has (k + 1) e ∧ r.appliedAt (k + 1) = some e
  shown : ∀ b, r.boards.board b = (eventsOf (strokesOf r.history) b).foldl BoardState.apply
    (BoardState.empty Stroke)

/-- A replica that is sure, and never took in an entry about `__proto__`. -/
structure Whole (params : Params) (n : RaftNode) : Prop extends Sure params n where
  shown : KeptNode OffProto (fun _ => True) n

theorem Sure.beginTurn (h : Sure params n) : Sure params n.beginTurn where
  coherent := h.coherent.of_eq rfl rfl rfl rfl rfl rfl rfl
  kept := ⟨h.kept.files, h.kept.log, h.kept.history, h.kept.boards⟩
  threshold := h.threshold
  compacted := h.compacted

theorem Whole.beginTurn (h : Whole params n) : Whole params n.beginTurn where
  toSure := h.toSure.beginTurn
  shown := ⟨h.shown.files, h.shown.log, h.shown.history, h.shown.boards⟩

/-- A snapshot holds every board that an entry is about. -/
theorem sparesProto_offProto : SparesProto OffProto (fun _ => True) := fun _ _ he => he

/-- A node on new files has taken in nothing. -/
theorem whole_fresh (params : Params) : Whole params (construct params (.fresh .file)) :=
  ⟨sure_fresh params, (keeps_construct sparesProto_offProto params (keptFiles_fresh _)).1⟩

/-- What is committed is kept now. -/
theorem holds_committed (n : RaftNode) :
    KeepsAll n.committed n.fullLog n.commitIndex n.currentTerm :=
  ⟨List.take_prefix _ _, List.length_take_le _ _⟩

/-- An entry of the full log is in the log, or on the board of the snapshot. -/
theorem Whole.has (h : Whole params n) {k : ℕ} {e : LogEntry} (hk : n.fullLog[k]? = some e) :
    n.Has (k + 1) e := by
  rcases Nat.lt_or_ge n.log.lastIncludedIndex (k + 1) with hlog | hsnap
  · left
    rw [h.coherent.getEntry hlog]
    exact hk
  · right
    have hboundary : n.persistence.covered.length = n.log.lastIncludedIndex := by
      rw [h.coherent.log]
      exact h.coherent.kept.length_covered
    have hcovered : n.persistence.covered[k]? = some e := by
      rw [← hk]
      exact (List.getElem?_append_left (by omega)).symm
    have hmem := List.mem_of_getElem? hcovered
    cases hs : n.persistence.loadSnapshot with
    | none =>
        rw [Persistence.covered, hs] at hmem
        cases hmem
    | some s =>
        rw [Persistence.covered, hs] at hmem hboundary
        have hwell := h.coherent.kept.snapshot s hs
        refine ⟨s, rfl, ?_, ?_⟩
        · rw [← hwell.boundary]
          exact hsnap.trans hboundary.ge
        · rw [(h.shown.files.snapshot s hs).boards _ trivial]
          obtain ⟨x, hx, rfl⟩ := List.mem_map.mp hmem
          exact List.mem_filter.mpr ⟨List.mem_map_of_mem hx, by simp [BoardEvent.boardId]⟩

/-- A node that still has what another had committed. -/
theorem Whole.recovered {r : RaftNode} (hn : Sure params n) (hr : Whole params r)
    (hkeeps : KeepsAll n.committed r.fullLog r.commitIndex r.currentTerm) : Recovered n r where
  contiguous := hr.coherent.contiguous
  commit_le := hr.coherent.getLastIndex ▸ hr.coherent.commit_le
  applied := hr.coherent.applied
  kept := by
    intro k hk
    have hlength : n.committed.length = n.commitIndex := by
      unfold committed
      rw [List.length_take, min_eq_left hn.coherent.commit_le]
    have hlt : k < r.commitIndex := hk.trans_le (hlength ▸ hkeeps.2)
    have hentry : n.committed[k]? = n.fullLog[k]? := by
      unfold committed
      rw [List.getElem?_take, if_pos hk]
    have hget := List.getElem?_eq_getElem (hlength.symm ▸ hk)
    have hthere := (List.prefix_iff_getElem?.mp hkeeps.1) k (hlength.symm ▸ hk)
    exact ⟨hlt, _, hentry.symm.trans hget, hr.has hthere,
      (hr.coherent.appliedAt hlt).trans hthere⟩
  shown := fun _ => board_of_kept hr.shown trivial

/-- Files that meet what was committed make a node that has it. -/
theorem whole_restart {C : List LogEntry} {p : Persistence} (hp : p.Meets (KeepsAll C))
    (hkept : KeptFiles (fun _ => True) (· ≠ "__proto__") p)
    (hshown : KeptFiles OffProto (fun _ => True) p) :
    let r := construct params p
    Whole params r ∧ KeepsAll C r.fullLog r.commitIndex r.currentTerm := by
  intro r
  obtain ⟨-, hfull, hcommit, -, -⟩ := coherent_construct params hp
  have hshown := (keeps_construct sparesProto_offProto params hshown).1
  refine ⟨⟨sure_construct hp hkept, hshown⟩, ?_⟩
  rw [hfull, hcommit]
  exact hp.holds

/-- What an operation leaves on file at any moment, when it keeps an invariant of the files. -/
theorem keptFiles_filesAt {C : LogEntry → Prop} {B : String → Prop} (hB : SparesProto C B)
    {op : Op} (hop : KeptOp C B n.beginTurn op) (hn : KeptNode C B n.beginTurn) (calls : ℕ) :
    KeptFiles C B (n.filesAt op calls) := by
  obtain ⟨-, cs, hcs, -, hfiles⟩ := keeps_run hB n.beginTurn op hop hn
  rw [show n.beginTurn.calls = [] from rfl, List.nil_append] at hcs
  unfold filesAt
  rw [hcs]
  exact hfiles calls

/-- **One incident.** -/
theorem Whole.next (h : Whole params n) {incident : Incident} (hcareful : incident.Careful n)
    {r : RaftNode} (hnext : incident.next params n = some r) :
    Whole params r ∧ KeepsAll n.committed r.fullLog r.commitIndex r.currentTerm := by
  have hholds := n.holds_committed
  have hbegin := h.beginTurn
  cases incident with
  | operate op =>
      obtain rfl := Option.some.inj hnext
      obtain ⟨hfits, hoff⟩ := hcareful
      have hfit : op.Fits n.committed n.beginTurn := by cases op <;> exact hfits
      have hoff : op.OffProto n.beginTurn := by cases op <;> exact hoff
      have hrun := hbegin.toSure.run hfit hholds
      refine ⟨⟨hrun, (keeps_run sparesProto_offProto _ op hoff hbegin.shown).1⟩, ?_⟩
      have hlast := (evolves_run hbegin.coherent hfit hholds).spans.last.holds
      rw [← hrun.coherent.commit, hrun.coherent.synced.currentTerm] at hlast
      exact hlast
  | crash op calls =>
      obtain rfl := Option.some.inj hnext
      obtain ⟨⟨hfits, hoff⟩, hwhole⟩ := hcareful
      have hfit : op.Fits n.committed n.beginTurn := by cases op <;> exact hfits
      have hoff : op.OffProto n.beginTurn := by cases op <;> exact hoff
      obtain ⟨cs, hcs, -, hpoints⟩ := (evolves_run hbegin.coherent hfit hholds).spans
      rw [show n.beginTurn.calls = [] from rfl, List.nil_append] at hcs
      have hharmless : op.Harmless n.beginTurn ↔ op.Harmless n := by cases op <;> exact Iff.rfl
      refine whole_restart ?_ (keptFiles_filesAt sparesProto hfit.keptOp hbegin.kept calls)
        (keptFiles_filesAt sparesProto_offProto hoff hbegin.shown calls)
      unfold filesAt
      rw [hcs]
      refine hpoints calls fun htorn => hwhole ?_
      rwa [hharmless, ← hcs] at htorn
  | reboot calls =>
      obtain rfl := Option.some.inj hnext
      obtain ⟨-, -, -, -, hpoints⟩ := coherent_construct params (h.coherent.meets hholds)
      exact whole_restart (hpoints calls)
        ((keeps_construct sparesProto params h.kept.files).2 calls)
        ((keeps_construct sparesProto_offProto params h.shown.files).2 calls)

/-- **Crash safety.**  In any life of operations, crashes after any persistence call and
restarts that crash themselves, a node constructed on the files has a contiguous log, a
commit index that the log reaches, and everything that was committed in its place, and
shows it; given that messages fit, that nothing is about the board `__proto__`, and that no
crash tears a snapshot that is needed. -/
theorem crash_safe {r : RaftNode} {incident : Incident}
    (hrun : Runs.Reach (fun n i => Incident.next params n i) Incident.Careful
      (construct params (.fresh .file)) n)
    (hcareful : incident.Careful n) (hnext : incident.next params n = some r) : Recovered n r := by
  have hn : Whole params n :=
    hrun.invariant (whole_fresh params) fun _ _ _ hn hok hnext => (hn.next hok hnext).1
  obtain ⟨hr, hkeeps⟩ := hn.next hcareful hnext
  exact hr.recovered hn.toSure hkeeps

/-- The snapshot of a node fits whoever has committed nothing else. -/
theorem Sure.fitsSnapshot (h : Sure params n) (hC : C <+: n.committed) (commitIndex : ℕ) :
    FitsSnapshot C commitIndex n.snapshotHere where
  wellFormed := h.coherent.snapshotHere.1
  kept := keptSnapshot_here sparesProto h.kept
  agrees := fun _ => h.coherent.snapshotHere.2 ▸ hC

/-- A follower. -/
def follower : Params := ⟨"b", ["a"], "b", 64, 64⟩

/-- Its leader tells it the first two strokes, both committed. -/
def tell : Op :=
  .handle (.appendEntries ⟨1, "a", none, 0, 0,
    [⟨1, 1, .dot "x" "board"⟩, ⟨2, 1, .dot "y" "board"⟩], 2⟩)

/-- It has applied them. -/
def told : RaftNode := Op.run (construct follower (.fresh .file)).beginTurn tell

/-- The leader sends its snapshot of three strokes. -/
def install : Op := .handle (.installSnapshot ⟨1, "a", (written .file).snapshotHere⟩)

/-- The written stroke is shown. -/
theorem shown_written : KeptNode OffProto (fun _ => True) (written .file) := by
  have hrun : Endures hermit (fun n op => op.OffProto n) (construct hermit (.fresh .file))
      (written .file) :=
    endures_written_of (fun _ => ⟨trivial, trivial⟩)
      (fun _ _ => show "board" ≠ "__proto__" by decide) fun _ => trivial
  refine hrun.invariant (whole_fresh hermit).shown fun n step n' hn hok hnext => ?_
  obtain rfl := Option.some.inj hnext
  cases step with
  | operate op => exact (keeps_run sparesProto_offProto n op hok hn).1
  | restart => exact (keeps_construct sparesProto_offProto hermit hn.files).1

/-- The follower was told of entries. -/
theorem reach_told :
    Runs.Reach (fun n i => Incident.next follower n i) Incident.Careful
      (construct follower (.fresh .file)) told := by
  refine Runs.Reach.tail .refl (e := .operate tell) ⟨fun k e he => ?_, fun e he => ?_⟩ rfl
  · rcases k with _ | _ | k
    · obtain rfl := Option.some.inj he
      rfl
    · obtain rfl := Option.some.inj he
      rfl
    · cases he
  · obtain rfl | rfl : e = ⟨1, 1, .dot "x" "board"⟩ ∨ e = ⟨2, 1, .dot "y" "board"⟩ := by
      simpa using he
    all_goals exact show "board" ≠ "__proto__" by decide

/-- The snapshot fits, and writes to no `__proto__`. -/
theorem fits_install : install.Fits told.committed told ∧ install.OffProto told :=
  ⟨(sure_endures endures_fits_written).fitsSnapshot
    ⟨[⟨3, 1, .dot "z" "board"⟩], by decide⟩ told.commitIndex,
    keptSnapshot_here sparesProto_offProto shown_written⟩

/-- A crash right behind the snapshot loses nothing. -/
theorem crash_safe_install :
    (construct follower (told.filesAt install 2)).appliedAt 1 = told.fullLog[0]? := by
  have hcareful : Incident.Careful told (.crash install 2) := by
    refine ⟨fits_install, fun ⟨_, ⟨es, hes⟩, _⟩ => ?_⟩
    rw [show (List.take 2 (Op.run told.beginTurn install).calls).getLast? =
      some (.saveSnapshot (written .file).snapshotHere) by decide] at hes
    cases hes
  have hsafe := crash_safe reach_told hcareful rfl
  obtain ⟨-, e, hthere, -, happlied⟩ := hsafe.kept 0 (by decide)
  exact happlied.trans hthere.symm

/-- **A torn snapshot.**  A crash between the cut of the log and the snapshot leaves files
whose commit index lies beyond the end of the log: what was committed is gone, and the
board is empty. -/
theorem crash_loses_committed :
    Runs.Reach (fun n i => Incident.next follower n i) Incident.Careful
        (construct follower (.fresh .file)) told ∧
      (install.Fits told.committed told ∧ install.OffProto told) ∧
      told.commitIndex = 2 ∧ told.appliedAt 1 = some ⟨1, 1, .dot "x" "board"⟩ ∧
      (construct follower (told.filesAt install 1)).commitIndex = 2 ∧
      (construct follower (told.filesAt install 1)).log.getLastIndex = 0 ∧
      (construct follower (told.filesAt install 1)).appliedAt 1 = none ∧
      (construct follower (told.filesAt install 1)).getStrokes "board" = [] ∧
      ¬ Recovered told (construct follower (told.filesAt install 1)) := by
  have hcommit : (construct follower (told.filesAt install 1)).commitIndex = 2 := by decide
  have hlast : (construct follower (told.filesAt install 1)).log.getLastIndex = 0 := by decide
  refine ⟨reach_told, fits_install, by decide, by decide, hcommit, hlast, by decide, by decide,
    fun h => ?_⟩
  have hle := h.commit_le
  omega

end RaftNode

end QuorumCanvas
