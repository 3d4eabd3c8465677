import QuorumCanvas.Indices

/-!
# A vote within its term

A vote, once cast, should stand for as long as its term does.  Three methods
write `votedFor`: `becomeCandidate` and `handleRequestVote` respect a vote already
cast, and `becomeFollower` forgets it, which is right when it moves to a later term.
The one call of `becomeFollower` that keeps the term is the step-down of a candidate
or leader that hears a leader of its own term.  `Op.Faithful` leaves that case out,
and every run of faithful steps keeps every vote (`vote_kept`); `vote_changed` is the
run that the case makes possible.
-/

namespace QuorumCanvas

namespace RaftNode

variable {n n' n'' : RaftNode} {params : Params} {p : Persistence}

/-- A term and vote that node `n` may come to hold: a later term, or its own term
with the vote it has cast. -/
def Stands (n : RaftNode) (term : ℕ) (votedFor : Option String) : Prop :=
  n.currentTerm ≤ term ∧
    (term = n.currentTerm → ∀ v, n.votedFor = some v → votedFor = some v)

/-- The vote stands now. -/
theorem stands_own (n : RaftNode) : n.Stands n.currentTerm n.votedFor :=
  ⟨le_rfl, fun _ _ h => h⟩

/-- A later term is free. -/
theorem Stands.of_lt {term : ℕ} {votedFor : Option String} (h : n.currentTerm < term) :
    n.Stands term votedFor :=
  ⟨h.le, fun heq => absurd heq h.ne'⟩

theorem Stands.trans {term : ℕ} {votedFor : Option String}
    (h : n.Stands n'.currentTerm n'.votedFor) (h' : n'.Stands term votedFor) :
    n.Stands term votedFor := by
  refine ⟨h.1.trans h'.1, fun heq v hv => ?_⟩
  have hsame : n'.currentTerm = n.currentTerm := by
    have := h.1
    have := h'.1
    omega
  exact h'.2 (heq.trans hsame.symm) v (h.2 hsame v hv)

/-- From `n` to `n'` the vote stands, in memory and in every state saved on the way. -/
structure KeepsVote (n n' : RaftNode) : Prop where
  stands : n.Stands n'.currentTerm n'.votedFor
  saves : Saves (fun s => n.Stands s.currentTerm s.votedFor) n n'
  synced : n.Synced → n'.Synced

theorem KeepsVote.trans (h : KeepsVote n n') (h' : KeepsVote n' n'') : KeepsVote n n'' where
  stands := h.stands.trans h'.stands
  saves := h.saves.trans (h'.saves.mono fun _ hs => h.stands.trans hs)
  synced := fun hn => h'.synced (h.synced hn)

/-- A node that drifts keeps its vote, unless it stood for election in the term of the
leader it heard. -/
theorem KeepsVote.of_drifts {heard : ℕ → Prop} (h : Drifts heard n n')
    (hheard : heard n.currentTerm → n.state = .follower ∨ n.votedFor = none) :
    KeepsVote n n' := by
  have hlapsed : ∀ term votedFor, n.Lapsed heard term votedFor → n.Stands term votedFor := by
    intro term votedFor hl
    obtain ⟨-, hlt | ⟨heq, hstate, hterm⟩⟩ := hl
    · exact .of_lt hlt
    · refine ⟨heq.le, fun _ v hv => ?_⟩
      rcases hheard (heq ▸ hterm) with hfollower | hnone
      · exact absurd hfollower hstate
      · rw [hnone] at hv
        cases hv
  refine ⟨?_, h.saves.mono fun s hs => ?_, h.synced⟩
  · rcases h.voter with ⟨hterm, hvote, -⟩ | ⟨-, hl⟩
    · rw [hterm, hvote]
      exact stands_own n
    · exact hlapsed _ _ hl
  · rcases hs with ⟨hterm, hvote⟩ | hl
    · rw [hterm, hvote]
      exact stands_own n
    · exact hlapsed _ _ hl

/-- Changes to role, leader hints, cursors and timers. -/
theorem KeepsVote.of_eq (hterm : n'.currentTerm = n.currentTerm)
    (hvote : n'.votedFor = n.votedFor) (hcalls : n'.calls = n.calls)
    (hfiles : n'.persistence = n.persistence) : KeepsVote n n' where
  stands := by
    rw [hterm, hvote]
    exact stands_own n
  saves := .of_eq hcalls hfiles
  synced := fun h => ⟨by rw [hfiles, h.file], by rw [hfiles, hterm, h.currentTerm],
    by rw [hfiles, hvote, h.votedFor]⟩

theorem KeepsVote.of_quiet (h : Quiet n n') : KeepsVote n n' :=
  .of_drifts (.of_quiet h : Drifts (fun _ => False) n n') fun hf => hf.elim

/-- Saving a term and vote that `n` may come to hold. -/
theorem keepsVote_persistState {m : RaftNode} (hcalls : m.calls = n.calls)
    (hfiles : m.persistence = n.persistence) (h : n.Stands m.currentTerm m.votedFor) :
    KeepsVote n m.persistState := by
  refine ⟨h, ⟨[.saveState ⟨m.currentTerm, m.votedFor, m.commitIndex⟩], ?_, ?_, ?_⟩, ?_⟩
  · show m.calls ++ _ = _
    rw [hcalls]
  · rw [← hfiles]
    rfl
  · intro s hs
    obtain rfl : s = ⟨m.currentTerm, m.votedFor, m.commitIndex⟩ := by simpa using hs
    exact h
  · intro hn
    exact synced_persistState (by rw [hfiles, hn.file])

/-- A candidate moves to the next term. -/
theorem keepsVote_becomeCandidate (n : RaftNode) : KeepsVote n n.becomeCandidate :=
  keepsVote_persistState (m := { n with
    state := .candidate
    currentTerm := n.currentTerm + 1
    votedFor := some n.replicaId
    leaderId := none }) rfl rfl (.of_lt (Nat.lt_succ_self _))

/-- A vote request gets a vote only from a node that has none to change. -/
theorem keepsVote_handleRequestVote (n : RaftNode) (args : RequestVoteArgs) :
    KeepsVote n (n.handleRequestVote args).1 := by
  obtain ⟨m, hm, hcases⟩ := handleRequestVote_cases n args
  have hkeep : KeepsVote n m := .of_drifts hm fun hf => hf.elim
  rcases hcases with heq | ⟨-, hfree, -, heq⟩
  · rw [heq]
    exact hkeep
  · have hcast : KeepsVote m { m with votedFor := some args.candidateId }.persistState := by
      refine keepsVote_persistState rfl rfl ⟨le_rfl, fun _ v hv => ?_⟩
      rcases hfree with hnone | hsame
      · rw [hnone] at hv
        cases hv
      · exact hsame.symm.trans hv
    have htimer : KeepsVote { m with votedFor := some args.candidateId }.persistState
        { m with votedFor := some args.candidateId }.persistState.resetElectionTimer :=
      .of_eq rfl rfl rfl rfl
    rw [heq]
    exact (hkeep.trans hcast).trans htimer

/-- The operations the code can come to, whatever the messages say. -/
def Op.Possible : RaftNode → Op → Prop :=
  Cluster.Allowed (fun _ => True) (fun _ => True) fun _ _ => True

/-- No leader of the node's own term is heard while the node stands for election or
leads, with a vote cast. -/
def Op.Faithful (n : RaftNode) : Op → Prop
  | .handle request =>
      ∀ id, request.leader? = some (n.currentTerm, id) → n.state = .follower ∨ n.votedFor = none
  | _ => True

/-- **The vote of one operation.** -/
theorem keepsVote_run (n : RaftNode) (op : Op) (hop : op.Possible n) (hf : op.Faithful n) :
    KeepsVote n (Op.run n op) := by
  have hidle : ∀ {m : RaftNode}, Drifts (fun _ => False) n m → KeepsVote n m :=
    fun hd => .of_drifts hd fun hf => hf.elim
  cases op with
  | becomeCandidate => exact keepsVote_becomeCandidate n
  | becomeLeader => exact .of_eq rfl rfl rfl rfl
  | resetElectionTimer => exact .of_eq rfl rfl rfl rfl
  | becomeFollower term leaderId leaderAddr =>
      exact hidle (drifts_becomeFollower n leaderId leaderAddr (Or.inl hop))
  | handle request =>
      by_cases hvote : ∃ args, request = .requestVote args
      · obtain ⟨args, rfl⟩ := hvote
        exact keepsVote_handleRequestVote n args
      · refine .of_drifts (drifts_handle n request fun args heq => hvote ⟨args, heq⟩) ?_
        intro hheard
        obtain ⟨id, hid⟩ := hheard
        exact hf id hid
  | onAppendEntriesReply peer args result =>
      exact hidle (drifts_onAppendEntriesReply n peer args result)
  | onInstallSnapshotReply peer args result =>
      exact hidle (drifts_onInstallSnapshotReply n peer args result)
  | onSyncLogReply result => exact hidle (drifts_onSyncLogReply n result)
  | updateCommitIndex => exact .of_quiet (quiet_updateCommitIndex n)
  | clientAppend stroke => exact hidle (drifts_clientAppend n stroke)

/-! ## Whole lives, with crashes -/

/-- What happens to a replica: an operation that runs to its end, an operation cut by a
crash after some of its persistence calls, or a restart whose constructor is cut and
runs again. -/
inductive Fate
  | operate (op : Op)
  | crash (op : Op) (calls : ℕ)
  | restart (calls : ℕ)

/-- An operation, one that is cut by a crash, or a restart. -/
def Fate.run (params : Params) (n : RaftNode) : Fate → RaftNode
  | .operate op => Op.run n.beginTurn op
  | .crash op calls =>
      construct params (n.persistence.replay ((Op.run n.beginTurn op).calls.take calls))
  | .restart calls =>
      construct params
        (n.persistence.replay ((construct params n.persistence).calls.take calls))

/-- A fate whose operation meets `ok`. -/
def Fate.Meets (ok : RaftNode → Op → Prop) (n : RaftNode) : Fate → Prop
  | .operate op => ok n.beginTurn op
  | .crash op _ => ok n.beginTurn op
  | .restart _ => True

/-- The states a replica can come to from `n` when its operations meet `ok`. -/
abbrev Meets (params : Params) (ok : RaftNode → Op → Prop) : RaftNode → RaftNode → Prop :=
  Runs.Reach (fun n fate => some (Fate.run params n fate)) (Fate.Meets ok)

/-- A constructed node holds the term and vote of its state file, which the constructor
does not change. -/
theorem synced_construct (params : Params) (hp : p.backend = .file) :
    (construct params p).Synced ∧
      (construct params p).currentTerm = p.loadState.currentTerm ∧
      (construct params p).votedFor = p.loadState.votedFor ∧
      ∀ k, (p.replay ((construct params p).calls.take k)).loadState.currentTerm =
          p.loadState.currentTerm ∧
        (p.replay ((construct params p).calls.take k)).loadState.votedFor =
          p.loadState.votedFor := by
  obtain ⟨base, hbase⟩ := boots_construct params p
  have hsync : base.Synced := by
    refine ⟨by rw [hbase.files, hp], ?_, ?_⟩
    · rw [hbase.files, hbase.currentTerm]
    · rw [hbase.files, hbase.votedFor]
  have hq := quiet_applyCommitted base
  obtain ⟨hf, ht, hv⟩ := hq.synced hsync
  obtain ⟨cs, hcs, -, hown⟩ := hq.saves
  rw [hbase.calls, List.nil_append] at hcs
  rw [hbase.eq]
  refine ⟨⟨hf, ht, hv⟩, hq.currentTerm.trans hbase.currentTerm,
    hq.votedFor.trans hbase.votedFor, fun k => ?_⟩
  show (p.replay (base.applyCommitted.calls.take k)).loadState.currentTerm = _ ∧
    (p.replay (base.applyCommitted.calls.take k)).loadState.votedFor = _
  rcases Persistence.loadState_replay p (base.applyCommitted.calls.take k) with hold | ⟨s, hs, hnew⟩
  · rw [hold]
    exact ⟨rfl, rfl⟩
  · obtain ⟨hst, hsv⟩ := hown s (hcs ▸ List.mem_of_mem_take hs)
    rw [hnew, hst, hsv, hbase.currentTerm, hbase.votedFor]
    exact ⟨rfl, rfl⟩

/-- An operation the code can come to, of the faithful kind. -/
def Op.Steadfast (n : RaftNode) (op : Op) : Prop := op.Possible n ∧ op.Faithful n

/-- **One step** of a replica keeps its vote, in memory and on disk. -/
theorem Fate.stands (hn : n.Synced) (fate : Fate) (hfate : fate.Meets Op.Steadfast n) :
    (fate.run params n).Synced ∧
      n.Stands (fate.run params n).currentTerm (fate.run params n).votedFor := by
  have hstart : n.beginTurn.Synced := ⟨hn.file, hn.currentTerm, hn.votedFor⟩
  cases fate with
  | operate op =>
      have hkeep := keepsVote_run n.beginTurn op hfate.1 hfate.2
      exact ⟨hkeep.synced hstart, hkeep.stands⟩
  | crash op calls =>
      obtain ⟨cs, hcs, -, hsaves⟩ := (keepsVote_run n.beginTurn op hfate.1 hfate.2).saves
      have hcs : (Op.run n.beginTurn op).calls = cs := hcs
      obtain ⟨hsync, hterm, hvote, -⟩ := synced_construct params
        (p := n.persistence.replay ((Op.run n.beginTurn op).calls.take calls))
        (by rw [Persistence.backend_replay, hn.file])
      refine ⟨hsync, ?_⟩
      show n.Stands (construct params _).currentTerm (construct params _).votedFor
      rw [hterm, hvote]
      -- the state file holds what it held before, or one of the states saved
      rcases Persistence.loadState_replay n.persistence
        ((Op.run n.beginTurn op).calls.take calls) with hold | ⟨s, hs, hnew⟩
      · rw [hold, hn.currentTerm, hn.votedFor]
        exact stands_own n
      · rw [hnew]
        exact hsaves s (hcs ▸ List.mem_of_mem_take hs)
  | restart calls =>
      obtain ⟨-, -, -, hsame⟩ := synced_construct params hn.file
      obtain ⟨hsync, hterm, hvote, -⟩ := synced_construct params
        (p := n.persistence.replay ((construct params n.persistence).calls.take calls))
        (by rw [Persistence.backend_replay, hn.file])
      refine ⟨hsync, ?_⟩
      show n.Stands (construct params _).currentTerm (construct params _).votedFor
      rw [hterm, hvote, (hsame calls).1, (hsame calls).2, hn.currentTerm, hn.votedFor]
      exact stands_own n

/-- The files have term and vote, whatever happens. -/
theorem synced_meets (hp : p.backend = .file)
    (h : Meets params Op.Steadfast (construct params p) n) : n.Synced :=
  h.invariant (synced_construct params hp).1 fun _ fate _ hn hok hnext =>
    Option.some.inj hnext ▸ (fate.stands hn hok).1

/-- The vote stands, whatever happens. -/
theorem stands_meets (hn : n.Synced) (h : Meets params Op.Steadfast n n') :
    n.Stands n'.currentTerm n'.votedFor := by
  have hboth : n'.Synced ∧ n.Stands n'.currentTerm n'.votedFor := by
    induction h with
    | refl => exact ⟨hn, stands_own n⟩
    | tail _ hok hnext ih =>
        obtain rfl := Option.some.inj hnext
        obtain ⟨hsync, hstands⟩ := Fate.stands ih.1 _ hok
        exact ⟨hsync, ih.2.trans hstands⟩
  exact hboth.2

/-! ## The case that loses a vote -/

/-- A candidate or leader that hears a leader of its term forgets its vote. -/
theorem forgets_hearLeader (term : ℕ) (leaderId : String) (leaderAddr : Option String)
    (hstate : n.state ≠ .follower) :
    (n.hearLeader term leaderId leaderAddr).currentTerm = term ∧
      (n.hearLeader term leaderId leaderAddr).votedFor = none := by
  unfold hearLeader
  rw [if_pos (Or.inr hstate)]
  unfold becomeFollower
  dsimp only
  split <;> exact ⟨rfl, rfl⟩

/-- Whatever else the message makes it do. -/
theorem forgets_handle {request : Request} {id : String}
    (hlead : request.leader? = some (n.currentTerm, id)) (hstate : n.state ≠ .follower) :
    (n.handle request).1.currentTerm = n.currentTerm ∧
      (n.handle request).1.votedFor = none := by
  have hquiet : ∀ {m m' : RaftNode}, m.currentTerm = n.currentTerm ∧ m.votedFor = none →
      Quiet m m' → m'.currentTerm = n.currentTerm ∧ m'.votedFor = none :=
    fun hm hq => ⟨hq.currentTerm.trans hm.1, hq.votedFor.trans hm.2⟩
  cases request with
  | requestVote args => cases hlead
  | syncLog args => cases hlead
  | appendEntries args =>
      obtain ⟨hterm, rfl⟩ : args.term = n.currentTerm ∧ args.leaderId = id := by
        simpa [Request.leader?] using hlead
      have hhear := forgets_hearLeader args.term args.leaderId args.leaderAddr hstate
      rw [hterm] at hhear
      show (n.handleAppendEntries args).1.currentTerm = _ ∧
        (n.handleAppendEntries args).1.votedFor = none
      unfold handleAppendEntries
      rw [hterm, if_neg (lt_irrefl _)]
      dsimp only
      split
      · have hloop := quiet_appendEntriesLoop
          (n := n.hearLeader n.currentTerm args.leaderId args.leaderAddr)
          (n.hearLeader n.currentTerm args.leaderId args.leaderAddr).log.lastIncludedIndex
          args.entries
        split <;> next m heq =>
          rw [heq] at hloop
          first
            | exact hquiet (hquiet hhear hloop) (quiet_followCommit m _)
            | exact hquiet hhear hloop
      · exact hhear
  | heartbeat args =>
      obtain ⟨hterm, rfl⟩ : args.term = n.currentTerm ∧ args.leaderId = id := by
        simpa [Request.leader?] using hlead
      have hhear := forgets_hearLeader args.term args.leaderId args.leaderAddr hstate
      rw [hterm] at hhear
      show (n.handleHeartbeat args).1.currentTerm = _ ∧
        (n.handleHeartbeat args).1.votedFor = none
      unfold handleHeartbeat
      rw [hterm, if_neg (lt_irrefl _)]
      exact hquiet hhear (quiet_followCommit _ _)
  | installSnapshot args =>
      obtain ⟨hterm, rfl⟩ : args.term = n.currentTerm ∧ args.leaderId = id := by
        simpa [Request.leader?] using hlead
      have hhear := forgets_hearLeader args.term args.leaderId none hstate
      rw [hterm] at hhear
      show (n.handleInstallSnapshot args).1.currentTerm = _ ∧
        (n.handleInstallSnapshot args).1.votedFor = none
      unfold handleInstallSnapshot
      rw [hterm, if_neg (lt_irrefl _)]
      dsimp only
      split
      · exact hhear
      · exact hquiet hhear (quiet_applySnapshot _ _)

/-- An operation keeps the vote exactly when it is faithful. -/
theorem stands_run_iff (n : RaftNode) (op : Op) (hop : op.Possible n) :
    n.Stands (Op.run n op).currentTerm (Op.run n op).votedFor ↔ op.Faithful n := by
  refine ⟨fun h => ?_, fun hf => (keepsVote_run n op hop hf).stands⟩
  cases op with
  | handle request =>
      intro id hlead
      by_cases hstate : n.state = .follower
      · exact Or.inl hstate
      · obtain ⟨hterm, hvote⟩ := forgets_handle hlead hstate
        right
        cases hv : n.votedFor with
        | none => rfl
        | some v =>
            have hlost := h.2 hterm v hv
            rw [show (Op.run n (.handle request)).votedFor = none from hvote] at hlost
            cases hlost
  | _ => trivial

/-- A grant is a vote, in the term of the request. -/
theorem voted_of_granted {args : RequestVoteArgs}
    (h : (n.handleRequestVote args).2.voteGranted = true) :
    (n.handleRequestVote args).1.currentTerm = args.term ∧
      (n.handleRequestVote args).1.votedFor = some args.candidateId := by
  obtain ⟨m, -, heq | ⟨hterm, -, -, heq⟩⟩ := handleRequestVote_cases n args
  · rw [heq] at h
    cases h
  · rw [heq]
    exact ⟨hterm, rfl⟩

/-- **A vote is never changed within a term** in a life of faithful steps: the term never
goes back, a vote stands in memory and on disk for as long as its term does, so a later
vote of that term is for the same candidate.  One step that is not faithful loses it. -/
theorem vote_kept (hp : p.backend = .file)
    (h : Meets params Op.Steadfast (construct params p) n)
    (h' : Meets params Op.Steadfast n n') :
    n.currentTerm ≤ n'.currentTerm ∧
    n'.persistence.loadState.currentTerm = n'.currentTerm ∧
    (n'.currentTerm = n.currentTerm → ∀ v, n.votedFor = some v →
      n'.votedFor = some v ∧ n'.persistence.loadState.votedFor = some v) ∧
    (∀ args : RequestVoteArgs, args.term = n.currentTerm →
      (n'.handleRequestVote args).2.voteGranted = true →
      ∀ v, n.votedFor = some v → args.candidateId = v) ∧
    ∀ op : Op, op.Possible n' →
      (n'.Stands (Op.run n' op).currentTerm (Op.run n' op).votedFor ↔ op.Faithful n') := by
  have hn := synced_meets hp h
  have hstands := stands_meets hn h'
  have hn' : n'.Synced := synced_meets hp (h.trans h')
  refine ⟨hstands.1, hn'.currentTerm, fun hterm v hv => ?_, fun args hterm hgrant v hv => ?_,
    stands_run_iff n'⟩
  · have hkept := hstands.2 hterm v hv
    exact ⟨hkept, hn'.votedFor.trans hkept⟩
  · obtain ⟨hat, hvote⟩ := voted_of_granted hgrant
    have hlast := hstands.trans (keepsVote_handleRequestVote n' args).stands
    exact Option.some.inj (hvote.symm.trans (hlast.2 (hat.trans hterm) v hv))

/-- One of five replicas. -/
def fifth : Params := ⟨"a", ["b", "c", "d", "e"], "a", 100, 64⟩

/-- It stands for election in term 1. -/
def standing : RaftNode := (construct fifth (.fresh .file)).beginTurn.becomeCandidate

/-- Replica `"b"` has won term 1 and says so. -/
def rivalBeat : Request := .heartbeat ⟨1, "b", some "b", 0⟩

/-- Replica `"c"` has stood for election in term 1 as well; its request was delayed. -/
def rivalVote : Request := .requestVote ⟨1, "c", 0, 0⟩

/-- A follower may stand. -/
theorem possible_standing :
    Op.Possible (construct fifth (.fresh .file)).beginTurn .becomeCandidate := by
  show (construct fifth (.fresh .file)).beginTurn.state ≠ .leader
  decide

/-- It stands, and restarts. -/
theorem meets_standing {ok : RaftNode → Op → Prop}
    (hok : ok (construct fifth (.fresh .file)).beginTurn .becomeCandidate) :
    Meets fifth ok (construct fifth (.fresh .file)) standing :=
  .tail .refl (e := .operate .becomeCandidate) hok rfl

/-- Out of date and asked by another, a candidate that restarts keeps its vote for itself. -/
theorem vote_kept_standing :
    let n := standing
    let n' := Op.run (construct fifth standing.persistence).beginTurn (.handle rivalVote)
    n.currentTerm ≤ n'.currentTerm ∧
    n'.persistence.loadState.currentTerm = n'.currentTerm ∧
    (n'.currentTerm = n.currentTerm → ∀ v, n.votedFor = some v →
      n'.votedFor = some v ∧ n'.persistence.loadState.votedFor = some v) ∧
    (∀ args : RequestVoteArgs, args.term = n.currentTerm →
      (n'.handleRequestVote args).2.voteGranted = true →
      ∀ v, n.votedFor = some v → args.candidateId = v) ∧
    ∀ op : Op, op.Possible n' →
      (n'.Stands (Op.run n' op).currentTerm (Op.run n' op).votedFor ↔ op.Faithful n') := by
  have hrestart : Meets fifth Op.Steadfast standing (construct fifth standing.persistence) :=
    .tail .refl (e := .restart 0) trivial rfl
  have hasked : Meets fifth Op.Steadfast standing
      (Op.run (construct fifth standing.persistence).beginTurn (.handle rivalVote)) :=
    hrestart.tail (e := .operate (.handle rivalVote)) ⟨trivial, by intro id h; cases h⟩ rfl
  exact vote_kept (rfl : (Persistence.fresh .file).backend = .file)
    (meets_standing ⟨possible_standing, trivial⟩) hasked

/-- **A vote changed.**  A candidate that hears the winner of its term, and then another
candidate of that term, votes twice in it. -/
theorem vote_changed :
    ∃ n n' : RaftNode, Meets fifth Op.Possible (construct fifth (.fresh .file)) n ∧
      Meets fifth Op.Possible n n' ∧ n'.currentTerm = n.currentTerm ∧
      n.votedFor = some "a" ∧ n'.votedFor = some "c" ∧
      n'.persistence.loadState.votedFor = some "c" := by
  let deposed := Op.run standing.beginTurn (.handle rivalBeat)
  have hdeposed : Meets fifth Op.Possible standing deposed :=
    .tail .refl (e := .operate (.handle rivalBeat)) trivial rfl
  refine ⟨standing, Op.run deposed.beginTurn (.handle rivalVote), meets_standing possible_standing,
    hdeposed.tail (e := .operate (.handle rivalVote)) trivial rfl, ?_, ?_, ?_, ?_⟩
  all_goals decide

end RaftNode

end QuorumCanvas
