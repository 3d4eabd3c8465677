import QuorumCanvas.Ballots
import QuorumCanvas.NodeFrame

/-!
# How terms and votes move

Serving messages moves a node's term and vote in two ways only: to a later term,
with no vote yet, or out of an election that another node has won, which forgets
the node's vote for itself.  `Drifts` says so for every handler but the two that
cast votes, together with what a crash in the middle leaves in the state file.
-/

namespace QuorumCanvas

/-- The role of a voter. -/
def NodeState.role : NodeState → Ballots.Role
  | .follower => .follower
  | .candidate => .candidate
  | .leader => .leader

/-- The voter that comes back from a state file. -/
def PersistedState.voter (s : PersistedState) : Ballots.Voter String :=
  ⟨s.currentTerm, s.votedFor, .follower⟩

namespace RaftNode

/-- The voter in a node. -/
def voter (n : RaftNode) : Ballots.Voter String := ⟨n.currentTerm, n.votedFor, n.state.role⟩

/-- The state file holds the term and vote of the node. -/
structure Synced (n : RaftNode) : Prop where
  file : n.persistence.backend = .file
  currentTerm : n.persistence.loadState.currentTerm = n.currentTerm
  votedFor : n.persistence.loadState.votedFor = n.votedFor

/-- Operations that save only the node's own term and vote keep the file in step. -/
theorem Quiet.synced {n n' : RaftNode} (h : Quiet n n') (hn : n.Synced) : n'.Synced := by
  obtain ⟨calls, -, hp, hsaved⟩ := h.saves
  have hstate := Persistence.loadState_replay n.persistence calls
  rw [← hp] at hstate
  refine ⟨by rw [hp, Persistence.backend_replay, hn.file], ?_, ?_⟩
  · rw [h.currentTerm]
    rcases hstate with hold | ⟨s, hs, hnew⟩
    · rw [hold, hn.currentTerm]
    · rw [hnew, (hsaved s hs).1]
  · rw [h.votedFor]
    rcases hstate with hold | ⟨s, hs, hnew⟩
    · rw [hold, hn.votedFor]
    · rw [hnew, (hsaved s hs).2]

/-- Saving puts the file in step. -/
theorem synced_persistState {n : RaftNode} (hfile : n.persistence.backend = .file) :
    n.persistState.Synced := by
  have hp : n.persistState.persistence =
      { n.persistence with loadState := ⟨n.currentTerm, n.votedFor, n.commitIndex⟩ } :=
    Persistence.run_saveState hfile _
  refine ⟨?_, ?_, ?_⟩
  · rw [hp]
    exact hfile
  · rw [hp]
    rfl
  · rw [hp]
    rfl

/-- A term and vote that node `n` can fall back to: a later term without a vote,
or no vote in the term it stood in when it has heard the winner. -/
def Lapsed (heard : ℕ → Prop) (n : RaftNode) (term : ℕ) (votedFor : Option String) : Prop :=
  votedFor = none ∧
    (n.currentTerm < term ∨ n.currentTerm = term ∧ n.state ≠ .follower ∧ heard term)

/-- From `n` to `n'` the term and vote stay or lapse, and so do those saved. -/
structure Drifts (heard : ℕ → Prop) (n n' : RaftNode) : Prop where
  params : n'.params = n.params
  voter : n'.currentTerm = n.currentTerm ∧ n'.votedFor = n.votedFor ∧ n'.state = n.state ∨
    n'.state = .follower ∧ n.Lapsed heard n'.currentTerm n'.votedFor
  saves : Saves (fun s => n.SavesOwn s ∨ n.Lapsed heard s.currentTerm s.votedFor) n n'
  synced : n.Synced → n'.Synced

namespace Drifts

variable {heard heard' : ℕ → Prop} {n n' n'' : RaftNode}

theorem of_quiet (h : Quiet n n') : Drifts heard n n' where
  params := h.params
  voter := Or.inl ⟨h.currentTerm, h.votedFor, h.state⟩
  saves := h.saves.mono fun _ hs => Or.inl hs
  synced := h.synced

theorem refl (n : RaftNode) : Drifts heard n n := of_quiet (Quiet.refl n)

/-- Changes to leader hints, cursors and timers. -/
theorem of_eq (hparams : n'.params = n.params) (hterm : n'.currentTerm = n.currentTerm)
    (hvote : n'.votedFor = n.votedFor) (hstate : n'.state = n.state)
    (hcalls : n'.calls = n.calls) (hfiles : n'.persistence = n.persistence) :
    Drifts heard n n' where
  params := hparams
  voter := Or.inl ⟨hterm, hvote, hstate⟩
  saves := Saves.of_eq hcalls hfiles
  synced := fun h => ⟨by rw [hfiles, h.file], by rw [hfiles, hterm, h.currentTerm],
    by rw [hfiles, hvote, h.votedFor]⟩

/-- Terms do not go back. -/
theorem currentTerm_le (h : Drifts heard n n') : n.currentTerm ≤ n'.currentTerm := by
  rcases h.voter with ⟨hterm, -, -⟩ | ⟨-, -, hlt | ⟨heq, -, -⟩⟩
  · exact hterm.ge
  · exact hlt.le
  · exact heq.le

/-- What lapses after a drift had lapsed before it, or is what the drift left. -/
theorem lapsed (h : Drifts heard n n') {term : ℕ} {votedFor : Option String}
    (hl : n'.Lapsed heard term votedFor) : n.Lapsed heard term votedFor := by
  obtain ⟨hnone, hl⟩ := hl
  refine ⟨hnone, ?_⟩
  have hle := h.currentTerm_le
  rcases hl with hlt | ⟨heq, hstate, hheard⟩
  · exact Or.inl (lt_of_le_of_lt hle hlt)
  · rcases h.voter with ⟨hterm, -, hsame⟩ | ⟨hfollower, -⟩
    · exact Or.inr ⟨hterm.symm.trans heq, hsame ▸ hstate, hheard⟩
    · exact absurd hfollower hstate

theorem trans (h : Drifts heard n n') (h' : Drifts heard n' n'') : Drifts heard n n'' where
  params := h'.params.trans h.params
  voter := by
    rcases h'.voter with ⟨hterm, hvote, hstate⟩ | ⟨hstate, hl⟩
    · rw [hterm, hvote, hstate]
      exact h.voter
    · exact Or.inr ⟨hstate, h.lapsed hl⟩
  saves := by
    refine h.saves.trans (h'.saves.mono ?_)
    rintro s (⟨hterm, hvote⟩ | hl)
    · rcases h.voter with ⟨hterm', hvote', -⟩ | ⟨-, hl⟩
      · exact Or.inl ⟨hterm.trans hterm', hvote.trans hvote'⟩
      · rw [← hterm, ← hvote] at hl
        exact Or.inr hl
    · exact Or.inr (h.lapsed hl)
  synced := fun hn => h'.synced (h.synced hn)

theorem mono (h : Drifts heard n n') (himp : ∀ t, heard t → heard' t) : Drifts heard' n n' := by
  have hl : ∀ term votedFor, n.Lapsed heard term votedFor → n.Lapsed heard' term votedFor := by
    rintro term votedFor ⟨hnone, hl⟩
    exact ⟨hnone, hl.imp_right fun ⟨heq, hstate, hheard⟩ => ⟨heq, hstate, himp _ hheard⟩⟩
  exact ⟨h.params, h.voter.imp_right fun ⟨hs, h⟩ => ⟨hs, hl _ _ h⟩,
    h.saves.mono fun s hs => hs.imp_right (hl _ _), h.synced⟩

end Drifts

variable {heard : ℕ → Prop} (n : RaftNode)

/-- Stepping down drifts, to a later term or for the winner of this one. -/
theorem drifts_becomeFollower {term : ℕ} (leaderId leaderAddr : Option String)
    (h : n.currentTerm < term ∨ n.currentTerm = term ∧ n.state ≠ .follower ∧ heard term) :
    Drifts heard n (n.becomeFollower term leaderId leaderAddr) := by
  -- the timers after the save touch neither the files nor the voter
  let m : RaftNode := { n with
    state := .follower
    currentTerm := term
    votedFor := none
    leaderId := leaderId <|> n.leaderId
    leaderAddr := leaderAddr <|> n.leaderAddr }
  have hfiles : (n.becomeFollower term leaderId leaderAddr).persistence =
      m.persistState.persistence := by
    unfold becomeFollower
    dsimp only
    split <;> rfl
  have hrest : (n.becomeFollower term leaderId leaderAddr).params = n.params ∧
      (n.becomeFollower term leaderId leaderAddr).currentTerm = term ∧
      (n.becomeFollower term leaderId leaderAddr).votedFor = none ∧
      (n.becomeFollower term leaderId leaderAddr).state = .follower ∧
      (n.becomeFollower term leaderId leaderAddr).calls = m.persistState.calls := by
    unfold becomeFollower
    dsimp only
    split <;> exact ⟨rfl, rfl, rfl, rfl, rfl⟩
  obtain ⟨hparams, hterm, hvote, hstate, hcalls⟩ := hrest
  refine ⟨hparams, Or.inr ⟨hstate, hvote, by rw [hterm]; exact h⟩, ?_, ?_⟩
  · refine ⟨[.saveState ⟨term, none, n.commitIndex⟩], hcalls, hfiles, ?_⟩
    intro s hs
    obtain rfl : s = ⟨term, none, n.commitIndex⟩ := by simpa using hs
    exact Or.inr ⟨rfl, h⟩
  · intro hn
    have hsync : m.persistState.Synced := synced_persistState hn.file
    refine ⟨by rw [hfiles, hsync.file], ?_, ?_⟩
    · rw [hfiles, hterm, hsync.currentTerm]
      rfl
    · rw [hfiles, hvote, hsync.votedFor]
      rfl

/-- Stepping down for a later term, when there is one. -/
theorem drifts_ite_becomeFollower (term : ℕ) (leaderId leaderAddr : Option String) :
    Drifts heard n
      (if n.currentTerm < term then n.becomeFollower term leaderId leaderAddr else n) := by
  split
  · next h => exact drifts_becomeFollower n leaderId leaderAddr (Or.inl h)
  · exact Drifts.refl n

/-- A leader of the own term or a later one was heard. -/
theorem drifts_hearLeader {term : ℕ} (leaderId : String) (leaderAddr : Option String)
    (hle : n.currentTerm ≤ term) :
    Drifts (· = term) n (n.hearLeader term leaderId leaderAddr) := by
  unfold hearLeader
  split
  · next h =>
      refine drifts_becomeFollower n _ _ ?_
      rcases Nat.lt_or_ge n.currentTerm term with hlt | hge
      · exact Or.inl hlt
      · exact Or.inr ⟨by omega, h.resolve_left (by omega), rfl⟩
  · exact Drifts.of_eq rfl rfl rfl rfl rfl rfl

/-- A leader's entries are heard. -/
theorem drifts_handleAppendEntries (args : AppendEntriesArgs) :
    Drifts (· = args.term) n (n.handleAppendEntries args).1 := by
  unfold handleAppendEntries
  split
  · exact Drifts.refl n
  · next hle =>
      have hhear := drifts_hearLeader n args.leaderId args.leaderAddr (Nat.not_lt.mp hle)
      dsimp only
      split
      · have hloop := quiet_appendEntriesLoop
          (n := n.hearLeader args.term args.leaderId args.leaderAddr)
          (n.hearLeader args.term args.leaderId args.leaderAddr).log.lastIncludedIndex args.entries
        split
        · next m heq =>
            rw [heq] at hloop
            exact (hhear.trans (.of_quiet hloop)).trans (.of_quiet (quiet_followCommit m _))
        · next m heq =>
            rw [heq] at hloop
            exact hhear.trans (.of_quiet hloop)
      · exact hhear

/-- A heartbeat is heard. -/
theorem drifts_handleHeartbeat (args : HeartbeatArgs) :
    Drifts (· = args.term) n (n.handleHeartbeat args).1 := by
  unfold handleHeartbeat
  split
  · exact Drifts.refl n
  · next hle =>
      exact (drifts_hearLeader n args.leaderId args.leaderAddr (Nat.not_lt.mp hle)).trans
        (.of_quiet (quiet_followCommit _ _))

/-- A leader's snapshot is heard. -/
theorem drifts_handleInstallSnapshot (args : InstallSnapshotArgs) :
    Drifts (· = args.term) n (n.handleInstallSnapshot args).1 := by
  unfold handleInstallSnapshot
  split
  · exact Drifts.refl n
  · next hle =>
      have hhear := drifts_hearLeader n args.leaderId none (Nat.not_lt.mp hle)
      dsimp only
      split
      · exact hhear
      · exact hhear.trans (.of_quiet (quiet_applySnapshot _ _))

/-- A catch-up is no leader to hear. -/
theorem drifts_handleSyncLog (args : SyncLogArgs) :
    Drifts heard n (n.handleSyncLog args).1 := by
  unfold handleSyncLog
  dsimp only
  split <;> exact drifts_ite_becomeFollower n _ _ _

/-- A reply of a later term deposes, and no leader was heard. -/
theorem drifts_onAppendEntriesReply (peer : String) (args : AppendEntriesArgs)
    (result : AppendEntriesResult) : Drifts heard n (n.onAppendEntriesReply peer args result) := by
  unfold onAppendEntriesReply
  split
  · next h => exact drifts_becomeFollower n _ _ (Or.inl h)
  · split
    · split <;> exact Drifts.of_eq rfl rfl rfl rfl rfl rfl
    · exact Drifts.of_eq rfl rfl rfl rfl rfl rfl

/-- After a snapshot too. -/
theorem drifts_onInstallSnapshotReply (peer : String) (args : InstallSnapshotArgs)
    (result : InstallSnapshotResult) :
    Drifts heard n (n.onInstallSnapshotReply peer args result) := by
  unfold onInstallSnapshotReply
  split
  · next h => exact drifts_becomeFollower n _ _ (Or.inl h)
  · exact Drifts.of_eq rfl rfl rfl rfl rfl rfl

/-- A catch-up of a later term does the same. -/
theorem drifts_onSyncLogReply (result : SyncLogResult) :
    Drifts heard n (n.onSyncLogReply result) := by
  unfold onSyncLogReply
  exact (((drifts_ite_becomeFollower n _ _ _).trans (.of_quiet (quiet_catchUpSnapshot _))).trans
    (.of_quiet (quiet_catchUpLoop _ _))).trans (.of_quiet (quiet_followCommit _ _))

/-- So do the acknowledgements of a read, by induction on them. -/
theorem drifts_countAcks (acks : ℕ) (results : List (Option HeartbeatResult)) :
    Drifts heard n (n.countAcks acks results).1 := by
  induction results generalizing acks with
  | nil => exact Drifts.refl n
  | cons r rest ih =>
      cases r with
      | none => exact ih acks
      | some r =>
          unfold countAcks
          split
          · next h => exact drifts_becomeFollower n _ _ (Or.inl h)
          · exact ih _

/-- And so does the read that counts them. -/
theorem drifts_confirmLeadership (term : ℕ) (results : List (Option HeartbeatResult)) :
    Drifts heard n (n.confirmLeadership term results).1 := by
  have hacks : Drifts heard n (n.countAcks 1 results).1 := drifts_countAcks n 1 results
  unfold confirmLeadership
  split <;> next h => rw [h] at hacks; exact hacks

/-- A write changes no term. -/
theorem drifts_clientAppend (stroke : Stroke) : Drifts heard n (n.clientAppend stroke) :=
  (Drifts.of_quiet (quiet_appendLog n _)).trans (.of_eq rfl rfl rfl rfl rfl rfl)

/-- The term a leader's message speaks for, with the leader's name. -/
def Request.leader? : Request → Option (ℕ × String)
  | .appendEntries args => some (args.term, args.leaderId)
  | .heartbeat args => some (args.term, args.leaderId)
  | .installSnapshot args => some (args.term, args.leaderId)
  | .requestVote _ | .syncLog _ => none

/-- Every request but a vote request only makes its receiver drift. -/
theorem drifts_handle (request : Request) (h : ∀ args, request ≠ .requestVote args) :
    Drifts (fun t => ∃ id, request.leader? = some (t, id)) n (n.handle request).1 := by
  cases request with
  | requestVote args => exact absurd rfl (h args)
  | appendEntries args =>
      exact (drifts_handleAppendEntries n args).mono fun t ht => ⟨args.leaderId, by rw [ht]; rfl⟩
  | heartbeat args =>
      exact (drifts_handleHeartbeat n args).mono fun t ht => ⟨args.leaderId, by rw [ht]; rfl⟩
  | syncLog args => exact drifts_handleSyncLog n args
  | installSnapshot args =>
      exact (drifts_handleInstallSnapshot n args).mono fun t ht => ⟨args.leaderId, by rw [ht]; rfl⟩

/-- **A vote request** first moves its receiver to the candidate's term; then the
receiver votes for the candidate, if it is free to, or does nothing. -/
theorem handleRequestVote_cases (args : RequestVoteArgs) :
    ∃ m : RaftNode, Drifts (fun _ => False) n m ∧
      ((n.handleRequestVote args = (m, ⟨m.currentTerm, false, m.replicaId⟩)) ∨
        (m.currentTerm = args.term ∧
          (m.votedFor = none ∨ m.votedFor = some args.candidateId) ∧
          m.isLogUpToDate args.lastLogIndex args.lastLogTerm = true ∧
          n.handleRequestVote args =
            ({ m with votedFor := some args.candidateId }.persistState.resetElectionTimer,
              ⟨m.currentTerm, true, m.replicaId⟩))) := by
  let m := if n.currentTerm < args.term then n.becomeFollower args.term none none else n
  have hm : Drifts (fun _ => False) n m := drifts_ite_becomeFollower n _ _ _
  have hle : args.term ≤ m.currentTerm := by
    by_cases hlt : n.currentTerm < args.term
    · have : m = n.becomeFollower args.term none none := if_pos hlt
      rw [this]
      unfold becomeFollower
      dsimp only
      split <;> exact le_rfl
    · have : m = n := if_neg hlt
      rw [this]
      omega
  refine ⟨m, hm, ?_⟩
  by_cases hcan : (decide (m.currentTerm ≤ args.term) &&
      (m.votedFor = none || m.votedFor = some args.candidateId) &&
      m.isLogUpToDate args.lastLogIndex args.lastLogTerm) = true
  · right
    have hparts : (m.currentTerm ≤ args.term ∧
        (m.votedFor = none ∨ m.votedFor = some args.candidateId)) ∧
        m.isLogUpToDate args.lastLogIndex args.lastLogTerm = true := by
      simpa using hcan
    have hterm : m.currentTerm = args.term := le_antisymm hparts.1.1 hle
    refine ⟨hterm, hparts.1.2, hparts.2, ?_⟩
    unfold handleRequestVote
    dsimp only
    rw [show (if n.currentTerm < args.term then n.becomeFollower args.term none none else n) = m
      from rfl, hcan, ← hterm]
    rfl
  · left
    have hfalse := Bool.eq_false_iff.mpr hcan
    unfold handleRequestVote
    dsimp only
    rw [show (if n.currentTerm < args.term then n.becomeFollower args.term none none else n) = m
      from rfl, hfalse]
    rfl

end RaftNode

end QuorumCanvas
