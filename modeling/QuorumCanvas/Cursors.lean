import QuorumCanvas.AgreedCommits
import QuorumCanvas.Indices
import QuorumCanvas.Links
import QuorumCanvas.ReplicationSlots

/-!
# The cursors of a leader

A leader keeps for each peer the index of the next entry to send and the last index
known to be there.  They are set by the election, by each success, by each rejection and
by each snapshot, and the log they point into grows, is compacted, and can be cut by a
catch-up that was asked for before the election.

Successes and snapshots of the current term keep the cursors in range, whatever happens
in between: at most one request to a peer is outstanding, so its reply finds the cursor
that the request was made from.  A rejection puts the cursor wherever the peer says its
log ends, counted from the peer's own snapshot (`cursors_in_range`).
-/

namespace QuorumCanvas

open RaftNode (Op Reply Request)
open SingleFlight (Guarded)

/-! ## The boundary never goes back -/

/-- Compacting never shortens a log. -/
theorem RaftLog.le_getLastIndex_compact (log : RaftLog) (u t : ℕ) :
    log.getLastIndex ≤ (log.compact u t).getLastIndex := by
  unfold RaftLog.compact RaftLog.getLastIndex
  split
  · exact le_rfl
  · dsimp only
    rw [List.length_drop]
    omega

namespace Persistence

/-- Memory never holds a snapshot. -/
def Forgets (p : Persistence) : Prop := p.backend = .memory → p.loadSnapshot = none

variable {p : Persistence}

/-- New storage holds no snapshot. -/
theorem forgets_fresh (backend : Backend) : (fresh backend).Forgets := fun _ => rfl

/-- A snapshot that is saved in memory is not kept. -/
theorem Forgets.run (h : p.Forgets) (call : PersistenceCall) : (p.run call).Forgets := by
  intro hmemory
  have hp : p.backend = .memory := (backend_run p call).symm.trans hmemory
  have hsame : p.run call = p := by
    unfold Persistence.run
    rw [hp]
  rw [hsame]
  exact h hp

/-- Through several calls as well. -/
theorem Forgets.replay (h : p.Forgets) (calls : List PersistenceCall) :
    (p.replay calls).Forgets := by
  induction calls generalizing p with
  | nil => exact h
  | cons call calls ih => exact ih (h.run call)

/-- Only a call that saves a snapshot changes the snapshot. -/
theorem loadSnapshot_run_of_ne {call : PersistenceCall} (hcall : ∀ s, call ≠ .saveSnapshot s) :
    (p.run call).loadSnapshot = p.loadSnapshot := by
  unfold Persistence.run
  split
  · rfl
  · cases call with
    | saveSnapshot s => exact absurd rfl (hcall s)
    | _ => rfl

/-- A snapshot that is found after a call that saves one is that one. -/
theorem Forgets.saved (h : p.Forgets) {s s' : Snapshot}
    (hs : (p.run (.saveSnapshot s)).loadSnapshot = some s') : s' = s := by
  cases hp : p.backend with
  | file =>
      rw [run_saveSnapshot hp] at hs
      exact (Option.some.inj hs).symm
  | memory =>
      have hnone := h.run (.saveSnapshot s) ((backend_run p _).trans hp)
      cases hnone.symm.trans hs

end Persistence

namespace RaftNode

variable {n n' n'' : RaftNode} {peer : String}

/-- The snapshot on file lies within the boundary, and the boundary within what is
committed. -/
structure Shelved (n : RaftNode) : Prop where
  forgets : n.persistence.Forgets
  boundary_le : n.log.lastIncludedIndex ≤ n.commitIndex
  saved : ∀ s, n.persistence.loadSnapshot = some s →
    s.lastIncludedIndex ≤ n.log.lastIncludedIndex

/-- From a shelved `n` to `n'` the node stays shelved, and its boundary does not go back. -/
def Rises (n n' : RaftNode) : Prop :=
  n.Shelved → n'.Shelved ∧ n.log.lastIncludedIndex ≤ n'.log.lastIncludedIndex

namespace Rises

theorem refl (n : RaftNode) : Rises n n := fun h => ⟨h, le_rfl⟩

theorem trans (h : Rises n n') (h' : Rises n' n'') : Rises n n'' := fun hn => by
  obtain ⟨hn', hle⟩ := h hn
  obtain ⟨hn'', hle'⟩ := h' hn'
  exact ⟨hn'', hle.trans hle'⟩

/-- A call that saves no snapshot, and a log with the same boundary. -/
theorem of_call (call : PersistenceCall) (hfiles : n'.persistence = n.persistence.run call)
    (hbound : n'.log.lastIncludedIndex = n.log.lastIncludedIndex)
    (hcommit : n'.commitIndex = n.commitIndex) (hcall : ∀ s, call ≠ .saveSnapshot s) :
    Rises n n' := fun hn => by
  have hsame := Persistence.loadSnapshot_run_of_ne (p := n.persistence) hcall
  refine ⟨⟨?_, ?_, ?_⟩, hbound.ge⟩
  · rw [hfiles]
    exact hn.forgets.run call
  · rw [hbound, hcommit]
    exact hn.boundary_le
  · intro s hs
    rw [hfiles, hsame] at hs
    rw [hbound]
    exact hn.saved s hs

end Rises

/-- A snapshot that is taken becomes the boundary. -/
theorem rises_applyCommitted (n : RaftNode) : Rises n n.applyCommitted := fun hn => by
  have hmarks := marks_iterate n (n.commitIndex - n.lastApplied)
  have hlog := log_applyNext_iterate n (n.commitIndex - n.lastApplied)
  have hfiles := persistence_applyNext_iterate n (n.commitIndex - n.lastApplied)
  have hcommit := congrArg Marks.commitIndex hmarks
  unfold applyCommitted
  generalize applyNext^[n.commitIndex - n.lastApplied] n = m at *
  have hcommit : m.commitIndex = n.commitIndex := hcommit
  have hm : m.Shelved := ⟨hfiles ▸ hn.forgets, by rw [hlog, hcommit]; exact hn.boundary_le,
    fun s hs => hlog ▸ hn.saved s (hfiles ▸ hs)⟩
  rw [← hlog]
  unfold maybeSnapshot
  split
  · exact ⟨hm, le_rfl⟩
  · -- the snapshot is taken at the commit index, where the log is then compacted
    have hforgets := hm.forgets.run (.saveSnapshot m.snapshotHere)
    unfold takeSnapshot compactLog
    split
    · next hle =>
        have hle : m.commitIndex ≤ m.log.lastIncludedIndex := hle
        refine ⟨⟨hforgets, hm.boundary_le, fun s hs => ?_⟩, le_rfl⟩
        obtain rfl := hm.forgets.saved hs
        exact hle
    · next hlt =>
        have hbound := m.log.lastIncludedIndex_compact (u := m.commitIndex)
          (t := m.log.getTermAt m.commitIndex)
        rw [max_eq_right hm.boundary_le] at hbound
        refine ⟨⟨hforgets.run _, hbound.le, fun s hs => ?_⟩, hm.boundary_le.trans hbound.ge⟩
        have hkept : ((m.persistence.run (.saveSnapshot m.snapshotHere)).run (.rewriteLog
            (m.log.compact m.commitIndex (m.log.getTermAt m.commitIndex)).entries)).loadSnapshot =
            (m.persistence.run (.saveSnapshot m.snapshotHere)).loadSnapshot :=
          Persistence.loadSnapshot_run_of_ne (by simp)
        obtain rfl := hm.forgets.saved (hkept.symm.trans hs)
        exact hbound.ge

/-- No link lowers the boundary of a shelved node. -/
theorem Link.rises (h : Link n n') : Rises n n' := by
  cases h with
  | frame _ hparams hlog hmarks hboards hhistory hfiles =>
      have hcommit := commitIndex_of_marks hmarks
      rcases hfiles with hsame | ⟨s, hsaved⟩
      · intro hn
        refine ⟨⟨hsame ▸ hn.forgets, by rw [hlog, hcommit]; exact hn.boundary_le, fun s hs => ?_⟩,
          by rw [hlog]⟩
        rw [hlog]
        exact hn.saved s (hsame ▸ hs)
      · exact .of_call (.saveState s) hsaved (by rw [hlog]) hcommit (by simp)
  | append entry => exact .of_call (.appendLog entry) rfl rfl rfl (by simp)
  | truncate index hindex =>
      have hbound : (n.log.truncateFrom index).lastIncludedIndex = n.log.lastIncludedIndex :=
        RaftLog.lastIncludedIndex_truncateFrom
      unfold truncateFrom
      split
      · exact .of_call (.rewriteLog (n.log.truncateFrom index).entries) rfl hbound rfl (by simp)
      · exact .refl n
  | commit index hindex hle =>
      -- the boundary lies within the log, so the new commit index is not below it
      intro hn
      have hlo : n.log.lastIncludedIndex ≤ index := by
        have hlast : n.log.lastIncludedIndex ≤ n.log.getLastIndex := Nat.le_add_right _ _
        have := hn.boundary_le
        omega
      have hset : ({ n with commitIndex := index } : RaftNode).Shelved :=
        ⟨hn.forgets, hlo, hn.saved⟩
      have hsave : Rises { n with commitIndex := index }
          ({ n with commitIndex := index } : RaftNode).persistState :=
        .of_call (.saveState ⟨n.currentTerm, n.votedFor, index⟩) rfl rfl rfl (by simp)
      exact (hsave.trans (rises_applyCommitted _)) hset
  | install snapshot hahead =>
      intro hn
      have hrewrite := hn.forgets.run (.rewriteLog
        (n.log.installSnapshot snapshot.lastIncludedIndex snapshot.lastIncludedTerm).entries)
      have hsave := hrewrite.run (.saveSnapshot snapshot)
      refine ⟨⟨hsave.run _, le_rfl, fun s hs => ?_⟩, hn.boundary_le.trans hahead.le⟩
      have hread := hs
      unfold applySnapshot persistState persist at hread
      dsimp only [setBoundary, restoreBoardState, installLog, persist] at hread
      rw [Persistence.loadSnapshot_run_of_ne (by simp)] at hread
      obtain rfl := hrewrite.saved hread
      exact le_rfl

/-- Several links do not. -/
theorem Links.rises (h : Links n n') : Rises n n' := by
  induction h with
  | refl => exact .refl n
  | tail _ hlink ih => exact ih.trans hlink.rises

/-- A node starts with the boundary of its snapshot. -/
theorem shelved_construct (params : Params) {p : Persistence} (hp : p.Forgets) :
    (construct params p).Shelved := by
  obtain ⟨base, hbase⟩ := boots_construct params p
  have hshelved : base.Shelved := by
    refine ⟨hbase.files ▸ hp, ?_, fun s hs => ?_⟩
    · rw [hbase.log, hbase.commitIndex]
      exact le_max_right _ _
    · rw [hbase.files] at hs
      rw [hbase.log]
      unfold RaftLog.ofPersistence
      rw [hs]
  obtain ⟨happlied, -⟩ := rises_applyCommitted base hshelved
  rw [hbase.eq]
  exact ⟨happlied.forgets, happlied.boundary_le, happlied.saved⟩

/-! ## What keeps the cursors -/

/-- The cursors of a peer: the next index is in the log or right after it, and what the
peer is known to hold ends before it. -/
def InRange (n : RaftNode) (peer : String) : Prop :=
  ∃ next, n.nextIndex peer = some next ∧ 1 ≤ next ∧ next ≤ n.log.getLastIndex + 1 ∧
    (n.matchIndex peer).getD 0 < next

/-- An unanswered AppendEntries to a peer was sent in this term or an earlier one; when the
node leads in that term, the cursor of the peer is where the request was made from, and the
log still reaches as far as its entries. -/
structure CoversEntries (n : RaftNode) (peer : String) (args : AppendEntriesArgs) : Prop where
  term_le : args.term ≤ n.currentTerm
  term_lt : n.state = .candidate → args.term < n.currentTerm
  next : n.state = .leader → args.term = n.currentTerm →
    n.nextIndex peer = some (args.prevLogIndex + 1)
  reach : n.state = .leader → args.term = n.currentTerm →
    args.prevLogIndex + args.entries.length ≤ n.log.getLastIndex

/-- What holds of an unanswered request to a peer. -/
def Covers (n : RaftNode) (peer : String) : Request → Prop
  | .appendEntries args => n.CoversEntries peer args
  | .installSnapshot args => args.snapshot.lastIncludedIndex ≤ n.log.lastIncludedIndex
  | _ => True

/-- A leader's cursors are in range, and the requests that are out were made from them. -/
structure Tracks (n : RaftNode) (sends : List Send) : Prop where
  shelved : n.Shelved
  inRange : n.state = .leader → ∀ peer ∈ n.peers, n.InRange peer
  covers : ∀ s ∈ sends, ∀ w, s.waiting = some w → n.Covers s.peer w.2

/-- The node keeps its role or becomes a follower; if it still leads, it has kept term and
cursors, and its log is not shorter. -/
structure Reigns (n n' : RaftNode) : Prop where
  rises : Rises n n'
  stays : Stays n n'
  peers : n'.state = .leader → n'.peers = n.peers
  nextIndex : n'.state = .leader → n'.nextIndex = n.nextIndex
  last_le : n'.state = .leader → n.log.getLastIndex ≤ n'.log.getLastIndex

namespace Reigns

theorem of_quiet (hrises : Rises n n') (h : Quiet n n')
    (hlast : n.log.getLastIndex ≤ n'.log.getLastIndex) : Reigns n n' :=
  ⟨hrises, .of_quiet h, fun _ => h.peers, fun _ => h.nextIndex, fun _ => hlast⟩

/-- Neither role nor cursors nor log nor files change. -/
theorem of_eq (hpeers : n'.peers = n.peers) (hstate : n'.state = n.state)
    (hterm : n'.currentTerm = n.currentTerm) (hlog : n'.log = n.log)
    (hcommit : n'.commitIndex = n.commitIndex) (hfiles : n'.persistence = n.persistence)
    (hnext : n'.nextIndex = n.nextIndex) (hmatch : n'.matchIndex = n.matchIndex) :
    Reigns n n' :=
  ⟨fun h => ⟨⟨hfiles ▸ h.forgets, by rw [hlog, hcommit]; exact h.boundary_le,
      fun s hs => hlog ▸ h.saved s (hfiles ▸ hs)⟩, by rw [hlog]⟩,
    ⟨hmatch, Or.inl ⟨hstate, hterm⟩⟩, fun _ => hpeers, fun _ => hnext, fun _ => by rw [hlog]⟩

/-- A node that does not come out as a leader. -/
theorem of_not_leader (hrises : Rises n n') (hstays : Stays n n') (h : n'.state ≠ .leader) :
    Reigns n n' :=
  ⟨hrises, hstays, fun hlead => absurd hlead h, fun hlead => absurd hlead h,
    fun hlead => absurd hlead h⟩

theorem refl (n : RaftNode) : Reigns n n := .of_quiet (.refl n) (.refl n) le_rfl

/-- Who leads afterwards has led before, in the same term. -/
theorem led (h : Reigns n n') (hlead : n'.state = .leader) :
    n.state = .leader ∧ n'.currentTerm = n.currentTerm := by
  obtain ⟨hrole, hterm⟩ := h.stays.kept (by rw [hlead]; decide)
  exact ⟨hrole.symm.trans hlead, hterm⟩

theorem trans (h : Reigns n n') (h' : Reigns n' n'') : Reigns n n'' := by
  refine ⟨h.rises.trans h'.rises, h.stays.trans h'.stays, fun hlead => ?_, fun hlead => ?_,
    fun hlead => ?_⟩
  · exact (h'.peers hlead).trans (h.peers (h'.led hlead).1)
  · exact (h'.nextIndex hlead).trans (h.nextIndex (h'.led hlead).1)
  · exact (h.last_le (h'.led hlead).1).trans (h'.last_le hlead)

/-- What the log covered it still covers. -/
theorem covers (h : Reigns n n') (hn : n.Shelved) {request : Request}
    (hc : n.Covers peer request) : n'.Covers peer request := by
  cases request with
  | appendEntries args =>
      refine ⟨hc.term_le.trans h.stays.term_le, fun hstate => ?_, fun hlead hterm => ?_,
        fun hlead hterm => ?_⟩
      · obtain ⟨hrole, hsame⟩ := h.stays.kept (by rw [hstate]; decide)
        rw [hsame]
        exact hc.term_lt (hrole.symm.trans hstate)
      · obtain ⟨hled, hsame⟩ := h.led hlead
        rw [h.nextIndex hlead]
        exact hc.next hled (hterm.trans hsame)
      · obtain ⟨hled, hsame⟩ := h.led hlead
        exact (hc.reach hled (hterm.trans hsame)).trans (h.last_le hlead)
  | installSnapshot args => exact le_trans hc (h.rises hn).2
  | _ => trivial

/-- The cursors stay in the range of what is sent. -/
theorem tracks (h : Reigns n n') {sends : List Send} (hn : n.Tracks sends) :
    n'.Tracks sends := by
  refine ⟨(h.rises hn.shelved).1, fun hlead peer hpeer => ?_, fun s hs w hw =>
    h.covers hn.shelved (hn.covers s hs w hw)⟩
  obtain ⟨next, hnext, hlo, hhi, hmatch⟩ :=
    hn.inRange (h.led hlead).1 peer (h.peers hlead ▸ hpeer)
  refine ⟨next, (congrFun (h.nextIndex hlead) peer).trans hnext, hlo, ?_, ?_⟩
  · exact hhi.trans (Nat.succ_le_succ (h.last_le hlead))
  · rw [congrFun h.stays.matchIndex peer]
    exact hmatch

end Reigns

/-- What is committed may be compacted away, which does not make the log shorter. -/
theorem getLastIndex_advanceCommit (n : RaftNode) (index : ℕ) :
    n.log.getLastIndex ≤ (n.advanceCommit index).log.getLastIndex := by
  have hlog := log_applyCommitted ({ n with commitIndex := index } : RaftNode).persistState
  have hlog' : (n.advanceCommit index).log =
      if index - n.log.lastIncludedIndex < n.snapshotThreshold then n.log
      else n.log.compact index (n.log.getTermAt index) := hlog
  rw [hlog']
  split
  · exact le_rfl
  · exact n.log.le_getLastIndex_compact _ _

/-- Following a commit index ends no reign. -/
theorem reigns_followCommit (n : RaftNode) (leaderCommit : ℕ) :
    Reigns n (n.followCommit leaderCommit) := by
  refine .of_quiet (links_followCommit n _).rises (quiet_followCommit n _) ?_
  unfold followCommit
  split
  · exact getLastIndex_advanceCommit n _
  · exact le_rfl

/-- Counting a majority ends none. -/
theorem reigns_updateCommitIndex (n : RaftNode) : Reigns n n.updateCommitIndex := by
  refine .of_quiet (links_updateCommitIndex n).rises (quiet_updateCommitIndex n) ?_
  unfold updateCommitIndex
  split
  · exact getLastIndex_advanceCommit n _
  · exact le_rfl

/-- A node that steps down is a follower. -/
theorem becomeFollower_state (n : RaftNode) (term : ℕ) (leaderId leaderAddr : Option String) :
    (n.becomeFollower term leaderId leaderAddr).state = .follower := by
  unfold becomeFollower
  dsimp only
  split <;> rfl

/-- Stepping down ends the reign. -/
theorem reigns_becomeFollower (n : RaftNode) {term : ℕ} (leaderId leaderAddr : Option String)
    (hle : n.currentTerm ≤ term) : Reigns n (n.becomeFollower term leaderId leaderAddr) :=
  .of_not_leader (links_becomeFollower n _ _ _).rises (stays_becomeFollower n _ _ hle)
    (by rw [becomeFollower_state]; decide)

theorem reigns_ite_becomeFollower (n : RaftNode) (term : ℕ) :
    Reigns n (if n.currentTerm < term then n.becomeFollower term none none else n) := by
  split
  · next hlt => exact reigns_becomeFollower n none none hlt.le
  · exact .refl n

/-- **A request** is refused, or its receiver comes out as a follower, or it is a question
that leaves the cursors alone. -/
theorem reigns_handle (n : RaftNode) (request : Request) : Reigns n (n.handle request).1 := by
  have hrises := (links_handle n request).rises
  have hstays := stays_handle n request
  cases hl : request.leader? with
  | some l =>
      rcases n.handle_leader hl with ⟨-, hsame⟩ | ⟨-, hfollower, -⟩
      · rw [hsame]
        exact .refl n
      · exact .of_not_leader hrises hstays (by rw [hfollower]; decide)
  | none =>
      cases request with
      | requestVote args =>
          have hdown := reigns_ite_becomeFollower n args.term
          -- a vote changes neither role nor cursors nor log
          obtain ⟨hpeers, hnext, hlast⟩ :
              ((n.handleRequestVote args).1.state = .leader →
                (n.handleRequestVote args).1.peers = n.peers) ∧
              ((n.handleRequestVote args).1.state = .leader →
                (n.handleRequestVote args).1.nextIndex = n.nextIndex) ∧
              ((n.handleRequestVote args).1.state = .leader →
                n.log.getLastIndex ≤ (n.handleRequestVote args).1.log.getLastIndex) := by
            unfold handleRequestVote
            dsimp only
            generalize (if n.currentTerm < args.term then n.becomeFollower args.term none none
              else n) = m at hdown
            split <;> exact ⟨hdown.peers, hdown.nextIndex, hdown.last_le⟩
          exact ⟨hrises, hstays, hpeers, hnext, hlast⟩
      | syncLog args =>
          show Reigns n (n.handleSyncLog args).1
          have hdown := reigns_ite_becomeFollower n args.term
          unfold handleSyncLog
          dsimp only
          split <;> exact hdown
      | appendEntries args => cases hl
      | heartbeat args => cases hl
      | installSnapshot args => cases hl

/-- Spliced in one after the other, the entries cut nothing off the log. -/
def CutsNothing (lastIncluded : ℕ) : RaftNode → List LogEntry → Prop
  | _, [] => True
  | n, entry :: rest =>
      if entry.index ≤ lastIncluded then CutsNothing lastIncluded n rest
      else (n.conflicts entry → entry.index ≤ n.commitIndex) ∧
        CutsNothing lastIncluded ((n.spliceEntry entry).getD n) rest

/-- A catch-up reply that does not shorten the log of the node. -/
def KeepsTail (n : RaftNode) (result : SyncLogResult) : Prop :=
  n.log.getLastIndex ≤ (n.catchUpSnapshot result.snapshot).log.getLastIndex ∧
    (n.catchUpSnapshot result.snapshot).CutsNothing
      (n.catchUpSnapshot result.snapshot).log.lastIncludedIndex
      (result.entries.filter fun e => e.index ≤ result.commitIndex)

/-- An entry that conflicts with nothing above the commit index leaves the log as long. -/
theorem getLastIndex_spliceEntry {entry : LogEntry}
    (hkeep : n.conflicts entry → entry.index ≤ n.commitIndex) :
    n.log.getLastIndex ≤ ((n.spliceEntry entry).getD n).log.getLastIndex := by
  unfold spliceEntry
  split
  · exact le_rfl
  · next hno =>
      have hfree : ¬ n.conflicts entry = true := fun hconflict => hno ⟨hconflict, hkeep hconflict⟩
      have hdrop : n.dropConflict entry = n := if_neg hfree
      rw [hdrop]
      show n.log.getLastIndex ≤ (n.appendMissing entry).log.getLastIndex
      unfold appendMissing
      split
      · rw [log_appendLog, RaftLog.getLastIndex_append]
        exact Nat.le_succ _
      · exact le_rfl

/-- So do the entries of a catch-up that cut nothing. -/
theorem CutsNothing.getLastIndex {lastIncluded : ℕ} {entries : List LogEntry}
    (h : n.CutsNothing lastIncluded entries) :
    n.log.getLastIndex ≤ (n.catchUpLoop lastIncluded entries).log.getLastIndex := by
  induction entries generalizing n with
  | nil => exact le_rfl
  | cons entry rest ih =>
      unfold CutsNothing at h
      unfold catchUpLoop
      split at h
      · next hold =>
          rw [if_pos hold]
          exact ih h
      · next hnew =>
          rw [if_neg hnew]
          exact (getLastIndex_spliceEntry h.1).trans (ih h.2)

/-- A catch-up that keeps the tail of a leader's log. -/
theorem reigns_onSyncLogReply {result : SyncLogResult}
    (h : n.state = .leader → result.term ≤ n.currentTerm → n.KeepsTail result) :
    Reigns n (n.onSyncLogReply result) := by
  have hrises := (links_onSyncLogReply n result).rises
  have hstays := stays_onSyncLogReply n result
  by_cases hdown : n.state = .leader ∧ result.term ≤ n.currentTerm
  · obtain ⟨hspares, hcuts⟩ := h hdown.1 hdown.2
    have hkeep : (if n.currentTerm < result.term then n.becomeFollower result.term none none
        else n) = n := if_neg (Nat.not_lt.mpr hdown.2)
    have hsnapshot : Reigns n (n.catchUpSnapshot result.snapshot) :=
      .of_quiet (links_catchUpSnapshot n _).rises (quiet_catchUpSnapshot _) hspares
    have hloop := Reigns.of_quiet (links_catchUpLoop (n.catchUpSnapshot result.snapshot)
      (n.catchUpSnapshot result.snapshot).log.lastIncludedIndex
      (result.entries.filter fun e => e.index ≤ result.commitIndex)).rises
      (quiet_catchUpLoop _ _) hcuts.getLastIndex
    unfold onSyncLogReply
    rw [hkeep]
    exact (hsnapshot.trans hloop).trans (reigns_followCommit _ _)
  · -- a node that did not lead does not lead now, and a later term makes a follower
    refine .of_not_leader hrises hstays fun hlead => hdown ?_
    obtain ⟨hrole, hterm⟩ := hstays.kept (by rw [hlead]; decide)
    refine ⟨hrole.symm.trans hlead, ?_⟩
    by_contra hlt
    have hlt := Nat.not_le.mp hlt
    have hle : result.term ≤ (n.onSyncLogReply result).currentTerm := by
      unfold onSyncLogReply
      dsimp only
      rw [if_pos hlt, (quiet_followCommit _ _).currentTerm, (quiet_catchUpLoop _ _).currentTerm,
        (quiet_catchUpSnapshot _).currentTerm]
      unfold becomeFollower
      dsimp only
      split <;> exact le_rfl
    omega

/-! ## What sets the cursors -/

/-- No request of an earlier term is taken for one of the new term. -/
theorem Tracks.becomeCandidate {sends : List Send} (h : n.Tracks sends) :
    n.becomeCandidate.Tracks sends := by
  have hrises := (links_run n .becomeCandidate).rises h.shelved
  refine ⟨hrises.1, (fun hlead => nomatch hlead), fun s hs w hw => ?_⟩
  have hc := h.covers s hs w hw
  revert hc
  cases w.2 with
  | appendEntries args =>
      intro hc
      have hlt : args.term < n.becomeCandidate.currentTerm := Nat.lt_succ_of_le hc.term_le
      exact ⟨hlt.le, fun _ => hlt, (fun hlead => nomatch hlead), (fun hlead => nomatch hlead)⟩
  | installSnapshot args => exact fun hc => le_trans hc hrises.2
  | _ => exact fun _ => trivial

/-- A new leader starts every cursor right after its log. -/
theorem Tracks.becomeLeader {sends : List Send} (h : n.Tracks sends)
    (hstate : n.state = .candidate) :
    n.becomeLeader.Tracks sends := by
  have hrises := (links_run n .becomeLeader).rises h.shelved
  refine ⟨hrises.1, fun _ peer hpeer => ?_, fun s hs w hw => ?_⟩
  · have hpeer : peer ∈ n.peers := hpeer
    have hmatch : n.becomeLeader.matchIndex peer = some 0 := if_pos hpeer
    exact ⟨n.log.getLastIndex + 1, if_pos hpeer, Nat.le_add_left _ _, le_rfl, by
      rw [hmatch]; exact Nat.succ_pos _⟩
  · have hc := h.covers s hs w hw
    revert hc
    cases w.2 with
    | appendEntries args =>
        intro hc
        have hlt := hc.term_lt hstate
        exact ⟨hc.term_le, (fun hcand => nomatch hcand), fun _ heq => absurd heq hlt.ne,
          fun _ heq => absurd heq hlt.ne⟩
    | installSnapshot args => exact fun hc => le_trans hc hrises.2
    | _ => exact fun _ => trivial

/-- A new entry makes the log longer, and the leader notes it for itself. -/
theorem Tracks.clientAppend {sends : List Send} (h : n.Tracks sends) (stroke : Stroke)
    (hstate : n.state = .leader) (hself : n.replicaId ∉ n.peers) :
    (n.clientAppend stroke).Tracks sends := by
  have hrises := (links_run n (.clientAppend stroke)).rises h.shelved
  have hlast : (n.clientAppend stroke).log.getLastIndex = n.log.getLastIndex + 1 :=
    RaftLog.getLastIndex_append
  refine ⟨hrises.1, fun _ peer hpeer => ?_, fun s hs w hw => ?_⟩
  · have hpeer : peer ∈ n.peers := hpeer
    obtain ⟨next, hnext, hlo, hhi, hmatch⟩ := h.inRange hstate peer hpeer
    have hne : peer ≠ n.replicaId := fun heq => hself (heq ▸ hpeer)
    have hsame : (n.clientAppend stroke).matchIndex peer = n.matchIndex peer :=
      Function.update_of_ne hne _ _
    exact ⟨next, hnext, hlo, by omega, hsame ▸ hmatch⟩
  · have hc := h.covers s hs w hw
    revert hc
    cases w.2 with
    | appendEntries args =>
        intro hc
        exact ⟨hc.term_le, hc.term_lt, hc.next, fun hlead hterm =>
          (hc.reach hlead hterm).trans (by omega)⟩
    | installSnapshot args => exact fun hc => le_trans hc hrises.2
    | _ => exact fun _ => trivial

/-- The reply leaves the cursors of the peer in range.  A success of the current term does;
one of an earlier term does if its request still lies in the log, or, empty, below the
cursor; a rejection does if it names a length between what the peer is known to hold and
the leader's own log. -/
def KeepsCursor (n : RaftNode) (peer : String) (args : AppendEntriesArgs)
    (result : AppendEntriesResult) : Prop :=
  if result.success = true then
    args.term = n.currentTerm ∨
      if args.entries = [] then args.prevLogIndex < (n.nextIndex peer).getD 0
      else args.prevLogIndex + args.entries.length ≤ n.log.getLastIndex
  else
    (n.matchIndex peer).getD 0 ≤ result.currentLogLength ∧
      result.currentLogLength ≤ n.log.getLastIndex

/-- **What a reply does to the cursors of its peer.** -/
theorem inRange_onAppendEntriesReply_iff {args : AppendEntriesArgs} {result : AppendEntriesResult}
    (hstate : n.state = .leader) (hrange : n.InRange peer) (hcovers : n.CoversEntries peer args)
    (hterm : result.term ≤ n.currentTerm) :
    (n.onAppendEntriesReply peer args result).InRange peer ↔ n.KeepsCursor peer args result := by
  obtain ⟨next, hnext, hlo, hhi, hmatch⟩ := hrange
  unfold onAppendEntriesReply KeepsCursor
  rw [if_neg (Nat.not_lt.mpr hterm)]
  by_cases hsuccess : result.success = true
  · rw [if_pos hsuccess, if_pos hsuccess]
    by_cases hentries : args.entries = []
    · -- an empty success moves only what the peer is known to hold
      rw [if_neg (by simp [hentries]), if_pos hentries, hnext]
      have hcurrent : args.term = n.currentTerm → args.prevLogIndex < next := fun heq => by
        obtain rfl := Option.some.inj (hnext.symm.trans (hcovers.next hstate heq))
        exact Nat.lt_succ_self _
      constructor
      · rintro ⟨next', hnext', -, -, hmatch'⟩
        obtain rfl := Option.some.inj (hnext.symm.trans hnext')
        have hset : max ((n.matchIndex peer).getD 0) args.prevLogIndex < next := by
          simpa [setMatchIndex] using hmatch'
        exact Or.inr (lt_of_le_of_lt (le_max_right _ _) hset)
      · intro hkeeps
        have hprev : args.prevLogIndex < next := hkeeps.elim hcurrent id
        refine ⟨next, hnext, hlo, hhi, ?_⟩
        simpa [setMatchIndex] using ⟨hmatch, hprev⟩
    · have hpos : 0 < args.entries.length := List.length_pos_of_ne_nil hentries
      rw [if_pos hpos, if_neg hentries]
      have hcurrent : args.term = n.currentTerm →
          args.prevLogIndex + args.entries.length ≤ n.log.getLastIndex := hcovers.reach hstate
      constructor
      · rintro ⟨next', hnext', -, hhi', -⟩
        have hset : args.prevLogIndex + 1 + args.entries.length = next' := by
          simpa [setNextIndex, setMatchIndex] using hnext'
        have hhi' : next' ≤ n.log.getLastIndex + 1 := hhi'
        exact Or.inr (by omega)
      · intro hkeeps
        have hreach := hkeeps.elim hcurrent id
        refine ⟨args.prevLogIndex + 1 + args.entries.length, by simp [setNextIndex, setMatchIndex],
          by omega, ?_, ?_⟩
        · show _ ≤ n.log.getLastIndex + 1
          omega
        · simp [setMatchIndex]
  · rw [if_neg hsuccess, if_neg hsuccess]
    constructor
    · rintro ⟨next', hnext', -, hhi', hmatch'⟩
      have hset : max 1 (result.currentLogLength + 1) = next' := by
        simpa [setNextIndex] using hnext'
      have hhi' : next' ≤ n.log.getLastIndex + 1 := hhi'
      have hmatch' : (n.matchIndex peer).getD 0 < next' := hmatch'
      omega
    · rintro ⟨hfrom, hto⟩
      refine ⟨max 1 (result.currentLogLength + 1), by simp [setNextIndex], le_max_left _ _, ?_, ?_⟩
      · show _ ≤ n.log.getLastIndex + 1
        omega
      · show (n.matchIndex peer).getD 0 < _
        omega

/-- Fewer requests are out. -/
theorem Tracks.mono {sends sends' : List Send} (h : n.Tracks sends)
    (hsub : ∀ s ∈ sends', ∀ w, s.waiting = some w → s ∈ sends) : n.Tracks sends' :=
  ⟨h.shelved, h.inRange, fun s hs w hw => h.covers s (hsub s hs w hw) w hw⟩

/-- What is left waiting when a request has been answered goes to other peers. -/
theorem waiting_of_settled {sends : List Send} {k : ℕ} {send : Send}
    (hnodup : (sends.map Send.peer).Nodup) (hk : sends[k]? = some send) :
    ∀ s ∈ sends.set k { send with waiting := none }, ∀ w, s.waiting = some w →
      s ∈ sends ∧ s.peer ≠ send.peer := by
  intro s hs w hw
  obtain ⟨i, hi⟩ := List.mem_iff_getElem?.mp hs
  have hlt : k < sends.length := (List.getElem?_eq_some_iff.mp hk).1
  by_cases hik : i = k
  · subst hik
    rw [List.getElem?_set_self hlt] at hi
    obtain rfl := Option.some.inj hi
    cases hw
  · rw [List.getElem?_set_ne (Ne.symm hik)] at hi
    refine ⟨List.mem_of_getElem? hi, fun heq => hik ?_⟩
    have hx : (sends.map Send.peer)[i]? = some s.peer := by rw [List.getElem?_map, hi]; rfl
    have hy : (sends.map Send.peer)[k]? = some s.peer := by rw [List.getElem?_map, hk, heq]; rfl
    exact (List.getElem?_inj (List.getElem?_eq_some_iff.mp hx).1 hnodup).mp (hx.trans hy.symm)

/-- The answer to a request changes the cursors of its peer alone. -/
theorem Tracks.settle {sends : List Send} {k : ℕ} {send : Send} (h : n.Tracks sends)
    (hnodup : (sends.map Send.peer).Nodup) (hk : sends[k]? = some send) (next index : Option ℕ)
    (hrange : n.state = .leader → send.peer ∈ n.peers →
      ({ n with
        nextIndex := Function.update n.nextIndex send.peer next
        matchIndex := Function.update n.matchIndex send.peer index } : RaftNode).InRange
          send.peer) :
    ({ n with
      nextIndex := Function.update n.nextIndex send.peer next
      matchIndex := Function.update n.matchIndex send.peer index } : RaftNode).Tracks
        (sends.set k { send with waiting := none }) := by
  refine ⟨⟨h.shelved.forgets, h.shelved.boundary_le, h.shelved.saved⟩, fun hlead peer hpeer => ?_,
    fun s hs w hw => ?_⟩
  · by_cases hsame : peer = send.peer
    · subst hsame
      exact hrange hlead hpeer
    · obtain ⟨cursor, hcursor, hlo, hhi, hmatch⟩ := h.inRange hlead peer hpeer
      refine ⟨cursor, (Function.update_of_ne hsame _ _).trans hcursor, hlo, hhi, ?_⟩
      show ((Function.update n.matchIndex send.peer index) peer).getD 0 < cursor
      rw [Function.update_of_ne hsame]
      exact hmatch
  · obtain ⟨hmem, hne⟩ := waiting_of_settled hnodup hk s hs w hw
    have hc := h.covers s hmem w hw
    revert hc
    cases w.2 with
    | appendEntries args =>
        exact fun hc => ⟨hc.term_le, hc.term_lt, fun hlead hterm =>
          (Function.update_of_ne hne _ _).trans (hc.next hlead hterm), hc.reach⟩
    | installSnapshot args => exact fun hc => hc
    | _ => exact fun _ => trivial

/-- A success moves the cursors behind what was sent. -/
theorem Tracks.onAppendEntriesReply {sends : List Send} {k rpc : ℕ} {send : Send}
    {args : AppendEntriesArgs} {result : AppendEntriesResult} (h : n.Tracks sends)
    (hnodup : (sends.map Send.peer).Nodup) (hk : sends[k]? = some send)
    (hwait : send.waiting = some (rpc, .appendEntries args))
    (hkeeps : n.state = .leader → send.peer ∈ n.peers → result.term ≤ n.currentTerm →
      n.KeepsCursor send.peer args result) :
    (n.onAppendEntriesReply send.peer args result).Tracks
      (sends.set k { send with waiting := none }) := by
  have hcovers : n.CoversEntries send.peer args :=
    h.covers send (List.mem_of_getElem? hk) _ hwait
  by_cases hterm : n.currentTerm < result.term
  · have hdown : n.onAppendEntriesReply send.peer args result =
        n.becomeFollower result.term none none := if_pos hterm
    rw [hdown]
    exact ((reigns_becomeFollower n none none hterm.le).tracks h).mono fun s hs w hw =>
      (waiting_of_settled hnodup hk s hs w hw).1
  · have hterm := Nat.not_lt.mp hterm
    -- the reply sets the cursors of its peer, possibly to what they are
    obtain ⟨next, index, heq⟩ : ∃ next index, n.onAppendEntriesReply send.peer args result =
        { n with
          nextIndex := Function.update n.nextIndex send.peer next
          matchIndex := Function.update n.matchIndex send.peer index } := by
      unfold RaftNode.onAppendEntriesReply
      rw [if_neg (Nat.not_lt.mpr hterm)]
      split
      · split
        · exact ⟨_, _, rfl⟩
        · exact ⟨n.nextIndex send.peer, _, by rw [Function.update_eq_self]; rfl⟩
      · exact ⟨some (max 1 (result.currentLogLength + 1)), n.matchIndex send.peer, by
          rw [Function.update_eq_self send.peer n.matchIndex]
          rfl⟩
    rw [heq]
    refine h.settle hnodup hk next index fun hlead hpeer => ?_
    rw [← heq]
    exact (inRange_onAppendEntriesReply_iff hlead (h.inRange hlead _ hpeer) hcovers hterm).mpr
      (hkeeps hlead hpeer hterm)

/-- A snapshot never takes the cursors out of range. -/
theorem Tracks.onInstallSnapshotReply {sends : List Send} {k rpc : ℕ} {send : Send}
    {args : InstallSnapshotArgs} (h : n.Tracks sends)
    (hnodup : (sends.map Send.peer).Nodup) (hk : sends[k]? = some send)
    (hwait : send.waiting = some (rpc, .installSnapshot args)) (result : InstallSnapshotResult) :
    (n.onInstallSnapshotReply send.peer args result).Tracks
      (sends.set k { send with waiting := none }) := by
  have hcovers : args.snapshot.lastIncludedIndex ≤ n.log.lastIncludedIndex :=
    h.covers send (List.mem_of_getElem? hk) _ hwait
  unfold RaftNode.onInstallSnapshotReply
  split
  · next hterm =>
      exact ((reigns_becomeFollower n none none hterm.le).tracks h).mono fun s hs w hw =>
        (waiting_of_settled hnodup hk s hs w hw).1
  · refine h.settle hnodup hk (some (args.snapshot.lastIncludedIndex + 1))
      (some args.snapshot.lastIncludedIndex) fun _ _ => ?_
    refine ⟨args.snapshot.lastIncludedIndex + 1, Function.update_self _ _ _,
      Nat.le_add_left _ _, ?_, ?_⟩
    · have hlast : n.log.lastIncludedIndex ≤ n.log.getLastIndex := Nat.le_add_right _ _
      exact Nat.succ_le_succ (hcovers.trans hlast)
    · show ((Function.update n.matchIndex send.peer _) send.peer).getD 0 < _
      rw [Function.update_self]
      exact Nat.lt_succ_self _

/-- A new request starts at the cursor, and carries what the log has from there. -/
theorem Tracks.covers_replicateRequest {sends : List Send} (h : n.Tracks sends)
    {request : Request} (hpeer : peer ∈ n.peers) (hr : n.replicateRequest peer = some request) :
    n.Covers peer request := by
  unfold replicateRequest at hr
  split at hr
  · cases hr
  · next hstate =>
      have hlead : n.state = .leader := Decidable.not_not.mp hstate
      obtain ⟨next, hnext, hlo, hhi, -⟩ := h.inRange hlead peer hpeer
      dsimp only at hr
      rw [hnext, Option.getD_some] at hr
      split at hr
      · obtain ⟨snapshot, hs, rfl⟩ := Option.map_eq_some_iff.mp hr
        exact h.shelved.saved snapshot hs
      · next hbeyond =>
          obtain rfl := Option.some.inj hr
          refine ⟨le_rfl, fun hcand => ?_, fun _ _ => ?_, fun _ _ => ?_⟩
          · rw [hlead] at hcand
            cases hcand
          · show n.nextIndex peer = some (next - 1 + 1)
            rw [Nat.sub_add_cancel hlo]
            exact hnext
          · show next - 1 + ((n.log.getEntriesFrom next).take n.batchCap).length ≤
              n.log.getLastIndex
            have hslice : (n.log.getEntriesFrom next).length = n.log.getLastIndex + 1 - next := by
              unfold RaftLog.getEntriesFrom RaftLog.getLastIndex
              dsimp only
              rw [if_neg hbeyond, List.length_drop]
              omega
            rw [List.length_take, hslice]
            omega

end RaftNode

namespace Cluster

open RaftNode (Tracks)

variable {cfg : Config} {c c' : Cluster} {a : String} {action : Action} {t : Turn}

/-! ## Turns and runs -/

/-- The event leaves the cursors of the replica in range when it leads: no reply moves one
out of it, no catch-up shortens the log, and the replica is not one of its own peers. -/
def KeepsCursors (a : String) (c : Cluster) : Event → Prop
  | .act (.sendReply b k (some (.appendEntries result))) => b = a →
      (c.replicas a).node.state = .leader → ∀ send rpc args, (c.replicas a).sends[k]? = some send →
        send.waiting = some (rpc, .appendEntries args) → send.peer ∈ (c.replicas a).node.peers →
        result.term ≤ (c.replicas a).node.currentTerm →
        (c.replicas a).node.KeepsCursor send.peer args result
  | .act (.catchUpReply b _ (some result)) => b = a → (c.replicas a).node.state = .leader →
      result.term ≤ (c.replicas a).node.currentTerm → (c.replicas a).node.beginTurn.KeepsTail result
  | .act (.clientWrite b _) => b = a → (c.replicas a).node.state = .leader →
      (c.replicas a).node.replicaId ∉ (c.replicas a).node.peers
  | _ => True

/-- A leader's message goes to a peer. -/
theorem mem_peers_of_sent (h : c.turn action = some t) {p : Packet} (hp : p ∈ t.sent)
    {l : ℕ × String} (hl : p.request.leader? = some l) : p.dst ∈ t.replica.node.peers := by
  rcases turn_cases h with hplain | rfl | ⟨k, rpc, outcome, -, hrun⟩ | ⟨k, hrun⟩ |
    ⟨packet, -, -, rfl⟩
  · obtain ⟨-, ps, hsent, -, hps⟩ := hplain.sends
    have hmem : p ∈ ps := by simpa [hsent, startTurn] using hp
    exact ((hps p hmem).1.leads l hl).2.2
  · unfold Turn.runElection at hp
    dsimp only at hp
    rw [Turn.sendAll_eq] at hp
    obtain ⟨q, -, rfl⟩ := List.mem_map.mp hp
    cases hl
  · obtain ⟨e, q, -, -, rfl⟩ := Turn.voteReply_some hrun
    cases hp
  · obtain ⟨e, -, rfl⟩ := Turn.voteFinally_some hrun
    cases hp
  · cases hp

/-- What a turn sends on behalf of a replication call was made from the cursors. -/
theorem covers_sent (h : c.turn action = some t) {sends : List Send}
    (hn : t.replica.node.Tracks sends) {send : Send} {w : ℕ × Request}
    (hsent : ⟨w.1, t.replica.node.selfUrl, send.peer, w.2⟩ ∈ t.sent) :
    t.replica.node.Covers send.peer w.2 := by
  have hissues := (issues_turn h _ hsent).2
  have hpeer : ∀ l, w.2.leader? = some l → send.peer ∈ t.replica.node.peers := fun l hl =>
    mem_peers_of_sent h hsent hl
  revert hissues hpeer
  cases w.2 with
  | appendEntries args =>
      intro hissues hpeer
      cases hissues with
      | replicate _ hr => exact hn.covers_replicateRequest (hpeer _ rfl) hr
  | installSnapshot args =>
      intro hissues hpeer
      cases hissues with
      | replicate _ hr => exact hn.covers_replicateRequest (hpeer _ rfl) hr
  | _ => exact fun _ _ => trivial

/-- An operation of a turn that settles no replication. -/
theorem tracks_admitted {sends : List Send} {m : RaftNode} {op : Op}
    (hok : KeepsCursors action.replica c (.act action))
    (hno : ∀ k outcome, action ≠ .sendReply action.replica k outcome)
    (hadmits : c.Admits action m op) (hm : m.Tracks sends) : (Op.run m op).Tracks sends := by
  cases op with
  | becomeCandidate => exact hm.becomeCandidate
  | becomeLeader => exact hm.becomeLeader hadmits
  | resetElectionTimer =>
      have hreigns : RaftNode.Reigns m m.resetElectionTimer :=
        .of_eq rfl rfl rfl rfl rfl rfl rfl rfl
      exact hreigns.tracks hm
  | becomeFollower term leaderId leaderAddr =>
      exact (RaftNode.reigns_becomeFollower m _ _ (le_of_lt hadmits)).tracks hm
  | handle request => exact (RaftNode.reigns_handle m request).tracks hm
  | onAppendEntriesReply peer args result =>
      obtain ⟨-, k, send, rpc, hact, -⟩ := hadmits
      exact absurd hact (hno k _)
  | onInstallSnapshotReply peer args result =>
      obtain ⟨-, k, send, rpc, hact, -⟩ := hadmits
      exact absurd hact (hno k _)
  | onSyncLogReply result =>
      obtain ⟨rfl, k, task, hact, -⟩ := hadmits
      rw [hact] at hok
      have hkeep : (c.start action).state = .leader →
          result.term ≤ (c.start action).currentTerm → (c.start action).KeepsTail result := by
        rw [hact] at hok
        exact hok rfl
      exact (RaftNode.reigns_onSyncLogReply hkeep).tracks hm
  | updateCommitIndex => exact (RaftNode.reigns_updateCommitIndex m).tracks hm
  | clientAppend stroke =>
      obtain ⟨rfl, hlead, hact⟩ := hadmits
      have hself : (c.start action).replicaId ∉ (c.start action).peers := by
        rw [hact] at hok
        exact hok rfl hlead
      exact hm.clientAppend stroke hlead hself

/-- The reply to a replication call. -/
theorem tracks_sendReply {k : ℕ} {outcome : Option Reply}
    (h : (c.startTurn a).sendReply k outcome = some t)
    (hok : KeepsCursors a c (.act (.sendReply a k outcome)))
    (hn : (c.startTurn a).replica.node.Tracks (c.replicas a).sends)
    (hg : Guarded (c.flights a)) : t.replica.node.Tracks t.replica.sends := by
  obtain ⟨send, w, hk, hw, rfl⟩ := Turn.sendReply_some h
  have hk : (c.replicas a).sends[k]? = some send := hk
  have hnodup := peers_nodup_of_guarded hg
  have hquiet : (c.startTurn a).replica.node.Tracks
      ((c.replicas a).sends.set k { send with waiting := none }) :=
    hn.mono fun s hs w hw => (RaftNode.waiting_of_settled hnodup hk s hs w hw).1
  obtain ⟨rpc, request⟩ := w
  show (Turn.onSendReply (c.startTurn a).replica.node send.peer request outcome).Tracks
    ((c.replicas a).sends.set k { send with waiting := none })
  cases outcome with
  | none => cases request <;> exact hquiet
  | some reply =>
      cases request with
      | appendEntries args =>
          cases reply with
          | appendEntries result =>
              exact hn.onAppendEntriesReply hnodup hk hw fun hlead hpeer hterm =>
                hok rfl hlead send rpc args hk hw hpeer hterm
          | _ => exact hquiet
      | installSnapshot args =>
          cases reply with
          | installSnapshot result => exact hn.onInstallSnapshotReply hnodup hk hw result
          | _ => exact hquiet
      | _ => exact hquiet

/-- A turn that keeps the cursors keeps them in range. -/
theorem tracks_turn (h : c.turn action = some t)
    (hok : KeepsCursors action.replica c (.act action))
    (hn : (c.replicas action.replica).node.Tracks (c.replicas action.replica).sends)
    (hg : Guarded (c.flights action.replica)) : t.replica.node.Tracks t.replica.sends := by
  have hbegin : RaftNode.Reigns (c.replicas action.replica).node
      (c.replicas action.replica).node.beginTurn := .of_eq rfl rfl rfl rfl rfl rfl rfl rfl
  have hstart := hbegin.tracks hn
  by_cases hreply : ∃ k outcome, action = .sendReply action.replica k outcome
  · obtain ⟨k, outcome, hact⟩ := hreply
    generalize action.replica = a at *
    subst hact
    simp only [turn] at h
    split at h
    · exact tracks_sendReply (Option.ite_none_right_eq_some.mp h).2 hok hstart hg
    · cases h
  · have hno : ∀ k outcome, action ≠ .sendReply action.replica k outcome :=
      fun k outcome hact => hreply ⟨k, outcome, hact⟩
    -- the calls that run keep what they have, whatever the node does
    have hnode : t.replica.node.Tracks (c.replicas action.replica).sends :=
      (moves_turn h).invariant (I := fun m => m.Tracks (c.replicas action.replica).sends) hstart
        fun m op m' hm hadmits hrun => Option.some.inj hrun ▸ tracks_admitted hok hno hadmits hm
    refine ⟨hnode.shelved, hnode.inRange, fun s hs w hw => ?_⟩
    rcases started_turn h s hs with hold | hnew
    · exact hnode.covers s hold w hw
    · exact covers_sent h hnode (hnew w hw)

/-- The cursors of one replica, whatever the others do. -/
theorem tracks_next (ha : a ∈ cfg.members) (hg : Guarded (c.flights a))
    (hn : (c.replicas a).node.Tracks (c.replicas a).sends) {e : Event}
    (hok : KeepsCursors a c e) (h : next cfg c e = some c') :
    (c'.replicas a).node.Tracks (c'.replicas a).sends := by
  have hreboot : ∀ b p, (b = a → p.Forgets) → c' = c.reboot cfg b p →
      (c'.replicas a).node.Tracks (c'.replicas a).sends := by
    intro b p hp hc'
    subst hc'
    by_cases heq : a = b
    · subst heq
      rw [replicas_reboot_self]
      have hshelved := RaftNode.shelved_construct (cfg.params a) (hp rfl)
      have hdown := state_construct (cfg.params a) p
      refine ⟨hshelved, fun hlead => ?_, fun s hs => (nomatch hs)⟩
      have hlead : (RaftNode.construct (cfg.params a) p).state = .leader := hlead
      rw [hdown] at hlead
      cases hlead
    · rw [replicas_reboot_ne c p heq]
      exact hn
  rcases next_cases h with ⟨action, t, rfl, -, ht, rfl⟩ | ⟨action, t, calls, -, -, -, hc'⟩ |
    ⟨b, calls, -, -, hc'⟩
  · by_cases heq : a = action.replica
    · subst heq
      rw [replicas_finishTurn_self]
      exact tracks_turn ht hok hn hg
    · rw [replicas_finishTurn_ne c t heq]
      exact hn
  · exact hreboot _ _ (fun heq => (heq ▸ hn.shelved.forgets : (c.files _).Forgets).replay _) hc'
  · exact hreboot _ _ (fun heq => (heq ▸ hn.shelved.forgets : (c.files _).Forgets).replay _) hc'

/-- So does a run, by induction on its turns. -/
theorem tracks_reach (ha : a ∈ cfg.members) (h : Reach cfg (KeepsCursors a) (.init cfg) c) :
    (c.replicas a).node.Tracks (c.replicas a).sends := by
  have hinit : ((init cfg).replicas a).node.Tracks ((init cfg).replicas a).sends := by
    have hshelved := RaftNode.shelved_construct (cfg.params a)
      (Persistence.forgets_fresh (cfg.backend a))
    have hdown := state_construct (cfg.params a) (.fresh (cfg.backend a))
    refine ⟨hshelved, fun hlead => ?_, fun s hs => (nomatch hs)⟩
    have hlead : (RaftNode.construct (cfg.params a) (.fresh (cfg.backend a))).state = .leader :=
      hlead
    rw [hdown] at hlead
    cases hlead
  have hboth : (c.replicas a).node.Tracks (c.replicas a).sends ∧ ∀ b, Guarded (c.flights b) :=
    h.invariant (I := fun c => (c.replicas a).node.Tracks (c.replicas a).sends ∧
        ∀ b, Guarded (c.flights b))
      ⟨hinit, fun b => guarded_reach (.refl : Reach cfg Runs.Any (.init cfg) (.init cfg)) b⟩
      fun c e c' hc hok hnext =>
        ⟨tracks_next ha (hc.2 a) hc.1 hok hnext, guarded_next hc.2 hnext⟩
  exact hboth.1

end Cluster

/-- **Replication cursors stay in range** in every run in which no event takes one out of
it: a leader's next index for a peer is at least 1 and at most one past its log, and above
what the peer is known to hold.  For a reply this is exactly the condition: after it the
cursors of its peer are in range if and only if the reply keeps them there. -/
theorem cursors_in_range (cfg : Config) {c : Cluster} {a : String} (ha : a ∈ cfg.members)
    (h : Cluster.Reach cfg (Cluster.KeepsCursors a) (.init cfg) c)
    (hlead : (c.replicas a).node.state = .leader) :
    (∀ peer ∈ (c.replicas a).node.peers, (c.replicas a).node.InRange peer) ∧
      ∀ k result t send rpc args,
        c.turn (.sendReply a k (some (.appendEntries result))) = some t →
        (c.replicas a).sends[k]? = some send →
        send.waiting = some (rpc, .appendEntries args) → send.peer ∈ (c.replicas a).node.peers →
        result.term ≤ (c.replicas a).node.currentTerm →
        (t.replica.node.InRange send.peer ↔
          (c.replicas a).node.KeepsCursor send.peer args result) := by
  have htracks := Cluster.tracks_reach ha h
  refine ⟨htracks.inRange hlead, ?_⟩
  intro k result t send rpc args ht hk hwait hpeer hterm
  simp only [Cluster.turn] at ht
  split at ht
  · obtain ⟨send', w, hk', hw, rfl⟩ :=
      Turn.sendReply_some (Option.ite_none_right_eq_some.mp ht).2
    obtain rfl := Option.some.inj (hk.symm.trans hk')
    obtain rfl := Option.some.inj (hwait.symm.trans hw)
    have hsent : (c.replicas a).node.CoversEntries send.peer args :=
      htracks.covers send (List.mem_of_getElem? hk) _ hwait
    have hcovers : (c.replicas a).node.beginTurn.CoversEntries send.peer args :=
      ⟨hsent.term_le, hsent.term_lt, hsent.next, hsent.reach⟩
    exact RaftNode.inRange_onAppendEntriesReply_iff hlead (htracks.inRange hlead _ hpeer)
      hcovers hterm
  · cases ht

/-- The leader of the three replicas, after a write. -/
theorem cursors_in_range_trio :
    ((trioAfter 7).replicas "a").node.InRange "b" ∧
      ((trioAfter 7).replicas "a").node.InRange "c" := by
  have h₃ : Cluster.Reach .trio (Cluster.KeepsCursors "a") (.init .trio) (trioAfter 3) := by
    have h₁ : Cluster.Reach .trio (Cluster.KeepsCursors "a") (.init .trio) (trioAfter 1) :=
      .tail (e := trioWrite[0]) .refl trivial (by rfl)
    have h₂ : Cluster.Reach .trio (Cluster.KeepsCursors "a") (.init .trio) (trioAfter 2) :=
      h₁.tail (e := trioWrite[1]) trivial (by rfl)
    exact h₂.tail (e := trioWrite[2]) trivial (by rfl)
  have hself : "a" ∉ Config.trio.peers "a" := by decide
  have h₄ : Cluster.Reach .trio (Cluster.KeepsCursors "a") (.init .trio) (trioAfter 4) :=
    h₃.tail (e := trioWrite[3]) (fun _ _ => hself) (by rfl)
  have h₆ : Cluster.Reach .trio (Cluster.KeepsCursors "a") (.init .trio) (trioAfter 6) := by
    have h₅ : Cluster.Reach .trio (Cluster.KeepsCursors "a") (.init .trio) (trioAfter 5) :=
      h₄.tail (e := trioWrite[4]) trivial (by rfl)
    exact h₅.tail (e := trioWrite[5]) trivial (by rfl)
  -- the reply of `b` is a success of the current term
  have hsend : (((trioAfter 6).replicas "a").sends[0]?).bind Send.waiting = some (4, .appendEntries
      ⟨1, "a", some "a", 0, 0, [⟨1, 1, .dot "x" "board"⟩], 0⟩) := by rfl
  have h₇ : Cluster.Reach .trio (Cluster.KeepsCursors "a") (.init .trio) (trioAfter 7) := by
    refine h₆.tail (e := trioWrite[6]) ?_ (by rfl)
    intro _ _ send rpc args hk hwait _ _
    rw [hk] at hsend
    obtain ⟨-, hargs⟩ := Prod.mk.inj (Option.some.inj (hsend.symm.trans hwait))
    obtain rfl := RaftNode.Request.appendEntries.inj hargs
    exact Or.inl rfl
  have hrange := (cursors_in_range .trio (by decide) h₇ rfl).1
  have hpeers : ((trioAfter 7).replicas "a").node.peers = ["b", "c"] := rfl
  rw [hpeers] at hrange
  exact ⟨hrange "b" (by decide), hrange "c" (by decide)⟩

/-- Leader `a` of term 1 writes `x`, which reaches nobody.  Leader `b` of term 2 writes `y`
and `z`, which reach nobody either.  Then `a` leads again in term 3 and tries again for its
write, and `b` refuses with the length of its own log. -/
def outgrown : List Cluster.Event :=
  trioElection ++
    [Cluster.Event.act (.voteFinally "a" 0),
      .act (.clientWrite "a" (.dot "x" "board")), .act (.electionTimeout "b"),
      .act (.deliver ⟨7, "b", "a", .requestVote ⟨2, "b", 0, 0⟩⟩),
      .act (.deliver ⟨8, "b", "c", .requestVote ⟨2, "b", 0, 0⟩⟩),
      .act (.voteReply "b" 0 8 (some ⟨2, true, "c"⟩)), .act (.voteFinally "b" 0),
      .act (.clientWrite "b" (.dot "y" "board")), .act (.clientWrite "b" (.dot "z" "board")),
      .act (.electionTimeout "a"),
      .act (.deliver ⟨16, "a", "c", .requestVote ⟨3, "a", 1, 1⟩⟩),
      .act (.voteReply "a" 1 16 (some ⟨3, true, "c"⟩)), .act (.voteFinally "a" 1),
      .act (.sendReply "a" 0 none), .act (.sendFinally "a" 0),
      .act (.sendReply "a" 0 none), .act (.sendFinally "a" 0), .act (.writeResume "a" 0),
      .act (.deliver ⟨18, "a", "b", .appendEntries ⟨3, "a", some "a", 1, 1, [], 0⟩⟩),
      .act (.sendReply "a" 0 (some (.appendEntries ⟨3, false, "b", 2⟩)))]

/-- The state after these events. -/
def outgrownTrio : Cluster := Cluster.play .trio (.init .trio) outgrown

/-- **A cursor out of range:** the log of leader `a` ends at index 1, and its next index for
`b` is 3. -/
theorem cursor_out_of_range :
    Cluster.Reach .trio Runs.Any (.init .trio) outgrownTrio ∧
      (outgrownTrio.replicas "a").node.state = .leader ∧
      (outgrownTrio.replicas "a").node.log.getLastIndex = 1 ∧
      (outgrownTrio.replicas "a").node.nextIndex "b" = some 3 ∧
      ¬ (outgrownTrio.replicas "a").node.InRange "b" := by
  have hnext : (outgrownTrio.replicas "a").node.nextIndex "b" = some 3 := by rfl
  have hlast : (outgrownTrio.replicas "a").node.log.getLastIndex = 1 := by rfl
  refine ⟨Cluster.reach_play (by rfl), by rfl, hlast, hnext, ?_⟩
  rintro ⟨next, hn, -, hle, -⟩
  obtain rfl := Option.some.inj (hnext.symm.trans hn)
  rw [hlast] at hle
  omega

end QuorumCanvas
