import QuorumCanvas.SnapshotSuffix

/-!
# Catching up in batches

A follower that agrees with its leader up to the leader's cursor is brought to the end of
the log by capped slices, one `replicateOnce` after the other.  One round appends the next
slice and moves the cursor behind it (`Following.round`); by induction the slices add up to
the tail of the leader's log (`batches_cover`).
-/

namespace QuorumCanvas

namespace RaftLog

variable {log leader : RaftLog} {es : List LogEntry} {m s k : ℕ}

/-- `log` says what `leader` says up to `m`, as far as both hold it. -/
def AgreesTo (log leader : RaftLog) (m : ℕ) : Prop :=
  ∀ k ≤ m, log.Reaches k → leader.Reaches k →
    log.getTermAt k = leader.getTermAt k ∧
      ∀ e e', log.getEntry k = some e → leader.getEntry k = some e' → e = e'

/-- Several entries appended one after the other. -/
def appendAll (log : RaftLog) (es : List LogEntry) : RaftLog :=
  { log with entries := log.entries ++ es }

/-- The entries add their number. -/
theorem getLastIndex_appendAll (log : RaftLog) (es : List LogEntry) :
    (log.appendAll es).getLastIndex = log.getLastIndex + es.length := by
  unfold getLastIndex appendAll
  rw [List.length_append, Nat.add_assoc]

/-- The entries that were there stay. -/
theorem getEntry_appendAll_old (h : k ≤ log.getLastIndex) :
    (log.appendAll es).getEntry k = log.getEntry k := by
  unfold getLastIndex at h
  unfold getEntry appendAll
  dsimp only
  split
  · rfl
  · rw [List.getElem?_append_left (by omega)]

/-- The others follow them. -/
theorem getEntry_appendAll_new (h : log.getLastIndex < k) :
    (log.appendAll es).getEntry k = es[k - log.getLastIndex - 1]? := by
  unfold getLastIndex at h ⊢
  unfold getEntry appendAll
  dsimp only
  rw [if_neg (by omega), List.getElem?_append_right (by omega)]
  congr 1
  omega

/-- Terms that were there stay. -/
theorem getTermAt_appendAll (h : k ≤ log.getLastIndex) :
    (log.appendAll es).getTermAt k = log.getTermAt k := by
  unfold getTermAt
  rw [getEntry_appendAll_old h]
  rfl

/-- What is served from an index above the boundary are the entries from there on. -/
theorem getElem?_getEntriesFrom (h : log.lastIncludedIndex < s) (j : ℕ) :
    (log.getEntriesFrom s)[j]? = log.getEntry (s + j) := by
  unfold getEntriesFrom getEntry
  rw [if_neg (by omega), if_neg (by omega), List.getElem?_drop]
  congr 1
  omega

/-- From an index on to the end. -/
theorem length_getEntriesFrom (h : log.lastIncludedIndex < s) :
    (log.getEntriesFrom s).length = log.getLastIndex + 1 - s := by
  unfold getEntriesFrom getLastIndex
  rw [if_neg (by omega), List.length_drop]
  omega

/-- Later starts are suffixes. -/
theorem getEntriesFrom_drop (h : log.lastIncludedIndex < s) (j : ℕ) :
    (log.getEntriesFrom s).drop j = log.getEntriesFrom (s + j) := by
  refine List.ext_getElem? fun i => ?_
  rw [List.getElem?_drop, getElem?_getEntriesFrom h, getElem?_getEntriesFrom (by omega),
    Nat.add_assoc]

/-- Appending the leader's next entries keeps the agreement. -/
theorem AgreesTo.appendAll (h : log.AgreesTo leader m) (hend : log.getLastIndex = m)
    (hbound : leader.lastIncludedIndex ≤ m) (cap : ℕ) :
    (log.appendAll ((leader.getEntriesFrom (m + 1)).take cap)).AgreesTo leader
      (m + ((leader.getEntriesFrom (m + 1)).take cap).length) := by
  intro k hk hreach hreach'
  rcases Nat.lt_or_ge m k with hlt | hle
  · -- an index of the slice
    have hsame : (log.appendAll ((leader.getEntriesFrom (m + 1)).take cap)).getEntry k =
        leader.getEntry k := by
      rw [getEntry_appendAll_new (by omega), List.getElem?_take_of_lt (by
        rw [List.length_take] at hk
        omega), getElem?_getEntriesFrom (by omega)]
      congr 1
      omega
    obtain ⟨e, he⟩ := exists_getEntry (by omega : leader.lastIncludedIndex < k) hreach'.2
    rw [getTermAt_eq (hsame.trans he), getTermAt_eq he, hsame]
    exact ⟨rfl, fun e₁ e₂ h₁ h₂ => Option.some.inj (h₁.symm.trans h₂)⟩
  · rw [getTermAt_appendAll (hend ▸ hle), getEntry_appendAll_old (hend ▸ hle)]
    exact h k hle ⟨hreach.1, hend ▸ hle⟩ hreach'

/-- A boundary moved up to an entry carries the term that stood there. -/
theorem getTermAt_compact {c : ℕ} (h : (log.compact c (log.getTermAt c)).lastIncludedIndex ≤ k) :
    (log.compact c (log.getTermAt c)).getTermAt k = log.getTermAt k := by
  rcases Nat.eq_or_lt_of_le h with heq | hlt
  · subst heq
    have hself : ∀ log : RaftLog, log.getTermAt log.lastIncludedIndex = log.lastIncludedTerm :=
      fun _ => if_pos rfl
    rw [hself]
    generalize ht : log.getTermAt c = t
    unfold compact
    split
    · exact (hself log).symm
    · exact ht.symm
  · have hbound := log.lastIncludedIndex_compact (u := c) (t := log.getTermAt c)
    have hold := le_max_left log.lastIncludedIndex c
    have hsame := getEntry_compact hlt
    generalize log.compact c (log.getTermAt c) = log' at hbound hlt hsame
    unfold getTermAt
    rw [hsame, if_neg (by omega), if_neg (by omega)]

/-- A log agrees as before when it is compacted. -/
theorem AgreesTo.compact (h : log.AgreesTo leader m) {c : ℕ} (hc : c ≤ log.getLastIndex) :
    (log.compact c (log.getTermAt c)).AgreesTo leader m := by
  intro k hk hreach hreach'
  have hbound := log.lastIncludedIndex_compact (u := c) (t := log.getTermAt c)
  have hold := le_max_left log.lastIncludedIndex c
  have hlow := hreach.1
  have hhigh := hreach.2
  rw [getLastIndex_compact hc] at hhigh
  obtain ⟨hterm, hentry⟩ := h k hk ⟨by omega, hhigh⟩ hreach'
  refine ⟨(getTermAt_compact hlow).trans hterm, fun e e' he he' => ?_⟩
  rw [getEntry_compact (bounds_of_getEntry he).1] at he
  exact hentry e e' he he'

end RaftLog

namespace RaftNode

variable {n : RaftNode} {es : List LogEntry} {i s : ℕ} {peer : String}

/-! ## One batch, at the follower -/

/-- **Entries that follow the last one** are all appended. -/
theorem appendEntriesLoop_beyond {li : ℕ} (hli : n.log.lastIncludedIndex = li)
    (hes : Consecutive i es) (hi : n.log.getLastIndex = i) :
    (n.appendEntriesLoop li es).2 = true ∧
      (n.appendEntriesLoop li es).1.log = n.log.appendAll es ∧
      (n.appendEntriesLoop li es).1.commitIndex = n.commitIndex := by
  induction es generalizing n i with
  | nil =>
      refine ⟨rfl, ?_, rfl⟩
      unfold RaftLog.appendAll
      rw [List.append_nil]
      rfl
  | cons e rest ih =>
      obtain ⟨he, hrest⟩ := hes.tail
      have hbound : li ≤ i := by
        unfold RaftLog.getLastIndex at hi
        omega
      have hnone : n.log.getEntry e.index = none :=
        RaftLog.getEntry_eq_none.mpr (Or.inr (by omega))
      have hclear : n.conflicts e = false := by
        unfold conflicts
        rw [hnone]
        rfl
      have hsplice : n.spliceEntry e = some (n.appendLog e) := by
        unfold spliceEntry dropConflict
        rw [hclear]
        have hmissing : n.appendMissing e = n.appendLog e := by
          unfold appendMissing
          rw [hnone]
          rfl
        simp [hmissing]
      unfold appendEntriesLoop
      rw [if_neg (by omega), hsplice]
      obtain ⟨hdone, hlog, hcommit⟩ := ih (n := n.appendLog e) hli hrest (by
        rw [log_appendLog, RaftLog.getLastIndex_append, hi])
      refine ⟨hdone, hlog.trans ?_, hcommit⟩
      rw [log_appendLog]
      unfold RaftLog.appendAll RaftLog.append
      simp

/-- Following the leader's commit index changes nothing but the boundary. -/
theorem agreesTo_followCommit {leader : RaftLog} {m : ℕ} (h : n.log.AgreesTo leader m)
    (leaderCommit : ℕ) :
    (n.followCommit leaderCommit).log.AgreesTo leader m ∧
      (n.followCommit leaderCommit).log.getLastIndex = n.log.getLastIndex := by
  rw [log_followCommit]
  split
  · next hdue =>
      have hle : (n.followCommit leaderCommit).commitIndex ≤ n.log.getLastIndex := by
        rw [commitIndex_followCommit, if_pos hdue.1]
        exact min_le_right _ _
      exact ⟨h.compact hle, RaftLog.getLastIndex_compact hle⟩
  · exact ⟨h, rfl⟩

/-- The reply of the handler describes the node it leaves. -/
theorem handleAppendEntries_result (n : RaftNode) (args : AppendEntriesArgs) :
    (n.handleAppendEntries args).2 =
      (n.handleAppendEntries args).1.appendEntriesResult
        (n.handleAppendEntries args).2.success := by
  unfold handleAppendEntries
  split
  · rfl
  · dsimp only
    split
    · split <;> rfl
    · rfl

/-- **One batch.**  A follower whose log ends right before the slice, and connects there,
appends it and says so. -/
theorem handleAppendEntries_batch {args : AppendEntriesArgs} (hterm : n.currentTerm ≤ args.term)
    (hconnects : n.Connects args) (hes : Consecutive args.prevLogIndex args.entries)
    (hend : n.log.getLastIndex = args.prevLogIndex) :
    (n.handleAppendEntries args).2.success = true ∧
      (n.handleAppendEntries args).2.term = args.term ∧
      (n.handleAppendEntries args).1.currentTerm = args.term ∧
      ∃ m : RaftNode, m.log = n.log.appendAll args.entries ∧
        (n.handleAppendEntries args).1 = m.followCommit args.leaderCommit := by
  have heq := handleAppendEntries_eq n args
  have hlog : (n.heard args).log = n.log := (heard_frame n args).1
  obtain ⟨hdone, hnew, -⟩ := appendEntriesLoop_beyond (n := n.heard args)
    (congrArg RaftLog.lastIncludedIndex hlog) hes (hlog ▸ hend)
  rw [if_neg (Nat.not_lt.mpr hterm), if_pos (consistent_iff.mpr hconnects)] at heq
  have hspliced : (n.spliced args).2 = true := hdone
  rw [if_pos hspliced] at heq
  obtain ⟨hnode, hsuccess⟩ := Prod.mk.inj heq
  have hquiet : Quiet (n.heard args) ((n.spliced args).1.followCommit args.leaderCommit) :=
    (quiet_appendEntriesLoop _ _).trans (quiet_followCommit _ _)
  have hcurrent : (n.handleAppendEntries args).1.currentTerm = args.term := by
    rw [hnode, hquiet.currentTerm, heard_term hterm]
  refine ⟨hsuccess, ?_, hcurrent, (n.spliced args).1, hnew.trans (by rw [hlog]), hnode⟩
  rw [handleAppendEntries_result]
  exact hcurrent

/-! ## Rounds -/

/-- A call of `replicateOnce` whose request and reply are delivered: the slice it sent,
the leader and the follower. -/
def replicateRound (peer : String) (leader follower : RaftNode) :
    List LogEntry × RaftNode × RaftNode :=
  match leader.replicateRequest peer with
  | some (.appendEntries args) =>
      let (follower, result) := follower.handleAppendEntries args
      (args.entries, leader.onAppendEntriesReply peer args result, follower)
  | some (.installSnapshot args) =>
      let (follower, result) := follower.handleInstallSnapshot args
      ([], leader.onInstallSnapshotReply peer args result, follower)
  | _ => ([], leader, follower)

/-- Several such calls, one after the other. -/
def replicateRounds (peer : String) :
    ℕ → RaftNode → RaftNode → List (List LogEntry) × RaftNode × RaftNode
  | 0, leader, follower => ([], leader, follower)
  | k + 1, leader, follower =>
      let (slice, leader, follower) := replicateRound peer leader follower
      let (slices, leader, follower) := replicateRounds peer k leader follower
      (slice :: slices, leader, follower)

/-- A leader whose cursor for `peer` is `s`, above its boundary, and the follower behind
it: no later term, a log that agrees with the leader's up to the cursor and ends there. -/
structure Following (peer : String) (s : ℕ) (leader follower : RaftNode) : Prop where
  leads : leader.state = .leader
  contiguous : leader.log.Contiguous
  cursor : leader.nextIndex peer = some s
  above : leader.log.lastIncludedIndex < s
  within : s ≤ leader.log.getLastIndex + 1
  matched : (leader.matchIndex peer).getD 0 ≤ s - 1
  term_le : follower.currentTerm ≤ leader.currentTerm
  ends : follower.log.getLastIndex = s - 1
  agrees : follower.log.AgreesTo leader.log (s - 1)

variable {leader follower : RaftNode}

/-- The slice that a leader sends next. -/
def nextSlice (leader : RaftNode) (s : ℕ) : List LogEntry :=
  (leader.log.getEntriesFrom s).take leader.batchCap

namespace Following

/-- The request that carries the next slice. -/
def request (leader : RaftNode) (s : ℕ) : AppendEntriesArgs where
  term := leader.currentTerm
  leaderId := leader.replicaId
  leaderAddr := some leader.selfUrl
  prevLogIndex := s - 1
  prevLogTerm := leader.log.getTermAt (s - 1)
  entries := leader.nextSlice s
  leaderCommit := leader.commitIndex

/-- What the leader sends. -/
theorem replicateRequest (h : Following peer s leader follower) :
    leader.replicateRequest peer = some (.appendEntries (request leader s)) := by
  have habove := h.above
  unfold RaftNode.replicateRequest
  rw [if_neg (not_not.mpr h.leads), h.cursor]
  dsimp only [Option.getD_some]
  rw [if_neg (by omega)]
  rfl

/-- The slice ends with the leader's log. -/
theorem length_nextSlice_le (h : Following peer s leader follower) :
    (leader.nextSlice s).length ≤ leader.log.getLastIndex + 1 - s := by
  unfold nextSlice
  rw [List.length_take, RaftLog.length_getEntriesFrom h.above]
  exact min_le_right _ _

/-- The slice is numbered from the cursor on. -/
theorem consecutive_nextSlice (h : Following peer s leader follower) :
    Consecutive (s - 1) (leader.nextSlice s) := by
  have habove := h.above
  intro j e hj
  have hj' : (leader.log.getEntriesFrom s)[j]? = some e := by
    have hshort := (List.getElem?_eq_some_iff.mp hj).1
    unfold nextSlice at hj hshort
    rw [List.length_take] at hshort
    rwa [List.getElem?_take_of_lt (by omega)] at hj
  rw [RaftLog.getElem?_getEntriesFrom habove] at hj'
  unfold RaftLog.getEntry at hj'
  rw [if_neg (by omega)] at hj'
  have := h.contiguous _ e hj'
  omega

/-- Both logs have a term on record where the slice begins. -/
theorem connects (h : Following peer s leader follower) : follower.Connects (request leader s) := by
  have habove := h.above
  have hwithin := h.within
  have hhere := h.agrees (s - 1) le_rfl
    ⟨by rw [← h.ends]; exact Nat.le_add_right _ _, h.ends.ge⟩ ⟨by omega, by omega⟩
  constructor
  · intro hlt
    obtain ⟨e, he⟩ := RaftLog.exists_getEntry hlt h.ends.ge
    exact ⟨e, he, (RaftLog.getTermAt_eq he).symm.trans hhere.1⟩
  · intro hat _
    have hterm : follower.log.getTermAt (s - 1) = follower.log.lastIncludedTerm := if_pos hat
    exact hterm.symm.trans hhere.1

/-- What the leader makes of a success. -/
theorem onReply (h : Following peer s leader follower) {result : AppendEntriesResult}
    (hsuccess : result.success = true) (hterm : result.term = leader.currentTerm) :
    leader.onAppendEntriesReply peer (request leader s) result =
      if 0 < (leader.nextSlice s).length then
        (leader.setNextIndex peer (s + (leader.nextSlice s).length)).setMatchIndex peer
          (s - 1 + (leader.nextSlice s).length)
      else leader.setMatchIndex peer (s - 1) := by
  have habove := h.above
  have hend : (request leader s).prevLogIndex + 1 + (request leader s).entries.length =
      s + (leader.nextSlice s).length := by
    show s - 1 + 1 + (leader.nextSlice s).length = _
    omega
  unfold onAppendEntriesReply
  rw [hterm, if_neg (lt_irrefl _), if_pos hsuccess, hend]
  show (if 0 < (leader.nextSlice s).length then _ else leader.setMatchIndex peer
    (max ((leader.matchIndex peer).getD 0) (s - 1))) = _
  rw [max_eq_right h.matched]
  rfl

/-- The cursors behind a slice. -/
theorem behind {leader' follower' : RaftNode} (h : Following peer s leader follower)
    (hlog : leader'.log = leader.log) (hstate : leader'.state = .leader)
    (hcursor : leader'.nextIndex peer = some (s + (leader.nextSlice s).length))
    (hmatch : leader'.matchIndex peer = some (s - 1 + (leader.nextSlice s).length))
    (hterm : follower'.currentTerm ≤ leader'.currentTerm)
    (hlast : follower'.log.getLastIndex = s - 1 + (leader.nextSlice s).length)
    (hagrees : follower'.log.AgreesTo leader.log (s - 1 + (leader.nextSlice s).length)) :
    Following peer (s + (leader.nextSlice s).length) leader' follower' := by
  have habove := h.above
  have hwithin := h.within
  have hlen := h.length_nextSlice_le
  have hend : s + (leader.nextSlice s).length - 1 = s - 1 + (leader.nextSlice s).length := by
    omega
  refine ⟨hstate, hlog ▸ h.contiguous, hcursor, ?_, ?_, ?_, hterm, hlast.trans hend.symm, ?_⟩
  · rw [hlog]
    omega
  · rw [hlog]
    omega
  · rw [hmatch, Option.getD_some]
    exact hend.ge
  · rw [hend, hlog]
    exact hagrees

/-- **One round** sends the next slice, and moves follower and cursors behind it. -/
theorem round (h : Following peer s leader follower) :
    (replicateRound peer leader follower).1 = leader.nextSlice s ∧
      (replicateRound peer leader follower).2.1.log = leader.log ∧
      (replicateRound peer leader follower).2.1.batchCap = leader.batchCap ∧
      (replicateRound peer leader follower).2.1.matchIndex peer =
        some (s - 1 + (leader.nextSlice s).length) ∧
      Following peer (s + (leader.nextSlice s).length)
        (replicateRound peer leader follower).2.1 (replicateRound peer leader follower).2.2 := by
  have habove := h.above
  obtain ⟨hsuccess, hterm, hcurrent, m, hm, hnode⟩ :=
    handleAppendEntries_batch h.term_le h.connects h.consecutive_nextSlice h.ends
  have hround : replicateRound peer leader follower =
      (leader.nextSlice s, leader.onAppendEntriesReply peer (request leader s)
        (follower.handleAppendEntries (request leader s)).2,
        (follower.handleAppendEntries (request leader s)).1) := by
    unfold replicateRound
    rw [h.replicateRequest]
    rfl
  -- the follower has appended the slice
  have hlog' := h.agrees.appendAll h.ends (by omega) leader.batchCap
  rw [show s - 1 + 1 = s by omega] at hlog'
  have hm' : m.log.AgreesTo leader.log (s - 1 + (leader.nextSlice s).length) := by
    rw [hm]
    exact hlog'
  have hfollow := agreesTo_followCommit hm' (request leader s).leaderCommit
  rw [← hnode] at hfollow
  have hlast : (follower.handleAppendEntries (request leader s)).1.log.getLastIndex =
      s - 1 + (leader.nextSlice s).length := by
    rw [hfollow.2, hm, RaftLog.getLastIndex_appendAll, h.ends]
    rfl
  rw [hround, h.onReply hsuccess hterm]
  dsimp only
  split
  · exact ⟨rfl, rfl, rfl, Function.update_self .., h.behind rfl h.leads (Function.update_self ..)
      (Function.update_self ..) hcurrent.le hlast hfollow.1⟩
  · next hempty =>
      have hzero : (leader.nextSlice s).length = 0 := by omega
      have hcursor : leader.nextIndex peer = some (s + (leader.nextSlice s).length) := by
        rw [hzero]
        exact h.cursor
      have hmatch : (leader.setMatchIndex peer (s - 1)).matchIndex peer =
          some (s - 1 + (leader.nextSlice s).length) := by
        rw [hzero]
        exact Function.update_self ..
      exact ⟨rfl, rfl, rfl, hmatch, h.behind rfl h.leads hcursor hmatch hcurrent.le hlast
        hfollow.1⟩

end Following

/-- What the slices of several rounds add up to, and where they leave both nodes. -/
theorem Following.rounds (h : Following peer s leader follower) (k : ℕ) :
    let result := replicateRounds peer k leader follower
    let sent := (leader.log.getEntriesFrom s).take (k * leader.batchCap)
    result.1.flatten = sent ∧ result.2.1.log = leader.log ∧
      (1 ≤ k → result.2.1.matchIndex peer = some (s - 1 + sent.length)) ∧
      Following peer (s + sent.length) result.2.1 result.2.2 := by
  induction k generalizing leader follower s with
  | zero =>
      dsimp only [replicateRounds]
      rw [Nat.zero_mul, List.take_zero]
      exact ⟨rfl, rfl, fun hpos => by omega, h⟩
  | succ k ih =>
      obtain ⟨hslice, hlog, hcap, hmatch, hnext⟩ := h.round
      obtain ⟨hrest, hlog', hmatch', hend⟩ := ih hnext
      -- the slice of this round, and those of the rounds after it
      have hsplit : (leader.log.getEntriesFrom s).take ((k + 1) * leader.batchCap) =
          leader.nextSlice s ++
            (leader.log.getEntriesFrom (s + (leader.nextSlice s).length)).take
              (k * leader.batchCap) := by
        rw [Nat.succ_mul, Nat.add_comm, List.take_add, nextSlice]
        congr 1
        rw [← RaftLog.getEntriesFrom_drop h.above, List.length_take]
        rcases Nat.le_total leader.batchCap (leader.log.getEntriesFrom s).length with hle | hge
        · rw [min_eq_left hle]
        · rw [min_eq_right hge, List.drop_of_length_le hge, List.drop_length]
      rw [hlog, hcap] at hrest hmatch' hend
      have hlen := congrArg List.length hsplit
      rw [List.length_append] at hlen
      have hresult : replicateRounds peer (k + 1) leader follower =
          ((replicateRound peer leader follower).1 ::
            (replicateRounds peer k (replicateRound peer leader follower).2.1
              (replicateRound peer leader follower).2.2).1,
            (replicateRounds peer k (replicateRound peer leader follower).2.1
              (replicateRound peer leader follower).2.2).2) := rfl
      rw [hresult]
      dsimp only
      refine ⟨?_, hlog'.trans hlog, fun _ => ?_, ?_⟩
      · rw [List.flatten_cons, hrest, hslice, hsplit]
      · rcases Nat.eq_zero_or_pos k with rfl | hpos
        · rw [hlen, Nat.zero_mul, List.take_zero]
          exact hmatch
        · rw [hmatch' hpos, hlen]
          have := h.above
          congr 1
          omega
      · rw [hlen, ← Nat.add_assoc]
        exact hend

/-- **Capped batches cover the tail.**  For every cap, every leader and every follower that
agrees with it up to the cursor and ends there: the slices of `k` rounds are the first
`k * batchCap` of the leader's entries from the cursor on, the log of the follower and the
leader's `matchIndex` reach exactly as far, and after as many rounds as the tail has slices
the follower's log ends with the leader's and agrees with all of it. -/
theorem batches_cover (hcap : 1 ≤ leader.batchCap) (h : Following peer s leader follower) :
    (∀ j, (leader.log.getEntriesFrom s)[j]? = leader.log.getEntry (s + j)) ∧
    (∀ k,
      (replicateRounds peer k leader follower).1.flatten =
        (leader.log.getEntriesFrom s).take (k * leader.batchCap) ∧
      (replicateRounds peer k leader follower).2.2.log.getLastIndex =
        min leader.log.getLastIndex (s - 1 + k * leader.batchCap) ∧
      (1 ≤ k → (replicateRounds peer k leader follower).2.1.matchIndex peer =
        some (min leader.log.getLastIndex (s - 1 + k * leader.batchCap)))) ∧
    ∀ k, k = (leader.log.getLastIndex + 1 - s + (leader.batchCap - 1)) / leader.batchCap →
      (replicateRounds peer k leader follower).1.flatten = leader.log.getEntriesFrom s ∧
      (replicateRounds peer k leader follower).2.2.log.getLastIndex = leader.log.getLastIndex ∧
      (replicateRounds peer k leader follower).2.2.log.AgreesTo leader.log
        leader.log.getLastIndex := by
  have habove := h.above
  have hwithin := h.within
  have hlen : ∀ k, ((leader.log.getEntriesFrom s).take (k * leader.batchCap)).length =
      min (k * leader.batchCap) (leader.log.getLastIndex + 1 - s) := fun k => by
    rw [List.length_take, RaftLog.length_getEntriesFrom habove]
  refine ⟨RaftLog.getElem?_getEntriesFrom habove, fun k => ?_, fun k hk => ?_⟩
  · obtain ⟨hsent, -, hmatch, hend⟩ := h.rounds k
    refine ⟨hsent, ?_, fun hpos => ?_⟩
    · rw [hend.ends, hlen]
      omega
    · rw [hmatch hpos, hlen]
      congr 1
      omega
  · -- as many rounds as there are slices cover all of the tail
    have hall : leader.log.getLastIndex + 1 - s ≤ k * leader.batchCap := by
      have hdiv := Nat.lt_div_mul_add (a := leader.log.getLastIndex + 1 - s +
        (leader.batchCap - 1)) hcap
      rw [← hk] at hdiv
      omega
    obtain ⟨hsent, hlog, -, hend⟩ := h.rounds k
    have hwhole : (leader.log.getEntriesFrom s).take (k * leader.batchCap) =
        leader.log.getEntriesFrom s := by
      refine List.take_of_length_le ?_
      rw [RaftLog.length_getEntriesFrom habove]
      exact hall
    have hlast := hend.ends
    have hagrees := hend.agrees
    rw [hwhole, RaftLog.length_getEntriesFrom habove] at hlast hagrees
    rw [hlog] at hagrees
    have hindex : s + (leader.log.getLastIndex + 1 - s) - 1 = leader.log.getLastIndex := by omega
    rw [hindex] at hlast hagrees
    exact ⟨hsent.trans hwhole, hlast, hagrees⟩

/-- A leader of three entries that sends two at a time. -/
def lecturer : RaftNode :=
  ((((construct ⟨"a", ["b"], "a", 100, 2⟩ (.fresh .file)).becomeCandidate.becomeLeader).clientAppend
    (.dot "x" "board")).clientAppend (.dot "y" "board")).clientAppend (.dot "z" "board")

/-- A follower that has nothing. -/
def novice : RaftNode := construct ⟨"b", ["a"], "b", 100, 2⟩ (.fresh .file)

/-- A new follower of a leader with entries. -/
theorem following_lecturer : Following "b" 1 lecturer novice where
  leads := by decide
  contiguous := by
    intro k e hk
    have hentries : lecturer.log.entries = [⟨1, 1, .dot "x" "board"⟩,
        ⟨2, 1, .dot "y" "board"⟩, ⟨3, 1, .dot "z" "board"⟩] := by decide
    have hboundary : lecturer.log.lastIncludedIndex = 0 := by decide
    rw [hentries] at hk
    rw [hboundary]
    match k, hk with
    | 0, hk => obtain rfl := Option.some.inj hk; rfl
    | 1, hk => obtain rfl := Option.some.inj hk; rfl
    | 2, hk => obtain rfl := Option.some.inj hk; rfl
    | k + 3, hk => simp at hk
  cursor := by decide
  above := by decide
  within := by decide
  matched := by decide
  term_le := by decide
  ends := by decide
  agrees := by
    intro k hk _ _
    obtain rfl : k = 0 := by omega
    exact ⟨by decide, fun e e' he _ => by cases he⟩

/-- Two rounds bring the follower all three entries. -/
theorem batches_cover_lecturer :
    (replicateRounds "b" 2 lecturer novice).1.flatten.map LogEntry.index = [1, 2, 3] ∧
      (replicateRounds "b" 2 lecturer novice).2.2.log.getLastIndex = 3 := by
  obtain ⟨hsent, hlast, -⟩ := (batches_cover (by decide) following_lecturer).2.2 2 (by decide)
  rw [hsent, hlast]
  exact ⟨by decide, by decide⟩

end RaftNode

end QuorumCanvas
