import QuorumCanvas.AgreedCommits
import QuorumCanvas.Batches

/-!
# Catch-up

A follower asks for the entries after its own last index, without a word about the
term there.  By the time of the reply its log may have shrunk, grown or been replaced;
the entries are spliced in all the same, and the commit index jumps to the responder's.
The result is what it should be exactly when the two logs agree where the reply comes
in (`catch_up_safe`).
-/

namespace QuorumCanvas

open Ledger (History Standing SameTermAt)

namespace RaftNode

variable {n m : RaftNode} {result : SyncLogResult} {i : ℕ}

/-- **Log matching:** entries of one term at one index follow on the same entries. -/
def LogsMatch (n m : RaftNode) : Prop :=
  ∀ k e e', n.fullLog[k]? = some e → m.fullLog[k]? = some e' → e.term = e'.term →
    n.fullLog.take (k + 1) = m.fullLog.take (k + 1)

/-- Where both have committed, `n` has applied, and still holds, what `m` has applied. -/
structure CommitsOf (n m : RaftNode) : Prop where
  applied : ∀ k, 0 < k → k ≤ n.commitIndex → k ≤ m.commitIndex →
    ∃ e, n.appliedAt k = some e ∧ m.appliedAt k = some e
  held : ∀ k e, k ≤ n.commitIndex → k ≤ m.commitIndex → n.log.getEntry k = some e →
    m.appliedAt k = some e

/-- Logs of one entry match unless two entries share a term. -/
theorem LogsMatch.of_single {e e' : LogEntry} (hn : n.fullLog = [e]) (hm : m.fullLog = [e'])
    (h : e.term = e'.term → e = e') : n.LogsMatch m := by
  intro k e₁ e₁' he he' hterm
  rw [hn] at he ⊢
  rw [hm] at he' ⊢
  cases k with
  | zero =>
      obtain rfl := Option.some.inj he
      obtain rfl := Option.some.inj he'
      rw [h hterm]
  | succ k => cases he

/-- A node that has committed nothing agrees with every other. -/
theorem CommitsOf.of_uncommitted (h : n.commitIndex = 0 ∨ m.commitIndex = 0) : n.CommitsOf m := by
  refine ⟨fun k hpos hk hk' => by omega, fun k e hk hk' he => ?_⟩
  have := (RaftLog.bounds_of_getEntry he).1
  omega

/-- To agree is to have the same entries where both have committed. -/
theorem commitsOf_iff (hn : n.Coherent) (hm : m.Coherent) :
    n.CommitsOf m ↔ ∀ k, k < n.commitIndex → k < m.commitIndex →
      n.fullLog[k]? = m.fullLog[k]? := by
  constructor
  · intro h k hk hk'
    obtain ⟨e, he, he'⟩ := h.applied (k + 1) (Nat.succ_pos k) hk hk'
    rw [← hn.appliedAt hk, ← hm.appliedAt hk', he, he']
  · intro h
    refine ⟨fun k hpos hk hk' => ?_, fun k e hk hk' he => ?_⟩
    · obtain ⟨j, rfl⟩ := Nat.exists_eq_succ_of_ne_zero hpos.ne'
      have hlt : j < n.fullLog.length := Nat.lt_of_lt_of_le hk hn.commit_le
      refine ⟨n.fullLog[j], ?_, ?_⟩
      · rw [hn.appliedAt hk, List.getElem?_eq_getElem hlt]
      · rw [hm.appliedAt hk', ← h j hk hk', List.getElem?_eq_getElem hlt]
    · have hbound := (RaftLog.bounds_of_getEntry he).1
      obtain ⟨j, rfl⟩ := Nat.exists_eq_succ_of_ne_zero (Nat.ne_of_gt (Nat.zero_lt_of_lt hbound))
      rw [hn.getEntry hbound] at he
      rw [hm.appliedAt hk', ← h j hk hk']
      exact he

/-! ## What a reply does to a node -/

/-- Hearing of a later term comes first, and changes nothing that matters here. -/
theorem heard_onSyncLogReply (hn : n.Coherent) (result : SyncLogResult) :
    ∃ u : RaftNode, u.Coherent ∧ u.fullLog = n.fullLog ∧ u.log = n.log ∧
      u.commitIndex = n.commitIndex ∧ u.history = n.history ∧
      n.onSyncLogReply result =
        ((u.catchUpSnapshot result.snapshot).catchUpLoop
          (u.catchUpSnapshot result.snapshot).log.lastIncludedIndex
          (result.entries.filter fun e => e.index ≤ result.commitIndex)).followCommit
            result.commitIndex := by
  obtain ⟨hev, hfull, -⟩ := evolves_ite_becomeFollower (T := True)
    (G := fun _ _ _ => True) hn trivial fun _ => trivial
  have hcommit := commitIndex_of_marks (marks_ite_becomeFollower n result.term)
  refine ⟨_, hev.coherent, hfull, ?_, hcommit, ?_, rfl⟩
  · split
    · exact becomeFollower_log n _ _ _
    · rfl
  · rw [hev.coherent.history, hn.history, hfull, hcommit]

/-- Following a commit index changes neither the full log nor its coherence. -/
theorem Coherent.followCommit (hn : n.Coherent) (leaderCommit : ℕ) :
    (n.followCommit leaderCommit).Coherent ∧
      (n.followCommit leaderCommit).fullLog = n.fullLog ∧
      (n.followCommit leaderCommit).commitIndex =
        if n.commitIndex < leaderCommit then min leaderCommit n.fullLog.length
        else n.commitIndex := by
  obtain ⟨hev, hfull⟩ := evolves_followCommit (T := True) (G := fun _ _ _ => True) hn
    leaderCommit trivial fun _ => trivial
  refine ⟨hev.coherent, hfull, ?_⟩
  rw [commitIndex_followCommit, hn.getLastIndex]

/-- **A snapshot in the reply** replaces what it covers, when it is ahead, and keeps the
rest of the log. -/
theorem onSyncLogReply_snapshot (hn : n.Coherent) {s : Snapshot} (hsome : result.snapshot = some s)
    (hnil : result.entries = []) (hwf : s.WellFormed) :
    (n.onSyncLogReply result).Coherent ∧
      (n.onSyncLogReply result).fullLog = (if n.commitIndex < s.lastIncludedIndex then
        s.entries ++ n.fullLog.drop s.lastIncludedIndex else n.fullLog) ∧
      (n.onSyncLogReply result).commitIndex =
        if max n.commitIndex s.lastIncludedIndex < result.commitIndex then
          min result.commitIndex (n.onSyncLogReply result).fullLog.length
        else max n.commitIndex s.lastIncludedIndex := by
  obtain ⟨u, hu, hfull, -, hcommit, -, hreply⟩ := heard_onSyncLogReply hn result
  rw [hreply, hsome, hnil]
  show ((u.catchUpSnapshot (some s)).followCommit result.commitIndex).Coherent ∧
    ((u.catchUpSnapshot (some s)).followCommit result.commitIndex).fullLog = _ ∧
    ((u.catchUpSnapshot (some s)).followCommit result.commitIndex).commitIndex = _
  obtain ⟨hinst, hinstFull, hinstCommit⟩ : (u.catchUpSnapshot (some s)).Coherent ∧
      (u.catchUpSnapshot (some s)).fullLog = (if n.commitIndex < s.lastIncludedIndex then
        s.entries ++ n.fullLog.drop s.lastIncludedIndex else n.fullLog) ∧
      (u.catchUpSnapshot (some s)).commitIndex = max n.commitIndex s.lastIncludedIndex := by
    unfold catchUpSnapshot
    dsimp only
    rw [hcommit]
    split
    · next hahead =>
        obtain ⟨hev, hfull'⟩ := evolves_applySnapshot (T := True) (G := fun _ _ _ => True) hu hwf
          (hcommit.symm ▸ hahead) trivial trivial (Or.inl trivial)
        exact ⟨hev.coherent, hfull ▸ hfull', (max_eq_right hahead.le).symm⟩
    · next hbehind => exact ⟨hu, hfull, hcommit.trans (max_eq_left (Nat.not_lt.mp hbehind)).symm⟩
  obtain ⟨hcoh, hfull', hcommit'⟩ := hinst.followCommit result.commitIndex
  refine ⟨hcoh, hfull'.trans hinstFull, ?_⟩
  rw [hcommit', hinstCommit]
  rw [← hfull']
  rfl

/-- **Entries in the reply** that the log reaches up to leave alone what is in front of them. -/
theorem onSyncLogReply_entries (hn : n.Coherent) (hnone : result.snapshot = none)
    (hes : Consecutive i (result.entries.filter fun e => e.index ≤ result.commitIndex))
    (hi : i ≤ n.fullLog.length) :
    (n.onSyncLogReply result).Coherent ∧
      (n.onSyncLogReply result).fullLog.take i = n.fullLog.take i ∧
      (result.entries = [] → (n.onSyncLogReply result).fullLog = n.fullLog) ∧
      i + (result.entries.filter fun e => e.index ≤ result.commitIndex).length ≤
        (n.onSyncLogReply result).fullLog.length ∧
      (n.onSyncLogReply result).commitIndex =
        if n.commitIndex < result.commitIndex then
          min result.commitIndex (n.onSyncLogReply result).fullLog.length
        else n.commitIndex := by
  obtain ⟨u, hu, hfull, -, hcommit, -, hreply⟩ := heard_onSyncLogReply hn result
  rw [hreply, hnone]
  show ((u.catchUpLoop u.log.lastIncludedIndex _).followCommit _).Coherent ∧
    ((u.catchUpLoop u.log.lastIncludedIndex _).followCommit _).fullLog.take i = _ ∧
    (_ → ((u.catchUpLoop u.log.lastIncludedIndex _).followCommit _).fullLog = _) ∧
    _ ≤ ((u.catchUpLoop u.log.lastIncludedIndex _).followCommit _).fullLog.length ∧
    ((u.catchUpLoop u.log.lastIncludedIndex _).followCommit _).commitIndex =
      if _ then min _ ((u.catchUpLoop u.log.lastIncludedIndex _).followCommit _).fullLog.length
        else _
  have hsplices : Splices u.commitIndex (fun _ ℓ => ℓ.take i = u.fullLog.take i) i
      (result.entries.filter fun e => e.index ≤ result.commitIndex) := by
    intro k e _
    refine ⟨fun _ h _ => h, fun _ _ h _ _ => h, fun ℓ e' h _ _ _ => ?_, fun ℓ h hlen => ?_⟩
    · rw [List.take_take, min_eq_left (Nat.le_add_right i k)]
      exact h
    · rw [List.take_append_of_le_length (by omega)]
      exact h
  obtain ⟨hev, htake, hlen⟩ := evolves_catchUpLoop (T := True) (G := fun _ _ _ => True)
    hu rfl hes (hfull ▸ hi) rfl hsplices fun _ _ _ _ => trivial
  have hcommit' := (commitIndex_of_marks (marks_catchUpLoop u u.log.lastIncludedIndex
    (result.entries.filter fun e => e.index ≤ result.commitIndex))).trans hcommit
  obtain ⟨hcoh, hfull', hcommit''⟩ := hev.coherent.followCommit result.commitIndex
  rw [hcommit'', hfull', hcommit']
  refine ⟨hcoh, hfull ▸ htake, fun hnil => ?_, hlen, rfl⟩
  rw [hnil]
  exact hfull

/-- Entries far beyond the end of the log are appended to it all the same. -/
theorem catchUpLoop_beyond {es : List LogEntry} {li : ℕ} (hli : n.log.lastIncludedIndex = li)
    (hes : Consecutive i es) (hi : n.log.getLastIndex ≤ i) :
    (n.catchUpLoop li es).log = n.log.appendAll es ∧
      (n.catchUpLoop li es).history = n.history := by
  induction es generalizing n i with
  | nil =>
      refine ⟨?_, rfl⟩
      unfold RaftLog.appendAll
      rw [List.append_nil]
      rfl
  | cons e rest ih =>
      obtain ⟨he, hrest⟩ := hes.tail
      have hbound : li ≤ n.log.getLastIndex := by
        unfold RaftLog.getLastIndex
        omega
      have hnone : n.log.getEntry e.index = none :=
        RaftLog.getEntry_eq_none.mpr (Or.inr (by omega))
      have hclear : n.conflicts e = false := by
        unfold conflicts
        rw [hnone]
        rfl
      have hsplice : n.spliceEntry e = some (n.appendLog e) := by
        unfold spliceEntry dropConflict
        rw [hclear]
        have hmissing : n.appendMissing e = n.appendLog e := by
          unfold appendMissing
          rw [hnone]
          rfl
        simp [hmissing]
      unfold catchUpLoop
      rw [if_neg (by omega), hsplice]
      obtain ⟨hlog, hhist⟩ := ih (n := n.appendLog e) hli hrest (by
        rw [log_appendLog, RaftLog.getLastIndex_append]
        omega)
      refine ⟨hlog.trans ?_, hhist⟩
      rw [log_appendLog]
      unfold RaftLog.appendAll RaftLog.append
      simp

/-- What is applied is found under the index it was applied at. -/
theorem appliedAt_iterate (hkeys : ∀ x ∈ n.history, x.1 ≤ n.lastApplied) (j : ℕ) :
    (∀ x ∈ (applyNext^[j] n).history, x.1 ≤ n.lastApplied + j) ∧
      ∀ k e, n.lastApplied < k → k ≤ n.lastApplied + j → n.log.getEntry k = some e →
        (applyNext^[j] n).appliedAt k = some e := by
  induction j with
  | zero => exact ⟨hkeys, fun k e hlt hle => by omega⟩
  | succ j ih =>
      obtain ⟨hkeys', hfound⟩ := ih
      have happlied : (applyNext^[j] n).lastApplied = n.lastApplied + j :=
        congrArg Marks.lastApplied (marks_iterate n j)
      have hlog := log_applyNext_iterate n j
      rw [Function.iterate_succ_apply']
      generalize applyNext^[j] n = q at *
      unfold applyNext
      dsimp only
      rw [happlied, hlog]
      cases hget : n.log.getEntry (n.lastApplied + j + 1) with
      | none =>
          refine ⟨fun x hx => (hkeys' x hx).trans (by omega), fun k e hlt hle he => ?_⟩
          refine hfound k e hlt ?_ he
          by_contra hgt
          obtain rfl : k = n.lastApplied + j + 1 := by omega
          rw [hget] at he
          cases he
      | some e₁ =>
          refine ⟨fun x hx => ?_, fun k e hlt hle he => ?_⟩
          · rcases List.mem_append.mp hx with hx | hx
            · exact (hkeys' x hx).trans (by omega)
            · obtain rfl := List.mem_singleton.mp hx
              exact le_rfl
          · unfold appliedAt
            rw [List.find?_append]
            rcases Nat.lt_or_ge (n.lastApplied + j) k with hnew | hold
            · obtain rfl : k = n.lastApplied + j + 1 := by omega
              have hfresh : q.history.find? (fun applied =>
                  applied.1 = n.lastApplied + j + 1) = none := by
                refine List.find?_eq_none.mpr fun x hx => ?_
                have := hkeys' x hx
                simp only [decide_eq_true_eq]
                omega
              rw [hfresh, Option.none_or]
              rw [hget] at he
              simp [Option.some.inj he]
            · obtain ⟨x, hx, hxe⟩ := Option.map_eq_some_iff.mp (hfound k e hlt hold he)
              rw [hx, Option.some_or]
              exact congrArg some hxe

/-- A snapshot applies nothing. -/
theorem history_maybeSnapshot (n : RaftNode) : n.maybeSnapshot.history = n.history := by
  unfold maybeSnapshot
  split
  · rfl
  · unfold takeSnapshot compactLog
    split <;> rfl

/-- Following a commit index applies what the log has under each index it covers. -/
theorem appliedAt_followCommit (hkeys : ∀ x ∈ n.history, x.1 ≤ n.lastApplied) {leaderCommit k : ℕ}
    {e : LogEntry} (hlt : n.commitIndex < leaderCommit) (hk : n.lastApplied < k)
    (hle : k ≤ min leaderCommit n.log.getLastIndex) (he : n.log.getEntry k = some e) :
    (n.followCommit leaderCommit).appliedAt k = some e := by
  unfold followCommit advanceCommit applyCommitted
  rw [if_pos hlt]
  unfold appliedAt
  rw [history_maybeSnapshot]
  refine (appliedAt_iterate (n := { n with
    commitIndex := min leaderCommit n.log.getLastIndex }.persistState) hkeys _).2 k e hk ?_ he
  show k ≤ n.lastApplied + (min leaderCommit n.log.getLastIndex - n.lastApplied)
  omega

/-! ## What the commits of a reply say about the two logs -/

/-- **A log that has shrunk** gets an entry applied at an index that is not its own. -/
theorem not_commitsOf_of_shrunk (hn : n.Coherent) (hm : m.Coherent)
    (hnone : result.snapshot = none)
    (hes : Consecutive i (result.entries.filter fun e => e.index ≤ result.commitIndex))
    (hne : (result.entries.filter fun e => e.index ≤ result.commitIndex) ≠ [])
    (hlt : n.fullLog.length < i) (hle : result.commitIndex ≤ m.commitIndex) :
    ¬ (n.onSyncLogReply result).CommitsOf m := by
  intro h
  obtain ⟨u, hu, hfull, -, hcommit, -, hreply⟩ := heard_onSyncLogReply hn result
  rw [hnone] at hreply
  obtain ⟨e, rest, hcons⟩ := List.exists_cons_of_ne_nil hne
  have hindex : e.index = i + 1 := (hcons ▸ hes : Consecutive i (e :: rest)).tail.1
  have hcovered : e.index ≤ result.commitIndex := by
    have hmem : e ∈ result.entries.filter fun e => e.index ≤ result.commitIndex := by
      rw [hcons]
      exact List.mem_cons_self
    simpa using (List.mem_filter.mp hmem).2
  -- the first entry lands right after the last index of the log
  have hlast : u.log.getLastIndex = n.fullLog.length := hfull ▸ hu.getLastIndex
  obtain ⟨hlog, hhist⟩ := catchUpLoop_beyond (n := u) rfl hes (by omega)
  obtain ⟨hcommit', happlied', -, -⟩ := Marks.mk.inj (marks_catchUpLoop u u.log.lastIncludedIndex
    (result.entries.filter fun e => e.index ≤ result.commitIndex))
  have hbehind := hn.commit_le
  have hlast' : n.fullLog.length + 1 ≤ (u.log.appendAll
      (result.entries.filter fun e => e.index ≤ result.commitIndex)).getLastIndex := by
    rw [RaftLog.getLastIndex_appendAll, hlast, hcons, List.length_cons]
    omega
  have hget : (u.log.appendAll (result.entries.filter fun e =>
      e.index ≤ result.commitIndex)).getEntry (n.fullLog.length + 1) = some e := by
    rw [RaftLog.getEntry_appendAll_new (by omega), hlast, hcons, Nat.add_sub_cancel_left]
    rfl
  have hcommits : (n.onSyncLogReply result).commitIndex = min result.commitIndex
      (u.log.appendAll
        (result.entries.filter fun e => e.index ≤ result.commitIndex)).getLastIndex := by
    rw [hreply, commitIndex_followCommit]
    refine (if_pos ?_).trans (congrArg (fun log : RaftLog => min _ log.getLastIndex) hlog)
    exact hcommit'.trans_lt (by omega)
  have happlied : (n.onSyncLogReply result).appliedAt (n.fullLog.length + 1) = some e := by
    rw [hreply]
    refine appliedAt_followCommit (fun x hx => ?_) (hcommit'.trans_lt (by omega))
      (happlied'.trans_lt (by have := hu.applied; omega)) ?_
      ((congrArg (RaftLog.getEntry · _) hlog).trans hget)
    · have hx' : x ∈ u.history := hhist ▸ hx
      rw [hu.history] at hx'
      obtain ⟨e', he', rfl⟩ := List.mem_map.mp hx'
      exact (hu.inOrder.index_le_of_mem_take he').trans (happlied'.trans hu.applied).ge
    · exact le_min (by omega) (hlast'.trans (congrArg RaftLog.getLastIndex hlog).ge)
  obtain ⟨e', he', hm'⟩ := h.applied (n.fullLog.length + 1) (Nat.succ_pos _) (by omega) (by omega)
  obtain rfl := Option.some.inj (happlied.symm.trans he')
  have hown := hm.inOrder _ _ ((hm.appliedAt (by omega)).symm.trans hm')
  omega

/-- Where both have committed, the terms are the same. -/
theorem sameTermAt_of_commitsOf {n' : RaftNode} {k : ℕ} (hn' : n'.Coherent) (hm : m.Coherent)
    (h : n'.CommitsOf m) (hpos : 0 < k) (hk : k ≤ n'.commitIndex) (hk' : k ≤ m.commitIndex)
    (hsame : n'.fullLog[k - 1]? = n.fullLog[k - 1]?) : SameTermAt n.fullLog m.fullLog k := by
  have hget := (commitsOf_iff hn' hm).mp h (k - 1) (by omega) (by omega)
  have hlt : k - 1 < m.fullLog.length := by
    have := hm.commit_le
    omega
  refine ⟨m.fullLog[k - 1], m.fullLog[k - 1], hpos, ?_, List.getElem?_eq_getElem hlt, rfl⟩
  rw [← hsame, hget, List.getElem?_eq_getElem hlt]

section Served

variable {L : History String LogEntry} {members : Finset String} {fromIndex : ℕ}

/-- The entries of a reply are consecutive. -/
theorem Served.consecutive (hm : m.Coherent) (hs : Served L members m fromIndex result)
    (hnone : result.snapshot = none) : Consecutive (fromIndex - 1) result.entries := by
  intro k e hk
  rw [hs.entries hnone, List.getElem?_drop] at hk
  exact (hm.inOrder.take _) _ e hk

/-- **After entries,** the commits are the responder's only if the logs agreed before. -/
theorem catchUpAgrees_of_entries (hn : n.Coherent) (hm : m.Coherent)
    (hs : Served L members m fromIndex result) (hnone : result.snapshot = none)
    (h : (n.onSyncLogReply result).CommitsOf m) : CatchUpAgrees n m fromIndex result := by
  have hfilter := hs.filter_entries hm hnone
  have hes := hs.consecutive hm hnone
  have hlong := hs.backs.length hm
  have hcount := congrArg List.length (hs.entries hnone)
  rw [List.length_drop, hlong] at hcount
  unfold CatchUpAgrees
  rw [hnone]
  dsimp only
  split
  · next hnil =>
      -- nothing to splice: the node commits as far as its own log reaches
      obtain ⟨hcoh, -, hfull, -, hcommit⟩ := onSyncLogReply_entries (i := 0) hn hnone
        (by rw [hfilter, hnil]; exact fun k e hk => by simp at hk) (Nat.zero_le _)
      rw [hn.getLastIndex]
      by_cases hlt : n.commitIndex < min result.commitIndex n.fullLog.length
      · rw [hfull hnil, if_pos (hlt.trans_le (min_le_left _ _))] at hcommit
        exact Or.inr (sameTermAt_of_commitsOf hcoh hm h (by omega) hcommit.ge
          ((min_le_left _ _).trans hs.backs.le) (by rw [hfull hnil]))
      · exact Or.inl (Nat.not_lt.mp hlt)
  · next hne =>
      have hpos := List.length_pos_iff.mpr hne
      by_cases hlt : n.commitIndex < fromIndex - 1
      · rcases Nat.lt_or_ge n.fullLog.length (fromIndex - 1) with hshort | hreach
        · exact absurd h (not_commitsOf_of_shrunk hn hm hnone (hfilter.symm ▸ hes)
            (hfilter.symm ▸ hne) hshort hs.backs.le)
        · obtain ⟨hcoh, htake, -, hlen, hcommit⟩ :=
            onSyncLogReply_entries hn hnone (hfilter.symm ▸ hes) hreach
          rw [hfilter] at hlen
          rw [if_pos (by omega)] at hcommit
          refine Or.inr (sameTermAt_of_commitsOf hcoh hm h (by omega) (by omega)
            (le_trans (by omega) hs.backs.le) ?_)
          -- the entry before the first one is still the node's own
          have hget := congrArg (fun ℓ => ℓ[fromIndex - 1 - 1]?) htake
          simpa only [List.getElem?_take, if_pos (show fromIndex - 1 - 1 < fromIndex - 1 by omega)]
            using hget
      · exact Or.inl (Nat.not_lt.mp hlt)

/-- **After a snapshot,** the commits are the responder's only if the logs agreed before,
or if the snapshot is all that is committed, and more of the log is kept behind it. -/
theorem catchUpAgrees_of_snapshot (hn : n.Coherent) (hm : m.Coherent)
    (hs : Served L members m fromIndex result) {s : Snapshot} (hsome : result.snapshot = some s)
    (h : (n.onSyncLogReply result).CommitsOf m) :
    CatchUpAgrees n m fromIndex result ∨ s.lastIncludedIndex = result.commitIndex ∧
      n.commitIndex < s.lastIncludedIndex := by
  obtain ⟨hnil, hwf, hpre⟩ := hs.snapshot s hsome
  obtain ⟨hcoh, hfull, hcommit⟩ := onSyncLogReply_snapshot hn hsome hnil hwf
  have hlong := hpre.length_le
  rw [hwf.boundary, hs.backs.length hm] at hlong
  unfold CatchUpAgrees
  rw [hsome, hn.getLastIndex]
  dsimp only
  rcases Nat.lt_or_ge s.lastIncludedIndex n.fullLog.length with htail | hcovers
  · by_cases hlt : n.commitIndex < min result.commitIndex n.fullLog.length
    · by_cases hcorner : s.lastIncludedIndex = result.commitIndex ∧
          n.commitIndex < s.lastIncludedIndex
      · exact Or.inr hcorner
      · -- the last entry that is committed is the node's own
        have hlen : (n.onSyncLogReply result).fullLog.length = n.fullLog.length := by
          rw [hfull]
          split
          · rw [List.length_append, List.length_drop, hwf.boundary]
            omega
          · rfl
        rw [hlen, if_pos (by omega)] at hcommit
        refine Or.inl (Or.inr (Or.inr (sameTermAt_of_commitsOf hcoh hm h (by omega) hcommit.ge
          ((min_le_left _ _).trans hs.backs.le) ?_)))
        rw [hfull]
        split
        · rw [List.getElem?_append_right (by rw [hwf.boundary]; omega), List.getElem?_drop,
            hwf.boundary]
          congr 1
          omega
        · rfl
    · exact Or.inl (Or.inr (Or.inl (Nat.not_lt.mp hlt)))
  · exact Or.inl (Or.inl hcovers)

/-- **A snapshot of all that is committed** makes the commits the responder's, and the
log match `q`'s unless `q` shares what is kept behind the snapshot. -/
theorem commitsOf_of_snapshot (hn : n.Coherent) (hm : m.Coherent)
    (hs : Served L members m fromIndex result) {s : Snapshot} (hsome : result.snapshot = some s)
    (hall : s.lastIncludedIndex = result.commitIndex)
    (hahead : n.commitIndex < s.lastIncludedIndex) :
    (n.onSyncLogReply result).Coherent ∧ (n.onSyncLogReply result).CommitsOf m ∧
      (n.onSyncLogReply result).fullLog =
        m.fullLog.take s.lastIncludedIndex ++ n.fullLog.drop s.lastIncludedIndex := by
  obtain ⟨hnil, hwf, hpre⟩ := hs.snapshot s hsome
  obtain ⟨hcoh, hfull, hcommit⟩ := onSyncLogReply_snapshot hn hsome hnil hwf
  have hfront : s.entries = m.fullLog.take s.lastIncludedIndex := by
    refine (hpre.eq_of_length ?_).trans (by rw [hall])
    rw [hs.backs.length hm, hwf.boundary, hall]
  rw [if_pos hahead, hfront] at hfull
  rw [max_eq_right hahead.le, if_neg (by omega)] at hcommit
  refine ⟨hcoh, (commitsOf_iff hcoh hm).mpr fun k hk _ => ?_, hfull⟩
  have hlong := hpre.length_le
  rw [hwf.boundary] at hlong
  rw [hfull, List.getElem?_append_left, List.getElem?_take, if_pos (hcommit ▸ hk)]
  rw [← hfront, hwf.boundary, ← hcommit]
  exact hk

/-- Where the front of a log is replaced by `m`'s, it matches `q` if `q` shares nothing
of what is kept. -/
theorem logsMatch_splice {p q : RaftNode} {k₀ : ℕ} (hm : L.Chained m.fullLog)
    (hq : L.Chained q.fullLog) (hlen : k₀ ≤ m.fullLog.length)
    (hp : p.fullLog = m.fullLog.take k₀ ++ n.fullLog.drop k₀)
    (hun : ∀ k e e', k₀ ≤ k → n.fullLog[k]? = some e → q.fullLog[k]? = some e' →
      e.term ≠ e'.term) : p.LogsMatch q := by
  intro k e e' he he' hterm
  have hfront : (m.fullLog.take k₀).length = k₀ := by
    rw [List.length_take, min_eq_left hlen]
  rw [hp] at he ⊢
  rcases Nat.lt_or_ge k k₀ with hlt | hge
  · rw [List.getElem?_append_left (by rwa [hfront]), List.getElem?_take, if_pos hlt] at he
    rw [List.take_append_of_le_length (by omega), List.take_take, min_eq_left (by omega)]
    exact hm.matching hq he he' hterm
  · rw [List.getElem?_append_right (by rwa [hfront]), List.getElem?_drop, hfront,
      Nat.add_sub_cancel' hge] at he
    exact absurd hterm (hun k e e' hge he he')

/-- ... and only then, if the front was another before. -/
theorem unshared_of_logsMatch {p q : RaftNode} {k₀ : ℕ} (hn : L.Chained n.fullLog)
    (hq : L.Chained q.fullLog) (hpos : 0 < k₀) (hlen : k₀ ≤ m.fullLog.length)
    (hp : p.fullLog = m.fullLog.take k₀ ++ n.fullLog.drop k₀)
    (hdiff : ¬ SameTermAt n.fullLog m.fullLog k₀) (h : p.LogsMatch q) :
    ∀ k e e', k₀ ≤ k → n.fullLog[k]? = some e → q.fullLog[k]? = some e' → e.term ≠ e'.term := by
  intro k e e' hge he he' hterm
  have hfront : (m.fullLog.take k₀).length = k₀ := by
    rw [List.length_take, min_eq_left hlen]
  have hkept : p.fullLog[k]? = some e := by
    rw [hp, List.getElem?_append_right (by rwa [hfront]), List.getElem?_drop, hfront,
      Nat.add_sub_cancel' hge]
    exact he
  have hsame := (h k e e' hkept he' hterm).trans (hn.matching hq he he' hterm).symm
  -- so the last entry of the new front was there before
  have hget := congrArg (fun ℓ => ℓ[k₀ - 1]?) hsame
  simp only [List.getElem?_take, if_pos (show k₀ - 1 < k + 1 by omega)] at hget
  rw [hp, List.getElem?_append_left (by omega), List.getElem?_take, if_pos (by omega)] at hget
  have hlt : k₀ - 1 < m.fullLog.length := by omega
  refine hdiff ⟨m.fullLog[k₀ - 1], m.fullLog[k₀ - 1], hpos, ?_,
    List.getElem?_eq_getElem hlt, rfl⟩
  rw [← hget, List.getElem?_eq_getElem hlt]

end Served

end RaftNode

/-! ## Catching up -/

namespace Cluster

/-- **A safe catch-up:** afterwards the log of `a` is contiguous, its commits are those
of the responder `m`, and its log matches that of every other member. -/
structure CatchUpSafe (cfg : Config) (c' : Cluster) (a : String) (m : RaftNode) : Prop where
  contiguous : (c'.replicas a).node.log.Contiguous
  commits : (c'.replicas a).node.CommitsOf m
  matching : ∀ b ∈ cfg.members, b ≠ a → (c'.replicas a).node.LogsMatch (c'.replicas b).node

/-- The reply is a snapshot of all that is committed, ahead of `a`, and no other member
shares what `a` has behind it. -/
def TailUnshared (cfg : Config) (c : Cluster) (a : String) (result : SyncLogResult) : Prop :=
  ∃ s, result.snapshot = some s ∧ s.lastIncludedIndex = result.commitIndex ∧
    (c.replicas a).node.commitIndex < s.lastIncludedIndex ∧
    ∀ b ∈ cfg.members, b ≠ a → ∀ k e e', s.lastIncludedIndex ≤ k →
      (c.replicas a).node.fullLog[k]? = some e → (c.replicas b).node.fullLog[k]? = some e' →
      e.term ≠ e'.term

end Cluster

variable {cfg : Config} {c c' : Cluster} {a dst : String} {k : ℕ} {task : CatchUp}
  {args : SyncLogArgs} {result : SyncLogResult}

/-- The reply to a catch-up is one made to its request, and is all that the turn handles. -/
theorem catchUpReply_cases (hk : (c.replicas a).catchUps[k]? = some task)
    (hnext : Cluster.next cfg c (.act (.catchUpReply a k (some result))) = some c') :
    a ∈ cfg.members ∧ (task.rpc, .syncLog result) ∈ c.replies ∧
      (c'.replicas a).node = (c.replicas a).node.beginTurn.onSyncLogReply result ∧
      ∀ b, b ≠ a → (c'.replicas b).node = (c.replicas b).node := by
  rcases Cluster.next_cases hnext with ⟨action, t, heq, ha, ht, rfl⟩ |
    ⟨_, _, _, heq, -⟩ | ⟨_, _, heq, -⟩
  · obtain rfl := Cluster.Event.act.inj heq
    have htask : (c.startTurn (Action.catchUpReply a k (some result)).replica).replica.catchUps[k]?
      = some task := hk
    simp only [Cluster.turn] at ht
    rw [htask] at ht
    obtain ⟨hpossible, ht⟩ := Option.ite_none_right_eq_some.mp ht
    obtain ⟨task', -, rfl⟩ := Turn.catchUpReply_some ht
    refine ⟨ha, hpossible, ?_, fun b hb => ?_⟩
    · exact congrArg Replica.node (Cluster.replicas_finishTurn_self _ _ _)
    · exact congrArg Replica.node (Cluster.replicas_finishTurn_ne _ _ hb)
  · cases heq
  · cases heq

/-- **Catching up is safe,** in a careful run, exactly when the two logs agree where the
reply comes in, or what is kept behind its snapshot is shared with nobody. -/
theorem catch_up_safe (cfg : Config) [cfg.OnFiles] {c c' : Cluster} {a dst : String} {k : ℕ}
    {task : CatchUp}
    {args : SyncLogArgs} {result : SyncLogResult}
    (h : Cluster.Reach cfg (Cluster.Careful cfg) (.init cfg) c)
    (hk : (c.replicas a).catchUps[k]? = some task)
    (hsent : ⟨task.rpc, a, dst, .syncLog args⟩ ∈ c.wire)
    (hnext : Cluster.next cfg c (.act (.catchUpReply a k (some result))) = some c') :
    Cluster.CatchUpSafe cfg c' a (c.replicas dst).node ↔
      RaftNode.CatchUpAgrees (c.replicas a).node (c.replicas dst).node args.fromIndex result ∨
        c.TailUnshared cfg a result := by
  obtain ⟨L, H, -, hc⟩ := (ledgered_init cfg).reach h
  obtain ⟨ha, hreply, hnode, hothers⟩ := catchUpReply_cases hk hnext
  obtain ⟨hdst, hserved⟩ := hc.replies _ hsent _ hreply
  have hn := (hc.nodes a ha).beginTurn
  have hm := hc.nodes dst hdst
  show _ ↔ RaftNode.CatchUpAgrees (c.replicas a).node.beginTurn _ args.fromIndex result ∨ _
  constructor
  · intro hsafe
    have hcommits := hnode ▸ hsafe.commits
    by_cases hagrees : RaftNode.CatchUpAgrees (c.replicas a).node.beginTurn
        (c.replicas dst).node args.fromIndex result
    · exact Or.inl hagrees
    cases hsome : result.snapshot with
    | none =>
        exact Or.inl (RaftNode.catchUpAgrees_of_entries hn.coherent hm.coherent hserved hsome
          hcommits)
    | some s =>
        obtain ⟨hall, hahead⟩ := (RaftNode.catchUpAgrees_of_snapshot hn.coherent hm.coherent hserved
          hsome hcommits).resolve_left hagrees
        obtain ⟨-, -, hfull⟩ := RaftNode.commitsOf_of_snapshot hn.coherent hm.coherent hserved hsome
          hall hahead
        have hle : s.lastIncludedIndex ≤ (c.replicas dst).node.fullLog.length :=
          hall.le.trans (hserved.backs.le.trans hm.coherent.commit_le)
        -- the logs differ right where the snapshot ends
        have hdiff : ¬ SameTermAt (c.replicas a).node.beginTurn.fullLog
            (c.replicas dst).node.fullLog s.lastIncludedIndex := by
          intro hsame
          refine hagrees ?_
          unfold RaftNode.CatchUpAgrees
          rw [hsome]
          refine Or.inr (Or.inr ?_)
          rwa [← hall, hn.coherent.getLastIndex, min_eq_left hsame.le]
        refine Or.inr ⟨s, hsome, hall, hahead, fun b hb hne => ?_⟩
        have hmatch := hsafe.matching b hb hne
        rw [hnode, hothers b hne] at hmatch
        exact RaftNode.unshared_of_logsMatch hn.standing.chained (hc.nodes b hb).standing.chained
          (Nat.zero_lt_of_lt hahead) hle hfull hdiff hmatch
  · rintro (hagrees | ⟨s, hsome, hall, hahead, hunshared⟩)
    · obtain ⟨L', H', hg, hc'⟩ := hc.next (e := .act (.catchUpReply a k (some result))) (by
        intro task' dst' args' hk' hsent'
        obtain rfl := Option.some.inj (hk.symm.trans hk')
        cases hc.electoral.numbered.packet_inj hsent hsent' rfl
        exact hagrees) hnext
      have hn' := hc'.nodes a ha
      refine ⟨hn'.coherent.contiguous, ?_, fun b hb _ => ?_⟩
      · refine (RaftNode.commitsOf_iff hn'.coherent hm.coherent).mpr fun k hlt hlt' => ?_
        -- what the responder has committed is settled in the new ledger as well
        have htake := hn'.standing.settled.take_eq hc'.sound
          (hg.settled hc.sound hm.standing.settled) hn'.coherent.commit_le hm.coherent.commit_le
          hlt hlt'
        have hget := congrArg (fun ℓ => ℓ[k]?) htake
        simpa only [List.getElem?_take, if_pos (Nat.lt_succ_self k)] using hget
      · intro k e e' he he' hterm
        exact hn'.standing.chained.matching (hc'.nodes b hb).standing.chained he he' hterm
    · obtain ⟨hcoh, hcommits, hfull⟩ := RaftNode.commitsOf_of_snapshot hn.coherent hm.coherent
        hserved
        hsome hall hahead
      have hle : s.lastIncludedIndex ≤ (c.replicas dst).node.fullLog.length :=
        hall.le.trans (hserved.backs.le.trans hm.coherent.commit_le)
      refine ⟨hnode ▸ hcoh.contiguous, hnode ▸ hcommits, fun b hb hne => ?_⟩
      rw [hnode, hothers b hne]
      exact RaftNode.logsMatch_splice hm.standing.chained (hc.nodes b hb).standing.chained hle hfull
        (hunshared b hb hne)

/-- The trio after the write, when `c` has asked `a` for what follows its last index. -/
def trioCatchUp : Cluster :=
  Cluster.play .trio (Cluster.play .trio (trioAfter 12) [.act (.requestCatchUp "c")])
    [.act (.deliver ⟨10, "c", "a", .syncLog ⟨2, 1, "a"⟩⟩)]

/-- A catch-up that brings a commit index and no entries. -/
theorem catch_up_safe_trio :
    let result : SyncLogResult := ⟨1, [], 1, none⟩
    let c' := Cluster.play .trio trioCatchUp [.act (.catchUpReply "c" 0 (some result))]
    (trioCatchUp.replicas "c").node.commitIndex = 0 ∧ (c'.replicas "c").node.commitIndex = 1 ∧
      Cluster.CatchUpSafe .trio c' "c" (trioCatchUp.replicas "a").node := by
  intro result c'
  have hasked : Cluster.Reach .trio (Cluster.Careful .trio) (.init .trio)
      (Cluster.play .trio (trioAfter 12) [.act (.requestCatchUp "c")]) :=
    .tail carefulTrio (e := .act (.requestCatchUp "c")) trivial (by rfl)
  have hreach : Cluster.Reach .trio (Cluster.Careful .trio) (.init .trio) trioCatchUp :=
    .tail hasked (e := .act (.deliver ⟨10, "c", "a", .syncLog ⟨2, 1, "a"⟩⟩)) trivial (by rfl)
  have htask : (trioCatchUp.replicas "c").catchUps[0]? = some ⟨10, []⟩ := by rfl
  have hsent : ⟨10, "c", "a", .syncLog ⟨2, 1, "a"⟩⟩ ∈ trioCatchUp.wire :=
    List.mem_of_getLast? (by rfl)
  have hnext : Cluster.next .trio trioCatchUp (.act (.catchUpReply "c" 0 (some result))) =
      some c' := by
    rfl
  refine ⟨by rfl, by rfl, (catch_up_safe .trio hreach htask hsent hnext).mpr (Or.inl ?_)⟩
  exact Or.inr ⟨⟨1, 1, .dot "x" "board"⟩, ⟨1, 1, .dot "x" "board"⟩, Nat.one_pos, rfl, rfl, rfl⟩

/-- Once `b` has committed its `y`, replica `a` comes up again with its `x`, and asks `b`
what follows. -/
def stranded : Cluster :=
  Cluster.play .trio (.init .trio) (contested ++
    [Cluster.Event.restart "a" 0, .act (.requestCatchUp "a"),
      .act (.deliver ⟨17, "a", "b", .syncLog ⟨2, 1, ""⟩⟩)])

/-- **A catch-up can commit what the responder does not hold:** nothing follows index 1,
so `a` commits its `x` there, where `b` has committed `y`. -/
theorem catch_up_commits_stray :
    let result : SyncLogResult := ⟨2, [], 1, none⟩
    let c' := Cluster.play .trio stranded [.act (.catchUpReply "a" 0 (some result))]
    Cluster.Reach .trio Runs.Any (.init .trio) stranded ∧
      (∀ i ∈ Config.trio.members, ∀ j ∈ Config.trio.members, i ≠ j →
        (stranded.replicas i).node.LogsMatch (stranded.replicas j).node ∧
          (stranded.replicas i).node.CommitsOf (stranded.replicas j).node) ∧
      (stranded.replicas "a").node.state = .follower ∧
      Cluster.next .trio stranded (.act (.catchUpReply "a" 0 (some result))) = some c' ∧
      (c'.replicas "a").node.commitIndex = 1 ∧
      ¬ Cluster.CatchUpSafe .trio c' "a" (stranded.replicas "b").node := by
  intro result c'
  have hlogs : ∀ i ∈ Config.trio.members, (stranded.replicas i).node.fullLog =
      [if i = "a" then ⟨1, 1, .dot "x" "board"⟩ else ⟨1, 2, .dot "y" "board"⟩] := by
    simp only [Config.trio, List.forall_mem_cons]
    exact ⟨by rfl, by rfl, by rfl, fun _ h => by cases h⟩
  have hcommits : ∀ i ∈ Config.trio.members, i ≠ "b" →
      (stranded.replicas i).node.commitIndex = 0 := by
    simp only [Config.trio, List.forall_mem_cons]
    exact ⟨fun _ => by rfl, fun h => absurd rfl h, fun _ => by rfl, fun _ h => by cases h⟩
  refine ⟨Cluster.reach_play (by rfl), fun i hi j hj hne => ⟨?_, ?_⟩, by rfl, by rfl, by rfl,
    fun h => ?_⟩
  · refine .of_single (hlogs i hi) (hlogs j hj) ?_
    split <;> split <;> simp
  · by_cases hb : i = "b"
    · exact .of_uncommitted (Or.inr (hcommits j hj (hb ▸ hne.symm)))
    · exact .of_uncommitted (Or.inl (hcommits i hi hb))
  · obtain ⟨e, hx, hy⟩ := h.commits.applied 1 Nat.one_pos (by decide +kernel) (by decide +kernel)
    have hx' : (c'.replicas "a").node.appliedAt 1 = some ⟨1, 1, .dot "x" "board"⟩ := by
      decide +kernel
    have hy' : (stranded.replicas "b").node.appliedAt 1 = some ⟨1, 2, .dot "y" "board"⟩ := by
      decide +kernel
    rw [hx'] at hx
    rw [hy', ← hx] at hy
    exact absurd hy (by decide)

end QuorumCanvas
