import QuorumCanvas.CatchUps
import QuorumCanvas.LogRepair
import QuorumCanvas.ReadIndex

/-!
# Catching up takes two rounds

A follower that holds nothing but the front of what another replica has committed, after a
restart, a partition or on an empty disk, asks it for what follows.  When the other has compacted
that away, the answer is a snapshot, and the entries behind it come with the next answer.  So two
rounds bring the follower level, whatever the logs, the snapshots and the distance, and further
rounds change nothing (`catch_up_completes`).
-/

namespace QuorumCanvas

namespace RaftNode

variable {F F' R R' : RaftNode} {result : SyncLogResult}

/-- One round of `requestCatchUp`: the follower asks, the responder answers. -/
def catchUp (pair : RaftNode × RaftNode) : RaftNode × RaftNode :=
  let (responder, result) := pair.2.handleSyncLog pair.1.syncLogArgs
  (pair.1.onSyncLogReply result, responder)

/-- What answering leaves alone. -/
structure Same (R R' : RaftNode) : Prop where
  coherent : R'.Coherent
  fullLog : R'.fullLog = R.fullLog
  commitIndex : R'.commitIndex = R.commitIndex
  boundary : R'.log.lastIncludedIndex = R.log.lastIncludedIndex

theorem Same.refl (hR : R.Coherent) : Same R R := ⟨hR, rfl, rfl, rfl⟩

theorem Same.trans {R'' : RaftNode} (h : Same R R') (h' : Same R' R'') : Same R R'' where
  coherent := h'.coherent
  fullLog := h'.fullLog.trans h.fullLog
  commitIndex := h'.commitIndex.trans h.commitIndex
  boundary := h'.boundary.trans h.boundary

/-- The handler answers from the node that has taken over a newer term. -/
theorem handleSyncLog_of_base {args : SyncLogArgs} {m : RaftNode}
    (hbase : (if R.currentTerm < args.term then R.becomeFollower args.term none none else R) = m) :
    R.handleSyncLog args =
      match if args.fromIndex ≤ m.log.lastIncludedIndex then m.persistence.loadSnapshot
        else none with
      | some snapshot => (m, ⟨m.currentTerm, [], m.commitIndex, some snapshot⟩)
      | none => (m, ⟨m.currentTerm,
          (m.log.getEntriesFrom args.fromIndex).filter fun e => e.index ≤ m.commitIndex,
          m.commitIndex, none⟩) := by
  subst hbase
  rfl

/-- **The answer** is the snapshot, when the follower is behind it, or else the committed entries
that follow. -/
theorem handleSyncLog_answers (hR : R.Coherent) (args : SyncLogArgs) :
    Same R (R.handleSyncLog args).1 ∧
      (R.handleSyncLog args).2.commitIndex = R.commitIndex ∧
      (args.fromIndex ≤ R.log.lastIncludedIndex → 0 < args.fromIndex →
        ∃ s, (R.handleSyncLog args).2.snapshot = some s ∧ (R.handleSyncLog args).2.entries = [] ∧
          s.WellFormed ∧ s.lastIncludedIndex = R.log.lastIncludedIndex ∧
          s.entries = R.fullLog.take R.log.lastIncludedIndex) ∧
      (R.log.lastIncludedIndex < args.fromIndex →
        (R.handleSyncLog args).2.snapshot = none ∧ (R.handleSyncLog args).2.entries =
          (R.fullLog.take R.commitIndex).drop (args.fromIndex - 1)) := by
  obtain ⟨m, hm, hfull, hlog, hcommit, hrun⟩ : ∃ m : RaftNode, m.Coherent ∧
      m.fullLog = R.fullLog ∧ m.log = R.log ∧ m.commitIndex = R.commitIndex ∧ R.handleSyncLog args =
        match if args.fromIndex ≤ m.log.lastIncludedIndex then m.persistence.loadSnapshot
          else none with
        | some snapshot => (m, ⟨m.currentTerm, [], m.commitIndex, some snapshot⟩)
        | none => (m, ⟨m.currentTerm,
            (m.log.getEntriesFrom args.fromIndex).filter fun e => e.index ≤ m.commitIndex,
            m.commitIndex, none⟩) := by
    by_cases hlt : R.currentTerm < args.term
    · have hstep : Evolves True (fun _ _ _ => True) R (R.becomeFollower args.term none none) ∧
          (R.becomeFollower args.term none none).fullLog = R.fullLog ∧
          (R.becomeFollower args.term none none).currentTerm = args.term := by
        apply evolves_becomeFollower hR none none <;> trivial
      obtain ⟨hev, hfull, -⟩ := hstep
      refine ⟨R.becomeFollower args.term none none, hev.coherent, hfull,
        becomeFollower_log R _ _ _, commitIndex_of_marks (marks_becomeFollower R _ _ _), ?_⟩
      apply handleSyncLog_of_base
      exact if_pos hlt
    · refine ⟨R, hR, rfl, rfl, rfl, ?_⟩
      apply handleSyncLog_of_base
      exact if_neg hlt
  have hsame : Same R m := ⟨hm, hfull, hcommit, congrArg RaftLog.lastIncludedIndex hlog⟩
  by_cases hbehind : args.fromIndex ≤ R.log.lastIncludedIndex
  · rw [if_pos (hlog ▸ hbehind)] at hrun
    cases hfile : m.persistence.loadSnapshot with
    | none =>
        -- only a log that was never compacted has no snapshot
        rw [hfile] at hrun
        refine ⟨hrun ▸ hsame, hrun ▸ hcommit, fun _ hpos => ?_, fun hbeyond => by omega⟩
        have hboundary : 0 < m.log.lastIncludedIndex := by
          rw [hlog]
          omega
        obtain ⟨s, hs, -⟩ := hm.boundarySnapshot hboundary
        rw [hfile] at hs
        cases hs
    | some s =>
        rw [hfile] at hrun
        refine ⟨hrun ▸ hsame, hrun ▸ hcommit, fun _ hpos => ?_, fun hbeyond => by omega⟩
        have hboundary : 0 < m.log.lastIncludedIndex := by
          rw [hlog]
          omega
        obtain ⟨s', hs', hwf, hindex, hentries⟩ := hm.boundarySnapshot hboundary
        obtain rfl := Option.some.inj (hfile.symm.trans hs')
        rw [hlog] at hindex hentries
        rw [hfull] at hentries
        exact ⟨s, by rw [hrun], by rw [hrun], hwf, hindex, hentries⟩
  · rw [if_neg (hlog ▸ hbehind)] at hrun
    refine ⟨hrun ▸ hsame, hrun ▸ hcommit, fun hle => absurd hle hbehind, fun hbeyond => ?_⟩
    rw [hrun]
    refine ⟨rfl, ?_⟩
    dsimp only
    unfold RaftLog.getEntriesFrom
    rw [hlog, if_neg hbehind, ← hlog, hm.entries, List.drop_drop]
    have hskip : m.log.lastIncludedIndex + (args.fromIndex - m.log.lastIncludedIndex - 1) =
        args.fromIndex - 1 := by
      rw [hlog]
      omega
    rw [hskip, hm.inOrder.filter_take, hfull, hcommit]

/-- Entries right behind the end of the log are appended, and committed as far as the responder
has. -/
theorem onSyncLogReply_appends (hF : F.Coherent) (hnone : result.snapshot = none)
    (hes : Consecutive F.fullLog.length result.entries)
    (hall : ∀ e ∈ result.entries, e.index ≤ result.commitIndex) :
    (F.onSyncLogReply result).Coherent ∧
      (F.onSyncLogReply result).fullLog = F.fullLog ++ result.entries ∧
      (F.onSyncLogReply result).commitIndex = if F.commitIndex < result.commitIndex then
        min result.commitIndex (F.fullLog ++ result.entries).length else F.commitIndex := by
  have hfilter : result.entries.filter (fun e => e.index ≤ result.commitIndex) = result.entries :=
    List.filter_eq_self.mpr fun e he => decide_eq_true (hall e he)
  obtain ⟨u, hu, hfull, hlog, hcommit, -, hreply⟩ := heard_onSyncLogReply hF result
  rw [hnone, hfilter] at hreply
  let v := u.catchUpLoop u.log.lastIncludedIndex result.entries
  have hreply : F.onSyncLogReply result = v.followCommit result.commitIndex := hreply
  rw [← hfull] at hes ⊢
  obtain ⟨hv, htake⟩ : v.Coherent ∧ v.fullLog.take u.fullLog.length = u.fullLog := by
    have hsplices : Splices u.commitIndex
        (fun _ ℓ => ℓ.take u.fullLog.length = u.fullLog) u.fullLog.length result.entries := by
      intro k e _
      refine ⟨fun _ h _ => h, fun _ _ h _ _ => h, fun ℓ e' h _ _ _ => ?_, fun ℓ h hlen => ?_⟩
      · rw [List.take_take, min_eq_left (Nat.le_add_right _ k)]
        exact h
      · rw [List.take_append_of_le_length (by omega)]
        exact h
    obtain ⟨hev, htake, -⟩ := evolves_catchUpLoop (T := True) (G := fun _ _ _ => True)
      hu rfl hes le_rfl List.take_length hsplices fun _ _ _ _ => trivial
    exact ⟨hev.coherent, htake⟩
  have hlog : v.log = u.log.appendAll result.entries :=
    (catchUpLoop_beyond rfl hes hu.getLastIndex.le).1
  have hboundary : u.log.lastIncludedIndex ≤ u.fullLog.length := hu.boundary_le.trans hu.commit_le
  have hlength : u.log.entries.length = u.fullLog.length - u.log.lastIncludedIndex := by
    rw [hu.entries, List.length_drop]
  -- behind its end the log goes on with the entries of the reply
  have hdrop : v.fullLog.drop u.fullLog.length = result.entries := by
    have hentries := hv.entries
    rw [hlog] at hentries
    have hskip : u.log.lastIncludedIndex + u.log.entries.length = u.fullLog.length := by omega
    calc v.fullLog.drop u.fullLog.length
        = (v.fullLog.drop u.log.lastIncludedIndex).drop u.log.entries.length := by
          rw [List.drop_drop, hskip]
      _ = (u.log.entries ++ result.entries).drop u.log.entries.length := by
          exact congrArg (List.drop u.log.entries.length) hentries.symm
      _ = result.entries := List.drop_left
  have hwhole : v.fullLog = u.fullLog ++ result.entries := by
    rw [← List.take_append_drop u.fullLog.length v.fullLog, htake, hdrop]
  have hmarks : v.commitIndex = u.commitIndex :=
    commitIndex_of_marks (marks_catchUpLoop u u.log.lastIncludedIndex result.entries)
  obtain ⟨hcoh, hsame, hcommit'⟩ := hv.followCommit result.commitIndex
  rw [hreply, hsame, hcommit', hwhole, hmarks, hcommit]
  exact ⟨hcoh, rfl, rfl⟩

/-! ## Rounds -/

/-- The follower holds, and has committed, exactly what the responder has committed. -/
structure Level (F R : RaftNode) : Prop where
  coherent : F.Coherent
  fullLog : F.fullLog = R.fullLog.take R.commitIndex
  commitIndex : F.commitIndex = R.commitIndex

/-- Being level depends on the responder's log and commit index. -/
theorem Level.same (h : Level F R) (hR : Same R R') : Level F R' where
  coherent := h.coherent
  fullLog := by rw [h.fullLog, hR.fullLog, hR.commitIndex]
  commitIndex := h.commitIndex.trans hR.commitIndex.symm

/-- **A round within reach of the log** brings the follower level. -/
theorem level_catchUp (hF : F.Coherent) (hR : R.Coherent)
    (hbehind : F.fullLog <+: R.fullLog.take R.commitIndex)
    (hreach : R.log.lastIncludedIndex ≤ F.fullLog.length) :
    Same R (catchUp (F, R)).2 ∧ Level (catchUp (F, R)).1 R := by
  obtain ⟨hsame, hcommit, -, hanswer⟩ := handleSyncLog_answers hR F.syncLogArgs
  have hfrom : F.syncLogArgs.fromIndex = F.fullLog.length + 1 :=
    congrArg (· + 1) hF.getLastIndex
  obtain ⟨hnone, hentries⟩ := hanswer (by omega)
  rw [hfrom, Nat.add_sub_cancel] at hentries
  have hcommitted : (R.fullLog.take R.commitIndex).length = R.commitIndex := by
    rw [List.length_take, min_eq_left hR.commit_le]
  have hes : Consecutive F.fullLog.length (R.handleSyncLog F.syncLogArgs).2.entries := by
    intro k e hk
    rw [hentries, List.getElem?_drop] at hk
    exact (hR.inOrder.take _) _ e hk
  have hall : ∀ e ∈ (R.handleSyncLog F.syncLogArgs).2.entries,
      e.index ≤ (R.handleSyncLog F.syncLogArgs).2.commitIndex := by
    intro e he
    rw [hentries] at he
    obtain ⟨k, hk⟩ := List.mem_iff_getElem?.mp (List.mem_of_mem_drop he)
    have hindex := (hR.inOrder.take _) k e hk
    have hlt := (List.getElem?_eq_some_iff.mp hk).1
    omega
  obtain ⟨hcoh, hfull, hcommit'⟩ := onSyncLogReply_appends hF hnone hes hall
  have hwhole : F.fullLog ++ (R.handleSyncLog F.syncLogArgs).2.entries =
      R.fullLog.take R.commitIndex := by
    rw [hentries]
    obtain ⟨rest, hrest⟩ := hbehind
    rw [← hrest, List.drop_left]
  refine ⟨hsame, hcoh, hfull.trans hwhole, ?_⟩
  rw [hwhole, hcommitted, hcommit, min_self] at hcommit'
  have hle : F.commitIndex ≤ R.commitIndex := by
    have hshort := hbehind.length_le
    have hown := hF.commit_le
    omega
  refine hcommit'.trans ?_
  split
  · rfl
  · omega

/-- **A round beyond reach of the log** brings the follower to the responder's snapshot. -/
theorem catchUp_installs (hF : F.Coherent) (hR : R.Coherent)
    (hbeyond : F.fullLog.length < R.log.lastIncludedIndex) :
    Same R (catchUp (F, R)).2 ∧ (catchUp (F, R)).1.Coherent ∧
      (catchUp (F, R)).1.fullLog = R.fullLog.take R.log.lastIncludedIndex := by
  obtain ⟨hsame, -, hanswer, -⟩ := handleSyncLog_answers hR F.syncLogArgs
  have hfrom : F.syncLogArgs.fromIndex = F.fullLog.length + 1 :=
    congrArg (· + 1) hF.getLastIndex
  obtain ⟨s, hsome, hnil, hwf, hindex, hentries⟩ := hanswer (by omega) (by omega)
  obtain ⟨hcoh, hfull, -⟩ := onSyncLogReply_snapshot hF hsome hnil hwf
  have hahead : F.commitIndex < s.lastIncludedIndex := by
    have hown := hF.commit_le
    omega
  refine ⟨hsame, hcoh, hfull.trans ?_⟩
  rw [if_pos hahead, List.drop_eq_nil_of_le (by omega), List.append_nil, hentries]

/-- **Two rounds are enough** to come level, and further rounds change nothing. -/
theorem level_rounds (hF : F.Coherent) (hR : R.Coherent)
    (hbehind : F.fullLog <+: R.fullLog.take R.commitIndex) (k : ℕ) :
    Same R (catchUp^[k + 2] (F, R)).2 ∧ Level (catchUp^[k + 2] (F, R)).1 R := by
  have hprefix : R.fullLog.take R.log.lastIncludedIndex <+: R.fullLog.take R.commitIndex :=
    List.take_prefix_take_left hR.boundary_le
  have hboundary : R.log.lastIncludedIndex ≤ R.commitIndex := hR.boundary_le
  have hcommitted : (R.fullLog.take R.commitIndex).length = R.commitIndex := by
    rw [List.length_take, min_eq_left hR.commit_le]
  -- a level follower stays level
  have hstays : ∀ pair : RaftNode × RaftNode, Same R pair.2 → Level pair.1 R →
      Same R (catchUp pair).2 ∧ Level (catchUp pair).1 R := by
    rintro ⟨F', R'⟩ hsame hlevel
    simp only at hsame hlevel
    have hlevel' := hlevel.same hsame
    have hfront : F'.fullLog <+: R'.fullLog.take R'.commitIndex := by
      rw [hlevel'.fullLog]
    obtain ⟨hsame', hagain⟩ := level_catchUp hlevel.coherent hsame.coherent hfront (by
        rw [hsame.boundary, hlevel.fullLog, hcommitted]
        exact hboundary)
    exact ⟨hsame.trans hsame', ⟨hagain.coherent, by rw [hagain.fullLog, hsame.fullLog,
      hsame.commitIndex], hagain.commitIndex.trans hsame.commitIndex⟩⟩
  induction k with
  | zero =>
      rw [Function.iterate_succ_apply', Function.iterate_one]
      by_cases hreach : R.log.lastIncludedIndex ≤ F.fullLog.length
      · obtain ⟨hsame, hlevel⟩ := level_catchUp hF hR hbehind hreach
        exact hstays _ hsame hlevel
      · obtain ⟨hsame, hcoh, hfull⟩ := catchUp_installs hF hR (not_le.mp hreach)
        generalize catchUp (F, R) = pair at hsame hcoh hfull
        obtain ⟨F', R'⟩ := pair
        simp only at hsame hcoh hfull
        have hlength : F'.fullLog.length = R.log.lastIncludedIndex := by
          rw [hfull, List.length_take, min_eq_left (hboundary.trans hR.commit_le)]
        obtain ⟨hsame', hlevel⟩ := level_catchUp hcoh hsame.coherent (by
          rw [hfull, hsame.fullLog, hsame.commitIndex]
          exact hprefix) (by rw [hsame.boundary, hlength])
        exact ⟨hsame.trans hsame', ⟨hlevel.coherent, by rw [hlevel.fullLog, hsame.fullLog,
          hsame.commitIndex], hlevel.commitIndex.trans hsame.commitIndex⟩⟩
  | succ k ih =>
      rw [Function.iterate_succ_apply']
      exact hstays _ ih.1 ih.2

/-- A node whose boards show what it has applied, `__proto__` excepted. -/
abbrev Showing (n : RaftNode) : Prop := KeptNode (fun _ => True) (· ≠ "__proto__") n

/-- A round keeps the boards in step, on both sides. -/
theorem showing_catchUp (hF : F.Showing) (hR : R.Showing) :
    (catchUp (F, R)).1.Showing ∧ (catchUp (F, R)).2.Showing := by
  have hinv := kept_localInvariant sparesProto Config.solo
  have hasked : KeptRequest (fun _ => True) (· ≠ "__proto__") (.syncLog F.syncLogArgs) := trivial
  have hanswered := hinv.answer R (.syncLog F.syncLogArgs) hR hasked
  exact ⟨(hinv.step F (.onSyncLogReply (R.handleSyncLog F.syncLogArgs).2) hF hanswered).1,
    (hinv.step R (.handle (.syncLog F.syncLogArgs)) hR hasked).1⟩

/-- Both nodes show what they have applied, round after round. -/
theorem showing_rounds (hF : F.Showing) (hR : R.Showing) (k : ℕ) :
    (catchUp^[k] (F, R)).1.Showing ∧ (catchUp^[k] (F, R)).2.Showing := by
  induction k with
  | zero => exact ⟨hF, hR⟩
  | succ k ih =>
      rw [Function.iterate_succ_apply']
      exact showing_catchUp ih.1 ih.2

/-- **Catch-up completes.**  Let a follower hold nothing but what the responder has committed,
however little of it.  After two rounds, or more, it holds and has applied exactly that, shows the
same strokes on every board (but `__proto__`), and the responder's log is as it was. -/
theorem catch_up_completes {F R : RaftNode} (hF : F.Coherent) (hR : R.Coherent) (hF' : F.Showing)
    (hR' : R.Showing) (hbehind : F.fullLog <+: R.fullLog.take R.commitIndex) (k : ℕ) :
    Same R (catchUp^[k + 2] (F, R)).2 ∧ Level (catchUp^[k + 2] (F, R)).1 R ∧
      ∀ boardId, boardId ≠ "__proto__" →
        (catchUp^[k + 2] (F, R)).1.getStrokes boardId = R.getStrokes boardId := by
  obtain ⟨hsame, hlevel⟩ := level_rounds hF hR hbehind k
  have hhistory : (catchUp^[k + 2] (F, R)).1.history = R.history := by
    rw [hlevel.coherent.history, hR.history, hlevel.fullLog, hlevel.commitIndex, List.take_take,
      min_self]
  refine ⟨hsame, hlevel, fun boardId hboard => ?_⟩
  rw [(showing_rounds hF' hR' (k + 2)).1.getStrokes hboard, hR'.getStrokes hboard, hhistory]

/-- A leader that has compacted its first two entries and committed a third. -/
def advanced : RaftNode :=
  let leader := (construct ⟨"a", [], "a", 2, 64⟩ (.fresh .file)).becomeCandidate.becomeLeader
  let compacted := ((leader.clientAppend (.dot "x" "board")).clientAppend
    (.dot "y" "board")).updateCommitIndex
  (compacted.clientAppend (.dot "z" "board")).updateCommitIndex

/-- The responder is in order. -/
theorem sure_advanced : Sure ⟨"a", [], "a", 2, 64⟩ advanced := by
  have hexec : Runs.exec (fun n step => some (Step.run ⟨"a", [], "a", 2, 64⟩ n step))
      (construct ⟨"a", [], "a", 2, 64⟩ (.fresh .file))
      [.operate .becomeCandidate, .operate .becomeLeader,
        .operate (.clientAppend (.dot "x" "board")), .operate (.clientAppend (.dot "y" "board")),
        .operate .updateCommitIndex, .operate (.clientAppend (.dot "z" "board")),
        .operate .updateCommitIndex] = some advanced := rfl
  refine sure_endures (.of_exec hexec ?_)
  exact .cons trivial rfl (.cons trivial rfl (.cons trivial rfl (.cons trivial rfl
    (.cons trivial rfl (.cons trivial rfl (.cons trivial rfl .nil))))))

/-- An empty replica gets the snapshot, then the entry behind it. -/
theorem catch_up_completes_wiped :
    let wiped := construct ⟨"b", ["a"], "b", 64, 64⟩ (.fresh .file)
    advanced.log.lastIncludedIndex = 2 ∧ (catchUp^[1] (wiped, advanced)).1.commitIndex = 2 ∧
      Level (catchUp^[2] (wiped, advanced)).1 advanced ∧
      (catchUp^[2] (wiped, advanced)).1.getStrokes "board" = advanced.getStrokes "board" := by
  intro wiped
  have hsure := sure_fresh ⟨"b", ["a"], "b", 64, 64⟩
  have h := catch_up_completes hsure.coherent sure_advanced.coherent hsure.kept
    sure_advanced.kept List.nil_prefix 0
  exact ⟨by decide, by decide, h.2.1, h.2.2 "board" (by decide)⟩

end RaftNode

end QuorumCanvas
