import QuorumCanvas.Accepting
import QuorumCanvas.Applied
import QuorumCanvas.LedgerRuns
import QuorumCanvas.ReadIndex

/-!
# What careful runs agree on

A careful run is entered in one ledger, and whatever a replica has committed is
settled in it.  So a heartbeat commits what its sender holds, two replicas apply
the same entries, and an acknowledged write is in the log of every later leader.
-/

namespace QuorumCanvas

open Ledger (History Standing SameTermAt)

/-! ## Heartbeats -/

namespace RaftNode

/-- What `n'` has committed beyond `n`, node `m` holds as well, in term and stroke. -/
def CommitsAgreed (n n' m : RaftNode) : Prop :=
  ∀ k, n.commitIndex < k → k ≤ n'.commitIndex → ∃ e e', n'.fullLog[k - 1]? = some e ∧
    m.fullLog[k - 1]? = some e' ∧ e.term = e'.term ∧ e.stroke = e'.stroke

/-- The leader's commit index is followed to the end of the log. -/
theorem commitIndex_handleHeartbeat (n : RaftNode) {args : HeartbeatArgs}
    (hle : n.currentTerm ≤ args.term) :
    (n.handleHeartbeat args).1.commitIndex =
      if n.commitIndex < args.leaderCommit then min args.leaderCommit n.log.getLastIndex
      else n.commitIndex := by
  have hci := commitIndex_of_marks (marks_hearLeader n args.term args.leaderId args.leaderAddr)
  have hlog := hearLeader_log n args.term args.leaderId args.leaderAddr
  unfold handleHeartbeat
  rw [if_neg (Nat.not_lt.mpr hle)]
  dsimp only
  rw [commitIndex_followCommit, hci, hlog]

/-- A heartbeat changes no entry. -/
theorem Coherent.fullLog_handleHeartbeat {n : RaftNode} (hn : n.Coherent) (args : HeartbeatArgs) :
    (n.handleHeartbeat args).1.fullLog = n.fullLog :=
  (evolves_handleHeartbeat (T := True) (G := fun _ _ _ => True) hn trivial (fun _ => trivial)
    fun _ _ => trivial).2

/-- What a heartbeat newly commits is the sender's, exactly when the two nodes agree on
the last entry that it commits. -/
theorem commitsAgreed_handleHeartbeat {L : History String LogEntry} {members : Finset String}
    {v : String} {n m : RaftNode} (hL : L.Sound members) (hn : n.Coherent) (hm : m.Coherent)
    {args : HeartbeatArgs} (hle : n.currentTerm ≤ args.term)
    (hst : Standing L members v args.term n.fullLog n.commitIndex)
    (hback : Backs L members m args.leaderCommit args.term) :
    CommitsAgreed n (n.handleHeartbeat args).1 m ↔
      n.Agrees m (min args.leaderCommit n.log.getLastIndex) := by
  have hcommit := hn.commit_le
  unfold CommitsAgreed
  rw [hn.fullLog_handleHeartbeat, commitIndex_handleHeartbeat n hle, hn.getLastIndex]
  constructor
  · intro hagreed
    by_cases hlt : n.commitIndex < min args.leaderCommit n.fullLog.length
    · rw [if_pos (hlt.trans_le (min_le_left _ _))] at hagreed
      obtain ⟨e, e', he, he', hterm, -⟩ := hagreed _ hlt le_rfl
      exact Or.inr ⟨e, e', by omega, he, he', hterm⟩
    · exact Or.inl (Nat.not_lt.mp hlt)
  · intro hagree k hlo hhi
    by_cases hlt : n.commitIndex < args.leaderCommit
    · rw [if_pos hlt] at hhi
      obtain ⟨heq, -⟩ := settled_of_agrees hL hm hst rfl hback (min_le_left _ _) hagree
      have hkn : k - 1 < n.fullLog.length := by omega
      refine ⟨n.fullLog[k - 1], n.fullLog[k - 1], List.getElem?_eq_getElem hkn, ?_, rfl, rfl⟩
      have hget := congrArg (fun ℓ => ℓ[k - 1]?) heq
      simp only [List.getElem?_take] at hget
      rw [if_pos (by omega), if_pos (by omega), if_pos (by omega)] at hget
      rw [← hget, List.getElem?_eq_getElem hkn]
    · rw [if_neg hlt] at hhi
      omega

end RaftNode

variable {cfg : Config} {c c' : Cluster} {i j : String}

/-- **Heartbeats commit agreed entries.**  In a careful run, a heartbeat commits on
its receiver what its sender holds, exactly when the two agree on the term of the
last entry that it commits. -/
theorem heartbeat_commits_agreed (cfg : Config) [cfg.OnFiles] {c c' : Cluster} {packet : Packet}
    {args : HeartbeatArgs} (h : Cluster.Reach cfg (Cluster.Careful cfg) (.init cfg) c)
    (hreq : packet.request = .heartbeat args)
    (hle : (c.replicas packet.dst).node.currentTerm ≤ args.term)
    (hnext : Cluster.next cfg c (.act (.deliver packet)) = some c') :
    RaftNode.CommitsAgreed (c.replicas packet.dst).node (c'.replicas packet.dst).node
        (c.replicas packet.src).node ↔
      (c.replicas packet.dst).node.Agrees (c.replicas packet.src).node
        (min args.leaderCommit (c.replicas packet.dst).node.log.getLastIndex) := by
  obtain ⟨L, H, -, hc⟩ := (ledgered_init cfg).reach h
  -- the delivery is a call of `handleHeartbeat`
  obtain ⟨hdst, hmem, hnode⟩ : packet.dst ∈ cfg.members ∧ packet ∈ c.wire ∧
      (c'.replicas packet.dst).node =
        ((c.replicas packet.dst).node.beginTurn.handleHeartbeat args).1 := by
    simp only [Cluster.next, Option.ite_none_right_eq_some, Option.map_eq_some_iff] at hnext
    obtain ⟨hdst, t, ht, rfl⟩ := hnext
    simp only [Cluster.turn, Option.ite_none_right_eq_some] at ht
    obtain ⟨hmem, ht⟩ := ht
    obtain rfl := Option.some.inj ht
    refine ⟨hdst, hmem, ?_⟩
    show (((c.finishTurn packet.dst ((c.startTurn packet.dst).deliver packet))).replicas
      packet.dst).node = _
    rw [Cluster.replicas_finishTurn_self]
    show ((c.replicas packet.dst).node.beginTurn.handle packet.request).1 = _
    rw [hreq]
    rfl
  have hb := (hc.nodes _ hdst).beginTurn
  have hm := (hc.nodes _ (hc.electoral.packets packet hmem).src).coherent
  have hback : RaftNode.Backs L cfg.ids (c.replicas packet.src).node args.leaderCommit
      args.term := by
    have hsound := hc.packets packet hmem
    rw [hreq] at hsound
    exact hsound
  rw [hnode]
  exact RaftNode.commitsAgreed_handleHeartbeat hc.sound hb.coherent hm hle (hb.standing.bump hle)
    hback

/-- Leader `a` of the trio writes a dot, which reaches both peers and is committed
once `b` has acknowledged it; then it starts a read. -/
def trioWrite : List Cluster.Event :=
  trioElection ++
    [Cluster.Event.act (.clientWrite "a" (.dot "x" "board")),
      .act (.deliver ⟨4, "a", "b", .appendEntries
        ⟨1, "a", some "a", 0, 0, [⟨1, 1, .dot "x" "board"⟩], 0⟩⟩),
      .act (.deliver ⟨6, "a", "c", .appendEntries
        ⟨1, "a", some "a", 0, 0, [⟨1, 1, .dot "x" "board"⟩], 0⟩⟩),
      .act (.sendReply "a" 0 (some (.appendEntries ⟨1, true, "b", 1⟩))),
      .act (.sendReply "a" 1 none), .act (.sendFinally "a" 0), .act (.sendFinally "a" 0),
      .act (.writeResume "a" 0), .act (.readBoardState "a" "board")]

/-- The state of the trio after the first `k` events. -/
def trioAfter (k : ℕ) : Cluster := Cluster.play .trio (.init .trio) (trioWrite.take k)

/-- The first `k` of these events heed what they are told. -/
def CarefulTrio (k : ℕ) : Prop :=
  Cluster.Reach .trio (Cluster.Careful .trio) (.init .trio) (trioAfter k)

/-- One more event. -/
theorem CarefulTrio.succ {k : ℕ} (e : Cluster.Event) (h : CarefulTrio k)
    (hok : Cluster.Careful .trio (trioAfter k) e)
    (hnext : Cluster.next .trio (trioAfter k) e = some (trioAfter (k + 1))) :
    CarefulTrio (k + 1) := h.tail hok hnext

/-- Up to the acknowledgement every step heeds what it is told. -/
theorem carefulTrio_written : CarefulTrio 10 := by
  have h₁ : CarefulTrio 1 := .tail (e := .act (.electionTimeout "a")) .refl trivial (by rfl)
  have h₃ : CarefulTrio 3 :=
    (h₁.succ trioWrite[1] trivial (by rfl)).succ trioWrite[2] trivial (by rfl)
  have hself : "a" ∉ Config.trio.peers "a" := by decide
  have h₄ : CarefulTrio 4 := h₃.succ trioWrite[3] hself (by rfl)
  -- the batches reach as far as what they commit
  have h₅ : CarefulTrio 5 := h₄.succ trioWrite[4] (Or.inr (Or.inl (Nat.zero_le _))) (by rfl)
  have h₆ : CarefulTrio 6 := h₅.succ trioWrite[5] (Or.inr (Or.inl (Nat.zero_le _))) (by rfl)
  have hsend : (((trioAfter 6).replicas "a").sends[0]?).bind Send.waiting = some (4, .appendEntries
      ⟨1, "a", some "a", 0, 0, [⟨1, 1, .dot "x" "board"⟩], 0⟩) := by rfl
  have h₇ : CarefulTrio 7 := h₆.succ trioWrite[6] (by
    intro send w hk hwait
    rw [hk] at hsend
    obtain rfl := Option.some.inj (hwait.symm.trans hsend)
    exact fun _ _ _ => by rfl) (by rfl)
  exact ((h₇.succ trioWrite[7] trivial (by rfl)).succ trioWrite[8] trivial
    (by rfl)).succ trioWrite[9] trivial (by rfl)

/-- The first twelve events are careful. -/
theorem carefulTrio : CarefulTrio 12 :=
  (carefulTrio_written.succ trioWrite[10] trivial (by rfl)).succ trioWrite[11] trivial (by rfl)

/-- The heartbeat of that read to `c`. -/
def trioHeartbeat : Packet := ⟨9, "a", "c", .heartbeat ⟨1, "a", some "a", 1⟩⟩

/-- The heartbeat commits the entry that the leader has committed. -/
theorem heartbeat_commits_agreed_trio :
    let c' := Cluster.play .trio (trioAfter 12) [.act (.deliver trioHeartbeat)]
    (c'.replicas "c").node.commitIndex = 1 ∧
      RaftNode.CommitsAgreed ((trioAfter 12).replicas "c").node (c'.replicas "c").node
        ((trioAfter 12).replicas "a").node := by
  intro c'
  have hreq : trioHeartbeat.request = .heartbeat ⟨1, "a", some "a", 1⟩ := rfl
  refine ⟨by rfl, (heartbeat_commits_agreed .trio carefulTrio hreq (Nat.le_refl 1) (by rfl)).mpr ?_⟩
  exact Or.inr ⟨⟨1, 1, .dot "x" "board"⟩, ⟨1, 1, .dot "x" "board"⟩, Nat.one_pos, rfl, rfl, rfl⟩

/-- Leader `a` of term 1 writes `x`, which reaches nobody.  Then `c` elects `b` in
term 2, which writes `y`, commits it with `c`, and starts a read. -/
def contested : List Cluster.Event :=
  trioElection ++
    [Cluster.Event.act (.clientWrite "a" (.dot "x" "board")), .act (.electionTimeout "b"),
      .act (.deliver ⟨8, "b", "c", .requestVote ⟨2, "b", 0, 0⟩⟩),
      .act (.voteReply "b" 0 8 (some ⟨2, true, "c"⟩)),
      .act (.clientWrite "b" (.dot "y" "board")),
      .act (.deliver ⟨13, "b", "c", .appendEntries
        ⟨2, "b", some "b", 0, 0, [⟨1, 2, .dot "y" "board"⟩], 0⟩⟩),
      .act (.sendReply "b" 1 (some (.appendEntries ⟨2, true, "c", 1⟩))),
      .act (.sendReply "b" 0 none), .act (.sendFinally "b" 0), .act (.sendFinally "b" 0),
      .act (.writeResume "b" 0), .act (.readBoardState "b" "board")]

/-- The heartbeat of that read to `a`. -/
def contestedHeartbeat : Packet := ⟨15, "b", "a", .heartbeat ⟨2, "b", some "b", 1⟩⟩

/-- **A heartbeat can commit what its sender does not hold:** `a` commits its `x` on
the word of a leader that has committed `y` there. -/
theorem heartbeat_commits_stray :
    let c := Cluster.play .trio (.init .trio) contested
    let c' := Cluster.play .trio c [.act (.deliver contestedHeartbeat)]
    Cluster.Reach .trio Runs.Any (.init .trio) c ∧
      (c.replicas "b").node.state = .leader ∧ (c.replicas "b").node.currentTerm = 2 ∧
      (c.replicas "b").node.commitIndex = 1 ∧ (c.replicas "a").node.currentTerm ≤ 2 ∧
      Cluster.next .trio c (.act (.deliver contestedHeartbeat)) = some c' ∧
      ¬ RaftNode.CommitsAgreed (c.replicas "a").node (c'.replicas "a").node
        (c.replicas "b").node := by
  intro c c'
  refine ⟨Cluster.reach_play (by rfl), by rfl, by rfl, by rfl, Nat.le_succ 1, by rfl, fun h => ?_⟩
  obtain ⟨e, e', he, he', hterm, -⟩ := h 1 Nat.one_pos (Nat.le_refl 1)
  have hx : (c'.replicas "a").node.fullLog[0]? = some ⟨1, 1, .dot "x" "board"⟩ := by rfl
  have hy : (c.replicas "b").node.fullLog[0]? = some ⟨1, 2, .dot "y" "board"⟩ := by rfl
  obtain rfl := Option.some.inj (hx.symm.trans he)
  obtain rfl := Option.some.inj (hy.symm.trans he')
  exact absurd hterm (by decide)

/-! ## State machine safety -/

variable {L : History String LogEntry} {H : Ballots.History String} {a b : String}

/-- What two replicas have committed agrees as far as both have. -/
theorem Ledgered.take_commit (hc : Ledgered cfg L H c) (ha : a ∈ cfg.members)
    (hb : b ∈ cfg.members) {k : ℕ} (hk : k ≤ (c.replicas a).node.commitIndex)
    (hk' : k ≤ (c.replicas b).node.commitIndex) :
    (c.replicas a).node.fullLog.take k = (c.replicas b).node.fullLog.take k := by
  have hna := (hc.nodes a ha).standing
  have hnb := (hc.nodes b hb).standing
  exact hna.settled.take_eq hc.sound hnb.settled hna.commit_le hnb.commit_le hk hk'

/-- **State machine safety.**  In a careful run, two members have applied the same
entry at every index that both have applied; and once they have applied equally
much they show the same strokes on board `boardId`, provided that no client writes
to the board `__proto__` if that is the board. -/
theorem state_machine_safety (cfg : Config) [cfg.OnFiles] (boardId : String) {c : Cluster}
    {i j : String}
    (h : Cluster.Reach cfg (fun c e => c.Careful cfg e ∧
      (boardId = "__proto__" → e.AvoidsProto)) (.init cfg) c)
    (hi : i ∈ cfg.members) (hj : j ∈ cfg.members) :
    (∀ k, 0 < k → k ≤ (c.replicas i).node.lastApplied → k ≤ (c.replicas j).node.lastApplied →
        ∃ e, (c.replicas i).node.appliedAt k = some e ∧ (c.replicas j).node.appliedAt k = some e) ∧
      ((c.replicas i).node.lastApplied = (c.replicas j).node.lastApplied →
        (c.replicas i).node.getStrokes boardId = (c.replicas j).node.getStrokes boardId) := by
  obtain ⟨L, H, -, hc⟩ := (ledgered_init cfg).reach (h.mono fun _ _ hok => hok.1)
  have hni := (hc.nodes i hi).coherent
  have hnj := (hc.nodes j hj).coherent
  constructor
  · intro k hpos hki hkj
    rw [hni.applied] at hki
    rw [hnj.applied] at hkj
    have htake := hc.take_commit hi hj hki hkj
    have hget := congrArg (fun ℓ => ℓ[k - 1]?) htake
    simp only [List.getElem?_take] at hget
    rw [if_pos (by omega), if_pos (by omega)] at hget
    have hlt : k - 1 < (c.replicas i).node.fullLog.length := by
      have := hni.commit_le
      omega
    have happi := hni.appliedAt (k := k - 1) (by omega)
    have happj := hnj.appliedAt (k := k - 1) (by omega)
    rw [Nat.sub_add_cancel hpos] at happi happj
    exact ⟨_, happi.trans (List.getElem?_eq_getElem hlt),
      happj.trans (hget.symm.trans (List.getElem?_eq_getElem hlt))⟩
  · intro heq
    have hhist : (c.replicas i).node.history = (c.replicas j).node.history := by
      rw [hni.applied, hnj.applied] at heq
      rw [hni.history, hnj.history, hc.take_commit hi hj le_rfl heq.le, heq]
    -- both boards show the replay of one history
    have hinv := kept_localInvariant (B := (· = boardId))
      (C := fun e => boardId = "__proto__" → e.stroke.boardId ≠ "__proto__")
      (fun hb e he => he hb.symm) cfg
    have hkept := hinv.reach (by
      intro c e hok b stroke hevent hproto
      rcases hevent with rfl | ⟨calls, rfl⟩
      · exact hok.2 hproto stroke rfl
      · exact hok.2 hproto stroke rfl) (hinv.init keptFiles_fresh) h
    rw [(hkept.nodes i hi).getStrokes rfl, (hkept.nodes j hj).getStrokes rfl, hhist]

/-- The trio once that heartbeat has reached `c`. -/
def trioAgreed : Cluster := Cluster.play .trio (trioAfter 12) [.act (.deliver trioHeartbeat)]

/-- So is the delivery of the heartbeat. -/
theorem carefulTrio_agreed :
    Cluster.Reach .trio (Cluster.Careful .trio) (.init .trio) trioAgreed := by
  refine .tail carefulTrio ?_ (e := .act (.deliver trioHeartbeat)) (by rfl)
  exact Or.inr <| Or.inr ⟨⟨1, 1, .dot "x" "board"⟩, ⟨1, 1, .dot "x" "board"⟩, Nat.one_pos, rfl,
    rfl, rfl⟩

/-- Both replicas have applied the first entry, and show the same board. -/
theorem state_machine_safety_trio :
    (∃ e, (trioAgreed.replicas "a").node.appliedAt 1 = some e ∧
        (trioAgreed.replicas "c").node.appliedAt 1 = some e) ∧
      (trioAgreed.replicas "a").node.getStrokes "board" =
        (trioAgreed.replicas "c").node.getStrokes "board" := by
  have h := state_machine_safety .trio "board" (i := "a") (j := "c")
    (carefulTrio_agreed.mono fun _ _ hok => ⟨hok, fun hb => by simp at hb⟩) (by decide) (by decide)
  exact ⟨h.1 1 Nat.one_pos (by decide +kernel) (by decide +kernel), h.2 (by decide +kernel)⟩

/-- **The same heartbeat makes two replicas differ:** `a` has applied `x` at index 1
where `b` has applied `y`, and they show different boards. -/
theorem state_machine_unsafe :
    let c := Cluster.play .trio (.init .trio)
      (contested ++ [Cluster.Event.act (.deliver contestedHeartbeat)])
    Cluster.Reach .trio Runs.Any (.init .trio) c ∧
      (c.replicas "a").node.lastApplied = 1 ∧ (c.replicas "b").node.lastApplied = 1 ∧
      (c.replicas "a").node.appliedAt 1 = some ⟨1, 1, .dot "x" "board"⟩ ∧
      (c.replicas "b").node.appliedAt 1 = some ⟨1, 2, .dot "y" "board"⟩ ∧
      (c.replicas "a").node.getStrokes "board" ≠ (c.replicas "b").node.getStrokes "board" := by
  intro c
  refine ⟨Cluster.reach_play (by rfl), by rfl, by rfl, by rfl, by rfl, ?_⟩
  have ha : (c.replicas "a").node.getStrokes "board" = [.dot "x" "board"] := by rfl
  have hb : (c.replicas "b").node.getStrokes "board" = [.dot "y" "board"] := by rfl
  rw [ha, hb]
  decide

end QuorumCanvas
