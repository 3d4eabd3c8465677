import QuorumCanvas.LeaderHints
import QuorumCanvas.TimedRuns

/-!
# A majority can elect a leader

No timed run leads the cluster into a state without a way out: from every reachable state, any
majority of the members can bring about a leader that all of them follow, without a crash and
without a turn of any other member (`majority_elects`).  Election timers fire only while they
are armed, so a candidate stands again only after its election has settled.

A member that does not lead arms its timer by settling its open election (`exists_armed`).  It
stands until its term is ahead of all of theirs, and asks them for their votes
(`exists_canvass`).  Whoever asks, nobody leads afterwards (`exists_calm`); when the one whose log
is the most up to date asks next, all grant it their votes.
-/

namespace QuorumCanvas

open RaftNode (Reply)

namespace RaftNode

/-- `m` would grant its vote to `n`, as far as their logs go. -/
def Outdates (n m : RaftNode) : Prop :=
  m.isLogUpToDate n.log.getLastIndex n.log.getLastTerm = true

/-- To be outdated is to have the earlier last term, or the shorter log. -/
theorem outdates_iff (n m : RaftNode) : n.Outdates m ↔ m.log.getLastTerm < n.log.getLastTerm ∨
    m.log.getLastTerm = n.log.getLastTerm ∧ m.log.getLastIndex ≤ n.log.getLastIndex := by
  unfold Outdates isLogUpToDate
  split
  · next hne =>
      rw [decide_eq_true_eq]
      omega
  · next heq =>
      rw [decide_eq_true_eq]
      omega

/-- One of several nodes is at least as up to date as all of them. -/
theorem exists_outdates (node : String → RaftNode) {M : List String} (hne : M ≠ []) :
    ∃ b ∈ M, ∀ a ∈ M, (node b).Outdates (node a) := by
  induction M with
  | nil => exact (hne rfl).elim
  | cons a M ih =>
      by_cases hM : M = []
      · refine ⟨a, List.mem_cons_self, fun d hd => ?_⟩
        rw [hM, List.mem_singleton] at hd
        rw [hd, outdates_iff]
        exact Or.inr ⟨rfl, le_rfl⟩
      · obtain ⟨b, hb, hbest⟩ := ih hM
        by_cases hab : (node b).Outdates (node a)
        · refine ⟨b, List.mem_cons_of_mem a hb, fun d hd => ?_⟩
          rcases List.mem_cons.mp hd with rfl | hd
          · exact hab
          · exact hbest d hd
        · refine ⟨a, List.mem_cons_self, fun d hd => ?_⟩
          rw [outdates_iff] at hab ⊢
          rcases List.mem_cons.mp hd with rfl | hd
          · exact Or.inr ⟨rfl, le_rfl⟩
          · have hbd := (outdates_iff _ _).mp (hbest d hd)
            omega

/-- `n'` follows a candidate of the given term, with the log of `n`. -/
structure Defers (term : ℕ) (n n' : RaftNode) : Prop where
  state : n'.state = .follower
  currentTerm : n'.currentTerm = term
  log : n'.log = n.log

/-- A node that steps down for the term can vote in it. -/
theorem defers_becomeFollower (n : RaftNode) (term : ℕ) (leaderId leaderAddr : Option String) :
    Defers term n (n.becomeFollower term leaderId leaderAddr) := by
  unfold becomeFollower
  dsimp only
  split <;> exact ⟨rfl, rfl, rfl⟩

/-- A vote request of a later term makes a node step down. -/
theorem defers_handleRequestVote (n : RaftNode) {args : RequestVoteArgs}
    (hterm : n.currentTerm < args.term) : Defers args.term n (n.handleRequestVote args).1 := by
  have hdown := defers_becomeFollower n args.term none none
  unfold handleRequestVote
  rw [if_pos hterm]
  dsimp only
  split
  · exact ⟨hdown.state, rfl, hdown.log⟩
  · exact hdown

/-- **A vote is granted** to a candidate of a later term whose log is up to date. -/
theorem handleRequestVote_grants (n : RaftNode) {args : RequestVoteArgs}
    (hterm : n.currentTerm < args.term)
    (hlog : n.isLogUpToDate args.lastLogIndex args.lastLogTerm = true) :
    (n.handleRequestVote args).2 = ⟨args.term, true, n.replicaId⟩ := by
  have hdown : (n.becomeFollower args.term none none).currentTerm = args.term ∧
      (n.becomeFollower args.term none none).votedFor = none ∧
      (n.becomeFollower args.term none none).log = n.log ∧
      (n.becomeFollower args.term none none).replicaId = n.replicaId := by
    unfold becomeFollower
    dsimp only
    split <;> exact ⟨rfl, rfl, rfl, rfl⟩
  obtain ⟨hterm', hvote, hlog', hid⟩ := hdown
  have huptodate : (n.becomeFollower args.term none none).isLogUpToDate args.lastLogIndex
      args.lastLogTerm = true := by
    unfold isLogUpToDate at hlog ⊢
    rw [hlog']
    exact hlog
  unfold handleRequestVote
  rw [if_pos hterm]
  simp [hterm', hvote, huptodate, hid, resetElectionTimer, persistState, persist]

end RaftNode

namespace Cluster

variable {cfg : Config} {c c' c'' : Cluster} {M : List String} {a b : String}
  {H : Ballots.History String}

/-- Only replicas of `M` take turns, and every turn runs to its end. -/
def Only (M : List String) (_ : Cluster) (e : Event) : Prop :=
  ∃ action : Action, e = .act action ∧ action.replica ∈ M

/-- A turn that comes from no timer. -/
theorem reach_act (action : Action) {t : Turn} (hM : action.replica ∈ M)
    (ha : action.replica ∈ cfg.members) (hring : c.ring action = some c)
    (ht : c.turn action = some t) :
    TimedReach cfg (Only M) c (c.finishTurn action.replica t) := by
  have hstep : timed cfg c (.act action) = some (c.finishTurn action.replica t) := by
    simp only [timed, hring, Option.bind_some, next, if_pos ha, ht, Option.map_some]
  have hok : Only M c (.act action) := ⟨action, rfl, hM⟩
  exact Runs.Reach.refl.tail hok hstep

/-- Only replica `b` has changed, and not in its log. -/
structure Apart (b : String) (c c' : Cluster) : Prop where
  others : ∀ a, a ≠ b → c'.replicas a = c.replicas a
  log : (c'.replicas b).node.log = (c.replicas b).node.log

theorem Apart.trans (h : Apart b c c') (h' : Apart b c' c'') : Apart b c c'' :=
  ⟨fun a ha => (h'.others a ha).trans (h.others a ha), h'.log.trans h.log⟩

/-! ## Standing for election -/

/-- Replica `b` stands in election `e`, its `k`-th. -/
structure Standing (c : Cluster) (b : String) (k : ℕ) (e : Election) : Prop where
  state : (c.replicas b).node.state = .candidate
  term : (c.replicas b).node.currentTerm = e.term
  election : (c.replicas b).elections[k]? = some e
  settled : e.settled = false

/-- Replica `b` does not lead, and is about to time out. -/
structure Restless (cfg : Config) (c : Cluster) (b : String) : Prop where
  params : (c.replicas b).node.params = cfg.params b
  state : (c.replicas b).node.state ≠ .leader
  armed : (c.replicas b).node.timers.electionTimer = true
  callback : (c.replicas b).node.timers.electionCallback = true

/-- All peers have just been asked for their votes. -/
structure Asking (cfg : Config) (c : Cluster) (b : String) (e : Election) : Prop where
  params : (c.replicas b).node.params = cfg.params b
  callback : (c.replicas b).node.timers.electionCallback = true
  tallied : Alone.Tallied e
  short : Alone.Short (c.replicas b).node e
  votes : e.votesGranted = 1
  peers : e.awaiting.map Prod.snd = cfg.peers b
  sent : ∀ q ∈ e.awaiting,
    ⟨q.1, b, q.2, .requestVote (c.replicas b).node.requestVoteArgs⟩ ∈ c.wire

/-- An election timeout, on a replica that has peers and is about to time out. -/
theorem exists_timeout (hM : b ∈ M) (hb : b ∈ cfg.members) (hrest : Restless cfg c b)
    (hpeers : cfg.peers b ≠ []) :
    ∃ c' k e, TimedReach cfg (Only M) c c' ∧ Apart b c c' ∧
      (c'.replicas b).node.currentTerm = (c.replicas b).node.currentTerm + 1 ∧
      Standing c' b k e ∧ Asking cfg c' b e := by
  let c₀ := c.expire b
  let t := c₀.startTurn b
  let n := t.replica.node.becomeCandidate
  have hnode : (c₀.replicas b).node = (c.replicas b).node.expireElectionTimer :=
    congrArg Replica.node (replicas_expire_self c b)
  have hstart : t.replica.node = (c.replicas b).node.expireElectionTimer.beginTurn :=
    congrArg RaftNode.beginTurn hnode
  have hparams : n.params = cfg.params b := by
    show t.replica.node.params = _
    rw [hstart]
    exact hrest.params
  have hmine : n.peers = cfg.peers b := congrArg RaftNode.Params.peers hparams
  have hself : n.selfUrl = b := congrArg RaftNode.Params.selfUrl hparams
  have hopen : t.openElection n = (n, t.newElection n) := by
    unfold Turn.openElection
    rw [if_neg (hmine ▸ hpeers)]
  have hturn : c₀.turn (.electionTimeout b) = some t.runElection := by
    refine if_neg ?_
    show t.replica.node.state ≠ .leader
    rw [hstart]
    exact hrest.state
  have hstep : timed cfg c (.act (.electionTimeout b)) =
      some (c₀.finishTurn b t.runElection) := by
    have hring : c.ring (.electionTimeout b) = some c₀ := if_pos hrest.armed
    have hmember : (Action.electionTimeout b).replica ∈ cfg.members := hb
    simp only [timed, hring, Option.bind_some, next, if_pos hmember, hturn, Option.map_some]
    rfl
  have hrun : t.runElection =
      { ((t.setNode n).setElections (t.replica.elections ++ [t.newElection n])) with
        fresh := t.fresh + n.peers.length
        sent := ((t.setNode n).setElections (t.replica.elections ++ [t.newElection n])).packets
          (.requestVote n.requestVoteArgs) n.peers } := by
    have hall := Turn.sendAll_eq ((t.setNode n).setElections
      (t.replica.elections ++ [t.newElection n])) (.requestVote n.requestVoteArgs) n.peers
    have hstart : t.runElection = ((t.setNode (t.openElection n).1).setElections
        (t.replica.elections ++ [(t.openElection n).2])).sendAll
          (.requestVote n.requestVoteArgs) n.peers := rfl
    rw [hstart, hopen, hall]
    rfl
  have hreplica : (c₀.finishTurn b t.runElection).replicas b =
      { c₀.replicas b with
        node := n, elections := (c₀.replicas b).elections ++ [t.newElection n] } := by
    rw [replicas_finishTurn_self, hrun]
    rfl
  have hfst : (t.newElection n).awaiting.map Prod.fst = t.promises n.peers :=
    List.map_fst_zip List.length_range'.le
  refine ⟨c₀.finishTurn b t.runElection, (c₀.replicas b).elections.length, t.newElection n,
    Runs.Reach.refl.tail (⟨.electionTimeout b, rfl, hM⟩ : Only M c _) hstep, ⟨fun a ha => ?_, ?_⟩,
      ?_, ?_, ?_⟩
  · exact (replicas_finishTurn_ne c₀ _ ha).trans (replicas_expire_ne c ha)
  · rw [hreplica]
    show t.replica.node.log = _
    rw [hstart]
    rfl
  · rw [hreplica]
    show t.replica.node.currentTerm + 1 = _
    rw [hstart]
    rfl
  · refine ⟨?_, ?_, ?_, rfl⟩
    · rw [hreplica]
      rfl
    · rw [hreplica]
      rfl
    · rw [hreplica]
      exact List.getElem?_concat_length
  · refine ⟨?_, ?_, ⟨?_, ?_, fun _ => ?_⟩, ?_, rfl, ?_, fun q hq => ?_⟩
    · rw [hreplica]
      exact hparams
    · rw [hreplica]
      show t.replica.node.timers.electionCallback = true
      rw [hstart]
      exact hrest.callback
    · show n.peers.length = ((t.promises n.peers).zip n.peers).length + 0
      rw [List.length_zip, Turn.promises, List.length_range', min_self, Nat.add_zero]
    · rw [hfst]
      exact List.nodup_range'
    · show 0 < n.peers.length
      exact List.length_pos_iff.mpr (hmine ▸ hpeers)
    · rw [hreplica]
      have hshort := Alone.short_openElection t n
      rwa [hopen] at hshort
    · exact (List.map_snd_zip List.length_range'.ge).trans hmine
    · rw [hreplica]
      apply List.mem_append_right
      rw [hrun]
      apply List.mem_map.mpr
      refine ⟨q, hq, ?_⟩
      show (⟨q.1, n.selfUrl, q.2, .requestVote n.requestVoteArgs⟩ : Packet) = _
      rw [hself]

/-- The cluster after a callback of the `k`-th election of `b`. -/
def called (c : Cluster) (b : String) (k : ℕ) (n : RaftNode) (e : Election) : Cluster :=
  c.finishTurn b (((c.startTurn b).setNode n).setElections ((c.replicas b).elections.set k e))

/-- A callback changes node and election. -/
theorem replicas_called (c : Cluster) (b : String) (k : ℕ) (n : RaftNode) (e : Election) :
    (c.called b k n e).replicas b =
      { c.replicas b with node := n, elections := (c.replicas b).elections.set k e } :=
  replicas_finishTurn_self c b _

/-- It concerns no other replica. -/
theorem apart_called {k : ℕ} {n : RaftNode} (e : Election)
    (hlog : n.log = (c.replicas b).node.log) : Apart b c (c.called b k n e) := by
  refine ⟨fun a ha => replicas_finishTurn_ne c _ ha, ?_⟩
  rw [replicas_called]
  exact hlog

/-- A callback that leaves the election open leaves the replica standing. -/
theorem Standing.called {k : ℕ} {e e' : Election} (h : Standing c b k e)
    (hterm : e'.term = e.term) (hopen : e'.settled = false) :
    Standing (c.called b k (c.replicas b).node.beginTurn e') b k e' := by
  have hlt : k < (c.replicas b).elections.length := (List.getElem?_eq_some_iff.mp h.election).1
  refine ⟨?_, ?_, ?_, hopen⟩
  · rw [replicas_called]
    exact h.state
  · rw [replicas_called, hterm]
    exact h.term
  · rw [replicas_called]
    exact List.getElem?_set_self hlt

/-- The election of a standing candidate is open. -/
theorem Standing.isOpen {k : ℕ} {e : Election} (h : Standing c b k e) :
    e.Open (c.replicas b).node.beginTurn := ⟨h.settled, h.state, h.term⟩

/-- **An open election can be settled** without being won: the promises that are still awaited
fail, and with the last `finally` the election timer is armed. -/
theorem exists_settled {k : ℕ} {e : Election} (hM : b ∈ M) (hb : b ∈ cfg.members)
    (hparams : (c.replicas b).node.params = cfg.params b)
    (hcallback : (c.replicas b).node.timers.electionCallback = true)
    (hstand : Standing c b k e) (htally : Alone.Tallied e)
    (hshort : Alone.Short (c.replicas b).node e) :
    ∃ c', TimedReach cfg (Only M) c c' ∧ Apart b c c' ∧
      (c'.replicas b).node.currentTerm = (c.replicas b).node.currentTerm ∧ Restless cfg c' b := by
  -- each promise that fails and each `finally` brings the end nearer
  induction hm : 2 * e.awaiting.length + e.closing using Nat.strong_induction_on
    generalizing c e with
  | _ m ih =>
    let n := (c.replicas b).node.beginTurn
    have helection : (c.startTurn b).replica.elections[k]? = some e := hstand.election
    have hgo : ∀ e', e'.term = e.term → e'.settled = false → Alone.Tallied e' →
        e'.votesGranted = e.votesGranted → 2 * e'.awaiting.length + e'.closing < m →
        TimedReach cfg (Only M) c (c.called b k n e') →
        ∃ c', TimedReach cfg (Only M) c c' ∧ Apart b c c' ∧
          (c'.replicas b).node.currentTerm = (c.replicas b).node.currentTerm ∧
          Restless cfg c' b := by
      intro e' hterm hopen htally' hvotes hless hreach
      have hreplica := replicas_called c b k n e'
      obtain ⟨c', hreach', hapart', hterm', hrest⟩ := ih _ hless
        (c := c.called b k n e') (e := e') (by rw [hreplica]; exact hparams)
        (by rw [hreplica]; exact hcallback) (hstand.called hterm hopen) htally'
        (fun _ => by rw [hreplica, hvotes]; exact hshort hstand.settled) rfl
      refine ⟨c', hreach.trans hreach', (apart_called (n := n) e' rfl).trans hapart', ?_, hrest⟩
      rw [hterm', hreplica]
      rfl
    rcases hawaiting : e.awaiting with _ | ⟨q, rest⟩
    · have hclosing : 0 < e.closing := by
        have hpos := htally.open_pending hstand.settled
        rw [htally.pending, hawaiting] at hpos
        simpa using hpos
      have hcalled : TimedReach cfg (Only M) c (c.called b k (Turn.onVoteSettled n e).1
          (Turn.onVoteSettled n e).2) := by
        refine reach_act (.voteFinally b k) hM hb rfl ?_
        show (c.startTurn b).voteFinally k = _
        simp only [Turn.voteFinally, helection, Option.bind_eq_bind, Option.bind_some]
        rw [show guard (0 < e.closing) = some () from if_pos hclosing]
        rfl
      rw [Alone.onVoteSettled_eq] at hcalled
      split at hcalled
      · -- the last `finally`: the election is lost, and the timer armed
        next hlast =>
          have hfew : ¬ n.majority ≤ (Alone.countFinally e).votesGranted :=
            not_le.mpr (hshort hstand.settled)
          rw [Alone.finalize_open (Alone.open_countFinally.mpr hstand.isOpen),
            if_neg hfew] at hcalled
          refine ⟨_, hcalled, apart_called _ rfl, ?_, ?_⟩
          · rw [replicas_called]
            rfl
          · constructor
            · rw [replicas_called]
              exact hparams
            · rw [replicas_called]
              show n.state ≠ .leader
              rw [show n.state = .candidate from hstand.state]
              decide
            · rw [replicas_called]
              exact hcallback
            · rw [replicas_called]
              exact hcallback
      · next hmore =>
          have hpending := htally.pending
          rw [hawaiting] at hpending
          refine hgo (Alone.countFinally e) rfl hstand.settled
            ⟨?_, htally.nodup, fun _ => ?_⟩ rfl ?_
            hcalled
          · show e.pendingReplies - 1 = e.awaiting.length + (e.closing - 1)
            rw [hawaiting]
            simp only [List.length_nil] at hpending ⊢
            omega
          · show 0 < e.pendingReplies - 1
            omega
          · show 2 * e.awaiting.length + (e.closing - 1) < m
            omega
    · have hfind : e.awaiting.find? (fun p => p.1 = q.1) = some q := by
        rw [hawaiting]
        simp
      have hcalled : TimedReach cfg (Only M) c (c.called b k n (Turn.closeVote e q.1)) := by
        refine reach_act (.voteReply b k q.1 none) hM hb rfl ?_
        show (if c.Possible q.1 none then (c.startTurn b).voteReply k q.1 none else none) = _
        rw [if_pos (show c.Possible q.1 none from trivial)]
        simp only [Turn.voteReply, helection, Option.bind_eq_bind, Option.bind_some, hfind]
        rfl
      have hlength := Alone.length_awaiting htally.nodup hfind
      refine hgo (Turn.closeVote e q.1) rfl hstand.settled
        (Alone.tallied_voteOutcome htally hfind n none) rfl ?_ hcalled
      show 2 * (e.awaiting.filter fun p => p.1 ≠ q.1).length + (e.closing + 1) < m
      omega

/-- **A member that does not lead can be brought to the point of timing out.** -/
theorem exists_armed (hc : Electoral cfg H c) (hp : Primed cfg c) (hM : b ∈ M)
    (hb : b ∈ cfg.members) (hstate : (c.replicas b).node.state ≠ .leader) :
    ∃ c', TimedReach cfg (Only M) c c' ∧ Apart b c c' ∧
      (c'.replicas b).node.currentTerm = (c.replicas b).node.currentTerm ∧ Restless cfg c' b := by
  have hparams := (hc.nodes b hb).params
  have hstance := (hp b hb).attuned.stance
  have hnow : (c.replicas b).node.timers.electionTimer = true →
      ∃ c', TimedReach cfg (Only M) c c' ∧ Apart b c c' ∧
        (c'.replicas b).node.currentTerm = (c.replicas b).node.currentTerm ∧
        Restless cfg c' b := fun harmed =>
    ⟨c, .refl, ⟨fun _ _ => rfl, rfl⟩, rfl, hparams, hstate, harmed, hstance.callback⟩
  cases hrole : (c.replicas b).node.state with
  | leader => exact absurd hrole hstate
  | follower => exact hnow (hstance.follows hrole)
  | candidate =>
      rcases hstance.campaigns hrole with harmed | ⟨k, e, hk, hopen⟩
      · exact hnow harmed
      · have hmem := List.mem_of_getElem? hk
        exact exists_settled hM hb hparams hstance.callback
          ⟨hrole, hopen.term, hk, hopen.unsettled⟩ ((hp b hb).attuned.tallied e hmem)
          ((hp b hb).short e hmem)

/-- A replica that has peers and is about to time out can stand in any later term. -/
theorem exists_standing (hM : b ∈ M) (hb : b ∈ cfg.members) (hrest : Restless cfg c b)
    (hpeers : cfg.peers b ≠ []) (d : ℕ) :
    ∃ c' k e, TimedReach cfg (Only M) c c' ∧ Apart b c c' ∧
      (c'.replicas b).node.currentTerm = (c.replicas b).node.currentTerm + d + 1 ∧
      Standing c' b k e ∧ Asking cfg c' b e := by
  induction d with
  | zero => exact exists_timeout hM hb hrest hpeers
  | succ d ih =>
      obtain ⟨c₁, k₁, e₁, hreach₁, hapart₁, hterm₁, hstand₁, hask₁⟩ := ih
      obtain ⟨c₂, hreach₂, hapart₂, hterm₂, hrest₂⟩ := exists_settled hM hb hask₁.params
        hask₁.callback hstand₁ hask₁.tallied hask₁.short
      obtain ⟨c₃, k₃, e₃, hreach₃, hapart₃, hterm₃, hstand₃, hask₃⟩ :=
        exists_timeout hM hb hrest₂ hpeers
      refine ⟨c₃, k₃, e₃, (hreach₁.trans hreach₂).trans hreach₃,
        (hapart₁.trans hapart₂).trans hapart₃, ?_, hstand₃, hask₃⟩
      rw [hterm₃, hterm₂, hterm₁]
      omega

/-! ## Asking for votes -/

/-- The requests of a candidate are on their way to other members of earlier terms. -/
structure Canvasses (cfg : Config) (c : Cluster) (b : String) (args : RequestVoteArgs)
    (asked : List (ℕ × String)) : Prop where
  sent : ∀ q ∈ asked, ⟨q.1, b, q.2, .requestVote args⟩ ∈ c.wire
  member : ∀ q ∈ asked, q.2 ∈ cfg.members
  behind : ∀ q ∈ asked, (c.replicas q.2).node.currentTerm < args.term

/-- A grant of the candidate's request `rpc` has come back. -/
def Granted (c : Cluster) (term rpc : ℕ) : Prop :=
  ∃ id, (rpc, Reply.requestVote ⟨term, true, id⟩) ∈ c.replies

/-- **All who are asked step down**, and those whose logs allow it grant their votes. -/
theorem exists_granted {args : RequestVoteArgs} {asked : List (ℕ × String)}
    (hM : ∀ q ∈ asked, q.2 ∈ M) (hdistinct : (asked.map Prod.snd).Nodup)
    (h : Canvasses cfg c b args asked) :
    ∃ c', TimedReach cfg (Only M) c c' ∧
      (∀ a, a ∉ asked.map Prod.snd → c'.replicas a = c.replicas a) ∧
      (∀ rpc, Granted c args.term rpc → Granted c' args.term rpc) ∧
      ∀ q ∈ asked, (c.replicas q.2).node.Defers args.term (c'.replicas q.2).node ∧
        ((c.replicas q.2).node.isLogUpToDate args.lastLogIndex args.lastLogTerm = true →
          Granted c' args.term q.1) := by
  induction asked generalizing c with
  | nil => exact ⟨c, .refl, fun _ _ => rfl, fun _ h => h, fun q hq => by cases hq⟩
  | cons q asked ih =>
      obtain ⟨hnot, hdistinct⟩ := List.nodup_cons.mp hdistinct
      have hq : q ∈ q :: asked := List.mem_cons_self
      let packet : Packet := ⟨q.1, b, q.2, .requestVote args⟩
      let t := (c.startTurn q.2).deliver packet
      let c₁ := c.finishTurn q.2 t
      have ht : c.turn (.deliver packet) = some t := if_pos (h.sent q hq)
      have hreach : TimedReach cfg (Only M) c c₁ := reach_act _ (hM q hq) (h.member q hq) rfl ht
      have hself : (c₁.replicas q.2).node =
          ((c.replicas q.2).node.beginTurn.handleRequestVote args).1 := by
        rw [replicas_finishTurn_self]
        rfl
      have hdefers : (c.replicas q.2).node.Defers args.term (c₁.replicas q.2).node := by
        have hdown := (c.replicas q.2).node.beginTurn.defers_handleRequestVote (h.behind q hq)
        rw [hself]
        exact ⟨hdown.state, hdown.currentTerm, hdown.log⟩
      have hgrants : (c.replicas q.2).node.isLogUpToDate args.lastLogIndex args.lastLogTerm = true →
          Granted c₁ args.term q.1 := by
        intro hlog
        have hvote := (c.replicas q.2).node.beginTurn.handleRequestVote_grants
          (h.behind q hq) hlog
        refine ⟨(c.replicas q.2).node.replicaId, List.mem_append_right _ ?_⟩
        apply List.mem_singleton.mpr
        show _ = (q.1, Reply.requestVote ((c.replicas q.2).node.beginTurn.handleRequestVote args).2)
        rw [hvote]
        rfl
      have hsame : ∀ {a : String}, a ≠ q.2 → c₁.replicas a = c.replicas a :=
        fun hne => replicas_finishTurn_ne c t hne
      have hne : ∀ q' ∈ asked, q'.2 ≠ q.2 := by
        intro q' hq' heq
        exact hnot (heq ▸ List.mem_map_of_mem hq')
      have hrest : Canvasses cfg c₁ b args asked := by
        refine ⟨fun q' hq' => ?_, fun q' hq' => h.member q' (List.mem_cons_of_mem q hq'),
          fun q' hq' => ?_⟩
        · exact List.mem_append_left _ (h.sent q' (List.mem_cons_of_mem q hq'))
        · rw [hsame (hne q' hq')]
          exact h.behind q' (List.mem_cons_of_mem q hq')
      obtain ⟨c', hreach', hother, hkept, hall⟩ :=
        ih (fun q' hq' => hM q' (List.mem_cons_of_mem q hq')) hdistinct hrest
      refine ⟨c', hreach.trans hreach', fun a ha => ?_, fun rpc hrpc => ?_, fun q' hq' => ?_⟩
      · obtain ⟨hq', ha⟩ := not_or.mp (List.mem_cons.not.mp ha)
        exact (hother a ha).trans (hsame hq')
      · obtain ⟨id, hid⟩ := hrpc
        exact hkept rpc ⟨id, List.mem_append_left _ hid⟩
      · rcases List.mem_cons.mp hq' with rfl | hq'
        · rw [hother q'.2 hnot]
          exact ⟨hdefers, fun hlog => hkept q'.1 (hgrants hlog)⟩
        · have hdefer := hall q' hq'
          rwa [hsame (hne q' hq')] at hdefer

/-- Some number bounds the terms of several replicas. -/
theorem exists_term_bound (c : Cluster) (M : List String) :
    ∃ B, ∀ a ∈ M, (c.replicas a).node.currentTerm ≤ B := by
  induction M with
  | nil => exact ⟨0, fun a ha => by cases ha⟩
  | cons a M ih =>
      obtain ⟨B, hB⟩ := ih
      refine ⟨max B (c.replicas a).node.currentTerm, fun d hd => ?_⟩
      rcases List.mem_cons.mp hd with rfl | hd
      · exact le_max_right _ _
      · exact (hB d hd).trans (le_max_left _ _)

/-- What an unanswered candidacy of `b` among `M` comes to: the others are its followers, and
those whose logs allowed it have granted the requests `asked`. -/
structure Canvassed (cfg : Config) (M : List String) (c c' : Cluster) (b : String) (k : ℕ)
    (e : Election) (asked : List (ℕ × String)) : Prop where
  standing : Standing c' b k e
  votes : e.votesGranted = 1
  awaiting : ∀ q ∈ asked, q ∈ e.awaiting
  numbers : (asked.map Prod.fst).Nodup
  peers : asked.map Prod.snd = (cfg.peers b).filter (· ∈ M)
  params : (c'.replicas b).node.params = cfg.params b
  log : (c'.replicas b).node.log = (c.replicas b).node.log
  defer : ∀ a ∈ M, a ≠ b → (c.replicas a).node.Defers e.term (c'.replicas a).node
  later : ∀ a ∈ M, (c.replicas a).node.currentTerm < e.term
  grants : ∀ q ∈ asked, (c.replicas b).node.Outdates (c.replicas q.2).node → Granted c' e.term q.1

/-- **A candidacy.**  A replica that has peers and does not lead stands in a term above all of
those in `M`, and asks the others in `M`. -/
theorem exists_canvass (hc : Electoral cfg H c) (hp : Primed cfg c) (hM : ∀ a ∈ M, a ∈ cfg.members)
    (hb : b ∈ M) (hstate : (c.replicas b).node.state ≠ .leader) (hpeers : cfg.peers b ≠ []) :
    ∃ c' k e asked, TimedReach cfg (Only M) c c' ∧ Canvassed cfg M c c' b k e asked := by
  obtain ⟨B, hB⟩ := exists_term_bound c M
  obtain ⟨c₀, hreach₀, hapart₀, hterm₀, hrest₀⟩ := exists_armed hc hp hb (hM b hb) hstate
  obtain ⟨c₁, k, e, hreach₁, hapart₁, hterm₁, hstand, hasking⟩ :=
    exists_standing hb (hM b hb) hrest₀ hpeers B
  have hreach := hreach₀.trans hreach₁
  obtain ⟨hother, hlog⟩ := hapart₀.trans hapart₁
  have hparams₁ := hasking.params
  have hterm : (c₁.replicas b).node.currentTerm = (c.replicas b).node.currentTerm + B + 1 := by
    rw [hterm₁, hterm₀]
  have hlater : ∀ a ∈ M, (c.replicas a).node.currentTerm < e.term := by
    intro a ha
    have hle := hB a ha
    have heq := hstand.term
    omega
  let asked := e.awaiting.filter fun q => q.2 ∈ M
  have hawaiting : ∀ q ∈ asked, q ∈ e.awaiting := fun q hq => (List.mem_filter.mp hq).1
  have hto : ∀ q ∈ asked, q.2 ∈ cfg.peers b := by
    intro q hq
    rw [← hasking.peers]
    exact List.mem_map_of_mem (hawaiting q hq)
  have hne : ∀ q ∈ asked, q.2 ≠ b := fun q hq =>
    ((cfg.mem_peers b (hM b hb) q.2).mp (hto q hq)).2
  have hin : ∀ q ∈ asked, q.2 ∈ M := fun q hq => of_decide_eq_true (List.mem_filter.mp hq).2
  have hsnd : asked.map Prod.snd = (cfg.peers b).filter (· ∈ M) := by
    rw [← hasking.peers, List.filter_map]
    rfl
  have hdistinct : (asked.map Prod.snd).Nodup := by
    rw [hsnd]
    exact (cfg.peers_nodup b (hM b hb)).filter _
  have hcanvass : Canvasses cfg c₁ b (c₁.replicas b).node.requestVoteArgs asked := by
    refine ⟨fun q hq => hasking.sent q (hawaiting q hq), fun q hq => hM q.2 (hin q hq),
      fun q hq => ?_⟩
    rw [hother q.2 (hne q hq)]
    exact (hlater q.2 (hin q hq)).trans_eq hstand.term.symm
  obtain ⟨c₂, hreach₂, hrest, -, hall⟩ := exists_granted hin hdistinct hcanvass
  have hself : c₂.replicas b = c₁.replicas b := by
    apply hrest
    intro hmem
    obtain ⟨q, hq, heq⟩ := List.mem_map.mp hmem
    exact hne q hq heq
  have hargs : (c₁.replicas b).node.requestVoteArgs.term = e.term := hstand.term
  refine ⟨c₂, k, e, asked, hreach.trans hreach₂, ?_⟩
  refine ⟨?_, hasking.votes, hawaiting, hasking.tallied.nodup.sublist (List.filter_sublist.map _),
    hsnd,
    hself ▸ hparams₁, by rw [hself, hlog], fun a ha hab => ?_, hlater, fun q hq hout => ?_⟩
  · refine ⟨?_, ?_, ?_, hstand.settled⟩
    · rw [hself]
      exact hstand.state
    · rw [hself]
      exact hstand.term
    · rw [hself]
      exact hstand.election
  · have hmem : a ∈ asked.map Prod.snd := by
      rw [hsnd]
      exact List.mem_filter.mpr ⟨(cfg.mem_peers b (hM b hb) a).mpr ⟨hM a ha, hab⟩,
        decide_eq_true ha⟩
    obtain ⟨q, hq, rfl⟩ := List.mem_map.mp hmem
    have hdefer := (hall q hq).1
    rwa [hother q.2 hab, hargs] at hdefer
  · have hgrant := (hall q hq).2
    rw [hother q.2 (hne q hq), hargs] at hgrant
    apply hgrant
    unfold RaftNode.Outdates at hout
    rwa [← hlog] at hout

/-! ## Counting the votes -/

/-- One granted vote is counted. -/
theorem exists_counted {k : ℕ} {e : Election} {q : ℕ × String} (hM : b ∈ M)
    (hb : b ∈ cfg.members) (hstand : Standing c b k e) (hq : q ∈ e.awaiting)
    (hgranted : Granted c e.term q.1) :
    ∃ c', TimedReach cfg (Only M) c c' ∧ (∀ a, a ≠ b → c'.replicas a = c.replicas a) ∧
      c'.replies = c.replies ∧ (c'.replicas b).node.currentTerm = e.term ∧
      (c'.replicas b).node.peers = (c.replicas b).node.peers ∧
      ((c'.replicas b).node.state = .leader ∨
        e.votesGranted + 1 < (c.replicas b).node.majority ∧
        ∃ e', Standing c' b k e' ∧ e'.term = e.term ∧ e'.votesGranted = e.votesGranted + 1 ∧
          ∀ p ∈ e.awaiting, p.1 ≠ q.1 → p ∈ e'.awaiting) := by
  obtain ⟨id, hid⟩ := hgranted
  obtain ⟨p, hp⟩ : ∃ p, e.awaiting.find? (fun p => p.1 = q.1) = some p := by
    apply Option.isSome_iff_exists.mp
    apply List.find?_isSome.mpr
    exact ⟨q, hq, decide_eq_true rfl⟩
  let reply : RequestVoteResult := ⟨e.term, true, id⟩
  let n := (c.replicas b).node.beginTurn
  let counted : Election :=
    { Turn.closeVote e q.1 with votesGranted := e.votesGranted + 1, voters := e.voters ++ [p.2] }
  have hvote : Turn.onVoteOutcome n (Turn.closeVote e q.1) p.2 (some reply) =
      if n.majority ≤ e.votesGranted + 1 then Turn.finalize n counted else (n, counted) := by
    have hopen : ¬ ((Turn.closeVote e q.1).settled = true ∨ n.state ≠ .candidate ∨
        n.currentTerm ≠ (Turn.closeVote e q.1).term) := by
      rintro (hsettled | hstate | hterm)
      · have hnot := hstand.settled
        simp only [Turn.closeVote] at hsettled
        rw [hnot] at hsettled
        cases hsettled
      · exact hstate hstand.state
      · exact hterm hstand.term
    have hold : ¬ n.currentTerm < reply.term := by
      have heq : n.currentTerm = e.term := hstand.term
      exact (heq.symm ▸ lt_irrefl _)
    show Turn.onVote n (Turn.closeVote e q.1) p.2 reply = _
    unfold Turn.onVote
    rw [if_neg hopen, if_neg hold]
    rfl
  let t := ((c.startTurn b).setNode
    (Turn.onVoteOutcome n (Turn.closeVote e q.1) p.2 (some reply)).1).setElections
      ((c.replicas b).elections.set k
        (Turn.onVoteOutcome n (Turn.closeVote e q.1) p.2 (some reply)).2)
  have hturn : c.turn (.voteReply b k q.1 (some reply)) = some t := by
    have hpossible : c.Possible q.1 ((some reply).map Reply.requestVote) := hid
    have hvoteReply : (c.startTurn b).voteReply k q.1 (some reply) = some t := by
      have helection : (c.startTurn b).replica.elections[k]? = some e := hstand.election
      simp only [Turn.voteReply, helection, Option.bind_eq_bind, Option.bind_some, hp]
      rfl
    exact (if_pos hpossible).trans hvoteReply
  have hlt : k < (c.replicas b).elections.length := (List.getElem?_eq_some_iff.mp hstand.election).1
  have hreplica : (c.finishTurn b t).replicas b = t.replica := replicas_finishTurn_self c b t
  refine ⟨c.finishTurn b t, reach_act _ hM hb rfl hturn, fun a ha => replicas_finishTurn_ne c t ha,
    List.append_nil _, ?_⟩
  by_cases hmajority : n.majority ≤ e.votesGranted + 1
  · have hwon : Turn.finalize n counted = (n.becomeLeader, { counted with settled := true }) := by
      have hcand : n.state = .candidate ∧ n.currentTerm = counted.term :=
        ⟨hstand.state, hstand.term⟩
      have hopen : ¬ counted.settled = true := by
        have hnot : counted.settled = false := hstand.settled
        simp [hnot]
      unfold Turn.finalize
      rw [if_neg hopen]
      simp only [if_pos hcand]
      rw [if_pos hmajority]
    rw [if_pos hmajority, hwon] at hvote
    have hnode : ((c.finishTurn b t).replicas b).node = n.becomeLeader := by
      rw [hreplica]
      show (Turn.onVoteOutcome n (Turn.closeVote e q.1) p.2 (some reply)).1 = _
      rw [hvote]
    rw [hnode]
    exact ⟨hstand.term, rfl, Or.inl rfl⟩
  · rw [if_neg hmajority] at hvote
    have hnode : ((c.finishTurn b t).replicas b).node = n := by
      rw [hreplica]
      show (Turn.onVoteOutcome n (Turn.closeVote e q.1) p.2 (some reply)).1 = _
      rw [hvote]
    rw [hnode]
    refine ⟨hstand.term, rfl, Or.inr ⟨not_le.mp hmajority, counted, ⟨?_, ?_, ?_, hstand.settled⟩,
      rfl, rfl, fun p' hp' hne => ?_⟩⟩
    · rw [hnode]
      exact hstand.state
    · rw [hnode]
      exact hstand.term
    · rw [hreplica]
      show ((c.replicas b).elections.set k
        (Turn.onVoteOutcome n (Turn.closeVote e q.1) p.2 (some reply)).2)[k]? = _
      rw [hvote]
      exact List.getElem?_set_self hlt
    · exact List.mem_filter.mpr ⟨hp', decide_eq_true hne⟩

/-- **Enough granted votes make a leader.** -/
theorem exists_elected {k : ℕ} {e : Election} {asked : List (ℕ × String)} (hM : b ∈ M)
    (hb : b ∈ cfg.members) (hstand : Standing c b k e) (hasked : ∀ q ∈ asked, q ∈ e.awaiting)
    (hnumbers : (asked.map Prod.fst).Nodup) (hgranted : ∀ q ∈ asked, Granted c e.term q.1)
    (hfew : e.votesGranted < (c.replicas b).node.majority)
    (hmany : (c.replicas b).node.majority ≤ e.votesGranted + asked.length) :
    ∃ c', TimedReach cfg (Only M) c c' ∧ (∀ a, a ≠ b → c'.replicas a = c.replicas a) ∧
      (c'.replicas b).node.currentTerm = e.term ∧ (c'.replicas b).node.state = .leader := by
  induction asked generalizing c e with
  | nil => exact absurd hmany (not_le.mpr hfew)
  | cons q asked ih =>
      obtain ⟨hnot, hnumbers⟩ := List.nodup_cons.mp hnumbers
      have hq : q ∈ q :: asked := List.mem_cons_self
      obtain ⟨c₁, hreach, hother, hreplies, hterm, hpeers,
        hlead | ⟨hfew₁, e₁, hstand₁, hsame, hvotes,
        hleft⟩⟩ := exists_counted hM hb hstand (hasked q hq) (hgranted q hq)
      · exact ⟨c₁, hreach, hother, hterm, hlead⟩
      · have hmajority : (c₁.replicas b).node.majority = (c.replicas b).node.majority := by
          unfold RaftNode.majority
          rw [hpeers]
        have hasked₁ : ∀ q' ∈ asked, q' ∈ e₁.awaiting := by
          intro q' hq'
          apply hleft q' (hasked q' (List.mem_cons_of_mem q hq'))
          intro heq
          exact hnot (heq ▸ List.mem_map_of_mem hq')
        have hgranted₁ : ∀ q' ∈ asked, Granted c₁ e₁.term q'.1 := by
          intro q' hq'
          unfold Granted
          rw [hreplies, hsame]
          exact hgranted q' (List.mem_cons_of_mem q hq')
        have hlength : (q :: asked).length = asked.length + 1 := rfl
        obtain ⟨c₂, hreach₂, hother₂, hterm₂, hlead⟩ := ih hstand₁ hasked₁ hnumbers hgranted₁
          (by omega) (by omega)
        exact ⟨c₂, hreach.trans hreach₂, fun a ha => (hother₂ a ha).trans (hother a ha),
          hterm₂.trans hsame, hlead⟩

/-! ## Nobody leads -/

/-- A leader's read makes a member of an earlier term step down. -/
theorem exists_stepDown (boardId : String) (ha : a ∈ M) (hb : b ∈ M) (hM : ∀ a ∈ M, a ∈ cfg.members)
    (hparams : (c.replicas b).node.params = cfg.params b) (hab : a ≠ b)
    (hlead : (c.replicas b).node.state = .leader)
    (hterm : (c.replicas a).node.currentTerm < (c.replicas b).node.currentTerm) :
    ∃ c', TimedReach cfg (Only M) c c' ∧ (c'.replicas a).node.state = .follower := by
  let t := (c.startTurn b).readBoardState boardId
  let n := (c.replicas b).node.beginTurn
  have hturn : c.turn (.readBoardState b boardId) = some t := rfl
  obtain ⟨r, hrun⟩ : ∃ r, t = (((c.startTurn b).number.setReads r).sendAll
      (.heartbeat n.heartbeatArgs) n.peers) := ⟨_, if_neg (not_not.mpr hlead)⟩
  have hpeer : a ∈ n.peers := by
    have hmine : n.peers = cfg.peers b := congrArg RaftNode.Params.peers hparams
    rw [hmine]
    exact (cfg.mem_peers b (hM b hb) a).mpr ⟨hM a ha, hab⟩
  obtain ⟨rpc, hsent⟩ : ∃ rpc, ⟨rpc, b, a, .heartbeat n.heartbeatArgs⟩ ∈ t.sent := by
    let promises := ((c.startTurn b).number.setReads r).promises n.peers
    have hlen : promises.length = n.peers.length := List.length_range'
    have hsnd : (promises.zip n.peers).map Prod.snd = n.peers := List.map_snd_zip hlen.ge
    obtain ⟨q, hq, heq⟩ := List.mem_map.mp (hsnd ▸ hpeer)
    refine ⟨q.1, ?_⟩
    rw [hrun, Turn.sendAll_eq]
    apply List.mem_append_right
    apply List.mem_map.mpr
    refine ⟨q, hq, ?_⟩
    have hself : n.selfUrl = b := congrArg RaftNode.Params.selfUrl hparams
    show (⟨q.1, n.selfUrl, q.2, .heartbeat n.heartbeatArgs⟩ : Packet) = _
    rw [hself, heq]
  let packet : Packet := ⟨rpc, b, a, .heartbeat n.heartbeatArgs⟩
  let c₁ := c.finishTurn b t
  let t₁ := (c₁.startTurn a).deliver packet
  have hturn₁ : c₁.turn (.deliver packet) = some t₁ := if_pos (List.mem_append_right _ hsent)
  have hreach : TimedReach cfg (Only M) c c₁ := reach_act _ hb (hM b hb) rfl hturn
  have hreach₁ : TimedReach cfg (Only M) c₁ (c₁.finishTurn a t₁) :=
    reach_act _ ha (hM a ha) rfl hturn₁
  refine ⟨c₁.finishTurn a t₁, hreach.trans hreach₁, ?_⟩
  have hsame : c₁.replicas a = c.replicas a := replicas_finishTurn_ne c t hab
  have hnames : packet.request.leader? = some (n.currentTerm, n.replicaId) := rfl
  have hbearing := RaftNode.bearing_handle_leader (c₁.replicas a).node.beginTurn hnames
  have hnot : ¬ n.currentTerm < (c₁.replicas a).node.beginTurn.currentTerm := by
    rw [hsame]
    exact hterm.not_gt
  rw [if_neg hnot] at hbearing
  have hstate := congrArg RaftNode.Bearing.state hbearing
  have hnode : ((c₁.finishTurn a t₁).replicas a).node =
      ((c₁.replicas a).node.beginTurn.handle packet.request).1 := by
    rw [replicas_finishTurn_self]
    rfl
  rw [hnode]
  exact hstate

/-- Two leaders have two terms. -/
theorem term_ne_of_leaders (hc : Electoral cfg H c) (ha : a ∈ cfg.members)
    (hb : b ∈ cfg.members) (hab : a ≠ b) (hla : (c.replicas a).node.state = .leader)
    (hlb : (c.replicas b).node.state = .leader) :
    (c.replicas a).node.currentTerm ≠ (c.replicas b).node.currentTerm := by
  intro hterm
  have hwa := hc.won_of_leader ha hla
  rw [hterm] at hwa
  exact hab (cfg.replicaId_inj a ha b hb (hc.sound.unique hwa (hc.won_of_leader hb hlb)))

/-- Among two members or more, one can be brought not to lead. -/
theorem exists_idle (hc : Electoral cfg H c) (hM : ∀ a ∈ M, a ∈ cfg.members)
    (ha : a ∈ M) (hb : b ∈ M) (hab : a ≠ b) :
    ∃ c' d, TimedReach cfg (Only M) c c' ∧ d ∈ M ∧ (c'.replicas d).node.state ≠ .leader := by
  by_cases hla : (c.replicas a).node.state = .leader
  · by_cases hlb : (c.replicas b).node.state = .leader
    · rcases lt_or_gt_of_ne (term_ne_of_leaders hc (hM a ha) (hM b hb) hab hla hlb) with hlt | hlt
      · obtain ⟨c', hreach, hstate⟩ := exists_stepDown "" ha hb hM
          (hc.nodes b (hM b hb)).params hab hlb hlt
        exact ⟨c', a, hreach, ha, by rw [hstate]; decide⟩
      · obtain ⟨c', hreach, hstate⟩ := exists_stepDown "" hb ha hM
          (hc.nodes a (hM a ha)).params hab.symm hla hlt
        exact ⟨c', b, hreach, hb, by rw [hstate]; decide⟩
    · exact ⟨c, b, .refl, hb, hlb⟩
  · exact ⟨c, a, .refl, ha, hla⟩

/-- Of several members, none is left without a peer. -/
theorem peers_ne_nil (hM : ∀ a ∈ M, a ∈ cfg.members) (ha : a ∈ M) (hb : b ∈ M) (hab : a ≠ b)
    {d : String}
    (hd : d ∈ M) : cfg.peers d ≠ [] := by
  have hother : ∃ x ∈ M, x ≠ d := by
    by_cases had : a = d
    · exact ⟨b, hb, fun hbd => hab (had.trans hbd.symm)⟩
    · exact ⟨a, ha, had⟩
  obtain ⟨x, hx, hxd⟩ := hother
  apply List.ne_nil_of_mem
  exact (cfg.mem_peers d (hM d hd) x).mpr ⟨hM x hx, hxd⟩

/-- **Two members or more can stop leading,** all of them. -/
theorem exists_calm (hc : Electoral cfg H c) (hp : Primed cfg c) (hM : ∀ a ∈ M, a ∈ cfg.members)
    (ha : a ∈ M) (hb : b ∈ M) (hab : a ≠ b) :
    ∃ c', TimedReach cfg (Only M) c c' ∧ ∀ d ∈ M, (c'.replicas d).node.state ≠ .leader := by
  obtain ⟨c₁, d, hreach, hd, hidle⟩ := exists_idle hc hM ha hb hab
  obtain ⟨H₁, hc₁, hp₁, -⟩ := timedReach_spec hc hp hreach
  obtain ⟨c₂, k, e, asked, hreach₂, hcanvassed⟩ := exists_canvass hc₁ hp₁ hM hd hidle
    (peers_ne_nil hM ha hb hab hd)
  refine ⟨c₂, hreach.trans hreach₂, fun x hx => ?_⟩
  by_cases hxd : x = d
  · rw [hxd, hcanvassed.standing.state]
    decide
  · rw [(hcanvassed.defer x hx hxd).state]
    decide

/-! ## A leader -/

/-- A replica without peers elects itself. -/
theorem exists_alone (hc : Electoral cfg H c) (hp : Primed cfg c) (hM : b ∈ M)
    (hb : b ∈ cfg.members)
    (hpeers : cfg.peers b = []) :
    ∃ c', TimedReach cfg (Only M) c c' ∧ (c'.replicas b).node.state = .leader := by
  by_cases hlead : (c.replicas b).node.state = .leader
  · exact ⟨c, .refl, hlead⟩
  · obtain ⟨c₁, hreach, -, -, hrest⟩ := exists_armed hc hp hM hb hlead
    let c₀ := c₁.expire b
    let t := c₀.startTurn b
    let n := t.replica.node.becomeCandidate
    have hstart : t.replica.node = (c₁.replicas b).node.expireElectionTimer.beginTurn :=
      congrArg (fun r => r.node.beginTurn) (replicas_expire_self c₁ b)
    have hnil : n.peers = [] := by
      show t.replica.node.peers = []
      rw [hstart]
      exact (congrArg RaftNode.Params.peers hrest.params).trans hpeers
    have hturn : c₀.turn (.electionTimeout b) = some t.runElection := by
      refine if_neg ?_
      show t.replica.node.state ≠ .leader
      rw [hstart]
      exact hrest.state
    have hstep : timed cfg c₁ (.act (.electionTimeout b)) =
        some (c₀.finishTurn b t.runElection) := by
      have hring : c₁.ring (.electionTimeout b) = some c₀ := if_pos hrest.armed
      have hmember : (Action.electionTimeout b).replica ∈ cfg.members := hb
      simp only [timed, hring, Option.bind_some, next, if_pos hmember, hturn, Option.map_some]
      rfl
    refine ⟨c₀.finishTurn b t.runElection,
      hreach.tail (⟨.electionTimeout b, rfl, hM⟩ : Only M c₁ _) hstep, ?_⟩
    have hopen : (t.openElection n).1 = n.becomeLeader := by
      have hmajority : n.majority ≤ (t.newElection n).votesGranted := by
        unfold RaftNode.majority
        rw [hnil]
        exact le_rfl
      have hfresh : (t.newElection n).Open n := ⟨rfl, rfl, rfl⟩
      unfold Turn.openElection
      rw [if_pos hnil, Alone.finalize_open hfresh, if_pos hmajority]
    have hrun : t.runElection = ((t.setNode (t.openElection n).1).setElections
        (t.replica.elections ++ [(t.openElection n).2])).sendAll
          (.requestVote n.requestVoteArgs) n.peers := rfl
    rw [replicas_finishTurn_self, hrun, hopen, hnil]
    rfl

/-- The other members of a majority, as a candidate of it sees them. -/
theorem length_filter_peers (hM : ∀ a ∈ M, a ∈ cfg.members) (hnodup : M.Nodup) (hb : b ∈ M) :
    ((cfg.peers b).filter (· ∈ M)).length + 1 = M.length := by
  have hnot : b ∉ (cfg.peers b).filter (· ∈ M) := fun h =>
    ((cfg.mem_peers b (hM b hb) b).mp (List.mem_filter.mp h).1).2 rfl
  have hperm : (b :: (cfg.peers b).filter (· ∈ M)).Perm M := by
    refine (List.perm_ext_iff_of_nodup (List.nodup_cons.mpr
      ⟨hnot, (cfg.peers_nodup b (hM b hb)).filter _⟩) hnodup).mpr fun a => ?_
    rw [List.mem_cons, List.mem_filter, cfg.mem_peers b (hM b hb) a]
    constructor
    · rintro (rfl | ⟨-, ha⟩)
      · exact hb
      · exact of_decide_eq_true ha
    · intro ha
      by_cases hab : a = b
      · exact Or.inl hab
      · exact Or.inr ⟨⟨hM a ha, hab⟩, decide_eq_true ha⟩
  exact hperm.length_eq

/-- **A majority can elect a leader.**  From every state that a timed run reaches, whatever
crashed, was lost or is on its way, the turns of any majority of the members lead to a state where
one of them leads, and the others follow in its term, which is later than any they were in. -/
theorem majority_elects [cfg.OnFiles] (h : TimedReach cfg Runs.Any (.init cfg) c)
    (hM : ∀ a ∈ M, a ∈ cfg.members) (hnodup : M.Nodup)
    (hmajority : cfg.members.length / 2 + 1 ≤ M.length) :
    ∃ c' b, TimedReach cfg (Only M) c c' ∧ b ∈ M ∧ (c'.replicas b).node.state = .leader ∧
      ∀ a ∈ M, a ≠ b → (c'.replicas a).node.state = .follower ∧
        (c'.replicas a).node.currentTerm = (c'.replicas b).node.currentTerm ∧
        (c.replicas a).node.currentTerm < (c'.replicas b).node.currentTerm := by
  obtain ⟨H, hc, hp, -⟩ := timedReach_spec (electoral_init cfg) (primed_init cfg) h
  rcases M with _ | ⟨x, _ | ⟨y, M⟩⟩
  · exact absurd hmajority (by simp)
  · have hx : x ∈ [x] := List.mem_singleton_self x
    have hpeers : cfg.peers x = [] := by
      have hlength := Config.length_peers (hM x hx)
      apply List.length_eq_zero_iff.mp
      rw [List.length_singleton] at hmajority
      omega
    obtain ⟨c', hreach, hlead⟩ := exists_alone hc hp hx (hM x hx) hpeers
    refine ⟨c', x, hreach, hx, hlead, fun a ha hax => ?_⟩
    exact absurd (List.mem_singleton.mp ha) hax
  · have hx : x ∈ x :: y :: M := List.mem_cons_self
    have hy : y ∈ x :: y :: M := List.mem_cons_of_mem x List.mem_cons_self
    have hxy : x ≠ y := fun heq =>
      (List.nodup_cons.mp hnodup).1 (heq ▸ List.mem_cons_self)
    obtain ⟨c₁, hreach₁, hcalm⟩ := exists_calm hc hp hM hx hy hxy
    obtain ⟨b, hb, hbest⟩ := RaftNode.exists_outdates (fun a => (c₁.replicas a).node)
      (List.cons_ne_nil x (y :: M))
    obtain ⟨H₁, hc₁, hp₁, hterms⟩ := timedReach_spec hc hp hreach₁
    obtain ⟨c₂, k, e, asked, hreach₂, hcanvassed⟩ := exists_canvass hc₁ hp₁ hM hb (hcalm b hb)
      (peers_ne_nil hM hx hy hxy hb)
    have hgranted : ∀ q ∈ asked, Granted c₂ e.term q.1 := by
      intro q hq
      apply hcanvassed.grants q hq
      apply hbest
      have hmem : q.2 ∈ asked.map Prod.snd := List.mem_map_of_mem hq
      rw [hcanvassed.peers] at hmem
      exact of_decide_eq_true (List.mem_filter.mp hmem).2
    have hcount : (c₂.replicas b).node.majority = cfg.members.length / 2 + 1 := by
      have hmine : (c₂.replicas b).node.peers = cfg.peers b :=
        congrArg RaftNode.Params.peers hcanvassed.params
      unfold RaftNode.majority
      rw [hmine, Config.length_peers (hM b hb)]
    have hasked : asked.length + 1 = (x :: y :: M).length := by
      rw [← length_filter_peers hM hnodup hb, ← hcanvassed.peers, List.length_map]
    have hseveral : 2 ≤ cfg.members.length := by
      have hlength := Config.length_peers (hM b hb)
      have hsome := List.length_pos_iff.mpr (peers_ne_nil hM hx hy hxy hb)
      omega
    have hvotes := hcanvassed.votes
    obtain ⟨c₃, hreach₃, hother, hterm, hlead⟩ := exists_elected hb (hM b hb) hcanvassed.standing
      hcanvassed.awaiting hcanvassed.numbers hgranted (by omega) (by omega)
    refine ⟨c₃, b, (hreach₁.trans hreach₂).trans hreach₃, hb, hlead, fun a ha hab => ?_⟩
    have hdefer := hcanvassed.defer a ha hab
    rw [hother a hab, hterm]
    exact ⟨hdefer.state, hdefer.currentTerm,
      (hterms a (hM a ha)).trans_lt (hcanvassed.later a ha)⟩

/-- The trio once `a` has been elected, its timer having fired. -/
def trioTimed : Cluster :=
  (Runs.exec (timed .trio) (.init .trio) trioElection).getD (.init .trio)

/-- `b` and `c` elect one of them while `a` leads. -/
theorem majority_elects_trio : (trioTimed.replicas "a").node.state = .leader ∧
    ∃ c' b, TimedReach .trio (Only ["b", "c"]) trioTimed c' ∧
      b ∈ ["b", "c"] ∧ (c'.replicas b).node.state = .leader ∧
      ∀ a ∈ ["b", "c"], a ≠ b → (c'.replicas a).node.state = .follower ∧
        (c'.replicas a).node.currentTerm = (c'.replicas b).node.currentTerm ∧
        (trioTimed.replicas a).node.currentTerm < (c'.replicas b).node.currentTerm := by
  have hrun : Runs.exec (timed .trio) (.init .trio) trioElection = some trioTimed := by rfl
  exact ⟨by rfl, majority_elects (Runs.Reach.of_exec_any hrun) (by decide) (by decide) (by decide)⟩

end Cluster

end QuorumCanvas
