import QuorumCanvas.LedgerTurns

/-!
# Runs, entered in the ledger

A candidate that counts a majority of votes is entered as the leader of its term:
whatever its voters had acknowledged is in its log, since each of them compared the
two logs.  Together with the turns that hold no election this gives the step lemma:
every event that is `Careful` continues the ledger.  A crash falls between two
persistence calls, and the one gap it must miss is the one between the cut of a log
and the snapshot that stands in for it.
-/

namespace QuorumCanvas

open Ledger (History Standing)
open Quorum (Majority)
open RaftNode (InLedger Evolves)

variable {cfg : Config} {L L' : History String LogEntry} {H H' : Ballots.History String}
  {c c' : Cluster} {a : String} {action : Action} {n n' : RaftNode} {t : Turn}
  {p : Persistence}

/-! ## Winning an election -/

/-- The votes of a finished election, with the candidate's own, back its log. -/
theorem majority_of_election (ha : a ∈ cfg.members) {wire : List Packet} {e : Election}
    (he : ElectionOk cfg H wire a e) (hmaj : ((cfg.peers a).length + 1) / 2 + 1 ≤ e.votesGranted) :
    Majority cfg.ids (insert (cfg.replicaId a) (e.voters.map cfg.replicaId).toFinset) :=
  Config.majority_insert ha (List.nodup_append.mp he.nodup).2.1
    (fun p hp => he.peers p (List.mem_append_right _ hp)) (he.count ▸ hmaj)

/-- **A candidate wins** its term. -/
theorem exists_grown_becomeLeader (hL : L.Sound cfg.ids) (ha : a ∈ cfg.members)
    (hb : Booked cfg L a n) (hpeers : n.peers = cfg.peers a) (hcand : n.state = .candidate)
    {e : Election} (hterm : n.currentTerm = e.term) (hpolled : Polled cfg L n e)
    (hvoters : ∀ p ∈ e.voters, p ∈ cfg.members ∧ e.term ≤ (c.replicas p).node.currentTerm)
    (hQ : Majority cfg.ids (insert (cfg.replicaId a) (e.voters.map cfg.replicaId).toFinset))
    (hno : ¬ L.Elected n.currentTerm) (hle : (c.replicas a).node.currentTerm ≤ n.currentTerm) :
    ∃ L', Grown cfg c a L L' ∧ Booked cfg L' a n.becomeLeader ∧
      ∀ u v, L'.leader u = some v → L.leader u = some v ∨
        u = n.currentTerm ∧ v = cfg.replicaId a := by
  have hst := hb.standing
  have hback : ∀ w ∈ insert (cfg.replicaId a) (e.voters.map cfg.replicaId).toFinset,
      L.Backed w n.fullLog n.currentTerm := by
    intro w hw
    rcases Finset.mem_insert.mp hw with rfl | hw
    · exact hst.backed
    · obtain ⟨p, hp, rfl⟩ := List.mem_map.mp (List.mem_toFinset.mp hw)
      have howed := hpolled.owed hcand hterm p hp
      rw [← hterm] at howed
      exact howed.backed hL hno
  have hvoted : ∀ b ∈ cfg.members, b ≠ a →
      cfg.replicaId b ∈ insert (cfg.replicaId a) (e.voters.map cfg.replicaId).toFinset →
        n.currentTerm ≤ (c.replicas b).node.currentTerm := by
    intro b hb hne hw
    rcases Finset.mem_insert.mp hw with heq | hw
    · exact absurd (cfg.replicaId_inj b hb a ha heq) hne
    · obtain ⟨p, hp, heq⟩ := List.mem_map.mp (List.mem_toFinset.mp hw)
      obtain ⟨hmem, hle⟩ := hvoters p hp
      rw [← cfg.replicaId_inj p hmem b hb heq, hterm]
      exact hle
  generalize insert (cfg.replicaId a) (e.voters.map cfg.replicaId).toFinset = Q at hQ hback hvoted
  obtain ⟨hg, hL₁, hst₁⟩ := hst.elect hL hno hQ hback
  have hself : (L.elect n.currentTerm (cfg.replicaId a) Q n.fullLog).leader n.currentTerm =
        some (cfg.replicaId a) ∧
      (L.elect n.currentTerm (cfg.replicaId a) Q n.fullLog).voters n.currentTerm = Q ∧
      (L.elect n.currentTerm (cfg.replicaId a) Q n.fullLog).log n.currentTerm = n.fullLog ∧
      (L.elect n.currentTerm (cfg.replicaId a) Q n.fullLog).acked = L.acked := by
    simp [History.elect]
  have hother := fun u => L.elect_of_ne (t := n.currentTerm) (u := u) (cfg.replicaId a) Q n.fullLog
  generalize L.elect n.currentTerm (cfg.replicaId a) Q n.fullLog = L₁ at hg hL₁ hst₁ hself hother
  obtain ⟨hleader, hvoters₁, hlog, hacked⟩ := hself
  have hnew : ∀ u v, L₁.leader u = some v →
      L.leader u = some v ∨ u = n.currentTerm ∧ v = cfg.replicaId a := by
    intro u v hv
    by_cases hu : u = n.currentTerm
    · rw [hu] at hv
      exact Or.inr ⟨hu, Option.some.inj (hv.symm.trans hleader)⟩
    · exact Or.inl ((hother u hu).1 ▸ hv)
  have hg₁ : Grown cfg c a L L₁ := by
    refine ⟨hg, hL₁, fun v u k hk => Or.inl (hacked ▸ hk), fun b hb' hne u hu => ?_,
      fun u v hv => ?_, fun u v hv _ => ?_⟩
    · by_cases hut : u = n.currentTerm
      · rw [hut] at hu ⊢
        exact Or.inr (hvoted b hb' hne (hvoters₁ ▸ hu))
      · exact Or.inl ((hother u hut).2.1 ▸ hu)
    · rcases hnew u v hv with hold | ⟨hu, hv'⟩
      · exact Or.inl hold
      · exact Or.inr ⟨hv', hu ▸ (hb.stands hcand).1⟩
    · have hut : u ≠ n.currentTerm := fun heq =>
        hno (heq ▸ Option.isSome_iff_exists.mpr ⟨v, hv⟩)
      exact (hother u hut).2.2
  have hel : L₁.Elected n.currentTerm := Option.isSome_iff_exists.mpr ⟨_, hleader⟩
  -- the winner acknowledges its own log
  refine ⟨_, hg₁.trans
      (.acknowledge hL₁ (k := n.fullLog.length) hel (by rw [hlog]) hst₁.voter_le hle),
    ⟨hb.coherent.of_eq rfl rfl rfl rfl rfl rfl rfl, hst₁.acknowledge ?_, fun _ => ?_, fun hs => ?_⟩,
    hnew⟩
  · rw [hlog]
    exact List.take_prefix _ _
  · refine ⟨hleader, hlog, fun k hk => Or.inr ⟨rfl, rfl, hk⟩, fun p hp k hpos hk => ?_⟩
    have hzero : n.becomeLeader.matchIndex p = some 0 := if_pos (hpeers.symm ▸ hp)
    rw [hzero] at hk
    exact absurd hk (Nat.not_le.mpr hpos)
  · cases hs

/-- The middle of an election turn of replica `a`: its node has become `n`, and `e` is
the election it steps. -/
structure Canvasses (cfg : Config) (L : History String LogEntry) (c : Cluster) (a : String)
    (n : RaftNode) (e : Election) : Prop where
  node : Booked cfg L a n
  follows : Follows L (c.replicas a).node n
  evolves : Evolves ((c.replicas a).node.log.entries ≠ []) (InLedger L cfg.ids (cfg.replicaId a)
    (c.replicas a).node.commitIndex) (c.replicas a).node.beginTurn n
  polled : Polled cfg L n e
  voters : ∀ p ∈ e.voters, p ∈ cfg.members ∧ e.term ≤ (c.replicas p).node.currentTerm

/-- What an election turn has made of the node of replica `a` and of election `e`. -/
structure Canvassed (cfg : Config) (L L' : History String LogEntry) (H' : Ballots.History String)
    (c : Cluster) (a : String) (n : RaftNode) (e : Election) : Prop where
  grown : Grown cfg c a L L'
  won : ∀ u v, L'.leader u = some v → H'.won u v
  node : Booked cfg L' a n
  follows : Follows L' (c.replicas a).node n
  evolves : Evolves ((c.replicas a).node.log.entries ≠ []) (InLedger L cfg.ids (cfg.replicaId a)
    (c.replicas a).node.commitIndex) (c.replicas a).node.beginTurn n
  polled : Polled cfg L' n e

variable {e : Election}

/-- Votes that won no other election leave the canvass as it is. -/
theorem Canvasses.done (h : Canvasses cfg L c a n e) (hL : L.Sound cfg.ids)
    (hwon : ∀ u v, L.leader u = some v → H'.won u v) : Canvassed cfg L L H' c a n e :=
  ⟨.refl hL, hwon, h.node, h.follows, h.evolves, h.polled⟩

/-- **An election is finalized,** and won or not. -/
theorem Canvasses.finalize (hc : Ledgered cfg L H c) (ha : a ∈ cfg.members)
    (h : Canvasses cfg L c a n e) (hH : H'.Sound cfg.ids)
    (hwon : ∀ u v, L.leader u = some v → H'.won u v) {wire : List Packet}
    (hn' : NodeOk cfg H' a (Turn.finalize n e).1)
    (he' : ElectionOk cfg H' wire a (Turn.finalize n e).2) :
    ∃ L', Canvassed cfg L L' H' c a (Turn.finalize n e).1 (Turn.finalize n e).2 := by
  have hL := hc.sound
  obtain ⟨hsettled, hcases⟩ := Turn.finalize_cases n e
  rw [hsettled] at he' ⊢
  have he : ElectionOk cfg H' wire a e := he'.of_eq rfl rfl rfl rfl
  rcases hcases with hsame | hreset | ⟨hcand, hterm, hmaj, hwin⟩
  · rw [hsame]
    exact ⟨L, .refl hL, hwon, h.node, h.follows, h.evolves, h.polled.term_le, h.polled.owed⟩
  · rw [hreset]
    have hcoh : n.resetElectionTimer.Coherent := h.node.coherent.of_eq rfl rfl rfl rfl rfl rfl rfl
    refine ⟨L, .refl hL, hwon, ⟨hcoh, h.node.standing, fun hs => ?_, h.node.stands⟩,
      ⟨h.follows.term_le, h.follows.commit_le, h.follows.committed, h.follows.campaign⟩,
      ⟨hcoh, h.evolves.spans.before rfl rfl⟩, h.polled.term_le, h.polled.owed⟩
    exact (h.node.leads hs).of_eq rfl rfl rfl
  · rw [hwin] at hn' ⊢
    have hpeers : n.peers = cfg.peers a := congrArg RaftNode.Params.peers hn'.params
    have hown : H'.won n.currentTerm (cfg.replicaId a) := hn'.honours.won_of_leader rfl
    have hno : ¬ L.Elected n.currentTerm := by
      intro hel
      obtain ⟨v, hv⟩ := Option.isSome_iff_exists.mp hel
      obtain rfl := hH.unique (hwon _ _ hv) hown
      exact (h.node.stands hcand).2 hv
    have hcount : ((cfg.peers a).length + 1) / 2 + 1 ≤ e.votesGranted := by
      rw [← hpeers]
      exact hmaj
    obtain ⟨L', hg, hb', hlead⟩ := exists_grown_becomeLeader hL ha h.node hpeers hcand hterm
      h.polled h.voters (majority_of_election ha he hcount) hno h.follows.term_le
    refine ⟨L', hg, fun u v hv => ?_, hb',
      ⟨h.follows.term_le, h.follows.commit_le, h.follows.committed, fun hs => by cases hs⟩,
      ⟨h.node.coherent.of_eq rfl rfl rfl rfl rfl rfl rfl, h.evolves.spans.before rfl rfl⟩,
      h.polled.term_le, fun hs => by cases hs⟩
    rcases hlead u v hv with hold | ⟨rfl, rfl⟩
    · exact hwon u v hold
    · exact hown

/-- A turn whose node and elections are in keeping with the ledger, and which answers nothing. -/
theorem Canvassed.entered (hc : Ledgered cfg L H c) (ha : a ∈ cfg.members)
    (h : Canvassed cfg L L' H' c a t.replica.node e)
    (helections : ∀ e' ∈ t.replica.elections, e' ∈ (c.replicas a).elections ∨ e' = e)
    (hreplied : t.replied = []) : Entered cfg L L' H' c a t := by
  refine ⟨h.grown, h.won, h.node, h.follows, fun e' he' => ?_, fun p _ _ r hr => ?_⟩
  · rcases helections e' he' with hold | rfl
    · exact (hc.elections a ha e' hold).follow hc.sound h.grown ha h.follows
        (hc.electoral.voters_le ha hold)
    · exact h.polled
  · rw [hreplied] at hr
    cases hr

/-- A replica at the start of its turn has done nothing yet. -/
theorem Ledgered.canvasses (hc : Ledgered cfg L H c) (ha : a ∈ cfg.members)
    (hp : Polled cfg L (c.replicas a).node e)
    (hvoters : ∀ p ∈ e.voters, p ∈ cfg.members ∧ e.term ≤ (c.replicas p).node.currentTerm) :
    Canvasses cfg L c a (c.replicas a).node.beginTurn e := by
  have hb := (hc.nodes a ha).beginTurn
  have hf : Follows L (c.replicas a).node (c.replicas a).node.beginTurn :=
    ⟨le_rfl, le_rfl, rfl, fun hs => Or.inr ⟨hs, rfl, .refl _ _⟩⟩
  exact ⟨hb, hf, .refl hb.coherent ⟨hb.standing, le_rfl⟩,
    ⟨hp.term_le, hp.owed⟩, hvoters⟩

/-- Standing for election. -/
theorem canvasses_becomeCandidate (hc : Ledgered cfg L H c) (ha : a ∈ cfg.members) :
    Canvasses cfg L c a (c.replicas a).node.beginTurn.becomeCandidate
      ((c.startTurn a).newElection (c.replicas a).node.beginTurn.becomeCandidate) := by
  have hb := (hc.nodes a ha).beginTurn
  have hst : Standing L cfg.ids (cfg.replicaId a) ((c.replicas a).node.currentTerm + 1)
      (c.replicas a).node.fullLog (c.replicas a).node.commitIndex :=
    (hc.nodes a ha).standing.bump (Nat.le_succ _)
  obtain ⟨hev, hfull⟩ := RaftNode.evolves_becomeCandidate
    (T := (c.replicas a).node.log.entries ≠ [])
    (G := InLedger L cfg.ids (cfg.replicaId a) (c.replicas a).node.commitIndex) hb.coherent
    ⟨hb.standing, le_rfl⟩ ⟨hst, le_rfl⟩
  have hfull' : (c.replicas a).node.beginTurn.becomeCandidate.fullLog =
      (c.replicas a).node.fullLog := hfull
  refine ⟨⟨hev.coherent, hev.holds.1, (fun hs => by cases hs),
    fun _ => ⟨Nat.succ_pos _, fun hl => ?_⟩⟩,
    ⟨Nat.le_succ _, le_rfl, by rw [hfull'], fun _ => Or.inl (Nat.lt_succ_self _)⟩, hev,
    ⟨le_rfl, fun _ _ p hp => by cases hp⟩, fun p hp => by cases hp⟩
  -- nobody wins a term before it begins
  have hle := (hc.electoral.nodes a ha).honours.won_le _ (hc.won _ _ hl)
  exact Nat.not_succ_le_self _ hle

/-- A candidate enters the next term, and wins it at once when it is alone. -/
theorem exists_entered_runElection (hc : Ledgered cfg L H c) (ha : a ∈ cfg.members)
    (hok : TurnOk cfg c a H H' (c.startTurn a).runElection) :
    ∃ L', Evolves ((c.replicas a).node.log.entries ≠ []) (InLedger L cfg.ids (cfg.replicaId a)
        (c.replicas a).node.commitIndex) (c.replicas a).node.beginTurn
        (c.startTurn a).runElection.replica.node ∧
      Entered cfg L L' H' c a (c.startTurn a).runElection := by
  have hwon : ∀ u v, L.leader u = some v → H'.won u v := fun u v hv =>
    hok.grows.won _ _ (hc.won u v hv)
  have hcand := canvasses_becomeCandidate hc ha
  have hrun : (c.startTurn a).runElection.replica.node =
        ((c.startTurn a).openElection (c.replicas a).node.beginTurn.becomeCandidate).1 ∧
      (c.startTurn a).runElection.replica.elections = (c.replicas a).elections ++
        [((c.startTurn a).openElection (c.replicas a).node.beginTurn.becomeCandidate).2] ∧
      (c.startTurn a).runElection.replied = [] := by
    unfold Turn.runElection
    dsimp only
    rw [Turn.sendAll_eq]
    exact ⟨rfl, rfl, rfl⟩
  obtain ⟨hnode, helections, hreplied⟩ := hrun
  have hn' := hok.node
  have he' := hok.elections _ (helections ▸ List.mem_append_right _ (List.mem_singleton_self _))
  rw [hnode] at hn' ⊢
  obtain ⟨L', hdone⟩ : ∃ L', Canvassed cfg L L' H' c a
      ((c.startTurn a).openElection (c.replicas a).node.beginTurn.becomeCandidate).1
      ((c.startTurn a).openElection (c.replicas a).node.beginTurn.becomeCandidate).2 := by
    unfold Turn.openElection at hn' he' ⊢
    split at hn'
    · next hnil =>
        rw [if_pos hnil] at he' ⊢
        exact hcand.finalize hc ha hok.sound hwon hn' he'
    · next hsome =>
        rw [if_neg hsome]
        exact ⟨L, hcand.done hc.sound hwon⟩
  refine ⟨L', hdone.evolves, Canvassed.entered hc ha (hnode.symm ▸ hdone) (fun e' he' => ?_)
    hreplied⟩
  rw [helections] at he'
  exact (List.mem_append.mp he').imp_right List.mem_singleton.mp

/-- The last `finally` of an election enters nothing. -/
theorem exists_entered_voteFinally (hc : Ledgered cfg L H c) (ha : a ∈ cfg.members) {k : ℕ}
    (h : (c.startTurn a).voteFinally k = some t) (hok : TurnOk cfg c a H H' t) :
    ∃ L', Evolves ((c.replicas a).node.log.entries ≠ []) (InLedger L cfg.ids (cfg.replicaId a)
        (c.replicas a).node.commitIndex) (c.replicas a).node.beginTurn t.replica.node ∧
      Entered cfg L L' H' c a t := by
  have hwon : ∀ u v, L.leader u = some v → H'.won u v := fun u v hv =>
    hok.grows.won _ _ (hc.won u v hv)
  obtain ⟨e, hk, rfl⟩ := Turn.voteFinally_some h
  have hmem : e ∈ (c.replicas a).elections := List.mem_of_getElem? hk
  have hlt : k < (c.replicas a).elections.length := (List.getElem?_eq_some_iff.mp hk).1
  have he := hc.elections a ha e hmem
  have hvoters := hc.electoral.voters_le ha hmem
  have hstart := hc.canvasses ha (e := { e with
    closing := e.closing - 1
    pendingReplies := e.pendingReplies - 1 }) ⟨he.term_le, he.owed⟩ hvoters
  obtain ⟨L', hdone⟩ : ∃ L', Canvassed cfg L L' H' c a
      (Turn.onVoteSettled (c.replicas a).node.beginTurn e).1
      (Turn.onVoteSettled (c.replicas a).node.beginTurn e).2 := by
    have hn' := hok.node
    have he' := hok.elections _ (List.mem_set hlt _)
    unfold Turn.onVoteSettled
    dsimp only
    split
    · next hzero =>
        have hstep : Turn.onVoteSettled (c.startTurn a).replica.node e = _ := if_pos hzero
        rw [hstep] at he'
        simp only [Turn.setElections, Turn.setNode] at hn'
        rw [hstep] at hn'
        exact hstart.finalize hc ha hok.sound hwon hn' he'
    · exact ⟨L, hstart.done hc.sound hwon⟩
  exact ⟨L', hdone.evolves, hdone.entered hc ha (fun e' he' => List.mem_or_eq_of_mem_set he') rfl⟩

/-- A vote that has arrived: whoever cast it has compared its log with the candidate's. -/
theorem Ledgered.granted (hc : Ledgered cfg L H c) (ha : a ∈ cfg.members)
    (he : e ∈ (c.replicas a).elections) {q : ℕ × String} (hq : q ∈ e.awaiting)
    {reply : RequestVoteResult} (hreply : (q.1, RaftNode.Reply.requestVote reply) ∈ c.replies)
    (hgrant : reply.voteGranted = true) :
    (q.2 ∈ cfg.members ∧ e.term ≤ (c.replicas q.2).node.currentTerm) ∧
      ((c.replicas a).node.state = .candidate → (c.replicas a).node.currentTerm = e.term →
        L.Owed (cfg.replicaId q.2) (c.replicas a).node.fullLog e.term) := by
  obtain ⟨args, hpacket, hterm, -⟩ := (hc.electoral.elections a ha e he).asked q hq
  have hsound := hc.replies _ hpacket _ hreply hgrant
  rw [hterm] at hsound
  have hvote := hc.electoral.vote_of_reply hpacket hreply rfl rfl hgrant
  rw [hterm] at hvote
  exact ⟨hvote, hsound⟩

/-- A vote may complete the majority, and a leader enters the ledger. -/
theorem exists_entered_voteReply (hc : Ledgered cfg L H c) (ha : a ∈ cfg.members) {k rpc : ℕ}
    {outcome : Option RequestVoteResult} (hp : c.Possible rpc (outcome.map .requestVote))
    (h : (c.startTurn a).voteReply k rpc outcome = some t) (hok : TurnOk cfg c a H H' t) :
    ∃ L', Evolves ((c.replicas a).node.log.entries ≠ []) (InLedger L cfg.ids (cfg.replicaId a)
        (c.replicas a).node.commitIndex) (c.replicas a).node.beginTurn t.replica.node ∧
      Entered cfg L L' H' c a t := by
  have hL := hc.sound
  have hwon : ∀ u v, L.leader u = some v → H'.won u v := fun u v hv =>
    hok.grows.won _ _ (hc.won u v hv)
  obtain ⟨e, q, hk, hq, rfl⟩ := Turn.voteReply_some h
  have hmem : e ∈ (c.replicas a).elections := List.mem_of_getElem? hk
  have hlt : k < (c.replicas a).elections.length := (List.getElem?_eq_some_iff.mp hk).1
  have he := hc.elections a ha e hmem
  have hvoters := hc.electoral.voters_le ha hmem
  have hstart := hc.canvasses ha (e := Turn.closeVote e rpc) ⟨he.term_le, he.owed⟩ hvoters
  obtain ⟨L', hdone⟩ : ∃ L', Canvassed cfg L L' H' c a
      (Turn.onVoteOutcome (c.replicas a).node.beginTurn (Turn.closeVote e rpc) q.2 outcome).1
      (Turn.onVoteOutcome (c.replicas a).node.beginTurn (Turn.closeVote e rpc) q.2 outcome).2 := by
    cases outcome with
    | none => exact ⟨L, hstart.done hL hwon⟩
    | some reply =>
        have hn' := hok.node
        have he' := hok.elections _ (List.mem_set hlt _)
        obtain ⟨m, e₁, hstep, he₁, hrun⟩ := Turn.onVote_cases (c.replicas a).node.beginTurn
          (Turn.closeVote e rpc) q.2 reply
        have hrpc : q.1 = rpc := by simpa using List.find?_some hq
        have hreply : (q.1, RaftNode.Reply.requestVote reply) ∈ c.replies := hrpc.symm ▸ hp
        have hgranted := hc.granted ha hmem (List.mem_of_find?_eq_some hq) hreply
        -- the vote is counted or not, and the node has stepped down or not
        have hcanvass : Canvasses cfg L c a m e₁ := by
          have hterm : e₁.term = e.term := by
            rcases he₁ with rfl | ⟨-, rfl⟩ <;> rfl
          have hvoters₁ : ∀ p ∈ e₁.voters,
              p ∈ cfg.members ∧ e₁.term ≤ (c.replicas p).node.currentTerm := by
            rcases he₁ with rfl | ⟨hgrant, rfl⟩
            · exact hvoters
            · intro p hp
              rcases List.mem_append.mp hp with hold | hnew
              · exact hvoters p hold
              · rw [List.mem_singleton.mp hnew]
                exact (hgranted hgrant).1
          rcases hstep with rfl | ⟨term, hlater, rfl⟩
          · refine ⟨hstart.node, hstart.follows, hstart.evolves, ⟨hterm ▸ he.term_le, ?_⟩, hvoters₁⟩
            intro hs heq p hp
            rw [hterm] at heq ⊢
            rcases he₁ with rfl | ⟨hgrant, rfl⟩
            · exact he.owed hs heq p hp
            · rcases List.mem_append.mp hp with hold | hnew
              · exact he.owed hs heq p hold
              · rw [List.mem_singleton.mp hnew]
                exact (hgranted hgrant).2 hs heq
          · have hturned := turned_becomeFollower (c := c) hL hstart.node none none hlater
            have hf := hturned.steps.follows
            have hfollower : ((c.replicas a).node.beginTurn.becomeFollower term none none).state =
                .follower := by
              unfold RaftNode.becomeFollower
              dsimp only
              split <;> rfl
            refine ⟨hturned.steps.node, ⟨hf.term_le, hf.commit_le, hf.committed, hf.campaign⟩,
              hturned.evolves, ⟨hterm ▸ he.term_le.trans hf.term_le, fun hs => ?_⟩, hvoters₁⟩
            exact absurd (hfollower.symm.trans hs) (by decide)
        have hout : Turn.onVoteOutcome (c.replicas a).node.beginTurn (Turn.closeVote e rpc) q.2
            (some reply) = Turn.onVote (c.replicas a).node.beginTurn (Turn.closeVote e rpc) q.2
              reply := rfl
        rw [hout]
        rcases hrun with hrun | hrun
        · rw [hrun]
          exact ⟨L, hcanvass.done hL hwon⟩
        · have hn'' : NodeOk cfg H' a (Turn.onVote (c.replicas a).node.beginTurn
              (Turn.closeVote e rpc) q.2 reply).1 := hn'
          have he'' : ElectionOk cfg H' (c.wire ++ []) a (Turn.onVote (c.replicas a).node.beginTurn
              (Turn.closeVote e rpc) q.2 reply).2 := he'
          rw [hrun] at hn'' he'' ⊢
          exact hcanvass.finalize hc ha hok.sound hwon hn'' he''
  exact ⟨L', hdone.evolves, hdone.entered hc ha (fun e' he' => List.mem_or_eq_of_mem_set he') rfl⟩

/-! ## Events -/

/-- **Every turn that heeds** continues the ledger, and its files are in keeping with
the ledger at every crash point. -/
theorem exists_entered (hc : Ledgered cfg L H c) (ha : action.replica ∈ cfg.members)
    (hheed : c.Heeds cfg action) (h : c.turn action = some t)
    (hok : TurnOk cfg c action.replica H H' t) :
    ∃ L₁ L', Grown cfg c action.replica L L₁ ∧ L₁.leader = L.leader ∧
      Evolves ((c.replicas action.replica).node.log.entries ≠ [])
        (InLedger L₁ cfg.ids (cfg.replicaId action.replica)
          (c.replicas action.replica).node.commitIndex)
        (c.replicas action.replica).node.beginTurn t.replica.node ∧
      Entered cfg L L' H' c action.replica t := by
  have hL := hc.sound
  by_cases hvotes : action.Votes
  · obtain ⟨L', hev, hentered⟩ : ∃ L', Evolves ((c.replicas action.replica).node.log.entries ≠ [])
        (InLedger L cfg.ids (cfg.replicaId action.replica)
          (c.replicas action.replica).node.commitIndex)
        (c.replicas action.replica).node.beginTurn t.replica.node ∧
        Entered cfg L L' H' c action.replica t := by
      cases action with
      | electionTimeout a =>
          simp only [Cluster.turn] at h
          split at h
          · obtain rfl := Option.some.inj h
            have hb := (hc.nodes a ha).beginTurn
            refine ⟨L, .refl hb.coherent ⟨hb.standing, le_rfl⟩, .refl hL, fun u v hv => ?_, hb,
              ⟨le_rfl, le_rfl, rfl, fun hs => Or.inr ⟨hs, rfl, .refl _ _⟩⟩, fun e he => ?_,
              fun p _ _ r hr => by cases hr⟩
            · exact hok.grows.won _ _ (hc.won u v hv)
            · exact ⟨(hc.elections a ha e he).term_le, (hc.elections a ha e he).owed⟩
          · obtain rfl := Option.some.inj h
            exact exists_entered_runElection hc ha hok
      | voteReply a k rpc outcome =>
          simp only [Cluster.turn, Option.ite_none_right_eq_some] at h
          exact exists_entered_voteReply hc ha h.1 h.2 hok
      | voteFinally a k => exact exists_entered_voteFinally hc ha h hok
      | _ => exact absurd hvotes not_false
    exact ⟨L, L', .refl hL, rfl, hev, hentered⟩
  · obtain ⟨L₁, L₂, hturned, helections, hreplied⟩ := exists_turned hc ha hheed h hvotes
    have hsteps := hturned.steps
    have hf := hsteps.follows
    have hfollows : Follows L₂ (c.replicas action.replica).node t.replica.node :=
      ⟨hf.term_le, hf.commit_le, hf.committed, hf.campaign⟩
    refine ⟨L₁, L₂, hturned.grown, hturned.leader, hturned.evolves, hsteps.grown,
      fun u v hv => ?_, hsteps.node, hfollows, fun e he => ?_, hreplied⟩
    · exact hok.grows.won _ _ (hc.won u v (hsteps.leader ▸ hv))
    · rw [helections] at he
      exact (hc.elections _ ha e he).follow hL hsteps.grown ha hfollows
        (hc.electoral.voters_le ha he)

/-- A turn heeds what it is told, and a crash does not fall between the cut of a log
that is not empty and the snapshot that stands in for it. -/
def Cluster.Careful (cfg : Config) (c : Cluster) : Cluster.Event → Prop
  | .act action => c.Heeds cfg action
  | .crash action calls => c.Heeds cfg action ∧ ∀ t, c.turn action = some t →
      Torn t.replica.node.calls calls → (c.replicas action.replica).node.log.entries = []
  | .restart _ _ => True

/-- Coming up again takes no term back. -/
theorem term_le_of_reboot (hle : (c.replicas a).node.currentTerm ≤
    ((c.reboot cfg a p).replicas a).node.currentTerm) {G : Holding} (hp : p.Meets G) :
    (c.replicas a).node.currentTerm ≤ p.loadState.currentTerm := by
  rw [Cluster.replicas_reboot_self] at hle
  exact hle.trans_eq (RaftNode.coherent_construct (cfg.params a) hp).2.2.2.1

/-- **The step lemma.**  A careful event continues the ledger. -/
theorem Ledgered.next (hc : Ledgered cfg L H c) {e : Cluster.Event} (hok : c.Careful cfg e)
    (h : Cluster.next cfg c e = some c') :
    ∃ L' H', L.Grows L' ∧ Ledgered cfg L' H' c' := by
  have hL := hc.sound
  obtain ⟨H₀, hcont, hc₀, hterms⟩ := hc.electoral.next h
  rcases Cluster.next_cases h with ⟨action, t, rfl, ha, ht, rfl⟩ |
    ⟨action, t, calls, rfl, ha, ht, rfl⟩ | ⟨a, calls, rfl, ha, rfl⟩
  · obtain ⟨H', hturn⟩ := exists_turnOk hc.electoral ha ht
    obtain ⟨-, L', -, -, -, hentered⟩ := exists_entered hc ha hok ht hturn
    exact ⟨L', H', hentered.grown.grows,
      hc.finishTurn ha ht (hc.electoral.finishTurn ha ht hturn) hentered⟩
  · obtain ⟨H', hturn⟩ := exists_turnOk hc.electoral ha ht
    obtain ⟨L₁, -, hg, hlead, hev, -⟩ := exists_entered hc ha hok.1 ht hturn
    have hmeets : ((c.files action.replica).replay (t.replica.node.calls.take calls)).Meets
        (InLedger L₁ cfg.ids (cfg.replicaId action.replica)
          (c.replicas action.replica).node.commitIndex) := by
      obtain ⟨made, hcalls, -, hspan⟩ := hev.spans
      have hcalls : t.replica.node.calls = made := hcalls
      rw [hcalls]
      exact hspan calls fun ⟨hfull, htorn⟩ => hfull (hok.2 t ht (hcalls ▸ htorn))
    refine ⟨L₁, H₀, hg.grows, hc.reboot ha hc₀ hg (fun u v hv => ?_) ?_ hmeets⟩
    · exact hcont.won _ _ (hc.won u v (hlead ▸ hv))
    · exact term_le_of_reboot (hterms _ ha) hmeets
  · have hold := hc.nodes a ha
    have hmeets := (RaftNode.coherent_construct (cfg.params a)
      (hold.coherent.meets (G := InLedger L cfg.ids (cfg.replicaId a)
        (c.replicas a).node.commitIndex) ⟨hold.standing, le_rfl⟩)).2.2.2.2 calls
    refine ⟨L, H₀, .refl L, hc.reboot ha hc₀ (.refl hL) (fun u v hv => ?_) ?_ hmeets⟩
    · exact hcont.won _ _ (hc.won u v hv)
    · exact term_le_of_reboot (hterms _ ha) hmeets

/-- **The run lemma.**  Every careful run is entered in one ledger. -/
theorem Ledgered.reach (hc : Ledgered cfg L H c)
    (h : Cluster.Reach cfg (Cluster.Careful cfg) c c') :
    ∃ L' H', L.Grows L' ∧ Ledgered cfg L' H' c' := by
  induction h with
  | refl => exact ⟨L, H, .refl L, hc⟩
  | tail _ hok hstep ih =>
      obtain ⟨L₁, H₁, hg₁, hc₁⟩ := ih
      obtain ⟨L₂, H₂, hg₂, hc₂⟩ := hc₁.next hok hstep
      exact ⟨L₂, H₂, hg₁.trans hg₂, hc₂⟩

end QuorumCanvas
