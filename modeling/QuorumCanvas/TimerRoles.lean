import QuorumCanvas.Alone

/-!
# Timers match the role

A leader runs the heartbeat interval and no election timer; any other node runs
no heartbeat interval; a follower has its election timer armed, and a candidate
has it armed or an open election that will arm it.  `Attuned` is the invariant;
it holds from the start and is kept by every event but one: a vote request in
the node's own name, which a leader grants and which arms its election timer.
-/

namespace QuorumCanvas

namespace Stance

/-- The timers match the role; `held` says that an open election is held. -/
structure Attuned (s : Stance) (held : Prop) : Prop where
  callback : s.timers.electionCallback = true
  leads : s.state = .leader → s.timers.heartbeatTimer = true ∧ s.timers.electionTimer = false
  quiet : s.state ≠ .leader → s.timers.heartbeatTimer = false
  follows : s.state = .follower → s.timers.electionTimer = true
  campaigns : s.state = .candidate → s.timers.electionTimer = true ∨ held
  vote : s.state ≠ .follower → s.votedFor = some s.params.replicaId

namespace Attuned

variable {s : Stance} {held held' : Prop}

theorem mono (h : s.Attuned held) (himp : held → held') : s.Attuned held' :=
  ⟨h.callback, h.leads, h.quiet, h.follows, fun hc => (h.campaigns hc).imp_right himp, h.vote⟩

/-- A follower's timer is armed. -/
theorem follow (h : s.Attuned held) (term : ℕ) (votedFor : Option String) :
    (s.follow term votedFor).Attuned held' := by
  have hcallback : (s.follow term votedFor).timers.electionCallback = true := by
    unfold Stance.follow
    dsimp only
    split <;> exact h.callback
  have helection : (s.follow term votedFor).timers.electionTimer = true := by
    unfold Stance.follow
    dsimp only
    split <;> exact h.callback
  have hheartbeat : (s.follow term votedFor).timers.heartbeatTimer = false := by
    unfold Stance.follow
    dsimp only
    split
    · rfl
    · next hno => exact h.quiet hno
  exact ⟨hcallback, nofun, fun _ => hheartbeat, fun _ => helection, nofun,
    fun hno => absurd rfl hno⟩

/-- A vote may be granted by any node but a leader. -/
theorem grant (h : s.Attuned held) (candidateId : String) (hno : s.state ≠ .leader)
    (hvote : s.votedFor = none ∨ s.votedFor = some candidateId) :
    (s.grant candidateId).Attuned held' := by
  refine ⟨h.callback, fun hlead => absurd hlead hno, h.quiet, fun _ => h.callback,
    fun _ => Or.inl h.callback, fun hstate => ?_⟩
  have hself := h.vote hstate
  rw [hself] at hvote
  rcases hvote with hnone | hsome
  · cases hnone
  · exact hsome.symm

/-- A leader's is not, and its heartbeats go. -/
theorem lead (h : s.Attuned held) (hcandidate : s.state = .candidate) : s.lead.Attuned held' :=
  ⟨h.callback, fun _ => ⟨rfl, rfl⟩, fun hno => absurd rfl hno, nofun, nofun,
    fun _ => h.vote (by rw [hcandidate]; exact nofun)⟩

/-- A candidate's is armed again. -/
theorem retry (h : s.Attuned held) (hcandidate : s.state = .candidate) : s.retry.Attuned held' :=
  ⟨h.callback, fun hlead => absurd (hcandidate.symm.trans hlead) nofun, h.quiet,
    fun hfollow => absurd (hcandidate.symm.trans hfollow) nofun, fun _ => Or.inl h.callback,
    h.vote⟩

/-- A leader can do without a timer that has expired. -/
theorem expire (h : s.Attuned held) (hlead : s.state = .leader) : s.expire.Attuned held' :=
  ⟨h.callback, fun _ => ⟨(h.leads hlead).1, rfl⟩, h.quiet,
    fun hfollow => absurd (hlead.symm.trans hfollow) nofun,
    fun hcandidate => absurd (hlead.symm.trans hcandidate) nofun, h.vote⟩

/-- A candidate's waits for its election. -/
theorem campaign (h : s.Attuned held) (hno : s.state ≠ .leader) (hheld : held') :
    s.campaign.Attuned held' :=
  ⟨h.callback, nofun, fun _ => h.quiet hno, nofun, fun _ => Or.inr hheld, fun _ => rfl⟩

end Attuned

end Stance

namespace Alone

variable {t t' : Turn} {params : RaftNode.Params} {p : Persistence}

/-- Some election held is still open for the node. -/
def HoldsOpen (t : Turn) : Prop :=
  ∃ (k : ℕ) (e : Election), t.replica.elections[k]? = some e ∧ e.Open t.replica.node

/-- The invariant. -/
structure Attuned (t : Turn) : Prop where
  stance : t.replica.node.stance.Attuned (HoldsOpen t)
  tallied : ∀ e ∈ t.replica.elections, Tallied e

/-- Election `k` is unsettled in the node's term and still waits for a peer's
promise or its `finally`; whatever event settles it makes the node the leader,
finds it no longer a candidate of that term, or arms its election timer. -/
structure Waits (t : Turn) (k : ℕ) (e : Election) : Prop where
  held : t.replica.elections[k]? = some e
  unsettled : e.settled = false
  term : e.term = t.replica.node.currentTerm
  pending : e.awaiting ≠ [] ∨ 0 < e.closing
  settles : ∀ ev t' e', next t ev = some t' → t'.replica.elections[k]? = some e' →
    e'.settled = true →
      t'.replica.node.state = .leader ∨
      ¬ (t'.replica.node.state = .candidate ∧ t'.replica.node.currentTerm = e.term) ∨
      t'.replica.node.timers.electionTimer = true

/-- **Timers match the role.** -/
structure TimersMatch (t : Turn) : Prop where
  leader : t.replica.node.state = .leader →
    t.replica.node.timers.heartbeatTimer = true ∧ t.replica.node.timers.electionTimer = false
  quiet : t.replica.node.state ≠ .leader → t.replica.node.timers.heartbeatTimer = false
  follower : t.replica.node.state = .follower → t.replica.node.timers.electionTimer = true
  candidate : t.replica.node.state = .candidate →
    t.replica.node.timers.electionTimer = true ∨ ∃ k e, Waits t k e

/-- A request for a vote in the node's own name, in the term it leads and with a
log as good as its own. -/
def OwnName (n : RaftNode) (args : RequestVoteArgs) : Prop :=
  n.state = .leader ∧ args.candidateId = n.replicaId ∧ args.term = n.currentTerm ∧
    n.isLogUpToDate args.lastLogIndex args.lastLogTerm = true

/-- No such request is delivered. -/
def Spared (t : Turn) (ev : Event) : Prop :=
  ∀ packet args, ev = .deliver packet → packet.request = .requestVote args →
    ¬ OwnName t.replica.node args

/-- A new node waits for a leader. -/
theorem attuned_boot : Attuned (boot params p) := by
  refine ⟨?_, fun e he => by cases he⟩
  have hstance : (boot params p).replica.node.stance =
      ⟨params, p.loadState.currentTerm, p.loadState.votedFor, .follower, ⟨true, true, false⟩⟩ :=
    RaftNode.stance_construct params p
  rw [hstance]
  exact ⟨rfl, nofun, fun _ => rfl, fun _ => rfl, nofun, fun hno => absurd rfl hno⟩

/-- An election stays open for a node of the same stance. -/
theorem open_congr {e : Election} {n n' : RaftNode} (h : n'.stance = n.stance) :
    e.Open n' ↔ e.Open n := by
  have hstate : n'.state = n.state := congrArg Stance.state h
  have hterm : n'.currentTerm = n.currentTerm := congrArg Stance.currentTerm h
  exact ⟨fun ho => ⟨ho.1, hstate ▸ ho.2, hterm ▸ ho.3⟩,
    fun ho => ⟨ho.1, hstate.symm ▸ ho.2, hterm.symm ▸ ho.3⟩⟩

theorem HoldsOpen.congr (h : HoldsOpen t) (helections : t'.replica.elections = t.replica.elections)
    (hstance : t'.replica.node.stance = t.replica.node.stance) : HoldsOpen t' := by
  obtain ⟨k, e, hk, hopen⟩ := h
  exact ⟨k, e, by rw [helections, hk], (open_congr hstance).mpr hopen⟩

/-- The elections after a callback of one of them. -/
theorem tallied_set {k : ℕ} {e e' : Election} (h : ∀ e ∈ t.replica.elections, Tallied e)
    (hk : t.replica.elections[k]? = some e)
    (hset : t'.replica.elections = t.replica.elections.set k e') (htally : Tallied e → Tallied e') :
    ∀ e ∈ t'.replica.elections, Tallied e := by
  intro x hx
  rw [hset] at hx
  rcases List.mem_or_eq_of_mem_set hx with hold | hnew
  · exact h x hold
  · rw [hnew]
    exact htally (h e (List.mem_of_getElem? hk))

/-- A callback that leaves the node alone leaves open what is open for it. -/
theorem HoldsOpen.set {k : ℕ} {e e' : Election} (h : HoldsOpen t)
    (hk : t.replica.elections[k]? = some e)
    (hset : t'.replica.elections = t.replica.elections.set k e') (hterm : e'.term = e.term)
    (hnode : t'.replica.node = t.replica.node)
    (hopen : e.Open t.replica.node → e'.settled = false) : HoldsOpen t' := by
  obtain ⟨j, x, hj, hx⟩ := h
  by_cases hjk : j = k
  · subst hjk
    obtain rfl := Option.some.inj (hk.symm.trans hj)
    have hlt : j < t.replica.elections.length := (List.getElem?_eq_some_iff.mp hj).1
    refine ⟨j, e', ?_, ⟨hopen hx, ?_, ?_⟩⟩
    · rw [hset, List.getElem?_set_self hlt]
    · rw [hnode]
      exact hx.candidate
    · rw [hnode, hterm]
      exact hx.term
  · refine ⟨j, x, ?_, hnode ▸ hx⟩
    rw [hset, List.getElem?_set_ne (Ne.symm hjk), hj]

/-- One callback of an election keeps the invariant. -/
theorem Attuned.polls {ev : Event} {k : ℕ} {e e' : Election} (h : Attuned t)
    (hk : t.replica.elections[k]? = some e)
    (hset : t'.replica.elections = t.replica.elections.set k e') (hterm : e'.term = e.term)
    (htally : Tallied e → Tallied e') (hpolls : Polls t ev e t'.replica.node e') : Attuned t' := by
  refine ⟨?_, tallied_set h.tallied hk hset htally⟩
  cases hpolls with
  | idle hno hlost hnode hopen =>
      rw [hnode]
      exact h.stance.mono fun hheld => hheld.set hk hset hterm hnode hopen
  | won hwins hopen hnode =>
      rw [hnode]
      exact h.stance.lead hopen.candidate
  | retried hre hlost hopen hnode =>
      rw [hnode]
      exact h.stance.retry hopen.candidate
  | overtaken hre hlost hopen hyields =>
      obtain ⟨term, votedFor, -, hstance⟩ := hyields
      rw [hstance]
      exact h.stance.follow term votedFor

/-- **Every event but a request in the node's own name** keeps the invariant. -/
theorem Attuned.step {ev : Event} (h : Attuned t) (hstop : ev ≠ .stop) (hok : Spared t ev)
    (hnext : next t ev = some t') : Attuned t' := by
  by_cases hsteers : ev.Steers
  · cases ev with
    | electionTimer =>
        rcases next_electionTimer hnext with ⟨hlead, hsame, hexpire⟩ |
          ⟨hno, e, happend, htally, hnode⟩
        · refine ⟨?_, hsame ▸ h.tallied⟩
          rw [hexpire]
          exact h.stance.expire hlead
        · have htallied : ∀ x ∈ t'.replica.elections, Tallied x := by
            intro x hx
            rw [happend] at hx
            rcases List.mem_append.mp hx with hold | hnew
            · exact h.tallied x hold
            · exact List.mem_singleton.mp hnew ▸ htally
          refine ⟨?_, htallied⟩
          rcases hnode with hlead | ⟨hcampaign, hopen⟩
          · rw [hlead]
            exact (h.stance.campaign hno trivial).lead rfl
          · have hheld : HoldsOpen t' :=
              ⟨t.replica.elections.length, e, by rw [happend]; simp, hopen⟩
            rw [hcampaign]
            exact h.stance.campaign hno hheld
    | voteReply k rpc outcome =>
        obtain ⟨e, e', hk, hset, hterm, htally, hpolls⟩ := next_voteReply hnext
        exact h.polls hk hset hterm htally hpolls
    | voteFinally k =>
        obtain ⟨e, e', hk, hset, hterm, htally, hpolls⟩ := next_voteFinally hnext
        exact h.polls hk hset hterm htally hpolls
    | stop => exact absurd rfl hstop
    | _ => exact absurd hsteers not_false
  · obtain ⟨helections, hshifts⟩ := next_plain hnext hsteers
    refine ⟨?_, helections ▸ h.tallied⟩
    cases hshifts with
    | rested hno hsame =>
        rw [hsame]
        exact h.stance.mono fun hheld => hheld.congr helections hsame
    | followed hre hyields =>
        obtain ⟨term, votedFor, -, hstance⟩ := hyields
        rw [hstance]
        exact h.stance.follow term votedFor
    | granted packet args hev hreq hgrant hstance =>
        rw [hstance]
        refine h.stance.grant args.candidateId ?_ hgrant.2.1
        -- a leader has voted for itself, so it grants a vote in its own name only
        intro hlead
        have hvote := h.stance.vote (by rw [hlead]; exact nofun)
        have hvote' : t.replica.node.votedFor = some t.replica.node.replicaId := hvote
        refine hok packet args hev hreq ⟨hlead, ?_, hgrant.1, hgrant.2.2⟩
        rcases hgrant.2.1 with hnone | hsome
        · rw [hvote'] at hnone
          cases hnone
        · exact Option.some.inj (hsome.symm.trans hvote')

/-- How the callback that settles an election leaves the node. -/
theorem Attuned.settles_polls {ev : Event} {e e' : Election} (h : Attuned t)
    (hpolls : Polls t ev e t'.replica.node e') (hopen : e.settled = false)
    (hsettled : e'.settled = true) :
    t'.replica.node.state = .leader ∨
      ¬ (t'.replica.node.state = .candidate ∧ t'.replica.node.currentTerm = e.term) ∨
      t'.replica.node.timers.electionTimer = true := by
  cases hpolls with
  | idle hno hlost hnode hstays =>
      refine Or.inr (Or.inl ?_)
      rw [hnode]
      intro ⟨hstate, hterm⟩
      have hfalse := hstays ⟨hopen, hstate, hterm⟩
      rw [hsettled] at hfalse
      cases hfalse
  | won hwins hopen' hnode =>
      rw [hnode]
      exact Or.inl rfl
  | retried hre hlost hopen' hnode =>
      rw [hnode]
      exact Or.inr (Or.inr h.stance.callback)
  | overtaken hre hlost hopen' hyields =>
      obtain ⟨term, votedFor, -, hstance⟩ := hyields
      have hstate : t'.replica.node.state = .follower := congrArg Stance.state hstance
      refine Or.inr (Or.inl ?_)
      rw [hstate]
      intro hc
      cases hc.1

/-- An event that settles an election is a callback of it. -/
theorem Attuned.settles {ev : Event} {k : ℕ} {e e' : Election} (h : Attuned t)
    (hnext : next t ev = some t') (hk : t.replica.elections[k]? = some e)
    (hopen : e.settled = false) (hk' : t'.replica.elections[k]? = some e')
    (hsettled : e'.settled = true) :
    t'.replica.node.state = .leader ∨
      ¬ (t'.replica.node.state = .candidate ∧ t'.replica.node.currentTerm = e.term) ∨
      t'.replica.node.timers.electionTimer = true := by
  have hkept : t'.replica.elections[k]? = t.replica.elections[k]? → False := by
    intro hsame
    rw [hsame, hk] at hk'
    obtain rfl := Option.some.inj hk'
    rw [hopen] at hsettled
    cases hsettled
  have hcallback : ∀ {j : ℕ} {x x' : Election}, t.replica.elections[j]? = some x →
      t'.replica.elections = t.replica.elections.set j x' → Polls t ev x t'.replica.node x' →
      t'.replica.node.state = .leader ∨
        ¬ (t'.replica.node.state = .candidate ∧ t'.replica.node.currentTerm = e.term) ∨
        t'.replica.node.timers.electionTimer = true := by
    intro j x x' hj hset hpolls
    by_cases hkj : j = k
    · subst hkj
      obtain rfl := Option.some.inj (hk.symm.trans hj)
      have hlt : j < t.replica.elections.length := (List.getElem?_eq_some_iff.mp hj).1
      rw [hset, List.getElem?_set_self hlt] at hk'
      obtain rfl := Option.some.inj hk'
      exact h.settles_polls hpolls hopen hsettled
    · exact (hkept (by rw [hset, List.getElem?_set_ne hkj])).elim
  by_cases hsteers : ev.Steers
  · cases ev with
    | electionTimer =>
        rcases next_electionTimer hnext with ⟨-, hsame, -⟩ | ⟨-, x, happend, -, -⟩
        · exact (hkept (by rw [hsame])).elim
        · have hlt : k < t.replica.elections.length := (List.getElem?_eq_some_iff.mp hk).1
          exact (hkept (by rw [happend, List.getElem?_append_left hlt])).elim
    | voteReply j rpc outcome =>
        obtain ⟨x, x', hj, hset, -, -, hpolls⟩ := next_voteReply hnext
        exact hcallback hj hset hpolls
    | voteFinally j =>
        obtain ⟨x, x', hj, hset, -, -, hpolls⟩ := next_voteFinally hnext
        exact hcallback hj hset hpolls
    | stop =>
        obtain rfl := Option.some.inj hnext
        exact (hkept rfl).elim
    | _ => exact absurd hsteers not_false
  · exact (hkept (by rw [(next_plain hnext hsteers).1])).elim

/-- So the timers match the role. -/
theorem Attuned.timersMatch (h : Attuned t) : TimersMatch t where
  leader := h.stance.leads
  quiet := h.stance.quiet
  follower := h.stance.follows
  candidate := by
    intro hcandidate
    refine (h.stance.campaigns hcandidate).imp_right ?_
    intro ⟨k, e, hk, hopen⟩
    have htally := h.tallied e (List.mem_of_getElem? hk)
    refine ⟨k, e, hk, hopen.unsettled, hopen.term.symm, ?_,
      fun ev t' e' hnext hk' hsettled => h.settles hnext hk hopen.unsettled hk' hsettled⟩
    have hpos := htally.open_pending hopen.unsettled
    rw [htally.pending] at hpos
    by_contra hno
    simp only [not_or, not_not] at hno
    rw [hno.1, List.length_nil] at hpos
    omega

/-- A leader that grants a vote in its own name has its election timer armed. -/
theorem Attuned.breaks {ev : Event} (h : Attuned t) (hno : ¬ Spared t ev)
    (hnext : next t ev = some t') : ¬ TimersMatch t' := by
  unfold Spared at hno
  push Not at hno
  obtain ⟨packet, args, rfl, hreq, hlead, hname, hterm, hlog⟩ := hno
  obtain rfl := Option.some.inj hnext
  have hvote : t.replica.node.votedFor = some t.replica.node.replicaId :=
    h.stance.vote (by rw [show t.replica.node.stance.state = .leader from hlead]; exact nofun)
  have hgrant : t.replica.node.Grants args := ⟨hterm, Or.inr (by rw [hname, hvote]), hlog⟩
  have hnode : (t.deliver packet).replica.node = (t.replica.node.handleRequestVote args).1 := by
    show (t.replica.node.handle packet.request).1 = _
    rw [hreq]
    rfl
  have hstance := t.replica.node.stance_granted args hgrant
  rw [← hnode] at hstance
  have hstate : (t.deliver packet).replica.node.state = .leader :=
    (congrArg Stance.state hstance).trans hlead
  have harmed : (t.deliver packet).replica.node.timers.electionTimer = true :=
    (congrArg (fun s => s.timers.electionTimer) hstance).trans h.stance.callback
  intro hmatch
  have hoff := (hmatch.leader hstate).2
  rw [harmed] at hoff
  cases hoff

/-- **A node never goes dead.**  From `start()`, under any events but `stop`, the
timers match the role in every state of the run if and only if no vote request
in the node's own name is delivered to it while it leads. -/
theorem timers_match_role (params : RaftNode.Params) (p : Persistence) (evs : List Event)
    (hstop : .stop ∉ evs) (h : Runs.exec next (boot params p) evs = some t) :
    Runs.Always next TimersMatch (boot params p) evs ↔
      Runs.ExecOk next Spared (boot params p) evs := by
  have hclass : ∀ ev ∈ evs, ev ≠ .stop := by
    intro ev hmem heq
    exact hstop (heq ▸ hmem)
  apply Runs.always_iff_execOk (I := Attuned) (E := (· ≠ .stop)) (fun _ h => h.timersMatch)
  · intro s ev s' hs hne hok hnext
    exact hs.step hne hok hnext
  · intro s ev s' hs _ hno hnext
    exact hs.breaks hno hnext
  · exact hclass
  · exact attuned_boot
  · exact h

/-- Replica `a` of three. -/
def trioParams : RaftNode.Params := ⟨"a", ["b", "c"], "a", 100, 50⟩

/-- `a` is elected with the vote of `b`. -/
def electedEvents : List Event :=
  [.electionTimer, .voteReply 0 0 (some ⟨1, true, "b"⟩)]

/-- Timers of a leader elected by one vote. -/
theorem timers_match_role_trio :
    Runs.Always next TimersMatch (boot trioParams (.fresh .file)) electedEvents := by
  have hrun : (Runs.exec next (boot trioParams (.fresh .file)) electedEvents).isSome = true := by
    rfl
  obtain ⟨t, ht⟩ := Option.isSome_iff_exists.mp hrun
  refine (timers_match_role trioParams (.fresh .file) electedEvents (by decide) ht).mpr ?_
  refine ⟨?_, fun _ _ => ⟨?_, fun _ _ => trivial⟩⟩
  · intro packet args hev
    cases hev
  · intro packet args hev
    cases hev

/-- A vote request in the name of `a` itself, in the term that it leads. -/
def ownRequest : Packet := ⟨7, "b", "a", .requestVote ⟨1, "a", 0, 0⟩⟩

/-- **A leader with an election timer:** the request above arms it. -/
theorem timers_mismatch :
    ¬ Runs.Always next TimersMatch (boot trioParams (.fresh .file))
      (electedEvents ++ [.deliver ownRequest]) := by
  have hrun : ((Runs.exec next (boot trioParams (.fresh .file))
      (electedEvents ++ [.deliver ownRequest])).map fun t =>
        (t.replica.node.state, t.replica.node.timers)) =
      some (.leader, ⟨true, true, true⟩) := by
    rfl
  obtain ⟨t, ht, hshape⟩ := Option.map_eq_some_iff.mp hrun
  intro halways
  have hmatch := halways.last ht
  have hstate : t.replica.node.state = .leader := congrArg Prod.fst hshape
  have htimers : t.replica.node.timers = ⟨true, true, true⟩ := congrArg Prod.snd hshape
  have hoff := (hmatch.leader hstate).2
  rw [htimers] at hoff
  cases hoff

end Alone

end QuorumCanvas
