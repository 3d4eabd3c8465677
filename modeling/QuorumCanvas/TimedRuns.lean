import QuorumCanvas.ElectionSafety
import QuorumCanvas.TimerRoles

/-!
# Runs in which timers fire only when armed

The cluster's timers are free, which does no harm to what holds of every run.  What
can be brought about needs the timers of the code: an election timer fires only
while it is armed, and fires once; the heartbeat interval fires only while it runs.

A turn of a timed run is an event of its replica by itself (`alone_turn`), so the
timers match the roles in every timed run: a member that does not lead has its
election timer armed, or holds an open election that will arm it (`Primed`).
-/

namespace QuorumCanvas

open RaftNode (Reply)

/-- What an action is to the replica whose turn it is. -/
def Action.alone : Action → Alone.Event
  | .electionTimeout _ => .electionTimer
  | .voteReply _ k rpc outcome => .voteReply k rpc outcome
  | .voteFinally _ k => .voteFinally k
  | .sendHeartbeats _ => .heartbeatTimer
  | .roundResume _ k => .roundResume k
  | .sendReply _ k outcome => .sendReply k outcome
  | .sendFinally _ k => .sendFinally k
  | .clientWrite _ stroke => .clientWrite stroke
  | .writeResume _ k => .writeResume k
  | .requestCatchUp _ => .requestCatchUp
  | .catchUpReply _ k outcome => .catchUpReply k outcome
  | .readBoardState _ boardId => .readBoardState boardId
  | .readReply _ k rpc outcome => .readReply k rpc outcome
  | .readResume _ k => .readResume k
  | .readFinish _ k => .readFinish k
  | .deliver packet => .deliver packet

namespace Cluster

/-- The election timer of `a` has fired and is no longer armed. -/
def expire (c : Cluster) (a : String) : Cluster :=
  let node := (c.replicas a).node.expireElectionTimer
  { c with replicas := Function.update c.replicas a { c.replicas a with node } }

/-- The timer that an action comes from fires, which it does only while it is armed. -/
def ring (c : Cluster) : Action → Option Cluster
  | .electionTimeout a =>
      if (c.replicas a).node.timers.electionTimer then some (c.expire a) else none
  | .sendHeartbeats a => if (c.replicas a).node.timers.heartbeatTimer then some c else none
  | _ => some c

/-- What can happen to the cluster by its timers. -/
def timed (cfg : Config) (c : Cluster) : Event → Option Cluster
  | .act action => (c.ring action).bind fun c => next cfg c (.act action)
  | .crash action calls => (c.ring action).bind fun c => next cfg c (.crash action calls)
  | .restart a calls => next cfg c (.restart a calls)

/-- The states reached by timed runs whose events all meet `ok`. -/
abbrev TimedReach (cfg : Config) (ok : Cluster → Event → Prop) : Cluster → Cluster → Prop :=
  Runs.Reach (timed cfg) ok

variable {cfg : Config} {c c' : Cluster} {a b : String}

/-- The timer of the replica has fired. -/
theorem replicas_expire_self (c : Cluster) (a : String) : (c.expire a).replicas a =
    { c.replicas a with node := (c.replicas a).node.expireElectionTimer } :=
  Function.update_self ..

/-- Those of the others have not. -/
theorem replicas_expire_ne (c : Cluster) (h : b ≠ a) :
    (c.expire a).replicas b = c.replicas b :=
  Function.update_of_ne h ..

/-- A timer that fires changes at most whether it is armed. -/
theorem ring_cases {action : Action} (h : c.ring action = some c') :
    c' = c ∨ c' = c.expire action.replica := by
  cases action with
  | electionTimeout a =>
      exact Or.inr (Option.some.inj (Option.ite_none_right_eq_some.mp h).2).symm
  | sendHeartbeats a =>
      exact Or.inl (Option.some.inj (Option.ite_none_right_eq_some.mp h).2).symm
  | _ => exact Or.inl (Option.some.inj h).symm

/-- **The step of a timed run** is a step of the cluster, after a timer has fired or not. -/
theorem timed_cases {e : Event} (h : timed cfg c e = some c') :
    ∃ c₀, (c₀ = c ∨ ∃ a, c₀ = c.expire a) ∧ next cfg c₀ e = some c' := by
  cases e with
  | act action =>
      obtain ⟨c₀, hring, hnext⟩ := Option.bind_eq_some_iff.mp h
      exact ⟨c₀, (ring_cases hring).imp_right fun heq => ⟨_, heq⟩, hnext⟩
  | crash action calls =>
      obtain ⟨c₀, hring, hnext⟩ := Option.bind_eq_some_iff.mp h
      exact ⟨c₀, (ring_cases hring).imp_right fun heq => ⟨_, heq⟩, hnext⟩
  | restart a calls => exact ⟨c, Or.inl rfl, h⟩

/-! ## Votes and terms -/

variable {H : Ballots.History String}

/-- The invariant of elections does not look at timers. -/
theorem electoral_expire (hc : Electoral cfg H c) (a : String) : Electoral cfg H (c.expire a) where
  numbered := ⟨hc.numbered.rpc_lt, hc.numbered.rpc_nodup, hc.numbered.replied⟩
  sound := hc.sound
  nodes := by
    intro b hb
    have hn := hc.nodes b hb
    by_cases hne : b = a
    · subst hne
      rw [replicas_expire_self]
      exact ⟨hn.params, hn.honours, hn.synced.file, hn.synced.currentTerm, hn.synced.votedFor⟩
    · rw [replicas_expire_ne c hne]
      exact hn
  elections := by
    intro b hb e he
    refine hc.elections b hb e ?_
    by_cases hne : b = a
    · subst hne
      rw [replicas_expire_self] at he
      exact he
    · rwa [replicas_expire_ne c hne] at he
  packets := hc.packets
  votes := hc.votes

/-- No term changes. -/
theorem currentTerm_expire (c : Cluster) (a b : String) :
    ((c.expire a).replicas b).node.currentTerm = (c.replicas b).node.currentTerm := by
  by_cases hne : b = a
  · subst hne
    rw [replicas_expire_self]
    rfl
  · rw [replicas_expire_ne c hne]

/-- Timed steps keep the invariant of elections, and no term goes back. -/
theorem electoral_timed (hc : Electoral cfg H c) {e : Event} (h : timed cfg c e = some c') :
    ∃ H', Electoral cfg H' c' ∧
      ∀ b ∈ cfg.members, (c.replicas b).node.currentTerm ≤ (c'.replicas b).node.currentTerm := by
  obtain ⟨c₀, rfl | ⟨a, rfl⟩, hnext⟩ := timed_cases h
  · obtain ⟨H', -, hc', hterm⟩ := hc.next hnext
    exact ⟨H', hc', hterm⟩
  · obtain ⟨H', -, hc', hterm⟩ := (electoral_expire hc a).next hnext
    refine ⟨H', hc', fun b hb => ?_⟩
    rw [← currentTerm_expire c a b]
    exact hterm b hb

/-! ## A turn is an event of one replica -/

/-- **A turn of a timed run is an event of its replica by itself.** -/
theorem alone_turn {action : Action} {t : Turn} {c₀ : Cluster} (hring : c.ring action = some c₀)
    (h : c₀.turn action = some t) :
    Alone.next (c.startTurn action.replica) action.alone = some t := by
  cases action with
  | electionTimeout a =>
      obtain ⟨harmed, heq⟩ := Option.ite_none_right_eq_some.mp hring
      obtain rfl := Option.some.inj heq
      have hstart : (c.expire a).startTurn a =
          (c.startTurn a).setNode (c.startTurn a).replica.node.expireElectionTimer := by
        unfold startTurn
        rw [replicas_expire_self]
        rfl
      simp only [turn, Action.replica, hstart] at h
      refine (if_pos harmed).trans ?_
      rw [← h]
      exact apply_ite some _ _ _
  | sendHeartbeats a =>
      obtain ⟨harmed, heq⟩ := Option.ite_none_right_eq_some.mp hring
      obtain rfl := Option.some.inj heq
      exact (if_pos harmed).trans h
  | voteReply a k rpc outcome =>
      obtain rfl := Option.some.inj hring
      exact (Option.ite_none_right_eq_some.mp h).2
  | sendReply a k outcome =>
      obtain rfl := Option.some.inj hring
      simp only [turn] at h
      split at h
      · exact (Option.ite_none_right_eq_some.mp h).2
      · cases h
  | catchUpReply a k outcome =>
      obtain rfl := Option.some.inj hring
      simp only [turn] at h
      split at h
      · exact (Option.ite_none_right_eq_some.mp h).2
      · cases h
  | readReply a k rpc outcome =>
      obtain rfl := Option.some.inj hring
      exact (Option.ite_none_right_eq_some.mp h).2
  | deliver packet =>
      obtain rfl := Option.some.inj hring
      exact (Option.ite_none_right_eq_some.mp h).2
  | _ =>
      obtain rfl := Option.some.inj hring
      exact h

/-- No member is asked for its vote in its own name. -/
theorem spared_of_ring (hc : Electoral cfg H c) {action : Action} {t : Turn} {c₀ : Cluster}
    (hring : c.ring action = some c₀) (ha : action.replica ∈ cfg.members)
    (h : c₀.turn action = some t) : Alone.Spared (c.startTurn action.replica) action.alone := by
  intro packet args hev hreq hown
  cases action with
  | deliver p =>
      obtain rfl : p = packet := by injection hev
      obtain rfl := Option.some.inj hring
      have hp := hc.packets p (Option.ite_none_right_eq_some.mp h).1
      obtain ⟨hname, hpeer⟩ := hp.vote args hreq
      have hid : (c.replicas p.dst).node.replicaId = cfg.replicaId p.dst :=
        congrArg RaftNode.Params.replicaId (hc.nodes p.dst ha).params
      have hsame : cfg.replicaId p.src = cfg.replicaId p.dst :=
        hname.symm.trans (hown.2.1.trans hid)
      exact cfg.replicaId_ne hp.src hpeer hsame.symm
  | _ => cases hev

end Cluster

/-! ## Elections that are still open -/

namespace Alone

variable {t t' : Turn}

/-- An election that is not settled is short of a majority. -/
def Short (n : RaftNode) (e : Election) : Prop := e.settled = false → e.votesGranted < n.majority

/-- The majority is that of the configuration. -/
theorem majority_of_params {n n' : RaftNode} (h : n'.params = n.params) :
    n'.majority = n.majority := by
  have hpeers : n'.peers = n.peers := congrArg RaftNode.Params.peers h
  unfold RaftNode.majority
  rw [hpeers]

/-- No event changes how a node is set up. -/
theorem params_next {ev : Event} (hstop : ev ≠ .stop) (h : next t ev = some t') :
    t'.replica.node.params = t.replica.node.params := by
  have hpolls : ∀ {e e' : Election}, Polls t ev e t'.replica.node e' →
      t'.replica.node.params = t.replica.node.params := by
    intro e e' hpolls
    cases hpolls with
    | idle hno hlost hnode hopen => rw [hnode]
    | won hwins hopen hnode =>
        rw [hnode]
        rfl
    | retried hre hlost hopen hnode =>
        rw [hnode]
        rfl
    | overtaken hre hlost hopen hyields =>
        obtain ⟨term, votedFor, -, hstance⟩ := hyields
        exact congrArg Stance.params hstance
  by_cases hsteers : ev.Steers
  · cases ev with
    | electionTimer =>
        rcases next_electionTimer h with ⟨-, -, hexpire⟩ | ⟨-, e, -, -, hlead | ⟨hcampaign, -⟩⟩
        · exact congrArg Stance.params hexpire
        · exact congrArg Stance.params hlead
        · exact congrArg Stance.params hcampaign
    | voteReply k rpc outcome =>
        obtain ⟨e, e', -, -, -, -, hpoll⟩ := next_voteReply h
        exact hpolls hpoll
    | voteFinally k =>
        obtain ⟨e, e', -, -, -, -, hpoll⟩ := next_voteFinally h
        exact hpolls hpoll
    | stop => exact absurd rfl hstop
    | _ => exact absurd hsteers not_false
  · cases (next_plain h hsteers).2 with
    | rested hno hsame => exact congrArg Stance.params hsame
    | followed hre hyields =>
        obtain ⟨term, votedFor, -, hstance⟩ := hyields
        exact congrArg Stance.params hstance
    | granted packet args hev hreq hgrant hstance => exact congrArg Stance.params hstance

/-- A counted vote that makes a majority settles the election. -/
theorem Short.onVoteOutcome {n : RaftNode} {e : Election} (h : Short n e) (peer : String)
    (outcome : Option RequestVoteResult) : Short n (Turn.onVoteOutcome n e peer outcome).2 := by
  cases outcome with
  | none => exact h
  | some reply =>
      show Short n (Turn.onVote n e peer reply).2
      by_cases hopen : e.Open n
      · rw [onVote_open hopen]
        split
        · exact nofun
        · split
          · split
            · exact nofun
            · next hfew => exact fun _ => not_le.mp hfew
          · exact h
      · rw [onVote_closed hopen]
        exact h

/-- A `finally` is no vote. -/
theorem Short.onVoteSettled {n : RaftNode} {e : Election} (h : Short n e) :
    Short n (Turn.onVoteSettled n e).2 := by
  rw [onVoteSettled_eq]
  split
  · rw [finalize_counters]
    exact nofun
  · exact h

/-- A new election has one vote, which is a majority only without peers. -/
theorem short_openElection (t : Turn) (n : RaftNode) : Short n (t.openElection n).2 := by
  unfold Turn.openElection
  split
  · rw [finalize_counters]
    exact nofun
  · next hpeers =>
      intro _
      show 1 < n.majority
      have hpos := List.length_pos_iff.mpr hpeers
      unfold RaftNode.majority
      omega

/-- **Every event** leaves the open elections short of a majority. -/
theorem short_next {ev : Event} (hstop : ev ≠ .stop)
    (h : ∀ e ∈ t.replica.elections, Short t.replica.node e) (hnext : next t ev = some t') :
    ∀ e ∈ t'.replica.elections, Short t'.replica.node e := by
  have hmajority := majority_of_params (params_next hstop hnext)
  have hsame : ∀ {e : Election}, Short t.replica.node e → Short t'.replica.node e :=
    fun hs hopen => hmajority ▸ hs hopen
  have hset : ∀ {k : ℕ} {e' : Election}, Short t.replica.node e' →
      t'.replica.elections = t.replica.elections.set k e' →
      ∀ e ∈ t'.replica.elections, Short t'.replica.node e := by
    intro k e' hs heq e he
    rw [heq] at he
    rcases List.mem_or_eq_of_mem_set he with hold | rfl
    · exact hsame (h e hold)
    · exact hsame hs
  by_cases hsteers : ev.Steers
  · cases ev with
    | electionTimer =>
        obtain rfl := Option.some.inj (Option.ite_none_right_eq_some.mp hnext).2
        by_cases hlead : t.replica.node.state = .leader
        · have hturn : t.onElectionTimeout = t.setNode t.replica.node.expireElectionTimer :=
            if_pos hlead
          rw [hturn]
          exact h
        · let s := t.setNode t.replica.node.expireElectionTimer
          have hturn : t.onElectionTimeout = s.runElection := if_neg hlead
          have helections : s.runElection.replica.elections = t.replica.elections ++
              [(s.openElection s.replica.node.becomeCandidate).2] := by
            unfold Turn.runElection
            dsimp only
            rw [Turn.sendAll_eq]
            rfl
          rw [hturn] at hsame ⊢
          intro e he
          rw [helections] at he
          rcases List.mem_append.mp he with hold | hnew
          · exact hsame (h e hold)
          · rw [List.mem_singleton.mp hnew]
            exact hsame (short_openElection s s.replica.node.becomeCandidate)
    | voteReply k rpc outcome =>
        obtain ⟨e, q, hk, -, rfl⟩ := Turn.voteReply_some hnext
        have hs : Short t.replica.node (Turn.closeVote e rpc) := h e (List.mem_of_getElem? hk)
        exact hset (hs.onVoteOutcome q.2 outcome) rfl
    | voteFinally k =>
        obtain ⟨e, hk, rfl⟩ := Turn.voteFinally_some hnext
        exact hset (h e (List.mem_of_getElem? hk)).onVoteSettled rfl
    | stop => exact absurd rfl hstop
    | _ => exact absurd hsteers not_false
  · rw [(next_plain hnext hsteers).1]
    exact fun e he => hsame (h e he)

/-- The timers match the role, and open elections are short of a majority. -/
structure Primed (t : Turn) : Prop where
  attuned : Attuned t
  short : ∀ e ∈ t.replica.elections, Short t.replica.node e

theorem Primed.congr (h : Primed t) (helections : t'.replica.elections = t.replica.elections)
    (hstance : t'.replica.node.stance = t.replica.node.stance) : Primed t' := by
  refine ⟨⟨?_, helections ▸ h.attuned.tallied⟩, fun e he hopen => ?_⟩
  · rw [hstance]
    exact h.attuned.stance.mono fun hheld => hheld.congr helections hstance
  · rw [majority_of_params (congrArg Stance.params hstance)]
    exact h.short e (helections ▸ he) hopen

/-- A new replica waits for a leader. -/
theorem primed_boot (params : RaftNode.Params) (p : Persistence) : Primed (boot params p) :=
  ⟨attuned_boot, fun e he => by cases he⟩

/-- Every event of the replica keeps it primed. -/
theorem Primed.next {ev : Event} (h : Primed t) (hstop : ev ≠ .stop) (hok : Spared t ev)
    (hnext : next t ev = some t') : Primed t' :=
  ⟨h.attuned.step hstop hok hnext, short_next hstop h.short hnext⟩

end Alone

namespace Cluster

variable {cfg : Config} {c c' : Cluster} {a b : String} {H : Ballots.History String}

/-! ## The timers of a timed run -/

/-- All members are primed. -/
def Primed (cfg : Config) (c : Cluster) : Prop := ∀ a ∈ cfg.members, Alone.Primed (c.startTurn a)

/-- Between turns as well. -/
theorem primed_startTurn {t : Turn} (h : Alone.Primed t) (heq : c.replicas a = t.replica) :
    Alone.Primed (c.startTurn a) := by
  refine h.congr ?_ ?_
  · show (c.replicas a).elections = _
    rw [heq]
  · show (c.replicas a).node.stance = _
    rw [heq]

/-- Events of others do not touch it. -/
theorem primed_replicas (h : Alone.Primed (c.startTurn a)) (heq : c'.replicas a = c.replicas a) :
    Alone.Primed (c'.startTurn a) := by
  have hstart : c'.startTurn a = { c.startTurn a with fresh := c'.nextId } := by
    unfold startTurn
    rw [heq]
  rw [hstart]
  exact h.congr rfl rfl

/-- At the start every replica is primed. -/
theorem primed_init (cfg : Config) : Primed cfg (.init cfg) := fun a _ =>
  (Alone.primed_boot (cfg.params a) (.fresh (cfg.backend a))).congr rfl rfl

/-- A replica that comes up again is primed, and the others stay so. -/
theorem Primed.reboot (h : Primed cfg c) (a : String) (p : Persistence) :
    Primed cfg (c.reboot cfg a p) := by
  intro b hb
  by_cases hne : b = a
  · subst hne
    exact primed_startTurn (Alone.primed_boot (cfg.params b) p) (replicas_reboot_self c b p)
  · exact primed_replicas (h b hb) (replicas_reboot_ne c p hne)

/-- What a timer that fires leaves of the invariants: all of the cluster's, and the timers of the
other members. -/
theorem ring_spec (hc : Electoral cfg H c) {action : Action} (h : c.ring action = some c') :
    Electoral cfg H c' ∧ ∀ b, b ≠ action.replica → c'.replicas b = c.replicas b := by
  rcases ring_cases h with rfl | rfl
  · exact ⟨hc, fun _ _ => rfl⟩
  · exact ⟨electoral_expire hc _, fun _ hne => replicas_expire_ne c hne⟩

/-- **A timed step** keeps the members primed. -/
theorem Primed.timed (h : Primed cfg c) (hc : Electoral cfg H c) {e : Event}
    (hstep : timed cfg c e = some c') : Primed cfg c' := by
  cases e with
  | act action =>
      obtain ⟨c₀, hring, hnext⟩ := Option.bind_eq_some_iff.mp hstep
      obtain ⟨hc₀, hother⟩ := ring_spec hc hring
      simp only [next, Option.ite_none_right_eq_some, Option.map_eq_some_iff] at hnext
      obtain ⟨ha, t, ht, rfl⟩ := hnext
      intro b hb
      by_cases hne : b = action.replica
      · subst hne
        have hturn := alone_turn hring ht
        have hstop : action.alone ≠ .stop := by cases action <;> simp [Action.alone]
        have hprimed := (h _ ha).next hstop (spared_of_ring hc hring ha ht) hturn
        exact primed_startTurn hprimed (replicas_finishTurn_self c₀ action.replica t)
      · exact primed_replicas (h b hb)
          ((replicas_finishTurn_ne c₀ t hne).trans (hother b hne))
  | crash action calls =>
      obtain ⟨c₀, hring, hnext⟩ := Option.bind_eq_some_iff.mp hstep
      obtain ⟨-, hother⟩ := ring_spec hc hring
      simp only [next, Option.ite_none_right_eq_some, Option.map_eq_some_iff] at hnext
      obtain ⟨ha, t, ht, rfl⟩ := hnext
      intro b hb
      by_cases hne : b = action.replica
      · subst hne
        exact primed_startTurn (Alone.primed_boot _ _) (replicas_reboot_self c₀ _ _)
      · exact primed_replicas (h b hb) ((replicas_reboot_ne c₀ _ hne).trans (hother b hne))
  | restart a calls =>
      simp only [Cluster.timed, next, Option.ite_none_right_eq_some] at hstep
      obtain ⟨ha, heq⟩ := hstep
      obtain rfl := Option.some.inj heq
      exact h.reboot a _

/-- **The timers of a timed run.**  Every state that it reaches keeps the invariant of elections,
with all members primed, and no term has gone back. -/
theorem timedReach_spec {ok : Cluster → Event → Prop} (hc : Electoral cfg H c) (hp : Primed cfg c)
    (h : TimedReach cfg ok c c') :
    ∃ H', Electoral cfg H' c' ∧ Primed cfg c' ∧
      ∀ b ∈ cfg.members, (c.replicas b).node.currentTerm ≤ (c'.replicas b).node.currentTerm := by
  induction h with
  | refl => exact ⟨H, hc, hp, fun _ _ => le_rfl⟩
  | tail _ _ hstep ih =>
      obtain ⟨H₁, hc₁, hp₁, hle₁⟩ := ih
      obtain ⟨H₂, hc₂, hle₂⟩ := electoral_timed hc₁ hstep
      exact ⟨H₂, hc₂, hp₁.timed hc₁ hstep, fun b hb => (hle₁ b hb).trans (hle₂ b hb)⟩

end Cluster

end QuorumCanvas
