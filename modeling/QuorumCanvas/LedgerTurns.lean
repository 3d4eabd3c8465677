import QuorumCanvas.ClusterLedger

/-!
# Turns, entered in the ledger

`Heeds` names the few places where the code takes a message at its word: a commit
index beyond what the message itself has verified, and an acknowledgement that was
given to the leader of an older term.  A turn that observes it goes into the
ledger, one operation at a time: what the node does at every crash point is in
keeping with the ledger `L₁` before the turn's acknowledgements, and what it has
done in the end with the ledger `L₂` after them.
-/

namespace QuorumCanvas

open Ledger (History Standing)
open RaftNode (Backs InLedger Slice Served Request Reply Evolves Stays Op AppendAgrees
  HeartbeatAgrees InstallAgrees CatchUpAgrees)

/-! ## What a turn must observe -/

/-- An acknowledgement that leader `n` counts was given in its own term. -/
def RaftNode.Timely (n : RaftNode) : Request → Reply → Prop
  | .appendEntries args, .appendEntries result => n.state = .leader → result.success = true →
      result.term ≤ n.currentTerm → args.term = n.currentTerm
  | .installSnapshot args, .installSnapshot result => n.state = .leader →
      result.term ≤ n.currentTerm → args.term = n.currentTerm
  | _, _ => True

/-- Node `n` commits nothing on the word of a request that its sender `m` does not
hold as well. -/
def RaftNode.Agreed (n m : RaftNode) : Request → Prop
  | .appendEntries args => AppendAgrees n m args
  | .heartbeat args => HeartbeatAgrees n m args
  | .installSnapshot args => InstallAgrees n args
  | .requestVote _ | .syncLog _ => True

namespace Cluster

/-- **Heed.**  The replica commits nothing on the word of a message that its sender
does not hold as well, and counts no acknowledgement given to the leader of an
older term.  A client's write also needs the replica's name to be none of its
peers' addresses, since `matchIndex` is keyed by both. -/
def Heeds (cfg : Config) (c : Cluster) : Action → Prop
  | .deliver packet =>
      (c.replicas packet.dst).node.Agreed (c.replicas packet.src).node packet.request
  | .sendReply a k (some reply) => ∀ send w, (c.replicas a).sends[k]? = some send →
      send.waiting = some w → (c.replicas a).node.Timely w.2 reply
  | .catchUpReply a k (some result) => ∀ task dst args, (c.replicas a).catchUps[k]? = some task →
      ⟨task.rpc, a, dst, .syncLog args⟩ ∈ c.wire →
      CatchUpAgrees (c.replicas a).node (c.replicas dst).node args.fromIndex result
  | .clientWrite a _ => cfg.replicaId a ∉ cfg.peers a
  | _ => True

end Cluster

variable {cfg : Config} {L L' L₁ L₂ : History String LogEntry} {H H' : Ballots.History String}
  {c : Cluster} {a : String} {action : Action} {n n' : RaftNode}

/-! ## Steps of a node -/

/-- From `n` to `n'`, replica `a` takes the ledger from `L` to `L'`, and nobody is elected. -/
structure Steps (cfg : Config) (c : Cluster) (a : String) (L L' : History String LogEntry)
    (n n' : RaftNode) : Prop where
  grown : Grown cfg c a L L'
  leader : L'.leader = L.leader
  node : Booked cfg L' a n'
  follows : Follows L' n n'

/-- A leader that keeps its term, log and `matchIndex` goes on leading. -/
theorem Leading.of_eq (h : Leading cfg L a n) (hterm : n'.currentTerm = n.currentTerm)
    (hlog : n'.fullLog = n.fullLog) (hmatch : n'.matchIndex = n.matchIndex) :
    Leading cfg L a n' := by
  refine ⟨?_, ?_, ?_, ?_⟩
  · rw [hterm]
    exact h.leader
  · rw [hterm, hlog]
    exact h.log
  · rw [hterm, hlog]
    exact h.acked
  · rw [hterm, hmatch]
    exact h.matched

theorem Booked.beginTurn (h : Booked cfg L a n) : Booked cfg L a n.beginTurn :=
  ⟨h.coherent.of_eq rfl rfl rfl rfl rfl rfl rfl, h.standing,
    fun hlead => (h.leads hlead).of_eq rfl rfl rfl, h.stands⟩

namespace Steps

/-- A node that ends in good standing, and has kept what its role needs. -/
theorem of_standing (hL : L.Sound cfg.ids) (hg : Grown cfg c a L L') (hlead : L'.leader = L.leader)
    (hb : Booked cfg L a n) (hcoh : n'.Coherent)
    (hst : Standing L' cfg.ids (cfg.replicaId a) n'.currentTerm n'.fullLog n'.commitIndex)
    (hcommit : n.commitIndex ≤ n'.commitIndex) (hterm : n.currentTerm ≤ n'.currentTerm)
    (hleads : n'.state = .leader → Leading cfg L' a n')
    (hstands : n'.state = .candidate → n.state = .candidate ∧ n'.currentTerm = n.currentTerm ∧
      L'.Inherits n.fullLog n'.fullLog n'.currentTerm) : Steps cfg c a L L' n n' := by
  refine ⟨hg, hlead, ⟨hcoh, hst, hleads, fun hstate => ?_⟩, hterm, hcommit, ?_, fun hstate => ?_⟩
  · obtain ⟨hold, heq, -⟩ := hstands hstate
    rw [hlead, heq]
    exact hb.stands hold
  · exact Follows.of_standing hg.sound ((hg.grows.settled hL hb.standing.settled).mono hterm)
      hb.standing.commit_le hst hcommit
  · obtain ⟨hold, heq, hin⟩ := hstands hstate
    exact Or.inr ⟨hold, heq.symm, hin⟩

/-- A node that stays in its role, with a log that has what the role needs. -/
theorem of_stays {T : Prop} (hL : L.Sound cfg.ids) (hb : Booked cfg L a n)
    (hev : Evolves T (InLedger L cfg.ids (cfg.replicaId a) n.commitIndex) n n')
    (hstay : Stays n n') (hlog : n'.state = .leader → n'.fullLog = n.fullLog)
    (hin : n'.state = .candidate → L.Inherits n.fullLog n'.fullLog n'.currentTerm) :
    Steps cfg c a L L n n' := by
  refine of_standing hL (.refl hL) rfl hb hev.coherent hev.holds.1 hev.holds.2 hstay.term_le ?_ ?_
  · intro hstate
    obtain ⟨hold, hterm⟩ := hstay.kept (by rw [hstate]; decide)
    exact (hb.leads (hold.symm.trans hstate)).of_eq hterm (hlog hstate) hstay.matchIndex
  · intro hstate
    obtain ⟨hold, hterm⟩ := hstay.kept (by rw [hstate]; decide)
    exact ⟨hold.symm.trans hstate, hterm, hin hstate⟩

/-- A node that stays in its role and keeps its log. -/
theorem of_same_log {T : Prop} (hL : L.Sound cfg.ids) (hb : Booked cfg L a n)
    (hev : Evolves T (InLedger L cfg.ids (cfg.replicaId a) n.commitIndex) n n')
    (hstay : Stays n n') (hlog : n'.fullLog = n.fullLog) : Steps cfg c a L L n n' :=
  of_stays hL hb hev hstay (fun _ => hlog) fun _ => hlog ▸ .refl _ _

/-- The node acknowledges part of the log of its term's leader, which it holds. -/
theorem acknowledge (h : Steps cfg c a L L' n n')
    (hterm : (c.replicas a).node.currentTerm ≤ n'.currentTerm) (hel : L'.Elected n'.currentTerm)
    {k : ℕ} (hk : k ≤ (L'.log n'.currentTerm).length)
    (hp : (L'.log n'.currentTerm).take k <+: n'.fullLog) :
    Steps cfg c a L (L'.acknowledge (cfg.replicaId a) n'.currentTerm k) n n' := by
  have hst := h.node.standing
  refine ⟨h.grown.trans (.acknowledge h.grown.sound hel hk hst.voter_le hterm), h.leader,
    ⟨h.node.coherent, hst.acknowledge hp, fun hlead => ?_, h.node.stands⟩,
    h.follows.term_le, h.follows.commit_le, h.follows.committed, h.follows.campaign⟩
  obtain ⟨hleader, hlog, hacked, hmatched⟩ := h.node.leads hlead
  exact ⟨hleader, hlog, fun k hk => Or.inl (hacked k hk),
    fun p hp k hpos hk => Or.inl (hmatched p hp k hpos hk)⟩

end Steps

/-- What a turn of replica `a` makes of its node: at every crash point it is in
keeping with `L₁`, in which nothing is acknowledged yet, and in the end with `L₂`. -/
structure Turned (cfg : Config) (c : Cluster) (a : String) (L L₁ L₂ : History String LogEntry)
    (n n' : RaftNode) : Prop where
  grown : Grown cfg c a L L₁
  leader : L₁.leader = L.leader
  evolves : Evolves (n.log.entries ≠ []) (InLedger L₁ cfg.ids (cfg.replicaId a) n.commitIndex) n n'
  steps : Steps cfg c a L L₂ n n'

/-- A turn that acknowledges nothing and appends nothing. -/
theorem Turned.of_steps (hL : L.Sound cfg.ids)
    (hev : Evolves (n.log.entries ≠ []) (InLedger L cfg.ids (cfg.replicaId a) n.commitIndex) n n')
    (h : Steps cfg c a L L n n') : Turned cfg c a L L L n n' :=
  ⟨.refl hL, rfl, hev, h⟩

/-! ## Requests -/

section Requests

variable {m N : RaftNode}

/-- **A vote request.** -/
theorem turned_requestVote (hL : L.Sound cfg.ids) (hb : Booked cfg L a n) {src : String}
    {args : RequestVoteArgs} (hreq : RequestSound cfg L src m (.requestVote args)) :
    Turned cfg c a L L L n (n.handle (.requestVote args)).1 ∧
      ReplySound cfg L a m (n.handle (.requestVote args)).1 (.requestVote args)
        (n.handle (.requestVote args)).2 := by
  obtain ⟨-, ℓ, hℓ, hterm, hindex, hlast, hin⟩ := hreq
  obtain ⟨hev, hfull, hvote⟩ := RaftNode.ledger_handleRequestVote (T := n.log.entries ≠ []) hL
    hb.coherent hb.standing hℓ hterm hindex hlast
  refine ⟨.of_steps hL hev (.of_same_log hL hb hev (RaftNode.stays_handleRequestVote n args)
    hfull), ?_⟩
  intro hgrant hstate heq
  exact (hin hstate heq).owed (hvote hgrant)

/-- **A heartbeat.** -/
theorem turned_heartbeat (hL : L.Sound cfg.ids) (hb : Booked cfg L a n) (hm : m.Coherent)
    {src : String} {args : HeartbeatArgs} (hreq : RequestSound cfg L src m (.heartbeat args))
    (hok : HeartbeatAgrees n m args) :
    Turned cfg c a L L L n (n.handle (.heartbeat args)).1 := by
  obtain ⟨hev, hfull⟩ := RaftNode.ledger_handleHeartbeat (T := n.log.entries ≠ []) hL
    hb.coherent hm hb.standing hreq hok
  exact .of_steps hL hev (.of_same_log hL hb hev (RaftNode.stays_handle n (.heartbeat args)) hfull)

/-- **A catch-up request.** -/
theorem turned_syncLog (hL : L.Sound cfg.ids) (ha : a ∈ cfg.members) (hb : Booked cfg L a n)
    {src : String} {args : SyncLogArgs} (hreq : RequestSound cfg L src m (.syncLog args)) :
    Turned cfg c a L L L n (n.handle (.syncLog args)).1 ∧
      ReplySound cfg L a N (n.handle (.syncLog args)).1 (.syncLog args)
        (n.handle (.syncLog args)).2 := by
  obtain ⟨hev, hfull, hserved⟩ := RaftNode.ledger_handleSyncLog (T := n.log.entries ≠ [])
    (L := L) (v := cfg.replicaId a) hb.coherent hb.standing hreq
  exact ⟨.of_steps hL hev (.of_same_log hL hb hev (RaftNode.stays_handle n (.syncLog args)) hfull),
    ha, hserved⟩

/-- A leader's message that is accepted makes its receiver acknowledge what it then holds. -/
theorem Turned.accept (hL : L.Sound cfg.ids) (hb : Booked cfg L a n)
    (hcur : (c.replicas a).node.currentTerm = n.currentTerm) {request : Request} {l : ℕ × String}
    (hl : request.leader? = some l) (hel : L.Elected l.1) {k : ℕ}
    (hev : Evolves (n.log.entries ≠ []) (InLedger L cfg.ids (cfg.replicaId a) n.commitIndex) n
      (n.handle request).1)
    (hcopied : n.currentTerm ≤ l.1 → k ≤ (L.log l.1).length ∧
      (L.log l.1).take k <+: (n.handle request).1.fullLog)
    (hle : n.currentTerm ≤ l.1) :
    Turned cfg c a L L (L.acknowledge (cfg.replicaId a) l.1 k) n (n.handle request).1 := by
  obtain ⟨hstate, hterm⟩ : (n.handle request).1.state = .follower ∧
      (n.handle request).1.currentTerm = l.1 := by
    rcases RaftNode.handle_leader n hl with ⟨hlt, -⟩ | ⟨-, hrole⟩
    · omega
    · exact hrole
  obtain ⟨hlen, hp⟩ := hcopied hle
  have hsteps : Steps cfg c a L L n (n.handle request).1 := by
    refine .of_stays hL hb hev (RaftNode.stays_handle n request) (fun hs => ?_) fun hs => ?_
    · exact absurd (hstate.symm.trans hs) (by decide)
    · exact absurd (hstate.symm.trans hs) (by decide)
  have hack := hsteps.acknowledge (k := k) (by omega) (by rwa [hterm]) (by rwa [hterm])
    (by rwa [hterm])
  rw [hterm] at hack
  exact ⟨.refl hL, rfl, hev, hack⟩

/-- A leader's message that leaves role and log to the rules above. -/
theorem Turned.refuse (hL : L.Sound cfg.ids) (hb : Booked cfg L a n) {request : Request}
    {l : ℕ × String} (hl : request.leader? = some l)
    (hev : Evolves (n.log.entries ≠ []) (InLedger L cfg.ids (cfg.replicaId a) n.commitIndex) n
      (n.handle request).1) : Turned cfg c a L L L n (n.handle request).1 := by
  refine .of_steps hL hev ?_
  rcases RaftNode.handle_leader n hl with ⟨-, hsame⟩ | ⟨-, hstate, -⟩
  · exact .of_same_log hL hb hev (RaftNode.stays_handle n request) (congrArg _ hsame)
  · refine .of_stays hL hb hev (RaftNode.stays_handle n request) (fun hs => ?_) fun hs => ?_
    · exact absurd (hstate.symm.trans hs) (by decide)
    · exact absurd (hstate.symm.trans hs) (by decide)

/-- **An `appendEntries`.** -/
theorem exists_turned_appendEntries (hL : L.Sound cfg.ids) (hzero : ¬ L.Elected 0)
    (hb : Booked cfg L a n) (hcur : (c.replicas a).node.currentTerm = n.currentTerm)
    (hm : m.Coherent) {src : String} {args : AppendEntriesArgs}
    (hreq : RequestSound cfg L src m (.appendEntries args)) (hok : AppendAgrees n m args) :
    ∃ L₂, Turned cfg c a L L L₂ n (n.handle (.appendEntries args)).1 ∧
      ReplySound cfg L₂ a N (n.handle (.appendEntries args)).1 (.appendEntries args)
        (n.handle (.appendEntries args)).2 := by
  obtain ⟨hlead, hslice, hback⟩ := hreq
  have hel : L.Elected args.term := Option.isSome_iff_exists.mpr ⟨_, hlead⟩
  obtain ⟨hev, hdone⟩ := RaftNode.ledger_handleAppendEntries (T := n.log.entries ≠ []) hL hzero
    hb.coherent hm hb.standing hslice hel hback hok
  have hleader : (Request.appendEntries args).leader? = some (args.term, args.leaderId) := rfl
  by_cases hsuccess : (n.handleAppendEntries args).2.success = true
  · obtain ⟨hle, hlen, hp⟩ := hdone hsuccess
    refine ⟨_, .accept hL hb hcur hleader hel hev (fun _ => ⟨hlen, hp⟩) hle, ?_⟩
    exact fun _ k hk => Or.inr ⟨rfl, rfl, hk⟩
  · exact ⟨L, .refuse hL hb hleader hev, fun hs => absurd hs hsuccess⟩

/-- **An `installSnapshot`.** -/
theorem exists_turned_installSnapshot (hL : L.Sound cfg.ids) (hb : Booked cfg L a n)
    (hcur : (c.replicas a).node.currentTerm = n.currentTerm) {src : String}
    {args : InstallSnapshotArgs} (hreq : RequestSound cfg L src m (.installSnapshot args))
    (hok : InstallAgrees n args) :
    ∃ L₂, Turned cfg c a L L L₂ n (n.handle (.installSnapshot args)).1 ∧
      ReplySound cfg L₂ a N (n.handle (.installSnapshot args)).1 (.installSnapshot args)
        (n.handle (.installSnapshot args)).2 := by
  obtain ⟨hlead, hwf, hset⟩ := hreq
  have hel : L.Elected args.term := Option.isSome_iff_exists.mpr ⟨_, hlead⟩
  obtain ⟨hev, hdone⟩ := RaftNode.ledger_handleInstallSnapshot hL hb.coherent hb.standing hwf hel
    hset hok
  have hleader : (Request.installSnapshot args).leader? = some (args.term, args.leaderId) := rfl
  rcases Nat.lt_or_ge args.term n.currentTerm with hlt | hle
  · refine ⟨L, .refuse hL hb hleader hev, fun hterm => ?_⟩
    -- a refusal carries the later term
    have hrefuse : (n.handleInstallSnapshot args).2.term = n.currentTerm := by
      unfold RaftNode.handleInstallSnapshot
      rw [if_pos hlt]
    exact absurd (hrefuse ▸ hterm) (Nat.not_le.mpr hlt)
  · refine ⟨_, .accept hL hb hcur hleader hel hev (fun h => (hdone h).symm) hle, ?_⟩
    exact fun _ k hk => Or.inr ⟨rfl, rfl, hk⟩

/-- **A request** that is delivered. -/
theorem exists_turned_deliver (hc : Ledgered cfg L H c) {packet : Packet} (hmem : packet ∈ c.wire)
    (hdst : packet.dst ∈ cfg.members) (hheed : c.Heeds cfg (.deliver packet))
    (hN : ∀ args, packet.request = .requestVote args → N = (c.replicas packet.src).node) :
    ∃ L₂, Turned cfg c packet.dst L L L₂ (c.start (.deliver packet))
        ((c.start (.deliver packet)).handle packet.request).1 ∧
      ReplySound cfg L₂ packet.dst N ((c.start (.deliver packet)).handle packet.request).1
        packet.request ((c.start (.deliver packet)).handle packet.request).2 := by
  have hL := hc.sound
  have hb : Booked cfg L packet.dst (c.start (.deliver packet)) := (hc.nodes _ hdst).beginTurn
  have hm := (hc.nodes _ (hc.electoral.packets packet hmem).src).coherent
  have hreq := hc.packets packet hmem
  have hagreed : (c.start (.deliver packet)).Agreed (c.replicas packet.src).node packet.request :=
    hheed
  cases hrequest : packet.request with
  | requestVote args =>
      rw [hrequest] at hreq
      rw [hN args hrequest]
      exact ⟨L, turned_requestVote hL hb hreq⟩
  | appendEntries args =>
      rw [hrequest] at hreq hagreed
      exact exists_turned_appendEntries hL hc.vacant hb rfl hm hreq hagreed
  | heartbeat args =>
      rw [hrequest] at hreq hagreed
      exact ⟨L, turned_heartbeat hL hb hm hreq hagreed, trivial⟩
  | syncLog args =>
      rw [hrequest] at hreq
      exact ⟨L, turned_syncLog hL hdst hb hreq⟩
  | installSnapshot args =>
      rw [hrequest] at hreq hagreed
      exact exists_turned_installSnapshot hL hb rfl hreq hagreed

end Requests

/-! ## Replies -/

section Replies

/-- A change that concerns neither log nor term nor role nor files. -/
theorem Turned.of_booked (hL : L.Sound cfg.ids) (hb : Booked cfg L a n) (hb' : Booked cfg L a n')
    (hfiles : n'.persistence = n.persistence) (hcalls : n'.calls = n.calls)
    (hsame : n'.currentTerm = n.currentTerm ∧ n'.commitIndex = n.commitIndex ∧
      n'.state = n.state) : Turned cfg c a L L L n n' := by
  obtain ⟨hterm, hcommit, hstate⟩ := hsame
  have hlog : n'.fullLog = n.fullLog := congrArg Persistence.fullLog hfiles
  refine .of_steps hL ⟨hb'.coherent, .of_eq hcalls hfiles (hb.coherent.meets ⟨hb.standing, le_rfl⟩)⟩
    ⟨.refl hL, rfl, hb', hterm.ge, hcommit.ge, by rw [hlog], fun hcand => ?_⟩
  exact Or.inr ⟨hstate.symm.trans hcand, hterm.symm, hlog ▸ .refl _ _⟩

/-- What a peer has acknowledged may be entered in `matchIndex`. -/
theorem Booked.setMatchIndex (h : Booked cfg L a n) {peer : String} {index : ℕ}
    (hacked : n.state = .leader → peer ∈ cfg.peers a → ∀ k ≤ index, 0 < k →
      L.acked (cfg.replicaId peer) n.currentTerm k) :
    Booked cfg L a (n.setMatchIndex peer index) := by
  refine ⟨h.coherent.of_eq rfl rfl rfl rfl rfl rfl rfl, h.standing, fun hlead => ?_, h.stands⟩
  obtain ⟨hleader, hlog, hown, hmatched⟩ := h.leads hlead
  refine ⟨hleader, hlog, hown, fun p hp k hpos hk => ?_⟩
  by_cases hpeer : p = peer
  · subst hpeer
    have hk' : k ≤ index := by simpa [RaftNode.setMatchIndex] using hk
    exact hacked hlead hp k hk' hpos
  · refine hmatched p hp k hpos ?_
    simpa [RaftNode.setMatchIndex, Function.update_of_ne hpeer] using hk

theorem Booked.setNextIndex (h : Booked cfg L a n) (peer : String) (index : ℕ) :
    Booked cfg L a (n.setNextIndex peer index) :=
  ⟨h.coherent.of_eq rfl rfl rfl rfl rfl rfl rfl, h.standing,
    fun hlead => (h.leads hlead).of_eq rfl rfl rfl, h.stands⟩

/-- Hearing of a later term makes the node a follower of it. -/
theorem turned_becomeFollower (hL : L.Sound cfg.ids) (hb : Booked cfg L a n) {term : ℕ}
    (leaderId leaderAddr : Option String) (hlt : n.currentTerm < term) :
    Turned cfg c a L L L n (n.becomeFollower term leaderId leaderAddr) := by
  obtain ⟨hev, hfull, -⟩ := RaftNode.evolves_becomeFollower (T := n.log.entries ≠ [])
    (G := InLedger L cfg.ids (cfg.replicaId a) n.commitIndex) hb.coherent leaderId leaderAddr
    ⟨hb.standing, le_rfl⟩ ⟨hb.standing.bump hlt.le, le_rfl⟩
  exact .of_steps hL hev (.of_same_log hL hb hev
    (RaftNode.stays_becomeFollower n leaderId leaderAddr hlt.le) hfull)

/-- **The reply to an `appendEntries`.** -/
theorem turned_onAppendEntriesReply (hL : L.Sound cfg.ids) (hb : Booked cfg L a n) {peer : String}
    {args : AppendEntriesArgs} {result : AppendEntriesResult}
    (hreply : result.success = true →
      ∀ k ≤ args.prevLogIndex + args.entries.length, L.acked (cfg.replicaId peer) args.term k)
    (htimely : n.Timely (.appendEntries args) (.appendEntries result)) :
    Turned cfg c a L L L n (n.onAppendEntriesReply peer args result) := by
  unfold RaftNode.onAppendEntriesReply
  split
  · next hlt => exact turned_becomeFollower hL hb none none hlt
  · next hge =>
      -- what the peer acknowledged counts in the term it was asked in
      have hacked : result.success = true → n.state = .leader →
          ∀ k ≤ args.prevLogIndex + args.entries.length,
            L.acked (cfg.replicaId peer) n.currentTerm k := fun hs hlead => by
        rw [← htimely hlead hs (Nat.not_lt.mp hge)]
        exact hreply hs
      split
      · next hsuccess =>
          split
          · refine .of_booked hL hb ((hb.setNextIndex peer _).setMatchIndex ?_) rfl rfl
              ⟨rfl, rfl, rfl⟩
            exact fun hlead _ k hk _ => hacked hsuccess hlead k hk
          · refine .of_booked hL hb (hb.setMatchIndex ?_) rfl rfl ⟨rfl, rfl, rfl⟩
            intro hlead hpeer k hk hpos
            rcases le_max_iff.mp hk with hold | hnew
            · exact (hb.leads hlead).matched peer hpeer k hpos hold
            · exact hacked hsuccess hlead k (hnew.trans (Nat.le_add_right _ _))
      · exact .of_booked hL hb (hb.setNextIndex peer _) rfl rfl ⟨rfl, rfl, rfl⟩

/-- **The reply to an `installSnapshot`.** -/
theorem turned_onInstallSnapshotReply (hL : L.Sound cfg.ids) (hb : Booked cfg L a n)
    {peer : String} {args : InstallSnapshotArgs} {result : InstallSnapshotResult}
    (hreply : result.term ≤ args.term →
      ∀ k ≤ args.snapshot.lastIncludedIndex, L.acked (cfg.replicaId peer) args.term k)
    (htimely : n.Timely (.installSnapshot args) (.installSnapshot result)) :
    Turned cfg c a L L L n (n.onInstallSnapshotReply peer args result) := by
  unfold RaftNode.onInstallSnapshotReply
  split
  · next hlt => exact turned_becomeFollower hL hb none none hlt
  · next hge =>
      refine .of_booked hL hb ((hb.setNextIndex peer _).setMatchIndex ?_) rfl rfl ⟨rfl, rfl, rfl⟩
      intro hlead _ k hk _
      have hterm := htimely hlead (Nat.not_lt.mp hge)
      show L.acked _ n.currentTerm k
      rw [← hterm]
      exact hreply (by omega) k hk

/-- A catch-up leaves the greater of both terms. -/
theorem currentTerm_onSyncLogReply (n : RaftNode) (result : SyncLogResult) :
    (n.onSyncLogReply result).currentTerm = max n.currentTerm result.term := by
  unfold RaftNode.onSyncLogReply
  dsimp only
  refine (((RaftNode.quiet_catchUpSnapshot _).trans (RaftNode.quiet_catchUpLoop _ _)).trans
    (RaftNode.quiet_followCommit _ _)).currentTerm.trans ?_
  split
  · next hlt =>
      unfold RaftNode.becomeFollower
      dsimp only
      rw [max_eq_right hlt.le]
      split <;> rfl
  · next hge => exact (max_eq_left (Nat.not_lt.mp hge)).symm

/-- **The reply to a catch-up.** -/
theorem turned_onSyncLogReply (hL : L.Sound cfg.ids) (hb : Booked cfg L a n) {m : RaftNode}
    (hm : m.Coherent) {fromIndex : ℕ} {result : SyncLogResult}
    (hs : Served L cfg.ids m fromIndex result) (hok : CatchUpAgrees n m fromIndex result) :
    Turned cfg c a L L L n (n.onSyncLogReply result) := by
  have hev := RaftNode.ledger_onSyncLogReply hL hb.coherent hm hb.standing hs hok
  have hstay := RaftNode.stays_onSyncLogReply n result
  have hev' := hev.mono fun _ _ _ h => h.1
  refine .of_steps hL hev' (.of_stays hL hb hev' hstay (fun hstate => ?_) fun _ => hev.holds.2.1)
  -- a leader holds whatever another replica has committed, so it copies nothing
  obtain ⟨hold, hterm⟩ := hstay.kept (by rw [hstate]; decide)
  obtain ⟨hleader, hlog, -, -⟩ := hb.leads (hold.symm.trans hstate)
  rw [currentTerm_onSyncLogReply] at hterm
  refine hev.holds.2.2 ?_
  rw [← hlog]
  exact hs.backs.settled.prefix_log hL (by omega) (Option.isSome_iff_exists.mpr ⟨_, hleader⟩)

end Replies

/-! ## Leaders -/

/-- **A leader commits** what a majority has acknowledged to it. -/
theorem turned_updateCommitIndex (hL : L.Sound cfg.ids) (ha : a ∈ cfg.members)
    (hb : Booked cfg L a n) (hparams : n.params = cfg.params a) (hlead : n.state = .leader) :
    Turned cfg c a L L L n n.updateCommitIndex := by
  obtain ⟨-, hlog, hacked, hmatched⟩ := hb.leads hlead
  have hpeers : n.peers = cfg.peers a := congrArg RaftNode.Params.peers hparams
  obtain ⟨hev, hfull⟩ := RaftNode.ledger_updateCommitIndex (T := n.log.entries ≠ []) hb.coherent
    hb.standing hlog (by
      intro index hle hpos hcount
      unfold RaftNode.majority RaftNode.replicatedCount at hcount
      rw [hpeers, List.countP_eq_length_filter] at hcount
      have hmaj := Config.majority_insert ha ((cfg.peers_nodup a ha).filter _)
        (fun p hp => List.mem_of_mem_filter hp) hcount
      refine ⟨_, hmaj, fun w hw => ?_⟩
      rcases Finset.mem_insert.mp hw with rfl | hw
      · exact hacked index hle
      · obtain ⟨p, hp, rfl⟩ := List.mem_map.mp (List.mem_toFinset.mp hw)
        obtain ⟨hpeer, hk⟩ := List.mem_filter.mp hp
        exact hmatched p hpeer index hpos (by simpa using hk))
  exact .of_steps hL hev (.of_same_log hL hb hev (.of_quiet (RaftNode.quiet_updateCommitIndex n))
    hfull)

/-- **A leader takes a client's write** into its log, and acknowledges it itself. -/
theorem exists_turned_clientAppend (hL : L.Sound cfg.ids) (hb : Booked cfg L a n)
    (hcur : (c.replicas a).node.currentTerm = n.currentTerm)
    (hparams : n.params = cfg.params a) (hself : cfg.replicaId a ∉ cfg.peers a)
    (hlead : n.state = .leader) (stroke : Stroke) :
    ∃ L₁ L₂, Turned cfg c a L L₁ L₂ n (n.clientAppend stroke) := by
  obtain ⟨hleader, hlog, hacked, hmatched⟩ := hb.leads hlead
  have hel : L.Elected n.currentTerm := Option.isSome_iff_exists.mpr ⟨_, hleader⟩
  obtain ⟨hev, hfull, hlog'⟩ := RaftNode.ledger_clientAppend (T := n.log.entries ≠ []) hL
    hb.coherent
    hb.standing hel hlog stroke
  have hg : Grown cfg c a L (L.append n.currentTerm (n.clientEntry stroke)) :=
    .append hL hleader rfl
  have hterm : (n.clientAppend stroke).currentTerm = n.currentTerm := rfl
  have hid : n.replicaId = cfg.replicaId a := congrArg RaftNode.Params.replicaId hparams
  have hlen : n.fullLog.length + 1 ≤
      ((L.append n.currentTerm (n.clientEntry stroke)).log n.currentTerm).length := by
    rw [hlog', List.length_append]
    exact le_rfl
  have hst := hev.holds.1
  rw [hterm] at hst
  have hack : Grown cfg c a (L.append n.currentTerm (n.clientEntry stroke))
      ((L.append n.currentTerm (n.clientEntry stroke)).acknowledge (cfg.replicaId a) n.currentTerm
        (n.fullLog.length + 1)) :=
    .acknowledge hg.sound (hg.grows.elected hel) hlen hst.voter_le hcur.le
  refine ⟨_, _, hg, rfl, hev, Steps.of_standing hL (hg.trans hack) rfl hb hev.coherent
    (hst.acknowledge ?_) hev.holds.2 le_rfl (fun _ => ?_) fun hcand => ?_⟩
  · rw [hlog', hfull]
    exact List.take_prefix _ _
  · refine ⟨hleader, hlog'.trans hfull.symm, fun k hk => ?_, fun p hp k hpos hk => ?_⟩
    · rw [hfull, List.length_append] at hk
      exact Or.inr ⟨rfl, rfl, hk⟩
    · -- the entry under the node's own name is not a peer's
      refine Or.inl (hmatched p hp k hpos ?_)
      have hne : p ≠ n.replicaId := fun heq => hself (hid ▸ heq ▸ hp)
      simpa [RaftNode.clientAppend, RaftNode.setMatchIndex, RaftNode.appendLog, RaftNode.persist,
        Function.update_of_ne hne] using hk
  · exact absurd (hlead.symm.trans hcand) (by decide)

/-! ## Turns without election -/

/-- What a node does at the start of its turn, on its own account. -/
theorem exists_turned_op (hc : Ledgered cfg L H c) (ha : action.replica ∈ cfg.members)
    (hheed : c.Heeds cfg action) (hdeliver : ∀ packet, action ≠ .deliver packet) {op : Op}
    (hadmits : c.Admits action (c.start action) op) (hno : ¬ Cluster.Campaigns op) :
    ∃ L₁ L₂, Turned cfg c action.replica L L₁ L₂ (c.start action) (Op.run (c.start action) op) := by
  have hL := hc.sound
  have hb : Booked cfg L action.replica (c.start action) := (hc.nodes _ ha).beginTurn
  have hparams : (c.start action).params = cfg.params action.replica :=
    (hc.electoral.nodes _ ha).params
  cases op with
  | becomeCandidate => exact absurd trivial hno
  | becomeLeader => exact absurd trivial hno
  | resetElectionTimer => exact absurd trivial hno
  | becomeFollower term leaderId leaderAddr =>
      exact ⟨L, L, turned_becomeFollower hL hb leaderId leaderAddr hadmits⟩
  | handle request =>
      obtain ⟨-, packet, -, hact, -⟩ := hadmits
      exact absurd hact (hdeliver packet)
  | onAppendEntriesReply peer args result =>
      obtain ⟨-, k, send, rpc, hact, hk, rfl, hwait, hreply⟩ := hadmits
      have hwire := hc.sends _ ha send (List.mem_of_getElem? hk) _ hwait
      have hsound := hc.replies _ hwire _ hreply
      rw [hact] at hheed
      have htimely := hheed send _ hk hwait
      exact ⟨L, L, turned_onAppendEntriesReply hL hb hsound htimely⟩
  | onInstallSnapshotReply peer args result =>
      obtain ⟨-, k, send, rpc, hact, hk, rfl, hwait, hreply⟩ := hadmits
      have hwire := hc.sends _ ha send (List.mem_of_getElem? hk) _ hwait
      have hsound := hc.replies _ hwire _ hreply
      rw [hact] at hheed
      have htimely := hheed send _ hk hwait
      exact ⟨L, L, turned_onInstallSnapshotReply hL hb hsound htimely⟩
  | onSyncLogReply result =>
      obtain ⟨-, k, task, hact, hk, hreply⟩ := hadmits
      obtain ⟨dst, args, hwire⟩ := hc.catchUps _ ha task (List.mem_of_getElem? hk)
      obtain ⟨hdst, hserved⟩ := hc.replies _ hwire _ hreply
      rw [hact] at hheed
      have hagrees := hheed task dst args hk hwire
      exact ⟨L, L, turned_onSyncLogReply hL hb (hc.nodes dst hdst).coherent hserved hagrees⟩
  | updateCommitIndex => exact ⟨L, L, turned_updateCommitIndex hL ha hb hparams hadmits.2⟩
  | clientAppend stroke =>
      obtain ⟨-, hlead, hact⟩ := hadmits
      rw [hact] at hheed
      exact exists_turned_clientAppend hL hb rfl hparams hheed hlead stroke

/-- **A turn without election,** entered in the ledger. -/
theorem exists_turned (hc : Ledgered cfg L H c) (ha : action.replica ∈ cfg.members)
    (hheed : c.Heeds cfg action) {t : Turn} (h : c.turn action = some t)
    (hno : ¬ action.Votes) :
    ∃ L₁ L₂, Turned cfg c action.replica L L₁ L₂ (c.start action) t.replica.node ∧
      t.replica.elections = (c.replicas action.replica).elections ∧
      ∀ p ∈ c.wire, p.dst = action.replica → ∀ r, (p.rpc, r) ∈ t.replied →
        ReplySound cfg L₂ action.replica ((c.finishTurn action.replica t).replicas p.src).node
          t.replica.node p.request r := by
  by_cases hd : ∃ packet, action = .deliver packet
  · obtain ⟨packet, rfl⟩ := hd
    simp only [Cluster.turn, Option.ite_none_right_eq_some] at h
    obtain ⟨hmem, h⟩ := h
    obtain rfl := Option.some.inj h
    obtain ⟨L₂, hturned, hreply⟩ := exists_turned_deliver hc hmem ha hheed
      (N := ((c.finishTurn packet.dst ((c.startTurn packet.dst).deliver packet)).replicas
        packet.src).node) (by
      intro args hreq
      obtain ⟨-, hpeer⟩ := (hc.electoral.packets packet hmem).vote args hreq
      have hne := ((cfg.mem_peers _ (hc.electoral.packets packet hmem).src _).mp hpeer).2
      rw [Cluster.replicas_finishTurn_ne c _ hne.symm])
    refine ⟨L, L₂, hturned, rfl, fun p hp _ r hr => ?_⟩
    obtain ⟨hrpc, rfl⟩ := Prod.mk.inj (List.mem_singleton.mp hr)
    obtain rfl := hc.electoral.numbered.packet_inj hp hmem hrpc
    exact hreply
  · have hdeliver : ∀ packet, action ≠ .deliver packet := fun packet hact => hd ⟨packet, hact⟩
    have hplain := Cluster.plain_turn h hno hdeliver
    have hsilent : t.replied = [] := hplain.replied
    obtain ⟨L₁, L₂, hturned⟩ : ∃ L₁ L₂,
        Turned cfg c action.replica L L₁ L₂ (c.start action) t.replica.node := by
      rcases Cluster.single_turn h hno with hsame | ⟨op, hadmits, hcampaign, hrun⟩
      · have hb : Booked cfg L action.replica (c.start action) := (hc.nodes _ ha).beginTurn
        rw [hsame]
        exact ⟨L, L, .of_booked hc.sound hb hb rfl rfl ⟨rfl, rfl, rfl⟩⟩
      · rw [hrun]
        exact exists_turned_op hc ha hheed hdeliver hadmits hcampaign
    refine ⟨L₁, L₂, hturned, hplain.elections, fun p _ _ r hr => ?_⟩
    rw [hsilent] at hr
    cases hr

end QuorumCanvas
