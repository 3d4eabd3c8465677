import Mathlib.Data.Finset.Image
import QuorumCanvas.Turns

/-!
# Election safety

The votes and wins of a whole run are kept in a `Ballots.History`, voters being
named by their `replicaId`.  `Electoral` relates it to a state of the cluster:
every node and its state file honour the votes cast, every request speaks the
truth about its sender, and every election has counted votes that were cast.
Each event extends the history (`Electoral.next`), so two leaders of one term,
at whatever moments of a run, are one node (`election_safety`).
-/

namespace QuorumCanvas

open Ballots (Honours)
open Quorum (Majority)
open RaftNode (Drifts Lapsed SavesOwn)

namespace Config

variable {cfg : Config} {a : String}

/-- The names of the members. -/
def ids (cfg : Config) : Finset String := (cfg.members.map cfg.replicaId).toFinset

/-- Members have ids. -/
theorem mem_ids (ha : a ∈ cfg.members) : cfg.replicaId a ∈ cfg.ids :=
  List.mem_toFinset.mpr (List.mem_map_of_mem ha)

/-- Peers are members. -/
theorem mem_of_mem_peers (ha : a ∈ cfg.members) {b : String} (hb : b ∈ cfg.peers a) :
    b ∈ cfg.members := ((cfg.mem_peers a ha b).mp hb).1

/-- A peer has another name. -/
theorem replicaId_ne (ha : a ∈ cfg.members) {b : String} (hb : b ∈ cfg.peers a) :
    cfg.replicaId b ≠ cfg.replicaId a := fun h =>
  ((cfg.mem_peers a ha b).mp hb).2 (cfg.replicaId_inj b (mem_of_mem_peers ha hb) a ha h)

/-- Different members have different ids. -/
theorem card_ids (cfg : Config) : cfg.ids.card = cfg.members.length := by
  have hnd : (cfg.members.map cfg.replicaId).Nodup :=
    (List.nodup_map_iff_inj_on cfg.members_nodup).mpr cfg.replicaId_inj
  rw [ids, List.toFinset_card_of_nodup hnd, List.length_map]

/-- A member and its peers are all there are. -/
theorem length_peers (ha : a ∈ cfg.members) :
    (cfg.peers a).length + 1 = cfg.members.length := by
  have hnot : a ∉ cfg.peers a := fun h => ((cfg.mem_peers a ha a).mp h).2 rfl
  have hperm : (a :: cfg.peers a).Perm cfg.members := by
    refine (List.perm_ext_iff_of_nodup (List.nodup_cons.mpr ⟨hnot, cfg.peers_nodup a ha⟩)
      cfg.members_nodup).mpr fun b => ?_
    rw [List.mem_cons, cfg.mem_peers a ha b]
    by_cases hb : b = a
    · subst hb
      simp [ha]
    · simp [hb]
  exact hperm.length_eq

/-- What the code counts as a majority is one: the node itself and enough peers. -/
theorem majority_insert (ha : a ∈ cfg.members) {ps : List String} (hnd : ps.Nodup)
    (hsub : ∀ p ∈ ps, p ∈ cfg.peers a)
    (hcard : ((cfg.peers a).length + 1) / 2 + 1 ≤ 1 + ps.length) :
    Majority cfg.ids (insert (cfg.replicaId a) (ps.map cfg.replicaId).toFinset) := by
  have hinj : (ps.map cfg.replicaId).Nodup :=
    (List.nodup_map_iff_inj_on hnd).mpr fun p hp q hq h =>
      cfg.replicaId_inj p (mem_of_mem_peers ha (hsub p hp)) q (mem_of_mem_peers ha (hsub q hq)) h
  have hnot : cfg.replicaId a ∉ (ps.map cfg.replicaId).toFinset := by
    intro h
    obtain ⟨p, hp, heq⟩ := List.mem_map.mp (List.mem_toFinset.mp h)
    exact replicaId_ne ha (hsub p hp) heq
  refine Majority.of_card ?_ ?_
  · intro v hv
    rcases Finset.mem_insert.mp hv with rfl | hv
    · exact mem_ids ha
    · obtain ⟨p, hp, rfl⟩ := List.mem_map.mp (List.mem_toFinset.mp hv)
      exact mem_ids (mem_of_mem_peers ha (hsub p hp))
  · rw [Finset.card_insert_of_notMem hnot, List.toFinset_card_of_nodup hinj, List.length_map,
      card_ids, ← length_peers ha]
    omega

end Config

/-- A node that is set up as configured, honours the votes it has cast, and has
its term and vote on file. -/
structure NodeOk (cfg : Config) (H : Ballots.History String) (a : String) (n : RaftNode) :
    Prop where
  params : n.params = cfg.params a
  honours : Honours H (cfg.replicaId a) n.voter
  synced : n.Synced

/-- A request names its sender, and a leader's request comes from a winner. -/
structure PacketOk (cfg : Config) (H : Ballots.History String) (p : Packet) : Prop where
  src : p.src ∈ cfg.members
  vote : ∀ args, p.request = .requestVote args →
    args.candidateId = cfg.replicaId p.src ∧ p.dst ∈ cfg.peers p.src
  lead : ∀ l, p.request.leader? = some l →
    l.2 = cfg.replicaId p.src ∧ H.won l.1 (cfg.replicaId p.src) ∧ p.dst ∈ cfg.peers p.src

/-- An election has counted votes that were cast, and still waits for others. -/
structure ElectionOk (cfg : Config) (H : Ballots.History String) (wire : List Packet) (a : String)
    (e : Election) : Prop where
  own : H.vote (cfg.replicaId a) e.term (cfg.replicaId a)
  count : e.votesGranted = 1 + e.voters.length
  nodup : (e.awaiting.map Prod.snd ++ e.voters).Nodup
  peers : ∀ p ∈ e.awaiting.map Prod.snd ++ e.voters, p ∈ cfg.peers a
  votes : ∀ p ∈ e.voters, H.vote (cfg.replicaId p) e.term (cfg.replicaId a)
  asked : ∀ q ∈ e.awaiting, ∃ args, ⟨q.1, a, q.2, .requestVote args⟩ ∈ wire ∧
    args.term = e.term ∧ args.candidateId = cfg.replicaId a

/-- Reply `r` to packet `p`, when it grants a vote, is backed by that vote. -/
def VoteBacked (cfg : Config) (H : Ballots.History String) (p : Packet) (r : RaftNode.Reply) :
    Prop :=
  ∀ args v, p.request = .requestVote args → r = .requestVote v → v.voteGranted = true →
    H.vote (cfg.replicaId p.dst) args.term args.candidateId

/-- **The invariant** of elections. -/
structure Electoral (cfg : Config) (H : Ballots.History String) (c : Cluster) : Prop where
  numbered : c.Numbered
  sound : H.Sound cfg.ids
  nodes : ∀ a ∈ cfg.members, NodeOk cfg H a (c.replicas a).node
  elections : ∀ a ∈ cfg.members, ∀ e ∈ (c.replicas a).elections, ElectionOk cfg H c.wire a e
  packets : ∀ p ∈ c.wire, PacketOk cfg H p
  votes : ∀ p ∈ c.wire, ∀ r, (p.rpc, r) ∈ c.replies → VoteBacked cfg H p r

section Monotone

variable {cfg : Config} {H H' : Ballots.History String} {v : String}

/-- What others add concerns no node. -/
theorem NodeOk.extend (hx : H.Extends v H') {a : String} {n : RaftNode} (h : NodeOk cfg H a n)
    (hne : cfg.replicaId a ≠ v) : NodeOk cfg H' a n :=
  ⟨h.params, h.honours.extend hx hne, h.synced⟩

/-- It concerns no packet. -/
theorem PacketOk.extend (hx : H.Extends v H') {p : Packet} (h : PacketOk cfg H p) :
    PacketOk cfg H' p :=
  ⟨h.src, h.vote, fun l hl => ⟨(h.lead l hl).1, hx.won _ _ (h.lead l hl).2.1, (h.lead l hl).2.2⟩⟩

/-- It concerns no election. -/
theorem ElectionOk.extend (hx : H.Extends v H') {wire wire' : List Packet} (hw : wire ⊆ wire')
    {a : String} {e : Election} (h : ElectionOk cfg H wire a e) :
    ElectionOk cfg H' wire' a e where
  own := hx.vote _ _ _ h.own
  count := h.count
  nodup := h.nodup
  peers := h.peers
  votes := fun p hp => hx.vote _ _ _ (h.votes p hp)
  asked := fun q hq => by
    obtain ⟨args, hmem, hrest⟩ := h.asked q hq
    exact ⟨args, hw hmem, hrest⟩

/-- The bookkeeping of an election does not concern its votes. -/
theorem ElectionOk.of_eq {wire : List Packet} {a : String} {e e' : Election}
    (h : ElectionOk cfg H wire a e) (hterm : e'.term = e.term)
    (hcount : e'.votesGranted = e.votesGranted) (hawait : e'.awaiting = e.awaiting)
    (hvoters : e'.voters = e.voters) : ElectionOk cfg H wire a e' where
  own := hterm ▸ h.own
  count := by rw [hcount, hvoters, h.count]
  nodup := by rw [hawait, hvoters]; exact h.nodup
  peers := by rw [hawait, hvoters]; exact h.peers
  votes := by rw [hterm, hvoters]; exact h.votes
  asked := by rw [hterm, hawait]; exact h.asked

/-- It takes no vote back. -/
theorem VoteBacked.extend (hx : H.Extends v H') {p : Packet} {r : RaftNode.Reply}
    (h : VoteBacked cfg H p r) : VoteBacked cfg H' p r :=
  fun args w hp hr hg => hx.vote _ _ _ (h args w hp hr hg)

end Monotone

section Node

variable {cfg : Config} {H : Ballots.History String} {a : String} {heard : ℕ → Prop}
  {n n' : RaftNode}

/-- The members that can be heard as the leader of a term. -/
def Heard (cfg : Config) (H : Ballots.History String) (a : String) (heard : ℕ → Prop) : Prop :=
  ∀ t, heard t → ∃ w, w ≠ cfg.replicaId a ∧ H.won t w

/-- What a node can fall back to honours its votes. -/
theorem honours_lapsed (hH : H.Sound cfg.ids) (hh : Heard cfg H a heard)
    (h : Honours H (cfg.replicaId a) n.voter) {term : ℕ} {votedFor : Option String}
    (hl : n.Lapsed heard term votedFor) :
    Honours H (cfg.replicaId a) ⟨term, votedFor, .follower⟩ := by
  obtain ⟨rfl, hlt | ⟨rfl, hstate, hheard⟩⟩ := hl
  · exact h.later hlt none
  · obtain ⟨w, hw, hwon⟩ := hh _ hheard
    refine h.defer hH ?_ hwon hw
    intro hrole
    apply hstate
    revert hrole
    unfold RaftNode.voter NodeState.role
    cases n.state <;> simp

/-- Drifting keeps a node in order. -/
theorem NodeOk.drift (hH : H.Sound cfg.ids) (hh : Heard cfg H a heard) (h : NodeOk cfg H a n)
    (hd : Drifts heard n n') : NodeOk cfg H a n' where
  params := hd.params.trans h.params
  honours := by
    rcases hd.voter with ⟨hterm, hvote, hstate⟩ | ⟨hstate, hl⟩
    · have heq : n'.voter = n.voter := by
        unfold RaftNode.voter
        rw [hterm, hvote, hstate]
      rw [heq]
      exact h.honours
    · have heq : n'.voter = ⟨n'.currentTerm, n'.votedFor, .follower⟩ := by
        unfold RaftNode.voter
        rw [hstate]
        rfl
      rw [heq]
      exact honours_lapsed hH hh h.honours hl
  synced := hd.synced h.synced

/-- A saved state that a crash may bring back. -/
def Recoverable (cfg : Config) (H : Ballots.History String) (a : String) (term : ℕ)
    (s : PersistedState) : Prop :=
  Honours H (cfg.replicaId a) s.voter ∧ term ≤ s.currentTerm

/-- What a drift saves can be brought back. -/
theorem recoverable_drift (hH : H.Sound cfg.ids) (hh : Heard cfg H a heard)
    (h : NodeOk cfg H a n) (hd : Drifts heard n n') :
    RaftNode.Saves (Recoverable cfg H a n.currentTerm) n n' := by
  refine hd.saves.mono ?_
  rintro s (⟨hterm, hvote⟩ | hl)
  · refine ⟨?_, hterm.ge⟩
    have heq : s.voter = { n.voter with role := .follower } := by
      unfold PersistedState.voter RaftNode.voter
      rw [hterm, hvote]
    rw [heq]
    exact h.honours.reboot
  · refine ⟨honours_lapsed hH hh h.honours hl, ?_⟩
    obtain ⟨-, hlt | ⟨heq, -, -⟩⟩ := hl
    · exact hlt.le
    · exact heq.le

/-- Constructing a node on files that honour its votes. -/
theorem nodeOk_construct (p : Persistence) (hfile : p.backend = .file)
    (h : Honours H (cfg.replicaId a) p.loadState.voter) :
    NodeOk cfg H a (.construct (cfg.params a) p) ∧
      (RaftNode.construct (cfg.params a) p).currentTerm = p.loadState.currentTerm ∧
      ∀ calls, (p.replay
        ((RaftNode.construct (cfg.params a) p).calls.take calls)).loadState.voter =
          p.loadState.voter := by
  obtain ⟨base, hbase, hparams, hterm, hvote, hstate, hcalls, hp⟩ :
      ∃ base : RaftNode,
        RaftNode.construct (cfg.params a) p =
          { base.applyCommitted with timers := base.applyCommitted.timers.startElectionTimer } ∧
        base.params = cfg.params a ∧ base.currentTerm = p.loadState.currentTerm ∧
        base.votedFor = p.loadState.votedFor ∧ base.state = .follower ∧ base.calls = [] ∧
        base.persistence = p := by
    unfold RaftNode.construct
    cases p.loadSnapshot with
    | none => exact ⟨_, rfl, rfl, rfl, rfl, rfl, rfl, rfl⟩
    | some snapshot => exact ⟨_, rfl, rfl, rfl, rfl, rfl, rfl, rfl⟩
  have hq := RaftNode.quiet_applyCommitted base
  rw [hbase]
  have hsync : base.Synced := ⟨by rw [hp, hfile], by rw [hp, hterm], by rw [hp, hvote]⟩
  refine ⟨⟨hq.params.trans hparams, ?_, ?_⟩, hq.currentTerm.trans hterm, ?_⟩
  · have heq : RaftNode.voter { base.applyCommitted with
        timers := base.applyCommitted.timers.startElectionTimer } = p.loadState.voter := by
      unfold RaftNode.voter PersistedState.voter
      dsimp only
      rw [hq.currentTerm, hq.votedFor, hq.state, hterm, hvote, hstate]
      rfl
    rw [heq]
    exact h
  · obtain ⟨hf, hc, hv⟩ := hq.synced hsync
    exact ⟨hf, hc, hv⟩
  · intro calls
    obtain ⟨cs, hcs, -, hown⟩ := hq.saves
    have hcs : base.applyCommitted.calls = cs := by rw [hcs, hcalls, List.nil_append]
    rcases Persistence.loadState_replay p (base.applyCommitted.calls.take calls) with
      hold | ⟨s, hs, hnew⟩
    · exact congrArg PersistedState.voter hold
    · obtain ⟨hst, hsv⟩ := hown s (hcs ▸ List.mem_of_mem_take hs)
      refine (congrArg PersistedState.voter hnew).trans ?_
      unfold PersistedState.voter
      rw [hst, hsv, hterm, hvote]

end Node

/-! ## One turn -/

/-- What a turn of replica `a` makes of the history `H` of votes. -/
structure TurnOk (cfg : Config) (c : Cluster) (a : String) (H H' : Ballots.History String)
    (t : Turn) : Prop where
  grows : H.Extends (cfg.replicaId a) H'
  sound : H'.Sound cfg.ids
  node : NodeOk cfg H' a t.replica.node
  saves : RaftNode.Saves (Recoverable cfg H a (c.replicas a).node.currentTerm)
    (c.replicas a).node.beginTurn t.replica.node
  term_le : (c.replicas a).node.currentTerm ≤ t.replica.node.currentTerm
  elections : ∀ e ∈ t.replica.elections, ElectionOk cfg H' (c.wire ++ t.sent) a e
  packets : ∀ p ∈ t.sent, PacketOk cfg H' p
  votes : ∀ p ∈ c.wire, ∀ r, (p.rpc, r) ∈ t.replied → VoteBacked cfg H' p r

variable {cfg : Config} {H : Ballots.History String} {c : Cluster} {a : String} {t : Turn}

theorem NodeOk.beginTurn {n : RaftNode} (h : NodeOk cfg H a n) : NodeOk cfg H a n.beginTurn :=
  ⟨h.params, h.honours, h.synced.file, h.synced.currentTerm, h.synced.votedFor⟩

/-- What a node in order sends is in order. -/
theorem Turn.Speaks.packetOk {n : RaftNode} {p : Packet} (h : Turn.Speaks n p)
    (ha : a ∈ cfg.members) (hn : NodeOk cfg H a n) : PacketOk cfg H p := by
  have hself : n.selfUrl = a := congrArg RaftNode.Params.selfUrl hn.params
  have hid : n.replicaId = cfg.replicaId a := congrArg RaftNode.Params.replicaId hn.params
  have hpeers : n.peers = cfg.peers a := congrArg RaftNode.Params.peers hn.params
  have hsrc : p.src = a := h.src.trans hself
  refine ⟨hsrc ▸ ha, fun args hv => absurd hv (h.no_vote args), fun l hl => ?_⟩
  obtain ⟨rfl, hlead, hdst⟩ := h.leads l hl
  rw [hsrc]
  refine ⟨hid, hn.honours.won_of_leader ?_, hpeers ▸ hdst⟩
  unfold RaftNode.voter
  rw [hlead]
  rfl

/-- A turn without election leaves the history as it is. -/
theorem turnOk_plain (hc : Electoral cfg H c) (ha : a ∈ cfg.members)
    (h : Turn.Plain (c.startTurn a) t) : TurnOk cfg c a H H t := by
  have hstart : NodeOk cfg H a (c.startTurn a).replica.node := (hc.nodes a ha).beginTurn
  have hquiet : Heard cfg H a fun _ => False := fun _ hf => hf.elim
  have hnode := hstart.drift hc.sound hquiet h.node
  obtain ⟨-, ps, hsent, -, hps⟩ := h.sends
  refine ⟨.refl _ _, hc.sound, hnode, recoverable_drift hc.sound hquiet hstart h.node,
    h.node.currentTerm_le, ?_, ?_, ?_⟩
  · intro e he
    rw [h.elections] at he
    exact (hc.elections a ha e he).extend (.refl (cfg.replicaId a) H) (List.subset_append_left _ _)
  · intro p hp
    have hmem : p ∈ ps := by simpa [hsent, Cluster.startTurn] using hp
    exact (hps p hmem).1.packetOk ha hnode
  · intro p _ r hr
    rw [h.replied] at hr
    cases hr

/-- `finalizeElection` either settles the election without effect or wins it. -/
theorem Turn.finalize_cases (n : RaftNode) (e : Election) :
    (Turn.finalize n e).2 = { e with settled := true } ∧
      ((Turn.finalize n e).1 = n ∨ (Turn.finalize n e).1 = n.resetElectionTimer ∨
        n.state = .candidate ∧ n.currentTerm = e.term ∧ n.majority ≤ e.votesGranted ∧
          (Turn.finalize n e).1 = n.becomeLeader) := by
  unfold Turn.finalize
  split
  · next hs =>
      refine ⟨?_, Or.inl rfl⟩
      cases e
      simp_all
  · refine ⟨rfl, ?_⟩
    dsimp only
    split
    · next hcand =>
        split
        · next hmaj => exact Or.inr (Or.inr ⟨hcand.1, hcand.2, hmaj, rfl⟩)
        · exact Or.inr (Or.inl rfl)
    · exact Or.inl rfl

/-- Winning with a majority of the votes cast extends the history by the win. -/
theorem exists_finalize (hH : H.Sound cfg.ids) (ha : a ∈ cfg.members) {n : RaftNode}
    {e : Election} {wire : List Packet} (hn : NodeOk cfg H a n)
    (he : ElectionOk cfg H wire a e) :
    ∃ H', H.Extends (cfg.replicaId a) H' ∧ H'.Sound cfg.ids ∧
      NodeOk cfg H' a (Turn.finalize n e).1 ∧
      ElectionOk cfg H' wire a (Turn.finalize n e).2 ∧
      (Turn.finalize n e).1.calls = n.calls ∧
      (Turn.finalize n e).1.persistence = n.persistence ∧
      n.currentTerm ≤ (Turn.finalize n e).1.currentTerm := by
  obtain ⟨hsettled, hcases⟩ := Turn.finalize_cases n e
  rw [hsettled]
  have hidle : ∀ m, RaftNode.Drifts (fun _ => False) n m → NodeOk cfg H a m := fun m hd =>
    hn.drift hH (fun _ hf => hf.elim) hd
  rcases hcases with hsame | hreset | ⟨hcand, hterm, hmaj, hwin⟩
  · rw [hsame]
    exact ⟨H, .refl _ _, hH, hn, he.of_eq rfl rfl rfl rfl, rfl, rfl, le_rfl⟩
  · rw [hreset]
    exact ⟨H, .refl _ _, hH, hidle _ (.of_eq rfl rfl rfl rfl rfl rfl),
      he.of_eq rfl rfl rfl rfl, rfl, rfl, le_rfl⟩
  · rw [hwin]
    have hpeers : n.peers = cfg.peers a := congrArg RaftNode.Params.peers hn.params
    have hrole : n.voter.role = .candidate := by
      unfold RaftNode.voter
      rw [hcand]
      rfl
    have hvterm : n.voter.term = e.term := hterm
    -- the votes counted, with the node's own, are a majority
    have hsub : ∀ p ∈ e.voters, p ∈ cfg.peers a := fun p hp =>
      he.peers p (List.mem_append_right _ hp)
    have hnd : e.voters.Nodup := (List.nodup_append.mp he.nodup).2.1
    have hcard : ((cfg.peers a).length + 1) / 2 + 1 ≤ 1 + e.voters.length := by
      rw [← he.count, ← hpeers]
      exact hmaj
    have hQ := Config.majority_insert ha hnd hsub hcard
    have hvotes : ∀ w ∈ insert (cfg.replicaId a) (e.voters.map cfg.replicaId).toFinset,
        H.vote w n.voter.term (cfg.replicaId a) := by
      intro w hw
      rw [hvterm]
      rcases Finset.mem_insert.mp hw with rfl | hw
      · exact he.own
      · obtain ⟨p, hp, rfl⟩ := List.mem_map.mp (List.mem_toFinset.mp hw)
        exact he.votes p hp
    have hx := H.extends_declare n.voter.term (cfg.replicaId a)
    have hhon := hn.honours.win hrole
    exact ⟨_, hx, hH.win hn.honours hrole hQ hvotes, ⟨hn.params, hhon, hn.synced.file,
      hn.synced.currentTerm, hn.synced.votedFor⟩,
      (he.extend hx fun _ h => h).of_eq rfl rfl rfl rfl, rfl, rfl, le_rfl⟩

/-- Standing for election. -/
theorem nodeOk_becomeCandidate {n : RaftNode} (hn : NodeOk cfg H a n) :
    NodeOk cfg (H.cast (cfg.replicaId a) (n.currentTerm + 1) (cfg.replicaId a)) a
        n.becomeCandidate ∧
      RaftNode.Saves (Recoverable cfg H a n.currentTerm) n n.becomeCandidate := by
  have hid : n.replicaId = cfg.replicaId a := congrArg RaftNode.Params.replicaId hn.params
  have hhon := hn.honours.campaign
  constructor
  · refine ⟨hn.params, ?_, RaftNode.synced_persistState hn.synced.file⟩
    have heq : n.becomeCandidate.voter =
        ⟨n.currentTerm + 1, some (cfg.replicaId a), .candidate⟩ := by
      rw [← hid]
      rfl
    rw [heq]
    exact hhon
  · refine ⟨[.saveState ⟨n.currentTerm + 1, some n.replicaId, n.commitIndex⟩], rfl, rfl, ?_⟩
    intro s hs
    obtain rfl : s = ⟨n.currentTerm + 1, some n.replicaId, n.commitIndex⟩ := by simpa using hs
    exact ⟨hn.honours.later (Nat.lt_succ_self _) _, Nat.le_succ _⟩

/-- The votes a candidate asks for, and the election that waits for them. -/
theorem newElection_ok (ha : a ∈ cfg.members) {n : RaftNode} (hn : NodeOk cfg H a n)
    (hvote : H.vote (cfg.replicaId a) n.currentTerm (cfg.replicaId a)) (wire : List Packet) :
    ElectionOk cfg H (wire ++ (t.setNode n).packets (.requestVote n.requestVoteArgs) n.peers) a
        (t.newElection n) ∧
      ∀ p ∈ (t.setNode n).packets (.requestVote n.requestVoteArgs) n.peers,
        PacketOk cfg H p := by
  have hself : n.selfUrl = a := congrArg RaftNode.Params.selfUrl hn.params
  have hid : n.replicaId = cfg.replicaId a := congrArg RaftNode.Params.replicaId hn.params
  have hpeers : n.peers = cfg.peers a := congrArg RaftNode.Params.peers hn.params
  have hsnd : (t.newElection n).awaiting.map Prod.snd = cfg.peers a := by
    rw [← hpeers]
    exact List.map_snd_zip (by simp [Turn.promises])
  constructor
  · refine ⟨hvote, rfl, ?_, ?_, (fun p hp => by cases hp), ?_⟩
    · rw [hsnd]
      exact (List.append_nil (cfg.peers a)).symm ▸ cfg.peers_nodup a ha
    · rw [hsnd]
      exact fun p hp => (List.append_nil (cfg.peers a)) ▸ hp
    · intro q hq
      refine ⟨n.requestVoteArgs, List.mem_append_right _ ?_, rfl, hid⟩
      exact List.mem_map.mpr ⟨q, hq, by rw [← hself]; rfl⟩
  · intro p hp
    obtain ⟨q, hq, rfl⟩ := List.mem_map.mp hp
    have hsrc : (t.setNode n).replica.node.selfUrl = a := hself
    refine ⟨hsrc.symm ▸ ha, ?_, fun l hl => by cases hl⟩
    intro args hargs
    obtain rfl := RaftNode.Request.requestVote.inj hargs
    refine ⟨by rw [hsrc]; exact hid, ?_⟩
    rw [hsrc]
    exact hpeers ▸ (List.of_mem_zip hq).2

/-- `runElection` casts the node's own vote, and with no peers wins at once. -/
theorem exists_turnOk_runElection (hc : Electoral cfg H c) (ha : a ∈ cfg.members) :
    ∃ H', TurnOk cfg c a H H' (c.startTurn a).runElection := by
  have hstart : NodeOk cfg H a (c.startTurn a).replica.node := (hc.nodes a ha).beginTurn
  obtain ⟨hcand, hsaves⟩ := nodeOk_becomeCandidate hstart
  have hx := H.extends_cast (cfg.replicaId a) ((c.startTurn a).replica.node.currentTerm + 1)
    (cfg.replicaId a)
  have hsound : (H.cast (cfg.replicaId a) ((c.startTurn a).replica.node.currentTerm + 1)
    (cfg.replicaId a)).Sound cfg.ids := hc.sound.campaign (s := (c.startTurn a).replica.node.voter)
  have hvote : (H.cast (cfg.replicaId a) ((c.startTurn a).replica.node.currentTerm + 1)
      (cfg.replicaId a)).vote (cfg.replicaId a)
        (c.startTurn a).replica.node.becomeCandidate.currentTerm (cfg.replicaId a) :=
    Or.inr ⟨rfl, rfl, rfl⟩
  have hterm : (c.startTurn a).replica.node.currentTerm ≤
      (c.startTurn a).replica.node.becomeCandidate.currentTerm := Nat.le_succ _
  generalize H.cast (cfg.replicaId a) ((c.startTurn a).replica.node.currentTerm + 1)
    (cfg.replicaId a) = H₁ at *
  have hrun : (c.startTurn a).runElection = (((c.startTurn a).setNode
      ((c.startTurn a).openElection (c.startTurn a).replica.node.becomeCandidate).1).setElections
      ((c.startTurn a).replica.elections ++
        [((c.startTurn a).openElection (c.startTurn a).replica.node.becomeCandidate).2])).sendAll
      (.requestVote (c.startTurn a).replica.node.becomeCandidate.requestVoteArgs)
      (c.startTurn a).replica.node.becomeCandidate.peers := rfl
  generalize (c.startTurn a).replica.node.becomeCandidate = n at *
  obtain ⟨he, hpackets⟩ := newElection_ok (t := c.startTurn a) ha hcand hvote c.wire
  obtain ⟨H₂, hx₂, hsound₂, hnode₂, he₂, hcalls₂, hfiles₂, hterm₂⟩ :=
    exists_finalize hsound ha hcand he
  -- the election is finalized at once exactly when there is nobody to ask
  obtain ⟨H', hgrow, hsound', hnode', he', hcalls', hfiles', hterm'⟩ :
      ∃ H', H₁.Extends (cfg.replicaId a) H' ∧ H'.Sound cfg.ids ∧
        NodeOk cfg H' a ((c.startTurn a).openElection n).1 ∧
        ElectionOk cfg H' (c.wire ++ ((c.startTurn a).setNode n).packets
          (.requestVote n.requestVoteArgs) n.peers) a ((c.startTurn a).openElection n).2 ∧
        ((c.startTurn a).openElection n).1.calls = n.calls ∧
        ((c.startTurn a).openElection n).1.persistence = n.persistence ∧
        n.currentTerm ≤ ((c.startTurn a).openElection n).1.currentTerm := by
    unfold Turn.openElection
    split
    · exact ⟨H₂, hx₂, hsound₂, hnode₂, he₂, hcalls₂, hfiles₂, hterm₂⟩
    · exact ⟨H₁, .refl _ _, hsound, hcand, he, rfl, rfl, le_rfl⟩
  generalize (c.startTurn a).openElection n = r at *
  have hself : r.1.selfUrl = n.selfUrl := by
    have hr' : r.1.selfUrl = a := congrArg RaftNode.Params.selfUrl hnode'.params
    have hn' : n.selfUrl = a := congrArg RaftNode.Params.selfUrl hcand.params
    rw [hr', hn']
  have hsent : (((c.startTurn a).setNode r.1).setElections
      ((c.startTurn a).replica.elections ++ [r.2])).packets (.requestVote n.requestVoteArgs)
        n.peers = ((c.startTurn a).setNode n).packets (.requestVote n.requestVoteArgs) n.peers := by
    simp only [Turn.packets, Turn.promises, Turn.setElections, Turn.setNode, hself]
  refine ⟨H', ?_⟩
  rw [hrun, Turn.sendAll_eq, hsent]
  refine ⟨hx.trans hgrow, hsound', hnode', ?_, hterm.trans hterm', ?_, ?_, ?_⟩
  · obtain ⟨cs, hcs, hps, hs⟩ := hsaves
    exact ⟨cs, hcalls'.trans hcs, hfiles'.trans hps, hs⟩
  · intro e' hmem
    rcases List.mem_append.mp hmem with hold | hnew
    · exact (hc.elections a ha e' hold).extend (hx.trans hgrow) (List.subset_append_left _ _)
    · rw [List.mem_singleton.mp hnew]
      exact he'
  · exact fun p hp => (hpackets p hp).extend hgrow
  · intro p _ r hr
    cases hr

/-- A vote callback makes the node step down or not, counts the vote or not, and
finalizes or not. -/
theorem Turn.onVote_cases (n : RaftNode) (e : Election) (peer : String)
    (reply : RequestVoteResult) :
    ∃ m e₁, (m = n ∨ ∃ term, n.currentTerm < term ∧ m = n.becomeFollower term none none) ∧
      (e₁ = e ∨ reply.voteGranted = true ∧
        e₁ = { e with votesGranted := e.votesGranted + 1, voters := e.voters ++ [peer] }) ∧
      (Turn.onVote n e peer reply = (m, e₁) ∨ Turn.onVote n e peer reply = Turn.finalize m e₁) := by
  unfold Turn.onVote
  split
  · exact ⟨n, e, Or.inl rfl, Or.inl rfl, Or.inl rfl⟩
  · split
    · next hlt =>
        exact ⟨_, e, Or.inr ⟨reply.term, hlt, rfl⟩, Or.inl rfl, Or.inr rfl⟩
    · split
      · next hgrant =>
          dsimp only
          split
          · exact ⟨n, _, Or.inl rfl, Or.inr ⟨hgrant, rfl⟩, Or.inr rfl⟩
          · exact ⟨n, _, Or.inl rfl, Or.inr ⟨hgrant, rfl⟩, Or.inl rfl⟩
      · exact ⟨n, e, Or.inl rfl, Or.inl rfl, Or.inl rfl⟩

/-- A settled promise is no longer waited for, and its peer not yet counted. -/
theorem ElectionOk.close {wire : List Packet} {e : Election} (h : ElectionOk cfg H wire a e)
    {rpc : ℕ} {q : ℕ × String} (hq : e.awaiting.find? (fun p => p.1 = rpc) = some q) :
    ElectionOk cfg H wire a (Turn.closeVote e rpc) ∧ q.2 ∈ cfg.peers a ∧
      q.2 ∉ (Turn.closeVote e rpc).awaiting.map Prod.snd ∧ q.2 ∉ e.voters := by
  have hmem : q ∈ e.awaiting := List.mem_of_find?_eq_some hq
  have hrpc : q.1 = rpc := by simpa using List.find?_some hq
  obtain ⟨hnd, hnd', hdisj⟩ := List.nodup_append.mp h.nodup
  have hsub : ((e.awaiting.filter fun p => p.1 ≠ rpc).map Prod.snd).Sublist
      (e.awaiting.map Prod.snd) := List.filter_sublist.map _
  have hq2 : q.2 ∈ e.awaiting.map Prod.snd := List.mem_map_of_mem hmem
  refine ⟨⟨h.own, h.count, h.nodup.sublist (hsub.append (.refl _)), ?_, h.votes, ?_⟩,
    h.peers _ (List.mem_append_left _ hq2), ?_, fun hv => hdisj _ hq2 _ hv rfl⟩
  · exact fun p hp => h.peers p ((hsub.append (.refl _)).subset hp)
  · exact fun r hr => h.asked r (List.mem_of_mem_filter hr)
  · intro hin
    obtain ⟨r, hr, heq⟩ := List.mem_map.mp hin
    have : r = q := List.inj_on_of_nodup_map hnd (List.mem_of_mem_filter hr) hmem heq
    rw [this] at hr
    simpa [hrpc] using (List.mem_filter.mp hr).2

/-- A vote that was cast may be counted, once. -/
theorem ElectionOk.tally {wire : List Packet} {e : Election} (h : ElectionOk cfg H wire a e)
    {peer : String} (hpeer : peer ∈ cfg.peers a) (hwait : peer ∉ e.awaiting.map Prod.snd)
    (hnew : peer ∉ e.voters) (hvote : H.vote (cfg.replicaId peer) e.term (cfg.replicaId a)) :
    ElectionOk cfg H wire a
      { e with votesGranted := e.votesGranted + 1, voters := e.voters ++ [peer] } where
  own := h.own
  count := by
    rw [List.length_append, h.count]
    rfl
  nodup := by
    rw [← List.append_assoc]
    refine List.nodup_append.mpr ⟨h.nodup, by simp, ?_⟩
    rintro p hp q hq rfl
    obtain rfl := List.mem_singleton.mp hq
    rcases List.mem_append.mp hp with hp | hp
    · exact hwait hp
    · exact hnew hp
  peers := by
    intro p hp
    rw [← List.append_assoc] at hp
    rcases List.mem_append.mp hp with hp | hp
    · exact h.peers p hp
    · exact List.mem_singleton.mp hp ▸ hpeer
  votes := by
    intro p hp
    rcases List.mem_append.mp hp with hp | hp
    · exact h.votes p hp
    · exact List.mem_singleton.mp hp ▸ hvote
  asked := h.asked

/-- Replacing an election by one that is in order. -/
theorem electionOk_set {wire : List Packet} {es : List Election} {k : ℕ} {e' : Election}
    (h : ∀ e ∈ es, ElectionOk cfg H wire a e) (h' : ElectionOk cfg H wire a e') :
    ∀ e ∈ es.set k e', ElectionOk cfg H wire a e := by
  intro e he
  rcases List.mem_or_eq_of_mem_set he with hold | rfl
  · exact h e hold
  · exact h'

/-- The last `finally` settles an election. -/
theorem exists_turnOk_voteFinally (hc : Electoral cfg H c) (ha : a ∈ cfg.members) {k : ℕ}
    (h : (c.startTurn a).voteFinally k = some t) : ∃ H', TurnOk cfg c a H H' t := by
  have hstart : NodeOk cfg H a (c.startTurn a).replica.node := (hc.nodes a ha).beginTurn
  obtain ⟨e, hk, rfl⟩ := Turn.voteFinally_some h
  have hold : ∀ e ∈ (c.startTurn a).replica.elections, ElectionOk cfg H c.wire a e :=
    hc.elections a ha
  have he : ElectionOk cfg H c.wire a
      { e with closing := e.closing - 1, pendingReplies := e.pendingReplies - 1 } :=
    (hold e (List.mem_of_getElem? hk)).of_eq rfl rfl rfl rfl
  unfold Turn.onVoteSettled
  dsimp only
  split
  · obtain ⟨H', hx, hsound, hnode, he', hcalls, hfiles, hterm⟩ :=
      exists_finalize hc.sound ha hstart he
    refine ⟨H', hx, hsound, hnode, .of_eq hcalls hfiles, hterm, ?_, ?_, ?_⟩
    · have hset := electionOk_set (k := k) (fun e he => (hold e he).extend hx fun _ h => h) he'
      exact fun e hmem => (hset e hmem).extend (.refl (cfg.replicaId a) H')
        (List.subset_append_left _ _)
    · exact fun p hp => by cases hp
    · exact fun p _ r hr => by cases hr
  · refine ⟨H, .refl _ _, hc.sound, hstart, .of_eq rfl rfl, le_rfl, ?_, ?_, ?_⟩
    · exact fun e hmem => (electionOk_set hold he e hmem).extend (.refl (cfg.replicaId a) H)
        (List.subset_append_left _ _)
    · exact fun p hp => by cases hp
    · exact fun p _ r hr => by cases hr

/-- A vote may win one. -/
theorem exists_turnOk_voteReply (hc : Electoral cfg H c) (ha : a ∈ cfg.members) {k rpc : ℕ}
    {outcome : Option RequestVoteResult} (hp : c.Possible rpc (outcome.map .requestVote))
    (h : (c.startTurn a).voteReply k rpc outcome = some t) : ∃ H', TurnOk cfg c a H H' t := by
  have hstart : NodeOk cfg H a (c.startTurn a).replica.node := (hc.nodes a ha).beginTurn
  obtain ⟨e, q, hk, hq, rfl⟩ := Turn.voteReply_some h
  have hold : ∀ e ∈ (c.startTurn a).replica.elections, ElectionOk cfg H c.wire a e :=
    hc.elections a ha
  have hopen := hold e (List.mem_of_getElem? hk)
  obtain ⟨hclosed, hpeer, hwait, hnew⟩ := hopen.close hq
  have hset : ∀ {H' e'}, H.Extends (cfg.replicaId a) H' → ElectionOk cfg H' c.wire a e' →
      ∀ e ∈ (c.startTurn a).replica.elections.set k e',
        ElectionOk cfg H' (c.wire ++ []) a e := by
    intro H' e' hx he' e hmem
    exact (electionOk_set (fun e he => (hold e he).extend hx fun _ h => h) he' e hmem).extend
      (.refl (cfg.replicaId a) H') (List.subset_append_left _ _)
  cases outcome with
  | none =>
      exact ⟨H, .refl _ _, hc.sound, hstart, .of_eq rfl rfl, le_rfl,
        hset (.refl _ _) hclosed, (fun p hp => by cases hp), fun p _ r hr => by cases hr⟩
  | some reply =>
      obtain ⟨m, e₁, hstep, he₁, hrun⟩ := Turn.onVote_cases (c.startTurn a).replica.node
        (Turn.closeVote e rpc) q.2 reply
      have hd : RaftNode.Drifts (fun _ => False) (c.startTurn a).replica.node m := by
        rcases hstep with rfl | ⟨term, hlt, rfl⟩
        · exact .refl _
        · exact RaftNode.drifts_becomeFollower _ none none (Or.inl hlt)
      have hquiet : Heard cfg H a fun _ => False := fun _ hf => hf.elim
      have hm := hstart.drift hc.sound hquiet hd
      have hsaves := recoverable_drift hc.sound hquiet hstart hd
      -- a counted vote is one that the peer has cast
      have hcount : ElectionOk cfg H c.wire a e₁ := by
        rcases he₁ with rfl | ⟨hgrant, rfl⟩
        · exact hclosed
        · refine hclosed.tally hpeer hwait hnew ?_
          obtain ⟨args, hpacket, hterm, hcand⟩ := hopen.asked q (List.mem_of_find?_eq_some hq)
          have hrpc : q.1 = rpc := by simpa using List.find?_some hq
          have hreply : (q.1, RaftNode.Reply.requestVote reply) ∈ c.replies := hrpc ▸ hp
          have hback := hc.votes _ hpacket _ hreply args reply rfl rfl hgrant
          rw [hterm, hcand] at hback
          exact hback
      unfold Turn.onVoteOutcome
      dsimp only
      rcases hrun with hrun | hrun
      · rw [hrun]
        exact ⟨H, .refl _ _, hc.sound, hm, hsaves, hd.currentTerm_le, hset (.refl _ _) hcount,
          (fun p hp => by cases hp), fun p _ r hr => by cases hr⟩
      · rw [hrun]
        obtain ⟨H', hx, hsound, hnode, he', hcalls, hfiles, hterm⟩ :=
          exists_finalize hc.sound ha hm hcount
        exact ⟨H', hx, hsound, hnode, hsaves.trans (.of_eq hcalls hfiles),
          hd.currentTerm_le.trans hterm, hset hx he', (fun p hp => by cases hp),
          fun p _ r hr => by cases hr⟩

/-- A vote for another, cast on request, extends the history by that vote. -/
theorem exists_turnOk_requestVote (hc : Electoral cfg H c) {packet : Packet}
    (hmem : packet ∈ c.wire) {args : RequestVoteArgs}
    (hreq : packet.request = .requestVote args) (hdst : packet.dst ∈ cfg.members) :
    ∃ H', TurnOk cfg c packet.dst H H' ((c.startTurn packet.dst).deliver packet) := by
  have hstart : NodeOk cfg H packet.dst (c.startTurn packet.dst).replica.node :=
    (hc.nodes _ hdst).beginTurn
  have hpacket := hc.packets packet hmem
  obtain ⟨hcand, hpeer⟩ := hpacket.vote args hreq
  have hne : args.candidateId ≠ cfg.replicaId packet.dst := by
    rw [hcand]
    exact (Config.replicaId_ne hpacket.src hpeer).symm
  have hquiet : Heard cfg H packet.dst fun _ => False := fun _ hf => hf.elim
  have hrun : (c.startTurn packet.dst).deliver packet =
      { (c.startTurn packet.dst).setNode
          ((c.startTurn packet.dst).replica.node.handleRequestVote args).1 with
        replied := [(packet.rpc, .requestVote
          ((c.startTurn packet.dst).replica.node.handleRequestVote args).2)] } := by
    unfold Turn.deliver
    rw [hreq]
    rfl
  rw [hrun]
  obtain ⟨m, hd, hcases⟩ :=
    RaftNode.handleRequestVote_cases (c.startTurn packet.dst).replica.node args
  have hm := hstart.drift hc.sound hquiet hd
  have hsaves := recoverable_drift hc.sound hquiet hstart hd
  have hold : ∀ {H'}, H.Extends (cfg.replicaId packet.dst) H' →
      ∀ e ∈ (c.replicas packet.dst).elections, ElectionOk cfg H' (c.wire ++ []) packet.dst e :=
    fun hx e he => (hc.elections _ hdst e he).extend hx (List.subset_append_left _ _)
  rcases hcases with hno | ⟨hterm, hfree, -, hgrant⟩
  · -- the vote is refused
    rw [hno]
    refine ⟨H, .refl _ _, hc.sound, hm, hsaves, hd.currentTerm_le, hold (.refl _ _),
      (fun p hp => by cases hp), ?_⟩
    rintro p - r hr args' v - rfl hgranted
    have heq := (Prod.mk.inj (List.mem_singleton.mp hr)).2
    obtain rfl := RaftNode.Reply.requestVote.inj heq
    cases hgranted
  · -- the vote is granted and saved
    rw [hgrant]
    have hfree' : m.voter.choice = none ∨ m.voter.choice = some args.candidateId := hfree
    have hx := H.extends_cast (cfg.replicaId packet.dst) m.voter.term args.candidateId
    refine ⟨_, hx, hc.sound.grant hm.honours hne hfree', ⟨hm.params,
      hm.honours.grant hne hfree', ?_⟩, ?_, hd.currentTerm_le, hold hx,
      (fun p hp => by cases hp), ?_⟩
    · obtain ⟨hfile, hct, hvf⟩ := RaftNode.synced_persistState
        (n := { m with votedFor := some args.candidateId }) hm.synced.file
      exact ⟨hfile, hct, hvf⟩
    · refine hsaves.trans ⟨[.saveState ⟨m.currentTerm, some args.candidateId, m.commitIndex⟩],
        rfl, rfl, ?_⟩
      intro s hs
      obtain rfl : s = ⟨m.currentTerm, some args.candidateId, m.commitIndex⟩ := by simpa using hs
      exact ⟨(hm.honours.pregrant hne hfree').reboot, hd.currentTerm_le⟩
    · intro p hp r hr args' v hpreq _ _
      have hrpc := (Prod.mk.inj (List.mem_singleton.mp hr)).1
      obtain rfl := hc.numbered.packet_inj hp hmem hrpc
      obtain rfl := RaftNode.Request.requestVote.inj (hreq.symm.trans hpreq)
      exact Or.inr ⟨rfl, hterm.symm, rfl⟩

/-- Any other request only lets the node drift. -/
theorem turnOk_deliver (hc : Electoral cfg H c) {packet : Packet} (hmem : packet ∈ c.wire)
    (hno : ∀ args, packet.request ≠ .requestVote args) (hdst : packet.dst ∈ cfg.members) :
    TurnOk cfg c packet.dst H H ((c.startTurn packet.dst).deliver packet) := by
  have hstart : NodeOk cfg H packet.dst (c.startTurn packet.dst).replica.node :=
    (hc.nodes _ hdst).beginTurn
  have hpacket := hc.packets packet hmem
  have hd := RaftNode.drifts_handle (c.startTurn packet.dst).replica.node packet.request hno
  have hheard : Heard cfg H packet.dst fun t => ∃ id, packet.request.leader? = some (t, id) := by
    rintro t ⟨id, hl⟩
    obtain ⟨-, hwon, hpeer⟩ := hpacket.lead _ hl
    exact ⟨_, (Config.replicaId_ne hpacket.src hpeer).symm, hwon⟩
  refine ⟨.refl _ _, hc.sound, hstart.drift hc.sound hheard hd,
    recoverable_drift hc.sound hheard hstart hd, hd.currentTerm_le, ?_,
    (fun p hp => by cases hp), ?_⟩
  · exact fun e he => (hc.elections _ hdst e he).extend (.refl (cfg.replicaId packet.dst) H)
      (List.subset_append_left _ _)
  · intro p hp r hr args v hpreq _ _
    have hrpc : p.rpc = packet.rpc := (Prod.mk.inj (List.mem_singleton.mp hr)).1
    obtain rfl := hc.numbered.packet_inj hp hmem hrpc
    exact absurd hpreq (hno args)

/-- **The step lemma.**  Every turn extends the history of votes. -/
theorem exists_turnOk (hc : Electoral cfg H c) {action : Action}
    (ha : action.replica ∈ cfg.members) (h : c.turn action = some t) :
    ∃ H', TurnOk cfg c action.replica H H' t := by
  rcases Cluster.turn_cases h with hplain | rfl | ⟨k, rpc, outcome, hp, hrun⟩ | ⟨k, hrun⟩ |
    ⟨packet, hmem, rfl, rfl⟩
  · exact ⟨H, turnOk_plain hc ha hplain⟩
  · exact exists_turnOk_runElection hc ha
  · exact exists_turnOk_voteReply hc ha hp hrun
  · exact exists_turnOk_voteFinally hc ha hrun
  · by_cases hreq : ∃ args, packet.request = .requestVote args
    · obtain ⟨args, hreq⟩ := hreq
      exact exists_turnOk_requestVote hc hmem hreq ha
    · exact ⟨H, turnOk_deliver hc hmem (fun args h => hreq ⟨args, h⟩) ha⟩

/-! ## Runs -/

/-- A finished turn keeps the invariant. -/
theorem Electoral.finishTurn (hc : Electoral cfg H c) {H' : Ballots.History String}
    {action : Action} (ha : action.replica ∈ cfg.members) (h : c.turn action = some t)
    (ht : TurnOk cfg c action.replica H H' t) :
    Electoral cfg H' (c.finishTurn action.replica t) where
  numbered := hc.numbered.finishTurn h
  sound := ht.sound
  nodes := by
    intro b hb
    by_cases hne : b = action.replica
    · rw [hne, Cluster.replicas_finishTurn_self]
      exact ht.node
    · rw [Cluster.replicas_finishTurn_ne c t hne]
      exact (hc.nodes b hb).extend ht.grows fun heq => hne (cfg.replicaId_inj b hb _ ha heq)
  elections := by
    intro b hb e he
    by_cases hne : b = action.replica
    · rw [hne, Cluster.replicas_finishTurn_self] at he
      exact hne ▸ ht.elections e he
    · rw [Cluster.replicas_finishTurn_ne c t hne] at he
      exact (hc.elections b hb e he).extend ht.grows (List.subset_append_left _ _)
  packets := by
    intro p hp
    rcases List.mem_append.mp hp with hold | hnew
    · exact (hc.packets p hold).extend ht.grows
    · exact ht.packets p hnew
  votes := by
    intro p hp r hr
    -- a reply made so far answers a request sent so far
    have hwire : p ∈ c.wire := by
      obtain ⟨q, hq, hrpc⟩ : ∃ q ∈ c.wire, q.rpc = p.rpc := by
        rcases List.mem_append.mp hr with hold | hnew
        · exact hc.numbered.replied _ hold
        · exact (Cluster.sends_turn h).2 _ hnew
      have hnum := hc.numbered.finishTurn h
      exact hnum.packet_inj (List.mem_append_left _ hq) hp hrpc ▸ hq
    rcases List.mem_append.mp hr with hold | hnew
    · exact (hc.votes p hwire r hold).extend ht.grows
    · exact ht.votes p hwire r hnew

/-- A restart keeps the invariant when the surviving state file honours the votes. -/
theorem Electoral.reboot (hc : Electoral cfg H c) (ha : a ∈ cfg.members) {p : Persistence}
    (hfile : p.backend = .file) (h : Honours H (cfg.replicaId a) p.loadState.voter) :
    Electoral cfg H (c.reboot cfg a p) where
  numbered := hc.numbered.reboot cfg a p
  sound := hc.sound
  nodes := by
    intro b hb
    by_cases hne : b = a
    · subst hne
      rw [Cluster.replicas_reboot_self]
      exact (nodeOk_construct p hfile h).1
    · rw [Cluster.replicas_reboot_ne c p hne]
      exact hc.nodes b hb
  elections := by
    intro b hb e he
    by_cases hne : b = a
    · subst hne
      rw [Cluster.replicas_reboot_self] at he
      cases he
    · rw [Cluster.replicas_reboot_ne c p hne] at he
      exact hc.elections b hb e he
  packets := hc.packets
  votes := hc.votes

/-- What a crash in the middle of a turn leaves in the state file. -/
theorem NodeOk.replay {n n' : RaftNode} (hn : NodeOk cfg H a n)
    (hs : RaftNode.Saves (Recoverable cfg H a n.currentTerm) n.beginTurn n') (calls : ℕ) :
    Honours H (cfg.replicaId a) (n.persistence.replay (n'.calls.take calls)).loadState.voter ∧
      n.currentTerm ≤ (n.persistence.replay (n'.calls.take calls)).loadState.currentTerm := by
  obtain ⟨cs, hcs, -, hrec⟩ := hs
  have hcs : n'.calls = cs := hcs
  rcases Persistence.loadState_replay n.persistence (n'.calls.take calls)
    with hold | ⟨s, hmem, hnew⟩
  · rw [hold]
    have heq : n.persistence.loadState.voter = { n.voter with role := .follower } := by
      unfold PersistedState.voter RaftNode.voter
      rw [hn.synced.currentTerm, hn.synced.votedFor]
    exact ⟨heq ▸ hn.honours.reboot, hn.synced.currentTerm.ge⟩
  · rw [hnew]
    exact hrec s (hcs ▸ List.mem_of_mem_take hmem)

/-- **The invariant step.**  Every event continues the history of votes, and no
term ever goes back. -/
theorem Electoral.next {c' : Cluster} (hc : Electoral cfg H c) {e : Cluster.Event}
    (h : Cluster.next cfg c e = some c') :
    ∃ H', H.Continues H' ∧ Electoral cfg H' c' ∧
      ∀ b ∈ cfg.members, (c.replicas b).node.currentTerm ≤ (c'.replicas b).node.currentTerm := by
  rcases Cluster.next_cases h with ⟨action, t, rfl, ha, ht, rfl⟩ |
    ⟨action, t, calls, rfl, ha, ht, rfl⟩ |
    ⟨a, calls, rfl, ha, rfl⟩
  · obtain ⟨H', hturn⟩ := exists_turnOk hc ha ht
    refine ⟨H', hturn.grows.continues, hc.finishTurn ha ht hturn, fun b hb => ?_⟩
    by_cases hne : b = action.replica
    · rw [hne, Cluster.replicas_finishTurn_self]
      exact hturn.term_le
    · rw [Cluster.replicas_finishTurn_ne c t hne]
  · obtain ⟨H', hturn⟩ := exists_turnOk hc ha ht
    have hn := hc.nodes _ ha
    obtain ⟨hhon, hterm⟩ := hn.replay hturn.saves calls
    have hfile : ((c.files action.replica).replay
        (t.replica.node.calls.take calls)).backend = .file := by
      rw [Persistence.backend_replay]
      exact hn.synced.file
    refine ⟨H, .refl H, hc.reboot ha hfile hhon, fun b hb => ?_⟩
    by_cases hne : b = action.replica
    · rw [hne, Cluster.replicas_reboot_self]
      exact hterm.trans (nodeOk_construct _ hfile hhon).2.1.ge
    · rw [Cluster.replicas_reboot_ne c _ hne]
  · have hn := hc.nodes a ha
    have hold : Honours H (cfg.replicaId a) (c.files a).loadState.voter := (hn.replay (.refl _) 0).1
    have hback : (c.files a).backend = .file := hn.synced.file
    obtain ⟨-, -, hsame⟩ := nodeOk_construct (c.files a) hback hold
    have hfile : ((c.files a).replay
        ((RaftNode.construct (cfg.params a) (c.files a)).calls.take calls)).backend = .file := by
      rw [Persistence.backend_replay, hback]
    have hhon := (hsame calls).symm ▸ hold
    refine ⟨H, .refl H, hc.reboot ha hfile hhon, fun b hb => ?_⟩
    by_cases hne : b = a
    · rw [hne, Cluster.replicas_reboot_self]
      have hterm := (nodeOk_construct _ hfile hhon : NodeOk cfg H a _ ∧ _).2.1
      have hvoter := congrArg Ballots.Voter.term (hsame calls)
      have hsync := hn.synced.currentTerm
      exact (hsync.symm.trans (hvoter.symm.trans hterm.symm)).le
    · rw [Cluster.replicas_reboot_ne c _ hne]

/-- A fresh cluster has cast no vote. -/
theorem electoral_init (cfg : Config) [cfg.OnFiles] :
    Electoral cfg (.blank String) (.init cfg) where
  numbered := ⟨(fun p hp => by cases hp), List.nodup_nil, fun r hr => by cases hr⟩
  sound := Ballots.History.sound_blank _
  nodes := fun a ha =>
    (nodeOk_construct (.fresh (cfg.backend a)) (Config.OnFiles.backend a ha) (Honours.blank _)).1
  elections := fun a _ e he => by cases he
  packets := fun p hp => by cases hp
  votes := fun p hp => by cases hp

variable {ok : Cluster → Cluster.Event → Prop} {c' : Cluster}

/-- A run continues the history of votes, and no term goes back. -/
theorem Electoral.reach (hc : Electoral cfg H c) (h : Cluster.Reach cfg ok c c') :
    ∃ H', H.Continues H' ∧ Electoral cfg H' c' ∧
      ∀ b ∈ cfg.members, (c.replicas b).node.currentTerm ≤ (c'.replicas b).node.currentTerm := by
  induction h with
  | refl => exact ⟨H, .refl H, hc, fun _ _ => le_rfl⟩
  | tail _ _ hstep ih =>
      obtain ⟨H₁, hx₁, hc₁, hle₁⟩ := ih
      obtain ⟨H₂, hx₂, hc₂, hle₂⟩ := hc₁.next hstep
      exact ⟨H₂, hx₁.trans hx₂, hc₂, fun b hb => (hle₁ b hb).trans (hle₂ b hb)⟩

/-- A leader has won its term. -/
theorem Electoral.won_of_leader (hc : Electoral cfg H c) (ha : a ∈ cfg.members)
    (hlead : (c.replicas a).node.state = .leader) :
    H.won (c.replicas a).node.currentTerm (cfg.replicaId a) := by
  refine (hc.nodes a ha).honours.won_of_leader ?_
  unfold RaftNode.voter
  rw [hlead]
  rfl

/-- **Election safety.**  Take any run from a fresh cluster, and in it two moments
and two members, each leader at its moment, of the same term.  They are the same
member. -/
theorem election_safety (cfg : Config) [cfg.OnFiles] {c₁ c₂ : Cluster} {x y : String}
    (h₁ : Cluster.Reach cfg Runs.Any (.init cfg) c₁) (h₂ : Cluster.Reach cfg Runs.Any c₁ c₂)
    (hx : x ∈ cfg.members) (hy : y ∈ cfg.members)
    (hlx : (c₁.replicas x).node.state = .leader) (hly : (c₂.replicas y).node.state = .leader)
    (hterm : (c₁.replicas x).node.currentTerm = (c₂.replicas y).node.currentTerm) : x = y := by
  obtain ⟨H₁, -, hc₁, -⟩ := (electoral_init cfg).reach h₁
  obtain ⟨H₂, hcont, hc₂, -⟩ := hc₁.reach h₂
  have hwx := hcont.won _ _ (hc₁.won_of_leader hx hlx)
  have hwy := hc₂.won_of_leader hy hly
  rw [← hterm] at hwy
  exact cfg.replicaId_inj x hx y hy (hc₂.sound.unique hwx hwy)

/-- Three replicas that go by their addresses. -/
def Config.trio : Config where
  members := ["a", "b", "c"]
  replicaId := id
  peers := fun x => ["a", "b", "c"].filter (· ≠ x)
  snapshotThreshold := fun _ => 100
  batchCap := fun _ => 50
  backend := fun _ => .file
  members_nodup := by decide
  replicaId_inj := fun _ _ _ _ h => h
  peers_nodup := by decide
  mem_peers := fun a _ b => by simp

instance : Config.trio.OnFiles := ⟨fun _ _ => rfl⟩

/-- Replica `a` of the trio is elected in term 1 by `b`. -/
def trioElection : List Cluster.Event :=
  [.act (.electionTimeout "a"),
    .act (.deliver ⟨0, "a", "b", .requestVote ⟨1, "a", 0, 0⟩⟩),
    .act (.voteReply "a" 0 0 (some ⟨1, true, "b"⟩))]

/-- `a` leads term 1, now and later. -/
theorem election_safety_trio :
    let c₁ := Cluster.play .trio (.init .trio) trioElection
    let c₂ := Cluster.play .trio c₁ [.act (.electionTimeout "c")]
    (c₁.replicas "a").node.state = .leader ∧ (c₂.replicas "a").node.state = .leader ∧
      "a" = "a" := by
  intro c₁ c₂
  have h₁ : Cluster.Reach .trio Runs.Any (.init .trio) c₁ := Cluster.reach_play rfl
  have h₂ : Cluster.Reach .trio Runs.Any c₁ c₂ := Cluster.reach_play rfl
  have hlead₁ : (c₁.replicas "a").node.state = .leader := rfl
  have hlead₂ : (c₂.replicas "a").node.state = .leader := rfl
  exact ⟨hlead₁, hlead₂,
    election_safety .trio h₁ h₂ (by decide) (by decide) hlead₁ hlead₂ rfl⟩

end QuorumCanvas
