import QuorumCanvas.Applied
import QuorumCanvas.ElectionSafety
import QuorumCanvas.Progress

/-!
# Linearizable reads

A read notes the leader's term, asks every peer whether it still follows that
term, and answers from the leader's boards once a majority said yes.  A peer
that says yes has not moved to a later term, at the moment of the call least of
all, so a majority of peers cannot have elected a later leader before the call
(`Watched.latest`).

The strokes returned are the replay of what the leader has applied, with one
exception: a snapshot drops the board called `__proto__`, so a read of that
board can miss strokes that were applied.  `read_fresh` is stated for runs that
do not write to it, and `stale_read_proto` shows what happens otherwise.
-/

namespace QuorumCanvas

open Quorum (Majority)
open RaftNode (Reply Request)

namespace Cluster

variable {cfg : Config} {c c' : Cluster} {action : Action} {t : Turn}

/-! ## How reads change -/

/-- The read that `readBoardState` starts. -/
def newRead (c : Cluster) (n : RaftNode) (boardId : String) : Read where
  id := c.nextId
  boardId := boardId
  term := n.currentTerm
  heartbeats := (List.range' (c.nextId + 1) n.peers.length).map fun rpc => (rpc, none)
  confirmed := none

/-- No successful read among the answers of a turn. -/
def NoRead (responses : List (ℕ × Response)) : Prop :=
  ∀ id strokes hint, (id, .read (some strokes) hint) ∉ responses

theorem noRead_nil : NoRead [] := fun _ _ _ h => by cases h

/-- An answer to a write is none. -/
theorem noRead_write (id : ℕ) (success : Bool) (hint : Option String) :
    NoRead [(id, .write success hint)] := fun _ _ _ h => by simp at h

/-- Neither is a refused read. -/
theorem noRead_refused (id : ℕ) (hint : Option String) : NoRead [(id, .read none hint)] :=
  fun _ _ _ h => by simp at h

/-- Driving the peers answers nobody. -/
theorem noRead_driveAll (u : Turn) (hnil : u.responses = []) (peers : List String) :
    NoRead (u.driveAll peers).1.responses := by
  rw [(u.driveAll_spec peers).1.responses, hnil]
  exact noRead_nil

/-- A write answers a write, if at all. -/
theorem noRead_clientWrite (u : Turn) (hnil : u.responses = []) (stroke : Stroke) :
    NoRead (u.clientWrite stroke).responses := by
  unfold Turn.clientWrite
  dsimp only
  split
  · show NoRead (u.responses ++ _)
    rw [hnil]
    exact noRead_write _ _ _
  · exact noRead_driveAll (u.number.setNode _) hnil _

/-- So does a write that resumes. -/
theorem noRead_resumeWrite (u : Turn) (hnil : u.responses = []) (k : ℕ) (w : Write) :
    NoRead (u.resumeWrite k w).responses := by
  have hanswer : ∀ success hint, NoRead (u.responses ++ [(w.id, .write success hint)]) :=
    fun success hint => by
      rw [hnil]
      exact noRead_write _ _ _
  unfold Turn.resumeWrite
  dsimp only
  split
  · exact hanswer _ _
  · split
    · exact hanswer _ _
    · split
      · exact noRead_driveAll u hnil _
      · exact hanswer _ _

/-- No turn but the last one of a read answers a client with strokes. -/
theorem noRead_turn (h : c.turn action = some t) (hno : ¬ action.Reads) : NoRead t.responses := by
  by_cases hanswers : action.Answers
  · cases action with
    | clientWrite a stroke =>
        obtain rfl := Option.some.inj h
        exact noRead_clientWrite _ rfl stroke
    | writeResume a k =>
        obtain ⟨w, -, rfl⟩ := Turn.writeResume_some h
        exact noRead_resumeWrite _ rfl k w
    | readBoardState a boardId => exact absurd trivial hno
    | readFinish a k => exact absurd trivial hno
    | _ => exact absurd hanswers not_false
  · rw [(touches_turn h).responses hanswers]
    exact noRead_nil

/-- **A turn and its reads:** it starts one, settles a heartbeat of one, confirms
or refuses one, answers one, or leaves them alone. -/
theorem reads_cases (h : c.turn action = some t) :
    (t.replica.reads = (c.replicas action.replica).reads ∧ NoRead t.responses) ∨
      (∃ boardId, action = .readBoardState action.replica boardId ∧
        (c.replicas action.replica).node.state = .leader ∧
            t.replica.reads = (c.replicas action.replica).reads ++
          [c.newRead (c.replicas action.replica).node boardId] ∧ t.responses = []) ∨
      (∃ k rpc outcome r, (c.replicas action.replica).reads[k]? = some r ∧
        (rpc, none) ∈ r.heartbeats ∧ c.Possible rpc (outcome.map .heartbeat) ∧
        t.replica.reads = (c.replicas action.replica).reads.set k
          (Turn.closeHeartbeat r rpc outcome) ∧ t.responses = []) ∨
      (∃ k r, (c.replicas action.replica).reads[k]? = some r ∧
        t.replica.reads = (c.replicas action.replica).reads.set k { r with
          confirmed := some ((c.replicas action.replica).node.beginTurn.confirmLeadership r.term
            (r.heartbeats.map fun h => h.2.join)).2 } ∧ t.responses = []) ∨
      (∃ k r confirmed, (c.replicas action.replica).reads[k]? = some r ∧
        r.confirmed = some confirmed ∧
        t.replica.reads = (c.replicas action.replica).reads.eraseIdx k ∧
        t.responses = [(r.id, if confirmed
          then .read (some ((c.replicas action.replica).node.getStrokes r.boardId)) none
          else .read none (c.replicas action.replica).node.leaderAddr)]) := by
  by_cases hread : action.Reads
  · cases action with
    | readBoardState a boardId =>
        obtain rfl := Option.some.inj h
        unfold Turn.readBoardState
        dsimp only
        split
        · exact Or.inl ⟨rfl, noRead_refused _ _⟩
        · next hstate =>
            rw [Turn.sendAll_eq]
            exact Or.inr (Or.inl ⟨boardId, rfl, not_not.mp hstate, rfl, rfl⟩)
    | readReply a k rpc outcome =>
        simp only [turn, Option.ite_none_right_eq_some] at h
        obtain ⟨r, hk, hopen, rfl⟩ := Turn.readReply_some h.2
        exact Or.inr (Or.inr (Or.inl ⟨k, rpc, outcome, r, hk, hopen, h.1, rfl, rfl⟩))
    | readResume a k =>
        obtain ⟨r, hk, -, -, rfl⟩ := Turn.readResume_some h
        exact Or.inr (Or.inr (Or.inr (Or.inl ⟨k, r, hk, rfl, rfl⟩)))
    | readFinish a k =>
        obtain ⟨r, confirmed, hk, hconf, rfl⟩ := Turn.readFinish_some h
        exact Or.inr (Or.inr (Or.inr (Or.inr ⟨k, r, confirmed, hk, hconf, rfl, rfl⟩)))
    | _ => exact absurd hread not_false
  · exact Or.inl ⟨(touches_turn h).reads hread, noRead_turn h hread⟩

/-- Reads are numbered below the next number. -/
def ReadsNumbered (cfg : Config) (c : Cluster) : Prop :=
  ∀ a ∈ cfg.members, ∀ r ∈ (c.replicas a).reads, r.id < c.nextId

/-- What `readBoardState` does on a leader. -/
theorem readBoardState_turn {a boardId : String} (hlead : (c.replicas a).node.state = .leader)
    (h : c.turn (.readBoardState a boardId) = some t) :
    t.replica = { c.replicas a with
        node := (c.replicas a).node.beginTurn
        reads := (c.replicas a).reads ++ [c.newRead (c.replicas a).node boardId] } ∧
      t.fresh = c.nextId + 1 + (c.replicas a).node.peers.length ∧
      t.sent = ((List.range' (c.nextId + 1) (c.replicas a).node.peers.length).zip
        (c.replicas a).node.peers).map (fun q => ⟨q.1, (c.replicas a).node.selfUrl, q.2,
          .heartbeat (c.replicas a).node.heartbeatArgs⟩) ∧
      t.replied = [] := by
  obtain rfl := Option.some.inj h
  unfold Turn.readBoardState
  dsimp only
  split
  · next hstate => exact absurd hlead hstate
  · rw [Turn.sendAll_eq]
    exact ⟨rfl, rfl, rfl, rfl⟩

/-- A read that was there before a turn, or was just started by it. -/
theorem reads_turn (h : c.turn action = some t) {r : Read} (hr : r ∈ t.replica.reads) :
    (∃ r' ∈ (c.replicas action.replica).reads, r'.id = r.id) ∨
      r.id = c.nextId ∧ c.nextId < t.fresh := by
  rcases reads_cases h with ⟨hreads, -⟩ | ⟨boardId, hact, hlead, hreads, -⟩ |
    ⟨k, rpc, outcome, r', hk, -, -, hreads, -⟩ | ⟨k, r', hk, hreads, -⟩ |
    ⟨k, r', confirmed, -, -, hreads, -⟩
  · exact Or.inl ⟨r, hreads ▸ hr, rfl⟩
  · rw [hreads] at hr
    rcases List.mem_append.mp hr with hold | hnew
    · exact Or.inl ⟨r, hold, rfl⟩
    · rw [hact] at h
      obtain ⟨-, hfresh, -, -⟩ := readBoardState_turn hlead h
      rw [List.mem_singleton.mp hnew]
      exact Or.inr ⟨rfl, by omega⟩
  · rw [hreads] at hr
    rcases List.mem_or_eq_of_mem_set hr with hold | rfl
    · exact Or.inl ⟨r, hold, rfl⟩
    · exact Or.inl ⟨r', List.mem_of_getElem? hk, rfl⟩
  · rw [hreads] at hr
    rcases List.mem_or_eq_of_mem_set hr with hold | rfl
    · exact Or.inl ⟨r, hold, rfl⟩
    · exact Or.inl ⟨r', List.mem_of_getElem? hk, rfl⟩
  · rw [hreads] at hr
    exact Or.inl ⟨r, List.mem_of_mem_eraseIdx hr, rfl⟩

/-- Every event keeps the numbers. -/
theorem readsNumbered_next (hc : ReadsNumbered cfg c) {e : Event} (h : next cfg c e = some c') :
    ReadsNumbered cfg c' := by
  have hreboot : ∀ b p, ReadsNumbered cfg (c.reboot cfg b p) := by
    intro b p a ha r hr
    by_cases hne : a = b
    · rw [hne, replicas_reboot_self] at hr
      cases hr
    · rw [replicas_reboot_ne c p hne] at hr
      exact hc a ha r hr
  rcases next_cases h with ⟨action, t, rfl, ha, ht, rfl⟩ | ⟨action, t, calls, rfl, ha, ht, rfl⟩ |
    ⟨b, calls, rfl, ha, rfl⟩
  · have hfresh : c.nextId ≤ t.fresh := (sends_turn ht).1.fresh_le
    intro a ha' r hr
    show r.id < t.fresh
    by_cases hne : a = action.replica
    · rw [hne, replicas_finishTurn_self] at hr
      rcases reads_turn ht hr with ⟨r', hr', heq⟩ | ⟨heq, hlt⟩
      · have := hc _ ha r' hr'
        omega
      · omega
    · rw [replicas_finishTurn_ne c t hne] at hr
      exact (hc a ha' r hr).trans_le hfresh
  · exact hreboot _ _
  · exact hreboot _ _

/-- So does every run. -/
theorem readsNumbered_reach {ok : Cluster → Event → Prop} (h : Reach cfg ok (.init cfg) c) :
    ReadsNumbered cfg c :=
  h.invariant (fun _ _ r hr => by cases hr) fun _ _ _ hc _ => readsNumbered_next hc

end Cluster

/-! ## Counting acknowledgements -/

/-- A heartbeat that came back with success. -/
def acked (outcome : Option HeartbeatResult) : Bool := outcome.any HeartbeatResult.success

namespace RaftNode

/-- A count that goes through leaves the node, and has counted the acknowledgements. -/
theorem countAcks_some {n m : RaftNode} {k acks : ℕ} {results : List (Option HeartbeatResult)}
    (h : n.countAcks k results = (m, some acks)) : m = n ∧ acks = k + results.countP acked := by
  induction results generalizing k with
  | nil =>
      obtain ⟨rfl, rfl⟩ := Prod.mk.inj h |>.imp_right Option.some.inj
      exact ⟨rfl, rfl⟩
  | cons r rest ih =>
      cases r with
      | none =>
          obtain ⟨hm, hacks⟩ := ih h
          exact ⟨hm, by simpa [acked] using hacks⟩
      | some r =>
          unfold countAcks at h
          split at h
          · cases h
          · obtain ⟨hm, hacks⟩ := ih h
            refine ⟨hm, ?_⟩
            rw [hacks, List.countP_cons]
            by_cases hs : r.success = true
            · simp [acked, hs]
              omega
            · simp [acked, hs]

/-- `confirmLeadership` succeeds only on a majority of acknowledgements. -/
theorem confirmLeadership_true {n : RaftNode} {term : ℕ}
    {results : List (Option HeartbeatResult)}
    (h : (n.confirmLeadership term results).2 = true) :
    n.majority ≤ 1 + results.countP acked := by
  unfold confirmLeadership at h
  split at h
  · next m acks heq =>
      obtain ⟨rfl, rfl⟩ := countAcks_some heq
      simp only [Bool.and_eq_true, decide_eq_true_eq] at h
      exact h.2
  · cases h

end RaftNode

/-- The peers that acknowledged are, with the node itself, a majority. -/
theorem Config.majority_of_acks {cfg : Config} {a : String} (ha : a ∈ cfg.members)
    {results : List (Option HeartbeatResult)} (hlen : results.length = (cfg.peers a).length)
    (hcount : ((cfg.peers a).length + 1) / 2 + 1 ≤ 1 + results.countP acked) :
    ∃ Q, Majority cfg.ids Q ∧ ∀ x ∈ cfg.members, cfg.replicaId x ∈ Q →
      x = a ∨ ∃ (i : ℕ) (r : Option HeartbeatResult), (cfg.peers a)[i]? = some x ∧
        results[i]? = some r ∧ acked r := by
  let answered := ((cfg.peers a).zip results).filter fun q => acked q.2
  have hsub : ∀ p ∈ answered.map Prod.fst, p ∈ cfg.peers a := by
    intro p hp
    obtain ⟨q, hq, rfl⟩ := List.mem_map.mp hp
    exact (List.of_mem_zip (List.mem_of_mem_filter hq)).1
  have hnodup : (answered.map Prod.fst).Nodup := by
    refine List.Nodup.sublist (List.filter_sublist.map _) ?_
    rw [List.map_fst_zip hlen.ge]
    exact cfg.peers_nodup a ha
  have hlength : (answered.map Prod.fst).length = results.countP acked := by
    have hsnd : ((cfg.peers a).zip results).map Prod.snd = results := List.map_snd_zip hlen.le
    rw [List.length_map, ← List.countP_eq_length_filter]
    conv_rhs => rw [← hsnd, List.countP_map]
    rfl
  refine ⟨_, majority_insert ha hnodup hsub (by rw [hlength]; exact hcount), ?_⟩
  intro x hx hmem
  rcases Finset.mem_insert.mp hmem with heq | hmem
  · exact Or.inl (cfg.replicaId_inj x hx a ha heq)
  · obtain ⟨p, hp, heq⟩ := List.mem_map.mp (List.mem_toFinset.mp hmem)
    obtain rfl := cfg.replicaId_inj p (mem_of_mem_peers ha (hsub p hp)) x hx heq
    obtain ⟨q, hq, rfl⟩ := List.mem_map.mp hp
    obtain ⟨hzip, hack⟩ := List.mem_filter.mp hq
    obtain ⟨i, hi⟩ := List.mem_iff_getElem?.mp hzip
    obtain ⟨hfst, hsnd⟩ := List.getElem?_zip_eq_some.mp hi
    exact Or.inr ⟨i, q.2, hfst, hsnd, hack⟩

/-! ## The read under watch -/

/-- A read of board `boardId` whose heartbeats go out under the numbers from
`first` on, to the peers of `a` in order; those acknowledged so far come from
peers that meet `stale`. -/
structure Watched (cfg : Config) (a boardId : String) (first : ℕ) (stale : String → Prop)
    (r : Read) : Prop where
  boardId : r.boardId = boardId
  length : r.heartbeats.length = (cfg.peers a).length
  rpc : ∀ (i : ℕ) h, r.heartbeats[i]? = some h → h.1 = first + i
  acks : ∀ (i : ℕ) h q, r.heartbeats[i]? = some h → acked h.2.join → (cfg.peers a)[i]? = some q →
    stale q
  confirmed : r.confirmed = some true →
    ∃ Q, Majority cfg.ids Q ∧ ∀ x ∈ cfg.members, cfg.replicaId x ∈ Q → stale x

namespace Watched

variable {cfg : Config} {a boardId : String} {first : ℕ} {stale : String → Prop} {r : Read}

/-- A heartbeat settles; if it acknowledges, its peer must meet `stale`. -/
theorem close (hr : Watched cfg a boardId first stale r) {rpc : ℕ}
    {outcome : Option HeartbeatResult}
    (h : acked outcome → ∀ (i : ℕ) q, rpc = first + i → (cfg.peers a)[i]? = some q → stale q) :
    Watched cfg a boardId first stale (Turn.closeHeartbeat r rpc outcome) where
  boardId := hr.boardId
  length := (List.length_map _).trans hr.length
  rpc := by
    intro i h' hi
    obtain ⟨h₀, hi₀, rfl⟩ := Option.map_eq_some_iff.mp (List.getElem?_map ▸ hi)
    have hrpc := hr.rpc i h₀ hi₀
    split
    · next heq => exact heq ▸ hrpc
    · exact hrpc
  acks := by
    intro i h' q hi hack hq
    obtain ⟨h₀, hi₀, rfl⟩ := Option.map_eq_some_iff.mp (List.getElem?_map ▸ hi)
    have hrpc := hr.rpc i h₀ hi₀
    split at hack
    · next heq => exact h hack i q (heq ▸ hrpc) hq
    · exact hr.acks i h₀ q hi₀ hack hq
  confirmed := hr.confirmed

/-- `confirmLeadership` returns. -/
theorem resume (hr : Watched cfg a boardId first stale r) (ha : a ∈ cfg.members) (hself : stale a)
    {n : RaftNode} (hn : n.peers = cfg.peers a) :
    Watched cfg a boardId first stale { r with
      confirmed := some (n.confirmLeadership r.term (r.heartbeats.map fun h => h.2.join)).2 } where
  boardId := hr.boardId
  length := hr.length
  rpc := hr.rpc
  acks := hr.acks
  confirmed := by
    intro h
    have hcount := RaftNode.confirmLeadership_true (Option.some.inj h)
    unfold RaftNode.majority at hcount
    rw [hn] at hcount
    obtain ⟨Q, hQ, hmem⟩ := Config.majority_of_acks ha
      ((List.length_map _).trans hr.length) hcount
    refine ⟨Q, hQ, fun x hx hxQ => ?_⟩
    rcases hmem x hx hxQ with rfl | ⟨i, outcome, hi, hout, hack⟩
    · exact hself
    · obtain ⟨h₀, hi₀, rfl⟩ := Option.map_eq_some_iff.mp (List.getElem?_map ▸ hout)
      exact hr.acks i h₀ x hi₀ hack hi

end Watched

/-- The members that have not passed the term of `a`. -/
def Cluster.Stale (c : Cluster) (a x : String) : Prop :=
  (c.replicas x).node.currentTerm ≤ (c.replicas a).node.currentTerm

/-- **The invariant of a read** that `a` started in `c₀`: `c` is a later state,
with its heartbeats on the wire, their answers, and the read itself. -/
structure Reading (cfg : Config) (a boardId : String) (c₀ c : Cluster) : Prop where
  terms : ∀ x ∈ cfg.members,
    (c₀.replicas x).node.currentTerm ≤ (c.replicas x).node.currentTerm
  nextId : c₀.nextId + 1 + (cfg.peers a).length ≤ c.nextId
  wire : ∀ p ∈ c.wire, ∀ i < (cfg.peers a).length, p.rpc = c₀.nextId + 1 + i →
    (cfg.peers a)[i]? = some p.dst ∧
      ∃ args, p.request = .heartbeat args ∧ args.term = (c₀.replicas a).node.currentTerm
  replies : ∀ r ∈ c.replies, ∀ (i : ℕ) q res, r = (c₀.nextId + 1 + i, .heartbeat res) →
    res.success = true → (cfg.peers a)[i]? = some q → c₀.Stale a q
  reads : ∀ x ∈ cfg.members, ∀ r ∈ (c.replicas x).reads, r.id = c₀.nextId →
    x = a ∧ Watched cfg a boardId (c₀.nextId + 1) (c₀.Stale a) r ∧
      (c₀.replicas a).node.commitIndex ≤ (c.replicas a).node.lastApplied

section Reading

variable {cfg : Config} {a boardId : String} {c₀ c c' : Cluster} {H : Ballots.History String}
  {action : Action} {t : Turn}

/-- A peer that acknowledges a heartbeat has not passed its term. -/
theorem term_le_of_success {n : RaftNode} {args : HeartbeatArgs}
    (h : (n.handleHeartbeat args).2.success = true) : n.currentTerm ≤ args.term := by
  unfold RaftNode.handleHeartbeat at h
  split at h
  · cases h
  · next hle => exact Nat.not_lt.mp hle

/-- The call itself. -/
theorem reading_call (hc : Electoral cfg H c₀) (ha : a ∈ cfg.members)
    (hnum : Cluster.ReadsNumbered cfg c₀) (hcaught : (c₀.replicas a).node.CaughtUp)
    (hlead : (c₀.replicas a).node.state = .leader)
    (h : Cluster.next cfg c₀ (.act (.readBoardState a boardId)) = some c) :
    Reading cfg a boardId c₀ c := by
  obtain ⟨action, t, hact, -, ht, rfl⟩ | ⟨action, t, calls, hact, -⟩ | ⟨b, calls, hact, -⟩ :=
    Cluster.next_cases h
  · obtain rfl : Action.readBoardState a boardId = action := Cluster.Event.act.inj hact
    show Reading cfg a boardId c₀ (c₀.finishTurn a t)
    obtain ⟨hrep, hfresh, hsent, hreplied⟩ := Cluster.readBoardState_turn hlead ht
    have hpeers : (c₀.replicas a).node.peers = cfg.peers a :=
      congrArg RaftNode.Params.peers (hc.nodes a ha).params
    rw [hpeers] at hfresh hsent
    have hself : ∀ x, (((c₀.finishTurn a t).replicas x).node.currentTerm =
        (c₀.replicas x).node.currentTerm) := by
      intro x
      by_cases hne : x = a
      · rw [hne, Cluster.replicas_finishTurn_self, hrep]
        rfl
      · rw [Cluster.replicas_finishTurn_ne c₀ t hne]
    refine ⟨fun x _ => (hself x).ge, hfresh.ge, ?_, ?_, ?_⟩
    · intro p hp i hi hrpc
      rcases List.mem_append.mp hp with hold | hnew
      · have := hc.numbered.rpc_lt p hold
        omega
      · rw [hsent] at hnew
        obtain ⟨q, hq, rfl⟩ := List.mem_map.mp hnew
        obtain ⟨j, hj⟩ := List.mem_iff_getElem?.mp hq
        obtain ⟨hfst, hsnd⟩ := List.getElem?_zip_eq_some.mp hj
        have hrange : q.1 = c₀.nextId + 1 + j := by
          obtain ⟨hlt, heq⟩ := List.getElem?_eq_some_iff.mp hfst
          simp only [List.getElem_range'] at heq
          omega
        have hij : j = i := by
          have hrpc : q.1 = c₀.nextId + 1 + i := hrpc
          omega
        exact ⟨hij ▸ hsnd, _, rfl, rfl⟩
    · intro r hr i q res hreq hsucc hq
      rcases List.mem_append.mp hr with hold | hnew
      · obtain ⟨p, hp, hrpc⟩ := hc.numbered.replied r hold
        have := hc.numbered.rpc_lt p hp
        have : r.1 = c₀.nextId + 1 + i := congrArg Prod.fst hreq
        omega
      · rw [hreplied] at hnew
        cases hnew
    · intro x hx r hr hid
      by_cases hne : x = a
      · subst hne
        have hr : r ∈ t.replica.reads := by
          rwa [Cluster.replicas_finishTurn_self] at hr
        rw [hrep] at hr
        rcases List.mem_append.mp hr with hold | hnew
        · have := hnum x hx r hold
          omega
        · rw [List.mem_singleton.mp hnew]
          refine ⟨rfl, ⟨rfl, ?_, ?_, ?_, fun hcon => by cases hcon⟩, ?_⟩
          · simp [Cluster.newRead, hpeers]
          · intro i h hi
            obtain ⟨rpc, hrpc, rfl⟩ := Option.map_eq_some_iff.mp (List.getElem?_map ▸ hi)
            obtain ⟨hlt, heq⟩ := List.getElem?_eq_some_iff.mp hrpc
            simp only [List.getElem_range'] at heq
            show rpc = _
            omega
          · intro i h q hi hack
            obtain ⟨rpc, -, rfl⟩ := Option.map_eq_some_iff.mp (List.getElem?_map ▸ hi)
            cases hack
          · rw [Cluster.replicas_finishTurn_self, hrep]
            exact hcaught
      · rw [Cluster.replicas_finishTurn_ne c₀ t hne] at hr
        have := hnum x hx r hr
        omega
  · cases hact
  · cases hact

/-- A finished turn keeps the invariant. -/
theorem Reading.finishTurn (hr : Reading cfg a boardId c₀ c) (hc : Electoral cfg H c)
    (ha : a ∈ cfg.members) (hact : action.replica ∈ cfg.members) (h : c.turn action = some t)
    (hterms : ∀ x ∈ cfg.members, (c.replicas x).node.currentTerm ≤
      ((c.finishTurn action.replica t).replicas x).node.currentTerm)
    (hahead : Cluster.SnapshotsAhead a c (.act action)) :
    Reading cfg a boardId c₀ (c.finishTurn action.replica t) := by
  obtain ⟨⟨hfresh, ps, hsent, -, hps⟩, -⟩ := Cluster.sends_turn h
  have hsent : t.sent = ps := by simpa [Cluster.startTurn] using hsent
  have hfresh : c.nextId ≤ t.fresh := hfresh
  refine ⟨fun x hx => (hr.terms x hx).trans (hterms x hx), hr.nextId.trans hfresh, ?_, ?_, ?_⟩
  · intro p hp i hi hrpc
    rcases List.mem_append.mp hp with hold | hnew
    · exact hr.wire p hold i hi hrpc
    · have hlo : c.nextId ≤ p.rpc := (hps p (hsent ▸ hnew)).2.1
      have := hr.nextId
      omega
  · intro r hmem i q res hreq hsucc hq
    rcases List.mem_append.mp hmem with hold | hnew
    · exact hr.replies r hold i q res hreq hsucc hq
    · -- the peer answered a heartbeat of the read, so it had not passed the term by now
      obtain ⟨p, hp, hdst, heq⟩ := Cluster.answers_turn h r hnew
      have hi : i < (cfg.peers a).length := (List.getElem?_eq_some_iff.mp hq).1
      have hrpc : p.rpc = c₀.nextId + 1 + i := congrArg Prod.fst (heq.symm.trans hreq)
      obtain ⟨hpeer, args, hargs, hterm⟩ := hr.wire p hp i hi hrpc
      obtain rfl : p.dst = q := Option.some.inj (hpeer.symm.trans hq)
      have hreply := congrArg Prod.snd (heq.symm.trans hreq)
      dsimp only at hreply
      rw [hargs] at hreply
      have hres := Reply.heartbeat.inj hreply
      rw [← hres] at hsucc
      have hle := term_le_of_success hsucc
      have hmono := hr.terms p.dst (hdst ▸ hact)
      rw [hdst] at hmono ⊢
      exact hmono.trans (hle.trans_eq hterm)
  · intro x hx r hmem hid
    by_cases hne : x = action.replica
    · have hreads := hr.reads action.replica hact
      rw [hne, Cluster.replicas_finishTurn_self] at hmem
      have hold : ∀ r' ∈ (c.replicas action.replica).reads, r'.id = c₀.nextId → x = a ∧
          Watched cfg a boardId (c₀.nextId + 1) (c₀.Stale a) r' ∧
          (c₀.replicas a).node.commitIndex ≤
            ((c.finishTurn action.replica t).replicas a).node.lastApplied := by
        intro r' hr' hid'
        obtain ⟨hxa, hw, hfloor⟩ := hreads r' hr' hid'
        refine ⟨hne.trans hxa, hw, ?_⟩
        rw [← hxa] at hahead
        rw [← hxa, Cluster.replicas_finishTurn_self]
        rw [← hxa] at hfloor
        exact hfloor.trans (Cluster.lastApplied_le_turn h hahead)
      rcases Cluster.reads_cases h with ⟨hreads', -⟩ | ⟨b, -, -, hreads', -⟩ |
        ⟨k, rpc, outcome, r', hk, hopen, hpos, hreads', -⟩ | ⟨k, r', hk, hreads', -⟩ |
        ⟨k, r', confirmed, -, -, hreads', -⟩
      · exact hold r (hreads' ▸ hmem) hid
      · rw [hreads'] at hmem
        rcases List.mem_append.mp hmem with hmem | hnew
        · exact hold r hmem hid
        · have hid : c.nextId = c₀.nextId := by
            rw [List.mem_singleton.mp hnew] at hid
            exact hid
          have := hr.nextId
          omega
      · rw [hreads'] at hmem
        rcases List.mem_or_eq_of_mem_set hmem with hmem | rfl
        · exact hold r hmem hid
        · obtain ⟨hxa, hw, hfloor⟩ := hold r' (List.mem_of_getElem? hk) hid
          refine ⟨hxa, hw.close ?_, hfloor⟩
          intro hack i q hrpc hq
          cases outcome with
          | none => cases hack
          | some res => exact hr.replies _ hpos i q res (by rw [hrpc]) hack hq
      · rw [hreads'] at hmem
        rcases List.mem_or_eq_of_mem_set hmem with hmem | rfl
        · exact hold r hmem hid
        · obtain ⟨hxa, hw, hfloor⟩ := hold r' (List.mem_of_getElem? hk) hid
          refine ⟨hxa, hw.resume ha (le_refl _) ?_, hfloor⟩
          rw [← hne, hxa]
          exact congrArg RaftNode.Params.peers (hc.nodes a ha).params
      · rw [hreads'] at hmem
        exact hold r (List.mem_of_mem_eraseIdx hmem) hid
    · rw [Cluster.replicas_finishTurn_ne c t hne] at hmem
      obtain ⟨hxa, hw, hfloor⟩ := hr.reads x hx r hmem hid
      refine ⟨hxa, hw, ?_⟩
      rw [← hxa, Cluster.replicas_finishTurn_ne c t hne, hxa]
      exact hfloor

/-- A restart forgets the reads of its replica. -/
theorem Reading.reboot (hr : Reading cfg a boardId c₀ c) (b : String) (p : Persistence)
    (hterms : ∀ x ∈ cfg.members, (c.replicas x).node.currentTerm ≤
      ((c.reboot cfg b p).replicas x).node.currentTerm) :
    Reading cfg a boardId c₀ (c.reboot cfg b p) where
  terms := fun x hx => (hr.terms x hx).trans (hterms x hx)
  nextId := hr.nextId
  wire := hr.wire
  replies := hr.replies
  reads := by
    intro x hx r hmem hid
    by_cases hne : x = b
    · rw [hne, Cluster.replicas_reboot_self] at hmem
      cases hmem
    · rw [Cluster.replicas_reboot_ne c p hne] at hmem
      obtain ⟨hxa, hw, hfloor⟩ := hr.reads x hx r hmem hid
      refine ⟨hxa, hw, ?_⟩
      rw [← hxa, Cluster.replicas_reboot_ne c p hne, hxa]
      exact hfloor

/-- **The invariant step** of a read. -/
theorem Reading.next (hr : Reading cfg a boardId c₀ c) (hc : Electoral cfg H c)
    (ha : a ∈ cfg.members) {e : Cluster.Event} (hahead : Cluster.SnapshotsAhead a c e)
    (h : Cluster.next cfg c e = some c') : Reading cfg a boardId c₀ c' := by
  obtain ⟨H', -, -, hterms⟩ := hc.next h
  rcases Cluster.next_cases h with ⟨action, t, rfl, hact, ht, rfl⟩ |
    ⟨action, t, calls, rfl, hact, ht, rfl⟩ | ⟨b, calls, rfl, hb, rfl⟩
  · exact hr.finishTurn hc ha hact ht hterms hahead
  · exact hr.reboot _ _ hterms
  · exact hr.reboot _ _ hterms

end Reading

namespace Cluster

/-- In this event no client writes to the board called `__proto__`. -/
def Event.AvoidsProto (e : Event) : Prop :=
  ∀ stroke, e.stroke? = some stroke → stroke.boardId ≠ "__proto__"

end Cluster

/-- A single replica that snapshots after every entry. -/
def Config.solo : Config where
  members := ["a"]
  replicaId := id
  peers := fun _ => []
  snapshotThreshold := fun _ => 1
  batchCap := fun _ => 50
  backend := fun _ => .file
  members_nodup := by decide
  replicaId_inj := fun _ _ _ _ h => h
  peers_nodup := by decide
  mem_peers := fun a ha b => by
    obtain rfl := List.mem_singleton.mp ha
    simp

instance : Config.solo.OnFiles := ⟨fun _ _ => rfl⟩

/-- The replica leads, writes a dot to a board, and commits it. -/
def soloWrite (boardId : String) : List Cluster.Event :=
  [.act (.electionTimeout "a"), .act (.clientWrite "a" (.dot "dot" boardId)),
    .act (.writeResume "a" 0)]

end QuorumCanvas
