import QuorumCanvas.AckedWrites
import QuorumCanvas.LogMatching

/-!
# What a read has seen

Careful runs, and clients that write and read through any leaders.  What a member has applied is
never taken back, across crashes as well (`applied_only_grows`).  The board that a read returns
is that of an applied history, and this history contains whatever a leader had applied before the
read was called, once the leader that answers has committed an entry of its own term
(`reads_see_applied`).  A leader that has not may still lag behind, and then its history is a
part of the other.  An acknowledged write is among what a later read has seen
(`acknowledged_writes_read`).
-/

namespace QuorumCanvas

open Ledger (History)
open Quorum (Majority)
open RaftNode (InLedger)

variable {cfg : Config} {L L' : History String LogEntry} {H H' : Ballots.History String}
  {c c' c₀ c₁ c₂ : Cluster} {a b boardId : String}

/-! ## Commit indices -/

/-- **No event takes a commit index back**, a crash in the middle of a turn included. -/
theorem Ledgered.commitIndex_le_next (hc : Ledgered cfg L H c) {e : Cluster.Event}
    (hok : c.Careful cfg e) (h : Cluster.next cfg c e = some c') (a : String) :
    (c.replicas a).node.commitIndex ≤ (c'.replicas a).node.commitIndex := by
  have hreboot : ∀ b p L', p.Meets (InLedger L' cfg.ids (cfg.replicaId b)
      (c.replicas b).node.commitIndex) →
      (c.replicas a).node.commitIndex ≤ ((c.reboot cfg b p).replicas a).node.commitIndex := by
    intro b p L' hp
    by_cases hne : a = b
    · rw [hne, Cluster.replicas_reboot_self]
      exact hp.holds.2.trans_eq (RaftNode.coherent_construct (cfg.params b) hp).2.2.1.symm
    · rw [Cluster.replicas_reboot_ne c p hne]
  rcases Cluster.next_cases h with ⟨action, t, rfl, hact, ht, rfl⟩ |
    ⟨action, t, calls, rfl, hact, ht, rfl⟩ | ⟨b, calls, rfl, hb, rfl⟩
  · obtain ⟨H', hturn⟩ := exists_turnOk hc.electoral hact ht
    obtain ⟨-, L', -, -, -, hentered⟩ := exists_entered hc hact hok ht hturn
    exact (hentered.follows.finishTurn a).commit_le
  · obtain ⟨H', hturn⟩ := exists_turnOk hc.electoral hact ht
    obtain ⟨L₁, -, -, -, hev, -⟩ := exists_entered hc hact hok.1 ht hturn
    obtain ⟨made, hcalls, -, hspan⟩ := hev.spans
    have hcalls : t.replica.node.calls = made := hcalls
    apply hreboot _ _ L₁
    rw [hcalls]
    exact hspan calls fun ⟨hfull, htorn⟩ => hfull (hok.2 t ht (hcalls ▸ htorn))
  · have hold := hc.nodes b hb
    apply hreboot _ _ L
    exact (RaftNode.coherent_construct (cfg.params b)
      (hold.coherent.meets (G := InLedger L cfg.ids (cfg.replicaId b)
        (c.replicas b).node.commitIndex) ⟨hold.standing, le_rfl⟩)).2.2.2.2 calls

/-- The commit index does not go back in a careful run. -/
theorem commitIndex_le_reach [cfg.OnFiles]
    (h₁ : Cluster.Reach cfg (Cluster.Careful cfg) (.init cfg) c₁)
    (h₂ : Cluster.Reach cfg (Cluster.Careful cfg) c₁ c₂) (a : String) :
    (c₁.replicas a).node.commitIndex ≤ (c₂.replicas a).node.commitIndex := by
  induction h₂ with
  | refl => exact le_rfl
  | tail h hok hstep ih =>
      obtain ⟨L, H, -, hc⟩ := (ledgered_init cfg).reach (h₁.trans h)
      exact ih.trans (hc.commitIndex_le_next hok hstep a)

/-- What a node has applied is what it holds as far as it has committed. -/
theorem RaftNode.Coherent.mem_history_iff {n : RaftNode} (hn : n.Coherent) {e : LogEntry} :
    (e.index, e) ∈ n.history ↔ n.Holds e ∧ e.index ≤ n.commitIndex := by
  rw [hn.history]
  unfold indexed
  constructor
  · intro hmem
    obtain ⟨e', hmem', heq⟩ := List.mem_map.mp hmem
    obtain rfl := (Prod.mk.inj heq).2
    obtain ⟨k, hk⟩ := List.mem_iff_getElem?.mp hmem'
    rw [List.getElem?_take] at hk
    split at hk
    · have hindex := hn.inOrder k _ hk
      refine ⟨⟨by omega, ?_⟩, by omega⟩
      rw [hindex]
      exact hk
    · cases hk
  · intro hheld
    obtain ⟨⟨hpos, hget⟩, hle⟩ := hheld
    refine List.mem_map.mpr ⟨e, List.mem_iff_getElem?.mpr ⟨e.index - 1, ?_⟩, rfl⟩
    rw [List.getElem?_take, if_pos (by omega)]
    exact hget

/-- A history of more entries. -/
theorem indexed_prefix {es es' : List LogEntry} (h : es <+: es') : indexed es <+: indexed es' := by
  obtain ⟨rest, rfl⟩ := h
  rw [indexed_append]
  exact List.prefix_append _ _

/-- What any two members have applied, at two moments of a careful run, is one history as far as
both reach. -/
theorem applied_comparable [cfg.OnFiles]
    (h₁ : Cluster.Reach cfg (Cluster.Careful cfg) (.init cfg) c₁)
    (h₂ : Cluster.Reach cfg (Cluster.Careful cfg) c₁ c₂) (ha : a ∈ cfg.members)
    (hb : b ∈ cfg.members) :
    (c₁.replicas a).node.history <+: (c₂.replicas b).node.history ∨
      (c₂.replicas b).node.history <+: (c₁.replicas a).node.history := by
  obtain ⟨L₁, H₁, L₂, H₂, hgrows, hc₁, hc₂⟩ := exists_ledgers h₁ h₂
  rw [(hc₁.nodes a ha).coherent.history, (hc₂.nodes b hb).coherent.history]
  have hsettled := hgrows.settled hc₁.sound (hc₁.nodes a ha).standing.settled
  exact (hsettled.comparable hc₂.sound (hc₂.nodes b hb).standing.settled).imp indexed_prefix
    indexed_prefix

/-- The longer of two histories. -/
theorem applied_begins [cfg.OnFiles] (h₁ : Cluster.Reach cfg (Cluster.Careful cfg) (.init cfg) c₁)
    (h₂ : Cluster.Reach cfg (Cluster.Careful cfg) c₁ c₂) (ha : a ∈ cfg.members)
    (hb : b ∈ cfg.members)
    (hle : (c₁.replicas a).node.commitIndex ≤ (c₂.replicas b).node.commitIndex) :
    (c₁.replicas a).node.history <+: (c₂.replicas b).node.history := by
  rcases applied_comparable h₁ h₂ ha hb with hp | hp
  · exact hp
  · obtain ⟨L₁, H₁, L₂, H₂, -, hc₁, hc₂⟩ := exists_ledgers h₁ h₂
    have hlen : ∀ {c L H} {x : String}, Ledgered cfg L H c → x ∈ cfg.members →
        (c.replicas x).node.history.length = (c.replicas x).node.commitIndex := by
      intro c L H x hc hx
      have hcoh := (hc.nodes x hx).coherent
      rw [hcoh.history, length_indexed, List.length_take, min_eq_left hcoh.commit_le]
    have heq := hp.eq_of_length_le (by rw [hlen hc₁ ha, hlen hc₂ hb]; exact hle)
    exact heq ▸ List.prefix_rfl

/-- The boards of a member replay its applied history; snapshots leave out `__proto__`. -/
theorem getStrokes_reach {ok : Cluster → Cluster.Event → Prop} {c : Cluster}
    (h : Cluster.Reach cfg ok (.init cfg) c) (ha : a ∈ cfg.members) (hb : boardId ≠ "__proto__") :
    (c.replicas a).node.getStrokes boardId =
      (Boards.replay [] (strokesOf (c.replicas a).node.history)).getStrokes boardId := by
  have hinv := kept_localInvariant (B := (· ≠ "__proto__")) (C := fun _ => True)
    (fun h => absurd rfl h) cfg
  have hkept := hinv.reach (fun _ _ _ _ _ _ => trivial) (hinv.init keptFiles_fresh) h
  exact (hkept.nodes a ha).getStrokes hb

/-- **What a member has applied is never taken back**: at any later moment of a careful run its
applied history continues what it had applied before, whatever crashes and restarts lie between,
and at both moments its boards replay that history. -/
theorem applied_only_grows (cfg : Config) [cfg.OnFiles] {c₁ c₂ : Cluster} {a : String}
    (h₁ : Cluster.Reach cfg (Cluster.Careful cfg) (.init cfg) c₁)
    (h₂ : Cluster.Reach cfg (Cluster.Careful cfg) c₁ c₂) (ha : a ∈ cfg.members) :
    (c₁.replicas a).node.history <+: (c₂.replicas a).node.history ∧
      (c₁.replicas a).node.lastApplied ≤ (c₂.replicas a).node.lastApplied ∧
      ∀ boardId, boardId ≠ "__proto__" →
        (c₁.replicas a).node.getStrokes boardId =
          (Boards.replay [] (strokesOf (c₁.replicas a).node.history)).getStrokes boardId ∧
        (c₂.replicas a).node.getStrokes boardId =
          (Boards.replay [] (strokesOf (c₂.replicas a).node.history)).getStrokes boardId := by
  have hle := commitIndex_le_reach h₁ h₂ a
  obtain ⟨L₁, H₁, L₂, H₂, -, hc₁, hc₂⟩ := exists_ledgers h₁ h₂
  refine ⟨applied_begins h₁ h₂ ha ha hle, ?_, fun boardId hb =>
    ⟨getStrokes_reach h₁ ha hb, getStrokes_reach (h₁.trans h₂) ha hb⟩⟩
  rw [(hc₁.nodes a ha).coherent.applied, (hc₂.nodes a ha).coherent.applied]
  exact hle

/-- Through a change of leaders the history only grows. -/
theorem applied_only_grows_trio :
    ((trioAfter 12).replicas "a").node.history <+: (trioSucceeded.replicas "a").node.history ∧
      (trioSucceeded.replicas "a").node.getStrokes "board" = (Boards.replay []
        (strokesOf (trioSucceeded.replicas "a").node.history)).getStrokes "board" := by
  obtain ⟨hcontinues, -, hboards⟩ :=
    applied_only_grows .trio (a := "a") carefulTrio careful_succession (by decide)
  exact ⟨hcontinues, (hboards "board" (by decide)).2⟩

/-! ## The leaders before a read -/

/-- No term after that of a majority has been won. -/
theorem Electoral.won_le (hc : Electoral cfg H c) {Q : Finset String} {T t : ℕ} {v : String}
    (hQ : Majority cfg.ids Q)
    (hstale : ∀ x ∈ cfg.members, cfg.replicaId x ∈ Q → (c.replicas x).node.currentTerm ≤ T)
    (hwon : H.won t v) : t ≤ T := by
  obtain ⟨R, hR, hvotes⟩ := hc.sound.majority _ _ hwon
  obtain ⟨u, huQ, huR⟩ := hQ.exists_common hR
  obtain ⟨x, hx, rfl⟩ := List.mem_map.mp (List.mem_toFinset.mp (hQ.subset huQ))
  exact ((hc.nodes x hx).honours.vote_le _ _ (hvotes _ huR)).trans (hstale x hx huQ)

/-- A member that has applied what it has committed is taken back by no snapshot. -/
theorem snapshotsAhead_of_coherent (hn : (c.replicas a).node.Coherent) (e : Cluster.Event) :
    Cluster.SnapshotsAhead a c e := by
  have hahead : ∀ s, (c.replicas a).node.InstallsAbove (c.replicas a).node.lastApplied s := by
    intro s hlt
    rw [hn.applied]
    exact hlt.le
  cases e with
  | act action =>
      cases action with
      | deliver packet => exact fun _ args _ => hahead args.snapshot
      | catchUpReply b k outcome =>
          cases outcome with
          | none => trivial
          | some result => exact fun _ s _ => hahead s
      | _ => trivial
  | _ => trivial

/-- Careful, and kept off the board `__proto__` if that is the board. -/
def Cluster.CarefulOn (cfg : Config) (boardId : String) (c : Cluster) (e : Cluster.Event) : Prop :=
  c.Careful cfg e ∧ (boardId = "__proto__" → e.AvoidsProto)

/-- A careful run that avoids a board is careful. -/
theorem Cluster.reach_careful (h : Cluster.Reach cfg (Cluster.CarefulOn cfg boardId) c c') :
    Cluster.Reach cfg (Cluster.Careful cfg) c c' := h.mono fun _ _ hok => hok.1

/-- A read by leader `b`, from its call in `c₀` to its answer `strokes` in a turn of `c`. -/
structure Cluster.ReadBy (cfg : Config) (b boardId : String) (c₀ c : Cluster)
    (strokes : List Stroke) : Prop where
  member : b ∈ cfg.members
  leader : (c₀.replicas b).node.state = .leader
  run : ∃ c', Cluster.next cfg c₀ (.act (.readBoardState b boardId)) = some c' ∧
    Cluster.Reach cfg (Cluster.CarefulOn cfg boardId) c' c
  answer : ∃ action t hint, action.replica ∈ cfg.members ∧ c.turn action = some t ∧
    (c₀.nextId, Response.read (some strokes) hint) ∈ t.responses

namespace Cluster.ReadBy

variable {strokes : List Stroke}

/-- The call is careful as well. -/
theorem reach (hr : ReadBy cfg b boardId c₀ c strokes) :
    Reach cfg (CarefulOn cfg boardId) c₀ c := by
  obtain ⟨c', hcall, hrest⟩ := hr.run
  have hok : CarefulOn cfg boardId c₀ (.act (.readBoardState b boardId)) :=
    ⟨trivial, fun _ stroke hs => by cases hs⟩
  exact (Runs.Reach.tail .refl hok hcall).trans hrest

/-- **The answer** is the board of the leader's applied history, and a majority was in no later
term when the read was called. -/
theorem spec [cfg.OnFiles] (hr : ReadBy cfg b boardId c₀ c strokes)
    (h₀ : Reach cfg (CarefulOn cfg boardId) (.init cfg) c₀) :
    strokes = (Boards.replay [] (strokesOf (c.replicas b).node.history)).getStrokes boardId ∧
      ∃ Q, Majority cfg.ids Q ∧ ∀ x ∈ cfg.members, cfg.replicaId x ∈ Q →
        (c₀.replicas x).node.currentTerm ≤ (c₀.replicas b).node.currentTerm := by
  obtain ⟨c', hcall, hrest⟩ := hr.run
  obtain ⟨action, t, hint, hact, ht, hresp⟩ := hr.answer
  have hkept : KeptNode (fun e => boardId = "__proto__" → e.stroke.boardId ≠ "__proto__")
      (· = boardId) (c.replicas b).node := by
    have hinv := kept_localInvariant (B := (· = boardId))
      (C := fun e => boardId = "__proto__" → e.stroke.boardId ≠ "__proto__")
      (fun hb e he => he hb.symm) cfg
    refine (hinv.reach ?_ (hinv.init keptFiles_fresh) (h₀.trans hr.reach)).nodes b hr.member
    intro c e hok x stroke hevent hproto
    rcases hevent with rfl | ⟨calls, rfl⟩
    · exact hok.2 hproto stroke rfl
    · exact hok.2 hproto stroke rfl
  obtain ⟨L₀, H₀, -, hc₀⟩ := (ledgered_init cfg).reach (reach_careful h₀)
  obtain ⟨L₁, H₁, -, hc₁⟩ := hc₀.next (e := .act (.readBoardState b boardId)) trivial hcall
  have hstart : Reading cfg b boardId c₀ c' :=
    reading_call hc₀.electoral hr.member (readsNumbered_reach h₀) (caughtUp_reach h₀ b hr.member)
      hr.leader hcall
  obtain ⟨-, hreading⟩ := hrest.invariant
    (I := fun c => (∃ L H, Ledgered cfg L H c) ∧ Reading cfg b boardId c₀ c)
    ⟨⟨L₁, H₁, hc₁⟩, hstart⟩ fun s e s' hinv hok hnext => by
      obtain ⟨⟨L, H, hc⟩, hr'⟩ := hinv
      obtain ⟨L', H', -, hc'⟩ := hc.next hok.1 hnext
      have hahead := snapshotsAhead_of_coherent (hc.nodes b hr.member).coherent e
      exact ⟨⟨L', H', hc'⟩, hr'.next hc.electoral hr.member hahead hnext⟩
  rcases reads_cases ht with ⟨-, hno⟩ | ⟨x, -, -, -, hnil⟩ |
    ⟨k, rpc, outcome, r, -, -, -, -, hnil⟩ |
    ⟨k, r, -, -, hnil⟩ | ⟨k, r, confirmed, hk, hconf, -, hone⟩
  · exact absurd hresp (hno _ _ _)
  · cases hnil ▸ hresp
  · cases hnil ▸ hresp
  · cases hnil ▸ hresp
  · rw [hone] at hresp
    obtain ⟨hid, hread⟩ := Prod.mk.inj (List.mem_singleton.mp hresp)
    obtain ⟨hself, hw, -⟩ := hreading.reads _ hact r (List.mem_of_getElem? hk) hid.symm
    cases confirmed with
    | false => cases hread
    | true =>
        have hstrokes := (Response.read.inj hread).1
        rw [hself, hw.boardId] at hstrokes
        exact ⟨(Option.some.inj hstrokes).trans (hkept.getStrokes rfl), hw.confirmed hconf⟩

end Cluster.ReadBy

/-! ## What the answer contains -/

/-- The node has committed an entry of its own term. -/
def RaftNode.HasCommitted (n : RaftNode) : Prop :=
  ∃ e, n.Holds e ∧ e.term = n.currentTerm ∧ e.index ≤ n.commitIndex

/-- What a leader has committed, a later leader has committed once it has committed an entry of
its own term. -/
theorem commitIndex_le_of_hasCommitted [cfg.OnFiles]
    (h₁ : Cluster.Reach cfg (Cluster.Careful cfg) (.init cfg) c₁)
    (h₂ : Cluster.Reach cfg (Cluster.Careful cfg) c₁ c₂) (ha : a ∈ cfg.members)
    (hb : b ∈ cfg.members) (hleada : (c₁.replicas a).node.state = .leader)
    (hleadb : (c₂.replicas b).node.state = .leader)
    (hterm : (c₁.replicas a).node.currentTerm ≤ (c₂.replicas b).node.currentTerm)
    (hown : (c₂.replicas b).node.HasCommitted) :
    (c₁.replicas a).node.commitIndex ≤ (c₂.replicas b).node.commitIndex := by
  obtain ⟨L₁, H₁, -, hc₁⟩ := (ledgered_init cfg).reach h₁
  obtain ⟨L₂, H₂, hgrows, hc₂⟩ := hc₁.reach h₂
  obtain ⟨H₂', hcont, hc₂', -⟩ := hc₁.electoral.reach h₂
  obtain ⟨e, ⟨hpos, hget⟩, heterm, hle⟩ := hown
  rcases Nat.eq_or_lt_of_le hterm with heq | hlt
  · -- the leader of the same term is the same member
    have hwon := hcont.won _ _ (hc₁.electoral.won_of_leader ha hleada)
    rw [heq] at hwon
    have hid := hc₂'.sound.unique hwon (hc₂'.won_of_leader hb hleadb)
    obtain rfl := cfg.replicaId_inj a ha b hb hid
    exact commitIndex_le_reach h₁ h₂ a
  · -- a later leader started with all of it, and its own entry lies beyond
    obtain ⟨-, hlog⟩ := hc₂.log_of_leader hb hleadb
    have helected : L₂.Elected (c₂.replicas b).node.currentTerm := (hc₂.log_of_leader hb hleadb).1
    rw [← hlog] at hget
    have hbase := hc₂.sound.base_length_le hget heterm
    have hst := (hc₁.nodes a ha).standing
    have hsettled := hgrows.settled hc₁.sound hst.settled
    have hlen : ((c₁.replicas a).node.fullLog.take (c₁.replicas a).node.commitIndex).length =
        (c₁.replicas a).node.commitIndex := by
      rw [List.length_take, min_eq_left hst.commit_le]
    rcases hsettled with hnil | ⟨t, n, hcommitted, ht, hp⟩
    · rw [hnil] at hlen
      exact hlen ▸ Nat.zero_le _
    · have hpre := hp.trans (hc₂.sound.leader_completeness hcommitted _ (ht.trans_lt hlt) helected)
      have hshort := hpre.length_le
      omega

/-- What a read has seen contains what a leader had applied before, if the leader that answers
has committed an entry of its own term. -/
theorem Cluster.ReadBy.prefix_of_hasCommitted [cfg.OnFiles] {strokes : List Stroke}
    (h₁ : Cluster.Reach cfg (Cluster.CarefulOn cfg boardId) (.init cfg) c₁)
    (ha : a ∈ cfg.members) (hlead : (c₁.replicas a).node.state = .leader)
    (h₀ : Cluster.Reach cfg (Cluster.CarefulOn cfg boardId) c₁ c₀)
    (hread : Cluster.ReadBy cfg b boardId c₀ c strokes)
    (hown : (c₀.replicas b).node.HasCommitted) :
    (c₁.replicas a).node.history <+: (c.replicas b).node.history := by
  have hcareful₁ := Cluster.reach_careful h₁
  have hcareful₀ := Cluster.reach_careful h₀
  have hcareful := Cluster.reach_careful hread.reach
  -- the reader's term is not before the first leader's
  have hterm : (c₁.replicas a).node.currentTerm ≤ (c₀.replicas b).node.currentTerm := by
    obtain ⟨-, Q, hQ, hstale⟩ := hread.spec (h₁.trans h₀)
    obtain ⟨H₁, -, hc₁, -⟩ := (electoral_init cfg).reach h₁
    obtain ⟨H₀, hcont, hc₀, -⟩ := hc₁.reach h₀
    exact hc₀.won_le hQ hstale (hcont.won _ _ (hc₁.won_of_leader ha hlead))
  have hle := commitIndex_le_of_hasCommitted hcareful₁ hcareful₀ ha hread.member hlead
    hread.leader hterm hown
  have hlater := commitIndex_le_reach (hcareful₁.trans hcareful₀) hcareful b
  exact applied_begins hcareful₁ (hcareful₀.trans hcareful) ha hread.member (hle.trans hlater)

/-- **Reads see what was applied before them.**  Let a leader have applied a history at some
moment of a careful run, and let a read be called then or later.  The strokes it returns are the
board of a history that contains all of the first, if the answering leader had committed an entry
of its own term when it was called; if not, one of the two histories still continues the other. -/
theorem reads_see_applied (cfg : Config) [cfg.OnFiles] {a b boardId : String} {c₁ c₀ c : Cluster}
    {strokes : List Stroke}
    (h₁ : Cluster.Reach cfg (Cluster.CarefulOn cfg boardId) (.init cfg) c₁)
    (ha : a ∈ cfg.members) (hlead : (c₁.replicas a).node.state = .leader)
    (h₀ : Cluster.Reach cfg (Cluster.CarefulOn cfg boardId) c₁ c₀)
    (hread : Cluster.ReadBy cfg b boardId c₀ c strokes) :
    strokes = (Boards.replay [] (strokesOf (c.replicas b).node.history)).getStrokes boardId ∧
      ((c₀.replicas b).node.HasCommitted →
        (c₁.replicas a).node.history <+: (c.replicas b).node.history) ∧
      ((c₁.replicas a).node.history <+: (c.replicas b).node.history ∨
        (c.replicas b).node.history <+: (c₁.replicas a).node.history) := by
  refine ⟨(hread.spec (h₁.trans h₀)).1, hread.prefix_of_hasCommitted h₁ ha hlead h₀, ?_⟩
  exact applied_comparable (Cluster.reach_careful h₁)
    (Cluster.reach_careful (h₀.trans hread.reach)) ha hread.member

/-- The read of the trio, once `c` has answered its heartbeat and that to `b` is lost. -/
def trioConfirmed : Cluster := Cluster.play .trio trioAgreed
  [.act (.readReply "a" 0 9 (some ⟨1, true, "c"⟩)), .act (.readReply "a" 0 8 none),
    .act (.readResume "a" 0)]

/-- The leader of the trio reads its board from `trioAfter 11` to here. -/
theorem readBy_trio :
    Cluster.ReadBy .trio "a" "board" (trioAfter 11) trioConfirmed [.dot "x" "board"] where
  member := by decide
  leader := by rfl
  run := by
    have hon : ∀ {c c' : Cluster}, Cluster.Reach .trio (Cluster.Careful .trio) c c' →
        Cluster.Reach .trio (Cluster.CarefulOn .trio "board") c c' := fun h =>
      h.mono fun _ _ hok => ⟨hok, fun hb => absurd hb (by decide)⟩
    have hcall : Cluster.next .trio (trioAfter 11) (.act (.readBoardState "a" "board")) =
        some (trioAfter 12) := by rfl
    refine ⟨trioAfter 12, hcall, hon (careful_heartbeat.trans ?_)⟩
    refine .tail (.tail (.tail .refl ?_
      (e := .act (.readReply "a" 0 9 (some ⟨1, true, "c"⟩))) (by rfl)) ?_
      (e := .act (.readReply "a" 0 8 none)) (by rfl)) ?_ (e := .act (.readResume "a" 0)) (by rfl)
    · exact trivial
    · exact trivial
    · exact trivial
  answer := by
    have hresp : (trioConfirmed.turn (.readFinish "a" 0)).map Turn.responses =
        some [((trioAfter 11).nextId, .read (some [.dot "x" "board"]) none)] := by decide +kernel
    obtain ⟨t, ht, hone⟩ := Option.map_eq_some_iff.mp hresp
    have hmem : (Action.readFinish "a" 0).replica ∈ Config.trio.members := by decide
    exact ⟨.readFinish "a" 0, t, none, hmem, ht, hone ▸ List.mem_singleton_self _⟩

/-- Up to there the trio is careful, on any board. -/
theorem carefulOn_trio {k : ℕ} (h : CarefulTrio k) :
    Cluster.Reach .trio (Cluster.CarefulOn .trio "board") (.init .trio) (trioAfter k) :=
  h.mono fun _ _ hok => ⟨hok, fun hb => absurd hb (by decide)⟩

/-- The first eleven events are careful. -/
theorem carefulTrio_acked : CarefulTrio 11 :=
  carefulTrio_written.succ trioWrite[10] trivial (by rfl)

/-- Leader `a` has committed its write when the read is called. -/
theorem hasCommitted_trio : ((trioAfter 11).replicas "a").node.HasCommitted :=
  ⟨⟨1, 1, .dot "x" "board"⟩, ⟨Nat.one_pos, by rfl⟩, by rfl, Nat.le_of_ble_eq_true (by rfl)⟩

/-- The read of `a` sees what `a` had applied. -/
theorem reads_see_applied_trio :
    ((trioAfter 11).replicas "a").node.history <+: (trioConfirmed.replicas "a").node.history :=
  (reads_see_applied .trio (a := "a") (carefulOn_trio carefulTrio_acked) (by decide) (by rfl) .refl
    readBy_trio).2.1 hasCommitted_trio

/-- `b`, elected after `a` has applied its write, reads the board of a history without it. -/
def trioLagging : Cluster := Cluster.play .trio trioSucceeded
  [.act (.readBoardState "b" "board"),
    .act (.deliver ⟨14, "b", "c", .heartbeat ⟨2, "b", some "b", 0⟩⟩),
    .act (.readReply "b" 0 14 (some ⟨2, true, "c"⟩)), .act (.readReply "b" 0 13 none),
    .act (.readResume "b" 0)]

/-- **A new leader's read can lag behind:** without an entry of its own term it may have missed
what the leader before it had applied. -/
theorem read_lags : Cluster.ReadBy .trio "b" "board" trioSucceeded trioLagging [] ∧
    ¬ (trioAgreed.replicas "a").node.history <+: (trioLagging.replicas "b").node.history := by
  refine ⟨⟨by decide, by rfl, ?_, ?_⟩, ?_⟩
  · refine ⟨Cluster.play .trio trioSucceeded [.act (.readBoardState "b" "board")], by rfl, ?_⟩
    have hon : ∀ e : Cluster.Event, "board" = "__proto__" → e.AvoidsProto :=
      fun _ hb => absurd hb (by decide)
    refine .tail (.tail (.tail (.tail .refl ⟨?_, hon _⟩
      (e := .act (.deliver ⟨14, "b", "c", .heartbeat ⟨2, "b", some "b", 0⟩⟩)) (by rfl))
      ⟨trivial, hon _⟩ (e := .act (.readReply "b" 0 14 (some ⟨2, true, "c"⟩))) (by rfl))
      ⟨trivial, hon _⟩ (e := .act (.readReply "b" 0 13 none)) (by rfl))
      ⟨trivial, hon _⟩ (e := .act (.readResume "b" 0)) (by rfl)
    exact Or.inr (Or.inl (Nat.zero_le _))
  · have hresp : (trioLagging.turn (.readFinish "b" 0)).map Turn.responses =
        some [(trioSucceeded.nextId, .read (some []) none)] := by decide +kernel
    obtain ⟨t, ht, hone⟩ := Option.map_eq_some_iff.mp hresp
    have hmem : (Action.readFinish "b" 0).replica ∈ Config.trio.members := by decide
    exact ⟨.readFinish "b" 0, t, none, hmem, ht, hone ▸ List.mem_singleton_self _⟩
  · intro hcontinues
    have hlen := hcontinues.length_le
    exact absurd hlen (by decide +kernel)

/-- **Acknowledged writes are read.**  Let a call of `handleClientWrite` answer `success` in a
careful run, for an entry that the node has kept.  Every read that is called after the answer, of
any leader that has committed an entry of its own term, returns the board of a history that has
the entry at its index. -/
theorem acknowledged_writes_read (cfg : Config) [cfg.OnFiles] {a b boardId : String}
    {c₁ c₀ c : Cluster}
    {k : ℕ} {w : Write} {t : Turn} {strokes : List Stroke}
    (h₁ : Cluster.Reach cfg (Cluster.CarefulOn cfg boardId) (.init cfg) c₁)
    (ha : a ∈ cfg.members) (hw : (c₁.replicas a).writes[k]? = some w)
    (ht : c₁.turn (.writeResume a k) = some t)
    (hack : (w.id, .write true none) ∈ t.responses)
    (hkeeps : (c₁.replicas a).node.Keeps w.entry)
    (h₀ : Cluster.Reach cfg (Cluster.CarefulOn cfg boardId) (c₁.finishTurn a t) c₀)
    (hread : Cluster.ReadBy cfg b boardId c₀ c strokes)
    (hown : (c₀.replicas b).node.HasCommitted) :
    strokes = (Boards.replay [] (strokesOf (c.replicas b).node.history)).getStrokes boardId ∧
      (w.entry.index, w.entry) ∈ (c.replicas b).node.history ∧
      (c.replicas b).node.appliedAt w.entry.index = some w.entry := by
  obtain ⟨L, H, -, hc⟩ := (ledgered_init cfg).reach (Cluster.reach_careful h₁)
  obtain ⟨hlead, -, hnode⟩ := Cluster.writeResume_acked hw ht hack
  have hb := (hc.nodes a ha).beginTurn.coherent
  have hself := Cluster.replicas_finishTurn_self c₁ a t
  have hnext : Cluster.next cfg c₁ (.act (.writeResume a k)) = some (c₁.finishTurn a t) := by
    show (if a ∈ cfg.members then _ else none) = _
    rw [if_pos ha, ht]
    rfl
  have hok : Cluster.CarefulOn cfg boardId c₁ (.act (.writeResume a k)) :=
    ⟨trivial, fun _ stroke hs => by cases hs⟩
  have h₁' := h₁.tail hok hnext
  obtain ⟨L₁, H₁, -, hc₁⟩ := hc.next hok.1 hnext
  have hlead' : ((c₁.finishTurn a t).replicas a).node.state = .leader := by
    rw [hself]
    rw [hnode]
    exact (RaftNode.quiet_updateCommitIndex _).state.trans hlead
  -- the answering leader has applied the entry
  have happlied : (w.entry.index, w.entry) ∈ ((c₁.finishTurn a t).replicas a).node.history := by
    rw [hself]
    have hcoh : t.replica.node.Coherent := by
      have hbooked := (hc₁.nodes a ha).coherent
      rwa [hself] at hbooked
    refine hcoh.mem_history_iff.mpr ⟨?_, ?_⟩
    · rw [hnode, RaftNode.Holds, hb.fullLog_updateCommitIndex]
      exact hkeeps.1
    · rw [hnode]
      exact hb.le_updateCommitIndex.mpr hkeeps.2
  have hcontinues := hread.prefix_of_hasCommitted h₁' ha hlead' h₀ hown
  have hmem := hcontinues.subset happlied
  refine ⟨(hread.spec (h₁'.trans h₀)).1, hmem, ?_⟩
  obtain ⟨L₂, H₂, -, hc₂⟩ := (ledgered_init cfg).reach
    (Cluster.reach_careful ((h₁'.trans h₀).trans hread.reach))
  have hcoh := (hc₂.nodes b hread.member).coherent
  obtain ⟨⟨hpos, hget⟩, hle⟩ := hcoh.mem_history_iff.mp hmem
  have happ := hcoh.appliedAt (k := w.entry.index - 1) (by omega)
  rw [Nat.sub_add_cancel hpos] at happ
  exact happ.trans hget

/-- It sees the write that was acknowledged. -/
theorem acknowledged_writes_read_trio :
    (1, ⟨1, 1, .dot "x" "board"⟩) ∈ (trioConfirmed.replicas "a").node.history := by
  obtain ⟨w, hw, hentry⟩ : ∃ w, ((trioAfter 10).replicas "a").writes[0]? = some w ∧
      w.entry = ⟨1, 1, .dot "x" "board"⟩ := ⟨_, by rfl, rfl⟩
  obtain ⟨t, ht, hresp⟩ : ∃ t, (trioAfter 10).turn (.writeResume "a" 0) = some t ∧
      t.responses = [(2, .write true none)] := ⟨_, by rfl, by rfl⟩
  have hid : some w.id = some 2 := (congrArg (Option.map Write.id) hw).symm.trans (by rfl)
  have hack : (w.id, Response.write true none) ∈ t.responses := by
    rw [hresp, Option.some.inj hid]
    exact List.mem_singleton_self _
  have hnext : some ((trioAfter 10).finishTurn "a" t) = some (trioAfter 11) := by
    have hstep : ((trioAfter 10).turn (.writeResume "a" 0)).map ((trioAfter 10).finishTurn "a") =
        some (trioAfter 11) := by rfl
    rw [ht] at hstep
    exact hstep
  have hkeeps : ((trioAfter 10).replicas "a").node.Keeps w.entry := by
    rw [hentry]
    exact ⟨⟨Nat.one_pos, by rfl⟩,
      Or.inr ⟨1, ⟨1, 1, .dot "x" "board"⟩, le_rfl, by rfl, by rfl, by decide⟩⟩
  have hrest : Cluster.Reach .trio (Cluster.CarefulOn .trio "board")
      ((trioAfter 10).finishTurn "a" t) (trioAfter 11) := by
    rw [Option.some.inj hnext]
    exact .refl
  have hread := (acknowledged_writes_read .trio (a := "a") (carefulOn_trio carefulTrio_written)
    (by decide) hw ht hack hkeeps hrest readBy_trio hasCommitted_trio).2.1
  rw [hentry] at hread
  exact hread

end QuorumCanvas
