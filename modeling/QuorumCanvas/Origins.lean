import QuorumCanvas.Applied
import QuorumCanvas.ReadIndex

/-!
# Nothing is invented

Whatever happens to the cluster, crashes and lost elections included, every entry anywhere was
made by a leader for a client's write, at the index and in the term it carries, and every stroke
that a read answers with was written by a client (`nothing_invented`).  No run has to be careful
for this.

The board called `__proto__` is left out of what reads answer with: a snapshot does not hold it.
-/

namespace QuorumCanvas

open RaftNode (Request Reply)

/-! ## What a board shows -/

section Shown

variable {ε : Type*} [BoardEvent ε]

/-- What an event leaves visible was visible, is the event, or had come before. -/
theorem mem_visible_apply {board : BoardState ε} {event stroke : ε}
    (h : stroke ∈ (board.apply event).visible) :
    stroke ∈ board.visible ∨ stroke ∈ (board.apply event).events := by
  rw [Boards.events_apply]
  unfold BoardState.apply at h
  split at h
  · exact Or.inl (List.mem_of_mem_filter h)
  · dsimp only at h
    split at h
    · exact Or.inl h
    · rcases List.mem_append.mp h with hold | hnew
      · exact Or.inl hold
      · exact Or.inr (List.mem_of_find?_eq_some (Option.mem_toList.mp hnew))
  · dsimp only at h
    split at h
    · exact Or.inl h
    · rcases List.mem_append.mp h with hold | hnew
      · exact Or.inl hold
      · exact Or.inr (List.mem_append_right _ hnew)

/-- What is visible was visible or is among the events. -/
theorem mem_visible_foldl {events : List ε} {board : BoardState ε} {stroke : ε}
    (h : stroke ∈ (events.foldl BoardState.apply board).visible) :
    stroke ∈ board.visible ∨ stroke ∈ board.events ++ events := by
  induction events generalizing board with
  | nil => exact Or.inl h
  | cons event events ih =>
      have hevents : (board.apply event).events ++ events = board.events ++ event :: events := by
        rw [Boards.events_apply, List.append_assoc, List.singleton_append]
      rcases ih h with hvisible | hmem
      · rcases mem_visible_apply hvisible with hold | hnew
        · exact Or.inl hold
        · exact Or.inr (hevents ▸ List.mem_append_left _ hnew)
      · exact Or.inr (hevents ▸ hmem)

/-- A board shows only events that were addressed to it. -/
theorem mem_getStrokes_replay {events : List ε} {boardId : String} {stroke : ε}
    (h : stroke ∈ (Boards.replay [] events).getStrokes boardId) :
    stroke ∈ events ∧ BoardEvent.boardId stroke = boardId := by
  unfold Boards.getStrokes at h
  rw [Boards.board_replay] at h
  rcases mem_visible_foldl h with hnone | hmem
  · cases hnone
  · rw [Boards.board_nil] at hmem
    obtain ⟨hin, hboard⟩ := List.mem_filter.mp hmem
    exact ⟨hin, of_decide_eq_true hboard⟩

end Shown

/-- A board of a node shows only strokes addressed to it, and other boards than `__proto__` only
strokes from its history. -/
theorem KeptNode.mem_getStrokes {C : LogEntry → Prop} {n : RaftNode}
    (h : KeptNode C (· ≠ "__proto__") n) {boardId : String} {stroke : Stroke}
    (hmem : stroke ∈ n.getStrokes boardId) (hproto : stroke.boardId ≠ "__proto__") :
    ∃ e, C e ∧ e.stroke = stroke := by
  have hboard : stroke.boardId = boardId := by
    obtain ⟨events, hboards, -⟩ := h.boards
    unfold RaftNode.getStrokes at hmem
    rw [hboards] at hmem
    exact (mem_getStrokes_replay hmem).2
  rw [h.getStrokes (hboard ▸ hproto)] at hmem
  obtain ⟨x, hx, rfl⟩ := List.mem_map.mp (mem_getStrokes_replay hmem).1
  exact ⟨x.2, h.history x hx, rfl⟩

namespace Cluster

/-- What clients ask a node to write matters only while it leads. -/
theorem LocalInvariant.ofLeaders {cfg : Config} {P : RaftNode → Prop} {F : Persistence → Prop}
    {Q : Request → Prop} {R : Reply → Prop} {W : RaftNode → Stroke → Prop}
    (hI : LocalInvariant cfg P F Q R W) :
    LocalInvariant cfg P F Q R fun n stroke => n.state = .leader → W n stroke where
  construct := hI.construct
  file := hI.file
  begin_turn := hI.begin_turn
  step := by
    intro n op hn hallowed
    apply hI.step n op hn
    cases op with
    | clientAppend stroke => exact ⟨hallowed.1, hallowed.2 hallowed.1⟩
    | _ => exact hallowed
  issue := hI.issue
  answer := hI.answer

/-! ## Where entries come from -/

/-- In the course of the events a leader has made the entry for a client's write. -/
def Created (cfg : Config) (events : List Event) (entry : LogEntry) : Prop :=
  ∃ before event after c a, events = before ++ event :: after ∧
    Runs.exec (next cfg) (.init cfg) before = some c ∧
    (event = .act (.clientWrite a entry.stroke) ∨
      ∃ calls, event = .crash (.clientWrite a entry.stroke) calls) ∧
    (c.replicas a).node.state = .leader ∧ (c.replicas a).node.clientEntry entry.stroke = entry

/-- All that is in the logs, was applied, was sent or read was created by the events. -/
structure Genuine (cfg : Config) (events : List Event) (c : Cluster) : Prop where
  logs : ∀ a ∈ cfg.members, ∀ entry ∈ (c.replicas a).node.log.entries, Created cfg events entry
  applied : ∀ a ∈ cfg.members, ∀ x ∈ (c.replicas a).node.history, Created cfg events x.2
  sent : ∀ p ∈ c.wire, ∀ args, p.request = .appendEntries args →
    ∀ entry ∈ args.entries, Created cfg events entry
  read : ∀ id strokes hint, (id, .read (some strokes) hint) ∈ c.responses →
    ∀ stroke ∈ strokes, stroke.boardId ≠ "__proto__" →
      ∃ entry, Created cfg events entry ∧ entry.stroke = stroke

variable {cfg : Config} {c c' : Cluster}

/-- A read answered by a turn tells the strokes of its replica. -/
theorem read_turn {action : Action} {t : Turn} (h : c.turn action = some t) {id : ℕ}
    {strokes : List Stroke} {hint : Option String}
    (hmem : (id, .read (some strokes) hint) ∈ t.responses) :
    ∃ boardId, strokes = (c.replicas action.replica).node.getStrokes boardId := by
  rcases reads_cases h with ⟨-, hno⟩ | ⟨boardId, -, -, -, hnil⟩ |
    ⟨k, rpc, outcome, r, -, -, -, -, hnil⟩ |
    ⟨k, r, -, -, hnil⟩ | ⟨k, r, confirmed, -, -, -, hanswer⟩
  · exact absurd hmem (hno id strokes hint)
  · rw [hnil] at hmem
    cases hmem
  · rw [hnil] at hmem
    cases hmem
  · rw [hnil] at hmem
    cases hmem
  · rw [hanswer] at hmem
    have heq := (Prod.mk.inj (List.mem_singleton.mp hmem)).2
    cases confirmed with
    | true =>
        rw [if_pos rfl] at heq
        exact ⟨r.boardId, Option.some.inj (Response.read.inj heq).1⟩
    | false =>
        rw [if_neg Bool.false_ne_true] at heq
        cases (Response.read.inj heq).1

/-- The answers to reads after an event: those before it, and what a node showed. -/
theorem read_next {e : Event} (h : next cfg c e = some c') {id : ℕ} {strokes : List Stroke}
    {hint : Option String} (hmem : (id, .read (some strokes) hint) ∈ c'.responses) :
    (id, .read (some strokes) hint) ∈ c.responses ∨
      ∃ a ∈ cfg.members, ∃ boardId, strokes = (c.replicas a).node.getStrokes boardId := by
  rcases next_cases h with ⟨action, t, rfl, ha, ht, rfl⟩ | ⟨action, t, calls, rfl, ha, ht, rfl⟩ |
    ⟨a, calls, rfl, ha, rfl⟩
  · rcases List.mem_append.mp hmem with hold | hnew
    · exact Or.inl hold
    · exact Or.inr ⟨action.replica, ha, read_turn ht hnew⟩
  · exact Or.inl hmem
  · exact Or.inl hmem

/-- **Nothing is invented.**  In every run, an entry in a log, applied or sent was made by a
leader for a client's write, and what a read answers with was written by a client. -/
theorem nothing_invented (cfg : Config) {events : List Event} {c : Cluster}
    (h : Runs.exec (next cfg) (.init cfg) events = some c) : Genuine cfg events c := by
  let C := Created cfg events
  have hspares : SparesProto C (· ≠ "__proto__") := fun hproto => absurd rfl hproto
  have hinv := (kept_localInvariant hspares cfg).ofLeaders
  -- the local invariant and the answers so far, along the run
  have hall : Local cfg (KeptNode C (· ≠ "__proto__")) (KeptRequest C (· ≠ "__proto__"))
      (KeptReply C (· ≠ "__proto__")) c ∧ ∀ id strokes hint,
        (id, Response.read (some strokes) hint) ∈ c.responses → ∀ stroke ∈ strokes,
          stroke.boardId ≠ "__proto__" → ∃ entry, C entry ∧ entry.stroke = stroke := by
    apply (Runs.Reach.along h).invariant
    · exact ⟨hinv.init keptFiles_fresh, fun _ _ _ hmem => by cases hmem⟩
    · intro c₁ event c₂ hkept hwhere hnext
      obtain ⟨before, after, heq, hbefore⟩ := hwhere
      refine ⟨hinv.next hkept.1 ?_ hnext, ?_⟩
      · intro a stroke hevent hlead
        exact ⟨before, event, after, c₁, a, heq, hbefore, hevent, hlead, rfl⟩
      · intro id strokes hint hmem stroke hstroke hproto
        rcases read_next hnext hmem with hold | ⟨a, ha, boardId, rfl⟩
        · exact hkept.2 id strokes hint hold stroke hstroke hproto
        · exact (hkept.1.nodes a ha).mem_getStrokes hstroke hproto
  obtain ⟨hkept, hread⟩ := hall
  refine ⟨fun a ha => (hkept.nodes a ha).log, fun a ha => (hkept.nodes a ha).history,
    fun p hp args hrequest => ?_, hread⟩
  have hsent := hkept.wire p hp
  rw [hrequest] at hsent
  exact hsent

/-- The single replica writes the dot and answers a read of its board. -/
def soloRead : List Event := soloWrite "board" ++
  [Event.act (.readBoardState "a" "board"), .act (.readResume "a" 0), .act (.readFinish "a" 0)]

/-- The read of the single replica shows the stroke that was written. -/
theorem nothing_invented_solo : ∃ c, Runs.exec (next .solo) (.init .solo) soloRead = some c ∧
    c.responses = [(0, .write true none), (1, .read (some [.dot "dot" "board"]) none)] ∧
    Genuine .solo soloRead c := by
  have hanswers : (Runs.exec (next .solo) (.init .solo) soloRead).map Cluster.responses =
      some [(0, .write true none), (1, .read (some [.dot "dot" "board"]) none)] := by
    decide +kernel
  obtain ⟨c, hc, hresponses⟩ := Option.map_eq_some_iff.mp hanswers
  exact ⟨c, hc, hresponses, nothing_invented .solo hc⟩

end Cluster

end QuorumCanvas
