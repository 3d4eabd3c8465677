import QuorumCanvas.LateJoin
import QuorumCanvas.Runs

/-!
# Optimistic edits

A client shows its own events before the cluster has committed them.  So at any
moment it shows what the board would show if every outstanding event were
committed in the order of submission: that is the invariant, and when nothing is
outstanding it is agreement.  A commit keeps it when it leaves the last undo or
redo of each stroke alone, a refusal when the rollback restores what the
remaining events show.
-/

namespace QuorumCanvas

open BoardEvent

namespace BoardEvent

variable {ε : Type*} [BoardEvent ε] {event : ε} {events : List ε} {id : String}

/-- Drawn, and not undone last. -/
def Visible (events : List ε) (id : String) : Prop :=
  Drawn events id ∧ lastMark events id ≠ some false

instance (events : List ε) (id : String) : Decidable (Drawn events id) := by
  unfold Drawn
  infer_instance

instance (events : List ε) (id : String) : Decidable (Visible events id) := by
  unfold Visible
  infer_instance

/-- What one more event does to the ids that are visible. -/
theorem visible_append_singleton : Visible (events ++ [event]) id ↔
    mark id event = none ∧ Visible events id ∨ mark id event = some true ∧ Drawn events id ∨
      kind event = .stroke ∧ BoardEvent.id event = id ∧ lastMark events id ≠ some false := by
  unfold Visible
  rw [drawn_append, drawn_singleton, lastMark_append, lastMark_singleton]
  have hdraw : kind event = .stroke → mark id event = none := fun h => mark_of_drawing h id
  cases hm : mark id event with
  | none => grind
  | some said => cases said <;> grind

/-- An event that says nothing about an id and does not draw it does not matter to it. -/
theorem visible_middle {us vs : List ε} (hmark : mark id event = none)
    (hdraw : ¬ (kind event = .stroke ∧ BoardEvent.id event = id)) :
    Visible (us ++ event :: vs) id ↔ Visible (us ++ vs) id := by
  have hnot : ¬ Drawn [event] id := fun h => hdraw (drawn_singleton.mp h)
  have hlast : lastMark (event :: vs) id = lastMark vs id := by
    rw [lastMark_cons, hmark, Option.or_none]
  have hdrawn : Drawn (event :: vs) id ↔ Drawn vs id := by
    rw [← List.singleton_append, drawn_append]
    exact or_iff_right hnot
  unfold Visible
  rw [drawn_append, drawn_append, lastMark_append, lastMark_append, hlast, hdrawn]

/-- An event that targets some stroke says nothing about the others. -/
theorem mark_of_target {target : String} (ht : target? event = some target) (hne : id ≠ target) :
    mark id event = none := by
  unfold mark
  rw [ht]
  cases kind event <;> simp [Ne.symm hne]

end BoardEvent

/-- The gateway's answers to an event that was not committed. -/
inductive Refusal
  | raftWriteFailed
  | rateLimited
  deriving DecidableEq

/-- The error message of a refusal. -/
def Refusal.message (refusal : Refusal) (stroke : Stroke) : ServerMessage :=
  match refusal with
  | .raftWriteFailed =>
      .error "Failed to submit stroke" (some "RAFT_WRITE_FAILED") (some stroke.id) (some true)
  | .rateLimited => .error "Rate limit exceeded" (some "RATE_LIMITED") (some stroke.id) (some true)

/-! ## Rollbacks -/

namespace UseBoard

variable {b : UseBoard} {event : Stroke} {rollback : Rollback} {id : String}

/-- A rollback was made for this event. -/
def TakesBack (event : Stroke) : Rollback → Prop
  | .addStroke strokeId => kind event = .stroke ∧ strokeId = event.id
  | .undoStroke targetStrokeId targetStroke =>
      kind event = .undoStroke ∧ target? event = some targetStrokeId ∧
        targetStroke.id = targetStrokeId
  | .redoStroke targetStrokeId =>
      kind event = .redoStroke ∧ target? event = some targetStrokeId

/-- A dropped stroke is shown no more. -/
theorem shows_dropStroke {strokes : List Stroke} {strokeId : String} :
    (∃ stroke ∈ dropStroke strokes strokeId, stroke.id = id) ↔
      (∃ stroke ∈ strokes, stroke.id = id) ∧ id ≠ strokeId := by
  unfold dropStroke
  grind

@[simp] theorem archive_rollBack : (b.rollBack rollback).archive = b.archive := by
  cases rollback <;> rfl

@[simp] theorem pending_rollBack : (b.rollBack rollback).pending = b.pending := by
  cases rollback <;> rfl

/-- The rollback of a drawing hides it, that of an undo shows its target, that of a redo
hides it. -/
theorem shows_rollBack (h : TakesBack event rollback) :
    (b.rollBack rollback).Shows id ↔
      kind event = .stroke ∧ b.Shows id ∧ id ≠ event.id ∨
      kind event = .undoStroke ∧ (b.Shows id ∨ target? event = some id) ∨
      kind event = .redoStroke ∧ b.Shows id ∧ target? event ≠ some id := by
  cases rollback with
  | addStroke strokeId =>
      obtain ⟨hk, rfl⟩ := h
      simp only [hk, true_and, reduceCtorEq, false_and, or_false]
      exact shows_dropStroke
  | undoStroke targetStrokeId targetStroke =>
      obtain ⟨hk, ht, rfl⟩ := h
      simp only [hk, ht, true_and, reduceCtorEq, false_and, or_false, false_or, Option.some.injEq]
      unfold rollBack Shows
      dsimp only
      split
      · next hshown =>
          have hshown := showsStroke_iff.mp hshown
          grind
      · grind
  | redoStroke targetStrokeId =>
      obtain ⟨hk, ht⟩ := h
      simp only [hk, ht, true_and, reduceCtorEq, false_and, false_or, ne_eq, Option.some.injEq]
      refine shows_dropStroke.trans ?_
      rw [ne_comm]
      rfl

@[simp] theorem archive_runPendingRollback (strokeId : String) :
    (b.runPendingRollback strokeId).archive = b.archive := by
  unfold runPendingRollback
  split <;> simp [clearPending]

@[simp] theorem pending_runPendingRollback (strokeId : String) :
    (b.runPendingRollback strokeId).pending = b.pending.erase strokeId := by
  unfold runPendingRollback
  split <;> simp [clearPending]

/-- A pending rollback is run. -/
theorem runPendingRollback_some {strokeId : String}
    (h : OrderedMap.get? b.pending strokeId = some rollback) :
    b.runPendingRollback strokeId = (b.clearPending strokeId).rollBack rollback := by
  unfold runPendingRollback
  rw [h]

/-- Without one the stroke is dropped. -/
theorem runPendingRollback_none {strokeId : String}
    (h : OrderedMap.get? b.pending strokeId = none) :
    b.runPendingRollback strokeId =
      { b.clearPending strokeId with strokes := dropStroke b.strokes strokeId } := by
  unfold runPendingRollback
  rw [h]

@[simp] theorem archive_submitStrokeMessage (stroke : Stroke) (sent : Bool) :
    (b.submitStrokeMessage stroke rollback sent).archive = b.archive := by
  unfold submitStrokeMessage
  cases sent
  · exact archive_runPendingRollback _
  · rfl

/-- Only the entry of the event itself is new. -/
theorem pending_submitStrokeMessage {stroke : Stroke} {sent : Bool} {r : Rollback}
    (h : OrderedMap.get? (b.submitStrokeMessage stroke rollback sent).pending id = some r) :
    OrderedMap.get? b.pending id = some r ∧ id ≠ stroke.id ∨
      id = stroke.id ∧ sent = true ∧ r = rollback := by
  unfold submitStrokeMessage trackPending at h
  by_cases hid : id = stroke.id
  · subst hid
    cases sent
    · simp [OrderedMap.get?_erase_self] at h
    · refine Or.inr ⟨rfl, rfl, ?_⟩
      simpa using h.symm
  · refine Or.inl ⟨?_, hid⟩
    cases sent
    · simpa [OrderedMap.get?_erase_ne _ hid, OrderedMap.get?_set_ne _ _ hid] using h
    · simpa [OrderedMap.get?_set_ne _ _ hid] using h

/-- An event that could not be sent is rolled back at once. -/
theorem shows_submitStrokeMessage {stroke : Stroke} {sent : Bool} :
    (b.submitStrokeMessage stroke rollback sent).Shows id ↔
      if sent then b.Shows id else (b.rollBack rollback).Shows id := by
  unfold submitStrokeMessage
  cases sent
  · have hpending : OrderedMap.get? (b.trackPending stroke.id rollback).pending stroke.id =
        some rollback := OrderedMap.get?_set_self _ _ _
    dsimp only
    rw [if_neg Bool.false_ne_true, if_neg Bool.false_ne_true, runPendingRollback_some hpending]
    cases rollback <;> exact Iff.rfl
  · exact Iff.rfl

/-- The target of an undo is the last of the ids, and archived. -/
theorem targetOf_eq_some {ids : List String} {target : String} {stroke : Stroke}
    (h : b.targetOf ids = some (target, stroke)) :
    ids.getLast? = some target ∧ target ≠ "" ∧ OrderedMap.get? b.archive target = some stroke := by
  unfold targetOf at h
  obtain ⟨target', hlast, h⟩ := Option.bind_eq_some_iff.mp h
  obtain ⟨_, hguard, h⟩ := Option.bind_eq_some_iff.mp h
  obtain ⟨stroke', hget, h⟩ := Option.bind_eq_some_iff.mp h
  cases h
  refine ⟨hlast, ?_, hget⟩
  intro hempty
  rw [hempty] at hguard
  simp [guard] at hguard

/-- A pointer points to its target. -/
theorem target_pointer (session : Session) (stamp : Stamp) (action : StrokeAction)
    {target : String} (h : target ≠ "") :
    target? (pointer session stamp action target) = some target := by
  show (some target).filter (· ≠ "") = some target
  simp [h]

end UseBoard

/-- One client at work on a board. -/
structure Editing where
  session : UseBoard.Session
  client : UseBoard
  /-- the events of the board before the client's first -/
  history : List Stroke
  committed : List Stroke
  /-- submitted and unanswered, in the order of submission -/
  outstanding : List Stroke

namespace Editing

/-- What the user, the replicas and the clock do. -/
inductive Event
  | addStroke (stroke : Stroke) (sent : Bool)
  | undoLastStroke (stamp : UseBoard.Stamp) (sent : Bool)
  | redoLastStroke (stamp : UseBoard.Stamp) (sent : Bool)
  | commit (k : ℕ)
  | refuse (k : ℕ) (refusal : Refusal)
  | expire (strokeId : String)
  deriving DecidableEq

/-- The client after an action, and what the action sent. -/
def submitted (s : Editing) (client : UseBoard) (event : Option Stroke) (sent : Bool) : Editing :=
  { s with
    client
    outstanding := if sent then s.outstanding ++ event.toList else s.outstanding }

/-- One such event, if it can happen. -/
def next (s : Editing) : Event → Option Editing
  | .addStroke stroke sent => some (s.submitted (s.client.addStroke stroke sent) (some stroke) sent)
  | .undoLastStroke stamp sent =>
      let (client, event) := s.client.undoLastStroke s.session stamp sent
      some (s.submitted client event sent)
  | .redoLastStroke stamp sent =>
      let (client, event) := s.client.redoLastStroke s.session stamp sent
      some (s.submitted client event sent)
  | .commit k =>
      match s.outstanding[k]? with
      | some event =>
          some { s with
            committed := s.committed ++ [event]
            outstanding := s.outstanding.eraseIdx k }
      | none => none
  | .refuse k refusal =>
      match s.outstanding[k]? with
      | some event =>
          some { s with
            client := s.client.handleMessage (refusal.message event)
            outstanding := s.outstanding.eraseIdx k }
      | none => none
  | .expire strokeId => some { s with client := s.client.expirePending strokeId }

/-- The board: what it had, and what has been committed since. -/
def board (s : Editing) : BoardState Stroke :=
  s.committed.foldl BoardState.apply (s.history.foldl BoardState.apply (BoardState.empty Stroke))

/-- The events that have not been refused, those still outstanding last. -/
def live (s : Editing) : List Stroke := s.history ++ s.committed ++ s.outstanding

/-- The same without one of the outstanding events. -/
def others (s : Editing) (k : ℕ) : List Stroke :=
  s.history ++ s.committed ++ s.outstanding.eraseIdx k

/-- An id that no event has or targets. -/
def Fresh (s : Editing) (id : String) : Prop :=
  id ≠ "" ∧ ∀ event ∈ s.live, event.id ≠ id ∧ target? event ≠ some id

/-- Strokes that are added are drawings, and new ids are new. -/
def Draws (s : Editing) : Event → Prop
  | .addStroke stroke _ => kind stroke = .stroke ∧ s.Fresh stroke.id
  | .undoLastStroke stamp _ => s.Fresh stamp.id
  | .redoLastStroke stamp _ => s.Fresh stamp.id
  | _ => True

/-- The client takes an event back when it is refused: the failure is one it handles, and
the rollback of an undo or redo has not been forgotten. -/
def RollsBack (s : Editing) (event : Stroke) (refusal : Refusal) : Prop :=
  refusal = .raftWriteFailed ∧
    (kind event = .stroke ∨ (OrderedMap.get? s.client.pending event.id).isSome)

/-- Without this undo the other events show its target, without this redo they do not. -/
def Restores (event : Stroke) (others : List Stroke) : Prop :=
  ∀ target, target? event = some target →
    (kind event = .undoStroke → Visible others target) ∧
    (kind event = .redoStroke → ¬ Visible others target)

/-- No event overtakes another one on the same stroke, and no refusal comes too late. -/
def InTurn (s : Editing) : Event → Prop
  | .redoLastStroke _ sent =>
      ∀ target stroke, s.client.targetOf s.client.redoStrokeIds = some (target, stroke) →
        if sent then Drawn s.live target else ¬ Visible s.live target
  | .commit k =>
      ∀ id, lastMark (s.outstanding.eraseIdx k) id ≠ none →
        lastMark (s.outstanding.eraseIdx k) id = lastMark s.outstanding id
  | .refuse k refusal =>
      ∀ event, s.outstanding[k]? = some event →
        (s.RollsBack event refusal → Restores event (s.others k)) ∧
        (¬ s.RollsBack event refusal → ∀ id, Visible (s.others k) id ↔ Visible s.live id)
  | _ => True

/-- A client in agreement with a board. -/
structure Opening (s : Editing) : Prop where
  proper : ∀ event ∈ s.history, Proper event
  committed : s.committed = []
  outstanding : s.outstanding = []
  key : ∀ id stroke, OrderedMap.get? s.client.archive id = some stroke → stroke.id = id
  agrees : ∀ id, s.client.Shows id ↔ s.board.Shows id

/-! ## The invariant -/

/-- The client shows what the board would show if all that is outstanding were committed. -/
structure Optimistic (s : Editing) : Prop where
  proper : ∀ event ∈ s.live, Proper event
  key : ∀ id stroke, OrderedMap.get? s.client.archive id = some stroke → stroke.id = id
  shows : ∀ id, s.client.Shows id ↔ Visible s.live id
  named : ∀ event ∈ s.outstanding, event.id ≠ ""
  distinct : (s.outstanding.map Stroke.id).Nodup
  apart : ∀ event ∈ s.outstanding, ∀ earlier ∈ s.history ++ s.committed, earlier.id ≠ event.id
  pending : ∀ event ∈ s.outstanding, ∀ rollback,
    OrderedMap.get? s.client.pending event.id = some rollback → UseBoard.TakesBack event rollback

variable {s s' : Editing}

/-- The board is the replay of what was committed. -/
theorem board_eq : s.board =
    (s.history ++ s.committed).foldl BoardState.apply (BoardState.empty Stroke) := by
  rw [List.foldl_append]
  rfl

/-- At the opening the client shows the board. -/
theorem optimistic_opening (h : s.Opening) : s.Optimistic := by
  have hlive : s.live = s.history := by
    unfold live
    rw [h.committed, h.outstanding, List.append_nil, List.append_nil]
  have houtstanding : ∀ event, event ∉ s.outstanding := by
    rw [h.outstanding]
    exact fun _ hmem => by cases hmem
  refine ⟨hlive ▸ h.proper, h.key, ?_, fun event hmem => absurd hmem (houtstanding event), ?_,
    fun event hmem => absurd hmem (houtstanding event),
    fun event hmem => absurd hmem (houtstanding event)⟩
  · intro id
    rw [h.agrees, board_eq, h.committed, List.append_nil, BoardState.shows_foldl h.proper, hlive]
    rfl
  · rw [h.outstanding]
    exact List.nodup_nil

/-! ## Actions -/

/-- **An action.** What was changed on the screen must be what the event will do on the
board, and when the event was not sent the rollback must undo it. -/
theorem Optimistic.submit (h : s.Optimistic) {b : UseBoard} {event : Stroke} {rollback : Rollback}
    {sent : Bool} (hproper : Proper event) (hfresh : s.Fresh event.id)
    (htakes : UseBoard.TakesBack event rollback) (hpending : b.pending = s.client.pending)
    (hkey : ∀ id stroke, OrderedMap.get? b.archive id = some stroke → stroke.id = id)
    (hsent : sent = true → ∀ id, b.Shows id ↔ Visible (s.live ++ [event]) id)
    (hunsent : sent = false → ∀ id, (b.rollBack rollback).Shows id ↔ Visible s.live id) :
    (s.submitted (b.submitStrokeMessage event rollback sent) (some event) sent).Optimistic := by
  have hnew : ∀ e ∈ s.live, e.id ≠ event.id := fun e he => (hfresh.2 e he).1
  have hpast : ∀ e ∈ s.history ++ s.committed, e.id ≠ event.id := fun e he =>
    hnew e (List.mem_append_left _ he)
  have hout : ∀ e ∈ s.outstanding, e.id ≠ event.id := fun e he =>
    hnew e (List.mem_append_right _ he)
  have hold : ∀ e ∈ s.outstanding, ∀ r, OrderedMap.get?
      (b.submitStrokeMessage event rollback sent).pending e.id = some r →
        UseBoard.TakesBack e r := by
    intro e he r hget
    rcases UseBoard.pending_submitStrokeMessage hget with ⟨hget, -⟩ | ⟨hid, -, -⟩
    · exact h.pending e he r (hpending ▸ hget)
    · exact absurd hid (hout e he)
  have hkey' : ∀ id stroke, OrderedMap.get? (b.submitStrokeMessage event rollback sent).archive id =
      some stroke → stroke.id = id := by
    rw [UseBoard.archive_submitStrokeMessage]
    exact hkey
  cases sent
  · refine ⟨h.proper, hkey', fun id => ?_, h.named, h.distinct, h.apart, hold⟩
    exact UseBoard.shows_submitStrokeMessage.trans (hunsent rfl id)
  · have hlive : (s.submitted (b.submitStrokeMessage event rollback true) (some event) true).live =
        s.live ++ [event] := (List.append_assoc _ _ _).symm
    refine ⟨?_, hkey', fun id => ?_, ?_, ?_, ?_, ?_⟩
    · rw [hlive]
      intro e he
      rcases List.mem_append.mp he with he | he
      · exact h.proper e he
      · rw [List.mem_singleton.mp he]
        exact hproper
    · rw [hlive]
      exact UseBoard.shows_submitStrokeMessage.trans (hsent rfl id)
    · intro e he
      rcases List.mem_append.mp he with he | he
      · exact h.named e he
      · rw [List.mem_singleton.mp he]
        exact hfresh.1
    · show ((s.outstanding ++ [event]).map Stroke.id).Nodup
      rw [List.map_append, List.map_singleton]
      refine List.nodup_append.mpr ⟨h.distinct, List.nodup_singleton _, ?_⟩
      intro id hid id' hid'
      obtain ⟨e, he, rfl⟩ := List.mem_map.mp hid
      rw [List.mem_singleton.mp hid']
      exact hout e he
    · intro e he earlier hearlier
      rcases List.mem_append.mp he with he | he
      · exact h.apart e he earlier hearlier
      · rw [List.mem_singleton.mp he]
        exact hpast earlier hearlier
    · intro e he r hget
      rcases List.mem_append.mp he with he | he
      · exact hold e he r hget
      · obtain rfl := List.mem_singleton.mp he
        rcases UseBoard.pending_submitStrokeMessage hget with ⟨-, hne⟩ | ⟨-, -, rfl⟩
        · exact absurd rfl hne
        · exact htakes

/-- An action that finds no target does nothing. -/
theorem Optimistic.unsubmitted (h : s.Optimistic) {sent : Bool} :
    (s.submitted s.client none sent).Optimistic := by
  have hs : s.submitted s.client none sent = s := by
    unfold submitted
    cases sent
    · rfl
    · simp
  rw [hs]
  exact h

/-- A new id is neither drawn nor undone. -/
theorem Fresh.not_visible {id : String} (h : s.Fresh id) :
    ¬ Drawn s.live id ∧ lastMark s.live id = none := by
  refine ⟨fun ⟨e, he, _, hid⟩ => (h.2 e he).1 hid, ?_⟩
  unfold lastMark
  rw [List.filterMap_eq_nil_iff.mpr ?_]
  · rfl
  · intro e he
    cases ht : target? e with
    | none =>
        unfold mark
        rw [ht]
        cases kind e <;> rfl
    | some target =>
        refine mark_of_target ht fun hid => (h.2 e he).2 ?_
        rw [ht, hid]

/-- A drawing is shown ahead of its commit. -/
theorem optimistic_addStroke (h : s.Optimistic) {stroke : Stroke} {sent : Bool}
    (hk : kind stroke = .stroke) (hfresh : s.Fresh stroke.id) :
    (s.submitted (s.client.addStroke stroke sent) (some stroke) sent).Optimistic := by
  obtain ⟨hdrawn, hmark⟩ := hfresh.not_visible
  have hhidden : ¬ s.client.Shows stroke.id := fun hshows =>
    hdrawn ((h.shows stroke.id).mp hshows).1
  have hnot : ¬ UseBoard.showsStroke s.client.strokes stroke.id = true := fun hshown =>
    hhidden (UseBoard.showsStroke_iff.mp hshown)
  have happly : { s.client with archive := s.client.archive.set stroke.id stroke }.applyStrokeEvent
      stroke = { s.client with
        archive := (s.client.archive.set stroke.id stroke).set stroke.id stroke
        strokes := s.client.strokes ++ [stroke] } := by
    rw [UseBoard.applyStrokeEvent_drawing hk]
    exact if_neg hnot
  have hshows : ∀ id, (∃ shown ∈ s.client.strokes ++ [stroke], shown.id = id) ↔
      s.client.Shows id ∨ stroke.id = id := by
    intro id
    unfold UseBoard.Shows
    grind
  unfold UseBoard.addStroke
  rw [happly]
  have htakes : UseBoard.TakesBack stroke (.addStroke stroke.id) := ⟨hk, rfl⟩
  refine h.submit (Or.inl hk) hfresh htakes rfl ?_ (fun _ id => ?_) (fun _ id => ?_)
  · intro id shown hget
    by_cases hid : id = stroke.id
    · subst hid
      rw [OrderedMap.get?_set_self] at hget
      rw [← Option.some.inj hget]
    · rw [OrderedMap.get?_set_ne _ _ hid, OrderedMap.get?_set_ne _ _ hid] at hget
      exact h.key id shown hget
  · refine (hshows id).trans ?_
    rw [visible_append_singleton, mark_of_drawing hk, h.shows]
    have hmark' : stroke.id = id → lastMark s.live id = none := fun hid => hid ▸ hmark
    have hid : BoardEvent.id stroke = stroke.id := rfl
    grind
  · rw [UseBoard.shows_rollBack htakes]
    have hid : id = stroke.id → ¬ Visible s.live id := fun hid hv => hdrawn (hid ▸ hv.1)
    have hshown := hshows id
    have hbefore := h.shows id
    have hb : UseBoard.Shows { s.client with
        archive := (s.client.archive.set stroke.id stroke).set stroke.id stroke
        strokes := s.client.strokes ++ [stroke]
        redoStrokeIds := [] } id ↔ _ := hshown
    simp only [hk, true_and, reduceCtorEq, false_and, or_false]
    grind

/-- So is an undo. -/
theorem optimistic_undoLastStroke (h : s.Optimistic) {stamp : UseBoard.Stamp} {sent : Bool}
    (hfresh : s.Fresh stamp.id) :
    (s.submitted (s.client.undoLastStroke s.session stamp sent).1
      (s.client.undoLastStroke s.session stamp sent).2 sent).Optimistic := by
  unfold UseBoard.undoLastStroke
  split
  · exact h.unsubmitted
  · next target stroke htarget =>
      obtain ⟨hlast, hne, hget⟩ := UseBoard.targetOf_eq_some htarget
      have hvisible : Visible s.live target := by
        refine (h.shows target).mp ?_
        obtain ⟨shown, hshown, hid⟩ := List.mem_map.mp (List.mem_of_getLast? hlast)
        exact ⟨shown, List.mem_of_mem_filter hshown, hid⟩
      have hk : kind (UseBoard.pointer s.session stamp .undoStroke target) = .undoStroke := rfl
      have ht := UseBoard.target_pointer s.session stamp .undoStroke hne
      have htakes : UseBoard.TakesBack (UseBoard.pointer s.session stamp .undoStroke target)
          (.undoStroke target stroke) := ⟨hk, ht, h.key target stroke hget⟩
      have hshows : ∀ id, (∃ shown ∈ UseBoard.dropStroke s.client.strokes target, shown.id = id) ↔
          Visible s.live id ∧ id ≠ target := fun id =>
        UseBoard.shows_dropStroke.trans (and_congr_left fun _ => h.shows id)
      dsimp only
      rw [UseBoard.applyStrokeEvent_undo hk ht]
      refine h.submit (Or.inr (by rw [ht]; rfl)) hfresh htakes rfl h.key (fun _ id => ?_)
        (fun _ id => ?_)
      · refine (hshows id).trans ?_
        rw [visible_append_singleton, mark_of_undo hk ht, hk]
        grind
      · rw [UseBoard.shows_rollBack htakes, hk, ht]
        have hb : UseBoard.Shows { s.client with
            strokes := UseBoard.dropStroke s.client.strokes target
            redoStrokeIds := s.client.redoStrokeIds ++ [target] } id ↔ _ := hshows id
        rw [hb]
        grind

/-- So is a redo. -/
theorem optimistic_redoLastStroke (h : s.Optimistic) {stamp : UseBoard.Stamp} {sent : Bool}
    (hfresh : s.Fresh stamp.id) (hturn : s.InTurn (.redoLastStroke stamp sent)) :
    (s.submitted (s.client.redoLastStroke s.session stamp sent).1
      (s.client.redoLastStroke s.session stamp sent).2 sent).Optimistic := by
  unfold UseBoard.redoLastStroke
  split
  · exact h.unsubmitted
  · next target stroke htarget =>
      obtain ⟨-, hne, hget⟩ := UseBoard.targetOf_eq_some htarget
      have hturn := hturn target stroke htarget
      have hk : kind (UseBoard.pointer s.session stamp .redoStroke target) = .redoStroke := rfl
      have ht := UseBoard.target_pointer s.session stamp .redoStroke hne
      have htakes : UseBoard.TakesBack (UseBoard.pointer s.session stamp .redoStroke target)
          (.redoStroke target) := ⟨hk, ht⟩
      have hshows : ∀ id, (s.client.applyStrokeEvent
          (UseBoard.pointer s.session stamp .redoStroke target)).Shows id ↔
            Visible s.live id ∨ id = target := by
        intro id
        rw [UseBoard.applyStrokeEvent_redo hk ht, ← h.shows]
        have hid := h.key target stroke hget
        split
        · next hshown =>
            have hshown : s.client.Shows target := UseBoard.showsStroke_iff.mp hshown
            exact ⟨Or.inl, fun hor => hor.elim (fun hs => hs) fun hid => hid ▸ hshown⟩
        · rw [hget]
          unfold UseBoard.Shows
          grind
      have hframe : (s.client.applyStrokeEvent
          (UseBoard.pointer s.session stamp .redoStroke target)).pending = s.client.pending ∧
          (s.client.applyStrokeEvent
            (UseBoard.pointer s.session stamp .redoStroke target)).archive = s.client.archive := by
        rw [UseBoard.applyStrokeEvent_redo hk ht]
        split
        · exact ⟨rfl, rfl⟩
        · rw [hget]
          exact ⟨rfl, rfl⟩
      refine h.submit (Or.inr (by rw [ht]; rfl)) hfresh htakes hframe.1 ?_ (fun hsent id => ?_)
        (fun hunsent id => ?_)
      · show ∀ id stroke, OrderedMap.get? (s.client.applyStrokeEvent _).archive id = some stroke → _
        rw [hframe.2]
        exact h.key
      · rw [if_pos hsent] at hturn
        refine (hshows id).trans ?_
        rw [visible_append_singleton, mark_of_redo hk ht, hk]
        have hdrawn : Visible s.live id → Drawn s.live id := fun hv => hv.1
        grind
      · rw [hunsent, if_neg Bool.false_ne_true] at hturn
        rw [UseBoard.shows_rollBack htakes, hk, ht]
        have hb : UseBoard.Shows { s.client.applyStrokeEvent
            (UseBoard.pointer s.session stamp .redoStroke target) with
            redoStrokeIds := (s.client.applyStrokeEvent
              (UseBoard.pointer s.session stamp .redoStroke target)).redoStrokeIds.dropLast } id ↔
            _ := hshows id
        rw [hb]
        grind

/-! ## Answers -/

/-- The outstanding events around the answered one. -/
theorem exists_around {k : ℕ} {event : Stroke} (hk : s.outstanding[k]? = some event) :
    ∃ us vs, s.outstanding = us ++ event :: vs ∧ s.outstanding.eraseIdx k = us ++ vs := by
  obtain ⟨hlt, hget⟩ := List.getElem?_eq_some_iff.mp hk
  refine ⟨s.outstanding.take k, s.outstanding.drop (k + 1), ?_, List.eraseIdx_eq_take_drop_succ _ _⟩
  rw [← hget, ← List.drop_eq_getElem_cons hlt, List.take_append_drop]

/-- What was outstanding before the answer and still is. -/
theorem Optimistic.remaining (h : s.Optimistic) {us vs : List Stroke} {event : Stroke}
    (hsplit : s.outstanding = us ++ event :: vs) :
    ((us ++ vs).map Stroke.id).Nodup ∧ ∀ e ∈ us ++ vs, e ∈ s.outstanding ∧ e.id ≠ event.id := by
  have hnodup : (event.id :: (us ++ vs).map Stroke.id).Nodup := by
    refine List.Perm.nodup ?_ h.distinct
    rw [hsplit]
    exact List.Perm.map _ List.perm_middle
  obtain ⟨hnot, hrest⟩ := List.nodup_cons.mp hnodup
  refine ⟨hrest, fun e he => ⟨?_, fun hid => hnot (hid ▸ List.mem_map_of_mem he)⟩⟩
  rw [hsplit]
  rcases List.mem_append.mp he with hu | hv
  · exact List.mem_append_left _ hu
  · exact List.mem_append_right _ (List.mem_cons_of_mem _ hv)

/-- A commit in turn changes nothing for the client. -/
theorem optimistic_commit (h : s.Optimistic) {k : ℕ} {event : Stroke}
    (hk : s.outstanding[k]? = some event) (hturn : s.InTurn (.commit k)) :
    Optimistic { s with
      committed := s.committed ++ [event]
      outstanding := s.outstanding.eraseIdx k } := by
  obtain ⟨us, vs, hsplit, herase⟩ := exists_around hk
  obtain ⟨hnodup, hremaining⟩ := h.remaining hsplit
  have hturn : ∀ id, lastMark (us ++ vs) id ≠ none →
      lastMark (us ++ vs) id = lastMark (us ++ event :: vs) id := by
    have hlast : ∀ id, lastMark (s.outstanding.eraseIdx k) id ≠ none →
        lastMark (s.outstanding.eraseIdx k) id = lastMark s.outstanding id := hturn
    rwa [herase, hsplit] at hlast
  rw [herase]
  have hperm : (s.history ++ (s.committed ++ [event]) ++ (us ++ vs)).Perm s.live := by
    unfold live
    rw [hsplit, ← List.append_assoc s.history, List.append_assoc (s.history ++ s.committed),
      List.singleton_append]
    exact List.Perm.append_left _ List.perm_middle.symm
  have hvisible : ∀ id, Visible (s.history ++ (s.committed ++ [event]) ++ (us ++ vs)) id ↔
      Visible s.live id := by
    intro id
    have hdrawn : Drawn (s.history ++ (s.committed ++ [event]) ++ (us ++ vs)) id ↔
        Drawn s.live id := by
      unfold Drawn
      simp only [hperm.mem_iff]
    have hlast : lastMark (s.history ++ (s.committed ++ [event]) ++ (us ++ vs)) id =
        lastMark s.live id := by
      have hturn := hturn id
      unfold live
      rw [hsplit]
      simp only [lastMark_append, lastMark_cons, lastMark_nil, Option.none_or] at hturn ⊢
      generalize lastMark vs id = later, lastMark us id = sooner, mark id event = said at hturn ⊢
      cases later <;> cases sooner <;> cases said <;> simp_all
    unfold Visible
    rw [hdrawn, hlast]
  refine ⟨fun e he => h.proper e (hperm.mem_iff.mp he), h.key,
    fun id => (h.shows id).trans (hvisible id).symm, fun e he => h.named e (hremaining e he).1,
    hnodup, fun e he earlier hearlier => ?_, fun e he => h.pending e (hremaining e he).1⟩
  rw [← List.append_assoc] at hearlier
  rcases List.mem_append.mp hearlier with hold | hnew
  · exact h.apart e (hremaining e he).1 earlier hold
  · rw [List.mem_singleton.mp hnew]
    exact (hremaining e he).2.symm

/-- The client after a refusal, whether it still has a rollback for it or not. -/
theorem handleMessage_refusal (h : s.Optimistic) {event : Stroke} (hmem : event ∈ s.outstanding)
    (refusal : Refusal) :
    s.client.handleMessage (refusal.message event) =
      if refusal = .raftWriteFailed then s.client.runPendingRollback event.id else s.client := by
  have hid : (some event.id).filter (· ≠ "") = some event.id := by
    simp [h.named event hmem]
  cases refusal
  · unfold UseBoard.handleMessage Refusal.message
    dsimp only
    rw [hid]
    rfl
  · unfold UseBoard.handleMessage Refusal.message
    dsimp only
    rw [hid]
    rfl

/-- What the client shows after a refusal is what the events that remain show. -/
theorem Optimistic.shows_refuse (h : s.Optimistic) {k : ℕ} {event : Stroke}
    (hk : s.outstanding[k]? = some event) {refusal : Refusal}
    (hturn : s.InTurn (.refuse k refusal)) (id : String) :
    (s.client.handleMessage (refusal.message event)).Shows id ↔ Visible (s.others k) id := by
  have hmem := List.mem_of_getElem? hk
  have hproper : Proper event := h.proper event (List.mem_append_right _ hmem)
  obtain ⟨us, vs, hsplit, herase⟩ := exists_around hk
  obtain ⟨-, hremaining⟩ := h.remaining hsplit
  obtain ⟨hback, hforward⟩ := hturn event hk
  have hlive : s.live = (s.history ++ s.committed ++ us) ++ event :: vs := by
    unfold live
    rw [hsplit, List.append_assoc _ us]
  have hothers : s.others k = (s.history ++ s.committed ++ us) ++ vs := by
    unfold others
    rw [herase, List.append_assoc _ us]
  -- no other event has the id of this one
  have halone : ¬ Drawn (s.others k) event.id := by
    rintro ⟨e, he, -, hid⟩
    rcases List.mem_append.mp he with hpast | hout
    · exact h.apart event hmem e hpast hid
    · exact (hremaining e (herase ▸ hout)).2 hid
  have haside : mark id event = none → ¬ (kind event = .stroke ∧ event.id = id) →
      (Visible s.live id ↔ Visible (s.others k) id) := fun hmark hdraw => by
    rw [hlive, hothers]
    exact visible_middle hmark hdraw
  rw [handleMessage_refusal h hmem]
  by_cases hrolls : s.RollsBack event refusal
  · have hback := hback hrolls
    obtain ⟨hrefusal, hrollback⟩ := hrolls
    have hdrawing : kind event = .stroke →
        (s.client.Shows id ∧ id ≠ event.id ↔ Visible (s.others k) id) := by
      intro hkind
      rw [h.shows]
      by_cases hid : id = event.id
      · subst hid
        exact ⟨fun hv => absurd rfl hv.2, fun hv => absurd hv.1 halone⟩
      · rw [haside (mark_of_drawing hkind id) fun hd => hid hd.2.symm]
        exact and_iff_left hid
    rw [if_pos hrefusal]
    cases hpending : OrderedMap.get? s.client.pending event.id with
    | none =>
        rw [hpending] at hrollback
        rw [UseBoard.runPendingRollback_none hpending]
        have hkind : kind event = .stroke := hrollback.resolve_right Bool.false_ne_true
        exact UseBoard.shows_dropStroke.trans (hdrawing hkind)
    | some rollback =>
        have hclear : (s.client.clearPending event.id).Shows id ↔ s.client.Shows id := Iff.rfl
        rw [UseBoard.runPendingRollback_some hpending,
          UseBoard.shows_rollBack (h.pending event hmem rollback hpending), hclear]
        cases hkind : kind event with
        | stroke => simpa using hdrawing hkind
        | undoStroke =>
            obtain ⟨target, ht⟩ := hproper.exists_target (by simp [hkind])
            have htarget := (hback target ht).1 hkind
            rw [h.shows, ht]
            by_cases hid : id = target
            · subst hid
              simp [htarget]
            · rw [haside (mark_of_target ht hid) fun hd => by simp [hkind] at hd]
              simp [Ne.symm hid]
        | redoStroke =>
            obtain ⟨target, ht⟩ := hproper.exists_target (by simp [hkind])
            have htarget := (hback target ht).2 hkind
            rw [h.shows, ht]
            by_cases hid : id = target
            · subst hid
              simp [htarget]
            · rw [haside (mark_of_target ht hid) fun hd => by simp [hkind] at hd]
              simp [Ne.symm hid]
  · have hsame := hforward hrolls
    by_cases hrefusal : refusal = .raftWriteFailed
    · have hpending : OrderedMap.get? s.client.pending event.id = none := by
        rw [← Option.not_isSome_iff_eq_none]
        exact fun hsome => hrolls ⟨hrefusal, Or.inr hsome⟩
      rw [if_pos hrefusal, UseBoard.runPendingRollback_none hpending]
      refine UseBoard.shows_dropStroke.trans ?_
      have hshows : s.client.Shows id ↔ Visible (s.others k) id :=
        (h.shows id).trans (hsame id).symm
      refine (and_congr_left fun _ => hshows).trans (and_iff_left_of_imp ?_)
      rintro ⟨hdrawn, -⟩ rfl
      exact halone hdrawn
    · rw [if_neg hrefusal]
      exact (h.shows id).trans (hsame id).symm

/-- A refusal takes back what was shown. -/
theorem optimistic_refuse (h : s.Optimistic) {k : ℕ} {event : Stroke}
    (hk : s.outstanding[k]? = some event) {refusal : Refusal}
    (hturn : s.InTurn (.refuse k refusal)) :
    Optimistic { s with
      client := s.client.handleMessage (refusal.message event)
      outstanding := s.outstanding.eraseIdx k } := by
  have hmem := List.mem_of_getElem? hk
  obtain ⟨us, vs, hsplit, herase⟩ := exists_around hk
  obtain ⟨hnodup, hremaining⟩ := h.remaining hsplit
  have hrest : ∀ e ∈ s.outstanding.eraseIdx k, e ∈ s.outstanding ∧ e.id ≠ event.id :=
    herase ▸ hremaining
  have hclient := handleMessage_refusal h hmem refusal
  refine ⟨fun e he => ?_, ?_, h.shows_refuse hk hturn, fun e he => h.named e (hrest e he).1,
    herase ▸ hnodup, fun e he => h.apart e (hrest e he).1, fun e he rollback hget => ?_⟩
  · rcases List.mem_append.mp he with hpast | hout
    · exact h.proper e (List.mem_append_left _ hpast)
    · exact h.proper e (List.mem_append_right _ (hrest e hout).1)
  · show ∀ id stroke,
      OrderedMap.get? (s.client.handleMessage (refusal.message event)).archive id = some stroke → _
    rw [hclient]
    split
    · rw [UseBoard.archive_runPendingRollback]
      exact h.key
    · exact h.key
  · have hget : OrderedMap.get? (s.client.handleMessage (refusal.message event)).pending e.id =
        some rollback := hget
    rw [hclient] at hget
    refine h.pending e (hrest e he).1 rollback ?_
    split at hget
    · rwa [UseBoard.pending_runPendingRollback, OrderedMap.get?_erase_ne _ (hrest e he).2] at hget
    · exact hget

/-- A rollback that expires is one that is needed no more. -/
theorem optimistic_expire (h : s.Optimistic) (strokeId : String) :
    Optimistic { s with client := s.client.expirePending strokeId } := by
  refine ⟨h.proper, h.key, h.shows, h.named, h.distinct, h.apart, fun e he rollback hget => ?_⟩
  have hget : OrderedMap.get? (s.client.pending.erase strokeId) e.id = some rollback := hget
  by_cases hid : e.id = strokeId
  · rw [hid, OrderedMap.get?_erase_self] at hget
    cases hget
  · rw [OrderedMap.get?_erase_ne _ hid] at hget
    exact h.pending e he rollback hget

/-! ## Runs -/

/-- Every event that comes in turn. -/
theorem optimistic_next {e : Event} (h : s.Optimistic) (hdraw : s.Draws e) (hturn : s.InTurn e)
    (hnext : s.next e = some s') : s'.Optimistic := by
  cases e with
  | addStroke stroke sent =>
      cases hnext
      exact optimistic_addStroke h hdraw.1 hdraw.2
  | undoLastStroke stamp sent =>
      cases hnext
      exact optimistic_undoLastStroke h hdraw
  | redoLastStroke stamp sent =>
      cases hnext
      exact optimistic_redoLastStroke h hdraw hturn
  | commit k =>
      unfold next at hnext
      dsimp only at hnext
      split at hnext
      · next hk =>
          cases hnext
          exact optimistic_commit h hk hturn
      · cases hnext
  | refuse k refusal =>
      unfold next at hnext
      dsimp only at hnext
      split at hnext
      · next hk =>
          cases hnext
          exact optimistic_refuse h hk hturn
      · cases hnext
  | expire strokeId =>
      cases hnext
      exact optimistic_expire h strokeId

/-- **Optimistic edits converge** when every event takes its turn: with nothing outstanding
the client shows what the board shows. -/
theorem optimistic_edits_converge {s s' : Editing} (hopen : s.Opening)
    (hrun : Runs.Reach next (fun s e => s.Draws e ∧ s.InTurn e) s s')
    (hsettled : s'.outstanding = []) :
    ∀ id, s'.client.Shows id ↔ s'.board.Shows id := by
  have h : s'.Optimistic := hrun.invariant (optimistic_opening hopen) fun _ _ _ h hok hnext =>
    optimistic_next h hok.1 hok.2 hnext
  have hlive : s'.live = s'.history ++ s'.committed := by
    unfold live
    rw [hsettled, List.append_nil]
  have hproper : ∀ event ∈ s'.history ++ s'.committed, Proper event := hlive ▸ h.proper
  intro id
  rw [h.shows, board_eq, BoardState.shows_foldl hproper, hlive]
  rfl

/-- A client that has just joined agrees with the board. -/
theorem opening_joined (b : UseBoard) (session : UseBoard.Session) (history : List Stroke)
    (hproper : ∀ event ∈ history, Proper event) :
    Opening {
      session
      client := b.handleMessage (.joinAck session.boardId
        (history.foldl BoardState.apply (BoardState.empty Stroke)).visible)
      history
      committed := []
      outstanding := [] } := by
  obtain ⟨hfiled, -⟩ := UseBoard.joined b session.boardId fun stroke hmem =>
    (BoardState.visible_foldl hproper hmem).2
  exact ⟨hproper, rfl, rfl, hfiled.key, fun _ => Iff.rfl⟩

/-- A client that has joined an empty board. -/
def blank : Editing where
  session := ⟨"b", "user"⟩
  client := UseBoard.mounted.handleMessage (.joinAck "b" [])
  history := []
  committed := []
  outstanding := []

/-- A stroke is drawn and undone; the undo fails, the stroke is committed. -/
def takenBack : List Event :=
  [.addStroke (.dot "x" "b") true, .undoLastStroke ⟨"u", .zero⟩ true,
    .refuse 1 .raftWriteFailed, .commit 0]

/-- The stroke is back. -/
def restored : Editing where
  session := ⟨"b", "user"⟩
  client :=
    { strokes := [.dot "x" "b"]
      users := []
      redoStrokeIds := []
      archive := [("x", .dot "x" "b")]
      pending := [("x", .addStroke "x")] }
  history := []
  committed := [.dot "x" "b"]
  outstanding := []

/-- A stroke is drawn and answered with `RATE_LIMITED`. -/
def limited : List Event := [.addStroke (.dot "x" "b") true, .refuse 0 .rateLimited]

/-- A drawing that was refused is taken back. -/
theorem optimistic_edits_converge_takenBack : Runs.exec next blank takenBack = some restored ∧
    ∀ id, restored.client.Shows id ↔ restored.board.Shows id := by
  have hrun : Runs.exec next blank takenBack = some restored := rfl
  have hopen : blank.Opening := opening_joined .mounted _ [] fun _ hmem => (by cases hmem)
  refine ⟨hrun, optimistic_edits_converge hopen (Runs.Reach.of_exec hrun ?_) rfl⟩
  refine .cons ⟨⟨rfl, by decide, by decide⟩, trivial⟩ rfl
    (.cons ⟨⟨by decide, by decide⟩, trivial⟩ rfl
    (.cons ⟨trivial, ?_⟩ rfl (.cons ⟨trivial, ?_⟩ rfl .nil)))
  · intro event hk
    cases hk
    refine ⟨fun _ target ht => ?_, fun hnot => absurd ⟨rfl, Or.inr rfl⟩ hnot⟩
    obtain rfl : "x" = target := Option.some.inj ht
    exact ⟨fun _ => by decide, fun hk => absurd hk (by decide)⟩
  · intro id hne
    exact absurd rfl hne

/-- The client keeps showing a stroke that was never committed. -/
theorem optimistic_edits_diverge :
    ¬ ∀ s s' : Editing, s.Opening → Runs.Reach next Draws s s' → s'.outstanding = [] →
      ∀ id, s'.client.Shows id ↔ s'.board.Shows id := by
  intro h
  have hrun : Runs.exec next blank limited = some _ := rfl
  have hok : Runs.ExecOk next Draws blank limited :=
    .cons ⟨rfl, by decide, by decide⟩ rfl (.cons trivial rfl .nil)
  have hopen : blank.Opening := opening_joined .mounted _ [] fun _ hmem => (by cases hmem)
  obtain ⟨stroke, hmem, -⟩ := (h _ _ hopen (Runs.Reach.of_exec hrun hok) rfl "x").mp
    ⟨.dot "x" "b", by decide, rfl⟩
  have hmem : stroke ∈ ([] : List Stroke) := hmem
  cases hmem

end Editing

end QuorumCanvas
