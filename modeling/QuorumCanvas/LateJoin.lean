import Mathlib.Data.List.Nodup
import QuorumCanvas.UseBoard

/-!
# Joining late

A client that joins is sent what the board shows, not its events.  From there on
it follows the board by the same broadcasts, with its archive in place of the
events it never saw.  The two agree exactly when nothing that was hidden at the
join is brought back, and no drawing arrives that had been undone beforehand.
-/

namespace QuorumCanvas

open BoardEvent

namespace UseBoard

variable {b : UseBoard} {event : Stroke} {events : List Stroke} {id : String}

/-- Archived strokes are filed under their ids, and what is shown is archived. -/
structure Filed (b : UseBoard) : Prop where
  key : ∀ id stroke, OrderedMap.get? b.archive id = some stroke → stroke.id = id
  archived : ∀ id, b.Shows id → b.Archived id

/-! ## One broadcast -/

/-- A drawing is shown and archived, unless it is shown already. -/
theorem applyStrokeEvent_drawing (h : kind event = .stroke) :
    b.applyStrokeEvent event =
      if showsStroke b.strokes event.id then b
      else { b with archive := b.archive.set event.id event, strokes := b.strokes ++ [event] } := by
  unfold applyStrokeEvent
  rw [h]

/-- An undo drops its target. -/
theorem applyStrokeEvent_undo {target : String} (h : kind event = .undoStroke)
    (ht : target? event = some target) :
    b.applyStrokeEvent event = { b with strokes := dropStroke b.strokes target } := by
  unfold applyStrokeEvent
  rw [h, ht]

/-- A redo shows what the archive holds for its target. -/
theorem applyStrokeEvent_redo {target : String} (h : kind event = .redoStroke)
    (ht : target? event = some target) :
    b.applyStrokeEvent event =
      if showsStroke b.strokes target then b
      else
        match OrderedMap.get? b.archive target with
        | some stroke => { b with strokes := b.strokes ++ [stroke] }
        | none => b := by
  by_cases hshown : showsStroke b.strokes target
  · simp [applyStrokeEvent, h, ht, hshown]
  · cases harchive : OrderedMap.get? b.archive target <;>
      simp [applyStrokeEvent, h, ht, hshown, harchive]

/-- Only a drawing that is not shown yet is archived. -/
theorem archived_applyStrokeEvent (hproper : Proper event) :
    (b.applyStrokeEvent event).Archived id ↔
      b.Archived id ∨ kind event = .stroke ∧ event.id = id ∧ ¬ b.Shows id := by
  cases hk : kind event with
  | stroke =>
      rw [applyStrokeEvent_drawing hk]
      by_cases hshown : showsStroke b.strokes event.id = true
      · have : b.Shows event.id := showsStroke_iff.mp hshown
        rw [if_pos hshown]
        grind
      · have : ¬ b.Shows event.id := fun h => hshown (showsStroke_iff.mpr h)
        rw [if_neg hshown]
        unfold Archived
        by_cases hid : event.id = id
        · subst hid
          simp [this]
        · rw [OrderedMap.get?_set_ne _ _ (Ne.symm hid)]
          simp [hid]
  | undoStroke =>
      obtain ⟨target, ht⟩ := hproper.exists_target (by simp [hk])
      rw [applyStrokeEvent_undo hk ht]
      simp [Archived]
  | redoStroke =>
      obtain ⟨target, ht⟩ := hproper.exists_target (by simp [hk])
      rw [applyStrokeEvent_redo hk ht]
      split
      · simp
      · split <;> simp [Archived]

/-- What one broadcast does to the ids shown. -/
theorem shows_applyStrokeEvent (hb : b.Filed) (hproper : Proper event) :
    (b.applyStrokeEvent event).Shows id ↔
      mark id event = none ∧ b.Shows id ∨ mark id event = some true ∧ b.Archived id ∨
      kind event = .stroke ∧ event.id = id := by
  have harchived := hb.archived id
  cases hk : kind event with
  | stroke =>
      rw [applyStrokeEvent_drawing hk, mark_of_drawing hk]
      by_cases hshown : showsStroke b.strokes event.id = true
      · have : b.Shows event.id := showsStroke_iff.mp hshown
        rw [if_pos hshown]
        grind
      · rw [if_neg hshown]
        unfold Shows
        grind
  | undoStroke =>
      obtain ⟨target, ht⟩ := hproper.exists_target (by simp [hk])
      rw [applyStrokeEvent_undo hk ht, mark_of_undo hk ht]
      unfold Shows dropStroke
      by_cases hti : target = id
      · simp [hti]
      · simp [hti]
        grind
  | redoStroke =>
      obtain ⟨target, ht⟩ := hproper.exists_target (by simp [hk])
      rw [applyStrokeEvent_redo hk ht, mark_of_redo hk ht]
      have hkey := hb.key target
      by_cases hshown : showsStroke b.strokes target = true
      · have : b.Shows target := showsStroke_iff.mp hshown
        rw [if_pos hshown]
        grind
      · have hnot : ¬ b.Shows target := fun h => hshown (showsStroke_iff.mpr h)
        rw [if_neg hshown]
        unfold Archived
        cases hfound : OrderedMap.get? b.archive target with
        | none => grind
        | some stroke =>
            have := hkey stroke hfound
            unfold Shows
            grind [Shows]

/-- What is shown is in the archive. -/
theorem Filed.applyStrokeEvent (hb : b.Filed) (hproper : Proper event) :
    (b.applyStrokeEvent event).Filed := by
  refine ⟨fun id stroke hget => ?_, fun id hshows => ?_⟩
  · cases hk : kind event with
    | stroke =>
        rw [applyStrokeEvent_drawing hk] at hget
        split at hget
        · exact hb.key id stroke hget
        · by_cases hid : id = event.id
          · subst hid
            rw [OrderedMap.get?_set_self] at hget
            rw [← Option.some.inj hget]
          · rw [OrderedMap.get?_set_ne _ _ hid] at hget
            exact hb.key id stroke hget
    | undoStroke =>
        obtain ⟨target, ht⟩ := hproper.exists_target (by simp [hk])
        rw [applyStrokeEvent_undo hk ht] at hget
        exact hb.key id stroke hget
    | redoStroke =>
        obtain ⟨target, ht⟩ := hproper.exists_target (by simp [hk])
        rw [applyStrokeEvent_redo hk ht] at hget
        split at hget
        · exact hb.key id stroke hget
        · split at hget <;> exact hb.key id stroke hget
  · rw [archived_applyStrokeEvent hproper]
    rcases (shows_applyStrokeEvent hb hproper).mp hshows with ⟨-, hold⟩ | ⟨-, harch⟩ | ⟨hk, hid⟩
    · exact Or.inl (hb.archived id hold)
    · exact Or.inl harch
    · by_cases hshown : b.Shows id
      · exact Or.inl (hb.archived id hshown)
      · exact Or.inr ⟨hk, hid, hshown⟩

/-! ## A stretch of broadcasts -/

/-- After any events, by induction on them. -/
theorem Filed.foldl (hb : b.Filed) (hproper : ∀ event ∈ events, Proper event) :
    (events.foldl UseBoard.applyStrokeEvent b).Filed := by
  induction events generalizing b with
  | nil => exact hb
  | cons event events ih =>
      exact ih (hb.applyStrokeEvent (hproper event List.mem_cons_self)) fun e he =>
        hproper e (List.mem_cons_of_mem _ he)

/-- **A stretch without a drawing of this id:** the last word on the id decides, and a redo
brings back what is archived. -/
theorem shows_foldl_undrawn (hb : b.Filed) (hproper : ∀ event ∈ events, Proper event)
    (hnone : ¬ Drawn events id) :
    ((events.foldl UseBoard.applyStrokeEvent b).Shows id ↔
      lastMark events id = none ∧ b.Shows id ∨ lastMark events id = some true ∧ b.Archived id) ∧
    ((events.foldl UseBoard.applyStrokeEvent b).Archived id ↔ b.Archived id) := by
  induction events generalizing b with
  | nil => simp
  | cons event events ih =>
      have hevent := hproper event List.mem_cons_self
      have hrest : ¬ Drawn events id := fun ⟨e, he, h⟩ => hnone ⟨e, List.mem_cons_of_mem _ he, h⟩
      have hdraw : ¬ (kind event = .stroke ∧ event.id = id) := fun h =>
        hnone ⟨event, List.mem_cons_self, h⟩
      obtain ⟨hshows, harch⟩ := ih (hb.applyStrokeEvent hevent)
        (fun e he => hproper e (List.mem_cons_of_mem _ he)) hrest
      have hone : (b.applyStrokeEvent event).Shows id ↔ _ := shows_applyStrokeEvent hb hevent
      have hone' : (b.applyStrokeEvent event).Archived id ↔ _ := archived_applyStrokeEvent hevent
      rw [List.foldl_cons, hshows, harch, lastMark_cons, hone, hone']
      cases lastMark events id <;> cases mark id event <;> grind

/-- A drawing is shown, and archived, once it has arrived. -/
theorem shows_drawing (hb : b.Filed) (h : kind event = .stroke) :
    (b.applyStrokeEvent event).Shows event.id ∧ (b.applyStrokeEvent event).Archived event.id := by
  have hproper : Proper event := Or.inl h
  have hshows : (b.applyStrokeEvent event).Shows event.id :=
    (shows_applyStrokeEvent hb hproper).mpr (Or.inr (Or.inr ⟨h, rfl⟩))
  exact ⟨hshows, (hb.applyStrokeEvent hproper).archived _ hshows⟩

/-- What is shown or archived meets `P` when the drawings that arrive do. -/
structure Made (P : Stroke → Prop) (b : UseBoard) : Prop where
  strokes : ∀ s ∈ b.strokes, P s
  archive : ∀ id s, OrderedMap.get? b.archive id = some s → P s

/-- Strokes come from drawings. -/
theorem Made.applyStrokeEvent {P : Stroke → Prop} (h : Made P b) (hproper : Proper event)
    (hevent : kind event = .stroke → P event) : Made P (b.applyStrokeEvent event) := by
  cases hk : kind event with
  | stroke =>
      rw [applyStrokeEvent_drawing hk]
      split
      · exact h
      · refine ⟨fun s hs => ?_, fun id s hget => ?_⟩
        · rcases List.mem_append.mp hs with hold | hnew
          · exact h.strokes s hold
          · exact List.mem_singleton.mp hnew ▸ hevent hk
        · by_cases hid : id = event.id
          · subst hid
            rw [OrderedMap.get?_set_self] at hget
            exact Option.some.inj hget ▸ hevent hk
          · rw [OrderedMap.get?_set_ne _ _ hid] at hget
            exact h.archive id s hget
  | undoStroke =>
      obtain ⟨target, ht⟩ := hproper.exists_target (by simp [hk])
      rw [applyStrokeEvent_undo hk ht]
      exact ⟨fun s hs => h.strokes s (List.mem_of_mem_filter hs), h.archive⟩
  | redoStroke =>
      obtain ⟨target, ht⟩ := hproper.exists_target (by simp [hk])
      rw [applyStrokeEvent_redo hk ht]
      split
      · exact h
      · split
        · next stroke hfound =>
            refine ⟨fun s hs => ?_, h.archive⟩
            rcases List.mem_append.mp hs with hold | hnew
            · exact h.strokes s hold
            · exact List.mem_singleton.mp hnew ▸ h.archive _ _ hfound
        · exact h

/-- After any events, by induction on them. -/
theorem Made.foldl {P : Stroke → Prop} (h : Made P b) (hproper : ∀ event ∈ events, Proper event)
    (hevents : ∀ event ∈ events, kind event = .stroke → P event) :
    Made P (events.foldl UseBoard.applyStrokeEvent b) := by
  induction events generalizing b with
  | nil => exact h
  | cons event events ih =>
      exact ih (h.applyStrokeEvent (hproper event List.mem_cons_self)
        (hevents event List.mem_cons_self)) (fun e he => hproper e (List.mem_cons_of_mem _ he))
        fun e he => hevents e (List.mem_cons_of_mem _ he)

/-! ## The join -/

/-- A map built from a list holds strokes of the list. -/
theorem mem_of_foldl_set {strokes : List Stroke} {archive : OrderedMap String Stroke} {s : Stroke}
    (h : OrderedMap.get? (strokes.foldl
      (fun archive stroke => OrderedMap.set archive stroke.id stroke) archive) id = some s) :
    s ∈ strokes ∨ OrderedMap.get? archive id = some s := by
  induction strokes generalizing archive with
  | nil => exact Or.inr h
  | cons s' strokes ih =>
      rcases ih h with hmem | hold
      · exact Or.inl (List.mem_cons_of_mem _ hmem)
      · by_cases hid : id = s'.id
        · subst hid
          rw [OrderedMap.get?_set_self] at hold
          exact Or.inl (Option.some.inj hold ▸ List.mem_cons_self)
        · rw [OrderedMap.get?_set_ne _ _ hid] at hold
          exact Or.inr hold

/-- The archive files strokes under their own ids. -/
theorem key_foldl_set {strokes : List Stroke} {archive : OrderedMap String Stroke}
    (h : ∀ id stroke, OrderedMap.get? archive id = some stroke → stroke.id = id) :
    ∀ id stroke, OrderedMap.get? (strokes.foldl
      (fun archive stroke => OrderedMap.set archive stroke.id stroke) archive) id = some stroke →
        stroke.id = id := by
  induction strokes generalizing archive with
  | nil => exact h
  | cons s strokes ih =>
      refine ih fun id stroke hget => ?_
      by_cases hid : id = s.id
      · subst hid
        rw [OrderedMap.get?_set_self] at hget
        rw [← Option.some.inj hget]
      · rw [OrderedMap.get?_set_ne _ _ hid] at hget
        exact h id stroke hget

/-- It holds the strokes that were put in. -/
theorem isSome_foldl_set {strokes : List Stroke} {archive : OrderedMap String Stroke} :
    (OrderedMap.get? (strokes.foldl
      (fun archive stroke => OrderedMap.set archive stroke.id stroke) archive) id).isSome ↔
      (OrderedMap.get? archive id).isSome ∨ ∃ stroke ∈ strokes, stroke.id = id := by
  induction strokes generalizing archive with
  | nil => simp
  | cons s strokes ih =>
      rw [List.foldl_cons, ih]
      by_cases hid : s.id = id
      · subst hid
        simp
      · rw [OrderedMap.get?_set_ne _ _ (Ne.symm hid)]
        simp [hid]

/-- **A client that has joined** shows what it was sent and has archived just that. -/
theorem joined (b : UseBoard) (boardId : String) {strokes : List Stroke}
    (h : ∀ stroke ∈ strokes, kind stroke = .stroke) :
    (b.handleMessage (.joinAck boardId strokes)).Filed ∧
      ∀ id, (b.handleMessage (.joinAck boardId strokes)).Archived id ↔
        (b.handleMessage (.joinAck boardId strokes)).Shows id := by
  have harch : ∀ id, (b.handleMessage (.joinAck boardId strokes)).Archived id ↔
      (b.handleMessage (.joinAck boardId strokes)).Shows id := by
    intro id
    show (OrderedMap.get? (archiveOf strokes) id).isSome ↔ ∃ stroke ∈ strokes, stroke.id = id
    unfold archiveOf
    rw [List.filter_eq_self.mpr fun s hs => by simpa using h s hs, isSome_foldl_set]
    simp
  exact ⟨⟨key_foldl_set fun _ _ hget => by simp at hget, fun id => (harch id).mpr⟩, harch⟩

end UseBoard

/-! ## Client and replica -/

/-- No two drawings among the events have one id. -/
def DistinctDraws (events : List Stroke) : Prop :=
  ((events.filter fun event => kind event = .stroke).map Stroke.id).Nodup

/-- Drawings of one id are one drawing. -/
theorem DistinctDraws.eq {events : List Stroke} (h : DistinctDraws events) {s s' : Stroke}
    (hs : s ∈ events) (hk : kind s = .stroke) (hs' : s' ∈ events) (hk' : kind s' = .stroke)
    (hid : s.id = s'.id) : s = s' :=
  List.inj_on_of_nodup_map h (List.mem_filter.mpr ⟨hs, by simpa using hk⟩)
    (List.mem_filter.mpr ⟨hs', by simpa using hk'⟩) hid

/-- A drawing has its place among the events. -/
theorem exists_split_of_drawn {events : List Stroke} {id : String} (h : Drawn events id) :
    ∃ us draw vs, events = us ++ draw :: vs ∧ kind draw = .stroke ∧ draw.id = id := by
  obtain ⟨draw, hmem, hk, hid⟩ := h
  obtain ⟨us, vs, rfl⟩ := List.append_of_mem hmem
  exact ⟨us, draw, vs, rfl, hk, hid⟩

/-- A drawing is the only one with its id. -/
theorem DistinctDraws.split {us vs : List Stroke} {draw : Stroke}
    (h : DistinctDraws (us ++ draw :: vs)) (hk : kind draw = .stroke) :
    ¬ Drawn us draw.id ∧ ¬ Drawn vs draw.id := by
  unfold DistinctDraws at h
  rw [List.filter_append, List.filter_cons_of_pos (by simpa using hk), List.map_append,
    List.map_cons] at h
  obtain ⟨-, hright, hdisjoint⟩ := List.nodup_append.mp h
  have hmem : ∀ {events : List Stroke}, Drawn events draw.id →
      draw.id ∈ (events.filter fun e => kind e = .stroke).map Stroke.id := by
    rintro events ⟨e, he, hek, hid⟩
    exact List.mem_map.mpr ⟨e, List.mem_filter.mpr ⟨he, decide_eq_true hek⟩, hid⟩
  refine ⟨fun hd => hdisjoint _ (hmem hd) _ List.mem_cons_self rfl, fun hd => ?_⟩
  exact (List.nodup_cons.mp hright).1 (hmem hd)

/-- What `ys` may not do after a join that follows `xs`: bring back a drawing that was hidden
at the join, or leave one shown that was undone before it was drawn. -/
def Rejoins (xs ys : List Stroke) : Prop :=
  (∀ id, Drawn xs id → lastMark xs id = some false → lastMark ys id ≠ some true) ∧
  ∀ us draw vs, ys = us ++ draw :: vs → kind draw = .stroke →
    lastMark (xs ++ us) draw.id = some false → lastMark vs draw.id ≠ none

/-- The client that joined after `xs` and then received `ys`. -/
def lateJoiner (b : UseBoard) (boardId : String) (xs ys : List Stroke) : UseBoard :=
  (ys.map ServerMessage.strokeBroadcast).foldl UseBoard.handleMessage
    (b.handleMessage (.joinAck boardId ((Boards.replay [] xs).getStrokes boardId)))

section LateJoiner

variable {b : UseBoard} {boardId : String} {xs ys : List Stroke}

/-- The late joiner starts from the answer to its join. -/
theorem lateJoiner_eq : lateJoiner b boardId xs ys = ys.foldl UseBoard.applyStrokeEvent
    (b.handleMessage (.joinAck boardId ((Boards.replay [] xs).getStrokes boardId))) := by
  unfold lateJoiner
  rw [List.foldl_map]
  rfl

/-- The state of the one board that all events are about. -/
theorem board_replay_of_board {events : List Stroke} (hboard : ∀ e ∈ events, e.boardId = boardId) :
    (Boards.replay [] events).board boardId =
      events.foldl BoardState.apply (BoardState.empty Stroke) := by
  have hall : Boards.eventsOf events boardId = events :=
    List.filter_eq_self.mpr fun e he => decide_eq_true (hboard e he)
  rw [Boards.board_replay, hall]
  rfl

/-- **The ids agree** exactly under `Rejoins`. -/
theorem lateJoiner_shows_iff (hboard : ∀ e ∈ xs ++ ys, e.boardId = boardId)
    (hproper : ∀ e ∈ xs ++ ys, Proper e) (hdistinct : DistinctDraws (xs ++ ys)) :
    (∀ id, (lateJoiner b boardId xs ys).Shows id ↔
      ((Boards.replay [] (xs ++ ys)).board boardId).Shows id) ↔ Rejoins xs ys := by
  have hxs : ∀ e ∈ xs, Proper e := fun e he => hproper e (List.mem_append_left _ he)
  have hys : ∀ e ∈ ys, Proper e := fun e he => hproper e (List.mem_append_right _ he)
  have hjoin : ((Boards.replay [] xs).getStrokes boardId) =
      (xs.foldl BoardState.apply (BoardState.empty Stroke)).visible := by
    unfold Boards.getStrokes
    rw [board_replay_of_board fun e he => hboard e (List.mem_append_left _ he)]
  have hdrawings : ∀ s ∈ (xs.foldl BoardState.apply (BoardState.empty Stroke)).visible,
      kind s = .stroke := fun s hs => (BoardState.visible_foldl hxs hs).2
  obtain ⟨hfiled, harch⟩ := UseBoard.joined b boardId hdrawings
  have hstart : ∀ id, (b.handleMessage (.joinAck boardId
      (xs.foldl BoardState.apply (BoardState.empty Stroke)).visible)).Shows id ↔
        Drawn xs id ∧ lastMark xs id ≠ some false := fun id => BoardState.shows_foldl hxs
  rw [lateJoiner_eq, hjoin, board_replay_of_board hboard]
  generalize b.handleMessage (.joinAck boardId
    (xs.foldl BoardState.apply (BoardState.empty Stroke)).visible) = joiner at *
  -- an id that is drawn after the join
  have hlate : ∀ us draw vs, ys = us ++ draw :: vs → kind draw = .stroke →
      ((ys.foldl UseBoard.applyStrokeEvent joiner).Shows draw.id ↔
        lastMark vs draw.id ≠ some false) ∧
      (((xs ++ ys).foldl BoardState.apply (BoardState.empty Stroke)).Shows draw.id ↔
        (lastMark vs draw.id).or (lastMark (xs ++ us) draw.id) ≠ some false) := by
    rintro us draw vs rfl hk
    rw [← List.append_assoc] at hdistinct
    have honly := (hdistinct.split hk).2
    have hus : (us.foldl UseBoard.applyStrokeEvent joiner).Filed :=
      hfiled.foldl fun e he => hys e (List.mem_append_left _ he)
    have hdraw := UseBoard.shows_drawing hus hk
    have hvs := @UseBoard.shows_foldl_undrawn _ _ draw.id (hus.applyStrokeEvent (Or.inl hk))
      (fun e he => hys e (List.mem_append_right _ (List.mem_cons_of_mem _ he))) honly
    constructor
    · rw [List.foldl_append, List.foldl_cons, hvs.1]
      cases lastMark vs draw.id <;> simp [hdraw]
    · rw [BoardState.shows_foldl hproper, ← List.append_assoc, lastMark_append (xs ++ us),
        lastMark_cons, mark_of_drawing hk, Option.or_none]
      refine and_iff_right (drawn_append.mpr (Or.inr ?_))
      exact ⟨draw, List.mem_cons_self, hk, rfl⟩
  -- an id that is not
  have hearly : ∀ id, ¬ Drawn ys id →
      ((ys.foldl UseBoard.applyStrokeEvent joiner).Shows id ↔
        Drawn xs id ∧ lastMark xs id ≠ some false ∧ lastMark ys id ≠ some false) ∧
      (((xs ++ ys).foldl BoardState.apply (BoardState.empty Stroke)).Shows id ↔
        Drawn xs id ∧ (lastMark ys id).or (lastMark xs id) ≠ some false) := by
    intro id hnone
    have hboth := (UseBoard.shows_foldl_undrawn hfiled hys hnone).1
    rw [harch id, hstart id] at hboth
    rw [hboth, BoardState.shows_foldl hproper, lastMark_append, drawn_append]
    constructor
    · cases lastMark ys id with
      | none => simp
      | some said => cases said <;> simp
    · simp [hnone]
  constructor
  · intro hagree
    refine ⟨fun id hdrawn hhidden hredo => ?_, fun us draw vs hsplit hk hhidden hnone => ?_⟩
    · have hundrawn : ¬ Drawn ys id := by
        obtain ⟨us, draw, vs, rfl, hk, rfl⟩ := exists_split_of_drawn hdrawn
        rw [List.append_assoc, List.cons_append] at hdistinct
        exact fun h => (hdistinct.split hk).2 (drawn_append.mpr (Or.inr h))
      obtain ⟨hclient, hreplica⟩ := hearly id hundrawn
      have := hagree id
      rw [hclient, hreplica, hhidden, hredo] at this
      simp [hdrawn] at this
    · obtain ⟨hclient, hreplica⟩ := hlate us draw vs hsplit hk
      have := hagree draw.id
      rw [hclient, hreplica, hhidden, hnone] at this
      simp at this
  · rintro ⟨hback, hundone⟩ id
    by_cases hdrawn : Drawn ys id
    · obtain ⟨us, draw, vs, hsplit, hk, rfl⟩ := exists_split_of_drawn hdrawn
      obtain ⟨hclient, hreplica⟩ := hlate us draw vs hsplit hk
      rw [hclient, hreplica]
      have := hundone us draw vs hsplit hk
      cases hv : lastMark vs draw.id with
      | none =>
          have hnot : lastMark (xs ++ us) draw.id ≠ some false := fun h => this h hv
          simpa using hnot
      | some said => simp
    · obtain ⟨hclient, hreplica⟩ := hearly id hdrawn
      rw [hclient, hreplica]
      have := hback id
      cases hy : lastMark ys id with
      | none => simp
      | some said => cases said <;> grind

/-- **Joining late.**  A client that joined after `xs` and then received `ys` shows exactly
the strokes that the replica shows after `xs ++ ys` if and only if `ys` brings back no
drawing that was hidden at the join, and every drawing of `ys` that had been undone before
it was drawn is undone or redone again afterwards. -/
theorem late_joiner_agrees_iff (b : UseBoard) {boardId : String} {xs ys : List Stroke}
    (hboard : ∀ e ∈ xs ++ ys, e.boardId = boardId) (hproper : ∀ e ∈ xs ++ ys, Proper e)
    (hdistinct : DistinctDraws (xs ++ ys)) :
    (∀ s, s ∈ (lateJoiner b boardId xs ys).strokes ↔
      s ∈ (Boards.replay [] (xs ++ ys)).getStrokes boardId) ↔ Rejoins xs ys := by
  rw [← lateJoiner_shows_iff (b := b) hboard hproper hdistinct]
  have hxs : ∀ e ∈ xs, Proper e := fun e he => hproper e (List.mem_append_left _ he)
  have hjoin : ∀ s ∈ (Boards.replay [] xs).getStrokes boardId, s ∈ xs ∧ kind s = .stroke := by
    unfold Boards.getStrokes
    rw [board_replay_of_board fun e he => hboard e (List.mem_append_left _ he)]
    exact fun s hs => BoardState.visible_foldl hxs hs
  have hreplica : ∀ s ∈ (Boards.replay [] (xs ++ ys)).getStrokes boardId,
      s ∈ xs ++ ys ∧ kind s = .stroke := by
    unfold Boards.getStrokes
    rw [board_replay_of_board hboard]
    exact fun s hs => BoardState.visible_foldl hproper hs
  have hclient : ∀ s ∈ (lateJoiner b boardId xs ys).strokes, s ∈ xs ++ ys ∧ kind s = .stroke := by
    rw [lateJoiner_eq]
    have hstart : UseBoard.Made (fun s => s ∈ xs ++ ys ∧ kind s = .stroke)
        (b.handleMessage (.joinAck boardId ((Boards.replay [] xs).getStrokes boardId))) := by
      refine ⟨fun s hs => ?_, fun id s hget => ?_⟩
      · exact ⟨List.mem_append_left _ (hjoin s hs).1, (hjoin s hs).2⟩
      · rcases UseBoard.mem_of_foldl_set hget with hmem | hnone
        · have hs := List.mem_of_mem_filter hmem
          exact ⟨List.mem_append_left _ (hjoin s hs).1, (hjoin s hs).2⟩
        · simp at hnone
    exact (hstart.foldl (fun e he => hproper e (List.mem_append_right _ he))
      fun e he hk => ⟨List.mem_append_right _ he, hk⟩).strokes
  constructor
  · intro hsame id
    constructor
    · rintro ⟨s, hs, hid⟩
      exact ⟨s, (hsame s).mp hs, hid⟩
    · rintro ⟨s, hs, hid⟩
      exact ⟨s, (hsame s).mpr hs, hid⟩
  · intro hids s
    -- one id, one drawing
    have hone : ∀ s', s' ∈ xs ++ ys ∧ kind s' = .stroke → s ∈ xs ++ ys ∧ kind s = .stroke →
        s'.id = s.id → s' = s := fun s' hs' hs hid =>
      hdistinct.eq hs'.1 hs'.2 hs.1 hs.2 hid
    constructor
    · intro hs
      obtain ⟨s', hs', hid⟩ := (hids s.id).mp ⟨s, hs, rfl⟩
      exact hone s' (hreplica s' hs') (hclient s hs) hid ▸ hs'
    · intro hs
      obtain ⟨s', hs', hid⟩ := (hids s.id).mpr ⟨s, hs, rfl⟩
      exact hone s' (hclient s' hs') (hreplica s hs) hid ▸ hs'

/-- A drawing that was undone before the join, and is redone after it. -/
def undone : List Stroke :=
  [.dot "x" "board", UseBoard.pointer ⟨"board", "user"⟩ ⟨"u", .zero⟩ .undoStroke "x"]

/-- A redo by another user. -/
def redone : List Stroke :=
  [UseBoard.pointer ⟨"board", "user"⟩ ⟨"r", .zero⟩ .redoStroke "x"]

/-- It misses the redo of a stroke that was undone before it joined. -/
theorem late_joiner_agrees_iff_redone :
    (∀ s, s ∈ (lateJoiner .mounted "board" undone redone).strokes ↔
      s ∈ (Boards.replay [] (undone ++ redone)).getStrokes "board") ↔ Rejoins undone redone :=
  late_joiner_agrees_iff .mounted (by decide) (by decide) (by unfold DistinctDraws; decide)

/-- The late joiner does not get the drawing back. -/
theorem late_joiner_misses_redo :
    ¬ ∀ (b : UseBoard) (boardId : String) (xs ys : List Stroke),
      (∀ e ∈ xs ++ ys, e.boardId = boardId) → (∀ e ∈ xs ++ ys, Proper e) →
      DistinctDraws (xs ++ ys) →
      ∀ s, s ∈ (lateJoiner b boardId xs ys).strokes ↔
        s ∈ (Boards.replay [] (xs ++ ys)).getStrokes boardId := by
  intro h
  have hsame := h .mounted "board" undone redone (by decide) (by decide)
    (by unfold DistinctDraws; decide) (.dot "x" "board")
  revert hsame
  decide

end LateJoiner

end QuorumCanvas
