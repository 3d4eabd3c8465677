import QuorumCanvas.OptimisticEdits
import QuorumCanvas.Runs

/-!
# Drawing the canvas incrementally

The effect of `Canvas` clears the canvas only when the array of strokes has got
shorter.  Otherwise it draws the strokes past those it has drawn, whatever
became of the latter.  The canvas shows what a full redraw would show as long as
every array that is not shorter still begins with what is on the canvas
(`redraw_exact`).

One update of `useBoard` at a time is drawn right, except for `join_ack` and an
undo that cannot be sent (`drawn_one_by_one`).
-/

namespace QuorumCanvas

/-- The canvas, its ref, and what it was last given. -/
structure Canvas where
  /-- The strokes drawn since the canvas was last cleared. -/
  drawn : List Stroke
  /-- `lastDrawnCountRef` -/
  lastDrawnCount : ℕ
  /-- The strokes of the last render. -/
  strokes : List Stroke
  deriving DecidableEq

namespace Canvas

/-- A canvas that was just mounted. -/
def mounted : Canvas := ⟨[], 0, []⟩

/-- A stroke of less than two points leaves nothing on the canvas. -/
def drawStroke (drawn : List Stroke) (stroke : Stroke) : List Stroke :=
  if stroke.points.length < 2 then drawn else drawn ++ [stroke]

/-- What is on a canvas after it was cleared and the strokes were drawn. -/
def redraw (strokes : List Stroke) : List Stroke := strokes.foldl drawStroke []

/-- A render with the effect that it runs; on an unchanged array the effect, which does not
run then, would draw nothing. -/
def render (c : Canvas) (strokes : List Stroke) : Canvas :=
  if strokes.length < c.lastDrawnCount then ⟨redraw strokes, strokes.length, strokes⟩
  else ⟨(strokes.drop c.lastDrawnCount).foldl drawStroke c.drawn, strokes.length, strokes⟩

/-- One render after the other. -/
def next (c : Canvas) (strokes : List Stroke) : Option Canvas := some (c.render strokes)

/-- The canvas shows what clearing it and drawing the current strokes would show. -/
def UpToDate (c : Canvas) : Prop := c.drawn = redraw c.strokes

/-- The new array is shorter, or it begins with what shows like the last one. -/
def Extends (c : Canvas) (strokes : List Stroke) : Prop :=
  strokes.length < c.strokes.length ∨
    redraw (strokes.take c.strokes.length) = redraw c.strokes

/-! ## The effect -/

/-- Strokes of a single point leave no ink. -/
theorem foldl_drawStroke (drawn strokes : List Stroke) :
    strokes.foldl drawStroke drawn =
      drawn ++ strokes.filter fun stroke => 2 ≤ stroke.points.length := by
  induction strokes generalizing drawn with
  | nil => simp
  | cons stroke strokes ih =>
      rw [List.foldl_cons, ih]
      by_cases h : stroke.points.length < 2
      · simp [drawStroke, h, Nat.not_le.mpr h]
      · simp [drawStroke, h, Nat.not_lt.mp h]

/-- Arrays are redrawn one after the other. -/
theorem redraw_append (strokes strokes' : List Stroke) :
    redraw (strokes ++ strokes') = redraw strokes ++ redraw strokes' := by
  simp [redraw, foldl_drawStroke]

/-- Drawing on is redrawing, behind what is there. -/
theorem foldl_drawStroke_eq (drawn strokes : List Stroke) :
    strokes.foldl drawStroke drawn = drawn ++ redraw strokes := by
  simp [redraw, foldl_drawStroke]

/-- All strokes of the last render were considered, and the canvas is right. -/
structure Current (c : Canvas) : Prop where
  count : c.lastDrawnCount = c.strokes.length
  drawn : c.UpToDate

/-- An empty canvas shows the empty array. -/
theorem current_mounted : mounted.Current := ⟨rfl, rfl⟩

variable {c : Canvas} {strokes : List Stroke}

/-- What one effect leaves right. -/
theorem upToDate_render (h : c.Current) :
    (c.render strokes).UpToDate ↔ c.Extends strokes := by
  have hdrawn : c.drawn = redraw c.strokes := h.drawn
  unfold UpToDate render Extends
  rw [h.count]
  by_cases hlt : strokes.length < c.strokes.length
  · rw [if_pos hlt]
    exact iff_of_true rfl (Or.inl hlt)
  · rw [if_neg hlt]
    have hsplit : redraw strokes = redraw (strokes.take c.strokes.length) ++
        redraw (strokes.drop c.strokes.length) := by
      rw [← redraw_append, List.take_append_drop]
    show List.foldl _ _ _ = redraw strokes ↔ _
    rw [foldl_drawStroke_eq, hdrawn, hsplit, List.append_left_inj, or_iff_right hlt]
    exact eq_comm

@[simp] theorem strokes_render (c : Canvas) (strokes : List Stroke) :
    (c.render strokes).strokes = strokes := by
  unfold render
  split <;> rfl

/-- It counts what it was given. -/
theorem count_render (c : Canvas) (strokes : List Stroke) :
    (c.render strokes).lastDrawnCount = (c.render strokes).strokes.length := by
  unfold render
  split <;> rfl

/-- An extension is drawn right. -/
theorem current_render (h : c.Current) (hext : c.Extends strokes) :
    (c.render strokes).Current :=
  ⟨count_render c strokes, (upToDate_render h).mpr hext⟩

/-- Renders, one after the other. -/
theorem exec_next (c : Canvas) (arrays : List (List Stroke)) :
    Runs.exec next c arrays = some (arrays.foldl render c) := by
  induction arrays generalizing c with
  | nil => rfl
  | cons strokes arrays ih => exact ih (c.render strokes)

/-- **Incremental drawing is right exactly as long as the arrays grow or shrink.** -/
theorem redraw_exact (arrays : List (List Stroke)) :
    Runs.Always next UpToDate mounted arrays ↔ Runs.ExecOk next Extends mounted arrays := by
  apply Runs.always_iff_execOk (I := Current) (E := fun _ => True) (fun _ h => h.drawn)
  · intro c strokes c' hc _ hext hnext
    obtain rfl := Option.some.inj hnext
    exact current_render hc hext
  · intro c strokes c' hc _ hext hnext hdrawn
    obtain rfl := Option.some.inj hnext
    exact hext ((upToDate_render hc).mp hdrawn)
  · exact fun _ _ => trivial
  · exact current_mounted
  · exact exec_next mounted arrays

/-- A stroke of two points. -/
def line (id : String) : Stroke :=
  { Stroke.dot id "board" with points := [(.zero, .zero), (.one, .one)] }

/-- The board is joined again after its one stroke was undone and another one drawn: the
canvas keeps showing the stroke undone. -/
theorem stale_canvas :
    let joined := UseBoard.mounted.handleMessage (.joinAck "board" [line "x"])
    let rejoined := joined.handleMessage (.joinAck "board" [line "y"])
    ((mounted.render joined.strokes).render rejoined.strokes).drawn = [line "x"] ∧
      rejoined.strokes = [line "y"] ∧
      ¬ Runs.Always next UpToDate mounted [joined.strokes, rejoined.strokes] := by
  refine ⟨by decide, by decide, ?_⟩
  intro h
  have hlast := h.last (exec_next mounted _)
  exact absurd hlast (by unfold UpToDate; decide)

end Canvas

/-! ## What `useBoard` renders -/

namespace UseBoard

/-- The new array is shorter, or it begins with the old one. -/
def GrowsOrShrinks (strokes strokes' : List Stroke) : Prop :=
  strokes'.length < strokes.length ∨ strokes <+: strokes'

/-- An array that stays grows by nothing. -/
theorem growsOrShrinks_refl (strokes : List Stroke) : GrowsOrShrinks strokes strokes :=
  Or.inr (List.prefix_refl strokes)

/-- Strokes may be added at the end. -/
theorem growsOrShrinks_append (strokes strokes' : List Stroke) :
    GrowsOrShrinks strokes (strokes ++ strokes') := Or.inr (List.prefix_append strokes strokes')

/-- Strokes may be taken out. -/
theorem growsOrShrinks_dropStroke (strokes : List Stroke) (strokeId : String) :
    GrowsOrShrinks strokes (dropStroke strokes strokeId) := by
  have hsub : (dropStroke strokes strokeId).Sublist strokes := List.filter_sublist
  rcases Nat.lt_or_ge (dropStroke strokes strokeId).length strokes.length with hlt | hge
  · exact Or.inl hlt
  · rw [hsub.eq_of_length_le hge]
    exact growsOrShrinks_refl strokes

/-- Either is an extension for the canvas. -/
theorem GrowsOrShrinks.extends {c : Canvas} {strokes : List Stroke}
    (h : GrowsOrShrinks c.strokes strokes) : c.Extends strokes := by
  rcases h with hlt | hprefix
  · exact Or.inl hlt
  · obtain ⟨rest, rfl⟩ := hprefix
    refine Or.inr ?_
    rw [List.take_left']
    rfl

variable (b : UseBoard)

/-- An event adds a stroke or takes one out. -/
theorem growsOrShrinks_applyStrokeEvent (event : Stroke) :
    GrowsOrShrinks b.strokes (b.applyStrokeEvent event).strokes := by
  unfold applyStrokeEvent
  split
  · exact growsOrShrinks_dropStroke _ _
  · split
    · exact growsOrShrinks_refl _
    · split
      · exact growsOrShrinks_append _ _
      · exact growsOrShrinks_refl _
  · split
    · exact growsOrShrinks_refl _
    · exact growsOrShrinks_append _ _

/-- A rollback does. -/
theorem growsOrShrinks_rollBack (rollback : Rollback) :
    GrowsOrShrinks b.strokes (b.rollBack rollback).strokes := by
  cases rollback with
  | addStroke strokeId => exact growsOrShrinks_dropStroke _ _
  | undoStroke targetStrokeId targetStroke =>
      unfold rollBack
      dsimp only
      split
      · exact growsOrShrinks_refl _
      · exact growsOrShrinks_append _ _
  | redoStroke targetStrokeId => exact growsOrShrinks_dropStroke _ _

/-- So does one that is pending. -/
theorem growsOrShrinks_runPendingRollback (strokeId : String) :
    GrowsOrShrinks b.strokes (b.runPendingRollback strokeId).strokes := by
  cases hget : OrderedMap.get? b.pending strokeId with
  | none =>
      rw [runPendingRollback_none hget]
      exact growsOrShrinks_dropStroke _ _
  | some rollback =>
      rw [runPendingRollback_some hget]
      exact growsOrShrinks_rollBack (b.clearPending strokeId) rollback

/-- What changes the state of the hook between two renders. -/
inductive Update
  | message (message : ServerMessage)
  | addStroke (stroke : Stroke) (sent : Bool)
  | undoLastStroke (session : Session) (stamp : Stamp) (sent : Bool)
  | redoLastStroke (session : Session) (stamp : Stamp) (sent : Bool)
  | expirePending (strokeId : String)

/-- What can happen to the board. -/
def update : Update → UseBoard
  | .message message => b.handleMessage message
  | .addStroke stroke sent => b.addStroke stroke sent
  | .undoLastStroke session stamp sent => (b.undoLastStroke session stamp sent).1
  | .redoLastStroke session stamp sent => (b.redoLastStroke session stamp sent).1
  | .expirePending strokeId => b.expirePending strokeId

/-- The updates that are drawn right: all but an acknowledged join, an undo that is taken
back at once, and an event submitted as a stroke that is none. -/
def Update.Incremental : Update → Prop
  | .message (.joinAck _ _) => False
  | .message _ | .redoLastStroke _ _ _ | .expirePending _ => True
  | .addStroke stroke _ => BoardEvent.kind stroke = .stroke
  | .undoLastStroke _ _ sent => sent = true

/-- A message that is sent changes nothing yet. -/
theorem strokes_submitStrokeMessage (stroke : Stroke) (rollback : Rollback) (sent : Bool) :
    (b.submitStrokeMessage stroke rollback sent).strokes =
      if sent then b.strokes else (b.rollBack rollback).strokes := by
  unfold submitStrokeMessage
  cases sent
  · have hpending : OrderedMap.get? (b.trackPending stroke.id rollback).pending stroke.id =
        some rollback := OrderedMap.get?_set_self _ _ _
    dsimp only
    rw [if_neg Bool.false_ne_true, if_neg Bool.false_ne_true, runPendingRollback_some hpending]
    cases rollback <;> rfl
  · rfl

/-- Dropping what was just appended leaves less than there was, or all of it. -/
theorem growsOrShrinks_dropStroke_append (strokes : List Stroke) (stroke : Stroke)
    {strokeId : String} (h : stroke.id = strokeId ∨ ¬ showsStroke strokes strokeId = true) :
    GrowsOrShrinks strokes (dropStroke (strokes ++ [stroke]) strokeId) := by
  have happend : dropStroke (strokes ++ [stroke]) strokeId =
      dropStroke strokes strokeId ++ dropStroke [stroke] strokeId := List.filter_append ..
  rw [happend]
  rcases h with hid | hhidden
  · have hdropped : dropStroke [stroke] strokeId = [] := by simp [dropStroke, hid]
    rw [hdropped, List.append_nil]
    exact growsOrShrinks_dropStroke strokes strokeId
  · have hkept : dropStroke strokes strokeId = strokes := by
      refine List.filter_eq_self.mpr fun shown hshown => ?_
      refine decide_eq_true fun hid => hhidden ?_
      exact showsStroke_iff.mpr ⟨shown, hshown, hid⟩
    rw [hkept]
    exact growsOrShrinks_append _ _

/-- A drawing is added at the end. -/
theorem growsOrShrinks_addStroke {stroke : Stroke} (hkind : BoardEvent.kind stroke = .stroke)
    (sent : Bool) : GrowsOrShrinks b.strokes (b.addStroke stroke sent).strokes := by
  unfold addStroke
  dsimp only
  rw [strokes_submitStrokeMessage, applyStrokeEvent_drawing hkind]
  cases sent
  · show GrowsOrShrinks b.strokes (dropStroke _ stroke.id)
    split
    · exact growsOrShrinks_dropStroke _ _
    · exact growsOrShrinks_dropStroke_append _ _ (Or.inl rfl)
  · show GrowsOrShrinks b.strokes (ite _ _ _ : UseBoard).strokes
    split
    · exact growsOrShrinks_refl _
    · exact growsOrShrinks_append _ _

/-- An undo takes a stroke out. -/
theorem growsOrShrinks_undoLastStroke (session : Session) (stamp : Stamp) :
    GrowsOrShrinks b.strokes (b.undoLastStroke session stamp true).1.strokes := by
  unfold undoLastStroke
  split
  · exact growsOrShrinks_refl _
  · dsimp only
    rw [strokes_submitStrokeMessage]
    exact growsOrShrinks_applyStrokeEvent b _

/-- A redo adds it at the end. -/
theorem growsOrShrinks_redoLastStroke (session : Session) (stamp : Stamp) (sent : Bool) :
    GrowsOrShrinks b.strokes (b.redoLastStroke session stamp sent).1.strokes := by
  unfold redoLastStroke
  split
  · exact growsOrShrinks_refl _
  · next target stroke htarget =>
      dsimp only
      rw [strokes_submitStrokeMessage]
      cases sent
      · obtain ⟨-, hne, hget⟩ := targetOf_eq_some htarget
        have ht := target_pointer session stamp .redoStroke hne
        rw [applyStrokeEvent_redo rfl ht]
        show GrowsOrShrinks b.strokes (dropStroke _ target)
        split
        · exact growsOrShrinks_dropStroke _ _
        · next hhidden =>
            rw [hget]
            exact growsOrShrinks_dropStroke_append _ _ (Or.inr hhidden)
      · exact growsOrShrinks_applyStrokeEvent b _

/-- So every incremental update grows or shrinks the array. -/
theorem growsOrShrinks_update {u : Update} (h : u.Incremental) :
    GrowsOrShrinks b.strokes (b.update u).strokes := by
  match u with
  | .message (.joinAck _ _) => exact h.elim
  | .message (.strokeBroadcast stroke) => exact growsOrShrinks_applyStrokeEvent b stroke
  | .message (.userJoined _) => exact growsOrShrinks_refl _
  | .message (.userLeft _) => exact growsOrShrinks_refl _
  | .message (.error message code strokeId retryable) =>
      show GrowsOrShrinks b.strokes (b.handleMessage
          (.error message code strokeId retryable)).strokes
      unfold handleMessage
      dsimp only
      split
      · split
        · exact growsOrShrinks_runPendingRollback b _
        · exact growsOrShrinks_refl _
      · exact growsOrShrinks_refl _
  | .addStroke stroke sent => exact growsOrShrinks_addStroke b h sent
  | .undoLastStroke session stamp sent =>
      obtain rfl : sent = true := h
      exact growsOrShrinks_undoLastStroke b session stamp
  | .redoLastStroke session stamp sent => exact growsOrShrinks_redoLastStroke b session stamp sent
  | .expirePending _ => exact growsOrShrinks_refl _

/-- The arrays rendered when every update is rendered by itself. -/
def renders : UseBoard → List Update → List (List Stroke)
  | _, [] => []
  | b, u :: updates => (b.update u).strokes :: renders (b.update u) updates

/-- **Updates rendered one by one are drawn right.** -/
theorem drawn_one_by_one {updates : List Update} (h : ∀ u ∈ updates, u.Incremental) :
    Runs.Always Canvas.next Canvas.UpToDate .mounted (mounted.renders updates) := by
  refine (Canvas.redraw_exact _).mpr ?_
  suffices hrun : ∀ (b : UseBoard) (c : Canvas), c.strokes = b.strokes →
      Runs.ExecOk Canvas.next Canvas.Extends c (b.renders updates) from hrun mounted .mounted rfl
  induction updates with
  | nil => exact fun _ _ _ => .nil
  | cons u updates ih =>
      intro b c hc
      have hgrows := growsOrShrinks_update b (h u List.mem_cons_self)
      rw [← hc] at hgrows
      refine Runs.ExecOk.cons hgrows.extends rfl ?_
      refine ih (fun u hu => h u (List.mem_cons_of_mem _ hu)) (b.update u) _ ?_
      exact Canvas.strokes_render c _

end UseBoard

end QuorumCanvas
