import QuorumCanvas.OptimisticEdits
import QuorumCanvas.Runs

/-!
# Undoing and redoing

One client draws, undoes and redoes ahead of the replicas, which commit its events in the order in
which they were submitted; other clients' events reach it by broadcast while it has nothing
outstanding.  The list that it shows is then the list that the replicas will show, stroke for
stroke and in the same order (`edits_agree`).

Undo takes the client's own strokes from the last to the first, and redo brings them back in the
order in which they were drawn, but on top: after some undos and no more redos the strokes redone
stand behind all the others (`undo_redo`).
-/

namespace QuorumCanvas

open BoardEvent (kind target? Proper Drawn)

/-- A client at work, the board of the replicas, and the client's events not yet committed. -/
structure Desk where
  session : UseBoard.Session
  client : UseBoard
  board : BoardState Stroke
  outstanding : List Stroke

namespace Desk

/-- What the user, the replicas and other clients do. -/
inductive Edit
  | draw (stroke : Stroke)
  | undo (stamp : UseBoard.Stamp)
  | redo (stamp : UseBoard.Stamp)
  /-- the first outstanding event is committed -/
  | commit
  /-- an event of another client is committed and broadcast -/
  | remote (event : Stroke)

/-- The board once all that is outstanding is committed. -/
def ahead (d : Desk) : BoardState Stroke := d.outstanding.foldl BoardState.apply d.board

/-- The client has changed, and has submitted an event, if any. -/
def submit (d : Desk) (client : UseBoard) (event : Option Stroke) : Desk :=
  { d with client, outstanding := d.outstanding ++ event.toList }

/-- One such edit, if it can happen. -/
def next (d : Desk) : Edit → Option Desk
  | .draw stroke => some (d.submit (d.client.addStroke stroke true) (some stroke))
  | .undo stamp =>
      let (client, event) := d.client.undoLastStroke d.session stamp true
      some (d.submit client event)
  | .redo stamp =>
      let (client, event) := d.client.redoLastStroke d.session stamp true
      some (d.submit client event)
  | .commit =>
      match d.outstanding with
      | [] => none
      | event :: rest => some { d with board := d.board.apply event, outstanding := rest }
  | .remote event =>
      some { d with
        client := d.client.handleMessage (.strokeBroadcast event)
        board := d.board.apply event }

/-- An id that no event has named. -/
def Fresh (d : Desk) (id : String) : Prop :=
  ¬ Drawn d.ahead.events id ∧ id ∉ d.ahead.undone ∧ ¬ d.ahead.Shows id

instance (d : Desk) (id : String) : Decidable (d.Fresh id) := by
  unfold Fresh BoardState.Shows
  infer_instance

/-- A drawing has an id of its own, an undo or a redo has a target, and a broadcast finds nothing
outstanding. -/
def Fits (d : Desk) : Edit → Prop
  | .draw stroke => kind stroke = .stroke ∧ d.Fresh stroke.id
  | .remote event =>
      d.outstanding = [] ∧ Proper event ∧ (kind event = .stroke → d.Fresh event.id)
  | .undo _ | .redo _ | .commit => True

/-- The client shows what the board will show, and its archive finds what the board finds. -/
structure Level (d : Desk) : Prop where
  strokes : d.client.strokes = d.ahead.visible
  archive : ∀ id, OrderedMap.get? d.client.archive id = findDrawing d.ahead.events id

variable {d d' : Desk} {event : Stroke} {id target : String}

/-- The drawing is found among the earlier events first. -/
theorem findDrawing_append (events : List Stroke) (event : Stroke) (id : String) :
    findDrawing (events ++ [event]) id = (findDrawing events id).or
      (if kind event = .stroke ∧ event.id = id then some event else none) := by
  unfold findDrawing
  rw [List.find?_append, List.find?_singleton]
  simp only [Bool.decide_and, Bool.and_eq_true, decide_eq_true_eq]
  rfl

/-- An event that is no drawing leaves the drawings as they are. -/
theorem findDrawing_pointer (events : List Stroke) (h : kind event ≠ .stroke) (id : String) :
    findDrawing (events ++ [event]) id = findDrawing events id := by
  rw [findDrawing_append, if_neg (fun hboth => h hboth.1), Option.or_none]

/-- A key that was set, or another. -/
theorem get?_set (m : OrderedMap String Stroke) (k : String) (v : Stroke) (i : String) :
    OrderedMap.get? (m.set k v) i = if k = i then some v else OrderedMap.get? m i := by
  by_cases hid : k = i
  · subst hid
    rw [OrderedMap.get?_set_self, if_pos rfl]
  · rw [OrderedMap.get?_set_ne _ _ (Ne.symm hid), if_neg hid]

/-- An event that is no drawing is not archived. -/
theorem archive_pointer {b : UseBoard} (h : kind event ≠ .stroke)
    (ht : target? event = some target) : (b.applyStrokeEvent event).archive = b.archive := by
  cases hk : kind event with
  | stroke => exact absurd hk h
  | undoStroke => rw [UseBoard.applyStrokeEvent_undo hk ht]
  | redoStroke =>
      rw [UseBoard.applyStrokeEvent_redo hk ht]
      split
      · rfl
      · split <;> rfl

/-- A submitted event is the last to be committed. -/
theorem ahead_submit (d : Desk) (client : UseBoard) (event : Stroke) :
    (d.submit client (some event)).ahead = d.ahead.apply event :=
  List.foldl_concat ..

/-- Nothing was submitted. -/
theorem submit_none (d : Desk) : d.submit d.client none = d := by
  unfold submit
  rw [Option.toList_none, List.append_nil]

/-- What a commit changes. -/
theorem commit_cases (h : d.next .commit = some d') :
    ∃ event rest, d.outstanding = event :: rest ∧
      d' = { d with board := d.board.apply event, outstanding := rest } := by
  cases hout : d.outstanding with
  | nil => simp [next, hout] at h
  | cons event rest => exact ⟨event, rest, rfl, by simpa [next, hout] using h.symm⟩

namespace Level

/-- A fresh drawing. -/
theorem draw (h : d.Level) (hkind : kind event = .stroke) (hfresh : d.Fresh event.id)
    (hahead : d'.ahead = d.ahead.apply event)
    (hstrokes : d'.client.strokes = d.client.strokes ++ [event])
    (harchive : ∀ i, OrderedMap.get? d'.client.archive i =
      if event.id = i then some event else OrderedMap.get? d.client.archive i) : d'.Level := by
  obtain ⟨hdrawn, hundone, -⟩ := hfresh
  constructor
  · rw [hahead, BoardState.apply_drawing hkind, hstrokes, h.strokes]
    exact (if_neg hundone).symm
  · intro i
    rw [hahead, Boards.events_apply, findDrawing_append, harchive]
    by_cases hid : event.id = i
    · subst hid
      have hnone : findDrawing d.ahead.events event.id = none := by
        rw [← Option.not_isSome_iff_eq_none, BoardState.findDrawing_isSome]
        exact hdrawn
      rw [if_pos rfl, hnone, if_pos ⟨hkind, rfl⟩, Option.none_or]
    · rw [if_neg hid, if_neg (fun hboth => hid hboth.2), h.archive, Option.or_none]

/-- An undo or redo, wherever it comes from. -/
theorem point (h : d.Level) (hkind : kind event ≠ .stroke) (ht : target? event = some target)
    (hahead : d'.ahead = d.ahead.apply event)
    (hstrokes : d'.client.strokes = (d.client.applyStrokeEvent event).strokes)
    (harchive : d'.client.archive = d.client.archive) : d'.Level := by
  constructor
  · rw [hahead, hstrokes]
    cases hk : kind event with
    | stroke => exact absurd hk hkind
    | undoStroke =>
        rw [UseBoard.applyStrokeEvent_undo hk ht, BoardState.apply_undo hk ht, ← h.strokes]
        rfl
    | redoStroke =>
        rw [UseBoard.applyStrokeEvent_redo hk ht, BoardState.apply_redo hk ht,
          findDrawing_pointer _ hkind, ← h.archive, ← h.strokes]
        by_cases hshown : UseBoard.showsStroke d.client.strokes target = true
        · exact (congrArg UseBoard.strokes (if_pos hshown)).trans (if_pos hshown).symm
        · refine (congrArg UseBoard.strokes (if_neg hshown)).trans ?_
          refine Eq.trans ?_ (if_neg hshown).symm
          cases OrderedMap.get? d.client.archive target with
          | none => exact (List.append_nil _).symm
          | some stroke => rfl
  · intro i
    rw [hahead, Boards.events_apply, findDrawing_pointer _ hkind, harchive, h.archive]

/-- An undo or redo of the client's own. -/
theorem pointer (h : d.Level) {stamp : UseBoard.Stamp} {action : StrokeAction}
    (hne : target ≠ "") (haction : action ≠ .stroke) {client : UseBoard}
    (hstrokes : client.strokes =
      (d.client.applyStrokeEvent (UseBoard.pointer d.session stamp action target)).strokes)
    (harchive : client.archive =
      (d.client.applyStrokeEvent (UseBoard.pointer d.session stamp action target)).archive) :
    (d.submit client (some (UseBoard.pointer d.session stamp action target))).Level := by
  have ht := UseBoard.target_pointer d.session stamp action hne
  have hkind : kind (UseBoard.pointer d.session stamp action target) ≠ .stroke := haction
  exact h.point hkind ht (ahead_submit ..) hstrokes (harchive.trans (archive_pointer hkind ht))

/-- **One edit.** -/
theorem next (h : d.Level) {e : Edit} (hfits : d.Fits e) (hstep : d.next e = some d') :
    d'.Level := by
  have hfree : ∀ {id}, d.Fresh id → ¬ UseBoard.showsStroke d.client.strokes id = true := by
    intro id hfresh
    rw [UseBoard.showsStroke_iff, h.strokes]
    exact hfresh.2.2
  cases e with
  | draw stroke =>
      obtain rfl := Option.some.inj hstep
      obtain ⟨hkind, hfresh⟩ := hfits
      have hadd := (UseBoard.applyStrokeEvent_drawing (b := { d.client with
        archive := d.client.archive.set stroke.id stroke }) hkind).trans (if_neg (hfree hfresh))
      have hahead := ahead_submit d (d.client.addStroke stroke true) stroke
      apply h.draw hkind hfresh hahead (congrArg UseBoard.strokes hadd)
      intro i
      refine (congrArg (OrderedMap.get? · i) (congrArg UseBoard.archive hadd)).trans ?_
      show OrderedMap.get? ((d.client.archive.set stroke.id stroke).set stroke.id stroke) i = _
      rw [get?_set, get?_set]
      split <;> rfl
  | undo stamp =>
      obtain rfl := Option.some.inj hstep
      show (d.submit (d.client.undoLastStroke d.session stamp true).1
        (d.client.undoLastStroke d.session stamp true).2).Level
      unfold UseBoard.undoLastStroke
      split
      · rwa [submit_none]
      · next htarget =>
        exact h.pointer (UseBoard.targetOf_eq_some htarget).2.1 StrokeAction.noConfusion rfl rfl
  | redo stamp =>
      obtain rfl := Option.some.inj hstep
      show (d.submit (d.client.redoLastStroke d.session stamp true).1
        (d.client.redoLastStroke d.session stamp true).2).Level
      unfold UseBoard.redoLastStroke
      split
      · rwa [submit_none]
      · next htarget =>
        exact h.pointer (UseBoard.targetOf_eq_some htarget).2.1 StrokeAction.noConfusion rfl rfl
  | commit =>
      obtain ⟨event, rest, hout, rfl⟩ := commit_cases hstep
      have hahead :
          ahead { d with board := d.board.apply event, outstanding := rest } = d.ahead := by
        unfold ahead
        rw [hout, List.foldl_cons]
      exact ⟨hahead ▸ h.strokes, hahead ▸ h.archive⟩
  | remote event =>
      obtain rfl := Option.some.inj hstep
      obtain ⟨hout, hproper, hfresh⟩ := hfits
      have hahead : ahead { d with
          client := d.client.handleMessage (.strokeBroadcast event)
          board := d.board.apply event } = d.ahead.apply event := by
        unfold ahead
        rw [hout]
        rfl
      by_cases hkind : kind event = .stroke
      · have hadd := (UseBoard.applyStrokeEvent_drawing (b := d.client) hkind).trans
          (if_neg (hfree (hfresh hkind)))
        apply h.draw hkind (hfresh hkind) hahead (congrArg UseBoard.strokes hadd)
        intro i
        refine (congrArg (OrderedMap.get? · i) (congrArg UseBoard.archive hadd)).trans ?_
        exact get?_set _ _ _ _
      · obtain ⟨target, ht⟩ := hproper.exists_target hkind
        exact h.point hkind ht hahead rfl (archive_pointer hkind ht)

end Level

/-- **The client and the replicas show one list**: at any moment the client shows what the board
will show once all that is outstanding is committed, the same strokes in the same order. -/
theorem edits_agree (h : d.Level) (hrun : Runs.Reach next Fits d d') :
    d'.client.strokes = d'.ahead.visible ∧
      (d'.outstanding = [] → d'.client.strokes = d'.board.visible) := by
  have hlevel := hrun.invariant h fun _ _ _ hlevel hfits hstep => hlevel.next hfits hstep
  refine ⟨hlevel.strokes, fun hout => hlevel.strokes.trans ?_⟩
  unfold ahead
  rw [hout, List.foldl_nil]

/-- A client that has just joined an empty board. -/
def joined : Desk where
  session := ⟨"board", "user"⟩
  client := .mounted
  board := .empty Stroke
  outstanding := []

/-- A client that has just joined is level. -/
theorem level_joined : joined.Level := ⟨rfl, fun _ => rfl⟩

/-- A time that does not matter. -/
def stamped (id : String) : UseBoard.Stamp := ⟨id, .zero⟩

/-- Two drawings, the second of them undone; another client's drawing comes before the redo. -/
def together : List Edit :=
  [.draw (.dot "a" "board"), .draw (.dot "b" "board"), .commit, .undo (stamped "c"), .commit,
    .commit, .remote (.dot "d" "board"), .redo (stamped "e")]

/-- An undo and a redo around the drawing of another client. -/
theorem edits_agree_together : ∃ d', Runs.exec next joined together = some d' ∧
    d'.client.strokes.map Stroke.id = ["a", "d", "b"] ∧
    d'.client.strokes = d'.ahead.visible ∧
      (d'.outstanding = [] → d'.client.strokes = d'.board.visible) := by
  have hrun : Runs.exec next joined together = some _ := rfl
  have hok : Runs.ExecOk next Fits joined together := by
    refine .cons ?_ rfl (.cons ?_ rfl (.cons trivial rfl (.cons trivial rfl (.cons trivial rfl
      (.cons trivial rfl (.cons ?_ rfl (.cons trivial rfl .nil)))))))
    · exact ⟨rfl, by decide⟩
    · exact ⟨rfl, by decide⟩
    · exact ⟨rfl, .inl rfl, fun _ => by decide⟩
  exact ⟨_, hrun, rfl, edits_agree level_joined (.of_exec hrun hok)⟩

end Desk

/-! ## Some undos, then some redos -/

namespace UseBoard

variable {b : UseBoard} {session : Session} {stamp : Stamp} {target : String} {stroke : Stroke}

/-- The strokes of its own that a client shows. -/
def own (session : Session) (strokes : List Stroke) : List Stroke :=
  strokes.filter fun stroke => stroke.userId = session.userId ∧ kind stroke = .stroke

/-- Strokes without those of some ids. -/
def dropIds (strokes : List Stroke) (ids : List String) : List Stroke :=
  strokes.filter fun stroke => stroke.id ∉ ids

/-- The strokes can be found under their ids. -/
def Finds (b : UseBoard) (strokes : List Stroke) : Prop :=
  ∀ stroke ∈ strokes, stroke.id ≠ "" ∧ OrderedMap.get? b.archive stroke.id = some stroke

instance (b : UseBoard) (strokes : List Stroke) : Decidable (b.Finds strokes) := by
  unfold Finds
  infer_instance

/-- What an undo or a redo finds. -/
theorem targetOf_concat (ids : List String) (hne : stroke.id ≠ "")
    (hget : OrderedMap.get? b.archive stroke.id = some stroke) :
    b.targetOf (ids ++ [stroke.id]) = some (stroke.id, stroke) := by
  have hguard : guard (stroke.id ≠ "") = some () := if_pos hne
  refine Option.bind_eq_some_iff.mpr ⟨stroke.id, List.getLast?_concat, ?_⟩
  refine Option.bind_eq_some_iff.mpr ⟨(), hguard, ?_⟩
  exact Option.bind_eq_some_iff.mpr ⟨stroke, hget, rfl⟩

/-- Dropping a stroke, then those of others. -/
theorem own_dropStroke (strokes : List Stroke) (id : String) :
    own session (dropStroke strokes id) = dropStroke (own session strokes) id :=
  List.filter_comm _ _ _

/-- Own strokes are different. -/
theorem nodup_own {strokes : List Stroke} (h : (strokes.map Stroke.id).Nodup) :
    ((own session strokes).map Stroke.id).Nodup :=
  h.sublist (List.filter_sublist.map _)

/-- The last of some strokes with distinct ids. -/
theorem dropStroke_concat {strokes : List Stroke}
    (h : ((strokes ++ [stroke]).map Stroke.id).Nodup) :
    dropStroke (strokes ++ [stroke]) stroke.id = strokes := by
  have hne : ∀ shown ∈ strokes, shown.id ≠ stroke.id := by
    rw [List.map_append, List.map_singleton] at h
    have hdisjoint := (List.nodup_append.mp h).2.2
    exact fun shown hmem => hdisjoint _ (List.mem_map_of_mem hmem) _ (List.mem_singleton_self _)
  unfold dropStroke
  rw [List.filter_append, List.filter_eq_self.mpr fun shown hmem => decide_eq_true (hne shown hmem)]
  simp

/-- Dropping a stroke, then several. -/
theorem dropIds_dropStroke (strokes : List Stroke) (id : String) (ids : List String) :
    dropIds (dropStroke strokes id) ids = dropIds strokes (ids ++ [id]) := by
  unfold dropIds dropStroke
  rw [List.filter_filter]
  congr 1
  funext stroke
  simp

/-- An undo takes the last of the client's own strokes. -/
theorem undo_last (stamp : Stamp) {rest : List Stroke}
    (hown : own session b.strokes = rest ++ [stroke]) (hfinds : b.Finds [stroke]) :
    (b.undoLastStroke session stamp true).1 = { b with
      strokes := dropStroke b.strokes stroke.id
      redoStrokeIds := b.redoStrokeIds ++ [stroke.id]
      pending := b.pending.set stamp.id (.undoStroke stroke.id stroke) } := by
  obtain ⟨hne, hget⟩ := hfinds stroke (List.mem_singleton_self _)
  have hids : b.ownVisibleStrokeIds session.userId = rest.map Stroke.id ++ [stroke.id] := by
    have hmap := congrArg (List.map Stroke.id) hown
    rw [List.map_append, List.map_singleton] at hmap
    exact hmap
  have htarget := targetOf_concat (rest.map Stroke.id) hne hget
  rw [← hids] at htarget
  unfold undoLastStroke
  rw [htarget]
  dsimp only
  rw [applyStrokeEvent_undo rfl (target_pointer session stamp .undoStroke hne)]
  rfl

/-- A redo takes the last stroke of the stack, and shows it on top. -/
theorem redo_last (session : Session) (stamp : Stamp) {ids : List String}
    (hstack : b.redoStrokeIds = ids ++ [stroke.id]) (hfinds : b.Finds [stroke])
    (hnot : ∀ shown ∈ b.strokes, shown.id ≠ stroke.id) :
    (b.redoLastStroke session stamp true).1 = { b with
      strokes := b.strokes ++ [stroke]
      redoStrokeIds := ids
      pending := b.pending.set stamp.id (.redoStroke stroke.id) } := by
  obtain ⟨hne, hget⟩ := hfinds stroke (List.mem_singleton_self _)
  have htarget := targetOf_concat ids hne hget
  rw [← hstack] at htarget
  have hshows : ¬ showsStroke b.strokes stroke.id = true := by
    rw [showsStroke_iff]
    intro hshown
    obtain ⟨shown, hmem, hid⟩ := hshown
    exact hnot shown hmem hid
  unfold redoLastStroke
  rw [htarget]
  dsimp only
  rw [applyStrokeEvent_redo rfl (target_pointer session stamp .redoStroke hne), if_neg hshows, hget,
    hstack, List.dropLast_concat]
  rfl

/-- Undoing again and again. -/
def undoAll (session : Session) (b : UseBoard) (stamps : List Stamp) : UseBoard :=
  stamps.foldl (fun b stamp => (b.undoLastStroke session stamp true).1) b

/-- Redos, one after the other. -/
def redoAll (session : Session) (b : UseBoard) (stamps : List Stamp) : UseBoard :=
  stamps.foldl (fun b stamp => (b.redoLastStroke session stamp true).1) b

/-- **Undos** take the client's own strokes from the last to the first. -/
theorem undoAll_spec (stamps : List Stamp) {rest gone : List Stroke}
    (hlen : stamps.length = gone.length) (hnodup : (b.strokes.map Stroke.id).Nodup)
    (hown : own session b.strokes = rest ++ gone) (hfinds : b.Finds gone) :
    (undoAll session b stamps).archive = b.archive ∧
      (undoAll session b stamps).strokes = dropIds b.strokes (gone.map Stroke.id) ∧
      (undoAll session b stamps).redoStrokeIds =
        b.redoStrokeIds ++ (gone.map Stroke.id).reverse := by
  induction stamps generalizing b gone with
  | nil =>
      obtain rfl := List.eq_nil_of_length_eq_zero hlen.symm
      simp [undoAll, dropIds]
  | cons stamp stamps ih =>
      -- the last of the strokes goes first
      rcases List.eq_nil_or_concat' gone with rfl | ⟨gone, stroke, rfl⟩
      · cases hlen
      · rw [← List.append_assoc] at hown
        have hlast : b.Finds [stroke] := fun shown hmem =>
          hfinds shown (List.mem_append_right _ hmem)
        have hstep := undo_last stamp hown hlast
        have hnodup₁ : ((dropStroke b.strokes stroke.id).map Stroke.id).Nodup :=
          hnodup.sublist (List.filter_sublist.map _)
        have hown₁ : own session (dropStroke b.strokes stroke.id) = rest ++ gone := by
          rw [own_dropStroke, hown]
          apply dropStroke_concat
          rw [← hown]
          exact nodup_own hnodup
        have hfinds₁ : b.Finds gone := fun shown hmem => hfinds shown (List.mem_append_left _ hmem)
        have hlen₁ : stamps.length = gone.length := by simpa using hlen
        unfold undoAll
        rw [List.foldl_cons, hstep]
        obtain ⟨harchive, hstrokes, hstack⟩ := ih (b := { b with
            strokes := dropStroke b.strokes stroke.id
            redoStrokeIds := b.redoStrokeIds ++ [stroke.id]
            pending := b.pending.set stamp.id (.undoStroke stroke.id stroke) })
          hlen₁ hnodup₁ hown₁ hfinds₁
        refine ⟨harchive, hstrokes.trans ?_, hstack.trans ?_⟩
        · rw [dropIds_dropStroke, List.map_append, List.map_singleton]
        · simp

/-- **Redos** show the strokes of the stack again, one on top of the other. -/
theorem redoAll_spec (session : Session) (stamps : List Stamp) {ids : List String}
    {back : List Stroke} (hlen : stamps.length = back.length) (hnodup : (back.map Stroke.id).Nodup)
    (hstack : b.redoStrokeIds = ids ++ (back.map Stroke.id).reverse) (hfinds : b.Finds back)
    (hnot : ∀ stroke ∈ back, ∀ shown ∈ b.strokes, shown.id ≠ stroke.id) :
    (redoAll session b stamps).strokes = b.strokes ++ back ∧
      (redoAll session b stamps).redoStrokeIds = ids := by
  induction stamps generalizing b back with
  | nil =>
      obtain rfl := List.eq_nil_of_length_eq_zero hlen.symm
      simpa [redoAll] using hstack
  | cons stamp stamps ih =>
      cases back with
      | nil => cases hlen
      | cons stroke back =>
          obtain ⟨hfirst, hnodup₁⟩ := List.nodup_cons.mp hnodup
          rw [List.map_cons, List.reverse_cons, ← List.append_assoc] at hstack
          have hhead : b.Finds [stroke] := fun shown hmem =>
            hfinds shown (List.mem_singleton.mp hmem ▸ List.mem_cons_self)
          have hstep := redo_last session stamp hstack hhead
            (hnot stroke List.mem_cons_self)
          have hfinds₁ : b.Finds back := fun shown hmem =>
            hfinds shown (List.mem_cons_of_mem _ hmem)
          have hnot₁ : ∀ other ∈ back, ∀ shown ∈ b.strokes ++ [stroke], shown.id ≠ other.id := by
            intro other hother shown hmem
            rcases List.mem_append.mp hmem with hold | hnew
            · exact hnot other (List.mem_cons_of_mem _ hother) shown hold
            · rw [List.mem_singleton.mp hnew]
              exact fun heq => hfirst (heq ▸ List.mem_map_of_mem hother)
          have hlen₁ : stamps.length = back.length := by simpa using hlen
          unfold redoAll
          rw [List.foldl_cons, hstep]
          obtain ⟨hstrokes, hstack'⟩ := ih (b := { b with
              strokes := b.strokes ++ [stroke]
              redoStrokeIds := ids ++ (back.map Stroke.id).reverse
              pending := b.pending.set stamp.id (.redoStroke stroke.id) })
            hlen₁ hnodup₁ rfl hfinds₁ hnot₁
          refine ⟨hstrokes.trans ?_, hstack'⟩
          rw [List.append_assoc, List.singleton_append]

/-- **As many redos as `back` is long**, after undos of the client's last strokes. -/
theorem redoAll_undoAll {undos redos : List Stamp} {rest back gone : List Stroke}
    (hundos : undos.length = (back ++ gone).length) (hredos : redos.length = back.length)
    (hnodup : (b.strokes.map Stroke.id).Nodup)
    (hown : own session b.strokes = rest ++ (back ++ gone)) (hfinds : b.Finds (back ++ gone)) :
    (redoAll session (undoAll session b undos) redos).strokes =
        dropIds b.strokes ((back ++ gone).map Stroke.id) ++ back ∧
      (redoAll session (undoAll session b undos) redos).redoStrokeIds =
        b.redoStrokeIds ++ (gone.map Stroke.id).reverse := by
  obtain ⟨harchive, hstrokes, hstack⟩ := undoAll_spec undos hundos hnodup hown hfinds
  have hids : ((back ++ gone).map Stroke.id).Nodup := by
    apply ((List.sublist_append_right rest _).map Stroke.id).nodup
    rw [← hown]
    exact nodup_own hnodup
  have hback : (back.map Stroke.id).Nodup :=
    hids.sublist ((List.sublist_append_left _ _).map _)
  have hstack₁ : (undoAll session b undos).redoStrokeIds =
      b.redoStrokeIds ++ (gone.map Stroke.id).reverse ++ (back.map Stroke.id).reverse := by
    rw [hstack]
    simp
  have hfinds₁ : (undoAll session b undos).Finds back := by
    intro stroke hmem
    rw [harchive]
    exact hfinds stroke (List.mem_append_left _ hmem)
  have hnot : ∀ stroke ∈ back, ∀ shown ∈ (undoAll session b undos).strokes,
      shown.id ≠ stroke.id := by
    intro stroke hmem shown hshown heq
    rw [hstrokes] at hshown
    have hout := (List.mem_filter.mp hshown).2
    refine absurd (of_decide_eq_true hout) (not_not_intro ?_)
    exact heq ▸ List.mem_map_of_mem (List.mem_append_left _ hmem)
  obtain ⟨hstrokes', hstack'⟩ := redoAll_spec session redos hredos hback hstack₁
    hfinds₁ hnot
  exact ⟨by rw [hstrokes', hstrokes], hstack'⟩

end UseBoard

namespace Desk

variable {d d' : Desk}

/-- Everything but a commit is seen by the client. -/
def Edit.isSeen : Edit → Bool
  | .commit => false
  | _ => true

/-- What an edit does to the client. -/
def perform (session : UseBoard.Session) (b : UseBoard) : Edit → UseBoard
  | .draw stroke => b.addStroke stroke true
  | .undo stamp => (b.undoLastStroke session stamp true).1
  | .redo stamp => (b.redoLastStroke session stamp true).1
  | .commit => b
  | .remote event => b.handleMessage (.strokeBroadcast event)

/-- The client performs the edit. -/
theorem next_client {e : Edit} (h : d.next e = some d') :
    d'.session = d.session ∧ d'.client = perform d.session d.client e := by
  cases e with
  | commit =>
      obtain ⟨event, rest, -, rfl⟩ := commit_cases h
      exact ⟨rfl, rfl⟩
  | draw stroke | undo stamp | redo stamp | remote event =>
      obtain rfl := Option.some.inj h
      exact ⟨rfl, rfl⟩

/-- The client after a run is what the edits that it sees have made of it. -/
theorem exec_client {edits : List Edit} (h : Runs.exec next d edits = some d') :
    d'.client = (edits.filter Edit.isSeen).foldl (perform d.session) d.client := by
  induction edits generalizing d with
  | nil => exact congrArg client (Option.some.inj h).symm
  | cons e edits ih =>
      obtain ⟨d₁, hstep, hrest⟩ := Option.bind_eq_some_iff.mp h
      obtain ⟨hsession, hclient⟩ := next_client hstep
      rw [ih hrest, hsession, hclient]
      cases e <;> rfl

/-- **Undo and redo.**  Let a client undo as many strokes as `back` and `gone` are, the last of
its own, and redo as many as `back` are, while commits go on.  Those of `back` are shown again, in
their order, behind all other strokes; those of `gone` are on the stack, the earliest on top; and
the replicas will show what the client shows. -/
theorem undo_redo (h : d.Level) (hnodup : (d.client.strokes.map Stroke.id).Nodup)
    {rest back gone : List Stroke}
    (hown : UseBoard.own d.session d.client.strokes = rest ++ (back ++ gone))
    (hfinds : d.client.Finds (back ++ gone)) {undos redos : List UseBoard.Stamp}
    (hundos : undos.length = (back ++ gone).length) (hredos : redos.length = back.length)
    {edits : List Edit}
    (hedits : edits.filter Edit.isSeen = undos.map .undo ++ redos.map .redo)
    (hexec : Runs.exec next d edits = some d') :
    d'.client.strokes =
        UseBoard.dropIds d.client.strokes ((back ++ gone).map Stroke.id) ++ back ∧
      d'.client.redoStrokeIds = d.client.redoStrokeIds ++ (gone.map Stroke.id).reverse ∧
      d'.ahead.visible = d'.client.strokes := by
  have hclient : d'.client = UseBoard.redoAll d.session
      (UseBoard.undoAll d.session d.client undos) redos := by
    rw [exec_client hexec, hedits, List.foldl_append, List.foldl_map, List.foldl_map]
    rfl
  obtain ⟨hstrokes, hstack⟩ := UseBoard.redoAll_undoAll hundos hredos hnodup hown hfinds
  have hrun : Runs.Reach next Fits d d' := by
    refine .of_exec hexec (.of_forall fun e hmem _ => ?_)
    cases e with
    | undo stamp | redo stamp | commit => trivial
    | draw stroke | remote event =>
        have hseen : _ ∈ edits.filter Edit.isSeen := List.mem_filter.mpr ⟨hmem, by rfl⟩
        rw [hedits] at hseen
        simp at hseen
  have hlevel := hrun.invariant h fun _ _ _ hlevel hfits hstep => hlevel.next hfits hstep
  rw [← hclient] at hstrokes hstack
  exact ⟨hstrokes, hstack, hlevel.strokes.symm⟩

/-- Three drawings and another client's. -/
def drawn : List Edit :=
  [.draw (.dot "a" "board"), .draw (.dot "b" "board"), .draw (.dot "c" "board"), .commit, .commit,
    .commit, .remote { Stroke.dot "d" "board" with userId := "other" }]

/-- The drawings leave the client level. -/
theorem exec_drawn : ∃ d, Runs.exec next joined drawn = some d ∧ d.Level := by
  have hrun : Runs.exec next joined drawn = some _ := rfl
  have hok : Runs.ExecOk next Fits joined drawn := by
    refine .cons ?_ rfl (.cons ?_ rfl (.cons ?_ rfl (.cons trivial rfl (.cons trivial rfl
      (.cons trivial rfl (.cons ?_ rfl .nil))))))
    · exact ⟨rfl, by decide⟩
    · exact ⟨rfl, by decide⟩
    · exact ⟨rfl, by decide⟩
    · exact ⟨rfl, .inl rfl, fun _ => by decide⟩
  have hreach : Runs.Reach next Fits joined _ := .of_exec hrun hok
  exact ⟨_, hrun, hreach.invariant level_joined fun _ _ _ hlevel hfits hstep =>
    hlevel.next hfits hstep⟩

/-- Two undos and one redo. -/
def turnedBack : List Edit :=
  [.undo (stamped "e"), .undo (stamped "f"), .commit, .redo (stamped "g")]

/-- Two undos and a redo: the last drawing stays undone. -/
theorem undo_redo_drawn : ∃ d d', Runs.exec next joined drawn = some d ∧
    Runs.exec next d turnedBack = some d' ∧
    d'.client.strokes.map Stroke.id = ["a", "d", "b"] ∧ d'.client.redoStrokeIds = ["c"] ∧
    d'.ahead.visible = d'.client.strokes := by
  obtain ⟨d, hrun, hlevel⟩ := exec_drawn
  obtain rfl := Option.some.inj (hrun.symm.trans (rfl : Runs.exec next joined drawn = some _))
  have hedits : turnedBack.filter Edit.isSeen =
      [stamped "e", stamped "f"].map .undo ++ [stamped "g"].map .redo := rfl
  obtain ⟨hstrokes, hstack, hahead⟩ := undo_redo hlevel (by decide)
    (rfl : _ = [Stroke.dot "a" "board"] ++ ([Stroke.dot "b" "board"] ++ [Stroke.dot "c" "board"]))
    (by decide) rfl rfl hedits rfl
  refine ⟨_, _, hrun, rfl, ?_, hstack, hahead⟩
  rw [hstrokes]
  rfl

end Desk

end QuorumCanvas
