import QuorumCanvas.LateJoin
import QuorumCanvas.Runs

/-!
# A join among strokes

A client joins a board while other clients draw on it.  The gateway puts the
joiner among the board's sockets first, then reads the board, then acknowledges;
each stroke is committed first and broadcast later.  The acknowledgement replaces
all the client shows, so what was broadcast between the read and the
acknowledgement is lost unless the read had seen it.
-/

namespace QuorumCanvas

open BoardEvent (kind)

/-- The boards of the gateway: the users of each, and the sockets of each user. -/
abbrev BoardManager := OrderedMap String (OrderedMap String (List ℕ))

namespace BoardManager

/-- `board.users`. -/
def users (m : BoardManager) (boardId : String) : OrderedMap String (List ℕ) :=
  (OrderedMap.get? m boardId).getD []

/-- The sockets of a user on a board. -/
def socketsOf (m : BoardManager) (boardId userId : String) : List ℕ :=
  (OrderedMap.get? (m.users boardId) userId).getD []

/-- Somebody is on a board. -/
def hasUser (m : BoardManager) (boardId userId : String) : Bool :=
  (OrderedMap.get? (m.users boardId) userId).isSome

/-- A connection joins under a name. -/
def joinBoard (m : BoardManager) (boardId userId : String) (ws : ℕ) : BoardManager :=
  let sockets := m.socketsOf boardId userId
  OrderedMap.set m boardId
    (OrderedMap.set (m.users boardId) userId (if ws ∈ sockets then sockets else sockets ++ [ws]))

/-- The open sockets a broadcast goes to. -/
def recipients (m : BoardManager) (boardId : String) (excludeWs : ℕ) : List ℕ :=
  ((m.users boardId).flatMap Prod.snd).filter fun ws => ws ≠ excludeWs

/-- Whoever joins is among the recipients. -/
theorem mem_recipients_joinBoard (m : BoardManager) (boardId userId : String) {ws excludeWs : ℕ}
    (h : ws ≠ excludeWs) : ws ∈ (m.joinBoard boardId userId ws).recipients boardId excludeWs := by
  unfold recipients joinBoard users
  rw [OrderedMap.get?_set_self, Option.getD_some]
  refine List.mem_filter.mpr ⟨List.mem_flatMap.mpr ?_, by simpa using h⟩
  refine ⟨_, OrderedMap.mem_of_get? (OrderedMap.get?_set_self _ _ _), ?_⟩
  dsimp only
  split
  · assumption
  · exact List.mem_append_right _ (List.mem_singleton_self _)

end BoardManager

/-! ## The scene -/

/-- A call of `handleStroke` that waits for `submitStroke`. -/
structure Submission where
  ws : ℕ
  stroke : Stroke
  committed : Bool
  deriving DecidableEq

/-- How far the call of `handleJoin` has come. -/
inductive JoinProgress
  | notJoined
  /-- `getStrokes` has been called -/
  | reading (isExistingUser : Bool)
  /-- `getStrokes` has taken its value -/
  | read (isExistingUser : Bool) (strokes : List Stroke)
  | acknowledged
  deriving DecidableEq

/-- The joining client with its socket, the gateway, and the board behind it. -/
structure Scene where
  ws : ℕ
  boardId : String
  userId : String
  manager : BoardManager
  join : JoinProgress
  submissions : List Submission
  committed : List Stroke
  /-- messages on their way to the joining client, in order -/
  wire : List ServerMessage
  client : UseBoard

namespace Scene

/-- What can happen around one join. -/
inductive Event
  | join
  | read
  | acknowledge
  | submit (ws : ℕ) (stroke : Stroke)
  | commit (k : ℕ)
  | broadcast (k : ℕ)
  | deliver
  deriving DecidableEq

/-- A message to every socket of a board but one, as the joining client sees it. -/
def broadcastTo (s : Scene) (boardId : String) (message : ServerMessage) (excludeWs : ℕ) : Scene :=
  if s.ws ∈ s.manager.recipients boardId excludeWs then { s with wire := s.wire ++ [message] }
  else s

/-- `handleJoin` up to its `await`. -/
def handleJoin (s : Scene) : Scene :=
  { s with
    join := .reading (s.manager.hasUser s.boardId s.userId)
    manager := s.manager.joinBoard s.boardId s.userId s.ws }

/-- `handleJoin` after its `await`. -/
def acknowledge (s : Scene) (isExistingUser : Bool) (strokes : List Stroke) : Scene :=
  let s := { s with
    join := .acknowledged
    wire := s.wire ++ [.joinAck s.boardId strokes] }
  if isExistingUser then s else s.broadcastTo s.boardId (.userJoined s.userId) s.ws

/-- One such event, if it can. -/
def next (s : Scene) : Event → Option Scene
  | .join => if s.join = .notJoined then some s.handleJoin else none
  | .read =>
      match s.join with
      | .reading isExistingUser =>
          some { s with
            join := .read isExistingUser ((Boards.replay [] s.committed).getStrokes s.boardId) }
      | _ => none
  | .acknowledge =>
      match s.join with
      | .read isExistingUser strokes => some (s.acknowledge isExistingUser strokes)
      | _ => none
  | .submit ws stroke => some { s with submissions := s.submissions ++ [⟨ws, stroke, false⟩] }
  | .commit k =>
      match s.submissions[k]? with
      | some ⟨ws, stroke, false⟩ =>
          some { s with
            submissions := s.submissions.set k ⟨ws, stroke, true⟩
            committed := s.committed ++ [stroke] }
      | _ => none
  | .broadcast k =>
      match s.submissions[k]? with
      | some ⟨ws, stroke, true⟩ =>
          some ({ s with submissions := s.submissions.eraseIdx k }.broadcastTo stroke.boardId
            (.strokeBroadcast stroke) ws)
      | _ => none
  | .deliver =>
      match s.wire with
      | message :: rest => some { s with wire := rest, client := s.client.handleMessage message }
      | [] => none

/-- The strokes the gateway has heard of. -/
def strokes (s : Scene) : List Stroke := s.committed ++ s.submissions.map Submission.stroke

/-- Other clients submit drawings, and no two different ones under one id. -/
def Draws (s : Scene) : Event → Prop
  | .submit ws stroke => ws ≠ s.ws ∧ kind stroke = .stroke ∧
      ∀ other ∈ s.strokes, other.id = stroke.id → other = stroke
  | _ => True

/-- What is broadcast on the board between the read and the acknowledgement has been read. -/
def BroadcastsRead (s : Scene) : Event → Prop
  | .broadcast k => ∀ submission, s.submissions[k]? = some submission →
      submission.stroke.boardId = s.boardId →
      ∀ isExistingUser strokes, s.join = .read isExistingUser strokes → submission.stroke ∈ strokes
  | _ => True

/-- A client that has not joined yet, on a board with some drawings. -/
structure Opening (s : Scene) : Prop where
  join : s.join = .notJoined
  wire : s.wire = []
  submissions : s.submissions = []
  drawings : ∀ stroke ∈ s.committed, kind stroke = .stroke
  distinct : ∀ stroke ∈ s.committed, ∀ other ∈ s.committed, other.id = stroke.id → other = stroke

/-- Everything has run to its end. -/
structure Settled (s : Scene) : Prop where
  join : s.join = .acknowledged
  wire : s.wire = []
  submissions : s.submissions = []

/-! ## The invariant -/

/-- What the client will show once it has processed what is on its way. -/
def upcoming (s : Scene) : UseBoard := s.wire.foldl UseBoard.handleMessage s.client

/-- Committed and still to be broadcast. -/
def Awaits (s : Scene) (stroke : Stroke) : Prop :=
  ∃ submission ∈ s.submissions, submission.stroke = stroke ∧ submission.committed = true

/-- Nothing is lost: a committed stroke of the board was read, or will be shown, or is
still to be broadcast. -/
structure Whole (s : Scene) : Prop where
  drawings : ∀ stroke ∈ s.strokes, kind stroke = .stroke
  distinct : ∀ stroke ∈ s.strokes, ∀ other ∈ s.strokes, other.id = stroke.id → other = stroke
  others : ∀ submission ∈ s.submissions, submission.ws ≠ s.ws
  done : ∀ submission ∈ s.submissions, submission.committed = true →
    submission.stroke ∈ s.committed
  member : s.join ≠ .notJoined → ∀ ws ≠ s.ws, s.ws ∈ s.manager.recipients s.boardId ws
  read : ∀ isExistingUser strokes, s.join = .read isExistingUser strokes →
    (∀ stroke ∈ strokes, stroke ∈ s.committed) ∧
    ∀ stroke ∈ s.committed, stroke.boardId = s.boardId → stroke ∈ strokes ∨ s.Awaits stroke
  acknowledged : s.join = .acknowledged →
    (∀ stroke ∈ s.upcoming.strokes, stroke ∈ s.committed) ∧
    ∀ stroke ∈ s.committed, stroke.boardId = s.boardId →
      stroke ∈ s.upcoming.strokes ∨ s.Awaits stroke

variable {s s' : Scene}

/-- A board that has seen drawings only shows them all. -/
theorem getStrokes_drawings {events : List Stroke} (h : ∀ e ∈ events, kind e = .stroke)
    (boardId : String) :
    (Boards.replay [] events).getStrokes boardId = Boards.eventsOf events boardId := by
  have hall : ∀ es : List Stroke, (∀ e ∈ es, kind e = .stroke) → ∀ board : BoardState Stroke,
      board.undone = [] → (es.foldl BoardState.apply board).visible = board.visible ++ es := by
    intro es
    induction es with
    | nil => simp
    | cons e es ih =>
        intro hes board hundone
        have hk := hes e List.mem_cons_self
        have hundone' : (board.apply e).undone = [] := by
          rw [BoardState.apply_drawing hk, hundone]
        rw [List.foldl_cons, ih (fun e' he' => hes e' (List.mem_cons_of_mem _ he')) _ hundone',
          BoardState.apply_drawing hk]
        simp [hundone]
  have hevents : ∀ e ∈ Boards.eventsOf events boardId, kind e = .stroke := fun e he =>
    h e (List.mem_of_mem_filter he)
  unfold Boards.getStrokes
  rw [Boards.board_replay, hall _ hevents _ rfl]
  rfl

/-- A broadcast changes nothing but what is on its way. -/
theorem broadcastTo_cases (s : Scene) (boardId : String) (message : ServerMessage)
    (excludeWs : ℕ) :
    s.broadcastTo boardId message excludeWs =
      { s with wire := if s.ws ∈ s.manager.recipients boardId excludeWs then s.wire ++ [message]
                       else s.wire } := by
  unfold broadcastTo
  split <;> rfl

/-- A drawing that arrives is shown beside what was shown already. -/
theorem mem_strokes_drawing {b : UseBoard} {stroke : Stroke} (hk : kind stroke = .stroke) :
    (∀ other ∈ (b.applyStrokeEvent stroke).strokes, other ∈ b.strokes ∨ other = stroke) ∧
      (∀ other ∈ b.strokes, other ∈ (b.applyStrokeEvent stroke).strokes) ∧
      (stroke ∈ (b.applyStrokeEvent stroke).strokes ∨
        ∃ shown ∈ b.strokes, shown.id = stroke.id) := by
  rw [UseBoard.applyStrokeEvent_drawing hk]
  split
  · next hshown =>
      exact ⟨fun _ => Or.inl, fun _ h => h, Or.inr (UseBoard.showsStroke_iff.mp hshown)⟩
  · refine ⟨fun other h => ?_, fun _ h => List.mem_append_left _ h,
      Or.inl (List.mem_append_right _ (List.mem_singleton_self _))⟩
    exact (List.mem_append.mp h).imp_right List.mem_singleton.mp

/-- Before the join nothing is missed. -/
theorem whole_opening (h : s.Opening) : s.Whole := by
  have hstrokes : s.strokes = s.committed := by
    unfold strokes
    rw [h.submissions]
    exact List.append_nil _
  refine ⟨hstrokes ▸ h.drawings, hstrokes ▸ h.distinct, ?_, ?_, ?_, ?_, ?_⟩
  · rw [h.submissions]
    exact fun _ hmem => by cases hmem
  · rw [h.submissions]
    exact fun _ hmem => by cases hmem
  · exact fun hne => absurd h.join hne
  · intro existing strokes hread
    rw [h.join] at hread
    cases hread
  · intro hack
    rw [h.join] at hack
    cases hack

/-! ## The steps -/

/-- Whoever is on the board is sent what comes. -/
theorem whole_handleJoin (h : s.Whole) : s.handleJoin.Whole :=
  ⟨h.drawings, h.distinct, h.others, h.done,
    fun _ _ hne => BoardManager.mem_recipients_joinBoard _ _ _ hne.symm,
    fun _ _ hread => (by cases hread), fun hack => (by cases hack)⟩

/-- The strokes of the board are read while broadcasts go on. -/
theorem whole_read (h : s.Whole) {existing : Bool} (hjoin : s.join = .reading existing) :
    Whole { s with
      join := .read existing ((Boards.replay [] s.committed).getStrokes s.boardId) } := by
  have hcommitted : ∀ e ∈ s.committed, kind e = .stroke := fun e he =>
    h.drawings e (List.mem_append_left _ he)
  refine ⟨h.drawings, h.distinct, h.others, h.done, fun _ => h.member (by rw [hjoin]; simp), ?_,
    fun hack => (by cases hack)⟩
  intro existing' strokes hread
  obtain ⟨-, rfl⟩ := JoinProgress.read.inj hread
  rw [getStrokes_drawings hcommitted]
  refine ⟨fun e he => List.mem_of_mem_filter he, fun e he hboard => Or.inl ?_⟩
  exact List.mem_filter.mpr ⟨he, decide_eq_true hboard⟩

/-- The answer brings what was read. -/
theorem whole_acknowledge (h : s.Whole) {existing : Bool} {strokes : List Stroke}
    (hjoin : s.join = .read existing strokes) : (s.acknowledge existing strokes).Whole := by
  obtain ⟨hsub, hall⟩ := h.read existing strokes hjoin
  have hself : ∀ m : BoardManager, s.ws ∉ m.recipients s.boardId s.ws := fun m hmem => by
    simpa using (List.mem_filter.mp hmem).2
  have hscene : s.acknowledge existing strokes =
      { s with
        join := .acknowledged
        wire := s.wire ++ [.joinAck s.boardId strokes] } := by
    unfold Scene.acknowledge
    dsimp only
    split
    · rfl
    · rw [broadcastTo_cases, if_neg (hself _)]
  have hupcoming : (s.acknowledge existing strokes).upcoming.strokes = strokes := by
    rw [hscene]
    unfold upcoming
    rw [List.foldl_append]
    rfl
  refine ⟨hscene ▸ h.drawings, hscene ▸ h.distinct, hscene ▸ h.others, hscene ▸ h.done, ?_, ?_, ?_⟩
  · rw [hscene]
    exact fun _ => h.member (by rw [hjoin]; simp)
  · rw [hscene]
    exact fun _ _ hread => (by cases hread)
  · rw [hupcoming, hscene]
    exact fun _ => ⟨hsub, hall⟩

/-- A stroke that was submitted is not committed. -/
theorem whole_submit (h : s.Whole) {ws : ℕ} {stroke : Stroke}
    (hdraw : s.Draws (.submit ws stroke)) :
    Whole { s with submissions := s.submissions ++ [⟨ws, stroke, false⟩] } := by
  obtain ⟨hws, hk, hfresh⟩ := hdraw
  have hstrokes :
      ({ s with submissions := s.submissions ++ [⟨ws, stroke, false⟩] } : Scene).strokes =
      s.strokes ++ [stroke] := by
    simp [strokes]
  have hawaits : ∀ other, s.Awaits other →
      ({ s with submissions := s.submissions ++ [⟨ws, stroke, false⟩] } : Scene).Awaits other :=
    fun other ⟨submission, hmem, hrest⟩ => ⟨submission, List.mem_append_left _ hmem, hrest⟩
  refine ⟨?_, ?_, ?_, ?_, h.member, fun existing strokes hread => ?_, fun hack => ?_⟩
  · rw [hstrokes]
    intro e he
    rcases List.mem_append.mp he with hold | hnew
    · exact h.drawings e hold
    · exact List.mem_singleton.mp hnew ▸ hk
  · rw [hstrokes]
    intro e he other hother hid
    rcases List.mem_append.mp he with hold | hnew <;>
      rcases List.mem_append.mp hother with hold' | hnew'
    · exact h.distinct e hold other hold' hid
    · rw [List.mem_singleton.mp hnew'] at hid ⊢
      exact (hfresh e hold hid.symm).symm
    · rw [List.mem_singleton.mp hnew] at hid ⊢
      exact hfresh other hold' hid
    · rw [List.mem_singleton.mp hnew, List.mem_singleton.mp hnew']
  · intro submission hmem
    rcases List.mem_append.mp hmem with hold | hnew
    · exact h.others submission hold
    · rw [List.mem_singleton.mp hnew]
      exact hws
  · intro submission hmem hcommitted
    rcases List.mem_append.mp hmem with hold | hnew
    · exact h.done submission hold hcommitted
    · rw [List.mem_singleton.mp hnew] at hcommitted
      cases hcommitted
  · obtain ⟨hsub, hall⟩ := h.read existing strokes hread
    exact ⟨hsub, fun e he hboard => (hall e he hboard).imp_right (hawaits e)⟩
  · obtain ⟨hsub, hall⟩ := h.acknowledged hack
    exact ⟨hsub, fun e he hboard => (hall e he hboard).imp_right (hawaits e)⟩

/-- A stroke that was committed is still to be broadcast. -/
theorem whole_commit (h : s.Whole) {k ws : ℕ} {stroke : Stroke}
    (hk : s.submissions[k]? = some ⟨ws, stroke, false⟩) :
    Whole { s with
      submissions := s.submissions.set k ⟨ws, stroke, true⟩
      committed := s.committed ++ [stroke] } := by
  have hmem : (⟨ws, stroke, false⟩ : Submission) ∈ s.submissions := List.mem_of_getElem? hk
  have hlt := (List.getElem?_eq_some_iff.mp hk).1
  have hset : ∀ submission ∈ s.submissions.set k ⟨ws, stroke, true⟩,
      submission ∈ s.submissions ∨ submission = ⟨ws, stroke, true⟩ := fun _ =>
    List.mem_or_eq_of_mem_set
  have hstrokes : ∀ e ∈ ({ s with
      submissions := s.submissions.set k ⟨ws, stroke, true⟩
      committed := s.committed ++ [stroke] } : Scene).strokes, e ∈ s.strokes := by
    have hhere : stroke ∈ s.strokes :=
      List.mem_append_right _ (List.mem_map.mpr ⟨_, hmem, rfl⟩)
    intro e he
    rcases List.mem_append.mp he with hcommitted | hpending
    · rcases List.mem_append.mp hcommitted with hold | hnew
      · exact List.mem_append_left _ hold
      · exact List.mem_singleton.mp hnew ▸ hhere
    · obtain ⟨submission, hsub, rfl⟩ := List.mem_map.mp hpending
      rcases hset submission hsub with hold | rfl
      · exact List.mem_append_right _ (List.mem_map.mpr ⟨_, hold, rfl⟩)
      · exact hhere
  have hawaits : ∀ other, s.Awaits other ∨ other = stroke → ({ s with
      submissions := s.submissions.set k ⟨ws, stroke, true⟩
      committed := s.committed ++ [stroke] } : Scene).Awaits other := by
    rintro other (⟨submission, hsub, rfl, hdone⟩ | rfl)
    · obtain ⟨j, hj⟩ := List.mem_iff_getElem?.mp hsub
      have hne : k ≠ j := by
        rintro rfl
        rw [hk] at hj
        obtain rfl := Option.some.inj hj
        cases hdone
      refine ⟨submission, List.mem_of_getElem? (i := j) ?_, rfl, hdone⟩
      rw [List.getElem?_set_ne hne, hj]
    · exact ⟨_, List.mem_of_getElem? (i := k) (by rw [List.getElem?_set_self hlt]), rfl, rfl⟩
  refine ⟨fun e he => h.drawings e (hstrokes e he),
    fun e he other hother => h.distinct e (hstrokes e he) other (hstrokes other hother), ?_, ?_,
    h.member, fun existing strokes hread => ?_, fun hack => ?_⟩
  · intro submission hsub
    rcases hset submission hsub with hold | rfl
    · exact h.others submission hold
    · have hws : ws ≠ s.ws := h.others _ hmem
      exact hws
  · intro submission hsub hdone
    rcases hset submission hsub with hold | rfl
    · exact List.mem_append_left _ (h.done submission hold hdone)
    · exact List.mem_append_right _ (List.mem_singleton_self _)
  · obtain ⟨hsub, hall⟩ := h.read existing strokes hread
    refine ⟨fun e he => List.mem_append_left _ (hsub e he), fun e he hboard => ?_⟩
    rcases List.mem_append.mp he with hold | hnew
    · exact (hall e hold hboard).imp_right fun ha => hawaits e (Or.inl ha)
    · exact Or.inr (hawaits e (Or.inr (List.mem_singleton.mp hnew)))
  · obtain ⟨hsub, hall⟩ := h.acknowledged hack
    refine ⟨fun e he => List.mem_append_left _ (hsub e he), fun e he hboard => ?_⟩
    rcases List.mem_append.mp he with hold | hnew
    · exact (hall e hold hboard).imp_right fun ha => hawaits e (Or.inl ha)
    · exact Or.inr (hawaits e (Or.inr (List.mem_singleton.mp hnew)))

/-- A broadcast reaches the client, or comes before its answer. -/
theorem whole_broadcast (h : s.Whole) {k : ℕ} (hread : s.BroadcastsRead (.broadcast k)) {ws : ℕ}
    {stroke : Stroke} (hk : s.submissions[k]? = some ⟨ws, stroke, true⟩) :
    Whole (broadcastTo { s with submissions := s.submissions.eraseIdx k } stroke.boardId
      (.strokeBroadcast stroke) ws) := by
  have hmem : (⟨ws, stroke, true⟩ : Submission) ∈ s.submissions := List.mem_of_getElem? hk
  have hcommitted : stroke ∈ s.committed := h.done _ hmem rfl
  have hws : ws ≠ s.ws := h.others _ hmem
  have hpending : ∀ submission ∈ s.submissions.eraseIdx k, submission ∈ s.submissions :=
    fun _ hsub => List.mem_of_mem_eraseIdx hsub
  rw [broadcastTo_cases]
  set wire := if s.ws ∈ s.manager.recipients stroke.boardId ws then
    s.wire ++ [.strokeBroadcast stroke] else s.wire with hwire
  -- what awaited its broadcast still does, unless it is the stroke itself
  have hawaits : ∀ other, s.Awaits other → other = stroke ∨
      Awaits { s with submissions := s.submissions.eraseIdx k, wire := wire } other := by
    rintro other ⟨submission, hsub, rfl, hdone⟩
    obtain ⟨j, hj⟩ := List.mem_iff_getElem?.mp hsub
    by_cases hjk : j = k
    · rw [hjk, hk] at hj
      rw [← Option.some.inj hj]
      exact Or.inl rfl
    · exact Or.inr ⟨submission, List.mem_eraseIdx_iff_getElem?.mpr ⟨j, hjk, hj⟩, rfl, hdone⟩
  have hstrokes : ∀ e ∈ strokes { s with
      submissions := s.submissions.eraseIdx k, wire := wire }, e ∈ s.strokes := by
    intro e he
    rcases List.mem_append.mp he with hold | hnew
    · exact List.mem_append_left _ hold
    · obtain ⟨submission, hsub, rfl⟩ := List.mem_map.mp hnew
      exact List.mem_append_right _ (List.mem_map.mpr ⟨_, hpending _ hsub, rfl⟩)
  refine ⟨fun e he => h.drawings e (hstrokes e he),
    fun e he other hother => h.distinct e (hstrokes e he) other (hstrokes other hother),
    fun _ hsub => h.others _ (hpending _ hsub), fun _ hsub => h.done _ (hpending _ hsub),
    h.member, fun existing strokes hjoin => ?_, fun hack => ?_⟩
  · obtain ⟨hsub, hall⟩ := h.read existing strokes hjoin
    refine ⟨hsub, fun e he hboard => ?_⟩
    rcases hall e he hboard with hin | hawait
    · exact Or.inl hin
    · rcases hawaits e hawait with rfl | hstill
      · exact Or.inl (hread _ hk hboard existing strokes hjoin)
      · exact Or.inr hstill
  · have hack : s.join = .acknowledged := hack
    obtain ⟨hsub, hall⟩ := h.acknowledged hack
    have hdrawn := @mem_strokes_drawing s.upcoming stroke
      (h.drawings stroke (List.mem_append_left _ hcommitted))
    have hupcoming : upcoming { s with submissions := s.submissions.eraseIdx k, wire := wire } =
        if s.ws ∈ s.manager.recipients stroke.boardId ws then s.upcoming.applyStrokeEvent stroke
        else s.upcoming := by
      rw [hwire]
      unfold upcoming
      split
      · rw [List.foldl_append]
        rfl
      · rfl
    rw [hupcoming]
    refine ⟨fun e he => ?_, fun e he hboard => ?_⟩
    · split at he
      · rcases hdrawn.1 e he with hold | rfl
        · exact hsub e hold
        · exact hcommitted
      · exact hsub e he
    · rcases hall e he hboard with hin | hawait
      · refine Or.inl ?_
        split
        · exact hdrawn.2.1 e hin
        · exact hin
      · rcases hawaits e hawait with rfl | hstill
        · -- shown now, or under the same id before, and then it is the same stroke
          refine Or.inl ?_
          rw [if_pos (hboard ▸ h.member (by rw [hack]; simp) ws hws)]
          rcases hdrawn.2.2 with hshown | ⟨shown, hshown, hid⟩
          · exact hshown
          · have heq := h.distinct e (List.mem_append_left _ hcommitted) shown
              (List.mem_append_left _ (hsub shown hshown)) hid
            exact hdrawn.2.1 e (heq ▸ hshown)
        · exact Or.inr hstill

/-- A message is applied. -/
theorem whole_deliver (h : s.Whole) {message : ServerMessage} {rest : List ServerMessage}
    (hwire : s.wire = message :: rest) :
    Whole { s with wire := rest, client := s.client.handleMessage message } := by
  have hupcoming : upcoming { s with wire := rest, client := s.client.handleMessage message } =
      s.upcoming := by
    unfold upcoming
    rw [hwire, List.foldl_cons]
  refine ⟨h.drawings, h.distinct, h.others, h.done, h.member, h.read, fun hack => ?_⟩
  rw [hupcoming]
  exact h.acknowledged hack

/-- Every event leaves the client whole, if it reads what is broadcast. -/
theorem whole_next {e : Event} (h : s.Whole) (hdraw : s.Draws e) (hread : s.BroadcastsRead e)
    (hnext : s.next e = some s') : s'.Whole := by
  cases e with
  | join =>
      obtain ⟨-, hs'⟩ := Option.ite_none_right_eq_some.mp hnext
      cases hs'
      exact whole_handleJoin h
  | read =>
      unfold next at hnext
      dsimp only at hnext
      split at hnext
      · next hjoin =>
          cases hnext
          exact whole_read h hjoin
      · cases hnext
  | acknowledge =>
      unfold next at hnext
      dsimp only at hnext
      split at hnext
      · next hjoin =>
          cases hnext
          exact whole_acknowledge h hjoin
      · cases hnext
  | submit ws stroke =>
      cases hnext
      exact whole_submit h hdraw
  | commit k =>
      unfold next at hnext
      dsimp only at hnext
      split at hnext
      · next hk =>
          cases hnext
          exact whole_commit h hk
      · cases hnext
  | broadcast k =>
      unfold next at hnext
      dsimp only at hnext
      split at hnext
      · next hk =>
          cases hnext
          exact whole_broadcast h hread hk
      · cases hnext
  | deliver =>
      unfold next at hnext
      dsimp only at hnext
      split at hnext
      · next hwire =>
          cases hnext
          exact whole_deliver h hwire
      · cases hnext

/-- **No stroke is lost by a join race**, as long as what is broadcast between the read
and the acknowledgement has been read. -/
theorem join_race_settles {s s' : Scene} (hopen : s.Opening)
    (hrun : Runs.Reach next (fun s e => s.Draws e ∧ s.BroadcastsRead e) s s')
    (hsettled : s'.Settled) :
    ∀ stroke ∈ s'.committed, stroke.boardId = s'.boardId → stroke ∈ s'.client.strokes := by
  have h : s'.Whole := hrun.invariant (whole_opening hopen) fun _ _ _ h hok hnext =>
    whole_next h hok.1 hok.2 hnext
  intro stroke hcommitted hboard
  have hupcoming : s'.upcoming = s'.client := by
    unfold upcoming
    rw [hsettled.wire]
    rfl
  rcases (h.acknowledged hsettled.join).2 stroke hcommitted hboard with hin | ⟨_, hsub, -⟩
  · rwa [hupcoming] at hin
  · rw [hsettled.submissions] at hsub
    cases hsub

/-- A client about to join, and nobody else on the board. -/
def aboutToJoin : Scene :=
  { ws := 0, boardId := "b", userId := "u", manager := [], join := .notJoined
    submissions := [], committed := [], wire := [], client := .mounted }

/-- Another client's stroke. -/
def dot : Stroke := .dot "x" "b"

/-- The stroke comes after the acknowledgement. -/
def smooth : List Event :=
  [.join, .read, .acknowledge, .submit 1 dot, .commit 0, .broadcast 0, .deliver, .deliver]

/-- The stroke is committed after the read and broadcast before the acknowledgement. -/
def raced : List Event :=
  [.join, .read, .submit 1 dot, .commit 0, .broadcast 0, .acknowledge, .deliver, .deliver]

/-- Somebody is about to join. -/
theorem opening_aboutToJoin : aboutToJoin.Opening :=
  ⟨rfl, rfl, rfl, fun _ h => (by cases h), fun _ h => (by cases h)⟩

/-- The stroke reaches whoever joined in time. -/
theorem join_race_settles_smooth : ∃ s', Runs.exec next aboutToJoin smooth = some s' ∧
    dot ∈ s'.committed ∧
    ∀ stroke ∈ s'.committed, stroke.boardId = s'.boardId → stroke ∈ s'.client.strokes := by
  have hrun : Runs.exec next aboutToJoin smooth = some _ := rfl
  refine ⟨_, hrun, by decide, join_race_settles opening_aboutToJoin
    (Runs.Reach.of_exec hrun ?_) ⟨rfl, rfl, rfl⟩⟩
  have hfree : ∀ s : Scene, s.join = .acknowledged → s.BroadcastsRead (.broadcast 0) :=
    fun _ hack _ _ _ _ _ hread => by
      rw [hack] at hread
      cases hread
  refine .cons ⟨trivial, trivial⟩ rfl (.cons ⟨trivial, trivial⟩ rfl
    (.cons ⟨trivial, trivial⟩ rfl (.cons ⟨?_, trivial⟩ rfl (.cons ⟨trivial, trivial⟩ rfl
    (.cons ⟨trivial, hfree _ rfl⟩ rfl (.cons ⟨trivial, trivial⟩ rfl
    (.cons ⟨trivial, trivial⟩ rfl .nil)))))))
  exact ⟨by decide, rfl, fun _ hother => (by cases hother)⟩

/-- The acknowledgement drops a stroke that it does not hold. -/
theorem join_race_loses :
    ¬ ∀ s s' : Scene, s.Opening → Runs.Reach next Draws s s' → s'.Settled →
      ∀ stroke ∈ s'.committed, stroke.boardId = s'.boardId → stroke ∈ s'.client.strokes := by
  intro h
  have hrun : Runs.exec next aboutToJoin raced = some _ := rfl
  have hok : Runs.ExecOk next Draws aboutToJoin raced := by
    refine .cons trivial rfl (.cons trivial rfl (.cons ⟨by decide, rfl, ?_⟩ rfl
      (.cons trivial rfl (.cons trivial rfl (.cons trivial rfl (.cons trivial rfl
      (.cons trivial rfl .nil)))))))
    exact fun _ hother => (by cases hother)
  have hin := h _ _ opening_aboutToJoin (Runs.Reach.of_exec hrun hok) ⟨rfl, rfl, rfl⟩ dot
    (by decide) rfl
  revert hin
  decide

end Scene

end QuorumCanvas
