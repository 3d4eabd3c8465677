import QuorumCanvas.BodyLimit
import QuorumCanvas.Membership
import QuorumCanvas.Tokens
import QuorumCanvas.UseDrawing

/-!
# The front door

What reaches the gateway is text: the query of a connection, and the frames of its sockets.  A
frame is parsed and dispatched by its type (`dispatch`), a stroke in it is taken only if it is
valid and carries the ids of the connection (`accept`), and it goes out to the others once it has
been submitted.

Frames are read with their number literals as they stand.  A script reads doubles, so what depends
on the numbers of a frame is said of runs whose frames are faithful (`Faithful`): there it makes no
difference.

So whatever such frames come, and in whatever order calls return, no stroke is shown on a board but
what an authorized connection of that board sent under its own user id (`no_forgery`), and a
socket without the token is shown no strokes at all, whatever comes (`strokes_need_token`).  The
other way round, what was drawn with the pen and is not too long is shown to all who are on the
board, once it has been submitted (`drawn_strokes_shown`).
-/

namespace QuorumCanvas

open Js (Var)
open Json (Value)

/-! ## Frames -/

/-- What a frame asks for, or the message of the error that answers it. -/
inductive Dispatch
  | reply (message : String)
  | join (boardId userId : Var)
  | stroke (stroke : Var)

/-- `handleMessage` up to its handlers; what it throws is answered by the connection handler. -/
def dispatch (data : List Char) : Dispatch :=
  match Json.parse data with
  | none => .reply "Invalid JSON"
  | some message =>
      match Js.get (some message) "type" with
      | .error _ => .reply "Internal server error"
      | .ok type =>
          if Js.truthy type = false then .reply "Missing message type"
          else if Js.same type (some (.string "join")) then
            .join (member message "boardId") (member message "userId")
          else if Js.same type (some (.string "stroke")) then .stroke (member message "stroke")
          else
            match Js.propertyName type with
            | .ok text => .reply ("Unknown message type: " ++ text)
            | .error _ => .reply "Internal server error"

/-- The message with which a client joins. -/
def joinMessage (boardId userId : String) : Value :=
  .object [("type", .string "join"), ("boardId", .string boardId), ("userId", .string userId)]

/-- A join as the client prints it. -/
theorem dispatch_join (boardId userId : String) :
    dispatch (Json.stringify (joinMessage boardId userId)) =
      .join (some (.string boardId)) (some (.string userId)) := by
  have hparse : Json.parse (Json.stringify (joinMessage boardId userId)) =
      some (joinMessage boardId userId) :=
    Json.parse_stringify ⟨by simp, trivial, trivial, trivial, trivial⟩
  rw [dispatch, hparse]
  rfl

/-- A stroke as the client prints it. -/
theorem dispatch_stroke (stroke : Stroke) :
    dispatch (Json.stringify (strokeMessage stroke)) = .stroke (some stroke.toJson) := by
  have hparse : Json.parse (Json.stringify (strokeMessage stroke)) =
      some (strokeMessage stroke) :=
    Json.parse_stringify ⟨by simp, trivial, stroke.plain_toJson, trivial⟩
  rw [dispatch, hparse]
  rfl

/-- Only a string is the same as a string. -/
theorem eq_string_of_same {v : Var} {text : String}
    (h : Js.same v (some (.string text)) = true) : v = some (.string text) := by
  cases v with
  | none => simp [Js.same] at h
  | some v => cases v <;> simp_all [Js.same]

/-- An accepted stroke names the ids of its connection. -/
theorem AcceptedStroke.member_ids (a : AcceptedStroke) :
    member a.stroke "boardId" = some (.string a.conn.boardId) ∧
      member a.stroke "userId" = some (.string a.conn.userId) := by
  have hids := checks_of_accepted a.accepted _ (List.mem_append_left _ (.tail _ (.head _)))
  obtain ⟨hboard, huser⟩ := Bool.and_eq_true_iff.mp hids
  exact ⟨eq_string_of_same hboard, eq_string_of_same huser⟩

/-- `validateStroke`, with the stroke that it has let pass. -/
def accept (stroke : Var) (conn : ConnectionInfo) : Except String AcceptedStroke :=
  match stroke with
  | none => .error "Stroke must be an object"
  | some v =>
      match h : validateStroke (some v) conn with
      | .error reason => .error reason
      | .ok () => .ok ⟨v, conn, h⟩

/-- An accepted stroke is the one that came, on the connection it came on. -/
theorem accept_eq_ok {stroke : Var} {conn : ConnectionInfo} {a : AcceptedStroke}
    (h : accept stroke conn = .ok a) : stroke = some a.stroke ∧ a.conn = conn := by
  cases stroke with
  | none => cases h
  | some v =>
      unfold accept at h
      dsimp only at h
      split at h
      · cases h
      · obtain rfl := Except.ok.inj h
        exact ⟨rfl, rfl⟩

/-! ## The gateway behind it -/

/-- What the gateway sends. -/
inductive Frame
  | error (message : String) (code : Option String) (strokeId : Var) (retryable : Option Bool)
  | joinAck (boardId : Var) (strokes : List Value)
  | strokeBroadcast (stroke : Value)
  | userJoined (userId : Var)
  | userLeft (userId : Var)

/-- A `handleJoin` that waits for `getStrokes`, and the key of its board. -/
structure DoorJoin where
  ws : ℕ
  boardId : Var
  userId : Var
  board : String
  isExistingUser : Bool

/-- A `handleStroke` that waits for `submitStroke`. -/
structure DoorStroke where
  ws : ℕ
  accepted : AcceptedStroke

/-- The gateway, down to the frames it has sent. -/
structure Door where
  manager : BoardManager
  connections : OrderedMap ℕ ConnectionInfo
  joins : List DoorJoin
  submissions : List DoorStroke
  nextWs : ℕ
  /-- the objects that have been keys of a map -/
  objects : ℕ
  /-- the frames that were sent, each with its socket -/
  sent : List (ℕ × Frame)

namespace Door

/-- The key of a string in a map whose keys may be any values: a string stands behind a quote. -/
def textKey (s : String) : String := "\"" ++ s

/-- The key that a value is.  An object is a key like no other. -/
def key (objects : ℕ) : Var → String
  | none => "undefined"
  | some .null => "null"
  | some (.bool b) => if b then "true" else "false"
  | some (.number n) => "#" ++ String.ofList n.lit
  | some (.infinity negative) => if negative then "-Infinity" else "Infinity"
  | some (.string s) => textKey s
  | some (.array _) | some (.object _) => "[" ++ toString objects

/-- Nobody is connected. -/
def start : Door := ⟨[], [], [], [], 0, 0, []⟩

/-- What connections and replicas do to the gateway. -/
inductive Event
  /-- a connection with the query parameters of its URL -/
  | connect (boardId userId : Option String) (token : Option (List UInt16)) (now : ℕ)
  | message (ws : ℕ) (data : List Char) (now : ℕ)
  /-- `getStrokes` has returned -/
  | strokesRead (k : ℕ) (strokes : List Value)
  /-- `submitStroke` has returned -/
  | submitted (k : ℕ) (success : Bool)
  | close (ws : ℕ)

/-- `sendTo`: to an open socket. -/
def sendTo (s : Door) (ws : ℕ) (frame : Frame) : Door :=
  if (s.connections.get? ws).isSome then { s with sent := s.sent ++ [(ws, frame)] } else s

/-- `broadcast`: to the open sockets of a board but one. -/
def broadcast (s : Door) (board : String) (frame : Frame) (excludeWs : ℕ) : Door :=
  { s with
    sent := s.sent ++ ((s.manager.recipients board excludeWs).filter fun ws =>
      (s.connections.get? ws).isSome).map fun ws => (ws, frame) }

/-- A frame to a socket that is closed at once. -/
def turnAway (s : Door) (message : String) : Door :=
  { s with sent := s.sent ++ [(s.nextWs, .error message none none none)] }

/-- The connection handler.  A token that throws ends the process. -/
def connect (limits : GatewayLimits) (authToken : Option (List UInt16)) (s : Door)
    (boardId userId : Option String) (token : Option (List UInt16)) (now : ℕ) : Option Door :=
  match tokensMatch token authToken with
  | .error _ => none
  | .ok false => some { s with nextWs := s.nextWs + 1 }
  | .ok true =>
      let s' :=
        match boardId.filter (· ≠ ""), userId.filter (· ≠ "") with
        | some boardId, some userId =>
            if s.manager.hasUser (textKey boardId) (textKey userId) = false ∧
                limits.maxUsersPerBoard ≤ s.manager.getUserCount (textKey boardId) then
              s.turnAway "Board user limit reached"
            else { s with connections := s.connections.set s.nextWs ⟨boardId, userId, 0, now⟩ }
        | _, _ => s.turnAway "Missing boardId or userId query parameter"
      some { s' with nextWs := s.nextWs + 1 }

/-- `handleJoin` up to its `await`. -/
def handleJoin (s : Door) (ws : ℕ) (boardId userId : Var) : Door :=
  let board := key s.objects boardId
  let user := key (s.objects + 1) userId
  { s with
    manager := s.manager.joinBoard board user ws
    joins := s.joins ++ [⟨ws, boardId, userId, board, s.manager.hasUser board user⟩]
    objects := s.objects + 2 }

/-- `handleJoin` after its `await`. -/
def acknowledge (s : Door) (k : ℕ) (j : DoorJoin) (strokes : List Value) : Door :=
  let s := { s with joins := s.joins.eraseIdx k }.sendTo j.ws (.joinAck j.boardId strokes)
  if j.isExistingUser then s else s.broadcast j.board (.userJoined j.userId) j.ws

/-- `handleStroke` up to its `await`. -/
def handleStroke (limits : GatewayLimits) (s : Door) (ws : ℕ) (info : ConnectionInfo)
    (stroke : Var) (now : ℕ) : Door :=
  match accept stroke info with
  | .error reason => s.sendTo ws (.error reason none none none)
  | .ok accepted =>
      let (info', passed) :=
        info.countStroke limits.rateLimitWindowMs limits.strokeRateLimitPerSec now
      let s := { s with connections := s.connections.set ws info' }
      if passed then { s with submissions := s.submissions ++ [⟨ws, accepted⟩] }
      else
        s.sendTo ws (.error "Rate limit exceeded" (some "RATE_LIMITED")
          (member accepted.stroke "id") (some true))

/-- `handleStroke` after its `await`. -/
def submitted (s : Door) (k : ℕ) (sub : DoorStroke) (success : Bool) : Door :=
  let s := { s with submissions := s.submissions.eraseIdx k }
  if success then
    s.broadcast (textKey sub.accepted.conn.boardId) (.strokeBroadcast sub.accepted.stroke) sub.ws
  else
    s.sendTo sub.ws (.error "Failed to submit stroke" (some "RAFT_WRITE_FAILED")
      (member sub.accepted.stroke "id") (some true))

/-- A frame of a connection. -/
def handleMessage (limits : GatewayLimits) (s : Door) (ws : ℕ) (info : ConnectionInfo)
    (data : List Char) (now : ℕ) : Door :=
  match dispatch data with
  | .reply message => s.sendTo ws (.error message none none none)
  | .join boardId userId => s.handleJoin ws boardId userId
  | .stroke stroke => s.handleStroke limits ws info stroke now

/-- The close handler. -/
def closeSocket (s : Door) (ws : ℕ) (info : ConnectionInfo) : Door :=
  let (manager, fullyDisconnected) :=
    s.manager.leaveBoard (textKey info.boardId) (textKey info.userId) ws
  let s := { s with manager, connections := s.connections.erase ws }
  if fullyDisconnected then
    s.broadcast (textKey info.boardId) (.userLeft (some (.string info.userId))) ws
  else s

/-- An event, if it can happen. -/
def next (limits : GatewayLimits) (authToken : Option (List UInt16)) (s : Door) :
    Event → Option Door
  | .connect boardId userId token now => s.connect limits authToken boardId userId token now
  | .message ws data now =>
      (s.connections.get? ws).map fun info => s.handleMessage limits ws info data now
  | .strokesRead k strokes => (s.joins[k]?).map fun j => s.acknowledge k j strokes
  | .submitted k success => (s.submissions[k]?).map fun sub => s.submitted k sub success
  | .close ws => (s.connections.get? ws).map (s.closeSocket ws)

/-! ## Where strokes come from -/

section Provenance

variable (limits : GatewayLimits) (authToken : Option (List UInt16)) (es : List Event)

/-- The event happens in this state of the run. -/
def Occurs (e : Event) (s : Door) : Prop :=
  ∃ before after, es = before ++ e :: after ∧
    Runs.exec (next limits authToken) start before = some s

/-- The socket was connected with these ids, and with a token that matches. -/
def Admitted (ws : ℕ) (boardId userId : String) : Prop :=
  ∃ s token now, Occurs limits authToken es (.connect (some boardId) (some userId) token now) s ∧
    s.nextWs = ws ∧ tokensMatch token authToken = .ok true

/-- A frame of the socket brought the stroke, within the limit of the connection that it is
accepted for. -/
def Brought (sub : DoorStroke) : Prop :=
  ∃ s data now, Occurs limits authToken es (.message sub.ws data now) s ∧
    s.connections.get? sub.ws = some sub.accepted.conn ∧
    dispatch data = .stroke (some sub.accepted.stroke) ∧
    (sub.accepted.conn.countStroke limits.rateLimitWindowMs limits.strokeRateLimitPerSec now).2 =
      true

/-- The submission of the stroke succeeded. -/
def Committed (sub : DoorStroke) : Prop :=
  ∃ s k, Occurs limits authToken es (.submitted k true) s ∧ s.submissions[k]? = some sub

/-- A frame of the socket asked to join the board. -/
def Asked (ws : ℕ) (boardId : String) : Prop :=
  ∃ s data now userId, Occurs limits authToken es (.message ws data now) s ∧
    dispatch data = .join (some (.string boardId)) userId

/-- What entitles a socket to a frame. -/
def Due (ws : ℕ) : Frame → Prop
  | .strokeBroadcast stroke => ∃ sub : DoorStroke, sub.accepted.stroke = stroke ∧ sub.ws ≠ ws ∧
      Admitted limits authToken es sub.ws sub.accepted.conn.boardId sub.accepted.conn.userId ∧
      Brought limits authToken es sub ∧ Committed limits authToken es sub ∧
      Asked limits authToken es ws sub.accepted.conn.boardId ∧
      ∃ boardId userId, Admitted limits authToken es ws boardId userId
  | .joinAck _ _ => ∃ boardId userId, Admitted limits authToken es ws boardId userId
  | .error _ _ _ _ | .userJoined _ | .userLeft _ => True

/-- Connections, users, submissions and frames are what the events of the run account for. -/
structure Honest (s : Door) : Prop where
  connections : ∀ ws info, s.connections.get? ws = some info →
    Admitted limits authToken es ws info.boardId info.userId
  wellFormed : s.manager.WellFormed
  members : ∀ boardId user ws, ws ∈ s.manager.socketsOf (textKey boardId) user →
    Asked limits authToken es ws boardId
  submissions : ∀ sub ∈ s.submissions, Brought limits authToken es sub ∧
    Admitted limits authToken es sub.ws sub.accepted.conn.boardId sub.accepted.conn.userId
  sent : ∀ ws frame, (ws, frame) ∈ s.sent → Due limits authToken es ws frame

end Provenance

variable {limits : GatewayLimits} {authToken : Option (List UInt16)} {es : List Event}
  {s s' : Door}

/-- Different names are different keys. -/
theorem textKey_inj {boardId boardId' : String} (h : textKey boardId = textKey boardId') :
    boardId = boardId' := by
  have hlist := congrArg String.toList h
  simp only [textKey, String.toList_append] at hlist
  exact String.toList_inj.mp (List.append_cancel_left hlist)

/-- Only a string has the key of a string. -/
theorem key_eq_textKey {objects : ℕ} {v : Var} {boardId : String}
    (h : key objects v = textKey boardId) : v = some (.string boardId) := by
  have hhead : (key objects v).toList.head? = some '"' := by
    rw [h, textKey, String.toList_append]
    rfl
  match v with
  | none => simp [key] at hhead
  | some .null => simp [key] at hhead
  | some (.bool b) => cases b <;> simp [key] at hhead
  | some (.number n) => simp [key, String.toList_append] at hhead
  | some (.infinity negative) => cases negative <;> simp [key] at hhead
  | some (.string s) => rw [textKey_inj h]
  | some (.array _) => simp [key, String.toList_append] at hhead
  | some (.object _) => simp [key, String.toList_append] at hhead

/-- Nothing was sent yet. -/
theorem honest_start : Honest limits authToken es start where
  connections := fun ws info h => by cases h
  wellFormed := ⟨fun b => OrderedMap.keysDistinct_nil, fun b u h => by cases h⟩
  members := fun boardId user ws h => by cases h
  submissions := fun sub h => by cases h
  sent := fun ws frame h => by cases h

namespace Honest

/-- More frames. -/
theorem send (h : Honest limits authToken es s) {frames : List (ℕ × Frame)}
    (hframes : ∀ ws frame, (ws, frame) ∈ frames → Due limits authToken es ws frame) :
    Honest limits authToken es { s with sent := s.sent ++ frames } :=
  { h with
    sent := fun ws frame hmem =>
      (List.mem_append.mp hmem).elim (h.sent ws frame) (hframes ws frame) }

/-- A frame that is due may be sent. -/
theorem sendTo (h : Honest limits authToken es s) {ws : ℕ} {frame : Frame}
    (hframe : (∃ boardId userId, Admitted limits authToken es ws boardId userId) →
      Due limits authToken es ws frame) :
    Honest limits authToken es (s.sendTo ws frame) := by
  unfold Door.sendTo
  split
  · next hopen =>
    obtain ⟨info, hinfo⟩ := Option.isSome_iff_exists.mp hopen
    apply h.send
    intro ws' frame' hmem
    obtain ⟨rfl, rfl⟩ := Prod.mk.inj (List.mem_singleton.mp hmem)
    exact hframe ⟨_, _, h.connections _ info hinfo⟩
  · exact h

/-- A frame that is due to every connection of the board may be. -/
theorem broadcast (h : Honest limits authToken es s) {board : String} {frame : Frame}
    {excludeWs : ℕ}
    (hframe : ∀ ws, ws ≠ excludeWs → (∃ user, ws ∈ s.manager.socketsOf board user) →
      (∃ boardId userId, Admitted limits authToken es ws boardId userId) →
      Due limits authToken es ws frame) :
    Honest limits authToken es (s.broadcast board frame excludeWs) := by
  apply h.send
  intro ws frame' hmem
  obtain ⟨ws', hws, heq⟩ := List.mem_map.mp hmem
  obtain ⟨rfl, rfl⟩ := Prod.mk.inj heq
  obtain ⟨hrecipient, hopen⟩ := List.mem_filter.mp hws
  obtain ⟨hne, huser⟩ := (BoardManager.mem_recipients h.wellFormed).mp hrecipient
  obtain ⟨info, hinfo⟩ := Option.isSome_iff_exists.mp hopen
  exact hframe ws' hne huser ⟨_, _, h.connections ws' info hinfo⟩

/-- A new connection was admitted. -/
theorem connect (h : Honest limits authToken es s) {boardId userId : Option String}
    {token : Option (List UInt16)} {now : ℕ}
    (hnow : Occurs limits authToken es (.connect boardId userId token now) s)
    (hstep : s.connect limits authToken boardId userId token now = some s') :
    Honest limits authToken es s' := by
  unfold Door.connect at hstep
  split at hstep
  · cases hstep
  · obtain rfl := Option.some.inj hstep
    exact { h with }
  · next htoken =>
    obtain rfl := Option.some.inj hstep
    have hturned : ∀ message, Honest limits authToken es (s.turnAway message) := by
      intro message
      apply h.send
      intro ws frame hmem
      obtain ⟨rfl, rfl⟩ := Prod.mk.inj (List.mem_singleton.mp hmem)
      trivial
    split
    · next b u hb hu =>
      split
      · exact { hturned _ with }
      · have hadmitted : Admitted limits authToken es s.nextWs b u := by
          obtain ⟨rfl, -⟩ := Option.filter_eq_some_iff.mp hb
          obtain ⟨rfl, -⟩ := Option.filter_eq_some_iff.mp hu
          exact ⟨s, token, now, hnow, rfl, htoken⟩
        refine { h with connections := fun ws info hinfo => ?_ }
        by_cases hws : ws = s.nextWs
        · subst hws
          rw [OrderedMap.get?_set_self] at hinfo
          obtain rfl := Option.some.inj hinfo
          exact hadmitted
        · rw [OrderedMap.get?_set_ne _ _ hws] at hinfo
          exact h.connections ws info hinfo
    · exact { hturned _ with }

/-- A join was asked for. -/
theorem handleJoin (h : Honest limits authToken es s) {ws : ℕ} {boardId userId : Var}
    (hasked : ∀ b, boardId = some (.string b) → Asked limits authToken es ws b) :
    Honest limits authToken es (s.handleJoin ws boardId userId) := by
  refine { h with
    wellFormed := h.wellFormed.joinBoard _ _ _
    members := fun b user ws' hmem => ?_ }
  rcases BoardManager.mem_socketsOf_joinBoard.mp hmem with hold | hnew
  · exact h.members b user ws' hold
  · obtain ⟨rfl, hboard, -⟩ := hnew
    exact hasked b (key_eq_textKey hboard.symm)

/-- An answer to a join is due to who asked. -/
theorem acknowledge (h : Honest limits authToken es s) (k : ℕ) (j : DoorJoin)
    (strokes : List Value) : Honest limits authToken es (s.acknowledge k j strokes) := by
  have hread : Honest limits authToken es { s with joins := s.joins.eraseIdx k } := { h with }
  have hack : Honest limits authToken es
      ({ s with joins := s.joins.eraseIdx k }.sendTo j.ws (.joinAck j.boardId strokes)) :=
    hread.sendTo id
  unfold Door.acknowledge
  dsimp only
  split
  · exact hack
  · exact hack.broadcast fun _ _ _ _ => trivial

/-- An accepted stroke was brought. -/
theorem handleStroke (h : Honest limits authToken es s) {ws now : ℕ} {info : ConnectionInfo}
    {stroke : Var} (hinfo : s.connections.get? ws = some info)
    (hbrought : ∀ a, accept stroke info = .ok a →
      (info.countStroke limits.rateLimitWindowMs limits.strokeRateLimitPerSec now).2 = true →
      Brought limits authToken es ⟨ws, a⟩) :
    Honest limits authToken es (s.handleStroke limits ws info stroke now) := by
  unfold Door.handleStroke
  split
  · exact h.sendTo fun _ => trivial
  · next a haccept =>
    obtain ⟨-, hconn⟩ := accept_eq_ok haccept
    obtain ⟨hboard, huser⟩ := Gateway.ids_countStroke limits.rateLimitWindowMs
      limits.strokeRateLimitPerSec info now
    have hadmitted := h.connections ws info hinfo
    have hcounted : Honest limits authToken es { s with
        connections := s.connections.set ws (info.countStroke limits.rateLimitWindowMs
          limits.strokeRateLimitPerSec now).1 } := by
      refine { h with connections := fun ws' info' hinfo' => ?_ }
      by_cases hws : ws' = ws
      · subst hws
        rw [OrderedMap.get?_set_self] at hinfo'
        obtain rfl := Option.some.inj hinfo'
        rw [hboard, huser]
        exact hadmitted
      · rw [OrderedMap.get?_set_ne _ _ hws] at hinfo'
        exact h.connections ws' info' hinfo'
    dsimp only
    split
    · next hpassed =>
      refine { hcounted with submissions := fun sub hsub => ?_ }
      rcases List.mem_append.mp hsub with hold | hnew
      · exact h.submissions sub hold
      · obtain rfl := List.mem_singleton.mp hnew
        refine ⟨hbrought a haccept hpassed, ?_⟩
        rw [hconn]
        exact hadmitted
    · exact hcounted.sendTo fun _ => trivial

/-- A frame is a join, a stroke, or answered at once. -/
theorem handleMessage (h : Honest limits authToken es s) {ws now : ℕ} {info : ConnectionInfo}
    {data : List Char} (hnow : Occurs limits authToken es (.message ws data now) s)
    (hinfo : s.connections.get? ws = some info) :
    Honest limits authToken es (s.handleMessage limits ws info data now) := by
  unfold Door.handleMessage
  split
  · exact h.sendTo fun _ => trivial
  · next boardId userId hdispatch =>
    apply h.handleJoin
    intro b hb
    exact ⟨s, data, now, userId, hnow, hb ▸ hdispatch⟩
  · next stroke hdispatch =>
    apply h.handleStroke hinfo
    intro a haccept hpassed
    obtain ⟨hstroke, hconn⟩ := accept_eq_ok haccept
    subst hconn
    exact ⟨s, data, now, hnow, hinfo, hstroke ▸ hdispatch, hpassed⟩

/-- A stroke that was committed is due to the others. -/
theorem submitted (h : Honest limits authToken es s) {k : ℕ} {sub : DoorStroke} {success : Bool}
    (hnow : Occurs limits authToken es (.submitted k success) s)
    (hsub : s.submissions[k]? = some sub) :
    Honest limits authToken es (s.submitted k sub success) := by
  obtain ⟨hbrought, hadmitted⟩ := h.submissions sub (List.mem_of_getElem? hsub)
  have hdone : Honest limits authToken es { s with submissions := s.submissions.eraseIdx k } :=
    { h with submissions := fun sub' hsub' => h.submissions sub' (List.mem_of_mem_eraseIdx hsub') }
  unfold Door.submitted
  dsimp only
  split
  · next hsuccess =>
    rw [hsuccess] at hnow
    apply hdone.broadcast
    intro ws hne hmember hopen
    obtain ⟨user, huser⟩ := hmember
    exact ⟨sub, rfl, Ne.symm hne, hadmitted, hbrought, ⟨s, k, hnow, hsub⟩,
      h.members _ user ws huser, hopen⟩
  · exact hdone.sendTo fun _ => trivial

/-- A connection that closes is sent nothing. -/
theorem closeSocket (h : Honest limits authToken es s) (ws : ℕ) (info : ConnectionInfo) :
    Honest limits authToken es (s.closeSocket ws info) := by
  have hclosed : Honest limits authToken es { s with
      manager := (s.manager.leaveBoard (textKey info.boardId) (textKey info.userId) ws).1
      connections := s.connections.erase ws } := by
    refine { h with
      connections := fun ws' info' hinfo' => ?_
      wellFormed := h.wellFormed.leaveBoard _ _ _
      members := fun b user ws' hmem =>
        h.members b user ws' (BoardManager.mem_socketsOf_leaveBoard.mp hmem).1 }
    by_cases hws : ws' = ws
    · subst hws
      rw [OrderedMap.get?_erase_self] at hinfo'
      cases hinfo'
    · rw [OrderedMap.get?_erase_ne _ hws] at hinfo'
      exact h.connections ws' info' hinfo'
  unfold Door.closeSocket
  dsimp only
  split
  · exact hclosed.broadcast fun _ _ _ _ => trivial
  · exact hclosed

/-- **One event.** -/
theorem next (h : Honest limits authToken es s) {e : Event}
    (hnow : Occurs limits authToken es e s) (hstep : s.next limits authToken e = some s') :
    Honest limits authToken es s' := by
  cases e with
  | connect boardId userId token now => exact h.connect hnow hstep
  | message ws data now =>
      obtain ⟨info, hinfo, rfl⟩ := Option.map_eq_some_iff.mp hstep
      exact h.handleMessage hnow hinfo
  | strokesRead k strokes =>
      obtain ⟨j, -, rfl⟩ := Option.map_eq_some_iff.mp hstep
      exact h.acknowledge k j strokes
  | submitted k success =>
      obtain ⟨sub, hsub, rfl⟩ := Option.map_eq_some_iff.mp hstep
      exact h.submitted hnow hsub
  | close ws =>
      obtain ⟨info, -, rfl⟩ := Option.map_eq_some_iff.mp hstep
      exact h.closeSocket ws info

end Honest

/-- A run from the start in which every frame is faithful. -/
structure Faithful (limits : GatewayLimits) (authToken : Option (List UInt16)) (es : List Event)
    (s : Door) : Prop where
  exec : Runs.exec (next limits authToken) start es = some s
  frames : ∀ ws data now, .message ws data now ∈ es → Json.Faithful data

/-- The stroke of a faithful frame has printed numbers. -/
theorem printed_of_dispatch {data : List Char} {stroke : Value} (hdata : Json.Faithful data)
    (h : dispatch data = .stroke (some stroke)) : stroke.printed = true := by
  unfold dispatch at h
  split at h
  · cases h
  · next message hparse =>
      have hprinted := hdata.printed message hparse
      have hmember : member message "stroke" = some stroke := by
        split at h
        · cases h
        · split at h
          · cases h
          · split at h
            · cases h
            · split at h
              · injection h
              · split at h <;> cases h
      unfold member at hmember
      split at hmember
      · exact Json.Value.printed_member hprinted hmember
      · cases hmember

/-- What was brought came in a frame of the run. -/
theorem Faithful.printed_brought (h : Faithful limits authToken es s) {sub : DoorStroke}
    (hbrought : Brought limits authToken es sub) : sub.accepted.stroke.printed = true := by
  obtain ⟨s', data, now, ⟨before, after, rfl, -⟩, -, hdispatch, -⟩ := hbrought
  have hmem : Event.message sub.ws data now ∈ before ++ .message sub.ws data now :: after :=
    List.mem_append_right _ List.mem_cons_self
  exact printed_of_dispatch (h.frames _ _ _ hmem) hdispatch

/-- Every run is honest. -/
theorem honest_exec (hrun : Runs.exec (next limits authToken) start es = some s) :
    Honest limits authToken es s :=
  (Runs.Reach.along hrun).invariant honest_start fun _ _ _ h hnow hstep => h.next hnow hstep

/-- **No forgery.**  In every run of faithful frames, whatever they hold and whatever calls return,
a stroke that a socket is shown was brought by another socket, which was connected with a matching
token under the very board and user that the stroke names, in a frame that passed validation and
the rate limit, its numbers being printed doubles; it was submitted with success; and the socket
that is shown it has asked for the board. -/
theorem no_forgery (hrun : Faithful limits authToken es s) {ws : ℕ}
    {stroke : Value} (hsent : (ws, Frame.strokeBroadcast stroke) ∈ s.sent) :
    ∃ (sub : DoorStroke) (boardId userId : String),
      sub.accepted.stroke = stroke ∧ sub.ws ≠ ws ∧ stroke.printed = true ∧
      member stroke "boardId" = some (.string boardId) ∧
      member stroke "userId" = some (.string userId) ∧
      Admitted limits authToken es sub.ws boardId userId ∧
      Brought limits authToken es sub ∧ Committed limits authToken es sub ∧
      Asked limits authToken es ws boardId := by
  obtain ⟨sub, rfl, hne, hadmitted, hbrought, hcommitted, hasked, -⟩ :=
    (honest_exec hrun.exec).sent _ _ hsent
  obtain ⟨hboard, huser⟩ := sub.accepted.member_ids
  exact ⟨sub, _, _, rfl, hne, hrun.printed_brought hbrought, hboard, huser, hadmitted, hbrought,
    hcommitted, hasked⟩

/-- Two sockets join a board, and the first of them draws on it. -/
def drawing : List Event :=
  [.connect (some "board") (some "user") (token "secret") 0,
    .connect (some "board") (some "guest") (token "secret") 0,
    .message 0 (Json.stringify (joinMessage "board" "user")) 1, .strokesRead 0 [],
    .message 1 (Json.stringify (joinMessage "board" "guest")) 1, .strokesRead 0 [],
    .message 0 (Json.stringify (strokeMessage (.dot "x" "board"))) 2, .submitted 0 true]

/-- The strokes that a socket was shown one by one. -/
def shown (s : Door) (ws : ℕ) : List Value :=
  s.sent.filterMap fun sent =>
    match sent with
    | (ws', .strokeBroadcast stroke) => if ws' = ws then some stroke else none
    | _ => none

/-- What is shown was sent. -/
theorem mem_sent_of_shown {ws : ℕ} (h : s.shown ws ≠ []) :
    ∃ stroke, (ws, Frame.strokeBroadcast stroke) ∈ s.sent := by
  obtain ⟨stroke, hmem⟩ := List.exists_mem_of_ne_nil _ h
  obtain ⟨sent, hsent, heq⟩ := List.mem_filterMap.mp hmem
  split at heq
  · split at heq
    · next hws =>
      subst hws
      exact ⟨_, hsent⟩
    · cases heq
  · cases heq

/-- In the drawing a stroke reaches the other user. -/
theorem exists_drawing : ∃ s, Runs.exec (next Gateway.defaultLimits (token "secret")) start
    drawing = some s ∧ ∃ stroke, (1, Frame.strokeBroadcast stroke) ∈ s.sent := by
  have hshown : ((Runs.exec (next Gateway.defaultLimits (token "secret")) start drawing).any
      fun s => !(s.shown 1).isEmpty) = true := by
    decide +kernel
  cases hrun : Runs.exec (next Gateway.defaultLimits (token "secret")) start drawing with
  | none =>
      rw [hrun] at hshown
      cases hshown
  | some s =>
      rw [hrun] at hshown
      exact ⟨s, rfl, mem_sent_of_shown (by simpa using hshown)⟩

/-- The frames of the drawing are as a client prints them. -/
theorem faithful_drawing (h : Runs.exec (next Gateway.defaultLimits (token "secret")) start
    drawing = some s) : Faithful Gateway.defaultLimits (token "secret") drawing s := by
  refine ⟨h, fun ws data now hmem => ?_⟩
  have hjoin : ∀ user, user = "user" ∨ user = "guest" →
      Json.Faithful (Json.stringify (joinMessage "board" user)) := by
    rintro user (rfl | rfl)
    · exact Json.faithful_stringify ⟨by simp, trivial, trivial, trivial, trivial⟩
        (by decide +kernel) (by decide +kernel) (by decide +kernel)
    · exact Json.faithful_stringify ⟨by simp, trivial, trivial, trivial, trivial⟩
        (by decide +kernel) (by decide +kernel) (by decide +kernel)
  have hstroke : Json.Faithful (Json.stringify (strokeMessage (.dot "x" "board"))) :=
    Json.faithful_stringify ⟨by simp, trivial, (Stroke.dot "x" "board").plain_toJson, trivial⟩
      (by decide +kernel) (by decide +kernel) (by decide +kernel)
  simp only [drawing, List.mem_cons, List.not_mem_nil, or_false, reduceCtorEq, false_or,
    Event.message.injEq] at hmem
  rcases hmem with ⟨-, rfl, -⟩ | ⟨-, rfl, -⟩ | ⟨-, rfl, -⟩
  · exact hjoin "user" (Or.inl rfl)
  · exact hjoin "guest" (Or.inr rfl)
  · exact hstroke

/-- It came from the first, who was admitted. -/
theorem no_forgery_drawing : ∃ (stroke : Value) (sub : DoorStroke) (boardId userId : String),
    sub.accepted.stroke = stroke ∧ sub.ws ≠ 1 ∧ stroke.printed = true ∧
    member stroke "boardId" = some (.string boardId) ∧
    member stroke "userId" = some (.string userId) ∧
    Admitted Gateway.defaultLimits (token "secret") drawing sub.ws boardId userId ∧
    Brought Gateway.defaultLimits (token "secret") drawing sub ∧
    Committed Gateway.defaultLimits (token "secret") drawing sub ∧
    Asked Gateway.defaultLimits (token "secret") drawing 1 boardId := by
  obtain ⟨s, hrun, stroke, hsent⟩ := exists_drawing
  exact ⟨stroke, no_forgery (faithful_drawing hrun) hsent⟩

/-- **Strokes need the token.**  A socket that is shown strokes, those of a board that it reads or
one that is broadcast, was connected with a matching token. -/
theorem strokes_need_token (hrun : Runs.exec (next limits authToken) start es = some s) {ws : ℕ}
    {frame : Frame} (hsent : (ws, frame) ∈ s.sent)
    (hshows : (∃ boardId strokes, frame = .joinAck boardId strokes) ∨
      ∃ stroke, frame = .strokeBroadcast stroke) :
    ∃ boardId userId, Admitted limits authToken es ws boardId userId := by
  have hdue := (honest_exec hrun).sent _ _ hsent
  rcases hshows with hack | hbroadcast
  · obtain ⟨boardId, strokes, rfl⟩ := hack
    exact hdue
  · obtain ⟨stroke, rfl⟩ := hbroadcast
    obtain ⟨-, -, -, -, -, -, -, hadmitted⟩ := hdue
    exact hadmitted

/-- The other user was admitted too. -/
theorem strokes_need_token_drawing : ∃ boardId userId,
    Admitted Gateway.defaultLimits (token "secret") drawing 1 boardId userId := by
  obtain ⟨s, hrun, stroke, hsent⟩ := exists_drawing
  exact strokes_need_token hrun hsent (.inr ⟨stroke, rfl⟩)

/-! ## From the pen to the others -/

/-- A valid stroke is accepted. -/
theorem accept_of_valid {v : Value} {conn : ConnectionInfo}
    (h : validateStroke (some v) conn = .ok ()) : accept (some v) conn = .ok ⟨v, conn, h⟩ := by
  unfold accept
  dsimp only
  split
  · next reason herror =>
    rw [h] at herror
    cases herror
  · rfl

/-- A valid stroke within the limit waits to be submitted. -/
theorem next_message_stroke {ws now : ℕ} {info : ConnectionInfo} {stroke : Stroke}
    (hinfo : s.connections.get? ws = some info)
    (hvalid : validateStroke (some stroke.toJson) info = .ok ())
    (hpassed : (info.countStroke limits.rateLimitWindowMs limits.strokeRateLimitPerSec now).2 =
      true)
    (hstep : s.next limits authToken
      (.message ws (Json.stringify (strokeMessage stroke)) now) = some s') :
    s'.submissions = s.submissions ++ [⟨ws, stroke.toJson, info, hvalid⟩] := by
  obtain ⟨info', hinfo', rfl⟩ := Option.map_eq_some_iff.mp hstep
  obtain rfl := Option.some.inj (hinfo.symm.trans hinfo')
  unfold handleMessage
  simp only [dispatch_stroke]
  unfold handleStroke
  simp only [accept_of_valid hvalid, hpassed, if_true]

/-- A stroke that was submitted goes to all the others on its board. -/
theorem mem_sent_submitted (h : s.manager.WellFormed) {k ws : ℕ} {sub : DoorStroke} {user : String}
    (hsub : s.submissions[k]? = some sub)
    (hmember : ws ∈ s.manager.socketsOf (textKey sub.accepted.conn.boardId) user)
    (hopen : (s.connections.get? ws).isSome = true) (hne : ws ≠ sub.ws)
    (hstep : s.next limits authToken (.submitted k true) = some s') :
    (ws, Frame.strokeBroadcast sub.accepted.stroke) ∈ s'.sent := by
  obtain ⟨sub', hsub', rfl⟩ := Option.map_eq_some_iff.mp hstep
  obtain rfl := Option.some.inj (hsub.symm.trans hsub')
  have hrecipient : ws ∈ s.manager.recipients (textKey sub.accepted.conn.boardId) sub.ws :=
    (BoardManager.mem_recipients h).mpr ⟨hne, user, hmember⟩
  refine List.mem_append_right _ (List.mem_map.mpr ⟨ws, ?_, rfl⟩)
  exact List.mem_filter.mpr ⟨hrecipient, hopen⟩

/-- **From the pen to the others.**  A stroke drawn on the page of a connection, with no more than
`maxStrokePoints` points, is taken from the text that its client sends, if it is within the rate
limit; and whenever its submission succeeds, it is shown as it was drawn to every other open
socket that is on the board by then. -/
theorem drawn_strokes_shown {props : UseDrawing.Props} {events : List UseDrawing.Event}
    {stroke : Stroke} {info : ConnectionInfo} {ws now : ℕ} (hprops : props.Fits info)
    (hevents : ∀ e ∈ events, UseDrawing.Event.Fits info e)
    (hdrawn : .complete stroke ∈ (UseDrawing.mounted props).effects events)
    (hshort : stroke.points.length ≤ maxStrokePoints)
    (hinfo : s.connections.get? ws = some info)
    (hpassed : (info.countStroke limits.rateLimitWindowMs limits.strokeRateLimitPerSec now).2 =
      true)
    (hstep : s.next limits authToken
      (.message ws (Json.stringify (strokeMessage stroke)) now) = some s') :
    ∃ sub : DoorStroke, sub.ws = ws ∧ s'.submissions = s.submissions ++ [sub] ∧
      ∀ es s₁ k s₂, Runs.exec (next limits authToken) start es = some s₁ →
        s₁.submissions[k]? = some sub → s₁.next limits authToken (.submitted k true) = some s₂ →
        ∀ ws' user, ws' ≠ ws → (s₁.connections.get? ws').isSome = true →
          ws' ∈ s₁.manager.socketsOf (textKey info.boardId) user →
          (ws', Frame.strokeBroadcast stroke.toJson) ∈ s₂.sent := by
  have hvalid : validateStroke (some stroke.toJson) info = .ok () :=
    (UseDrawing.validateStroke_drawn hprops hevents hdrawn).2.trans (if_pos hshort)
  refine ⟨⟨ws, stroke.toJson, info, hvalid⟩, rfl,
    next_message_stroke hinfo hvalid hpassed hstep, ?_⟩
  intro es s₁ k s₂ hrun hsub hdone ws' user hne hopen hmember
  exact mem_sent_submitted (honest_exec hrun).wellFormed hsub hmember hopen hne hdone

/-- A socket that was just admitted. -/
def opened : Door :=
  { start with connections := [(0, ⟨"b", "u", 0, 0⟩)], nextWs := 1 }

/-- A pointer that dwells for a while draws a stroke that the replicas may show. -/
theorem drawn_strokes_shown_dwell : ∃ (s' : Door) (sub : DoorStroke), sub.ws = 0 ∧
    s'.submissions = [sub] ∧
    ∀ es s₁ k s₂, Runs.exec (next Gateway.defaultLimits (token "secret")) start es = some s₁ →
      s₁.submissions[k]? = some sub →
      s₁.next Gateway.defaultLimits (token "secret") (.submitted k true) = some s₂ →
      ∀ ws' user, ws' ≠ 0 → (s₁.connections.get? ws').isSome = true →
        ws' ∈ s₁.manager.socketsOf (textKey "b") user →
        (ws', Frame.strokeBroadcast (UseDrawing.dwelled 1).toJson) ∈ s₂.sent := by
  have hinfo : opened.connections.get? 0 = some ⟨"b", "u", 0, 0⟩ := rfl
  have hstep : opened.next Gateway.defaultLimits (token "secret") (.message 0
      (Json.stringify (strokeMessage (UseDrawing.dwelled 1))) 0) =
        some (opened.handleMessage Gateway.defaultLimits 0 ⟨"b", "u", 0, 0⟩
          (Json.stringify (strokeMessage (UseDrawing.dwelled 1))) 0) := by
    rw [next, hinfo, Option.map_some]
  exact ⟨_, drawn_strokes_shown UseDrawing.fits_page UseDrawing.fits_dwell
    (UseDrawing.complete_mem_dwell (by decide)) (by decide) hinfo (by decide) hstep⟩

end Door

end QuorumCanvas
