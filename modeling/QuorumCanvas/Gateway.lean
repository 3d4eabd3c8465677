import QuorumCanvas.JoinRace
import QuorumCanvas.RateLimit

/-!
# The gateway: sockets, boards, and who is on them

A socket is admitted under the `boardId` and `userId` of its URL, which the
gateway keeps as its `ConnectionInfo`.  It is on a board once a join message has
put it there, under the ids of that message, and it is taken off when it closes,
under the ids of the URL.

Sockets are numbered as they connect.  `connections` holds those that are open.
`joined`, `broadcasts`, `left` and `due` are history variables: the sockets that
have sent a join, what broadcasts have delivered, and the departures that were
announced and that should have been.
-/

namespace QuorumCanvas

namespace BoardManager

/-- `leaveBoard`, with what it returns. -/
def leaveBoard (m : BoardManager) (boardId userId : String) (ws : ℕ) : BoardManager × Bool :=
  match OrderedMap.get? (m.users boardId) userId with
  | none => (m, false)
  | some sockets =>
      let sockets := sockets.filter fun s => s ≠ ws
      if sockets = [] then
        (OrderedMap.set m boardId (OrderedMap.erase (m.users boardId) userId), true)
      else (OrderedMap.set m boardId (OrderedMap.set (m.users boardId) userId sockets), false)

/-- How many users a board has. -/
def getUserCount (m : BoardManager) (boardId : String) : ℕ := (m.users boardId).length

end BoardManager

/-- The limits of the gateway's configuration. -/
structure GatewayLimits where
  maxUsersPerBoard : ℕ
  rateLimitWindowMs : ℕ
  strokeRateLimitPerSec : ℕ

/-- A `handleJoin` that waits for `getStrokes`. -/
structure Joining where
  ws : ℕ
  boardId : String
  userId : String
  isExistingUser : Bool
  deriving DecidableEq

/-- A `handleStroke` that waits for `submitStroke`; `boardId` is the connection's. -/
structure Submitting where
  ws : ℕ
  boardId : String
  stroke : Stroke
  deriving DecidableEq

/-- A message that a broadcast to `boardId` has sent to socket `ws`, which was
admitted to `admittedTo`. -/
structure Delivery where
  ws : ℕ
  admittedTo : String
  boardId : String
  message : ServerMessage
  deriving DecidableEq

/-- The gateway, and what it was seen to do. -/
structure Gateway where
  manager : BoardManager
  connections : OrderedMap ℕ ConnectionInfo
  joins : List Joining
  submissions : List Submitting
  nextWs : ℕ
  joined : List ℕ
  broadcasts : List Delivery
  left : List (String × String)
  due : List (String × String)
  deriving DecidableEq

namespace Gateway

/-- Nobody is connected. -/
def start : Gateway := ⟨[], [], [], [], 0, [], [], [], []⟩

/-- What connections and replicas do. -/
inductive Event
  /-- a connection with the query parameters `boardId` and `userId`; `authorized`
  is the answer of `tokensMatch` -/
  | connect (boardId userId : Option String) (authorized : Bool) (now : ℕ)
  | join (ws : ℕ) (boardId userId : String)
  /-- `getStrokes` has returned -/
  | acknowledge (k : ℕ)
  /-- a stroke of valid shape -/
  | stroke (ws : ℕ) (stroke : Stroke) (now : ℕ)
  /-- `submitStroke` has returned -/
  | submitted (k : ℕ) (success : Bool)
  | close (ws : ℕ)
  deriving DecidableEq

/-- `broadcast`: to the open sockets of a board but one. -/
def broadcast (s : Gateway) (boardId : String) (message : ServerMessage) (excludeWs : ℕ) :
    Gateway :=
  { s with
    broadcasts := s.broadcasts ++ (s.manager.recipients boardId excludeWs).filterMap fun ws =>
      (s.connections.get? ws).map fun info => ⟨ws, info.boardId, boardId, message⟩ }

/-- The connection handler, after it has read the query parameters. -/
def enter (limits : GatewayLimits) (s : Gateway) (boardId userId : String) (now : ℕ) : Gateway :=
  if s.manager.hasUser boardId userId = false ∧
      limits.maxUsersPerBoard ≤ s.manager.getUserCount boardId then s
  else { s with connections := s.connections.set s.nextWs ⟨boardId, userId, 0, now⟩ }

/-- The connection handler; a socket that it rejects is closed at once. -/
def connect (limits : GatewayLimits) (s : Gateway) (boardId userId : Option String)
    (authorized : Bool) (now : ℕ) : Gateway :=
  let s' :=
    match boardId, userId with
    | some boardId, some userId =>
        if authorized = false ∨ boardId = "" ∨ userId = "" then s
        else s.enter limits boardId userId now
    | _, _ => s
  { s' with nextWs := s.nextWs + 1 }

/-- `handleJoin` up to its `await`. -/
def handleJoin (s : Gateway) (ws : ℕ) (boardId userId : String) : Gateway :=
  { s with
    manager := s.manager.joinBoard boardId userId ws
    joins := s.joins ++ [⟨ws, boardId, userId, s.manager.hasUser boardId userId⟩]
    joined := s.joined ++ [ws] }

/-- `handleJoin` after its `await`; the acknowledgement goes to the socket itself. -/
def acknowledge (s : Gateway) (k : ℕ) (j : Joining) : Gateway :=
  let s := { s with joins := s.joins.eraseIdx k }
  if j.isExistingUser then s else s.broadcast j.boardId (.userJoined j.userId) j.ws

/-- `handleStroke` up to its `await`: the stroke must be the connection's own, and
within its rate limit. -/
def handleStroke (limits : GatewayLimits) (s : Gateway) (ws : ℕ) (info : ConnectionInfo)
    (stroke : Stroke) (now : ℕ) : Gateway :=
  if stroke.boardId ≠ info.boardId ∨ stroke.userId ≠ info.userId then s
  else
    let (info', passed) :=
      info.countStroke limits.rateLimitWindowMs limits.strokeRateLimitPerSec now
    let s := { s with connections := s.connections.set ws info' }
    if passed then { s with submissions := s.submissions ++ [⟨ws, info.boardId, stroke⟩] } else s

/-- `handleStroke` after its `await`. -/
def submitted (s : Gateway) (k : ℕ) (sub : Submitting) (success : Bool) : Gateway :=
  let s := { s with submissions := s.submissions.eraseIdx k }
  if success then s.broadcast sub.boardId (.strokeBroadcast sub.stroke) sub.ws else s

/-- Socket `ws` is open, has joined, and was admitted as `userId` to `boardId`. -/
def Member (s : Gateway) (ws : ℕ) (boardId userId : String) : Prop :=
  ws ∈ s.joined ∧
    ∃ info, s.connections.get? ws = some info ∧ info.boardId = boardId ∧ info.userId = userId

/-- Some open socket that has joined was admitted as `userId` to `boardId`. -/
def present (s : Gateway) (boardId userId : String) : Bool :=
  s.connections.any fun c =>
    decide (c.1 ∈ s.joined ∧ c.2.boardId = boardId ∧ c.2.userId = userId)

/-- The departure that the close of a socket should announce: that of the user whose
last socket on the board it was. -/
def departure (s : Gateway) (ws : ℕ) (info : ConnectionInfo) : List (String × String) :=
  let rest := { s with connections := s.connections.erase ws }
  if ws ∈ s.joined ∧ rest.present info.boardId info.userId = false then
    [(info.boardId, info.userId)]
  else []

/-- The close handler. -/
def closeSocket (s : Gateway) (ws : ℕ) (info : ConnectionInfo) : Gateway :=
  let (manager, fullyDisconnected) := s.manager.leaveBoard info.boardId info.userId ws
  let s' := { s with
    manager
    connections := s.connections.erase ws
    due := s.due ++ s.departure ws info }
  if fullyDisconnected then
    { s'.broadcast info.boardId (.userLeft info.userId) ws with
      left := s.left ++ [(info.boardId, info.userId)] }
  else s'

/-- One such event, if it can happen. -/
def next (limits : GatewayLimits) (s : Gateway) : Event → Option Gateway
  | .connect boardId userId authorized now =>
      some (s.connect limits boardId userId authorized now)
  | .join ws boardId userId =>
      if (s.connections.get? ws).isSome then some (s.handleJoin ws boardId userId) else none
  | .acknowledge k => (s.joins[k]?).map (s.acknowledge k)
  | .stroke ws stroke now =>
      (s.connections.get? ws).map fun info => s.handleStroke limits ws info stroke now
  | .submitted k success => (s.submissions[k]?).map fun sub => s.submitted k sub success
  | .close ws => (s.connections.get? ws).map (s.closeSocket ws)

end Gateway

end QuorumCanvas
