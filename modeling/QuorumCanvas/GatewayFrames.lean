import QuorumCanvas.FrontDoor

/-!
# Two gateways

`Gateway` is a machine of sockets, joins and strokes; the front door is text.  As long as the joins
name their board and user by strings, the front door is that machine: it answers what is no join
and no valid stroke without a trace, and every other event is an event of the machine
(`frames_refine`).

The maps of the front door have keys of any kind, those of the machine only strings.
-/

namespace QuorumCanvas

open Js (Var)
open Json (Value)

namespace BoardManager

open Door (textKey)

/-- The boards with the keys of the front door. -/
def keyed (m : BoardManager) : BoardManager :=
  OrderedMap.rename textKey (OrderedMap.rename textKey id) m

/-- Different names are different keys. -/
theorem textKey_injective : Function.Injective textKey := fun _ _ => Door.textKey_inj

variable (m : BoardManager) (boardId userId : String) (ws : ℕ)

/-- The users of a board under its key. -/
theorem users_keyed :
    m.keyed.users (textKey boardId) = OrderedMap.rename textKey id (m.users boardId) := by
  unfold users keyed
  rw [OrderedMap.get?_rename textKey_injective]
  cases OrderedMap.get? m boardId <;> rfl

/-- The connections of a user under both keys. -/
theorem get?_users_keyed : OrderedMap.get? (m.keyed.users (textKey boardId)) (textKey userId) =
    OrderedMap.get? (m.users boardId) userId := by
  rw [users_keyed, OrderedMap.get?_rename textKey_injective, Option.map_id]
  rfl

/-- Whether a user is on a board. -/
theorem hasUser_keyed :
    m.keyed.hasUser (textKey boardId) (textKey userId) = m.hasUser boardId userId := by
  unfold hasUser
  rw [get?_users_keyed]

/-- How many users a board has. -/
theorem getUserCount_keyed : m.keyed.getUserCount (textKey boardId) = m.getUserCount boardId := by
  unfold getUserCount
  rw [users_keyed, OrderedMap.rename, List.length_map]

/-- Setting a board before renaming or after it. -/
theorem set_keyed (users : OrderedMap String (List ℕ)) :
    OrderedMap.set m.keyed (textKey boardId) (OrderedMap.rename textKey id users) =
      keyed (OrderedMap.set m boardId users) :=
  OrderedMap.set_rename textKey_injective _ m boardId users

/-- Joining before renaming or after it. -/
theorem joinBoard_keyed : m.keyed.joinBoard (textKey boardId) (textKey userId) ws =
    (m.joinBoard boardId userId ws).keyed := by
  unfold joinBoard socketsOf
  dsimp only
  rw [get?_users_keyed, users_keyed, ← set_keyed]
  congr 1
  exact OrderedMap.set_rename textKey_injective id _ userId _

/-- Leaving before renaming or after it, with the same answer. -/
theorem leaveBoard_keyed : m.keyed.leaveBoard (textKey boardId) (textKey userId) ws =
    ((m.leaveBoard boardId userId ws).1.keyed, (m.leaveBoard boardId userId ws).2) := by
  unfold leaveBoard
  rw [get?_users_keyed]
  cases OrderedMap.get? (m.users boardId) userId with
  | none => rfl
  | some sockets =>
      dsimp only
      split
      · rw [users_keyed, OrderedMap.erase_rename textKey_injective, set_keyed]
      · rw [users_keyed, ← set_keyed]
        congr 2
        exact OrderedMap.set_rename textKey_injective id _ userId _

/-- A broadcast reaches the same connections. -/
theorem recipients_keyed (excludeWs : ℕ) :
    m.keyed.recipients (textKey boardId) excludeWs = m.recipients boardId excludeWs := by
  unfold recipients
  rw [users_keyed, OrderedMap.rename, List.flatMap_map]
  rfl

end BoardManager

/-! ## The machine behind the text -/

/-- What the machine keeps of a stroke. -/
def sketch (stroke : Value) : Stroke where
  id := (AcceptedStroke.text (member stroke "id")).getD ""
  boardId := (AcceptedStroke.text (member stroke "boardId")).getD ""
  userId := (AcceptedStroke.text (member stroke "userId")).getD ""
  color := ""
  width := .zero
  points := []
  timestamp := .zero
  action := none
  targetStrokeId := none

/-- The message of the machine that a frame is. -/
def Frame.view : Frame → Option ServerMessage
  | .strokeBroadcast stroke => some (.strokeBroadcast (sketch stroke))
  | .userJoined (some (.string userId)) => some (.userJoined userId)
  | .userLeft (some (.string userId)) => some (.userLeft userId)
  | _ => none

namespace Door

/-- A join of the machine at the front door. -/
def ofJoining (j : Joining) : DoorJoin :=
  ⟨j.ws, some (.string j.boardId), some (.string j.userId), textKey j.boardId, j.isExistingUser⟩

/-- The submission as the gateway of names and sketches sees it. -/
def toSubmitting (sub : DoorStroke) : Submitting :=
  ⟨sub.ws, sub.accepted.conn.boardId, sketch sub.accepted.stroke⟩

/-- The event of the machine that an event is; `none` if nothing but an error comes of it. -/
def view (authToken : Option (List UInt16)) (s : Door) : Event → Option Gateway.Event
  | .connect boardId userId token now =>
      some (.connect boardId userId (decide (tokensMatch token authToken = .ok true)) now)
  | .message ws data now =>
      match dispatch data with
      | .reply _ => none
      | .join boardId userId => do
          some (.join ws (← AcceptedStroke.text boardId) (← AcceptedStroke.text userId))
      | .stroke stroke => do
          let info ← s.connections.get? ws
          let accepted ← (accept stroke info).toOption
          some (.stroke ws (sketch accepted.stroke) now)
  | .strokesRead k _ => some (.acknowledge k)
  | .submitted k success => some (.submitted k success)
  | .close ws => some (.close ws)

/-- A join names its board and user by strings. -/
def Named : Event → Prop
  | .message _ data _ => ∀ boardId userId, dispatch data = .join boardId userId →
      ∃ b u, boardId = some (.string b) ∧ userId = some (.string u)
  | _ => True

/-- The state of the front door is that of the machine. -/
structure Abstracts (s : Door) (g : Gateway) : Prop where
  manager : s.manager = g.manager.keyed
  connections : s.connections = g.connections
  joins : s.joins = g.joins.map ofJoining
  submissions : s.submissions.map toSubmitting = g.submissions
  nextWs : s.nextWs = g.nextWs
  /-- the broadcasts -/
  sent : s.sent.filterMap (fun f => f.2.view.map fun message => (f.1, message)) =
    g.broadcasts.map fun d => (d.ws, d.message)

variable {limits : GatewayLimits} {authToken : Option (List UInt16)} {s s' : Door} {g : Gateway}

/-- Both gateways start empty. -/
theorem abstracts_start : start.Abstracts Gateway.start := ⟨rfl, rfl, rfl, rfl, rfl, rfl⟩

namespace Abstracts

/-- Frames that are no broadcast. -/
theorem mute (h : s.Abstracts g) {frames : List (ℕ × Frame)}
    (hmute : ∀ f ∈ frames, f.2.view = none) :
    Abstracts { s with sent := s.sent ++ frames } g := by
  refine { h with sent := ?_ }
  have hnone : frames.filterMap (fun f => f.2.view.map fun message => (f.1, message)) = [] := by
    apply List.filterMap_eq_nil_iff.mpr
    intro f hf
    rw [hmute f hf, Option.map_none]
  rw [List.filterMap_append, hnone, List.append_nil]
  exact h.sent

/-- A frame that the abstract gateway does not see. -/
theorem sendTo (h : s.Abstracts g) (ws : ℕ) {frame : Frame} (hmute : frame.view = none) :
    (s.sendTo ws frame).Abstracts g := by
  unfold Door.sendTo
  split
  · apply h.mute
    intro f hf
    rw [List.mem_singleton.mp hf]
    exact hmute
  · exact h

/-- A frame that it sees goes to the same connections. -/
theorem broadcast (h : s.Abstracts g) (boardId : String) {frame : Frame} {message : ServerMessage}
    (hview : frame.view = some message) (excludeWs : ℕ) :
    (s.broadcast (textKey boardId) frame excludeWs).Abstracts
      (g.broadcast boardId message excludeWs) := by
  refine { h with sent := ?_ }
  unfold Door.broadcast Gateway.broadcast
  dsimp only
  rw [List.filterMap_append, List.map_append, h.sent, h.manager, BoardManager.recipients_keyed,
    h.connections]
  congr 1
  induction g.manager.recipients boardId excludeWs with
  | nil => rfl
  | cons ws recipients ih =>
      cases hget : g.connections.get? ws with
      | none => simp [hget, ih]
      | some info => simpa [hget, hview] using ih

/-- The next socket. -/
theorem count {t : Door} {u : Gateway} (h : s.Abstracts g) (ht : t.Abstracts u) :
    Abstracts { t with nextWs := s.nextWs + 1 } { u with nextWs := g.nextWs + 1 } :=
  { ht with nextWs := congrArg (· + 1) h.nextWs }

/-- A connection that is turned away never existed for the abstract gateway. -/
theorem turnAway (h : s.Abstracts g) (message : String) : (s.turnAway message).Abstracts g := by
  apply h.mute
  intro f hf
  rw [List.mem_singleton.mp hf]
  rfl

/-- A connection that is let in. -/
theorem connect (h : s.Abstracts g) {boardId userId : Option String}
    {token : Option (List UInt16)} {now : ℕ}
    (hstep : s.connect limits authToken boardId userId token now = some s') :
    s'.Abstracts (g.connect limits boardId userId
      (decide (tokensMatch token authToken = .ok true)) now) := by
  unfold Door.connect at hstep
  split at hstep
  · cases hstep
  · next htoken =>
    obtain rfl := Option.some.inj hstep
    have hrefused : g.connect limits boardId userId
        (decide (tokensMatch token authToken = .ok true)) now =
          { g with nextWs := g.nextWs + 1 } := by
      unfold Gateway.connect
      cases boardId <;> cases userId <;> simp [htoken]
    rw [hrefused]
    exact h.count h
  · next htoken =>
    obtain rfl := Option.some.inj hstep
    have hauthorized : decide (tokensMatch token authToken = .ok true) = true :=
      decide_eq_true htoken
    rw [hauthorized]
    split
    · next b u hb hu =>
      obtain ⟨rfl, hboard⟩ := Option.filter_eq_some_iff.mp hb
      obtain ⟨rfl, huser⟩ := Option.filter_eq_some_iff.mp hu
      have hentered : g.connect limits (some b) (some u) true now =
          { g.enter limits b u now with nextWs := g.nextWs + 1 } := by
        unfold Gateway.connect
        simp only [Bool.true_eq_false, false_or]
        rw [if_neg]
        simpa using ⟨of_decide_eq_true hboard, of_decide_eq_true huser⟩
      rw [hentered]
      apply h.count
      unfold Gateway.enter
      rw [h.manager, BoardManager.hasUser_keyed, BoardManager.getUserCount_keyed]
      split
      · exact h.turnAway _
      · refine { h with manager := rfl, connections := ?_ }
        rw [h.nextWs, h.connections]
    · next hmissing =>
      have hleft : g.connect limits boardId userId true now =
          { g with nextWs := g.nextWs + 1 } := by
        unfold Gateway.connect
        cases boardId with
        | none => rfl
        | some b =>
            cases userId with
            | none => rfl
            | some u =>
                have hempty : b = "" ∨ u = "" := by
                  by_contra hboth
                  obtain ⟨hb, hu⟩ := not_or.mp hboth
                  exact hmissing b u (by simp [hb]) (by simp [hu])
                simp [hempty]
      rw [hleft]
      exact h.count (h.turnAway _)

/-- A join with strings for names. -/
theorem handleJoin (h : s.Abstracts g) (ws : ℕ) (boardId userId : String) :
    (s.handleJoin ws (some (.string boardId)) (some (.string userId))).Abstracts
      (g.handleJoin ws boardId userId) := by
  have hboard : ∀ k, key k (some (.string boardId)) = textKey boardId := fun _ => rfl
  have huser : ∀ k, key k (some (.string userId)) = textKey userId := fun _ => rfl
  refine { h with manager := ?_, joins := ?_ }
  · unfold Door.handleJoin Gateway.handleJoin
    dsimp only
    rw [hboard, huser, h.manager, BoardManager.joinBoard_keyed]
  · unfold Door.handleJoin Gateway.handleJoin
    dsimp only
    rw [hboard, huser, h.manager, BoardManager.hasUser_keyed, h.joins, List.map_append]
    rfl

/-- A join that is answered. -/
theorem acknowledge (h : s.Abstracts g) (k : ℕ) (j : Joining) (strokes : List Value) :
    (s.acknowledge k (ofJoining j) strokes).Abstracts (g.acknowledge k j) := by
  have hread : Abstracts { s with joins := s.joins.eraseIdx k }
      { g with joins := g.joins.eraseIdx k } := by
    refine { h with joins := ?_ }
    rw [h.joins, List.eraseIdx_map]
  have hack := hread.sendTo j.ws
    (rfl : Frame.view (.joinAck (some (.string j.boardId)) strokes) = none)
  unfold Door.acknowledge Gateway.acknowledge
  dsimp only
  by_cases hexisting : j.isExistingUser = true
  · have hexisting' : (ofJoining j).isExistingUser = true := hexisting
    rw [if_pos hexisting, if_pos hexisting']
    exact hack
  · have hexisting' : ¬ (ofJoining j).isExistingUser = true := hexisting
    rw [if_neg hexisting, if_neg hexisting']
    exact hack.broadcast j.boardId (rfl : Frame.view (.userJoined (some (.string j.userId))) =
      some (.userJoined j.userId)) j.ws

/-- What the machine keeps of an accepted stroke are the ids of its connection. -/
theorem sketch_ids (a : AcceptedStroke) :
    (sketch a.stroke).boardId = a.conn.boardId ∧ (sketch a.stroke).userId = a.conn.userId := by
  obtain ⟨hboard, huser⟩ := a.member_ids
  unfold sketch
  rw [hboard, huser]
  exact ⟨rfl, rfl⟩

/-- A stroke that is accepted, or is over the limit. -/
theorem handleStroke (h : s.Abstracts g) {ws now : ℕ} {a : AcceptedStroke} {stroke : Var}
    (haccept : accept stroke a.conn = .ok a) :
    (s.handleStroke limits ws a.conn stroke now).Abstracts
      (g.handleStroke limits ws a.conn (sketch a.stroke) now) := by
  obtain ⟨hboard, huser⟩ := sketch_ids a
  have hcounted : ∀ info, Abstracts { s with connections := s.connections.set ws info }
      { g with connections := g.connections.set ws info } := by
    intro info
    refine { h with connections := ?_ }
    rw [h.connections]
  unfold Door.handleStroke Gateway.handleStroke
  rw [haccept, hboard, huser]
  simp only [ne_eq, not_true_eq_false, or_self, if_false]
  split
  · refine { hcounted _ with submissions := ?_ }
    rw [List.map_append, h.submissions]
    rfl
  · exact (hcounted _).sendTo ws rfl

/-- A submission that is answered. -/
theorem submitted (h : s.Abstracts g) (k : ℕ) (sub : DoorStroke) (success : Bool) :
    (s.submitted k sub success).Abstracts (g.submitted k (toSubmitting sub) success) := by
  have hdone : Abstracts { s with submissions := s.submissions.eraseIdx k }
      { g with submissions := g.submissions.eraseIdx k } := by
    refine { h with submissions := ?_ }
    rw [← h.submissions, List.eraseIdx_map]
  unfold Door.submitted Gateway.submitted
  dsimp only [toSubmitting]
  split
  · exact hdone.broadcast _ rfl sub.ws
  · exact hdone.sendTo sub.ws rfl

/-- A connection that closes. -/
theorem closeSocket (h : s.Abstracts g) (ws : ℕ) (info : ConnectionInfo) :
    (s.closeSocket ws info).Abstracts (g.closeSocket ws info) := by
  have hclosed : ∀ due, Abstracts
      { s with
        manager := (g.manager.leaveBoard info.boardId info.userId ws).1.keyed
        connections := s.connections.erase ws }
      { g with
        manager := (g.manager.leaveBoard info.boardId info.userId ws).1
        connections := g.connections.erase ws
        due := due } := by
    intro due
    refine { h with manager := rfl, connections := ?_ }
    rw [h.connections]
  unfold Door.closeSocket Gateway.closeSocket
  rw [h.manager, BoardManager.leaveBoard_keyed]
  dsimp only
  split
  · have hsaid := (hclosed (g.due ++ g.departure ws info)).broadcast info.boardId
      (rfl : Frame.view (.userLeft (some (.string info.userId))) = some (.userLeft info.userId)) ws
    exact { hsaid with }
  · exact hclosed _

/-- **One event** of the front door is one of the machine, or none. -/
theorem next (h : s.Abstracts g) {e : Event} (hnamed : Named e)
    (hstep : s.next limits authToken e = some s') :
    ∃ g', Runs.exec (Gateway.next limits) g (s.view authToken e).toList = some g' ∧
      s'.Abstracts g' := by
  have hone : ∀ {e' g'}, s.view authToken e = some e' → g.next limits e' = some g' →
      s'.Abstracts g' → ∃ g', Runs.exec (Gateway.next limits) g (s.view authToken e).toList =
        some g' ∧ s'.Abstracts g' := by
    intro e' g' hview hnext hg'
    refine ⟨g', ?_, hg'⟩
    rw [hview, Option.toList_some, Runs.exec, hnext]
    rfl
  have hnone : s.view authToken e = none → s'.Abstracts g →
      ∃ g', Runs.exec (Gateway.next limits) g (s.view authToken e).toList = some g' ∧
        s'.Abstracts g' := by
    intro hview hg
    refine ⟨g, ?_, hg⟩
    rw [hview]
    rfl
  cases e with
  | connect boardId userId token now => exact hone rfl rfl (h.connect hstep)
  | message ws data now =>
      obtain ⟨info, hinfo, rfl⟩ := Option.map_eq_some_iff.mp hstep
      have hinfo' : g.connections.get? ws = some info := h.connections ▸ hinfo
      unfold Door.handleMessage at hone hnone ⊢
      cases hdispatch : dispatch data with
      | reply message =>
          simp only [hdispatch] at hone hnone ⊢
          apply hnone
          · unfold view
            simp only [hdispatch]
          · exact h.sendTo ws rfl
      | join boardId userId =>
          obtain ⟨b, u, rfl, rfl⟩ := hnamed boardId userId hdispatch
          simp only [hdispatch] at hone hnone ⊢
          have hview : s.view authToken (.message ws data now) = some (.join ws b u) := by
            unfold view
            simp only [hdispatch]
            rfl
          refine hone hview ?_ (h.handleJoin ws b u)
          exact if_pos (Option.isSome_iff_exists.mpr ⟨info, hinfo'⟩)
      | stroke stroke =>
          simp only [hdispatch] at hone hnone ⊢
          cases haccept : accept stroke info with
          | error reason =>
              apply hnone
              · unfold view
                simp only [hdispatch, hinfo, Option.bind_eq_bind, Option.bind_some, haccept]
                rfl
              · unfold Door.handleStroke
                rw [haccept]
                exact h.sendTo ws rfl
          | ok a =>
              obtain ⟨-, rfl⟩ := accept_eq_ok haccept
              have hview : s.view authToken (.message ws data now) =
                  some (.stroke ws (sketch a.stroke) now) := by
                unfold view
                simp only [hdispatch, hinfo, Option.bind_eq_bind, Option.bind_some, haccept]
                rfl
              refine hone hview ?_ (h.handleStroke haccept)
              exact Option.map_eq_some_iff.mpr ⟨a.conn, hinfo', rfl⟩
  | strokesRead k strokes =>
      obtain ⟨j, hj, rfl⟩ := Option.map_eq_some_iff.mp hstep
      rw [h.joins, List.getElem?_map] at hj
      obtain ⟨j', hj', rfl⟩ := Option.map_eq_some_iff.mp hj
      refine hone rfl ?_ (h.acknowledge k j' strokes)
      exact Option.map_eq_some_iff.mpr ⟨j', hj', rfl⟩
  | submitted k success =>
      obtain ⟨sub, hsub, rfl⟩ := Option.map_eq_some_iff.mp hstep
      refine hone rfl ?_ (h.submitted k sub success)
      refine Option.map_eq_some_iff.mpr ⟨toSubmitting sub, ?_, rfl⟩
      rw [← h.submissions, List.getElem?_map, hsub]
      rfl
  | close ws =>
      obtain ⟨info, hinfo, rfl⟩ := Option.map_eq_some_iff.mp hstep
      refine hone rfl ?_ (h.closeSocket ws info)
      exact Option.map_eq_some_iff.mpr ⟨info, h.connections ▸ hinfo, rfl⟩

end Abstracts

/-- **The front door is the machine.**  A run of faithful frames in which joins name their ids by
strings is a run of the machine, event for event but for what is answered by an error: the same
sockets are connected, the same users are on the boards, the same calls wait, and the same
broadcasts have gone out, each stroke in them with the ids that the machine gives it. -/
theorem frames_refine {es : List Event} (hnamed : ∀ e ∈ es, Named e)
    (hrun : Faithful limits authToken es s) :
    ∃ g, Runs.exec (Gateway.next limits) Gateway.start
        (Runs.views (next limits authToken) (view authToken) start es) = some g ∧
      s.Abstracts g :=
  Runs.exec_views (fun _ _ _ _ h hok hstep => h.next hok hstep) abstracts_start hnamed
    hrun.exec

/-- The events of the drawing name boards and users by strings. -/
theorem named_drawing : ∀ e ∈ drawing, Named e := by
  have hjoin : ∀ ws board user now,
      Named (.message ws (Json.stringify (joinMessage board user)) now) := by
    intro ws board user now boardId userId hdispatch
    rw [dispatch_join] at hdispatch
    cases hdispatch
    exact ⟨board, user, rfl, rfl⟩
  have hstroke : ∀ ws now stroke,
      Named (.message ws (Json.stringify (strokeMessage stroke)) now) := by
    intro ws now stroke boardId userId hdispatch
    rw [dispatch_stroke] at hdispatch
    cases hdispatch
  simp only [drawing, List.forall_mem_cons]
  exact ⟨trivial, trivial, hjoin _ _ _ _, trivial, hjoin _ _ _ _, trivial, hstroke _ _ _,
    trivial, List.forall_mem_nil _⟩

/-- A drawing on a board, at both gateways. -/
theorem frames_refine_drawing : ∃ s g,
    Runs.exec (next Gateway.defaultLimits (token "secret")) start drawing = some s ∧
    Runs.exec (Gateway.next Gateway.defaultLimits) Gateway.start
      (Runs.views (next Gateway.defaultLimits (token "secret")) (view (token "secret")) start
        drawing) = some g ∧ s.Abstracts g := by
  obtain ⟨s, hrun, -⟩ := exists_drawing
  obtain ⟨g, hg, habstracts⟩ := frames_refine named_drawing (faithful_drawing hrun)
  exact ⟨s, g, hrun, hg, habstracts⟩

end Door

end QuorumCanvas
