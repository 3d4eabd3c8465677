import Mathlib.Algebra.Group.Nat.Defs
import QuorumCanvas.UseBoard
import QuorumCanvas.Runs

/-!
# Reconnecting from the browser

`useWebSocket` opens a socket when its effect runs and again, after a delay, each
time a socket closes.  The refs are shared by all runs of the effect, the
cleanup clears one timer only, and the `close` event of a socket comes some time
after `close()` was called on it: when that event arrives after the component
was unmounted, it arms a timer that nothing clears any more.

Sockets and timers are numbered as they are made.  `passed` is a history
variable: the messages that `onMessage` was called with, each with its socket.
-/

namespace QuorumCanvas

/-- The `readyState` of a `WebSocket`. -/
inductive ReadyState
  | connecting
  | opened
  | closing
  | closed
  deriving DecidableEq

/-- What the hook was called with: the parameters of the URL and of the join message. -/
structure Address where
  boardId : String
  userId : String
  deriving DecidableEq

/-- A socket, and what was sent on it. -/
structure WebSocket where
  address : Address
  readyState : ReadyState
  /-- The join messages sent on it. -/
  sent : List Address
  deriving DecidableEq

namespace WebSocket

/-- The socket is connecting or open. -/
def live (ws : WebSocket) : Bool := ws.readyState = .connecting ∨ ws.readyState = .opened

/-- `ws.close()` -/
def close (ws : WebSocket) : WebSocket := if ws.live then { ws with readyState := .closing } else ws

end WebSocket

/-- What the hook tells the page. -/
inductive ConnectionStatus
  | connecting
  | connected
  | disconnected
  deriving DecidableEq

/-- A timer of the hook. -/
structure ReconnectTimer where
  id : ℕ
  delay : ℕ
  deriving DecidableEq

/-- The state of the hook: its refs, its sockets and its timers. -/
structure UseWebSocket where
  status : ConnectionStatus
  /-- Every socket that was constructed. -/
  sockets : List WebSocket
  wsRef : Option ℕ
  reconnectAttempt : ℕ
  /-- The timers that are armed. -/
  timers : List ReconnectTimer
  nextTimer : ℕ
  reconnectTimerRef : Option ℕ
  /-- The address that the `connect` of the last render closes over. -/
  connectRef : Option Address
  /-- The effect has run, and its cleanup has not. -/
  effect : Bool
  unmounted : Bool
  passed : List (ℕ × ServerMessage)
  deriving DecidableEq

namespace UseWebSocket

/-- The hook before its first render. -/
def start : UseWebSocket where
  status := .disconnected
  sockets := []
  wsRef := none
  reconnectAttempt := 0
  timers := []
  nextTimer := 0
  reconnectTimerRef := none
  connectRef := none
  effect := false
  unmounted := false
  passed := []

/-- What React, the browser and the server do to the hook. -/
inductive Event
  | render (address : Address)
  /-- the effect of the last render: the cleanup of the one before it, if any, and `connect` -/
  | effects
  | unmount
  | opened (ws : ℕ)
  /-- a message, `none` when it cannot be parsed -/
  | message (ws : ℕ) (data : Option ServerMessage)
  | error (ws : ℕ)
  /-- the server starts the closing handshake -/
  | closing (ws : ℕ)
  | close (ws : ℕ)
  | reconnectTimer (id : ℕ)
  deriving DecidableEq

/-- `wsRef.current` -/
def current (h : UseWebSocket) : Option WebSocket := h.wsRef.bind fun ws => h.sockets[ws]?

/-- `connect` constructs no socket while the current one is live. -/
def connect (h : UseWebSocket) (address : Address) : UseWebSocket :=
  if h.current.any WebSocket.live then h
  else
    { h with
      status := .connecting
      sockets := h.sockets ++ [⟨address, .connecting, []⟩]
      wsRef := some h.sockets.length }

/-- One socket changes. -/
def modify (h : UseWebSocket) (ws : ℕ) (f : WebSocket → WebSocket) : UseWebSocket :=
  { h with sockets := h.sockets.modify ws f }

/-- `wsRef.current?.close()` -/
def closeCurrent (h : UseWebSocket) : UseWebSocket :=
  match h.wsRef with
  | some ws => h.modify ws WebSocket.close
  | none => h

/-- `send` with a join message. -/
def sendJoin (h : UseWebSocket) (address : Address) : UseWebSocket :=
  match h.wsRef with
  | some ws =>
      h.modify ws fun socket =>
        if socket.readyState = .opened then { socket with sent := socket.sent ++ [address] }
        else socket
  | none => h

/-- The cleanup of the effect. -/
def cleanup (h : UseWebSocket) : UseWebSocket :=
  { h with timers := h.timers.filter fun t => some t.id ≠ h.reconnectTimerRef }.closeCurrent

/-- An opened socket joins the board. -/
def onopen (h : UseWebSocket) (ws : ℕ) (address : Address) : UseWebSocket :=
  { h.modify ws fun socket => { socket with readyState := .opened } with
    status := .connected
    reconnectAttempt := 0 }.sendJoin address

/-- A message that parses is passed on. -/
def onmessage (h : UseWebSocket) (ws : ℕ) (data : Option ServerMessage) : UseWebSocket :=
  { h with passed := h.passed ++ (data.map fun message => (ws, message)).toList }

/-- `Math.min(RECONNECT_BASE_DELAY * Math.pow(2, attempt), RECONNECT_MAX_DELAY)`. -/
def reconnectDelay (attempt : ℕ) : ℕ := min (1000 * 2 ^ attempt) 30000

/-- A closed socket arms a timer to reconnect. -/
def onclose (h : UseWebSocket) (ws : ℕ) : UseWebSocket :=
  { h.modify ws fun socket => { socket with readyState := .closed } with
    status := .disconnected
    reconnectAttempt := h.reconnectAttempt + 1
    timers := h.timers ++ [⟨h.nextTimer, reconnectDelay h.reconnectAttempt⟩]
    nextTimer := h.nextTimer + 1
    reconnectTimerRef := some h.nextTimer }

/-- The callback of a reconnect timer. -/
def reconnect (h : UseWebSocket) (id : ℕ) : UseWebSocket :=
  let h := { h with timers := h.timers.filter fun t => t.id ≠ id }
  match h.connectRef with
  | some address => h.connect address
  | none => h

/-- One event.  A socket opens once, delivers messages while it is open, and closes once. -/
def next (h : UseWebSocket) : Event → Option UseWebSocket
  | .render address =>
      if h.unmounted then none else some { h with connectRef := some address }
  | .effects =>
      if h.unmounted then none
      else
        h.connectRef.map fun address =>
          { (if h.effect then h.cleanup else h).connect address with effect := true }
  | .unmount =>
      if h.effect then some { h.cleanup with effect := false, unmounted := true } else none
  | .opened ws =>
      h.sockets[ws]?.bind fun socket =>
        if socket.readyState = .connecting then some (h.onopen ws socket.address) else none
  | .message ws data =>
      h.sockets[ws]?.bind fun socket =>
        if socket.readyState = .opened then some (h.onmessage ws data) else none
  | .error ws =>
      h.sockets[ws]?.bind fun socket =>
        if socket.readyState = .closed then none else some (h.modify ws WebSocket.close)
  | .closing ws =>
      h.sockets[ws]?.bind fun socket =>
        if socket.readyState = .opened then some (h.modify ws WebSocket.close) else none
  | .close ws =>
      h.sockets[ws]?.bind fun socket =>
        if socket.readyState = .closed then none else some (h.onclose ws)
  | .reconnectTimer id => if h.timers.any fun t => t.id = id then some (h.reconnect id) else none

/-! ## What an event does to the sockets -/

/-- Socket number `ws` is connecting or open. -/
def LiveAt (h : UseWebSocket) (ws : ℕ) : Prop :=
  ∃ socket, h.sockets[ws]? = some socket ∧ socket.live

variable {h h' h'' : UseWebSocket} {ws : ℕ}

/-- A live socket is one that was constructed. -/
theorem LiveAt.lt (hlive : h.LiveAt ws) : ws < h.sockets.length := by
  obtain ⟨socket, hget, -⟩ := hlive
  exact (List.getElem?_eq_some_iff.mp hget).1

/-- No socket comes to life. -/
structure Fades (h h' : UseWebSocket) : Prop where
  wsRef : h'.wsRef = h.wsRef
  length : h'.sockets.length = h.sockets.length
  live : ∀ ws, h'.LiveAt ws → h.LiveAt ws
  passed : h'.passed = h.passed

/-- A socket is constructed while that of `wsRef` is neither connecting nor open. -/
structure Constructs (h h' : UseWebSocket) : Prop where
  wsRef : h'.wsRef = some h.sockets.length
  length : h'.sockets.length = h.sockets.length + 1
  live : ∀ ws < h.sockets.length, h'.LiveAt ws → h.LiveAt ws ∧ h.wsRef ≠ some ws
  passed : h'.passed = h.passed

/-- An open socket delivers a message. -/
structure Delivers (h h' : UseWebSocket) : Prop where
  wsRef : h'.wsRef = h.wsRef
  sockets : h'.sockets = h.sockets
  passed : ∃ fresh, h'.passed = h.passed ++ fresh ∧ ∀ d ∈ fresh, h.LiveAt d.1

theorem Fades.refl (h : UseWebSocket) : Fades h h := ⟨rfl, rfl, fun _ hlive => hlive, rfl⟩

theorem Fades.trans (h₁ : Fades h h') (h₂ : Fades h' h'') : Fades h h'' where
  wsRef := h₂.wsRef.trans h₁.wsRef
  length := h₂.length.trans h₁.length
  live ws hlive := h₁.live ws (h₂.live ws hlive)
  passed := h₂.passed.trans h₁.passed

/-- A socket is constructed after others have faded. -/
theorem Fades.constructs (h₁ : Fades h h') (h₂ : Constructs h' h'') : Constructs h h'' where
  wsRef := h₁.length ▸ h₂.wsRef
  length := h₁.length ▸ h₂.length
  live ws hws hlive := by
    obtain ⟨hlive', hne⟩ := h₂.live ws (h₁.length ▸ hws) hlive
    exact ⟨h₁.live ws hlive', h₁.wsRef ▸ hne⟩
  passed := h₂.passed.trans h₁.passed

/-- A change that brings no socket to life. -/
theorem fades_modify {f : WebSocket → WebSocket}
    (hf : ∀ socket, h.sockets[ws]? = some socket → (f socket).live → socket.live) :
    Fades h (h.modify ws f) where
  wsRef := rfl
  length := List.length_modify ..
  live i hlive := by
    obtain ⟨socket, hget, hsocket⟩ := hlive
    have hmodify : (h.sockets.modify ws f)[i]? = some socket := hget
    by_cases hi : ws = i
    · subst hi
      rw [List.getElem?_modify_eq] at hmodify
      obtain ⟨old, hold, rfl⟩ := Option.map_eq_some_iff.mp hmodify
      exact ⟨old, hold, hf old hold hsocket⟩
    · rw [List.getElem?_modify_ne f _ hi] at hmodify
      exact ⟨socket, hmodify, hsocket⟩
  passed := rfl

/-- Closing brings none to life. -/
theorem fades_close (h : UseWebSocket) (ws : ℕ) : Fades h (h.modify ws WebSocket.close) := by
  refine fades_modify fun socket _ hlive => ?_
  unfold WebSocket.close at hlive
  split at hlive
  · assumption
  · exact hlive

/-- Closing the current one brings none to life. -/
theorem fades_closeCurrent (h : UseWebSocket) : Fades h h.closeCurrent := by
  unfold closeCurrent
  split
  · exact fades_close h _
  · exact .refl h

/-- Neither does sending. -/
theorem fades_sendJoin (h : UseWebSocket) (address : Address) : Fades h (h.sendJoin address) := by
  unfold sendJoin
  split
  · refine fades_modify fun socket _ hlive => ?_
    split at hlive <;> exact hlive
  · exact .refl h

/-- Nothing but the sockets, `wsRef` and `passed` matters. -/
theorem Fades.congr (hfades : Fades h h') (hwsRef : h''.wsRef = h'.wsRef)
    (hsockets : h''.sockets = h'.sockets) (hpassed : h''.passed = h'.passed) : Fades h h'' where
  wsRef := hwsRef.trans hfades.wsRef
  length := (congrArg List.length hsockets).trans hfades.length
  live ws hlive := by
    refine hfades.live ws ?_
    unfold LiveAt at hlive ⊢
    rwa [hsockets] at hlive
  passed := hpassed.trans hfades.passed

/-- Neither does the cleanup of an effect. -/
theorem fades_cleanup (h : UseWebSocket) : Fades h h.cleanup := by
  have hcleared : Fades h
      { h with timers := h.timers.filter fun t => some t.id ≠ h.reconnectTimerRef } :=
    (Fades.refl h).congr rfl rfl rfl
  exact hcleared.trans (fades_closeCurrent _)

/-- A socket that opens was live while it connected. -/
theorem fades_onopen {socket : WebSocket} (hget : h.sockets[ws]? = some socket)
    (hconnecting : socket.readyState = .connecting) (address : Address) :
    Fades h (h.onopen ws address) := by
  have hopen : Fades h (h.modify ws fun socket => { socket with readyState := .opened }) := by
    refine fades_modify fun socket' hget' _ => ?_
    obtain rfl := Option.some.inj (hget.symm.trans hget')
    simp [WebSocket.live, hconnecting]
  have hreset : Fades h { h.modify ws fun socket => { socket with readyState := .opened } with
      status := .connected
      reconnectAttempt := 0 } := hopen.congr rfl rfl rfl
  exact hreset.trans (fades_sendJoin _ address)

/-- A socket that has closed is dead. -/
theorem fades_onclose (h : UseWebSocket) (ws : ℕ) : Fades h (h.onclose ws) := by
  have hclose : Fades h (h.modify ws fun socket => { socket with readyState := .closed }) := by
    refine fades_modify fun socket _ hlive => ?_
    simp [WebSocket.live] at hlive
  exact hclose.congr rfl rfl rfl

/-- `connect` constructs a socket or does nothing. -/
theorem connect_cases (h : UseWebSocket) (address : Address) :
    h.connect address = h ∨ Constructs h (h.connect address) := by
  unfold connect
  split
  · exact Or.inl rfl
  · next hnot =>
      refine Or.inr ⟨rfl, by simp, fun i hi hlive => ?_, rfl⟩
      obtain ⟨socket, hget, hsocket⟩ := hlive
      have hold : h.sockets[i]? = some socket := by
        rw [← hget]
        exact (List.getElem?_append_left hi).symm
      refine ⟨⟨socket, hold, hsocket⟩, fun href => hnot ?_⟩
      simp [current, href, hold, hsocket]

/-- `connect` constructs one socket, or none. -/
theorem Fades.connect (hfades : Fades h h') (address : Address) :
    Fades h (h'.connect address) ∨ Constructs h (h'.connect address) := by
  rcases connect_cases h' address with hsame | hconstructs
  · rw [hsame]
    exact Or.inl hfades
  · exact Or.inr (hfades.constructs hconstructs)

/-- What one event does. -/
theorem next_cases {e : Event} (hnext : h.next e = some h') :
    Fades h h' ∨ Constructs h h' ∨ Delivers h h' := by
  cases e with
  | render address =>
      obtain ⟨-, hnext⟩ := Option.ite_none_left_eq_some.mp hnext
      obtain rfl := Option.some.inj hnext
      exact Or.inl ((Fades.refl h).congr rfl rfl rfl)
  | effects =>
      obtain ⟨-, hnext⟩ := Option.ite_none_left_eq_some.mp hnext
      obtain ⟨address, -, rfl⟩ := Option.map_eq_some_iff.mp hnext
      have hcleanup : Fades h (if h.effect then h.cleanup else h) := by
        split
        · exact fades_cleanup h
        · exact .refl h
      rcases hcleanup.connect address with hfades | hconstructs
      · exact Or.inl (hfades.congr rfl rfl rfl)
      · exact Or.inr (Or.inl ⟨hconstructs.wsRef, hconstructs.length, hconstructs.live,
          hconstructs.passed⟩)
  | unmount =>
      obtain ⟨-, hnext⟩ := Option.ite_none_right_eq_some.mp hnext
      obtain rfl := Option.some.inj hnext
      exact Or.inl ((fades_cleanup h).congr rfl rfl rfl)
  | opened ws =>
      obtain ⟨socket, hget, hnext⟩ := Option.bind_eq_some_iff.mp hnext
      obtain ⟨hconnecting, hnext⟩ := Option.ite_none_right_eq_some.mp hnext
      obtain rfl := Option.some.inj hnext
      exact Or.inl (fades_onopen hget hconnecting socket.address)
  | message ws data =>
      obtain ⟨socket, hget, hnext⟩ := Option.bind_eq_some_iff.mp hnext
      obtain ⟨hopen, hnext⟩ := Option.ite_none_right_eq_some.mp hnext
      obtain rfl := Option.some.inj hnext
      refine Or.inr (Or.inr ⟨rfl, rfl, _, rfl, fun d hd => ?_⟩)
      obtain ⟨message, -, rfl⟩ := Option.map_eq_some_iff.mp (Option.mem_toList.mp hd)
      exact ⟨socket, hget, by simp [WebSocket.live, hopen]⟩
  | error ws =>
      obtain ⟨socket, -, hnext⟩ := Option.bind_eq_some_iff.mp hnext
      obtain ⟨-, hnext⟩ := Option.ite_none_left_eq_some.mp hnext
      obtain rfl := Option.some.inj hnext
      exact Or.inl (fades_close h ws)
  | closing ws =>
      obtain ⟨socket, -, hnext⟩ := Option.bind_eq_some_iff.mp hnext
      obtain ⟨-, hnext⟩ := Option.ite_none_right_eq_some.mp hnext
      obtain rfl := Option.some.inj hnext
      exact Or.inl (fades_close h ws)
  | close ws =>
      obtain ⟨socket, -, hnext⟩ := Option.bind_eq_some_iff.mp hnext
      obtain ⟨-, hnext⟩ := Option.ite_none_left_eq_some.mp hnext
      obtain rfl := Option.some.inj hnext
      exact Or.inl (fades_onclose h ws)
  | reconnectTimer id =>
      obtain ⟨-, hnext⟩ := Option.ite_none_right_eq_some.mp hnext
      obtain rfl := Option.some.inj hnext
      have hfired : Fades h { h with timers := h.timers.filter fun t => t.id ≠ id } :=
        (Fades.refl h).congr rfl rfl rfl
      unfold reconnect
      dsimp only
      split
      · exact (hfired.connect _).imp_right Or.inl
      · exact Or.inl hfired

/-! ## One socket -/

/-- Only the socket of `wsRef` is connecting or open. -/
def OnlyCurrent (h : UseWebSocket) : Prop := ∀ ws, h.LiveAt ws → h.wsRef = some ws

/-- At most one socket is connecting or open. -/
def OneLive (h : UseWebSocket) : Prop := ∀ i j, h.LiveAt i → h.LiveAt j → i = j

/-- If only the current socket is live, one is at most. -/
theorem OnlyCurrent.oneLive (honly : h.OnlyCurrent) : h.OneLive := fun i j hi hj =>
  Option.some.inj ((honly i hi).symm.trans (honly j hj))

/-- Every event keeps it so. -/
theorem OnlyCurrent.next {e : Event} (honly : h.OnlyCurrent) (hnext : h.next e = some h') :
    h'.OnlyCurrent := by
  intro ws hlive
  rcases next_cases hnext with hfades | hconstructs | hdelivers
  · rw [hfades.wsRef]
    exact honly ws (hfades.live ws hlive)
  · have hlt : ws < h.sockets.length + 1 := hconstructs.length ▸ hlive.lt
    rcases Nat.lt_succ_iff_lt_or_eq.mp hlt with hold | hnew
    · obtain ⟨hlive', hne⟩ := hconstructs.live ws hold hlive
      exact (hne (honly ws hlive')).elim
    · rw [hconstructs.wsRef, hnew]
  · rw [hdelivers.wsRef]
    unfold LiveAt at hlive
    rw [hdelivers.sockets] at hlive
    exact honly ws hlive

/-- After the cleanup no socket is connecting or open. -/
theorem not_liveAt_cleanup (honly : h.OnlyCurrent) : ¬ h.cleanup.LiveAt ws := by
  intro hlive
  have href := honly ws ((fades_cleanup h).live ws hlive)
  obtain ⟨socket, hget, hsocket⟩ := hlive
  have hmodify : (h.sockets.modify ws WebSocket.close)[ws]? = some socket := by
    have hcleanup : h.cleanup.sockets = h.sockets.modify ws WebSocket.close := by
      unfold cleanup closeCurrent
      simp only [href]
      rfl
    rw [← hcleanup]
    exact hget
  rw [List.getElem?_modify_eq] at hmodify
  obtain ⟨old, -, rfl⟩ := Option.map_eq_some_iff.mp hmodify
  unfold WebSocket.close at hsocket
  split at hsocket
  · simp [WebSocket.live] at hsocket
  · next hdead => exact hdead hsocket

/-! ## Sockets of an earlier run of the effect -/

/-- The first `n` sockets are neither connecting nor open. -/
def Retired (n : ℕ) (h : UseWebSocket) : Prop := n ≤ h.sockets.length ∧ ∀ ws < n, ¬ h.LiveAt ws

/-- A retired socket stays retired. -/
theorem Retired.next {n : ℕ} {e : Event} (hretired : h.Retired n) (hnext : h.next e = some h') :
    h'.Retired n := by
  obtain ⟨hn, hdead⟩ := hretired
  rcases next_cases hnext with hfades | hconstructs | hdelivers
  · exact ⟨hfades.length ▸ hn, fun ws hws hlive => hdead ws hws (hfades.live ws hlive)⟩
  · refine ⟨hconstructs.length ▸ Nat.le_succ_of_le hn, fun ws hws hlive => ?_⟩
    exact hdead ws hws (hconstructs.live ws (Nat.lt_of_lt_of_le hws hn) hlive).1
  · unfold Retired LiveAt
    rw [hdelivers.sockets]
    exact ⟨hn, hdead⟩

/-- What is passed to `onMessage` in a step comes from no retired socket. -/
theorem passed_next {n : ℕ} {e : Event} (hretired : h.Retired n) (hnext : h.next e = some h') :
    ∃ fresh, h'.passed = h.passed ++ fresh ∧ ∀ d ∈ fresh, n ≤ d.1 := by
  rcases next_cases hnext with hfades | hconstructs | hdelivers
  · exact ⟨[], by rw [hfades.passed, List.append_nil], by simp⟩
  · exact ⟨[], by rw [hconstructs.passed, List.append_nil], by simp⟩
  · obtain ⟨fresh, hpassed, hlive⟩ := hdelivers.passed
    refine ⟨fresh, hpassed, fun d hd => ?_⟩
    exact Nat.le_of_not_lt fun hlt => hretired.2 d.1 hlt (hlive d hd)

/-- Nothing that the sockets made so far deliver from now on is passed to `onMessage`;
`n` is their number. -/
def Silences (n : ℕ) (h : UseWebSocket) : Prop :=
  ∀ es h', Runs.exec next h es = some h' →
    ∃ fresh, h'.passed = h.passed ++ fresh ∧ ∀ d ∈ fresh, n ≤ d.1

/-- A retired socket is heard no more. -/
theorem Retired.silences {n : ℕ} (hretired : h.Retired n) : h.Silences n := by
  intro es h' hexec
  have hrun := Runs.Reach.of_exec_any hexec
  refine (hrun.invariant (I := fun h' => h'.Retired n ∧
    ∃ fresh, h'.passed = h.passed ++ fresh ∧ ∀ d ∈ fresh, n ≤ d.1) ?_ ?_).2
  · exact ⟨hretired, [], by simp⟩
  · intro h₁ e h₂ hinv _ hnext
    obtain ⟨hretired₁, fresh, hpassed, hfresh⟩ := hinv
    obtain ⟨more, hmore, hfresh'⟩ := passed_next hretired₁ hnext
    refine ⟨hretired₁.next hnext, fresh ++ more, ?_, ?_⟩
    · rw [hmore, hpassed, List.append_assoc]
    · intro d hd
      rcases List.mem_append.mp hd with hold | hnew
      · exact hfresh d hold
      · exact hfresh' d hnew

/-- A run of the effect again retires the sockets that there are. -/
theorem retired_effects (honly : h.OnlyCurrent) (heffect : h.effect = true)
    (hnext : h.next .effects = some h') : h'.Retired h.sockets.length := by
  obtain ⟨-, hnext⟩ := Option.ite_none_left_eq_some.mp hnext
  obtain ⟨address, -, rfl⟩ := Option.map_eq_some_iff.mp hnext
  rw [if_pos heffect]
  have hcleanup := fades_cleanup h
  have hretired : h.cleanup.Retired h.sockets.length :=
    ⟨Nat.le_of_eq hcleanup.length.symm, fun ws _ => not_liveAt_cleanup honly⟩
  rcases connect_cases h.cleanup address with hsame | hconstructs
  · rw [hsame]
    exact hretired
  · refine ⟨?_, fun ws hws hlive => ?_⟩
    · exact hconstructs.length ▸ Nat.le_succ_of_le hretired.1
    · have hlt : ws < h.cleanup.sockets.length := hcleanup.length.symm ▸ hws
      exact hretired.2 ws hws (hconstructs.live ws hlt hlive).1

/-! ## After the component was unmounted -/

/-- No socket is constructed from now on. -/
def Rests (h : UseWebSocket) : Prop :=
  ∀ es h', Runs.exec next h es = some h' → h'.sockets.length = h.sockets.length

/-- Every socket has had its `close` event, and no timer is armed but the one that the
cleanup clears. -/
def Settled (h : UseWebSocket) : Prop :=
  (∀ socket ∈ h.sockets, socket.readyState = .closed) ∧
    ∀ t ∈ h.timers, some t.id = h.reconnectTimerRef

/-- The parts that rendering sets. -/
def mode (h : UseWebSocket) : Option Address × Bool := ⟨h.connectRef, h.effect⟩

@[simp] theorem mode_connect (h : UseWebSocket) (address : Address) :
    (h.connect address).mode = h.mode := by
  unfold connect
  split <;> rfl

@[simp] theorem mode_modify (h : UseWebSocket) (ws : ℕ) (f : WebSocket → WebSocket) :
    (h.modify ws f).mode = h.mode := rfl

@[simp] theorem mode_cleanup (h : UseWebSocket) : h.cleanup.mode = h.mode := by
  unfold cleanup closeCurrent
  split <;> rfl

@[simp] theorem mode_onopen (h : UseWebSocket) (ws : ℕ) (address : Address) :
    (h.onopen ws address).mode = h.mode := by
  unfold onopen sendJoin
  split <;> rfl

@[simp] theorem mode_onclose (h : UseWebSocket) (ws : ℕ) : (h.onclose ws).mode = h.mode := rfl

@[simp] theorem mode_reconnect (h : UseWebSocket) (id : ℕ) : (h.reconnect id).mode = h.mode := by
  unfold reconnect
  dsimp only
  split
  · exact mode_connect _ _
  · rfl

/-- The effect runs after a render. -/
def Rendered (h : UseWebSocket) : Prop := h.mode.2 = true → h.mode.1.isSome

/-- The hook stays rendered while it is mounted. -/
theorem Rendered.next {e : Event} (hrendered : h.Rendered) (hnext : h.next e = some h') :
    h'.Rendered := by
  have hkeep : h'.mode = h.mode → h'.Rendered := fun hmode => by
    unfold Rendered
    rw [hmode]
    exact hrendered
  cases e with
  | render address =>
      obtain ⟨-, hnext⟩ := Option.ite_none_left_eq_some.mp hnext
      obtain rfl := Option.some.inj hnext
      exact fun _ => rfl
  | effects =>
      obtain ⟨-, hnext⟩ := Option.ite_none_left_eq_some.mp hnext
      obtain ⟨address, haddress, rfl⟩ := Option.map_eq_some_iff.mp hnext
      have hmode : ((if h.effect then h.cleanup else h).connect address).mode = h.mode := by
        rw [mode_connect]
        split
        · exact mode_cleanup h
        · rfl
      intro _
      have hsome : h.mode.1.isSome := by
        unfold mode
        rw [haddress]
        rfl
      rw [← hmode] at hsome
      exact hsome
  | unmount =>
      obtain ⟨-, hnext⟩ := Option.ite_none_right_eq_some.mp hnext
      obtain rfl := Option.some.inj hnext
      exact fun heffect => absurd heffect Bool.false_ne_true
  | opened ws =>
      obtain ⟨socket, -, hnext⟩ := Option.bind_eq_some_iff.mp hnext
      obtain ⟨-, hnext⟩ := Option.ite_none_right_eq_some.mp hnext
      obtain rfl := Option.some.inj hnext
      exact hkeep (mode_onopen h ws socket.address)
  | message ws data =>
      obtain ⟨socket, -, hnext⟩ := Option.bind_eq_some_iff.mp hnext
      obtain ⟨-, hnext⟩ := Option.ite_none_right_eq_some.mp hnext
      obtain rfl := Option.some.inj hnext
      exact hkeep rfl
  | error ws =>
      obtain ⟨socket, -, hnext⟩ := Option.bind_eq_some_iff.mp hnext
      obtain ⟨-, hnext⟩ := Option.ite_none_left_eq_some.mp hnext
      obtain rfl := Option.some.inj hnext
      exact hkeep rfl
  | closing ws =>
      obtain ⟨socket, -, hnext⟩ := Option.bind_eq_some_iff.mp hnext
      obtain ⟨-, hnext⟩ := Option.ite_none_right_eq_some.mp hnext
      obtain rfl := Option.some.inj hnext
      exact hkeep rfl
  | close ws =>
      obtain ⟨socket, -, hnext⟩ := Option.bind_eq_some_iff.mp hnext
      obtain ⟨-, hnext⟩ := Option.ite_none_left_eq_some.mp hnext
      obtain rfl := Option.some.inj hnext
      exact hkeep (mode_onclose h ws)
  | reconnectTimer id =>
      obtain ⟨-, hnext⟩ := Option.ite_none_right_eq_some.mp hnext
      obtain rfl := Option.some.inj hnext
      exact hkeep (mode_reconnect h id)

/-- Nothing can happen any more. -/
theorem next_eq_none (hunmounted : h.unmounted = true) (heffect : h.effect = false)
    (hclosed : ∀ socket ∈ h.sockets, socket.readyState = .closed) (htimers : h.timers = [])
    (e : Event) : h.next e = none := by
  have hnone : ∀ (ws : ℕ) (socket : WebSocket), h.sockets[ws]? = some socket →
      socket.readyState = .closed :=
    fun ws socket hget => hclosed socket (List.mem_of_getElem? hget)
  cases e with
  | render address => exact if_pos hunmounted
  | effects => exact if_pos hunmounted
  | unmount => exact if_neg (Bool.eq_false_iff.mp heffect)
  | reconnectTimer id => exact if_neg (by simp [htimers])
  | opened ws | message ws | error ws | closing ws | close ws =>
      refine Option.bind_eq_none_iff.mpr fun socket hget => ?_
      simp [hnone ws socket hget]

/-- `connect` constructs a socket when none is connecting or open. -/
theorem length_connect (hdead : ∀ ws, ¬ h.LiveAt ws) (address : Address) :
    (h.connect address).sockets.length = h.sockets.length + 1 := by
  have hcurrent : ¬ h.current.any WebSocket.live = true := by
    intro hany
    cases hsocket : h.current with
    | none => simp [hsocket] at hany
    | some socket =>
        obtain ⟨ws, -, hget⟩ := Option.bind_eq_some_iff.mp hsocket
        rw [hsocket] at hany
        exact hdead ws ⟨socket, hget, hany⟩
  unfold connect
  rw [if_neg hcurrent]
  exact List.length_append

/-- So does an armed timer. -/
theorem not_rests_of_timer {address : Address} {t : ReconnectTimer}
    (hdead : ∀ ws, ¬ h.LiveAt ws) (hconnect : h.connectRef = some address) (ht : t ∈ h.timers) :
    ¬ h.Rests := by
  intro hrests
  have hfires : h.next (.reconnectTimer t.id) = some (h.reconnect t.id) :=
    if_pos (List.any_eq_true.mpr ⟨t, ht, decide_eq_true rfl⟩)
  have hlength : (h.reconnect t.id).sockets.length = h.sockets.length + 1 := by
    unfold reconnect
    dsimp only
    split
    · exact length_connect
        (h := { h with timers := h.timers.filter fun t' => t'.id ≠ t.id }) hdead _
    · next hnone => cases hconnect.symm.trans hnone
  have hexec : Runs.exec next h [.reconnectTimer t.id] = some (h.reconnect t.id) := by
    simp [Runs.exec, hfires]
  have hsame := hrests _ _ hexec
  omega

/-- A socket whose `close` event is still to come arms a timer. -/
theorem not_rests_of_socket {address : Address} {socket : WebSocket}
    (hdead : ∀ ws, ¬ h.LiveAt ws) (hconnect : h.connectRef = some address)
    (hmem : socket ∈ h.sockets) (hopen : socket.readyState ≠ .closed) : ¬ h.Rests := by
  intro hrests
  obtain ⟨ws, hws, hget⟩ := List.getElem_of_mem hmem
  have hget' : h.sockets[ws]? = some socket := List.getElem?_eq_some_iff.mpr ⟨hws, hget⟩
  have hcloses : h.next (.close ws) = some (h.onclose ws) := by
    simp [UseWebSocket.next, hget', hopen]
  refine not_rests_of_timer (h := h.onclose ws)
    (fun i hlive => hdead i ((fades_onclose h ws).live i hlive)) hconnect
    (List.mem_append_right _ List.mem_cons_self) ?_
  intro es h' hexec
  have hlength := hrests (.close ws :: es) h' (by simp [Runs.exec, hcloses, hexec])
  rw [hlength]
  exact (fades_onclose h ws).length.symm

/-- A change that respects a property of elements changes nothing about all of them. -/
theorem forall_mem_modify {α : Type*} {p : α → Prop} {f : α → α} (hf : ∀ a, p (f a) ↔ p a)
    (l : List α) (i : ℕ) : (∀ a ∈ l.modify i f, p a) ↔ ∀ a ∈ l, p a := by
  induction l generalizing i with
  | nil => simp
  | cons a l ih =>
      cases i with
      | zero => simp [hf]
      | succ i => simp [ih]

/-- `close` lets a socket close, and does not close it at once. -/
theorem closed_close (socket : WebSocket) :
    socket.close.readyState = .closed ↔ socket.readyState = .closed := by
  unfold WebSocket.close WebSocket.live
  cases hstate : socket.readyState <;> simp [hstate]

/-- So a cleanup closes none at once. -/
theorem closed_cleanup (h : UseWebSocket) :
    (∀ socket ∈ h.cleanup.sockets, socket.readyState = .closed) ↔
      ∀ socket ∈ h.sockets, socket.readyState = .closed := by
  unfold cleanup closeCurrent
  split
  · exact forall_mem_modify closed_close h.sockets _
  · exact Iff.rfl

/-- A cleanup clears the timer that the ref holds. -/
theorem timers_cleanup (h : UseWebSocket) :
    h.cleanup.timers = h.timers.filter fun t => some t.id ≠ h.reconnectTimerRef := by
  unfold cleanup closeCurrent
  split <;> rfl

/-- **What the cleanup has to find.** -/
theorem rests_iff (honly : h.OnlyCurrent) (hrendered : h.Rendered)
    (hnext : h.next .unmount = some h') : h'.Rests ↔ h.Settled := by
  obtain ⟨heffect, hnext⟩ := Option.ite_none_right_eq_some.mp hnext
  obtain rfl := Option.some.inj hnext
  obtain ⟨address, haddress⟩ := Option.isSome_iff_exists.mp (hrendered heffect)
  have hconnect : h.cleanup.connectRef = some address :=
    (congrArg Prod.fst (mode_cleanup h)).trans haddress
  constructor
  · intro hrests
    refine ⟨(closed_cleanup h).mp fun socket hmem => ?_, fun t ht => ?_⟩
    · refine not_not.mp fun hopen => ?_
      refine absurd hrests (not_rests_of_socket (fun ws => ?_) hconnect hmem hopen)
      exact not_liveAt_cleanup honly
    · refine not_not.mp fun hne => ?_
      have harmed : t ∈ h.cleanup.timers := by
        rw [timers_cleanup]
        exact List.mem_filter.mpr ⟨ht, decide_eq_true hne⟩
      refine absurd hrests (not_rests_of_timer (fun ws => ?_) hconnect harmed)
      exact not_liveAt_cleanup honly
  · intro hsettled es h'' hexec
    have htimers : h.cleanup.timers = [] := by
      rw [timers_cleanup]
      refine List.filter_eq_nil_iff.mpr fun t ht => ?_
      simpa using hsettled.2 t ht
    cases es with
    | nil => exact congrArg _ (congrArg _ (Option.some.inj hexec)).symm
    | cons e es =>
        have hnone := next_eq_none (h := { h.cleanup with effect := false, unmounted := true })
          rfl rfl ((closed_cleanup h).mpr hsettled.1) htimers e
        simp [Runs.exec, hnone] at hexec

/-! ## Runs -/

/-- **Sockets in every run.**  At most one socket is connecting or open; a run of the effect
again silences all sockets made before it; and after the component was unmounted no socket is
constructed, whatever happens, exactly when the hook was settled. -/
theorem no_zombie_socket {es : List Event} (hexec : Runs.exec next start es = some h) :
    h.OneLive ∧
    (∀ h', h.effect = true → h.next .effects = some h' → h'.Silences h.sockets.length) ∧
    (∀ h', h.next .unmount = some h' → (h'.Rests ↔ h.Settled)) := by
  have hrun := Runs.Reach.of_exec_any hexec
  have hinv : h.OnlyCurrent ∧ h.Rendered := by
    refine hrun.invariant (I := fun h => h.OnlyCurrent ∧ h.Rendered) ⟨?_, ?_⟩ ?_
    · intro ws hlive
      exact absurd hlive.lt (Nat.not_lt_zero ws)
    · exact fun heffect => absurd heffect Bool.false_ne_true
    · intro h e h' hinv _ hnext
      exact ⟨hinv.1.next hnext, hinv.2.next hnext⟩
  refine ⟨hinv.1.oneLive, fun h' heffect hnext => ?_, fun h' hnext => ?_⟩
  · exact (retired_effects hinv.1 heffect hnext).silences
  · exact rests_iff hinv.1 hinv.2 hnext

/-- The component of a board that was joined. -/
def joined : List Event := [.render ⟨"board", "user"⟩, .effects, .opened 0]

/-- The server closes the socket, another one is opened by the timer and closes too, and
the timer that this arms is the one that the cleanup clears. -/
def lost : List Event := joined ++ [.close 0, .reconnectTimer 0, .opened 1, .close 1]

/-- The state after some events that can happen. -/
def after (es : List Event) : UseWebSocket := (Runs.exec next start es).getD start

/-- The lost connection: one live socket, none after the unmount. -/
theorem no_zombie_socket_lost :
    (after lost).OneLive ∧ (after (lost ++ [.effects])).Silences 2 ∧
      (after (lost ++ [.unmount])).Rests := by
  have hexec : Runs.exec next start lost = some (after lost) := by rfl
  obtain ⟨hone, hsilences, hrests⟩ := no_zombie_socket hexec
  refine ⟨hone, hsilences _ (by rfl) (by rfl), (hrests _ (by rfl)).mpr ⟨?_, ?_⟩⟩ <;> decide

/-- The component is unmounted while its socket is open.  The `close` event that follows
arms a timer, and the timer opens another socket. -/
theorem zombie_socket :
    ∃ h h', Runs.exec next start (joined ++ [.unmount]) = some h ∧
      Runs.exec next h [.close 0, .reconnectTimer 0] = some h' ∧
      h.unmounted = true ∧ h.sockets.length = 1 ∧ h'.sockets.length = 2 ∧ h'.LiveAt 1 := by
  refine ⟨_, _, rfl, rfl, rfl, rfl, rfl, ?_⟩
  exact ⟨_, rfl, rfl⟩

end UseWebSocket

end QuorumCanvas
