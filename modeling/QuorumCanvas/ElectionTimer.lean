import QuorumCanvas.EventLoop
import QuorumCanvas.RaftNode
import QuorumCanvas.Runs

/-!
# The timers of a replica, with their times

`DefaultTimerManager` keeps the handles of an election timeout and a heartbeat
interval; the event loop keeps the timers.  A handle outlives its timeout: the
field is not cleared when the timeout has been run.

The node's own model has a boolean in the place of each timer.  `timers_refined`
is the simulation between the two.  `election_waits_iff` says when a replica
waits for the minimum of `RAFT_TIMING` before it starts an election: unless the
number in its id is so large that its skew is no delay the event loop can have.
-/

namespace QuorumCanvas

/-! ## `RAFT_TIMING` -/

/-- The shortest election timeout, before the skew. -/
def electionTimeoutMinMs : ℕ := 500

/-- The longest election timeout, before the skew. -/
def electionTimeoutMaxMs : ℕ := 800

/-- Heartbeats are well inside the shortest timeout. -/
def heartbeatIntervalMs : ℕ := 150

/-- What each further replica waits longer. -/
def electionSkewStepMs : ℕ := 300

/-- `replicaId.replace(/\D+/g, '')`. -/
def replicaDigits (replicaId : String) : List Char := replicaId.toList.filter Char.isDigit

/-- `Number.parseInt`, of digits; a number that is rounded here is no delay, rounded or not. -/
def parseDigits (digits : List Char) : ℕ :=
  digits.foldl (fun n c => 10 * n + (c.toNat - '0'.toNat)) 0

/-- The number in the replica's name, in steps of skew. -/
def computeElectionSkew (replicaId : Option String) : ℕ :=
  match replicaId with
  | none => 0
  | some replicaId =>
      -- no digits parse as `NaN`
      if replicaDigits replicaId = [] then 0
      else parseDigits (replicaDigits replicaId) * electionSkewStepMs

/-- What `Math.floor(Math.random() * (max - min + 1))` can be. -/
def Draw (random : ℕ) : Prop := random ≤ electionTimeoutMaxMs - electionTimeoutMinMs

instance (random : ℕ) : Decidable (Draw random) := by unfold Draw; infer_instance

/-- What a timer of the manager calls. -/
inductive TimerCallback
  | election
  | heartbeat
  deriving DecidableEq

/-- The fields of `DefaultTimerManager`: handles, callback and skew. -/
structure DefaultTimerManager where
  electionTimer : Option ℕ
  heartbeatTimer : Option ℕ
  /-- an election callback has been given -/
  electionCallback : Bool
  electionSkewMs : ℕ
  deriving DecidableEq

/-- A timer manager and the event loop it runs in.  `armedAt` and `beatAt` are history
variables: when the election timer was last set, unless it was stopped or has been run
since, and when the heartbeat was last started or run. -/
structure Clockwork where
  manager : DefaultTimerManager
  loop : EventLoop TimerCallback
  armedAt : Option ℕ
  beatAt : Option ℕ
  deriving DecidableEq

namespace Clockwork

/-- `new DefaultTimerManager({ replicaId })`. -/
def create (replicaId : Option String) : Clockwork :=
  ⟨⟨none, none, false, computeElectionSkew replicaId⟩, .idle, none, none⟩

/-- A draw between the two bounds, and the skew. -/
def randomTimeout (c : Clockwork) (random : ℕ) : ℕ :=
  electionTimeoutMinMs + random + c.manager.electionSkewMs

/-- `if (timer !== null) clearTimeout(timer)`. -/
def clearHandle (loop : EventLoop TimerCallback) : Option ℕ → EventLoop TimerCallback
  | none => loop
  | some handle => loop.clear handle

/-- The old timer is cleared, and a new one set if there is a callback. -/
def resetElectionTimer (c : Clockwork) (random : ℕ) : Clockwork :=
  let loop := clearHandle c.loop c.manager.electionTimer
  if c.manager.electionCallback then
    let (loop, handle) := loop.setTimeout .election (c.randomTimeout random)
    { c with
      manager := { c.manager with electionTimer := some handle }
      loop
      armedAt := some loop.now }
  else { c with loop, armedAt := none }

/-- The callback is kept, and the timer set. -/
def startElectionTimer (c : Clockwork) (random : ℕ) : Clockwork :=
  { c with manager := { c.manager with electionCallback := true } }.resetElectionTimer random

/-- The timer is cleared; the callback stays. -/
def stopElectionTimer (c : Clockwork) : Clockwork :=
  { c with
    manager := { c.manager with electionTimer := none }
    loop := clearHandle c.loop c.manager.electionTimer
    armedAt := none }

/-- The interval is cleared. -/
def stopHeartbeat (c : Clockwork) : Clockwork :=
  { c with
    manager := { c.manager with heartbeatTimer := none }
    loop := clearHandle c.loop c.manager.heartbeatTimer
    beatAt := none }

/-- The old interval is cleared, and a new one set. -/
def startHeartbeat (c : Clockwork) : Clockwork :=
  let c := c.stopHeartbeat
  let (loop, handle) := c.loop.setInterval .heartbeat heartbeatIntervalMs
  { c with
    manager := { c.manager with heartbeatTimer := some handle }
    loop
    beatAt := some loop.now }

/-- What the node asks of the manager, and what the event loop does. -/
inductive Event
  | startElectionTimer (random : ℕ)
  | resetElectionTimer (random : ℕ)
  | stopElectionTimer
  | startHeartbeat
  | stopHeartbeat
  | elapse (ms : ℕ)
  /-- the event loop runs a timer, which calls `callback` -/
  | fire (handle : ℕ) (callback : TimerCallback)
  deriving DecidableEq

/-- The event loop runs a timer. -/
def fire (c : Clockwork) (handle : ℕ) (callback : TimerCallback) : Option Clockwork :=
  match c.loop.fire handle with
  | some (called, loop) =>
      if called = callback then
        match callback with
        | .election => some { c with loop, armedAt := none }
        | .heartbeat => some { c with loop, beatAt := some loop.now }
      else none
  | none => none

/-- One such event, if it can happen. -/
def next (c : Clockwork) : Event → Option Clockwork
  | .startElectionTimer random => if Draw random then some (c.startElectionTimer random) else none
  | .resetElectionTimer random => if Draw random then some (c.resetElectionTimer random) else none
  | .stopElectionTimer => some c.stopElectionTimer
  | .startHeartbeat => some c.startHeartbeat
  | .stopHeartbeat => some c.stopHeartbeat
  | .elapse ms => some { c with loop := c.loop.elapse ms }
  | .fire handle callback => c.fire handle callback

/-- The timers as the node's model has them. -/
def timers (c : Clockwork) : Timers where
  electionCallback := c.manager.electionCallback
  electionTimer := c.loop.timers.any fun t => t.callback = .election
  heartbeatTimer := c.loop.timers.any fun t => t.callback = .heartbeat

/-- The same events in the node's model: an election timer that is run is no longer armed. -/
def step (t : Timers) : Event → Option Timers
  | .startElectionTimer _ => some t.startElectionTimer
  | .resetElectionTimer _ => some t.resetElectionTimer
  | .stopElectionTimer => some t.stopElectionTimer
  | .startHeartbeat => some t.startHeartbeat
  | .stopHeartbeat => some t.stopHeartbeat
  | .elapse _ => some t
  | .fire _ .election => if t.electionTimer then some t.stopElectionTimer else none
  | .fire _ .heartbeat => if t.heartbeatTimer then some t else none

/-! ## What is armed -/

/-- The delays that the event loop gives the election timer. -/
def Waits (c : Clockwork) (wait : ℕ) : Prop :=
  ∃ random, Draw random ∧ wait = EventLoop.delay (c.randomTimeout random)

/-- The timers of the loop are those whose handles the manager holds, and each is due as
long after it was set as its delay says. -/
structure Kept (c : Clockwork) : Prop where
  loop : c.loop.Sound
  election : ∀ t ∈ c.loop.timers, t.callback = .election →
    c.manager.electionTimer = some t.handle ∧ t.period = none ∧
      ∃ armed wait, c.armedAt = some armed ∧ c.Waits wait ∧ t.due = armed + wait
  heartbeat : ∀ t ∈ c.loop.timers, t.callback = .heartbeat →
    c.manager.heartbeatTimer = some t.handle ∧ t.period = some heartbeatIntervalMs ∧
      ∃ beat, c.beatAt = some beat ∧ t.due = beat + heartbeatIntervalMs
  armed : c.armedAt.isSome → ∃ t ∈ c.loop.timers, t.callback = .election
  beating : c.manager.heartbeatTimer.isSome → ∃ t ∈ c.loop.timers, t.callback = .heartbeat
  /-- a handle that was given to a timeout is never that of an interval -/
  given : ∀ handle, c.manager.electionTimer = some handle →
    handle < c.loop.nextHandle ∧ ∀ t ∈ c.loop.timers, t.handle = handle → t.callback = .election
  started : ∀ handle, c.manager.heartbeatTimer = some handle →
    ∀ t ∈ c.loop.timers, t.handle = handle → t.callback = .heartbeat

variable {c c' : Clockwork} {t : EventLoop.Timer TimerCallback}

/-- Clearing removes the timer with that handle. -/
theorem mem_clearHandle {loop : EventLoop TimerCallback} {handle : Option ℕ} :
    t ∈ (clearHandle loop handle).timers ↔ t ∈ loop.timers ∧ handle ≠ some t.handle := by
  cases handle with
  | none => simp [clearHandle]
  | some handle =>
      simp only [clearHandle, EventLoop.mem_clear, ne_eq, Option.some.injEq]
      exact and_congr_right fun _ => not_congr eq_comm

/-- The event loop stays sound. -/
theorem sound_clearHandle {loop : EventLoop TimerCallback} (h : loop.Sound) (handle : Option ℕ) :
    (clearHandle loop handle).Sound := by
  cases handle with
  | none => exact h
  | some handle => exact h.clear

/-- Handles are not used again. -/
theorem nextHandle_clearHandle (loop : EventLoop TimerCallback) (handle : Option ℕ) :
    (clearHandle loop handle).nextHandle = loop.nextHandle := by
  cases handle <;> rfl

namespace Kept

/-- Clearing the election handle leaves the heartbeat alone. -/
theorem mem_cleared (h : c.Kept) :
    t ∈ (clearHandle c.loop c.manager.electionTimer).timers ↔
      t ∈ c.loop.timers ∧ t.callback = .heartbeat := by
  rw [mem_clearHandle]
  refine and_congr_right fun ht => ⟨fun hne => ?_, fun hheart heq => ?_⟩
  · cases hcall : t.callback with
    | election => exact absurd (h.election t ht hcall).1 hne
    | heartbeat => rfl
  · rw [(h.given t.handle heq).2 t ht rfl] at hheart
    cases hheart

/-- Without the interval the loop holds election timers. -/
theorem mem_silenced (h : c.Kept) :
    t ∈ (clearHandle c.loop c.manager.heartbeatTimer).timers ↔
      t ∈ c.loop.timers ∧ t.callback = .election := by
  rw [mem_clearHandle]
  refine and_congr_right fun ht => ⟨fun hne => ?_, fun helect heq => ?_⟩
  · cases hcall : t.callback with
    | election => rfl
    | heartbeat => exact absurd (h.heartbeat t ht hcall).1 hne
  · rw [h.started t.handle heq t ht rfl] at helect
    cases helect

/-- The election timer is cleared. -/
theorem cleared (h : c.Kept) :
    Kept { c with loop := clearHandle c.loop c.manager.electionTimer, armedAt := none } where
  loop := sound_clearHandle h.loop _
  election t ht hcall := by
    cases hcall.symm.trans (h.mem_cleared.mp ht).2
  heartbeat t ht := h.heartbeat t (h.mem_cleared.mp ht).1
  armed hsome := by cases hsome
  beating hsome := by
    obtain ⟨t, ht, hcall⟩ := h.beating hsome
    exact ⟨t, h.mem_cleared.mpr ⟨ht, hcall⟩, hcall⟩
  given handle heq := by
    obtain ⟨hlt, hall⟩ := h.given handle heq
    rw [← nextHandle_clearHandle c.loop c.manager.electionTimer] at hlt
    exact ⟨hlt, fun t ht => hall t (h.mem_cleared.mp ht).1⟩
  started handle heq t ht := h.started handle heq t (h.mem_cleared.mp ht).1

/-- A new election timer, where there is none. -/
theorem arm (h : c.Kept) (hnone : ∀ t ∈ c.loop.timers, t.callback ≠ .election) {wait : ℕ}
    (hwait : c.Waits wait) :
    Kept { c with
      manager := { c.manager with electionTimer := some (c.loop.add .election wait none).2 }
      loop := (c.loop.add .election wait none).1
      armedAt := some c.loop.now } where
  loop := h.loop.add
  election t ht hcall := by
    rcases EventLoop.mem_add.mp ht with hold | rfl
    · exact absurd hcall (hnone t hold)
    · exact ⟨rfl, rfl, c.loop.now, wait, rfl, hwait, rfl⟩
  heartbeat t ht hcall := by
    rcases EventLoop.mem_add.mp ht with hold | rfl
    · exact h.heartbeat t hold hcall
    · cases hcall
  armed _ := ⟨_, EventLoop.mem_add.mpr (Or.inr rfl), rfl⟩
  beating hsome := by
    obtain ⟨t, ht, hcall⟩ := h.beating hsome
    exact ⟨t, EventLoop.mem_add.mpr (Or.inl ht), hcall⟩
  given handle heq := by
    obtain rfl : c.loop.nextHandle = handle := Option.some.inj heq
    refine ⟨Nat.lt_succ_self _, fun t ht hhandle => ?_⟩
    rcases EventLoop.mem_add.mp ht with hold | rfl
    · exact absurd (h.loop.lt t hold) (by omega)
    · rfl
  started handle heq t ht hhandle := by
    rcases EventLoop.mem_add.mp ht with hold | rfl
    · exact h.started handle heq t hold hhandle
    · obtain ⟨t, ht, hcall⟩ := h.beating (Option.isSome_iff_exists.mpr ⟨handle, heq⟩)
      have hsame : some handle = some t.handle := heq.symm.trans (h.heartbeat t ht hcall).1
      have hlt := h.loop.lt t ht
      have hnext : c.loop.nextHandle = handle := hhandle
      cases hsame
      omega

/-- A reset keeps the manager and the loop in step. -/
theorem resetElectionTimer (h : c.Kept) {random : ℕ} (hdraw : Draw random) :
    (c.resetElectionTimer random).Kept := by
  unfold Clockwork.resetElectionTimer
  dsimp only
  split
  · have hnone : ∀ t ∈ (clearHandle c.loop c.manager.electionTimer).timers,
        t.callback ≠ .election := fun t ht hcall => by
      cases hcall.symm.trans (h.mem_cleared.mp ht).2
    have hwait : Waits { c with
        loop := clearHandle c.loop c.manager.electionTimer
        armedAt := none } (EventLoop.delay (c.randomTimeout random)) := ⟨random, hdraw, rfl⟩
    exact h.cleared.arm hnone hwait
  · exact h.cleared

/-- So does a start. -/
theorem startElectionTimer (h : c.Kept) {random : ℕ} (hdraw : Draw random) :
    (c.startElectionTimer random).Kept := by
  have hgiven : Kept { c with manager := { c.manager with electionCallback := true } } :=
    ⟨h.loop, h.election, h.heartbeat, h.armed, h.beating, h.given, h.started⟩
  exact hgiven.resetElectionTimer hdraw

/-- So does a stop. -/
theorem stopElectionTimer (h : c.Kept) : c.stopElectionTimer.Kept := by
  have hnone : ∀ t ∈ (clearHandle c.loop c.manager.electionTimer).timers,
      t.callback ≠ .election := fun t ht hcall => by
    cases hcall.symm.trans (h.mem_cleared.mp ht).2
  exact ⟨h.cleared.loop, fun t ht hcall => absurd hcall (hnone t ht), h.cleared.heartbeat, nofun,
    h.cleared.beating, nofun, h.cleared.started⟩

/-- So does a stop of the interval. -/
theorem stopHeartbeat (h : c.Kept) : c.stopHeartbeat.Kept where
  loop := sound_clearHandle h.loop _
  election t ht := h.election t (h.mem_silenced.mp ht).1
  heartbeat t ht hcall := by
    cases hcall.symm.trans (h.mem_silenced.mp ht).2
  armed hsome := by
    obtain ⟨t, ht, hcall⟩ := h.armed hsome
    exact ⟨t, h.mem_silenced.mpr ⟨ht, hcall⟩, hcall⟩
  beating := nofun
  given handle heq := by
    obtain ⟨hlt, hall⟩ := h.given handle heq
    rw [← nextHandle_clearHandle c.loop c.manager.heartbeatTimer] at hlt
    exact ⟨hlt, fun t ht => hall t (h.mem_silenced.mp ht).1⟩
  started := nofun

/-- So does a start of it. -/
theorem startHeartbeat (h : c.Kept) : c.startHeartbeat.Kept := by
  have hstop := h.stopHeartbeat
  have hperiod : EventLoop.delay heartbeatIntervalMs = heartbeatIntervalMs := rfl
  have hnone : ∀ t ∈ c.stopHeartbeat.loop.timers, t.callback ≠ .heartbeat := fun t ht hcall => by
    cases hcall.symm.trans (h.mem_silenced.mp ht).2
  constructor
  · exact hstop.loop.add
  · intro t ht hcall
    rcases EventLoop.mem_add.mp ht with hold | rfl
    · exact hstop.election t hold hcall
    · cases hcall
  · intro t ht hcall
    rcases EventLoop.mem_add.mp ht with hold | rfl
    · exact absurd hcall (hnone t hold)
    · exact ⟨rfl, rfl, _, rfl, rfl⟩
  · intro hsome
    obtain ⟨t, ht, hcall⟩ := hstop.armed hsome
    exact ⟨t, EventLoop.mem_add.mpr (Or.inl ht), hcall⟩
  · exact fun _ => ⟨_, EventLoop.mem_add.mpr (Or.inr rfl), rfl⟩
  · intro handle heq
    obtain ⟨hlt, hall⟩ := hstop.given handle heq
    refine ⟨Nat.lt_succ_of_lt hlt, fun t ht hhandle => ?_⟩
    rcases EventLoop.mem_add.mp ht with hold | rfl
    · exact hall t hold hhandle
    · have hnext : c.stopHeartbeat.loop.nextHandle = handle := hhandle
      omega
  · intro handle heq t ht hhandle
    rcases EventLoop.mem_add.mp ht with hold | rfl
    · have hnext : c.stopHeartbeat.loop.nextHandle = handle := Option.some.inj heq
      exact absurd (hstop.loop.lt t hold) (by omega)
    · rfl

/-- A timer that is run: a timeout is over. -/
theorem expire (h : c.Kept) (ht : t ∈ c.loop.timers) (hcall : t.callback = .election) :
    Kept { c with loop := c.loop.settle t, armedAt := none } ∧
      ∀ t', t' ∈ (c.loop.settle t).timers ↔ t' ∈ c.loop.timers ∧ t'.callback = .heartbeat := by
  obtain ⟨hhandle, hperiod, -⟩ := h.election t ht hcall
  have hmem : ∀ t', t' ∈ (c.loop.settle t).timers ↔
      t' ∈ c.loop.timers ∧ t'.callback = .heartbeat := by
    intro t'
    rw [EventLoop.mem_settle, hperiod, ← h.mem_cleared, mem_clearHandle, hhandle]
    simp [eq_comm]
  refine ⟨⟨h.loop.settle ht, fun t' ht' hcall' => ?_,
    fun t' ht' => h.heartbeat t' ((hmem t').mp ht').1,
    nofun, fun hsome => ?_, fun handle heq => ?_, fun handle heq t' ht' =>
      h.started handle heq t' ((hmem t').mp ht').1⟩, hmem⟩
  · cases hcall'.symm.trans ((hmem t').mp ht').2
  · obtain ⟨t', ht', hcall'⟩ := h.beating hsome
    exact ⟨t', (hmem t').mpr ⟨ht', hcall'⟩, hcall'⟩
  · obtain ⟨hlt, hall⟩ := h.given handle heq
    rw [← EventLoop.nextHandle_settle] at hlt
    exact ⟨hlt, fun t' ht' => hall t' ((hmem t').mp ht').1⟩

/-- An interval that is run is due again. -/
theorem beat (h : c.Kept) (ht : t ∈ c.loop.timers) (hcall : t.callback = .heartbeat) :
    Kept { c with loop := c.loop.settle t, beatAt := some c.loop.now } ∧
      ∀ t', t' ∈ (c.loop.settle t).timers ↔ (t' ∈ c.loop.timers ∧ t'.callback = .election) ∨
        t' = { t with due := c.loop.now + heartbeatIntervalMs } := by
  obtain ⟨hhandle, hperiod, -⟩ := h.heartbeat t ht hcall
  have hmem : ∀ t', t' ∈ (c.loop.settle t).timers ↔
      (t' ∈ c.loop.timers ∧ t'.callback = .election) ∨
        t' = { t with due := c.loop.now + heartbeatIntervalMs } := by
    intro t'
    rw [EventLoop.mem_settle, hperiod, ← h.mem_silenced, mem_clearHandle, hhandle]
    simp [eq_comm]
  refine ⟨⟨h.loop.settle ht, fun t' ht' hcall' => ?_, fun t' ht' hcall' => ?_, fun hsome => ?_,
    fun _ => ⟨_, (hmem _).mpr (Or.inr rfl), hcall⟩, fun handle heq => ?_,
    fun handle heq t' ht' hhandle' => ?_⟩, hmem⟩
  · rcases (hmem t').mp ht' with hold | rfl
    · exact h.election t' hold.1 hcall'
    · cases hcall.symm.trans hcall'
  · rcases (hmem t').mp ht' with hold | rfl
    · cases hcall'.symm.trans hold.2
    · exact ⟨hhandle, hperiod, _, rfl, rfl⟩
  · obtain ⟨t', ht', hcall'⟩ := h.armed hsome
    exact ⟨t', (hmem t').mpr (Or.inl ⟨ht', hcall'⟩), hcall'⟩
  · obtain ⟨hlt, hall⟩ := h.given handle heq
    rw [← EventLoop.nextHandle_settle] at hlt
    refine ⟨hlt, fun t' ht' hhandle' => ?_⟩
    rcases (hmem t').mp ht' with hold | rfl
    · exact hold.2
    · exact hall t ht hhandle'
  · rcases (hmem t').mp ht' with hold | rfl
    · exact h.started handle heq t' hold.1 hhandle'
    · exact hcall

/-- So does time. -/
theorem elapse (h : c.Kept) (ms : ℕ) : Kept { c with loop := c.loop.elapse ms } :=
  ⟨⟨h.loop.nodup, h.loop.lt⟩, h.election, h.heartbeat, h.armed, h.beating, h.given, h.started⟩

end Kept

/-- They are in step when the manager is created. -/
theorem kept_create (replicaId : Option String) : (create replicaId).Kept :=
  ⟨.idle, fun _ ht => absurd ht List.not_mem_nil, fun _ ht => absurd ht List.not_mem_nil,
    nofun, nofun, nofun, nofun⟩

/-! ## In the node's own model -/

/-- The election timer is armed if the loop holds one. -/
theorem electionTimer_iff :
    c.timers.electionTimer = true ↔ ∃ t ∈ c.loop.timers, t.callback = .election := by
  simp [timers]

/-- The interval is armed if the loop holds one. -/
theorem heartbeatTimer_iff :
    c.timers.heartbeatTimer = true ↔ ∃ t ∈ c.loop.timers, t.callback = .heartbeat := by
  simp [timers]

/-- Two timers and a callback are all that the node sees. -/
theorem timers_eq {b : Timers} (hcallback : c.manager.electionCallback = b.electionCallback)
    (helection : (∃ t ∈ c.loop.timers, t.callback = .election) ↔ b.electionTimer = true)
    (hheartbeat : (∃ t ∈ c.loop.timers, t.callback = .heartbeat) ↔ b.heartbeatTimer = true) :
    c.timers = b := by
  rw [← electionTimer_iff] at helection
  rw [← heartbeatTimer_iff] at hheartbeat
  cases b with
  | mk callback election heartbeat =>
      exact Timers.mk.injEq .. ▸ ⟨hcallback, Bool.eq_iff_iff.mpr helection,
        Bool.eq_iff_iff.mpr hheartbeat⟩

namespace Kept

/-- A reset, as the node sees it. -/
theorem timers_resetElectionTimer (h : c.Kept) (random : ℕ) :
    (c.resetElectionTimer random).timers = c.timers.resetElectionTimer := by
  unfold Clockwork.resetElectionTimer
  dsimp only
  split
  · next hcallback =>
    apply timers_eq
    · rfl
    · refine ⟨fun _ => hcallback, fun _ => ⟨_, EventLoop.mem_add.mpr (Or.inr rfl), rfl⟩⟩
    · refine Iff.trans ?_ heartbeatTimer_iff.symm
      constructor
      · rintro ⟨t, ht, hcall⟩
        rcases EventLoop.mem_add.mp ht with hold | rfl
        · exact ⟨t, (h.mem_cleared.mp hold).1, hcall⟩
        · cases hcall
      · rintro ⟨t, ht, hcall⟩
        exact ⟨t, EventLoop.mem_add.mpr (Or.inl (h.mem_cleared.mpr ⟨ht, hcall⟩)), hcall⟩
  · next hcallback =>
    apply timers_eq
    · rfl
    · refine ⟨fun helect => ?_, fun htrue => absurd htrue hcallback⟩
      obtain ⟨t, ht, hcall⟩ := helect
      cases hcall.symm.trans (h.mem_cleared.mp ht).2
    · refine Iff.trans ?_ heartbeatTimer_iff.symm
      simp only [h.mem_cleared, and_assoc, and_self]

/-- A stop, as the node sees it. -/
theorem timers_stopElectionTimer (h : c.Kept) :
    c.stopElectionTimer.timers = c.timers.stopElectionTimer := by
  apply timers_eq
  · rfl
  · refine ⟨fun helect => ?_, nofun⟩
    obtain ⟨t, ht, hcall⟩ := helect
    cases hcall.symm.trans (h.mem_cleared.mp ht).2
  · refine Iff.trans ?_ heartbeatTimer_iff.symm
    unfold Clockwork.stopElectionTimer
    simp only [h.mem_cleared, and_assoc, and_self]

/-- A stop of the interval, as the node sees it. -/
theorem timers_stopHeartbeat (h : c.Kept) :
    c.stopHeartbeat.timers = c.timers.stopHeartbeat := by
  apply timers_eq
  · rfl
  · refine Iff.trans ?_ electionTimer_iff.symm
    unfold Clockwork.stopHeartbeat
    simp only [h.mem_silenced, and_assoc, and_self]
  · refine ⟨fun hheart => ?_, nofun⟩
    obtain ⟨t, ht, hcall⟩ := hheart
    cases hcall.symm.trans (h.mem_silenced.mp ht).2

/-- A start of the interval, as the node sees it. -/
theorem timers_startHeartbeat (h : c.Kept) :
    c.startHeartbeat.timers = c.timers.startHeartbeat := by
  apply timers_eq
  · rfl
  · refine Iff.trans ?_ electionTimer_iff.symm
    constructor
    · rintro ⟨t, ht, hcall⟩
      rcases EventLoop.mem_add.mp ht with hold | rfl
      · exact ⟨t, (h.mem_silenced.mp hold).1, hcall⟩
      · cases hcall
    · rintro ⟨t, ht, hcall⟩
      exact ⟨t, EventLoop.mem_add.mpr (Or.inl (h.mem_silenced.mpr ⟨ht, hcall⟩)), hcall⟩
  · exact ⟨fun _ => rfl, fun _ => ⟨_, EventLoop.mem_add.mpr (Or.inr rfl), rfl⟩⟩

end Kept

/-- The state after timer `t` has been run. -/
def ran (c : Clockwork) (t : EventLoop.Timer TimerCallback) : TimerCallback → Clockwork
  | .election => { c with loop := c.loop.settle t, armedAt := none }
  | .heartbeat => { c with loop := c.loop.settle t, beatAt := some c.loop.now }

/-- Which timer an event of the loop runs. -/
theorem exists_of_fire {handle : ℕ} {callback : TimerCallback}
    (hfire : c.fire handle callback = some c') :
    ∃ t ∈ c.loop.timers, t.callback = callback ∧ t.due ≤ c.loop.now ∧ c' = c.ran t callback := by
  unfold Clockwork.fire at hfire
  split at hfire
  · next called loop hloop =>
    obtain ⟨t, ht, -, hcalled, hdue, rfl⟩ := EventLoop.exists_of_fire hloop
    split_ifs at hfire with heq
    refine ⟨t, ht, hcalled.trans heq, hdue, ?_⟩
    cases callback with
    | election => exact (Option.some.inj hfire).symm
    | heartbeat =>
        obtain rfl := Option.some.inj hfire
        simp [ran]
  · cases hfire

/-- **One event**: the timers stay as the manager has them, and the node's model takes the
same event. -/
theorem Kept.next (h : c.Kept) {e : Event} (hstep : c.next e = some c') :
    c'.Kept ∧ step c.timers e = some c'.timers := by
  cases e with
  | startElectionTimer random =>
      obtain ⟨hdraw, rfl⟩ : Draw random ∧ c.startElectionTimer random = c' := by
        simpa [Clockwork.next] using hstep
      have hgiven : Kept { c with manager := { c.manager with electionCallback := true } } :=
        ⟨h.loop, h.election, h.heartbeat, h.armed, h.beating, h.given, h.started⟩
      exact ⟨h.startElectionTimer hdraw,
        congrArg some (hgiven.timers_resetElectionTimer random).symm⟩
  | resetElectionTimer random =>
      obtain ⟨hdraw, rfl⟩ : Draw random ∧ c.resetElectionTimer random = c' := by
        simpa [Clockwork.next] using hstep
      exact ⟨h.resetElectionTimer hdraw, congrArg some (h.timers_resetElectionTimer random).symm⟩
  | stopElectionTimer =>
      obtain rfl := Option.some.inj hstep
      exact ⟨h.stopElectionTimer, congrArg some h.timers_stopElectionTimer.symm⟩
  | startHeartbeat =>
      obtain rfl := Option.some.inj hstep
      exact ⟨h.startHeartbeat, congrArg some h.timers_startHeartbeat.symm⟩
  | stopHeartbeat =>
      obtain rfl := Option.some.inj hstep
      exact ⟨h.stopHeartbeat, congrArg some h.timers_stopHeartbeat.symm⟩
  | elapse ms =>
      obtain rfl := Option.some.inj hstep
      exact ⟨h.elapse ms, rfl⟩
  | fire handle callback =>
      obtain ⟨t, ht, hcall, -, rfl⟩ := exists_of_fire hstep
      cases callback with
      | election =>
          obtain ⟨hkept, hmem⟩ := h.expire ht hcall
          have harmed : c.timers.electionTimer = true := electionTimer_iff.mpr ⟨t, ht, hcall⟩
          refine ⟨hkept, (if_pos harmed).trans (congrArg some (timers_eq rfl ?_ ?_).symm)⟩
          · refine ⟨fun helect => ?_, nofun⟩
            obtain ⟨t', ht', hcall'⟩ := helect
            cases hcall'.symm.trans ((hmem t').mp ht').2
          · refine Iff.trans ?_ heartbeatTimer_iff.symm
            simp only [ran, hmem, and_assoc, and_self]
      | heartbeat =>
          obtain ⟨hkept, hmem⟩ := h.beat ht hcall
          have hbeats : c.timers.heartbeatTimer = true := heartbeatTimer_iff.mpr ⟨t, ht, hcall⟩
          refine ⟨hkept, (if_pos hbeats).trans (congrArg some (timers_eq rfl ?_ ?_).symm)⟩
          · refine Iff.trans ?_ electionTimer_iff.symm
            constructor
            · rintro ⟨t', ht', hcall'⟩
              rcases (hmem t').mp ht' with hold | rfl
              · exact ⟨t', hold.1, hcall'⟩
              · cases hcall.symm.trans hcall'
            · rintro ⟨t', ht', hcall'⟩
              exact ⟨t', (hmem t').mpr (Or.inl ⟨ht', hcall'⟩), hcall'⟩
          · exact ⟨fun _ => hbeats, fun _ => ⟨_, (hmem _).mpr (Or.inr rfl), hcall⟩⟩

/-! ## Runs -/

variable {replicaId : Option String}

/-- The skew is fixed. -/
theorem skew_next {e : Event} (hstep : c.next e = some c') :
    c'.manager.electionSkewMs = c.manager.electionSkewMs := by
  cases e with
  | startElectionTimer random | resetElectionTimer random =>
      obtain ⟨-, heq⟩ := Option.ite_none_right_eq_some.mp hstep
      rw [← Option.some.inj heq]
      simp only [startElectionTimer, resetElectionTimer]
      split <;> rfl
  | stopElectionTimer | startHeartbeat | stopHeartbeat | elapse ms =>
      obtain rfl := Option.some.inj hstep
      rfl
  | fire handle callback =>
      obtain ⟨t, -, -, -, rfl⟩ := exists_of_fire hstep
      cases callback <;> rfl

/-- Whatever is called and run, in any order. -/
theorem kept_exec {es : List Event} (h : c.Kept) (hexec : Runs.exec next c es = some c') :
    c'.Kept ∧ c'.manager.electionSkewMs = c.manager.electionSkewMs ∧
      Runs.exec step c.timers es = some c'.timers := by
  induction es generalizing c with
  | nil =>
      obtain rfl := Option.some.inj hexec
      exact ⟨h, rfl, rfl⟩
  | cons e es ih =>
      obtain ⟨c₁, hstep, hrest⟩ := Option.bind_eq_some_iff.mp hexec
      obtain ⟨hkept, htimers⟩ := h.next hstep
      obtain ⟨hkept', hskew, hrun⟩ := ih hkept hrest
      refine ⟨hkept', hskew.trans (skew_next hstep), ?_⟩
      unfold Runs.exec
      rw [htimers]
      exact hrun

/-- A delay that is not too long for the event loop is at least the minimum. -/
theorem Waits.bounds {wait : ℕ} (h : c.Waits wait) :
    0 < wait ∧ wait ≤ electionTimeoutMaxMs + c.manager.electionSkewMs ∧
      (electionTimeoutMaxMs + c.manager.electionSkewMs ≤ EventLoop.timeoutMax →
        electionTimeoutMinMs + c.manager.electionSkewMs ≤ wait) := by
  obtain ⟨random, hdraw, rfl⟩ := h
  unfold Draw at hdraw
  unfold EventLoop.delay randomTimeout electionTimeoutMinMs
  unfold electionTimeoutMaxMs electionTimeoutMinMs at hdraw
  unfold electionTimeoutMaxMs
  split <;> omega

/-- **The timers refine the node's**: whatever the node calls and whenever the event loop runs
what is due, the manager never holds two timers of a kind, the booleans of the node's model say
after the same events which of the two it holds, and an election timer is due in time. -/
theorem timers_refined {es : List Event}
    (hexec : Runs.exec next (create replicaId) es = some c) :
    Runs.exec step (create replicaId).timers es = some c.timers ∧
      (∀ t ∈ c.loop.timers, ∀ t' ∈ c.loop.timers, t.callback = t'.callback → t = t') ∧
      (c.timers.electionTimer = true ↔ c.armedAt.isSome) ∧
      (c.timers.heartbeatTimer = true ↔ c.manager.heartbeatTimer.isSome) ∧
      ∀ t ∈ c.loop.timers, t.callback = .election → ∃ armed, c.armedAt = some armed ∧
        armed < t.due ∧ t.due ≤ armed + electionTimeoutMaxMs + computeElectionSkew replicaId := by
  obtain ⟨hkept, hskew, hrun⟩ := kept_exec (kept_create replicaId) hexec
  refine ⟨hrun, fun t ht t' ht' heq => ?_, ?_, ?_, fun t ht hcall => ?_⟩
  · apply hkept.loop.eq ht ht'
    apply Option.some.inj
    cases hcall : t.callback with
    | election =>
        exact (hkept.election t ht hcall).1.symm.trans (hkept.election t' ht' (heq ▸ hcall)).1
    | heartbeat =>
        exact (hkept.heartbeat t ht hcall).1.symm.trans (hkept.heartbeat t' ht' (heq ▸ hcall)).1
  · rw [electionTimer_iff]
    constructor
    · rintro ⟨t, ht, hcall⟩
      obtain ⟨-, -, armed, -, harmed, -⟩ := hkept.election t ht hcall
      exact Option.isSome_iff_exists.mpr ⟨armed, harmed⟩
    · exact hkept.armed
  · rw [heartbeatTimer_iff]
    constructor
    · rintro ⟨t, ht, hcall⟩
      exact Option.isSome_iff_exists.mpr ⟨_, (hkept.heartbeat t ht hcall).1⟩
    · exact hkept.beating
  · obtain ⟨-, -, armed, wait, harmed, hwait, hdue⟩ := hkept.election t ht hcall
    obtain ⟨hpos, hle, -⟩ := hwait.bounds
    have hskew' : c.manager.electionSkewMs = computeElectionSkew replicaId := hskew
    exact ⟨armed, harmed, by omega, by omega⟩

/-- A timer that is set again before it is due, then an election, and a heartbeat. -/
def resetRun : List Event :=
  [.startElectionTimer 0, .elapse 400, .resetElectionTimer 300, .elapse 800, .fire 1 .election,
    .startHeartbeat, .elapse 150, .fire 2 .heartbeat, .resetElectionTimer 7]

/-- A timer that was reset, and an interval. -/
theorem timers_refined_reset : ∃ c, Runs.exec next (create none) resetRun = some c ∧
    Runs.exec step (create none).timers resetRun = some c.timers ∧
      c.armedAt = some 1350 ∧ c.loop.timers.length = 2 := by
  obtain ⟨c, hexec, harmed, hlength⟩ : ∃ c, Runs.exec next (create none) resetRun = some c ∧
      c.armedAt = some 1350 ∧ c.loop.timers.length = 2 := ⟨_, rfl, rfl, rfl⟩
  exact ⟨c, hexec, (timers_refined hexec).1, harmed, hlength⟩

/-- A replica that has just started, with a timeout too long for the event loop. -/
def overlong (replicaId : Option String) : Clockwork where
  manager := ⟨some 0, none, true, computeElectionSkew replicaId⟩
  loop := ⟨0, 1, [⟨0, .election, 1, none⟩]⟩
  armedAt := some 0
  beatAt := none

/-- The longest timeout is drawn, and becomes a millisecond. -/
theorem startElectionTimer_overlong
    (hlong : EventLoop.timeoutMax < electionTimeoutMaxMs + computeElectionSkew replicaId) :
    (create replicaId).startElectionTimer 300 = overlong replicaId := by
  have hdelay : EventLoop.delay ((create replicaId).randomTimeout 300) = 1 := by
    apply EventLoop.delay_of_lt
    exact hlong
  have hstart : (create replicaId).startElectionTimer 300 = { overlong replicaId with
      loop := ⟨0, 1, [⟨0, .election, 0 + EventLoop.delay ((create replicaId).randomTimeout 300),
        none⟩]⟩ } := rfl
  rw [hstart, hdelay]
  rfl

/-- **An election timer waits for the minimum**, of every replica whose longest election timeout
is a delay that the event loop can have, and of no other. -/
theorem election_waits_iff (replicaId : Option String) :
    (∀ es handle c c', Runs.exec next (create replicaId) es = some c →
      c.next (.fire handle .election) = some c' → ∃ armed, c.armedAt = some armed ∧
        armed + electionTimeoutMinMs + computeElectionSkew replicaId ≤ c.loop.now) ↔
      electionTimeoutMaxMs + computeElectionSkew replicaId ≤ EventLoop.timeoutMax := by
  constructor
  · intro hall
    by_contra hlong
    have hstart := startElectionTimer_overlong (Nat.lt_of_not_le hlong)
    obtain ⟨c, hexec, harmed, hnow, hfire⟩ : ∃ c, Runs.exec next (create replicaId)
        [.startElectionTimer 300, .elapse 1] = some c ∧ c.armedAt = some 0 ∧ c.loop.now = 1 ∧
        c.next (.fire 0 .election) = some (c.ran ⟨0, .election, 1, none⟩ .election) := by
      have hnext : (create replicaId).next (.startElectionTimer 300) = some (overlong replicaId) :=
        congrArg some hstart
      refine ⟨{ overlong replicaId with loop := (overlong replicaId).loop.elapse 1 }, ?_, rfl, rfl,
        rfl⟩
      unfold Runs.exec
      rw [hnext]
      rfl
    obtain ⟨armed, harmed', hle⟩ := hall _ 0 c _ hexec hfire
    cases harmed.symm.trans harmed'
    unfold electionTimeoutMinMs at hle
    omega
  · intro hle es handle c c' hexec hfire
    obtain ⟨hkept, hskew, -⟩ := kept_exec (kept_create replicaId) hexec
    obtain ⟨t, ht, hcall, hdue, -⟩ := exists_of_fire hfire
    obtain ⟨-, -, armed, wait, harmed, hwait, heq⟩ := hkept.election t ht hcall
    have hskew' : c.manager.electionSkewMs = computeElectionSkew replicaId := hskew
    obtain ⟨-, -, hmin⟩ := hwait.bounds
    have hwaits := hmin (hskew' ▸ hle)
    exact ⟨armed, harmed, by omega⟩

end Clockwork

end QuorumCanvas
