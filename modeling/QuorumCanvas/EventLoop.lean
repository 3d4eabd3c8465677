import Mathlib.Data.List.Basic
import Mathlib.Data.List.Nodup

/-!
# Timers of an event loop

The loop holds its timers under handles that are never used twice.  A timer is
run when it is due or at any time after that; a timeout is then over, and an
interval is due again one period later.  Clearing a handle that is held no more
does nothing.
-/

namespace EventLoop

/-- A timer with callback `callback`; an interval has a period. -/
structure Timer (α : Type*) where
  handle : ℕ
  callback : α
  due : ℕ
  period : Option ℕ
  deriving DecidableEq

end EventLoop

/-- The clock, the next handle and the timers that are armed. -/
structure EventLoop (α : Type*) where
  now : ℕ
  nextHandle : ℕ
  timers : List (EventLoop.Timer α)
  deriving DecidableEq

namespace EventLoop

variable {α : Type*}

/-- A loop that has just started. -/
def idle : EventLoop α := ⟨0, 0, []⟩

/-- The longest delay a timer can have, in milliseconds. -/
def timeoutMax : ℕ := 2147483647

/-- A delay out of range becomes a millisecond. -/
def delay (after : ℕ) : ℕ := if 1 ≤ after ∧ after ≤ timeoutMax then after else 1

/-- A timer is armed, and its handle returned. -/
def add (l : EventLoop α) (callback : α) (after : ℕ) (period : Option ℕ) : EventLoop α × ℕ :=
  ({ l with
      nextHandle := l.nextHandle + 1
      timers := l.timers ++ [⟨l.nextHandle, callback, l.now + after, period⟩] }, l.nextHandle)

/-- `setTimeout`. -/
def setTimeout (l : EventLoop α) (callback : α) (after : ℕ) : EventLoop α × ℕ :=
  l.add callback (delay after) none

/-- `setInterval`. -/
def setInterval (l : EventLoop α) (callback : α) (after : ℕ) : EventLoop α × ℕ :=
  l.add callback (delay after) (some (delay after))

/-- `clearTimeout` and `clearInterval`. -/
def clear (l : EventLoop α) (handle : ℕ) : EventLoop α :=
  { l with timers := l.timers.filter fun t => t.handle ≠ handle }

/-- Time passes. -/
def elapse (l : EventLoop α) (ms : ℕ) : EventLoop α := { l with now := l.now + ms }

/-- The timer that has been run: a timeout is over, an interval starts again. -/
def settle (l : EventLoop α) (t : Timer α) : EventLoop α :=
  match t.period with
  | none => l.clear t.handle
  | some period =>
      { l.clear t.handle with
        timers := (l.clear t.handle).timers ++ [{ t with due := l.now + period }] }

/-- Run the timer `handle`, if it is held and due. -/
def fire (l : EventLoop α) (handle : ℕ) : Option (α × EventLoop α) :=
  match l.timers.find? fun t => t.handle = handle with
  | some t => if t.due ≤ l.now then some (t.callback, l.settle t) else none
  | none => none

/-- Handles are used once. -/
structure Sound (l : EventLoop α) : Prop where
  nodup : (l.timers.map Timer.handle).Nodup
  lt : ∀ t ∈ l.timers, t.handle < l.nextHandle

variable {l l' : EventLoop α} {callback : α} {t t' : Timer α} {handle after : ℕ}
  {period : Option ℕ}

/-- Arming adds a timer. -/
@[simp]
theorem mem_add : t ∈ (l.add callback after period).1.timers ↔
    t ∈ l.timers ∨ t = ⟨l.nextHandle, callback, l.now + after, period⟩ := by
  simp [add]

/-- Clearing removes one. -/
@[simp]
theorem mem_clear : t ∈ (l.clear handle).timers ↔ t ∈ l.timers ∧ t.handle ≠ handle := by
  simp [clear]

/-- A timer that has run is gone, or due again. -/
theorem mem_settle : t' ∈ (l.settle t).timers ↔ (t' ∈ l.timers ∧ t'.handle ≠ t.handle) ∨
    ∃ period, t.period = some period ∧ t' = { t with due := l.now + period } := by
  unfold settle
  cases hperiod : t.period with
  | none => simp
  | some period => simp

/-- Running a timer gives out no handle. -/
@[simp]
theorem nextHandle_settle : (l.settle t).nextHandle = l.nextHandle := by
  unfold settle
  cases t.period <;> rfl

/-- It takes no time. -/
@[simp]
theorem now_settle : (l.settle t).now = l.now := by
  unfold settle
  cases t.period <;> rfl

/-- A delay that is too long becomes one millisecond. -/
theorem delay_of_lt (hlt : timeoutMax < after) : delay after = 1 :=
  if_neg fun h => by omega

namespace Sound

/-- An idle loop is sound. -/
theorem idle : (idle : EventLoop α).Sound :=
  ⟨List.nodup_nil, fun _ ht => absurd ht List.not_mem_nil⟩

/-- A handle names one timer. -/
theorem eq (h : l.Sound) (ht : t ∈ l.timers) (ht' : t' ∈ l.timers)
    (heq : t.handle = t'.handle) : t = t' :=
  List.inj_on_of_nodup_map h.nodup ht ht' heq

/-- Handles are not given out twice. -/
theorem add (h : l.Sound) : (l.add callback after period).1.Sound := by
  constructor
  · have hnew : l.nextHandle ∉ l.timers.map Timer.handle := by
      intro hmem
      obtain ⟨t, ht, heq⟩ := List.mem_map.mp hmem
      exact absurd (h.lt t ht) (by omega)
    simp only [EventLoop.add, List.map_append, List.map_cons, List.map_nil]
    exact List.nodup_append.mpr ⟨h.nodup, List.nodup_singleton _, fun a ha b hb => by
      rw [List.mem_singleton.mp hb]
      exact fun heq => hnew (heq ▸ ha)⟩
  · intro t ht
    rcases mem_add.mp ht with hold | rfl
    · exact Nat.lt_succ_of_lt (h.lt t hold)
    · exact Nat.lt_succ_self _

/-- Clearing gives out none. -/
theorem clear (h : l.Sound) : (l.clear handle).Sound :=
  ⟨h.nodup.sublist (List.filter_sublist.map _), fun t ht => h.lt t (mem_clear.mp ht).1⟩

/-- Running a timer gives out none. -/
theorem settle (h : l.Sound) (ht : t ∈ l.timers) : (l.settle t).Sound := by
  unfold EventLoop.settle
  cases hperiod : t.period with
  | none => exact h.clear
  | some period =>
      constructor
      · simp only [List.map_append, List.map_cons, List.map_nil]
        refine List.nodup_append.mpr ⟨h.clear.nodup, List.nodup_singleton _, ?_⟩
        intro a ha b hb
        rw [List.mem_singleton.mp hb]
        obtain ⟨t', ht', rfl⟩ := List.mem_map.mp ha
        exact (mem_clear.mp ht').2
      · intro t' ht'
        rcases List.mem_append.mp ht' with hold | hnew
        · exact h.clear.lt t' hold
        · rw [List.mem_singleton.mp hnew]
          exact h.lt t ht

end Sound

/-- What is run was held and due. -/
theorem exists_of_fire (h : l.fire handle = some (callback, l')) :
    ∃ t ∈ l.timers, t.handle = handle ∧ t.callback = callback ∧ t.due ≤ l.now ∧
      l' = l.settle t := by
  unfold fire at h
  cases hfind : l.timers.find? fun t => t.handle = handle with
  | none =>
      rw [hfind] at h
      cases h
  | some t =>
      rw [hfind] at h
      have hhandle : t.handle = handle := by simpa using List.find?_some hfind
      by_cases hdue : t.due ≤ l.now
      · cases (if_pos hdue).symm.trans h
        exact ⟨t, List.mem_of_find?_eq_some hfind, hhandle, rfl, hdue, rfl⟩
      · cases (if_neg hdue).symm.trans h

end EventLoop
