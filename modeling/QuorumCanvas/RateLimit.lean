import Mathlib.Data.List.Basic
import Mathlib.Order.Lattice.Nat

/-!
# The rate limiter of a connection

`handleStroke` counts strokes in a window that starts anew with the first stroke
after it has run out, so the windows lie on no grid: they are only at least one
window length apart.  An interval of that length therefore meets two of them at
most, and each passes no more strokes than the cap.

`W` is `rateLimitWindowMs` and `C` is `strokeRateLimitPerSec`.
-/

namespace QuorumCanvas

/-- What the gateway keeps for a connection. -/
structure ConnectionInfo where
  boardId : String
  userId : String
  strokeCount : ℕ
  windowStart : ℕ
  deriving DecidableEq

namespace ConnectionInfo

variable (W C : ℕ) (info : ConnectionInfo)

/-- The window of the connection has run out. -/
def expired (now : ℕ) : Prop := info.windowStart + W ≤ now

instance (now : ℕ) : Decidable (info.expired W now) := by unfold expired; infer_instance

/-- Start a new window if the old one has run out. -/
def rollWindow (now : ℕ) : ConnectionInfo :=
  if info.expired W now then { info with windowStart := now, strokeCount := 0 } else info

/-- The limiter of `handleStroke`: the stroke is counted, and passes if the count
stays within the cap. -/
def countStroke (now : ℕ) : ConnectionInfo × Bool :=
  let info := info.rollWindow W now
  let info := { info with strokeCount := info.strokeCount + 1 }
  (info, decide (info.strokeCount ≤ C))

/-- A validated stroke that was handled: when, in which of the connection's windows,
and whether it was passed to `submitStroke`. -/
structure Handled where
  time : ℕ
  window : ℕ
  passed : Bool
  deriving DecidableEq

/-- The strokes that arrive at `times`, from a connection in its window number `w`. -/
def handleStrokes (info : ConnectionInfo) (w : ℕ) : List ℕ → List Handled
  | [] => []
  | now :: times =>
      let w := if info.expired W now then w + 1 else w
      ⟨now, w, (info.countStroke W C now).2⟩ :: handleStrokes (info.countStroke W C now).1 w times

variable {W C} {info} {w : ℕ}

/-! ## One stroke -/

/-- An expired window starts anew. -/
theorem windowStart_countStroke_of_expired {now : ℕ} (h : info.expired W now) :
    (info.countStroke W C now).1.windowStart = now := by
  simp [countStroke, rollWindow, h]

/-- Another one goes on. -/
theorem windowStart_countStroke {now : ℕ} (h : ¬ info.expired W now) :
    (info.countStroke W C now).1.windowStart = info.windowStart := by
  simp [countStroke, rollWindow, h]

/-- Its count starts anew. -/
theorem strokeCount_countStroke_of_expired {now : ℕ} (h : info.expired W now) :
    (info.countStroke W C now).1.strokeCount = 1 := by
  simp [countStroke, rollWindow, h]

/-- Another one goes up. -/
theorem strokeCount_countStroke {now : ℕ} (h : ¬ info.expired W now) :
    (info.countStroke W C now).1.strokeCount = info.strokeCount + 1 := by
  simp [countStroke, rollWindow, h]

/-- A stroke passes while the count is within the limit. -/
theorem passed_iff (info : ConnectionInfo) (now : ℕ) :
    (info.countStroke W C now).2 = true ↔ (info.countStroke W C now).1.strokeCount ≤ C := by
  simp [countStroke]

/-! ## Counting by windows -/

/-- The strokes of window `v` that passed. -/
def passedIn (v : ℕ) (hs : List Handled) : ℕ := hs.countP fun h => h.passed && h.window = v

/-- Windows are numbered upwards. -/
theorem le_window {times : List ℕ} {h : Handled} (hmem : h ∈ handleStrokes W C info w times) :
    w ≤ h.window := by
  induction times generalizing info w with
  | nil => cases hmem
  | cons now times ih =>
      have hle : w ≤ if info.expired W now then w + 1 else w := by split <;> omega
      rcases List.mem_cons.mp hmem with heq | hrest
      · rw [heq]
        exact hle
      · exact hle.trans (ih hrest)

/-- Nothing passes in windows that are over. -/
theorem passedIn_of_lt {times : List ℕ} {v : ℕ} (hv : v < w) :
    passedIn v (handleStrokes W C info w times) = 0 := by
  refine List.countP_eq_zero.mpr ?_
  intro h hmem
  have := le_window hmem
  simp
  omega

/-- One stroke, then the rest. -/
theorem passedIn_cons (v : ℕ) (h : Handled) (hs : List Handled) :
    passedIn v (h :: hs) = passedIn v hs + if h.passed = true ∧ h.window = v then 1 else 0 := by
  simp [passedIn, List.countP_cons]

/-- What the window in progress still passes. -/
theorem passedIn_current (info : ConnectionInfo) (times : List ℕ) :
    passedIn w (handleStrokes W C info w times) ≤ C - info.strokeCount := by
  induction times generalizing info with
  | nil => exact Nat.zero_le _
  | cons now times ih =>
      unfold handleStrokes
      rw [passedIn_cons]
      by_cases hexp : info.expired W now
      · simp only [hexp, if_true]
        rw [passedIn_of_lt (Nat.lt_succ_self w)]
        simp
      · simp only [hexp, if_false, and_true]
        have hrest := ih (info.countStroke W C now).1
        have hpass := passed_iff (W := W) (C := C) info now
        rw [strokeCount_countStroke hexp] at hrest hpass
        split
        · next hp =>
            have := hpass.mp hp
            omega
        · omega

/-- No window passes more than the cap. -/
theorem passedIn_le (info : ConnectionInfo) (v : ℕ) (times : List ℕ) :
    passedIn v (handleStrokes W C info w times) ≤ C := by
  induction times generalizing info w with
  | nil => exact Nat.zero_le _
  | cons now times ih =>
      by_cases hv : v = w
      · subst hv
        exact (passedIn_current info _).trans (Nat.sub_le _ _)
      unfold handleStrokes
      rw [passedIn_cons]
      by_cases hexp : info.expired W now
      · simp only [hexp, if_true]
        have hpass := passed_iff (W := W) (C := C) info now
        rw [strokeCount_countStroke_of_expired hexp] at hpass
        split
        · next hp =>
            obtain ⟨hp, hwindow⟩ := hp
            obtain rfl : w + 1 = v := hwindow
            have hcurrent := passedIn_current (W := W) (C := C) (w := w + 1)
              (info.countStroke W C now).1 times
            rw [strokeCount_countStroke_of_expired hexp] at hcurrent
            have := hpass.mp hp
            omega
        · exact ih _
      · simp only [hexp, if_false, Ne.symm hv, and_false]
        exact ih _

/-- What passed in a window before a stroke of it was rejected is the cap: the
strokes listed, and for the window in progress those counted already. -/
theorem passedIn_of_rejected {times : List ℕ} {k : ℕ} {h : Handled}
    (hk : (handleStrokes W C info w times)[k]? = some h) (hrejected : h.passed = false) :
    passedIn h.window ((handleStrokes W C info w times).take k) +
      (if h.window = w then min info.strokeCount C else 0) = C := by
  induction times generalizing info w k with
  | nil => cases hk
  | cons now times ih =>
      have hpass := passed_iff (W := W) (C := C) info now
      unfold handleStrokes at hk ⊢
      by_cases hexp : info.expired W now
      · simp only [hexp, if_true] at hk ⊢
        rw [strokeCount_countStroke_of_expired hexp] at hpass
        cases k with
        | zero =>
            obtain rfl := Option.some.inj hk
            have hno : ¬ 1 ≤ C := by
              intro hle
              have hpassed := hpass.mpr hle
              have hfalse : (info.countStroke W C now).2 = false := hrejected
              rw [hfalse] at hpassed
              cases hpassed
            simp [passedIn]
            omega
        | succ k =>
            have hrest := ih hk
            have hle := le_window (List.mem_of_getElem? (show (handleStrokes W C
              (info.countStroke W C now).1 (w + 1) times)[k]? = some h from hk))
            rw [strokeCount_countStroke_of_expired hexp] at hrest
            rw [List.take_succ_cons, passedIn_cons, if_neg (show ¬ h.window = w by omega)]
            by_cases hw : h.window = w + 1
            · rw [if_pos hw] at hrest
              split
              · next hp =>
                  have := hpass.mp hp.1
                  omega
              · next hp =>
                  have := mt hpass.mpr fun hpassed => hp ⟨hpassed, hw.symm⟩
                  omega
            · rw [if_neg hw] at hrest
              rw [if_neg fun hp => hw hp.2.symm]
              omega
      · simp only [hexp, if_false] at hk ⊢
        rw [strokeCount_countStroke hexp] at hpass
        cases k with
        | zero =>
            obtain rfl := Option.some.inj hk
            have hno : ¬ info.strokeCount + 1 ≤ C := by
              intro hle
              have hpassed := hpass.mpr hle
              have hfalse : (info.countStroke W C now).2 = false := hrejected
              rw [hfalse] at hpassed
              cases hpassed
            simp [passedIn]
            omega
        | succ k =>
            have hrest := ih hk
            rw [strokeCount_countStroke hexp] at hrest
            rw [List.take_succ_cons, passedIn_cons]
            by_cases hw : h.window = w
            · rw [if_pos hw] at hrest
              rw [if_pos hw]
              split
              · next hp =>
                  have := hpass.mp hp.1
                  omega
              · next hp =>
                  have := mt hpass.mpr fun hpassed => hp ⟨hpassed, hw.symm⟩
                  omega
            · rw [if_neg hw] at hrest
              rw [if_neg hw, if_neg fun hp => hw hp.2.symm]
              omega

/-! ## Windows are a window length apart -/

/-- Strokes are handled when they come. -/
theorem time_mem {times : List ℕ} {h : Handled} (hmem : h ∈ handleStrokes W C info w times) :
    h.time ∈ times := by
  induction times generalizing info w with
  | nil => cases hmem
  | cons now times ih =>
      rcases List.mem_cons.mp hmem with heq | hrest
      · rw [heq]
        exact List.mem_cons_self
      · exact List.mem_cons_of_mem _ (ih hrest)

/-- The strokes of a later window come after the window in progress has run out. -/
theorem time_of_next_window {times : List ℕ} (hsorted : times.Pairwise (· ≤ ·)) {h : Handled}
    (hmem : h ∈ handleStrokes W C info w times) (hw : w < h.window) :
    info.windowStart + W ≤ h.time := by
  induction times generalizing info with
  | nil => cases hmem
  | cons now times ih =>
      obtain ⟨hfirst, hrest⟩ := List.pairwise_cons.mp hsorted
      by_cases hexp : info.expired W now
      · unfold expired at hexp
        rcases List.mem_cons.mp (time_mem hmem) with heq | hlater
        · omega
        · have := hfirst _ hlater
          omega
      · unfold handleStrokes at hmem
        simp only [hexp, if_false] at hmem
        rcases List.mem_cons.mp hmem with heq | hmem
        · rw [heq] at hw
          exact absurd hw (lt_irrefl w)
        · rw [← windowStart_countStroke (C := C) hexp]
          exact ih hrest hmem

/-- Those of the window after it come a whole window length after the first arrival. -/
theorem time_of_second_window {times : List ℕ} (hsorted : times.Pairwise (· ≤ ·)) {a : ℕ}
    (ha : ∀ t ∈ times, a ≤ t) {h : Handled} (hmem : h ∈ handleStrokes W C info w times)
    (hw : w + 1 < h.window) : a + W ≤ h.time := by
  induction times generalizing info with
  | nil => cases hmem
  | cons now times ih =>
      have hrest := (List.pairwise_cons.mp hsorted).2
      have ha' : ∀ t ∈ times, a ≤ t := fun t ht => ha t (List.mem_cons_of_mem _ ht)
      unfold handleStrokes at hmem
      rcases List.mem_cons.mp hmem with heq | hmem
      · have hle : (if info.expired W now then w + 1 else w) ≤ w + 1 := by split <;> omega
        rw [heq] at hw
        exact absurd hw (Nat.not_lt.mpr hle)
      · by_cases hexp : info.expired W now
        · simp only [hexp, if_true] at hmem
          have hstart := time_of_next_window hrest hmem hw
          rw [windowStart_countStroke_of_expired hexp] at hstart
          have := ha now List.mem_cons_self
          omega
        · simp only [hexp, if_false] at hmem
          exact ih hrest ha' hmem

/-- The strokes passed from `a` on, for a window length. -/
def passedFrom (W a : ℕ) (hs : List Handled) : ℕ :=
  hs.countP fun h => h.passed && (a ≤ h.time && h.time < a + W)

/-- Two windows cover an interval that starts before every arrival. -/
theorem passedFrom_le_of_le {times : List ℕ} (hsorted : times.Pairwise (· ≤ ·)) {a : ℕ}
    (ha : ∀ t ∈ times, a ≤ t) : passedFrom W a (handleStrokes W C info w times) ≤ 2 * C := by
  have htwo : passedFrom W a (handleStrokes W C info w times) ≤
      passedIn w (handleStrokes W C info w times) +
        passedIn (w + 1) (handleStrokes W C info w times) := by
    have hsub : ∀ hs : List Handled, (∀ h ∈ hs, h ∈ handleStrokes W C info w times) →
        passedFrom W a hs ≤ passedIn w hs + passedIn (w + 1) hs := by
      intro hs hmem
      induction hs with
      | nil => exact Nat.zero_le _
      | cons h hs ih =>
          have hrest := ih fun x hx => hmem x (List.mem_cons_of_mem _ hx)
          have hlow := le_window (hmem h List.mem_cons_self)
          have hhigh := mt (time_of_second_window hsorted ha (hmem h List.mem_cons_self))
          rw [passedIn_cons, passedIn_cons, passedFrom, List.countP_cons, ← passedFrom]
          by_cases hp : h.passed = true
          · by_cases hin : h.time < a + W
            · have hwindow : h.window = w ∨ h.window = w + 1 := by
                have := hhigh (by omega)
                omega
              simp only [hp, true_and]
              rcases hwindow with heq | heq
              · rw [if_pos heq]
                split <;> omega
              · rw [if_pos heq]
                split <;> omega
            · simp [hin]
              omega
          · simp [hp]
            exact hrest
    exact hsub _ fun _ h => h
  have := passedIn_le (W := W) (C := C) (w := w) info w times
  have := passedIn_le (W := W) (C := C) (w := w) info (w + 1) times
  omega

/-- Any interval of the window's length meets two windows at most. -/
theorem passedFrom_le {times : List ℕ} (hsorted : times.Pairwise (· ≤ ·)) (a : ℕ) :
    passedFrom W a (handleStrokes W C info w times) ≤ 2 * C := by
  induction times generalizing info w with
  | nil => exact Nat.zero_le _
  | cons now times ih =>
      obtain ⟨hfirst, hrest⟩ := List.pairwise_cons.mp hsorted
      by_cases hnow : a ≤ now
      · refine passedFrom_le_of_le hsorted ?_
        intro t ht
        rcases List.mem_cons.mp ht with heq | ht
        · omega
        · have := hfirst t ht
          omega
      · unfold handleStrokes
        rw [passedFrom, List.countP_cons, ← passedFrom]
        simp only [hnow, decide_false, Bool.false_and, Bool.and_false, Bool.false_eq_true, if_false,
          Nat.add_zero]
        exact ih hrest

/-- **The rate limit.**  Of the strokes of a connection, handled at times that never
go back, at most `2 * C` are passed on within any interval of one window length,
at most `C` within one of its windows, and a stroke is rejected only when `C`
strokes of its window have been passed on before it. -/
theorem rate_limit (W C : ℕ) (info : ConnectionInfo) (hnew : info.strokeCount = 0)
    (times : List ℕ) (hsorted : times.Pairwise (· ≤ ·)) :
    (∀ a, passedFrom W a (handleStrokes W C info 0 times) ≤ 2 * C) ∧
      (∀ v, passedIn v (handleStrokes W C info 0 times) ≤ C) ∧
      ∀ k h, (handleStrokes W C info 0 times)[k]? = some h → h.passed = false →
        passedIn h.window ((handleStrokes W C info 0 times).take k) = C := by
  refine ⟨fun a => passedFrom_le hsorted a, fun v => passedIn_le _ v times, ?_⟩
  intro k h hk hrejected
  have hcount := passedIn_of_rejected hk hrejected
  rw [hnew, Nat.zero_min, ite_self, Nat.add_zero] at hcount
  exact hcount

/-- A burst over a cap of two, half of it before and half after the window rolls. -/
theorem rate_limit_burst :
    passedFrom 10 8 (handleStrokes 10 2 ⟨"b", "u", 0, 0⟩ 0 [8, 9, 9, 10, 11, 12]) ≤ 2 * 2 :=
  (rate_limit 10 2 ⟨"b", "u", 0, 0⟩ rfl [8, 9, 9, 10, 11, 12] (by decide)).1 8

end ConnectionInfo

end QuorumCanvas
