import Mathlib.Data.List.Nodup
import Mathlib.Logic.Function.Basic
import Mathlib.Logic.Relation
import Mathlib.Order.Nat

/-!
# One call at a time for each key

Calls that take time are kept apart by key.  Whoever asks for a key that has no call
starts one, under a fresh number that occupies the slot of the key; whoever asks
while it runs is given the same number.  A call first settles and is then released,
which clears the slot of its key, whatever number stands there.

`Guarded` says that slots and running calls match one to one, so that a release never
clears the slot of another call; `Since` that a slot, once cleared, is taken again
only by calls that start later.
-/

namespace SingleFlight

/-- A call that runs: its number, its key, and what it waits for until it settles. -/
structure Call (κ ρ : Type*) where
  number : ℕ
  key : κ
  pending : Option ρ

/-- The number that each key is given while its call runs, and the calls that run. -/
structure Table (κ ρ : Type*) where
  slot : κ → Option ℕ
  calls : List (Call κ ρ)
  fresh : ℕ

variable {κ ρ : Type*} [DecidableEq κ] {f f' f'' : Table κ ρ}

/-- What can happen to a table. -/
inductive Step (f : Table κ ρ) : Table κ ρ → Prop
  /-- a key without a call is asked for -/
  | start (key : κ) (pending : Option ρ) (fresh : ℕ) (hfree : f.slot key = none)
      (hfresh : f.fresh < fresh) :
      Step f ⟨Function.update f.slot key (some f.fresh), f.calls ++ [⟨f.fresh, key, pending⟩],
        fresh⟩
  /-- a call has what it waited for -/
  | settle (k : ℕ) (call : Call κ ρ) (hk : f.calls[k]? = some call) :
      Step f { f with calls := f.calls.set k { call with pending := none } }
  /-- a settled call is gone, and the slot of its key is cleared -/
  | release (k : ℕ) (call : Call κ ρ) (hk : f.calls[k]? = some call)
      (hdone : call.pending = none) :
      Step f ⟨Function.update f.slot call.key none, f.calls.eraseIdx k, f.fresh⟩
  /-- numbers are used for something else -/
  | skip (fresh : ℕ) (hfresh : f.fresh ≤ fresh) : Step f { f with fresh }

/-- Any number of steps. -/
abbrev Steps : Table κ ρ → Table κ ρ → Prop := Relation.ReflTransGen Step

/-- What a changed slot holds is the change or what was there. -/
theorem eq_some_of_update {slot : κ → Option ℕ} {key x : κ} {v : Option ℕ} {n : ℕ}
    (h : Function.update slot key v x = some n) :
    (x = key ∧ v = some n) ∨ (x ≠ key ∧ slot x = some n) := by
  by_cases hx : x = key
  · rw [hx, Function.update_self] at h
    exact Or.inl ⟨hx, h⟩
  · rw [Function.update_of_ne hx] at h
    exact Or.inr ⟨hx, h⟩

/-! ## Slots and running calls match -/

/-- Each key has at most one call, whose number is in its slot, and a slot is occupied
by nothing else. -/
structure Guarded (f : Table κ ρ) : Prop where
  keys_nodup : (f.calls.map Call.key).Nodup
  slot_eq : ∀ call ∈ f.calls, f.slot call.key = some call.number
  exists_call : ∀ key n, f.slot key = some n → ∃ call ∈ f.calls, call.key = key ∧ call.number = n
  lt_fresh : ∀ call ∈ f.calls, call.number < f.fresh

namespace Guarded

omit [DecidableEq κ] in
/-- A table without calls. -/
theorem empty (fresh : ℕ) : Guarded (⟨fun _ => none, [], fresh⟩ : Table κ ρ) where
  keys_nodup := List.nodup_nil
  slot_eq := fun _ h => (nomatch h)
  exists_call := fun _ _ h => (nomatch h)
  lt_fresh := fun _ h => (nomatch h)

omit [DecidableEq κ] in
/-- Two calls with one key are the same call. -/
theorem index_unique (h : Guarded f) {i j : ℕ} {x y : Call κ ρ} (hi : f.calls[i]? = some x)
    (hj : f.calls[j]? = some y) (hkey : x.key = y.key) : i = j := by
  have hx : (f.calls.map Call.key)[i]? = some x.key := by rw [List.getElem?_map, hi]; rfl
  have hy : (f.calls.map Call.key)[j]? = some x.key := by
    rw [List.getElem?_map, hj, hkey]; rfl
  have hlt : i < (f.calls.map Call.key).length := (List.getElem?_eq_some_iff.mp hx).1
  exact (List.getElem?_inj hlt h.keys_nodup).mp (hx.trans hy.symm)

/-- A free slot is taken by a new call. -/
theorem start (h : Guarded f) {key : κ} (pending : Option ρ) {fresh : ℕ}
    (hfree : f.slot key = none) (hfresh : f.fresh < fresh) :
    Guarded ⟨Function.update f.slot key (some f.fresh), f.calls ++ [⟨f.fresh, key, pending⟩],
      fresh⟩ := by
  have hother : ∀ call ∈ f.calls, call.key ≠ key := by
    intro call hmem heq
    rw [← heq, h.slot_eq call hmem] at hfree
    cases hfree
  refine ⟨?_, ?_, ?_, ?_⟩
  · show ((f.calls ++ [_]).map Call.key).Nodup
    rw [List.map_append]
    refine List.nodup_append.mpr ⟨h.keys_nodup, List.nodup_singleton _, ?_⟩
    intro x hx y hy
    obtain ⟨call, hmem, rfl⟩ := List.mem_map.mp hx
    obtain rfl : y = key := List.mem_singleton.mp hy
    exact hother call hmem
  · intro call hmem
    rcases List.mem_append.mp hmem with hold | hnew
    · exact (Function.update_of_ne (hother call hold) _ _).trans (h.slot_eq call hold)
    · obtain rfl := List.mem_singleton.mp hnew
      exact Function.update_self _ _ _
  · intro x n hn
    rcases eq_some_of_update hn with ⟨rfl, hfresh⟩ | ⟨-, hold⟩
    · obtain rfl := Option.some.inj hfresh
      exact ⟨_, List.mem_append_right _ (List.mem_singleton_self _), rfl, rfl⟩
    · obtain ⟨call, hmem, hcall⟩ := h.exists_call x n hold
      exact ⟨call, List.mem_append_left _ hmem, hcall⟩
  · intro call hmem
    rcases List.mem_append.mp hmem with hold | hnew
    · exact (h.lt_fresh call hold).trans hfresh
    · obtain rfl := List.mem_singleton.mp hnew
      exact hfresh

omit [DecidableEq κ] in
/-- A call settles, and keeps its slot. -/
theorem settle (h : Guarded f) {k : ℕ} {call : Call κ ρ} (hk : f.calls[k]? = some call) :
    Guarded { f with calls := f.calls.set k { call with pending := none } } := by
  have hmem : call ∈ f.calls := List.mem_of_getElem? hk
  -- the call keeps its number and its key
  have hback : ∀ x ∈ f.calls.set k { call with pending := none },
      ∃ y ∈ f.calls, y.key = x.key ∧ y.number = x.number := by
    intro x hx
    rcases List.mem_or_eq_of_mem_set hx with hold | rfl
    · exact ⟨x, hold, rfl, rfl⟩
    · exact ⟨call, hmem, rfl, rfl⟩
  refine ⟨?_, ?_, ?_, ?_⟩
  · show ((f.calls.set k _).map Call.key).Nodup
    have hlt : k < (f.calls.map Call.key).length := by
      rw [List.length_map]
      exact (List.getElem?_eq_some_iff.mp hk).1
    have hkey : call.key = (f.calls.map Call.key)[k] := by
      rw [List.getElem_map, (List.getElem?_eq_some_iff.mp hk).2]
    rw [List.map_set, hkey, List.set_getElem_self]
    exact h.keys_nodup
  · intro x hx
    obtain ⟨y, hy, hkey, hnumber⟩ := hback x hx
    rw [← hkey, ← hnumber]
    exact h.slot_eq y hy
  · intro key n hn
    obtain ⟨y, hy, hkey, hnumber⟩ := h.exists_call key n hn
    obtain ⟨i, hi⟩ := List.mem_iff_getElem?.mp hy
    by_cases hik : i = k
    · subst hik
      obtain rfl : call = y := Option.some.inj (hk.symm.trans hi)
      exact ⟨_, List.mem_set (List.getElem?_eq_some_iff.mp hk).1 _, hkey, hnumber⟩
    · refine ⟨y, ?_, hkey, hnumber⟩
      exact List.mem_of_getElem? ((List.getElem?_set_ne (Ne.symm hik)).trans hi)
  · intro x hx
    obtain ⟨y, hy, -, hnumber⟩ := hback x hx
    rw [← hnumber]
    exact h.lt_fresh y hy

/-- A call ends, and frees its slot. -/
theorem release (h : Guarded f) {k : ℕ} {call : Call κ ρ} (hk : f.calls[k]? = some call) :
    Guarded ⟨Function.update f.slot call.key none, f.calls.eraseIdx k, f.fresh⟩ := by
  refine ⟨?_, ?_, ?_, ?_⟩
  · exact h.keys_nodup.sublist ((List.eraseIdx_sublist f.calls k).map Call.key)
  · intro x hx
    obtain ⟨i, hik, hi⟩ := List.mem_eraseIdx_iff_getElem?.mp hx
    have hkey : x.key ≠ call.key := fun heq => hik (h.index_unique hi hk heq)
    exact (Function.update_of_ne hkey _ _).trans (h.slot_eq x (List.mem_of_getElem? hi))
  · intro key n hn
    rcases eq_some_of_update hn with ⟨-, hnone⟩ | ⟨hkey, hold⟩
    · cases hnone
    · obtain ⟨x, hx, rfl, hnumber⟩ := h.exists_call key n hold
      obtain ⟨i, hi⟩ := List.mem_iff_getElem?.mp hx
      refine ⟨x, List.mem_eraseIdx_iff_getElem?.mpr ⟨i, ?_, hi⟩, rfl, hnumber⟩
      intro hik
      subst hik
      exact hkey (congrArg Call.key (Option.some.inj (hi.symm.trans hk)))
  · exact fun x hx => h.lt_fresh x (List.mem_of_mem_eraseIdx hx)

/-- **Kept by every step.** -/
theorem step (h : Guarded f) (hstep : Step f f') : Guarded f' := by
  cases hstep with
  | start key pending fresh hfree hfresh => exact h.start pending hfree hfresh
  | settle k call hk => exact h.settle hk
  | release k call hk hdone => exact h.release hk
  | skip fresh hfresh =>
      exact ⟨h.keys_nodup, h.slot_eq, h.exists_call,
        fun call hmem => (h.lt_fresh call hmem).trans_le hfresh⟩

/-- Guards hold through any steps. -/
theorem steps (h : Guarded f) (hsteps : Steps f f') : Guarded f' := by
  induction hsteps with
  | refl => exact h
  | tail _ hstep ih => exact ih.step hstep

end Guarded

/-! ## Who takes a slot later -/

/-- What stands in a slot of the later table `f'` stood there in `f`, or is the number of
a call that started after `f`. -/
structure Since (f f' : Table κ ρ) : Prop where
  le_fresh : f.fresh ≤ f'.fresh
  slot : ∀ key n, f'.slot key = some n → f.slot key = some n ∨ f.fresh ≤ n

namespace Since

omit [DecidableEq κ] in
theorem refl (f : Table κ ρ) : Since f f := ⟨le_rfl, fun _ _ h => Or.inl h⟩

omit [DecidableEq κ] in
theorem trans (h : Since f f') (h' : Since f' f'') : Since f f'' := by
  refine ⟨h.le_fresh.trans h'.le_fresh, fun key n hn => ?_⟩
  rcases h'.slot key n hn with hold | hnew
  · exact h.slot key n hold
  · exact Or.inr (h.le_fresh.trans hnew)

/-- One step. -/
theorem of_step (hstep : Step f f') : Since f f' := by
  cases hstep with
  | start key pending fresh hfree hfresh =>
      refine ⟨hfresh.le, fun x n hn => ?_⟩
      rcases eq_some_of_update hn with ⟨-, hfresh⟩ | ⟨-, hold⟩
      · exact Or.inr (Option.some.inj hfresh).le
      · exact Or.inl hold
  | settle k call hk => exact ⟨le_rfl, fun _ _ hn => Or.inl hn⟩
  | release k call hk hdone =>
      refine ⟨le_rfl, fun x n hn => ?_⟩
      rcases eq_some_of_update hn with ⟨-, hnone⟩ | ⟨-, hold⟩
      · cases hnone
      · exact Or.inl hold
  | skip fresh hfresh => exact ⟨hfresh, fun _ _ hn => Or.inl hn⟩

/-- Any number of steps. -/
theorem of_steps (hsteps : Steps f f') : Since f f' := by
  induction hsteps with
  | refl => exact refl f
  | tail _ hstep ih => exact ih.trans (of_step hstep)

omit [DecidableEq κ] in
/-- A slot that has lost the number it held is taken again only by a later call. -/
theorem renewed (h : Since f f') (h' : Since f' f'') {key : κ} {n m : ℕ}
    (hn : f.slot key = some n) (hlost : f'.slot key ≠ some n) (hm : f''.slot key = some m) :
    f.fresh ≤ m := by
  rcases h'.slot key m hm with hold | hnew
  · rcases h.slot key m hold with hfirst | hnew
    · exact absurd (hold.trans (hfirst.symm.trans hn)) hlost
    · exact hnew
  · exact h.le_fresh.trans hnew

end Since

end SingleFlight
