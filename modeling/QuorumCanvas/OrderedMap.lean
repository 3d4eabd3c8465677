import Mathlib.Data.List.Basic

/-!
# Insertion-ordered maps

The map of JavaScript: a list of bindings in the order in which their keys were
first set.  Setting a key that is present replaces its value in place, so the
enumeration order only ever grows at the end.
-/

/-- A map enumerated in the order in which its keys were first set. -/
abbrev OrderedMap (κ β : Type*) := List (κ × β)

namespace OrderedMap

variable {κ β : Type*} [DecidableEq κ]

/-- The value bound to a key. -/
def get? : OrderedMap κ β → κ → Option β
  | [], _ => none
  | (k', v) :: m, k => if k' = k then some v else get? m k

/-- Bind a key, keeping its place when it is present. -/
def set : OrderedMap κ β → κ → β → OrderedMap κ β
  | [], k, v => [(k, v)]
  | (k', v') :: m, k, v => if k' = k then (k, v) :: m else (k', v') :: set m k v

/-- Unbind a key. -/
def erase (m : OrderedMap κ β) (k : κ) : OrderedMap κ β := m.filter fun b => b.1 ≠ k

@[simp] theorem get?_nil (k : κ) : get? ([] : OrderedMap κ β) k = none := rfl

@[simp] theorem get?_set_self (m : OrderedMap κ β) (k : κ) (v : β) :
    (m.set k v).get? k = some v := by
  induction m with
  | nil => simp [set, get?]
  | cons b m ih =>
      by_cases h : b.1 = k
      · simp [set, get?, h]
      · simp [set, get?, h, ih]

/-- The others. -/
theorem get?_set_ne (m : OrderedMap κ β) {k k' : κ} (v : β) (h : k' ≠ k) :
    (m.set k v).get? k' = m.get? k' := by
  induction m with
  | nil => simp [set, get?, h.symm]
  | cons b m ih =>
      by_cases hb : b.1 = k
      · simp [set, get?, hb, h.symm]
      · simp [set, get?, hb, ih]

@[simp] theorem get?_erase_self (m : OrderedMap κ β) (k : κ) : (m.erase k).get? k = none := by
  induction m with
  | nil => rfl
  | cons b m ih =>
      unfold erase at ih ⊢
      by_cases hb : b.1 = k
      · rw [List.filter_cons_of_neg (by simp [hb]), ih]
      · rw [List.filter_cons_of_pos (by simp [hb]), get?, if_neg hb, ih]

/-- The others. -/
theorem get?_erase_ne (m : OrderedMap κ β) {k k' : κ} (h : k' ≠ k) :
    (m.erase k).get? k' = m.get? k' := by
  induction m with
  | nil => rfl
  | cons b m ih =>
      unfold erase at ih ⊢
      by_cases hb : b.1 = k
      · rw [List.filter_cons_of_neg (by simp [hb]), ih, get?, if_neg (by rw [hb]; exact h.symm)]
      · rw [List.filter_cons_of_pos (by simp [hb]), get?, get?, ih]

/-- Every binding of the updated map is the new one or an old one. -/
theorem mem_set {m : OrderedMap κ β} {k : κ} {v : β} {b : κ × β} (h : b ∈ m.set k v) :
    b = (k, v) ∨ b ∈ m := by
  induction m with
  | nil => simpa [set] using h
  | cons b' m ih =>
      by_cases hb : b'.1 = k
      · rw [set, if_pos hb] at h
        rcases List.mem_cons.mp h with h | h
        · exact Or.inl h
        · exact Or.inr (List.mem_cons_of_mem _ h)
      · rw [set, if_neg hb] at h
        rcases List.mem_cons.mp h with h | h
        · exact Or.inr (List.mem_cons.mpr (Or.inl h))
        · exact (ih h).imp_right (List.mem_cons_of_mem _)

/-- No key is bound twice. -/
def KeysDistinct (m : OrderedMap κ β) : Prop := (m.map Prod.fst).Nodup

omit [DecidableEq κ] in
theorem keysDistinct_nil : KeysDistinct ([] : OrderedMap κ β) := List.nodup_nil

/-- Keys after setting one: the old keys, and the new one at the end if it is new. -/
theorem keys_set (m : OrderedMap κ β) (k : κ) (v : β) :
    (m.set k v).map Prod.fst =
      if k ∈ m.map Prod.fst then m.map Prod.fst else m.map Prod.fst ++ [k] := by
  induction m with
  | nil => simp [set]
  | cons b m ih =>
      by_cases hb : b.1 = k
      · simp [set, hb]
      · have hk : k ≠ b.1 := fun h => hb h.symm
        simp only [set, if_neg hb, List.map_cons, ih, List.mem_cons, hk, false_or]
        split <;> simp

/-- Setting a key adds it once. -/
theorem KeysDistinct.set {m : OrderedMap κ β} (h : KeysDistinct m) (k : κ) (v : β) :
    KeysDistinct (OrderedMap.set m k v) := by
  unfold KeysDistinct at *
  rw [keys_set]
  split
  · exact h
  · next hk => exact List.nodup_append.mpr ⟨h, by simp, by
      intro a ha b hb
      rintro rfl
      exact hk (by simpa [List.mem_singleton.mp hb] using ha)⟩

/-- Erasing adds none. -/
theorem KeysDistinct.erase {m : OrderedMap κ β} (h : KeysDistinct m) (k : κ) :
    KeysDistinct (OrderedMap.erase m k) :=
  List.Nodup.sublist (List.filter_sublist.map _) h

/-- What a key looks up is one of the bindings. -/
theorem mem_of_get? {m : OrderedMap κ β} {k : κ} {v : β} (h : m.get? k = some v) :
    (k, v) ∈ m := by
  induction m with
  | nil => cases h
  | cons b m ih =>
      by_cases hb : b.1 = k
      · rw [get?, if_pos hb] at h
        rw [← hb, ← Option.some.inj h]
        exact List.mem_cons_self
      · rw [get?, if_neg hb] at h
        exact List.mem_cons_of_mem _ (ih h)

/-- Setting a key that is not bound adds a binding at the end. -/
theorem set_eq_append {m : OrderedMap κ β} {k : κ} (v : β) (h : k ∉ m.map Prod.fst) :
    m.set k v = m ++ [(k, v)] := by
  induction m with
  | nil => rfl
  | cons b m ih =>
      have hb : b.1 ≠ k := fun heq => h (List.mem_map.mpr ⟨b, List.mem_cons_self, heq⟩)
      have hm : k ∉ m.map Prod.fst := fun hm => h (List.mem_cons_of_mem _ hm)
      rw [set, if_neg hb, ih hm]
      rfl

/-- In a well-formed map a binding is what its key looks up. -/
theorem get?_eq_some_iff {m : OrderedMap κ β} (h : KeysDistinct m) {k : κ} {v : β} :
    m.get? k = some v ↔ (k, v) ∈ m := by
  induction m with
  | nil => simp
  | cons b m ih =>
      obtain ⟨k', v'⟩ := b
      have hnd : KeysDistinct m := (List.nodup_cons.mp h).2
      have hk' : k' ∉ m.map Prod.fst := (List.nodup_cons.mp h).1
      by_cases hb : k' = k
      · subst hb
        have hnot : (k', v) ∉ m := fun hm => hk' (List.mem_map.mpr ⟨_, hm, rfl⟩)
        simp [get?, hnot, eq_comm]
      · have : (k, v) ≠ (k', v') := fun heq => hb (Prod.mk.inj heq).1.symm
        simp [get?, hb, ih hnd, Ne.symm hb]

section

variable {κ' β' : Type*} [DecidableEq κ']

/-- A map with other keys and values. -/
def rename (f : κ → κ') (g : β → β') (m : OrderedMap κ β) : OrderedMap κ' β' :=
  m.map fun b => (f b.1, g b.2)

variable {f : κ → κ'} (hf : Function.Injective f) (g : β → β') (m : OrderedMap κ β) (k : κ)

include hf

/-- A renamed key. -/
theorem get?_rename : get? (rename f g m) (f k) = (get? m k).map g := by
  induction m with
  | nil => rfl
  | cons b m ih =>
      have hcons : get? (rename f g (b :: m)) (f k) =
          if f b.1 = f k then some (g b.2) else get? (rename f g m) (f k) := rfl
      rw [hcons, ih, get?]
      simp only [hf.eq_iff]
      split <;> rfl

/-- Setting before renaming or after it. -/
theorem set_rename (v : β) : set (rename f g m) (f k) (g v) = rename f g (set m k v) := by
  induction m with
  | nil => rfl
  | cons b m ih =>
      have hcons : set (rename f g (b :: m)) (f k) (g v) =
          if f b.1 = f k then (f k, g v) :: rename f g m
          else (f b.1, g b.2) :: set (rename f g m) (f k) (g v) := rfl
      rw [hcons, ih, set]
      simp only [hf.eq_iff]
      split <;> rfl

/-- Erasing before renaming or after it. -/
theorem erase_rename : erase (rename f g m) (f k) = rename f g (erase m k) := by
  unfold erase rename
  rw [List.filter_map]
  congr 1
  apply List.filter_congr
  intro b _
  simp [hf.eq_iff]

end

end OrderedMap
