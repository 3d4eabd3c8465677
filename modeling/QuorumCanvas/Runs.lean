import Mathlib.Logic.Basic

/-!
# Runs of a labelled transition function

A system is a partial function `next` from a state and an event to the next
state.  `Reach next ok` relates two states when some run leads from one to the
other in which every event meets the condition `ok` in the state it happens in.
-/

namespace Runs

variable {σ ε : Type*} (next : σ → ε → Option σ)

/-- `s'` is reached from `s` by events that meet `ok` where they happen. -/
inductive Reach (ok : σ → ε → Prop) (s : σ) : σ → Prop
  | refl : Reach ok s s
  | tail {s' s'' : σ} {e : ε} (h : Reach ok s s') (hok : ok s' e)
      (hstep : next s' e = some s'') : Reach ok s s''

/-- The condition that every event meets. -/
def Any : σ → ε → Prop := fun _ _ => True

variable {next} {ok ok' : σ → ε → Prop} {s s' s'' : σ}

/-- A weaker condition allows more runs. -/
theorem Reach.mono (hle : ∀ s e, ok s e → ok' s e) (h : Reach next ok s s') :
    Reach next ok' s s' := by
  induction h with
  | refl => exact .refl
  | tail _ hok hstep ih => exact ih.tail (hle _ _ hok) hstep

/-- Runs compose. -/
theorem Reach.trans (h : Reach next ok s s') (h' : Reach next ok s' s'') :
    Reach next ok s s'' := by
  induction h' with
  | refl => exact h
  | tail _ hok hstep ih => exact ih.tail hok hstep

/-- **The invariant rule.**  What holds at the start and is kept by every
allowed event holds in every state reached. -/
theorem Reach.invariant {I : σ → Prop} (hinit : I s)
    (hstep : ∀ s e s', I s → ok s e → next s e = some s' → I s')
    (h : Reach next ok s s') : I s' := by
  induction h with
  | refl => exact hinit
  | tail _ hok hnext ih => exact hstep _ _ _ ih hok hnext

/-- Execute a list of events. -/
def exec (next : σ → ε → Option σ) : σ → List ε → Option σ
  | s, [] => some s
  | s, e :: es => (next s e).bind fun s' => exec next s' es

/-- The events of an execution all meet a condition. -/
def ExecOk (next : σ → ε → Option σ) (ok : σ → ε → Prop) : σ → List ε → Prop
  | _, [] => True
  | s, e :: es => ok s e ∧ ∀ s', next s e = some s' → ExecOk next ok s' es

theorem ExecOk.nil : ExecOk next ok s [] := trivial

theorem ExecOk.cons {e : ε} {es : List ε} (hok : ok s e) (hstep : next s e = some s')
    (h : ExecOk next ok s' es) : ExecOk next ok s (e :: es) := by
  refine ⟨hok, fun s'' hs'' => ?_⟩
  rw [hstep] at hs''
  exact Option.some.inj hs'' ▸ h

/-- Events that are allowed anywhere. -/
theorem ExecOk.of_forall {es : List ε} (h : ∀ e ∈ es, ∀ s, ok s e) : ExecOk next ok s es := by
  induction es generalizing s with
  | nil => exact .nil
  | cons e es ih =>
      exact ⟨h e List.mem_cons_self s,
        fun _ _ => ih fun e' he' => h e' (List.mem_cons_of_mem _ he')⟩

instance decidableExecOk [∀ s e, Decidable (ok s e)] (s : σ) :
    (es : List ε) → Decidable (ExecOk next ok s es)
  | [] => .isTrue trivial
  | e :: es =>
      match h : next s e with
      | none =>
        decidable_of_iff (ok s e) ⟨fun hok => ⟨hok, fun s' hs' => by simp [h] at hs'⟩, And.left⟩
      | some s' =>
          have := decidableExecOk s' es
          decidable_of_iff (ok s e ∧ ExecOk next ok s' es)
            ⟨fun hok => .cons hok.1 h hok.2, fun hok => ⟨hok.1, hok.2 s' h⟩⟩

/-- A list of events is a run. -/
theorem Reach.of_exec {es : List ε} (h : exec next s es = some s')
    (hok : ExecOk next ok s es) : Reach next ok s s' := by
  induction es generalizing s with
  | nil =>
      obtain rfl : s = s' := Option.some.inj h
      exact .refl
  | cons e es ih =>
      obtain ⟨s₁, hs₁, hrest⟩ := Option.bind_eq_some_iff.mp h
      exact (Reach.tail .refl hok.1 hs₁).trans (ih hrest (hok.2 s₁ hs₁))

/-- Any execution is a run. -/
theorem Reach.of_exec_any {es : List ε} (h : exec next s es = some s') :
    Reach next Any s s' := by
  refine Reach.of_exec h ?_
  clear h
  induction es generalizing s with
  | nil => trivial
  | cons e es ih => exact ⟨trivial, fun _ _ => ih⟩

/-- Lists of events run one after the other. -/
theorem exec_append (es es' : List ε) :
    exec next s (es ++ es') = (exec next s es).bind fun s' => exec next s' es' := by
  induction es generalizing s with
  | nil => rfl
  | cons e es ih =>
      simp only [List.cons_append, exec, ih]
      cases next s e with
      | none => rfl
      | some s₁ => rfl

/-- An execution is a run in which every event happens where the execution has it. -/
theorem Reach.along {es : List ε} (h : exec next s es = some s') :
    Reach next (fun s₁ e => ∃ before after, es = before ++ e :: after ∧
      exec next s before = some s₁) s s' := by
  have hall : ∀ before rest s₁, es = before ++ rest → exec next s before = some s₁ →
      exec next s₁ rest = some s' → Reach next (fun s₁ e => ∃ before after,
        es = before ++ e :: after ∧ exec next s before = some s₁) s₁ s' := by
    intro before rest
    induction rest generalizing before with
    | nil =>
        intro s₁ _ _ hrest
        obtain rfl : s₁ = s' := Option.some.inj hrest
        exact .refl
    | cons e rest ih =>
        intro s₁ heq hbefore hrest
        obtain ⟨s₂, hstep, hrest⟩ := Option.bind_eq_some_iff.mp hrest
        have hnow : exec next s (before ++ [e]) = some s₂ := by
          rw [exec_append, hbefore]
          exact (congrArg (Option.bind · fun s' => exec next s' []) hstep)
        have heq' : es = (before ++ [e]) ++ rest := by
          rw [heq, List.append_assoc, List.singleton_append]
        exact (Reach.tail .refl ⟨before, rest, heq, hbefore⟩ hstep).trans (ih _ s₂ heq' hnow hrest)
  exact hall [] es s rfl rfl h

/-- `P` holds in every state that an execution of the events passes through. -/
def Always (next : σ → ε → Option σ) (P : σ → Prop) : σ → List ε → Prop
  | s, [] => P s
  | s, e :: es => P s ∧ ∀ s', next s e = some s' → Always next P s' es

/-- **The exactness rule.**  Let `I` imply `P` and be kept by the events that meet
`ok`, and let any other event leave `P` broken.  Then `P` holds all along an
execution if and only if its events all meet `ok`.  Only events of a class `E`
need to be looked at. -/
theorem always_iff_execOk {I P : σ → Prop} {E : ε → Prop} (hP : ∀ s, I s → P s)
    (hkeep : ∀ s e s', I s → E e → ok s e → next s e = some s' → I s')
    (hbreak : ∀ s e s', I s → E e → ¬ ok s e → next s e = some s' → ¬ P s') {es : List ε}
    (hclass : ∀ e ∈ es, E e) (hinit : I s) (h : exec next s es = some s') :
    Always next P s es ↔ ExecOk next ok s es := by
  induction es generalizing s with
  | nil => exact ⟨fun _ => trivial, fun _ => hP s hinit⟩
  | cons e es ih =>
      obtain ⟨s₁, hs₁, hrest⟩ := Option.bind_eq_some_iff.mp h
      have hclass' : ∀ e ∈ es, E e := fun e he => hclass e (List.mem_cons_of_mem _ he)
      have hE := hclass e List.mem_cons_self
      have honly : ∀ s₂, next s e = some s₂ → s₁ = s₂ := fun s₂ hs₂ =>
        Option.some.inj (hs₁.symm.trans hs₂)
      constructor
      · intro halways
        have hlater := halways.2 s₁ hs₁
        have hok : ok s e := by
          refine Classical.byContradiction fun hnot => ?_
          have hP₁ : P s₁ := by
            cases es with
            | nil => exact hlater
            | cons => exact hlater.1
          exact hbreak s e s₁ hinit hE hnot hs₁ hP₁
        refine ⟨hok, fun s₂ hs₂ => ?_⟩
        obtain rfl := honly s₂ hs₂
        exact (ih hclass' (hkeep s e s₁ hinit hE hok hs₁) hrest).mp hlater
      · intro hexec
        refine ⟨hP s hinit, fun s₂ hs₂ => ?_⟩
        obtain rfl := honly s₂ hs₂
        exact (ih hclass' (hkeep s e s₁ hinit hE hexec.1 hs₁) hrest).mpr (hexec.2 s₁ hs₁)

/-- What holds all along an execution holds at its end. -/
theorem Always.last {P : σ → Prop} {es : List ε} (h : Always next P s es)
    (hexec : exec next s es = some s') : P s' := by
  induction es generalizing s with
  | nil => exact Option.some.inj hexec ▸ h
  | cons e es ih =>
      obtain ⟨s₁, hs₁, hrest⟩ := Option.bind_eq_some_iff.mp hexec
      exact ih (h.2 s₁ hs₁) hrest

/-! ## Simulation -/

section

variable {τ φ : Type*} (next) (view : σ → ε → Option φ)

/-- The events that an execution is seen as; those that are seen as nothing leave no trace. -/
def views : σ → List ε → List φ
  | _, [] => []
  | s, e :: es => (view s e).toList ++ ((next s e).map fun s' => views s' es).getD []

variable {next view} {next' : τ → φ → Option τ} {R : σ → τ → Prop} {E : ε → Prop}

/-- **The simulation rule.**  Let every event, seen from related states, be followed by none or one
event that leads to related states.  Then every execution is followed by what it is seen as. -/
theorem exec_views
    (hstep : ∀ s t e s', R s t → E e → next s e = some s' →
      ∃ t', exec next' t (view s e).toList = some t' ∧ R s' t')
    {t : τ} {es : List ε} (h : R s t) (hclass : ∀ e ∈ es, E e)
    (hexec : exec next s es = some s') :
    ∃ t', exec next' t (views next view s es) = some t' ∧ R s' t' := by
  induction es generalizing s t with
  | nil =>
      obtain rfl := Option.some.inj hexec
      exact ⟨t, rfl, h⟩
  | cons e es ih =>
      obtain ⟨s₁, hs₁, hrest⟩ := Option.bind_eq_some_iff.mp hexec
      obtain ⟨t₁, ht₁, h₁⟩ := hstep s t e s₁ h (hclass e List.mem_cons_self) hs₁
      obtain ⟨t', ht', h'⟩ := ih h₁ (fun e' he' => hclass e' (List.mem_cons_of_mem _ he')) hrest
      refine ⟨t', ?_, h'⟩
      rw [views, hs₁, Option.map_some, Option.getD_some, exec_append, ht₁, Option.bind_some]
      exact ht'

end

end Runs
