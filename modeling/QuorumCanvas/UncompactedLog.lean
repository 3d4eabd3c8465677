import Mathlib.Data.List.ReduceOption
import QuorumCanvas.LogShape

/-!
# The log without compaction

What `RaftLog` stands for: a list of entries indexed from 1, nothing of which is
ever moved.  A boundary says up to where a snapshot has taken over.  Compaction
moves the boundary only; installing a snapshot also forgets the entries up to
it, whatever they were, so a position at or below the boundary may be empty.

`Refines` relates the two.  It is kept by every mutator, and it makes every
accessor agree, so they agree after any sequence of mutators.
-/

namespace QuorumCanvas

/-- A log indexed from 1, of which a snapshot covers the first `boundary` entries. -/
structure UncompactedLog where
  entries : List (Option LogEntry)
  boundary : ℕ
  boundaryTerm : ℕ
  boundary_le : boundary ≤ entries.length
  /-- an entry stands at the position that its index names -/
  indexed : ∀ k e, entries[k]? = some (some e) → e.index = k + 1
  /-- only positions that the snapshot covers can be empty -/
  filled : ∀ k, boundary ≤ k → entries[k]? ≠ some none
  /-- the boundary carries the term of the entry that stands there -/
  term : ∀ e, 0 < boundary → entries[boundary - 1]? = some (some e) → e.term = boundaryTerm

namespace UncompactedLog

/-- The log with nothing in it. -/
def empty : UncompactedLog where
  entries := []
  boundary := 0
  boundaryTerm := 0
  boundary_le := le_rfl
  indexed := by simp
  filled := by simp
  term := by simp

variable (a : UncompactedLog)

/-! ## What can be read -/

/-- The index of the last entry ever. -/
def lastIndex : ℕ := a.entries.length

/-- Entry `k`, if the log still has it. -/
def entry (k : ℕ) : Option LogEntry :=
  if k = 0 then none else (a.entries[k - 1]?).join

/-- The term at `k`: that of entry `k`, or the boundary's. -/
def termAt (k : ℕ) : ℕ :=
  if k = a.boundary then a.boundaryTerm else ((a.entry k).map LogEntry.term).getD 0

/-- Its term. -/
def lastTerm : ℕ := a.termAt a.lastIndex

/-- The entries the log has, in order. -/
def held : List LogEntry := a.entries.reduceOption

/-! ## What can happen to it -/

/-- The mutators of `RaftLog`. -/
inductive Op
  | append (entry : LogEntry)
  | truncateFrom (index : ℕ)
  | compact (uptoIndex term : ℕ)
  | installSnapshot (lastIncludedIndex lastIncludedTerm : ℕ)
  deriving DecidableEq

/-- How the callers of the mutators call them. -/
def Legal : Op → Prop
  | .append entry => entry.index = a.lastIndex + 1
  | .truncateFrom _ => True
  | .compact uptoIndex term =>
      uptoIndex ≤ a.lastIndex ∧ (a.boundary < uptoIndex → term = a.termAt uptoIndex)
  | .installSnapshot lastIncludedIndex _ => a.boundary ≤ lastIncludedIndex

instance (op : Op) : Decidable (a.Legal op) := by
  cases op <;> unfold Legal <;> infer_instance

/-- One entry more. -/
def append (entry : LogEntry) (h : entry.index = a.lastIndex + 1) : UncompactedLog where
  entries := a.entries ++ [some entry]
  boundary := a.boundary
  boundaryTerm := a.boundaryTerm
  boundary_le := by
    have := a.boundary_le
    rw [List.length_append]
    omega
  indexed := by
    intro k e hk
    rcases Nat.lt_or_ge k a.entries.length with hlt | hge
    · rw [List.getElem?_append_left hlt] at hk
      exact a.indexed k e hk
    · rw [List.getElem?_append_right hge, List.getElem?_singleton] at hk
      split at hk
      · cases hk
        unfold lastIndex at h
        omega
      · cases hk
  filled := by
    intro k hk hnone
    rcases Nat.lt_or_ge k a.entries.length with hlt | hge
    · rw [List.getElem?_append_left hlt] at hnone
      exact a.filled k hk hnone
    · rw [List.getElem?_append_right hge, List.getElem?_singleton] at hnone
      split at hnone <;> cases hnone
  term := by
    intro e hpos he
    have := a.boundary_le
    rw [List.getElem?_append_left (by omega)] at he
    exact a.term e hpos he

/-- The entries from `index` on are dropped, unless the snapshot covers some of them. -/
def truncateFrom (index : ℕ) : UncompactedLog :=
  if h : index ≤ a.boundary then a
  else
    { entries := a.entries.take (index - 1)
      boundary := a.boundary
      boundaryTerm := a.boundaryTerm
      boundary_le := by
        have := a.boundary_le
        rw [List.length_take]
        omega
      indexed := by
        intro k e hk
        rw [List.getElem?_take] at hk
        split at hk
        · exact a.indexed k e hk
        · cases hk
      filled := by
        intro k hk hnone
        rw [List.getElem?_take] at hnone
        split at hnone
        · exact a.filled k hk hnone
        · cases hnone
      term := by
        intro e hpos he
        rw [List.getElem?_take, if_pos (by omega)] at he
        exact a.term e hpos he }

/-- A snapshot takes over up to `uptoIndex`; no entry moves. -/
def compact (uptoIndex : ℕ) (h : uptoIndex ≤ a.lastIndex) : UncompactedLog :=
  if hle : uptoIndex ≤ a.boundary then a
  else
    { entries := a.entries
      boundary := uptoIndex
      boundaryTerm := a.termAt uptoIndex
      boundary_le := h
      indexed := a.indexed
      filled := fun k hk => a.filled k (by omega)
      term := by
        intro e hpos he
        have hne : uptoIndex ≠ a.boundary := by omega
        simp [termAt, entry, hne, hpos.ne', he] }

/-- A snapshot takes over up to `index`, and what stood there is forgotten. -/
def installSnapshot (index term : ℕ) (h : a.boundary ≤ index) : UncompactedLog where
  entries := List.replicate index none ++ a.entries.drop index
  boundary := index
  boundaryTerm := term
  boundary_le := by simp
  indexed := by
    intro k e hk
    rcases Nat.lt_or_ge k index with hlt | hge
    · rw [List.getElem?_append_left (by simpa using hlt), List.getElem?_replicate,
        if_pos hlt] at hk
      cases hk
    · rw [List.getElem?_append_right (by simpa using hge), List.getElem?_drop,
        List.length_replicate, Nat.add_sub_cancel' hge] at hk
      exact a.indexed k e hk
  filled := by
    intro k hk hnone
    rw [List.getElem?_append_right (by simpa using hk), List.getElem?_drop,
      List.length_replicate, Nat.add_sub_cancel' hk] at hnone
    exact a.filled k (h.trans hk) hnone
  term := by
    intro e hpos he
    rw [List.getElem?_append_left (by rw [List.length_replicate]; omega),
      List.getElem?_replicate, if_pos (by omega)] at he
    cases he

/-- One call of a mutator, when it is called as its callers do. -/
def next (a : UncompactedLog) (op : Op) : Option UncompactedLog :=
  if h : a.Legal op then
    match op, h with
    | .append entry, h => some (a.append entry h)
    | .truncateFrom index, _ => some (a.truncateFrom index)
    | .compact uptoIndex _, h => some (a.compact uptoIndex h.1)
    | .installSnapshot index term, h => some (a.installSnapshot index term h)
  else none

end UncompactedLog

namespace RaftLog

open UncompactedLog (Op)

/-- One call of a mutator. -/
def run (log : RaftLog) : Op → RaftLog
  | .append entry => log.append entry
  | .truncateFrom index => log.truncateFrom index
  | .compact uptoIndex term => log.compact uptoIndex term
  | .installSnapshot index term => log.installSnapshot index term

/-- The log holds what follows the boundary. -/
structure Refines (log : RaftLog) (a : UncompactedLog) : Prop where
  boundary : log.lastIncludedIndex = a.boundary
  boundaryTerm : log.lastIncludedTerm = a.boundaryTerm
  entries : log.entries.map some = a.entries.drop a.boundary

namespace Refines

variable {log : RaftLog} {a a' : UncompactedLog}

/-- The entries in memory are the later ones. -/
theorem getElem? (h : Refines log a) (k : ℕ) :
    log.entries[k]?.map some = a.entries[a.boundary + k]? := by
  rw [← List.getElem?_map, h.entries, List.getElem?_drop]

/-- The last index is that of the whole log. -/
theorem length (h : Refines log a) : log.getLastIndex = a.lastIndex := by
  have hlength := congrArg List.length h.entries
  rw [List.length_map, List.length_drop] at hlength
  have := a.boundary_le
  have := h.boundary
  unfold getLastIndex UncompactedLog.lastIndex
  omega

/-- A refining log is contiguous. -/
theorem contiguous (h : Refines log a) : log.Contiguous := by
  intro k e hk
  have hpos := h.getElem? k
  rw [hk] at hpos
  have := a.indexed _ e hpos.symm
  rw [h.boundary]
  exact this

/-! ### The mutators -/

/-- An entry is appended to both. -/
theorem append (h : Refines log a) {e : LogEntry} (he : e.index = a.lastIndex + 1) :
    Refines (log.append e) (a.append e he) where
  boundary := h.boundary
  boundaryTerm := h.boundaryTerm
  entries := by
    show (log.entries ++ [e]).map some = (a.entries ++ [some e]).drop a.boundary
    rw [List.map_append, List.drop_append_of_le_length a.boundary_le, h.entries]
    rfl

/-- Both are truncated. -/
theorem truncateFrom (h : Refines log a) (i : ℕ) :
    Refines (log.truncateFrom i) (a.truncateFrom i) := by
  have hboundary := h.boundary
  unfold UncompactedLog.truncateFrom
  split
  · next hle =>
      have hout : ¬ log.inRange i := by
        unfold inRange
        omega
      unfold RaftLog.truncateFrom
      rw [if_neg hout]
      exact h
  · next hlt =>
      unfold RaftLog.truncateFrom
      split
      · refine ⟨h.boundary, h.boundaryTerm, ?_⟩
        dsimp only
        have hcut : i - log.lastIncludedIndex - 1 = i - 1 - a.boundary := by omega
        rw [List.map_take, h.entries, List.drop_take, hcut]
      · next hout =>
          refine ⟨h.boundary, h.boundaryTerm, ?_⟩
          have hlength := h.length
          unfold inRange at hout
          unfold UncompactedLog.lastIndex at hlength
          dsimp only
          rw [List.take_of_length_le (by omega)]
          exact h.entries

/-- The boundary moves, and the whole log stays. -/
theorem compact (h : Refines log a) {u t : ℕ} (hu : u ≤ a.lastIndex)
    (ht : a.boundary < u → t = a.termAt u) : Refines (log.compact u t) (a.compact u hu) := by
  have hboundary := h.boundary
  unfold UncompactedLog.compact
  split
  · next hle =>
      unfold RaftLog.compact
      rw [if_pos (hboundary ▸ hle)]
      exact h
  · next hlt =>
      unfold RaftLog.compact
      rw [if_neg (hboundary ▸ hlt)]
      refine ⟨rfl, ht (by omega), ?_⟩
      have hdrop : a.boundary + (u - log.lastIncludedIndex) = u := by omega
      rw [List.map_drop, h.entries, List.drop_drop, hdrop]

/-- A snapshot replaces what it covers. -/
theorem installSnapshot (h : Refines log a) {m : ℕ} (t : ℕ) (hm : a.boundary ≤ m) :
    Refines (log.installSnapshot m t) (a.installSnapshot m t hm) := by
  have hboundary := h.boundary
  refine ⟨rfl, rfl, ?_⟩
  show (log.entries.filter fun e => m < e.index).map some =
    (List.replicate m none ++ a.entries.drop m).drop m
  have hdrop : a.boundary + (m - log.lastIncludedIndex) = m := by omega
  rw [h.contiguous.filter_eq_drop (hboundary ▸ hm), List.map_drop, h.entries, List.drop_drop, hdrop,
    List.drop_append_of_le_length (by simp), List.drop_replicate, Nat.sub_self]
  rfl

/-- Each call keeps the relation. -/
theorem step (h : Refines log a) {op : Op} (hnext : a.next op = some a') :
    Refines (log.run op) a' := by
  unfold UncompactedLog.next at hnext
  split at hnext
  · next hlegal =>
      cases op with
      | append entry =>
          obtain rfl := Option.some.inj hnext
          exact h.append hlegal
      | truncateFrom index =>
          obtain rfl := Option.some.inj hnext
          exact h.truncateFrom index
      | compact uptoIndex term =>
          obtain rfl := Option.some.inj hnext
          exact h.compact hlegal.1 hlegal.2
      | installSnapshot index term =>
          obtain rfl := Option.some.inj hnext
          exact h.installSnapshot term hlegal
  · cases hnext

/-- So does any sequence of calls. -/
theorem steps (h : Refines log a) {ops : List Op}
    (hrun : Runs.exec UncompactedLog.next a ops = some a') : Refines (ops.foldl run log) a' := by
  induction ops generalizing log a with
  | nil =>
      obtain rfl := Option.some.inj hrun
      exact h
  | cons op ops ih =>
      obtain ⟨a₁, hnext, hrest⟩ := Option.bind_eq_some_iff.mp hrun
      exact ih (h.step hnext) hrest

/-! ### The accessors -/

/-- Above the boundary both have the same entry. -/
theorem getEntry (h : Refines log a) {k : ℕ} (hk : a.boundary < k) :
    log.getEntry k = a.entry k := by
  have hboundary := h.boundary
  have hpos : a.boundary + (k - log.lastIncludedIndex - 1) = k - 1 := by omega
  have hget := h.getElem? (k - log.lastIncludedIndex - 1)
  rw [hpos] at hget
  unfold RaftLog.getEntry UncompactedLog.entry
  rw [if_neg (by omega), if_neg (by omega), ← hget]
  cases log.entries[k - log.lastIncludedIndex - 1]? <;> rfl

/-- From the boundary on both have the same term. -/
theorem getTermAt (h : Refines log a) {k : ℕ} (hk : a.boundary ≤ k) :
    log.getTermAt k = a.termAt k := by
  unfold RaftLog.getTermAt UncompactedLog.termAt
  rw [h.boundary, h.boundaryTerm]
  split
  · rfl
  · rw [h.getEntry (by omega)]

/-- Both end with the same term. -/
theorem getLastTerm (h : Refines log a) : log.getLastTerm = a.lastTerm := by
  have hlength := h.length
  have hbound := h.boundary
  unfold UncompactedLog.lastTerm
  rw [← hlength, ← h.getTermAt (by unfold getLastIndex; omega)]
  unfold RaftLog.getLastTerm RaftLog.getTermAt RaftLog.getEntry getLastIndex
  rw [List.getLast?_eq_getElem?]
  cases hes : log.entries with
  | nil => simp
  | cons e es =>
      have hpos : log.lastIncludedIndex + (e :: es).length ≠ log.lastIncludedIndex := by
        simp
      have hat : log.lastIncludedIndex + (e :: es).length - log.lastIncludedIndex - 1 =
          (e :: es).length - 1 := by omega
      have hsome : ∃ x, (e :: es)[(e :: es).length - 1]? = some x :=
        ⟨_, List.getElem?_eq_getElem (by simp)⟩
      obtain ⟨x, hx⟩ := hsome
      rw [if_neg hpos, if_neg (by simp), hat, hx]
      rfl

/-- The entries the boundary covers have lower indices. -/
theorem held_below (a : UncompactedLog) {j : ℕ} (hj : a.boundary < j) :
    (a.entries.take a.boundary).reduceOption.filter (fun e => j ≤ e.index) = [] := by
  refine List.filter_eq_nil_iff.mpr ?_
  intro e he
  have he : some e ∈ a.entries.take a.boundary := List.reduceOption_mem_iff.mp he
  obtain ⟨k, hk⟩ := List.mem_iff_getElem?.mp he
  rw [List.getElem?_take] at hk
  split at hk
  · have := a.indexed k e hk
    simp
    omega
  · cases hk

/-- What is sent are entries above the boundary. -/
theorem getEntriesFrom (h : Refines log a) (k : ℕ) :
    log.getEntriesFrom k = a.held.filter fun e => max k (a.boundary + 1) ≤ e.index := by
  have hboundary := h.boundary
  have hdrop : log.getEntriesFrom k =
      log.entries.drop (max k (a.boundary + 1) - 1 - log.lastIncludedIndex) := by
    unfold RaftLog.getEntriesFrom
    dsimp only
    congr 1
    split <;> omega
  have hheld : (log.entries.map some).reduceOption = log.entries := by
    unfold List.reduceOption
    rw [List.filterMap_map]
    exact List.filterMap_some
  have hsplit : a.held = (a.entries.take a.boundary).reduceOption ++ log.entries := by
    unfold UncompactedLog.held
    rw [← hheld, h.entries, ← List.reduceOption_append, List.take_append_drop]
  have hindex : ∀ e : LogEntry, decide (max k (a.boundary + 1) ≤ e.index) =
      decide (max k (a.boundary + 1) - 1 < e.index) := by
    intro e
    rw [decide_eq_decide]
    omega
  rw [hdrop, hsplit, List.filter_append, held_below a (by omega), List.nil_append]
  simp only [hindex]
  exact (h.contiguous.filter_eq_drop (by omega)).symm

end Refines

/-- **Every accessor agrees** with the log without compaction. -/
structure Agrees (log : RaftLog) (a : UncompactedLog) : Prop where
  getEntry : ∀ k, a.boundary < k → k ≤ a.lastIndex →
    ∃ e, a.entry k = some e ∧ log.getEntry k = some e
  getEntry_none : ∀ k, ¬ (a.boundary < k ∧ k ≤ a.lastIndex) → log.getEntry k = none
  getTermAt : ∀ k, a.boundary ≤ k → k ≤ a.lastIndex → log.getTermAt k = a.termAt k
  getTermAt_zero : ∀ k, a.lastIndex < k → log.getTermAt k = 0
  getLastIndex : log.getLastIndex = a.lastIndex
  getLastTerm : log.getLastTerm = a.lastTerm
  getEntriesFrom : ∀ k,
    log.getEntriesFrom k = a.held.filter fun e => max k (a.boundary + 1) ≤ e.index

/-- So every query is answered as by the whole log. -/
theorem Refines.agrees {log : RaftLog} {a : UncompactedLog} (h : Refines log a) :
    log.Agrees a where
  getEntry := by
    intro k hlo hhi
    rw [← h.length] at hhi
    obtain ⟨e, he⟩ := exists_getEntry (h.boundary ▸ hlo) hhi
    exact ⟨e, (h.getEntry hlo).symm.trans he, he⟩
  getEntry_none := by
    intro k hout
    have := h.length
    have := h.boundary
    exact getEntry_eq_none.mpr (by omega)
  getTermAt := fun k hlo _ => h.getTermAt hlo
  getTermAt_zero := by
    intro k hk
    have hlength := h.length
    have hnone : log.getEntry k = none := getEntry_eq_none.mpr (Or.inr (by omega))
    unfold RaftLog.getLastIndex at hlength
    unfold RaftLog.getTermAt
    rw [if_neg (by omega), hnone]
    rfl
  getLastIndex := h.length
  getLastTerm := h.getLastTerm
  getEntriesFrom := h.getEntriesFrom

/-- A log just created stands for the log with nothing in it. -/
theorem refines_empty : Refines ⟨[], 0, 0⟩ .empty := ⟨rfl, rfl, rfl⟩

/-- So does a log read back from files: nothing is known of what the snapshot covers. -/
theorem Contiguous.refines {log : RaftLog} (h : log.Contiguous) :
    ∃ a : UncompactedLog, Refines log a := by
  have hcovered : ∀ k < log.lastIncludedIndex,
      (List.replicate log.lastIncludedIndex none ++ log.entries.map some)[k]? = some none := by
    intro k hk
    rw [List.getElem?_append_left (by rw [List.length_replicate]; exact hk),
      List.getElem?_replicate, if_pos hk]
  have hheld : ∀ k, log.lastIncludedIndex ≤ k →
      (List.replicate log.lastIncludedIndex none ++ log.entries.map some)[k]? =
        log.entries[k - log.lastIncludedIndex]?.map some := by
    intro k hk
    rw [List.getElem?_append_right (by rw [List.length_replicate]; exact hk),
      List.length_replicate, List.getElem?_map]
  refine ⟨{ entries := List.replicate log.lastIncludedIndex none ++ log.entries.map some
            boundary := log.lastIncludedIndex
            boundaryTerm := log.lastIncludedTerm
            boundary_le := by simp
            indexed := ?_
            filled := ?_
            term := ?_ }, rfl, rfl, ?_⟩
  · intro k e hk
    rcases Nat.lt_or_ge k log.lastIncludedIndex with hlt | hge
    · rw [hcovered k hlt] at hk
      cases hk
    · rw [hheld k hge] at hk
      obtain ⟨e', he', heq⟩ := Option.map_eq_some_iff.mp hk
      obtain rfl := Option.some.inj heq
      have := h _ e' he'
      omega
  · intro k hk hnone
    rw [hheld k hk] at hnone
    obtain ⟨e, -, heq⟩ := Option.map_eq_some_iff.mp hnone
    cases heq
  · intro e hpos he
    rw [hcovered _ (by omega)] at he
    cases he
  · show log.entries.map some =
      (List.replicate log.lastIncludedIndex none ++ log.entries.map some).drop log.lastIncludedIndex
    rw [List.drop_append_of_le_length (by simp), List.drop_replicate, Nat.sub_self]
    rfl

/-- **`RaftLog` refines the log without compaction:** after any sequence of calls,
from any two logs that correspond, every accessor agrees. -/
theorem agrees_run {log : RaftLog} {a a' : UncompactedLog} (h : Refines log a) (ops : List Op)
    (hrun : Runs.exec UncompactedLog.next a ops = some a') : (ops.foldl run log).Agrees a' :=
  (h.steps hrun).agrees

/-- Three entries, compaction up to the second, a new tail, a snapshot of index 5. -/
def mixedCalls : List Op :=
  [.append ⟨1, 1, .dot "x" "board"⟩, .append ⟨2, 1, .dot "y" "board"⟩,
    .append ⟨3, 2, .dot "z" "board"⟩, .compact 2 1, .truncateFrom 3,
    .append ⟨3, 4, .dot "w" "board"⟩, .installSnapshot 5 4]

/-- The accessors after these calls. -/
theorem agrees_run_mixed : ∃ a', Runs.exec UncompactedLog.next .empty mixedCalls = some a' ∧
    a'.boundary = 5 ∧ (mixedCalls.foldl run ⟨[], 0, 0⟩).Agrees a' := by
  have hrun : (Runs.exec UncompactedLog.next .empty mixedCalls).map
      UncompactedLog.boundary = some 5 := by
    decide
  obtain ⟨a', ha', hboundary⟩ := Option.map_eq_some_iff.mp hrun
  exact ⟨a', ha', hboundary, agrees_run refines_empty mixedCalls ha'⟩

end RaftLog

end QuorumCanvas
