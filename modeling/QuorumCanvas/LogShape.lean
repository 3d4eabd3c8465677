import QuorumCanvas.Evolution

/-!
# How messages reshape a log

What the log of a node looks like after entries were spliced into it or its
front was compacted, for any log and any entries that stand under consecutive
indices.  Nothing here depends on what the entries say or on how the log came
about.
-/

namespace QuorumCanvas

open RaftNode (Consecutive)

namespace RaftLog

variable {log : RaftLog} {e : LogEntry} {i k : ℕ}

/-- The indices between the boundary and the end are filled, no others are. -/
theorem getEntry_eq_none :
    log.getEntry k = none ↔ k ≤ log.lastIncludedIndex ∨ log.getLastIndex < k := by
  unfold getEntry getLastIndex
  split
  · simp [*]
  · rw [List.getElem?_eq_none_iff]
    omega

/-- There is an entry wherever the log has an index. -/
theorem exists_getEntry (hlo : log.lastIncludedIndex < k) (hhi : k ≤ log.getLastIndex) :
    ∃ e, log.getEntry k = some e := by
  refine Option.ne_none_iff_exists'.mp fun h => ?_
  rcases getEntry_eq_none.mp h with h | h <;> omega

/-- There is none elsewhere. -/
theorem bounds_of_getEntry (h : log.getEntry k = some e) :
    log.lastIncludedIndex < k ∧ k ≤ log.getLastIndex := by
  have hnot : ¬ (k ≤ log.lastIncludedIndex ∨ log.getLastIndex < k) := fun hn => by
    rw [getEntry_eq_none.mpr hn] at h
    cases h
  omega

/-! ## Appending -/

@[simp] theorem lastIncludedIndex_append :
    (log.append e).lastIncludedIndex = log.lastIncludedIndex := rfl

@[simp] theorem lastIncludedTerm_append :
    (log.append e).lastIncludedTerm = log.lastIncludedTerm := rfl

@[simp] theorem getLastIndex_append : (log.append e).getLastIndex = log.getLastIndex + 1 := by
  unfold getLastIndex append
  rw [List.length_append]
  rfl

/-- It keeps the entries that were there. -/
theorem getEntry_append (h : k ≤ log.getLastIndex) :
    (log.append e).getEntry k = log.getEntry k := by
  unfold getLastIndex at h
  unfold getEntry append
  dsimp only
  split
  · rfl
  · rw [List.getElem?_append_left (by omega)]

/-- The new entry is the last one. -/
theorem getEntry_append_last (h : k = log.getLastIndex + 1) :
    (log.append e).getEntry k = some e := by
  unfold getLastIndex at h
  unfold getEntry append
  dsimp only
  rw [if_neg (by omega), List.getElem?_append_right (by omega)]
  have hpos : k - log.lastIncludedIndex - 1 - log.entries.length = 0 := by omega
  rw [hpos]
  rfl

/-- The next index may be appended. -/
theorem Contiguous.append (h : log.Contiguous) (he : e.index = log.getLastIndex + 1) :
    (log.append e).Contiguous := by
  intro j e' hj
  unfold getLastIndex at he
  unfold RaftLog.append at hj ⊢
  rcases Nat.lt_or_ge j log.entries.length with hlt | hge
  · rw [List.getElem?_append_left hlt] at hj
    exact h j e' hj
  · rw [List.getElem?_append_right hge, List.getElem?_singleton] at hj
    split at hj
    · obtain rfl := Option.some.inj hj
      dsimp only
      omega
    · cases hj

/-! ## Cutting the end -/

@[simp] theorem lastIncludedIndex_truncateFrom :
    (log.truncateFrom i).lastIncludedIndex = log.lastIncludedIndex := by
  unfold truncateFrom
  split <;> rfl

@[simp] theorem lastIncludedTerm_truncateFrom :
    (log.truncateFrom i).lastIncludedTerm = log.lastIncludedTerm := by
  unfold truncateFrom
  split <;> rfl

/-- The log ends before the index. -/
theorem getLastIndex_truncateFrom (h : log.inRange i) :
    (log.truncateFrom i).getLastIndex = i - 1 := by
  unfold truncateFrom
  rw [if_pos h]
  unfold inRange getLastIndex at h
  unfold getLastIndex
  dsimp only
  rw [List.length_take]
  omega

/-- Entries before it stay. -/
theorem getEntry_truncateFrom (h : k < i) :
    (log.truncateFrom i).getEntry k = log.getEntry k := by
  unfold truncateFrom
  split
  · unfold getEntry
    dsimp only
    split
    · rfl
    · rw [List.getElem?_take, if_pos (by omega)]
  · rfl

/-- A prefix of a contiguous log is contiguous. -/
theorem Contiguous.truncateFrom (h : log.Contiguous) (i : ℕ) :
    (log.truncateFrom i).Contiguous := by
  unfold RaftLog.truncateFrom
  split
  · intro j e hj
    rw [List.getElem?_take] at hj
    split at hj
    · exact h j e hj
    · cases hj
  · exact h

/-! ## Cutting the front -/

/-- The boundary only moves up. -/
theorem lastIncludedIndex_compact {u t : ℕ} :
    (log.compact u t).lastIncludedIndex = max log.lastIncludedIndex u := by
  unfold compact
  split
  · omega
  · dsimp only
    omega

/-- The log still ends where it did. -/
theorem getLastIndex_compact {u t : ℕ} (h : u ≤ log.getLastIndex) :
    (log.compact u t).getLastIndex = log.getLastIndex := by
  unfold getLastIndex at h
  unfold compact
  split
  · rfl
  · unfold getLastIndex
    dsimp only
    rw [List.length_drop]
    omega

/-- Entries above the boundary stay. -/
theorem getEntry_compact {u t : ℕ} (h : (log.compact u t).lastIncludedIndex < k) :
    (log.compact u t).getEntry k = log.getEntry k := by
  rw [lastIncludedIndex_compact] at h
  unfold compact
  split
  · rfl
  · unfold getEntry
    dsimp only
    rw [if_neg (by omega), if_neg (by omega), List.getElem?_drop]
    congr 1
    omega

/-- A suffix of a contiguous log is contiguous, behind the new boundary. -/
theorem Contiguous.compact (h : log.Contiguous) (u t : ℕ) : (log.compact u t).Contiguous := by
  unfold RaftLog.compact
  split
  · exact h
  · intro j e hj
    rw [List.getElem?_drop] at hj
    have := h _ e hj
    dsimp only
    omega

/-- In a contiguous log, the entries above an index are those behind its position. -/
theorem Contiguous.filter_eq_drop (h : log.Contiguous) {m : ℕ} (hm : log.lastIncludedIndex ≤ m) :
    log.entries.filter (fun e => m < e.index) = log.entries.drop (m - log.lastIncludedIndex) := by
  generalize hes : log.entries = es
  have hindex : ∀ j e, es[j]? = some e → e.index = log.lastIncludedIndex + j + 1 := hes ▸ h
  clear hes h
  generalize log.lastIncludedIndex = b at hindex hm
  induction es generalizing b with
  | nil => simp
  | cons e es ih =>
      have he := hindex 0 e rfl
      have hrest : ∀ j e', es[j]? = some e' → e'.index = b + 1 + j + 1 := fun j e' hj => by
        have := hindex (j + 1) e' hj
        omega
      rcases Nat.eq_or_lt_of_le hm with heq | hlt
      · subst heq
        rw [Nat.sub_self, List.drop_zero]
        refine List.filter_eq_self.mpr fun e' he' => ?_
        obtain ⟨j, hj⟩ := List.mem_iff_getElem?.mp he'
        have := hindex j e' hj
        simp
        omega
      · have hsucc : m - b = m - (b + 1) + 1 := by omega
        rw [List.filter_cons_of_neg (by simp; omega), ih (b + 1) hrest hlt, hsucc,
          List.drop_succ_cons]

/-- So is what a snapshot leaves. -/
theorem Contiguous.installSnapshot (h : log.Contiguous) {m t : ℕ}
    (hm : log.lastIncludedIndex ≤ m) : (log.installSnapshot m t).Contiguous := by
  intro j e hj
  unfold RaftLog.installSnapshot at hj ⊢
  dsimp only at hj ⊢
  rw [h.filter_eq_drop hm, List.getElem?_drop] at hj
  have := h _ e hj
  omega

/-! ## Splicing one entry in -/

/-- The log holds an entry of another term where `e` belongs. -/
def Clashes (log : RaftLog) (e : LogEntry) : Prop :=
  ∃ e', log.getEntry e.index = some e' ∧ e'.term ≠ e.term

/-- A clash is with an entry that is in the log. -/
theorem Clashes.bounds (h : log.Clashes e) :
    log.lastIncludedIndex < e.index ∧ e.index ≤ log.getLastIndex := by
  obtain ⟨e', he', -⟩ := h
  exact bounds_of_getEntry he'

/-- `log'` is `log` with the entries `es`, which follow index `i`, spliced in. -/
structure Spliced (log : RaftLog) (i : ℕ) (es : List LogEntry) (log' : RaftLog) : Prop where
  boundary : log'.lastIncludedIndex = log.lastIncludedIndex
  boundaryTerm : log'.lastIncludedTerm = log.lastIncludedTerm
  reaches : i + es.length ≤ log'.getLastIndex
  supplied : ∀ e ∈ es, log.lastIncludedIndex < e.index →
    ∃ e', log'.getEntry e.index = some e' ∧ e'.term = e.term
  untouched : ∀ k ≤ log.getLastIndex, (∀ e ∈ es, e.index ≤ k → ¬ log.Clashes e) →
    log'.getEntry k = log.getEntry k
  unclashed : (∀ e ∈ es, ¬ log.Clashes e) → log'.getLastIndex = max log.getLastIndex (i + es.length)
  clashed : (∃ e ∈ es, log.Clashes e) → log'.getLastIndex = i + es.length

namespace Spliced

variable {log' log'' : RaftLog} {es : List LogEntry}

theorem nil (hi : i ≤ log.getLastIndex) : Spliced log i [] log where
  boundary := rfl
  boundaryTerm := rfl
  reaches := hi
  supplied := fun e he => by cases he
  untouched := fun _ _ _ => rfl
  unclashed := fun _ => (max_eq_left hi).symm
  clashed := fun ⟨e, he, _⟩ => by cases he

/-- An entry that changes nothing comes first. -/
theorem cons_same (h : Spliced log (i + 1) es log') (he : ¬ log.Clashes e)
    (hsupplied : log.lastIncludedIndex < e.index →
      ∃ e', log.getEntry e.index = some e' ∧ e'.term = e.term)
    (hes : Consecutive i (e :: es)) : Spliced log i (e :: es) log' := by
  obtain ⟨hindex, hrest⟩ := hes.tail
  have hlen : i + (e :: es).length = i + 1 + es.length := by
    rw [List.length_cons]
    omega
  refine ⟨h.boundary, h.boundaryTerm, hlen ▸ h.reaches, ?_, ?_, ?_, ?_⟩
  · intro e₁ he₁ hlt
    rcases List.mem_cons.mp he₁ with rfl | he₁
    · obtain ⟨e', he', hterm⟩ := hsupplied hlt
      obtain ⟨-, hhi⟩ := bounds_of_getEntry he'
      refine ⟨e', ?_, hterm⟩
      rw [h.untouched _ hhi, he']
      intro e₂ he₂ hle
      obtain ⟨j, hj⟩ := List.mem_iff_getElem?.mp he₂
      have := hrest j e₂ hj
      omega
    · exact h.supplied e₁ he₁ hlt
  · exact fun k hk hno => h.untouched k hk fun e₁ he₁ => hno e₁ (List.mem_cons_of_mem _ he₁)
  · intro hno
    rw [hlen]
    exact h.unclashed fun e₁ he₁ => hno e₁ (List.mem_cons_of_mem _ he₁)
  · rintro ⟨e₁, he₁, hclash⟩
    rw [hlen]
    rcases List.mem_cons.mp he₁ with rfl | he₁
    · exact absurd hclash he
    · exact h.clashed ⟨e₁, he₁, hclash⟩

/-- An entry that becomes the last of the log comes first. -/
theorem cons_last (h : Spliced log' (i + 1) es log'') (hlast : log'.getLastIndex = i + 1)
    (hbound : log'.lastIncludedIndex = log.lastIncludedIndex)
    (hterm : log'.lastIncludedTerm = log.lastIncludedTerm)
    (hnew : log'.getEntry (i + 1) = some e) (hold : ∀ k ≤ i, log'.getEntry k = log.getEntry k)
    (he : log.getLastIndex = i ∨ log.Clashes e) (hes : Consecutive i (e :: es)) :
    Spliced log i (e :: es) log'' := by
  obtain ⟨hindex, hrest⟩ := hes.tail
  have hlen : i + (e :: es).length = i + 1 + es.length := by
    rw [List.length_cons]
    omega
  -- nothing that follows can clash any more
  have hlate : ∀ e₁ ∈ es, i + 1 < e₁.index := fun e₁ he₁ => by
    obtain ⟨j, hj⟩ := List.mem_iff_getElem?.mp he₁
    have := hrest j e₁ hj
    omega
  have hfree : ∀ e₁ ∈ es, ¬ log'.Clashes e₁ := fun e₁ he₁ hclash => by
    have := hclash.bounds
    have := hlate e₁ he₁
    omega
  have hend := h.unclashed hfree
  have hkept : ∀ k ≤ i + 1, log''.getEntry k = log'.getEntry k := fun k hk =>
    h.untouched k (hlast ▸ hk) fun e₁ he₁ _ => hfree e₁ he₁
  refine ⟨h.boundary.trans hbound, h.boundaryTerm.trans hterm, hlen ▸ h.reaches, ?_, ?_, ?_, ?_⟩
  · intro e₁ he₁ hlt
    rcases List.mem_cons.mp he₁ with rfl | he₁
    · exact ⟨e₁, by rw [hindex, hkept _ le_rfl, hnew], rfl⟩
    · exact h.supplied e₁ he₁ (hbound ▸ hlt)
  · intro k hk hno
    have hki : k ≤ i := by
      rcases he with hend | hclash
      · omega
      · by_contra hgt
        exact hno e List.mem_cons_self (by omega) hclash
    rw [hkept k (by omega), hold k hki]
  · intro hno
    rcases he with hend' | hclash
    · omega
    · exact absurd hclash (hno e List.mem_cons_self)
  · intro _
    omega

end Spliced

end RaftLog

end QuorumCanvas
