import QuorumCanvas.NodeTerms
import QuorumCanvas.NodeOps

/-!
# The full log behind a snapshot and a log file

A snapshot and the log file of a replica stand for one list of entries: those
the snapshot covers, then those of the log.  Every persistence call changes this
*full log* in a simple way or not at all, so what recovery needs can be said of
the full log alone (`WellKept`).

The one exception is a snapshot taken over from another replica: the log is cut
before the snapshot is on file, so the files between the two calls stand for
nothing sensible.  Such a moment is called `Torn`.
-/

namespace QuorumCanvas

open Ledger (lastTerm)

/-! ## Lists of entries that are in order -/

/-- Every entry sits where its index says, the first index being 1. -/
def InOrder (es : List LogEntry) : Prop := ∀ k e, es[k]? = some e → e.index = k + 1

/-- Entries with the indices they carry. -/
def indexed (es : List LogEntry) : List (ℕ × LogEntry) := es.map fun e => (e.index, e)

@[simp] theorem length_indexed (es : List LogEntry) : (indexed es).length = es.length :=
  List.length_map _

@[simp] theorem map_snd_indexed (es : List LogEntry) : (indexed es).map Prod.snd = es := by
  simp [indexed, Function.comp_def]

/-- Lists are indexed one after the other. -/
theorem indexed_append (es es' : List LogEntry) :
    indexed (es ++ es') = indexed es ++ indexed es' := List.map_append

namespace InOrder

variable {es es' : List LogEntry}

theorem nil : InOrder [] := fun k e h => by simp at h

/-- A prefix is in order. -/
theorem take (h : InOrder es) (n : ℕ) : InOrder (es.take n) := by
  intro k e hk
  rw [List.getElem?_take] at hk
  split at hk
  · exact h k e hk
  · cases hk

/-- The next entry may follow. -/
theorem append_one (h : InOrder es) {e : LogEntry} (he : e.index = es.length + 1) :
    InOrder (es ++ [e]) := by
  intro k e' hk
  rcases Nat.lt_or_ge k es.length with hlt | hge
  · rw [List.getElem?_append_left hlt] at hk
    exact h k e' hk
  · rw [List.getElem?_append_right hge] at hk
    obtain ⟨hlt, hk⟩ := List.getElem?_eq_some_iff.mp hk
    simp only [List.length_singleton] at hlt
    have hk0 : k - es.length = 0 := by omega
    simp only [hk0, List.getElem_cons_zero] at hk
    rw [← hk, he]
    omega

/-- An entry behind a position has a higher index. -/
theorem lt_index_of_mem_drop (h : InOrder es) {m : ℕ} {e : LogEntry} (he : e ∈ es.drop m) :
    m < e.index := by
  obtain ⟨k, hk⟩ := List.mem_iff_getElem?.mp he
  rw [List.getElem?_drop] at hk
  have := h _ e hk
  omega

/-- An entry before a position has an index up to it. -/
theorem index_le_of_mem_take (h : InOrder es) {m : ℕ} {e : LogEntry} (he : e ∈ es.take m) :
    e.index ≤ m := by
  obtain ⟨k, hk⟩ := List.mem_iff_getElem?.mp he
  rw [List.getElem?_take] at hk
  split at hk
  · have := h _ e hk
    omega
  · cases hk

/-- The entries above an index are the ones behind that position. -/
theorem filter_drop (h : InOrder es) {j m : ℕ} (hjm : j ≤ m) :
    (es.drop j).filter (fun e => m < e.index) = es.drop m := by
  have hsplit : es.drop j = (es.take m).drop j ++ es.drop m := by
    have hdrop : es.drop m = (es.drop j).drop (m - j) := by
      rw [List.drop_drop]
      congr 1
      omega
    rw [List.drop_take, hdrop, List.take_append_drop]
  rw [hsplit, List.filter_append]
  have hlow : ((es.take m).drop j).filter (fun e => m < e.index) = [] := by
    refine List.filter_eq_nil_iff.mpr fun e he => ?_
    have := h.index_le_of_mem_take (List.mem_of_mem_drop he)
    simp
    omega
  have hhigh : (es.drop m).filter (fun e => m < e.index) = es.drop m := by
    refine List.filter_eq_self.mpr fun e he => ?_
    simpa using h.lt_index_of_mem_drop he
  rw [hlow, hhigh, List.nil_append]

/-- The entries up to an index are the ones before that position. -/
theorem filter_take (h : InOrder es) (j m : ℕ) :
    (es.drop j).filter (fun e => e.index ≤ m) = (es.take m).drop j := by
  rcases Nat.le_total j m with hjm | hmj
  · have hsplit : es.drop j = (es.take m).drop j ++ es.drop m := by
      have hdrop : es.drop m = (es.drop j).drop (m - j) := by
        rw [List.drop_drop]
        congr 1
        omega
      rw [List.drop_take, hdrop, List.take_append_drop]
    have hlow : ((es.take m).drop j).filter (fun e => e.index ≤ m) = (es.take m).drop j := by
      refine List.filter_eq_self.mpr fun e he => ?_
      simpa using h.index_le_of_mem_take (List.mem_of_mem_drop he)
    have hhigh : (es.drop m).filter (fun e => e.index ≤ m) = [] := by
      refine List.filter_eq_nil_iff.mpr fun e he => ?_
      have := h.lt_index_of_mem_drop he
      simp
      omega
    rw [hsplit, List.filter_append, hlow, hhigh, List.append_nil]
  · have hnone : (es.take m).drop j = [] := by
      refine List.drop_of_length_le ?_
      rw [List.length_take]
      omega
    rw [hnone]
    refine List.filter_eq_nil_iff.mpr fun e he => ?_
    have := h.lt_index_of_mem_drop he
    simp
    omega

/-- What lies behind a list that replaces the front keeps its place. -/
theorem append_drop (h : InOrder es) (h' : InOrder es') :
    InOrder (es' ++ es.drop es'.length) := by
  intro k e hk
  rcases Nat.lt_or_ge k es'.length with hlt | hge
  · rw [List.getElem?_append_left hlt] at hk
    exact h' k e hk
  · rw [List.getElem?_append_right hge, List.getElem?_drop] at hk
    have := h _ e hk
    omega

end InOrder

/-! ## Snapshots and files -/

/-- The entries a snapshot covers. -/
def Snapshot.entries (s : Snapshot) : List LogEntry := s.covered.map Prod.snd

/-- A snapshot that covers the entries up to its boundary, each under its index. -/
structure Snapshot.WellFormed (s : Snapshot) : Prop where
  inOrder : InOrder s.entries
  covered : s.covered = indexed s.entries
  boundary : s.entries.length = s.lastIncludedIndex
  term : s.lastIncludedTerm = lastTerm s.entries

namespace Persistence

/-- The entries covered by the snapshot on file. -/
def covered (p : Persistence) : List LogEntry := (p.loadSnapshot.map Snapshot.entries).getD []

/-- The entries that snapshot and log on file stand for. -/
def fullLog (p : Persistence) : List LogEntry := p.covered ++ (RaftLog.ofPersistence p).entries

/-- The commit index that a restart comes back with. -/
def commit (p : Persistence) : ℕ :=
  max p.loadState.commitIndex (RaftLog.ofPersistence p).lastIncludedIndex

/-- Files that a restart can rely on. -/
structure WellKept (p : Persistence) : Prop where
  file : p.backend = .file
  snapshot : ∀ s, p.loadSnapshot = some s → s.WellFormed
  inOrder : InOrder p.fullLog
  commit_le : p.commit ≤ p.fullLog.length

variable {p : Persistence}

/-- The boundary of the log is where the covered entries end. -/
theorem WellKept.length_covered (h : p.WellKept) :
    p.covered.length = (RaftLog.ofPersistence p).lastIncludedIndex := by
  unfold covered RaftLog.ofPersistence
  cases hs : p.loadSnapshot with
  | none => rfl
  | some s => exact (h.snapshot s hs).boundary

/-- The boundary has the term of the last covered entry. -/
theorem WellKept.boundary_term (h : p.WellKept) :
    (RaftLog.ofPersistence p).lastIncludedTerm = lastTerm p.covered := by
  unfold covered RaftLog.ofPersistence
  cases hs : p.loadSnapshot with
  | none => rfl
  | some s => exact (h.snapshot s hs).term

/-- The full log is as long as the last index. -/
theorem WellKept.length_fullLog (h : p.WellKept) :
    p.fullLog.length = (RaftLog.ofPersistence p).getLastIndex := by
  unfold fullLog RaftLog.getLastIndex
  rw [List.length_append, h.length_covered]

/-- The entries in memory are what follows the boundary. -/
theorem WellKept.entries_eq (h : p.WellKept) :
    (RaftLog.ofPersistence p).entries =
      p.fullLog.drop (RaftLog.ofPersistence p).lastIncludedIndex := by
  unfold fullLog
  rw [← h.length_covered, List.drop_left]

/-- The covered entries are what precedes it. -/
theorem WellKept.covered_eq (h : p.WellKept) :
    p.covered = p.fullLog.take (RaftLog.ofPersistence p).lastIncludedIndex := by
  unfold fullLog
  rw [← h.length_covered, List.take_left]

/-- What a snapshot covers is committed. -/
theorem WellKept.boundary_le_commit (_ : p.WellKept) :
    (RaftLog.ofPersistence p).lastIncludedIndex ≤ p.commit := le_max_right _ _

/-- The log file, cut at an index from the boundary on. -/
theorem WellKept.filter_loadLog (h : p.WellKept) {m : ℕ}
    (hm : (RaftLog.ofPersistence p).lastIncludedIndex ≤ m) :
    p.loadLog.filter (fun e => m < e.index) = p.fullLog.drop m := by
  have hentries : (RaftLog.ofPersistence p).entries.filter (fun e => m < e.index) =
      p.loadLog.filter (fun e => m < e.index) := by
    revert hm
    unfold RaftLog.ofPersistence
    cases p.loadSnapshot with
    | none => exact fun _ => rfl
    | some s =>
        intro hm
        dsimp only at hm ⊢
        rw [List.filter_filter]
        refine List.filter_congr fun e _ => ?_
        by_cases hlt : m < e.index
        · simp [hlt]
          omega
        · simp [hlt]
  rw [← hentries, h.entries_eq, h.inOrder.filter_drop hm]

/-! ## Persistence calls -/

/-- Saving the state leaves the full log alone. -/
theorem WellKept.saveState (h : p.WellKept) {s : PersistedState}
    (hc : s.commitIndex ≤ p.fullLog.length) :
    (p.run (.saveState s)).WellKept ∧ (p.run (.saveState s)).fullLog = p.fullLog ∧
      (p.run (.saveState s)).commit =
        max s.commitIndex (RaftLog.ofPersistence p).lastIncludedIndex := by
  rw [run_saveState h.file]
  refine ⟨⟨h.file, h.snapshot, h.inOrder, ?_⟩, rfl, rfl⟩
  exact max_le hc (h.boundary_le_commit.trans h.commit_le)

/-- Appending the next entry extends the full log. -/
theorem WellKept.appendLog (h : p.WellKept) {e : LogEntry} (he : e.index = p.fullLog.length + 1) :
    (p.run (.appendLog e)).WellKept ∧ (p.run (.appendLog e)).fullLog = p.fullLog ++ [e] ∧
      (p.run (.appendLog e)).commit = p.commit ∧
      RaftLog.ofPersistence (p.run (.appendLog e)) = (RaftLog.ofPersistence p).append e := by
  rw [run_appendLog h.file]
  have hlast := h.length_fullLog
  have hlog : RaftLog.ofPersistence { p with loadLog := p.loadLog ++ [e] } =
      (RaftLog.ofPersistence p).append e := by
    revert hlast
    unfold RaftLog.ofPersistence RaftLog.append RaftLog.getLastIndex
    cases p.loadSnapshot with
    | none => exact fun _ => rfl
    | some s =>
        intro hlast
        dsimp only at hlast ⊢
        rw [List.filter_append]
        congr 2
        simp
        omega
  have hfull : fullLog { p with loadLog := p.loadLog ++ [e] } = p.fullLog ++ [e] := by
    unfold fullLog
    rw [hlog, List.append_assoc]
    rfl
  have hcommit : commit { p with loadLog := p.loadLog ++ [e] } = p.commit := by
    unfold commit
    rw [hlog]
    rfl
  refine ⟨⟨h.file, h.snapshot, ?_, ?_⟩, hfull, hcommit, hlog⟩
  · rw [hfull]
    exact h.inOrder.append_one he
  · rw [hfull, hcommit, List.length_append]
    exact h.commit_le.trans (Nat.le_add_right _ _)

/-- Rewriting the log with its first entries cuts the full log. -/
theorem WellKept.rewriteLog_take (h : p.WellKept) {m : ℕ} (hm : p.commit ≤ m) :
    let es := (RaftLog.ofPersistence p).entries.take
      (m - (RaftLog.ofPersistence p).lastIncludedIndex)
    (p.run (.rewriteLog es)).WellKept ∧ (p.run (.rewriteLog es)).fullLog = p.fullLog.take m ∧
      (p.run (.rewriteLog es)).commit = p.commit ∧
      RaftLog.ofPersistence (p.run (.rewriteLog es)) =
        { RaftLog.ofPersistence p with entries := es } := by
  intro es
  have hbound := h.boundary_le_commit.trans hm
  have hes : es = (p.fullLog.take m).drop (RaftLog.ofPersistence p).lastIncludedIndex := by
    rw [List.drop_take, ← h.entries_eq]
  rw [run_rewriteLog h.file]
  have hlog : RaftLog.ofPersistence { p with loadLog := es } =
      { RaftLog.ofPersistence p with entries := es } := by
    have hfilter : es.filter (fun e => (RaftLog.ofPersistence p).lastIncludedIndex < e.index) =
        es := by
      rw [hes, (h.inOrder.take m).filter_drop le_rfl]
    revert hfilter
    unfold RaftLog.ofPersistence
    cases p.loadSnapshot with
    | none => exact fun _ => rfl
    | some s =>
        intro hfilter
        dsimp only at hfilter ⊢
        rw [hfilter]
  have hfull : fullLog { p with loadLog := es } = p.fullLog.take m := by
    have hcov : p.covered = (p.fullLog.take m).take
        (RaftLog.ofPersistence p).lastIncludedIndex := by
      rw [List.take_take, min_eq_left hbound, h.covered_eq]
    unfold fullLog
    rw [hlog]
    show p.covered ++ es = p.fullLog.take m
    rw [hes, hcov, List.take_append_drop]
  have hcommit : commit { p with loadLog := es } = p.commit := by
    unfold commit
    rw [hlog]
  refine ⟨⟨h.file, h.snapshot, ?_, ?_⟩, hfull, hcommit, hlog⟩
  · rw [hfull]
    exact h.inOrder.take m
  · rw [hfull, hcommit, List.length_take]
    exact le_min hm h.commit_le

/-- Rewriting the log with what is read of it changes nothing. -/
theorem WellKept.rewriteLog_self (h : p.WellKept) {log : RaftLog}
    (hlog : log = RaftLog.ofPersistence p) :
    (p.run (.rewriteLog log.entries)).WellKept ∧
      (p.run (.rewriteLog log.entries)).fullLog = p.fullLog ∧
      (p.run (.rewriteLog log.entries)).commit = p.commit ∧
      (p.run (.rewriteLog log.entries)).loadState = p.loadState ∧
      RaftLog.ofPersistence (p.run (.rewriteLog log.entries)) = log := by
  obtain ⟨hkept, hfull, hcommit, hread⟩ := h.rewriteLog_take h.commit_le
  have hall : (RaftLog.ofPersistence p).entries.take
      (p.fullLog.length - (RaftLog.ofPersistence p).lastIncludedIndex) = log.entries := by
    rw [h.length_fullLog, RaftLog.getLastIndex, Nat.add_sub_cancel_left, List.take_length, hlog]
  rw [hall] at hkept hfull hcommit hread
  rw [List.take_length] at hfull
  exact ⟨hkept, hfull, hcommit, by rw [run_rewriteLog h.file], hread.trans (by rw [hlog])⟩

/-- A snapshot replaces the front of the full log. -/
theorem WellKept.saveSnapshot (h : p.WellKept) {s : Snapshot} (hs : s.WellFormed)
    (hm : (RaftLog.ofPersistence p).lastIncludedIndex ≤ s.lastIncludedIndex)
    (hc : p.loadState.commitIndex ≤ (s.entries ++ p.fullLog.drop s.lastIncludedIndex).length) :
    (p.run (.saveSnapshot s)).WellKept ∧
      (p.run (.saveSnapshot s)).fullLog = s.entries ++ p.fullLog.drop s.lastIncludedIndex ∧
      (p.run (.saveSnapshot s)).commit = max p.loadState.commitIndex s.lastIncludedIndex ∧
      RaftLog.ofPersistence (p.run (.saveSnapshot s)) =
        ⟨p.fullLog.drop s.lastIncludedIndex, s.lastIncludedIndex, s.lastIncludedTerm⟩ := by
  rw [run_saveSnapshot h.file]
  have hlog : RaftLog.ofPersistence { p with loadSnapshot := some s } =
      ⟨p.fullLog.drop s.lastIncludedIndex, s.lastIncludedIndex, s.lastIncludedTerm⟩ := by
    rw [← h.filter_loadLog hm]
    rfl
  have hfull : fullLog { p with loadSnapshot := some s } =
      s.entries ++ p.fullLog.drop s.lastIncludedIndex := by
    unfold fullLog
    rw [hlog]
    rfl
  have hcommit : commit { p with loadSnapshot := some s } =
      max p.loadState.commitIndex s.lastIncludedIndex := by
    unfold commit
    rw [hlog]
  refine ⟨⟨h.file, ?_, ?_, ?_⟩, hfull, hcommit, hlog⟩
  · intro s' hs'
    obtain rfl := Option.some.inj hs'
    exact hs
  · rw [hfull, ← hs.boundary]
    exact h.inOrder.append_drop hs.inOrder
  · rw [hfull, hcommit]
    refine max_le hc ?_
    rw [List.length_append, hs.boundary]
    exact Nat.le_add_right _ _

/-- The order in which log and snapshot are written does not matter in the end. -/
theorem run_rewriteLog_saveSnapshot (p : Persistence) (es : List LogEntry) (s : Snapshot) :
    (p.run (.rewriteLog es)).run (.saveSnapshot s) =
      (p.run (.saveSnapshot s)).run (.rewriteLog es) := by
  cases hb : p.backend <;> simp [run, hb]

/-- The files once another replica's snapshot is in place. -/
theorem WellKept.install (h : p.WellKept) {s : Snapshot} (hs : s.WellFormed)
    (hahead : p.commit < s.lastIncludedIndex) :
    let p' := (p.run (.rewriteLog (p.fullLog.drop s.lastIncludedIndex))).run (.saveSnapshot s)
    p'.WellKept ∧ p'.fullLog = s.entries ++ p.fullLog.drop s.lastIncludedIndex ∧
      p'.commit = s.lastIncludedIndex ∧ p'.loadState = p.loadState ∧
      RaftLog.ofPersistence p' =
        ⟨p.fullLog.drop s.lastIncludedIndex, s.lastIncludedIndex, s.lastIncludedTerm⟩ := by
  have hsaved : p.loadState.commitIndex ≤ p.commit := le_max_left _ _
  have hlong : s.lastIncludedIndex ≤
      (s.entries ++ p.fullLog.drop s.lastIncludedIndex).length := by
    rw [List.length_append, hs.boundary]
    exact Nat.le_add_right _ _
  obtain ⟨hkept, hfull, hcommit, hlog⟩ := h.saveSnapshot hs
    (h.boundary_le_commit.trans hahead.le) (hsaved.trans (hahead.le.trans hlong))
  obtain ⟨hkept', hfull', hcommit', hstate', hlog'⟩ := hkept.rewriteLog_self hlog.symm
  rw [run_rewriteLog_saveSnapshot]
  refine ⟨hkept', hfull'.trans hfull, ?_, ?_, hlog'⟩
  · exact (hcommit'.trans hcommit).trans (max_eq_right (hsaved.trans hahead.le))
  · exact hstate'.trans (by rw [run_saveSnapshot h.file])

/-- The torn files in between, when the log held nothing that was committed since
the last snapshot, nor anything the new one does not cover. -/
theorem WellKept.torn (h : p.WellKept) {m : ℕ} (hm : p.fullLog.length ≤ m)
    (hc : p.commit = (RaftLog.ofPersistence p).lastIncludedIndex) :
    let p' := p.run (.rewriteLog (p.fullLog.drop m))
    p'.WellKept ∧ p'.fullLog = p.fullLog.take p.commit ∧ p'.commit = p.commit ∧
      p'.loadState = p.loadState := by
  obtain ⟨hkept, hfull, hcommit, -⟩ := h.rewriteLog_take (m := p.commit) le_rfl
  have hnone : (RaftLog.ofPersistence p).entries.take
      (p.commit - (RaftLog.ofPersistence p).lastIncludedIndex) = p.fullLog.drop m := by
    rw [hc, Nat.sub_self, List.take_zero, List.drop_of_length_le hm]
  rw [hnone] at hkept hfull hcommit
  exact ⟨hkept, hfull, hcommit, by rw [run_rewriteLog h.file]⟩

end Persistence

/-! ## Crash points -/

/-- A crash after `k` of these calls falls between the cut of the log and the
snapshot that it makes room for. -/
def Torn (calls : List PersistenceCall) (k : ℕ) : Prop :=
  (∃ es, (calls.take k).getLast? = some (.rewriteLog es)) ∧
    ∃ s, calls[k]? = some (.saveSnapshot s)

/-- What a replica has on file: its full log, commit index and term. -/
abbrev Holding := List LogEntry → ℕ → ℕ → Prop

/-- Files a restart can rely on, which hold what `G` says. -/
structure Persistence.Meets (G : Holding) (p : Persistence) : Prop where
  kept : p.WellKept
  holds : G p.fullLog p.commit p.loadState.currentTerm

theorem Persistence.Meets.of_eq {G : Holding} {p : Persistence} {ℓ : List LogEntry} {c b : ℕ}
    (h : G ℓ c b) (hkept : p.WellKept) (hfull : p.fullLog = ℓ) (hcommit : p.commit = c)
    (hterm : p.loadState.currentTerm = b) : p.Meets G := by
  subst hfull hcommit hterm
  exact ⟨hkept, h⟩

namespace RaftNode

/-- The calls that lead from `n` to `n'`, with files that meet `G` at every crash
point; torn points do not count if `T` holds. -/
def Spans (T : Prop) (G : Holding) (n n' : RaftNode) : Prop :=
  ∃ calls, n'.calls = n.calls ++ calls ∧ n'.persistence = n.persistence.replay calls ∧
    ∀ k, ¬ (T ∧ Torn calls k) → (n.persistence.replay (calls.take k)).Meets G

namespace Spans

variable {T : Prop} {G G' : Holding} {n n' n'' : RaftNode}

theorem of_eq (hc : n'.calls = n.calls) (hp : n'.persistence = n.persistence)
    (h : n.persistence.Meets G) : Spans T G n n' :=
  ⟨[], by simp [hc], by simp [hp], fun k _ => by simpa using h⟩

theorem refl (h : n.persistence.Meets G) : Spans T G n n := of_eq rfl rfl h

theorem last (h : Spans T G n n') : n'.persistence.Meets G := by
  obtain ⟨calls, -, hp, hG⟩ := h
  have hwhole : ¬ (T ∧ Torn calls calls.length) := fun ⟨_, _, s, hs⟩ => by simp at hs
  have := hG calls.length hwhole
  rwa [List.take_length, ← hp] at this

theorem mono (h : Spans T G n n') (himp : ∀ ℓ c b, G ℓ c b → G' ℓ c b) :
    Spans T G' n n' := by
  obtain ⟨calls, hc, hp, hG⟩ := h
  exact ⟨calls, hc, hp, fun k hk => ⟨(hG k hk).kept, himp _ _ _ (hG k hk).holds⟩⟩

theorem trans (h : Spans T G n n') (h' : Spans T G n' n'') : Spans T G n n'' := by
  have hmid := h.last
  obtain ⟨cs, hc, hp, hG⟩ := h
  obtain ⟨cs', hc', hp', hG'⟩ := h'
  refine ⟨cs ++ cs', by rw [hc', hc, List.append_assoc], ?_, fun k hk => ?_⟩
  · rw [hp', hp, Persistence.replay_append]
  · rcases Nat.lt_or_ge k cs.length with hlt | hge
    · rw [List.take_append_of_le_length hlt.le]
      refine hG k fun ⟨ht, hes, hs⟩ => hk ⟨ht, ?_, ?_⟩
      · rwa [List.take_append_of_le_length hlt.le]
      · rwa [List.getElem?_append_left hlt]
    · rw [List.take_append, List.take_of_length_le hge, Persistence.replay_append, ← hp]
      rcases Nat.eq_or_lt_of_le hge with heq | hgt
      · rw [← heq, Nat.sub_self, List.take_zero, Persistence.replay_nil]
        exact hmid
      · refine hG' _ fun ⟨ht, ⟨es, hes⟩, hs⟩ => hk ⟨ht, ⟨es, ?_⟩, ?_⟩
        · rw [List.take_append, List.getLast?_append, hes]
          rfl
        · rwa [List.getElem?_append_right hge]

/-- One call. -/
theorem persist (call : PersistenceCall) (h : n.persistence.Meets G)
    (h' : (n.persistence.run call).Meets G) : Spans T G n (n.persist call) := by
  refine ⟨[call], rfl, rfl, fun k _ => ?_⟩
  cases k with
  | zero => exact h
  | succ k => simpa [Persistence.replay] using h'

/-- Steps after which calls and files are those of another node. -/
theorem before (h : Spans T G n n') (hc : n''.calls = n'.calls)
    (hp : n''.persistence = n'.persistence) : Spans T G n n'' := by
  obtain ⟨cs, hcs, hps, hG⟩ := h
  exact ⟨cs, hc.trans hcs, hp.trans hps, hG⟩

theorem after (h : Spans T G n' n'') (hc : n'.calls = n.calls)
    (hp : n'.persistence = n.persistence) : Spans T G n n'' := by
  obtain ⟨cs, hcs, hps, hG⟩ := h
  exact ⟨cs, by rw [hcs, hc], by rw [hps, hp], hp ▸ hG⟩

end Spans

/-! ## A node and its files -/

/-- The full log of a node. -/
def fullLog (n : RaftNode) : List LogEntry := n.persistence.fullLog

/-- A node whose memory is what a restart on its files would make of them. -/
structure Coherent (n : RaftNode) : Prop where
  kept : n.persistence.WellKept
  synced : n.Synced
  log : n.log = RaftLog.ofPersistence n.persistence
  commit : n.commitIndex = n.persistence.commit
  applied : n.lastApplied = n.commitIndex
  history : n.history = indexed (n.fullLog.take n.commitIndex)

namespace Coherent

variable {n n' : RaftNode}

/-- A coherent node meets what its log, commit index and term do. -/
theorem meets (hn : n.Coherent) {G : Holding} (h : G n.fullLog n.commitIndex n.currentTerm) :
    n.persistence.Meets G := by
  refine ⟨hn.kept, ?_⟩
  rw [← hn.commit, hn.synced.currentTerm]
  exact h

/-- Steps that concern neither files, log, indices nor history. -/
theorem of_eq (hn : n.Coherent) (hfiles : n'.persistence = n.persistence) (hlog : n'.log = n.log)
    (hterm : n'.currentTerm = n.currentTerm) (hvote : n'.votedFor = n.votedFor)
    (hcommit : n'.commitIndex = n.commitIndex) (happlied : n'.lastApplied = n.lastApplied)
    (hhist : n'.history = n.history) : n'.Coherent where
  kept := hfiles ▸ hn.kept
  synced := ⟨hfiles ▸ hn.synced.file, by rw [hfiles, hterm, hn.synced.currentTerm],
    by rw [hfiles, hvote, hn.synced.votedFor]⟩
  log := by rw [hlog, hfiles, hn.log]
  commit := by rw [hcommit, hfiles, hn.commit]
  applied := by rw [happlied, hcommit, hn.applied]
  history := by
    unfold fullLog
    rw [hhist, hfiles, hcommit]
    exact hn.history

/-- The log is as long as the full log. -/
theorem getLastIndex (hn : n.Coherent) : n.log.getLastIndex = n.fullLog.length := by
  rw [hn.log]
  exact hn.kept.length_fullLog.symm

/-- What is committed is in the log. -/
theorem commit_le (hn : n.Coherent) : n.commitIndex ≤ n.fullLog.length :=
  hn.commit ▸ hn.kept.commit_le

/-- What a snapshot covers is committed. -/
theorem boundary_le (hn : n.Coherent) : n.log.lastIncludedIndex ≤ n.commitIndex := by
  rw [hn.log, hn.commit]
  exact hn.kept.boundary_le_commit

/-- The full log is in order. -/
theorem inOrder (hn : n.Coherent) : InOrder n.fullLog := hn.kept.inOrder

/-- The entries in memory are what follows the boundary. -/
theorem entries (hn : n.Coherent) : n.log.entries = n.fullLog.drop n.log.lastIncludedIndex := by
  rw [hn.log]
  exact hn.kept.entries_eq

/-- The log reads the full log beyond its boundary. -/
theorem getEntry (hn : n.Coherent) {k : ℕ} (hk : n.log.lastIncludedIndex < k) :
    n.log.getEntry k = n.fullLog[k - 1]? := by
  unfold RaftLog.getEntry
  rw [if_neg (by omega), hn.entries, List.getElem?_drop]
  congr 1
  omega

/-- The term at an index from the boundary on is that of the entry there. -/
theorem getTermAt (hn : n.Coherent) {k : ℕ} (hk : n.log.lastIncludedIndex ≤ k)
    (hlast : k ≤ n.fullLog.length) : n.log.getTermAt k = lastTerm (n.fullLog.take k) := by
  unfold RaftLog.getTermAt
  split
  · next heq =>
      rw [heq, hn.log, hn.kept.boundary_term, hn.kept.covered_eq]
      rfl
  · next hne =>
      rw [hn.getEntry (by omega), lastTerm, List.getLast?_eq_getElem?, List.length_take,
        min_eq_left hlast, List.getElem?_take, if_pos (by omega)]
      rfl

/-- The last term is that of the full log. -/
theorem getLastTerm (hn : n.Coherent) : n.log.getLastTerm = lastTerm n.fullLog := by
  unfold RaftLog.getLastTerm fullLog Persistence.fullLog lastTerm
  rw [hn.log, List.getLast?_append]
  cases hlast : (RaftLog.ofPersistence n.persistence).entries.getLast? with
  | none =>
      simp only [Option.map_none, Option.getD_none, Option.none_or]
      exact hn.kept.boundary_term
  | some e => rfl

/-- The log is contiguous. -/
theorem contiguous (hn : n.Coherent) : n.log.Contiguous := by
  intro k e hk
  rw [hn.entries, List.getElem?_drop] at hk
  have := hn.inOrder _ e hk
  omega

/-- What was committed was applied under its own index. -/
theorem appliedAt (hn : n.Coherent) {k : ℕ} (hk : k < n.commitIndex) :
    n.appliedAt (k + 1) = n.fullLog[k]? := by
  have hlt : k < n.fullLog.length := hk.trans_le hn.commit_le
  have hget : n.fullLog[k]? = some n.fullLog[k] := List.getElem?_eq_getElem hlt
  have hindex := hn.inOrder k _ hget
  unfold RaftNode.appliedAt
  rw [hn.history, hget]
  have hmem : (k + 1, n.fullLog[k]) ∈ indexed (n.fullLog.take n.commitIndex) := by
    refine List.mem_map.mpr ⟨n.fullLog[k], ?_, by rw [hindex]⟩
    refine List.mem_iff_getElem?.mpr ⟨k, ?_⟩
    rw [List.getElem?_take, if_pos hk, hget]
  -- no other entry has this index
  have hunique : ∀ x ∈ indexed (n.fullLog.take n.commitIndex), x.1 = k + 1 →
      x = (k + 1, n.fullLog[k]) := by
    intro x hx hxk
    obtain ⟨e, he, rfl⟩ := List.mem_map.mp hx
    obtain ⟨j, hj⟩ := List.mem_iff_getElem?.mp he
    have hj' := (hn.inOrder.take _) j e hj
    have hjk : j = k := by
      dsimp only at hxk
      omega
    subst hjk
    rw [List.getElem?_take, if_pos hk, hget] at hj
    rw [← Option.some.inj hj, hindex]
  obtain ⟨x, hx⟩ := Option.isSome_iff_exists.mp (List.find?_isSome.mpr
    ⟨_, hmem, by simp⟩ : ((indexed (n.fullLog.take n.commitIndex)).find? fun applied =>
      applied.1 = k + 1).isSome)
  rw [hx, hunique x (List.mem_of_find?_eq_some hx) (by simpa using List.find?_some hx)]
  rfl

end Coherent

end RaftNode

end QuorumCanvas
