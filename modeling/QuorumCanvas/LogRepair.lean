import QuorumCanvas.Batches
import QuorumCanvas.NodeLedger
import QuorumCanvas.Recovery

/-!
# Repairing a log that has diverged

A leader whose message does not connect starts over behind `currentLogLength`, the
number of entries that the follower has not compacted.  Where that is not an index up to
which the logs agree, the next attempt fails in the same way, and so on for ever; only an
index that the leader has compacted itself leads on, to its snapshot.  And a batch that
ends where the logs still agree may commit what the follower holds behind it.  Any other
divergence is repaired (`log_repair`).
-/

namespace QuorumCanvas

open Ledger (lastTerm)

/-! ## Where two logs part -/

/-- How far two logs are the same. -/
def agreement : List LogEntry → List LogEntry → ℕ
  | e :: es, e' :: es' => if e = e' then agreement es es' + 1 else 0
  | _, _ => 0

/-- Entries of one term at one index come with the same entries before them. -/
def LogMatching (es es' : List LogEntry) : Prop :=
  ∀ k e e', es[k]? = some e → es'[k]? = some e' → e.term = e'.term →
    es.take (k + 1) = es'.take (k + 1)

/-- Two logs are the same up to `d`, and differ in their terms from there on. -/
structure Parts (d : ℕ) (es es' : List LogEntry) : Prop where
  same : es.take d = es'.take d
  le_left : d ≤ es.length
  le_right : d ≤ es'.length
  differs : ∀ k ≥ d, ∀ e e', es[k]? = some e → es'[k]? = some e' → e.term ≠ e'.term

variable {es es' : List LogEntry} {d k : ℕ}

/-- Logs agree no further than either goes. -/
theorem agreement_le (es es' : List LogEntry) :
    agreement es es' ≤ es.length ∧ agreement es es' ≤ es'.length := by
  induction es generalizing es' with
  | nil => simp [agreement]
  | cons e es ih =>
      cases es' with
      | nil => simp [agreement]
      | cons e' es' =>
          have := ih es'
          unfold agreement
          split
          · simp
            omega
          · simp

/-- That far they are the same. -/
theorem take_agreement (es es' : List LogEntry) :
    es.take (agreement es es') = es'.take (agreement es es') := by
  induction es generalizing es' with
  | nil => simp [agreement]
  | cons e es ih =>
      cases es' with
      | nil => simp [agreement]
      | cons e' es' =>
          unfold agreement
          split
          · next heq =>
              rw [List.take_succ_cons, List.take_succ_cons, heq, ih]
          · rfl

/-- Nothing longer is common to both. -/
theorem le_agreement (hk : k ≤ es.length) (hk' : k ≤ es'.length) (h : es.take k = es'.take k) :
    k ≤ agreement es es' := by
  induction es generalizing es' k with
  | nil => exact hk.trans (Nat.zero_le _)
  | cons e es ih =>
      cases es' with
      | nil => exact hk'.trans (Nat.zero_le _)
      | cons e' es' =>
          cases k with
          | zero => exact Nat.zero_le _
          | succ k =>
              rw [List.take_succ_cons, List.take_succ_cons] at h
              obtain ⟨heq, hrest⟩ := List.cons.inj h
              have := ih (Nat.le_of_succ_le_succ hk) (Nat.le_of_succ_le_succ hk') hrest
              unfold agreement
              rw [if_pos heq]
              omega

/-- **Log matching** makes the logs part for good. -/
theorem LogMatching.parts (h : LogMatching es es') : Parts (agreement es es') es es' where
  same := take_agreement es es'
  le_left := (agreement_le es es').1
  le_right := (agreement_le es es').2
  differs := by
    intro k hk e e' he he' hterm
    have hlt := (List.getElem?_eq_some_iff.mp he).1
    have hlt' := (List.getElem?_eq_some_iff.mp he').1
    have := le_agreement hlt hlt' (h k e e' he he' hterm)
    omega

namespace Parts

/-- Before `d` the logs read the same. -/
theorem getElem? (h : Parts d es es') (hk : k < d) : es[k]? = es'[k]? := by
  rw [← List.getElem?_take_of_lt hk, h.same, List.getElem?_take_of_lt hk]

/-- Before they part they are the same. -/
theorem take_eq (h : Parts d es es') (hk : k ≤ d) : es.take k = es'.take k := by
  have := congrArg (List.take k) h.same
  rwa [List.take_take, List.take_take, min_eq_left hk] at this

/-- The front replaced by that of the other log. -/
theorem install (h : Parts d es es') {a : ℕ} (ha : a ≤ es'.length) :
    Parts (max d a) (es'.take a ++ es.drop a) es' := by
  rcases Nat.le_total a d with had | hda
  · rw [max_eq_left had, ← h.take_eq had, List.take_append_drop]
    exact h
  · have hlength : (es'.take a).length = a := by
      rw [List.length_take, min_eq_left ha]
    rw [max_eq_right hda]
    refine ⟨?_, ?_, ha, ?_⟩
    · rw [List.take_append_of_le_length hlength.ge, List.take_of_length_le hlength.le]
    · rw [List.length_append]
      omega
    · intro j hj e e' he he'
      rw [List.getElem?_append_right (hlength.trans_le hj), List.getElem?_drop, hlength] at he
      rw [show a + (j - a) = j by omega] at he
      exact h.differs j (hda.trans hj) e e' he he'

/-- The whole other log, up to an index beyond. -/
theorem replace {j : ℕ} (hj : j ≤ es'.length) :
    Parts j (es'.take j) es' := by
  have hlength : (es'.take j).length = j := by
    rw [List.length_take, min_eq_left hj]
  refine ⟨?_, hlength.ge, hj, ?_⟩
  · rw [List.take_take, min_self]
  · intro i hi e e' he _
    have := (List.getElem?_eq_some_iff.mp he).1
    omega

end Parts

namespace RaftNode

variable {L F : RaftNode} {peer : String} {s : ℕ} {args : AppendEntriesArgs}

/-! ## Messages of a leader -/

/-- The request for a cursor `s` above the boundary. -/
def sliceArgs (leader : RaftNode) (s : ℕ) : AppendEntriesArgs where
  term := leader.currentTerm
  leaderId := leader.replicaId
  leaderAddr := some leader.selfUrl
  prevLogIndex := s - 1
  prevLogTerm := leader.log.getTermAt (s - 1)
  entries := leader.nextSlice s
  leaderCommit := leader.commitIndex

/-- The entries of a slice are those of the full log behind the cursor. -/
theorem Coherent.nextSlice (hL : L.Coherent) (ha : L.log.lastIncludedIndex < s) {e : LogEntry}
    (he : (L.nextSlice s)[k]? = some e) : L.fullLog[s - 1 + k]? = some e := by
  have hshort := (List.getElem?_eq_some_iff.mp he).1
  unfold RaftNode.nextSlice at he hshort
  rw [List.length_take] at hshort
  rw [List.getElem?_take_of_lt (by omega), RaftLog.getElem?_getEntriesFrom ha,
    hL.getEntry (by omega)] at he
  rwa [show s + k - 1 = s - 1 + k by omega] at he

/-- A slice is as long as the cap, or the rest of the log. -/
theorem Coherent.length_nextSlice (hL : L.Coherent) (ha : L.log.lastIncludedIndex < s) :
    (L.nextSlice s).length = min L.batchCap (L.fullLog.length + 1 - s) := by
  unfold RaftNode.nextSlice
  rw [List.length_take, RaftLog.length_getEntriesFrom ha, hL.getLastIndex]

/-- It is consecutive. -/
theorem Coherent.consecutive_nextSlice (hL : L.Coherent) (ha : L.log.lastIncludedIndex < s) :
    Consecutive (s - 1) (L.nextSlice s) :=
  fun k e he => hL.inOrder (s - 1 + k) e (hL.nextSlice ha he)

/-- Both logs have the same term on record at an index that they share. -/
theorem getTermAt_of_parts (hF : F.Coherent) (hL : L.Coherent) (h : Parts d F.fullLog L.fullLog)
    (hk : k ≤ d) (hb : F.log.lastIncludedIndex ≤ k) (ha : L.log.lastIncludedIndex ≤ k) :
    F.log.getTermAt k = L.log.getTermAt k := by
  rw [hF.getTermAt hb (hk.trans h.le_left), hL.getTermAt ha (hk.trans h.le_right), h.take_eq hk]

/-- A message that begins where the logs agree connects. -/
theorem connects_of_parts (hF : F.Coherent) (hL : L.Coherent) (h : Parts d F.fullLog L.fullLog)
    (ha : L.log.lastIncludedIndex < s) (hs : s - 1 ≤ d) : F.Connects (L.sliceArgs s) := by
  constructor
  · intro hlt
    have hlast : s - 1 ≤ F.log.getLastIndex := hF.getLastIndex ▸ hs.trans h.le_left
    obtain ⟨e, he⟩ := RaftLog.exists_getEntry hlt hlast
    have hterm := getTermAt_of_parts hF hL h hs (Nat.le_of_lt hlt) (by omega)
    exact ⟨e, he, (RaftLog.getTermAt_eq he).symm.trans hterm⟩
  · intro hat _
    have hterm := getTermAt_of_parts hF hL h hs (Nat.le_of_eq hat.symm) (by omega)
    have hhere : F.log.getTermAt (s - 1) = F.log.lastIncludedTerm := if_pos hat
    exact hhere.symm.trans hterm

/-- The last term of a prefix is that of its last entry. -/
theorem lastTerm_take {e : LogEntry} {ℓ : List LogEntry} (he : ℓ[k]? = some e) :
    lastTerm (ℓ.take (k + 1)) = e.term := by
  have hlt := (List.getElem?_eq_some_iff.mp he).1
  unfold lastTerm
  rw [List.getLast?_eq_getElem?, List.length_take, min_eq_left hlt, Nat.add_sub_cancel,
    List.getElem?_take_of_lt (Nat.lt_succ_self k), he]
  rfl

/-- One that begins behind does not. -/
theorem not_connects_of_parts (hF : F.Coherent) (hL : L.Coherent)
    (hpos : ∀ e ∈ F.fullLog, 0 < e.term) (h : Parts d F.fullLog L.fullLog)
    (hb : F.log.lastIncludedIndex ≤ d) (ha : L.log.lastIncludedIndex < s) (hs : d < s - 1) :
    ¬ F.Connects (L.sliceArgs s) := by
  have hprev : F.log.lastIncludedIndex < s - 1 := hb.trans_lt hs
  have hbound := hL.boundary_le.trans hL.commit_le
  obtain ⟨k, hk⟩ : ∃ k, s - 1 = k + 1 := ⟨s - 1 - 1, by omega⟩
  have hdk : d ≤ k := by omega
  have hak : L.log.lastIncludedIndex ≤ k + 1 := by omega
  intro hconnects
  obtain ⟨e, he, hterm⟩ : ∃ e, F.log.getEntry (s - 1) = some e ∧
      e.term = L.log.getTermAt (s - 1) := hconnects.1 hprev
  rw [hF.getEntry hprev, hk, Nat.add_sub_cancel] at he
  rw [hk] at hterm
  cases hat : L.fullLog[k]? with
  | some e' =>
      have hlt := (List.getElem?_eq_some_iff.mp hat).1
      rw [hL.getTermAt hak hlt, lastTerm_take hat] at hterm
      exact h.differs k hdk e e' he hat hterm
  | none =>
      -- beyond its log the leader takes the term to be zero
      have hlong := List.getElem?_eq_none_iff.mp hat
      have hzero : L.log.getTermAt (k + 1) = 0 := by
        unfold RaftLog.getTermAt
        rw [if_neg (by omega), hL.getEntry (by omega), Nat.add_sub_cancel, hat]
        rfl
      have := hpos e (List.mem_of_getElem? he)
      omega

/-! ## What a follower makes of them -/

/-- The loop does not give up unless an entry clashes with a committed one. -/
theorem appendEntriesLoop_of_unclashed {n : RaftNode} {es : List LogEntry} {i li : ℕ}
    (hli : n.log.lastIncludedIndex = li) (hcommit : n.commitIndex ≤ n.log.getLastIndex)
    (hes : Consecutive i es) (h : ∀ e ∈ es, n.log.Clashes e → n.commitIndex < e.index) :
    (n.appendEntriesLoop li es).2 = true := by
  induction es generalizing i with
  | nil => rfl
  | cons e rest ih =>
      obtain ⟨he, hrest⟩ := hes.tail
      have hlater := ih hrest fun e₁ he₁ => h e₁ (List.mem_cons_of_mem _ he₁)
      unfold appendEntriesLoop
      split
      · exact hlater
      · next hbeyond =>
          have hallow : ¬ (n.conflicts e ∧ e.index ≤ n.commitIndex) := by
            rintro ⟨hconflict, hle⟩
            have := h e List.mem_cons_self (conflicts_iff.mp hconflict)
            omega
          have hsome : n.spliceEntry e = some ((n.dropConflict e).appendMissing e) := if_neg hallow
          rw [hsome]
          by_cases hlate : n.commitIndex < e.index
          · refine appendEntriesLoop_of_uncommitted fun e₁ he₁ => ?_
            obtain ⟨j, hj⟩ := List.mem_iff_getElem?.mp he₁
            have := hrest j e₁ hj
            rw [commitIndex_of_marks (marks_splice n e)]
            omega
          · -- a committed entry is there already
            obtain ⟨e', he'⟩ : ∃ e', n.log.getEntry e.index = some e' :=
              RaftLog.exists_getEntry (by omega) (by omega)
            have hterm : e'.term = e.term := by
              by_contra hne
              exact hallow ⟨conflicts_iff.mpr ⟨e', he', hne⟩, Nat.not_lt.mp hlate⟩
            rw [splice_same he' hterm]
            exact hlater

/-- A request that connects and clashes above the commit index only is accepted. -/
theorem handleAppendEntries_accepted (hcommit : F.commitIndex ≤ F.log.getLastIndex)
    (hterm : F.currentTerm ≤ args.term) (hconnects : F.Connects args)
    (hes : Consecutive args.prevLogIndex args.entries)
    (h : ∀ e ∈ args.entries, F.log.Clashes e → F.commitIndex < e.index) :
    (F.handleAppendEntries args).2.success = true := by
  obtain ⟨hlog, -, -, hindex, -⟩ := heard_frame F args
  have hloop : (F.spliced args).2 = true := by
    refine appendEntriesLoop_of_unclashed (congrArg RaftLog.lastIncludedIndex hlog) ?_ hes ?_
    · rw [hlog, hindex]
      exact hcommit
    · rw [hlog, hindex]
      exact h
  have heq := handleAppendEntries_eq F args
  rw [if_neg (Nat.not_lt.mpr hterm), if_pos (consistent_iff.mpr hconnects), if_pos hloop] at heq
  exact (Prod.mk.inj heq).2

/-- A message that does not connect is answered with the length of the log. -/
theorem handleAppendEntries_rejected (hterm : F.currentTerm ≤ args.term)
    (hno : ¬ F.Connects args) :
    (F.handleAppendEntries args).1 = F.heard args ∧
      (F.handleAppendEntries args).2.success = false ∧
      (F.handleAppendEntries args).2.currentLogLength = F.log.getLength := by
  have heq := handleAppendEntries_eq F args
  rw [if_neg (Nat.not_lt.mpr hterm), if_neg (mt consistent_iff.mp hno)] at heq
  obtain ⟨hnode, hfail⟩ := Prod.mk.inj heq
  refine ⟨hnode, hfail, ?_⟩
  rw [handleAppendEntries_result, hnode]
  exact congrArg RaftLog.getLength (heard_frame F args).1

/-- Whoever hears of the term takes it on. -/
theorem handleAppendEntries_term (hterm : F.currentTerm ≤ args.term) :
    (F.handleAppendEntries args).1.currentTerm = args.term ∧
      (F.handleAppendEntries args).2.term = args.term := by
  have hnode : (F.handleAppendEntries args).1.currentTerm = args.term := by
    have heq := handleAppendEntries_eq F args
    have hspliced : (F.spliced args).1.currentTerm = args.term :=
      (quiet_appendEntriesLoop _ _).currentTerm.trans (heard_term hterm)
    rw [if_neg (Nat.not_lt.mpr hterm)] at heq
    split at heq
    · split at heq
      · rw [(Prod.mk.inj heq).1]
        exact (quiet_followCommit _ _).currentTerm.trans hspliced
      · rw [(Prod.mk.inj heq).1]
        exact hspliced
    · rw [(Prod.mk.inj heq).1]
      exact heard_term hterm
  refine ⟨hnode, ?_⟩
  rw [handleAppendEntries_result]
  exact hnode

/-- **An accepted slice** replaces what differs within it, and leaves the rest. -/
theorem spliced_of_parts (hF : F.Coherent) (hL : L.Coherent) (h : Parts d F.fullLog L.fullLog)
    (hterm : F.currentTerm ≤ L.currentTerm) (ha : L.log.lastIncludedIndex < s) (hs : s - 1 ≤ d)
    (hcommit : F.commitIndex ≤ d) :
    let F' := (F.handleAppendEntries (L.sliceArgs s)).1
    let j := s - 1 + (L.nextSlice s).length
    (F.handleAppendEntries (L.sliceArgs s)).2.success = true ∧ F'.Coherent ∧
      (j ≤ d ∧ F'.fullLog = F.fullLog ∨ d < j ∧ F'.fullLog = L.fullLog.take j) ∧
      F'.commitIndex = if F.commitIndex < L.commitIndex then min L.commitIndex F'.fullLog.length
        else F.commitIndex := by
  intro F' j
  have hes := hL.consecutive_nextSlice ha
  have hlast : F.commitIndex ≤ F.log.getLastIndex := hF.getLastIndex ▸ hF.commit_le
  have hunclashed : ∀ e ∈ (L.sliceArgs s).entries, F.log.Clashes e → F.commitIndex < e.index := by
    rintro e he ⟨e', he', hne⟩
    by_contra hle
    obtain ⟨i, hi⟩ := List.mem_iff_getElem?.mp he
    have hindex := hes i e hi
    rw [hF.getEntry (RaftLog.bounds_of_getEntry he').1, show e.index - 1 = s - 1 + i by omega,
      h.getElem? (by omega), hL.nextSlice ha hi] at he'
    exact hne (congrArg LogEntry.term (Option.some.inj he').symm)
  have hsuccess := handleAppendEntries_accepted hlast hterm (connects_of_parts hF hL h ha hs) hes
    hunclashed
  have hes : Consecutive (L.sliceArgs s).prevLogIndex (L.sliceArgs s).entries := hes
  -- up to index `i` the slice has changed nothing, or the log is the leader's
  let J : ℕ → List LogEntry → Prop := fun i ℓ =>
    i ≤ d ∧ ℓ = F.fullLog ∨ d ≤ i ∧ d < j ∧ ℓ = L.fullLog.take i
  have htaken : ∀ {i : ℕ} {e : LogEntry}, ¬ (L.fullLog.take i)[i]? = some e := by
    intro i e he
    have := (List.getElem?_eq_some_iff.mp he).1
    rw [List.length_take] at this
    omega
  have hnext : ∀ {i : ℕ} {e : LogEntry}, L.fullLog[i]? = some e →
      L.fullLog.take i ++ [e] = L.fullLog.take (i + 1) := by
    intro i e he
    rw [List.take_add_one, he]
    rfl
  have hsplices : Splices F.commitIndex J (s - 1) (L.nextSlice s) := by
    intro k e hk
    have hat := hL.nextSlice ha hk
    have hlt := (List.getElem?_eq_some_iff.mp hk).1
    refine ⟨?_, ?_, ?_, ?_⟩
    · rintro ℓ (⟨hi, rfl⟩ | ⟨hi, -⟩) hc
      · exact Or.inl ⟨by omega, rfl⟩
      · omega
    · rintro ℓ e' (⟨hi, rfl⟩ | ⟨-, -, rfl⟩) he' heq
      · refine Or.inl ⟨?_, rfl⟩
        by_contra hge
        exact h.differs _ (by omega) e' e he' hat heq
      · exact absurd he' htaken
    · rintro ℓ e' (⟨hi, rfl⟩ | ⟨-, -, rfl⟩) he' hne -
      · rcases Nat.lt_or_ge (s - 1 + k) d with hbefore | hge
        · rw [h.getElem? hbefore, hat] at he'
          exact absurd (congrArg LogEntry.term (Option.some.inj he').symm) hne
        · obtain rfl : s - 1 + k = d := by omega
          exact Or.inr ⟨le_rfl, by omega, h.same⟩
      · exact absurd he' htaken
    · rintro ℓ (⟨hi, rfl⟩ | ⟨hi, hj, rfl⟩) hlen
      · obtain rfl : s - 1 + k = d := le_antisymm hi (h.le_left.trans hlen.le)
        have hall : F.fullLog = L.fullLog.take (s - 1 + k) := by
          rw [← h.same, List.take_of_length_le hlen.le]
        exact Or.inr ⟨Nat.le_succ _, by omega, by rw [hall, hnext hat]⟩
      · exact Or.inr ⟨Nat.le_succ_of_le hi, hj, hnext hat⟩
  obtain ⟨⟨hcoh, -⟩, hdone⟩ := evolves_handleAppendEntries (T := False) (G := fun _ _ _ => True)
    (J := J) hF hes trivial (fun _ => trivial) (fun _ _ => Or.inl ⟨hs, rfl⟩) (fun _ => hsplices)
    (fun _ _ _ _ => trivial) fun _ _ _ _ => trivial
  obtain ⟨-, hlog, -⟩ := hdone hsuccess
  refine ⟨hsuccess, hcoh, ?_, ?_⟩
  · rcases hlog with ⟨hj, hsame⟩ | ⟨-, hj, hnew⟩
    · exact Or.inl ⟨hj, hsame⟩
    · exact Or.inr ⟨hj, hnew⟩
  · obtain ⟨-, -, hindex⟩ := spliced_success hes hsuccess
    have hcovered := commit_le_spliced hes hlast hsuccess
    obtain ⟨-, -, -, hnode⟩ := handleAppendEntries_success hsuccess
    have hreach := (followCommit_log _ L.commitIndex (hindex ▸ hcovered)).1
    have hlength : F'.fullLog.length = (F.spliced (L.sliceArgs s)).1.log.getLastIndex := by
      rw [← hcoh.getLastIndex, ← hreach]
      exact congrArg (fun n : RaftNode => n.log.getLastIndex) hnode
    rw [hlength, ← hindex]
    exact (congrArg RaftNode.commitIndex hnode).trans (commitIndex_followCommit _ _)

/-- The snapshot behind a compacted log stands for the front of the full log. -/
theorem Coherent.boundarySnapshot (hL : L.Coherent) (hpos : 0 < L.log.lastIncludedIndex) :
    ∃ snapshot, L.persistence.loadSnapshot = some snapshot ∧ snapshot.WellFormed ∧
      snapshot.lastIncludedIndex = L.log.lastIncludedIndex ∧
      snapshot.entries = L.fullLog.take L.log.lastIncludedIndex := by
  have hlog := hL.log
  have hcovered := hL.kept.covered_eq
  rw [← hlog] at hcovered
  unfold RaftLog.ofPersistence at hlog
  unfold Persistence.covered at hcovered
  cases hs : L.persistence.loadSnapshot with
  | none =>
      rw [hs] at hlog
      rw [hlog] at hpos
      cases hpos
  | some snapshot =>
      rw [hs] at hlog hcovered
      exact ⟨snapshot, rfl, hL.kept.snapshot snapshot hs,
        (congrArg RaftLog.lastIncludedIndex hlog).symm, hcovered⟩

/-- What a snapshot of the leader makes of a follower. -/
theorem installed_of_parts (hF : F.Coherent) (hL : L.Coherent) (h : Parts d F.fullLog L.fullLog)
    (hterm : F.currentTerm ≤ L.currentTerm) (hcommit : F.commitIndex ≤ d) {snapshot : Snapshot}
    (hwf : snapshot.WellFormed)
    (hindex : snapshot.lastIncludedIndex = L.log.lastIncludedIndex)
    (hentries : snapshot.entries = L.fullLog.take L.log.lastIncludedIndex) :
    let F' := (F.handleInstallSnapshot ⟨L.currentTerm, L.replicaId, snapshot⟩).1
    F'.Coherent ∧ Parts (max d L.log.lastIncludedIndex) F'.fullLog L.fullLog ∧
      F'.fullLog.length = max F.fullLog.length L.log.lastIncludedIndex ∧
      F'.commitIndex = max F.commitIndex L.log.lastIncludedIndex ∧
      (L.log.lastIncludedIndex ≤ d → F'.fullLog = F.fullLog) := by
  intro F'
  have hbound := hL.boundary_le.trans hL.commit_le
  have hparts := h.install hbound
  obtain ⟨⟨hcoh, -⟩, hfull⟩ : Evolves True (fun _ _ _ => True) F F' ∧ F'.fullLog =
      if F.currentTerm ≤ L.currentTerm ∧ F.commitIndex < snapshot.lastIncludedIndex then
        snapshot.entries ++ F.fullLog.drop snapshot.lastIncludedIndex
      else F.fullLog :=
    evolves_handleInstallSnapshot hF trivial (fun _ => trivial)
      fun _ _ => ⟨hwf, trivial, Or.inl trivial⟩
  have hci : F'.commitIndex = max F.commitIndex L.log.lastIncludedIndex := by
    have hheard := commitIndex_of_marks (marks_hearLeader F L.currentTerm L.replicaId none)
    show (F.handleInstallSnapshot ⟨L.currentTerm, L.replicaId, snapshot⟩).1.commitIndex = _
    unfold handleInstallSnapshot
    rw [if_neg (Nat.not_lt.mpr hterm)]
    dsimp only
    rw [hheard, hindex]
    split
    · next hold =>
        rw [max_eq_left hold]
        exact hheard
    · next hnew =>
        rw [max_eq_right (Nat.le_of_not_le hnew), ← hindex]
        rfl
  rw [hindex, hentries] at hfull
  refine ⟨hcoh, ?_, ?_, hci, ?_⟩
  · rw [hfull]
    split
    · exact hparts
    · next hold =>
        have hle : L.log.lastIncludedIndex ≤ F.commitIndex := by
          by_contra hlt
          exact hold ⟨hterm, Nat.not_le.mp hlt⟩
        rwa [max_eq_left (hle.trans hcommit)]
  · rw [hfull]
    split
    · rw [List.length_append, List.length_take, List.length_drop]
      omega
    · next hold =>
        have := hF.commit_le
        have hle : L.log.lastIncludedIndex ≤ F.commitIndex := by
          by_contra hlt
          exact hold ⟨hterm, Nat.not_le.mp hlt⟩
        omega
  · intro had
    rw [hfull]
    split
    · rw [← h.take_eq had, List.take_append_drop]
    · rfl

/-! ## Rounds -/

/-- A round, as a step of leader and follower. -/
def replicate (peer : String) (pair : RaftNode × RaftNode) : RaftNode × RaftNode :=
  (replicateRound peer pair.1 pair.2).2

/-- The leader `L`, with its cursor for `peer` at `s`, and other cursors where they may be. -/
structure Aims (peer : String) (L : RaftNode) (s : ℕ) (leader : RaftNode) : Prop where
  same : ∃ nextIndex matchIndex,
    leader = { L with nextIndex := nextIndex, matchIndex := matchIndex }
  cursor : leader.nextIndex peer = some s

variable {pair : RaftNode × RaftNode}

theorem Aims.setNextIndex (h : Aims peer L s pair.1) (i : ℕ) :
    Aims peer L i (pair.1.setNextIndex peer i) := by
  obtain ⟨ni, mi, heq⟩ := h.same
  exact ⟨⟨_, _, by rw [heq]; rfl⟩, Function.update_self ..⟩

/-- Noting a match does not. -/
theorem Aims.setMatchIndex {leader : RaftNode} (h : Aims peer L s leader) (i : ℕ) :
    Aims peer L s (leader.setMatchIndex peer i) := by
  obtain ⟨ni, mi, heq⟩ := h.same
  exact ⟨⟨_, _, by rw [heq]; rfl⟩, h.cursor⟩

/-- Above the boundary a slice is sent. -/
theorem Aims.sends_slice {leader : RaftNode} (h : Aims peer L s leader)
    (hlead : L.state = .leader) (ha : L.log.lastIncludedIndex < s) :
    leader.replicateRequest peer = some (.appendEntries (L.sliceArgs s)) := by
  obtain ⟨ni, mi, heq⟩ := h.same
  have hcursor := h.cursor
  subst heq
  unfold replicateRequest
  rw [if_neg (not_not.mpr hlead), hcursor]
  exact if_neg (Nat.not_le.mpr ha)

/-- Up to it the snapshot is sent. -/
theorem Aims.sends_snapshot {leader : RaftNode} (h : Aims peer L s leader)
    (hlead : L.state = .leader) (hs : s ≤ L.log.lastIncludedIndex) {snapshot : Snapshot}
    (hsnapshot : L.persistence.loadSnapshot = some snapshot) :
    leader.replicateRequest peer =
      some (.installSnapshot ⟨L.currentTerm, L.replicaId, snapshot⟩) := by
  obtain ⟨ni, mi, heq⟩ := h.same
  have hcursor := h.cursor
  subst heq
  unfold replicateRequest
  rw [if_neg (not_not.mpr hlead), hcursor]
  refine (if_pos hs).trans ?_
  show L.persistence.loadSnapshot.map _ = _
  rw [hsnapshot]
  rfl

/-- The leader's term stays. -/
theorem Aims.currentTerm {leader : RaftNode} (h : Aims peer L s leader) :
    leader.currentTerm = L.currentTerm := by
  obtain ⟨ni, mi, heq⟩ := h.same
  rw [heq]

/-- So does its log. -/
theorem Aims.fullLog {leader : RaftNode} (h : Aims peer L s leader) :
    leader.fullLog = L.fullLog := by
  obtain ⟨ni, mi, heq⟩ := h.same
  rw [heq]
  rfl

/-- **A round with a slice** moves the cursor behind it, or behind the length reported. -/
theorem Aims.slice_round (h : Aims peer L s pair.1) (hlead : L.state = .leader)
    (ha : L.log.lastIncludedIndex < s) (hterm : pair.2.currentTerm ≤ L.currentTerm) :
    let result := (pair.2.handleAppendEntries (L.sliceArgs s)).2
    (replicate peer pair).2 = (pair.2.handleAppendEntries (L.sliceArgs s)).1 ∧
      Aims peer L (if result.success then s + (L.nextSlice s).length
        else result.currentLogLength + 1) (replicate peer pair).1 := by
  intro result
  have hround : replicate peer pair = (pair.1.onAppendEntriesReply peer (L.sliceArgs s) result,
      (pair.2.handleAppendEntries (L.sliceArgs s)).1) := by
    unfold replicate replicateRound
    rw [h.sends_slice hlead ha]
  have hreply : ¬ pair.1.currentTerm < result.term := by
    rw [h.currentTerm, (handleAppendEntries_term hterm).2]
    exact lt_irrefl _
  rw [hround]
  refine ⟨rfl, ?_⟩
  show Aims peer L _ (pair.1.onAppendEntriesReply peer (L.sliceArgs s) result)
  unfold onAppendEntriesReply
  rw [if_neg hreply]
  split
  · split
    · have hcursor : (L.sliceArgs s).prevLogIndex + 1 + (L.sliceArgs s).entries.length =
          s + (L.nextSlice s).length := by
        show s - 1 + 1 + (L.nextSlice s).length = _
        omega
      rw [hcursor]
      exact (h.setNextIndex _).setMatchIndex _
    · next hempty =>
        have hzero : (L.nextSlice s).length = 0 := Nat.eq_zero_of_not_pos hempty
        rw [hzero]
        exact h.setMatchIndex _
  · rw [max_eq_right (Nat.le_add_left _ _)]
    exact h.setNextIndex _

/-- **A round with the snapshot** moves the cursor behind the boundary. -/
theorem Aims.snapshot_round (h : Aims peer L s pair.1) (hlead : L.state = .leader)
    (hs : s ≤ L.log.lastIncludedIndex) (hterm : pair.2.currentTerm ≤ L.currentTerm)
    {snapshot : Snapshot} (hsnapshot : L.persistence.loadSnapshot = some snapshot)
    (hindex : snapshot.lastIncludedIndex = L.log.lastIncludedIndex) :
    let args : InstallSnapshotArgs := ⟨L.currentTerm, L.replicaId, snapshot⟩
    (replicate peer pair).2 = (pair.2.handleInstallSnapshot args).1 ∧
      (replicate peer pair).2.currentTerm = L.currentTerm ∧
      Aims peer L (L.log.lastIncludedIndex + 1) (replicate peer pair).1 := by
  intro args
  have hround : replicate peer pair =
      (pair.1.onInstallSnapshotReply peer args (pair.2.handleInstallSnapshot args).2,
        (pair.2.handleInstallSnapshot args).1) := by
    unfold replicate replicateRound
    rw [h.sends_snapshot hlead hs hsnapshot]
  have hheard := (hearLeader_role pair.2 L.replicaId none hterm).2
  obtain ⟨hnode, hresult⟩ : (pair.2.handleInstallSnapshot args).1.currentTerm = L.currentTerm ∧
      (pair.2.handleInstallSnapshot args).2.term = L.currentTerm := by
    unfold handleInstallSnapshot
    rw [if_neg (Nat.not_lt.mpr hterm)]
    dsimp only
    split
    · exact ⟨hheard, hheard⟩
    · have hquiet := (quiet_applySnapshot (pair.2.hearLeader args.term args.leaderId none)
        args.snapshot).currentTerm
      exact ⟨hquiet.trans hheard, hquiet.trans hheard⟩
  rw [hround]
  refine ⟨rfl, hnode, ?_⟩
  show Aims peer L _ (pair.1.onInstallSnapshotReply peer args _)
  unfold onInstallSnapshotReply
  rw [h.currentTerm, hresult, if_neg (lt_irrefl _), ← hindex]
  exact (h.setNextIndex _).setMatchIndex _

/-- The follower has everything that the leader has. -/
def Repaired (pair : RaftNode × RaftNode) : Prop := pair.1.fullLog <+: pair.2.fullLog

/-- A rejected attempt is followed by one that begins earlier, or by a snapshot. -/
def Retreats (peer : String) (pair : RaftNode × RaftNode) : Prop :=
  ∀ args, pair.1.replicateRequest peer = some (.appendEntries args) →
    (pair.2.handleAppendEntries args).2.success = false →
      (∃ args', (replicate peer pair).1.replicateRequest peer = some (.installSnapshot args')) ∨
        ∃ args', (replicate peer pair).1.replicateRequest peer = some (.appendEntries args') ∧
          args'.prevLogIndex < args.prevLogIndex

/-! ## Advancing -/

/-- The leader's cursor `s` lies within what the logs share, and no batch will commit what
the follower holds behind it. -/
structure Converges (peer : String) (L : RaftNode) (s d : ℕ) (pair : RaftNode × RaftNode) :
    Prop where
  aims : Aims peer L s pair.1
  coherent : pair.2.Coherent
  term_le : pair.2.currentTerm ≤ L.currentTerm
  above : L.log.lastIncludedIndex < s
  within : s - 1 ≤ d
  parts : Parts d pair.2.fullLog L.fullLog
  commit_le : pair.2.commitIndex ≤ d
  safe : pair.2.fullLog.length ≤ d ∨ L.commitIndex ≤ d ∨ d < s - 1 + L.batchCap

/-- **Another batch.** -/
theorem Converges.round (hL : L.Coherent) (hlead : L.state = .leader)
    (h : Converges peer L s d pair) :
    Retreats peer pair ∧ ∃ d',
      Converges peer L (s + (L.nextSlice s).length) d' (replicate peer pair) := by
  have habove := h.above
  have hwithin := h.within
  have hlong := h.parts.le_right
  obtain ⟨hsuccess, hcoh, hlog, hcommit⟩ :=
    spliced_of_parts h.coherent hL h.parts h.term_le h.above h.within h.commit_le
  obtain ⟨hnode, haims⟩ := h.aims.slice_round hlead h.above h.term_le
  have hlength := hL.length_nextSlice h.above
  have hbound := hL.commit_le
  have hterm : (pair.2.handleAppendEntries (L.sliceArgs s)).1.currentTerm = L.currentTerm :=
    (handleAppendEntries_term h.term_le).1
  rw [hsuccess, if_pos rfl] at haims
  rw [← hnode] at hcoh hlog hcommit hterm
  refine ⟨fun args hargs hfail => ?_, ?_⟩
  · rw [h.aims.sends_slice hlead h.above] at hargs
    obtain rfl : L.sliceArgs s = args := Request.appendEntries.inj (Option.some.inj hargs)
    rw [hsuccess] at hfail
    cases hfail
  · rcases hlog with ⟨hj, hsame⟩ | ⟨hj, hnew⟩
    · rw [hsame] at hcommit
      refine ⟨d, haims, hcoh, hterm.le, by omega, by omega, hsame ▸ h.parts, ?_, ?_⟩
      · have hsafe := h.safe
        have hold := h.commit_le
        rw [hcommit]
        split
        · omega
        · exact hold
      · rw [hsame]
        have hsafe := h.safe
        omega
    · have hend : s - 1 + (L.nextSlice s).length ≤ L.fullLog.length := by omega
      have hshort : (L.fullLog.take (s - 1 + (L.nextSlice s).length)).length =
          s - 1 + (L.nextSlice s).length := by
        rw [List.length_take, min_eq_left hend]
      refine ⟨s - 1 + (L.nextSlice s).length, haims, hcoh, hterm.le, by omega, by omega,
        hnew ▸ Parts.replace hend, ?_, Or.inl ?_⟩
      · have hcovered := hcoh.commit_le
        rw [hnew] at hcovered
        exact hcovered.trans hshort.le
      · rw [hnew]
        exact hshort.le

/-- **All the batches** come to the end of the leader's log. -/
theorem Converges.repairs (hL : L.Coherent) (hlead : L.state = .leader) (hcap : 1 ≤ L.batchCap)
    (h : Converges peer L s d pair) : ∃ k, Repaired ((replicate peer)^[k] pair) := by
  induction hleft : L.fullLog.length + 1 - s using Nat.strong_induction_on
    generalizing s d pair with
  | _ left ih =>
      have habove := h.above
      have hlong := h.parts.le_right
      by_cases hend : L.fullLog.length < s
      · have hd : d = L.fullLog.length := by
          have := h.within
          omega
        refine ⟨0, ?_⟩
        show pair.1.fullLog <+: pair.2.fullLog
        rw [h.aims.fullLog, ← List.take_of_length_le hd.ge, ← h.parts.same]
        exact List.take_prefix _ _
      · obtain ⟨-, d', hnext⟩ := h.round hL hlead
        have hlength := hL.length_nextSlice h.above
        obtain ⟨k, hk⟩ := ih (L.fullLog.length + 1 - (s + (L.nextSlice s).length)) (by omega)
          hnext rfl
        exact ⟨k + 1, hk⟩

/-- Converging pairs retreat or connect, round after round. -/
theorem Converges.retreats (hL : L.Coherent) (hlead : L.state = .leader)
    (h : Converges peer L s d pair) (k : ℕ) : Retreats peer ((replicate peer)^[k] pair) := by
  induction k generalizing s d pair with
  | zero => exact (h.round hL hlead).1
  | succ k ih =>
      obtain ⟨-, d', hnext⟩ := h.round hL hlead
      exact ih hnext

/-! ## Coming to nothing -/

/-- **A rejected round** leaves the log, and sends the cursor behind its length. -/
theorem Aims.rejected_round (h : Aims peer L s pair.1) (hlead : L.state = .leader)
    (hF : pair.2.Coherent) (hterm : pair.2.currentTerm ≤ L.currentTerm)
    (ha : L.log.lastIncludedIndex < s) (hno : ¬ pair.2.Connects (L.sliceArgs s)) :
    let F' := (replicate peer pair).2
    Aims peer L (pair.2.log.getLength + 1) (replicate peer pair).1 ∧ F'.Coherent ∧
      F'.currentTerm = L.currentTerm ∧ F'.fullLog = pair.2.fullLog ∧ F'.log = pair.2.log ∧
      F'.commitIndex = pair.2.commitIndex := by
  intro F'
  obtain ⟨hnode, haims⟩ := h.slice_round hlead ha hterm
  obtain ⟨hheard, hfail, hlength⟩ := handleAppendEntries_rejected hterm hno
  obtain ⟨hlog, -, -, hindex, -⟩ := heard_frame pair.2 (L.sliceArgs s)
  obtain ⟨⟨hcoh, -⟩, hfull, hcurrent⟩ := evolves_hearLeader (T := False)
    (G := fun _ _ _ => True) hF L.replicaId (some L.selfUrl) hterm trivial trivial
  rw [hfail, if_neg Bool.false_ne_true, hlength] at haims
  have hsame : F' = pair.2.heard (L.sliceArgs s) := hnode.trans hheard
  rw [hsame]
  exact ⟨haims, hcoh, hcurrent, hfull, hlog, hindex⟩

/-- What lies before the commit index is kept. -/
theorem Evolves.kept {T : Prop} {F' : RaftNode} (hF : F.Coherent)
    (h : Evolves T (KeepsAll F.committed) F F') :
    F.commitIndex ≤ F'.commitIndex ∧ ∀ k < F.commitIndex, F'.fullLog[k]? = F.fullLog[k]? := by
  obtain ⟨hbegins, hlength⟩ := h.spans.last.holds
  rw [← h.coherent.commit] at hlength
  have hcommitted : F.committed.length = F.commitIndex := by
    unfold committed
    rw [List.length_take, min_eq_left hF.commit_le]
  refine ⟨hcommitted ▸ hlength, fun k hk => ?_⟩
  have hshort : k < F.committed.length := hk.trans_eq hcommitted.symm
  have hthere : F'.fullLog[k]? = some F.committed[k] :=
    (List.prefix_iff_getElem?.mp hbegins) k hshort
  have hhere : F.committed[k]? = F.fullLog[k]? := List.getElem?_take_of_lt hk
  rw [hthere, ← hhere, List.getElem?_eq_getElem hshort]

/-- The follower has committed the entry `e` at position `d`. -/
structure Spoiled (peer : String) (L : RaftNode) (d : ℕ) (e : LogEntry)
    (pair : RaftNode × RaftNode) : Prop where
  aims : ∃ s, 1 ≤ s ∧ Aims peer L s pair.1
  coherent : pair.2.Coherent
  term_le : pair.2.currentTerm ≤ L.currentTerm
  entry : pair.2.fullLog[d]? = some e
  committed : d < pair.2.commitIndex
  boundary_le : L.log.lastIncludedIndex ≤ pair.2.commitIndex

/-- No round takes it away. -/
theorem Spoiled.round {e : LogEntry} (hL : L.Coherent) (hlead : L.state = .leader)
    (h : Spoiled peer L d e pair) : Spoiled peer L d e (replicate peer pair) := by
  obtain ⟨s, hs, haims⟩ := h.aims
  have hholds := pair.2.holds_committed
  obtain ⟨haims', hterm, hev⟩ : (∃ s, 1 ≤ s ∧ Aims peer L s (replicate peer pair).1) ∧
      (replicate peer pair).2.currentTerm = L.currentTerm ∧
      ∃ T, Evolves T (KeepsAll pair.2.committed) pair.2 (replicate peer pair).2 := by
    by_cases ha : s ≤ L.log.lastIncludedIndex
    · obtain ⟨snapshot, hsnapshot, -, hindex, -⟩ := hL.boundarySnapshot (hs.trans ha)
      obtain ⟨hnode, hterm, hnext⟩ := haims.snapshot_round hlead ha h.term_le hsnapshot hindex
      refine ⟨⟨_, Nat.le_add_left _ _, hnext⟩, hterm, True, ?_⟩
      rw [hnode]
      refine (evolves_handleInstallSnapshot h.coherent hholds (fun _ => hholds) ?_).1
      intro _ hahead
      have hstale := h.boundary_le
      change pair.2.commitIndex < snapshot.lastIncludedIndex at hahead
      omega
    · have ha := Nat.not_le.mp ha
      obtain ⟨hnode, hnext⟩ := haims.slice_round hlead ha h.term_le
      have hes := hL.consecutive_nextSlice ha
      refine ⟨⟨_, ?_, hnext⟩, ?_, ?_⟩
      · split <;> omega
      · rw [hnode]
        exact (handleAppendEntries_term h.term_le).1
      · rw [hnode]
        have hfit : Op.Fits pair.2.committed pair.2 (.handle (.appendEntries (L.sliceArgs s))) :=
          hes
        exact ⟨_, evolves_run h.coherent hfit hholds⟩
  obtain ⟨T, hev⟩ := hev
  obtain ⟨hcommit, hkept⟩ := hev.kept h.coherent
  exact ⟨haims', hev.coherent, hterm.le, (hkept d h.committed).trans h.entry,
    h.committed.trans_le hcommit, h.boundary_le.trans hcommit⟩

/-- A spoiled pair stays spoiled, round after round. -/
theorem Spoiled.rounds {e : LogEntry} (hL : L.Coherent) (hlead : L.state = .leader)
    (h : Spoiled peer L d e pair) (k : ℕ) : Spoiled peer L d e ((replicate peer)^[k] pair) := by
  induction k generalizing pair with
  | zero => exact h
  | succ k ih => exact ih (h.round hL hlead)

/-- **A batch that ends too early** commits what lies behind it. -/
theorem spoiled_of_early (hL : L.Coherent) (hlead : L.state = .leader)
    (haims : Aims peer L s pair.1) (hF : pair.2.Coherent)
    (hterm : pair.2.currentTerm ≤ L.currentTerm) (ha : L.log.lastIncludedIndex < s)
    (h : Parts d pair.2.fullLog L.fullLog) (hcommit : pair.2.commitIndex ≤ d)
    (hearly : s - 1 + L.batchCap ≤ d) (hcommits : d < L.commitIndex) {e : LogEntry}
    (he : pair.2.fullLog[d]? = some e) : Spoiled peer L d e (replicate peer pair) := by
  have hlong := (List.getElem?_eq_some_iff.mp he).1
  obtain ⟨hsuccess, hcoh, hlog, hindex⟩ :=
    spliced_of_parts hF hL h hterm ha (by omega) hcommit
  obtain ⟨hnode, hnext⟩ := haims.slice_round hlead ha hterm
  have hcurrent := (handleAppendEntries_term
    (show pair.2.currentTerm ≤ (L.sliceArgs s).term from hterm)).1
  have hlength := hL.length_nextSlice ha
  have hsame : (pair.2.handleAppendEntries (L.sliceArgs s)).1.fullLog = pair.2.fullLog := by
    rcases hlog with ⟨-, hsame⟩ | ⟨hj, -⟩
    · exact hsame
    · omega
  rw [hsame, if_pos (hcommit.trans_lt hcommits)] at hindex
  rw [← hnode] at hcoh hsame hindex hcurrent
  have hbound := hL.boundary_le
  refine ⟨⟨_, ?_, hnext⟩, hcoh, hcurrent.le, hsame ▸ he, ?_, ?_⟩
  · rw [hsuccess, if_pos rfl]
    omega
  · omega
  · omega

/-! ## Which divergence is repaired -/

/-- A leader that has just been elected, and a follower of no later term.  Their logs match,
and agree as far as the follower has committed. -/
structure Diverged (peer : String) (leader follower : RaftNode) : Prop where
  leads : leader.state = .leader
  sound : leader.Coherent
  follows : follower.Coherent
  cursor : leader.nextIndex peer = some (leader.log.getLastIndex + 1)
  cap : 1 ≤ leader.batchCap
  term_le : follower.currentTerm ≤ leader.currentTerm
  positive : ∀ e ∈ follower.fullLog, 0 < e.term
  matching : LogMatching follower.fullLog leader.fullLog
  commit_le : follower.commitIndex ≤ leader.log.getLastIndex
  committed : follower.fullLog.take follower.commitIndex =
    leader.fullLog.take follower.commitIndex

/-- Nothing needs to be repaired; or the length that the follower reports is an index where
the logs agree, or one that the leader has compacted, and if the follower holds more than
they share, which the leader has committed, then the first batch from there reaches it. -/
def Repairable (leader follower : RaftNode) : Prop :=
  let d := agreement follower.fullLog leader.fullLog
  leader.log.getLastIndex ≤ d ∨
    (follower.log.getLength < leader.log.lastIncludedIndex ∨ follower.log.getLength ≤ d) ∧
      (follower.log.getLastIndex ≤ d ∨ leader.commitIndex ≤ d ∨
        d < max follower.log.getLength leader.log.lastIncludedIndex + leader.batchCap)

instance (leader follower : RaftNode) : Decidable (Repairable leader follower) := by
  unfold Repairable
  infer_instance

namespace Diverged

variable {leader follower : RaftNode}

/-- A new leader aims behind its own log. -/
theorem aims (h : Diverged peer leader follower) :
    Aims peer leader (leader.log.getLastIndex + 1) leader :=
  ⟨⟨leader.nextIndex, leader.matchIndex, rfl⟩, h.cursor⟩

/-- That is above its boundary. -/
theorem above (leader : RaftNode) :
    leader.log.lastIncludedIndex < leader.log.getLastIndex + 1 := by
  unfold RaftLog.getLastIndex
  omega

/-- What the follower has committed is in the leader's log. -/
theorem commit_le_agreement (h : Diverged peer leader follower) :
    follower.commitIndex ≤ agreement follower.fullLog leader.fullLog :=
  le_agreement h.follows.commit_le (h.sound.getLastIndex ▸ h.commit_le) h.committed

/-- **The first round** is rejected when the logs part before the leader's ends. -/
theorem first (h : Diverged peer leader follower)
    (hlt : agreement follower.fullLog leader.fullLog < leader.log.getLastIndex) :
    let F' := (replicate peer (leader, follower)).2
    Aims peer leader (follower.log.getLength + 1) (replicate peer (leader, follower)).1 ∧
      F'.Coherent ∧ F'.currentTerm = leader.currentTerm ∧ F'.fullLog = follower.fullLog ∧
      F'.log = follower.log ∧ F'.commitIndex = follower.commitIndex := by
  have hbound := h.follows.boundary_le.trans h.commit_le_agreement
  have hno := not_connects_of_parts h.follows h.sound h.positive h.matching.parts hbound
    (above leader) hlt
  exact @Aims.rejected_round leader peer _ (leader, follower) h.aims h.leads h.follows h.term_le
    (above leader) hno

/-- The follower's entry where the logs part stands in the way. -/
theorem not_repaired (h : Diverged peer leader follower)
    (hlt : agreement follower.fullLog leader.fullLog < leader.log.getLastIndex) {e : LogEntry}
    (he : follower.fullLog[agreement follower.fullLog leader.fullLog]? = some e) {s : ℕ}
    (haims : Aims peer leader s pair.1)
    (hentry : pair.2.fullLog[agreement follower.fullLog leader.fullLog]? = some e) :
    ¬ Repaired pair := by
  intro hrepaired
  have hlong : agreement follower.fullLog leader.fullLog < leader.fullLog.length :=
    h.sound.getLastIndex ▸ hlt
  have hat := List.getElem?_eq_getElem hlong
  unfold Repaired at hrepaired
  rw [haims.fullLog] at hrepaired
  have hthere : pair.2.fullLog[agreement follower.fullLog leader.fullLog]? = some _ :=
    (List.prefix_iff_getElem?.mp hrepaired) _ hlong
  rw [hentry] at hthere
  exact h.matching.parts.differs _ le_rfl e _ he hat
    (congrArg LogEntry.term (Option.some.inj hthere))

/-- **A length at which the logs differ** is tried again and again. -/
theorem stuck (h : Diverged peer leader follower)
    (hlt : agreement follower.fullLog leader.fullLog < leader.log.getLastIndex)
    (hlong : leader.log.lastIncludedIndex ≤ follower.log.getLength)
    (hdiffers : agreement follower.fullLog leader.fullLog < follower.log.getLength) (k : ℕ) :
    let pair := (replicate peer)^[k + 1] (leader, follower)
    Aims peer leader (follower.log.getLength + 1) pair.1 ∧ pair.2.Coherent ∧
      pair.2.currentTerm = leader.currentTerm ∧ pair.2.fullLog = follower.fullLog ∧
      pair.2.log = follower.log ∧ pair.2.commitIndex = follower.commitIndex := by
  induction k with
  | zero => exact h.first hlt
  | succ k ih =>
      obtain ⟨haims, hcoh, hterm, hfull, hlog, hcommit⟩ := ih
      rw [Function.iterate_succ_apply']
      generalize (replicate peer)^[k + 1] (leader, follower) = pair at *
      have hparts : Parts (agreement follower.fullLog leader.fullLog) pair.2.fullLog
          leader.fullLog := hfull ▸ h.matching.parts
      have hbound : pair.2.log.lastIncludedIndex ≤ agreement follower.fullLog leader.fullLog :=
        hlog ▸ h.follows.boundary_le.trans h.commit_le_agreement
      have hno := not_connects_of_parts hcoh h.sound (hfull ▸ h.positive) hparts hbound
        (Nat.lt_succ_of_le hlong) hdiffers
      obtain ⟨haims', hcoh', hterm', hfull', hlog', hcommit'⟩ :=
        haims.rejected_round h.leads hcoh hterm.le (Nat.lt_succ_of_le hlong) hno
      rw [hlog] at haims' hlog'
      exact ⟨haims', hcoh', hterm', hfull'.trans hfull, hlog', hcommit'.trans hcommit⟩

/-- **The second round** sends the snapshot when the length reported has been compacted. -/
theorem second (h : Diverged peer leader follower)
    (hlt : agreement follower.fullLog leader.fullLog < leader.log.getLastIndex)
    (hshort : follower.log.getLength < leader.log.lastIncludedIndex) :
    let d := agreement follower.fullLog leader.fullLog
    let pair := (replicate peer)^[2] (leader, follower)
    (∃ args, (replicate peer (leader, follower)).1.replicateRequest peer =
        some (.installSnapshot args)) ∧
      Aims peer leader (leader.log.lastIncludedIndex + 1) pair.1 ∧ pair.2.Coherent ∧
      pair.2.currentTerm = leader.currentTerm ∧
      Parts (max d leader.log.lastIncludedIndex) pair.2.fullLog leader.fullLog ∧
      pair.2.fullLog.length = max follower.fullLog.length leader.log.lastIncludedIndex ∧
      pair.2.commitIndex = max follower.commitIndex leader.log.lastIncludedIndex ∧
      (leader.log.lastIncludedIndex ≤ d → pair.2.fullLog = follower.fullLog) := by
  intro d pair
  obtain ⟨haims, hcoh, hterm, hfull, hlog, hcommit⟩ := h.first hlt
  obtain ⟨snapshot, hsnapshot, hwf, hindex, hentries⟩ :=
    h.sound.boundarySnapshot (Nat.zero_lt_of_lt hshort)
  obtain ⟨hnode, hterm', haims'⟩ :=
    haims.snapshot_round h.leads hshort hterm.le hsnapshot hindex
  have hparts : Parts d (replicate peer (leader, follower)).2.fullLog leader.fullLog :=
    hfull ▸ h.matching.parts
  obtain ⟨hcoh', hparts', hlength, hcommit', hsame⟩ := installed_of_parts hcoh h.sound hparts
    hterm.le (hcommit ▸ h.commit_le_agreement) hwf hindex hentries
  rw [← hnode] at hcoh' hparts' hlength hcommit' hsame
  rw [hfull] at hlength hsame
  rw [hcommit] at hcommit'
  exact ⟨⟨_, haims.sends_snapshot h.leads hshort hsnapshot⟩, haims', hcoh', hterm', hparts',
    hlength, hcommit', hsame⟩

/-- Otherwise it sends the entries behind the length reported. -/
theorem retreats_first (h : Diverged peer leader follower)
    (hlt : agreement follower.fullLog leader.fullLog < leader.log.getLastIndex)
    (hlow : follower.log.getLength < leader.log.lastIncludedIndex ∨
      follower.log.getLength ≤ agreement follower.fullLog leader.fullLog) :
    Retreats peer (leader, follower) := by
  intro args hargs _
  rw [h.aims.sends_slice h.leads (above leader)] at hargs
  obtain rfl : leader.sliceArgs (leader.log.getLastIndex + 1) = args :=
    Request.appendEntries.inj (Option.some.inj hargs)
  by_cases hshort : follower.log.getLength < leader.log.lastIncludedIndex
  · exact Or.inl (h.second hlt hshort).1
  · have hlow := hlow.resolve_left hshort
    have haims := (h.first hlt).1
    have hsends := haims.sends_slice h.leads (Nat.lt_succ_of_le (Nat.not_lt.mp hshort))
    refine Or.inr ⟨_, hsends, ?_⟩
    show follower.log.getLength + 1 - 1 < leader.log.getLastIndex + 1 - 1
    omega

/-- **What is repairable is repaired,** and no rejection is followed by a later attempt. -/
theorem repairs (h : Diverged peer leader follower) (hrep : Repairable leader follower) :
    (∃ k, Repaired ((replicate peer)^[k] (leader, follower))) ∧
      ∀ k, Retreats peer ((replicate peer)^[k] (leader, follower)) := by
  have hlast := h.sound.getLastIndex
  have hlast' := h.follows.getLastIndex
  have hcommitted := h.sound.commit_le
  have hcap := h.cap
  unfold Repairable at hrep
  generalize hd : agreement follower.fullLog leader.fullLog = d at hrep
  have hparts : Parts d follower.fullLog leader.fullLog := hd ▸ h.matching.parts
  have hcommit : follower.commitIndex ≤ d := hd ▸ h.commit_le_agreement
  by_cases hdone : leader.log.getLastIndex ≤ d
  · have hconverges : Converges peer leader (leader.log.getLastIndex + 1) d (leader, follower) :=
      ⟨h.aims, h.follows, h.term_le, above leader, hdone, hparts, hcommit, by omega⟩
    exact ⟨hconverges.repairs h.sound h.leads hcap, hconverges.retreats h.sound h.leads⟩
  · obtain ⟨hlow, hsafe⟩ := hrep.resolve_left hdone
    have hlt : agreement follower.fullLog leader.fullLog < leader.log.getLastIndex := by omega
    have hfirst := h.retreats_first hlt (hd ▸ hlow)
    by_cases hshort : follower.log.getLength < leader.log.lastIncludedIndex
    · obtain ⟨⟨args', hsends⟩, haims, hcoh, hterm, hparts', hlength, hcommit', -⟩ :=
        h.second hlt hshort
      have hconverges : Converges peer leader (leader.log.lastIncludedIndex + 1)
          (max d leader.log.lastIncludedIndex) ((replicate peer)^[2] (leader, follower)) := by
        refine ⟨haims, hcoh, hterm.le, Nat.lt_succ_self _, Nat.le_max_right .., hd ▸ hparts',
          ?_, ?_⟩
        · rw [hcommit']
          omega
        · rw [hlength]
          omega
      refine ⟨?_, fun k => ?_⟩
      · obtain ⟨k, hk⟩ := hconverges.repairs h.sound h.leads hcap
        exact ⟨k + 2, hk⟩
      · match k with
        | 0 => exact hfirst
        | 1 =>
            intro args hargs
            have hrequest : some (Request.installSnapshot args') = some (.appendEntries args) :=
              hsends.symm.trans hargs
            cases hrequest
        | k + 2 => exact hconverges.retreats h.sound h.leads k
    · have hlow := hlow.resolve_left hshort
      obtain ⟨haims, hcoh, hterm, hfull, hlog, hcommit'⟩ := h.first hlt
      have hconverges : Converges peer leader (follower.log.getLength + 1) d
          (replicate peer (leader, follower)) := by
        refine ⟨haims, hcoh, hterm.le, by omega, hlow, hfull ▸ hparts, hcommit' ▸ hcommit, ?_⟩
        rw [hfull]
        omega
      refine ⟨?_, fun k => ?_⟩
      · obtain ⟨k, hk⟩ := hconverges.repairs h.sound h.leads hcap
        exact ⟨k + 1, hk⟩
      · cases k with
        | zero => exact hfirst
        | succ k => exact hconverges.retreats h.sound h.leads k

/-- **What is not, never is.** -/
theorem never (h : Diverged peer leader follower) (hno : ¬ Repairable leader follower) (k : ℕ) :
    ¬ Repaired ((replicate peer)^[k] (leader, follower)) := by
  have hlast := h.sound.getLastIndex
  have hlast' := h.follows.getLastIndex
  have hlength : follower.log.getLength ≤ follower.log.getLastIndex := Nat.le_add_left _ _
  unfold Repairable at hno
  have hlt : agreement follower.fullLog leader.fullLog < leader.log.getLastIndex := by
    dsimp only at hno
    omega
  have hlong : agreement follower.fullLog leader.fullLog < follower.fullLog.length := by
    dsimp only at hno
    omega
  obtain ⟨e, he⟩ : ∃ e,
      follower.fullLog[agreement follower.fullLog leader.fullLog]? = some e :=
    ⟨_, List.getElem?_eq_getElem hlong⟩
  by_cases hlow : follower.log.getLength < leader.log.lastIncludedIndex ∨
      follower.log.getLength ≤ agreement follower.fullLog leader.fullLog
  · -- a batch commits the entry where the logs part
    obtain ⟨hearly, hcommits⟩ : max follower.log.getLength leader.log.lastIncludedIndex +
        leader.batchCap ≤ agreement follower.fullLog leader.fullLog ∧
        agreement follower.fullLog leader.fullLog < leader.commitIndex := by
      dsimp only at hno
      omega
    have hcommit := h.commit_le_agreement
    by_cases hshort : follower.log.getLength < leader.log.lastIncludedIndex
    · obtain ⟨-, haims, hcoh, hterm, hparts, -, hindex, hsame⟩ := h.second hlt hshort
      have hsame := hsame (by omega)
      rw [hsame, max_eq_left (by omega)] at hparts
      have hspoiled := spoiled_of_early h.sound h.leads haims hcoh hterm.le (Nat.lt_succ_self _)
        (hsame ▸ hparts) (by omega) (by omega) hcommits (by rw [hsame]; exact he)
      match k with
      | 0 => exact h.not_repaired hlt he h.aims he
      | 1 =>
          obtain ⟨haims', -, -, hfull, -⟩ := h.first hlt
          have hentry := (congrArg (·[_]?) hfull).trans he
          exact h.not_repaired hlt he haims' hentry
      | 2 => exact h.not_repaired hlt he haims (by rw [hsame]; exact he)
      | k + 3 =>
          have hlater := hspoiled.rounds h.sound h.leads k
          obtain ⟨s, -, haims'⟩ := hlater.aims
          exact h.not_repaired hlt he haims' hlater.entry
    · obtain ⟨haims, hcoh, hterm, hfull, hlog, hindex⟩ := h.first hlt
      have hspoiled := spoiled_of_early h.sound h.leads haims hcoh hterm.le (by omega)
        (hfull ▸ h.matching.parts) (by omega) (by omega) hcommits (by rw [hfull]; exact he)
      match k with
      | 0 => exact h.not_repaired hlt he h.aims he
      | 1 =>
          have hentry := (congrArg (·[_]?) hfull).trans he
          exact h.not_repaired hlt he haims hentry
      | k + 2 =>
          have hlater := hspoiled.rounds h.sound h.leads k
          obtain ⟨s, -, haims'⟩ := hlater.aims
          exact h.not_repaired hlt he haims' hlater.entry
  · obtain ⟨hcompacted, hdiffers⟩ := not_or.mp hlow
    cases k with
    | zero => exact h.not_repaired hlt he h.aims he
    | succ k =>
        obtain ⟨haims, -, -, hfull, -⟩ :=
          h.stuck hlt (Nat.not_lt.mp hcompacted) (Nat.not_le.mp hdiffers) k
        exact h.not_repaired hlt he haims (by rw [hfull]; exact he)

end Diverged

/-- **Log repair.**  A leader that keeps replicating to one follower brings it to the end of
its own log, with every rejected attempt followed by an earlier one or by the snapshot, if
and only if the divergence is repairable. -/
theorem log_repair {leader follower : RaftNode} (h : Diverged peer leader follower) :
    ((∃ k, Repaired ((replicate peer)^[k] (leader, follower))) ∧
      ∀ k, Retreats peer ((replicate peer)^[k] (leader, follower))) ↔
    Repairable leader follower := by
  constructor
  · rintro ⟨⟨k, hk⟩, -⟩
    by_contra hno
    exact h.never hno k hk
  · exact h.repairs

/-- A leader of term 3 with one entry, of term 2. -/
def elected : RaftNode :=
  let leader := (construct ⟨"a", ["b"], "a", 64, 64⟩
    (.fresh .file)).becomeCandidate.becomeCandidate.becomeLeader
  (leader.clientAppend (.dot "y" "board")).becomeCandidate.becomeLeader

/-- A follower with an entry of term 1 that nobody else has. -/
def deposed : RaftNode :=
  let leader := (construct ⟨"b", ["a"], "b", 64, 64⟩ (.fresh .file)).becomeCandidate.becomeLeader
  (leader.clientAppend (.dot "x" "board")).becomeFollower 1 none none

/-- The elected leader is coherent. -/
theorem coherent_elected : elected.Coherent := by
  have hexec : Runs.exec (fun n step => some (Step.run ⟨"a", ["b"], "a", 64, 64⟩ n step))
      (construct ⟨"a", ["b"], "a", 64, 64⟩ (.fresh .file))
      [.operate .becomeCandidate, .operate .becomeCandidate, .operate .becomeLeader,
        .operate (.clientAppend (.dot "y" "board")), .operate .becomeCandidate,
        .operate .becomeLeader] = some elected := rfl
  refine (sure_endures (.of_exec hexec ?_)).coherent
  exact .cons trivial rfl (.cons trivial rfl (.cons trivial rfl (.cons trivial rfl
    (.cons trivial rfl (.cons trivial rfl .nil)))))

/-- So is the follower that was deposed. -/
theorem coherent_deposed : deposed.Coherent := by
  have hexec : Runs.exec (fun n step => some (Step.run ⟨"b", ["a"], "b", 64, 64⟩ n step))
      (construct ⟨"b", ["a"], "b", 64, 64⟩ (.fresh .file))
      [.operate .becomeCandidate, .operate .becomeLeader,
        .operate (.clientAppend (.dot "x" "board")), .operate (.becomeFollower 1 none none)] =
      some deposed := rfl
  refine (sure_endures (.of_exec hexec ?_)).coherent
  exact .cons trivial rfl (.cons trivial rfl (.cons trivial rfl (.cons trivial rfl .nil)))

/-- They have diverged. -/
theorem diverged_deposed : Diverged "b" elected deposed where
  leads := rfl
  sound := coherent_elected
  follows := coherent_deposed
  cursor := rfl
  cap := by decide
  term_le := by decide
  positive := by decide
  matching := by
    have hlog : elected.fullLog = [⟨1, 2, .dot "y" "board"⟩] := by decide
    have hlog' : deposed.fullLog = [⟨1, 1, .dot "x" "board"⟩] := by decide
    rw [hlog, hlog']
    intro k e e' he he' hterm
    cases k with
    | zero =>
        obtain rfl := Option.some.inj he
        obtain rfl := Option.some.inj he'
        cases hterm
    | succ k => cases he
  commit_le := by decide
  committed := by decide

/-- A wiped follower is brought to the end of the log. -/
theorem log_repair_wiped :
    ∃ k, Repaired ((replicate "b")^[k]
      (elected, construct ⟨"b", ["a"], "b", 64, 64⟩ (.fresh .file))) := by
  have hdiverged : Diverged "b" elected
      (construct ⟨"b", ["a"], "b", 64, 64⟩ (.fresh .file)) :=
    { leads := rfl
      sound := coherent_elected
      follows := (sure_fresh _).coherent
      cursor := rfl
      cap := by decide
      term_le := by decide
      positive := by decide
      matching := fun k e e' he => by
        rw [show (construct ⟨"b", ["a"], "b", 64, 64⟩ (.fresh .file)).fullLog = [] from rfl] at he
        cases he
      commit_le := by decide
      committed := by decide }
  exact ((log_repair hdiverged).mpr (by decide)).1

/-- **A repair that never ends.**  Both logs have one entry, of different terms.  The first
attempt begins behind index 1 and is rejected, and so is every other one: the follower
reports the length 1, so each begins behind index 1 again. -/
theorem log_repair_stuck :
    Diverged "b" elected deposed ∧ deposed.state = .follower ∧
      (∀ k, ¬ Repaired ((replicate "b")^[k] (elected, deposed))) ∧
      ¬ Retreats "b" (elected, deposed) := by
  refine ⟨diverged_deposed, rfl, diverged_deposed.never (by decide), fun hretreats => ?_⟩
  have hrequest : elected.replicateRequest "b" = some (.appendEntries (elected.sliceArgs 2)) := rfl
  have hnext : (replicate "b" (elected, deposed)).1.replicateRequest "b" =
      some (.appendEntries (elected.sliceArgs 2)) := by decide
  rcases hretreats _ hrequest (by decide) with ⟨args, hargs⟩ | ⟨args, hargs, hlt⟩
  · cases hnext.symm.trans hargs
  · obtain rfl := Request.appendEntries.inj (Option.some.inj (hnext.symm.trans hargs))
    exact absurd hlt (lt_irrefl _)

end RaftNode

end QuorumCanvas
