import Mathlib.Data.List.Perm.Subperm
import QuorumCanvas.BodyLimit
import QuorumCanvas.StoredSnapshots

/-!
# Requests that fit because little was drawn

A log holds no stroke more often than clients have written it, so the size of a batch is bounded by
those of as many written strokes as it may hold entries, and the size of a snapshot by those of
all written strokes (`bodies_fit`).  Snapshots count only once some replica has enough entries to
take one.
-/

namespace Json

/-- Greater numbers have no fewer digits. -/
theorem digits_mono {m n : ℕ} (h : m ≤ n) : digits m ≤ digits n := by
  unfold digits
  refine (Nat.length_toDigits_le_iff (by decide) Nat.length_toDigits_pos).mpr (h.trans_lt ?_)
  exact (Nat.length_toDigits_le_iff (by decide) Nat.length_toDigits_pos).mp le_rfl

/-- Texts that are as many, and each no longer. -/
theorem joined_mono {α : Type} {f g : α → ℕ} (xs : List α) (h : ∀ x ∈ xs, f x ≤ g x) :
    joined (xs.map f) ≤ joined (xs.map g) := by
  unfold joined
  simp only [List.map_map]
  exact Nat.sub_le_sub_right (List.sum_le_sum fun x hx => Nat.succ_le_succ (h x hx)) 1

/-- Texts that are among others. -/
theorem sum_le_of_subperm {α : Type} {xs ys : List α} (h : xs.Subperm ys) (f : α → ℕ) :
    (xs.map f).sum ≤ (ys.map f).sum := by
  obtain ⟨zs, hperm, hsub⟩ := h
  rw [← (hperm.map f).sum_eq]
  exact (hsub.map f).sum_le_sum fun _ _ => Nat.zero_le _

end Json

namespace QuorumCanvas

open Json (size bytes quote joined digits)
open Boards (eventsOf)
open RaftNode (recordEvents boardsRecord Request)

/-! ## The boards of a snapshot -/

/-- Every board of a snapshot has events, all of them its own. -/
def Snapshot.Grouped (s : Snapshot) : Prop :=
  ∀ b ∈ s.boards, b.1 ≠ "__proto__" ∧ b.2 ≠ [] ∧ ∀ e ∈ b.2, e.boardId = b.1

/-- A board is there because of an event. -/
theorem Boards.eventsOf_ne_nil {boards : Boards Stroke} (events : List Stroke) {boardId : String}
    (h : boardId ∈ (boards.replay events).map Prod.fst) :
    boardId ∈ boards.map Prod.fst ∨ eventsOf events boardId ≠ [] := by
  induction events generalizing boards with
  | nil => exact Or.inl h
  | cons event events ih =>
      rw [Boards.replay_cons] at h
      by_cases heq : event.boardId = boardId
      · right
        exact List.ne_nil_of_mem (List.mem_filter.mpr ⟨List.mem_cons_self, by
          simpa [BoardEvent.boardId] using heq⟩)
      · rcases ih h with hold | hnew
        · left
          unfold Boards.applyBoardEvent at hold
          rw [OrderedMap.keys_set] at hold
          split at hold
          · exact hold
          · rcases List.mem_append.mp hold with hold | hnew
            · exact hold
            · exact absurd (List.mem_singleton.mp hnew).symm heq
        · right
          obtain ⟨e, he⟩ := List.exists_mem_of_ne_nil _ hnew
          exact List.ne_nil_of_mem (List.mem_filter.mpr
            ⟨List.mem_cons_of_mem _ (List.mem_of_mem_filter he), (List.mem_filter.mp he).2⟩)

/-- Every board of the record has strokes, and its own only. -/
theorem grouped_boardsRecord (events : List Stroke) {b : String × List Stroke}
    (hb : b ∈ boardsRecord (Boards.replay [] events)) :
    b.1 ≠ "__proto__" ∧ b.2 ≠ [] ∧ ∀ e ∈ b.2, e.boardId = b.1 := by
  have hkeys := Boards.keysDistinct_replay [] OrderedMap.keysDistinct_nil events
  have hfold := foldl_assign (Boards.replay [] events) []
    (by simpa [OrderedMap.KeysDistinct] using hkeys)
  unfold boardsRecord at hb
  rw [hfold, List.nil_append] at hb
  obtain ⟨⟨boardId, state⟩, hmem, rfl⟩ := List.mem_map.mp hb
  obtain ⟨hmem, hproto⟩ := List.mem_filter.mp hmem
  have hevents : state.events = eventsOf events boardId := by
    rw [← Boards.events_board_replay events boardId, Boards.board_of_mem hkeys hmem]
  refine ⟨of_decide_eq_true hproto, ?_, fun e he => ?_⟩
  · rw [hevents]
    refine (Boards.eventsOf_ne_nil events (List.mem_map.mpr ⟨_, hmem, rfl⟩)).resolve_left ?_
    exact List.not_mem_nil
  · rw [hevents] at he
    exact of_decide_eq_true (List.mem_filter.mp he).2

/-- A stroke in a snapshot, with the name of its board. -/
def strokeWeight (stroke : Stroke) : ℕ := bytes (quote stroke.boardId) + 3 + size stroke.toJson

/-- The boards of a snapshot are no larger than their strokes, each with its board's name. -/
theorem Snapshot.Grouped.joined_le {s : Snapshot} (h : s.Grouped) :
    joined (s.boards.map boardWeight) ≤ joined ((recordEvents s.boards).map strokeWeight) := by
  have hsum : ∀ boards : Record, (∀ b ∈ boards, b.2 ≠ [] ∧ ∀ e ∈ b.2, e.boardId = b.1) →
      ((boards.map boardWeight).map (· + 1)).sum ≤
        (((recordEvents boards).map strokeWeight).map (· + 1)).sum := by
    intro boards
    induction boards with
    | nil => exact fun _ => le_rfl
    | cons b boards ih =>
        intro hall
        obtain ⟨hne, hown⟩ := hall b List.mem_cons_self
        have hrest := ih fun b' hb' => hall b' (List.mem_cons_of_mem _ hb')
        have hboard : boardWeight b + 1 ≤ ((b.2.map strokeWeight).map (· + 1)).sum := by
          obtain ⟨e, events, heq⟩ := List.exists_cons_of_ne_nil hne
          have hle : ∀ events : List Stroke,
              ((events.map fun s => size s.toJson).map (· + 1)).sum ≤
                ((events.map strokeWeight).map (· + 1)).sum := by
            intro events
            simp only [List.map_map]
            refine List.sum_le_sum fun x _ => ?_
            simp only [Function.comp_apply, strokeWeight]
            omega
          have hown := hown e (heq ▸ List.mem_cons_self)
          have hle := hle events
          simp only [boardWeight, heq, List.map_cons, joined, List.sum_cons, strokeWeight, hown]
          omega
        have hevents : recordEvents (b :: boards) = b.2 ++ recordEvents boards := rfl
        rw [hevents, List.map_append, List.map_append, List.sum_append, List.map_cons,
          List.map_cons, List.sum_cons]
        omega
  exact Nat.sub_le_sub_right (hsum s.boards fun b hb => (h b hb).2) 1

/-- The strokes of a snapshot are among those it stands for. -/
theorem Snapshot.Grouped.subperm {C : LogEntry → Prop} {s : Snapshot} (h : s.Grouped)
    (hkept : KeptSnapshot C (· ≠ "__proto__") s) :
    (recordEvents s.boards).Subperm (strokesOf s.covered) := by
  refine List.subperm_iff_count.mpr fun stroke => ?_
  have hcount : ∀ strokes : List Stroke,
      (eventsOf strokes stroke.boardId).count stroke = strokes.count stroke :=
    fun strokes => List.count_filter (by simp [BoardEvent.boardId])
  by_cases hproto : stroke.boardId = "__proto__"
  · have hnone : stroke ∉ recordEvents s.boards := by
      intro hmem
      obtain ⟨b, hb, hin⟩ := List.mem_flatMap.mp hmem
      obtain ⟨hname, -, hown⟩ := h b hb
      exact hname ((hown stroke hin).symm.trans hproto)
    rw [List.count_eq_zero.mpr hnone]
    exact Nat.zero_le _
  · rw [← hcount, hkept.boards _ hproto, hcount]

namespace Cluster

variable {cfg : Config} {c : Cluster} {es : List Event}

/-! ## What a run has written -/

/-- A stroke is written in a turn that runs or is cut. -/
theorem Event.of_stroke? {e : Event} {stroke : Stroke} (h : e.stroke? = some stroke) :
    ∃ a, e = .act (.clientWrite a stroke) ∨ ∃ calls, e = .crash (.clientWrite a stroke) calls := by
  unfold Event.stroke? at h
  split at h
  · obtain rfl := Option.some.inj h
    exact ⟨_, Or.inl rfl⟩
  · obtain rfl := Option.some.inj h
    exact ⟨_, Or.inr ⟨_, rfl⟩⟩
  · cases h

/-- The strokes that clients write in the course of the events. -/
def drawn (es : List Event) : List Stroke := es.filterMap Event.stroke?

/-- The entries of all logs, files and messages are made of what clients write, one of each
write. -/
theorem exists_made (h : Runs.exec (next cfg) (.init cfg) es = some c) :
    ∃ made : List LogEntry, made.map LogEntry.stroke = drawn es ∧
      Local cfg (KeptNode (· ∈ made) (· ≠ "__proto__")) (KeptRequest (· ∈ made) (· ≠ "__proto__"))
        (KeptReply (· ∈ made) (· ≠ "__proto__")) c := by
  have hinv : ∀ made : List LogEntry, LocalInvariant cfg _ _ _ _ _ := fun made =>
    kept_localInvariant (C := (· ∈ made)) (B := (· ≠ "__proto__")) (fun h => absurd rfl h) cfg
  induction es using List.reverseRecOn generalizing c with
  | nil =>
      obtain rfl := Option.some.inj h
      exact ⟨[], rfl, (hinv []).init keptFiles_fresh⟩
  | append_singleton es e ih =>
      rw [Runs.exec_append] at h
      obtain ⟨c₁, hc₁, hstep⟩ := Option.bind_eq_some_iff.mp h
      obtain ⟨c', hnext, heq⟩ := Option.bind_eq_some_iff.mp hstep
      obtain rfl := Option.some.inj heq
      obtain ⟨made, hmade, hlocal⟩ := ih hc₁
      have hdrawn : drawn (es ++ [e]) = drawn es ++ (e.stroke?).toList := by
        unfold drawn
        rw [List.filterMap_append, List.filterMap_cons, List.filterMap_nil]
        cases e.stroke? <;> rfl
      have hgrow : ∀ more : List LogEntry, made ⊆ more → (∀ a stroke,
          (e = .act (.clientWrite a stroke) ∨ ∃ calls, e = .crash (.clientWrite a stroke) calls) →
          (c₁.replicas a).node.beginTurn.clientEntry stroke ∈ more) →
          Local cfg (KeptNode (· ∈ more) (· ≠ "__proto__"))
            (KeptRequest (· ∈ more) (· ≠ "__proto__"))
            (KeptReply (· ∈ more) (· ≠ "__proto__")) c' := by
        intro more hsub hwrite
        have hold := hlocal.mono (fun _ => KeptNode.mono hsub) (fun _ => KeptRequest.mono hsub)
          (fun _ => KeptReply.mono hsub)
        exact (hinv more).next hold hwrite hnext
      rw [hdrawn]
      cases hstroke : e.stroke? with
      | none =>
          refine ⟨made, by simp [hmade], hgrow made (List.Subset.refl _) ?_⟩
          rintro a stroke (rfl | ⟨calls, rfl⟩) <;> cases hstroke
      | some stroke =>
          obtain ⟨a, ha⟩ := Event.of_stroke? hstroke
          let entry := (c₁.replicas a).node.beginTurn.clientEntry stroke
          refine ⟨made ++ [entry], ?_, hgrow _ (List.subset_append_left _ _) fun b stroke' hb => ?_⟩
          · rw [List.map_append, hmade]
            rfl
          · obtain ⟨rfl, rfl⟩ : b = a ∧ stroke' = stroke := by
              rcases ha with rfl | ⟨calls, rfl⟩ <;> rcases hb with hb | ⟨calls', hb⟩ <;>
                cases hb <;> exact ⟨rfl, rfl⟩
            exact List.mem_append_right _ (List.mem_singleton_self _)

/-- The snapshots of a run are grouped, and cover as much as some replica waits for. -/
def Due (cfg : Config) (s : Snapshot) : Prop :=
  s.Grouped ∧ ∃ b ∈ cfg.members, (cfg.params b).snapshotThreshold ≤ s.lastIncludedIndex

/-- Snapshots are taken at due commit indices. -/
theorem makes_due (cfg : Config) :
    Makes (fun k => ∃ b ∈ cfg.members, (cfg.params b).snapshotThreshold = k) (Due cfg) := by
  intro n hn hlong
  constructor
  · obtain ⟨events, hboards⟩ := hn.boards
    intro b hb
    have hb : b ∈ boardsRecord n.boards := hb
    rw [hboards] at hb
    exact grouped_boardsRecord events hb
  · obtain ⟨b, hb, heq⟩ := hn.threshold
    exact ⟨b, hb, heq.le.trans hlong⟩

/-- So are those on file, in every run. -/
theorem due_reach (h : Runs.exec (next cfg) (.init cfg) es = some c) {a : String}
    (ha : a ∈ cfg.members) : SnapshotFile (Due cfg) (c.replicas a).node.persistence := by
  have hI := stores_localInvariant (makes_due cfg) cfg fun a ha => ⟨a, ha, rfl⟩
  have hinit : ∀ backend, SnapshotFile (Due cfg) (.fresh backend) := fun _ s hs => by cases hs
  exact ((hI.reach (fun _ _ _ _ _ _ => trivial) (hI.init hinit)
    (Runs.Reach.of_exec_any h)).nodes a ha).2

end Cluster

/-! ## Requests that fit -/

/-- With numbers of at most `d` digits, what a leader can build out of `strokes` stays below the
limit: out of as many as a batch holds, and out of all of them once they suffice for a
snapshot. -/
structure Modest (cfg : Config) (n : RaftNode) (d : ℕ) (strokes : List Stroke) : Prop where
  batch : ∀ batch : List Stroke, batch.Subperm strokes → batch.length ≤ n.batchCap →
    95 + 5 * d + bytes (quote n.replicaId) + bytes (quote n.selfUrl) +
      joined (batch.map fun stroke => 28 + 2 * d + size stroke.toJson) ≤ RaftNode.bodyLimit
  snapshot : (∃ b ∈ cfg.members, (cfg.params b).snapshotThreshold ≤ strokes.length) →
    74 + 3 * d + bytes (quote n.replicaId) + joined (strokes.map strokeWeight) ≤
      RaftNode.bodyLimit

/-- The term of a leader, and the index it has next for a peer, have at most `d` digits. -/
structure Brief (n : RaftNode) (peer : String) (d : ℕ) : Prop where
  term : digits n.currentTerm ≤ d
  next : ∀ i, n.nextIndex peer = some i → digits i ≤ d

section Fits

variable {cfg : Config} {n : RaftNode} {made : List LogEntry} {strokes : List Stroke} {d : ℕ}
  (hn : n.Coherent) (hmade : made.map LogEntry.stroke = strokes)
  (hkept : KeptNode (· ∈ made) (· ≠ "__proto__") n)

include hn hmade hkept

/-- The entries of a log were written, each by a write of its own. -/
theorem subperm_fullLog : (n.fullLog.map LogEntry.stroke).Subperm strokes := by
  rw [← hmade]
  have hperm : n.fullLog.Subperm made := by
    refine List.Nodup.subperm ?_ fun e he => ?_
    · rw [List.nodup_iff_getElem?_ne_getElem?]
      intro i j hij hj heq
      have hi := List.getElem?_eq_getElem (hij.trans hj)
      have h₁ := hn.inOrder i _ hi
      have h₂ := hn.inOrder j _ (heq ▸ hi)
      omega
    · rcases List.mem_append.mp he with hcovered | hlog
      · unfold Persistence.covered at hcovered
        cases hs : n.persistence.loadSnapshot with
        | none =>
            rw [hs] at hcovered
            cases hcovered
        | some s =>
            rw [hs] at hcovered
            obtain ⟨x, hx, rfl⟩ := List.mem_map.mp hcovered
            exact (hkept.files.snapshot s hs).entries x hx
      · rw [← hn.log] at hlog
        exact hkept.log e hlog
  obtain ⟨entries, hsame, hsub⟩ := hperm
  exact ⟨entries.map LogEntry.stroke, hsame.map _, hsub.map _⟩

/-- The log has an entry for each stroke at most. -/
theorem length_fullLog_le : n.fullLog.length ≤ strokes.length := by
  have hle := (subperm_fullLog hn hmade hkept).length_le
  rwa [List.length_map] at hle

variable {peer : String} (hbrief : Brief n peer d) (hcount : digits (strokes.length + 1) ≤ d)
  (hterms : ∀ e ∈ n.fullLog, e.term ≤ n.currentTerm)

include hbrief hcount hterms

omit hn hmade hkept hcount in
/-- Its last term is not too long. -/
theorem digits_lastTerm_le {k : ℕ} : digits (Ledger.lastTerm (n.fullLog.take k)) ≤ d := by
  refine (Json.digits_mono ?_).trans hbrief.term
  unfold Ledger.lastTerm
  cases hlast : (n.fullLog.take k).getLast? with
  | none => exact Nat.zero_le _
  | some e => exact hterms e (List.mem_of_mem_take (List.mem_of_getLast? hlast))

omit hbrief hterms in
/-- Neither are its indices. -/
theorem digits_index_le {k : ℕ} (hk : k ≤ n.fullLog.length + 1) : digits k ≤ d := by
  have hle := length_fullLog_le hn hmade hkept
  exact (Json.digits_mono (hk.trans (Nat.succ_le_succ hle))).trans hcount

/-- A batch fits. -/
theorem batch_le (hmodest : Modest cfg n d strokes) {nextIdx : ℕ}
    (hnext : (n.nextIndex peer).getD (n.log.getLastIndex + 1) = nextIdx)
    (habove : n.log.lastIncludedIndex < nextIdx) :
    95 + digits n.currentTerm + bytes (quote n.replicaId) + bytes (quote n.selfUrl) +
      digits (nextIdx - 1) + digits (n.log.getTermAt (nextIdx - 1)) + digits n.commitIndex +
      joined (((n.log.getEntriesFrom nextIdx).take n.batchCap).map LogEntry.weight) ≤
        RaftNode.bodyLimit := by
  have hindex : digits (nextIdx - 1) ≤ d := by
    refine (Json.digits_mono (Nat.sub_le _ _)).trans ?_
    cases hi : n.nextIndex peer with
    | none =>
        rw [hi, Option.getD_none, hn.getLastIndex] at hnext
        exact digits_index_le hn hmade hkept hcount hnext.ge
    | some i =>
        rw [hi, Option.getD_some] at hnext
        exact hnext ▸ hbrief.next i hi
  have hprev : digits (n.log.getTermAt (nextIdx - 1)) ≤ d := by
    rcases Nat.lt_or_ge n.fullLog.length (nextIdx - 1) with hover | hle
    · have hboundary := hn.boundary_le.trans hn.commit_le
      unfold RaftLog.getTermAt
      rw [if_neg (by omega), RaftLog.getEntry_eq_none.mpr (Or.inr (hn.getLastIndex ▸ hover))]
      exact (Json.digits_mono (Nat.zero_le _)).trans hbrief.term
    · rw [hn.getTermAt (by omega) hle]
      exact digits_lastTerm_le hbrief hterms
  have hcommit : digits n.commitIndex ≤ d :=
    digits_index_le hn hmade hkept hcount (hn.commit_le.trans (Nat.le_succ _))
  -- the entries are some of the log, so their strokes are some of those written
  have hsub : ((n.log.getEntriesFrom nextIdx).take n.batchCap).Sublist n.fullLog := by
    refine (List.take_sublist _ _).trans ((List.drop_sublist _ _).trans ?_)
    rw [hn.entries]
    exact List.drop_sublist _ _
  have hbatch := hmodest.batch
    (((n.log.getEntriesFrom nextIdx).take n.batchCap).map LogEntry.stroke)
    ((hsub.map _).subperm.trans (subperm_fullLog hn hmade hkept))
    (by rw [List.length_map, List.length_take]; exact Nat.min_le_left _ _)
  have hweight : joined (((n.log.getEntriesFrom nextIdx).take n.batchCap).map LogEntry.weight) ≤
      joined ((((n.log.getEntriesFrom nextIdx).take n.batchCap).map LogEntry.stroke).map
        fun stroke => 28 + 2 * d + size stroke.toJson) := by
    rw [List.map_map]
    refine Json.joined_mono _ fun e he => ?_
    have hmem := hsub.subset he
    obtain ⟨k, hk⟩ := List.getElem?_of_mem hmem
    have hlt := (List.getElem?_eq_some_iff.mp hk).1
    have hindex : digits e.index ≤ d := by
      rw [hn.inOrder k e hk]
      exact digits_index_le hn hmade hkept hcount (by omega)
    have hterm := (Json.digits_mono (hterms e hmem)).trans hbrief.term
    show 28 + digits e.index + digits e.term + size e.stroke.toJson ≤
      28 + 2 * d + size e.stroke.toJson
    omega
  have hterm := hbrief.term
  omega

/-- A snapshot fits. -/
theorem snapshot_le (hmodest : Modest cfg n d strokes) {s : Snapshot}
    (hs : n.persistence.loadSnapshot = some s) (hdue : Cluster.Due cfg s) :
    74 + digits n.currentTerm + bytes (quote n.replicaId) + digits s.lastIncludedIndex +
      digits s.lastIncludedTerm + joined (s.boards.map boardWeight) ≤ RaftNode.bodyLimit := by
  obtain ⟨hgrouped, b, hb, hlong⟩ := hdue
  have hwell := hn.kept.snapshot s hs
  have hcovered : n.persistence.covered = s.entries := by rw [Persistence.covered, hs]; rfl
  have hfront : s.entries <+: n.fullLog := ⟨_, by rw [← hcovered]; rfl⟩
  have hentries : s.entries = n.fullLog.take s.entries.length :=
    List.prefix_iff_eq_take.mp hfront
  have hlength := hwell.boundary ▸ hfront.length_le
  have hindex : digits s.lastIncludedIndex ≤ d :=
    digits_index_le hn hmade hkept hcount (hlength.trans (Nat.le_succ _))
  have hlast : digits s.lastIncludedTerm ≤ d := by
    rw [hwell.term, hentries]
    exact digits_lastTerm_le hbrief hterms
  have hstrokes : strokesOf s.covered = s.entries.map LogEntry.stroke := by
    unfold strokesOf Snapshot.entries
    rw [List.map_map]
    rfl
  have hsub : (recordEvents s.boards).Subperm strokes := by
    refine (hgrouped.subperm (hkept.files.snapshot s hs)).trans ?_
    rw [hstrokes]
    exact (hfront.sublist.map _).subperm.trans (subperm_fullLog hn hmade hkept)
  have hboards : joined ((recordEvents s.boards).map strokeWeight) ≤
      joined (strokes.map strokeWeight) := by
    unfold joined
    simp only [List.map_map]
    exact Nat.sub_le_sub_right (Json.sum_le_of_subperm hsub _) 1
  have hall := hmodest.snapshot ⟨b, hb, hlong.trans
    (hlength.trans (length_fullLog_le hn hmade hkept))⟩
  have hnames := hgrouped.joined_le
  have hterm := hbrief.term
  omega

end Fits

/-- **Requests fit when little is drawn.**  In a run in which every step heeds what it is told,
let what clients have written be modest.  Then whatever a leader builds for a peer, a batch of
its log or its snapshot, is a body that the peer reads. -/
theorem bodies_fit (cfg : Config) [cfg.OnFiles] {es : List Cluster.Event} {c : Cluster}
    (h : Runs.exec (Cluster.next cfg) (.init cfg) es = some c)
    (hcareful : Runs.ExecOk (Cluster.next cfg) (Cluster.Careful cfg) (.init cfg) es)
    {a peer : String} (ha : a ∈ cfg.members) {d : ℕ}
    (hbrief : Brief (c.replicas a).node peer d)
    (hcount : digits ((Cluster.drawn es).length + 1) ≤ d)
    (hmodest : Modest cfg (c.replicas a).node d (Cluster.drawn es)) :
    (c.replicas a).node.Reaches peer := by
  obtain ⟨L, H, -, hc⟩ := (ledgered_init cfg).reach (Runs.Reach.of_exec h hcareful)
  obtain ⟨made, hmade, hlocal⟩ := Cluster.exists_made h
  have hbooked := hc.nodes a ha
  have hn := hbooked.coherent
  have hkept := hlocal.nodes a ha
  have hterms := hbooked.standing.term_le
  rw [RaftNode.reaches_iff]
  intro _
  split
  · intro s hs
    exact snapshot_le hn hmade hkept hbrief hcount hterms hmodest hs (Cluster.due_reach h ha s hs)
  · next habove =>
      exact batch_le hn hmade hkept hbrief hcount hterms hmodest rfl (Nat.lt_of_not_le habove)

/-- One dot is modest. -/
theorem modest_dot {cfg : Config} {n : RaftNode} (hid : n.replicaId = "a")
    (hurl : n.selfUrl = "a") :
    Modest cfg n 1 [.dot "x" "board"] := by
  have hname : bytes (quote "a") = 3 := by decide +kernel
  have hboard : bytes (quote (Stroke.dot "x" "board").boardId) = 7 := by decide +kernel
  have hsize : size (Stroke.dot "x" "board").toJson ≤ 200 := by decide +kernel
  constructor
  · intro batch hbatch _
    have hle : joined (batch.map fun stroke => 28 + 2 * 1 + size stroke.toJson) ≤
        joined ([Stroke.dot "x" "board"].map fun stroke => 28 + 2 * 1 + size stroke.toJson) := by
      unfold joined
      simp only [List.map_map]
      exact Nat.sub_le_sub_right (Json.sum_le_of_subperm hbatch _) 1
    simp only [List.map_cons, List.map_nil, joined, List.sum_cons, List.sum_nil] at hle
    rw [hid, hurl, hname, RaftNode.bodyLimit]
    unfold joined
    omega
  · intro _
    rw [hid, hname, RaftNode.bodyLimit]
    simp only [List.map_cons, List.map_nil, joined, List.sum_cons, List.sum_nil, strokeWeight,
      hboard]
    omega

/-- Leader `a` of the trio reaches `b` with the dot. -/
theorem bodies_fit_trio : ∃ c, Runs.exec (Cluster.next .trio) (.init .trio) (trioWrite.take 4) =
      some c ∧ (c.replicas "a").node.state = .leader ∧ (c.replicas "a").node.Reaches "b" := by
  have hexec : Runs.exec (Cluster.next .trio) (.init .trio) (trioWrite.take 4) =
      some (trioAfter 4) := by rfl
  have hself : "a" ∉ Config.trio.peers "a" := by decide
  have hcareful : Runs.ExecOk (Cluster.next .trio) (Cluster.Careful .trio) (.init .trio)
      (trioWrite.take 4) :=
    .cons trivial (by rfl) (.cons trivial (by rfl) (.cons trivial (by rfl)
      (.cons hself (by rfl) .nil)))
  have hbrief : Brief ((trioAfter 4).replicas "a").node "b" 1 := by
    refine ⟨by decide +kernel, fun i hi => ?_⟩
    obtain rfl : 1 = i := Option.some.inj hi
    decide +kernel
  exact ⟨_, hexec, by rfl, bodies_fit .trio hexec hcareful (by decide) hbrief (by decide +kernel)
    (modest_dot (by rfl) (by rfl))⟩

end QuorumCanvas
