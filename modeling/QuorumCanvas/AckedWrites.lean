import QuorumCanvas.AgreedCommits

/-!
# Acknowledged writes

`handleClientWrite` waits for its replications, counts who holds the *index* of
its entry, and answers `success` once a majority does.  By then the node may have
lost and regained its office: the entry at that index may be another one, and
`updateCommitIndex` passes over entries of older terms.

`Keeps` says what the node must still have when it answers.  In a careful run an
acknowledged write lasts exactly when that is so, and it is so as long as the
node leads the term in which it took the write.
-/

namespace QuorumCanvas

open Ledger (History)

/-! ## What a leader commits -/

namespace RaftNode

variable {n : RaftNode}

/-- The node holds entry `e` where it belongs, in its log or below its snapshot. -/
def Holds (n : RaftNode) (e : LogEntry) : Prop := 0 < e.index ∧ n.fullLog[e.index - 1]? = some e

/-- The index is committed, or a majority is known to hold an entry of the node's
own term at that index or above. -/
def Sealed (n : RaftNode) (index : ℕ) : Prop :=
  index ≤ n.commitIndex ∨ ∃ k e, index ≤ k ∧ n.fullLog[k - 1]? = some e ∧
    e.term = n.currentTerm ∧ n.majority ≤ n.replicatedCount k

/-- The node still holds `e`, and is about to have it committed. -/
def Keeps (n : RaftNode) (e : LogEntry) : Prop := n.Holds e ∧ n.Sealed e.index

/-- The scan of `updateCommitIndex` stops no lower than at an entry that it may commit. -/
theorem exists_commitCandidate {e : LogEntry} {index k : ℕ} (hlo : n.commitIndex < index)
    (hle : index ≤ k) (he : n.log.getEntry index = some e) (hterm : e.term = n.currentTerm)
    (hcount : n.majority ≤ n.replicatedCount index) :
    ∃ found, n.commitCandidate k = some found ∧ index ≤ found := by
  induction k with
  | zero => omega
  | succ k ih =>
      unfold commitCandidate
      rw [if_neg (by omega)]
      by_cases htop : ((n.log.getEntry (k + 1)).any fun e => e.term = n.currentTerm) ∧
          n.majority ≤ n.replicatedCount (k + 1)
      · rw [if_pos htop]
        exact ⟨k + 1, rfl, hle⟩
      · rw [if_neg htop]
        have hne : index ≠ k + 1 := by
          intro heq
          subst heq
          exact htop ⟨by simp [he, hterm], hcount⟩
        exact ih (by omega)

/-- The commit index becomes the candidate, if there is one. -/
theorem commitIndex_updateCommitIndex (n : RaftNode) :
    n.updateCommitIndex.commitIndex =
      (n.commitCandidate n.log.getLastIndex).getD n.commitIndex := by
  unfold updateCommitIndex
  cases n.commitCandidate n.log.getLastIndex with
  | none => rfl
  | some index => exact (applied_applyCommitted _).2.1

/-- `updateCommitIndex` commits exactly what is sealed. -/
theorem Coherent.le_updateCommitIndex (hn : n.Coherent) {index : ℕ} :
    index ≤ n.updateCommitIndex.commitIndex ↔ n.Sealed index := by
  have hbound := hn.boundary_le
  rw [commitIndex_updateCommitIndex]
  constructor
  · intro hle
    cases hfound : n.commitCandidate n.log.getLastIndex with
    | none =>
        rw [hfound] at hle
        exact Or.inl hle
    | some k =>
        rw [hfound] at hle
        obtain ⟨hlo, -, ⟨e, he, hterm⟩, hcount⟩ := commitCandidate_some hfound
        rw [hn.getEntry (by omega)] at he
        exact Or.inr ⟨k, e, hle, he, hterm, hcount⟩
  · intro hsealed
    by_cases hdone : index ≤ n.commitIndex
    · cases hfound : n.commitCandidate n.log.getLastIndex with
      | none => exact hdone
      | some k => exact hdone.trans (commitCandidate_some hfound).1.le
    · obtain hle | ⟨k, e, hk, he, hterm, hcount⟩ := hsealed
      · exact absurd hle hdone
      · have hlen := (List.getElem?_eq_some_iff.mp he).1
        rw [← hn.getEntry (by omega)] at he
        obtain ⟨found, hfound, hle⟩ := exists_commitCandidate (k := n.log.getLastIndex)
          (by omega) (by rw [hn.getLastIndex]; omega) he hterm hcount
        rw [hfound]
        exact hk.trans hle

/-- Counting a majority changes no entry. -/
theorem Coherent.fullLog_updateCommitIndex (hn : n.Coherent) :
    n.updateCommitIndex.fullLog = n.fullLog :=
  (evolves_updateCommitIndex (T := True) (G := fun _ _ _ => True) hn trivial
    fun _ _ _ _ _ _ => trivial).2

end RaftNode

/-! ## What the suspended calls wait for -/

variable {cfg : Config} {L L' : History String LogEntry} {H : Ballots.History String}
  {c c' : Cluster} {a b : String}

/-- A leader appends the entry, and its call joins those that wait. -/
theorem Turn.clientWrite_leader (t : Turn) (hlead : t.replica.node.state = .leader)
    (stroke : Stroke) :
    (t.clientWrite stroke).replica.node = t.replica.node.clientAppend stroke ∧
      ∀ w ∈ (t.clientWrite stroke).replica.writes, w ∈ t.replica.writes ∨
        w.entry = t.replica.node.clientEntry stroke := by
  obtain ⟨hd, -⟩ := (t.number.setNode (t.replica.node.clientAppend stroke)).driveAll_spec
    t.replica.node.peers
  unfold clientWrite
  dsimp only
  rw [if_neg (fun hne => hne hlead)]
  refine ⟨hd.node, fun w hw => ?_⟩
  rcases List.mem_append.mp hw with hold | hnew
  · exact Or.inl (hd.writes ▸ hold)
  · obtain rfl := List.mem_singleton.mp hnew
    exact Or.inr rfl

/-- A call that resumes waits for the same entry, or no longer. -/
theorem Turn.writes_resumeWrite {u : Turn} {k : ℕ} {w : Write}
    (hk : u.replica.writes[k]? = some w) :
    ∀ w' ∈ (u.resumeWrite k w).replica.writes, ∃ w₀ ∈ u.replica.writes, w'.entry = w₀.entry := by
  have herase : ∀ w' ∈ u.replica.writes.eraseIdx k, ∃ w₀ ∈ u.replica.writes,
      w'.entry = w₀.entry := fun w' hw' => ⟨w', List.mem_of_mem_eraseIdx hw', rfl⟩
  unfold resumeWrite
  dsimp only
  split
  · exact herase
  · split
    · exact herase
    · split
      · intro w' hw'
        rcases List.mem_or_eq_of_mem_set hw' with hold | rfl
        · exact ⟨w', (u.driveAll_spec _).1.writes ▸ hold, rfl⟩
        · exact ⟨w, List.mem_of_getElem? hk, rfl⟩
      · exact herase

/-- The calls that wait after a turn waited before, but for the one that a leader's
`handleClientWrite` has just started. -/
theorem Cluster.turn_writes {action : Action} {t : Turn} (h : c.turn action = some t) :
    (∀ w ∈ t.replica.writes, ∃ w' ∈ (c.replicas action.replica).writes, w.entry = w'.entry) ∨
      ∃ stroke, (c.replicas action.replica).node.state = .leader ∧
        t.replica.node = (c.replicas action.replica).node.beginTurn.clientAppend stroke ∧
        ∀ w ∈ t.replica.writes, w ∈ (c.replicas action.replica).writes ∨
          w.entry = (c.replicas action.replica).node.clientEntry stroke := by
  have hsame : t.replica.writes = (c.replicas action.replica).writes →
      ∀ w ∈ t.replica.writes, ∃ w' ∈ (c.replicas action.replica).writes, w.entry = w'.entry :=
    fun heq w hw => ⟨w, heq ▸ hw, rfl⟩
  by_cases hrep : action.Replicates
  · cases action with
    | sendHeartbeats a =>
        obtain rfl := Option.some.inj h
        refine Or.inl (hsame ?_)
        unfold Turn.sendHeartbeats
        split
        · rfl
        · exact ((c.startTurn a).driveAll_spec _).1.writes
    | roundResume a k =>
        obtain ⟨promises, -, rfl⟩ := Turn.roundResume_some h
        refine Or.inl (hsame ?_)
        unfold Turn.resumeRound
        dsimp only
        split <;> rfl
    | sendReply a k outcome =>
        simp only [turn] at h
        split at h
        · obtain ⟨send, w, -, -, rfl⟩ :=
            Turn.sendReply_some (Option.ite_none_right_eq_some.mp h).2
          exact Or.inl (hsame rfl)
        · cases h
    | sendFinally a k =>
        obtain ⟨send, -, rfl⟩ := Turn.sendFinally_some h
        exact Or.inl (hsame rfl)
    | clientWrite a stroke =>
        obtain rfl := Option.some.inj h
        by_cases hlead : (c.replicas a).node.state = .leader
        · exact Or.inr ⟨stroke, hlead, (c.startTurn a).clientWrite_leader hlead stroke⟩
        · have hrefused : (c.startTurn a).clientWrite stroke = (c.startTurn a).number.respond
              c.nextId (.write false (c.replicas a).node.leaderAddr) := if_pos hlead
          refine Or.inl (hsame ?_)
          show ((c.startTurn a).clientWrite stroke).replica.writes = _
          rw [hrefused]
          rfl
    | writeResume a k =>
        obtain ⟨w, hk, rfl⟩ := Turn.writeResume_some h
        exact Or.inl (Turn.writes_resumeWrite hk)
    | _ => exact absurd hrep not_false
  · exact Or.inl (hsame ((touches_turn h).writes hrep))

/-- The entry that each suspended call waits for is where the leader of its term put it. -/
def Filed (cfg : Config) (L : History String LogEntry) (c : Cluster) : Prop :=
  ∀ a ∈ cfg.members, ∀ w ∈ (c.replicas a).writes,
    0 < w.entry.index ∧ (L.log w.entry.term)[w.entry.index - 1]? = some w.entry

/-- At the start no call waits. -/
theorem filed_init (cfg : Config) (L : History String LogEntry) : Filed cfg L (.init cfg) :=
  fun _ _ _ hw => absurd hw List.not_mem_nil

/-- An entry of a prefix is one of the whole. -/
theorem getElem?_of_prefix {ℓ ℓ' : List LogEntry} {k : ℕ} {e : LogEntry} (hp : ℓ <+: ℓ')
    (h : ℓ[k]? = some e) : ℓ'[k]? = some e := by
  obtain ⟨s, rfl⟩ := hp
  rw [List.getElem?_append_left (List.getElem?_eq_some_iff.mp h).1]
  exact h

/-- An entry keeps its place when the leader's log grows. -/
theorem filed_grow {e : LogEntry} (hg : L.Grows L')
    (h : 0 < e.index ∧ (L.log e.term)[e.index - 1]? = some e) :
    0 < e.index ∧ (L'.log e.term)[e.index - 1]? = some e :=
  ⟨h.1, getElem?_of_prefix (hg.log e.term) h.2⟩

/-- A reboot suspends no call. -/
theorem Filed.reboot (hf : Filed cfg L c) (hg : L.Grows L') (a : String) (p : Persistence) :
    Filed cfg L' (c.reboot cfg a p) := by
  intro b hb w hw
  by_cases hne : b = a
  · subst hne
    rw [Cluster.replicas_reboot_self] at hw
    exact absurd hw List.not_mem_nil
  · rw [Cluster.replicas_reboot_ne c p hne] at hw
    exact filed_grow hg (hf b hb w hw)

/-- A step keeps what the suspended calls wait for. -/
theorem Filed.next (hf : Filed cfg L c) (hc : Ledgered cfg L H c) {e : Cluster.Event}
    (h : Cluster.next cfg c e = some c') (hg : L.Grows L') {H' : Ballots.History String}
    (hc' : Ledgered cfg L' H' c') : Filed cfg L' c' := by
  rcases Cluster.next_cases h with ⟨action, t, rfl, ha, ht, rfl⟩ |
    ⟨action, t, calls, rfl, ha, ht, rfl⟩ | ⟨a, calls, rfl, ha, rfl⟩
  · intro b hb w hw
    by_cases hne : b = action.replica
    · subst hne
      have hnode := hc'.nodes _ hb
      rw [Cluster.replicas_finishTurn_self] at hw hnode
      rcases Cluster.turn_writes ht with hold | ⟨stroke, hlead, hn, hnew⟩
      · obtain ⟨w', hw', heq⟩ := hold w hw
        exact heq ▸ filed_grow hg (hf _ hb w' hw')
      · rcases hnew w hw with hold | heq
        · exact filed_grow hg (hf _ hb w hold)
        · -- the entry is the last of the leader's log
          have hcoh := (hc.nodes _ hb).beginTurn.coherent
          have hfull := (RaftNode.evolves_clientAppend (T := True) (G := fun _ _ _ => True) hcoh
            stroke trivial trivial).2
          have hlast : ((c.replicas action.replica).node.clientEntry stroke).index =
              (c.replicas action.replica).node.fullLog.length + 1 :=
            congrArg (· + 1) hcoh.getLastIndex
          rw [hn] at hnode
          have hlog := (hnode.leads hlead).log
          rw [hfull] at hlog
          rw [heq, hlast]
          refine ⟨Nat.succ_pos _, ?_⟩
          show (L'.log ((c.replicas action.replica).node.beginTurn.clientAppend
            stroke).currentTerm)[_]? = _
          rw [hlog]
          exact List.getElem?_concat_length ..
    · rw [Cluster.replicas_finishTurn_ne c t hne] at hw
      exact filed_grow hg (hf b hb w hw)
  · exact hf.reboot hg _ _
  · exact hf.reboot hg _ _

/-- Through a careful run, by induction on it. -/
theorem Filed.reach (hf : Filed cfg L c) (hc : Ledgered cfg L H c)
    (h : Cluster.Reach cfg (Cluster.Careful cfg) c c') :
    ∃ L' H', L.Grows L' ∧ Ledgered cfg L' H' c' ∧ Filed cfg L' c' := by
  induction h with
  | refl => exact ⟨L, H, .refl L, hc, hf⟩
  | tail _ hok hstep ih =>
      obtain ⟨L₁, H₁, hg₁, hc₁, hf₁⟩ := ih
      obtain ⟨L₂, H₂, hg₂, hc₂⟩ := hc₁.next hok hstep
      exact ⟨L₂, H₂, hg₁.trans hg₂, hc₂, hf₁.next hc₁ hstep hg₂ hc₂⟩

/-! ## Durability -/

/-- What a member has committed, whoever leads that term or a later one holds. -/
theorem Ledgered.holds_of_committed (hc : Ledgered cfg L H c) (ha : a ∈ cfg.members)
    {e : LogEntry} (hheld : (c.replicas a).node.Holds e)
    (hle : e.index ≤ (c.replicas a).node.commitIndex)
    (h : Cluster.Reach cfg (Cluster.Careful cfg) c c') (hb : b ∈ cfg.members)
    (hlead : (c'.replicas b).node.state = .leader)
    (hterm : (c.replicas a).node.currentTerm ≤ (c'.replicas b).node.currentTerm) :
    (c'.replicas b).node.Holds e := by
  obtain ⟨L', H', hg, hc'⟩ := hc.reach h
  obtain ⟨hpos, hget⟩ := hheld
  have hsettled := hg.settled hc.sound (hc.nodes a ha).standing.settled
  have hleading := (hc'.nodes b hb).leads hlead
  have hel : L'.Elected (c'.replicas b).node.currentTerm :=
    Option.isSome_iff_exists.mpr ⟨_, hleading.leader⟩
  have hprefix := hsettled.prefix_log hc'.sound hterm hel
  rw [hleading.log] at hprefix
  refine ⟨hpos, getElem?_of_prefix hprefix ?_⟩
  rw [List.getElem?_take, if_pos (by omega)]
  exact hget

/-- A call answers `success` only for a leader that counts a majority, once it has
committed what it may. -/
theorem Cluster.writeResume_acked {t : Turn} {k : ℕ} {w : Write}
    (hw : (c.replicas a).writes[k]? = some w) (ht : c.turn (.writeResume a k) = some t)
    (hack : (w.id, .write true none) ∈ t.responses) :
    (c.replicas a).node.state = .leader ∧
      (c.replicas a).node.majority ≤ (c.replicas a).node.replicatedCount w.entry.index ∧
      t.replica.node = (c.replicas a).node.beginTurn.updateCommitIndex := by
  obtain ⟨w', hk, rfl⟩ := Turn.writeResume_some ht
  obtain rfl := Option.some.inj (hw.symm.trans hk)
  unfold Turn.resumeWrite at hack ⊢
  dsimp only at hack ⊢
  split at hack
  · cases List.mem_singleton.mp hack
  · next hlead =>
      rw [if_neg hlead]
      split at hack
      · next hcount =>
          rw [if_pos hcount]
          exact ⟨not_not.mp hlead, hcount, rfl⟩
      · split at hack
        · have hnone := ((c.startTurn a).driveAll_spec
            (c.startTurn a).replica.node.peers).1.responses
          cases hnone ▸ hack
        · cases List.mem_singleton.mp hack

/-- **Durability of acknowledged writes.**  Let a call of `handleClientWrite` answer
`success` in a careful run.  Its entry is then on file and committed, and held by
every leader of a later term in all that follows, exactly when the node still kept
it: it held the entry, and a majority was known to hold an entry of its current term
at that index or above, unless the index was committed already. -/
theorem acknowledged_write_lasts (cfg : Config) [cfg.OnFiles] {c : Cluster} {a : String} {k : ℕ}
    {w : Write}
    {t : Turn} (h : Cluster.Reach cfg (Cluster.Careful cfg) (.init cfg) c) (ha : a ∈ cfg.members)
    (hw : (c.replicas a).writes[k]? = some w) (ht : c.turn (.writeResume a k) = some t)
    (hack : (w.id, .write true none) ∈ t.responses) :
    (t.replica.node.Holds w.entry ∧ w.entry.index ≤ t.replica.node.commitIndex ∧
      ∀ c' b, Cluster.Reach cfg (Cluster.Careful cfg) (c.finishTurn a t) c' → b ∈ cfg.members →
        (c'.replicas b).node.state = .leader →
        t.replica.node.currentTerm < (c'.replicas b).node.currentTerm →
        (c'.replicas b).node.Holds w.entry) ↔
      (c.replicas a).node.Keeps w.entry := by
  obtain ⟨L, H, -, hc⟩ := (ledgered_init cfg).reach h
  obtain ⟨-, -, hnode⟩ := Cluster.writeResume_acked hw ht hack
  have hcoh := (hc.nodes a ha).beginTurn.coherent
  have hholds : t.replica.node.Holds w.entry ↔ (c.replicas a).node.Holds w.entry := by
    rw [hnode, RaftNode.Holds, hcoh.fullLog_updateCommitIndex]
    exact Iff.rfl
  have hsealed : w.entry.index ≤ t.replica.node.commitIndex ↔
      (c.replicas a).node.Sealed w.entry.index := by
    rw [hnode]
    exact hcoh.le_updateCommitIndex
  constructor
  · intro hlasts
    exact ⟨hholds.mp hlasts.1, hsealed.mp hlasts.2.1⟩
  · intro hkeeps
    have hheld := hholds.mpr hkeeps.1
    have hle := hsealed.mpr hkeeps.2
    refine ⟨hheld, hle, ?_⟩
    intro c' b hrun hb hlead hterm
    have hnext : Cluster.next cfg c (.act (.writeResume a k)) = some (c.finishTurn a t) := by
      show (if a ∈ cfg.members then _ else none) = _
      rw [if_pos ha, ht]
      rfl
    obtain ⟨L', H', -, hc'⟩ := hc.next (e := .act (.writeResume a k)) trivial hnext
    have hself := Cluster.replicas_finishTurn_self c a t
    refine hc'.holds_of_committed ha (e := w.entry) ?_ ?_ hrun hb hlead ?_
    · rw [hself]
      exact hheld
    · rw [hself]
      exact hle
    · rw [hself]
      exact hterm.le

/-- The write of `x` is acknowledged, and every replica that commits as much holds it. -/
theorem acknowledged_write_lasts_trio :
    ∃ t, (trioAfter 10).turn (.writeResume "a" 0) = some t ∧
      t.replica.node.Holds ⟨1, 1, .dot "x" "board"⟩ ∧ 1 ≤ t.replica.node.commitIndex ∧
      ∀ c' b, Cluster.Reach .trio (Cluster.Careful .trio) ((trioAfter 10).finishTurn "a" t) c' →
        b ∈ Config.trio.members → (c'.replicas b).node.state = .leader →
        t.replica.node.currentTerm < (c'.replicas b).node.currentTerm →
        (c'.replicas b).node.Holds ⟨1, 1, .dot "x" "board"⟩ := by
  obtain ⟨w, hw, hentry⟩ : ∃ w, ((trioAfter 10).replicas "a").writes[0]? = some w ∧
      w.entry = ⟨1, 1, .dot "x" "board"⟩ := ⟨_, by rfl, rfl⟩
  obtain ⟨t, ht, hresp⟩ : ∃ t, (trioAfter 10).turn (.writeResume "a" 0) = some t ∧
      t.responses = [(2, .write true none)] := ⟨_, by rfl, by rfl⟩
  have hid : some w.id = some 2 := (congrArg (Option.map Write.id) hw).symm.trans (by rfl)
  have hack : (w.id, Response.write true none) ∈ t.responses := by
    rw [hresp, Option.some.inj hid]
    exact List.mem_singleton_self _
  have hlasts := (acknowledged_write_lasts .trio carefulTrio_written (by decide) hw ht hack).mpr
  rw [hentry] at hlasts
  exact ⟨t, ht, hlasts ⟨⟨Nat.one_pos, by rfl⟩,
    Or.inr ⟨1, ⟨1, 1, .dot "x" "board"⟩, le_rfl, by rfl, by rfl, by decide⟩⟩⟩

/-- Leader `a` of term 1 writes `x`, which reaches nobody.  Leader `b` of term 2
overwrites it with `y`; then `a` leads again in term 3, tries again for its write, and `b`
acknowledges a log that ends with `y`. -/
def reelected : List Cluster.Event :=
  trioElection ++
    [Cluster.Event.act (.voteFinally "a" 0),
      .act (.clientWrite "a" (.dot "x" "board")), .act (.electionTimeout "b"),
      .act (.deliver ⟨8, "b", "c", .requestVote ⟨2, "b", 0, 0⟩⟩),
      .act (.voteReply "b" 0 8 (some ⟨2, true, "c"⟩)), .act (.voteFinally "b" 0),
      .act (.clientWrite "b" (.dot "y" "board")),
      .act (.deliver ⟨11, "b", "a", .appendEntries
        ⟨2, "b", some "b", 0, 0, [⟨1, 2, .dot "y" "board"⟩], 0⟩⟩),
      .act (.electionTimeout "a"),
      .act (.deliver ⟨14, "a", "b", .requestVote ⟨3, "a", 1, 2⟩⟩),
      .act (.voteReply "a" 1 14 (some ⟨3, true, "b"⟩)), .act (.voteFinally "a" 1),
      .act (.sendReply "a" 0 none), .act (.sendFinally "a" 0),
      .act (.sendReply "a" 0 none), .act (.sendFinally "a" 0), .act (.writeResume "a" 0),
      .act (.deliver ⟨17, "a", "b", .appendEntries ⟨3, "a", some "a", 1, 2, [], 0⟩⟩),
      .act (.sendReply "a" 0 (some (.appendEntries ⟨3, true, "b", 1⟩))),
      .act (.sendFinally "a" 0), .act (.sendReply "a" 0 none), .act (.sendFinally "a" 0)]

/-- The state after these events. -/
def reelectedTrio : Cluster := Cluster.play .trio (.init .trio) reelected

/-- **An acknowledged write can be lost:** the call answers `success` for `x`, which
the node no longer holds, while index 1 is not even committed. -/
theorem acknowledged_write_lost :
    Cluster.Reach .trio Runs.Any (.init .trio) reelectedTrio ∧
      ∃ w t, (reelectedTrio.replicas "a").writes[0]? = some w ∧
        w.entry = ⟨1, 1, .dot "x" "board"⟩ ∧
        reelectedTrio.turn (.writeResume "a" 0) = some t ∧
        (w.id, .write true none) ∈ t.responses ∧
        ¬ t.replica.node.Holds w.entry ∧ ¬ w.entry.index ≤ t.replica.node.commitIndex := by
  refine ⟨Cluster.reach_play (by rfl), ?_⟩
  obtain ⟨w, hw, hentry⟩ : ∃ w, (reelectedTrio.replicas "a").writes[0]? = some w ∧
      w.entry = ⟨1, 1, .dot "x" "board"⟩ := ⟨_, by rfl, rfl⟩
  have hturn : (reelectedTrio.turn (.writeResume "a" 0)).map Turn.responses =
      some [(2, .write true none)] := by rfl
  obtain ⟨t, ht, hresp⟩ := Option.map_eq_some_iff.mp hturn
  have hid : some w.id = some 2 := (congrArg (Option.map Write.id) hw).symm.trans (by rfl)
  have hack : (w.id, Response.write true none) ∈ t.responses := by
    rw [hresp, Option.some.inj hid]
    exact List.mem_singleton_self _
  obtain ⟨-, -, hnode⟩ := Cluster.writeResume_acked hw ht hack
  refine ⟨w, t, hw, hentry, ht, hack, ?_, ?_⟩
  · intro hheld
    have hy : t.replica.node.fullLog[0]? = some ⟨1, 2, .dot "y" "board"⟩ := by
      rw [hnode]
      rfl
    rw [hentry] at hheld
    cases hy.symm.trans hheld.2
  · have hcommit : t.replica.node.commitIndex = 0 := by
      rw [hnode]
      rfl
    rw [hentry, hcommit]
    decide

/-- A node that answers in the term in which it took the write keeps it. -/
theorem keeps_of_same_term (cfg : Config) [cfg.OnFiles] {c : Cluster} {a : String} {k : ℕ}
    {w : Write}
    {t : Turn} (h : Cluster.Reach cfg (Cluster.Careful cfg) (.init cfg) c) (ha : a ∈ cfg.members)
    (hw : (c.replicas a).writes[k]? = some w) (ht : c.turn (.writeResume a k) = some t)
    (hack : (w.id, .write true none) ∈ t.responses)
    (hterm : (c.replicas a).node.currentTerm = w.entry.term) :
    (c.replicas a).node.Keeps w.entry := by
  obtain ⟨L, H, hinit⟩ : ∃ L H, Ledgered cfg L H (.init cfg) := ⟨_, _, ledgered_init cfg⟩
  obtain ⟨L', H', -, hc, hf⟩ := (filed_init cfg L).reach hinit h
  obtain ⟨hlead, hcount, -⟩ := Cluster.writeResume_acked hw ht hack
  obtain ⟨hpos, hget⟩ := hf a ha w (List.mem_of_getElem? hw)
  rw [← hterm, ((hc.nodes a ha).leads hlead).log] at hget
  exact ⟨⟨hpos, hget⟩, Or.inr ⟨_, w.entry, le_rfl, hget, hterm.symm, hcount⟩⟩

end QuorumCanvas
