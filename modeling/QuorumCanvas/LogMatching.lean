import QuorumCanvas.AgreedCommits

/-!
# Logs match, and leaders hold what was committed

The two facts about logs that the protocol rests on, over whole careful runs.  Logs that hold
entries of one term at one index hold the same entries up to there, whenever and wherever they
are looked at (`log_matching`).  And what any member has committed is in the log of every leader
of its term or a later one, at that moment and at any later one (`leaders_complete`).

Logs are taken in full, with the entries that a snapshot has replaced.
-/

namespace QuorumCanvas

open Ledger (History)

variable {cfg : Config} {L : History String LogEntry} {H : Ballots.History String}
  {c c₁ c₂ : Cluster} {a b : String}

/-- Two moments of a careful run are entered in one ledger, the later one's. -/
theorem exists_ledgers [cfg.OnFiles] (h₁ : Cluster.Reach cfg (Cluster.Careful cfg) (.init cfg) c₁)
    (h₂ : Cluster.Reach cfg (Cluster.Careful cfg) c₁ c₂) :
    ∃ L₁ H₁ L₂ H₂, L₁.Grows L₂ ∧ Ledgered cfg L₁ H₁ c₁ ∧ Ledgered cfg L₂ H₂ c₂ := by
  obtain ⟨L₁, H₁, -, hc₁⟩ := (ledgered_init cfg).reach h₁
  obtain ⟨L₂, H₂, hgrows, hc₂⟩ := hc₁.reach h₂
  exact ⟨L₁, H₁, L₂, H₂, hgrows, hc₁, hc₂⟩

/-- The trio once that heartbeat has been followed by the election of `b`. -/
def trioSucceeded : Cluster := Cluster.play .trio trioAgreed
  [.act (.electionTimeout "b"), .act (.deliver ⟨11, "b", "c", .requestVote ⟨2, "b", 1, 1⟩⟩),
    .act (.voteReply "b" 0 11 (some ⟨2, true, "c"⟩))]

/-- The heartbeat is delivered. -/
theorem careful_heartbeat :
    Cluster.Reach .trio (Cluster.Careful .trio) (trioAfter 12) trioAgreed := by
  refine .tail .refl ?_ (e := .act (.deliver trioHeartbeat)) (by rfl)
  exact Or.inr <| Or.inr ⟨⟨1, 1, .dot "x" "board"⟩, ⟨1, 1, .dot "x" "board"⟩, Nat.one_pos, rfl,
    rfl, rfl⟩

/-- `b` succeeds `a`. -/
theorem careful_succession :
    Cluster.Reach .trio (Cluster.Careful .trio) (trioAfter 12) trioSucceeded := by
  refine careful_heartbeat.trans ?_
  refine .tail (.tail (.tail .refl ?_ (e := .act (.electionTimeout "b")) (by rfl)) ?_
    (e := .act (.deliver ⟨11, "b", "c", .requestVote ⟨2, "b", 1, 1⟩⟩)) (by rfl)) ?_
    (e := .act (.voteReply "b" 0 11 (some ⟨2, true, "c"⟩))) (by rfl)
  · exact trivial
  · exact trivial
  · exact trivial

/-- **Log matching.**  Take two moments of a careful run, and a member at each.  When their logs
hold entries of one term at one index, the logs are the same up to there. -/
theorem log_matching (cfg : Config) [cfg.OnFiles] {c₁ c₂ : Cluster} {a b : String}
    (h₁ : Cluster.Reach cfg (Cluster.Careful cfg) (.init cfg) c₁)
    (h₂ : Cluster.Reach cfg (Cluster.Careful cfg) c₁ c₂)
    (ha : a ∈ cfg.members) (hb : b ∈ cfg.members) {k : ℕ} {e e' : LogEntry}
    (he : (c₁.replicas a).node.fullLog[k]? = some e)
    (he' : (c₂.replicas b).node.fullLog[k]? = some e') (hterm : e.term = e'.term) :
    (c₁.replicas a).node.fullLog.take (k + 1) = (c₂.replicas b).node.fullLog.take (k + 1) := by
  obtain ⟨L₁, H₁, L₂, H₂, hgrows, hc₁, hc₂⟩ := exists_ledgers h₁ h₂
  have hchained := hgrows.chained (hc₁.nodes a ha).standing.chained
  exact hchained.matching (hc₂.nodes b hb).standing.chained he he' hterm

/-- `a` and later `b` have the same first entry. -/
theorem log_matching_trio : ((trioAfter 12).replicas "a").node.fullLog.take 1 =
    (trioSucceeded.replicas "b").node.fullLog.take 1 :=
  log_matching .trio (a := "a") (b := "b") carefulTrio careful_succession (by decide) (by decide)
    (k := 0) (e := ⟨1, 1, .dot "x" "board"⟩) (by rfl) (by rfl) rfl

/-- A leader's log is the one its term has in the ledger. -/
theorem Ledgered.log_of_leader (hc : Ledgered cfg L H c) (ha : a ∈ cfg.members)
    (hlead : (c.replicas a).node.state = .leader) :
    L.Elected (c.replicas a).node.currentTerm ∧
      L.log (c.replicas a).node.currentTerm = (c.replicas a).node.fullLog := by
  have hleading := (hc.nodes a ha).leads hlead
  exact ⟨Option.isSome_iff_exists.mpr ⟨_, hleading.leader⟩, hleading.log⟩

/-- **Leader completeness.**  What a member has committed at some moment of a careful run is, at
every moment from then on, in the log of every leader whose term is not earlier than the term the
member was in. -/
theorem leaders_complete (cfg : Config) [cfg.OnFiles] {c₁ c₂ : Cluster} {a b : String}
    (h₁ : Cluster.Reach cfg (Cluster.Careful cfg) (.init cfg) c₁)
    (h₂ : Cluster.Reach cfg (Cluster.Careful cfg) c₁ c₂)
    (ha : a ∈ cfg.members) (hb : b ∈ cfg.members)
    (hlead : (c₂.replicas b).node.state = .leader)
    (hterm : (c₁.replicas a).node.currentTerm ≤ (c₂.replicas b).node.currentTerm) :
    (c₁.replicas a).node.fullLog.take (c₁.replicas a).node.commitIndex <+:
      (c₂.replicas b).node.fullLog := by
  obtain ⟨L₁, H₁, L₂, H₂, hgrows, hc₁, hc₂⟩ := exists_ledgers h₁ h₂
  obtain ⟨helected, hlog⟩ := hc₂.log_of_leader hb hlead
  have hsettled := hgrows.settled hc₁.sound (hc₁.nodes a ha).standing.settled
  rw [← hlog]
  exact hsettled.prefix_log hc₂.sound hterm helected

/-- `b`, the leader after `a`, holds what `a` had committed. -/
theorem leaders_complete_trio :
    ((trioAfter 12).replicas "a").node.fullLog.take
        ((trioAfter 12).replicas "a").node.commitIndex <+:
      (trioSucceeded.replicas "b").node.fullLog :=
  leaders_complete .trio (a := "a") (b := "b") carefulTrio careful_succession (by decide)
    (by decide) (by rfl) (Nat.le_of_ble_eq_true (by rfl))

/-- **A leader only appends:** the log of a term's leader extends every log that a leader of the
term has had. -/
theorem leader_append_only (cfg : Config) [cfg.OnFiles] {c₁ c₂ : Cluster} {a b : String}
    (h₁ : Cluster.Reach cfg (Cluster.Careful cfg) (.init cfg) c₁)
    (h₂ : Cluster.Reach cfg (Cluster.Careful cfg) c₁ c₂)
    (ha : a ∈ cfg.members) (hb : b ∈ cfg.members)
    (hleada : (c₁.replicas a).node.state = .leader) (hleadb : (c₂.replicas b).node.state = .leader)
    (hterm : (c₁.replicas a).node.currentTerm = (c₂.replicas b).node.currentTerm) :
    (c₁.replicas a).node.fullLog <+: (c₂.replicas b).node.fullLog := by
  obtain ⟨L₁, H₁, L₂, H₂, hgrows, hc₁, hc₂⟩ := exists_ledgers h₁ h₂
  rw [← (hc₁.log_of_leader ha hleada).2, ← (hc₂.log_of_leader hb hleadb).2, hterm]
  exact hgrows.log _

/-- The log of `a` is kept while it leads. -/
theorem leader_append_only_trio : ((trioAfter 12).replicas "a").node.fullLog <+:
    (trioAgreed.replicas "a").node.fullLog :=
  leader_append_only .trio (a := "a") (b := "a") carefulTrio careful_heartbeat (by decide)
    (by decide) (by rfl) (by rfl) (by rfl)

end QuorumCanvas
