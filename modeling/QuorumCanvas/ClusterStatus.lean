import QuorumCanvas.KnownLeaders

/-!
# The cluster as the gateway reports it

`collectClusterStatus` asks all replicas at once, and each answers at a moment of its own.  The
rows of a report are therefore no state that the cluster was ever in.  They still agree on who
leads: rows of two replicas that both lead name different terms, and every name of a leader in
the report is that of a replica that has led (`cluster_status_sound`).
-/

namespace QuorumCanvas

open RaftNode (ReplicaStatus)

/-! ## The report -/

/-- The answer of `/health`, as far as it is used. -/
structure ReplicaHealthResponse where
  status : Option String
  replicaId : Option String

/-- One row of the status. -/
structure ReplicaClusterStatus where
  peer : String
  healthy : Bool
  replicaId : String
  state : Option NodeState
  currentTerm : Option ℕ
  leaderId : Option String
  logLength : Option ℕ
  commitIndex : Option ℕ
  lastApplied : Option ℕ
  error : Option String

/-- The status that `/api/cluster/status` returns. -/
structure ClusterStatusResponse where
  totalReplicas : ℕ
  healthyReplicas : ℕ
  majority : ℕ
  leaderReplicaId : Option String
  leaderCount : ℕ
  replicas : List ReplicaClusterStatus

/-- What comes of the two requests to a peer: both answers, or the message of an error. -/
abbrev StatusAnswer := Except String (ReplicaHealthResponse × ReplicaStatus)

/-- A replica that cannot be reached is not healthy. -/
def fetchReplicaClusterStatus (peer : String) (answer : StatusAnswer) : ReplicaClusterStatus :=
  match answer with
  | .ok (health, status) =>
      { peer
        healthy := health.status = some "ok"
        replicaId := status.replicaId
        state := some status.state
        currentTerm := some status.currentTerm
        leaderId := status.leaderId
        logLength := some status.logLength
        commitIndex := some status.commitIndex
        lastApplied := some status.lastApplied
        error := none }
  | .error message =>
      { peer
        healthy := false
        replicaId := peer
        state := none
        currentTerm := none
        leaderId := none
        logLength := none
        commitIndex := none
        lastApplied := none
        error := some message }

/-- The peers in their order, each with what came of asking it. -/
def collectClusterStatus (answers : List (String × StatusAnswer)) : ClusterStatusResponse :=
  let replicas := answers.map fun a => fetchReplicaClusterStatus a.1 a.2
  let leaders := replicas.filter fun replica => replica.state = some .leader
  { totalReplicas := answers.length
    healthyReplicas := (replicas.filter fun replica => replica.healthy).length
    majority := answers.length / 2 + 1
    leaderReplicaId := leaders.head?.map fun replica => replica.replicaId
    leaderCount := leaders.length
    replicas }

/-! ## Answers of replicas -/

namespace Cluster

variable {cfg : Config} {es : List Event} {c : Cluster} {answers : List (String × StatusAnswer)}

/-- Whoever answers is a member, and tells its status at some moment of the run. -/
def Sampled (cfg : Config) (es : List Event) (answers : List (String × StatusAnswer)) : Prop :=
  ∀ peer health status, (peer, .ok (health, status)) ∈ answers → peer ∈ cfg.members ∧
    ∃ k c, Runs.exec (next cfg) (.init cfg) (es.take k) = some c ∧
      status = (c.replicas peer).node.getStatus

/-- Of two moments of a run the later one is reached from the earlier. -/
theorem reach_of_take {c₁ c₂ : Cluster} {k₁ k₂ : ℕ} (hle : k₁ ≤ k₂)
    (h₁ : Runs.exec (next cfg) (.init cfg) (es.take k₁) = some c₁)
    (h₂ : Runs.exec (next cfg) (.init cfg) (es.take k₂) = some c₂) :
    Reach cfg Runs.Any c₁ c₂ := by
  have hsplit : ∀ (es es' : List Event) {c c₁ c₂ : Cluster},
      Runs.exec (next cfg) c es = some c₁ → Runs.exec (next cfg) c (es ++ es') = some c₂ →
      Runs.exec (next cfg) c₁ es' = some c₂ := by
    intro es
    induction es with
    | nil =>
        intro es' c c₁ c₂ hc₁ hc₂
        obtain rfl := Option.some.inj hc₁
        exact hc₂
    | cons e es ih =>
        intro es' c c₁ c₂ hc₁ hc₂
        obtain ⟨c', hc', hrest⟩ := Option.bind_eq_some_iff.mp hc₁
        rw [List.cons_append, Runs.exec, hc', Option.bind_some] at hc₂
        exact ih es' hrest hc₂
  have htake : es.take k₂ = es.take k₁ ++ (es.take k₂).drop k₁ := by
    have hsame := List.take_append_drop k₁ (es.take k₂)
    rw [List.take_take, Nat.min_eq_left hle] at hsame
    exact hsame.symm
  rw [htake] at h₂
  exact .of_exec_any (hsplit _ _ h₁ h₂)

/-- A row with a state comes from an answer. -/
theorem exists_answer {x : ReplicaClusterStatus} (hx : x ∈ (collectClusterStatus answers).replicas)
    {state : NodeState} (hstate : x.state = some state) :
    ∃ health status, (x.peer, .ok (health, status)) ∈ answers ∧
      x = fetchReplicaClusterStatus x.peer (.ok (health, status)) := by
  obtain ⟨⟨peer, answer⟩, hmem, rfl⟩ := List.mem_map.mp hx
  cases answer with
  | error message => cases hstate
  | ok answer => exact ⟨answer.1, answer.2, hmem, rfl⟩

/-- A row that knows a leader comes from an answer. -/
theorem exists_answer_of_leaderId {x : ReplicaClusterStatus}
    (hx : x ∈ (collectClusterStatus answers).replicas) {id : String}
    (hid : x.leaderId = some id) :
    ∃ health status, (x.peer, .ok (health, status)) ∈ answers ∧
      x = fetchReplicaClusterStatus x.peer (.ok (health, status)) := by
  obtain ⟨⟨peer, answer⟩, hmem, rfl⟩ := List.mem_map.mp hx
  cases answer with
  | error message => cases hid
  | ok answer => exact ⟨answer.1, answer.2, hmem, rfl⟩

/-- **What a report says of leaders.**  Take any run and a report whose rows tell the replicas'
statuses at any moments of it.  Rows of different replicas that both lead name different terms.
Whatever name of a leader the report or one of its rows holds, the replica of that name has led,
in a term that the row has reached.  A report on all members counts the majority as they do. -/
theorem cluster_status_sound [cfg.OnFiles] (hrun : Runs.exec (next cfg) (.init cfg) es = some c)
    (hsampled : Sampled cfg es answers) :
    (∀ x ∈ (collectClusterStatus answers).replicas, ∀ y ∈ (collectClusterStatus answers).replicas,
      x.state = some .leader → y.state = some .leader → x.currentTerm = y.currentTerm →
        x.peer = y.peer) ∧
    (∀ x ∈ (collectClusterStatus answers).replicas, ∀ id, x.leaderId = some id →
      ∃ term, (∃ reached, x.currentTerm = some reached ∧ term ≤ reached) ∧ Led cfg es term id) ∧
    (∀ id, (collectClusterStatus answers).leaderReplicaId = some id →
      ∃ term, Led cfg es term id) ∧
    (answers.length = cfg.members.length → ∀ a ∈ cfg.members,
      (collectClusterStatus answers).majority = (c.replicas a).node.majority) := by
  have hknows : ∀ x ∈ (collectClusterStatus answers).replicas, ∀ id, x.leaderId = some id →
      ∃ term, (∃ reached, x.currentTerm = some reached ∧ term ≤ reached) ∧ Led cfg es term id := by
    intro x hx id hid
    obtain ⟨health, status, hmem, heq⟩ := exists_answer_of_leaderId hx hid
    obtain ⟨hpeer, k, c', hc', rfl⟩ := hsampled _ _ _ hmem
    rw [heq] at hid ⊢
    obtain ⟨term, hle, hled⟩ := (leader_known hc' hpeer).1 id hid
    exact ⟨term, ⟨_, rfl, hle⟩, hled.of_take⟩
  refine ⟨?_, hknows, ?_, ?_⟩
  · intro x hx y hy hlx hly hterm
    obtain ⟨hx', sx, hmx, heqx⟩ := exists_answer hx hlx
    obtain ⟨hy', sy, hmy, heqy⟩ := exists_answer hy hly
    obtain ⟨hpx, k₁, c₁, hc₁, rfl⟩ := hsampled _ _ _ hmx
    obtain ⟨hpy, k₂, c₂, hc₂, rfl⟩ := hsampled _ _ _ hmy
    rw [heqx] at hlx hterm
    rw [heqy] at hly hterm
    have hstatex := Option.some.inj hlx
    have hstatey := Option.some.inj hly
    have hsame := Option.some.inj hterm
    rcases Nat.le_total k₁ k₂ with hle | hle
    · exact election_safety cfg (.of_exec_any hc₁) (reach_of_take hle hc₁ hc₂) hpx hpy hstatex
        hstatey hsame
    · exact (election_safety cfg (.of_exec_any hc₂) (reach_of_take hle hc₂ hc₁) hpy hpx hstatey
        hstatex hsame.symm).symm
  · intro id hid
    obtain ⟨x, hhead, rfl⟩ := Option.map_eq_some_iff.mp hid
    have hx := List.mem_filter.mp (List.mem_of_mem_head? hhead)
    have hlead : x.state = some .leader := of_decide_eq_true hx.2
    obtain ⟨health, status, hmem, heq⟩ := exists_answer hx.1 hlead
    obtain ⟨hpeer, k, c', hc', rfl⟩ := hsampled _ _ _ hmem
    rw [heq] at hlead ⊢
    have haddr : Addressed cfg c' :=
      (.of_exec_any hc' : Reach cfg Runs.Any _ c').invariant (addressed_init cfg)
        fun _ _ _ hc _ hnext => hc.next hnext
    have hname := replicaId_of_params (haddr.params _ hpeer)
    refine ⟨_, k, c', x.peer, hc', hpeer, hname.symm, ?_, rfl⟩
    exact Option.some.inj hlead
  · intro hall a ha
    obtain ⟨H, -, hE, -⟩ := (electoral_init cfg).reach (.of_exec_any hrun : Reach cfg Runs.Any _ c)
    have hpeers := congrArg RaftNode.Params.peers (hE.nodes a ha).params
    have hlength := cfg.length_peers ha
    show answers.length / 2 + 1 = ((c.replicas a).node.peers.length + 1) / 2 + 1
    rw [show (c.replicas a).node.peers = cfg.peers a from hpeers, hall]
    omega

/-- Replica `a` of the trio answers when it has been elected, `b` does not answer, and `c` had
answered before the election. -/
def trioAnswers : List (String × StatusAnswer) :=
  [("a", .ok (⟨some "ok", some "a"⟩,
      ((Cluster.play .trio (.init .trio) trioElection).replicas "a").node.getStatus)),
    ("b", .error "HTTP 500"),
    ("c", .ok (⟨some "ok", some "c"⟩, ((Cluster.init .trio).replicas "c").node.getStatus))]

/-- The answers of the three replicas were sampled in the run. -/
theorem sampled_trio : Sampled .trio trioElection trioAnswers := by
  intro peer health status hmem
  have hall : Runs.exec (next .trio) (.init .trio) (trioElection.take 3) =
      some (Cluster.play .trio (.init .trio) trioElection) := by rfl
  have hnone : Runs.exec (next .trio) (.init .trio) (trioElection.take 0) =
      some (.init .trio) := rfl
  simp only [trioAnswers, List.mem_cons, List.not_mem_nil, or_false, Prod.mk.injEq,
    Except.ok.injEq, reduceCtorEq, and_false, false_or] at hmem
  rcases hmem with ⟨rfl, -, rfl⟩ | ⟨rfl, -, rfl⟩
  · exact ⟨by decide, 3, _, hall, rfl⟩
  · exact ⟨by decide, 0, _, hnone, rfl⟩

/-- The status names `a`, and it leads. -/
theorem cluster_status_sound_trio :
    (collectClusterStatus trioAnswers).leaderReplicaId = some "a" ∧
      ∃ term, Led .trio trioElection term "a" := by
  have hrun : Runs.exec (next .trio) (.init .trio) trioElection =
      some (Cluster.play .trio (.init .trio) trioElection) := by rfl
  have hleader : (collectClusterStatus trioAnswers).leaderReplicaId = some "a" := by rfl
  exact ⟨hleader, (cluster_status_sound hrun sampled_trio).2.2.1 "a" hleader⟩

end Cluster

end QuorumCanvas
