import QuorumCanvas.Applied
import QuorumCanvas.BoardReads
import QuorumCanvas.ElectionSafety

/-!
# Submitting a stroke

`submitStroke` posts the stroke to one target after the other, and does so again in further
attempts.  A post that was refused or got no answer may have been appended all the same, and
nothing on the way of a write looks whether the stroke is there already.  So a call leads to
as many entries as it has made posts, whatever it returns, and to no more
(`entries_of_submission`).
-/

namespace QuorumCanvas

/-! ## The call -/

/-- What a call of `submitStroke` waits for. -/
inductive SubmitStage
  /-- `post` to the target `peer` -/
  | posting (peer : String)
  /-- `post` to the replica that the target has named -/
  | following (leaderHint : String)
  | delaying
  | returned (result : Bool)
  deriving DecidableEq

/-- How a `post` settles. -/
inductive PostOutcome
  | response (success : Bool) (leaderHint : Option String)
  /-- no response in time, or none of status 2xx -/
  | threw
  deriving DecidableEq

/-- A call of `submitStroke`. -/
structure SubmitCall where
  client : RemoteRaftClient
  attempt : ℕ
  /-- the targets behind the one that was posted to -/
  remaining : List String
  shouldRetry : Bool
  stage : SubmitStage
  /-- history variable: the addresses posted to -/
  posts : List String
  deriving DecidableEq

namespace SubmitCall

variable (maxWriteAttempts : ℕ)

/-- A stroke is posted to a replica. -/
def post (s : SubmitCall) (url : String) (stage : SubmitStage) : SubmitCall :=
  { s with stage, posts := s.posts ++ [url] }

/-- Go on with the next target, or behind the loop over the targets. -/
def nextTarget (s : SubmitCall) : SubmitCall :=
  match s.remaining with
  | peer :: targets => { s with remaining := targets }.post peer (.posting peer)
  | [] =>
      if s.shouldRetry = false ∨ s.attempt + 1 = maxWriteAttempts then
        { s with stage := .returned false }
      else { s with stage := .delaying }

/-- The beginning of an attempt. -/
def beginAttempt (s : SubmitCall) : SubmitCall :=
  { s with remaining := s.client.targets, shouldRetry := false }.nextTarget maxWriteAttempts

/-- `submitStroke` up to its first `await`. -/
def submitStroke (client : RemoteRaftClient) : SubmitCall :=
  let s : SubmitCall := ⟨client, 0, [], false, .returned false, []⟩
  if 0 < maxWriteAttempts then s.beginAttempt maxWriteAttempts else s

/-- The client remembers or forgets who leads. -/
def setLeader (s : SubmitCall) (leader : Option String) : SubmitCall :=
  { s with client := { s.client with currentLeader := leader } }

/-- The `post` that the call waits for settles.  An empty hint is falsy. -/
def settle (s : SubmitCall) (outcome : PostOutcome) : Option SubmitCall :=
  match s.stage, outcome with
  | .posting peer, .response true _ =>
      some { s.setLeader (some peer) with stage := .returned true }
  | .posting _, .response false (some leaderHint) =>
      let s := { s with shouldRetry := true }
      if leaderHint = "" then some (s.nextTarget maxWriteAttempts)
      else some ((s.setLeader (some leaderHint)).post leaderHint (.following leaderHint))
  | .following _, .response true _ => some { s with stage := .returned true }
  | .posting _, _ | .following _, .threw =>
      some ({ s with shouldRetry := true }.nextTarget maxWriteAttempts)
  | .following _, .response false _ => some (s.nextTarget maxWriteAttempts)
  | .delaying, _ | .returned _, _ => none

/-- The delay between two attempts is over. -/
def wake (s : SubmitCall) : Option SubmitCall :=
  match s.stage with
  | .delaying => some ({ s with attempt := s.attempt + 1 }.beginAttempt maxWriteAttempts)
  | _ => none

end SubmitCall

/-! ## The call and the cluster -/

/-- A call of `submitStroke` and the cluster that it posts to. -/
structure SubmittedStroke where
  cluster : Cluster
  call : SubmitCall
  /-- the posts that have not arrived, by their number -/
  onWay : List (ℕ × String)
  /-- the posts that have, with the number of the `handleClientWrite` they made -/
  arrived : List (ℕ × ℕ)
  /-- history variable: the entries that they were to append -/
  created : List LogEntry

/-- What can happen. -/
inductive SubmissionEvent
  /-- something that does not concern the call -/
  | cluster (e : Cluster.Event)
  /-- a post reaches its target, which may crash over it -/
  | arrive (post : ℕ) (a : String) (crash : Option ℕ)
  | settle (outcome : PostOutcome)
  | wake
  /-- other calls of the client have found a leader, or lost it -/
  | learn (leader : Option String)

namespace SubmittedStroke

/-- The call has gone on; what it has posted is on its way. -/
def proceed (s : SubmittedStroke) (call : SubmitCall) : SubmittedStroke :=
  { s with
    call := call
    onWay := s.onWay ++ (call.posts.drop s.call.posts.length).mapIdx fun i url =>
      (s.call.posts.length + i, url) }

/-- A `post` may throw at any time; otherwise it settles with the response it was given. -/
def Possible (s : SubmittedStroke) : PostOutcome → Prop
  | .response success leaderHint => ∃ x ∈ s.arrived, x.1 + 1 = s.call.posts.length ∧
      (x.2, .write success leaderHint) ∈ s.cluster.responses
  | .threw => True

instance (s : SubmittedStroke) (outcome : PostOutcome) : Decidable (s.Possible outcome) := by
  cases outcome <;> unfold Possible <;> infer_instance

/-- The event that the arrival of a post is for the cluster. -/
def arrival (a : String) (stroke : Stroke) : Option ℕ → Cluster.Event
  | none => .act (.clientWrite a stroke)
  | some calls => .crash (.clientWrite a stroke) calls

/-- The post `post` has arrived at `a`. -/
def receive (s : SubmittedStroke) (post : ℕ) (a : String) (stroke : Stroke) (c : Cluster) :
    SubmittedStroke :=
  { s with
    cluster := c
    onWay := s.onWay.erase (post, a)
    arrived := s.arrived ++ [(post, s.cluster.nextId)]
    created := s.created ++ [(s.cluster.replicas a).node.beginTurn.clientEntry stroke] }

/-- One step.  Nobody else submits this stroke. -/
def next (cfg : Config) (maxWriteAttempts : ℕ) (stroke : Stroke) (s : SubmittedStroke) :
    SubmissionEvent → Option SubmittedStroke
  | .cluster e =>
      if e.stroke? = some stroke then none
      else (Cluster.next cfg s.cluster e).map fun c => { s with cluster := c }
  | .arrive post a crash =>
      if (post, a) ∈ s.onWay then
        (Cluster.next cfg s.cluster (arrival a stroke crash)).map (s.receive post a stroke)
      else none
  | .settle outcome =>
      if s.Possible outcome then (s.call.settle maxWriteAttempts outcome).map s.proceed else none
  | .wake => (s.call.wake maxWriteAttempts).map s.proceed
  | .learn leader => some { s with call := s.call.setLeader leader }

/-- The call is made. -/
def start (maxWriteAttempts : ℕ) (client : RemoteRaftClient) (c : Cluster) : SubmittedStroke :=
  let call := SubmitCall.submitStroke maxWriteAttempts client
  ⟨c, call, call.posts.mapIdx fun i url => (i, url), [], []⟩

end SubmittedStroke

/-! ## How many posts a call makes -/

namespace SubmitCall

variable {maxWriteAttempts n : ℕ} {s s' : SubmitCall}

/-- A call of a client with `n` peers makes at most two posts for each target, of which it
has at most `n + 1` in each attempt. -/
structure Within (maxWriteAttempts n : ℕ) (s : SubmitCall) : Prop where
  peers : s.client.peers.length = n
  posting : ∀ peer, s.stage = .posting peer → s.attempt < maxWriteAttempts ∧
    s.posts.length + 2 * s.remaining.length + 1 ≤ 2 * (n + 1) * (s.attempt + 1)
  following : ∀ leaderHint, s.stage = .following leaderHint → s.attempt < maxWriteAttempts ∧
    s.posts.length + 2 * s.remaining.length ≤ 2 * (n + 1) * (s.attempt + 1)
  delaying : s.stage = .delaying → s.attempt + 1 < maxWriteAttempts ∧
    s.posts.length ≤ 2 * (n + 1) * (s.attempt + 1)
  returned : ∀ result, s.stage = .returned result →
    s.posts.length ≤ 2 * (n + 1) * maxWriteAttempts

/-- At no time it has made more than all its attempts allow. -/
theorem Within.posts_le (h : s.Within maxWriteAttempts n) :
    s.posts.length ≤ 2 * (n + 1) * maxWriteAttempts := by
  have hle : s.attempt < maxWriteAttempts →
      2 * (n + 1) * (s.attempt + 1) ≤ 2 * (n + 1) * maxWriteAttempts := fun hlt =>
    Nat.mul_le_mul_left _ hlt
  cases hstage : s.stage with
  | posting peer =>
      obtain ⟨hlt, hposts⟩ := h.posting peer hstage
      have := hle hlt
      omega
  | following leaderHint =>
      obtain ⟨hlt, hposts⟩ := h.following leaderHint hstage
      have := hle hlt
      omega
  | delaying =>
      obtain ⟨hlt, hposts⟩ := h.delaying hstage
      have := hle (by omega)
      omega
  | returned result => exact h.returned result hstage

/-- The next target, or the next attempt, within the bound. -/
theorem within_nextTarget (hpeers : s.client.peers.length = n)
    (hattempt : s.attempt < maxWriteAttempts)
    (hposts : s.posts.length + 2 * s.remaining.length ≤ 2 * (n + 1) * (s.attempt + 1)) :
    (s.nextTarget maxWriteAttempts).Within maxWriteAttempts n := by
  unfold nextTarget
  split
  · next peer targets heq =>
      rw [heq, List.length_cons] at hposts
      refine ⟨hpeers, fun _ _ => ⟨hattempt, ?_⟩, nofun, nofun, nofun⟩
      show (s.posts ++ [peer]).length + 2 * targets.length + 1 ≤ 2 * (n + 1) * (s.attempt + 1)
      rw [List.length_append, List.length_singleton]
      omega
  · have hall : 2 * (n + 1) * (s.attempt + 1) ≤ 2 * (n + 1) * maxWriteAttempts :=
      Nat.mul_le_mul_left _ hattempt
    split
    · refine ⟨hpeers, nofun, nofun, nofun, fun _ _ => ?_⟩
      show s.posts.length ≤ _
      omega
    · next hnot =>
        obtain ⟨-, hmore⟩ := not_or.mp hnot
        refine ⟨hpeers, nofun, nofun, fun _ => ⟨?_, ?_⟩, nofun⟩
        · show s.attempt + 1 < maxWriteAttempts
          omega
        · show s.posts.length ≤ 2 * (n + 1) * (s.attempt + 1)
          omega

/-- The cached leader, then the peers. -/
theorem length_targets (c : RemoteRaftClient) : c.targets.length ≤ c.peers.length + 1 := by
  unfold RemoteRaftClient.targets
  split
  · exact Nat.le_succ _
  · split
    · exact Nat.le_succ _
    · exact Nat.succ_le_succ (List.length_filter_le _ _)

/-- An attempt posts to each target twice at most. -/
theorem within_beginAttempt (hpeers : s.client.peers.length = n)
    (hattempt : s.attempt < maxWriteAttempts)
    (hposts : s.posts.length ≤ 2 * (n + 1) * s.attempt) :
    (s.beginAttempt maxWriteAttempts).Within maxWriteAttempts n := by
  have htargets := length_targets s.client
  refine within_nextTarget hpeers hattempt ?_
  show s.posts.length + 2 * s.client.targets.length ≤ 2 * (n + 1) * (s.attempt + 1)
  rw [Nat.mul_add_one]
  omega

/-- The call starts within the bound. -/
theorem within_submitStroke (client : RemoteRaftClient) :
    (submitStroke maxWriteAttempts client).Within maxWriteAttempts client.peers.length := by
  unfold submitStroke
  dsimp only
  split
  · next hpos => exact within_beginAttempt rfl hpos (Nat.zero_le _)
  · exact ⟨rfl, nofun, nofun, nofun, fun _ _ => Nat.zero_le _⟩

/-- It stays within when a post settles. -/
theorem Within.settle (h : s.Within maxWriteAttempts n) {outcome : PostOutcome}
    (hsettle : s.settle maxWriteAttempts outcome = some s') : s'.Within maxWriteAttempts n := by
  have hall := h.posts_le
  unfold SubmitCall.settle at hsettle
  split at hsettle
  · obtain rfl := Option.some.inj hsettle
    exact ⟨h.peers, nofun, nofun, nofun, fun _ _ => hall⟩
  · next peer leaderHint hstage =>
      obtain ⟨hlt, hposts⟩ := h.posting peer hstage
      dsimp only at hsettle
      split at hsettle
      · obtain rfl := Option.some.inj hsettle
        exact within_nextTarget h.peers hlt (Nat.le_of_succ_le hposts)
      · obtain rfl := Option.some.inj hsettle
        refine ⟨h.peers, nofun, fun _ _ => ⟨hlt, ?_⟩, nofun, nofun⟩
        show (s.posts ++ [leaderHint]).length + 2 * s.remaining.length ≤
          2 * (n + 1) * (s.attempt + 1)
        rw [List.length_append, List.length_singleton]
        omega
  · obtain rfl := Option.some.inj hsettle
    exact ⟨h.peers, nofun, nofun, nofun, fun _ _ => hall⟩
  · next peer hstage _ _ =>
      obtain rfl := Option.some.inj hsettle
      obtain ⟨hlt, hposts⟩ := h.posting peer hstage
      exact within_nextTarget h.peers hlt (Nat.le_of_succ_le hposts)
  · next leaderHint hstage =>
      obtain rfl := Option.some.inj hsettle
      obtain ⟨hlt, hposts⟩ := h.following leaderHint hstage
      exact within_nextTarget h.peers hlt hposts
  · next leaderHint _ hstage =>
      obtain rfl := Option.some.inj hsettle
      obtain ⟨hlt, hposts⟩ := h.following leaderHint hstage
      exact within_nextTarget h.peers hlt hposts
  · cases hsettle
  · cases hsettle

/-- It does when the client wakes. -/
theorem Within.wake (h : s.Within maxWriteAttempts n)
    (hwake : s.wake maxWriteAttempts = some s') : s'.Within maxWriteAttempts n := by
  unfold SubmitCall.wake at hwake
  split at hwake
  · next hstage =>
      obtain rfl := Option.some.inj hwake
      obtain ⟨hlt, hposts⟩ := h.delaying hstage
      exact within_beginAttempt h.peers hlt hposts
  · cases hwake

/-- Posts are only added. -/
theorem posts_nextTarget (s : SubmitCall) : s.posts <+: (s.nextTarget maxWriteAttempts).posts := by
  unfold nextTarget
  split
  · exact List.prefix_append _ _
  · split <;> exact List.prefix_rfl

/-- What has been posted stays posted. -/
theorem posts_settle {outcome : PostOutcome}
    (hsettle : s.settle maxWriteAttempts outcome = some s') : s.posts <+: s'.posts := by
  unfold SubmitCall.settle at hsettle
  split at hsettle
  · obtain rfl := Option.some.inj hsettle
    exact List.prefix_rfl
  · dsimp only at hsettle
    split at hsettle
    · obtain rfl := Option.some.inj hsettle
      exact posts_nextTarget { s with shouldRetry := true }
    · obtain rfl := Option.some.inj hsettle
      exact List.prefix_append _ _
  · obtain rfl := Option.some.inj hsettle
    exact List.prefix_rfl
  · obtain rfl := Option.some.inj hsettle
    exact posts_nextTarget { s with shouldRetry := true }
  · obtain rfl := Option.some.inj hsettle
    exact posts_nextTarget { s with shouldRetry := true }
  · obtain rfl := Option.some.inj hsettle
    exact posts_nextTarget s
  · cases hsettle
  · cases hsettle

/-- When the client wakes as well. -/
theorem posts_wake (hwake : s.wake maxWriteAttempts = some s') : s.posts <+: s'.posts := by
  unfold SubmitCall.wake at hwake
  split at hwake
  · obtain rfl := Option.some.inj hwake
    exact posts_nextTarget
      { s with attempt := s.attempt + 1, remaining := s.client.targets, shouldRetry := false }
  · cases hwake

/-- Leaders are no posts. -/
theorem Within.setLeader (h : s.Within maxWriteAttempts n) (leader : Option String) :
    (s.setLeader leader).Within maxWriteAttempts n :=
  ⟨h.peers, h.posting, h.following, h.delaying, h.returned⟩

end SubmitCall

/-! ## The entries a call leads to -/

namespace SubmittedStroke

variable {cfg : Config} {maxWriteAttempts n : ℕ} {stroke : Stroke} {s s' : SubmittedStroke}

/-- An entry with the stroke is among these. -/
def Made (stroke : Stroke) (created : List LogEntry) (e : LogEntry) : Prop :=
  e.stroke = stroke → e ∈ created

/-- No log, no history, no file and no message has an entry with the stroke but these. -/
def Accounts (cfg : Config) (stroke : Stroke) (created : List LogEntry) (c : Cluster) : Prop :=
  Cluster.Local cfg (KeptNode (Made stroke created) fun _ => False)
    (KeptRequest (Made stroke created) fun _ => False)
    (KeptReply (Made stroke created) fun _ => False) c

/-- The invariant of a call of a client with `n` peers. -/
structure Accounted (cfg : Config) (maxWriteAttempts n : ℕ) (stroke : Stroke)
    (s : SubmittedStroke) :
    Prop where
  entries : Accounts cfg stroke s.created s.cluster
  count : s.created.length + s.onWay.length ≤ s.call.posts.length
  within : s.call.Within maxWriteAttempts n

theorem Accounts.mono {created more : List LogEntry} {c : Cluster} (hsub : created ⊆ more)
    (h : Accounts cfg stroke created c) : Accounts cfg stroke more c := by
  have hle : ∀ e, Made stroke created e → Made stroke more e := fun e he hs => hsub (he hs)
  exact Cluster.Local.mono (fun _ => KeptNode.mono hle) (fun _ => KeptRequest.mono hle)
    (fun _ => KeptReply.mono hle) h

/-- An event keeps the account when the entry it writes is in it. -/
theorem Accounts.next {created : List LogEntry} {c c' : Cluster} {e : Cluster.Event}
    (h : Accounts cfg stroke created c)
    (hwrite : ∀ a, e = .act (.clientWrite a stroke) ∨
      (∃ calls, e = .crash (.clientWrite a stroke) calls) →
      (c.replicas a).node.beginTurn.clientEntry stroke ∈ created)
    (hnext : Cluster.next cfg c e = some c') : Accounts cfg stroke created c' := by
  refine (kept_localInvariant (B := fun _ => False) (fun hproto => hproto.elim) cfg).next h ?_ hnext
  intro a stroke' he hs
  obtain rfl : stroke' = stroke := hs
  exact hwrite a he

/-- An event that does not write the stroke creates no entry of it. -/
theorem Accounts.next_other {created : List LogEntry} {c c' : Cluster} {e : Cluster.Event}
    (h : Accounts cfg stroke created c) (hother : e.stroke? ≠ some stroke)
    (hnext : Cluster.next cfg c e = some c') : Accounts cfg stroke created c' := by
  apply h.next _ hnext
  intro a he
  rcases he with rfl | ⟨calls, rfl⟩ <;> exact (hother rfl).elim

/-- At the start there is none. -/
theorem accounts_init (cfg : Config) (stroke : Stroke) : Accounts cfg stroke [] (.init cfg) :=
  (kept_localInvariant (B := fun _ => False) (fun hproto => hproto.elim) cfg).init keptFiles_fresh

/-- The call has created none yet. -/
theorem accounted_start {c : Cluster} (client : RemoteRaftClient)
    (h : Accounts cfg stroke [] c) :
    (start maxWriteAttempts client c).Accounted cfg maxWriteAttempts client.peers.length
        stroke where
  entries := h
  count := by simp [start]
  within := SubmitCall.within_submitStroke client

/-- The call goes on: every post on its way has been made. -/
theorem Accounted.proceed (h : s.Accounted cfg maxWriteAttempts n stroke) {call : SubmitCall}
    (hposts : s.call.posts <+: call.posts) (hwithin : call.Within maxWriteAttempts n) :
    (s.proceed call).Accounted cfg maxWriteAttempts n stroke where
  entries := h.entries
  count := by
    have hcount := h.count
    have hlen := hposts.length_le
    simp only [SubmittedStroke.proceed, List.length_append, List.length_mapIdx, List.length_drop]
    omega
  within := hwithin

/-- A post arrives: of those on their way there is one less. -/
theorem Accounted.receive (h : s.Accounted cfg maxWriteAttempts n stroke) {post : ℕ} {a : String}
    {crash : Option ℕ} {c : Cluster} (hmem : (post, a) ∈ s.onWay)
    (hnext : Cluster.next cfg s.cluster (arrival a stroke crash) = some c) :
    (s.receive post a stroke c).Accounted cfg maxWriteAttempts n stroke where
  entries := by
    have hmore : Accounts cfg stroke
        (s.created ++ [(s.cluster.replicas a).node.beginTurn.clientEntry stroke]) s.cluster :=
      h.entries.mono (List.subset_append_left _ _)
    apply hmore.next _ hnext
    intro b he
    obtain rfl : a = b := by
      cases crash <;> rcases he with he | ⟨calls, he⟩ <;> cases he <;> rfl
    exact List.mem_append_right _ (List.mem_singleton_self _)
  count := by
    have hcount := h.count
    have hpos := List.length_pos_of_mem hmem
    simp only [SubmittedStroke.receive, List.length_append, List.length_singleton,
      List.length_erase_of_mem hmem]
    omega
  within := h.within

/-- Every event of call and cluster is accounted for. -/
theorem Accounted.next (h : s.Accounted cfg maxWriteAttempts n stroke) {e : SubmissionEvent}
    (hnext : s.next cfg maxWriteAttempts stroke e = some s') :
    s'.Accounted cfg maxWriteAttempts n stroke := by
  cases e with
  | cluster e =>
      simp only [SubmittedStroke.next] at hnext
      split at hnext
      · cases hnext
      · next hother =>
          obtain ⟨c, hc, rfl⟩ := Option.map_eq_some_iff.mp hnext
          exact ⟨h.entries.next_other hother hc, h.count, h.within⟩
  | arrive post a crash =>
      simp only [SubmittedStroke.next] at hnext
      split at hnext
      · next hmem =>
          obtain ⟨c, hc, rfl⟩ := Option.map_eq_some_iff.mp hnext
          exact h.receive hmem hc
      · cases hnext
  | settle outcome =>
      simp only [SubmittedStroke.next] at hnext
      split at hnext
      · obtain ⟨call, hcall, rfl⟩ := Option.map_eq_some_iff.mp hnext
        exact h.proceed (SubmitCall.posts_settle hcall) (h.within.settle hcall)
      · cases hnext
  | wake =>
      obtain ⟨call, hcall, rfl⟩ := Option.map_eq_some_iff.mp hnext
      exact h.proceed (SubmitCall.posts_wake hcall) (h.within.wake hcall)
  | learn leader =>
      obtain rfl := Option.some.inj hnext
      exact ⟨h.entries, h.count, h.within.setLeader leader⟩

/-- **A call leads to no more entries than it has made posts,** whatever it returns and
whatever becomes of its posts: for each target at most two in each attempt. -/
theorem entries_of_submission (cfg : Config) {c : Cluster} {client : RemoteRaftClient}
    (hbefore : Cluster.Reach cfg (fun _ e => e.stroke? ≠ some stroke) (.init cfg) c)
    (h : Runs.Reach (next cfg maxWriteAttempts stroke) Runs.Any
      (start maxWriteAttempts client c) s) :
    s.call.posts.length ≤ 2 * (client.peers.length + 1) * maxWriteAttempts ∧
      ∃ created : List LogEntry, created.length ≤ s.call.posts.length ∧
        ∀ a ∈ cfg.members,
          (∀ e ∈ (s.cluster.replicas a).node.log.entries, e.stroke = stroke → e ∈ created) ∧
          ∀ x ∈ (s.cluster.replicas a).node.history, x.2.stroke = stroke → x.2 ∈ created := by
  have hnone : Accounts cfg stroke [] c :=
    hbefore.invariant (accounts_init cfg stroke) fun _ _ _ hc hother hnext =>
      hc.next_other hother hnext
  have hs : s.Accounted cfg maxWriteAttempts client.peers.length stroke :=
    h.invariant (accounted_start client hnone) fun _ _ _ hs _ hnext => hs.next hnext
  refine ⟨hs.within.posts_le, s.created, Nat.le_of_add_right_le hs.count, fun a ha => ?_⟩
  have hnode := hs.entries.nodes a ha
  exact ⟨hnode.log, hnode.history⟩

/-! ## A stroke that is submitted twice

A client of the trio posts to all three in five attempts and hears nothing.  The posts to
`a` of the first two attempts have arrived. -/

/-- Nothing is heard from the three targets. -/
def unheard : List SubmissionEvent := [.settle .threw, .settle .threw, .settle .threw]

/-- The call, up to its return. -/
def unheardCall : List SubmissionEvent :=
  [SubmissionEvent.arrive 0 "a" none] ++ unheard ++
    [SubmissionEvent.wake, .arrive 3 "a" none] ++ unheard ++ [SubmissionEvent.wake] ++
    unheard ++ [SubmissionEvent.wake] ++ unheard ++ [SubmissionEvent.wake] ++ unheard

/-- What the leader does afterwards. -/
def replicated : List SubmissionEvent :=
  [.act (.deliver ⟨4, "a", "b", .appendEntries
      ⟨1, "a", some "a", 0, 0, [⟨1, 1, .dot "x" "board"⟩], 0⟩⟩),
    .act (.sendReply "a" 0 (some (.appendEntries ⟨1, true, "b", 1⟩))),
    .act (.sendReply "a" 1 none), .act (.sendFinally "a" 0), .act (.sendFinally "a" 0),
    .act (.writeResume "a" 0), .act (.writeResume "a" 0),
    .act (.deliver ⟨9, "a", "b", .appendEntries
      ⟨1, "a", some "a", 1, 1, [⟨2, 1, .dot "x" "board"⟩], 1⟩⟩),
    .act (.sendReply "a" 0 (some (.appendEntries ⟨1, true, "b", 2⟩))),
    .act (.sendReply "a" 1 none), .act (.sendFinally "a" 0), .act (.sendFinally "a" 0),
    .act (.writeResume "a" 0)].map .cluster

/-- The state after some events, when they can all happen. -/
def play (s : SubmittedStroke) (events : List SubmissionEvent) : SubmittedStroke :=
  (Runs.exec (next .trio 5 (.dot "x" "board")) s events).getD s

/-- What events lead to is reached. -/
theorem reach_play {events : List SubmissionEvent}
    (h : (Runs.exec (next .trio 5 (.dot "x" "board")) s events).isSome = true) :
    Runs.Reach (next .trio 5 (.dot "x" "board")) Runs.Any s (s.play events) := by
  obtain ⟨s', hs'⟩ := Option.isSome_iff_exists.mp h
  rw [play, hs']
  exact Runs.Reach.of_exec_any hs'

/-- The call as it is made, as it returns, and when the leader has done its work. -/
def madeCall : SubmittedStroke :=
  start 5 ⟨["a", "b", "c"], none⟩ (Cluster.play .trio (.init .trio) trioElection)

/-- The call has returned. -/
def returnedCall : SubmittedStroke := madeCall.play unheardCall

/-- The cluster goes on to replicate both entries. -/
def doubledStroke : SubmittedStroke := returnedCall.play replicated

/-- Fifteen posts create fifteen entries at most. -/
theorem entries_of_submission_trio :
    doubledStroke.call.posts.length = 15 ∧
      ∃ created : List LogEntry, created.length ≤ 15 ∧
        ∀ a ∈ ["a", "b", "c"], ∀ x ∈ (doubledStroke.cluster.replicas a).node.history,
          x.2.stroke = .dot "x" "board" → x.2 ∈ created := by
  have hbefore : Cluster.Reach .trio (fun _ e => e.stroke? ≠ some (.dot "x" "board"))
      (.init .trio) (Cluster.play .trio (.init .trio) trioElection) :=
    ((Runs.Reach.refl.tail (e := trioElection[0]) nofun (by rfl)).tail
      (e := trioElection[1]) nofun (by rfl)).tail (e := trioElection[2]) nofun (by rfl)
  have hcall : Runs.Reach (next .trio 5 (.dot "x" "board")) Runs.Any madeCall returnedCall :=
    reach_play (by rfl)
  have hrun : Runs.Reach (next .trio 5 (.dot "x" "board")) Runs.Any madeCall doubledStroke :=
    hcall.trans (reach_play (by rfl))
  obtain ⟨-, created, hlen, hcreated⟩ := entries_of_submission .trio hbefore hrun
  have hposts : doubledStroke.call.posts.length = 15 := by rfl
  exact ⟨hposts, created, hposts ▸ hlen, fun a ha => (hcreated a ha).2⟩

/-- **One call can submit its stroke twice,** and return `false` before either entry is
committed. -/
theorem submitted_twice :
    Runs.Reach (next .trio 5 (.dot "x" "board")) Runs.Any madeCall returnedCall ∧
      returnedCall.call.stage = .returned false ∧
      (∀ a ∈ ["a", "b", "c"], (returnedCall.cluster.replicas a).node.commitIndex = 0) ∧
      Runs.Reach (next .trio 5 (.dot "x" "board")) Runs.Any returnedCall doubledStroke ∧
      (doubledStroke.cluster.replicas "a").node.commitIndex = 2 ∧
      (doubledStroke.cluster.replicas "a").node.history =
        [(1, ⟨1, 1, .dot "x" "board"⟩), (2, ⟨2, 1, .dot "x" "board"⟩)] := by
  refine ⟨reach_play (by rfl), by rfl, ?_, reach_play (by rfl), by rfl, by rfl⟩
  intro a ha
  rcases List.mem_cons.mp ha with rfl | ha
  · rfl
  · rcases List.mem_cons.mp ha with rfl | ha
    · rfl
    · obtain rfl := List.mem_singleton.mp ha
      rfl

end SubmittedStroke

end QuorumCanvas
