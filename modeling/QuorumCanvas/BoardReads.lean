import QuorumCanvas.UseBoard

/-!
# Reading a board from the replicas

`getStrokes` asks its targets in turn, the leader it knows of first, and a target
that is not the leader may name a replica that is asked at once.  The first
answer of status 200 is returned.  When there is none the client returns an empty
list, which is what a leader answers for an empty board, so a join acknowledged
with it wipes the canvas (`read_confirmed`).
-/

namespace QuorumCanvas

/-- The request for a board, `${peer}/board-state?boardId=...`. -/
structure BoardRequest where
  peer : String
  boardId : String
  deriving DecidableEq

/-- What comes of a request. -/
inductive Reply
  /-- status 200 -/
  | ok (strokes : List Stroke)
  /-- status 421 -/
  | notLeader (leaderHint : Option String)
  | otherStatus (status : ℕ)
  /-- no response in time, or none that can be parsed -/
  | failure
  deriving DecidableEq

/-- What comes of the requests of a call: of the one to the `i`-th target, and of
the one to the replica that this target names. -/
structure Replies where
  target : ℕ → Reply
  hinted : ℕ → Reply

/-- The replicas, and the one that answered last. -/
structure RemoteRaftClient where
  peers : List String
  currentLeader : Option String
  deriving DecidableEq

/-- A call of `getStrokes`: the client, and the requests made so far. -/
structure BoardRead where
  client : RemoteRaftClient
  requests : List (BoardRequest × Reply)
  deriving DecidableEq

namespace BoardRead

variable (boardId : String)

/-- `getRaw`, with what comes of it. -/
def getRaw (r : BoardRead) (peer : String) (reply : Reply) : BoardRead :=
  { r with requests := r.requests ++ [(⟨peer, boardId⟩, reply)] }

/-- The client remembers who leads. -/
def setLeader (r : BoardRead) (peer : String) : BoardRead :=
  { r with client := { r.client with currentLeader := some peer } }

/-- `tryGetStrokes` without `followHint`. -/
def tryHinted (r : BoardRead) (peer : String) (reply : Reply) : BoardRead × Option (List Stroke) :=
  let r := r.getRaw boardId peer reply
  match reply with
  | .ok strokes => (r.setLeader peer, some strokes)
  | .notLeader _ | .otherStatus _ | .failure => (r, none)

/-- `tryGetStrokes` with `followHint`; an empty hint is falsy. -/
def tryGetStrokes (r : BoardRead) (peer : String) (reply hinted : Reply) :
    BoardRead × Option (List Stroke) :=
  let r := r.getRaw boardId peer reply
  match reply with
  | .ok strokes => (r.setLeader peer, some strokes)
  | .notLeader (some leaderHint) =>
      if leaderHint = "" then (r, none)
      else (r.setLeader leaderHint).tryHinted boardId leaderHint hinted
  | .notLeader none | .otherStatus _ | .failure => (r, none)

/-- The loop over the targets, the first of which has number `i`. -/
def tryTargets (replies : Replies) (r : BoardRead) (i : ℕ) :
    List String → BoardRead × Option (List Stroke)
  | [] => (r, none)
  | peer :: targets =>
      match r.tryGetStrokes boardId peer (replies.target i) (replies.hinted i) with
      | (r, some strokes) => (r, some strokes)
      | (r, none) => tryTargets replies r (i + 1) targets

end BoardRead

namespace RemoteRaftClient

/-- The known leader first, then the other peers. -/
def targets (c : RemoteRaftClient) : List String :=
  match c.currentLeader with
  | none => c.peers
  | some leader => if leader = "" then c.peers else leader :: c.peers.filter fun p => p ≠ leader

/-- `getStrokes`, with the call it was. -/
def getStrokes (replies : Replies) (c : RemoteRaftClient) (boardId : String) :
    BoardRead × List Stroke :=
  let (r, found) := BoardRead.tryTargets boardId replies ⟨c, []⟩ 0 c.targets
  (r, found.getD [])

/-- The message that `handleJoin` sends to the client that joins. -/
def joinAck (replies : Replies) (c : RemoteRaftClient) (boardId : String) : ServerMessage :=
  .joinAck boardId (c.getStrokes replies boardId).2

/-- A replica that was asked has answered with exactly the strokes returned. -/
def Confirmed (replies : Replies) (c : RemoteRaftClient) (boardId : String) : Prop :=
  ∃ request, (request, Reply.ok (c.getStrokes replies boardId).2) ∈
    (c.getStrokes replies boardId).1.requests

end RemoteRaftClient

namespace Replies

variable (replies : Replies) (i : ℕ)

/-- The `i`-th target confirms the board, or it names a replica that does. -/
def Confirms : Prop :=
  (∃ strokes, replies.target i = .ok strokes) ∨
    ∃ leaderHint ≠ "", replies.target i = .notLeader (some leaderHint) ∧
      ∃ strokes, replies.hinted i = .ok strokes

end Replies

namespace BoardRead

variable {boardId : String} {replies : Replies} {r : BoardRead}

/-! ## One target -/

/-- The answer found is the one to a request that was made. -/
def Recorded (r : BoardRead) (strokes : List Stroke) : Prop :=
  ∃ request, (request, Reply.ok strokes) ∈ r.requests

/-- Strokes that came back are recorded. -/
theorem recorded_getRaw (r : BoardRead) (peer : String) (strokes : List Stroke) :
    (r.getRaw boardId peer (.ok strokes)).Recorded strokes :=
  ⟨⟨peer, boardId⟩, List.mem_append_right _ List.mem_cons_self⟩

/-- So are those of the hinted leader. -/
theorem tryHinted_some {peer : String} {reply : Reply} {strokes : List Stroke}
    (h : (r.tryHinted boardId peer reply).2 = some strokes) :
    (r.tryHinted boardId peer reply).1.Recorded strokes := by
  cases reply with
  | ok found =>
      obtain rfl : found = strokes := Option.some.inj h
      exact recorded_getRaw r peer found
  | notLeader leaderHint => cases h
  | otherStatus status => cases h
  | failure => cases h

/-- The hinted leader confirms, or there is nothing. -/
theorem isSome_tryHinted {peer : String} {reply : Reply} :
    (r.tryHinted boardId peer reply).2.isSome ↔ ∃ strokes, reply = .ok strokes := by
  cases reply <;> simp [tryHinted]

/-- Those of a target, or of the leader it hints at. -/
theorem tryGetStrokes_some {peer : String} {reply hinted : Reply} {strokes : List Stroke}
    (h : (r.tryGetStrokes boardId peer reply hinted).2 = some strokes) :
    (r.tryGetStrokes boardId peer reply hinted).1.Recorded strokes := by
  match reply with
  | .ok found =>
      obtain rfl : found = strokes := Option.some.inj h
      exact recorded_getRaw r peer found
  | .notLeader (some leaderHint) =>
      simp only [tryGetStrokes] at h ⊢
      split at h
      · cases h
      · next hne =>
          rw [if_neg hne]
          exact tryHinted_some h
  | .notLeader none => cases h
  | .otherStatus _ => cases h
  | .failure => cases h

/-- A target yields strokes when it confirms the board or names a replica that does. -/
theorem isSome_tryGetStrokes {peer : String} {i : ℕ} :
    (r.tryGetStrokes boardId peer (replies.target i) (replies.hinted i)).2.isSome ↔
      replies.Confirms i := by
  unfold Replies.Confirms
  match replies.target i with
  | .ok strokes => simp [tryGetStrokes]
  | .notLeader (some leaderHint) =>
      by_cases hempty : leaderHint = ""
      · simp [tryGetStrokes, hempty]
      · simp [tryGetStrokes, hempty, isSome_tryHinted]
  | .notLeader none => simp [tryGetStrokes]
  | .otherStatus _ => simp [tryGetStrokes]
  | .failure => simp [tryGetStrokes]

/-! ## All targets -/

/-- Those of the first target that confirms. -/
theorem tryTargets_some {targets : List String} {i : ℕ} {strokes : List Stroke}
    (h : (tryTargets boardId replies r i targets).2 = some strokes) :
    (tryTargets boardId replies r i targets).1.Recorded strokes := by
  induction targets generalizing r i with
  | nil => cases h
  | cons peer targets ih =>
      simp only [tryTargets] at h ⊢
      split at h
      · next r' found heq =>
          have hfound : found = strokes := Option.some.inj h
          have hsome := congrArg Prod.snd heq
          have hrecorded := tryGetStrokes_some hsome
          rw [heq] at hrecorded
          exact hfound ▸ hrecorded
      · next r' heq => exact ih h

/-- There are strokes if one of the targets confirms. -/
theorem isSome_tryTargets {targets : List String} {i : ℕ} :
    (tryTargets boardId replies r i targets).2.isSome ↔
      ∃ k < targets.length, replies.Confirms (i + k) := by
  induction targets generalizing r i with
  | nil => simp [tryTargets]
  | cons peer targets ih =>
      have hhead : (r.tryGetStrokes boardId peer (replies.target i) (replies.hinted i)).2.isSome ↔
          replies.Confirms i := isSome_tryGetStrokes
      simp only [tryTargets]
      split
      · next r' found heq =>
          have hconfirms : replies.Confirms i := hhead.mp (by rw [heq]; rfl)
          exact ⟨fun _ => ⟨0, by simp, hconfirms⟩, fun _ => rfl⟩
      · next r' heq =>
          have hnot : ¬ replies.Confirms i := fun hc => by
            have hsome := hhead.mpr hc
            rw [heq] at hsome
            cases hsome
          rw [ih]
          constructor
          · intro h
            obtain ⟨k, hk, hc⟩ := h
            refine ⟨k + 1, Nat.succ_lt_succ hk, ?_⟩
            rwa [show i + (k + 1) = i + 1 + k by omega]
          · intro h
            obtain ⟨k, hk, hc⟩ := h
            cases k with
            | zero => exact (hnot hc).elim
            | succ k =>
                refine ⟨k, Nat.lt_of_succ_lt_succ hk, ?_⟩
                rwa [show i + 1 + k = i + (k + 1) by omega]

/-- Where nothing was found, no request was answered with status 200. -/
theorem not_recorded_tryHinted {peer : String} {reply : Reply} {strokes : List Stroke}
    (hr : ¬ r.Recorded strokes) (h : (r.tryHinted boardId peer reply).2 = none) :
    ¬ (r.tryHinted boardId peer reply).1.Recorded strokes := by
  cases reply <;> simp_all [tryHinted, Recorded, getRaw]

/-- A target that gives nothing records nothing. -/
theorem not_recorded_tryGetStrokes {peer : String} {reply hinted : Reply} {strokes : List Stroke}
    (hr : ¬ r.Recorded strokes) (h : (r.tryGetStrokes boardId peer reply hinted).2 = none) :
    ¬ (r.tryGetStrokes boardId peer reply hinted).1.Recorded strokes := by
  have hraw : (∀ found, reply ≠ .ok found) → ¬ (r.getRaw boardId peer reply).Recorded strokes := by
    intro hne hrecorded
    obtain ⟨request, hmem⟩ := hrecorded
    rcases List.mem_append.mp hmem with hold | hnew
    · exact hr ⟨request, hold⟩
    · have heq := congrArg Prod.snd (List.mem_singleton.mp hnew)
      exact hne strokes heq.symm
  match reply with
  | .ok found => cases h
  | .notLeader (some leaderHint) =>
      have hraw := hraw (fun _ => nofun)
      simp only [tryGetStrokes] at h ⊢
      split at h
      · next hempty => rwa [if_pos hempty]
      · next hne =>
          rw [if_neg hne]
          exact not_recorded_tryHinted (r := (r.getRaw boardId peer _).setLeader leaderHint) hraw h
  | .notLeader none => exact hraw fun _ => nofun
  | .otherStatus _ => exact hraw fun _ => nofun
  | .failure => exact hraw fun _ => nofun

/-- Neither do several. -/
theorem not_recorded_tryTargets {targets : List String} {i : ℕ} {strokes : List Stroke}
    (hr : ¬ r.Recorded strokes) (h : (tryTargets boardId replies r i targets).2 = none) :
    ¬ (tryTargets boardId replies r i targets).1.Recorded strokes := by
  induction targets generalizing r i with
  | nil => exact hr
  | cons peer targets ih =>
      simp only [tryTargets] at h ⊢
      split at h
      · cases h
      · next r' heq =>
          have hnone := congrArg Prod.snd heq
          have hr' := not_recorded_tryGetStrokes hr hnone
          rw [heq] at hr'
          exact ih hr' h

end BoardRead

namespace RemoteRaftClient

variable (replies : Replies) (c : RemoteRaftClient) (boardId : String)

/-- **The board is confirmed exactly when a target confirms it.**  Otherwise the
client returns an empty list, and a join acknowledged with it wipes the canvas. -/
theorem read_confirmed :
    (c.Confirmed replies boardId ↔ ∃ i < c.targets.length, replies.Confirms i) ∧
    ((¬ ∃ i < c.targets.length, replies.Confirms i) →
      ∀ b : UseBoard, (b.handleMessage (c.joinAck replies boardId)).strokes = []) := by
  have hsome : (BoardRead.tryTargets boardId replies ⟨c, []⟩ 0 c.targets).2.isSome ↔
      ∃ k < c.targets.length, replies.Confirms (0 + k) := BoardRead.isSome_tryTargets
  simp only [Nat.zero_add] at hsome
  rw [← hsome]
  constructor
  · constructor
    · intro hconfirmed
      refine Option.isSome_iff_ne_none.mpr fun hnone => ?_
      exact BoardRead.not_recorded_tryTargets (by rintro ⟨_, h⟩; cases h) hnone hconfirmed
    · intro hfound
      obtain ⟨strokes, hstrokes⟩ := Option.isSome_iff_exists.mp hfound
      have hrecorded := BoardRead.tryTargets_some hstrokes
      have hreturned : (c.getStrokes replies boardId).2 = strokes := by
        simp [getStrokes, hstrokes]
      rw [Confirmed, hreturned]
      exact hrecorded
  · intro hnot b
    have hnone := Option.not_isSome_iff_eq_none.mp hnot
    simp [joinAck, getStrokes, hnone, UseBoard.handleMessage]

/-- With the only replica out of reach the client returns what it returns for an empty
board, and the canvas of the client that joins is wiped. -/
theorem unconfirmed_board :
    let c : RemoteRaftClient := ⟨["http://r1"], none⟩
    let unreachable : Replies := ⟨fun _ => .failure, fun _ => .failure⟩
    let empty : Replies := ⟨fun _ => .ok [], fun _ => .failure⟩
    let shown := UseBoard.mounted.handleMessage (.joinAck "board" [.dot "x" "board"])
    ¬ c.Confirmed unreachable "board" ∧ c.joinAck unreachable "board" = c.joinAck empty "board" ∧
      shown.strokes ≠ [] ∧
      (shown.handleMessage (c.joinAck unreachable "board")).strokes = [] := by
  refine ⟨?_, rfl, by decide, rfl⟩
  intro h
  obtain ⟨request, hmem⟩ := h
  simp [getStrokes, targets, BoardRead.tryTargets, BoardRead.tryGetStrokes,
    BoardRead.getRaw] at hmem

end RemoteRaftClient

end QuorumCanvas
