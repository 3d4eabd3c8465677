import QuorumCanvas.ElectionSafety
import QuorumCanvas.SingleFlight

/-!
# One replication call for each peer

`replicating` and the running `replicateOnce` calls of a replica are a table of calls
kept apart by peer: `driveReplication` starts a call or joins the one in the slot, the
reply of its RPC settles it, and its `finally` clears the slot.  The callers are the
heartbeat rounds and the client writes that wait for promises they were given.

A caller was given, for each peer, the promise then in the slot of the peer
(`Cluster.exists_drive`).  It resumes once these calls are gone, so the slots hold
nothing then, or later calls (`replication_guarded`).
-/

namespace QuorumCanvas

open RaftNode (Reply Request)
open SingleFlight (Guarded Since Table)

/-- A replication call as an entry of the table. -/
def Send.call (s : Send) : SingleFlight.Call String (ℕ × Request) := ⟨s.promise, s.peer, s.waiting⟩

/-- The replication calls of a turn. -/
def Turn.flights (t : Turn) : Table String (ℕ × Request) :=
  ⟨t.replica.replicating, t.replica.sends.map Send.call, t.fresh⟩

/-- A heartbeat round or a write of the replica waits for these promises. -/
def Replica.Awaits (r : Replica) (promises : List ℕ) : Prop :=
  promises ∈ r.rounds ∨ ∃ w ∈ r.writes, w.waiting = promises

/-- The slots of the peers hold these promises. -/
def Replica.Slots (r : Replica) (peers : List String) (promises : List ℕ) : Prop :=
  List.Forall₂ (fun peer promise => r.replicating peer = some promise) peers promises

namespace Turn

/-- The `finally` of a replication runs once its RPC has settled. -/
theorem sendFinally_done {t t' : Turn} {k : ℕ} (h : t.sendFinally k = some t') :
    ∃ send, t.replica.sends[k]? = some send ∧ send.waiting = none ∧
      t' = t.setSends (Function.update t.replica.replicating send.peer none)
        (t.replica.sends.eraseIdx k) := by
  simp only [sendFinally, Option.bind_eq_bind, Option.bind_eq_some_iff, Option.pure_def,
    Option.some.injEq] at h
  obtain ⟨send, hk, u, hg, rfl⟩ := h
  exact ⟨send, hk, Option.isNone_iff_eq_none.mp (guard_elim hg), rfl⟩

/-! ## Driving -/

/-- An occupied slot is left as it is, and the promise handed out is in the slot. -/
theorem driveReplication_slots (t : Turn) (peer : String) :
    SingleFlight.Steps t.flights (t.driveReplication peer).1.flights ∧
      (t.driveReplication peer).1.replica.replicating peer = some (t.driveReplication peer).2 ∧
      ∀ x p, t.replica.replicating x = some p →
        (t.driveReplication peer).1.replica.replicating x = some p := by
  cases hslot : t.replica.replicating peer with
  | some promise =>
      simp only [driveReplication, hslot]
      exact ⟨.refl, trivial, fun _ _ h => h⟩
  | none =>
      have hkeep : ∀ x p, t.replica.replicating x = some p →
          Function.update t.replica.replicating peer (some t.fresh) x = some p := by
        intro x p hx
        have hne : x ≠ peer := by
          intro heq
          rw [heq, hslot] at hx
          cases hx
        rw [Function.update_of_ne hne]
        exact hx
      have hself : Function.update t.replica.replicating peer (some t.fresh) peer = some t.fresh :=
        Function.update_self _ _ _
      cases hrequest : t.replica.node.replicateRequest peer with
      | none =>
          have hrequest' : t.number.replica.node.replicateRequest peer = none := hrequest
          simp only [driveReplication, hslot, hrequest']
          refine ⟨.single ?_, hself, hkeep⟩
          have hstart := SingleFlight.Step.start (f := t.flights) peer none (t.fresh + 1) hslot
            (Nat.lt_succ_self _)
          simpa [flights, number, setSends, Send.call] using hstart
      | some request =>
          have hrequest' : t.number.replica.node.replicateRequest peer = some request := hrequest
          simp only [driveReplication, hslot, hrequest']
          refine ⟨.single ?_, hself, hkeep⟩
          have hstart := SingleFlight.Step.start (f := t.flights) peer
            (some (t.fresh + 1, request)) (t.fresh + 2) hslot (by show t.fresh < _; omega)
          simpa [flights, number, setSends, send, Send.call] using hstart

/-- The promises of a round of calls are in the slots of its peers. -/
theorem driveAll_slots (t : Turn) (peers : List String) :
    SingleFlight.Steps t.flights (t.driveAll peers).1.flights ∧
      (t.driveAll peers).1.replica.Slots peers (t.driveAll peers).2 ∧
      ∀ x p, t.replica.replicating x = some p →
        (t.driveAll peers).1.replica.replicating x = some p := by
  induction peers generalizing t with
  | nil => exact ⟨.refl, .nil, fun _ _ h => h⟩
  | cons peer peers ih =>
      obtain ⟨hsteps, hslot, hkeep⟩ := t.driveReplication_slots peer
      obtain ⟨hsteps', hslots', hkeep'⟩ := ih (t.driveReplication peer).1
      exact ⟨hsteps.trans hsteps', .cons (hkeep' peer _ hslot) hslots',
        fun x p hx => hkeep' x p (hkeep x p hx)⟩

/-! ## A turn and its callers -/

/-- From `t` to `t'` the table of calls moves, and whoever waits in `t'` waited in `t` or
was given the promises that are now in the slots of its peers. -/
structure Coalesces (t t' : Turn) : Prop where
  steps : SingleFlight.Steps t.flights t'.flights
  awaits : ∀ promises, t'.replica.Awaits promises →
    t.replica.Awaits promises ∨ t'.replica.Slots t'.replica.node.peers promises

namespace Coalesces

variable {t t' t'' : Turn}

/-- Numbers may have been used for something else, and callers may have gone. -/
theorem of_eq (hslots : t'.replica.replicating = t.replica.replicating)
    (hsends : t'.replica.sends = t.replica.sends) (hfresh : t.fresh ≤ t'.fresh)
    (hrounds : t'.replica.rounds ⊆ t.replica.rounds)
    (hwrites : t'.replica.writes ⊆ t.replica.writes) : Coalesces t t' where
  steps := by
    have hskip := SingleFlight.Step.skip (f := t.flights) t'.fresh hfresh
    have heq : t'.flights = { t.flights with fresh := t'.fresh } := by
      unfold flights
      rw [hslots, hsends]
    rw [heq]
    exact .single hskip
  awaits := by
    intro promises haw
    rcases haw with hround | ⟨w, hw, hwait⟩
    · exact Or.inl (Or.inl (hrounds hround))
    · exact Or.inl (Or.inr ⟨w, hwrites hw, hwait⟩)

/-- Calls that no one waits for yet. -/
theorem of_steps (hsteps : SingleFlight.Steps t.flights t'.flights)
    (hrounds : t'.replica.rounds = t.replica.rounds)
    (hwrites : t'.replica.writes = t.replica.writes) : Coalesces t t' where
  steps := hsteps
  awaits := by
    intro promises haw
    unfold Replica.Awaits at haw
    rw [hrounds, hwrites] at haw
    exact Or.inl haw

/-- Whoever did not wait before waits for the calls just driven. -/
theorem of_driveAll {u : Turn} {peers : List String}
    (hsteps : SingleFlight.Steps t.flights u.flights)
    (hflights : t'.flights = (u.driveAll peers).1.flights)
    (hpeers : t'.replica.node.peers = peers)
    (haw : ∀ promises, t'.replica.Awaits promises →
      t.replica.Awaits promises ∨ promises = (u.driveAll peers).2) : Coalesces t t' := by
  obtain ⟨hdrive, hslots, -⟩ := u.driveAll_slots peers
  refine ⟨hflights ▸ hsteps.trans hdrive, fun promises hp => ?_⟩
  rcases haw promises hp with hold | rfl
  · exact Or.inl hold
  · have hreplicating : t'.replica.replicating = (u.driveAll peers).1.replica.replicating :=
      congrArg Table.slot hflights
    right
    rw [hpeers]
    unfold Replica.Slots
    rw [hreplicating]
    exact hslots

end Coalesces

/-- A round joins the calls that run, and starts the others. -/
theorem coalesces_sendHeartbeats (t : Turn) : Coalesces t t.sendHeartbeats := by
  unfold sendHeartbeats
  split
  · exact .of_eq rfl rfl le_rfl (List.Subset.refl _) (List.Subset.refl _)
  · obtain ⟨hd, -⟩ := t.driveAll_spec t.replica.node.peers
    refine .of_driveAll .refl rfl (congrArg RaftNode.peers hd.node) ?_
    intro promises haw
    rcases haw with hround | ⟨w, hw, hwait⟩
    · rcases List.mem_append.mp hround with hold | hnew
      · exact Or.inl (Or.inl (hd.rounds ▸ hold))
      · exact Or.inr (List.mem_singleton.mp hnew)
    · exact Or.inl (Or.inr ⟨w, hd.writes ▸ hw, hwait⟩)

/-- So does a write. -/
theorem coalesces_clientWrite (t : Turn) (stroke : Stroke) :
    Coalesces t (t.clientWrite stroke) := by
  unfold clientWrite
  dsimp only
  split
  · exact .of_eq rfl rfl (Nat.le_succ _) (List.Subset.refl _) (List.Subset.refl _)
  · let u := t.number.setNode (t.replica.node.clientAppend stroke)
    obtain ⟨hd, -⟩ := u.driveAll_spec t.replica.node.peers
    have hskip : SingleFlight.Steps t.flights u.flights :=
      .single (SingleFlight.Step.skip (f := t.flights) (t.fresh + 1) (Nat.le_succ _))
    have hpeers : (u.driveAll t.replica.node.peers).1.replica.node.peers =
        t.replica.node.peers := by
      rw [hd.node]
      rfl
    refine .of_driveAll hskip rfl hpeers ?_
    intro promises haw
    rcases haw with hround | ⟨w, hw, hwait⟩
    · exact Or.inl (Or.inl (hd.rounds ▸ hround))
    · rcases List.mem_append.mp hw with hold | hnew
      · exact Or.inl (Or.inr ⟨w, hd.writes ▸ hold, hwait⟩)
      · obtain rfl := List.mem_singleton.mp hnew
        exact Or.inr hwait.symm

/-- So does one that resumes. -/
theorem coalesces_resumeWrite (t : Turn) {k : ℕ} {w : Write} :
    Coalesces t (t.resumeWrite k w) := by
  have hdone : ∀ node responses, Coalesces t { t.setWrites (t.replica.writes.eraseIdx k) with
      replica := { t.replica with node, writes := t.replica.writes.eraseIdx k }
      responses } := fun _ _ =>
    .of_eq rfl rfl le_rfl (List.Subset.refl _) (List.eraseIdx_subset)
  unfold resumeWrite
  dsimp only
  split
  · exact hdone _ _
  · split
    · exact hdone _ _
    · split
      · obtain ⟨hd, -⟩ := t.driveAll_spec t.replica.node.peers
        refine .of_driveAll .refl rfl (congrArg RaftNode.peers hd.node) ?_
        intro promises haw
        rcases haw with hround | ⟨w', hw', hwait⟩
        · exact Or.inl (Or.inl (hd.rounds ▸ hround))
        · rcases List.mem_or_eq_of_mem_set hw' with hold | rfl
          · exact Or.inl (Or.inr ⟨w', hd.writes ▸ hold, hwait⟩)
          · exact Or.inr hwait.symm
      · exact hdone _ _

/-- A reply settles its call. -/
theorem coalesces_sendReply {t t' : Turn} {k : ℕ} {outcome : Option Reply}
    (h : t.sendReply k outcome = some t') : Coalesces t t' := by
  obtain ⟨send, w, hk, -, rfl⟩ := sendReply_some h
  have hcall : t.flights.calls[k]? = some send.call := by
    show (t.replica.sends.map Send.call)[k]? = _
    rw [List.getElem?_map, hk]
    rfl
  have hsettle := SingleFlight.Step.settle (f := t.flights) k send.call hcall
  refine .of_steps (.single ?_) rfl rfl
  unfold flights setSends setNode
  dsimp only
  rw [List.map_set]
  exact hsettle

/-- The `finally` frees the slot. -/
theorem coalesces_sendFinally {t t' : Turn} {k : ℕ} (h : t.sendFinally k = some t') :
    Coalesces t t' := by
  obtain ⟨send, hk, hdone, rfl⟩ := sendFinally_done h
  have hcall : t.flights.calls[k]? = some send.call := by
    show (t.replica.sends.map Send.call)[k]? = _
    rw [List.getElem?_map, hk]
    rfl
  have hrelease := SingleFlight.Step.release (f := t.flights) k send.call hcall hdone
  refine .of_steps (.single ?_) rfl rfl
  unfold flights setSends
  dsimp only
  rw [← List.eraseIdx_map]
  exact hrelease

end Turn

namespace Cluster

variable {cfg : Config} {c c' c'' : Cluster} {a : String} {action : Action} {t : Turn}

/-- A turn and its callers. -/
theorem coalesces_turn (h : c.turn action = some t) :
    (c.startTurn action.replica).Coalesces t := by
  by_cases hrep : action.Replicates
  · cases action with
    | sendHeartbeats a =>
        obtain rfl := Option.some.inj h
        exact Turn.coalesces_sendHeartbeats _
    | roundResume a k =>
        obtain ⟨promises, -, rfl⟩ := Turn.roundResume_some h
        unfold Turn.resumeRound
        dsimp only
        split <;> exact .of_eq rfl rfl le_rfl List.eraseIdx_subset (List.Subset.refl _)
    | sendReply a k outcome =>
        simp only [turn] at h
        split at h
        · exact Turn.coalesces_sendReply (Option.ite_none_right_eq_some.mp h).2
        · cases h
    | sendFinally a k => exact Turn.coalesces_sendFinally h
    | clientWrite a stroke =>
        obtain rfl := Option.some.inj h
        exact Turn.coalesces_clientWrite _ _
    | writeResume a k =>
        obtain ⟨w, -, rfl⟩ := Turn.writeResume_some h
        exact Turn.coalesces_resumeWrite _
    | _ => exact absurd hrep not_false
  · have htouches := touches_turn h
    exact .of_eq (htouches.replicating hrep) (htouches.sends hrep) (sends_turn h).1.fresh_le
      (fun _ hp => htouches.rounds hrep ▸ hp) (fun _ hw => htouches.writes hrep ▸ hw)

/-! ## Runs -/

/-- The replication calls of a replica between turns. -/
def flights (c : Cluster) (a : String) : Table String (ℕ × Request) := (c.startTurn a).flights

/-- The event restarts the replica. -/
def Event.Reboots (a : String) : Event → Prop
  | .act _ => False
  | .crash action _ => action.replica = a
  | .restart b _ => b = a

/-- A run in which the replica stays up. -/
abbrev Up (cfg : Config) (a : String) : Cluster → Cluster → Prop :=
  Reach cfg fun _ e => ¬ e.Reboots a

/-- Every turn of any replica is some steps of the table. -/
theorem steps_finishTurn (h : c.turn action = some t) (a : String) :
    SingleFlight.Steps (c.flights a) ((c.finishTurn action.replica t).flights a) := by
  by_cases heq : a = action.replica
  · subst heq
    have hsteps := (coalesces_turn h).steps
    unfold flights startTurn
    rw [replicas_finishTurn_self]
    exact hsteps
  · have hfresh : c.nextId ≤ t.fresh := (sends_turn h).1.fresh_le
    unfold flights startTurn
    rw [replicas_finishTurn_ne c t heq]
    exact .single (SingleFlight.Step.skip (f := c.flights a) t.fresh hfresh)

/-- A new replica runs no calls. -/
theorem guarded_boot (c : Cluster) (hboot : ∃ p, c.replicas a = .boot (cfg.params a) p) :
    Guarded (c.flights a) := by
  obtain ⟨p, hp⟩ := hboot
  unfold flights startTurn
  rw [hp]
  exact .empty c.nextId

/-- Every event keeps the slots guarded. -/
theorem guarded_next (hg : ∀ a, Guarded (c.flights a)) {e : Event} (h : next cfg c e = some c') :
    ∀ a, Guarded (c'.flights a) := by
  have hreboot : ∀ b p, c' = c.reboot cfg b p → ∀ a, Guarded (c'.flights a) := by
    intro b p hc' a
    subst hc'
    by_cases heq : a = b
    · subst heq
      exact guarded_boot _ ⟨p, replicas_reboot_self ..⟩
    · have hsame := hg a
      unfold flights startTurn at hsame ⊢
      rw [replicas_reboot_ne c p heq]
      exact hsame
  rcases next_cases h with ⟨action, t, -, -, ht, rfl⟩ | ⟨action, t, calls, -, -, -, hc'⟩ |
    ⟨b, calls, -, -, hc'⟩
  · exact fun a => (hg a).steps (steps_finishTurn ht a)
  · exact hreboot _ _ hc'
  · exact hreboot _ _ hc'

/-- So does every run. -/
theorem guarded_reach {ok : Cluster → Event → Prop} (h : Reach cfg ok (.init cfg) c) (a : String) :
    Guarded (c.flights a) :=
  h.invariant (I := fun c => ∀ a, Guarded (c.flights a))
    (fun _ => guarded_boot _ ⟨_, rfl⟩) (fun _ _ _ hg _ hnext => guarded_next hg hnext) a

/-- Different calls are to different peers. -/
theorem peers_nodup_of_guarded (hg : Guarded (c.flights a)) :
    ((c.replicas a).sends.map Send.peer).Nodup := by
  have hnodup := hg.keys_nodup
  change (((c.replicas a).sends.map Send.call).map SingleFlight.Call.key).Nodup at hnodup
  rw [List.map_map] at hnodup
  exact hnodup

/-- While a replica stays up, its calls move by steps of the table. -/
theorem steps_next {e : Event} (hup : ¬ e.Reboots a) (h : next cfg c e = some c') :
    SingleFlight.Steps (c.flights a) (c'.flights a) := by
  have hreboot : ∀ b p, a ≠ b → (c.reboot cfg b p).flights a = c.flights a := by
    intro b p hne
    unfold flights startTurn
    rw [replicas_reboot_ne c p hne]
    rfl
  rcases next_cases h with ⟨action, t, -, -, ht, rfl⟩ | ⟨action, t, calls, rfl, -, -, rfl⟩ |
    ⟨b, calls, rfl, -, rfl⟩
  · exact steps_finishTurn ht a
  · rw [hreboot _ _ fun heq => hup heq.symm]
  · rw [hreboot _ _ fun heq => hup heq.symm]

/-- While a replica is up its table goes on. -/
theorem steps_up (h : Up cfg a c c') : SingleFlight.Steps (c.flights a) (c'.flights a) := by
  induction h with
  | refl => exact .refl
  | tail _ hup hnext ih => exact ih.trans (steps_next hup hnext)

/-- **Where the promises of a caller come from:** when the caller drove its peers, they
were in the slots of these. -/
theorem exists_drive {promises : List ℕ} (h : Reach cfg Runs.Any (.init cfg) c)
    (haw : (c.replicas a).Awaits promises) :
    ∃ c₁, Reach cfg Runs.Any (.init cfg) c₁ ∧ Up cfg a c₁ c ∧
      (c₁.replicas a).Slots (c₁.replicas a).node.peers promises := by
  have hboot : ∀ p, ¬ (Replica.boot (cfg.params a) p).Awaits promises := by
    rintro p (hround | ⟨w, hw, -⟩)
    · cases hround
    · cases hw
  induction h with
  | refl => exact absurd haw (hboot _)
  | @tail c c' e hreach hany hnext ih =>
      -- a step that keeps the replica up, of a caller that waited before
      have hold : ¬ e.Reboots a → (c.replicas a).Awaits promises →
          ∃ c₁, Reach cfg Runs.Any (.init cfg) c₁ ∧ Up cfg a c₁ c' ∧
            (c₁.replicas a).Slots (c₁.replicas a).node.peers promises := by
        intro hup hbefore
        obtain ⟨c₁, hc₁, hlater, hslots⟩ := ih hbefore
        exact ⟨c₁, hc₁, hlater.tail hup hnext, hslots⟩
      have hreboot : ∀ b p, c' = c.reboot cfg b p → (a ≠ b → ¬ e.Reboots a) →
          ∃ c₁, Reach cfg Runs.Any (.init cfg) c₁ ∧ Up cfg a c₁ c' ∧
            (c₁.replicas a).Slots (c₁.replicas a).node.peers promises := by
        intro b p hc' hup
        by_cases heq : a = b
        · rw [hc', heq, replicas_reboot_self, ← heq] at haw
          exact absurd haw (hboot _)
        · rw [hc', replicas_reboot_ne c p heq] at haw
          exact hold (hup heq) haw
      rcases next_cases hnext with ⟨action, t, rfl, -, ht, hc'⟩ |
        ⟨action, t, calls, rfl, -, -, hc'⟩ | ⟨b, calls, rfl, -, hc'⟩
      · by_cases heq : a = action.replica
        · have hrep : c'.replicas a = t.replica := by rw [hc', heq, replicas_finishTurn_self]
          have haw' := haw
          rw [hrep] at haw'
          rcases (coalesces_turn ht).awaits promises haw' with hbefore | hslots
          · exact hold id (heq ▸ hbefore)
          · exact ⟨c', hreach.tail hany hnext, .refl, by rw [hrep]; exact hslots⟩
        · rw [hc', replicas_finishTurn_ne c t heq] at haw
          exact hold id haw
      · exact hreboot _ _ hc' fun hne heq => hne heq.symm
      · exact hreboot _ _ hc' fun hne heq => hne heq.symm

/-! ## Slots are freed -/

/-- A turn that is possible can run to its end. -/
theorem up_turn (h : c.turn action = some t) (ha : action.replica ∈ cfg.members) (b : String) :
    Up cfg b c (c.finishTurn action.replica t) := by
  have hnext : next cfg c (.act action) = some (c.finishTurn action.replica t) := by
    show (if action.replica ∈ cfg.members then
      (c.turn action).map (c.finishTurn action.replica) else none) = _
    rw [if_pos ha, h]
    rfl
  have hup : ¬ (Event.act action).Reboots b := fun hreboots => hreboots
  exact .tail .refl hup hnext

/-- A call that was settled frees its slot in the next turn. -/
theorem freed_of_settled (ha : a ∈ cfg.members) {k : ℕ} {send : Send}
    (hk : (c.replicas a).sends[k]? = some send) (hdone : send.waiting = none) :
    ∃ c', Up cfg a c c' ∧ (c'.replicas a).replicating send.peer = none := by
  have hturn : c.turn (.sendFinally a k) = some ((c.startTurn a).setSends
      (Function.update (c.replicas a).replicating send.peer none)
      ((c.replicas a).sends.eraseIdx k)) := by
    show (c.startTurn a).sendFinally k = _
    unfold Turn.sendFinally
    rw [show (c.startTurn a).replica.sends[k]? = some send from hk]
    simp [hdone, startTurn]
  refine ⟨_, up_turn hturn ha a, ?_⟩
  show ((c.finishTurn a _).replicas a).replicating send.peer = none
  rw [replicas_finishTurn_self]
  exact Function.update_self _ _ _

/-- The RPC of a call may fail, and then its slot is cleared. -/
theorem exists_freed (ha : a ∈ cfg.members) {k : ℕ} {send : Send}
    (hk : (c.replicas a).sends[k]? = some send) :
    ∃ c', Up cfg a c c' ∧ (c'.replicas a).replicating send.peer = none := by
  cases hwait : send.waiting with
  | none => exact freed_of_settled ha hk hwait
  | some w =>
      have hturn : c.turn (.sendReply a k none) = some ((c.startTurn a).setSends
          (c.replicas a).replicating
          ((c.replicas a).sends.set k { send with waiting := none })) := by
        have hbind : ((c.startTurn a).replica.sends[k]?).bind Send.waiting = some w := by
          rw [show (c.startTurn a).replica.sends[k]? = some send from hk]
          exact hwait
        unfold turn
        dsimp only [Action.replica]
        rw [hbind]
        show (if c.Possible w.1 none then (c.startTurn a).sendReply k none else none) = _
        rw [if_pos (show c.Possible w.1 none from trivial)]
        unfold Turn.sendReply
        rw [show (c.startTurn a).replica.sends[k]? = some send from hk]
        simp only [Option.bind_eq_bind, Option.bind_some, hwait]
        cases w.2 <;> rfl
      let t := (c.startTurn a).setSends (c.replicas a).replicating
        ((c.replicas a).sends.set k { send with waiting := none })
      have hk' : ((c.finishTurn a t).replicas a).sends[k]? =
          some { send with waiting := none } := by
        rw [replicas_finishTurn_self]
        exact List.getElem?_set_self (List.getElem?_eq_some_iff.mp hk).1
      obtain ⟨c', hc', hfree⟩ := freed_of_settled ha hk' rfl
      exact ⟨c', (up_turn hturn ha a).trans hc', hfree⟩

/-! ## The guard -/

/-- A caller that waits for these promises can resume now. -/
def Resumes (c : Cluster) (a : String) (promises : List ℕ) : Prop :=
  (∃ k t, (c.replicas a).rounds[k]? = some promises ∧ c.turn (.roundResume a k) = some t) ∨
    ∃ k w t, (c.replicas a).writes[k]? = some w ∧ w.waiting = promises ∧
      c.turn (.writeResume a k) = some t

/-- What resumes waits for its promises. -/
theorem Resumes.awaits {promises : List ℕ} (h : c.Resumes a promises) :
    (c.replicas a).Awaits promises := by
  rcases h with ⟨k, t, hk, -⟩ | ⟨k, w, t, hk, hwait, -⟩
  · exact Or.inl (List.mem_of_getElem? hk)
  · exact Or.inr ⟨w, List.mem_of_getElem? hk, hwait⟩

/-- They have all settled. -/
theorem Resumes.settled {promises : List ℕ} (h : c.Resumes a promises) :
    ∀ send ∈ (c.replicas a).sends, send.promise ∉ promises := by
  rcases h with ⟨k, t, hk, ht⟩ | ⟨k, w, t, hk, rfl, ht⟩
  · have hrun : (c.startTurn a).roundResume k = some t := ht
    simp only [Turn.roundResume, Option.bind_eq_bind, Option.bind_eq_some_iff] at hrun
    obtain ⟨promises', hk', u, hg, -⟩ := hrun
    obtain rfl : promises = promises' := Option.some.inj (hk.symm.trans hk')
    exact Turn.guard_elim hg
  · have hrun : (c.startTurn a).writeResume k = some t := ht
    simp only [Turn.writeResume, Option.bind_eq_bind, Option.bind_eq_some_iff] at hrun
    obtain ⟨w', hk', u, hg, -⟩ := hrun
    obtain rfl : w = w' := Option.some.inj (hk.symm.trans hk')
    exact Turn.guard_elim hg

/-- `driveReplication` starts a call, which reads the cursors of the node as they are. -/
def StartsCall (u : Turn) (peer : String) : Prop :=
  (u.driveReplication peer).2 = u.fresh ∧
    (u.driveReplication peer).1.replica.sends = u.replica.sends ++ [⟨u.fresh, peer,
      (u.replica.node.replicateRequest peer).map fun request => (u.fresh + 1, request)⟩]

/-- `driveReplication` joins the call in the slot or starts one. -/
theorem joins_or_starts (u : Turn) (peer : String) :
    (u.replica.replicating peer = some (u.driveReplication peer).2 ∧
        (u.driveReplication peer).1 = u) ∨ StartsCall u peer := by
  unfold StartsCall
  cases hslot : u.replica.replicating peer with
  | some promise =>
      simp only [Turn.driveReplication, hslot]
      exact Or.inl ⟨trivial, trivial⟩
  | none =>
      right
      cases hrequest : u.replica.node.replicateRequest peer with
      | none =>
          have hrequest' : u.number.replica.node.replicateRequest peer = none := hrequest
          simp only [Turn.driveReplication, hslot, hrequest']
          exact ⟨trivial, rfl⟩
      | some request =>
          have hrequest' : u.number.replica.node.replicateRequest peer = some request := hrequest
          simp only [Turn.driveReplication, hslot, hrequest']
          exact ⟨trivial, rfl⟩

/-- **One replication RPC for each peer, never wedged.**  The RPCs outstanding go to
different peers; a `finally` clears the slot of its own call; a slot that is occupied has
its call running, and can be freed.  A caller that resumes drove its peers in an earlier
state `c₁`, when the calls it waited for were in the slots; they are gone, and from now on
`driveReplication` joins a call that started after `c₁` or starts one. -/
theorem replication_guarded (cfg : Config) {c : Cluster} {a : String}
    (hreach : Reach cfg Runs.Any (.init cfg) c) (ha : a ∈ cfg.members) :
    (((c.replicas a).sends.filter fun send => send.waiting.isSome).map Send.peer).Nodup ∧
      (∀ k t, c.turn (.sendFinally a k) = some t → ∃ send, (c.replicas a).sends[k]? = some send ∧
        send.waiting = none ∧ (c.replicas a).replicating send.peer = some send.promise ∧
        t.replica.replicating = Function.update (c.replicas a).replicating send.peer none) ∧
      (∀ peer promise, (c.replicas a).replicating peer = some promise →
        (∃ send ∈ (c.replicas a).sends, send.peer = peer ∧ send.promise = promise) ∧
          ∃ c', Up cfg a c c' ∧ (c'.replicas a).replicating peer = none) ∧
      ∀ promises, c.Resumes a promises →
        ∃ c₁, Reach cfg Runs.Any (.init cfg) c₁ ∧ Up cfg a c₁ c ∧
          promises.length = (c₁.replicas a).node.peers.length ∧
          ∀ peer promise, (peer, promise) ∈ (c₁.replicas a).node.peers.zip promises →
            (∃ send ∈ (c₁.replicas a).sends, send.peer = peer ∧ send.promise = promise) ∧
            (∀ send ∈ (c.replicas a).sends, send.promise ≠ promise) ∧
            ∀ (c₂ : Cluster) (u : Turn), Up cfg a c c₂ →
              u.replica.replicating peer = (c₂.replicas a).replicating peer →
              ((u.driveReplication peer).1 = u ∧ c₁.nextId ≤ (u.driveReplication peer).2 ∧
                ∃ send ∈ (c₂.replicas a).sends, send.peer = peer ∧
                  send.promise = (u.driveReplication peer).2) ∨ StartsCall u peer := by
  have hguard := guarded_reach hreach a
  have hcalls : ∀ {c : Cluster}, Guarded (c.flights a) → ∀ peer promise,
      (c.replicas a).replicating peer = some promise →
      ∃ send ∈ (c.replicas a).sends, send.peer = peer ∧ send.promise = promise := by
    intro c hg peer promise hslot
    obtain ⟨call, hmem, hkey, hnumber⟩ := hg.exists_call peer promise hslot
    obtain ⟨send, hsend, rfl⟩ := List.mem_map.mp hmem
    exact ⟨send, hsend, hkey, hnumber⟩
  refine ⟨?_, ?_, ?_, ?_⟩
  · -- outstanding calls are running calls, which have different peers
    exact (peers_nodup_of_guarded hguard).sublist (List.filter_sublist.map Send.peer)
  · intro k t ht
    obtain ⟨send, hk, hdone, rfl⟩ := Turn.sendFinally_done (show
      (c.startTurn a).sendFinally k = some t from ht)
    have hmem : send.call ∈ (c.flights a).calls :=
      List.mem_map_of_mem (List.mem_of_getElem? hk)
    exact ⟨send, hk, hdone, hguard.slot_eq send.call hmem, rfl⟩
  · intro peer promise hslot
    obtain ⟨send, hsend, rfl, hpromise⟩ := hcalls hguard peer promise hslot
    obtain ⟨k, hk⟩ := List.mem_iff_getElem?.mp hsend
    exact ⟨⟨send, hsend, rfl, hpromise⟩, exists_freed ha hk⟩
  · intro promises hresume
    obtain ⟨c₁, hc₁, hlater, hslots⟩ := exists_drive hreach hresume.awaits
    have hguard₁ := guarded_reach hc₁ a
    refine ⟨c₁, hc₁, hlater, hslots.length_eq.symm, fun peer promise hpair => ?_⟩
    have hslot₁ : (c₁.replicas a).replicating peer = some promise :=
      (List.forall₂_iff_zip.mp hslots).2 hpair
    have hgone : ∀ send ∈ (c.replicas a).sends, send.promise ≠ promise := by
      intro send hsend heq
      exact hresume.settled send hsend (heq ▸ (List.of_mem_zip hpair).2)
    refine ⟨hcalls hguard₁ peer promise hslot₁, hgone, fun c₂ u hc₂ hslot => ?_⟩
    rcases joins_or_starts u peer with ⟨hjoin, hsame⟩ | hstart
    · left
      rw [hslot] at hjoin
      have hlost : (c.flights a).slot peer ≠ some promise := by
        intro hstill
        obtain ⟨send, hsend, -, hpromise⟩ := hcalls hguard peer promise hstill
        exact hgone send hsend hpromise
      have hsince := Since.of_steps (steps_up hlater)
      have hsince₂ := Since.of_steps (steps_up hc₂)
      exact ⟨hsame, hsince.renewed hsince₂ hslot₁ hlost hjoin,
        hcalls (guarded_reach (hreach.trans (hc₂.mono fun _ _ _ => trivial)) a) peer _ hjoin⟩
    · exact Or.inr hstart

end Cluster

/-- A leader's write reaches nobody. -/
def unheard : List Cluster.Event :=
  trioElection ++ [Cluster.Event.act (.clientWrite "a" (.dot "x" "board")),
    .act (.sendReply "a" 0 none), .act (.sendReply "a" 1 none),
    .act (.sendFinally "a" 0), .act (.sendFinally "a" 0)]

/-- The state after these events. -/
def unheardTrio : Cluster := Cluster.play .trio (.init .trio) unheard

/-- The write tries again, and drives a new call to `b` and to `c`. -/
theorem replication_guarded_trio :
    unheardTrio.Resumes "a" [3, 5] ∧ ∃ c₁, Cluster.Reach .trio Runs.Any (.init .trio) c₁ ∧
      Cluster.Up .trio "a" c₁ unheardTrio ∧
      ∀ peer promise, (peer, promise) ∈ (c₁.replicas "a").node.peers.zip [3, 5] →
        (∃ send ∈ (c₁.replicas "a").sends, send.peer = peer ∧ send.promise = promise) ∧
        (∀ send ∈ (unheardTrio.replicas "a").sends, send.promise ≠ promise) ∧
        ∀ (c₂ : Cluster) (u : Turn), Cluster.Up .trio "a" unheardTrio c₂ →
          u.replica.replicating peer = (c₂.replicas "a").replicating peer →
          ((u.driveReplication peer).1 = u ∧ c₁.nextId ≤ (u.driveReplication peer).2 ∧
            ∃ send ∈ (c₂.replicas "a").sends, send.peer = peer ∧
              send.promise = (u.driveReplication peer).2) ∨ Cluster.StartsCall u peer := by
  have hresumes : unheardTrio.Resumes "a" [3, 5] :=
    Or.inr ⟨0, _, _, by rfl, by rfl, by rfl⟩
  obtain ⟨-, -, -, hcallers⟩ := Cluster.replication_guarded .trio
    (Cluster.reach_play (by rfl) : Cluster.Reach .trio Runs.Any (.init .trio) unheardTrio)
    (by decide : "a" ∈ Config.trio.members)
  obtain ⟨c₁, hc₁, hlater, -, hpairs⟩ := hcallers [3, 5] hresumes
  exact ⟨hresumes, c₁, hc₁, hlater, hpairs⟩

end QuorumCanvas
