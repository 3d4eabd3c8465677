import QuorumCanvas.TimerRoles

/-!
# After `stop()`

`stop` disarms both timers and nothing else: the role stays, elections stay
open, and the timer manager keeps its callback.  So a timer is armed again by
every event that starts the election timer anew, and by every election won.
These are all: as long as neither happens, nothing is armed, and no timer fires.
-/

namespace QuorumCanvas

namespace Alone

variable {t t' : Turn}

/-- No timer is armed. -/
def Silent (t : Turn) : Prop :=
  t.replica.node.timers.electionTimer = false ∧ t.replica.node.timers.heartbeatTimer = false

/-- The timers of a node of some stance. -/
theorem timers_of_stance {n : RaftNode} {s : Stance} (h : n.stance = s) :
    n.timers = s.timers :=
  congrArg Stance.timers h

/-- A node whose stance stays is as silent. -/
theorem Silent.rested (h : Silent t)
    (hsame : t'.replica.node.stance = t.replica.node.stance) : Silent t' := by
  unfold Silent
  rw [timers_of_stance hsame]
  exact h

/-- A silent node that follows arms its election timer if it can. -/
theorem Silent.followed (h : Silent t)
    (hyields : RaftNode.Yields t.replica.node t'.replica.node) :
    Silent t' ↔ t.replica.node.timers.electionCallback = false := by
  obtain ⟨term, votedFor, -, hstance⟩ := hyields
  have hheartbeat : (t.replica.node.stance.follow term votedFor).timers.heartbeatTimer = false := by
    unfold Stance.follow
    dsimp only
    split
    · rfl
    · exact h.2
  have helection : (t.replica.node.stance.follow term votedFor).timers.electionTimer =
      t.replica.node.timers.electionCallback := by
    unfold Stance.follow
    dsimp only
    split <;> rfl
  unfold Silent
  rw [timers_of_stance hstance, hheartbeat, helection]
  exact and_iff_left rfl

end Alone

end QuorumCanvas
