import QuorumCanvas.Boards
import QuorumCanvas.Ledger

/-!
# Log entries, snapshots and the files that hold them

A replica keeps three files: its term, vote and commit index, its log, and its
latest snapshot.  Each call of the `Persistence` interface replaces or extends
one of them in one atomic step, so a crash leaves the files as some prefix of
the calls made them.

A snapshot carries, besides what the code stores, the history variable
`covered`: the entries whose effect its boards summarise.  No code reads it.
-/

namespace QuorumCanvas

/-- An entry of the log. -/
structure LogEntry where
  index : ℕ
  term : ℕ
  stroke : Stroke
  deriving DecidableEq

instance : Ledger.Termed LogEntry := ⟨LogEntry.term⟩

@[simp] theorem term_logEntry (e : LogEntry) : Ledger.Termed.term e = e.term := rfl

/-- `Record<string, Stroke[]>`: a plain object from board id to events. -/
abbrev Record := OrderedMap String (List Stroke)

/-- Assignment of an array to a property.  The one key that is not an ordinary
property is `__proto__`: it sets the prototype and leaves no property behind.  An object lists
the keys that look like array indices first, whenever they were assigned; only the order of
the boards depends on that, and each board is rebuilt from its own events. -/
def Record.assign (boards : Record) (boardId : String) (events : List Stroke) : Record :=
  if boardId = "__proto__" then boards else OrderedMap.set boards boardId events

/-- A snapshot file. -/
structure Snapshot where
  lastIncludedIndex : ℕ
  lastIncludedTerm : ℕ
  boards : Record
  /-- history variable: the entries applied to these boards, with their indices -/
  covered : List (ℕ × LogEntry)
  deriving DecidableEq

/-- The state file. -/
structure PersistedState where
  currentTerm : ℕ
  votedFor : Option String
  commitIndex : ℕ
  deriving DecidableEq

/-- The two implementations of `Persistence`. -/
inductive Backend
  | file
  | memory
  deriving DecidableEq

/-- What the loading half of `Persistence` returns. -/
structure Persistence where
  backend : Backend
  loadState : PersistedState
  loadLog : List LogEntry
  loadSnapshot : Option Snapshot
  deriving DecidableEq

/-- The saving half of `Persistence`. -/
inductive PersistenceCall
  | saveState (state : PersistedState)
  | appendLog (entry : LogEntry)
  | rewriteLog (entries : List LogEntry)
  | saveSnapshot (snapshot : Snapshot)
  deriving DecidableEq

namespace Persistence

/-- Files that do not exist yet. -/
def fresh (backend : Backend) : Persistence :=
  ⟨backend, ⟨0, none, 0⟩, [], none⟩

/-- One call.  `MemoryPersistence` ignores them all. -/
def run (p : Persistence) (call : PersistenceCall) : Persistence :=
  match p.backend with
  | .memory => p
  | .file =>
      match call with
      | .saveState state => { p with loadState := state }
      | .appendLog entry => { p with loadLog := p.loadLog ++ [entry] }
      | .rewriteLog entries => { p with loadLog := entries }
      | .saveSnapshot snapshot => { p with loadSnapshot := some snapshot }

/-- Calls made one after the other. -/
def replay (p : Persistence) (calls : List PersistenceCall) : Persistence :=
  calls.foldl run p

@[simp] theorem replay_nil (p : Persistence) : p.replay [] = p := rfl

/-- Calls are replayed in parts. -/
theorem replay_append (p : Persistence) (xs ys : List PersistenceCall) :
    p.replay (xs ++ ys) = (p.replay xs).replay ys := by
  simp [replay, List.foldl_append]

@[simp] theorem backend_run (p : Persistence) (call : PersistenceCall) :
    (p.run call).backend = p.backend := by
  unfold run
  split
  · rfl
  · next h => cases call <;> exact h.symm ▸ rfl

section File

variable {p : Persistence} (hp : p.backend = .file)

include hp

/-- The state file is replaced. -/
theorem run_saveState (state : PersistedState) :
    p.run (.saveState state) = { p with loadState := state } := by
  simp [run, hp]

/-- The log file grows by a line. -/
theorem run_appendLog (entry : LogEntry) :
    p.run (.appendLog entry) = { p with loadLog := p.loadLog ++ [entry] } := by
  simp [run, hp]

/-- The log file is replaced. -/
theorem run_rewriteLog (entries : List LogEntry) :
    p.run (.rewriteLog entries) = { p with loadLog := entries } := by
  simp [run, hp]

/-- The snapshot file is replaced. -/
theorem run_saveSnapshot (snapshot : Snapshot) :
    p.run (.saveSnapshot snapshot) = { p with loadSnapshot := some snapshot } := by
  simp [run, hp]

end File

end Persistence

end QuorumCanvas
