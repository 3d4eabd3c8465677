import QuorumCanvas.Persistence

/-!
# The in-memory log

`entries[0]` is the entry after the snapshot boundary, so every accessor turns
an absolute Raft index into an array position by subtracting the boundary.
-/

namespace QuorumCanvas

/-- The fields of `RaftLog`. -/
structure RaftLog where
  entries : List LogEntry
  lastIncludedIndex : ℕ
  lastIncludedTerm : ℕ
  deriving DecidableEq

namespace RaftLog

/-- The constructor: entries the snapshot already covers are dropped by index. -/
def ofPersistence (p : Persistence) : RaftLog :=
  match p.loadSnapshot with
  | some snapshot =>
      ⟨p.loadLog.filter fun e => snapshot.lastIncludedIndex < e.index,
        snapshot.lastIncludedIndex, snapshot.lastIncludedTerm⟩
  | none => ⟨p.loadLog, 0, 0⟩

variable (log : RaftLog)

/-- `append`. -/
def append (entry : LogEntry) : RaftLog :=
  { log with entries := log.entries ++ [entry] }

/-- `getEntry`, by Raft index. -/
def getEntry (index : ℕ) : Option LogEntry :=
  if index ≤ log.lastIncludedIndex then none
  else log.entries[index - log.lastIncludedIndex - 1]?

/-- `getTermAt`, 0 where there is no entry. -/
def getTermAt (index : ℕ) : ℕ :=
  if index = log.lastIncludedIndex then log.lastIncludedTerm
  else ((log.getEntry index).map LogEntry.term).getD 0

/-- `getLastIndex`. -/
def getLastIndex : ℕ := log.lastIncludedIndex + log.entries.length

/-- `getLastTerm`. -/
def getLastTerm : ℕ :=
  (log.entries.getLast?.map LogEntry.term).getD log.lastIncludedTerm

/-- `getEntriesFrom`, from the boundary on at the earliest. -/
def getEntriesFrom (startIndex : ℕ) : List LogEntry :=
  let startIndex :=
    if startIndex ≤ log.lastIncludedIndex then log.lastIncludedIndex + 1 else startIndex
  log.entries.drop (startIndex - log.lastIncludedIndex - 1)

/-- The bounds outside which `truncateFrom` returns at once. -/
def inRange (index : ℕ) : Prop :=
  log.lastIncludedIndex < index ∧ index ≤ log.getLastIndex

instance (index : ℕ) : Decidable (log.inRange index) := by
  unfold inRange; infer_instance

/-- `truncateFrom`, without effect outside the log. -/
def truncateFrom (index : ℕ) : RaftLog :=
  if log.inRange index then
    { log with entries := log.entries.take (index - log.lastIncludedIndex - 1) }
  else log

/-- `getLength`, of what is in memory. -/
def getLength : ℕ := log.entries.length

/-- `compact`, without effect up to the boundary. -/
def compact (uptoIndex term : ℕ) : RaftLog :=
  if uptoIndex ≤ log.lastIncludedIndex then log
  else ⟨log.entries.drop (uptoIndex - log.lastIncludedIndex), uptoIndex, term⟩

/-- `installSnapshot` keeps what is above the new boundary. -/
def installSnapshot (lastIncludedIndex lastIncludedTerm : ℕ) : RaftLog :=
  ⟨log.entries.filter fun e => lastIncludedIndex < e.index, lastIncludedIndex, lastIncludedTerm⟩

/-- Truncating adds no entry. -/
theorem truncateFrom_subset (index : ℕ) : (log.truncateFrom index).entries ⊆ log.entries := by
  unfold truncateFrom
  split
  · exact List.take_subset _ _
  · exact fun e he => he

/-- Neither does compacting. -/
theorem compact_subset (uptoIndex term : ℕ) :
    (log.compact uptoIndex term).entries ⊆ log.entries := by
  unfold compact
  split
  · exact fun e he => he
  · exact List.drop_subset _ _

/-- Each entry is stored at the position its own index names. -/
def Contiguous : Prop :=
  ∀ k e, log.entries[k]? = some e → e.index = log.lastIncludedIndex + k + 1

end RaftLog

end QuorumCanvas
