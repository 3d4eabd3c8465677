import QuorumCanvas.JsonRecords
import QuorumCanvas.StoredSnapshots

/-!
# Requests and replies as texts

A request is posted as JSON to a path of its own, and the reply is JSON too.  What a handler
reads from the body, and a caller from the reply, is what was sent (`wire_read_back`): all
snapshots that are on file or on their way in a run are records, in which no board occurs twice.
-/

namespace QuorumCanvas

open Json (Value Plain PlainItems PlainMembers)
open Json.Value (asNat asBool asString asArray)
open RaftNode (Request Reply)

/-! ## Requests -/

/-- The four fields, read back. -/
def RequestVoteArgs.ofJson (v : Value) : Option RequestVoteArgs := do
  let term ← v.read "term" asNat
  let candidateId ← v.read "candidateId" asString
  let lastLogIndex ← v.read "lastLogIndex" asNat
  let lastLogTerm ← v.read "lastLogTerm" asNat
  return ⟨term, candidateId, lastLogIndex, lastLogTerm⟩

/-- Its fields; a missing `leaderAddr` is `undefined`. -/
def AppendEntriesArgs.ofJson (v : Value) : Option AppendEntriesArgs := do
  let term ← v.read "term" asNat
  let leaderId ← v.read "leaderId" asString
  let leaderAddr ← v.readOptional "leaderAddr" asString
  let prevLogIndex ← v.read "prevLogIndex" asNat
  let prevLogTerm ← v.read "prevLogTerm" asNat
  let entries ← v.read "entries" (asArray LogEntry.ofJson)
  let leaderCommit ← v.read "leaderCommit" asNat
  return ⟨term, leaderId, leaderAddr, prevLogIndex, prevLogTerm, entries, leaderCommit⟩

/-- Its fields; a missing `leaderAddr` is `undefined`. -/
def HeartbeatArgs.ofJson (v : Value) : Option HeartbeatArgs := do
  let term ← v.read "term" asNat
  let leaderId ← v.read "leaderId" asString
  let leaderAddr ← v.readOptional "leaderAddr" asString
  let leaderCommit ← v.read "leaderCommit" asNat
  return ⟨term, leaderId, leaderAddr, leaderCommit⟩

/-- The three fields, read back. -/
def SyncLogArgs.ofJson (v : Value) : Option SyncLogArgs := do
  let fromIndex ← v.read "fromIndex" asNat
  let term ← v.read "term" asNat
  let leaderId ← v.read "leaderId" asString
  return ⟨fromIndex, term, leaderId⟩

/-- The fields of the snapshot stand beside the others. -/
def InstallSnapshotArgs.ofJson (v : Value) : Option InstallSnapshotArgs := do
  let term ← v.read "term" asNat
  let leaderId ← v.read "leaderId" asString
  let snapshot ← Snapshot.ofJson v
  return ⟨term, leaderId, snapshot⟩

namespace RaftNode

/-- The path that `HttpRpcClient` posts a request to. -/
def Request.path : Request → String
  | .requestVote _ => "/request-vote"
  | .appendEntries _ => "/append-entries"
  | .heartbeat _ => "/heartbeat"
  | .syncLog _ => "/sync-log"
  | .installSnapshot _ => "/install-snapshot"

/-- `createRpcRouter`: the request that the handler of a path takes from the body. -/
def Request.ofBody (path : String) (body : List Char) : Option Request :=
  (Json.parse body).bind fun v =>
    if path = "/request-vote" then (RequestVoteArgs.ofJson v).map .requestVote
    else if path = "/append-entries" then (AppendEntriesArgs.ofJson v).map .appendEntries
    else if path = "/heartbeat" then (HeartbeatArgs.ofJson v).map .heartbeat
    else if path = "/sync-log" then (SyncLogArgs.ofJson v).map .syncLog
    else if path = "/install-snapshot" then
      (InstallSnapshotArgs.ofJson v).map .installSnapshot
    else none

/-- What is written of a request. -/
def Request.forget : Request → Request
  | .installSnapshot args => .installSnapshot { args with snapshot := args.snapshot.forget }
  | request => request

end RaftNode

/-! ## Replies -/

/-- The answer to a vote request. -/
def RequestVoteResult.toJson (result : RequestVoteResult) : Value := .object [
  ("term", .number (.ofNat result.term)), ("voteGranted", .bool result.voteGranted),
  ("responderId", .string result.responderId)]

/-- The answer to an append. -/
def AppendEntriesResult.toJson (result : AppendEntriesResult) : Value := .object [
  ("term", .number (.ofNat result.term)), ("success", .bool result.success),
  ("responderId", .string result.responderId),
  ("currentLogLength", .number (.ofNat result.currentLogLength))]

/-- The answer to a heartbeat. -/
def HeartbeatResult.toJson (result : HeartbeatResult) : Value := .object [
  ("term", .number (.ofNat result.term)), ("success", .bool result.success),
  ("responderId", .string result.responderId)]

/-- A snapshot that is left out when there is none. -/
def snapshotMember (snapshot : Option Snapshot) : List (String × Value) :=
  match snapshot with
  | some s => [("snapshot", s.toJson)]
  | none => []

/-- The answer to a catch-up; `snapshot` is left out when there is none. -/
def SyncLogResult.toJson (result : SyncLogResult) : Value := .object ([
  ("term", .number (.ofNat result.term)),
  ("entries", .array (result.entries.map LogEntry.toJson)),
  ("commitIndex", .number (.ofNat result.commitIndex))] ++ snapshotMember result.snapshot)

/-- The answer to a snapshot. -/
def InstallSnapshotResult.toJson (result : InstallSnapshotResult) : Value := .object [
  ("term", .number (.ofNat result.term)), ("responderId", .string result.responderId)]

/-- The three fields, read back. -/
def RequestVoteResult.ofJson (v : Value) : Option RequestVoteResult := do
  let term ← v.read "term" asNat
  let voteGranted ← v.read "voteGranted" asBool
  let responderId ← v.read "responderId" asString
  return ⟨term, voteGranted, responderId⟩

/-- The four fields, read back. -/
def AppendEntriesResult.ofJson (v : Value) : Option AppendEntriesResult := do
  let term ← v.read "term" asNat
  let success ← v.read "success" asBool
  let responderId ← v.read "responderId" asString
  let currentLogLength ← v.read "currentLogLength" asNat
  return ⟨term, success, responderId, currentLogLength⟩

/-- The three fields, read back. -/
def HeartbeatResult.ofJson (v : Value) : Option HeartbeatResult := do
  let term ← v.read "term" asNat
  let success ← v.read "success" asBool
  let responderId ← v.read "responderId" asString
  return ⟨term, success, responderId⟩

/-- Its fields; a missing `snapshot` is `undefined`. -/
def SyncLogResult.ofJson (v : Value) : Option SyncLogResult := do
  let term ← v.read "term" asNat
  let entries ← v.read "entries" (asArray LogEntry.ofJson)
  let commitIndex ← v.read "commitIndex" asNat
  let snapshot ← v.readOptional "snapshot" Snapshot.ofJson
  return ⟨term, entries, commitIndex, snapshot⟩

/-- Both fields, read back. -/
def InstallSnapshotResult.ofJson (v : Value) : Option InstallSnapshotResult := do
  let term ← v.read "term" asNat
  let responderId ← v.read "responderId" asString
  return ⟨term, responderId⟩

namespace RaftNode

/-- The body of a reply. -/
def Reply.toJson : Reply → Value
  | .requestVote result => result.toJson
  | .appendEntries result => result.toJson
  | .heartbeat result => result.toJson
  | .syncLog result => result.toJson
  | .installSnapshot result => result.toJson

/-- The path that was asked. -/
def Reply.path : Reply → String
  | .requestVote _ => "/request-vote"
  | .appendEntries _ => "/append-entries"
  | .heartbeat _ => "/heartbeat"
  | .syncLog _ => "/sync-log"
  | .installSnapshot _ => "/install-snapshot"

/-- The result that the caller of a path takes from the body. -/
def Reply.ofBody (path : String) (body : List Char) : Option Reply :=
  (Json.parse body).bind fun v =>
    if path = "/request-vote" then (RequestVoteResult.ofJson v).map .requestVote
    else if path = "/append-entries" then (AppendEntriesResult.ofJson v).map .appendEntries
    else if path = "/heartbeat" then (HeartbeatResult.ofJson v).map .heartbeat
    else if path = "/sync-log" then (SyncLogResult.ofJson v).map .syncLog
    else if path = "/install-snapshot" then
      (InstallSnapshotResult.ofJson v).map .installSnapshot
    else none

/-- What is written of a reply. -/
def Reply.forget : Reply → Reply
  | .syncLog result => .syncLog { result with snapshot := result.snapshot.map Snapshot.forget }
  | reply => reply

end RaftNode

/-! ## Reading back what was written -/

/-- A vote request is read back as it was. -/
theorem RequestVoteArgs.ofJson_toJson (args : RequestVoteArgs) :
    ofJson args.toJson = some args := by
  simp [ofJson, toJson, Value.read, OrderedMap.get?, asString]

/-- An append is read back as it was, with its strokes. -/
theorem AppendEntriesArgs.ofJson_toJson (args : AppendEntriesArgs) :
    ofJson args.toJson = some args := by
  obtain ⟨term, leaderId, leaderAddr, prevLogIndex, prevLogTerm, entries, leaderCommit⟩ := args
  have hentries := asArray_entries entries
  cases leaderAddr <;>
    simp [ofJson, toJson, optionalMember, Value.read, Value.readOptional, OrderedMap.get?,
      asString, hentries]

/-- A heartbeat is read back as it was. -/
theorem HeartbeatArgs.ofJson_toJson (args : HeartbeatArgs) : ofJson args.toJson = some args := by
  obtain ⟨term, leaderId, leaderAddr, leaderCommit⟩ := args
  cases leaderAddr <;>
    simp [ofJson, toJson, optionalMember, Value.read, Value.readOptional, OrderedMap.get?, asString]

/-- A catch-up is read back as it was. -/
theorem SyncLogArgs.ofJson_toJson (args : SyncLogArgs) : ofJson args.toJson = some args := by
  simp [ofJson, toJson, Value.read, OrderedMap.get?, asString]

/-- A snapshot is read back as it was, but for what is not on the wire. -/
theorem InstallSnapshotArgs.ofJson_toJson (args : InstallSnapshotArgs) :
    ofJson args.toJson = some { args with snapshot := args.snapshot.forget } := by
  have hterm : args.toJson.read "term" asNat = some args.term := Json.Value.asNat_ofNat _
  have hid : args.toJson.read "leaderId" asString = some args.leaderId := rfl
  have hindex : args.toJson.read "lastIncludedIndex" asNat =
      some args.snapshot.lastIncludedIndex := Json.Value.asNat_ofNat _
  have hlast : args.toJson.read "lastIncludedTerm" asNat =
      some args.snapshot.lastIncludedTerm := Json.Value.asNat_ofNat _
  have hboards : args.toJson.read "boards" Record.ofJson = some args.snapshot.boards :=
    Record.ofJson_toJson _
  simp [ofJson, Snapshot.ofJson, Snapshot.forget, hterm, hid, hindex, hlast, hboards]

/-- A vote is read back as it was. -/
theorem RequestVoteResult.ofJson_toJson (result : RequestVoteResult) :
    ofJson result.toJson = some result := by
  simp [ofJson, toJson, Value.read, OrderedMap.get?, asString, asBool]

/-- The answer to an append is read back as it was. -/
theorem AppendEntriesResult.ofJson_toJson (result : AppendEntriesResult) :
    ofJson result.toJson = some result := by
  have hterm : result.toJson.read "term" asNat = some result.term := Json.Value.asNat_ofNat _
  have hsuccess : result.toJson.read "success" asBool = some result.success := rfl
  have hid : result.toJson.read "responderId" asString = some result.responderId := rfl
  have hlength : result.toJson.read "currentLogLength" asNat = some result.currentLogLength :=
    Json.Value.asNat_ofNat _
  simp [ofJson, hterm, hsuccess, hid, hlength]

/-- The answer to a heartbeat is read back as it was. -/
theorem HeartbeatResult.ofJson_toJson (result : HeartbeatResult) :
    ofJson result.toJson = some result := by
  simp [ofJson, toJson, Value.read, OrderedMap.get?, asString, asBool]

/-- The answer to a snapshot is read back as it was. -/
theorem InstallSnapshotResult.ofJson_toJson (result : InstallSnapshotResult) :
    ofJson result.toJson = some result := by
  simp [ofJson, toJson, Value.read, OrderedMap.get?, asString]

/-- The answer to a catch-up is read back as it was, but for what is not on the wire. -/
theorem SyncLogResult.ofJson_toJson (result : SyncLogResult) :
    ofJson result.toJson =
      some { result with snapshot := result.snapshot.map Snapshot.forget } := by
  obtain ⟨term, entries, commitIndex, snapshot⟩ := result
  have hentries := asArray_entries entries
  cases snapshot with
  | none =>
      simp [ofJson, toJson, snapshotMember, Value.read, Value.readOptional, OrderedMap.get?,
        hentries]
  | some s =>
      have hsnapshot := s.ofJson_toJson
      simp [ofJson, toJson, snapshotMember, Value.read, Value.readOptional, OrderedMap.get?,
        hentries, hsnapshot]

/-! ## Texts that can be read -/

/-- A list of plain values. -/
theorem plainItems_map {α : Type} {toJson : α → Value} (h : ∀ a, Plain (toJson a))
    (items : List α) : PlainItems (items.map toJson) := by
  induction items with
  | nil => trivial
  | cons a items ih => exact ⟨h a, ih⟩

/-- Boards with distinct names are plain. -/
theorem Record.plain_toJson {boards : Record} (h : OrderedMap.KeysDistinct boards) :
    Plain boards.toJson := by
  have hmembers : ∀ boards : Record,
      PlainMembers (boards.map fun b => (b.1, .array (b.2.map Stroke.toJson))) := by
    intro boards
    induction boards with
    | nil => trivial
    | cons b boards ih => exact ⟨plainItems_map Stroke.plain_toJson b.2, ih⟩
  refine ⟨?_, hmembers boards⟩
  rw [List.map_map]
  exact h

/-- Entries are plain. -/
theorem plainItems_entries (entries : List LogEntry) :
    PlainItems (entries.map LogEntry.toJson) := plainItems_map LogEntry.plain entries

/-- A snapshot is plain when its boards are a record. -/
theorem Snapshot.plain_toJson {s : Snapshot} (h : s.IsRecord) : Plain s.toJson := by
  refine ⟨?_, trivial, trivial, Record.plain_toJson h, trivial⟩
  simp

namespace RaftNode

/-- The snapshot of a request is a record. -/
def Request.IsRecord : Request → Prop
  | .installSnapshot args => args.snapshot.IsRecord
  | _ => True

/-- The snapshot of a reply is a record. -/
def Reply.IsRecord : Reply → Prop
  | .syncLog result => ∀ s, result.snapshot = some s → s.IsRecord
  | _ => True

/-- Every request is plain. -/
theorem Request.plain_toJson (request : Request) (h : request.IsRecord) :
    Plain request.toJson := by
  cases request with
  | requestVote args =>
      refine ⟨?_, trivial, trivial, trivial, trivial, trivial⟩
      simp
  | appendEntries args =>
      obtain ⟨term, leaderId, leaderAddr, prevLogIndex, prevLogTerm, entries, commit⟩ := args
      have hentries := plainItems_entries entries
      cases leaderAddr <;>
        simp [toJson, AppendEntriesArgs.toJson, optionalMember, Plain, PlainMembers, hentries]
  | heartbeat args =>
      obtain ⟨term, leaderId, leaderAddr, commit⟩ := args
      cases leaderAddr <;> simp [toJson, HeartbeatArgs.toJson, optionalMember, Plain, PlainMembers]
  | syncLog args =>
      refine ⟨?_, trivial, trivial, trivial, trivial⟩
      simp
  | installSnapshot args =>
      refine ⟨?_, trivial, trivial, trivial, trivial, Record.plain_toJson h, trivial⟩
      simp

/-- Every answer is plain. -/
theorem Reply.plain_toJson (reply : Reply) (h : reply.IsRecord) : Plain reply.toJson := by
  cases reply with
  | requestVote result =>
      refine ⟨?_, trivial, trivial, trivial, trivial⟩
      simp
  | appendEntries result =>
      refine ⟨?_, trivial, trivial, trivial, trivial, trivial⟩
      simp
  | heartbeat result =>
      refine ⟨?_, trivial, trivial, trivial, trivial⟩
      simp
  | syncLog result =>
      obtain ⟨term, entries, commitIndex, snapshot⟩ := result
      have hentries := plainItems_entries entries
      cases snapshot with
      | none => simp [toJson, SyncLogResult.toJson, snapshotMember, Plain, PlainMembers, hentries]
      | some s =>
          have hsnapshot := Snapshot.plain_toJson (h s rfl)
          simp [toJson, SyncLogResult.toJson, snapshotMember, Plain, PlainMembers, hentries,
            hsnapshot]
  | installSnapshot result =>
      refine ⟨?_, trivial, trivial, trivial⟩
      simp

/-- **A request is read back.** -/
theorem Request.ofBody_toJson (request : Request) (h : request.IsRecord) :
    ofBody request.path (Json.stringify request.toJson) = some request.forget := by
  have hobject : ∃ members, request.toJson = .object members := by
    cases request <;> exact ⟨_, rfl⟩
  obtain ⟨members, hmembers⟩ := hobject
  have hplain := request.plain_toJson h
  rw [hmembers] at hplain
  have hparse := Json.parse_stringify hplain
  rw [← hmembers] at hparse
  unfold ofBody
  rw [hparse, Option.bind_some]
  cases request with
  | requestVote args => simp [toJson, path, args.ofJson_toJson, forget]
  | appendEntries args => simp [toJson, path, args.ofJson_toJson, forget]
  | heartbeat args => simp [toJson, path, args.ofJson_toJson, forget]
  | syncLog args => simp [toJson, path, args.ofJson_toJson, forget]
  | installSnapshot args => simp [toJson, path, args.ofJson_toJson, forget]

/-- **A reply is read back.** -/
theorem Reply.ofBody_toJson (reply : Reply) (h : reply.IsRecord) :
    ofBody reply.path (Json.stringify reply.toJson) = some reply.forget := by
  have hobject : ∃ members, reply.toJson = .object members := by
    cases reply <;> exact ⟨_, rfl⟩
  obtain ⟨members, hmembers⟩ := hobject
  have hplain := reply.plain_toJson h
  rw [hmembers] at hplain
  have hparse := Json.parse_stringify hplain
  rw [← hmembers] at hparse
  unfold ofBody
  rw [hparse, Option.bind_some]
  cases reply with
  | requestVote result => simp [toJson, path, result.ofJson_toJson, forget]
  | appendEntries result => simp [toJson, path, result.ofJson_toJson, forget]
  | heartbeat result => simp [toJson, path, result.ofJson_toJson, forget]
  | syncLog result => simp [toJson, path, result.ofJson_toJson, forget]
  | installSnapshot result => simp [toJson, path, result.ofJson_toJson, forget]

end RaftNode

/-! ## In a run -/

namespace Cluster

variable {cfg : Config} {c : Cluster}

/-- **What is sent is what is read.**  In every run the handler that a request is posted to reads
from its body the request that was sent, and the caller reads from the body of a reply the reply
that was made, both without the history that snapshots carry. -/
theorem wire_read_back (h : Reach cfg Runs.Any (.init cfg) c) :
    (∀ p ∈ c.wire, Request.ofBody p.request.path (Json.stringify p.request.toJson) =
      some p.request.forget) ∧
    ∀ r ∈ c.replies, Reply.ofBody r.2.path (Json.stringify r.2.toJson) = some r.2.forget := by
  have hrecords := records_reach h
  constructor
  · intro p hp
    have hbrings := hrecords.wire p hp
    apply Request.ofBody_toJson
    cases hrequest : p.request with
    | installSnapshot args =>
        rw [hrequest] at hbrings
        exact hbrings
    | _ => trivial
  · intro r hr
    have hbrings := hrecords.replies r hr
    apply Reply.ofBody_toJson
    cases hreply : r.2 with
    | syncLog result =>
        rw [hreply] at hbrings
        exact hbrings
    | _ => trivial

/-- In a run of three replicas with a write, every message is read back. -/
theorem wire_read_back_trio :
    ∃ c, Reach .trio Runs.Any (.init .trio) c ∧ c.wire ≠ [] ∧ c.replies ≠ [] ∧
      (∀ p ∈ c.wire, Request.ofBody p.request.path (Json.stringify p.request.toJson) =
        some p.request.forget) ∧
      ∀ r ∈ c.replies, Reply.ofBody r.2.path (Json.stringify r.2.toJson) = some r.2.forget := by
  have hreach : Reach .trio Runs.Any (.init .trio)
      (Cluster.play .trio (.init .trio) trioElection) := Cluster.reach_play (by rfl)
  exact ⟨_, hreach, by decide, by decide, wire_read_back hreach⟩

end Cluster

end QuorumCanvas
