import Mathlib.Algebra.Order.BigOperators.Group.List
import QuorumCanvas.WriteAheadLog
import QuorumCanvas.NodeOps
import QuorumCanvas.AgreedCommits
import QuorumCanvas.Validation

/-!
# Requests against the receiver's body limit

A replica reads bodies of at most `bodyLimit` bytes.  The leader bounds a batch by its number
of entries, and a snapshot by nothing, so whether a request fits depends on what clients drew:
`fits_iff` says exactly when, in the sizes of the strokes and the digits of the indices.
-/

namespace Json

/-! ## Sizes of texts -/

/-- The number of bytes of a text. -/
def bytes (cs : List Char) : ℕ := (Utf8.encode cs).length

@[simp] theorem bytes_append (cs ds : List Char) : bytes (cs ++ ds) = bytes cs + bytes ds := by
  unfold bytes
  rw [Utf8.encode_append, List.length_append]

@[simp] theorem bytes_cons (c : Char) (cs : List Char) :
    bytes (c :: cs) = c.utf8Size + bytes cs := by
  unfold bytes
  rw [Utf8.encode_cons, List.length_append, String.length_utf8EncodeChar]

@[simp] theorem bytes_nil : bytes [] = 0 := rfl

/-- The size of a value's text. -/
def size (v : Value) : ℕ := bytes (stringify v)

/-- Texts of these sizes with commas between them. -/
def joined (sizes : List ℕ) : ℕ := (sizes.map (· + 1)).sum - 1

/-- The number of decimal digits. -/
def digits (n : ℕ) : ℕ := (Nat.toDigits 10 n).length

/-- Digits take one byte each. -/
theorem bytes_digits {cs : List Char} (h : ∀ c ∈ cs, c.isDigit = true) :
    bytes cs = cs.length := by
  induction cs with
  | nil => rfl
  | cons c cs ih =>
      have hdigit := Char.isDigit_iff_toNat.mp (h c List.mem_cons_self)
      have hone : c.utf8Size = 1 := by
        rw [Char.utf8Size_eq_one_iff, UInt32.le_iff_toNat_le]
        have hle : c.toNat ≤ 0x39 := hdigit.2
        exact hle.trans (by decide)
      rw [bytes_cons, hone, ih fun d hd => h d (List.mem_cons_of_mem c hd), List.length_cons]
      omega

/-- A number takes its digits. -/
theorem size_ofNat (n : ℕ) : size (.number (.ofNat n)) = digits n := by
  apply bytes_digits
  intro c hc
  exact Nat.isDigit_of_mem_toDigits (by decide) (by decide) hc

/-- Every item brings a comma or the closing bracket. -/
theorem bytes_stringifyItems (items : List Value) :
    bytes (stringifyItems items) = ((items.map size).map (· + 1)).sum + 1 := by
  induction items with
  | nil => rfl
  | cons v items ih =>
      have hcomma : ','.utf8Size = 1 := rfl
      rw [stringifyItems, bytes_cons, bytes_append, ih, hcomma, List.map_cons, List.map_cons,
        List.sum_cons]
      unfold size
      omega

/-- An array takes its items, the commas between them and two brackets. -/
theorem size_array (items : List Value) : size (.array items) = joined (items.map size) + 2 := by
  cases items with
  | nil => rfl
  | cons v items =>
      have hopen : '['.utf8Size = 1 := rfl
      unfold size
      rw [stringify, bytes_cons, bytes_append, bytes_stringifyItems, hopen]
      simp only [joined, List.map_cons, List.sum_cons]
      unfold size
      omega

/-- The size of a member. -/
def memberSize (m : String × Value) : ℕ := bytes (quote m.1) + 1 + size m.2

/-- Every member brings a comma or the closing brace. -/
theorem bytes_stringifyMembers (members : List (String × Value)) :
    bytes (stringifyMembers members) = ((members.map memberSize).map (· + 1)).sum + 1 := by
  induction members with
  | nil => rfl
  | cons m members ih =>
      have hcomma : ','.utf8Size = 1 := rfl
      have hcolon : ':'.utf8Size = 1 := rfl
      rw [stringifyMembers, bytes_cons, bytes_append, bytes_cons, bytes_append, ih, hcomma,
        hcolon, List.map_cons, List.map_cons, List.sum_cons]
      unfold memberSize size
      omega

/-- An object takes its members, the commas between them and two braces. -/
theorem size_object (members : List (String × Value)) :
    size (.object members) = joined (members.map memberSize) + 2 := by
  cases members with
  | nil => rfl
  | cons m members =>
      have hopen : '\x7b'.utf8Size = 1 := rfl
      have hcolon : ':'.utf8Size = 1 := rfl
      unfold size
      rw [stringify, bytes_cons, bytes_append, bytes_cons, bytes_append, bytes_stringifyMembers,
        hopen, hcolon]
      simp only [joined, List.map_cons, List.sum_cons]
      unfold memberSize size
      omega

end Json

namespace QuorumCanvas

open Json (Value size bytes quote joined digits memberSize)
open RaftNode (Request)

/-! ## The bodies of requests -/

/-- The body of a vote request. -/
def RequestVoteArgs.toJson (args : RequestVoteArgs) : Value := .object [
  ("term", .number (.ofNat args.term)), ("candidateId", .string args.candidateId),
  ("lastLogIndex", .number (.ofNat args.lastLogIndex)),
  ("lastLogTerm", .number (.ofNat args.lastLogTerm))]

/-- The body of an append; `leaderAddr` is left out when there is none. -/
def AppendEntriesArgs.toJson (args : AppendEntriesArgs) : Value := .object (
  [("term", .number (.ofNat args.term)), ("leaderId", .string args.leaderId)] ++
  optionalMember "leaderAddr" args.leaderAddr ++
  [("prevLogIndex", .number (.ofNat args.prevLogIndex)),
    ("prevLogTerm", .number (.ofNat args.prevLogTerm)),
    ("entries", .array (args.entries.map LogEntry.toJson)),
    ("leaderCommit", .number (.ofNat args.leaderCommit))])

/-- The body of a heartbeat. -/
def HeartbeatArgs.toJson (args : HeartbeatArgs) : Value := .object (
  [("term", .number (.ofNat args.term)), ("leaderId", .string args.leaderId)] ++
  optionalMember "leaderAddr" args.leaderAddr ++
  [("leaderCommit", .number (.ofNat args.leaderCommit))])

/-- The body of a catch-up. -/
def SyncLogArgs.toJson (args : SyncLogArgs) : Value := .object [
  ("fromIndex", .number (.ofNat args.fromIndex)), ("term", .number (.ofNat args.term)),
  ("leaderId", .string args.leaderId)]

/-- The boards of a snapshot as an object, one member a board. -/
def Record.toJson (boards : Record) : Value :=
  .object (boards.map fun b => (b.1, .array (b.2.map Stroke.toJson)))

/-- The body that carries a snapshot. -/
def InstallSnapshotArgs.toJson (args : InstallSnapshotArgs) : Value := .object [
  ("term", .number (.ofNat args.term)), ("leaderId", .string args.leaderId),
  ("lastIncludedIndex", .number (.ofNat args.snapshot.lastIncludedIndex)),
  ("lastIncludedTerm", .number (.ofNat args.snapshot.lastIncludedTerm)),
  ("boards", args.snapshot.boards.toJson)]

namespace RaftNode

/-- What is posted, as JSON. -/
def Request.toJson : Request → Value
  | .requestVote args => args.toJson
  | .appendEntries args => args.toJson
  | .heartbeat args => args.toJson
  | .syncLog args => args.toJson
  | .installSnapshot args => args.toJson

/-- The default limit of `express.json()`, 100 KB. -/
def bodyLimit : ℕ := 102400

/-- The receiver reads the body. -/
def Request.Fits (request : Request) : Prop := size request.toJson ≤ bodyLimit

instance (request : Request) : Decidable request.Fits :=
  inferInstanceAs (Decidable (_ ≤ _))

/-- The request that `replicateOnce` builds for a peer, if it builds any, can be read. -/
def Reaches (n : RaftNode) (peer : String) : Prop :=
  ∀ request, n.replicateRequest peer = some request → request.Fits

end RaftNode

/-! ## Their sizes -/

/-- The bytes of an entry: its frame, its index and term, and its stroke. -/
def LogEntry.weight (entry : LogEntry) : ℕ :=
  28 + digits entry.index + digits entry.term + size entry.stroke.toJson

/-- The bytes of a board in a snapshot: its name and its events. -/
def boardWeight (b : String × List Stroke) : ℕ :=
  bytes (quote b.1) + 3 + joined (b.2.map fun stroke => size stroke.toJson)

/-- An entry takes its weight. -/
theorem LogEntry.size_toJson (entry : LogEntry) : size entry.toJson = entry.weight := by
  have hindex : bytes (quote "index") = 7 := by decide +kernel
  have hterm : bytes (quote "term") = 6 := by decide +kernel
  have hstroke : bytes (quote "stroke") = 8 := by decide +kernel
  rw [toJson, Json.size_object]
  simp only [members, List.map_cons, List.map_nil, joined, List.sum_cons, List.sum_nil,
    memberSize, hindex, hterm, hstroke, Json.size_ofNat, weight]
  omega

/-- An append takes 95 bytes of field names and punctuation, its numbers and names, and its
entries. -/
theorem AppendEntriesArgs.size_toJson (args : AppendEntriesArgs) {addr : String}
    (haddr : args.leaderAddr = some addr) : size args.toJson =
      95 + digits args.term + bytes (quote args.leaderId) + bytes (quote addr) +
        digits args.prevLogIndex + digits args.prevLogTerm + digits args.leaderCommit +
        joined (args.entries.map LogEntry.weight) := by
  have hterm : bytes (quote "term") = 6 := by decide +kernel
  have hid : bytes (quote "leaderId") = 10 := by decide +kernel
  have hadd : bytes (quote "leaderAddr") = 12 := by decide +kernel
  have hindex : bytes (quote "prevLogIndex") = 14 := by decide +kernel
  have hprev : bytes (quote "prevLogTerm") = 13 := by decide +kernel
  have hentries : bytes (quote "entries") = 9 := by decide +kernel
  have hcommit : bytes (quote "leaderCommit") = 14 := by decide +kernel
  have hsize : ∀ s : String, size (.string s) = bytes (quote s) := fun _ => rfl
  have hitems : (args.entries.map LogEntry.toJson).map size = args.entries.map LogEntry.weight := by
    rw [List.map_map]
    exact List.map_congr_left fun e _ => e.size_toJson
  rw [toJson, Json.size_object, haddr]
  simp only [optionalMember, List.cons_append, List.nil_append, List.map_cons, List.map_nil,
    memberSize, hterm, hid, hadd, hindex, hprev, hentries, hcommit, hsize, Json.size_ofNat,
    Json.size_array, hitems]
  generalize joined (args.entries.map LogEntry.weight) = w
  simp only [joined, List.map_cons, List.map_nil, List.sum_cons, List.sum_nil]
  omega

/-- The boards take their weights. -/
theorem Record.size_toJson (boards : Record) :
    size boards.toJson = joined (boards.map boardWeight) + 2 := by
  have hboard : ∀ b : String × List Stroke,
      memberSize (b.1, .array (b.2.map Stroke.toJson)) = boardWeight b := by
    intro b
    rw [memberSize, Json.size_array, List.map_map, boardWeight]
    simp only [Function.comp_def]
    omega
  rw [toJson, Json.size_object, List.map_map]
  exact congrArg (joined · + 2) (List.map_congr_left fun b _ => hboard b)

/-- A snapshot takes 74 bytes of field names and punctuation, its numbers and names, and its
boards. -/
theorem InstallSnapshotArgs.size_toJson (args : InstallSnapshotArgs) : size args.toJson =
    74 + digits args.term + bytes (quote args.leaderId) +
      digits args.snapshot.lastIncludedIndex + digits args.snapshot.lastIncludedTerm +
      joined (args.snapshot.boards.map boardWeight) := by
  have hterm : bytes (quote "term") = 6 := by decide +kernel
  have hid : bytes (quote "leaderId") = 10 := by decide +kernel
  have hindex : bytes (quote "lastIncludedIndex") = 19 := by decide +kernel
  have hlast : bytes (quote "lastIncludedTerm") = 18 := by decide +kernel
  have hboards : bytes (quote "boards") = 8 := by decide +kernel
  have hsize : ∀ s : String, size (.string s) = bytes (quote s) := fun _ => rfl
  rw [toJson, Json.size_object]
  simp only [List.map_cons, List.map_nil, memberSize, hterm, hid, hindex, hlast, hboards, hsize,
    Json.size_ofNat, Record.size_toJson]
  generalize joined (args.snapshot.boards.map boardWeight) = w
  simp only [joined, List.map_cons, List.map_nil, List.sum_cons, List.sum_nil]
  omega

namespace RaftNode

/-- What the leader builds for a peer stays below the limit: the entries from the peer's next
index on, at most `batchCap` of them, or, when these are compacted, the boards of the
snapshot on file, together with the indices, terms and names of the request. -/
def Light (n : RaftNode) (peer : String) : Prop :=
  let nextIdx := (n.nextIndex peer).getD (n.log.getLastIndex + 1)
  n.state = .leader →
    if nextIdx ≤ n.log.lastIncludedIndex then
      ∀ s, n.persistence.loadSnapshot = some s →
        74 + digits n.currentTerm + bytes (quote n.replicaId) + digits s.lastIncludedIndex +
          digits s.lastIncludedTerm + joined (s.boards.map boardWeight) ≤ bodyLimit
    else
      95 + digits n.currentTerm + bytes (quote n.replicaId) + bytes (quote n.selfUrl) +
        digits (nextIdx - 1) + digits (n.log.getTermAt (nextIdx - 1)) + digits n.commitIndex +
        joined (((n.log.getEntriesFrom nextIdx).take n.batchCap).map LogEntry.weight) ≤ bodyLimit

/-- **When a peer can be reached.** -/
theorem reaches_iff (n : RaftNode) (peer : String) : n.Reaches peer ↔ n.Light peer := by
  unfold Reaches Light replicateRequest
  dsimp only
  by_cases hlead : n.state = .leader
  · rw [if_neg (not_not_intro hlead)]
    split
    · constructor
      · intro h _ s hs
        have hfits := h _ (by rw [hs]; rfl)
        rwa [Request.Fits, Request.toJson, InstallSnapshotArgs.size_toJson] at hfits
      · intro h request hrequest
        obtain ⟨s, hs, rfl⟩ := Option.map_eq_some_iff.mp hrequest
        rw [Request.Fits, Request.toJson, InstallSnapshotArgs.size_toJson]
        exact h hlead s hs
    · constructor
      · intro h _
        have hfits := h _ rfl
        rwa [Request.Fits, Request.toJson, AppendEntriesArgs.size_toJson _ rfl] at hfits
      · intro h request hrequest
        obtain rfl := Option.some.inj hrequest
        rw [Request.Fits, Request.toJson, AppendEntriesArgs.size_toJson _ rfl]
        exact h hlead
  · rw [if_pos hlead]
    exact ⟨fun _ h => (hlead h).elim, fun _ request h => nomatch h⟩

end RaftNode

/-! ## Runs -/

open Cluster (Reach)

variable {cfg : Config} {c : Cluster}

/-- A bound on each of at most `k` items bounds them all. -/
theorem joined_le {sizes : List ℕ} {b k : ℕ} (hlength : sizes.length ≤ k)
    (hle : ∀ w ∈ sizes, w ≤ b) : joined sizes ≤ k * (b + 1) - 1 := by
  have hsum : (sizes.map (· + 1)).sum ≤ sizes.length * (b + 1) := by
    clear hlength
    induction sizes with
    | nil => exact Nat.zero_le _
    | cons w sizes ih =>
        have hw := hle w List.mem_cons_self
        have hrest := ih fun v hv => hle v (List.mem_cons_of_mem w hv)
        rw [List.map_cons, List.sum_cons, List.length_cons, Nat.succ_mul]
        omega
  have hmul := Nat.mul_le_mul_right (b + 1) hlength
  unfold joined
  omega

/-- The entries that clients make in a run are at most so large. -/
def WritesUpTo (b : ℕ) (c : Cluster) (e : Cluster.Event) : Prop :=
  ∀ a stroke, (e = .act (.clientWrite a stroke) ∨
      ∃ calls, e = .crash (.clientWrite a stroke) calls) →
    ((c.replicas a).node.beginTurn.clientEntry stroke).weight ≤ b

/-- **A bound on what clients draw** bounds every batch. -/
theorem batch_fits {b : ℕ} (h : Reach cfg (WritesUpTo b) (.init cfg) c) {a peer : String}
    (ha : a ∈ cfg.members) {n : RaftNode} (hn : (c.replicas a).node = n) {nextIdx : ℕ}
    (hnext : (n.nextIndex peer).getD (n.log.getLastIndex + 1) = nextIdx)
    (habove : n.log.lastIncludedIndex < nextIdx)
    (hframe : 95 + digits n.currentTerm + bytes (quote n.replicaId) + bytes (quote n.selfUrl) +
      digits (nextIdx - 1) + digits (n.log.getTermAt (nextIdx - 1)) + digits n.commitIndex +
      (n.batchCap * (b + 1) - 1) ≤ RaftNode.bodyLimit) : n.Reaches peer := by
  have hspares : SparesProto (fun e => e.weight ≤ b) (fun _ => False) := fun hproto =>
    hproto.elim
  have hkept := (kept_localInvariant hspares cfg).reach (fun _ _ hok => hok)
    ((kept_localInvariant hspares cfg).init keptFiles_fresh) h
  have hlog := (hkept.nodes a ha).log
  rw [hn] at hlog
  rw [RaftNode.reaches_iff]
  intro _
  rw [hnext, if_neg (Nat.not_le.mpr habove)]
  have hbatch : joined (((n.log.getEntriesFrom nextIdx).take n.batchCap).map LogEntry.weight) ≤
      n.batchCap * (b + 1) - 1 := by
    apply joined_le
    · rw [List.length_map, List.length_take]
      exact Nat.min_le_left _ _
    · intro w hw
      obtain ⟨e, he, rfl⟩ := List.mem_map.mp hw
      exact hlog e (List.mem_of_mem_drop (List.mem_of_mem_take he))
  omega

/-- The events of one board are among all events of the snapshot. -/
theorem joined_eventsOf_le (boards : Record) (b : String) :
    joined ((Boards.eventsOf (RaftNode.recordEvents boards) b).map fun s => size s.toJson) ≤
      joined (boards.map boardWeight) := by
  have hsum : ∀ events : List Stroke, (((Boards.eventsOf events b).map fun s =>
      size s.toJson).map (· + 1)).sum ≤ ((events.map fun s => size s.toJson).map (· + 1)).sum := by
    intro events
    have hsub : (Boards.eventsOf events b).Sublist events := List.filter_sublist
    exact ((hsub.map _).map _).sum_le_sum fun _ _ => Nat.zero_le _
  have hboards : (((RaftNode.recordEvents boards).map fun s => size s.toJson).map (· + 1)).sum ≤
      ((boards.map boardWeight).map (· + 1)).sum := by
    induction boards with
    | nil => exact le_rfl
    | cons board boards ih =>
        have hone : ((board.2.map fun s => size s.toJson).map (· + 1)).sum ≤ boardWeight board := by
          unfold boardWeight joined
          omega
        have hevents : RaftNode.recordEvents (board :: boards) =
            board.2 ++ RaftNode.recordEvents boards := rfl
        rw [hevents, List.map_append, List.map_append, List.sum_append, List.map_cons,
          List.map_cons, List.sum_cons]
        omega
  exact Nat.sub_le_sub_right ((hsum _).trans hboards) 1

/-- **A snapshot outgrows the limit** when the events that it covers on one board do: a peer
behind its boundary is not reached any longer. -/
theorem snapshot_outgrows (h : Reach cfg Runs.Any (.init cfg) c) {a peer : String}
    (ha : a ∈ cfg.members) (hlead : (c.replicas a).node.state = .leader)
    (hbehind : ((c.replicas a).node.nextIndex peer).getD
      ((c.replicas a).node.log.getLastIndex + 1) ≤ (c.replicas a).node.log.lastIncludedIndex)
    {s : Snapshot} (hs : (c.replicas a).node.persistence.loadSnapshot = some s) {b : String}
    (hb : b ≠ "__proto__") (hlarge : RaftNode.bodyLimit <
      joined ((Boards.eventsOf (strokesOf s.covered) b).map fun stroke => size stroke.toJson)) :
    ¬ (c.replicas a).node.Reaches peer := by
  have hspares : SparesProto (fun _ => True) (· ≠ "__proto__") := fun hproto =>
    (hproto rfl).elim
  have hkept := (kept_localInvariant hspares cfg).reach (fun _ _ _ _ _ _ => trivial)
    ((kept_localInvariant hspares cfg).init keptFiles_fresh) h
  have hboards := ((hkept.nodes a ha).files.snapshot s hs).boards b hb
  have hle := joined_eventsOf_le s.boards b
  rw [hboards] at hle
  rw [RaftNode.reaches_iff]
  intro hlight
  have hsmall := hlight hlead
  rw [if_pos hbehind] at hsmall
  have hfits := hsmall s hs
  omega

/-! ## A batch that does not fit -/

/-- A dot with a target. -/
def targeting (id target : String) : Stroke :=
  { Stroke.dot id "board" with targetStrokeId := some target }

/-- The message that brings a stroke to the gateway. -/
def strokeMessage (stroke : Stroke) : Value :=
  .object [("type", .string "stroke"), ("stroke", stroke.toJson)]

/-- An undo takes 118 bytes, its id and its target. -/
theorem size_targeting (id target : String) :
    size (targeting id target).toJson = bytes (quote id) + bytes (quote target) + 118 := by
  have hid : bytes (quote "id") = 4 := by decide +kernel
  have hboard : memberSize ("boardId", .string "board") = 17 := by decide +kernel
  have huser : memberSize ("userId", .string "user") = 15 := by decide +kernel
  have hcolor : memberSize ("color", .string "#000000") = 17 := by decide +kernel
  have hwidth : memberSize ("width", .number .one) = 9 := by decide +kernel
  have hpoints : memberSize ("points", .array [.array [.number .zero, .number .zero]]) = 16 := by
    decide +kernel
  have htime : memberSize ("timestamp", .number .zero) = 13 := by decide +kernel
  have htarget : bytes (quote "targetStrokeId") = 16 := by decide +kernel
  have hsize : ∀ s : String, size (.string s) = bytes (quote s) := fun _ => rfl
  have hmembers : (targeting id target).toJson = .object [
      ("id", .string id), ("boardId", .string "board"), ("userId", .string "user"),
      ("color", .string "#000000"), ("width", .number .one),
      ("points", .array [.array [.number .zero, .number .zero]]), ("timestamp", .number .zero),
      ("targetStrokeId", .string target)] := rfl
  have hmember : ∀ key s : String,
      memberSize (key, .string s) = bytes (quote key) + 1 + bytes (quote s) := fun _ _ => rfl
  rw [hmembers, Json.size_object]
  simp only [List.map_cons, List.map_nil, hboard, huser, hcolor, hwidth, hpoints, htime, hmember,
    hid, htarget, joined, List.sum_cons, List.sum_nil]
  omega

/-- The message around a stroke takes 27 bytes. -/
theorem size_strokeMessage (stroke : Stroke) :
    size (strokeMessage stroke) = 27 + size stroke.toJson := by
  have htype : memberSize ("type", .string "stroke") = 15 := by decide +kernel
  have hstroke : bytes (quote "stroke") = 8 := by decide +kernel
  have hmember : memberSize ("stroke", stroke.toJson) = 9 + size stroke.toJson := by
    unfold memberSize
    rw [hstroke]
  rw [strokeMessage, Json.size_object]
  simp only [List.map_cons, List.map_nil, htype, hmember, joined, List.sum_cons, List.sum_nil]
  omega

/-- So many letters. -/
def letters (k : ℕ) : String := String.ofList (List.replicate k 'x')

/-- A string of letters takes one byte a letter and two quotes. -/
theorem bytes_letters (k : ℕ) : bytes (quote (letters k)) = k + 2 := by
  have hplain : (List.replicate k 'x').flatMap Json.escape = List.replicate k 'x' := by
    induction k with
    | zero => rfl
    | succ k ih =>
        rw [List.replicate_succ, List.flatMap_cons, ih]
        rfl
  have hbytes : bytes (List.replicate k 'x') = k := by
    clear hplain
    induction k with
    | zero => rfl
    | succ k ih =>
        have hx : 'x'.utf8Size = 1 := rfl
        rw [List.replicate_succ, Json.bytes_cons, ih, hx, Nat.add_comm]
  have hquote : '\"'.utf8Size = 1 := rfl
  rw [quote, letters, String.toList_ofList, hplain, Json.bytes_cons, Json.bytes_append, hbytes,
    Json.bytes_cons, hquote, Json.bytes_nil]
  omega

/-- Leader `a` of the trio takes in two strokes. -/
def twoWrites (s₁ s₂ : Stroke) : List Cluster.Event :=
  trioElection ++ [Cluster.Event.act (.clientWrite "a" s₁), .act (.clientWrite "a" s₂)]

/-- A leader with two entries that no peer has is about to send both. -/
theorem reach_twoWrites (s₁ s₂ : Stroke) : ∃ c, Reach .trio Runs.Any (.init .trio) c ∧
    (c.replicas "a").node.state = .leader ∧
    (c.replicas "a").node.replicateRequest "b" =
      some (.appendEntries ⟨1, "a", some "a", 0, 0, [⟨1, 1, s₁⟩, ⟨2, 1, s₂⟩], 0⟩) :=
  ⟨Cluster.play .trio (.init .trio) (twoWrites s₁ s₂), Cluster.reach_play (by rfl), by rfl, by rfl⟩

/-- The gateway accepts undos with targets of any length. -/
theorem accepted_targeting (target : String) {id : String} (hid : id = "x" ∨ id = "y") :
    validateStroke (some (targeting id target).toJson) ⟨"board", "user", 0, 0⟩ = .ok () := by
  have hvalid : validId (some (.string id)) = true := by
    rcases hid with rfl | rfl <;> decide +kernel
  have hcolor : validColor (some (.string "#000000")) = true := by decide +kernel
  have hwidth : validWidth (some (.number .one)) = true := by decide +kernel
  have hpoints : validPoints (some (.array [.array [.number .zero, .number .zero]])) = true := by
    decide +kernel
  have hchecks : checks (targeting id target).toJson ⟨"board", "user", 0, 0⟩ =
      [(validId (some (.string id)), "Invalid stroke id"),
        (true, "Stroke boardId/userId must match connection"), (true, "Invalid stroke action"),
        (true, "Invalid targetStrokeId"),
        (true, "undo_stroke/redo_stroke requires targetStrokeId"),
        (validColor (some (.string "#000000")), "Invalid stroke color"),
        (true, "Invalid stroke timestamp"),
        (validWidth (some (.number .one)), "Invalid stroke width"),
        (validPoints (some (.array [.array [.number .zero, .number .zero]])),
          "Invalid stroke points"),
        (true, "Invalid stroke point")] := rfl
  unfold validateStroke
  simp only [hchecks, hvalid, hcolor, hwidth, hpoints]
  rfl

section LongTarget

variable {target : String} (htarget : bytes (quote target) = 60002)

include htarget

/-- The message still fits a websocket frame. -/
theorem size_message_le {id : String} (hid : id = "x" ∨ id = "y") :
    size (strokeMessage (targeting id target)) ≤ 65536 := by
  have hx : bytes (quote "x") = 3 := by decide +kernel
  have hy : bytes (quote "y") = 3 := by decide +kernel
  rw [size_strokeMessage, size_targeting, htarget]
  rcases hid with rfl | rfl <;> omega

/-- Both undos together fit no body. -/
theorem not_reaches_twoWrites {n : RaftNode} (hrequest : n.replicateRequest "b" =
      some (.appendEntries ⟨1, "a", some "a", 0, 0, [⟨1, 1, targeting "x" target⟩,
        ⟨2, 1, targeting "y" target⟩], 0⟩)) : ¬ n.Reaches "b" := by
  intro hreaches
  have hfits := hreaches _ hrequest
  rw [RaftNode.Request.Fits, RaftNode.Request.toJson,
    AppendEntriesArgs.size_toJson _ rfl] at hfits
  simp only [List.map_cons, List.map_nil, joined, List.sum_cons, List.sum_nil,
    LogEntry.weight, size_targeting, htarget, RaftNode.bodyLimit] at hfits
  omega

end LongTarget

/-- **A batch of two strokes that no peer reads.**  The gateway accepts both, in messages of
less than 65536 bytes, and the request for `b` that holds them does not fit. -/
theorem batch_too_large :
    (∀ id ∈ ["x", "y"],
      validateStroke (some (targeting id (letters 60000)).toJson) ⟨"board", "user", 0, 0⟩ =
        .ok () ∧ size (strokeMessage (targeting id (letters 60000))) ≤ 65536) ∧
    ∃ c, Reach .trio Runs.Any (.init .trio) c ∧ (c.replicas "a").node.state = .leader ∧
      "b" ∈ Config.trio.peers "a" ∧ ¬ (c.replicas "a").node.Reaches "b" := by
  have hlong := bytes_letters 60000
  constructor
  · intro id hid
    have hid := List.mem_pair.mp hid
    exact ⟨accepted_targeting _ hid, size_message_le hlong hid⟩
  · obtain ⟨c, hc, hlead, hrequest⟩ :=
      reach_twoWrites (targeting "x" (letters 60000)) (targeting "y" (letters 60000))
    exact ⟨c, hc, hlead, by decide, not_reaches_twoWrites hlong hrequest⟩

end QuorumCanvas
