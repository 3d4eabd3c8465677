import QuorumCanvas.Persistence
import QuorumCanvas.JsonText
import QuorumCanvas.Utf8
import QuorumCanvas.Runs
import QuorumCanvas.NodeFrame

/-!
# The log on disk, byte by byte

`log.jsonl` holds one line of JSON for each entry.  A crash inside `appendLog` leaves the
first bytes of a line.  `loadLog` drops a last line that it cannot read, but the bytes stay,
and the next append goes on behind them on the same line.

As long as every append that is completed finds the end of a whole line, and every line of the
file can be read, the file shows what the calls made it: those that were completed, and any of
those that crashed behind the end of the entry's text (`recovered_log`).
-/

namespace QuorumCanvas

open Json (Value stringify)

/-! ## Entries as JSON -/

/-- The action as it is written. -/
def StrokeAction.text : StrokeAction → String
  | .stroke => "stroke"
  | .undoStroke => "undo_stroke"
  | .redoStroke => "redo_stroke"

/-- A property that is left out when it is undefined. -/
def optionalMember (key : String) (v : Option String) : List (String × Value) :=
  match v with
  | some s => [(key, .string s)]
  | none => []

/-- A stroke as `JSON.stringify` is given it. -/
def Stroke.toJson (stroke : Stroke) : Value :=
  .object ([
    ("id", .string stroke.id), ("boardId", .string stroke.boardId),
    ("userId", .string stroke.userId), ("color", .string stroke.color),
    ("width", .number stroke.width),
    ("points", .array (stroke.points.map fun p => .array [.number p.1, .number p.2])),
    ("timestamp", .number stroke.timestamp)] ++
    (optionalMember "action" (stroke.action.map StrokeAction.text) ++
      optionalMember "targetStrokeId" stroke.targetStrokeId))

namespace LogEntry

/-- The fields of an entry. -/
def members (entry : LogEntry) : List (String × Value) := [
  ("index", .number (.ofNat entry.index)), ("term", .number (.ofNat entry.term)),
  ("stroke", entry.stroke.toJson)]

/-- An entry as `JSON.stringify` is given it. -/
def toJson (entry : LogEntry) : Value := .object entry.members

/-- `JSON.stringify(entry)` -/
def text (entry : LogEntry) : List Char := stringify entry.toJson

end LogEntry

/-! ## The file -/

namespace FilePersistence

/-- The line of an entry. -/
def line (entry : LogEntry) : List Char := entry.text ++ ['\n']

/-- The lines of the file that are not empty.  A file that does not exist has none. -/
def lines (file : List UInt8) : List (List Char) :=
  ((Utf8.decode file).splitOn '\n').filter fun line => 0 < line.length

/-- The loop of `loadLog`, from line `i` on. -/
def loadLines (logPath : String) : ℕ → List (List Char) → Except String (List Value)
  | _, [] => .ok []
  | i, line :: rest =>
      match Json.parse line with
      | some entry => (loadLines logPath (i + 1) rest).map (entry :: ·)
      | none =>
          -- only the last line can be a torn write
          if rest = [] then .ok []
          else .error ("corrupt WAL line " ++ toString i ++ " in " ++ logPath)

/-- The lines that can be read, or an error. -/
def loadLog (logPath : String) (file : List UInt8) : Except String (List Value) :=
  loadLines logPath 0 (lines file)

/-- A line is appended. -/
def appendLog (file : List UInt8) (entry : LogEntry) : List UInt8 :=
  file ++ Utf8.encode (line entry)

/-- What a crash leaves of `appendLog` when it has written so many bytes. -/
def tornAppend (file : List UInt8) (entry : LogEntry) (written : ℕ) : List UInt8 :=
  file ++ (Utf8.encode (line entry)).take written

/-- All lines are written anew. -/
def rewriteLog (entries : List LogEntry) : List UInt8 := Utf8.encode (entries.flatMap line)

/-- The next byte begins a line. -/
def atLineStart (file : List UInt8) : Bool := (Utf8.decode file).getLast?.all (· = '\n')

/-- Every line can be read. -/
def wellFormed (file : List UInt8) : Bool := (lines file).all fun line => (Json.parse line).isSome

end FilePersistence

/-! ## Calls, crashes and restarts -/

/-- A call that was completed, or one that crashed when the entry's text was complete. -/
inductive Attempt
  | completed (call : PersistenceCall)
  | crashed (call : PersistenceCall)
  deriving DecidableEq

/-- The log on disk, and the process that owns it. -/
structure Wal where
  file : List UInt8
  /-- the in-memory log of the process; `none` while there is none -/
  entries : Option (List Value)
  /-- history variable: the calls made so far, the latest first -/
  attempts : List Attempt

namespace Wal

/-- No file yet. -/
def fresh : Wal := ⟨[], none, []⟩

/-- What a process does with the file. -/
inductive Event
  | append (entry : LogEntry)
  | rewrite (entries : List LogEntry)
  /-- the process dies inside `appendLog`, when so many bytes of the line are on disk -/
  | crash (entry : LogEntry) (written : ℕ)
  | restart

/-- One event; `none` when it cannot happen.  A process that cannot load its log does not
come up. -/
def next (logPath : String) (w : Wal) : Event → Option Wal
  | .append entry => w.entries.map fun entries =>
      ⟨FilePersistence.appendLog w.file entry, some (entries ++ [entry.toJson]),
        .completed (.appendLog entry) :: w.attempts⟩
  | .rewrite entries => w.entries.map fun _ =>
      ⟨FilePersistence.rewriteLog entries, some (entries.map LogEntry.toJson),
        .completed (.rewriteLog entries) :: w.attempts⟩
  | .crash entry written => w.entries.map fun _ =>
      ⟨FilePersistence.tornAppend w.file entry written, none,
        if (Utf8.encode entry.text).length ≤ written then
          .crashed (.appendLog entry) :: w.attempts
        else w.attempts⟩
  | .restart => some { w with entries := (FilePersistence.loadLog logPath w.file).toOption }

end Wal

/-- The files after all calls that were completed, and after some of those that crashed. -/
inductive Attempt.Shows : List Attempt → Persistence → Prop
  | start : Shows [] (.fresh .file)
  | completed {attempts p} (call : PersistenceCall) (h : Shows attempts p) :
      Shows (.completed call :: attempts) (p.run call)
  | kept {attempts p} (call : PersistenceCall) (h : Shows attempts p) :
      Shows (.crashed call :: attempts) (p.run call)
  | dropped {attempts p} (call : PersistenceCall) (h : Shows attempts p) :
      Shows (.crashed call :: attempts) p

/-- A restart here loads the log that the calls so far have made. -/
def Wal.Recovers (logPath : String) (w : Wal) : Prop :=
  ∃ p, Attempt.Shows w.attempts p ∧
    FilePersistence.loadLog logPath w.file = .ok (p.loadLog.map LogEntry.toJson)

/-- An append that is completed begins a line, behind lines that can all be read.  One that
crashes with some bytes written goes on behind an unfinished line or finds such lines too. -/
def Wal.Spares (w : Wal) : Wal.Event → Prop
  | .append _ => FilePersistence.atLineStart w.file ∧ FilePersistence.wellFormed w.file
  | .crash _ written =>
      written = 0 ∨ ¬ FilePersistence.atLineStart w.file ∨ FilePersistence.wellFormed w.file
  | .rewrite _ | .restart => True

instance (w : Wal) : (event : Wal.Event) → Decidable (w.Spares event)
  | .append _ => inferInstanceAs (Decidable (_ ∧ _))
  | .crash _ _ => inferInstanceAs (Decidable (_ ∨ _ ∨ _))
  | .rewrite _ | .restart => .isTrue trivial

/-! ## The text of an entry -/

/-- Points are plain. -/
theorem plainItems_points (points : List (Json.Number × Json.Number)) :
    Json.PlainItems (points.map fun p => .array [.number p.1, .number p.2]) := by
  induction points with
  | nil => trivial
  | cons p points ih => exact ⟨⟨trivial, trivial, trivial⟩, ih⟩

/-- Strokes are plain. -/
theorem Stroke.plain_toJson (stroke : Stroke) : Json.Plain stroke.toJson := by
  have hmembers : ∀ action target : Option String,
      Json.Plain (.object ([
        ("id", .string stroke.id), ("boardId", .string stroke.boardId),
        ("userId", .string stroke.userId), ("color", .string stroke.color),
        ("width", .number stroke.width),
        ("points", .array (stroke.points.map fun p => .array [.number p.1, .number p.2])),
        ("timestamp", .number stroke.timestamp)] ++
        (optionalMember "action" action ++ optionalMember "targetStrokeId" target))) := by
    intro action target
    have hpoints := plainItems_points stroke.points
    constructor
    · cases action <;> cases target <;> simp [optionalMember]
    · cases action <;> cases target <;>
        simp [optionalMember, Json.PlainMembers, Json.Plain, hpoints]
  exact hmembers _ _

namespace LogEntry

/-- Entries are plain. -/
theorem plain (entry : LogEntry) : Json.Plain (.object entry.members) := by
  have hstroke := entry.stroke.plain_toJson
  constructor
  · simp [members]
  · exact ⟨trivial, trivial, hstroke, trivial⟩

/-- The text of an entry begins with its index. -/
theorem exists_tail (entry : LogEntry) : ∃ tail, entry.text = '\x7b' :: '\"' :: 'i' :: tail :=
  ⟨_, rfl⟩

/-- It is parsed back. -/
theorem parse_text (entry : LogEntry) : Json.parse entry.text = some entry.toJson :=
  Json.parse_stringify entry.plain

/-- The text has no line break. -/
theorem oneLine (entry : LogEntry) : '\n' ∉ entry.text := by
  intro hmem
  have hclean := Json.clean_stringify entry.toJson '\n' hmem
  revert hclean
  decide

end LogEntry

namespace FilePersistence

/-! ## The bytes that a crash leaves -/

/-- Some bytes of an entry's text, and the characters that they are read as. -/
inductive Scrap (entry : LogEntry) : List UInt8 → List Char → Prop
  | front {cs : List Char} (hcs : cs <+: entry.text) (hnil : cs ≠ []) :
      Scrap entry (Utf8.encode cs) cs
  | cut {cs : List Char} {c : Char} {t : List UInt8} (hcs : cs <+: entry.text) (hnil : cs ≠ [])
      (hne : cs ≠ entry.text) (ht : t <+: String.utf8EncodeChar c)
      (hcut : t ≠ String.utf8EncodeChar c) (htnil : t ≠ []) :
      Scrap entry (Utf8.encode cs ++ t) (cs ++ [Utf8.replacement])

/-- Bytes at the end of the file, and the characters of the unfinished line that they are. -/
structure Tail (t : List UInt8) (cs : List Char) : Prop where
  decodes : ∀ bs, Utf8.AsciiHead bs → Utf8.decode (t ++ bs) = cs ++ Utf8.decode bs
  nonempty : cs ≠ []
  oneLine : '\n' ∉ cs

variable {entry : LogEntry} {p t : List UInt8} {cs ds : List Char}

theorem text_ne_nil (entry : LogEntry) : entry.text ≠ [] := by
  obtain ⟨tail, htext⟩ := entry.exists_tail
  rw [htext]
  exact List.cons_ne_nil _ _

/-- The whole text. -/
theorem Scrap.text (entry : LogEntry) : Scrap entry (Utf8.encode entry.text) entry.text :=
  .front List.prefix_rfl (text_ne_nil entry)

/-- What follows a torn append begins with an ASCII byte. -/
theorem Scrap.asciiHead (h : Scrap entry p ds) (bs : List UInt8) : Utf8.AsciiHead (p ++ bs) := by
  have hfront : ∀ {cs : List Char} (rest : List UInt8), cs <+: entry.text → cs ≠ [] →
      Utf8.AsciiHead (Utf8.encode cs ++ rest) := by
    intro cs rest hcs hnil
    obtain ⟨cs', rfl⟩ := Json.exists_brace hcs hnil
    intro b hb
    obtain rfl : (0x7B : UInt8) = b := Option.some.inj hb
    decide
  cases h with
  | front hcs hnil => exact hfront bs hcs hnil
  | cut hcs hnil _ _ _ _ =>
      rw [List.append_assoc]
      exact hfront _ hcs hnil

/-- A torn append is the end of the file. -/
theorem Scrap.tail (h : Scrap entry p ds) : Tail p ds := by
  cases h with
  | front hcs hnil =>
      exact ⟨fun bs _ => Utf8.decode_encode_append _ bs, hnil,
        fun hmem => entry.oneLine (hcs.subset hmem)⟩
  | cut hcs hnil _ ht hcut htnil =>
      refine ⟨fun bs hbs => ?_, by simp, fun hmem => ?_⟩
      · rw [List.append_assoc, Utf8.decode_encode_append, Utf8.decode_torn ht hcut htnil hbs,
          List.append_assoc]
        rfl
      · rcases List.mem_append.mp hmem with hmem | hmem
        · exact entry.oneLine (hcs.subset hmem)
        · revert hmem
          decide

/-- An unfinished line goes on. -/
theorem Tail.append (ht : Tail t cs) (hp : Scrap entry p ds) : Tail (t ++ p) (cs ++ ds) := by
  refine ⟨fun bs hbs => ?_, fun hnil => ht.nonempty (List.append_eq_nil_iff.mp hnil).1,
    fun hmem => ?_⟩
  · rw [List.append_assoc, ht.decodes _ (hp.asciiHead bs), hp.tail.decodes bs hbs,
      List.append_assoc]
  · rcases List.mem_append.mp hmem with hmem | hmem
    · exact ht.oneLine hmem
    · exact hp.tail.oneLine hmem

/-- A scrap at the beginning of a line is the whole text, or it cannot be read. -/
theorem Scrap.whole_or_torn (h : Scrap entry p ds) :
    (p = Utf8.encode entry.text ∧ ds = entry.text) ∨ Json.Torn ds := by
  cases h with
  | front hcs hnil =>
      by_cases hwhole : ds = entry.text
      · exact Or.inl ⟨by rw [hwhole], hwhole⟩
      · exact Or.inr (Json.torn_front entry.plain hcs hnil hwhole)
  | cut hcs hnil hne _ _ _ =>
      exact Or.inr ((Json.torn_front entry.plain hcs hnil hne).append_char (by decide))

/-- A scrap behind a line that cannot be read. -/
theorem Scrap.behind_torn (h : Scrap entry p ds) (hcs : Json.Torn cs) : Json.Torn (cs ++ ds) := by
  obtain ⟨tail, htext⟩ := entry.exists_tail
  have hfront : ∀ {front : List Char}, front <+: entry.text → front ≠ [] →
      Json.Torn (cs ++ front) := fun hfront hnil =>
    Json.Torn.append_object entry.plain htext (by decide) hfront hnil hcs
  cases h with
  | front hds hnil => exact hfront hds hnil
  | cut hds hnil _ _ _ _ =>
      rw [← List.append_assoc]
      exact (hfront hds hnil).append_char (by decide)

/-- A scrap behind the text of another entry. -/
theorem Scrap.behind_text (h : Scrap entry p ds) (other : LogEntry) :
    Json.Torn (other.text ++ ds) := by
  cases h with
  | front hds hnil => exact Json.torn_behind other.plain hds hnil
  | cut hds hnil _ _ _ _ =>
      rw [← List.append_assoc]
      exact (Json.torn_behind other.plain hds hnil).append_char (by decide)

/-- A line is a text and a line break. -/
theorem encode_line (entry : LogEntry) :
    Utf8.encode (line entry) = Utf8.encode entry.text ++ Utf8.encode ['\n'] := by
  simp [line, Utf8.encode]

/-- **What a crash can leave of a line:** nothing, all of it, or a scrap of the text. -/
theorem exists_scrap (hp : p <+: Utf8.encode (line entry)) :
    p = [] ∨ p = Utf8.encode (line entry) ∨ ∃ ds, Scrap entry p ds := by
  rcases Utf8.prefix_encode hp with rfl | ⟨ds, c, rest, t, hline, rfl, ht, hcut⟩
  · exact Or.inr (Or.inl rfl)
  · have hsmall : String.utf8EncodeChar c = [c.toNat.toUInt8] → t = [] := by
      intro hone
      rw [hone] at ht hcut
      rcases List.prefix_cons_iff.mp ht with hnil | ⟨t', rfl, ht'⟩
      · exact hnil
      · exact (hcut (congrArg _ (List.prefix_nil.mp ht'))).elim
    rcases List.eq_nil_or_concat rest with rfl | ⟨rest', d, rfl⟩
    · -- the line break is missing
      have hends := List.append_inj' hline rfl
      obtain rfl : '\n' = c := (List.cons.inj hends.2).1
      obtain rfl := hsmall (by decide)
      rw [List.append_nil, ← hends.1]
      exact Or.inr (Or.inr ⟨_, .front List.prefix_rfl (text_ne_nil entry)⟩)
    · rw [List.concat_eq_append, ← List.cons_append, ← List.append_assoc] at hline
      have htext : entry.text = ds ++ c :: rest' := (List.append_inj' hline rfl).1
      by_cases hds : ds = []
      · obtain ⟨tail, htail⟩ := entry.exists_tail
        rw [htext, hds] at htail
        obtain rfl : c = '\x7b' := (List.cons.inj htail).1
        obtain rfl := hsmall (by decide)
        exact Or.inl (by rw [hds]; rfl)
      · have hprefix : ds <+: entry.text := ⟨_, htext.symm⟩
        by_cases htnil : t = []
        · rw [htnil, List.append_nil]
          exact Or.inr (Or.inr ⟨_, .front hprefix hds⟩)
        · refine Or.inr (Or.inr ⟨_, .cut hprefix hds ?_ ht hcut htnil⟩)
          intro heq
          rw [← heq] at htext
          simp at htext

/-! ## The lines of the file -/

/-- A text without breaks is one line. -/
theorem splitOn_oneLine (h : '\n' ∉ cs) : cs.splitOn '\n' = [cs] := by
  apply List.splitOnP_eq_singleton
  intro c hc
  rw [beq_eq_false_iff_ne]
  rintro rfl
  exact h hc

/-- The first line is split off. -/
theorem splitOn_break (h : '\n' ∉ cs) (rest : List Char) :
    (cs ++ '\n' :: rest).splitOn '\n' = cs :: rest.splitOn '\n' := by
  rw [List.splitOn_eq_splitOnP, List.splitOnP_append_cons cs rest (by decide),
    ← List.splitOn_eq_splitOnP, splitOn_oneLine h]
  rfl

/-- The lines of a file that begins with whole lines. -/
theorem lines_append (entries : List LogEntry) (rest : List UInt8) :
    lines (Utf8.encode (entries.flatMap line) ++ rest) =
      entries.map LogEntry.text ++ lines rest := by
  unfold lines
  rw [Utf8.decode_encode_append]
  induction entries with
  | nil => rfl
  | cons entry entries ih =>
      have hlength : 0 < entry.text.length := List.length_pos_of_ne_nil (text_ne_nil entry)
      have hline : ∀ cs, line entry ++ cs = entry.text ++ '\n' :: cs := fun cs =>
        List.append_assoc _ _ _
      rw [List.flatMap_cons, List.append_assoc, hline, splitOn_break entry.oneLine,
        List.filter_cons_of_pos, ih]
      · rfl
      · exact decide_eq_true hlength

/-- The end of the file is decoded. -/
theorem Tail.decode_eq (h : Tail t cs) : Utf8.decode t = cs := by
  have hbytes := h.decodes [] Utf8.asciiHead_nil
  rwa [List.append_nil, show Utf8.decode [] = [] from rfl, List.append_nil] at hbytes

/-- So it is with a line break behind it. -/
theorem Tail.decode_break (h : Tail t cs) :
    Utf8.decode (t ++ Utf8.encode ['\n']) = cs ++ ['\n'] := by
  have hascii : Utf8.AsciiHead (Utf8.encode ['\n']) := by
    intro b hb
    obtain rfl : (0x0A : UInt8) = b := Option.some.inj hb
    decide
  rw [h.decodes _ hascii, Utf8.decode_encode]

/-- It is not empty. -/
theorem Tail.length_pos (h : Tail t cs) : 0 < cs.length := List.length_pos_of_ne_nil h.nonempty

/-- It is one line. -/
theorem Tail.lines_eq (h : Tail t cs) : lines t = [cs] := by
  unfold lines
  rw [h.decode_eq, splitOn_oneLine h.oneLine]
  exact List.filter_cons_of_pos (decide_eq_true h.length_pos)

/-- It is one line with a break behind it too. -/
theorem Tail.lines_break (h : Tail t cs) : lines (t ++ Utf8.encode ['\n']) = [cs] := by
  unfold lines
  rw [h.decode_break, splitOn_break h.oneLine]
  exact List.filter_cons_of_pos (decide_eq_true h.length_pos)

variable {logPath : String}

/-- Lines of entries are read as these entries. -/
theorem loadLines_append (entries : List LogEntry) (i : ℕ) (rest : List (List Char)) :
    loadLines logPath i (entries.map LogEntry.text ++ rest) =
      (loadLines logPath (i + entries.length) rest).map (entries.map LogEntry.toJson ++ ·) := by
  induction entries generalizing i with
  | nil => exact (congrFun Except.map_id (loadLines logPath i rest)).symm
  | cons entry entries ih =>
      rw [List.map_cons, List.cons_append, loadLines, entry.parse_text]
      simp only
      rw [ih (i + 1), Nat.add_assoc, Nat.add_comm 1]
      cases loadLines logPath (i + (entries.length + 1)) rest <;> rfl

/-- Whole lines are read, then the rest. -/
theorem loadLog_append (entries : List LogEntry) (rest : List UInt8) :
    loadLog logPath (Utf8.encode (entries.flatMap line) ++ rest) =
      (loadLines logPath entries.length (lines rest)).map
        (entries.map LogEntry.toJson ++ ·) := by
  unfold loadLog
  rw [lines_append, loadLines_append, Nat.zero_add]

/-- A log that was written is read back. -/
theorem loadLog_rewriteLog (entries : List LogEntry) :
    loadLog logPath (rewriteLog entries) = .ok (entries.map LogEntry.toJson) := by
  have h : loadLog logPath (Utf8.encode (entries.flatMap line) ++ []) = _ :=
    loadLog_append entries []
  rw [List.append_nil] at h
  rw [rewriteLog, h]
  exact congrArg Except.ok (List.append_nil _)

/-- A last line that cannot be read is dropped. -/
theorem loadLog_torn (entries : List LogEntry) {rest : List UInt8} (hlines : lines rest = [cs])
    (htorn : Json.Torn cs) : loadLog logPath (Utf8.encode (entries.flatMap line) ++ rest) =
      .ok (entries.map LogEntry.toJson) := by
  have hlast : ∀ i, loadLines logPath i [cs] = .ok [] := by
    intro i
    rw [loadLines, htorn.parse_none]
    rfl
  rw [loadLog_append, hlines, hlast]
  exact congrArg Except.ok (List.append_nil _)

/-- The last line may lack its line break. -/
theorem loadLog_unfinished (entries : List LogEntry) (entry : LogEntry) :
    loadLog logPath (Utf8.encode (entries.flatMap line) ++ Utf8.encode entry.text) =
      .ok ((entries ++ [entry]).map LogEntry.toJson) := by
  have hlast : ∀ i, loadLines logPath i [entry.text] = .ok [entry.toJson] := by
    intro i
    rw [loadLines, entry.parse_text]
    rfl
  rw [loadLog_append, (Scrap.text entry).tail.lines_eq, hlast, List.map_append]
  rfl

/-- Behind an unfinished line no line begins. -/
theorem not_atLineStart (entries : List LogEntry) (h : Tail t cs) :
    ¬ atLineStart (rewriteLog entries ++ t) = true := by
  obtain ⟨front, c, hlast⟩ := (List.eq_nil_or_concat cs).resolve_left h.nonempty
  rw [List.concat_eq_append] at hlast
  have hc : c ≠ '\n' := by
    rintro rfl
    exact h.oneLine (by simp [hlast])
  unfold atLineStart
  rw [rewriteLog, Utf8.decode_encode_append, h.decode_eq, hlast, ← List.append_assoc,
    List.getLast?_concat]
  exact fun hend => hc (of_decide_eq_true hend)

/-- A line that is finished and cannot be read. -/
theorem not_wellFormed (entries : List LogEntry) (h : Tail t cs) (hcs : Json.Torn cs) :
    ¬ wellFormed (rewriteLog entries ++ (t ++ Utf8.encode ['\n'])) = true := by
  unfold wellFormed
  rw [rewriteLog, lines_append, h.lines_break, List.all_append, List.all_cons, hcs.parse_none]
  simp

/-- Behind a break a line starts. -/
theorem atLineStart_break (entries : List LogEntry) (h : Tail t cs) :
    atLineStart (rewriteLog entries ++ (t ++ Utf8.encode ['\n'])) = true := by
  unfold atLineStart
  rw [rewriteLog, Utf8.decode_encode_append, h.decode_break, ← List.append_assoc,
    List.getLast?_concat]
  rfl

/-- Entries are written at once or one by one. -/
theorem appendLog_rewriteLog (entries : List LogEntry) (entry : LogEntry) :
    appendLog (rewriteLog entries) entry = rewriteLog (entries ++ [entry]) := by
  simp [appendLog, rewriteLog, Utf8.encode]

end FilePersistence

/-! ## What the file is made of -/

open FilePersistence

/-- Attempts are made on files. -/
theorem Attempt.Shows.backend {attempts : List Attempt} {p : Persistence}
    (h : Attempt.Shows attempts p) : p.backend = .file := by
  induction h with
  | start => rfl
  | completed call _ ih => exact (Persistence.backend_run _ call).trans ih
  | kept call _ ih => exact (Persistence.backend_run _ call).trans ih
  | dropped _ _ ih => exact ih

/-- The whole lines that the calls have made, and what is behind them. -/
inductive Layout (attempts : List Attempt) : List UInt8 → Prop
  | finished {p : Persistence} (hp : Attempt.Shows attempts p) :
      Layout attempts (rewriteLog p.loadLog)
  /-- the text of an entry without its line break -/
  | whole {p : Persistence} (entry : LogEntry) (hp : Attempt.Shows attempts p)
      (hp' : Attempt.Shows attempts (p.run (.appendLog entry))) :
      Layout attempts (rewriteLog p.loadLog ++ Utf8.encode entry.text)
  /-- an unfinished line that cannot be read -/
  | torn {p : Persistence} {t : List UInt8} {cs : List Char} (hp : Attempt.Shows attempts p)
      (ht : Tail t cs) (hcs : Json.Torn cs) : Layout attempts (rewriteLog p.loadLog ++ t)
  /-- such a line, finished -/
  | spoiled {p : Persistence} {t : List UInt8} {cs : List Char}
      (hp : Attempt.Shows attempts p) (ht : Tail t cs) (hcs : Json.Torn cs) :
      Layout attempts (rewriteLog p.loadLog ++ (t ++ Utf8.encode ['\n']))

namespace Layout

variable {attempts attempts' : List Attempt} {file : List UInt8} {logPath : String}

/-- A laid-out file shows some outcome of its attempts. -/
theorem exists_shows (h : Layout attempts file) : ∃ p, Attempt.Shows attempts p := by
  cases h with
  | finished hp => exact ⟨_, hp⟩
  | whole entry hp _ => exact ⟨_, hp⟩
  | torn hp _ _ => exact ⟨_, hp⟩
  | spoiled hp _ _ => exact ⟨_, hp⟩

/-- **Loading such a file.** -/
theorem loads (h : Layout attempts file) : ∃ p, Attempt.Shows attempts p ∧
    loadLog logPath file = .ok (p.loadLog.map LogEntry.toJson) := by
  cases h with
  | finished hp => exact ⟨_, hp, loadLog_rewriteLog _⟩
  | whole entry hp hp' =>
      refine ⟨_, hp', ?_⟩
      rw [Persistence.run_appendLog hp.backend]
      exact loadLog_unfinished _ entry
  | torn hp ht hcs => exact ⟨_, hp, loadLog_torn _ ht.lines_eq hcs⟩
  | spoiled hp ht hcs => exact ⟨_, hp, loadLog_torn _ ht.lines_break hcs⟩

/-- The file stays, and a crashed call had no effect. -/
theorem drop (h : Layout attempts file) (call : PersistenceCall) :
    Layout (.crashed call :: attempts) file := by
  cases h with
  | finished hp => exact .finished (.dropped call hp)
  | whole entry hp hp' => exact .whole entry (.dropped call hp) (.dropped call hp')
  | torn hp ht hcs => exact .torn (.dropped call hp) ht hcs
  | spoiled hp ht hcs => exact .spoiled (.dropped call hp) ht hcs

/-- Where a line begins, behind lines that can all be read, all lines are whole. -/
theorem finished_of_spared (h : Layout attempts file) (hstart : atLineStart file = true)
    (hlines : wellFormed file = true) :
    ∃ p, Attempt.Shows attempts p ∧ file = rewriteLog p.loadLog := by
  cases h with
  | finished hp => exact ⟨_, hp, rfl⟩
  | whole entry hp hp' => exact (not_atLineStart _ (Scrap.text entry).tail hstart).elim
  | torn hp ht hcs => exact (not_atLineStart _ ht hstart).elim
  | spoiled hp ht hcs => exact (not_wellFormed _ ht hcs hlines).elim

/-- Bytes of a line behind an unfinished one make one line that cannot be read. -/
theorem join {p : Persistence} {entry : LogEntry} {t b : List UInt8} {cs : List Char}
    (hp : Attempt.Shows attempts p) (ht : Tail t cs)
    (hcs : ∀ {b ds}, Scrap entry b ds → Json.Torn (cs ++ ds))
    (hb : b = Utf8.encode (line entry) ∨ ∃ ds, Scrap entry b ds) :
    Layout attempts (rewriteLog p.loadLog ++ t ++ b) := by
  rcases hb with rfl | ⟨ds, hscrap⟩
  · have hspoiled := Layout.spoiled hp (ht.append (Scrap.text entry)) (hcs (Scrap.text entry))
    rwa [List.append_assoc, ← encode_line, ← List.append_assoc] at hspoiled
  · rw [List.append_assoc]
    exact .torn hp (ht.append hscrap) (hcs hscrap)

/-- **A crash inside `appendLog`.** -/
theorem crash (h : Layout attempts file) {entry : LogEntry} {written : ℕ}
    (hspares : written = 0 ∨ ¬ atLineStart file = true ∨ wellFormed file = true)
    (hsame : ∀ p, Attempt.Shows attempts p → Attempt.Shows attempts' p)
    (hkept : (Utf8.encode entry.text).length ≤ written → ∀ p, Attempt.Shows attempts p →
      Attempt.Shows attempts' (p.run (.appendLog entry)))
    (hfile : Layout attempts' file) : Layout attempts' (tornAppend file entry written) := by
  have hlength : (Utf8.encode (line entry)).length = (Utf8.encode entry.text).length + 1 := by
    rw [encode_line, List.length_append]
    rfl
  have hle : ∀ {b : List UInt8}, (Utf8.encode (line entry)).take written = b →
      (Utf8.encode entry.text).length ≤ b.length → (Utf8.encode entry.text).length ≤ written := by
    rintro b rfl hb
    rw [List.length_take] at hb
    omega
  unfold tornAppend
  rcases exists_scrap (List.take_prefix written (Utf8.encode (line entry))) with hnil | hb
  · rw [hnil, List.append_nil]
    exact hfile
  · have hwritten : ¬ atLineStart file = true ∨ wellFormed file = true := by
      refine hspares.resolve_left ?_
      rintro rfl
      rcases hb with hline | ⟨ds, hscrap⟩
      · rw [List.take_zero] at hline
        rw [← hline] at hlength
        cases hlength
      · have hempty := hscrap.tail.decode_eq
        exact hscrap.tail.nonempty (hempty.symm.trans rfl)
    cases h with
    | finished hp =>
        rcases hb with hline | ⟨ds, hscrap⟩
        · have hnext := Layout.finished (hkept (hle hline (by omega)) _ hp)
          rw [Persistence.run_appendLog hp.backend, ← appendLog_rewriteLog] at hnext
          rw [hline]
          exact hnext
        · rcases hscrap.whole_or_torn with ⟨hwhole, -⟩ | htorn
          · have hkept := hkept (hle hwhole le_rfl)
            rw [hwhole]
            exact .whole entry (hsame _ hp) (hkept _ hp)
          · exact .torn (hsame _ hp) hscrap.tail htorn
    | whole other hp hp' =>
        exact join (hsame _ hp) (Scrap.text other).tail (fun hscrap => hscrap.behind_text other) hb
    | torn hp ht hcs => exact join (hsame _ hp) ht (fun hscrap => hscrap.behind_torn hcs) hb
    | spoiled hp ht hcs =>
        rcases hwritten with hstart | hlines
        · exact (hstart (atLineStart_break _ ht)).elim
        · exact (not_wellFormed _ ht hcs hlines).elim

end Layout

/-! ## Runs -/

namespace Wal

variable {logPath : String} {w w' : Wal}

/-- The file is made of what the calls wrote, and the process holds what loading it gives. -/
structure Sound (logPath : String) (w : Wal) : Prop where
  layout : Layout w.attempts w.file
  loaded : ∀ entries, w.entries = some entries → loadLog logPath w.file = .ok entries

/-- Every event that spares the file leaves it sound. -/
theorem Sound.next {event : Event} (h : Sound logPath w) (hspares : w.Spares event)
    (hnext : w.next logPath event = some w') : Sound logPath w' := by
  cases event with
  | append entry =>
      obtain ⟨entries, hentries, rfl⟩ := Option.map_eq_some_iff.mp hnext
      obtain ⟨p, hp, hfile⟩ := h.layout.finished_of_spared hspares.1 hspares.2
      have hloaded : entries = p.loadLog.map LogEntry.toJson := by
        have hload := h.loaded entries hentries
        rw [hfile, loadLog_rewriteLog] at hload
        exact (Except.ok.inj hload).symm
      have hnow := Layout.finished (Attempt.Shows.completed (.appendLog entry) hp)
      rw [Persistence.run_appendLog hp.backend, ← appendLog_rewriteLog, ← hfile] at hnow
      refine ⟨hnow, fun entries' hentries' => ?_⟩
      obtain rfl := Option.some.inj hentries'
      rw [hfile, appendLog_rewriteLog, loadLog_rewriteLog, List.map_append, hloaded]
      rfl
  | rewrite entries =>
      obtain ⟨old, -, rfl⟩ := Option.map_eq_some_iff.mp hnext
      obtain ⟨p, hp⟩ := h.layout.exists_shows
      have hnow := Layout.finished (Attempt.Shows.completed (.rewriteLog entries) hp)
      rw [Persistence.run_rewriteLog hp.backend] at hnow
      refine ⟨hnow, fun entries' hentries' => ?_⟩
      obtain rfl := Option.some.inj hentries'
      exact loadLog_rewriteLog entries
  | crash entry written =>
      obtain ⟨entries, -, rfl⟩ := Option.map_eq_some_iff.mp hnext
      refine ⟨?_, nofun⟩
      have hcrash : ∀ attempts', (∀ p, Attempt.Shows w.attempts p → Attempt.Shows attempts' p) →
          ((Utf8.encode entry.text).length ≤ written → ∀ p, Attempt.Shows w.attempts p →
            Attempt.Shows attempts' (p.run (.appendLog entry))) →
          Layout attempts' w.file → Layout attempts' (tornAppend w.file entry written) :=
        fun _ hsame hkept hfile => h.layout.crash hspares hsame hkept hfile
      apply hcrash
      · intro p hp
        dsimp only
        split
        · exact .dropped _ hp
        · exact hp
      · intro hle p hp
        dsimp only
        rw [if_pos hle]
        exact .kept _ hp
      · dsimp only
        split
        · exact h.layout.drop _
        · exact h.layout
  | restart =>
      obtain rfl := Option.some.inj hnext
      refine ⟨h.layout, fun entries hentries => ?_⟩
      cases hload : loadLog logPath w.file with
      | ok loaded =>
          rw [hload] at hentries
          exact congrArg Except.ok (Option.some.inj hentries)
      | error message =>
          rw [hload] at hentries
          cases hentries

/-- **What a restart recovers.**  In every run in which appends spare the unfinished line, the
log can always be loaded, and shows the calls that were completed and any of those that crashed
behind the end of the text.  The process holds what a restart would load. -/
theorem recovered_log (h : Runs.Reach (next logPath) Spares fresh w) :
    w.Recovers logPath ∧
    ∀ entries, w.entries = some entries → loadLog logPath w.file = .ok entries := by
  have hsound : Sound logPath w := by
    refine h.invariant ⟨.finished .start, fun entries hentries => ?_⟩ ?_
    · cases hentries
    · intro w event w' hw hspares hnext
      exact hw.next hspares hnext
  exact ⟨hsound.layout.loads, hsound.loaded⟩

/-- A dot at an index of the log. -/
def dotEntry (index : ℕ) : LogEntry := ⟨index, 1, Stroke.dot "stroke" "board"⟩

/-- A process that begins with no file, crashes in its second append, and starts its log anew. -/
def mended : List Event := [.restart, .append (dotEntry 1), .crash (dotEntry 2) 1, .restart,
  .rewrite [dotEntry 1], .append (dotEntry 2)]

/-- The state after some events that can happen. -/
def after (es : List Event) : Wal := (Runs.exec (next "log.jsonl") fresh es).getD fresh

/-- The events run through. -/
theorem exec_after {es : List Event}
    (h : (Runs.exec (next "log.jsonl") fresh es).isSome = true) :
    Runs.exec (next "log.jsonl") fresh es = some (after es) := by
  obtain ⟨w, hw⟩ := Option.isSome_iff_exists.mp h
  unfold after
  rw [hw]
  rfl

/-- The log that was mended is read back. -/
theorem recovered_log_mended :
    (after mended).Recovers "log.jsonl" ∧ ∀ entries, (after mended).entries = some entries →
      loadLog "log.jsonl" (after mended).file = .ok entries := by
  have hexec : Runs.exec (next "log.jsonl") fresh mended = some (after mended) :=
    exec_after (by decide +kernel)
  exact recovered_log (Runs.Reach.of_exec hexec (by decide +kernel))

/-- The first append crashes, and the process goes on. -/
def joinedLines : List Event := [.restart, .crash (dotEntry 1) 1, .restart, .append (dotEntry 2)]

/-- **A completed append is lost:** it went on behind the byte that the crash had left.  After
one more append the log cannot be loaded any longer. -/
theorem completed_append_lost :
    (∃ w, Runs.exec (next "log.jsonl") fresh joinedLines = some w ∧
      w.attempts = [.completed (.appendLog (dotEntry 2))] ∧
      loadLog "log.jsonl" w.file = .ok [] ∧ ¬ w.Recovers "log.jsonl") ∧
    ∃ w, Runs.exec (next "log.jsonl") fresh (joinedLines ++ [.append (dotEntry 3)]) = some w ∧
      loadLog "log.jsonl" w.file = .error "corrupt WAL line 0 in log.jsonl" := by
  have hexec : Runs.exec (next "log.jsonl") fresh joinedLines = some (after joinedLines) :=
    exec_after (by decide +kernel)
  have hlater : Runs.exec (next "log.jsonl") fresh (joinedLines ++ [.append (dotEntry 3)]) =
      some (after (joinedLines ++ [.append (dotEntry 3)])) := exec_after (by decide +kernel)
  have hattempts : (after joinedLines).attempts = [.completed (.appendLog (dotEntry 2))] := by
    decide +kernel
  have hload : loadLog "log.jsonl" (after joinedLines).file = .ok [] := by
    have hlength : (loadLog "log.jsonl" (after joinedLines).file).map List.length = .ok 0 := by
      decide +kernel
    cases hfile : loadLog "log.jsonl" (after joinedLines).file with
    | ok entries =>
        rw [hfile] at hlength
        rw [List.length_eq_zero_iff.mp (Except.ok.inj hlength)]
    | error message =>
        rw [hfile] at hlength
        cases hlength
  refine ⟨⟨_, hexec, hattempts, hload, ?_⟩, _, hlater, ?_⟩
  · rintro ⟨p, hp, hrecovered⟩
    rw [hattempts] at hp
    rw [hload] at hrecovered
    cases hp with
    | completed _ hp =>
        rw [Persistence.run_appendLog hp.backend, List.map_append] at hrecovered
        have hnil := Except.ok.inj hrecovered
        simp at hnil
  · have hlength : (loadLog "log.jsonl" (after (joinedLines ++ [.append (dotEntry 3)])).file).map
        List.length = .error "corrupt WAL line 0 in log.jsonl" := by
      decide +kernel
    cases hfile : loadLog "log.jsonl" (after (joinedLines ++ [.append (dotEntry 3)])).file with
    | ok entries =>
        rw [hfile] at hlength
        cases hlength
    | error message =>
        rw [hfile] at hlength
        exact congrArg Except.error (Except.error.inj hlength)

end Wal

end QuorumCanvas
