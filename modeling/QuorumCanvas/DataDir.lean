import QuorumCanvas.Wire
import QuorumCanvas.Turns

/-!
# The data directory, byte by byte

`state.json` and `snapshot.json` are replaced as a whole: the data go into a temporary file,
which is then renamed.  The log is replaced in the same way or extended at its end.  A crash
leaves the files as the first of these steps have made them, wherever it comes.

What the constructor loads after a crash is what `Persistence` says, as long as appends spare an
unfinished line of the log (`loads_what_was_saved`): every completed call counts, and one that
crashed counts when its last step was done.  The crash of a cluster's replica is therefore the
crash of a process in the middle of its file operations (`crash_simulated`).
-/

namespace QuorumCanvas

open Json (stringify)

/-! ## Files -/

/-- A step of a file operation. -/
inductive FileStep
  /-- the temporary file is opened, and emptied if there is one -/
  | openTmp
  /-- one more byte of the temporary file -/
  | writeTmp (byte : UInt8)
  | rename
  /-- the file is opened at its end, and made if there is none -/
  | openEnd
  /-- one more byte of the file -/
  | append (byte : UInt8)

/-- A file, and the temporary file beside it. -/
structure Slot where
  file : Option (List UInt8)
  tmp : Option (List UInt8)

namespace Slot

/-- One system call, on a file and its temporary file. -/
def step (slot : Slot) : FileStep → Slot
  | .openTmp => { slot with tmp := some [] }
  | .writeTmp byte => { slot with tmp := slot.tmp.map (· ++ [byte]) }
  | .rename => ⟨slot.tmp <|> slot.file, none⟩
  | .openEnd => { slot with file := some (slot.file.getD []) }
  | .append byte => { slot with file := slot.file.map (· ++ [byte]) }

/-- Several, one after the other. -/
def exec (slot : Slot) (steps : List FileStep) : Slot := steps.foldl step slot

end Slot

namespace FilePersistence

/-- `atomicWrite` -/
def atomicWrite (data : List UInt8) : List FileStep :=
  .openTmp :: (data.map .writeTmp ++ [.rename])

/-- `appendLog`, on its file. -/
def appendSteps (data : List UInt8) : List FileStep := .openEnd :: data.map .append

/-- What a call writes. -/
def data : PersistenceCall → List UInt8
  | .saveState state => Utf8.encode (stringify state.toJson)
  | .appendLog entry => Utf8.encode (line entry)
  | .rewriteLog entries => rewriteLog entries
  | .saveSnapshot snapshot => Utf8.encode (stringify snapshot.toJson)

/-- The steps of a call. -/
def steps (call : PersistenceCall) : List FileStep :=
  match call with
  | .appendLog _ => appendSteps (data call)
  | .saveState _ | .rewriteLog _ | .saveSnapshot _ => atomicWrite (data call)

/-- The call has its effect once so many steps are done. -/
def lasting (call : PersistenceCall) (k : ℕ) : Bool :=
  match call with
  | .appendLog entry => (Utf8.encode entry.text).length < k
  | .saveState _ | .rewriteLog _ | .saveSnapshot _ => (steps call).length ≤ k

/-- `loadState`: none when the file is not readable. -/
def loadState (file : Option (List UInt8)) : Option PersistedState :=
  match file with
  | none => some ⟨0, none, 0⟩
  | some bytes => (Json.parse (Utf8.decode bytes)).bind PersistedState.ofJson

/-- `loadSnapshot`: none when the file is not readable. -/
def loadSnapshot (file : Option (List UInt8)) : Option (Option Snapshot) :=
  match file with
  | none => some none
  | some bytes => ((Json.parse (Utf8.decode bytes)).bind Snapshot.ofJson).map some

/-- The entries of `loadLog`. -/
def loadEntries (logPath : String) (file : Option (List UInt8)) : Option (List LogEntry) :=
  match loadLog logPath (file.getD []) with
  | .ok entries => Json.Value.readAll LogEntry.ofJson entries
  | .error _ => none

end FilePersistence

/-- The data directory of a replica. -/
structure DataDir where
  state : Slot
  log : Slot
  snapshot : Slot

namespace DataDir

open FilePersistence (steps)

/-- Nothing has been written yet. -/
def fresh : DataDir := ⟨⟨none, none⟩, ⟨none, none⟩, ⟨none, none⟩⟩

/-- The first `k` steps of a call. -/
def doing (d : DataDir) (call : PersistenceCall) (k : ℕ) : DataDir :=
  match call with
  | .saveState _ => { d with state := d.state.exec ((steps call).take k) }
  | .appendLog _ | .rewriteLog _ => { d with log := d.log.exec ((steps call).take k) }
  | .saveSnapshot _ => { d with snapshot := d.snapshot.exec ((steps call).take k) }

/-- A call that runs to its end. -/
def perform (d : DataDir) (call : PersistenceCall) : DataDir := d.doing call (steps call).length

/-- What the constructor loads; `none` when it throws. -/
def load (logPath : String) (d : DataDir) : Option Persistence := do
  let loadLog ← FilePersistence.loadEntries logPath d.log.file
  let loadSnapshot ← FilePersistence.loadSnapshot d.snapshot.file
  let loadState ← FilePersistence.loadState d.state.file
  return ⟨.file, loadState, loadLog, loadSnapshot⟩

end DataDir

/-- What is written of the files. -/
def Persistence.forget (p : Persistence) : Persistence :=
  { p with loadSnapshot := p.loadSnapshot.map Snapshot.forget }

/-- A directory, and whether a process has it open. -/
structure Home where
  dir : DataDir
  running : Bool
  /-- history variable: the calls made so far, the latest first -/
  attempts : List Attempt

namespace Home

open FilePersistence (lasting atLineStart wellFormed)

/-- An empty directory, and no process. -/
def fresh : Home := ⟨.fresh, false, []⟩

/-- A call that is done, one that is cut, or a restart. -/
inductive Event
  | call (call : PersistenceCall)
  /-- the process dies when `k` steps of a call are done -/
  | crash (call : PersistenceCall) (k : ℕ)
  | restart
  deriving DecidableEq

/-- One event; `none` when it cannot happen. -/
def next (logPath : String) (h : Home) : Event → Option Home
  | .call call =>
      if h.running then some ⟨h.dir.perform call, true, .completed call :: h.attempts⟩ else none
  | .crash call k =>
      if h.running then
        some ⟨h.dir.doing call k, false,
          if lasting call k then .crashed call :: h.attempts else h.attempts⟩
      else none
  | .restart => some { h with running := (h.dir.load logPath).isSome }

/-- Appends spare an unfinished line of the log, as `Wal.Spares` has it, and saved snapshots are
records. -/
def Spares (h : Home) : Event → Prop
  | .call (.appendLog _) =>
      atLineStart (h.dir.log.file.getD []) ∧ wellFormed (h.dir.log.file.getD [])
  | .crash (.appendLog _) k => k ≤ 1 ∨ ¬ atLineStart (h.dir.log.file.getD []) ∨
      wellFormed (h.dir.log.file.getD [])
  | .call (.saveSnapshot snapshot) | .crash (.saveSnapshot snapshot) _ => snapshot.IsRecord
  | .call (.saveState _) | .call (.rewriteLog _) | .crash (.saveState _) _
  | .crash (.rewriteLog _) _ | .restart => True

instance (h : Home) : (event : Event) → Decidable (h.Spares event)
  | .call (.appendLog _) => inferInstanceAs (Decidable (_ ∧ _))
  | .crash (.appendLog _) _ => inferInstanceAs (Decidable (_ ∨ _ ∨ _))
  | .call (.saveSnapshot snapshot) | .crash (.saveSnapshot snapshot) _ =>
      inferInstanceAs (Decidable (snapshot.boards.map Prod.fst).Nodup)
  | .call (.saveState _) | .call (.rewriteLog _) | .crash (.saveState _) _
  | .crash (.rewriteLog _) _ | .restart => .isTrue trivial

end Home

/-! ## Files after some steps -/

namespace Slot

variable {slot : Slot} {data : List UInt8}

/-- The bytes of a temporary file, by induction on them. -/
theorem exec_writeTmp (data : List UInt8) {front : List UInt8} (h : slot.tmp = some front) :
    slot.exec (data.map .writeTmp) = { slot with tmp := some (front ++ data) } := by
  induction data generalizing slot front with
  | nil =>
      rw [List.append_nil, ← h]
      rfl
  | cons byte data ih =>
      have hstep : (slot.step (.writeTmp byte)).tmp = some (front ++ [byte]) := by
        rw [step, h]
        rfl
      have hrest := ih hstep
      rw [List.append_assoc] at hrest
      exact hrest

/-- `atomicWrite` replaces the file. -/
theorem exec_atomicWrite (slot : Slot) (data : List UInt8) :
    slot.exec (FilePersistence.atomicWrite data) = ⟨some data, none⟩ := by
  have hopen : (slot.step .openTmp).tmp = some [] := rfl
  have hwrite := exec_writeTmp data hopen
  unfold FilePersistence.atomicWrite
  rw [exec, List.foldl_cons, List.foldl_append]
  unfold exec at hwrite
  rw [hwrite]
  rfl

/-- Before the last step of `atomicWrite` the file is untouched. -/
theorem file_exec_atomicWrite {k : ℕ} (hk : k < (FilePersistence.atomicWrite data).length) :
    (slot.exec ((FilePersistence.atomicWrite data).take k)).file = slot.file := by
  have hkept : ∀ (steps : List FileStep) (slot : Slot),
      (∀ s ∈ steps, s = .openTmp ∨ ∃ byte, s = .writeTmp byte) →
      (slot.exec steps).file = slot.file := by
    intro steps
    induction steps with
    | nil => exact fun _ _ => rfl
    | cons s steps ih =>
        intro slot hs
        rw [exec, List.foldl_cons]
        apply (ih _ fun s' hs' => hs s' (List.mem_cons_of_mem _ hs')).trans
        rcases hs s List.mem_cons_self with rfl | ⟨byte, rfl⟩ <;> rfl
  apply hkept
  intro s hs
  have hsplit : FilePersistence.atomicWrite data = (.openTmp :: data.map .writeTmp) ++ [.rename] :=
    rfl
  rw [hsplit, List.length_append, List.length_singleton] at hk
  rw [hsplit, List.take_append_of_le_length (by omega)] at hs
  rcases List.mem_cons.mp (List.mem_of_mem_take hs) with rfl | hmem
  · exact Or.inl rfl
  · obtain ⟨byte, -, rfl⟩ := List.mem_map.mp hmem
    exact Or.inr ⟨byte, rfl⟩

/-- The bytes of an append, by induction on them. -/
theorem exec_append (data : List UInt8) (front : List UInt8) (h : slot.file = some front) :
    (slot.exec (data.map .append)).file = some (front ++ data) := by
  induction data generalizing slot front with
  | nil =>
      rw [List.append_nil]
      exact h
  | cons byte data ih =>
      have hstep : (slot.step (.append byte)).file = some (front ++ [byte]) := by
        rw [step, h]
        rfl
      have hrest := ih _ hstep
      rw [List.append_assoc] at hrest
      exact hrest

/-- What an append has written after some steps. -/
theorem file_exec_append (slot : Slot) (data : List UInt8) (k : ℕ) :
    (slot.exec ((FilePersistence.appendSteps data).take k)).file.getD [] =
      slot.file.getD [] ++ data.take (k - 1) := by
  cases k with
  | zero => simp [exec]
  | succ k =>
      have hopen : (slot.step .openEnd).file = some (slot.file.getD []) := rfl
      have hwrite := exec_append (data.take k) _ hopen
      rw [FilePersistence.appendSteps, List.take_succ_cons, ← List.map_take, exec,
        List.foldl_cons]
      unfold exec at hwrite
      rw [hwrite]
      rfl

end Slot

/-! ## Loading what a call has written -/

namespace FilePersistence

/-- A state that was written is loaded. -/
theorem loadState_data (state : PersistedState) :
    loadState (some (data (.saveState state))) = some state := by
  have hplain : Json.Plain state.toJson := by
    obtain ⟨term, vote, index⟩ := state
    cases vote <;> simp [PersistedState.toJson, nullable, Json.Plain, Json.PlainMembers]
  have hparse : Json.parse (stringify state.toJson) = some state.toJson :=
    Json.parse_stringify hplain
  rw [loadState, data, Utf8.decode_encode, hparse]
  exact state.ofJson_toJson

/-- So is a snapshot. -/
theorem loadSnapshot_data {snapshot : Snapshot} (h : snapshot.IsRecord) :
    loadSnapshot (some (data (.saveSnapshot snapshot))) = some (some snapshot.forget) := by
  have hparse : Json.parse (stringify snapshot.toJson) = some snapshot.toJson :=
    Json.parse_stringify (Snapshot.plain_toJson h)
  rw [loadSnapshot, data, Utf8.decode_encode, hparse, Option.bind_some, snapshot.ofJson_toJson]
  rfl

/-- So are the entries of a log that reads. -/
theorem loadEntries_of_loadLog {logPath : String} {file : Option (List UInt8)}
    {entries : List LogEntry}
    (h : loadLog logPath (file.getD []) = .ok (entries.map LogEntry.toJson)) :
    loadEntries logPath file = some entries := by
  have hread := asArray_entries entries
  rw [loadEntries, h]
  exact hread

/-- A call that replaces a file does so with its last step. -/
theorem lasting_atomicWrite (call : PersistenceCall) (k : ℕ)
    (h : steps call = atomicWrite (data call))
    (hlast : lasting call k = decide ((steps call).length ≤ k))
    (slot : Slot) : (slot.exec ((steps call).take k)).file =
      if lasting call k then some (data call) else slot.file := by
  rw [hlast]
  by_cases hk : (steps call).length ≤ k
  · rw [List.take_of_length_le hk, h, Slot.exec_atomicWrite, if_pos (by simpa [h] using hk)]
  · rw [if_neg (by simpa using hk)]
    rw [h] at hk ⊢
    exact Slot.file_exec_atomicWrite (by omega)

end FilePersistence

/-! ## Files that calls have made -/

/-- A part of the files is what the calls have made it. -/
def Held {γ : Type} (part : Persistence → γ) (attempts : List Attempt) (x : γ) : Prop :=
  ∃ p, Attempt.Shows attempts p ∧ part p = x

/-- One more call, or none that has an effect. -/
inductive Attempt.Adds (call : PersistenceCall) (attempts : List Attempt) : List Attempt → Prop
  | completed : Adds call attempts (.completed call :: attempts)
  | crashed : Adds call attempts (.crashed call :: attempts)
  | none : Adds call attempts attempts

section Held

variable {γ : Type} {part : Persistence → γ} {attempts attempts' : List Attempt}
  {call : PersistenceCall} {x : γ}

/-- A call that does not concern this part. -/
theorem Held.keep (h : Held part attempts x) (hadds : Attempt.Adds call attempts attempts')
    (hpart : ∀ p : Persistence, p.backend = .file → part (p.run call) = part p) :
    Held part attempts' x := by
  obtain ⟨p, hp, rfl⟩ := h
  cases hadds with
  | completed => exact ⟨_, hp.completed call, hpart p hp.backend⟩
  | crashed => exact ⟨p, hp.dropped call, rfl⟩
  | none => exact ⟨p, hp, rfl⟩

/-- A call that has its effect. -/
theorem Held.set {y : γ} (h : Held part attempts x)
    (hadds : attempts' = .completed call :: attempts ∨ attempts' = .crashed call :: attempts)
    (hpart : ∀ p : Persistence, p.backend = .file → part (p.run call) = y) :
    Held part attempts' y := by
  obtain ⟨p, hp, -⟩ := h
  rcases hadds with rfl | rfl
  · exact ⟨_, hp.completed call, hpart p hp.backend⟩
  · exact ⟨_, hp.kept call, hpart p hp.backend⟩

/-- The log stays what it is when another file is saved. -/
theorem Layout.keep {file : List UInt8} (h : Layout attempts file)
    (hadds : Attempt.Adds call attempts attempts')
    (hcall : (∃ state, call = .saveState state) ∨ ∃ snapshot, call = .saveSnapshot snapshot) :
    Layout attempts' file := by
  cases hadds with
  | crashed => exact h.drop call
  | none => exact h
  | completed =>
      have hlog : ∀ p : Persistence, p.backend = .file → (p.run call).loadLog = p.loadLog := by
        intro p hp
        rcases hcall with ⟨state, rfl⟩ | ⟨snapshot, rfl⟩
        · rw [Persistence.run_saveState hp]
        · rw [Persistence.run_saveSnapshot hp]
      cases h with
      | finished hp =>
          rw [← hlog _ hp.backend]
          exact .finished (hp.completed call)
      | whole entry hp hp' =>
          have hswap : ∀ p : Persistence, p.backend = .file →
              (p.run (.appendLog entry)).run call = (p.run call).run (.appendLog entry) := by
            intro p hp
            rcases hcall with ⟨state, rfl⟩ | ⟨snapshot, rfl⟩ <;> simp [Persistence.run, hp]
          rw [← hlog _ hp.backend]
          apply Layout.whole entry (hp.completed call)
          rw [← hswap _ hp.backend]
          exact hp'.completed call
      | torn hp ht hcs =>
          rw [← hlog _ hp.backend]
          exact .torn (hp.completed call) ht hcs
      | spoiled hp ht hcs =>
          rw [← hlog _ hp.backend]
          exact .spoiled (hp.completed call) ht hcs

end Held

/-- Each file from other files. -/
def Persistence.mix (state log snapshot : Persistence) : Persistence :=
  ⟨.file, state.loadState, log.loadLog, snapshot.loadSnapshot⟩

/-- A call that was cut happened, or did not. -/
theorem Attempt.Shows.of_crashed {attempts : List Attempt} {call : PersistenceCall}
    {p : Persistence} (h : Attempt.Shows (.crashed call :: attempts) p) :
    ∃ p', Attempt.Shows attempts p' ∧ (p = p' ∨ p = p'.run call) := by
  cases h with
  | kept _ h => exact ⟨_, h, Or.inr rfl⟩
  | dropped _ h => exact ⟨_, h, Or.inl rfl⟩

/-- **The files are independent:** when each of them is what the calls have made it, they are so
together. -/
theorem Attempt.Shows.mix {attempts : List Attempt} {p q r : Persistence}
    (hp : Attempt.Shows attempts p) (hq : Attempt.Shows attempts q)
    (hr : Attempt.Shows attempts r) : Attempt.Shows attempts (p.mix q r) := by
  induction attempts generalizing p q r with
  | nil =>
      cases hp
      cases hq
      cases hr
      exact .start
  | cons attempt attempts ih =>
      cases attempt with
      | completed call =>
          cases hp with
          | completed _ hp =>
              cases hq with
              | completed _ hq =>
                  cases hr with
                  | completed _ hr =>
                      have hmix := (ih hp hq hr).completed call
                      cases call <;>
                        simpa [Persistence.mix, Persistence.run, hp.backend, hq.backend,
                          hr.backend] using hmix
      | crashed call =>
          obtain ⟨p', hp', hpc⟩ := hp.of_crashed
          obtain ⟨q', hq', hqc⟩ := hq.of_crashed
          obtain ⟨r', hr', hrc⟩ := hr.of_crashed
          have hmix := ih hp' hq' hr'
          -- only the file that the call is about says whether it was kept
          have hsame : ∀ {γ : Type} (part : Persistence → γ) {f f' : Persistence},
              part (f'.run call) = part f' → f = f' ∨ f = f'.run call → part f = part f' := by
            rintro γ part f f' hpart (rfl | rfl)
            · rfl
            · exact hpart
          cases call with
          | saveState state =>
              have hlog : q.loadLog = q'.loadLog :=
                hsame _ (by rw [Persistence.run_saveState hq'.backend]) hqc
              have hsnapshot : r.loadSnapshot = r'.loadSnapshot :=
                hsame _ (by rw [Persistence.run_saveState hr'.backend]) hrc
              rcases hpc with rfl | rfl
              · simpa [Persistence.mix, hlog, hsnapshot] using hmix.dropped (.saveState state)
              · simpa [Persistence.mix, Persistence.run, hp'.backend, hlog, hsnapshot]
                  using hmix.kept (.saveState state)
          | appendLog entry =>
              have hstate : p.loadState = p'.loadState :=
                hsame _ (by rw [Persistence.run_appendLog hp'.backend]) hpc
              have hsnapshot : r.loadSnapshot = r'.loadSnapshot :=
                hsame _ (by rw [Persistence.run_appendLog hr'.backend]) hrc
              rcases hqc with rfl | rfl
              · simpa [Persistence.mix, hstate, hsnapshot] using hmix.dropped (.appendLog entry)
              · simpa [Persistence.mix, Persistence.run, hq'.backend, hstate, hsnapshot]
                  using hmix.kept (.appendLog entry)
          | rewriteLog entries =>
              have hstate : p.loadState = p'.loadState :=
                hsame _ (by rw [Persistence.run_rewriteLog hp'.backend]) hpc
              have hsnapshot : r.loadSnapshot = r'.loadSnapshot :=
                hsame _ (by rw [Persistence.run_rewriteLog hr'.backend]) hrc
              rcases hqc with rfl | rfl
              · simpa [Persistence.mix, hstate, hsnapshot] using hmix.dropped (.rewriteLog entries)
              · simpa [Persistence.mix, Persistence.run, hq'.backend, hstate, hsnapshot]
                  using hmix.kept (.rewriteLog entries)
          | saveSnapshot snapshot =>
              have hstate : p.loadState = p'.loadState :=
                hsame _ (by rw [Persistence.run_saveSnapshot hp'.backend]) hpc
              have hlog : q.loadLog = q'.loadLog :=
                hsame _ (by rw [Persistence.run_saveSnapshot hq'.backend]) hqc
              rcases hrc with rfl | rfl
              · simpa [Persistence.mix, hstate, hlog] using hmix.dropped (.saveSnapshot snapshot)
              · simpa [Persistence.mix, Persistence.run, hr'.backend, hstate, hlog]
                  using hmix.kept (.saveSnapshot snapshot)

/-! ## Runs -/

open FilePersistence

namespace Home

variable {logPath : String} {w w' : Home}

/-- Every file is made of what the calls wrote. -/
structure Sound (h : Home) : Prop where
  log : Layout h.attempts (h.dir.log.file.getD [])
  state : ∃ x, loadState h.dir.state.file = some x ∧ Held Persistence.loadState h.attempts x
  snapshot : ∃ x : Option Snapshot,
    loadSnapshot h.dir.snapshot.file = some (x.map Snapshot.forget) ∧
      Held Persistence.loadSnapshot h.attempts x

/-- What becomes of the attempts when the first `k` steps of a call are done. -/
def Marks (call : PersistenceCall) (k : ℕ) (attempts attempts' : List Attempt) : Prop :=
  (lasting call k = true ∧
    (attempts' = .completed call :: attempts ∨ attempts' = .crashed call :: attempts)) ∨
  (lasting call k = false ∧ attempts' = attempts)

/-- What is noted of a call is that it was tried. -/
theorem Marks.adds {call : PersistenceCall} {k : ℕ} {attempts attempts' : List Attempt}
    (h : Marks call k attempts attempts') : Attempt.Adds call attempts attempts' := by
  rcases h with ⟨-, rfl | rfl⟩ | ⟨-, rfl⟩
  · exact .completed
  · exact .crashed
  · exact .none

/-- A crash after the step that lasts is noted as a call. -/
theorem marks_crash (call : PersistenceCall) (k : ℕ) (attempts : List Attempt) :
    Marks call k attempts (if lasting call k then .crashed call :: attempts else attempts) := by
  by_cases hlast : lasting call k = true
  · rw [if_pos hlast]
    exact Or.inl ⟨hlast, Or.inr rfl⟩
  · rw [if_neg hlast]
    exact Or.inr ⟨Bool.eq_false_iff.mpr hlast, rfl⟩

/-- A call that is done lasts. -/
theorem lasting_length (call : PersistenceCall) : lasting call (steps call).length = true := by
  cases call with
  | appendLog entry =>
      have hdata : (data (.appendLog entry)).length = (Utf8.encode entry.text).length + 1 := by
        rw [data, encode_line, List.length_append]
        rfl
      have hlength : (steps (.appendLog entry)).length = (data (.appendLog entry)).length + 1 := by
        simp [steps, appendSteps]
      exact decide_eq_true (by omega)
  | _ => exact decide_eq_true (Nat.le_refl _)

section Doing

variable {d : DataDir} {running running' : Bool} {k : ℕ} {attempts attempts' : List Attempt}

/-- Saving the state, cut anywhere. -/
theorem Sound.saveState (h : Sound ⟨d, running, attempts⟩) {state : PersistedState}
    (hmarks : Marks (.saveState state) k attempts attempts') :
    Sound ⟨d.doing (.saveState state) k, running', attempts'⟩ := by
  have hfile := lasting_atomicWrite (.saveState state) k rfl rfl d.state
  obtain ⟨x, hx, hheld⟩ := h.state
  obtain ⟨y, hy, hsnapshot⟩ := h.snapshot
  refine ⟨h.log.keep hmarks.adds (Or.inl ⟨_, rfl⟩), ?_, y, hy, ?_⟩
  · rcases hmarks with ⟨hlast, hadds⟩ | ⟨hlast, rfl⟩
    · refine ⟨state, ?_, hheld.set hadds fun p hp => by rw [Persistence.run_saveState hp]⟩
      rw [hlast, if_pos rfl] at hfile
      have hload := loadState_data state
      rwa [← hfile] at hload
    · refine ⟨x, ?_, hheld⟩
      rw [hlast, if_neg Bool.false_ne_true] at hfile
      rwa [← hfile] at hx
  · exact hsnapshot.keep hmarks.adds fun p hp => by rw [Persistence.run_saveState hp]

/-- Saving a snapshot, cut anywhere. -/
theorem Sound.saveSnapshot (h : Sound ⟨d, running, attempts⟩) {snapshot : Snapshot}
    (hrecord : snapshot.IsRecord) (hmarks : Marks (.saveSnapshot snapshot) k attempts attempts') :
    Sound ⟨d.doing (.saveSnapshot snapshot) k, running', attempts'⟩ := by
  have hfile := lasting_atomicWrite (.saveSnapshot snapshot) k rfl rfl d.snapshot
  obtain ⟨x, hx, hstate⟩ := h.state
  obtain ⟨y, hy, hheld⟩ := h.snapshot
  refine ⟨h.log.keep hmarks.adds (Or.inr ⟨_, rfl⟩), ⟨x, hx, ?_⟩, ?_⟩
  · exact hstate.keep hmarks.adds fun p hp => by rw [Persistence.run_saveSnapshot hp]
  · rcases hmarks with ⟨hlast, hadds⟩ | ⟨hlast, rfl⟩
    · refine ⟨some snapshot, ?_,
        hheld.set hadds fun p hp => by rw [Persistence.run_saveSnapshot hp]⟩
      rw [hlast, if_pos rfl] at hfile
      have hload := loadSnapshot_data hrecord
      rwa [← hfile] at hload
    · refine ⟨y, ?_, hheld⟩
      rw [hlast, if_neg Bool.false_ne_true] at hfile
      rwa [← hfile] at hy

/-- The other files when the log is written. -/
theorem Sound.writeLog (h : Sound ⟨d, running, attempts⟩) {call : PersistenceCall}
    (hmarks : Marks call k attempts attempts') (hcall : (∃ entry, call = .appendLog entry) ∨
      ∃ entries, call = .rewriteLog entries)
    (hlog : Layout attempts' ((d.doing call k).log.file.getD [])) :
    Sound ⟨d.doing call k, running', attempts'⟩ := by
  obtain ⟨x, hx, hstate⟩ := h.state
  obtain ⟨y, hy, hsnapshot⟩ := h.snapshot
  have hstate' := hstate.keep hmarks.adds fun p hp => by
    rcases hcall with ⟨entry, rfl⟩ | ⟨entries, rfl⟩
    · rw [Persistence.run_appendLog hp]
    · rw [Persistence.run_rewriteLog hp]
  have hsnapshot' := hsnapshot.keep hmarks.adds fun p hp => by
    rcases hcall with ⟨entry, rfl⟩ | ⟨entries, rfl⟩
    · rw [Persistence.run_appendLog hp]
    · rw [Persistence.run_rewriteLog hp]
  rcases hcall with ⟨entry, rfl⟩ | ⟨entries, rfl⟩
  · exact ⟨hlog, ⟨x, hx, hstate'⟩, y, hy, hsnapshot'⟩
  · exact ⟨hlog, ⟨x, hx, hstate'⟩, y, hy, hsnapshot'⟩

/-- Rewriting the log, cut anywhere. -/
theorem Sound.rewriteLog (h : Sound ⟨d, running, attempts⟩) {entries : List LogEntry}
    (hmarks : Marks (.rewriteLog entries) k attempts attempts') :
    Sound ⟨d.doing (.rewriteLog entries) k, running', attempts'⟩ := by
  have hfile := lasting_atomicWrite (.rewriteLog entries) k rfl rfl d.log
  apply h.writeLog hmarks (Or.inr ⟨_, rfl⟩)
  have hlog : (d.doing (.rewriteLog entries) k).log =
    d.log.exec ((steps (.rewriteLog entries)).take k) := rfl
  rw [hlog, hfile]
  rcases hmarks with ⟨hlast, hadds⟩ | ⟨hlast, rfl⟩
  · obtain ⟨p, hp⟩ := h.log.exists_shows
    rw [hlast, if_pos rfl, Option.getD_some]
    have hlog : (p.run (.rewriteLog entries)).loadLog = entries := by
      rw [Persistence.run_rewriteLog hp.backend]
    have hdata : data (.rewriteLog entries) =
        FilePersistence.rewriteLog (p.run (.rewriteLog entries)).loadLog := by
      rw [hlog]
      rfl
    rw [hdata]
    rcases hadds with rfl | rfl
    · exact .finished (hp.completed _)
    · exact .finished (hp.kept _)
  · rw [hlast, if_neg Bool.false_ne_true]
    exact h.log

/-- A complete append behind whole lines. -/
theorem Sound.appendLog (h : Sound ⟨d, running, attempts⟩) {entry : LogEntry}
    (hstart : atLineStart (d.log.file.getD []) = true)
    (hlines : wellFormed (d.log.file.getD []) = true) :
    Sound ⟨d.perform (.appendLog entry), running', .completed (.appendLog entry) :: attempts⟩ := by
  have hmarks : Marks (.appendLog entry) (steps (.appendLog entry)).length attempts
      (.completed (.appendLog entry) :: attempts) := Or.inl ⟨lasting_length _, Or.inl rfl⟩
  apply h.writeLog hmarks (Or.inl ⟨_, rfl⟩)
  have hfile := Slot.file_exec_append d.log (data (.appendLog entry))
    (steps (.appendLog entry)).length
  have hwhole : (data (.appendLog entry)).take ((steps (.appendLog entry)).length - 1) =
      data (.appendLog entry) := by
    apply List.take_of_length_le
    simp [steps, appendSteps]
  rw [hwhole] at hfile
  obtain ⟨p, hp, hold⟩ := h.log.finished_of_spared hstart hlines
  have hnow := Layout.finished (Attempt.Shows.completed (.appendLog entry) hp)
  rw [Persistence.run_appendLog hp.backend, ← appendLog_rewriteLog] at hnow
  have hnew : (d.perform (.appendLog entry)).log.file.getD [] =
      FilePersistence.appendLog (FilePersistence.rewriteLog p.loadLog) entry := by
    rw [← hold]
    exact hfile
  have hlog : (d.doing (.appendLog entry) (steps (.appendLog entry)).length).log.file.getD [] =
    (d.perform (.appendLog entry)).log.file.getD [] := rfl
  rw [hlog, hnew]
  exact hnow

/-- An append that crashes. -/
theorem Sound.tornAppend (h : Sound ⟨d, running, attempts⟩) {entry : LogEntry}
    (hspares : k ≤ 1 ∨ ¬ atLineStart (d.log.file.getD []) = true ∨
      wellFormed (d.log.file.getD []) = true) :
    Sound ⟨d.doing (.appendLog entry) k, running',
      if lasting (.appendLog entry) k then .crashed (.appendLog entry) :: attempts
      else attempts⟩ := by
  apply h.writeLog (marks_crash _ k attempts) (Or.inl ⟨_, rfl⟩)
  have hfile := Slot.file_exec_append d.log (data (.appendLog entry)) k
  have hlog : (d.doing (.appendLog entry) k).log =
    d.log.exec ((appendSteps (data (.appendLog entry))).take k) := rfl
  rw [hlog, hfile]
  have hspares' : k - 1 = 0 ∨ ¬ atLineStart (d.log.file.getD []) = true ∨
      wellFormed (d.log.file.getD []) = true := by
    apply hspares.imp_left
    omega
  apply h.log.crash hspares'
  · intro p hp
    split
    · exact .dropped _ hp
    · exact hp
  · intro hle p hp
    have hpos : 0 < (Utf8.encode entry.text).length := by
      obtain ⟨tail, htext⟩ := entry.exists_tail
      rw [htext, Utf8.encode_cons, List.length_append, String.length_utf8EncodeChar]
      have hsize := Char.utf8Size_pos '\x7b'
      omega
    have hlast : lasting (.appendLog entry) k = true := decide_eq_true (by omega)
    rw [if_pos hlast]
    exact .kept _ hp
  · split
    · exact h.log.drop _
    · exact h.log

end Doing

/-- **The invariant step.** -/
theorem Sound.next (h : Sound w) {event : Event} (hspares : w.Spares event)
    (hnext : w.next logPath event = some w') : Sound w' := by
  obtain ⟨d, running, attempts⟩ := w
  cases event with
  | call call =>
      obtain ⟨-, hnext⟩ := Option.ite_none_right_eq_some.mp hnext
      obtain rfl := Option.some.inj hnext
      have hmarks : Marks call (steps call).length attempts (.completed call :: attempts) :=
        Or.inl ⟨lasting_length call, Or.inl rfl⟩
      cases call with
      | saveState state => exact h.saveState hmarks
      | appendLog entry => exact h.appendLog hspares.1 hspares.2
      | rewriteLog entries => exact h.rewriteLog hmarks
      | saveSnapshot snapshot => exact h.saveSnapshot hspares hmarks
  | crash call k =>
      obtain ⟨-, hnext⟩ := Option.ite_none_right_eq_some.mp hnext
      obtain rfl := Option.some.inj hnext
      have hmarks := marks_crash call k attempts
      cases call with
      | saveState state => exact h.saveState hmarks
      | appendLog entry => exact h.tornAppend hspares
      | rewriteLog entries => exact h.rewriteLog hmarks
      | saveSnapshot snapshot => exact h.saveSnapshot hspares hmarks
  | restart =>
      obtain rfl := Option.some.inj hnext
      exact ⟨h.log, h.state, h.snapshot⟩

/-- An empty directory shows no calls. -/
theorem sound_fresh : Sound fresh where
  log := .finished .start
  state := ⟨_, rfl, _, .start, rfl⟩
  snapshot := ⟨none, rfl, _, .start, rfl⟩

/-- Sound files are loaded as what the calls have made them. -/
theorem Sound.loads (h : Sound w) (logPath : String) :
    ∃ p, Attempt.Shows w.attempts p ∧ w.dir.load logPath = some p.forget := by
  obtain ⟨x, hx, p, hp, rfl⟩ := h.state
  obtain ⟨y, hy, r, hr, rfl⟩ := h.snapshot
  obtain ⟨q, hq, hlog⟩ : ∃ q, Attempt.Shows w.attempts q ∧
      loadLog logPath (w.dir.log.file.getD []) = .ok (q.loadLog.map LogEntry.toJson) :=
    h.log.loads
  refine ⟨p.mix q r, hp.mix hq hr, ?_⟩
  rw [DataDir.load, loadEntries_of_loadLog hlog, hy, hx]
  rfl

/-- **What was saved is loaded.**  In every run in which appends spare an unfinished line of the
log, with crashes between any two steps of a call, the directory can always be loaded, and all
its files are those that the completed calls, and some of the crashed ones, have made. -/
theorem loads_what_was_saved (h : Runs.Reach (next logPath) Spares fresh w) :
    ∃ p, Attempt.Shows w.attempts p ∧ w.dir.load logPath = some p.forget := by
  have hsound : Sound w := by
    apply h.invariant sound_fresh
    intro w event w' hw hspares hnext
    exact hw.next hspares hnext
  exact hsound.loads logPath

/-- A dot at an index of the log, and the snapshot that covers it. -/
def dotSnapshot (index : ℕ) : Snapshot :=
  ⟨index, 1, [("board", [Stroke.dot "stroke" "board"])], [(index, Wal.dotEntry index)]⟩

/-- A term is saved, the second append and the first snapshot crash, and the log is compacted
after the second. -/
def compacted : List Event := [.restart, .call (.saveState ⟨1, some "a", 0⟩),
  .call (.appendLog (Wal.dotEntry 1)), .crash (.appendLog (Wal.dotEntry 2)) 2, .restart,
  .crash (.saveSnapshot (dotSnapshot 1)) 9, .restart, .call (.saveSnapshot (dotSnapshot 1)),
  .call (.rewriteLog []), .call (.appendLog (Wal.dotEntry 2))]

/-- A compacted log, loaded after a crash. -/
theorem loads_what_was_saved_compacted :
    ∃ w, Runs.exec (next "log.jsonl") fresh compacted = some w ∧
      ∃ p, Attempt.Shows w.attempts p ∧ w.dir.load "log.jsonl" = some p.forget := by
  have hexec : (Runs.exec (next "log.jsonl") fresh compacted).isSome = true := by decide +kernel
  obtain ⟨w, hw⟩ := Option.isSome_iff_exists.mp hexec
  exact ⟨w, hw, loads_what_was_saved (Runs.Reach.of_exec hw (by decide +kernel))⟩

end Home

/-! ## A crash in the middle of a turn -/

namespace DataDir

variable {d : DataDir} {p : Persistence} {logPath : String}

/-- The files are exactly these. -/
structure Holds (d : DataDir) (p : Persistence) : Prop where
  backend : p.backend = .file
  log : d.log.file.getD [] = rewriteLog p.loadLog
  state : loadState d.state.file = some p.loadState
  snapshot : loadSnapshot d.snapshot.file = some (p.loadSnapshot.map Snapshot.forget)

/-- An empty directory holds nothing. -/
theorem holds_fresh : Holds fresh (.fresh .file) := ⟨rfl, rfl, rfl, rfl⟩

/-- What a directory holds is loaded. -/
theorem Holds.load (h : d.Holds p) (logPath : String) : d.load logPath = some p.forget := by
  have hlog : loadLog logPath (d.log.file.getD []) = .ok (p.loadLog.map LogEntry.toJson) := by
    rw [h.log]
    exact loadLog_rewriteLog p.loadLog
  have hbackend := h.backend
  rw [DataDir.load, loadEntries_of_loadLog hlog, h.snapshot, h.state]
  obtain ⟨backend, state, log, snapshot⟩ := p
  obtain rfl : backend = .file := hbackend
  rfl

/-- A saved snapshot is a record. -/
def SavesRecord (call : PersistenceCall) : Prop :=
  ∀ snapshot, call = .saveSnapshot snapshot → snapshot.IsRecord

/-- A call that replaces a file. -/
theorem Holds.replace (h : d.Holds p) {call : PersistenceCall} (hrecord : SavesRecord call)
    (hcall : ∀ entry, call ≠ .appendLog entry) (k : ℕ) :
    (d.doing call k).Holds (if lasting call k then p.run call else p) := by
  have hbackend := h.backend
  by_cases hlast : lasting call k = true
  · rw [if_pos hlast]
    cases call with
    | appendLog entry => exact (hcall entry rfl).elim
    | saveState state =>
        have hfile := lasting_atomicWrite (.saveState state) k rfl rfl d.state
        rw [if_pos hlast] at hfile
        rw [Persistence.run_saveState hbackend]
        refine ⟨hbackend, h.log, ?_, h.snapshot⟩
        exact (congrArg loadState hfile).trans (loadState_data state)
    | rewriteLog entries =>
        have hfile := lasting_atomicWrite (.rewriteLog entries) k rfl rfl d.log
        rw [if_pos hlast] at hfile
        rw [Persistence.run_rewriteLog hbackend]
        refine ⟨hbackend, ?_, h.state, h.snapshot⟩
        exact congrArg (Option.getD · []) hfile
    | saveSnapshot snapshot =>
        have hfile := lasting_atomicWrite (.saveSnapshot snapshot) k rfl rfl d.snapshot
        rw [if_pos hlast] at hfile
        rw [Persistence.run_saveSnapshot hbackend]
        refine ⟨hbackend, h.log, h.state, ?_⟩
        exact (congrArg loadSnapshot hfile).trans (loadSnapshot_data (hrecord snapshot rfl))
  · rw [if_neg hlast]
    cases call with
    | appendLog entry => exact (hcall entry rfl).elim
    | saveState state =>
        have hfile := lasting_atomicWrite (.saveState state) k rfl rfl d.state
        rw [if_neg hlast] at hfile
        exact ⟨hbackend, h.log, (congrArg loadState hfile).trans h.state, h.snapshot⟩
    | rewriteLog entries =>
        have hfile := lasting_atomicWrite (.rewriteLog entries) k rfl rfl d.log
        rw [if_neg hlast] at hfile
        exact ⟨hbackend, (congrArg (Option.getD · []) hfile).trans h.log, h.state, h.snapshot⟩
    | saveSnapshot snapshot =>
        have hfile := lasting_atomicWrite (.saveSnapshot snapshot) k rfl rfl d.snapshot
        rw [if_neg hlast] at hfile
        exact ⟨hbackend, h.log, h.state, (congrArg loadSnapshot hfile).trans h.snapshot⟩

/-- The log when an append has done some of its steps. -/
theorem Holds.log_doing (h : d.Holds p) (entry : LogEntry) (k : ℕ) :
    (d.doing (.appendLog entry) k).log.file.getD [] =
      FilePersistence.tornAppend (rewriteLog p.loadLog) entry (k - 1) := by
  have hfile := Slot.file_exec_append d.log (data (.appendLog entry)) k
  rw [h.log] at hfile
  exact hfile

/-- An append that was written whole is not torn. -/
theorem tornAppend_whole (file : List UInt8) {entry : LogEntry} {written : ℕ}
    (h : (Utf8.encode (line entry)).length ≤ written) :
    FilePersistence.tornAppend file entry written = FilePersistence.appendLog file entry := by
  unfold FilePersistence.tornAppend FilePersistence.appendLog
  rw [List.take_of_length_le h]

/-- A call that runs to its end. -/
theorem Holds.perform (h : d.Holds p) {call : PersistenceCall} (hrecord : SavesRecord call) :
    (d.perform call).Holds (p.run call) := by
  by_cases happend : ∃ entry, call = .appendLog entry
  · obtain ⟨entry, rfl⟩ := happend
    have hlog := h.log_doing entry (steps (.appendLog entry)).length
    rw [tornAppend_whole _ (by simp [steps, appendSteps, data]), appendLog_rewriteLog] at hlog
    rw [Persistence.run_appendLog h.backend]
    exact ⟨h.backend, hlog, h.state, h.snapshot⟩
  · have hnow := h.replace hrecord (fun entry heq => happend ⟨entry, heq⟩) (steps call).length
    rwa [if_pos (Home.lasting_length call)] at hnow

/-- Calls that run to their ends. -/
theorem Holds.performAll (h : d.Holds p) {calls : List PersistenceCall}
    (hrecords : ∀ call ∈ calls, SavesRecord call) :
    (calls.foldl DataDir.perform d).Holds (p.replay calls) := by
  induction calls generalizing d p with
  | nil => exact h
  | cons call calls ih =>
      apply ih (h.perform (hrecords call List.mem_cons_self))
      intro call' hcall'
      exact hrecords call' (List.mem_cons_of_mem _ hcall')

/-- **A crash in a call** leaves the files as they were, or as the call makes them. -/
theorem Holds.crash (h : d.Holds p) {call : PersistenceCall} (hrecord : SavesRecord call)
    (k : ℕ) (logPath : String) : (d.doing call k).load logPath = some p.forget ∨
      (d.doing call k).load logPath = some (p.run call).forget := by
  by_cases happend : ∃ entry, call = .appendLog entry
  · obtain ⟨entry, rfl⟩ := happend
    have hlog := h.log_doing entry k
    have hload : ∀ entries : List LogEntry, loadLog logPath
          (FilePersistence.tornAppend (rewriteLog p.loadLog) entry (k - 1)) =
            .ok (entries.map LogEntry.toJson) →
        (d.doing (.appendLog entry) k).load logPath =
          some { p with loadLog := entries }.forget := by
      intro entries hentries
      rw [← hlog] at hentries
      have hstate : loadState (d.doing (.appendLog entry) k).state.file = some p.loadState :=
        h.state
      have hsnapshot : loadSnapshot (d.doing (.appendLog entry) k).snapshot.file =
        some (p.loadSnapshot.map Snapshot.forget) := h.snapshot
      have hbackend := h.backend
      rw [DataDir.load, loadEntries_of_loadLog hentries, hsnapshot, hstate]
      obtain ⟨backend, state, log, snapshot⟩ := p
      obtain rfl : backend = .file := hbackend
      rfl
    rw [Persistence.run_appendLog h.backend]
    rcases exists_scrap (List.take_prefix (k - 1) (Utf8.encode (line entry))) with
      hnil | hwhole | ⟨ds, hscrap⟩
    · left
      apply hload p.loadLog
      rw [FilePersistence.tornAppend, hnil, List.append_nil]
      exact loadLog_rewriteLog _
    · right
      apply hload
      rw [FilePersistence.tornAppend, hwhole]
      have hnow : loadLog logPath (FilePersistence.rewriteLog (p.loadLog ++ [entry])) = _ :=
        loadLog_rewriteLog (p.loadLog ++ [entry])
      rw [← appendLog_rewriteLog] at hnow
      exact hnow
    · rcases hscrap.whole_or_torn with ⟨htext, -⟩ | htorn
      · right
        apply hload
        rw [FilePersistence.tornAppend, htext]
        exact loadLog_unfinished _ entry
      · left
        apply hload
        rw [FilePersistence.tornAppend]
        exact loadLog_torn _ hscrap.tail.lines_eq htorn
  · have hnow := h.replace hrecord (fun entry heq => happend ⟨entry, heq⟩) k
    split at hnow
    · exact Or.inr (hnow.load logPath)
    · exact Or.inl (hnow.load logPath)

end DataDir

/-- The snapshots that a turn saves are records. -/
theorem savesRecord_of_files {p : Persistence} {calls : List PersistenceCall}
    (hbackend : p.backend = .file)
    (h : ∀ k, SnapshotFile Snapshot.IsRecord (p.replay (calls.take k))) :
    ∀ call ∈ calls, DataDir.SavesRecord call := by
  rintro call hcall snapshot rfl
  obtain ⟨i, hi⟩ := List.mem_iff_getElem?.mp hcall
  have hfile := h (i + 1)
  have hlt : i < calls.length := (List.getElem?_eq_some_iff.mp hi).1
  rw [List.take_add_one, hi, Option.toList_some, Persistence.replay_append] at hfile
  apply hfile
  have hreplay : (p.replay (calls.take i)).backend = .file :=
    (Persistence.backend_replay p _).trans hbackend
  show ((p.replay (calls.take i)).run (.saveSnapshot snapshot)).loadSnapshot = some snapshot
  rw [Persistence.run_saveSnapshot hreplay]

namespace Cluster

variable {cfg : Config} {c : Cluster} {action : Action} {t : Turn}

/-- **A crash of the process is a crash of the replica.**  In every run, let a directory hold the
files of a replica, and let its process die in a turn, after any steps of any call.  What the
next process loads are the files on which the replica comes up when the crash cuts the turn
before or behind this call. -/
theorem crash_simulated (h : Reach cfg Runs.Any (.init cfg) c)
    (ha : action.replica ∈ cfg.members) (ht : c.turn action = some t) {d : DataDir}
    (hd : d.Holds (c.files action.replica)) {i : ℕ} {call : PersistenceCall}
    (hcall : t.replica.node.calls[i]? = some call) (k : ℕ) (logPath : String) :
    ∃ j p, (j = i ∨ j = i + 1) ∧
      (((t.replica.node.calls.take i).foldl DataDir.perform d).doing call k).load logPath =
        some p.forget ∧
      next cfg c (.crash action j) = some (c.reboot cfg action.replica p) := by
  have hI := stores_localInvariant (makes_isRecord fun _ => True) cfg fun _ _ => trivial
  have hfiles := (hI.turn (records_reach h) ha (fun _ _ => trivial) ht).2
  have hrecords := savesRecord_of_files hd.backend hfiles
  have hbefore : ((t.replica.node.calls.take i).foldl DataDir.perform d).Holds
      ((c.files action.replica).replay (t.replica.node.calls.take i)) := by
    apply hd.performAll
    intro call' hmem
    exact hrecords call' (List.mem_of_mem_take hmem)
  have hnext : ∀ j, next cfg c (.crash action j) = some (c.reboot cfg action.replica
      ((c.files action.replica).replay (t.replica.node.calls.take j))) := by
    intro j
    simp only [next, if_pos ha, ht, Option.map_some]
  have hcrash := hbefore.crash (hrecords call (List.mem_of_getElem? hcall)) k logPath
  rcases hcrash with hload | hload
  · exact ⟨i, _, Or.inl rfl, hload, hnext i⟩
  · refine ⟨i + 1, _, Or.inr rfl, ?_, hnext (i + 1)⟩
    rw [List.take_add_one, hcall, Option.toList_some, Persistence.replay_append]
    exact hload

/-- Replica `a` of the trio saves its candidacy, and dies before the rename. -/
theorem crash_simulated_candidate :
    ∃ t, (Cluster.init .trio).turn (.electionTimeout "a") = some t ∧
      t.replica.node.calls[0]? = some (.saveState ⟨1, some "a", 0⟩) ∧
      ∃ j p, (j = 0 ∨ j = 0 + 1) ∧
        (((t.replica.node.calls.take 0).foldl DataDir.perform .fresh).doing
          (.saveState ⟨1, some "a", 0⟩) 20).load "log.jsonl" = some p.forget ∧
        next .trio (.init .trio) (.crash (.electionTimeout "a") j) =
          some ((Cluster.init .trio).reboot .trio "a" p) := by
  obtain ⟨t, ht, hcall⟩ : ∃ t, (Cluster.init .trio).turn (.electionTimeout "a") = some t ∧
      t.replica.node.calls[0]? = some (.saveState ⟨1, some "a", 0⟩) := ⟨_, rfl, rfl⟩
  have hmember : (Action.electionTimeout "a").replica ∈ Config.trio.members := by decide
  exact ⟨t, ht, hcall, crash_simulated .refl hmember ht DataDir.holds_fresh hcall 20 "log.jsonl"⟩

end Cluster

end QuorumCanvas
