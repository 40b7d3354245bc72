import Reckoning.Core.Bytes
import Reckoning.Core.Monitor

/-!
# Logging

`include/log/Log.h`, `lib/log/Log.cpp`. A `Log` object locks `sMutex` when it is
made and unlocks it when it is destroyed; what is put into it in between goes to
the outputs piece by piece, or to `mBuffer` once there is a handler, which gets it
from the destructor. Any number of threads make messages, set handlers and, from
a handler or between two pieces, may try to make a message inside of another.

`initialize` has been called before. The pieces are strings, numbers having been
turned into ones. `dprintf` writes all it gets. `sHandlerMutex` is held for
setting and copying only, which are single steps here.

* `whole_messages`: every message comes out whole, in the order of the lock; one
  at most is divided between its output and a handler.
* `lock_comes_back`: exactly when the holder of the mutex can release it.
-/
namespace Reckoning.L2.Logging
open Reckoning.Monitor

/-! ## The code -/

/-- mirrors include/log/Log.h:17-23 -/
inductive Level
  | debug
  | info
  | warn
  | error
  | fatal
  deriving DecidableEq, Repr

/-- mirrors include/log/Log.h:24-29 -/
inductive Output
  | default
  | stdout
  | stderr
  | file
  deriving DecidableEq, Repr

def Level.num : Level → Nat
  | .debug => 0
  | .info => 1
  | .warn => 2
  | .error => 3
  | .fatal => 4

/-- What `initialize` has set. -/
structure Config where
  sLevel : Level
  sOutput : Output
  /-- `sFd` is not -1 -/
  sFd : Bool
  deriving DecidableEq, Repr

/-- `strings` and `direct` are ghosts: what has been put, and what of it has gone to an output
and not to `mBuffer`. -/
structure Log where
  mLevel : Level
  mOutput : Output
  mNum : Nat
  mBuffer : Bytes
  strings : List Bytes
  direct : Bytes
  deriving DecidableEq, Repr

variable {T H : Type}

/-- A message that has ended, with the handler that got its buffer. -/
structure Message (H : Type) where
  log : Log
  handler : Option H

/-- The handler is what both `sHasHandler` and `sHandler` say. `ended` is a ghost. -/
structure Data (H : Type) where
  stdout : Bytes
  stderr : Bytes
  file : Bytes
  handler : Option H
  /-- the calls of handlers -/
  calls : List (H × Output × Bytes)
  aborted : Bool
  ended : List (Message H)

def Data.init : Data H := ⟨[], [], [], none, [], false, []⟩

/-- Where a thread is. `todo` are the writes that are left of an `operator<<`. -/
inductive Pc (H : Type)
  | idle
  | streaming (log : Log) (todo : List Bytes)
  | closing (log : Log) (todo : List Bytes)
  /-- `sHasHandler` has been loaded -/
  | calling (log : Log)
  | handling (log : Log) (handler : H)
  | finishing (log : Log) (handler : Option H)
  /-- waits for the mutex that it holds, in a handler or not -/
  | stuck (log : Log) (handler : Option H)

inductive Choice (H : Type)
  | go
  | log (level : Level) (output : Output)
  | put (str : Bytes)
  | destroy
  | setLogHandler (handler : H)
  /-- a message inside of a message -/
  | nested

/-- mirrors include/log/Log.h:75-81 -/
def Log.init (c : Config) (level : Level) (output : Output) : Log :=
  ⟨level, if output = .default then c.sOutput else output, 0, [], [], []⟩

/-- What `"%s"` prints of a string. -/
def cstr (str : Bytes) : Bytes := str.takeWhile (· ≠ 0)

/-- The new object, and the writes to do.
mirrors include/log/Log.h:108-145 -/
def put (c : Config) (str : Bytes) (log : Log) : Log × List Bytes :=
  let log := { log with strings := log.strings ++ [str] }
  if log.mLevel.num < c.sLevel.num then (log, [])
  else ({ log with mNum := log.mNum + 1 }, (if 0 < log.mNum then [[32]] else []) ++ [cstr str])

/-- Does the message go to the file? -/
def Config.toFile (c : Config) : Output → Bool
  | .default | .file => c.sFd
  | .stdout | .stderr => false

/-- mirrors include/log/Log.h:113-139 -/
def write (c : Config) (str : Bytes) (log : Log) (d : Data H) : Log × Data H :=
  let d := if c.toFile log.mOutput then { d with file := d.file ++ str } else d
  match log.mOutput, d.handler with
  | .file, _ => (log, d)
  | .default, none | .stdout, none =>
    ({ log with direct := log.direct ++ str }, { d with stdout := d.stdout ++ str })
  | .stderr, none => ({ log with direct := log.direct ++ str }, { d with stderr := d.stderr ++ str })
  | .default, some _ | .stdout, some _ | .stderr, some _ =>
    ({ log with mBuffer := log.mBuffer ++ str }, d)

/-- mirrors include/log/Log.h:75-101, :108-145, lib/log/Log.cpp:30-35 -/
def next (c : Config) (pc : Pc H) (d : Data H) (x : Choice H) : Option (Op × Pc H × Data H) :=
  if d.aborted then none
  else
    match pc, x with
    | .idle, .log level output => some (.lock, .streaming (.init c level output) [], d)
    | .streaming log [], .put str =>
      let (log, todo) := put c str log
      some (.plain, .streaming log todo, d)
    | .streaming log [], .destroy =>
      let (log, todo) := put c [10] log
      some (.plain, .closing log todo, d)
    | .streaming log (str :: todo), .go =>
      let (log, d) := write c str log d
      some (.plain, .streaming log todo, d)
    | .closing log (str :: todo), .go =>
      let (log, d) := write c str log d
      some (.plain, .closing log todo, d)
    | .closing log [], .go =>
      if d.handler.isSome then some (.plain, .calling log, d)
      else some (.plain, .finishing log none, d)
    | .calling log, .go => d.handler.map fun h =>
      (.plain, .handling log h, { d with calls := d.calls ++ [(h, log.mOutput, log.mBuffer)] })
    | .handling log h, .go => some (.plain, .finishing log (some h), d)
    | .finishing log h, .go =>
      if log.mLevel = .fatal then some (.plain, .finishing log h, { d with aborted := true })
      else some (.unlock, .idle, { d with ended := d.ended ++ [⟨log, h⟩] })
    | .streaming log [], .nested => some (.plain, .stuck log none, d)
    | .handling log h, .nested => some (.plain, .stuck log (some h), d)
    | .idle, .setLogHandler h | .streaming _ [], .setLogHandler h
    | .handling _ _, .setLogHandler h => some (.plain, pc, { d with handler := some h })
    | _, _ => none

def inside : Pc H → Bool
  | .idle => false
  | _ => true

def program (c : Config) : Program (Pc H) (Data H) (Choice H) := ⟨next c, inside⟩

def State.init : State T (Pc H) (Data H) := ⟨none, [], fun _ => .idle, .init⟩

def logging [DecidableEq T] (c : Config) : LTS (State T (Pc H) (Data H)) (Label T (Choice H)) :=
  system (program c) (· = State.init)

/-! ## One message -/

/-- The strings with a blank between them. -/
def text (strs : List Bytes) : Bytes := [32].intercalate (strs.map cstr)

/-- What is to come out of the message as it is. -/
def Log.text (c : Config) (log : Log) : Bytes :=
  if log.mLevel.num < c.sLevel.num then [] else Logging.text log.strings

theorem text_append (strs : List Bytes) (str : Bytes) :
    text (strs ++ [str]) = text strs ++ (if strs = [] then [] else [32]) ++ cstr str := by
  induction strs with
  | nil => simp [text]
  | cons x strs ih =>
    cases strs with
    | nil => simp [text, List.intercalate_cons_cons]
    | cons y strs =>
      simp only [text, List.cons_append, List.map_cons, List.intercalate_cons_cons] at ih ⊢
      rw [ih]
      simp

/-- What has come out of the message, the writes that are left, and its strings. -/
structure Log.Ok (c : Config) (log : Log) (todo : List Bytes) : Prop where
  num : c.sLevel.num ≤ log.mLevel.num → log.mNum = log.strings.length
  screen : log.mOutput ≠ .file → log.direct ++ log.mBuffer ++ todo.flatten = log.text c
  file : log.mOutput = .file → log.direct = [] ∧ log.mBuffer = []

theorem ok_init (c : Config) (level : Level) (output : Output) : (Log.init c level output).Ok c [] where
  num _ := rfl
  screen _ := by simp [Log.init, Log.text, text]
  file _ := ⟨rfl, rfl⟩

/-- Putting a string leaves what has come out, and adds what is to come. -/
theorem put_spec (c : Config) (str : Bytes) {log : Log} (h : log.Ok c []) :
    (put c str log).1.Ok c (put c str log).2 ∧
      (put c str log).1.text c = log.text c ++ (put c str log).2.flatten ∧
      (put c str log).1.mOutput = log.mOutput ∧ (put c str log).1.direct = log.direct ∧
      (put c str log).1.mBuffer = log.mBuffer := by
  have hscreen := h.screen
  by_cases hl : log.mLevel.num < c.sLevel.num
  · have hput : put c str log = ({ log with strings := log.strings ++ [str] }, []) := if_pos hl
    rw [hput]
    refine ⟨⟨fun hn => absurd hl (Nat.not_lt.mpr hn), fun ho => ?_, h.file⟩, ?_, rfl, rfl, rfl⟩
    · simpa [Log.text, hl] using hscreen ho
    · simp [Log.text, hl]
  · have hnum := h.num (Nat.not_lt.mp hl)
    have hput : put c str log =
        ({ log with strings := log.strings ++ [str], mNum := log.mNum + 1 },
          (if 0 < log.mNum then [[32]] else []) ++ [cstr str]) := if_neg hl
    have htext : text (log.strings ++ [str]) =
        text log.strings ++ ((if 0 < log.mNum then [[32]] else []) ++ [cstr str]).flatten := by
      rw [text_append, hnum]
      cases log.strings <;> simp
    rw [hput]
    refine ⟨⟨fun _ => by simp [hnum], fun ho => ?_, h.file⟩, ?_, rfl, rfl, rfl⟩
    · have hs := hscreen ho
      simp only [Log.text, hl, if_false, List.flatten_nil, List.append_nil] at hs ⊢
      rw [htext, ← hs]
    · simp only [Log.text, hl, if_false]
      exact htext

/-- What of it goes to the file. -/
def Config.forFile (c : Config) (output : Output) (str : Bytes) : Bytes :=
  if c.toFile output then str else []

/-- Where a write goes. -/
inductive Written (c : Config) (str : Bytes) (log : Log) (d : Data H) : Log → Data H → Prop
  | file (ho : log.mOutput = .file) :
      Written c str log d log { d with file := d.file ++ c.forFile log.mOutput str }
  | stdout (ho : log.mOutput = .default ∨ log.mOutput = .stdout) (hh : d.handler = none) :
      Written c str log d { log with direct := log.direct ++ str }
        { d with file := d.file ++ c.forFile log.mOutput str, stdout := d.stdout ++ str }
  | stderr (ho : log.mOutput = .stderr) (hh : d.handler = none) :
      Written c str log d { log with direct := log.direct ++ str }
        { d with file := d.file ++ c.forFile log.mOutput str, stderr := d.stderr ++ str }
  | buffer (ho : log.mOutput ≠ .file) (hh : d.handler ≠ none) :
      Written c str log d { log with mBuffer := log.mBuffer ++ str }
        { d with file := d.file ++ c.forFile log.mOutput str }

theorem write_written (c : Config) (str : Bytes) (log : Log) (d : Data H) :
    Written c str log d (write c str log d).1 (write c str log d).2 := by
  have hfile : (if c.toFile log.mOutput = true then { d with file := d.file ++ str } else d) =
      { d with file := d.file ++ c.forFile log.mOutput str } := by
    unfold Config.forFile
    split
    · rfl
    · rw [List.append_nil]
  unfold write
  rw [hfile]
  obtain ⟨level, output, num, buffer, strings, direct⟩ := log
  obtain ⟨out, err, file, handler, calls, aborted, ended⟩ := d
  cases output <;> cases handler
  · exact .stdout (.inl rfl) rfl
  · exact .buffer nofun nofun
  · exact .stdout (.inr rfl) rfl
  · exact .buffer nofun nofun
  · exact .stderr rfl rfl
  · exact .buffer nofun nofun
  · exact .file rfl
  · exact .file rfl

/-- A write brings the message on. Without a handler nothing has been buffered before. -/
theorem Written.ok {c : Config} {str : Bytes} {log log' : Log} {d d' : Data H} {todo : List Bytes}
    (hw : Written c str log d log' d') (h : log.Ok c (str :: todo))
    (hearly : d.handler = none → log.mBuffer = []) : log'.Ok c todo := by
  have hscreen := h.screen
  cases hw with
  | file ho => exact ⟨h.num, fun hne => absurd ho hne, h.file⟩
  | stdout ho hh | stderr ho hh =>
    refine ⟨h.num, fun hne => ?_, fun he : log.mOutput = .file => ?_⟩
    · have hall : log.direct ++ str ++ log.mBuffer ++ todo.flatten = log.text c := by
        simpa [hearly hh] using hscreen hne
      exact hall
    · rw [he] at ho
      simp at ho
  | buffer ho hh =>
    refine ⟨h.num, fun _ => ?_, fun he => absurd he ho⟩
    have hall : log.direct ++ (log.mBuffer ++ str) ++ todo.flatten = log.text c := by
      simpa using hscreen ho
    exact hall

theorem Written.text {c : Config} {str : Bytes} {log log' : Log} {d d' : Data H}
    (hw : Written c str log d log' d') : log'.text c = log.text c ∧ log'.mOutput = log.mOutput := by
  cases hw <;> exact ⟨rfl, rfl⟩

/-! ## One statement -/

/-- What a statement does. -/
inductive Statement (c : Config) (d : Data H) : Pc H → Op → Pc H → Data H → Prop
  | log (level : Level) (output : Output) :
      Statement c d .idle .lock (.streaming (.init c level output) []) d
  | put {log : Log} (str : Bytes) : Statement c d (.streaming log []) .plain
      (.streaming (Logging.put c str log).1 (Logging.put c str log).2) d
  | destroy {log : Log} : Statement c d (.streaming log []) .plain
      (.closing (Logging.put c [10] log).1 (Logging.put c [10] log).2) d
  | write {log log' : Log} {str : Bytes} {todo : List Bytes} {d' : Data H}
      (hw : Written c str log d log' d') :
      Statement c d (.streaming log (str :: todo)) .plain (.streaming log' todo) d'
  | flush {log log' : Log} {str : Bytes} {todo : List Bytes} {d' : Data H}
      (hw : Written c str log d log' d') :
      Statement c d (.closing log (str :: todo)) .plain (.closing log' todo) d'
  | load {log : Log} (hh : d.handler ≠ none) :
      Statement c d (.closing log []) .plain (.calling log) d
  | skip {log : Log} (hh : d.handler = none) :
      Statement c d (.closing log []) .plain (.finishing log none) d
  | call {log : Log} (x : H) : Statement c d (.calling log) .plain (.handling log x)
      { d with calls := d.calls ++ [(x, log.mOutput, log.mBuffer)] }
  | back {log : Log} {x : H} :
      Statement c d (.handling log x) .plain (.finishing log (some x)) d
  | abort {log : Log} {x : Option H} : Statement c d (.finishing log x) .plain (.finishing log x)
      { d with aborted := true }
  | unlock {log : Log} {x : Option H} : Statement c d (.finishing log x) .unlock .idle
      { d with ended := d.ended ++ [⟨log, x⟩] }
  | nested {log : Log} : Statement c d (.streaming log []) .plain (.stuck log none) d
  | relog {log : Log} {x : H} :
      Statement c d (.handling log x) .plain (.stuck log (some x)) d
  | set {pc : Pc H} (x : H) : Statement c d pc .plain pc { d with handler := some x }

theorem Statement.op {c : Config} {pc pc' : Pc H} {d d' : Data H} {op : Op}
    (h : Statement c d pc op pc' d') : op = .plain ∨ op = .lock ∨ op = .unlock := by
  cases h <;> simp

theorem next_spec {c : Config} {pc pc' : Pc H} {d d' : Data H} {x : Choice H} {op : Op}
    (hn : next c pc d x = some (op, pc', d')) :
    d.aborted = false ∧ Statement c d pc op pc' d' := by
  unfold next at hn
  split at hn
  · cases hn
  refine ⟨Bool.eq_false_iff.mpr ‹_›, ?_⟩
  cases pc with
  | idle => cases x <;> cases hn <;> constructor
  | streaming log todo =>
    cases todo with
    | nil => cases x <;> cases hn <;> constructor
    | cons str todo =>
      cases x <;> cases hn
      exact .write (write_written c str log d)
  | closing log todo =>
    cases todo with
    | nil =>
      cases x with
      | go =>
        dsimp only at hn
        split at hn <;> cases hn
        · exact .load (Option.isSome_iff_ne_none.mp ‹_›)
        · exact .skip (Option.not_isSome_iff_eq_none.mp ‹_›)
      | _ => cases hn
    | cons str todo =>
      cases x <;> cases hn
      exact .flush (write_written c str log d)
  | calling log =>
    cases x with
    | go =>
      obtain ⟨y, -, heq⟩ := Option.map_eq_some_iff.mp hn
      cases heq
      exact .call y
    | _ => cases hn
  | handling log y => cases x <;> cases hn <;> constructor
  | finishing log y =>
    cases x with
    | go =>
      dsimp only at hn
      split at hn <;> cases hn
      · exact .abort
      · exact .unlock
    | _ => cases hn
  | stuck => cases x <;> cases hn

/-! ## All messages -/

def Log.onFile (c : Config) (log : Log) : Bytes := c.forFile log.mOutput (log.text c)

def Log.onStdout (log : Log) : Bytes :=
  match log.mOutput with
  | .default | .stdout => log.direct
  | .stderr | .file => []

def Log.onStderr (log : Log) : Bytes :=
  match log.mOutput with
  | .stderr => log.direct
  | .default | .stdout | .file => []

def Message.called (m : Message H) : Option (H × Output × Bytes) :=
  m.handler.map fun h => (h, m.log.mOutput, m.log.mBuffer)

/-- The message that a thread is in. -/
def Pc.log : Pc H → Option Log
  | .idle => none
  | .streaming log _ | .closing log _ | .calling log | .handling log _ | .finishing log _
  | .stuck log _ => some log

/-- The writes that are left. -/
def Pc.todo : Pc H → List Bytes
  | .streaming _ todo | .closing _ todo => todo
  | .idle | .calling _ | .handling _ _ | .finishing _ _ | .stuck _ _ => []

/-- The handler that has got the message. -/
def Pc.handler : Pc H → Option H
  | .handling _ h => some h
  | .finishing _ h | .stuck _ h => h
  | .idle | .streaming _ _ | .closing _ _ | .calling _ => none

/-- Without a handler nothing is in the buffer, and with one it is called. -/
def Pc.Fits (d : Data H) : Pc H → Prop
  | .calling _ => d.handler ≠ none
  | .finishing log none => log.mBuffer = []
  | _ => True

/-- What has come out, while the thread at `pc` has the mutex, or nobody has. -/
structure Books (c : Config) (pc : Pc H) (d : Data H) : Prop where
  ok : ∀ log, pc.log = some log → log.Ok c pc.todo
  ended : ∀ m ∈ d.ended, m.log.Ok c []
  file : d.file ++ pc.log.elim [] (fun log => c.forFile log.mOutput pc.todo.flatten) =
    d.ended.flatMap (·.log.onFile c) ++ pc.log.elim [] (·.onFile c)
  stdout : d.stdout = d.ended.flatMap (·.log.onStdout) ++ pc.log.elim [] (·.onStdout)
  stderr : d.stderr = d.ended.flatMap (·.log.onStderr) ++ pc.log.elim [] (·.onStderr)
  calls : d.calls = d.ended.filterMap Message.called ++
    (pc.log.bind fun log => Message.called ⟨log, pc.handler⟩).toList
  early : d.handler = none → (∀ m ∈ d.ended, m.log.mBuffer = []) ∧
    ∀ log, pc.log = some log → log.mBuffer = []
  divided : (d.ended.map Message.log ++ pc.log.toList).Pairwise
    fun a b => a.mBuffer ≠ [] → b.direct = []
  heard : ∀ m ∈ d.ended, m.handler = none → m.log.mBuffer = []
  fits : pc.Fits d

section
variable {c : Config} {pc pc' : Pc H} {d d' : Data H} {log : Log} {op : Op}

theorem books_init : Books c .idle (Data.init : Data H) := by
  refine ⟨nofun, nofun, rfl, rfl, rfl, rfl, fun _ => ⟨nofun, nofun⟩, .nil, nofun, trivial⟩

/-- Setting a handler changes nothing that has come out. -/
theorem Books.set (h : Books c pc d) (x : H) : Books c pc { d with handler := some x } := by
  have hfits : pc.Fits { d with handler := some x } := by
    have hold := h.fits
    cases pc with
    | calling => exact Option.some_ne_none x
    | finishing log y => cases y <;> exact hold
    | _ => trivial
  exact { h with early := nofun, fits := hfits }

/-- Going on with the same message, with nothing to write. -/
theorem Books.moves (h : Books c pc d) (hlog : pc'.log = pc.log) (htodo : pc'.todo = pc.todo)
    (hhandler : pc'.handler = pc.handler) (hfits : pc'.Fits d) : Books c pc' d := by
  refine ⟨?_, h.ended, ?_, ?_, ?_, ?_, ?_, ?_, h.heard, hfits⟩
  · rw [hlog, htodo]; exact h.ok
  · rw [hlog, htodo]; exact h.file
  · rw [hlog]; exact h.stdout
  · rw [hlog]; exact h.stderr
  · rw [hlog, hhandler]; exact h.calls
  · rw [hlog]; exact h.early
  · rw [hlog]; exact h.divided

theorem books_log (h : Books c .idle d) (level : Level) (output : Output) :
    Books c (.streaming (.init c level output) []) d := by
  refine ⟨?_, h.ended, ?_, ?_, ?_, h.calls, fun hn => ⟨(h.early hn).1, ?_⟩, ?_, h.heard, trivial⟩
  · rintro _ ⟨⟩
    exact ok_init c level output
  · have hempty : (Log.init c level output).text c = [] := by simp [Log.init, Log.text, text]
    simpa [Pc.log, Pc.todo, Log.onFile, Config.forFile, hempty] using h.file
  · have hnone : (Log.init c level output).onStdout = [] := by
      unfold Log.onStdout
      split <;> rfl
    simpa [Pc.log, hnone] using h.stdout
  · have hnone : (Log.init c level output).onStderr = [] := by
      unfold Log.onStderr
      split <;> rfl
    simpa [Pc.log, hnone] using h.stderr
  · rintro _ ⟨⟩
    rfl
  · have hold := h.divided
    simp only [Pc.log, Option.toList_none, List.append_nil] at hold
    exact List.pairwise_append.mpr ⟨hold, List.pairwise_singleton .., fun _ _ b hb _ => by
      obtain rfl := List.mem_singleton.mp hb
      rfl⟩

theorem forFile_append (c : Config) (output : Output) (a b : Bytes) :
    c.forFile output (a ++ b) = c.forFile output a ++ c.forFile output b := by
  unfold Config.forFile
  split <;> rfl

@[simp] theorem forFile_nil (c : Config) (output : Output) : c.forFile output [] = [] :=
  ite_self _

/-- An `operator<<` from where it is called to its first write. -/
theorem books_put (h : Books c (.streaming log []) d) (str : Bytes)
    (hlog : pc'.log = some (put c str log).1) (htodo : pc'.todo = (put c str log).2)
    (hhandler : pc'.handler = none) (hfits : pc'.Fits d) : Books c pc' d := by
  obtain ⟨hok, htext, hout, hdirect, hbuffer⟩ := put_spec c str (h.ok log rfl)
  refine ⟨?_, h.ended, ?_, ?_, ?_, ?_, fun hn => ⟨(h.early hn).1, ?_⟩, ?_, h.heard,
    hfits⟩
  · rw [hlog, htodo]
    rintro _ ⟨⟩
    exact hok
  · have hfile : d.file = d.ended.flatMap (·.log.onFile c) ++ log.onFile c := by
      simpa [Pc.log, Pc.todo] using h.file
    have hmore : (put c str log).1.onFile c =
        log.onFile c ++ c.forFile log.mOutput (put c str log).2.flatten := by
      rw [Log.onFile, Log.onFile, hout, htext, forFile_append]
    rw [hlog, htodo, Option.elim_some, Option.elim_some, hout, hfile, hmore, List.append_assoc]
  · rw [hlog]
    simpa [Pc.log, Log.onStdout, hout, hdirect] using h.stdout
  · rw [hlog]
    simpa [Pc.log, Log.onStderr, hout, hdirect] using h.stderr
  · rw [hlog, hhandler]
    exact h.calls
  · rw [hlog]
    rintro _ ⟨⟩
    rw [hbuffer]
    exact (h.early hn).2 log rfl
  · have hold := h.divided
    rw [hlog]
    simp only [Pc.log, Option.toList_some, List.pairwise_append] at hold ⊢
    refine ⟨hold.1, List.pairwise_singleton .., fun a ha b hb hne => ?_⟩
    obtain rfl := List.mem_singleton.mp hb
    rw [hdirect]
    exact hold.2.2 a ha log (List.mem_singleton_self log) hne

/-- One write. -/
theorem books_write {log' : Log} {str : Bytes} {todo : List Bytes} (h : Books c pc d)
    (hw : Written c str log d log' d') (hlog : pc.log = some log) (htodo : pc.todo = str :: todo)
    (hhandler : pc.handler = none) (hlog' : pc'.log = some log') (htodo' : pc'.todo = todo)
    (hhandler' : pc'.handler = none) (hfits : pc'.Fits d') : Books c pc' d' := by
  have hok : log'.Ok c todo :=
    hw.ok (htodo ▸ h.ok log hlog) fun hn => (h.early hn).2 log hlog
  obtain ⟨htext, hout⟩ := hw.text
  have hdivided := h.divided
  rw [hlog, Option.toList_some, List.pairwise_append] at hdivided
  have hlast := fun a ha => hdivided.2.2 a ha log (List.mem_singleton_self log)
  have hfile : d.file ++ c.forFile log.mOutput str ++ c.forFile log.mOutput todo.flatten =
      d.ended.flatMap (·.log.onFile c) ++ log'.onFile c := by
    have hold := h.file
    rw [hlog, htodo, Option.elim_some, Option.elim_some, List.flatten_cons, forFile_append,
      ← List.append_assoc] at hold
    rw [hold, Log.onFile, Log.onFile, htext, hout]
  have hstdout := h.stdout
  have hstderr := h.stderr
  have hcalls := h.calls
  rw [hlog, Option.elim_some] at hstdout hstderr
  rw [hlog, hhandler] at hcalls
  have hlogs : ∀ P : Log → Prop, P log' → ∀ l, pc'.log = some l → P l := by
    rw [hlog']
    rintro P hP _ ⟨⟩
    exact hP
  -- without a handler the messages before have no buffer
  have hfirst : d.handler = none → ∀ b : Log, (d.ended.map Message.log ++ [b]).Pairwise
      fun a b => a.mBuffer ≠ [] → b.direct = [] := by
    intro hh b
    refine List.pairwise_append.mpr ⟨hdivided.1, List.pairwise_singleton .., fun a ha _ _ hne => ?_⟩
    obtain ⟨m, hm, rfl⟩ := List.mem_map.mp ha
    exact absurd ((h.early hh).1 m hm) hne
  cases hw with
  | file ho =>
    refine ⟨htodo' ▸ hlogs _ hok, h.ended, ?_, ?_, ?_, ?_, fun hn => ⟨(h.early hn).1, ?_⟩, ?_, h.heard,
      hfits⟩
    · rw [hlog', htodo']; exact hfile
    · rw [hlog']; exact hstdout
    · rw [hlog']; exact hstderr
    · rw [hlog', hhandler']; exact hcalls
    · exact hlogs _ ((h.early hn).2 log hlog)
    · rw [hlog', ← hlog]; exact h.divided
  | stdout ho hh =>
    have hout' : Log.onStdout { log with direct := log.direct ++ str } = log.onStdout ++ str := by
      rcases ho with ho | ho <;> simp [Log.onStdout, ho]
    have herr : Log.onStderr { log with direct := log.direct ++ str } = log.onStderr := by
      rcases ho with ho | ho <;> simp [Log.onStderr, ho]
    refine ⟨htodo' ▸ hlogs _ hok, h.ended, ?_, ?_, ?_, ?_, fun hn => ⟨(h.early hn).1, ?_⟩,
      hlog' ▸ hfirst hh _, h.heard, hfits⟩
    · rw [hlog', htodo']; exact hfile
    · rw [hlog', Option.elim_some, hout', hstdout, List.append_assoc]
    · rw [hlog', Option.elim_some, herr]; exact hstderr
    · rw [hlog', hhandler']; exact hcalls
    · exact hlogs _ ((h.early hn).2 log hlog)
  | stderr ho hh =>
    have hout' : Log.onStdout { log with direct := log.direct ++ str } = log.onStdout := by
      simp [Log.onStdout, ho]
    have herr : Log.onStderr { log with direct := log.direct ++ str } = log.onStderr ++ str := by
      simp [Log.onStderr, ho]
    refine ⟨htodo' ▸ hlogs _ hok, h.ended, ?_, ?_, ?_, ?_, fun hn => ⟨(h.early hn).1, ?_⟩,
      hlog' ▸ hfirst hh _, h.heard, hfits⟩
    · rw [hlog', htodo']; exact hfile
    · rw [hlog', Option.elim_some, hout']; exact hstdout
    · rw [hlog', Option.elim_some, herr, hstderr, List.append_assoc]
    · rw [hlog', hhandler']; exact hcalls
    · exact hlogs _ ((h.early hn).2 log hlog)
  | buffer ho hh =>
    refine ⟨htodo' ▸ hlogs _ hok, h.ended, ?_, ?_, ?_, ?_, fun hn => absurd hn hh, ?_, h.heard,
      hfits⟩
    · rw [hlog', htodo']; exact hfile
    · rw [hlog']; exact hstdout
    · rw [hlog']; exact hstderr
    · rw [hlog', hhandler']; exact hcalls
    · rw [hlog', Option.toList_some]
      refine List.pairwise_append.mpr ⟨hdivided.1, List.pairwise_singleton .., fun a ha b hb hne => ?_⟩
      obtain rfl := List.mem_singleton.mp hb
      exact hlast a ha hne

/-- The end of a message. -/
theorem books_end {x : Option H} (h : Books c (.finishing log x) d) :
    Books c .idle { d with ended := d.ended ++ [⟨log, x⟩] } := by
  refine ⟨nofun, fun m hm => ?_, ?_, ?_, ?_, ?_, fun hn => ⟨fun m hm => ?_, nofun⟩, ?_,
    fun m hm hx => ?_, trivial⟩
  · rcases List.mem_append.mp hm with hm | hm
    · exact h.ended m hm
    · obtain rfl := List.mem_singleton.mp hm
      exact h.ok log rfl
  · simpa [Pc.log, Pc.todo] using h.file
  · simpa [Pc.log] using h.stdout
  · simpa [Pc.log] using h.stderr
  · have hcalls := h.calls
    simp only [Pc.log, Pc.handler, Option.bind_some] at hcalls
    simp only [Pc.log, Option.bind_none, Option.toList_none, List.append_nil, List.filterMap_append,
      hcalls]
    cases x <;> simp [Message.called]
  · rcases List.mem_append.mp hm with hm | hm
    · exact (h.early hn).1 m hm
    · obtain rfl := List.mem_singleton.mp hm
      exact (h.early hn).2 log rfl
  · simpa [Pc.log] using h.divided
  · rcases List.mem_append.mp hm with hm | hm
    · exact h.heard m hm hx
    · obtain rfl := List.mem_singleton.mp hm
      obtain rfl : x = none := hx
      exact h.fits

/-- A statement, by the thread that holds the mutex or takes it. -/
theorem books_statement (h : Books c pc d) (hs : Statement c d pc op pc' d') : Books c pc' d' := by
  cases hs with
  | log level output => exact books_log h level output
  | put str | destroy => exact books_put h _ rfl rfl rfl trivial
  | write hw | flush hw => exact books_write h hw rfl rfl rfl rfl rfl rfl trivial
  | load hh => exact h.moves rfl rfl rfl hh
  | skip hh => exact h.moves rfl rfl rfl ((h.early hh).2 _ rfl)
  | call x =>
    refine ⟨h.ok, h.ended, h.file, h.stdout, h.stderr, ?_, h.early, h.divided, h.heard, trivial⟩
    have hcalls := h.calls
    simp only [Pc.log, Pc.handler, Option.bind_some, Message.called, Option.map_none,
      Option.toList_none, List.append_nil, Option.map_some, Option.toList_some] at hcalls ⊢
    rw [hcalls]
  | back | nested | relog => exact h.moves rfl rfl rfl trivial
  | abort => exact { h with }
  | unlock => exact books_end h
  | set x => exact h.set x

end

/-! ## All threads -/

section
variable [DecidableEq T] {c : Config} {s s' : State T (Pc H) (Data H)}

theorem disciplined (c : Config) : Disciplined (program c : Program (Pc H) (Data H) (Choice H)) := by
  intro pc d x op pc' d' hn
  cases (next_spec hn).2 with
  | log | unlock => exact ⟨rfl, rfl⟩
  | put | destroy | write | flush | load | skip | call | back | abort | nested | relog | set => rfl

/-- The place of the thread that holds the mutex. -/
def place (s : State T (Pc H) (Data H)) : Pc H := s.owner.elim .idle s.pc

structure Inv (c : Config) (s : State T (Pc H) (Data H)) : Prop where
  exclusive : Exclusive (program c) s
  books : Books c (place s) s.data
  awake : s.asleep = []

omit [DecidableEq T] in
theorem place_of_inside (hex : Exclusive (program c) s) {t : T} (ht : inside (s.pc t) = true) :
    place s = s.pc t := by
  rw [place, (hex t).mpr ht]
  rfl

omit [DecidableEq T] in
/-- A thread that is outside is idle. -/
theorem idle_of_outside {pc : Pc H} (h : ¬ inside pc = true) : pc = .idle := by
  cases pc <;> first | rfl | exact absurd rfl h

omit [DecidableEq T] in
theorem inv_init : Inv c (State.init : State T (Pc H) (Data H)) where
  exclusive t := by simp [State.init, program, inside]
  books := books_init
  awake := rfl

/-- Nobody waits on the condition variable, which does not exist. -/
theorem awake_run {t : T} {x : Choice H} {woken : Option T} {op : Op}
    (hran : Ran (program c) t x woken s s' op) (h : s.asleep = []) : s'.asleep = [] := by
  have hperf := hran.perform
  rw [h] at hperf
  obtain ⟨-, hst⟩ := next_spec hran.next
  rcases hst.op with rfl | rfl | rfl <;> simp only [perform] at hperf
  · exact (Prod.mk.inj (Option.some.inj hperf)).2.symm
  · split at hperf
    · exact (Prod.mk.inj (Option.some.inj hperf)).2.symm
    · cases hperf
  · split at hperf
    · exact (Prod.mk.inj (Option.some.inj hperf)).2.symm
    · cases hperf

/-- A statement inside leads to a place that is inside, or lets the mutex go. -/
theorem place_run {t : T} {x : Choice H} {woken : Option T} {op : Op}
    (hran : Ran (program c) t x woken s s' op) (hex : Exclusive (program c) s)
    (hex' : Exclusive (program c) s') (ht : inside (s.pc t) = true) : place s' = s'.pc t := by
  by_cases ht' : inside (s'.pc t) = true
  · exact place_of_inside hex' ht'
  · have hnone : s'.owner = none := Option.eq_none_iff_forall_ne_some.mpr fun u hu => by
      have hin : inside (s'.pc u) = true := (hex' u).mp hu
      by_cases hut : u = t
      · exact ht' (hut ▸ hin)
      · exact hut (mutual_exclusion hex (hran.others u hut ▸ hin) ht)
    rw [place, hnone, idle_of_outside ht']
    rfl

theorem inv_step {l : Label T (Choice H)} (hi : Inv c s) (h : step (program c) s l = some s') :
    Inv c s' := by
  have hex := exclusive_step (disciplined c) hi.exclusive h
  cases l with
  | wake t =>
    obtain ⟨hmem, -⟩ := step_wake h
    rw [hi.awake] at hmem
    cases hmem
  | run t x woken =>
    obtain ⟨op, hran⟩ := step_run h
    obtain ⟨-, hst⟩ := next_spec hran.next
    refine ⟨hex, ?_, awake_run hran hi.awake⟩
    by_cases ht : inside (s.pc t) = true
    · have hbooks := hi.books
      rw [place_of_inside hi.exclusive ht] at hbooks
      rw [place_run hran hi.exclusive hex ht]
      exact books_statement hbooks hst
    · have hidle := idle_of_outside ht
      have hown := perform_owners hran.perform
      have hbooks := hi.books
      generalize hpc : s'.pc t = pc' at hst
      generalize s'.data = d' at hst
      rw [hidle] at hst
      cases hst with
      | log level output =>
        obtain ⟨hfree, hheld⟩ := hown
        rw [place, hheld, Option.elim_some, hpc]
        rw [place, hfree] at hbooks
        exact books_log hbooks level output
      | set x =>
        -- the thread is not in a message, another one may be
        have hsame : place s' = place s := by
          rw [place, place, show s'.owner = s.owner from hown]
          cases ho : s.owner with
          | none => rfl
          | some u =>
            by_cases hut : u = t
            · subst hut
              exact hpc.trans hidle.symm
            · exact hran.others u hut
        rw [hsame]
        exact hbooks.set x

theorem inductive_inv (c : Config) :
    (logging c : LTS (State T (Pc H) (Data H)) _).Inductive (Inv c) where
  init s hs := by
    cases hs
    exact inv_init
  step _ _ _ hi hs := inv_step hi hs

/-- **Whole messages.** Whatever the threads do: when nobody is in a message,
the file, stdout and stderr are what went there of the messages that have ended,
in the order of the lock. What went to an output and what a handler got make up
the text of the message, and one message at most is divided between the two.
The handlers have been called for the messages in their order, and a message
that no handler got has nothing in its buffer. -/
theorem whole_messages (c : Config) (s : State T (Pc H) (Data H)) (hr : (logging c).Reachable s)
    (ho : s.owner = none) :
    s.data.file = s.data.ended.flatMap (·.log.onFile c) ∧
      s.data.stdout = s.data.ended.flatMap (·.log.onStdout) ∧
      s.data.stderr = s.data.ended.flatMap (·.log.onStderr) ∧
      (∀ m ∈ s.data.ended, m.log.mOutput ≠ .file →
        m.log.direct ++ m.log.mBuffer = m.log.text c) ∧
      (s.data.ended.map Message.log).Pairwise (fun a b => a.mBuffer ≠ [] → b.direct = []) ∧
      s.data.calls = s.data.ended.filterMap Message.called ∧
      ∀ m ∈ s.data.ended, m.handler = none → m.log.mBuffer = [] := by
  have hb := ((inductive_inv c).reachable s hr).books
  rw [place, ho, Option.elim_none] at hb
  refine ⟨by simpa [Pc.log] using hb.file, by simpa [Pc.log] using hb.stdout,
    by simpa [Pc.log] using hb.stderr, fun m hm hout => ?_, by simpa [Pc.log] using hb.divided,
    by simpa [Pc.log] using hb.calls, hb.heard⟩
  simpa using (hb.ended m hm).screen hout

/-! ## Letting the mutex go -/

def Pc.isStuck : Pc H → Bool
  | .stuck _ _ => true
  | _ => false

/-- The statements up to the unlocking, when no more strings are put. -/
def Pc.cost : Pc H → Nat
  | .idle | .stuck _ _ => 0
  | .finishing _ _ => 1
  | .handling _ _ => 2
  | .calling _ => 3
  | .closing _ todo => todo.length + 4
  | .streaming _ todo => todo.length + 7

theorem cost_pos {pc : Pc H} (hin : inside pc = true) (hst : pc.isStuck = false) : 0 < pc.cost := by
  cases pc with
  | idle => cases hin
  | stuck => cases hst
  | _ => exact Nat.succ_pos _

theorem put_length (c : Config) (str : Bytes) (log : Log) : (put c str log).2.length ≤ 2 := by
  unfold put
  dsimp only
  split
  · exact Nat.zero_le _
  · split <;> simp

/-- A message that is not stuck can be brought nearer to its end. -/
theorem advance {pc : Pc H} {d : Data H} (hb : Books c pc d) (hab : d.aborted = false)
    (hin : inside pc = true) (hst : pc.isStuck = false) :
    ∃ x op pc' d', next c pc d x = some (op, pc', d') ∧
      (op = .unlock ∨ op = .plain ∧ (d'.aborted = true ∨ pc'.isStuck = false) ∧
        (d'.aborted = true ∨ pc'.cost < pc.cost)) := by
  have hrun : ¬ d.aborted = true := by simp [hab]
  cases pc with
  | idle => cases hin
  | stuck => cases hst
  | streaming log todo =>
    cases todo with
    | nil =>
      refine ⟨.destroy, .plain, .closing (put c [10] log).1 (put c [10] log).2, d, if_neg hrun,
        .inr ⟨rfl, .inr rfl, .inr ?_⟩⟩
      have hlen := put_length c [10] log
      simp only [Pc.cost, List.length_nil]
      omega
    | cons str todo =>
      exact ⟨.go, .plain, _, _, if_neg hrun, .inr ⟨rfl, .inr rfl, .inr (by simp [Pc.cost])⟩⟩
  | closing log todo =>
    cases todo with
    | nil =>
      cases hh : d.handler with
      | none =>
        refine ⟨.go, .plain, .finishing log none, d, ?_, .inr ⟨rfl, .inr rfl, .inr (by simp [Pc.cost])⟩⟩
        simp [next, hab, hh]
      | some y =>
        refine ⟨.go, .plain, .calling log, d, ?_, .inr ⟨rfl, .inr rfl, .inr (by simp [Pc.cost])⟩⟩
        simp [next, hab, hh]
    | cons str todo =>
      exact ⟨.go, .plain, _, _, if_neg hrun, .inr ⟨rfl, .inr rfl, .inr (by simp [Pc.cost])⟩⟩
  | calling log =>
    obtain ⟨y, hy⟩ := Option.ne_none_iff_exists'.mp hb.fits
    have hn : next c (.calling log) d .go = some (.plain, .handling log y,
        { d with calls := d.calls ++ [(y, log.mOutput, log.mBuffer)] }) := by
      simp [next, hab, hy]
    exact ⟨.go, .plain, _, _, hn, .inr ⟨rfl, .inr rfl, .inr (by simp [Pc.cost])⟩⟩
  | handling log y =>
    exact ⟨.go, .plain, _, _, if_neg hrun, .inr ⟨rfl, .inr rfl, .inr (by simp [Pc.cost])⟩⟩
  | finishing log y =>
    by_cases hf : log.mLevel = .fatal
    · exact ⟨.go, .plain, _, _, (if_neg hrun).trans (if_pos hf), .inr ⟨rfl, .inl rfl, .inl rfl⟩⟩
    · exact ⟨.go, .unlock, _, _, (if_neg hrun).trans (if_neg hf), .inl rfl⟩

/-- The mutex is free, or the process has been aborted. -/
def Free (s : State T (Pc H) (Data H)) : Prop := s.owner = none ∨ s.data.aborted = true

/-- The next statement of the thread that holds the mutex. -/
theorem progress {t : T} (hi : Inv c s) (ho : s.owner = some t) (hab : s.data.aborted = false)
    (hst : (s.pc t).isStuck = false) :
    ∃ x s', step (program c) s (.run t x none) = some s' ∧ (Free s' ∨
      s'.owner = some t ∧ (s'.pc t).isStuck = false ∧ (s'.pc t).cost < (s.pc t).cost) := by
  have hin : inside (s.pc t) = true := (hi.exclusive t).mp ho
  have hb := hi.books
  rw [place_of_inside hi.exclusive hin] at hb
  obtain ⟨x, op, pc', d', hn, hop⟩ := advance hb hab hin hst
  rcases hop with rfl | ⟨rfl, hst', hcost⟩
  · refine ⟨x, ⟨none, s.asleep, Function.update s.pc t pc', d'⟩, ?_, .inl (.inl rfl)⟩
    simp [step, program, hn, perform, ho]
  · refine ⟨x, ⟨s.owner, s.asleep, Function.update s.pc t pc', d'⟩, ?_, ?_⟩
    · simp [step, program, hn, perform]
    · rcases hcost with hab' | hcost
      · exact .inl (.inr hab')
      · rcases hst' with hab' | hst'
        · exact .inl (.inr hab')
        · exact .inr ⟨ho, by simpa using hst', by simpa using hcost⟩

/-- The statements of the thread that holds the mutex lead to its release. -/
theorem released {t : T} (n : Nat) : ∀ s : State T (Pc H) (Data H), Inv c s → s.owner = some t →
    s.data.aborted = false → (s.pc t).isStuck = false → (s.pc t).cost ≤ n →
    ∃ ls s', ((logging c).guard fun _ l => ∃ x, l = .run t x none).Run s ls s' ∧
      ls.length ≤ n ∧ Free s' := by
  induction n with
  | zero =>
    intro s hi ho hab hst hn
    exact absurd hn (Nat.not_le.mpr (cost_pos ((hi.exclusive t).mp ho) hst))
  | succ n ih =>
    intro s hi ho hab hst hn
    obtain ⟨x, s₁, hs, hfree | ⟨ho₁, hst₁, hlt⟩⟩ := progress hi ho hab hst
    · exact ⟨_, s₁, .cons ⟨⟨x, rfl⟩, hs⟩ (.nil s₁), Nat.succ_le_succ (Nat.zero_le n), hfree⟩
    · cases hab₁ : s₁.data.aborted with
      | true => exact ⟨_, s₁, .cons ⟨⟨x, rfl⟩, hs⟩ (.nil s₁), Nat.succ_le_succ (Nat.zero_le n), .inr hab₁⟩
      | false =>
        obtain ⟨ls, s', hrun, hlen, hfree⟩ := ih s₁ (inv_step hi hs) ho₁ hab₁ hst₁ (by omega)
        exact ⟨_, s', .cons ⟨⟨x, rfl⟩, hs⟩ hrun, Nat.succ_le_succ hlen, hfree⟩

/-- A thread that waits for itself waits for good, and the others with it. -/
theorem stuck_step {t : T} {l : Label T (Choice H)} (hi : Inv c s) (ho : s.owner = some t)
    (hst : (s.pc t).isStuck = true) (h : step (program c) s l = some s') :
    s'.owner = some t ∧ s'.pc t = s.pc t ∧ s'.data = { s.data with handler := s'.data.handler } := by
  cases l with
  | wake u =>
    obtain ⟨hmem, -⟩ := step_wake h
    rw [hi.awake] at hmem
    cases hmem
  | run u x woken =>
    obtain ⟨op, hran⟩ := step_run h
    have hut : u ≠ t := by
      rintro rfl
      obtain ⟨log, y, hpc⟩ : ∃ log y, s.pc u = .stuck log y := by
        cases hpc : s.pc u <;> rw [hpc] at hst <;> first | exact ⟨_, _, rfl⟩ | cases hst
      have hn := hran.next
      simp only [program, next, hpc] at hn
      split at hn <;> cases hn
    have hidle := idle_of_outside fun hu =>
      hut (mutual_exclusion hi.exclusive hu ((hi.exclusive t).mp ho))
    obtain ⟨-, hst'⟩ := next_spec hran.next
    have hown := perform_owners hran.perform
    refine ⟨?_, hran.others t (Ne.symm hut), ?_⟩
    · generalize s'.pc u = pc' at hst'
      generalize s'.data = d' at hst'
      rw [hidle] at hst'
      cases hst' with
      | log =>
        obtain ⟨hfree, -⟩ := hown
        rw [ho] at hfree
        cases hfree
      | set => exact hown.trans ho
    · generalize s'.pc u = pc' at hst'
      generalize s'.data = d' at hst' ⊢
      rw [hidle] at hst'
      cases hst' <;> rfl

/-- **When the mutex comes back.** A thread that holds the mutex releases it, or
aborts the process, in a few statements of its own, whatever the others do,
unless it has begun a message inside of its message. Then it never does, and no
message is ever begun or ended and nothing is written any more. -/
theorem lock_comes_back (c : Config) (s : State T (Pc H) (Data H)) (hr : (logging c).Reachable s)
    (t : T) (ho : s.owner = some t) (hab : s.data.aborted = false) :
    ((s.pc t).isStuck = false → ∃ ls s',
      ((logging c).guard fun _ l => ∃ x, l = .run t x none).Run s ls s' ∧
        ls.length ≤ (s.pc t).cost ∧ (s'.owner = none ∨ s'.data.aborted = true)) ∧
    ((s.pc t).isStuck = true → ∀ ls s', (logging c).Run s ls s' →
      s'.owner = some t ∧ s'.data = { s.data with handler := s'.data.handler }) := by
  have hi := (inductive_inv c).reachable s hr
  constructor
  · exact fun hst => released _ s hi ho hab hst (Nat.le_refl _)
  · intro hst ls s' hrun
    have hall : ∀ s₁ l s₂, (Inv c s₁ ∧ s₁.owner = some t ∧ (s₁.pc t).isStuck = true ∧
        s₁.data = { s.data with handler := s₁.data.handler }) → (logging c).step s₁ l s₂ →
        (Inv c s₂ ∧ s₂.owner = some t ∧ (s₂.pc t).isStuck = true ∧
          s₂.data = { s.data with handler := s₂.data.handler }) := by
      rintro s₁ l s₂ ⟨hi₁, ho₁, hst₁, hd₁⟩ h
      obtain ⟨ho₂, hpc₂, hd₂⟩ := stuck_step hi₁ ho₁ hst₁ h
      refine ⟨inv_step hi₁ h, ho₂, hpc₂ ▸ hst₁, ?_⟩
      rw [hd₂, hd₁]
    obtain ⟨-, ho', -, hd'⟩ := hrun.preserves hall ⟨hi, ho, hst, rfl⟩
    exact ⟨ho', hd'⟩

end

/-! ### A run -/

/-- Two threads; a handler is set in the middle of the first message, and makes a message itself
when it gets the second one. -/
def messages : List (Label Bool (Choice Unit)) :=
  [.run false (.log .error .default) none, .run false (.put [104, 105]) none, .run false .go none,
    .run true (.setLogHandler ()) none, .run false .destroy none, .run false .go none,
    .run false .go none, .run false .go none, .run false .go none, .run false .go none,
    .run false .go none]

def config : Config := ⟨.info, .default, true⟩

theorem messages_run :
    (LTS.replay (step (program config)) (State.init : State Bool (Pc Unit) _) messages).isSome := rfl

/-- The message is divided, in the file it is whole. -/
theorem whole_messages_divided :
    let s := (LTS.replay (step (program config)) (State.init : State Bool (Pc Unit) _) messages).get
      messages_run
    s.data.file = [104, 105, 32, 10] ∧ s.data.stdout = [104, 105] ∧
      s.data.calls = [((), .default, [32, 10])] :=
  have h := whole_messages config _ (LTS.reachable_replay (· = State.init) rfl messages_run) rfl
  ⟨h.1, h.2.1, h.2.2.2.2.2.1⟩

/-- The second message of the thread, up to the handler. -/
def relogging : List (Label Bool (Choice Unit)) :=
  messages ++ [.run false (.log .error .stderr) none, .run false .destroy none, .run false .go none,
    .run false .go none, .run false .go none]

theorem relogging_run : (LTS.replay (step (program config)) (State.init : State Bool (Pc Unit) _)
    relogging).isSome := rfl

theorem lock_comes_back_relogging : ∃ ls s', ((logging config).guard fun _ l =>
    ∃ x, l = .run false x none).Run ((LTS.replay (step (program config))
      (State.init : State Bool (Pc Unit) _) relogging).get relogging_run) ls s' ∧
    ls.length ≤ 2 ∧ (s'.owner = none ∨ s'.data.aborted = true) :=
  (lock_comes_back config _ (LTS.reachable_replay (· = State.init) rfl relogging_run) false rfl
    rfl).1 rfl

end Reckoning.L2.Logging
