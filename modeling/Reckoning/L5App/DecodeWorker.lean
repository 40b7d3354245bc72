import Reckoning.Core.Bytes
import Reckoning.Core.MonitorLive

/-!
# The decoder's thread

`include/image/Decoder.h:43-64`, `lib/image/Decoder.cpp:19-28, :198-242`. Any
number of threads call `decode`; the decoder's own thread waits for jobs, takes
all of them, and resolves each with the image that its format's codec makes of
its data. The destructor sets `mStopped`, notifies and joins. Jobs that the
thread takes after that are dropped: their promises are never resolved.

The codecs are a parameter; `L5App.Decoder` has their use of memory, and
`L5App.JobPool` the pool of the jobs and what becomes of their promises. A `Job`
here is one call of `decode`. `ticket`, `submitted`, `resolved` and `dropped` are
ghosts.

* `Books`, `inductive_asserted`: where each job is, in every interleaving.
* `jobs_in_order`: each is resolved once, in order, with its own image.
* `destroyed_drops`: what `mStopped` leaves to be resolved.
* `always_ends`: no wakeup is lost and nothing is stuck, without a timeout.
-/
namespace Reckoning.L5.DecodeWorker
open Reckoning.Monitor

/-! ## The code -/

/-- mirrors lib/image/Decoder.cpp:9 -/
inductive Format
  | jpeg
  | png
  | webp
  | invalid
  deriving DecidableEq, Repr

/-- `data` has `magic` at `off`. -/
def magicAt (off : Nat) (magic data : Bytes) : Bool := (data.drop off).take magic.length == magic

/-- mirrors lib/image/Decoder.cpp:19-28 -/
def guessFormat (data : Bytes) : Format :=
  if data.length ≥ 4 ∧ magicAt 0 [0o211, 0x50, 0x4e, 0x47] data then .png
  else if data.length ≥ 10 ∧ magicAt 6 [0x4a, 0x46, 0x49, 0x46] data then .jpeg
  else if data.length ≥ 16 ∧ magicAt 8 [0x57, 0x45, 0x42, 0x50, 0x56, 0x50, 0x38] data then .webp
  else .invalid

/-- mirrors include/image/Decoder.h:43-48 -/
structure Job where
  ticket : Nat
  data : Bytes
  pitchMultiple : UInt32
  deriving DecidableEq, Repr

variable {V : Type}

/-- `decodeJPEG`, `decodePNG`, `decodeWEBP` and `{}`. -/
structure Codecs (V : Type) where
  jpeg : Bytes → UInt32 → V
  png : Bytes → UInt32 → V
  webp : Bytes → UInt32 → V
  none : V

/-- mirrors lib/image/Decoder.cpp:213-227 -/
def Codecs.image (codecs : Codecs V) (job : Job) : V :=
  match guessFormat job.data with
  | .jpeg => codecs.jpeg job.data job.pitchMultiple
  | .png => codecs.png job.data job.pitchMultiple
  | .webp => codecs.webp job.data job.pitchMultiple
  | .invalid => codecs.none

structure Data (V : Type) where
  mJobs : List Job
  mStopped : Bool
  /-- the decoder's thread has returned -/
  ended : Bool
  /-- the jobs resolved, with their images -/
  resolved : List (Job × V)
  dropped : List Job
  submitted : List Job

def Data.init : Data V := ⟨[], false, false, [], [], []⟩

/-- Where a thread that uses the decoder is.
mirrors include/image/Decoder.h:54-64, lib/image/Decoder.cpp:233-242 -/
inductive Caller
  | idle
  | decode (data : Bytes) (pitchMultiple : UInt32)
  | push (data : Bytes) (pitchMultiple : UInt32)
  | destroy
  | set
  | notify (joins : Bool)
  | unlock (joins : Bool)
  | join
  deriving DecidableEq, Repr

/-- Where the decoder's thread is. mirrors lib/image/Decoder.cpp:200-229 -/
inductive Worker
  | lock
  /-- `while (mJobs.empty() && !mStopped)` -/
  | test
  /-- `wait` is about to return -/
  | woken
  | take
  /-- `if (mStopped)` -/
  | check (jobs : List Job)
  /-- `return` with the lock held -/
  | leave
  | unlock (jobs : List Job)
  | resolve (jobs : List Job)
  | returned
  deriving DecidableEq, Repr

inductive Pc
  | caller (c : Caller)
  | worker (w : Worker)
  deriving DecidableEq, Repr

inductive Choice
  | go
  | decode (data : Bytes) (pitchMultiple : UInt32)
  | destroy
  deriving DecidableEq, Repr

/-- mirrors include/image/Decoder.h:54-64, lib/image/Decoder.cpp:233-242 -/
def callerNext (d : Data V) : Caller → Choice → Option (Op × Caller × Data V)
  | .idle, .decode data p => some (.plain, .decode data p, d)
  | .idle, .destroy => some (.plain, .destroy, d)
  | .decode data p, .go => some (.lock, .push data p, d)
  | .push data p, .go =>
    let job : Job := ⟨d.submitted.length, data, p⟩
    some (.plain, .notify false,
      { d with mJobs := d.mJobs ++ [job], submitted := d.submitted ++ [job] })
  | .destroy, .go => some (.lock, .set, d)
  | .set, .go => some (.plain, .notify true, { d with mStopped := true })
  | .notify joins, .go => some (.notify, .unlock joins, d)
  | .unlock joins, .go => some (.unlock, if joins then .join else .idle, d)
  | .join, .go => if d.ended then some (.plain, .idle, d) else none
  | _, _ => none

/-- mirrors lib/image/Decoder.cpp:200-229 -/
def workerNext (codecs : Codecs V) (d : Data V) : Worker → Option (Op × Worker × Data V)
  | .lock => some (.lock, .test, d)
  | .test =>
    if d.mJobs.isEmpty && !d.mStopped then some (.wait, .woken, d) else some (.plain, .take, d)
  | .woken => some (.lock, .test, d)
  | .take => some (.plain, .check d.mJobs, { d with mJobs := [] })
  | .check jobs =>
    if d.mStopped then some (.plain, .leave, { d with dropped := jobs })
    else some (.plain, .unlock jobs, d)
  | .leave => some (.unlock, .returned, { d with ended := true })
  | .unlock jobs => some (.unlock, .resolve jobs, d)
  | .resolve (job :: rest) =>
    some (.plain, .resolve rest, { d with resolved := d.resolved ++ [(job, codecs.image job)] })
  | .resolve [] => some (.plain, .lock, d)
  | .returned => none

def next (codecs : Codecs V) : Pc → Data V → Choice → Option (Op × Pc × Data V)
  | .caller c, d, x => (callerNext d c x).map fun (op, c, d) => (op, .caller c, d)
  | .worker w, d, .go => (workerNext codecs d w).map fun (op, w, d) => (op, .worker w, d)
  | .worker _, _, _ => none

/-- The thread holds `mMutex`. -/
def inside : Pc → Bool
  | .caller (.push _ _) | .caller .set | .caller (.notify _) | .caller (.unlock _) => true
  | .worker .test | .worker .take | .worker (.check _) | .worker .leave => true
  | .worker (.unlock _) => true
  | _ => false

def program (codecs : Codecs V) : Program Pc (Data V) Choice := ⟨next codecs, inside⟩

variable {T : Type} [DecidableEq T]

/-- `me` is the decoder's thread. -/
def State.init (me : T) : State T Pc (Data V) where
  owner := none
  asleep := []
  pc t := if t = me then .worker .lock else .caller .idle
  data := .init

def decoder (codecs : Codecs V) (me : T) : LTS (State T Pc (Data V)) (Label T Choice) :=
  system (program codecs) (· = State.init me)

/-! ## One statement -/

/-- The jobs that will be resolved. -/
def Worker.pending : Worker → List Job
  | .unlock jobs | .resolve jobs => jobs
  | _ => []

/-- The jobs that have been taken while `mStopped` has not been looked at. -/
def Worker.grabbed : Worker → List Job
  | .check jobs => jobs
  | _ => []

variable {codecs : Codecs V} {d d' : Data V} {op : Op} {x : Choice}

/-- A statement of a caller. -/
inductive CallerStep (d : Data V) : Caller → Op → Caller → Data V → Prop
  | moves {c c' : Caller} {op : Op} (keeps : op.Keeps (inside (.caller c)) (inside (.caller c')))
      (awake : op ≠ .wait) : CallerStep d c op c' d
  | push (data : Bytes) (p : UInt32) :
      CallerStep d (.push data p) .plain (.notify false)
        { d with
          mJobs := d.mJobs ++ [⟨d.submitted.length, data, p⟩]
          submitted := d.submitted ++ [⟨d.submitted.length, data, p⟩] }
  | set : CallerStep d .set .plain (.notify true) { d with mStopped := true }

theorem callerNext_spec {c c' : Caller} (h : callerNext d c x = some (op, c', d')) :
    CallerStep d c op c' d' := by
  unfold callerNext at h
  split at h
  case h_1 | h_2 => cases h; exact .moves rfl nofun
  case h_3 | h_5 => cases h; exact .moves ⟨rfl, rfl⟩ nofun
  case h_4 => cases h; exact .push _ _
  case h_6 => cases h; exact .set
  case h_7 => cases h; exact .moves rfl nofun
  case h_8 => cases h; refine .moves ⟨rfl, ?_⟩ nofun; split <;> rfl
  case h_9 =>
    split at h <;> cases h
    exact .moves rfl nofun
  case h_10 => cases h

/-- A statement of the decoder's thread. -/
inductive WorkerStep (codecs : Codecs V) (d : Data V) : Worker → Op → Worker → Data V → Prop
  | lock : WorkerStep codecs d .lock .lock .test d
  | wait (hjobs : d.mJobs = []) (hrun : d.mStopped = false) :
      WorkerStep codecs d .test .wait .woken d
  | found (hwork : d.mJobs ≠ [] ∨ d.mStopped = true) : WorkerStep codecs d .test .plain .take d
  | woken : WorkerStep codecs d .woken .lock .test d
  | take : WorkerStep codecs d .take .plain (.check d.mJobs) { d with mJobs := [] }
  | drop (jobs : List Job) (hstop : d.mStopped = true) :
      WorkerStep codecs d (.check jobs) .plain .leave { d with dropped := jobs }
  | keep (jobs : List Job) (hrun : d.mStopped = false) :
      WorkerStep codecs d (.check jobs) .plain (.unlock jobs) d
  | leave : WorkerStep codecs d .leave .unlock .returned { d with ended := true }
  | unlock (jobs : List Job) : WorkerStep codecs d (.unlock jobs) .unlock (.resolve jobs) d
  | resolve (job : Job) (rest : List Job) :
      WorkerStep codecs d (.resolve (job :: rest)) .plain (.resolve rest)
        { d with resolved := d.resolved ++ [(job, codecs.image job)] }
  | again : WorkerStep codecs d (.resolve []) .plain .lock d

theorem workerNext_spec {w w' : Worker} (h : workerNext codecs d w = some (op, w', d')) :
    WorkerStep codecs d w op w' d' := by
  unfold workerNext at h
  split at h
  case h_1 => cases h; exact .lock
  case h_2 =>
    split at h <;> cases h <;> rename_i hc
    · rw [Bool.and_eq_true, List.isEmpty_iff, Bool.not_eq_true'] at hc
      exact .wait hc.1 hc.2
    · refine .found ?_
      rw [Bool.and_eq_true, List.isEmpty_iff, Bool.not_eq_true', not_and_or] at hc
      simpa using hc
  case h_3 => cases h; exact .woken
  case h_4 => cases h; exact .take
  case h_5 =>
    split at h <;> cases h
    · exact .drop _ ‹_›
    · exact .keep _ (Bool.eq_false_iff.mpr ‹_›)
  case h_6 => cases h; exact .leave
  case h_7 => cases h; exact .unlock _
  case h_8 => cases h; exact .resolve _ _
  case h_9 => cases h; exact .again
  case h_10 => cases h

theorem next_caller {c : Caller} {pc' : Pc}
    (h : (program codecs).next (.caller c) d x = some (op, pc', d')) :
    ∃ c', pc' = .caller c' ∧ CallerStep d c op c' d' := by
  obtain ⟨⟨op, c', d'⟩, h, heq⟩ := Option.map_eq_some_iff.mp h
  cases heq
  exact ⟨c', rfl, callerNext_spec h⟩

theorem next_worker {w : Worker} {pc' : Pc}
    (h : (program codecs).next (.worker w) d x = some (op, pc', d')) :
    ∃ w', pc' = .worker w' ∧ WorkerStep codecs d w op w' d' := by
  cases x with
  | go =>
    obtain ⟨⟨op, w', d'⟩, h, heq⟩ := Option.map_eq_some_iff.mp h
    cases heq
    exact ⟨w', rfl, workerNext_spec h⟩
  | decode | destroy => cases h

theorem disciplined (codecs : Codecs V) : Disciplined (program codecs) := by
  intro pc d x op pc' d' h
  cases pc with
  | caller c =>
    obtain ⟨c', rfl, hstep⟩ := next_caller h
    cases hstep with
    | moves hk => exact hk
    | push | set => rfl
  | worker w =>
    obtain ⟨w', rfl, hstep⟩ := next_worker h
    cases hstep with
    | lock | wait | woken | leave | unlock => exact ⟨rfl, rfl⟩
    | found | take | drop | keep | resolve | again => rfl

/-! ## Where each job is -/

/-- The jobs resolved. -/
def Data.done (d : Data V) : List Job := d.resolved.map Prod.fst

/-- Every job is resolved, in hand, dropped or waiting, in the order of `decode`. -/
structure Books (codecs : Codecs V) (w : Worker) (d : Data V) : Prop where
  order : d.done ++ w.pending ++ w.grabbed ++ d.dropped ++ d.mJobs = d.submitted
  images : ∀ y ∈ d.resolved, y.2 = codecs.image y.1
  tickets : d.submitted.map Job.ticket = List.range d.submitted.length

/-- The thread returns. -/
def Worker.leaving : Worker → Bool
  | .leave | .returned => true
  | _ => false

/-- What is true at each place of the decoder's thread. -/
structure At (codecs : Codecs V) (w : Worker) (d : Data V) : Prop where
  books : Books codecs w d
  kept : w.leaving = false → d.dropped = []
  stopped : w.leaving = true → d.mStopped = true
  taking : w = .take → d.mJobs ≠ [] ∨ d.mStopped = true
  ended : d.ended = true ↔ w = .returned

theorem at_worker {w w' : Worker} (ha : At codecs w d) (h : WorkerStep codecs d w op w' d') :
    At codecs w' d' := by
  obtain ⟨⟨horder, himages, htickets⟩, hkept, hstopped, htaking, hended⟩ := ha
  cases h with
  | lock | wait | woken | again =>
    exact ⟨⟨horder, himages, htickets⟩, hkept, nofun, nofun, by simpa using hended⟩
  | found hwork => exact ⟨⟨horder, himages, htickets⟩, hkept, nofun, fun _ => hwork, by simpa using hended⟩
  | take =>
    have hdropped := hkept rfl
    refine ⟨⟨?_, himages, htickets⟩, hkept, nofun, nofun, by simpa using hended⟩
    simpa [Worker.pending, Worker.grabbed, hdropped, Data.done] using horder
  | drop jobs hstop =>
    have hdropped := hkept rfl
    refine ⟨⟨?_, himages, htickets⟩, nofun, fun _ => hstop, nofun, by simpa using hended⟩
    simpa [Worker.pending, Worker.grabbed, hdropped, Data.done] using horder
  | keep jobs hrun =>
    refine ⟨⟨?_, himages, htickets⟩, hkept, nofun, nofun, by simpa using hended⟩
    simpa [Worker.pending, Worker.grabbed] using horder
  | leave => exact ⟨⟨horder, himages, htickets⟩, nofun, hstopped, nofun, by simp⟩
  | unlock jobs =>
    exact ⟨⟨horder, himages, htickets⟩, hkept, nofun, nofun, by simpa using hended⟩
  | resolve job rest =>
    refine ⟨⟨?_, ?_, htickets⟩, hkept, nofun, nofun, by simpa using hended⟩
    · simpa [Worker.pending, Worker.grabbed, Data.done] using horder
    · intro y hy
      rcases List.mem_append.mp hy with hy | hy
      · exact himages y hy
      · obtain rfl := List.mem_singleton.mp hy
        rfl

theorem at_caller {w : Worker} {c c' : Caller} (ha : At codecs w d) (h : CallerStep d c op c' d') :
    At codecs w d' := by
  obtain ⟨⟨horder, himages, htickets⟩, hkept, hstopped, htaking, hended⟩ := ha
  cases h with
  | moves => exact ⟨⟨horder, himages, htickets⟩, hkept, hstopped, htaking, hended⟩
  | push data p =>
    refine ⟨⟨?_, himages, ?_⟩, hkept, hstopped, fun _ => .inl (by simp), hended⟩
    · simp [← horder, Data.done]
    · simp [htickets, List.range_succ]
  | set => exact ⟨⟨horder, himages, htickets⟩, hkept, fun _ => rfl, fun _ => .inr rfl, hended⟩

/-! ## All threads -/

/-- `me` is the decoder's thread. -/
def Holds (codecs : Codecs V) (me : T) (t : T) : Pc → Data V → Prop
  | .worker w, d => t = me ∧ At codecs w d
  | .caller _, _ => t ≠ me

omit [DecidableEq T] in
theorem outline (codecs : Codecs V) (me : T) :
    Outline (program codecs) (fun _ _ _ => True) (Holds codecs me) where
  own t pc d x op pc' d' _ hn ha := by
    cases pc with
    | caller c =>
      obtain ⟨c', rfl, -⟩ := next_caller hn
      exact ha
    | worker w =>
      obtain ⟨w', rfl, hstep⟩ := next_worker hn
      exact ⟨ha.1, at_worker ha.2 hstep⟩
  other t u pc q d x op pc' d' hut _ hn _ ht hu := by
    cases q with
    | caller => exact hu
    | worker w =>
      cases pc with
      | caller c =>
        obtain ⟨c', rfl, hstep⟩ := next_caller hn
        exact ⟨hu.1, at_caller hu.2 hstep⟩
      | worker => exact absurd (hu.1.trans ht.1.symm) hut

theorem at_init : At codecs .lock (Data.init : Data V) where
  books := ⟨rfl, by simp [Data.init], rfl⟩
  kept _ := rfl
  stopped := nofun
  taking := nofun
  ended := ⟨nofun, nofun⟩

theorem inductive_asserted (codecs : Codecs V) (me : T) :
    (decoder codecs me).Inductive (Asserted (program codecs) (Holds codecs me)) := by
  refine (outline codecs me).holds (disciplined codecs) fun s hs => ?_
  subst hs
  constructor
  · intro t
    by_cases ht : t = me <;> simp [State.init, ht, program, inside]
  · intro t
    by_cases ht : t = me
    · simpa [State.init, ht, Holds] using at_init
    · simp [State.init, ht, Holds]

omit [DecidableEq T] in
theorem asserted_me {me : T} {s : State T Pc (Data V)}
    (h : Asserted (program codecs) (Holds codecs me) s) :
    ∃ w, s.pc me = .worker w ∧ At codecs w s.data := by
  have hme := h.holds me
  cases hpc : s.pc me with
  | caller => rw [hpc] at hme; exact absurd rfl hme
  | worker w => rw [hpc] at hme; exact ⟨w, rfl, hme.2⟩

/-- What the decoder's thread will resolve. -/
def inHand : Pc → List Job
  | .worker w => w.pending
  | .caller _ => []

/-- What it has taken before it has looked at `mStopped`. -/
def grabbed : Pc → List Job
  | .worker w => w.grabbed
  | .caller _ => []

/-- **In order, each once.** In every interleaving, what is resolved, then what
is in hand, are the first calls of `decode` in the order of the lock, and each
resolved one has the image of its own data. Until `mStopped` is set the others
have been taken or are waiting. -/
theorem jobs_in_order (codecs : Codecs V) (me : T) (s : State T Pc (Data V))
    (hr : (decoder codecs me).Reachable s) :
    s.data.done ++ inHand (s.pc me) <+: s.data.submitted ∧ s.data.submitted.Nodup ∧
      (∀ y ∈ s.data.resolved, y.2 = codecs.image y.1) ∧
      (s.data.mStopped = false →
        s.data.done ++ inHand (s.pc me) ++ grabbed (s.pc me) ++ s.data.mJobs = s.data.submitted) := by
  obtain ⟨w, hpc, ha⟩ := asserted_me ((inductive_asserted codecs me).reachable s hr)
  have horder := ha.books.order
  rw [hpc]
  refine ⟨⟨w.grabbed ++ (s.data.dropped ++ s.data.mJobs), ?_⟩,
    .of_map Job.ticket (ha.books.tickets ▸ List.nodup_range), ha.books.images, fun hrun => ?_⟩
  · simpa only [inHand, List.append_assoc] using horder
  · have hleaving : w.leaving = false := Bool.eq_false_iff.mpr fun hl =>
      Bool.false_ne_true (hrun.symm.trans (ha.stopped hl))
    rwa [ha.kept hleaving, List.append_nil] at horder

/-! ## After the destructor has set `mStopped` -/

theorem stopped_step {me : T} {s s' : State T Pc (Data V)} {l : Label T Choice}
    (hi : Asserted (program codecs) (Holds codecs me) s)
    (hs : step (program codecs) s l = some s') (hstop : s.data.mStopped = true) :
    s'.data.done ++ inHand (s'.pc me) = s.data.done ++ inHand (s.pc me) ∧
      s'.data.mStopped = true := by
  cases l with
  | wake t =>
    obtain ⟨-, rfl⟩ := step_wake hs
    exact ⟨rfl, hstop⟩
  | run t x woken =>
    obtain ⟨op, hran⟩ := step_run hs
    have hnext := hran.next
    have hown := hi.holds t
    generalize s'.data = d' at hnext
    cases hpc : s.pc t with
    | caller c =>
      rw [hpc] at hnext hown
      obtain ⟨c', -, hstep⟩ := next_caller hnext
      rw [hran.others me (Ne.symm hown)]
      cases hstep with
      | moves | push => exact ⟨rfl, hstop⟩
      | set => exact ⟨rfl, rfl⟩
    | worker w =>
      rw [hpc] at hnext hown
      obtain ⟨w', hpc', hstep⟩ := next_worker hnext
      obtain ⟨rfl, ha⟩ := hown
      rw [hpc, hpc']
      cases hstep with
      | keep jobs hrun => exact absurd hrun (by simp [hstop])
      | resolve job rest => exact ⟨by simp [Data.done, inHand, Worker.pending], hstop⟩
      | lock | wait | found | woken | take | drop | leave | unlock | again => exact ⟨rfl, hstop⟩

/-- **The destructor drops what is waiting.** From the flag on, exactly the jobs
in hand are still resolved; none of the others is, whatever follows. -/
theorem destroyed_drops (codecs : Codecs V) (me : T) {s s' : State T Pc (Data V)}
    {ls : List (Label T Choice)} (hr : (decoder codecs me).Reachable s)
    (hstop : s.data.mStopped = true) (hrun : (decoder codecs me).Run s ls s') :
    s'.data.done ++ inHand (s'.pc me) = s.data.done ++ inHand (s.pc me) := by
  have hi := (inductive_asserted codecs me).reachable s hr
  refine (hrun.preserves (I := fun s₁ => Asserted (program codecs) (Holds codecs me) s₁ ∧
    s₁.data.mStopped = true ∧
    s₁.data.done ++ inHand (s₁.pc me) = s.data.done ++ inHand (s.pc me)) ?_ ⟨hi, hstop, rfl⟩).2.2
  intro s₁ l s₂ ⟨h₁, hstop₁, heq⟩ hs
  obtain ⟨heq', hstop'⟩ := stopped_step h₁ hs hstop₁
  exact ⟨(inductive_asserted codecs me).step s₁ l s₂ h₁ hs, hstop', heq'.trans heq⟩

/-! ## Getting on -/

/-- A step of the decoder's thread, of one inside the lock or of one in the destructor. -/
def Helps (me : T) (s : State T Pc (Data V)) : Label T Choice → Prop
  | .run t x _ => (t = me ∨ inside (s.pc t) = true ∨ s.pc t = .caller .destroy) ∧ x = .go
  | .wake _ => False

/-- For the thread that holds the lock, until it unlocks. A push makes work for
the decoder's thread. -/
def Caller.cost : Caller → Nat
  | .push _ _ => 11
  | .set => 3
  | .notify _ => 2
  | .unlock _ => 1
  | _ => 0

/-- For the decoder's thread, until it locks. -/
def Worker.cost (stopped : Bool) : Worker → Nat
  | .lock | .woken => 5
  | .test => 4
  | .take => 3
  | .check jobs => if stopped then 2 else 8 + jobs.length
  | .leave => 1
  | .unlock jobs => 7 + jobs.length
  | .resolve jobs => 6 + jobs.length
  | .returned => 0

def Pc.cost : Pc → Nat
  | .caller c => c.cost
  | .worker _ => 0

def Pc.left : Pc → Data V → Nat
  | .worker w, d => w.cost d.mStopped + 8 * d.mJobs.length
  | .caller _, _ => 0

/-- The decoder's thread would wait. -/
def Idle (d : Data V) : Prop := d.mJobs = [] ∧ d.mStopped = false

theorem progress_worker {w : Worker} (ha : At codecs w d) (hret : w ≠ .returned)
    (hwork : w = .test → ¬ Idle d) :
    ∃ op w' d', workerNext codecs d w = some (op, w', d') ∧ (op ≠ .wait ∧ op ≠ .notify) ∧
      (Pc.worker w').left d' < (Pc.worker w).left d := by
  cases w with
  | lock | woken | leave | unlock =>
    exact ⟨_, _, _, rfl, by simp, by simp [Pc.left, Worker.cost]⟩
  | test =>
    refine ⟨.plain, .take, d, ?_, by simp, by simp [Pc.left, Worker.cost]⟩
    simpa [workerNext, Idle] using hwork rfl
  | take =>
    refine ⟨_, _, _, rfl, by simp, ?_⟩
    simp only [Pc.left, Worker.cost, List.length_nil]
    split
    · omega
    · have hpos := List.length_pos_iff.mpr ((ha.taking rfl).resolve_right ‹_›)
      omega
  | check jobs =>
    cases hstop : d.mStopped with
    | true => exact ⟨.plain, .leave, { d with dropped := jobs }, by simp [workerNext, hstop],
        by simp, by simp [Pc.left, Worker.cost, hstop]⟩
    | false => exact ⟨.plain, .unlock jobs, d, by simp [workerNext, hstop], by simp,
        by simp [Pc.left, Worker.cost, hstop]⟩
  | resolve jobs =>
    cases jobs <;> exact ⟨_, _, _, rfl, by simp, by simp [Pc.left, Worker.cost]⟩
  | returned => exact absurd rfl hret

/-- A caller that holds the lock, at its next statement. -/
theorem progress_caller {c : Caller} (hin : inside (.caller c) = true) (w : Worker) (d : Data V) :
    ∃ op c' d', callerNext d c .go = some (op, c', d') ∧ (op ≠ .wait ∧ op ≠ .lock) ∧
      (Pc.worker w).left d' + c'.cost < (Pc.worker w).left d + c.cost := by
  cases c with
  | push => exact ⟨_, _, _, rfl, by simp, by simp [Pc.left, Caller.cost]; omega⟩
  | set =>
    refine ⟨_, _, _, rfl, by simp, ?_⟩
    have hle : w.cost true ≤ w.cost d.mStopped := by
      cases d.mStopped with
      | true => exact Nat.le_refl _
      | false =>
        cases w <;> simp only [Worker.cost, Nat.le_refl]
        simp
        omega
    simp only [Pc.left, Caller.cost]
    omega
  | notify => exact ⟨_, _, _, rfl, by simp, by simp [Caller.cost]⟩
  | unlock joins => exact ⟨_, _, _, rfl, by simp, by cases joins <;> simp [Caller.cost]⟩
  | idle | decode | destroy | join => cases hin

/-- The place after `wait`. -/
def woken : Pc → Bool
  | .worker .woken => true
  | _ => false

theorem waits_woken (codecs : Codecs V) : Waits (program codecs) woken := by
  intro pc d x op pc' d' h
  cases pc with
  | caller c =>
    obtain ⟨c', rfl, hstep⟩ := next_caller h
    refine ⟨?_, nofun⟩
    rintro rfl
    cases hstep with
    | moves hk hawake => exact absurd rfl hawake
  | worker w =>
    obtain ⟨w', rfl, hstep⟩ := next_worker h
    cases hstep with
    | wait => exact ⟨fun _ => rfl, nofun⟩
    | woken => exact ⟨nofun, fun _ => rfl⟩
    | lock | found | take | drop | keep | leave | unlock | resolve | again => exact ⟨nofun, nofun⟩

/-- The place before `notify_one`. -/
def tells : Pc → Bool
  | .caller (.notify _) => true
  | _ => false

theorem notifies_tells (codecs : Codecs V) :
    Notifies (program codecs) Idle tells where
  wait pc d x pc' d' h := by
    cases pc with
    | caller c =>
      obtain ⟨c', rfl, hstep⟩ := next_caller h
      cases hstep with
      | moves hk hawake => exact absurd rfl hawake
    | worker w =>
      obtain ⟨w', rfl, hstep⟩ := next_worker h
      cases hstep with
      | wait hjobs hrun => exact ⟨hjobs, hrun⟩
  makes pc d x op pc' d' h hidle hbusy := by
    cases pc with
    | caller c =>
      obtain ⟨c', rfl, hstep⟩ := next_caller h
      cases hstep with
      | push | set => rfl
      | moves => exact absurd hidle hbusy
    | worker w =>
      obtain ⟨w', rfl, hstep⟩ := next_worker h
      cases hstep with
      | take => exact absurd ⟨rfl, hidle.2⟩ hbusy
      | lock | wait | found | woken | drop | keep | leave | unlock | resolve | again =>
        exact absurd hidle hbusy
  tells pc d x op pc' d' h ht := by
    cases pc with
    | caller c => cases c <;> cases x <;> simp_all [program, next, callerNext, tells]
    | worker => cases ht

/-- What holds of every reachable state. -/
structure Sound (codecs : Codecs V) (me : T) (s : State T Pc (Data V)) : Prop where
  asserted : Asserted (program codecs) (Holds codecs me) s
  sleeping : Sleeping woken s
  prompt : Prompt Idle tells s

variable {me : T} {s s' : State T Pc (Data V)}

omit [DecidableEq T] in
theorem Sound.one (h : Sound codecs me s) : s.asleep.length ≤ 1 := by
  refine h.sleeping.one me fun t ht => ?_
  have hown := h.asserted.holds t
  cases hpc : s.pc t with
  | caller => rw [hpc] at ht; cases ht
  | worker => rw [hpc] at hown; exact hown.1

theorem inside_of_tells (pc : Pc) (h : tells pc = true) : inside pc = true := by
  cases pc with
  | caller c => cases c <;> first | rfl | cases h
  | worker => cases h

theorem inductive_sound (codecs : Codecs V) (me : T) :
    (decoder codecs me).Inductive (Sound codecs me) where
  init s hs := by
    refine ⟨(inductive_asserted codecs me).init s hs, ?_, ?_⟩
    · subst hs
      exact ⟨.nil, nofun⟩
    · subst hs
      exact fun hne => absurd rfl hne
  step s l s' hi hs :=
    ⟨(inductive_asserted codecs me).step s l s' hi.asserted hs,
      sleeping_step (waits_woken codecs) hi.sleeping hs,
      prompt_step (notifies_tells codecs) hi.prompt hi.one hs⟩

/-- The decoder's thread has ended, or it is not to stop and everything is
resolved. -/
def Finished (me : T) (s : State T Pc (Data V)) : Prop :=
  s.pc me = .worker .returned ∨ s.data.mStopped = false ∧ s.data.done = s.data.submitted

omit [DecidableEq T] in
/-- With nothing to do everything would be resolved. -/
theorem not_idle {w : Worker} (ha : At codecs w s.data) (hd : ¬ Finished me s)
    (hw : w = .test ∨ w = .woken) : ¬ Idle s.data := by
  intro ⟨hnil, hrun⟩
  refine hd (.inr ⟨hrun, ?_⟩)
  rcases hw with rfl | rfl <;>
    simpa [hnil, ha.kept rfl, Worker.pending, Worker.grabbed] using ha.books.order

omit [DecidableEq T] in
theorem woken_of_asleep {w : Worker} (hi : Sound codecs me s) (hw : s.pc me = .worker w)
    (hasleep : me ∈ s.asleep) : w = .woken := by
  have hwaits := hi.sleeping.waits me hasleep
  rw [hw] at hwaits
  cases w <;> first | rfl | cases hwaits

omit [DecidableEq T] in
/-- The thread does not sleep while there is something to do, unless somebody
else holds the lock. -/
theorem awake (hi : Sound codecs me s) (hown : ∀ t, s.owner = some t → t = me)
    (hd : ¬ Finished me s) : me ∉ s.asleep := by
  intro hasleep
  obtain ⟨w, hpc, ha⟩ := asserted_me hi.asserted
  obtain rfl := woken_of_asleep hi hpc hasleep
  have hawake := hi.prompt.awake hi.asserted.exclusive inside_of_tells (fun t ht => by
    rw [hown t ht, hpc]; rfl) (not_idle ha hd (.inr rfl))
  exact List.ne_nil_of_mem hasleep hawake

/-- A caller inside the lock gets on. -/
theorem progress_inside {t : T} (hi : Sound codecs me s) (hown : s.owner = some t) (hne : t ≠ me) :
    Progress (program codecs) (Helps me) me Pc.left Pc.cost s := by
  obtain ⟨w, hw, -⟩ := asserted_me hi.asserted
  have ht := hi.asserted.holds t
  cases hpc : s.pc t with
  | worker => rw [hpc] at ht; exact absurd ht.1 hne
  | caller c =>
    have hin : inside (.caller c) = true := hpc ▸ (hi.asserted.exclusive t).mp hown
    obtain ⟨op, c', d', hnext, hop, hlt⟩ := progress_caller hin w s.data
    refine progress_other (l := .go) (p := .caller c') (d := d') hown hne ?_ (fun _ => ?_) hop ?_
    · simp [program, next, hpc, hnext]
    · exact ⟨.inr (.inl (hpc ▸ hin)), rfl⟩
    · simpa only [hw, hpc, Pc.cost] using hlt

/-- The decoder's thread gets on when nobody is in its way. -/
theorem progress_own {w : Worker} (hi : Sound codecs me s) (hw : s.pc me = .worker w)
    (hown : ∀ t, s.owner = some t → t = me) (hawake : me ∉ s.asleep) (hret : w ≠ .returned)
    (hwork : w = .test → ¬ Idle s.data) :
    Progress (program codecs) (Helps me) me Pc.left Pc.cost s := by
  obtain ⟨w', hw', ha⟩ := asserted_me hi.asserted
  cases hw.symm.trans hw'
  obtain ⟨op, w', d', hnext, hop, hlt⟩ := progress_worker ha hret hwork
  refine progress_me (l := .go) (p := .worker w') (d := d') (disciplined codecs)
    hi.asserted.exclusive hawake hown ?_ ⟨.inl rfl, rfl⟩ hop ?_
  · simp [program, next, hw, hnext]
  · simpa only [hw] using hlt

theorem progress (hi : Sound codecs me s) (hd : ¬ Finished me s) :
    Progress (program codecs) (Helps me) me Pc.left Pc.cost s := by
  obtain ⟨w, hw, ha⟩ := asserted_me hi.asserted
  by_cases hother : ∃ t, s.owner = some t ∧ t ≠ me
  · obtain ⟨t, hown, hne⟩ := hother
    exact progress_inside hi hown hne
  · have hown : ∀ t, s.owner = some t → t = me := fun t ht =>
      Classical.byContradiction fun hne => hother ⟨t, ht, hne⟩
    refine progress_own hi hw hown (awake hi hown hd) (fun hret => ?_) fun htest => ?_
    · exact hd (.inl (hw.trans (hret ▸ rfl)))
    · exact not_idle ha hd (.inl htest)

theorem finishes (hi : Sound codecs me s) :
    ∃ ls s', ((decoder codecs me).guard (Helps me)).Run s ls s' ∧
      ls.length ≤ todo me Pc.left Pc.cost s ∧ Finished me s' ∧ Sound codecs me s' := by
  refine LTS.drains (fun s hi hd => ?_) s hi
  obtain ⟨l, s', hc, hs, hlt⟩ := progress hi hd
  exact ⟨l, s', hc, hs, (inductive_sound codecs me).step s l s' hi hs, hlt⟩

/-! ## In the destructor -/

/-- `t` is in the destructor and waits for the lock, or has it, or `mStopped` is set. -/
def Ending (t : T) (s : State T Pc (Data V)) : Prop :=
  s.data.mStopped = true ∨ s.pc t = .caller .destroy ∨ s.pc t = .caller .set

/-- What is left until `t` has the lock, apart from what the owner has to do anyway: its `wait`
makes work for it. -/
def entering (t : T) (s : State T Pc (Data V)) : Nat :=
  if s.pc t = .caller .destroy then if s.owner = none then 4 else 7 else 0

omit [DecidableEq T] in
theorem entering_le (t : T) (s : State T Pc (Data V)) : entering t s ≤ 7 := by
  unfold entering
  split
  · split <;> decide
  · decide

theorem not_destroy {c : Caller} : callerNext d c .go ≠ some (op, .destroy, d') := by
  intro h
  cases c with
  | unlock joins => cases joins <;> cases h
  | join =>
    simp only [callerNext] at h
    split at h <;> cases h
  | idle | decode | push | destroy | set | notify => cases h

/-- A step that helps is no new call of the destructor. -/
theorem entering_step {t : T} {l : Label T Choice} (hc : Helps me s l)
    (hs : step (program codecs) s l = some s') (ht : s.pc t ≠ .caller .destroy) :
    s'.pc t ≠ .caller .destroy := by
  cases l with
  | wake => exact absurd hc id
  | run u x woken =>
    obtain rfl := hc.2
    obtain ⟨op, hran⟩ := step_run hs
    by_cases hu : t = u
    · subst hu
      intro ht'
      have hnext := hran.next
      rw [ht'] at hnext
      cases hpc : s.pc t with
      | caller c =>
        rw [hpc] at hnext
        obtain ⟨⟨op, c', d'⟩, hcaller, heq⟩ := Option.map_eq_some_iff.mp hnext
        cases heq
        exact not_destroy hcaller
      | worker w =>
        rw [hpc] at hnext
        obtain ⟨w', hw', -⟩ := next_worker hnext
        cases hw'
    · rw [hran.others t hu]
      exact ht

theorem ending_step {t : T} {l : Label T Choice} (hi : Sound codecs me s) (h : Ending t s)
    (hc : Helps me s l) (hs : step (program codecs) s l = some s') : Ending t s' := by
  by_cases hstop : s.data.mStopped = true
  · exact .inl (stopped_step hi.asserted hs hstop).2
  · have hplace := h.resolve_left hstop
    cases l with
    | wake => exact absurd hc id
    | run u x woken =>
      obtain rfl := hc.2
      obtain ⟨op, hran⟩ := step_run hs
      by_cases hu : t = u
      · subst hu
        have hnext := hran.next
        rcases hplace with hpc | hpc <;> rw [hpc] at hnext
        · obtain ⟨-, hpair⟩ := Prod.mk.inj (Option.some.inj hnext)
          exact .inr (.inr (Prod.mk.inj hpair).1.symm)
        · obtain ⟨-, hpair⟩ := Prod.mk.inj (Option.some.inj hnext)
          exact .inl ((Prod.mk.inj hpair).2 ▸ rfl)
      · rw [Ending, hran.others t hu]
        exact .inr hplace

/-- The thread in the destructor takes the lock. -/
theorem progress_lock {t : T} (hi : Sound codecs me s) (ht : s.pc t = .caller .destroy)
    (hown : s.owner = none) :
    ∃ l s', Helps me s l ∧ step (program codecs) s l = some s' ∧
      todo me Pc.left Pc.cost s' + entering t s' < todo me Pc.left Pc.cost s + entering t s := by
  have hme : t ≠ me := by
    have hholds := hi.asserted.holds t
    rwa [ht] at hholds
  have hawake : t ∉ s.asleep := fun hasleep => by
    have hwaits := hi.sleeping.waits t hasleep
    rw [ht] at hwaits
    cases hwaits
  refine ⟨.run t .go none, ⟨some t, s.asleep, Function.update s.pc t (.caller .set), s.data⟩,
    ⟨.inr (.inr ht), rfl⟩, ?_, ?_⟩
  · have hnext : (program codecs).next (s.pc t) s.data .go =
        some (.lock, .caller .set, s.data) := by simp [program, next, ht, callerNext]
    exact step_of_next hnext (by simp [perform, hown, hawake])
  · simp [todo, entering, ht, hown, hme, Function.update_of_ne (Ne.symm hme), Pc.cost, Caller.cost]
    omega

/-- The decoder's thread gives the lock away when it has nothing to do. -/
theorem progress_wait {t : T} (ht : s.pc t = .caller .destroy) (hown : s.owner = some me)
    (hme : s.pc me = .worker .test) (hidle : Idle s.data) :
    ∃ l s', Helps me s l ∧ step (program codecs) s l = some s' ∧
      todo me Pc.left Pc.cost s' + entering t s' < todo me Pc.left Pc.cost s + entering t s := by
  obtain ⟨hjobs, hrun⟩ := hidle
  have hne : t ≠ me := fun he => by
    rw [he, hme] at ht
    cases ht
  refine ⟨.run me .go none, ⟨none, me :: s.asleep, Function.update s.pc me (.worker .woken), s.data⟩,
    ⟨.inl rfl, rfl⟩, ?_, ?_⟩
  · have hnext : (program codecs).next (s.pc me) s.data .go =
        some (.wait, .worker .woken, s.data) := by
      simp [program, next, hme, workerNext, hjobs, hrun]
    exact step_of_next hnext (by simp [perform, hown])
  · simp [todo, entering, ht, hown, hme, Function.update_of_ne hne, Pc.left, Worker.cost]
    omega

theorem progress_ending {t : T} (hi : Sound codecs me s) (h : Ending t s)
    (hret : s.pc me ≠ .worker .returned) :
    ∃ l s', Helps me s l ∧ step (program codecs) s l = some s' ∧
      todo me Pc.left Pc.cost s' + entering t s' < todo me Pc.left Pc.cost s + entering t s := by
  obtain ⟨w, hw, ha⟩ := asserted_me hi.asserted
  by_cases ht : s.pc t = .caller .destroy
  · cases hown : s.owner with
    | none => exact progress_lock hi ht hown
    | some o =>
      by_cases hwait : o = me ∧ w = .test ∧ Idle s.data
      · obtain ⟨rfl, rfl, hidle⟩ := hwait
        exact progress_wait ht hown hw hidle
      · have hprogress : Progress (program codecs) (Helps me) me Pc.left Pc.cost s := by
          by_cases ho : o = me
          · subst ho
            have hin : inside (s.pc o) = true := (hi.asserted.exclusive o).mp hown
            refine progress_own hi hw (fun u hu => Option.some.inj (hu.symm.trans hown))
              (fun hasleep => ?_) (fun he => hret (he ▸ hw)) fun htest hidle =>
              hwait ⟨rfl, htest, hidle⟩
            obtain rfl := woken_of_asleep hi hw hasleep
            rw [hw] at hin
            cases hin
          · exact progress_inside hi hown ho
        obtain ⟨l, s', hc, hs, hlt⟩ := hprogress
        have hle := entering_le t s'
        have hseven : entering t s = 7 := by simp [entering, ht, hown]
        exact ⟨l, s', hc, hs, by omega⟩
  · have hprogress : Progress (program codecs) (Helps me) me Pc.left Pc.cost s := by
      rcases h with hstop | hpc | hpc
      · exact progress hi fun hfin => hfin.elim hret fun hrun =>
          Bool.false_ne_true (hrun.1.symm.trans hstop)
      · exact absurd hpc ht
      · have hne : t ≠ me := fun he => by
          rw [← he, hpc] at hw
          cases hw
        exact progress_inside hi ((hi.asserted.exclusive t).mpr (by rw [hpc]; rfl)) hne
    obtain ⟨l, s', hc, hs, hlt⟩ := hprogress
    have hnow : entering t s = 0 := if_neg ht
    have hthen : entering t s' = 0 := if_neg (entering_step hc hs ht)
    exact ⟨l, s', hc, hs, by omega⟩

theorem ends {t : T} (hi : Sound codecs me s) (h : Ending t s) :
    ∃ ls s', ((decoder codecs me).guard (Helps me)).Run s ls s' ∧
      ls.length ≤ todo me Pc.left Pc.cost s + entering t s ∧ s'.pc me = .worker .returned ∧
      Sound codecs me s' := by
  have hstep : ∀ s₁, Sound codecs me s₁ ∧ Ending t s₁ → ¬ s₁.pc me = .worker .returned →
      ∃ l s₂, Helps me s₁ l ∧ (decoder codecs me).step s₁ l s₂ ∧
        (Sound codecs me s₂ ∧ Ending t s₂) ∧
        todo me Pc.left Pc.cost s₂ + entering t s₂ < todo me Pc.left Pc.cost s₁ + entering t s₁ := by
    intro s₁ ⟨hi₁, h₁⟩ hret
    obtain ⟨l, s₂, hc, hs, hlt⟩ := progress_ending hi₁ h₁ hret
    have hi₂ := (inductive_sound codecs me).step s₁ l s₂ hi₁ hs
    exact ⟨l, s₂, hc, hs, ⟨hi₂, ending_step hi₁ h₁ hc hs⟩, hlt⟩
  obtain ⟨ls, s', hrun, hlen, hret, hi', -⟩ := LTS.drains hstep s ⟨hi, h⟩
  exact ⟨ls, s', hrun, hlen, hret, hi'⟩

/-! ## The end -/

/-- The decoder is in use: nobody is in the destructor. -/
structure Using (s : State T Pc (Data V)) : Prop where
  running : s.data.mStopped = false
  nobody : ∀ t, s.pc t ≠ .caller .destroy ∧ s.pc t ≠ .caller .set

theorem using_caller {c c' : Caller} (hx : x = .go) (h : callerNext d c x = some (op, c', d'))
    (hc : c ≠ .destroy ∧ c ≠ .set) :
    (c' ≠ .destroy ∧ c' ≠ .set) ∧ d'.mStopped = d.mStopped ∧ d.submitted <+: d'.submitted := by
  subst hx
  unfold callerNext at h
  split at h
  case h_1 | h_2 => cases ‹Choice.go = _›
  case h_5 => exact absurd rfl hc.1
  case h_6 => exact absurd rfl hc.2
  case h_8 => cases h; exact ⟨by split <;> simp, rfl, List.prefix_rfl⟩
  case h_9 =>
    split at h <;> cases h
    exact ⟨by simp, rfl, List.prefix_rfl⟩
  case h_10 => cases h
  all_goals cases h; exact ⟨by simp, rfl, by simp⟩

theorem using_step {l : Label T Choice} (hi : Sound codecs me s) (h : Using s) (hc : Helps me s l)
    (hs : step (program codecs) s l = some s') :
    Using s' ∧ s.data.submitted <+: s'.data.submitted := by
  cases l with
  | wake => exact absurd hc id
  | run t x woken =>
    obtain ⟨op, hran⟩ := step_run hs
    have hown := hi.asserted.holds t
    have hnobody := h.nobody t
    have hnext := hran.next
    cases hpc : s.pc t with
    | caller c =>
      rw [hpc] at hnext hnobody
      obtain ⟨⟨op, c', d'⟩, hcaller, heq⟩ := Option.map_eq_some_iff.mp hnext
      obtain ⟨-, hpair⟩ := Prod.mk.inj heq
      obtain ⟨hpc', rfl⟩ := Prod.mk.inj hpair
      obtain ⟨hne, hstop, hsub⟩ := using_caller hc.2 hcaller (by simpa using hnobody)
      refine ⟨⟨hstop.trans h.running, fun u => ?_⟩, hsub⟩
      by_cases hut : u = t
      · rw [hut, ← hpc']; simpa using hne
      · rw [hran.others u hut]; exact h.nobody u
    | worker w =>
      rw [hpc] at hnext
      obtain ⟨w', hpc', hstep⟩ := next_worker hnext
      have hdata : s'.data.mStopped = s.data.mStopped ∧ s'.data.submitted = s.data.submitted := by
        generalize s'.data = d' at hstep
        cases hstep <;> exact ⟨rfl, rfl⟩
      refine ⟨⟨hdata.1.trans h.running, fun u => ?_⟩, hdata.2 ▸ List.prefix_rfl⟩
      by_cases hut : u = t
      · rw [hut, hpc']; simp
      · rw [hran.others u hut]; exact h.nobody u

/-- **The decoder always gets on.** From every reachable state, without a timeout
or a spurious wakeup and by steps of its thread, of those inside the lock and of
the destructor's: once the destructor has been called the thread can end, so its
join returns; and while nobody is in the destructor, every job can be resolved. -/
theorem always_ends (codecs : Codecs V) (me : T) (s : State T Pc (Data V))
    (hr : (decoder codecs me).Reachable s) :
    (∀ t, Ending t s → ∃ ls s', ((decoder codecs me).guard (Helps me)).Run s ls s' ∧
      ls.length ≤ todo me Pc.left Pc.cost s + entering t s ∧ s'.data.ended = true) ∧
    (Using s → ∃ ls s', ((decoder codecs me).guard (Helps me)).Run s ls s' ∧
      ls.length ≤ todo me Pc.left Pc.cost s ∧ s.data.submitted <+: s'.data.submitted ∧
      s'.data.resolved = s'.data.submitted.map fun job => (job, codecs.image job)) := by
  have hi := (inductive_sound codecs me).reachable s hr
  constructor
  · intro t hend
    obtain ⟨ls, s', hrun, hlen, hret, hi'⟩ := ends hi hend
    obtain ⟨w, hw, ha⟩ := asserted_me hi'.asserted
    cases hw.symm.trans hret
    exact ⟨ls, s', hrun, hlen, ha.ended.mpr rfl⟩
  · intro huse
    obtain ⟨ls, s', hrun, hlen, hfin, hi'⟩ := finishes hi
    obtain ⟨w, hw, ha⟩ := asserted_me hi'.asserted
    have huse' : Using s' ∧ s.data.submitted <+: s'.data.submitted := by
      refine (hrun.preserves (I := fun s₁ => Sound codecs me s₁ ∧ Using s₁ ∧
        s.data.submitted <+: s₁.data.submitted) ?_ ⟨hi, huse, List.prefix_rfl⟩).2
      intro s₁ l s₂ ⟨hi₁, huse₁, hsub₁⟩ hs
      obtain ⟨hs₂, hsub⟩ := using_step hi₁ huse₁ hs.1 hs.2
      exact ⟨(inductive_sound codecs me).step s₁ l s₂ hi₁ hs.2, hs₂, hsub₁.trans hsub⟩
    have hdone : s'.data.done = s'.data.submitted := by
      refine (hfin.resolve_left fun hret => ?_).2
      cases hw.symm.trans hret
      exact Bool.false_ne_true (huse'.1.running.symm.trans (ha.stopped rfl))
    refine ⟨ls, s', hrun, hlen, huse'.2, ?_⟩
    rw [← hdone, Data.done, List.map_map]
    refine (List.map_id _).symm.trans (List.map_congr_left fun y hy => ?_)
    exact Prod.ext rfl (ha.books.images y hy)

/-! ### One job -/

def noCodecs : Codecs Unit := ⟨fun _ _ => (), fun _ _ => (), fun _ _ => (), ()⟩

/-- Thread `true` calls `decode`. -/
def decodes : List (Label Bool Choice) :=
  [.run true (.decode [] 0) none, .run true .go none, .run true .go none, .run true .go none,
   .run true .go none]

/-- It destroys the decoder, up to its `notify_one`. -/
def destroys : List (Label Bool Choice) :=
  [.run true .destroy none, .run true .go none, .run true .go none]

theorem decodes_runs :
    (LTS.replay (step (program noCodecs)) (State.init false) decodes).isSome := rfl

theorem jobs_in_order_decodes :
    let s := (LTS.replay (step (program noCodecs)) (State.init false) decodes).get decodes_runs
    s.data.done ++ inHand (s.pc false) ++ grabbed (s.pc false) ++ s.data.mJobs = s.data.submitted :=
  (jobs_in_order noCodecs false _
    (LTS.reachable_replay (· = State.init false) rfl decodes_runs)).2.2.2 rfl

theorem decodes_using : Using
    ((LTS.replay (step (program noCodecs)) (State.init false) decodes).get decodes_runs) where
  running := rfl
  nobody t := by cases t <;> exact ⟨nofun, nofun⟩

theorem always_ends_decodes : ∃ ls s', ((decoder noCodecs false).guard (Helps false)).Run
    ((LTS.replay (step (program noCodecs)) (State.init false) decodes).get decodes_runs) ls s' ∧
    s'.data.resolved = s'.data.submitted.map fun job => (job, noCodecs.image job) := by
  obtain ⟨ls, s', hrun, -, -, hdone⟩ := (always_ends noCodecs false _
    (LTS.reachable_replay (· = State.init false) rfl decodes_runs)).2 decodes_using
  exact ⟨ls, s', hrun, hdone⟩

theorem destroys_runs :
    (LTS.replay (step (program noCodecs)) (State.init false) (decodes ++ destroys)).isSome := rfl

/-- The thread takes the job and drops it. -/
def drops : List (Label Bool Choice) :=
  [.run true .go none, .run true .go none, .run false .go none, .run false .go none,
   .run false .go none, .run false .go none]

theorem drops_runs : (LTS.replay (step (program noCodecs)) ((LTS.replay (step (program noCodecs))
    (State.init false) (decodes ++ destroys)).get destroys_runs) drops).isSome := rfl

theorem destroyed_drops_decodes :
    let s := (LTS.replay (step (program noCodecs)) (State.init false)
      (decodes ++ destroys)).get destroys_runs
    let s' := (LTS.replay (step (program noCodecs)) s drops).get drops_runs
    s'.data.done ++ inHand (s'.pc false) = s.data.done ++ inHand (s.pc false) :=
  destroyed_drops noCodecs false
    (LTS.reachable_replay (· = State.init false) rfl destroys_runs) rfl
    (LTS.run_replay (Option.some_get drops_runs).symm)

end Reckoning.L5.DecodeWorker
