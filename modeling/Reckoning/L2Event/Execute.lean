import Reckoning.Core.LTS

/-!
# Posting to a loop that executes

`Loop::execute` on its own thread, any number of other threads (`T`, any type)
that call the loop, and what they share: `mMutex`, the event queue `mEvents`,
the flag `mStopped` and the wakeup pipe. Every call locks `mMutex`, changes its
table, writes a byte to the pipe (`wakeup`) and unlocks; on the loop's own
thread only `exit` writes (include/event/Loop.h:309-477, lib/event/Loop.cpp:49-81).
A handler on the loop's thread may call everything, also `post`.

Each thread takes one step at a time: it locks, writes or unlocks. A locked
section of the loop is one step at its lock and one at its unlock. The write
end of the pipe is blocking, so a write to a pipe that holds `capacity` bytes
waits; the read end is not. The pipe is watched edge-triggered: `ready` says
that a byte was written since `epoll_wait` last reported it.

Left out: the tables of timers and descriptors (`L2Event.Loop`) and what
`epoll_wait` reports of other descriptors, so that any number of callbacks and
of timers may run. `epoll_wait` itself does not fail, and no handler calls
`execute`. `posted` (in the order of the lock), `executed` and `batches` are
ghosts.

* `loopStep_spec`, `threadStep_spec`: everything a step does.
* `Inv`, `inductive_inv`: who holds the lock; the executed events, the rest of
  the batch and `mEvents` are the posted events; nothing is posted behind the
  back of `epoll_wait`.
* `events_delivered`: so the posted events are executed in order, each once, and
  all of them by the time the loop has taken two more batches.

What the write to the pipe can do to the loop is the subject of `L2Event.Wakeup`.
-/
namespace Reckoning.L2.Execute

variable {T E : Type}

/-- The calls that lock `mMutex`. -/
inductive Call (E : Type)
  | post (event : E)
  | addTimer
  | addFd
  | updateFd
  | removeFd
  | stopTimer
  | exit (status : Int)
  deriving DecidableEq, Repr

/-- The call writes to the pipe; `own`: from the loop's thread.
mirrors lib/event/Loop.cpp:49-56 -/
def Call.writes (own : Bool) : Call E → Bool
  | .stopTimer => false
  | .exit _ => true
  | _ => !own

/-- Where code of the user runs on the loop's thread. `woken`: the wakeup pipe
is among the descriptors still to be dispatched. -/
inductive User
  | outside
  | event
  | callback (woken : Bool)
  | timer
  deriving DecidableEq, Repr

/-- The locked sections of the loop's thread. -/
inductive Section (E : Type)
  /-- Loop_epoll.cpp:119-122 -/
  | take
  /-- Loop_epoll.cpp:137-159 -/
  | newFds
  /-- Loop_epoll.cpp:174-205 -/
  | firstTimer
  /-- Loop_epoll.cpp:81-92; `found`: the descriptor is in `mFds` -/
  | processFd (found woken : Bool)
  /-- Loop_epoll.cpp:260-277 -/
  | fireTimers
  | call (c : Call E) (user : User)
  deriving DecidableEq, Repr

/-- Where the loop's thread is. -/
inductive Pc (E : Type)
  | user (k : User)
  /-- `mStopped` before a batch, Loop_epoll.cpp:114 -/
  | checkEvents
  /-- the `for` over the batch, Loop_epoll.cpp:124 -/
  | events
  /-- `mStopped` after the last batch, Loop_epoll.cpp:132 -/
  | checkFds
  /-- it waits for `mMutex` -/
  | lock (sec : Section E)
  /-- it is in `write`, and holds `mMutex` -/
  | wakeup (c : Call E) (user : User)
  /-- it holds `mMutex` -/
  | unlock (sec : Section E)
  /-- `epoll_wait`, Loop_epoll.cpp:218 -/
  | wait
  /-- the `for` over the reported descriptors, Loop_epoll.cpp:228 -/
  | dispatch (woken : Bool)
  /-- the `for` over the due timers, Loop_epoll.cpp:279 -/
  | timers
  deriving DecidableEq, Repr

/-- Where another thread is. -/
inductive Thread (E : Type)
  | idle
  | lock (c : Call E)
  | wakeup
  | unlock
  deriving DecidableEq, Repr

inductive Owner (T : Type)
  | loop
  | thread (t : T)
  deriving DecidableEq, Repr

structure Sys (T E : Type) where
  mMutex : Option (Owner T)
  mEvents : List E
  mStopped : Bool
  mStatus : Int
  pipe : Nat
  ready : Bool
  pc : Pc E
  /-- the batch, from the event that is next -/
  events : List E
  /-- what `execute` has returned last -/
  result : Option Int
  threads : T → Thread E
  posted : List E
  executed : List E
  batches : Nat

def Sys.init : Sys T E where
  mMutex := none
  mEvents := []
  mStopped := false
  mStatus := 0
  pipe := 0
  ready := false
  pc := .user .outside
  events := []
  result := none
  threads _ := .idle
  posted := []
  executed := []
  batches := 0

/-! ## Steps -/

/-- What a call changes under the lock.
mirrors include/event/Loop.h:309-314, lib/event/Loop.cpp:75-81 -/
def apply (c : Call E) (s : Sys T E) : Sys T E :=
  match c with
  | .post e => { s with mEvents := s.mEvents ++ [e], posted := s.posted ++ [e] }
  | .exit status => { s with mStopped := true, mStatus := status }
  | _ => s

/-- The one byte of `wakeup`. -/
def writeByte (s : Sys T E) : Sys T E := { s with pipe := s.pipe + 1, ready := true }

/-- A locked section of the loop's thread, up to its unlock. -/
def enter (sec : Section E) (s : Sys T E) : Sys T E :=
  match sec with
  | .take => { s with
      events := s.mEvents, mEvents := [], batches := s.batches + 1, pc := .unlock .take }
  | .call c k => { apply c s with
      pc := if c.writes true then .wakeup c k else .unlock (.call c k) }
  | sec => { s with pc := .unlock sec }

/-- What follows a locked section. -/
def after (s : Sys T E) : Section E → Pc E
  | .take => if s.events = [] then .checkFds else .events
  | .newFds => .lock .firstTimer
  | .firstTimer => .wait
  | .processFd found woken => if found then .user (.callback woken) else .dispatch woken
  | .fireTimers => .timers
  | .call _ k => .user k

/-- Where a handler returns to. -/
def back : User → Option (Pc E)
  | .outside => none
  | .event => some .events
  | .callback woken => some (.dispatch woken)
  | .timer => some .timers

/-- What the loop's thread does next, where it has a choice. -/
inductive Move (E : Type)
  /-- the next step of its code -/
  | go
  /-- the user calls `execute` -/
  | execute
  | call (c : Call E)
  /-- a handler returns -/
  | ret
  /-- `epoll_wait` returns, with the wakeup pipe or without -/
  | report (woken : Bool)
  /-- the next reported descriptor -/
  | fd (found : Bool)
  /-- the next reported descriptor is the wakeup pipe -/
  | drain
  | timer
  /-- the `for` ends -/
  | done
  /-- `execute` has been given a timeout, and it is over -/
  | timeout
  deriving DecidableEq, Repr

def returns (status : Int) (s : Sys T E) : Sys T E :=
  { s with pc := .user .outside, result := some status }

/-- mirrors lib/event/Loop_epoll.cpp:109-294 -/
def loopStep (capacity : Nat) (s : Sys T E) (m : Move E) : Option (Sys T E) :=
  match s.pc, m with
  | .user .outside, .execute => some { s with pc := .checkEvents }
  | .user k, .call c => some { s with pc := .lock (.call c k) }
  | .user k, .ret => (back k).map fun pc => { s with pc }
  | .checkEvents, .go =>
    some (if s.mStopped then returns s.mStatus s else { s with pc := .lock .take })
  | .events, .go =>
    match s.events with
    | [] => some { s with pc := .checkEvents }
    | e :: es => some { s with events := es, executed := s.executed ++ [e], pc := .user .event }
  | .checkFds, .go =>
    some (if s.mStopped then returns s.mStatus s else { s with pc := .lock .newFds })
  | .lock sec, .go => if s.mMutex = none then some (enter sec { s with mMutex := some .loop }) else none
  | .wakeup c k, .go =>
    if s.pipe < capacity then some { writeByte s with pc := .unlock (.call c k) } else none
  | .unlock sec, .go => some { s with mMutex := none, pc := after s sec }
  | .wait, .report woken =>
    if woken then if s.ready then some { s with ready := false, pc := .dispatch true } else none
    else some { s with pc := .dispatch false }
  | .dispatch woken, .fd found => some { s with pc := .lock (.processFd found woken) }
  -- the pipe is read until it is empty, which ends the `for`
  | .dispatch true, .drain => some { s with pipe := 0, pc := .lock .fireTimers }
  | .dispatch _, .done => some { s with pc := .lock .fireTimers }
  | .timers, .timer => some { s with pc := .user .timer }
  | .timers, .done => some { s with pc := .checkEvents }
  | .timers, .timeout => some (returns 0 s)
  | _, _ => none

section
variable [DecidableEq T]

def setThread (t : T) (p : Thread E) (s : Sys T E) : Sys T E :=
  { s with threads := fun u => if u = t then p else s.threads u }

/-- A step of the thread `t`; `call` is what it calls when it is idle. -/
def threadStep (capacity : Nat) (t : T) (call : Option (Call E)) (s : Sys T E) : Option (Sys T E) :=
  match s.threads t, call with
  | .idle, some c => some (setThread t (.lock c) s)
  | .lock c, none =>
    if s.mMutex = none then
      some (setThread t (if c.writes false then .wakeup else .unlock)
        (apply c { s with mMutex := some (.thread t) }))
    else none
  | .wakeup, none => if s.pipe < capacity then some (setThread t .unlock (writeByte s)) else none
  | .unlock, none => some (setThread t .idle { s with mMutex := none })
  | _, _ => none

inductive Label (T E : Type)
  | loop (m : Move E)
  | call (t : T) (c : Call E)
  | go (t : T)
  deriving DecidableEq, Repr

def step (capacity : Nat) (s : Sys T E) : Label T E → Option (Sys T E)
  | .loop m => loopStep capacity s m
  | .call t c => threadStep capacity t (some c) s
  | .go t => threadStep capacity t none s

def system (capacity : Nat) : LTS (Sys T E) (Label T E) := .ofFn (· = Sys.init) (step capacity)

end

section
variable (c : Call E) (s : Sys T E)

@[simp] theorem apply_mMutex : (apply c s).mMutex = s.mMutex := by cases c <;> rfl
@[simp] theorem apply_pc : (apply c s).pc = s.pc := by cases c <;> rfl
@[simp] theorem apply_threads : (apply c s).threads = s.threads := by cases c <;> rfl
@[simp] theorem apply_events : (apply c s).events = s.events := by cases c <;> rfl
@[simp] theorem apply_pipe : (apply c s).pipe = s.pipe := by cases c <;> rfl
@[simp] theorem apply_ready : (apply c s).ready = s.ready := by cases c <;> rfl

/-- A call that does not wake the loop up leaves the queue alone. -/
theorem apply_of_not_writes {c : Call E} (h : c.writes false = false) : apply c s = s := by
  cases c <;> first | rfl | cases h

end

/-! ## What a step does -/

/-- The pc holds `mMutex`. -/
def Pc.Holds : Pc E → Prop
  | .wakeup _ _ | .unlock _ => True
  | _ => False

def Thread.Holds : Thread E → Prop
  | .wakeup | .unlock => True
  | _ => False

/-- A batch may be unfinished here. -/
def Pc.InBatch : Pc E → Prop
  | .events | .user .event | .unlock .take => True
  | .lock (.call _ .event) | .wakeup _ .event | .unlock (.call _ .event) => True
  | _ => False

/-- From the end of the event phase to `epoll_wait`. -/
def Pc.Late : Pc E → Prop
  | .checkFds | .lock .newFds | .unlock .newFds | .lock .firstTimer | .unlock .firstTimer
  | .wait => True
  | _ => False

/-- What a step does to the queue. -/
inductive QueueStep (s s' : Sys T E) : Prop
  | same : s'.mEvents = s.mEvents → s'.events = s.events → s'.posted = s.posted →
      s'.executed = s.executed → s'.batches = s.batches → QueueStep s s'
  | post (e : E) : s.mMutex = none → s'.mEvents = s.mEvents ++ [e] → s'.events = s.events →
      s'.posted = s.posted ++ [e] → s'.executed = s.executed → s'.batches = s.batches → QueueStep s s'
  | take : s.pc = .lock .take → s'.mEvents = [] → s'.events = s.mEvents → s'.posted = s.posted →
      s'.executed = s.executed → s'.batches = s.batches + 1 → QueueStep s s'
  | execute (e : E) : s'.mEvents = s.mEvents → s.events = e :: s'.events → s'.posted = s.posted →
      s'.executed = s.executed ++ [e] → s'.batches = s.batches → QueueStep s s'

theorem apply_queue (c : Call E) {s : Sys T E} (h : s.mMutex = none) (owner : Option (Owner T))
    (pc : Pc E) (threads : T → Thread E) :
    QueueStep s { apply c { s with mMutex := owner } with pc, threads } := by
  cases c with
  | post e => exact .post e h rfl rfl rfl rfl rfl
  | _ => exact .same rfl rfl rfl rfl rfl

/-- What a step of the loop's thread does. -/
structure LoopStep (capacity : Nat) (s s' : Sys T E) : Prop where
  threads : s'.threads = s.threads
  queue : QueueStep s s'
  mutex : (s'.mMutex = s.mMutex ∧ (s'.pc.Holds ↔ s.pc.Holds)) ∨
    (s.mMutex = none ∧ s'.mMutex = some .loop) ∨ (s.pc.Holds ∧ s'.mMutex = none ∧ ¬ s'.pc.Holds)
  pipe : s'.pipe ≤ s.pipe ∨ s.pc.Holds
  batch : ¬ s'.pc.InBatch → s'.events = s.events ∧ (s.pc.InBatch → s.events = [])
  taken : s'.pc = .unlock .take → s'.mEvents = []
  late : s'.pc.Late → s'.ready = s.ready ∧ s'.mEvents = s.mEvents ∧
    (s.pc.Late ∨ s.pc = .unlock .take ∧ s.events = [])

/-- A step that neither takes nor leaves `mMutex`, and leaves the queue alone. -/
theorem LoopStep.move {capacity : Nat} {s : Sys T E} {pc : Pc E} {pipe : Nat} {ready : Bool}
    {result : Option Int} (hpipe : pipe ≤ s.pipe) (hfrom : ¬ s.pc.Holds) (hto : ¬ pc.Holds)
    (hbatch : ¬ pc.InBatch → s.pc.InBatch → s.events = [])
    (hlate : pc.Late → ready = s.ready ∧ s.pc.Late) :
    LoopStep capacity s { s with pc, pipe, ready, result } where
  threads := rfl
  queue := .same rfl rfl rfl rfl rfl
  mutex := .inl ⟨rfl, iff_of_false hto hfrom⟩
  pipe := .inl hpipe
  batch hb := ⟨rfl, hbatch hb⟩
  taken ht := absurd (by rw [show pc = _ from ht]; exact trivial) hto
  late hl := ⟨(hlate hl).1, rfl, .inl (hlate hl).2⟩

/-- The locked section of a call. -/
theorem loopStep_call {capacity : Nat} {s : Sys T E} {c : Call E} {k : User} {pc : Pc E}
    (hpc : s.pc = .lock (.call c k)) (hfree : s.mMutex = none)
    (hto : pc = .wakeup c k ∨ pc = .unlock (.call c k)) :
    LoopStep capacity s { apply c { s with mMutex := some .loop } with pc } := by
  refine ⟨apply_threads c _, apply_queue c hfree (some .loop) pc _,
    .inr (.inl ⟨hfree, apply_mMutex c _⟩), .inl (Nat.le_of_eq (apply_pipe c _)), ?_, ?_, ?_⟩
  · refine fun hb => ⟨apply_events c _, fun hs => absurd ?_ hb⟩
    rw [hpc] at hs
    rcases hto with rfl | rfl <;> cases k <;> exact hs
  · rcases hto with rfl | rfl <;> nofun
  · rcases hto with rfl | rfl <;> nofun

/-- A locked section of the loop's thread, entered. -/
theorem loopStep_lock {capacity : Nat} {s : Sys T E} {sec : Section E} (hpc : s.pc = .lock sec)
    (hfree : s.mMutex = none) : LoopStep capacity s (enter sec { s with mMutex := some .loop }) := by
  have hother : (∀ c k, sec ≠ .call c k) → sec ≠ .take →
      LoopStep capacity s { s with mMutex := some .loop, pc := .unlock sec } := by
    intro hcall htake
    refine ⟨rfl, .same rfl rfl rfl rfl rfl, .inr (.inl ⟨hfree, rfl⟩), .inl (Nat.le_refl _), ?_, ?_, ?_⟩
    · refine fun _ => ⟨rfl, ?_⟩
      cases sec <;> simp_all [Pc.InBatch]
    · simp [htake]
    · cases sec <;> simp_all [Pc.Late]
  cases sec with
  | take =>
    refine ⟨rfl, .take hpc rfl rfl rfl rfl rfl, .inr (.inl ⟨hfree, rfl⟩), .inl (Nat.le_refl _), ?_,
      fun _ => rfl, nofun⟩
    exact fun hb => absurd trivial hb
  | call c k =>
    refine loopStep_call hpc hfree ?_
    by_cases hw : c.writes true = true
    · exact .inl (if_pos hw)
    · exact .inr (if_neg hw)
  | newFds => exact hother nofun nofun
  | firstTimer => exact hother nofun nofun
  | processFd found woken => exact hother nofun nofun
  | fireTimers => exact hother nofun nofun

theorem loopStep_unlock {capacity : Nat} {s : Sys T E} {sec : Section E}
    (hpc : s.pc = .unlock sec) :
    LoopStep capacity s { s with mMutex := none, pc := after s sec } := by
  have hto : ¬ (after s sec).Holds := by
    cases sec <;> simp only [after]
    all_goals try split
    all_goals exact id
  refine ⟨rfl, .same rfl rfl rfl rfl rfl, .inr (.inr ⟨hpc ▸ trivial, rfl, hto⟩), .inl (Nat.le_refl _),
    fun hb => ⟨rfl, fun hs => ?_⟩, ?_, fun hl => ⟨rfl, rfl, ?_⟩⟩
  · rw [hpc] at hs
    cases sec with
    | take => exact Classical.byContradiction fun he => by simp [after, he, Pc.InBatch] at hb
    | call c k => cases k <;> first | exact absurd trivial hb | cases hs
    | _ => cases hs
  · intro ht
    rw [show after s sec = _ from ht] at hto
    exact absurd trivial hto
  · cases sec with
    | take =>
      refine .inr ⟨hpc, Classical.byContradiction fun he => ?_⟩
      simp [after, he, Pc.Late] at hl
    | newFds => exact .inl (hpc ▸ trivial)
    | firstTimer => exact .inl (hpc ▸ trivial)
    | processFd found woken => cases found <;> cases hl
    | fireTimers => cases hl
    | call c k => cases hl

theorem loopStep_spec {capacity : Nat} {s s' : Sys T E} {m : Move E}
    (h : loopStep capacity s m = some s') : LoopStep capacity s s' := by
  unfold loopStep at h
  split at h <;> rename_i hpc
  case h_2 =>
    cases h
    rename_i k c
    refine .move (Nat.le_refl _) ?_ ?_ ?_ ?_ <;> cases k <;>
      simp [hpc, Pc.Holds, Pc.InBatch, Pc.Late]
  case h_3 =>
    obtain ⟨pc, hback, rfl⟩ := Option.map_eq_some_iff.mp h
    rename_i k
    refine .move (Nat.le_refl _) ?_ ?_ ?_ ?_ <;> cases k <;> cases hback <;>
      simp [hpc, Pc.Holds, Pc.InBatch, Pc.Late]
  case h_5 =>
    split at h <;> rename_i hev <;> cases h
    · refine .move (Nat.le_refl _) ?_ ?_ ?_ ?_ <;> simp [hpc, hev, Pc.Holds, Pc.InBatch, Pc.Late]
    · refine ⟨rfl, .execute _ rfl hev rfl rfl rfl, .inl ⟨rfl, ?_⟩, .inl (Nat.le_refl _), ?_, ?_, ?_⟩ <;>
        simp [hpc, Pc.Holds, Pc.InBatch, Pc.Late]
  case h_7 =>
    split at h <;> cases h
    rename_i hfree
    exact loopStep_lock hpc hfree
  case h_8 =>
    rename_i c k
    split at h <;> cases h
    refine ⟨rfl, .same rfl rfl rfl rfl rfl, .inl ⟨rfl, ?_⟩, .inr ?_, ?_, nofun, nofun⟩
    · simp [hpc, Pc.Holds]
    · simp [hpc, Pc.Holds]
    · exact fun hb => ⟨rfl, fun hs => absurd (by rw [hpc] at hs; cases k <;> exact hs) hb⟩
  case h_9 =>
    cases h
    exact loopStep_unlock hpc
  all_goals
    repeat' split at h
    all_goals cases h
    all_goals refine .move ?_ ?_ ?_ ?_ ?_ <;> simp [hpc, Pc.Holds, Pc.InBatch, Pc.Late]

/-! ## Invariant -/

structure Inv (s : Sys T E) : Prop where
  /-- who holds `mMutex` -/
  thread : ∀ t, (s.threads t).Holds → s.mMutex = some (.thread t)
  loop : s.pc.Holds → s.mMutex = some .loop
  /-- the queue -/
  conserved : s.executed ++ s.events ++ s.mEvents = s.posted
  batch : ¬ s.pc.InBatch → s.events = []
  taken : s.pc = .unlock .take → s.mEvents = []
  /-- between the event phase and `epoll_wait` nothing is posted without a wakeup -/
  awake : s.pc.Late → s.mEvents ≠ [] → s.ready = true ∨ ∃ t, s.threads t = .wakeup

theorem inv_init : Inv (Sys.init : Sys T E) where
  thread _ h := h.elim
  loop h := h.elim
  conserved := rfl
  batch _ := rfl
  taken h := by cases h
  awake h := h.elim

theorem conserved_step {s s' : Sys T E} (h : QueueStep s s') (hi : Inv s) :
    s'.executed ++ s'.events ++ s'.mEvents = s'.posted := by
  have hq := hi.conserved
  cases h with
  | same hm he hp hx _ => rw [hm, he, hp, hx, hq]
  | post e _ hm he hp hx _ => rw [hm, he, hp, hx, ← List.append_assoc, hq]
  | take hpc hm he hp hx _ =>
    have hnone : s.events = [] := hi.batch (by rw [hpc]; exact id)
    rw [hnone, List.append_nil] at hq
    rw [hm, he, hp, hx, List.append_nil, hq]
  | execute e hm he hp hx _ =>
    rw [he] at hq
    rw [hm, hp, hx, ← hq]
    simp

/-- What a run from `s₀` keeps: what was posted before is in the batch once the
loop has taken one, and executed once it has taken another. -/
structure Since (s₀ s : Sys T E) : Prop where
  posted : s₀.posted <+: s.posted
  batches : s₀.batches ≤ s.batches
  taken : s₀.batches < s.batches → s₀.posted.length ≤ (s.executed ++ s.events).length
  executed : s₀.batches + 1 < s.batches → s₀.posted.length ≤ s.executed.length

theorem since_step {s₀ s s' : Sys T E} (hi : Inv s) (hq : QueueStep s s') (h : Since s₀ s) :
    Since s₀ s' := by
  cases hq with
  | same hm he hp hx hb =>
    refine ⟨hp ▸ h.posted, hb ▸ h.batches, fun hlt => ?_, fun hlt => ?_⟩
    · rw [hx, he]; exact h.taken (hb ▸ hlt)
    · rw [hx]; exact h.executed (hb ▸ hlt)
  | post e _ hm he hp hx hb =>
    refine ⟨hp ▸ h.posted.trans (List.prefix_append _ _), hb ▸ h.batches, fun hlt => ?_, fun hlt => ?_⟩
    · rw [hx, he]; exact h.taken (hb ▸ hlt)
    · rw [hx]; exact h.executed (hb ▸ hlt)
  | take hpc hm he hp hx hb =>
    -- the batch before has been executed
    have hnone : s.events = [] := hi.batch (by rw [hpc]; exact id)
    have hall : s.executed ++ s.mEvents = s.posted := by
      rw [← hi.conserved, hnone, List.append_nil]
    refine ⟨hp ▸ h.posted, by have := h.batches; omega, fun _ => ?_, fun hlt => ?_⟩
    · rw [hx, he, hall]; exact h.posted.length_le
    · have htaken := h.taken (by omega)
      rw [hnone, List.append_nil] at htaken
      rw [hx]; exact htaken
  | execute e hm he hp hx hb =>
    refine ⟨hp ▸ h.posted, hb ▸ h.batches, fun hlt => ?_, fun hlt => ?_⟩
    · have htaken := h.taken (hb ▸ hlt)
      rw [he] at htaken
      rw [hx]
      simp only [List.length_append, List.length_cons] at htaken ⊢
      omega
    · have hdone := h.executed (hb ▸ hlt)
      rw [hx, List.length_append]
      omega

theorem inv_loop {capacity : Nat} {s s' : Sys T E} (h : LoopStep capacity s s') (hi : Inv s) :
    Inv s' where
  thread t ht := by
    rw [h.threads] at ht
    have hm := hi.thread t ht
    rcases h.mutex with ⟨hsame, -⟩ | ⟨hfree, -⟩ | ⟨hpc, -, -⟩
    · exact hsame.trans hm
    · cases hm.symm.trans hfree
    · cases hm.symm.trans (hi.loop hpc)
  loop hpc := by
    rcases h.mutex with ⟨hsame, hholds⟩ | ⟨-, htaken⟩ | ⟨-, -, hleft⟩
    · exact hsame.trans (hi.loop (hholds.mp hpc))
    · exact htaken
    · exact absurd hpc hleft
  conserved := conserved_step h.queue hi
  batch hb := by
    obtain ⟨he, hdone⟩ := h.batch hb
    rw [he]
    by_cases hs : s.pc.InBatch
    · exact hdone hs
    · exact hi.batch hs
  taken := h.taken
  awake hl hne := by
    obtain ⟨hready, hm, hlate⟩ := h.late hl
    rw [hm] at hne
    rw [hready, h.threads]
    rcases hlate with hlate | ⟨htake, -⟩
    · exact hi.awake hlate hne
    · exact absurd (hi.taken htake) hne

/-! ## The other threads -/

section
variable [DecidableEq T] {capacity : Nat} {s s' : Sys T E}

@[simp] theorem setThread_self (t : T) (p : Thread E) (s : Sys T E) :
    (setThread t p s).threads t = p := if_pos rfl

@[simp] theorem setThread_of_ne {t u : T} (h : u ≠ t) (p : Thread E) (s : Sys T E) :
    (setThread t p s).threads u = s.threads u := if_neg h

/-- What a step of the thread `t` does. -/
inductive ThreadStep (capacity : Nat) (t : T) (s s' : Sys T E) : Prop
  | call (c : Call E) : s.threads t = .idle → s' = setThread t (.lock c) s → ThreadStep capacity t s s'
  | lock (c : Call E) : s.threads t = .lock c → s.mMutex = none →
      s' = setThread t (if c.writes false then .wakeup else .unlock)
        (apply c { s with mMutex := some (.thread t) }) → ThreadStep capacity t s s'
  | wakeup : s.threads t = .wakeup → s.pipe < capacity → s' = setThread t .unlock (writeByte s) →
      ThreadStep capacity t s s'
  | unlock : s.threads t = .unlock → s' = setThread t .idle { s with mMutex := none } →
      ThreadStep capacity t s s'

theorem threadStep_spec {t : T} {call : Option (Call E)}
    (h : threadStep capacity t call s = some s') : ThreadStep capacity t s s' := by
  unfold threadStep at h
  split at h <;> rename_i ht
  · exact .call _ ht (Option.some.inj h).symm
  · split at h <;> cases h
    rename_i hfree
    exact .lock _ ht hfree rfl
  · split at h <;> cases h
    rename_i hroom
    exact .wakeup ht hroom rfl
  · exact .unlock ht (Option.some.inj h).symm
  · cases h

theorem ThreadStep.queue {t : T} (h : ThreadStep capacity t s s') : QueueStep s s' := by
  cases h with
  | call c _ hs => subst hs; exact .same rfl rfl rfl rfl rfl
  | lock c _ hfree hs => subst hs; exact apply_queue c hfree _ _ _
  | wakeup _ _ hs => subst hs; exact .same rfl rfl rfl rfl rfl
  | unlock _ hs => subst hs; exact .same rfl rfl rfl rfl rfl

theorem step_spec {l : Label T E} (h : step capacity s l = some s') :
    LoopStep capacity s s' ∨ ∃ t, ThreadStep capacity t s s' := by
  cases l with
  | loop m => exact .inl (loopStep_spec h)
  | call t c => exact .inr ⟨t, threadStep_spec h⟩
  | go t => exact .inr ⟨t, threadStep_spec h⟩

theorem inv_thread {t : T} (h : ThreadStep capacity t s s') (hi : Inv s) : Inv s' := by
  have hconserved := conserved_step h.queue hi
  cases h with
  | call c ht hs =>
    subst hs
    refine ⟨fun u hu => ?_, hi.loop, hconserved, hi.batch, hi.taken, fun hl hne => ?_⟩
    · by_cases hut : u = t
      · rw [hut, setThread_self] at hu; exact hu.elim
      · exact hi.thread u (by rwa [setThread_of_ne hut] at hu)
    · refine (hi.awake hl hne).imp id fun hx => ?_
      obtain ⟨u, hu⟩ := hx
      have hut : u ≠ t := fun he => by rw [he, ht] at hu; cases hu
      exact ⟨u, by rwa [setThread_of_ne hut]⟩
  | lock c ht hfree hs =>
    -- nobody else holds `mMutex`
    have hnobody : ∀ u, ¬ (s.threads u).Holds := fun u hu => by cases (hi.thread u hu).symm.trans hfree
    have hloop : ¬ s.pc.Holds := fun hp => by cases (hi.loop hp).symm.trans hfree
    subst hs
    refine ⟨fun u hu => ?_, fun hp => ?_, hconserved, fun hb => ?_, fun hp => ?_, fun hl hne => ?_⟩
    · by_cases hut : u = t
      · rw [hut]; exact apply_mMutex c _
      · rw [setThread_of_ne hut, apply_threads] at hu
        exact absurd hu (hnobody u)
    · exact absurd (by simpa [setThread] using hp) hloop
    · have hb' : ¬ s.pc.InBatch := by simpa [setThread] using hb
      exact (apply_events c _).trans (hi.batch hb')
    · have hp' : s.pc = .unlock .take := by simpa [setThread] using hp
      exact absurd (hp' ▸ trivial) hloop
    · by_cases hw : c.writes false = true
      · exact .inr ⟨t, by rw [setThread_self, if_pos hw]⟩
      · rw [apply_of_not_writes _ (Bool.eq_false_iff.mpr hw)] at hl hne ⊢
        refine (hi.awake hl hne).imp id fun hx => ?_
        obtain ⟨u, hu⟩ := hx
        exact absurd (hu ▸ trivial) (hnobody u)
  | wakeup ht hroom hs =>
    subst hs
    refine ⟨fun u hu => ?_, hi.loop, hconserved, hi.batch, hi.taken, fun _ _ => .inl rfl⟩
    by_cases hut : u = t
    · rw [hut]; exact hi.thread t (ht ▸ trivial)
    · exact hi.thread u (by rwa [setThread_of_ne hut] at hu)
  | unlock ht hs =>
    have hown : s.mMutex = some (.thread t) := hi.thread t (ht ▸ trivial)
    subst hs
    refine ⟨fun u hu => ?_, fun hp => ?_, hconserved, hi.batch, hi.taken, fun hl hne => ?_⟩
    · by_cases hut : u = t
      · rw [hut, setThread_self] at hu; exact hu.elim
      · rw [setThread_of_ne hut] at hu
        cases hown.symm.trans (hi.thread u hu)
        exact absurd rfl hut
    · cases hown.symm.trans (hi.loop hp)
    · refine (hi.awake hl hne).imp id fun hx => ?_
      obtain ⟨u, hu⟩ := hx
      have hut : u ≠ t := fun he => by rw [he, ht] at hu; cases hu
      exact ⟨u, by rwa [setThread_of_ne hut]⟩

theorem inductive_inv : (system capacity : LTS (Sys T E) (Label T E)).Inductive Inv where
  init s h := by cases h; exact inv_init
  step s l s' hi hs := by
    rcases step_spec hs with h | ⟨t, h⟩
    · exact inv_loop h hi
    · exact inv_thread h hi

/-! ## Delivery -/

theorem since_run {s₀ s s' : Sys T E} {ls : List (Label T E)} (h : (system capacity).Run s ls s')
    (hi : Inv s) (hs : Since s₀ s) : Since s₀ s' := by
  have hstep : ∀ s l s', (Inv s ∧ Since s₀ s) → step capacity s l = some s' → Inv s' ∧ Since s₀ s' := by
    intro s l s' hb hs'
    refine ⟨inductive_inv.step s l s' hb.1 hs', ?_⟩
    rcases step_spec hs' with hl | ⟨t, ht⟩
    · exact since_step hb.1 hl.queue hb.2
    · exact since_step hb.1 ht.queue hb.2
  exact (h.preserves (I := fun s => Inv s ∧ Since s₀ s) hstep ⟨hi, hs⟩).2

/-- **Every post is executed once, in order**: at every moment; none is left
when the event phase ends; `epoll_wait` does not sleep on one whose call has
written its byte; and none outlasts the second batch that the loop takes. -/
theorem events_delivered {ls : List (Label T E)} (hr : (system capacity).Reachable s)
    (hrun : (system capacity).Run s ls s') :
    s.executed ++ s.events ++ s.mEvents = s.posted ∧
    (s.pc = .unlock .take → s.events = [] → s.executed = s.posted) ∧
    (s.pc = .wait → s.executed ≠ s.posted → s.ready = true ∨ ∃ t, s.threads t = .wakeup) ∧
    (s.batches + 2 ≤ s'.batches → s.posted <+: s'.executed) := by
  have hi := inductive_inv.reachable s hr
  have hq := hi.conserved
  refine ⟨hq, fun hpc he => ?_, fun hpc hne => ?_, fun hb => ?_⟩
  · rw [he, hi.taken hpc, List.append_nil, List.append_nil] at hq
    exact hq
  · refine hi.awake (hpc ▸ trivial) fun hm => hne ?_
    rw [hi.batch (by rw [hpc]; exact id), hm, List.append_nil, List.append_nil] at hq
    exact hq
  · have hsince : Since s s' := since_run hrun hi
      ⟨List.prefix_refl _, Nat.le_refl _, fun hlt => absurd hlt (Nat.lt_irrefl _), fun hlt => by omega⟩
    have hi' : Inv s' := hrun.preserves inductive_inv.step hi
    have hexec : s'.executed <+: s'.posted := by
      rw [← hi'.conserved, List.append_assoc]
      exact List.prefix_append _ _
    exact List.prefix_of_prefix_length_le hsince.posted hexec (hsince.executed (by omega))

end

/-- A post of another thread, and two batches. -/
def postOnce : List (Label Unit Nat) := [.call () (.post 7), .go (), .go (), .go ()]

def twoBatches : List (Label Unit Nat) :=
  [.loop .execute, .loop .go, .loop .go, .loop .go, .loop .go, .loop .ret, .loop .go, .loop .go,
   .loop .go]

theorem postOnce_runs : (LTS.replay (step 1) Sys.init postOnce).isSome := rfl

def postedOnce : Sys Unit Nat := (LTS.replay (step 1) Sys.init postOnce).get postOnce_runs

theorem twoBatches_runs : (LTS.replay (step 1) postedOnce twoBatches).isSome := rfl

def deliveredOnce : Sys Unit Nat := (LTS.replay (step 1) postedOnce twoBatches).get twoBatches_runs

theorem events_delivered_postOnce : [7] <+: deliveredOnce.executed :=
  (events_delivered (LTS.reachable_replay (· = Sys.init) rfl postOnce_runs)
    (LTS.run_replay (f := step 1) (s := postedOnce) (Option.some_get twoBatches_runs).symm)).2.2.2
    (by decide)

end Reckoning.L2.Execute
