import Mathlib.Logic.Function.Basic
import Reckoning.Core.LTS
import Reckoning.Core.Search

/-!
# Timers

`mTimers` and the fire phase of `Loop::execute` (include/event/Loop.h:183-217,
336-368; lib/event/Loop_epoll.cpp:256-282). A timer object is a value of a type
`T`; what it holds is in `State.timer`. Another thread, or a callback, may call
`addTimer`, `stop` and `updateTimeout` between any two steps; each of them runs
under `mMutex`.

The fire phase copies the timers that are due out of the list, sorts what is
left, and then calls `execute()` of the copies without the lock. `std::sort` may
leave timers of equal deadlines in any order, so the order it leaves is part of
the step's label.

* `fireLoop_subset`: what the loop selects and keeps was in the list.
* `fireLoop_eq`: on a sorted list without repetition, in closed form.
-/
namespace Reckoning.L2.Timers
open Reckoning.Search

/-! ## The timers -/

/-- `steady_clock` in nanoseconds. -/
abbrev Time := Int

/-- A point in time and milliseconds after it, in 64 bits. -/
def plus (t : Time) (timeout : Int) : Time :=
  (t + timeout * 1000000).bmod 18446744073709551616

/-- `timeout` milliseconds after `t`, whether or not 64 bits hold it. -/
def deadline (t : Time) (timeout : Int) : Time := t + timeout * 1000000

def Holds64 (t : Time) : Prop := -9223372036854775808 ≤ t ∧ t < 9223372036854775808

instance (t : Time) : Decidable (Holds64 t) := inferInstanceAs (Decidable (_ ∧ _))

theorem plus_eq_deadline_iff {t : Time} {timeout : Int} :
    plus t timeout = deadline t timeout ↔ Holds64 (deadline t timeout) := by
  have hle : -9223372036854775808 ≤ plus t timeout :=
    Int.le_bmod (x := t + timeout * 1000000) (by decide)
  have hlt : plus t timeout < 9223372036854775808 :=
    Int.bmod_lt (x := t + timeout * 1000000) (by decide)
  constructor
  · intro heq
    exact ⟨heq ▸ hle, heq ▸ hlt⟩
  · intro h
    exact Int.bmod_eq_of_le h.1 h.2

inductive TimerFlag where
  | timeout | interval
  deriving DecidableEq, Repr

/-- mirrors include/event/Loop.h:90-94 -/
structure Timer where
  mTimeout : Int
  mNext : Time
  mFlag : TimerFlag
  deriving DecidableEq, Repr

/-- `due` are the copies that are still to be executed, `running` is the timer whose `execute()`
has been called and has not returned. -/
structure State (T : Type) where
  timer : T → Timer
  mTimers : List T
  due : List T
  running : Option T

inductive Thread where
  | loop | other
  deriving DecidableEq, Repr

/-- `now` is what the clock says in the call. -/
inductive Label (T : Type) where
  | addTimer (t : T) (now : Time)
  | updateTimeout (t : T) (timeout : Int)
  | stop (thread : Thread) (t : T)
  | fire (now : Time) (order : List T)
  | execute
  | executed
  deriving DecidableEq, Repr

/-! ## The operations -/

section
variable {T : Type}

/-- `compare`
mirrors include/event/Loop.h:361-363 -/
def earlier (timer : T → Timer) (a b : T) : Bool := decide ((timer a).mNext < (timer b).mNext)

theorem strictWeak_earlier (timer : T → Timer) : StrictWeak (earlier timer) where
  asymm _ _ h := decide_eq_false (Int.not_lt.mpr (Int.le_of_lt (of_decide_eq_true h)))
  negTrans _ _ _ h k := decide_eq_false (Int.not_lt.mpr
    (Int.le_trans (Int.not_lt.mp (of_decide_eq_false k)) (Int.not_lt.mp (of_decide_eq_false h))))

/-- In the order of the deadlines. -/
def Sorted (timer : T → Timer) (ts : List T) : Prop :=
  ts.Pairwise fun t u => (timer t).mNext ≤ (timer u).mNext

instance (timer : T → Timer) (ts : List T) : Decidable (Sorted timer ts) :=
  inferInstanceAs (Decidable (ts.Pairwise _))

theorem sorted_iff_ordered {timer : T → Timer} {ts : List T} :
    Sorted timer ts ↔ Ordered (earlier timer) ts := by
  simp only [Sorted, Ordered, earlier, decide_eq_false_iff_not, Int.not_lt]

/-- The order is about the timers of the list only. -/
theorem Sorted.congr {timer timer' : T → Timer} {ts : List T} (hs : Sorted timer ts)
    (h : ∀ t ∈ ts, timer' t = timer t) : Sorted timer' ts :=
  hs.imp_of_mem fun ha hb hab => by rwa [h _ ha, h _ hb]

/-- What the fire loop leaves. -/
structure Fired (T : Type) where
  due : List T
  mTimers : List T
  timer : T → Timer

variable [DecidableEq T]

/-- `t->mNext = now + t->mTimeout` -/
def setNext (now : Time) (t : T) (timer : T → Timer) : T → Timer :=
  Function.update timer t { timer t with mNext := plus now (timer t).mTimeout }

/-- mirrors include/event/Loop.h:353-368 -/
def addTimer (now : Time) (t : T) (s : State T) : State T :=
  let timer := setNext now t s.timer
  { s with timer := timer, mTimers := insertBy (earlier timer) t s.mTimers }

/-- mirrors include/event/Loop.h:183-200 -/
def stop (t : T) (s : State T) : State T := { s with mTimers := s.mTimers.erase t }

/-- mirrors include/event/Loop.h:202-217 -/
def isActive (t : T) (s : State T) : Prop := t ∈ s.mTimers

instance (t : T) (s : State T) : Decidable (isActive t s) :=
  inferInstanceAs (Decidable (t ∈ s.mTimers))

/-- mirrors include/event/Loop.h:82 -/
def updateTimeout (timeout : Int) (t : T) (s : State T) : State T :=
  { s with timer := Function.update s.timer t { s.timer t with mTimeout := timeout } }

/-- The `while` loop, from the iterator on.
mirrors lib/event/Loop_epoll.cpp:261-274 -/
def fireLoop (now : Time) : List T → (T → Timer) → Fired T
  | [], timer => ⟨[], [], timer⟩
  | t :: rest, timer =>
    if (timer t).mNext ≤ now then
      match (timer t).mFlag with
      | .timeout =>
        let r := fireLoop now rest timer
        { r with due := t :: r.due }
      | .interval =>
        let r := fireLoop now rest (setNext now t timer)
        { r with due := t :: r.due, mTimers := t :: r.mTimers }
    else ⟨[], t :: rest, timer⟩

/-- Nothing when an assertion fails, or when it is not the step's turn: the loop thread calls
`stop` from its callbacks, so not between two of the copies.
mirrors lib/event/Loop_epoll.cpp:256-282 -/
def step (s : State T) : Label T → Option (State T)
  | .addTimer t now => some (addTimer now t s)
  | .updateTimeout t timeout => if isActive t s then none else some (updateTimeout timeout t s)
  | .stop thread t =>
    if thread = .loop ∧ s.due ≠ [] ∧ s.running = none then none else some (stop t s)
  | .fire now order =>
    if s.due = [] ∧ s.running = none then
      let r := fireLoop now s.mTimers s.timer
      if order.Perm r.mTimers ∧ Sorted r.timer order then
        some { s with timer := r.timer, mTimers := order, due := r.due }
      else none
    else none
  | .execute =>
    match s.running, s.due with
    | none, t :: rest => some { s with due := rest, running := some t }
    | _, _ => none
  | .executed => if s.running = none then none else some { s with running := none }

/-! ## What a step does -/

variable {s s' : State T} {order : List T}

theorem step_updateTimeout {t : T} {timeout : Int}
    (h : step s (.updateTimeout t timeout) = some s') :
    t ∉ s.mTimers ∧ s' = updateTimeout timeout t s := by
  simp only [step] at h
  split at h
  · cases h
  · rename_i hno
    cases h
    exact ⟨hno, rfl⟩

theorem step_stop {thread : Thread} {t : T} (h : step s (.stop thread t) = some s') :
    s' = stop t s := by
  simp only [step] at h
  split at h
  · cases h
  · cases h
    rfl

theorem step_fire {now : Time} (h : step s (.fire now order) = some s') :
    s.due = [] ∧ s.running = none ∧ order.Perm (fireLoop now s.mTimers s.timer).mTimers ∧
      Sorted (fireLoop now s.mTimers s.timer).timer order ∧
      s' = { s with
        timer := (fireLoop now s.mTimers s.timer).timer
        mTimers := order
        due := (fireLoop now s.mTimers s.timer).due } := by
  simp only [step] at h
  split at h
  · rename_i hidle
    split at h
    · rename_i hsort
      cases h
      exact ⟨hidle.1, hidle.2, hsort.1, hsort.2, rfl⟩
    · cases h
  · cases h

theorem step_execute (h : step s .execute = some s') :
    ∃ t rest, s.due = t :: rest ∧ s.running = none ∧
      s' = { s with due := rest, running := some t } := by
  simp only [step] at h
  split at h
  · rename_i t rest hrun hdue
    cases h
    exact ⟨t, rest, hdue, hrun, rfl⟩
  · cases h

theorem step_executed (h : step s .executed = some s') : s' = { s with running := none } := by
  simp only [step] at h
  split at h
  · cases h
  · cases h
    rfl

/-! ## The fire loop -/

variable {now : Time} {ts : List T} {timer : T → Timer}

theorem fireLoop_subset (now : Time) (ts : List T) (timer : T → Timer) :
    (fireLoop now ts timer).due ⊆ ts ∧ (fireLoop now ts timer).mTimers ⊆ ts := by
  induction ts generalizing timer with
  | nil => exact ⟨List.Subset.refl _, List.Subset.refl _⟩
  | cons t rest ih =>
    rw [fireLoop]
    split
    · split
      · exact ⟨List.cons_subset_cons t (ih timer).1, List.subset_cons_of_subset t (ih timer).2⟩
      · exact ⟨List.cons_subset_cons t (ih _).1, List.cons_subset_cons t (ih _).2⟩
    · exact ⟨List.nil_subset _, List.Subset.refl _⟩

/-- The timer is due at `now`. -/
def Due (timer : T → Timer) (now : Time) (t : T) : Prop := (timer t).mNext ≤ now

instance (timer : T → Timer) (now : Time) (t : T) : Decidable (Due timer now t) :=
  inferInstanceAs (Decidable (_ ≤ _))

/-- A fire phase lets go of the timer. -/
def Expired (timer : T → Timer) (now : Time) (t : T) : Prop :=
  Due timer now t ∧ (timer t).mFlag = .timeout

instance (timer : T → Timer) (now : Time) (t : T) : Decidable (Expired timer now t) :=
  inferInstanceAs (Decidable (_ ∧ _))

/-- An interval timer that is due gets its next deadline. -/
def rearm (now : Time) (ts : List T) (timer : T → Timer) (t : T) : Timer :=
  if t ∈ ts ∧ Due timer now t ∧ (timer t).mFlag = .interval then
    { timer t with mNext := plus now (timer t).mTimeout }
  else timer t

/-- The fire loop's result in closed form. -/
def fired (now : Time) (ts : List T) (timer : T → Timer) : Fired T where
  due := ts.filter fun t => decide (Due timer now t)
  mTimers := ts.filter fun t => !decide (Expired timer now t)
  timer := rearm now ts timer

theorem rearm_of_not_due (h : ∀ t ∈ ts, ¬ Due timer now t) : rearm now ts timer = timer := by
  funext t
  exact if_neg fun hx => h t hx.1 hx.2.1

theorem fired_of_not_due (h : ∀ t ∈ ts, ¬ Due timer now t) :
    fired now ts timer = ⟨[], ts, timer⟩ := by
  have hdue : ts.filter (fun t => decide (Due timer now t)) = [] :=
    List.filter_eq_nil_iff.mpr fun t ht => by simpa using h t ht
  have hkept : ts.filter (fun t => !decide (Expired timer now t)) = ts :=
    List.filter_eq_self.mpr fun t ht => by simpa using fun hx : Expired timer now t => h t ht hx.1
  rw [fired, hdue, hkept, rearm_of_not_due h]

theorem setNext_of_not_mem {t : T} (h : t ∉ ts) : ∀ u ∈ ts, setNext now t timer u = timer u :=
  fun u hu => Function.update_of_ne (fun he : u = t => h (he ▸ hu)) _ _

/-- Timers that are not in the list have no part in it. -/
theorem fired_congr (now : Time) {timer' : T → Timer} (h : ∀ t ∈ ts, timer' t = timer t) :
    (fired now ts timer').due = (fired now ts timer).due ∧
      (fired now ts timer').mTimers = (fired now ts timer).mTimers := by
  have hdue : ∀ t ∈ ts, Due timer' now t ↔ Due timer now t := fun t ht => by
    rw [Due, Due, h t ht]
  have hexp : ∀ t ∈ ts, Expired timer' now t ↔ Expired timer now t := fun t ht => by
    rw [Expired, Expired, hdue t ht, h t ht]
  exact ⟨List.filter_congr fun t ht => decide_eq_decide.mpr (hdue t ht),
    List.filter_congr fun t ht => congrArg (!·) (decide_eq_decide.mpr (hexp t ht))⟩

theorem fired_cons_timeout {t : T} (hdue : Due timer now t) (hflag : (timer t).mFlag = .timeout) :
    fired now (t :: ts) timer =
      { fired now ts timer with due := t :: (fired now ts timer).due } := by
  have hexp : Expired timer now t := ⟨hdue, hflag⟩
  have hrearm : rearm now (t :: ts) timer = rearm now ts timer := by
    funext u
    by_cases hu : u = t
    · subst hu
      simp [rearm, hflag]
    · simp [rearm, hu]
  rw [fired, hrearm, List.filter_cons_of_pos (by simpa using hdue),
    List.filter_cons_of_neg (by simpa using hexp)]
  rfl

/-- The new deadline of an interval timer does not touch the rest of the list. -/
theorem fired_cons_interval {t : T} (hnot : t ∉ ts) (hdue : Due timer now t)
    (hflag : (timer t).mFlag = .interval) :
    fired now (t :: ts) timer =
      { fired now ts (setNext now t timer) with
        due := t :: (fired now ts (setNext now t timer)).due
        mTimers := t :: (fired now ts (setNext now t timer)).mTimers } := by
  have hexp : ¬ Expired timer now t := fun hx => by
    have := hflag.symm.trans hx.2
    cases this
  have hrearm : rearm now (t :: ts) timer = rearm now ts (setNext now t timer) := by
    funext u
    by_cases hu : u = t
    · subst hu
      simp [rearm, setNext, hnot, hdue, hflag]
    · simp [rearm, setNext, Due, hu]
  obtain ⟨hd, hk⟩ := fired_congr now (setNext_of_not_mem hnot)
  rw [fired, hrearm, List.filter_cons_of_pos (by simpa using hdue),
    List.filter_cons_of_pos (by simpa using hexp), hd, hk]
  rfl

/-- On a sorted list without repetition the early `break` misses nothing. -/
theorem fireLoop_eq (hs : Sorted timer ts) (hnd : ts.Nodup) :
    fireLoop now ts timer = fired now ts timer := by
  induction ts generalizing timer with
  | nil => exact (fired_of_not_due nofun).symm
  | cons t rest ih =>
    obtain ⟨hmin, hs'⟩ := List.pairwise_cons.mp hs
    obtain ⟨hnot, hnd'⟩ := List.nodup_cons.mp hnd
    rw [fireLoop]
    by_cases hdue : (timer t).mNext ≤ now
    · rw [if_pos hdue]
      cases hflag : (timer t).mFlag with
      | timeout =>
        rw [fired_cons_timeout hdue hflag, ← ih hs' hnd']
      | interval =>
        have hsorted : Sorted (setNext now t timer) rest :=
          Sorted.congr hs' (setNext_of_not_mem hnot)
        rw [fired_cons_interval hnot hdue hflag, ← ih hsorted hnd']
    · rw [if_neg hdue]
      refine (fired_of_not_due fun u hu hx => hdue ?_).symm
      rcases List.mem_cons.mp hu with rfl | hu
      · exact hx
      · exact Int.le_trans (hmin u hu) hx

end
end Reckoning.L2.Timers
