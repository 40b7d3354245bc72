import Reckoning.Core.LTS

/-!
# How long `epoll_wait` waits

`Loop::execute(timeout)` keeps what is left of the timeout in an `int`, and
turns the time to the first deadline into another; `epoll_wait` gets the
smaller of the two (lib/event/Loop_epoll.cpp:60-70, 172-186, 218, 284-292).
Both are narrowed from 64 bits before the minimum is taken. A negative wait has
no end.

A `Turn` is one round of the loop: the deadlines that are in `mTimers`, and what
the clock says before the wait, at each `epoll_wait` that `eintrwrap` repeats,
and at the accounting behind it. The callbacks may change the timers in any way
between two rounds, and take any time.

The `int` is brought up to date at the end of a round only. What the events of
the next round take is not yet off it when that round waits, and an interrupted
wait starts again with the same number.

* `wrap_cases`: what narrowing leaves of a number.
* `Inv`: what the `int` is to the time that the accounting leaves.
* `nonneg_iff`, `within_iff`: the wait's sign, and its bounds.
* `right_iff`: when the waits of one round are right.
* `waits_iff`: the same for all rounds of a run.
-/
namespace Reckoning.L2.WaitTime

/-! ## The code -/

/-- The narrowing conversion to `int`. -/
def wrap (n : Int) : Int := n.bmod 4294967296

def intMax : Int := 2147483647

/-- The local variables of `execute`. -/
structure Exec where
  executeTimeout : Int
  hasTimeout : Bool
  startTime : Int
  deriving DecidableEq, Repr

/-- The clock in milliseconds.
mirrors include/event/Loop.h:495-498 -/
def timeNow (now : Int) : Int := now.tdiv 1000000

/-- mirrors lib/event/Loop_epoll.cpp:60-70 -/
def setup (timeout now : Int) : Exec :=
  if timeout ≠ -1 then ⟨wrap timeout, true, timeNow now⟩ else ⟨intMax, false, timeNow now⟩

/-- `duration_cast<milliseconds>` of a duration that is not negative. -/
def milliseconds (when : Int) : Int := when / 1000000

/-- mirrors lib/event/Loop_epoll.cpp:172-186 -/
def epollTimeout (x : Exec) (deadlines : List Int) (now : Int) : Int :=
  match deadlines with
  | front :: _ =>
    if now ≤ front then
      let mscount := wrap (milliseconds (front - now))
      if intMax < mscount then intMax else mscount
    else 0
  | [] => if x.hasTimeout then x.executeTimeout else -1

/-- The last argument of `epoll_wait`.
mirrors lib/event/Loop_epoll.cpp:218 -/
def waitTime (x : Exec) (deadlines : List Int) (now : Int) : Int :=
  if epollTimeout x deadlines now < x.executeTimeout then epollTimeout x deadlines now
  else x.executeTimeout

/-- Nothing when `execute` returns.
mirrors lib/event/Loop_epoll.cpp:284-292 -/
def account (now : Int) (x : Exec) : Option Exec :=
  if x.hasTimeout then
    let y := { x with
      executeTimeout := wrap (x.executeTimeout - (timeNow now - x.startTime))
      startTime := timeNow now }
    if y.executeTimeout ≤ 0 then none else some y
  else some x

/-! ## Runs -/

/-- One round, in nanoseconds. `again` has a reading for each `epoll_wait` that a signal has
interrupted and that is called once more. -/
structure Turn where
  deadlines : List Int
  now : Int
  again : List Int
  after : Int
  deriving DecidableEq, Repr

/-- `left` is what the accounting leaves of the timeout, in milliseconds and not narrowed; `ends`
is when the timeout is over. -/
structure Watch where
  exec : Exec
  left : Int
  ends : Int
  returned : Bool
  deriving DecidableEq, Repr

def start (timeout now : Int) : Watch := ⟨setup timeout now, timeout, now + timeout * 1000000, false⟩

/-- The timers are sorted. The round in which `execute` returns is the last one. -/
def next (w : Watch) (t : Turn) : Option Watch :=
  if w.returned = false ∧ t.deadlines.Pairwise (· ≤ ·) then
    match account t.after w.exec with
    | some x => some { w with exec := x, left := w.left - (timeNow t.after - w.exec.startTime) }
    | none => some { w with returned := true }
  else none

def execute (timeout now : Int) : LTS Watch Turn := LTS.ofFn (· = start timeout now) next

/-- What is left of a duration, in the past or in the future. -/
def remaining (n : Int) : Int := if n < 0 then 0 else n

/-- The waits of a round end, with the first deadline and with the timeout at the latest, as far
away as the two are when `epoll_wait` is called. -/
def Right (w : Watch) (t : Turn) : Prop :=
  (t.deadlines ≠ [] ∨ w.exec.hasTimeout = true → 0 ≤ waitTime w.exec t.deadlines t.now) ∧
    ∀ now ∈ t.now :: t.again,
      (∀ d ∈ t.deadlines, waitTime w.exec t.deadlines t.now * 1000000 ≤ remaining (d - now)) ∧
      (w.exec.hasTimeout = true →
        waitTime w.exec t.deadlines t.now * 1000000 ≤ remaining (w.ends - now))

/-! ## When narrowing goes well -/

/-- `wrap` gives no negative number. -/
def Fits (n : Int) : Prop := n % 4294967296 < 2147483648

instance (n : Int) : Decidable (Fits n) := inferInstanceAs (Decidable (_ < _))

theorem wrap_cases (n : Int) : (Fits n ∧ wrap n = n % 4294967296) ∨ (¬ Fits n ∧ wrap n < 0) := by
  unfold Fits wrap Int.bmod
  by_cases h : n % 4294967296 < 2147483648
  · exact .inl ⟨h, if_pos (by omega)⟩
  · refine .inr ⟨h, ?_⟩
    rw [if_neg (by omega)]
    omega

theorem wrap_nonneg {n : Int} : 0 ≤ wrap n ↔ Fits n := by
  rcases wrap_cases n with ⟨h, he⟩ | ⟨h, hlt⟩
  · exact ⟨fun _ => h, fun _ => he ▸ Int.emod_nonneg n (by decide)⟩
  · exact ⟨fun hx => absurd hlt (Int.not_lt.mpr hx), fun hx => absurd hx h⟩

theorem Fits.wrap_eq {n : Int} (h : Fits n) : wrap n = n % 4294967296 := by
  rcases wrap_cases n with ⟨-, he⟩ | ⟨hno, -⟩
  · exact he
  · exact absurd h hno

theorem wrap_le_intMax (n : Int) : wrap n ≤ intMax := by
  rcases wrap_cases n with ⟨h, he⟩ | ⟨-, hlt⟩
  · rw [he]
    exact Int.le_of_lt_add_one h
  · exact Int.le_trans (Int.le_of_lt hlt) (by decide)

/-- Narrowing after every subtraction is narrowing once. -/
theorem wrap_sub (n k : Int) : wrap (wrap n - k) = wrap (n - k) := Int.bmod_sub_bmod

theorem epollTimeout_ahead (x : Exec) {d now : Int} (ds : List Int) (h : now ≤ d) :
    epollTimeout x (d :: ds) now = wrap (milliseconds (d - now)) := by
  simp only [epollTimeout, if_pos h, if_neg (Int.not_lt.mpr (wrap_le_intMax _))]

theorem epollTimeout_past (x : Exec) {d now : Int} (ds : List Int) (h : ¬ now ≤ d) :
    epollTimeout x (d :: ds) now = 0 := by
  simp only [epollTimeout, if_neg h]

/-! ## One round -/

/-- What the two `int`s are, in terms of the time that is left. -/
def Inv (w : Watch) : Prop :=
  w.exec.executeTimeout = if w.exec.hasTimeout then wrap w.left else intMax

theorem inv_start (timeout now : Int) : Inv (start timeout now) := by
  unfold Inv start setup
  split <;> rfl

/-- The accounting takes the same from the `int` as from the time that is left. -/
theorem inv_account {w : Watch} {after : Int} {x : Exec} (hi : Inv w)
    (hx : account after w.exec = some x) :
    Inv { w with exec := x, left := w.left - (timeNow after - w.exec.startTime) } := by
  unfold account at hx
  split at hx
  · rename_i ht
    simp only at hx
    split at hx
    · cases hx
    · cases hx
      rw [Inv, if_pos ht] at hi
      rw [Inv, if_pos ht]
      simp only [hi, wrap_sub]
  · cases hx
    rename_i ht
    rw [Inv, if_neg ht] at hi ⊢
    exact hi

theorem inv_step {w w' : Watch} {t : Turn} (hi : Inv w) (h : next w t = some w') : Inv w' := by
  unfold next at h
  split at h
  · cases hx : account t.after w.exec with
    | none =>
      rw [hx] at h
      cases h
      exact hi
    | some x =>
      rw [hx] at h
      cases h
      exact inv_account hi hx
  · cases h

/-- One of the two times that the wait is taken from is within `bound` nanoseconds. -/
def Within (w : Watch) (t : Turn) (bound : Int) : Prop :=
  (w.exec.hasTimeout = true ∧ w.left % 4294967296 * 1000000 ≤ bound) ∨
    ∃ d ∈ t.deadlines.head?,
      d < t.now ∨ milliseconds (d - t.now) % 4294967296 * 1000000 ≤ bound

/-- The times that are narrowed fit, and one of them is within what is left to the first deadline
and of the timeout at every `epoll_wait`. -/
def WaitFits (w : Watch) (t : Turn) : Prop :=
  ((w.exec.hasTimeout = true → Fits w.left) ∧
    ∀ d ∈ t.deadlines.head?, t.now ≤ d → Fits (milliseconds (d - t.now))) ∧
  ∀ now ∈ t.now :: t.again,
    (∀ d ∈ t.deadlines.head?, Within w t (remaining (d - now))) ∧
    (w.exec.hasTimeout = true → Within w t (remaining (w.ends - now)))

/-- A bound for the first deadline is one for all. -/
theorem forall_deadlines {d now : Int} {ds : List Int} {n : Int}
    (hs : (d :: ds).Pairwise (· ≤ ·)) :
    (∀ x ∈ d :: ds, n ≤ remaining (x - now)) ↔ n ≤ remaining (d - now) := by
  refine ⟨fun h => h d List.mem_cons_self, fun h x hx => Int.le_trans h ?_⟩
  have hle : d ≤ x := by
    rcases List.mem_cons.mp hx with rfl | hx
    · exact Int.le_refl x
    · exact (List.pairwise_cons.mp hs).1 x hx
  unfold remaining
  split <;> split <;> omega

theorem remaining_nonneg (n : Int) : 0 ≤ remaining n := by
  unfold remaining
  split <;> omega

theorem remaining_of_nonneg {n : Int} (h : 0 ≤ n) : remaining n = n := if_neg (Int.not_lt.mpr h)

theorem remaining_of_neg {n : Int} (h : n < 0) : remaining n = 0 := if_pos h

theorem waitTime_eq_min (x : Exec) (ds : List Int) (now : Int) :
    waitTime x ds now = min (epollTimeout x ds now) x.executeTimeout := by
  unfold waitTime
  split <;> omega

/-- Without timers only the timeout counts. -/
theorem waitTime_nil {x : Exec} (ht : x.hasTimeout = true) (now : Int) :
    waitTime x [] now = x.executeTimeout := by
  simp [waitTime, epollTimeout, ht]

theorem epollTimeout_nonneg (x : Exec) (d now : Int) (ds : List Int) :
    0 ≤ epollTimeout x (d :: ds) now ↔ (now ≤ d → Fits (milliseconds (d - now))) := by
  by_cases h : now ≤ d
  · rw [epollTimeout_ahead x ds h, wrap_nonneg]
    exact ⟨fun hx _ => hx, fun hx => hx h⟩
  · rw [epollTimeout_past x ds h]
    exact iff_of_true (Int.le_refl 0) fun hx => absurd hx h

/-- The wait has an end if and only if the times fit. -/
theorem nonneg_iff {w : Watch} {t : Turn} (hi : Inv w)
    (h : t.deadlines ≠ [] ∨ w.exec.hasTimeout = true) :
    0 ≤ waitTime w.exec t.deadlines t.now ↔ (w.exec.hasTimeout = true → Fits w.left) ∧
      ∀ d ∈ t.deadlines.head?, t.now ≤ d → Fits (milliseconds (d - t.now)) := by
  have hE : 0 ≤ w.exec.executeTimeout ↔ (w.exec.hasTimeout = true → Fits w.left) := by
    rw [show w.exec.executeTimeout = _ from hi]
    split
    · rename_i ht
      rw [wrap_nonneg]
      exact ⟨fun hx _ => hx, fun hx => hx ht⟩
    · rename_i ht
      exact iff_of_true (by decide) fun hx => absurd hx ht
  cases hd : t.deadlines with
  | nil =>
    rw [waitTime_nil (h.resolve_left (not_not_intro hd)), hE]
    simp
  | cons d ds =>
    rw [waitTime_eq_min, Int.le_min, epollTimeout_nonneg, hE, and_comm]
    simp

/-- The wait is within a bound if and only if one of its two times is. -/
theorem within_iff {w : Watch} {t : Turn} {bound : Int} (hi : Inv w) (hb : 0 ≤ bound)
    (h : t.deadlines ≠ [] ∨ w.exec.hasTimeout = true)
    (hfit : (w.exec.hasTimeout = true → Fits w.left) ∧
      ∀ d ∈ t.deadlines.head?, t.now ≤ d → Fits (milliseconds (d - t.now))) :
    waitTime w.exec t.deadlines t.now * 1000000 ≤ bound ↔ Within w t bound := by
  obtain ⟨hleft, hfirst⟩ := hfit
  have hE : w.exec.hasTimeout = true → w.exec.executeTimeout = w.left % 4294967296 := fun ht =>
    (hi.trans (if_pos ht)).trans (hleft ht).wrap_eq
  unfold Within
  cases hd : t.deadlines with
  | nil =>
    have ht := h.resolve_left (not_not_intro hd)
    simp [waitTime_nil ht, ht, hE ht]
  | cons d ds =>
    rw [hd] at hfirst
    -- the time to the first deadline, as the code has it
    have he : epollTimeout w.exec (d :: ds) t.now * 1000000 ≤ bound ↔
        d < t.now ∨ milliseconds (d - t.now) % 4294967296 * 1000000 ≤ bound := by
      by_cases hn : t.now ≤ d
      · rw [epollTimeout_ahead _ ds hn, (hfirst d rfl hn).wrap_eq]
        exact (or_iff_right (Int.not_lt.mpr hn)).symm
      · rw [epollTimeout_past _ ds hn]
        exact iff_of_true (by omega) (.inl (Int.not_le.mp hn))
    have hmin : waitTime w.exec (d :: ds) t.now * 1000000 ≤ bound ↔
        w.exec.executeTimeout * 1000000 ≤ bound ∨
          epollTimeout w.exec (d :: ds) t.now * 1000000 ≤ bound := by
      rw [waitTime_eq_min]
      omega
    have hpick : (∃ d' ∈ (d :: ds).head?, d' < t.now ∨
        milliseconds (d' - t.now) % 4294967296 * 1000000 ≤ bound) ↔
        d < t.now ∨ milliseconds (d - t.now) % 4294967296 * 1000000 ≤ bound := by simp
    rw [hmin, hpick, he]
    cases ht : w.exec.hasTimeout with
    | true => rw [hE ht]; simp
    | false =>
      -- without a timeout the other number is `INT_MAX`, which no wait exceeds
      have hmax : w.exec.executeTimeout = intMax := hi.trans (if_neg (by simp [ht]))
      have hle : epollTimeout w.exec (d :: ds) t.now ≤ intMax := by
        by_cases hn : t.now ≤ d
        · rw [epollTimeout_ahead _ ds hn]
          exact wrap_le_intMax _
        · rw [epollTimeout_past _ ds hn]
          decide
      rw [← he, hmax]
      simp only [Bool.false_eq_true, false_and, false_or]
      exact or_iff_right_of_imp fun hx => by omega

/-- The waits of a round are right if and only if the times fit. -/
theorem right_iff {w : Watch} {t : Turn} (hi : Inv w) (hs : t.deadlines.Pairwise (· ≤ ·)) :
    Right w t ↔ WaitFits w t := by
  by_cases h : t.deadlines ≠ [] ∨ w.exec.hasTimeout = true
  · unfold Right WaitFits
    rw [imp_iff_right h, nonneg_iff hi h]
    refine and_congr_right fun hfit => forall_congr' fun now => imp_congr_right fun _ => ?_
    refine and_congr ?_ (imp_congr_right fun _ => within_iff hi (remaining_nonneg _) h hfit)
    cases hd : t.deadlines with
    | nil => simp
    | cons d ds =>
      rw [forall_deadlines (hd ▸ hs), ← hd, within_iff hi (remaining_nonneg _) h hfit, hd]
      simp
  · obtain ⟨hd, ht⟩ := not_or.mp h
    have hnil : t.deadlines = [] := Classical.not_not.mp hd
    simp [Right, WaitFits, hnil, ht]

/-! ## A run -/

theorem next_sorted {w w' : Watch} {t : Turn} (h : next w t = some w') :
    t.deadlines.Pairwise (· ≤ ·) := by
  unfold next at h
  split at h
  · rename_i hs
    exact hs.2
  · cases h

theorem waits_from {timeout now : Int} {w : Watch} {tr : List (Turn × Watch)}
    (htr : (execute timeout now).Trace w tr) (hi : Inv w) :
    LTS.AllSteps Right w tr ↔ LTS.AllSteps WaitFits w tr := by
  induction htr with
  | nil => exact Iff.rfl
  | cons hs _ ih => exact and_congr (right_iff hi (next_sorted hs)) (ih (inv_step hi hs))

instance (w : Watch) (t : Turn) (bound : Int) : Decidable (Within w t bound) :=
  inferInstanceAs (Decidable (_ ∨ _))

instance (w : Watch) (t : Turn) : Decidable (WaitFits w t) :=
  inferInstanceAs (Decidable ((_ ∧ _) ∧ _))

/-- Two rounds of `execute(100)`, which returns after the second; a timer is 20 ms away, then
past. -/
def twoRounds : List Turn :=
  [⟨[30000000, 50000000], 10000000, [], 40000000⟩, ⟨[30000000], 40000000, [], 110000000⟩]

/-- `execute(100)`, and the events before the wait take 80 ms: the wait takes another 100. -/
example : waitTime (start 100 0).exec [] 80000000 = 100 ∧
    remaining ((start 100 0).ends - 80000000) = 20000000 := by decide

end Reckoning.L2.WaitTime
