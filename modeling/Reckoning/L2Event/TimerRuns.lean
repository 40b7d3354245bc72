import Reckoning.L2Event.Timers

/-!
# The timer list over whole runs

From an empty list, in every run in which `addTimer` is called on timers that
are not in the list (`AddsFresh`), the list stays sorted and without
repetition, and so the early `break` of the fire loop misses nothing. The clock
may say anything.

The deadlines are another matter: `now + mTimeout` is computed in 64-bit
nanoseconds and wraps from 9223372036855 ms on, so that a timer with a timeout
of `milliseconds::max()` is due a millisecond before it was added
(`maxTimeout_fires`).

* `Inv.step`: the invariant, operation by operation.
* `fire_phase_iff`: what one fire phase selects and keeps.
* `waiting_run`: a `Timeout` timer waits until it is stopped or a fire phase reaches its
  deadline, and is gone from then on.
* `timerList_iff`: a run keeps all of it, with the deadlines that the timeouts say, exactly
  when no deadline it computes leaves 64 bits.
-/
namespace Reckoning.L2.Timers
open Reckoning.Search

section
variable {T : Type} [DecidableEq T]

/-- A loop without timers. -/
def timers : LTS (State T) (Label T) :=
  LTS.ofFn (fun s => s.mTimers = [] ∧ s.due = [] ∧ s.running = none) step

/-- `addTimer` is called on a timer that is not in the list. -/
def AddsFresh (s : State T) : Label T → Prop
  | .addTimer t _ => t ∉ s.mTimers
  | _ => True

instance (s : State T) : ∀ l, Decidable (AddsFresh s l)
  | .addTimer t _ => inferInstanceAs (Decidable (t ∉ s.mTimers))
  | .updateTimeout .. | .stop .. | .fire .. | .execute | .executed => isTrue trivial

variable {s s' : State T} {l : Label T} {t : T} {now : Time} {order : List T}

/-! ## The invariant -/

structure Inv (s : State T) : Prop where
  sorted : Sorted s.timer s.mTimers
  nodup : s.mTimers.Nodup

theorem Inv.addTimer (h : Inv s) (hf : t ∉ s.mTimers) : Inv (addTimer now t s) where
  sorted := sorted_iff_ordered.mpr (Ordered.insertBy (strictWeak_earlier _)
    (sorted_iff_ordered.mp (Sorted.congr h.sorted (setNext_of_not_mem hf))))
  nodup := (insertBy_perm _ t s.mTimers).nodup_iff.mpr (List.nodup_cons.mpr ⟨hf, h.nodup⟩)

theorem Inv.stop (h : Inv s) : Inv (stop t s) where
  sorted := h.sorted.sublist List.erase_sublist
  nodup := h.nodup.erase t

theorem Inv.updateTimeout {timeout : Int} (h : Inv s) (hno : t ∉ s.mTimers) :
    Inv (updateTimeout timeout t s) where
  sorted := Sorted.congr h.sorted fun u hu =>
    Function.update_of_ne (fun he : u = t => hno (he ▸ hu)) _ _
  nodup := h.nodup

/-- A fire phase in closed form. -/
theorem Inv.fire (h : Inv s) (hs : step s (.fire now order) = some s') :
    order.Perm (fired now s.mTimers s.timer).mTimers ∧ Inv s' ∧
      s' = { s with
        timer := rearm now s.mTimers s.timer
        mTimers := order
        due := (fired now s.mTimers s.timer).due } := by
  obtain ⟨-, -, hperm, hsorted, rfl⟩ := step_fire hs
  rw [fireLoop_eq h.sorted h.nodup] at hperm hsorted ⊢
  exact ⟨hperm, ⟨hsorted, hperm.nodup_iff.mpr (h.nodup.filter _)⟩, rfl⟩

theorem Inv.step (h : Inv s) (hf : AddsFresh s l) (hs : step s l = some s') : Inv s' := by
  cases l with
  | addTimer t now =>
    cases hs
    exact h.addTimer hf
  | updateTimeout t timeout =>
    obtain ⟨hno, rfl⟩ := step_updateTimeout hs
    exact h.updateTimeout hno
  | stop thread t =>
    obtain rfl := step_stop hs
    exact h.stop
  | fire now order => exact (h.fire hs).2.1
  | execute =>
    obtain ⟨t, rest, -, -, rfl⟩ := step_execute hs
    exact ⟨h.sorted, h.nodup⟩
  | executed =>
    obtain rfl := step_executed hs
    exact ⟨h.sorted, h.nodup⟩

theorem guarded_inv : (timers (T := T)).Guarded AddsFresh Inv where
  init s hs := by
    obtain ⟨he, -, -⟩ := hs
    exact ⟨he ▸ List.Pairwise.nil, he ▸ List.nodup_nil⟩
  step _ _ _ hi hf hs := hi.step hf hs

/-! ## One fire phase -/

/-- A fire phase at `now` leads from `s` to `s'`. -/
structure FirePhase (s : State T) (now : Time) (s' : State T) : Prop where
  selected : ∀ t, t ∈ s'.due ↔ t ∈ s.mTimers ∧ (s.timer t).mNext ≤ now
  nodup : s'.due.Nodup
  inOrder : Sorted s.timer s'.due
  gone : ∀ t ∈ s'.due, (s.timer t).mFlag = .timeout → t ∉ s'.mTimers
  again : ∀ t ∈ s'.due, (s.timer t).mFlag = .interval →
    t ∈ s'.mTimers ∧ (s'.timer t).mNext = deadline now (s.timer t).mTimeout

/-- The interval timers that are due at `now` get deadlines that 64 bits hold. -/
def RearmsFit (s : State T) (now : Time) : Prop :=
  ∀ t ∈ s.mTimers, (s.timer t).mNext ≤ now → (s.timer t).mFlag = .interval →
    Holds64 (deadline now (s.timer t).mTimeout)

instance (s : State T) (now : Time) : Decidable (RearmsFit s now) :=
  inferInstanceAs (Decidable (∀ t ∈ s.mTimers, _))

theorem mem_fired_due {ts : List T} {timer : T → Timer} :
    t ∈ (fired now ts timer).due ↔ t ∈ ts ∧ Due timer now t := by
  simp [fired]

theorem mem_fired_mTimers {ts : List T} {timer : T → Timer} :
    t ∈ (fired now ts timer).mTimers ↔ t ∈ ts ∧ ¬ Expired timer now t := by
  simp [fired]

theorem fire_phase_iff (h : Inv s) (hs : step s (.fire now order) = some s') :
    FirePhase s now s' ↔ RearmsFit s now := by
  obtain ⟨hperm, -, rfl⟩ := h.fire hs
  -- what the phase writes into a timer that is to fire again
  have hnext : ∀ t ∈ (fired now s.mTimers s.timer).due, (s.timer t).mFlag = .interval →
      (rearm now s.mTimers s.timer t).mNext = plus now (s.timer t).mTimeout := by
    intro t ht hflag
    obtain ⟨hmem, hdue⟩ := mem_fired_due.mp ht
    simp [rearm, hmem, hdue, hflag]
  constructor
  · intro hphase t hmem hdue hflag
    have ht : t ∈ (fired now s.mTimers s.timer).due := mem_fired_due.mpr ⟨hmem, hdue⟩
    exact plus_eq_deadline_iff.mp ((hnext t ht hflag).symm.trans (hphase.again t ht hflag).2)
  · intro hfit
    refine {
      selected := fun t => mem_fired_due
      nodup := h.nodup.filter _
      inOrder := h.sorted.sublist List.filter_sublist
      gone := fun t ht hflag hin => ?_
      again := fun t ht hflag => ?_ }
    · obtain ⟨-, hdue⟩ := mem_fired_due.mp ht
      exact (mem_fired_mTimers.mp (hperm.mem_iff.mp hin)).2 ⟨hdue, hflag⟩
    · obtain ⟨hmem, hdue⟩ := mem_fired_due.mp ht
      have hkept : ¬ Expired s.timer now t := fun hx => by
        have := hflag.symm.trans hx.2
        cases this
      refine ⟨hperm.mem_iff.mpr (mem_fired_mTimers.mpr ⟨hmem, hkept⟩), ?_⟩
      exact (hnext t ht hflag).trans (plus_eq_deadline_iff.mpr (hfit t hmem hdue hflag))

/-- The loop thread can always fire: some sorted order is left. -/
theorem fire_enabled (now : Time) (hdue : s.due = []) (hrun : s.running = none) :
    ∃ order s', step s (.fire now order) = some s' := by
  let r := fireLoop now s.mTimers s.timer
  let le := fun t u => decide ((r.timer t).mNext ≤ (r.timer u).mNext)
  have htrans : ∀ a b c, le a b = true → le b c = true → le a c = true :=
    fun a b c hab hbc =>
      decide_eq_true (Int.le_trans (of_decide_eq_true hab) (of_decide_eq_true hbc))
  have htotal : ∀ a b, (le a b || le b a) = true := fun a b => by
    simp only [le, Bool.or_eq_true, decide_eq_true_iff]
    exact Int.le_total _ _
  have hsorted := List.pairwise_mergeSort htrans htotal r.mTimers
  refine ⟨r.mTimers.mergeSort le,
    { s with timer := r.timer, mTimers := r.mTimers.mergeSort le, due := r.due }, ?_⟩
  rw [step, if_pos ⟨hdue, hrun⟩]
  exact if_pos ⟨List.mergeSort_perm _ _, hsorted.imp fun h => of_decide_eq_true h⟩

/-! ## Over a run -/

/-- The timer is in the list for the deadline `d`, and is let go once it is selected. -/
structure Waiting (d : Time) (t : T) (s : State T) : Prop where
  mem : t ∈ s.mTimers
  next : (s.timer t).mNext = d
  flag : (s.timer t).mFlag = .timeout

omit [DecidableEq T] in
theorem Waiting.of_same {d : Time} (h : Waiting d t s) (hmem : t ∈ s'.mTimers)
    (hsame : s'.timer t = s.timer t) : Waiting d t s' :=
  ⟨hmem, (congrArg Timer.mNext hsame).trans h.next, (congrArg Timer.mFlag hsame).trans h.flag⟩

/-- The step takes a `Timeout` timer with the deadline `d` out of the list. -/
def Ends (d : Time) (t : T) : Label T → Prop
  | .stop _ u => u = t
  | .fire now _ => d ≤ now
  | _ => False

instance (d : Time) (t : T) : ∀ l, Decidable (Ends d t l)
  | .stop _ u => inferInstanceAs (Decidable (u = t))
  | .fire now _ => inferInstanceAs (Decidable (d ≤ now))
  | .addTimer .. | .updateTimeout .. | .execute | .executed => isFalse id

theorem waiting_step {d : Time} (hi : Inv s) (hf : AddsFresh s l) (hw : Waiting d t s)
    (hs : step s l = some s') : if Ends d t l then t ∉ s'.mTimers else Waiting d t s' := by
  have hmem := hw.mem
  cases l with
  | addTimer u now =>
    cases hs
    have hne : t ≠ u := fun he => hf (he ▸ hmem)
    exact hw.of_same (mem_insertBy.mpr (.inr hmem)) (Function.update_of_ne hne _ _)
  | updateTimeout u timeout =>
    obtain ⟨hno, rfl⟩ := step_updateTimeout hs
    have hne : t ≠ u := fun he => hno (he ▸ hmem)
    exact hw.of_same hmem (Function.update_of_ne hne _ _)
  | stop thread u =>
    obtain rfl := step_stop hs
    by_cases hu : u = t
    · rw [if_pos (show Ends d t (.stop thread u) from hu), hu]
      exact hi.nodup.not_mem_erase
    · rw [if_neg (show ¬ Ends d t (.stop thread u) from hu)]
      exact hw.of_same ((List.mem_erase_of_ne (Ne.symm hu)).mpr hmem) rfl
  | fire now order =>
    obtain ⟨hperm, -, rfl⟩ := hi.fire hs
    by_cases hd : d ≤ now
    · rw [if_pos (show Ends d t (.fire now order) from hd)]
      have hdue : Due s.timer now t := Int.le_trans (Int.le_of_eq hw.next) hd
      exact fun hin => (mem_fired_mTimers.mp (hperm.mem_iff.mp hin)).2 ⟨hdue, hw.flag⟩
    · rw [if_neg (show ¬ Ends d t (.fire now order) from hd)]
      have hdue : ¬ Due s.timer now t := fun hx => hd (hw.next ▸ hx)
      have hsame : rearm now s.mTimers s.timer t = s.timer t := if_neg fun hx => hdue hx.2.1
      have hkept : t ∈ order :=
        hperm.mem_iff.mpr (mem_fired_mTimers.mpr ⟨hmem, fun hx => hdue hx.1⟩)
      exact hw.of_same hkept hsame
  | execute =>
    obtain ⟨u, rest, -, -, rfl⟩ := step_execute hs
    exact hw.of_same hmem rfl
  | executed =>
    obtain rfl := step_executed hs
    exact hw.of_same hmem rfl

/-- Only `addTimer` brings a timer into the list. -/
theorem gone_step (hi : Inv s) (hno : t ∉ s.mTimers) (hadd : ∀ now, l ≠ .addTimer t now)
    (hs : step s l = some s') : t ∉ s'.mTimers := by
  cases l with
  | addTimer u now =>
    cases hs
    have hne : t ≠ u := fun he => hadd now (he ▸ rfl)
    exact fun hin => (mem_insertBy.mp hin).elim hne hno
  | updateTimeout u timeout =>
    obtain ⟨-, rfl⟩ := step_updateTimeout hs
    exact hno
  | stop thread u =>
    obtain rfl := step_stop hs
    exact fun hin => hno (List.mem_of_mem_erase hin)
  | fire now order =>
    obtain ⟨hperm, -, rfl⟩ := hi.fire hs
    exact fun hin => hno (mem_fired_mTimers.mp (hperm.mem_iff.mp hin)).1
  | execute =>
    obtain ⟨u, rest, -, -, rfl⟩ := step_execute hs
    exact hno
  | executed =>
    obtain rfl := step_executed hs
    exact hno

/-- The run leaves `t` alone: no `addTimer` of it. -/
def NoAdd (t : T) (tr : List (Label T × State T)) : Prop :=
  ∀ x ∈ tr, ∀ now, x.1 ≠ .addTimer t now

theorem gone_run {tr : List (Label T × State T)} (hi : Inv s) (hno : t ∉ s.mTimers)
    (htr : (timers.guard AddsFresh).Trace s tr) (hadd : NoAdd t tr) :
    t ∉ (LTS.last s tr).mTimers := by
  induction htr with
  | nil => exact hno
  | cons hs _ ih =>
    obtain ⟨hf, hs⟩ := hs
    obtain ⟨h1, h2⟩ := List.forall_mem_cons.mp hadd
    exact ih (hi.step hf hs) (gone_step hi hno h1 hs) h2

/-- Until it is stopped or a fire phase reaches its deadline, and not longer. -/
theorem waiting_run {tr : List (Label T × State T)} {d : Time} (hi : Inv s) (hw : Waiting d t s)
    (htr : (timers.guard AddsFresh).Trace s tr) (hadd : NoAdd t tr) :
    ((∃ x ∈ tr, Ends d t x.1) → t ∉ (LTS.last s tr).mTimers) ∧
      ((∀ x ∈ tr, ¬ Ends d t x.1) → Waiting d t (LTS.last s tr)) := by
  induction htr with
  | nil => exact ⟨fun ⟨_, hx, _⟩ => absurd hx List.not_mem_nil, fun _ => hw⟩
  | @cons s s' l tr hs htr ih =>
    obtain ⟨hf, hs⟩ := hs
    obtain ⟨h1, h2⟩ := List.forall_mem_cons.mp hadd
    have hi' : Inv s' := hi.step hf hs
    have hstep := waiting_step hi hf hw hs
    by_cases hl : Ends d t l
    · rw [if_pos hl] at hstep
      have hgone : t ∉ (LTS.last s' tr).mTimers := gone_run hi' hstep htr h2
      exact ⟨fun _ => hgone, fun hno => absurd hl (hno _ List.mem_cons_self)⟩
    · rw [if_neg hl] at hstep
      obtain ⟨hends, hwaits⟩ := ih hi' hstep h2
      refine ⟨fun hx => hends ?_, fun hno => hwaits fun x hx => hno x (List.mem_cons_of_mem _ hx)⟩
      obtain ⟨x, hmem, hx⟩ := hx
      rcases List.mem_cons.mp hmem with rfl | hmem
      · exact absurd hx hl
      · exact ⟨x, hmem, hx⟩

/-- A `Timeout` timer is selected in the first fire phase at or after its deadline, unless it was
stopped before, and in no other. -/
theorem timeout_selected {tr : List (Label T × State T)} (hi : Inv s) (ht : t ∈ s.mTimers)
    (hflag : (s.timer t).mFlag = .timeout)
    (htr : (timers.guard AddsFresh).Trace s (tr ++ [(.fire now order, s')])) (hadd : NoAdd t tr) :
    t ∈ s'.due ↔ (s.timer t).mNext ≤ now ∧ ∀ x ∈ tr, ¬ Ends (s.timer t).mNext t x.1 := by
  obtain ⟨htr, hfire⟩ := htr.of_append
  have hi' : Inv (LTS.last s tr) := htr.preserves (fun _ _ _ hi hs => hi.step hs.1 hs.2) hi
  obtain ⟨hends, hwaits⟩ := waiting_run hi ⟨ht, rfl, hflag⟩ htr hadd
  have hsel : t ∈ s'.due ↔
      t ∈ (LTS.last s tr).mTimers ∧ ((LTS.last s tr).timer t).mNext ≤ now := by
    cases hfire with
    | cons hs _ =>
      obtain ⟨-, -, heq⟩ := hi'.fire hs.2
      rw [heq]
      exact mem_fired_due
  rw [hsel]
  constructor
  · intro hx
    obtain ⟨hmem, hdue⟩ := hx
    have hno : ∀ x ∈ tr, ¬ Ends (s.timer t).mNext t x.1 :=
      fun x hx hend => hends ⟨x, hx, hend⟩ hmem
    exact ⟨(hwaits hno).next ▸ hdue, hno⟩
  · intro hx
    obtain ⟨hdue, hno⟩ := hx
    exact ⟨(hwaits hno).mem, (hwaits hno).next ▸ hdue⟩

/-! ## The list -/

/-- A step gives a timer the deadline that its timeout says, and a fire phase does what it is
for. -/
def Timely (s : State T) : Label T → Prop
  | .addTimer t now => ∀ s', step s (.addTimer t now) = some s' →
    (s'.timer t).mNext = deadline now (s.timer t).mTimeout
  | .fire now order => ∀ s', step s (.fire now order) = some s' → FirePhase s now s'
  | _ => True

/-- The deadlines that a step computes fit into 64 bits. -/
def Fits (s : State T) : Label T → Prop
  | .addTimer t now => Holds64 (deadline now (s.timer t).mTimeout)
  | .fire now _ => RearmsFit s now
  | _ => True

instance (s : State T) : ∀ l, Decidable (Fits s l)
  | .addTimer .. => inferInstanceAs (Decidable (Holds64 _))
  | .fire now _ => inferInstanceAs (Decidable (RearmsFit s now))
  | .updateTimeout .. | .stop .. | .execute | .executed => isTrue trivial

/-- What a run makes of the list. -/
structure TimerList (s : State T) (tr : List (Label T × State T)) : Prop where
  sorted : LTS.AllStates (fun s => Sorted s.timer s.mTimers) s tr
  nodup : LTS.AllStates (fun s => s.mTimers.Nodup) s tr
  timely : LTS.AllSteps Timely s tr
  /-- a `Timeout` timer is selected in the first fire phase at or after its deadline, unless it
  was stopped before, and in no other -/
  once : ∀ before t added s₁ between now order s₂ rest,
    tr = before ++ (.addTimer t added, s₁) :: (between ++ (.fire now order, s₂) :: rest) →
    (s₁.timer t).mFlag = .timeout → NoAdd t between →
    (t ∈ s₂.due ↔ deadline added (s₁.timer t).mTimeout ≤ now ∧
      ∀ x ∈ between, ¬ Ends (deadline added (s₁.timer t).mTimeout) t x.1)

theorem addTimer_mNext (hs : step s (.addTimer t now) = some s') :
    t ∈ s'.mTimers ∧ (s'.timer t).mNext = plus now (s'.timer t).mTimeout ∧
      (s'.timer t).mTimeout = (s.timer t).mTimeout := by
  cases hs
  exact ⟨mem_insertBy.mpr (.inl rfl), by simp [addTimer, setNext], by simp [addTimer, setNext]⟩

theorem timely_iff (hi : Inv s) (hs : step s l = some s') : Timely s l ↔ Fits s l := by
  cases l with
  | addTimer t now =>
    obtain ⟨-, hnext, hsame⟩ := addTimer_mNext hs
    rw [hsame] at hnext
    refine ⟨fun h => plus_eq_deadline_iff.mp (hnext.symm.trans (h s' hs)), fun h s₁ hs₁ => ?_⟩
    obtain rfl : s' = s₁ := Option.some.inj (hs.symm.trans hs₁)
    exact hnext.trans (plus_eq_deadline_iff.mpr h)
  | fire now order =>
    refine ⟨fun h => (fire_phase_iff hi hs).mp (h s' hs), fun h s₁ hs₁ => ?_⟩
    exact (fire_phase_iff hi hs₁).mpr h
  | updateTimeout _ _ | stop _ _ | execute | executed => exact Iff.rfl

/-- In a run every step is timely exactly when every step fits. -/
theorem allTimely_iff {tr : List (Label T × State T)} (hi : Inv s)
    (htr : (timers.guard AddsFresh).Trace s tr) :
    LTS.AllSteps Timely s tr ↔ LTS.AllSteps Fits s tr := by
  induction htr with
  | nil => exact Iff.rfl
  | cons hs _ ih => exact and_congr (timely_iff hi hs.2) (ih (hi.step hs.1 hs.2))

/-- The `Timeout` timer that a step of the run adds. -/
theorem added_selected {before between rest : List (Label T × State T)} {added : Time}
    {s₁ s₂ : State T} (hi : Inv s)
    (htr : (timers.guard AddsFresh).Trace s
      (before ++ (.addTimer t added, s₁) :: (between ++ (.fire now order, s₂) :: rest)))
    (hfit : LTS.AllSteps Fits s
      (before ++ (.addTimer t added, s₁) :: (between ++ (.fire now order, s₂) :: rest)))
    (hflag : (s₁.timer t).mFlag = .timeout) (hadd : NoAdd t between) :
    t ∈ s₂.due ↔ deadline added (s₁.timer t).mTimeout ≤ now ∧
      ∀ x ∈ between, ¬ Ends (deadline added (s₁.timer t).mTimeout) t x.1 := by
  induction before generalizing s with
  | nil =>
    rw [List.nil_append] at htr hfit
    cases htr with
    | cons hs htr =>
      obtain ⟨hf, hs⟩ := hs
      have hfits : Holds64 (deadline added (s.timer t).mTimeout) := hfit.1
      obtain ⟨hmem, hnext, hsame⟩ := addTimer_mNext hs
      rw [← hsame] at hfits
      rw [plus_eq_deadline_iff.mpr hfits] at hnext
      have hcut : between ++ (Label.fire now order, s₂) :: rest =
          (between ++ [(.fire now order, s₂)]) ++ rest := by simp
      rw [hcut] at htr
      rw [← hnext]
      exact timeout_selected (hi.step hf hs) hmem hflag htr.of_append.1 hadd
  | cons x before ih =>
    rw [List.cons_append] at htr hfit
    cases htr with
    | cons hs htr => exact ih (hi.step hs.1 hs.2) htr hfit.2

/-- **A run of the timer list is right exactly when no deadline it computes leaves 64 bits.** -/
theorem timerList_iff {tr : List (Label T × State T)} (h0 : timers.init s)
    (htr : (timers.guard AddsFresh).Trace s tr) :
    TimerList s tr ↔ LTS.AllSteps Fits s tr := by
  have hi : Inv s := guarded_inv.init s h0
  refine ⟨fun h => (allTimely_iff hi htr).mp h.timely, fun hfit => ?_⟩
  have hall : LTS.AllStates Inv s tr := guarded_inv.inductive.allStates htr hi
  exact {
    sorted := ⟨hall.1.sorted, fun x hx => (hall.2 x hx).sorted⟩
    nodup := ⟨hall.1.nodup, fun x hx => (hall.2 x hx).nodup⟩
    timely := (allTimely_iff hi htr).mpr hfit
    once := fun _ _ _ _ _ _ _ _ _ heq hflag hadd => by
      subst heq
      exact added_selected hi htr hfit hflag hadd }

end

/-- Timer `'a'` is a `Timeout` of 20 ms, timer `'b'` an `Interval` of 10 ms, timer `'c'` a
`Timeout` of `milliseconds::max()`. -/
def threeTimers : State Char where
  timer t :=
    if t = 'a' then ⟨20, 0, .timeout⟩
    else if t = 'b' then ⟨10, 0, .interval⟩
    else ⟨9223372036854775807, 0, .timeout⟩
  mTimers := []
  due := []
  running := none

/-- Timer `'b'` is selected, and its next deadline puts it behind the other one. -/
def twoTimersRun : List (Label Char) :=
  [.addTimer 'a' 100, .addTimer 'b' 200, .fire 10000200 ['a', 'b'], .execute, .executed]

theorem twoTimersRun_runs : (LTS.record step threeTimers twoTimersRun).isSome := by decide

theorem timerList_twoTimers :
    TimerList threeTimers ((LTS.record step threeTimers twoTimersRun).get twoTimersRun_runs) :=
  (timerList_iff ⟨rfl, rfl, rfl⟩ ((LTS.trace_record twoTimersRun_runs).guard (by decide))).mpr
    (by decide)

/-- Timer `'c'` is selected one second after the clock's start, when it was added. -/
def maxTimeoutRun : List (Label Char) := [.addTimer 'c' 1000000000, .fire 1000000000 []]

theorem maxTimeoutRun_runs : (LTS.record step threeTimers maxTimeoutRun).isSome := by decide

theorem maxTimeout_fires : ∃ tr, (timers.guard AddsFresh).Trace threeTimers tr ∧
    tr.map Prod.fst = maxTimeoutRun ∧ (LTS.last threeTimers tr).due = ['c'] ∧
    ¬ TimerList threeTimers tr := by
  refine ⟨_, (LTS.trace_record maxTimeoutRun_runs).guard (by decide), by decide, by decide,
    fun h => ?_⟩
  have hfits := (allTimely_iff (guarded_inv.init _ ⟨rfl, rfl, rfl⟩)
    ((LTS.trace_record maxTimeoutRun_runs).guard (by decide))).mp h.timely
  exact absurd hfits (by decide)

end Reckoning.L2.Timers
