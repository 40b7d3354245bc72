import Reckoning.L2Event.Timers

/-!
# A stopped timer and its `execute()`

`stop()` takes a timer out of `mTimers`. The fire phase has by then copied the
timers that are due, and it executes every copy: a callback that stops a timer
that is due with it comes too late (lib/event/Loop_epoll.cpp:279-281). It also
takes out one entry only, and a timer that was added twice has two.

`Watch` keeps beside the state which timers `stop()` has returned for on the
loop thread, since they were last added. The list may be any to begin with.

* `quiet_of_stopsRight`: where every such `stop()` is of a timer that is not among the copies
  still to be executed and at most once in the list, no stopped timer is executed.
* `stopped_due_executes`: one that is among them is, unless it is added again.
-/
namespace Reckoning.L2.Timers
open Reckoning.Search

section
variable {T : Type}

structure Watch (T : Type) where
  st : State T
  /-- `stop()` has returned on the loop thread, and no `addTimer` has followed -/
  stopped : T → Bool

/-- A stopped timer is nowhere from where it could come to be executed. -/
def Out (w : Watch T) : Prop := ∀ t, w.stopped t = true → t ∉ w.st.mTimers ∧ t ∉ w.st.due

/-- A step that brings no timer back and stops none. -/
theorem Out.of_subset {w w' : Watch T} (h : Out w) (hn : w'.stopped = w.stopped)
    (hm : w'.st.mTimers ⊆ w.st.mTimers) (hd : w'.st.due ⊆ w.st.mTimers ++ w.st.due) : Out w' := by
  intro t ht
  obtain ⟨h1, h2⟩ := h t (hn ▸ ht)
  exact ⟨fun hx => h1 (hm hx), fun hx => (List.mem_append.mp (hd hx)).elim h1 h2⟩

/-- `execute()` is called on no stopped timer. -/
def Quiet (w : Watch T) (l : Label T) : Prop :=
  l = .execute → ∀ t ∈ w.st.due.head?, w.stopped t = false

theorem Out.quiet {w : Watch T} {l : Label T} (h : Out w) : Quiet w l := by
  intro _ t ht
  refine Bool.eq_false_iff.mpr fun hst => (h t hst).2 ?_
  exact List.mem_of_mem_head? ht

variable [DecidableEq T]

/-- The bookkeeping of one step. -/
def note (stopped : T → Bool) : Label T → T → Bool
  | .stop .loop t => Function.update stopped t true
  | .addTimer t _ => Function.update stopped t false
  | _ => stopped

def next (w : Watch T) (l : Label T) : Option (Watch T) :=
  (step w.st l).map fun s => ⟨s, note w.stopped l⟩

/-- Any timers; none has been selected or stopped. -/
def watched : LTS (Watch T) (Label T) :=
  LTS.ofFn (fun w => w.st.due = [] ∧ w.st.running = none ∧ ∀ t, w.stopped t = false) next

/-- `stop()` on the loop thread comes before the fire phase has selected the timer, and finds it
in the list once at most. -/
def StopsRight (w : Watch T) : Label T → Prop
  | .stop .loop t => t ∉ w.st.due ∧ w.st.mTimers.count t ≤ 1
  | _ => True

instance (w : Watch T) : ∀ l, Decidable (StopsRight w l)
  | .stop .loop t => inferInstanceAs (Decidable (t ∉ w.st.due ∧ w.st.mTimers.count t ≤ 1))
  | .stop .other _ | .addTimer .. | .updateTimeout .. | .fire .. | .execute | .executed =>
    isTrue trivial

instance (w : Watch T) (l : Label T) : Decidable (Quiet w l) :=
  inferInstanceAs (Decidable (_ → ∀ t ∈ w.st.due.head?, _))

variable {w w' : Watch T} {l : Label T} {t : T}

theorem Out.step (h : Out w) (hc : StopsRight w l) (hs : next w l = some w') : Out w' := by
  obtain ⟨s', hstep, rfl⟩ := Option.map_eq_some_iff.mp hs
  cases l with
  | addTimer u now =>
    cases hstep
    intro t ht
    by_cases hu : t = u
    · subst hu
      simp [note] at ht
    · obtain ⟨h1, h2⟩ := h t (by simpa [note, hu] using ht)
      exact ⟨fun hx => (mem_insertBy.mp hx).elim hu h1, h2⟩
  | updateTimeout u timeout =>
    obtain ⟨-, rfl⟩ := step_updateTimeout hstep
    exact h.of_subset rfl (List.Subset.refl _) (List.subset_append_right _ _)
  | stop thread u =>
    obtain rfl := step_stop hstep
    cases thread with
    | other => exact h.of_subset rfl List.erase_subset (List.subset_append_right _ _)
    | loop =>
      obtain ⟨hdue, hone⟩ := hc
      intro t ht
      by_cases hu : t = u
      · subst hu
        refine ⟨fun hx => ?_, hdue⟩
        have hpos : 0 < (w.st.mTimers.erase t).count t := List.count_pos_iff.mpr hx
        rw [List.count_erase_self] at hpos
        omega
      · obtain ⟨h1, h2⟩ := h t (by simpa [note, hu] using ht)
        exact ⟨fun hx => h1 (List.mem_of_mem_erase hx), h2⟩
  | fire now order =>
    obtain ⟨-, -, hperm, -, rfl⟩ := step_fire hstep
    obtain ⟨hd, hm⟩ := fireLoop_subset now w.st.mTimers w.st.timer
    exact h.of_subset rfl (fun x hx => hm (hperm.mem_iff.mp hx))
      (fun x hx => List.mem_append_left _ (hd hx))
  | execute =>
    obtain ⟨u, rest, hdue, -, rfl⟩ := step_execute hstep
    refine h.of_subset rfl (List.Subset.refl _) fun x hx => List.mem_append_right _ ?_
    rw [hdue]
    exact List.mem_cons_of_mem u hx
  | executed =>
    obtain rfl := step_executed hstep
    exact h.of_subset rfl (List.Subset.refl _) (List.subset_append_right _ _)

theorem guarded_out : (watched (T := T)).Guarded StopsRight Out where
  init w hw t ht := by
    rw [hw.2.2 t] at ht
    cases ht
  step _ _ _ hi hc hs := hi.step hc hs

/-- Where every `stop()` on the loop thread comes in time, no stopped timer is executed. -/
theorem quiet_of_stopsRight (w : Watch T) (tr : List (Label T × Watch T))
    (hinit : watched.init w) (htr : watched.Trace w tr) (hstops : LTS.AllSteps StopsRight w tr) :
    LTS.AllSteps Quiet w tr :=
  guarded_out.allSteps (fun _ _ hi _ => hi.quiet) htr (guarded_out.init w hinit) hstops

/-- While no stopped timer is executed, one that is due stays due. -/
theorem due_step (hst : w.stopped t = true) (hdue : t ∈ w.st.due)
    (hadd : ∀ now, l ≠ .addTimer t now) (hq : Quiet w l) (hs : next w l = some w') :
    w'.stopped t = true ∧ t ∈ w'.st.due := by
  obtain ⟨s', hstep, rfl⟩ := Option.map_eq_some_iff.mp hs
  cases l with
  | addTimer u now =>
    cases hstep
    have hne : t ≠ u := fun he => hadd now (he ▸ rfl)
    exact ⟨by simpa [note, hne] using hst, hdue⟩
  | updateTimeout u timeout =>
    obtain ⟨-, rfl⟩ := step_updateTimeout hstep
    exact ⟨hst, hdue⟩
  | stop thread u =>
    obtain rfl := step_stop hstep
    refine ⟨?_, hdue⟩
    cases thread with
    | other => exact hst
    | loop => by_cases hu : t = u <;> simp [note, hu, hst]
  | fire now order =>
    obtain ⟨hnone, -⟩ := step_fire hstep
    rw [hnone] at hdue
    exact absurd hdue List.not_mem_nil
  | execute =>
    obtain ⟨u, rest, hd, -, rfl⟩ := step_execute hstep
    have hu : w.stopped u = false := hq rfl u (by rw [hd]; rfl)
    have hne : t ≠ u := fun he => by rw [he, hu] at hst; cases hst
    rw [hd] at hdue
    exact ⟨hst, (List.mem_cons.mp hdue).resolve_left hne⟩
  | executed =>
    obtain rfl := step_executed hstep
    exact ⟨hst, hdue⟩

/-- A timer that has been selected and is then stopped is executed when its turn comes, if it is
not added again: the run cannot get past it. -/
theorem stopped_due_executes {tr : List (Label T × Watch T)} (htr : watched.Trace w tr)
    (hst : w.stopped t = true) (hdue : t ∈ w.st.due)
    (hadd : ∀ x ∈ tr, ∀ now, x.1 ≠ .addTimer t now) (hpast : t ∉ (LTS.last w tr).st.due) :
    ¬ LTS.AllSteps Quiet w tr := by
  induction htr with
  | nil => exact absurd hdue hpast
  | @cons w w' l tr hs _ ih =>
    intro hquiet
    obtain ⟨hq, hquiet⟩ := hquiet
    obtain ⟨h1, h2⟩ := List.forall_mem_cons.mp hadd
    obtain ⟨hst', hdue'⟩ := due_step hst hdue h1 hq hs
    exact ih hst' hdue' h2 hpast hquiet

end

/-- Two timers in the list, the first one due. -/
def twoPending (second : Time) : Watch Char where
  st := {
    timer := fun t => if t = 'a' then ⟨1, 0, .timeout⟩ else ⟨1, second, .timeout⟩
    mTimers := ['a', 'b']
    due := []
    running := none }
  stopped _ := false

/-- The callback of timer `'a'` stops timer `'b'`. -/
def stopsOther (order : List Char) : List (Label Char) :=
  [.fire 5 order, .execute, .stop .loop 'b', .executed]

theorem quiet_pending : LTS.AllSteps Quiet (twoPending 9)
    ((LTS.record next (twoPending 9) (stopsOther ['b'])).get (by decide)) :=
  quiet_of_stopsRight _ _ ⟨rfl, rfl, fun _ => rfl⟩ (LTS.trace_record (by decide)) (by decide)

/-- Both are due: timer `'b'` is stopped, and executed after that. -/
theorem stopped_executes : ¬ ∀ (w : Watch Char) (tr : List (Label Char × Watch Char)),
    watched.init w → watched.Trace w tr → LTS.AllSteps Quiet w tr := by
  intro h
  have hquiet := h (twoPending 3)
    ((LTS.record next (twoPending 3) (stopsOther [] ++ [.execute])).get (by decide))
    ⟨rfl, rfl, fun _ => rfl⟩ (LTS.trace_record (by decide))
  revert hquiet
  decide

end Reckoning.L2.Timers
