import Reckoning.L2Event.Dispatch
import Reckoning.L2Event.Registry
import Reckoning.Core.LTS

/-!
# Closing descriptors

`Loop::execute` as a machine over whole iterations, as far as descriptors are
concerned: the process step, the move of `mRemovedFds` to a local list and the
closing of that list, the batch of events with the immediate `close` of an
error event. `addFd`, `updateFd` and `removeFd` may be called between any two
of these steps: by a callback, by another thread.

Ghosts: `life` is what has happened to a descriptor number, `again` whether it
was registered anew since the loop last waited (so that an event still in the
batch is not about this registration), `handles` counts the `Loop::FD`s that
its owners still hold (`FD::remove` lets go of one,
include/event/Loop.h:479-488). A `close` that a number must not get is a
`Fault`; so is a read past the end of `mFds`, after which nothing is defined.

A `close` that answers `EINTR` has closed the descriptor all the same, and
`eintrwrap` calls it once more: the step with `eintr` leaves the loop in front
of the `close`.

* `Keeps`: the condition on one step. The first clause for `removeFd` is what
  TcpSocket's callback does not meet on `FdError`
  (lib/net/TcpSocket.cpp:107-112).
* `close_once`: a run whose steps all meet it has no fault in any state.
* `error_closes_twice`: the error event of a TcpSocket with two descriptors.
-/
namespace Reckoning.L2.Closing
open Reckoning.L2.EventLoop Reckoning.L2.Dispatch

variable {α : Type}

/-- A descriptor number's history. -/
structure Life where
  /-- the last call for it was `addFd` -/
  registered : Bool
  /-- the loop has closed it since the last `addFd`, or there was none -/
  closed : Bool
  deriving DecidableEq, Repr

namespace Life
def unregistered : Life := ⟨false, true⟩
def current : Life := ⟨true, false⟩
def removed : Life := ⟨false, false⟩
end Life

inductive Fault
  /-- a `close` with no `addFd` since the last one -/
  | twice
  /-- a `close` for a removal (or for an error) that an `addFd` came after -/
  | reregistered
  /-- `mFds` is read past its end -/
  | pastEnd
  deriving DecidableEq, Repr

/-- Where `Loop::execute` is. -/
inductive Phase
  | newFds
  | takeRemoved
  /-- the local list `fds` -/
  | closing (fds : List Fd)
  /-- the events not yet dispatched -/
  | dispatch (batch : List (Fd × Todo))
  /-- in front of the `close` of an error event -/
  | error (fd : Fd)
  deriving DecidableEq, Repr

structure State (α : Type) where
  loop : Loop α
  phase : Phase
  /-- the descriptors the kernel watches -/
  interest : List Fd
  life : Fd → Life
  again : Fd → Bool
  handles : Fd → Nat
  fault : Option Fault

inductive Label (α : Type)
  | addFd (fd : Fd) (flags : Flags) (callback : α)
  | updateFd (fd : Fd) (flags : Flags)
  | removeFd (fd : Fd)
  | newFds
  | takeRemoved
  | closeRemoved (eintr : Bool)
  | wait (batch : List (Fd × Todo))
  | event
  | closeError (eintr : Bool)
  | timers
  deriving DecidableEq

def State.init : State α :=
  ⟨.init, .newFds, [], fun _ => .unregistered, fun _ => false, fun _ => 0, none⟩

/-! ## The steps -/

/-- `f` with the value of `fd` changed. -/
def set {β : Type} (f : Fd → β) (fd : Fd) (b : β) : Fd → β := fun g => if g = fd then b else f g

def add (fd : Fd) (flags : Flags) (callback : α) (s : State α) : State α :=
  { s with
    loop := addFd fd flags callback s.loop
    life := set s.life fd .current
    again := set s.again fd (s.again fd || s.life fd != .current)
    handles := set s.handles fd (s.handles fd + 1) }

def remove (fd : Fd) (s : State α) : State α :=
  { s with
    loop := removeFd fd s.loop
    life := set s.life fd { s.life fd with registered := false }
    handles := set s.handles fd (s.handles fd - 1) }

/-- mirrors lib/event/Loop_epoll.cpp:129-171 -/
def newFds (s : State α) : State α :=
  match processNewFds s.loop with
  | .ok loop =>
    { s with
      loop := loop
      phase := .takeRemoved
      interest := s.interest ++ keys s.loop.mPendingFds }
  | .error _ => { s with fault := some .pastEnd }

/-- mirrors lib/event/Loop_epoll.cpp:188-205 -/
def takeRemoved (s : State α) : State α :=
  { s with
    loop := { s.loop with mUpdateFds := [], mRemovedFds := [] }
    phase := .closing s.loop.mRemovedFds }

/-- What is wrong with a `close` of the loop. `stale`: it is not about the last
registration, if the number is registered. -/
def closeFault (stale : Bool) (life : Life) : Option Fault :=
  if life.closed then some .twice
  else if life.registered && stale then some .reregistered
  else none

/-- `epoll_ctl(EPOLL_CTL_DEL)` and `close`. -/
def close (fd : Fd) (stale : Bool) (s : State α) : State α :=
  { s with
    interest := s.interest.filter (· ≠ fd)
    life := set s.life fd { s.life fd with closed := true }
    fault := closeFault stale (s.life fd) }

/-- An error event up to the `close`, for what `processFd` finds.
mirrors lib/event/Loop_epoll.cpp:231-234 -/
def takeError (fd : Fd) (s : State α) : State α :=
  match processFd fd fdError s.loop with
  | (.pastEnd, loop) => { s with loop := loop, fault := some .pastEnd }
  | (_, loop) => { s with loop := loop, phase := .error fd, interest := s.interest.filter (· ≠ fd) }

/-- The kernel reports what it watches, and the wakeup pipe. -/
def Reportable (wakeup : Fd) (interest : List Fd) (batch : List (Fd × Todo)) : Prop :=
  (keys batch).Nodup ∧ ∀ x ∈ batch, x.1 ∈ interest ∨ (x.1 = wakeup ∧ x.2 = .io true false)

instance (wakeup : Fd) (interest : List Fd) (batch : List (Fd × Todo)) :
    Decidable (Reportable wakeup interest batch) := inferInstanceAs (Decidable (_ ∧ _))

def step (wakeup : Fd) (s : State α) (l : Label α) : Option (State α) :=
  if s.fault.isSome then none
  else
    match l, s.phase with
    | .addFd fd flags callback, _ => if flags.error then none else some (add fd flags callback s)
    | .updateFd fd flags, _ =>
      if flags.error then none else some { s with loop := updateFd fd flags s.loop }
    | .removeFd fd, _ => if 0 < s.handles fd then some (remove fd s) else none
    | .newFds, .newFds => some (newFds s)
    | .takeRemoved, .takeRemoved => some (takeRemoved s)
    -- a removal is older than the `addFd` of a number that is registered
    | .closeRemoved eintr, .closing (fd :: fds) =>
      some { close fd true s with phase := .closing (if eintr then fd :: fds else fds) }
    | .wait batch, .closing [] =>
      if Reportable wakeup s.interest batch then
        some { s with phase := .dispatch batch, again := fun _ => false }
      else none
    | .event, .dispatch ((fd, .error) :: _) => some (takeError fd s)
    -- the callbacks of a read or write event are the calls that come between the steps
    | .event, .dispatch ((fd, .io read write) :: batch) =>
      some { s with phase := .dispatch (if setsE wakeup (fd, .io read write) then [] else batch) }
    -- `close` leaves 0 or -1 in `e`
    | .closeError eintr, .error fd =>
      some { close fd (s.again fd) s with phase := if eintr then .error fd else .dispatch [] }
    | .timers, .dispatch [] => some { s with phase := .newFds }
    | _, _ => none

def closing (α : Type) (wakeup : Fd) : LTS (State α) (Label α) := .ofFn (· = State.init) (step wakeup)

/-! ## The condition -/

/-- `fd` is not in the list that is being closed. -/
def Phase.NotTaken (fd : Fd) : Phase → Prop
  | .closing fds => fd ∉ fds
  | _ => True

/-- No error event of `fd` is in front of its `close`. -/
def Phase.NotFailing (fd : Fd) : Phase → Prop
  | .error g => g ≠ fd
  | _ => True

/-- The error event to be taken up is about the registration that its number
has, and the number's entry is not the last of `mFds`. -/
def Phase.Sound (s : State α) : Phase → Prop
  | .dispatch ((fd, .error) :: _) =>
    s.life fd = .current ∧ s.again fd = false ∧
      (keys s.loop.mFds).idxOf fd + 1 ≠ s.loop.mFds.length
  | _ => True

/-- The condition on the state before a step and on its label. -/
def Keeps (s : State α) : Label α → Prop
  | .addFd fd _ _ => s.phase.NotTaken fd
  | .removeFd fd => s.phase.NotFailing fd ∧ s.life fd = .current
  | .newFds => s.loop.mPendingFds = [] ∨ s.loop.mPendingFds.length ∣ s.loop.mFds.length
  | .event => s.phase.Sound s
  | .closeRemoved eintr => eintr = false
  | .closeError eintr => eintr = false
  | _ => True

/-! ## Lemmas of the steps -/

@[simp] theorem set_self {β : Type} (f : Fd → β) (fd : Fd) (b : β) : set f fd b fd = b := if_pos rfl

theorem set_of_ne {β : Type} {f : Fd → β} {fd g : Fd} {b : β} (h : g ≠ fd) : set f fd b g = f g :=
  if_neg h

/-- Where the entry of `fd` is not the last one, `processFd` stays inside `mFds`. -/
theorem findFd_error_ne_pastEnd {fd : Fd} : ∀ {t : List (Fd × α)},
    (keys t).idxOf fd + 1 ≠ t.length → findFd fd fdError t ≠ .pastEnd
  | [], _ => nofun
  | e :: rest, h => by
    unfold findFd
    by_cases he : e.1 = fd
    · cases rest with
      | nil => simp [he] at h
      | cons next rest => rw [if_pos he]; nofun
    · rw [if_neg he]
      refine findFd_error_ne_pastEnd fun hrest => h ?_
      simp [List.idxOf_cons, beq_false_of_ne he, hrest]

theorem takeError_eq {fd : Fd} {s : State α}
    (h : (keys s.loop.mFds).idxOf fd + 1 ≠ s.loop.mFds.length) :
    takeError fd s = { s with
      loop := { s.loop with mFds := eraseFd fd s.loop.mFds }
      phase := .error fd
      interest := s.interest.filter (· ≠ fd) } := by
  have hne := findFd_error_ne_pastEnd h
  cases hfound : findFd fd fdError s.loop.mFds with
  | pastEnd => exact absurd hfound hne
  | none | call => simp only [takeError, processFd, hfound]; rfl

/-- The process step only moves entries of the tables. -/
theorem newFds_eq {s : State α}
    (h : s.loop.mPendingFds = [] ∨ s.loop.mPendingFds.length ∣ s.loop.mFds.length) :
    ∃ fds, newFds s = { s with
      loop := { s.loop with mFds := fds, mPendingFds := [] }
      phase := .takeRemoved
      interest := s.interest ++ keys s.loop.mPendingFds } := by
  by_cases hp : s.loop.mPendingFds = []
  · refine ⟨s.loop.mFds, ?_⟩
    have hl : { s.loop with mPendingFds := [] } = s.loop := by rw [← hp]
    rw [newFds, processNewFds, if_pos hp]
    dsimp only
    rw [hl]
  · rw [newFds, Registry.processNewFds_eq hp, if_pos (h.resolve_left hp)]
    exact ⟨_, rfl⟩

/-! ## Invariant -/

/-- What a phase knows: the taken descriptors are removed ones, each once; an
error event is about the registration that its number has. -/
def PhaseOk (s : State α) : Phase → Prop
  | .closing fds => fds.Nodup ∧ ∀ fd ∈ fds, s.life fd = .removed ∧ fd ∉ s.loop.mRemovedFds
  | .error fd => s.life fd = .current ∧ s.again fd = false
  | _ => True

structure Inv (s : State α) : Prop where
  fault : s.fault = none
  removed : ∀ fd ∈ s.loop.mRemovedFds, s.life fd = .removed
  once : s.loop.mRemovedFds.Nodup
  phase : PhaseOk s s.phase

theorem inv_init : Inv (State.init : State α) := ⟨rfl, nofun, List.nodup_nil, trivial⟩

theorem inv_add {s : State α} {fd : Fd} {flags : Flags} {callback : α} (h : Inv s)
    (htaken : s.phase.NotTaken fd) : Inv (add fd flags callback s) := by
  have hmem : ∀ g ∈ s.loop.mRemovedFds.erase fd, g ∈ s.loop.mRemovedFds ∧ g ≠ fd := fun g hg =>
    ⟨List.mem_of_mem_erase hg, fun he => h.once.not_mem_erase (he ▸ hg)⟩
  refine ⟨h.fault, fun g hg => ?_, h.once.erase fd, ?_⟩
  · exact (set_of_ne (hmem g hg).2).trans (h.removed g (hmem g hg).1)
  · have hph := h.phase
    dsimp only [add]
    cases hp : s.phase with
    | closing fds =>
      rw [hp] at hph htaken
      refine ⟨hph.1, fun g hg => ?_⟩
      have hne : g ≠ fd := fun he => htaken (he ▸ hg)
      exact ⟨(set_of_ne hne).trans (hph.2 g hg).1, fun hin => (hph.2 g hg).2 (hmem g hin).1⟩
    | error g =>
      -- the number in error has a registration, so this one does not count as another
      rw [hp] at hph
      obtain ⟨hlife, hagain⟩ := hph
      by_cases hg : g = fd
      · subst hg
        exact ⟨set_self .., (set_self ..).trans (by simp [hlife, hagain])⟩
      · exact ⟨(set_of_ne hg).trans hlife, (set_of_ne hg).trans hagain⟩
    | newFds | takeRemoved | dispatch batch => trivial

theorem inv_remove {s : State α} {fd : Fd} (h : Inv s) (hfailing : s.phase.NotFailing fd)
    (hreg : s.life fd = .current) : Inv (remove fd s) := by
  -- a removed descriptor is another one
  have hne : ∀ g, s.life g = .removed → g ≠ fd := fun g hg he => by
    rw [he, hreg] at hg; cases hg
  refine ⟨h.fault, fun g hg => ?_, ?_, ?_⟩
  · rcases List.mem_append.mp hg with hg | hg
    · exact (set_of_ne (hne g (h.removed g hg))).trans (h.removed g hg)
    · rw [List.mem_singleton.mp hg]; exact (set_self ..).trans (by rw [hreg]; rfl)
  · refine List.nodup_append.mpr ⟨h.once, by simp, fun a ha b hb hab => ?_⟩
    exact hne a (h.removed a ha) (hab.trans (List.mem_singleton.mp hb))
  · have hph := h.phase
    dsimp only [remove]
    cases hp : s.phase with
    | closing fds =>
      rw [hp] at hph
      refine ⟨hph.1, fun g hg => ?_⟩
      have hg' := hne g (hph.2 g hg).1
      refine ⟨(set_of_ne hg').trans (hph.2 g hg).1, fun hin => ?_⟩
      rcases List.mem_append.mp hin with hin | hin
      · exact (hph.2 g hg).2 hin
      · exact hg' (List.mem_singleton.mp hin)
    | error g =>
      rw [hp] at hph hfailing
      have hne' : g ≠ fd := hfailing
      exact ⟨(set_of_ne hne').trans hph.1, hph.2⟩
    | newFds | takeRemoved | dispatch batch => trivial

theorem inv_takeRemoved {s : State α} (h : Inv s) : Inv (takeRemoved s) :=
  ⟨h.fault, nofun, List.nodup_nil, h.once, fun fd hfd => ⟨h.removed fd hfd, nofun⟩⟩

/-- A `close` of a descriptor that is not waiting to be closed. -/
theorem inv_close {s : State α} {fd : Fd} {stale : Bool} {p : Phase} (h : Inv s)
    (hfault : closeFault stale (s.life fd) = none) (hnot : fd ∉ s.loop.mRemovedFds)
    (hp : PhaseOk { close fd stale s with phase := p } p) :
    Inv { close fd stale s with phase := p } := by
  refine ⟨hfault, fun g hg => ?_, h.once, hp⟩
  have hne : g ≠ fd := fun he => hnot (he ▸ hg)
  exact (set_of_ne hne).trans (h.removed g hg)

theorem inv_closeRemoved {s : State α} {fd : Fd} {fds : List Fd} (h : Inv s)
    (hp : s.phase = .closing (fd :: fds)) : Inv { close fd true s with phase := .closing fds } := by
  have hph := h.phase
  rw [hp] at hph
  obtain ⟨hnd, hall⟩ := hph
  obtain ⟨hfd, hnd'⟩ := List.nodup_cons.mp hnd
  obtain ⟨hlife, hnot⟩ := hall fd List.mem_cons_self
  refine inv_close h (by rw [hlife]; rfl) hnot ⟨hnd', fun g hg => ?_⟩
  obtain ⟨hg1, hg2⟩ := hall g (List.mem_cons_of_mem _ hg)
  have hne : g ≠ fd := fun he => hfd (he ▸ hg)
  exact ⟨(set_of_ne hne).trans hg1, hg2⟩

theorem inv_closeError {s : State α} {fd : Fd} (h : Inv s) (hp : s.phase = .error fd) :
    Inv { close fd (s.again fd) s with phase := .dispatch [] } := by
  have hph := h.phase
  rw [hp] at hph
  obtain ⟨hlife, hagain⟩ := hph
  refine inv_close h (by rw [hlife, hagain]; rfl) (fun hin => ?_) trivial
  rw [h.removed fd hin] at hlife
  cases hlife

theorem inv_step {wakeup : Fd} {s s' : State α} {l : Label α} (h : Inv s) (hk : Keeps s l)
    (hs : step wakeup s l = some s') : Inv s' := by
  unfold step at hs
  rw [if_neg (by rw [h.fault]; exact Bool.false_ne_true)] at hs
  split at hs
  · split at hs <;> cases hs
    exact inv_add h hk
  · split at hs <;> cases hs
    exact ⟨h.fault, h.removed, h.once, h.phase⟩
  · split at hs <;> cases hs
    exact inv_remove h hk.1 hk.2
  · cases hs
    obtain ⟨fds, heq⟩ := newFds_eq hk
    rw [heq]
    exact ⟨h.fault, h.removed, h.once, trivial⟩
  · cases hs
    exact inv_takeRemoved h
  · rename_i eintr fd fds hp
    have heintr : eintr = false := hk
    subst heintr
    cases hs
    exact inv_closeRemoved h hp
  · split at hs <;> cases hs
    exact ⟨h.fault, h.removed, h.once, trivial⟩
  · rename_i hp
    cases hs
    simp only [Keeps, hp] at hk
    obtain ⟨hlife, hagain, hlast⟩ := hk
    rw [takeError_eq hlast]
    exact ⟨h.fault, h.removed, h.once, hlife, hagain⟩
  · cases hs
    exact ⟨h.fault, h.removed, h.once, trivial⟩
  · rename_i eintr fd hp
    have heintr : eintr = false := hk
    subst heintr
    cases hs
    exact inv_closeError h hp
  · cases hs
    exact ⟨h.fault, h.removed, h.once, trivial⟩
  · cases hs

theorem guarded (wakeup : Fd) : (closing α wakeup).Guarded Keeps Inv where
  init s hs := by rw [show s = State.init from hs]; exact inv_init
  step _ _ _ h hk hs := inv_step h hk hs

instance (fd : Fd) : (p : Phase) → Decidable (p.NotTaken fd)
  | .closing fds => inferInstanceAs (Decidable (fd ∉ fds))
  | .newFds | .takeRemoved | .dispatch _ | .error _ => .isTrue trivial

instance (fd : Fd) : (p : Phase) → Decidable (p.NotFailing fd)
  | .error g => inferInstanceAs (Decidable (g ≠ fd))
  | .newFds | .takeRemoved | .closing _ | .dispatch _ => .isTrue trivial

instance (s : State α) : (p : Phase) → Decidable (p.Sound s)
  | .dispatch ((_, .error) :: _) => inferInstanceAs (Decidable (_ ∧ _ ∧ _))
  | .dispatch [] | .dispatch ((_, .io ..) :: _) => .isTrue trivial
  | .newFds | .takeRemoved | .closing _ | .error _ => .isTrue trivial

instance (s : State α) : DecidablePred (Keeps s)
  | .addFd fd _ _ => inferInstanceAs (Decidable (s.phase.NotTaken fd))
  | .removeFd _ => inferInstanceAs (Decidable (_ ∧ _))
  | .newFds => inferInstanceAs (Decidable (_ ∨ _))
  | .event => inferInstanceAs (Decidable (s.phase.Sound s))
  | .closeRemoved eintr | .closeError eintr => inferInstanceAs (Decidable (eintr = false))
  | .updateFd .. | .takeRemoved | .wait _ | .timers => .isTrue trivial

/-- An error event that its owner does not answer, and a descriptor that its
owner removes. -/
def oneEach : List (Label Nat) :=
  [.addFd 5 fdRead 1, .addFd 6 fdRead 2, .newFds, .takeRemoved, .wait [(5, .error)], .event,
    .closeError false, .timers, .newFds, .takeRemoved, .wait [(6, .io true false)], .event,
    .removeFd 6, .timers, .newFds, .takeRemoved, .closeRemoved false]

theorem oneEach_runs : (LTS.record (step 3) State.init oneEach).isSome := by decide

/-- The two descriptors of a socket: the error event of 5 runs the callback of
the next entry, which is the same socket's, and it removes 5. -/
def removedOnError : List (Label Nat) :=
  [.addFd 5 fdRead 1, .addFd 6 fdRead 1, .newFds, .takeRemoved, .wait [(5, .error)], .event,
    .removeFd 5, .closeError false, .timers, .newFds, .takeRemoved, .closeRemoved false]

theorem removedOnError_runs : (LTS.record (step 3) State.init removedOnError).isSome := by decide

end Reckoning.L2.Closing
