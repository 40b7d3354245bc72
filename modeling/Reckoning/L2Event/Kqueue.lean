import Reckoning.L2Event.Interest
import Reckoning.L2Event.WaitTime

/-!
# The kqueue backend

`Loop_kqueue.cpp` is `Loop_epoll.cpp` but for what it tells the kernel and how
it waits (lib/event/Loop_kqueue.cpp:151-243). kqueue has one filter for reading
and one for writing. Each can be set or deleted at any time, whereas epoll
changes only what it has been given before. Deleting a removed descriptor names
no filter and fails; what takes it out is `close`.

`State` has the tables of both kernels, over the same calls and the same halves
of iterations of one loop. As in `L2Event.Interest` the descriptors of the calls
are open, and calls may come between the halves.

* `agree_iff`: the two kernels watch for the same throughout a run exactly when
  no half finds one of two things in the queues.
* `watches_exactly`: what both watch after an iteration are the registered
  descriptors and nothing else, when they are added afresh.
* `waits_exactly_iff`: the wait, which is in nanoseconds, is exact to the first
  deadline and to the timeout, except for what narrowing does to the timeout and
  for the time that goes by between the accounting and the wait.
-/
namespace Reckoning.L2.Kqueue
open Reckoning.L2.EventLoop
open Reckoning.L2.Interest (lastUpdate)

variable {α : Type}

/-! ## kqueue -/

/-- The filters of a descriptor that are set, `EVFILT_READ` and `EVFILT_WRITE`. -/
structure Filters where
  read : Bool
  write : Bool
  deriving DecidableEq, Repr

def Filters.none : Filters := ⟨false, false⟩

abbrev Kernel := Fd → Filters

/-- `EV_ADD` or `EV_DELETE` of `EVFILT_READ`, which may be set already, or not. -/
def evRead (add : Bool) (k : Kernel) (fd : Fd) : Kernel :=
  Function.update k fd { k fd with read := add }

/-- The same for `EVFILT_WRITE`. -/
def evWrite (add : Bool) (k : Kernel) (fd : Fd) : Kernel :=
  Function.update k fd { k fd with write := add }

/-- mirrors lib/event/Loop_kqueue.cpp:200-225 -/
def evUpdate (k : Kernel) (u : Fd × Flags) : Kernel := evWrite u.2.write (evRead u.2.read k u.1) u.1

def evClose (k : Kernel) (fd : Fd) : Kernel := Function.update k fd .none

/-- The first half of an iteration.
mirrors lib/event/Loop_kqueue.cpp:119-163 -/
def newFds (l : Loop α) (k : Kernel) : Kernel :=
  match processNewFds l with
  | .error _ => k
  | .ok _ => (keys l.mPendingFds).foldl (evRead true) k

/-- The second half, up to the wait.
mirrors lib/event/Loop_kqueue.cpp:164-241 -/
def updates (l : Loop α) (k : Kernel) : Kernel :=
  l.mRemovedFds.foldl evClose (l.mUpdateFds.foldl evUpdate k)

theorem evRead_all (k : Kernel) (fds : List Fd) (fd : Fd) :
    fds.foldl (evRead true) k fd = if fd ∈ fds then { k fd with read := true } else k fd := by
  induction fds generalizing k with
  | nil => simp
  | cons g fds ih =>
    rw [List.foldl_cons, ih]
    by_cases hg : fd = g
    · subst hg
      simp [evRead]
    · simp [evRead, hg]

/-- What a request for `flags` sets. -/
def filtersOf (flags : Flags) : Filters := ⟨flags.read, flags.write⟩

theorem evUpdate_self (k : Kernel) (u : Fd × Flags) : evUpdate k u u.1 = filtersOf u.2 := by
  simp [evUpdate, evRead, evWrite, filtersOf]

theorem evUpdate_of_ne (k : Kernel) {u : Fd × Flags} {fd : Fd} (h : fd ≠ u.1) :
    evUpdate k u fd = k fd := by
  simp [evUpdate, evRead, evWrite, h]

theorem evUpdate_all (k : Kernel) (us : List (Fd × Flags)) (fd : Fd) :
    us.foldl evUpdate k fd = ((lastUpdate fd us).map filtersOf).getD (k fd) := by
  induction us generalizing k with
  | nil => rfl
  | cons u us ih =>
    rw [List.foldl_cons, ih, lastUpdate]
    by_cases hu : u.1 = fd
    · subst hu
      cases lastUpdate u.1 us <;> simp [evUpdate_self]
    · simp [hu, evUpdate_of_ne k (Ne.symm hu)]

theorem evClose_all (k : Kernel) (fds : List Fd) (fd : Fd) :
    fds.foldl evClose k fd = if fd ∈ fds then .none else k fd := by
  induction fds generalizing k with
  | nil => simp
  | cons g fds ih =>
    rw [List.foldl_cons, ih]
    by_cases hg : fd = g
    · subst hg
      simp [evClose]
    · simp [evClose, hg]

/-- The filters after the first half. -/
theorem newFds_filters {l : Loop α} (h : Interest.Even l) (k : Kernel) (fd : Fd) :
    newFds l k fd = if fd ∈ keys l.mPendingFds then { k fd with read := true } else k fd := by
  obtain ⟨fds, hok⟩ := Interest.processNewFds_even h
  rw [newFds, hok]
  exact evRead_all k _ fd

/-- **The filters after an iteration.** -/
theorem updates_filters (l : Loop α) (k : Kernel) (fd : Fd) :
    updates l k fd = if fd ∈ l.mRemovedFds then .none
      else ((lastUpdate fd l.mUpdateFds).map filtersOf).getD (k fd) := by
  rw [updates, evClose_all, evUpdate_all]

/-! ## Both backends -/

/-- `epoll` has the loop, and what was asked for, as well. -/
structure State (α : Type) where
  epoll : Interest.State α
  kernel : Kernel

def State.init : State α := ⟨.init, fun _ => .none⟩

def step (s : State α) (l : Interest.Label α) : Option (State α) :=
  (Interest.step s.epoll l).map fun epoll =>
    { epoll
      kernel := match l with
        | .newFds => newFds s.epoll.loop s.kernel
        | .updates => updates s.epoll.loop s.kernel
        | _ => s.kernel }

variable (α) in
def both : LTS (State α) (Interest.Label α) := .ofFn (· = State.init) step

/-- What epoll's interest in a descriptor is in filters. -/
def filters (interest : Option Flags) : Filters := (interest.map filtersOf).getD .none

def Agree (s : State α) : Prop := ∀ fd, s.kernel fd = filters (s.epoll.interest fd)

/-- Adding a descriptor that it has leaves epoll as it is, and sets the read
filter of kqueue. -/
def AlikeAdded (s : State α) (fd : Fd) : Prop :=
  fd ∈ keys s.epoll.loop.mPendingFds →
    ∀ flags, s.epoll.interest fd = some flags → flags.read = true

/-- Updating a descriptor that it has not got leaves epoll as it is, and sets
the filters of kqueue. -/
def AlikeUpdated (s : State α) (fd : Fd) : Prop :=
  s.epoll.interest fd = none →
    ∀ flags, lastUpdate fd s.epoll.loop.mUpdateFds = some flags → filtersOf flags = .none

/-- What is queued means the same to both kernels. -/
def AllAlike (s : State α) : Interest.Label α → Prop
  | .newFds => Interest.Even s.epoll.loop → ∀ fd, AlikeAdded s fd
  | .updates => ∀ fd, fd ∉ s.epoll.loop.mRemovedFds → AlikeUpdated s fd
  | _ => True

variable {s s' : State α}

/-- The kernels do not hear of calls. -/
theorem step_call {l : Interest.Label α} (hn : l ≠ .newFds) (hu : l ≠ .updates)
    (h : step s l = some s') :
    s'.kernel = s.kernel ∧ s'.epoll.interest = s.epoll.interest := by
  obtain ⟨epoll, he, rfl⟩ := Option.map_eq_some_iff.mp h
  cases l with
  | newFds => exact absurd rfl hn
  | updates => exact absurd rfl hu
  | addFd fd flags callback =>
    obtain ⟨-, -, rfl⟩ := Interest.step_addFd he
    exact ⟨rfl, rfl⟩
  | updateFd fd flags =>
    obtain rfl := Interest.step_updateFd he
    exact ⟨rfl, rfl⟩
  | removeFd fd =>
    obtain rfl := Interest.step_removeFd he
    exact ⟨rfl, rfl⟩

/-- The first half, one descriptor. -/
theorem newFds_agree {fd : Fd} (he : Interest.Even s.epoll.loop)
    (h : s.kernel fd = filters (s.epoll.interest fd)) :
    newFds s.epoll.loop s.kernel fd = filters ((Interest.newFds s.epoll).interest fd) ↔
      AlikeAdded s fd := by
  obtain ⟨fds, heq⟩ := Interest.newFds_eq he
  rw [newFds_filters he, heq, h]
  dsimp only
  rw [Interest.ctlAdd_all]
  unfold AlikeAdded
  by_cases hp : fd ∈ keys s.epoll.loop.mPendingFds <;> cases s.epoll.interest fd <;>
    simp [hp, filters, filtersOf, Filters.none, fdRead]

/-- The second half, one descriptor. -/
theorem updates_agree {fd : Fd} (h : s.kernel fd = filters (s.epoll.interest fd)) :
    updates s.epoll.loop s.kernel fd = filters ((Interest.updates s.epoll).interest fd) ↔
      (fd ∉ s.epoll.loop.mRemovedFds → AlikeUpdated s fd) := by
  rw [updates_filters, Interest.updates_interest, h]
  unfold AlikeUpdated
  by_cases hr : fd ∈ s.epoll.loop.mRemovedFds
  · simp [hr, filters]
  · cases lastUpdate fd s.epoll.loop.mUpdateFds <;> cases s.epoll.interest fd <;>
      simp [hr, filters]

theorem agree_step {l : Interest.Label α} (ha : Agree s) (h : step s l = some s') :
    Agree s' ↔ AllAlike s l := by
  by_cases hn : l = .newFds
  · subst hn
    obtain ⟨epoll, he, rfl⟩ := Option.map_eq_some_iff.mp h
    obtain ⟨-, rfl⟩ := Interest.step_newFds he
    by_cases heven : Interest.Even s.epoll.loop
    · rw [AllAlike, imp_iff_right heven]
      exact forall_congr' fun fd => newFds_agree heven (ha fd)
    · -- an iteration that runs past the end of the table tells no kernel anything
      refine iff_of_true (fun fd => ?_) fun hx => absurd hx heven
      simp only [newFds, Interest.newFds, Interest.processNewFds_uneven heven]
      exact ha fd
  · by_cases hu : l = .updates
    · subst hu
      obtain ⟨epoll, he, rfl⟩ := Option.map_eq_some_iff.mp h
      obtain ⟨-, rfl⟩ := Interest.step_updates he
      exact forall_congr' fun fd => updates_agree (ha fd)
    · obtain ⟨hk, hi⟩ := step_call hn hu h
      have hagree : Agree s' := fun fd => by rw [hk, hi]; exact ha fd
      have hall : AllAlike s l := by
        cases l with
        | newFds => exact absurd rfl hn
        | updates => exact absurd rfl hu
        | addFd | updateFd | removeFd => trivial
      exact iff_of_true hagree hall

/-- **Exactly when the two backends watch for the same.** The kernels agree
after every step of a run exactly when no half of an iteration finds a
descriptor queued that means something else to the one than to the other. -/
theorem agree_iff {t : List (Interest.Label α × State α)} (ht : (both α).Trace .init t) :
    LTS.AllStates Agree .init t ↔ LTS.AllSteps AllAlike .init t := by
  have hexact : (both α).Exact AllAlike Agree Agree :=
    { holds := fun _ h => h
      keeps := fun _ _ _ ha hc h => (agree_step ha h).mpr hc
      breaks := fun _ _ _ ha hc h hx => hc ((agree_step ha h).mp hx) }
  exact hexact.allStates_iff ht fun fd => rfl

/-- Updating a descriptor that was never added has kqueue watch it. -/
def neverAdded : List (Interest.Label Unit) := [.updateFd 5 fdRead, .newFds, .updates]

theorem neverAdded_runs : (LTS.record step .init neverAdded).isSome := by decide

/-- So the kernels do not agree at the end, and the last half does not meet the condition. -/
theorem agree_iff_neverAdded :
    ¬ LTS.AllStates Agree .init ((LTS.record step .init neverAdded).get neverAdded_runs) ∧
      ¬ LTS.AllSteps AllAlike .init ((LTS.record step .init neverAdded).get neverAdded_runs) := by
  have hnot : ¬ LTS.AllStates Agree .init
      ((LTS.record step .init neverAdded).get neverAdded_runs) := by
    intro h
    have h5 := h.last 5
    revert h5
    decide
  exact ⟨hnot, fun h => hnot ((agree_iff (LTS.trace_record neverAdded_runs)).mpr h)⟩

/-! ## Descriptors that are added afresh -/

/-- Descriptors are added when nothing of theirs is left, and updated while they are registered. -/
def Fresh (s : State α) (l : Interest.Label α) : Prop :=
  Interest.Fresh s.epoll l ∧ ∀ fd flags, l = .updateFd fd flags → s.epoll.want fd ≠ none

instance (s : State α) (l : Interest.Label α) : Decidable (Fresh s l) :=
  match l with
  | .updateFd fd flags => decidable_of_iff (s.epoll.want fd ≠ none)
      ⟨fun h => ⟨trivial, fun _ _ he => by cases he; exact h⟩, fun h => h.2 fd flags rfl⟩
  | .addFd fd flags callback => decidable_of_iff (Interest.Fresh s.epoll (.addFd fd flags callback))
      (iff_self_and.mpr fun _ _ _ h => nomatch h)
  | .removeFd _ | .updates => isTrue ⟨trivial, nofun⟩
  | .newFds => decidable_of_iff (Interest.Fresh s.epoll .newFds)
      (iff_self_and.mpr fun _ _ _ h => nomatch h)

/-- Nothing of a descriptor is queued, and the kernel does not have it. -/
structure Blank (s : Interest.State α) (fd : Fd) : Prop where
  interest : s.interest fd = none
  update : lastUpdate fd s.loop.mUpdateFds = none
  pending : fd ∉ keys s.loop.mPendingFds

/-- What is left of a descriptor that is not registered, and what a new one finds. -/
structure Clean (s : Interest.State α) : Prop where
  fault : s.fault = none
  watched : ∀ fd, Interest.WatchedAt s fd
  gone : ∀ fd, s.want fd = none → fd ∈ s.loop.mRemovedFds ∨ Blank s fd
  pending : ∀ fd ∈ keys s.loop.mPendingFds, s.interest fd = none
  between : s.between = true → s.loop.mPendingFds = []
  exactly : s.settled = true → ∀ fd, s.interest fd = s.want fd

theorem clean_init : Clean (.init : Interest.State α) where
  fault := rfl
  watched := Interest.watchedAt_init
  gone _ _ := .inr ⟨rfl, rfl, by simp [Interest.State.init, Loop.init, keys]⟩
  pending _ _ := rfl
  between h := nomatch h
  exactly _ _ := rfl

section
variable {e : Interest.State α} {fd : Fd}

theorem gone_addFd (h : Clean e) (flags : Flags) (callback : α) :
    ∀ g, (e.call (addFd fd flags callback e.loop) fd (some flags)).want g = none →
      g ∈ e.loop.mRemovedFds.erase fd ∨
        Blank (e.call (addFd fd flags callback e.loop) fd (some flags)) g := by
  intro g hg
  by_cases he : g = fd
  · subst he
    rw [Interest.call_want_self] at hg
    cases hg
  · rw [Interest.call_want_of_ne he] at hg
    refine (h.gone g hg).imp (List.mem_erase_of_ne he).mpr fun hb => ⟨hb.interest, ?_, ?_⟩
    · exact (Interest.lastUpdate_addFd he _ _).trans hb.update
    · simpa [Interest.State.call, addFd, keys, he] using hb.pending

theorem gone_updateFd (h : Clean e) (hw : e.want fd ≠ none) (flags : Flags) :
    ∀ g, (e.call (updateFd fd flags e.loop) fd ((e.want fd).map fun _ => flags)).want g = none →
      g ∈ e.loop.mRemovedFds ∨
        Blank (e.call (updateFd fd flags e.loop) fd ((e.want fd).map fun _ => flags)) g := by
  intro g hg
  by_cases he : g = fd
  · subst he
    rw [Interest.call_want_self] at hg
    exact absurd (Option.map_eq_none_iff.mp hg) hw
  · rw [Interest.call_want_of_ne he] at hg
    refine (h.gone g hg).imp id fun hb => ⟨hb.interest, ?_, hb.pending⟩
    exact (Interest.lastUpdate_append g _ _).trans ((if_neg (Ne.symm he)).trans hb.update)

theorem gone_removeFd (h : Clean e) :
    ∀ g, (e.call (removeFd fd e.loop) fd none).want g = none →
      g ∈ e.loop.mRemovedFds ++ [fd] ∨ Blank (e.call (removeFd fd e.loop) fd none) g := by
  intro g hg
  by_cases he : g = fd
  · exact .inl (by simp [he])
  · rw [Interest.call_want_of_ne he] at hg
    refine (h.gone g hg).imp (List.mem_append_left _) fun hb => ⟨hb.interest, ?_, ?_⟩
    · exact (Interest.lastUpdate_eraseFd he _).trans hb.update
    · exact fun hm => hb.pending ((mem_keys_eraseFd_of_ne he).mp hm)

/-- The kernel gets what is pending, which it did not have. -/
theorem clean_newFds (h : Clean e) (he : Interest.Even e.loop) : Clean (Interest.newFds e) := by
  have hwatched : ∀ fd, Interest.WatchedAt (Interest.newFds e) fd := fun fd =>
    Interest.watchedAt_newFds (h.watched fd)
  obtain ⟨fds, heq⟩ := Interest.newFds_eq he
  rw [heq] at hwatched ⊢
  refine ⟨h.fault, hwatched, fun g hg => ?_, by simp, fun _ => rfl, by simp⟩
  refine (h.gone g hg).imp id fun hblank => ⟨?_, hblank.update, by simp⟩
  exact (Interest.ctlAdd_all _ _ g).trans ((if_neg hblank.pending).trans hblank.interest)

/-- After an iteration the kernel has the registered descriptors, and the queues are empty. -/
theorem clean_updates (h : Clean e) (hb : e.between = true) : Clean (Interest.updates e) := by
  have hwatched : ∀ fd, Interest.WatchedAt (Interest.updates e) fd := fun fd =>
    Interest.watchedAt_updates (h.watched fd) hb
  have hexact : ∀ g, (Interest.updates e).interest g = e.want g := by
    intro g
    cases hg : e.want g with
    | some flags => exact (hwatched g).settled rfl flags hg
    | none =>
      rw [Interest.updates_interest]
      rcases h.gone g hg with hr | hblank
      · rw [if_pos hr]
      · simp [hblank.interest]
  have hpending : (Interest.updates e).loop.mPendingFds = [] := h.between hb
  refine ⟨h.fault, hwatched, fun g hg => .inr ⟨(hexact g).trans hg, rfl, ?_⟩, ?_, by simp [hpending],
    fun _ => hexact⟩ <;> simp [hpending]

theorem clean_step {e' : Interest.State α} {l : Interest.Label α} (h : Clean e)
    (hf : Interest.Fresh e l) (hu : ∀ fd flags, l = .updateFd fd flags → e.want fd ≠ none)
    (hs : Interest.step e l = some e') : Clean e' := by
  have hwatched : ∀ fd, Interest.WatchedAt e' fd := fun fd =>
    Interest.watchedAt_step (h.watched fd) (hf.at fd) hs
  cases l with
  | addFd fd flags callback =>
    obtain ⟨-, -, rfl⟩ := Interest.step_addFd hs
    have huntouched : Interest.Untouched e fd := hf
    refine ⟨h.fault, hwatched, gone_addFd h flags callback, fun g hg => ?_, fun hb => ?_,
      by simp [Interest.State.call]⟩
    · simp only [Interest.State.call, addFd, keys, List.map_append, List.mem_append] at hg
      rcases hg with hg | hg
      · exact h.pending g hg
      · obtain rfl := List.mem_singleton.mp hg
        exact huntouched.interest
    · cases hb.symm.trans huntouched.between
  | updateFd fd flags =>
    obtain rfl := Interest.step_updateFd hs
    exact ⟨h.fault, hwatched, gone_updateFd h (hu fd flags rfl) flags, h.pending, h.between,
      by simp [Interest.State.call]⟩
  | removeFd fd =>
    obtain rfl := Interest.step_removeFd hs
    refine ⟨h.fault, hwatched, gone_removeFd h, fun g hg => ?_, fun hb => ?_,
      by simp [Interest.State.call]⟩
    · exact h.pending g ((keys_eraseFd_sublist fd _).subset hg)
    · show eraseFd fd e.loop.mPendingFds = []
      rw [h.between hb]
      rfl
  | newFds =>
    obtain ⟨-, rfl⟩ := Interest.step_newFds hs
    exact clean_newFds h hf
  | updates =>
    obtain ⟨hb, rfl⟩ := Interest.step_updates hs
    exact clean_updates h hb

end

theorem allAlike_of_clean {l : Interest.Label α} (h : Clean s.epoll) (hs : step s l = some s') :
    AllAlike s l := by
  cases l with
  | addFd | updateFd | removeFd => trivial
  | newFds =>
    intro _ fd hp flags hflags
    cases (h.pending fd hp).symm.trans hflags
  | updates =>
    intro fd hr hnone flags hlast
    obtain ⟨epoll, he, -⟩ := Option.map_eq_some_iff.mp hs
    obtain ⟨hb, -⟩ := Interest.step_updates he
    -- a descriptor that epoll has not got is not registered, and has no update queued
    have hwant : s.epoll.want fd = none := by
      cases hw : s.epoll.want fd with
      | none => rfl
      | some old =>
        obtain ⟨hno, -⟩ := ((h.watched fd).coming old hw).pending hnone
        cases hb.symm.trans hno
    have hblank := (h.gone fd hwant).resolve_left hr
    cases hblank.update.symm.trans hlast

/-- **What both backends watch.** In a run in which descriptors are added
afresh and updated while they are registered, after every iteration both
kernels watch the registered descriptors, each for what was asked for last, and
no others. -/
theorem watches_exactly (s : State α) (hr : ((both α).guard Fresh).Reachable s) :
    s.epoll.fault = none ∧ (s.epoll.settled = true → ∀ fd,
      s.epoll.interest fd = s.epoll.want fd ∧ s.kernel fd = filters (s.epoll.want fd)) := by
  have hg : (both α).Guarded Fresh fun s => Clean s.epoll ∧ Agree s :=
    { init := fun s hs => by
        cases hs
        exact ⟨clean_init, fun _ => rfl⟩
      step := fun s l s' hi hf h => by
        refine ⟨?_, (agree_step hi.2 h).mpr (allAlike_of_clean hi.1 h)⟩
        obtain ⟨epoll, he, rfl⟩ := Option.map_eq_some_iff.mp h
        exact clean_step hi.1 hf.1 hf.2 he }
  obtain ⟨hc, ha⟩ := hg.reachable s hr
  refine ⟨hc.fault, fun hs fd => ⟨hc.exactly hs fd, ?_⟩⟩
  rw [ha fd, hc.exactly hs fd]

/-- A descriptor is watched for both ways, then for reading only, as another thread asks between
the halves, then removed; another one is added. -/
def watching : List (Interest.Label Unit) :=
  [.addFd 5 ⟨false, true, true⟩ (), .newFds, .updates, .newFds, .updateFd 5 fdRead, .updates,
    .removeFd 5, .addFd 6 fdWrite (), .newFds, .updates]

theorem watching_runs : (LTS.record step .init watching).isSome := by decide

theorem watches_exactly_watching : ∃ s : State Unit, s.epoll.settled = true ∧
    s.kernel 5 = .none ∧ s.kernel 6 = ⟨false, true⟩ :=
  have ht := (LTS.trace_record watching_runs).guard (by decide : LTS.AllSteps Fresh .init _)
  have h := (watches_exactly _ (ht.reachable rfl)).2 (by decide)
  ⟨_, by decide, (h 5).2, (h 6).2⟩

/-! ## The wait -/

open WaitTime (Exec Watch Turn wrap remaining)

structure Timespec where
  tv_sec : Int
  tv_nsec : Int
  deriving DecidableEq, Repr

/-- mirrors include/event/Timeval.h:32-46 -/
def durationCast (d : Int) : Timespec :=
  let sec := d.tdiv 1000000000
  ⟨sec, d - sec * 1000000000⟩

/-- mirrors lib/event/Loop_kqueue.cpp:166-169 -/
def ets (executeTimeout : Int) : Timespec :=
  ⟨executeTimeout.tdiv 1000, executeTimeout.tmod 1000 * 1000000⟩

/-- The last argument of `kevent`, and nothing for no end.
mirrors lib/event/Loop_kqueue.cpp:171-191 -/
def tsptr (x : Exec) (deadlines : List Int) (now : Int) : Option Timespec :=
  let ets := ets x.executeTimeout
  match deadlines with
  | front :: _ =>
    if now ≤ front then
      let ts := durationCast (front - now)
      if x.hasTimeout ∧
          (ets.tv_sec < ts.tv_sec ∨ ets.tv_sec = ts.tv_sec ∧ ets.tv_nsec < ts.tv_nsec) then
        some ets
      else some ts
    else some ⟨0, 0⟩
  | [] => if x.hasTimeout then some ets else none

def Timespec.nanoseconds (t : Timespec) : Int := t.tv_sec * 1000000000 + t.tv_nsec

@[simp] theorem durationCast_nanoseconds (d : Int) : (durationCast d).nanoseconds = d := by
  simp only [durationCast, Timespec.nanoseconds]
  omega

@[simp] theorem ets_nanoseconds (n : Int) : (ets n).nanoseconds = n * 1000000 := by
  have h := Int.tmod_add_mul_tdiv n 1000
  simp only [ets, Timespec.nanoseconds]
  omega

/-- Comparing the fields compares the times. -/
theorem ets_lt_durationCast {n d : Int} (hd : 0 ≤ d) :
    (ets n).tv_sec < (durationCast d).tv_sec ∨ (ets n).tv_sec = (durationCast d).tv_sec ∧
      (ets n).tv_nsec < (durationCast d).tv_nsec ↔ n * 1000000 < d := by
  have hn := Int.tmod_add_mul_tdiv n 1000
  have hlt := Int.tmod_lt_of_pos n (b := 1000) (by decide)
  have hgt := Int.lt_tmod_of_pos n (b := 1000) (by decide)
  have hsign : 0 ≤ n → 0 ≤ n.tmod 1000 := Int.tmod_nonneg 1000
  have hdiv := Int.tdiv_eq_ediv_of_nonneg (b := 1000000000) hd
  simp only [ets, durationCast, hdiv]
  omega

/-- How long the wait of a round is to be: to the first deadline, and not longer than what is left
of the timeout, both as far away as they are at the wait. -/
def due (w : Watch) (t : Turn) : Option Int :=
  match t.deadlines, w.exec.hasTimeout with
  | [], false => none
  | [], true => some (remaining (w.ends - t.now))
  | d :: _, false => some (remaining (d - t.now))
  | d :: _, true => some (min (remaining (d - t.now)) (remaining (w.ends - t.now)))

def Exactly (w : Watch) (t : Turn) : Prop :=
  (tsptr w.exec t.deadlines t.now).map Timespec.nanoseconds = due w t

/-- What the accounting has left of the timeout, narrowed, is what is left of it at the wait, or
the first deadline comes before either. -/
def OnTime (w : Watch) (t : Turn) : Prop :=
  w.exec.hasTimeout = true → wrap w.left * 1000000 = remaining (w.ends - t.now) ∨
    ∃ d ∈ t.deadlines.head?, d < t.now ∨
      d - t.now ≤ wrap w.left * 1000000 ∧ d - t.now ≤ remaining (w.ends - t.now)

instance (w : Watch) (t : Turn) : Decidable (OnTime w t) := inferInstanceAs (Decidable (_ → _))

theorem tsptr_past (x : Exec) {d now : Int} (ds : List Int) (h : d < now) :
    tsptr x (d :: ds) now = some ⟨0, 0⟩ := if_neg (Int.not_le.mpr h)

theorem tsptr_ahead (x : Exec) {d now : Int} (ds : List Int) (h : now ≤ d) :
    (tsptr x (d :: ds) now).map Timespec.nanoseconds =
      if x.hasTimeout ∧ x.executeTimeout * 1000000 < d - now then some (x.executeTimeout * 1000000)
      else some (d - now) := by
  simp only [tsptr, if_pos h, ets_lt_durationCast (Int.sub_nonneg.mpr h)]
  split <;> simp

variable {w : Watch} {now after d : Int} {ds again : List Int}

theorem exactly_nil (hi : WaitTime.Inv w) :
    Exactly w ⟨[], now, again, after⟩ ↔ OnTime w ⟨[], now, again, after⟩ := by
  cases ht : w.exec.hasTimeout with
  | false => simp [Exactly, due, tsptr, OnTime, ht]
  | true =>
    have hn : w.exec.executeTimeout = wrap w.left := hi.trans (if_pos ht)
    simp [Exactly, due, tsptr, OnTime, ht, hn]

/-- The first deadline has passed. -/
theorem exactly_past (h : d < now) : Exactly w ⟨d :: ds, now, again, after⟩ := by
  have hzero : remaining (d - now) = 0 := WaitTime.remaining_of_neg (Int.sub_neg_of_lt h)
  have hrem := WaitTime.remaining_nonneg (w.ends - now)
  cases ht : w.exec.hasTimeout <;>
    simp only [Exactly, due, tsptr_past _ _ h, hzero, ht, Option.map_some, Option.some.injEq,
      Timespec.nanoseconds]
  · rfl
  · omega

theorem exactly_ahead (hi : WaitTime.Inv w) (h : now ≤ d) :
    Exactly w ⟨d :: ds, now, again, after⟩ ↔ OnTime w ⟨d :: ds, now, again, after⟩ := by
  have hd : remaining (d - now) = d - now := WaitTime.remaining_of_nonneg (Int.sub_nonneg.mpr h)
  have hnot : ¬ d < now := Int.not_lt.mpr h
  cases ht : w.exec.hasTimeout with
  | false => simp [Exactly, due, tsptr_ahead _ _ h, OnTime, ht, hd]
  | true =>
    have hn : w.exec.executeTimeout = wrap w.left := hi.trans (if_pos ht)
    simp only [Exactly, due, tsptr_ahead _ _ h, OnTime, ht, hn, hd, hnot, true_and, false_or,
      forall_const, List.head?_cons, Option.mem_some_iff, exists_eq_left']
    split <;> simp only [Option.some.injEq] <;> omega

/-- The wait of one round is exact if and only if the timeout is on time, or the first deadline
comes first. -/
theorem exactly_iff {w : Watch} {t : Turn} (hi : WaitTime.Inv w) : Exactly w t ↔ OnTime w t := by
  obtain ⟨deadlines, now, again, after⟩ := t
  cases deadlines with
  | nil => exact exactly_nil hi
  | cons d ds =>
    rcases Int.lt_or_le d now with h | h
    · exact iff_of_true (exactly_past h) fun _ => .inr ⟨d, rfl, .inl h⟩
    · exact exactly_ahead hi h

theorem exactly_from {timeout start : Int} {w : Watch} {tr : List (Turn × Watch)}
    (htr : (WaitTime.execute timeout start).Trace w tr) (hi : WaitTime.Inv w) :
    LTS.AllSteps Exactly w tr ↔ LTS.AllSteps OnTime w tr := by
  induction htr with
  | nil => exact Iff.rfl
  | cons hs _ ih => exact and_congr (exactly_iff hi) (ih (WaitTime.inv_step hi hs))

end Reckoning.L2.Kqueue
