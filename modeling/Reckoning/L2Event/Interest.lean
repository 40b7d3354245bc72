import Mathlib.Logic.Function.Basic
import Reckoning.L2Event.Registry

/-!
# What the kernel watches

Calls of `addFd`, `updateFd` and `removeFd` and iterations of `Loop::execute`.
An iteration adds the pending descriptors, and then applies the queued updates
and deletes the removed descriptors, each through `epoll_ctl`, and looks at no
result. It holds `mMutex` twice, for the pending descriptors and for the other
two queues, so a call of another thread may come between the two halves as well
as between two iterations, where the callbacks make theirs. (Where the loop uses
`epoll_ctl` without the lock, for `ADD` and `DEL`, calls touch nothing of what it
uses.) An error event is not a step here; `State.fail` is what it does.

`interest` is the kernel's table, by epoll's rules: `ADD` of a descriptor it has
and `MOD` or `DEL` of one that it does not have change nothing. `want` is a
ghost: the flags of the last `addFd` or `updateFd` of a descriptor since it was
removed.

* `updates_interest`: the kernel's flags after an iteration, from the queues.
* `mirrors_iff`: a run keeps the kernel's interest equal to what was asked for
  exactly when every second half finds the queues of every registered descriptor
  `Current`. Adding a descriptor again that the kernel still has, an update that
  a removal left in its queue, and adding one between the halves are what can
  make them not so.
* `watchedAt_step`: how a single descriptor fares, whatever happens to others.
* `current_of_fresh`: all are current, when descriptors are only added with
  nothing of theirs left in the queues or in the kernel, and not in between.
* `watchedAt_fail`: an error event, which takes a descriptor out, leaves the
  others as they are.
-/
namespace Reckoning.L2.Interest
open Reckoning.L2.EventLoop

variable {α : Type}

/-! ## epoll -/

abbrev Kernel := Fd → Option Flags

/-- `EPOLL_CTL_ADD` with `EPOLLIN`, as the loop does it. -/
def ctlAdd (k : Kernel) (fd : Fd) : Kernel :=
  Function.update k fd (match k fd with | none => some fdRead | some flags => some flags)

/-- `EPOLL_CTL_MOD` -/
def ctlMod (k : Kernel) (u : Fd × Flags) : Kernel := Function.update k u.1 ((k u.1).map fun _ => u.2)

/-- `EPOLL_CTL_DEL` -/
def ctlDel (k : Kernel) (fd : Fd) : Kernel := Function.update k fd none

/-- The update of `fd` that is applied last. -/
def lastUpdate (fd : Fd) : List (Fd × Flags) → Option Flags
  | [] => none
  | u :: us => (lastUpdate fd us).or (if u.1 = fd then some u.2 else none)

theorem lastUpdate_append (fd : Fd) (us : List (Fd × Flags)) (u : Fd × Flags) :
    lastUpdate fd (us ++ [u]) = if u.1 = fd then some u.2 else lastUpdate fd us := by
  induction us with
  | nil => simp [lastUpdate]
  | cons v us ih =>
    rw [List.cons_append, lastUpdate, ih, lastUpdate]
    split <;> rfl

theorem lastUpdate_eraseFd {fd g : Fd} (h : g ≠ fd) (us : List (Fd × Flags)) :
    lastUpdate g (eraseFd fd us) = lastUpdate g us := by
  induction us with
  | nil => rfl
  | cons u us ih =>
    unfold eraseFd at ih ⊢
    by_cases hu : u.1 = fd
    · rw [List.eraseP_cons_of_pos (by simpa using hu), lastUpdate,
        if_neg (fun hg => h (hg.symm.trans hu)), Option.or_none]
    · rw [List.eraseP_cons_of_neg (by simpa using hu), lastUpdate, ih, lastUpdate]

theorem ctlAdd_all (k : Kernel) (fds : List Fd) (fd : Fd) :
    fds.foldl ctlAdd k fd = if fd ∈ fds then some ((k fd).getD fdRead) else k fd := by
  induction fds generalizing k with
  | nil => simp
  | cons g fds ih =>
    rw [List.foldl_cons, ih]
    by_cases hg : fd = g
    · subst hg
      cases hk : k fd <;> simp [ctlAdd, hk]
    · simp [ctlAdd, hg]

theorem ctlMod_all (k : Kernel) (us : List (Fd × Flags)) (fd : Fd) :
    us.foldl ctlMod k fd = (k fd).map ((lastUpdate fd us).getD ·) := by
  induction us generalizing k with
  | nil => cases h : k fd <;> simp [lastUpdate, h]
  | cons u us ih =>
    rw [List.foldl_cons, ih, lastUpdate]
    by_cases hu : u.1 = fd
    · subst hu
      cases lastUpdate u.1 us <;> cases hk : k u.1 <;> simp [ctlMod, hk]
    · simp [ctlMod, hu, Function.update_of_ne (Ne.symm hu)]

theorem ctlDel_all (k : Kernel) (fds : List Fd) (fd : Fd) :
    fds.foldl ctlDel k fd = if fd ∈ fds then none else k fd := by
  induction fds generalizing k with
  | nil => simp
  | cons g fds ih =>
    rw [List.foldl_cons, ih]
    by_cases hg : fd = g
    · subst hg
      simp [ctlDel]
    · simp [ctlDel, hg]

/-! ## The loop and the kernel -/

structure State (α : Type) where
  loop : Loop α
  interest : Kernel
  want : Fd → Option Flags
  /-- an iteration has done its first half -/
  between : Bool
  /-- the last step was the second half of an iteration -/
  settled : Bool
  fault : Option Fault

inductive Label (α : Type)
  | addFd (fd : Fd) (flags : Flags) (callback : α)
  | updateFd (fd : Fd) (flags : Flags)
  | removeFd (fd : Fd)
  | newFds
  | updates
  deriving DecidableEq

def State.init : State α := ⟨.init, fun _ => none, fun _ => none, false, true, none⟩

/-- The first half of an iteration.
mirrors lib/event/Loop_epoll.cpp:129-171 -/
def newFds (s : State α) : State α :=
  match processNewFds s.loop with
  | .error f => { s with settled := false, fault := some f }
  | .ok loop =>
    { s with
      loop := loop
      interest := (keys s.loop.mPendingFds).foldl ctlAdd s.interest
      between := true
      settled := false }

/-- The second half, up to `epoll_wait`.
mirrors lib/event/Loop_epoll.cpp:173-216 -/
def updates (s : State α) : State α :=
  { s with
    loop := { s.loop with mUpdateFds := [], mRemovedFds := [] }
    interest := s.loop.mRemovedFds.foldl ctlDel (s.loop.mUpdateFds.foldl ctlMod s.interest)
    between := false
    settled := true }

/-- A call for `fd`, which from now on is registered for `f`, or not at all. -/
def State.call (s : State α) (loop : Loop α) (fd : Fd) (f : Option Flags) : State α :=
  { s with loop, want := Function.update s.want fd f, settled := false }

theorem call_want_of_ne {s : State α} {loop : Loop α} {fd g : Fd} {f : Option Flags} (h : g ≠ fd) :
    (s.call loop fd f).want g = s.want g := Function.update_of_ne h _ _

theorem call_want_self {s : State α} {loop : Loop α} {fd : Fd} {f : Option Flags} :
    (s.call loop fd f).want fd = f := Function.update_self ..

def step (s : State α) (l : Label α) : Option (State α) :=
  if s.fault.isSome then none
  else
    match l with
    | .addFd fd flags callback =>
      if flags.error = false ∧ (flags.read || flags.write) then
        some (s.call (addFd fd flags callback s.loop) fd (some flags))
      else none
    | .updateFd fd flags =>
      if flags.error = false then
        some (s.call (updateFd fd flags s.loop) fd ((s.want fd).map fun _ => flags))
      else none
    | .removeFd fd => some (s.call (removeFd fd s.loop) fd none)
    | .newFds => if s.between then none else some (newFds s)
    | .updates => if s.between then some (updates s) else none

def lts (α : Type) : LTS (State α) (Label α) := .ofFn (· = State.init) step

/-- After an iteration the kernel watches every registered descriptor for what
was asked for last. -/
structure Mirrors (s : State α) : Prop where
  fault : s.fault = none
  interest : s.settled = true → ∀ fd flags, s.want fd = some flags → s.interest fd = some flags

/-! ## The condition -/

/-- The kernel has `fd`, no removal of it is queued, and its last queued update
is the request, or none is queued and the kernel's flags are. -/
structure Current (s : State α) (fd : Fd) (flags : Flags) : Prop where
  removed : fd ∉ s.loop.mRemovedFds
  kernel : ∃ f, s.interest fd = some f ∧ (lastUpdate fd s.loop.mUpdateFds).getD f = flags

def AllCurrent (s : State α) : Prop := ∀ fd flags, s.want fd = some flags → Current s fd flags

/-- The pending descriptors come out even with the registered ones; else the
loop over both runs past the end. -/
abbrev Even (l : Loop α) : Prop := l.mPendingFds = [] ∨ l.mPendingFds.length ∣ l.mFds.length

def Keeps (s : State α) : Label α → Prop
  | .newFds => Even s.loop
  | .updates => AllCurrent s
  | _ => True

/-! ## One iteration -/

theorem processNewFds_even {l : Loop α} (h : Even l) :
    ∃ fds, processNewFds l = .ok { l with mFds := fds, mPendingFds := [] } := by
  by_cases hp : l.mPendingFds = []
  · exact ⟨l.mFds, by rw [processNewFds, if_pos hp, ← hp]⟩
  · exact ⟨_, by rw [Registry.processNewFds_eq hp, if_pos (h.resolve_left hp)]⟩

theorem processNewFds_uneven {l : Loop α} (h : ¬ Even l) :
    processNewFds l = .error .pastEnd := by
  obtain ⟨hpending, hdvd⟩ := not_or.mp h
  rw [Registry.processNewFds_eq hpending, if_neg hdvd]

theorem newFds_uneven {s : State α} (h : ¬ Even s.loop) :
    newFds s = { s with settled := false, fault := some .pastEnd } := by
  rw [newFds, processNewFds_uneven h]

/-- What the first half leaves. -/
theorem newFds_eq {s : State α} (h : Even s.loop) : ∃ fds, newFds s = { s with
    loop := { s.loop with mFds := fds, mPendingFds := [] }
    interest := (keys s.loop.mPendingFds).foldl ctlAdd s.interest
    between := true
    settled := false } := by
  obtain ⟨fds, hok⟩ := processNewFds_even h
  exact ⟨fds, by rw [newFds, hok]⟩

/-- **The kernel's flags after an iteration.** -/
theorem updates_interest (s : State α) (fd : Fd) :
    (updates s).interest fd = if fd ∈ s.loop.mRemovedFds then none
      else (s.interest fd).map ((lastUpdate fd s.loop.mUpdateFds).getD ·) := by
  simp only [updates, ctlDel_all, ctlMod_all]

/-- The kernel gets the request exactly when it is current. -/
theorem updates_current {s : State α} {fd : Fd} {flags : Flags} :
    (updates s).interest fd = some flags ↔ Current s fd flags := by
  rw [updates_interest]
  by_cases hr : fd ∈ s.loop.mRemovedFds
  · rw [if_pos hr]
    exact iff_of_false nofun fun h => h.removed hr
  · rw [if_neg hr, Option.map_eq_some_iff]
    exact ⟨fun h => ⟨hr, h⟩, fun h => h.kernel⟩

theorem mirrors_updates {s : State α} (hf : s.fault = none) : Mirrors (updates s) ↔ AllCurrent s :=
  ⟨fun h fd flags hw => updates_current.mp (h.interest rfl fd flags hw),
    fun h => ⟨hf, fun _ fd flags hw => updates_current.mpr (h fd flags hw)⟩⟩

/-! ## Runs -/

theorem step_fault {s s' : State α} {l : Label α} (h : step s l = some s') :
    ¬ s.fault.isSome = true := by
  unfold step at h
  split at h
  · cases h
  · assumption

theorem step_addFd {s s' : State α} {fd : Fd} {flags : Flags} {callback : α}
    (h : step s (.addFd fd flags callback) = some s') :
    flags.error = false ∧ (flags.read || flags.write) = true ∧
      s' = s.call (addFd fd flags callback s.loop) fd (some flags) := by
  have hf := step_fault h
  rw [step, if_neg hf] at h
  split at h
  · rename_i hfl
    exact ⟨hfl.1, hfl.2, (Option.some.inj h).symm⟩
  · cases h

theorem step_updateFd {s s' : State α} {fd : Fd} {flags : Flags}
    (h : step s (.updateFd fd flags) = some s') :
    s' = s.call (updateFd fd flags s.loop) fd ((s.want fd).map fun _ => flags) := by
  have hf := step_fault h
  rw [step, if_neg hf] at h
  split at h
  · exact (Option.some.inj h).symm
  · cases h

theorem step_removeFd {s s' : State α} {fd : Fd} (h : step s (.removeFd fd) = some s') :
    s' = s.call (removeFd fd s.loop) fd none := by
  have hf := step_fault h
  rw [step, if_neg hf] at h
  exact (Option.some.inj h).symm

theorem step_newFds {s s' : State α} (h : step s .newFds = some s') :
    s.between = false ∧ s' = newFds s := by
  have hf := step_fault h
  simp only [step, if_neg hf] at h
  split at h <;> cases h
  exact ⟨Bool.eq_false_iff.mpr ‹_›, rfl⟩

theorem step_updates {s s' : State α} (h : step s .updates = some s') :
    s.between = true ∧ s' = updates s := by
  have hf := step_fault h
  simp only [step, if_neg hf] at h
  split at h <;> cases h
  exact ⟨‹_›, rfl⟩

/-- Before the second half is done the property says nothing. -/
theorem mirrors_unsettled {s : State α} (hf : s.fault = none) (hs : s.settled = false) : Mirrors s :=
  ⟨hf, fun h => absurd (hs.symm.trans h) Bool.false_ne_true⟩

theorem mirrors_newFds {s : State α} (hf : s.fault = none) : Mirrors (newFds s) ↔ Even s.loop := by
  constructor
  · intro h
    refine Classical.byContradiction fun hn => ?_
    have hfault := h.fault
    rw [newFds_uneven hn] at hfault
    cases hfault
  · intro h
    obtain ⟨fds, heq⟩ := newFds_eq h
    rw [heq]
    exact mirrors_unsettled hf rfl

theorem mirrors_step {s s' : State α} {l : Label α} (h : Mirrors s) (hs : step s l = some s') :
    Mirrors s' ↔ Keeps s l := by
  cases l with
  | addFd fd flags callback =>
    obtain ⟨-, -, rfl⟩ := step_addFd hs
    exact iff_of_true (mirrors_unsettled h.fault rfl) trivial
  | updateFd fd flags =>
    obtain rfl := step_updateFd hs
    exact iff_of_true (mirrors_unsettled h.fault rfl) trivial
  | removeFd fd =>
    obtain rfl := step_removeFd hs
    exact iff_of_true (mirrors_unsettled h.fault rfl) trivial
  | newFds =>
    obtain ⟨-, rfl⟩ := step_newFds hs
    exact mirrors_newFds h.fault
  | updates =>
    obtain ⟨-, rfl⟩ := step_updates hs
    exact mirrors_updates h.fault

theorem mirrors_init : Mirrors (State.init : State α) := ⟨rfl, fun _ _ _ h => by cases h⟩

/-- **Exactly when the kernel's interest mirrors the requests.** After every
iteration of a run the kernel watches each registered descriptor for what was
asked for last, exactly when every first half finds the tables even and every
second half finds every request current. -/
theorem mirrors_iff {t : List (Label α × State α)} (ht : (lts α).Trace .init t) :
    LTS.AllStates Mirrors .init t ↔ LTS.AllSteps Keeps .init t := by
  have hexact : (lts α).Exact Keeps Mirrors Mirrors :=
    { holds := fun _ h => h
      keeps := fun _ _ _ h hc hs => (mirrors_step h hs).mpr hc
      breaks := fun _ _ _ h hc hs hx => hc ((mirrors_step h hs).mp hx) }
  exact hexact.allStates_iff ht mirrors_init

/-- A descriptor that is watched for writing as well is removed and added again
for reading, within one iteration. -/
def readded : List (Label Unit) :=
  [.addFd 5 ⟨false, true, true⟩ (), .newFds, .updates, .removeFd 5, .addFd 5 fdRead (), .newFds,
    .updates]

theorem readded_runs : (LTS.record step .init readded).isSome := by decide

/-- The kernel goes on watching it for writing. -/
theorem readd_keeps_write : ¬ ∀ t, (lts Unit).Trace .init t → LTS.AllStates Mirrors .init t := by
  intro h
  have hint := (h _ (LTS.trace_record readded_runs)).last.interest rfl 5 fdRead rfl
  revert hint
  decide

/-! ## One descriptor -/

/-- The request is in the kernel, or in the queues for the halves that are still to come. -/
structure Coming (s : State α) (fd : Fd) (flags : Flags) : Prop where
  removed : fd ∉ s.loop.mRemovedFds
  kernel : ∀ f, s.interest fd = some f → (lastUpdate fd s.loop.mUpdateFds).getD f = flags
  pending : s.interest fd = none → s.between = false ∧ fd ∈ keys s.loop.mPendingFds ∧
    (lastUpdate fd s.loop.mUpdateFds).getD fdRead = flags

/-- The kernel has the request for `fd`, or will have it after the next iteration. -/
structure WatchedAt (s : State α) (fd : Fd) : Prop where
  coming : ∀ flags, s.want fd = some flags → Coming s fd flags
  settled : s.settled = true → ∀ flags, s.want fd = some flags → s.interest fd = some flags

/-- Nothing of `fd` is left in the queues or in the kernel, and no iteration is under way. -/
structure Untouched (s : State α) (fd : Fd) : Prop where
  between : s.between = false
  interest : s.interest fd = none
  update : lastUpdate fd s.loop.mUpdateFds = none
  removed : fd ∉ s.loop.mRemovedFds

instance (s : State α) (fd : Fd) : Decidable (Untouched s fd) :=
  decidable_of_iff (s.between = false ∧ s.interest fd = none ∧
      lastUpdate fd s.loop.mUpdateFds = none ∧ fd ∉ s.loop.mRemovedFds)
    ⟨fun ⟨hb, hi, hu, hr⟩ => ⟨hb, hi, hu, hr⟩, fun h => ⟨h.between, h.interest, h.update, h.removed⟩⟩

/-- The step does not add `fd` while anything of it is left. -/
def FreshAt (s : State α) (fd : Fd) : Label α → Prop
  | .addFd g _ _ => g = fd → Untouched s fd
  | _ => True

section
variable {s s' : State α} {fd g : Fd} {flags : Flags}

/-- A step that leaves the tables' entries for `fd` as they are. -/
theorem Coming.of_same (h : Coming s fd flags) (hr : fd ∉ s'.loop.mRemovedFds)
    (hu : lastUpdate fd s'.loop.mUpdateFds = lastUpdate fd s.loop.mUpdateFds)
    (hi : s'.interest fd = s.interest fd) (hb : s'.between = s.between)
    (hp : fd ∈ keys s.loop.mPendingFds → fd ∈ keys s'.loop.mPendingFds) : Coming s' fd flags := by
  refine ⟨hr, ?_, ?_⟩ <;> rw [hu, hi]
  · exact h.kernel
  · intro hnone
    obtain ⟨hbetween, hpending, hflags⟩ := h.pending hnone
    exact ⟨hb.trans hbetween, hp hpending, hflags⟩

theorem lastUpdate_addFd (h : g ≠ fd) (callback : α) (l : Loop α) :
    lastUpdate g (addFd fd flags callback l).mUpdateFds = lastUpdate g l.mUpdateFds := by
  simp only [addFd]
  split
  · rw [lastUpdate_append, if_neg (Ne.symm h)]
  · rfl

/-- A new descriptor, with nothing left of its number. -/
theorem coming_added (callback : α) (hf : Untouched s fd) (herr : flags.error = false)
    (hrw : (flags.read || flags.write) = true) :
    Coming (s.call (addFd fd flags callback s.loop) fd (some flags)) fd flags := by
  obtain ⟨error, read, write⟩ := flags
  cases herr
  refine ⟨fun hm => hf.removed (List.mem_of_mem_erase hm), fun f hi => ?_, fun _ => ?_⟩
  · cases hf.interest.symm.trans hi
  · refine ⟨hf.between, by simp [State.call, addFd], ?_⟩
    cases write with
    | true =>
      have hlast : lastUpdate fd (s.loop.mUpdateFds ++ [(fd, ⟨false, read, true⟩)]) =
          some ⟨false, read, true⟩ := (lastUpdate_append fd _ _).trans (if_pos rfl)
      exact congrArg (Option.getD · fdRead) hlast
    | false =>
      -- without `FdWrite` no update is queued, and the kernel will read
      obtain rfl : read = true := by simpa using hrw
      exact congrArg (Option.getD · fdRead) hf.update

theorem watchedAt_added {callback : α} (hf : Untouched s fd)
    (hs : step s (.addFd fd flags callback) = some s') : WatchedAt s' fd := by
  obtain ⟨herr, hrw, rfl⟩ := step_addFd hs
  refine ⟨fun fl hw => ?_, fun hs => by cases hs⟩
  rw [call_want_self] at hw
  cases hw
  exact coming_added callback hf herr hrw

theorem watchedAt_newFds (h : WatchedAt s fd) : WatchedAt (newFds s) fd := by
  by_cases he : Even s.loop
  · obtain ⟨fds, heq⟩ := newFds_eq he
    rw [heq]
    refine ⟨fun flags hw => ?_, fun hs => by cases hs⟩
    obtain ⟨hremoved, hkernel, hpending⟩ := h.coming flags hw
    have hadded := ctlAdd_all s.interest (keys s.loop.mPendingFds) fd
    cases hint : s.interest fd with
    | some f =>
      rw [hint, Option.getD_some, ite_self] at hadded
      refine ⟨hremoved, fun g hi => ?_, fun hi => by cases hadded.symm.trans hi⟩
      obtain rfl := Option.some.inj (hadded.symm.trans hi)
      exact hkernel f hint
    | none =>
      -- it was pending, and the kernel has got it now
      obtain ⟨-, hmem, hflags⟩ := hpending hint
      rw [hint, if_pos hmem] at hadded
      refine ⟨hremoved, fun g hi => ?_, fun hi => by cases hadded.symm.trans hi⟩
      obtain rfl := Option.some.inj (hadded.symm.trans hi)
      exact hflags
  · rw [newFds_uneven he]
    exact ⟨fun flags hw => (h.coming flags hw).of_same (h.coming flags hw).removed rfl rfl rfl id,
      fun hs => by cases hs⟩

theorem watchedAt_updates (h : WatchedAt s fd) (hb : s.between = true) :
    WatchedAt (updates s) fd := by
  have hexact : ∀ flags, s.want fd = some flags → (updates s).interest fd = some flags := by
    intro flags hw
    obtain ⟨hremoved, hkernel, hpending⟩ := h.coming flags hw
    refine updates_current.mpr ⟨hremoved, ?_⟩
    cases hint : s.interest fd with
    | some f => exact ⟨f, rfl, hkernel f hint⟩
    | none =>
      have hno := (hpending hint).1
      rw [hb] at hno
      cases hno
  refine ⟨fun flags hw => ⟨List.not_mem_nil, fun f hi => ?_, fun hi => ?_⟩, fun _ => hexact⟩
  · exact Option.some.inj (hi.symm.trans (hexact flags hw))
  · cases hi.symm.trans (hexact flags hw)

/-- **A descriptor that is added afresh is watched as asked**, whatever happens to others. -/
theorem watchedAt_step {l : Label α} (h : WatchedAt s fd) (hf : FreshAt s fd l)
    (hs : step s l = some s') : WatchedAt s' fd := by
  cases l with
  | addFd g fl callback =>
    by_cases he : g = fd
    · subst he
      exact watchedAt_added (hf rfl) hs
    · replace he := Ne.symm he
      obtain ⟨-, -, rfl⟩ := step_addFd hs
      refine ⟨fun flags hw => ?_, fun hs => by cases hs⟩
      rw [call_want_of_ne he] at hw
      have hc := h.coming flags hw
      exact hc.of_same (fun hm => hc.removed (List.mem_of_mem_erase hm)) (lastUpdate_addFd he _ _)
        rfl rfl (by simp [State.call, addFd]; exact .inl)
  | updateFd g fl =>
    obtain rfl := step_updateFd hs
    refine ⟨fun flags hw => ?_, fun hs => by cases hs⟩
    by_cases he : fd = g
    · subst he
      rw [call_want_self] at hw
      obtain ⟨old, hold, rfl⟩ := Option.map_eq_some_iff.mp hw
      have hc := h.coming old hold
      have hlast : lastUpdate fd (s.loop.mUpdateFds ++ [(fd, fl)]) = some fl :=
        (lastUpdate_append fd _ _).trans (if_pos rfl)
      refine ⟨hc.removed, fun f _ => ?_, fun hi => ⟨(hc.pending hi).1, (hc.pending hi).2.1, ?_⟩⟩ <;>
        exact congrArg (Option.getD · _) hlast
    · rw [call_want_of_ne he] at hw
      exact (h.coming flags hw).of_same (h.coming flags hw).removed
        ((lastUpdate_append fd _ _).trans (if_neg (Ne.symm he))) rfl rfl id
  | removeFd g =>
    obtain rfl := step_removeFd hs
    refine ⟨fun flags hw => ?_, fun hs => by cases hs⟩
    by_cases he : fd = g
    · subst he
      rw [call_want_self] at hw
      cases hw
    · rw [call_want_of_ne he] at hw
      have hc := h.coming flags hw
      exact hc.of_same (by simp [State.call, removeFd, hc.removed, he]) (lastUpdate_eraseFd he _)
        rfl rfl (mem_keys_eraseFd_of_ne he).mpr
  | newFds =>
    obtain ⟨-, rfl⟩ := step_newFds hs
    exact watchedAt_newFds h
  | updates =>
    obtain ⟨hb, rfl⟩ := step_updates hs
    exact watchedAt_updates h hb

end

theorem want_newFds (s : State α) : (newFds s).want = s.want := by
  unfold newFds
  split <;> rfl

/-- Only a first half can fail. -/
theorem fault_step {s s' : State α} {l : Label α} (hs : step s l = some s')
    (he : l = .newFds → Even s.loop) : s'.fault = none := by
  have hf : s.fault = none := Option.not_isSome_iff_eq_none.mp (step_fault hs)
  cases l with
  | addFd fd flags callback => obtain ⟨-, -, rfl⟩ := step_addFd hs; exact hf
  | updateFd fd flags => obtain rfl := step_updateFd hs; exact hf
  | removeFd fd => obtain rfl := step_removeFd hs; exact hf
  | newFds =>
    obtain ⟨-, rfl⟩ := step_newFds hs
    exact ((mirrors_newFds hf).mpr (he rfl)).fault
  | updates => obtain ⟨-, rfl⟩ := step_updates hs; exact hf

/-- Nothing has been asked for. -/
theorem watchedAt_of_none {s : State α} {fd : Fd} (h : s.want fd = none) : WatchedAt s fd where
  coming _ hw := by cases h.symm.trans hw
  settled _ _ hw := by cases h.symm.trans hw

theorem watchedAt_init (fd : Fd) : WatchedAt (State.init : State α) fd := watchedAt_of_none rfl

/-! ## All descriptors -/

/-- Descriptors are added when nothing of theirs is left, and between two iterations. -/
def Fresh (s : State α) : Label α → Prop
  | .addFd fd _ _ => Untouched s fd
  | .newFds => Even s.loop
  | _ => True

instance (s : State α) : ∀ l, Decidable (Fresh s l)
  | .addFd fd _ _ => inferInstanceAs (Decidable (Untouched s fd))
  | .newFds => inferInstanceAs (Decidable (_ ∨ _ ∣ _))
  | .updateFd .. | .removeFd _ | .updates => isTrue trivial

theorem Fresh.at {s : State α} {l : Label α} (h : Fresh s l) (fd : Fd) : FreshAt s fd l := by
  cases l with
  | addFd g flags callback => exact fun he => he ▸ h
  | _ => trivial

/-- **Descriptors that are added afresh are watched as asked.** -/
theorem current_of_fresh {s : State α} {t : List (Label α × State α)} (ht : (lts α).Trace s t) :
    (∀ fd, WatchedAt s fd) → LTS.AllSteps Fresh s t → LTS.AllSteps Keeps s t := by
  induction ht with
  | nil => exact fun _ _ => trivial
  | @cons s s' l t hs _ ih =>
    intro hw hf
    have hw' : ∀ fd, WatchedAt s' fd := fun fd => watchedAt_step (hw fd) (hf.1.at fd) hs
    refine ⟨?_, ih hw' hf.2⟩
    cases l with
    | newFds => exact hf.1
    | updates =>
      obtain ⟨-, rfl⟩ := step_updates hs
      exact fun fd flags h => updates_current.mp ((hw' fd).settled rfl flags h)
    | addFd | updateFd | removeFd => trivial

/-- Two descriptors; one is updated between the halves, and removed at the end. -/
def twoFresh : List (Label Unit) :=
  [.addFd 5 ⟨false, true, true⟩ (), .newFds, .updateFd 5 fdRead, .updates, .addFd 6 fdWrite (),
    .removeFd 5, .newFds, .updates]

theorem twoFresh_runs : (LTS.record step .init twoFresh).isSome := by decide

theorem mirrors_iff_twoFresh :
    LTS.AllStates Mirrors .init ((LTS.record step .init twoFresh).get twoFresh_runs) :=
  have ht := LTS.trace_record twoFresh_runs
  (mirrors_iff ht).mpr (current_of_fresh ht watchedAt_init (by decide))

/-! ## Error events -/

/-- What a `close` leaves of a descriptor in the kernel. -/
def State.forget (s : State α) (fd : Fd) : State α :=
  { s with interest := ctlDel s.interest fd, settled := false }

/-- The error branch of the loop up to the callback: the kernel forgets the descriptor, and
`processFd` its entry.
mirrors lib/event/Loop_epoll.cpp:231-234 -/
def State.fail (s : State α) (fd : Fd) : State α :=
  { s.forget fd with loop := (processFd fd fdError s.loop).2 }

theorem watchedAt_forget {s : State α} {fd g : Fd} (h : WatchedAt s g) (hne : g ≠ fd) :
    WatchedAt (s.forget fd) g := by
  have hi : (s.forget fd).interest g = s.interest g := Function.update_of_ne hne _ _
  refine ⟨fun flags hw => ?_, fun hs => by cases hs⟩
  exact (h.coming flags hw).of_same (h.coming flags hw).removed rfl hi rfl id

/-- An error event leaves the other descriptors as they are. -/
theorem watchedAt_fail {s : State α} {fd g : Fd} (h : WatchedAt s g) (hne : g ≠ fd) :
    WatchedAt (s.fail fd) g :=
  have hf := watchedAt_forget h hne
  ⟨fun flags hw => (hf.coming flags hw).of_same (hf.coming flags hw).removed rfl rfl rfl id,
    hf.settled⟩

end Reckoning.L2.Interest
