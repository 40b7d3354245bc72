import Reckoning.L2Event.Dispatch

/-!
# Which callback `processFd` calls

On `FdError` the entry is erased from `mFds` before its callback is read, and
the iterator then stands on what followed the entry
(lib/event/Loop_epoll.cpp:79-98; lib/event/Loop_kqueue.cpp:70-89 is the same).

* `findFd_split`: what the search yields, from where the entry stands.
* `calls_iff`: the right callback is called if and only if the flags have no error or the
  entry behind that of the descriptor carries the same callback.
-/
namespace Reckoning.L2.Dispatch
open Reckoning.L2.EventLoop

section
variable {α : Type} {fd : Fd} {flags : Flags} {front rest : List (Fd × α)} {cb : α} {l : Loop α}

/-- Erasing a descriptor that has one entry. -/
theorem eraseFd_eq_filter {t : List (Fd × α)} (h : (keys t).Nodup) :
    eraseFd fd t = t.filter fun e => e.1 != fd := by
  induction t with
  | nil => rfl
  | cons e t ih =>
    obtain ⟨hnot, hnd⟩ := List.nodup_cons.mp h
    by_cases he : e.1 = fd
    · have hall : t.filter (fun e => e.1 != fd) = t := by
        refine List.filter_eq_self.mpr fun x hx => ?_
        have hne : x.1 ≠ fd := fun hxf => hnot (by rw [he, ← hxf]; exact mem_keys hx)
        exact bne_iff_ne.mpr hne
      rw [eraseFd, List.eraseP_cons_of_pos (by simpa using he),
        List.filter_cons_of_neg (by simpa using he), hall]
    · rw [eraseFd, List.eraseP_cons_of_neg (by simpa using he),
        List.filter_cons_of_pos (by simpa using he)]
      exact congrArg (e :: ·) (ih hnd)

theorem findFd_of_not_mem {t : List (Fd × α)} (h : fd ∉ keys t) : findFd fd flags t = .none := by
  induction t with
  | nil => rfl
  | cons e t ih =>
    rw [keys_cons, List.mem_cons, not_or] at h
    unfold findFd
    rw [if_neg (Ne.symm h.1)]
    exact ih h.2

theorem eraseFd_of_not_mem {t : List (Fd × α)} (h : fd ∉ keys t) : eraseFd fd t = t := by
  refine List.eraseP_of_forall_not fun e he => ?_
  have hne : e.1 ≠ fd := fun hf => h (hf ▸ mem_keys he)
  simpa using hne

/-- What is called depends on what follows the entry. -/
theorem findFd_split (h : fd ∉ keys front) :
    findFd fd flags (front ++ (fd, cb) :: rest) =
      if flags.error then
        match rest with
        | [] => .pastEnd
        | next :: _ => .call next.2
      else .call cb := by
  induction front with
  | nil => exact if_pos rfl
  | cons e front ih =>
    rw [keys_cons, List.mem_cons, not_or] at h
    rw [List.cons_append]
    unfold findFd
    rw [if_neg (Ne.symm h.1)]
    exact ih h.2

theorem not_mem_front (hnd : (keys l.mFds).Nodup) (ht : l.mFds = front ++ (fd, cb) :: rest) :
    fd ∉ keys front := by
  intro hf
  rw [ht, keys_append, keys_cons, List.nodup_append] at hnd
  exact hnd.2.2 fd hf fd List.mem_cons_self rfl

/-! ## The call -/

/-- `mFds` when the callback of `fd` is called. -/
def without (fd : Fd) (flags : Flags) (l : Loop α) : Loop α :=
  if flags.error then { l with mFds := l.mFds.filter fun e => e.1 != fd } else l

/-- `processFd(fd, flags)` on `l` is one call of the callback registered for `fd`, with the entry
gone on an error; without an entry it does nothing. -/
def CallsRight (fd : Fd) (flags : Flags) (l : Loop α) : Prop :=
  ∀ (σ : Type) (env : Env α σ) (s : State α σ), s.loop = l →
    (∀ cb, (fd, cb) ∈ l.mFds →
      runFd env fd flags s = env.callback cb fd flags { s with loop := without fd flags l }) ∧
    (fd ∉ keys l.mFds → runFd env fd flags s = s)

/-- The entry behind that of `fd` carries the same callback. -/
def NextSame (fd : Fd) (l : Loop α) : Prop :=
  ∀ cb, (fd, cb) ∈ l.mFds → ∃ front next rest, l.mFds = front ++ (fd, cb) :: next :: rest ∧
    next.2 = cb

theorem processFd_snd (hnd : (keys l.mFds).Nodup) : (processFd fd flags l).2 = without fd flags l := by
  unfold processFd without
  cases flags.error with
  | true => exact congrArg (fun t => { l with mFds := t }) (eraseFd_eq_filter hnd)
  | false => rfl

/-- Programs that tell the callbacks apart show which one is called. -/
theorem CallsRight.found (h : CallsRight fd flags l) (hm : (fd, cb) ∈ l.mFds) :
    (processFd fd flags l).1 = .call cb := by
  classical
  -- the callback of `fd` is the only one that writes to the pipe
  let env : Env α Unit := {
    wakeup := 0
    callback := fun f _ _ s => if f = cb then { s with pipe := 1 } else s
    stale := fun _ _ s => s
    close := fun _ s => (true, s) }
  have hrun := congrArg State.pipe ((h Unit env ⟨l, 0, ()⟩ rfl).1 cb hm)
  simp only [runFd, env, if_true] at hrun
  cases hf : (processFd fd flags l).1 with
  | none => rw [hf] at hrun; cases hrun
  | pastEnd => rw [hf] at hrun; cases hrun
  | call f =>
    rw [hf] at hrun
    by_cases he : f = cb
    · rw [he]
    · simp only [if_neg he] at hrun
      cases hrun

theorem without_of_not_mem (hnd : (keys l.mFds).Nodup) (h : fd ∉ keys l.mFds) :
    without fd flags l = l := by
  unfold without
  rw [← eraseFd_eq_filter hnd, eraseFd_of_not_mem h, ite_self]

/-- The right callback is called, unless the flags say error and another one follows. -/
theorem calls_iff (fd : Fd) (flags : Flags) (l : Loop α) (hnd : (keys l.mFds).Nodup) :
    CallsRight fd flags l ↔ (flags.error = true → NextSame fd l) := by
  constructor
  · intro h herr cb hm
    have hfound := h.found hm
    obtain ⟨front, rest, ht⟩ := List.append_of_mem hm
    rw [processFd, ht, findFd_split (not_mem_front hnd ht), if_pos herr] at hfound
    cases rest with
    | nil => cases hfound
    | cons next rest => exact ⟨front, next, rest, ht, by cases hfound; rfl⟩
  · intro h σ env s hs
    subst hs
    have hloop : (processFd fd flags s.loop).2 = without fd flags s.loop := processFd_snd hnd
    refine ⟨fun cb hm => ?_, fun hno => ?_⟩
    · have hfound : (processFd fd flags s.loop).1 = .call cb := by
        cases herr : flags.error with
        | false =>
          obtain ⟨front, rest, ht⟩ := List.append_of_mem hm
          rw [processFd, ht, findFd_split (not_mem_front hnd ht), herr]
          rfl
        | true =>
          obtain ⟨front, next, rest, ht, hnext⟩ := h herr cb hm
          rw [processFd, ht, findFd_split (not_mem_front hnd ht), if_pos herr, ← hnext]
      simp only [runFd, hfound, hloop]
    · have hfound : (processFd fd flags s.loop).1 = .none := findFd_of_not_mem hno
      simp only [runFd, hfound, hloop, without_of_not_mem hnd hno]

theorem calls_shared : (keys [((3 : Fd), 'a'), (4, 'a')]).Nodup ∧
    CallsRight 3 fdError ⟨[((3 : Fd), 'a'), (4, 'a')], [], [], []⟩ :=
  ⟨by decide, (calls_iff 3 fdError ⟨[(3, 'a'), (4, 'a')], [], [], []⟩ (by decide)).mpr
    fun _ cb hm => ⟨[], (4, 'a'), [], by
      have hcb : cb = 'a' := by simpa using hm
      rw [hcb]
      exact ⟨rfl, rfl⟩⟩⟩

/-- An error on descriptor 3 runs the callback of descriptor 4. -/
theorem calls_neighbour : ¬ ∀ (fd : Fd) (flags : Flags) (l : Loop Char), (keys l.mFds).Nodup →
    CallsRight fd flags l := by
  intro h
  have hfound : (processFd 3 fdError ⟨[((3 : Fd), 'a'), (4, 'b')], [], [], []⟩).1 = .call 'a' :=
    (h 3 fdError ⟨[(3, 'a'), (4, 'b')], [], [], []⟩ (by decide)).found List.mem_cons_self
  exact absurd hfound (by simp [processFd, findFd, fdError])

end
end Reckoning.L2.Dispatch
