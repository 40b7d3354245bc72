import Mathlib.Logic.Function.Basic
import Reckoning.L2Event.Registry

/-!
# Closing a listening server

`TcpServer` (lib/net/TcpServer.cpp) on the thread of its loop. The three `listen`
functions differ in the address. The loop calls `socketCallback` for the
descriptor, and that accepts from its own copy of it until `accept` has nothing more;
`onConnection` is emitted for each connection, and a handler may do anything in
between.

The tables are those of the loop, with the descriptors of others in them. `waiting`
counts the connections the kernel has for a descriptor. Ghosts: `closed`
(`close()` has returned, and `listen()` has not been called since), and `late`, the
descriptors that connections were accepted from and emitted while that was so.

* `Keeps`: the condition on one step.
* `final_of_keeps`: a run whose steps all meet it accepts nothing after `close()`.
* `late_of_return`, `stays_registered`: why the condition is what it is.
-/
namespace Reckoning.L4.TcpServer
open Reckoning.L2.EventLoop

/-! ## The code -/

inductive Callback
  | socketCallback
  | other
  deriving DecidableEq, Repr

inductive Phase
  | idle
  /-- in a handler of `onConnection`, in the accept loop of this descriptor -/
  | handling (fd : Fd)
  /-- in a handler of `onError`, after which `socketCallback` returns -/
  | failing
  deriving DecidableEq, Repr

structure State where
  mFd : Option Fd
  mFdHandle : Option Fd
  loop : Loop Callback
  waiting : Fd → Nat
  phase : Phase
  closed : Bool
  late : List Fd

def State.init : State := ⟨none, none, .init, fun _ => 0, .idle, false, []⟩

/-- `FD::remove`.
mirrors include/event/Loop.h:479-488 -/
def removeHandle (s : State) : State :=
  match s.mFdHandle with
  | none => s
  | some fd => { s with loop := removeFd fd s.loop, mFdHandle := none }

/-- mirrors lib/net/TcpServer.cpp:135-141 -/
def close (s : State) : State :=
  if s.mFd = none then { s with closed := true }
  else { removeHandle s with mFd := none, closed := true }

/-- `fd` is what `listenHelper` returns. The old handle is overwritten, not removed.
mirrors lib/net/TcpServer.cpp:81-97 -/
def listen (fd : Option Fd) (s : State) : State :=
  match fd with
  | none => { s with mFd := none, closed := false }
  | some fd =>
    { s with
      mFd := some fd
      mFdHandle := some fd
      loop := addFd fd fdRead .socketCallback s.loop
      waiting := Function.update s.waiting fd 0
      closed := false }

/-- One turn of the accept loop up to the emit. `failed`: `accept` fails, and not
for want of a connection.
mirrors lib/net/TcpServer.cpp:61-77 -/
def accept (fd : Fd) (failed : Bool) (s : State) : State :=
  if failed then { close s with phase := .failing }
  else if s.waiting fd = 0 then { s with phase := .idle }
  else
    { s with
      waiting := Function.update s.waiting fd (s.waiting fd - 1)
      phase := .handling fd
      late := if s.closed then s.late ++ [fd] else s.late }

/-- mirrors lib/event/Loop_epoll.cpp:188-205 -/
def closeRemoved (s : State) : State :=
  { s with
    loop := { s.loop with mUpdateFds := [], mRemovedFds := [] }
    waiting := fun fd => if fd ∈ s.loop.mRemovedFds then 0 else s.waiting fd }

inductive Label
  | listen (fd : Option Fd)
  | close
  /-- by someone else -/
  | addFd (fd : Fd) (flags : Flags)
  | removeFd (fd : Fd)
  | arrive (fd : Fd)
  | newFds
  | closeRemoved
  | event (fd : Fd) (flags : Flags) (failed : Bool)
  /-- the handler returns, and in the accept loop `accept` is called -/
  | ret (failed : Bool)
  deriving DecidableEq

/-- The entries that are registered, and those that are about to be. -/
def table (l : Loop Callback) : List (Fd × Callback) := l.mFds ++ l.mPendingFds

/-- `processFd`, with the accept loop if that is what it calls. -/
def event (fd : Fd) (flags : Flags) (failed : Bool) (s : State) : Option State :=
  match processFd fd flags s.loop with
  | (.call .socketCallback, loop) => some (accept fd failed { s with loop := loop })
  | (.pastEnd, _) => none
  | (_, loop) => some { s with loop := loop }

def ret (failed : Bool) (s : State) : Option State :=
  match s.phase with
  | .handling fd => some (accept fd failed s)
  | .failing => some { s with phase := .idle }
  | .idle => none

/-- A new descriptor is in no table, and nobody else adds the descriptor of the
server. -/
def step (s : State) : Label → Option State
  | .listen none => some (listen none s)
  | .listen (some fd) => if fd ∈ keys (table s.loop) then none else some (listen (some fd) s)
  | .close => some (close s)
  | .addFd fd flags =>
    if (fd, .socketCallback) ∈ table s.loop then none
    else some { s with loop := addFd fd flags .other s.loop }
  | .removeFd fd => some { s with loop := removeFd fd s.loop }
  | .arrive fd => some { s with waiting := Function.update s.waiting fd (s.waiting fd + 1) }
  | .newFds =>
    if s.phase ≠ .idle then none
    else (processNewFds s.loop).toOption.map fun loop => { s with loop := loop }
  | .closeRemoved => if s.phase ≠ .idle then none else some (closeRemoved s)
  | .event fd flags failed => if s.phase ≠ .idle then none else event fd flags failed s
  | .ret failed => ret failed s

def server : LTS State Label := LTS.ofFn (· = .init) step

/-- After `close()` nothing is accepted, and nothing emitted. -/
def Final (s : State) : Prop := s.late = []

instance (s : State) : Decidable (Final s) := inferInstanceAs (Decidable (_ = _))

/-- After `close()` no connection waits on the descriptor of the accept loop. -/
def Phase.Drained (s : State) (failed : Bool) : Phase → Prop
  | .handling fd => s.closed = true → failed = true ∨ s.waiting fd = 0
  | .idle | .failing => True

/-- `listen()` is called while the server does not listen; and when a handler
returns after `close()`, no connection waits for the accept loop, or `accept` fails. -/
def Keeps (s : State) : Label → Prop
  | .listen _ => s.mFd = none
  | .ret failed => s.phase.Drained s failed
  | _ => True

instance (s : State) (failed : Bool) : ∀ phase : Phase, Decidable (phase.Drained s failed)
  | .handling fd =>
    inferInstanceAs (Decidable (s.closed = true → failed = true ∨ s.waiting fd = 0))
  | .idle | .failing => isTrue trivial

instance (s : State) : ∀ l, Decidable (Keeps s l)
  | .listen _ => inferInstanceAs (Decidable (s.mFd = none))
  | .ret failed => inferInstanceAs (Decidable (s.phase.Drained s failed))
  | .close | .addFd .. | .removeFd _ | .arrive _ | .newFds | .closeRemoved | .event .. =>
    isTrue trivial

/-! ## The tables -/

/-- The server has no entry but that of `fd`, and `fd` has no other entry. -/
structure Own (mFd : Option Fd) (l : Loop Callback) : Prop where
  own : ∀ fd, (fd, .socketCallback) ∈ table l → mFd = some fd
  once : ∀ fd, (fd, .socketCallback) ∈ table l → (keys (table l)).count fd ≤ 1

theorem keys_eraseFd {β : Type} (fd : Fd) (t : List (Fd × β)) :
    keys (eraseFd fd t) = (keys t).erase fd := by
  induction t with
  | nil => rfl
  | cons e t ih =>
    unfold eraseFd at ih ⊢
    by_cases he : e.1 = fd
    · rw [List.eraseP_cons_of_pos (by simpa using he), keys_cons, he, List.erase_cons_head]
    · rw [List.eraseP_cons_of_neg (by simpa using he), keys_cons, ih, keys_cons,
        List.erase_cons_tail (by simpa using he)]

section
variable {mFd : Option Fd} {l l' : Loop Callback}

/-- Entries may go. -/
theorem Own.sublist (h : Own mFd l) (hs : (table l').Sublist (table l)) : Own mFd l' where
  own fd hfd := h.own fd (hs.subset hfd)
  once fd hfd := Nat.le_trans ((hs.map Prod.fst).count_le fd) (h.once fd (hs.subset hfd))

theorem removeFd_sublist (fd : Fd) (l : Loop Callback) :
    (table (removeFd fd l)).Sublist (table l) :=
  List.eraseP_sublist.append List.eraseP_sublist

/-- Once its descriptor is removed the server has no entry. -/
theorem Own.removed {fd : Fd} (h : Own (some fd) l) : Own none (removeFd fd l) := by
  have hsub := removeFd_sublist fd l
  have hno : ∀ g, (g, .socketCallback) ∉ table (removeFd fd l) := by
    intro g hg
    have hg' := hsub.subset hg
    cases h.own g hg'
    have hone := h.once fd hg'
    have hkey : fd ∈ keys (table (removeFd fd l)) := mem_keys hg
    have hpos := List.count_pos_iff.mpr hkey
    simp only [table, removeFd, keys_append, List.count_append, keys_eraseFd,
      List.count_erase_self] at hone hpos
    omega
  exact ⟨fun g hg => absurd hg (hno g), fun g hg => absurd hg (hno g)⟩

theorem table_addFd (fd : Fd) (flags : Flags) (callback : Callback) (l : Loop Callback) :
    table (addFd fd flags callback l) = table l ++ [(fd, callback)] :=
  (List.append_assoc _ _ _).symm

theorem Own.other (h : Own mFd l) {fd : Fd} (hfd : (fd, .socketCallback) ∉ table l)
    (flags : Flags) : Own mFd (addFd fd flags .other l) := by
  have hmem : ∀ g, (g, .socketCallback) ∈ table (addFd fd flags .other l) →
      (g, .socketCallback) ∈ table l := fun g hg => by
    rw [table_addFd] at hg
    exact (List.mem_append.mp hg).resolve_right (by simp)
  refine ⟨fun g hg => h.own g (hmem g hg), fun g hg => ?_⟩
  have hne : fd ≠ g := fun he => hfd (he ▸ hmem g hg)
  rw [table_addFd, keys_append, List.count_append]
  simpa [hne] using h.once g (hmem g hg)

theorem Own.listens (h : Own none l) {fd : Fd} (hfd : fd ∉ keys (table l)) (flags : Flags) :
    Own (some fd) (addFd fd flags .socketCallback l) := by
  have hmem : ∀ g, (g, .socketCallback) ∈ table (addFd fd flags .socketCallback l) → g = fd := by
    intro g hg
    rw [table_addFd] at hg
    rcases List.mem_append.mp hg with hg | hg
    · cases h.own g hg
    · cases List.mem_singleton.mp hg
      rfl
  refine ⟨fun g hg => congrArg some (hmem g hg).symm, fun g hg => ?_⟩
  rw [hmem g hg, table_addFd, keys_append, List.count_append, List.count_eq_zero_of_not_mem hfd]
  simp

theorem processNewFds_sublist (h : processNewFds l = .ok l') :
    (table l').Sublist (table l) := by
  by_cases hp : l.mPendingFds = []
  · rw [processNewFds, if_pos hp] at h
    cases h
    exact List.Sublist.refl _
  · rw [L2.Registry.processNewFds_eq hp] at h
    split at h <;> cases h
    rw [table, List.append_nil]
    exact (L2.Registry.survivors_sublist _ _ _).append (List.Sublist.refl _)

/-- What is called has an entry. -/
theorem findFd_call {fd : Fd} {flags : Flags} {callback : Callback} :
    ∀ {t : List (Fd × Callback)}, findFd fd flags t = .call callback → ∃ g, (g, callback) ∈ t
  | [], h => by cases h
  | e :: rest, h => by
    unfold findFd at h
    split at h
    · split at h
      · cases rest with
        | nil => cases h
        | cons next rest =>
          cases h
          exact ⟨next.1, by simp⟩
      · cases h
        exact ⟨e.1, by simp⟩
    · obtain ⟨g, hg⟩ := findFd_call h
      exact ⟨g, List.mem_cons_of_mem _ hg⟩

theorem processFd_sublist (fd : Fd) (flags : Flags) (l : Loop Callback) :
    (table (processFd fd flags l).2).Sublist (table l) := by
  unfold processFd
  dsimp only
  split
  · exact List.eraseP_sublist.append (List.Sublist.refl _)
  · exact List.Sublist.refl _

end

/-! ## Runs -/

/-- The entry of the server is that of the descriptor it listens on, which it has no
longer once it is closed. -/
structure Inv (s : State) : Prop where
  own : Own s.mFd s.loop
  handle : s.mFd ≠ none → s.mFdHandle = s.mFd
  closed : s.closed = true → s.mFd = none
  late : s.late = []

variable {s s' : State} {l : Label}

theorem inv_close (h : Inv s) : Inv (close s) := by
  unfold close
  split
  · rename_i hnone
    exact ⟨h.own, h.handle, fun _ => hnone, h.late⟩
  · rename_i hsome
    obtain ⟨fd, hfd⟩ := Option.ne_none_iff_exists'.mp hsome
    have hhandle := h.handle hsome
    have hown := h.own
    rw [hfd] at hhandle hown
    simp only [removeHandle, hhandle]
    exact ⟨hown.removed, fun hno => absurd rfl hno, fun _ => rfl, h.late⟩

/-- A turn of the accept loop, when it does not come too late. -/
theorem inv_accept (h : Inv s) {fd : Fd} {failed : Bool}
    (hc : s.closed = true → failed = true ∨ s.waiting fd = 0) : Inv (accept fd failed s) := by
  unfold accept
  split
  · have hi := inv_close h
    exact ⟨hi.own, hi.handle, hi.closed, hi.late⟩
  · rename_i hfailed
    split
    · exact ⟨h.own, h.handle, h.closed, h.late⟩
    · rename_i hwaiting
      have hopen : ¬ s.closed = true := fun hclosed => (hc hclosed).elim hfailed hwaiting
      exact ⟨h.own, h.handle, h.closed, by rw [if_neg hopen, h.late]⟩

/-- An event reaches the server only while it listens. -/
theorem inv_event (h : Inv s) {fd : Fd} {flags : Flags} {failed : Bool}
    (hs : event fd flags failed s = some s') : Inv s' := by
  have hsub := processFd_sublist fd flags s.loop
  unfold event at hs
  rcases hfound : processFd fd flags s.loop with ⟨found, loop⟩
  rw [hfound] at hs hsub
  have hi : Inv { s with loop := loop } := ⟨h.own.sublist hsub, h.handle, h.closed, h.late⟩
  cases found with
  | none =>
    cases hs
    exact hi
  | pastEnd => cases hs
  | call callback =>
    cases callback with
    | other =>
      cases hs
      exact hi
    | socketCallback =>
      cases hs
      obtain ⟨g, hg⟩ := findFd_call (congrArg Prod.fst hfound)
      have hlistens := h.own.own g (List.mem_append_left _ hg)
      exact inv_accept hi fun hclosed => by rw [h.closed hclosed] at hlistens; cases hlistens

theorem inv_step (h : Inv s) (hc : Keeps s l) (hs : step s l = some s') : Inv s' := by
  cases l with
  | listen fd =>
    have hnone : s.mFd = none := hc
    have hown := h.own
    rw [hnone] at hown
    cases fd with
    | none =>
      cases hs
      exact ⟨hown, fun hno => absurd rfl hno, nofun, h.late⟩
    | some fd =>
      simp only [step] at hs
      split at hs <;> cases hs
      rename_i hfd
      exact ⟨hown.listens hfd fdRead, fun _ => rfl, nofun, h.late⟩
  | close =>
    cases hs
    exact inv_close h
  | addFd fd flags =>
    simp only [step] at hs
    split at hs <;> cases hs
    rename_i hfd
    exact ⟨h.own.other hfd flags, h.handle, h.closed, h.late⟩
  | removeFd fd =>
    cases hs
    exact ⟨h.own.sublist (removeFd_sublist fd s.loop), h.handle, h.closed, h.late⟩
  | arrive fd =>
    cases hs
    exact ⟨h.own, h.handle, h.closed, h.late⟩
  | newFds =>
    simp only [step] at hs
    split at hs
    · cases hs
    cases hnew : processNewFds s.loop with
    | error f =>
      rw [hnew] at hs
      cases hs
    | ok loop =>
      rw [hnew] at hs
      cases hs
      exact ⟨h.own.sublist (processNewFds_sublist hnew), h.handle, h.closed, h.late⟩
  | closeRemoved =>
    simp only [step] at hs
    split at hs <;> cases hs
    exact ⟨⟨h.own.own, h.own.once⟩, h.handle, h.closed, h.late⟩
  | event fd flags failed =>
    simp only [step] at hs
    split at hs
    · cases hs
    · exact inv_event h hs
  | ret failed =>
    simp only [step, ret] at hs
    split at hs <;> cases hs
    · rename_i fd hphase
      have hdrained : s.phase.Drained s failed := hc
      rw [hphase] at hdrained
      exact inv_accept h hdrained
    · exact ⟨h.own, h.handle, h.closed, h.late⟩

theorem inv_init : Inv .init :=
  ⟨⟨nofun, nofun⟩, fun hno => absurd rfl hno, nofun, rfl⟩

theorem guarded_inv : server.Guarded Keeps Inv where
  init _ hs := hs ▸ inv_init
  step _ _ _ := inv_step

/-- **After `close()` nothing is accepted** in a run where `listen()` is not called twice in a
row, and no handler returns to a connection that is waiting. -/
theorem final_of_keeps (t : List (Label × State)) (ht : server.Trace .init t)
    (hc : LTS.AllSteps Keeps .init t) : LTS.AllStates Final .init t :=
  guarded_inv.allStates (fun _ => Inv.late) ht inv_init hc

/-! ## Why the condition is needed -/

/-- A handler that returns to a waiting connection after `close()`. -/
theorem late_of_return {failed : Bool} (hc : ¬ Keeps s (.ret failed))
    (hs : step s (.ret failed) = some s') : ¬ Final s' := by
  have hdrained : ¬ s.phase.Drained s failed := hc
  simp only [step, ret] at hs
  split at hs <;> rename_i hphase
  · rename_i fd
    rw [hphase] at hdrained
    obtain ⟨hclosed, hx⟩ := Classical.not_imp.mp hdrained
    obtain ⟨hfailed, hwaiting⟩ := not_or.mp hx
    cases hs
    rw [accept, if_neg hfailed, if_neg hwaiting, Final, if_pos hclosed]
    exact List.append_ne_nil_of_right_ne_nil _ (List.cons_ne_nil _ _)
  · rw [hphase] at hdrained
    exact absurd trivial hdrained
  · cases hs

/-- `listen()` while the server listens: the next `close()` leaves the descriptor that it
listened on in the table. -/
theorem stays_registered {fd : Fd} (hfd : (fd, .socketCallback) ∈ s.loop.mFds) {new : Option Fd}
    (hs : step s (.listen new) = some s') :
    (close s').closed = true ∧ (fd, .socketCallback) ∈ (close s').loop.mFds := by
  cases new with
  | none =>
    cases hs
    exact ⟨rfl, hfd⟩
  | some new =>
    simp only [step] at hs
    split at hs <;> cases hs
    rename_i hnew
    have hne : fd ≠ new := fun he => hnew (he ▸ mem_keys (List.mem_append_left _ hfd))
    exact ⟨rfl, (mem_eraseFd_of_ne hne).mpr hfd⟩

/-! ## Runs with one connection and with two -/

/-- `n` connections wait when the server accepts, and the first handler closes. -/
def closing (n : Nat) : List Label :=
  [.listen (some 5), .newFds] ++ List.replicate n (.arrive 5) ++
    [.event 5 fdRead false, .close, .ret false]

theorem final_one : LTS.AllStates Final .init
    ((LTS.record step .init (closing 1)).get (by decide)) :=
  final_of_keeps _ (LTS.trace_record (by decide)) (by decide)

/-- The second connection is accepted after `close()`. -/
theorem accepts_closed : ¬ ∀ t, server.Trace .init t → LTS.AllStates Final .init t := by
  intro h
  have hfinal := h _ (LTS.trace_record (show (LTS.record step .init (closing 2)).isSome by decide))
  exact absurd hfinal.last (by decide)

end Reckoning.L4.TcpServer
