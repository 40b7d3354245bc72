import Reckoning.L4Net.TcpWatched

/-!
# A socket, its loop and the kernel

`Sys` runs a socket together with the loop it is registered with. The calls of a
step of the socket reach the loop in their order; events reach the socket
through `processFd`, and so does an error, which the loop answers by having the
kernel forget the descriptor, erasing its entry, calling the callback of the
entry *behind* it, and then closing the number, whoever has it by then. Other
code uses the loop for descriptors of its own, from any thread.

The socket's code runs on the loop's thread: not between the halves of an
iteration, and the loop goes on only when none of it is running.

The kernel gives a number to one descriptor at a time, and the loop looks at no
result of `epoll_ctl`; what is relied on is in `Proper`:

* `socket` succeeds, with the number of a descriptor that the loop has nothing
  left of;
* the descriptors of the other code are not the socket's, unless the loop has
  closed those;
* every iteration finds as many pending descriptors as fit the registered ones,
  and an error event does not find its entry at the end of the table.

* `blocked_watched`: when the loop goes to wait, the kernel has every open
  descriptor of the socket that has not failed, for writing as well while the
  socket is connected and has something left to write.
* `error_unwatched`: a descriptor that has failed may stay the socket's.
-/
namespace Reckoning.L4.TcpKernel
open Reckoning.L2
open Reckoning.L2.EventLoop (fdError findFd)
open Reckoning.L4.TcpSocket
open Reckoning.L4.TcpWatched

/-! ## The system -/

/-- Whose callback an entry of the loop has. -/
inductive Owner
  | socket | other
  deriving DecidableEq

def number : Option Fd → EventLoop.Fd
  | some fd => fd
  | none => -1

/-- A call as the loop's own. -/
def loopLabel : LoopCall → Interest.Label Owner
  | .addFd fd flags => .addFd (number fd) flags .socket
  | .updateFd fd flags => .updateFd (number fd) flags
  | .removeFd fd => .removeFd fd

def deliver (io : Interest.State Owner) : List LoopCall → Option (Interest.State Owner)
  | [] => some io
  | call :: calls => (Interest.step io (loopLabel call)).bind fun io => deliver io calls

/-- `failing`: the descriptor of an error event that the loop has yet to close. `failed`: the loop
has had an error event for the descriptor, or closed it after one, since the socket added it. -/
structure Sys where
  cfg : Cfg
  io : Interest.State Owner
  failing : Option Fd
  failed : EventLoop.Fd → Bool

def Sys.init : Sys := ⟨Cfg.init, .init, none, fun _ => false⟩

inductive Act
  /-- a call of the user, or what the code does next -/
  | socket (l : Label)
  /-- a read or write event, and an error event -/
  | event (fd : Fd) (flags : Flags)
  | error (fd : Fd)
  /-- the `close` behind an error event -/
  | close
  /-- other code of the program, or half an iteration -/
  | loop (l : Interest.Label Owner)
  deriving DecidableEq

/-- A descriptor that is added has not failed yet. -/
def clear (failed : EventLoop.Fd → Bool) : LoopCall → EventLoop.Fd → Bool
  | .addFd fd _ => Function.update failed (number fd) false
  | .updateFd .. | .removeFd _ => failed

/-- A step of the socket. The calls of the step are those it has added to the list. -/
def socketStep (x : Sys) (l : Label) : Option Sys :=
  (step x.cfg l).bind fun cfg =>
    let calls := cfg.out.calls.drop x.cfg.out.calls.length
    (deliver x.io calls).map fun io =>
      { x with cfg, io, failed := calls.foldl clear x.failed }

/-- The loop's thread is not in the socket's code, and done with the last event. -/
def Sys.idle (x : Sys) : Bool := x.cfg.stack.isEmpty && x.failing.isNone

/-- An error event, or the close behind it, has met the descriptor. -/
def Sys.fails (x : Sys) (fd : Fd) (io : Interest.State Owner) (failing : Option Fd) : Sys :=
  { x with io, failing, failed := Function.update x.failed fd true }

/-- What the socket makes of the callback that `processFd` has found. -/
def called (x : Sys) (fd : Fd) (flags : Flags) : EventLoop.Found Owner → Option Sys
  | .call .socket => socketStep x (.event fd flags)
  | .call .other | .none => some x
  | .pastEnd => some { x with io := { x.io with fault := some .pastEnd } }

def sysStep (x : Sys) : Act → Option Sys
  | .socket l =>
    match l with
    | .event .. => none
    | _ => if x.io.between then none else socketStep x l
  | .event fd flags =>
    if x.idle ∧ x.io.between = false ∧ flags.error = false then
      called x fd flags (findFd fd flags x.io.loop.mFds)
    else none
  | .error fd =>
    if x.idle ∧ x.io.between = false then
      called (x.fails fd (x.io.fail fd) (some fd)) fd fdError (findFd fd fdError x.io.loop.mFds)
    else none
  | .close =>
    match x.failing with
    | some fd => if x.cfg.stack = [] then some (x.fails fd (x.io.forget fd) none) else none
    | none => none
  | .loop l =>
    match l with
    | .newFds | .updates =>
      if x.idle then (Interest.step x.io l).map fun io => { x with io } else none
    | _ => (Interest.step x.io l).map fun io => { x with io }

def system : LTS Sys Act := .ofFn (· = Sys.init) sysStep

/-- The number of a new descriptor. -/
def Opened (x : Sys) (sock : Option Fd) : Prop :=
  ∃ fd, sock = some fd ∧ Interest.Untouched x.io fd

/-- The descriptor is none that the socket has and the loop has not closed. -/
def Foreign (x : Sys) (fd : EventLoop.Fd) : Prop :=
  ∀ g : Fd, fd = g → x.failed g = false → requests x.cfg.out.calls g = none

/-- What is relied on (see the module doc), in Plain mode. -/
def Proper (x : Sys) : Act → Prop
  | .socket (.call (.connect f mode sock _)) => mode = .plain ∧
      (x.cfg.s.fd f = none → x.cfg.s.mState ≠ .connected → Opened x sock)
  | .socket (.call (.setSocket fd f)) => Keeps x.cfg (.call (.setSocket fd f)) ∧
      (x.cfg.s.fd f = none → x.cfg.s.fd f.other = none → Opened x (some fd))
  | .socket _ | .event .. | .close | .loop .updates => True
  | .error fd => findFd fd fdError x.io.loop.mFds ≠ .pastEnd
  | .loop .newFds => Interest.Even x.io.loop
  | .loop (.addFd fd _ _) | .loop (.updateFd fd _) | .loop (.removeFd fd) => Foreign x fd

/-! ## The requests reach the loop -/

section
variable {io io' : Interest.State Owner} {want : Fd → Option Flags}
  {failed : EventLoop.Fd → Bool} {calls : List LoopCall}

/-- The loop has a request of the socket, unless it has closed the descriptor, and the kernel has
it or will get it. -/
def Asked (want : Fd → Option Flags) (failed : EventLoop.Fd → Bool)
    (io : Interest.State Owner) : Prop :=
  ∀ fd : Fd, failed fd = false → ∀ flags, want fd = some flags →
    io.want fd = some flags ∧ Interest.WatchedAt io fd

theorem natCast_ne {g fd : Fd} (h : g ≠ fd) : (g : EventLoop.Fd) ≠ fd := fun hc => h (Int.ofNat.inj hc)

theorem natCast_ne_minus (g : Fd) : (g : EventLoop.Fd) ≠ -1 := fun hc => by cases hc

/-- A step that is about another descriptor. -/
theorem asked_other {l : Interest.Label Owner} {fd : Fd} {flags : Flags}
    (h : io.want fd = some flags ∧ Interest.WatchedAt io fd) (hs : Interest.step io l = some io')
    (hf : Interest.FreshAt io fd l) (hw : io'.want fd = io.want fd) :
    io'.want fd = some flags ∧ Interest.WatchedAt io' fd :=
  ⟨hw.trans h.1, Interest.watchedAt_step h.2 hf hs⟩

theorem asked_updateFd {fd : Option Fd} {fl : Flags} (h : Asked want failed io)
    (hs : Interest.step io (.updateFd (number fd) fl) = some io') :
    Asked (request want (.updateFd fd fl)) failed io' := by
  intro g hg flags hw
  have hwant := Interest.step_updateFd hs
  cases fd with
  | none =>
    refine asked_other (h g hg flags hw) hs trivial ?_
    rw [hwant]
    exact Interest.call_want_of_ne (natCast_ne_minus g)
  | some fd =>
    by_cases he : g = fd
    · subst he
      rw [request, Function.update_self] at hw
      obtain ⟨old, hold, rfl⟩ := Option.map_eq_some_iff.mp hw
      obtain ⟨hio, hat⟩ := h g hg old hold
      refine ⟨?_, Interest.watchedAt_step hat (by exact trivial) hs⟩
      rw [hwant, number, Interest.call_want_self, hio]
      rfl
    · rw [request, Function.update_of_ne he] at hw
      refine asked_other (h g hg flags hw) hs trivial ?_
      rw [hwant]
      exact Interest.call_want_of_ne (natCast_ne he)

theorem asked_removeFd {fd : Fd} (h : Asked want failed io)
    (hs : Interest.step io (.removeFd fd) = some io') :
    Asked (request want (.removeFd fd)) failed io' := by
  intro g hg flags hw
  by_cases he : g = fd
  · subst he
    rw [request, Function.update_self] at hw
    cases hw
  · rw [request, Function.update_of_ne he] at hw
    refine asked_other (h g hg flags hw) hs trivial ?_
    rw [Interest.step_removeFd hs]
    exact Interest.call_want_of_ne (natCast_ne he)

/-- The socket adds a descriptor that is new to the loop. -/
theorem asked_opened {fd : Fd} {fl : Flags} (h : Asked want failed io)
    (hf : Interest.Untouched io fd)
    (hs : Interest.step io (.addFd (number (some fd)) fl .socket) = some io') :
    Asked (request want (.addFd (some fd) fl)) (clear failed (.addFd (some fd) fl)) io' := by
  intro g hg flags hw
  obtain ⟨-, -, hwant⟩ := Interest.step_addFd hs
  by_cases he : g = fd
  · subst he
    rw [request, Function.update_self] at hw
    exact ⟨by rw [hwant, number, Interest.call_want_self, hw], Interest.watchedAt_added hf hs⟩
  · have hne := natCast_ne he
    rw [request, Function.update_of_ne he] at hw
    rw [clear, number, Function.update_of_ne hne] at hg
    refine asked_other (h g hg flags hw) hs (fun hc => absurd hc.symm hne) ?_
    rw [hwant]
    exact Interest.call_want_of_ne hne

/-- Calls that add nothing. -/
theorem asked_deliver (h : Asked want failed io) (hc : ∀ call ∈ calls, Further call)
    (hd : deliver io calls = some io') :
    Asked (calls.foldl request want) (calls.foldl clear failed) io' := by
  induction calls generalizing io want with
  | nil =>
    cases hd
    exact h
  | cons call calls ih =>
    obtain ⟨hcall, hrest⟩ := List.forall_mem_cons.mp hc
    obtain ⟨io₁, hs, hd'⟩ := Option.bind_eq_some_iff.mp hd
    cases call with
    | addFd => exact absurd hcall id
    | updateFd fd flags => exact ih (asked_updateFd h hs) hrest hd'
    | removeFd fd => exact ih (asked_removeFd h hs) hrest hd'

theorem asked_added {fd : Fd} {fl : Flags} (h : Asked want failed io)
    (hf : Interest.Untouched io fd) (hc : ∀ call ∈ calls, Further call)
    (hd : deliver io (.addFd (some fd) fl :: calls) = some io') :
    Asked ((.addFd (some fd) fl :: calls : List LoopCall).foldl request want)
      ((.addFd (some fd) fl :: calls : List LoopCall).foldl clear failed) io' := by
  obtain ⟨io₁, hs, hd'⟩ := Option.bind_eq_some_iff.mp hd
  have hrest := asked_deliver (asked_opened h hf hs) hc hd'
  exact hrest

theorem deliver_fault (hf : io.fault = none) (hd : deliver io calls = some io') :
    io'.fault = none := by
  induction calls generalizing io with
  | nil =>
    cases hd
    exact hf
  | cons call calls ih =>
    obtain ⟨io₁, hs, hd⟩ := Option.bind_eq_some_iff.mp hd
    exact ih (Interest.fault_step hs (by cases call <;> simp [loopLabel])) hd

end

/-! ## One step -/

structure Inv (x : Sys) : Prop where
  socket : TcpWatched.Inv x.cfg
  asked : Asked (requests x.cfg.out.calls) x.failed x.io
  fault : x.io.fault = none

section
variable {x x' : Sys}

theorem inv_socketStep {l : Label} (h : Inv x) (hp : Proper x (.socket l))
    (hs : socketStep x l = some x') : Inv x' := by
  obtain ⟨cfg, hcfg, hs⟩ := Option.bind_eq_some_iff.mp hs
  obtain ⟨io, hio, rfl⟩ := Option.map_eq_some_iff.mp hs
  have hplain : TcpLoss.plainOnly l = true := by
    cases l with
    | call op =>
      cases op with
      | connect f mode sock res =>
        obtain ⟨rfl, -⟩ := hp
        rfl
      | setSocket | write | writeRange | close => rfl
    | event | run | ret => rfl
  have hkeeps : Keeps x.cfg l := by
    cases l with
    | call op =>
      cases op with
      | setSocket fd f => exact hp.1
      | connect | write | writeRange | close => exact trivial
    | event | run | ret => exact trivial
  refine ⟨inv_step h.socket hplain hkeeps hcfg, ?_, deliver_fault h.fault hio⟩
  -- the calls that the step has added
  have hnew : ∀ {new : List LoopCall}, cfg.out.calls = x.cfg.out.calls ++ new →
      cfg.out.calls.drop x.cfg.out.calls.length = new ∧
        requests cfg.out.calls = new.foldl request (requests x.cfg.out.calls) := by
    intro new he
    rw [he, List.drop_left, requests, List.foldl_append]
    exact ⟨rfl, rfl⟩
  cases step_books hcfg with
  | moves hm =>
    obtain ⟨new, he, hall⟩ := hm.calls
    obtain ⟨hdrop, hreq⟩ := hnew he
    rw [hdrop] at hio
    rw [hdrop, hreq]
    exact asked_deliver h.asked hall hio
  | connect hst ho hm =>
    obtain ⟨new, he, hall⟩ := hm.calls
    rw [ho.calls, List.append_assoc] at he
    obtain ⟨hdrop, hreq⟩ := hnew he
    obtain ⟨fd, rfl, huntouched⟩ := hp.2 ho.before hst
    rw [hdrop] at hio
    rw [hdrop, hreq]
    exact asked_added h.asked huntouched hall hio
  | @setSocket _ f _ hnone ho =>
    obtain ⟨hdrop, hreq⟩ := hnew ho.calls
    obtain ⟨_, hfd, huntouched⟩ := hp.2 (hnone f) (hnone f.other)
    obtain rfl := Option.some.inj hfd
    rw [hdrop] at hio
    rw [hdrop, hreq]
    exact asked_added h.asked huntouched (by simp) hio

theorem inv_called {fd : Fd} {flags : Flags} {found : EventLoop.Found Owner} (h : Inv x)
    (hf : found ≠ .pastEnd) (hs : called x fd flags found = some x') : Inv x' := by
  cases found with
  | none => cases hs; exact h
  | pastEnd => exact absurd rfl hf
  | call owner =>
    cases owner with
    | socket => exact inv_socketStep (l := .event fd flags) h trivial hs
    | other => cases hs; exact h

/-- Only an error event finds an entry behind which there is none. -/
theorem findFd_ne_pastEnd {fd : EventLoop.Fd} {flags : Flags} (herr : flags.error = false) :
    ∀ t : List (EventLoop.Fd × Owner), findFd fd flags t ≠ .pastEnd
  | [] => by simp [findFd]
  | e :: rest => by
    unfold findFd
    split
    · simp [herr]
    · exact findFd_ne_pastEnd herr rest

/-- An error event, and a close, say nothing about the other descriptors. -/
theorem inv_fails {fd : Fd} {io : Interest.State Owner} (h : Inv x) (failing : Option Fd)
    (hw : io.want = x.io.want) (hf : io.fault = x.io.fault)
    (hat : ∀ g : EventLoop.Fd, g ≠ fd → Interest.WatchedAt x.io g → Interest.WatchedAt io g) :
    Inv (x.fails fd io failing) := by
  refine ⟨h.socket, fun g hg flags hreq => ?_, hf.trans h.fault⟩
  replace hg : Function.update x.failed (fd : EventLoop.Fd) true g = false := hg
  have hne : (g : EventLoop.Fd) ≠ fd := fun he => by
    rw [he, Function.update_self] at hg
    cases hg
  rw [Function.update_of_ne hne] at hg
  obtain ⟨hwant, hwatched⟩ := h.asked g hg flags hreq
  exact ⟨(congrFun hw g).trans hwant, hat g hne hwatched⟩

/-- The other code leaves the requests of the socket alone. -/
theorem inv_foreign {l : Interest.Label Owner} {io : Interest.State Owner} {fd : EventLoop.Fd}
    (h : Inv x) (hn : Foreign x fd) (hs : Interest.step x.io l = some io)
    (hf : ∀ g : EventLoop.Fd, g ≠ fd → Interest.FreshAt x.io g l ∧ io.want g = x.io.want g)
    (hl : l ≠ .newFds) : Inv { x with io } := by
  refine ⟨h.socket, fun g hg flags hw => ?_, Interest.fault_step hs fun he => absurd he hl⟩
  have hne : (g : EventLoop.Fd) ≠ fd := fun he => by
    have hw : requests x.cfg.out.calls g = some flags := hw
    rw [hn g he.symm hg] at hw
    cases hw
  exact asked_other (h.asked g hg flags hw) hs (hf g hne).1 (hf g hne).2

theorem inv_loop {l : Interest.Label Owner} (h : Inv x) (hp : Proper x (.loop l))
    (hs : sysStep x (.loop l) = some x') : Inv x' := by
  cases l with
  | newFds =>
    simp only [sysStep] at hs
    split at hs
    · obtain ⟨io, hio, rfl⟩ := Option.map_eq_some_iff.mp hs
      refine ⟨h.socket, fun g hg flags hw => ?_, Interest.fault_step hio fun _ => hp⟩
      refine asked_other (h.asked g hg flags hw) hio trivial ?_
      obtain ⟨-, rfl⟩ := Interest.step_newFds hio
      rw [Interest.want_newFds]
    · cases hs
  | updates =>
    simp only [sysStep] at hs
    split at hs
    · obtain ⟨io, hio, rfl⟩ := Option.map_eq_some_iff.mp hs
      refine ⟨h.socket, fun g hg flags hw => ?_, Interest.fault_step hio nofun⟩
      refine asked_other (h.asked g hg flags hw) hio trivial ?_
      obtain ⟨-, rfl⟩ := Interest.step_updates hio
      rfl
    · cases hs
  | addFd fd flags callback =>
    obtain ⟨io, hio, rfl⟩ := Option.map_eq_some_iff.mp hs
    refine inv_foreign h hp hio (fun g hne => ⟨fun he => absurd he.symm hne, ?_⟩) (by simp)
    obtain ⟨-, -, rfl⟩ := Interest.step_addFd hio
    exact Interest.call_want_of_ne hne
  | updateFd fd flags =>
    obtain ⟨io, hio, rfl⟩ := Option.map_eq_some_iff.mp hs
    refine inv_foreign h hp hio (fun g hne => ⟨trivial, ?_⟩) (by simp)
    obtain rfl := Interest.step_updateFd hio
    exact Interest.call_want_of_ne hne
  | removeFd fd =>
    obtain ⟨io, hio, rfl⟩ := Option.map_eq_some_iff.mp hs
    refine inv_foreign h hp hio (fun g hne => ⟨trivial, ?_⟩) (by simp)
    obtain rfl := Interest.step_removeFd hio
    exact Interest.call_want_of_ne hne

theorem inv_sysStep {a : Act} (h : Inv x) (hp : Proper x a) (hs : sysStep x a = some x') :
    Inv x' := by
  cases a with
  | socket l =>
    cases l with
    | event => cases hs
    | call | run | ret =>
      simp only [sysStep] at hs
      split at hs
      · cases hs
      · exact inv_socketStep h hp hs
  | event fd flags =>
    simp only [sysStep] at hs
    split at hs
    · rename_i hidle
      exact inv_called h (findFd_ne_pastEnd hidle.2.2 _) hs
    · cases hs
  | error fd =>
    simp only [sysStep] at hs
    split at hs
    · have hfails : Inv (x.fails fd (x.io.fail fd) (some fd)) :=
        inv_fails h (some fd) rfl rfl fun g hne hat => Interest.watchedAt_fail hat hne
      exact inv_called hfails hp hs
    · cases hs
  | close =>
    simp only [sysStep] at hs
    split at hs
    · split at hs <;> cases hs
      exact inv_fails h none rfl rfl fun g hne hat => Interest.watchedAt_forget hat hne
    · cases hs
  | loop l => exact inv_loop h hp hs

theorem guarded : system.Guarded Proper Inv where
  init x hx := by
    cases hx
    refine ⟨TcpWatched.inv_init, fun _ _ _ h => ?_, rfl⟩
    cases h
  step _ _ _ h hp hs := inv_sysStep h hp hs

end

/-- **The kernel watches what a socket waits for.** When the loop goes to wait, the
kernel has every open descriptor of the socket that the loop has had no error
event for, for reading; and for writing as well as long as the socket is
connected and has something left to write. -/
theorem blocked_watched {x : Sys} (hr : (system.guard Proper).Reachable x) :
    x.io.fault = none ∧ (x.cfg.fault = none → x.cfg.stack = [] → x.io.settled = true →
      ∀ f fd, x.cfg.s.fd f = some fd → x.failed fd = false →
        ∃ w, x.io.interest fd = some ⟨false, true, w⟩ ∧
          (x.cfg.s.mState = .connected → x.cfg.s.mPendingWrites ≠ [] → w = true)) := by
  have h := guarded.reachable x hr
  refine ⟨h.fault, fun hf hk hs f fd hfd hfailed => ?_⟩
  obtain ⟨w, hw⟩ := h.socket.registered.opened f fd hfd
  obtain ⟨hwant, hat⟩ := h.asked fd hfailed _ hw
  refine ⟨w, hat.settled hs _ hwant, fun hc hp => ?_⟩
  rcases h.socket.watching hf hc hp f fd hfd with hrequest | ⟨fr, hm, -⟩
  · cases hw.symm.trans hrequest
    rfl
  · rw [hk] at hm
    cases hm

/-! ### Two runs -/

instance (x : Sys) : ∀ sock, Decidable (Opened x sock)
  | none => isFalse fun h => by
    obtain ⟨_, hfd, -⟩ := h
    cases hfd
  | some fd => decidable_of_iff (Interest.Untouched x.io fd)
      ⟨fun h => ⟨fd, rfl, h⟩, fun ⟨_, hfd, h⟩ => Option.some.inj hfd ▸ h⟩

instance (x : Sys) : ∀ fd, Decidable (Foreign x fd)
  | .ofNat g => decidable_of_iff (x.failed g = false → requests x.cfg.out.calls g = none)
      ⟨fun h _ hg hf => by
        obtain rfl := Int.ofNat.inj hg
        exact h hf, fun h => h g rfl⟩
  | .negSucc _ => isTrue fun _ hg => by cases hg

instance (x : Sys) : ∀ a, Decidable (Proper x a)
  | .socket (.call (.connect f mode sock _)) => inferInstanceAs (Decidable (mode = .plain ∧
      (x.cfg.s.fd f = none → x.cfg.s.mState ≠ .connected → Opened x sock)))
  | .socket (.call (.setSocket fd f)) => inferInstanceAs (Decidable
      (Keeps x.cfg (.call (.setSocket fd f)) ∧
        (x.cfg.s.fd f = none → x.cfg.s.fd f.other = none → Opened x (some fd))))
  | .socket (.call (.write _)) | .socket (.call (.writeRange _)) | .socket (.call .close)
  | .socket (.event _ _) | .socket (.run _) | .socket .ret | .event .. | .close | .loop .updates =>
    isTrue trivial
  | .error fd =>
    match h : findFd fd fdError x.io.loop.mFds with
    | .none => isTrue (show findFd _ _ _ ≠ _ by simp [h])
    | .call _ => isTrue (show findFd _ _ _ ≠ _ by simp [h])
    | .pastEnd => isFalse fun hne => hne h
  | .loop .newFds => inferInstanceAs (Decidable (Interest.Even _))
  | .loop (.addFd fd _ _) | .loop (.updateFd fd _) | .loop (.removeFd fd) =>
    inferInstanceAs (Decidable (Foreign x fd))

/-- A connection is made in the background; then the kernel does not take what is written. Other
code has a descriptor as well, in front of that of the socket, and it fails. -/
def blockedWrite : List Act :=
  [.loop (.addFd 4 EventLoop.fdRead .other),
    .socket (.call (.connect .v4 .plain (some 5) .inProgress)), .socket .ret, .socket (.run .unit),
    .loop .newFds, .loop .updates, .event 5 ⟨false, false, true⟩, .socket (.run (.soError false)),
    .socket .ret, .socket (.run .unit), .socket (.run .unit), .socket (.call (.write [1, 2, 3])),
    .socket (.run (.writeErr EAGAIN)), .error 4, .close, .loop .newFds, .loop .updates]

theorem blockedWrite_runs : (LTS.record sysStep Sys.init blockedWrite).isSome := rfl

theorem blockedWrite_proper : LTS.AllSteps Proper Sys.init
    ((LTS.record sysStep Sys.init blockedWrite).get blockedWrite_runs) := by decide

/-- The state at its end. -/
def blocked : Sys :=
  LTS.last Sys.init ((LTS.record sysStep Sys.init blockedWrite).get blockedWrite_runs)

theorem blocked_reachable : (system.guard Proper).Reachable blocked :=
  ((LTS.trace_record blockedWrite_runs).guard blockedWrite_proper).reachable rfl

theorem blocked_watched_blockedWrite : blocked.cfg.s.mPendingWrites = [[1, 2, 3]] ∧
    blocked.io.interest (5 : Nat) = some ⟨false, true, true⟩ := by
  have hfault : blocked.cfg.fault = none := by decide
  have hstack : blocked.cfg.stack = [] := by decide
  have hsettled : blocked.io.settled = true := by decide
  have hopen : blocked.cfg.s.fd .v4 = some 5 := by decide
  have hfailed : blocked.failed (5 : Nat) = false := by decide
  have hstate : blocked.cfg.s.mState = .connected := by decide
  have hpending : blocked.cfg.s.mPendingWrites = [[1, 2, 3]] := by decide
  obtain ⟨w, hw, hwrite⟩ :=
    (blocked_watched blocked_reachable).2 hfault hstack hsettled .v4 5 hopen hfailed
  have htrue := hwrite hstate (by rw [hpending]; simp)
  rw [htrue] at hw
  exact ⟨hpending, hw⟩

/-- The same without the error of descriptor 4, but with one of descriptor 5, behind which the
other code has an entry. -/
def lostWrite : List Act :=
  [.socket (.call (.connect .v4 .plain (some 5) .inProgress)), .socket .ret, .socket (.run .unit),
    .loop (.addFd 6 EventLoop.fdRead .other), .loop .newFds, .loop .updates,
    .event 5 ⟨false, false, true⟩, .socket (.run (.soError false)), .socket .ret,
    .socket (.run .unit), .socket (.run .unit), .socket (.call (.write [1, 2, 3])),
    .socket (.run (.writeErr EAGAIN)), .error 5, .close, .loop .newFds, .loop .updates]

theorem lostWrite_runs : (LTS.record sysStep Sys.init lostWrite).isSome := rfl

theorem lostWrite_proper : LTS.AllSteps Proper Sys.init
    ((LTS.record sysStep Sys.init lostWrite).get lostWrite_runs) := by decide

/-- The state at its end. -/
def lost : Sys := LTS.last Sys.init ((LTS.record sysStep Sys.init lostWrite).get lostWrite_runs)

theorem lost_reachable : (system.guard Proper).Reachable lost :=
  ((LTS.trace_record lostWrite_runs).guard lostWrite_proper).reachable rfl

/-- The socket is not told, keeps its descriptor, and waits for a kernel that has forgotten it. -/
theorem error_unwatched : (system.guard Proper).Reachable lost ∧ lost.cfg.s.mFd4 = some 5 ∧
    lost.cfg.s.mPendingWrites = [[1, 2, 3]] ∧ lost.io.interest 5 = none :=
  ⟨lost_reachable, by decide, by decide, by decide +kernel⟩

end Reckoning.L4.TcpKernel
