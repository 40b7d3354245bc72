import Reckoning.L5App.HttpOwners

/-!
# What the loop watches for curl

curl says which sockets it wants polled, and when it wants to be called next.
The socket callback passes the first on to `addFd`, `updateFd` and `removeFd`,
the timer callback the second to a timer.

* `asks_for`: the loop has been asked for exactly the sockets of curl, each as
  curl asked last.
* `watched`: and after an iteration the kernel watches them so, when no new
  socket has been closed by the loop or has the number of one that the loop
  still has something of, but for those that the loop has closed on an error.
* `timer_follows`: there is a timer while what the timer callback has asked for
  last stands, for that time, and no other one. The -1 of curl, which asks for
  none, is asked for like the rest.
-/
namespace Reckoning.L5.HttpMulti
open Reckoning.L2
open Reckoning.L2.EventLoop (Fd Flags)
open Reckoning.L2.Timers (Time Timer)

section
variable {C : Type} [DecidableEq C] {s s' : State C}

/-! ## Steps that have nothing to do with it -/

/-- The requests of curl, what the loop has of them, and the timer are the same. -/
structure Apart (s s' : State C) : Prop where
  io : s'.io = s.io := by rfl
  failing : s'.failing = s.failing := by rfl
  closed : s'.closed = s.closed := by rfl
  sockets : s'.curl.sockets = s.curl.sockets := by rfl
  timer : s'.timer = s.timer := by rfl
  asked : s'.asked = s.asked := by rfl
  objects : s'.timers.timer = s.timers.timer := by rfl
  list : s'.timers.mTimers = s.timers.mTimers := by rfl
  loop : s'.hasLoop = s.hasLoop := by rfl

def Label.apart : Label C → Bool
  | .init .. | .write .. | .release .. | .header .. | .body .. | .read .. | .finish .. | .next => true
  | .socket .. | .timer .. | .event .. | .error .. | .close | .fire .. | .execute | .newFds
  | .updates | .opened _ | .loopGone => false

theorem apart_next (hi : Inv s) (h : checkMultiInfo s s.pc = some s') : Apart s s' := by
  have ht := hi.transfers
  have hok := ht.pc
  cases hpc : s.pc with
  | outside => rw [hpc] at h; cases h
  | check =>
    rw [hpc] at h
    cases hm : s.curl.messages with
    | nil =>
      rw [check_empty hm] at h
      cases h
      exact {}
    | cons x messages =>
      obtain ⟨handle, conn, hh, hconn⟩ := ht.message hm
      rw [check_message hm hh hconn] at h
      split at h <;> cases h <;> exact {}
  | emitError conn easy http text =>
    rw [hpc] at h hok
    obtain ⟨info, hinfo, -⟩ := Option.map_eq_some_iff.mp hok.2
    simp only [checkMultiInfo, hinfo] at h
    cases h
    exact {}
  | emitComplete conn easy http | disconnect conn easy http | remove conn easy =>
    rw [hpc] at h
    cases h
    exact {}
  | free conn easy =>
    rw [hpc] at h
    obtain ⟨info, hinfo, -⟩ := ht.conns.live easy conn (ht.freeing hpc).2
    simp only [checkMultiInfo, hinfo] at h
    cases h
    exact {}

omit [DecidableEq C] in
theorem apart_callback (hi : Inv s) {easy : Easy} {h : Handle} (hh : s.curl.active easy = some h)
    (hs : (∃ line, easyHeaderCallback h.priv line s = some s') ∨
      (∃ data, easyWriteCallback h.priv data s = s') ∨ easyReadCallback h.priv s = s') :
    Apart s s' := by
  obtain ⟨info, conns, es, -, -, -, rfl⟩ := step_callback hi hh hs
  exact {}

theorem apart_step {l : Label C} (hi : Inv s) (hl : l.apart = true) (h : perform s l = some s') :
    Apart s s' := by
  cases l with
  | socket | timer | event | error | close | fire | execute | newFds | updates | opened
  | loopGone => cases hl
  | init c added =>
    obtain rfl := step_init h
    unfold init
    split
    · exact {}
    · cases added <;> exact {}
  | write c =>
    obtain rfl := step_write hi h
    exact {}
  | release c => cases h; exact {}
  | header easy line =>
    obtain ⟨handle, hh, hs⟩ := Option.bind_eq_some_iff.mp h
    exact apart_callback hi hh (.inl ⟨line, hs⟩)
  | body easy data =>
    obtain ⟨handle, hh, rfl⟩ := Option.map_eq_some_iff.mp h
    exact apart_callback hi hh (.inr (.inl ⟨data, rfl⟩))
  | read easy =>
    obtain ⟨handle, hh, rfl⟩ := Option.map_eq_some_iff.mp h
    exact apart_callback hi hh (.inr (.inr rfl))
  | finish easy error =>
    obtain ⟨handle, -, rfl⟩ := Option.map_eq_some_iff.mp h
    exact {}
  | next => exact apart_next hi h

theorem perform_of_step {l : Label C} (h : step s l = some s') :
    s.io.fault = none ∧ (l.waits = true → s.failing = none) ∧ perform s l = some s' := by
  unfold step at h
  split at h
  · cases h
  · rename_i hf
    rw [not_or, not_or] at hf
    obtain ⟨-, hio, hwaits⟩ := hf
    refine ⟨Option.not_isSome_iff_eq_none.mp hio, fun hl => ?_, h⟩
    exact Option.not_isSome_iff_eq_none.mp fun hsome => hwaits ⟨hl, hsome⟩

/-! ## Descriptors -/

/-- The loop has been asked for what curl has asked for. -/
def Asks (s : State C) : Prop :=
  s.hasLoop = true → ∀ fd, s.io.want fd = (s.curl.sockets fd).map curlToReckoning

omit [DecidableEq C] in
theorem asks_polled (hi : Inv s) (ha : Asks s) {easy : Easy} {fd : Fd} {what : What}
    (hp : Polled s easy fd what s') : Asks s' := by
  intro hl'
  cases hp with
  | gone hl => exact absurd (hl.symm.trans hl') (by simp)
  | removed hl p hp | added hl hp what info =>
    intro g
    by_cases hg : g = fd
    · subst hg
      simp [State.removeFd, State.addFd, Interest.State.call]
    · simpa [State.removeFd, State.addFd, Interest.State.call, hg] using ha hl g
  | updated hl p hp what =>
    intro g
    by_cases hg : g = fd
    · subst hg
      -- the socket has an object, so curl has asked for it before
      have hhas := (hi.sockets hl).sockets g
      rw [hp, Option.isSome_some] at hhas
      obtain ⟨old, hold⟩ := Option.isSome_iff_exists.mp hhas.symm
      simp [State.updateFd, Interest.State.call, ha hl g, hold]
    · simpa [State.updateFd, Interest.State.call, hg] using ha hl g

/-- What the loop has of curl's sockets, and which of them it has closed, are the same. -/
structure SameFds (s s' : State C) : Prop where
  io : s'.io = s.io := by rfl
  failing : s'.failing = s.failing := by rfl
  closed : s'.closed = s.closed := by rfl
  sockets : s'.curl.sockets = s.curl.sockets := by rfl
  loop : s'.hasLoop = true → s.hasLoop = true := by exact id

def Label.ofFds : Label C → Bool
  | .socket .. | .error .. | .close | .newFds | .updates | .opened _ => true
  | _ => false

omit [DecidableEq C] in
theorem sameFds_event (running : Nat) : SameFds s (socketEventCallback running s) := by
  unfold socketEventCallback
  split <;> exact {}

/-- Only the socket callback and the loop have to do with descriptors. -/
theorem sameFds_step {l : Label C} (hi : Inv s) (hl : l.ofFds = false)
    (h : perform s l = some s') : SameFds s s' := by
  cases l with
  | socket | error | close | newFds | updates | opened => cases hl
  | init | write | release | header | body | read | finish | next =>
    have ha := apart_step hi rfl h
    exact ⟨ha.io, ha.failing, ha.closed, ha.sockets, fun hl => ha.loop ▸ hl⟩
  | timer ms now =>
    simp only [perform, multiTimerCallback] at h
    split at h
    · cases h; exact {}
    · split at h
      · cases h; exact {}
      · split at h <;> cases h
        exact {}
  | event running =>
    obtain ⟨-, rfl⟩ := step_event h
    exact sameFds_event running
  | fire now order =>
    obtain ⟨-, timers, -, rfl⟩ := step_fire h
    exact {}
  | execute =>
    obtain ⟨-, timers, -, -, rfl⟩ := step_execute h
    exact {}
  | loopGone => cases h; exact ⟨rfl, rfl, rfl, rfl, fun h => by cases h⟩

omit [DecidableEq C] in
/-- What an error event does to the descriptors, unless it finds its entry at the end. -/
theorem sameFds_error {fd : Fd} {running : Nat}
    (hend : EventLoop.findFd fd EventLoop.fdError s.io.loop.mFds ≠ .pastEnd) :
    SameFds { s with io := s.io.fail fd, failing := some fd } (errorEvent fd running s) := by
  unfold errorEvent
  dsimp only
  split
  · exact {}
  · exact sameFds_event running
  · exact absurd ‹_› hend

omit [DecidableEq C] in
theorem asks_error (ha : Asks s) (fd : Fd) (running : Nat) : Asks (errorEvent fd running s) := by
  unfold errorEvent
  dsimp only
  split
  · exact ha
  · intro hl g
    have hsame := sameFds_event (s := { s with io := s.io.fail fd, failing := some fd }) running
    rw [hsame.io, hsame.sockets]
    exact ha (hsame.loop hl) g
  · exact ha

theorem asks_step {l : Label C} (hi : Inv s) (ha : Asks s) (h : step s l = some s') : Asks s' := by
  obtain ⟨-, -, hp⟩ := perform_of_step h
  by_cases hfds : l.ofFds = false
  · intro hl fd
    have hsame := sameFds_step hi hfds hp
    rw [hsame.io, hsame.sockets]
    exact ha (hsame.loop hl) fd
  · cases l with
    | socket easy fd what => exact asks_polled hi ha (step_socket hi hp)
    | error fd running =>
      obtain ⟨-, rfl⟩ := step_error hp
      exact asks_error ha fd running
    | close =>
      obtain ⟨fd, -, rfl⟩ := step_close hp
      exact ha
    | newFds =>
      obtain rfl := step_newFds hp
      intro hl fd
      rw [Interest.want_newFds]
      exact ha hl fd
    | updates =>
      obtain ⟨-, rfl⟩ := step_updates hp
      exact ha
    | opened fd => cases hp; exact ha
    | init | write | release | header | body | read | finish | next | timer | event | fire | execute
    | loopGone => exact absurd rfl hfds

/-- **The loop is asked for exactly the sockets of curl**, each with what curl
asked for last. -/
theorem asks_for (s : State C) (hr : (multi C).Reachable s) (hl : s.hasLoop = true) (fd : Fd) :
    s.io.want fd = (s.curl.sockets fd).map curlToReckoning := by
  have hind : (multi C).Inductive fun s => Inv s ∧ Asks s :=
    { init := fun s hs => by
        cases hs
        exact ⟨inv_init, fun _ _ => rfl⟩
      step := fun s l s' hi h => ⟨inv_step hi.1 h, asks_step hi.1 hi.2 h⟩ }
  exact (hind.reachable s hr).2 hl fd

/-- A new socket is polled for something and open, and nothing is left of its number; no table is
read past its end. -/
def Watchable (s : State C) : Label C → Prop
  | .socket _ fd (.poll p) => s.hasLoop = true → s.curl.assigned fd = none →
      p ≠ .none ∧ s.closed fd = false ∧ Interest.Untouched s.io fd
  | .newFds => Interest.Even s.io.loop
  | .error fd _ => EventLoop.findFd fd EventLoop.fdError s.io.loop.mFds ≠ .pastEnd
  | _ => True

/-- What the loop has not closed is watched, or will be. -/
structure Held (s : State C) : Prop where
  fault : s.io.fault = none
  watched : s.hasLoop = true → ∀ fd, s.closed fd = false → s.failing ≠ some fd →
    Interest.WatchedAt s.io fd
  quiet : s.io.settled = true → s.failing = none

omit [DecidableEq C] in
theorem Held.same (h : Held s) (hs : SameFds s s') : Held s' := by
  refine ⟨hs.io ▸ h.fault, fun hl fd hc hf => ?_, ?_⟩
  · rw [hs.io]
    exact h.watched (hs.loop hl) fd (hs.closed ▸ hc) (hs.failing ▸ hf)
  · rw [hs.io, hs.failing]
    exact h.quiet

omit [DecidableEq C] in
/-- A call of the socket callback is a step of the loop. -/
theorem Held.call {k : Interest.Label Unit} (h : Held s) (hk : Interest.step s.io k = some s'.io)
    (hfresh : ∀ fd, Interest.FreshAt s.io fd k) (hl : s'.hasLoop = s.hasLoop)
    (hfail : s'.failing = s.failing) (hclosed : s'.closed = s.closed) (hn : k ≠ .newFds)
    (hs : s'.io.settled = false) : Held s' := by
  refine ⟨Interest.fault_step hk fun he => absurd he hn, fun hl' fd hc hf => ?_, fun hx => ?_⟩
  · rw [hclosed] at hc
    rw [hfail] at hf
    exact Interest.watchedAt_step (h.watched (hl ▸ hl') fd hc hf) (hfresh fd) hk
  · cases hs.symm.trans hx

omit [DecidableEq C] in
theorem held_polled (h : Held s) {easy : Easy} {fd : Fd} {what : What}
    (hw : Watchable s (.socket easy fd what)) (hp : Polled s easy fd what s') : Held s' := by
  have hnf : ¬ s.io.fault.isSome = true := by simp [h.fault]
  cases hp with
  | gone hl => exact ⟨h.fault, fun hl' => absurd (hl.symm.trans hl') (by simp), h.quiet⟩
  | removed hl p hp =>
    refine h.call (k := .removeFd fd) ?_ (fun _ => trivial) rfl rfl rfl (by simp) rfl
    rw [Interest.step, if_neg hnf]
    rfl
  | added hl hnone what info =>
    obtain ⟨hne, -, huntouched⟩ := hw hl hnone
    refine h.call (k := .addFd fd (curlToReckoning what) ()) ?_ (fun g he => he ▸ huntouched) rfl rfl
      rfl (by simp) rfl
    rw [Interest.step, if_neg hnf]
    cases what with
    | none => exact absurd rfl hne
    | input | output | inout => rfl
  | updated hl p hp what =>
    refine h.call (k := .updateFd fd (curlToReckoning what)) ?_ (fun _ => trivial) rfl rfl rfl
      (by simp) rfl
    rw [Interest.step, if_neg hnf]
    cases what <;> rfl

omit [DecidableEq C] in
/-- An error event is about one descriptor only, which the loop is going to close. -/
theorem held_failed (h : Held s) (hq : s.failing = none) (fd : Fd) :
    Held { s with io := s.io.fail fd, failing := some fd } := by
  refine ⟨h.fault, fun hl g hc hf => ?_, fun hx => by cases hx⟩
  have hne : g ≠ fd := fun he => hf (congrArg some he.symm)
  exact Interest.watchedAt_fail (h.watched hl g hc (by simp [hq])) hne

omit [DecidableEq C] in
theorem held_closed (h : Held s) (fd : Fd) (hf : s.failing = some fd) : Held { s with
    io := s.io.forget fd
    failing := none
    closed := Function.update s.closed fd true } := by
  refine ⟨h.fault, fun hl g hc _ => ?_, fun _ => rfl⟩
  have hne : g ≠ fd := fun he => by
    replace hc : Function.update s.closed fd true g = false := hc
    rw [he, Function.update_self] at hc
    cases hc
  replace hc : Function.update s.closed fd true g = false := hc
  rw [Function.update_of_ne hne] at hc
  have hother : s.failing ≠ some g := by
    rw [hf]
    exact fun he => hne (Option.some.inj he).symm
  exact Interest.watchedAt_forget (h.watched hl g hc hother) hne

theorem held_step {l : Label C} (hi : Inv s) (ha : Asks s) (hh : Held s) (hw : Watchable s l)
    (h : step s l = some s') : Held s' := by
  obtain ⟨-, hquiet, hp⟩ := perform_of_step h
  by_cases hfds : l.ofFds = false
  · exact hh.same (sameFds_step hi hfds hp)
  · cases l with
    | socket easy fd what => exact held_polled hh hw (step_socket hi hp)
    | error fd running =>
      obtain ⟨-, rfl⟩ := step_error hp
      exact (held_failed hh (hquiet rfl) fd).same (sameFds_error hw)
    | close =>
      obtain ⟨fd, hf, rfl⟩ := step_close hp
      exact held_closed hh fd hf
    | newFds =>
      obtain rfl := step_newFds hp
      have hsettled : (Interest.newFds s.io).settled = false := by
        unfold Interest.newFds
        split <;> rfl
      refine ⟨((Interest.mirrors_newFds hh.fault).mpr hw).fault, fun hl fd hc hf => ?_, fun hx => ?_⟩
      · exact Interest.watchedAt_newFds (hh.watched hl fd hc hf)
      · cases hsettled.symm.trans hx
    | updates =>
      obtain ⟨hb, rfl⟩ := step_updates hp
      refine ⟨hh.fault, fun hl fd hc hf => ?_, fun _ => hquiet rfl⟩
      obtain ⟨hopen, -⟩ := Bool.or_eq_false_iff.mp hc
      exact Interest.watchedAt_updates (hh.watched hl fd hopen hf) hb
    | opened fd =>
      cases hp
      refine ⟨hh.fault, fun hl g hc hf => ?_, hh.quiet⟩
      by_cases hold : s.closed g = false
      · exact hh.watched hl g hold hf
      · -- only a number that curl has not asked about counts as open again
        have hnone : s.curl.sockets g = none := by
          dsimp only at hc
          split at hc
          · rename_i hnone
            by_cases he : g = fd
            · exact he ▸ hnone
            · rw [Function.update_of_ne he] at hc
              exact absurd hc hold
          · exact absurd hc hold
        exact Interest.watchedAt_of_none ((ha hl g).trans (by rw [hnone]; rfl))
    | init | write | release | header | body | read | finish | next | timer | event | fire | execute
    | loopGone => exact absurd rfl hfds

/-- **curl's sockets are watched.** When new sockets are open and fresh, then after
every iteration the kernel watches each socket of curl that the loop has not
closed for what curl asked for last. -/
theorem watched (s : State C) (hr : ((multi C).guard Watchable).Reachable s) :
    s.io.fault = none ∧ (s.hasLoop = true → s.io.settled = true →
      ∀ fd p, s.curl.sockets fd = some p → s.closed fd = false →
        s.io.interest fd = some (curlToReckoning p)) := by
  have hg : (multi C).Guarded Watchable fun s => Inv s ∧ Asks s ∧ Held s :=
    { init := fun s hs => by
        cases hs
        exact ⟨inv_init, fun _ _ => rfl, rfl, fun _ fd _ _ => Interest.watchedAt_init fd,
          fun _ => rfl⟩
      step := fun s l s' hi hw h =>
        ⟨inv_step hi.1 h, asks_step hi.1 hi.2.1 h, held_step hi.1 hi.2.1 hi.2.2 hw h⟩ }
  obtain ⟨-, hasks, hh⟩ := hg.reachable s hr
  refine ⟨hh.fault, fun hl hs fd p hp hc => ?_⟩
  have hat := hh.watched hl fd hc (by simp [hh.quiet hs])
  refine hat.settled hs _ ?_
  rw [hasks hl, hp]
  rfl

/-! ## The timer -/

/-- The timer for what curl has asked for last is the only one in the list. -/
structure Armed (s : State C) : Prop where
  flag : ∀ t, (s.timers.timer t).mFlag = .timeout
  list : match s.asked with
    | none => s.timers.mTimers = []
    | some r => ∃ t, s.timer = some t ∧ s.timers.mTimers = [t] ∧
        (s.timers.timer t).mNext = Timers.deadline r.2 r.1

/-- The deadlines that the timer callback computes fit into 64 bits. -/
def TimersFit (_ : State C) : Label C → Prop
  | .timer ms now => Timers.Holds64 (Timers.deadline now ms)
  | _ => True

instance (s : State C) : ∀ l, Decidable (TimersFit s l)
  | .timer .. => inferInstanceAs (Decidable (Timers.Holds64 _))
  | .init .. | .write .. | .release .. | .socket .. | .header .. | .body .. | .read .. | .finish ..
  | .event .. | .error .. | .close | .fire .. | .execute | .next | .newFds | .updates | .opened _
  | .loopGone => isTrue trivial

omit [DecidableEq C] in
/-- Stopping the timer empties the list. -/
theorem Armed.stop (ha : Armed s) {t : Nat} (ht : s.timer = some t) :
    (Timers.stop t s.timers).mTimers = [] := by
  have hlist := ha.list
  cases hasked : s.asked with
  | none =>
    rw [hasked] at hlist
    simp [Timers.stop, hlist]
  | some d =>
    rw [hasked] at hlist
    obtain ⟨u, hu, hm, -⟩ := hlist
    obtain rfl := Option.some.inj (ht.symm.trans hu)
    simp [Timers.stop, hm]

/-- The timer, when it is not in the list, and no other one is. -/
theorem armed_add {timers : Timers.State Nat} (t : Nat) (ms : Int) (now : Time)
    (hflag : ∀ u, (timers.timer u).mFlag = .timeout) (hms : (timers.timer t).mTimeout = ms)
    (hempty : timers.mTimers = []) :
    (∀ u, ((Timers.addTimer now t timers).timer u).mFlag = .timeout) ∧
      (Timers.addTimer now t timers).mTimers = [t] ∧
      ((Timers.addTimer now t timers).timer t).mNext = Timers.plus now ms := by
  refine ⟨fun u => ?_, by rw [Timers.addTimer, hempty]; rfl, ?_⟩
  · by_cases hu : u = t
    · subst hu
      simp [Timers.addTimer, Timers.setNext, hflag]
    · simp [Timers.addTimer, Timers.setNext, hu, hflag]
  · simp [Timers.addTimer, Timers.setNext, hms]

omit [DecidableEq C] in
/-- The assertion of `updateTimeout` holds: the timer has just been stopped. -/
theorem armed_timer (ha : Armed s) (ms : Int) (now : Time) :
    ∃ s', multiTimerCallback ms now s = some s' ∧
      (Timers.Holds64 (Timers.deadline now ms) → Armed s') := by
  unfold multiTimerCallback
  split
  · exact ⟨s, rfl, fun _ => ha⟩
  · cases ht : s.timer with
    | none =>
      have hempty : s.timers.mTimers = [] := by
        have hlist := ha.list
        cases hasked : s.asked with
        | none => rwa [hasked] at hlist
        | some d =>
          rw [hasked] at hlist
          obtain ⟨u, hu, -⟩ := hlist
          rw [ht] at hu
          cases hu
      let timers := { s.timers with
        timer := Function.update s.timers.timer s.nextTimer ⟨ms, 0, .timeout⟩ }
      have hflags : ∀ u, (timers.timer u).mFlag = .timeout := fun u => by
        by_cases hu : u = s.nextTimer
        · simp [timers, hu]
        · simpa [timers, hu] using ha.flag u
      obtain ⟨hflag, hlist, hnext⟩ :=
        armed_add s.nextTimer ms now hflags (by simp [timers]) hempty
      exact ⟨_, rfl, fun hfit =>
        ⟨hflag, _, rfl, hlist, hnext.trans (Timers.plus_eq_deadline_iff.mpr hfit)⟩⟩
    | some t =>
      have hempty := ha.stop ht
      have hidle : ¬ Timers.isActive t (Timers.stop t s.timers) := by
        simp [Timers.isActive, hempty]
      let timers := Timers.updateTimeout ms t (Timers.stop t s.timers)
      have hflags : ∀ u, (timers.timer u).mFlag = .timeout := fun u => by
        by_cases hu : u = t
        · simpa [timers, Timers.updateTimeout, Timers.stop, hu] using ha.flag t
        · simpa [timers, Timers.updateTimeout, Timers.stop, hu] using ha.flag u
      obtain ⟨hflag, hlist, hnext⟩ :=
        armed_add t ms now hflags (by simp [timers, Timers.updateTimeout]) hempty
      exact ⟨_, if_neg hidle, fun hfit =>
        ⟨hflag, t, rfl, hlist, hnext.trans (Timers.plus_eq_deadline_iff.mpr hfit)⟩⟩

omit [DecidableEq C] in
/-- Nothing else changes the timer or the list but the end of the last transfer. -/
theorem armed_event (ha : Armed s) (running : Nat) : Armed (socketEventCallback running s) := by
  unfold socketEventCallback
  split
  · rename_i t ht
    exact ⟨ha.flag, ha.stop ht⟩
  · exact ⟨ha.flag, ha.list⟩

omit [DecidableEq C] in
theorem armed_error (ha : Armed s) (fd : Fd) (running : Nat) : Armed (errorEvent fd running s) := by
  unfold errorEvent
  dsimp only
  split
  · exact ⟨ha.flag, ha.list⟩
  · have hfailed : Armed { s with io := s.io.fail fd, failing := some fd } := ⟨ha.flag, ha.list⟩
    exact armed_event hfailed running
  · exact ⟨ha.flag, ha.list⟩

omit [DecidableEq C] in
/-- When an event leaves no transfer there is no timer. -/
theorem armed_done (ha : Armed s) :
    (socketEventCallback 0 s).asked = none ∧ (socketEventCallback 0 s).timers.mTimers = [] := by
  have hlist := ha.list
  cases ht : s.timer with
  | some t => simpa [socketEventCallback, ht] using ha.stop ht
  | none =>
    cases hasked : s.asked with
    | none => simpa [socketEventCallback, ht, hasked] using hlist
    | some r =>
      rw [hasked] at hlist
      obtain ⟨u, hu, -⟩ := hlist
      cases ht.symm.trans hu

omit [DecidableEq C] in
/-- A fire phase takes the timer when its deadline has come, and else leaves it. -/
theorem armed_fire (ha : Armed s) {now : Time} {order : List Nat} {timers : Timers.State Nat}
    (h : Timers.step s.timers (.fire now order) = some timers) :
    Armed { s with timers, asked := s.asked.filter fun r => now < Timers.deadline r.2 r.1 } ∧
      (timers.due ≠ [] ↔ ∃ r, s.asked = some r ∧ Timers.deadline r.2 r.1 ≤ now) := by
  obtain ⟨-, -, hperm, -, rfl⟩ := Timers.step_fire h
  have hlist := ha.list
  cases hasked : s.asked with
  | none =>
    rw [hasked] at hlist
    rw [hlist, Timers.fireLoop] at hperm ⊢
    obtain rfl := hperm.eq_nil
    exact ⟨⟨ha.flag, rfl⟩, by simp⟩
  | some r =>
    rw [hasked] at hlist
    obtain ⟨t, ht, hm, hnext⟩ := hlist
    have hflag := ha.flag t
    by_cases hd : Timers.deadline r.2 r.1 ≤ now
    · have hfired : Timers.fireLoop now s.timers.mTimers s.timers.timer =
          ⟨[t], [], s.timers.timer⟩ := by
        simp [hm, Timers.fireLoop, hnext, hd, hflag]
      rw [hfired] at hperm ⊢
      obtain rfl := hperm.eq_nil
      have hnone : (some r).filter (fun r => decide (now < Timers.deadline r.2 r.1)) = none := by
        simpa using hd
      exact ⟨⟨ha.flag, by rw [hnone]⟩, by simpa using hd⟩
    · have hkept : Timers.fireLoop now s.timers.mTimers s.timers.timer =
          ⟨[], [t], s.timers.timer⟩ := by
        simp [hm, Timers.fireLoop, hnext, hd]
      rw [hkept] at hperm ⊢
      obtain rfl := List.perm_singleton.mp hperm
      have hsome : (some r).filter (fun r => decide (now < Timers.deadline r.2 r.1)) = some r := by
        simpa using hd
      refine ⟨⟨ha.flag, ?_⟩, by simpa using hd⟩
      rw [hsome]
      exact ⟨t, ht, rfl, hnext⟩

theorem armed_step {l : Label C} (hi : Inv s) (ha : Armed s) (hfit : TimersFit s l)
    (h : step s l = some s') : Armed s' := by
  obtain ⟨-, -, hp⟩ := perform_of_step h
  cases l with
  | init | write | release | header | body | read | finish | next =>
    have hapart := apart_step hi rfl hp
    refine ⟨by rw [hapart.objects]; exact ha.flag, ?_⟩
    rw [hapart.asked, hapart.timer, hapart.list, hapart.objects]
    exact ha.list
  | socket easy fd what =>
    cases step_socket hi hp <;> exact ⟨ha.flag, ha.list⟩
  | timer ms now =>
    obtain ⟨t, ht, harmed⟩ := armed_timer ha ms now
    obtain rfl := Option.some.inj (ht.symm.trans hp)
    exact harmed hfit
  | event running =>
    obtain ⟨-, rfl⟩ := step_event hp
    exact armed_event ha running
  | error fd running =>
    obtain ⟨-, rfl⟩ := step_error hp
    exact armed_error ha fd running
  | fire now order =>
    obtain ⟨-, timers, ht, rfl⟩ := step_fire hp
    exact (armed_fire ha ht).1
  | execute =>
    obtain ⟨-, timers, hobjects, hlist, rfl⟩ := step_execute hp
    refine ⟨by rw [hobjects]; exact ha.flag, ?_⟩
    rw [hlist, hobjects]
    exact ha.list
  | close =>
    obtain ⟨fd, -, rfl⟩ := step_close hp
    exact ⟨ha.flag, ha.list⟩
  | newFds =>
    obtain rfl := step_newFds hp
    exact ⟨ha.flag, ha.list⟩
  | updates =>
    obtain ⟨-, rfl⟩ := step_updates hp
    exact ⟨ha.flag, ha.list⟩
  | opened | loopGone => cases hp; exact ⟨ha.flag, ha.list⟩

/-- **The timer follows curl.** While what the timer callback has asked for last
stands, the loop has one timer of curl, for that time, and else none. It stands
until a fire phase comes to its time or an event leaves no transfer;
`CurlTimer::execute` stops no timer, whatever it leaves. `updateTimeout` never
fails its assertion, and a fire phase selects the timer exactly when its time has
come. With -1 curl asks for no timer; it gets one that is due at once. -/
theorem timer_follows (s : State C) (hr : ((multi C).guard TimersFit).Reachable s) :
    (match s.asked with
      | none => s.timers.mTimers = []
      | some r => ∃ t, s.timer = some t ∧ s.timers.mTimers = [t] ∧
          (s.timers.timer t).mNext = Timers.deadline r.2 r.1) ∧
      (∀ ms now, (multiTimerCallback ms now s).isSome = true) ∧
      (∀ now order s', step s (.fire now order) = some s' →
        (s'.timers.due ≠ [] ↔ ∃ r, s.asked = some r ∧ Timers.deadline r.2 r.1 ≤ now)) ∧
      (∀ called now order s', s.asked = some (-1, called) → called ≤ now →
        step s (.fire now order) = some s' → s'.timers.due ≠ []) ∧
      (∀ s', step s (.event 0) = some s' → s'.asked = none ∧ s'.timers.mTimers = []) ∧
      ∀ s', step s .execute = some s' →
        s'.asked = s.asked ∧ s'.timers.mTimers = s.timers.mTimers := by
  have hg : (multi C).Guarded TimersFit fun s => Inv s ∧ Armed s :=
    { init := fun s hs => by
        cases hs
        exact ⟨inv_init, fun _ => rfl, rfl⟩
      step := fun s l s' hi hf h => ⟨inv_step hi.1 h, armed_step hi.1 hi.2 hf h⟩ }
  obtain ⟨-, ha⟩ := hg.reachable s hr
  have hfire : ∀ now order s', step s (.fire now order) = some s' →
      (s'.timers.due ≠ [] ↔ ∃ r, s.asked = some r ∧ Timers.deadline r.2 r.1 ≤ now) := by
    intro now order s' h
    obtain ⟨-, -, hp⟩ := perform_of_step h
    obtain ⟨-, timers, ht, rfl⟩ := step_fire hp
    exact (armed_fire ha ht).2
  refine ⟨ha.list, fun ms now => ?_, hfire, fun called now order s' hasked hle h => ?_,
    fun s' h => ?_, fun s' h => ?_⟩
  · obtain ⟨t, ht, -⟩ := armed_timer ha ms now
    rw [ht]
    rfl
  · have hcome : Timers.deadline called (-1) ≤ now :=
      calc Timers.deadline called (-1) = called - 1000000 := rfl
        _ ≤ called := Int.sub_le_self called (b := 1000000) (by decide)
        _ ≤ now := hle
    exact (hfire now order s' h).mpr ⟨_, hasked, hcome⟩
  · obtain ⟨-, -, hp⟩ := perform_of_step h
    obtain ⟨-, rfl⟩ := step_event hp
    exact armed_done ha
  · obtain ⟨-, -, hp⟩ := perform_of_step h
    obtain ⟨-, timers, -, hlist, rfl⟩ := step_execute hp
    exact ⟨rfl, hlist⟩

end

/-! ### A run -/

instance (s : State Bool) : ∀ l, Decidable (Watchable s l)
  | .socket _ fd (.poll p) => inferInstanceAs
      (Decidable (_ → _ → p ≠ .none ∧ s.closed fd = false ∧ Interest.Untouched s.io fd))
  | .newFds => inferInstanceAs (Decidable (Interest.Even _))
  | .error fd _ =>
    match h : EventLoop.findFd fd EventLoop.fdError s.io.loop.mFds with
    | .none => isTrue (show EventLoop.findFd _ _ _ ≠ _ by simp [h])
    | .call _ => isTrue (show EventLoop.findFd _ _ _ ≠ _ by simp [h])
    | .pastEnd => isFalse fun hne => hne h
  | .socket _ _ .remove | .init .. | .write .. | .release .. | .timer .. | .header .. | .body ..
  | .read .. | .finish .. | .event .. | .close | .fire .. | .execute | .next | .updates | .opened _
  | .loopGone => isTrue trivial

/-- Two sockets are polled, one of them for both ways and then only for reading; the other one
fails. In between curl moves its deadline. -/
def polling : List (Label Bool) :=
  [.init false true, .timer 5 0, .opened 7, .opened 8, .socket 0 8 (.poll .input),
    .socket 0 7 (.poll .inout), .newFds, .updates, .timer 2 1000000, .socket 0 7 (.poll .input),
    .error 8 1, .next, .close, .newFds, .updates]

theorem polling_runs : (LTS.record step State.init polling).isSome := rfl

theorem polling_watchable : LTS.AllSteps Watchable State.init
    ((LTS.record step State.init polling).get polling_runs) := by decide

theorem polling_fits : LTS.AllSteps TimersFit State.init
    ((LTS.record step State.init polling).get polling_runs) := by decide

/-- The state at its end. -/
def polled : State Bool :=
  LTS.last State.init ((LTS.record step State.init polling).get polling_runs)

theorem asks_for_polled : polled.hasLoop = true ∧
    polled.io.want 7 = (polled.curl.sockets 7).map curlToReckoning := by
  have hloop : polled.hasLoop = true := by decide
  exact ⟨hloop, asks_for polled ((LTS.trace_record polling_runs).reachable rfl) hloop 7⟩

theorem watched_polled : polled.io.interest 7 = some ⟨false, true, false⟩ := by
  have hr : ((multi Bool).guard Watchable).Reachable polled :=
    ((LTS.trace_record polling_runs).guard polling_watchable).reachable rfl
  have hloop : polled.hasLoop = true := by decide
  have hsettled : polled.io.settled = true := by decide
  have hpolled : polled.curl.sockets 7 = some .input := by decide +kernel
  have hopen : polled.closed 7 = false := by decide +kernel
  exact (watched polled hr).2 hloop hsettled 7 .input hpolled hopen

theorem timer_follows_polled : ∃ t, polled.timer = some t ∧ polled.timers.mTimers = [t] ∧
    (polled.timers.timer t).mNext = 3000000 := by
  have hr : ((multi Bool).guard TimersFit).Reachable polled :=
    ((LTS.trace_record polling_runs).guard polling_fits).reachable rfl
  have hasked : polled.asked = some (2, 1000000) := by decide
  have harmed := (timer_follows polled hr).1
  rw [hasked] at harmed
  exact harmed

end Reckoning.L5.HttpMulti
