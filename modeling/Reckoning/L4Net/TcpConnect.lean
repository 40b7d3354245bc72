import Reckoning.L4Net.TcpSocket

/-!
# Racing an IPv4 and an IPv6 connect

A fresh socket, Plain mode, at most one `connect` of each family, started by
any code at any time (handlers included), no `close()`, nothing written. An
attempt succeeds or fails at once or is answered `EINPROGRESS`; then the
kernel decides it later and the loop reports a write event on its descriptor.

`att` is a ghost: what has become of each attempt. `report f ok` is the
decision of the kernel about a pending attempt, delivered to the socket;
`SO_ERROR` then answers accordingly.

`Settled` is the intended outcome. It fails for one kind of run only. When one
attempt has failed before the other one is started, `mState` is already
`Error`; an `EINPROGRESS` does not bring it back to `Connecting`
(lib/net/TcpSocket.cpp:337, `mState < Connecting`), so the write event never
looks at `SO_ERROR` and a success of that *late* attempt is lost.

* `work_step`, `runs_on`: the blocks between two returns to the loop come to an end.
* `two_family_connect_iff`: whenever the socket is back in the loop, `Settled`
  holds exactly when no late attempt has succeeded.
-/
namespace Reckoning.L4.TcpConnect
open Reckoning.L4.TcpSocket

inductive Outcome
  | pending | succeeded | failed
  deriving DecidableEq, Repr

/-- One `connect` call. `ignored`: the socket was connected already. `late`:
it was answered `EINPROGRESS` with `mState` at `Error`. -/
inductive Attempt
  | unstarted
  | ignored
  | tried (late : Bool) (sock : Option Fd) (o : Outcome)
  deriving DecidableEq, Repr

structure Sys where
  c : Cfg
  att : Family → Attempt

def Sys.init : Sys := ⟨Cfg.init, fun _ => .unstarted⟩

def Sys.set (x : Sys) (c : Cfg) (f : Family) (p : Attempt) : Sys :=
  ⟨c, fun g => if g = f then p else x.att g⟩

/-- What becomes of a `connect` call on the socket `s`. -/
def started (s : Sock) (f : Family) (sock : Option Fd) (res : ConnectRes) : Attempt :=
  if s.fd f ≠ none ∨ s.mState = .connected then .ignored
  else
    match res with
    | .ok => .tried false sock .succeeded
    | .inProgress => .tried (s.mState = .error) sock .pending
    | .failed => .tried false sock .failed

def decided (ok : Bool) : Outcome := if ok then .succeeded else .failed

def Attempt.Failed : Attempt → Prop
  | .tried _ _ .failed => True
  | _ => False

/-- `SO_ERROR` answers what the kernel has decided. -/
def Answers (x : Sys) (a : Ans) : Prop :=
  match a, x.c.stack with
  | .soError failed, .plainWrite f :: _ => failed = true ↔ (x.att f).Failed
  | _, _ => True

inductive Label
  | connect (f : Family) (sock : Option Fd) (res : ConnectRes)
  | report (f : Family) (ok : Bool)
  | run (a : Ans)
  | ret
  deriving DecidableEq, Repr

instance : DecidablePred Attempt.Failed
  | .tried _ _ .failed => .isTrue trivial
  | .unstarted | .ignored | .tried _ _ .pending | .tried _ _ .succeeded => .isFalse id

instance (x : Sys) (a : Ans) : Decidable (Answers x a) := by
  unfold Answers; split <;> infer_instance

def step (x : Sys) : Label → Option Sys
  | .connect f sock res =>
    if x.att f = .unstarted then
      (TcpSocket.step x.c (.call (.connect f .plain sock res))).map
        fun c => x.set c f (started x.c.s f sock res)
    else none
  | .report f ok =>
    match x.att f, x.c.s.fd f with
    | .tried late sock .pending, some fd =>
      (TcpSocket.step x.c (.event fd ⟨false, false, true⟩)).map
        fun c => x.set c f (.tried late sock (decided ok))
    | _, _ => none
  | .run a => if Answers x a then (TcpSocket.step x.c (.run a)).map fun c => ⟨c, x.att⟩ else none
  | .ret => (TcpSocket.step x.c .ret).map fun c => ⟨c, x.att⟩

def race : LTS Sys Label := .ofFn (· = Sys.init) step

/-! ## The property -/

/-- The socket has returned to the loop. -/
def AtRest (x : Sys) : Prop := x.c.stack = []

/-- Some attempt has succeeded. -/
def Succeeded (x : Sys) : Prop := ∃ f late sock, x.att f = .tried late sock .succeeded

/-- Some attempt was started and all the started ones have failed. -/
def AllFailed (x : Sys) : Prop :=
  (∃ f, x.att f ≠ .unstarted) ∧ ∀ f, x.att f ≠ .unstarted → (x.att f).Failed

/-- `Connected` on the descriptor of a successful attempt, the other one closed. -/
def OnWinner (x : Sys) : Prop :=
  x.c.s.mState = .connected ∧ ∃ f late fd, x.att f = .tried late (some fd) .succeeded ∧
    x.c.s.fd f = some fd ∧ x.c.s.fd f.other = none

structure Settled (x : Sys) : Prop where
  fault : x.c.fault = none
  success : Succeeded x → OnWinner x
  failure : AllFailed x → x.c.s.mState = .error

/-- No attempt that was answered `EINPROGRESS` in state `Error` has succeeded. -/
def NoLateSuccess (x : Sys) : Prop := ∀ f sock, x.att f ≠ .tried true sock .succeeded

/-! ## Invariant -/

/-- What an attempt of family `f` says about the socket and the frames. -/
def Fits (x : Sys) (f : Family) : Attempt → Prop
  | .unstarted | .ignored => x.c.s.fd f = none
  | .tried true _ _ => x.c.s.mState = .error ∧ ∃ sock, x.att f.other = .tried false sock .failed
  | .tried false sock .pending =>
    x.c.s.mState = .connected ∨ (x.c.s.mState = .connecting ∧ sock ≠ none ∧ x.c.s.fd f = sock)
  | .tried false _ .failed =>
    x.c.s.fd f = none ∨ .dropFailed f ∈ x.c.stack ∨ .plainWrite f ∈ x.c.stack
  | .tried false sock .succeeded =>
    sock ≠ none ∧ x.c.s.fd f = sock ∧ (∀ sock', x.att f.other ≠ .tried false sock' .succeeded) ∧
      ((x.c.s.mState = .connected ∧ (x.c.s.fd f.other = none ∨ .closeOther f ∈ x.c.stack)) ∨
       (x.c.s.mState = .connecting ∧ .plainWrite f ∈ x.c.stack))

/-- What the state says about the attempts. -/
def StateOk (x : Sys) : Prop :=
  match x.c.s.mState with
  | .idle => ∀ f, x.att f = .unstarted
  | .connecting => ∃ f, (∃ sock, x.att f = .tried false sock .pending) ∨ .plainWrite f ∈ x.c.stack
  | .connected => ∃ f sock, x.att f = .tried false sock .succeeded
  | .error => ∃ f sock, x.att f = .tried false sock .failed
  | _ => False

/-- What a frame says about the attempts. -/
def FrameOk (x : Sys) : Frame → Prop
  | .handler | .callProcessWrite _ | .armConnect _ => True
  | .processWrite _ it => it = 0
  | .dropFailed f => ∃ sock, x.att f = .tried false sock .failed
  | .closeOther f => ∃ sock, x.att f = .tried false sock .succeeded
  | .plainWrite f => ∃ late sock o, x.att f = .tried late sock o ∧ o ≠ .pending ∧
      x.c.s.fd f ≠ none ∧ (late = false → x.c.s.mState = .connecting)
  | _ => False

structure Inv (x : Sys) : Prop where
  fault : x.c.fault = none
  mode : x.c.s.mMode = .plain
  pending : x.c.s.mPendingWrites = []
  apart : ∀ f fd, x.c.s.fd f = some fd → x.c.s.fd f.other ≠ some fd
  fits : ∀ f, Fits x f (x.att f)
  state : StateOk x
  frames : ∀ fr ∈ x.c.stack, FrameOk x fr
  alone : ∀ f, .plainWrite f ∈ x.c.stack → x.c.stack = [.plainWrite f]

theorem inv_init : Inv Sys.init where
  fault := rfl
  mode := rfl
  pending := rfl
  apart f fd h := by cases f <;> cases h
  fits f := by cases f <;> rfl
  state _ := rfl
  frames _ h := by cases h
  alone _ h := by cases h

/-! ## Starting an attempt -/

@[simp] theorem set_c (x : Sys) (c : Cfg) (f : Family) (p : Attempt) : (x.set c f p).c = c := rfl

@[simp] theorem set_att (x : Sys) (c : Cfg) (f : Family) (p : Attempt) :
    (x.set c f p).att f = p := by simp [Sys.set]

theorem forall_family {P : Family → Prop} (f : Family) : (∀ g, P g) ↔ P f ∧ P f.other := by
  refine ⟨fun h => ⟨h f, h f.other⟩, fun h g => ?_⟩
  rcases eq_or_other f g with hg | hg
  · exact hg ▸ h.1
  · exact hg ▸ h.2

@[simp] theorem set_att_other (x : Sys) (c : Cfg) (f : Family) (p : Attempt) :
    (x.set c f p).att f.other = x.att f.other := by simp [Sys.set]

/-- A `connect` that is not ignored runs `internalConnect` on the new descriptor. -/
theorem connect_opens {c : Cfg} {f : Family} (sock : Option Fd) (res : ConnectRes)
    (hfd : c.s.fd f = none) (hst : c.s.mState ≠ .connected) :
    ∃ c₁ : Cfg, connect f .plain sock res c = internalConnect res f c₁ ∧
      c₁.s.fd f = sock ∧ c₁.s.fd f.other = c.s.fd f.other ∧ c₁.s.mState = c.s.mState ∧
      c₁.s.mMode = .plain ∧ c₁.s.mPendingWrites = c.s.mPendingWrites ∧ c₁.fault = c.fault ∧
      c₁.stack = c.stack := by
  unfold connect
  rw [if_neg (by simp [hfd, hst])]
  refine ⟨_, rfl, ?_⟩
  cases f <;> exact ⟨rfl, rfl, rfl, rfl, rfl, rfl, rfl⟩

theorem Inv.no_plainWrite {x : Sys} (h : Inv x) (hu : userTurn x.c = true) (g : Family) :
    .plainWrite g ∉ x.c.stack := by
  intro hm
  rw [userTurn, h.alone g hm] at hu
  cases hu

/-- Starting an attempt does not disturb the other one. -/
theorem Inv.fits_other {x x' : Sys} {f : Family} (h : Inv x) (hun : x.att f = .unstarted)
    (hst : x.c.s.mState ≠ .connected) (hu : userTurn x.c = true)
    (hatt : x'.att f.other = x.att f.other) (hfd : x'.c.s.fd f.other = x.c.s.fd f.other)
    (hk : ∀ fr ∈ x.c.stack, fr ∈ x'.c.stack)
    (hpend : x.c.s.mState = .connecting → x.c.s.fd f.other ≠ none →
      x'.c.s.mState = .connected ∨ x'.c.s.mState = .connecting) :
    Fits x' f.other (x'.att f.other) := by
  have hfit := h.fits f.other
  rw [hatt]
  generalize x.att f.other = q at hfit
  match q, hfit with
  | .unstarted, hn => exact hfd.trans hn
  | .ignored, hn => exact hfd.trans hn
  | .tried true _ _, ⟨_, sock', hfail⟩ => rw [other_other, hun] at hfail; cases hfail
  | .tried false sock .pending, hp =>
    obtain ⟨hc, hne, heq⟩ := hp.resolve_left hst
    rcases hpend hc (heq ▸ hne) with h1 | h1
    · exact Or.inl h1
    · exact Or.inr ⟨h1, hne, hfd.trans heq⟩
  | .tried false _ .failed, hp =>
    rcases hp with hn | hm | hm
    · exact Or.inl (hfd.trans hn)
    · exact Or.inr (Or.inl (hk _ hm))
    · exact absurd hm (h.no_plainWrite hu _)
  | .tried false _ .succeeded, ⟨_, _, _, hp⟩ =>
    rcases hp with ⟨hc, -⟩ | ⟨-, hm⟩
    · exact absurd hc hst
    · exact absurd hm (h.no_plainWrite hu _)

/-- Starting an attempt leaves those already started alone. -/
theorem att_started {x x' : Sys} {f : Family} (hun : x.att f = .unstarted)
    (hatt : x'.att f.other = x.att f.other) (g : Family) (hne : x.att g ≠ .unstarted) :
    x'.att g = x.att g := by
  rcases eq_or_other f g with rfl | rfl
  · exact absurd hun hne
  · exact hatt

/-- A frame other than the `FdWrite` part is about attempts already started. -/
theorem FrameOk.started {x x' : Sys} {fr : Frame} (h : FrameOk x fr) (hno : ∀ g, fr ≠ .plainWrite g)
    (hatt : ∀ g, x.att g ≠ .unstarted → x'.att g = x.att g) : FrameOk x' fr := by
  match fr, h with
  | .handler, _ => exact trivial
  | .callProcessWrite _, _ => exact trivial
  | .armConnect _, _ => exact trivial
  | .processWrite _ _, hit => exact hit
  | .dropFailed g, ⟨sock, ha⟩ => exact ⟨sock, (hatt g (by simp [ha])).trans ha⟩
  | .closeOther g, ⟨sock, ha⟩ => exact ⟨sock, (hatt g (by simp [ha])).trans ha⟩
  | .plainWrite g, _ => exact absurd rfl (hno g)

/-- The other descriptor stays where it was and differs from the new one. -/
theorem apart_set {x : Sys} {f : Family} {s : Sock} {v : Option Fd}
    (hne : v ≠ none → v ≠ x.c.s.fd f.other) (hf : s.fd f = v ∨ s.fd f = none)
    (ho : s.fd f.other = x.c.s.fd f.other ∨ s.fd f.other = none) :
    ∀ g fd, s.fd g = some fd → s.fd g.other ≠ some fd := by
  have key : ∀ fd, s.fd f = some fd → s.fd f.other ≠ some fd := by
    intro fd h1 h2
    rcases hf with hf | hf
    · rcases ho with ho | ho
      · rw [hf] at h1; rw [ho] at h2
        exact hne (by simp [h1]) (h1.trans h2.symm)
      · rw [ho] at h2; cases h2
    · rw [hf] at h1; cases h1
  refine (forall_family f).mpr ⟨key, fun fd h1 h2 => ?_⟩
  rw [other_other] at h2
  exact key fd h2 h1

theorem started_ignored {s : Sock} {f : Family} {sock : Option Fd} {res : ConnectRes}
    (h : s.mState = .connected) : started s f sock res = .ignored := by simp [started, h]

theorem started_tried {s : Sock} {f : Family} {sock : Option Fd} (res : ConnectRes)
    (hfd : s.fd f = none) (hst : s.mState ≠ .connected) :
    started s f sock res = .tried (res = .inProgress ∧ s.mState = .error) sock
      (match res with
        | .ok => .succeeded
        | .inProgress => .pending
        | .failed => .failed) := by
  cases res <;> simp [started, hfd, hst]

/-- A `connect` on a connected socket returns at once. -/
theorem inv_ignored {x : Sys} {f : Family} (h : Inv x) (hun : x.att f = .unstarted)
    (hst : x.c.s.mState = .connected) : Inv (x.set x.c f .ignored) := by
  have hfd : x.c.s.fd f = none := by have := h.fits f; rwa [hun] at this
  have hatt : ∀ g, x.att g ≠ .unstarted → (x.set x.c f .ignored).att g = x.att g :=
    att_started hun (by simp)
  refine ⟨h.fault, h.mode, h.pending, h.apart, (forall_family f).mpr ⟨?_, ?_⟩, ?_,
    fun fr hm => ?_, h.alone⟩
  · rw [set_att]; exact hfd
  · have hfit := h.fits f.other
    rw [set_att_other]
    generalize hq : x.att f.other = q at hfit
    match q, hfit with
    | .unstarted, hn => exact hn
    | .ignored, hn => exact hn
    | .tried true _ _, ⟨herr, _⟩ => rw [hst] at herr; cases herr
    | .tried false _ .pending, hp => exact hp
    | .tried false _ .failed, hp => exact hp
    | .tried false _ .succeeded, ⟨hne, heq, _, hp⟩ => exact ⟨hne, heq, by simp, hp⟩
  · have hs := h.state
    unfold StateOk at hs ⊢
    rw [hst] at hs
    rw [set_c, hst]
    obtain ⟨g, sock, ha⟩ := hs
    exact ⟨g, sock, (hatt g (by simp [ha])).trans ha⟩
  · by_cases hw : ∃ g, fr = .plainWrite g
    · obtain ⟨g, rfl⟩ := hw
      obtain ⟨late, sock, o, ha, hrest⟩ := h.frames _ hm
      exact ⟨late, sock, o, (hatt g (by simp [ha])).trans ha, hrest⟩
    · exact (h.frames fr hm).started (fun g he => hw ⟨g, he⟩) hatt

/-- An attempt that is not ignored: it leaves the socket `c'`, with the frames
`new` on top, and becomes `p`. -/
theorem Inv.start {x : Sys} {c' : Cfg} {f : Family} {p : Attempt} {sock : Option Fd} (h : Inv x)
    (new : List Frame) (hun : x.att f = .unstarted)
    (hst : x.c.s.mState ≠ .connected) (hu : userTurn x.c = true)
    (hsock : sock ≠ none → sock ≠ x.c.s.fd f.other)
    (hfault : c'.fault = x.c.fault) (hmode : c'.s.mMode = .plain)
    (hpend : c'.s.mPendingWrites = x.c.s.mPendingWrites)
    (hfd : c'.s.fd f = sock ∨ c'.s.fd f = none) (hfo : c'.s.fd f.other = x.c.s.fd f.other)
    (hk : c'.stack = new ++ x.c.stack) (hcalm : ∀ g, .plainWrite g ∉ new)
    (hnew : ∀ fr ∈ new, FrameOk (x.set c' f p) fr)
    (hconn : x.c.s.mState = .connecting → x.c.s.fd f.other ≠ none →
      c'.s.mState = .connected ∨ c'.s.mState = .connecting)
    (hfit : Fits (x.set c' f p) f p) (hstate : StateOk (x.set c' f p)) : Inv (x.set c' f p) where
  fault := hfault.trans h.fault
  mode := hmode
  pending := hpend.trans h.pending
  apart := apart_set hsock hfd (Or.inl hfo)
  fits := by
    refine (forall_family f).mpr ⟨by rwa [set_att], ?_⟩
    exact h.fits_other hun hst hu (by simp) hfo (fun fr hm => by simp [hk, hm]) hconn
  state := hstate
  frames fr hm := by
    rw [set_c, hk, List.mem_append] at hm
    rcases hm with hm | hm
    · exact hnew fr hm
    · exact (h.frames fr hm).started (fun g he => h.no_plainWrite hu g (he ▸ hm))
        (att_started hun (by simp))
  alone g hm := by
    rw [set_c, hk, List.mem_append] at hm
    rcases hm with hm | hm
    · exact absurd hm (hcalm g)
    · exact absurd hm (h.no_plainWrite hu g)

/-- Before an attempt is started no other one has won. -/
theorem Inv.no_winner {x : Sys} (h : Inv x) (hst : x.c.s.mState ≠ .connected)
    (hu : userTurn x.c = true) (g : Family) (sock : Option Fd) :
    x.att g ≠ .tried false sock .succeeded := by
  intro ha
  have hfit := h.fits g
  rw [ha] at hfit
  rcases hfit.2.2.2 with ⟨hc, -⟩ | ⟨-, hm⟩
  · exact hst hc
  · exact h.no_plainWrite hu g hm

section

variable {x : Sys} {f : Family} {sock : Option Fd}

/-- The connection was made at once: the event, the queued writes and the other
descriptor are still to come. -/
theorem inv_ok (h : Inv x) (hun : x.att f = .unstarted) (hst : x.c.s.mState ≠ .connected)
    (hu : userTurn x.c = true) (hsne : sock ≠ none) (hsock : sock ≠ none → sock ≠ x.c.s.fd f.other) :
    Inv (x.set (connect f .plain sock .ok x.c) f (started x.c.s f sock .ok)) := by
  have hfd : x.c.s.fd f = none := by have := h.fits f; rwa [hun] at this
  obtain ⟨c₁, hc₁, hf1, ho1, hs1, hm1, hp1, hfl1, hk1⟩ := connect_opens sock .ok hfd hst
  rw [hc₁, started_tried .ok hfd hst]
  simp only [internalConnect, hm1, reduceCtorEq, false_and, decide_false]
  refine h.start [.handler, .callProcessWrite f, .closeOther f] hun hst hu hsock hfl1 hm1 hp1
    (Or.inl (by simpa using hf1)) (by simpa using ho1) (by simp [hk1]) (by simp) ?_ (by simp) ?_
    ⟨f, sock, by simp⟩
  · simp [FrameOk]
  · refine ⟨hsne, by simpa using hf1, fun sock' => ?_, Or.inl ⟨rfl, Or.inr (by simp)⟩⟩
    simpa using h.no_winner hst hu f.other sock'

/-- The connection is under way: an idle socket waits for it from now on, and a
socket in error stays in error. -/
theorem inv_inProgress (h : Inv x) (hun : x.att f = .unstarted)
    (hst : x.c.s.mState ≠ .connected) (hu : userTurn x.c = true) (hsne : sock ≠ none)
    (hsock : sock ≠ none → sock ≠ x.c.s.fd f.other) :
    Inv (x.set (connect f .plain sock .inProgress x.c) f (started x.c.s f sock .inProgress)) := by
  have hfd : x.c.s.fd f = none := by have := h.fits f; rwa [hun] at this
  obtain ⟨c₁, hc₁, hf1, ho1, hs1, hm1, hp1, hfl1, hk1⟩ := connect_opens sock .inProgress hfd hst
  rw [hc₁, started_tried .inProgress hfd hst]
  have hstate := h.state
  unfold StateOk at hstate
  simp only [internalConnect, hs1]
  match hm : x.c.s.mState with
  | .idle =>
    simp only [State.toNat, reduceCtorEq, and_false, decide_false, Nat.reduceLT, if_true]
    exact h.start [.handler, .armConnect f] hun hst hu hsock hfl1 hm1 hp1
      (Or.inl (by simpa using hf1)) (by simpa using ho1) (by simp [hk1]) (by simp)
      (by simp [FrameOk]) (by simp) (Or.inr ⟨rfl, hsne, by simpa using hf1⟩)
      ⟨f, Or.inl ⟨sock, by simp⟩⟩
  | .connecting =>
    simp only [State.toNat, reduceCtorEq, and_false, decide_false, Nat.lt_irrefl, if_false]
    have hs1 : c₁.s.mState = .connecting := hs1.trans hm
    refine h.start [] hun hst hu hsock hfl1 hm1 hp1 (Or.inl hf1) ho1 hk1 (by simp)
      (by simp) (fun _ _ => Or.inr hs1) (Or.inr ⟨hs1, hsne, hf1⟩) ?_
    simp only [StateOk, set_c, loopCall_s, hs1]
    exact ⟨f, Or.inl ⟨sock, set_att ..⟩⟩
  | .error =>
    simp only [State.toNat, and_self, decide_true, Nat.reduceLT, if_false]
    have hs1 : c₁.s.mState = .error := hs1.trans hm
    rw [hm] at hstate
    obtain ⟨sock', hfail⟩ : ∃ sock', x.att f.other = .tried false sock' .failed := by
      obtain ⟨g, sock', hfail⟩ := hstate
      rcases eq_or_other f g with rfl | rfl
      · rw [hun] at hfail; cases hfail
      · exact ⟨sock', hfail⟩
    refine h.start [] hun hst hu hsock hfl1 hm1 hp1 (Or.inl hf1) ho1 hk1 (by simp)
      (by simp) (by simp [hm]) ⟨hs1, sock', by simpa using hfail⟩ ?_
    simp only [StateOk, set_c, loopCall_s, hs1]
    exact ⟨f.other, sock', by simpa using hfail⟩
  | .connected => exact absurd hm hst
  | .resolving | .resolved | .handshaking | .closed => simp [hm] at hstate

/-- The state stays right when the attempt fails at once and the other descriptor
is still there. -/
theorem stateOk_failed {c' : Cfg} (h : Inv x) (hun : x.att f = .unstarted)
    (hst : x.c.s.mState ≠ .connected) (hu : userTurn x.c = true) (ho : x.c.s.fd f.other ≠ none)
    (hs : c'.s.mState = x.c.s.mState) :
    StateOk (x.set c' f (.tried false sock .failed)) := by
  have hstate := h.state
  unfold StateOk at hstate ⊢
  rw [set_c, hs]
  match hm : x.c.s.mState with
  | .idle =>
    have hfit := h.fits f.other
    rw [hm] at hstate
    rw [hstate f.other, Fits] at hfit
    exact absurd hfit ho
  | .connecting =>
    rw [hm] at hstate
    obtain ⟨g, ⟨sock', ha⟩ | hm⟩ := hstate
    · rcases eq_or_other f g with rfl | rfl
      · rw [hun] at ha; cases ha
      · exact ⟨f.other, Or.inl ⟨sock', by simpa using ha⟩⟩
    · exact absurd hm (h.no_plainWrite hu g)
  | .error => exact ⟨f, sock, by simp⟩
  | .connected => exact absurd hm hst
  | .resolving | .resolved | .handshaking | .closed => simp [hm] at hstate

/-- The attempt failed at once: without the other descriptor the socket is in
error, and with it only the new descriptor is dropped. -/
theorem inv_failed (h : Inv x) (hun : x.att f = .unstarted) (hst : x.c.s.mState ≠ .connected)
    (hu : userTurn x.c = true) (hsock : sock ≠ none → sock ≠ x.c.s.fd f.other) :
    Inv (x.set (connect f .plain sock .failed x.c) f (started x.c.s f sock .failed)) := by
  have hfd : x.c.s.fd f = none := by have := h.fits f; rwa [hun] at this
  obtain ⟨c₁, hc₁, hf1, ho1, hs1, hm1, hp1, hfl1, hk1⟩ := connect_opens sock .failed hfd hst
  rw [hc₁, started_tried .failed hfd hst]
  simp only [internalConnect, ho1, reduceCtorEq, false_and, decide_false]
  cases ho : x.c.s.fd f.other with
  | none =>
    dsimp only
    exact h.start [.handler, .dropFailed f] hun hst hu hsock hfl1 hm1 hp1
      (Or.inl (by simpa using hf1)) (by simpa using ho1) (by simp [hk1]) (by simp)
      (by simp [FrameOk]) (by simp [ho]) (Or.inr (Or.inl (by simp))) ⟨f, sock, by simp⟩
  | some fd =>
    dsimp only
    have hs1 : (dropFd f c₁).s.mState = x.c.s.mState := by simpa using hs1
    exact h.start [] hun hst hu hsock (by simpa using hfl1) (by simpa using hm1)
      (by simpa using hp1) (Or.inr (by simp)) (by simpa using ho1) (by simpa using hk1)
      (by simp) (by simp) (fun hc _ => Or.inr (hs1.trans hc)) (Or.inl (by simp))
      (stateOk_failed h hun hst hu (by simp [ho]) hs1)

end

theorem inv_connect {x x' : Sys} {f : Family} {sock : Option Fd} {res : ConnectRes} (h : Inv x)
    (hs : step x (.connect f sock res) = some x') : Inv x' := by
  simp only [step] at hs
  split at hs
  case isFalse => cases hs
  rename_i hun
  obtain ⟨c', hc, rfl⟩ := Option.map_eq_some_iff.mp hs
  rcases (step_cases hc).2 with ⟨op, hl, hu, hcall⟩ | ⟨_, _, hl, -⟩ | ⟨_, _, _, hl, -⟩ | ⟨_, hl, -⟩ <;>
    cases hl
  simp only [callStep] at hcall
  split at hcall
  case isFalse => cases hcall
  rename_i hok
  cases hcall
  by_cases hst : x.c.s.mState = .connected
  · have hc' : connect f .plain sock res x.c = x.c := by
      unfold connect; rw [if_pos (Or.inr hst)]
    rw [hc', started_ignored hst]
    exact inv_ignored h hun hst
  cases res with
  | ok => exact inv_ok h hun hst hu (fun hn => by cases hok.1 hn) hok.2
  | inProgress => exact inv_inProgress h hun hst hu (fun hn => by cases hok.1 hn) hok.2
  | failed => exact inv_failed h hun hst hu hok.2

/-! ## A decision of the kernel -/

/-- A write event on an open descriptor starts the `FdWrite` part of its family. -/
theorem event_pushes {c : Cfg} {f : Family} {fd : Fd} (hmode : c.s.mMode = .plain)
    (hfd : c.s.fd f = some fd) (hapart : c.s.fd f.other ≠ some fd) :
    socketCallback fd ⟨false, false, true⟩ c = push [.plainWrite f] c := by
  unfold socketCallback processEvent
  cases f with
  | v4 =>
    have h4 : c.s.mFd4 = some fd := hfd
    simp [h4, hmode]
  | v6 =>
    have h4 : ¬ c.s.mFd4 = some fd := hapart
    have h6 : c.s.mFd6 = some fd := hfd
    simp [h4, h6, hmode]

/-- In the loop, an attempt that is pending and open belongs to a socket that
is connecting, or is late. -/
theorem Inv.pending_state {x : Sys} {f : Family} {sock : Option Fd} (h : Inv x)
    (hrest : x.c.stack = []) (ha : x.att f = .tried false sock .pending)
    (hopen : x.c.s.fd f ≠ none) :
    x.c.s.mState = .connecting ∧ sock ≠ none ∧ x.c.s.fd f = sock := by
  have hfit := h.fits f
  rw [ha] at hfit
  refine hfit.resolve_left fun hc => ?_
  have hstate := h.state
  rw [StateOk, hc] at hstate
  obtain ⟨g, sock', hg⟩ := hstate
  have hgf : f = g.other := by
    rcases eq_or_other g f with rfl | rfl
    · rw [ha] at hg; cases hg
    · rfl
  have hfit' := h.fits g
  rw [hg] at hfit'
  rcases hfit'.2.2.2 with ⟨-, hn | hm⟩ | ⟨-, hm⟩
  · exact hopen (hgf ▸ hn)
  · rw [hrest] at hm; cases hm
  · rw [hrest] at hm; cases hm

section

variable {x : Sys} {f : Family} {late : Bool} {sock : Option Fd}

/-- The attempt that the kernel has decided: its result is still to be read. -/
theorem fits_decided (ok : Bool) (h : Inv x) (hrest : x.c.stack = [])
    (ha : x.att f = .tried late sock .pending) (hopen : x.c.s.fd f ≠ none)
    (hst : x.c.s.mState ≠ .connected) :
    Fits (x.set (push [.plainWrite f] x.c) f (.tried late sock (decided ok))) f
      (.tried late sock (decided ok)) := by
  cases late with
  | true =>
    have hfit := h.fits f
    rw [ha] at hfit
    exact ⟨hfit.1, by simpa using hfit.2⟩
  | false =>
    obtain ⟨hc, hne, heq⟩ := h.pending_state hrest ha hopen
    cases ok with
    | true =>
      refine ⟨hne, heq, fun sock' => ?_, Or.inr ⟨hc, by simp⟩⟩
      simpa using h.no_winner hst (by rw [userTurn, hrest]) f.other sock'
    | false => exact Or.inr (Or.inr (by simp))

/-- The other attempt stays what it was. -/
theorem fits_beside (p : Attempt) (h : Inv x) (hrest : x.c.stack = [])
    (ha : x.att f = .tried late sock .pending) (hst : x.c.s.mState ≠ .connected) :
    Fits (x.set (push [.plainWrite f] x.c) f p) f.other (x.att f.other) := by
  have hfit := h.fits f.other
  generalize hq : x.att f.other = q at hfit
  match q, hfit with
  | .unstarted, hn => exact hn
  | .ignored, hn => exact hn
  | .tried true _ _, ⟨_, sock', hfail⟩ => rw [other_other, ha] at hfail; cases hfail
  | .tried false _ .pending, hp => exact hp
  | .tried false _ .failed, hp =>
    rcases hp with hn | hm | hm
    · exact Or.inl hn
    · rw [hrest] at hm; cases hm
    · rw [hrest] at hm; cases hm
  | .tried false sock' .succeeded, _ =>
    exact absurd hq (h.no_winner hst (by rw [userTurn, hrest]) f.other sock')

/-- The write event is to come for a socket that is connecting; one in error stays in error. -/
theorem stateOk_decided (p : Attempt) (h : Inv x) (ha : x.att f = .tried late sock .pending)
    (hst : x.c.s.mState ≠ .connected) : StateOk (x.set (push [.plainWrite f] x.c) f p) := by
  have hstate := h.state
  unfold StateOk at hstate ⊢
  rw [set_c, push_s]
  match hm : x.c.s.mState with
  | .idle => rw [hm] at hstate; rw [hstate f] at ha; cases ha
  | .connecting => exact ⟨f, Or.inr (by simp)⟩
  | .error =>
    rw [hm] at hstate
    obtain ⟨g, sock', hg⟩ := hstate
    rcases eq_or_other f g with rfl | rfl
    · rw [ha] at hg; cases hg
    · exact ⟨f.other, sock', by simpa using hg⟩
  | .connected => exact absurd hm hst
  | .resolving | .resolved | .handshaking | .closed => simp [hm] at hstate

end

theorem inv_report {x x' : Sys} {f : Family} {ok : Bool} (h : Inv x)
    (hs : step x (.report f ok) = some x') : Inv x' := by
  simp only [step] at hs
  split at hs
  case h_2 => cases hs
  rename_i late sock fd ha hfd
  obtain ⟨c', hc, rfl⟩ := Option.map_eq_some_iff.mp hs
  rcases (step_cases hc).2 with ⟨_, hl, -⟩ | ⟨_, _, hl, hrest, rfl⟩ | ⟨_, _, _, hl, -⟩ | ⟨_, hl, -⟩ <;>
    cases hl
  rw [event_pushes h.mode hfd (h.apart f fd hfd)]
  have hopen : x.c.s.fd f ≠ none := by simp [hfd]
  have hst : x.c.s.mState ≠ .connected := by
    cases late with
    | true =>
      have hfit := h.fits f
      rw [ha] at hfit
      rw [hfit.1]; simp
    | false => rw [(h.pending_state hrest ha hopen).1]; simp
  refine ⟨h.fault, h.mode, h.pending, h.apart, (forall_family f).mpr ⟨?_, ?_⟩,
    stateOk_decided _ h ha hst, ?_, ?_⟩
  · rw [set_att]
    exact fits_decided ok h hrest ha hopen hst
  · rw [set_att_other]
    exact fits_beside _ h hrest ha hst
  · intro fr hm
    rw [set_c, push_stack, hrest, List.append_nil, List.mem_singleton] at hm
    subst hm
    refine ⟨late, sock, decided ok, by simp, by cases ok <;> simp [decided], hopen, fun hl => ?_⟩
    subst hl
    exact (h.pending_state hrest ha hopen).1
  · intro g hm
    rw [set_c, push_stack, hrest, List.append_nil, List.mem_singleton] at hm
    rw [set_c, push_stack, hrest, hm]; rfl

/-! ## The blocks -/

/-- Frames that say nothing about the attempts. -/
def Calm : Frame → Prop
  | .handler | .callProcessWrite _ | .armConnect _ => True
  | .processWrite _ it => it = 0
  | _ => False

/-- A step that leaves `mState` alone. -/
theorem Inv.state_same {x : Sys} {c' : Cfg} (h : Inv x) (hno : ∀ g, .plainWrite g ∉ x.c.stack)
    (hst : c'.s.mState = x.c.s.mState) : StateOk ⟨c', x.att⟩ := by
  have hstate := h.state
  unfold StateOk at hstate ⊢
  dsimp only
  rw [hst]
  match hm : x.c.s.mState with
  | .idle => rw [hm] at hstate; exact hstate
  | .connecting =>
    rw [hm] at hstate
    obtain ⟨g, ha | hm⟩ := hstate
    · exact ⟨g, Or.inl ha⟩
    · exact absurd hm (hno g)
  | .connected => rw [hm] at hstate; exact hstate
  | .error => rw [hm] at hstate; exact hstate
  | .resolving | .resolved | .handshaking | .closed => simp [hm] at hstate

/-- A frame that stays, or a calm one. -/
theorem Inv.frame_same {x : Sys} {c' : Cfg} (h : Inv x) (hno : ∀ g, .plainWrite g ∉ x.c.stack)
    {fr : Frame} (hfr : fr ∈ x.c.stack ∨ Calm fr) : FrameOk ⟨c', x.att⟩ fr := by
  rcases hfr with hm | hc
  · exact (h.frames fr hm).started (fun g he => hno g (he ▸ hm)) fun _ _ => rfl
  · match fr, hc with
    | .handler, _ => exact trivial
    | .callProcessWrite _, _ => exact trivial
    | .armConnect _, _ => exact trivial
    | .processWrite _ _, hit => exact hit

/-- No event is being handled under another frame. -/
theorem Inv.no_event {x : Sys} {fr : Frame} {k : List Frame} (h : Inv x)
    (hk : x.c.stack = fr :: k) (hfr : ∀ g, fr ≠ .plainWrite g) (g : Family) :
    .plainWrite g ∉ x.c.stack := by
  intro hm
  have := h.alone g hm
  rw [hk] at this
  exact hfr g (List.cons.inj this).1

/-- A calm frame on top is replaced by calm frames. -/
theorem Inv.restack {x : Sys} {c' : Cfg} {fr : Frame} {k : List Frame} (h : Inv x)
    (new : List Frame) (hk : x.c.stack = fr :: k) (hfr : Calm fr) (hk' : c'.stack = new ++ k)
    (hnew : ∀ fr ∈ new, Calm fr) (hfault : c'.fault = x.c.fault)
    (hmode : c'.s.mMode = x.c.s.mMode) (hpend : c'.s.mPendingWrites = x.c.s.mPendingWrites)
    (hst : c'.s.mState = x.c.s.mState) (hfd : ∀ g, c'.s.fd g = x.c.s.fd g) : Inv ⟨c', x.att⟩ := by
  have hno := h.no_event hk (fun g he => by subst he; exact hfr)
  have hin : ∀ fr' ∈ x.c.stack, ¬ Calm fr' → fr' ∈ c'.stack := fun fr' hm hc => by
    rw [hk, List.mem_cons] at hm
    rw [hk', List.mem_append]
    exact Or.inr (hm.resolve_left fun he => hc (he ▸ hfr))
  have hold : ∀ fr' ∈ c'.stack, fr' ∈ x.c.stack ∨ Calm fr' := fun fr' hm => by
    rw [hk', List.mem_append] at hm
    rw [hk, List.mem_cons]
    exact hm.elim (fun hm => Or.inr (hnew fr' hm)) (fun hm => Or.inl (Or.inr hm))
  refine ⟨hfault.trans h.fault, hmode.trans h.mode, hpend.trans h.pending, ?_, fun f => ?_,
    h.state_same hno hst, fun fr hm => h.frame_same hno (hold fr hm),
    fun g hm => absurd ((hold _ hm).resolve_right id) (hno g)⟩
  · intro f fd h1 h2
    exact h.apart f fd ((hfd f).symm.trans h1) ((hfd f.other).symm.trans h2)
  · have hfit := h.fits f
    dsimp only
    generalize x.att f = p at hfit
    match p, hfit with
    | .unstarted, hn => exact (hfd f).trans hn
    | .ignored, hn => exact (hfd f).trans hn
    | .tried true _ _, ⟨herr, hfail⟩ => exact ⟨hst.trans herr, hfail⟩
    | .tried false _ .pending, hp =>
      rcases hp with hc | ⟨hc, hne, heq⟩
      · exact Or.inl (hst.trans hc)
      · exact Or.inr ⟨hst.trans hc, hne, (hfd f).trans heq⟩
    | .tried false _ .failed, hp =>
      rcases hp with hn | hm | hm
      · exact Or.inl ((hfd f).trans hn)
      · exact Or.inr (Or.inl (hin _ hm id))
      · exact absurd hm (hno f)
    | .tried false _ .succeeded, ⟨hne, heq, huniq, hp⟩ =>
      refine ⟨hne, (hfd f).trans heq, huniq, Or.inl ?_⟩
      rcases hp with ⟨hc, hn | hm⟩ | ⟨-, hm⟩
      · exact ⟨hst.trans hc, Or.inl ((hfd f.other).trans hn)⟩
      · exact ⟨hst.trans hc, Or.inr (hin _ hm id)⟩
      · exact absurd hm (hno f)

/-- `handle.remove(); fd = -1;` after a failure. -/
theorem Inv.dropFailed {x : Sys} {f : Family} {k : List Frame} (h : Inv x)
    (hk : x.c.stack = .dropFailed f :: k) : Inv ⟨dropFd f { x.c with stack := k }, x.att⟩ := by
  have hno := h.no_event hk (by simp)
  obtain ⟨sock, ha⟩ : ∃ sock, x.att f = .tried false sock .failed :=
    h.frames (.dropFailed f) (by simp [hk])
  have hsub : ∀ fr ∈ k, fr ∈ x.c.stack := fun fr hm => by rw [hk]; exact List.mem_cons_of_mem _ hm
  have hin : ∀ fr ∈ x.c.stack, fr ≠ .dropFailed f → fr ∈ k := fun fr hm hne => by
    rw [hk] at hm; exact (List.mem_cons.mp hm).resolve_left hne
  refine ⟨by simpa using h.fault, by simpa using h.mode, by simpa using h.pending,
    apart_set (x := x) (f := f) (v := none) (by simp) (Or.inl (by simp)) (Or.inl (by simp)),
    (forall_family f).mpr ⟨?_, ?_⟩, h.state_same hno (by simp),
    fun fr hm => h.frame_same hno (Or.inl (hsub fr (by simpa using hm))),
    fun g hm => absurd (hsub _ (by simpa using hm)) (hno g)⟩
  · dsimp only
    rw [ha]
    exact Or.inl (by simp)
  · have hfit := h.fits f.other
    dsimp only
    have hfd : (dropFd f { x.c with stack := k }).s.fd f.other = x.c.s.fd f.other := by simp
    generalize x.att f.other = q at hfit
    match q, hfit with
    | .unstarted, hn => exact hfd.trans hn
    | .ignored, hn => exact hfd.trans hn
    | .tried true _ _, ⟨herr, hfail⟩ => exact ⟨by simpa using herr, hfail⟩
    | .tried false _ .pending, hp =>
      rcases hp with hc | ⟨hc, hne, heq⟩
      · exact Or.inl (by simpa using hc)
      · exact Or.inr ⟨by simpa using hc, hne, hfd.trans heq⟩
    | .tried false _ .failed, hp =>
      rcases hp with hn | hm | hm
      · exact Or.inl (hfd.trans hn)
      · exact Or.inr (Or.inl (by simpa using hin _ hm (by simp)))
      · exact absurd hm (hno _)
    | .tried false _ .succeeded, ⟨hne, heq, huniq, hp⟩ =>
      refine ⟨hne, hfd.trans heq, huniq, Or.inl ⟨?_, Or.inl (by simp)⟩⟩
      rcases hp with ⟨hc, -⟩ | ⟨-, hm⟩
      · simpa using hc
      · exact absurd hm (hno _)

/-- The end of the success branch of `internalConnect`. -/
theorem Inv.closeOther {x : Sys} {f : Family} {k : List Frame} (h : Inv x)
    (hk : x.c.stack = .closeOther f :: k) :
    Inv ⟨dropOpen f.other { x.c with stack := k }, x.att⟩ := by
  have hno := h.no_event hk (by simp)
  obtain ⟨sock, ha⟩ : ∃ sock, x.att f = .tried false sock .succeeded :=
    h.frames (.closeOther f) (by simp [hk])
  have hsub : ∀ fr ∈ k, fr ∈ x.c.stack := fun fr hm => by rw [hk]; exact List.mem_cons_of_mem _ hm
  have hfd : (dropOpen f.other { x.c with stack := k }).s.fd f = x.c.s.fd f := by
    simpa using dropOpen_other { x.c with stack := k } f.other
  obtain ⟨hne, heq, huniq, hp⟩ : Fits x f (.tried false sock .succeeded) := ha ▸ h.fits f
  have hc : x.c.s.mState = .connected := by
    rcases hp with ⟨hc, -⟩ | ⟨-, hm⟩
    · exact hc
    · exact absurd hm (hno _)
  refine ⟨by simpa using h.fault, by simpa using h.mode, by simpa using h.pending,
    apart_set (x := x) (f := f) (v := x.c.s.fd f) (fun hn => ?_) (Or.inl hfd) (Or.inr (by simp)),
    (forall_family f).mpr ⟨?_, ?_⟩, h.state_same hno (by simp),
    fun fr hm => h.frame_same hno (Or.inl (hsub fr (by simpa using hm))),
    fun g hm => absurd (hsub _ (by simpa using hm)) (hno g)⟩
  · obtain ⟨fd, hfd⟩ := Option.ne_none_iff_exists'.mp hn
    rw [hfd]; exact fun he => h.apart f fd hfd he.symm
  · dsimp only
    rw [ha]
    exact ⟨hne, hfd.trans heq, huniq, Or.inl ⟨by simpa using hc, Or.inl (by simp)⟩⟩
  · have hfit := h.fits f.other
    dsimp only
    generalize hq : x.att f.other = q at hfit
    match q, hfit with
    | .unstarted, _ => exact dropOpen_fd ..
    | .ignored, _ => exact dropOpen_fd ..
    | .tried true _ _, ⟨herr, _⟩ => rw [hc] at herr; cases herr
    | .tried false _ .pending, _ => exact Or.inl (by simpa using hc)
    | .tried false _ .failed, _ => exact Or.inl (by simp)
    | .tried false sock' .succeeded, _ => exact absurd hq (huniq sock')

/-- While the write event of one family is handled, the other attempt is
untouched: closed, or pending on its own descriptor. -/
theorem Inv.other_quiet {x : Sys} {f : Family} (h : Inv x) (hk : x.c.stack = [.plainWrite f]) :
    (x.c.s.fd f.other = none ∧ (x.att f.other = .unstarted ∨ x.att f.other = .ignored ∨
      ∃ sock, x.att f.other = .tried false sock .failed)) ∨
    (∃ sock, x.att f.other = .tried false sock .pending ∧ x.c.s.fd f.other = sock ∧ sock ≠ none ∧
      x.c.s.mState = .connecting) := by
  obtain ⟨late, sock, o, ha, ho, hopen, hlate⟩ : FrameOk x (.plainWrite f) :=
    h.frames _ (by simp [hk])
  have hfitf : Fits x f (.tried late sock o) := ha ▸ h.fits f
  have hst : x.c.s.mState = .connecting ∨ x.c.s.mState = .error := by
    cases late with
    | true => exact Or.inr hfitf.1
    | false => exact Or.inl (hlate rfl)
  have hnc : x.c.s.mState ≠ .connected := by rcases hst with h1 | h1 <;> simp [h1]
  have hfit := h.fits f.other
  generalize x.att f.other = q at hfit
  match q, hfit with
  | .unstarted, hn => exact Or.inl ⟨hn, Or.inl rfl⟩
  | .ignored, hn => exact Or.inl ⟨hn, Or.inr (Or.inl rfl)⟩
  | .tried true _ _, ⟨herr, sock', hfail⟩ =>
    rw [other_other, ha] at hfail
    cases hfail
    rw [hlate rfl] at herr
    cases herr
  | .tried false sock' .pending, hp =>
    obtain ⟨hc, hne, heq⟩ := hp.resolve_left hnc
    exact Or.inr ⟨sock', rfl, heq, hne, hc⟩
  | .tried false sock' .failed, hp =>
    rcases hp with hn | hm | hm
    · exact Or.inl ⟨hn, Or.inr (Or.inr ⟨sock', rfl⟩)⟩
    · simp [hk] at hm
    · simp [hk] at hm
  | .tried false _ .succeeded, ⟨_, _, _, hp⟩ =>
    rcases hp with ⟨hc, -⟩ | ⟨-, hm⟩
    · exact absurd hc hnc
    · simp [hk] at hm

/-- `SO_ERROR` reports a failure and there is no other descriptor: the socket is in
error, and the descriptor is still to be dropped. -/
theorem Inv.check_alone {x : Sys} {f : Family} {sock : Option Fd} {l : LoopCall} (h : Inv x)
    (hk : x.c.stack = [.plainWrite f]) (ha : x.att f = .tried false sock .failed)
    (hother : x.c.s.fd f.other = none) :
    Inv ⟨emit .error (setState .error (push [.dropFailed f]
      (loopCall l { x.c with stack := [] }))), x.att⟩ := by
  obtain ⟨hno, hq⟩ := (h.other_quiet hk).resolve_right
    fun ⟨_, _, heq, hne, _⟩ => hne (heq.symm.trans hother)
  refine ⟨h.fault, h.mode, h.pending, h.apart, (forall_family f).mpr ⟨?_, ?_⟩, ⟨f, sock, ha⟩,
    by simp [FrameOk, ha], by simp⟩
  · dsimp only
    rw [ha]
    exact Or.inr (Or.inl (by simp))
  · dsimp only
    rcases hq with hq | hq | ⟨sock', hq⟩ <;> rw [hq]
    · exact hno
    · exact hno
    · exact Or.inl hno

/-- `SO_ERROR` reports a failure and the other attempt is pending: only this
descriptor is dropped. -/
theorem Inv.check_beside {x : Sys} {f : Family} {sock : Option Fd} {l : LoopCall} (h : Inv x)
    (hk : x.c.stack = [.plainWrite f]) (ha : x.att f = .tried false sock .failed)
    (hst : x.c.s.mState = .connecting) (hother : x.c.s.fd f.other ≠ none) :
    Inv ⟨dropFd f (loopCall l { x.c with stack := [] }), x.att⟩ := by
  obtain ⟨sock', hq, heq, hne, -⟩ := (h.other_quiet hk).resolve_left fun ⟨hno, _⟩ => hother hno
  refine ⟨by simpa using h.fault, by simpa using h.mode, by simpa using h.pending,
    apart_set (x := x) (f := f) (v := none) (by simp) (Or.inl (by simp)) (Or.inl (by simp)),
    (forall_family f).mpr ⟨?_, ?_⟩, ?_, by simp, by simp⟩
  · dsimp only
    rw [ha]
    exact Or.inl (by simp)
  · dsimp only
    rw [hq]
    exact Or.inr ⟨by simpa using hst, hne, by simpa using heq⟩
  · simp only [StateOk, dropFd_mState, loopCall_s, hst]
    exact ⟨f.other, Or.inl ⟨sock', hq⟩⟩

/-- `SO_ERROR` reports no failure: the attempt has won and the other descriptor
is closed. -/
theorem Inv.check_wins {x : Sys} {f : Family} {sock : Option Fd} {l : LoopCall} (h : Inv x)
    (hk : x.c.stack = [.plainWrite f]) (ha : x.att f = .tried false sock .succeeded) :
    Inv ⟨emit .connected (setState .connected (push [.callProcessWrite f] (dropOpen f.other
      (loopCall l { x.c with stack := [] })))), x.att⟩ := by
  obtain ⟨hne, heq, huniq, -⟩ : Fits x f (.tried false sock .succeeded) := ha ▸ h.fits f
  have hfd : (dropOpen f.other (loopCall l { x.c with stack := [] })).s.fd f = sock := by
    have := dropOpen_other (loopCall l { x.c with stack := [] }) f.other
    rw [other_other] at this
    exact this.trans heq
  refine ⟨by simpa using h.fault, by simpa using h.mode, by simpa using h.pending,
    apart_set (x := x) (f := f) (v := sock) (fun hn => ?_) (Or.inl (by simpa using hfd))
      (Or.inr (by simp)),
    (forall_family f).mpr ⟨?_, ?_⟩, ⟨f, sock, ha⟩, by simp [FrameOk], by simp⟩
  · obtain ⟨fd', hfd'⟩ := Option.ne_none_iff_exists'.mp hn
    rw [hfd']
    exact fun he => h.apart f fd' (heq.trans hfd') he.symm
  · dsimp only
    rw [ha]
    exact ⟨hne, by simpa using hfd, huniq, Or.inl ⟨rfl, Or.inl (by simp)⟩⟩
  · dsimp only
    rcases h.other_quiet hk with ⟨-, hq | hq | ⟨sock', hq⟩⟩ | ⟨sock', hq, -⟩ <;> rw [hq]
    · exact dropOpen_fd ..
    · exact dropOpen_fd ..
    · exact Or.inl (dropOpen_fd ..)
    · exact Or.inl rfl

/-- The check of `SO_ERROR` on the write event of a pending attempt. -/
theorem Inv.checked {x : Sys} {f : Family} {sock : Option Fd} {o : Outcome} {c' : Cfg} {a : Ans}
    {l : LoopCall} (h : Inv x) (hk : x.c.stack = [.plainWrite f])
    (ha : x.att f = .tried false sock o) (ho : o ≠ .pending) (hans : Answers x a)
    (hs : checkConnect f .connected [.callProcessWrite f] (loopCall l { x.c with stack := [] }) a =
      some c') : Inv ⟨c', x.att⟩ := by
  obtain ⟨late, _, _, ha', -, hopen, hlate⟩ : FrameOk x (.plainWrite f) :=
    h.frames _ (by simp [hk])
  rw [ha] at ha'
  cases ha'
  have hfailed : ∀ failed, a = .soError failed → (failed = true ↔ o = .failed) := by
    rintro failed rfl
    simp only [Answers, hk, ha] at hans
    cases o <;> simpa [Attempt.Failed] using hans
  obtain ⟨failed, rfl, ⟨hbad, hother, rfl⟩ | ⟨hbad, hother, rfl⟩ | ⟨hgood, -, rfl⟩⟩ :=
    checkConnect_cases hs
  · have ho : o = .failed := (hfailed _ rfl).mp (hbad.resolve_right (by simpa using hopen))
    subst ho
    exact h.check_alone hk ha hother
  · have ho : o = .failed := (hfailed _ rfl).mp (hbad.resolve_right (by simpa using hopen))
    subst ho
    exact h.check_beside hk ha (hlate rfl) hother
  · have hgo : failed ≠ true := by rw [hgood]; decide
    have ho : o = .succeeded := by
      cases o with
      | pending => exact absurd rfl ho
      | failed => exact absurd ((hfailed _ rfl).mpr rfl) hgo
      | succeeded => rfl
    subst ho
    exact h.check_wins hk ha

/-- The write event of a late attempt: the socket goes on to write, in state `Error`. -/
theorem Inv.unchecked {x : Sys} {f : Family} {l : LoopCall} (h : Inv x)
    (hk : x.c.stack = [.plainWrite f]) (hst : x.c.s.mState ≠ .connecting) :
    Inv ⟨push [.callProcessWrite f] (loopCall l { x.c with stack := [] }), x.att⟩ := by
  obtain ⟨late, sock, o, ha, -, -, hlate⟩ : FrameOk x (.plainWrite f) :=
    h.frames _ (by simp [hk])
  have hl : late = true := by
    cases late with
    | true => rfl
    | false => exact absurd (hlate rfl) hst
  subst hl
  obtain ⟨herr, hfail⟩ : Fits x f (.tried true sock o) := ha ▸ h.fits f
  refine ⟨h.fault, h.mode, h.pending, h.apart, (forall_family f).mpr ⟨?_, ?_⟩, ?_,
    by simp [FrameOk], by simp⟩
  · dsimp only
    rw [ha]
    exact ⟨herr, hfail⟩
  · dsimp only
    rcases h.other_quiet hk with ⟨hno, hq | hq | ⟨sock', hq⟩⟩ | ⟨_, _, _, _, hc⟩
    · rw [hq]; exact hno
    · rw [hq]; exact hno
    · rw [hq]; exact Or.inl hno
    · exact absurd hc hst
  · obtain ⟨sock', hfail⟩ := hfail
    simp only [StateOk, push_s, loopCall_s, herr]
    exact ⟨f.other, sock', hfail⟩

theorem inv_run {x x' : Sys} {a : Ans} (h : Inv x) (hs : step x (.run a) = some x') : Inv x' := by
  simp only [step] at hs
  split at hs
  case isFalse => cases hs
  rename_i hans
  obtain ⟨c', hc, rfl⟩ := Option.map_eq_some_iff.mp hs
  rcases (step_cases hc).2 with ⟨_, hl, -⟩ | ⟨_, _, hl, -⟩ | ⟨_, fr, k, hl, hk, hex⟩ | ⟨_, hl, -⟩ <;>
    cases hl
  have hfr := h.frames fr (by simp [hk])
  unfold exec at hex
  match fr, hfr with
  | .handler, _ => cases hex
  | .callProcessWrite f, _ =>
    obtain ⟨rfl, -⟩ := pureBlock_some hex
    exact h.restack [.processWrite _ 0] hk trivial rfl (by simp [Calm]) rfl rfl rfl rfl
      fun _ => rfl
  | .armConnect f, _ =>
    obtain ⟨rfl, -⟩ := pureBlock_some hex
    exact h.restack [] hk trivial rfl (by simp) rfl rfl rfl rfl fun _ => rfl
  | .processWrite fd it, hit =>
    have hit : it = 0 := hit
    subst hit
    simp only [processWriteBlock, h.pending, List.getElem?_nil] at hex
    split at hex
    · cases hex
      exact h.restack [] hk rfl rfl (by simp) rfl rfl h.pending.symm rfl fun _ => rfl
    · cases hex
  | .dropFailed f, _ => obtain ⟨rfl, -⟩ := pureBlock_some hex; exact h.dropFailed hk
  | .closeOther f, _ => obtain ⟨rfl, -⟩ := pureBlock_some hex; exact h.closeOther hk
  | .plainWrite f, ⟨late, sock, o, ha, ho, hopen, hlate⟩ =>
    have hk' := h.alone f (by simp [hk])
    have hknil : k = [] := by rw [hk] at hk'; exact (List.cons.inj hk').2
    subst hknil
    dsimp only at hex
    split at hex
    · rename_i hst
      have hl : late = false := by
        cases late with
        | false => rfl
        | true =>
          obtain ⟨herr, -⟩ : Fits x f (.tried true sock o) := ha ▸ h.fits f
          exact absurd (hst.symm.trans herr) (by simp)
      subst hl
      exact h.checked hk' ha ho hans hex
    · rename_i hst
      obtain ⟨rfl, -⟩ := pureBlock_some hex
      exact h.unchecked hk' hst

theorem inv_ret {x x' : Sys} (h : Inv x) (hs : step x .ret = some x') : Inv x' := by
  simp only [step] at hs
  obtain ⟨c', hc, rfl⟩ := Option.map_eq_some_iff.mp hs
  rcases (step_cases hc).2 with ⟨_, hl, -⟩ | ⟨_, _, hl, -⟩ | ⟨_, _, _, hl, -⟩ | ⟨k, -, hk, rfl⟩
  · cases hl
  · cases hl
  · cases hl
  · exact h.restack [] hk trivial rfl (by simp) rfl rfl rfl rfl fun _ => rfl

theorem inv_step {x x' : Sys} {l : Label} (h : Inv x) (hs : step x l = some x') : Inv x' := by
  cases l with
  | connect f sock res => exact inv_connect h hs
  | report f ok => exact inv_report h hs
  | run a => exact inv_run h hs
  | ret => exact inv_ret h hs

theorem inv_inductive : race.Inductive Inv where
  init x hx := by rw [hx]; exact inv_init
  step _ _ _ h hs := inv_step h hs

/-! ## The blocks come to an end -/

/-- The labels between two returns to the loop, user code apart. -/
def Internal : Label → Prop
  | .run _ | .ret => True
  | _ => False

/-- An upper bound on the number of blocks a frame stands for. -/
def weight : Frame → Nat
  | .callProcessWrite _ => 2
  | .plainWrite _ => 5
  | _ => 1

def work : List Frame → Nat
  | [] => 0
  | fr :: k => weight fr + work k

@[simp] theorem work_cons (fr : Frame) (k : List Frame) : work (fr :: k) = weight fr + work k := rfl

theorem work_check {f : Family} {c c' : Cfg} {a : Ans}
    (hs : checkConnect f .connected [.callProcessWrite f] c a = some c') :
    work c'.stack ≤ 3 + work c.stack := by
  obtain ⟨failed, -, ⟨-, -, rfl⟩ | ⟨-, -, rfl⟩ | ⟨-, -, rfl⟩⟩ := checkConnect_cases hs
  · simp only [emit_stack, setState_stack, push_stack, List.cons_append, List.nil_append, work_cons, weight]
    omega
  · simp
  · simp only [emit_stack, setState_stack, push_stack, dropOpen_stack, List.cons_append,
      List.nil_append, work_cons, weight]
    omega

/-- Each block, and each return of a handler, uses up some of the work. -/
theorem work_step {x x' : Sys} {l : Label} (h : Inv x) (hl : Internal l)
    (hs : step x l = some x') : work x'.c.stack < work x.c.stack := by
  have hpos : ∀ fr : Frame, 0 < weight fr := fun fr => by unfold weight; split <;> decide
  cases l with
  | connect f sock res => exact hl.elim
  | report f ok => exact hl.elim
  | ret =>
    obtain ⟨c', hc, rfl⟩ := Option.map_eq_some_iff.mp hs
    rcases (step_cases hc).2 with ⟨_, he, -⟩ | ⟨_, _, he, -⟩ | ⟨_, _, _, he, -⟩ | ⟨k, -, hk, rfl⟩
    · cases he
    · cases he
    · cases he
    · have := hpos .handler
      simp only [hk, work_cons]
      omega
  | run a =>
    simp only [step] at hs
    split at hs
    case isFalse => cases hs
    obtain ⟨c', hc, rfl⟩ := Option.map_eq_some_iff.mp hs
    rcases (step_cases hc).2 with ⟨_, he, -⟩ | ⟨_, _, he, -⟩ | ⟨_, fr, k, he, hk, hex⟩ | ⟨_, he, -⟩ <;>
      cases he
    have hfr := h.frames fr (by simp [hk])
    rw [hk, work_cons]
    unfold exec at hex
    match fr, hfr with
    | .handler, _ => cases hex
    | .callProcessWrite f, _ => obtain ⟨rfl, -⟩ := pureBlock_some hex; simp [weight]
    | .armConnect f, _ => obtain ⟨rfl, -⟩ := pureBlock_some hex; simp [weight]
    | .processWrite fd it, hit =>
      have hit : it = 0 := hit
      subst hit
      simp only [processWriteBlock, h.pending, List.getElem?_nil] at hex
      split at hex
      · cases hex; simp [weight]
      · cases hex
    | .dropFailed f, _ => obtain ⟨rfl, -⟩ := pureBlock_some hex; simp [weight]
    | .closeOther f, _ => obtain ⟨rfl, -⟩ := pureBlock_some hex; simp [weight]
    | .plainWrite f, _ =>
      dsimp only at hex
      split at hex
      · have := work_check hex
        simp only [loopCall_stack] at this
        simp only [weight]
        omega
      · obtain ⟨rfl, -⟩ := pureBlock_some hex
        simp [weight]

theorem run_stack {c : Cfg} {fr : Frame} {k : List Frame} {a : Ans} (hf : c.fault = none)
    (hk : c.stack = fr :: k) : TcpSocket.step c (.run a) = exec fr { c with stack := k } a := by
  simp [TcpSocket.step, hf, hk]

/-- Outside the loop some block can run or some handler can return. -/
theorem runs_on {x : Sys} (h : Inv x) (hne : ¬ AtRest x) :
    ∃ l x', Internal l ∧ step x l = some x' := by
  obtain ⟨fr, k, hk⟩ := List.exists_cons_of_ne_nil hne
  have hpure : ∀ {c' : Cfg}, TcpSocket.step x.c (.run .unit) = some c' →
      ∃ l x', Internal l ∧ step x l = some x' := fun hc =>
    ⟨.run .unit, _, trivial, by simp only [step, hc, Answers, if_true]; rfl⟩
  have hfr := h.frames fr (by simp [hk])
  match fr, hfr with
  | .handler, _ =>
    exact ⟨.ret, ⟨{ x.c with stack := k }, x.att⟩, trivial,
      by simp [step, TcpSocket.step, h.fault, hk]⟩
  | .callProcessWrite f, _ => exact hpure (run_stack h.fault hk)
  | .armConnect f, _ => exact hpure (run_stack h.fault hk)
  | .dropFailed f, _ => exact hpure (run_stack h.fault hk)
  | .closeOther f, _ => exact hpure (run_stack h.fault hk)
  | .processWrite fd it, hit =>
    have hit : it = 0 := hit
    subst hit
    exact hpure ((run_stack h.fault hk).trans (by simp [exec, processWriteBlock, h.pending]; rfl))
  | .plainWrite f, _ =>
    by_cases hst : x.c.s.mState = .connecting
    · have hans : Answers x (.soError (decide (x.att f).Failed)) := by simp [Answers, hk]
      have hsome : (checkConnect f .connected [.callProcessWrite f]
          (loopCall (.updateFd (x.c.s.fd f) fdRead) { x.c with stack := k })
          (.soError (decide (x.att f).Failed))).isSome := by
        unfold checkConnect
        dsimp only
        split
        · split <;> rfl
        · rfl
      obtain ⟨c', hc'⟩ := Option.isSome_iff_exists.mp hsome
      refine ⟨.run (.soError (decide (x.att f).Failed)), ⟨c', x.att⟩, trivial, ?_⟩
      simp only [step, hans, if_true, run_stack h.fault hk, exec]
      rw [if_pos (by simpa using hst), hc']
      rfl
    · have hex : exec (.plainWrite f) { x.c with stack := k } .unit = some (push [.callProcessWrite f]
          (loopCall (.updateFd (x.c.s.fd f) fdRead) { x.c with stack := k })) := by
        simp only [exec]
        rw [if_neg (by simpa using hst)]
        rfl
      exact hpure ((run_stack h.fault hk).trans hex)

/-- A run of blocks is no longer than the work it starts with. -/
theorem work_run {x x' : Sys} {ls : List Label} (hrun : race.Run x ls x') :
    Inv x → (∀ l ∈ ls, Internal l) → ls.length + work x'.c.stack ≤ work x.c.stack := by
  induction hrun with
  | nil => intro _ _; simp
  | cons hs _ ih =>
    intro h hl
    have h1 := work_step h (hl _ List.mem_cons_self) hs
    have h2 := ih (inv_step h hs) fun l hm => hl l (List.mem_cons_of_mem _ hm)
    simp only [List.length_cons]
    omega

/-- The blocks lead back to the loop. -/
theorem comes_to_rest {x : Sys} (h : Inv x) :
    ∃ ls x', (∀ l ∈ ls, Internal l) ∧ race.Run x ls x' ∧ AtRest x' := by
  have hstep : ∀ x, Inv x → ¬ AtRest x → ∃ l x', Internal l ∧ race.step x l x' ∧ Inv x' ∧
      work x'.c.stack < work x.c.stack := by
    intro x h hrest
    obtain ⟨l, x', hl, hs⟩ := runs_on h hrest
    exact ⟨l, x', hl, hs, inv_step h hs, work_step h hl hs⟩
  obtain ⟨ls, x', hrun, -, hrest, -⟩ := LTS.drains hstep x h
  exact ⟨ls, x', hrun.labels, hrun.of_guard, hrest⟩

/-! ## The outcome -/

theorem Inv.settled {x : Sys} (h : Inv x) (hrest : AtRest x) (hlate : NoLateSuccess x) :
    Settled x where
  fault := h.fault
  success := by
    intro hx
    obtain ⟨f, late, sock, ha⟩ := hx
    cases late with
    | true => exact absurd ha (hlate f sock)
    | false =>
      obtain ⟨hne, heq, -, hp⟩ : Fits x f (.tried false sock .succeeded) := ha ▸ h.fits f
      obtain ⟨fd, rfl⟩ := Option.ne_none_iff_exists'.mp hne
      rw [hrest] at hp
      rcases hp with ⟨hc, hn | hm⟩ | ⟨-, hm⟩
      · exact ⟨hc, f, false, fd, ha, heq, hn⟩
      · cases hm
      · cases hm
  failure := by
    intro hx
    obtain ⟨⟨f, hf⟩, hall⟩ := hx
    have hstate := h.state
    unfold StateOk at hstate
    match hm : x.c.s.mState with
    | .idle => rw [hm] at hstate; exact absurd (hstate f) hf
    | .connecting =>
      rw [hm] at hstate
      obtain ⟨g, ⟨sock, ha⟩ | hm⟩ := hstate
      · have := hall g (by simp [ha]); rw [ha] at this; exact this.elim
      · rw [hrest] at hm; cases hm
    | .connected =>
      rw [hm] at hstate
      obtain ⟨g, sock, ha⟩ := hstate
      have := hall g (by simp [ha]); rw [ha] at this; exact this.elim
    | .error => rfl
    | .resolving | .resolved | .handshaking | .closed => simp [hm] at hstate

/-- A late success leaves the socket in `Error`. -/
theorem Inv.late_lost {x : Sys} (h : Inv x) (hs : Settled x) : NoLateSuccess x := by
  intro f sock ha
  obtain ⟨hc, -⟩ := hs.success ⟨f, true, sock, ha⟩
  obtain ⟨herr, -⟩ : Fits x f (.tried true sock .succeeded) := ha ▸ h.fits f
  rw [hc] at herr
  cases herr

/-- **Two-family connect.** From every state of every run the blocks lead back
to the loop, after at most `work` of them; and whenever the socket is back in
the loop, the outcome of the attempts is the intended one exactly when no late
attempt has succeeded. -/
theorem two_family_connect_iff {x : Sys} (hr : race.Reachable x) :
    (∃ ls x', (∀ l ∈ ls, Internal l) ∧ race.Run x ls x' ∧ AtRest x') ∧
    (∀ ls x', (∀ l ∈ ls, Internal l) → race.Run x ls x' → ls.length ≤ work x.c.stack) ∧
    (AtRest x → (Settled x ↔ NoLateSuccess x)) := by
  have h := inv_inductive.reachable x hr
  refine ⟨comes_to_rest h, fun ls x' hl hrun => ?_, fun hrest => ⟨h.late_lost, h.settled hrest⟩⟩
  have := work_run hrun h hl
  omega

/-! ## Two runs -/

theorem race_replay {ls : List Label} (h : (LTS.replay step Sys.init ls).isSome) :
    race.Reachable ((LTS.replay step Sys.init ls).get h) :=
  LTS.reachable_replay (· = Sys.init) rfl h

/-- IPv4 is pending, IPv6 fails at once, IPv4 succeeds. -/
def fallback : List Label :=
  [.connect .v4 (some 5) .inProgress, .ret, .run .unit, .connect .v6 (some 6) .failed,
   .report .v4 true, .run (.soError false), .ret, .run .unit, .run .unit]

theorem fallback_runs : (LTS.replay step Sys.init fallback).isSome := rfl

theorem two_family_connect_fallback :
    Settled ((LTS.replay step Sys.init fallback).get fallback_runs) :=
  ((two_family_connect_iff (race_replay fallback_runs)).2.2 rfl).mpr fun f sock => by
    cases f <;> nofun

/-- IPv4 fails at once, IPv6 is pending and then succeeds. -/
def lateSuccess : List Label :=
  [.connect .v4 (some 5) .failed, .ret, .run .unit, .connect .v6 (some 6) .inProgress,
   .report .v6 true, .run .unit, .run .unit, .run .unit]

theorem lateSuccess_runs : (LTS.replay step Sys.init lateSuccess).isSome := rfl

/-- The connected descriptor 6 stays with a socket in state `Error`. -/
theorem two_family_connect_late : ∃ x, race.Reachable x ∧ AtRest x ∧
    x.att .v4 = .tried false (some 5) .failed ∧ x.att .v6 = .tried true (some 6) .succeeded ∧
    x.c.s.mState = .error ∧ ¬ Settled x := by
  refine ⟨_, race_replay lateSuccess_runs, rfl, rfl, rfl, rfl, ?_⟩
  intro h
  obtain ⟨hc, -⟩ := h.success ⟨.v6, true, some 6, rfl⟩
  cases hc

end Reckoning.L4.TcpConnect
