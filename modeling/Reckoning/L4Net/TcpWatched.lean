import Reckoning.L2Event.Interest
import Reckoning.L4Net.TcpLoss

/-!
# What the loop watches for a socket

A socket registers each descriptor it opens for reading. It asks for writing as
well while it is connecting, and when the kernel takes no more of what it has to
write; the write event that answers takes the request back before it goes on
writing.

`requests` is what the calls of the socket have asked the loop for.

* `step_books`: what a step does to the descriptors and the calls, in Plain mode and
  in TLS.
* `registered_iff`: the descriptors that are registered are the open ones.
* `watching_iff`: in Plain mode a write that the kernel does not take at once is
  taken up again, except on a socket that was written to before it was given its
  descriptor: `setSocket` (lib/net/TcpSocket.cpp:411-426) asks for reading only,
  and writes nothing.
-/
namespace Reckoning.L4.TcpWatched
open Reckoning.L2
open Reckoning.L4.TcpSocket
open Reckoning.L4.TcpLoss (ofEvent work plainOnly)

/-! ## What has been asked for -/

/-- What a call leaves of the requests. The descriptor -1 is not one of the loop's. -/
def request (want : Fd → Option Flags) : LoopCall → Fd → Option Flags
  | .addFd (some fd) flags => Function.update want fd (some flags)
  | .updateFd (some fd) flags => Function.update want fd ((want fd).map fun _ => flags)
  | .removeFd fd => Function.update want fd none
  | .addFd none _ | .updateFd none _ => want

def requests (calls : List LoopCall) : Fd → Option Flags := calls.foldl request fun _ => none

theorem requests_append (calls : List LoopCall) (l : LoopCall) :
    requests (calls ++ [l]) = request (requests calls) l := by
  rw [requests, List.foldl_append]
  rfl

/-! ## What is registered -/

section
variable {c₀ c c' : Cfg} {f : Family} {a : Ans}

/-- The descriptors and the calls are the same. -/
structure Alike (c c' : Cfg) : Prop where
  fd : c'.s.fd = c.s.fd := by rfl
  handle : c'.s.handle = c.s.handle := by rfl
  calls : c'.out.calls = c.out.calls := by rfl

/-- The open descriptors are registered, for reading at least, and no others are. -/
structure Registered (c : Cfg) : Prop where
  handle : ∀ f, c.s.handle f = c.s.fd f
  apart : ∀ f fd, c.s.fd f = some fd → c.s.fd f.other ≠ some fd
  opened : ∀ f fd, c.s.fd f = some fd → ∃ w, requests c.out.calls fd = some ⟨false, true, w⟩
  closed : ∀ fd, (∀ f, c.s.fd f ≠ some fd) → requests c.out.calls fd = none

/-- What the code does to the descriptors and the requests, opening a new one apart. -/
inductive Moves (c₀ : Cfg) : Cfg → Prop
  | refl : Moves c₀ c₀
  | alike {c c' : Cfg} (h : Moves c₀ c) (ha : Alike c c') : Moves c₀ c'
  | update {c : Cfg} (h : Moves c₀ c) (fd : Option Fd) (w : Bool) :
      Moves c₀ (loopCall (.updateFd fd ⟨false, true, w⟩) c)
  | dropFd {c : Cfg} (h : Moves c₀ c) (f : Family) : Moves c₀ (dropFd f c)

theorem Registered.alike (h : Registered c) (ha : Alike c c') : Registered c' := by
  constructor <;> simp only [ha.fd, ha.handle, ha.calls]
  exacts [h.handle, h.apart, h.opened, h.closed]

theorem Registered.update (h : Registered c) (fd : Option Fd) (w : Bool) :
    Registered (loopCall (.updateFd fd ⟨false, true, w⟩) c) := by
  cases fd with
  | none =>
    refine ⟨h.handle, h.apart, fun g fd hg => ?_, fun fd hn => ?_⟩ <;>
      rw [loopCall, requests_append]
    exacts [h.opened g fd hg, h.closed fd hn]
  | some fd =>
    refine ⟨h.handle, h.apart, fun g fd' hg => ?_, fun fd' hn => ?_⟩ <;>
      rw [loopCall, requests_append] <;> by_cases he : fd' = fd
    · subst he
      obtain ⟨w', hw'⟩ := h.opened g fd' hg
      exact ⟨w, by simp [request, hw']⟩
    · rw [request, Function.update_of_ne he]
      exact h.opened g fd' hg
    · subst he
      simp [request, h.closed fd' hn]
    · rw [request, Function.update_of_ne he]
      exact h.closed fd' hn

theorem dropFd_none (hf : c.s.fd f = none) (hh : c.s.handle f = none) : dropFd f c = c := by
  have hself : c.s.setFd f (c.s.fd f) = c.s := by cases f <;> rfl
  rw [hf] at hself
  simp only [dropFd, removeHandle, hh, hself]

theorem dropFd_some {fd : Fd} (hh : c.s.handle f = some fd) :
    (dropFd f c).out.calls = c.out.calls ++ [.removeFd fd] ∧ (dropFd f c).s.handle f = none ∧
      (dropFd f c).s.handle f.other = c.s.handle f.other := by
  simp only [dropFd, removeHandle, hh]
  cases f <;> exact ⟨rfl, rfl, rfl⟩

theorem Registered.dropFd (h : Registered c) (f : Family) : Registered (dropFd f c) := by
  cases hfd : c.s.fd f with
  | none => rwa [dropFd_none hfd ((h.handle f).trans hfd)]
  | some fd =>
    obtain ⟨hcalls, hself, hother⟩ := dropFd_some ((h.handle f).trans hfd)
    have hrequests : ∀ fd', fd' ≠ fd →
        requests (TcpSocket.dropFd f c).out.calls fd' = requests c.out.calls fd' := by
      intro fd' hne
      rw [hcalls, requests_append, request, Function.update_of_ne hne]
    refine ⟨fun g => ?_, fun g fd' hg => ?_, fun g fd' hg => ?_, fun fd' hn => ?_⟩
    · rcases eq_or_other f g with rfl | rfl
      · rw [hself, dropFd_fd]
      · rw [hother, dropFd_other, h.handle]
    · rcases eq_or_other f g with rfl | rfl
      · simp at hg
      · simp
    · rcases eq_or_other f g with rfl | rfl
      · simp at hg
      · rw [dropFd_other] at hg
        rw [hrequests fd' fun he => h.apart f fd hfd (he ▸ hg)]
        exact h.opened _ fd' hg
    · by_cases he : fd' = fd
      · subst he
        simp [hcalls, requests_append, request]
      · rw [hrequests fd' he]
        refine h.closed fd' fun g => ?_
        rcases eq_or_other f g with rfl | rfl
        · rw [hfd]
          exact fun hs => he (Option.some.inj hs).symm
        · rw [← dropFd_other]
          exact hn _

theorem Moves.registered (h : Moves c₀ c) (hr : Registered c₀) : Registered c := by
  induction h with
  | refl => exact hr
  | alike _ ha ih => exact ih.alike ha
  | update _ fd w ih => exact ih.update fd w
  | dropFd _ f ih => exact ih.dropFd f

/-- A call that does not register a descriptor. -/
def Further : LoopCall → Prop
  | .addFd _ _ => False
  | .updateFd _ _ | .removeFd _ => True

theorem calls_dropFd (f : Family) (c : Cfg) :
    ∃ new, (TcpSocket.dropFd f c).out.calls = c.out.calls ++ new ∧ ∀ l ∈ new, Further l := by
  cases hh : c.s.handle f with
  | none => exact ⟨[], by simp [TcpSocket.dropFd, removeHandle, hh], by simp⟩
  | some fd => exact ⟨_, (dropFd_some hh).1, by simp [Further]⟩

theorem Moves.calls (h : Moves c₀ c) :
    ∃ new, c.out.calls = c₀.out.calls ++ new ∧ ∀ l ∈ new, Further l := by
  induction h with
  | refl => exact ⟨[], by simp, by simp⟩
  | alike _ ha ih =>
    obtain ⟨new, hnew, hall⟩ := ih
    exact ⟨new, ha.calls.trans hnew, hall⟩
  | update _ fd w ih =>
    obtain ⟨new, hnew, hall⟩ := ih
    refine ⟨new ++ [.updateFd fd ⟨false, true, w⟩], ?_, ?_⟩
    · rw [loopCall, hnew, List.append_assoc]
    · exact List.forall_mem_append.mpr ⟨hall, by simp [Further]⟩
  | @dropFd c₁ _ f ih =>
    obtain ⟨new, hnew, hall⟩ := ih
    obtain ⟨new', hnew', hall'⟩ := calls_dropFd f c₁
    refine ⟨new ++ new', ?_, List.forall_mem_append.mpr ⟨hall, hall'⟩⟩
    rw [hnew', hnew, List.append_assoc]

theorem Moves.dropOpen (h : Moves c₀ c) (f : Family) : Moves c₀ (dropOpen f c) := by
  unfold TcpSocket.dropOpen
  split
  · exact h
  · exact h.dropFd f

theorem Moves.close (h : Moves c₀ c) : Moves c₀ (close c) := by
  unfold TcpSocket.close
  refine Moves.dropOpen (Moves.dropOpen ?_ .v4) .v6
  split
  · exact h.alike {}
  · exact h

theorem Moves.closeWith (h : Moves c₀ c) (st : State) : Moves c₀ (closeWith st c) :=
  h.close.alike {}

/-! ### One step -/

/-- A new descriptor, its handle and the call for it. -/
structure Opens (c c₁ : Cfg) (f : Family) (sock : Option Fd) : Prop where
  before : c.s.fd f = none
  apart : sock ≠ none → sock ≠ c.s.fd f.other
  fd : c₁.s.fd f = sock
  other : c₁.s.fd f.other = c.s.fd f.other
  handle : c₁.s.handle f = sock
  otherHandle : c₁.s.handle f.other = c.s.handle f.other
  calls : c₁.out.calls = c.out.calls ++ [.addFd sock fdRead]

theorem Opens.registered {sock : Option Fd} (ho : Opens c c' f sock) (h : Registered c) :
    Registered c' := by
  have hhandle : ∀ g, c'.s.handle g = c'.s.fd g := fun g => by
    rcases eq_or_other f g with rfl | rfl
    · rw [ho.handle, ho.fd]
    · rw [ho.otherHandle, ho.other, h.handle]
  have hrequests : requests c'.out.calls = request (requests c.out.calls) (.addFd sock fdRead) := by
    rw [ho.calls, requests_append]
  cases sock with
  | none =>
    have hall : c'.s.fd = c.s.fd := funext fun g => by
      rcases eq_or_other f g with rfl | rfl
      · rw [ho.fd, ho.before]
      · exact ho.other
    refine ⟨hhandle, ?_, ?_, ?_⟩ <;> simp only [hall, hrequests, request]
    exacts [h.apart, h.opened, h.closed]
  | some fd =>
    have hne : c.s.fd f.other ≠ some fd := fun he => ho.apart (by simp) he.symm
    rw [request] at hrequests
    refine ⟨hhandle, fun g fd' hg => ?_, fun g fd' hg => ?_, fun fd' hn => ?_⟩
    · rcases eq_or_other f g with rfl | rfl
      · obtain rfl := Option.some.inj (ho.fd.symm.trans hg)
        rwa [ho.other]
      · rw [ho.other] at hg
        rw [other_other, ho.fd]
        exact fun he => hne (hg.trans he.symm)
    · rw [hrequests]
      by_cases he : fd' = fd
      · exact ⟨false, by rw [he, Function.update_self, fdRead]⟩
      · rw [Function.update_of_ne he]
        rcases eq_or_other f g with rfl | rfl
        · exact absurd (Option.some.inj (hg.symm.trans ho.fd)) he
        · exact h.opened _ fd' (ho.other.symm.trans hg)
    · have he : fd' ≠ fd := fun he => hn f (he ▸ ho.fd)
      rw [hrequests, Function.update_of_ne he]
      refine h.closed fd' fun g => ?_
      rcases eq_or_other f g with rfl | rfl
      · simp [ho.before]
      · rw [← ho.other]
        exact hn _

theorem opens_addFd {s : Sock} (sock : Option Fd) (hnone : c.s.fd f = none)
    (hsock : sock ≠ none → sock ≠ c.s.fd f.other) (hfd : s.fd = c.s.fd)
    (hhandle : s.handle = c.s.handle) : Opens c (loopCall (.addFd sock fdRead)
      { c with s := (s.setFd f sock).setHandle f sock }) f sock := by
  have hother : s.handle f.other = c.s.handle f.other := by rw [hhandle]
  refine ⟨hnone, hsock, by simp, by simp [hfd], ?_, ?_, rfl⟩
  · cases f <;> rfl
  · cases f <;> exact hother

theorem moves_internalConnect (h : Moves c₀ c) (res : ConnectRes) (f : Family) :
    Moves c₀ (internalConnect res f c) := by
  unfold internalConnect
  cases res with
  | ok =>
    simp only
    split <;> exact h.alike {}
  | inProgress =>
    simp only
    split
    · exact h.alike {}
    · exact h.update _ true
  | failed =>
    simp only
    split
    · exact h.alike {}
    · exact h.dropFd f

theorem connect_opens (mode : Mode) {sock : Option Fd} (res : ConnectRes)
    (hsock : sock ≠ none → sock ≠ c.s.fd f.other) : connect f mode sock res c = c ∨
      c.s.mState ≠ .connected ∧ ∃ c₁, Opens c c₁ f sock ∧ Moves c₁ (connect f mode sock res c) := by
  unfold connect
  split
  · exact .inl rfl
  rename_i hopen
  rw [not_or, not_not] at hopen
  refine .inr ⟨hopen.2, _, opens_addFd sock hopen.1 hsock ?_ ?_, moves_internalConnect .refl res f⟩
  · cases mode with
    | plain => rfl
    | tls => exact funext fun g => initTLS_fd g _
  · cases mode with
    | plain => rfl
    | tls =>
      simp only [initTLS]
      split <;> rfl

theorem setSocket_opens (fd : Fd) (f : Family) (c : Cfg) : setSocket fd f c = c ∨
    (∀ g, c.s.fd g = none) ∧ Opens c (setSocket fd f c) f (some fd) := by
  unfold setSocket
  split
  · exact .inl rfl
  rename_i hopen
  rw [not_or, not_not, not_not] at hopen
  have hnone : ∀ g, c.s.fd g = none := fun g => by cases g; exacts [hopen.2, hopen.1]
  have hopens := opens_addFd (s := { c.s with mState := .connected }) (some fd) (hnone f)
    (by simp [hnone]) rfl rfl
  exact .inr ⟨hnone, by cases f <;> exact hopens⟩

theorem moves_write (h : Moves c₀ c) (b : Bytes) : Moves c₀ (write b c) := by
  unfold write
  simp only
  split
  · exact h.alike {}
  · split <;> exact h.alike {}

theorem moves_event (h : Moves c₀ c) (fd : Fd) (flags : Flags) :
    Moves c₀ (socketCallback fd flags c) := by
  have hprocess : ∀ f, Moves c₀ (processEvent f flags c) := fun f => by
    unfold processEvent
    split
    · exact h.dropFd f
    · split <;> exact h.alike {}
  unfold socketCallback
  split
  · exact hprocess .v4
  · split
    · exact hprocess .v6
    · exact h

theorem moves_readBlock {again : List Frame} (h : Moves c₀ c)
    (hs : readBlock again c a = some c') : Moves c₀ c' := by
  have rearm : ∀ {c₁ : Cfg} (p : Prop) [Decidable p] (fd : Option Fd), Moves c₀ c₁ →
      Moves c₀ (if p then loopCall (.updateFd fd fdReadWrite) c₁ else c₁) := by
    intro c₁ p _ fd h₁
    split
    · exact h₁.update fd true
    · exact h₁
  unfold readBlock at hs
  split at hs
  · split at hs <;> cases hs
    exact h
  · split at hs <;> cases hs
    exact h.alike {}
  · simp only at hs
    split at hs
    · split at hs
      · split at hs <;> cases hs
        exact h.alike {}
      · cases hs
        exact h.closeWith .closed
      · split at hs
        · cases hs
        · split at hs <;> cases hs
          · exact h
          · exact h.closeWith .error
      · cases hs
    · split at hs
      · split at hs <;> cases hs
        exact (rearm _ _ h).alike {}
      · cases hs
        exact rearm _ _ (h.alike {})
      · cases hs
        exact rearm _ _ (h.alike {})
      · cases hs
        exact (rearm _ _ h).closeWith .closed
      · split at hs
        · cases hs
        · split at hs <;> cases hs
          · exact rearm _ _ h
          · exact (rearm _ _ h).closeWith .error
      · cases hs

theorem moves_processWriteBlock {fd : Option Fd} {it : Nat} (h : Moves c₀ c)
    (hs : processWriteBlock fd it c a = some c') : Moves c₀ c' := by
  unfold processWriteBlock at hs
  split at hs
  · split at hs <;> cases hs
    exact h.alike {}
  · split at hs
    · split at hs <;> cases hs
      exact h.alike {}
    · split at hs
      · cases hs
      · simp only at hs
        split at hs
        · split at hs <;> cases hs
          · exact Moves.update (h.alike {}) fd true
          · exact Moves.closeWith (h.alike {}) .error
        · split at hs <;> cases hs <;> exact h.alike {}

theorem moves_checkConnect {f : Family} {st : State} {k : List Frame} (h : Moves c₀ c)
    (hs : checkConnect f st k c a = some c') : Moves c₀ c' := by
  obtain ⟨_, -, ⟨-, -, rfl⟩ | ⟨-, -, rfl⟩ | ⟨-, -, rfl⟩⟩ := checkConnect_cases hs
  · exact h.alike {}
  · exact h.dropFd f
  · exact (h.dropOpen f.other).alike {}

theorem moves_connectTLS {fd : Option Fd} (h : Moves c₀ c)
    (hs : connectTLSBlock fd c a = some c') : Moves c₀ c' := by
  unfold connectTLSBlock at hs
  simp only at hs
  split at hs <;> cases hs
  · exact h.alike {}
  · exact Moves.update (h.alike {}) fd true
  all_goals exact h.alike {}

theorem moves_pureBlock {c₁ : Cfg} (h : Moves c₀ c₁) (hs : pureBlock c₁ a = some c') :
    Moves c₀ c' := by
  obtain ⟨rfl, -⟩ := pureBlock_some hs
  exact h

theorem moves_exec {fr : Frame} (h : Moves c₀ c) (hs : exec fr c a = some c') :
    Moves c₀ c' := by
  cases fr with
  | handler => cases hs
  | processWrite fd it => exact moves_processWriteBlock h hs
  | connectTLS fd => exact moves_connectTLS h hs
  | plainRead | tlsRetryRead => exact moves_readBlock h hs
  | tlsReadLoop =>
    simp only [exec] at hs
    split at hs
    · exact moves_readBlock h hs
    · exact moves_pureBlock h hs
  | plainWrite f =>
    simp only [exec] at hs
    split at hs
    · exact moves_checkConnect (h.update _ false) hs
    · exact moves_pureBlock ((h.update _ false).alike {}) hs
  | tlsWrite f =>
    simp only [exec, tlsWritePart] at hs
    split at hs
    · exact moves_checkConnect (h.update _ false) hs
    all_goals exact moves_pureBlock ((h.update _ false).alike {}) hs
  | dropFailed f => exact moves_pureBlock (h.dropFd f) hs
  | closeOther f => exact moves_pureBlock (h.dropOpen f.other) hs
  | armConnect f => exact moves_pureBlock (h.update _ true) hs
  | close => exact moves_pureBlock h.close hs
  | callProcessWrite f => exact moves_pureBlock (h.alike {}) hs
  | writeRange data =>
    refine moves_pureBlock ?_ hs
    split
    · exact h
    · exact moves_write (h.alike {}) _
  | tlsRead f =>
    refine moves_pureBlock ?_ hs
    unfold tlsReadPart
    split <;> exact h.alike {}
  | tlsAttach f | tlsRetryWrite f | tlsDoWrite f =>
    refine moves_pureBlock ?_ hs
    split <;> exact h.alike {}
  | tlsHandshaken f =>
    refine moves_pureBlock ?_ hs
    split
    · split <;> exact h.alike {}
    · exact h

/-- What a step does to the descriptors and the requests. -/
inductive Books (c : Cfg) : Label → Cfg → Prop
  | moves {l : Label} {c' : Cfg} (h : Moves c c') : Books c l c'
  | connect {f : Family} {mode : Mode} {sock : Option Fd} {res : ConnectRes} {c₁ c' : Cfg}
      (hst : c.s.mState ≠ .connected) (ho : Opens c c₁ f sock) (h : Moves c₁ c') :
      Books c (.call (.connect f mode sock res)) c'
  | setSocket {fd : Fd} {f : Family} {c' : Cfg} (hnone : ∀ g, c.s.fd g = none)
      (ho : Opens c c' f (some fd)) : Books c (.call (.setSocket fd f)) c'

theorem call_books {op : Call} (hs : callStep op c = some c') : Books c (.call op) c' := by
  cases op with
  | connect f mode sock res =>
    simp only [callStep] at hs
    split at hs
    · rename_i hk
      cases hs
      rcases connect_opens mode res hk.2 with heq | ⟨hst, c₁, ho, hm⟩
      · rw [heq]
        exact .moves .refl
      · exact .connect hst ho hm
    · cases hs
  | setSocket fd f =>
    cases hs
    rcases setSocket_opens fd f c with heq | ⟨hnone, ho⟩
    · rw [heq]
      exact .moves .refl
    · exact .setSocket hnone ho
  | write b => cases hs; exact .moves (moves_write (Moves.refl.alike {}) b)
  | writeRange data => cases hs; exact .moves (Moves.refl.alike {})
  | close => cases hs; exact .moves Moves.refl.close

theorem step_books {l : Label} (hs : step c l = some c') : Books c l c' := by
  obtain ⟨-, ⟨op, rfl, -, hop⟩ | ⟨fd, flags, rfl, -, rfl⟩ | ⟨a, fr, k, rfl, hk, he⟩ |
    ⟨k, rfl, hk, rfl⟩⟩ := step_cases hs
  · exact call_books hop
  · exact .moves (moves_event .refl fd flags)
  · exact .moves (moves_exec (Moves.refl.alike {}) he)
  · exact .moves (Moves.refl.alike {})

theorem Books.registered {l : Label} (h : Books c l c') (hr : Registered c) : Registered c' := by
  cases h with
  | moves h => exact h.registered hr
  | connect hst ho h => exact h.registered (ho.registered hr)
  | setSocket hnone ho => exact ho.registered hr

theorem registered_init : Registered Cfg.init where
  handle f := by cases f <;> rfl
  apart f := by cases f <;> simp [Cfg.init, Sock.init, Sock.fd]
  opened f := by cases f <;> simp [Cfg.init, Sock.init, Sock.fd]
  closed _ _ := rfl

theorem inductive_registered : (lts (· = Cfg.init)).Inductive Registered where
  init _ h := h ▸ registered_init
  step _ _ _ h hs := (step_books hs).registered h

/-- **What is registered is what is open.** In every state of a socket, in Plain
mode or TLS, the loop has been asked for the descriptors that are open, for
reading at least, and for no others. -/
theorem registered_iff (hr : (lts (· = Cfg.init)).Reachable c) (fd : Fd) :
    ((∃ f, c.s.fd f = some fd) ↔ requests c.out.calls fd ≠ none) ∧
      ∀ flags, requests c.out.calls fd = some flags → flags.read = true ∧ flags.error = false := by
  have hreg : Registered c := inductive_registered.reachable c hr
  have hopen : ∀ f, c.s.fd f = some fd → ∃ w, requests c.out.calls fd = some ⟨false, true, w⟩ :=
    fun f => hreg.opened f fd
  refine ⟨⟨fun hf => ?_, fun hne => ?_⟩, fun flags hflags => ?_⟩
  · obtain ⟨f, hf⟩ := hf
    obtain ⟨w, hw⟩ := hopen f hf
    simp [hw]
  · exact Classical.byContradiction fun hn => hne (hreg.closed fd fun f hf => hn ⟨f, hf⟩)
  · by_cases hf : ∃ f, c.s.fd f = some fd
    · obtain ⟨f, hf⟩ := hf
      obtain ⟨w, hw⟩ := hopen f hf
      obtain rfl := Option.some.inj (hw.symm.trans hflags)
      exact ⟨rfl, rfl⟩
    · have hnone := hreg.closed fd fun f h => hf ⟨f, h⟩
      rw [hnone] at hflags
      cases hflags

end

/-- Both families are tried, and the second one is answered at once. -/
def twoFamilies : List Label :=
  [.call (.connect .v4 .tls (some 5) .inProgress), .call (.connect .v6 .plain (some 6) .ok)]

theorem twoFamilies_runs : (LTS.replay step Cfg.init twoFamilies).isSome := rfl

theorem registered_iff_twoFamilies :
    let c := (LTS.replay step Cfg.init twoFamilies).get twoFamilies_runs
    ((∃ f, c.s.fd f = some 6) ↔ requests c.out.calls 6 ≠ none) ∧
      ∀ flags, requests c.out.calls 6 = some flags → flags.read = true ∧ flags.error = false :=
  registered_iff (LTS.reachable_replay (· = Cfg.init) rfl twoFamilies_runs) 6

/-! ## What is left to write -/

/-- The frame goes on writing to the descriptor `fd` of the family `f`, or closes it. -/
def Covers (f : Family) (fd : Fd) : Frame → Prop
  | .processWrite fd' _ => fd' = some fd
  | .callProcessWrite g | .plainWrite g => g = f
  | .closeOther g => g.other = f
  | _ => False

/-- The kernel is asked to say when it takes more, or the code has yet to ask. -/
def Awaited (c : Cfg) (f : Family) (fd : Fd) : Prop :=
  requests c.out.calls fd = some fdReadWrite ∨ ∃ fr ∈ c.stack, Covers f fd fr

/-- While there is something left to write, each descriptor of a connected
socket is waited for. -/
def Watching (c : Cfg) : Prop :=
  c.fault = none → c.s.mState = .connected → c.s.mPendingWrites ≠ [] →
    ∀ f fd, c.s.fd f = some fd → Awaited c f fd

/-- A socket is not given a descriptor with something left to write, unless code
that has yet to run will write it. -/
def Keeps (c : Cfg) : Label → Prop
  | .call (.setSocket fd f) => (∀ g, c.s.fd g = none) → c.s.mPendingWrites ≠ [] →
      ∃ fr ∈ c.stack, Covers f fd fr
  | _ => True

/-- The frames of Plain mode. -/
def ofPlain (fr : Frame) : Bool := ofEvent fr || work fr

structure Inv (c : Cfg) : Prop where
  registered : Registered c
  plain : c.s.mMode = .plain
  frames : ∀ fr ∈ c.stack, ofPlain fr = true
  watching : Watching c

section
variable {c c' : Cfg} {f : Family} {fd : Fd} {fr : Frame} {k : List Frame} {a : Ans}

theorem Watching.of_state (h : c.s.mState ≠ .connected) : Watching c := fun _ hc => absurd hc h

theorem Watching.mono (h : Watching c) (hfault : c.fault = none)
    (hstate : c'.s.mState = c.s.mState) (hpending : c'.s.mPendingWrites = c.s.mPendingWrites)
    (haw : ∀ f fd, c'.s.fd f = some fd → c.s.fd f = some fd ∧ (Awaited c f fd → Awaited c' f fd)) :
    Watching c' := by
  intro _ hc hp f fd hfd
  obtain ⟨hold, hkeep⟩ := haw f fd hfd
  exact hkeep (h hfault (hstate ▸ hc) (hpending ▸ hp) f fd hold)

/-- The top frame has been run, and others may have been pushed for it. -/
theorem Awaited.replace (h : Awaited c f fd) (fs : List Frame) (hk : c.stack = fr :: k)
    (hcalls : requests c.out.calls fd = some fdReadWrite →
      requests c'.out.calls fd = some fdReadWrite) (hst : c'.stack = fs ++ k)
    (hfr : Covers f fd fr → Awaited c' f fd) : Awaited c' f fd := by
  rcases h with h | ⟨fr', hm, hcov⟩
  · exact .inl (hcalls h)
  · rw [hk] at hm
    rcases List.mem_cons.mp hm with rfl | hm
    · exact hfr hcov
    · exact .inr ⟨fr', by rw [hst]; exact List.mem_append_right _ hm, hcov⟩

theorem requests_update (h : requests c.out.calls fd = some fdReadWrite) (fd' : Option Fd) :
    requests (loopCall (.updateFd fd' fdReadWrite) c).out.calls fd = some fdReadWrite := by
  rw [loopCall, requests_append]
  cases fd' with
  | none => exact h
  | some fd' =>
    by_cases he : fd = fd'
    · subst he
      simp [request, h]
    · rwa [request, Function.update_of_ne he]

theorem requests_update_self {w : Bool} (h : requests c.out.calls fd = some ⟨false, true, w⟩) :
    requests (loopCall (.updateFd (some fd) fdReadWrite) c).out.calls fd = some fdReadWrite := by
  rw [loopCall, requests_append, request, Function.update_self, h]
  rfl

theorem requests_update_of_ne {fd' : Option Fd} (hne : fd' ≠ some fd) (flags : Flags) :
    requests (loopCall (.updateFd fd' flags) c).out.calls fd = requests c.out.calls fd := by
  rw [loopCall, requests_append]
  cases fd' with
  | none => rfl
  | some fd' => rw [request, Function.update_of_ne fun he => hne (congrArg some he.symm)]

/-- Closing one descriptor leaves the request for the other one alone. -/
theorem requests_dropFd (h : Registered c) {g : Family} (hfd : (dropFd g c).s.fd f = some fd) :
    c.s.fd f = some fd ∧ requests (dropFd g c).out.calls fd = requests c.out.calls fd := by
  rcases eq_or_other g f with rfl | rfl
  · simp at hfd
  · rw [dropFd_other] at hfd
    refine ⟨hfd, ?_⟩
    cases hg : c.s.fd g with
    | none => rw [dropFd_none hg ((h.handle g).trans hg)]
    | some fd' =>
      rw [(dropFd_some ((h.handle g).trans hg)).1, requests_append, request,
        Function.update_of_ne fun he : fd = fd' => h.apart g fd' hg (he ▸ hfd)]

theorem requests_dropOpen (h : Registered c) {g : Family} (hfd : (dropOpen g c).s.fd f = some fd) :
    c.s.fd f = some fd ∧ requests (dropOpen g c).out.calls fd = requests c.out.calls fd := by
  unfold dropOpen at hfd ⊢
  split at hfd
  · exact ⟨hfd, rfl⟩
  · exact requests_dropFd h hfd

/-! ### One block -/

/-- The top frame has been run: `fs` is what it has pushed. -/
structure Ran (c c' : Cfg) (k fs : List Frame) : Prop where
  plain : c'.s.mMode = c.s.mMode
  stack : c'.stack = fs ++ k
  frames : ∀ fr ∈ fs, ofPlain fr = true

theorem Inv.ran (h : Inv c) (fs : List Frame) (hk : c.stack = fr :: k) (hr : Ran c c' k fs)
    (hreg : Registered c') (hw : Watching c') : Inv c' := by
  refine ⟨hreg, hr.plain.trans h.plain, ?_, hw⟩
  rw [hr.stack]
  refine List.forall_mem_append.mpr ⟨hr.frames, fun g hg => h.frames g ?_⟩
  rw [hk]
  exact List.mem_cons_of_mem _ hg

/-- `write` of a connected socket goes on to write, to the one descriptor that is open. -/
theorem watching_write {b : Bytes} : Watching (write b c) := by
  unfold write
  simp only
  split
  · rename_i hne
    exact .of_state hne
  · split
    · rename_i fd h4 h6
      intro _ _ _ f fd' hfd
      cases f with
      | v4 => exact .inr ⟨_, List.mem_cons_self .., h4.symm.trans hfd⟩
      | v6 => cases h6.symm.trans hfd
    · exact fun hfault => by cases hfault
    · rename_i fd h4 h6
      intro _ _ _ f fd' hfd
      cases f with
      | v4 => cases h4.symm.trans hfd
      | v6 => exact .inr ⟨_, List.mem_cons_self .., h6.symm.trans hfd⟩
    · exact fun hfault => by cases hfault

theorem write_ran {b : Bytes} : (write b c).s.mMode = c.s.mMode ∧
    ∃ fs, (write b c).stack = fs ++ c.stack ∧ ∀ fr ∈ fs, ofPlain fr = true := by
  unfold write
  simp only
  split
  · exact ⟨rfl, [], rfl, by simp⟩
  · split
    · exact ⟨rfl, [_], rfl, by simp [ofPlain, work]⟩
    · exact ⟨rfl, [], rfl, by simp⟩
    · exact ⟨rfl, [_], rfl, by simp [ofPlain, work]⟩
    · exact ⟨rfl, [], rfl, by simp⟩

theorem Inv.closed (h : Inv c) (hk : c.stack = fr :: k) {st : State} (hst : st ≠ .connected) :
    Inv (closeWith st { c with stack := k }) := by
  have hreg : Registered ({ c with stack := k } : Cfg) := h.registered.alike {}
  refine h.ran [.handler] hk ⟨?_, closeWith_stack _ _, by simp [ofPlain, work]⟩
    ((Moves.refl.closeWith st).registered hreg) (.of_state hst)
  exact (close_mMode _).trans h.plain.symm

theorem inv_processWrite {fd : Option Fd} {it : Nat} (h : Inv c) (hf : c.fault = none)
    (hk : c.stack = .processWrite fd it :: k)
    (hs : processWriteBlock fd it { c with stack := k } a = some c') : Inv c' := by
  have hreg : Registered c' :=
    (moves_processWriteBlock (Moves.refl.alike {}) hs).registered h.registered
  have hgoes : ∀ {c₁ : Cfg} {it' : Nat}, c₁.s.mState = c.s.mState →
      c₁.s.mPendingWrites = c.s.mPendingWrites → c₁.s.fd = c.s.fd →
      c₁.out.calls = c.out.calls → c₁.stack = .processWrite fd it' :: k → Watching c₁ := by
    intro c₁ it' hstate hpending hfds hcalls hst
    refine h.watching.mono hf hstate hpending fun f fd' hfd => ⟨hfds ▸ hfd, fun haw => ?_⟩
    refine haw.replace [.processWrite fd it'] hk (fun hr => hcalls ▸ hr) hst fun hcov => ?_
    exact .inr ⟨.processWrite fd it', by rw [hst]; exact List.mem_cons_self .., hcov⟩
  have hcases := processWriteBlock_cases (c := { c with stack := k }) h.plain hs
  rcases hcases with ⟨hnone, -, rfl⟩ | ⟨b, -, hcases⟩
  · refine h.ran [] hk ⟨rfl, rfl, by simp⟩ hreg fun _ _ hp => absurd ?_ hp
    exact List.drop_eq_nil_of_le (List.getElem?_eq_none_iff.mp hnone)
  rcases hcases with ⟨-, -, rfl⟩ | ⟨n, -, -, rfl⟩ | ⟨n, -, -, rfl⟩ | ⟨-, rfl⟩ | ⟨errno, -, -, rfl⟩
  · exact h.ran [] hk ⟨rfl, rfl, by simp⟩ hreg fun hfault => by cases hfault
  · exact h.ran [_] hk ⟨rfl, rfl, by simp [ofPlain, work]⟩ hreg (hgoes rfl rfl rfl rfl rfl)
  · exact h.ran [_] hk ⟨rfl, rfl, by simp [ofPlain, work]⟩ hreg (hgoes rfl rfl rfl rfl rfl)
  · refine h.ran [] hk ⟨rfl, rfl, by simp⟩ hreg ?_
    refine h.watching.mono hf rfl rfl fun f fd' hfd => ⟨hfd, fun haw => ?_⟩
    refine haw.replace [] hk (fun hr => requests_update hr fd) rfl fun hcov => .inl ?_
    -- the kernel takes no more: this is where writing is asked for
    obtain ⟨w, hw⟩ := h.registered.opened f fd' hfd
    obtain rfl : fd = some fd' := hcov
    exact requests_update_self hw
  · exact h.closed hk (by simp)

theorem inv_plainRead (h : Inv c) (hf : c.fault = none) (hk : c.stack = .plainRead :: k)
    (hs : readBlock [.plainRead] { c with stack := k } a = some c') : Inv c' := by
  have hreg : Registered c' := (moves_readBlock (Moves.refl.alike {}) hs).registered h.registered
  have hsame : ∀ {c₁ : Cfg} (fs : List Frame), c₁.s = c.s → c₁.out.calls = c.out.calls →
      c₁.stack = fs ++ k → Watching c₁ := by
    intro c₁ fs hsock hcalls hst
    refine h.watching.mono hf (by rw [hsock]) (by rw [hsock]) fun f fd hfd =>
      ⟨hsock ▸ hfd, fun haw => haw.replace fs hk (fun hr => hcalls ▸ hr) hst fun hcov => ?_⟩
    exact absurd hcov id
  have hcases := readBlock_cases (c := { c with stack := k }) h.plain hs
  rcases hcases with ⟨-, -, rfl⟩ | ⟨-, -, rfl⟩ |
    ⟨-, ⟨b, -, rfl⟩ | ⟨-, rfl⟩ | ⟨-, rfl⟩ | ⟨_, -, -, rfl⟩⟩
  · exact h.ran [] hk ⟨rfl, rfl, by simp⟩ hreg (hsame [] rfl rfl rfl)
  · exact h.ran [] hk ⟨rfl, rfl, by simp⟩ hreg fun hfault => by cases hfault
  · exact h.ran [.handler, .plainRead] hk ⟨rfl, rfl, by simp [ofPlain, work, ofEvent]⟩ hreg
      (hsame [.handler, .plainRead] rfl rfl rfl)
  · exact h.ran [] hk ⟨rfl, rfl, by simp⟩ hreg (hsame [] rfl rfl rfl)
  · exact h.closed hk (by simp)
  · exact h.closed hk (by simp)

/-- The top frame has been run, and did not cover the descriptor. -/
theorem Awaited.pop (h : Awaited c f fd) (hk : c.stack = fr :: k) (hcov : ¬ Covers f fd fr)
    (hcalls : requests c.out.calls fd = some fdReadWrite →
      requests c'.out.calls fd = some fdReadWrite) (hst : c'.stack = k) : Awaited c' f fd :=
  h.replace [] hk hcalls hst fun h => absurd h hcov

theorem inv_plainWrite {g : Family} (h : Inv c) (hf : c.fault = none)
    (hk : c.stack = .plainWrite g :: k)
    (hs : exec (.plainWrite g) { c with stack := k } a = some c') : Inv c' := by
  have hreg : Registered c' := (moves_exec (Moves.refl.alike {}) hs).registered h.registered
  -- the request for writing is taken back
  let c₁ : Cfg := loopCall (.updateFd (c.s.fd g) fdRead) { c with stack := k }
  have hreg₁ : Registered c₁ :=
    Registered.update (c := { c with stack := k }) (h.registered.alike {}) _ false
  simp only [exec] at hs
  split at hs
  · rename_i hconnecting
    have hstate : c.s.mState = .connecting := hconnecting
    obtain ⟨_, -, ⟨-, -, rfl⟩ | ⟨-, -, rfl⟩ | ⟨-, -, rfl⟩⟩ := checkConnect_cases (c := c₁) hs
    · exact h.ran [.handler, .dropFailed g] hk ⟨rfl, rfl, by simp [ofPlain, work]⟩ hreg
        (.of_state (by simp))
    · refine h.ran [] hk ⟨dropFd_mMode c₁ g, dropFd_stack c₁ g, by simp⟩ hreg (.of_state ?_)
      rw [dropFd_mState]
      exact fun hc => by cases hstate.symm.trans hc
    · refine h.ran [.handler, .callProcessWrite g] hk
        ⟨dropOpen_mMode c₁ g.other, ?_, by simp [ofPlain, work]⟩ hreg fun _ _ _ f fd hfd => ?_
      · simp [c₁]
      · -- the other one has been closed
        rcases eq_or_other g f with rfl | rfl
        · exact .inr ⟨.callProcessWrite f, by simp, rfl⟩
        · simp at hfd
  · obtain ⟨rfl, -⟩ := pureBlock_some hs
    refine h.ran [.callProcessWrite g] hk ⟨rfl, rfl, by simp [ofPlain, work]⟩ hreg ?_
    refine h.watching.mono hf rfl rfl fun f fd hfd => ⟨hfd, fun haw => ?_⟩
    rcases eq_or_other g f with rfl | rfl
    · exact .inr ⟨_, List.mem_cons_self .., rfl⟩
    · refine haw.replace [.callProcessWrite g] hk (fun hr => ?_) rfl fun hcov => ?_
      · have hne : c.s.fd g ≠ some fd := fun he => h.registered.apart g fd he hfd
        exact (requests_update_of_ne (c := { c with stack := k }) hne fdRead).trans hr
      · exact absurd hcov.symm (other_ne g)

theorem inv_run (h : Inv c) (hf : c.fault = none) (hk : c.stack = fr :: k)
    (hs : exec fr { c with stack := k } a = some c') : Inv c' := by
  have hreg₀ : Registered ({ c with stack := k } : Cfg) := h.registered.alike {}
  have hreg : Registered c' := (moves_exec .refl hs).registered hreg₀
  have hfr : ofPlain fr = true := h.frames fr (by rw [hk]; exact List.mem_cons_self ..)
  cases fr with
  | handler => cases hs
  | close | tlsAttach | connectTLS | tlsHandshaken | tlsRead | tlsRetryRead | tlsRetryWrite
  | tlsReadLoop | tlsWrite | tlsDoWrite => cases hfr
  | processWrite fd it => exact inv_processWrite h hf hk hs
  | plainRead => exact inv_plainRead h hf hk hs
  | plainWrite g => exact inv_plainWrite h hf hk hs
  | callProcessWrite g =>
    obtain ⟨rfl, -⟩ := pureBlock_some hs
    refine h.ran [.processWrite (c.s.fd g) 0] hk ⟨rfl, rfl, by simp [ofPlain, work]⟩ hreg ?_
    refine h.watching.mono hf rfl rfl fun f fd hfd => ⟨hfd, fun haw => ?_⟩
    refine haw.replace [.processWrite (c.s.fd g) 0] hk id rfl fun hcov => ?_
    obtain rfl : g = f := hcov
    exact .inr ⟨_, List.mem_cons_self .., hfd⟩
  | writeRange data =>
    obtain ⟨rfl, -⟩ := pureBlock_some hs
    by_cases hd : data = []
    · rw [if_pos hd] at hreg ⊢
      refine h.ran [] hk ⟨rfl, rfl, by simp⟩ hreg ?_
      refine h.watching.mono hf rfl rfl fun f fd hfd => ⟨hfd, fun haw => ?_⟩
      exact haw.pop hk id id rfl
    · rw [if_neg hd] at hreg ⊢
      obtain ⟨hmode, fs, hst, hfs⟩ := write_ran (b := data.take bufferSize)
        (c := push [.writeRange (data.drop bufferSize)] { c with stack := k })
      refine h.ran (fs ++ [.writeRange (data.drop bufferSize)]) hk ⟨hmode, ?_, ?_⟩ hreg
        watching_write
      · rw [hst, List.append_assoc]
        rfl
      · exact List.forall_mem_append.mpr ⟨hfs, by simp [ofPlain, work]⟩
  | dropFailed g =>
    obtain ⟨rfl, -⟩ := pureBlock_some hs
    refine h.ran [] hk ⟨dropFd_mMode _ g, dropFd_stack _ g, by simp⟩ hreg ?_
    refine h.watching.mono hf (dropFd_mState _ g) (dropFd_mPendingWrites _ g) fun f fd hfd => ?_
    obtain ⟨hfd₀, hrequests⟩ := requests_dropFd hreg₀ hfd
    exact ⟨hfd₀, fun haw => haw.pop hk id (fun hr => hrequests.trans hr) (dropFd_stack _ g)⟩
  | closeOther g =>
    obtain ⟨rfl, -⟩ := pureBlock_some hs
    refine h.ran [] hk ⟨dropOpen_mMode _ g.other, dropOpen_stack _ g.other, by simp⟩ hreg ?_
    refine h.watching.mono hf (dropOpen_mState _ g.other) (dropOpen_mPendingWrites _ g.other)
      fun f fd hfd => ?_
    obtain ⟨hfd₀, hrequests⟩ := requests_dropOpen hreg₀ hfd
    refine ⟨hfd₀, fun haw => haw.pop hk (fun hcov => ?_) (fun hr => hrequests.trans hr)
      (dropOpen_stack _ g.other)⟩
    obtain rfl : g.other = f := hcov
    simp at hfd
  | armConnect g =>
    obtain ⟨rfl, -⟩ := pureBlock_some hs
    refine h.ran [] hk ⟨rfl, rfl, by simp⟩ hreg ?_
    refine h.watching.mono hf rfl rfl fun f fd hfd => ⟨hfd, fun haw => ?_⟩
    exact haw.pop hk id (fun hr => requests_update hr _) rfl

/-! ### One step -/

theorem inv_event (h : Inv c) (hf : c.fault = none) (hk : c.stack = []) (fd : Fd) (flags : Flags) :
    Inv (socketCallback fd flags c) := by
  have hprocess : ∀ g, Inv (processEvent g flags c) := fun g => by
    unfold processEvent
    split
    · refine ⟨h.registered.dropFd g, (dropFd_mMode c g).trans h.plain, by simp [hk], ?_⟩
      refine h.watching.mono hf (dropFd_mState c g) (dropFd_mPendingWrites c g) fun f fd' hfd => ?_
      obtain ⟨hfd₀, hrequests⟩ := requests_dropFd h.registered hfd
      refine ⟨hfd₀, fun haw => haw.imp (fun hr => hrequests.trans hr) fun hc => ?_⟩
      rwa [dropFd_stack]
    · rw [h.plain]
      refine ⟨h.registered.alike {}, h.plain, ?_, ?_⟩
      · cases flags.read <;> cases flags.write <;> simp [hk, ofPlain, ofEvent]
      · refine h.watching.mono hf rfl rfl fun f fd' hfd => ⟨hfd, fun haw => haw.imp id fun hc => ?_⟩
        obtain ⟨fr, hm, hcov⟩ := hc
        exact ⟨fr, List.mem_append_right _ hm, hcov⟩
  unfold socketCallback
  split
  · exact hprocess .v4
  · split
    · exact hprocess .v6
    · exact h

/-- An attempt that succeeds at once writes to its own descriptor and closes the other one. -/
theorem internalConnect_watching (res : ConnectRes) (f : Family) (hm : c.s.mMode = .plain)
    (hst : c.s.mState ≠ .connected) : Watching (internalConnect res f c) ∧
      (internalConnect res f c).s.mMode = .plain ∧
      ∃ fs, (internalConnect res f c).stack = fs ++ c.stack ∧ ∀ fr ∈ fs, ofPlain fr = true := by
  unfold internalConnect
  cases res with
  | ok =>
    simp only [hm]
    refine ⟨fun _ _ _ g fd hfd => ?_, hm, [.handler, .callProcessWrite f, .closeOther f], rfl,
      by simp [ofPlain, work]⟩
    rcases eq_or_other f g with rfl | rfl
    · exact .inr ⟨.callProcessWrite g, by simp, rfl⟩
    · exact .inr ⟨.closeOther f, by simp, rfl⟩
  | inProgress =>
    simp only
    split
    · exact ⟨.of_state (by simp), hm, [.handler, .armConnect f], rfl, by simp [ofPlain, work]⟩
    · exact ⟨.of_state hst, hm, [], rfl, by simp⟩
  | failed =>
    simp only
    split
    · exact ⟨.of_state (by simp), hm, [.handler, .dropFailed f], rfl, by simp [ofPlain, work]⟩
    · refine ⟨.of_state ?_, (dropFd_mMode c f).trans hm, [], dropFd_stack c f, by simp⟩
      rwa [dropFd_mState]

theorem inv_connect {sock : Option Fd} {res : ConnectRes} (h : Inv c)
    (hreg : Registered (connect f .plain sock res c)) : Inv (connect f .plain sock res c) := by
  unfold connect at hreg ⊢
  split at hreg
  · rename_i hopen
    rw [if_pos hopen]
    exact h
  · rename_i hopen
    rw [if_neg hopen]
    rw [not_or] at hopen
    obtain ⟨hw, hm, fs, hst, hfs⟩ := internalConnect_watching (c := loopCall (.addFd sock fdRead)
      { c with s := ({ c.s with mMode := .plain }.setFd f sock).setHandle f sock }) res f
      (by simp) (by simpa using hopen.2)
    refine ⟨hreg, hm, ?_, hw⟩
    intro fr hfr
    rcases List.mem_append.mp (hst ▸ hfr) with hfr | hfr
    · exact hfs fr hfr
    · exact h.frames fr hfr

theorem inv_setSocket (h : Inv c) (hkeeps : Keeps c (.call (.setSocket fd f)))
    (hreg : Registered (setSocket fd f c)) : Inv (setSocket fd f c) := by
  unfold setSocket at hreg ⊢
  split at hreg
  · rename_i hopen
    rw [if_pos hopen]
    exact h
  rename_i hopen
  rw [if_neg hopen]
  rw [not_or, not_not, not_not] at hopen
  have hnone : ∀ g, c.s.fd g = none := fun g => by cases g; exacts [hopen.2, hopen.1]
  refine ⟨hreg, by simpa using h.plain, h.frames, fun _ _ hp g fd' hfd => ?_⟩
  rcases eq_or_other f g with rfl | rfl
  · have hself : fd = fd' := by cases g <;> exact Option.some.inj hfd
    obtain ⟨fr, hm, hcov⟩ := hkeeps hnone (by cases g <;> exact hp)
    exact .inr ⟨fr, hm, hself ▸ hcov⟩
  · have hother := hnone f.other
    cases f <;> cases hother.symm.trans hfd

theorem inv_call {op : Call} (h : Inv c) (hf : c.fault = none)
    (hplain : plainOnly (.call op) = true) (hkeeps : Keeps c (.call op))
    (hs : callStep op c = some c') : Inv c' := by
  have hreg : Registered c' := (call_books hs).registered h.registered
  cases op with
  | connect f mode sock res =>
    cases mode with
    | tls => cases hplain
    | plain =>
      simp only [callStep] at hs
      split at hs <;> cases hs
      exact inv_connect h hreg
  | setSocket fd f => cases hs; exact inv_setSocket h hkeeps hreg
  | write b =>
    cases hs
    obtain ⟨hmode, fs, hst, hfs⟩ := write_ran (b := b) (c := { c with written := c.written ++ b })
    refine ⟨hreg, hmode.trans h.plain, ?_, watching_write⟩
    rw [hst]
    exact List.forall_mem_append.mpr ⟨hfs, h.frames⟩
  | writeRange data =>
    cases hs
    refine ⟨hreg, h.plain, List.forall_mem_cons.mpr ⟨rfl, h.frames⟩, ?_⟩
    refine h.watching.mono hf rfl rfl fun f fd hfd => ⟨hfd, fun haw => haw.imp id fun hc => ?_⟩
    obtain ⟨fr, hm, hcov⟩ := hc
    exact ⟨fr, List.mem_cons_of_mem _ hm, hcov⟩
  | close =>
    cases hs
    refine ⟨hreg, close_mMode c, by simpa using h.frames, fun _ _ _ f fd hfd => ?_⟩
    simp at hfd

theorem inv_step {l : Label} (h : Inv c) (hplain : plainOnly l = true) (hkeeps : Keeps c l)
    (hs : step c l = some c') : Inv c' := by
  obtain ⟨hf, ⟨op, rfl, -, hop⟩ | ⟨fd, flags, rfl, hk, rfl⟩ | ⟨a, fr, k, rfl, hk, he⟩ |
    ⟨k, rfl, hk, rfl⟩⟩ := step_cases hs
  · exact inv_call h hf hplain hkeeps hop
  · exact inv_event h hf hk fd flags
  · exact inv_run h hf hk he
  · refine h.ran [] hk ⟨rfl, rfl, by simp⟩ (h.registered.alike {}) ?_
    exact h.watching.mono hf rfl rfl fun f fd hfd => ⟨hfd, fun haw => haw.pop hk id id rfl⟩

/-- A socket in Plain mode. -/
def plain : LTS Cfg Label := (lts (· = Cfg.init)).guard fun _ l => plainOnly l = true

theorem inv_init : Inv Cfg.init :=
  ⟨registered_init, rfl, by simp [Cfg.init], .of_state (by simp [Cfg.init, Sock.init])⟩

/-- Nothing is requested for writing when a descriptor has just been given. -/
theorem setSocket_breaks {l : Label} (hkeeps : ¬ Keeps c l) (hs : step c l = some c') :
    ¬ Watching c' := by
  obtain ⟨hf, ⟨op, rfl, -, hop⟩ | ⟨fd, flags, rfl, -, -⟩ | ⟨a, fr, k, rfl, -, -⟩ |
    ⟨k, rfl, -, -⟩⟩ := step_cases hs
  · cases op with
    | connect | write | writeRange | close => exact absurd trivial hkeeps
    | setSocket fd f =>
      cases hop
      simp only [Keeps, not_forall] at hkeeps
      obtain ⟨hnone, hp, hcov⟩ := hkeeps
      have hopen : ¬ (c.s.mFd6 ≠ none ∨ c.s.mFd4 ≠ none) := by
        rw [not_or, not_not, not_not]
        exact ⟨hnone .v6, hnone .v4⟩
      have heq : setSocket fd f c = loopCall (.addFd (some fd) fdRead) { c with s :=
          (({ c.s.setFd f (some fd) with mState := .connected } : Sock).setHandle f (some fd)) } := by
        unfold setSocket
        rw [if_neg hopen]
      rw [heq]
      intro hw
      rcases hw hf (by simp) (by cases f <;> exact hp) f fd (by cases f <;> rfl) with hr | hr
      · rw [loopCall, requests_append, request, Function.update_self] at hr
        cases hr
      · exact hcov hr
  all_goals exact absurd trivial hkeeps

theorem watching_exact : plain.Exact Keeps Inv Watching where
  holds _ h := h.watching
  keeps _ _ _ h hk hs := inv_step h hs.1 hk hs.2
  breaks _ _ _ _ hk hs := setSocket_breaks hk hs.2

/-- **No blocked write is forgotten.** In a run in Plain mode a connected socket
with something left to write is always waiting for its descriptor to take more,
or about to go on writing, exactly when no descriptor is given to it with
something left to write. -/
theorem watching_iff {t : List (Label × Cfg)} (ht : plain.Trace Cfg.init t) :
    LTS.AllStates Watching Cfg.init t ↔ LTS.AllSteps Keeps Cfg.init t :=
  watching_exact.allStates_iff ht inv_init

end

instance (f : Family) (fd : Fd) : DecidablePred (Covers f fd)
  | .processWrite fd' _ => inferInstanceAs (Decidable (fd' = some fd))
  | .callProcessWrite g | .plainWrite g => inferInstanceAs (Decidable (g = f))
  | .closeOther g => inferInstanceAs (Decidable (g.other = f))
  | .handler | .writeRange _ | .plainRead | .dropFailed _ | .armConnect _ | .close | .tlsAttach _
  | .connectTLS _ | .tlsHandshaken _ | .tlsRead _ | .tlsRetryRead | .tlsRetryWrite _ | .tlsReadLoop
  | .tlsWrite _ | .tlsDoWrite _ => isFalse id

instance {p : Family → Prop} [DecidablePred p] : Decidable (∀ f, p f) :=
  decidable_of_iff (p .v4 ∧ p .v6) ⟨fun h f => by cases f; exacts [h.1, h.2], fun h => ⟨h _, h _⟩⟩

instance (c : Cfg) : DecidablePred (Keeps c)
  | .call (.setSocket fd f) => inferInstanceAs (Decidable ((∀ g, c.s.fd g = none) →
      c.s.mPendingWrites ≠ [] → ∃ fr ∈ c.stack, Covers f fd fr))
  | .call (.connect ..) | .call (.write _) | .call (.writeRange _) | .call .close | .event _ _
  | .run _ | .ret => isTrue trivial

/-- A socket is written to before it is given a descriptor. -/
def writtenBefore : List Label := [.call (.write [1, 2, 3]), .call (.setSocket 5 .v4)]

theorem writtenBefore_runs : (LTS.record step Cfg.init writtenBefore).isSome := rfl

theorem writtenBefore_plain : LTS.AllSteps (fun _ l => plainOnly l = true) Cfg.init
    ((LTS.record step Cfg.init writtenBefore).get writtenBefore_runs) := by decide

/-- Nothing goes on to write these bytes. -/
theorem watching_iff_writtenBefore : ¬ LTS.AllStates Watching Cfg.init
    ((LTS.record step Cfg.init writtenBefore).get writtenBefore_runs) := by
  have ht : plain.Trace Cfg.init _ :=
    (LTS.trace_record writtenBefore_runs).guard writtenBefore_plain
  exact fun h => absurd ((watching_iff ht).mp h) (by decide)

end Reckoning.L4.TcpWatched
