import Reckoning.L4Net.TcpSocket

/-!
# `Connected` means one open descriptor

`write` and `read` assert that a connected socket has exactly one of `mFd4`
and `mFd6` open (include/net/TcpSocket.h:130-141,
lib/net/TcpSocket.cpp:575,587). `Sound` is that relation together with "no
such assertion has failed". It is asked for in every configuration of the
machine, so in particular whenever user code runs.

The relation is not an invariant. `Keeps` names the steps that respect it:

* `close()` of a socket that is not `Connected` (`close` never writes
  `mState`);
* no error event on the descriptor of a connected socket (`FdError` closes the
  descriptor and leaves `mState`);
* an immediate success of `connect` in Plain mode only while the other
  attempt is not open (`Connected` is emitted before the other one is closed);
* the end of a TLS handshake, the close that follows a failed attempt and the
  close of the superseded attempt only where they leave the relation;
* a read only while at most one descriptor is open.

`sound_step_iff`: from a sound configuration, a step leads to a sound one
exactly when it meets `Keeps`. `connected_one_open_iff`: a run of a fresh
socket is sound throughout exactly when all its steps meet `Keeps`.
-/
namespace Reckoning.L4.TcpConnected
open Reckoning.L4.TcpSocket

/-! ## The property -/

/-- Exactly one of `mFd4` and `mFd6` is open. -/
def OneOpen (s : Sock) : Prop := (s.mFd4 = none) ≠ (s.mFd6 = none)

def BothOpen (s : Sock) : Prop := s.mFd4 ≠ none ∧ s.mFd6 ≠ none

structure Sound (c : Cfg) : Prop where
  one : c.s.mState = .connected → OneOpen c.s
  write : c.fault ≠ some .writeAssert
  read : c.fault ≠ some .readAssert

/-! ## The steps that respect it -/

/-- What a public call must not do. -/
def callKeeps (op : Call) (s : Sock) : Prop :=
  match op with
  | .close => s.mState ≠ .connected
  | .connect f .plain _ .ok => s.fd f = none → s.mState ≠ .connected → s.fd f.other = none
  | _ => True

/-- An event on one of the socket's descriptors. -/
def Mine (fd : Fd) (s : Sock) : Prop := s.mFd4 = some fd ∨ s.mFd6 = some fd

/-- What the block of a frame must not meet. -/
def blockKeeps (fr : Frame) (s : Sock) (a : Ans) : Prop :=
  match fr with
  | .plainRead | .tlsRetryRead => ¬ BothOpen s
  | .tlsReadLoop => s.mSsl.readWaitState = .notWaiting → ¬ BothOpen s
  | .dropFailed f => s.mState = .connected → s.fd f = none
  | .closeOther f => s.mState = .connected → s.fd f.other = none
  | .close => s.mState ≠ .connected
  | .connectTLS _ => a = .sslDone → OneOpen s
  | _ => True

/-- The condition on a step, on the socket before it and on the label. -/
def Keeps (c : Cfg) : Label → Prop
  | .call op => callKeeps op c.s
  | .event fd flags => flags.error = true → c.s.mState = .connected → ¬ Mine fd c.s
  | .run a =>
    match c.stack with
    | [] => True
    | fr :: _ => blockKeeps fr c.s a
  | .ret => True

/-! ## Families -/

theorem oneOpen_fd {s : Sock} (f : Family) :
    OneOpen s ↔ (s.fd f = none) ≠ (s.fd f.other = none) := by
  cases f
  · rfl
  · exact ⟨Ne.symm, Ne.symm⟩

theorem bothOpen_fd {s : Sock} (f : Family) :
    BothOpen s ↔ s.fd f ≠ none ∧ s.fd f.other ≠ none := by
  cases f
  · rfl
  · exact And.comm

theorem OneOpen.not_none {s : Sock} {f : Family} (h : OneOpen s) (ho : s.fd f.other = none) :
    s.fd f ≠ none := by
  intro hf; exact (oneOpen_fd f).mp h (by simp [hf, ho])

theorem OneOpen.not_both {s : Sock} (h : OneOpen s) : ¬ BothOpen s :=
  fun ⟨h4, h6⟩ => h (by simp [h4, h6])

theorem oneOpen_of {s : Sock} {f : Family} (hf : s.fd f ≠ none) (ho : s.fd f.other = none) :
    OneOpen s := (oneOpen_fd f).mpr (by simp [hf, ho])

theorem not_oneOpen {s : Sock} {f : Family} (hf : s.fd f = none) (ho : s.fd f.other = none) :
    ¬ OneOpen s := fun h => h.not_none ho hf

/-! ## Steps that leave the relation alone -/

/-- No assertion of `write` or `read` has failed. -/
def NoAssert (c : Cfg) : Prop := c.fault ≠ some .writeAssert ∧ c.fault ≠ some .readAssert

theorem noAssert_none {c : Cfg} (h : c.fault = none) : NoAssert c := by
  simp [NoAssert, h]

theorem Sound.of_state {c : Cfg} (hs : c.s.mState ≠ .connected) (hf : NoAssert c) : Sound c :=
  ⟨fun h => absurd h hs, hf.1, hf.2⟩

/-- The state and the descriptors are as they were. -/
theorem Sound.same {c c' : Cfg} (h : Sound c) (hs : c'.s.mState = c.s.mState)
    (h4 : c'.s.mFd4 = c.s.mFd4) (h6 : c'.s.mFd6 = c.s.mFd6) (hf : NoAssert c') : Sound c' :=
  ⟨fun hc => by unfold OneOpen; rw [h4, h6]; exact h.one (hs ▸ hc), hf.1, hf.2⟩

theorem Sound.push {c : Cfg} (h : Sound c) (fs : List Frame) : Sound (push fs c) :=
  ⟨h.one, h.write, h.read⟩

theorem Sound.loopCall {c : Cfg} (h : Sound c) (l : LoopCall) : Sound (loopCall l c) :=
  ⟨h.one, h.write, h.read⟩

/-- Closing one family leaves the relation exactly when the socket is not
connected or had that family closed already. -/
theorem sound_dropFd_iff {c : Cfg} {f : Family} (h : Sound c) :
    Sound (dropFd f c) ↔ (c.s.mState = .connected → c.s.fd f = none) := by
  have hna : NoAssert (dropFd f c) := by simp [NoAssert, h.write, h.read]
  constructor
  · intro h' hs
    refine Classical.byContradiction fun hf => ?_
    have ho : c.s.fd f.other = none := Classical.byContradiction fun ho =>
      (h.one hs).not_both ((bothOpen_fd f).mpr ⟨hf, ho⟩)
    exact not_oneOpen (f := f) (by simp) (by simpa using ho) (h'.one (by simpa using hs))
  · intro hk
    refine ⟨fun hs => ?_, hna.1, hna.2⟩
    have hs : c.s.mState = .connected := by simpa using hs
    have hone := (oneOpen_fd f).mp (h.one hs)
    refine (oneOpen_fd f).mpr ?_
    simpa [hk hs] using hone

theorem sound_dropOpen_iff {c : Cfg} {f : Family} (h : Sound c) :
    Sound (dropOpen f c) ↔ (c.s.mState = .connected → c.s.fd f = none) := by
  unfold dropOpen
  split
  · rename_i hf; exact ⟨fun _ _ => hf, fun _ => h⟩
  · exact sound_dropFd_iff h

/-- `close()` leaves the relation exactly when the socket is not connected. -/
theorem sound_close_iff {c : Cfg} (h : Sound c) : Sound (close c) ↔ c.s.mState ≠ .connected := by
  constructor
  · intro h' hs
    exact not_oneOpen (f := .v4) (close_fd c .v4) (close_fd c .v6) (h'.one (by simpa using hs))
  · intro hs
    exact .of_state (by simpa using hs) (by simp [NoAssert, h.write, h.read])

theorem sound_closeWith {c : Cfg} {st : State} (hst : st ≠ .connected) (hf : c.fault = none) :
    Sound (closeWith st c) :=
  .of_state hst (noAssert_none (by simpa using hf))

/-! ## Public calls -/

/-- The assertion of `write` cannot fail on a sound socket. -/
theorem sound_write {c : Cfg} {b : Bytes} (h : Sound c) : Sound (write b c) := by
  have hq : Sound { c with s := { c.s with mPendingWrites := c.s.mPendingWrites ++ [b] } } :=
    h.same rfl rfl rfl ⟨h.write, h.read⟩
  unfold write
  dsimp only
  split
  · exact hq
  rename_i hs
  have hone := h.one (Classical.not_not.mp hs)
  split
  · exact hq.push _
  · rename_i h4 h6; exact absurd ⟨by simp [h4], by simp [h6]⟩ hone.not_both
  · exact hq.push _
  · rename_i h4 h6; exact absurd hone (not_oneOpen (f := .v4) h4 h6)

theorem sound_setSocket {c : Cfg} {fd : Fd} {f : Family} (h : Sound c) :
    Sound (setSocket fd f c) := by
  unfold setSocket
  split
  · exact h
  rename_i hno
  simp only [not_or, Classical.not_not] at hno
  refine ⟨fun _ => ?_, h.write, h.read⟩
  cases f <;> simp [OneOpen, Sock.setFd, Sock.setHandle, hno]

/-- The branches of `internalConnect`, for a socket that is not connected. -/
theorem sound_internalConnect_iff {c : Cfg} {f : Family} {res : ConnectRes} (hf : c.fault = none)
    (hs : c.s.mState ≠ .connected) (hfd : res = .ok → c.s.fd f ≠ none) :
    Sound (internalConnect res f c) ↔
      (c.s.mMode = .plain → res = .ok → c.s.fd f.other = none) := by
  have hna : ∀ c' : Cfg, c'.fault = none → c'.s.mState ≠ .connected → Sound c' :=
    fun c' h1 h2 => .of_state h2 (noAssert_none h1)
  unfold internalConnect
  cases res with
  | ok =>
    cases hm : c.s.mMode with
    | plain =>
      constructor
      · rintro h - -
        exact Classical.byContradiction fun ho =>
          (h.one rfl).not_both ((bothOpen_fd f).mpr ⟨by simpa using hfd rfl, by simpa using ho⟩)
      · intro ho
        have hopen : OneOpen (setState .connected (push [.callProcessWrite f, .closeOther f] c)).s :=
          oneOpen_of (f := f) (by simpa using hfd rfl) (by simpa using ho rfl rfl)
        exact ⟨fun _ => hopen, (noAssert_none (by simpa using hf)).1,
          (noAssert_none (by simpa using hf)).2⟩
    | tls => exact ⟨fun _ h => (by cases h), fun _ => hna _ hf (by simp)⟩
  | inProgress =>
    refine ⟨fun _ _ h => (by cases h), fun _ => ?_⟩
    dsimp only
    split
    · exact hna _ hf (by simp)
    · exact hna _ hf hs
  | failed =>
    refine ⟨fun _ _ h => (by cases h), fun _ => ?_⟩
    dsimp only
    split
    · exact hna _ hf (by simp)
    · exact hna _ (by simpa using hf) (by simpa using hs)

theorem sound_connect_iff {c : Cfg} {f : Family} {mode : Mode} {sock : Option Fd} {res : ConnectRes}
    (h : Sound c) (hf : c.fault = none) (hsock : sock = none → res = .failed) :
    Sound (connect f mode sock res c) ↔ callKeeps (.connect f mode sock res) c.s := by
  have hkeeps : callKeeps (.connect f mode sock res) c.s ↔
      (mode = .plain → res = .ok → c.s.fd f = none → c.s.mState ≠ .connected →
        c.s.fd f.other = none) := by
    cases mode <;> cases res <;> simp [callKeeps]
  rw [hkeeps]
  unfold connect
  split
  · rename_i hskip
    refine ⟨fun _ _ _ h1 h2 => ?_, fun _ => h⟩
    exact (hskip.elim (fun hx => hx h1) h2).elim
  rename_i hgo
  simp only [not_or, Classical.not_not] at hgo
  dsimp only
  rw [sound_internalConnect_iff]
  · have hfd : ∀ s : Sock, { s with mMode := mode }.fd f.other = s.fd f.other := fun s => by
      cases f <;> rfl
    cases mode <;> simp [hgo, hfd]
  · exact hf
  · cases mode <;> simp [hgo]
  · intro hok hnone
    cases hok.symm.trans (hsock (by simpa using hnone))

theorem sound_call_iff {c c' : Cfg} {op : Call} (h : Sound c) (hf : c.fault = none)
    (hs : callStep op c = some c') : Sound c' ↔ callKeeps op c.s := by
  cases op with
  | connect f mode sock res =>
    simp only [callStep] at hs
    split at hs
    · rename_i hok
      cases hs
      exact sound_connect_iff h hf hok.1
    · cases hs
  | setSocket fd f => cases hs; exact ⟨fun _ => trivial, fun _ => sound_setSocket h⟩
  | write b =>
    cases hs
    exact ⟨fun _ => trivial, fun _ => sound_write (h.same rfl rfl rfl ⟨h.write, h.read⟩)⟩
  | writeRange data => cases hs; exact ⟨fun _ => trivial, fun _ => ⟨h.one, h.write, h.read⟩⟩
  | close => cases hs; exact sound_close_iff h

/-! ## Events -/

theorem sound_processEvent_iff {c : Cfg} {f : Family} {flags : Flags} (h : Sound c)
    (hfd : c.s.fd f ≠ none) :
    Sound (processEvent f flags c) ↔ (flags.error = true → c.s.mState ≠ .connected) := by
  unfold processEvent
  split
  · rename_i he
    rw [sound_dropFd_iff h]
    exact ⟨fun hk _ hs => hfd (hk hs), fun hk hs => absurd hs (hk he)⟩
  · rename_i he
    refine ⟨fun _ he' => absurd he' he, fun _ => ?_⟩
    split
    · exact h.push _
    · exact h.push _

theorem sound_event_iff {c : Cfg} {fd : Fd} {flags : Flags} (h : Sound c) :
    Sound (socketCallback fd flags c) ↔
      (flags.error = true → c.s.mState = .connected → ¬ Mine fd c.s) := by
  unfold socketCallback
  split
  · rename_i h4
    rw [sound_processEvent_iff (f := .v4) h (by simp [Sock.fd, h4])]
    simp [Mine, h4]
  split
  · rename_i h6
    rw [sound_processEvent_iff (f := .v6) h (by simp [Sock.fd, h6])]
    simp [Mine, h6]
  · rename_i h4 h6
    exact ⟨fun _ _ _ hm => hm.elim h4 h6, fun _ => h⟩

/-! ## Blocks -/

/-- A read fails its assertion exactly when both descriptors are open. -/
theorem sound_readBlock_iff {c c' : Cfg} {again : List Frame} {a : Ans} (h : Sound c)
    (hf : c.fault = none) (hs : readBlock again c a = some c') : Sound c' ↔ ¬ BothOpen c.s := by
  unfold readBlock at hs
  split at hs
  · rename_i h4 h6
    refine ⟨fun _ hb => hb.1 h4, fun _ => ?_⟩
    split at hs
    · cases hs; exact h
    · cases hs
  · rename_i fd4 fd6 h4 h6
    split at hs
    · cases hs
      exact ⟨fun h' => absurd rfl h'.read, fun hb => absurd ⟨by simp [h4], by simp [h6]⟩ hb⟩
    · cases hs
  · rename_i hnone hboth
    have hnb : ¬ BothOpen c.s := by
      intro hx
      obtain ⟨h4, h6⟩ := hx
      obtain ⟨x, hx⟩ := Option.ne_none_iff_exists'.mp h4
      obtain ⟨y, hy⟩ := Option.ne_none_iff_exists'.mp h6
      exact hboth x y hx hy
    refine ⟨fun _ => hnb, fun _ => ?_⟩
    have hok : ∀ c₁ : Cfg, c₁.s.mState = c.s.mState → c₁.s.mFd4 = c.s.mFd4 →
        c₁.s.mFd6 = c.s.mFd6 → c₁.fault = none → Sound c₁ :=
      fun c₁ h1 h2 h3 h4 => h.same h1 h2 h3 (noAssert_none h4)
    dsimp only at hs
    split at hs
    · split at hs
      · split at hs
        · cases hs; exact hok _ rfl rfl rfl hf
        · cases hs
      · cases hs; exact sound_closeWith (by simp) hf
      · split at hs
        · cases hs
        split at hs
        · cases hs; exact h
        · cases hs; exact sound_closeWith (by simp) hf
      · cases hs
    · split at hs
      · split at hs
        · split at hs <;> cases hs <;> exact hok _ rfl rfl rfl hf
        · cases hs
      · split at hs <;> cases hs <;> exact hok _ rfl rfl rfl hf
      · split at hs <;> cases hs <;> exact hok _ rfl rfl rfl hf
      · split at hs <;> cases hs <;> exact sound_closeWith (by simp) hf
      · split at hs
        · cases hs
        split at hs
        · split at hs <;> cases hs <;> exact hok _ rfl rfl rfl hf
        · split at hs <;> cases hs <;> exact sound_closeWith (by simp) hf
      · cases hs

theorem sound_processWriteBlock {c c' : Cfg} {fd : Option Fd} {it : Nat} {a : Ans} (h : Sound c)
    (hf : c.fault = none) (hs : processWriteBlock fd it c a = some c') : Sound c' := by
  have hok : ∀ c₁ : Cfg, c₁.s.mState = c.s.mState → c₁.s.mFd4 = c.s.mFd4 →
      c₁.s.mFd6 = c.s.mFd6 → c₁.fault = none → Sound c₁ :=
    fun c₁ h1 h2 h3 h4 => h.same h1 h2 h3 (noAssert_none h4)
  unfold processWriteBlock at hs
  dsimp only at hs
  split at hs
  · split at hs
    · cases hs; exact hok _ rfl rfl rfl hf
    · cases hs
  split at hs
  · split at hs
    · cases hs; exact h.same rfl rfl rfl (by simp [NoAssert])
    · cases hs
  split at hs
  · cases hs
  split at hs
  · split at hs
    · cases hs; exact hok _ rfl rfl rfl hf
    · cases hs; exact sound_closeWith (by simp) hf
  split at hs
  · cases hs; exact hok _ rfl rfl rfl hf
  · cases hs; exact hok _ rfl rfl rfl hf

/-- The success branch closes the other descriptor before it says `Connected`. -/
theorem sound_checkConnect {c c' : Cfg} {f : Family} {st : State} {k : List Frame} {a : Ans}
    (hf : c.fault = none) (hst : c.s.mState ≠ .connected)
    (hs : checkConnect f st k c a = some c') : Sound c' := by
  obtain ⟨failed, -, ⟨-, -, rfl⟩ | ⟨-, -, rfl⟩ | ⟨-, hopen, rfl⟩⟩ := checkConnect_cases hs
  · exact .of_state (by simp) (noAssert_none (by simpa using hf))
  · exact .of_state (by simpa using hst) (noAssert_none (by simpa using hf))
  · have hone : OneOpen (setState st (push k (dropOpen f.other c))).s := by
      have hother := dropOpen_other c f.other
      rw [other_other] at hother
      exact oneOpen_of (f := f) (by simpa [hother] using hopen) (by simp)
    exact ⟨fun _ => hone, (noAssert_none (by simpa using hf)).1,
      (noAssert_none (by simpa using hf)).2⟩

theorem sound_connectTLSBlock_iff {c c' : Cfg} {fd : Option Fd} {a : Ans} (h : Sound c)
    (hf : c.fault = none) (hs : connectTLSBlock fd c a = some c') :
    Sound c' ↔ (a = .sslDone → OneOpen c.s) := by
  unfold connectTLSBlock at hs
  dsimp only at hs
  split at hs
  · cases hs
    refine ⟨fun h' _ => h'.one rfl, fun hone => ?_⟩
    exact ⟨fun _ => hone rfl, (noAssert_none (by simpa using hf)).1,
      (noAssert_none (by simpa using hf)).2⟩
  · cases hs; exact ⟨fun _ ha => (by cases ha), fun _ => h.same rfl rfl rfl ⟨h.write, h.read⟩⟩
  · cases hs; exact ⟨fun _ ha => (by cases ha), fun _ => h.same rfl rfl rfl ⟨h.write, h.read⟩⟩
  · cases hs
    exact ⟨fun _ ha => (by cases ha), fun _ => .of_state (by simp) (noAssert_none (by simpa using hf))⟩
  · cases hs
    exact ⟨fun _ ha => (by cases ha), fun _ => .of_state (by simp) (noAssert_none (by simpa using hf))⟩
  · cases hs

theorem sound_tlsWritePart {c c' : Cfg} {f : Family} {a : Ans} (h : Sound c)
    (hf : c.fault = none) (hs : tlsWritePart f c a = some c') : Sound c' := by
  unfold tlsWritePart at hs
  dsimp only at hs
  split at hs
  · rename_i hst
    exact sound_checkConnect (c := loopCall _ c) hf (by simpa using hst ▸ by decide) hs
  · obtain ⟨rfl, -⟩ := pureBlock_some hs; exact (h.loopCall _).push _
  · obtain ⟨rfl, -⟩ := pureBlock_some hs; exact (h.loopCall _).push _
  · obtain ⟨rfl, -⟩ := pureBlock_some hs; exact h.loopCall _

/-- One block: it leaves a sound configuration exactly when it meets `blockKeeps`. -/
theorem sound_exec_iff {c c' : Cfg} {fr : Frame} {a : Ans} (h : Sound c) (hf : c.fault = none)
    (hs : exec fr c a = some c') : Sound c' ↔ blockKeeps fr c.s a := by
  have htriv : ∀ {p : Prop}, p → (p ↔ True) := fun hp => ⟨fun _ => trivial, fun _ => hp⟩
  unfold exec at hs
  cases fr with
  | handler => cases hs
  | processWrite fd it => exact htriv (sound_processWriteBlock h hf hs)
  | callProcessWrite f => obtain ⟨rfl, -⟩ := pureBlock_some hs; exact htriv (h.push _)
  | writeRange data =>
    obtain ⟨rfl, -⟩ := pureBlock_some hs
    split
    · exact htriv h
    · exact htriv (sound_write (h.push _))
  | plainRead => exact sound_readBlock_iff h hf hs
  | plainWrite f =>
    dsimp only at hs
    split at hs
    · rename_i hst
      exact htriv (sound_checkConnect (c := loopCall _ c) hf (by simpa using hst ▸ by decide) hs)
    · obtain ⟨rfl, -⟩ := pureBlock_some hs; exact htriv ((h.loopCall _).push _)
  | dropFailed f => obtain ⟨rfl, -⟩ := pureBlock_some hs; exact sound_dropFd_iff h
  | closeOther f => obtain ⟨rfl, -⟩ := pureBlock_some hs; exact sound_dropOpen_iff h
  | armConnect f => obtain ⟨rfl, -⟩ := pureBlock_some hs; exact htriv (h.loopCall _)
  | close => obtain ⟨rfl, -⟩ := pureBlock_some hs; exact sound_close_iff h
  | tlsAttach f =>
    obtain ⟨rfl, -⟩ := pureBlock_some hs
    split
    · exact htriv (h.same rfl rfl rfl ⟨h.write, h.read⟩)
    · exact htriv (h.same rfl rfl rfl (by simp [NoAssert]))
  | connectTLS fd => exact sound_connectTLSBlock_iff h hf hs
  | tlsHandshaken f =>
    obtain ⟨rfl, -⟩ := pureBlock_some hs
    split
    · split
      · exact htriv (h.push _)
      · exact htriv (h.same rfl rfl rfl (by simp [NoAssert]))
    · exact htriv h
  | tlsRead f =>
    obtain ⟨rfl, -⟩ := pureBlock_some hs
    unfold tlsReadPart
    split
    · exact htriv (h.push _)
    · exact htriv (h.push _)
    · exact htriv h
  | tlsRetryRead => exact sound_readBlock_iff h hf hs
  | tlsRetryWrite f =>
    obtain ⟨rfl, -⟩ := pureBlock_some hs
    split
    · exact htriv (h.push _)
    · exact htriv h
  | tlsReadLoop =>
    dsimp only at hs
    split at hs
    · rename_i hw
      rw [sound_readBlock_iff h hf hs]
      exact ⟨fun hb _ => hb, fun hb => hb hw⟩
    · rename_i hw
      obtain ⟨rfl, -⟩ := pureBlock_some hs
      exact ⟨fun _ hw' => absurd hw' hw, fun _ => h⟩
  | tlsWrite f => exact htriv (sound_tlsWritePart h hf hs)
  | tlsDoWrite f =>
    obtain ⟨rfl, -⟩ := pureBlock_some hs
    split
    · exact htriv (h.push _)
    · exact htriv h

/-! ## Runs -/

/-- **One step.** A step of a sound configuration leads to a sound one exactly
when it meets `Keeps`. -/
theorem sound_step_iff {c c' : Cfg} {l : Label} (h : Sound c) (hs : step c l = some c') :
    Sound c' ↔ Keeps c l := by
  obtain ⟨hf, hcase⟩ := step_cases hs
  rcases hcase with ⟨op, rfl, -, hs⟩ | ⟨fd, flags, rfl, -, rfl⟩ | ⟨a, fr, k, rfl, hk, hs⟩ |
    ⟨k, rfl, -, rfl⟩
  · exact sound_call_iff h hf hs
  · exact sound_event_iff h
  · have := sound_exec_iff (c := { c with stack := k }) ⟨h.one, h.write, h.read⟩ hf hs
    simpa only [Keeps, hk] using this
  · exact ⟨fun _ => trivial, fun _ => ⟨h.one, h.write, h.read⟩⟩

def fresh : LTS Cfg Label := lts (· = Cfg.init)

theorem sound_exact : fresh.Exact Keeps Sound Sound where
  holds _ h := h
  keeps _ _ _ h hk hs := (sound_step_iff h hs).mpr hk
  breaks _ _ _ h hk hs := fun h' => hk ((sound_step_iff h hs).mp h')

theorem sound_init : Sound Cfg.init := ⟨nofun, by decide, by decide⟩

/-- **`Connected` means one open descriptor.** A run of a fresh socket, with
any calls from any handler, any events and any answers, has exactly one open
descriptor whenever `mState` is `Connected`, and never fails an assertion of
`write` or `read`, exactly when all its steps meet `Keeps`. -/
theorem connected_one_open_iff {t : List (Label × Cfg)} (ht : fresh.Trace Cfg.init t) :
    LTS.AllStates Sound Cfg.init t ↔ LTS.AllSteps Keeps Cfg.init t :=
  sound_exact.allStates_iff ht sound_init

/-! ## Two runs -/

instance (s : Sock) : Decidable (OneOpen s) := inferInstanceAs (Decidable (_ ≠ _))

instance (s : Sock) : Decidable (BothOpen s) := inferInstanceAs (Decidable (_ ∧ _))

instance (op : Call) (s : Sock) : Decidable (callKeeps op s) := by
  unfold callKeeps; split <;> infer_instance

instance (fr : Frame) (s : Sock) (a : Ans) : Decidable (blockKeeps fr s a) := by
  unfold blockKeeps; split <;> infer_instance

instance (c : Cfg) (l : Label) : Decidable (Keeps c l) := by
  unfold Keeps Mine
  split
  · infer_instance
  · infer_instance
  · split <;> infer_instance
  · infer_instance

/-- A delayed success on IPv4 while IPv6 is pending, a write from the handler
of `Connected`, a read of one byte. -/
def raced : List Label :=
  [.call (.connect .v4 .plain (some 5) .inProgress), .ret, .run .unit,
   .call (.connect .v6 .plain (some 6) .inProgress),
   .event 5 ⟨false, false, true⟩, .run (.soError false), .call (.write [1]), .run (.write 1),
   .run .unit, .ret, .run .unit, .run .unit,
   .event 5 ⟨false, true, false⟩, .run (.read [7]), .ret, .run (.readErr EAGAIN)]

theorem connected_one_open_raced : ∃ h : (LTS.record step Cfg.init raced).isSome,
    LTS.AllStates Sound Cfg.init ((LTS.record step Cfg.init raced).get h) :=
  ⟨by decide, (connected_one_open_iff (LTS.trace_record (by decide))).mpr (by decide)⟩

/-- An immediate success, the user's `close()`, a write. -/
def closedThenWrite : List Label :=
  [.call (.connect .v4 .plain (some 5) .ok), .ret, .run .unit, .run .unit, .run .unit,
   .call .close, .call (.write [1])]

theorem closedThenWrite_runs : (LTS.record step Cfg.init closedThenWrite).isSome := by decide

/-- After `close()` the socket still says `Connected` with no descriptor, and
the next `write` fails its assertion. -/
theorem connected_one_open_broken : ∃ t, fresh.Trace Cfg.init t ∧
    t.map Prod.fst = closedThenWrite ∧
    (t[5]?.map fun x => (x.2.s.mState, x.2.s.mFd4, x.2.s.mFd6)) = some (.connected, none, none) ∧
    (t.getLast?.map fun x => x.2.fault) = some (some .writeAssert) ∧
    ¬ LTS.AllStates Sound Cfg.init t := by
  refine ⟨_, LTS.trace_record closedThenWrite_runs, by decide, by decide, by decide, ?_⟩
  intro hx
  obtain ⟨-, h⟩ := hx
  exact absurd (h _ (List.getLast_mem (by decide))).write (by decide)

end Reckoning.L4.TcpConnected
