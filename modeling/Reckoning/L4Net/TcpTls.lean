import Reckoning.L4Net.TcpSocket

/-!
# Retrying a TLS write

`SSL_write` may stop with `WANT_READ` or `WANT_WRITE`. The callback is to call
it again at the next event of that kind; it looks at `writeWaitState`, where
`connectTLS` stores `SSLWriteWaitingForRead` and `SSLWriteWaitingForWrite`.
`writeTLS` stores `SSLReadWaitingForRead` and `SSLReadWaitingForWrite` there
(lib/net/TcpSocket.cpp:465-470), which no branch of the callback tests.

The ghosts of `Obs` follow one stopped write: `stopped` says what it waits for,
`due` that an event of that kind has been delivered and that its callback has
not called `SSL_write` since.

* `step_waits`: what a step does to the two wait states.
* `retries_iff`: a run keeps the wait states to their own values, and retries
  every stopped write, exactly when `SSL_write` never stops.
* `hung_of_stop`, `write_hangs`: once it has stopped, no event sends anything
  until the user calls `write`, or connects again.
-/
namespace Reckoning.L4.TcpTls
open Reckoning.L4.TcpSocket

/-! ## The property -/

inductive Want
  | read | write
  deriving DecidableEq, Repr

structure Obs where
  cfg : Cfg
  stopped : Option Want
  due : Bool
  deriving DecidableEq, Repr

/-- The block at the top of the stack calls `SSL_write`. -/
def callsWrite (c : Cfg) : Bool :=
  c.s.mMode == .tls && match c.stack with
    | .processWrite _ it :: _ => it < c.s.mPendingWrites.length
    | _ => false

/-- The answers with which `SSL_write` stops. -/
def wantOf : Ans → Option Want
  | .sslWantRead => some .read
  | .sslWantWrite => some .write
  | _ => none

def Want.among (flags : Flags) : Want → Bool
  | .read => flags.read
  | .write => flags.write

/-- An event of the kind that a stopped write waits for. -/
def matching (c : Cfg) (stopped : Option Want) : Label → Bool
  | .event fd flags => (c.s.mFd4 == some fd || c.s.mFd6 == some fd) && !flags.error &&
      stopped.any (Want.among flags)
  | _ => false

/-- The ghosts after a step to `c'`. A socket that is closed retries nothing. -/
def observe (s : Obs) (l : Label) (c' : Cfg) : Obs :=
  if c'.s.mMode ≠ .tls ∨ c'.s.mState ≠ .connected then ⟨c', none, false⟩
  else
    match l with
    | .run a => if callsWrite s.cfg then ⟨c', wantOf a, false⟩ else ⟨c', s.stopped, s.due⟩
    | l => ⟨c', s.stopped, s.due || matching s.cfg s.stopped l⟩

def obsStep (s : Obs) (l : Label) : Option Obs := (step s.cfg l).map (observe s l)

def observed : LTS Obs Label := .ofFn (· = ⟨Cfg.init, none, false⟩) obsStep

/-- The wait states, of reading and of writing. -/
def waits (s : Sock) : SSLWaitState × SSLWaitState := (s.mSsl.readWaitState, s.mSsl.writeWaitState)

def ReadWait (w : SSLWaitState) : Prop :=
  w = .notWaiting ∨ w = .readWaitingForRead ∨ w = .readWaitingForWrite

def WriteWait (w : SSLWaitState) : Prop :=
  w = .notWaiting ∨ w = .writeWaitingForRead ∨ w = .writeWaitingForWrite

/-- Each wait state holds its own values, and no callback of an event that a
stopped write waits for has returned without calling `SSL_write`. -/
structure Retries (s : Obs) : Prop where
  read : ReadWait (waits s.cfg.s).1
  write : WriteWait (waits s.cfg.s).2
  retry : s.due = true → s.cfg.stack ≠ []

/-- `SSL_write` does not stop here. -/
def Unstopped (s : Obs) : Label → Prop
  | .run a => callsWrite s.cfg = true → wantOf a = none
  | _ => True

/-! ## The wait states -/

section Waits
variable (c : Cfg) (f : Family) (st : State) (s : Sock) (v : Option Fd) (b : Bytes)

@[simp] theorem waits_setFd : waits (s.setFd f v) = waits s := by cases f <;> rfl
@[simp] theorem waits_setHandle : waits (s.setHandle f v) = waits s := by cases f <;> rfl
@[simp] theorem waits_setState : waits (setState st c).s = waits c.s := rfl

@[simp] theorem waits_initTLS : waits (initTLS s) = waits s := by
  unfold initTLS
  split <;> rfl

@[simp] theorem waits_dropFd : waits (dropFd f c).s = waits c.s := by
  unfold dropFd removeHandle
  cases h : c.s.handle f <;> cases f <;> rfl

@[simp] theorem waits_dropOpen : waits (dropOpen f c).s = waits c.s := by
  unfold dropOpen
  split
  · rfl
  · exact waits_dropFd c f

@[simp] theorem waits_close : waits (close c).s = waits c.s := by
  unfold close
  rw [waits_dropOpen, waits_dropOpen]
  cases c.s.mMode <;> rfl

@[simp] theorem waits_closeWith : waits (closeWith st c).s = waits c.s := by simp [closeWith]

@[simp] theorem sent_dropFd : (dropFd f c).out.sent = c.out.sent := by
  unfold dropFd removeHandle
  cases h : c.s.handle f <;> cases f <;> rfl

@[simp] theorem sent_close : (close c).out.sent = c.out.sent := by
  have hopen : ∀ f c, (dropOpen f c).out.sent = c.out.sent := by
    intro f c
    unfold dropOpen
    split
    · rfl
    · exact sent_dropFd c f
  unfold close
  rw [hopen, hopen]
  cases h : c.s.mMode <;> rfl

theorem sent_closeWith : (closeWith st c).out.sent = c.out.sent := sent_close c

end Waits

/-- What may become of the wait states, the stop of a write apart. -/
structure Moves (s s' : Sock) : Prop where
  read : (waits s').1 = (waits s).1 ∨ ReadWait (waits s').1
  write : (waits s').2 = (waits s).2 ∨ WriteWait (waits s').2

theorem Moves.of_eq {s s' : Sock} (h : waits s' = waits s) : Moves s s' :=
  ⟨.inl (congrArg Prod.fst h), .inl (congrArg Prod.snd h)⟩

/-- `readWaitState` and what was emitted stay as they are, and nothing below the
block that ran is touched. -/
structure Unread (c c' : Cfg) : Prop where
  read : (waits c'.s).1 = (waits c.s).1
  data : c'.out.data = c.out.data
  stack : ∃ fs, c'.stack = fs ++ c.stack

theorem Unread.trans {c c' c'' : Cfg} (h : Unread c c') (h' : Unread c' c'') : Unread c c'' where
  read := h'.read.trans h.read
  data := h'.data.trans h.data
  stack := by
    obtain ⟨fs, hfs⟩ := h.stack
    obtain ⟨fs', hfs'⟩ := h'.stack
    exact ⟨fs' ++ fs, by rw [hfs', hfs, List.append_assoc]⟩

/-- A block that neither reads nor writes. -/
structure Passes (c c' : Cfg) : Prop extends Unread c c' where
  write : (waits c'.s).2 = (waits c.s).2 ∨ WriteWait (waits c'.s).2

namespace Passes

theorem moves {c c' : Cfg} (h : Passes c c') : Moves c.s c'.s := ⟨.inl h.read, h.write⟩

theorem trans {c c' c'' : Cfg} (h : Passes c c') (h' : Passes c' c'') : Passes c c'' where
  toUnread := h.toUnread.trans h'.toUnread
  write := by
    rcases h'.write with he | hw
    · rw [he]; exact h.write
    · exact .inr hw

/-- Frames are pushed, and only other members change. -/
theorem of_eq {c c' : Cfg} (hw : waits c'.s = waits c.s) (hd : c'.out.data = c.out.data)
    (fs : List Frame) (hk : c'.stack = fs ++ c.stack) : Passes c c' :=
  ⟨⟨congrArg Prod.fst hw, hd, fs, hk⟩, .inl (congrArg Prod.snd hw)⟩

theorem refl (c : Cfg) : Passes c c := .of_eq rfl rfl [] rfl

variable (c : Cfg) (f : Family) (st : State)

theorem push (fs : List Frame) : Passes c (push fs c) := .of_eq rfl rfl fs rfl

theorem loopCall (l : LoopCall) : Passes c (loopCall l c) := .of_eq rfl rfl [] rfl

theorem dropFd : Passes c (dropFd f c) := by
  refine .of_eq (waits_dropFd c f) ?_ [] (dropFd_stack c f)
  unfold TcpSocket.dropFd removeHandle
  cases c.s.handle f <;> rfl

theorem dropOpen : Passes c (dropOpen f c) := by
  unfold TcpSocket.dropOpen
  split
  · exact .refl c
  · exact .dropFd c f

theorem close : Passes c (close c) := by
  unfold TcpSocket.close
  refine Passes.trans ?_ ((Passes.dropOpen _ .v4).trans (.dropOpen _ .v6))
  split <;> exact .of_eq rfl rfl [] rfl

theorem closeWith : Passes c (closeWith st c) :=
  (Passes.close c).trans (.of_eq rfl rfl [.handler] rfl)

theorem of_write (b : Bytes) : Passes c (TcpSocket.write b c) := by
  unfold TcpSocket.write
  dsimp only
  split
  · exact .of_eq rfl rfl [] rfl
  · split
    · exact .of_eq rfl rfl [_] rfl
    · exact .of_eq rfl rfl [] rfl
    · exact .of_eq rfl rfl [_] rfl
    · exact .of_eq rfl rfl [] rfl

end Passes

theorem passes_pureBlock {c c₁ c' : Cfg} {a : Ans} (hp : Passes c c₁)
    (h : pureBlock c₁ a = some c') : Passes c c' := by
  obtain ⟨rfl, -⟩ := pureBlock_some h
  exact hp

theorem passes_checkConnect {f : Family} {st : State} {k : List Frame} {c c' : Cfg} {a : Ans}
    (h : checkConnect f st k c a = some c') : Passes c c' := by
  obtain ⟨failed, -, ⟨-, -, rfl⟩ | ⟨-, -, rfl⟩ | ⟨-, -, rfl⟩⟩ := checkConnect_cases h
  · exact .of_eq rfl rfl [.handler, .dropFailed f] rfl
  · exact .dropFd c f
  · exact (Passes.dropOpen c f.other).trans (.of_eq rfl rfl (.handler :: k) rfl)

theorem passes_connectTLS {fd : Option Fd} {c c' : Cfg} {a : Ans}
    (h : connectTLSBlock fd c a = some c') : Passes c c' := by
  unfold connectTLSBlock at h
  split at h
  · cases h; exact ⟨⟨rfl, rfl, [_, _], rfl⟩, .inr (.inl rfl)⟩
  · cases h; exact ⟨⟨rfl, rfl, [], rfl⟩, .inr (.inr (.inr rfl))⟩
  · cases h; exact ⟨⟨rfl, rfl, [], rfl⟩, .inr (.inr (.inl rfl))⟩
  · cases h; exact .of_eq rfl rfl [_, _] rfl
  · cases h; exact .of_eq rfl rfl [_, _] rfl
  · cases h

theorem passes_tlsWritePart {f : Family} {c c' : Cfg} {a : Ans} (h : tlsWritePart f c a = some c') :
    Passes c c' := by
  have hcall := Passes.loopCall c (.updateFd (c.s.fd f) fdRead)
  unfold tlsWritePart at h
  dsimp only at h
  split at h
  · exact hcall.trans (passes_checkConnect h)
  · exact passes_pureBlock (hcall.trans (.push _ _)) h
  · exact passes_pureBlock (hcall.trans (.push _ _)) h
  · exact passes_pureBlock hcall h

/-- The frames whose block may call `read`, `write`, `SSL_read` or `SSL_write`. -/
def Frame.Transfers : Frame → Prop
  | .processWrite _ _ | .plainRead | .tlsRetryRead | .tlsReadLoop => True
  | _ => False

theorem passes_exec {fr : Frame} {c c' : Cfg} {a : Ans} (hfr : ¬ Frame.Transfers fr)
    (h : exec fr c a = some c') : Passes c c' := by
  cases fr with
  | handler => cases h
  | processWrite fd it => exact absurd trivial hfr
  | plainRead => exact absurd trivial hfr
  | tlsRetryRead => exact absurd trivial hfr
  | tlsReadLoop => exact absurd trivial hfr
  | callProcessWrite f => exact passes_pureBlock (.push _ _) h
  | writeRange data =>
    refine passes_pureBlock ?_ h
    split
    · exact .refl _
    · exact (Passes.push _ _).trans (.of_write _ _)
  | plainWrite f =>
    simp only [exec] at h
    split at h
    · exact (Passes.loopCall _ _).trans (passes_checkConnect h)
    · exact passes_pureBlock ((Passes.loopCall _ _).trans (.push _ _)) h
  | dropFailed f => exact passes_pureBlock (.dropFd _ f) h
  | closeOther f => exact passes_pureBlock (.dropOpen _ f.other) h
  | armConnect f => exact passes_pureBlock (.loopCall _ _) h
  | close => exact passes_pureBlock (.close _) h
  | tlsAttach f =>
    refine passes_pureBlock ?_ h
    split
    · exact .of_eq rfl rfl [_] rfl
    · exact .of_eq rfl rfl [] rfl
  | connectTLS fd => exact passes_connectTLS h
  | tlsHandshaken f =>
    refine passes_pureBlock ?_ h
    split
    · split
      · exact .push _ _
      · exact .of_eq rfl rfl [] rfl
    · exact .refl _
  | tlsRead f =>
    refine passes_pureBlock ?_ h
    unfold tlsReadPart
    split
    · exact .push _ _
    · exact .push _ _
    · exact .refl _
  | tlsRetryWrite f =>
    refine passes_pureBlock ?_ h
    split
    · exact .push _ _
    · exact .refl _
  | tlsWrite f => exact passes_tlsWritePart h
  | tlsDoWrite f =>
    refine passes_pureBlock ?_ h
    split
    · exact .push _ _
    · exact .refl _

theorem passes_event (fd : Fd) (flags : Flags) (c : Cfg) : Passes c (socketCallback fd flags c) := by
  have hevent : ∀ f, Passes c (processEvent f flags c) := by
    intro f
    unfold processEvent
    split
    · exact .dropFd c f
    · split <;> exact .push c _
  unfold socketCallback
  split
  · exact hevent .v4
  · split
    · exact hevent .v6
    · exact .refl c

theorem passes_internalConnect (res : ConnectRes) (f : Family) (c : Cfg) :
    Passes c (internalConnect res f c) := by
  unfold internalConnect
  split
  · split
    · exact .of_eq rfl rfl [_, _, _] rfl
    · exact .of_eq rfl rfl [_, _, _] rfl
  · split
    · exact .of_eq rfl rfl [_, _] rfl
    · exact .loopCall c _
  · split
    · exact .of_eq rfl rfl [_, _] rfl
    · exact .dropFd c f

theorem passes_call {op : Call} {c c' : Cfg} (h : callStep op c = some c') : Passes c c' := by
  cases op with
  | connect f mode sock res =>
    simp only [callStep] at h
    split at h <;> cases h
    unfold connect
    split
    · exact .refl c
    · dsimp only
      refine Passes.trans ?_ (passes_internalConnect res f _)
      refine .of_eq ?_ rfl [] rfl
      rw [loopCall_s, waits_setHandle, waits_setFd]
      cases mode
      · rfl
      · exact waits_initTLS _
  | setSocket fd f =>
    cases h
    unfold setSocket
    split
    · exact .refl c
    · exact .of_eq (by cases f <;> rfl) rfl [] rfl
  | write b =>
    cases h
    have hwritten : Passes c { c with written := c.written ++ b } := .of_eq rfl rfl [] rfl
    exact hwritten.trans (.of_write _ b)
  | writeRange data => cases h; exact .of_eq rfl rfl [_] rfl
  | close => cases h; exact .close c

/-- A read leaves `writeWaitState` alone and sends nothing; it emits, goes on
reading, or closes the socket. -/
structure ReadEffect (again : List Frame) (c c' : Cfg) : Prop where
  read : (waits c'.s).1 = (waits c.s).1 ∨ ReadWait (waits c'.s).1
  write : (waits c'.s).2 = (waits c.s).2
  sent : c'.out.sent = c.out.sent
  stack : ∃ fs, c'.stack = fs ++ c.stack ∧ ∀ fr ∈ fs, fr = .handler ∨ fr ∈ again
  state : (c'.s.mState = c.s.mState ∧ c'.s.mMode = c.s.mMode ∧ ∀ f, c'.s.fd f = c.s.fd f) ∨
    ((c'.s.mState = .closed ∨ c'.s.mState = .error) ∧ ∀ f, c'.s.fd f = none)

theorem ReadEffect.quiet {again : List Frame} {c c' : Cfg} (hs : c'.s = c.s)
    (hsent : c'.out.sent = c.out.sent) (hk : c'.stack = c.stack) : ReadEffect again c c' where
  read := .inl (by rw [hs])
  write := by rw [hs]
  sent := hsent
  stack := ⟨[], hk, nofun⟩
  state := .inl (by rw [hs]; exact ⟨rfl, rfl, fun _ => rfl⟩)

theorem ReadEffect.emits {again : List Frame} {c c₁ : Cfg} (b : Bytes) (hs : c₁.s = c.s)
    (hsent : c₁.out.sent = c.out.sent) (hk : c₁.stack = c.stack) :
    ReadEffect again c (emitData b (push again c₁)) where
  read := .inl (by rw [emitData_s, push_s, hs])
  write := by rw [emitData_s, push_s, hs]
  sent := hsent
  stack := by
    refine ⟨.handler :: again, by simp [hk], fun fr hfr => ?_⟩
    exact List.mem_cons.mp hfr
  state := .inl (by rw [emitData_s, push_s, hs]; exact ⟨rfl, rfl, fun _ => rfl⟩)

theorem ReadEffect.closes {again : List Frame} {c c₁ : Cfg} {st : State}
    (hst : st = .closed ∨ st = .error) (hs : c₁.s = c.s) (hsent : c₁.out.sent = c.out.sent)
    (hk : c₁.stack = c.stack) : ReadEffect again c (closeWith st c₁) where
  read := .inl (by rw [waits_closeWith, hs])
  write := by rw [waits_closeWith, hs]
  sent := (sent_closeWith c₁ st).trans hsent
  stack := ⟨[.handler], by simp [hk], by simp⟩
  state := .inr ⟨hst, fun f => closeWith_fd c₁ f st⟩

theorem readBlock_effect {again : List Frame} {c c' : Cfg} {a : Ans}
    (h : readBlock again c a = some c') : ReadEffect again c c' := by
  unfold readBlock at h
  split at h
  · split at h
    · cases h; exact .quiet rfl rfl rfl
    · cases h
  · split at h
    · cases h; exact .quiet rfl rfl rfl
    · cases h
  · dsimp only at h
    split at h
    · split at h
      · split at h
        · cases h; exact .emits _ rfl rfl rfl
        · cases h
      · cases h; exact .closes (.inl rfl) rfl rfl rfl
      · split at h
        · cases h
        · split at h
          · cases h; exact .quiet rfl rfl rfl
          · cases h; exact .closes (.inr rfl) rfl rfl rfl
      · cases h
    · -- `rearm` calls the loop only
      split at h
      · split at h
        · cases h; split <;> exact .emits _ rfl rfl rfl
        · cases h
      · cases h
        exact ⟨.inr (.inr (.inl rfl)), rfl, rfl, ⟨[], rfl, nofun⟩,
          .inl ⟨rfl, rfl, fun f => by cases f <;> rfl⟩⟩
      · cases h
        exact ⟨.inr (.inr (.inr rfl)), rfl, rfl, ⟨[], rfl, nofun⟩,
          .inl ⟨rfl, rfl, fun f => by cases f <;> rfl⟩⟩
      · cases h; split <;> exact .closes (.inl rfl) rfl rfl rfl
      · split at h
        · cases h
        · split at h
          · cases h; split <;> exact .quiet rfl rfl rfl
          · cases h; split <;> exact .closes (.inr rfl) rfl rfl rfl
      · cases h

theorem moves_readBlock {again : List Frame} {c c' : Cfg} {a : Ans}
    (h : readBlock again c a = some c') : Moves c.s c'.s :=
  ⟨(readBlock_effect h).read, .inl (readBlock_effect h).write⟩

/-- `writeTLS` stores in `writeWaitState` what belongs into `readWaitState`. -/
theorem moves_processWrite {fd : Option Fd} {it : Nat} {c c' : Cfg} {a : Ans}
    (h : processWriteBlock fd it c a = some c') :
    (wantOf a = none ∧ Moves c.s c'.s) ∨
    (c.s.mMode = .tls ∧ it < c.s.mPendingWrites.length ∧ wantOf a ≠ none ∧
      c'.s.mState = c.s.mState ∧ c'.s.mMode = c.s.mMode ∧ c'.stack = c.stack ∧
      ∃ w, (w = .readWaitingForRead ∨ w = .readWaitingForWrite) ∧
        waits c'.s = ((waits c.s).1, w)) := by
  unfold processWriteBlock at h
  split at h
  · split at h
    · rename_i ha
      subst ha
      cases h
      exact .inl ⟨rfl, .of_eq rfl⟩
    · cases h
  · rename_i b hb
    split at h
    · split at h
      · rename_i ha
        subst ha
        cases h
        exact .inl ⟨rfl, .of_eq rfl⟩
      · cases h
    · split at h
      · cases h
      · rename_i e ssl hres
        have hlt := (List.getElem?_eq_some_iff.mp hb).1
        -- what follows the answer leaves the `SSL` state of the answer
        have hssl : waits c'.s = (ssl.readWaitState, ssl.writeWaitState) := by
          dsimp only at h
          split at h
          · split at h
            · cases h; rfl
            · cases h; exact waits_closeWith _ _
          · split at h
            · cases h; rfl
            · cases h; rfl
        unfold writeRes at hres
        split at hres
        · split at hres
          · cases hres; exact .inl ⟨rfl, .of_eq hssl⟩
          · cases hres
        · split at hres
          · cases hres
          · cases hres; exact .inl ⟨rfl, .of_eq hssl⟩
        · split at hres
          · cases hres; exact .inl ⟨rfl, .of_eq hssl⟩
          · cases hres
        · rename_i hm
          cases hres
          cases h
          exact .inr ⟨hm, hlt, Option.some_ne_none _, rfl, rfl, rfl,
            .readWaitingForRead, .inl rfl, hssl⟩
        · rename_i hm
          cases hres
          cases h
          exact .inr ⟨hm, hlt, Option.some_ne_none _, rfl, rfl, rfl,
            .readWaitingForWrite, .inr rfl, hssl⟩
        · split at hres
          · cases hres
          · cases hres; exact .inl ⟨rfl, .of_eq hssl⟩
        · cases hres

/-- Every block but the one of `processWrite`. -/
theorem moves_exec {fr : Frame} {c c' : Cfg} {a : Ans} (hfr : ∀ fd it, fr ≠ .processWrite fd it)
    (h : exec fr c a = some c') : Moves c.s c'.s := by
  cases fr with
  | processWrite fd it => exact absurd rfl (hfr fd it)
  | plainRead => exact moves_readBlock h
  | tlsRetryRead => exact moves_readBlock h
  | tlsReadLoop =>
    simp only [exec] at h
    split at h
    · exact moves_readBlock h
    · exact (passes_pureBlock (.refl c) h).moves
  | _ => exact (passes_exec (by simp [Frame.Transfers]) h).moves

/-- **What a step does to the wait states**: it leaves each within its own
values, unless `SSL_write` stops, which leaves `writeWaitState` outside of them. -/
theorem step_waits {c c' : Cfg} {l : Label} (h : step c l = some c') :
    ((∀ a, l = .run a → callsWrite c = true → wantOf a = none) ∧ Moves c.s c'.s) ∨
    (∃ a, l = .run a ∧ callsWrite c = true ∧ wantOf a ≠ none ∧ ¬ WriteWait (waits c'.s).2) := by
  obtain ⟨-, hcase⟩ := step_cases h
  rcases hcase with ⟨op, rfl, -, hs⟩ | ⟨fd, flags, rfl, -, rfl⟩ | ⟨a, fr, k, rfl, hk, hs⟩ |
    ⟨k, rfl, -, rfl⟩
  · exact .inl ⟨nofun, (passes_call hs).moves⟩
  · exact .inl ⟨nofun, (passes_event fd flags c).moves⟩
  · by_cases hfr : ∃ fd it, fr = .processWrite fd it
    · obtain ⟨fd, it, rfl⟩ := hfr
      rcases moves_processWrite hs with ⟨hw, hm⟩ | ⟨hm, hlt, hw, -, -, -, w, hww, hws⟩
      · exact .inl ⟨fun a' ha _ => by cases ha; exact hw, hm⟩
      · refine .inr ⟨a, rfl, ?_, hw, ?_⟩
        · simp only [callsWrite, hk]
          simpa using ⟨hm, hlt⟩
        · rw [hws]
          rcases hww with rfl | rfl <;> simp [WriteWait]
    · have hno : callsWrite c = false := by
        simp only [callsWrite, hk]
        split
        · rename_i fd it _ heq
          cases heq
          exact absurd ⟨fd, it, rfl⟩ hfr
        · exact Bool.and_false _
      refine .inl ⟨fun a' _ hc => absurd (hno.symm.trans hc) nofun, ?_⟩
      have hm := moves_exec (fun fd it he => hfr ⟨fd, it, he⟩) hs
      exact hm
  · exact .inl ⟨nofun, .of_eq rfl⟩

/-! ## Runs -/

structure Inv (s : Obs) : Prop where
  read : ReadWait (waits s.cfg.s).1
  write : WriteWait (waits s.cfg.s).2
  stopped : s.stopped = none
  due : s.due = false

/-- While nothing has stopped, the ghosts stay as they are. -/
theorem observe_quiet {s : Obs} {l : Label} (c' : Cfg) (h : Inv s) (hu : Unstopped s l) :
    (observe s l c').stopped = none ∧ (observe s l c').due = false := by
  unfold observe
  split
  · exact ⟨rfl, rfl⟩
  · cases l with
    | run a =>
      dsimp only
      split
      · rename_i hc
        exact ⟨hu hc, rfl⟩
      · exact ⟨h.stopped, h.due⟩
    | event fd flags => simp [matching, h.stopped, h.due]
    | call op => exact ⟨h.stopped, by simp [matching, h.due]⟩
    | ret => exact ⟨h.stopped, by simp [matching, h.due]⟩

theorem observe_cfg (s : Obs) (l : Label) (c' : Cfg) : (observe s l c').cfg = c' := by
  unfold observe
  split
  · rfl
  · split
    · split <;> rfl
    · rfl

/-- **Exactly when every stopped write is retried.** -/
theorem retries_iff {t : List (Label × Obs)} (ht : observed.Trace ⟨Cfg.init, none, false⟩ t) :
    LTS.AllStates Retries ⟨Cfg.init, none, false⟩ t ↔
      LTS.AllSteps Unstopped ⟨Cfg.init, none, false⟩ t := by
  have hexact : observed.Exact Unstopped Inv Retries :=
    { holds := fun s h => ⟨h.read, h.write, fun hd => absurd (h.due.symm.trans hd) nofun⟩
      keeps := fun s l s' h hu hs => by
        obtain ⟨c', hc, rfl⟩ := Option.map_eq_some_iff.mp hs
        obtain ⟨hstop, hdue⟩ := observe_quiet c' h hu
        rcases step_waits hc with ⟨-, hm⟩ | ⟨a, rfl, hcw, hw, -⟩
        · refine ⟨?_, ?_, hstop, hdue⟩
          · rw [observe_cfg]
            exact hm.read.elim (fun he => he ▸ h.read) id
          · rw [observe_cfg]
            exact hm.write.elim (fun he => he ▸ h.write) id
        · exact absurd (hu hcw) hw
      breaks := fun s l s' h hu hs => by
        obtain ⟨c', hc, rfl⟩ := Option.map_eq_some_iff.mp hs
        rcases step_waits hc with ⟨hno, -⟩ | ⟨a, rfl, -, -, hw⟩
        · refine absurd ?_ hu
          cases l with
          | run a => exact hno a rfl
          | _ => exact trivial
        · intro hr
          have := hr.write
          rw [observe_cfg] at this
          exact hw this }
  exact hexact.allStates_iff ht ⟨.inl rfl, .inl rfl, rfl, rfl⟩

/-! ### A write that has stopped -/

/-- A TLS socket that is connected; after a read event the kernel has nothing,
and `SSL_write` stops with `WANT_READ`, which the next read event does not heal. -/
def stopsOnce : List Label :=
  [.call (.connect .v4 .tls (some 5) .ok), .ret, .run .unit, .run .sslDone, .ret, .run .unit,
   .run .unit, .call (.write [1]), .run .sslWantRead, .event 5 fdRead, .run .unit, .run .unit,
   .run .sslWantRead]

theorem stopsOnce_runs : (LTS.record obsStep ⟨Cfg.init, none, false⟩ stopsOnce).isSome := by decide

/-- The read event is over, and `SSL_write` was not called. -/
theorem write_not_retried : ¬ ∀ t, observed.Trace ⟨Cfg.init, none, false⟩ t →
    LTS.AllStates Retries ⟨Cfg.init, none, false⟩ t := by
  intro h
  have hretry := (h _ (LTS.trace_record stopsOnce_runs)).last.retry
  exact hretry (by decide) (by decide)

theorem retries_iff_stopsOnce :
    LTS.AllStates Retries ⟨Cfg.init, none, false⟩
        ((LTS.record obsStep ⟨Cfg.init, none, false⟩ stopsOnce).get stopsOnce_runs) ↔
      LTS.AllSteps Unstopped ⟨Cfg.init, none, false⟩
        ((LTS.record obsStep ⟨Cfg.init, none, false⟩ stopsOnce).get stopsOnce_runs) :=
  retries_iff (LTS.trace_record stopsOnce_runs)

/-! ### It hangs -/

/-- A frame of a read or write event of a connected TLS socket. -/
def Frame.OfEvent : Frame → Prop
  | .handler | .tlsRead _ | .tlsRetryRead | .tlsRetryWrite _ | .tlsReadLoop | .tlsWrite _
  | .tlsDoWrite _ => True
  | _ => False

/-- A write has stopped, and what is left to do belongs to events. -/
structure Hung (c : Cfg) : Prop where
  wait : (waits c.s).2 = .readWaitingForRead ∨ (waits c.s).2 = .readWaitingForWrite
  state : c.s.mState = .connected ∨ c.s.mState = .closed ∨ c.s.mState = .error
  mode : c.s.mMode = .tls ∨ ∀ f, c.s.fd f = none
  stack : ∀ fr ∈ c.stack, Frame.OfEvent fr

/-- The loop, the kernel and OpenSSL, handlers that return, and `close`. -/
def Label.Silent : Label → Prop
  | .call .close | .event _ _ | .run _ | .ret => True
  | _ => False

theorem Hung.of_same {c c' : Cfg} (h : Hung c) (hs : c'.s = c.s)
    (hk : ∀ fr ∈ c'.stack, Frame.OfEvent fr) : Hung c' :=
  ⟨hs ▸ h.wait, hs ▸ h.state, hs ▸ h.mode, hk⟩

/-- Other frames of an event in place of the one on top. -/
theorem Hung.pushes {c c₁ : Cfg} {fr : Frame} {k fs : List Frame} (h : Hung c)
    (hk : c.stack = fr :: k) (hs : c₁.s = c.s) (hk₁ : c₁.stack = fs ++ k)
    (hfs : ∀ fr ∈ fs, Frame.OfEvent fr) : Hung c₁ := by
  refine h.of_same hs fun fr' hfr => ?_
  rw [hk₁] at hfr
  rcases List.mem_append.mp hfr with hfr | hfr
  · exact hfs fr' hfr
  · exact h.stack fr' (hk ▸ List.mem_cons_of_mem _ hfr)

theorem Hung.pops {c c₁ : Cfg} {fr : Frame} {k : List Frame} (h : Hung c) (hk : c.stack = fr :: k)
    (hs : c₁.s = c.s) (hk₁ : c₁.stack = k) : Hung c₁ :=
  h.of_same hs fun fr' hfr => h.stack fr' (hk ▸ List.mem_cons_of_mem _ (hk₁ ▸ hfr))

theorem Hung.reads {c c' : Cfg} {again : List Frame} {fr : Frame} {k : List Frame} {a : Ans}
    (h : Hung c) (hk : c.stack = fr :: k) (hagain : ∀ fr ∈ again, Frame.OfEvent fr)
    (hs : readBlock again { c with stack := k } a = some c') :
    Hung c' ∧ c'.out.sent = c.out.sent := by
  have he := readBlock_effect hs
  refine ⟨⟨?_, ?_, ?_, ?_⟩, he.sent⟩
  · rw [he.write]; exact h.wait
  · rcases he.state with ⟨hst, -⟩ | ⟨hst, -⟩
    · rw [hst]; exact h.state
    · exact .inr hst
  · rcases he.state with ⟨-, hm, hfd⟩ | ⟨-, hfd⟩
    · exact h.mode.imp hm.trans fun hnone f => (hfd f).trans (hnone f)
    · exact .inr hfd
  · obtain ⟨fs, hk', hfs⟩ := he.stack
    intro fr' hfr
    rw [hk'] at hfr
    rcases List.mem_append.mp hfr with hfr | hfr
    · rcases hfs fr' hfr with rfl | hfr
      · exact trivial
      · exact hagain fr' hfr
    · exact h.stack fr' (hk ▸ List.mem_cons_of_mem _ hfr)

theorem Hung.exec {c c' : Cfg} {fr : Frame} {k : List Frame} {a : Ans} (h : Hung c)
    (hk : c.stack = fr :: k) (hs : exec fr { c with stack := k } a = some c') :
    Hung c' ∧ c'.out.sent = c.out.sent := by
  have hfr : Frame.OfEvent fr := h.stack fr (hk ▸ List.mem_cons_self)
  match fr, hfr with
  | .handler, _ => cases hs
  | .tlsRead f, _ =>
    obtain ⟨rfl, -⟩ := pureBlock_some hs
    unfold tlsReadPart
    split
    · rename_i hst
      exact absurd h.state (by simp [show c.s.mState = .handshaking from hst])
    · have hrest : ∀ fr ∈ [.tlsRetryWrite f, .tlsReadLoop], Frame.OfEvent fr := by
        simp [Frame.OfEvent]
      refine ⟨h.pushes hk rfl rfl ?_, rfl⟩
      split
      · exact List.forall_mem_cons.mpr ⟨trivial, hrest⟩
      · exact hrest
    · exact ⟨h.pops hk rfl rfl, rfl⟩
  | .tlsRetryRead, _ => exact h.reads hk (by simp) hs
  | .tlsRetryWrite f, _ =>
    obtain ⟨rfl, -⟩ := pureBlock_some hs
    rw [if_neg]
    · exact ⟨h.pops hk rfl rfl, rfl⟩
    · rcases h.wait with hw | hw <;> simp [show c.s.mSsl.writeWaitState = _ from hw]
  | .tlsReadLoop, _ =>
    simp only [TcpSocket.exec] at hs
    split at hs
    · exact h.reads hk (by simp [Frame.OfEvent]) hs
    · obtain ⟨rfl, -⟩ := pureBlock_some hs
      exact ⟨h.pops hk rfl rfl, rfl⟩
  | .tlsWrite f, _ =>
    unfold TcpSocket.exec tlsWritePart at hs
    dsimp only at hs
    split at hs
    · rename_i hst
      exact absurd h.state (by simp [show c.s.mState = .connecting from hst])
    · rename_i hst
      exact absurd h.state (by simp [show c.s.mState = .handshaking from hst])
    · obtain ⟨rfl, -⟩ := pureBlock_some hs
      have hrest : ∀ fr ∈ [.tlsDoWrite f], Frame.OfEvent fr := by simp [Frame.OfEvent]
      refine ⟨h.pushes hk rfl rfl ?_, rfl⟩
      split
      · exact List.forall_mem_cons.mpr ⟨trivial, hrest⟩
      · exact hrest
    · obtain ⟨rfl, -⟩ := pureBlock_some hs
      exact ⟨h.pops hk rfl rfl, rfl⟩
  | .tlsDoWrite f, _ =>
    obtain ⟨rfl, -⟩ := pureBlock_some hs
    rw [if_neg]
    · exact ⟨h.pops hk rfl rfl, rfl⟩
    · rcases h.wait with hw | hw <;> simp [show c.s.mSsl.writeWaitState = _ from hw]

theorem Hung.event {c : Cfg} (h : Hung c) (hk : c.stack = []) (fd : Fd) (flags : Flags) :
    Hung (socketCallback fd flags c) ∧ (socketCallback fd flags c).out.sent = c.out.sent := by
  have hdrop : ∀ f, c.s.mMode = .tls → Hung (dropFd f c) := by
    intro f hm
    refine ⟨by rw [waits_dropFd]; exact h.wait, by rw [dropFd_mState]; exact h.state,
      .inl (by rw [dropFd_mMode]; exact hm), ?_⟩
    rw [dropFd_stack]
    exact h.stack
  have hpart : ∀ f, c.s.mMode = .tls → Hung (processEvent f flags c) ∧
      (processEvent f flags c).out.sent = c.out.sent := by
    intro f hm
    unfold processEvent
    split
    · exact ⟨hdrop f hm, sent_dropFd c f⟩
    · rw [hm]
      refine ⟨h.of_same rfl ?_, rfl⟩
      simp only [push_stack, hk, List.append_nil]
      cases flags.read <;> cases flags.write <;> simp [Frame.OfEvent]
  rcases h.mode with hm | hnone
  · unfold socketCallback
    split
    · exact hpart .v4 hm
    · split
      · exact hpart .v6 hm
      · exact ⟨h, rfl⟩
  · have h4 : c.s.mFd4 = none := hnone .v4
    have h6 : c.s.mFd6 = none := hnone .v6
    simp only [socketCallback, h4, h6, reduceCtorEq, if_false]
    exact ⟨h, trivial⟩

theorem Hung.closed {c : Cfg} (h : Hung c) : Hung (close c) := by
  refine ⟨by rw [waits_close]; exact h.wait, by rw [close_mState]; exact h.state,
    .inr fun f => close_fd c f, ?_⟩
  rw [close_stack]
  exact h.stack

/-- **A stopped write hangs**: no event, no return of a handler and no `close`
has anything sent. -/
theorem write_hangs {init : Cfg → Prop} {c c' : Cfg} {ls : List Label}
    (h : (lts init).Run c ls c') (hung : Hung c) (hls : ∀ l ∈ ls, Label.Silent l) :
    Hung c' ∧ c'.out.sent = c.out.sent := by
  induction h with
  | nil => exact ⟨hung, rfl⟩
  | @cons c c₁ c' l ls hs _ ih =>
    obtain ⟨hl, hrest⟩ := List.forall_mem_cons.mp hls
    have hstep : Hung c₁ ∧ c₁.out.sent = c.out.sent := by
      rcases (step_cases hs).2 with ⟨op, rfl, -, hcall⟩ | ⟨fd, flags, rfl, hk, rfl⟩ |
        ⟨a, fr, k, rfl, hk, hexec⟩ | ⟨k, rfl, hk, rfl⟩
      · match op, hl, hcall with
        | .close, _, hcall => cases hcall; exact ⟨hung.closed, sent_close c⟩
      · exact hung.event hk fd flags
      · exact hung.exec hk hexec
      · exact ⟨hung.pops hk rfl rfl, rfl⟩
    obtain ⟨hhung, hsent⟩ := ih hstep.1 hrest
    exact ⟨hhung, hsent.trans hstep.2⟩

/-- A write that stops in a connected socket, under frames of an event, hangs. -/
theorem hung_of_stop {c c' : Cfg} {fd : Option Fd} {it : Nat} {k : List Frame} {a : Ans}
    (hk : c.stack = .processWrite fd it :: k) (hst : c.s.mState = .connected)
    (hm : c.s.mMode = .tls) (hev : ∀ fr ∈ k, Frame.OfEvent fr) (hw : wantOf a ≠ none)
    (hs : step c (.run a) = some c') : Hung c' := by
  rcases (step_cases hs).2 with ⟨_, hl, -⟩ | ⟨_, _, hl, -⟩ | ⟨a', fr', k', hl, hk', hexec⟩ |
    ⟨_, hl, -⟩ <;> cases hl
  cases hk.symm.trans hk'
  rcases moves_processWrite hexec with ⟨hnone, -⟩ | ⟨-, -, -, hst', hm', hk', w, hww, hws⟩
  · exact absurd hnone hw
  · refine ⟨?_, .inl (hst'.trans hst), .inl (hm'.trans hm), ?_⟩
    · rw [hws]
      exact hww
    · rw [hk']
      exact hev

end Reckoning.L4.TcpTls
