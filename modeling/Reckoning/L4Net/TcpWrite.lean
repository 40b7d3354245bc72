import Reckoning.L4Net.TcpSocket
import Reckoning.Core.ByteQueue

/-!
# The write stream of a connected `TcpSocket`

One connected socket in Plain mode: any sequence of `write` calls (made by
any code, handlers of `onData` included), write and read events, and answers
of the kernel (`::write` takes a positive count or says `EAGAIN`, `::read`
gives data or says `EAGAIN`).

`StreamOk` is the intended property: what the kernel has accepted is a prefix
of what was written, and between two runs of `processWrite` the pending list
and the offset denote the rest.

It is not an invariant: when `EAGAIN` arrives after `processWrite` has already
finished some buffer, the early return at lib/net/TcpSocket.cpp:505 leaves the
finished buffers in `mPendingWrites`, and the next `processWrite` sends them
again (`resent`). `write_stream_iff` says that this is the only way to lose the
property: a run keeps it throughout exactly when every `EAGAIN` arrives before
the current `processWrite` has finished a buffer (`AgainAtFront`).
-/
namespace Reckoning.L4.TcpWrite
open Reckoning.L4.TcpSocket
open Reckoning.ByteQueue

/-- A freshly connected socket with nothing written. -/
structure Connected (c : Cfg) : Prop where
  mode : c.s.mMode = .plain
  state : c.s.mState = .connected
  one : (c.s.mFd4 = none) ≠ (c.s.mFd6 = none)
  pending : c.s.mPendingWrites = []
  offset : c.s.mWriteOffset = 0
  sent : c.out.sent = []
  stack : c.stack = []
  written : c.written = []
  fault : c.fault = none

/-- The labels of a connected socket that only reads and writes. -/
def PlainIO : Label → Prop
  | .call (.write _) | .call (.writeRange _) => True
  | .call _ => False
  | .event _ flags => flags.error = false
  | .run (.writeErr errno) | .run (.readErr errno) => errno = EAGAIN
  | .run .readEof => False
  | .run _ => True
  | .ret => True

def io : LTS Cfg Label := (lts Connected).guard fun _ l => PlainIO l

/-! ## The property -/

/-- `processWrite` is running. -/
def Writing (k : List Frame) : Prop := ∃ fd it, .processWrite fd it ∈ k

/-- The bytes that running `write(data, bytes)` calls have yet to queue. -/
def unqueued : List Frame → Bytes
  | [] => []
  | .writeRange data :: k => data ++ unqueued k
  | _ :: k => unqueued k

/-- No byte lost, repeated or reordered; the queue is what is left. -/
def StreamOk (c : Cfg) : Prop :=
  c.fault = none ∧ c.out.sent <+: c.written ∧
  (¬ Writing c.stack →
    c.out.sent ++ remaining c.s.mWriteOffset c.s.mPendingWrites ++ unqueued c.stack = c.written)

/-- The buffers that the `processWrite` on top has finished. -/
def finished : List Frame → Nat
  | .processWrite _ it :: _ => it
  | _ => 0

/-- `EAGAIN` comes before this `processWrite` has finished a buffer (an empty
one in front, with nothing sent after it, does not count). -/
def AgainAtFront (c : Cfg) : Label → Prop
  | .run (.writeErr _) => finished c.stack = 0 ∨
      (c.s.mWriteOffset = 0 ∧ (c.s.mPendingWrites.take (finished c.stack)).flatten = [])
  | _ => True

/-! ## Invariant -/

/-- Frames of this system that touch neither the queue nor the sent bytes. -/
def Calm : Frame → Prop
  | .handler | .callProcessWrite _ | .plainRead | .plainWrite _ => True
  | _ => False

/-- The stack is a running `processWrite`, below it a running range write, and
calm frames under both; `it` is the iterator and `d` what the range has left. -/
inductive Shape : List Frame → Nat → Bytes → Prop
  | calm {k : List Frame} (hk : ∀ fr ∈ k, Calm fr) : Shape k 0 []
  | range {k : List Frame} (hk : ∀ fr ∈ k, Calm fr) (d : Bytes) : Shape (.writeRange d :: k) 0 d
  | write {k : List Frame} (hk : ∀ fr ∈ k, Calm fr) (fd : Option Fd) (it : Nat) :
      Shape (.processWrite fd it :: k) it []
  | writeRange {k : List Frame} (hk : ∀ fr ∈ k, Calm fr) (fd : Option Fd) (it : Nat) (d : Bytes) :
      Shape (.processWrite fd it :: .writeRange d :: k) it d

structure Inv (c : Cfg) : Prop where
  mode : c.s.mMode = .plain
  state : c.s.mState = .connected
  one : (c.s.mFd4 = none) ≠ (c.s.mFd6 = none)
  fault : c.fault = none
  queue : ∃ it d, Shape c.stack it d ∧ it ≤ c.s.mPendingWrites.length ∧
    OffOk c.s.mWriteOffset (c.s.mPendingWrites.drop it) ∧
    c.out.sent ++ remaining c.s.mWriteOffset (c.s.mPendingWrites.drop it) ++ d = c.written

theorem unqueued_calm : ∀ {k : List Frame}, (∀ fr ∈ k, Calm fr) → unqueued k = []
  | [], _ => rfl
  | fr :: k, h => by
    have ih := unqueued_calm fun x hx => h x (List.mem_cons_of_mem _ hx)
    have hc := h fr List.mem_cons_self
    cases fr <;> first | exact hc.elim | exact ih

theorem not_writing_calm {k : List Frame} (h : ∀ fr ∈ k, Calm fr) : ¬ Writing k := by
  intro hx
  obtain ⟨fd, it, hm⟩ := hx
  exact h _ hm

theorem Shape.unqueued {k : List Frame} {it : Nat} {d : Bytes} (h : Shape k it d) :
    unqueued k = d := by
  cases h with
  | calm hk => exact unqueued_calm hk
  | range hk d => simp [TcpWrite.unqueued, unqueued_calm hk]
  | write hk fd it => simpa [TcpWrite.unqueued] using unqueued_calm hk
  | writeRange hk fd it d => simp [TcpWrite.unqueued, unqueued_calm hk]

/-- Outside `processWrite` the iterator is at the front. -/
theorem Shape.it_zero {k : List Frame} {it : Nat} {d : Bytes} (h : Shape k it d)
    (hw : ¬ Writing k) : it = 0 := by
  cases h with
  | calm | range => rfl
  | write hk fd it => exact absurd ⟨_, it, List.mem_cons_self⟩ hw
  | writeRange hk fd it d => exact absurd ⟨_, it, List.mem_cons_self⟩ hw

/-- User code runs on a calm stack. -/
theorem Shape.of_user {k : List Frame} {it : Nat} {d : Bytes} (h : Shape k it d) {c : Cfg}
    (hc : c.stack = k) (hu : userTurn c = true) : (∀ fr ∈ k, Calm fr) ∧ it = 0 ∧ d = [] := by
  subst hc
  generalize hk : c.stack = k at h
  cases h with
  | calm hk => exact ⟨hk, rfl, rfl⟩
  | range | write | writeRange => simp [userTurn, hk] at hu

theorem Inv.streamOk {c : Cfg} (h : Inv c) : StreamOk c := by
  obtain ⟨it, d, hs, -, -, hq⟩ := h.queue
  refine ⟨h.fault, ?_, fun hw => ?_⟩
  · rw [← hq, List.append_assoc]; exact List.prefix_append _ _
  · have h0 := hs.it_zero hw
    subst h0
    simpa [hs.unqueued] using hq

/-! ## One step -/

/-- A step that leaves the queue, the mode and the descriptors alone keeps the
invariant as long as the new stack still has the old shape. -/
theorem Inv.frame {c c' : Cfg} (h : Inv c) (hs : c'.s = c.s) (hf : c'.fault = none)
    (hw : c'.written = c.written) (ho : c'.out.sent = c.out.sent)
    (hk : ∀ it d, Shape c.stack it d → Shape c'.stack it d) : Inv c' := by
  obtain ⟨it, d, hsh, hle, hoff, hq⟩ := h.queue
  refine ⟨by rw [hs]; exact h.mode, by rw [hs]; exact h.state, by rw [hs]; exact h.one, hf, ?_⟩
  exact ⟨it, d, hk it d hsh, by rw [hs]; exact hle, by rw [hs]; exact hoff,
    by rw [hs, hw, ho]; exact hq⟩

/-- A connected socket starts `processWrite` right after queueing. -/
theorem write_eq {c : Cfg} (hst : c.s.mState = .connected)
    (h1 : (c.s.mFd4 = none) ≠ (c.s.mFd6 = none)) (b : Bytes) :
    ∃ fd, write b c = push [.processWrite fd 0]
      { c with s := { c.s with mPendingWrites := c.s.mPendingWrites ++ [b] } } := by
  unfold write
  cases h4 : c.s.mFd4 with
  | none =>
    cases h6 : c.s.mFd6 with
    | none => simp [h4, h6] at h1
    | some fd => exact ⟨some fd, by simp [hst, h4, h6]⟩
  | some fd =>
    cases h6 : c.s.mFd6 with
    | none => exact ⟨some fd, by simp [hst, h4, h6]⟩
    | some fd' => simp [h4, h6] at h1

/-- Queueing `b` behind the calm part `k` of the stack, with `d` left of a
range: the stream grows by `b`. -/
theorem inv_write {c c₀ : Cfg} (h : Inv c₀) {b d : Bytes} {k : List Frame} {fr : List Frame}
    (hk : ∀ x ∈ k, Calm x) (hfr : fr = [] ∧ d = [] ∨ fr = [.writeRange d])
    (hs : c.s = c₀.s) (hf : c.fault = none) (ho : c.out.sent = c₀.out.sent)
    (hstk : c.stack = fr ++ k) (hoff : OffOk c₀.s.mWriteOffset c₀.s.mPendingWrites)
    (hw : c₀.out.sent ++ remaining c₀.s.mWriteOffset c₀.s.mPendingWrites ++ (b ++ d) = c.written) :
    Inv (write b c) := by
  obtain ⟨fd, he⟩ := write_eq (c := c) (by rw [hs]; exact h.state) (by rw [hs]; exact h.one) b
  rw [he]
  refine ⟨by simpa [push, hs] using h.mode, by simpa [push, hs] using h.state,
    by simpa [push, hs] using h.one, hf, 0, d, ?_, Nat.zero_le _, ?_, ?_⟩
  · rcases hfr with ⟨rfl, rfl⟩ | rfl
    · simpa [push, hstk] using Shape.write hk fd 0
    · simpa [push, hstk] using Shape.writeRange hk fd 0 d
  · simpa [push, hs] using hoff.append [b]
  · simp only [push, hs, List.drop_zero, remaining_append hoff, ho]
    rw [← hw]; simp

theorem calm_tail {fr : Frame} {k : List Frame} (h : ∀ x ∈ fr :: k, Calm x) : ∀ x ∈ k, Calm x :=
  fun x hx => h x (List.mem_cons_of_mem _ hx)

theorem calm_cons {fr : Frame} {k : List Frame} (hf : Calm fr) (h : ∀ x ∈ k, Calm x) :
    ∀ x ∈ fr :: k, Calm x := by
  intro x hx
  rcases List.mem_cons.mp hx with rfl | hx
  · exact hf
  · exact h x hx

theorem inv_call {c c' : Cfg} {op : Call} (h : Inv c) (hd : PlainIO (.call op))
    (hu : userTurn c = true) (hs : callStep op c = some c') : Inv c' := by
  obtain ⟨it, d, hsh, -, hoff, hq⟩ := h.queue
  obtain ⟨hk, rfl, rfl⟩ := hsh.of_user rfl hu
  rw [List.drop_zero] at hoff hq
  cases op with
  | write b =>
    simp only [callStep, Option.some.injEq] at hs; subst hs
    refine inv_write h (k := c.stack) hk (Or.inl ⟨rfl, rfl⟩) rfl h.fault rfl rfl hoff ?_
    simp only [← hq, List.append_nil, List.append_assoc]
  | writeRange data =>
    simp only [callStep, Option.some.injEq] at hs; subst hs
    refine ⟨h.mode, h.state, h.one, h.fault, 0, data, .range hk data, Nat.zero_le _, hoff, ?_⟩
    simp only [push, List.drop_zero, ← hq, List.append_nil]
  | connect | setSocket | close => exact hd.elim

theorem inv_event {c : Cfg} {fd : Fd} {flags : Flags} (h : Inv c) (hd : flags.error = false)
    (he : c.stack = []) : Inv (socketCallback fd flags c) := by
  have key : ∀ f, Inv (processEvent f flags c) := by
    intro f
    unfold processEvent
    simp only [hd, Bool.false_eq_true, if_false, h.mode]
    refine h.frame rfl h.fault rfl rfl fun it d hsh => ?_
    rw [he] at hsh
    cases hsh
    refine .calm fun x hx => ?_
    simp only [push, he, List.append_nil, List.mem_append] at hx
    rcases hx with hx | hx <;> split at hx <;> simp at hx <;> subst hx <;> trivial
  unfold socketCallback
  split
  · exact key _
  · split
    · exact key _
    · exact h

/-- Below a running `processWrite` is the range, if any, and calm frames. -/
theorem Shape.below {k : List Frame} {fd : Option Fd} {it it' : Nat} {d : Bytes}
    (h : Shape (.processWrite fd it :: k) it' d) :
    it' = it ∧ Shape k 0 d ∧ ∀ j, Shape (.processWrite fd j :: k) j d := by
  generalize hk : Frame.processWrite fd it :: k = k' at h
  cases h with
  | calm hc => subst hk; exact (hc _ List.mem_cons_self).elim
  | range => cases hk
  | write hc => cases hk; exact ⟨rfl, .calm hc, fun j => .write hc fd j⟩
  | writeRange hc => cases hk; exact ⟨rfl, .range hc d, fun j => .writeRange hc fd j d⟩

theorem Shape.not_writing_below {k : List Frame} {fd : Option Fd} {it it' : Nat} {d : Bytes}
    (h : Shape (.processWrite fd it :: k) it' d) : ¬ Writing k := by
  generalize hk : Frame.processWrite fd it :: k = k' at h
  cases h with
  | calm hc => subst hk; exact (hc _ List.mem_cons_self).elim
  | range => cases hk
  | write hc => cases hk; exact not_writing_calm hc
  | writeRange hc =>
    cases hk
    intro hx
    obtain ⟨fd', j, hm⟩ := hx
    exact not_writing_calm hc ⟨fd', j, by simpa using hm⟩

theorem drop_getElem? {l : List Bytes} {i : Nat} {b : Bytes} (h : l[i]? = some b) :
    l.drop i = b :: l.drop (i + 1) := by
  obtain ⟨hi, rfl⟩ := List.getElem?_eq_some_iff.mp h
  exact List.drop_eq_getElem_cons hi

/-- One turn of the loop of `processWrite` keeps the invariant, unless
`EAGAIN` ends it behind the front. -/
theorem inv_processWrite {c c' : Cfg} {fd : Option Fd} {it : Nat} {k : List Frame} {a : Ans}
    (h : Inv c) (hstk : c.stack = .processWrite fd it :: k) (hd : PlainIO (.run a))
    (hfront : AgainAtFront c (.run a))
    (hs : processWriteBlock fd it { c with stack := k } a = some c') : Inv c' := by
  obtain ⟨it', d, hsh, hle, hoff, hq⟩ := h.queue
  rw [hstk] at hsh
  obtain ⟨rfl, hbelow, hany⟩ := hsh.below
  have hcases := processWriteBlock_cases (c := { c with stack := k }) h.mode hs
  dsimp only at hcases
  rcases hcases with ⟨hb, -, rfl⟩ | ⟨b, hb, hcases⟩
  · -- the iterator is at the end: the whole list is erased
    have hnil := List.drop_eq_nil_of_le (List.getElem?_eq_none_iff.mp hb)
    refine ⟨h.mode, h.state, h.one, h.fault, 0, d, hbelow, Nat.zero_le _, ?_, ?_⟩
    · simpa only [List.drop_zero] using hoff
    · simpa only [List.drop_zero] using hq
  have hdrop := drop_getElem? hb
  have hi := (List.getElem?_eq_some_iff.mp hb).1
  rw [hdrop] at hoff hq
  rcases hcases with ⟨hlt, -⟩ | ⟨n, rfl, hlt, rfl⟩ | ⟨n, rfl, hn, rfl⟩ | ⟨rfl, rfl⟩ | ⟨errno, rfl, hne, -⟩
  · have := hoff.le; omega
  · refine ⟨h.mode, h.state, h.one, h.fault, it', d, hany it', hle, ?_, ?_⟩
    · simp only [push, hdrop]; exact Or.inr ⟨b, _, rfl, by omega⟩
    · rw [remaining_advance c.s.mWriteOffset n] at hq
      simpa [push, hdrop] using hq
  · refine ⟨h.mode, h.state, h.one, h.fault, it' + 1, d, hany (it' + 1), hi, offOk_zero _, ?_⟩
    rw [remaining_pop (n := n) (by omega)] at hq
    simpa [push] using hq
  · -- `EAGAIN` at the front: nothing has to be erased
    rw [← hdrop] at hoff hq
    simp only [AgainAtFront, finished, hstk] at hfront
    have hback : OffOk c.s.mWriteOffset c.s.mPendingWrites ∧
        remaining c.s.mWriteOffset c.s.mPendingWrites =
          remaining c.s.mWriteOffset (c.s.mPendingWrites.drop it') := by
      rcases hfront with rfl | ⟨h0, hnil⟩
      · exact ⟨hoff, rfl⟩
      · rw [h0, remaining_zero, remaining_zero]
        refine ⟨offOk_zero _, ?_⟩
        have hsplit := congrArg List.flatten (List.take_append_drop it' c.s.mPendingWrites)
        rw [List.flatten_append, hnil, List.nil_append] at hsplit
        exact hsplit.symm
    refine ⟨h.mode, h.state, h.one, h.fault, 0, d, hbelow, Nat.zero_le _, hback.1, ?_⟩
    simp only [loopCall, List.drop_zero, hback.2]
    exact hq
  · exact absurd hd hne

/-- On a calm stack only the new stack matters. -/
theorem Inv.calm_frame {c c' : Cfg} (h : Inv c) (hk : ∀ x ∈ c.stack, Calm x) (hs : c'.s = c.s)
    (hf : c'.fault = none) (hw : c'.written = c.written) (ho : c'.out.sent = c.out.sent)
    (hsh : Shape c'.stack 0 []) : Inv c' := by
  refine h.frame hs hf hw ho fun it d hsh' => ?_
  generalize hc : c.stack = k at hsh' hk
  cases hsh' with
  | calm => exact hsh
  | range | write | writeRange => exact (hk _ List.mem_cons_self).elim

/-- What a read gives a connected socket here: a buffer, or nothing yet. -/
theorem readBlock_plain {c c' : Cfg} {again : List Frame} {a : Ans} (hm : c.s.mMode = .plain)
    (h1 : (c.s.mFd4 = none) ≠ (c.s.mFd6 = none)) (hd : PlainIO (.run a))
    (hs : readBlock again c a = some c') : (∃ b, c' = emitData b (push again c)) ∨ c' = c := by
  rcases readBlock_cases hm hs with ⟨h4, h6, -⟩ | ⟨h4, h6, -⟩ |
    ⟨-, ⟨b, -, rfl⟩ | ⟨-, rfl⟩ | ⟨rfl, -⟩ | ⟨errno, rfl, hne, -⟩⟩
  · simp [h4, h6] at h1
  · simp [h4, h6] at h1
  · exact Or.inl ⟨b, rfl⟩
  · exact Or.inr rfl
  · exact hd.elim
  · exact absurd hd hne

/-- A calm frame runs without touching the queue. -/
theorem inv_calm {c c' : Cfg} {fr : Frame} {k : List Frame} {a : Ans} (h : Inv c)
    (hstk : c.stack = fr :: k) (hk : ∀ x ∈ fr :: k, Calm x) (hd : PlainIO (.run a))
    (hs : exec fr { c with stack := k } a = some c') : Inv c' := by
  have hkt := calm_tail hk
  have hkc : ∀ x ∈ c.stack, Calm x := by rw [hstk]; exact hk
  cases fr with
  | handler => simp [exec] at hs
  | callProcessWrite f =>
    rw [(pureBlock_some hs).1]
    exact h.calm_frame hkc rfl h.fault rfl rfl (.write hkt _ 0)
  | plainRead =>
    rcases readBlock_plain (c := { c with stack := k }) h.mode h.one hd hs with ⟨b, rfl⟩ | rfl
    · exact h.calm_frame hkc rfl h.fault rfl rfl (.calm (calm_cons trivial (calm_cons trivial hkt)))
    · exact h.calm_frame hkc rfl h.fault rfl rfl (.calm hkt)
  | plainWrite f =>
    simp only [exec, loopCall, h.state] at hs
    rw [if_neg (by decide)] at hs
    rw [(pureBlock_some hs).1]
    exact h.calm_frame hkc rfl h.fault rfl rfl (.calm (calm_cons trivial hkt))
  | processWrite | writeRange | dropFailed | closeOther | armConnect | close | tlsAttach | connectTLS
  | tlsHandshaken | tlsRead | tlsRetryRead | tlsRetryWrite | tlsReadLoop | tlsWrite | tlsDoWrite =>
    exact (hk _ List.mem_cons_self).elim

/-- The range write queues its next piece, or is done. -/
theorem inv_writeRange {c c' : Cfg} {data : Bytes} {k : List Frame} {a : Ans} (h : Inv c)
    (hstk : c.stack = .writeRange data :: k)
    (hs : exec (.writeRange data) { c with stack := k } a = some c') : Inv c' := by
  obtain ⟨it, d, hsh, -, hoff, hq⟩ := h.queue
  generalize hc : c.stack = k' at hsh
  rw [hstk] at hc
  cases hsh with
  | calm hk => subst hc; exact (hk _ List.mem_cons_self).elim
  | write | writeRange => cases hc
  | range hk d =>
    cases hc
    rw [List.drop_zero] at hoff hq
    rw [(pureBlock_some hs).1]
    split
    · rename_i hnil
      subst hnil
      exact ⟨h.mode, h.state, h.one, h.fault, 0, [], .calm hk, Nat.zero_le _, hoff, hq⟩
    · refine inv_write h (k := k) hk (Or.inr rfl) rfl h.fault rfl rfl hoff ?_
      rw [List.take_append_drop]; exact hq

theorem inv_run {c c' : Cfg} {fr : Frame} {k : List Frame} {a : Ans} (h : Inv c)
    (hstk : c.stack = fr :: k) (hd : PlainIO (.run a)) (hfront : AgainAtFront c (.run a))
    (hs : exec fr { c with stack := k } a = some c') : Inv c' := by
  obtain ⟨it, d, hsh, -⟩ := h.queue
  generalize hc : c.stack = k' at hsh
  rw [hstk] at hc
  cases hsh with
  | calm hk => subst hc; exact inv_calm h hstk hk hd hs
  | range hk d => cases hc; exact inv_writeRange h hstk hs
  | write hk fd it => cases hc; exact inv_processWrite h hstk hd hfront hs
  | writeRange hk fd it d => cases hc; exact inv_processWrite h hstk hd hfront hs

/-- Step lemma: a step whose `EAGAIN`, if any, comes at the front keeps the
invariant. -/
theorem inv_step {c c' : Cfg} {l : Label} (h : Inv c) (hfront : AgainAtFront c l)
    (hs : io.step c l c') : Inv c' := by
  obtain ⟨hd, hs⟩ := hs
  rcases (step_cases hs).2 with ⟨op, rfl, hu, hs⟩ | ⟨fd, flags, rfl, he, rfl⟩ |
    ⟨a, fr, k, rfl, hstk, hs⟩ | ⟨k, rfl, hstk, rfl⟩
  · exact inv_call h hd hu hs
  · exact inv_event h hd he
  · exact inv_run h hstk hd hfront hs
  · refine h.frame rfl h.fault rfl rfl fun it d hsh => ?_
    obtain ⟨hk, rfl, rfl⟩ := hsh.of_user rfl (by simp [userTurn, hstk])
    exact .calm (calm_tail (by rw [← hstk]; exact hk))

theorem inv_init {c : Cfg} (h : Connected c) : Inv c := by
  refine ⟨h.mode, h.state, h.one, h.fault, 0, [], ?_, Nat.zero_le _, ?_, ?_⟩
  · rw [h.stack]; exact .calm (by simp)
  · rw [h.offset]; exact offOk_zero _
  · simp [h.sent, h.pending, h.written]

/-- `EAGAIN` behind the front leaves buffers in the list that are already
sent: the queue now denotes more than the rest of the stream. -/
theorem resent {c c' : Cfg} {l : Label} (h : Inv c) (hfront : ¬ AgainAtFront c l)
    (hs : io.step c l c') : ¬ StreamOk c' := by
  obtain ⟨hd, hs⟩ := hs
  cases l with
  | call | event | ret => exact absurd trivial hfront
  | run a =>
  cases a with
  | unit | write | read | readEof | readErr | soError | sslDone | sslWantRead | sslWantWrite
  | sslZeroReturn | sslError => exact absurd trivial hfront
  | writeErr errno =>
  obtain ⟨hit, hback⟩ : finished c.stack ≠ 0 ∧ (c.s.mWriteOffset = 0 →
      (c.s.mPendingWrites.take (finished c.stack)).flatten ≠ []) := by
    simpa only [AgainAtFront, not_or, not_and] using hfront
  obtain ⟨fd, it, k, hstk⟩ : ∃ fd it k, c.stack = .processWrite fd it :: k := by
    revert hit
    fun_cases finished c.stack with
    | case1 fd it k => exact fun _ => ⟨fd, it, k, rfl⟩
    | case2 => exact fun h => absurd rfl h
  rw [hstk] at hit hback
  obtain ⟨it', d, hsh, hle, hoff, hq⟩ := h.queue
  rw [hstk] at hsh
  obtain ⟨rfl, hbelow, -⟩ := hsh.below
  rcases (step_cases hs).2 with ⟨op, hl, -⟩ | ⟨_, _, hl, -⟩ | ⟨a, fr, k', hl, hstk', hs⟩ | ⟨_, hl, -⟩ <;>
    cases hl
  rw [hstk] at hstk'
  cases hstk'
  have hcases := processWriteBlock_cases (c := { c with stack := k }) h.mode hs
  dsimp only at hcases
  rcases hcases with ⟨-, ha, -⟩ | ⟨b, hb, ⟨-, ha, -⟩ | ⟨n, ha, -⟩ | ⟨n, ha, -⟩ | ⟨-, rfl⟩ |
    ⟨errno', ha, hne, -⟩⟩
  · cases ha
  · cases ha
  · cases ha
  · cases ha
  · intro hx
    obtain ⟨-, -, hok⟩ := hx
    have hok := hok hsh.not_writing_below
    have hpre : c.s.mPendingWrites.take it' ≠ [] := by
      have := (List.getElem?_eq_some_iff.mp hb).1
      rw [ne_eq, List.take_eq_nil_iff]
      intro hx
      rcases hx with h0 | h0
      · exact hit h0
      · rw [h0] at this; simp at this
    have hlen := length_remaining_rewind hoff hpre (by
      by_cases h0 : c.s.mWriteOffset = 0
      · exact Or.inr (hback h0)
      · exact Or.inl h0)
    rw [List.take_append_drop] at hlen
    have e := congrArg List.length (hok.trans hq.symm)
    simp only [loopCall, hbelow.unqueued, List.length_append] at e
    omega
  · cases ha; exact absurd hd hne

theorem stream_exact : io.Exact AgainAtFront Inv StreamOk where
  holds _ h := h.streamOk
  keeps _ _ _ h hc hs := inv_step h hc hs
  breaks _ _ _ h hc hs := resent h hc hs

/-- **Write stream.** A run of a connected socket keeps `StreamOk` in every
state exactly when each `EAGAIN` arrives before the running `processWrite` has
finished a buffer. -/
theorem write_stream_iff {c : Cfg} {t : List (Label × Cfg)} (hc : Connected c)
    (ht : io.Trace c t) : LTS.AllStates StreamOk c t ↔ LTS.AllSteps AgainAtFront c t :=
  stream_exact.allStates_iff ht (inv_init hc)

/-! ## Runs -/

instance : DecidablePred PlainIO
  | .call (.write _) | .call (.writeRange _) | .ret => .isTrue trivial
  | .call (.connect ..) | .call (.setSocket ..) | .call .close | .run .readEof => .isFalse id
  | .event _ flags => inferInstanceAs (Decidable (flags.error = false))
  | .run (.writeErr errno) | .run (.readErr errno) => inferInstanceAs (Decidable (errno = EAGAIN))
  | .run .unit | .run (.write _) | .run (.read _) | .run (.soError _) | .run .sslDone
  | .run .sslWantRead | .run .sslWantWrite | .run .sslZeroReturn | .run (.sslError _) =>
    .isTrue trivial

instance (c : Cfg) : DecidablePred (AgainAtFront c)
  | .run (.writeErr _) => inferInstanceAs (Decidable (_ ∨ _ ∧ _))
  | .call _ | .event .. | .ret => .isTrue trivial
  | .run .unit | .run (.write _) | .run (.read _) | .run .readEof | .run (.readErr _)
  | .run (.soError _) | .run .sslDone | .run .sslWantRead | .run .sslWantWrite
  | .run .sslZeroReturn | .run (.sslError _) => .isTrue trivial

/-- A socket connected on descriptor 5. -/
def sample : Cfg :=
  { Cfg.init with s := { Sock.init with mFd4 := some 5, mFd4Handle := some 5, mState := .connected } }

theorem sample_connected : Connected sample :=
  ⟨rfl, rfl, by simp [sample, Sock.init], rfl, rfl, rfl, rfl, rfl, rfl⟩

/-- One buffer, taken in two parts with `EAGAIN` between them. -/
def partialWrites : List Label :=
  [.call (.write [1, 2]), .run (.write 1), .run (.writeErr EAGAIN), .event 5 ⟨false, false, true⟩,
   .run .unit, .run .unit, .run (.write 1), .run .unit]

theorem write_stream_partial : ∃ h : (LTS.record step sample partialWrites).isSome,
    LTS.AllStates StreamOk sample ((LTS.record step sample partialWrites).get h) :=
  ⟨by decide, (write_stream_iff sample_connected
    ((LTS.trace_record (by decide)).guard (by decide))).mpr (by decide)⟩

/-- Two buffers; the first is taken whole, then `EAGAIN`, then a write event. -/
def lateAgain : List Label :=
  [.call (.write [1]), .run (.writeErr EAGAIN), .call (.write [2]), .run (.write 1),
   .run (.writeErr EAGAIN), .event 5 ⟨false, false, true⟩, .run .unit, .run .unit, .run (.write 1)]

theorem lateAgain_runs : (LTS.record step sample lateAgain).isSome := by decide

/-- The byte 1 goes out twice: 1, 1 is not a prefix of 1, 2. -/
theorem write_stream_broken : ∃ t, io.Trace sample t ∧ t.map Prod.fst = lateAgain ∧
    (t.getLast?.map fun x => (x.2.out.sent, x.2.written)) = some ([1, 1], [1, 2]) ∧
    ¬ LTS.AllStates StreamOk sample t := by
  refine ⟨_, (LTS.trace_record lateAgain_runs).guard (by decide), by decide, by decide, ?_⟩
  intro hx
  obtain ⟨-, h⟩ := hx
  have hlast := (h _ (List.getLast_mem (by decide))).2.1
  exact absurd hlast (by decide)

end Reckoning.L4.TcpWrite
