import Reckoning.L5App.WebSocketClient
import Reckoning.Core.LTS

/-!
# The receive callback as a byte stream

Buffers are appended by `onData`; wslay asks for bytes with any positive
length. `pushed` and `handed` are ghosts: all bytes that came in, all bytes
that went out; `last` is the last call.

`StreamOk` is the intended property: what went out and what is left are, in
order, what came in; and a call gives as many bytes as were asked for and
there.

It is not an invariant. A call that starts inside a buffer compares the bytes
it reads with the size of the whole buffer and then stores their number, not
the new position (lib/net/WebSocketClient.cpp:47,53). `recv_stream_iff`: a run
keeps the property throughout exactly when every call starts at the beginning
of a buffer. In such runs the consume loop of the `onData` handler ends, after
at most as many turns as there are bytes (`rounds_le`).
-/
namespace Reckoning.L5.WsRecv
open Reckoning.L5.WebSocketClient
open Reckoning.ByteQueue

/-- One call: the length asked for, the bytes there were, the answer. -/
structure Asked where
  len : Nat
  avail : Nat
  res : RecvRes
  deriving DecidableEq, Repr

structure Recv where
  ws : Client
  pushed : Bytes
  handed : Bytes
  last : Option Asked
  deriving DecidableEq, Repr

inductive Label
  | push (buffer : Bytes)
  | recv (len : Nat)
  deriving DecidableEq, Repr

/-- The bytes in `mReadBuffers` from `mBufferOffset` on. -/
def left (ws : Client) : Bytes := remaining ws.mBufferOffset ws.mReadBuffers

def RecvRes.data : RecvRes → Bytes
  | .ret data => data
  | _ => []

def step (x : Recv) : Label → Option Recv
  | .push buffer =>
    if x.ws.fault = none ∧ buffer ≠ [] then
      some { x with
        ws := { x.ws with mReadBuffers := x.ws.mReadBuffers ++ [buffer] }
        pushed := x.pushed ++ buffer }
    else none
  | .recv len =>
    if x.ws.fault = none ∧ 0 < len then
      let r := recvCallback len x.ws
      some { x with
        ws := r.2
        handed := x.handed ++ RecvRes.data r.1
        last := some ⟨len, (left x.ws).length, r.1⟩ }
    else none

/-- Any queue of non-empty buffers, nothing read yet. -/
structure Start (x : Recv) : Prop where
  tcp : x.ws.mTcp = true
  fault : x.ws.fault = none
  offset : x.ws.mBufferOffset = 0
  nonempty : ∀ b ∈ x.ws.mReadBuffers, b ≠ []
  pushed : x.pushed = x.ws.mReadBuffers.flatten
  handed : x.handed = []
  last : x.last = none

def stream : LTS Recv Label := .ofFn Start step

/-! ## The property -/

/-- As many bytes as were asked for and there; `WOULDBLOCK` when there are none. -/
def Asked.Ok (a : Asked) : Prop :=
  if a.avail = 0 then a.res = .wouldBlock
  else ∃ data, a.res = .ret data ∧ data.length = min a.len a.avail

structure StreamOk (x : Recv) : Prop where
  fault : x.ws.fault = none
  bytes : x.handed ++ left x.ws = x.pushed
  last : ∀ a, x.last = some a → a.Ok

/-- A call starts at the beginning of a buffer. -/
def AtBufferStart (x : Recv) : Label → Prop
  | .push _ => True
  | .recv _ => x.ws.mBufferOffset = 0

/-! ## Invariant -/

structure Inv (x : Recv) : Prop where
  ok : StreamOk x
  tcp : x.ws.mTcp = true
  nonempty : ∀ b ∈ x.ws.mReadBuffers, b ≠ []
  offset : OffOk x.ws.mBufferOffset x.ws.mReadBuffers

theorem inv_start {x : Recv} (h : Start x) : Inv x where
  ok := ⟨h.fault, by rw [h.handed, h.pushed, left, h.offset, remaining_zero, List.nil_append],
    by rw [h.last]; nofun⟩
  tcp := h.tcp
  nonempty := h.nonempty
  offset := by rw [h.offset]; exact offOk_zero _

/-- From the beginning of a buffer the loop takes the first `rem` bytes. -/
theorem recvLoop_start : ∀ (q : List Bytes) (rem : Nat), (∀ b ∈ q, b ≠ []) →
    ∃ off' q', recvLoop rem 0 q = .ok (q.flatten.take rem, off', q') ∧
      remaining off' q' = q.flatten.drop rem ∧ OffOk off' q' ∧ ∀ b ∈ q', b ≠ []
  | [], rem, _ => ⟨0, [], by simp [recvLoop], by simp, offOk_zero _, by simp⟩
  | buf :: q, rem, hne => by
    have hbuf := List.length_pos_iff.mpr (hne buf List.mem_cons_self)
    simp only [recvLoop, Nat.sub_zero, Nat.not_lt_zero, if_false, List.drop_zero]
    split
    · rename_i hrem
      subst hrem
      exact ⟨0, buf :: q, by simp, by simp, offOk_zero _, hne⟩
    by_cases hall : buf.length ≤ rem
    · -- the whole buffer, and on with the next one
      obtain ⟨off', q', hrec, hrest, hoff, hne'⟩ := recvLoop_start q (rem - buf.length)
        fun b hb => hne b (List.mem_cons_of_mem _ hb)
      rw [Nat.min_eq_right hall, if_pos rfl, hrec]
      refine ⟨off', q', ?_, ?_, hoff, hne'⟩
      · simp [List.take_append, List.take_of_length_le hall]
      · simp [hrest, List.drop_append, List.drop_eq_nil_of_le hall]
    · -- the request ends inside this buffer
      rw [Nat.min_eq_left (by omega), if_neg (by omega), if_pos (by omega)]
      refine ⟨rem, buf :: q, ?_, ?_, Or.inr ⟨buf, q, rfl, by omega⟩, hne⟩
      · rw [List.flatten_cons, List.take_append_of_le_length (by omega)]
      · rw [remaining, List.flatten_cons, List.drop_append_of_le_length (by omega)]

/-- Inside a buffer the loop stops after one turn. -/
theorem recvLoop_inside {buf : Bytes} {q : List Bytes} {off rem : Nat} (hoff : 0 < off)
    (hlt : off < buf.length) (hrem : 0 < rem) :
    recvLoop rem off (buf :: q) =
      if rem ≤ buf.length - off then .ok ((buf.drop off).take rem, rem, buf :: q)
      else .error .assert := by
  simp only [recvLoop]
  rw [if_neg (by omega), if_neg (by omega)]
  by_cases hle : rem ≤ buf.length - off
  · rw [Nat.min_eq_left hle, if_neg (by omega), if_pos (by omega), if_pos hle]
  · rw [Nat.min_eq_right (by omega), if_neg (by omega), if_neg (by omega), if_neg hle]

theorem step_push {x x' : Recv} {buffer : Bytes} (h : step x (.push buffer) = some x') :
    buffer ≠ [] ∧ x' = { x with
      ws := { x.ws with mReadBuffers := x.ws.mReadBuffers ++ [buffer] }
      pushed := x.pushed ++ buffer } := by
  simp only [step] at h
  split at h
  · rename_i hb; exact ⟨hb.2, (Option.some.inj h).symm⟩
  · cases h

theorem step_recv {x x' : Recv} {len : Nat} (h : step x (.recv len) = some x') :
    0 < len ∧ x' = { x with
      ws := (recvCallback len x.ws).2
      handed := x.handed ++ RecvRes.data (recvCallback len x.ws).1
      last := some ⟨len, (left x.ws).length, (recvCallback len x.ws).1⟩ } := by
  simp only [step] at h
  split at h
  · rename_i hl; exact ⟨hl.2, (Option.some.inj h).symm⟩
  · cases h

/-- Nothing is left exactly when the queue is empty. -/
theorem Inv.left_eq_nil {x : Recv} (h : Inv x) : left x.ws = [] ↔ x.ws.mReadBuffers = [] := by
  unfold left
  constructor
  · intro hl
    cases hq : x.ws.mReadBuffers with
    | nil => rfl
    | cons b q =>
      have hb := h.nonempty b (by simp [hq])
      have hoff := h.offset
      rw [hq] at hl hoff
      simp only [remaining, List.append_eq_nil_iff, List.drop_eq_nil_iff] at hl
      rcases hoff.lt with h0 | hlt
      · rw [h0, Nat.le_zero, List.length_eq_zero_iff] at hl; exact absurd hl.1 hb
      · omega
  · intro hq; rw [hq]; rfl

/-- What a call does that starts at the beginning of a buffer. -/
theorem recvCallback_start {x : Recv} {len : Nat} (h : Inv x) (h0 : x.ws.mBufferOffset = 0)
    (hq : x.ws.mReadBuffers ≠ []) :
    ∃ ws', recvCallback len x.ws = (.ret ((left x.ws).take len), ws') ∧
      left ws' = (left x.ws).drop len ∧ ws'.fault = none ∧ ws'.mTcp = true ∧
      (∀ b ∈ ws'.mReadBuffers, b ≠ []) ∧ OffOk ws'.mBufferOffset ws'.mReadBuffers := by
  obtain ⟨off', q', hloop, hrest, hoff, hne⟩ := recvLoop_start x.ws.mReadBuffers len h.nonempty
  have hleft : left x.ws = x.ws.mReadBuffers.flatten := by rw [left, h0, remaining_zero]
  unfold recvCallback
  rw [if_neg (by simp [h.tcp]), if_neg hq, h0, hloop, hleft]
  exact ⟨_, rfl, hrest, h.ok.fault, h.tcp, hne, hoff⟩

theorem inv_step {x x' : Recv} {l : Label} (h : Inv x) (hc : AtBufferStart x l)
    (hs : step x l = some x') : Inv x' := by
  cases l with
  | push buffer =>
    obtain ⟨hb, rfl⟩ := step_push hs
    refine ⟨⟨h.ok.fault, ?_, h.ok.last⟩, h.tcp, ?_, h.offset.append _⟩
    · have hbytes := h.ok.bytes
      dsimp only [left] at hbytes ⊢
      rw [remaining_append h.offset, ← List.append_assoc, hbytes]
      simp
    · intro b hm
      rcases List.mem_append.mp hm with hm | hm
      · exact h.nonempty b hm
      · rw [List.mem_singleton.mp hm]; exact hb
  | recv len =>
    obtain ⟨hlen, rfl⟩ := step_recv hs
    by_cases hq : x.ws.mReadBuffers = []
    · have hr : recvCallback len x.ws = (.wouldBlock, x.ws) := by
        unfold recvCallback
        rw [if_neg (by simp [h.tcp]), if_pos hq]
      rw [hr]
      refine ⟨⟨h.ok.fault, by simpa [RecvRes.data] using h.ok.bytes, ?_⟩, h.tcp, h.nonempty, h.offset⟩
      intro a ha
      cases ha
      rw [Asked.Ok, if_pos (by simpa using h.left_eq_nil.mpr hq)]
    · obtain ⟨ws', hr, hleft, hf, htcp, hne, hoff⟩ := recvCallback_start h hc hq
      rw [hr]
      refine ⟨⟨hf, ?_, ?_⟩, htcp, hne, hoff⟩
      · dsimp only [RecvRes.data]
        rw [hleft, List.append_assoc, List.take_append_drop]
        exact h.ok.bytes
      · intro a ha
        cases ha
        rw [Asked.Ok, if_neg (by simpa using fun hn => hq (h.left_eq_nil.mp hn))]
        exact ⟨_, rfl, List.length_take⟩

/-- A call that starts inside a buffer fails the assertion, or gives some byte
a second time. -/
theorem resent {x x' : Recv} {l : Label} (h : Inv x) (hc : ¬ AtBufferStart x l)
    (hs : step x l = some x') : ¬ StreamOk x' := by
  cases l with
  | push buffer => exact absurd trivial hc
  | recv len =>
    obtain ⟨hlen, rfl⟩ := step_recv hs
    have h0 : x.ws.mBufferOffset ≠ 0 := hc
    obtain ⟨buf, q, hq, hlt⟩ := h.offset.resolve_left h0
    intro hok
    have hloop := recvLoop_inside (q := q) (by omega) hlt hlen
    by_cases hle : len ≤ buf.length - x.ws.mBufferOffset
    · have hr : recvCallback len x.ws = (.ret ((buf.drop x.ws.mBufferOffset).take len),
          { x.ws with mReadBuffers := buf :: q, mBufferOffset := len }) := by
        unfold recvCallback
        rw [if_neg (by simp [h.tcp]), if_neg (by simp [hq]), hq, hloop, if_pos hle]
      rw [hr] at hok
      -- compare the lengths of what went out and what is left
      have hnew := congrArg List.length hok.bytes
      have hold := congrArg List.length h.ok.bytes
      simp only [left, RecvRes.data, hq, remaining, List.length_append, List.length_drop,
        List.length_take] at hnew hold
      omega
    · have hr : (recvCallback len x.ws).2.fault = some .assert := by
        unfold recvCallback
        rw [if_neg (by simp [h.tcp]), if_neg (by simp [hq])]
        simp only [hq, hloop, if_neg hle]
      exact absurd (hr.symm.trans hok.fault) (by simp)

theorem stream_exact : stream.Exact AtBufferStart Inv StreamOk where
  holds _ h := h.ok
  keeps _ _ _ h hc hs := inv_step h hc hs
  breaks _ _ _ h hc hs := resent h hc hs

theorem guarded : stream.Guarded AtBufferStart Inv where
  init _ h := inv_start h
  step _ _ _ h hc hs := inv_step h hc hs

/-! ## The consume loop -/

/-- `n` turns of the loop of the `onData` handler, meeting `AtBufferStart`: a
turn is one `wslay_event_recv` on a queue that is not empty. A turn after
which the loop goes on has called the callback (a library that does not want
to read calls nothing, and then the loop breaks).
mirrors lib/net/WebSocketClient.cpp:126-130 -/
inductive Rounds : Nat → Recv → Recv → Prop
  | stop (x : Recv) : Rounds 0 x x
  | turn {n : Nat} {x x' x'' : Recv} {len : Nat} {lens : List Nat} :
      x.ws.mReadBuffers ≠ [] →
      (stream.guard AtBufferStart).Run x ((len :: lens).map Label.recv) x' →
      Rounds n x' x'' → Rounds (n + 1) x x''

/-- A call on a queue that is not empty uses up at least one byte, any other none. -/
theorem left_recv {x x' : Recv} {len : Nat} (h : Inv x)
    (hs : (stream.guard AtBufferStart).step x (.recv len) x') :
    (left x'.ws).length ≤ (left x.ws).length ∧
      (x.ws.mReadBuffers ≠ [] → (left x'.ws).length < (left x.ws).length) := by
  obtain ⟨hc, hs⟩ := hs
  obtain ⟨hlen, rfl⟩ := step_recv hs
  by_cases hq : x.ws.mReadBuffers = []
  · have hr : recvCallback len x.ws = (.wouldBlock, x.ws) := by
      unfold recvCallback
      rw [if_neg (by simp [h.tcp]), if_pos hq]
    rw [hr]
    exact ⟨Nat.le_refl _, fun hn => absurd hq hn⟩
  · obtain ⟨ws', hr, hleft, -⟩ := recvCallback_start h hc hq
    have hpos := List.length_pos_iff.mpr (fun hn => hq (h.left_eq_nil.mp hn))
    rw [hr]
    dsimp only
    rw [hleft, List.length_drop]
    omega

theorem left_run {x x' : Recv} : ∀ {lens : List Nat}, Inv x →
    (stream.guard AtBufferStart).Run x (lens.map Label.recv) x' →
    Inv x' ∧ (left x'.ws).length ≤ (left x.ws).length := by
  intro lens
  induction lens generalizing x with
  | nil => intro h hrun; cases hrun; exact ⟨h, Nat.le_refl _⟩
  | cons len lens ih =>
    intro h hrun
    cases hrun with
    | cons hs hrest =>
      obtain ⟨h', hle⟩ := ih (inv_step h hs.1 hs.2) hrest
      exact ⟨h', Nat.le_trans hle (left_recv h hs).1⟩

/-- The loop ends: it takes no more turns than there are bytes. -/
theorem rounds_le {n : Nat} {x y : Recv} (hr : Rounds n x y) : Inv x → n ≤ (left x.ws).length := by
  induction hr with
  | stop x => exact fun _ => Nat.zero_le _
  | turn hq hrun _ ih =>
    intro h
    cases hrun with
    | cons hs hrest =>
      obtain ⟨h', hle⟩ := left_run (inv_step h hs.1 hs.2) hrest
      have := (left_recv h hs).2 hq
      have := ih h'
      omega

/-- **Receive callback.** A run over any queue of non-empty buffers keeps
`StreamOk` in every state exactly when each call starts at the beginning of a
buffer; and from every state of such runs the consume loop ends. -/
theorem recv_stream_iff {x : Recv} (hx : Start x) :
    (∀ t, stream.Trace x t →
      (LTS.AllStates StreamOk x t ↔ LTS.AllSteps AtBufferStart x t)) ∧
    (∀ ls y z n, (stream.guard AtBufferStart).Run x ls y → Rounds n y z →
      n ≤ (left y.ws).length) := by
  refine ⟨fun t ht => stream_exact.allStates_iff ht (inv_start hx), fun ls y z n hrun hr => ?_⟩
  exact rounds_le hr (guarded.reachable y ⟨x, ls, hx, hrun⟩)

/-! ## Two runs -/

instance (x : Recv) : DecidablePred (AtBufferStart x)
  | .push _ => .isTrue trivial
  | .recv _ => inferInstanceAs (Decidable (_ = _))

/-- Two buffers are waiting. -/
def sample : Recv := ⟨{ Client.init with mReadBuffers := [[1, 2], [3]] }, [1, 2, 3], [], none⟩

theorem sample_start : Start sample := ⟨rfl, rfl, rfl, by decide, by decide, rfl, rfl⟩

/-- One call over both buffers, a third buffer, one call into it. -/
def wholeReads : List Label := [.recv 3, .push [4, 5], .recv 1]

theorem wholeReads_runs : (LTS.record step sample wholeReads).isSome := by decide

theorem recv_stream_whole :
    LTS.AllStates StreamOk sample ((LTS.record step sample wholeReads).get wholeReads_runs) :=
  ((recv_stream_iff sample_start).1 _ (LTS.trace_record wholeReads_runs)).mpr (by decide)

/-- One buffer of five bytes. -/
def five : Recv := ⟨{ Client.init with mReadBuffers := [[1, 2, 3, 4, 5]] }, [1, 2, 3, 4, 5], [], none⟩

theorem five_start : Start five := ⟨rfl, rfl, rfl, by decide, by decide, rfl, rfl⟩

theorem recvTwoThrice_runs : (LTS.record step five [.recv 2, .recv 2, .recv 2]).isSome := by decide

/-- Three calls for two bytes give 1, 2 and then 3, 4 twice: the offset stays at 2. -/
theorem recv_stream_broken : ∃ t, Start five ∧ stream.Trace five t ∧
    t.map Prod.fst = [.recv 2, .recv 2, .recv 2] ∧
    (t.getLast?.map fun x => (x.2.handed, x.2.ws.mBufferOffset)) = some ([1, 2, 3, 4, 3, 4], 2) ∧
    ¬ LTS.AllStates StreamOk five t := by
  refine ⟨_, five_start, LTS.trace_record recvTwoThrice_runs, by decide, by decide, ?_⟩
  intro hx
  obtain ⟨-, h⟩ := hx
  exact absurd (h _ (List.getLast_mem (by decide))).bytes (by decide)

end Reckoning.L5.WsRecv
