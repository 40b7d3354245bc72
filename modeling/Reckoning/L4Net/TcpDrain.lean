import Reckoning.L4Net.TcpTls

/-!
# Reading until there is nothing left

The events of a descriptor are edge-triggered: what a readable event leaves
unread is announced again only with the next data. `processPlain` reads in a
loop until `read()` returns a null buffer. `processTLS` looks at
`readWaitState`: in `SSLReadWaitingForRead` it reads once, only in
`SSLNotWaiting` it reads in a loop, and in `SSLReadWaitingForWrite` it does not
read. `SSL_read` sets the state when it would block, and nothing ever resets it
(lib/net/TcpSocket.cpp:165-202, :538-566).

`Obs` runs the machine of `TcpSocket` and keeps beside it what the callback of
the last event has read:

* `readable`: the event was a readable one, of a socket in state `Connected`;
* `last`: whether the last `read()` of the callback yielded data;
* `closed`: a handler has called `close()` in it;
* `chunks`: all that was ever read.

* `drained_of_keeps`: the runs in which every readable event is drained.
* `stopped_forever`: once a read has stopped, no callback of a TLS socket reads
  in a loop again.
-/
namespace Reckoning.L4.TcpDrain
open Reckoning.L4.TcpSocket
open Reckoning.L4.TcpTls (waits ReadWait Unread Passes passes_pureBlock passes_exec passes_event
  passes_call readBlock_effect)

/-! ## The property -/

structure Obs where
  cfg : Cfg
  readable : Bool
  last : Option Bool
  closed : Bool
  chunks : List Bytes
  deriving DecidableEq, Repr

/-- A readable event of a connected socket. -/
def isReadable (c : Cfg) (fd : Fd) (flags : Flags) : Bool :=
  (c.s.mFd4 == some fd || c.s.mFd6 == some fd) && flags.read && !flags.error &&
    c.s.mState == .connected

/-- The block at the top of the stack calls `read()`. -/
def callsRead (c : Cfg) : Bool :=
  match c.stack with
  | .plainRead :: _ | .tlsRetryRead :: _ => true
  | .tlsReadLoop :: _ => c.s.mSsl.readWaitState == .notWaiting
  | _ => false

/-- The data that `::read` or `SSL_read` yields. -/
def chunk : Ans → Option Bytes
  | .read b => some b
  | _ => none

/-- The ghosts after a step to `c'`. -/
def observe (w : Obs) (l : Label) (c' : Cfg) : Obs :=
  match l with
  | .event fd flags => ⟨c', isReadable w.cfg fd flags, none, false, w.chunks⟩
  | .run a =>
    if callsRead w.cfg then
      { w with cfg := c', last := some (chunk a).isSome, chunks := w.chunks ++ (chunk a).toList }
    else { w with cfg := c' }
  | .call op => { w with cfg := c', closed := w.closed || (op == .close && !w.cfg.stack.isEmpty) }
  | .ret => { w with cfg := c' }

def obsStep (w : Obs) (l : Label) : Option Obs := (step w.cfg l).map (observe w l)

def start : Obs := ⟨Cfg.init, false, none, false, []⟩

def observed : LTS Obs Label := .ofFn (· = start) obsStep

/-- What was read is what was emitted; when the callback of a readable event
has returned, its last read yielded no data, or a handler has closed the socket. -/
structure Drained (w : Obs) : Prop where
  emitted : w.cfg.out.data = w.chunks
  last : w.readable = true → w.cfg.stack = [] → w.closed = true ∨ w.last = some false

/-- The read part of `processTLS` finds reading to be blocked on a write only
where the write part follows and no stopped write comes first; the single retry
yields no data, unless a handler has closed the socket. -/
def Keeps (w : Obs) : Label → Prop
  | .event fd flags => isReadable w.cfg fd flags = true → w.cfg.s.mMode = .tls →
      w.cfg.s.mSsl.readWaitState = .readWaitingForWrite →
      -- a stopped write that fails closes the socket before the retry (`writesFirst`)
      flags.write = true ∧ w.cfg.s.mSsl.writeWaitState ≠ .writeWaitingForRead
  | .run a => w.readable = true → w.closed = false → w.cfg.stack.head? = some .tlsRetryRead →
      chunk a = none
  | _ => True

/-! ## Steps that do not read -/

theorem readWait_writeRes {mode : Mode} {fd : Option Fd} {req : Nat} {ssl ssl' : Ssl} {a : Ans}
    {e : Int} (h : writeRes mode fd req ssl a = some (e, ssl')) :
    ssl'.readWaitState = ssl.readWaitState := by
  unfold writeRes at h
  split at h
  · split at h <;> cases h; rfl
  · split at h <;> cases h; rfl
  · split at h <;> cases h; rfl
  · cases h; rfl
  · cases h; rfl
  · split at h <;> cases h; rfl
  · cases h

theorem unread_processWrite {fd : Option Fd} {it : Nat} {c c' : Cfg} {a : Ans}
    (h : processWriteBlock fd it c a = some c') : Unread c c' := by
  unfold processWriteBlock at h
  split at h
  · split at h <;> cases h
    exact ⟨rfl, rfl, [], rfl⟩
  · split at h
    · split at h <;> cases h
      exact ⟨rfl, rfl, [], rfl⟩
    · split at h
      · cases h
      · rename_i e ssl hres
        have hssl : Unread c { c with s := { c.s with mSsl := ssl } } :=
          ⟨readWait_writeRes hres, rfl, [], rfl⟩
        dsimp only at h
        split at h
        · split at h <;> cases h
          · exact hssl.trans (Passes.loopCall _ _).toUnread
          · exact hssl.trans (Passes.closeWith _ .error).toUnread
        · split at h <;> cases h
          · exact hssl.trans ⟨rfl, rfl, [.processWrite fd it], rfl⟩
          · exact hssl.trans ⟨rfl, rfl, [.processWrite fd (it + 1)], rfl⟩

/-- The blocks that do not call `read()`. -/
theorem unread_exec {fr : Frame} {k : List Frame} {c c' : Cfg} {a : Ans} (hk : c.stack = fr :: k)
    (hr : callsRead c = false) (h : exec fr { c with stack := k } a = some c') :
    Unread { c with stack := k } c' := by
  cases fr with
  | plainRead => simp [callsRead, hk] at hr
  | tlsRetryRead => simp [callsRead, hk] at hr
  | tlsReadLoop =>
    have hw : c.s.mSsl.readWaitState ≠ .notWaiting := by simpa [callsRead, hk] using hr
    simp only [exec, if_neg hw] at h
    exact (passes_pureBlock (.refl _) h).toUnread
  | processWrite fd it => exact unread_processWrite h
  | _ => exact (passes_exec (by simp [TcpTls.Frame.Transfers]) h).toUnread

/-! ## Steps that read -/

/-- A read that yields data emits it and goes on with `again`; the others emit
no data. No read clears the wait state. -/
theorem readBlock_chunk {again : List Frame} {c c' : Cfg} {a : Ans}
    (h : readBlock again c a = some c') :
    (∃ b, a = .read b ∧ c'.out.data = c.out.data ++ [b] ∧ waits c'.s = waits c.s ∧
      c'.stack = .handler :: again ++ c.stack) ∨
    (chunk a = none ∧ c'.out.data = c.out.data ∧
      (waits c'.s = waits c.s ∨ (waits c'.s).1 ≠ .notWaiting)) := by
  have hclose : ∀ st c₁, c₁.out.data = c.out.data → c₁.s = c.s →
      (closeWith st c₁).out.data = c.out.data ∧
        (waits (closeWith st c₁).s = waits c.s ∨ (waits (closeWith st c₁).s).1 ≠ .notWaiting) :=
    fun st c₁ hd hs => ⟨(Passes.closeWith c₁ st).data.trans hd,
      .inl ((TcpTls.waits_closeWith c₁ st).trans (congrArg waits hs))⟩
  unfold readBlock at h
  split at h
  · split at h
    · rename_i ha
      subst ha
      cases h
      exact .inr ⟨rfl, rfl, .inl rfl⟩
    · cases h
  · split at h
    · rename_i ha
      subst ha
      cases h
      exact .inr ⟨rfl, rfl, .inl rfl⟩
    · cases h
  · dsimp only at h
    split at h
    · split at h
      · rename_i b
        split at h
        · cases h; exact .inl ⟨b, rfl, rfl, rfl, rfl⟩
        · cases h
      · cases h; exact .inr ⟨rfl, hclose _ _ rfl rfl⟩
      · split at h
        · cases h
        · split at h <;> cases h
          · exact .inr ⟨rfl, rfl, .inl rfl⟩
          · exact .inr ⟨rfl, hclose _ _ rfl rfl⟩
      · cases h
    · -- `rearm` calls the loop only
      split at h
      · rename_i b
        split at h
        · cases h; split <;> exact .inl ⟨b, rfl, rfl, rfl, rfl⟩
        · cases h
      · cases h; exact .inr ⟨rfl, rfl, .inr (by simp [waits])⟩
      · cases h; exact .inr ⟨rfl, rfl, .inr (by simp [waits, loopCall])⟩
      · cases h; split <;> exact .inr ⟨rfl, hclose _ _ rfl rfl⟩
      · split at h
        · cases h
        · split at h <;> cases h
          · split <;> exact .inr ⟨rfl, rfl, .inl rfl⟩
          · split <;> exact .inr ⟨rfl, hclose _ _ rfl rfl⟩
      · cases h

/-! ## What is still to be read -/

/-- A frame that calls `read()`. -/
def Reads (s : Sock) : Frame → Prop
  | .plainRead | .tlsRetryRead => True
  | .tlsReadLoop => (waits s).1 = .notWaiting
  | _ => False

/-- The read part is about to read. -/
def Starts (c : Cfg) : Prop :=
  c.s.mState = .connected ∧ ((waits c.s).1 = .notWaiting ∨ (waits c.s).1 = .readWaitingForRead) ∧
    ∃ f k, c.stack = .tlsRead f :: k

/-- The read part leaves it to the write part. -/
def Defers (c : Cfg) : Prop :=
  c.s.mState = .connected ∧ (waits c.s).1 = .readWaitingForWrite ∧
    (waits c.s).2 ≠ .writeWaitingForRead ∧ ∃ f,
      c.stack = [.tlsRead f, .tlsWrite f] ∨
      c.stack = [.tlsRetryWrite f, .tlsReadLoop, .tlsWrite f] ∨
      c.stack = [.tlsReadLoop, .tlsWrite f] ∨ c.stack = [.tlsWrite f]

def Pending (c : Cfg) : Prop := (∃ fr ∈ c.stack, Reads c.s fr) ∨ Starts c ∨ Defers c

structure Inv (w : Obs) : Prop where
  emitted : w.cfg.out.data = w.chunks
  wait : ReadWait (waits w.cfg.s).1
  pending : w.readable = true → w.closed = true ∨ w.last = some false ∨ Pending w.cfg

theorem Inv.drained {w : Obs} (h : Inv w) : Drained w where
  emitted := h.emitted
  last := by
    intro hr hk
    rcases h.pending hr with hc | hl | ⟨fr, hfr, -⟩ | ⟨-, -, f, k, hk'⟩ | ⟨-, -, -, f, hk'⟩
    · exact .inl hc
    · exact .inr hl
    · rw [hk] at hfr; cases hfr
    · rw [hk] at hk'; cases hk'
    · rw [hk] at hk'
      rcases hk' with hk' | hk' | hk' | hk' <;> cases hk'

/-- A frame that reads is still there after a step that does not. -/
theorem pending_unread {c c' : Cfg} (h : Unread c c') {fr : Frame} (hfr : fr ∈ c.stack)
    (hr : Reads c.s fr) : Pending c' := by
  obtain ⟨fs, hfs⟩ := h.stack
  refine .inl ⟨fr, hfs ▸ List.mem_append_right fs hfr, ?_⟩
  cases fr with
  | tlsReadLoop => exact h.read.trans hr
  | plainRead | tlsRetryRead => trivial
  | _ => exact hr

/-- User code runs on an empty stack or in a handler. -/
theorem Pending.of_userTurn {c : Cfg} (h : Pending c) (hu : userTurn c = true) :
    ∃ fr ∈ c.stack, Reads c.s fr := by
  rcases h with h | ⟨-, -, f, k, hk⟩ | ⟨-, -, -, f, hk⟩
  · exact h
  · simp [userTurn, hk] at hu
  · rcases hk with hk | hk | hk | hk <;> simp [userTurn, hk] at hu

theorem pending_event {c : Cfg} {fd : Fd} {flags : Flags} (hw : ReadWait (waits c.s).1)
    (hk : c.stack = []) (hr : isReadable c fd flags = true)
    (hkeeps : c.s.mMode = .tls → c.s.mSsl.readWaitState = .readWaitingForWrite →
      flags.write = true ∧ c.s.mSsl.writeWaitState ≠ .writeWaitingForRead) :
    Pending (socketCallback fd flags c) := by
  simp only [isReadable, Bool.and_eq_true, Bool.or_eq_true, beq_iff_eq, Bool.not_eq_true'] at hr
  obtain ⟨⟨⟨hfd, hread⟩, herr⟩, hst⟩ := hr
  have hevent : ∀ f, Pending (processEvent f flags c) := by
    intro f
    unfold processEvent
    rw [herr, hread, if_neg Bool.false_ne_true]
    cases hm : c.s.mMode with
    | plain => exact .inl ⟨.plainRead, by simp, trivial⟩
    | tls =>
      rcases hw with hw | hw | hw
      · exact .inr (.inl ⟨hst, .inl hw, f, _, rfl⟩)
      · exact .inr (.inl ⟨hst, .inr hw, f, _, rfl⟩)
      · obtain ⟨hwrite, hww⟩ := hkeeps hm hw
        exact .inr (.inr ⟨hst, hw, hww, f, .inl (by simp [hwrite, hk])⟩)
  unfold socketCallback
  split
  · exact hevent .v4
  · rename_i h4
    rw [if_pos (hfd.resolve_left h4)]
    exact hevent .v6

theorem callsRead_of_reads {c : Cfg} {fr : Frame} {k : List Frame} (hk : c.stack = fr :: k)
    (hr : Reads c.s fr) : callsRead c = true := by
  cases fr with
  | plainRead | tlsRetryRead => simp [callsRead, hk]
  | tlsReadLoop =>
    have hw : c.s.mSsl.readWaitState = .notWaiting := hr
    simp [callsRead, hk, hw]
  | _ => cases hr

/-- The read part pushes the frame that reads. -/
theorem pending_tlsRead {c : Cfg} {f : Family} (hst : c.s.mState = .connected)
    (hw : (waits c.s).1 = .notWaiting ∨ (waits c.s).1 = .readWaitingForRead) :
    Pending (tlsReadPart f c) := by
  simp only [tlsReadPart, hst]
  rcases hw with hw | hw
  · exact .inl ⟨.tlsReadLoop, by simp, hw⟩
  · have hw' : c.s.mSsl.readWaitState = .readWaitingForRead := hw
    exact .inl ⟨.tlsRetryRead, by simp [hw'], trivial⟩

theorem pending_defers {fr : Frame} {k : List Frame} {c c' : Cfg} {a : Ans} (hk : c.stack = fr :: k)
    (hd : Defers c) (h : exec fr { c with stack := k } a = some c') : Pending c' := by
  obtain ⟨hst, hw, hww, f, hstack⟩ := hd
  have hread : c.s.mSsl.readWaitState = .readWaitingForWrite := hw
  have hwrite : c.s.mSsl.writeWaitState ≠ .writeWaitingForRead := hww
  rw [hk] at hstack
  rcases hstack with hstack | hstack | hstack | hstack <;> cases hstack
  · obtain ⟨rfl, -⟩ := pureBlock_some h
    simp only [tlsReadPart, hst, hread]
    exact .inr (.inr ⟨hst, hw, hww, f, .inr (.inl rfl)⟩)
  · obtain ⟨rfl, -⟩ := pureBlock_some h
    rw [if_neg hwrite]
    exact .inr (.inr ⟨hst, hw, hww, f, .inr (.inr (.inl rfl))⟩)
  · simp only [exec, hread] at h
    obtain ⟨rfl, -⟩ := pureBlock_some h
    exact .inr (.inr ⟨hst, hw, hww, f, .inr (.inr (.inr rfl))⟩)
  · simp only [exec, tlsWritePart, loopCall_s, hst, hread] at h
    obtain ⟨rfl, -⟩ := pureBlock_some h
    exact .inl ⟨.tlsRetryRead, by simp, trivial⟩

theorem pending_exec {fr : Frame} {k : List Frame} {c c' : Cfg} {a : Ans} (hk : c.stack = fr :: k)
    (hp : Pending c) (hr : callsRead c = false) (h : exec fr { c with stack := k } a = some c') :
    Pending c' := by
  rcases hp with ⟨fr', hfr, hreads⟩ | ⟨hst, hw, f, k', hk'⟩ | hd
  · rw [hk] at hfr
    rcases List.mem_cons.mp hfr with rfl | hfr
    · rw [callsRead_of_reads hk hreads] at hr
      cases hr
    · exact pending_unread (unread_exec hk hr h) hfr hreads
  · cases hk.symm.trans hk'
    obtain ⟨rfl, -⟩ := pureBlock_some h
    exact pending_tlsRead hst hw
  · exact pending_defers hk hd h

/-- A read that yields data is followed by another one, or it was the retry. -/
theorem pending_read {fr : Frame} {k : List Frame} {c c' : Cfg} {a : Ans} (hk : c.stack = fr :: k)
    (hr : callsRead c = true) (h : exec fr { c with stack := k } a = some c') :
    ∃ again, readBlock again { c with stack := k } a = some c' ∧
      (fr = .tlsRetryRead ∨ ∃ fr' ∈ again, Reads c.s fr') := by
  cases fr with
  | plainRead => exact ⟨_, h, .inr ⟨.plainRead, by simp, trivial⟩⟩
  | tlsRetryRead => exact ⟨_, h, .inl rfl⟩
  | tlsReadLoop =>
    have hw : c.s.mSsl.readWaitState = .notWaiting := by simpa [callsRead, hk] using hr
    simp only [exec, if_pos hw] at h
    exact ⟨_, h, .inr ⟨.tlsReadLoop, by simp, hw⟩⟩
  | _ => simp [callsRead, hk] at hr

/-! ## Runs -/

theorem inv_run {w : Obs} {fr : Frame} {k : List Frame} {c' : Cfg} {a : Ans} (h : Inv w)
    (hc : Keeps w (.run a)) (hk : w.cfg.stack = fr :: k)
    (hs : exec fr { w.cfg with stack := k } a = some c') : Inv (observe w (.run a) c') := by
  cases hr : callsRead w.cfg with
  | false =>
    have hp := unread_exec hk hr hs
    simp only [observe, hr, Bool.false_eq_true, if_false]
    exact ⟨hp.data.trans h.emitted, hp.read ▸ h.wait, fun hreadable =>
      (h.pending hreadable).imp_right (Or.imp_right fun hpend => pending_exec hk hpend hr hs)⟩
  | true =>
    obtain ⟨again, hblock, hagain⟩ := pending_read hk hr hs
    have hwait : ReadWait (waits c'.s).1 := (readBlock_effect hblock).read.elim
      (fun he => he ▸ h.wait) id
    simp only [observe, hr, if_true]
    rcases readBlock_chunk hblock with ⟨b, rfl, hdata, hwaits, hstack⟩ | ⟨hnone, hdata, -⟩
    · refine ⟨by simp [hdata, h.emitted, chunk], hwait, fun hreadable => ?_⟩
      rcases hagain with rfl | ⟨fr', hfr', hreads⟩
      · -- the condition excludes a retry that yields data
        cases hclosed : w.closed with
        | true => exact .inl rfl
        | false =>
          have hno := hc hreadable hclosed (by rw [hk]; rfl)
          cases hno
      · refine .inr (.inr (.inl ⟨fr', ?_, ?_⟩))
        · rw [hstack]
          simp [hfr']
        · cases fr' with
          | tlsReadLoop => exact (congrArg Prod.fst hwaits).trans hreads
          | plainRead | tlsRetryRead => trivial
          | _ => exact hreads
    · exact ⟨by simp [hdata, h.emitted, hnone], hwait, fun _ => .inr (.inl (by simp [hnone]))⟩

theorem guarded : observed.Guarded Keeps Inv where
  init := by
    rintro w rfl
    exact ⟨rfl, .inl rfl, fun h => by cases h⟩
  step w l w' h hc hs := by
    obtain ⟨c', hstep, rfl⟩ := Option.map_eq_some_iff.mp hs
    rcases (step_cases hstep).2 with ⟨op, rfl, hu, hcall⟩ | ⟨fd, flags, rfl, hk, rfl⟩ |
      ⟨a, fr, k, rfl, hk, hexec⟩ | ⟨k, rfl, hk, rfl⟩
    · have hp := passes_call hcall
      refine ⟨hp.data.trans h.emitted, hp.read ▸ h.wait, fun hreadable => ?_⟩
      rcases h.pending hreadable with hclosed | hlast | hpend
      · exact .inl (by simp [observe, hclosed])
      · exact .inr (.inl hlast)
      · obtain ⟨fr, hfr, hreads⟩ := hpend.of_userTurn hu
        exact .inr (.inr (pending_unread hp.toUnread hfr hreads))
    · have hp := passes_event fd flags w.cfg
      refine ⟨hp.data.trans h.emitted, hp.read ▸ h.wait, fun hreadable => ?_⟩
      exact .inr (.inr (pending_event h.wait hk hreadable (hc hreadable)))
    · exact inv_run h hc hk hexec
    · refine ⟨h.emitted, h.wait, fun hreadable => ?_⟩
      refine (h.pending hreadable).imp_right (Or.imp_right fun hpend => ?_)
      obtain ⟨fr, hfr, hreads⟩ := hpend.of_userTurn (by simp [userTurn, hk])
      rw [hk] at hfr
      rcases List.mem_cons.mp hfr with rfl | hfr
      · cases hreads
      · exact .inl ⟨fr, hfr, hreads⟩

/-- **Every readable event is drained**, in the runs whose steps all keep the
condition. -/
theorem drained_of_keeps {t : List (Label × Obs)} (ht : observed.Trace start t)
    (hc : LTS.AllSteps Keeps start t) : LTS.AllStates Drained start t :=
  guarded.allStates (fun _ => Inv.drained) ht (guarded.init start rfl) hc

instance (w : Obs) : ∀ l : Label, Decidable (Keeps w l)
  | .event fd flags =>
    inferInstanceAs (Decidable (isReadable w.cfg fd flags = true → w.cfg.s.mMode = .tls →
      w.cfg.s.mSsl.readWaitState = .readWaitingForWrite →
      flags.write = true ∧ w.cfg.s.mSsl.writeWaitState ≠ .writeWaitingForRead))
  | .run a =>
    inferInstanceAs (Decidable (w.readable = true → w.closed = false →
      w.cfg.stack.head? = some .tlsRetryRead → chunk a = none))
  | .call _ => isTrue trivial
  | .ret => isTrue trivial

/-- A TLS socket that is connected; its first readable event reads a byte and
ends with `WANT_READ`. -/
def readsOnce : List Label :=
  [.call (.connect .v4 .tls (some 5) .ok), .ret, .run .unit, .run .sslDone, .ret, .run .unit,
   .run .unit, .event 5 fdRead, .run .unit, .run .unit, .run (.read [1]), .ret, .run .sslWantRead]

/-- At the second event there is nothing. -/
def readsTwice : List Label := readsOnce ++ [.event 5 fdRead, .run .unit, .run .sslWantRead,
  .run .unit, .run .unit]

theorem readsTwice_runs : (LTS.record obsStep start readsTwice).isSome := by decide

theorem drained_of_keeps_readsTwice :
    LTS.AllStates Drained start ((LTS.record obsStep start readsTwice).get readsTwice_runs) :=
  drained_of_keeps (LTS.trace_record readsTwice_runs) (by decide)

/-- At the second event there is data. -/
def readsLate : List Label := readsOnce ++ [.event 5 fdRead, .run .unit, .run (.read [2]), .ret,
  .run .unit, .run .unit]

theorem readsLate_runs : (LTS.record obsStep start readsLate).isSome := by decide

/-- The callback of the second event has returned: it read once, there was data,
and it did not read again. -/
theorem read_not_drained :
    ¬ ∀ t, observed.Trace start t → LTS.AllStates Drained start t := by
  intro h
  have hdrained := (h _ (LTS.trace_record readsLate_runs)).last
  exact absurd (hdrained.last (by decide) (by decide)) (by decide)

/-- A handshake that an error event cuts short leaves `SSLWriteWaitingForRead` behind, and
`setSocket` makes the socket `Connected`; an earlier connection has left `SSLReadWaitingForWrite`.
The write that the read part of the next event retries fails. -/
def writesFirst : List Label :=
  [.call (.connect .v4 .tls (some 5) .ok), .ret, .run .unit, .run .sslDone, .ret, .run .unit,
   .run .unit, .event 5 fdRead, .run .unit, .run .unit, .run .sslWantWrite, .event 5 fdReadWrite,
   .run .unit, .run .unit, .run .unit, .run .unit, .run .sslZeroReturn, .ret, .run .unit, .run .unit,
   .run .unit, .call (.connect .v4 .tls (some 5) .ok), .ret, .run .unit, .run .sslWantRead,
   .run .unit, .event 5 ⟨true, false, false⟩, .call (.write [1]), .call (.setSocket 7 .v4),
   .event 7 fdReadWrite, .run .unit, .run .unit, .run .unit, .run (.sslError 1), .ret, .run .unit,
   .run .unit]

/-- So a readable and writable event can end without a read. -/
example : (LTS.replay obsStep start writesFirst).map
    (fun w => (w.readable, w.cfg.stack, w.closed, w.last)) = some (true, [], false, none) := by decide

/-! ### The loop is dead -/

theorem stopped_step {c c' : Cfg} {l : Label} (h : step c l = some c')
    (hw : (waits c.s).1 ≠ .notWaiting) : (waits c'.s).1 ≠ .notWaiting := by
  have hunread : Passes c c' → (waits c'.s).1 ≠ .notWaiting := fun hp => hp.read ▸ hw
  rcases (step_cases h).2 with ⟨op, rfl, hu, hcall⟩ | ⟨fd, flags, rfl, hk, rfl⟩ |
    ⟨a, fr, k, rfl, hk, hexec⟩ | ⟨k, rfl, hk, rfl⟩
  · exact hunread (passes_call hcall)
  · exact hunread (passes_event fd flags c)
  · cases hr : callsRead c with
    | false => exact (unread_exec hk hr hexec).read ▸ hw
    | true =>
      obtain ⟨again, hblock, -⟩ := pending_read hk hr hexec
      rcases readBlock_chunk hblock with ⟨b, -, -, hwaits, -⟩ | ⟨-, -, hwaits | hne⟩
      · exact hwaits ▸ hw
      · exact hwaits ▸ hw
      · exact hne
  · exact hw

/-- **Once `SSL_read` has stopped, `readWaitState` is never `SSLNotWaiting`
again**: no later callback enters the read loop of `processTLS`. -/
theorem stopped_forever {init : Cfg → Prop} {c c' : Cfg} {ls : List Label}
    (h : (lts init).Run c ls c') (hw : (waits c.s).1 ≠ .notWaiting) :
    (waits c'.s).1 ≠ .notWaiting :=
  h.preserves (I := fun c => (waits c.s).1 ≠ .notWaiting) (fun _ _ _ hi hs => stopped_step hs hi) hw

end Reckoning.L4.TcpDrain
