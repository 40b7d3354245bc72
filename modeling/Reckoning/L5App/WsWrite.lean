import Reckoning.Core.LTS
import Reckoning.L1Bytes.Buffer
import Reckoning.L5App.WsUpgrade

/-!
# The message queue of `WebSocketClient`

The four `write` functions put a message into `mWriteBuffers`, and
`WebSocketClient::write()` hands the whole queue to wslay once the client is
upgraded (include/net/WebSocketClient.h:75-101,
lib/net/WebSocketClient.cpp:299-316). The two that take a pointer copy the
message to a buffer of the pool first, which they get without saying how large
the message is. A buffer that waits is the list of its bytes.

The upgrade is the one of `attemptUpgrade`. A failed write to the socket drops
socket and context while `write()` runs (`lost`: in which message), and
`wslay_event_want_write` is then called on a null context. A step is enabled only
while there is no `fault`.

* `Queues`: the intended handing over.
* `queues_iff`: the runs that keep it.
-/
namespace Reckoning.L5.WsWrite
open Reckoning.L1 Reckoning.L5.WebSocketClient

/-! ## The code -/

inductive Fault
  | assert
  | nullContext
  deriving DecidableEq, Repr

/-- `handed` has the calls of `wslay_event_queue_msg`. Ghosts: the messages
`given` to the client, and whether an upgrade has completed. -/
structure State where
  ws : Client
  mWriteBuffers : List Bytes
  handed : List Bytes
  fault : Option Fault
  given : List Bytes
  upgraded : Bool
  deriving DecidableEq, Repr

/-- What the loop hands over and what it leaves, and whether the connection was
lost in it. -/
structure Sent where
  handed : List Bytes
  left : List Bytes
  lost : Bool
  deriving DecidableEq, Repr

/-- mirrors lib/net/WebSocketClient.cpp:303-315 -/
def sendLoop : Option Nat → List Bytes → Sent
  | _, [] => ⟨[], [], false⟩
  | some 0, msg :: q => ⟨[msg], msg :: q, true⟩
  | some (n + 1), msg :: q =>
    let r := sendLoop (some n) q
    { r with handed := msg :: r.handed }
  | none, msg :: q =>
    let r := sendLoop none q
    { r with handed := msg :: r.handed }

/-- mirrors lib/net/WebSocketClient.cpp:299-316, and lines 126-131 for `lost` -/
def write (lost : Option Nat) (s : State) : State :=
  if ¬ (s.ws.mTcp ∧ s.ws.mCtx ∧ s.ws.mUpgraded) then s
  else
    let r := sendLoop lost s.mWriteBuffers
    { s with
      ws := if r.lost then { s.ws with mCtx := false, mTcp := false } else s.ws
      mWriteBuffers := r.left
      handed := s.handed ++ r.handed
      fault := if r.lost then some .nullContext else s.fault }

/-- mirrors include/net/WebSocketClient.h:75-85 -/
def writeBuffer (buffer : Bytes) (lost : Option Nat) (s : State) : State :=
  write lost { s with
    mWriteBuffers := s.mWriteBuffers ++ [buffer], given := s.given ++ [buffer] }

/-- mirrors include/net/WebSocketClient.h:87-101 -/
def writeData (junk : Nat → UInt8) (p : Pool 20 16384) (data : Bytes) (lost : Option Nat)
    (s : State) : State :=
  let s := { s with given := s.given ++ [data] }
  let (buf, p) := p.get junk 0
  match p.assign data buf with
  | none => { s with fault := some .assert }
  | some (buf, p) =>
    write lost { s with mWriteBuffers := s.mWriteBuffers ++ [(deref p buf).bytes] }

/-- mirrors lib/net/WebSocketClient.cpp:288-297 -/
def close (s : State) : State :=
  if ¬ s.ws.mTcp then s
  else if ¬ s.ws.mCtx then { s with fault := some .assert }
  else { s with ws := { s.ws with mTcp := false, mCtx := false, mUpgraded := false } }

inductive Label
  | write (buffer : Bytes) (lost : Option Nat)
  | writeData (junk : Nat → UInt8) (p : Pool 20 16384) (data : Bytes) (lost : Option Nat)
  | data (fresh : Nat → UInt8) (buffer : Bytes) (lost : Option Nat)
  /-- the state of the socket changes to `Closed` or `Error` -/
  | stopped
  | close

def State.init : State := ⟨.init, [], [], none, [], false⟩

section
variable (sha1 : Bytes → Digest) (key : Bytes)

/-- The handler of `onData`: `attemptUpgrade` ends with `write()` if it succeeds. -/
def data (fresh : Nat → UInt8) (buffer : Bytes) (lost : Option Nat) (s : State) : State :=
  let ws := onData sha1 fresh key buffer s.ws
  if s.ws.mUpgraded = false ∧ ws.mUpgraded = true then
    write lost { s with ws := ws, upgraded := true }
  else { s with ws := ws }

def step (s : State) (l : Label) : Option State :=
  if s.fault ≠ none then none
  else
    match l with
    | .write buffer lost => some (writeBuffer buffer lost s)
    | .writeData junk p data lost => some (writeData junk p data lost s)
    | .data fresh buffer lost => some (data sha1 key fresh buffer lost s)
    | .stopped => some { s with ws := { s.ws with mCtx := false, mTcp := false } }
    | .close => some (close s)

def queue : LTS State Label := LTS.ofFn (· = .init) (step sha1 key)

end

/-- Upgraded, with the connection open. -/
def State.Open (s : State) : Prop :=
  s.ws.mTcp = true ∧ s.ws.mCtx = true ∧ s.ws.mUpgraded = true

/-- No assertion fails. wslay gets the messages in order, each once, none before
the upgrade, and all of them while the connection is open after it. -/
structure Queues (s : State) : Prop where
  assert : s.fault ≠ some .assert
  order : s.handed <+: s.given
  before : s.upgraded = false → s.handed = []
  all : s.fault = none → s.Open → s.handed = s.given

/-- A message that is given as a pointer has room in a buffer of the pool. -/
def Keeps (_ : State) : Label → Prop
  | .writeData _ _ data _ => data.length ≤ 16384
  | _ => True

instance (s : State) : ∀ l, Decidable (Keeps s l)
  | .writeData _ _ data _ => inferInstanceAs (Decidable (data.length ≤ 16384))
  | .write .. | .data .. | .stopped | .close => isTrue trivial

/-! ## One call -/

/-- Everything is handed over, unless the connection is lost. -/
theorem sendLoop_spec : ∀ (lost : Option Nat) (q : List Bytes),
    (sendLoop lost q).handed <+: q ∧
      ((sendLoop lost q).lost = false → (sendLoop lost q).handed = q ∧ (sendLoop lost q).left = [])
  | _, [] => ⟨List.prefix_refl [], fun _ => ⟨by simp [sendLoop], by simp [sendLoop]⟩⟩
  | some 0, msg :: q => ⟨⟨q, rfl⟩, nofun⟩
  | some (n + 1), msg :: q => by
    obtain ⟨hpre, hall⟩ := sendLoop_spec (some n) q
    exact ⟨List.prefix_cons_inj msg |>.mpr hpre,
      fun hl => ⟨congrArg (msg :: ·) (hall hl).1, (hall hl).2⟩⟩
  | none, msg :: q => by
    obtain ⟨hpre, hall⟩ := sendLoop_spec none q
    exact ⟨List.prefix_cons_inj msg |>.mpr hpre,
      fun hl => ⟨congrArg (msg :: ·) (hall hl).1, (hall hl).2⟩⟩

/-- What holds between two calls: what has not been handed over waits, and while
the connection is open nothing waits. -/
structure Inv (s : State) : Prop where
  assert : s.fault ≠ some .assert
  order : s.handed <+: s.given
  context : s.ws.mTcp = s.ws.mCtx
  before : s.upgraded = false → s.handed = [] ∧ s.ws.mUpgraded = false
  waiting : s.fault = none → s.handed ++ s.mWriteBuffers = s.given
  empty : s.fault = none → s.Open → s.mWriteBuffers = []

variable {s s' : State} {l : Label}

theorem Inv.queues (h : Inv s) : Queues s where
  assert := h.assert
  order := h.order
  before hu := (h.before hu).1
  all hf ho := by rw [← h.waiting hf, h.empty hf ho, List.append_nil]

/-- What holds in front of `write()`. -/
structure Ready (s : State) : Prop where
  fault : s.fault = none
  context : s.ws.mTcp = s.ws.mCtx
  before : s.upgraded = false → s.handed = [] ∧ s.ws.mUpgraded = false
  waiting : s.handed ++ s.mWriteBuffers = s.given

theorem Ready.write (h : Ready s) (lost : Option Nat) : Inv (write lost s) := by
  have hasserts : s.fault ≠ some .assert := by rw [h.fault]; exact nofun
  unfold WsWrite.write
  split
  · rename_i hclosed
    exact ⟨hasserts, ⟨_, h.waiting⟩, h.context, h.before, fun _ => h.waiting,
      fun _ ho => absurd ho hclosed⟩
  · rename_i hopen
    have hopen := not_not.mp hopen
    have hup : s.upgraded = true := (Bool.not_eq_false _).mp fun hu =>
      Bool.false_ne_true ((h.before hu).2.symm.trans hopen.2.2)
    obtain ⟨hpre, hall⟩ := sendLoop_spec lost s.mWriteBuffers
    have horder : s.handed ++ (sendLoop lost s.mWriteBuffers).handed <+: s.given := by
      rw [← h.waiting]
      exact (List.prefix_append_right_inj _).mpr hpre
    have hbefore : s.upgraded = false → s.handed ++ (sendLoop lost s.mWriteBuffers).handed = [] ∧
        s.ws.mUpgraded = false := fun hu => by rw [hup] at hu; cases hu
    dsimp only
    cases hlost : (sendLoop lost s.mWriteBuffers).lost with
    | true =>
      simp only [if_true]
      exact {
        assert := nofun
        order := horder
        context := rfl
        before := hbefore
        waiting := nofun
        empty := nofun }
    | false =>
      obtain ⟨hhanded, hleft⟩ := hall hlost
      simp only [Bool.false_eq_true, if_false]
      exact {
        assert := hasserts
        order := horder
        context := h.context
        before := hbefore
        waiting := fun _ => by simp only [hhanded, hleft, List.append_nil, h.waiting]
        empty := fun _ _ => hleft }

/-- One more message. -/
theorem Inv.push (h : Inv s) (hf : s.fault = none) (msg : Bytes) :
    Ready { s with mWriteBuffers := s.mWriteBuffers ++ [msg], given := s.given ++ [msg] } where
  fault := hf
  context := h.context
  before := h.before
  waiting := by simp only [← List.append_assoc, h.waiting hf]

/-- A buffer of the pool that is asked for without a size has 16384 bytes. -/
theorem get_zero_max {junk : Nat → UInt8} {p p' : Pool 20 16384} {r : Ref 20}
    (h : p.get junk 0 = (r, p')) : r.max 16384 = 16384 := by
  simp only [Pool.get, Nat.zero_le, if_true] at h
  split at h <;> cases h <;> rfl

theorem assign_none {p : Pool 20 16384} {r : Ref 20} {data : Bytes}
    (h : r.max 16384 < data.length) : p.assign data r = none := by
  have hno : ∀ {m : Nat} (b : Buffer m), m < data.length → b.assign data = none :=
    fun b hb => dif_neg (Nat.not_le.mpr hb)
  cases r with
  | pool i => exact congrArg (Option.map _) (hno (p i).buffer h)
  | own b => exact congrArg (Option.map _) (hno b h)

/-- A message that has room is written as the buffer with its bytes. -/
theorem writeData_eq {junk : Nat → UInt8} {p : Pool 20 16384} {data : Bytes} (lost : Option Nat)
    (s : State) (h : data.length ≤ 16384) :
    writeData junk p data lost s = writeBuffer data lost s := by
  rcases hget : p.get junk 0 with ⟨r, p₁⟩
  obtain ⟨r', p', hassign, hl⟩ := assign_spec data r p₁ (by rw [get_zero_max hget]; exact h)
  simp only [writeData, hget, hassign, hl.bytes, writeBuffer]

theorem writeData_fails {junk : Nat → UInt8} {p : Pool 20 16384} {data : Bytes}
    (lost : Option Nat) (s : State) (h : 16384 < data.length) :
    (writeData junk p data lost s).fault = some .assert := by
  rcases hget : p.get junk 0 with ⟨r, p₁⟩
  have hnone : p₁.assign data r = none := assign_none (by rw [get_zero_max hget]; exact h)
  simp only [writeData, hget, hnone]

/-! ## The upgrade -/

section
variable (sha1 : Bytes → Digest) (key : Bytes)

/-- Either the two pointers are as before, or both are null. -/
theorem attemptUpgrade_pointers (fresh : Nat → UInt8) (ws : Client) :
    ((attemptUpgrade sha1 fresh key ws).mTcp = ws.mTcp ∧
      (attemptUpgrade sha1 fresh key ws).mCtx = ws.mCtx) ∨
    ((attemptUpgrade sha1 fresh key ws).mTcp = false ∧
      (attemptUpgrade sha1 fresh key ws).mCtx = false) := by
  have hmerge : (mergeReadBuffers fresh ws).mTcp = ws.mTcp ∧
      (mergeReadBuffers fresh ws).mCtx = ws.mCtx := by
    unfold mergeReadBuffers
    split
    · exact ⟨rfl, rfl⟩
    · dsimp only
      split <;> exact ⟨rfl, rfl⟩
  unfold attemptUpgrade
  generalize mergeReadBuffers fresh ws = ws' at hmerge
  dsimp only
  split
  · exact .inl hmerge
  · split
    · exact .inl hmerge
    · split
      · exact .inr ⟨rfl, rfl⟩
      · split
        · exact .inr ⟨rfl, rfl⟩
        · split
          · exact .inl hmerge
          · split
            · exact .inr ⟨rfl, rfl⟩
            · exact .inl hmerge
  · exact .inl hmerge

theorem onData_context (fresh : Nat → UInt8) (buffer : Bytes) {ws : Client}
    (h : ws.mTcp = ws.mCtx) :
    (onData sha1 fresh key buffer ws).mTcp = (onData sha1 fresh key buffer ws).mCtx := by
  unfold onData
  split
  · exact h
  dsimp only
  split
  · exact h
  · rcases attemptUpgrade_pointers sha1 key fresh
      { ws with mReadBuffers := ws.mReadBuffers ++ [buffer] } with ⟨h1, h2⟩ | ⟨h1, h2⟩
    · rw [h1, h2]; exact h
    · rw [h1, h2]

/-- Once upgraded, data changes neither the pointers nor that. -/
theorem onData_upgraded (fresh : Nat → UInt8) (buffer : Bytes) {ws : Client}
    (h : ws.mUpgraded = true) :
    (onData sha1 fresh key buffer ws).mUpgraded = true ∧
      (onData sha1 fresh key buffer ws).mTcp = ws.mTcp ∧
      (onData sha1 fresh key buffer ws).mCtx = ws.mCtx := by
  unfold onData
  split
  · exact ⟨h, rfl, rfl⟩
  · dsimp only
    rw [if_pos h]
    exact ⟨h, rfl, rfl⟩

theorem Inv.data (h : Inv s) (hf : s.fault = none) (fresh : Nat → UInt8) (buffer : Bytes)
    (lost : Option Nat) : Inv (data sha1 key fresh buffer lost s) := by
  have hcontext := onData_context sha1 key fresh buffer h.context
  unfold WsWrite.data
  dsimp only
  split
  · have hready : Ready
        { s with ws := onData sha1 fresh key buffer s.ws, upgraded := true } :=
      ⟨hf, hcontext, nofun, h.waiting hf⟩
    exact hready.write lost
  · rename_i hno
    refine ⟨h.assert, h.order, hcontext, fun hu => ⟨(h.before hu).1, ?_⟩, h.waiting, fun _ ho => ?_⟩
    · exact eq_false_of_ne_true fun hup => hno ⟨(h.before hu).2, hup⟩
    · -- upgraded now, so upgraded before
      have hup : s.ws.mUpgraded = true :=
        (Bool.not_eq_false _).mp fun hup => hno ⟨hup, ho.2.2⟩
      obtain ⟨-, htcp, hctx⟩ := onData_upgraded sha1 key fresh buffer hup
      exact h.empty hf ⟨htcp ▸ ho.1, hctx ▸ ho.2.1, hup⟩

/-! ## Runs -/

theorem inv_keeps (hi : Inv s) (hc : Keeps s l) (hs : step sha1 key s l = some s') : Inv s' := by
  unfold step at hs
  split at hs
  · cases hs
  rename_i hf
  have hf := not_not.mp hf
  cases l with
  | write buffer lost =>
    cases hs
    exact (hi.push hf buffer).write lost
  | writeData junk p data lost =>
    cases hs
    rw [writeData_eq lost s hc]
    exact (hi.push hf data).write lost
  | data fresh buffer lost =>
    cases hs
    exact hi.data sha1 key hf fresh buffer lost
  | stopped =>
    cases hs
    exact ⟨hi.assert, hi.order, rfl, hi.before, hi.waiting, fun _ ho => absurd ho.1 nofun⟩
  | close =>
    cases hs
    unfold close
    split
    · exact hi
    rename_i htcp
    rw [if_neg (by rw [← hi.context]; exact htcp)]
    exact ⟨hi.assert, hi.order, rfl, fun hu => ⟨(hi.before hu).1, rfl⟩, hi.waiting,
      fun _ ho => absurd ho.1 nofun⟩

theorem queues_breaks (hc : ¬ Keeps s l) (hs : step sha1 key s l = some s') : ¬ Queues s' := by
  unfold step at hs
  split at hs
  · cases hs
  cases l with
  | writeData junk p data lost =>
    cases hs
    exact fun h => h.assert (writeData_fails lost s (Nat.not_le.mp hc))
  | _ => exact absurd trivial hc

theorem exact_keeps : (queue sha1 key).Exact Keeps Inv Queues where
  holds _ := Inv.queues
  keeps _ _ _ := inv_keeps sha1 key
  breaks _ _ _ _ := queues_breaks sha1 key

theorem inv_init : Inv .init :=
  ⟨nofun, List.prefix_refl [], rfl, fun _ => ⟨rfl, rfl⟩, fun _ => rfl, fun _ _ => rfl⟩

/-- **The messages are handed over as they should be** exactly when none of those that are given
as a pointer is longer than a buffer of the pool. -/
theorem queues_iff (t : List (Label × State)) (ht : (queue sha1 key).Trace .init t) :
    LTS.AllStates Queues .init t ↔ LTS.AllSteps Keeps .init t :=
  (exact_keeps sha1 key).allStates_iff ht inv_init

end

/-- A message before the upgrade and one after it. -/
def twoMessages : List Label :=
  [.write [1] none, .data (fun _ => 0) WsUpgrade.answer none,
    .writeData (fun _ => 0) (fun _ => ⟨Buffer.create (fun _ => 0) 16384, 0⟩) [2] none]

theorem queues_twoMessages : LTS.AllStates Queues .init
    ((LTS.record (step WsUpgrade.zeroHash []) .init twoMessages).get (by decide +kernel)) :=
  (queues_iff WsUpgrade.zeroHash [] _ (LTS.trace_record (by decide +kernel))).mpr
    (by decide +kernel)

/-- A message of one byte more than a buffer of the pool has. -/
theorem writeData_long : ¬ ∀ t, (queue WsUpgrade.zeroHash []).Trace .init t →
    LTS.AllStates Queues .init t := by
  intro h
  let p : Pool 20 16384 := fun _ => ⟨Buffer.create (fun _ => 0) 16384, 0⟩
  obtain ⟨msg, hmsg⟩ : ∃ msg : Bytes, 16384 < msg.length :=
    ⟨List.replicate 16385 0, by rw [List.length_replicate]; decide⟩
  have hstep : step WsUpgrade.zeroHash [] .init (.writeData (fun _ => 0) p msg none) =
      some (writeData (fun _ => 0) p msg none .init) := if_neg (not_not.mpr rfl)
  have hfails : (writeData (fun _ => 0) p msg none .init).fault = some .assert :=
    writeData_fails none .init hmsg
  exact (h [(_, _)] (.cons hstep (.nil _))).last.assert hfails

end Reckoning.L5.WsWrite
