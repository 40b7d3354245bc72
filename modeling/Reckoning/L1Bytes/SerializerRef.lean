import Reckoning.L1Bytes.Serializer

/-!
# Writing to the buffer of a caller

`Serializer(buffer, mode)` with a mode that has `Write` is given a reference to
a pointer of the caller (include/serializer/Serializer.h:101-120). It writes to the
caller's buffer while there is room, goes over to a larger one when there is not,
and `close()` puts the buffer into the caller's pointer.

The constructor asks for the capacity of a buffer that is not there, when the
caller's pointer is null and, with `Truncate`, always. `thread = none` is that, or a
failed assertion. As in `Serializer`, the rest of the program may use the pool
between two calls.

* `construct_spec`: what the constructor leaves when it does not fail.
* `appends_iff`: when the values are appended.
-/
namespace Reckoning.L1.SerializerRef
open Serializer

def Truncate : UInt8 := 0x4

/-! ## The code -/

/-- The seven bits of the mode.
mirrors include/serializer/Serializer.h:101-120 -/
def construct (junk : Nat → UInt8) (buffer : Option (Ref 4)) (mode : UInt8) (p : Pool 4 16384) :
    Option Thread :=
  let mMode := mode &&& 0x7f
  match if mMode &&& Truncate = 0 then buffer else none with
  | none => none
  | some r =>
    let p := p.retain r
    if r.max 16384 = 0 then
      let p := p.release r
      if mMode &&& Write = 0 then some ⟨p, ⟨none, 0, .invalid, mMode⟩⟩
      else realloc junk 16384 ⟨p, ⟨none, 0, .noData, mMode⟩⟩
    else
      some ⟨p, ⟨some r, 0, if (deref p r).mSize = 0 then .noData else .dataReady, mMode⟩⟩

/-- A shared pointer is copied over another one. -/
def assignPtr (src dst : Option (Ref 4)) (p : Pool 4 16384) : Pool 4 16384 :=
  let p := src.elim p p.retain
  dst.elim p p.release

/-- With a path that is empty and a buffer that is not its own.
mirrors include/serializer/Serializer.h:147-157 -/
def close (buffer : Option (Ref 4)) (t : Thread) : Thread × Option (Ref 4) :=
  if t.ser.mValid = .invalid then (t, buffer)
  else
    (⟨assignPtr t.ser.mBuffer buffer t.tPool, { t.ser with mValid := .invalid }⟩, t.ser.mBuffer)

/-- The destructor: the member pointer goes as well.
mirrors include/serializer/Serializer.h:142-145 -/
def destruct (buffer : Option (Ref 4)) (t : Thread) : Thread × Option (Ref 4) :=
  let (t, buffer) := close buffer t
  (⟨t.ser.mBuffer.elim t.tPool t.tPool.release, { t.ser with mBuffer := none }⟩, buffer)

/-! ## Runs -/

inductive Phase
  | opened
  | closed
  | destructed
  deriving DecidableEq, Repr

/-- `written` is the sequence written so far. -/
structure State where
  thread : Option Thread
  buffer : Option (Ref 4)
  written : List Item
  phase : Phase

inductive Label
  | shl (junk junk' : Nat → UInt8) (v : Item)
  | close
  | destruct
  | others (p : Pool 4 16384)

/-- The pointers that the serializer and the caller have. -/
def holders (t : Thread) (buffer : Option (Ref 4)) : List (Ref 4) :=
  t.ser.mBuffer.toList ++ buffer.toList

/-- The rest of the program leaves alone what is being written to, and what has
been handed back. -/
def Undisturbed (s : State) (t : Thread) (p : Pool 4 16384) : Prop :=
  Counted p (holders t s.buffer) ∧
  ∀ r, (if s.phase = .opened then t.ser.mBuffer else s.buffer) = some r →
    deref p r = deref t.tPool r

inductive Step : State → Label → State → Prop
  | shl {s : State} {t : Thread} {junk junk' : Nat → UInt8} {v : Item} :
      s.thread = some t → s.phase = .opened →
      Step s (.shl junk junk' v)
        { s with thread := Serializer.shl junk junk' v t, written := s.written ++ [v] }
  | close {s : State} {t : Thread} :
      s.thread = some t → s.phase ≠ .destructed →
      Step s .close { s with
        thread := some (close s.buffer t).1, buffer := (close s.buffer t).2, phase := .closed }
  | destruct {s : State} {t : Thread} :
      s.thread = some t → s.phase ≠ .destructed →
      Step s .destruct { s with
        thread := some (destruct s.buffer t).1, buffer := (destruct s.buffer t).2,
        phase := .destructed }
  | others {s : State} {t : Thread} {p : Pool 4 16384} :
      s.thread = some t → Undisturbed s t p →
      Step s (.others p) { s with thread := some { t with tPool := p } }

def modeOf (read truncate : Bool) : UInt8 :=
  Write ||| (if read then Read else 0) ||| (if truncate then Truncate else 0)

/-- What the caller has, and the mode it asks for: one with `Write`. -/
structure Setup where
  pool : Pool 4 16384
  buffer : Option (Ref 4)
  counted : Counted pool buffer.toList
  read : Bool
  truncate : Bool

def Setup.mode (c : Setup) : UInt8 := modeOf c.read c.truncate

/-- What is kept of the caller's buffer. -/
def Setup.kept (c : Setup) : Bytes :=
  if c.truncate then [] else c.buffer.elim [] fun r => (deref c.pool r).bytes

def Setup.start (c : Setup) (junk : Nat → UInt8) : State :=
  ⟨SerializerRef.construct junk c.buffer c.mode c.pool, c.buffer, [], .opened⟩

def lts (c : Setup) (junk : Nat → UInt8) : LTS State Label where
  init s := s = c.start junk
  step := Step

/-- Nothing has failed, and once the serializer is closed the caller's pointer is
at what was kept and the values after it. -/
structure Appends (kept : Bytes) (s : State) : Prop where
  thread : s.thread.isSome
  handed : s.phase ≠ .opened → ∃ t r, s.thread = some t ∧ s.buffer = some r ∧ Held t.tPool r ∧
    (deref t.tPool r).bytes = kept ++ s.written.flatMap Item.bytes

/-! ## The calls -/

/-- The serializer has let go, and the caller's pointer is at `bs`. -/
structure Handed (t : Thread) (buffer : Option (Ref 4)) (bs : Bytes) : Prop where
  valid : t.ser.mValid = .invalid
  counted : Counted t.tPool (holders t buffer)
  bytes : ∃ r, buffer = some r ∧ (deref t.tPool r).bytes = bs

section
variable {t : Thread} {r : Ref 4} {buffer : Option (Ref 4)} {bs : Bytes}

theorem deref_assignPtr (src dst : Option (Ref 4)) (p : Pool 4 16384) (r : Ref 4) :
    deref (assignPtr src dst p) r = deref p r := by
  cases src <;> cases dst <;>
    simp only [assignPtr, Option.elim_none, Option.elim_some, deref_release, deref_retain]

/-- The pointer that is copied to counts for what is copied. -/
theorem Counted.assignPtr {p : Pool 4 16384} (h : Counted p (r :: buffer.toList)) :
    Counted (assignPtr (some r) buffer p) [r, r] := by
  cases buffer with
  | none => exact h.retain r
  | some r₀ =>
    have hperm : ([r, r] ++ [r₀]).Perm ([r₀] ++ [r, r]) := List.perm_append_comm
    exact ((h.retain r).perm hperm).release

theorem close_spec (h : Writable t r buffer.toList bs) :
    Handed (close buffer t).1 (close buffer t).2 bs := by
  have hvalid : t.ser.mValid ≠ .invalid := by
    rcases h.valid with hv | hv <;> rw [hv] <;> decide
  rw [close, if_neg hvalid, h.buffer]
  refine ⟨rfl, ?_, r, rfl, by rw [deref_assignPtr, h.bytes]⟩
  simp only [holders, h.buffer]
  exact Counted.assignPtr h.counted

theorem Handed.close_eq (h : Handed t buffer bs) : close buffer t = (t, buffer) :=
  if_pos h.valid

/-- The member pointer goes; the one that has been handed back stays. -/
theorem Handed.dropped (h : Handed t buffer bs) :
    Handed ⟨t.ser.mBuffer.elim t.tPool t.tPool.release, { t.ser with mBuffer := none }⟩ buffer bs := by
  obtain ⟨r, hr, hbytes⟩ := h.bytes
  have hcounted := h.counted
  cases hb : t.ser.mBuffer with
  | none =>
    simp only [holders, hb] at hcounted
    exact ⟨h.valid, hcounted, r, hr, hbytes⟩
  | some r₁ =>
    simp only [holders, hb] at hcounted
    exact ⟨h.valid, hcounted.release, r, hr, by
      rw [Option.elim_some, deref_release, hbytes]⟩

end

theorem modeOf_write : ∀ read truncate : Bool, modeOf read truncate &&& 0x7f &&& Write ≠ 0 := by
  decide

theorem modeOf_truncate : ∀ read truncate : Bool,
    modeOf read truncate &&& 0x7f &&& Truncate = 0 ↔ truncate = false := by
  decide

/-- With a buffer to take over the constructor takes it over, or makes a new one if it
has no memory. -/
theorem construct_spec {c : Setup} {r : Ref 4} (hb : c.buffer = some r) (ht : c.truncate = false)
    (junk : Nat → UInt8) :
    ∃ t r', construct junk c.buffer c.mode c.pool = some t ∧
      Writable t r' c.buffer.toList c.kept := by
  have hcounted := c.counted.retain r
  have hwrite : ¬ c.mode &&& 0x7f &&& Write = 0 := modeOf_write c.read c.truncate
  have hkeep : c.mode &&& 0x7f &&& Truncate = 0 := (modeOf_truncate c.read c.truncate).mpr ht
  have hkept : c.kept = (deref c.pool r).bytes := by
    rw [Setup.kept, ht, hb]
    rfl
  simp only [construct, if_pos hkeep, hkept]
  rw [hb] at hcounted ⊢
  dsimp only
  split
  · rename_i hmax
    have hnil : (deref c.pool r).bytes = [] := by
      have := (deref c.pool r).size_le
      exact List.length_eq_zero_iff.mp (by rw [Buffer.bytes_length]; omega)
    obtain ⟨p', r', hre, hcounted', hbytes, -⟩ := realloc_first
      (t := ⟨(c.pool.retain r).release r, ⟨none, 0, .noData, c.mode &&& 0x7f⟩⟩) rfl
      hcounted.release junk 16384
    exact ⟨_, r', hre, rfl, .inr rfl, hwrite, hcounted', by rw [hbytes, hnil]⟩
  · refine ⟨_, r, rfl, rfl, ?_, hwrite, hcounted, congrArg Buffer.bytes (deref_retain _ _ _)⟩
    dsimp only
    split
    · exact .inr rfl
    · exact .inl rfl

/-! ## What holds in a run -/

/-- While it is open the serializer holds what was kept and the values; after
that the caller does. -/
def Inv (kept : Bytes) (s : State) : Prop :=
  ∃ t, s.thread = some t ∧
    (s.phase = .opened → ∃ r, Writable t r s.buffer.toList (kept ++ s.written.flatMap Item.bytes)) ∧
    (s.phase ≠ .opened → Handed t s.buffer (kept ++ s.written.flatMap Item.bytes))

theorem Inv.appends {kept : Bytes} {s : State} (h : Inv kept s) : Appends kept s := by
  obtain ⟨t, ht, -, hhanded⟩ := h
  refine ⟨ht ▸ rfl, fun hp => ?_⟩
  obtain ⟨r, hr, hbytes⟩ := (hhanded hp).bytes
  have hmem : r ∈ holders t s.buffer := by
    rw [holders, hr]
    exact List.mem_append_right _ (List.mem_singleton_self r)
  exact ⟨t, r, ht, hr, (hhanded hp).counted.held hmem, hbytes⟩

/-- Closing hands the buffer over, the first time; then nothing is left to do. -/
theorem Inv.closes {kept : Bytes} {s : State} {t : Thread} (h : Inv kept s)
    (ht : s.thread = some t) : Handed (close s.buffer t).1 (close s.buffer t).2
      (kept ++ s.written.flatMap Item.bytes) := by
  obtain ⟨t', ht', hopened, hhanded⟩ := h
  obtain rfl := Option.some.inj (ht.symm.trans ht')
  by_cases hp : s.phase = .opened
  · obtain ⟨r, hw⟩ := hopened hp
    exact close_spec hw
  · rw [(hhanded hp).close_eq]
    exact hhanded hp

theorem inv_others {kept : Bytes} {s : State} {t : Thread} {p : Pool 4 16384} (h : Inv kept s)
    (ht : s.thread = some t) (hu : Undisturbed s t p) :
    Inv kept { s with thread := some { t with tPool := p } } := by
  obtain ⟨t', ht', hopened, hhanded⟩ := h
  obtain rfl := Option.some.inj (ht.symm.trans ht')
  obtain ⟨hcounted, hsame⟩ := hu
  refine ⟨_, rfl, fun hp => ?_, fun hp => ?_⟩
  · obtain ⟨r, hw⟩ := hopened hp
    rw [if_pos hp] at hsame
    rw [holders, hw.buffer] at hcounted
    exact ⟨r, hw.buffer, hw.valid, hw.mode, hcounted, by
      rw [← hw.bytes]; exact congrArg Buffer.bytes (hsame r hw.buffer)⟩
  · have hh := hhanded hp
    obtain ⟨r, hr, hbytes⟩ := hh.bytes
    rw [if_neg hp] at hsame
    exact ⟨hh.valid, hcounted, r, hr, by
      rw [← hbytes]; exact congrArg Buffer.bytes (hsame r hr)⟩

theorem inv_step {kept : Bytes} {s s' : State} {l : Label} (h : Inv kept s) (hs : Step s l s') :
    Inv kept s' := by
  cases hs with
  | @shl t junk junk' v ht hp =>
    obtain ⟨t', ht', hopened, -⟩ := h
    obtain rfl := Option.some.inj (ht.symm.trans ht')
    obtain ⟨r, hw⟩ := hopened hp
    obtain ⟨t', r', hshl, hw'⟩ := hw.shl junk junk' v
    exact ⟨t', hshl, fun _ => ⟨r', by simpa using hw'⟩, fun hno => absurd hp hno⟩
  | close ht hp => exact ⟨_, rfl, nofun, fun _ => h.closes ht⟩
  | destruct ht hp => exact ⟨_, rfl, nofun, fun _ => (h.closes ht).dropped⟩
  | others ht hu => exact inv_others h ht hu

/-- The pointer is null, or `Truncate` leaves none: the constructor fails. -/
theorem construct_fails {c : Setup} (h : ¬ (c.buffer.isSome ∧ c.truncate = false))
    (junk : Nat → UInt8) : construct junk c.buffer c.mode c.pool = none := by
  have hnone : (if c.mode &&& 0x7f &&& Truncate = 0 then c.buffer else none) = none := by
    by_cases ht : c.truncate = false
    · rw [ite_eq_right_iff]
      exact fun _ => Option.not_isSome_iff_eq_none.mp fun hb => h ⟨hb, ht⟩
    · exact if_neg fun hm => ht ((modeOf_truncate c.read c.truncate).mp hm)
  simp only [construct, hnone]

/-- **The values are appended** to the caller's buffer, in every run, if and only if its pointer
is not null and `Truncate` is not given. -/
theorem appends_iff (c : Setup) (junk : Nat → UInt8) :
    (∀ s, (lts c junk).Reachable s → Appends c.kept s) ↔ c.buffer.isSome ∧ c.truncate = false := by
  constructor
  · intro h
    refine Classical.byContradiction fun hno => ?_
    have hstart := (h (c.start junk) ⟨_, [], rfl, .nil _⟩).thread
    rw [Setup.start, construct_fails hno] at hstart
    cases hstart
  · intro hx s hr
    obtain ⟨hb, ht⟩ := hx
    obtain ⟨r, hb⟩ := Option.isSome_iff_exists.mp hb
    have hinv : (lts c junk).Inductive (Inv c.kept) := {
      init := by
        rintro s rfl
        obtain ⟨t, r', hc, hw⟩ := construct_spec hb ht junk
        exact ⟨t, hc, fun _ => ⟨r', by simpa [Setup.start] using hw⟩, fun hno => absurd rfl hno⟩
      step := fun s l s' hi hs => inv_step hi hs }
    exact (hinv.reachable s hr).appends

/-- A caller without a buffer. -/
theorem construct_null : ¬ ∀ (c : Setup) (junk : Nat → UInt8) (s : State),
    (lts c junk).Reachable s → Appends c.kept s := by
  intro h
  let c : Setup := {
    pool := fun _ => ⟨Buffer.create (fun _ => 0) 16384, 0⟩
    buffer := none
    counted := counted_nil
    read := false
    truncate := false }
  have hstart := (h c (fun _ => 0) (c.start fun _ => 0) ⟨_, [], rfl, .nil _⟩).thread
  rw [Setup.start, construct_fails (by decide)] at hstart
  cases hstart

end Reckoning.L1.SerializerRef
