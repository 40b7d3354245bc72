import Reckoning.Core.LTS
import Reckoning.L1Bytes.Buffer

/-!
# Writing a sequence of values and reading it back

`Serializer` over a buffer of the pool of its thread
(`include/serializer/Serializer.h`, `lib/serializer/Serializer.cpp`).

An arithmetic or enum value is the bytes of its object, at least one of them;
a string is its bytes, and its `size()` is a `size_t` of eight bytes, written first. Sizes are
natural numbers: what they count lies in memory.

`lts` writes any values in any order; between two calls the rest of the
program may take, fill and give back the buffers of the pool, but not the one
that the serializer holds. `thread = none` is a failed assertion.

* `write_spec`: a write succeeds, and leaves room for one byte at least, which
  is what makes the next growth large enough.
* `shr_spec`: reading at the type of what lies at the position.
* `roundtrip`: in every run nothing fails, and what has been written is read
  back, up to the end of the buffer.
-/
namespace Reckoning.L1

inductive Serializer.ValidType
  | invalid
  | noData
  | dataNotReady
  | dataReady
  deriving DecidableEq, Repr

def Serializer.Read : UInt8 := 0x1
def Serializer.Write : UInt8 := 0x2

/-- mirrors include/serializer/Serializer.h:73-80 -/
structure Serializer where
  mBuffer : Option (Ref 4)
  mReadPos : Nat
  mValid : Serializer.ValidType
  mMode : UInt8

namespace Serializer

/-- A serializer and the pool of its thread. -/
structure Thread where
  tPool : Pool 4 16384
  ser : Serializer

/-- The capacity asked for when `size` bytes more do not fit.
mirrors lib/serializer/Serializer.cpp:15-21 -/
def grow (max oldSize size : Nat) : Nat :=
  let step := max * 2
  if step < 2048 * 1024 ∧ oldSize + size < step then step else oldSize + size * 2

/-- mirrors lib/serializer/Serializer.cpp:7-27 -/
def realloc (junk : Nat → UInt8) (size : Nat) (t : Thread) : Option Thread :=
  match t.ser.mBuffer with
  | none =>
    let (r, p) := t.tPool.get junk size
    (p.setSize 0 r).map fun (r, p) => ⟨p, { t.ser with mBuffer := some r }⟩
  | some old =>
    let newSize := grow (old.max 16384) (deref t.tPool old).mSize size
    let (r, p) := t.tPool.get junk newSize
    (p.setSize 0 r).bind fun (r, p) =>
      (p.append (deref p old).bytes r).map fun (r, p) =>
        ⟨p.release old, { t.ser with mBuffer := some r }⟩

/-- `Serializer()`.
mirrors include/serializer/Serializer.h:83-88 -/
def construct (junk : Nat → UInt8) (p : Pool 4 16384) : Option Thread :=
  realloc junk 16384 ⟨p, ⟨none, 0, .noData, Write⟩⟩

/-- `Serializer(buffer)`, for reading.
mirrors include/serializer/Serializer.h:90-99 -/
def ofBuffer (p : Pool 4 16384) (r : Ref 4) : Serializer :=
  if (deref p r).mSize = 0 then ⟨none, 0, .invalid, Read⟩ else ⟨some r, 0, .dataReady, Read⟩

/-- mirrors include/serializer/Serializer.h:188-195 -/
def write (junk : Nat → UInt8) (data : Bytes) (t : Thread) : Option Thread :=
  if ¬ (t.ser.mValid = .dataReady ∨ t.ser.mValid = .noData) then none
  else if t.ser.mMode &&& Write = 0 then none
  else
    let grown := match t.ser.mBuffer with
      | none => realloc junk data.length t
      | some r =>
        if r.max 16384 ≤ (deref t.tPool r).mSize + data.length then realloc junk data.length t
        else some t
    grown.bind fun t => t.ser.mBuffer.bind fun r =>
      (t.tPool.append data r).map fun (r, p) => ⟨p, { t.ser with mBuffer := some r }⟩

/-- mirrors include/serializer/Serializer.h:179-186 -/
def read (p : Pool 4 16384) (size : Nat) (s : Serializer) :
    Option ({ d : Bytes // d.length = size } × Serializer) :=
  if ¬ (s.mValid = .dataReady ∨ s.mValid = .noData) then none
  else
    s.mBuffer.bind fun r =>
      let b := deref p r
      if h : s.mReadPos + size ≤ b.mSize then
        if s.mMode &&& Read = 0 then none
        else
          have hlen : ((b.mData.drop s.mReadPos).take size).length = size := by
            have := b.data_length
            have := b.size_le
            rw [List.length_take, List.length_drop]
            omega
          some (⟨_, hlen⟩, { s with mReadPos := s.mReadPos + size })
      else none

/-! ## Values -/

/-- An arithmetic or enum type by its size, less one; `std::string`. -/
inductive Ty
  | scalar (sizeLess : Nat)
  | string
  deriving DecidableEq, Repr

def Value : Ty → Type
  | .scalar n => { d : Bytes // d.length = n + 1 }
  | .string => { d : Bytes // d.length < leCount 8 }

/-- A value with its type. -/
abbrev Item := (ty : Ty) × Value ty

/-- What is written for a value. -/
def Item.bytes : Item → Bytes
  | ⟨.scalar _, d⟩ => d.val
  | ⟨.string, str⟩ => leBytes 8 str.val.length ++ str.val

/-- `operator<<`.
mirrors include/serializer/Serializer.h:197-217 -/
def shl (junk junk' : Nat → UInt8) (v : Item) (t : Thread) : Option Thread :=
  match v with
  | ⟨.scalar _, num⟩ => write junk num.val t
  | ⟨.string, str⟩ => (write junk (leBytes 8 str.val.length) t).bind (write junk' str.val)

/-- `operator>>`.
mirrors include/serializer/Serializer.h:219-240 -/
def shr (p : Pool 4 16384) (ty : Ty) (s : Serializer) : Option (Value ty × Serializer) :=
  match ty with
  | .scalar n => read p (n + 1) s
  | .string =>
    (read p 8 s).bind fun (size, s) =>
      have hlt : leNat size.val < leCount 8 := by
        have := leNat_lt size.val
        rwa [size.property] at this
      (read p (leNat size.val) s).map fun (d, s) => (⟨d.val, d.property.symm ▸ hlt⟩, s)

def shrAll (p : Pool 4 16384) : List Ty → Serializer → Option (List Item × Serializer)
  | [], s => some ([], s)
  | ty :: tys, s =>
    (shr p ty s).bind fun (v, s) => (shrAll p tys s).map fun (vs, s) => (⟨ty, v⟩ :: vs, s)

/-! ## Writing -/

/-- The serializer holds `r`, in which `bs` have been written and one more byte fits. -/
structure Holds (t : Thread) (r : Ref 4) (bs : Bytes) : Prop where
  buffer : t.ser.mBuffer = some r
  valid : t.ser.mValid = .noData
  mode : t.ser.mMode = Write
  held : Held t.tPool r
  bytes : (deref t.tPool r).bytes = bs
  room : bs.length < r.max 16384

/-- Writes are allowed, and `bs` have been written to `r`. `rs` are the other shared
pointers that are being looked at. -/
structure Writable (t : Thread) (r : Ref 4) (rs : List (Ref 4)) (bs : Bytes) : Prop where
  buffer : t.ser.mBuffer = some r
  valid : t.ser.mValid = .dataReady ∨ t.ser.mValid = .noData
  mode : t.ser.mMode &&& Write ≠ 0
  counted : Counted t.tPool (r :: rs)
  bytes : (deref t.tPool r).bytes = bs

theorem Writable.size {t : Thread} {r : Ref 4} {rs : List (Ref 4)} {bs : Bytes}
    (h : Writable t r rs bs) : (deref t.tPool r).mSize = bs.length := by
  rw [← h.bytes, Buffer.bytes_length]

/-- Another buffer with the same bytes, or more. -/
theorem Writable.replace {t : Thread} {r r' : Ref 4} {rs : List (Ref 4)} {bs bs' : Bytes}
    {p : Pool 4 16384} (h : Writable t r rs bs) (hc : Counted p (r' :: rs))
    (hb : (deref p r').bytes = bs') :
    Writable ⟨p, { t.ser with mBuffer := some r' }⟩ r' rs bs' :=
  ⟨rfl, h.valid, h.mode, hc, hb⟩

theorem Holds.writable {t : Thread} {r : Ref 4} {bs : Bytes} (h : Holds t r bs) :
    Writable t r [] bs where
  buffer := h.buffer
  valid := .inr h.valid
  mode := by rw [h.mode]; decide
  counted := counted_singleton.mpr h.held
  bytes := h.bytes

/-- The first buffer, which is empty. -/
theorem realloc_first {t : Thread} {rs : List (Ref 4)} (hb : t.ser.mBuffer = none)
    (hc : Counted t.tPool rs) (junk : Nat → UInt8) (n : Nat) :
    ∃ p r, realloc junk n t = some ⟨p, { t.ser with mBuffer := some r }⟩ ∧
      Counted p (r :: rs) ∧ (deref p r).bytes = [] ∧ n ≤ r.max 16384 := by
  rcases hget : t.tPool.get junk n with ⟨r, p₁⟩
  have hmax := (get_spec hget).1
  obtain ⟨r', p', hset, hl⟩ := setSize_spec r p₁
  obtain ⟨hcounted, hslot⟩ := (hc.get hget).call hset
  refine ⟨p', r', ?_, hcounted.slot hslot, hl.bytes, by rw [hl.max]; exact hmax⟩
  simp only [realloc, hb, hget, hset, Option.map_some]

theorem construct_spec (junk : Nat → UInt8) (p : Pool 4 16384) :
    ∃ t r, construct junk p = some t ∧ Holds t r [] := by
  obtain ⟨p', r, hre, hcounted, hbytes, hmax⟩ := realloc_first
    (show (Thread.mk p ⟨none, 0, .noData, Write⟩).ser.mBuffer = none from rfl) counted_nil junk 16384
  exact ⟨_, r, hre, rfl, rfl, rfl, counted_singleton.mp hcounted, hbytes, Nat.lt_of_lt_of_le
    (by decide) hmax⟩

/-- Either rule leaves enough. -/
theorem le_grow (max oldSize n : Nat) : oldSize + n ≤ grow max oldSize n := by
  simp only [grow]
  split <;> omega

/-- Either rule leaves more than enough, as the old buffer was not full. -/
theorem lt_grow {max oldSize n : Nat} (hroom : oldSize < max) (hfull : max ≤ oldSize + n) :
    oldSize + n < grow max oldSize n := by
  simp only [grow]
  split <;> omega

section
variable {t : Thread} {r : Ref 4} {rs : List (Ref 4)} {bs : Bytes}

/-- **Growing keeps what was written**, in a buffer of the size that was chosen. -/
theorem Writable.realloc (h : Writable t r rs bs) (junk : Nat → UInt8) (n : Nat) :
    ∃ p r', realloc junk n t = some ⟨p, { t.ser with mBuffer := some r' }⟩ ∧
      Writable ⟨p, { t.ser with mBuffer := some r' }⟩ r' rs bs ∧
      grow (r.max 16384) bs.length n ≤ r'.max 16384 := by
  have hroom := le_grow (r.max 16384) bs.length n
  rcases hget : t.tPool.get junk (grow (r.max 16384) bs.length n) with ⟨r₁, p₁⟩
  have hmax := (get_spec hget).1
  obtain ⟨r₂, p₂, hset, hl₂⟩ := setSize_spec r₁ p₁
  have hempty := (fresh_get hget).leaves hl₂
  -- the old buffer is not the one handed out, so emptying that leaves it alone
  have hbytes : (deref p₂ r).bytes = bs := by
    rw [(hempty.others r (h.counted.held List.mem_cons_self)).2.2, h.bytes]
  have hzero : (deref p₂ r₂).mSize = 0 := by rw [← Buffer.bytes_length, hempty.bytes]; rfl
  obtain ⟨r₃, p₃, happ, hl₃⟩ := append_spec bs r₂ p₂ (by rw [hzero, hl₂.max]; omega)
  obtain ⟨hcounted₂, hslot₂⟩ := (h.counted.get hget).call hset
  obtain ⟨hcounted₃, hslot₃⟩ := hcounted₂.call happ
  have hcounted : Counted (p₃.release r) (r₃ :: rs) :=
    (hcounted₃.slot (hslot₃.trans hslot₂)).swap.release
  refine ⟨p₃.release r, r₃, ?_, h.replace hcounted ?_, by rw [hl₃.max, hl₂.max]; exact hmax⟩
  · simp only [Serializer.realloc, h.buffer, h.size, hget, hset, Option.bind_some, hbytes, happ,
      Option.map_some]
  · rw [deref_release, hl₃.bytes, hempty.bytes, List.nil_append]

/-- With room for the data a write is one append. -/
theorem Writable.append (h : Writable t r rs bs) {data : Bytes}
    (hroom : bs.length + data.length ≤ r.max 16384) :
    ∃ p r', (t.ser.mBuffer.bind fun r => (t.tPool.append data r).map fun (r, p) =>
        (⟨p, { t.ser with mBuffer := some r }⟩ : Thread)) =
          some ⟨p, { t.ser with mBuffer := some r' }⟩ ∧
      Writable ⟨p, { t.ser with mBuffer := some r' }⟩ r' rs (bs ++ data) ∧
      r'.max 16384 = r.max 16384 := by
  obtain ⟨r', p', happ, hl⟩ := append_spec data r t.tPool (by rw [h.size]; exact hroom)
  obtain ⟨hcounted, hslot⟩ := h.counted.call happ
  refine ⟨p', r', ?_, h.replace (hcounted.slot hslot) (by rw [hl.bytes, h.bytes]), hl.max⟩
  rw [h.buffer, Option.bind_some, happ, Option.map_some]

/-- **A write does not fail**, and appends its data. -/
theorem Writable.write (h : Writable t r rs bs) (junk : Nat → UInt8) (data : Bytes) :
    ∃ p r', write junk data t = some ⟨p, { t.ser with mBuffer := some r' }⟩ ∧
      Writable ⟨p, { t.ser with mBuffer := some r' }⟩ r' rs (bs ++ data) ∧
      ((bs ++ data).length < r'.max 16384 ∨ r.max 16384 ≤ bs.length + data.length ∧
        grow (r.max 16384) bs.length data.length ≤ r'.max 16384) := by
  have hvalid : ¬ ¬ (t.ser.mValid = .dataReady ∨ t.ser.mValid = .noData) := not_not.mpr h.valid
  simp only [Serializer.write, if_neg hvalid, if_neg h.mode, h.buffer, h.size]
  split
  · rename_i hfull
    obtain ⟨p₁, r₁, hre, h₁, hmax₁⟩ := h.realloc junk data.length
    obtain ⟨p₂, r₂, happ, h₂, hmax₂⟩ := h₁.append (Nat.le_trans (le_grow _ _ _) hmax₁)
    rw [hre]
    exact ⟨p₂, r₂, happ, h₂, .inr ⟨hfull, hmax₂ ▸ hmax₁⟩⟩
  · rename_i hroom
    obtain ⟨p₂, r₂, happ, h₂, hmax₂⟩ := h.append (Nat.le_of_not_le hroom)
    exact ⟨p₂, r₂, happ, h₂, .inl (by rw [hmax₂, List.length_append]; exact Nat.lt_of_not_le hroom)⟩

end

theorem Writable.shl {t : Thread} {r : Ref 4} {rs : List (Ref 4)} {bs : Bytes}
    (h : Writable t r rs bs) (junk junk' : Nat → UInt8) (v : Item) :
    ∃ t' r', shl junk junk' v t = some t' ∧ Writable t' r' rs (bs ++ v.bytes) := by
  match v with
  | ⟨.scalar n, num⟩ =>
    obtain ⟨p, r', hwrite, hw, -⟩ := h.write junk num.val
    exact ⟨_, r', hwrite, hw⟩
  | ⟨.string, str⟩ =>
    obtain ⟨p₁, r₁, h₁, hw₁, -⟩ := h.write junk (leBytes 8 str.val.length)
    obtain ⟨p₂, r₂, h₂, hw₂, -⟩ := hw₁.write junk' str.val
    refine ⟨_, r₂, by rw [Serializer.shl, h₁, Option.bind_some, h₂], ?_⟩
    rwa [List.append_assoc] at hw₂

/-- One more byte still fits, as one did before. -/
theorem write_spec {t : Thread} {r : Ref 4} {bs : Bytes} (h : Holds t r bs) (junk : Nat → UInt8)
    (data : Bytes) : ∃ t' r', write junk data t = some t' ∧ Holds t' r' (bs ++ data) := by
  obtain ⟨p, r', hwrite, hw, hroom⟩ := h.writable.write junk data
  refine ⟨_, r', hwrite, rfl, h.valid, h.mode, counted_singleton.mp hw.counted, hw.bytes, ?_⟩
  rcases hroom with hroom | ⟨hfull, hgrown⟩
  · exact hroom
  · rw [List.length_append]
    exact Nat.lt_of_lt_of_le (lt_grow h.room hfull) hgrown

theorem shl_spec {t : Thread} {r : Ref 4} {bs : Bytes} (h : Holds t r bs) (junk junk' : Nat → UInt8)
    (v : Item) : ∃ t' r', shl junk junk' v t = some t' ∧ Holds t' r' (bs ++ v.bytes) := by
  match v with
  | ⟨.scalar n, num⟩ => exact write_spec h junk num.val
  | ⟨.string, str⟩ =>
    obtain ⟨t₁, r₁, h₁, hh₁⟩ := write_spec h junk (leBytes 8 str.val.length)
    obtain ⟨t₂, r₂, h₂, hh₂⟩ := write_spec hh₁ junk' str.val
    refine ⟨t₂, r₂, by rw [shl, h₁, Option.bind_some, h₂], ?_⟩
    rwa [List.append_assoc] at hh₂

/-! ## Reading -/

/-- `s` reads from `r`, and `rest` lies between its position and the end. -/
structure Reads (p : Pool 4 16384) (s : Serializer) (r : Ref 4) (rest : Bytes) : Prop where
  buffer : s.mBuffer = some r
  valid : s.mValid = .dataReady
  mode : s.mMode = Read
  pos_le : s.mReadPos ≤ (deref p r).mSize
  rest : (deref p r).bytes.drop s.mReadPos = rest

theorem read_spec {p : Pool 4 16384} {s : Serializer} {r : Ref 4} {d rest : Bytes}
    (h : Reads p s r (d ++ rest)) {size : Nat} (hd : d.length = size) :
    ∃ s', read p size s = some (⟨d, hd⟩, s') ∧ Reads p s' r rest := by
  have hle : s.mReadPos + size ≤ (deref p r).mSize := by
    have hlen := congrArg List.length h.rest
    have := h.pos_le
    rw [List.length_drop, Buffer.bytes_length, List.length_append] at hlen
    omega
  -- what the read copies lies inside the buffer's contents
  have hcopy : ((deref p r).mData.drop s.mReadPos).take size = d := by
    have htake := congrArg (List.take size) h.rest
    rwa [Buffer.bytes, List.drop_take, List.take_take, Nat.min_eq_left (by omega),
      List.take_left' hd] at htake
  have hmode : ¬ s.mMode &&& Read = 0 := by rw [h.mode]; decide
  refine ⟨{ s with mReadPos := s.mReadPos + size }, ?_, ?_⟩
  · simp only [read, h.valid, true_or, not_true, if_false, h.buffer, Option.bind_some, dif_pos hle,
      if_neg hmode, hcopy]
  · refine ⟨h.buffer, h.valid, h.mode, hle, ?_⟩
    rw [← List.drop_drop, h.rest, List.drop_left' hd]

/-- **Reading at the type of the value that comes next gives the value.** -/
theorem shr_spec {p : Pool 4 16384} {s : Serializer} {r : Ref 4} {v : Item} {rest : Bytes}
    (h : Reads p s r (v.bytes ++ rest)) :
    ∃ s', shr p v.1 s = some (v.2, s') ∧ Reads p s' r rest := by
  match v, h with
  | ⟨.scalar n, num⟩, h => exact read_spec h num.property
  | ⟨.string, str⟩, h =>
    have hsize : leNat (leBytes 8 str.val.length) = str.val.length := leNat_leBytes str.property
    rw [Item.bytes, List.append_assoc] at h
    obtain ⟨s₁, h₁, hr₁⟩ := read_spec h (leBytes_length 8 _)
    obtain ⟨s₂, h₂, hr₂⟩ := read_spec hr₁ hsize.symm
    refine ⟨s₂, ?_, hr₂⟩
    simp only [shr, h₁, Option.bind_some, h₂, Option.map_some]
    rfl

theorem shrAll_spec {p : Pool 4 16384} {r : Ref 4} : ∀ {vs : List Item} {s : Serializer},
    Reads p s r (vs.flatMap Item.bytes) →
    ∃ s', shrAll p (vs.map Sigma.fst) s = some (vs, s') ∧ Reads p s' r []
  | [], s, h => ⟨s, rfl, h⟩
  | v :: vs, s, h => by
    rw [List.flatMap_cons] at h
    obtain ⟨s₁, h₁, hr₁⟩ := shr_spec h
    obtain ⟨s₂, h₂, hr₂⟩ := shrAll_spec hr₁
    refine ⟨s₂, ?_, hr₂⟩
    simp only [List.map_cons, shrAll, h₁, Option.bind_some, h₂, Option.map_some]

theorem Item.bytes_ne (v : Item) : v.bytes ≠ [] := by
  intro h
  match v, congrArg List.length h with
  | ⟨.scalar n, num⟩, hlen =>
    have := num.property
    rw [Item.bytes, List.length_nil] at hlen
    omega
  | ⟨.string, str⟩, hlen =>
    rw [Item.bytes, List.length_append, leBytes_length, List.length_nil] at hlen
    omega

/-- Opening a buffer that is not empty reads it from the start. -/
theorem ofBuffer_spec {p : Pool 4 16384} {r : Ref 4} (h : (deref p r).bytes ≠ []) :
    Reads p (ofBuffer p r) r (deref p r).bytes := by
  have hsize : ¬ (deref p r).mSize = 0 := by
    rw [← Buffer.bytes_length]
    exact fun h0 => h (List.length_eq_zero_iff.mp h0)
  rw [ofBuffer, if_neg hsize]
  exact ⟨rfl, rfl, rfl, Nat.zero_le _, rfl⟩

/-! ## Runs -/

/-- `written` is the sequence written so far. -/
structure St where
  thread : Option Thread
  written : List Item

inductive Label
  | shl (junk junk' : Nat → UInt8) (v : Item)
  | others (p : Pool 4 16384)

/-- The rest of the program leaves the serializer's buffer alone, and the
shared pointer of the serializer still counts. -/
def Undisturbed (t : Thread) (p : Pool 4 16384) : Prop :=
  ∀ i, t.ser.mBuffer = some (.pool i) → (p i).buffer = (t.tPool i).buffer ∧ 0 < (p i).users

inductive Step : St → Label → St → Prop
  | shl {s : St} {t : Thread} {junk junk' : Nat → UInt8} {v : Item} :
      s.thread = some t →
      Step s (.shl junk junk' v) ⟨Serializer.shl junk junk' v t, s.written ++ [v]⟩
  | others {s : St} {t : Thread} {p : Pool 4 16384} :
      s.thread = some t → Undisturbed t p →
      Step s (.others p) { s with thread := some { t with tPool := p } }

/-- A default-constructed serializer, in any state of the pool. -/
def lts : LTS St Label where
  init s := ∃ junk p, s = ⟨construct junk p, []⟩
  step := Step

def Inv (s : St) : Prop := ∃ t r, s.thread = some t ∧ Holds t r (s.written.flatMap Item.bytes)

theorem inv_others {t : Thread} {r : Ref 4} {bs : Bytes} {p : Pool 4 16384} (h : Holds t r bs)
    (hp : Undisturbed t p) : Holds { t with tPool := p } r bs := by
  have hderef : deref p r = deref t.tPool r := by
    cases r with
    | pool i => exact (hp i h.buffer).1
    | own b => rfl
  have hheld : Held p r := fun i hi => (hp i (hi ▸ h.buffer)).2
  exact ⟨h.buffer, h.valid, h.mode, hheld, (congrArg Buffer.bytes hderef).trans h.bytes, h.room⟩

theorem inv_inductive : lts.Inductive Inv where
  init s hi := by
    obtain ⟨junk, p, rfl⟩ := hi
    exact construct_spec junk p
  step s l s' hi hs := by
    obtain ⟨t, r, ht, hh⟩ := hi
    cases hs with
    | shl ht' =>
      obtain rfl := Option.some.inj (ht.symm.trans ht')
      obtain ⟨t', r', h', hh'⟩ := shl_spec hh _ _ _
      exact ⟨t', r', h', by simpa using hh'⟩
    | others ht' hp =>
      obtain rfl := Option.some.inj (ht.symm.trans ht')
      exact ⟨_, r, rfl, inv_others hh hp⟩

/-- **What has been written is read back.** In every run no assertion fails;
a serializer opened on the buffer, reading at the same types, yields the same
values without a failure and stops at the buffer's size. -/
theorem roundtrip (s : St) (h : lts.Reachable s) :
    ∃ t r, s.thread = some t ∧ t.ser.mBuffer = some r ∧
      (s.written ≠ [] → ∃ s', shrAll t.tPool (s.written.map Sigma.fst) (ofBuffer t.tPool r) =
        some (s.written, s') ∧ s'.mReadPos = (deref t.tPool r).mSize) := by
  obtain ⟨t, r, ht, hh⟩ := inv_inductive.reachable s h
  refine ⟨t, r, ht, hh.buffer, fun hne => ?_⟩
  have hbytes : (deref t.tPool r).bytes ≠ [] := by
    obtain ⟨v, vs, hv⟩ := List.exists_cons_of_ne_nil hne
    rw [hh.bytes, hv, List.flatMap_cons]
    exact fun h0 => v.bytes_ne (List.append_eq_nil_iff.mp h0).1
  have hreads := ofBuffer_spec hbytes
  rw [hh.bytes] at hreads
  obtain ⟨s', hs', hend⟩ := shrAll_spec hreads
  refine ⟨s', hs', ?_⟩
  have hlen := congrArg List.length hend.rest
  have hpos := hend.pos_le
  rw [List.length_drop, Buffer.bytes_length, List.length_nil] at hlen
  omega

/-- `"ting"` and `123`, written in a pool of zeroes that nobody uses. -/
theorem roundtrip_ting : ∃ s, lts.Reachable s ∧ s.written ≠ [] ∧
    ∃ t r, s.thread = some t ∧ t.ser.mBuffer = some r ∧
      (s.written ≠ [] → ∃ s', shrAll t.tPool (s.written.map Sigma.fst) (ofBuffer t.tPool r) =
        some (s.written, s') ∧ s'.mReadPos = (deref t.tPool r).mSize) := by
  let zero : Buffer 16384 := Buffer.create (fun _ => 0) 16384
  let ting : Item := ⟨.string, ⟨ascii "ting", by decide⟩⟩
  let number : Item := ⟨.scalar 3, ⟨[123, 0, 0, 0], rfl⟩⟩
  obtain ⟨t₀, r₀, h₀, hh₀⟩ := construct_spec (fun _ => 0) (fun _ => ⟨zero, 0⟩)
  obtain ⟨t₁, r₁, h₁, hh₁⟩ := shl_spec hh₀ (fun _ => 0) (fun _ => 0) ting
  have hrun : lts.Run ⟨some t₀, []⟩ [.shl (fun _ => 0) (fun _ => 0) ting,
      .shl (fun _ => 0) (fun _ => 0) number]
      ⟨shl (fun _ => 0) (fun _ => 0) number t₁, [ting, number]⟩ := by
    refine .cons (.shl rfl) ?_
    rw [h₁]
    exact .cons (.shl rfl) (.nil _)
  have hreach : lts.Reachable ⟨shl (fun _ => 0) (fun _ => 0) number t₁, [ting, number]⟩ :=
    ⟨_, _, ⟨fun _ => 0, fun _ => ⟨zero, 0⟩, by rw [h₀]⟩, hrun⟩
  exact ⟨_, hreach, by simp, roundtrip _ hreach⟩

end Serializer
end Reckoning.L1
