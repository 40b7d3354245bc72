import Reckoning.L1Bytes.Buffer

/-!
# Files

`Path::write` and `Path::read` (lib/fs/Path.cpp:88-135). `Answers` is what the
system does in one call; the file system is what the paths name.

Two things part what is read from what was written. `fread` and `fwrite` of
one item of size zero return zero, which both functions take for a failure. And
`read` never sets the size of the buffer it got from the thread's pool: what
`size()` says is what the last user of that buffer left.

* `write_spec`, `read_spec`: what the calls do when the system moves all the bytes.
* `roundTrip_iff`: when reading gives back what was written.
-/
namespace Reckoning.L1.Path

/-! ## The calls -/

inductive Node where
  | regular (content : Bytes)
  | other
  deriving DecidableEq, Repr

abbrev FileSystem := Bytes → Option Node

/-- Whether `fopen` and `fstat` succeed, and how many bytes are moved. -/
structure Answers where
  fopen : Bool
  fstat : Bool
  moved : Nat
  deriving DecidableEq, Repr

/-- What `fread` and `fwrite` return for one item of this size. -/
def items (size moved : Nat) : Nat := if size = 0 then 0 else if size ≤ moved then 1 else 0

/-- `fopen(path, "w")` -/
def openWrite (path : Bytes) (fs : FileSystem) : FileSystem :=
  match fs path with
  | some .other => fs
  | _ => Function.update fs path (some (.regular []))

/-- mirrors lib/fs/Path.cpp:111-130 -/
def write (os : Answers) (path data : Bytes) (fs : FileSystem) : Bool × FileSystem :=
  if os.fopen = false then (false, fs)
  else
    let opened := openWrite path fs
    match opened path with
    | some (.regular _) =>
      if os.fstat = false then (false, opened)
      else
        let written := Function.update opened path (some (.regular (data.take os.moved)))
        if items data.length os.moved ≠ 1 then (false, written) else (true, written)
    | _ => (false, opened)

/-- Nothing for a write past the end of the buffer.
mirrors lib/fs/Path.cpp:88-109 -/
def read (os : Answers) (path : Bytes) (fs : FileSystem) (junk : Nat → UInt8)
    (p : Pool 4 16384) : Option (Option (Ref 4) × Pool 4 16384) :=
  if os.fopen = false then some (none, p)
  else
    match fs path with
    | some (.regular content) =>
      if os.fstat = false then some (none, p)
      else
        let (buffer, p) := p.get junk content.length
        (p.fill (content.take os.moved) buffer).map fun (buffer, p) =>
          if items content.length os.moved ≠ 1 then (none, p.release buffer) else (some buffer, p)
    | _ => some (none, p)

/-! ## What they do -/

variable {os : Answers} {path c : Bytes} {fs : FileSystem} {junk : Nat → UInt8} {p : Pool 4 16384}

/-- The system opens the file and moves all of the `n` bytes. -/
structure Answers.Full (os : Answers) (n : Nat) : Prop where
  fopen : os.fopen = true
  fstat : os.fstat = true
  moved : n ≤ os.moved

theorem Answers.Full.items (h : os.Full c.length) :
    items c.length os.moved = if c = [] then 0 else 1 := by
  unfold Path.items
  simp only [List.length_eq_zero_iff, h.moved, if_true]

theorem openWrite_regular (h : fs path ≠ some .other) :
    openWrite path fs path = some (.regular []) := by
  unfold openWrite
  cases hp : fs path with
  | none => exact Function.update_self path _ fs
  | some node =>
    cases node with
    | regular content => exact Function.update_self path _ fs
    | other => exact absurd hp h

/-- The file holds the bytes; the empty string counts as a failure. -/
theorem write_spec (h : os.Full c.length) (hp : fs path ≠ some .other) :
    (write os path c fs).1 = decide (c ≠ []) ∧
      (write os path c fs).2 path = some (.regular c) := by
  unfold write
  simp only [h.fopen, h.fstat, openWrite_regular hp, Bool.true_eq_false, if_false, h.items,
    List.take_of_length_le h.moved]
  by_cases hc : c = []
  · simp [hc]
  · simp [hc]

/-- The bytes are read to the front of the buffer, its size is as it was found. -/
theorem read_spec (h : os.Full c.length) (hf : fs path = some (.regular c)) (hc : c ≠ []) :
    ∃ r p' rest, read os path fs junk p = some (some r, p') ∧
      (deref p' r).mSize = p.sizeFound c.length ∧
      (deref p' r).bytes = (c ++ rest).take (p.sizeFound c.length) := by
  cases hg : p.get junk c.length with
  | mk r₁ p₁ =>
    obtain ⟨hroom, -, -⟩ := get_spec hg
    have hsize : (deref p₁ r₁).mSize = p.sizeFound c.length := get_size hg
    obtain ⟨r, p', hfill, hleaves⟩ := fill_spec c r₁ p₁ hroom
    have hbytes := hleaves.bytes
    rw [hsize] at hbytes
    refine ⟨r, p', _, ?_, ?_, hbytes⟩
    · unfold read
      simp only [h.fopen, h.fstat, hf, hg, Bool.true_eq_false, if_false, h.items, if_neg hc,
        List.take_of_length_le h.moved, hfill, ne_eq, not_true_eq_false, Option.map_some]
    · have hlen := congrArg List.length hleaves.bytes
      rw [Buffer.bytes_length, List.length_take, List.length_append, List.length_drop,
        (deref p₁ r₁).data_length, hsize] at hlen
      have := (deref p₁ r₁).size_le
      omega

/-! ## The round trip -/

/-- `write(c)` succeeds, and the `read` that follows gives a buffer that holds `c`. -/
def RoundTrip (w r : Answers) (path c : Bytes) (fs : FileSystem) (junk : Nat → UInt8)
    (p : Pool 4 16384) : Prop :=
  (write w path c fs).1 = true ∧
    ∃ buffer p', read r path (write w path c fs).2 junk p = some (some buffer, p') ∧
      (deref p' buffer).mSize = c.length ∧ (deref p' buffer).bytes = c

/-- The buffer that `read` gets already has the size `n`. -/
def SizeFits (p : Pool 4 16384) (n : Nat) : Prop :=
  16384 < n ∨ (∃ i, p.firstFree = some i ∧ (p i).buffer.mSize = n) ∨
    (p.firstFree = none ∧ n = 16384)

theorem sizeFits_iff (n : Nat) : SizeFits p n ↔ p.sizeFound n = n := by
  unfold SizeFits Pool.sizeFound
  by_cases hn : 16384 < n
  · simp only [hn, if_true, true_or]
  · rw [if_neg hn]
    cases hf : p.firstFree with
    | none => simp [hn, eq_comm]
    | some i => simp [hn]

theorem RoundTrip.size {w r : Answers} (h : RoundTrip w r path c fs junk p)
    (hw : w.Full c.length) (hr : r.Full c.length) (hp : fs path ≠ some .other) :
    p.sizeFound c.length = c.length := by
  obtain ⟨hret, hfile⟩ := write_spec hw hp
  obtain ⟨hok, b, q, hread, hlen, -⟩ := h
  have hc : c ≠ [] := of_decide_eq_true (hret.symm.trans hok)
  obtain ⟨b', q', rest, hread', hsize, -⟩ := read_spec (p := p) hr hfile hc
  rw [hread] at hread'
  cases hread'
  exact hsize.symm.trans hlen

/-- What was written is read back if and only if it is not empty and the buffer happens to have
its size. -/
theorem roundTrip_iff (w r : Answers) (path c : Bytes) (fs : FileSystem) (junk : Nat → UInt8)
    (p : Pool 4 16384) (hw : w.Full c.length) (hr : r.Full c.length)
    (hp : fs path ≠ some .other) :
    RoundTrip w r path c fs junk p ↔ c ≠ [] ∧ SizeFits p c.length := by
  rw [sizeFits_iff]
  obtain ⟨hret, hfile⟩ := write_spec hw hp
  constructor
  · intro hx
    exact ⟨of_decide_eq_true (hret.symm.trans hx.1), hx.size hw hr hp⟩
  · intro hx
    obtain ⟨hc, hn⟩ := hx
    obtain ⟨b, q, rest, hread, hsize, hbytes⟩ := read_spec (p := p) hr hfile hc
    rw [hn] at hbytes hsize
    exact ⟨hret.trans (decide_eq_true hc), b, q, hread, hsize, hbytes.trans List.take_left⟩

/-- A pool whose buffers are free and have been left with `n` bytes. -/
def freePool (n : Nat) (h : n ≤ 16384) : Pool 4 16384 :=
  fun _ => ⟨{ Buffer.create (fun _ => 0) 16384 with mSize := n, size_le := h }, 0⟩

theorem roundTrip_left : RoundTrip ⟨true, true, 2⟩ ⟨true, true, 2⟩ (ascii "f") (ascii "ok")
    (fun _ => none) (fun _ => 0) (freePool 2 (by decide)) :=
  (roundTrip_iff _ _ _ _ _ _ _ ⟨rfl, rfl, by decide⟩ ⟨rfl, rfl, by decide⟩ (by decide)).mpr
    ⟨by decide, .inr (.inl ⟨0, rfl, rfl⟩)⟩

/-- On a thread that has not used its pool, `read` says 16384 bytes of a file of one byte. -/
theorem roundTrip_fresh : ¬ ∀ (w r : Answers) (path c : Bytes) (fs : FileSystem)
    (junk : Nat → UInt8) (p : Pool 4 16384), w.Full c.length → r.Full c.length →
    fs path ≠ some .other → RoundTrip w r path c fs junk p := by
  intro h
  have hw : (⟨true, true, 1⟩ : Answers).Full (List.length [(65 : UInt8)]) :=
    ⟨rfl, rfl, Nat.le_refl 1⟩
  have hr := h ⟨true, true, 1⟩ ⟨true, true, 1⟩ (ascii "f") [65] (fun _ => none) (fun _ => 0)
    (freePool 16384 (Nat.le_refl _)) hw hw (by decide)
  have hsize := hr.size hw hw (by decide)
  have hfound : (freePool 16384 (Nat.le_refl _)).sizeFound 1 = 16384 := rfl
  exact absurd (hfound.symm.trans hsize) (by decide)

end Reckoning.L1.Path
