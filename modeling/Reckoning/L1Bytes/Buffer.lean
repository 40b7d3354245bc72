import Mathlib.Logic.Function.Basic
import Reckoning.Core.Bytes

/-!
# Buffers and the buffer pool

`include/buffer/Buffer.h` and `include/buffer/Pool.h`. The capacity of a
buffer never changes and is the index of its type. Memory from `malloc` holds
anything (`junk`, by address).

A pool owns a fixed number of buffers and hands out the first one that no
other shared pointer refers to; without one, or for a larger size, it creates
a buffer. `Ref` is a shared pointer: to a buffer of the pool, or to one that was
created, which then is in no one else's hands.

* `get_spec`: what `get` hands out is as large as asked for, and no other
  reference sees it.
* `Fresh`: the same of what `get` and calls on the new buffer leave together.
* `get_size`: its size is whatever the last user of that buffer left.
* `setSize_spec`, `assign_spec`, `append_spec`, `fill_spec`: when the assertion holds, and what is left.
* `Counted`: some shared pointers are all among the users, which `get`, `release`, another pointer
  and the calls keep.
-/
namespace Reckoning.L1

/-- mirrors include/buffer/Buffer.h:59-61 -/
structure Buffer (mMax : Nat) where
  mData : Bytes
  mSize : Nat
  data_length : mData.length = mMax
  size_le : mSize ≤ mMax

namespace Buffer
variable {m : Nat}

/-- What `data()` and `size()` give access to. -/
def bytes (b : Buffer m) : Bytes := b.mData.take b.mSize

theorem bytes_length (b : Buffer m) : b.bytes.length = b.mSize := by
  have := b.data_length
  have := b.size_le
  rw [bytes, List.length_take]
  omega

/-- mirrors include/buffer/Buffer.h:70-76 -/
def create (junk : Nat → UInt8) (max : Nat) : Buffer max :=
  ⟨(List.range max).map junk, max, by simp, Nat.le_refl max⟩

/-- mirrors include/buffer/Buffer.h:112-116 -/
def setSize (sz : Nat) (b : Buffer m) : Option (Buffer m) :=
  if h : sz ≤ m then some { b with mSize := sz, size_le := h } else none

/-- mirrors include/buffer/Buffer.h:118-122 -/
def addSize (delta : Int) (b : Buffer m) : Option (Buffer m) :=
  if h : 0 ≤ b.mSize + delta ∧ b.mSize + delta ≤ m then
    some { b with mSize := (b.mSize + delta).toNat, size_le := by omega }
  else none

/-- mirrors include/buffer/Buffer.h:134-139 -/
def assign (data : Bytes) (b : Buffer m) : Option (Buffer m) :=
  if h : data.length ≤ m then
    some {
      mData := data ++ b.mData.drop data.length
      mSize := data.length
      data_length := by
        have := b.data_length
        simp only [List.length_append, List.length_drop]
        omega
      size_le := h }
  else none

/-- mirrors include/buffer/Buffer.h:146-151 -/
def append (data : Bytes) (b : Buffer m) : Option (Buffer m) :=
  if h : b.mSize + data.length ≤ m then
    some {
      mData := b.mData.take b.mSize ++ data ++ b.mData.drop (b.mSize + data.length)
      mSize := b.mSize + data.length
      data_length := by
        have := b.data_length
        simp only [List.length_append, List.length_take, List.length_drop]
        omega
      size_le := h }
  else none

/-- Bytes copied to `data()`; `size()` stays. -/
def fill (data : Bytes) (b : Buffer m) : Option (Buffer m) :=
  if h : data.length ≤ m then
    some {
      b with
      mData := data ++ b.mData.drop data.length
      data_length := by
        have := b.data_length
        simp only [List.length_append, List.length_drop]
        omega }
  else none

theorem setSize_zero (b : Buffer m) : ∃ b', b.setSize 0 = some b' ∧ b'.bytes = [] :=
  ⟨_, dif_pos (Nat.zero_le m), List.take_zero⟩

theorem assign_some {b : Buffer m} {data : Bytes} (h : data.length ≤ m) :
    ∃ b', b.assign data = some b' ∧ b'.bytes = data :=
  ⟨_, dif_pos h, List.take_left' rfl⟩

theorem append_some {b : Buffer m} {data : Bytes} (h : b.mSize + data.length ≤ m) :
    ∃ b', b.append data = some b' ∧ b'.bytes = b.bytes ++ data := by
  refine ⟨_, dif_pos h, ?_⟩
  have hlen : (b.mData.take b.mSize).length = b.mSize := b.bytes_length
  exact List.take_left' (by rw [List.length_append, hlen])

theorem fill_some {b : Buffer m} {data : Bytes} (h : data.length ≤ m) :
    ∃ b', b.fill data = some b' ∧ b'.bytes = (data ++ b.mData.drop data.length).take b.mSize :=
  ⟨_, dif_pos h, rfl⟩

end Buffer

/-- A buffer of the pool, and the shared pointers to it outside the pool. -/
structure Slot (size : Nat) where
  buffer : Buffer size
  users : Nat

abbrev Pool (number size : Nat) := Fin number → Slot size

inductive Ref (number : Nat)
  | pool (i : Fin number)
  | own {max : Nat} (b : Buffer max)

variable {number size : Nat}

/-- `buffer->max()` -/
def Ref.max (size : Nat) : Ref number → Nat
  | .pool _ => size
  | @Ref.own _ m _ => m

def deref (p : Pool number size) : (r : Ref number) → Buffer (r.max size)
  | .pool i => (p i).buffer
  | .own b => b

/-- `r` counts as a user of what it points to. -/
def Held (p : Pool number size) (r : Ref number) : Prop := ∀ i, r = .pool i → 0 < (p i).users

namespace Pool

/-- The first buffer that no one outside the pool refers to. -/
def firstFree (p : Pool number size) : Option (Fin number) :=
  (List.finRange number).find? fun i => (p i).users == 0

def setUsers (p : Pool number size) (i : Fin number) (f : Nat → Nat) : Pool number size :=
  Function.update p i { p i with users := f (p i).users }

/-- mirrors include/buffer/Pool.h:57-67 -/
def get (junk : Nat → UInt8) (sz : Nat) (p : Pool number size) : Ref number × Pool number size :=
  let create := (Ref.own (Buffer.create junk (if size < sz then sz else size)), p)
  if sz ≤ size then
    match (List.finRange number).find? (fun i => (p i).users == 0) with
    | some i => (.pool i, p.setUsers i (· + 1))
    | none => create
  else create

/-- A shared pointer goes out of scope. -/
def release (r : Ref number) (p : Pool number size) : Pool number size :=
  match r with
  | .pool i => p.setUsers i (· - 1)
  | .own _ => p

/-- A call of a member function through `r`. -/
def call (f : ∀ m, Buffer m → Option (Buffer m)) (r : Ref number) (p : Pool number size) :
    Option (Ref number × Pool number size) :=
  match r with
  | .pool i => (f _ (p i).buffer).map fun b => (.pool i, Function.update p i { p i with buffer := b })
  | .own b => (f _ b).map fun b => (.own b, p)

def setSize (sz : Nat) : Ref number → Pool number size → Option (Ref number × Pool number size) :=
  call fun _ => Buffer.setSize sz

def assign (data : Bytes) :
    Ref number → Pool number size → Option (Ref number × Pool number size) :=
  call fun _ => Buffer.assign data

def append (data : Bytes) :
    Ref number → Pool number size → Option (Ref number × Pool number size) :=
  call fun _ => Buffer.append data

def fill (data : Bytes) :
    Ref number → Pool number size → Option (Ref number × Pool number size) :=
  call fun _ => Buffer.fill data

end Pool

/-! ## What the calls leave -/

/-- The two do not point to one buffer. -/
def Apart (r r₀ : Ref number) : Prop := ∀ i, r = .pool i → r₀ ≠ .pool i

theorem Apart.symm {r r₀ : Ref number} (h : Apart r r₀) : Apart r₀ r :=
  fun i hi hr => h i hr hi

theorem deref_update {p : Pool number size} {i : Fin number} {s : Slot size} {r : Ref number}
    (h : Apart (.pool i) r) : deref (Function.update p i s) r = deref p r := by
  cases r with
  | pool j =>
    have hne : j ≠ i := fun he => h i rfl (he ▸ rfl)
    exact congrArg Slot.buffer (Function.update_of_ne hne s p)
  | own b => rfl

theorem held_update {p : Pool number size} {i : Fin number} {s : Slot size} {r : Ref number}
    (hs : (p i).users ≤ s.users) (h : Held p r) : Held (Function.update p i s) r := by
  intro j hj
  have := h j hj
  by_cases he : j = i
  · subst he; rw [Function.update_self]; omega
  · rwa [Function.update_of_ne he]

/-- **What `get` hands out**: room for `sz` bytes, and no buffer that is in use. -/
theorem get_spec {junk : Nat → UInt8} {sz : Nat} {p p' : Pool number size} {r : Ref number}
    (h : p.get junk sz = (r, p')) :
    sz ≤ r.max size ∧ Held p' r ∧
    ∀ r₀, Held p r₀ → Apart r r₀ ∧ Held p' r₀ ∧ deref p' r₀ = deref p r₀ := by
  have hnew : ∀ m (b : Buffer m), sz ≤ m → Ref.own b = r ∧ p = p' →
      sz ≤ r.max size ∧ Held p' r ∧
      ∀ r₀, Held p r₀ → Apart r r₀ ∧ Held p' r₀ ∧ deref p' r₀ = deref p r₀ := by
    intro m b hm he
    obtain ⟨rfl, rfl⟩ := he
    exact ⟨hm, nofun, fun r₀ h₀ => ⟨nofun, h₀, rfl⟩⟩
  simp only [Pool.get] at h
  split at h
  · rename_i hle
    split at h
    · rename_i i hfree
      cases h
      have hzero : (p i).users = 0 := by simpa using List.find?_some hfree
      refine ⟨hle, fun j hj => ?_, fun r₀ h₀ => ?_⟩
      · cases hj
        simp [Pool.setUsers]
      · have ha : Apart (.pool i) r₀ := by
          intro j hj hr
          cases hj
          have := h₀ i hr
          omega
        exact ⟨ha, held_update (by simp) h₀, deref_update ha⟩
    · exact hnew _ _ (by split <;> omega) (Prod.mk.inj h)
  · exact hnew _ _ (by split <;> omega) (Prod.mk.inj h)

/-- No buffer is smaller than those of the pool. -/
theorem get_max {junk : Nat → UInt8} {sz : Nat} {p p' : Pool number size} {r : Ref number}
    (h : p.get junk sz = (r, p')) : size ≤ r.max size := by
  have hnew : size ≤ if size < sz then sz else size := by split <;> omega
  simp only [Pool.get] at h
  split at h
  · split at h <;> cases h
    · exact Nat.le_refl size
    · exact hnew
  · cases h
    exact hnew

/-- The `size()` of what `get` hands out for `sz` bytes: of a buffer of the pool the one that its
last user left, of a new one all of it. -/
def Pool.sizeFound (p : Pool number size) (sz : Nat) : Nat :=
  if size < sz then sz
  else match p.firstFree with
    | some i => (p i).buffer.mSize
    | none => size

theorem get_size {junk : Nat → UInt8} {sz : Nat} {p p' : Pool number size} {r : Ref number}
    (h : p.get junk sz = (r, p')) : (deref p' r).mSize = p.sizeFound sz := by
  unfold Pool.sizeFound
  unfold Pool.get at h
  by_cases hsz : sz ≤ size
  · rw [if_neg (Nat.not_lt.mpr hsz), Pool.firstFree]
    rw [if_pos hsz, if_neg (Nat.not_lt.mpr hsz)] at h
    cases hf : (List.finRange number).find? (fun i => (p i).users == 0) with
    | some i =>
      rw [hf] at h
      cases h
      simp [deref, Pool.setUsers]
    | none =>
      rw [hf] at h
      cases h
      rfl
  · rw [if_pos (Nat.lt_of_not_le hsz)]
    rw [if_neg hsz, if_pos (Nat.lt_of_not_le hsz)] at h
    cases h
    rfl

/-- `r'` and `p'` are what a call through `r` leaves: its buffer holds `bs`,
the others are as before. -/
structure Leaves (r : Ref number) (p : Pool number size) (bs : Bytes) (r' : Ref number)
    (p' : Pool number size) : Prop where
  max : r'.max size = r.max size
  bytes : (deref p' r').bytes = bs
  held : ∀ r₀, Held p r₀ → Held p' r₀
  self : Held p r → Held p' r'
  apart : ∀ r₀, Apart r r₀ → Apart r' r₀
  frame : ∀ r₀, Apart r r₀ → deref p' r₀ = deref p r₀

theorem call_spec {f : ∀ m, Buffer m → Option (Buffer m)} {r : Ref number} {p : Pool number size}
    {bs : Bytes} (h : ∃ b, f _ (deref p r) = some b ∧ b.bytes = bs) :
    ∃ r' p', p.call f r = some (r', p') ∧ Leaves r p bs r' p' := by
  obtain ⟨b, hb, rfl⟩ := h
  cases r with
  | pool i =>
    refine ⟨_, _, by rw [Pool.call, show f _ (p i).buffer = some b from hb]; rfl, ?_⟩
    have hheld : ∀ r₀, Held p r₀ → Held (Function.update p i { p i with buffer := b }) r₀ :=
      fun r₀ => held_update (Nat.le_refl _)
    exact {
      max := rfl
      bytes := by simp [deref]
      held := hheld
      self := hheld _
      apart := fun r₀ ha => ha
      frame := fun r₀ ha => deref_update ha }
  | own b₀ =>
    refine ⟨_, _, by rw [Pool.call, show f _ b₀ = some b from hb]; rfl, ?_⟩
    exact {
      max := rfl
      bytes := rfl
      held := fun r₀ h₀ => h₀
      self := nofun
      apart := nofun
      frame := fun r₀ _ => rfl }

section
variable (data : Bytes) (r : Ref number) (p : Pool number size)

theorem setSize_spec : ∃ r' p', p.setSize 0 r = some (r', p') ∧ Leaves r p [] r' p' :=
  call_spec (deref p r).setSize_zero

theorem assign_spec (h : data.length ≤ r.max size) :
    ∃ r' p', p.assign data r = some (r', p') ∧ Leaves r p data r' p' :=
  call_spec (Buffer.assign_some h)

theorem append_spec (h : (deref p r).mSize + data.length ≤ r.max size) :
    ∃ r' p', p.append data r = some (r', p') ∧ Leaves r p ((deref p r).bytes ++ data) r' p' :=
  call_spec (Buffer.append_some h)

theorem fill_spec (h : data.length ≤ r.max size) :
    ∃ r' p', p.fill data r = some (r', p') ∧
      Leaves r p ((data ++ (deref p r).mData.drop data.length).take (deref p r).mSize) r' p' :=
  call_spec (Buffer.fill_some h)

end

/-- `r` points to `bs` and to nothing that was in use before; what was in use
is as it was. -/
structure Fresh (p : Pool number size) (bs : Bytes) (r : Ref number) (p' : Pool number size) :
    Prop where
  bytes : (deref p' r).bytes = bs
  held : Held p' r
  others : ∀ r₀, Held p r₀ → Apart r r₀ ∧ Held p' r₀ ∧ deref p' r₀ = deref p r₀

theorem fresh_get {junk : Nat → UInt8} {sz : Nat} {p p' : Pool number size} {r : Ref number}
    (h : p.get junk sz = (r, p')) : Fresh p (deref p' r).bytes r p' :=
  ⟨rfl, (get_spec h).2.1, (get_spec h).2.2⟩

theorem Fresh.leaves {p p' p'' : Pool number size} {bs bs' : Bytes} {r r' : Ref number}
    (h : Fresh p bs r p') (hl : Leaves r p' bs' r' p'') : Fresh p bs' r' p'' where
  bytes := hl.bytes
  held := hl.self h.held
  others := by
    intro r₀ h₀
    obtain ⟨hapart, hheld, hderef⟩ := h.others r₀ h₀
    exact ⟨hl.apart r₀ hapart, hl.held r₀ hheld, (hl.frame r₀ hapart).trans hderef⟩

/-- How many refer to a buffer says nothing about its contents. -/
theorem deref_setUsers (p : Pool number size) (i : Fin number) (f : Nat → Nat) (r : Ref number) :
    deref (p.setUsers i f) r = deref p r := by
  cases r with
  | pool j =>
    show (p.setUsers i f j).buffer = (p j).buffer
    by_cases hij : j = i
    · rw [hij, Pool.setUsers, Function.update_self]
    · rw [Pool.setUsers, Function.update_of_ne hij]
  | own b => rfl

theorem deref_release (p : Pool number size) (r r₀ : Ref number) :
    deref (p.release r) r₀ = deref p r₀ := by
  cases r with
  | pool i => exact deref_setUsers p i _ r₀
  | own b => rfl

theorem release_spec {r r₀ : Ref number} {p : Pool number size} (ha : Apart r r₀) :
    deref (p.release r) r₀ = deref p r₀ ∧ (Held p r₀ → Held (p.release r) r₀) := by
  cases r with
  | pool i =>
    refine ⟨deref_release p _ r₀, fun h j hj => ?_⟩
    have hne : j ≠ i := fun he => ha i rfl (he ▸ hj)
    simp only [Pool.release, Pool.setUsers, Function.update_of_ne hne]
    exact h j hj
  | own b => exact ⟨rfl, id⟩

/-! ## Counting the users -/

/-- The buffer of the pool that `r` points to. -/
def Ref.slot : Ref number → Option (Fin number)
  | .pool i => some i
  | .own _ => none

/-- Each of the shared pointers `rs` is one of the users of what it points to. -/
def Counted (p : Pool number size) (rs : List (Ref number)) : Prop :=
  ∀ i, (rs.filterMap Ref.slot).count i ≤ (p i).users

/-- Another shared pointer to what `r` points to. -/
def Pool.retain (r : Ref number) (p : Pool number size) : Pool number size :=
  match r with
  | .pool i => p.setUsers i (· + 1)
  | .own _ => p

section
variable {p p' : Pool number size} {r r' : Ref number} {rs : List (Ref number)}

theorem deref_retain (p : Pool number size) (r r₀ : Ref number) :
    deref (p.retain r) r₀ = deref p r₀ := by
  cases r with
  | pool i => exact deref_setUsers p i _ r₀
  | own b => rfl

theorem counted_nil : Counted p [] := fun _ => Nat.zero_le _

theorem Counted.held (h : Counted p rs) (hr : r ∈ rs) : Held p r := by
  rintro i rfl
  have hi : i ∈ rs.filterMap Ref.slot := List.mem_filterMap.mpr ⟨_, hr, rfl⟩
  exact Nat.lt_of_lt_of_le (List.count_pos_iff.mpr hi) (h i)

theorem counted_singleton : Counted p [r] ↔ Held p r := by
  refine ⟨fun h => h.held (List.mem_singleton_self r), fun h i => ?_⟩
  cases r with
  | pool j =>
    by_cases hij : j = i
    · subst hij
      simpa [Ref.slot] using Nat.succ_le_of_lt (h j rfl)
    · simp [Ref.slot, hij]
  | own b => exact Nat.zero_le _

theorem Counted.perm (h : Counted p rs) {rs' : List (Ref number)} (hp : rs.Perm rs') :
    Counted p rs' := by
  intro i
  rw [← (hp.filterMap Ref.slot).count_eq i]
  exact h i

theorem Counted.swap (h : Counted p (r :: r' :: rs)) : Counted p (r' :: r :: rs) :=
  h.perm (List.Perm.swap r' r rs)

theorem Counted.slot (h : Counted p (r :: rs)) (hr : r'.slot = r.slot) : Counted p (r' :: rs) := by
  intro i
  simpa only [List.filterMap_cons, hr] using h i

theorem Counted.release (h : Counted p (r :: rs)) : Counted (p.release r) rs := by
  intro i
  have hi := h i
  cases r with
  | pool j =>
    simp only [List.filterMap_cons, Ref.slot, List.count_cons, beq_iff_eq] at hi
    by_cases hij : j = i
    · subst hij
      simp only [if_true] at hi
      simp only [Pool.release, Pool.setUsers, Function.update_self]
      omega
    · simp only [if_neg hij, Nat.add_zero] at hi
      rwa [Pool.release, Pool.setUsers, Function.update_of_ne (Ne.symm hij)]
  | own b => exact hi

theorem Counted.retain (h : Counted p rs) (r : Ref number) : Counted (p.retain r) (r :: rs) := by
  intro i
  have hi := h i
  cases r with
  | pool j =>
    simp only [List.filterMap_cons, Ref.slot, List.count_cons, beq_iff_eq]
    by_cases hij : j = i
    · subst hij
      simp only [if_true, Pool.retain, Pool.setUsers, Function.update_self]
      omega
    · rwa [if_neg hij, Nat.add_zero, Pool.retain, Pool.setUsers,
        Function.update_of_ne (Ne.symm hij)]
  | own b => exact hi

theorem Counted.get (h : Counted p rs) {junk : Nat → UInt8} {sz : Nat}
    (hg : p.get junk sz = (r, p')) : Counted p' (r :: rs) := by
  simp only [Pool.get] at hg
  split at hg
  · split at hg <;> cases hg
    · exact h.retain (.pool _)
    · exact h
  · cases hg
    exact h

theorem Counted.call (h : Counted p rs) {f : ∀ m, Buffer m → Option (Buffer m)}
    (hc : p.call f r = some (r', p')) : Counted p' rs ∧ r'.slot = r.slot := by
  cases r with
  | pool i =>
    obtain ⟨b, -, heq⟩ := Option.map_eq_some_iff.mp hc
    cases heq
    refine ⟨fun j => ?_, rfl⟩
    by_cases hij : j = i
    · subst hij
      rw [Function.update_self]
      exact h j
    · rw [Function.update_of_ne hij]
      exact h j
  | own b₀ =>
    obtain ⟨b, -, heq⟩ := Option.map_eq_some_iff.mp hc
    cases heq
    exact ⟨h, rfl⟩

end

end Reckoning.L1
