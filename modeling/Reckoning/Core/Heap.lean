import Mathlib.Logic.Function.Basic

/-!
# Objects with one owner each

A heap of objects that are made with `new` and freed with `delete`; an address
is never handed out again, so that a pointer to a freed object stays one. The
owners are the keys of a table: `owner k` is the pointer that `k` holds, and
every object says in one of its fields which key that is.

`Owned` is the invariant: what is held is live, and what is live is held.

* `Owned.alloc`, `Owned.free`: it survives a key that gets a new object, and one
  whose object is freed.
* `Owned.live_iff`: nothing dangles and nothing leaks.
-/
namespace Reckoning

abbrev Addr := Nat

structure Heap (α : Type) where
  cells : Addr → Option α
  next : Addr
  fresh : ∀ p, next ≤ p → cells p = none

namespace Heap
variable {α K : Type}

def empty : Heap α := ⟨fun _ => none, 0, fun _ _ => rfl⟩

/-- The new object is at `h.next`. -/
def alloc (a : α) (h : Heap α) : Heap α where
  cells := Function.update h.cells h.next (some a)
  next := h.next + 1
  fresh p hp := by
    have hlt : h.next < p := hp
    rw [Function.update_of_ne (Nat.ne_of_gt hlt)]
    exact h.fresh p (Nat.le_of_lt hlt)

def free (p : Addr) (h : Heap α) : Heap α where
  cells := Function.update h.cells p none
  next := h.next
  fresh q hq := by
    by_cases hqp : q = p
    · rw [hqp, Function.update_self]
    · rw [Function.update_of_ne hqp]
      exact h.fresh q hq

/-- Nothing happens at an address without an object. -/
def modify (p : Addr) (f : α → α) (h : Heap α) : Heap α where
  cells := Function.update h.cells p ((h.cells p).map f)
  next := h.next
  fresh q hq := by
    by_cases hqp : q = p
    · rw [hqp, Function.update_self, h.fresh p (hqp ▸ hq)]
      rfl
    · rw [Function.update_of_ne hqp]
      exact h.fresh q hq

variable {h : Heap α} {p q : Addr} {a b : α}

@[simp] theorem cells_next (h : Heap α) : h.cells h.next = none := h.fresh _ (Nat.le_refl _)

theorem ne_next (hp : h.cells p = some a) : p ≠ h.next := by
  rintro rfl
  rw [cells_next] at hp
  cases hp

@[simp] theorem alloc_self (a : α) (h : Heap α) : (h.alloc a).cells h.next = some a :=
  Function.update_self ..

@[simp] theorem alloc_of_ne (a : α) (hp : p ≠ h.next) : (h.alloc a).cells p = h.cells p :=
  Function.update_of_ne hp ..

@[simp] theorem free_self (p : Addr) (h : Heap α) : (h.free p).cells p = none :=
  Function.update_self ..

@[simp] theorem free_of_ne (hq : q ≠ p) : (h.free p).cells q = h.cells q :=
  Function.update_of_ne hq ..

@[simp] theorem modify_self (p : Addr) (f : α → α) (h : Heap α) :
    (h.modify p f).cells p = (h.cells p).map f := Function.update_self ..

@[simp] theorem modify_of_ne (f : α → α) (hq : q ≠ p) : (h.modify p f).cells q = h.cells q :=
  Function.update_of_ne hq ..

/-! ## Ownership -/

/-- What a key holds is live and names the key; what is live is held. -/
structure Owned (h : Heap α) (key : α → K) (owner : K → Option Addr) : Prop where
  live : ∀ k p, owner k = some p → ∃ a, h.cells p = some a ∧ key a = k
  held : ∀ p a, h.cells p = some a → owner (key a) = some p

variable {key : α → K} {owner owner' : K → Option Addr} {k : K}

theorem Owned.empty : Owned (Heap.empty : Heap α) key fun _ => none := ⟨nofun, nofun⟩

/-- Two keys do not hold the same object. -/
theorem Owned.injective (ho : Owned h key owner) {k k' : K} (hk : owner k = some p)
    (hk' : owner k' = some p) : k = k' := by
  obtain ⟨a, ha, rfl⟩ := ho.live k p hk
  obtain ⟨b, hb, rfl⟩ := ho.live k' p hk'
  rw [ha] at hb
  cases hb
  rfl

/-- **Nothing dangles and nothing leaks.** -/
theorem Owned.live_iff (ho : Owned h key owner) (p : Addr) :
    (h.cells p).isSome = true ↔ ∃ k, owner k = some p := by
  constructor
  · intro hp
    obtain ⟨a, ha⟩ := Option.isSome_iff_exists.mp hp
    exact ⟨key a, ho.held p a ha⟩
  · rintro ⟨k, hk⟩
    obtain ⟨a, ha, -⟩ := ho.live k p hk
    rw [ha]
    rfl

theorem Owned.congr (ho : Owned h key owner) (heq : ∀ k, owner' k = owner k) :
    Owned h key owner' := by
  obtain rfl : owner' = owner := funext heq
  exact ho

section
variable [DecidableEq K]

/-- A key that held nothing gets a new object. -/
theorem Owned.alloc (ho : Owned h key owner) (hk : owner (key a) = none) :
    Owned (h.alloc a) key (Function.update owner (key a) (some h.next)) := by
  constructor
  · intro k p hp
    by_cases hkey : k = key a
    · subst hkey
      rw [Function.update_self] at hp
      cases hp
      exact ⟨a, alloc_self a h, rfl⟩
    · rw [Function.update_of_ne hkey] at hp
      obtain ⟨b, hb, hbk⟩ := ho.live k p hp
      exact ⟨b, by rw [alloc_of_ne a (ne_next hb)]; exact hb, hbk⟩
  · intro p b hp
    by_cases hpn : p = h.next
    · subst hpn
      rw [alloc_self] at hp
      cases hp
      exact Function.update_self ..
    · rw [alloc_of_ne a hpn] at hp
      have hheld := ho.held p b hp
      rw [Function.update_of_ne]
      · exact hheld
      · intro heq
        rw [heq, hk] at hheld
        cases hheld

/-- A key lets go of its object, which is freed. -/
theorem Owned.free (ho : Owned h key owner) (hk : owner k = some p) :
    Owned (h.free p) key (Function.update owner k none) := by
  constructor
  · intro k' q hq
    by_cases hkey : k' = k
    · rw [hkey, Function.update_self] at hq
      cases hq
    · rw [Function.update_of_ne hkey] at hq
      have hqp : q ≠ p := fun heq => hkey (ho.injective hq (heq ▸ hk))
      obtain ⟨b, hb, hbk⟩ := ho.live k' q hq
      exact ⟨b, by rw [free_of_ne hqp]; exact hb, hbk⟩
  · intro q b hq
    have hqp : q ≠ p := by
      rintro rfl
      rw [free_self] at hq
      cases hq
    rw [free_of_ne hqp] at hq
    have hheld := ho.held q b hq
    rw [Function.update_of_ne]
    · exact hheld
    · rintro rfl
      exact hqp (Option.some.inj (hheld.symm.trans hk))

end

end Heap
end Reckoning
