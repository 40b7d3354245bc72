/-!
# Binary search for the place to insert

`lowerBound less xs` halves `xs` until one place is left, as `std::lower_bound`
does. It looks at few elements; what it says about the others follows where the
elements that are `less` come first.

* `lowerBound_split`: the elements in front of the place are `less`, those from it on are not.
* `Ordered.insertBy`: inserting there keeps a list in order.
* `insertBy_perm`: and whatever the list was, adds the one element.
-/
namespace Reckoning.Search

section Search
variable {α : Type}

/-- The search among `len` elements from `first` on. -/
def lowerBoundFrom (less : α → Bool) (xs : List α) : Nat → Nat → Nat → Nat
  | 0, first, _ => first
  | fuel + 1, first, len =>
    if len = 0 then first
    else
      let half := len / 2
      if xs[first + half]?.any less then
        lowerBoundFrom less xs fuel (first + half + 1) (len - half - 1)
      else lowerBoundFrom less xs fuel first half

def lowerBound (less : α → Bool) (xs : List α) : Nat :=
  lowerBoundFrom less xs xs.length 0 xs.length

/-- No element that is not `less` stands in front of one that is. -/
def Partitioned (less : α → Bool) (xs : List α) : Prop :=
  xs.Pairwise fun a b => less b = true → less a = true

/-- What is known about a place: all in front of it is `less`. -/
def AllBefore (less : α → Bool) (xs : List α) (k : Nat) : Prop :=
  ∀ i (h : i < xs.length), i < k → less xs[i] = true

/-- Nothing from it on is. -/
def NoneFrom (less : α → Bool) (xs : List α) (k : Nat) : Prop :=
  ∀ i (h : i < xs.length), k ≤ i → less xs[i] = false

variable {less : α → Bool} {xs : List α}

theorem Partitioned.allBefore (hp : Partitioned less xs) {k : Nat} (h : k < xs.length)
    (hk : less xs[k] = true) : AllBefore less xs (k + 1) := by
  intro i hi hlt
  by_cases he : i = k
  · subst he; exact hk
  · exact List.pairwise_iff_getElem.mp hp i k hi h (by omega) hk

theorem Partitioned.noneFrom (hp : Partitioned less xs) {k : Nat} (h : k < xs.length)
    (hk : less xs[k] = false) : NoneFrom less xs k := by
  intro i hi hle
  by_cases he : k = i
  · subst he; exact hk
  · refine Bool.eq_false_iff.mpr fun ht => ?_
    have := List.pairwise_iff_getElem.mp hp k i h hi (by omega) ht
    rw [hk] at this
    cases this

theorem lowerBoundFrom_spec (hp : Partitioned less xs) {fuel first len : Nat}
    (hfuel : len ≤ fuel) (hle : first + len ≤ xs.length) (hb : AllBefore less xs first)
    (hn : NoneFrom less xs (first + len)) :
    lowerBoundFrom less xs fuel first len ≤ xs.length ∧
      AllBefore less xs (lowerBoundFrom less xs fuel first len) ∧
      NoneFrom less xs (lowerBoundFrom less xs fuel first len) := by
  induction fuel generalizing first len with
  | zero =>
    obtain rfl := Nat.le_zero.mp hfuel
    exact ⟨hle, hb, hn⟩
  | succ fuel ih =>
    rw [lowerBoundFrom]
    by_cases hlen : len = 0
    · subst hlen
      exact ⟨hle, hb, hn⟩
    · have hmid : first + len / 2 < xs.length := by omega
      simp only [if_neg hlen, List.getElem?_eq_getElem hmid, Option.any_some]
      by_cases hless : less xs[first + len / 2] = true
      · rw [if_pos hless]
        refine ih (by omega) (by omega) (hp.allBefore hmid hless) ?_
        rw [show first + len / 2 + 1 + (len - len / 2 - 1) = first + len by omega]
        exact hn
      · rw [if_neg hless]
        exact ih (by omega) (by omega) hb (hp.noneFrom hmid (Bool.eq_false_iff.mpr hless))

/-- The place found parts the elements that are `less` from the others. -/
theorem lowerBound_split (hp : Partitioned less xs) :
    (∀ a ∈ xs.take (lowerBound less xs), less a = true) ∧
      ∀ a ∈ xs.drop (lowerBound less xs), less a = false := by
  obtain ⟨-, hb, hn⟩ : lowerBound less xs ≤ xs.length ∧ AllBefore less xs (lowerBound less xs) ∧
      NoneFrom less xs (lowerBound less xs) :=
    lowerBoundFrom_spec hp (Nat.le_refl _) (Nat.le_of_eq (Nat.zero_add _))
      (fun i _ hi => absurd hi (Nat.not_lt_zero i)) (fun i hi hle => by omega)
  constructor
  · intro a ha
    obtain ⟨i, hi, rfl⟩ := List.mem_take_iff_getElem.mp ha
    exact hb i (by omega) (by omega)
  · intro a ha
    obtain ⟨i, hi, rfl⟩ := List.mem_drop_iff_getElem.mp ha
    exact hn _ (by omega) (by omega)

end Search

/-! ## Inserting in order -/

section Insert
variable {α : Type}

/-- `less` compares by something that is linearly ordered; elements may tie. -/
structure StrictWeak (less : α → α → Bool) : Prop where
  asymm : ∀ a b, less a b = true → less b a = false
  negTrans : ∀ a b c, less a b = false → less b c = false → less a c = false

/-- `x` in front of the first element that is not `less` than it. -/
def insertBy (less : α → α → Bool) (x : α) (xs : List α) : List α :=
  let k := lowerBound (fun y => less y x) xs
  xs.take k ++ x :: xs.drop k

variable {less : α → α → Bool} {x : α} {xs : List α}

/-- Wherever it is put, the element is added. -/
theorem insertBy_perm (less : α → α → Bool) (x : α) (xs : List α) :
    (insertBy less x xs).Perm (x :: xs) := by
  refine List.perm_middle.trans ?_
  rw [List.take_append_drop]

theorem mem_insertBy {y : α} : y ∈ insertBy less x xs ↔ y = x ∨ y ∈ xs :=
  (insertBy_perm less x xs).mem_iff.trans List.mem_cons

/-- No element is `less` than one in front of it. -/
def Ordered (less : α → α → Bool) (xs : List α) : Prop := xs.Pairwise fun a b => less b a = false

theorem Ordered.partitioned (hl : StrictWeak less) (h : Ordered less xs) (x : α) :
    Partitioned (fun y => less y x) xs :=
  h.imp fun {a b} hab hb => by
    refine Bool.of_not_eq_false fun ha => ?_
    exact Bool.false_ne_true ((hl.negTrans b a x hab ha).symm.trans hb)

theorem Ordered.insertBy (hl : StrictWeak less) (h : Ordered less xs) :
    Ordered less (insertBy less x xs) := by
  obtain ⟨hless, hnot⟩ := lowerBound_split (h.partitioned hl x)
  have hsplit := List.take_append_drop (lowerBound (fun y => less y x) xs) xs
  rw [Ordered, ← hsplit, List.pairwise_append] at h
  obtain ⟨hfront, hback, hcross⟩ := h
  refine List.pairwise_append.mpr ⟨hfront, List.pairwise_cons.mpr ⟨hnot, hback⟩, ?_⟩
  intro a ha b hb
  rcases List.mem_cons.mp hb with rfl | hb
  · exact hl.asymm a b (hless a ha)
  · exact hcross a ha b hb

end Insert
end Reckoning.Search
