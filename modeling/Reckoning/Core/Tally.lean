import Mathlib.Algebra.Group.Basic

/-!
# Adding up a list

The weights of the elements of a list, in any commutative monoid: multisets
when it matters what is in the list, numbers when it matters how much. The sum
does not depend on the order, so it stays the same when an element moves from
one list to another.
-/
namespace Reckoning

variable {T M : Type} [AddCommMonoid M] (w : T → M)

def tally (ts : List T) : M := (ts.map w).foldr (· + ·) 0

@[simp] theorem tally_nil : tally w [] = 0 := rfl

@[simp] theorem tally_cons (t : T) (ts : List T) : tally w (t :: ts) = w t + tally w ts := rfl

@[simp] theorem tally_append (ts us : List T) : tally w (ts ++ us) = tally w ts + tally w us := by
  induction ts with
  | nil => exact (zero_add _).symm
  | cons t ts ih => rw [List.cons_append, tally_cons, tally_cons, ih, add_assoc]

/-- Taking an element out takes its weight out. -/
theorem tally_eraseIdx {t : T} {ts : List T} {i : Nat} (h : ts[i]? = some t) :
    w t + tally w (ts.eraseIdx i) = tally w ts := by
  induction ts generalizing i with
  | nil => simp at h
  | cons u ts ih =>
    cases i with
    | zero =>
      obtain rfl : u = t := by simpa using h
      rfl
    | succ i =>
      have hrest : w t + tally w (ts.eraseIdx i) = tally w ts := ih (by simpa using h)
      rw [List.eraseIdx_cons_succ, tally_cons, tally_cons, ← hrest, add_left_comm]

end Reckoning
