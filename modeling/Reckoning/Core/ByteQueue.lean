/-!
# A stream kept as a queue of chunks and an offset

A stream that arrives in chunks and leaves in pieces is kept as a list of
chunks and an offset into the first of them. `remaining off q` is the part
of the stream that has not left yet: what is behind the offset in the first
chunk, then all other chunks.

Taking `n` elements either stays inside the first chunk (`remaining_advance`)
or uses it up (`remaining_pop`); `remaining_append` says what a new chunk adds,
and `length_remaining_rewind` what it costs to forget that the first chunks
have left.
-/
namespace Reckoning.ByteQueue

variable {α : Type}

def remaining (off : Nat) : List (List α) → List α
  | [] => []
  | b :: q => b.drop off ++ q.flatten

/-- The offset is 0 or lies inside the first chunk. -/
def OffOk (off : Nat) (q : List (List α)) : Prop :=
  off = 0 ∨ ∃ b q', q = b :: q' ∧ off < b.length

theorem offOk_zero (q : List (List α)) : OffOk 0 q := Or.inl rfl

theorem OffOk.lt {off : Nat} {b : List α} {q : List (List α)} (h : OffOk off (b :: q)) :
    off = 0 ∨ off < b.length := by
  rcases h with h | ⟨b', q', he, hlt⟩
  · exact Or.inl h
  · cases he; exact Or.inr hlt

theorem OffOk.le {off : Nat} {b : List α} {q : List (List α)} (h : OffOk off (b :: q)) :
    off ≤ b.length := by
  rcases h.lt with h | h <;> omega

theorem OffOk.nil {off : Nat} (h : OffOk off ([] : List (List α))) : off = 0 := by
  rcases h with h | ⟨b, q', he, -⟩
  · exact h
  · cases he

theorem OffOk.append {off : Nat} {q : List (List α)} (h : OffOk off q) (r : List (List α)) :
    OffOk off (q ++ r) := by
  rcases h with h | ⟨b, q', rfl, hlt⟩
  · exact Or.inl h
  · exact Or.inr ⟨b, q' ++ r, rfl, hlt⟩

@[simp] theorem remaining_nil (off : Nat) : remaining off ([] : List (List α)) = [] := rfl

@[simp] theorem remaining_zero (q : List (List α)) : remaining 0 q = q.flatten := by
  cases q <;> simp [remaining]

theorem remaining_append {off : Nat} {q : List (List α)} (h : OffOk off q) (r : List (List α)) :
    remaining off (q ++ r) = remaining off q ++ r.flatten := by
  cases q with
  | nil => rw [h.nil]; simp
  | cons b q => simp [remaining]

/-- Taking `n` elements out of the first chunk. -/
theorem remaining_advance (off n : Nat) (b : List α) (q : List (List α)) :
    remaining off (b :: q) = (b.drop off).take n ++ remaining (off + n) (b :: q) := by
  simp only [remaining, ← List.append_assoc, ← List.drop_drop, List.take_append_drop]

/-- Taking all that is left of the first chunk. -/
theorem remaining_pop {off n : Nat} {b : List α} (hn : b.length - off ≤ n) (q : List (List α)) :
    remaining off (b :: q) = (b.drop off).take n ++ remaining 0 q := by
  rw [List.take_of_length_le (by simpa using hn), remaining_zero, remaining]

/-- Going back over `pre` without touching the offset never shrinks what
remains, and leaves its length alone only if nothing was behind. -/
theorem length_remaining_rewind {off : Nat} {pre q : List (List α)} (h : OffOk off q)
    (hne : pre ≠ []) (hback : off ≠ 0 ∨ pre.flatten ≠ []) :
    (remaining off q).length < (remaining off (pre ++ q)).length := by
  obtain ⟨p, pre, rfl⟩ := List.exists_cons_of_ne_nil hne
  by_cases h0 : off = 0
  · subst h0
    have hlen := List.length_pos_iff.mpr (hback.resolve_left (by simp))
    simp only [remaining_zero, List.flatten_append, List.length_append]
    omega
  · obtain ⟨b, q', rfl, hlt⟩ := h.resolve_left h0
    simp only [remaining, List.cons_append, List.flatten_append, List.flatten_cons,
      List.length_append, List.length_drop]
    omega

end Reckoning.ByteQueue
