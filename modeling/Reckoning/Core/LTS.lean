/-!
# Labelled transition systems and conditional invariants

The state machines of this development are `LTS`s. Two views of a run are
used:

* `Run s ls s'` / `Reachable s`: the labels taken, or only the state reached;
* `Trace s t`: the labels with the state after each of them, so that "every
  state of the run" (`AllStates`) and "every step of the run" (`AllSteps`)
  can both be said of the same run.

`guard C` keeps only the steps that meet `C` (a condition on the state before
the step and on its label), so `(M.guard C).Reachable s` reads "some run whose
steps all meet `C` reaches `s`".

* `Inductive.reachable`: an inductive predicate holds of every reachable state.
* `Guarded.reachable`: the same for a predicate that only the steps meeting
  `C` preserve.
* `Exact.allStates_iff`: when, in addition, a step that does not meet `C`
  breaks `P` at once, a run satisfies `P` in all its states exactly when all
  its steps meet `C`.
* `drains`: steps that leave less to do each time come to an end.
-/
namespace Reckoning

structure LTS (S L : Type) where
  init : S → Prop
  step : S → L → S → Prop

namespace LTS
variable {S L : Type}

/-- The transition system of a partial step function. -/
def ofFn (init : S → Prop) (f : S → L → Option S) : LTS S L where
  init := init
  step s l s' := f s l = some s'

/-- The steps of `M` that meet `C`. -/
def guard (M : LTS S L) (C : S → L → Prop) : LTS S L where
  init := M.init
  step s l s' := C s l ∧ M.step s l s'

inductive Run (M : LTS S L) : S → List L → S → Prop
  | nil (s : S) : Run M s [] s
  | cons {s s' s'' : S} {l : L} {ls : List L} :
      M.step s l s' → Run M s' ls s'' → Run M s (l :: ls) s''

def Reachable (M : LTS S L) (s : S) : Prop := ∃ s₀ ls, M.init s₀ ∧ M.Run s₀ ls s

theorem Run.append {M : LTS S L} {s s' s'' : S} {ls ls' : List L} (h : M.Run s ls s') :
    M.Run s' ls' s'' → M.Run s (ls ++ ls') s'' := by
  induction h with
  | nil => exact id
  | cons hs _ ih => exact fun h' => .cons hs (ih h')

theorem Reachable.run {M : LTS S L} {s s' : S} {ls : List L} (hr : M.Reachable s)
    (h : M.Run s ls s') : M.Reachable s' := by
  obtain ⟨s₀, ls₀, hi, hrun⟩ := hr
  exact ⟨s₀, ls₀ ++ ls, hi, hrun.append h⟩

/-- A predicate preserved by every step is preserved by every run. -/
theorem Run.preserves {M : LTS S L} {I : S → Prop}
    (hstep : ∀ s l s', I s → M.step s l s' → I s') {s s' : S} {ls : List L}
    (h : M.Run s ls s') : I s → I s' := by
  induction h with
  | nil => exact id
  | cons hs _ ih => exact fun hi => ih (hstep _ _ _ hi hs)

/-- `I` holds initially and every step preserves it. -/
structure Inductive (M : LTS S L) (I : S → Prop) : Prop where
  init : ∀ s, M.init s → I s
  step : ∀ s l s', I s → M.step s l s' → I s'

theorem Inductive.reachable {M : LTS S L} {I : S → Prop} (h : M.Inductive I) (s : S)
    (hr : M.Reachable s) : I s := by
  obtain ⟨s₀, ls, hi, hrun⟩ := hr
  exact hrun.preserves h.step (h.init s₀ hi)

/-- `I` holds initially and every step that meets `C` preserves it. -/
structure Guarded (M : LTS S L) (C : S → L → Prop) (I : S → Prop) : Prop where
  init : ∀ s, M.init s → I s
  step : ∀ s l s', I s → C s l → M.step s l s' → I s'

theorem Guarded.inductive {M : LTS S L} {C : S → L → Prop} {I : S → Prop}
    (h : M.Guarded C I) : (M.guard C).Inductive I where
  init := h.init
  step s l s' hi hs := h.step s l s' hi hs.1 hs.2

/-- In every run whose steps all meet `C`, `I` holds in every state reached. -/
theorem Guarded.reachable {M : LTS S L} {C : S → L → Prop} {I : S → Prop}
    (h : M.Guarded C I) (s : S) (hr : (M.guard C).Reachable s) : I s :=
  h.inductive.reachable s hr

theorem Run.of_guard {M : LTS S L} {C : S → L → Prop} {s s' : S} {ls : List L}
    (h : (M.guard C).Run s ls s') : M.Run s ls s' := by
  induction h with
  | nil s => exact .nil s
  | cons hs _ ih => exact .cons hs.2 ih

theorem Run.labels {M : LTS S L} {C : L → Prop} {s s' : S} {ls : List L}
    (h : (M.guard fun _ => C).Run s ls s') : ∀ l ∈ ls, C l := by
  induction h with
  | nil s => exact nofun
  | cons hs _ ih => exact List.forall_mem_cons.mpr ⟨hs.1, ih⟩

/-- Steps that meet `C` meet what `C` and a preserved `I` give. -/
theorem Run.strengthen {M : LTS S L} {C D : S → L → Prop} {I : S → Prop}
    (hstep : ∀ s l s', I s → C s l → M.step s l s' → D s l ∧ I s') {s s' : S} {ls : List L}
    (h : (M.guard C).Run s ls s') : I s → (M.guard D).Run s ls s' ∧ I s' := by
  induction h with
  | nil s => exact fun hi => ⟨.nil s, hi⟩
  | cons hs _ ih =>
    intro hi
    obtain ⟨hd, hi'⟩ := hstep _ _ _ hi hs.1 hs.2
    obtain ⟨hrun, hlast⟩ := ih hi'
    exact ⟨.cons ⟨hd, hs.2⟩ hrun, hlast⟩

/-! ## Coming to an end -/

/-- When `Done` does not hold yet, some step of the kind `C` can be taken; it
keeps `I` and leaves less to do. Then such steps lead to `Done`. -/
theorem drains {M : LTS S L} {C : S → L → Prop} {I Done : S → Prop} {todo : S → Nat}
    (h : ∀ s, I s → ¬ Done s → ∃ l s', C s l ∧ M.step s l s' ∧ I s' ∧ todo s' < todo s) :
    ∀ s, I s → ∃ ls s', (M.guard C).Run s ls s' ∧ ls.length ≤ todo s ∧ Done s' ∧ I s' := by
  intro s hi
  generalize hn : todo s = n
  induction n using Nat.strongRecOn generalizing s with
  | ind n ih =>
    by_cases hd : Done s
    · exact ⟨[], s, .nil s, Nat.zero_le _, hd, hi⟩
    · obtain ⟨l, s₁, hc, hs, hi₁, hlt⟩ := h s hi hd
      obtain ⟨ls, s', hrun, hlen, hd', hi'⟩ := ih _ (hn ▸ hlt) s₁ hi₁ rfl
      exact ⟨l :: ls, s', .cons ⟨hc, hs⟩ hrun, by simp only [List.length_cons]; omega, hd', hi'⟩

/-! ## Traces: a run with the state after each step -/

inductive Trace (M : LTS S L) : S → List (L × S) → Prop
  | nil (s : S) : Trace M s []
  | cons {s s' : S} {l : L} {t : List (L × S)} :
      M.step s l s' → Trace M s' t → Trace M s ((l, s') :: t)

/-- `P` holds at `s` and after every step of the trace. -/
def AllStates (P : S → Prop) (s : S) (t : List (L × S)) : Prop := P s ∧ ∀ x ∈ t, P x.2

/-- Every step of the trace meets `C`. -/
def AllSteps (C : S → L → Prop) : S → List (L × S) → Prop
  | _, [] => True
  | s, (l, s') :: t => C s l ∧ AllSteps C s' t

/-- The state that a trace leads to. -/
def last : S → List (L × S) → S
  | s, [] => s
  | _, (_, s') :: t => last s' t

instance instDecidableAllSteps {C : S → L → Prop} [∀ s l, Decidable (C s l)] :
    ∀ (s : S) (t : List (L × S)), Decidable (AllSteps C s t)
  | _, [] => isTrue trivial
  | s, (l, s') :: t => @instDecidableAnd _ _ (inferInstanceAs (Decidable (C s l)))
      (instDecidableAllSteps s' t)

theorem allStates_cons {P : S → Prop} {s s' : S} {l : L} {t : List (L × S)} :
    AllStates P s ((l, s') :: t) ↔ P s ∧ AllStates P s' t := by
  simp [AllStates]

/-- An inductive predicate holds in every state of a trace that starts in it. -/
theorem Inductive.allStates {M : LTS S L} {I : S → Prop} (h : M.Inductive I) {s : S}
    {t : List (L × S)} (ht : M.Trace s t) : I s → AllStates I s t := by
  induction ht with
  | nil s => exact fun hi => ⟨hi, by simp⟩
  | cons hs _ ih => exact fun hi => allStates_cons.mpr ⟨hi, ih (h.step _ _ _ hi hs)⟩

/-- A run whose steps all meet `C` keeps what `I` gives. -/
theorem Guarded.allStates {M : LTS S L} {C : S → L → Prop} {I P : S → Prop}
    (h : M.Guarded C I) (hP : ∀ s, I s → P s) {s : S} {t : List (L × S)} (ht : M.Trace s t) :
    I s → AllSteps C s t → AllStates P s t := by
  induction ht with
  | nil s => exact fun hi _ => ⟨hP s hi, by simp⟩
  | cons hs _ ih =>
    exact fun hi hc => allStates_cons.mpr ⟨hP _ hi, ih (h.step _ _ _ hi hc.1 hs) hc.2⟩

/-- Along a run whose steps all meet `C`, all steps meet what `I` and `C` give. -/
theorem Guarded.allSteps {M : LTS S L} {C D : S → L → Prop} {I : S → Prop}
    (h : M.Guarded C I) (hD : ∀ s l, I s → C s l → D s l) {s : S} {t : List (L × S)}
    (ht : M.Trace s t) : I s → AllSteps C s t → AllSteps D s t := by
  induction ht with
  | nil s => exact fun _ _ => trivial
  | cons hs _ ih => exact fun hi hc => ⟨hD _ _ hi hc.1, ih (h.step _ _ _ hi hc.1 hs) hc.2⟩

theorem AllStates.last {P : S → Prop} : ∀ {s : S} {t : List (L × S)}, AllStates P s t →
    P (LTS.last s t)
  | _, [], h => h.1
  | _, (_, s') :: t, h => AllStates.last (s := s') (t := t) (allStates_cons.mp h).2

/-- A trace can be cut anywhere. -/
theorem Trace.of_append {M : LTS S L} : ∀ {s : S} {t u : List (L × S)}, M.Trace s (t ++ u) →
    M.Trace s t ∧ M.Trace (LTS.last s t) u
  | s, [], _, h => ⟨.nil s, h⟩
  | _, (_, s') :: t, _, .cons hs h =>
    let ⟨ht, hu⟩ := Trace.of_append (s := s') (t := t) h
    ⟨.cons hs ht, hu⟩

/-- What every step preserves holds of the state a trace leads to. -/
theorem Trace.preserves {M : LTS S L} {I : S → Prop}
    (hstep : ∀ s l s', I s → M.step s l s' → I s') {s : S} {t : List (L × S)}
    (h : M.Trace s t) : I s → I (LTS.last s t) := by
  induction h with
  | nil => exact id
  | cons hs _ ih => exact fun hi => ih (hstep _ _ _ hi hs)

theorem Trace.run {M : LTS S L} {s : S} {t : List (L × S)} (h : M.Trace s t) :
    M.Run s (t.map Prod.fst) (LTS.last s t) := by
  induction h with
  | nil s => exact .nil s
  | cons hs _ ih => exact .cons hs ih

theorem Trace.reachable {M : LTS S L} {s : S} {t : List (L × S)} (hi : M.init s)
    (h : M.Trace s t) : M.Reachable (LTS.last s t) :=
  ⟨s, _, hi, h.run⟩

/-- The invariant `I` gives `P`, survives every step that meets `C`, and a
step that does not meet `C` falsifies `P`. -/
structure Exact (M : LTS S L) (C : S → L → Prop) (I P : S → Prop) : Prop where
  holds : ∀ s, I s → P s
  keeps : ∀ s l s', I s → C s l → M.step s l s' → I s'
  breaks : ∀ s l s', I s → ¬ C s l → M.step s l s' → ¬ P s'

/-- A run keeps `P` throughout exactly when all its steps meet `C`. -/
theorem Exact.allStates_iff {M : LTS S L} {C : S → L → Prop} {I P : S → Prop}
    (h : M.Exact C I P) {s : S} {t : List (L × S)} (ht : M.Trace s t) :
    I s → (AllStates P s t ↔ AllSteps C s t) := by
  induction ht with
  | nil s => exact fun hi => ⟨fun _ => trivial, fun _ => ⟨h.holds s hi, by simp⟩⟩
  | @cons s s' l t hs _ ih =>
    intro hi
    rw [allStates_cons]
    constructor
    · intro hx
      obtain ⟨-, hrest⟩ := hx
      have hc : C s l := Classical.byContradiction fun hn => h.breaks s l s' hi hn hs hrest.1
      exact ⟨hc, (ih (h.keeps s l s' hi hc hs)).mp hrest⟩
    · intro hx
      obtain ⟨hc, hrest⟩ := hx
      exact ⟨h.holds s hi, (ih (h.keeps s l s' hi hc hs)).mpr hrest⟩

/-! ## Executing a step function -/

/-- The trace of the labels `ls` under the step function `f`. -/
def record (f : S → L → Option S) : S → List L → Option (List (L × S))
  | _, [] => some []
  | s, l :: ls => (f s l).bind fun s' => (record f s' ls).map ((l, s') :: ·)

theorem trace_record {init : S → Prop} {f : S → L → Option S} :
    ∀ {s : S} {ls : List L} (h : (record f s ls).isSome),
      (ofFn init f).Trace s ((record f s ls).get h)
  | s, [], _ => .nil s
  | s, l :: ls, h => by
    obtain ⟨t, ht⟩ := Option.isSome_iff_exists.mp h
    have hget : (record f s (l :: ls)).get h = t := by simp [ht]
    simp only [record, Option.bind_eq_some_iff, Option.map_eq_some_iff] at ht
    obtain ⟨s', hs, t', ht', rfl⟩ := ht
    rw [hget]
    have h' : (record f s' ls).isSome := by rw [ht']; rfl
    have hrest : (ofFn init f).Trace s' _ := trace_record h'
    simp only [ht', Option.get_some] at hrest
    exact .cons hs hrest

/-- The state that the labels `ls` lead to under the step function `f`. -/
def replay (f : S → L → Option S) : S → List L → Option S
  | s, [] => some s
  | s, l :: ls => (f s l).bind fun s' => replay f s' ls

theorem run_replay {init : S → Prop} {f : S → L → Option S} :
    ∀ {s s' : S} {ls : List L}, replay f s ls = some s' → (ofFn init f).Run s ls s'
  | s, _, [], h => by cases h; exact .nil s
  | s, s', l :: ls, h => by
    obtain ⟨s₁, hs, hrest⟩ := Option.bind_eq_some_iff.mp h
    exact .cons hs (run_replay hrest)

theorem reachable_replay (init : S → Prop) {f : S → L → Option S} {s : S} {ls : List L}
    (hi : init s) (h : (replay f s ls).isSome) : (ofFn init f).Reachable ((replay f s ls).get h) :=
  ⟨s, ls, hi, run_replay (by simp)⟩

/-- A trace whose steps all meet `C` is a trace of the guarded system. -/
theorem Trace.guard {M : LTS S L} {C : S → L → Prop} {s : S} {t : List (L × S)}
    (h : M.Trace s t) : AllSteps C s t → (M.guard C).Trace s t := by
  induction h with
  | nil s => exact fun _ => .nil s
  | cons hs _ ih => exact fun hc => .cons ⟨hc.1, hs⟩ (ih hc.2)

end LTS
end Reckoning
