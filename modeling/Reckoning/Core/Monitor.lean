import Mathlib.Logic.Function.Basic
import Reckoning.Core.LTS

/-!
# Threads that share data under a mutex with a condition variable

A `Program` says what the next statement of a thread does: to the monitor
(`Op`), to the thread's own place in the code, and to the shared data. Any
number of threads run it, one statement at a time. A thread in `wait` sleeps
until it is notified, or until it wakes by itself (a timeout, or for no reason),
and then has to lock again.

`inside` marks the places where a thread holds the mutex, and a `Disciplined`
program keeps to its marks.

* `exclusive_step`, `mutual_exclusion`: of a disciplined program, one thread at
  most is inside.
* `Outline.guarded`, `Outline.holds`: assertions at the places of the threads hold throughout
  when each step keeps the assertion of its own thread and those of the others,
  where two threads need not be considered inside together.
-/
namespace Reckoning.Monitor

/-- What a statement does to the mutex and the condition variable. -/
inductive Op
  | plain
  | lock
  | unlock
  /-- unlock and sleep -/
  | wait
  /-- `notify_one` -/
  | notify
  deriving DecidableEq, Repr

structure Program (Pc D L : Type) where
  next : Pc → D → L → Option (Op × Pc × D)
  /-- the thread holds the mutex there -/
  inside : Pc → Bool

structure State (T Pc D : Type) where
  owner : Option T
  asleep : List T
  pc : T → Pc
  data : D

/-- `woken`: the thread that a `notify` wakes. -/
inductive Label (T L : Type)
  | run (t : T) (l : L) (woken : Option T)
  /-- a timeout, or a spurious wakeup -/
  | wake (t : T)
  deriving DecidableEq, Repr

variable {T Pc D L : Type} [DecidableEq T]

/-- The mutex and the sleepers after an operation of thread `t`. -/
def perform (t : T) (woken : Option T) (owner : Option T) (asleep : List T) :
    Op → Option (Option T × List T)
  | .plain => some (owner, asleep)
  | .lock => if owner = none ∧ t ∉ asleep then some (some t, asleep) else none
  | .unlock => if owner = some t then some (none, asleep) else none
  | .wait => if owner = some t then some (none, t :: asleep) else none
  | .notify =>
    match woken with
    | none => if asleep = [] then some (owner, []) else none
    | some u => if u ∈ asleep then some (owner, asleep.erase u) else none

def step (P : Program Pc D L) (s : State T Pc D) : Label T L → Option (State T Pc D)
  | .run t l woken =>
    (P.next (s.pc t) s.data l).bind fun (op, pc, d) =>
      (perform t woken s.owner s.asleep op).map fun (owner, asleep) =>
        ⟨owner, asleep, Function.update s.pc t pc, d⟩
  | .wake t => if t ∈ s.asleep then some { s with asleep := s.asleep.erase t } else none

/-- Nobody holds the mutex at the start. -/
def system (P : Program Pc D L) (init : State T Pc D → Prop) : LTS (State T Pc D) (Label T L) :=
  LTS.ofFn init (step P)

/-! ## What a step does -/

section
variable {P : Program Pc D L} {s s' : State T Pc D} {t u : T}

/-- Who owns the mutex before and after an operation of thread `t`. -/
def Op.Owners (t : T) (owner owner' : Option T) : Op → Prop
  | .plain | .notify => owner' = owner
  | .lock => owner = none ∧ owner' = some t
  | .unlock | .wait => owner = some t ∧ owner' = none

theorem perform_owners {woken owner owner' : Option T} {asleep asleep' : List T} {op : Op}
    (h : perform t woken owner asleep op = some (owner', asleep')) : op.Owners t owner owner' := by
  cases op <;> simp only [perform] at h
  case plain => exact (Prod.mk.inj (Option.some.inj h)).1.symm
  case notify =>
    split at h <;> split at h <;> cases h <;> rfl
  all_goals
    split at h
    · obtain ⟨rfl, -⟩ := Prod.mk.inj (Option.some.inj h)
      first | exact ⟨‹_›, rfl⟩ | exact ⟨(‹_ ∧ _›).1, rfl⟩
    · cases h

/-- A statement of thread `t`. -/
structure Ran (P : Program Pc D L) (t : T) (l : L) (woken : Option T) (s s' : State T Pc D)
    (op : Op) : Prop where
  next : P.next (s.pc t) s.data l = some (op, s'.pc t, s'.data)
  others : ∀ u, u ≠ t → s'.pc u = s.pc u
  perform : perform t woken s.owner s.asleep op = some (s'.owner, s'.asleep)

theorem step_run {l : L} {woken : Option T} (h : step P s (.run t l woken) = some s') :
    ∃ op, Ran P t l woken s s' op := by
  obtain ⟨⟨op, pc, d⟩, hnext, hrest⟩ := Option.bind_eq_some_iff.mp h
  obtain ⟨⟨owner, asleep⟩, hperf, rfl⟩ := Option.map_eq_some_iff.mp hrest
  refine ⟨op, ?_, fun u hu => Function.update_of_ne hu pc s.pc, hperf⟩
  simpa using hnext

theorem step_wake (h : step P s (.wake t : Label T L) = some s') :
    t ∈ s.asleep ∧ s' = { s with asleep := s.asleep.erase t } := by
  simp only [step] at h
  split at h
  · exact ⟨‹_›, (Option.some.inj h).symm⟩
  · cases h

/-! ## Mutual exclusion -/

/-- The marks that an operation may lead from and to. -/
def Op.Keeps : Op → Bool → Bool → Prop
  | .plain, a, b | .notify, a, b => a = b
  | .lock, a, b => a = false ∧ b = true
  | .unlock, a, b | .wait, a, b => a = true ∧ b = false

def Disciplined (P : Program Pc D L) : Prop :=
  ∀ pc d l op pc' d', P.next pc d l = some (op, pc', d') → op.Keeps (P.inside pc) (P.inside pc')

/-- The owner is inside, and nobody else. -/
def Exclusive (P : Program Pc D L) (s : State T Pc D) : Prop :=
  ∀ t, s.owner = some t ↔ P.inside (s.pc t) = true

omit [DecidableEq T] in
theorem mutual_exclusion (h : Exclusive P s) (ht : P.inside (s.pc t) = true)
    (hu : P.inside (s.pc u) = true) : t = u :=
  Option.some.inj (((h t).mpr ht).symm.trans ((h u).mpr hu))

theorem exclusive_run {l : L} {woken : Option T} {op : Op} (hd : Disciplined P)
    (hex : Exclusive P s) (h : Ran P t l woken s s' op) : Exclusive P s' := by
  have hkeep := hd _ _ _ _ _ _ h.next
  have hown := perform_owners h.perform
  intro u
  by_cases hut : u = t
  · subst hut
    cases op <;> simp only [Op.Owners, Op.Keeps] at hown hkeep
    case plain | notify => rw [hown, ← hkeep]; exact hex u
    all_goals simp [hown.2, hkeep.2]
  · rw [h.others u hut, ← hex u]
    cases op <;> simp only [Op.Owners] at hown
    case plain | notify => rw [hown]
    all_goals simp [hown.1, hown.2, Ne.symm hut]

theorem exclusive_step {l : Label T L} (hd : Disciplined P) (hex : Exclusive P s)
    (h : step P s l = some s') : Exclusive P s' := by
  cases l with
  | run t l woken =>
    obtain ⟨op, hran⟩ := step_run h
    exact exclusive_run hd hex hran
  | wake t =>
    obtain ⟨-, rfl⟩ := step_wake h
    exact hex

/-- While a thread runs a statement inside, or enters, the others are outside. -/
theorem Ran.alone {l : L} {woken : Option T} {op : Op} (hd : Disciplined P)
    (h : Ran P t l woken s s' op) (hex : Exclusive P s) (hut : u ≠ t)
    (hin : P.inside (s.pc t) = true ∨ P.inside (s'.pc t) = true) : P.inside (s.pc u) = false := by
  refine Bool.eq_false_iff.mpr fun hu => ?_
  rcases hin with ht | ht
  · exact hut (mutual_exclusion hex hu ht)
  · exact hut (mutual_exclusion (exclusive_run hd hex h) (h.others u hut ▸ hu) ht)

end

/-! ## Assertions at the places of the threads -/

/-- The statements that meet `C`. -/
def Meets (C : Pc → D → L → Prop) (s : State T Pc D) : Label T L → Prop
  | .run t l _ => C (s.pc t) s.data l
  | .wake _ => True

/-- `A t pc d` is asserted of thread `t` at `pc`. A statement that meets `C`
keeps its thread's assertion (`own`) and those of the others (`other`). -/
structure Outline (P : Program Pc D L) (C : Pc → D → L → Prop) (A : T → Pc → D → Prop) : Prop where
  own : ∀ t pc d l op pc' d', C pc d l → P.next pc d l = some (op, pc', d') →
    A t pc d → A t pc' d'
  other : ∀ t u pc q d l op pc' d', u ≠ t → C pc d l → P.next pc d l = some (op, pc', d') →
    (P.inside pc = true ∨ P.inside pc' = true → P.inside q = false) →
    A t pc d → A u q d → A u q d'

/-- The mutex is exclusive and all assertions hold. -/
structure Asserted (P : Program Pc D L) (A : T → Pc → D → Prop) (s : State T Pc D) : Prop where
  exclusive : Exclusive P s
  holds : ∀ t, A t (s.pc t) s.data

theorem Outline.step {P : Program Pc D L} {C : Pc → D → L → Prop} {A : T → Pc → D → Prop}
    (h : Outline P C A) (hd : Disciplined P) {s s' : State T Pc D} {l : Label T L}
    (ha : Asserted P A s) (hc : Meets C s l) (hs : step P s l = some s') : Asserted P A s' := by
  refine ⟨exclusive_step hd ha.exclusive hs, fun u => ?_⟩
  cases l with
  | wake t =>
    obtain ⟨-, rfl⟩ := step_wake hs
    exact ha.holds u
  | run t l woken =>
    obtain ⟨op, hran⟩ := step_run hs
    by_cases hut : u = t
    · subst hut
      exact h.own u _ _ _ _ _ _ hc hran.next (ha.holds u)
    · rw [hran.others u hut]
      exact h.other t u _ _ _ _ _ _ _ hut hc hran.next (hran.alone hd ha.exclusive hut)
        (ha.holds t) (ha.holds u)

theorem Outline.guarded {P : Program Pc D L} {C : Pc → D → L → Prop} {A : T → Pc → D → Prop}
    {init : State T Pc D → Prop} (h : Outline P C A) (hd : Disciplined P)
    (hinit : ∀ s, init s → Asserted P A s) :
    (system P init).Guarded (Meets C) (Asserted P A) where
  init := hinit
  step _ _ _ ha hc hs := h.step hd ha hc hs

/-- The same for all statements. -/
theorem Outline.holds {P : Program Pc D L} {A : T → Pc → D → Prop}
    {init : State T Pc D → Prop} (h : Outline P (fun _ _ _ => True) A) (hd : Disciplined P)
    (hinit : ∀ s, init s → Asserted P A s) : (system P init).Inductive (Asserted P A) where
  init := hinit
  step _ l _ ha hs := h.step hd ha (by cases l <;> trivial) hs

end Reckoning.Monitor
