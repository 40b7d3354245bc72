import Mathlib.Data.List.Nodup
import Reckoning.Core.Monitor

/-!
# Sleeping and getting on

One thread of a `Monitor.Program`, `me`, works for the others and waits when
there is nothing to do.

* `sleeping_step`: a thread that sleeps stays where it is.
* `prompt_step`: no wakeup is lost.
* `progress_me`, `progress_other`, `progress_wake`: when the next statement of
  `me`, or of the thread that holds the mutex, leaves less to do, then so does a
  step of the system.
-/
namespace Reckoning.Monitor

variable {T Pc D L : Type} [DecidableEq T]

/-! ## Sleepers -/

section
variable {P : Program Pc D L} {s s' : State T Pc D} {t : T}

/-- `waits` marks the places after a `wait`, where the next statement locks. -/
def Waits (P : Program Pc D L) (waits : Pc → Bool) : Prop :=
  ∀ pc d l op pc' d', P.next pc d l = some (op, pc', d') →
    (op = .wait → waits pc' = true) ∧ (waits pc = true → op = .lock)

/-- Who sleeps is at such a place, and sleeps once. -/
structure Sleeping (waits : Pc → Bool) (s : State T Pc D) : Prop where
  nodup : s.asleep.Nodup
  waits : ∀ t ∈ s.asleep, waits (s.pc t) = true

omit [DecidableEq T] in
/-- Only `me` is ever at such a place. -/
theorem Sleeping.one {waits : Pc → Bool} (h : Sleeping waits s) (me : T)
    (hme : ∀ t, waits (s.pc t) = true → t = me) : s.asleep.length ≤ 1 := by
  have hsub : s.asleep ⊆ [me] := fun t ht => by simp [hme t (h.waits t ht)]
  exact h.nodup.length_le_of_subset hsub

/-- The sleepers after an operation. -/
theorem perform_asleep {woken owner owner' : Option T} {asleep asleep' : List T} {op : Op}
    (h : perform t woken owner asleep op = some (owner', asleep')) :
    (op = .lock → t ∉ asleep) ∧ (op = .wait → asleep' = t :: asleep) ∧
      (op ≠ .wait → asleep'.Sublist asleep) := by
  cases op <;> simp only [perform] at h
  case plain => cases h; simp
  case notify =>
    split at h <;> split at h <;> cases h
    · simp [*]
    · simp [List.erase_sublist]
  all_goals split at h <;> cases h
  case lock hcond => simp [hcond.2]
  case unlock | wait => simp

theorem sleeping_step {waits : Pc → Bool} (hw : Waits P waits) (h : Sleeping waits s)
    {l : Label T L} (hs : step P s l = some s') : Sleeping waits s' := by
  cases l with
  | wake t =>
    obtain ⟨-, rfl⟩ := step_wake hs
    exact ⟨h.nodup.erase t, fun u hu => h.waits u (List.mem_of_mem_erase hu)⟩
  | run t l woken =>
    obtain ⟨op, hran⟩ := step_run hs
    obtain ⟨hwait, hlock⟩ := hw _ _ _ _ _ _ hran.next
    obtain ⟨hawake, hpush, hsub⟩ := perform_asleep hran.perform
    -- a sleeper cannot lock, so it is not the thread that runs
    have hnot : t ∉ s.asleep := fun ht => hawake (hlock (h.waits t ht)) ht
    have hstay : ∀ u ∈ s.asleep, waits (s'.pc u) = true := fun u hu => by
      rw [hran.others u fun hut => hnot (hut ▸ hu)]
      exact h.waits u hu
    by_cases hop : op = .wait
    · constructor
      · rw [hpush hop]
        exact List.nodup_cons.mpr ⟨hnot, h.nodup⟩
      · intro u hu
        rcases List.mem_cons.mp (hpush hop ▸ hu) with rfl | hu
        · exact hwait hop
        · exact hstay u hu
    · exact ⟨h.nodup.sublist (hsub hop), fun u hu => hstay u ((hsub hop).subset hu)⟩

/-! ### No wakeup is lost -/

/-- A thread waits only when there is nothing to do. A statement that makes
something to do leads to a place of `tells`, where the next one notifies. -/
structure Notifies (P : Program Pc D L) (idle : D → Prop) (tells : Pc → Bool) : Prop where
  wait : ∀ pc d l pc' d', P.next pc d l = some (.wait, pc', d') → idle d'
  makes : ∀ pc d l op pc' d', P.next pc d l = some (op, pc', d') → idle d → ¬ idle d' →
    tells pc' = true
  tells : ∀ pc d l op pc' d', P.next pc d l = some (op, pc', d') → tells pc = true → op = .notify

/-- Who sleeps has nothing to do, or somebody is about to notify. -/
def Prompt (idle : D → Prop) (tells : Pc → Bool) (s : State T Pc D) : Prop :=
  s.asleep ≠ [] → idle s.data ∨ ∃ t, tells (s.pc t) = true

/-- A notification wakes the only sleeper. -/
theorem notify_wakes {woken owner owner' : Option T} {asleep asleep' : List T}
    (h : perform t woken owner asleep .notify = some (owner', asleep'))
    (hone : asleep.length ≤ 1) : asleep' = [] := by
  simp only [perform] at h
  split at h <;> split at h <;> cases h
  · rfl
  · have hlen := List.length_erase_of_mem ‹_ ∈ asleep›
    exact List.length_eq_zero_iff.mp (by omega)

theorem prompt_step {idle : D → Prop} {tells : Pc → Bool} (hn : Notifies P idle tells)
    (h : Prompt idle tells s) (hone : s.asleep.length ≤ 1) {l : Label T L}
    (hs : step P s l = some s') : Prompt idle tells s' := by
  cases l with
  | wake t =>
    obtain ⟨-, rfl⟩ := step_wake hs
    exact fun hne => h fun hnil => hne (by simp [hnil])
  | run t l woken =>
    obtain ⟨op, hran⟩ := step_run hs
    obtain ⟨-, -, hsub⟩ := perform_asleep hran.perform
    intro hne
    by_cases hidle' : idle s'.data
    · exact .inl hidle'
    · refine .inr ?_
      by_cases hidle : idle s.data
      · exact ⟨t, hn.makes _ _ _ _ _ _ hran.next hidle hidle'⟩
      · -- there was something to do, so a sleeper is one of before
        have hwait : op ≠ .wait := by
          rintro rfl
          exact hidle' (hn.wait _ _ _ _ _ hran.next)
        have hne₀ : s.asleep ≠ [] := fun hnil =>
          hne (List.sublist_nil.mp (hnil ▸ hsub hwait))
        obtain ⟨u, hu⟩ := (h hne₀).resolve_left hidle
        by_cases hut : u = t
        · subst hut
          obtain rfl := hn.tells _ _ _ _ _ _ hran.next hu
          exact absurd (notify_wakes hran.perform hone) hne
        · exact ⟨u, by rw [hran.others u hut]; exact hu⟩

omit [DecidableEq T] in
/-- With something to do and nobody inside about to notify, nobody sleeps. -/
theorem Prompt.awake {idle : D → Prop} {tells : Pc → Bool} (h : Prompt idle tells s)
    (hex : Exclusive P s) (hin : ∀ pc, tells pc = true → P.inside pc = true)
    (hown : ∀ t, s.owner = some t → tells (s.pc t) = false) (hbusy : ¬ idle s.data) :
    s.asleep = [] := by
  refine Classical.byContradiction fun hne => ?_
  obtain ⟨t, ht⟩ := (h hne).resolve_left hbusy
  exact Bool.false_ne_true ((hown t ((hex t).mpr (hin _ ht))).symm.trans ht)

/-- How a step is taken. -/
theorem step_of_next {l : L} {woken owner : Option T} {asleep : List T} {op : Op} {pc : Pc} {d : D}
    (hn : P.next (s.pc t) s.data l = some (op, pc, d))
    (hp : perform t woken s.owner s.asleep op = some (owner, asleep)) :
    step P s (.run t l woken) = some ⟨owner, asleep, Function.update s.pc t pc, d⟩ := by
  simp [step, hn, hp]

end

/-! ## Getting on -/

section
variable {P : Program Pc D L} {s : State T Pc D} {me : T} {C : State T Pc D → Label T L → Prop}
  {left : Pc → D → Nat} {cost : Pc → Nat}

/-- What is `left` for `me`, what it costs the owner to unlock, and the sleepers. -/
def todo (me : T) (left : Pc → D → Nat) (cost : Pc → Nat) (s : State T Pc D) : Nat :=
  left (s.pc me) s.data + (s.owner.elim 0 fun t => if t = me then 0 else cost (s.pc t)) +
    s.asleep.length

/-- A step that meets `C` leaves less to do. -/
def Progress (P : Program Pc D L) (C : State T Pc D → Label T L → Prop) (me : T)
    (left : Pc → D → Nat) (cost : Pc → Nat) (s : State T Pc D) : Prop :=
  ∃ l s', C s l ∧ step P s l = some s' ∧ todo me left cost s' < todo me left cost s

theorem progress_wake {t : T} (h : t ∈ s.asleep) (hc : C s (.wake t)) :
    Progress P C me left cost s := by
  refine ⟨.wake t, { s with asleep := s.asleep.erase t }, hc, by simp [step, h], ?_⟩
  have hlen := List.length_erase_of_mem h
  have hpos := List.length_pos_of_mem h
  simp only [todo]
  omega

/-- `me` runs when no other thread holds the mutex. -/
theorem progress_me (hd : Disciplined P) (hex : Exclusive P s) (hawake : me ∉ s.asleep)
    (hown : ∀ t, s.owner = some t → t = me) {l : L} {op : Op} {p : Pc} {d : D}
    (hn : P.next (s.pc me) s.data l = some (op, p, d)) (hc : C s (.run me l none))
    (hop : op ≠ .wait ∧ op ≠ .notify) (hlt : left p d < left (s.pc me) s.data) :
    Progress P C me left cost s := by
  have hkeep := hd _ _ _ _ _ _ hn
  obtain ⟨owner, hperf, howner⟩ : ∃ owner, perform me none s.owner s.asleep op =
      some (owner, s.asleep) ∧ ∀ t, owner = some t → t = me := by
    cases op with
    | plain => exact ⟨s.owner, rfl, hown⟩
    | lock =>
      have hnone : s.owner = none := Option.eq_none_iff_forall_ne_some.mpr fun t ht => by
        obtain rfl := hown t ht
        exact Bool.false_ne_true (hkeep.1.symm.trans ((hex t).mp ht))
      exact ⟨some me, by simp [perform, hnone, hawake], fun t ht => (Option.some.inj ht).symm⟩
    | unlock => exact ⟨none, by simp [perform, (hex me).mpr hkeep.1], by simp⟩
    | wait => exact absurd rfl hop.1
    | notify => exact absurd rfl hop.2
  refine ⟨.run me l none, _, hc, step_of_next hn hperf, ?_⟩
  have hzero : (owner.elim 0 fun t =>
      if t = me then 0 else cost (Function.update s.pc me p t)) = 0 := by
    cases howned : owner with
    | none => rfl
    | some t => simp [howner t howned]
  simp only [todo, Function.update_self, hzero]
  omega

/-- Another thread that holds the mutex runs; its `notify` wakes a sleeper. -/
theorem progress_other {t : T} (hown : s.owner = some t) (htm : t ≠ me) {l : L} {op : Op} {p : Pc}
    {d : D} (hn : P.next (s.pc t) s.data l = some (op, p, d)) (hc : ∀ woken, C s (.run t l woken))
    (hop : op ≠ .wait ∧ op ≠ .lock)
    (hlt : left (s.pc me) d + cost p < left (s.pc me) s.data + cost (s.pc t)) :
    Progress P C me left cost s := by
  obtain ⟨woken, owner, asleep, hperf, howner, hlen⟩ : ∃ woken owner asleep,
      perform t woken s.owner s.asleep op = some (owner, asleep) ∧
      (∀ u, owner = some u → u = t) ∧ asleep.length ≤ s.asleep.length := by
    have howned : ∀ u, s.owner = some u → u = t := fun u hu => Option.some.inj (hu.symm.trans hown)
    cases op with
    | plain => exact ⟨none, s.owner, s.asleep, rfl, howned, Nat.le_refl _⟩
    | unlock => exact ⟨none, none, s.asleep, by simp [perform, hown], by simp, Nat.le_refl _⟩
    | notify =>
      cases hasleep : s.asleep with
      | nil => exact ⟨none, s.owner, [], rfl, howned, Nat.le_refl _⟩
      | cons u rest => exact ⟨some u, s.owner, rest, by simp [perform], howned, by simp⟩
    | wait => exact absurd rfl hop.1
    | lock => exact absurd rfl hop.2
  refine ⟨.run t l woken, _, hc woken, step_of_next hn hperf, ?_⟩
  have hcost : (owner.elim 0 fun u =>
      if u = me then 0 else cost (Function.update s.pc t p u)) ≤ cost p := by
    cases howned : owner with
    | none => exact Nat.zero_le _
    | some u => simp [howner u howned, htm]
  simp only [todo, Function.update_of_ne (Ne.symm htm), hown, Option.elim_some, if_neg htm]
  omega

end

end Reckoning.Monitor
