import Reckoning.L3Then.AdoptionSteps

/-!
# Runs of an adoption

* `p_of_inv`: the invariant gives what the adoption promises.
* `drains`: the loop gets idle by itself.
* `adoption_settles`: the promise over runs, and what a late rejection does.
-/
namespace Reckoning.L3.Adoption

variable {A B : Type}

/-! ## The property -/

theorem settledTokens_eq_zero {os : List (Outcome B)} (h : settledTokens os = 0) : os = [] := by
  simpa [settledTokens] using h

theorem settledTokens_eq_single {os : List (Outcome B)} {o : Outcome B}
    (h : settledTokens os = {.settle o}) : os = [o] := by
  have h' : os.map Token.settle = [Token.settle o] := Multiset.coe_eq_singleton.mp h
  obtain ⟨o', rfl, he⟩ := List.map_eq_singleton_iff.mp h'
  cases he
  rfl

theorem settle_of_mem {os : List (Outcome B)} {t : Token B} (ht : t ∈ settledTokens os) :
    ∃ o, t = .settle o := by
  obtain ⟨o, -, rfl⟩ := List.mem_map.mp (show t ∈ os.map Token.settle from ht)
  exact ⟨o, rfl⟩

/-- After the callback has returned no more has happened to `chain` than to `q`. -/
theorem settled_le {lost : Bool} {s : State A B} (h : Inv lost s) (hb : s.stage ≠ .before) :
    settledTokens s.settled ≤ if lost then 0 else outs s.outcome := by
  have hle : settledTokens s.settled ≤ flow s := Multiset.le_add_left _ _
  have hd := h.due
  unfold Due at hd
  cases hst : s.stage with
  | before => exact absurd hst hb
  | returned =>
    rw [hst] at hd
    rw [hd] at hle
    rcases Multiset.le_singleton.mp hle with h0 | h1
    · rw [h0]; exact Multiset.zero_le _
    · obtain ⟨o, ho⟩ := settle_of_mem (t := .regFail) (by rw [h1]; exact Multiset.mem_singleton_self _)
      cases ho
  | failDone =>
    rw [hst] at hd
    rw [hd, Multiset.singleton_add] at hle
    have hnot : Token.regThen ∉ settledTokens s.settled := fun hin => by
      obtain ⟨o, ho⟩ := settle_of_mem hin
      cases ho
    have he : errors s.outcome ≤ outs s.outcome := by
      rcases s.outcome with - | (failure | arg)
      · exact le_refl _
      · exact le_refl _
      · exact Multiset.zero_le _
    rw [h.not_lost (by rw [hst]; nofun)]
    exact le_trans ((Multiset.le_cons_of_notMem hnot).mp hle) he
  | adopted =>
    rw [hst] at hd
    rwa [hd] at hle

/-- When the loop has run, what there is to settle has been settled. -/
theorem settled_idle {lost : Bool} {s : State A B} (h : Inv lost s) (hb : s.stage ≠ .before)
    (hi : Idle s) : settledTokens s.settled = if lost then 0 else outs s.outcome := by
  obtain ⟨hr, he, hs⟩ := hi
  have hflow : flow s = settledTokens s.settled := by simp [flow, hr, he, hs]
  have hd := h.due
  rw [hflow] at hd
  unfold Due at hd
  cases hst : s.stage with
  | before => exact absurd hst hb
  | returned =>
    rw [hst] at hd
    obtain ⟨o, ho⟩ := settle_of_mem (t := .regFail) (by rw [hd]; exact Multiset.mem_singleton_self _)
    cases ho
  | failDone =>
    rw [hst] at hd
    obtain ⟨o, ho⟩ := settle_of_mem (t := .regThen) (by rw [hd]; exact mem_single_add ..)
    cases ho
  | adopted =>
    rw [hst] at hd
    exact hd

theorem outs_settled {os : List (Outcome B)} {o : Option (Outcome B)}
    (h : settledTokens os = outs o) : os = o.toList := by
  cases o with
  | none => exact settledTokens_eq_zero h
  | some o => exact settledTokens_eq_single h

theorem p_of_inv {s : State A B} (h : Inv false s) : P s where
  fault := h.fault
  once hb := by
    have hle : settledTokens s.settled ≤ outs s.outcome := settled_le h hb
    cases ho : s.outcome with
    | none =>
      rw [ho] at hle
      exact Or.inl (settledTokens_eq_zero (Multiset.le_zero.mp hle))
    | some o =>
      rw [ho] at hle
      exact (Multiset.le_singleton.mp hle).imp settledTokens_eq_zero settledTokens_eq_single
  all hb hi := outs_settled (settled_idle h hb hi)

/-- A failure that came too late settles nothing. -/
theorem settled_of_lost {s : State A B} (h : Inv true s) : s.settled = [] := by
  have hst := (h.lostAt rfl).1
  have hle : settledTokens s.settled ≤ 0 := settled_le h (by rw [hst]; nofun)
  exact settledTokens_eq_zero (Multiset.le_zero.mp hle)

theorem guarded (moved : Moved A B) : (adoption moved).Guarded (Keeps moved) (Inv false) where
  init s hs := by rw [show s = State.init from hs]; exact inv_init
  step s l s' h hk hs := by
    obtain ⟨lost, hinv, hl⟩ := inv_step h hk.1 hs
    rw [hl.mpr ⟨rfl, hk.2⟩] at hinv
    exact hinv

/-! ## The loop gets idle -/

/-- The steps that need nobody but the loop and the threads that are posting. -/
def Own (_ : State A B) : Label A B → Prop
  | .deliver _ | .take | .run | .ret => True
  | _ => False

/-- How many steps a task takes at most, with what it posts. -/
def weight : Task A B → Nat
  | .nextP .adopt _ => 12
  | .callback => 11
  | .adoptFail => 10
  | .adoptThen => 6
  | .nextQ .resolveChain _ => 4
  | .nextP .other _ | .nextQ .other _ | .fail _ _ | .resolveChain _ => 2
  | .resolveChain2 | .user => 1

/-- The steps of a list of tasks, each of which has `d` queues to pass. -/
def work (d : Nat) (ts : List (Task A B)) : Nat := (ts.map fun t => weight t + d).sum

def measure (s : State A B) : Nat := work 2 s.sending + work 1 s.events + work 0 s.running

@[simp] theorem work_nil (d : Nat) : work d ([] : List (Task A B)) = 0 := rfl

@[simp] theorem work_cons (d : Nat) (t : Task A B) (ts : List (Task A B)) :
    work d (t :: ts) = weight t + d + work d ts := by
  simp [work]

@[simp] theorem work_append (d : Nat) (ts us : List (Task A B)) :
    work d (ts ++ us) = work d ts + work d us := by
  simp [work]

/-- What a registration on `q` posts. -/
theorem measure_fail_le (func : FailFn) (s : State A B) :
    measure (registeredQ (s.q.fail func true) s) ≤ measure s + 3 := by
  unfold Then.fail
  split
  · simp [registeredQ, measure]
  · split <;> simp [registeredQ, measure, taskQ, weight]
    omega

theorem measure_then_le (moved : Moved A B) (next : QNext) (func : FailFn) (s : State A B) :
    measure (registeredQ (s.q.then_ moved.b next func true) s) ≤ measure s + 5 := by
  have hw : ∀ arg, weight (Task.nextQ next arg : Task A B) ≤ 4 := fun arg => by
    cases next <;> simp [weight]
  unfold Then.then_
  split
  · simp [registeredQ, measure]
  · split
    · simp [registeredQ, measure, taskQ, weight]
      omega
    · split
      · rename_i arg _
        have := hw arg
        simp [registeredQ, measure, taskQ]
        omega
      · simp [registeredQ, measure]

theorem measure_running {s : State A B} {t : Task A B} {rest : List (Task A B)}
    (hr : s.running = t :: rest) (ts : List (Task A B)) (h : work 0 ts < weight t) :
    measure { s with running := ts ++ rest } < measure s := by
  simp only [measure, hr, work_cons, work_append]
  omega

theorem measure_settleChain {s : State A B} {t : Task A B} {rest : List (Task A B)} (o : Outcome B)
    (hr : s.running = t :: rest) (h : 1 < weight t) : measure (settleChain o rest s) < measure s := by
  have hu : weight (Task.user : Task A B) = 1 := rfl
  simp only [settleChain, measure, hr, work_cons]
  split
  · simp only [work_cons, hu]; omega
  · omega

theorem measure_exec {s s' : State A B} {t : Task A B} {rest : List (Task A B)} {moved : Moved A B}
    (hr : s.running = t :: rest) (hs : exec moved t rest s = some s') : measure s' < measure s := by
  unfold exec at hs
  split at hs <;> cases hs
  · exact measure_running hr [.callback] (by simp [weight])
  · exact measure_running hr [.user] (by simp [weight])
  · have h1 := measure_fail_le .rejectChain { s with running := .adoptThen :: rest, stage := .failDone }
    have h2 : measure { s with running := .adoptThen :: rest, stage := .failDone } + 4 = measure s := by
      simp [measure, hr, weight]; omega
    exact Nat.lt_of_le_of_lt h1 (by omega)
  · have h1 := measure_then_le moved .resolveChain .rejectChain2
      { s with running := rest, stage := .adopted }
    have h2 : measure { s with running := rest, stage := .adopted } + 6 = measure s := by
      simp [measure, hr, weight]; omega
    exact Nat.lt_of_le_of_lt h1 (by omega)
  · exact measure_running hr [.resolveChain _, .resolveChain2] (by simp [weight])
  · exact measure_running hr [.user] (by simp [weight])
  · exact measure_settleChain _ hr (by simp [weight])
  · exact measure_running hr [] (by simp [weight])
  · exact measure_running hr [.user] (by simp [weight])
  · exact measure_settleChain _ hr (by simp [weight])
  · exact measure_running hr [] (by simp [weight])

/-- While something is left, one of the loop's own steps can be taken, and
there is less left after it. -/
theorem own_step {s : State A B} (moved : Moved A B) (hf : s.fault = none) (hi : ¬ Idle s) :
    ∃ l s', Own s l ∧ step moved s l = some s' ∧ measure s' < measure s := by
  cases hr : s.running with
  | cons t rest =>
    by_cases hc : t = .callback
    · subst hc
      refine ⟨.ret, { s with running := .adoptFail :: rest, stage := .returned }, trivial, ?_, ?_⟩
      · simp [step, hf, hr]
      · exact measure_running hr [.adoptFail] (by simp [weight])
    by_cases hu : t = .user
    · subst hu
      refine ⟨.ret, { s with running := rest }, trivial, ?_, ?_⟩
      · simp [step, hf, hr]
      · exact measure_running hr [] (by simp [weight])
    obtain ⟨s', he⟩ : ∃ s', exec moved t rest s = some s' := by
      unfold exec
      split <;> first | exact ⟨_, rfl⟩ | contradiction
    exact ⟨.run, s', trivial, by simp [step, hf, hr, he], measure_exec hr he⟩
  | nil =>
    cases he : s.events with
    | cons t events =>
      refine ⟨.take, { s with events := events, running := [t] }, trivial, ?_, ?_⟩
      · simp [step, hf, hr, he]
      · simp [measure, hr, he]
        omega
    | nil =>
      cases hs : s.sending with
      | cons t sending =>
        refine ⟨.deliver 0, { s with sending := sending, events := [t] }, trivial, ?_, ?_⟩
        · simp [step, hf, he, hs]
        · simp [measure, he, hs]
          omega
      | nil => exact absurd ⟨hr, he, hs⟩ hi

theorem own_keeps {s : State A B} {l : Label A B} (moved : Moved A B) (h : Own s l) :
    Keeps moved s l := by
  cases l <;> first | exact ⟨trivial, trivial⟩ | exact h.elim

/-- **The loop gets idle.** With no more events from outside, what is left is
run in at most `measure s` steps. -/
theorem drains {moved : Moved A B} {s : State A B} (h : Inv false s) :
    ∃ ls s', ((adoption moved).guard Own).Run s ls s' ∧ ls.length ≤ measure s ∧ Idle s' ∧
      Inv false s' := by
  refine LTS.drains (fun s h hi => ?_) s h
  obtain ⟨l, s', hown, hs, hlt⟩ := own_step moved h.fault hi
  exact ⟨l, s', hown, hs, (guarded moved).step s l s' h (own_keeps moved hown) hs, hlt⟩

/-! ## Runs -/

/-- The failure is lost in a run exactly when some rejection of it is late. -/
theorem inv_last {moved : Moved A B} {s : State A B} {t : List (Label A B × State A B)}
    (ht : (adoption moved).Trace s t) : ∀ {lost : Bool}, Inv lost s → LTS.AllSteps (Apart moved) s t →
    ∃ lost', Inv lost' (LTS.last s t) ∧ (lost' = false ↔ lost = false ∧ LTS.AllSteps OnTime s t) := by
  induction ht with
  | nil s => exact fun h _ => ⟨_, h, by simp [LTS.AllSteps]⟩
  | cons hs _ ih =>
    intro lost h hapart
    obtain ⟨l1, h1, hl1⟩ := inv_step h hapart.1 hs
    obtain ⟨l2, h2, hl2⟩ := ih h1 hapart.2
    refine ⟨l2, h2, ?_⟩
    rw [hl2, hl1, LTS.AllSteps, and_assoc]

/-- **Promise adoption.** A run in which the handlers of others on `q` keep out
of the way and `q` is not rejected after `newchain.then` keeps the promise in
every state, and the loop gets to the end of it by itself. Where it has run
after the callback has returned, `chain` is settled as `q` exactly when `q` was
not rejected too late. -/
theorem adoption_settles {moved : Moved A B} {t : List (Label A B × State A B)}
    (ht : (adoption moved).Trace State.init t) :
    (LTS.AllSteps (Keeps moved) State.init t → LTS.AllStates P State.init t ∧
      ∃ ls s, ((adoption moved).guard Own).Run (LTS.last State.init t) ls s ∧ Idle s ∧ P s) ∧
    (LTS.AllSteps (Apart moved) State.init t → (LTS.last State.init t).stage ≠ .before →
      Idle (LTS.last State.init t) →
      ((LTS.last State.init t).settled = (LTS.last State.init t).outcome.toList ↔
        LTS.AllSteps OnTime State.init t)) := by
  constructor
  · intro hk
    refine ⟨(guarded moved).allStates (fun _ => p_of_inv) ht inv_init hk, ?_⟩
    have hinv := ((guarded moved).allStates (fun _ h => h) ht inv_init hk).last
    obtain ⟨ls, s, hrun, -, hidle, hs⟩ := drains hinv
    exact ⟨ls, s, hrun, hidle, p_of_inv hs⟩
  intro hapart hb hi
  obtain ⟨lost, h, hl⟩ := inv_last ht inv_init hapart
  simp only [true_and] at hl
  rw [← hl]
  constructor
  · intro heq
    cases hlost : lost with
    | false => rfl
    | true =>
      rw [hlost] at h
      obtain ⟨failure, ho⟩ := (h.lostAt rfl).2
      rw [settled_of_lost h, ho] at heq
      cases heq
  · rintro rfl
    exact (p_of_inv h).all hb hi

/-! ## Two runs -/

instance [DecidableEq B] (moved : Moved A B) (how : Registration) (q : Then B QNext FailFn) :
    Decidable (Leaves moved how q) := inferInstanceAs (Decidable ((_ → _) ∧ (_ → _)))

instance [DecidableEq B] (moved : Moved A B) (s : State A B) : DecidablePred (Apart moved s)
  | .register .q _ => inferInstanceAs (Decidable (_ ∨ _ ∧ _))
  | .settleQ _ (.ok _) | .settleQ _ (.error _) => inferInstanceAs (Decidable (_ ≠ _))
  | .register .p _ | .register .chain _ => .isTrue trivial
  | .thenP | .settleP .. | .post | .deliver _ | .take | .run | .ret => .isTrue trivial

instance (s : State A B) : DecidablePred (OnTime s)
  | .settleQ _ (.error _) => inferInstanceAs (Decidable (_ ≠ _))
  | .settleQ _ (.ok _) => .isTrue trivial
  | .thenP | .register .. | .settleP .. | .post | .deliver _ | .take | .run | .ret => .isTrue trivial

def unmoved : Moved Unit Nat := ⟨id, fun _ => 0⟩

/-- `q` has a handler of the callback's, which the adoption replaces, and is
resolved by another thread; `chain` has a handler. -/
def resolvedLater : List (Label Unit Nat) :=
  [.thenP, .settleP true (.ok ()), .run, .register .q .then_, .ret, .run, .run, .register .chain .then_,
    .settleQ false (.ok 7), .deliver 0, .take, .run, .run, .ret, .run]

theorem resolvedLater_runs : (LTS.record (step unmoved) State.init resolvedLater).isSome := by decide

theorem adoption_settles_later :
    (LTS.last State.init ((LTS.record (step unmoved) State.init resolvedLater).get
      resolvedLater_runs)).settled = [.ok 7] :=
  ((adoption_settles (LTS.trace_record resolvedLater_runs)).2 (by decide) (by decide)
    ⟨rfl, rfl, rfl⟩).mpr (by decide)

/-- `q` is rejected after the callback has returned and the loop has run. -/
def rejectedLater : List (Label Unit Nat) :=
  [.thenP, .settleP true (.ok ()), .run, .ret, .run, .run, .settleQ true (.error "no"), .run]

theorem rejectedLater_runs : (LTS.record (step unmoved) State.init rejectedLater).isSome := by decide

/-- The failure goes to the `Then` that `newchain.then` has made: `chain` is
never settled. -/
theorem adoption_loses_failure : ∃ t, (adoption unmoved).Trace State.init t ∧
    t.map Prod.fst = rejectedLater ∧ (LTS.last State.init t).outcome = some (.error "no") ∧
    (LTS.last State.init t).settled = [] ∧ Idle (LTS.last State.init t) ∧
    ¬ LTS.AllStates P State.init t := by
  refine ⟨_, LTS.trace_record rejectedLater_runs, rfl, rfl, rfl, ⟨rfl, rfl, rfl⟩, fun h => ?_⟩
  have hlast := h.last.all (by decide) ⟨rfl, rfl, rfl⟩
  cases hlast

end Reckoning.L3.Adoption
