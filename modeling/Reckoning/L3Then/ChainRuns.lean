import Reckoning.L3Then.Chain
import Reckoning.Core.Tally
import Mathlib.Algebra.Order.Group.Multiset
import Mathlib.Tactic.Abel

/-!
# Runs of a chain

Between two steps there is one thing on its way along the chain: `Place` says
where it is.

* `placed_settleLink`, `placed_register`: what a settlement and a registration
  make of the place; `inv_step`: what every step makes of it.
* `drains`: the loop gets idle by itself.
* `chain_calls`: the calls of the chain over all runs.
-/
namespace Reckoning.L3.Chain

variable {A : Nat → Type}

/-! ## Where the settlement is -/

inductive Place (A : Nat → Type)
  /-- `p` has not been settled -/
  | start
  /-- in link `i`, which waits for its registration -/
  | stored (i : Nat) (o : Outcome (A i))
  /-- a task has it -/
  | task (t : Task A)
  | done

/-- Link `i` has been settled. -/
def Place.Passed : Place A → Nat → Prop
  | .start, _ => False
  | .stored j _, i => i ≤ j
  | .task (.next j _), i => i ≤ j
  | .task (.callback j _), i => i ≤ j
  | .task (.fail j _ _), i => i ≤ j
  | .task (.settle j _), i => i < j
  | .task .user, _ => True
  | .done, _ => True

/-- The calls that are still to come. -/
def Place.rest (c : Code A) : Place A → List (Entry A)
  | .stored i o => trail c (c.n - i) i o
  | .task (.next i arg) => trail c (c.n - i) i (.ok arg)
  | .task (.callback i arg) => trail c (c.n - (i + 1)) (i + 1) ((c.f i).outcome arg)
  | .task (.fail _ _ failure) => [.failed failure]
  | .task (.settle i o) => trail c (c.n - i) i o
  | .start | .task .user | .done => []

/-- `k` registrations have been made. -/
def Place.Valid (c : Code A) (k : Nat) : Place A → Prop
  | .start => True
  | .stored i _ => i = k ∧ i ≤ c.n
  | .task (.next i _) => i < k ∧ i < c.n
  | .task (.callback i _) => i < k ∧ i < c.n
  | .task (.fail i func _) => i < k ∧ i ≤ c.n ∧ func = if i < c.n then .forward else .handler
  | .task (.settle i _) => i ≤ k ∧ i ≤ c.n
  | .task .user => False
  | .done => k = c.n + 1

/-- A link that has not been settled, after `k` registrations. -/
def fresh (c : Code A) (k i : Nat) : Then (A i) Unit FailFn :=
  if k ≤ i then .init
  else if i < c.n then ⟨some (), some .forward, none, true, "", false⟩
  else ⟨none, some .handler, none, true, "", false⟩

/-- A link that was settled first. -/
def storedIn {i : Nat} (o : Outcome (A i)) : Then (A i) Unit FailFn :=
  match o with
  | .ok arg => ⟨none, none, some arg, false, "", false⟩
  | .error failure => ⟨none, none, none, false, failure, true⟩

/-- A task that has it, which user code does not. -/
def token : Task A → Multiset (Task A)
  | .user => 0
  | t => {t}

def flow (s : State A) : Multiset (Task A) :=
  tally token s.running + tally token s.events + tally token s.sending

def Place.flow : Place A → Multiset (Task A)
  | .task t => {t}
  | _ => 0

structure Placed (c : Code A) (s : State A) (pl : Place A) : Prop where
  fault : s.fault = none
  registered : s.registered ≤ c.n + 1
  valid : pl.Valid c s.registered
  flow : flow s = pl.flow
  links : ∀ i, ¬ pl.Passed i → s.links i = fresh c s.registered i
  stored : ∀ i o, pl = .stored i o → s.links i = storedIn o
  log : s.log ++ pl.rest c = expected c s
  start : s.pOutcome = none ↔ pl = .start

def Inv (c : Code A) (s : State A) : Prop := ∃ pl, Placed c s pl

theorem inv_init (c : Code A) : Inv c State.init :=
  ⟨.start, rfl, Nat.zero_le _, trivial, rfl, fun _ _ => rfl, nofun, rfl, iff_of_true rfl rfl⟩

/-! ## Tokens -/

@[simp] theorem trail_error (c : Code A) (k i : Nat) (failure : String) :
    trail c k i (.error failure) = [.failed failure] := by
  cases k <;> rfl

theorem trail_ok (c : Code A) {i : Nat} (hn : i < c.n) (arg : A i) :
    trail c (c.n - i) i (.ok arg) =
      .call i arg :: trail c (c.n - (i + 1)) (i + 1) ((c.f i).outcome arg) := by
  rw [show c.n - i = (c.n - (i + 1)) + 1 by omega, trail]

/-! ## A settlement -/

@[simp] theorem setLink_links_of_ne {i j : Nat} (h : j ≠ i) (link : Then (A i) Unit FailFn)
    (s : State A) : (setLink i link s).links j = s.links j := Function.update_of_ne h _ _

@[simp] theorem setLink_links_self (i : Nat) (link : Then (A i) Unit FailFn) (s : State A) :
    (setLink i link s).links i = link := Function.update_self _ _ _

theorem settle_init {i : Nat} (o : Outcome (A i)) :
    (Then.init : Then (A i) Unit FailFn).settle o = (storedIn o, none) := by
  cases o <;> rfl

variable {c : Code A} {s : State A}

/-- The settlement of link `i` has become the task `t`, which is called at once
or sent by another thread. -/
theorem placed_send {i : Nat} {t : Task A} (onLoop : Bool) (link : Then (A i) Unit FailFn)
    (hfault : s.fault = none) (hreg : s.registered ≤ c.n + 1) (hp : s.pOutcome ≠ none)
    (hflow : flow s = 0) (ht : token t = {t}) (hvalid : (Place.task t).Valid c s.registered)
    (hpassed : ∀ j, (Place.task t).Passed j ↔ j ≤ i)
    (hlinks : ∀ j, ¬ j ≤ i → s.links j = fresh c s.registered j)
    (hlog : s.log ++ (Place.task t).rest c = expected c s) :
    Placed c (send onLoop (true, t) (setLink i link s)) (.task t) := by
  have hl : ∀ j, ¬ (Place.task t).Passed j → (setLink i link s).links j = fresh c s.registered j := by
    intro j hj
    rw [hpassed] at hj
    rw [setLink_links_of_ne (by omega)]
    exact hlinks j hj
  cases onLoop with
  | true =>
    refine ⟨hfault, hreg, hvalid, ?_, hl, nofun, hlog, iff_of_false hp nofun⟩
    show token t + tally token s.running + tally token s.events + tally token s.sending = {t}
    rw [ht, add_assoc, add_assoc, ← add_assoc (tally token s.running)]
    exact (congrArg ({t} + ·) hflow).trans (add_zero _)
  | false =>
    refine ⟨hfault, hreg, hvalid, ?_, hl, nofun, hlog, iff_of_false hp nofun⟩
    show tally token s.running + tally token s.events + tally token (s.sending ++ [t]) = {t}
    rw [tally_append, tally_cons, tally_nil, ht, add_zero, ← add_assoc]
    exact (congrArg (· + {t}) hflow).trans (zero_add _)

/-- Link `i` is settled: by nobody before, after the links in front of it. -/
theorem placed_settleLink {i : Nat} {o : Outcome (A i)} (onLoop : Bool)
    (hfault : s.fault = none) (hreg : s.registered ≤ c.n + 1) (hp : s.pOutcome ≠ none)
    (hflow : flow s = 0) (hi : i ≤ s.registered) (hin : i ≤ c.n)
    (hlinks : ∀ j, i ≤ j → s.links j = fresh c s.registered j)
    (hlog : s.log ++ trail c (c.n - i) i o = expected c s) :
    Inv c (settleLink onLoop i o s) := by
  have hlink := hlinks i (Nat.le_refl i)
  have hafter : ∀ j, ¬ j ≤ i → s.links j = fresh c s.registered j := fun j hj => hlinks j (by omega)
  by_cases hk : s.registered ≤ i
  · -- nobody has registered: it is stored
    rw [fresh, if_pos hk] at hlink
    have hset : settleLink onLoop i o s = setLink i (storedIn o) s := by
      simp only [settleLink, hlink, settle_init]
    rw [hset]
    have hki : i = s.registered := by omega
    refine ⟨.stored i o, hfault, hreg, ⟨hki, hin⟩, hflow, fun j hj => ?_, fun j o' he => ?_, hlog,
      iff_of_false hp nofun⟩
    · rw [setLink_links_of_ne (fun he => hj (Nat.le_of_eq he))]
      exact hafter j hj
    · cases he
      exact setLink_links_self ..
  rw [fresh, if_neg hk] at hlink
  by_cases hn : i < c.n
  · rw [if_pos hn] at hlink
    cases o with
    | ok arg =>
      have hset : settleLink onLoop i (.ok arg) s =
          send onLoop (true, .next i arg) (setLink i { s.links i with mNext := none } s) := by
        simp only [settleLink, hlink, Then.settle, Then.resolve, taskOf]
      rw [hset]
      exact ⟨_, placed_send onLoop _ hfault hreg hp hflow rfl ⟨by omega, hn⟩ (fun _ => Iff.rfl) hafter
        hlog⟩
    | error failure =>
      have hset : settleLink onLoop i (.error failure) s =
          send onLoop (true, .fail i .forward failure) (setLink i { s.links i with mFail := none } s) := by
        simp only [settleLink, hlink, Then.settle, Then.reject, taskOf]
      rw [hset]
      rw [trail_error] at hlog
      exact ⟨_, placed_send onLoop _ hfault hreg hp hflow rfl ⟨by omega, hin, (if_pos hn).symm⟩
        (fun _ => Iff.rfl) hafter hlog⟩
  · rw [if_neg hn] at hlink
    cases o with
    | ok arg =>
      -- there is no callback any more
      have hset : settleLink onLoop i (.ok arg) s = setLink i { s.links i with mArg := some arg } s := by
        simp only [settleLink, hlink, Then.settle, Then.resolve]
      rw [hset]
      have hall : s.registered = c.n + 1 := by omega
      rw [show c.n - i = 0 by omega] at hlog
      exact ⟨.done, hfault, hreg, hall, hflow, fun _ hj => absurd trivial hj, nofun, hlog,
        iff_of_false hp nofun⟩
    | error failure =>
      have hset : settleLink onLoop i (.error failure) s =
          send onLoop (true, .fail i .handler failure) (setLink i { s.links i with mFail := none } s) := by
        simp only [settleLink, hlink, Then.settle, Then.reject, taskOf]
      rw [hset]
      rw [trail_error] at hlog
      exact ⟨_, placed_send onLoop _ hfault hreg hp hflow rfl ⟨by omega, hin, (if_neg hn).symm⟩
        (fun _ => Iff.rfl) hafter hlog⟩

/-! ## A registration -/

theorem Placed.fresh_registered {pl : Place A} (h : Placed c s pl) (hk : s.registered ≤ c.n)
    (hne : ∀ o, pl ≠ .stored s.registered o) : ¬ pl.Passed s.registered := by
  have hv := h.valid
  match pl, hv with
  | .start, _ => exact id
  | .stored i o, ⟨hi, _⟩ => cases hi; exact absurd rfl (hne o)
  | .task (.next i _), ⟨hi, _⟩ => exact Nat.not_le_of_lt hi
  | .task (.callback i _), ⟨hi, _⟩ => exact Nat.not_le_of_lt hi
  | .task (.fail i _ _), ⟨hi, _⟩ => exact Nat.not_le_of_lt hi
  | .task (.settle i _), ⟨hi, _⟩ => exact Nat.not_lt_of_le hi
  | .done, hd => exact absurd (show s.registered = c.n + 1 from hd) (by omega)

theorem registration_init (c : Code A) (i : Nat) :
    registration c i .init = .ok ⟨fresh c (i + 1) i, []⟩ := by
  rw [fresh, if_neg (Nat.not_succ_le_self i)]
  unfold registration
  split <;> rfl

theorem fresh_succ {k j : Nat} (h : j ≠ k) : fresh c (k + 1) j = fresh c k j := by
  unfold fresh
  by_cases hk : k ≤ j
  · rw [if_pos hk, if_pos (by omega)]
  · rw [if_neg hk, if_neg (by omega)]

theorem Place.Valid.succ {k : Nat} {pl : Place A} (h : pl.Valid c k) (hk : k ≤ c.n)
    (hne : ∀ i o, pl ≠ .stored i o) : pl.Valid c (k + 1) := by
  match pl, h with
  | .start, _ => exact trivial
  | .stored i o, _ => exact absurd rfl (hne i o)
  | .task (.next i _), ⟨hi, hn⟩ => exact ⟨by omega, hn⟩
  | .task (.callback i _), ⟨hi, hn⟩ => exact ⟨by omega, hn⟩
  | .task (.fail i _ _), ⟨hi, hn⟩ => exact ⟨by omega, hn⟩
  | .task (.settle i _), ⟨hi, hn⟩ => exact ⟨by omega, hn⟩
  | .done, hd => exact absurd (show k = c.n + 1 from hd) (by omega)

/-- What was stored in the link is posted as the task `t`. -/
theorem placed_post {k : Nat} {o : Outcome (A k)} {t : Task A} (link : Then (A k) Unit FailFn)
    (h : Placed c s (.stored k o)) (ht : token t = {t}) (hvalid : (Place.task t).Valid c (k + 1))
    (hpassed : ∀ j, (Place.task t).Passed j ↔ j ≤ k)
    (hrest : (Place.task t).rest c = trail c (c.n - k) k o) :
    Placed c { setLink k link s with events := s.events ++ [t], registered := k + 1 } (.task t) := by
  have hk : k ≤ c.n := h.valid.2
  have hreg : k = s.registered := h.valid.1
  refine ⟨h.fault, by show k + 1 ≤ c.n + 1; omega, hvalid, ?_, fun j hj => ?_, nofun, ?_,
    iff_of_false (fun hn => nomatch h.start.mp hn) nofun⟩
  · have hflow := h.flow
    show tally token s.running + tally token (s.events ++ [t]) + tally token s.sending = {t}
    rw [tally_append, tally_cons, tally_nil, ht, add_zero, ← add_assoc, add_right_comm]
    exact (congrArg (· + {t}) hflow).trans (zero_add _)
  · rw [hpassed] at hj
    have hjk : j ≠ k := fun he => hj (Nat.le_of_eq he)
    show (setLink k link s).links j = fresh c (k + 1) j
    rw [setLink_links_of_ne hjk, fresh_succ hjk, hreg]
    exact h.links j (hreg ▸ hj)
  · rw [hrest]
    exact h.log

theorem placed_register (h : Inv c s) (hk : s.registered ≤ c.n) : Inv c (register c s) := by
  obtain ⟨pl, h⟩ := h
  by_cases hst : ∃ i o, pl = .stored i o
  · obtain ⟨i, o, rfl⟩ := hst
    obtain ⟨rfl, -⟩ := h.valid
    have hlink := h.stored _ _ rfl
    by_cases hn : s.registered < c.n
    · have hreg : register c s = registerOn s.registered
          ((storedIn o).then_ (c.moved s.registered) () .forward true) s := by
        rw [register, registration, if_pos hn, hlink]
      rw [hreg]
      cases o with
      | ok arg =>
        exact ⟨_, placed_post _ h rfl ⟨Nat.lt_succ_self _, hn⟩ (fun _ => Iff.rfl) rfl⟩
      | error failure =>
        exact ⟨_, placed_post _ h rfl ⟨Nat.lt_succ_self _, hk, (if_pos hn).symm⟩ (fun _ => Iff.rfl)
          (trail_error ..).symm⟩
    · have hreg : register c s = registerOn s.registered ((storedIn o).fail .handler true) s := by
        rw [register, registration, if_neg hn, hlink]
      rw [hreg]
      cases o with
      | ok arg =>
        -- `g` is put into the slot and stays there
        have hall : s.registered + 1 = c.n + 1 := by omega
        have hlog := h.log
        rw [Place.rest, show c.n - s.registered = 0 by omega] at hlog
        have hflow : flow (registerOn s.registered
            ((storedIn (.ok arg)).fail .handler true) s) = 0 := by
          show _ + tally token (s.events ++ []) + _ = _
          rw [List.append_nil]
          exact h.flow
        exact ⟨.done, h.fault, Nat.le_of_eq hall, hall, hflow, fun _ hj => absurd trivial hj, nofun,
          hlog, iff_of_false (fun hp => nomatch h.start.mp hp) nofun⟩
      | error failure =>
        exact ⟨_, placed_post _ h rfl ⟨Nat.lt_succ_self _, hk, (if_neg hn).symm⟩ (fun _ => Iff.rfl)
          (trail_error ..).symm⟩
  · -- the functions are put into the slots
    have hne : ∀ i o, pl ≠ .stored i o := fun i o he => hst ⟨i, o, he⟩
    have hnot := h.fresh_registered hk (hne _)
    have hlink := h.links _ hnot
    rw [fresh, if_pos (Nat.le_refl _)] at hlink
    have hreg : register c s = { setLink s.registered (fresh c (s.registered + 1) s.registered) s with
        events := s.events ++ [], registered := s.registered + 1 } := by
      rw [register, hlink, registration_init]
      rfl
    rw [hreg, List.append_nil]
    refine ⟨pl, h.fault, by show _ + 1 ≤ _; omega, h.valid.succ hk hne, h.flow, fun j hj => ?_,
      fun i o he => absurd he (hne i o), h.log, h.start⟩
    by_cases hjk : j = s.registered
    · subst hjk
      exact setLink_links_self ..
    · show (setLink _ _ s).links j = fresh c (s.registered + 1) j
      rw [setLink_links_of_ne hjk, fresh_succ hjk]
      exact h.links j hj

/-! ## The loop -/

/-- A task in front of the loop's thread is where the settlement is. -/
theorem placed_head {pl : Place A} {t : Task A} {rest : List (Task A)} (h : Placed c s pl)
    (hr : s.running = t :: rest) (ht : token t = {t}) :
    pl = .task t ∧ flow { s with running := rest } = 0 := by
  have hflow : t ::ₘ flow { s with running := rest } = pl.flow := by
    rw [← h.flow, flow, flow, hr, tally_cons, ht, Multiset.singleton_add, Multiset.cons_add,
      Multiset.cons_add]
  match pl, hflow with
  | .task u, hflow =>
    obtain ⟨rfl, hz⟩ := (Multiset.singleton_eq_cons_iff _).mp hflow.symm
    exact ⟨rfl, hz⟩
  | .start, hflow => exact absurd hflow Multiset.cons_ne_zero
  | .stored _ _, hflow => exact absurd hflow Multiset.cons_ne_zero
  | .done, hflow => exact absurd hflow Multiset.cons_ne_zero

/-- The task on top is replaced by `u`, which the loop's thread goes on with. -/
theorem placed_replace {t u : Task A} {rest : List (Task A)} (log : List (Entry A))
    (h : Placed c s (.task t)) (hflow : flow { s with running := rest } = 0) (hu : token u = {u})
    (hvalid : (Place.task u).Valid c s.registered)
    (hpassed : ∀ j, ¬ (Place.task u).Passed j → ¬ (Place.task t).Passed j)
    (hlog : log ++ (Place.task u).rest c = s.log ++ (Place.task t).rest c) :
    Placed c { s with running := u :: rest, log } (.task u) := by
  refine ⟨h.fault, h.registered, hvalid, ?_, fun j hj => h.links j (hpassed j hj), nofun,
    hlog.trans h.log, iff_of_false (fun hp => nomatch h.start.mp hp) nofun⟩
  show token u + tally token rest + tally token s.events + tally token s.sending = {u}
  rw [hu, add_assoc, add_assoc, ← add_assoc (tally token rest)]
  exact (congrArg ({u} + ·) hflow).trans (add_zero _)

theorem inv_exec {s' : State A} {t : Task A} {rest : List (Task A)} (h : Inv c s)
    (hr : s.running = t :: rest) (hs : exec t rest s = some s') : Inv c s' := by
  obtain ⟨pl, h⟩ := h
  unfold exec at hs
  split at hs <;> cases hs
  · rename_i i arg
    obtain ⟨rfl, hflow⟩ := placed_head h hr rfl
    obtain ⟨hi, hn⟩ := h.valid
    refine ⟨_, placed_replace _ h hflow rfl ⟨hi, hn⟩ (fun _ => id) ?_⟩
    rw [Place.rest, Place.rest, trail_ok c hn, List.append_assoc, List.singleton_append]
  · rename_i i failure
    obtain ⟨rfl, hflow⟩ := placed_head h hr rfl
    obtain ⟨hi, hin, hfunc⟩ := h.valid
    have hn : i < c.n := Classical.byContradiction fun hn => by rw [if_neg hn] at hfunc; cases hfunc
    refine ⟨_, placed_replace _ h hflow rfl ⟨hi, hn⟩ (fun j hj hji => hj (Nat.lt_succ_of_le hji)) ?_⟩
    rw [Place.rest, Place.rest, trail_error]
  · rename_i i failure
    obtain ⟨rfl, hflow⟩ := placed_head h hr rfl
    obtain ⟨hi, hin, hfunc⟩ := h.valid
    have hn : ¬ i < c.n := fun hn => by rw [if_pos hn] at hfunc; cases hfunc
    have hall : s.registered = c.n + 1 := by have := h.registered; omega
    have hlog : (s.log ++ [Entry.failed failure]) ++ [] = expected c s := by
      rw [List.append_nil]
      exact h.log
    have hflow' : 0 + tally token rest + tally token s.events + tally token s.sending = 0 := by
      rw [zero_add]
      exact hflow
    exact ⟨.done, h.fault, h.registered, hall, hflow', fun _ hj => absurd trivial hj, nofun, hlog,
      iff_of_false (fun hp => nomatch h.start.mp hp) nofun⟩
  · rename_i i o
    obtain ⟨rfl, hflow⟩ := placed_head h hr rfl
    obtain ⟨hi, hn⟩ := h.valid
    exact placed_settleLink true h.fault h.registered (fun hp => nomatch h.start.mp hp) hflow hi hn
      (fun j hj => h.links j (Nat.not_lt_of_le hj)) h.log

/-- Moving tasks between the queues, or user code coming and going. -/
theorem inv_requeue (running events sending : List (Task A)) (h : Inv c s)
    (hflow : tally token running + tally token events + tally token sending = flow s) :
    Inv c { s with running, events, sending } := by
  obtain ⟨pl, h⟩ := h
  exact ⟨pl, h.fault, h.registered, h.valid, hflow.trans h.flow, h.links, h.stored, h.log, h.start⟩

theorem inv_step {s' : State A} {l : Label A} (h : Inv c s) (hs : step c s l = some s') :
    Inv c s' := by
  unfold step at hs
  split at hs
  · cases hs
  split at hs
  · split at hs <;> cases hs
    rename_i hu
    simp only [Bool.and_eq_true, decide_eq_true_eq] at hu
    exact placed_register h hu.2
  · split at hs <;> cases hs
    rename_i onLoop o hu
    simp only [Bool.and_eq_true, Option.isNone_iff_eq_none] at hu
    obtain ⟨pl, h⟩ := h
    obtain rfl : pl = .start := h.start.mp hu.2
    have hlog : s.log = [] := by
      have hlog := h.log
      rw [Place.rest, List.append_nil, expected, hu.2] at hlog
      exact hlog
    refine placed_settleLink (s := { s with pOutcome := some o }) onLoop h.fault h.registered nofun
      h.flow (Nat.zero_le _) (Nat.zero_le _) (fun j _ => h.links j id) ?_
    show s.log ++ trail c c.n 0 o = trail c c.n 0 o
    rw [hlog, List.nil_append]
  · cases hs
    refine inv_requeue s.running (s.events ++ [.user]) s.sending h ?_
    rw [tally_append]
    show tally token s.running + (tally token s.events + 0) + tally token s.sending = flow s
    rw [add_zero, flow]
  · rename_i i
    obtain ⟨t, ht, rfl⟩ := Option.map_eq_some_iff.mp hs
    refine inv_requeue s.running (s.events ++ [t]) (s.sending.eraseIdx i) h ?_
    rw [flow, ← tally_eraseIdx token ht, tally_append, tally_cons, tally_nil]
    abel
  · rename_i hr
    split at hs <;> cases hs
    rename_i t events he
    refine inv_requeue [t] events s.sending h ?_
    rw [flow, hr, he, tally_cons, tally_cons, tally_nil]
    abel
  · rename_i t rest hr
    exact inv_exec h hr hs
  · rename_i i arg rest hr
    cases hs
    obtain ⟨pl, h⟩ := h
    obtain ⟨rfl, hflow⟩ := placed_head h hr rfl
    obtain ⟨hi, hn⟩ := h.valid
    exact ⟨_, placed_replace s.log h hflow rfl ⟨hi, hn⟩
      (fun j hj hji => hj (Nat.lt_succ_of_le hji)) rfl⟩
  · rename_i rest hr
    cases hs
    refine inv_requeue rest s.events s.sending h ?_
    rw [flow, hr, tally_cons]
    exact congrArg (· + _ + _) (zero_add _).symm
  · cases hs

theorem inductive_inv (c : Code A) : (chain c).Inductive (Inv c) where
  init s hs := by cases hs; exact inv_init c
  step _ _ _ h hs := inv_step h hs

theorem p_of_inv (h : Inv c s) : P c s := by
  obtain ⟨pl, h⟩ := h
  refine ⟨h.fault, ⟨pl.rest c, h.log⟩, fun hall hidle => ?_⟩
  obtain ⟨hrun, hev, hsend⟩ := hidle
  have hflow : pl.flow = 0 := by rw [← h.flow, flow, hrun, hev, hsend]; rfl
  have hrest : pl.rest c = [] := by
    match pl, h.valid, hflow with
    | .start, _, _ => rfl
    | .done, _, _ => rfl
    | .stored i o, ⟨hi, hn⟩, _ => omega
    | .task t, _, hflow => exact absurd hflow (Multiset.singleton_ne_zero t)
  have hlog := h.log
  rw [hrest, List.append_nil] at hlog
  exact hlog

/-! ## The loop gets idle -/

/-- The steps that need nobody but the loop and a thread that is posting. -/
def Own (_ : State A) : Label A → Prop
  | .deliver _ | .take | .run | .ret => True
  | _ => False

/-- How many steps a task takes at most, with those along the links behind it. -/
def weight (c : Code A) : Task A → Nat
  | .settle i _ => 4 * (c.n + 1 - i)
  | .next i _ => 4 * (c.n + 1 - i) - 1
  | .fail i _ _ => 4 * (c.n + 1 - i) - 1
  | .callback i _ => 4 * (c.n + 1 - i) - 2
  | .user => 1

/-- A task in a queue has to be taken, one that is sent to be posted as well. -/
def measure (c : Code A) (s : State A) : Nat :=
  tally (fun t => weight c t + 2) s.sending + tally (fun t => weight c t + 1) s.events +
    tally (weight c) s.running

/-- The task on top is replaced by less. -/
theorem measure_top {t : Task A} {rest : List (Task A)} (hr : s.running = t :: rest)
    (ts : List (Task A)) (log : List (Entry A)) (h : tally (weight c) ts < weight c t) :
    measure c { s with running := ts ++ rest, log } < measure c s := by
  simp only [measure, hr, tally_cons, tally_append]
  omega

theorem measure_settle {i : Nat} {o : Outcome (A i)} {rest : List (Task A)}
    (hr : s.running = .settle i o :: rest) (hi : i ≤ c.n) :
    measure c (settleLink true i o { s with running := rest }) < measure c s := by
  have hcall : ∀ call : Call (A i) Unit FailFn, weight c (taskOf i call) < weight c (.settle i o) := by
    intro call
    cases call <;> simp only [taskOf, weight] <;> omega
  have hnone : tally (weight c) [] < weight c (.settle i o) := by
    simp only [tally_nil, weight]
    omega
  rcases hset : (s.links i).settle o with ⟨link, _ | ⟨loop, call⟩⟩
  · simp only [settleLink, hset]
    exact measure_top hr [] s.log hnone
  · simp only [settleLink, hset]
    refine measure_top hr [taskOf i call] s.log ?_
    rw [tally_cons, tally_nil, Nat.add_zero]
    exact hcall call

theorem measure_exec {s' : State A} {t : Task A} {rest : List (Task A)} (h : Inv c s)
    (hr : s.running = t :: rest) (hs : exec t rest s = some s') : measure c s' < measure c s := by
  obtain ⟨pl, h⟩ := h
  unfold exec at hs
  split at hs <;> cases hs
  · rename_i i arg
    obtain ⟨rfl, -⟩ := placed_head h hr rfl
    have hn : i < c.n := h.valid.2
    refine measure_top hr [.callback i arg] _ ?_
    simp only [tally_cons, tally_nil, weight]
    omega
  · rename_i i failure
    obtain ⟨rfl, -⟩ := placed_head h hr rfl
    have hn : i ≤ c.n := h.valid.2.1
    refine measure_top hr [.settle (i + 1) (.error failure)] _ ?_
    simp only [tally_cons, tally_nil, weight]
    omega
  · rename_i i failure
    obtain ⟨rfl, -⟩ := placed_head h hr rfl
    have hn : i ≤ c.n := h.valid.2.1
    refine measure_top hr [.user] _ ?_
    simp only [tally_cons, tally_nil, weight]
    omega
  · obtain ⟨rfl, -⟩ := placed_head h hr rfl
    exact measure_settle hr h.valid.2

/-- While something is left, one of the loop's own steps can be taken, and
there is less left after it. -/
theorem own_step (h : Inv c s) (hi : ¬ Idle s) :
    ∃ l s', Own s l ∧ step c s l = some s' ∧ Inv c s' ∧ measure c s' < measure c s := by
  have hf : s.fault = none := h.elim fun _ hp => hp.fault
  suffices hs : ∃ l s', Own s l ∧ step c s l = some s' ∧ measure c s' < measure c s by
    obtain ⟨l, s', hown, hs, hlt⟩ := hs
    exact ⟨l, s', hown, hs, inv_step h hs, hlt⟩
  have hexec : ∀ {s' : State A} {rest} (t : Task A), s.running = t :: rest →
      exec t rest s = some s' →
      ∃ l s', Own s l ∧ step c s l = some s' ∧ measure c s' < measure c s := fun t hr he =>
    ⟨.run, _, trivial, by simp [step, hf, hr, he], measure_exec h hr he⟩
  cases hr : s.running with
  | cons t rest =>
    match t with
    | .callback i arg =>
      obtain ⟨pl, hp⟩ := h
      obtain ⟨rfl, -⟩ := placed_head hp hr rfl
      have hn : i < c.n := hp.valid.2
      refine ⟨.ret, _, trivial, by simp only [step, hf, hr]; rfl, ?_⟩
      refine measure_top hr [.settle (i + 1) ((c.f i).outcome arg)] s.log ?_
      simp only [tally_cons, tally_nil, weight]
      omega
    | .user =>
      exact ⟨.ret, _, trivial, by simp only [step, hf, hr]; rfl, measure_top hr [] s.log Nat.zero_lt_one⟩
    | .next i arg => exact hexec (.next i arg) hr rfl
    | .fail i .forward failure => exact hexec (.fail i .forward failure) hr rfl
    | .fail i .handler failure => exact hexec (.fail i .handler failure) hr rfl
    | .settle i o => exact hexec (.settle i o) hr rfl
  | nil =>
    cases he : s.events with
    | cons t events =>
      refine ⟨.take, { s with events := events, running := [t] }, trivial, by simp [step, hf, hr, he], ?_⟩
      simp only [measure, hr, he, tally_cons, tally_nil]
      omega
    | nil =>
      cases hs : s.sending with
      | cons t sending =>
        refine ⟨.deliver 0, { s with sending := sending, events := [t] }, trivial,
          by simp [step, hf, he, hs], ?_⟩
        simp only [measure, he, hs, tally_cons, tally_nil]
        omega
      | nil => exact absurd ⟨hr, he, hs⟩ hi

theorem drains (h : Inv c s) : ∃ ls s', ((chain c).guard Own).Run s ls s' ∧
    ls.length ≤ measure c s ∧ Idle s' ∧ Inv c s' :=
  LTS.drains (fun _ h hi => own_step h hi) s h

/-- **Promise chains.** In every state that a run reaches the calls made are the
first ones of those that the settlement of `p` leads to, and the loop comes to
the end of what it has to do by itself; when it has and everything is
registered, they are all of them. -/
theorem chain_calls (hr : (chain c).Reachable s) : P c s ∧
    ∃ ls s', ((chain c).guard Own).Run s ls s' ∧ Idle s' ∧ P c s' := by
  have h := (inductive_inv c).reachable s hr
  obtain ⟨ls, s', hrun, -, hidle, h'⟩ := drains h
  exact ⟨p_of_inv h, ls, s', hrun, hidle, p_of_inv h'⟩

/-- The first callback adds one, the second one refuses. -/
def addThenRefuse : Code fun _ => Nat where
  n := 2
  f i := if i = 0 then .value (· + 1) else .maybeFail fun _ => .error "refused"
  moved _ := id

/-- `p` is resolved by another thread; the second registration is made inside
the first callback, and that of `g` when the failure is there. -/
def refused : List (Label fun _ => Nat) :=
  [.register, .settle false (.ok 1), .deliver 0, .take, .run, .register, .ret, .run, .run, .ret, .run,
   .register, .take, .run, .ret]

theorem refused_runs : (LTS.replay (step addThenRefuse) State.init refused).isSome := rfl

theorem chain_calls_refused :
    ((LTS.replay (step addThenRefuse) State.init refused).get refused_runs).log =
      [.call 0 1, .call 1 2, .failed "refused"] :=
  (chain_calls (LTS.reachable_replay (· = State.init) rfl refused_runs)).1.all rfl ⟨rfl, rfl, rfl⟩

end Reckoning.L3.Chain
