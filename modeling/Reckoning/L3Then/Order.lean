import Reckoning.L3Then.ThenVoid
import Reckoning.L3Then.Chain

/-!
# Registered before or after the settlement

One registration on a `Then` and one settlement of it, in either order. The
registering thread may have a loop or not; the settlement is made on its loop's
thread or on another one. The loop runs what is posted at any time before,
between and after the two.

* `log`: the calls of the callback and of the function given to `fail`, and
  what the `Then` that the registration returned is settled with.
* `SameRuns`: both runs come to their end, with the same log.

`exec` is over the operations of either class (`Ops`); a map between two
classes that takes one's operations to the other's takes runs to runs
(`SameRuns.of_hom`).
-/
namespace Reckoning.L3.Order

open Chain (Callback)

/-- What `mFail` holds: the lambda of a `then`, `chain->reject(failure)`, or the
function given to `fail`. -/
inductive FailFn
  | forward
  | handler
  deriving DecidableEq, Repr

/-- The registrations whose callback is not adopted. -/
inductive Registration (Arg Return : Type)
  | then_ (callback : Callback Arg Return)
  | fail

inductive Entry (Arg Return : Type)
  | call (arg : Arg)
  | failed (failure : String)
  | chained (o : Outcome Return)

variable {T T' Arg Return : Type}

/-- What the lambda around a callback is taken for, with its argument. -/
abbrev Posted (Arg Return : Type) := Call Arg (Callback Arg Return) FailFn

/-- The operations of one of the two classes, with what they post. -/
structure Ops (T Arg Return : Type) where
  init : T
  then_ : Callback Arg Return → FailFn → Bool → T → Except ThenFault (T × List (Posted Arg Return))
  fail : FailFn → Bool → T → Except ThenFault (T × List (Posted Arg Return))
  settle : Outcome Arg → T → T × Option (Bool × Posted Arg Return)

/-- The class for `ArgType != void`. -/
def Ops.value (moved : Arg → Arg) :
    Ops (Then Arg (Callback Arg Return) FailFn) Arg Return where
  init := .init
  then_ next fail loop t := (t.then_ moved next fail loop).map fun r => (r.self, r.posts)
  fail func loop t := (t.fail func loop).map fun r => (r.self, r.posts)
  settle o t := t.settle o

/-- The class for `ArgType == void`. -/
def Ops.void : Ops (ThenVoid (Callback Unit Return) FailFn) Unit Return where
  init := .init
  then_ next fail loop t := (t.then_ next fail loop).map fun r => (r.self, r.posts)
  fail func loop t := (t.fail func loop).map fun r => (r.self, r.posts)
  settle o t := t.settle o

/-! ## Runs -/

structure State (T Arg Return : Type) where
  self : T
  /-- `mEvents` of the registering thread's loop -/
  events : List (Posted Arg Return)
  log : List (Entry Arg Return)

inductive Action
  | register
  /-- `onLoop`: on the thread of the registering thread's loop -/
  | settle (onLoop : Bool)
  /-- the loop runs its events -/
  | turn

/-- What calling one of the lambdas leads to.
mirrors include/then/Then.h:208-218, :246-256, :286-291, :318-324 and :350-352 -/
def perform : Posted Arg Return → List (Entry Arg Return)
  | .next callback arg => [.call arg, .chained (callback.outcome arg)]
  | .fail .forward failure => [.chained (.error failure)]
  | .fail .handler failure => [.failed failure]

/-- mirrors include/then/Then.h:197-361 and :470-635 -/
def register (ops : Ops T Arg Return) (r : Registration Arg Return) (loop : Bool) (t : T) :
    Except ThenFault (T × List (Posted Arg Return)) :=
  match r with
  | .then_ callback => ops.then_ callback .forward loop t
  | .fail => ops.fail .handler loop t

/-- A step of one run. A call that goes through a loop is made at once on its
thread and posted by another one.
mirrors include/then/Then.h:651-658 and include/event/Loop.h:266-275 -/
def act (ops : Ops T Arg Return) (r : Registration Arg Return) (loop : Bool) (o : Outcome Arg)
    (s : State T Arg Return) : Action → Except ThenFault (State T Arg Return)
  | .register =>
    (register ops r loop s.self).map fun (self, posts) =>
      { s with self := self, events := s.events ++ posts }
  | .settle onLoop =>
    match ops.settle o s.self with
    | (self, none) => .ok { s with self := self }
    | (self, some (mLoop, c)) =>
      if mLoop && !onLoop then .ok { s with self := self, events := s.events ++ [c] }
      else .ok { s with self := self, log := s.log ++ perform c }
  | .turn => .ok { s with events := [], log := s.log ++ s.events.flatMap perform }

def exec (ops : Ops T Arg Return) (r : Registration Arg Return) (loop : Bool) (o : Outcome Arg)
    (actions : List Action) : Except ThenFault (State T Arg Return) :=
  actions.foldlM (act ops r loop o) ⟨ops.init, [], []⟩

/-- `first` and `second`, with turns of the loop around them; it has run what is
posted when the run ends. -/
def schedule (first second : Action) (i j k : Nat) : List Action :=
  List.replicate i .turn ++ first :: (List.replicate j .turn ++ second :: List.replicate (k + 1) .turn)

def RegisterFirst (actions : List Action) : Prop :=
  ∃ onLoop i j k, actions = schedule .register (.settle onLoop) i j k

def SettleFirst (actions : List Action) : Prop :=
  ∃ onLoop i j k, actions = schedule (.settle onLoop) .register i j k

/-- Neither run has a fault, and they do the same. -/
def SameRuns (ops : Ops T Arg Return) (r : Registration Arg Return) (loop : Bool)
    (o : Outcome Arg) : Prop :=
  ∀ before after, RegisterFirst before → SettleFirst after →
    ∃ s s', exec ops r loop o before = .ok s ∧ exec ops r loop o after = .ok s' ∧
      s.events = [] ∧ s'.events = [] ∧ s.log = s'.log


/-! ## The loop's turns -/

/-- The loop has run its events. -/
def State.turned (s : State T Arg Return) : State T Arg Return :=
  { s with events := [], log := s.log ++ s.events.flatMap perform }

section
variable {ops : Ops T Arg Return} {r : Registration Arg Return} {loop : Bool} {o : Outcome Arg}

theorem turns (k : Nat) {s : State T Arg Return} (h : s.events = []) :
    (List.replicate k .turn).foldlM (act ops r loop o) s = .ok s := by
  induction k with
  | zero => rfl
  | succ k ih =>
    have hturn : act ops r loop o s .turn = .ok s := by
      obtain ⟨self, events, log⟩ := s
      cases h
      simp [act]
    rw [List.replicate_succ, List.foldlM_cons, hturn]
    exact ih

theorem turns_succ (k : Nat) (s : State T Arg Return) :
    (List.replicate (k + 1) .turn).foldlM (act ops r loop o) s = .ok s.turned := by
  rw [List.replicate_succ, List.foldlM_cons]
  exact turns k rfl

/-- A run whose first action posts nothing. -/
theorem exec_schedule {first second : Action} (i j k : Nat) {s : State T Arg Return}
    (h : act ops r loop o ⟨ops.init, [], []⟩ first = .ok s) (he : s.events = []) :
    exec ops r loop o (schedule first second i j k) =
      (act ops r loop o s second).map State.turned := by
  have hi : (List.replicate i Action.turn).foldlM (act ops r loop o) ⟨ops.init, [], []⟩ = .ok _ :=
    turns i rfl
  have hj : (List.replicate j Action.turn).foldlM (act ops r loop o) s = .ok s := turns j he
  have hk : ∀ s', (List.replicate (k + 1) Action.turn).foldlM (act ops r loop o) s' = .ok s'.turned :=
    turns_succ k
  simp only [exec, schedule, List.foldlM_append, List.foldlM_cons, hi, h, hj, hk, bind, Except.bind]
  cases act ops r loop o s second with
  | error f => rfl
  | ok s' => rfl

end

/-! ## The two orders -/

/-- What the registration and the settlement are there for, in either order. -/
def expected (r : Registration Arg Return) (o : Outcome Arg) : List (Entry Arg Return) :=
  match r, o with
  | .then_ callback, .ok arg => [.call arg, .chained (callback.outcome arg)]
  | .then_ _, .error failure => [.chained (.error failure)]
  | .fail, .ok _ => []
  | .fail, .error failure => [.failed failure]

section
variable (moved : Arg → Arg) (r : Registration Arg Return) (o : Outcome Arg)

theorem exec_registerFirst (loop : Bool) {actions : List Action} (h : RegisterFirst actions) :
    ∃ self, exec (Ops.value moved) r loop o actions = .ok ⟨self, [], expected r o⟩ := by
  obtain ⟨onLoop, i, j, k, rfl⟩ := h
  cases r with
  | then_ callback =>
    rw [exec_schedule i j k (s := ⟨_, [], []⟩) rfl rfl]
    cases o <;> cases loop <;> cases onLoop <;> exact ⟨_, rfl⟩
  | fail =>
    rw [exec_schedule i j k (s := ⟨_, [], []⟩) rfl rfl]
    cases o <;> cases loop <;> cases onLoop <;> exact ⟨_, rfl⟩

/-- With a loop the posted call is made in a turn. -/
theorem exec_settleFirst {actions : List Action} (h : SettleFirst actions) :
    ∃ self, exec (Ops.value moved) r true o actions = .ok ⟨self, [], expected r o⟩ := by
  obtain ⟨onLoop, i, j, k, rfl⟩ := h
  cases o with
  | ok arg =>
    rw [exec_schedule i j k (s := ⟨_, [], []⟩) rfl rfl]
    cases r <;> exact ⟨_, rfl⟩
  | error failure =>
    rw [exec_schedule i j k (s := ⟨_, [], []⟩) rfl rfl]
    cases r <;> exact ⟨_, rfl⟩

theorem exec_settleFirst_noLoop {actions : List Action} (h : SettleFirst actions) :
    exec (Ops.value moved) r false o actions = .error .nullLoop ∨
      r = .fail ∧ ∃ arg, o = .ok arg := by
  obtain ⟨onLoop, i, j, k, rfl⟩ := h
  cases o with
  | ok arg =>
    rw [exec_schedule i j k (s := ⟨_, [], []⟩) rfl rfl]
    cases r with
    | then_ callback => exact Or.inl rfl
    | fail => exact Or.inr ⟨rfl, arg, rfl⟩
  | error failure =>
    rw [exec_schedule i j k (s := ⟨_, [], []⟩) rfl rfl]
    cases r <;> exact Or.inl rfl

/-- A resolved `Then` has nothing for the function given to `fail`. -/
theorem exec_fail_ok (arg : Arg) {actions : List Action} (h : SettleFirst actions) :
    ∃ self, exec (Ops.value moved) (.fail : Registration Arg Return) false (.ok arg) actions =
      .ok ⟨self, [], []⟩ := by
  obtain ⟨onLoop, i, j, k, rfl⟩ := h
  rw [exec_schedule i j k (s := ⟨_, [], []⟩) rfl rfl]
  exact ⟨_, rfl⟩

/-- With a loop the two runs do the same. Without one the settled `Then`
dereferences a null loop unless it has nothing to post. -/
theorem sameRuns_value (loop : Bool) :
    SameRuns (Ops.value moved) r loop o ↔ loop = true ∨ r = .fail ∧ ∃ arg, o = .ok arg := by
  constructor
  · intro h
    cases loop with
    | true => exact Or.inl rfl
    | false =>
      obtain ⟨s, s', -, hs', -⟩ := h _ _ ⟨false, 0, 0, 0, rfl⟩ ⟨false, 0, 0, 0, rfl⟩
      rcases exec_settleFirst_noLoop moved r o ⟨false, 0, 0, 0, rfl⟩ with hnull | hcond
      · rw [hnull] at hs'
        cases hs'
      · exact Or.inr hcond
  · intro h before after hb ha
    obtain ⟨self, hself⟩ := exec_registerFirst moved r o loop hb
    rcases h with rfl | ⟨rfl, arg, rfl⟩
    · obtain ⟨self', hself'⟩ := exec_settleFirst moved r o ha
      exact ⟨_, _, hself, hself', rfl, rfl, rfl⟩
    · cases loop with
      | true =>
        obtain ⟨self', hself'⟩ := exec_settleFirst moved .fail (.ok arg) ha
        exact ⟨_, _, hself, hself', rfl, rfl, rfl⟩
      | false =>
        obtain ⟨self', hself'⟩ := exec_fail_ok moved arg ha
        exact ⟨_, _, hself, hself', rfl, rfl, rfl⟩

end

/-! ## From one class to the other -/

/-- `f` takes the operations of one class to those of another. -/
structure Hom (ops : Ops T Arg Return) (ops' : Ops T' Arg Return) (f : T → T') : Prop where
  init : f ops.init = ops'.init
  then_ : ∀ next fail loop t,
    ops'.then_ next fail loop (f t) = (ops.then_ next fail loop t).map (Prod.map f id)
  fail : ∀ func loop t, ops'.fail func loop (f t) = (ops.fail func loop t).map (Prod.map f id)
  settle : ∀ o t, ops'.settle o (f t) = Prod.map f id (ops.settle o t)

def State.map (f : T → T') (s : State T Arg Return) : State T' Arg Return :=
  ⟨f s.self, s.events, s.log⟩

section
variable {ops : Ops T Arg Return} {ops' : Ops T' Arg Return} {f : T → T'} (hom : Hom ops ops' f)
  (r : Registration Arg Return) (loop : Bool) (o : Outcome Arg)
include hom

theorem register_map (t : T) :
    register ops' r loop (f t) = (register ops r loop t).map (Prod.map f id) := by
  cases r with
  | then_ callback => exact hom.then_ callback .forward loop t
  | fail => exact hom.fail .handler loop t

theorem act_map (s : State T Arg Return) (a : Action) :
    act ops' r loop o (s.map f) a = (act ops r loop o s a).map (State.map f) := by
  cases a with
  | register =>
    have hreg := register_map hom r loop s.self
    simp only [act, State.map, hreg]
    cases register ops r loop s.self <;> rfl
  | settle onLoop =>
    have hsettle := hom.settle o s.self
    simp only [act, State.map, hsettle]
    obtain ⟨self, call⟩ := ops.settle o s.self
    cases call with
    | none => rfl
    | some call =>
      simp only [Prod.map_apply, id]
      split <;> rfl
  | turn => rfl

theorem exec_map (actions : List Action) :
    exec ops' r loop o actions = (exec ops r loop o actions).map (State.map f) := by
  have hfold : ∀ s, actions.foldlM (act ops' r loop o) (State.map f s) =
      (actions.foldlM (act ops r loop o) s).map (State.map f) := by
    induction actions with
    | nil => exact fun s => rfl
    | cons a actions ih =>
      intro s
      rw [List.foldlM_cons, List.foldlM_cons, act_map hom]
      cases act ops r loop o s a with
      | error e => rfl
      | ok s' => exact ih s'
  have hinit := hfold ⟨ops.init, [], []⟩
  rwa [State.map, hom.init] at hinit

theorem exec_ok_iff (actions : List Action) (s' : State T' Arg Return) :
    exec ops' r loop o actions = .ok s' ↔ ∃ s, exec ops r loop o actions = .ok s ∧ s.map f = s' := by
  rw [exec_map hom]
  cases exec ops r loop o actions with
  | error e => simp [Except.map]
  | ok s =>
    constructor
    · intro h
      exact ⟨s, rfl, Except.ok.inj h⟩
    · rintro ⟨_, h, rfl⟩
      cases h
      rfl

theorem sameRuns_iff_of_hom : SameRuns ops r loop o ↔ SameRuns ops' r loop o := by
  constructor
  · intro h before after hb ha
    obtain ⟨s, s', hs, hs', hrest⟩ := h before after hb ha
    exact ⟨s.map f, s'.map f, (exec_ok_iff hom r loop o _ _).mpr ⟨s, hs, rfl⟩,
      (exec_ok_iff hom r loop o _ _).mpr ⟨s', hs', rfl⟩, hrest⟩
  · intro h before after hb ha
    obtain ⟨_, _, hs, hs', hrest⟩ := h before after hb ha
    obtain ⟨t, ht, rfl⟩ := (exec_ok_iff hom r loop o _ _).mp hs
    obtain ⟨t', ht', rfl⟩ := (exec_ok_iff hom r loop o _ _).mp hs'
    exact ⟨t, t', ht, ht', hrest⟩

end

theorem hom_void : Hom (.void : Ops _ Unit Return) (.value id) ThenVoid.toThen where
  init := rfl
  then_ next fail loop t := by
    simp only [Ops.void, Ops.value, ThenVoid.toThen_then]
    cases t.then_ next fail loop <;> rfl
  fail func loop t := by
    simp only [Ops.void, Ops.value, ThenVoid.toThen_fail]
    cases t.fail func loop <;> rfl
  settle o t := ThenVoid.toThen_settle o t

theorem sameRuns_void (r : Registration Unit Return) (o : Outcome Unit) (loop : Bool) :
    SameRuns Ops.void r loop o ↔ loop = true ∨ r = .fail ∧ ∃ arg, o = .ok arg :=
  (sameRuns_iff_of_hom hom_void r loop o).trans (sameRuns_value id r o loop)

/-! ## The law -/

/-- In both classes the order makes no difference if and only if the registering
thread has a loop or the registration has nothing to post. -/
theorem order_iff (moved : Arg → Arg) (loop : Bool) :
    (∀ (r : Registration Arg Return) (o : Outcome Arg), SameRuns (Ops.value moved) r loop o ↔
      loop = true ∨ r = .fail ∧ ∃ arg, o = .ok arg) ∧
    (∀ (r : Registration Unit Return) (o : Outcome Unit), SameRuns Ops.void r loop o ↔
      loop = true ∨ r = .fail ∧ ∃ arg, o = .ok arg) :=
  ⟨fun r o => sameRuns_value moved r o loop, fun r o => sameRuns_void r o loop⟩

/-- A thread without a loop: the function given to `fail` first is called with
the failure, after the `reject` the null loop is dereferenced. -/
theorem order_noLoop :
    (exec (.value id : Ops _ Nat Unit) .fail false (.error "x")
      (schedule .register (.settle false) 0 0 0)).map State.log = .ok [.failed "x"] ∧
    (exec (.value id : Ops _ Nat Unit) .fail false (.error "x")
      (schedule (.settle false) .register 0 0 0)).map State.log = .error .nullLoop ∧
    ¬ SameRuns (.value id : Ops _ Nat Unit) .fail false (.error "x") := by
  refine ⟨rfl, rfl, fun h => ?_⟩
  obtain ⟨s, s', -, hs', -⟩ := h _ _ ⟨false, 0, 0, 0, rfl⟩ ⟨false, 0, 0, 0, rfl⟩
  cases hs'

end Reckoning.L3.Order
