import Reckoning.L3Then.Then
import Reckoning.Core.LTS
import Mathlib.Algebra.Order.Group.Multiset
import Mathlib.Tactic.Abel

/-!
# Pooled jobs and their promises

`Fetch::fetch` and `Decoder::decode` take a `Job` from a `pool::Pool<Job, 10>`
and return a reference to the `Then` inside it. The pool hands out an item as
soon as nobody else holds it, with its `Then` as the last call left it; when
all ten are held it makes an object of its own, which dies with its last
holder (include/pool/Pool.h:50-58).

The machine has the job objects, the calls made so far, the posted events of
the calling thread's loop and the calls of other threads that are still to be
posted. The continuation of call `i` is the number `i`. Ghosts: `last` is the
call that got a job last, `result` what a call's job has been resolved with,
`ran` the continuations that have run, with their arguments.

* `P`: each continuation runs once, with its own result.
* `Keeps`: a continuation is registered on a job that is alive and whose `mArg`
  is the call's own result, or not engaged when there is none yet.
* `isolated`: a run whose steps all meet it keeps `P` in every state.
-/
namespace Reckoning.L5.JobPool
open Reckoning.L3

variable {V : Type}

/-- The size of the pool. mirrors include/net/Fetch.h:45 -/
def poolSize : Nat := 10

/-- mirrors include/net/Fetch.h:26-37 -/
structure Job (V : Type) where
  then_ : Then V Nat Nat
  /-- somebody holds a reference besides the pool -/
  held : Bool
  alive : Bool
  last : Nat

structure Req (V : Type) where
  job : Nat
  /-- the thread that ends the job: the caller's for `Fetch`, the decoder's own -/
  onLoop : Bool
  result : Option V
  registered : Bool

/-- `dangling`: the `Then` is gone. `direct`: a continuation is called on a
thread that is not the loop's. -/
inductive Fault
  | dangling
  | direct
  | registration (f : ThenFault)
  deriving DecidableEq, Repr

structure State (V : Type) where
  jobs : Nat → Job V
  created : Nat
  calls : Nat → Req V
  called : Nat
  /-- `mEvents` -/
  events : List (Nat × V)
  /-- continuations that another thread is about to post -/
  sending : List (Nat × V)
  ran : List (Nat × V)
  fault : Option Fault

inductive Label (V : Type)
  /-- `Fetch::fetch` of a path, with the content of the file -/
  | fetchFile (v : V)
  /-- `Fetch::fetch` of a URI -/
  | fetchHttp
  | decode
  /-- the job of call `i` has its result -/
  | finish (i : Nat) (v : V)
  /-- the last holder of the job of call `i` lets go of it -/
  | release (i : Nat)
  /-- `then` on the reference that call `i` returned -/
  | register (i : Nat)
  /-- a call of another thread is posted -/
  | deliver (n : Nat)
  /-- the loop runs the next event -/
  | run
  deriving DecidableEq

def Job.init : Job V := ⟨.init, false, true, 0⟩

def State.init : State V :=
  ⟨fun _ => .init, poolSize, fun _ => ⟨0, true, none, false⟩, 0, [], [], [], none⟩

/-! ## The steps -/

def setJob (j : Nat) (job : Job V) (s : State V) : State V :=
  { s with jobs := Function.update s.jobs j job }

def setCall (i : Nat) (call : Req V) (s : State V) : State V :=
  { s with calls := Function.update s.calls i call }

/-- The first item that only the pool holds. mirrors include/pool/Pool.h:53-56 -/
def firstFree (jobs : Nat → Job V) : Option Nat :=
  (List.range poolSize).find? fun j => !(jobs j).held

/-- mirrors include/pool/Pool.h:50-58 -/
def get (s : State V) : Nat × State V :=
  match firstFree s.jobs with
  | some j => (j, s)
  | none => (s.created, { setJob s.created .init s with created := s.created + 1 })

/-- The next call holds job `j`. -/
def hold (j : Nat) (onLoop : Bool) (s : State V) : State V :=
  { setJob j { s.jobs j with held := true, last := s.called }
      (setCall s.called ⟨j, onLoop, none, false⟩ s) with called := s.called + 1 }

/-- The start of a call: get a job and hold it. -/
def start (onLoop : Bool) (s : State V) : State V :=
  let (j, s) := get s
  hold j onLoop s

/-- `job->then.resolve` for call `i`; the continuation is run at once on the
loop's thread, and posted from another one. -/
def resolve (i : Nat) (v : V) (onLoop : Bool) (s : State V) : State V :=
  let j := (s.calls i).job
  let (t, call) := (s.jobs j).then_.resolve v
  let s := setJob j { s.jobs j with then_ := t } (setCall i { s.calls i with result := some v } s)
  match call with
  | some (loop, .next k arg) =>
    if onLoop then { s with ran := s.ran ++ [(k, arg)] }
    else if loop then { s with sending := s.sending ++ [(k, arg)] }
    else { s with fault := some .direct }
  | _ => s

/-- Let go of job `j`: an object that is not of the pool dies. -/
def drop (j : Nat) (s : State V) : State V :=
  setJob j { s.jobs j with held := false, alive := decide (j < poolSize) } s

/-- mirrors include/net/Fetch.h:43-66, the branch of a path -/
def fetchFile (v : V) (s : State V) : State V :=
  let i := s.called
  let s := resolve i v true (start true s)
  drop (s.calls i).job s

/-- mirrors include/net/Fetch.h:43-66, the branch of a URI: the handlers hold
the job -/
def fetchHttp (s : State V) : State V := start true s

/-- mirrors include/image/Decoder.h:55-66: `mJobs` holds the job -/
def decode (s : State V) : State V := start false s

/-- What is posted by a registration. -/
def posted : Call V Nat Nat → List (Nat × V)
  | .next k arg => [(k, arg)]
  | .fail _ _ => []

/-- `then` on the reference that call `i` returned. -/
def register (moved : V → V) (i : Nat) (s : State V) : State V :=
  let j := (s.calls i).job
  if (s.jobs j).alive then
    match (s.jobs j).then_.then_ moved i i true with
    | .ok r =>
      { setJob j { s.jobs j with then_ := r.self } (setCall i { s.calls i with registered := true } s)
        with events := s.events ++ r.posts.flatMap posted }
    | .error f => { s with fault := some (.registration f) }
  else { s with fault := some .dangling }

def step (moved : V → V) (s : State V) (l : Label V) : Option (State V) :=
  if s.fault.isSome then none
  else
    match l with
    | .fetchFile v => some (fetchFile v s)
    | .fetchHttp => some (fetchHttp s)
    | .decode => some (decode s)
    | .finish i v =>
      if i < s.called ∧ (s.calls i).result.isNone then some (resolve i v (s.calls i).onLoop s)
      else none
    | .release i =>
      if i < s.called ∧ (s.calls i).result.isSome ∧ (s.jobs (s.calls i).job).held ∧
          (s.jobs (s.calls i).job).last = i then some (drop (s.calls i).job s)
      else none
    | .register i =>
      if i < s.called ∧ (s.calls i).registered = false then some (register moved i s) else none
    | .deliver n =>
      s.sending[n]?.map fun x =>
        { s with sending := s.sending.eraseIdx n, events := s.events ++ [x] }
    | .run =>
      match s.events with
      | [] => none
      | x :: events => some { s with events := events, ran := s.ran ++ [x] }

def jobPool (moved : V → V) : LTS (State V) (Label V) := .ofFn (· = State.init) (step moved)

/-! ## The property and the condition -/

/-- The arguments the continuation of call `i` was called with. -/
def runsOf (i : Nat) (s : State V) : List V :=
  (s.ran.filter fun x => x.1 == i).map Prod.snd

/-- Each continuation has run once with its call's result or not at all; when
the loop has run it has, if it is registered and the result is there. -/
structure P (s : State V) : Prop where
  fault : s.fault = none
  own : ∀ i, runsOf i s = [] ∨ runsOf i s = (s.calls i).result.toList
  all : s.events = [] → s.sending = [] → ∀ i, (s.calls i).registered = true →
    runsOf i s = (s.calls i).result.toList

/-- The job of call `i` is alive and has what the call has: its own result, or
nothing yet. -/
def Current (s : State V) (i : Nat) : Prop :=
  (s.jobs (s.calls i).job).alive = true ∧ (s.jobs (s.calls i).job).then_.mArg = (s.calls i).result

def Keeps (s : State V) : Label V → Prop
  | .register i => Current s i
  | _ => True

/-! ## What is under way -/

/-- The arguments for the continuation of call `i`. -/
def vals (i : Nat) (l : List (Nat × V)) : List V := (l.filter fun x => x.1 == i).map Prod.snd

@[simp] theorem vals_nil (i : Nat) : vals i ([] : List (Nat × V)) = [] := rfl

@[simp] theorem vals_append (i : Nat) (l m : List (Nat × V)) : vals i (l ++ m) = vals i l ++ vals i m := by
  simp [vals]

theorem vals_cons (i : Nat) (x : Nat × V) (l : List (Nat × V)) : vals i (x :: l) = vals i [x] ++ vals i l :=
  vals_append i [x] l

theorem vals_single (i k : Nat) (v : V) : vals i [(k, v)] = if k = i then [v] else [] := by
  by_cases h : k = i <;> simp [vals, h]

theorem vals_eraseIdx {i n : Nat} {x : Nat × V} {l : List (Nat × V)} (h : l[n]? = some x) :
    (vals i (l.eraseIdx n ++ [x]) : Multiset V) = vals i l := by
  obtain ⟨hlt, rfl⟩ := List.getElem?_eq_some_iff.mp h
  refine Multiset.coe_eq_coe.mpr ((List.Perm.filter _ ?_).map _)
  exact (List.perm_append_singleton _ _).trans (List.getElem_cons_eraseIdx_perm hlt)

/-- The runs of the continuation of call `i`, done or under way. -/
def flow (i : Nat) (s : State V) : Multiset V := vals i s.ran + vals i s.events + vals i s.sending

/-- What has to be under way for a call. -/
def due (c : Req V) : Multiset V := if c.registered then c.result.toList else 0

/-! ## Invariant -/

structure Inv (s : State V) : Prop where
  fault : s.fault = none
  created : poolSize ≤ s.created
  /-- calls that have not been made -/
  fresh : ∀ i, s.called ≤ i → (s.calls i).result = none ∧ (s.calls i).registered = false
  range : ∀ i < s.called, (s.calls i).job < s.created
  failed : ∀ j, (s.jobs j).then_.mFailed = false
  /-- a continuation waits in the job that its call holds -/
  slot : ∀ j k, (s.jobs j).then_.mNext = some k → (s.jobs j).held = true ∧ (s.jobs j).last = k ∧
    (s.jobs j).then_.mLoop = true ∧ (s.jobs j).then_.mArg = none ∧
    (s.calls k).registered = true ∧ (s.calls k).result = none
  held : ∀ j, (s.jobs j).held = true →
    (s.jobs j).last < s.called ∧ (s.calls (s.jobs j).last).job = j
  pending : ∀ i < s.called, (s.calls i).result = none →
    (s.jobs (s.calls i).job).held = true ∧ (s.jobs (s.calls i).job).last = i
  waiting : ∀ i < s.called, (s.calls i).registered = true → (s.calls i).result = none →
    (s.jobs (s.calls i).job).then_.mNext = some i
  flow : ∀ i, flow i s = due (s.calls i)

theorem inv_init : Inv (State.init : State V) where
  fault := rfl
  created := Nat.le_refl _
  fresh _ _ := ⟨rfl, rfl⟩
  range _ h := absurd h (Nat.not_lt_zero _)
  failed _ := rfl
  slot _ _ h := by cases h
  held _ h := by cases h
  pending _ h := absurd h (Nat.not_lt_zero _)
  waiting _ h := absurd h (Nat.not_lt_zero _)
  flow _ := rfl

/-! ## The steps keep the invariant -/

/-- The pool gives out a job that no call holds. -/
theorem inv_get {s : State V} (h : Inv s) : Inv (get s).2 ∧ (get s).2.called = s.called ∧
    (get s).1 < (get s).2.created ∧ ((get s).2.jobs (get s).1).held = false := by
  unfold get
  cases hf : firstFree s.jobs with
  | some j =>
    have hfree := List.find?_some hf
    have hlt := List.mem_range.mp (List.mem_of_find?_eq_some hf)
    exact ⟨h, rfl, Nat.lt_of_lt_of_le hlt h.created, by simpa using hfree⟩
  | none =>
    have hne : ∀ i < s.called, (s.calls i).job ≠ s.created := fun i hi => Nat.ne_of_lt (h.range i hi)
    refine ⟨⟨h.fault, Nat.le_succ_of_le h.created, h.fresh, fun i hi => Nat.lt_succ_of_lt (h.range i hi),
      fun j => ?_, fun j k hk => ?_, fun j hj => ?_, fun i hi hr => ?_, fun i hi hg hr => ?_,
      h.flow⟩, rfl, Nat.lt_succ_self _, by simp [setJob, Job.init]⟩
    · by_cases hj : j = s.created
      · subst hj; simp [setJob, Job.init, Then.init]
      · simpa [setJob, hj] using h.failed j
    · by_cases hj : j = s.created
      · subst hj; simp [setJob, Job.init, Then.init] at hk
      · simpa [setJob, hj] using h.slot j k (by simpa [setJob, hj] using hk)
    · by_cases hj' : j = s.created
      · subst hj'; simp [setJob, Job.init] at hj
      · simpa [setJob, hj'] using h.held j (by simpa [setJob, hj'] using hj)
    · simpa [setJob, hne i hi] using h.pending i hi hr
    · simpa [setJob, hne i hi] using h.waiting i hi hg hr

/-- A new call holds a job that no call held. -/
theorem inv_hold {s : State V} {j : Nat} {onLoop : Bool} (h : Inv s) (hj : j < s.created)
    (hfree : (s.jobs j).held = false) : Inv (hold j onLoop s) := by
  -- a job with a continuation, or of a call without a result, is held
  have hslot : ∀ k, (s.jobs j).then_.mNext ≠ some k := fun k hk => by
    have := (h.slot j k hk).1
    rw [hfree] at this; cases this
  have hpend : ∀ i < s.called, (s.calls i).result = none → (s.calls i).job ≠ j := fun i hi hr he => by
    have := (h.pending i hi hr).1
    rw [he, hfree] at this; cases this
  have hcases : ∀ i < s.called + 1, i = s.called ∨ (i < s.called ∧ i ≠ s.called) := fun i hi => by omega
  refine ⟨h.fault, h.created, fun i hi => ?_, fun i hi => ?_, fun j' => ?_, fun j' k hk => ?_,
    fun j' hj' => ?_, fun i hi hr => ?_, fun i hi hg hr => ?_, fun i => ?_⟩
  · have hne : i ≠ s.called := by simp only [hold] at hi; omega
    simpa [hold, setJob, setCall, hne] using h.fresh i (by simp only [hold] at hi; omega)
  · rcases hcases i hi with rfl | ⟨hlt, hne⟩
    · simpa [hold, setJob, setCall] using hj
    · simpa [hold, setJob, setCall, hne] using h.range i hlt
  · by_cases he : j' = j
    · subst he; simpa [hold, setJob, setCall] using h.failed j'
    · simpa [hold, setJob, setCall, he] using h.failed j'
  · by_cases he : j' = j
    · subst he; exact absurd (by simpa [hold, setJob, setCall] using hk) (hslot k)
    · have hk' : (s.jobs j').then_.mNext = some k := by simpa [hold, setJob, setCall, he] using hk
      have hs := h.slot j' k hk'
      have hne : k ≠ s.called := fun hc => by
        have := hs.2.2.2.2.1
        rw [hc, (h.fresh s.called (Nat.le_refl _)).2] at this
        cases this
      simpa [hold, setJob, setCall, he, hne] using hs
  · by_cases he : j' = j
    · subst he; simp [hold, setJob, setCall]
    · have hs := h.held j' (by simpa [hold, setJob, setCall, he] using hj')
      have hne : (s.jobs j').last ≠ s.called := by omega
      simp only [hold, setJob, setCall, Function.update_of_ne he, Function.update_of_ne hne]
      exact ⟨Nat.lt_succ_of_lt hs.1, hs.2⟩
  · rcases hcases i hi with rfl | ⟨hlt, hne⟩
    · simp [hold, setJob, setCall]
    · have hr' : (s.calls i).result = none := by simpa [hold, setJob, setCall, hne] using hr
      simpa [hold, setJob, setCall, hne, hpend i hlt hr'] using h.pending i hlt hr'
  · rcases hcases i hi with rfl | ⟨hlt, hne⟩
    · simp [hold, setJob, setCall] at hg
    · have hr' : (s.calls i).result = none := by simpa [hold, setJob, setCall, hne] using hr
      have hg' : (s.calls i).registered = true := by simpa [hold, setJob, setCall, hne] using hg
      simpa [hold, setJob, setCall, hne, hpend i hlt hr'] using h.waiting i hlt hg' hr'
  · by_cases hne : i = s.called
    · subst hne
      have hfr := h.fresh s.called (Nat.le_refl _)
      have hz : due (s.calls s.called) = 0 := by simp [due, hfr.2]
      exact ((h.flow s.called).trans hz).trans (by simp [hold, setJob, setCall, due])
    · exact (h.flow i).trans (by simp [hold, setJob, setCall, hne])

theorem inv_start {s : State V} {onLoop : Bool} (h : Inv s) : Inv (start onLoop s) := by
  obtain ⟨hg, -, hlt, hfree⟩ := inv_get h
  exact inv_hold hg hlt hfree

/-- What call `i` and the job it got last have to agree on. -/
structure Agree (i : Nat) (job : Job V) (call : Req V) : Prop where
  last : job.last = i
  failed : job.then_.mFailed = false
  slot : ∀ k, job.then_.mNext = some k → k = i ∧ job.held = true ∧ job.then_.mLoop = true ∧
    job.then_.mArg = none ∧ call.registered = true ∧ call.result = none
  pending : call.result = none → job.held = true
  waiting : call.registered = true → call.result = none → job.then_.mNext = some i

theorem Inv.agree {s : State V} (h : Inv s) {i : Nat} (hi : i < s.called)
    (hl : (s.jobs (s.calls i).job).last = i) : Agree i (s.jobs (s.calls i).job) (s.calls i) where
  last := hl
  failed := h.failed _
  slot k hk := by
    have hs := h.slot _ k hk
    obtain rfl : k = i := by rw [← hs.2.1, hl]
    exact ⟨rfl, hs.1, hs.2.2⟩
  pending hr := (h.pending i hi hr).1
  waiting := h.waiting i hi

/-- A step that changes a call and the job it got last, and keeps them in
agreement. No other call has a claim on that job. -/
theorem inv_update {s : State V} (h : Inv s) {i : Nat} (hi : i < s.called)
    (hl : (s.jobs (s.calls i).job).last = i) {job : Job V} {call : Req V}
    (ha : Agree i job call) (hjob : call.job = (s.calls i).job) {events sending ran : List (Nat × V)}
    (hflow : ∀ k, (vals k ran : Multiset V) + vals k events + vals k sending =
      due (Function.update s.calls i call k)) :
    Inv { setJob (s.calls i).job job (setCall i call s) with
      events := events, sending := sending, ran := ran } := by
  -- another call whose last job is this one is not the last to have it
  have hother : ∀ k, k ≠ i → (s.jobs (s.calls k).job).last = k → (s.calls k).job ≠ (s.calls i).job :=
    fun k hne hk he => hne (by rw [← hk, he, hl])
  have hpend : ∀ k < s.called, k ≠ i → (s.calls k).result = none → (s.calls k).job ≠ (s.calls i).job :=
    fun k hk hne hr => hother k hne (h.pending k hk hr).2
  refine ⟨h.fault, h.created, fun k hk => ?_, fun k hk => ?_, fun j => ?_, fun j k hk => ?_,
    fun j hj => ?_, fun k hk hr => ?_, fun k hk hg hr => ?_, hflow⟩
  · have hne : k ≠ i := fun he => absurd hk (by rw [he]; exact Nat.not_le_of_lt hi)
    simpa [setJob, setCall, hne] using h.fresh k hk
  · by_cases hne : k = i
    · subst hne; simpa [setJob, setCall, hjob] using h.range k hk
    · simpa [setJob, setCall, hne] using h.range k hk
  · by_cases he : j = (s.calls i).job
    · subst he; simpa [setJob, setCall] using ha.failed
    · simpa [setJob, setCall, he] using h.failed j
  · by_cases he : j = (s.calls i).job
    · subst he
      obtain ⟨rfl, hs⟩ := ha.slot k (by simpa [setJob, setCall] using hk)
      simpa [setJob, setCall, ha.last] using hs
    · have hs := h.slot j k (by simpa [setJob, setCall, he] using hk)
      have hne : k ≠ i := fun hk => by
        subst hk
        exact he (by rw [← (h.held j hs.1).2, hs.2.1])
      simpa [setJob, setCall, he, hne] using hs
  · by_cases he : j = (s.calls i).job
    · subst he; simpa [setJob, setCall, ha.last, hjob] using hi
    · have hs := h.held j (by simpa [setJob, setCall, he] using hj)
      have hne : (s.jobs j).last ≠ i := fun hc => he (by rw [← hs.2, hc])
      simpa [setJob, setCall, he, hne] using hs
  · by_cases hne : k = i
    · subst hne
      have := ha.pending (by simpa [setJob, setCall] using hr)
      simpa [setJob, setCall, hjob, ha.last] using this
    · have hr' : (s.calls k).result = none := by simpa [setJob, setCall, hne] using hr
      simpa [setJob, setCall, hne, hpend k hk hne hr'] using h.pending k hk hr'
  · by_cases hne : k = i
    · subst hne
      have := ha.waiting (by simpa [setJob, setCall] using hg) (by simpa [setJob, setCall] using hr)
      simpa [setJob, setCall, hjob] using this
    · have hr' : (s.calls k).result = none := by simpa [setJob, setCall, hne] using hr
      have hg' : (s.calls k).registered = true := by simpa [setJob, setCall, hne] using hg
      simpa [setJob, setCall, hne, hpend k hk hne hr'] using h.waiting k hk hg' hr'

/-- How a change of call `i` changes what is due. -/
theorem due_update {s : State V} (h : Inv s) {i : Nat} {call : Req V} {m : Multiset V}
    (hm : due call = m + due (s.calls i)) (k : Nat) :
    due (Function.update s.calls i call k) = (if k = i then m else 0) + flow k s := by
  by_cases hk : k = i
  · subst hk
    rw [Function.update_self, hm, h.flow k, if_pos rfl]
  · rw [Function.update_of_ne hk, h.flow k, if_neg hk, zero_add]

theorem vals_own (i k : Nat) (v : V) : (vals k [(i, v)] : Multiset V) = if k = i then {v} else 0 := by
  rw [vals_single]
  by_cases h : k = i
  · rw [if_pos h.symm, if_pos h]; rfl
  · rw [if_neg fun he => h he.symm, if_neg h]; rfl

/-- Without a continuation the result is stored. -/
theorem resolve_stored {s : State V} {i : Nat} {v : V} {onLoop : Bool}
    (hn : (s.jobs (s.calls i).job).then_.mNext = none) : resolve i v onLoop s =
      setJob (s.calls i).job { s.jobs (s.calls i).job with
        then_ := { (s.jobs (s.calls i).job).then_ with mArg := some v } }
        (setCall i { s.calls i with result := some v } s) := by
  simp [resolve, Then.resolve, hn]

/-- A continuation is taken out and is run or sent. -/
theorem resolve_taken {s : State V} {i k : Nat} {v : V} {onLoop : Bool}
    (hn : (s.jobs (s.calls i).job).then_.mNext = some k)
    (hloop : (s.jobs (s.calls i).job).then_.mLoop = true) : resolve i v onLoop s =
      { setJob (s.calls i).job { s.jobs (s.calls i).job with
          then_ := { (s.jobs (s.calls i).job).then_ with mNext := none } }
          (setCall i { s.calls i with result := some v } s) with
        sending := if onLoop then s.sending else s.sending ++ [(k, v)]
        ran := if onLoop then s.ran ++ [(k, v)] else s.ran } := by
  cases onLoop <;> simp [resolve, Then.resolve, hn, hloop, setJob, setCall]

/-- The job of call `i` is resolved with its result. -/
theorem inv_resolve {s : State V} {i : Nat} {v : V} {onLoop : Bool} (h : Inv s) (hi : i < s.called)
    (hr : (s.calls i).result = none) : Inv (resolve i v onLoop s) := by
  obtain ⟨hheld, hl⟩ := h.pending i hi hr
  have ha := h.agree hi hl
  cases hn : (s.jobs (s.calls i).job).then_.mNext with
  | none =>
    -- nobody has asked yet
    have hg : (s.calls i).registered = false := by
      cases hg : (s.calls i).registered with
      | false => rfl
      | true => rw [ha.waiting hg hr] at hn; cases hn
    have hagree : Agree i { s.jobs (s.calls i).job with
        then_ := { (s.jobs (s.calls i).job).then_ with mArg := some v } }
        { s.calls i with result := some v } :=
      ⟨hl, ha.failed, fun k hk => by simp [hn] at hk, fun hc => by simp at hc,
        fun hc => by simp [hg] at hc⟩
    rw [resolve_stored hn]
    refine inv_update h hi hl hagree rfl fun k => ?_
    have hz : due { s.calls i with result := some v } = 0 + due (s.calls i) := by simp [due, hg]
    rw [due_update h hz k]
    simp [flow, setCall]
  | some k =>
    obtain ⟨rfl, -, hloop, -, hg, -⟩ := ha.slot k hn
    have hd : due { s.calls k with result := some v } = {v} + due (s.calls k) := by
      simp [due, hg, hr]
    have hagree : Agree k { s.jobs (s.calls k).job with
        then_ := { (s.jobs (s.calls k).job).then_ with mNext := none } }
        { s.calls k with result := some v } :=
      ⟨hl, ha.failed, fun k hk => by simp at hk, fun hc => by simp at hc, fun _ hc => by simp at hc⟩
    rw [resolve_taken hn hloop]
    refine inv_update h hi hl hagree rfl fun j => ?_
    rw [due_update h hd j, ← vals_own, flow]
    cases onLoop <;> simp only [if_true, Bool.false_eq_true, if_false, vals_append, ← Multiset.coe_add]
      <;> simp only [setJob, setCall] <;> abel

/-- A job whose last call has its result is let go. -/
theorem inv_drop {s : State V} {i : Nat} (h : Inv s) (hi : i < s.called)
    (hl : (s.jobs (s.calls i).job).last = i) {v : V} (hr : (s.calls i).result = some v) :
    Inv (drop (s.calls i).job s) := by
  have ha := h.agree hi hl
  have hagree : Agree i { s.jobs (s.calls i).job with
      held := false, alive := decide ((s.calls i).job < poolSize) } (s.calls i) :=
    ⟨hl, ha.failed, fun k hk => by simp [(ha.slot k hk).2.2.2.2.2] at hr, fun hc => by simp [hr] at hc,
      ha.waiting⟩
  have hcall : setCall i (s.calls i) s = s := by simp [setCall]
  have hinv : Inv { setJob (s.calls i).job { s.jobs (s.calls i).job with
      held := false, alive := decide ((s.calls i).job < poolSize) } (setCall i (s.calls i) s) with
      events := s.events, sending := s.sending, ran := s.ran } :=
    inv_update h hi hl hagree rfl fun k => by rw [Function.update_eq_self]; exact h.flow k
  rw [hcall] at hinv
  exact hinv

/-- The result of call `i` is taken out of its job, which may have another last
call by now: no continuation waits there. -/
theorem inv_posted {s : State V} (h : Inv s) {i : Nat} (hi : i < s.called) {v : V}
    (hg : (s.calls i).registered = false) (hr : (s.calls i).result = some v)
    (ha : (s.jobs (s.calls i).job).then_.mArg = some v) {t : Then V Nat Nat}
    (hn : t.mNext = none) (hf : t.mFailed = false) :
    Inv { setJob (s.calls i).job { s.jobs (s.calls i).job with then_ := t }
        (setCall i { s.calls i with registered := true } s) with events := s.events ++ [(i, v)] } := by
  have hslot : ∀ k, (s.jobs (s.calls i).job).then_.mNext ≠ some k := fun k hk => by
    rw [(h.slot _ k hk).2.2.2.1] at ha; cases ha
  have hsame : ∀ k, (Function.update s.calls i { s.calls i with registered := true } k).job =
      (s.calls k).job ∧ (Function.update s.calls i { s.calls i with registered := true } k).result =
      (s.calls k).result := fun k => by
    by_cases hne : k = i
    · subst hne; simp
    · simp [hne]
  have hjobs : ∀ j, (Function.update s.jobs (s.calls i).job
      { s.jobs (s.calls i).job with then_ := t } j).held = (s.jobs j).held ∧
      (Function.update s.jobs (s.calls i).job
      { s.jobs (s.calls i).job with then_ := t } j).last = (s.jobs j).last := fun j => by
    by_cases he : j = (s.calls i).job
    · subst he; simp
    · simp [he]
  refine ⟨h.fault, h.created, fun k hk => ?_, fun k hk => ?_, fun j => ?_, fun j k hk => ?_,
    fun j hj => ?_, fun k hk hkr => ?_, fun k hk hkg hkr => ?_, fun k => ?_⟩
  · have hne : k ≠ i := fun he => absurd hk (by rw [he]; exact Nat.not_le_of_lt hi)
    simpa [setJob, setCall, hne] using h.fresh k hk
  · exact (hsame k).1 ▸ h.range k hk
  · by_cases he : j = (s.calls i).job
    · subst he; simpa [setJob, setCall] using hf
    · simpa [setJob, setCall, he] using h.failed j
  · by_cases he : j = (s.calls i).job
    · subst he; simp [setJob, setCall, hn] at hk
    · have hs := h.slot j k (by simpa [setJob, setCall, he] using hk)
      have hne : k ≠ i := fun hki => by
        rw [hki, hr] at hs
        cases hs.2.2.2.2.2
      simpa [setJob, setCall, he, hne] using hs
  · dsimp only [setJob, setCall] at hj ⊢
    rw [(hjobs j).1] at hj
    rw [(hjobs j).2, (hsame _).1]
    exact h.held j hj
  · dsimp only [setJob, setCall] at hkr ⊢
    rw [(hsame k).2] at hkr
    rw [(hsame k).1, (hjobs _).1, (hjobs _).2]
    exact h.pending k hk hkr
  · dsimp only [setJob, setCall] at hkr hkg ⊢
    rw [(hsame k).2] at hkr
    have hne : k ≠ i := fun hki => by rw [hki, hr] at hkr; cases hkr
    rw [Function.update_of_ne hne] at hkg ⊢
    have hw := h.waiting k hk hkg hkr
    have hjob : (s.calls k).job ≠ (s.calls i).job := fun he => hslot k (by rw [← he]; exact hw)
    rw [Function.update_of_ne hjob]
    exact hw
  · have hd : due { s.calls i with registered := true } = {v} + due (s.calls i) := by
      simp [due, hg, hr]
    refine Eq.trans ?_ (due_update h hd k).symm
    rw [← vals_own]
    simp only [flow, setJob, setCall, vals_append, ← Multiset.coe_add]
    abel

/-- A continuation is registered on a job that has what its call has. -/
theorem inv_register {s : State V} {i : Nat} {moved : V → V} (h : Inv s) (hi : i < s.called)
    (hg : (s.calls i).registered = false) (hc : Current s i) : Inv (register moved i s) := by
  obtain ⟨halive, hres⟩ := hc
  have hfailed := h.failed (s.calls i).job
  rw [register, if_pos halive]
  rcases Then.then_cases moved i i (t := (s.jobs (s.calls i).job).then_)
    (fun hf => by rw [hfailed] at hf; cases hf) with ⟨hf, -⟩ | ⟨-, v, harg, heq⟩ | ⟨-, harg, heq⟩
  · rw [hfailed] at hf; cases hf
  · -- the result is there: it is posted
    simp only [heq]
    exact inv_posted h hi hg (hres.symm.trans harg) harg rfl hfailed
  · -- it is not: the continuation waits
    have hr : (s.calls i).result = none := hres.symm.trans harg
    obtain ⟨hheld, hl⟩ := h.pending i hi hr
    have hagree : Agree i { s.jobs (s.calls i).job with then_ := { (s.jobs (s.calls i).job).then_ with
        mNext := some i, mFail := some i, mLoop := true } } { s.calls i with registered := true } := by
      refine ⟨hl, hfailed, fun k hk => ?_, fun _ => hheld, fun _ _ => rfl⟩
      obtain rfl : i = k := by simpa using hk
      exact ⟨rfl, hheld, rfl, harg, rfl, hr⟩
    have hd : due { s.calls i with registered := true } = 0 + due (s.calls i) := by
      simp [due, hg, hr]
    simp only [heq]
    refine inv_update h hi hl hagree rfl fun k => ?_
    rw [due_update h hd k]
    simp [flow, setJob, setCall]

/-- The result of the path branch is there at once. -/
theorem inv_fetchFile {s : State V} {v : V} (h : Inv s) : Inv (fetchFile v s) := by
  have hs : Inv (start true s) := inv_start h
  obtain ⟨-, hcalled, -, -⟩ := inv_get h
  have hlt : s.called < (start true s).called := by
    simp only [start, hold, setJob, setCall, hcalled]
    exact Nat.lt_succ_self _
  have hnew : ((start true s).calls s.called).result = none ∧
      ((start true s).jobs ((start true s).calls s.called).job).last = s.called := by
    simp [start, hold, setJob, setCall, hcalled]
  have hr : Inv (resolve s.called v true (start true s)) := inv_resolve hs hlt hnew.1
  -- resolving leaves the ghosts of the job alone
  have hjob : ((resolve s.called v true (start true s)).calls s.called).job =
      ((start true s).calls s.called).job ∧
      ((resolve s.called v true (start true s)).calls s.called).result = some v ∧
      ((resolve s.called v true (start true s)).jobs ((start true s).calls s.called).job).last = s.called ∧
      (resolve s.called v true (start true s)).called = (start true s).called := by
    cases hn : ((start true s).jobs ((start true s).calls s.called).job).then_.mNext with
    | none => rw [resolve_stored hn]; simp [setJob, setCall, hnew.2]
    | some k => rw [resolve_taken hn (hs.slot _ k hn).2.2.1]; simp [setJob, setCall, hnew.2]
  refine inv_drop hr (by rw [hjob.2.2.2]; exact hlt) ?_ hjob.2.1
  rw [hjob.1]
  exact hjob.2.2.1

/-- Moving continuations on. -/
theorem inv_queues {s : State V} (h : Inv s) {events sending ran : List (Nat × V)}
    (hf : ∀ i, (vals i ran : Multiset V) + vals i events + vals i sending = flow i s) :
    Inv { s with events := events, sending := sending, ran := ran } :=
  ⟨h.fault, h.created, h.fresh, h.range, h.failed, h.slot, h.held, h.pending, h.waiting,
    fun i => (hf i).trans (h.flow i)⟩

theorem inv_step {s s' : State V} {l : Label V} {moved : V → V} (h : Inv s) (hk : Keeps s l)
    (hs : step moved s l = some s') : Inv s' := by
  unfold step at hs
  rw [if_neg (by rw [h.fault]; exact Bool.false_ne_true)] at hs
  cases l with
  | fetchFile v => cases hs; exact inv_fetchFile h
  | fetchHttp => cases hs; exact inv_start h
  | decode => cases hs; exact inv_start h
  | finish i v =>
    dsimp only at hs
    split at hs <;> cases hs
    rename_i hg
    exact inv_resolve h hg.1 (Option.isNone_iff_eq_none.mp hg.2)
  | release i =>
    dsimp only at hs
    split at hs <;> cases hs
    rename_i hg
    obtain ⟨hi, hr, -, hl⟩ := hg
    obtain ⟨v, hr⟩ := Option.isSome_iff_exists.mp hr
    exact inv_drop h hi hl hr
  | register i =>
    dsimp only at hs
    split at hs <;> cases hs
    rename_i hg
    exact inv_register h hg.1 hg.2 hk
  | deliver n =>
    obtain ⟨x, hx, rfl⟩ := Option.map_eq_some_iff.mp hs
    refine inv_queues h fun i => ?_
    have he := vals_eraseIdx (i := i) hx
    rw [flow, ← he, vals_append, vals_append, ← Multiset.coe_add, ← Multiset.coe_add]
    abel
  | run =>
    dsimp only at hs
    split at hs <;> cases hs
    rename_i x events he
    refine inv_queues h fun i => ?_
    rw [flow, he, vals_append, vals_cons i x events, ← Multiset.coe_add, ← Multiset.coe_add]
    abel

theorem guarded (moved : V → V) : (jobPool moved).Guarded Keeps Inv where
  init s hs := by rw [show s = State.init from hs]; exact inv_init
  step _ _ _ h hk hs := inv_step h hk hs

/-- The invariant gives each continuation its own result. -/
theorem p_of_inv {s : State V} (h : Inv s) : P s where
  fault := h.fault
  own i := by
    have hle : (vals i s.ran : Multiset V) ≤ due (s.calls i) := by
      rw [← h.flow i, flow, add_assoc]
      exact Multiset.le_add_right _ _
    have hdue : due (s.calls i) ≤ ((s.calls i).result.toList : Multiset V) := by
      unfold due
      split
      · exact le_refl _
      · exact Multiset.zero_le _
    have hruns := le_trans hle hdue
    cases hr : (s.calls i).result with
    | none =>
      rw [hr] at hruns
      exact Or.inl ((Multiset.coe_eq_zero _).mp (Multiset.le_zero.mp hruns))
    | some v =>
      rw [hr] at hruns
      rcases Multiset.le_singleton.mp hruns with h0 | h1
      · exact Or.inl ((Multiset.coe_eq_zero _).mp h0)
      · exact Or.inr (Multiset.coe_eq_singleton.mp h1)
  all he hs i hg := by
    have hf := h.flow i
    simp only [flow, he, hs, vals_nil, due, hg, if_true, Multiset.coe_nil, add_zero] at hf
    cases hr : (s.calls i).result with
    | none => rw [hr] at hf; exact (Multiset.coe_eq_zero _).mp hf
    | some v => rw [hr] at hf; exact Multiset.coe_eq_singleton.mp hf

/-- **Promise isolation between pooled jobs.** In a run that registers each
continuation on a live job that has what its call has, each one runs once, with
its own result, in every state. -/
theorem isolated {moved : V → V} {t : List (Label V × State V)}
    (ht : (jobPool moved).Trace State.init t) (hk : LTS.AllSteps Keeps State.init t) :
    LTS.AllStates P State.init t :=
  (guarded moved).allStates (fun _ => p_of_inv) ht inv_init hk

/-! ## Two runs -/

instance [DecidableEq V] (s : State V) (i : Nat) : Decidable (Current s i) :=
  inferInstanceAs (Decidable (_ ∧ _))

instance [DecidableEq V] (s : State V) : DecidablePred (Keeps s)
  | .register i => inferInstanceAs (Decidable (Current s i))
  | .fetchFile _ | .fetchHttp | .decode | .finish .. | .release _ | .deliver _ | .run =>
    .isTrue trivial

/-- A moved-from pointer is null, which is 0 here. -/
def null : Nat → Nat := fun _ => 0

/-- A download, a file and a download on one job; the continuation of the file
is registered when the third call has got the job. -/
def mixed : List (Label Nat) :=
  [.fetchHttp, .register 0, .finish 0 7, .release 0, .fetchFile 8, .fetchHttp, .register 1, .run,
    .finish 2 9, .release 2, .register 2, .run]

theorem mixed_runs : (LTS.record (step null) State.init mixed).isSome := by decide +kernel

theorem isolated_mixed :
    LTS.AllStates P State.init ((LTS.record (step null) State.init mixed).get mixed_runs) :=
  isolated (LTS.trace_record mixed_runs) (by decide +kernel)

/-- A file, and then a download on the same job. -/
def fileThenHttp : List (Label Nat) :=
  [.fetchFile 7, .register 0, .run, .fetchHttp, .register 1, .run]

theorem fileThenHttp_runs : (LTS.record (step null) State.init fileThenHttp).isSome := by
  decide +kernel

/-- The continuation of the download has run with a null buffer, and the
download has not ended. -/
theorem isolated_broken : ∃ t, (jobPool null).Trace State.init t ∧ t.map Prod.fst = fileThenHttp ∧
    (LTS.last State.init t).ran = [(0, 7), (1, 0)] ∧
    ((LTS.last State.init t).calls 1).result = none ∧ ¬ LTS.AllStates P State.init t := by
  refine ⟨_, LTS.trace_record fileThenHttp_runs, by decide +kernel, by decide +kernel,
    by decide +kernel, fun h => ?_⟩
  rcases h.last.own 1 with h1 | h1 <;> revert h1 <;> decide +kernel

end Reckoning.L5.JobPool
