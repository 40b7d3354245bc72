import Mathlib.Logic.Function.Basic
import Reckoning.L3Then.Then
import Reckoning.Core.LTS

/-!
# A chain of continuations

`p.then(f 0)...then(f (n - 1)).fail(g)`: link 0 is `p`, link `i + 1` is the
`Then` that the registration of `f i` on link `i` returns
(include/then/Then.h:197-340, 470-635). Link `i` carries values of type `A i`;
a callback that returns `void` has `A (i + 1) = Unit`. A callback is called once
at most, so what it returns may as well be a function of its argument.

User code on the loop's thread makes the `n + 1` registrations in order, at any
time: in an event, inside a callback that runs, before or after `p` is settled.
`p` is settled once, by any thread. A call of another thread is between the lock
of its `Then` and the post while it is in `sending`.

Ghost: `log`, the calls of the callbacks and of `g`.

* `trail`: the calls that a settlement leads to.
* `P`: the calls made are the first ones of the trail of `p`; once everything is
  registered and the loop has nothing left to do, they are all of it.

`ChainRuns` has the invariant and the theorem.
-/
namespace Reckoning.L3.Chain

/-! ## Callbacks -/

/-- The callbacks that are not adopted. -/
inductive Callback (Arg Return : Type)
  /-- a plain value, or `void` -/
  | value (func : Arg → Return)
  | maybeFail (func : Arg → Except String Return)

/-- What the lambda around a callback settles the next link with.
mirrors include/then/Then.h:481-488, :519-526, :559-561, :591-594 -/
def Callback.outcome {Arg Return : Type} (callback : Callback Arg Return) (arg : Arg) :
    Outcome Return :=
  match callback with
  | .value func => .ok (func arg)
  | .maybeFail func =>
    match func arg with
    | .error failure => .error failure
    | .ok result => .ok result

variable {A : Nat → Type}

/-- The callbacks of a chain, and what `std::move` leaves of a value. -/
structure Code (A : Nat → Type) where
  n : Nat
  f : (i : Nat) → Callback (A i) (A (i + 1))
  moved : (i : Nat) → A i → A i

/-! ## The machine -/

/-- The lambdas in `mFail`. -/
inductive FailFn
  /-- `chain->reject(failure)` -/
  | forward
  /-- `g` -/
  | handler
  deriving DecidableEq, Repr

/-- What the loop's thread or its queue has in front of it. -/
inductive Task (A : Nat → Type)
  /-- the lambda in `mNext` of link `i` -/
  | next (i : Nat) (arg : A i)
  /-- `f i` is running -/
  | callback (i : Nat) (arg : A i)
  /-- the lambda in `mFail` of link `i` -/
  | fail (i : Nat) (func : FailFn) (failure : String)
  /-- `resolve` or `reject` on link `i` -/
  | settle (i : Nat) (o : Outcome (A i))
  /-- user code: an event, `g` -/
  | user

inductive Entry (A : Nat → Type)
  | call (i : Nat) (arg : A i)
  | failed (failure : String)

/-- `direct`: a function is called on a thread that is not the loop's. -/
inductive Fault
  | assertion
  | nullLoop
  | direct
  deriving DecidableEq, Repr

structure State (A : Nat → Type) where
  links : (i : Nat) → Then (A i) Unit FailFn
  /-- `mEvents` -/
  events : List (Task A)
  /-- what the loop's thread is in the middle of, innermost first -/
  running : List (Task A)
  /-- calls of other threads that are to be posted -/
  sending : List (Task A)
  registered : Nat
  pOutcome : Option (Outcome (A 0))
  log : List (Entry A)
  fault : Option Fault

inductive Label (A : Nat → Type)
  /-- the next registration -/
  | register
  | settle (onLoop : Bool) (o : Outcome (A 0))
  /-- any thread posts an event of its own -/
  | post
  /-- a call of another thread is posted -/
  | deliver (i : Nat)
  /-- the loop takes the next event -/
  | take
  /-- the library code on top goes on -/
  | run
  /-- the user code on top returns -/
  | ret

def State.init : State A := ⟨fun _ => .init, [], [], [], 0, none, [], none⟩

/-- User code can act on the loop's thread. -/
def UserRuns : List (Task A) → Bool
  | [] => true
  | .callback _ _ :: _ => true
  | .user :: _ => true
  | _ => false

def faultOf : ThenFault → Fault
  | .assertion => .assertion
  | .nullLoop => .nullLoop

def taskOf (i : Nat) : Call (A i) Unit FailFn → Task A
  | .next () arg => .next i arg
  | .fail func failure => .fail i func failure

/-- The call that a settlement leads to: on the loop's thread it is made at
once, with `mLoop` or without; another thread posts it.
mirrors include/then/Then.h:651-658 and include/event/Loop.h:266-275 -/
def send (onLoop : Bool) (call : Bool × Task A) (s : State A) : State A :=
  if onLoop then { s with running := call.2 :: s.running }
  else if call.1 then { s with sending := s.sending ++ [call.2] }
  else { s with fault := some .direct }

def setLink (i : Nat) (link : Then (A i) Unit FailFn) (s : State A) : State A :=
  { s with links := Function.update s.links i link }

def settleLink (onLoop : Bool) (i : Nat) (o : Outcome (A i)) (s : State A) : State A :=
  let (link, call) := (s.links i).settle o
  let s := setLink i link s
  match call with
  | some (loop, c) => send onLoop (loop, taskOf i c) s
  | none => s

/-- A registration on link `i`, with what it posts. -/
def registerOn (i : Nat) (r : Except ThenFault (Then.Registered (A i) Unit FailFn)) (s : State A) :
    State A :=
  match r with
  | .ok r =>
    { setLink i r.self s with
      events := s.events ++ r.posts.map (taskOf i), registered := i + 1 }
  | .error f => { s with fault := some (faultOf f) }

/-- Each of the first `n` registrations is a `then`, the last one is the `fail`.
mirrors include/then/Then.h:470-613 and :615-635 -/
def registration (c : Code A) (i : Nat) (link : Then (A i) Unit FailFn) :
    Except ThenFault (Then.Registered (A i) Unit FailFn) :=
  if i < c.n then link.then_ (c.moved i) () .forward true else link.fail .handler true

def register (c : Code A) (s : State A) : State A :=
  registerOn s.registered (registration c s.registered (s.links s.registered)) s

/-- The library code `t` on top of `rest`. -/
def exec (t : Task A) (rest : List (Task A)) (s : State A) : Option (State A) :=
  match t with
  | .next i arg =>
    some { s with running := .callback i arg :: rest, log := s.log ++ [.call i arg] }
  | .fail i .forward failure => some { s with running := .settle (i + 1) (.error failure) :: rest }
  | .fail _ .handler failure =>
    some { s with running := .user :: rest, log := s.log ++ [.failed failure] }
  | .settle i o => some (settleLink true i o { s with running := rest })
  | .callback _ _ | .user => none

def step (c : Code A) (s : State A) (l : Label A) : Option (State A) :=
  if s.fault.isSome then none
  else
    match l, s.running with
    | .register, stack => if UserRuns stack && s.registered ≤ c.n then some (register c s) else none
    | .settle onLoop o, stack =>
      if (!onLoop || UserRuns stack) && s.pOutcome.isNone then
        some (settleLink onLoop 0 o { s with pOutcome := some o })
      else none
    | .post, _ => some { s with events := s.events ++ [.user] }
    | .deliver i, _ =>
      s.sending[i]?.map fun t =>
        { s with sending := s.sending.eraseIdx i, events := s.events ++ [t] }
    | .take, [] =>
      match s.events with
      | [] => none
      | t :: events => some { s with events := events, running := [t] }
    | .run, t :: rest => exec t rest s
    | .ret, .callback i arg :: rest =>
      some { s with running := .settle (i + 1) ((c.f i).outcome arg) :: rest }
    | .ret, .user :: rest => some { s with running := rest }
    | _, _ => none

def chain (c : Code A) : LTS (State A) (Label A) := .ofFn (· = State.init) (step c)

/-! ## The property -/

/-- The calls that a settlement of link `i` leads to, `k` links before the end:
each callback in turn with the result of the one before, up to the first that
fails, and then `g` with its failure. -/
def trail (c : Code A) : (k i : Nat) → Outcome (A i) → List (Entry A)
  | _, _, .error failure => [.failed failure]
  | 0, _, .ok _ => []
  | k + 1, i, .ok arg => .call i arg :: trail c k (i + 1) ((c.f i).outcome arg)

/-- The calls that the settlement of `p` leads to. -/
def expected (c : Code A) (s : State A) : List (Entry A) :=
  match s.pOutcome with
  | none => []
  | some o => trail c c.n 0 o

/-- The loop has run all there is. -/
def Idle (s : State A) : Prop := s.running = [] ∧ s.events = [] ∧ s.sending = []

structure P (c : Code A) (s : State A) : Prop where
  fault : s.fault = none
  calls : s.log <+: expected c s
  all : s.registered = c.n + 1 → Idle s → s.log = expected c s

end Reckoning.L3.Chain
