import Reckoning.L3Then.Then
import Reckoning.Core.LTS

/-!
# A callback that returns a Then

`chain = p.then(func)` where `func` returns a reference to another `Then`,
`q`: the lambda in `p.mNext` runs `func`, then puts two lambdas into `q` with
`newchain.fail` and `newchain.then`, and the second call makes a `Then<void>`
of its own, `chain2`, which nobody has a reference to
(include/then/Then.h:429-468, 582-613).

The machine has these four objects, the loop of the registering thread with
its posted events, and the calls of other threads that are between the lock of
a `Then` and the post. `p` and `q` are settled at most once, by any thread, at
any time. User code on the loop's thread runs between events, inside `func`
and inside the handlers of `chain`; it may register handlers of its own.

Ghosts: `settled` lists the `resolve` and `reject` calls on `chain`, `stage`
says how far the adoption is, `pOutcome` and `outcome` how `p` and `q` were
settled.

`P` is what the adoption promises in every state, `Keeps` the condition on a
step. `AdoptionSteps` has the invariant, `AdoptionRuns` the theorem about runs.
-/
namespace Reckoning.L3.Adoption

/-- The lambdas in `p.mNext`. -/
inductive PNext
  | adopt
  | other
  deriving DecidableEq, Repr

/-- The lambdas in `q.mNext`: `chain->resolve(arg)` and then `chain2->resolve()`. -/
inductive QNext
  | resolveChain
  | other
  deriving DecidableEq, Repr

/-- The lambdas in `mFail`. -/
inductive FailFn
  | rejectChain
  | rejectChain2
  | other
  deriving DecidableEq, Repr

/-- What the loop's thread or its queue has in front of it. -/
inductive Task (A B : Type)
  | nextP (func : PNext) (arg : A)
  /-- `func` is running -/
  | callback
  /-- `newchain.fail` and what follows it -/
  | adoptFail
  /-- `newchain.then` -/
  | adoptThen
  | nextQ (func : QNext) (arg : B)
  | fail (func : FailFn) (failure : String)
  | resolveChain (arg : B)
  | resolveChain2
  /-- user code: an event, a handler -/
  | user

inductive Stage
  | before
  | returned
  | failDone
  | adopted
  deriving DecidableEq, Repr

/-- `direct`: a function is called on a thread that is not the loop's. -/
inductive Fault
  | assertion
  | nullLoop
  | direct
  deriving DecidableEq, Repr

variable {A B : Type}

structure State (A B : Type) where
  p : Then A PNext FailFn
  q : Then B QNext FailFn
  chain : Then B Unit Unit
  chain2 : Then Unit Empty Empty
  /-- `mEvents` -/
  events : List (Task A B)
  /-- what the loop's thread is in the middle of, innermost first -/
  running : List (Task A B)
  /-- calls of other threads that are to be posted -/
  sending : List (Task A B)
  registered : Bool
  pOutcome : Option (Outcome A)
  stage : Stage
  outcome : Option (Outcome B)
  settled : List (Outcome B)
  fault : Option Fault

/-- Who else registers, and how. -/
inductive Site
  | p
  | q
  | chain
  deriving DecidableEq, Repr

inductive Registration
  | then_
  | fail
  deriving DecidableEq, Repr

inductive Label (A B : Type)
  /-- `p.then(func)` -/
  | thenP
  /-- user code registers handlers of its own -/
  | register (site : Site) (how : Registration)
  | settleP (onLoop : Bool) (o : Outcome A)
  | settleQ (onLoop : Bool) (o : Outcome B)
  /-- user code posts an event -/
  | post
  /-- a call of another thread is posted -/
  | deliver (i : Nat)
  /-- the loop takes the next event -/
  | take
  /-- the library code on top goes on -/
  | run
  /-- the user code on top returns -/
  | ret

def State.init : State A B :=
  ⟨.init, .init, .init, .init, [], [], [], false, none, .before, none, [], none⟩

/-! ## The steps -/

/-- User code can act on the loop's thread. -/
def UserRuns : List (Task A B) → Bool
  | [] => true
  | .callback :: _ => true
  | .user :: _ => true
  | _ => false

def faultOf : ThenFault → Fault
  | .assertion => .assertion
  | .nullLoop => .nullLoop

def taskP : Call A PNext FailFn → Task A B
  | .next func arg => .nextP func arg
  | .fail func failure => .fail func failure

def taskQ : Call B QNext FailFn → Task A B
  | .next func arg => .nextQ func arg
  | .fail func failure => .fail func failure

/-- The call that a settlement leads to: on the loop's thread it is made at
once, with `mLoop` or without; another thread posts it.
mirrors include/then/Then.h:651-658 and include/event/Loop.h:266-275 -/
def send (onLoop : Bool) (call : Bool × Task A B) (s : State A B) : State A B :=
  if onLoop then { s with running := call.2 :: s.running }
  else if call.1 then { s with sending := s.sending ++ [call.2] }
  else { s with fault := some .direct }

def settleP (onLoop : Bool) (o : Outcome A) (s : State A B) : State A B :=
  let (p, call) := s.p.settle o
  let s := { s with p := p, pOutcome := some o }
  match call with
  | some (loop, c) => send onLoop (loop, taskP c) s
  | none => s

def settleQ (onLoop : Bool) (o : Outcome B) (s : State A B) : State A B :=
  let (q, call) := s.q.settle o
  let s := { s with q := q, outcome := some o }
  match call with
  | some (loop, c) => send onLoop (loop, taskQ c) s
  | none => s

/-- Put the outcome of a registration on `p` into the state. -/
def registeredP (r : Except ThenFault (Then.Registered A PNext FailFn)) (s : State A B) : State A B :=
  match r with
  | .ok r => { s with p := r.self, events := s.events ++ r.posts.map taskP }
  | .error f => { s with fault := some (faultOf f) }

def registeredQ (r : Except ThenFault (Then.Registered B QNext FailFn)) (s : State A B) : State A B :=
  match r with
  | .ok r => { s with q := r.self, events := s.events ++ r.posts.map taskQ }
  | .error f => { s with fault := some (faultOf f) }

/-- A handler of `chain` is user code. -/
def registeredChain (r : Except ThenFault (Then.Registered B Unit Unit)) (s : State A B) : State A B :=
  match r with
  | .ok r => { s with chain := r.self, events := s.events ++ r.posts.map fun _ => .user }
  | .error f => { s with fault := some (faultOf f) }

/-- What `std::move` leaves of a value of either type. -/
structure Moved (A B : Type) where
  a : A → A
  b : B → B

/-- mirrors include/then/Then.h:429-468 -/
def thenP (moved : Moved A B) (s : State A B) : State A B :=
  registeredP (s.p.then_ moved.a .adopt .rejectChain true) { s with registered := true }

/-- mirrors include/then/Then.h:444-446 -/
def adoptFail (s : State A B) : State A B :=
  registeredQ (s.q.fail .rejectChain true) { s with stage := .failDone }

/-- mirrors include/then/Then.h:447-449, with the void overload (lines 582-613)
for `chain2` -/
def adoptThen (moved : Moved A B) (s : State A B) : State A B :=
  registeredQ (s.q.then_ moved.b .resolveChain .rejectChain2 true) { s with stage := .adopted }

/-- `chain->resolve(arg)`, `chain->reject(failure)`; a handler runs at once. -/
def settleChain (o : Outcome B) (rest : List (Task A B)) (s : State A B) : State A B :=
  let (chain, call) := s.chain.settle o
  { s with
    chain := chain
    settled := s.settled ++ [o]
    running := if call.isSome then .user :: rest else rest }

def settleChain2 (o : Outcome Unit) (rest : List (Task A B)) (s : State A B) : State A B :=
  { s with chain2 := (s.chain2.settle o).1, running := rest }

def register (moved : Moved A B) (site : Site) (how : Registration) (s : State A B) : State A B :=
  match site, how with
  | .p, .then_ => registeredP (s.p.then_ moved.a .other .other true) s
  | .p, .fail => registeredP (s.p.fail .other true) s
  | .q, .then_ => registeredQ (s.q.then_ moved.b .other .other true) s
  | .q, .fail => registeredQ (s.q.fail .other true) s
  | .chain, .then_ => registeredChain (s.chain.then_ moved.b () () true) s
  | .chain, .fail => registeredChain (s.chain.fail () true) s

/-- The library code `t` on top of `rest`. -/
def exec (moved : Moved A B) (t : Task A B) (rest : List (Task A B)) (s : State A B) :
    Option (State A B) :=
  match t with
  | .nextP .adopt _ => some { s with running := .callback :: rest }
  | .nextP .other _ => some { s with running := .user :: rest }
  | .adoptFail => some (adoptFail { s with running := .adoptThen :: rest })
  | .adoptThen => some (adoptThen moved { s with running := rest })
  | .nextQ .resolveChain arg => some { s with running := .resolveChain arg :: .resolveChain2 :: rest }
  | .nextQ .other _ => some { s with running := .user :: rest }
  | .fail .rejectChain failure => some (settleChain (.error failure) rest s)
  | .fail .rejectChain2 failure => some (settleChain2 (.error failure) rest s)
  | .fail .other _ => some { s with running := .user :: rest }
  | .resolveChain arg => some (settleChain (.ok arg) rest s)
  | .resolveChain2 => some (settleChain2 (.ok ()) rest s)
  | .callback | .user => none

def step (moved : Moved A B) (s : State A B) (l : Label A B) : Option (State A B) :=
  if s.fault.isSome then none
  else
    match l, s.running with
    | .thenP, stack => if UserRuns stack && !s.registered then some (thenP moved s) else none
    | .register site how, stack =>
      if UserRuns stack && (site != .chain || s.registered) then some (register moved site how s)
      else none
    | .settleP onLoop o, stack =>
      if (!onLoop || UserRuns stack) && s.pOutcome.isNone then some (settleP onLoop o s) else none
    | .settleQ onLoop o, stack =>
      if (!onLoop || UserRuns stack) && s.outcome.isNone then some (settleQ onLoop o s) else none
    | .post, _ => some { s with events := s.events ++ [.user] }
    | .deliver i, _ =>
      s.sending[i]?.map fun t =>
        { s with sending := s.sending.eraseIdx i, events := s.events ++ [t] }
    | .take, [] =>
      match s.events with
      | [] => none
      | t :: events => some { s with events := events, running := [t] }
    | .run, t :: rest => exec moved t rest s
    | .ret, .callback :: rest => some { s with running := .adoptFail :: rest, stage := .returned }
    | .ret, .user :: rest => some { s with running := rest }
    | _, _ => none

def adoption (moved : Moved A B) : LTS (State A B) (Label A B) := .ofFn (· = State.init) (step moved)

/-! ## The property and the condition -/

/-- The loop has run all there is. -/
def Idle (s : State A B) : Prop := s.running = [] ∧ s.events = [] ∧ s.sending = []

/-- Once the callback has returned `q`: `chain` is settled as `q` is or not at
all, and when the loop has run it is settled exactly as `q` is. -/
structure P (s : State A B) : Prop where
  fault : s.fault = none
  once : s.stage ≠ .before → s.settled = [] ∨ s.settled = s.outcome.toList
  all : s.stage ≠ .before → Idle s → s.settled = s.outcome.toList

/-- A registration does not change what waits in `q`: a value that it takes is
the same after `std::move`, and there is no failure to take. -/
def Leaves (moved : Moved A B) (how : Registration) (q : Then B QNext FailFn) : Prop :=
  (how = .then_ → q.mArg.map moved.b = q.mArg) ∧ (q.mFailed = true → q.mFailure = "")

/-- The handlers of others on `q` keep out of the adoption's way: before it
they take nothing that waits in `q`, and a settlement of `q` finds none of them. -/
def Apart (moved : Moved A B) (s : State A B) : Label A B → Prop
  | .register .q how => s.stage = .adopted ∨ s.stage = .before ∧ Leaves moved how s.q
  | .settleQ _ (.ok _) => s.q.mNext ≠ some .other
  | .settleQ _ (.error _) => s.q.mFail ≠ some .other
  | _ => True

/-- `q` is not rejected once `newchain.then` has replaced its fail handler. -/
def OnTime (s : State A B) : Label A B → Prop
  | .settleQ _ (.error _) => s.q.mFail ≠ some .rejectChain2
  | _ => True

def Keeps (moved : Moved A B) (s : State A B) (l : Label A B) : Prop := Apart moved s l ∧ OnTime s l

end Reckoning.L3.Adoption
