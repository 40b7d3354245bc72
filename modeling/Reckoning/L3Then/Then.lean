/-!
# Then

`include/then/Then.h`: the slots of a `Then` and what its four operations do
to them under `mLock`. The functions put into the slots are values of any
types `N` and `F`; what has to be called once the lock is released is a
`Call`, and a list of calls to `post` where the source posts to the loop of
the calling thread.

`Then<void>` is the same class with `mResolved` for an engaged `mArg`
(include/then/Then.h:145-420), so it is `Then Unit`; `ThenVoid` has its own
fields.

A slot that was moved from stays engaged: `moved` is what `std::move` leaves
of a value. A moved-from `std::function` is empty, a moved-from `mFailure` is
the empty string.
-/
namespace Reckoning.L3

/-- mirrors include/then/Then.h:686-693 -/
structure Then (Arg N F : Type) where
  mNext : Option N
  mFail : Option F
  mArg : Option Arg
  /-- `mLoop` can be locked -/
  mLoop : Bool
  mFailure : String
  mFailed : Bool
  deriving DecidableEq, Repr

/-- A function taken out of its slot, with its argument. -/
inductive Call (Arg N F : Type)
  | next (func : N) (arg : Arg)
  | fail (func : F) (failure : String)
  deriving DecidableEq, Repr

/-- `assertion`: `assert(!mFailed || !mArg.has_value())`. `nullLoop`: `loop->post`
on a thread without a loop. -/
inductive ThenFault
  | assertion
  | nullLoop
  deriving DecidableEq, Repr

/-- How a `Then` is settled: `resolve` or `reject`. -/
abbrev Outcome (Arg : Type) := Except String Arg

namespace Then
variable {Arg N F : Type}

def init : Then Arg N F := ⟨none, none, none, false, "", false⟩

/-- A registration. `posts`: what is posted, in order. -/
structure Registered (Arg N F : Type) where
  self : Then Arg N F
  posts : List (Call Arg N F)

/-- The end that every `then` has in common: `next` is its lambda around the
callback, `fail` the one that rejects the `Then` it returns.
mirrors include/then/Then.h:452-467 -/
def then_ (moved : Arg → Arg) (next : N) (fail : F) (loop : Bool) (t : Then Arg N F) :
    Except ThenFault (Registered Arg N F) :=
  if t.mFailed && t.mArg.isSome then .error .assertion
  else if t.mFailed then
    if loop then
      .ok ⟨{ t with mNext := some next, mFail := none, mFailure := "", mLoop := true },
        [.fail fail t.mFailure]⟩
    else .error .nullLoop
  else
    match t.mArg with
    | some arg =>
      if loop then
        .ok ⟨{ t with mNext := none, mFail := some fail, mArg := some (moved arg) }, [.next next arg]⟩
      else .error .nullLoop
    | none => .ok ⟨{ t with mNext := some next, mFail := some fail, mLoop := loop }, []⟩

/-- mirrors include/then/Then.h:615-635 -/
def fail (func : F) (loop : Bool) (t : Then Arg N F) : Except ThenFault (Registered Arg N F) :=
  if t.mFailed && t.mArg.isSome then .error .assertion
  else if t.mFailed then
    if loop then .ok ⟨{ t with mFail := none, mFailure := "" }, [.fail func t.mFailure]⟩
    else .error .nullLoop
  else .ok ⟨{ t with mFail := some func, mLoop := loop }, []⟩

/-- `resolve` up to the call: what it calls, and whether through the loop.
mirrors include/then/Then.h:637-659 -/
def resolve (arg : Arg) (t : Then Arg N F) : Then Arg N F × Option (Bool × Call Arg N F) :=
  match t.mNext with
  | some next => ({ t with mNext := none }, some (t.mLoop, .next next arg))
  | none => ({ t with mArg := some arg }, none)

/-- mirrors include/then/Then.h:661-684 -/
def reject (failure : String) (t : Then Arg N F) : Then Arg N F × Option (Bool × Call Arg N F) :=
  match t.mFail with
  | some fail => ({ t with mFail := none }, some (t.mLoop, .fail fail failure))
  | none => ({ t with mFailed := true, mFailure := failure }, none)

def settle (o : Outcome Arg) (t : Then Arg N F) : Then Arg N F × Option (Bool × Call Arg N F) :=
  match o with
  | .ok arg => t.resolve arg
  | .error failure => t.reject failure

/-! ## What a registration does -/

/-- A registration on a `Then` that is not both failed and resolved, on a thread
with a loop, has three outcomes. -/
theorem then_cases (moved : Arg → Arg) (next : N) (fail : F) {t : Then Arg N F}
    (h : t.mFailed = true → t.mArg = none) :
    (t.mFailed = true ∧ then_ moved next fail true t =
      .ok ⟨{ t with mNext := some next, mFail := none, mFailure := "", mLoop := true },
        [.fail fail t.mFailure]⟩) ∨
    (t.mFailed = false ∧ ∃ arg, t.mArg = some arg ∧ then_ moved next fail true t =
      .ok ⟨{ t with mNext := none, mFail := some fail, mArg := some (moved arg) }, [.next next arg]⟩) ∨
    (t.mFailed = false ∧ t.mArg = none ∧ then_ moved next fail true t =
      .ok ⟨{ t with mNext := some next, mFail := some fail, mLoop := true }, []⟩) := by
  cases hf : t.mFailed with
  | true => exact Or.inl ⟨rfl, by simp [then_, hf, h hf]⟩
  | false =>
    cases ha : t.mArg with
    | some arg => exact Or.inr (Or.inl ⟨rfl, arg, rfl, by simp [then_, hf, ha]⟩)
    | none => exact Or.inr (Or.inr ⟨rfl, rfl, by simp [then_, hf, ha]⟩)

theorem fail_cases (func : F) {t : Then Arg N F} (h : t.mFailed = true → t.mArg = none) :
    (t.mFailed = true ∧ fail func true t =
      .ok ⟨{ t with mFail := none, mFailure := "" }, [.fail func t.mFailure]⟩) ∨
    (t.mFailed = false ∧ fail func true t = .ok ⟨{ t with mFail := some func, mLoop := true }, []⟩) := by
  cases hf : t.mFailed with
  | true => exact Or.inl ⟨rfl, by simp [fail, hf, h hf]⟩
  | false => exact Or.inr ⟨rfl, by simp [fail, hf]⟩

end Then
end Reckoning.L3
