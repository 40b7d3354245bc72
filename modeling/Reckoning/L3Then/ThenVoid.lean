import Reckoning.L3Then.Then

/-!
# Then without a value

The class for `ArgType == void` (include/then/Then.h:145-420). It has its own
copy of each operation, with `mResolved` where the other class has an engaged
`mArg`: `toThen` takes one to the other, and every operation with it.
-/
namespace Reckoning.L3

/-- mirrors include/then/Then.h:413-419 -/
structure ThenVoid (N F : Type) where
  mNext : Option N
  mFail : Option F
  /-- `mLoop` can be locked -/
  mLoop : Bool
  mFailure : String
  mResolved : Bool
  mFailed : Bool
  deriving DecidableEq, Repr

namespace ThenVoid
variable {N F : Type}

def init : ThenVoid N F := ⟨none, none, false, "", false, false⟩

/-- A registration. `posts`: what is posted, in order. -/
structure Registered (N F : Type) where
  self : ThenVoid N F
  posts : List (Call Unit N F)

/-- The end that every `then` has in common.
mirrors include/then/Then.h:178-194, :216-233, :254-271, :289-306 and :322-339 -/
def then_ (next : N) (fail : F) (loop : Bool) (t : ThenVoid N F) :
    Except ThenFault (Registered N F) :=
  if t.mFailed && t.mResolved then .error .assertion
  else if t.mFailed then
    if loop then
      .ok ⟨{ t with mNext := some next, mFail := none, mFailure := "", mLoop := true },
        [.fail fail t.mFailure]⟩
    else .error .nullLoop
  else if t.mResolved then
    if loop then .ok ⟨{ t with mNext := none, mFail := some fail }, [.next next ()]⟩
    else .error .nullLoop
  else .ok ⟨{ t with mNext := some next, mFail := some fail, mLoop := loop }, []⟩

/-- mirrors include/then/Then.h:342-362 -/
def fail (func : F) (loop : Bool) (t : ThenVoid N F) : Except ThenFault (Registered N F) :=
  if t.mFailed && t.mResolved then .error .assertion
  else if t.mFailed then
    if loop then .ok ⟨{ t with mFail := none, mFailure := "" }, [.fail func t.mFailure]⟩
    else .error .nullLoop
  else .ok ⟨{ t with mFail := some func, mLoop := loop }, []⟩

/-- mirrors include/then/Then.h:364-386 -/
def resolve (t : ThenVoid N F) : ThenVoid N F × Option (Bool × Call Unit N F) :=
  match t.mNext with
  | some next => ({ t with mNext := none }, some (t.mLoop, .next next ()))
  | none => ({ t with mResolved := true }, none)

/-- mirrors include/then/Then.h:388-411 -/
def reject (failure : String) (t : ThenVoid N F) : ThenVoid N F × Option (Bool × Call Unit N F) :=
  match t.mFail with
  | some fail => ({ t with mFail := none }, some (t.mLoop, .fail fail failure))
  | none => ({ t with mFailed := true, mFailure := failure }, none)

def settle (o : Outcome Unit) (t : ThenVoid N F) : ThenVoid N F × Option (Bool × Call Unit N F) :=
  match o with
  | .ok () => t.resolve
  | .error failure => t.reject failure

/-! ## The other class -/

def toThen (t : ThenVoid N F) : Then Unit N F :=
  ⟨t.mNext, t.mFail, if t.mResolved then some () else none, t.mLoop, t.mFailure, t.mFailed⟩

def Registered.toThen (r : Registered N F) : Then.Registered Unit N F := ⟨r.self.toThen, r.posts⟩

theorem toThen_init : (init : ThenVoid N F).toThen = .init := rfl

theorem toThen_then (next : N) (fail : F) (loop : Bool) (t : ThenVoid N F) :
    t.toThen.then_ id next fail loop = (t.then_ next fail loop).map Registered.toThen := by
  obtain ⟨mNext, mFail, mLoop, mFailure, mResolved, mFailed⟩ := t
  cases mFailed <;> cases mResolved <;> cases loop <;> rfl

theorem toThen_fail (func : F) (loop : Bool) (t : ThenVoid N F) :
    t.toThen.fail func loop = (t.fail func loop).map Registered.toThen := by
  obtain ⟨mNext, mFail, mLoop, mFailure, mResolved, mFailed⟩ := t
  cases mFailed <;> cases mResolved <;> cases loop <;> rfl

theorem toThen_settle (o : Outcome Unit) (t : ThenVoid N F) :
    t.toThen.settle o = ((t.settle o).1.toThen, (t.settle o).2) := by
  obtain ⟨mNext, mFail, mLoop, mFailure, mResolved, mFailed⟩ := t
  cases o with
  | ok arg => cases mNext <;> rfl
  | error failure => cases mFail <;> rfl

end ThenVoid
end Reckoning.L3
