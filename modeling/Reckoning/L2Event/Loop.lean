/-!
# The tables of the event loop

`include/event/Loop.h` and the phases of `Loop::execute` that touch the
descriptor tables (`lib/event/Loop_epoll.cpp`; `lib/event/Loop_kqueue.cpp` has
the same code for them). A callback is a value of any type `α`.

All of this runs under `mMutex`, so a call from another thread or from a
callback falls between two phases. The vectors are lists; an iterator is a
split of the list into what is in front of it and what is not.
-/
namespace Reckoning.L2.EventLoop

abbrev Fd := Int

/-- mirrors include/event/Loop.h:132 -/
structure Flags where
  error : Bool
  read : Bool
  write : Bool
  deriving DecidableEq, Repr

def fdError : Flags := ⟨true, false, false⟩
def fdRead : Flags := ⟨false, true, false⟩
def fdWrite : Flags := ⟨false, false, true⟩

/-- mirrors include/event/Loop.h:167-169 -/
structure Loop (α : Type) where
  mFds : List (Fd × α)
  mPendingFds : List (Fd × α)
  mUpdateFds : List (Fd × Flags)
  mRemovedFds : List Fd
  deriving Repr

def Loop.init {α : Type} : Loop α := ⟨[], [], [], []⟩

variable {α : Type}

/-- The descriptors of a table. -/
def keys {β : Type} (t : List (Fd × β)) : List Fd := t.map Prod.fst

/-- Erase the first entry of `fd`. -/
def eraseFd {β : Type} (fd : Fd) (t : List (Fd × β)) : List (Fd × β) := t.eraseP fun e => e.1 == fd

/-- mirrors include/event/Loop.h:370-416 -/
def addFd (fd : Fd) (flags : Flags) (callback : α) (l : Loop α) : Loop α :=
  { l with
    mPendingFds := l.mPendingFds ++ [(fd, callback)]
    mUpdateFds := if flags.write then l.mUpdateFds ++ [(fd, ⟨false, flags.read, true⟩)] else l.mUpdateFds
    mRemovedFds := l.mRemovedFds.erase fd }

/-- mirrors include/event/Loop.h:418-425 -/
def updateFd (fd : Fd) (flags : Flags) (l : Loop α) : Loop α :=
  { l with mUpdateFds := l.mUpdateFds ++ [(fd, flags)] }

/-- mirrors include/event/Loop.h:444-477 -/
def removeFd (fd : Fd) (l : Loop α) : Loop α where
  mFds := eraseFd fd l.mFds
  mPendingFds := eraseFd fd l.mPendingFds
  mUpdateFds := eraseFd fd l.mUpdateFds
  mRemovedFds := l.mRemovedFds ++ [fd]

/-! ## Processing new descriptors -/

/-- `pastEnd`: `fit` is read at the end of `mFds`. `spin`: out of fuel, never
the answer (`eraseLoop_eq`). -/
inductive Fault
  | pastEnd
  | spin
  deriving DecidableEq, Repr

/-- One turn of the outer loop: the `for` over `mPendingFds`, with `fit` at the
front of `rest` and the entries it has passed in `kept`.
mirrors lib/event/Loop_epoll.cpp:148-155 -/
def eraseRound : List (Fd × α) → List (Fd × α) → List (Fd × α) →
    Except Fault (List (Fd × α) × List (Fd × α))
  | [], kept, rest => .ok (kept, rest)
  | _ :: _, _, [] => .error .pastEnd
  | pending :: ps, kept, e :: rest =>
    if pending.1 = e.1 then eraseRound ps kept rest else eraseRound ps (kept ++ [e]) rest

/-- mirrors lib/event/Loop_epoll.cpp:146-156 -/
def eraseLoop (pending : List (Fd × α)) : Nat → List (Fd × α) → List (Fd × α) →
    Except Fault (List (Fd × α))
  | _, kept, [] => .ok kept
  | 0, _, _ :: _ => .error .spin
  | fuel + 1, kept, e :: rest =>
    match eraseRound pending kept (e :: rest) with
    | .ok (kept, rest) => eraseLoop pending fuel kept rest
    | .error f => .error f

/-- mirrors lib/event/Loop_epoll.cpp:137-160 -/
def processNewFds (l : Loop α) : Except Fault (Loop α) :=
  if l.mPendingFds = [] then .ok l
  else
    match eraseLoop l.mPendingFds l.mFds.length [] l.mFds with
    | .ok kept => .ok { l with mFds := kept ++ l.mPendingFds, mPendingFds := [] }
    | .error f => .error f

instance [DecidableEq α] : DecidableEq (Loop α) := fun a b =>
  decidable_of_iff (a.mFds = b.mFds ∧ a.mPendingFds = b.mPendingFds ∧
    a.mUpdateFds = b.mUpdateFds ∧ a.mRemovedFds = b.mRemovedFds)
    (by cases a; cases b; simp)

/-! ## Dispatching -/

/-- What `processFd` calls. -/
inductive Found (α : Type)
  | none
  | call (callback : α)
  /-- `it->second` is read at the end of `mFds` -/
  | pastEnd
  deriving Repr

/-- The search of `processFd`. On `FdError` the entry is erased first, and
`it->second` is then the callback of the next entry.
mirrors lib/event/Loop_epoll.cpp:79-98 -/
def findFd (fd : Fd) (flags : Flags) : List (Fd × α) → Found α
  | [] => .none
  | e :: rest =>
    if e.1 = fd then
      if flags.error then
        match rest with
        | [] => .pastEnd
        | next :: _ => .call next.2
      else .call e.2
    else findFd fd flags rest

/-- `processFd` up to the call. -/
def processFd (fd : Fd) (flags : Flags) (l : Loop α) : Found α × Loop α :=
  (findFd fd flags l.mFds, if flags.error then { l with mFds := eraseFd fd l.mFds } else l)

/-! ## Lemmas of the tables -/

@[simp] theorem keys_nil {β : Type} : keys ([] : List (Fd × β)) = [] := rfl
@[simp] theorem keys_cons {β : Type} (e : Fd × β) (t : List (Fd × β)) : keys (e :: t) = e.1 :: keys t := rfl
@[simp] theorem keys_append {β : Type} (t u : List (Fd × β)) : keys (t ++ u) = keys t ++ keys u :=
  List.map_append

theorem mem_keys {β : Type} {t : List (Fd × β)} {e : Fd × β} (h : e ∈ t) : e.1 ∈ keys t :=
  List.mem_map_of_mem h

theorem keys_eraseFd_sublist {β : Type} (fd : Fd) (t : List (Fd × β)) :
    (keys (eraseFd fd t)).Sublist (keys t) := (List.eraseP_sublist).map _

/-- Erasing `fd` leaves the other descriptors alone. -/
theorem mem_eraseFd_of_ne {β : Type} {fd : Fd} {t : List (Fd × β)} {e : Fd × β} (h : e.1 ≠ fd) :
    e ∈ eraseFd fd t ↔ e ∈ t := List.mem_eraseP_of_neg (by simpa using h)

theorem mem_keys_eraseFd_of_ne {β : Type} {fd g : Fd} {t : List (Fd × β)} (h : g ≠ fd) :
    g ∈ keys (eraseFd fd t) ↔ g ∈ keys t := by
  simp only [keys, List.mem_map]
  constructor
  · intro hx
    obtain ⟨e, he, rfl⟩ := hx
    exact ⟨e, (mem_eraseFd_of_ne h).mp he, rfl⟩
  · intro hx
    obtain ⟨e, he, rfl⟩ := hx
    exact ⟨e, (mem_eraseFd_of_ne h).mpr he, rfl⟩

/-- Where a descriptor has one entry, erasing it leaves none. -/
theorem not_mem_keys_eraseFd {β : Type} {fd : Fd} {t : List (Fd × β)} (h : (keys t).Nodup) :
    fd ∉ keys (eraseFd fd t) := by
  induction t with
  | nil => simp [eraseFd]
  | cons e t ih =>
    obtain ⟨hnot, hnd⟩ := List.nodup_cons.mp h
    unfold eraseFd at ih ⊢
    by_cases he : e.1 = fd
    · rw [List.eraseP_cons_of_pos (by simpa using he)]
      exact he ▸ hnot
    · rw [List.eraseP_cons_of_neg (by simpa using he), keys_cons, List.mem_cons, not_or]
      exact ⟨fun h' => he h'.symm, ih hnd⟩

end Reckoning.L2.EventLoop
