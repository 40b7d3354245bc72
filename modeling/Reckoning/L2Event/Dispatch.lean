import Reckoning.L2Event.Loop

/-!
# Dispatching a batch of events

The `for` loop of `Loop::execute` over the events that one `epoll_wait` (or
`kevent`) returned. The number of events, the result of draining the wakeup
pipe and the result of `close` on an error event are the same variable `e`
(lib/event/Loop_epoll.cpp:228-254), so the bound of the loop changes under it.

What an event makes the loop do is a `Todo`; the two back ends differ in how
they read it off the event (`epollTodo`, `kqueueTodo`). A callback may do
anything to the state: change the tables, write to the wakeup pipe, change the
rest of the program (`σ`).

* `dispatch_log`: what is carried out is the batch up to and including its
  first event that sets `e`.
* `epoll_kqueue_iff`: the whole batch is dispatched exactly when such an event
  stands nowhere but in the last place.
-/
namespace Reckoning.L2.Dispatch
open Reckoning.L2.EventLoop

variable {α σ : Type}

/-! ## Events -/

/-- An entry of `epevents`; at least one bit is set. -/
structure EpollEvent where
  fd : Fd
  epollin : Bool
  epollout : Bool
  epollerr : Bool
  epollhup : Bool
  epollrdhup : Bool
  reported : epollin || epollout || epollerr || epollhup || epollrdhup

inductive Filter
  | read
  | write
  deriving DecidableEq, Repr

/-- An entry of `kevents`. -/
structure Kevent where
  ident : Fd
  filter : Filter
  evError : Bool

/-- The branches of the loop body. -/
inductive Todo
  | error
  | io (read write : Bool)
  deriving DecidableEq, Repr

/-- mirrors lib/event/Loop_epoll.cpp:229-253 -/
def epollTodo (ev : EpollEvent) : Fd × Todo :=
  (ev.fd,
    if (ev.epollerr || ev.epollhup) && !ev.epollrdhup then .error
    else .io (ev.epollin || ev.epollrdhup) ev.epollout)

/-- mirrors lib/event/Loop_kqueue.cpp:254-289 -/
def kqueueTodo (ev : Kevent) : Fd × Todo :=
  (ev.ident,
    if ev.evError then .error
    else
      match ev.filter with
      | .read => .io true false
      | .write => .io false true)

/-! ## The loop -/

inductive Act
  /-- `epoll_ctl(EPOLL_CTL_DEL)`, `EV_DELETE` -/
  | ctlDel (fd : Fd)
  | processFd (fd : Fd) (flags : Flags)
  | close (fd : Fd)
  | drain
  deriving DecidableEq, Repr

structure State (α σ : Type) where
  loop : Loop α
  /-- the bytes in the wakeup pipe -/
  pipe : Nat
  world : σ

structure Env (α σ : Type) where
  /-- `mWakeup[0]` -/
  wakeup : Fd
  callback : α → Fd → Flags → State α σ → State α σ
  /-- the call through the end of `mFds`, see `findFd` -/
  stale : Fd → Flags → State α σ → State α σ
  /-- `close`, and whether it returns 0 -/
  close : Fd → State α σ → Bool × State α σ

/-- mirrors lib/event/Loop_epoll.cpp:79-98 -/
def runFd (env : Env α σ) (fd : Fd) (flags : Flags) (s : State α σ) : State α σ :=
  let (found, loop) := processFd fd flags s.loop
  match found with
  | .none => { s with loop := loop }
  | .call callback => env.callback callback fd flags { s with loop := loop }
  | .pastEnd => env.stale fd flags { s with loop := loop }

/-- Read single bytes until `read` does not return 1: the pipe is nonblocking,
and empty it says -1. mirrors lib/event/Loop_epoll.cpp:242-245 -/
def drain : Nat → Int × Nat
  | 0 => (-1, 0)
  | n + 1 => drain n

/-- What one event does: `e` after it, what was carried out, and the state. -/
structure Turn (α σ : Type) where
  e : Int
  acts : List Act
  state : State α σ

/-- mirrors lib/event/Loop_epoll.cpp:231-237 -/
def onError (env : Env α σ) (fd : Fd) (s : State α σ) : Turn α σ :=
  let (ok, s') := env.close fd (runFd env fd fdError s)
  ⟨if ok then 0 else -1, [.ctlDel fd, .processFd fd fdError, .close fd], s'⟩

/-- mirrors lib/event/Loop_epoll.cpp:238-249 -/
def onRead (env : Env α σ) (fd : Fd) (e : Int) (s : State α σ) : Turn α σ :=
  if fd = env.wakeup then ⟨(drain s.pipe).1, [.drain], { s with pipe := (drain s.pipe).2 }⟩
  else ⟨e, [.processFd fd fdRead], runFd env fd fdRead s⟩

/-- mirrors lib/event/Loop_epoll.cpp:250-253 -/
def onWrite (env : Env α σ) (fd : Fd) (t : Turn α σ) : Turn α σ :=
  ⟨t.e, t.acts ++ [.processFd fd fdWrite], runFd env fd fdWrite t.state⟩

def body (env : Env α σ) (x : Fd × Todo) (e : Int) (s : State α σ) : Turn α σ :=
  match x.2 with
  | .error => onError env x.1 s
  | .io read write =>
    let t := if read then onRead env x.1 e s else ⟨e, [], s⟩
    if write then onWrite env x.1 t else t

/-- The loop at index `i` with the bound `e`, and the events from there on.
Each act is logged with the index of its event. -/
def dispatch (env : Env α σ) : Nat → Int → List (Fd × Todo) → State α σ →
    List (Nat × Act) × State α σ
  | _, _, [], s => ([], s)
  | i, e, x :: rest, s =>
    if (i : Int) < e then
      let t := body env x e s
      let (log, s') := dispatch env (i + 1) t.e rest t.state
      (t.acts.map (Prod.mk i) ++ log, s')
    else ([], s)

/-- mirrors lib/event/Loop_epoll.cpp:228-254 -/
def epollDispatch (env : Env α σ) (epevents : List EpollEvent) (s : State α σ) :
    List (Nat × Act) × State α σ :=
  dispatch env 0 epevents.length (epevents.map epollTodo) s

/-- mirrors lib/event/Loop_kqueue.cpp:253-290 -/
def kqueueDispatch (env : Env α σ) (kevents : List Kevent) (s : State α σ) :
    List (Nat × Act) × State α σ :=
  dispatch env 0 kevents.length (kevents.map kqueueTodo) s

/-! ## The property and the condition -/

/-- What an event has to lead to. -/
def asked (wakeup : Fd) (x : Fd × Todo) : List Act :=
  match x.2 with
  | .error => [.ctlDel x.1, .processFd x.1 fdError, .close x.1]
  | .io read write =>
    (if read then [if x.1 = wakeup then .drain else .processFd x.1 fdRead] else []) ++
      if write then [.processFd x.1 fdWrite] else []

/-- What was carried out for event `i`. -/
def actsOf (i : Nat) (log : List (Nat × Act)) : List Act :=
  (log.filter fun x => x.1 == i).map Prod.snd

/-- Every event of the batch is dispatched exactly once. -/
def AllDispatched (wakeup : Fd) (xs : List (Fd × Todo)) (log : List (Nat × Act)) : Prop :=
  ∀ i x, xs[i]? = some x → actsOf i log = asked wakeup x

/-- The event sets `e`: a wakeup is drained, a descriptor is closed. -/
def setsE (wakeup : Fd) (x : Fd × Todo) : Bool :=
  match x.2 with
  | .error => true
  | .io read _ => read && x.1 == wakeup

/-- No event but the last one of the batch sets `e`. -/
def LastOnly (wakeup : Fd) (xs : List (Fd × Todo)) : Prop :=
  ∀ i x, xs[i]? = some x → setsE wakeup x → i + 1 = xs.length

/-! ## One event -/

@[simp] theorem drain_eq (n : Nat) : drain n = (-1, 0) := by
  induction n with
  | zero => rfl
  | succ n ih => exact ih

/-- A wakeup leaves the pipe empty. -/
theorem onRead_wakeup (env : Env α σ) (e : Int) (s : State α σ) :
    (onRead env env.wakeup e s).state.pipe = 0 := by
  simp [onRead]

/-- Whatever the callbacks do, an event that is reached is handled as it asks. -/
theorem body_acts (env : Env α σ) (x : Fd × Todo) (e : Int) (s : State α σ) :
    (body env x e s).acts = asked env.wakeup x := by
  obtain ⟨fd, todo⟩ := x
  cases todo with
  | error => rfl
  | io read write =>
    by_cases hw : fd = env.wakeup <;> cases read <;> cases write <;>
      simp [body, asked, onRead, onWrite, hw]

theorem body_e_keeps {env : Env α σ} {x : Fd × Todo} (h : setsE env.wakeup x = false) (e : Int)
    (s : State α σ) : (body env x e s).e = e := by
  obtain ⟨fd, todo⟩ := x
  cases todo with
  | error => cases h
  | io read write =>
    have hr : read = true → fd ≠ env.wakeup := by simpa [setsE] using h
    cases read with
    | false => cases write <;> simp [body, onWrite]
    | true => cases write <;> simp [body, onRead, onWrite, hr rfl]

/-- After an event that sets `e` the bound is 0 or -1. -/
theorem body_e_stops {env : Env α σ} {x : Fd × Todo} (h : setsE env.wakeup x = true) (e : Int)
    (s : State α σ) : (body env x e s).e ≤ 0 := by
  obtain ⟨fd, todo⟩ := x
  cases todo with
  | error =>
    simp only [body, onError]
    split <;> decide
  | io read write =>
    obtain ⟨rfl, rfl⟩ : read = true ∧ fd = env.wakeup := by simpa [setsE] using h
    cases write <;> simp [body, onRead, onWrite]

/-! ## The batch -/

/-- The events up to and including the first one that sets `e`. -/
def executed (wakeup : Fd) : List (Fd × Todo) → List (Fd × Todo)
  | [] => []
  | x :: rest => if setsE wakeup x then [x] else x :: executed wakeup rest

/-- What the events `xs` ask for, from index `i` on. -/
def tagged (wakeup : Fd) : Nat → List (Fd × Todo) → List (Nat × Act)
  | _, [] => []
  | i, x :: rest => (asked wakeup x).map (Prod.mk i) ++ tagged wakeup (i + 1) rest

theorem dispatch_stopped (env : Env α σ) {i : Nat} {e : Int} (h : e ≤ i) (xs : List (Fd × Todo))
    (s : State α σ) : dispatch env i e xs s = ([], s) := by
  cases xs with
  | nil => rfl
  | cons x rest => rw [dispatch, if_neg (by omega)]

/-- **What is dispatched.** From index `i` with the bound still at the end of
the batch, the loop carries out what `executed` leaves of it. -/
theorem dispatch_log (env : Env α σ) : ∀ (xs : List (Fd × Todo)) (i : Nat) (s : State α σ),
    (dispatch env i (i + xs.length : Nat) xs s).1 = tagged env.wakeup i (executed env.wakeup xs)
  | [], _, _ => rfl
  | x :: rest, i, s => by
    have hlt : (i : Int) < ((i + (x :: rest).length : Nat) : Int) := by
      rw [List.length_cons]; omega
    rw [dispatch, if_pos hlt, executed]
    dsimp only
    rw [body_acts]
    cases hst : setsE env.wakeup x with
    | true =>
      have he := body_e_stops hst (i + (x :: rest).length : Nat) s
      rw [dispatch_stopped env (by omega)]
      simp [tagged]
    | false =>
      have hlen : (i + (x :: rest).length : Nat) = i + 1 + rest.length := by
        rw [List.length_cons]; omega
      rw [body_e_keeps hst, hlen, dispatch_log env rest (i + 1)]
      simp [tagged]

theorem actsOf_append (i : Nat) (a b : List (Nat × Act)) :
    actsOf i (a ++ b) = actsOf i a ++ actsOf i b := by
  simp [actsOf]

theorem actsOf_map_mk (i j : Nat) (acts : List Act) :
    actsOf j (acts.map (Prod.mk i)) = if i = j then acts else [] := by
  by_cases h : i = j <;> simp [actsOf, List.filter_map, Function.comp_def, h]

/-- Under an index stands what its event asks for. -/
theorem actsOf_tagged (wakeup : Fd) : ∀ (xs : List (Fd × Todo)) (i j : Nat),
    actsOf (i + j) (tagged wakeup i xs) = (xs[j]?.map (asked wakeup)).getD []
  | [], _, _ => by simp [tagged, actsOf]
  | x :: rest, i, 0 => by
    have hrest : ∀ (ys : List (Fd × Todo)) (k : Nat), i < k → actsOf i (tagged wakeup k ys) = [] := by
      intro ys
      induction ys with
      | nil => exact fun _ _ => rfl
      | cons y ys ih =>
        intro k hk
        rw [tagged, actsOf_append, actsOf_map_mk, if_neg (by omega), ih (k + 1) (by omega)]
        rfl
    rw [tagged, Nat.add_zero, actsOf_append, actsOf_map_mk, if_pos rfl, hrest rest _ (by omega)]
    simp
  | x :: rest, i, j + 1 => by
    rw [tagged, actsOf_append, actsOf_map_mk, if_neg (by omega), List.nil_append,
      show i + (j + 1) = i + 1 + j by omega, actsOf_tagged wakeup rest (i + 1) j]
    simp

theorem executed_of_lastOnly {wakeup : Fd} : ∀ {xs : List (Fd × Todo)}, LastOnly wakeup xs →
    executed wakeup xs = xs
  | [], _ => rfl
  | x :: rest, h => by
    rw [executed]
    split
    · rename_i hst
      have := h 0 x rfl hst
      rw [List.length_eq_zero_iff.mp (show rest.length = 0 by simpa using this.symm)]
    · have hrest : LastOnly wakeup rest := fun i y hi hy => by
        simpa using h (i + 1) y hi hy
      rw [executed_of_lastOnly hrest]

theorem length_executed_le {wakeup : Fd} {x : Fd × Todo} (hst : setsE wakeup x) :
    ∀ {xs : List (Fd × Todo)} {i : Nat}, xs[i]? = some x → (executed wakeup xs).length ≤ i + 1
  | [], _, h => by simp at h
  | y :: rest, 0, h => by
    obtain rfl : y = x := by simpa using h
    rw [executed, if_pos hst]
    simp
  | y :: rest, i + 1, h => by
    rw [executed]
    split
    · simp
    · have hrest : rest[i]? = some x := by simpa using h
      simpa using length_executed_le hst hrest

/-- A batch whose events all ask for something is dispatched in full exactly
when no event but the last one sets `e`. -/
theorem allDispatched_iff (env : Env α σ) {xs : List (Fd × Todo)}
    (hne : ∀ x ∈ xs, asked env.wakeup x ≠ []) (s : State α σ) :
    AllDispatched env.wakeup xs (dispatch env 0 xs.length xs s).1 ↔ LastOnly env.wakeup xs := by
  have hlog := dispatch_log env xs 0 s
  have hacts : ∀ i, actsOf i (dispatch env 0 xs.length xs s).1 =
      ((executed env.wakeup xs)[i]?.map (asked env.wakeup)).getD [] := by
    intro i
    rw [Nat.zero_add] at hlog
    rw [hlog]
    simpa using actsOf_tagged env.wakeup (executed env.wakeup xs) 0 i
  constructor
  · intro hall i x hi hst
    -- otherwise the event after `x` is not reached
    refine Classical.byContradiction fun hlast => ?_
    have hlt : i + 1 < xs.length := by
      have := (List.getElem?_eq_some_iff.mp hi).1
      omega
    have hnext := hall (i + 1) xs[i + 1] (List.getElem?_eq_getElem hlt)
    rw [hacts, List.getElem?_eq_none (length_executed_le hst hi)] at hnext
    exact hne _ (List.getElem_mem hlt) hnext.symm
  · intro hlast i x hi
    rw [hacts, executed_of_lastOnly hlast, hi]
    rfl

theorem asked_epollTodo_ne_nil (wakeup : Fd) (ev : EpollEvent) : asked wakeup (epollTodo ev) ≠ [] := by
  obtain ⟨fd, i, o, err, hup, rdhup, h⟩ := ev
  cases i <;> cases o <;> cases err <;> cases hup <;> cases rdhup <;> simp [asked, epollTodo] at h ⊢

theorem asked_kqueueTodo_ne_nil (wakeup : Fd) (ev : Kevent) : asked wakeup (kqueueTodo ev) ≠ [] := by
  obtain ⟨fd, filter, err⟩ := ev
  cases filter <;> cases err <;> simp [asked, kqueueTodo]

/-- **The batch is dispatched in full** exactly when no event but its last one
is an error or comes from the wakeup pipe, on either back end and whatever the
callbacks do. -/
theorem epoll_kqueue_iff (env : Env α σ) (epevents : List EpollEvent) (kevents : List Kevent)
    (s : State α σ) :
    (AllDispatched env.wakeup (epevents.map epollTodo) (epollDispatch env epevents s).1 ↔
      LastOnly env.wakeup (epevents.map epollTodo)) ∧
    (AllDispatched env.wakeup (kevents.map kqueueTodo) (kqueueDispatch env kevents s).1 ↔
      LastOnly env.wakeup (kevents.map kqueueTodo)) := by
  constructor
  · have hne : ∀ x ∈ epevents.map epollTodo, asked env.wakeup x ≠ [] := by
      simpa using fun ev _ => asked_epollTodo_ne_nil env.wakeup ev
    have h := allDispatched_iff env hne s
    rwa [List.length_map] at h
  · have hne : ∀ x ∈ kevents.map kqueueTodo, asked env.wakeup x ≠ [] := by
      simpa using fun ev _ => asked_kqueueTodo_ne_nil env.wakeup ev
    have h := allDispatched_iff env hne s
    rwa [List.length_map] at h

/-! ## A batch of two -/

/-- Callbacks that do nothing; the wakeup pipe is descriptor 3. -/
def quiet : Env Unit Unit := ⟨3, fun _ _ _ s => s, fun _ _ s => s, fun _ s => (true, s)⟩

def wakeupThenRead : List EpollEvent :=
  [⟨3, true, false, false, false, false, rfl⟩, ⟨5, true, false, false, false, false, rfl⟩]

def oneRegistered : State Unit Unit := ⟨{ Loop.init with mFds := [(5, ())] }, 1, ()⟩

/-- A wakeup in front of a readable descriptor: the descriptor is not looked at. -/
theorem wakeup_drops_read :
    (epollDispatch quiet wakeupThenRead oneRegistered).1 = [(0, .drain)] ∧
    ¬ AllDispatched quiet.wakeup (wakeupThenRead.map epollTodo)
      (epollDispatch quiet wakeupThenRead oneRegistered).1 := by
  have hlog : (epollDispatch quiet wakeupThenRead oneRegistered).1 = [(0, .drain)] := by decide
  refine ⟨hlog, fun h => ?_⟩
  have := h 1 _ rfl
  rw [hlog] at this
  exact absurd this (by decide)

end Reckoning.L2.Dispatch
