import Mathlib.Data.List.Nodup
import Mathlib.Data.List.Perm.Subperm
import Reckoning.Core.Bytes
import Reckoning.Core.Monitor

/-!
# The resolver's thread

`include/net/Resolver.h:20-86`, `lib/net/Resolver.cpp`. Any number of threads
call `startRequest` and `shutdown`. The resolver's thread waits for requests,
takes all of them, starts the queries of each, and lets c-ares work until it has
no query left. Then it emits `onComplete` of each response of the batch. A
callback of c-ares emits what its query has found on the response, to which it
has a bare pointer; the batch is what keeps the response alive.

c-ares and `select` are the environment. Labels say what they answer. A query is
called back once, during any call of c-ares (`ares_gethostby…`, `ares_process`).
`ares_fds` returns 0 exactly when no query is left (`Fds`). The literals that
`ares_inet_pton` accepts are parameters (`Pton`).

Left out: the sets of descriptors and the timeout that go from c-ares to
`select`, the log messages, and the handlers of the signals (`L2Event.Signal`).
A handler that runs on the resolver's thread and calls the resolver is one more
thread here. `shutdown` of two threads at a time may find the thread joined
(`thrown`).

A `Request` is one call of `startRequest`; `ticket`, `submitted` and `log` are
ghosts.

* `callerNext_spec`, `workerNext_spec`: everything a statement does.
* `Books`, `At`: what holds at each place of the resolver's thread.
* `outline`, `inductive_asserted`: it holds in every interleaving.

What follows of the runs is the subject of `L4Net.ResolverRuns` and
`L4Net.ResolverLive`.
-/
namespace Reckoning.L4.Resolver
open Reckoning.Monitor

/-! ## The code -/

/-- mirrors include/net/Resolver.h:20-43 -/
structure Request where
  ticket : Nat
  mHostname : Bytes
  deriving DecidableEq, Repr

/-- `ares_gethostbyaddr` and `ares_gethostbyname`, with the family. -/
inductive Lookup
  | byAddr4
  | byAddr6
  | byName4
  | byName6
  deriving DecidableEq, Repr

/-- A call of c-ares, with `req.get()` as its argument. -/
structure Query where
  request : Request
  lookup : Lookup
  deriving DecidableEq, Repr

/-- `h_addrtype` -/
inductive AddrType
  | inet
  | inet6
  | other
  deriving DecidableEq, Repr

/-- What a callback gets: a `status` that is not `ARES_SUCCESS`, or a `hostent`. -/
inductive Answer
  | error (status : Int)
  | host (h_addrtype : AddrType) (h_addr_list : List Bytes)
  deriving DecidableEq, Repr

/-- What is emitted on the signals of a response. -/
inductive Emit
  | mIPv4 (ip : Bytes)
  | mIPv6 (ip : Bytes)
  | mError (msg : String)
  | mComplete
  deriving DecidableEq, Repr

/-- mirrors lib/net/Resolver.cpp:17-39 -/
def callback : Answer → List Emit
  | .error status => [.mError ("error getting response " ++ toString status)]
  | .host .inet h_addr_list => h_addr_list.map .mIPv4
  | .host .inet6 h_addr_list => h_addr_list.map .mIPv6
  | .host .other _ => []

/-- `ares_inet_pton(…) == 1` of the two families -/
structure Pton where
  inet : Bytes → Bool
  inet6 : Bytes → Bool

/-- The queries for a request, in their order. mirrors lib/net/Resolver.cpp:70-77 -/
def queries (pton : Pton) (req : Request) : List Query :=
  if pton.inet req.mHostname then [⟨req, .byAddr4⟩]
  else if pton.inet6 req.mHostname then [⟨req, .byAddr6⟩]
  else [⟨req, .byName4⟩, ⟨req, .byName6⟩]

/-- What the resolver's thread has done outside the lock. -/
inductive Entry
  | query (q : Query)
  | answer (q : Query) (a : Answer)
  | complete (req : Request)
  deriving DecidableEq, Repr

structure Data where
  mRequests : List Request
  mStopped : Bool
  /-- `mThread.joinable()` -/
  joinable : Bool
  /-- the resolver's thread has returned -/
  ended : Bool
  /-- the queries that c-ares has not called back -/
  active : List Query
  log : List Entry
  submitted : List Request
  deriving DecidableEq, Repr

def Data.init : Data := ⟨[], false, true, false, [], [], []⟩

/-- Where a thread that uses the resolver is.
mirrors include/net/Resolver.h:81-86, lib/net/Resolver.cpp:110-120 -/
inductive Caller
  | idle
  | start (hostname : Bytes)
  | push (hostname : Bytes)
  | notify
  | leave
  | stop
  | set
  | unlock
  | join
  | thrown
  deriving DecidableEq, Repr

/-- Where the resolver's thread is; the arguments are its local variables.
mirrors lib/net/Resolver.cpp:42-106 -/
inductive Worker
  | setup
  | lock
  | checkStopped
  /-- `while (mRequests.empty())` -/
  | test
  /-- `wait_for` is about to return -/
  | woken
  | recheckStopped
  /-- `return` with the lock held -/
  | leave
  | take
  | unlock (requests : List Request)
  | query (requests : List Request) (todo : List Query)
  | fds (requests : List Request)
  | select (requests : List Request)
  | process (requests : List Request)
  | complete (rest : List Request)
  | returned
  deriving DecidableEq, Repr

inductive Pc
  | caller (c : Caller)
  | worker (w : Worker)
  deriving DecidableEq, Repr

/-- What a statement does that the code does not decide. -/
inductive Choice
  | go
  | startRequest (hostname : Bytes)
  | shutdown
  /-- both calls of c-ares at the start give `ARES_SUCCESS` -/
  | init (ok : Bool)
  /-- c-ares calls back query `i` of the active ones -/
  | answer (i : Nat) (a : Answer)
  | nfds (n : Nat)
  /-- `select` has not failed -/
  | selected (ok : Bool)
  deriving DecidableEq, Repr

/-- mirrors include/net/Resolver.h:81-86, lib/net/Resolver.cpp:110-120 -/
def callerNext (d : Data) : Caller → Choice → Option (Op × Caller × Data)
  | .idle, .startRequest hostname => some (.plain, .start hostname, d)
  | .idle, .shutdown => some (.plain, if d.joinable then .stop else .idle, d)
  | .start hostname, .go => some (.lock, .push hostname, d)
  | .push hostname, .go =>
    let req : Request := ⟨d.submitted.length, hostname⟩
    some (.plain, .notify,
      { d with mRequests := d.mRequests ++ [req], submitted := d.submitted ++ [req] })
  | .notify, .go => some (.notify, .leave, d)
  | .leave, .go => some (.unlock, .idle, d)
  | .stop, .go => some (.lock, .set, d)
  | .set, .go => some (.plain, .unlock, { d with mStopped := true })
  | .unlock, .go => some (.unlock, .join, d)
  | .join, .go =>
    if !d.joinable then some (.plain, .thrown, d)
    else if d.ended then some (.plain, .idle, { d with joinable := false })
    else none
  | _, _ => none

/-- c-ares calls back the active query `i`. -/
def answer (i : Nat) (a : Answer) (d : Data) : Option Data :=
  d.active[i]?.map fun q =>
    { d with active := d.active.eraseIdx i, log := d.log ++ [.answer q a] }

/-- What `ares_fds` may return. -/
def Fds (n : Nat) (active : List Query) : Prop := n = 0 ↔ active = []

instance (n : Nat) (active : List Query) : Decidable (Fds n active) :=
  inferInstanceAs (Decidable (n = 0 ↔ active = []))

/-- mirrors lib/net/Resolver.cpp:42-106 -/
def workerNext (pton : Pton) (d : Data) : Worker → Choice → Option (Op × Worker × Data)
  | .setup, .init ok =>
    if ok then some (.plain, .lock, d) else some (.plain, .returned, { d with ended := true })
  | .lock, .go => some (.lock, .checkStopped, d)
  | .checkStopped, .go => some (.plain, if d.mStopped then .leave else .test, d)
  | .test, .go =>
    if d.mRequests.isEmpty then some (.wait, .woken, d) else some (.plain, .take, d)
  | .woken, .go => some (.lock, .recheckStopped, d)
  | .recheckStopped, .go => some (.plain, if d.mStopped then .leave else .test, d)
  | .leave, .go => some (.unlock, .returned, { d with ended := true })
  | .take, .go => some (.plain, .unlock d.mRequests, { d with mRequests := [] })
  | .unlock requests, .go =>
    some (.unlock, .query requests (requests.flatMap (queries pton)), d)
  | .query requests (q :: todo), .go =>
    some (.plain, .query requests todo,
      { d with active := d.active ++ [q], log := d.log ++ [.query q] })
  | .query requests [], .go => some (.plain, .fds requests, d)
  | .query requests todo, .answer i a =>
    (answer i a d).map fun d => (.plain, .query requests todo, d)
  | .fds requests, .nfds n =>
    if Fds n d.active then
      some (.plain, if n = 0 then .complete requests else .select requests, d)
    else none
  | .select requests, .selected ok =>
    some (.plain, if ok then .process requests else .complete requests, d)
  | .process requests, .answer i a =>
    (answer i a d).map fun d => (.plain, .process requests, d)
  | .process requests, .go => some (.plain, .fds requests, d)
  | .complete (req :: rest), .go =>
    some (.plain, .complete rest, { d with log := d.log ++ [.complete req] })
  | .complete [], .go => some (.plain, .lock, d)
  | _, _ => none

def next (pton : Pton) : Pc → Data → Choice → Option (Op × Pc × Data)
  | .caller c, d, x => (callerNext d c x).map fun (op, c, d) => (op, .caller c, d)
  | .worker w, d, x => (workerNext pton d w x).map fun (op, w, d) => (op, .worker w, d)

/-- The thread holds `mMutex`. -/
def inside : Pc → Bool
  | .caller (.push _) | .caller .notify | .caller .leave | .caller .set | .caller .unlock => true
  | .worker .checkStopped | .worker .test | .worker .recheckStopped | .worker .leave => true
  | .worker .take | .worker (.unlock _) => true
  | _ => false

def program (pton : Pton) : Program Pc Data Choice := ⟨next pton, inside⟩

variable {T : Type} [DecidableEq T]

/-- `me` is the resolver's thread. -/
def State.init (me : T) : State T Pc Data where
  owner := none
  asleep := []
  pc t := if t = me then .worker .setup else .caller .idle
  data := .init

def resolver (pton : Pton) (me : T) : LTS (State T Pc Data) (Label T Choice) :=
  system (program pton) (· = State.init me)

/-! ## What the log says -/

@[simp] def Entry.completed : Entry → Option Request
  | .complete req => some req
  | _ => none

@[simp] def Entry.made : Entry → Option Query
  | .query q => some q
  | _ => none

@[simp] def Entry.answered : Entry → Option Query
  | .answer q _ => some q
  | _ => none

def completed (log : List Entry) : List Request := log.filterMap Entry.completed
def made (log : List Entry) : List Query := log.filterMap Entry.made
def answered (log : List Entry) : List Query := log.filterMap Entry.answered

@[simp] theorem completed_snoc (log : List Entry) (e : Entry) :
    completed (log ++ [e]) = completed log ++ e.completed.toList := by
  cases e <;> simp [completed]

@[simp] theorem made_snoc (log : List Entry) (e : Entry) :
    made (log ++ [e]) = made log ++ e.made.toList := by
  cases e <;> simp [made]

@[simp] theorem answered_snoc (log : List Entry) (e : Entry) :
    answered (log ++ [e]) = answered log ++ e.answered.toList := by
  cases e <;> simp [answered]

/-- The requests that have been taken and not been completed. -/
def Worker.pending : Worker → List Request
  | .unlock requests | .query requests _ | .fds requests | .select requests => requests
  | .process requests | .complete requests => requests
  | _ => []

/-- Their queries that have not been made. -/
def Worker.todo (pton : Pton) : Worker → List Query
  | .unlock requests => requests.flatMap (queries pton)
  | .query _ todo => todo
  | _ => []

/-- From the first query of a batch until c-ares has none left. -/
def Worker.working : Worker → Bool
  | .query _ _ | .fds _ | .select _ | .process _ => true
  | _ => false

/-- `mStopped` has been found not set under this lock. -/
def Worker.running : Worker → Bool
  | .test | .take => true
  | _ => false

/-! ## One statement -/

variable {pton : Pton} {d d' : Data} {op : Op} {x : Choice}

/-- A statement of a caller. -/
inductive CallerStep (d : Data) : Caller → Op → Caller → Data → Prop
  | moves {c c' : Caller} {op : Op} (keeps : op.Keeps (inside (.caller c)) (inside (.caller c')))
      (awake : op ≠ .wait) : CallerStep d c op c' d
  | push (hostname : Bytes) :
      CallerStep d (.push hostname) .plain .notify
        { d with
          mRequests := d.mRequests ++ [⟨d.submitted.length, hostname⟩]
          submitted := d.submitted ++ [⟨d.submitted.length, hostname⟩] }
  | set : CallerStep d .set .plain .unlock { d with mStopped := true }
  | join (ended : d.ended = true) : CallerStep d .join .plain .idle { d with joinable := false }

theorem callerNext_spec {c c' : Caller} (h : callerNext d c x = some (op, c', d')) :
    CallerStep d c op c' d' := by
  unfold callerNext at h
  split at h
  case h_1 => cases h; exact .moves rfl nofun
  case h_2 => cases h; refine .moves ?_ nofun; split <;> rfl
  case h_3 => cases h; exact .moves ⟨rfl, rfl⟩ nofun
  case h_4 => cases h; exact .push _
  case h_5 => cases h; exact .moves rfl nofun
  case h_6 => cases h; exact .moves ⟨rfl, rfl⟩ nofun
  case h_7 => cases h; exact .moves ⟨rfl, rfl⟩ nofun
  case h_8 => cases h; exact .set
  case h_9 => cases h; exact .moves ⟨rfl, rfl⟩ nofun
  case h_10 =>
    split at h
    · cases h; exact .moves rfl nofun
    · split at h
      · cases h; exact .join ‹_›
      · cases h
  case h_11 => cases h

/-- A statement of the resolver's thread that leaves the data alone. What it says
of a place that is not the statement's is filled in. -/
structure Moves (pton : Pton) (d : Data) (x : Choice) (op : Op) (w w' : Worker) : Prop where
  keeps : op.Keeps (inside (.worker w)) (inside (.worker w')) := by first | rfl | exact ⟨rfl, rfl⟩
  pending : w'.pending = w.pending := by rfl
  todo : w'.todo pton = w.todo pton := by rfl
  running : w'.running = true → w.running = true ∨ d.mStopped = false := by nofun
  settled : w'.working = false → w.working = false ∨ d.active = [] ∨ x = .selected false := by
    first | exact fun _ => .inl rfl | nofun
  active : ∀ requests, w' = .select requests → d.active ≠ [] := by nofun
  leaving : w' = .leave → d.mStopped = true := by nofun
  taking : w' = .take → d.mRequests ≠ [] := by nofun
  waits : op = .wait → w' = .woken ∧ d.mRequests = [] := by nofun
  locks : w = .woken → op = .lock := by first | exact fun _ => rfl | nofun
  runs : w ≠ .returned ∧ w' ≠ .returned := by exact ⟨nofun, nofun⟩

/-- A statement of the resolver's thread. -/
inductive WorkerStep (pton : Pton) (d : Data) (x : Choice) :
    Worker → Op → Worker → Data → Prop
  | moves {w w' : Worker} {op : Op} : Moves pton d x op w w' → WorkerStep pton d x w op w' d
  | failed (hx : x = .init false) :
      WorkerStep pton d x .setup .plain .returned { d with ended := true }
  | leave : WorkerStep pton d x .leave .unlock .returned { d with ended := true }
  | take : WorkerStep pton d x .take .plain (.unlock d.mRequests) { d with mRequests := [] }
  | query (requests : List Request) (q : Query) (todo : List Query) :
      WorkerStep pton d x (.query requests (q :: todo)) .plain (.query requests todo)
        { d with active := d.active ++ [q], log := d.log ++ [.query q] }
  | answer {w : Worker} {i : Nat} {q : Query} (a : Answer) (working : w.working = true)
      (hq : d.active[i]? = some q) (hw : ∀ requests, w ≠ .select requests) :
      WorkerStep pton d x w .plain w
        { d with active := d.active.eraseIdx i, log := d.log ++ [.answer q a] }
  | complete (req : Request) (rest : List Request) :
      WorkerStep pton d x (.complete (req :: rest)) .plain (.complete rest)
        { d with log := d.log ++ [.complete req] }

theorem answer_eq {i : Nat} {a : Answer} (h : answer i a d = some d') :
    ∃ q, d.active[i]? = some q ∧
      d' = { d with active := d.active.eraseIdx i, log := d.log ++ [.answer q a] } := by
  obtain ⟨q, hq, rfl⟩ := Option.map_eq_some_iff.mp h
  exact ⟨q, hq, rfl⟩

theorem workerNext_spec {w w' : Worker} (h : workerNext pton d w x = some (op, w', d')) :
    WorkerStep pton d x w op w' d' := by
  unfold workerNext at h
  split at h
  case h_1 => -- setup
    rename_i ok
    cases ok <;> cases h
    · exact .failed rfl
    · exact .moves {}
  case h_2 | h_5 | h_9 | h_11 | h_16 | h_18 => cases h; exact .moves {}
  case h_3 | h_6 => -- `if (mStopped)`
    cases h
    split
    · exact .moves { leaving := fun _ => ‹_› }
    · exact .moves { running := fun _ => .inr (Bool.eq_false_iff.mpr ‹_›) }
  case h_4 => -- test
    split at h <;> cases h
    · exact .moves { waits := fun _ => ⟨rfl, List.isEmpty_iff.mp ‹_›⟩ }
    · exact .moves { running := fun _ => .inl rfl, taking := fun _ hnil => ‹¬ _› (by simp [hnil]) }
  case h_7 => cases h; exact .leave
  case h_8 => cases h; exact .take
  case h_10 => cases h; exact .query _ _ _
  case h_12 | h_15 => -- a callback
    obtain ⟨d₁, hans, heq⟩ := Option.map_eq_some_iff.mp h
    obtain ⟨q, hq, rfl⟩ := answer_eq hans
    cases heq
    exact .answer _ rfl hq nofun
  case h_13 => -- fds
    split at h
    · rename_i hfds
      cases h
      split
      · exact .moves { settled := fun _ => .inr (.inl (hfds.mp ‹_›)) }
      · exact .moves { active := fun _ _ hact => ‹¬ _› (hfds.mpr hact) }
    · cases h
  case h_14 => -- select
    rename_i ok
    cases h
    cases ok
    · exact .moves { settled := fun _ => .inr (.inr rfl) }
    · exact .moves {}
  case h_17 => cases h; exact .complete _ _
  case h_19 => cases h

theorem next_caller {c : Caller} {pc' : Pc}
    (h : (program pton).next (.caller c) d x = some (op, pc', d')) :
    ∃ c', pc' = .caller c' ∧ CallerStep d c op c' d' := by
  obtain ⟨⟨op, c', d'⟩, h, heq⟩ := Option.map_eq_some_iff.mp h
  cases heq
  exact ⟨c', rfl, callerNext_spec h⟩

theorem next_worker {w : Worker} {pc' : Pc}
    (h : (program pton).next (.worker w) d x = some (op, pc', d')) :
    ∃ w', pc' = .worker w' ∧ WorkerStep pton d x w op w' d' := by
  obtain ⟨⟨op, w', d'⟩, h, heq⟩ := Option.map_eq_some_iff.mp h
  cases heq
  exact ⟨w', rfl, workerNext_spec h⟩

theorem CallerStep.keeps {c c' : Caller} (h : CallerStep d c op c' d') :
    op.Keeps (inside (.caller c)) (inside (.caller c')) := by
  cases h with
  | moves hk => exact hk
  | push | set | join => rfl

theorem WorkerStep.keeps {w w' : Worker} (h : WorkerStep pton d x w op w' d') :
    op.Keeps (inside (.worker w)) (inside (.worker w')) := by
  cases h with
  | moves hm => exact hm.keeps
  | leave => exact ⟨rfl, rfl⟩
  | failed | take | query | answer | complete => rfl

theorem disciplined (pton : Pton) : Disciplined (program pton) := by
  intro pc d x op pc' d' h
  cases pc with
  | caller c =>
    obtain ⟨c', rfl, hstep⟩ := next_caller h
    exact hstep.keeps
  | worker w =>
    obtain ⟨w', rfl, hstep⟩ := next_worker h
    exact hstep.keeps

/-! ## The books of the resolver's thread -/

/-- Every request is completed, taken or waiting, in the order of
`startRequest`. The queries of the taken ones have been made, up to `todo`, and
each is answered or active. -/
structure Books (pton : Pton) (d : Data) (pending : List Request) (todo : List Query) : Prop where
  order : completed d.log ++ pending ++ d.mRequests = d.submitted
  asked : made d.log ++ todo = (completed d.log ++ pending).flatMap (queries pton)
  called : (answered d.log ++ d.active).Perm (made d.log)
  tickets : d.submitted.map Request.ticket = List.range d.submitted.length

theorem books_init : Books pton Data.init [] [] where
  order := rfl
  asked := rfl
  called := .refl _
  tickets := rfl

/-- What is true at each place of the resolver's thread. -/
structure At (pton : Pton) (w : Worker) (d : Data) : Prop where
  books : Books pton d w.pending (w.todo pton)
  running : w.running = true → d.mStopped = false
  active : ∀ requests, w = .select requests → d.active ≠ []
  ended : d.ended = true ↔ w = .returned
  joined : d.joinable = false → d.ended = true
  leaving : w = .leave → d.mStopped = true
  taking : w = .take → d.mRequests ≠ []

theorem books_worker {w w' : Worker} (hb : Books pton d w.pending (w.todo pton))
    (h : WorkerStep pton d x w op w' d') : Books pton d' w'.pending (w'.todo pton) := by
  obtain ⟨horder, hasked, hcalled, htickets⟩ := hb
  cases h with
  | moves hm => rw [hm.pending, hm.todo]; exact ⟨horder, hasked, hcalled, htickets⟩
  | failed | leave => exact ⟨horder, hasked, hcalled, htickets⟩
  | take =>
    refine ⟨by simpa [Worker.pending] using horder, ?_, hcalled, htickets⟩
    simpa [Worker.pending, Worker.todo] using hasked
  | query requests q todo =>
    refine ⟨by simpa [Worker.pending] using horder, ?_, ?_, htickets⟩
    · simpa [Worker.pending, Worker.todo] using hasked
    · simpa [← List.append_assoc] using hcalled.append_right [q]
  | answer a working hq hw =>
    refine ⟨by simpa using horder, by simpa using hasked, ?_, htickets⟩
    obtain ⟨hlt, rfl⟩ := List.getElem?_eq_some_iff.mp hq
    have hmove := List.getElem_cons_eraseIdx_perm hlt
    simpa using (hmove.append_left (answered d.log)).trans hcalled
  | complete req rest =>
    refine ⟨by simpa [Worker.pending] using horder, ?_, by simpa using hcalled, htickets⟩
    simpa [Worker.pending, Worker.todo] using hasked

theorem books_caller {c c' : Caller} {pending : List Request} {todo : List Query}
    (hb : Books pton d pending todo) (h : CallerStep d c op c' d') : Books pton d' pending todo := by
  obtain ⟨horder, hasked, hcalled, htickets⟩ := hb
  cases h with
  | moves hk => exact ⟨horder, hasked, hcalled, htickets⟩
  | push hostname =>
    refine ⟨by simp [← horder], hasked, hcalled, ?_⟩
    simp [htickets, List.range_succ]
  | set | join => exact ⟨horder, hasked, hcalled, htickets⟩

theorem at_worker {w w' : Worker} (ha : At pton w d) (h : WorkerStep pton d x w op w' d') :
    At pton w' d' := by
  refine ⟨books_worker ha.books h, ?_, ?_, ?_, ?_, ?_, ?_⟩
  · intro hr
    cases h with
    | moves hm => exact (hm.running hr).elim ha.running id
    | answer => exact ha.running hr
    | failed | leave | take | query | complete => cases hr
  · intro requests hw
    cases h with
    | moves hm => exact hm.active requests hw
    | answer a working hq hne => exact absurd hw (hne requests)
    | failed | leave | take | query | complete => cases hw
  · cases h with
    | moves hm => exact iff_of_false (fun he => hm.runs.1 (ha.ended.mp he)) hm.runs.2
    | failed | leave => simp
    | answer => exact ha.ended
    | take | query | complete => simpa using ha.ended
  · intro hj
    cases h with
    | failed | leave => rfl
    | moves | take | query | answer | complete => exact ha.joined hj
  · intro hw
    cases h with
    | moves hm => exact hm.leaving hw
    | answer => exact ha.leaving hw
    | failed | leave | take | query | complete => cases hw
  · intro hw
    cases h with
    | moves hm => exact hm.taking hw
    | answer => exact ha.taking hw
    | failed | leave | take | query | complete => cases hw

theorem running_inside {w : Worker} (h : w.running = true) : inside (.worker w) = true := by
  cases w <;> first | rfl | cases h

theorem at_caller {w : Worker} {c c' : Caller} (ha : At pton w d) (h : CallerStep d c op c' d')
    (hout : inside (.caller c) = true → inside (.worker w) = false) : At pton w d' := by
  refine ⟨books_caller ha.books h, ?_, ?_, ?_, ?_, ?_, ?_⟩
  · intro hr
    cases h with
    | moves | push | join => exact ha.running hr
    | set => exact absurd (running_inside hr) (Bool.eq_false_iff.mp (hout rfl))
  · cases h <;> exact ha.active
  · cases h <;> exact ha.ended
  · intro hj
    cases h with
    | join hended => exact hended
    | moves | push | set => exact ha.joined hj
  · intro hw
    cases h with
    | set => rfl
    | moves | push | join => exact ha.leaving hw
  · intro hw
    cases h with
    | push => simp
    | moves | set | join => exact ha.taking hw

/-! ## All threads -/

/-- `I` is asserted of the resolver's thread, which is `me`. -/
def Holds (me : T) (I : Worker → Data → Prop) (t : T) : Pc → Data → Prop
  | .worker w, d => t = me ∧ I w d
  | .caller _, _ => t ≠ me

omit [DecidableEq T] in
theorem outline (me : T) {C : Pc → Data → Choice → Prop} {I : Worker → Data → Prop}
    (hworker : ∀ w w' d d' x op, C (.worker w) d x → WorkerStep pton d x w op w' d' →
      I w d → I w' d')
    (hcaller : ∀ w c c' d d' op, CallerStep d c op c' d' →
      (inside (.caller c) = true → inside (.worker w) = false) → I w d → I w d') :
    Outline (program pton) C (Holds me I) where
  own t pc d x op pc' d' hc hn ha := by
    cases pc with
    | caller c =>
      obtain ⟨c', rfl, -⟩ := next_caller hn
      exact ha
    | worker w =>
      obtain ⟨w', rfl, hstep⟩ := next_worker hn
      exact ⟨ha.1, hworker w w' d d' x op hc hstep ha.2⟩
  other t u pc q d x op pc' d' hut hc hn hout ht hu := by
    cases q with
    | caller => exact hu
    | worker w =>
      cases pc with
      | caller c =>
        obtain ⟨c', rfl, hstep⟩ := next_caller hn
        exact ⟨hu.1, hcaller w c c' d d' op hstep (fun hin => hout (.inl hin)) hu.2⟩
      | worker => exact absurd (hu.1.trans ht.1.symm) hut

theorem at_init : At pton .setup Data.init where
  books := books_init
  running := nofun
  active := nofun
  ended := ⟨nofun, nofun⟩
  joined := nofun
  leaving := nofun
  taking := nofun

theorem asserted_init {me : T} {I : Worker → Data → Prop} (h : I .setup Data.init)
    (s : State T Pc Data) (hs : s = State.init me) : Asserted (program pton) (Holds me I) s := by
  subst hs
  constructor
  · intro t
    by_cases ht : t = me <;> simp [State.init, ht, program, inside]
  · intro t
    by_cases ht : t = me
    · simpa [State.init, ht, Holds] using h
    · simp [State.init, ht, Holds]

theorem inductive_asserted (pton : Pton) (me : T) :
    (resolver pton me).Inductive (Asserted (program pton) (Holds me (At pton))) :=
  (outline me (fun _ _ _ _ _ _ _ hs ha => at_worker ha hs)
    (fun _ _ _ _ _ _ hs hout ha => at_caller ha hs hout)).holds (disciplined pton)
    (asserted_init at_init)

omit [DecidableEq T] in
theorem asserted_me {me : T} {I : Worker → Data → Prop} {s : State T Pc Data}
    (h : Asserted (program pton) (Holds me I) s) : ∃ w, s.pc me = .worker w ∧ I w s.data := by
  have hme := h.holds me
  cases hpc : s.pc me with
  | caller => rw [hpc] at hme; exact absurd rfl hme
  | worker w => rw [hpc] at hme; exact ⟨w, rfl, hme.2⟩

end Reckoning.L4.Resolver
