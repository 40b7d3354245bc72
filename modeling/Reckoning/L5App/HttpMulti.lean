import Reckoning.Core.Heap
import Reckoning.L2Event.Interest
import Reckoning.L2Event.Timers
import Reckoning.L5App.HttpHeaders

/-!
# The HTTP client and curl

The calls between `HttpClient`, curl's multi interface and the event loop
(lib/net/HttpClient.cpp:44-59, 106-335, 372-471): any number of clients on one
loop thread, their transfers, the objects that the callbacks get as `void*`, the
descriptors and the timer that curl asks for.

`State.curl` is curl. Its own steps are the labels `socket`, `timer`, `header`,
`body`, `read` and `finish`; they may be taken at any time, for curl calls back
out of most of its functions. What it is relied on for is the guard of these
steps: it calls back for handles that are in the multi and have not finished,
finishes each of them at most once, hands back the pointer last assigned to a
socket, and forgets it with the `CURL_POLL_REMOVE`. Handlers run inside of an
emit, so the calls of users (`init`, `write`, `release`) may come at any time as
well.

The loop closes a descriptor that is removed, be it a socket that curl keeps for
another transfer, and on an error event the descriptor that it is for, whatever
the callback has done in between. `closed` remembers the numbers.

A run ends with a failed assertion, a pointer to a freed object (`fault`), or the
loop reading past the end of its tables (`io.fault`).

What holds of every run is in `L5App.HttpOwners`, `L5App.HttpTransfers` and
`L5App.HttpPolling`.
-/
namespace Reckoning.L5.HttpMulti
open Reckoning.L2
open Reckoning.L2.EventLoop (Fd Flags)
open Reckoning.L2.Timers (Time Timer)
open Reckoning.L5.HttpHeaders (Headers Response)

/-- `CURL*` -/
abbrev Easy := Nat

/-- mirrors lib/net/HttpClient.cpp:29-42 -/
structure HttpConnectionInfo (C : Type) where
  easy : Easy
  /-- a weak pointer -/
  http : C
  status : Nat
  reason : Bytes
  headers : Headers

/-- mirrors lib/net/HttpClient.cpp:62-67 -/
structure HttpSocketInfo (C : Type) where
  easy : Easy
  fd : Fd
  http : C

/-- `what` of the socket callback but for `CURL_POLL_REMOVE` -/
inductive Poll
  | none | input | output | inout
  deriving DecidableEq, Repr

inductive What
  | remove
  | poll (p : Poll)
  deriving DecidableEq, Repr

/-- mirrors lib/net/HttpClient.cpp:69-80 -/
def curlToReckoning : Poll → Flags
  | .input => ⟨false, true, false⟩
  | .output => ⟨false, false, true⟩
  | .inout => ⟨false, true, true⟩
  | .none => ⟨false, false, false⟩

/-! ## The state -/

/-- A handle that is in the multi. `priv` is its `CURLOPT_PRIVATE`, and the data of its callbacks.
`done`: it has been put into the message queue. -/
structure Handle where
  priv : Addr
  done : Bool
  deriving DecidableEq, Repr

/-- A message is the handle and, unless the result is `CURLE_OK`, the text in `error`. -/
structure Curl where
  handles : Easy → Option Handle
  next : Easy
  messages : List (Easy × Option Bytes)
  /-- what each of its sockets is polled for -/
  sockets : Fd → Option Poll
  /-- `curl_multi_assign` -/
  assigned : Fd → Option Addr

/-- What is emitted on the signals of a client, and their disconnection. -/
inductive Emission
  | response (r : Response)
  | body (data : Bytes)
  | error (text : Bytes)
  | complete
  | disconnect
  deriving DecidableEq, Repr

/-- The emission that the transfer of `conn` makes on the signals of `http`. -/
structure Entry (C : Type) where
  conn : Addr
  http : C
  what : Emission

/-- A transfer whose message has been read, with the text of the message. `told`: somebody still
owned the client. -/
structure Ended (C : Type) where
  conn : Addr
  http : C
  error : Option Bytes
  told : Bool

/-- The next statement of `checkMultiInfo`, or none of it. -/
inductive Pc (C : Type)
  | outside
  | check
  | emitError (conn : Addr) (easy : Easy) (http : C) (text : Bytes)
  | emitComplete (conn : Addr) (easy : Easy) (http : C)
  | disconnect (conn : Addr) (easy : Easy) (http : C)
  | remove (conn : Addr) (easy : Easy)
  | free (conn : Addr) (easy : Easy)

inductive Fault
  | dangling
  | freed
  deriving DecidableEq, Repr

structure State (C : Type) where
  curl : Curl
  /-- nobody owns the client any more -/
  released : C → Bool
  mConnectionInfo : C → Option Addr
  conns : Heap (HttpConnectionInfo C)
  infos : Heap (HttpSocketInfo C)
  /-- `tCurlInfo->loop` locks -/
  hasLoop : Bool
  io : Interest.State Unit
  /-- the descriptor of an error event, until the loop closes it -/
  failing : Option Fd
  /-- a ghost: the loop has closed the number, and curl has not opened another socket with it -/
  closed : Fd → Bool
  /-- `tCurlInfo->timer` -/
  timer : Option Nat
  nextTimer : Nat
  timers : Timers.State Nat
  /-- a ghost: the timeout of the last timer callback, and when it was, until the time has come or
  an event has left no transfer. With -1 curl asks for no timer. -/
  asked : Option (Int × Time)
  pc : Pc C
  /-- ghosts: the transfers that curl has got, those that have been ended, and what has been
  emitted -/
  started : List (Addr × C)
  ended : List (Ended C)
  log : List (Entry C)
  fault : Option Fault

inductive Label (C : Type)
  | init (c : C) (added : Bool)
  | write (c : C)
  | release (c : C)
  | socket (easy : Easy) (fd : Fd) (what : What)
  | timer (ms : Int) (now : Time)
  | header (easy : Easy) (line : Bytes)
  | body (easy : Easy) (data : Bytes)
  | read (easy : Easy)
  | finish (easy : Easy) (error : Option Bytes)
  /-- a descriptor's callback has let curl act, which has `running` transfers left -/
  | event (running : Nat)
  /-- the same for an error event, and the `close` behind it -/
  | error (fd : Fd) (running : Nat)
  | close
  | fire (now : Time) (order : List Nat)
  | execute
  /-- a statement of `checkMultiInfo` -/
  | next
  /-- the halves of an iteration -/
  | newFds
  | updates
  /-- curl opens a socket -/
  | opened (fd : Fd)
  | loopGone

def State.init {C : Type} : State C where
  curl := ⟨fun _ => none, 0, [], fun _ => none, fun _ => none⟩
  released _ := false
  mConnectionInfo _ := none
  conns := .empty
  infos := .empty
  hasLoop := true
  io := .init
  failing := none
  closed _ := false
  timer := none
  nextTimer := 0
  timers := ⟨fun _ => ⟨0, 0, .timeout⟩, [], [], none⟩
  asked := none
  pc := .outside
  started := []
  ended := []
  log := []
  fault := none

variable {C : Type}

def State.dangles (s : State C) : State C := { s with fault := some .dangling }

/-! ## The loop -/

def State.addFd (fd : Fd) (flags : Flags) (s : State C) : State C :=
  { s with io := s.io.call (EventLoop.addFd fd flags () s.io.loop) fd (some flags) }

def State.updateFd (fd : Fd) (flags : Flags) (s : State C) : State C :=
  let want := (s.io.want fd).map fun _ => flags
  { s with io := s.io.call (EventLoop.updateFd fd flags s.io.loop) fd want }

def State.removeFd (fd : Fd) (s : State C) : State C :=
  { s with io := s.io.call (EventLoop.removeFd fd s.io.loop) fd none }

/-! ## The callbacks of curl -/

/-- mirrors lib/net/HttpClient.cpp:193-237 -/
def multiSocketCallback (easy : Easy) (socket : Fd) (what : What) (perSocketData : Option Addr)
    (s : State C) : State C :=
  if ¬ s.hasLoop then s
  else
    match what, perSocketData with
    | .remove, none => s.removeFd socket
    | .remove, some p =>
      match s.infos.cells p with
      | none => { s with fault := some .freed }
      | some _ => { s.removeFd socket with infos := s.infos.free p }
    | .poll what, none =>
      match (s.curl.handles easy).bind fun h => s.conns.cells h.priv with
      | none => s.dangles
      | some connInfo =>
        { s.addFd socket (curlToReckoning what) with
          infos := s.infos.alloc ⟨easy, socket, connInfo.http⟩
          curl.assigned := Function.update s.curl.assigned socket (some s.infos.next) }
    | .poll what, some p =>
      match s.infos.cells p with
      | none => s.dangles
      | some socketInfo =>
        if socket ≠ socketInfo.fd then
          -- remove and readd
          { (s.removeFd socket).addFd socket (curlToReckoning what) with
            infos := s.infos.modify p ({ · with fd := socket })
            curl.assigned := Function.update s.curl.assigned socket (some p) }
        else s.updateFd socket (curlToReckoning what)

/-- The callback as curl calls it, and what curl remembers. -/
def socketCallback (easy : Easy) (socket : Fd) (what : What) (s : State C) : State C :=
  let s' := multiSocketCallback easy socket what (s.curl.assigned socket) s
  match what with
  | .remove => { s' with
      curl.sockets := Function.update s'.curl.sockets socket none
      curl.assigned := Function.update s'.curl.assigned socket none }
  | .poll p => { s' with curl.sockets := Function.update s'.curl.sockets socket (some p) }

/-- Nothing when the assertion of `updateTimeout` fails.
mirrors lib/net/HttpClient.cpp:239-256 -/
def multiTimerCallback (timeoutMs : Int) (now : Time) (s : State C) : Option (State C) :=
  if ¬ s.hasLoop then some s
  else
    match s.timer with
    | none =>
      let timers := { s.timers with
        timer := Function.update s.timers.timer s.nextTimer ⟨timeoutMs, 0, .timeout⟩ }
      some { s with
        timer := some s.nextTimer, nextTimer := s.nextTimer + 1
        timers := Timers.addTimer now s.nextTimer timers
        asked := some (timeoutMs, now) }
    | some t =>
      let timers := Timers.stop t s.timers
      if Timers.isActive t timers then none
      else
        some { s with
          timers := Timers.addTimer now t (Timers.updateTimeout timeoutMs t timers)
          asked := some (timeoutMs, now) }

/-- `conn->http.lock()` -/
def State.lock (s : State C) (http : C) : Option C := if s.released http then none else some http

/-- mirrors lib/net/HttpClient.cpp:258-273 -/
def easyWriteCallback (conn : Addr) (data : Bytes) (s : State C) : State C :=
  match s.conns.cells conn with
  | none => s.dangles
  | some info =>
    match s.lock info.http with
    | none => s
    | some http => { s with log := s.log ++ [⟨conn, http, .body data⟩] }

/-- Nothing when the assertion fails.
mirrors lib/net/HttpClient.cpp:275-335 -/
def easyHeaderCallback (conn : Addr) (line : Bytes) (s : State C) : Option (State C) :=
  match s.conns.cells conn with
  | none => some s.dangles
  | some info =>
    let http := (s.lock info.http).map fun _ => ⟨false, []⟩
    (HttpHeaders.easyHeaderCallback line ⟨http, info.status, info.reason, info.headers⟩).map
      fun (_, after) =>
        let emitted := after.http.elim [] (·.mResponse)
        { s with
          conns := s.conns.modify conn
            ({ · with status := after.status, reason := after.reason, headers := after.headers })
          log := s.log ++ emitted.map fun r => ⟨conn, info.http, .response r⟩ }

/-- The buffers are in `L5.Upload`.
mirrors lib/net/HttpClient.cpp:337-343 -/
def easyReadCallback (conn : Addr) (s : State C) : State C :=
  match s.conns.cells conn with
  | none => s.dangles
  | some _ => s

/-! ## The calls of the users -/

section
variable [DecidableEq C]

/-- `connect`, with what `curl_multi_add_handle` answers. When that fails the two new objects are
freed again.
mirrors lib/net/HttpClient.cpp:106-155 -/
def init (c : C) (added : Bool) (s : State C) : State C :=
  if (s.mConnectionInfo c).isSome then s
  else
    let curl := { s.curl with next := s.curl.next + 1 }
    let conns := s.conns.alloc ⟨s.curl.next, c, 0, [], []⟩
    let conn := s.conns.next
    if ¬ added then { s with curl, conns := conns.free conn }
    else
      { s with
        conns
        curl := { curl with handles := Function.update s.curl.handles s.curl.next (some ⟨conn, false⟩) }
        mConnectionInfo := Function.update s.mConnectionInfo c (some conn)
        started := s.started ++ [(conn, c)] }

/-- A `write` or `endWrite`, which uses the handle when the transfer is paused.
mirrors lib/net/HttpClient.cpp:414-471 -/
def write (c : C) (s : State C) : State C :=
  match s.mConnectionInfo c with
  | none => s
  | some p =>
    match s.conns.cells p with
    | none => s.dangles
    | some _ => s

/-! ## Finished transfers -/

/-- A statement of `checkMultiInfo`. A handler runs after each emit.
mirrors lib/net/HttpClient.cpp:372-412 -/
def checkMultiInfo (s : State C) : Pc C → Option (State C)
  | .outside => none
  | .check =>
    match s.curl.messages with
    | [] => some { s with pc := .outside, timers := { s.timers with running := none } }
    | (easy, error) :: messages =>
      let s := { s with curl.messages := messages }
      match s.curl.handles easy with
      | none => some s.dangles
      | some handle =>
        match s.conns.cells handle.priv with
        | none => some s.dangles
        | some conn =>
          match s.lock conn.http with
          | none =>
            some { s with
              ended := s.ended ++ [⟨handle.priv, conn.http, error, false⟩]
              pc := .remove handle.priv easy }
          | some http =>
            some { s with
              ended := s.ended ++ [⟨handle.priv, conn.http, error, true⟩]
              mConnectionInfo := Function.update s.mConnectionInfo http none
              pc := match error with
                | some text => .emitError handle.priv easy http text
                | none => .emitComplete handle.priv easy http }
  | .emitError conn easy http text =>
    match s.conns.cells conn with
    | none => some s.dangles
    | some _ =>
      some { s with
        log := s.log ++ [⟨conn, http, .error text⟩], pc := .emitComplete conn easy http }
  | .emitComplete conn easy http =>
    some { s with log := s.log ++ [⟨conn, http, .complete⟩], pc := .disconnect conn easy http }
  | .disconnect conn easy http =>
    some { s with log := s.log ++ [⟨conn, http, .disconnect⟩], pc := .remove conn easy }
  | .remove conn easy =>
    -- curl_multi_remove_handle
    some { s with
      curl := { s.curl with
        handles := Function.update s.curl.handles easy none
        messages := s.curl.messages.filter (·.1 ≠ easy) }
      pc := .free conn easy }
  | .free conn _ =>
    match s.conns.cells conn with
    | none => some { s with fault := some .freed }
    | some _ => some { s with conns := s.conns.free conn, pc := .check }

/-- After curl has acted on an event of a descriptor.
mirrors lib/net/HttpClient.cpp:183-190 -/
def socketEventCallback (running : Nat) (s : State C) : State C :=
  match running, s.timer with
  | 0, some t =>
    { s with timers := Timers.stop t s.timers, timer := none, asked := none, pc := .check }
  | _, _ => { s with pc := .check }

/-- An error event of the loop, up to the end of the callback, if `processFd` finds one.
mirrors lib/event/Loop_epoll.cpp:231-234 -/
def errorEvent (fd : Fd) (running : Nat) (s : State C) : State C :=
  let failed := { s with io := s.io.fail fd, failing := some fd }
  match EventLoop.findFd fd EventLoop.fdError s.io.loop.mFds with
  | .none => failed
  | .call _ => socketEventCallback running failed
  | .pastEnd => { failed with io := { failed.io with fault := some .pastEnd } }

/-! ## The machine -/

/-- A handle that has not finished. -/
def Curl.active (curl : Curl) (easy : Easy) : Option Handle :=
  (curl.handles easy).filter (!·.done)

def perform (s : State C) : Label C → Option (State C)
  | .init c added => if s.released c then none else some (init c added s)
  | .write c => if s.released c then none else some (write c s)
  | .release c => some { s with released := Function.update s.released c true }
  | .socket easy fd what =>
    -- on the loop's thread, so not in the middle of an iteration
    if s.io.between then none
    else
      match what with
      | .remove => if s.curl.sockets fd = none then none else some (socketCallback easy fd what s)
      | .poll _ =>
        if s.curl.handles easy = none then none else some (socketCallback easy fd what s)
  | .timer ms now => multiTimerCallback ms now s
  | .header easy line => (s.curl.active easy).bind fun h => easyHeaderCallback h.priv line s
  | .body easy data => (s.curl.active easy).map fun h => easyWriteCallback h.priv data s
  | .read easy => (s.curl.active easy).map fun h => easyReadCallback h.priv s
  | .finish easy error => (s.curl.active easy).map fun h =>
      { s with
        curl := { s.curl with
          handles := Function.update s.curl.handles easy (some { h with done := true })
          messages := s.curl.messages ++ [(easy, error)] } }
  | .event running =>
    match s.pc with
    | .outside => some (socketEventCallback running s)
    | _ => none
  | .error fd running =>
    match s.pc with
    | .outside => some (errorEvent fd running s)
    | _ => none
  | .close =>
    match s.failing, s.pc with
    | some fd, .outside => some { s with
        io := s.io.forget fd
        failing := none
        closed := Function.update s.closed fd true }
    | _, _ => none
  | .fire now order =>
    match s.pc with
    | .outside => (Timers.step s.timers (.fire now order)).map fun timers =>
      { s with timers, asked := s.asked.filter fun r => now < Timers.deadline r.2 r.1 }
    | _ => none
  | .execute =>
    match s.pc with
    | .outside =>
      (Timers.step s.timers .execute).map fun timers => { s with timers, pc := .check }
    | _ => none
  | .next => checkMultiInfo s s.pc
  | .newFds => if s.io.between then none else some { s with io := Interest.newFds s.io }
  | .updates =>
    if s.io.between then some { s with
        io := Interest.updates s.io
        closed := fun fd => s.closed fd || decide (fd ∈ s.io.loop.mRemovedFds) }
    else none
  | .opened fd =>
    some { s with
      closed := if s.curl.sockets fd = none then Function.update s.closed fd false else s.closed }
  | .loopGone => some { s with hasLoop := false }

/-- What the loop does after the `close` of an error event only. -/
def Label.waits : Label C → Bool
  | .event _ | .error .. | .fire .. | .execute | .newFds | .updates => true
  | _ => false

def step (s : State C) (l : Label C) : Option (State C) :=
  if s.fault.isSome ∨ s.io.fault.isSome ∨ (l.waits ∧ s.failing.isSome) then none else perform s l

variable (C) in
def multi : LTS (State C) (Label C) := .ofFn (· = State.init) step

end

end Reckoning.L5.HttpMulti
