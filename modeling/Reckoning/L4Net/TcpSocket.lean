import Reckoning.Core.LTS
import Reckoning.Core.Bytes
import Reckoning.L2Event.Loop

/-!
# `TcpSocket` as a state machine

`lib/net/TcpSocket.cpp` runs on the thread of its event loop. Its signals
call the handlers synchronously (`Signal::emit`, `Loop::send` on the loop's
own thread), so user code runs *inside* `socketCallback`, `read`,
`processWrite` and `connect`, and may call `write`, `close` or `connect`
again. The model keeps what is still to be done as a stack of `Frame`s:

* a `handler` frame on top: a handler of `mStateChanged` or `mData` is
  running; it may call any public member function, and then returns (`ret`);
* any other frame on top: the code after the last emission or call, run one
  basic block at a time (`run a`, `a` is what the kernel or OpenSSL answers
  to the one call of that block);
* the empty stack: the loop or other code is running; the loop may deliver
  an event (`event fd flags`).

A frame that takes `fd` by reference in the source (`int& fd`) names the
family and reads the member again when it runs; one that takes it by value
carries the number. The descriptor -1 is `none`.

`fault` records a failed assertion or a read outside a buffer; nothing runs
after it. `written` is a ghost: every byte handed to `write`.

Left out: the resolver, logging, and the certificate settings of `initTLS`,
which no property here reads. `eintrwrap` repeats a call that fails with
`EINTR`, so `EINTR` is never an answer.
-/
namespace Reckoning.L4.TcpSocket

abbrev Fd := Nat

/-- mirrors include/net/TcpSocket.h:22 -/
def bufferSize : Nat := 16384

inductive Mode
  | plain | tls
  deriving DecidableEq, Repr

/-- mirrors include/net/TcpSocket.h:38-47 -/
inductive State
  | idle | resolving | resolved | connecting | handshaking | connected | closed | error
  deriving DecidableEq, Repr

/-- The value of the enumerator, for `mState < Connecting`. -/
def State.toNat : State → Nat
  | .idle => 0
  | .resolving => 1
  | .resolved => 2
  | .connecting => 3
  | .handshaking => 4
  | .connected => 5
  | .closed => 6
  | .error => 7

/-- mirrors include/net/TcpSocket.h:80-86 -/
inductive SSLWaitState
  | notWaiting | readWaitingForRead | readWaitingForWrite | writeWaitingForRead | writeWaitingForWrite
  deriving DecidableEq, Repr

/-- `mSsl`; a pointer is modelled by whether it is set.
mirrors include/net/TcpSocket.h:88-93 -/
structure Ssl where
  readWaitState : SSLWaitState
  writeWaitState : SSLWaitState
  ctx : Bool
  session : Bool
  bio : Bool
  deriving DecidableEq, Repr

inductive Family
  | v4 | v6
  deriving DecidableEq, Repr

def Family.other : Family → Family
  | .v4 => .v6
  | .v6 => .v4

/-- mirrors include/net/TcpSocket.h:70-78 (`mFd4Handle.mFd` is `mFd4Handle`) -/
structure Sock where
  mMode : Mode
  mFd4 : Option Fd
  mFd6 : Option Fd
  mFd4Handle : Option Fd
  mFd6Handle : Option Fd
  mWriteOffset : Nat
  mPendingWrites : List Bytes
  mState : State
  mSsl : Ssl
  deriving DecidableEq, Repr

/-- mirrors lib/net/TcpSocket.cpp:18-21 -/
def Sock.init : Sock :=
  ⟨.plain, none, none, none, none, 0, [], .idle, ⟨.notWaiting, .notWaiting, false, false, false⟩⟩

namespace Sock

/-- `fd` (by reference) for one family. -/
def fd (s : Sock) : Family → Option Fd
  | .v4 => s.mFd4
  | .v6 => s.mFd6

def handle (s : Sock) : Family → Option Fd
  | .v4 => s.mFd4Handle
  | .v6 => s.mFd6Handle

def setFd (s : Sock) (f : Family) (v : Option Fd) : Sock :=
  match f with
  | .v4 => { s with mFd4 := v }
  | .v6 => { s with mFd6 := v }

def setHandle (s : Sock) (f : Family) (v : Option Fd) : Sock :=
  match f with
  | .v4 => { s with mFd4Handle := v }
  | .v6 => { s with mFd6Handle := v }

end Sock

/-- The flags of `Loop::addFd` and `Loop::updateFd`. -/
abbrev Flags := L2.EventLoop.Flags

def fdRead : Flags := ⟨false, true, false⟩
def fdReadWrite : Flags := ⟨false, true, true⟩

/-- The calls the socket makes on its loop. -/
inductive LoopCall
  | addFd (fd : Option Fd) (flags : Flags)
  | updateFd (fd : Option Fd) (flags : Flags)
  | removeFd (fd : Fd)
  deriving DecidableEq, Repr

/-- What the socket has done so far, oldest first: bytes accepted by
`::write` or `SSL_write`, emissions of `mStateChanged` and `mData`, calls
on the loop. -/
structure Out where
  sent : Bytes
  states : List State
  data : List Bytes
  calls : List LoopCall
  deriving DecidableEq, Repr

/-- The assertions of `write`, `read` and the TLS code, and a read outside a
buffer. -/
inductive Fault
  | writeAssert
  | readAssert
  | tlsAssert
  | outOfBounds
  deriving DecidableEq, Repr

inductive Frame
  /-- a handler of `mStateChanged` or `mData` -/
  | handler
  /-- the loop of `processWrite(fd)`, with `it` buffers behind the iterator -/
  | processWrite (fd : Option Fd) (it : Nat)
  /-- `processWrite(fd)` is about to be called, `fd` a reference -/
  | callProcessWrite (f : Family)
  /-- the loop of `write(const uint8_t*, size_t)`, with the bytes left -/
  | writeRange (data : Bytes)
  /-- `processPlain`: the loop of the `FdRead` part -/
  | plainRead
  /-- `processPlain`: the `FdWrite` part -/
  | plainWrite (f : Family)
  /-- `handle.remove(); fd = -1;` of a failed attempt -/
  | dropFailed (f : Family)
  /-- the end of the success branch of `internalConnect` -/
  | closeOther (f : Family)
  /-- `updateFd(fd, FdRead|FdWrite)` of `internalConnect` -/
  | armConnect (f : Family)
  /-- `close()` after the emission in `connectTLS` -/
  | close
  /-- the `BIO` set-up before `connectTLS(fd)` -/
  | tlsAttach (f : Family)
  /-- `connectTLS(fd)` -/
  | connectTLS (fd : Option Fd)
  /-- `processTLS`, state `Handshaking`: after the call of `connectTLS` -/
  | tlsHandshaken (f : Family)
  /-- `processTLS`: the `FdRead` part -/
  | tlsRead (f : Family)
  /-- `processTLS`: one `read()` and its emission -/
  | tlsRetryRead
  /-- `processTLS`, `FdRead`, state `Connected`: retry of a write -/
  | tlsRetryWrite (f : Family)
  /-- `processTLS`, `FdRead`, state `Connected`: the read loop -/
  | tlsReadLoop
  /-- `processTLS`: the `FdWrite` part -/
  | tlsWrite (f : Family)
  /-- `processTLS`, `FdWrite`, state `Connected`: the writes -/
  | tlsDoWrite (f : Family)
  deriving DecidableEq, Repr

structure Cfg where
  s : Sock
  out : Out
  stack : List Frame
  written : Bytes
  fault : Option Fault
  deriving DecidableEq, Repr

def Cfg.init : Cfg := ⟨Sock.init, ⟨[], [], [], []⟩, [], [], none⟩

/-! ## Answers of the kernel and of OpenSSL -/

def EAGAIN : Nat := 11

inductive ConnectRes
  | ok | inProgress | failed
  deriving DecidableEq, Repr

/-- What the one system or library call of a block answers. `err` carries
`errno` (or the code of `SSL_get_error`). -/
inductive Ans
  | unit
  | write (n : Nat)
  | writeErr (errno : Nat)
  | read (b : Bytes)
  | readEof
  | readErr (errno : Nat)
  | soError (failed : Bool)
  | sslDone
  | sslWantRead
  | sslWantWrite
  | sslZeroReturn
  | sslError (code : Nat)
  deriving DecidableEq, Repr

/-! ## Effects -/

def emit (st : State) (c : Cfg) : Cfg :=
  { c with out := { c.out with states := c.out.states ++ [st] }, stack := .handler :: c.stack }

def emitData (b : Bytes) (c : Cfg) : Cfg :=
  { c with out := { c.out with data := c.out.data ++ [b] }, stack := .handler :: c.stack }

def setState (st : State) (c : Cfg) : Cfg := { c with s := { c.s with mState := st } }

def loopCall (l : LoopCall) (c : Cfg) : Cfg :=
  { c with out := { c.out with calls := c.out.calls ++ [l] } }

def push (fs : List Frame) (c : Cfg) : Cfg := { c with stack := fs ++ c.stack }

def fail (e : Fault) (c : Cfg) : Cfg := { c with fault := some e }

/-- `Loop::FD::remove`.
mirrors include/event/Loop.h:479-488 -/
def removeHandle (f : Family) (c : Cfg) : Cfg :=
  match c.s.handle f with
  | none => c
  | some fd => loopCall (.removeFd fd) { c with s := c.s.setHandle f none }

/-- `handle.remove(); fd = -1;` -/
def dropFd (f : Family) (c : Cfg) : Cfg :=
  let c := removeHandle f c
  { c with s := c.s.setFd f none }

/-- `if (fd != -1) { handle.remove(); fd = -1; }` -/
def dropOpen (f : Family) (c : Cfg) : Cfg :=
  match c.s.fd f with
  | none => c
  | some _ => dropFd f c

/-- mirrors lib/net/TcpSocket.cpp:428-447 -/
def close (c : Cfg) : Cfg :=
  let c :=
    match c.s.mMode with
    | .tls => { c with s := { c.s with
        mSsl := { c.s.mSsl with bio := false, session := false, ctx := false }, mMode := .plain } }
    | .plain => c
  dropOpen .v6 (dropOpen .v4 c)

/-- mirrors lib/net/TcpSocket.cpp:28-55 -/
def initTLS (s : Sock) : Sock :=
  if s.mSsl.ctx then s else { s with mSsl := { s.mSsl with ctx := true, session := true } }

/-! ## The public calls -/

/-- mirrors include/net/TcpSocket.h:115-145 -/
def write (b : Bytes) (c : Cfg) : Cfg :=
  let c := { c with s := { c.s with mPendingWrites := c.s.mPendingWrites ++ [b] } }
  if c.s.mState ≠ .connected then c
  else
    match c.s.mFd4, c.s.mFd6 with
    | some fd, none => push [.processWrite (some fd) 0] c
    | some _, some _ => fail .writeAssert c
    | none, some fd => push [.processWrite (some fd) 0] c
    | none, none => fail .writeAssert c

/-- mirrors lib/net/TcpSocket.cpp:313-352 -/
def internalConnect (res : ConnectRes) (f : Family) (c : Cfg) : Cfg :=
  match res with
  | .ok =>
    match c.s.mMode with
    | .plain => emit .connected (setState .connected (push [.callProcessWrite f, .closeOther f] c))
    | .tls => emit .handshaking (setState .handshaking (push [.tlsAttach f, .closeOther f] c))
  | .inProgress =>
    if c.s.mState.toNat < State.connecting.toNat then
      emit .connecting (setState .connecting (push [.armConnect f] c))
    else loopCall (.updateFd (c.s.fd f) fdReadWrite) c
  | .failed =>
    match c.s.fd f.other with
    | none => emit .error (setState .error (push [.dropFailed f] c))
    | some _ => dropFd f c

/-- `connect(IPv4, ..)` and `connect(IPv6, ..)`: `sock` is what `socket()`
returns, `res` what `::connect` answers.
mirrors lib/net/TcpSocket.cpp:354-409 -/
def connect (f : Family) (mode : Mode) (sock : Option Fd) (res : ConnectRes) (c : Cfg) : Cfg :=
  if c.s.fd f ≠ none ∨ c.s.mState = .connected then c
  else
    let s := { c.s with mMode := mode }
    let s := match mode with
      | .tls => initTLS s
      | .plain => s
    let c := loopCall (.addFd sock fdRead) { c with s := (s.setFd f sock).setHandle f sock }
    internalConnect res f c

/-- mirrors lib/net/TcpSocket.cpp:411-426 -/
def setSocket (fd : Fd) (f : Family) (c : Cfg) : Cfg :=
  if c.s.mFd6 ≠ none ∨ c.s.mFd4 ≠ none then c
  else
    let s := { c.s.setFd f (some fd) with mState := .connected }
    loopCall (.addFd (some fd) fdRead) { c with s := s.setHandle f (some fd) }

/-! ## The loop's callback -/

/-- mirrors lib/net/TcpSocket.cpp:105-155 (`processPlain`) and :157-265
(`processTLS`): the branch on the flags -/
def processEvent (f : Family) (flags : Flags) (c : Cfg) : Cfg :=
  if flags.error then dropFd f c
  else
    match c.s.mMode with
    | .plain =>
      push ((if flags.read then [.plainRead] else []) ++ (if flags.write then [.plainWrite f] else [])) c
    | .tls =>
      push ((if flags.read then [.tlsRead f] else []) ++ (if flags.write then [.tlsWrite f] else [])) c

/-- mirrors lib/net/TcpSocket.cpp:101-103,267-281 -/
def socketCallback (fd : Fd) (flags : Flags) (c : Cfg) : Cfg :=
  if c.s.mFd4 = some fd then processEvent .v4 flags c
  else if c.s.mFd6 = some fd then processEvent .v6 flags c
  else c

/-! ## Blocks -/

/-- `close(); mState = st; mStateChanged.emit(st);` of `read` and
`processWrite` -/
def closeWith (st : State) (c : Cfg) : Cfg := emit st (setState st (close c))

/-- One `read()` and what its callers do with the buffer: emit it and go on
with `again`, or stop at the null buffer.
mirrors lib/net/TcpSocket.cpp:518-613 -/
def readBlock (again : List Frame) (c : Cfg) (a : Ans) : Option Cfg :=
  match c.s.mFd4, c.s.mFd6 with
  | none, none => if a = .unit then some c else none
  | some _, some _ => if a = .unit then some (fail .readAssert c) else none
  | fd4, fd6 =>
    let fd := fd4.or fd6
    match c.s.mMode with
    | .plain =>
      match a with
      | .read b =>
        if 0 < b.length ∧ b.length ≤ bufferSize then some (emitData b (push again c)) else none
      | .readEof => some (closeWith .closed c)
      | .readErr errno =>
        if errno = 0 then none
        else if errno = EAGAIN then some c
        else some (closeWith .error c)
      | _ => none
    | .tls =>
      -- the wait state is only ever set here, never cleared after a read
      let rearm (c : Cfg) : Cfg :=
        if c.s.mSsl.readWaitState = .readWaitingForWrite then loopCall (.updateFd fd fdReadWrite) c
        else c
      match a with
      | .read b =>
        if 0 < b.length ∧ b.length ≤ bufferSize then some (emitData b (push again (rearm c)))
        else none
      | .sslWantRead =>
        some (rearm { c with s := { c.s with
          mSsl := { c.s.mSsl with readWaitState := .readWaitingForRead } } })
      | .sslWantWrite =>
        some (rearm { c with s := { c.s with
          mSsl := { c.s.mSsl with readWaitState := .readWaitingForWrite } } })
      | .sslZeroReturn => some (closeWith .closed (rearm c))
      | .sslError code =>
        if code = 0 then none
        else if code = EAGAIN then some (rearm c)
        else some (closeWith .error (rearm c))
      | _ => none

/-- The value `e` of `writePlain` or `writeTLS`, and the wait state it
leaves; `req` is the number of bytes offered.
mirrors lib/net/TcpSocket.cpp:451-480 -/
def writeRes (mode : Mode) (fd : Option Fd) (req : Nat) (ssl : Ssl) (a : Ans) : Option (Int × Ssl) :=
  match mode, a with
  | .plain, .write n => if fd ≠ none ∧ n ≤ req ∧ (0 < n ∨ req = 0) then some (n, ssl) else none
  | .plain, .writeErr errno => if errno = 0 then none else some (-errno, ssl)
  | .tls, .write n => if 0 < n ∧ n ≤ req then some (n, ssl) else none
  | .tls, .sslWantRead => some (-EAGAIN, { ssl with writeWaitState := .readWaitingForRead })
  | .tls, .sslWantWrite => some (-EAGAIN, { ssl with writeWaitState := .readWaitingForWrite })
  | .tls, .sslError code => if code = 0 then none else some (-code, ssl)
  | _, _ => none

/-- One turn of the loop of `processWrite`.
mirrors lib/net/TcpSocket.cpp:482-516 -/
def processWriteBlock (fd : Option Fd) (it : Nat) (c : Cfg) (a : Ans) : Option Cfg :=
  match c.s.mPendingWrites[it]? with
  | none =>
    if a = .unit then
      some { c with s := { c.s with mPendingWrites := c.s.mPendingWrites.drop it } }
    else none
  | some b =>
    -- `size() - mWriteOffset` wraps: the call reads past the end of the buffer
    if b.length < c.s.mWriteOffset then if a = .unit then some (fail .outOfBounds c) else none
    else
      match writeRes c.s.mMode fd (b.length - c.s.mWriteOffset) c.s.mSsl a with
      | none => none
      | some (e, ssl) =>
        let c := { c with s := { c.s with mSsl := ssl } }
        if e < 0 then
          if e = -EAGAIN then some (loopCall (.updateFd fd fdReadWrite) c)
          else some (closeWith .error c)
        else
          let sent := (b.drop c.s.mWriteOffset).take e.toNat
          let c := { c with out := { c.out with sent := c.out.sent ++ sent } }
          if e.toNat < b.length - c.s.mWriteOffset then
            some (push [.processWrite fd it]
              { c with s := { c.s with mWriteOffset := c.s.mWriteOffset + e.toNat } })
          else some (push [.processWrite fd (it + 1)] { c with s := { c.s with mWriteOffset := 0 } })

/-- `getsockopt(fd, SO_ERROR)` and the two branches after it; `k` is what
follows a successful connect, in state `st`.
mirrors lib/net/TcpSocket.cpp:127-150 and :208-229 -/
def checkConnect (f : Family) (st : State) (k : List Frame) (c : Cfg) (a : Ans) : Option Cfg :=
  match a with
  | .soError failed =>
    -- on the descriptor -1 the call itself fails
    if failed = true ∨ c.s.fd f = none then
      match c.s.fd f.other with
      | none => some (emit .error (setState .error (push [.dropFailed f] c)))
      | some _ => some (dropFd f c)
    else some (emit st (setState st (push k (dropOpen f.other c))))
  | _ => none

/-- mirrors lib/net/TcpSocket.cpp:57-99 -/
def connectTLSBlock (fd : Option Fd) (c : Cfg) (a : Ans) : Option Cfg :=
  let setWait (w : SSLWaitState) (c : Cfg) : Cfg :=
    { c with s := { c.s with mSsl := { c.s.mSsl with writeWaitState := w } } }
  match a with
  | .sslDone =>
    some (emit .connected (setState .connected (push [.processWrite fd 0] (setWait .notWaiting c))))
  | .sslWantWrite => some (loopCall (.updateFd fd fdReadWrite) (setWait .writeWaitingForWrite c))
  | .sslWantRead => some (setWait .writeWaitingForRead c)
  | .sslZeroReturn => some (emit .closed (setState .closed (push [.close] c)))
  | .sslError _ => some (emit .error (setState .error (push [.close] c)))
  | _ => none

/-- A block that calls nothing outside. -/
def pureBlock (c : Cfg) (a : Ans) : Option Cfg := if a = .unit then some c else none

/-- mirrors lib/net/TcpSocket.cpp:166-201 -/
def tlsReadPart (f : Family) (c : Cfg) : Cfg :=
  match c.s.mState with
  | .handshaking =>
    push ((if c.s.mSsl.writeWaitState = .writeWaitingForRead then [.connectTLS (c.s.fd f)] else []) ++
      [.tlsHandshaken f]) c
  | .connected =>
    push ((if c.s.mSsl.readWaitState = .readWaitingForRead then [.tlsRetryRead] else []) ++
      [.tlsRetryWrite f, .tlsReadLoop]) c
  | _ => c

/-- mirrors lib/net/TcpSocket.cpp:203-264 -/
def tlsWritePart (f : Family) (c : Cfg) (a : Ans) : Option Cfg :=
  let c := loopCall (.updateFd (c.s.fd f) fdRead) c
  match c.s.mState with
  | .connecting => checkConnect f .handshaking [.tlsAttach f] c a
  | .handshaking =>
    pureBlock (push ((if c.s.mSsl.writeWaitState = .writeWaitingForWrite
      then [.connectTLS (c.s.fd f)] else []) ++ [.tlsHandshaken f]) c) a
  | .connected =>
    pureBlock (push ((if c.s.mSsl.readWaitState = .readWaitingForWrite then [.tlsRetryRead] else []) ++
      [.tlsDoWrite f]) c) a
  | _ => pureBlock c a

/-- The block of the frame `fr`, which has been popped from `c.stack`. -/
def exec (fr : Frame) (c : Cfg) (a : Ans) : Option Cfg :=
  match fr with
  | .handler => none
  | .processWrite fd it => processWriteBlock fd it c a
  | .callProcessWrite f => pureBlock (push [.processWrite (c.s.fd f) 0] c) a
  | .writeRange data =>
    -- mirrors lib/net/TcpSocket.cpp:615-630
    pureBlock (if data = [] then c
      else write (data.take bufferSize) (push [.writeRange (data.drop bufferSize)] c)) a
  | .plainRead => readBlock [.plainRead] c a
  | .plainWrite f =>
    let c := loopCall (.updateFd (c.s.fd f) fdRead) c
    if c.s.mState = .connecting then checkConnect f .connected [.callProcessWrite f] c a
    else pureBlock (push [.callProcessWrite f] c) a
  | .dropFailed f => pureBlock (dropFd f c) a
  | .closeOther f => pureBlock (dropOpen f.other c) a
  | .armConnect f => pureBlock (loopCall (.updateFd (c.s.fd f) fdReadWrite) c) a
  | .close => pureBlock (close c) a
  | .tlsAttach f =>
    pureBlock (if c.s.mSsl.session = true ∧ c.s.mSsl.bio = false then
      push [.connectTLS (c.s.fd f)] { c with s := { c.s with mSsl := { c.s.mSsl with bio := true } } }
      else fail .tlsAssert c) a
  | .connectTLS fd => connectTLSBlock fd c a
  | .tlsHandshaken f =>
    pureBlock (if c.s.mState = .connected then
        if c.s.mSsl.writeWaitState = .notWaiting then push [.callProcessWrite f] c
        else fail .tlsAssert c
      else c) a
  | .tlsRead f => pureBlock (tlsReadPart f c) a
  | .tlsRetryRead => readBlock [] c a
  | .tlsRetryWrite f =>
    pureBlock (if c.s.mSsl.writeWaitState = .writeWaitingForRead then push [.callProcessWrite f] c
      else c) a
  | .tlsReadLoop =>
    if c.s.mSsl.readWaitState = .notWaiting then readBlock [.tlsReadLoop] c a else pureBlock c a
  | .tlsWrite f => tlsWritePart f c a
  | .tlsDoWrite f =>
    pureBlock (if c.s.mSsl.writeWaitState = .writeWaitingForWrite ∨
        c.s.mSsl.writeWaitState = .notWaiting then push [.callProcessWrite f] c else c) a

/-! ## Steps -/

/-- The public member functions. -/
inductive Call
  | connect (f : Family) (mode : Mode) (sock : Option Fd) (res : ConnectRes)
  | setSocket (fd : Fd) (f : Family)
  | write (b : Bytes)
  | writeRange (data : Bytes)
  | close
  deriving DecidableEq, Repr

inductive Label
  | call (op : Call)
  | event (fd : Fd) (flags : Flags)
  | run (a : Ans)
  | ret
  deriving DecidableEq, Repr

def callStep (op : Call) (c : Cfg) : Option Cfg :=
  match op with
  | .connect f mode sock res =>
    -- the kernel's promises: a new descriptor is not an open one, and
    -- `connect(-1)` fails
    if (sock = none → res = .failed) ∧ (sock ≠ none → sock ≠ c.s.fd f.other) then
      some (connect f mode sock res c)
    else none
  | .setSocket fd f => some (setSocket fd f c)
  | .write b => some (write b { c with written := c.written ++ b })
  | .writeRange data => some (push [.writeRange data] { c with written := c.written ++ data })
  | .close => some (close c)

/-- User code is running: a handler, or code outside the socket. -/
def userTurn (c : Cfg) : Bool :=
  match c.stack with
  | [] => true
  | .handler :: _ => true
  | _ => false

def step (c : Cfg) (l : Label) : Option Cfg :=
  if c.fault ≠ none then none
  else
    match l with
    | .call op => if userTurn c then callStep op c else none
    | .event fd flags => if c.stack = [] then some (socketCallback fd flags c) else none
    | .run a =>
      match c.stack with
      | [] => none
      | fr :: k => exec fr { c with stack := k } a
    | .ret =>
      match c.stack with
      | .handler :: k => some { c with stack := k }
      | _ => none

def lts (init : Cfg → Prop) : LTS Cfg Label := LTS.ofFn init step

/-! ## What the effects touch -/

section Effects
variable (c : Cfg) (f g : Family) (st : State) (fs : List Frame) (l : LoopCall) (e : Fault) (b : Bytes)

@[simp] theorem other_other : f.other.other = f := by cases f <;> rfl
@[simp] theorem other_ne : f.other ≠ f := by cases f <;> simp [Family.other]
theorem eq_or_other : g = f ∨ g = f.other := by cases f <;> cases g <;> simp [Family.other]

@[simp] theorem emit_s : (emit st c).s = c.s := rfl
@[simp] theorem emit_fault : (emit st c).fault = c.fault := rfl
@[simp] theorem emit_stack : (emit st c).stack = .handler :: c.stack := rfl
@[simp] theorem emitData_s : (emitData b c).s = c.s := rfl
@[simp] theorem emitData_fault : (emitData b c).fault = c.fault := rfl
@[simp] theorem emitData_stack : (emitData b c).stack = .handler :: c.stack := rfl
@[simp] theorem setState_mState : (setState st c).s.mState = st := rfl
@[simp] theorem setState_mFd4 : (setState st c).s.mFd4 = c.s.mFd4 := rfl
@[simp] theorem setState_mFd6 : (setState st c).s.mFd6 = c.s.mFd6 := rfl
@[simp] theorem setState_mMode : (setState st c).s.mMode = c.s.mMode := rfl
@[simp] theorem setState_mPendingWrites :
    (setState st c).s.mPendingWrites = c.s.mPendingWrites := rfl
@[simp] theorem setState_fault : (setState st c).fault = c.fault := rfl
@[simp] theorem setState_stack : (setState st c).stack = c.stack := rfl
@[simp] theorem loopCall_s : (loopCall l c).s = c.s := rfl
@[simp] theorem loopCall_fault : (loopCall l c).fault = c.fault := rfl
@[simp] theorem loopCall_stack : (loopCall l c).stack = c.stack := rfl
@[simp] theorem push_s : (push fs c).s = c.s := rfl
@[simp] theorem push_fault : (push fs c).fault = c.fault := rfl
@[simp] theorem push_stack : (push fs c).stack = fs ++ c.stack := rfl
@[simp] theorem fail_s : (fail e c).s = c.s := rfl
@[simp] theorem fail_fault : (fail e c).fault = some e := rfl

@[simp] theorem setState_fd : (setState st c).s.fd f = c.s.fd f := by cases f <;> rfl

variable (s : Sock) (v : Option Fd)

@[simp] theorem setFd_fd : (s.setFd f v).fd f = v := by cases f <;> rfl
@[simp] theorem setFd_other : (s.setFd f v).fd f.other = s.fd f.other := by cases f <;> rfl
@[simp] theorem setFd_mState : (s.setFd f v).mState = s.mState := by cases f <;> rfl
@[simp] theorem setFd_mMode : (s.setFd f v).mMode = s.mMode := by cases f <;> rfl
@[simp] theorem setHandle_fd : (s.setHandle f v).fd g = s.fd g := by cases f <;> cases g <;> rfl
@[simp] theorem setHandle_mState : (s.setHandle f v).mState = s.mState := by cases f <;> rfl
@[simp] theorem setHandle_mMode : (s.setHandle f v).mMode = s.mMode := by cases f <;> rfl

/-- `initTLS` touches nothing but the `SSL` objects. -/
theorem initTLS_spec : (initTLS s).fd f = s.fd f ∧ (initTLS s).mState = s.mState ∧
    (initTLS s).mMode = s.mMode := by
  unfold initTLS
  split <;> cases f <;> exact ⟨rfl, rfl, rfl⟩

@[simp] theorem initTLS_fd : (initTLS s).fd f = s.fd f := (initTLS_spec f s).1
@[simp] theorem initTLS_mState : (initTLS s).mState = s.mState := (initTLS_spec .v4 s).2.1
@[simp] theorem initTLS_mMode : (initTLS s).mMode = s.mMode := (initTLS_spec .v4 s).2.2

/-- `handle.remove(); fd = -1;` closes its own family and leaves the other,
the state and the stack alone. -/
theorem dropFd_spec : (dropFd f c).s.fd f = none ∧ (dropFd f c).s.fd f.other = c.s.fd f.other ∧
    (dropFd f c).s.mState = c.s.mState ∧ (dropFd f c).s.mMode = c.s.mMode ∧
    (dropFd f c).fault = c.fault ∧ (dropFd f c).stack = c.stack := by
  unfold dropFd removeHandle
  cases h : c.s.handle f <;> cases f <;> exact ⟨rfl, rfl, rfl, rfl, rfl, rfl⟩

@[simp] theorem dropFd_fd : (dropFd f c).s.fd f = none := (dropFd_spec c f).1
@[simp] theorem dropFd_other : (dropFd f c).s.fd f.other = c.s.fd f.other := (dropFd_spec c f).2.1
@[simp] theorem dropFd_mState : (dropFd f c).s.mState = c.s.mState := (dropFd_spec c f).2.2.1
@[simp] theorem dropFd_mMode : (dropFd f c).s.mMode = c.s.mMode := (dropFd_spec c f).2.2.2.1
@[simp] theorem dropFd_fault : (dropFd f c).fault = c.fault := (dropFd_spec c f).2.2.2.2.1
@[simp] theorem dropFd_stack : (dropFd f c).stack = c.stack := (dropFd_spec c f).2.2.2.2.2

@[simp] theorem dropFd_mPendingWrites : (dropFd f c).s.mPendingWrites = c.s.mPendingWrites := by
  unfold dropFd removeHandle
  cases h : c.s.handle f <;> cases f <;> rfl

/-- Guarding by `fd != -1` changes nothing but the handle. -/
theorem dropOpen_spec : (dropOpen f c).s.fd f = none ∧ (dropOpen f c).s.fd f.other = c.s.fd f.other ∧
    (dropOpen f c).s.mState = c.s.mState ∧ (dropOpen f c).s.mMode = c.s.mMode ∧
    (dropOpen f c).fault = c.fault ∧ (dropOpen f c).stack = c.stack := by
  unfold dropOpen
  split
  · rename_i h; exact ⟨h, rfl, rfl, rfl, rfl, rfl⟩
  · exact dropFd_spec c f

@[simp] theorem dropOpen_fd : (dropOpen f c).s.fd f = none := (dropOpen_spec c f).1
@[simp] theorem dropOpen_other : (dropOpen f c).s.fd f.other = c.s.fd f.other := (dropOpen_spec c f).2.1
@[simp] theorem dropOpen_mState : (dropOpen f c).s.mState = c.s.mState := (dropOpen_spec c f).2.2.1
@[simp] theorem dropOpen_mMode : (dropOpen f c).s.mMode = c.s.mMode := (dropOpen_spec c f).2.2.2.1
@[simp] theorem dropOpen_fault : (dropOpen f c).fault = c.fault := (dropOpen_spec c f).2.2.2.2.1
@[simp] theorem dropOpen_stack : (dropOpen f c).stack = c.stack := (dropOpen_spec c f).2.2.2.2.2

@[simp] theorem dropOpen_mPendingWrites : (dropOpen f c).s.mPendingWrites = c.s.mPendingWrites := by
  unfold dropOpen
  split <;> simp

/-- `close()` closes both families and does not touch `mState`. -/
theorem close_spec : (close c).s.fd f = none ∧ (close c).s.mState = c.s.mState ∧
    (close c).s.mMode = .plain ∧ (close c).fault = c.fault ∧ (close c).stack = c.stack := by
  unfold close
  refine ⟨?_, ?_⟩
  · cases f
    · exact (dropOpen_other _ .v6).trans (dropOpen_fd _ .v4)
    · exact dropOpen_fd _ .v6
  · cases h : c.s.mMode <;> simp [h]

@[simp] theorem close_fd : (close c).s.fd f = none := (close_spec c f).1
@[simp] theorem close_mState : (close c).s.mState = c.s.mState := (close_spec c .v4).2.1
@[simp] theorem close_mMode : (close c).s.mMode = .plain := (close_spec c .v4).2.2.1
@[simp] theorem close_fault : (close c).fault = c.fault := (close_spec c .v4).2.2.2.1
@[simp] theorem close_stack : (close c).stack = c.stack := (close_spec c .v4).2.2.2.2

@[simp] theorem emit_states : (emit st c).out.states = c.out.states ++ [st] := rfl
@[simp] theorem setState_states : (setState st c).out.states = c.out.states := rfl
@[simp] theorem loopCall_states : (loopCall l c).out.states = c.out.states := rfl
@[simp] theorem push_states : (push fs c).out.states = c.out.states := rfl

/-- Closing descriptors emits nothing. -/
@[simp] theorem dropFd_states : (dropFd f c).out.states = c.out.states := by
  unfold dropFd removeHandle
  cases h : c.s.handle f <;> rfl

@[simp] theorem dropOpen_states : (dropOpen f c).out.states = c.out.states := by
  unfold dropOpen
  split <;> simp

@[simp] theorem close_states : (close c).out.states = c.out.states := by
  unfold close
  cases c.s.mMode <;> simp

@[simp] theorem closeWith_mState : (closeWith st c).s.mState = st := rfl
@[simp] theorem closeWith_fault : (closeWith st c).fault = c.fault := by simp [closeWith]
@[simp] theorem closeWith_fd : (closeWith st c).s.fd f = none := by simp [closeWith]
@[simp] theorem closeWith_stack : (closeWith st c).stack = .handler :: c.stack := by simp [closeWith]

end Effects

/-! ## Inversion -/

theorem pureBlock_some {c c' : Cfg} {a : Ans} (h : pureBlock c a = some c') : c' = c ∧ a = .unit := by
  unfold pureBlock at h
  split at h
  · rename_i ha; exact ⟨(Option.some.inj h).symm, ha⟩
  · cases h

/-- Everything a step can be. -/
theorem step_cases {c c' : Cfg} {l : Label} (h : step c l = some c') :
    c.fault = none ∧
    ((∃ op, l = .call op ∧ userTurn c = true ∧ callStep op c = some c') ∨
     (∃ fd flags, l = .event fd flags ∧ c.stack = [] ∧ c' = socketCallback fd flags c) ∨
     (∃ a fr k, l = .run a ∧ c.stack = fr :: k ∧ exec fr { c with stack := k } a = some c') ∨
     (∃ k, l = .ret ∧ c.stack = .handler :: k ∧ c' = { c with stack := k })) := by
  unfold step at h
  split at h
  · cases h
  rename_i hf
  refine ⟨by simpa using hf, ?_⟩
  cases l with
  | call op =>
    simp only at h
    split at h
    · rename_i hu; exact Or.inl ⟨op, rfl, hu, h⟩
    · cases h
  | event fd flags =>
    simp only at h
    split at h
    · rename_i he; exact Or.inr (Or.inl ⟨fd, flags, rfl, he, (Option.some.inj h).symm⟩)
    · cases h
  | run a =>
    simp only at h
    split at h
    · cases h
    · rename_i fr k hk; exact Or.inr (Or.inr (Or.inl ⟨a, fr, k, rfl, hk, h⟩))
  | ret =>
    simp only at h
    split at h
    · rename_i k hk; exact Or.inr (Or.inr (Or.inr ⟨k, rfl, hk, (Option.some.inj h).symm⟩))
    · cases h

/-- Everything one turn of the loop of `processWrite` can do in Plain mode. -/
theorem processWriteBlock_cases {c c' : Cfg} {fd : Option Fd} {it : Nat} {a : Ans}
    (hm : c.s.mMode = .plain) (hs : processWriteBlock fd it c a = some c') :
    (c.s.mPendingWrites[it]? = none ∧ a = .unit ∧
      c' = { c with s := { c.s with mPendingWrites := c.s.mPendingWrites.drop it } }) ∨
    ∃ b, c.s.mPendingWrites[it]? = some b ∧
      ((b.length < c.s.mWriteOffset ∧ a = .unit ∧ c' = fail .outOfBounds c) ∨
       (∃ n, a = .write n ∧ n < b.length - c.s.mWriteOffset ∧
          c' = push [.processWrite fd it] { c with
            s := { c.s with mWriteOffset := c.s.mWriteOffset + n },
            out := { c.out with sent := c.out.sent ++ (b.drop c.s.mWriteOffset).take n } }) ∨
       (∃ n, a = .write n ∧ n = b.length - c.s.mWriteOffset ∧
          c' = push [.processWrite fd (it + 1)] { c with
            s := { c.s with mWriteOffset := 0 },
            out := { c.out with sent := c.out.sent ++ (b.drop c.s.mWriteOffset).take n } }) ∨
       (a = .writeErr EAGAIN ∧ c' = loopCall (.updateFd fd fdReadWrite) c) ∨
       (∃ errno, a = .writeErr errno ∧ errno ≠ EAGAIN ∧ c' = closeWith .error c)) := by
  unfold processWriteBlock at hs
  cases hb : c.s.mPendingWrites[it]? with
  | none =>
    simp only [hb] at hs
    split at hs
    · rename_i ha; exact Or.inl ⟨rfl, ha, (Option.some.inj hs).symm⟩
    · cases hs
  | some b =>
    refine Or.inr ⟨b, rfl, ?_⟩
    simp only [hb] at hs
    split at hs
    · rename_i hlt
      split at hs
      · rename_i ha; exact Or.inl ⟨hlt, ha, (Option.some.inj hs).symm⟩
      · cases hs
    · right
      cases a with
      | write n =>
        simp only [hm, writeRes] at hs
        by_cases hn : fd ≠ none ∧ n ≤ b.length - c.s.mWriteOffset ∧ (0 < n ∨ b.length - c.s.mWriteOffset = 0)
        · simp only [if_pos hn] at hs
          rw [if_neg (by omega)] at hs
          simp only [Int.toNat_natCast] at hs
          split at hs
          · rename_i hlt
            cases hs
            exact Or.inl ⟨n, rfl, hlt, by rw [← hm]⟩
          · rename_i hge
            cases hs
            exact Or.inr (Or.inl ⟨n, rfl, by omega, by rw [← hm]⟩)
        · simp only [if_neg hn] at hs; cases hs
      | writeErr errno =>
        simp only [hm, writeRes] at hs
        by_cases h0 : errno = 0
        · simp only [if_pos h0] at hs; cases hs
        · simp only [if_neg h0] at hs
          rw [if_pos (by omega)] at hs
          by_cases he : errno = EAGAIN
          · subst he
            rw [if_pos rfl] at hs
            cases hs
            exact Or.inr (Or.inr (Or.inl ⟨rfl, by rw [← hm]⟩))
          · rw [if_neg (by omega)] at hs
            cases hs
            exact Or.inr (Or.inr (Or.inr ⟨errno, rfl, he, by rw [← hm]⟩))
      | unit | read | readEof | readErr | soError | sslDone | sslWantRead | sslWantWrite
      | sslZeroReturn | sslError => simp [hm, writeRes] at hs

/-- Everything a `read()` can do in Plain mode. -/
theorem readBlock_cases {c c' : Cfg} {again : List Frame} {a : Ans} (hm : c.s.mMode = .plain)
    (hs : readBlock again c a = some c') :
    (c.s.mFd4 = none ∧ c.s.mFd6 = none ∧ c' = c) ∨
    (c.s.mFd4 ≠ none ∧ c.s.mFd6 ≠ none ∧ c' = fail .readAssert c) ∨
    ((c.s.mFd4 = none) ≠ (c.s.mFd6 = none) ∧
      ((∃ b, a = .read b ∧ c' = emitData b (push again c)) ∨
       (a = .readErr EAGAIN ∧ c' = c) ∨
       (a = .readEof ∧ c' = closeWith .closed c) ∨
       (∃ errno, a = .readErr errno ∧ errno ≠ EAGAIN ∧ c' = closeWith .error c))) := by
  unfold readBlock at hs
  split at hs
  · rename_i h4 h6
    split at hs
    · exact Or.inl ⟨h4, h6, (Option.some.inj hs).symm⟩
    · cases hs
  · rename_i h4 h6
    split at hs
    · exact Or.inr (Or.inl ⟨by simp [h4], by simp [h6], (Option.some.inj hs).symm⟩)
    · cases hs
  · rename_i hnone hboth
    have hone : (c.s.mFd4 = none) ≠ (c.s.mFd6 = none) := by
      intro he
      rcases h4 : c.s.mFd4 with - | x <;> rcases h6 : c.s.mFd6 with - | y
      · exact hnone h4 h6
      · simp [h4, h6] at he
      · simp [h4, h6] at he
      · exact hboth x y h4 h6
    refine Or.inr (Or.inr ⟨hone, ?_⟩)
    simp only [hm] at hs
    split at hs
    · rename_i b
      split at hs
      · exact Or.inl ⟨b, rfl, (Option.some.inj hs).symm⟩
      · cases hs
    · exact Or.inr (Or.inr (Or.inl ⟨rfl, (Option.some.inj hs).symm⟩))
    · rename_i errno
      split at hs
      · cases hs
      split at hs
      · rename_i he
        exact Or.inr (Or.inl ⟨by rw [he], (Option.some.inj hs).symm⟩)
      · rename_i he
        exact Or.inr (Or.inr (Or.inr ⟨errno, rfl, he, (Option.some.inj hs).symm⟩))
    · cases hs

/-- The check of a pending connect: it fails alone, fails beside the other
attempt, or has succeeded. -/
theorem checkConnect_cases {c c' : Cfg} {f : Family} {st : State} {k : List Frame} {a : Ans}
    (hs : checkConnect f st k c a = some c') : ∃ failed, a = .soError failed ∧
    (((failed = true ∨ c.s.fd f = none) ∧ c.s.fd f.other = none ∧
        c' = emit .error (setState .error (push [.dropFailed f] c))) ∨
     ((failed = true ∨ c.s.fd f = none) ∧ c.s.fd f.other ≠ none ∧ c' = dropFd f c) ∨
     (failed = false ∧ c.s.fd f ≠ none ∧
        c' = emit st (setState st (push k (dropOpen f.other c))))) := by
  unfold checkConnect at hs
  split at hs
  · rename_i failed
    refine ⟨failed, rfl, ?_⟩
    split at hs
    · rename_i hbad
      split at hs
      · rename_i ho
        exact Or.inl ⟨hbad, ho, (Option.some.inj hs).symm⟩
      · rename_i ho
        exact Or.inr (Or.inl ⟨hbad, by simp [ho], (Option.some.inj hs).symm⟩)
    · rename_i hgo
      simp only [not_or, Bool.not_eq_true] at hgo
      exact Or.inr (Or.inr ⟨hgo.1, hgo.2, (Option.some.inj hs).symm⟩)
  · cases hs

end Reckoning.L4.TcpSocket
