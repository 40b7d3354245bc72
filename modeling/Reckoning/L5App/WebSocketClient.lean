import Reckoning.L1Bytes.Base64
import Reckoning.Core.ByteQueue

/-!
# The receiving half of `WebSocketClient`

`lib/net/WebSocketClient.cpp`: the read buffers, the upgrade answer and the
receive callback of wslay. A buffer is the list of its bytes. Memory that a
fresh buffer has not been written to holds whatever it held before
(`fresh`, by address); SHA-1 is a parameter.

`fault` records a failed assertion or a read outside a buffer; the process
does not go on after it.

Left out: `mWriteBuffers` and `write()` (they touch nothing that is read
here), the messages wslay hands on, and logging.
-/
namespace Reckoning.L5.WebSocketClient
open Reckoning.L1

inductive Fault
  | assert
  | outOfBounds
  deriving DecidableEq, Repr

/-- A pointer is modelled by whether it is set.
mirrors include/net/WebSocketClient.h:46-54 -/
structure Client where
  mTcp : Bool
  mCtx : Bool
  mUpgraded : Bool
  mReadBuffers : List Bytes
  mBufferOffset : Nat
  fault : Option Fault
  deriving DecidableEq, Repr

/-- After the constructor.
mirrors lib/net/WebSocketClient.cpp:17-18,102,114 -/
def Client.init : Client := ⟨true, true, false, [], 0, none⟩

/-! ## The receive callback -/

/-- What the callback tells wslay: a number of bytes and the bytes, or an error. -/
inductive RecvRes
  | ret (data : Bytes)
  | callbackFailure
  | wouldBlock
  deriving DecidableEq, Repr

/-- The copy loop: `rem` bytes are still wanted. Gives the bytes copied, the
new `mBufferOffset` and the new queue. `size() - mBufferOffset` wraps when the
offset is past the end.
mirrors lib/net/WebSocketClient.cpp:41-57 -/
def recvLoop : Nat → Nat → List Bytes → Except Fault (Bytes × Nat × List Bytes)
  | _, off, [] => .ok ([], off, [])
  | rem, off, buf :: q =>
    if rem = 0 then .ok ([], off, buf :: q)
    else if buf.length < off then .error .outOfBounds
    else
      let toread := min rem (buf.length - off)
      let data := (buf.drop off).take toread
      if toread = buf.length then
        match recvLoop (rem - toread) 0 q with
        | .ok (rest, off', q') => .ok (data ++ rest, off', q')
        | .error e => .error e
      else if rem - toread = 0 then .ok (data, toread, buf :: q)
      else .error .assert

/-- mirrors lib/net/WebSocketClient.cpp:29-59 -/
def recvCallback (len : Nat) (ws : Client) : RecvRes × Client :=
  if ws.mTcp = false then (.callbackFailure, ws)
  else if ws.mReadBuffers = [] then (.wouldBlock, ws)
  else
    match recvLoop len ws.mBufferOffset ws.mReadBuffers with
    | .ok (data, off, q) => (.ret data, { ws with mReadBuffers := q, mBufferOffset := off })
    | .error e => (.ret [], { ws with fault := some e })

/-! ## The upgrade -/

/-- `memcpy` to the start of a block of memory. -/
def memcpy (mem src : Bytes) : Bytes := src ++ mem.drop src.length

/-- mirrors lib/net/WebSocketClient.cpp:263-286 -/
def mergeReadBuffers (fresh : Nat → UInt8) (ws : Client) : Client :=
  if ws.mReadBuffers.length < 2 then ws
  else
    let sz := ws.mReadBuffers.flatten.length
    if sz = 0 then { ws with mReadBuffers := [] }
    else
      -- every buffer is copied to `newbuf->data()`: `off` is counted and not used
      { ws with mReadBuffers := [ws.mReadBuffers.foldl memcpy ((List.range sz).map fresh)] }

/-- The lambda `find`: `s` is what is left of the block, `pos` where it starts.
`strncasecmp` reads `header.length` bytes of it.
mirrors lib/net/WebSocketClient.cpp:174-193 -/
def findLoop (header : Bytes) : Nat → Bytes → Nat → Option Nat
  | 0, _, _ => none
  | fuel + 1, s, pos =>
    if s.length < header.length then none
    else if eqCase s header then some (pos + header.length)
    else
      match memmem crlf s with
      | none => none
      | some eol =>
        if eol + 2 = s.length then none
        else findLoop header fuel (s.drop (eol + 2)) (pos + (eol + 2))

/-- Each turn of the loop uses up a line end. -/
def find (header block : Bytes) : Option Nat := findLoop header (block.length + 1) block 0

def acceptHeader : Bytes := ascii "sec-websocket-accept: "

def magic : Bytes := ascii "258EAFA5-E914-47DA-95CA-C5AB0DC85B11"

/-- `SHA_DIGEST_LENGTH` bytes. -/
abbrev Digest := { d : Bytes // d.length = 20 }

/-- Freeing the context and dropping the socket. -/
def giveUp (ws : Client) : Client := { ws with mCtx := false, mTcp := false }

/-- mirrors lib/net/WebSocketClient.cpp:156-261 -/
def attemptUpgrade (sha1 : Bytes → Digest) (fresh : Nat → UInt8) (encodedClientKey : Bytes)
    (ws : Client) : Client :=
  let ws := mergeReadBuffers fresh ws
  match ws.mReadBuffers with
  | [] => ws
  | [buffer] =>
    match memmem (crlf ++ crlf) buffer with
    | none => ws
    | some mptr =>
      let headersize := mptr + 4
      match find acceptHeader (buffer.take headersize) with
      | none => giveUp ws
      | some hptr =>
        match memmem crlf (buffer.drop hptr) with
        | none => giveUp ws
        | some hend =>
          let accept := (buffer.drop hptr).take hend
          let ws := { ws with mReadBuffers :=
            if buffer.length = headersize then [] else [buffer.drop headersize] }
          let b64digest := Base64.encode (sha1 (encodedClientKey ++ magic)).val 28
          if ¬ (20 < b64digest.length ∧ b64digest.length ≤ 28) then { ws with fault := some .assert }
          else if b64digest ≠ accept then giveUp ws
          else { ws with mUpgraded := true }
  | _ => { ws with fault := some .assert }

/-- The handler of `onData` up to the consume loop. Once `mTcp` is dropped no
data arrives any more.
mirrors lib/net/WebSocketClient.cpp:116-123 -/
def onData (sha1 : Bytes → Digest) (fresh : Nat → UInt8) (encodedClientKey buffer : Bytes)
    (ws : Client) : Client :=
  if ws.mTcp = false then ws
  else
    let ws := { ws with mReadBuffers := ws.mReadBuffers ++ [buffer] }
    if ws.mUpgraded then ws else attemptUpgrade sha1 fresh encodedClientKey ws

end Reckoning.L5.WebSocketClient
