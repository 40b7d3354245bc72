import Reckoning.Core.ByteQueue
import Reckoning.Core.LTS
import Reckoning.L1Bytes.Buffer

/-!
# The upload stream of the HTTP client

`HttpClient::write` and `endWrite` put buffers into `mBuffers`, curl takes the
bytes out of it with `easyReadCallback` (lib/net/HttpClient.cpp:337-370,
414-471). The buffers that have been copied stay in front of `mBufferPos` until
all have been.

A write to a paused transfer calls `curl_easy_pause`, in which curl may already
read; `mPaused` is reset when that returns. Such calls may be nested in one
another, and `resuming` counts them. Ghosts: what was `written` while the
transfer went on, what was `copied`, and `last`, what the callback returned if
that was the last step. `http = none` is a failed assertion.

Left out: a client that is gone, from which no write comes any more and whose
callback returns 0 at once (lib/net/HttpClient.cpp:340-343).

* `Delivers`: the intended stream.
* `read_spec`: one call of the callback, at a buffer that is not empty.
* `upload_iff`: the runs that keep `Delivers`.
-/
namespace Reckoning.L5.Upload
open Reckoning.L1 Reckoning.ByteQueue

/-! ## The code -/

/-- mirrors include/net/HttpClient.h:90-96 -/
structure HttpClient where
  mPaused : Bool
  mWriteEnd : Bool
  mBufferPos : Nat
  mBufferOffset : Nat
  mBuffers : List Bytes
  /-- whether it is set -/
  mConnectionInfo : Bool
  deriving DecidableEq, Repr

def HttpClient.init : HttpClient := ⟨false, false, 0, 0, [], true⟩

/-- What `easyReadCallback` returns: the bytes copied, or `CURL_READFUNC_PAUSE`. -/
inductive ReadResult
  | bytes (data : Bytes)
  | pause
  deriving DecidableEq, Repr

/-- From where `conn->http` has been locked.
mirrors lib/net/HttpClient.cpp:345-369 -/
def easyReadCallback (capacity : Nat) (http : HttpClient) : Option (ReadResult × HttpClient) :=
  if http.mBuffers = [] then
    if http.mWriteEnd then some (.bytes [], http)
    else some (.pause, { http with mPaused := true })
  else
    match http.mBuffers[http.mBufferPos]? with
    | none => none
    | some buffer =>
      if ¬ http.mBufferOffset < buffer.length then none
      else
        let toread := min capacity (buffer.length - http.mBufferOffset)
        let data := (buffer.drop http.mBufferOffset).take toread
        if http.mBufferOffset + toread = buffer.length then
          if http.mBufferPos + 1 = http.mBuffers.length then
            some (.bytes data, { http with mBufferOffset := 0, mBuffers := [], mBufferPos := 0 })
          else some (.bytes data, { http with mBufferOffset := 0, mBufferPos := http.mBufferPos + 1 })
        else some (.bytes data, { http with mBufferOffset := http.mBufferOffset + toread })

/-- mirrors lib/net/HttpClient.cpp:414-434 -/
def write (buffer : Bytes) (http : HttpClient) : HttpClient :=
  if ¬ http.mConnectionInfo then http else { http with mBuffers := http.mBuffers ++ [buffer] }

/-- mirrors lib/net/HttpClient.cpp:436-460 -/
def writeData (junk : Nat → UInt8) (p : Pool 20 16384) (data : Bytes) (http : HttpClient) :
    Option HttpClient :=
  if ¬ http.mConnectionInfo then some http
  else
    let (buffer, p) := p.get junk data.length
    (p.assign data buffer).map fun (buffer, p) => write (deref p buffer).bytes http

/-- mirrors lib/net/HttpClient.cpp:462-471 -/
def endWrite (http : HttpClient) : HttpClient :=
  if ¬ http.mConnectionInfo then http else { http with mWriteEnd := true }

/-! ## The machine -/

structure State where
  http : Option HttpClient
  resuming : Nat
  written : List Bytes
  copied : Bytes
  last : Option ReadResult

inductive Label
  | write (buffer : Bytes)
  | writeData (junk : Nat → UInt8) (p : Pool 20 16384) (data : Bytes)
  | endWrite
  /-- `curl_easy_pause` returns -/
  | resumed
  | read (capacity : Nat)
  /-- the transfer has ended -/
  | complete

def State.init : State := ⟨some .init, 0, [], [], none⟩

/-- A call that has put `data` there, and calls `curl_easy_pause` if curl is paused. -/
def State.call (s : State) (http : HttpClient) (data : List Bytes) (http' : Option HttpClient) :
    State where
  http := http'
  resuming := if http.mConnectionInfo ∧ http.mPaused then s.resuming + 1 else s.resuming
  written := if http.mConnectionInfo then s.written ++ data else s.written
  copied := s.copied
  last := none

def ReadResult.data : ReadResult → Bytes
  | .bytes data => data
  | .pause => []

/-- `endWrite` is the last call of them. -/
def step (s : State) (l : Label) : Option State :=
  s.http.bind fun http =>
    match l with
    | .write buffer =>
      if http.mWriteEnd then none else some (s.call http [buffer] (some (write buffer http)))
    | .writeData junk p data =>
      if http.mWriteEnd then none else some (s.call http [data] (writeData junk p data http))
    | .endWrite =>
      if http.mWriteEnd then none else some (s.call http [] (some (endWrite http)))
    | .resumed =>
      if s.resuming = 0 then none
      else
        some { s with
          http := some { http with mPaused := false }
          resuming := s.resuming - 1
          last := none }
    | .read capacity =>
      if capacity = 0 ∨ ¬ http.mConnectionInfo then none
      else
        match easyReadCallback capacity http with
        | none => some { s with http := none, last := none }
        | some (r, http) =>
          some { s with http := some http, copied := s.copied ++ r.data, last := some r }
    | .complete => some { s with http := some { http with mConnectionInfo := false }, last := none }

def upload : LTS State Label := LTS.ofFn (· = .init) step

/-- No assertion fails. What has been copied is in order and without a gap; the
callback returns 0 only at the end of it all, and pauses only where nothing is
left to send and more may come. -/
structure Delivers (s : State) : Prop where
  fault : s.http ≠ none
  order : s.copied <+: s.written.flatten
  eof : ∀ http, s.http = some http → s.last = some (.bytes []) →
    http.mWriteEnd = true ∧ s.copied = s.written.flatten
  pause : ∀ http, s.http = some http → s.last = some .pause →
    http.mWriteEnd = false ∧ s.copied = s.written.flatten

/-- The buffer that curl reads next is not empty. -/
def Keeps (s : State) : Label → Prop
  | .read _ => ∀ http ∈ s.http, http.mBuffers[http.mBufferPos]? ≠ some []
  | _ => True

instance (s : State) : ∀ l, Decidable (Keeps s l)
  | .read _ => inferInstanceAs (Decidable (∀ http ∈ s.http, _))
  | .write _ | .writeData .. | .endWrite | .resumed | .complete => isTrue trivial

/-! ## One call -/

/-- What is left to copy. -/
def HttpClient.left (http : HttpClient) : Bytes :=
  remaining http.mBufferOffset (http.mBuffers.drop http.mBufferPos)

/-- The position is inside the list, or at the start of an empty one. -/
structure Ok (http : HttpClient) : Prop where
  pos : http.mBuffers = [] ∧ http.mBufferPos = 0 ∨ http.mBufferPos < http.mBuffers.length
  offset : OffOk http.mBufferOffset (http.mBuffers.drop http.mBufferPos)

variable {http http' : HttpClient} {s s' : State} {l : Label}

theorem Ok.pos_le (h : Ok http) : http.mBufferPos ≤ http.mBuffers.length := by
  rcases h.pos with ⟨-, h0⟩ | hlt <;> omega

/-- A buffer that is put behind the others. -/
theorem Ok.push (h : Ok http) (buffer : Bytes) :
    Ok { http with mBuffers := http.mBuffers ++ [buffer] } ∧
      ({ http with mBuffers := http.mBuffers ++ [buffer] } : HttpClient).left =
        http.left ++ buffer := by
  have hle := h.pos_le
  have hdrop : (http.mBuffers ++ [buffer]).drop http.mBufferPos =
      http.mBuffers.drop http.mBufferPos ++ [buffer] := List.drop_append_of_le_length hle
  refine ⟨⟨.inr ?_, ?_⟩, ?_⟩
  · simp only [List.length_append, List.length_singleton]
    omega
  · simp only [hdrop]
    exact h.offset.append [buffer]
  · simp only [HttpClient.left, hdrop, remaining_append h.offset]
    simp

/-- The buffer of the pool has room, and what is put into it is what was given. -/
theorem writeData_eq (junk : Nat → UInt8) (p : Pool 20 16384) (data : Bytes) (http : HttpClient) :
    writeData junk p data http = some (write data http) := by
  unfold writeData
  by_cases hconn : http.mConnectionInfo = true
  · rw [if_neg (not_not_intro hconn)]
    rcases hget : p.get junk data.length with ⟨r, p₁⟩
    obtain ⟨r', p', hassign, hl⟩ := assign_spec data r p₁ (get_spec hget).1
    simp only [hassign, Option.map_some, hl.bytes]
  · rw [if_pos hconn, write, if_pos hconn]

/-- `http` copies `r` and is left as `http'`. -/
structure Copies (http : HttpClient) (r : ReadResult) (http' : HttpClient) : Prop where
  ok : Ok http'
  writeEnd : http'.mWriteEnd = http.mWriteEnd
  left : http.left = r.data ++ http'.left
  eof : r = .bytes [] → http'.mWriteEnd = true ∧ http'.left = []
  pause : r = .pause → http'.mWriteEnd = false ∧ http'.left = []

/-- With nothing to copy, curl is told to stop or to wait. -/
theorem read_empty (capacity : Nat) (h : Ok http) (hnil : http.mBuffers = []) :
    ∃ r http', easyReadCallback capacity http = some (r, http') ∧ Copies http r http' := by
  have hleft : http.left = [] := by simp [HttpClient.left, hnil]
  unfold easyReadCallback
  rw [if_pos hnil]
  by_cases hend : http.mWriteEnd = true
  · rw [if_pos hend]
    exact ⟨_, _, rfl, h, rfl, rfl, fun _ => ⟨hend, hleft⟩, nofun⟩
  · rw [if_neg hend]
    have hopen : http.mWriteEnd = false := Bool.not_eq_true _ ▸ hend
    exact ⟨_, _, rfl, ⟨h.pos, h.offset⟩, rfl, rfl, nofun, fun _ => ⟨hopen, hleft⟩⟩

/-- **One call of the callback** where the next buffer is not empty: what it
copies is the front of what is left, and something at least. -/
theorem read_spec {capacity : Nat} (h : Ok http) (hcap : capacity ≠ 0)
    (hne : http.mBuffers[http.mBufferPos]? ≠ some []) :
    ∃ r http', easyReadCallback capacity http = some (r, http') ∧ Copies http r http' := by
  by_cases hnil : http.mBuffers = []
  · exact read_empty capacity h hnil
  have hlt : http.mBufferPos < http.mBuffers.length := h.pos.resolve_left fun h0 => hnil h0.1
  have hdrop := List.drop_eq_getElem_cons hlt
  have hb := List.getElem?_eq_getElem hlt
  generalize http.mBuffers[http.mBufferPos] = b at hdrop hb
  have hpos : 0 < b.length := List.length_pos_iff.mpr fun h0 => hne (h0 ▸ hb)
  have hoff : http.mBufferOffset < b.length := by
    have hin : OffOk http.mBufferOffset (b :: _) := hdrop ▸ h.offset
    rcases hin.lt with h0 | h0 <;> omega
  let toread := min capacity (b.length - http.mBufferOffset)
  have hdata : (b.drop http.mBufferOffset).take toread ≠ [] := fun h0 => by
    have := congrArg List.length h0
    simp only [toread, List.length_take, List.length_drop, List.length_nil] at this
    omega
  have hbytes : ReadResult.bytes ((b.drop http.mBufferOffset).take toread) ≠ .bytes [] :=
    fun h0 => hdata (ReadResult.bytes.inj h0)
  unfold easyReadCallback
  simp only [if_neg hnil, hb, hoff, not_true_eq_false, if_false]
  split
  · rename_i hfull
    have hpop : http.left = (b.drop http.mBufferOffset).take toread ++
        remaining 0 (http.mBuffers.drop (http.mBufferPos + 1)) := by
      rw [HttpClient.left, hdrop]
      exact remaining_pop (by omega) _
    split
    · -- the last buffer: the list starts again
      rename_i hend
      rw [hend, List.drop_length] at hpop
      exact ⟨_, _, rfl, ⟨.inl ⟨rfl, rfl⟩, offOk_zero _⟩, rfl, hpop, fun h0 => absurd h0 hbytes, nofun⟩
    · rename_i hend
      have hnext : http.mBufferPos + 1 < http.mBuffers.length := by omega
      exact ⟨_, _, rfl, ⟨.inr hnext, offOk_zero _⟩, rfl, hpop, fun h0 => absurd h0 hbytes, nofun⟩
  · rename_i hpart
    have hin : http.mBufferOffset + toread < b.length := by omega
    refine ⟨_, _, rfl, ⟨.inr hlt, .inr ⟨b, _, hdrop, hin⟩⟩, rfl, ?_, fun h0 => absurd h0 hbytes, nofun⟩
    simp only [HttpClient.left, hdrop]
    exact remaining_advance _ _ _ _

/-- At an empty buffer an assertion fails. -/
theorem read_fails (capacity : Nat) (he : http.mBuffers[http.mBufferPos]? = some []) :
    easyReadCallback capacity http = none := by
  have hnil : http.mBuffers ≠ [] := fun h0 => by simp [h0] at he
  simp [easyReadCallback, if_neg hnil, he]

/-! ## Runs -/

/-- What has been copied and what is left are what was written. -/
structure Streams (s : State) (http : HttpClient) : Prop where
  client : s.http = some http
  ok : Ok http
  left : s.copied ++ http.left = s.written.flatten
  eof : s.last = some (.bytes []) → http.mWriteEnd = true ∧ http.left = []
  pause : s.last = some .pause → http.mWriteEnd = false ∧ http.left = []

def Inv (s : State) : Prop := ∃ http, Streams s http

theorem Inv.delivers (h : Inv s) : Delivers s := by
  obtain ⟨http, hs⟩ := h
  have hall : http.left = [] → s.copied = s.written.flatten := fun h0 => by
    rw [← hs.left, h0, List.append_nil]
  refine ⟨?_, ⟨http.left, hs.left⟩, fun http' h' hlast => ?_, fun http' h' hlast => ?_⟩
  · rw [hs.client]
    exact Option.some_ne_none http
  · cases hs.client.symm.trans h'
    exact ⟨(hs.eof hlast).1, hall (hs.eof hlast).2⟩
  · cases hs.client.symm.trans h'
    exact ⟨(hs.pause hlast).1, hall (hs.pause hlast).2⟩

/-- A call that has written `data`. -/
theorem Streams.call (h : Streams s http) (buffer : Bytes) :
    Streams (s.call http [buffer] (some (write buffer http))) (write buffer http) := by
  by_cases hconn : http.mConnectionInfo = true
  · have hwrite : write buffer http = { http with mBuffers := http.mBuffers ++ [buffer] } :=
      if_neg (not_not_intro hconn)
    rw [hwrite]
    obtain ⟨hok, hleft⟩ := h.ok.push buffer
    refine ⟨rfl, hok, ?_, nofun, nofun⟩
    simp only [State.call, if_pos hconn, hleft, ← List.append_assoc, h.left]
    simp
  · have hwrite : write buffer http = http := if_pos hconn
    rw [hwrite]
    refine ⟨rfl, h.ok, ?_, nofun, nofun⟩
    simp only [State.call, if_neg hconn, h.left]

theorem Streams.endWrite (h : Streams s http) :
    Streams (s.call http [] (some (endWrite http))) (endWrite http) := by
  have hwritten : (s.call http [] (some (Upload.endWrite http))).written = s.written := by
    simp [State.call]
  by_cases hconn : http.mConnectionInfo = true
  · have hend : Upload.endWrite http = { http with mWriteEnd := true } :=
      if_neg (not_not_intro hconn)
    rw [hend] at hwritten ⊢
    exact ⟨rfl, ⟨h.ok.pos, h.ok.offset⟩, hwritten ▸ h.left, nofun, nofun⟩
  · have hend : Upload.endWrite http = http := if_pos hconn
    rw [hend] at hwritten ⊢
    exact ⟨rfl, h.ok, hwritten ▸ h.left, nofun, nofun⟩

theorem inv_keeps (hi : Inv s) (hc : Keeps s l) (hs : step s l = some s') : Inv s' := by
  obtain ⟨http, h⟩ := hi
  simp only [step, h.client, Option.bind_some] at hs
  cases l with
  | write buffer =>
    simp only at hs
    split at hs
    · cases hs
    · cases hs
      exact ⟨_, h.call buffer⟩
  | writeData junk p data =>
    simp only [writeData_eq] at hs
    split at hs
    · cases hs
    · cases hs
      exact ⟨_, h.call data⟩
  | endWrite =>
    simp only at hs
    split at hs
    · cases hs
    · cases hs
      exact ⟨_, h.endWrite⟩
  | resumed =>
    simp only at hs
    split at hs
    · cases hs
    · cases hs
      exact ⟨_, rfl, ⟨h.ok.pos, h.ok.offset⟩, h.left, nofun, nofun⟩
  | read capacity =>
    simp only at hs
    split at hs
    · cases hs
    rename_i hcall
    obtain ⟨r, http', hread, hcopy⟩ :=
      read_spec h.ok (not_or.mp hcall).1 (hc http h.client)
    rw [hread] at hs
    cases hs
    refine ⟨http', rfl, hcopy.ok, ?_, fun hlast => ?_, fun hlast => ?_⟩
    · rw [← h.left, hcopy.left, List.append_assoc]
    · exact hcopy.eof (Option.some.inj hlast)
    · exact hcopy.pause (Option.some.inj hlast)
  | complete =>
    cases hs
    exact ⟨_, rfl, ⟨h.ok.pos, h.ok.offset⟩, h.left, nofun, nofun⟩

theorem delivers_breaks (hc : ¬ Keeps s l) (hs : step s l = some s') : ¬ Delivers s' := by
  intro hd
  cases l with
  | read capacity =>
    obtain ⟨http, hx⟩ := Classical.not_forall.mp hc
    obtain ⟨hhttp, he⟩ := Classical.not_imp.mp hx
    have hsome : s.http = some http := hhttp
    simp only [step, hsome, Option.bind_some, read_fails capacity (Classical.not_not.mp he)] at hs
    split at hs
    · cases hs
    · cases hs
      exact hd.fault rfl
  | _ => exact hc trivial

theorem inv_init : Inv .init :=
  ⟨.init, rfl, ⟨.inl ⟨rfl, rfl⟩, offOk_zero _⟩, rfl, nofun, nofun⟩

theorem exact_keeps : upload.Exact Keeps Inv Delivers where
  holds _ := Inv.delivers
  keeps _ _ _ := inv_keeps
  breaks _ _ _ _ := delivers_breaks

/-- **An upload is delivered** exactly when curl never finds an empty buffer next. -/
theorem upload_iff (t : List (Label × State)) (ht : upload.Trace .init t) :
    LTS.AllStates Delivers .init t ↔ LTS.AllSteps Keeps .init t :=
  exact_keeps.allStates_iff ht inv_init

/-- Two buffers, read in three pieces with a pause between. -/
def twoBuffers : List Label :=
  [.write [1, 2, 3], .read 2, .read 2, .read 2, .write [4], .read 2, .resumed, .endWrite, .read 2]

theorem upload_twoBuffers : LTS.AllStates Delivers .init
    ((LTS.record step .init twoBuffers).get (by decide)) :=
  (upload_iff _ (LTS.trace_record (by decide))).mpr (by decide)

/-- A write of no bytes. -/
theorem write_nothing : ¬ ∀ t, upload.Trace .init t → LTS.AllStates Delivers .init t := by
  intro h
  have hall := h _ (LTS.trace_record (show (LTS.record step .init [.write [], .read 1]).isSome by
    decide))
  exact hall.last.fault (by decide)

end Reckoning.L5.Upload
