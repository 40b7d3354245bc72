import Reckoning.Core.LTS
import Reckoning.L1Bytes.Buffer

/-!
# Collecting chunks up to a needle

`buffer::Wait` (include/buffer/Wait.h) keeps the chunks it is fed until the
needle is found in them, and emits them as one buffer with the position of the
needle. The buffers come from the pool of the thread, which the rest of the program may
use between two calls, but not to change the buffer that `Wait` holds.

An emit is the last thing that `feed` does, so a handler that feeds again makes
the next call. The emit moves the buffer out of `Wait` if there is a listener
(the handler takes it by value, include/event/Signal.h:27).

* `next`: what a call does to the bytes held, and what it emits.
* `feed_spec`: the code does that, without a failed assertion.
* `collects`: with one listener, chunks that stay within the bound are handled
  like one contiguous text.
* `bounded_iff`: which runs keep to the bound.
-/
namespace Reckoning.L1.Wait
variable {number size : Nat}

/-! ## The code -/

/-- The buffer of an emit, which may be null, and the offset. -/
structure Emission where
  buffer : Option Bytes
  offset : Nat
  deriving DecidableEq, Repr

/-- `mBuffer` and the pool of the thread. -/
structure Thread (number size : Nat) where
  tPool : Pool number size
  mBuffer : Option (Ref number)

/-- The size is looked at first.
mirrors include/buffer/Wait.h:80-82,113-114 -/
def find (mNeedle b : Bytes) : Option Nat :=
  if mNeedle.length ≤ b.length then memmem mNeedle b else none

section
variable (junk : Nat → UInt8) (mNeedle : Bytes) (listeners : Nat) (buffer : Ref number)

/-- Nothing is held yet: the chunk itself is kept.
mirrors include/buffer/Wait.h:78-90 -/
def feedFirst (t : Thread number size) : Thread number size × List Emission :=
  let b := (deref t.tPool buffer).bytes
  match find mNeedle b with
  | some found => (t, [⟨some b, found⟩])
  | none => ({ t with mBuffer := some buffer }, [])

/-- A buffer with room for `MaxBufferSize`.
mirrors include/buffer/Wait.h:99-105 -/
def enlarge (mBuffer : Ref number) (p : Pool number size) : Option (Ref number × Pool number size) :=
  if (deref p mBuffer).mSize < size then
    let (buf, p) := p.get junk size
    (p.assign (deref p mBuffer).bytes buf).map fun (buf, p) => (buf, p.release mBuffer)
  else some (mBuffer, p)

/-- mirrors include/buffer/Wait.h:91-119 -/
def feedNext (mBuffer : Ref number) (p : Pool number size) :
    Option (Thread number size × List Emission) :=
  if size < (deref p mBuffer).mSize + (deref p buffer).mSize then
    some (⟨p.release mBuffer, none⟩, [⟨none, 0⟩])
  else
    (enlarge junk mBuffer p).bind fun (mBuffer, p) =>
      (p.append (deref p buffer).bytes mBuffer).map fun (mBuffer, p) =>
        let p := p.release buffer
        let b := (deref p mBuffer).bytes
        match find mNeedle b with
        | some found => (⟨p, if listeners = 0 then some mBuffer else none⟩, [⟨some b, found⟩])
        | none => (⟨p, some mBuffer⟩, [])

/-- mirrors include/buffer/Wait.h:76-120 -/
def feed (t : Thread number size) : Option (Thread number size × List Emission) :=
  match t.mBuffer with
  | none => some (feedFirst mNeedle buffer t)
  | some mBuffer => feedNext junk mNeedle listeners buffer mBuffer t.tPool

end

/-- The bytes held. -/
def Thread.contents (t : Thread number size) : Option Bytes :=
  t.mBuffer.map fun r => (deref t.tPool r).bytes

/-! ## What one call does -/

/-- The bytes held after a call, and what it emits. -/
def next (max : Nat) (mNeedle : Bytes) (listeners : Nat) (held : Option Bytes) (chunk : Bytes) :
    Option Bytes × List Emission :=
  match held with
  | none =>
    match memmem mNeedle chunk with
    | some found => (none, [⟨some chunk, found⟩])
    | none => (some chunk, [])
  | some held =>
    if max < held.length + chunk.length then (none, [⟨none, 0⟩])
    else
      match memmem mNeedle (held ++ chunk) with
      | some found =>
        (if listeners = 0 then some (held ++ chunk) else none, [⟨some (held ++ chunk), found⟩])
      | none => (some (held ++ chunk), [])

/-- Where there is no room for the needle it is not found either. -/
theorem find_eq (mNeedle b : Bytes) : find mNeedle b = memmem mNeedle b := by
  unfold find
  split
  · rfl
  · rename_i hlt
    cases hm : memmem mNeedle b with
    | none => rfl
    | some i =>
      have := (memmem_eq_some.mp hm).le
      omega

section
variable {p : Pool number size} {r : Ref number}

/-- The buffer that `append` is called on has the bytes held, and room up to the bound. -/
theorem enlarge_spec (junk : Nat → UInt8) {rs : List (Ref number)} (h : Counted p (r :: rs))
    (hle : (deref p r).mSize ≤ size) :
    ∃ r' p', enlarge junk r p = some (r', p') ∧ Counted p' (r' :: rs) ∧
      (deref p' r').bytes = (deref p r).bytes ∧
      (size ≤ r'.max size ∨ (deref p r).mSize = size) ∧
      ∀ r₀ ∈ rs, deref p' r₀ = deref p r₀ := by
  unfold enlarge
  split
  · rename_i hlt
    rcases hget : p.get junk size with ⟨r₁, p₁⟩
    have hmax := (get_spec hget).1
    have hfresh := fresh_get hget
    -- the buffer handed out is not the one held, so that still has its bytes
    have hsame : deref p₁ r = deref p r := (hfresh.others r (h.held List.mem_cons_self)).2.2
    obtain ⟨r₂, p₂, hassign, hl⟩ := assign_spec (deref p r).bytes r₁ p₁
      (by rw [Buffer.bytes_length]; omega)
    obtain ⟨hcounted, hslot⟩ := (h.get hget).call hassign
    have hcopy := hfresh.leaves hl
    refine ⟨r₂, p₂.release r, ?_, ?_, ?_, .inl (by rw [hl.max]; exact hmax), fun r₀ h₀ => ?_⟩
    · simp only [hsame, hassign, Option.map_some]
    · exact (hcounted.slot hslot).swap.release
    · rw [deref_release, hcopy.bytes]
    · rw [deref_release]
      exact (hcopy.others r₀ (h.held (List.mem_cons_of_mem r h₀))).2.2
  · rename_i hge
    exact ⟨r, p, rfl, h, rfl, .inr (by omega), fun _ _ => rfl⟩

/-- The bytes of the chunk are added, and the chunk is given back. -/
theorem append_chunk {buffer : Ref number} (h : Counted p [r, buffer])
    (hroom : (deref p r).mSize + (deref p buffer).mSize ≤ r.max size) :
    ∃ r' p', p.append (deref p buffer).bytes r = some (r', p') ∧ Counted (p'.release buffer) [r'] ∧
      (deref (p'.release buffer) r').bytes = (deref p r).bytes ++ (deref p buffer).bytes := by
  obtain ⟨r', p', happ, hl⟩ := append_spec (deref p buffer).bytes r p
    (by rw [Buffer.bytes_length]; exact hroom)
  obtain ⟨hcounted, hslot⟩ := h.call happ
  exact ⟨r', p', happ, (hcounted.slot hslot).swap.release, by rw [deref_release, hl.bytes]⟩

theorem feedNext_spec {buffer : Ref number} (h : Counted p [r, buffer]) (junk : Nat → UInt8)
    (mNeedle : Bytes) (listeners : Nat) :
    ∃ t', feedNext junk mNeedle listeners buffer r p =
        some (t', (next size mNeedle listeners (some (deref p r).bytes) (deref p buffer).bytes).2) ∧
      t'.contents =
        (next size mNeedle listeners (some (deref p r).bytes) (deref p buffer).bytes).1 ∧
      Counted t'.tPool t'.mBuffer.toList := by
  unfold feedNext
  simp only [next, Buffer.bytes_length]
  split
  · exact ⟨_, rfl, rfl, counted_nil⟩
  rename_i hfits
  obtain ⟨r₁, p₁, henlarge, hcounted, hbytes, hmax, hsame⟩ :=
    enlarge_spec junk h (by omega)
  have hchunk := hsame buffer (List.mem_singleton_self buffer)
  have hroom : (deref p₁ r₁).mSize + (deref p₁ buffer).mSize ≤ r₁.max size := by
    have hsize := congrArg List.length hbytes
    have := (deref p₁ r₁).size_le
    rw [Buffer.bytes_length, Buffer.bytes_length] at hsize
    rw [hchunk]
    omega
  obtain ⟨r₂, p₂, happ, hcounted₂, hbytes₂⟩ := append_chunk hcounted hroom
  rw [hbytes, hchunk] at hbytes₂
  rw [hchunk] at happ
  simp only [henlarge, Option.bind_some, hchunk, happ, Option.map_some, hbytes₂, find_eq]
  have hkept : (Thread.mk (p₂.release buffer) (some r₂)).contents =
      some ((deref p r).bytes ++ (deref p buffer).bytes) := congrArg some hbytes₂
  cases memmem mNeedle ((deref p r).bytes ++ (deref p buffer).bytes) with
  | none => exact ⟨_, rfl, hkept, hcounted₂⟩
  | some found =>
    by_cases hl : listeners = 0
    · simp only [hl, if_true]
      exact ⟨_, rfl, hkept, hcounted₂⟩
    · simp only [hl, if_false]
      exact ⟨_, rfl, rfl, counted_nil⟩

/-- **A call does what `next` says**, and no assertion fails. -/
theorem feed_spec {t : Thread number size} {buffer : Ref number}
    (h : Counted t.tPool (buffer :: t.mBuffer.toList)) (junk : Nat → UInt8) (mNeedle : Bytes)
    (listeners : Nat) :
    ∃ t', feed junk mNeedle listeners buffer t =
        some (t', (next size mNeedle listeners t.contents (deref t.tPool buffer).bytes).2) ∧
      t'.contents = (next size mNeedle listeners t.contents (deref t.tPool buffer).bytes).1 ∧
      Counted t'.tPool t'.mBuffer.toList := by
  obtain ⟨p, mBuffer⟩ := t
  cases mBuffer with
  | none =>
    simp only [feed, feedFirst, find_eq, Thread.contents, next, Option.map_none]
    cases memmem mNeedle (deref p buffer).bytes with
    | none => exact ⟨_, rfl, rfl, h⟩
    | some found => exact ⟨_, rfl, rfl, counted_nil⟩
  | some r => exact feedNext_spec h.swap junk mNeedle listeners

end

/-! ## Runs -/

/-- A call of `feed`: the bytes held before and after it, the chunk and the emits. -/
structure Call where
  before : Option Bytes
  chunk : Bytes
  emitted : List Emission
  after : Option Bytes
  deriving DecidableEq, Repr

/-- `thread = none` is a failed assertion. Ghost: the `calls` so far. -/
structure State (number size : Nat) where
  thread : Option (Thread number size)
  calls : List Call

inductive Label (number size : Nat)
  | feed (junk : Nat → UInt8) (listeners : Nat) (buffer : Ref number)
  | others (p : Pool number size)

/-- The state that the result of `feed` leads to. -/
def State.called (s : State number size) (t : Thread number size) (buffer : Ref number) :
    Option (Thread number size × List Emission) → State number size
  | none => { s with thread := none }
  | some (t', emitted) =>
    ⟨some t', s.calls ++ [⟨t.contents, (deref t.tPool buffer).bytes, emitted, t'.contents⟩]⟩

/-- A chunk is a shared pointer besides the one that is held. `L` says how many
listeners there may be. -/
inductive Step (mNeedle : Bytes) (L : Nat → Prop) :
    State number size → Label number size → State number size → Prop
  | feed {s : State number size} {t : Thread number size} {junk : Nat → UInt8} {listeners : Nat}
      {buffer : Ref number} :
      s.thread = some t → Counted t.tPool (buffer :: t.mBuffer.toList) → L listeners →
      Step mNeedle L s (.feed junk listeners buffer)
        (s.called t buffer (feed junk mNeedle listeners buffer t))
  | others {s : State number size} {t : Thread number size} {p : Pool number size} :
      s.thread = some t → Counted p t.mBuffer.toList →
      (∀ r, t.mBuffer = some r → deref p r = deref t.tPool r) →
      Step mNeedle L s (.others p) { s with thread := some { t with tPool := p } }

/-- Nothing has been fed, in any state of the pool. -/
def State.start (p : Pool number size) : State number size := ⟨some ⟨p, none⟩, []⟩

def wait (mNeedle : Bytes) (L : Nat → Prop) : LTS (State number size) (Label number size) where
  init s := ∃ p, s = .start p
  step := Step mNeedle L

variable {mNeedle : Bytes} {L : Nat → Prop} {s s' : State number size} {l : Label number size}

/-- No assertion has failed, and the bytes held are `held`. -/
def Holds (s : State number size) (held : Option Bytes) : Prop :=
  ∃ t, s.thread = some t ∧ t.contents = held ∧ Counted t.tPool t.mBuffer.toList

theorem holds_start (p : Pool number size) : Holds (.start p) none :=
  ⟨_, rfl, rfl, counted_nil⟩

/-- **What a step does**: a call adds what `next` says, the others change nothing. -/
theorem step_cases {held : Option Bytes} (h : Holds s held) (hs : Step mNeedle L s l s') :
    (∃ junk listeners buffer chunk, l = .feed junk listeners buffer ∧ L listeners ∧
      (∀ t, s.thread = some t → (deref t.tPool buffer).bytes = chunk) ∧
      s'.calls = s.calls ++ [⟨held, chunk, (next size mNeedle listeners held chunk).2,
        (next size mNeedle listeners held chunk).1⟩] ∧
      Holds s' (next size mNeedle listeners held chunk).1) ∨
    (∃ p, l = .others p ∧ s'.calls = s.calls ∧ Holds s' held) := by
  obtain ⟨t, ht, rfl, -⟩ := h
  cases hs with
  | @feed t₁ junk listeners buffer ht₁ hcounted hl =>
    obtain rfl := Option.some.inj (ht.symm.trans ht₁)
    obtain ⟨t', hfeed, hcontents, hcounted'⟩ := feed_spec hcounted junk mNeedle listeners
    refine .inl ⟨junk, listeners, buffer, (deref t.tPool buffer).bytes, rfl, hl, fun t₂ ht₂ => ?_,
      ?_, ?_⟩
    · obtain rfl := Option.some.inj (ht.symm.trans ht₂)
      rfl
    · rw [hfeed, State.called, hcontents]
    · rw [hfeed]
      exact ⟨t', rfl, hcontents, hcounted'⟩
  | @others t₁ p ht₁ hcounted hsame =>
    obtain rfl := Option.some.inj (ht.symm.trans ht₁)
    refine .inr ⟨p, rfl, rfl, _, rfl, ?_, hcounted⟩
    unfold Thread.contents
    cases hb : t.mBuffer with
    | none => rfl
    | some r => simp only [Option.map_some, hsame r hb]

/-! ## Chunks do not matter -/

/-- One text that is read as it arrives, with nothing said about buffers: what
is emitted after one chunk more, and what has to be kept. -/
def read (mNeedle text chunk : Bytes) : Option Emission × Bytes :=
  match memmem mNeedle (text ++ chunk) with
  | some found => (some ⟨some (text ++ chunk), found⟩, [])
  | none => (none, text ++ chunk)

/-- One entry for every chunk, and what is kept after the last. -/
def readAll (mNeedle : Bytes) : Bytes → List Bytes → List (Option Emission) × Bytes
  | text, [] => ([], text)
  | text, chunk :: chunks =>
    let (emission, text) := read mNeedle text chunk
    let (emissions, text) := readAll mNeedle text chunks
    (emission :: emissions, text)

/-- What has arrived since the last emit is never longer than `max`. -/
def Within (max : Nat) (mNeedle : Bytes) (chunks : List Bytes) : Prop :=
  ∀ before chunk, before ++ [chunk] <+: chunks →
    ((readAll mNeedle [] before).2 ++ chunk).length ≤ max

theorem readAll_append (mNeedle : Bytes) (chunk : Bytes) : ∀ (text : Bytes) (chunks : List Bytes),
    readAll mNeedle text (chunks ++ [chunk]) =
      ((readAll mNeedle text chunks).1 ++ [(read mNeedle (readAll mNeedle text chunks).2 chunk).1],
        (read mNeedle (readAll mNeedle text chunks).2 chunk).2)
  | _, [] => rfl
  | text, c :: chunks => by
    simp only [List.cons_append, readAll, readAll_append mNeedle chunk _ chunks]

theorem within_nil (max : Nat) (mNeedle : Bytes) : Within max mNeedle [] :=
  fun _ _ hp => absurd (List.prefix_nil.mp hp) (List.append_ne_nil_of_right_ne_nil _ (by simp))

theorem within_append {max : Nat} {chunks : List Bytes} {chunk : Bytes} :
    Within max mNeedle (chunks ++ [chunk]) ↔
      Within max mNeedle chunks ∧ ((readAll mNeedle [] chunks).2 ++ chunk).length ≤ max := by
  constructor
  · intro h
    exact ⟨fun before c hp => h before c (hp.trans (List.prefix_append _ _)),
      h chunks chunk (List.prefix_refl _)⟩
  · intro h before c hp
    rcases List.prefix_concat_iff.mp hp with heq | hp
    · obtain ⟨rfl, hc⟩ := List.append_inj' heq rfl
      cases hc
      exact h.2
    · exact h.1 before c hp

theorem next_eq_read (mNeedle : Bytes) {max listeners : Nat} {held : Option Bytes} {chunk : Bytes}
    (hl : listeners ≠ 0) (hle : (held.getD [] ++ chunk).length ≤ max) :
    (next max mNeedle listeners held chunk).2 = (read mNeedle (held.getD []) chunk).1.toList ∧
      (next max mNeedle listeners held chunk).1.getD [] = (read mNeedle (held.getD []) chunk).2 := by
  cases held with
  | none =>
    simp only [next, read, Option.getD_none, List.nil_append]
    cases memmem mNeedle chunk <;> exact ⟨rfl, rfl⟩
  | some held =>
    rw [Option.getD_some, List.length_append] at hle
    simp only [next, read, Option.getD_some, if_neg (Nat.not_lt.mpr hle), if_neg hl]
    cases memmem mNeedle (held ++ chunk) <;> exact ⟨rfl, rfl⟩

/-- The chunks that have been fed. -/
def State.chunks (s : State number size) : List Bytes := s.calls.map Call.chunk

/-- Every call has emitted what reading one text gives, and the rest of it is `held`. -/
structure Collects (mNeedle : Bytes) (s : State number size) (held : Option Bytes) : Prop where
  emitted : s.calls.map Call.emitted = (readAll mNeedle [] s.chunks).1.map Option.toList
  rest : held.getD [] = (readAll mNeedle [] s.chunks).2

/-- One call more, under the bound. -/
theorem Collects.call {held : Option Bytes} {chunk : Bytes} (h : Collects mNeedle s held)
    (hle : (held.getD [] ++ chunk).length ≤ size) {listeners : Nat} (hl : listeners ≠ 0)
    (hcalls : s'.calls = s.calls ++ [⟨held, chunk, (next size mNeedle listeners held chunk).2,
      (next size mNeedle listeners held chunk).1⟩]) :
    Collects mNeedle s' (next size mNeedle listeners held chunk).1 := by
  obtain ⟨hemitted, hrest⟩ := next_eq_read mNeedle hl hle
  have hchunks : s'.chunks = s.chunks ++ [chunk] := by
    rw [State.chunks, hcalls, List.map_append]
    rfl
  constructor
  · rw [hchunks, readAll_append, ← h.rest, hcalls, List.map_append, List.map_append, h.emitted]
    exact congrArg (_ ++ [·]) hemitted
  · rw [hchunks, readAll_append, ← h.rest]
    exact hrest

theorem collects_inductive :
    (wait mNeedle (· = 1) : LTS (State number size) (Label number size)).Inductive fun s =>
      ∃ held, Holds s held ∧ (Within size mNeedle s.chunks → Collects mNeedle s held) where
  init s hi := by
    obtain ⟨p, rfl⟩ := hi
    exact ⟨none, holds_start p, fun _ => ⟨rfl, rfl⟩⟩
  step s l s' hi hs := by
    obtain ⟨held, hholds, hcollects⟩ := hi
    rcases step_cases hholds hs with
      ⟨junk, listeners, buffer, chunk, -, hl, -, hcalls, hholds'⟩ | ⟨p, -, hcalls, hholds'⟩
    · refine ⟨_, hholds', fun hw => ?_⟩
      have hchunks : s'.chunks = s.chunks ++ [chunk] := by
        rw [State.chunks, hcalls, List.map_append]
        rfl
      rw [hchunks] at hw
      obtain ⟨hbefore, hle⟩ := within_append.mp hw
      have hc := hcollects hbefore
      rw [← hc.rest] at hle
      exact hc.call hle (by rw [hl]; decide) hcalls
    · have hchunks : s'.chunks = s.chunks := by rw [State.chunks, hcalls]; rfl
      refine ⟨held, hholds', fun hw => ?_⟩
      have hc := hcollects (hchunks ▸ hw)
      exact ⟨by rw [hcalls, hchunks]; exact hc.emitted, by rw [hchunks]; exact hc.rest⟩

/-- **Chunks do not matter**: in every run with one listener in which what has arrived since the
last emit stays within the bound. -/
theorem collects (mNeedle : Bytes) (s : State number size)
    (h : (wait mNeedle (· = 1)).Reachable s) (hw : Within size mNeedle s.chunks) :
    ∃ held, Holds s held ∧ Collects mNeedle s held := by
  obtain ⟨held, hholds, hcollects⟩ := collects_inductive.reachable s h
  exact ⟨held, hholds, hcollects hw⟩

/-- A pool of zeroes that nobody uses. -/
def zeroes (number size : Nat) : Pool number size :=
  fun _ => ⟨Buffer.create (fun _ => 0) size, 0⟩

/-- A chunk of `n` times the byte `b`. -/
def chunkOf (b : UInt8) (n : Nat) : Ref 1 := .own (Buffer.create (fun _ => b) n)

theorem counted_zeroes {rs : List (Ref number)} (h : rs.filterMap Ref.slot = []) :
    Counted (zeroes number size) rs := by
  intro i
  rw [h]
  exact Nat.zero_le _

/-- The needle `[1, 2]` in two chunks. -/
theorem collects_straddling : ∃ s : State 1 4, (wait [1, 2] (· = 1)).Reachable s ∧
    Within 4 [1, 2] s.chunks ∧ s.chunks = [[1], [2]] ∧ ∃ held, Holds s held ∧
      Collects [1, 2] s held := by
  let t : Thread 1 4 := ⟨zeroes 1 4, some (chunkOf 1 1)⟩
  have hreach : (wait [1, 2] (· = 1)).Reachable (State.called ⟨some t, [⟨none, [1], [], some [1]⟩]⟩
      t (chunkOf 2 1) (feed (fun _ => 0) [1, 2] 1 (chunkOf 2 1) t)) :=
    ⟨_, [.feed (fun _ => 0) 1 (chunkOf 1 1), .feed (fun _ => 0) 1 (chunkOf 2 1)], ⟨_, rfl⟩,
      .cons (.feed rfl (counted_zeroes rfl) rfl)
        (.cons (.feed rfl (counted_zeroes rfl) rfl) (.nil _))⟩
  have hw : Within 4 [1, 2] ([[1]] ++ [[2]]) :=
    within_append.mpr ⟨within_append.mpr ⟨within_nil 4 [1, 2], by decide⟩, by decide⟩
  exact ⟨_, hreach, hw, rfl, collects [1, 2] _ hreach hw⟩

/-! ## The bound -/

/-- A call does not leave too much, and if it would, without a match, it emits null and leaves
nothing. -/
structure Call.Bounded (max : Nat) (mNeedle : Bytes) (c : Call) : Prop where
  held : ∀ b, c.after = some b → b.length ≤ max
  excess : max < (c.before.getD [] ++ c.chunk).length →
    memmem mNeedle (c.before.getD [] ++ c.chunk) = none → c.emitted = [⟨none, 0⟩] ∧ c.after = none

/-- No assertion has failed, there is never more than `MaxBufferSize` held, and
each call keeps to it. -/
structure Bounded (mNeedle : Bytes) (s : State number size) : Prop where
  held : ∃ held, Holds s held ∧ ∀ b, held = some b → b.length ≤ size
  calls : ∀ c ∈ s.calls, c.Bounded size mNeedle

/-- A chunk that comes when nothing is held is not longer than `MaxBufferSize`,
or has the needle. -/
def Keeps (mNeedle : Bytes) (s : State number size) : Label number size → Prop
  | .feed _ _ buffer => ∀ t, s.thread = some t → t.mBuffer = none →
      (deref t.tPool buffer).mSize ≤ size ∨ (memmem mNeedle (deref t.tPool buffer).bytes).isSome
  | .others _ => True

/-- The condition, said of what a call starts from. -/
def Fits (max : Nat) (mNeedle : Bytes) (held : Option Bytes) (chunk : Bytes) : Prop :=
  held = none → chunk.length ≤ max ∨ (memmem mNeedle chunk).isSome

theorem next_bounded {max : Nat} {held : Option Bytes} {chunk : Bytes}
    (h : Fits max mNeedle held chunk) (listeners : Nat) :
    Call.Bounded max mNeedle ⟨held, chunk, (next max mNeedle listeners held chunk).2,
      (next max mNeedle listeners held chunk).1⟩ := by
  cases held with
  | none =>
    cases hm : memmem mNeedle chunk with
    | some found =>
      refine ⟨fun b hb => ?_, fun _ hno => ?_⟩
      · simp only [next, hm, reduceCtorEq] at hb
      · simp only [Option.getD_none, List.nil_append, hm, reduceCtorEq] at hno
    | none =>
      have hle : chunk.length ≤ max := (h rfl).resolve_right (by rw [hm]; decide)
      refine ⟨fun b hb => ?_, fun hgt => absurd hle (Nat.not_le.mpr hgt)⟩
      simp only [next, hm, Option.some.injEq] at hb
      exact hb ▸ hle
  | some held =>
    by_cases hgt : max < held.length + chunk.length
    · have hnull : next max mNeedle listeners (some held) chunk = (none, [⟨none, 0⟩]) := if_pos hgt
      rw [hnull]
      exact ⟨fun b hb => absurd hb.symm (Option.some_ne_none b), fun _ _ => ⟨rfl, rfl⟩⟩
    · refine ⟨fun b hb => ?_, fun hgt' => absurd (List.length_append ▸ hgt') hgt⟩
      have hb : b = held ++ chunk := by
        simp only [next, if_neg hgt] at hb
        split at hb
        · split at hb <;> cases hb
          rfl
        · cases hb
          rfl
      rw [hb, List.length_append]
      omega

/-- Without the condition the chunk is kept as it is, and nothing is emitted. -/
theorem next_unbounded {max : Nat} {held : Option Bytes} {chunk : Bytes}
    (h : ¬ Fits max mNeedle held chunk) (listeners : Nat) :
    ¬ Call.Bounded max mNeedle ⟨held, chunk, (next max mNeedle listeners held chunk).2,
      (next max mNeedle listeners held chunk).1⟩ := by
  intro hb
  obtain ⟨rfl, hno⟩ := Classical.not_imp.mp h
  obtain ⟨hgt, hm⟩ := not_or.mp hno
  have hm : memmem mNeedle chunk = none := Option.not_isSome_iff_eq_none.mp hm
  obtain ⟨-, hafter⟩ := hb.excess (Nat.not_le.mp hgt) hm
  simp only [next, hm, reduceCtorEq] at hafter

theorem keeps_feed {junk : Nat → UInt8} {listeners : Nat} {buffer : Ref number}
    {held : Option Bytes} {chunk : Bytes} (h : Holds s held)
    (hchunk : ∀ t, s.thread = some t → (deref t.tPool buffer).bytes = chunk) :
    Keeps mNeedle s (.feed junk listeners buffer) ↔ Fits size mNeedle held chunk := by
  obtain ⟨t, ht, rfl, -⟩ := h
  have hchunk := hchunk t ht
  have hnone : t.contents = none ↔ t.mBuffer = none := Option.map_eq_none_iff
  rw [Keeps, Fits, hnone, ← hchunk, Buffer.bytes_length]
  refine ⟨fun h => h t ht, fun h t' ht' => ?_⟩
  obtain rfl := Option.some.inj (ht.symm.trans ht')
  exact h

theorem exact_keeps : (wait mNeedle L : LTS (State number size) (Label number size)).Exact
    (Keeps mNeedle) (Bounded mNeedle) (Bounded mNeedle) where
  holds _ := id
  keeps s l s' hi hc hs := by
    obtain ⟨held, hholds, hle⟩ := hi.held
    rcases step_cases hholds hs with
      ⟨junk, listeners, buffer, chunk, rfl, -, hchunk, hcalls, hholds'⟩ | ⟨p, -, hcalls, hholds'⟩
    · have hcall := next_bounded ((keeps_feed hholds hchunk).mp hc) listeners
      refine ⟨⟨_, hholds', hcall.held⟩, ?_⟩
      rw [hcalls]
      exact List.forall_mem_append.mpr ⟨hi.calls, List.forall_mem_singleton.mpr hcall⟩
    · exact ⟨⟨held, hholds', hle⟩, hcalls ▸ hi.calls⟩
  breaks s l s' hi hc hs hb := by
    obtain ⟨held, hholds, -⟩ := hi.held
    rcases step_cases hholds hs with
      ⟨junk, listeners, buffer, chunk, rfl, -, hchunk, hcalls, -⟩ | ⟨p, rfl, -, -⟩
    · refine next_unbounded (fun hf => hc ((keeps_feed hholds hchunk).mpr hf)) listeners ?_
      exact hb.calls _ (by rw [hcalls]; exact List.mem_append_right _ (List.mem_singleton_self _))
    · exact hc trivial

/-- **What is held is bounded** exactly when no chunk that is longer than the bound, and without
the needle, comes first. -/
theorem bounded_iff (mNeedle : Bytes) (p : Pool number size)
    (t : List (Label number size × State number size))
    (ht : (wait mNeedle fun _ => True).Trace (.start p) t) :
    LTS.AllStates (Bounded mNeedle) (.start p) t ↔ LTS.AllSteps (Keeps mNeedle) (.start p) t :=
  exact_keeps.allStates_iff ht ⟨⟨none, holds_start p, nofun⟩, nofun⟩

/-- Two bytes and two more, where there is room for three. -/
theorem bounded_later : ∃ t, (wait [10] fun _ => True).Trace (.start (zeroes 1 3)) t ∧
    t.length = 2 ∧ LTS.AllStates (Bounded [10]) (.start (zeroes 1 3)) t := by
  let l : Label 1 3 := .feed (fun _ => 0) 1 (chunkOf 0 2)
  let t₁ : Thread 1 3 := ⟨zeroes 1 3, some (chunkOf 0 2)⟩
  let s₁ : State 1 3 := ⟨some t₁, [⟨none, [0, 0], [], some [0, 0]⟩]⟩
  let s₂ : State 1 3 :=
    ⟨some ⟨zeroes 1 3, none⟩, s₁.calls ++ [⟨some [0, 0], [0, 0], [⟨none, 0⟩], none⟩]⟩
  have h₁ : Step [10] (fun _ => True) (.start (zeroes 1 3)) l s₁ :=
    .feed (t := ⟨zeroes 1 3, none⟩) rfl (counted_zeroes rfl) trivial
  have h₂ : Step [10] (fun _ => True) s₁ l s₂ :=
    .feed (t := t₁) rfl (counted_zeroes rfl) trivial
  have htrace : (wait [10] fun _ => True).Trace (.start (zeroes 1 3)) [(l, s₁), (l, s₂)] :=
    .cons h₁ (.cons h₂ (.nil s₂))
  exact ⟨_, htrace, rfl, (bounded_iff [10] (zeroes 1 3) _ htrace).mpr
    ⟨fun _ _ _ => .inl (Nat.le_succ 2), fun _ _ _ => .inl (Nat.le_succ 2), trivial⟩⟩

/-- Four bytes at once, where there is room for three. -/
theorem firstChunk_kept : ¬ ∀ t, (wait [10] fun _ => True).Trace (.start (zeroes 1 3)) t →
    LTS.AllStates (Bounded [10]) (.start (zeroes 1 3)) t := by
  intro h
  let l : Label 1 3 := .feed (fun _ => 0) 1 (chunkOf 0 4)
  let s₁ : State 1 3 :=
    ⟨some ⟨zeroes 1 3, some (chunkOf 0 4)⟩, [⟨none, [0, 0, 0, 0], [], some [0, 0, 0, 0]⟩]⟩
  have h₁ : Step [10] (fun _ => True) (.start (zeroes 1 3)) l s₁ :=
    .feed (t := ⟨zeroes 1 3, none⟩) rfl (counted_zeroes rfl) trivial
  have hcall := (h [(l, s₁)] (.cons h₁ (.nil s₁))).last.calls _ (List.mem_singleton_self _)
  exact absurd (hcall.held [0, 0, 0, 0] rfl) (by decide)

end Reckoning.L1.Wait
