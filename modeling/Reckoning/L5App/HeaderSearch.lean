import Reckoning.L5App.WebSocketClient

/-!
# The header search in the upgrade answer

The lambda `find` of `attemptUpgrade` (lib/net/WebSocketClient.cpp:174-193)
goes over the header block line by line with two locals, `start` and `rem`.
Here it runs on memory, and each call of the C library comes with the addresses
it reads. `find` of `WebSocketClient.lean` is the same loop on the bytes that
are left, and cannot leave the block.

* `turn_reads`: one turn reads no byte in front of `start` and none from `start + rem` on.
* `findLoop_eq`: the loop on bytes goes to the first line that begins with the header.
* `loop_eq`: the loop on memory ends, inside the block, with what the loop on bytes gives.
* `loop_finds`: all of it, for the block in front of the first `\r\n\r\n`.
-/
namespace Reckoning.L5.HeaderSearch
open Reckoning.L5.WebSocketClient

/-! ## The loop on memory -/

/-- By address; the buffer begins at 0. -/
abbrev Memory := Nat → UInt8

def slice (mem : Memory) (start n : Nat) : Bytes := (List.range' start n).map mem

/-- What a piece of code gives, and the addresses it reads. -/
structure Access (α : Type) where
  result : α
  reads : List Nat
  deriving DecidableEq, Repr

/-- `!strncasecmp(start, header, strlen(header))`. A difference ends it, and a
zero that both strings have. -/
def strncasecmp (mem : Memory) : Nat → Bytes → Access Bool
  | _, [] => ⟨true, []⟩
  | start, h :: hs =>
    if toLower (mem start) ≠ toLower h then ⟨false, [start]⟩
    else if mem start = 0 then ⟨true, [start]⟩
    else
      let rest := strncasecmp mem (start + 1) hs
      ⟨rest.result, start :: rest.reads⟩

/-- `memmem(start, rem, "\r\n", 2)`, which may look at all of the `rem` bytes. -/
def memmemCrlf (mem : Memory) (start rem : Nat) : Access (Option Nat) :=
  ⟨memmem crlf (slice mem start rem), List.range' start rem⟩

/-- How a turn of the loop ends. -/
inductive Turn
  | ret (p : Option Nat)
  | again (start rem : Nat)
  | assert
  deriving DecidableEq, Repr

/-- mirrors lib/net/WebSocketClient.cpp:178-191 -/
def turn (mem : Memory) (header : Bytes) (start rem : Nat) : Access Turn :=
  if rem < header.length then ⟨.ret none, []⟩
  else
    let cmp := strncasecmp mem start header
    if cmp.result then ⟨.ret (some (start + header.length)), cmp.reads⟩
    else
      -- find the next eol
      let eol := memmemCrlf mem start rem
      let reads := cmp.reads ++ eol.reads
      match eol.result with
      | none => ⟨.ret none, reads⟩
      | some eol =>
        let eols := eol + 2
        if rem < eols then ⟨.assert, reads⟩
        else if eols = rem then ⟨.ret none, reads⟩
        else ⟨.again (start + eols) (rem - eols), reads⟩

/-- `for (;;)`, for at most `fuel` turns; `none` where it would go on after them.
mirrors lib/net/WebSocketClient.cpp:174-193 -/
def loop (mem : Memory) (header : Bytes) :
    Nat → Nat → Nat → Option (Access (Except Fault (Option Nat)))
  | 0, _, _ => none
  | fuel + 1, start, rem =>
    let t := turn mem header start rem
    match t.result with
    | .ret p => some ⟨.ok p, t.reads⟩
    | .assert => some ⟨.error .assert, t.reads⟩
    | .again start' rem' =>
      (loop mem header fuel start' rem').map fun a => ⟨a.result, t.reads ++ a.reads⟩

/-! ## The first line that begins with the header -/

/-- Ignoring the case of ASCII letters. -/
def BeginsWith (header line : Bytes) : Prop := header.map toLower <+: line.map toLower

/-- The `i`-th line of the block is the first one that begins with the header. -/
structure FirstLine (header block : Bytes) (i : Nat) (line : Bytes) : Prop where
  index : (lines block)[i]? = some line
  place : line <+: block.drop (lineStart block i)
  begins : BeginsWith header line
  first : ∀ j < i, ∀ l, (lines block)[j]? = some l → ¬ BeginsWith header l

/-- `p` is the position just after the header in that line, or null where no line begins with it. -/
structure Finds (header block : Bytes) (p : Option Nat) : Prop where
  position : ∀ q, p = some q ↔
    ∃ i line, FirstLine header block i line ∧ q = lineStart block i + header.length
  null : p = none ↔ ∀ line ∈ lines block, ¬ BeginsWith header line

theorem eqCase_iff {header line : Bytes} : eqCase line header = true ↔ BeginsWith header line := by
  unfold eqCase BeginsWith
  rw [beq_iff_eq, List.map_take, List.prefix_iff_eq_take, List.length_map]
  exact eq_comm

theorem finds_findIdx (header block : Bytes) :
    Finds header block (((lines block).findIdx? fun l => eqCase l header).map fun i =>
      lineStart block i + header.length) where
  position q := by
    rw [Option.map_eq_some_iff]
    constructor
    · rintro ⟨i, hi, rfl⟩
      obtain ⟨hlt, hb, hno⟩ := List.findIdx?_eq_some_iff_getElem.mp hi
      have hline : (lines block)[i]? = some (lines block)[i] := List.getElem?_eq_getElem hlt
      refine ⟨i, _, ⟨hline, line_at hline, eqCase_iff.mp hb, fun j hj l hl hbl => ?_⟩, rfl⟩
      obtain ⟨hjlt, rfl⟩ := List.getElem?_eq_some_iff.mp hl
      exact hno j hj (eqCase_iff.mpr hbl)
    · rintro ⟨i, line, h, rfl⟩
      obtain ⟨hlt, rfl⟩ := List.getElem?_eq_some_iff.mp h.index
      refine ⟨i, List.findIdx?_eq_some_iff_getElem.mpr ⟨hlt, eqCase_iff.mpr h.begins, ?_⟩, rfl⟩
      intro j hj hb
      exact h.first j hj _ (List.getElem?_eq_getElem (by omega)) (eqCase_iff.mp hb)
  null := by
    rw [Option.map_eq_none_iff, List.findIdx?_eq_none_iff]
    refine forall₂_congr fun l _ => ?_
    rw [← eqCase_iff, Bool.not_eq_true]

/-! ## The loop on bytes -/

section Bytes
variable {header : Bytes}

/-- Where a text begins with a header that has no `\r` in it, no line ends. -/
theorem not_crlf_of_eqCase {s : Bytes} {j : Nat} (hcr : 13 ∉ header)
    (h : eqCase s header = true) (hj : j < header.length) : ¬ crlf <+: s.drop j := by
  intro hx
  obtain ⟨t, ht⟩ := hx
  have hs : s[j]? = some 13 := by
    have := congrArg List.head? ht
    simpa [crlf, List.head?_drop] using this.symm
  have hat := congrArg (fun l => l[j]?) (eq_of_beq h)
  simp only [List.getElem?_map, List.getElem?_take_of_lt hj, hs, Option.map_some,
    List.getElem?_eq_getElem hj, Option.some.injEq] at hat
  have hlow : header[j] = 13 := eq_of_toLower (by decide) hat.symm
  exact hcr (hlow ▸ List.getElem_mem hj)

/-- So the text begins with it if and only if its first line does. -/
theorem eqCase_first {s : Bytes} {i : Nat} (hcr : 13 ∉ header) (hm : memmem crlf s = some i) :
    eqCase (s.take i) header = eqCase s header := by
  by_cases hle : header.length ≤ i
  · exact eqCase_take hle
  · have hline : eqCase (s.take i) header = false := Bool.eq_false_iff.mpr fun h => by
      have := eqCase_length h
      rw [List.length_take] at this
      omega
    have htext : eqCase s header = false := Bool.eq_false_iff.mpr fun h =>
      not_crlf_of_eqCase hcr h (Nat.lt_of_not_le hle) (memmem_eq_some.mp hm).2.1
    rw [hline, htext]

theorem findIdx_short {s : Bytes} (h : s.length < header.length) :
    ((lines s).findIdx? fun l => eqCase l header) = none := by
  refine List.findIdx?_eq_none_iff.mpr fun l hl => Bool.eq_false_iff.mpr fun hc => ?_
  have := eqCase_length hc
  have := length_le_of_mem_lines hl
  omega

/-- **The loop on bytes goes to the first line that begins with the header.** -/
theorem findLoop_eq (hne : header ≠ []) (hcr : 13 ∉ header) (s : Bytes) :
    ∀ {fuel pos : Nat}, s.length < fuel → findLoop header fuel s pos =
      ((lines s).findIdx? fun l => eqCase l header).map fun i =>
        pos + (lineStart s i + header.length) := by
  have hpos := List.length_pos_iff.mpr hne
  induction s using lines_induction with
  | last s hm =>
    intro fuel pos hlt
    obtain ⟨fuel, rfl⟩ := Nat.exists_eq_succ_of_ne_zero (Nat.ne_zero_of_lt hlt)
    rw [findLoop]
    by_cases hshort : s.length < header.length
    · rw [if_pos hshort, findIdx_short hshort]
      rfl
    · rw [if_neg hshort, lines_of_none hm, List.findIdx?_cons, hm]
      cases eqCase s header with
      | true => simp
      | false => rfl
  | next s i hm ih =>
    intro fuel pos hlt
    obtain ⟨fuel, rfl⟩ := Nat.exists_eq_succ_of_ne_zero (Nat.ne_zero_of_lt hlt)
    have hle : i + 2 ≤ s.length := (memmem_eq_some.mp hm).le
    rw [findLoop]
    by_cases hshort : s.length < header.length
    · rw [if_pos hshort, findIdx_short hshort]
      rfl
    rw [if_neg hshort, lines_of_crlf hm, List.findIdx?_cons, eqCase_first hcr hm, hm]
    cases eqCase s header with
    | true => simp
    | false =>
      simp only [Bool.false_eq_true, if_false]
      have hlen : (s.drop (i + 2)).length = s.length - (i + 2) := List.length_drop
      by_cases hend : i + 2 = s.length
      · -- nothing follows the line
        rw [if_pos hend, findIdx_short (by omega)]
        rfl
      · rw [if_neg hend, ih (by omega), Option.map_map]
        congr 1
        funext k
        simp only [Function.comp_apply, lineStart_succ hm]
        omega

end Bytes

/-! ## The loop on memory -/

section Memory
variable {mem : Memory} {header : Bytes} {start rem : Nat}

theorem slice_succ : slice mem start (rem + 1) = mem start :: slice mem (start + 1) rem := rfl

theorem slice_length : (slice mem start rem).length = rem := by
  rw [slice, List.length_map, List.length_range']

theorem slice_drop (k : Nat) : (slice mem start rem).drop k = slice mem (start + k) (rem - k) := by
  rw [slice, slice, ← List.map_drop, List.drop_range', Nat.mul_one]

/-- The comparison reads no further than the header is long. -/
theorem strncasecmp_reads : ∀ (header : Bytes) (start : Nat),
    ∀ a ∈ (strncasecmp mem start header).reads, start ≤ a ∧ a < start + header.length
  | [], _ => by simp [strncasecmp]
  | h :: hs, start => by
    intro a ha
    rw [List.length_cons]
    unfold strncasecmp at ha
    split at ha
    · rw [List.mem_singleton.mp ha]; omega
    · split at ha
      · rw [List.mem_singleton.mp ha]; omega
      · rcases List.mem_cons.mp ha with rfl | ha
        · omega
        · have := strncasecmp_reads hs (start + 1) a ha
          omega

/-- Against a header without zeros it is the comparison of the bytes. -/
theorem strncasecmp_result : ∀ (header : Bytes) (start rem : Nat), 0 ∉ header →
    header.length ≤ rem →
    (strncasecmp mem start header).result = eqCase (slice mem start rem) header
  | [], _, _, _, _ => rfl
  | h :: hs, start, 0, _, hle => absurd hle (Nat.not_succ_le_zero _)
  | h :: hs, start, rem + 1, h0, hle => by
    rw [slice_succ, eqCase_cons]
    unfold strncasecmp
    by_cases hc : toLower (mem start) = toLower h
    · have hz : mem start ≠ 0 := fun hz => by
        rw [hz] at hc
        have : h = 0 := eq_of_toLower (by decide) hc.symm
        exact h0 (this ▸ List.mem_cons_self)
      rw [if_neg (not_not.mpr hc), if_neg hz, beq_iff_eq.mpr hc, Bool.true_and]
      exact strncasecmp_result hs (start + 1) rem (fun hm => h0 (List.mem_cons_of_mem h hm))
        (Nat.le_of_succ_le_succ hle)
    · rw [if_pos hc, beq_eq_false_iff_ne.mpr hc, Bool.false_and]

/-- **One turn stays between `start` and `start + rem`.** -/
theorem turn_reads : ∀ a ∈ (turn mem header start rem).reads, start ≤ a ∧ a < start + rem := by
  intro a ha
  unfold turn memmemCrlf at ha
  by_cases hshort : rem < header.length
  · rw [if_pos hshort] at ha
    cases ha
  rw [if_neg hshort] at ha
  have hcmp : ∀ a ∈ (strncasecmp mem start header).reads, start ≤ a ∧ a < start + rem := by
    intro a ha
    have := strncasecmp_reads header start a ha
    omega
  have hboth : ∀ a ∈ (strncasecmp mem start header).reads ++ List.range' start rem,
      start ≤ a ∧ a < start + rem := by
    intro a ha
    rcases List.mem_append.mp ha with ha | ha
    · exact hcmp a ha
    · exact List.mem_range'_1.mp ha
  dsimp only at ha
  split at ha
  · exact hcmp a ha
  · split at ha
    · exact hboth a ha
    · split at ha
      · exact hboth a ha
      · split at ha <;> exact hboth a ha

/-- What a turn does, in terms of the bytes that are left. The assertion holds. -/
theorem turn_result (h0 : 0 ∉ header) : (turn mem header start rem).result =
    if rem < header.length then .ret none
    else if eqCase (slice mem start rem) header then .ret (some (start + header.length))
    else
      match memmem crlf (slice mem start rem) with
      | none => .ret none
      | some eol =>
        if eol + 2 = rem then .ret none else .again (start + (eol + 2)) (rem - (eol + 2)) := by
  unfold turn memmemCrlf
  by_cases hshort : rem < header.length
  · rw [if_pos hshort, if_pos hshort]
  rw [if_neg hshort, if_neg hshort]
  dsimp only
  rw [strncasecmp_result header start rem h0 (Nat.le_of_not_lt hshort)]
  cases eqCase (slice mem start rem) header with
  | true => rfl
  | false =>
    simp only [Bool.false_eq_true, if_false]
    cases hm : memmem crlf (slice mem start rem) with
    | none => rfl
    | some eol =>
      have hle : eol + 2 ≤ (slice mem start rem).length := (memmem_eq_some.mp hm).le
      rw [slice_length] at hle
      dsimp only
      rw [if_neg (Nat.not_lt_of_le hle)]
      split <;> rfl

theorem loop_ret {fuel : Nat} {p : Option Nat} (h : (turn mem header start rem).result = .ret p) :
    loop mem header (fuel + 1) start rem = some ⟨.ok p, (turn mem header start rem).reads⟩ := by
  simp only [loop, h]

theorem loop_again {fuel start' rem' : Nat}
    (h : (turn mem header start rem).result = .again start' rem') :
    loop mem header (fuel + 1) start rem = (loop mem header fuel start' rem').map fun a =>
      ⟨a.result, (turn mem header start rem).reads ++ a.reads⟩ := by
  simp only [loop, h]

/-- Once it has ended, more turns change nothing. -/
theorem loop_more {a : Access (Except Fault (Option Nat))} : ∀ {fuel start rem : Nat},
    loop mem header fuel start rem = some a → loop mem header (fuel + 1) start rem = some a
  | 0, _, _, h => by cases h
  | fuel + 1, start, rem, h => by
    cases ht : (turn mem header start rem).result with
    | ret p =>
      rw [loop_ret ht] at h ⊢
      exact h
    | assert =>
      simp only [loop, ht] at h ⊢
      exact h
    | again start' rem' =>
      rw [loop_again ht] at h ⊢
      obtain ⟨a', h', rfl⟩ := Option.map_eq_some_iff.mp h
      rw [loop_more h']
      rfl

theorem loop_mono {a : Access (Except Fault (Option Nat))} {fuel fuel' : Nat}
    (h : loop mem header fuel start rem = some a) (hle : fuel ≤ fuel') :
    loop mem header fuel' start rem = some a := by
  induction hle with
  | refl => exact h
  | step _ ih => exact loop_more ih

/-- **The loop ends, inside the `rem` bytes,** with what the loop on these bytes gives. -/
theorem loop_eq (h0 : 0 ∉ header) : ∀ {fuel start rem : Nat}, rem < fuel →
    ∃ reads, loop mem header fuel start rem =
        some ⟨.ok (findLoop header fuel (slice mem start rem) start), reads⟩ ∧
      ∀ a ∈ reads, start ≤ a ∧ a < start + rem
  | 0, _, _, hlt => absurd hlt (Nat.not_lt_zero _)
  | fuel + 1, start, rem, hlt => by
    have hreads : ∀ a ∈ (turn mem header start rem).reads, start ≤ a ∧ a < start + rem := turn_reads
    have hturn : (turn mem header start rem).result = _ := turn_result h0
    rw [findLoop, slice_length]
    by_cases hshort : rem < header.length
    · rw [if_pos hshort] at hturn ⊢
      exact ⟨_, loop_ret hturn, hreads⟩
    rw [if_neg hshort] at hturn ⊢
    by_cases hcase : eqCase (slice mem start rem) header = true
    · rw [if_pos hcase] at hturn ⊢
      exact ⟨_, loop_ret hturn, hreads⟩
    rw [if_neg hcase] at hturn ⊢
    cases hm : memmem crlf (slice mem start rem) with
    | none =>
      rw [hm] at hturn
      exact ⟨_, loop_ret hturn, hreads⟩
    | some eol =>
      have hle : eol + 2 ≤ (slice mem start rem).length := (memmem_eq_some.mp hm).le
      rw [slice_length] at hle
      rw [hm] at hturn
      dsimp only at hturn ⊢
      by_cases hend : eol + 2 = rem
      · rw [if_pos hend] at hturn ⊢
        exact ⟨_, loop_ret hturn, hreads⟩
      · -- the bytes that are left begin behind the line end
        rw [if_neg hend] at hturn ⊢
        have hless : rem - (eol + 2) < fuel := by omega
        obtain ⟨reads, hl, hr⟩ := loop_eq h0 hless
        rw [loop_again hturn, hl, slice_drop]
        refine ⟨_, rfl, fun a ha => ?_⟩
        rcases List.mem_append.mp ha with ha | ha
        · exact hreads a ha
        · have := hr a ha
          omega

/-- Memory that holds the buffer. -/
def Memory.Holds (mem : Memory) (buffer : Bytes) : Prop :=
  ∀ i (h : i < buffer.length), mem i = buffer[i]

theorem slice_of_holds {buffer : Bytes} {n : Nat} (h : mem.Holds buffer) (hn : n ≤ buffer.length) :
    slice mem 0 n = buffer.take n := by
  refine List.ext_getElem (by rw [slice_length, List.length_take, Nat.min_eq_left hn]) ?_
  intro i hi _
  rw [slice_length] at hi
  simp only [slice, List.getElem_map, List.getElem_range', List.getElem_take]
  rw [Nat.zero_add, Nat.one_mul]
  exact h i (by omega)

/-- **What `attemptUpgrade` gets from the search** is what the loop on memory returns, and
nothing from `headersize` on is read. -/
theorem loop_find {buffer : Bytes} {headersize : Nat} (hmem : mem.Holds buffer)
    (hsize : headersize ≤ buffer.length) (h0 : 0 ∉ header) :
    ∃ reads, (∀ fuel, headersize < fuel → loop mem header fuel 0 headersize =
        some ⟨.ok (find header (buffer.take headersize)), reads⟩) ∧
      ∀ a ∈ reads, a < headersize := by
  obtain ⟨reads, hl, hr⟩ := @loop_eq mem header h0 (headersize + 1) 0 headersize (Nat.lt_succ_self _)
  refine ⟨reads, fun fuel hlt => loop_mono ?_ hlt, fun a ha => by simpa using (hr a ha).2⟩
  rw [hl, slice_of_holds hmem hsize, find, List.length_take, Nat.min_eq_left hsize]

/-- **Header search.** The loop ends, reads only bytes of the block, and returns the
position just after the header in the first line that begins with it. -/
theorem loop_finds {buffer : Bytes} {mptr : Nat} (hmem : mem.Holds buffer)
    (hm : memmem (crlf ++ crlf) buffer = some mptr) (hne : header ≠ []) (h0 : 0 ∉ header)
    (hcr : 13 ∉ header) :
    ∃ p reads, (∀ fuel, mptr + 4 < fuel →
        loop mem header fuel 0 (mptr + 4) = some ⟨.ok p, reads⟩) ∧
      (∀ a ∈ reads, a < mptr + 4) ∧ Finds header (buffer.take (mptr + 4)) p := by
  have hsize : mptr + 4 ≤ buffer.length := (memmem_eq_some.mp hm).le
  obtain ⟨reads, hl, hr⟩ := loop_find hmem hsize h0
  refine ⟨_, reads, hl, hr, ?_⟩
  rw [find, findLoop_eq hne hcr _ (Nat.lt_succ_self _)]
  simp only [Nat.zero_add]
  exact finds_findIdx header (buffer.take (mptr + 4))

/-- An upgrade answer, and one frame byte behind it. -/
def sampleAnswer : Bytes :=
  ascii "HTTP/1.1 101" ++ crlf ++ ascii "Upgrade: ws" ++ crlf ++ ascii "SEC-WebSocket-Accept: x" ++
    crlf ++ crlf ++ [7]

theorem loop_finds_answer : ∃ p reads,
    (∀ fuel, 54 < fuel →
      loop (fun i => sampleAnswer.getD i 0) acceptHeader fuel 0 54 = some ⟨.ok p, reads⟩) ∧
      (∀ a ∈ reads, a < 54) ∧ Finds acceptHeader (sampleAnswer.take 54) p :=
  loop_finds (fun i h => by simp [List.getD_eq_getElem?_getD, h]) (by decide) (by decide)
    (by decide) (by decide)

example : (loop (fun i => sampleAnswer.getD i 0) acceptHeader 4 0 54).map Access.result =
    some (.ok (some 49)) := by decide

end Memory

end Reckoning.L5.HeaderSearch
