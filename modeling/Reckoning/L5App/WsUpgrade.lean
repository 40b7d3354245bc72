import Reckoning.L5App.HeaderSearch

/-!
# The upgrade answer and packet boundaries

The server sends a header block, ending in the first `\r\n\r\n`, and then
frame bytes. The stream arrives cut into buffers. `Upgrades` is the intended
outcome once the buffer that completes the block has been handled (the consume
loop has not run yet): `mUpgraded` says whether the value of the first
`sec-websocket-accept` line is the expected one, and if so the frame bytes
received so far are what is left.

`mergeReadBuffers` copies all buffers to the start of the new one
(lib/net/WebSocketClient.cpp:281), so as soon as a second buffer arrives
before the block is complete, the end of the merged buffer is memory that was
never written.

* `upgrade_first`: a block that is complete in the first buffer is handled as
  intended, whatever the memory holds.
* `upgrade_split`: a block that is split over several buffers, with the
  expected value, is not: for some memory content the outcome is wrong.
* `upgrade_boundaries`: both together.
-/
namespace Reckoning.L5.WsUpgrade
open Reckoning.L1
open Reckoning.L5.WebSocketClient
open Reckoning.L5.HeaderSearch

/-! ## The property -/

/-- The value of a `sec-websocket-accept` line. -/
def acceptOf (line : Bytes) : Option Bytes :=
  if eqCase line acceptHeader then some (line.drop acceptHeader.length) else none

/-- The value of the first such line of the block. -/
def acceptValue (block : Bytes) : Option Bytes := (lines block).findSome? acceptOf

/-- `base64(SHA1(client key ++ magic))` -/
def expected (sha1 : Bytes → Digest) (key : Bytes) : Bytes :=
  Base64.encode (sha1 (key ++ magic)).val 28

/-- The buffers `bufs`, one `onData` each; `mem n` is the memory of the `n`-th. -/
def receive (sha1 : Bytes → Digest) (key : Bytes) (mem : Nat → Nat → UInt8) :
    Nat → List Bytes → Client → Client
  | _, [], ws => ws
  | n, b :: bufs, ws => receive sha1 key mem (n + 1) bufs (onData sha1 (mem n) key b ws)

/-- The buffer `b` completes the header block that `pre` has begun; `size` is
the length of the block. -/
structure Completes (pre : List Bytes) (b : Bytes) (size : Nat) : Prop where
  nonempty : ∀ c ∈ pre, c ≠ []
  before : memmem (crlf ++ crlf) pre.flatten = none
  after : ∃ mptr, memmem (crlf ++ crlf) (pre.flatten ++ b) = some mptr ∧ size = mptr + 4

structure Upgrades (sha1 : Bytes → Digest) (key stream : Bytes) (size : Nat) (ws : Client) :
    Prop where
  fault : ws.fault = none
  upgraded : ws.mUpgraded = true ↔ acceptValue (stream.take size) = some (expected sha1 key)
  left : ws.mUpgraded = true → ws.mReadBuffers.flatten = stream.drop size

/-! ## The header search -/

theorem acceptHeader_length : acceptHeader.length = 22 := by decide

theorem acceptOf_of_begins {line : Bytes} (h : eqCase line acceptHeader = true) :
    acceptOf line = some (line.drop 22) := by
  rw [acceptOf, if_pos h, acceptHeader_length]

theorem acceptOf_of_not {line : Bytes} (h : ¬ eqCase line acceptHeader = true) :
    acceptOf line = none := if_neg h

/-- A text that ends in a line end has a first one. -/
theorem memmem_of_ends {s : Bytes} (h : crlf <:+ s) :
    ∃ i, memmem crlf s = some i ∧ i + 2 ≤ s.length := by
  obtain ⟨u, rfl⟩ := h
  obtain ⟨i, hi, hm⟩ := memmem_some_of_prefix (n := crlf) (h := u ++ crlf) (i := u.length)
    (by simp) (by simp)
  exact ⟨i, hm, by simp [crlf]; omega⟩

/-- Unless the first line end is the last one, the rest ends in a line end too. -/
theorem ends_drop {s : Bytes} {i : Nat} (h : crlf <:+ s) (hm : memmem crlf s = some i)
    (hne : i + 2 ≠ s.length) : crlf <:+ s.drop (i + 2) := by
  obtain ⟨u, rfl⟩ := h
  have hle : i ≤ u.length := by
    obtain ⟨j, hj, hm'⟩ := memmem_some_of_prefix (n := crlf) (h := u ++ crlf) (i := u.length)
      (by simp) (by simp)
    rw [hm] at hm'
    cases hm'
    exact hj
  simp only [List.length_append, crlf, List.length_cons, List.length_nil] at hne
  rcases Nat.lt_or_ge u.length (i + 2) with hlt | hge
  · -- the two line ends would overlap
    have hi : u.length = i + 1 := by omega
    obtain ⟨t, ht⟩ := (memmem_eq_some.mp hm).2.1
    have hat := congrArg (fun l => l[1]?) ht
    simp [crlf, List.getElem?_drop, ← hi] at hat
  · exact ⟨u.drop (i + 2), by rw [List.drop_append_of_le_length hge]⟩

/-- A line that is not empty ends at a line end. -/
theorem line_ends {s l : Bytes} {k : Nat} : crlf <:+ s → (lines s)[k]? = some l → l ≠ [] →
    memmem crlf (s.drop (lineStart s k)) = some l.length := by
  induction s using lines_induction generalizing k with
  | last s hm =>
    intro hends
    obtain ⟨i, hi, -⟩ := memmem_of_ends hends
    rw [hm] at hi
    cases hi
  | next s i hm ih =>
    intro hends hk hne
    have hle : i + 2 ≤ s.length := (memmem_eq_some.mp hm).le
    rw [lines_of_crlf hm] at hk
    cases k with
    | zero =>
      cases hk
      rw [lineStart_zero, List.drop_zero, List.length_take, Nat.min_eq_left (by omega), hm]
    | succ k =>
      rw [lineStart_succ hm, ← List.drop_drop]
      refine ih (ends_drop hends hm fun hlast => ?_) hk hne
      -- only the empty line is behind the last line end
      rw [List.drop_eq_nil_of_le (Nat.le_of_eq hlast.symm)] at hk
      cases k with
      | zero => cases hk; exact hne rfl
      | succ k => cases hk

/-- The search finds the first accept line, and the next line end ends its value. -/
theorem findLoop_spec (pos : Nat) {fuel : Nat} {s : Bytes} (hlt : s.length < fuel) (hends : crlf <:+ s) :
    (findLoop acceptHeader fuel s pos = none → acceptValue s = none) ∧
    (∀ p, findLoop acceptHeader fuel s pos = some p → ∃ k e, p = pos + k ∧ k ≤ s.length ∧
      memmem crlf (s.drop k) = some e ∧ acceptValue s = some ((s.drop k).take e)) := by
  rw [findLoop_eq (by decide) (by decide) s hlt, acceptValue]
  constructor
  · intro hnone
    rw [Option.map_eq_none_iff, List.findIdx?_eq_none_iff] at hnone
    refine List.findSome?_eq_none_iff.mpr fun l hl => acceptOf_of_not ?_
    rw [hnone l hl]
    exact Bool.false_ne_true
  · intro p hp
    obtain ⟨i, hi, rfl⟩ := Option.map_eq_some_iff.mp hp
    obtain ⟨hlti, hb, hno⟩ := List.findIdx?_eq_some_iff_getElem.mp hi
    generalize hline : (lines s)[i] = l at hb
    have hget : (lines s)[i]? = some l := by rw [List.getElem?_eq_getElem hlti, hline]
    have hlen : 22 ≤ l.length := acceptHeader_length ▸ eqCase_length hb
    have hend : memmem crlf (s.drop (lineStart s i)) = some l.length :=
      line_ends hends hget (List.ne_nil_of_length_pos (by omega))
    have hle := (memmem_eq_some.mp hend).le
    obtain ⟨t, ht⟩ := line_at hget
    rw [List.length_drop] at hle
    refine ⟨lineStart s i + 22, l.length - 22, rfl, by omega, ?_, ?_⟩
    · rw [← List.drop_drop]
      exact memmem_drop hend hlen
    · rw [← List.drop_drop, ← ht, List.drop_append_of_le_length hlen, ← List.length_drop,
        List.take_left]
      refine List.findSome?_eq_some_iff.mpr ⟨(lines s).take i, l, (lines s).drop (i + 1), ?_,
        acceptOf_of_begins hb, fun x hx => ?_⟩
      · rw [← hline, List.getElem_cons_drop, List.take_append_drop]
      · obtain ⟨j, hj, rfl⟩ := List.mem_take_iff_getElem.mp hx
        exact acceptOf_of_not (hno j (by omega))

/-! ## One contiguous buffer -/

section Upgrade
variable (sha1 : Bytes → Digest) (key : Bytes)

/-- The size check and the assertion around `encode` hold for every digest. -/
theorem length_expected : (expected sha1 key).length = 28 := by
  have h : Base64.inflation (sha1 (key ++ magic)).val.length ≤ 28 := by
    rw [(sha1 (key ++ magic)).property]; decide
  rw [expected, Base64.length_encode h, (sha1 (key ++ magic)).property]
  decide

theorem merge_single {fresh : Nat → UInt8} {ws : Client} (h : ws.mReadBuffers.length < 2) :
    mergeReadBuffers fresh ws = ws := by
  rw [mergeReadBuffers, if_pos h]

/-- An incomplete block is kept. -/
theorem attemptUpgrade_wait {fresh : Nat → UInt8} {ws : Client} {b : Bytes}
    (hb : ws.mReadBuffers = [b]) (hm : memmem (crlf ++ crlf) b = none) :
    attemptUpgrade sha1 fresh key ws = ws := by
  unfold attemptUpgrade
  rw [merge_single (by simp [hb])]
  simp only [hb, hm]

/-- The header block ends in a line end. -/
theorem block_ends {b : Bytes} {mptr : Nat} (hm : memmem (crlf ++ crlf) b = some mptr) :
    crlf <:+ b.take (mptr + 4) := by
  obtain ⟨t, ht⟩ := (memmem_eq_some.mp hm).2.1
  refine ⟨b.take mptr ++ crlf, ?_⟩
  have hlen : (b.take mptr).length = mptr := by
    rw [List.length_take, Nat.min_eq_left (memmem_eq_some.mp hm).1]
  have hb : b = b.take mptr ++ (crlf ++ crlf ++ t) := by rw [ht, List.take_append_drop]
  have hsplit : b.take (mptr + 4) = b.take mptr ++ (crlf ++ crlf ++ t).take 4 := by
    conv => lhs; rw [hb]
    rw [List.take_append, hlen, List.take_of_length_le (by omega), Nat.add_sub_cancel_left]
  rw [hsplit, List.append_assoc]
  rfl

/-- A complete block is accepted or refused by its accept value. -/
theorem attemptUpgrade_decides (fresh : Nat → UInt8) {ws : Client} {b : Bytes} {mptr : Nat}
    (hb : ws.mReadBuffers = [b]) (hm : memmem (crlf ++ crlf) b = some mptr) :
    (acceptValue (b.take (mptr + 4)) = some (expected sha1 key) →
      attemptUpgrade sha1 fresh key ws = { ws with
        mReadBuffers := if b.length = mptr + 4 then [] else [b.drop (mptr + 4)]
        mUpgraded := true }) ∧
    (acceptValue (b.take (mptr + 4)) ≠ some (expected sha1 key) →
      ∃ q, attemptUpgrade sha1 fresh key ws = giveUp { ws with mReadBuffers := q }) := by
  have hle := (memmem_eq_some.mp hm).le
  have hblock : (b.take (mptr + 4)).length = mptr + 4 := by
    rw [List.length_take, Nat.min_eq_left (by simpa [crlf] using hle)]
  obtain ⟨hnone, hsome⟩ := findLoop_spec 0
    (Nat.lt_succ_self (b.take (mptr + 4)).length) (block_ends hm)
  unfold attemptUpgrade
  rw [merge_single (by simp [hb])]
  simp only [hb, hm]
  cases hf : find acceptHeader (b.take (mptr + 4)) with
  | none =>
    rw [hnone hf]
    exact ⟨fun h => absurd h.symm (Option.some_ne_none _), fun _ => ⟨[b], by rw [← hb]⟩⟩
  | some p =>
    obtain ⟨k, e, hp, hk, he, hv⟩ := hsome p hf
    rw [Nat.zero_add] at hp
    subst hp
    -- the next line end after the header is the one inside the block
    have hdrop : b.drop p = (b.take (mptr + 4)).drop p ++ b.drop (mptr + 4) := by
      conv => lhs; rw [← List.take_append_drop (mptr + 4) b]
      rw [List.drop_append_of_le_length hk]
    have he' : memmem crlf (b.drop p) = some e := by rw [hdrop]; exact memmem_append he _
    have hacc : (b.drop p).take e = ((b.take (mptr + 4)).drop p).take e := by
      have := (memmem_eq_some.mp he).1
      rw [hdrop, List.take_append_of_le_length this]
    have hlen : Base64.encode (sha1 (key ++ magic)).val 28 = expected sha1 key := rfl
    simp only [he', hacc, hv, hlen, length_expected sha1 key, Option.some.injEq]
    constructor
    · intro heq
      rw [if_neg (by omega), if_neg (by simp [heq])]
    · intro hne
      rw [if_neg (by omega), if_pos (fun heq => hne (congrArg some heq.symm))]
      exact ⟨_, rfl⟩

/-- One buffer that completes a block is handled as intended. -/
theorem upgrades_single (fresh : Nat → UInt8) {ws : Client} {b : Bytes} {mptr : Nat}
    (hf : ws.fault = none) (hu : ws.mUpgraded = false) (hb : ws.mReadBuffers = [b])
    (hm : memmem (crlf ++ crlf) b = some mptr) :
    Upgrades sha1 key b (mptr + 4) (attemptUpgrade sha1 fresh key ws) := by
  obtain ⟨hyes, hno⟩ := attemptUpgrade_decides sha1 key fresh hb hm
  by_cases hv : acceptValue (b.take (mptr + 4)) = some (expected sha1 key)
  · rw [hyes hv]
    refine ⟨hf, ⟨fun _ => hv, fun _ => rfl⟩, fun _ => ?_⟩
    dsimp only
    split
    · rename_i hall
      rw [List.drop_eq_nil_of_le (by omega)]
      rfl
    · simp
  · obtain ⟨q, hq⟩ := hno hv
    rw [hq]
    have hnot : (giveUp { ws with mReadBuffers := q }).mUpgraded ≠ true := by simp [giveUp, hu]
    exact ⟨hf, ⟨fun h => absurd h hnot, fun h => absurd h hv⟩, fun h => absurd h hnot⟩

/-! ## Several buffers -/

theorem receive_append (mem : Nat → Nat → UInt8) (bufs : List Bytes) (b : Bytes) :
    ∀ (n : Nat) (ws : Client), receive sha1 key mem n (bufs ++ [b]) ws =
      onData sha1 (mem (n + bufs.length)) key b (receive sha1 key mem n bufs ws) := by
  induction bufs with
  | nil => intro n ws; rfl
  | cons c bufs ih =>
    intro n ws
    rw [List.cons_append, receive, ih, receive, List.length_cons, Nat.add_right_comm, Nat.add_assoc]

/-- Two buffers merged over memory full of `z` leave a `z` at the end. -/
theorem merge_two {ws : Client} {m b : Bytes} (z : UInt8) (hm : m ≠ []) (hb : b ≠ [])
    (hq : ws.mReadBuffers = [m, b]) :
    ∃ l, mergeReadBuffers (fun _ => z) ws = { ws with mReadBuffers := [l] } ∧
      l.getLast? = some z := by
  have hm' := List.length_pos_iff.mpr hm
  have hb' := List.length_pos_iff.mpr hb
  refine ⟨[m, b].foldl memcpy ((List.range [m, b].flatten.length).map fun _ => z), ?_, ?_⟩
  · have hsz : [m, b].flatten.length ≠ 0 := by
      simp only [List.flatten_cons, List.length_append]; omega
    rw [mergeReadBuffers, hq, if_neg (by simp)]
    exact if_neg hsz
  · have hrest : ((List.replicate (m.length + b.length) z).drop m.length) =
        List.replicate b.length z := by simp
    simp only [List.foldl_cons, List.foldl_nil, memcpy, List.map_const', List.length_range,
      List.flatten_cons, List.flatten_nil, List.append_nil, List.length_append, hrest]
    rw [List.getLast?_append, List.getLast?_drop, if_neg (by simp; omega), List.getLast?_append,
      List.getLast?_replicate, if_neg (by omega)]
    rfl

/-- The client while a header block is being received, over memory full of
`z`: one buffer so far, or refused, or (over wrong bytes) upgraded too early. -/
def Receiving (ws : Client) : Prop :=
  (ws.mTcp = true ∧ ws.mUpgraded = false ∧ ws.fault = none ∧ ∃ m, m ≠ [] ∧ ws.mReadBuffers = [m]) ∨
  (ws.mTcp = false ∧ ws.mUpgraded = false) ∨ (ws.mTcp = true ∧ ws.mUpgraded = true)

theorem receiving_single {fresh : Nat → UInt8} {ws : Client} {m : Bytes} (ht : ws.mTcp = true)
    (hu : ws.mUpgraded = false) (hf : ws.fault = none) (hne : m ≠ []) (hq : ws.mReadBuffers = [m]) :
    Receiving (attemptUpgrade sha1 fresh key ws) := by
  cases hm : memmem (crlf ++ crlf) m with
  | none => rw [attemptUpgrade_wait sha1 key hq hm]; exact Or.inl ⟨ht, hu, hf, m, hne, hq⟩
  | some mptr =>
    obtain ⟨hyes, hno⟩ := attemptUpgrade_decides sha1 key fresh hq hm
    by_cases hv : acceptValue (m.take (mptr + 4)) = some (expected sha1 key)
    · rw [hyes hv]; exact Or.inr (Or.inr ⟨ht, rfl⟩)
    · obtain ⟨q, hq'⟩ := hno hv
      rw [hq']
      exact Or.inr (Or.inl ⟨rfl, hu⟩)

/-- The upgrade is attempted on the merged buffer. -/
theorem attemptUpgrade_merge {fresh : Nat → UInt8} {ws ws' : Client} {l : Bytes}
    (h : mergeReadBuffers fresh ws = ws') (hl : ws'.mReadBuffers = [l]) :
    attemptUpgrade sha1 fresh key ws = attemptUpgrade sha1 fresh key ws' := by
  unfold attemptUpgrade
  rw [h, merge_single (by simp [hl])]

theorem receiving_onData {ws : Client} {z : UInt8} {b : Bytes} (h : Receiving ws) (hb : b ≠ []) :
    Receiving (onData sha1 (fun _ => z) key b ws) := by
  unfold onData
  rcases h with ⟨ht, hu, hf, m, hne, hq⟩ | ⟨ht, hu⟩ | ⟨ht, hu⟩
  · rw [if_neg (by simp [ht])]
    dsimp only
    rw [if_neg (by simp [hu])]
    have hq' : { ws with mReadBuffers := ws.mReadBuffers ++ [b] }.mReadBuffers = [m, b] := by simp [hq]
    obtain ⟨l, hmerge, hz⟩ := merge_two z hne hb hq'
    rw [attemptUpgrade_merge sha1 key hmerge rfl]
    exact receiving_single sha1 key ht hu hf (by rintro rfl; cases hz) rfl
  · rw [if_pos ht]; exact Or.inr (Or.inl ⟨ht, hu⟩)
  · rw [if_neg (by simp [ht])]
    dsimp only
    rw [if_pos hu]
    exact Or.inr (Or.inr ⟨ht, hu⟩)

theorem receiving_receive {z : UInt8} {bufs : List Bytes} : ∀ {n : Nat} {ws : Client},
    (∀ c ∈ bufs, c ≠ []) → Receiving ws →
    Receiving (receive sha1 key (fun _ _ => z) n bufs ws) := by
  induction bufs with
  | nil => exact fun _ h => h
  | cons c bufs ih =>
    intro n ws hne h
    rw [receive]
    exact ih (fun c hc => hne c (List.mem_cons_of_mem _ hc))
      (receiving_onData sha1 key h (hne c List.mem_cons_self))

theorem receiving_init (z : UInt8) {bufs : List Bytes} (hne : ∀ c ∈ bufs, c ≠ [])
    (hbufs : bufs ≠ []) :
    Receiving (receive sha1 key (fun _ _ => z) 0 bufs .init) := by
  obtain ⟨c, bufs, rfl⟩ := List.exists_cons_of_ne_nil hbufs
  have hc := hne c List.mem_cons_self
  have hfirst : Receiving (onData sha1 (fun _ => z) key c .init) :=
    show Receiving (attemptUpgrade sha1 (fun _ => z) key { Client.init with mReadBuffers := [c] }) from
      receiving_single sha1 key rfl rfl rfl hc rfl
  rw [receive]
  exact receiving_receive sha1 key (fun c hc => hne c (List.mem_cons_of_mem _ hc)) hfirst

/-- The completing buffer holds more than the frame bytes behind the block. -/
theorem Completes.rest_lt {pre : List Bytes} {b : Bytes} {size : Nat} (h : Completes pre b size) :
    ((pre.flatten ++ b).drop size).length < b.length := by
  obtain ⟨mptr, hm, rfl⟩ := h.after
  have hle := (memmem_eq_some.mp hm).le
  have hlt : pre.flatten.length < mptr + (crlf ++ crlf : Bytes).length := Nat.lt_of_not_le fun hle' => by
    have := memmem_of_append hm hle'
    rw [h.before] at this
    cases this
  simp only [crlf, List.length_append, List.length_cons, List.length_nil, List.length_drop] at *
  omega

/-- A byte that is no line end and is not the last one of `l`. -/
theorem exists_odd_byte (l : Bytes) : ∃ z : UInt8, z ≠ 10 ∧ l.getLast? ≠ some z := by
  by_cases h : l.getLast? = some 0
  · exact ⟨1, by decide, by rw [h]; decide⟩
  · exact ⟨0, by decide, h⟩

/-- What is left of a buffer behind a header block keeps its last byte. -/
theorem getLast_drop_block {l : Bytes} {z : UInt8} {mptr : Nat} (hz : l.getLast? = some z)
    (hne : z ≠ 10) (hm : memmem (crlf ++ crlf) l = some mptr) :
    (l.drop (mptr + 4)).getLast? = some z := by
  have hle := (memmem_eq_some.mp hm).le
  simp only [crlf, List.length_append, List.length_cons, List.length_nil] at hle
  rw [List.getLast?_drop, if_neg ?_]
  · exact hz
  intro hend
  obtain ⟨u, hu⟩ := block_ends hm
  rw [List.take_of_length_le (by omega)] at hu
  rw [← hu, List.getLast?_append] at hz
  simp only [crlf, List.getLast?_cons_cons, List.getLast?_singleton, Option.some_or,
    Option.some.injEq] at hz
  exact hne hz.symm

/-- **Split block.** A block with the expected value that is completed by a
later buffer is handled wrongly over some memory. -/
theorem upgrade_split {pre : List Bytes} {b : Bytes} {size : Nat} (h : Completes pre b size)
    (hpre : pre ≠ []) (hb : b ≠ [])
    (hv : acceptValue ((pre.flatten ++ b).take size) = some (expected sha1 key)) :
    ∃ mem, ¬ Upgrades sha1 key (pre.flatten ++ b) size
      (receive sha1 key mem 0 (pre ++ [b]) .init) := by
  obtain ⟨z, hz10, hzlast⟩ := exists_odd_byte ((pre.flatten ++ b).drop size)
  refine ⟨fun _ _ => z, fun hup => ?_⟩
  have hu := hup.upgraded.mpr hv
  have hleft := hup.left hu
  rw [receive_append] at hu hleft
  rcases receiving_init sha1 key z h.nonempty hpre with
    ⟨ht, hu', hf, m, hne, hq⟩ | ⟨ht, hu'⟩ | ⟨ht, hu'⟩
  · -- the merged buffer ends in memory that was never written
    generalize receive sha1 key (fun _ _ => z) 0 pre .init = ws at ht hu' hf hq hu hleft
    unfold onData at hu hleft
    rw [if_neg (by simp [ht])] at hu hleft
    dsimp only at hu hleft
    rw [if_neg (by simp [hu'])] at hu hleft
    have hq' : { ws with mReadBuffers := ws.mReadBuffers ++ [b] }.mReadBuffers = [m, b] := by simp [hq]
    obtain ⟨l, hmerge, hz⟩ := merge_two z hne hb hq'
    rw [attemptUpgrade_merge sha1 key hmerge rfl] at hu hleft
    cases hm : memmem (crlf ++ crlf) l with
    | none =>
      rw [attemptUpgrade_wait sha1 key rfl hm] at hu
      exact absurd (hu'.symm.trans hu) (by simp)
    | some mptr =>
      have hsingle : Upgrades sha1 key l (mptr + 4)
          (attemptUpgrade sha1 (fun _ => z) key { ws with mReadBuffers := [l] }) :=
        upgrades_single sha1 key _ hf hu' rfl hm
      have := hsingle.left hu
      rw [hleft] at this
      exact hzlast (this ▸ getLast_drop_block hz hz10 hm)
  · generalize receive sha1 key (fun _ _ => z) 0 pre .init = ws at ht hu' hu
    unfold onData at hu
    rw [if_pos ht, hu'] at hu
    cases hu
  · -- upgraded too early: the whole completing buffer is still there
    generalize receive sha1 key (fun _ _ => z) 0 pre .init = ws at ht hu' hleft
    unfold onData at hleft
    rw [if_neg (by simp [ht])] at hleft
    dsimp only at hleft
    rw [if_pos hu'] at hleft
    have hlen := congrArg List.length hleft
    have := h.rest_lt
    simp only [List.flatten_append, List.flatten_cons, List.flatten_nil, List.append_nil,
      List.length_append] at hlen
    omega

/-- **Whole block.** A block that is complete in the first buffer is handled as
intended, over any memory. -/
theorem upgrade_first {b : Bytes} {size : Nat} (h : Completes [] b size)
    (mem : Nat → Nat → UInt8) :
    Upgrades sha1 key b size (receive sha1 key mem 0 [b] .init) := by
  obtain ⟨mptr, hm, rfl⟩ := h.after
  have hsingle : Upgrades sha1 key b (mptr + 4)
      (attemptUpgrade sha1 (mem 0) key { Client.init with mReadBuffers := [b] }) :=
    upgrades_single sha1 key _ rfl rfl rfl hm
  exact hsingle

/-- **Packet boundaries.** When the first buffer completes the block the
outcome is as intended, whatever the memory holds. For a block with the
expected accept value this is the only case: the outcome is as intended over
every memory exactly when no buffer came before the one that completes it. -/
theorem upgrade_boundaries {pre : List Bytes} {b : Bytes} {size : Nat}
    (h : Completes pre b size) (hb : b ≠ []) :
    (pre = [] → ∀ mem, Upgrades sha1 key (pre.flatten ++ b) size
      (receive sha1 key mem 0 (pre ++ [b]) .init)) ∧
    (acceptValue ((pre.flatten ++ b).take size) = some (expected sha1 key) →
      ((∀ mem, Upgrades sha1 key (pre.flatten ++ b) size
        (receive sha1 key mem 0 (pre ++ [b]) .init)) ↔ pre = [])) := by
  have hfirst : pre = [] → ∀ mem, Upgrades sha1 key (pre.flatten ++ b) size
      (receive sha1 key mem 0 (pre ++ [b]) .init) := by
    rintro rfl mem
    exact upgrade_first sha1 key h mem
  refine ⟨hfirst, fun hv => ⟨fun hall => ?_, hfirst⟩⟩
  refine Classical.byContradiction fun hpre => ?_
  obtain ⟨mem, hbad⟩ := upgrade_split sha1 key h hpre hb hv
  exact hbad (hall mem)

end Upgrade

/-! ## Two divisions of one answer -/

/-- A hash function that is constant. -/
def zeroHash (_ : Bytes) : Digest := ⟨List.replicate 20 0, rfl⟩

/-- An upgrade answer with the value that `zeroHash` asks for, and one frame byte. -/
def answer : Bytes :=
  ascii "HTTP/1.1 101" ++ crlf ++ ascii "Sec-WebSocket-Accept: AAAAAAAAAAAAAAAAAAAAAAAAAAA=" ++
    crlf ++ crlf ++ [7]

theorem answer_completes : Completes [] answer 68 :=
  ⟨by simp, by decide, 64, by decide, rfl⟩

theorem upgrade_boundaries_whole : Upgrades zeroHash [] answer 68
    (receive zeroHash [] (fun _ _ => 0) 0 [answer] .init) :=
  (upgrade_boundaries zeroHash [] answer_completes (by decide)).1 rfl _

theorem answer_split : Completes [answer.take 1] (answer.drop 1) 68 :=
  ⟨by decide, by decide, 64, by decide, rfl⟩

/-- The first byte in a buffer of its own: over zeroed memory the frame byte 7 is
followed by a byte the server never sent. -/
theorem upgrade_boundaries_broken :
    Completes [answer.take 1] (answer.drop 1) 68 ∧
    acceptValue (answer.take 68) = some (expected zeroHash []) ∧
    (receive zeroHash [] (fun _ _ => 0) 0 [answer.take 1, answer.drop 1] .init).mReadBuffers =
      [[7, 0]] ∧
    ¬ Upgrades zeroHash [] answer 68
      (receive zeroHash [] (fun _ _ => 0) 0 [answer.take 1, answer.drop 1] .init) := by
  have hrun : (receive zeroHash [] (fun _ _ => 0) 0 [answer.take 1, answer.drop 1] .init) =
      { Client.init with mUpgraded := true, mReadBuffers := [[7, 0]] } := by decide +kernel
  refine ⟨answer_split, by decide, by rw [hrun], fun h => ?_⟩
  have := h.left (by rw [hrun])
  rw [hrun] at this
  exact absurd this (by decide)

end Reckoning.L5.WsUpgrade
