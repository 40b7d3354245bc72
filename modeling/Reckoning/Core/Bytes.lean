/-!
# Byte strings and the searches of the C library

`memmem` gives the position of the first occurrence, or nothing;
`strncasecmp` is used for equality only (`eqCase`). The code splits text at
the line end `\r\n`; `lines` is the same splitting without positions,
`lines_of_crlf` connects the two, and `lineStart` is where a line begins.

* `memmem_eq_some`, `memmem_eq_none`: what the search returns.
* `memmem_append`: bytes that arrive later do not move a first occurrence.
* `memmem_drop`: the search from a later start that is not behind the occurrence.
* `line_at`: a line is in the text where it begins.
* `leNat_leBytes`: a number of `k` bytes is read back from its bytes.
-/
namespace Reckoning

abbrev Bytes := List UInt8

/-- The bytes of an ASCII literal. -/
def ascii (s : String) : Bytes := s.toList.map fun c => c.toNat.toUInt8

section Search
variable {α : Type}

/-- `i` is the first position at which `needle` occurs. -/
def FirstAt (needle hay : List α) (i : Nat) : Prop :=
  i ≤ hay.length ∧ needle <+: hay.drop i ∧ ∀ j < i, ¬ needle <+: hay.drop j

theorem FirstAt.unique {n h : List α} {i j : Nat} (hi : FirstAt n h i) (hj : FirstAt n h j) :
    i = j := by
  rcases Nat.lt_trichotomy i j with hlt | heq | hlt
  · exact absurd hi.2.1 (hj.2.2 i hlt)
  · exact heq
  · exact absurd hj.2.1 (hi.2.2 j hlt)

theorem FirstAt.le {n h : List α} {i : Nat} (hi : FirstAt n h i) : i + n.length ≤ h.length := by
  have := hi.2.1.length_le
  have := hi.1
  simp only [List.length_drop] at *
  omega

theorem firstAt_zero {n h : List α} (hp : n <+: h) : FirstAt n h 0 :=
  ⟨Nat.zero_le _, hp, fun _ hj => absurd hj (Nat.not_lt_zero _)⟩

theorem firstAt_cons {n h : List α} {a : α} {i : Nat} (hp : ¬ n <+: a :: h) :
    FirstAt n (a :: h) (i + 1) ↔ FirstAt n h i := by
  constructor
  · intro hx
    obtain ⟨hle, hpre, hno⟩ := hx
    exact ⟨by simpa using hle, by simpa using hpre, fun j hj => by simpa using hno (j + 1) (by omega)⟩
  · intro hx
    obtain ⟨hle, hpre, hno⟩ := hx
    refine ⟨by simpa using hle, by simpa using hpre, fun j hj => ?_⟩
    cases j with
    | zero => exact hp
    | succ j => simpa using hno j (by omega)

/-- An occurrence reaches no further than what is in front of it and itself. -/
theorem prefix_drop_append {n h r : List α} {j : Nat} (hj : j + n.length ≤ h.length) :
    n <+: (h ++ r).drop j ↔ n <+: h.drop j := by
  rw [List.drop_append_of_le_length (by omega)]
  refine ⟨fun hp => ?_, fun hp => hp.trans (List.prefix_append _ _)⟩
  exact List.prefix_of_prefix_length_le hp (List.prefix_append _ _) (by simp; omega)

variable [DecidableEq α]

def memmem (needle : List α) : List α → Option Nat
  | [] => if needle = [] then some 0 else none
  | a :: t => if needle <+: a :: t then some 0 else (memmem needle t).map (· + 1)

theorem memmem_eq_some {n h : List α} {i : Nat} : memmem n h = some i ↔ FirstAt n h i := by
  induction h generalizing i with
  | nil =>
    simp only [memmem]
    split
    · rename_i hn
      subst hn
      refine ⟨fun he => ?_, fun he => ?_⟩
      · cases he; exact firstAt_zero (List.prefix_refl [])
      · rw [(firstAt_zero (List.prefix_refl [])).unique he]
    · rename_i hn
      refine ⟨nofun, fun he => ?_⟩
      have hpre := he.2.1
      simp only [List.drop_nil, List.prefix_nil] at hpre
      exact absurd hpre hn
  | cons a t ih =>
    simp only [memmem]
    split
    · rename_i hp
      refine ⟨fun he => ?_, fun he => ?_⟩
      · cases he; exact firstAt_zero hp
      · rw [(firstAt_zero hp).unique he]
    · rename_i hp
      cases i with
      | zero =>
        refine ⟨fun he => ?_, fun he => absurd he.2.1 hp⟩
        obtain ⟨_, _, h0⟩ := Option.map_eq_some_iff.mp he
        omega
      | succ i =>
        rw [firstAt_cons hp, ← ih]
        simp

theorem memmem_eq_none {n h : List α} :
    memmem n h = none ↔ ∀ i ≤ h.length, ¬ n <+: h.drop i := by
  induction h with
  | nil => simp [memmem]
  | cons a t ih =>
    simp only [memmem]
    split
    · rename_i hp
      exact ⟨nofun, fun he => absurd hp (he 0 (Nat.zero_le _))⟩
    · rename_i hp
      rw [Option.map_eq_none_iff, ih]
      constructor
      · intro he i hi
        cases i with
        | zero => exact hp
        | succ i => simpa using he i (by simpa using hi)
      · intro he i hi
        simpa using he (i + 1) (by simpa using hi)

/-- Bytes that arrive later do not move a first occurrence. -/
theorem memmem_append {n h : List α} {i : Nat} (hm : memmem n h = some i) (r : List α) :
    memmem n (h ++ r) = some i := by
  rw [memmem_eq_some] at hm ⊢
  have hle := hm.le
  refine ⟨by simp only [List.length_append]; omega, (prefix_drop_append hle).mpr hm.2.1, ?_⟩
  intro j hj
  rw [prefix_drop_append (by omega)]
  exact hm.2.2 j hj

/-- An occurrence found in the whole and lying in its front part is found there. -/
theorem memmem_of_append {n h r : List α} {i : Nat} (hm : memmem n (h ++ r) = some i)
    (hle : i + n.length ≤ h.length) : memmem n h = some i := by
  rw [memmem_eq_some] at hm ⊢
  refine ⟨by omega, (prefix_drop_append hle).mp hm.2.1, fun j hj => ?_⟩
  rw [← prefix_drop_append (by omega)]
  exact hm.2.2 j hj

/-- The search from a start that is not behind the first occurrence. -/
theorem memmem_drop {n h : List α} {i k : Nat} (hm : memmem n h = some i) (hk : k ≤ i) :
    memmem n (h.drop k) = some (i - k) := by
  rw [memmem_eq_some] at hm ⊢
  obtain ⟨hle, hpre, hno⟩ := hm
  refine ⟨by simp; omega, ?_, fun j hj => ?_⟩
  · rwa [List.drop_drop, Nat.add_sub_cancel' hk]
  · rw [List.drop_drop]
    exact hno _ (by omega)

/-- Something occurs, so the search finds something at or before it. -/
theorem memmem_some_of_prefix {n h : List α} {i : Nat} (hi : i ≤ h.length) (hp : n <+: h.drop i) :
    ∃ j ≤ i, memmem n h = some j := by
  cases hm : memmem n h with
  | none => exact absurd hp (memmem_eq_none.mp hm i hi)
  | some j =>
    refine ⟨j, Nat.le_of_not_lt fun hlt => ?_, rfl⟩
    exact (memmem_eq_some.mp hm).2.2 i hlt hp

end Search

/-! ## Lines -/

/-- `"\r\n"` -/
def crlf : Bytes := [13, 10]

/-- The text between the line ends. -/
def lines : Bytes → List Bytes
  | [] => [[]]
  | [c] => [[c]]
  | c :: d :: t =>
    if c = 13 ∧ d = 10 then [] :: lines t
    else
      match lines (d :: t) with
      | [] => [[c]]
      | l :: ls => (c :: l) :: ls

theorem lines_ne_nil : ∀ s : Bytes, lines s ≠ []
  | [] => by simp [lines]
  | [c] => by simp [lines]
  | c :: d :: t => by
    unfold lines
    split
    · simp
    · split <;> simp

theorem lines_cons {c : UInt8} {s : Bytes} (h : ¬ crlf <+: c :: s) :
    ∃ l ls, lines s = l :: ls ∧ lines (c :: s) = (c :: l) :: ls := by
  obtain ⟨l, ls, hl⟩ := List.exists_cons_of_ne_nil (lines_ne_nil s)
  refine ⟨l, ls, hl, ?_⟩
  cases s with
  | nil => cases hl; rfl
  | cons d t =>
    have hcd : ¬ (c = 13 ∧ d = 10) := by
      intro hx
      obtain ⟨rfl, rfl⟩ := hx
      exact h ⟨t, rfl⟩
    rw [lines, if_neg hcd, hl]

/-- The first line ends at the first line end, the others follow it. -/
theorem lines_of_crlf {s : Bytes} {i : Nat} (h : memmem crlf s = some i) :
    lines s = s.take i :: lines (s.drop (i + 2)) := by
  induction s generalizing i with
  | nil => simp [memmem, crlf] at h
  | cons c s ih =>
    simp only [memmem] at h
    split at h
    · rename_i hp
      cases h
      obtain ⟨t, ht⟩ := hp
      cases ht
      simp [lines]
    · rename_i hp
      obtain ⟨j, hj, rfl⟩ := Option.map_eq_some_iff.mp h
      obtain ⟨l, ls, hl, hcl⟩ := lines_cons hp
      rw [ih hj] at hl
      cases hl
      rw [hcl]
      simp

/-- A text without a line end is one line. -/
theorem lines_of_none {s : Bytes} (h : memmem crlf s = none) : lines s = [s] := by
  induction s with
  | nil => rfl
  | cons c s ih =>
    have hp : ¬ crlf <+: c :: s := by simpa using memmem_eq_none.mp h 0 (Nat.zero_le _)
    obtain ⟨l, ls, hl, hcl⟩ := lines_cons hp
    simp only [memmem, if_neg hp, Option.map_eq_none_iff] at h
    rw [ih h] at hl
    cases hl
    exact hcl

/-- One line after the other: the text behind the first line end is shorter. -/
theorem lines_induction {P : Bytes → Prop} (last : ∀ s, memmem crlf s = none → P s)
    (next : ∀ s i, memmem crlf s = some i → P (s.drop (i + 2)) → P s) (s : Bytes) : P s := by
  induction hn : s.length using Nat.strongRecOn generalizing s with
  | ind n ih =>
    cases hm : memmem crlf s with
    | none => exact last s hm
    | some i =>
      have hle : i + 2 ≤ s.length := (memmem_eq_some.mp hm).le
      exact next s i hm (ih (s.drop (i + 2)).length (by rw [List.length_drop]; omega) _ rfl)

/-- Where the `i`-th line begins: behind those in front of it and their line ends. -/
def lineStart (s : Bytes) (i : Nat) : Nat := (((lines s).take i).flatMap (· ++ crlf)).length

@[simp] theorem lineStart_zero (s : Bytes) : lineStart s 0 = 0 := rfl

theorem lineStart_succ {s : Bytes} {i : Nat} (h : memmem crlf s = some i) (k : Nat) :
    lineStart s (k + 1) = i + 2 + lineStart (s.drop (i + 2)) k := by
  have hle : i + 2 ≤ s.length := (memmem_eq_some.mp h).le
  rw [lineStart, lines_of_crlf h, List.take_succ_cons, List.flatMap_cons, List.length_append,
    List.length_append, List.length_take, Nat.min_eq_left (by omega), lineStart]
  rfl

/-- The `i`-th line is in the text where it begins. -/
theorem line_at {s l : Bytes} {k : Nat} : (lines s)[k]? = some l → l <+: s.drop (lineStart s k) := by
  induction s using lines_induction generalizing k with
  | last s hm =>
    intro hk
    rw [lines_of_none hm] at hk
    cases k with
    | zero => cases hk; exact List.prefix_refl _
    | succ k => cases hk
  | next s i hm ih =>
    intro hk
    rw [lines_of_crlf hm] at hk
    cases k with
    | zero => cases hk; exact List.take_prefix i s
    | succ k =>
      rw [lineStart_succ hm, ← List.drop_drop]
      exact ih hk

/-- No line is longer than the text. -/
theorem length_le_of_mem_lines {s l : Bytes} (h : l ∈ lines s) : l.length ≤ s.length := by
  obtain ⟨k, hk⟩ := List.mem_iff_getElem?.mp h
  have hle := (line_at hk).length_le
  rw [List.length_drop] at hle
  omega

/-! ## Case-insensitive comparison -/

/-- `tolower` of the C locale. -/
def toLower (c : UInt8) : UInt8 := if 65 ≤ c ∧ c ≤ 90 then c + 32 else c

/-- `!strncasecmp(s, name, strlen(name))`. -/
def eqCase (s name : Bytes) : Bool := (s.take name.length).map toLower == name.map toLower

/-- Only a letter has another lower case. -/
theorem eq_of_toLower {c d : UInt8} (hd : d < 65) (h : toLower c = d) : c = d := by
  unfold toLower at h
  split at h
  · rename_i hc
    have hlow : 65 ≤ c.toNat := UInt8.le_iff_toNat_le.mp hc.1
    have hup : c.toNat ≤ 90 := UInt8.le_iff_toNat_le.mp hc.2
    have hlt : d.toNat < 65 := UInt8.lt_iff_toNat_lt.mp hd
    have hsum : (c + 32).toNat = c.toNat + 32 := by
      rw [UInt8.toNat_add]
      exact Nat.mod_eq_of_lt (show c.toNat + 32 < 256 by omega)
    rw [← h] at hlt
    omega
  · exact h

theorem eqCase_cons {c d : UInt8} {s name : Bytes} :
    eqCase (c :: s) (d :: name) = (toLower c == toLower d && eqCase s name) := rfl

theorem eqCase_length {s name : Bytes} (h : eqCase s name = true) : name.length ≤ s.length := by
  have := congrArg List.length (eq_of_beq h)
  simp only [List.length_map, List.length_take] at this
  omega

/-- The comparison looks only at as many bytes as the name has. -/
theorem eqCase_take {s name : Bytes} {k : Nat} (h : name.length ≤ k) :
    eqCase (s.take k) name = eqCase s name := by
  unfold eqCase
  rw [List.take_take, Nat.min_eq_left h]

/-! ## Little-endian numbers -/

/-- The number of values of `k` bytes. -/
def leCount : Nat → Nat
  | 0 => 1
  | k + 1 => 256 * leCount k

/-- The `k` bytes of an unsigned integer in memory. -/
def leBytes : Nat → Nat → Bytes
  | 0, _ => []
  | k + 1, n => (n % 256).toUInt8 :: leBytes k (n / 256)

def leNat : Bytes → Nat
  | [] => 0
  | c :: s => c.toNat + 256 * leNat s

@[simp] theorem leBytes_length (k n : Nat) : (leBytes k n).length = k := by
  induction k generalizing n with
  | zero => rfl
  | succ k ih => rw [leBytes, List.length_cons, ih]

theorem leNat_leBytes {k n : Nat} (h : n < leCount k) : leNat (leBytes k n) = n := by
  induction k generalizing n with
  | zero =>
    have : n = 0 := Nat.lt_one_iff.mp h
    rw [this]; rfl
  | succ k ih =>
    have hdiv : n / 256 < leCount k := Nat.div_lt_of_lt_mul h
    have hlow : (n % 256).toUInt8.toNat = n % 256 := by
      rw [Nat.toUInt8, UInt8.toNat_ofNat']
      omega
    rw [leBytes, leNat, ih hdiv, hlow]
    exact Nat.mod_add_div n 256

theorem leNat_lt (s : Bytes) : leNat s < leCount s.length := by
  induction s with
  | nil => exact Nat.one_pos
  | cons c s ih =>
    have hc := c.toNat_lt
    rw [leNat, List.length_cons, leCount]
    omega

end Reckoning
