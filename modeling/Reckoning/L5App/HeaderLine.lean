import Mathlib.Data.List.DropRight
import Reckoning.L5App.HttpHeaders

/-!
# One header line

A header line is a name, a colon, any number of spaces, a value and a line end.
`easyHeaderCallback` looks for `": "`, and takes what is behind it up to the last
byte that is no white space (lib/net/HttpClient.cpp:300-331). So a line without a
space behind the colon is cut at a later `": "`, or refused; a second space stays
in the value; and where the value is empty the assertion fails.

* `split_name`: a key as long as the name means that a space follows the colon.
* `headerLine_iff`: the lines that are stored as they should be.
-/
namespace Reckoning.L5.HttpHeaders

/-- Without the white space around it. -/
def strip (s : Bytes) : Bytes := (s.dropWhile isSpace).rdropWhile isSpace

structure Line where
  name : Bytes
  spaces : Nat
  value : Bytes
  name_ne : name ≠ []
  name_colon : 58 ∉ name

namespace Line

/-- What stands between the colon and the line end. -/
def rest (l : Line) : Bytes := List.replicate l.spaces 32 ++ l.value

def bytes (l : Line) : Bytes := l.name ++ 58 :: (l.rest ++ crlf)

def entry (l : Line) : Bytes × Bytes := (l.name.map toLower, strip l.value)

/-- The line is accepted, and one header is appended. -/
def Stored (l : Line) (conn : HttpConnectionInfo) : Prop :=
  easyHeaderCallback l.bytes conn =
    some (l.bytes.length, { conn with headers := conn.headers ++ [l.entry] })

/-- One space behind the colon, and then a byte that is no white space. -/
def OneSpace (l : Line) : Prop := ∃ c v, l.rest = 32 :: c :: v ∧ isSpace c = false

variable {l : Line} {conn : HttpConnectionInfo} {v : Bytes}

theorem strip_value : strip l.value = strip l.rest := by
  unfold strip rest
  rw [List.dropWhile_append_of_pos]
  intro x hx
  rw [List.eq_of_mem_replicate hx]
  rfl

theorem bytes_ne_crlf : l.bytes ≠ crlf := by
  intro h
  have hmem : (58 : UInt8) ∈ l.bytes := List.mem_append_right _ List.mem_cons_self
  rw [h] at hmem
  revert hmem
  decide

/-! ## With a space behind the colon -/

/-- The part of `v` up to its last byte that is no white space. -/
theorem rdropWhile_ends (h : v.rdropWhile isSpace ≠ []) :
    ((v.rdropWhile isSpace).getLast?).any (fun c => !isSpace c) = true := by
  rw [List.getLast?_eq_getLast_of_ne_nil h, Option.any_some]
  simpa using List.rdropWhile_last_not isSpace v h

theorem rtakeWhile_space : (v.rtakeWhile isSpace).all isSpace = true :=
  List.all_eq_true.mpr fun _ hx => List.mem_rtakeWhile_imp hx

/-- The header that is stored, with all white space in front of its value. -/
def header (l : Line) (v : Bytes) (h : v.rdropWhile isSpace ≠ []) : Header where
  name := l.name
  value := v.rdropWhile isSpace
  pad := v.rtakeWhile isSpace
  name_ne := l.name_ne
  name_colon := l.name_colon
  value_ends := rdropWhile_ends h
  pad_space := rtakeWhile_space

theorem header_line (hrest : l.rest = 32 :: v) (h : v.rdropWhile isSpace ≠ []) :
    (l.header v h).line = l.bytes := by
  simp only [Header.line, header, bytes, hrest, colonSpace, List.cons_append, List.nil_append]
  rw [← List.append_assoc (v.rdropWhile isSpace), List.rdropWhile_append_rtakeWhile]

/-- Only white space behind the colon: the assertion fails. -/
theorem callback_blankValue (hconn : ¬ (conn.headers = [] ∧ conn.status = 0))
    (hrest : l.rest = 32 :: v) (h : v.rdropWhile isSpace = []) :
    easyHeaderCallback l.bytes conn = none := by
  have hspace : ∀ x ∈ 32 :: (v ++ crlf), isSpace x = true := by
    intro x hx
    rcases List.mem_cons.mp hx with rfl | hx
    · rfl
    rcases List.mem_append.mp hx with hx | hx
    · exact List.rdropWhile_eq_nil_iff.mp h x hx
    · simp only [crlf, List.mem_cons, List.not_mem_nil, or_false] at hx
      rcases hx with rfl | rfl <;> rfl
  have hline : l.bytes = (l.name ++ [58]) ++ 32 :: (v ++ crlf) := by simp [bytes, hrest]
  have htrim : trim l.bytes l.bytes.length = l.name.length + 1 := by
    rw [hline, trim_append _ hspace, trim_stop]
    · simp
    · simp [isSpace]
  have hsplit : memmem colonSpace l.bytes = some l.name.length := by
    have hbytes : l.bytes = l.name ++ (colonSpace ++ (v ++ crlf)) := by
      simp [bytes, hrest, colonSpace]
    rw [hbytes]
    exact memmem_colonSpace l.name_colon _
  have hname : l.name.length ≠ 0 := fun h0 => l.name_ne (List.length_eq_zero_iff.mp h0)
  unfold easyHeaderCallback
  rw [if_neg hconn, hsplit, htrim]
  simp only [if_neg hname]
  exact if_pos (by omega)

/-! ## Any line -/

/-- A key of the right name is the one in front of the first colon, and a space follows that. -/
theorem split_name {split : Nat} (hsplit : memmem colonSpace l.bytes = some split)
    (hkey : (l.bytes.take split).map toLower = l.name.map toLower) : ∃ v, l.rest = 32 :: v := by
  have hfirst := memmem_eq_some.mp hsplit
  have hlen : split = l.name.length := by
    have := congrArg List.length hkey
    rw [List.length_map, List.length_map, List.length_take, Nat.min_eq_left hfirst.1] at this
    exact this
  obtain ⟨t, ht⟩ := hfirst.2.1
  rw [hlen, bytes, List.drop_left, colonSpace] at ht
  injection ht with _ ht
  cases hrest : l.rest with
  | nil => rw [hrest] at ht; cases ht
  | cons c v =>
    rw [hrest] at ht
    injection ht with hc _
    exact ⟨v, by rw [hc]⟩

theorem Stored.inBlock (h : l.Stored conn) : ¬ (conn.headers = [] ∧ conn.status = 0) := by
  intro hconn
  unfold Stored easyHeaderCallback at h
  rw [if_pos hconn] at h
  have hlong : l.bytes.length ≠ 0 := by simp [bytes]
  split at h
  · injection h with h
    injection h with _ h
    have := congrArg HttpConnectionInfo.headers h
    simp at this
  · injection h with h
    injection h with h _
    exact hlong h.symm

theorem Stored.space (h : l.Stored conn) : ∃ v, l.rest = 32 :: v := by
  have hconn := h.inBlock
  have hlast : some (lastHeader l.bytes conn) ≠
      some (l.bytes.length, { conn with headers := conn.headers ++ [l.entry] }) := by
    rw [lastHeader, if_neg bytes_ne_crlf]
    intro h
    injection h with h
    injection h with h _
    have hlong : l.bytes.length ≠ 0 := by simp [bytes]
    exact hlong h.symm
  unfold Stored easyHeaderCallback at h
  rw [if_neg hconn] at h
  cases hsplit : memmem colonSpace l.bytes with
  | none => rw [hsplit] at h; exact absurd h hlast
  | some split =>
    rw [hsplit] at h
    simp only at h
    split at h
    · exact absurd h hlast
    split at h
    · cases h
    injection h with h
    injection h with _ h
    have hheaders := congrArg HttpConnectionInfo.headers h
    have hentry := (List.append_inj_right hheaders rfl)
    injection hentry with hentry _
    exact split_name hsplit (congrArg Prod.fst hentry)

/-- White space in front of the value is not stripped. -/
theorem Stored.oneSpace (h : l.Stored conn) : l.OneSpace := by
  obtain ⟨v, hrest⟩ := h.space
  have hstored : easyHeaderCallback l.bytes conn = _ := h
  by_cases hv : v.rdropWhile isSpace = []
  · rw [callback_blankValue h.inBlock hrest hv] at hstored
    cases hstored
  rw [← header_line hrest hv, callback_header _ h.inBlock] at hstored
  injection hstored with hstored
  injection hstored with _ hstored
  have hentry := List.append_inj_right (congrArg HttpConnectionInfo.headers hstored) rfl
  injection hentry with hentry _
  have hvalue : v.rdropWhile isSpace = (v.dropWhile isSpace).rdropWhile isSpace := by
    have := congrArg Prod.snd hentry
    rwa [entry, strip_value, hrest, strip, List.dropWhile_cons_of_pos rfl] at this
  cases v with
  | nil => exact absurd rfl hv
  | cons c v =>
    refine ⟨c, v, hrest, Bool.eq_false_iff.mpr fun hc => ?_⟩
    -- what is stored begins with `c`, and what it should be does not
    obtain ⟨a, w, ha⟩ := List.exists_cons_of_ne_nil hv
    have hfirst : a = c := by
      obtain ⟨t, ht⟩ := List.rdropWhile_prefix isSpace (c :: v)
      rw [ha] at ht
      injection ht
    have hhead : (c :: v).dropWhile isSpace ≠ [] := fun h0 => by
      rw [h0, List.rdropWhile_nil] at hvalue
      exact hv hvalue
    obtain ⟨t, ht⟩ := List.rdropWhile_prefix isSpace ((c :: v).dropWhile isSpace)
    rw [← hvalue, ha, hfirst] at ht
    have hno := List.head_dropWhile_not isSpace hhead
    simp only [← ht, List.cons_append, List.head_cons, hc] at hno
    cases hno

theorem OneSpace.stored (h : l.OneSpace) (hconn : ¬ (conn.headers = [] ∧ conn.status = 0)) :
    l.Stored conn := by
  obtain ⟨c, v, hrest, hc⟩ := h
  have hdrop : (c :: v).dropWhile isSpace = c :: v := List.dropWhile_cons_of_neg (by simp [hc])
  have hv : (c :: v).rdropWhile isSpace ≠ [] := by
    intro h0
    rw [List.rdropWhile_eq_nil_iff.mp h0 c List.mem_cons_self] at hc
    cases hc
  have hstrip : strip l.value = (c :: v).rdropWhile isSpace := by
    rw [strip_value, hrest, strip, List.dropWhile_cons_of_pos rfl, hdrop]
  have hcall := callback_header (l.header (c :: v) hv) hconn
  unfold Stored
  rw [header_line hrest hv] at hcall
  rw [hcall, entry, hstrip]
  rfl

/-- **A header line is stored as it should be** if and only if one space follows the colon and no
more white space, and the line before has not left the state that expects a status line. -/
theorem headerLine_iff (l : Line) (conn : HttpConnectionInfo) :
    l.Stored conn ↔ l.OneSpace ∧ ¬ (conn.headers = [] ∧ conn.status = 0) :=
  ⟨fun h => ⟨h.oneSpace, h.inBlock⟩, fun h => h.1.stored h.2⟩

/-- `Server: ` -/
def noValue : Line := ⟨ascii "Server", 1, [], by decide, by decide⟩

/-- Behind `HTTP/1.1 200 OK` a header without a value makes the assertion fail. -/
theorem noValue_fails : ¬ ∀ (l : Line) (conn : HttpConnectionInfo),
    ¬ (conn.headers = [] ∧ conn.status = 0) → l.Stored conn := by
  intro h
  obtain ⟨c, v, hrest, -⟩ := (h noValue ⟨some ⟨false, []⟩, 200, ascii "OK", []⟩ (by decide)).oneSpace
  cases hrest

end Line
end Reckoning.L5.HttpHeaders
