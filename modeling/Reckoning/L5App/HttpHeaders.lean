import Reckoning.Core.Bytes

/-!
# Response headers of the HTTP client

curl calls `easyHeaderCallback` once for each line of every header block of a
transfer: a status line, header lines, and a blank line. A callback that does
not return the length of the line ends the transfer.

The callback tells a status line from the others by what the lines before left
behind: `status == 0` and no headers. Only the blank line of a 3xx block puts
that back (lib/net/HttpClient.cpp:312-314), and a 3xx block is not emitted.

* `receive_block`: the lines of one block, from the state that expects one.
* `transfer_response`: after any number of redirects the block that is none
  is emitted, once and as it came; a transfer of redirects emits nothing.
* `receive_after_emit`: after a block that is no redirect the status line of the
  next block is refused.
-/
namespace Reckoning.L5.HttpHeaders

/-! ## The callback -/

abbrev Headers := List (Bytes × Bytes)

/-- mirrors include/net/HttpClient.h:38-43 -/
structure Response where
  status : Nat
  reason : Bytes
  headers : Headers
  deriving DecidableEq, Repr

/-- `mResponse` lists what has been emitted on it.
mirrors include/net/HttpClient.h:84-89 -/
structure HttpClient where
  mResponseReceived : Bool
  mResponse : List Response
  deriving DecidableEq, Repr

/-- `http` is what the weak pointer locks to.
mirrors lib/net/HttpClient.cpp:29-42 -/
structure HttpConnectionInfo where
  http : Option HttpClient
  status : Nat
  reason : Bytes
  headers : Headers
  deriving DecidableEq, Repr

def HttpConnectionInfo.init : HttpConnectionInfo := ⟨some ⟨false, []⟩, 0, [], []⟩

def isSpace (c : UInt8) : Bool := c == 32 || (9 ≤ c && c ≤ 13)

def isDigit (c : UInt8) : Bool := 48 ≤ c && c ≤ 57

def isAlnum (c : UInt8) : Bool := isDigit c || (65 ≤ c && c ≤ 90) || (97 ≤ c && c ≤ 122)

/-- On a string of digits. -/
def atoi (s : Bytes) : Nat := s.foldl (fun n c => 10 * n + (c.toNat - 48)) 0

/-- `": "` -/
def colonSpace : Bytes := [58, 32]

/-- mirrors lib/net/HttpClient.cpp:279-284 -/
def trim (header : Bytes) : Nat → Nat
  | 0 => 0
  | n + 1 => if (header[n]?).any isSpace then trim header n else n + 1

/-- `(\.\d)?` -/
def minor : Bytes → Bytes
  | 46 :: d :: s => if isDigit d then s else 46 :: d :: s
  | s => s

/-- ` (\d{3}) ([a-zA-Z0-9]*)` -/
def statusAndReason : Bytes → Option (Bytes × Bytes)
  | 32 :: a :: b :: c :: 32 :: s =>
    if isDigit a && isDigit b && isDigit c then some ([a, b, c], s.takeWhile isAlnum) else none
  | _ => none

/-- The match of `^HTTP\/\d(\.\d)? (\d{3}) ([a-zA-Z0-9]*)`, by its second and third group.
mirrors lib/net/HttpClient.cpp:291-293 -/
def headerrx : Bytes → Option (Bytes × Bytes)
  | 72 :: 84 :: 84 :: 80 :: 47 :: d :: s => if isDigit d then statusAndReason (minor s) else none
  | _ => none

/-- A line without a key in front of `": "`: the last one, or a bad one.
mirrors lib/net/HttpClient.cpp:303-325 -/
def lastHeader (header : Bytes) (conn : HttpConnectionInfo) : Nat × HttpConnectionInfo :=
  if header = crlf then
    match conn.http with
    | none => (0, conn)
    | some http =>
      if 300 ≤ conn.status ∧ conn.status < 400 then
        (header.length, { conn with status := 0, headers := [] })
      else
        let response : Response := ⟨conn.status, conn.reason, conn.headers⟩
        (header.length, { conn with http := some ⟨true, http.mResponse ++ [response]⟩, headers := [] })
  else (0, conn)

/-- The value returned and the connection after the call; nothing when the
assertion fails.
mirrors lib/net/HttpClient.cpp:275-335 -/
def easyHeaderCallback (header : Bytes) (conn : HttpConnectionInfo) :
    Option (Nat × HttpConnectionInfo) :=
  let nsize := trim header header.length
  if conn.headers = [] ∧ conn.status = 0 then
    match headerrx header with
    | some (status, reason) => some (header.length, { conn with status := atoi status, reason })
    | none => some (0, conn)
  else
    match memmem colonSpace header with
    | none => some (lastHeader header conn)
    | some split =>
      if split = 0 then some (lastHeader header conn)
      else if nsize < split + 2 then none
      else
        let key := (header.take split).map toLower
        let value := (header.drop (split + 2)).take (nsize - (split + 2))
        some (header.length, { conn with headers := conn.headers ++ [(key, value)] })

/-- curl goes on as long as the callback returns the length of the line. -/
def receive : List Bytes → HttpConnectionInfo → Option HttpConnectionInfo
  | [], conn => some conn
  | line :: ls, conn =>
    match easyHeaderCallback line conn with
    | none => none
    | some (n, conn') => if n = line.length then receive ls conn' else none

/-! ## Blocks of lines -/

def isVersion : Bytes → Bool
  | [d] => isDigit d
  | [d, p, e] => isDigit d && p == 46 && isDigit e
  | _ => false

def digits (n : Nat) : Bytes :=
  [(n / 100 + 48).toUInt8, (n / 10 % 10 + 48).toUInt8, (n % 10 + 48).toUInt8]

/-- A header line. `pad` is white space after the value, which is not part of it. -/
structure Header where
  name : Bytes
  value : Bytes
  pad : Bytes
  name_ne : name ≠ []
  name_colon : 58 ∉ name
  value_ends : (value.getLast?).any (fun c => !isSpace c) = true
  pad_space : pad.all isSpace = true

def Header.line (h : Header) : Bytes := h.name ++ (colonSpace ++ (h.value ++ (h.pad ++ crlf)))

/-- What the client keeps of it: the names are lower-cased. -/
def Header.entry (h : Header) : Bytes × Bytes := (h.name.map toLower, h.value)

structure Block where
  version : Bytes
  status : Nat
  word : Bytes
  headers : List Header
  version_ok : isVersion version = true
  status_lt : status < 1000
  word_ok : word.all isAlnum = true

def Block.statusLine (b : Block) : Bytes :=
  72 :: 84 :: 84 :: 80 :: 47 :: (b.version ++ (32 :: (digits b.status ++ (32 :: (b.word ++ crlf)))))

def Block.lines (b : Block) : List Bytes := b.statusLine :: (b.headers.map Header.line ++ [crlf])

def Block.response (b : Block) : Response := ⟨b.status, b.word, b.headers.map Header.entry⟩

/-- A 3xx block. -/
def Block.Redirect (b : Block) : Prop := 300 ≤ b.status ∧ b.status < 400

instance (b : Block) : Decidable b.Redirect := inferInstanceAs (Decidable (_ ∧ _))

/-! ## Single lines -/

theorem trim_append (s : Bytes) {t : Bytes} (ht : ∀ c ∈ t, isSpace c = true) :
    trim (s ++ t) (s ++ t).length = trim (s ++ t) s.length := by
  have key : ∀ k ≤ t.length, trim (s ++ t) (s.length + k) = trim (s ++ t) s.length := by
    intro k
    induction k with
    | zero => intro _; rfl
    | succ k ih =>
      intro hk
      have hat : (s ++ t)[s.length + k]? = some t[k] := by
        rw [List.getElem?_append_right (by omega), Nat.add_sub_cancel_left]
        exact List.getElem?_eq_getElem (by omega)
      have hsp : isSpace t[k] = true := ht _ (List.getElem_mem _)
      rw [← Nat.add_assoc, trim, hat]
      simp only [Option.any_some, hsp, if_true]
      exact ih (by omega)
  rw [List.length_append]
  exact key t.length (Nat.le_refl _)

/-- Trimming stops at the last byte that is no white space. -/
theorem trim_stop {s : Bytes} (hs : (s.getLast?).any (fun c => !isSpace c) = true) (t : Bytes) :
    trim (s ++ t) s.length = s.length := by
  obtain ⟨c, hc⟩ : ∃ c, s.getLast? = some c := by
    cases h : s.getLast? with
    | none => rw [h] at hs; cases hs
    | some c => exact ⟨c, rfl⟩
  obtain ⟨u, rfl⟩ := List.getLast?_eq_some_iff.mp hc
  rw [hc] at hs
  have hat : (u ++ [c] ++ t)[u.length]? = some c := by simp
  rw [List.length_append, List.length_singleton, trim, hat]
  exact if_neg (by simpa using hs)

theorem any_getLast?_append {s t : Bytes} {p : UInt8 → Bool} (ht : (t.getLast?).any p = true) :
    ((s ++ t).getLast?).any p = true := by
  rw [List.getLast?_append]
  cases h : t.getLast? with
  | none => rw [h] at ht; cases ht
  | some c => simpa [h] using ht

theorem memmem_colonSpace_none {s : Bytes} (h : 58 ∉ s) : memmem colonSpace s = none := by
  rw [memmem_eq_none]
  intro i _ hp
  obtain ⟨t, ht⟩ := hp
  apply h
  have hm : 58 ∈ s.drop i := by rw [← ht]; simp [colonSpace]
  exact List.mem_of_mem_drop hm

/-- The first `": "` is the one behind a name without a colon. -/
theorem memmem_colonSpace {name : Bytes} (h : 58 ∉ name) (t : Bytes) :
    memmem colonSpace (name ++ (colonSpace ++ t)) = some name.length := by
  rw [memmem_eq_some]
  refine ⟨by simp, by simp, fun j hj hp => ?_⟩
  obtain ⟨u, hu⟩ := hp
  rw [List.drop_append_of_le_length (by omega)] at hu
  cases hd : name.drop j with
  | nil => rw [List.drop_eq_nil_iff] at hd; omega
  | cons c w =>
    rw [hd] at hu
    injection hu with hc _
    exact h (hc ▸ List.mem_of_mem_drop (hd ▸ List.mem_cons_self))

theorem minor_version {v s : Bytes} (hv : isVersion v = true) :
    ∃ d t, v = d :: t ∧ isDigit d = true ∧ minor (t ++ 32 :: s) = 32 :: s := by
  match v, hv with
  | [d], hv => exact ⟨d, [], rfl, hv, rfl⟩
  | [d, p, e], hv =>
    simp only [isVersion, Bool.and_eq_true, beq_iff_eq] at hv
    obtain ⟨⟨hd, rfl⟩, he⟩ := hv
    exact ⟨d, [46, e], rfl, hd, by simp [minor, he]⟩

theorem toUInt8_digit {n : Nat} (h : n < 10) :
    (n + 48).toUInt8.toNat = n + 48 ∧ isDigit (n + 48).toUInt8 = true := by
  have hn : (n + 48).toUInt8.toNat = n + 48 := by
    rw [Nat.toUInt8, UInt8.toNat_ofNat']
    omega
  refine ⟨hn, ?_⟩
  simp only [isDigit, Bool.and_eq_true, decide_eq_true_eq, UInt8.le_iff_toNat_le, hn]
  exact ⟨by simp, by simp; omega⟩

theorem atoi_digits {n : Nat} (h : n < 1000) : atoi (digits n) = n := by
  have h1 := (toUInt8_digit (n := n / 100) (by omega)).1
  have h2 := (toUInt8_digit (n := n / 10 % 10) (by omega)).1
  have h3 := (toUInt8_digit (n := n % 10) (by omega)).1
  simp only [atoi, digits, List.foldl_cons, List.foldl_nil, h1, h2, h3]
  omega

theorem takeWhile_word {word : Bytes} (h : ∀ c ∈ word, isAlnum c = true) :
    (word ++ crlf).takeWhile isAlnum = word := by
  rw [List.takeWhile_append_of_pos h]
  simp [crlf, show isAlnum 13 = false from rfl]

theorem headerrx_statusLine (b : Block) : headerrx b.statusLine = some (digits b.status, b.word) := by
  have hlt := b.status_lt
  obtain ⟨d, t, hv, hd, hm⟩ := minor_version (s := digits b.status ++ 32 :: (b.word ++ crlf)) b.version_ok
  have h1 := (toUInt8_digit (n := b.status / 100) (by omega)).2
  have h2 := (toUInt8_digit (n := b.status / 10 % 10) (by omega)).2
  have h3 := (toUInt8_digit (n := b.status % 10) (by omega)).2
  simp only [Block.statusLine, hv, List.cons_append, headerrx, hd, if_true, hm]
  simp only [digits, List.cons_append, List.nil_append, statusAndReason, h1, h2, h3,
    Bool.and_self, if_true, takeWhile_word (List.all_eq_true.mp b.word_ok)]

/-! ## Runs over lines -/

theorem receive_accept {line : Bytes} {c c' : HttpConnectionInfo} (ls : List Bytes)
    (h : easyHeaderCallback line c = some (line.length, c')) :
    receive (line :: ls) c = receive ls c' := by
  rw [receive, h]
  exact if_pos rfl

theorem receive_append : ∀ (ls ms : List Bytes) (c : HttpConnectionInfo),
    receive (ls ++ ms) c = (receive ls c).bind (receive ms)
  | [], _, _ => rfl
  | line :: ls, ms, c => by
    simp only [List.cons_append, receive]
    cases easyHeaderCallback line c with
    | none => rfl
    | some r =>
      simp only
      split
      · exact receive_append ls ms r.2
      · rfl

/-- The state in which the next line is taken for a status line. -/
def expectsBlock (http : HttpClient) (reason : Bytes) : HttpConnectionInfo := ⟨some http, 0, reason, []⟩

theorem callback_statusLine (b : Block) (http : HttpClient) (reason : Bytes) :
    easyHeaderCallback b.statusLine (expectsBlock http reason) =
      some (b.statusLine.length, ⟨some http, b.status, b.word, []⟩) := by
  simp only [easyHeaderCallback, expectsBlock, and_self, if_true, headerrx_statusLine,
    atoi_digits b.status_lt]

/-- Inside a block a header line adds its entry. -/
theorem callback_header (h : Header) {c : HttpConnectionInfo}
    (hc : ¬ (c.headers = [] ∧ c.status = 0)) :
    easyHeaderCallback h.line c =
      some (h.line.length, { c with headers := c.headers ++ [h.entry] }) := by
  -- the line is the part that is kept, followed by white space
  have hline : h.line = (h.name ++ (colonSpace ++ h.value)) ++ (h.pad ++ crlf) := by
    simp [Header.line]
  have hspace : ∀ x ∈ h.pad ++ crlf, isSpace x = true := by
    intro x hx
    rcases List.mem_append.mp hx with hx | hx
    · exact List.all_eq_true.mp h.pad_space x hx
    · simp only [crlf, List.mem_cons, List.not_mem_nil, or_false] at hx
      rcases hx with rfl | rfl <;> rfl
  have htrim : trim h.line h.line.length = h.name.length + 2 + h.value.length := by
    rw [hline, trim_append _ hspace, trim_stop]
    · simp [colonSpace]; omega
    · exact any_getLast?_append (any_getLast?_append h.value_ends)
  have hsplit : memmem colonSpace h.line = some h.name.length := memmem_colonSpace h.name_colon _
  have hname : h.name.length ≠ 0 := fun h0 => h.name_ne (List.length_eq_zero_iff.mp h0)
  have hkey : h.line.take h.name.length = h.name := by simp [Header.line]
  have hvalue : (h.line.drop (h.name.length + 2)).take h.value.length = h.value := by
    rw [hline, List.append_assoc, List.append_assoc, ← List.drop_drop]
    simp [colonSpace]
  unfold easyHeaderCallback
  rw [if_neg hc, hsplit, htrim]
  simp only [if_neg hname, if_neg (show ¬ h.name.length + 2 + h.value.length < h.name.length + 2 by omega),
    Nat.add_sub_cancel_left, hkey, hvalue, Header.entry]

theorem receive_headers : ∀ (hs : List Header) {c : HttpConnectionInfo}, c.status ≠ 0 →
    receive (hs.map Header.line) c = some { c with headers := c.headers ++ hs.map Header.entry }
  | [], c, _ => by simp [receive]
  | h :: hs, c, hc => by
    rw [List.map_cons, receive_accept _ (callback_header h fun hx => hc hx.2),
      receive_headers hs (c := { c with headers := c.headers ++ [h.entry] }) hc]
    simp

/-- The blank line ends a redirect silently, and emits what any other block has left. -/
theorem callback_blank {http : HttpClient} {status : Nat} {reason : Bytes} {headers : Headers}
    (hs : status ≠ 0) :
    easyHeaderCallback crlf ⟨some http, status, reason, headers⟩ =
      some (crlf.length, if 300 ≤ status ∧ status < 400 then expectsBlock http reason else
        ⟨some ⟨true, http.mResponse ++ [⟨status, reason, headers⟩]⟩, status, reason, []⟩) := by
  unfold easyHeaderCallback
  rw [if_neg (fun hx => hs hx.2), memmem_colonSpace_none (by decide)]
  simp only [lastHeader, if_true]
  split <;> rfl

/-- The connection after all lines of the block. -/
def Block.left (b : Block) (http : HttpClient) : HttpConnectionInfo :=
  if b.Redirect then expectsBlock http b.word
  else ⟨some ⟨true, http.mResponse ++ [b.response]⟩, b.status, b.word, []⟩

/-- **The lines of a block are accepted.** A redirect leaves the state that
expects a block; any other block is emitted. -/
theorem receive_block {b : Block} (hb : b.status ≠ 0) (http : HttpClient) (reason : Bytes) :
    receive b.lines (expectsBlock http reason) = some (b.left http) := by
  rw [Block.lines, receive_accept _ (callback_statusLine b http reason), receive_append,
    receive_headers b.headers hb, Option.bind_some, receive_accept _ (callback_blank hb)]
  rfl

theorem receive_redirects : ∀ {bs : List Block}, (∀ b ∈ bs, b.Redirect) → ∀ (http : HttpClient)
    (reason : Bytes), ∃ reason', receive (bs.flatMap Block.lines) (expectsBlock http reason) =
      some (expectsBlock http reason')
  | [], _, _, reason => ⟨reason, rfl⟩
  | b :: bs, hbs, http, _ => by
    have hb := hbs b List.mem_cons_self
    obtain ⟨r, hr⟩ := receive_redirects (fun b' hb' => hbs b' (List.mem_cons_of_mem _ hb')) http b.word
    refine ⟨r, ?_⟩
    rw [List.flatMap_cons, receive_append, receive_block (by have := hb.1; omega), Option.bind_some,
      Block.left, if_pos hb, hr]

/-! ## Whole transfers -/

/-- The lines of a transfer. -/
def transfer (bs : List Block) : List Bytes := bs.flatMap Block.lines

/-- The intended outcome: all lines are accepted, and `rs` is what `onResponse` gets. -/
def Receives (bs : List Block) (rs : List Response) : Prop :=
  ∃ conn http, receive (transfer bs) .init = some conn ∧ conn.http = some http ∧ http.mResponse = rs

/-- **Redirects, then the final block: its response is emitted once, as it
came, unless it is a redirect too.** -/
theorem transfer_response {redirects : List Block} {final : Block}
    (hr : ∀ b ∈ redirects, b.Redirect) (h0 : final.status ≠ 0) :
    Receives (redirects ++ [final]) (if final.Redirect then [] else [final.response]) := by
  obtain ⟨r, hred⟩ := receive_redirects hr ⟨false, []⟩ []
  have hall : receive (transfer (redirects ++ [final])) .init = some (final.left ⟨false, []⟩) := by
    rw [transfer, List.flatMap_append, receive_append]
    rw [show HttpConnectionInfo.init = expectsBlock ⟨false, []⟩ [] from rfl, hred, Option.bind_some,
      List.flatMap_singleton, receive_block h0]
  by_cases hf : final.Redirect
  · rw [Block.left, if_pos hf] at hall
    rw [if_pos hf]
    exact ⟨_, _, hall, rfl, rfl⟩
  · rw [Block.left, if_neg hf] at hall
    rw [if_neg hf]
    exact ⟨_, _, hall, rfl, rfl⟩

/-! ### A block behind one that was emitted -/

theorem not_mem_version {v : Bytes} (hv : isVersion v = true) : 58 ∉ v := by
  obtain ⟨d, t, rfl, hd, hm⟩ := minor_version (s := []) hv
  intro hx
  match t, hv with
  | [], _ =>
    obtain rfl := List.mem_singleton.mp hx
    cases hd
  | [p, e], hv =>
    simp only [isVersion, Bool.and_eq_true, beq_iff_eq] at hv
    obtain ⟨⟨_, rfl⟩, he⟩ := hv
    simp only [List.mem_cons, List.not_mem_nil, or_false] at hx
    rcases hx with rfl | hx | rfl
    · cases hd
    · cases hx
    · cases he

/-- A status line has no colon in it, so it is no header line. -/
theorem not_mem_statusLine (b : Block) : 58 ∉ b.statusLine := by
  have hlt := b.status_lt
  have hdig : ∀ n < 10, (58 : UInt8) ≠ (n + 48).toUInt8 := by decide
  have h1 := hdig (b.status / 100) (by omega)
  have h2 := hdig (b.status / 10 % 10) (by omega)
  have h3 := hdig (b.status % 10) (by omega)
  have hd : 58 ∉ digits b.status := by
    simp only [digits, List.mem_cons, List.not_mem_nil, h1, h2, h3, or_false, not_false_eq_true]
  have hw : 58 ∉ b.word := fun hx => nomatch List.all_eq_true.mp b.word_ok 58 hx
  simp [Block.statusLine, crlf, not_mem_version b.version_ok, hd, hw]

theorem callback_second_status (b : Block) {c : HttpConnectionInfo} (hc : c.status ≠ 0) :
    easyHeaderCallback b.statusLine c = some (0, c) := by
  have hne : b.statusLine ≠ crlf := fun he => nomatch congrArg List.head? he
  unfold easyHeaderCallback
  rw [if_neg (fun hx => hc hx.2), memmem_colonSpace_none (not_mem_statusLine b)]
  simp only [lastHeader, if_neg hne]

/-- **A block that follows an emitted one is not accepted**, be the emitted
one a 1xx answer: its status is still there when the next status line comes. -/
theorem receive_after_emit {redirects rest : List Block} {b next : Block}
    (hr : ∀ b ∈ redirects, b.Redirect) (h0 : b.status ≠ 0) (hb : ¬ b.Redirect) :
    receive (transfer (redirects ++ b :: next :: rest)) .init = none := by
  obtain ⟨r, hred⟩ := receive_redirects hr ⟨false, []⟩ []
  have hend : receive (next.lines ++ rest.flatMap Block.lines) (b.left ⟨false, []⟩) = none := by
    rw [Block.left, if_neg hb, Block.lines, List.cons_append, receive, callback_second_status next h0]
    exact if_neg (by simp [Block.statusLine])
  rw [transfer, List.flatMap_append, receive_append,
    show HttpConnectionInfo.init = expectsBlock ⟨false, []⟩ [] from rfl, hred, Option.bind_some,
    List.flatMap_cons, receive_append, receive_block h0, Option.bind_some, List.flatMap_cons, hend]

/-! ### Two transfers -/

/-- `ETag: a` -/
def etag : Header := ⟨[69, 84, 97, 103], [97], [], by decide, by decide, rfl, rfl⟩

/-- `HTTP/1.1 304 No`, with a header line. -/
def notModified : Block := ⟨[49, 46, 49], 304, [78, 111], [etag], rfl, by decide, rfl⟩

def moved : Block := ⟨[49, 46, 49], 302, [70], [], rfl, by decide, rfl⟩

def ok : Block := ⟨[50], 200, [], [etag], rfl, by decide, rfl⟩

/-- A redirect, then `HTTP/2 200`. -/
theorem transfer_response_redirected :
    Receives ([moved] ++ [ok]) (if ok.Redirect then [] else [ok.response]) :=
  transfer_response (by decide) (by decide)

/-- A final 304 block is not emitted. -/
theorem notModified_silent : ¬ Receives [notModified] [notModified.response] := by
  intro h
  obtain ⟨conn, http, hrec, hhttp, hres⟩ := h
  have hleft : receive (transfer [notModified]) .init = some (expectsBlock ⟨false, []⟩ [78, 111]) := by
    decide
  rw [hleft] at hrec
  cases hrec
  cases hhttp
  cases hres

end Reckoning.L5.HttpHeaders
