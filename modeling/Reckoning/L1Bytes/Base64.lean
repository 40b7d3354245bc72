import Reckoning.Core.Radix64

/-!
# Base64 encoding

`include/util/Base64.h`: the input goes three bytes at a time through
`char_array_3` into four characters; a last group of one or two bytes is
filled up with zeros and padded with `=`.

`encode` is what the function writes, `encodeAt` the function with the memory it
writes to.

* `length_encode`: the output has four characters for every started group of
  three bytes, which is exactly what the size check at the top asks room for.
* `encode_eq`: they are the encoding of RFC 4648.
* `encodes`: the memory and the returned value after a call.
-/
namespace Reckoning.L1.Base64

def base64_chars : Bytes :=
  ascii "ABCDEFGHIJKLMNOPQRSTUVWXYZabcdefghijklmnopqrstuvwxyz0123456789+/"

def base64Char (i : UInt8) : UInt8 := base64_chars.getD i.toNat 0

/-- `char_array_4` of a full `char_array_3`, as characters.
mirrors include/util/Base64.h:36-42 -/
def quad (c0 c1 c2 : UInt8) : Bytes :=
  [(c0 &&& 0xfc) >>> 2, ((c0 &&& 0x03) <<< 4) + ((c1 &&& 0xf0) >>> 4),
    ((c1 &&& 0x0f) <<< 2) + ((c2 &&& 0xc0) >>> 6), c2 &&& 0x3f].map base64Char

/-- The last group; `i` is the number of bytes in it.
mirrors include/util/Base64.h:48-65 -/
def encodeRest : Bytes → Bytes
  | [] => []
  | [c0] => (quad c0 0 0).take 2 ++ ascii "=="
  | [c0, c1] => (quad c0 c1 0).take 3 ++ ascii "="
  | c0 :: c1 :: c2 :: _ => quad c0 c1 c2

/-- The loop; `char_array_3` holds the bytes of the group that is not full.
mirrors include/util/Base64.h:33-47 -/
def encodeLoop (char_array_3 : Bytes) : Bytes → Bytes
  | [] => encodeRest char_array_3
  | b :: input =>
    match char_array_3 with
    | [c0, c1] => quad c0 c1 b ++ encodeLoop [] input
    | _ => encodeLoop (char_array_3 ++ [b]) input

def inflation (inputSize : Nat) : Nat :=
  inputSize / 3 * 4 + if inputSize % 3 = 0 then 0 else 4

/-- What is written to `output`; its length is the returned value.
mirrors include/util/Base64.h:10-68 -/
def encode (input : Bytes) (outputSize : Nat) : Bytes :=
  if outputSize < inflation input.length then [] else encodeLoop [] input

/-! ## The memory -/

/-- The memory at `output`: before `out`, and from there on. -/
structure Out where
  written : Bytes
  rest : Bytes
  deriving DecidableEq, Repr

/-- `*(out++) = c` for each of `cs`, which has to stay inside the memory. -/
def put (cs : Bytes) (o : Out) : Option Out :=
  if cs.length ≤ o.rest.length then some ⟨o.written ++ cs, o.rest.drop cs.length⟩ else none

/-- mirrors include/util/Base64.h:33-47 -/
def loopAt (char_array_3 : Bytes) : Bytes → Out → Option (Bytes × Out)
  | [], o => some (char_array_3, o)
  | b :: input, o =>
    match char_array_3 with
    | [c0, c1] => (put (quad c0 c1 b) o).bind (loopAt [] input)
    | _ => loopAt (char_array_3 ++ [b]) input o

/-- The returned value and the memory; sizes are a `size_t`. The pointers are not null.
mirrors include/util/Base64.h:10-68 -/
def encodeAt (input output : Bytes) : Option (Nat × Bytes) :=
  if output.length < inflation input.length % 2 ^ 64 then some (0, output)
  else
    (loopAt [] input ⟨[], output⟩).bind fun (char_array_3, o) =>
      (put (encodeRest char_array_3) o).map fun o => (o.written.length, o.written ++ o.rest)

/-! ## The length -/

@[simp] theorem length_quad (c0 c1 c2 : UInt8) : (quad c0 c1 c2).length = 4 := rfl

theorem inflation_add_three (n : Nat) : inflation (n + 3) = inflation n + 4 := by
  unfold inflation
  rw [Nat.add_mod_right, Nat.add_div_right n (by decide)]
  omega

theorem length_encodeLoop (input : Bytes) : ∀ {buf : Bytes}, buf.length < 3 →
    (encodeLoop buf input).length = inflation (buf.length + input.length) := by
  induction input with
  | nil =>
    intro buf h
    match buf, h with
    | [], _ => rfl
    | [_], _ => simp [encodeLoop, encodeRest, ascii, inflation]
    | [_, _], _ => simp [encodeLoop, encodeRest, ascii, inflation]
  | cons b input ih =>
    intro buf h
    match buf, h with
    | [], _ =>
      calc (encodeLoop [b] input).length = inflation (1 + input.length) := ih (by simp)
        _ = inflation (0 + (input.length + 1)) := by congr 1; omega
    | [c0], _ =>
      calc (encodeLoop [c0, b] input).length = inflation (2 + input.length) := ih (by simp)
        _ = inflation (1 + (input.length + 1)) := by congr 1; omega
    | [c0, c1], _ =>
      calc (quad c0 c1 b ++ encodeLoop [] input).length = inflation (0 + input.length) + 4 := by
            rw [List.length_append, length_quad, ih (by simp), Nat.add_comm]; rfl
        _ = inflation (2 + (input.length + 1)) := by
            rw [← inflation_add_three]; congr 1; omega

/-- With room for `inflation` characters exactly that many are written. -/
theorem length_encode {input : Bytes} {outputSize : Nat} (h : inflation input.length ≤ outputSize) :
    (encode input outputSize).length = inflation input.length := by
  rw [encode, if_neg (by omega), length_encodeLoop input (by simp)]
  simp

/-- Four characters for every group of three bytes that has begun. -/
def encodedSize (n : Nat) : Nat := 4 * ((n + 2) / 3)

theorem inflation_eq (n : Nat) : inflation n = encodedSize n := by
  unfold inflation encodedSize
  split <;> omega

/-! ## The characters -/

theorem base64Char_eq :
    ∀ v : Fin 64, base64Char (UInt8.ofNat v.val) = Radix64.standardDigit v := by
  decide +kernel

theorem forall_byte {P : UInt8 → Prop} (h : ∀ n : Fin 256, P (UInt8.ofNat n.val)) (c : UInt8) :
    P c := by
  have hc := h ⟨c.toNat, c.toNat_lt⟩
  rwa [UInt8.ofNat_toNat] at hc

/-- The masks and shifts of one byte, as numbers. -/
theorem fields : ∀ c : UInt8,
    ((c &&& 0xfc) >>> 2).toNat = c.toNat / 4 ∧ ((c &&& 0x03) <<< 4).toNat = c.toNat % 4 * 16 ∧
    ((c &&& 0xf0) >>> 4).toNat = c.toNat / 16 ∧ ((c &&& 0x0f) <<< 2).toNat = c.toNat % 16 * 4 ∧
    ((c &&& 0xc0) >>> 6).toNat = c.toNat / 64 ∧ (c &&& 0x3f).toNat = c.toNat % 64 :=
  forall_byte (by decide +kernel)

theorem base64Char_sextet {c : UInt8} {n k : Nat} (h : c.toNat = n / 64 ^ k % 64) :
    base64Char c = Radix64.standard.digit (Radix64.sextet n k) := by
  rw [← UInt8.ofNat_toNat (x := c), h]
  exact base64Char_eq (Radix64.sextet n k)

/-- **A full group** is its number of 24 bits in four digits. -/
theorem quad_eq (c0 c1 c2 : UInt8) : quad c0 c1 c2 = Radix64.digits Radix64.standard
    ((c0.toNat * 256 + c1.toNat) * 256 + c2.toNat) 4 := by
  have h0 := c0.toNat_lt
  have h1 := c1.toNat_lt
  have h2 := c2.toNat_lt
  obtain ⟨hfirst, hhigh, -⟩ := fields c0
  obtain ⟨-, -, hlow, hhigh', -⟩ := fields c1
  obtain ⟨-, -, -, -, hlow', hlast⟩ := fields c2
  have hsecond : ((c0 &&& 0x03) <<< 4 + (c1 &&& 0xf0) >>> 4).toNat =
      c0.toNat % 4 * 16 + c1.toNat / 16 := by
    rw [UInt8.toNat_add, hhigh, hlow]
    omega
  have hthird : ((c1 &&& 0x0f) <<< 2 + (c2 &&& 0xc0) >>> 6).toNat =
      c1.toNat % 16 * 4 + c2.toNat / 64 := by
    rw [UInt8.toNat_add, hhigh', hlow']
    omega
  simp only [quad, List.map_cons, List.map_nil, Radix64.digits]
  refine congr (congrArg _ (base64Char_sextet ?_)) (congr (congrArg _ (base64Char_sextet ?_))
    (congr (congrArg _ (base64Char_sextet ?_)) (congrArg (· :: []) (base64Char_sextet ?_))))
  · rw [hfirst]; omega
  · rw [hsecond]; omega
  · rw [hthird]; omega
  · rw [hlast]; omega

/-- The tail takes the digits that have a bit of the input. -/
theorem take_quad (c0 c1 c2 : UInt8) {k j n : Nat} (hk : k + j = 4)
    (hn : ((c0.toNat * 256 + c1.toNat) * 256 + c2.toNat) / 64 ^ j = n) :
    (quad c0 c1 c2).take k = Radix64.digits Radix64.standard n k := by
  rw [quad_eq, ← hk, Radix64.take_digits, hn]

/-- **The loop encodes.** -/
theorem encodeLoop_eq : ∀ input : Bytes,
    encodeLoop [] input = Radix64.encode Radix64.standard input
  | [] => rfl
  | [c0] => congrArg (· ++ ascii "==") (take_quad c0 0 0 (j := 2) rfl (by
      rw [UInt8.toNat_zero]; omega))
  | [c0, c1] => congrArg (· ++ ascii "=") (take_quad c0 c1 0 (j := 1) rfl (by
      rw [UInt8.toNat_zero]; omega))
  | c0 :: c1 :: c2 :: input => by
    show quad c0 c1 c2 ++ encodeLoop [] input = _
    rw [quad_eq, encodeLoop_eq input, Radix64.encode]

theorem encode_eq {input : Bytes} {outputSize : Nat} (h : inflation input.length ≤ outputSize) :
    encode input outputSize = Radix64.encode Radix64.standard input := by
  rw [encode, if_neg (Nat.not_lt.mpr h), encodeLoop_eq]

/-! ## A call -/

/-- Characters that are written one after the other. -/
theorem put_append (cs ds : Bytes) (o : Out) : put (cs ++ ds) o = (put cs o).bind (put ds) := by
  unfold put
  by_cases hcs : cs.length ≤ o.rest.length
  · rw [if_pos hcs, Option.bind_some]
    simp only [List.length_append, List.length_drop, List.append_assoc, List.drop_drop]
    split <;> split <;> first | rfl | omega
  · rw [if_neg hcs, if_neg (by rw [List.length_append]; omega), Option.bind_none]

/-- **The loop and the tail** write what `encodeLoop` says. -/
theorem loopAt_eq (input : Bytes) : ∀ {buf : Bytes}, buf.length < 3 → ∀ o : Out,
    (loopAt buf input o).bind (fun (rest, o) => put (encodeRest rest) o) =
      put (encodeLoop buf input) o := by
  induction input with
  | nil => exact fun _ _ => rfl
  | cons b input ih =>
    intro buf h o
    match buf, h with
    | [], _ => exact ih (by simp) o
    | [c0], _ => exact ih (by simp) o
    | [c0, c1], _ =>
      show ((put (quad c0 c1 b) o).bind (loopAt [] input)).bind _ =
        put (quad c0 c1 b ++ encodeLoop [] input) o
      rw [put_append, Option.bind_assoc]
      exact congrArg _ (funext fun o => ih (by simp) o)

/-- A call writes what `encode` says to the start of `output`, and returns how much that is. -/
theorem encodeAt_eq (input output : Bytes) (h : encodedSize input.length < 2 ^ 64) :
    encodeAt input output = some ((encode input output.length).length,
      encode input output.length ++ output.drop (encode input output.length).length) := by
  have hsize : inflation input.length % 2 ^ 64 = inflation input.length :=
    Nat.mod_eq_of_lt (inflation_eq _ ▸ h)
  unfold encodeAt encode
  rw [hsize]
  split
  · rfl
  rename_i hroom
  have hlength : (encodeLoop [] input).length = inflation input.length := by
    rw [length_encodeLoop input (by simp), List.length_nil, Nat.zero_add]
  have hput := loopAt_eq input (show ([] : Bytes).length < 3 by decide) ⟨[], output⟩
  rw [put, if_pos (by rw [hlength]; exact Nat.not_lt.mp hroom), List.nil_append] at hput
  obtain ⟨⟨rest, o⟩, hloop, hrest⟩ := Option.bind_eq_some_iff.mp hput
  simp only [hloop, Option.bind_some, hrest, Option.map_some]

/-- **A call**: with room for four characters for each group it writes the encoding to the start
of `output`, and otherwise nothing. -/
theorem encodes (input output : Bytes) (h : encodedSize input.length < 2 ^ 64) :
    (encodedSize input.length ≤ output.length →
      encodeAt input output = some (encodedSize input.length,
        Radix64.encode Radix64.standard input ++ output.drop (encodedSize input.length)) ∧
      (Radix64.encode Radix64.standard input).length = encodedSize input.length ∧
      Radix64.decode Radix64.standard (Radix64.encode Radix64.standard input) = some input) ∧
    (output.length < encodedSize input.length → encodeAt input output = some (0, output)) := by
  rw [encodeAt_eq input output h]
  refine ⟨fun hroom => ?_, fun hfull => ?_⟩
  · rw [← inflation_eq] at hroom
    rw [← encode_eq hroom, length_encode hroom, inflation_eq]
    exact ⟨rfl, rfl, by rw [encode_eq hroom, Radix64.decode_encode]⟩
  · rw [← inflation_eq] at hfull
    rw [encode, if_pos hfull]
    rfl

theorem encodes_light :
    encodeAt (ascii "light w") (List.replicate 13 0) = some (12, ascii "bGlnaHQgdw==" ++ [0]) ∧
      Radix64.decode Radix64.standard (ascii "bGlnaHQgdw==") = some (ascii "light w") := by
  obtain ⟨hcall, -, hdecode⟩ :=
    (encodes (ascii "light w") (List.replicate 13 0) (by decide)).1 (by decide)
  have hcode : Radix64.encode Radix64.standard (ascii "light w") = ascii "bGlnaHQgdw==" := by
    decide
  rw [hcode] at hcall hdecode
  exact ⟨hcall, hdecode⟩

end Reckoning.L1.Base64
