import Mathlib.Tactic.Ring
import Reckoning.Core.Bytes

/-!
# Encoding bytes in an alphabet of 64

Base 64 as RFC 4648, section 4 has it: three bytes are one number of 24 bits,
written as four digits of six bits, the largest first. A last group of one or
two bytes is filled up with zero bits to the next whole digit, and the four
characters with a padding character.

* `number_digits`: digits are read as the number they were made of.
* `decode_encode`: the standard decoding gives the bytes back.
* `standard`: the alphabet of table 1.
-/
namespace Reckoning.Radix64

/-- The digits are told apart from each other and from the padding. -/
structure Alphabet where
  digit : Fin 64 → UInt8
  value : UInt8 → Option (Fin 64)
  pad : UInt8
  value_digit : ∀ v, value (digit v) = some v
  digit_ne_pad : ∀ v, digit v ≠ pad

/-- The digit with `k` digits after it. -/
def sextet (n k : Nat) : Fin 64 := ⟨n / 64 ^ k % 64, Nat.mod_lt _ (by decide)⟩

/-- The byte with `k` bytes after it. -/
def octet (n k : Nat) : UInt8 := UInt8.ofNat (n / 256 ^ k)

variable (A : Alphabet)

/-- The last `k` digits of `n`. -/
def digits (n : Nat) : Nat → Bytes
  | 0 => []
  | k + 1 => A.digit (sextet n k) :: digits n k

def encode : Bytes → Bytes
  | [] => []
  | [a] => digits A (a.toNat * 2 ^ 4) 2 ++ [A.pad, A.pad]
  | [a, b] => digits A ((a.toNat * 256 + b.toNat) * 2 ^ 2) 3 ++ [A.pad]
  | a :: b :: c :: rest =>
    digits A ((a.toNat * 256 + b.toNat) * 256 + c.toNat) 4 ++ encode rest

/-- The number that digits stand for, after those that `n` stands for. -/
def number (n : Nat) : Bytes → Option Nat
  | [] => some n
  | c :: cs => (A.value c).bind fun v => number (n * 64 + v.val) cs

/-- Only the last group may be padded. -/
def decode : Bytes → Option Bytes
  | [] => some []
  | w :: x :: y :: z :: rest =>
    if z = A.pad then
      if rest ≠ [] then none
      else if y = A.pad then (number A 0 [w, x]).map fun n => [octet (n / 2 ^ 4) 0]
      else (number A 0 [w, x, y]).map fun n => [octet (n / 2 ^ 2) 1, octet (n / 2 ^ 2) 0]
    else
      (number A 0 [w, x, y, z]).bind fun n =>
        (decode rest).map fun bs => octet n 2 :: octet n 1 :: octet n 0 :: bs
  | _ => none

/-- **Digits are read as the number**, up to their count. -/
theorem number_digits (n : Nat) : ∀ (k m : Nat),
    number A m (digits A n k) = some (m * 64 ^ k + n % 64 ^ k)
  | 0, m => by simp [digits, number, Nat.mod_one]
  | k + 1, m => by
    have hsplit : (m * 64 + n / 64 ^ k % 64) * 64 ^ k + n % 64 ^ k =
        m * 64 ^ (k + 1) + n % 64 ^ (k + 1) := by
      rw [Nat.mod_pow_succ]
      ring
    rw [digits, number, A.value_digit, Option.bind_some, number_digits n k]
    exact congrArg some hsplit

/-- The first `k` digits are the digits of what the others leave. -/
theorem take_digits (n j : Nat) : ∀ k : Nat,
    (digits A n (k + j)).take k = digits A (n / 64 ^ j) k
  | 0 => rfl
  | k + 1 => by
    have hfirst : sextet n (k + j) = sextet (n / 64 ^ j) k := by
      refine Fin.ext ?_
      show n / 64 ^ (k + j) % 64 = n / 64 ^ j / 64 ^ k % 64
      rw [Nat.div_div_eq_div_mul, ← Nat.pow_add, Nat.add_comm j k]
    rw [Nat.add_right_comm, digits, List.take_succ_cons, take_digits n j k, hfirst, digits]

theorem octet_eq {n k : Nat} {b : UInt8} (h : n / 256 ^ k % 256 = b.toNat) : octet n k = b := by
  apply UInt8.toNat_inj.mp
  rw [octet, UInt8.toNat_ofNat', h]

/-- **Decoding gives the bytes back.** -/
theorem decode_encode : ∀ bs : Bytes, decode A (encode A bs) = some bs
  | [] => rfl
  | [a] => by
    have ha := a.toNat_lt
    have hn : number A 0 (digits A (a.toNat * 2 ^ 4) 2) = some (a.toNat * 2 ^ 4) := by
      rw [number_digits, Nat.zero_mul, Nat.zero_add, Nat.mod_eq_of_lt (by omega)]
    have hoctet : octet (a.toNat * 2 ^ 4 / 2 ^ 4) 0 = a := octet_eq (by omega)
    simp only [digits] at hn
    simp only [encode, digits, List.cons_append, List.nil_append, decode, if_true, ne_eq, not_true,
      if_false, hn, Option.map_some, hoctet]
  | [a, b] => by
    have ha := a.toNat_lt
    have hb := b.toNat_lt
    have hn : number A 0 (digits A ((a.toNat * 256 + b.toNat) * 2 ^ 2) 3) =
        some ((a.toNat * 256 + b.toNat) * 2 ^ 2) := by
      rw [number_digits, Nat.zero_mul, Nat.zero_add, Nat.mod_eq_of_lt (by omega)]
    have hfirst : octet ((a.toNat * 256 + b.toNat) * 2 ^ 2 / 2 ^ 2) 1 = a := octet_eq (by omega)
    have hsecond : octet ((a.toNat * 256 + b.toNat) * 2 ^ 2 / 2 ^ 2) 0 = b := octet_eq (by omega)
    simp only [digits] at hn
    simp only [encode, digits, List.cons_append, List.nil_append, decode, if_true, ne_eq, not_true,
      if_false, A.digit_ne_pad, hn, Option.map_some, hfirst, hsecond]
  | a :: b :: c :: rest => by
    have ha := a.toNat_lt
    have hb := b.toNat_lt
    have hc := c.toNat_lt
    have hn : number A 0 (digits A ((a.toNat * 256 + b.toNat) * 256 + c.toNat) 4) =
        some ((a.toNat * 256 + b.toNat) * 256 + c.toNat) := by
      rw [number_digits, Nat.zero_mul, Nat.zero_add, Nat.mod_eq_of_lt (by omega)]
    have hfirst : octet ((a.toNat * 256 + b.toNat) * 256 + c.toNat) 2 = a := octet_eq (by omega)
    have hsecond : octet ((a.toNat * 256 + b.toNat) * 256 + c.toNat) 1 = b := octet_eq (by omega)
    have hthird : octet ((a.toNat * 256 + b.toNat) * 256 + c.toNat) 0 = c := octet_eq (by omega)
    simp only [digits] at hn
    simp only [encode, digits, List.cons_append, List.nil_append, decode, A.digit_ne_pad, if_false,
      hn, Option.bind_some, decode_encode rest, Option.map_some, hfirst, hsecond, hthird]

/-! ## The alphabet of RFC 4648 -/

/-- `A` to `Z`, `a` to `z`, `0` to `9`, `+` and `/`. -/
def standardDigit (v : Fin 64) : UInt8 :=
  if v.val < 26 then UInt8.ofNat (65 + v.val)
  else if v.val < 52 then UInt8.ofNat (97 + (v.val - 26))
  else if v.val < 62 then UInt8.ofNat (48 + (v.val - 52))
  else if v.val = 62 then 43
  else 47

def standardValue (c : UInt8) : Option (Fin 64) :=
  (List.finRange 64).find? fun v => standardDigit v == c

/-- Table 1, with `=` for the padding. -/
def standard : Alphabet where
  digit := standardDigit
  value := standardValue
  pad := 61
  value_digit := by decide
  digit_ne_pad := by decide

example : encode standard (ascii "foobar") = ascii "Zm9vYmFy" := by decide
example : encode standard (ascii "foob") = ascii "Zm9vYg==" := by decide

end Reckoning.Radix64
