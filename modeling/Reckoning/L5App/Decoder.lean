import Mathlib.Order.Bounds.Basic
import Reckoning.L1Bytes.Buffer

/-!
# Memory for decoded images

`lib/image/Decoder.cpp`: each of the three codecs reports a width and a height,
the decoder makes a buffer of `pitch * height` bytes, and the pixels are put into
it row by row, `pitch` bytes from one to the next. The rows of PNG are copied by
the decoder itself. The pitch and the size of the buffer are computed in
32 bits.

What the codec has decoded is a `Frame`. A decoder gives nothing when a row is
written outside the buffer or an assertion fails. JPEG and WEBP take the pitch
as an `int`, and refuse it when it is negative there.

* `roundUp_least`: the pitch without a limit on its size.
* `pitch_eq`, `size_eq`: when the numbers of the code are those.
* `largeEnough_iff`: when the buffer is large enough.
-/
namespace Reckoning.L5.Decoder
open Reckoning.L1

/-! ## The code -/

/-- mirrors lib/image/Decoder.cpp:11-17 -/
def calculatePitch (w p : UInt32) : UInt32 :=
  if p = 0 then w
  else
    let mod := w % p
    if mod = 0 then w else w + (p - mod)

/-- What a codec reports of its data, and the rows of four bytes a pixel. -/
structure Frame where
  width : UInt32
  height : UInt32
  alpha : Bool
  rows : List Bytes
  rows_length : rows.length = height.toNat
  row_length : ∀ row ∈ rows, row.length = 4 * width.toNat

/-- mirrors include/image/Decoder.h:24-32 -/
structure Image where
  width : UInt32
  height : UInt32
  bpl : UInt32
  depth : UInt8
  alpha : Bool
  data : Option ((m : Nat) × Buffer m)

/-- What a decoder has made, and whether the codec has accepted it; otherwise
`{}` is returned. -/
structure Decoded where
  image : Image
  ok : Bool

def depth : UInt8 := 32

/-- `image.depth / 8` -/
def bpp : UInt32 := (depth / 8).toUInt32

/-- As an `int`. -/
def negative (pitch : UInt32) : Bool := 0x80000000 ≤ pitch

variable {m : Nat}

/-- A row that is written at `data() + off`. -/
def writeRow (off : Nat) (row : Bytes) (b : Buffer m) : Option (Buffer m) :=
  if h : off + row.length ≤ m then
    some {
      b with
      mData := b.mData.take off ++ row ++ b.mData.drop (off + row.length)
      data_length := by
        have := b.data_length
        simp only [List.length_append, List.length_take, List.length_drop]
        omega }
  else none

/-- What JPEG and WEBP codecs do, from row `y` on. -/
def writeRows (pitch : Nat) : Nat → List Bytes → Buffer m → Option (Buffer m)
  | _, [], b => some b
  | y, row :: rows, b => (writeRow (y * pitch) row b).bind (writeRows pitch (y + 1) rows)

/-- mirrors lib/image/Decoder.cpp:122-125 -/
def appendRows (pitch rowBytes : Nat) : List Bytes → Buffer m → Option (Buffer m)
  | [], b => some b
  | row :: rows, b =>
    ((b.append row).bind (Buffer.addSize (pitch - rowBytes))).bind (appendRows pitch rowBytes rows)

section
variable (junk : Nat → UInt8) (f : Frame) (pitchMultiple : UInt32)

/-- The image with its buffer, before the pixels are there. -/
def image (alpha : Bool) (data : Buffer m) : Image :=
  ⟨f.width, f.height, calculatePitch f.width pitchMultiple * bpp, depth, alpha, some ⟨m, data⟩⟩

/-- mirrors lib/image/Decoder.cpp:108-136 -/
def decodePNG : Option Decoded :=
  let rowBytes := 4 * f.width.toNat
  let pitch := calculatePitch f.width pitchMultiple * bpp
  if pitch.toNat < rowBytes then none
  else
    ((Buffer.create junk (pitch * f.height).toNat).setSize 0).bind fun data =>
      (appendRows pitch.toNat rowBytes f.rows data).map fun data =>
        ⟨image f pitchMultiple f.alpha data, true⟩

/-- `WebPDecodeRGBAInto` is told the size of the buffer, and refuses one that is
too small. mirrors lib/image/Decoder.cpp:144-163 -/
def decodeWEBP : Option Decoded :=
  let pitch := calculatePitch f.width pitchMultiple * bpp
  let data := Buffer.create junk (pitch * f.height).toNat
  if negative pitch then some ⟨image f pitchMultiple f.alpha data, false⟩
  else
    match writeRows pitch.toNat 0 f.rows data with
    | none => some ⟨image f pitchMultiple f.alpha data, false⟩
    | some data => some ⟨image f pitchMultiple f.alpha data, true⟩

/-- mirrors lib/image/Decoder.cpp:175-196 -/
def decodeJPEG : Option Decoded :=
  let pitch := calculatePitch f.width pitchMultiple * bpp
  let data := Buffer.create junk (pitch * f.height).toNat
  if negative pitch then some ⟨image f pitchMultiple false data, false⟩
  else
    (writeRows pitch.toNat 0 f.rows data).map fun data => ⟨image f pitchMultiple false data, true⟩

end

inductive Format
  | jpeg
  | png
  | webp
  deriving DecidableEq, Repr

/-- mirrors lib/image/Decoder.cpp:214-223 -/
def decode (junk : Nat → UInt8) (f : Frame) (pitchMultiple : UInt32) : Format → Option Decoded
  | .jpeg => decodeJPEG junk f pitchMultiple
  | .png => decodePNG junk f pitchMultiple
  | .webp => decodeWEBP junk f pitchMultiple

/-! ## Without a limit on the size -/

/-- The smallest multiple of `p` not below `w`; `w` itself for no `p`. -/
def roundUp (w p : Nat) : Nat := if w % p = 0 ∨ p = 0 then w else w + (p - w % p)

/-- `u` is the width of a row in memory. -/
def Padded (w p u : Nat) : Prop := if p = 0 then u = w else IsLeast {n | p ∣ n ∧ w ≤ n} u

theorem roundUp_le (w p : Nat) : w ≤ roundUp w p := by
  unfold roundUp
  split <;> omega

theorem roundUp_padded (w p : Nat) : Padded w p (roundUp w p) := by
  unfold Padded
  by_cases hp : p = 0
  · rw [if_pos hp, roundUp, if_pos (.inr hp)]
  rw [if_neg hp]
  refine ⟨⟨?_, roundUp_le w p⟩, fun n hn => ?_⟩
  · unfold roundUp
    split
    · rename_i h
      exact Nat.dvd_of_mod_eq_zero (h.resolve_right hp)
    · have hlt := Nat.mod_lt w (Nat.pos_of_ne_zero hp)
      have hsum : w + (p - w % p) = p * (w / p) + p := by
        have := Nat.div_add_mod w p
        omega
      rw [hsum]
      exact ⟨w / p + 1, by rw [Nat.mul_add, Nat.mul_one]⟩
  · obtain ⟨⟨k, rfl⟩, hle⟩ := hn
    unfold roundUp
    split
    · exact hle
    · rename_i h
      -- a multiple not below `w` is not the one below it, so it is at least the next
      have hdiv := Nat.div_add_mod w p
      have hlt := Nat.mod_lt w (Nat.pos_of_ne_zero hp)
      have hmod : w % p ≠ 0 := fun h0 => h (.inl h0)
      have hk : w / p < k := by
        by_contra hge
        have := Nat.mul_le_mul_left p (Nat.not_lt.mp hge)
        omega
      have hnext : p * (w / p + 1) ≤ p * k := Nat.mul_le_mul_left p hk
      rw [Nat.mul_add, Nat.mul_one] at hnext
      omega

theorem Padded.eq {w p u : Nat} (h : Padded w p u) : u = roundUp w p := by
  have hr := roundUp_padded w p
  unfold Padded at h hr
  by_cases hp : p = 0
  · rw [if_pos hp] at h hr
    exact h.trans hr.symm
  · rw [if_neg hp] at h hr
    exact h.unique hr

/-! ## In 32 bits -/

theorem calculatePitch_toNat (w p : UInt32) :
    (calculatePitch w p).toNat = roundUp w.toNat p.toNat % 4294967296 := by
  have hw := w.toNat_lt
  unfold calculatePitch roundUp
  by_cases hp : p = 0
  · rw [if_pos hp, if_pos (.inr (by rw [hp]; rfl)), Nat.mod_eq_of_lt hw]
  · have hp0 : p.toNat ≠ 0 := fun h0 => hp (UInt32.toNat_inj.mp h0)
    have hlt := Nat.mod_lt w.toNat (Nat.pos_of_ne_zero hp0)
    have hmod : (w % p).toNat = w.toNat % p.toNat := UInt32.toNat_mod w p
    rw [if_neg hp]
    by_cases h0 : w % p = 0
    · have h0' : w.toNat % p.toNat = 0 := by rw [← hmod, h0]; rfl
      simp only [h0, if_true, h0', true_or, Nat.mod_eq_of_lt hw]
    · have h0' : w.toNat % p.toNat ≠ 0 := fun h => h0 (UInt32.toNat_inj.mp (hmod.trans h))
      have hsub : (p - w % p).toNat = p.toNat - w.toNat % p.toNat := by
        rw [UInt32.toNat_sub_of_le, hmod]
        rw [UInt32.le_iff_toNat_le, hmod]
        omega
      simp only [if_neg h0, h0', hp0, or_self, if_false, UInt32.toNat_add, hsub]

/-- What a row takes, and all rows together, in 32 bits. -/
def Fits (f : Frame) (p : UInt32) : Prop :=
  4 * roundUp f.width.toNat p.toNat * max f.height.toNat 1 < 4294967296

instance (f : Frame) (p : UInt32) : Decidable (Fits f p) := inferInstanceAs (Decidable (_ < _))

variable {f : Frame} {p : UInt32}

theorem Fits.row (h : Fits f p) : 4 * roundUp f.width.toNat p.toNat < 4294967296 :=
  Nat.lt_of_le_of_lt (Nat.le_mul_of_pos_right _ (by omega)) h

theorem Fits.rows (h : Fits f p) :
    4 * roundUp f.width.toNat p.toNat * f.height.toNat < 4294967296 :=
  Nat.lt_of_le_of_lt (Nat.mul_le_mul_left _ (by omega)) h

theorem pitch_toNat (w p : UInt32) :
    (calculatePitch w p * bpp).toNat = 4 * roundUp w.toNat p.toNat % 4294967296 := by
  have hbpp : bpp.toNat = 4 := rfl
  rw [UInt32.toNat_mul, calculatePitch_toNat, hbpp, Nat.mod_mul_mod, Nat.mul_comm]

theorem Fits.pitch (h : Fits f p) :
    (calculatePitch f.width p * bpp).toNat = 4 * roundUp f.width.toNat p.toNat := by
  rw [pitch_toNat, Nat.mod_eq_of_lt h.row]

theorem Fits.size (h : Fits f p) :
    (calculatePitch f.width p * bpp * f.height).toNat =
      (calculatePitch f.width p * bpp).toNat * f.height.toNat := by
  rw [UInt32.toNat_mul, Nat.mod_eq_of_lt]
  rw [h.pitch]
  exact h.rows

/-! ## The rows -/

/-- The buffer is as large as the rows take with `bpl` bytes from one to the next, and each row
of pixels lies in it. -/
structure LargeEnough (f : Frame) (p : UInt32) (image : Image) : Prop where
  data : ∃ data, image.data = some data ∧ data.1 = image.bpl.toNat * f.height.toNat
  row : 4 * f.width.toNat ≤ image.bpl.toNat
  pitch : ∃ u, Padded f.width.toNat p.toNat u ∧ image.bpl.toNat = 4 * u
  rows : ∀ data, image.data = some data → ∀ y < f.height.toNat,
    y * image.bpl.toNat + 4 * f.width.toNat ≤ data.1

theorem writeRows_some {pitch n : Nat} : ∀ (rows : List Bytes) (y : Nat) (b : Buffer m),
    (∀ row ∈ rows, row.length = n) → n ≤ pitch → (y + rows.length) * pitch ≤ m →
    ∃ b', writeRows pitch y rows b = some b'
  | [], _, b, _, _, _ => ⟨b, rfl⟩
  | row :: rows, y, b, hlen, hn, hm => by
    obtain ⟨hrow, hrows⟩ := List.forall_mem_cons.mp hlen
    have hnext : (y + 1) * pitch ≤ m := Nat.le_trans (Nat.mul_le_mul_right _ (by simp)) hm
    have hin : y * pitch + row.length ≤ m := by
      rw [Nat.add_mul, Nat.one_mul] at hnext
      omega
    obtain ⟨b₁, h₁⟩ : ∃ b₁, writeRow (y * pitch) row b = some b₁ := ⟨_, dif_pos hin⟩
    have hm' : (y + 1 + rows.length) * pitch ≤ m := by
      rwa [List.length_cons, Nat.add_comm rows.length, ← Nat.add_assoc] at hm
    rw [writeRows, h₁, Option.bind_some]
    exact writeRows_some rows (y + 1) b₁ hrows hn hm'

theorem appendRows_some {pitch n : Nat} : ∀ (rows : List Bytes) (b : Buffer m),
    (∀ row ∈ rows, row.length = n) → n ≤ pitch → b.mSize + rows.length * pitch ≤ m →
    ∃ b', appendRows pitch n rows b = some b'
  | [], b, _, _, _ => ⟨b, rfl⟩
  | row :: rows, b, hlen, hn, hm => by
    obtain ⟨hrow, hrows⟩ := List.forall_mem_cons.mp hlen
    rw [List.length_cons, Nat.add_mul, Nat.one_mul] at hm
    obtain ⟨b₁, h₁, hb₁⟩ := Buffer.append_some (show b.mSize + row.length ≤ m by omega)
    have hsize : b₁.mSize = b.mSize + n := by
      rw [← Buffer.bytes_length, hb₁, List.length_append, Buffer.bytes_length, hrow]
    have hadd : 0 ≤ (b₁.mSize : Int) + (pitch - n) ∧ (b₁.mSize : Int) + (pitch - n) ≤ m := by omega
    rw [appendRows, h₁, Option.bind_some, Buffer.addSize, dif_pos hadd, Option.bind_some]
    refine appendRows_some rows _ hrows hn ?_
    simp only
    omega

/-! ## The decoders -/

theorem decode_image {junk : Nat → UInt8} {format : Format} {d : Decoded}
    (h : decode junk f p format = some d) : ∃ alpha, ∃ data : Buffer
      (calculatePitch f.width p * bpp * f.height).toNat, d.image = image f p alpha data := by
  cases format with
  | jpeg =>
    simp only [decode, decodeJPEG] at h
    split at h
    · cases h
      exact ⟨_, _, rfl⟩
    · obtain ⟨data, -, rfl⟩ := Option.map_eq_some_iff.mp h
      exact ⟨_, _, rfl⟩
  | png =>
    simp only [decode, decodePNG] at h
    split at h
    · cases h
    · obtain ⟨data, -, h⟩ := Option.bind_eq_some_iff.mp h
      obtain ⟨data, -, rfl⟩ := Option.map_eq_some_iff.mp h
      exact ⟨_, _, rfl⟩
  | webp =>
    simp only [decode, decodeWEBP] at h
    split at h
    · cases h
      exact ⟨_, _, rfl⟩
    · split at h <;> cases h <;> exact ⟨_, _, rfl⟩

/-- A buffer of the right size and rows of the right length mean that nothing has wrapped. -/
theorem LargeEnough.fits {alpha : Bool}
    {data : Buffer (calculatePitch f.width p * bpp * f.height).toNat}
    (h : LargeEnough f p (image f p alpha data)) : Fits f p := by
  obtain ⟨d, hd, hsize⟩ := h.data
  obtain ⟨u, hu, hbpl⟩ := h.pitch
  cases hd
  have hrow : (calculatePitch f.width p * bpp).toNat = 4 * roundUp f.width.toNat p.toNat :=
    hu.eq ▸ hbpl
  have hlt := (calculatePitch f.width p * bpp).toNat_lt
  have hlt' := (calculatePitch f.width p * bpp * f.height).toNat_lt
  have hall : (calculatePitch f.width p * bpp * f.height).toNat =
      4 * roundUp f.width.toNat p.toNat * f.height.toNat := hrow ▸ hsize
  unfold Fits
  rcases Nat.eq_zero_or_pos f.height.toNat with h0 | hpos
  · rw [h0, Nat.max_eq_right (Nat.zero_le 1), Nat.mul_one]
    omega
  · rw [Nat.max_eq_left hpos]
    omega

theorem Fits.row_le (h : Fits f p) :
    4 * f.width.toNat ≤ (calculatePitch f.width p * bpp).toNat := by
  rw [h.pitch]
  exact Nat.mul_le_mul_left 4 (roundUp_le _ _)

theorem Fits.largeEnough (h : Fits f p) (alpha : Bool)
    (data : Buffer (calculatePitch f.width p * bpp * f.height).toNat) :
    LargeEnough f p (image f p alpha data) := by
  have hle := h.row_le
  refine ⟨⟨_, rfl, h.size⟩, hle, ⟨_, roundUp_padded _ _, h.pitch⟩, fun d hd y hy => ?_⟩
  cases hd
  have hnext := Nat.mul_le_mul_right (calculatePitch f.width p * bpp).toNat hy
  rw [Nat.succ_mul] at hnext
  have hsize := h.size
  rw [Nat.mul_comm] at hsize
  show y * (calculatePitch f.width p * bpp).toNat + _ ≤
    (calculatePitch f.width p * bpp * f.height).toNat
  omega

theorem decode_some (h : Fits f p) (junk : Nat → UInt8) (format : Format) :
    ∃ d, decode junk f p format = some d := by
  have hle := h.row_le
  have hsize : (0 + f.rows.length) * (calculatePitch f.width p * bpp).toNat ≤
      (calculatePitch f.width p * bpp * f.height).toNat := by
    rw [Nat.zero_add, f.rows_length, h.size, Nat.mul_comm]
  cases format with
  | jpeg =>
    simp only [decode, decodeJPEG]
    split
    · exact ⟨_, rfl⟩
    · obtain ⟨data, hdata⟩ := writeRows_some f.rows 0 (Buffer.create junk _) f.row_length hle hsize
      exact ⟨_, by rw [hdata]; rfl⟩
  | png =>
    simp only [decode, decodePNG]
    rw [if_neg (Nat.not_lt.mpr hle)]
    obtain ⟨data, hset, hnil⟩ := Buffer.setSize_zero
      (Buffer.create junk (calculatePitch f.width p * bpp * f.height).toNat)
    have hzero : data.mSize = 0 := by rw [← Buffer.bytes_length, hnil]; rfl
    obtain ⟨data', happ⟩ := appendRows_some f.rows data f.row_length hle
      (by rw [hzero, Nat.zero_add]; rwa [Nat.zero_add] at hsize)
    exact ⟨_, by rw [hset, Option.bind_some, happ]; rfl⟩
  | webp =>
    simp only [decode, decodeWEBP]
    split
    · exact ⟨_, rfl⟩
    · split <;> exact ⟨_, rfl⟩

/-- **The buffer is large enough** if and only if the bytes of a row, and of all rows, can be
counted in 32 bits. -/
theorem largeEnough_iff (junk : Nat → UInt8) (f : Frame) (p : UInt32) (format : Format) :
    (∃ d, decode junk f p format = some d ∧ LargeEnough f p d.image) ↔ Fits f p := by
  constructor
  · intro hx
    obtain ⟨d, hd, hlarge⟩ := hx
    obtain ⟨alpha, data, hi⟩ := decode_image hd
    rw [hi] at hlarge
    exact hlarge.fits
  · intro h
    obtain ⟨d, hd⟩ := decode_some h junk format
    obtain ⟨alpha, data, hi⟩ := decode_image hd
    exact ⟨d, hd, hi ▸ h.largeEnough alpha data⟩

/-- The largest JPEG. -/
def largest : Frame where
  width := 65500
  height := 65500
  alpha := false
  rows := List.replicate 65500 (List.replicate 262000 0)
  rows_length := List.length_replicate
  row_length row h := by rw [List.eq_of_mem_replicate h]; exact List.length_replicate

/-- Its size does not fit in 32 bits. -/
theorem largest_small : ¬ ∀ (junk : Nat → UInt8) (f : Frame) (p : UInt32) (format : Format),
    ∃ d, decode junk f p format = some d ∧ LargeEnough f p d.image := by
  intro h
  obtain ⟨d, hd, hlarge⟩ := h (fun _ => 0) largest 0 .jpeg
  obtain ⟨alpha, data, hi⟩ := decode_image hd
  rw [hi] at hlarge
  exact absurd hlarge.fits (by decide)

end Reckoning.L5.Decoder
