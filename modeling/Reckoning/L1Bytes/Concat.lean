import Reckoning.L1Bytes.Buffer

/-!
# Concatenating buffers

`Pool::concat` copies its arguments into a buffer of the pool when they fit
there, and otherwise has `Buffer::concat` make one, whose memory grows with
`realloc` as the arguments come (include/buffer/Buffer.h:158-218 and
include/buffer/Pool.h:75-86). Both skip a null pointer and an empty buffer.

* `concat_spec`: what comes out is the arguments' bytes in order, in a buffer
  that no one else holds; without a byte in them an assertion fails.
* `concats_iff`: when both ways give that.
-/
namespace Reckoning.L1

variable {number size m : Nat}

/-! ## The two copies -/

/-- `detail::Concat<MaxSize>`: the bytes copied to `blob`, and whether they fit.
mirrors include/buffer/Buffer.h:162-192 -/
def Buffer.concatMax (maxSize : Nat) (blob : Bytes) : List Bytes → Bytes × Bool
  | [] => (blob, true)
  | first :: args =>
    if 0 < first.length then
      if maxSize < blob.length + first.length then (blob, false)
      else concatMax maxSize (blob ++ first) args
    else concatMax maxSize blob args

/-- `realloc` to a larger size. -/
def Buffer.realloc (junk : Nat → UInt8) (more : Nat) (b : Buffer m) : Buffer (m + more) where
  mData := b.mData ++ (List.range more).map junk
  mSize := b.mSize
  data_length := by simp [b.data_length]
  size_le := Nat.le_trans b.size_le (Nat.le_add_right m more)

/-- `detail::Concat<0>`, with `size` the index and `used` the `mSize` of `blob`.
mirrors include/buffer/Buffer.h:162-192 -/
def Buffer.concatGrow (junk : Nat → UInt8) {m : Nat} (blob : Buffer m) :
    List Bytes → Option ((m : Nat) × Buffer m)
  | [] => some ⟨m, blob⟩
  | first :: args =>
    if 0 < first.length then
      if m < blob.mSize + first.length then
        ((blob.realloc junk (first.length * 2)).append first).bind fun blob =>
          concatGrow junk blob args
      else (blob.append first).bind fun blob => concatGrow junk blob args
    else concatGrow junk blob args

/-- No memory has been allocated yet. -/
def Buffer.null : Buffer 0 := ⟨[], 0, rfl, Nat.le_refl 0⟩

/-- mirrors include/buffer/Buffer.h:195-205 -/
def Buffer.concat (junk : Nat → UInt8) (args : List Bytes) : Option ((m : Nat) × Buffer m) :=
  (concatGrow junk Buffer.null args).bind fun b => if b.1 = 0 then none else some b

/-- What an argument has; a null pointer has nothing. -/
def Pool.contents (p : Pool number size) : Option (Ref number) → Bytes
  | none => []
  | some r => (deref p r).bytes

/-- mirrors include/buffer/Pool.h:75-86 -/
def Pool.concat (junk junk' : Nat → UInt8) (args : List (Option (Ref number)))
    (p : Pool number size) : Option (Ref number × Pool number size) :=
  let (buf, p) := p.get junk 0
  let (blob, fits) := Buffer.concatMax size [] (args.map p.contents)
  let used := if fits then blob.length else 0
  if 0 < used then p.call (fun _ b => (b.fill blob).bind (Buffer.setSize used)) buf
  else
    (p.fill blob buf).bind fun (buf, p) =>
      (Buffer.concat junk' (args.map p.contents)).map fun b => (.own b.2, p.release buf)

namespace Buffer

/-- All arguments fit, or the copy stops before the end of the buffer. -/
theorem concatMax_spec {maxSize : Nat} : ∀ (args : List Bytes) (blob : Bytes),
    blob.length ≤ maxSize →
    (blob.length + args.flatten.length ≤ maxSize →
      concatMax maxSize blob args = (blob ++ args.flatten, true)) ∧
    (maxSize < blob.length + args.flatten.length →
      ∃ front, front.length ≤ maxSize ∧ concatMax maxSize blob args = (front, false))
  | [], blob, h => ⟨fun _ => by simp [concatMax], fun hlt => by simp at hlt; omega⟩
  | first :: args, blob, h => by
    simp only [concatMax, List.flatten_cons, List.length_append]
    by_cases hfirst : 0 < first.length
    · rw [if_pos hfirst]
      by_cases hfull : maxSize < blob.length + first.length
      · rw [if_pos hfull]
        exact ⟨fun _ => by omega, fun _ => ⟨blob, h, rfl⟩⟩
      · rw [if_neg hfull]
        have hle : (blob ++ first).length ≤ maxSize := by rw [List.length_append]; omega
        obtain ⟨hfit, hnot⟩ := concatMax_spec args _ hle
        rw [List.length_append] at hfit hnot
        exact ⟨fun hle' => by rw [hfit (by omega), List.append_assoc], fun hlt => hnot (by omega)⟩
    · have hnil : first = [] := List.length_eq_zero_iff.mp (by omega)
      subst hnil
      obtain ⟨hfit, hnot⟩ := concatMax_spec args blob h
      exact ⟨fun hle' => hfit (by simpa using hle'), fun hlt => hnot (by simpa using hlt)⟩

theorem realloc_bytes (junk : Nat → UInt8) (more : Nat) (b : Buffer m) :
    (b.realloc junk more).bytes = b.bytes :=
  List.take_append_of_le_length (by rw [b.data_length]; exact b.size_le)

/-- Doubling by what comes next always makes room for it. -/
theorem concatGrow_spec (junk : Nat → UInt8) : ∀ (args : List Bytes) {m : Nat} (blob : Buffer m),
    ∃ b, concatGrow junk blob args = some b ∧ b.2.bytes = blob.bytes ++ args.flatten ∧
      (b.1 = 0 ↔ m = 0 ∧ args.flatten = [])
  | [], m, blob => ⟨⟨m, blob⟩, rfl, by simp, by simp⟩
  | first :: args, m, blob => by
    have hsize := blob.size_le
    simp only [concatGrow, List.flatten_cons, List.append_eq_nil_iff]
    by_cases hfirst : 0 < first.length
    · rw [if_pos hfirst]
      have hne : first ≠ [] := List.ne_nil_of_length_pos hfirst
      by_cases hfull : m < blob.mSize + first.length
      · rw [if_pos hfull]
        have hroom : (blob.realloc junk (first.length * 2)).mSize + first.length ≤
            m + first.length * 2 := by show blob.mSize + _ ≤ _; omega
        obtain ⟨blob', happ, hbytes⟩ := append_some hroom
        obtain ⟨b, hb, hres, hzero⟩ := concatGrow_spec junk args blob'
        refine ⟨b, by rw [happ, Option.bind_some, hb], ?_, ?_⟩
        · rw [hres, hbytes, realloc_bytes, List.append_assoc]
        · rw [hzero]
          exact ⟨fun h => by omega, fun h => absurd h.2.1 hne⟩
      · rw [if_neg hfull]
        have hroom : blob.mSize + first.length ≤ m := by omega
        obtain ⟨blob', happ, hbytes⟩ := append_some hroom
        obtain ⟨b, hb, hres, hzero⟩ := concatGrow_spec junk args blob'
        refine ⟨b, by rw [happ, Option.bind_some, hb], ?_, ?_⟩
        · rw [hres, hbytes, List.append_assoc]
        · rw [hzero]
          exact ⟨fun h => by omega, fun h => absurd h.2.1 hne⟩
    · have hnil : first = [] := List.length_eq_zero_iff.mp (by omega)
      subst hnil
      obtain ⟨b, hb, hres, hzero⟩ := concatGrow_spec junk args blob
      exact ⟨b, hb, hres, by simpa using hzero⟩

/-- Without a byte there is no memory to make a buffer of. -/
theorem concat_nil {junk : Nat → UInt8} {args : List Bytes} (h : args.flatten = []) :
    Buffer.concat junk args = none := by
  obtain ⟨b, hb, -, hzero⟩ := concatGrow_spec junk args Buffer.null
  rw [Buffer.concat, hb, Option.bind_some, if_pos (hzero.mpr ⟨rfl, h⟩)]

theorem concat_some (junk : Nat → UInt8) {args : List Bytes} (h : args.flatten ≠ []) :
    ∃ b, Buffer.concat junk args = some b ∧ b.2.bytes = args.flatten := by
  obtain ⟨b, hb, hbytes, hzero⟩ := concatGrow_spec junk args Buffer.null
  exact ⟨b, by rw [Buffer.concat, hb, Option.bind_some, if_neg fun h0 => h (hzero.mp h0).2], hbytes⟩

/-- `memcpy` to the start of a buffer, and `setSize` to what was copied. -/
theorem fill_setSize {b : Buffer m} {data : Bytes} (h : data.length ≤ m) :
    ∃ b', (b.fill data).bind (Buffer.setSize data.length) = some b' ∧ b'.bytes = data := by
  rw [fill, dif_pos h, Option.bind_some, setSize, dif_pos h]
  exact ⟨_, rfl, List.take_left' rfl⟩

end Buffer

/-! ## The pool -/

/-- A created buffer in place of the one of the pool, which is given back. -/
theorem Fresh.replace {p p' : Pool number size} {bs : Bytes} {r : Ref number}
    (h : Fresh p bs r p') (b : Buffer m) : Fresh p b.bytes (.own b) (p'.release r) where
  bytes := rfl
  held := fun i hi => by cases hi
  others := by
    intro r₀ h₀
    obtain ⟨hapart, hheld, hderef⟩ := h.others r₀ h₀
    obtain ⟨hframe, hkeeps⟩ := release_spec (p := p') hapart
    exact ⟨(fun i hi => by cases hi), hkeeps hheld, hframe.trans hderef⟩

theorem Fresh.contents {p p' : Pool number size} {bs : Bytes} {r : Ref number}
    (h : Fresh p bs r p') {args : List (Option (Ref number))}
    (hargs : ∀ r₀, some r₀ ∈ args → Held p r₀) : args.map p'.contents = args.map p.contents := by
  refine List.map_congr_left fun arg harg => ?_
  cases arg with
  | none => rfl
  | some r₀ => exact congrArg Buffer.bytes (h.others r₀ (hargs r₀ harg)).2.2

section
variable {junk : Nat → UInt8} (junk' : Nat → UInt8) {args : List (Option (Ref number))}
  {p p₁ : Pool number size} {buf : Ref number}

/-- The copy into the buffer handed out. -/
theorem concat_fits (hget : p.get junk 0 = (buf, p₁))
    (hdata : args.map p₁.contents = args.map p.contents)
    (hfits : (args.map p.contents).flatten.length ≤ size)
    (hne : (args.map p.contents).flatten ≠ []) :
    ∃ r p', p.concat junk junk' args = some (r, p') ∧
      Fresh p (args.map p.contents).flatten r p' := by
  have hmax := (Buffer.concatMax_spec (args.map p.contents) [] (Nat.zero_le size)).1
    (by simpa using hfits)
  obtain ⟨r, p', hcall, hl⟩ := call_spec (p := p₁)
    (f := fun _ b => (b.fill (args.map p.contents).flatten).bind (Buffer.setSize _))
    (Buffer.fill_setSize (Nat.le_trans hfits (get_max hget)))
  refine ⟨r, p', ?_, (fresh_get hget).leaves hl⟩
  have hpos : 0 < (args.map p.contents).flatten.length := List.length_pos_iff.mpr hne
  simp only [Pool.concat, hget, hdata, hmax, List.nil_append, if_true, if_pos hpos]
  exact hcall

/-- The copy into new memory, after a first one that is of no use. -/
theorem concat_grows (hget : p.get junk 0 = (buf, p₁)) (hargs : ∀ r₀, some r₀ ∈ args → Held p r₀)
    {front : Bytes} {fits : Bool} (hfront : front.length ≤ size)
    (hused : (if fits then front.length else 0) = 0)
    (hmax : Buffer.concatMax size [] (args.map p.contents) = (front, fits)) :
    ∃ buf' p₂ bs, Fresh p bs buf' p₂ ∧ p.concat junk junk' args =
      (Buffer.concat junk' (args.map p.contents)).map fun b => (.own b.2, p₂.release buf') := by
  have hbuf := fresh_get hget
  obtain ⟨buf', p₂, hfill, hl⟩ := fill_spec front buf p₁ (Nat.le_trans hfront (get_max hget))
  have hfresh := hbuf.leaves hl
  refine ⟨buf', p₂, _, hfresh, ?_⟩
  simp only [Pool.concat, hget, hbuf.contents hargs, hmax, hused, Nat.lt_irrefl, if_false, hfill,
    Option.bind_some, hfresh.contents hargs]

end

/-- **The arguments in order**, whichever way they are put together. -/
theorem concat_spec (junk junk' : Nat → UInt8) {args : List (Option (Ref number))}
    {p : Pool number size} (hargs : ∀ r₀, some r₀ ∈ args → Held p r₀) :
    ((args.map p.contents).flatten ≠ [] → ∃ r p', p.concat junk junk' args = some (r, p') ∧
      Fresh p (args.map p.contents).flatten r p') ∧
    ((args.map p.contents).flatten = [] → p.concat junk junk' args = none) := by
  rcases hget : p.get junk 0 with ⟨buf, p₁⟩
  have hdata := (fresh_get hget).contents hargs
  have hcopy := Buffer.concatMax_spec (args.map p.contents) [] (Nat.zero_le size)
  constructor
  · intro hne
    by_cases hfits : (args.map p.contents).flatten.length ≤ size
    · exact concat_fits junk' hget hdata hfits hne
    · obtain ⟨front, hfront, hmax⟩ := hcopy.2 (by simpa using hfits)
      obtain ⟨buf', p₂, bs, hfresh, hconcat⟩ := concat_grows junk' hget hargs hfront rfl hmax
      obtain ⟨b, hb, hbytes⟩ := Buffer.concat_some junk' hne
      exact ⟨.own b.2, _, by rw [hconcat, hb, Option.map_some], hbytes ▸ hfresh.replace b.2⟩
  · intro hnil
    have hmax : Buffer.concatMax size [] (args.map p.contents) = ([], true) := by
      rw [hcopy.1 (by simp [hnil]), hnil, List.append_nil]
    have hfront : ([] : Bytes).length ≤ size := Nat.zero_le size
    obtain ⟨buf', p₂, bs, -, hconcat⟩ := concat_grows junk' hget hargs hfront rfl hmax
    rw [hconcat, Buffer.concat_nil hnil, Option.map_none]

/-! ## Both ways -/

section
variable (junk junk' : Nat → UInt8) (args : List (Option (Ref number))) (p : Pool number size)

/-- No assertion fails, and either way gives the bytes of the arguments. -/
structure Pool.Concats : Prop where
  pool : ∃ r p', p.concat junk junk' args = some (r, p') ∧
    Fresh p (args.map p.contents).flatten r p' ∧
    (deref p' r).mSize = (args.map p.contents).flatten.length
  allocated : ∃ b, Buffer.concat junk' (args.map p.contents) = some b ∧
    b.2.bytes = (args.map p.contents).flatten ∧
    b.2.mSize = (args.map p.contents).flatten.length

/-- One of the arguments is a buffer that is not empty. -/
def Pool.HasByte : Prop := ∃ r, some r ∈ args ∧ (deref p r).mSize ≠ 0

theorem hasByte_iff : p.HasByte args ↔ (args.map p.contents).flatten ≠ [] := by
  have hempty : ∀ r : Ref number, (deref p r).bytes = [] ↔ (deref p r).mSize = 0 := fun r => by
    rw [← List.length_eq_zero_iff, Buffer.bytes_length]
  constructor
  · intro h hnil
    obtain ⟨r, hr, hsize⟩ := h
    have hr : (deref p r).bytes ∈ args.map p.contents := List.mem_map.mpr ⟨some r, hr, rfl⟩
    exact hsize ((hempty r).mp (List.flatten_eq_nil_iff.mp hnil _ hr))
  · intro hne
    refine Classical.byContradiction fun hno => hne (List.flatten_eq_nil_iff.mpr fun bs hbs => ?_)
    obtain ⟨arg, harg, rfl⟩ := List.mem_map.mp hbs
    cases arg with
    | none => rfl
    | some r => exact (hempty r).mpr (Classical.byContradiction fun hs => hno ⟨r, harg, hs⟩)

/-- **Both ways agree** exactly when there is a byte to copy. -/
theorem concats_iff (hargs : ∀ r, some r ∈ args → Held p r) :
    p.Concats junk junk' args ↔ p.HasByte args := by
  rw [hasByte_iff]
  obtain ⟨hsome, hnone⟩ := concat_spec junk junk' hargs
  constructor
  · intro h hnil
    obtain ⟨r, p', hconcat, -⟩ := h.pool
    rw [hnone hnil] at hconcat
    cases hconcat
  · intro hne
    obtain ⟨r, p', hconcat, hfresh⟩ := hsome hne
    obtain ⟨b, hb, hbytes⟩ := Buffer.concat_some junk' hne
    exact {
      pool := ⟨r, p', hconcat, hfresh, by rw [← hfresh.bytes, Buffer.bytes_length]⟩
      allocated := ⟨b, hb, hbytes, by rw [← hbytes, Buffer.bytes_length]⟩ }

end

/-- A null pointer, an empty buffer and two bytes. -/
theorem concats_twoBytes :
    let p : Pool 1 4 := fun _ => ⟨Buffer.create (fun _ => 0) 4, 0⟩
    p.Concats (fun _ => 0) (fun _ => 0)
      [none, some (.own Buffer.null), some (.own (Buffer.create (fun _ => 7) 2))] := by
  intro p
  have hargs : ∀ r : Ref 1, some r ∈
      [none, some (.own Buffer.null), some (.own (Buffer.create (fun _ => 7) 2))] → Held p r := by
    rintro r hr i rfl
    simp at hr
  exact (concats_iff _ _ _ p hargs).mpr ⟨.own (Buffer.create (fun _ => 7) 2), by simp, by decide⟩

/-- A null pointer and an empty buffer. -/
theorem concat_nothing :
    let p : Pool 1 4 := fun _ => ⟨Buffer.create (fun _ => 0) 4, 0⟩
    ¬ p.Concats (fun _ => 0) (fun _ => 0) [none, some (.own Buffer.null)] := by
  intro p h
  obtain ⟨b, hb, -⟩ := h.allocated
  have hnil : Buffer.concat (fun _ => 0) ([none, some (.own Buffer.null)].map p.contents) = none :=
    Buffer.concat_nil rfl
  rw [hnil] at hb
  cases hb

end Reckoning.L1
