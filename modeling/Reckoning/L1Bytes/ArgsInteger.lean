import Mathlib.Data.Nat.Digits.Defs
import Mathlib.Tactic.Ring
import Reckoning.L1Bytes.ArgsTerminator

/-!
# Command line arguments: integer options

`--key=text` with a decimal integer for its text is stored as an `int64_t`.
`strtoll` clamps what does not fit, which is not noticed, and `has<int32_t>`
and `value<int32_t>` look at the stored type only: every stored `int64_t` is
handed out as an `int32_t`, its upper half cut off (include/args/Args.h:68-102).

* `strtoll_text`: a literal is read to its end, as the number it denotes, clamped.
* `parseLoop_over`: what arguments set does not depend on what was set before them.
* `run_option`: an option keeps what its own argument stored, unless it is set again.
* `keepsValue_iff`: it has its number in every width exactly when that fits 32 bits.
-/
namespace Reckoning.L1.ArgsParser

/-! ## Reading the settings -/

/-- The `T` of `has<T>` and `value<T>`. -/
inductive Ty where
  | bool | int32 | int64 | float | double | string
  deriving DecidableEq, Repr

/-- `v.type()` -/
def Any.type {D : Type} : Any D → Ty
  | .bool _ => .bool
  | .int64 _ => .int64
  | .double _ => .double
  | .string _ => .string

/-- The values of a `T`; `F` are the floats. -/
abbrev Ty.Val (D F : Type) : Ty → Type
  | .bool => Bool
  | .int32 | .int64 => Int
  | .float => F
  | .double => D
  | .string => Bytes

/-- The conversions to floating point. -/
structure Casts (D F : Type) where
  floatOfDouble : D → F
  floatOfInt64 : Int → F
  doubleOfInt64 : Int → D

/-- `static_cast<int32_t>`: the lower half. -/
def toInt32 (n : Int) : Int := n.bmod 4294967296

section
variable {D F : Type}

/-- mirrors include/args/Args.h:55-58 -/
def Args.hasKey (args : Args D) (key : Bytes) : Bool := (args.mValues key).isSome

/-- mirrors include/args/Args.h:60-78 -/
def Args.has (args : Args D) (T : Ty) (key : Bytes) : Bool :=
  match args.mValues key with
  | none => false
  | some v =>
    if v.type = T then true
    else if v.type = .int64 then T = .int32 ∨ T = .float ∨ T = .double
    else T = .float ∧ v.type = .double

/-- The three overloads: for a string, for `bool` and the integers, for floating point.
mirrors include/args/Args.h:80-115 -/
def Args.value (casts : Casts D F) (args : Args D) (T : Ty) (key : Bytes)
    (defaultValue : T.Val D F) : T.Val D F :=
  match args.mValues key with
  | none => defaultValue
  | some v =>
    match T, v with
    | .string, .string s => s
    | .bool, .bool b => b
    | .int64, .int64 n => n
    -- whatever the number is
    | .int32, .int64 n => toInt32 n
    | .double, .double d => d
    | .double, .int64 n => casts.doubleOfInt64 n
    | .float, .double d => casts.floatOfDouble d
    | .float, .int64 n => casts.floatOfInt64 n
    | _, _ => defaultValue

/-- Where `has<T>` is true the default is not used, and otherwise it is. -/
theorem value_default (casts : Casts D F) (args : Args D) (T : Ty) (key : Bytes)
    (d : T.Val D F) :
    (args.has T key = true → ∀ d', args.value casts T key d = args.value casts T key d') ∧
      (args.has T key = false → args.value casts T key d = d) := by
  unfold Args.has Args.value
  cases args.mValues key with
  | none => exact ⟨nofun, fun _ => rfl⟩
  | some v => cases v <;> cases T <;> simp [Any.type]

end

/-! ## Decimal literals -/

/-- An optional minus sign and digits, the largest first, without a superfluous zero in front. -/
structure Literal where
  negative : Bool
  digits : List (Fin 10)
  nonempty : digits ≠ []
  leading : digits.head? = some 0 → digits = [0]

def digitChar (d : Fin 10) : UInt8 := UInt8.ofNat (48 + d.val)

namespace Literal

/-- As it is written. -/
def text (v : Literal) : Bytes := (if v.negative then [45] else []) ++ v.digits.map digitChar

/-- The number of the digits. -/
def magnitude (v : Literal) : Nat := Nat.ofDigits 10 (v.digits.reverse.map Fin.val)

/-- The integer it denotes. -/
def value (v : Literal) : Int := if v.negative then -v.magnitude else v.magnitude

end Literal

theorem digitValue_digitChar : ∀ d : Fin 10, digitValue (digitChar d) = d.val := by decide

theorem digitChar_eq_zero : ∀ d : Fin 10, digitChar d = 48 ↔ d = 0 := by decide

/-- Digits of base 10 are read to the end of the text. -/
theorem digits_text (ds : List (Fin 10)) (n : Nat) :
    digits 10 (ds.map digitChar) n =
      (10 ^ ds.length * n + Nat.ofDigits 10 (ds.reverse.map Fin.val), []) := by
  induction ds generalizing n with
  | nil => simp [digits]
  | cons d ds ih =>
    rw [List.map_cons, digits, digitValue_digitChar, if_pos d.isLt, ih, List.reverse_cons,
      List.map_append, Nat.ofDigits_append, List.length_map, List.length_reverse, List.length_cons]
    refine congrArg (·, []) ?_
    simp only [List.map_cons, List.map_nil, Nat.ofDigits_singleton]
    ring

/-- A sign in front of digits. -/
theorem signOf_text (v : Literal) :
    signOf (v.text.dropWhile isSpace) = (v.negative, v.digits.map digitChar) := by
  have hspace : ∀ d : Fin 10, isSpace (digitChar d) = false := by decide
  have hsign : ∀ d : Fin 10, digitChar d ≠ 43 ∧ digitChar d ≠ 45 := by decide
  obtain ⟨d, ds, hds⟩ := List.exists_cons_of_ne_nil v.nonempty
  unfold Literal.text
  rw [hds, List.map_cons]
  cases v.negative with
  | true => rfl
  | false =>
    rw [if_neg Bool.false_ne_true, List.nil_append,
      List.dropWhile_cons_of_neg (by rw [hspace d]; exact Bool.false_ne_true)]
    unfold signOf
    split
    · rename_i h; exact absurd (List.cons.inj h).1 (hsign d).1
    · rename_i h; exact absurd (List.cons.inj h).1 (hsign d).2
    · rfl

/-- Without a superfluous zero the digits are taken to base 10, and a single zero is a zero. -/
theorem digits_baseOf (v : Literal) :
    (baseOf (v.digits.map digitChar)).2.head?.any
        (fun c => digitValue c < (baseOf (v.digits.map digitChar)).1) = true ∧
      digits (baseOf (v.digits.map digitChar)).1 (baseOf (v.digits.map digitChar)).2 0 =
        (v.magnitude, []) := by
  obtain ⟨d, ds, hds⟩ := List.exists_cons_of_ne_nil v.nonempty
  by_cases hd : d = 0
  · have hzero : v.digits = [0] := v.leading (by rw [hds, hd]; rfl)
    rw [Literal.magnitude, hzero]
    decide
  · have hne : digitChar d ≠ 48 := fun h => hd ((digitChar_eq_zero d).mp h)
    have hbase : baseOf (v.digits.map digitChar) = (10, v.digits.map digitChar) := by
      rw [hds, List.map_cons]
      unfold baseOf
      split
      · rename_i h; exact absurd (List.cons.inj h).1 hne
      · rename_i h; exact absurd (List.cons.inj h).1 hne
      · rfl
    rw [hbase, digits_text, Nat.mul_zero, Nat.zero_add]
    refine ⟨?_, rfl⟩
    rw [hds, List.map_cons, List.head?_cons, Option.any_some, digitValue_digitChar]
    exact decide_eq_true d.isLt

/-- **A literal is read to its end,** as the number it denotes, clamped to 64 bits. -/
theorem strtoll_text (v : Literal) : strtoll v.text = (saturate v.value, []) := by
  obtain ⟨hany, hdigits⟩ := digits_baseOf v
  unfold strtoll
  rw [signOf_text]
  dsimp only
  rw [if_pos hany, hdigits]
  cases hn : v.negative <;> simp [Literal.value, hn]

/-- No literal begins with a letter. -/
theorem text_ne (v : Literal) {c : UInt8} (hc : ¬ c < 58) (s : Bytes) : v.text ≠ c :: s := by
  have hdigit : ∀ d : Fin 10, digitChar d < 58 := by decide
  obtain ⟨d, ds, hds⟩ := List.exists_cons_of_ne_nil v.nonempty
  unfold Literal.text
  rw [hds]
  cases v.negative with
  | true => exact fun h => hc ((List.cons.inj h).1 ▸ by decide)
  | false => exact fun h => hc ((List.cons.inj h).1 ▸ hdigit d)

theorem text_ne_nil (v : Literal) : v.text ≠ [] := by
  unfold Literal.text
  simp [v.nonempty]

/-- So it is stored as an integer. -/
theorem guessValue_text {D : Type} (strtod : Bytes → D × Bytes) (v : Literal) :
    guessValue strtod v.text = .int64 (saturate v.value) := by
  have htrue : v.text ≠ ascii "true" := text_ne v (by decide) _
  have hfalse : v.text ≠ ascii "false" := text_ne v (by decide) _
  rw [guessValue, if_neg (text_ne_nil v), if_neg htrue, if_neg hfalse, strtoll_text, if_pos rfl]

/-! ## What arguments set does not depend on what was set before them -/

section
variable {D : Type} {strtod : Bytes → D × Bytes} {word text : Bytes} {words : List Bytes}
  {off arg : Nat} {last : Bool} {key : Bytes} {p q : Parser D} {base : Args D}

/-- The settings `args` on top of those of `base`. -/
def Args.over (args base : Args D) : Args D :=
  ⟨fun k => (args.mValues k).or (base.mValues k), base.mFreeform ++ args.mFreeform⟩

def Parser.over (p : Parser D) (base : Args D) : Parser D := { p with args := p.args.over base }

@[simp] theorem over_state : (p.over base).state = p.state := rfl

@[simp] theorem over_prev : (p.over base).prev = p.prev := rfl

theorem empty_over : Args.empty.over base = base := by
  simp [Args.over, Args.empty]

theorem over_insert (args : Args D) (k : Bytes) (v : Any D) :
    (args.over base).insert k v = (args.insert k v).over base := by
  refine congrArg (Args.mk · _) (funext fun k' => ?_)
  by_cases h : k' = k <;> simp [Args.over, Args.insert, h]

theorem over_pushBack (args : Args D) (s : Bytes) :
    (args.over base).pushBack s = (args.pushBack s).over base := by
  simp [Args.over, Args.pushBack]

theorem over_store (args : Args D) (k : Bytes) (v : Any D) :
    store (args.over base) k v = (store args k v).over base := by
  unfold store
  cases v with
  | bool b =>
    dsimp only
    split
    · exact over_insert args _ _
    · split <;> exact over_insert args _ _
  | int64 n => exact over_insert args _ _
  | double d => exact over_insert args _ _
  | string s => exact over_insert args _ _

theorem over_letters (s : Bytes) (args : Args D) :
    s.foldl (fun args c => args.insert [c] (.bool true)) (args.over base) =
      (s.foldl (fun args c => args.insert [c] (.bool true)) args).over base := by
  induction s generalizing args with
  | nil => rfl
  | cons c s ih => rw [List.foldl_cons, over_insert, ih, List.foldl_cons]

theorem add_over (s : State) (start stop : Nat) :
    (p.over base).add strtod s word start stop = (p.add strtod s word start stop).over base := by
  unfold Parser.over Parser.add
  cases s with
  | dash => simp only [over_letters]
  | value => simp only [over_store]
  | freeform => simp only [over_pushBack]
  | dashDash | normal | freeformOnly => rfl

theorem onDash_over : onDash strtod word off arg (p.over base) =
    (onDash strtod word off arg p).map (·.over base) := by
  unfold onDash
  rw [over_state, over_prev]
  cases p.state with
  | normal => rfl
  | dash => dsimp only; split <;> rfl
  | freeform | freeformOnly | dashDash | value =>
    dsimp only
    split
    · rw [add_over]; rfl
    · rfl

theorem onNul_over : onNul strtod word off last arg (p.over base) =
    (onNul strtod word off last arg p).map (·.over base) := by
  unfold onNul
  rw [over_state, over_prev]
  cases p.state with
  | normal | dash | freeform | freeformOnly => dsimp only; rw [add_over]; rfl
  | dashDash =>
    dsimp only
    split
    · rfl
    · rw [add_over]
      split
      · rw [add_over]; rfl
      · rfl
  | value =>
    dsimp only
    split
    · rfl
    · rw [add_over]; rfl

theorem onEquals_over : onEquals strtod word off arg (p.over base) =
    (onEquals strtod word off arg p).map (·.over base) := by
  unfold onEquals
  rw [over_state, over_prev]
  cases p.state with
  | dashDash => dsimp only; rw [add_over]; rfl
  | normal | dash | freeform | freeformOnly | value => rfl

theorem onChar_over {c : UInt8} : onChar strtod word off arg c (p.over base) =
    (onChar strtod word off arg c p).map (·.over base) := by
  unfold onChar
  split
  · exact onDash_over
  · split
    · exact onEquals_over
    · unfold onOther
      rw [over_state]
      split <;> rfl

theorem scan_over {cs : Bytes} : scan strtod word off last cs arg (p.over base) =
    (scan strtod word off last cs arg p).map (·.over base) := by
  induction cs generalizing arg p with
  | nil => exact onNul_over
  | cons c cs ih =>
    rw [scan, scan, onChar_over]
    cases onChar strtod word off (arg + 1) c p with
    | error e => rfl
    | ok q => exact ih

/-- **What arguments set does not depend on what was set before them.** -/
theorem parseLoop_over : parseLoop strtod off words (p.over base) =
    (parseLoop strtod off words p).map (·.over base) := by
  induction words generalizing off p with
  | nil => rfl
  | cons w ws ih =>
    have harg : parseArg strtod off ws.isEmpty w (p.over base) =
        (parseArg strtod off ws.isEmpty w p).map (·.over base) :=
      scan_over (p := { p with prev := 0 })
    rw [parseLoop, parseLoop, harg]
    cases parseArg strtod off ws.isEmpty w p with
    | error e => rfl
    | ok q => exact ih

end

/-! ## An option with a value -/

/-- `--key=text` -/
def option (key text : Bytes) : Bytes := 45 :: 45 :: (key ++ 61 :: text)

/-- Read behind an option `--key=..`, the arguments `ys` set `key` once more. -/
def SetsAgain {D : Type} (strtod : Bytes → D × Bytes) (key : Bytes) (ys : List Bytes) : Prop :=
  ∃ off p q, p.state = .normal ∧ p.key = key ∧ p.args = Args.empty ∧
    parseLoop strtod off ys p = .ok q ∧ q.args.hasKey key = true

section
variable {D : Type} {strtod : Bytes → D × Bytes} {word text key : Bytes} {xs ys : List Bytes}
  {off arg : Nat} {last : Bool} {p q : Parser D}

/-- The states between two arguments. -/
def Resting (s : State) : Prop := s = .normal ∨ s = .value ∨ s = .freeformOnly

theorem onNul_resting (h : onNul strtod word off last arg p = .ok q) : Resting q.state := by
  unfold onNul error at h
  cases hs : p.state <;> simp only [hs] at h
  case normal => cases h; exact .inl hs
  case dash | freeform => cases h; exact .inl rfl
  case freeformOnly => cases h; exact .inr (.inr hs)
  case dashDash =>
    split at h
    · cases h; exact .inr (.inr rfl)
    · split at h <;> cases h
      · exact .inl rfl
      · exact .inr (.inl rfl)
  case value =>
    split at h <;> cases h
    exact .inl rfl

theorem scan_resting {cs : Bytes} (h : scan strtod word off last cs arg p = .ok q) :
    Resting q.state := by
  induction cs generalizing arg p with
  | nil => exact onNul_resting h
  | cons c cs ih =>
    rw [scan] at h
    cases hc : onChar strtod word off (arg + 1) c p with
    | error e => rw [hc] at h; cases h
    | ok r => rw [hc] at h; exact ih h

/-- The arguments in front leave the parser between two arguments. -/
theorem parseLoop_reaches (hr : Resting p.state)
    (h : parseLoop strtod off (xs ++ word :: ys) p = .ok q) :
    ∃ off' r, Resting r.state ∧ parseLoop strtod off' (word :: ys) r = .ok q := by
  induction xs generalizing off p with
  | nil => exact ⟨off, p, hr, h⟩
  | cons x xs ih =>
    rw [List.cons_append, parseLoop] at h
    cases hx : parseArg strtod off (xs ++ word :: ys).isEmpty x p with
    | error e => rw [hx] at h; cases h
    | ok r => rw [hx] at h; exact ih (scan_resting hx) h

/-- The two dashes, in whatever state they are read. -/
theorem parseArg_dashes (hr : Resting p.state) {rest : Bytes} :
    ∃ r, r.state = .dashDash ∧ r.prev = 2 ∧ parseArg strtod off last (45 :: 45 :: rest) p =
      scan strtod (45 :: 45 :: rest) off last rest 2 r := by
  have hfirst : ∃ r, r.state = .dash ∧ r.prev = 1 ∧
      onDash strtod (45 :: 45 :: rest) off (0 + 1) { p with prev := 0 } = .ok r := by
    unfold onDash
    rcases hr with hr | hr | hr <;> rw [hr] <;> exact ⟨_, rfl, rfl, rfl⟩
  obtain ⟨r, hs, hprev, hdash⟩ := hfirst
  refine ⟨{ r with prev := r.prev + 1, state := .dashDash }, rfl, by rw [hprev], ?_⟩
  rw [parseArg, scan, onChar, if_pos rfl, hdash, Except.bind, scan, onChar, if_pos rfl, onDash, hs]
  simp only [hprev]
  rfl

/-- **An option is read as its key and its value,** wherever it stands. -/
theorem parseArg_option (hr : Resting p.state) (hkey : 61 ∉ key) (htext : text ≠ []) :
    ∃ (q : Parser D) (args : Args D), parseArg strtod off last (option key text) p = .ok q ∧
      q.state = .normal ∧ q.key = key ∧ q.args = args.set strtod key text := by
  have hword : option key text = 45 :: 45 :: (key ++ 61 :: text) := rfl
  have hlen := length_value hword
  have hpos := List.length_pos_iff.mpr htext
  have hsome : 2 + key.length + 1 + text.length + 1 - 1 ≠ 2 + key.length + 1 := by omega
  have hslice : slice (option key text) (2 + key.length + 1)
      (2 + key.length + 1 + text.length + 1) = text := by
    rw [← hlen, slice_end]
    exact drop_value hword
  obtain ⟨r, hs, hprev, hdashes⟩ : ∃ r, r.state = .dashDash ∧ r.prev = 2 ∧
      parseArg strtod off last (option key text) p =
        scan strtod (option key text) off last (key ++ 61 :: text) 2 r := parseArg_dashes hr
  rw [hdashes, scan_to_value hword hkey hs hprev, scan_whole (.inl rfl) (Nat.succ_ne_zero _), onNul]
  simp only [if_neg hsome, add_value _ hslice]
  exact ⟨_, r.args, rfl, rfl, rfl, rfl⟩

/-- **An option keeps what its own argument stored,** unless its key is set again. -/
theorem run_option {prog : Bytes} (hkey : 61 ∉ key) (htext : text ≠ [])
    (hys : ¬ SetsAgain strtod key ys)
    (h : run strtod (prog :: (xs ++ option key text :: ys)) = .ok q) :
    ∃ args : Args D, q.args.mValues key = (args.set strtod key text).mValues key := by
  obtain ⟨off, r, hr, hrest⟩ := parseLoop_reaches (.inl rfl) h
  obtain ⟨s, args, hs, hstate, hskey, hargs⟩ : ∃ (s : Parser D) (args : Args D),
      parseArg strtod off ys.isEmpty (option key text) r = .ok s ∧ s.state = .normal ∧
        s.key = key ∧ s.args = args.set strtod key text := parseArg_option hr hkey htext
  rw [parseLoop, hs, Except.bind] at hrest
  -- the rest is read as if nothing had been set, and put on top
  have hover : s = ({ s with args := Args.empty } : Parser D).over s.args := by
    rw [Parser.over, empty_over]
  rw [hover, parseLoop_over] at hrest
  cases hq : parseLoop strtod (off + (option key text).length + 1) ys
      { s with args := Args.empty } with
  | error e => rw [hq] at hrest; cases hrest
  | ok t =>
    rw [hq] at hrest
    cases hrest
    have hnone : t.args.mValues key = none := by
      cases hk : t.args.mValues key with
      | none => rfl
      | some v =>
        exact absurd ⟨_, { s with args := Args.empty }, t, hstate, hskey, rfl, hq,
          by rw [Args.hasKey, hk]; rfl⟩ hys
    refine ⟨args, ?_⟩
    show (t.args.mValues key).or (s.args.mValues key) = _
    rw [hnone, Option.none_or, hargs]

end

/-! ## Integer options -/

def Fits32 (n : Int) : Prop := -2147483648 ≤ n ∧ n ≤ 2147483647

def Fits64 (n : Int) : Prop := -9223372036854775808 ≤ n ∧ n ≤ 9223372036854775807

theorem toInt32_eq_iff {n : Int} : toInt32 n = n ↔ Fits32 n := by
  unfold toInt32 Fits32 Int.bmod
  dsimp only
  split <;> omega

theorem toInt32_fits (n : Int) : Fits32 (toInt32 n) := by
  unfold toInt32 Fits32 Int.bmod
  dsimp only
  split <;> omega

theorem saturate_eq_iff {n : Int} : saturate n = n ↔ Fits64 n := by
  unfold saturate Fits64
  split
  · omega
  · split <;> omega

theorem fits64_of_fits32 {n : Int} (h : Fits32 n) : Fits64 n := by
  unfold Fits32 at h
  unfold Fits64
  omega

/-- What `has` offers as an integer is `n`, whatever the default. -/
structure KeepsValue {D F : Type} (casts : Casts D F) (args : Args D) (key : Bytes) (n : Int) :
    Prop where
  int32 : args.has .int32 key = true → ∀ d : Int, args.value casts .int32 key d = n
  int64 : args.has .int64 key = true → ∀ d : Int, args.value casts .int64 key d = n

section
variable {D F : Type} {strtod : Bytes → D × Bytes} {casts : Casts D F} {args : Args D} {key : Bytes}
  {n m : Int}

/-- Both widths are offered for a stored integer: each is right where the number fits it. -/
theorem int32_stored (h : args.mValues key = some (.int64 n)) :
    (args.has .int32 key = true → ∀ d : Int, args.value casts .int32 key d = m) ↔
      toInt32 n = m := by
  have hhas : args.has .int32 key = true := by simp [Args.has, h, Any.type]
  have hvalue : ∀ d : Int, args.value casts .int32 key d = toInt32 n := by simp [Args.value, h]
  simp only [hhas, hvalue, true_imp_iff]
  exact ⟨fun hall => hall 0, fun he _ => he⟩

theorem int64_stored (h : args.mValues key = some (.int64 n)) :
    (args.has .int64 key = true → ∀ d : Int, args.value casts .int64 key d = m) ↔ n = m := by
  have hhas : args.has .int64 key = true := by simp [Args.has, h, Any.type]
  have hvalue : ∀ d : Int, args.value casts .int64 key d = n := by simp [Args.value, h]
  simp only [hhas, hvalue, true_imp_iff]
  exact ⟨fun hall => hall 0, fun he _ => he⟩

/-- What the option of a literal has stored, if the command line is accepted. -/
theorem parse_literal {prog : Bytes} {xs ys : List Bytes} (v : Literal) (hkey : 61 ∉ key)
    (hys : ¬ SetsAgain strtod key ys)
    (hacc : Accepts strtod (prog :: (xs ++ option key v.text :: ys))) :
    (parse strtod (prog :: (xs ++ option key v.text :: ys))).mValues key =
      some (.int64 (saturate v.value)) := by
  obtain ⟨q, hq⟩ := hacc
  obtain ⟨args, hargs⟩ := run_option hkey (text_ne_nil v) hys hq
  rw [parse_of_ok hq, hargs, Args.set, guessValue_text]
  simp [Args.insert]

theorem parse_rejected {argv : List Bytes} (h : ¬ Accepts strtod argv) :
    parse strtod argv = Args.empty := by
  unfold parse
  cases hr : run strtod argv with
  | ok q => exact absurd ⟨q, hr⟩ h
  | error e => rfl

/-- As an `int64_t` it is right where `strtoll` has not clamped it. -/
theorem offers_int64_iff {prog : Bytes} {xs ys : List Bytes} (v : Literal) (hkey : 61 ∉ key)
    (hys : ¬ SetsAgain strtod key ys) :
    ((parse strtod (prog :: (xs ++ option key v.text :: ys))).has .int64 key = true → ∀ d : Int,
        (parse strtod (prog :: (xs ++ option key v.text :: ys))).value casts .int64 key d = v.value) ↔
      (Accepts strtod (prog :: (xs ++ option key v.text :: ys)) → Fits64 v.value) := by
  by_cases hacc : Accepts strtod (prog :: (xs ++ option key v.text :: ys))
  · rw [int64_stored (parse_literal v hkey hys hacc), saturate_eq_iff]
    exact ⟨fun h _ => h, fun h => h hacc⟩
  · rw [parse_rejected hacc]
    exact ⟨fun _ h => absurd h hacc, fun _ => nofun⟩

/-- As an `int32_t` it is right where nothing is cut off. -/
theorem offers_int32_iff {prog : Bytes} {xs ys : List Bytes} (v : Literal) (hkey : 61 ∉ key)
    (hys : ¬ SetsAgain strtod key ys) :
    ((parse strtod (prog :: (xs ++ option key v.text :: ys))).has .int32 key = true → ∀ d : Int,
        (parse strtod (prog :: (xs ++ option key v.text :: ys))).value casts .int32 key d = v.value) ↔
      (Accepts strtod (prog :: (xs ++ option key v.text :: ys)) → Fits32 v.value) := by
  by_cases hacc : Accepts strtod (prog :: (xs ++ option key v.text :: ys))
  · rw [int32_stored (parse_literal v hkey hys hacc)]
    constructor
    · intro h _
      exact h ▸ toInt32_fits _
    · intro h
      have hsat : saturate v.value = v.value := saturate_eq_iff.mpr (fits64_of_fits32 (h hacc))
      rw [hsat]
      exact toInt32_eq_iff.mpr (h hacc)
  · rw [parse_rejected hacc]
    exact ⟨fun _ h => absurd h hacc, fun _ => nofun⟩

/-- **Integer options.** A literal given as `--key=v` is what `has` offers, in both widths, if and
only if it fits 32 bits (or the command line is rejected, and nothing is offered). -/
theorem keepsValue_iff (strtod : Bytes → D × Bytes) (casts : Casts D F) (prog key : Bytes)
    (xs ys : List Bytes) (v : Literal) (hkey : 61 ∉ key) (hys : ¬ SetsAgain strtod key ys) :
    KeepsValue casts (parse strtod (prog :: (xs ++ option key v.text :: ys))) key v.value ↔
      (Accepts strtod (prog :: (xs ++ option key v.text :: ys)) → Fits32 v.value) := by
  constructor
  · intro h
    exact (offers_int32_iff v hkey hys).mp h.int32
  · intro h
    exact ⟨(offers_int32_iff v hkey hys).mpr h,
      (offers_int64_iff v hkey hys).mpr fun hacc => fits64_of_fits32 (h hacc)⟩

end

/-! ## Two numbers -/

theorem setsAgain_nil {D : Type} (strtod : Bytes → D × Bytes) (key : Bytes) :
    ¬ SetsAgain strtod key [] := by
  rintro ⟨off, p, q, -, -, hargs, hq, hhas⟩
  cases hq
  rw [hargs] at hhas
  cases hhas

/-- `--m=1` leaves `n` alone. -/
theorem setsAgain_other : ¬ SetsAgain (fun s => ((), s)) (ascii "n") [ascii "--m=1"] := by
  rintro ⟨off, ⟨args, state, k, prev⟩, q, rfl, rfl, rfl, hq, hhas⟩
  have hno : (parseLoop (fun s => ((), s)) off [ascii "--m=1"]
      ⟨Args.empty, .normal, ascii "n", prev⟩).map (fun q => q.args.hasKey (ascii "n")) =
        .ok false := rfl
  rw [hq] at hno
  exact Bool.false_ne_true ((Except.ok.inj hno).symm.trans hhas)

/-- `-42` -/
def fortyTwo : Literal := ⟨true, [4, 2], by decide, by decide⟩

/-- `2147483648`, the first number that does not fit. -/
def twoTo31 : Literal := ⟨false, [2, 1, 4, 7, 4, 8, 3, 6, 4, 8], by decide, by decide⟩

/-- No floating point. -/
def noCasts : Casts Unit Unit := ⟨fun _ => (), fun _ => (), fun _ => ()⟩

/-- `prog -v --n=-42 --m=1` -/
theorem keepsValue_fortyTwo :
    KeepsValue noCasts (parse (fun s => ((), s)) (ascii "prog" ::
      ([ascii "-v"] ++ option (ascii "n") fortyTwo.text :: [ascii "--m=1"]))) (ascii "n") (-42) :=
  (keepsValue_iff _ noCasts (ascii "prog") (ascii "n") [ascii "-v"] [ascii "--m=1"] fortyTwo
    (by decide) setsAgain_other).mpr fun _ => ⟨by decide, by decide⟩

/-- `prog --n=2147483648`: `has<int32_t>` is true, and `value<int32_t>` is -2147483648. -/
theorem keepsValue_twoTo31 : ¬ ∀ (prog key : Bytes) (xs ys : List Bytes) (v : Literal), 61 ∉ key →
    ¬ SetsAgain (fun s => ((), s)) key ys →
    KeepsValue noCasts (parse (fun s => ((), s)) (prog :: (xs ++ option key v.text :: ys))) key
      v.value := by
  intro h
  have hkeeps := h (ascii "prog") (ascii "n") [] [] twoTo31 (by decide) (setsAgain_nil _ _)
  have hvalue := hkeeps.int32 (by decide) 0
  revert hvalue
  decide

example : (parse (fun s => ((), s)) [ascii "prog", ascii "--n=9223372036854775808"]).value noCasts
    .int64 (ascii "n") (0 : Int) = (9223372036854775807 : Int) := by decide

end Reckoning.L1.ArgsParser
