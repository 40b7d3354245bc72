import Reckoning.Core.Bytes

/-!
# Command line arguments: the parser

`Parser::parse` reads `argv[1..argc-1]` one character after the other, the
terminating zero included. A pointer into the argument is its offset from
`argStart`; the zero is the end of the list. Two local variables live longer
than an argument: `state` and `key`.

`strtod` is a parameter: the value, and what `endptr` points at.

* `scan_whole`: an argument that is being taken as a whole is not looked at again.
* `scan_letters`, `scan_name`: the letters of `-abc`, the name of `--name`.
* `parseArg_mFreeform`: an argument adds one freeform entry at most, an option none.
-/
namespace Reckoning.L1.ArgsParser

/-! ## Values -/

/-- What a `std::any` of the parser holds; `D` are the doubles. -/
inductive Any (D : Type) where
  | bool (b : Bool)
  | int64 (n : Int)
  | double (d : D)
  | string (s : Bytes)
  deriving DecidableEq, Repr

/-- mirrors include/args/Args.h:41-43 -/
structure Args (D : Type) where
  mValues : Bytes → Option (Any D)
  mFreeform : List Bytes

/-- `Args()` -/
def Args.empty {D : Type} : Args D := ⟨fun _ => none, []⟩

/-- `args.mValues[key] = v` -/
def Args.insert {D : Type} (args : Args D) (key : Bytes) (v : Any D) : Args D :=
  { args with mValues := fun k => if k = key then some v else args.mValues k }

/-- `args.mFreeform.push_back(s)` -/
def Args.pushBack {D : Type} (args : Args D) (s : Bytes) : Args D :=
  { args with mFreeform := args.mFreeform ++ [s] }

def isSpace (c : UInt8) : Bool := c == 32 || (9 ≤ c && c ≤ 13)

/-- 36 for what is no digit of any base. -/
def digitValue (c : UInt8) : Nat :=
  if 48 ≤ c ∧ c ≤ 57 then c.toNat - 48
  else if 97 ≤ c ∧ c ≤ 122 then c.toNat - 87
  else if 65 ≤ c ∧ c ≤ 90 then c.toNat - 55
  else 36

/-- The number that the leading digits make, and what follows them. -/
def digits (base : Nat) : Bytes → Nat → Nat × Bytes
  | [], n => (n, [])
  | c :: s, n =>
    if digitValue c < base then digits base s (base * n + digitValue c) else (n, c :: s)

/-- `0x` counts as the mark of base 16 only in front of a hexadecimal digit. -/
def baseOf : Bytes → Nat × Bytes
  | 48 :: x :: d :: s =>
    if (x = 120 ∨ x = 88) ∧ digitValue d < 16 then (16, d :: s) else (8, 48 :: x :: d :: s)
  | 48 :: s => (8, 48 :: s)
  | s => (10, s)

def signOf : Bytes → Bool × Bytes
  | 43 :: s => (false, s)
  | 45 :: s => (true, s)
  | s => (false, s)

/-- To 64 bits. -/
def saturate (n : Int) : Int :=
  if n < -9223372036854775808 then -9223372036854775808
  else if 9223372036854775807 < n then 9223372036854775807
  else n

/-- `strtoll(s, &endptr, 0)`: the value, and what `endptr` points at. -/
def strtoll (s : Bytes) : Int × Bytes :=
  let sign := signOf (s.dropWhile isSpace)
  let base := baseOf sign.2
  if base.2.head?.any (fun c => digitValue c < base.1) then
    let n := digits base.1 base.2 0
    (saturate (if sign.1 then -n.1 else n.1), n.2)
  else (0, s)

section
variable {D : Type} (strtod : Bytes → D × Bytes)

/-- mirrors include/args/Parser.h:22-38 -/
def guessValue (val : Bytes) : Any D :=
  if val = [] then .bool true
  else if val = ascii "true" then .bool true
  else if val = ascii "false" then .bool false
  else if (strtoll val).2 = [] then .int64 (strtoll val).1
  else if (strtod val).2 = [] then .double (strtod val).1
  else .string val

/-! ## The parser -/

inductive State where
  | normal | dash | dashDash | value | freeform | freeformOnly
  deriving DecidableEq, Repr

/-- What `error` logs. -/
structure Failure where
  msg : String
  offset : Nat
  word : Bytes
  deriving DecidableEq, Repr

/-- The local variables of `parse`. -/
structure Parser (D : Type) where
  args : Args D
  state : State
  key : Bytes
  prev : Nat

def Parser.init : Parser D := ⟨Args.empty, .normal, [], 0⟩

/-- mirrors include/args/Parser.h:63-73 -/
def store (args : Args D) (key : Bytes) (v : Any D) : Args D :=
  match v with
  | .bool b =>
    if 3 < key.length ∧ key.take 3 = ascii "no-" then args.insert (key.drop 3) (.bool !b)
    else if 8 < key.length ∧ key.take 8 = ascii "disable-" then
      args.insert (key.drop 8) (.bool !b)
    else args.insert key v
  | _ => args.insert key v

/-- `std::string(start, end - 1 - start)` -/
def slice (word : Bytes) (start stop : Nat) : Bytes := (word.drop start).take (stop - 1 - start)

/-- mirrors include/args/Parser.h:49-81 -/
def Parser.add (p : Parser D) (state : State) (word : Bytes) (start stop : Nat) : Parser D :=
  let s := slice word start stop
  match state with
  | .dash => { p with args := s.foldl (fun args c => args.insert [c] (.bool true)) p.args }
  | .dashDash => { p with key := s }
  | .value => { p with args := store p.args p.key (guessValue strtod s) }
  | .freeform => { p with args := p.args.pushBack s }
  | .normal | .freeformOnly => p

/-- mirrors include/args/Parser.h:83-85 -/
def error (msg : String) (offset : Nat) (word : Bytes) : Except Failure (Parser D) :=
  .error ⟨msg, offset - 1, word⟩

/-- `case '-'`; `arg` has moved past the character.
mirrors include/args/Parser.h:95-126 -/
def onDash (word : Bytes) (off arg : Nat) (p : Parser D) : Except Failure (Parser D) :=
  match p.state with
  | .normal => .ok { p with prev := arg, state := .dash }
  | .dash =>
    if p.prev = arg - 1 then .ok { p with prev := p.prev + 1, state := .dashDash }
    else error "unexpected dash" (off + arg) word
  | .freeform | .freeformOnly | .dashDash | .value =>
    if arg - 1 = 0 then
      .ok { p.add strtod .value word arg (arg + 1) with prev := arg, state := .dash }
    else .ok p

/-- `case '\0'`; `last` is `i + 1 == argc`.
mirrors include/args/Parser.h:127-175 -/
def onNul (word : Bytes) (off : Nat) (last : Bool) (arg : Nat) (p : Parser D) :
    Except Failure (Parser D) :=
  match p.state with
  | .normal => .ok { p.add strtod .freeform word p.prev arg with prev := arg }
  | .dash => .ok { p.add strtod .dash word p.prev arg with prev := arg, state := .normal }
  | .dashDash =>
    if arg = 3 then .ok { p with prev := arg, state := .freeformOnly }
    else
      let q := p.add strtod .dashDash word p.prev arg
      if last then
        .ok { q.add strtod .value word arg (arg + 1) with prev := arg, state := .normal }
      else .ok { q with prev := arg, state := .value }
  | .freeform =>
    .ok { p.add strtod .freeform word p.prev arg with prev := arg, state := .normal }
  | .freeformOnly => .ok { p.add strtod .freeform word p.prev arg with prev := arg }
  | .value =>
    if arg - 1 = p.prev then error "missing value" (off + arg) word
    else .ok { p.add strtod .value word p.prev arg with prev := arg, state := .normal }

/-- `case '='`.
mirrors include/args/Parser.h:176-191 -/
def onEquals (word : Bytes) (off arg : Nat) (p : Parser D) : Except Failure (Parser D) :=
  match p.state with
  | .freeform | .freeformOnly | .value => .ok p
  | .dashDash => .ok { p.add strtod .dashDash word p.prev arg with prev := arg, state := .value }
  | .normal | .dash => error "unexpected equals" (off + arg) word

/-- `default`.
mirrors include/args/Parser.h:192-197 -/
def onOther (arg : Nat) (p : Parser D) : Parser D :=
  if p.state = .normal ∧ arg - 1 = 0 then { p with prev := arg - 1, state := .freeform } else p

/-- `switch (*(arg++))`, for a character of the argument. -/
def onChar (word : Bytes) (off arg : Nat) (c : UInt8) (p : Parser D) : Except Failure (Parser D) :=
  if c = 45 then onDash strtod word off arg p
  else if c = 61 then onEquals strtod word off arg p
  else .ok (onOther arg p)

/-- `while (!done)`: what is left of the argument, and `arg - argStart`.
mirrors include/args/Parser.h:93-199 -/
def scan (word : Bytes) (off : Nat) (last : Bool) :
    Bytes → Nat → Parser D → Except Failure (Parser D)
  | [], arg, p => onNul strtod word off last (arg + 1) p
  | c :: cs, arg, p => (onChar strtod word off (arg + 1) c p).bind (scan word off last cs (arg + 1))

/-- One argument, from `prev = arg` on. -/
def parseArg (off : Nat) (last : Bool) (word : Bytes) (p : Parser D) : Except Failure (Parser D) :=
  scan strtod word off last word 0 { p with prev := 0 }

/-- mirrors include/args/Parser.h:87-201 -/
def parseLoop : Nat → List Bytes → Parser D → Except Failure (Parser D)
  | _, [], p => .ok p
  | off, word :: rest, p =>
    (parseArg strtod off rest.isEmpty word p).bind (parseLoop (off + word.length + 1) rest)

/-- The run of the parser over `argv[1..]`. -/
def run (argv : List Bytes) : Except Failure (Parser D) :=
  parseLoop strtod 0 argv.tail Parser.init

/-- mirrors include/args/Parser.h:40-204 -/
def parse (argv : List Bytes) : Args D :=
  match run strtod argv with
  | .ok p => p.args
  | .error _ => Args.empty

/-! ## What the rest of an argument does -/

variable {strtod} {word : Bytes} {off arg : Nat} {last : Bool} {c : UInt8} {cs : Bytes}
  {p q : Parser D}

/-- The states in which the argument is copied to the end. -/
def Whole (s : State) : Prop := s = .value ∨ s = .freeform ∨ s = .freeformOnly

/-- Characters that change nothing are passed over. -/
theorem scan_skip {k : Bytes} (h : ∀ c ∈ k, ∀ a, arg < a → onChar strtod word off a c p = .ok p) :
    scan strtod word off last (k ++ cs) arg p =
      scan strtod word off last cs (arg + k.length) p := by
  induction k generalizing arg with
  | nil => rfl
  | cons c k ih =>
    have hrest : ∀ c' ∈ k, ∀ a, arg + 1 < a → onChar strtod word off a c' p = .ok p :=
      fun c' hc a ha => h c' (List.mem_cons_of_mem c hc) a (Nat.lt_of_succ_lt ha)
    rw [List.cons_append, scan, h c List.mem_cons_self (arg + 1) (Nat.lt_succ_self arg)]
    refine (ih hrest).trans ?_
    rw [List.length_cons, Nat.add_right_comm arg 1, Nat.add_assoc arg]

theorem scan_skip_all (h : ∀ c ∈ cs, ∀ a, arg < a → onChar strtod word off a c p = .ok p) :
    scan strtod word off last cs arg p = onNul strtod word off last (arg + cs.length + 1) p := by
  have hall : scan strtod word off last (cs ++ []) arg p =
      scan strtod word off last [] (arg + cs.length) p := scan_skip h
  rwa [List.append_nil] at hall

theorem onChar_whole (hs : Whole p.state) (harg : 1 < arg) :
    onChar strtod word off arg c p = .ok p := by
  have hne : arg - 1 ≠ 0 := by omega
  unfold onChar onDash onEquals onOther
  rcases hs with hs | hs | hs <;> simp [hs, hne]

theorem scan_whole (hs : Whole p.state) (harg : arg ≠ 0) :
    scan strtod word off last cs arg p = onNul strtod word off last (arg + cs.length + 1) p :=
  scan_skip_all fun _ _ _ ha => onChar_whole hs (by omega)

theorem onChar_letter (hs : p.state = .dash) (hd : c ≠ 45) (he : c ≠ 61) :
    onChar strtod word off arg c p = .ok p := by
  simp [onChar, hd, he, onOther, hs]

theorem scan_letters (hs : p.state = .dash) (hd : 45 ∉ cs) (he : 61 ∉ cs) :
    scan strtod word off last cs arg p = onNul strtod word off last (arg + cs.length + 1) p :=
  scan_skip_all fun _ hc _ _ => onChar_letter hs (fun h => hd (h ▸ hc)) fun h => he (h ▸ hc)

/-- Behind the first letter neither `-` nor `=` is allowed. -/
theorem scan_letters_error (hs : p.state = .dash) (hprev : p.prev < arg)
    (h : 45 ∈ cs ∨ 61 ∈ cs) : ∃ e, scan strtod word off last cs arg p = .error e := by
  induction cs generalizing arg with
  | nil => simp at h
  | cons c cs ih =>
    rw [scan]
    by_cases hd : c = 45
    · subst hd
      have hne : p.prev ≠ arg := Nat.ne_of_lt hprev
      simp [onChar, onDash, hs, hne, error, Except.bind]
    · by_cases he : c = 61
      · subst he
        simp [onChar, onEquals, hs, error, Except.bind]
      · rw [onChar_letter hs hd he]
        simp only [List.mem_cons, Ne.symm hd, Ne.symm he, false_or] at h
        exact ih (Nat.lt_succ_of_lt hprev) h

theorem onChar_name (hs : p.state = .dashDash) (harg : 1 < arg) (he : c ≠ 61) :
    onChar strtod word off arg c p = .ok p := by
  have hne : arg - 1 ≠ 0 := by omega
  by_cases hd : c = 45 <;> simp [onChar, onDash, onOther, hd, he, hs, hne]

/-- Up to the first `=` the characters belong to the name. -/
theorem scan_name {k : Bytes} (hs : p.state = .dashDash) (harg : arg ≠ 0) (hk : 61 ∉ k) :
    scan strtod word off last (k ++ cs) arg p =
      scan strtod word off last cs (arg + k.length) p :=
  scan_skip fun _ hc _ ha => onChar_name hs (by omega) fun h => hk (h ▸ hc)

/-! ## The freeform list -/

theorem store_mFreeform (args : Args D) (key : Bytes) (v : Any D) :
    (store args key v).mFreeform = args.mFreeform := by
  unfold store
  split
  · split
    · rfl
    · split <;> rfl
  · rfl

theorem letters_mFreeform (s : Bytes) (args : Args D) :
    (s.foldl (fun args c => args.insert [c] (.bool true)) args).mFreeform = args.mFreeform := by
  induction s generalizing args with
  | nil => rfl
  | cons c s ih => exact ih (args.insert [c] (.bool true))

theorem add_mFreeform {s : State} (hs : s ≠ .freeform) (start stop : Nat) :
    (p.add strtod s word start stop).args.mFreeform = p.args.mFreeform := by
  cases s with
  | freeform => exact absurd rfl hs
  | dash => exact letters_mFreeform _ _
  | value => exact store_mFreeform _ _ _
  | normal | dashDash | freeformOnly => rfl

/-- The states in which the argument, or what is left of it, is an option or its value. -/
def InOption (s : State) : Prop := s = .dash ∨ s = .dashDash ∨ s = .value

theorem onChar_mFreeform (h : onChar strtod word off arg c p = .ok q) :
    q.args.mFreeform = p.args.mFreeform := by
  unfold onChar onDash onEquals onOther error at h
  repeat' split at h
  all_goals first
    | (cases h; done)
    | (cases h; exact add_mFreeform (by decide) _ _)
    | (cases h; rfl)

theorem onOther_inOption (hs : InOption p.state) : onOther arg p = p := by
  refine if_neg fun h => ?_
  rcases hs with hs | hs | hs <;> simp [hs] at h

theorem onDash_inOption (hs : InOption p.state) (h : onDash strtod word off arg p = .ok q) :
    InOption q.state := by
  unfold onDash error at h
  rcases hs with hs | hs | hs <;> simp only [hs] at h <;> split at h <;> cases h
  · exact .inr (.inl rfl)
  · exact .inl rfl
  · exact .inr (.inl hs)
  · exact .inl rfl
  · exact .inr (.inr hs)

theorem onEquals_inOption (hs : InOption p.state) (h : onEquals strtod word off arg p = .ok q) :
    InOption q.state := by
  unfold onEquals error at h
  rcases hs with hs | hs | hs <;> simp only [hs] at h <;> cases h
  · exact .inr (.inr rfl)
  · exact .inr (.inr hs)

theorem onChar_inOption (hs : InOption p.state) (h : onChar strtod word off arg c p = .ok q) :
    InOption q.state := by
  unfold onChar at h
  split at h
  · exact onDash_inOption hs h
  · split at h
    · exact onEquals_inOption hs h
    · rw [onOther_inOption hs] at h
      cases h
      exact hs

/-- The end of an option adds no freeform entry. -/
theorem onNul_inOption (hs : InOption p.state) (h : onNul strtod word off last arg p = .ok q) :
    q.args.mFreeform = p.args.mFreeform := by
  unfold onNul error at h
  rcases hs with hs | hs | hs <;> simp only [hs] at h
  · cases h
    exact letters_mFreeform _ _
  · split at h
    · cases h; rfl
    · split at h
      · cases h; exact store_mFreeform _ _ _
      · cases h; rfl
  · split at h
    · cases h
    · cases h; exact store_mFreeform _ _ _

theorem onNul_length (h : onNul strtod word off last arg p = .ok q) :
    q.args.mFreeform.length ≤ p.args.mFreeform.length + 1 := by
  by_cases ho : InOption p.state
  · rw [onNul_inOption ho h]
    exact Nat.le_succ _
  · have hp : ∀ s, (p.args.pushBack s).mFreeform.length ≤ p.args.mFreeform.length + 1 :=
      fun _ => Nat.le_of_eq List.length_append
    unfold onNul at h
    cases hs : p.state <;> simp only [hs] at h
    case normal | freeform | freeformOnly => cases h; exact hp _
    all_goals exact absurd (by simp [InOption, hs]) ho

theorem scan_mFreeform (h : scan strtod word off last cs arg p = .ok q) :
    q.args.mFreeform.length ≤ p.args.mFreeform.length + 1 ∧
      (InOption p.state → q.args.mFreeform = p.args.mFreeform) := by
  induction cs generalizing arg p with
  | nil => exact ⟨onNul_length h, fun ho => onNul_inOption ho h⟩
  | cons c cs ih =>
    rw [scan] at h
    cases hc : onChar strtod word off (arg + 1) c p with
    | error e => rw [hc] at h; cases h
    | ok r =>
      rw [hc] at h
      obtain ⟨hle, hkeep⟩ := ih h
      rw [onChar_mFreeform hc] at hle hkeep
      exact ⟨hle, fun ho => hkeep (onChar_inOption ho hc)⟩

theorem parseArg_mFreeform (h : parseArg strtod off last word p = .ok q) :
    q.args.mFreeform.length ≤ p.args.mFreeform.length + 1 :=
  (scan_mFreeform h).1

theorem parseLoop_mFreeform {words : List Bytes} (h : parseLoop strtod off words p = .ok q) :
    q.args.mFreeform.length ≤ p.args.mFreeform.length + words.length := by
  induction words generalizing off p with
  | nil => cases h; exact Nat.le_refl _
  | cons w ws ih =>
    rw [parseLoop] at h
    cases hw : parseArg strtod off ws.isEmpty w p with
    | error e => rw [hw] at h; cases h
    | ok r =>
      rw [hw] at h
      have := ih h
      have := parseArg_mFreeform hw
      rw [List.length_cons]
      omega

end
end Reckoning.L1.ArgsParser
