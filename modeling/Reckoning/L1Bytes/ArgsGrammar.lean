import Reckoning.L1Bytes.Args

/-!
# Command line arguments: the grammar

`reading` says what a command line without `--` means, one argument at a time.
Between two arguments only a key may be pending: the one of a `--key` that is
not the last argument takes the next argument as its value. `parse` is the
character machine of the module before.

* `parseArg_reads`: the machine reads an argument as the grammar does, from any state
  that stands for what is pending.
* `parse_eq_reading`: so they agree on the whole command line.
-/
namespace Reckoning.L1.ArgsParser

section
variable {D : Type} (strtod : Bytes → D × Bytes)

/-! ## The grammar -/

/-- What follows `p` in `key`, if anything does. -/
def afterPrefix (p key : Bytes) : Option Bytes :=
  if p <+: key ∧ key ≠ p then some (key.drop p.length) else none

/-- The `x` of `no-x` and of `disable-x`. -/
def negated (key : Bytes) : Option Bytes :=
  (afterPrefix (ascii "no-") key).or (afterPrefix (ascii "disable-") key)

/-- The setting `key = text`. -/
def Args.set (args : Args D) (key text : Bytes) : Args D :=
  match guessValue strtod text, negated key with
  | .bool b, some x => args.insert x (.bool !b)
  | v, _ => args.insert key v

/-- `-abc` -/
def Args.setLetters (args : Args D) (letters : Bytes) : Args D :=
  letters.foldl (fun args c => args.insert [c] (.bool true)) args

/-- The arguments so far and the key that waits for its value, or an error. -/
abbrev Reading (D : Type) := Option (Args D × Option Bytes)

/-- `--name` or `--name=value`. -/
def readName (last : Bool) (rest : Bytes) (args : Args D) : Reading D :=
  let name := rest.takeWhile (· != 61)
  match rest.dropWhile (· != 61) with
  | [] => if last then some (args.set strtod name [], none) else some (args, some name)
  | _ :: value => if value = [] then none else some (args.set strtod name value, none)

/-- An argument that is not in value position. -/
def readElsewhere (last : Bool) (args : Args D) : Bytes → Reading D
  | 45 :: 45 :: rest => readName strtod last rest args
  | 45 :: letters =>
    if 45 ∈ letters ∨ 61 ∈ letters then none else some (args.setLetters letters, none)
  | 61 :: _ => none
  | word => some (args.pushBack word, none)

/-- An argument in value position. -/
def readValue (last : Bool) (args : Args D) (key : Bytes) : Bytes → Reading D
  | [] => none
  | 45 :: s => readElsewhere strtod last (args.set strtod key []) (45 :: s)
  | word => some (args.set strtod key word, none)

def readArg (last : Bool) (word : Bytes) (args : Args D) : Option Bytes → Reading D
  | none => readElsewhere strtod last args word
  | some key => readValue strtod last args key word

def readArgs : List Bytes → Args D × Option Bytes → Reading D
  | [], r => some r
  | word :: rest, r => (readArg strtod rest.isEmpty word r.1 r.2).bind (readArgs rest)

/-- The meaning of a command line, the program's name in front. -/
def reading (argv : List Bytes) : Args D :=
  match readArgs strtod argv.tail (Args.empty, none) with
  | some r => r.1
  | none => Args.empty

/-! ## One argument -/

variable {strtod} {word cs name : Bytes} {off arg : Nat} {last : Bool} {args : Args D}
  {key : Option Bytes} {p : Parser D}

/-- The state between two arguments. -/
structure Between (p : Parser D) (args : Args D) (key : Option Bytes) : Prop where
  args_eq : p.args = args
  state_eq : p.state = if key.isSome then .value else .normal
  key_eq : ∀ k, key = some k → p.key = k

theorem between_none (hs : p.state = .normal) : Between p p.args none :=
  ⟨rfl, hs, fun k hk => by cases hk⟩

/-- The machine's result is the grammar's. -/
def Reads (x : Except Failure (Parser D)) (y : Reading D) : Prop :=
  match x, y with
  | .ok p, some r => Between p r.1 r.2
  | .error _, none => True
  | _, _ => False

theorem isPrefix_iff_take {p key : Bytes} :
    (p <+: key ∧ key ≠ p) ↔ p.length < key.length ∧ key.take p.length = p := by
  constructor
  · intro h
    obtain ⟨⟨t, rfl⟩, hne⟩ := h
    have ht : t ≠ [] := fun he => hne (by rw [he, List.append_nil])
    have := List.length_pos_iff.mpr ht
    exact ⟨by rw [List.length_append]; omega, List.take_left⟩
  · intro h
    obtain ⟨hlt, ht⟩ := h
    refine ⟨ht ▸ List.take_prefix _ _, fun he => ?_⟩
    rw [he] at hlt
    exact Nat.lt_irrefl _ hlt

/-- The empty value is true, and so is not lost on a negated key. -/
theorem store_eq_set (args : Args D) (key text : Bytes) :
    store args key (guessValue strtod text) = args.set strtod key text := by
  have hno : (3 < key.length ∧ key.take 3 = ascii "no-") ↔
      (ascii "no-" <+: key ∧ key ≠ ascii "no-") :=
    (isPrefix_iff_take (p := ascii "no-")).symm
  have hdis : (8 < key.length ∧ key.take 8 = ascii "disable-") ↔
      (ascii "disable-" <+: key ∧ key ≠ ascii "disable-") :=
    (isPrefix_iff_take (p := ascii "disable-")).symm
  unfold store Args.set negated afterPrefix
  simp only [hno, hdis]
  cases guessValue strtod text with
  | bool b =>
    by_cases h1 : ascii "no-" <+: key ∧ key ≠ ascii "no-"
    · simp only [if_pos h1, Option.some_or]; rfl
    · by_cases h2 : ascii "disable-" <+: key ∧ key ≠ ascii "disable-"
      · simp only [if_neg h1, if_pos h2, Option.none_or]; rfl
      · simp only [if_neg h1, if_neg h2, Option.none_or]
  | int64 n => rfl
  | double d => rfl
  | string s => rfl

/-- What `add(Value, ..)` has stored when the rest of the argument is `text`. -/
theorem add_value (start : Nat) {text : Bytes} (h : slice word start arg = text) :
    p.add strtod .value word start arg =
      { p with args := p.args.set strtod p.key text } := by
  subst h
  simp only [Parser.add, store_eq_set]

theorem slice_end (start : Nat) : slice word start (word.length + 1) = word.drop start := by
  unfold slice
  rw [Nat.add_sub_cancel]
  exact List.take_of_length_le (Nat.le_of_eq List.length_drop)

theorem slice_nil (start : Nat) : slice word start (start + 1) = [] := by
  unfold slice
  rw [Nat.add_sub_cancel, Nat.sub_self, List.take_zero]

/-- The value of a key up to the end of the argument. -/
theorem scan_value_reads (hs : p.state = .value) (harg : arg ≠ 0)
    (hw : word.length = arg + cs.length) (hprev : p.prev ≤ word.length) :
    Reads (scan strtod word off last cs arg p)
      (if word.drop p.prev = [] then none
        else some (p.args.set strtod p.key (word.drop p.prev), none)) := by
  have hlen : arg + cs.length + 1 - 1 = word.length := by omega
  rw [scan_whole (.inl hs) harg, onNul, hs]
  simp only [hlen]
  by_cases he : word.length = p.prev
  · rw [if_pos he, if_pos (List.drop_eq_nil_of_le (Nat.le_of_eq he))]
    trivial
  · rw [if_neg he, if_neg (fun hd => he (by have := List.drop_eq_nil_iff.mp hd; omega)), ← hw,
      add_value p.prev (slice_end p.prev)]
    exact between_none rfl

/-- `s` has no `=`, or the first one is where `takeWhile` ends. -/
theorem firstEquals (s : Bytes) :
    (61 ∉ s ∧ s.takeWhile (· != 61) = s ∧ s.dropWhile (· != 61) = []) ∨
      ∃ name value, s = name ++ 61 :: value ∧ 61 ∉ name ∧ s.takeWhile (· != 61) = name ∧
        s.dropWhile (· != 61) = 61 :: value := by
  induction s with
  | nil => exact .inl ⟨by simp, rfl, rfl⟩
  | cons c s ih =>
    by_cases hc : c = 61
    · subst hc
      exact .inr ⟨[], s, rfl, by simp, by simp, by simp⟩
    · rcases ih with ⟨hno, ht, hd⟩ | ⟨name, value, hs, hno, ht, hd⟩
      · exact .inl ⟨by simp [Ne.symm hc, hno], by simp [hc, ht], by simp [hc, hd]⟩
      · refine .inr ⟨c :: name, value, by rw [hs]; rfl, by simp [Ne.symm hc, hno], ?_, ?_⟩
        · simp [hc, ht]
        · simp [hc, hd]

/-- `--name=value`: the `=` ends the name. -/
theorem scan_to_value {name value : Bytes} (hword : word = 45 :: 45 :: (name ++ 61 :: value))
    (hno : 61 ∉ name) (hs : p.state = .dashDash) (hprev : p.prev = 2) :
    scan strtod word off last (name ++ 61 :: value) 2 p =
      scan strtod word off last value (2 + name.length + 1)
        { p with key := name, prev := 2 + name.length + 1, state := .value } := by
  have hto : scan strtod word off last (name ++ 61 :: value) 2 p =
      scan strtod word off last (61 :: value) (2 + name.length) p :=
    scan_name hs (by decide) hno
  have hname : slice word p.prev (2 + name.length + 1) = name := by
    unfold slice
    rw [hprev, hword, Nat.add_sub_cancel, Nat.add_sub_cancel_left]
    exact List.take_left
  have hadd : p.add strtod .dashDash word p.prev (2 + name.length + 1) =
      { p with key := name } := by
    simp only [Parser.add, hname]
  rw [hto, scan, onChar, if_neg (by decide), if_pos rfl, onEquals, hs]
  simp only [hadd]
  rfl

theorem drop_value {name value : Bytes} (hword : word = 45 :: 45 :: (name ++ 61 :: value)) :
    word.drop (2 + name.length + 1) = value := by
  have hdrop : word.drop 2 = name ++ 61 :: value := by rw [hword]; rfl
  rw [← List.drop_drop, ← List.drop_drop, hdrop, List.drop_left]
  rfl

theorem length_value {name value : Bytes} (hword : word = 45 :: 45 :: (name ++ 61 :: value)) :
    word.length = 2 + name.length + 1 + value.length := by
  rw [hword]
  simp only [List.length_cons, List.length_append]
  omega

/-- The name of an option: to the end of the argument, or to the first `=`. -/
theorem scan_name_reads {rest : Bytes} (hne : rest ≠ []) (hword : word = 45 :: 45 :: rest)
    (hs : p.state = .dashDash) (hprev : p.prev = 2) :
    Reads (scan strtod word off last rest 2 p) (readName strtod last rest p.args) := by
  have hlen : word.length = 2 + rest.length := by
    rw [hword, List.length_cons, List.length_cons]
    omega
  have hdrop : word.drop 2 = rest := by rw [hword]; rfl
  have hpos := List.length_pos_iff.mpr hne
  unfold readName
  rcases firstEquals rest with ⟨hno, ht, hd⟩ | ⟨name, value, hrest, hno, ht, hd⟩
  · -- the name is the whole rest
    have hall : scan strtod word off last (rest ++ []) 2 p =
        onNul strtod word off last (2 + rest.length + 1) p := scan_name hs (by decide) hno
    have hthree : 2 + rest.length + 1 ≠ 3 := by omega
    have hname : slice word p.prev (2 + rest.length + 1) = rest := by
      rw [← hlen, slice_end, hprev, hdrop]
    rw [List.append_nil] at hall
    rw [hall, ht, hd, onNul, hs]
    simp only [if_neg hthree]
    cases last with
    | true =>
      rw [if_pos rfl, if_pos rfl, add_value _ (slice_nil _)]
      refine ⟨?_, rfl, fun k hk => by cases hk⟩
      show (p.args.set strtod (slice word p.prev _) []) = _
      rw [hname]
    | false => exact ⟨rfl, rfl, fun k hk => by cases hk; exact hname⟩
  · -- the name ends at the first `=`
    subst hrest
    have hl := length_value hword
    have hr : Reads (scan strtod word off last value (2 + name.length + 1)
        { p with key := name, prev := 2 + name.length + 1, state := .value })
        (if word.drop (2 + name.length + 1) = [] then none
          else some (p.args.set strtod name (word.drop (2 + name.length + 1)), none)) :=
      scan_value_reads rfl (Nat.succ_ne_zero _) hl (by rw [hl]; exact Nat.le_add_right _ _)
    rw [drop_value hword] at hr
    rw [scan_to_value hword hno hs hprev, ht, hd]
    exact hr

/-- The letters behind a dash. -/
theorem scan_letters_reads {letters : Bytes} (hword : word = 45 :: letters)
    (hfirst : letters.head? ≠ some 45) (hs : p.state = .dash) (hprev : p.prev = 1) :
    Reads (scan strtod word off last letters 1 p)
      (if 45 ∈ letters ∨ 61 ∈ letters then none
        else some (p.args.setLetters letters, none)) := by
  have hslice : slice word p.prev (1 + letters.length + 1) = letters := by
    have hl : 1 + letters.length = word.length := by rw [hword, List.length_cons, Nat.add_comm]
    rw [hl, slice_end, hprev, hword]
    rfl
  have hend : Reads (onNul strtod word off last (1 + letters.length + 1) p)
      (some (p.args.setLetters letters, none)) := by
    rw [onNul, hs]
    simp only [Parser.add, hslice]
    exact between_none rfl
  cases letters with
  | nil => exact hend
  | cons c cs =>
    have hc : c ≠ 45 := fun h => hfirst (by rw [h]; rfl)
    rw [scan, onChar, if_neg hc]
    by_cases he : c = 61
    · -- `-=`
      simp [he, onEquals, hs, error, Except.bind, Reads]
    · have hstay : onOther (1 + 1) p = p := if_neg (by simp [hs])
      have hlt : p.prev < 1 + 1 := by rw [hprev]; decide
      rw [if_neg he, hstay]
      simp only [List.mem_cons, Ne.symm hc, Ne.symm he, false_or]
      by_cases hbad : 45 ∈ cs ∨ 61 ∈ cs
      · obtain ⟨e, herr⟩ : ∃ e, scan strtod word off last cs (1 + 1) p = .error e :=
          scan_letters_error hs hlt hbad
        rw [if_pos hbad, Except.bind, herr]
        trivial
      · rw [if_neg hbad]
        simp only [not_or] at hbad
        have hall : scan strtod word off last cs (1 + 1) p =
            onNul strtod word off last (1 + 1 + cs.length + 1) p := scan_letters hs hbad.1 hbad.2
        rw [Except.bind, hall, Nat.add_right_comm 1 1 cs.length, Nat.add_assoc 1 cs.length 1]
        exact hend

/-- An argument that starts with a dash, from the state behind that dash. -/
theorem scan_dash_reads {rest : Bytes} (hword : word = 45 :: rest) (hnot : word ≠ [45, 45])
    (hs : p.state = .dash) (hprev : p.prev = 1) :
    Reads (scan strtod word off last rest 1 p) (readElsewhere strtod last p.args (45 :: rest)) := by
  by_cases hfirst : rest.head? = some 45
  · -- `--name`
    obtain ⟨name, rfl⟩ := List.head?_eq_some_iff.mp hfirst
    have hne : name ≠ [] := fun h => hnot (by rw [hword, h])
    rw [scan, onChar, if_pos rfl, onDash, hs]
    simp only [hprev]
    exact scan_name_reads hne hword rfl rfl
  · have hr : readElsewhere strtod last p.args (45 :: rest) =
        if 45 ∈ rest ∨ 61 ∈ rest then none else some (p.args.setLetters rest, none) := by
      cases rest with
      | nil => rfl
      | cons c cs =>
        have hc : c ≠ 45 := fun h => hfirst (by rw [h]; rfl)
        simp [readElsewhere, hc]
    rw [hr]
    exact scan_letters_reads hword hfirst hs hprev

/-- Any other argument is a freeform one. -/
theorem scan_freeform_reads {c : UInt8} {rest : Bytes} (hword : word = c :: rest)
    (hs : p.state = .freeform) (hprev : p.prev = 0) :
    Reads (scan strtod word off last rest 1 p) (some (p.args.pushBack word, none)) := by
  have hl : 1 + rest.length = word.length := by rw [hword, List.length_cons, Nat.add_comm]
  rw [scan_whole (.inr (.inl hs)) (by decide), onNul, hs, hl]
  simp only [Parser.add, slice_end, hprev, List.drop_zero]
  exact between_none rfl

theorem readElsewhere_other (last : Bool) (args : Args D) {c : UInt8} (rest : Bytes) (hd : c ≠ 45)
    (he : c ≠ 61) :
    readElsewhere strtod last args (c :: rest) = some (args.pushBack (c :: rest), none) := by
  simp [readElsewhere, hd, he]

theorem scan_normal_reads (hnot : word ≠ [45, 45]) (hs : p.state = .normal) :
    Reads (scan strtod word off last word 0 p) (readElsewhere strtod last p.args word) := by
  cases hw : word with
  | nil =>
    rw [scan, onNul, hs]
    have hempty : slice [] p.prev (0 + 1) = [] := by simp [slice]
    simp only [Parser.add, hempty]
    exact between_none hs
  | cons c rest =>
    rw [scan, ← hw, onChar]
    by_cases hd : c = 45
    · subst hd
      rw [if_pos rfl, onDash, hs]
      have hr : Reads (scan strtod word off last rest 1 { p with prev := 1, state := .dash })
          (readElsewhere strtod last p.args (45 :: rest)) := scan_dash_reads hw hnot rfl rfl
      rw [← hw] at hr
      exact hr
    · by_cases he : c = 61
      · subst he
        rw [if_neg hd, if_pos rfl, onEquals, hs, hw]
        exact trivial
      · rw [if_neg hd, if_neg he, onOther, if_pos ⟨hs, rfl⟩, hw, readElsewhere_other _ _ _ hd he,
          ← hw]
        exact scan_freeform_reads hw rfl rfl

theorem readValue_other (last : Bool) (args : Args D) (key : Bytes) {c : UInt8} (rest : Bytes)
    (hd : c ≠ 45) :
    readValue strtod last args key (c :: rest) =
      some (args.set strtod key (c :: rest), none) := by
  simp [readValue, hd]

theorem scan_pending_reads (hnot : word ≠ [45, 45]) (hs : p.state = .value) (hprev : p.prev = 0) :
    Reads (scan strtod word off last word 0 p) (readValue strtod last p.args p.key word) := by
  cases hw : word with
  | nil =>
    rw [scan, onNul, hs]
    simp only [hprev]
    trivial
  | cons c rest =>
    rw [← hw]
    by_cases hd : c = 45
    · -- the key gets the empty value, the argument is read again as an option
      subst hd
      rw [hw, scan, ← hw, onChar, if_pos rfl, onDash, hs]
      simp only [add_value _ (slice_nil _)]
      have hr : Reads (scan strtod word off last rest 1
          { p with args := p.args.set strtod p.key [], prev := 1, state := .dash })
          (readElsewhere strtod last (p.args.set strtod p.key []) (45 :: rest)) :=
        scan_dash_reads hw hnot rfl rfl
      rw [hw] at hr ⊢
      exact hr
    · have hc : onChar strtod word off (0 + 1) c p = .ok p := by
        by_cases he : c = 61 <;> simp [onChar, onEquals, onOther, hd, he, hs]
      have hl : word.length = 1 + rest.length := by rw [hw, List.length_cons, Nat.add_comm]
      have hr : Reads (scan strtod word off last rest 1 p)
          (if word.drop p.prev = [] then none
            else some (p.args.set strtod p.key (word.drop p.prev), none)) :=
        scan_value_reads hs (by decide) hl (by rw [hprev]; exact Nat.zero_le _)
      rw [hprev, List.drop_zero, if_neg (by rw [hw]; exact List.cons_ne_nil c rest)] at hr
      rw [hw, readValue_other _ _ _ _ hd, scan, ← hw, hc]
      exact hr

/-! ## The command line -/

/-- One argument: the machine and the grammar agree. -/
theorem parseArg_reads (hp : Between p args key) (hnot : word ≠ [45, 45]) :
    Reads (parseArg strtod off last word p) (readArg strtod last word args key) := by
  obtain ⟨rfl, hs, hk⟩ := hp
  unfold parseArg
  cases key with
  | none => exact scan_normal_reads hnot hs
  | some k =>
    obtain rfl := hk k rfl
    exact scan_pending_reads hnot hs rfl

theorem parseLoop_reads {words : List Bytes} (hp : Between p args key)
    (hnot : [45, 45] ∉ words) :
    Reads (parseLoop strtod off words p) (readArgs strtod words (args, key)) := by
  induction words generalizing off p args key with
  | nil => exact hp
  | cons w ws ih =>
    simp only [List.mem_cons, not_or] at hnot
    have hw : Reads (parseArg strtod off ws.isEmpty w p) (readArg strtod ws.isEmpty w args key) :=
      parseArg_reads hp (Ne.symm hnot.1)
    rw [parseLoop, readArgs]
    cases hx : parseArg strtod off ws.isEmpty w p with
    | error e =>
      cases hy : readArg strtod ws.isEmpty w args key with
      | none => trivial
      | some r => rw [hx, hy] at hw; exact hw.elim
    | ok q =>
      cases hy : readArg strtod ws.isEmpty w args key with
      | none => rw [hx, hy] at hw; exact hw.elim
      | some r =>
        rw [hx, hy] at hw
        exact ih hw hnot.2

/-- Without `--` the character machine computes the grammar's reading. -/
theorem parse_eq_reading (strtod : Bytes → D × Bytes) (argv : List Bytes)
    (hnot : [45, 45] ∉ argv.tail) : parse strtod argv = reading strtod argv := by
  have hr : Reads (parseLoop strtod 0 argv.tail Parser.init)
      (readArgs strtod argv.tail (Args.empty, none)) :=
    parseLoop_reads (between_none rfl) hnot
  unfold parse reading run
  cases hx : parseLoop strtod 0 argv.tail Parser.init with
  | error e =>
    cases hy : readArgs strtod argv.tail (Args.empty, none) with
    | none => rfl
    | some r => rw [hx, hy] at hr; exact hr.elim
  | ok q =>
    cases hy : readArgs strtod argv.tail (Args.empty, none) with
    | none => rw [hx, hy] at hr; exact hr.elim
    | some r => rw [hx, hy] at hr; exact hr.args_eq

/-- `--no-color -v --n=0x10 --out f x` -/
def sampleLine : List Bytes :=
  ["prog", "--no-color", "-v", "--n=0x10", "--out", "f", "x"].map ascii

theorem parse_sampleLine :
    let args := parse (fun s => ((), s)) sampleLine
    args.mValues (ascii "color") = some (.bool false) ∧ args.mValues (ascii "v") = some (.bool true) ∧
      args.mValues (ascii "n") = some (.int64 16) ∧
      args.mValues (ascii "out") = some (.string (ascii "f")) ∧ args.mFreeform = [ascii "x"] := by
  have hread : parse (fun s => ((), s)) sampleLine = reading (fun s => ((), s)) sampleLine :=
    parse_eq_reading _ _ (by decide)
  rw [hread]
  decide

end
end Reckoning.L1.ArgsParser
