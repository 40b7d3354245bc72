import Reckoning.L1Bytes.ArgsGrammar

/-!
# Command line arguments: what follows `--`

`--` puts the parser into the state `FreeformOnly`, in which every argument is
to be taken verbatim. A dash as the first character is not: its branch is
shared with `Value`, so it stores an empty value under the key left over from
before and goes to `Dash` (include/args/Parser.h:110-120).

* `parseLoop_terminator`: the arguments in front of `--` leave what they leave alone.
* `terminator_iff`: those behind it are kept as they are if and only if none of them
  starts with a dash.
-/
namespace Reckoning.L1.ArgsParser

section
variable {D : Type} {strtod : Bytes → D × Bytes} {word : Bytes} {words : List Bytes}
  {off : Nat} {last : Bool} {args : Args D} {key : Option Bytes} {p q : Parser D}

/-! ## In front of the terminator -/

/-- A key that still waits for its value gets the empty one. -/
def Args.settled (strtod : Bytes → D × Bytes) (args : Args D) : Option Bytes → Args D
  | none => args
  | some key => args.set strtod key []

/-- Being the last argument only settles the key. -/
theorem readName_last (rest : Bytes) (args : Args D) :
    readName strtod true rest args =
      (readName strtod false rest args).map fun r => (r.1.settled strtod r.2, none) := by
  unfold readName
  cases rest.dropWhile (· != 61) with
  | nil => rfl
  | cons c value => by_cases hv : value = [] <;> simp [hv, Args.settled]

theorem readElsewhere_last (args : Args D) (word : Bytes) :
    readElsewhere strtod true args word =
      (readElsewhere strtod false args word).map fun r => (r.1.settled strtod r.2, none) := by
  unfold readElsewhere
  split
  · exact readName_last _ _
  · split <;> rfl
  · rfl
  · rfl

theorem readArg_last (word : Bytes) (args : Args D) (key : Option Bytes) :
    readArg strtod true word args key =
      (readArg strtod false word args key).map fun r => (r.1.settled strtod r.2, none) := by
  cases key with
  | none => exact readElsewhere_last args word
  | some k =>
    unfold readArg readValue
    simp only
    split
    · rfl
    · exact readElsewhere_last _ _
    · rfl

theorem Reads.of_ok {x : Except Failure (Parser D)} {y : Reading D} (h : Reads x y)
    (hx : x = .ok p) :
    ∃ r, y = some r ∧ Between p r.1 r.2 := by
  subst hx
  cases y with
  | none => exact h.elim
  | some r => exact ⟨r, rfl, h⟩

theorem Reads.of_some {x : Except Failure (Parser D)} {y : Reading D} {r : Args D × Option Bytes}
    (h : Reads x y) (hy : y = some r) : ∃ p, x = .ok p ∧ Between p r.1 r.2 := by
  subst hy
  cases x with
  | error e => exact h.elim
  | ok p => exact ⟨p, rfl, h⟩

/-- An argument that is accepted as the last one is accepted with others behind it, and then
differs by the value its key still waits for. -/
theorem parseArg_last (hp : Between p args key) (hnot : word ≠ [45, 45])
    (h : parseArg strtod off true word p = .ok q) :
    ∃ r args' key', parseArg strtod off false word p = .ok r ∧ Between r args' key' ∧
      args'.settled strtod key' = q.args := by
  have hlast : Reads (parseArg strtod off true word p) (readArg strtod true word args key) :=
    parseArg_reads hp hnot
  have hmore : Reads (parseArg strtod off false word p) (readArg strtod false word args key) :=
    parseArg_reads hp hnot
  obtain ⟨s, hs, hq⟩ := hlast.of_ok h
  rw [readArg_last] at hs
  obtain ⟨t, ht, rfl⟩ := Option.map_eq_some_iff.mp hs
  obtain ⟨r, hr, hb⟩ := hmore.of_some ht
  exact ⟨r, t.1, t.2, hr, hb, hq.args_eq.symm⟩

/-- The arguments in front of another one. -/
theorem parseLoop_terminator {next : Bytes} {rest : List Bytes} (hp : Between p args key)
    (hkey : words = [] → key = none) (hnot : [45, 45] ∉ words)
    (h : parseLoop strtod off words p = .ok q) :
    ∃ r args' key' off', Between r args' key' ∧ args'.settled strtod key' = q.args ∧
      parseLoop strtod off (words ++ next :: rest) p =
        parseLoop strtod off' (next :: rest) r := by
  induction words generalizing off p args key with
  | nil =>
    obtain rfl := hkey rfl
    cases h
    exact ⟨q, args, none, off, hp, hp.args_eq.symm, rfl⟩
  | cons w ws ih =>
    simp only [List.mem_cons, not_or] at hnot
    rw [parseLoop] at h
    cases ws with
    | nil =>
      cases hw : parseArg strtod off true w p with
      | error e => rw [List.isEmpty_nil, hw] at h; cases h
      | ok s =>
        rw [List.isEmpty_nil, hw] at h
        cases h
        obtain ⟨r, args', key', hr, hb, hset⟩ := parseArg_last hp (Ne.symm hnot.1) hw
        refine ⟨r, args', key', off + w.length + 1, hb, hset, ?_⟩
        rw [List.cons_append, parseLoop, List.nil_append, List.isEmpty_cons, hr]
        rfl
    | cons v vs =>
      rw [List.isEmpty_cons] at h
      cases hw : parseArg strtod off false w p with
      | error e => rw [hw] at h; cases h
      | ok s =>
        rw [hw] at h
        have hreads : Reads (parseArg strtod off false w p) (readArg strtod false w args key) :=
          parseArg_reads hp (Ne.symm hnot.1)
        obtain ⟨t, _, hb⟩ := hreads.of_ok hw
        obtain ⟨r, args', key', off', hr, hset, he⟩ := ih hb (fun hv => by cases hv) hnot.2 h
        refine ⟨r, args', key', off', hr, hset, ?_⟩
        rw [List.cons_append, parseLoop, List.cons_append, List.isEmpty_cons, hw]
        exact he

/-- `--` settles the key that is pending, and from then on everything is freeform. -/
theorem parseArg_terminator (hp : Between p args key) :
    ∃ q, parseArg strtod off last [45, 45] p = .ok q ∧ q.state = .freeformOnly ∧
      q.args = args.settled strtod key := by
  obtain ⟨rfl, hs, hk⟩ := hp
  cases key with
  | none =>
    have hn : p.state = .normal := hs
    refine ⟨{ p with state := .freeformOnly, prev := 3 }, ?_, rfl, rfl⟩
    simp [parseArg, scan, onChar, onDash, onNul, hn, Except.bind]
  | some k =>
    have hv : p.state = .value := hs
    obtain rfl := hk k rfl
    refine ⟨{ p with args := p.args.set strtod p.key [], state := .freeformOnly, prev := 3 }, ?_,
      rfl, rfl⟩
    simp [parseArg, scan, onChar, onDash, onNul, hv, Except.bind, add_value _ (slice_nil _)]

/-! ## Behind the terminator -/

theorem onChar_freeformOnly {arg : Nat} {c : UInt8} (hs : p.state = .freeformOnly) (hc : c ≠ 45) :
    onChar strtod word off arg c p = .ok p := by
  by_cases he : c = 61 <;> simp [onChar, onEquals, onOther, hc, he, hs]

/-- An argument that does not start with a dash is kept as it is. -/
theorem parseArg_verbatim (hs : p.state = .freeformOnly) (hw : word.head? ≠ some 45) :
    ∃ q, parseArg strtod off last word p = .ok q ∧ q.state = .freeformOnly ∧
      q.args = p.args.pushBack word := by
  have hscan : parseArg strtod off last word p =
      onNul strtod word off last (word.length + 1) { p with prev := 0 } := by
    unfold parseArg
    cases hc : word with
    | nil => rfl
    | cons c cs =>
      have hne : c ≠ 45 := fun h => hw (by rw [hc, h]; rfl)
      have hfirst : onChar strtod (c :: cs) off (0 + 1) c { p with prev := 0 } =
          .ok { p with prev := 0 } := onChar_freeformOnly hs hne
      rw [scan, hfirst, List.length_cons, Nat.add_comm cs.length 1]
      exact scan_whole (.inr (.inr hs)) (Nat.succ_ne_zero 0)
  rw [hscan, onNul]
  simp only [hs, Parser.add, slice_end, List.drop_zero]
  exact ⟨_, rfl, rfl, rfl⟩

/-- An argument that starts with a dash adds nothing to the freeform list. -/
theorem parseArg_dash {rest : Bytes} (hs : p.state = .freeformOnly)
    (h : parseArg strtod off last (45 :: rest) p = .ok q) :
    q.args.mFreeform = p.args.mFreeform := by
  rw [parseArg, scan, onChar, if_pos rfl, onDash] at h
  simp only [hs] at h
  have hkeep := (scan_mFreeform h).2 (.inl rfl)
  exact hkeep.trans (add_mFreeform (by decide) _ _)

theorem parseLoop_verbatim (hs : p.state = .freeformOnly)
    (hw : ∀ w ∈ words, w.head? ≠ some 45) :
    ∃ q, parseLoop strtod off words p = .ok q ∧
      q.args = ⟨p.args.mValues, p.args.mFreeform ++ words⟩ := by
  induction words generalizing off p with
  | nil => exact ⟨p, rfl, by rw [List.append_nil]⟩
  | cons w ws ih =>
    obtain ⟨r, hr, hrs, hra⟩ : ∃ r, parseArg strtod off ws.isEmpty w p = .ok r ∧
        r.state = .freeformOnly ∧ r.args = p.args.pushBack w :=
      parseArg_verbatim hs (hw w List.mem_cons_self)
    obtain ⟨q, hq, hqa⟩ := ih hrs fun v hv => hw v (List.mem_cons_of_mem w hv)
    refine ⟨q, by rw [parseLoop, hr]; exact hq, ?_⟩
    rw [hqa, hra, Args.pushBack, List.append_assoc]
    rfl

/-- With such an argument among them some entry of the freeform list is missing. -/
theorem parseLoop_dash (hs : p.state = .freeformOnly) (hw : ∃ w ∈ words, w.head? = some 45)
    (h : parseLoop strtod off words p = .ok q) :
    q.args.mFreeform.length < p.args.mFreeform.length + words.length := by
  induction words generalizing off p with
  | nil => obtain ⟨w, hm, _⟩ := hw; cases hm
  | cons w ws ih =>
    rw [parseLoop] at h
    cases hx : parseArg strtod off ws.isEmpty w p with
    | error e => rw [hx] at h; cases h
    | ok r =>
      rw [hx] at h
      rw [List.length_cons]
      by_cases hd : w.head? = some 45
      · obtain ⟨rest, rfl⟩ := List.head?_eq_some_iff.mp hd
        have hle := parseLoop_mFreeform h
        rw [parseArg_dash hs hx] at hle
        omega
      · obtain ⟨r', hr', hrs, hra⟩ : ∃ r', parseArg strtod off ws.isEmpty w p = .ok r' ∧
            r'.state = .freeformOnly ∧ r'.args = p.args.pushBack w := parseArg_verbatim hs hd
        rw [hx] at hr'
        cases hr'
        obtain ⟨v, hv, hvd⟩ := hw
        have hmem : v ∈ ws := (List.mem_cons.mp hv).resolve_left fun h => hd (h ▸ hvd)
        have hlt := ih hrs ⟨v, hmem, hvd⟩ h
        rw [hra, Args.pushBack, List.length_append, List.length_singleton] at hlt
        omega

/-! ## The whole command line -/

theorem parse_of_ok {argv : List Bytes} (h : run strtod argv = .ok p) :
    parse strtod argv = p.args := by
  rw [parse, h]

/-- `parse` accepts the command line. -/
def Accepts (strtod : Bytes → D × Bytes) (argv : List Bytes) : Prop :=
  ∃ p, run strtod argv = .ok p

/-- `parse` of `xs -- ys` is `parse` of `xs` with `ys` behind its freeform list. -/
def Verbatim (strtod : Bytes → D × Bytes) (prog : Bytes) (xs ys : List Bytes) : Prop :=
  parse strtod (prog :: (xs ++ [45, 45] :: ys)) =
    ⟨(parse strtod (prog :: xs)).mValues, (parse strtod (prog :: xs)).mFreeform ++ ys⟩

/-- Behind `--` the parser goes on from what it made of the arguments in front. -/
theorem run_terminator {prog : Bytes} {xs : List Bytes} (ys : List Bytes) (hnot : [45, 45] ∉ xs)
    (hacc : Accepts strtod (prog :: xs)) :
    ∃ p off, p.state = .freeformOnly ∧ p.args = parse strtod (prog :: xs) ∧
      run strtod (prog :: (xs ++ [45, 45] :: ys)) = parseLoop strtod off ys p := by
  obtain ⟨q, hq⟩ := hacc
  have hinit : Between (D := D) Parser.init Args.empty none := between_none rfl
  obtain ⟨r, args, key, off, hb, hset, hfront⟩ : ∃ r args key off, Between r args key ∧
      args.settled strtod key = q.args ∧
      parseLoop strtod 0 (xs ++ [45, 45] :: ys) Parser.init =
        parseLoop strtod off ([45, 45] :: ys) r :=
    parseLoop_terminator hinit (fun _ => rfl) hnot hq
  obtain ⟨p, hp, hps, hpa⟩ : ∃ p, parseArg strtod off ys.isEmpty [45, 45] r = .ok p ∧
      p.state = .freeformOnly ∧ p.args = args.settled strtod key := parseArg_terminator hb
  refine ⟨p, off + 2 + 1, hps, by rw [hpa, hset, parse_of_ok hq], ?_⟩
  refine hfront.trans ?_
  rw [parseLoop, hp]
  rfl

/-- The rest of the command line is kept if and only if none of it starts with a dash. -/
theorem terminator_iff (strtod : Bytes → D × Bytes) (prog : Bytes) (xs ys : List Bytes)
    (hnot : [45, 45] ∉ xs) (hacc : Accepts strtod (prog :: xs)) :
    Verbatim strtod prog xs ys ↔ ∀ y ∈ ys, y.head? ≠ some 45 := by
  obtain ⟨p, off, hps, hpa, hrun⟩ := run_terminator ys hnot hacc
  unfold Verbatim
  rw [← hpa]
  constructor
  · intro hv y hy hd
    have hbad : ∃ w ∈ ys, w.head? = some 45 := ⟨y, hy, hd⟩
    have hpos := List.length_pos_of_mem hy
    cases hx : parseLoop strtod off ys p with
    | error e =>
      -- the result is `Args()`, whose freeform list is empty
      rw [parse, hrun, hx] at hv
      have hl := congrArg (fun a => a.mFreeform.length) hv
      simp only [Args.empty, List.length_nil, List.length_append] at hl
      omega
    | ok q =>
      rw [parse, hrun, hx] at hv
      have hlt := parseLoop_dash hps hbad hx
      have hl := congrArg (fun a => a.mFreeform.length) hv
      simp only [List.length_append] at hl
      omega
  · intro hw
    obtain ⟨q, hq, hqa⟩ : ∃ q, parseLoop strtod off ys p = .ok q ∧
        q.args = ⟨p.args.mValues, p.args.mFreeform ++ ys⟩ := parseLoop_verbatim hps hw
    rw [parse, hrun, hq]
    exact hqa

/-- `-v --out` in front of the terminator, `a=b` and the empty argument behind it. -/
theorem terminator_sample : Verbatim (fun s => ((), s)) (ascii "prog")
    [ascii "-v", ascii "--out"] [ascii "a=b", []] :=
  (terminator_iff _ _ _ _ (by decide) ⟨_, rfl⟩).mpr (by decide)

/-- `-- -a`: the argument is read as the option `a`, and the empty key is set. -/
theorem terminator_dash : ¬ ∀ (prog : Bytes) (xs ys : List Bytes), [45, 45] ∉ xs →
    Accepts (fun s => ((), s)) (prog :: xs) → Verbatim (fun s => ((), s)) prog xs ys := by
  intro h
  have hv := congrArg Args.mFreeform (h (ascii "prog") [] [ascii "-a"] (by decide) ⟨_, rfl⟩)
  revert hv
  decide

end
end Reckoning.L1.ArgsParser
