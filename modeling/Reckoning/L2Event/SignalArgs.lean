import Reckoning.L2Event.Signal

/-!
# What the handlers of one emit are given

`emit` forwards its arguments to `invoke` once for every connection, and each
`invoke` moves them into a parameter of the handler's `std::function`, or into
the tuple of an event for another thread (include/event/Signal.h:194,
include/event/Loop.h:264-274). So the first handler that is invoked gets the
value, and those after it get what moving has left.

* `Delivers`: every connected handler of an emit gets the emitted value.
* `delivers_iff`: a run keeps this exactly when no second handler of an emit is
  invoked, unless moving leaves the value as it is.
-/
namespace Reckoning.L2.Signal

variable {α : Type} {moved : α → α} {s s' : State α}

/-- Every handler is given the emitted value, also by the events on their way,
and no connection of an emit is left out whose turn came while it was connected. -/
structure Delivers (s : State α) : Prop where
  value : ∀ d ∈ s.received ++ s.queued, d.got = d.value
  each : ∀ e ∈ s.stack ++ s.ended, ∀ c ∈ e.wanted,
    ∃ d ∈ s.received ++ s.queued, d.emit = e.number ∧ d.conn = c ∧ d.value = e.value

/-- The first handler that the emit invokes, or a value that moving leaves alone. -/
def First (moved : α → α) (s : State α) : Label α → Prop
  | .turn _ => ∀ e ∈ s.stack.head?, ∀ c ∈ e.rest.head?, s.mConnected c = true →
      e.invoked = [] ∨ moved e.value = e.value
  | _ => True

/-- The arguments are as they were until a handler is invoked, and moved after it. -/
def Emit.Moved (moved : α → α) (e : Emit α) : Prop :=
  e.args = if e.invoked = [] then e.value else moved e.value

/-- Facts about the emits in progress that hold in every run. -/
structure Tracks (moved : α → α) (s : State α) : Prop where
  inv : Inv s
  due : ∀ e ∈ s.stack, e.rest = e.due
  args : ∀ e ∈ s.stack, e.Moved moved

/-! ## What a turn hands out -/

/-- What the turn of `c` hands to a handler or to an event. -/
def handed (s : State α) (e : Emit α) (c : Conn) : List (Delivery α) :=
  if s.mConnected c then [⟨e.number, c, e.value, e.args⟩] else []

theorem mem_turn {route : Route} {c : Conn} {rest : List Conn} {e : Emit α} {es : List (Emit α)}
    {d : Delivery α} :
    d ∈ (turn moved route c rest e es s).received ++ (turn moved route c rest e es s).queued ↔
      d ∈ s.received ++ s.queued ∨ d ∈ handed s e c := by
  cases route <;> simp [turn, handed, or_assoc, or_comm, or_left_comm]

theorem mem_execute {i : Nat} {d x : Delivery α} (hd : s.queued[i]? = some d) :
    x ∈ (s.received ++ [d]) ++ s.queued.eraseIdx i ↔ x ∈ s.received ++ s.queued := by
  have hmem : x = d ∨ x ∈ s.queued.eraseIdx i ↔ x ∈ s.queued := by
    rw [List.mem_eraseIdx_iff_getElem?]
    constructor
    · intro hx
      rcases hx with rfl | ⟨j, -, hj⟩
      · exact List.mem_of_getElem? hd
      · exact List.mem_of_getElem? hj
    · intro hx
      obtain ⟨j, hj⟩ := List.mem_iff_getElem?.mp hx
      by_cases hij : j = i
      · subst hij
        exact .inl (Option.some.inj (hj.symm.trans hd))
      · exact .inr ⟨j, hij, hj⟩
  simp only [List.mem_append, List.mem_singleton, or_assoc, hmem]

/-- A turn under the condition hands out the emitted value. -/
theorem handed_value {e : Emit α} {c : Conn} (hm : e.Moved moved)
    (hf : s.mConnected c = true → e.invoked = [] ∨ moved e.value = e.value) :
    ∀ d ∈ handed s e c, d.got = d.value := by
  intro d hd
  unfold handed at hd
  split at hd
  · rename_i hc
    obtain rfl := List.mem_singleton.mp hd
    show e.args = e.value
    unfold Emit.Moved at hm
    rcases hf hc with h0 | hv
    · rw [hm, if_pos h0]
    · rw [hm, hv, ite_self]
  · cases hd

/-- Whoever is wanted in this turn is handed something. -/
theorem handed_wanted {e : Emit α} {c d : Conn} {rest : List Conn} (h : Inv s) (hc : s.Exists c)
    (hdue : e.due = c :: rest) (hd : d ∈ (e.due.head?.filter s.live).toList) :
    ∃ x ∈ handed s e c, x.emit = e.number ∧ x.conn = d ∧ x.value = e.value := by
  rw [hdue, List.head?_cons] at hd
  simp only [Option.mem_toList, Option.filter_eq_some_iff, Option.some.injEq] at hd
  obtain ⟨rfl, hl⟩ := hd
  simp only [State.live, Bool.and_eq_true, Bool.not_eq_true'] at hl
  have hflag : s.mConnected c = true := by rw [h.flag c hc, hl.1]; rfl
  refine ⟨⟨e.number, c, e.value, e.args⟩, ?_, rfl, rfl, rfl⟩
  rw [handed, if_pos hflag]
  exact List.mem_singleton_self _

/-! ## Runs -/

theorem tracks_turn {route : Route} {c : Conn} {rest : List Conn} {e : Emit α} {es : List (Emit α)}
    (h : Tracks moved s) (hst : s.stack = e :: es) (hrest : e.rest = c :: rest)
    (hf : s.mConnected c = true → e.invoked = [] ∨ moved e.value = e.value)
    (hi : Inv (turn moved route c rest e es s)) : Tracks moved (turn moved route c rest e es s) := by
  have hmem : e ∈ s.stack := hst ▸ List.mem_cons_self
  have hdue : e.due = c :: rest := (h.due e hmem) ▸ hrest
  refine ⟨hi, forall_top hst (by simp [Emit.turn, hdue]) h.due, forall_top hst ?_ h.args⟩
  have hargs := h.args e hmem
  unfold Emit.Moved at hargs ⊢
  by_cases hc : s.mConnected c = true
  · simp only [Emit.turn, if_pos hc, hargs, List.append_eq_nil_iff, List.cons_ne_nil, and_false,
      if_false]
    -- moving twice leaves what moving once does, when it is done twice
    rcases hf hc with h0 | hv
    · rw [if_pos h0]
    · rw [hv, ite_self, hv]
  · simpa only [Emit.turn, if_neg hc] using hargs

theorem tracks_step {l : Label α} (h : Tracks moved s) (hf : First moved s l)
    (hs : step moved s l = some s') : Tracks moved s' := by
  have hi := inv_step h.inv hs
  cases l with
  | connect => cases hs; exact ⟨hi, h.due, h.args⟩
  | cut c => obtain ⟨-, rfl⟩ := step_cut hs; exact ⟨hi, h.due, h.args⟩
  | clear => cases hs; exact ⟨hi, h.due, h.args⟩
  | emit value =>
    obtain rfl := step_emit hs
    refine ⟨hi, fun e he => ?_, fun e he => ?_⟩
    · rcases List.mem_cons.mp he with rfl | he
      · exact h.inv.live
      · exact h.due e he
    · rcases List.mem_cons.mp he with rfl | he
      · exact (if_pos rfl).symm
      · exact h.args e he
  | turn route =>
    obtain ⟨e, es, c, rest, hst, -, hrest, rfl⟩ := step_turn hs
    exact tracks_turn h hst hrest (hf e (by rw [hst]; exact rfl) c (by rw [hrest]; exact rfl)) hi
  | ret =>
    obtain ⟨e, es, hst, rfl⟩ := step_ret hs
    have hmem : e ∈ s.stack := hst ▸ List.mem_cons_self
    exact ⟨hi, forall_top hst (h.due e hmem) h.due, forall_top hst (h.args e hmem) h.args⟩
  | finish =>
    obtain ⟨e, es, hst, -, rfl⟩ := step_finish hs
    exact ⟨hi, forall_below hst h.due, forall_below hst h.args⟩
  | execute i => obtain ⟨d, -, rfl⟩ := step_execute hs; exact ⟨hi, h.due, h.args⟩

/-- What was handed out stays so, and no emit wants more than before. -/
theorem Delivers.of_same (h : Delivers s)
    (hd : ∀ d, d ∈ s'.received ++ s'.queued ↔ d ∈ s.received ++ s.queued)
    (he : ∀ e' ∈ s'.stack ++ s'.ended, e'.wanted = [] ∨
      ∃ e ∈ s.stack ++ s.ended, e'.wanted = e.wanted ∧ e'.number = e.number ∧ e'.value = e.value) :
    Delivers s' := by
  refine ⟨fun d hm => h.value d ((hd d).mp hm), fun e' he' c hc => ?_⟩
  rcases he e' he' with hw | ⟨e, hm, hw, hn, hv⟩
  · rw [hw] at hc; cases hc
  · obtain ⟨d, hdm, hx⟩ := h.each e hm c (hw ▸ hc)
    exact ⟨d, (hd d).mpr hdm, hn ▸ hv ▸ hx⟩

theorem delivers_turn {route : Route} {c : Conn} {rest : List Conn} {e : Emit α} {es : List (Emit α)}
    (ht : Tracks moved s) (h : Delivers s) (hst : s.stack = e :: es) (hrest : e.rest = c :: rest)
    (hf : s.mConnected c = true → e.invoked = [] ∨ moved e.value = e.value) :
    Delivers (turn moved route c rest e es s) := by
  have hmem : e ∈ s.stack := hst ▸ List.mem_cons_self
  have hex : s.Exists c := .inr ⟨e, hmem, ht.inv.copies e hmem c (hrest ▸ List.mem_cons_self)⟩
  have hdue : e.due = c :: rest := (ht.due e hmem) ▸ hrest
  have hold : ∀ e' ∈ s.stack ++ s.ended, ∀ d ∈ e'.wanted,
      ∃ x ∈ (turn moved route c rest e es s).received ++ (turn moved route c rest e es s).queued,
        x.emit = e'.number ∧ x.conn = d ∧ x.value = e'.value := by
    intro e' he' d hd
    obtain ⟨x, hx, heq⟩ := h.each e' he' d hd
    exact ⟨x, mem_turn.mpr (.inl hx), heq⟩
  constructor
  · intro d hd
    rcases mem_turn.mp hd with hd | hd
    · exact h.value d hd
    · exact handed_value (ht.args e hmem) hf d hd
  · intro e' he' d hd
    rcases List.mem_cons.mp he' with rfl | he'
    · rcases List.mem_append.mp hd with hd | hd
      · exact hold e (List.mem_append_left _ hmem) d hd
      · obtain ⟨x, hx, heq⟩ := handed_wanted ht.inv hex hdue hd
        exact ⟨x, mem_turn.mpr (.inr hx), heq⟩
    · refine hold e' ?_ d hd
      rw [hst]
      exact List.mem_cons_of_mem e he'

theorem delivers_step {l : Label α} (ht : Tracks moved s) (h : Delivers s) (hf : First moved s l)
    (hs : step moved s l = some s') : Delivers s' := by
  have hsame : ∀ e ∈ s.stack ++ s.ended, e.wanted = [] ∨ ∃ e₀ ∈ s.stack ++ s.ended,
      e.wanted = e₀.wanted ∧ e.number = e₀.number ∧ e.value = e₀.value :=
    fun e he => .inr ⟨e, he, rfl, rfl, rfl⟩
  cases l with
  | connect => cases hs; exact h.of_same (fun _ => Iff.rfl) hsame
  | cut c => obtain ⟨-, rfl⟩ := step_cut hs; exact h.of_same (fun _ => Iff.rfl) hsame
  | clear => cases hs; exact h.of_same (fun _ => Iff.rfl) hsame
  | emit value =>
    obtain rfl := step_emit hs
    refine h.of_same (fun _ => Iff.rfl) fun e he => ?_
    rcases List.mem_cons.mp he with rfl | he
    · exact .inl rfl
    · exact hsame e he
  | turn route =>
    obtain ⟨e, es, c, rest, hst, -, hrest, rfl⟩ := step_turn hs
    exact delivers_turn ht h hst hrest (hf e (by rw [hst]; exact rfl) c (by rw [hrest]; exact rfl))
  | ret =>
    obtain ⟨e, es, hst, rfl⟩ := step_ret hs
    refine h.of_same (fun _ => Iff.rfl) fun e' he' => ?_
    rcases List.mem_cons.mp he' with rfl | he'
    · exact .inr ⟨e, hst ▸ List.mem_cons_self, rfl, rfl, rfl⟩
    · exact hsame e' (hst ▸ List.mem_cons_of_mem e he')
  | finish =>
    obtain ⟨e, es, hst, -, rfl⟩ := step_finish hs
    refine h.of_same (fun _ => Iff.rfl) fun e' he' => hsame e' ?_
    simp only [hst, List.mem_append, List.mem_cons, List.not_mem_nil, or_false] at he' ⊢
    rcases he' with he' | he' | he'
    · exact .inl (.inr he')
    · exact .inr he'
    · exact .inl (.inl he')
  | execute i =>
    obtain ⟨d, hd, rfl⟩ := step_execute hs
    exact h.of_same (fun x => mem_execute hd) hsame

theorem delivers_breaks {l : Label α} (ht : Tracks moved s) (hf : ¬ First moved s l)
    (hs : step moved s l = some s') : ¬ Delivers s' := by
  cases l with
  | turn route =>
    obtain ⟨e, es, c, rest, hst, -, hrest, rfl⟩ := step_turn hs
    intro h'
    apply hf
    intro e₁ he₁ c₁ hc₁ hconn
    rw [hst] at he₁
    cases he₁
    rw [hrest] at hc₁
    cases hc₁
    by_cases h0 : e.invoked = []
    · exact .inl h0
    · -- the second one gets what was moved
      have hin : (⟨e.number, c, e.value, e.args⟩ : Delivery α) ∈ handed s e c := by
        rw [handed, if_pos hconn]
        exact List.mem_singleton_self _
      have hgot : e.args = e.value := h'.value _ (mem_turn.mpr (.inr hin))
      have hargs := ht.args e (hst ▸ List.mem_cons_self)
      rw [Emit.Moved, if_neg h0, hgot] at hargs
      exact .inr hargs.symm
  | _ => exact absurd trivial hf

/-- **Exactly when every handler gets the emitted value.** Throughout a run every
connected handler of every emit is given the value that was emitted, exactly
when an emit invokes no second handler, unless moving leaves its value alone. -/
theorem delivers_iff {t : List (Label α × State α)} (ht : (lts moved).Trace .init t) :
    LTS.AllStates Delivers .init t ↔ LTS.AllSteps (First moved) .init t := by
  have hexact : (lts moved).Exact (First moved) (fun s => Tracks moved s ∧ Delivers s) Delivers :=
    { holds := fun s hi => hi.2
      keeps := fun s l s' hi hc hs => ⟨tracks_step hi.1 hc hs, delivers_step hi.1 hi.2 hc hs⟩
      breaks := fun s l s' hi hc hs => delivers_breaks hi.1 hc hs }
  exact hexact.allStates_iff ht ⟨⟨inv_init, nofun, nofun⟩, ⟨nofun, nofun⟩⟩

/-- A shared pointer to buffer `7` is emitted to two handlers; moving leaves a null pointer. -/
def twoHandlers : List (Label (Option Nat)) :=
  [.connect, .connect, .emit (some 7), .turn .own, .ret, .turn .other, .execute 0]

theorem twoHandlers_run : (LTS.record (step fun _ => none) .init twoHandlers).isSome := by decide

/-- The second one gets the null pointer. -/
theorem second_gets_null : ¬ ∀ t, (lts fun _ => (none : Option Nat)).Trace .init t →
    LTS.AllStates Delivers .init t := by
  intro h
  have hvalue := (h _ (LTS.trace_record twoHandlers_run)).last.value
  revert hvalue
  decide

theorem delivers_iff_twoHandlers :
    LTS.AllStates Delivers .init
        ((LTS.record (step fun _ => none) .init twoHandlers).get twoHandlers_run) ↔
      LTS.AllSteps (First fun _ => none) .init
        ((LTS.record (step fun _ => none) .init twoHandlers).get twoHandlers_run) :=
  delivers_iff (LTS.trace_record twoHandlers_run)

end Reckoning.L2.Signal
