import Mathlib.Logic.Function.Basic
import Reckoning.Core.LTS

/-!
# Signals: emitting while handlers edit the connections

`event::Signal` (`include/event/Signal.h`). A connection is a number, given in
the order of `connect`. `emit` copies the connections that are still connected
and then takes the copies one after another; while a handler runs, it may
connect, disconnect through a `Connection` or through the signal, and emit
again, so the emits in progress form a stack. Calls of `connect` and of the two
`disconnect`s may also come from other threads, between any two steps; the
check of `connected()` and the invocation that follows it are one step.

What a handler is given is kept as well: `args` is what the arguments of the
emit hold, and `moved` what is left of a value that was moved from.

Ghosts: `cut` and `cleared` say which connections were disconnected through
their `Connection` and through the signal. `due` are the connections whose turn
in an emit is still to come, `wanted` those that it should have invoked.

* `snapshot_live`: the copies are the live connections in registration order.
* `emits_iff`: a run emits as intended throughout exactly when no connection's
  turn comes that was disconnected through the signal only
  (`Signal::disconnect` clears the list but no `mConnected`).
* `swept_of_quiet`: so it does if the signal is never disconnected while an emit
  has a connected handler to come.
-/
namespace Reckoning.L2.Signal

abbrev Conn := Nat

/-- Where a connection's loop runs: this thread's, another's, or nowhere. -/
inductive Route
  | own
  | other
  | gone
  deriving DecidableEq, Repr

/-- One call of `emit`.
mirrors include/event/Signal.h:170-196 -/
structure Emit (α : Type) where
  /-- the local `connections` -/
  connections : List Conn
  /-- those not yet taken by the loop over them -/
  rest : List Conn
  /-- the handler of the one taken last has not returned -/
  running : Bool
  args : α
  /-- ghost: the number of this emit, and its argument -/
  number : Nat
  value : α
  due : List Conn
  invoked : List Conn
  wanted : List Conn
  deriving DecidableEq

/-- What a handler gets in an emit of `value`. -/
structure Delivery (α : Type) where
  emit : Nat
  conn : Conn
  value : α
  got : α
  deriving DecidableEq

/-- mirrors include/event/Signal.h:31-32,68-69 -/
structure State (α : Type) where
  mConnections : List Conn
  mConnected : Conn → Bool
  next : Conn
  stack : List (Emit α)
  ended : List (Emit α)
  emits : Nat
  /-- events in other threads' loops -/
  queued : List (Delivery α)
  received : List (Delivery α)
  cut : Conn → Bool
  cleared : Conn → Bool

inductive Label (α : Type)
  | connect
  /-- `Connection::disconnect` -/
  | cut (c : Conn)
  /-- `Signal::disconnect` -/
  | clear
  | emit (value : α)
  | turn (route : Route)
  | ret
  | finish
  /-- another thread's loop runs the `i`-th queued event -/
  | execute (i : Nat)
  deriving DecidableEq

variable {α : Type}

def State.init : State α :=
  ⟨[], fun _ => true, 0, [], [], 0, [], [], fun _ => false, fun _ => false⟩

/-- Registered and not disconnected. -/
def State.live (s : State α) (c : Conn) : Bool := !s.cut c && !s.cleared c

/-- `mConnection.lock()` succeeds: the signal or an emit has the connection. -/
def State.Exists (s : State α) (c : Conn) : Prop :=
  c ∈ s.mConnections ∨ ∃ e ∈ s.stack, c ∈ e.connections

instance (s : State α) (c : Conn) : Decidable (s.Exists c) := inferInstanceAs (Decidable (_ ∨ _))

/-- mirrors include/event/Signal.h:198-210 -/
def connect (s : State α) : State α :=
  { s with
    mConnections := s.mConnections ++ [s.next]
    mConnected := Function.update s.mConnected s.next true
    next := s.next + 1 }

/-- mirrors include/event/Signal.h:122-129 -/
def disconnect (c : Conn) (s : State α) : State α :=
  { s with
    mConnected := if s.Exists c then Function.update s.mConnected c false else s.mConnected
    cut := Function.update s.cut c true }

/-- mirrors include/event/Signal.h:163-168 -/
def clear (s : State α) : State α :=
  { s with mConnections := [], cleared := fun c => s.cleared c || c < s.next }

/-- The first half of `emit`.
mirrors include/event/Signal.h:173-186 -/
def emit (value : α) (s : State α) : State α :=
  let connections := s.mConnections.filter s.mConnected
  let e : Emit α := ⟨connections, connections, false, value, s.emits, value,
    (List.range s.next).filter s.live, [], []⟩
  { s with mConnections := connections, stack := e :: s.stack, emits := s.emits + 1 }

/-- The emit after one turn of its loop, for the connection `c`. The ghosts take
the connection that is due.
mirrors include/event/Signal.h:187-195 -/
def Emit.turn (moved : α → α) (route : Route) (c : Conn) (rest : List Conn) (s : State α)
    (e : Emit α) : Emit α :=
  { e with
    rest
    running := s.mConnected c && route != .other
    args := if s.mConnected c then moved e.args else e.args
    invoked := if s.mConnected c then e.invoked ++ [c] else e.invoked
    due := e.due.tail
    wanted := e.wanted ++ (e.due.head?.filter s.live).toList }

/-- `connected()` and `invoke`: a direct call when the loop is this thread's or
gone, else an event that takes the arguments with it.
mirrors include/event/Signal.h:85-94 and include/event/Loop.h:264-274 -/
def turn (moved : α → α) (route : Route) (c : Conn) (rest : List Conn) (e : Emit α)
    (es : List (Emit α)) (s : State α) : State α :=
  let d : List (Delivery α) := if s.mConnected c then [⟨e.number, c, e.value, e.args⟩] else []
  { s with
    stack := e.turn moved route c rest s :: es
    queued := if route = .other then s.queued ++ d else s.queued
    received := if route = .other then s.received else s.received ++ d }

def step (moved : α → α) (s : State α) : Label α → Option (State α)
  | .connect => some (connect s)
  | .cut c => if c < s.next then some (disconnect c s) else none
  | .clear => some (clear s)
  | .emit value => if s.stack.head?.all (·.running) then some (emit value s) else none
  | .turn route =>
    match s.stack with
    | e :: es =>
      if e.running then none
      else
        match e.rest with
        | c :: rest => some (turn moved route c rest e es s)
        | [] => none
    | [] => none
  | .ret =>
    match s.stack with
    | e :: es => if e.running then some { s with stack := { e with running := false } :: es } else none
    | [] => none
  | .finish =>
    match s.stack with
    | e :: es =>
      if e.running = false ∧ e.rest = [] then some { s with stack := es, ended := s.ended ++ [e] }
      else none
    | [] => none
  | .execute i =>
    match s.queued[i]? with
    | some d => some { s with queued := s.queued.eraseIdx i, received := s.received ++ [d] }
    | none => none

def lts (moved : α → α) : LTS (State α) (Label α) := .ofFn (· = .init) (step moved)

/-! ## The property and the condition -/

/-- Every emit has invoked what it should have, in that order, and nothing that
is connected got lost. -/
structure Agrees (s : State α) : Prop where
  emits : ∀ e ∈ s.stack ++ s.ended, e.invoked = e.wanted ∧ e.rest = e.due
  complete : ∀ e ∈ s.ended, e.due = []
  kept : ∀ c < s.next, s.live c = true → c ∈ s.mConnections

/-- The connection whose turn comes was not disconnected through the signal
alone. -/
def Swept (s : State α) : Label α → Prop
  | .turn _ => ∀ e ∈ s.stack.head?, ∀ c ∈ e.rest.head?, s.cleared c = true → s.cut c = true
  | _ => True

/-! ## The connections -/

/-- The flags and the list say what the two disconnects did. -/
structure Inv (s : State α) : Prop where
  live : s.mConnections.filter s.mConnected = (List.range s.next).filter s.live
  flag : ∀ c, s.Exists c → s.mConnected c = !s.cut c
  old : ∀ c, s.Exists c → c < s.next
  fresh : ∀ c, s.next ≤ c → s.live c = true
  copies : ∀ e ∈ s.stack, ∀ c ∈ e.rest, c ∈ e.connections

theorem inv_init : Inv (State.init : State α) where
  live := rfl
  flag _ _ := rfl
  old c h := by
    rcases h with h | ⟨e, he, -⟩
    · cases h
    · cases he
  fresh _ _ := rfl
  copies := nofun

/-- **The copies that `emit` takes are the live connections, in the order of
their registration.** -/
theorem snapshot_live {s : State α} (h : Inv s) (value : α) :
    ((emit value s).stack.head?.map Emit.connections) = some ((List.range s.next).filter s.live) := by
  rw [← h.live]
  rfl

theorem Inv.kept {s : State α} (h : Inv s) {c : Conn} (hc : c < s.next) (hl : s.live c = true) :
    c ∈ s.mConnections := by
  have hmem : c ∈ (List.range s.next).filter s.live :=
    List.mem_filter.mpr ⟨List.mem_range.mpr hc, hl⟩
  rw [← h.live] at hmem
  exact (List.mem_filter.mp hmem).1

theorem inv_connect {s : State α} (h : Inv s) : Inv (connect s) := by
  have hne : ∀ c, s.Exists c → c ≠ s.next := fun c hc => Nat.ne_of_lt (h.old c hc)
  have hcases : ∀ c, (connect s).Exists c → c = s.next ∨ s.Exists c := by
    intro c hc
    rcases hc with hc | hc
    · rcases List.mem_append.mp hc with hc | hc
      · exact .inr (.inl hc)
      · exact .inl (List.mem_singleton.mp hc)
    · exact .inr (.inr hc)
  have hcut : s.cut s.next = false := by
    have := h.fresh s.next (Nat.le_refl _)
    simp only [State.live, Bool.and_eq_true, Bool.not_eq_true'] at this
    exact this.1
  constructor
  · have hold : s.mConnections.filter (Function.update s.mConnected s.next true) =
        s.mConnections.filter s.mConnected :=
      List.filter_congr fun c hc => Function.update_of_ne (hne c (.inl hc)) _ _
    have hnew : s.live s.next = true := h.fresh s.next (Nat.le_refl _)
    show (s.mConnections ++ [s.next]).filter (Function.update s.mConnected s.next true) =
      (List.range (s.next + 1)).filter s.live
    rw [List.filter_append, hold, h.live, List.range_succ, List.filter_append]
    simp [hnew]
  · intro c hc
    rcases hcases c hc with rfl | hc
    · simp [connect, hcut]
    · simp only [connect, Function.update_of_ne (hne c hc)]
      exact h.flag c hc
  · intro c hc
    show c < s.next + 1
    rcases hcases c hc with rfl | hc
    · exact Nat.lt_succ_self _
    · exact Nat.lt_succ_of_lt (h.old c hc)
  · intro c hc
    exact h.fresh c (Nat.le_of_succ_le hc)
  · exact h.copies

theorem inv_disconnect {s : State α} (h : Inv s) {c : Conn} (hc : c < s.next) :
    Inv (disconnect c s) := by
  have hflag : ∀ d, s.Exists d →
      (disconnect c s).mConnected d = (decide (d ≠ c) && s.mConnected d) := by
    intro d hd
    by_cases he : d = c
    · subst he
      simp [disconnect, if_pos hd]
    · by_cases hx : s.Exists c <;> simp [disconnect, hx, he]
  have hlive : ∀ d, (disconnect c s).live d = (decide (d ≠ c) && s.live d) := by
    intro d
    by_cases he : d = c
    · subst he; simp [disconnect, State.live]
    · simp [disconnect, State.live, he]
  constructor
  · -- both lists lose `c`, if they had it
    show s.mConnections.filter (disconnect c s).mConnected = (List.range s.next).filter (disconnect c s).live
    rw [List.filter_congr fun d hd => hflag d (.inl hd), List.filter_congr fun d _ => hlive d,
      ← List.filter_filter, ← List.filter_filter, h.live]
  · intro d hd
    rw [hflag d hd]
    by_cases he : d = c
    · subst he; simp [disconnect]
    · simp [disconnect, he, h.flag d hd]
  · exact h.old
  · intro d hd
    have hne : d ≠ c := Nat.ne_of_gt (Nat.lt_of_lt_of_le hc hd)
    rw [hlive d, h.fresh d hd]
    simp [hne]
  · exact h.copies

theorem inv_clear {s : State α} (h : Inv s) : Inv (clear s) := by
  have hsub : ∀ c, (clear s).Exists c → s.Exists c := by
    intro c hc
    rcases hc with hc | hc
    · cases hc
    · exact .inr hc
  constructor
  · show [] = (List.range s.next).filter (clear s).live
    refine (List.filter_eq_nil_iff.mpr fun c hc => ?_).symm
    simp [clear, State.live, List.mem_range.mp hc]
  · exact fun c hc => h.flag c (hsub c hc)
  · exact fun c hc => h.old c (hsub c hc)
  · intro c hc
    have hl := h.fresh c hc
    simp only [State.live, Bool.and_eq_true, Bool.not_eq_true'] at hl
    have hge : ¬ c < s.next := Nat.not_lt.mpr hc
    simp [clear, State.live, hl, hge]
  · exact h.copies

theorem inv_emit {s : State α} (h : Inv s) (value : α) : Inv (emit value s) := by
  have hsub : ∀ c, (emit value s).Exists c → s.Exists c := by
    intro c hc
    rcases hc with hc | ⟨e, he, hc⟩
    · exact .inl (List.mem_filter.mp hc).1
    · rcases List.mem_cons.mp he with rfl | he
      · exact .inl (List.mem_filter.mp hc).1
      · exact .inr ⟨e, he, hc⟩
  constructor
  · show (s.mConnections.filter s.mConnected).filter s.mConnected = (List.range s.next).filter s.live
    rw [List.filter_filter, ← h.live]
    exact List.filter_congr fun c _ => Bool.and_self _
  · exact fun c hc => h.flag c (hsub c hc)
  · exact fun c hc => h.old c (hsub c hc)
  · exact h.fresh
  · intro e he
    rcases List.mem_cons.mp he with rfl | he
    · exact fun c hc => hc
    · exact h.copies e he

/-- The rest of the steps change no connection, and take none of an emit's copies back. -/
theorem Inv.of_stack {s : State α} (h : Inv s) {stack ended : List (Emit α)}
    {queued received : List (Delivery α)}
    (hs : ∀ e' ∈ stack, ∃ e ∈ s.stack, e.connections = e'.connections ∧ ∀ c ∈ e'.rest, c ∈ e.rest) :
    Inv { s with stack, ended, queued, received } := by
  have hsub : ∀ c, State.Exists { s with stack, ended, queued, received } c → s.Exists c := by
    intro c hc
    rcases hc with hc | ⟨e', he', hc⟩
    · exact .inl hc
    · obtain ⟨e, he, heq, -⟩ := hs e' he'
      exact .inr ⟨e, he, heq ▸ hc⟩
  refine ⟨h.live, fun c hc => h.flag c (hsub c hc), fun c hc => h.old c (hsub c hc), h.fresh, ?_⟩
  intro e' he' c hc
  obtain ⟨e, he, heq, hrest⟩ := hs e' he'
  exact heq ▸ h.copies e he c (hrest c hc)

/-! ## What a step does -/

variable {moved : α → α} {s s' : State α}

theorem step_cut {c : Conn} (h : step moved s (.cut c) = some s') :
    c < s.next ∧ s' = disconnect c s := by
  simp only [step] at h
  split at h
  · rename_i hc
    exact ⟨hc, (Option.some.inj h).symm⟩
  · cases h

theorem step_emit {value : α} (h : step moved s (.emit value) = some s') : s' = emit value s := by
  simp only [step] at h
  split at h
  · exact (Option.some.inj h).symm
  · cases h

theorem step_turn {route : Route} (h : step moved s (.turn route) = some s') :
    ∃ e es c rest, s.stack = e :: es ∧ e.running = false ∧ e.rest = c :: rest ∧
      s' = turn moved route c rest e es s := by
  simp only [step] at h
  split at h
  · rename_i e es hst
    split at h
    · cases h
    · rename_i hrun
      split at h
      · rename_i c rest hrest
        exact ⟨e, es, c, rest, hst, by simpa using hrun, hrest, (Option.some.inj h).symm⟩
      · cases h
  · cases h

theorem step_ret (h : step moved s .ret = some s') :
    ∃ e es, s.stack = e :: es ∧ s' = { s with stack := { e with running := false } :: es } := by
  simp only [step] at h
  split at h
  · rename_i e es hst
    split at h
    · exact ⟨e, es, hst, (Option.some.inj h).symm⟩
    · cases h
  · cases h

theorem step_finish (h : step moved s .finish = some s') :
    ∃ e es, s.stack = e :: es ∧ e.rest = [] ∧ s' = { s with stack := es, ended := s.ended ++ [e] } := by
  simp only [step] at h
  split at h
  · rename_i e es hst
    split at h
    · rename_i hx
      exact ⟨e, es, hst, hx.2, (Option.some.inj h).symm⟩
    · cases h
  · cases h

theorem step_execute {i : Nat} (h : step moved s (.execute i) = some s') :
    ∃ d, s.queued[i]? = some d ∧
      s' = { s with queued := s.queued.eraseIdx i, received := s.received ++ [d] } := by
  simp only [step] at h
  split at h
  · rename_i d hd
    exact ⟨d, hd, (Option.some.inj h).symm⟩
  · cases h

section Stack
variable {β : Type} {p : β → Prop} {k k' : List β} {x y : β}

/-- The emits below the top are emits of the stack. -/
theorem forall_below (hk : k = x :: k') (h : ∀ z ∈ k, p z) : ∀ z ∈ k', p z :=
  fun z hz => h z (hk ▸ List.mem_cons_of_mem x hz)

/-- The top is replaced: the new top, and what was below it. -/
theorem forall_top (hk : k = x :: k') (hy : p y) (h : ∀ z ∈ k, p z) : ∀ z ∈ y :: k', p z :=
  List.forall_mem_cons.mpr ⟨hy, forall_below hk h⟩

end Stack

theorem inv_step {l : Label α} (h : Inv s) (hs : step moved s l = some s') : Inv s' := by
  have hsame : ∀ e' ∈ s.stack, ∃ e ∈ s.stack,
      e.connections = e'.connections ∧ ∀ c ∈ e'.rest, c ∈ e.rest :=
    fun e' he' => ⟨e', he', rfl, fun c hc => hc⟩
  cases l with
  | connect => cases hs; exact inv_connect h
  | cut c =>
    obtain ⟨hc, rfl⟩ := step_cut hs
    exact inv_disconnect h hc
  | clear => cases hs; exact inv_clear h
  | emit value =>
    obtain rfl := step_emit hs
    exact inv_emit h value
  | turn route =>
    obtain ⟨e, es, c, rest, hst, -, hrest, rfl⟩ := step_turn hs
    refine h.of_stack (forall_top hst ⟨e, hst ▸ List.mem_cons_self, rfl, fun d hd => ?_⟩ hsame)
    rw [hrest]
    exact List.mem_cons_of_mem c hd
  | ret =>
    obtain ⟨e, es, hst, rfl⟩ := step_ret hs
    exact h.of_stack (forall_top hst ⟨e, hst ▸ List.mem_cons_self, rfl, fun d hd => hd⟩ hsame)
  | finish =>
    obtain ⟨e, es, hst, -, rfl⟩ := step_finish hs
    exact h.of_stack (forall_below hst hsame)
  | execute i =>
    obtain ⟨d, -, rfl⟩ := step_execute hs
    exact h.of_stack hsame

/-! ## What the emits invoke -/

/-- An emit has invoked what it should have, and goes on with what is due. -/
def Emit.Right (e : Emit α) : Prop := e.invoked = e.wanted ∧ e.rest = e.due

/-- The turn of `c`: what is invoked is what should be, unless `c` was
disconnected through the signal only. -/
theorem turn_right {e : Emit α} {c : Conn} {rest : List Conn} (h : Inv s) (hc : s.Exists c)
    (he : e.Right) (hrest : e.rest = c :: rest) (route : Route) :
    (e.turn moved route c rest s).Right ↔ (s.cleared c = true → s.cut c = true) := by
  have hdue : e.due = c :: rest := he.2 ▸ hrest
  simp only [Emit.Right, Emit.turn, hdue, List.tail_cons, List.head?_cons, and_true, h.flag c hc,
    he.1]
  cases hcut : s.cut c <;> cases hclr : s.cleared c <;> simp [Option.filter, State.live, hcut, hclr]

theorem agrees_of_emits {s : State α} (h : Inv s) (he : ∀ e ∈ s.stack, e.Right)
    (hend : ∀ e ∈ s.ended, e.Right ∧ e.due = []) : Agrees s where
  emits e hm := by
    rcases List.mem_append.mp hm with hm | hm
    · exact he e hm
    · exact (hend e hm).1
  complete e hm := (hend e hm).2
  kept c hc hl := h.kept hc hl

theorem Agrees.stack (h : Agrees s) {e : Emit α} (he : e ∈ s.stack) : e.Right :=
  h.emits e (List.mem_append_left _ he)

theorem Agrees.ended (h : Agrees s) {e : Emit α} (he : e ∈ s.ended) : e.Right ∧ e.due = [] :=
  ⟨h.emits e (List.mem_append_right _ he), h.complete e he⟩

theorem agrees_step {l : Label α} (hi : Inv s) (h : Agrees s) (hc : Swept s l)
    (hs : step moved s l = some s') : Agrees s' := by
  have hi' : Inv s' := inv_step hi hs
  cases l with
  | connect => cases hs; exact agrees_of_emits hi' (fun _ => h.stack) (fun _ => h.ended)
  | cut c =>
    obtain ⟨-, rfl⟩ := step_cut hs
    exact agrees_of_emits hi' (fun _ => h.stack) (fun _ => h.ended)
  | clear => cases hs; exact agrees_of_emits hi' (fun _ => h.stack) (fun _ => h.ended)
  | emit value =>
    obtain rfl := step_emit hs
    refine agrees_of_emits hi' (fun e he => ?_) (fun _ => h.ended)
    rcases List.mem_cons.mp he with rfl | he
    · exact ⟨rfl, hi.live⟩
    · exact h.stack he
  | turn route =>
    obtain ⟨e, es, c, rest, hst, -, hrest, rfl⟩ := step_turn hs
    have hmem : e ∈ s.stack := hst ▸ List.mem_cons_self
    have hex : s.Exists c := .inr ⟨e, hmem, hi.copies e hmem c (hrest ▸ List.mem_cons_self)⟩
    have hsw : s.cleared c = true → s.cut c = true :=
      hc e (by rw [hst]; exact rfl) c (by rw [hrest]; exact rfl)
    have hr : (e.turn moved route c rest s).Right :=
      (turn_right hi hex (h.stack hmem) hrest route).mpr hsw
    exact agrees_of_emits hi' (forall_top hst hr fun _ => h.stack) (fun _ => h.ended)
  | ret =>
    obtain ⟨e, es, hst, rfl⟩ := step_ret hs
    have hr : e.Right := h.stack (hst ▸ List.mem_cons_self)
    exact agrees_of_emits hi' (forall_top hst hr fun _ => h.stack) (fun _ => h.ended)
  | finish =>
    obtain ⟨e, es, hst, hrest, rfl⟩ := step_finish hs
    have hr : e.Right := h.stack (hst ▸ List.mem_cons_self)
    refine agrees_of_emits hi' (forall_below hst fun _ => h.stack) ?_
    intro e' he'
    rcases List.mem_append.mp he' with he' | he'
    · exact h.ended he'
    · obtain rfl := List.mem_singleton.mp he'
      exact ⟨hr, hr.2 ▸ hrest⟩
  | execute i =>
    obtain ⟨d, -, rfl⟩ := step_execute hs
    exact agrees_of_emits hi' (fun _ => h.stack) (fun _ => h.ended)

theorem agrees_breaks {l : Label α} (hi : Inv s) (h : Agrees s) (hc : ¬ Swept s l)
    (hs : step moved s l = some s') : ¬ Agrees s' := by
  cases l with
  | turn route =>
    obtain ⟨e, es, c, rest, hst, -, hrest, rfl⟩ := step_turn hs
    have hmem : e ∈ s.stack := hst ▸ List.mem_cons_self
    have hex : s.Exists c := .inr ⟨e, hmem, hi.copies e hmem c (hrest ▸ List.mem_cons_self)⟩
    intro h'
    apply hc
    intro e₁ he₁ c₁ hc₁
    rw [hst] at he₁
    cases he₁
    rw [hrest] at hc₁
    cases hc₁
    exact (turn_right hi hex (h.stack hmem) hrest route).mp (h'.stack List.mem_cons_self)
  | _ => exact absurd trivial hc

/-- **Exactly when every emit invokes what it should.** Throughout a run the
emits invoke, in order, the connections registered before and not disconnected,
and lose none, exactly when no turn comes of a connection that was disconnected
through the signal and not through its own `Connection` as well. -/
theorem emits_iff {t : List (Label α × State α)} (ht : (lts moved).Trace .init t) :
    LTS.AllStates Agrees .init t ↔ LTS.AllSteps Swept .init t := by
  have hexact : (lts moved).Exact Swept (fun s => Inv s ∧ Agrees s) Agrees :=
    { holds := fun s hi => hi.2
      keeps := fun s l s' hi hc hs => ⟨inv_step hi.1 hs, agrees_step hi.1 hi.2 hc hs⟩
      breaks := fun s l s' hi hc hs => agrees_breaks hi.1 hi.2 hc hs }
  have hinit : Agrees (State.init : State α) := agrees_of_emits inv_init nofun nofun
  exact hexact.allStates_iff ht ⟨inv_init, hinit⟩

/-- Two handlers; the first one disconnects the signal. -/
def clearing : List (Label Unit) :=
  [.connect, .connect, .emit (), .turn .own, .clear, .ret, .turn .own]

theorem clearing_runs : (LTS.record (step id) .init clearing).isSome := by decide

/-- The second handler is invoked all the same. -/
theorem clear_missed : ¬ ∀ t, (lts (id : Unit → Unit)).Trace .init t →
    LTS.AllStates Agrees .init t := by
  intro h
  have hemits := (h _ (LTS.trace_record clearing_runs)).last.emits
  revert hemits
  decide

theorem emits_iff_clearing :
    LTS.AllStates Agrees .init ((LTS.record (step id) .init clearing).get clearing_runs) ↔
      LTS.AllSteps Swept .init ((LTS.record (step id) .init clearing).get clearing_runs) :=
  emits_iff (LTS.trace_record clearing_runs)

/-! ### When the signal is disconnected only between emits -/

/-- No emit in progress has a connected handler to come when the signal is disconnected. -/
def Quiet (s : State α) : Label α → Prop
  | .clear => ∀ e ∈ s.stack, ∀ c ∈ e.rest, s.mConnected c = false
  | _ => True

/-- What an emit still has to take was not disconnected through the signal alone. -/
structure Tidy (s : State α) : Prop where
  inv : Inv s
  listed : ∀ c ∈ s.mConnections, s.cleared c = false
  rest : ∀ e ∈ s.stack, ∀ c ∈ e.rest, s.cleared c = true → s.cut c = true

theorem tidy_step {l : Label α} (h : Tidy s) (hq : Quiet s l) (hs : step moved s l = some s') :
    Tidy s' := by
  refine ⟨inv_step h.inv hs, ?_, ?_⟩
  · cases l with
    | connect =>
      cases hs
      intro c hc
      rcases List.mem_append.mp hc with hc | hc
      · exact h.listed c hc
      · obtain rfl := List.mem_singleton.mp hc
        have hl := h.inv.fresh s.next (Nat.le_refl _)
        simp only [State.live, Bool.and_eq_true, Bool.not_eq_true'] at hl
        exact hl.2
    | cut c => obtain ⟨-, rfl⟩ := step_cut hs; exact h.listed
    | clear => cases hs; exact nofun
    | emit value =>
      obtain rfl := step_emit hs
      exact fun c hc => h.listed c (List.mem_filter.mp hc).1
    | turn route => obtain ⟨e, es, c, rest, -, -, -, rfl⟩ := step_turn hs; exact h.listed
    | ret => obtain ⟨e, es, -, rfl⟩ := step_ret hs; exact h.listed
    | finish => obtain ⟨e, es, -, -, rfl⟩ := step_finish hs; exact h.listed
    | execute i => obtain ⟨d, -, rfl⟩ := step_execute hs; exact h.listed
  · cases l with
    | connect => cases hs; exact h.rest
    | cut c =>
      obtain ⟨-, rfl⟩ := step_cut hs
      intro e he d hd hclr
      have hcut := h.rest e he d hd hclr
      by_cases hdc : d = c
      · subst hdc; exact Function.update_self ..
      · exact (Function.update_of_ne hdc _ _).trans hcut
    | clear =>
      cases hs
      intro e he c hc _
      have hflag := h.inv.flag c (.inr ⟨e, he, h.inv.copies e he c hc⟩)
      rw [hq e he c hc] at hflag
      show s.cut c = true
      simpa using hflag.symm
    | emit value =>
      obtain rfl := step_emit hs
      intro e he c hc hclr
      rcases List.mem_cons.mp he with rfl | he
      · have hno := h.listed c (List.mem_filter.mp hc).1
        exact absurd (hno.symm.trans hclr) nofun
      · exact h.rest e he c hc hclr
    | turn route =>
      obtain ⟨e, es, c, rest, hst, -, hrest, rfl⟩ := step_turn hs
      have hr := h.rest e (hst ▸ List.mem_cons_self)
      exact forall_top hst (fun d hd => hr d (hrest ▸ List.mem_cons_of_mem c hd)) h.rest
    | ret =>
      obtain ⟨e, es, hst, rfl⟩ := step_ret hs
      exact forall_top hst (h.rest e (hst ▸ List.mem_cons_self)) h.rest
    | finish =>
      obtain ⟨e, es, hst, -, rfl⟩ := step_finish hs
      exact forall_below hst h.rest
    | execute i => obtain ⟨d, -, rfl⟩ := step_execute hs; exact h.rest

/-- **A signal that is disconnected only when no emit has a connected handler to
come emits as intended.** -/
theorem swept_of_quiet {t : List (Label α × State α)} (ht : (lts moved).Trace .init t) :
    LTS.AllSteps Quiet .init t → LTS.AllSteps Swept .init t := by
  have hg : (lts moved).Guarded Quiet Tidy :=
    { init := fun s hs => by cases hs; exact ⟨inv_init, nofun, nofun⟩
      step := fun s l s' hi hc hs => tidy_step hi hc hs }
  refine hg.allSteps (fun s l hi _ => ?_) ht ⟨inv_init, nofun, nofun⟩
  cases l with
  | turn route =>
    intro e he c hc
    exact hi.rest e (List.mem_of_mem_head? he) c (List.mem_of_mem_head? hc)
  | _ => exact trivial

end Reckoning.L2.Signal
