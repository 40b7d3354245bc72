import Mathlib.Logic.Function.Basic
import Reckoning.Core.MonitorLive

/-!
# A signal that several threads use

`include/event/Signal.h:85-210`, `include/util/SpinLock.h`, with
`include/event/Loop.h:266-274`. Any number of threads connect, disconnect and
emit, from handlers too, one statement at a time. `emit` copies the connections
one by one under the spin lock, asking each whether it is connected, and drops
the others; it takes its turns without the lock. `Connection::disconnect` only
clears a flag and never locks. A connection belongs to the loop of the thread
that made it (`home`). On that thread, or without a loop, a turn calls the
handler at once; otherwise it posts to the loop, which runs its events in order.

Left out: what the handlers are given (`L2Event.SignalArgs`), the lock of the
event queue (`L2Event.Execute`), moving a signal, and the end of a loop. A
`Connection` that outlives its connection is not told apart: its `disconnect`
clears a flag that nobody reads.

Ghosts: `started`, `ended`, `sent` (the turns taken, in their order), `cleared`,
and in an `Emission` what was so at its call. `L2Event.Signal` is the model for
one thread.

* `next_spec`: everything a statement does.
* `Turns`: the book of one emit; `Global`, `Local`: of the signal and of a thread.
* `Local.own`, `Local.other`: a thread's book is kept by its own statements and
  by those of the others.

What follows of the runs is the subject of `L2Event.SignalOrder`.
-/
namespace Reckoning.L2.SignalThreads
open Reckoning.Monitor

abbrev Conn := Nat

/-- A call of `emit`, and what was so then: the connections made, those whose
flag was cleared, and the emits that had ended. -/
structure Emission (T : Type) where
  number : Nat
  caller : T
  next : Conn
  cut : Conn → Bool
  before : List Nat

/-- The turn of a connection in an emit; `loop`: the thread whose loop it was
posted to. -/
structure Delivery (T : Type) where
  emission : Emission T
  conn : Conn
  loop : Option T

structure Data (T : Type) where
  mConnections : List Conn
  mConnected : Conn → Bool
  /-- the connections are numbered in the order of `connect` -/
  next : Conn
  /-- `mLoop`, by its thread -/
  home : Conn → Option T
  mEvents : T → List (Delivery T)
  received : List (Delivery T)
  started : List (Emission T)
  ended : List (Emission T)
  sent : List (Delivery T)
  cleared : Conn → Bool

/-- Where a thread is. -/
inductive Place (T : Type)
  /-- in code of the user -/
  | user
  | connectLock
  | connect
  | clearLock
  | clear
  /-- the end of `connect` and of `disconnect` -/
  | unlock
  | emitLock (e : Emission T)
  /-- the first loop; `mConnections` is `connections ++ rest` -/
  | scan (e : Emission T) (connections rest : List Conn)
  /-- the second loop -/
  | turns (e : Emission T) (rest : List Conn)
  /-- `conn->invoke` -/
  | invoke (e : Emission T) (c : Conn) (rest : List Conn)

/-- `suspended`: the emits of this thread whose handlers have not returned. -/
structure Pc (T : Type) where
  self : T
  place : Place T
  suspended : List (Emission T × List Conn)

inductive Choice
  | go
  | connect
  /-- `Connection::disconnect` -/
  | cut (c : Conn)
  /-- `Signal::disconnect` -/
  | clear
  | emit
  /-- the handler returns -/
  | ret
  /-- the loop of this thread runs its next event -/
  | execute
  deriving DecidableEq, Repr

variable {T : Type} [DecidableEq T]

def Data.init : Data T :=
  ⟨[], fun _ => true, 0, fun _ => none, fun _ => [], [], [], [], [], fun _ => false⟩

/-! ## The code -/

/-- mirrors include/event/Signal.h:205-208; `hasLoop`: `Loop::loop()` is one. -/
def Data.connect (hasLoop : T → Bool) (self : T) (d : Data T) : Data T :=
  { d with
    mConnections := d.mConnections ++ [d.next]
    next := d.next + 1
    home := Function.update d.home d.next (if hasLoop self then some self else none) }

/-- mirrors include/event/Signal.h:97-100 -/
def Data.cut (c : Conn) (d : Data T) : Data T :=
  { d with mConnected := Function.update d.mConnected c false }

/-- mirrors include/event/Signal.h:167 -/
def Data.clear (d : Data T) : Data T :=
  { d with mConnections := [], cleared := fun c => d.cleared c || decide (c < d.next) }

/-- A call of `emit`. -/
def Data.emission (self : T) (d : Data T) : Emission T :=
  ⟨d.started.length, self, d.next, fun c => !d.mConnected c, d.ended.map Emission.number⟩

/-- The turn of `c`: a call, or an event of the loop.
mirrors include/event/Signal.h:86-94, include/event/Loop.h:266-274 -/
def Data.invoke (self : T) (e : Emission T) (c : Conn) (d : Data T) : Data T :=
  match d.home c with
  | none => { d with sent := d.sent ++ [⟨e, c, none⟩], received := d.received ++ [⟨e, c, none⟩] }
  | some u =>
    if u = self then
      { d with sent := d.sent ++ [⟨e, c, none⟩], received := d.received ++ [⟨e, c, none⟩] }
    else
      { d with
        sent := d.sent ++ [⟨e, c, some u⟩]
        mEvents := Function.update d.mEvents u (d.mEvents u ++ [⟨e, c, some u⟩]) }

/-- The handler is called at once. -/
def Data.calls (self : T) (c : Conn) (d : Data T) : Bool :=
  match d.home c with
  | none => true
  | some u => decide (u = self)

/-- mirrors include/event/Signal.h:85-210 -/
def next (hasLoop : T → Bool) (pc : Pc T) (d : Data T) (x : Choice) :
    Option (Op × Pc T × Data T) :=
  match pc.place, x with
  | .user, .connect => some (.plain, { pc with place := .connectLock }, d)
  | .user, .clear => some (.plain, { pc with place := .clearLock }, d)
  | .user, .cut c => if c < d.next then some (.plain, pc, d.cut c) else none
  | .user, .emit =>
    some (.plain, { pc with place := .emitLock (d.emission pc.self) },
      { d with started := d.started ++ [d.emission pc.self] })
  | .user, .ret =>
    match pc.suspended with
    | (e, rest) :: es => some (.plain, { pc with place := .turns e rest, suspended := es }, d)
    | [] => none
  | .user, .execute =>
    match pc.suspended, d.mEvents pc.self with
    | [], y :: ys =>
      some (.plain, pc, { d with
        received := d.received ++ [y], mEvents := Function.update d.mEvents pc.self ys })
    | _, _ => none
  | .connectLock, .go => some (.lock, { pc with place := .connect }, d)
  | .connect, .go => some (.plain, { pc with place := .unlock }, d.connect hasLoop pc.self)
  | .clearLock, .go => some (.lock, { pc with place := .clear }, d)
  | .clear, .go => some (.plain, { pc with place := .unlock }, d.clear)
  | .unlock, .go => some (.unlock, { pc with place := .user }, d)
  | .emitLock e, .go => some (.lock, { pc with place := .scan e [] d.mConnections }, d)
  | .scan e connections (c :: rest), .go =>
    if d.mConnected c then some (.plain, { pc with place := .scan e (connections ++ [c]) rest }, d)
    else
      some (.plain, { pc with place := .scan e connections rest },
        { d with mConnections := connections ++ rest })
  | .scan e connections [], .go => some (.unlock, { pc with place := .turns e connections }, d)
  | .turns e (c :: rest), .go =>
    if d.mConnected c then some (.plain, { pc with place := .invoke e c rest }, d)
    else some (.plain, { pc with place := .turns e rest }, d)
  | .turns e [], .go => some (.plain, { pc with place := .user }, { d with ended := d.ended ++ [e] })
  | .invoke e c rest, .go =>
    if d.calls pc.self c then
      some (.plain, { pc with place := .user, suspended := (e, rest) :: pc.suspended },
        d.invoke pc.self e c)
    else some (.plain, { pc with place := .turns e rest }, d.invoke pc.self e c)
  | _, _ => none

/-- The thread holds `mLock`. -/
def Place.inside : Place T → Bool
  | .connect | .clear | .unlock | .scan _ _ _ => true
  | _ => false

def program (hasLoop : T → Bool) : Program (Pc T) (Data T) Choice :=
  ⟨next hasLoop, fun pc => pc.place.inside⟩

def State.init : State T (Pc T) (Data T) := ⟨none, [], fun t => ⟨t, .user, []⟩, .init⟩

def signal (hasLoop : T → Bool) : LTS (State T (Pc T) (Data T)) (Label T Choice) :=
  system (program hasLoop) (· = State.init)

/-! ## One statement -/

variable {hasLoop : T → Bool} {pc pc' : Pc T} {d d' : Data T} {op : Op} {x : Choice}

/-- Everything a statement does. -/
inductive Statement (hasLoop : T → Bool) (t : T) (d : Data T) :
    Place T → List (Emission T × List Conn) → Op →
    Place T → List (Emission T × List Conn) → Data T → Prop
  | call {es} (p : Place T) (hp : p = .connectLock ∨ p = .clearLock) :
      Statement hasLoop t d .user es .plain p es d
  | cut {es} (c : Conn) (hc : c < d.next) :
      Statement hasLoop t d .user es .plain .user es (d.cut c)
  | emit {es} : Statement hasLoop t d .user es .plain (.emitLock (d.emission t)) es
      { d with started := d.started ++ [d.emission t] }
  | ret (e : Emission T) (rest : List Conn) (es : List (Emission T × List Conn)) :
      Statement hasLoop t d .user ((e, rest) :: es) .plain (.turns e rest) es d
  | execute (y : Delivery T) (ys : List (Delivery T)) (hy : d.mEvents t = y :: ys) :
      Statement hasLoop t d .user [] .plain .user []
        { d with received := d.received ++ [y], mEvents := Function.update d.mEvents t ys }
  | lock {es} (p q : Place T) (hp : (p = .connectLock ∧ q = .connect) ∨
      (p = .clearLock ∧ q = .clear) ∨ ∃ e, p = .emitLock e ∧ q = .scan e [] d.mConnections) :
      Statement hasLoop t d p es .lock q es d
  | connect {es} : Statement hasLoop t d .connect es .plain .unlock es (d.connect hasLoop t)
  | clear {es} : Statement hasLoop t d .clear es .plain .unlock es d.clear
  | unlock {es} : Statement hasLoop t d .unlock es .unlock .user es d
  | keep {es} (e : Emission T) (connections : List Conn) (c : Conn) (rest : List Conn)
      (hc : d.mConnected c = true) :
      Statement hasLoop t d (.scan e connections (c :: rest)) es .plain
        (.scan e (connections ++ [c]) rest) es d
  | erase {es} (e : Emission T) (connections : List Conn) (c : Conn) (rest : List Conn)
      (hc : d.mConnected c = false) :
      Statement hasLoop t d (.scan e connections (c :: rest)) es .plain
        (.scan e connections rest) es { d with mConnections := connections ++ rest }
  | scanned {es} (e : Emission T) (connections : List Conn) :
      Statement hasLoop t d (.scan e connections []) es .unlock (.turns e connections) es d
  | check {es} (e : Emission T) (c : Conn) (rest : List Conn) (hc : d.mConnected c = true) :
      Statement hasLoop t d (.turns e (c :: rest)) es .plain (.invoke e c rest) es d
  | skip {es} (e : Emission T) (c : Conn) (rest : List Conn) (hc : d.mConnected c = false) :
      Statement hasLoop t d (.turns e (c :: rest)) es .plain (.turns e rest) es d
  | finish {es} (e : Emission T) :
      Statement hasLoop t d (.turns e []) es .plain .user es { d with ended := d.ended ++ [e] }
  | direct {es} (e : Emission T) (c : Conn) (rest : List Conn)
      (hc : d.home c = none ∨ d.home c = some t) :
      Statement hasLoop t d (.invoke e c rest) es .plain .user ((e, rest) :: es)
        { d with sent := d.sent ++ [⟨e, c, none⟩], received := d.received ++ [⟨e, c, none⟩] }
  | post {es} (e : Emission T) (c : Conn) (rest : List Conn) (u : T) (hc : d.home c = some u)
      (hu : u ≠ t) :
      Statement hasLoop t d (.invoke e c rest) es .plain (.turns e rest) es
        { d with
          sent := d.sent ++ [⟨e, c, some u⟩]
          mEvents := Function.update d.mEvents u (d.mEvents u ++ [⟨e, c, some u⟩]) }

theorem next_spec (h : (program hasLoop).next pc d x = some (op, pc', d')) :
    pc'.self = pc.self ∧
      Statement hasLoop pc.self d pc.place pc.suspended op pc'.place pc'.suspended d' := by
  obtain ⟨t, place, suspended⟩ := pc
  simp only [program, next] at h
  split at h
  case h_1 => cases h; exact ⟨rfl, .call _ (.inl rfl)⟩
  case h_2 => cases h; exact ⟨rfl, .call _ (.inr rfl)⟩
  case h_3 => split at h <;> cases h; exact ⟨rfl, .cut _ ‹_›⟩
  case h_4 => cases h; exact ⟨rfl, .emit⟩
  case h_5 => -- ret
    split at h <;> cases h
    exact ⟨rfl, .ret _ _ _⟩
  case h_6 => -- execute
    split at h
    · cases h; exact ⟨rfl, .execute _ _ ‹_›⟩
    · cases h
  case h_7 => cases h; exact ⟨rfl, .lock _ _ (.inl ⟨rfl, rfl⟩)⟩
  case h_8 => cases h; exact ⟨rfl, .connect⟩
  case h_9 => cases h; exact ⟨rfl, .lock _ _ (.inr (.inl ⟨rfl, rfl⟩))⟩
  case h_10 => cases h; exact ⟨rfl, .clear⟩
  case h_11 => cases h; exact ⟨rfl, .unlock⟩
  case h_12 => cases h; exact ⟨rfl, .lock _ _ (.inr (.inr ⟨_, rfl, rfl⟩))⟩
  case h_13 => -- scan
    split at h <;> cases h
    · exact ⟨rfl, .keep _ _ _ _ ‹_›⟩
    · exact ⟨rfl, .erase _ _ _ _ (Bool.eq_false_iff.mpr ‹_›)⟩
  case h_14 => cases h; exact ⟨rfl, .scanned _ _⟩
  case h_15 => -- turns
    split at h <;> cases h
    · exact ⟨rfl, .check _ _ _ ‹_›⟩
    · exact ⟨rfl, .skip _ _ _ (Bool.eq_false_iff.mpr ‹_›)⟩
  case h_16 => cases h; exact ⟨rfl, .finish _⟩
  case h_17 e c rest => -- invoke
    cases hhome : d.home c with
    | none =>
      simp only [Data.calls, Data.invoke, hhome, if_true] at h
      cases h
      exact ⟨rfl, .direct e c rest (.inl hhome)⟩
    | some u =>
      by_cases hu : u = t
      · subst hu
        simp only [Data.calls, Data.invoke, hhome, decide_true, if_true] at h
        cases h
        exact ⟨rfl, .direct e c rest (.inr hhome)⟩
      · simp only [Data.calls, Data.invoke, hhome, decide_eq_true_eq, if_neg hu] at h
        cases h
        exact ⟨rfl, .post e c rest u hhome hu⟩
  case h_18 => cases h

theorem Statement.keeps {t : T} {p p' : Place T} {es es' : List (Emission T × List Conn)}
    (h : Statement hasLoop t d p es op p' es' d') : op.Keeps p.inside p'.inside := by
  cases h with
  | call p hp => rcases hp with rfl | rfl <;> rfl
  | lock p q hp => rcases hp with ⟨rfl, rfl⟩ | ⟨rfl, rfl⟩ | ⟨e, rfl, rfl⟩ <;> exact ⟨rfl, rfl⟩
  | unlock | scanned => exact ⟨rfl, rfl⟩
  | cut | emit | ret | execute | connect | clear | keep | erase | check | skip | finish | direct
  | post => rfl

theorem disciplined (hasLoop : T → Bool) : Disciplined (program hasLoop) := by
  intro pc d x op pc' d' h
  exact (next_spec h).2.keeps

/-! ## The books -/

/-- How many of the turns are those of the connection `c` in the emit `n`. -/
def turnsOf (sent : List (Delivery T)) (n : Nat) (c : Conn) : Nat :=
  sent.countP fun y => y.emission.number == n && y.conn == c

def Data.turned (d : Data T) (n : Nat) (c : Conn) : Nat := turnsOf d.sent n c

/-- Not disconnected. -/
def Data.live (d : Data T) (c : Conn) : Prop := d.mConnected c = true ∧ d.cleared c = false

/-- The emit `e` has `todo` still to come: what was disconnected before it has
no turn, nothing has two, and what was connected and still is has one. -/
structure Turns (e : Emission T) (todo : List Conn) (d : Data T) : Prop where
  nodup : todo.Nodup
  made : ∀ c ∈ todo, c < d.next
  fresh : ∀ c ∈ todo, d.turned e.number c = 0
  uncut : ∀ c, c ∈ todo ∨ 0 < d.turned e.number c → e.cut c = false
  once : ∀ c, d.turned e.number c ≤ 1
  all : ∀ c < e.next, d.live c → c ∈ todo ∨ 0 < d.turned e.number c

/-- The first loop of `e` has kept `connections`. -/
structure Scan (e : Emission T) (connections rest : List Conn) (d : Data T) : Prop where
  list : d.mConnections = connections ++ rest
  fresh : ∀ c, d.turned e.number c = 0
  uncut : ∀ c ∈ connections, e.cut c = false

/-- `e` is what its call says, and has not ended. -/
structure Active (t : T) (e : Emission T) (d : Data T) : Prop where
  started : d.started[e.number]? = some e
  caller : e.caller = t
  running : e.number ∉ d.ended.map Emission.number

def Place.emission : Place T → Option (Emission T)
  | .emitLock e | .scan e _ _ | .turns e _ | .invoke e _ _ => some e
  | _ => none

/-- The emits of a thread that have not ended. -/
def emissions (p : Place T) (es : List (Emission T × List Conn)) : List (Emission T) :=
  p.emission.toList ++ es.map Prod.fst

def Place.Ok (p : Place T) (d : Data T) : Prop :=
  match p with
  | .emitLock e => ∀ c, d.turned e.number c = 0
  | .scan e connections rest => Scan e connections rest d
  | .turns e rest => Turns e rest d
  | .invoke e c rest => Turns e (c :: rest) d
  | _ => True

/-- What is true of the thread `t` at `p`. -/
structure Local (t : T) (p : Place T) (es : List (Emission T × List Conn)) (d : Data T) : Prop where
  place : p.Ok d
  suspended : ∀ z ∈ es, Turns z.1 z.2 d
  active : ∀ e ∈ emissions p es, Active t e d
  distinct : ((emissions p es).map Emission.number).Nodup

/-- The first turn may be received after the second, where both are of one
connection and the emit of the second had ended before that of the first was
called: then it is a call on the loop's own thread, and overtakes a post. -/
def Follows (x y : Delivery T) : Prop :=
  y.conn = x.conn → y.emission.number ∈ x.emission.before → x.loop = none ∧ y.loop ≠ none

/-- What is true of a turn that has been taken. -/
structure Known (y : Delivery T) (d : Data T) : Prop where
  started : d.started[y.emission.number]? = some y.emission
  conn : y.conn < d.next
  home : ∀ u, y.loop = some u → d.home y.conn = some u
  before : ∀ m ∈ y.emission.before, m ∈ d.ended.map Emission.number

/-- Each loop runs what was posted to it, in the order of the posts, and no
handler receives what it should not (`Follows`). -/
structure Ordered (d : Data T) : Prop where
  fifo : ∀ u, d.received.filter (·.loop == some u) ++ d.mEvents u = d.sent.filter (·.loop == some u)
  taken : ∀ y ∈ d.received, y ∈ d.sent
  order : d.received.Pairwise Follows
  queued : ∀ u, ∀ x ∈ d.received, ∀ y ∈ d.mEvents u, Follows x y
  queue : ∀ u, (d.mEvents u).Pairwise fun x y => y.emission.number ∉ x.emission.before

/-- What is true of the shared data. -/
structure Global (d : Data T) : Prop where
  nodup : d.mConnections.Nodup
  listed : ∀ c ∈ d.mConnections, c < d.next
  kept : ∀ c < d.next, d.live c → c ∈ d.mConnections
  finished : ∀ e ∈ d.ended, d.started[e.number]? = some e ∧ Turns e [] d
  calls : ∀ e ∈ d.started, e.next ≤ d.next ∧ (∀ c, e.cut c = true → d.mConnected c = false) ∧
    ∀ m ∈ e.before, m ∈ d.ended.map Emission.number
  known : ∀ y ∈ d.sent, Known y d
  ordered : Ordered d

/-! ## What a statement leaves alone -/

/-- A statement of an emit `o`, or of none, as the other emits see it. -/
structure Effect (o : Option (Emission T)) (d d' : Data T) : Prop where
  started : d.started <+: d'.started
  next : d.next ≤ d'.next
  home : ∀ c < d.next, d'.home c = d.home c
  live : ∀ c, d'.live c → d.live c
  flag : ∀ c, d.mConnected c = false → d'.mConnected c = false
  ended : d.ended <+: d'.ended
  ends : ∀ m ∈ d'.ended.map Emission.number,
    m ∈ d.ended.map Emission.number ∨ ∃ e, o = some e ∧ e.number = m
  sent : ∀ y ∈ d'.sent, y ∈ d.sent ∨ o = some y.emission
  turned : ∀ n, (∀ e, o = some e → e.number ≠ n) → ∀ c, d'.turned n c = d.turned n c

omit [DecidableEq T] in
theorem turnsOf_snoc (sent : List (Delivery T)) (y : Delivery T) (n : Nat) (c : Conn) :
    turnsOf (sent ++ [y]) n c =
      turnsOf sent n c + if y.emission.number = n ∧ y.conn = c then 1 else 0 := by
  simp [turnsOf, List.countP_append, List.countP_cons]

variable {t u : T} {p p' : Place T} {es es' : List (Emission T × List Conn)}

theorem Statement.effect (h : Statement hasLoop t d p es op p' es' d') :
    Effect p.emission d d' := by
  have same : ∀ o, Effect o d d := fun o =>
    ⟨List.prefix_rfl, Nat.le_refl _, fun _ _ => rfl, fun _ => id, fun _ => id, List.prefix_rfl,
      fun _ => .inl, fun _ => .inl, fun _ _ _ => rfl⟩
  have hsame := same p.emission
  cases h with
  | call | ret | lock | unlock | keep | scanned | check | skip => exact hsame
  | cut c hc =>
    refine { hsame with live := fun c' hl => ?_, flag := fun c' hf => ?_ }
    · by_cases he : c' = c
      · subst he; simp [Data.live, Data.cut] at hl
      · simpa [Data.live, Data.cut, he] using hl
    · by_cases he : c' = c
      · subst he; simp [Data.cut]
      · simpa [Data.cut, he] using hf
  | emit => exact { hsame with started := List.prefix_append _ _ }
  | execute y ys hy => exact { hsame with }
  | connect =>
    refine { hsame with next := Nat.le_succ _, home := fun c hc => ?_ }
    simp [Data.connect, Nat.ne_of_lt hc]
  | clear =>
    refine { hsame with live := fun c hl => ⟨hl.1, ?_⟩ }
    have := hl.2
    simp only [Data.clear, Bool.or_eq_false_iff] at this
    exact this.1
  | erase => exact { hsame with }
  | finish e =>
    refine { hsame with ended := List.prefix_append _ _, ends := fun m hm => ?_ }
    simp only [List.map_append, List.mem_append, List.map_cons, List.map_nil,
      List.mem_singleton] at hm
    exact hm.imp id fun h => ⟨e, rfl, h.symm⟩
  | direct e c rest hc =>
    refine { hsame with sent := fun y hy => ?_, turned := fun n hn c' => ?_ }
    · rcases List.mem_append.mp hy with hy | hy
      · exact .inl hy
      · obtain rfl := List.mem_singleton.mp hy
        exact .inr rfl
    · rw [Data.turned, turnsOf_snoc, if_neg fun h => hn e rfl h.1]
      rfl
  | post e c rest u hc hu =>
    refine { hsame with sent := fun y hy => ?_, turned := fun n hn c' => ?_ }
    · rcases List.mem_append.mp hy with hy | hy
      · exact .inl hy
      · obtain rfl := List.mem_singleton.mp hy
        exact .inr rfl
    · rw [Data.turned, turnsOf_snoc, if_neg fun h => hn e rfl h.1]
      rfl

omit [DecidableEq T] in
theorem Turns.effect {o : Option (Emission T)} {e : Emission T} {todo : List Conn}
    (h : Turns e todo d) (heff : Effect o d d') (hne : ∀ e', o = some e' → e'.number ≠ e.number) :
    Turns e todo d' := by
  have hturned := heff.turned e.number hne
  refine ⟨h.nodup, fun c hc => Nat.lt_of_lt_of_le (h.made c hc) heff.next, ?_, ?_, ?_, ?_⟩
  · intro c hc
    rw [hturned]; exact h.fresh c hc
  · intro c hc
    rw [hturned] at hc; exact h.uncut c hc
  · intro c
    rw [hturned]; exact h.once c
  · intro c hc hl
    rw [hturned]; exact h.all c hc (heff.live c hl)

omit [DecidableEq T] in
theorem Active.effect {o : Option (Emission T)} {e : Emission T} (h : Active t e d)
    (heff : Effect o d d') (hne : ∀ e', o = some e' → e'.number ≠ e.number) : Active t e d' where
  started := by
    obtain ⟨l, hl⟩ := heff.started
    rw [← hl, List.getElem?_append_left (List.getElem?_eq_some_iff.mp h.started).1]
    exact h.started
  caller := h.caller
  running hm := by
    rcases heff.ends _ hm with hm | ⟨e', ho, heq⟩
    · exact h.running hm
    · exact hne e' ho heq

omit [DecidableEq T] in
/-- The emits of two threads have different numbers. -/
theorem Active.ne {e e' : Emission T} (h : Active t e d) (h' : Active u e' d) (hut : u ≠ t) :
    e.number ≠ e'.number := by
  intro heq
  have := h.started
  rw [heq, h'.started] at this
  cases this
  exact hut (h'.caller.symm.trans h.caller)

/-- Outside the lock a statement leaves `mConnections` alone. -/
theorem Statement.list (h : Statement hasLoop t d p es op p' es' d')
    (hp : p.inside = false) : d'.mConnections = d.mConnections := by
  cases h with
  | connect | clear | erase => cases hp
  | _ => rfl

/-- What is true of a thread stays true when another one takes a step. -/
theorem Local.other {q : Place T} {fs : List (Emission T × List Conn)} (hl : Local u q fs d)
    (hut : u ≠ t) (hown : ∀ e, p.emission = some e → Active t e d)
    (h : Statement hasLoop t d p es op p' es' d') (hin : p.inside = true → q.inside = false) :
    Local u q fs d' := by
  have heff := h.effect
  have hne : ∀ e ∈ emissions q fs, ∀ e', p.emission = some e' → e'.number ≠ e.number :=
    fun e he e' ho => (hown e' ho).ne (hl.active e he) hut
  refine ⟨?_, ?_, fun e he => (hl.active e he).effect heff (hne e he), hl.distinct⟩
  · have hplace := hl.place
    cases q with
    | user | connectLock | connect | clearLock | clear | unlock => trivial
    | emitLock e =>
      exact fun c => (heff.turned e.number (hne e (List.mem_cons_self ..)) c).trans (hplace c)
    | scan e connections rest =>
      have hout : p.inside = false := Bool.eq_false_iff.mpr fun hp => by cases hin hp
      exact ⟨(h.list hout).trans hplace.list, fun c =>
        (heff.turned e.number (hne e (List.mem_cons_self ..)) c).trans (hplace.fresh c), hplace.uncut⟩
    | turns e rest => exact Turns.effect hplace heff (hne e (List.mem_cons_self ..))
    | invoke e c rest => exact Turns.effect hplace heff (hne e (List.mem_cons_self ..))
  · intro z hz
    refine (hl.suspended z hz).effect heff (hne z.1 ?_)
    exact List.mem_append_right _ (List.mem_map_of_mem hz)

omit [DecidableEq T] in
/-- The turn of `c`. -/
theorem Turns.turn {e : Emission T} {c : Conn} {rest : List Conn} (h : Turns e (c :: rest) d)
    (hd : d'.next = d.next) (hlive : ∀ c, d'.live c → d.live c)
    (hturned : ∀ c', d'.turned e.number c' = d.turned e.number c' + if c = c' then 1 else 0) :
    Turns e rest d' := by
  have hnodup := List.nodup_cons.mp h.nodup
  have hzero := h.fresh c (List.mem_cons_self ..)
  refine ⟨hnodup.2, fun c' hc => hd ▸ h.made c' (List.mem_cons_of_mem _ hc), ?_, ?_, ?_, ?_⟩
  · intro c' hc'
    rw [hturned, h.fresh c' (List.mem_cons_of_mem _ hc'), if_neg]
    rintro rfl
    exact hnodup.1 hc'
  · intro c' hc'
    refine h.uncut c' ?_
    rcases hc' with hc' | hc'
    · exact .inl (List.mem_cons_of_mem _ hc')
    · rw [hturned] at hc'
      by_cases he : c = c'
      · exact .inl (he ▸ List.mem_cons_self ..)
      · rw [if_neg he] at hc'
        exact .inr hc'
  · intro c'
    rw [hturned]
    by_cases he : c = c'
    · subst he
      simp [hzero]
    · rw [if_neg he]
      exact h.once c'
  · intro c' hc' hl
    rw [hturned]
    rcases h.all c' (by simpa using hc') (hlive c' hl) with hm | hm
    · rcases List.mem_cons.mp hm with rfl | hm
      · exact .inr (by simp)
      · exact .inl hm
    · exact .inr (Nat.lt_of_lt_of_le hm (Nat.le_add_right _ _))

omit [DecidableEq T] in
/-- A connection that is disconnected loses its turn. -/
theorem Turns.skip {e : Emission T} {c : Conn} {rest : List Conn} (h : Turns e (c :: rest) d)
    (hc : d.mConnected c = false) : Turns e rest d := by
  refine ⟨(List.nodup_cons.mp h.nodup).2, fun c' hc' => h.made c' (List.mem_cons_of_mem _ hc'),
    fun c' hc' => h.fresh c' (List.mem_cons_of_mem _ hc'),
    fun c' hc' => h.uncut c' (hc'.imp_left (List.mem_cons_of_mem _)), h.once, fun c' hc' hl => ?_⟩
  rcases h.all c' hc' hl with hm | hm
  · rcases List.mem_cons.mp hm with rfl | hm
    · exact absurd hl.1 (by simp [hc])
    · exact .inl hm
  · exact .inr hm

omit [DecidableEq T] in
/-- The numbers of this thread's other emits are not that of the one at `p`. -/
theorem Local.suspended_ne {e : Emission T} (hl : Local t p es d) (hp : p.emission = some e)
    {z : Emission T × List Conn} (hz : z ∈ es) : e.number ≠ z.1.number := by
  have h := hl.distinct
  simp only [emissions, hp, Option.toList_some, List.singleton_append, List.map_cons,
    List.nodup_cons, List.mem_map, not_exists, not_and] at h
  exact fun heq => h.1 z.1 ⟨z, hz, rfl⟩ heq.symm

omit [DecidableEq T] in
/-- A statement that neither calls `emit` nor ends one. -/
theorem Local.moves (hl : Local t p es d) (heff : Effect p.emission d d')
    (hsame : emissions p' es' = emissions p es) (hended : d'.ended = d.ended)
    (hplace : p'.Ok d') (hsus : ∀ z ∈ es', Turns z.1 z.2 d') : Local t p' es' d' := by
  refine ⟨hplace, hsus, fun e he => ?_, hsame ▸ hl.distinct⟩
  have hact := hl.active e (hsame ▸ he)
  obtain ⟨l, hstarted⟩ := heff.started
  refine ⟨?_, hact.caller, hended ▸ hact.running⟩
  rw [← hstarted, List.getElem?_append_left (List.getElem?_eq_some_iff.mp hact.started).1]
  exact hact.started

/-- The call of `emit`. -/
theorem local_emit (hg : Global d) (hl : Local t .user es d) :
    Local t (.emitLock (d.emission t)) es { d with started := d.started ++ [d.emission t] } := by
  have hemit : Statement (fun _ : T => false) t d .user es .plain _ es _ := .emit
  have heff := hemit.effect
  have hnone : ∀ n c, d.started.length ≤ n → d.turned n c = 0 := by
    intro n c hn
    refine List.countP_eq_zero.mpr fun y hy => ?_
    have hlt := (List.getElem?_eq_some_iff.mp (hg.known y hy).started).1
    have hne : y.emission.number ≠ n := by omega
    simp [hne]
  have hold : ∀ e ∈ emissions .user es, e.number < d.started.length := fun e he =>
    (List.getElem?_eq_some_iff.mp (hl.active e he).started).1
  refine ⟨fun c => hnone _ c (Nat.le_refl _), fun z hz => (hl.suspended z hz).effect heff nofun,
    ?_, ?_⟩
  · intro e he
    rcases List.mem_cons.mp he with rfl | he
    · refine ⟨by simp [Data.emission], rfl, fun hm => ?_⟩
      obtain ⟨e', he', heq⟩ := List.mem_map.mp hm
      have hlt := (List.getElem?_eq_some_iff.mp (hg.finished e' he').1).1
      rw [heq] at hlt
      exact Nat.lt_irrefl _ hlt
    · exact (hl.active e he).effect heff nofun
  · refine List.nodup_cons.mpr ⟨fun hm => ?_, hl.distinct⟩
    obtain ⟨e', he', heq⟩ := List.mem_map.mp hm
    have hlt := hold e' he'
    rw [heq] at hlt
    exact Nat.lt_irrefl _ hlt

/-- The end of an emit. -/
theorem local_finish {e : Emission T} (hl : Local t (.turns e []) es d) :
    Local t .user es { d with ended := d.ended ++ [e] } := by
  have hfinish : Statement (fun _ : T => false) t d (.turns e []) es .plain .user es _ := .finish e
  have heff := hfinish.effect
  have hne : ∀ e' ∈ emissions .user es, ∀ e₁, (Place.turns e []).emission = some e₁ →
      e₁.number ≠ e'.number := by
    intro e' he' e₁ he₁
    obtain ⟨z, hz, rfl⟩ := List.mem_map.mp he'
    exact hl.suspended_ne he₁ hz
  refine ⟨trivial, fun z hz => (hl.suspended z hz).effect heff (hne z.1 (List.mem_map_of_mem hz)),
    fun e' he' => (hl.active e' (List.mem_cons_of_mem _ he')).effect heff (hne e' he'), ?_⟩
  exact (List.nodup_cons.mp hl.distinct).2

/-- What is true of a thread stays true when it takes a step. -/
theorem Local.own (hg : Global d) (hl : Local t p es d)
    (h : Statement hasLoop t d p es op p' es' d') : Local t p' es' d' := by
  have heff := h.effect
  have hsus : ∀ z ∈ es, Turns z.1 z.2 d' := fun z hz =>
    (hl.suspended z hz).effect heff fun e he => hl.suspended_ne he hz
  have hplace := hl.place
  cases h with
  | call q hq => rcases hq with rfl | rfl <;> exact hl.moves heff rfl rfl trivial hsus
  | cut | execute | connect | clear | unlock => exact hl.moves heff rfl rfl trivial hsus
  | emit => exact local_emit hg hl
  | ret e rest =>
    exact hl.moves heff rfl rfl (hsus (e, rest) (List.mem_cons_self ..))
      fun z hz => hsus z (List.mem_cons_of_mem _ hz)
  | lock q q' hq =>
    rcases hq with ⟨rfl, rfl⟩ | ⟨rfl, rfl⟩ | ⟨e, rfl, rfl⟩
    · exact hl.moves heff rfl rfl trivial hsus
    · exact hl.moves heff rfl rfl trivial hsus
    · exact hl.moves heff rfl rfl ⟨rfl, hplace, by simp⟩ hsus
  | keep e connections c rest hc =>
    refine hl.moves heff rfl rfl ⟨by simp [hplace.list], hplace.fresh, fun c' hc' => ?_⟩ hsus
    rcases List.mem_append.mp hc' with hc' | hc'
    · exact hplace.uncut c' hc'
    · -- the flag was not cleared before the call, as it is not cleared now
      obtain rfl := List.mem_singleton.mp hc'
      have hact := hl.active e (List.mem_cons_self ..)
      have hcalls := hg.calls e (List.mem_of_getElem? hact.started)
      exact Bool.eq_false_iff.mpr fun hcut => by
        rw [hcalls.2.1 c' hcut] at hc
        cases hc
  | erase e connections c rest hc =>
    exact hl.moves heff rfl rfl ⟨rfl, hplace.fresh, hplace.uncut⟩ hsus
  | scanned e connections =>
    have hlist : d.mConnections = connections := hplace.list.trans (List.append_nil _)
    have hnot : ∀ c, ¬ 0 < d.turned e.number c := fun c hpos => by
      rw [hplace.fresh c] at hpos; cases hpos
    have hact := hl.active e (List.mem_cons_self ..)
    have hcalls := hg.calls e (List.mem_of_getElem? hact.started)
    refine hl.moves heff rfl rfl ⟨hlist ▸ hg.nodup, fun c hc => hg.listed c (hlist ▸ hc),
      fun c _ => hplace.fresh c, fun c hc => hplace.uncut c (hc.resolve_right (hnot c)),
      fun c => ?_, fun c hc hlive => ?_⟩ hsus
    · rw [hplace.fresh c]; exact Nat.zero_le _
    · exact .inl (hlist ▸ hg.kept c (Nat.lt_of_lt_of_le hc hcalls.1) hlive)
  | check => exact hl.moves heff rfl rfl hplace hsus
  | skip e c rest hc => exact hl.moves heff rfl rfl (Turns.skip hplace hc) hsus
  | finish e => exact local_finish hl
  | direct e c rest hc =>
    have hturn : Turns e rest { d with
        sent := d.sent ++ [⟨e, c, none⟩], received := d.received ++ [⟨e, c, none⟩] } := by
      refine Turns.turn hplace rfl (fun _ => id) fun c' => ?_
      rw [Data.turned, turnsOf_snoc]
      simp [Data.turned]
    refine hl.moves heff rfl rfl trivial fun z hz => ?_
    rcases List.mem_cons.mp hz with rfl | hz
    · exact hturn
    · exact hsus z hz
  | post e c rest u hc hu =>
    refine hl.moves heff rfl rfl (Turns.turn hplace rfl (fun _ => id) fun c' => ?_) hsus
    rw [Data.turned, turnsOf_snoc]
    simp [Data.turned]

end Reckoning.L2.SignalThreads
