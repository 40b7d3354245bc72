import Reckoning.L4Net.TcpConnected

/-!
# No connection is lost in silence

A socket in Plain mode drops its descriptors in many places: an error event,
a failed attempt, the peer's close, a failing read or write. `Watch` runs the
machine of `TcpSocket` and keeps beside it what has been said of each
descriptor: the first `Closed` or `Error` emitted since it was opened. `Heard`
is the promise made to the user:

* when the last open descriptor goes other than by `close()`, a `Closed` or
  `Error` has been emitted for it and `mState` holds it (`loss`);
* none of them is emitted without an open descriptor it reports on (`once`);
* nothing is emitted after `close()`, before the next attempt (`quiet`).

The code keeps it only in the runs whose steps all meet `Keeps`:

* no error event on the only open descriptor (`FdError` closes it and says
  nothing, where every failing read or write emits `Error`);
* a write that fails finds a descriptor that has not been reported on: when a
  handler has closed the socket, the branch it interrupted goes on with the
  descriptor -1 or a stale one, and reports the failure;
* the `FdWrite` part in state `Connecting` finds a descriptor open, for the
  same reason;
* the close that ends a failed attempt, and the one of the superseded attempt,
  leave nothing unreported behind: a handler may have opened a new descriptor
  in the same place.

`settles_step` is one step, `no_silent_loss_iff` the runs.
-/
namespace Reckoning.L4.TcpLoss
open Reckoning.L4.TcpSocket
open Reckoning.L4.TcpConnected (Mine BothOpen)

/-! ## What the user hears -/

/-- The states that report the end of a connection. -/
def final : State → Bool
  | .closed | .error => true
  | _ => false

structure Watch where
  cfg : Cfg
  /-- the first `Closed` or `Error` since the descriptor was opened -/
  told : Family → Option State
  /-- the last descriptor has gone, and what had been said of it then -/
  gone : Option (Option State)
  /-- the user has called `close()`, and made no attempt since -/
  closed : Bool
  /-- a `Closed` or `Error` was emitted that reports on no descriptor -/
  surplus : Bool
  /-- a state change was emitted after `close()` -/
  late : Bool

/-- Before the first attempt. -/
def start (c : Cfg) : Watch := ⟨c, fun _ => none, none, false, false, false⟩

/-- The state change of a step, if it makes one. -/
def emitted (c c' : Cfg) : Option State := c'.out.states[c.out.states.length]?

/-- The family whose descriptor the call opens; the others return at once. -/
def opens (c : Cfg) : Label → Option Family
  | .call (.connect f _ _ _) => if c.s.fd f ≠ none ∨ c.s.mState = .connected then none else some f
  | .call (.setSocket _ f) => if c.s.mFd6 ≠ none ∨ c.s.mFd4 ≠ none then none else some f
  | _ => none

def NoneOpen (s : Sock) : Prop := s.fd .v4 = none ∧ s.fd .v6 = none

/-- Some open descriptor has not been reported on. -/
def Unreported (w : Watch) : Prop :=
  (w.cfg.s.fd .v4 ≠ none ∧ w.told .v4 = none) ∨ (w.cfg.s.fd .v6 ≠ none ∧ w.told .v6 = none)

instance (s : Sock) : Decidable (NoneOpen s) := inferInstanceAs (Decidable (_ ∧ _))

instance (w : Watch) : Decidable (Unreported w) := inferInstanceAs (Decidable (_ ∨ _))

/-- The bookkeeping of the step with label `l` to `c'`. -/
def after (w : Watch) (l : Label) (c' : Cfg) : Watch :=
  let said := emitted w.cfg c'
  let report := said.filter final
  let opened := opens w.cfg l
  { cfg := c'
    told := fun f => (if opened = some f then none else w.told f).or report
    gone :=
      if opened ≠ none then none
      else if l ≠ .call .close ∧ ¬ NoneOpen w.cfg.s ∧ NoneOpen c'.s then
        some (report.or (if w.cfg.s.fd .v4 ≠ none then w.told .v4 else w.told .v6))
      else w.gone
    closed := decide (l = .call .close) || (opened.isNone && w.closed)
    surplus := w.surplus || (report.isSome && opened.isNone && !decide (Unreported w))
    late := w.late || (w.closed && opened.isNone && said.isSome) }

/-- The user connects in Plain mode only. -/
def plainOnly : Label → Bool
  | .call (.connect _ .tls _ _) => false
  | _ => true

def next (w : Watch) (l : Label) : Option Watch :=
  if plainOnly l then (step w.cfg l).map (after w l) else none

/-- A socket in Plain mode with no descriptor, outside its own code. -/
structure Fresh (c : Cfg) : Prop where
  plain : c.s.mMode = .plain
  closed : NoneOpen c.s
  stack : c.stack = []

def watched : LTS Watch Label := LTS.ofFn (fun w => ∃ c, Fresh c ∧ w = start c) next

/-- What the user is promised. -/
structure Heard (w : Watch) : Prop where
  loss : w.gone = none ∨ w.gone = some (some w.cfg.s.mState)
  once : w.surplus = false
  quiet : w.late = false

/-! ## The steps that keep it -/

/-- The descriptor of `f` is the only open one. -/
def Last (s : Sock) (f : Family) : Prop := s.fd f ≠ none ∧ s.fd f.other = none

/-- `::write` has failed for good. -/
def writeFails : Ans → Bool
  | .writeErr errno => decide (errno ≠ EAGAIN)
  | _ => false

/-- What the block of a frame must not meet. -/
def blockKeeps (fr : Frame) (w : Watch) (a : Ans) : Prop :=
  match fr with
  | .processWrite _ _ => writeFails a = true → Unreported w
  | .plainWrite _ => w.cfg.s.mState = .connecting → ¬ NoneOpen w.cfg.s
  | .dropFailed f => Last w.cfg.s f → w.told f = some w.cfg.s.mState
  | .closeOther f => Last w.cfg.s f.other → w.told f.other = some w.cfg.s.mState
  | _ => True

/-- The condition on a step, on what is before it and on the label. -/
def Keeps (w : Watch) : Label → Prop
  | .call _ => True
  | .event fd flags => flags.error = true → Mine fd w.cfg.s → BothOpen w.cfg.s
  | .run a => ∀ fr ∈ w.cfg.stack.head?, blockKeeps fr w a
  | .ret => True

/-! ## Families -/

theorem noneOpen_fd {s : Sock} : NoneOpen s ↔ ∀ f, s.fd f = none :=
  ⟨fun h f => match f with
    | .v4 => h.1
    | .v6 => h.2, fun h => ⟨h .v4, h .v6⟩⟩

theorem unreported_fd {w : Watch} :
    Unreported w ↔ ∃ f, w.cfg.s.fd f ≠ none ∧ w.told f = none := by
  constructor
  · rintro (h | h)
    · exact ⟨.v4, h⟩
    · exact ⟨.v6, h⟩
  · rintro ⟨f, h⟩
    cases f
    · exact Or.inl h
    · exact Or.inr h

theorem noneOpen_family {s : Sock} (f : Family) :
    NoneOpen s ↔ s.fd f = none ∧ s.fd f.other = none := by
  cases f
  · exact Iff.rfl
  · exact And.comm

/-- What has been said of the last open descriptor. -/
theorem told_last {w : Watch} {f : Family} (h : Last w.cfg.s f) :
    (if w.cfg.s.fd .v4 ≠ none then w.told .v4 else w.told .v6) = w.told f := by
  cases f
  · exact if_pos h.1
  · exact if_neg fun h' => h' h.2

/-! ## The kinds of change -/

theorem emitted_none {c c' : Cfg} (h : c'.out.states = c.out.states) : emitted c c' = none := by
  simp [emitted, h]

theorem emitted_some {c c' : Cfg} {st : State} (h : c'.out.states = c.out.states ++ [st]) :
    emitted c c' = some st := by
  simp [emitted, h]

/-- Nothing that `Watch` looks at has changed. -/
structure Same (c c' : Cfg) : Prop where
  fd : ∀ f, c'.s.fd f = c.s.fd f
  state : c'.s.mState = c.s.mState
  mode : c'.s.mMode = c.s.mMode
  states : c'.out.states = c.out.states

/-- The descriptor of `f` is closed and nothing is said. -/
structure Dropped (f : Family) (c c' : Cfg) : Prop where
  fd : c'.s.fd f = none
  other : c'.s.fd f.other = c.s.fd f.other
  state : c'.s.mState = c.s.mState
  mode : c'.s.mMode = c.s.mMode
  states : c'.out.states = c.out.states

/-- The state change `st` is emitted, `mState` set to it. -/
structure Said (st : State) (c c' : Cfg) : Prop where
  state : c'.s.mState = st
  mode : c'.s.mMode = c.s.mMode
  states : c'.out.states = c.out.states ++ [st]

/-- A step of an attempt or a callback that is not the user's `close()`. -/
structure Inner (w : Watch) (l : Label) : Prop where
  opens : opens w.cfg l = none
  close : l ≠ .call .close

theorem after_same {w : Watch} {l : Label} {c' : Cfg} (hl : Inner w l) (h : Same w.cfg c') :
    after w l c' = { w with cfg := c' } := by
  have hnone : NoneOpen c'.s ↔ NoneOpen w.cfg.s := by simp [NoneOpen, h.fd]
  simp [after, hl.opens, hl.close, emitted_none h.states, hnone]

theorem after_dropped {w : Watch} {l : Label} {c' : Cfg} {f : Family} (hl : Inner w l)
    (h : Dropped f w.cfg c') (hlast : ¬ Last w.cfg.s f) :
    after w l c' = { w with cfg := c' } := by
  have hnone : NoneOpen c'.s → NoneOpen w.cfg.s := by
    rw [noneOpen_family f, noneOpen_family f, h.fd, h.other]
    intro hn
    exact ⟨Classical.byContradiction fun hf => hlast ⟨hf, hn.2⟩, hn.2⟩
  have hno : ¬ (¬ NoneOpen w.cfg.s ∧ NoneOpen c'.s) := fun hx => hx.1 (hnone hx.2)
  simp [after, hl.opens, hl.close, emitted_none h.states, hno]

theorem after_last {w : Watch} {l : Label} {c' : Cfg} {f : Family} (hl : Inner w l)
    (h : Dropped f w.cfg c') (hlast : Last w.cfg.s f) :
    after w l c' = { w with cfg := c', gone := some (w.told f) } := by
  have hsome : ¬ NoneOpen w.cfg.s := fun hn => hlast.1 ((noneOpen_family f).mp hn).1
  have hnone : NoneOpen c'.s := (noneOpen_family f).mpr ⟨h.fd, h.other.trans hlast.2⟩
  simp [after, hl.opens, hl.close, emitted_none h.states, hsome, hnone, ← told_last hlast]

/-! ## The invariant -/

/-- The frames of the callback itself. -/
def ofEvent : Frame → Bool
  | .plainRead | .plainWrite _ => true
  | _ => false

/-- The other frames of Plain mode. -/
def work : Frame → Bool
  | .handler | .processWrite _ _ | .callProcessWrite _ | .writeRange _ => true
  | .dropFailed _ | .closeOther _ | .armConnect _ => true
  | _ => false

/-- The callback is at the bottom: it is entered only from the loop. -/
inductive Tidy : List Frame → Prop
  | callback {k : List Frame} (h : ∀ fr ∈ k, ofEvent fr = true) : Tidy k
  | above {fr : Frame} {k : List Frame} (h : work fr = true) (hk : Tidy k) : Tidy (fr :: k)

theorem Tidy.tail {fr : Frame} {k : List Frame} (h : Tidy (fr :: k)) : Tidy k := by
  cases h with
  | callback h => exact .callback fun g hg => h g (List.mem_cons_of_mem _ hg)
  | above _ hk => exact hk

theorem Tidy.all {fr : Frame} {k : List Frame} (h : Tidy (fr :: k)) (hfr : work fr = false) :
    ∀ g ∈ fr :: k, ofEvent g = true := by
  cases h with
  | callback h => exact h
  | above h _ => rw [h] at hfr; cases hfr

theorem Tidy.append {fs k : List Frame} (hk : Tidy k) (h : ∀ fr ∈ fs, work fr = true) :
    Tidy (fs ++ k) := by
  induction fs with
  | nil => exact hk
  | cons fr fs ih =>
    exact .above (h fr (List.mem_cons_self ..)) (ih fun g hg => h g (List.mem_cons_of_mem _ hg))

structure Inv (w : Watch) : Prop where
  heard : Heard w
  plain : w.cfg.s.mMode = .plain
  tidy : Tidy w.cfg.stack
  /-- an open descriptor that has been reported on is about to be closed -/
  pending : ∀ f, w.cfg.s.fd f ≠ none → w.told f ≠ none → .dropFailed f ∈ w.cfg.stack
  gone : w.gone ≠ none → NoneOpen w.cfg.s
  closed : w.closed = true → NoneOpen w.cfg.s

/-- While the callback runs, nothing open has been reported on. -/
theorem Inv.unreported {w : Watch} (h : Inv w) (hev : ∀ fr ∈ w.cfg.stack, ofEvent fr = true) :
    Unreported w ↔ ¬ NoneOpen w.cfg.s := by
  have huntold : ∀ f, w.cfg.s.fd f ≠ none → w.told f = none := by
    intro f hf
    refine Classical.byContradiction fun ht => ?_
    cases hev _ (h.pending f hf ht)
  rw [unreported_fd, noneOpen_fd]
  constructor
  · rintro ⟨f, hf, -⟩ hn
    exact hf (hn f)
  · intro hn
    obtain ⟨f, hf⟩ := Classical.not_forall.mp hn
    exact ⟨f, hf, huntold f hf⟩

/-- The step keeps the invariant when `p` holds, and breaks the promise when
it does not. -/
def Settles (w : Watch) (l : Label) (c' : Cfg) (p : Prop) : Prop :=
  (p → Inv (after w l c')) ∧ (Heard (after w l c') → p)

theorem settles_true {w : Watch} {l : Label} {c' : Cfg} (h : Inv (after w l c')) :
    Settles w l c' True := ⟨fun _ => h, fun _ => trivial⟩

theorem Settles.congr {w : Watch} {l : Label} {c' : Cfg} {p q : Prop} (h : Settles w l c' p)
    (hpq : p ↔ q) : Settles w l c' q := ⟨fun hq => h.1 (hpq.mpr hq), fun hh => hpq.mp (h.2 hh)⟩

section Kinds
variable {w : Watch} {l : Label} {c' : Cfg} {f : Family} {st : State}

theorem Inv.same (h : Inv w) (hl : Inner w l) (hs : Same w.cfg c') (ht : Tidy c'.stack)
    (hp : ∀ f, .dropFailed f ∈ w.cfg.stack → .dropFailed f ∈ c'.stack) : Inv (after w l c') := by
  have hnone : NoneOpen w.cfg.s → NoneOpen c'.s := fun hn => by simpa [NoneOpen, hs.fd] using hn
  rw [after_same hl hs]
  exact
    { heard := ⟨by simpa only [hs.state] using h.heard.loss, h.heard.once, h.heard.quiet⟩
      plain := hs.mode.trans h.plain
      tidy := ht
      pending := fun g hg htold => hp g (h.pending g (by simpa only [hs.fd] using hg) htold)
      gone := fun hg => hnone (h.gone hg)
      closed := fun hc => hnone (h.closed hc) }

/-- A descriptor is closed without a word. -/
theorem Inv.dropped (h : Inv w) (hl : Inner w l) (hd : Dropped f w.cfg c') (ht : Tidy c'.stack)
    (hp : .dropFailed f.other ∈ w.cfg.stack → .dropFailed f.other ∈ c'.stack) :
    Settles w l c' (Last w.cfg.s f → w.told f = some w.cfg.s.mState) := by
  have hnone : NoneOpen w.cfg.s → NoneOpen c'.s := by
    rw [noneOpen_family f, noneOpen_family f, hd.fd, hd.other]
    exact fun hn => ⟨rfl, hn.2⟩
  have hpend : ∀ g, c'.s.fd g ≠ none → w.told g ≠ none → .dropFailed g ∈ c'.stack := by
    intro g hg htold
    rcases eq_or_other f g with rfl | rfl
    · exact absurd hd.fd hg
    · exact hp (h.pending _ (by simpa only [hd.other] using hg) htold)
  by_cases hlast : Last w.cfg.s f
  · have hall : NoneOpen c'.s := (noneOpen_family f).mpr ⟨hd.fd, hd.other.trans hlast.2⟩
    unfold Settles
    rw [after_last hl hd hlast]
    constructor
    · intro hk
      exact
        { heard := ⟨Or.inr (by simp only [hd.state, hk hlast]), h.heard.once, h.heard.quiet⟩
          plain := hd.mode.trans h.plain
          tidy := ht
          pending := hpend
          gone := fun _ => hall
          closed := fun _ => hall }
    · intro hh _
      rcases hh.loss with hg | hg
      · cases hg
      · simpa only [hd.state, Option.some.injEq] using hg
  · unfold Settles
    rw [after_dropped hl hd hlast]
    refine ⟨fun _ => ?_, fun _ hx => absurd hx hlast⟩
    exact
      { heard := ⟨by simpa only [hd.state] using h.heard.loss, h.heard.once, h.heard.quiet⟩
        plain := hd.mode.trans h.plain
        tidy := ht
        pending := hpend
        gone := fun hg => hnone (h.gone hg)
        closed := fun hc => hnone (h.closed hc) }

theorem Unreported.some_open {w : Watch} (hu : Unreported w) : ¬ NoneOpen w.cfg.s := by
  obtain ⟨g, hg, -⟩ := unreported_fd.mp hu
  exact fun hn => hg (noneOpen_fd.mp hn g)

/-- While a descriptor is open, none is lost and the user has not closed. -/
theorem Inv.live (h : Inv w) (ho : ¬ NoneOpen w.cfg.s) : w.gone = none ∧ w.closed = false := by
  refine ⟨Classical.byContradiction fun hg => ho (h.gone hg), ?_⟩
  cases hc : w.closed with
  | false => rfl
  | true => exact absurd (h.closed hc) ho

theorem surplus_of_final (hl : Inner w l) (hst : final st = true) (hs : Said st w.cfg c')
    (hh : Heard (after w l c')) : Unreported w := by
  have hsur := hh.once
  simp only [after, emitted_some hs.states, hl.opens, Option.filter_some, hst] at hsur
  simp at hsur
  exact hsur.2

/-- All descriptors are closed, with a report. -/
theorem Inv.ended (h : Inv w) (hl : Inner w l) (hst : final st = true) (hs : Said st w.cfg c')
    (hn : NoneOpen c'.s) (ht : Tidy c'.stack) : Settles w l c' (Unreported w) := by
  refine ⟨fun hu => ?_, surplus_of_final hl hst hs⟩
  obtain ⟨hgone, hclosed⟩ := h.live hu.some_open
  exact
    { heard :=
        { loss := by simp [after, hl.opens, hl.close, emitted_some hs.states, hst, hn, hu.some_open, hs.state]
          once := by simp [after, hl.opens, emitted_some hs.states, hst, hu, h.heard.once]
          quiet := by simp [after, hclosed, h.heard.quiet] }
      plain := hs.mode.trans h.plain
      tidy := ht
      pending := fun g hg => absurd (noneOpen_fd.mp hn g) hg
      gone := fun _ => hn
      closed := fun _ => hn }

/-- An attempt fails: the report comes first, the descriptor is closed later. -/
theorem Inv.failing (h : Inv w) (hl : Inner w l) (hs : Said .error w.cfg c')
    (hfd : ∀ g, c'.s.fd g = w.cfg.s.fd g) (ho : w.cfg.s.fd f.other = none)
    (hf : .dropFailed f ∈ c'.stack) (ht : Tidy c'.stack) : Settles w l c' (Unreported w) := by
  refine ⟨fun hu => ?_, surplus_of_final hl rfl hs⟩
  obtain ⟨hgone, hclosed⟩ := h.live hu.some_open
  have hopen : ¬ NoneOpen c'.s := by simpa only [NoneOpen, hfd] using hu.some_open
  exact
    { heard :=
        { loss := by simp [after, hl.opens, hopen, hgone]
          once := by simp [after, hl.opens, hu, h.heard.once]
          quiet := by simp [after, hclosed, h.heard.quiet] }
      plain := hs.mode.trans h.plain
      tidy := ht
      pending := by
        intro g hg _
        rcases eq_or_other f g with rfl | rfl
        · exact hf
        · exact absurd ((hfd _).trans ho) hg
      gone := by simp [after, hl.opens, hopen, hgone]
      closed := by simp [after, hl.opens, hl.close, hclosed] }

/-- A state change that ends nothing, with a descriptor open. -/
theorem Inv.went_on (h : Inv w) (hl : Inner w l) (hst : final st = false) (hs : Said st w.cfg c')
    (hopen : ¬ NoneOpen w.cfg.s) (hopen' : ¬ NoneOpen c'.s)
    (hfd : ∀ g, c'.s.fd g ≠ none → w.cfg.s.fd g ≠ none)
    (ht : Tidy c'.stack) (hp : ∀ f, .dropFailed f ∈ w.cfg.stack → .dropFailed f ∈ c'.stack) :
    Inv (after w l c') := by
  obtain ⟨hgone, hclosed⟩ := h.live hopen
  have hreport : (emitted w.cfg c').filter final = none := by
    simp [emitted_some hs.states, hst]
  exact
    { heard :=
        { loss := by simp [after, hl.opens, hopen', hgone]
          once := by simp [after, hreport, h.heard.once]
          quiet := by simp [after, hclosed, h.heard.quiet] }
      plain := hs.mode.trans h.plain
      tidy := ht
      pending := by
        intro g hg htold
        refine hp g (h.pending g (hfd g hg) ?_)
        simpa [after, hreport, hl.opens] using htold
      gone := by simp [after, hl.opens, hopen', hgone]
      closed := by simp [after, hl.opens, hl.close, hclosed] }

end Kinds

/-! ## Blocks -/

section Blocks
variable {c c' : Cfg} {f : Family} {a : Ans}

/-- Popping a frame shows nothing to `Watch`. -/
theorem same_pop {k : List Frame} : Same c { c with stack := k } := ⟨fun _ => rfl, rfl, rfl, rfl⟩

theorem Same.trans {c₁ : Cfg} (h : Same c c₁) (h' : Same c₁ c') : Same c c' :=
  ⟨fun g => (h'.fd g).trans (h.fd g), h'.state.trans h.state, h'.mode.trans h.mode,
    h'.states.trans h.states⟩

theorem Same.dropped {c₁ : Cfg} (h : Same c c₁) (h' : Dropped f c₁ c') : Dropped f c c' :=
  ⟨h'.fd, h'.other.trans (h.fd _), h'.state.trans h.state, h'.mode.trans h.mode,
    h'.states.trans h.states⟩

theorem Same.said {c₁ : Cfg} {st : State} (h : Same c c₁) (h' : Said st c₁ c') : Said st c c' :=
  ⟨h'.state, h'.mode.trans h.mode, h.states ▸ h'.states⟩

theorem dropped_dropFd : Dropped f c (dropFd f c) := by constructor <;> simp

theorem dropped_dropOpen : Dropped f c (dropOpen f c) := by constructor <;> simp

theorem said_emit {st : State} {fs : List Frame} :
    Said st c (emit st (setState st (push fs c))) := ⟨rfl, rfl, rfl⟩

theorem said_closeWith {st : State} (hm : c.s.mMode = .plain) : Said st c (closeWith st c) where
  state := rfl
  mode := by simp [closeWith, setState_mMode, hm]
  states := by simp [closeWith]

theorem noneOpen_closeWith {st : State} : NoneOpen (closeWith st c).s :=
  noneOpen_fd.mpr fun g => closeWith_fd c g st

theorem noneOpen_of_one {s : Sock} (h : (s.mFd4 = none) ≠ (s.mFd6 = none)) : ¬ NoneOpen s := by
  intro hn
  have h4 : s.mFd4 = none := hn.1
  have h6 : s.mFd6 = none := hn.2
  simp [h4, h6] at h

/-- A read in Plain mode: nothing to see, or the socket is closed with a report. -/
theorem readBlock_effect {again : List Frame} (hm : c.s.mMode = .plain)
    (hs : readBlock again c a = some c') :
    (Same c c' ∧ (c'.stack = c.stack ∨ c'.stack = .handler :: (again ++ c.stack))) ∨
    (¬ NoneOpen c.s ∧ ∃ st, final st = true ∧ c' = closeWith st c) := by
  rcases readBlock_cases hm hs with ⟨-, -, rfl⟩ | ⟨-, -, rfl⟩ |
    ⟨hone, ⟨b, -, rfl⟩ | ⟨-, rfl⟩ | ⟨-, rfl⟩ | ⟨errno, -, -, rfl⟩⟩
  · exact Or.inl ⟨⟨fun _ => rfl, rfl, rfl, rfl⟩, Or.inl rfl⟩
  · exact Or.inl ⟨⟨fun _ => rfl, rfl, rfl, rfl⟩, Or.inl rfl⟩
  · exact Or.inl ⟨⟨fun _ => rfl, rfl, rfl, rfl⟩, Or.inr rfl⟩
  · exact Or.inl ⟨⟨fun _ => rfl, rfl, rfl, rfl⟩, Or.inl rfl⟩
  · exact Or.inr ⟨noneOpen_of_one hone, .closed, rfl, rfl⟩
  · exact Or.inr ⟨noneOpen_of_one hone, .error, rfl, rfl⟩

/-- A write in Plain mode: nothing to see, or a failure that closes the socket
with a report. -/
theorem processWriteBlock_effect {fd : Option Fd} {it : Nat} (hm : c.s.mMode = .plain)
    (hs : processWriteBlock fd it c a = some c') :
    (writeFails a = false ∧ Same c c' ∧
      (c'.stack = c.stack ∨ ∃ it', c'.stack = .processWrite fd it' :: c.stack)) ∨
    (writeFails a = true ∧ c' = closeWith .error c) := by
  rcases processWriteBlock_cases hm hs with ⟨-, rfl, rfl⟩ | ⟨b, -, hcases⟩
  · exact Or.inl ⟨rfl, ⟨fun g => by cases g <;> rfl, rfl, rfl, rfl⟩, Or.inl rfl⟩
  rcases hcases with ⟨-, rfl, rfl⟩ | ⟨n, rfl, -, rfl⟩ | ⟨n, rfl, -, rfl⟩ | ⟨rfl, rfl⟩ |
    ⟨errno, rfl, hne, rfl⟩
  · exact Or.inl ⟨rfl, ⟨fun _ => rfl, rfl, rfl, rfl⟩, Or.inl rfl⟩
  · exact Or.inl ⟨rfl, ⟨fun g => by cases g <;> rfl, rfl, rfl, rfl⟩, Or.inr ⟨it, rfl⟩⟩
  · exact Or.inl ⟨rfl, ⟨fun g => by cases g <;> rfl, rfl, rfl, rfl⟩, Or.inr ⟨it + 1, rfl⟩⟩
  · exact Or.inl ⟨rfl, ⟨fun _ => rfl, rfl, rfl, rfl⟩, Or.inl rfl⟩
  · exact Or.inr ⟨by simp [writeFails, hne], rfl⟩

theorem write_effect {b : Bytes} : Same c (write b c) ∧
    ((write b c).stack = c.stack ∨ ∃ fd, (write b c).stack = .processWrite fd 0 :: c.stack) := by
  have hq : ∀ c₁ : Cfg, c₁.s = { c.s with mPendingWrites := c.s.mPendingWrites ++ [b] } →
      c₁.out = c.out → Same c c₁ := by
    intro c₁ h1 h2
    exact ⟨fun g => by rw [h1]; cases g <;> rfl, by rw [h1], by rw [h1], by rw [h2]⟩
  unfold write
  dsimp only
  split
  · exact ⟨hq _ rfl rfl, Or.inl rfl⟩
  split
  · exact ⟨hq _ rfl rfl, Or.inr ⟨_, rfl⟩⟩
  · exact ⟨hq _ rfl rfl, Or.inl rfl⟩
  · exact ⟨hq _ rfl rfl, Or.inr ⟨_, rfl⟩⟩
  · exact ⟨hq _ rfl rfl, Or.inl rfl⟩

end Blocks

section Exec
variable {w : Watch} {c' : Cfg} {fr : Frame} {k : List Frame} {a : Ans}

theorem inner_run : Inner w (.run a) := ⟨rfl, nofun⟩

/-- Replacing the top frame, the close of a failed attempt apart, by work. -/
theorem kept {fs : List Frame} (hfr : ∀ f, fr ≠ .dropFailed f) (f : Family) (hm : .dropFailed f ∈ fr :: k) :
    .dropFailed f ∈ fs ++ k := by
  rcases List.mem_cons.mp hm with he | hm
  · exact absurd he.symm (hfr f)
  · exact List.mem_append_right fs hm

theorem Inv.worked (h : Inv w) (fs : List Frame) (hk : w.cfg.stack = fr :: k)
    (hfr : ∀ f, fr ≠ .dropFailed f) (hs : Same { w.cfg with stack := k } c') (hst : c'.stack = fs ++ k)
    (hfs : ∀ g ∈ fs, work g = true) : Inv (after w (.run a) c') := by
  have ht : Tidy (fr :: k) := hk ▸ h.tidy
  refine h.same inner_run (same_pop.trans hs) (hst ▸ ht.tail.append hfs) fun f hm => ?_
  rw [hst]
  exact kept hfr f (hk ▸ hm)

/-- The socket is closed with a report. -/
theorem settles_closeWith {st : State} (h : Inv w) (hk : w.cfg.stack = fr :: k)
    (hst : final st = true) :
    Settles w (.run a) (closeWith st { w.cfg with stack := k }) (Unreported w) := by
  have ht : Tidy (fr :: k) := hk ▸ h.tidy
  have hm : ({ w.cfg with stack := k } : Cfg).s.mMode = .plain := h.plain
  refine h.ended inner_run hst (same_pop.said (said_closeWith hm)) noneOpen_closeWith ?_
  rw [closeWith_stack]
  exact .above rfl ht.tail

theorem settles_plainRead (h : Inv w) (hk : w.cfg.stack = .plainRead :: k)
    (hs : readBlock [.plainRead] { w.cfg with stack := k } a = some c') :
    Settles w (.run a) c' True := by
  have ht : Tidy (.plainRead :: k) := hk ▸ h.tidy
  have hm : ({ w.cfg with stack := k } : Cfg).s.mMode = .plain := h.plain
  rcases readBlock_effect hm hs with ⟨hsame, hst⟩ | ⟨hopen, st, hst, rfl⟩
  · refine settles_true (h.same inner_run (same_pop.trans hsame) ?_ ?_)
    · rcases hst with hst | hst
      · exact hst ▸ ht.tail
      · exact hst ▸ .above rfl ht
    · intro f hm
      have hm : .dropFailed f ∈ k := by simpa [hk] using hm
      rcases hst with hst | hst <;> rw [hst]
      · exact hm
      · exact List.mem_cons_of_mem _ (List.mem_append_right _ hm)
  · refine (settles_closeWith h hk hst).congr ⟨fun _ => trivial, fun _ => ?_⟩
    exact (h.unreported (hk ▸ ht.all rfl)).mpr hopen

theorem settles_processWrite {fd : Option Fd} {it : Nat} (h : Inv w)
    (hk : w.cfg.stack = .processWrite fd it :: k)
    (hs : processWriteBlock fd it { w.cfg with stack := k } a = some c') :
    Settles w (.run a) c' (blockKeeps (.processWrite fd it) w a) := by
  have hm : ({ w.cfg with stack := k } : Cfg).s.mMode = .plain := h.plain
  rcases processWriteBlock_effect hm hs with ⟨hno, hsame, hst⟩ | ⟨hfail, rfl⟩
  · refine (settles_true ?_).congr ⟨fun _ hfail => ?_, fun _ => trivial⟩
    · rcases hst with hst | ⟨it', hst⟩
      · exact h.worked [] hk nofun hsame hst nofun
      · exact h.worked [.processWrite fd it'] hk nofun hsame hst (by simp [work])
    · rw [hno] at hfail
      cases hfail
  · exact (settles_closeWith h hk rfl).congr ⟨fun hu _ => hu, fun hu => hu hfail⟩

/-- The check of a connect settles the step: it needs an open descriptor. -/
theorem settles_checkConnect {c₁ : Cfg} {f : Family} (h : Inv w)
    (hk : w.cfg.stack = .plainWrite f :: k) (hsame : Same w.cfg c₁) (hst : c₁.stack = k)
    (hs : checkConnect f .connected [.callProcessWrite f] c₁ a = some c') :
    Settles w (.run a) c' (¬ NoneOpen w.cfg.s) := by
  have ht : Tidy (.plainWrite f :: k) := hk ▸ h.tidy
  have htail : Tidy c₁.stack := hst ▸ ht.tail
  have hold : ∀ g, .dropFailed g ∉ w.cfg.stack := by
    intro g hg
    cases ht.all rfl _ (hk ▸ hg)
  obtain ⟨failed, -, ⟨-, ho, rfl⟩ | ⟨-, ho, rfl⟩ | ⟨-, hf, rfl⟩⟩ := checkConnect_cases hs
  · refine (h.failing (f := f) inner_run (hsame.said said_emit) (fun g => ?_)
      ((hsame.fd _).symm.trans ho) ?_ ?_).congr (h.unreported (hk ▸ ht.all rfl))
    · simpa using hsame.fd g
    · simp
    · exact .above rfl (.above rfl htail)
  · rw [hsame.fd] at ho
    have hopen : ¬ NoneOpen w.cfg.s := fun hn => ho (noneOpen_fd.mp hn f.other)
    refine (h.dropped (f := f) inner_run (hsame.dropped dropped_dropFd) ?_ ?_).congr
      ⟨fun _ => hopen, fun _ hlast => absurd hlast.2 ho⟩
    · simpa using htail
    · exact fun hm => absurd hm (hold _)
  · have hopen : ¬ NoneOpen w.cfg.s := fun hn => hf ((hsame.fd f).trans (noneOpen_fd.mp hn f))
    have hfd := dropOpen_other c₁ f.other
    rw [other_other] at hfd
    refine (settles_true ?_).congr ⟨fun _ => hopen, fun _ => trivial⟩
    have hsaid : Said .connected c₁ (emit .connected (setState .connected
        (push [.callProcessWrite f] (dropOpen f.other c₁)))) := ⟨rfl, by simp, by simp⟩
    refine h.went_on inner_run rfl (hsame.said hsaid) hopen ?_ ?_ ?_ ?_
    · intro hn
      exact hf (by simpa [hfd] using noneOpen_fd.mp hn f)
    · intro g hg
      rcases eq_or_other f g with rfl | rfl
      · rw [← hsame.fd]; exact hf
      · simp at hg
    · exact .above rfl (.above rfl (by simpa using htail))
    · exact fun g hm => absurd hm (hold g)

theorem settles_plainWrite {f : Family} (h : Inv w) (hk : w.cfg.stack = .plainWrite f :: k)
    (hs : exec (.plainWrite f) { w.cfg with stack := k } a = some c') :
    Settles w (.run a) c' (blockKeeps (.plainWrite f) w a) := by
  simp only [exec] at hs
  split at hs
  · rename_i hst
    refine (settles_checkConnect h hk ?_ ?_ hs).congr ⟨fun hn _ => hn, fun hn => hn hst⟩
    · exact ⟨fun _ => rfl, rfl, rfl, rfl⟩
    · rfl
  · rename_i hst
    obtain ⟨rfl, -⟩ := pureBlock_some hs
    refine (settles_true ?_).congr ⟨fun _ hc => absurd hc hst, fun _ => trivial⟩
    exact h.worked [.callProcessWrite f] hk nofun ⟨fun _ => rfl, rfl, rfl, rfl⟩ rfl
      (by simp [work])

/-- One block: it keeps the promise exactly when it meets `blockKeeps`. -/
theorem settles_exec (h : Inv w) (hk : w.cfg.stack = fr :: k)
    (hs : exec fr { w.cfg with stack := k } a = some c') :
    Settles w (.run a) c' (blockKeeps fr w a) := by
  have ht : Tidy (fr :: k) := hk ▸ h.tidy
  cases fr with
  | handler => cases hs
  | processWrite fd it => exact settles_processWrite h hk hs
  | callProcessWrite f =>
    obtain ⟨rfl, -⟩ := pureBlock_some hs
    exact settles_true (h.worked [.processWrite (w.cfg.s.fd f) 0] hk nofun
      ⟨fun _ => rfl, rfl, rfl, rfl⟩ rfl (by simp [work]))
  | writeRange data =>
    obtain ⟨rfl, -⟩ := pureBlock_some hs
    refine settles_true ?_
    split
    · exact h.worked [] hk nofun ⟨fun _ => rfl, rfl, rfl, rfl⟩ rfl nofun
    · obtain ⟨hsame, hst⟩ := write_effect (b := data.take bufferSize)
        (c := push [.writeRange (data.drop bufferSize)] { w.cfg with stack := k })
      have hpush : Same { w.cfg with stack := k }
          (push [.writeRange (data.drop bufferSize)] { w.cfg with stack := k }) :=
        ⟨fun _ => rfl, rfl, rfl, rfl⟩
      rcases hst with hst | ⟨fd, hst⟩
      · exact h.worked [.writeRange (data.drop bufferSize)] hk nofun (hpush.trans hsame)
          hst (by simp [work])
      · exact h.worked [.processWrite fd 0, .writeRange (data.drop bufferSize)] hk nofun
          (hpush.trans hsame) hst (by simp [work])
  | plainRead => exact settles_plainRead h hk hs
  | plainWrite f => exact settles_plainWrite h hk hs
  | dropFailed f =>
    obtain ⟨rfl, -⟩ := pureBlock_some hs
    refine h.dropped inner_run (same_pop.dropped dropped_dropFd) ?_ ?_
    · simpa using ht.tail
    · intro hm
      simpa [hk] using hm
  | closeOther f =>
    obtain ⟨rfl, -⟩ := pureBlock_some hs
    refine h.dropped inner_run (same_pop.dropped dropped_dropOpen) ?_ ?_
    · simpa using ht.tail
    · intro hm
      simpa [hk] using hm
  | armConnect f =>
    obtain ⟨rfl, -⟩ := pureBlock_some hs
    exact settles_true (h.worked [] hk nofun ⟨fun _ => rfl, rfl, rfl, rfl⟩ rfl nofun)
  | close | tlsAttach | connectTLS | tlsHandshaken | tlsRead | tlsRetryRead | tlsRetryWrite
  | tlsReadLoop | tlsWrite | tlsDoWrite => cases ht.all rfl _ (List.mem_cons_self ..)

end Exec

/-! ## Events -/

theorem settles_processEvent {w : Watch} {l : Label} {f : Family} {flags : Flags} (h : Inv w)
    (hl : Inner w l) (hk : w.cfg.stack = []) (hf : w.cfg.s.fd f ≠ none) :
    Settles w l (processEvent f flags w.cfg) (flags.error = true → ¬ Last w.cfg.s f) := by
  have hold : ∀ g, .dropFailed g ∉ w.cfg.stack := by
    intro g
    rw [hk]
    exact List.not_mem_nil
  have htold : w.told f = none :=
    Classical.byContradiction fun ht => hold f (h.pending f hf ht)
  unfold processEvent
  split
  · rename_i he
    refine (h.dropped hl dropped_dropFd ?_ ?_).congr ?_
    · simpa using h.tidy
    · exact fun hm => absurd hm (hold _)
    · simp [he, htold]
  · rename_i he
    refine (settles_true ?_).congr ⟨fun _ he' => absurd he' he, fun _ => trivial⟩
    simp only [h.plain]
    refine h.same hl ⟨fun _ => rfl, rfl, rfl, rfl⟩ (.callback ?_) fun g hm => absurd hm (hold g)
    rw [push_stack, hk]
    intro fr hfr
    have hfr : (flags.read = true ∧ fr = .plainRead) ∨ (flags.write = true ∧ fr = .plainWrite f) := by
      simpa using hfr
    rcases hfr with ⟨-, rfl⟩ | ⟨-, rfl⟩ <;> rfl

theorem settles_event {w : Watch} {fd : Fd} {flags : Flags} (h : Inv w) (hk : w.cfg.stack = []) :
    Settles w (.event fd flags) (socketCallback fd flags w.cfg) (Keeps w (.event fd flags)) := by
  have hl : Inner w (.event fd flags) := ⟨rfl, nofun⟩
  have hboth : ∀ f, w.cfg.s.fd f = some fd →
      ((flags.error = true → ¬ Last w.cfg.s f) ↔ Keeps w (.event fd flags)) := by
    intro f hf
    have hmine : Mine fd w.cfg.s := by
      cases f
      · exact Or.inl hf
      · exact Or.inr hf
    simp [Keeps, Last, hmine, TcpConnected.bothOpen_fd f, hf]
  unfold socketCallback
  split
  · rename_i h4
    exact (settles_processEvent (f := .v4) h hl hk (by simp [Sock.fd, h4])).congr (hboth .v4 h4)
  split
  · rename_i h6
    exact (settles_processEvent (f := .v6) h hl hk (by simp [Sock.fd, h6])).congr (hboth .v6 h6)
  · rename_i h4 h6
    refine (settles_true ?_).congr ⟨fun _ _ hm => absurd hm (not_or.mpr ⟨h4, h6⟩), fun _ => trivial⟩
    exact h.same hl ⟨fun _ => rfl, rfl, rfl, rfl⟩ h.tidy fun _ hm => hm

/-! ## Public calls -/

section Calls
variable {w : Watch} {l : Label} {c c' : Cfg} {f : Family}

/-- A new attempt: what it reports at once, it is about to close. -/
theorem Inv.opened (h : Inv w) (ho : opens w.cfg l = some f) (hm : c'.s.mMode = .plain)
    (ht : Tidy c'.stack) (hp : ∀ g, .dropFailed g ∈ w.cfg.stack → .dropFailed g ∈ c'.stack)
    (hother : c'.s.fd f.other = w.cfg.s.fd f.other)
    (hrep : (emitted w.cfg c').filter final = none ∨
      (.dropFailed f ∈ c'.stack ∧ w.cfg.s.fd f.other = none)) : Inv (after w l c') := by
  have hl : l ≠ .call .close := by
    rintro rfl
    cases ho
  exact
    { heard :=
        { loss := Or.inl (by simp [after, ho])
          once := by simp [after, ho, h.heard.once]
          quiet := by simp [after, ho, h.heard.quiet] }
      plain := hm
      tidy := ht
      pending := by
        intro g hg htold
        rcases eq_or_other f g with rfl | rfl
        · rcases hrep with hrep | ⟨hin, -⟩
          · simp [after, ho, hrep] at htold
          · exact hin
        · have hg : w.cfg.s.fd f.other ≠ none := by simpa only [after, hother] using hg
          rcases hrep with hrep | ⟨-, hno⟩
          · exact hp _ (h.pending _ hg (by simpa [after, ho, hrep, (other_ne f).symm] using htold))
          · exact absurd hno hg
      gone := by simp [after, ho]
      closed := by simp [after, ho, hl] }

/-- What `internalConnect` leaves of an attempt. -/
theorem internalConnect_effect (res : ConnectRes) (f : Family) (hm : c.s.mMode = .plain) :
    (internalConnect res f c).s.mMode = .plain ∧
    (internalConnect res f c).s.fd f.other = c.s.fd f.other ∧
    ∃ fs, (internalConnect res f c).stack = fs ++ c.stack ∧ (∀ fr ∈ fs, work fr = true) ∧
      ((emitted c (internalConnect res f c)).filter final = none ∨
        (.dropFailed f ∈ fs ∧ c.s.fd f.other = none)) := by
  unfold internalConnect
  cases res with
  | ok =>
    simp only [hm]
    exact ⟨hm, by simp, [.handler, .callProcessWrite f, .closeOther f], rfl, by simp [work],
      Or.inl (by simp [emitted, final])⟩
  | inProgress =>
    dsimp only
    split
    · exact ⟨hm, by simp, [.handler, .armConnect f], rfl, by simp [work],
        Or.inl (by simp [emitted, final])⟩
    · exact ⟨hm, rfl, [], rfl, nofun, Or.inl (by simp [emitted])⟩
  | failed =>
    dsimp only
    split
    · rename_i ho
      exact ⟨hm, by simp, [.handler, .dropFailed f], rfl, by simp [work], Or.inr ⟨by simp, ho⟩⟩
    · exact ⟨by simpa using hm, by simp, [], by simp, nofun, Or.inl (by simp [emitted])⟩

theorem inv_connect {sock : Option Fd} {res : ConnectRes} (h : Inv w) :
    Inv (after w (.call (.connect f .plain sock res)) (connect f .plain sock res w.cfg)) := by
  unfold connect
  split
  · rename_i hskip
    have hl : Inner w (.call (.connect f .plain sock res)) := ⟨if_pos hskip, nofun⟩
    exact h.same hl ⟨fun _ => rfl, rfl, rfl, rfl⟩ h.tidy fun _ hm => hm
  · rename_i hgo
    dsimp only
    generalize hc : loopCall _ _ = c₀
    have hs : c₀.s = ({ w.cfg.s with mMode := .plain }.setFd f sock).setHandle f sock := by
      rw [← hc]; rfl
    have hm : c₀.s.mMode = .plain := by rw [hs]; simp
    have hfd : c₀.s.fd f.other = w.cfg.s.fd f.other := by rw [hs]; cases f <;> rfl
    have hstack : c₀.stack = w.cfg.stack := by rw [← hc]; rfl
    have hout : c₀.out.states = w.cfg.out.states := by rw [← hc]; rfl
    obtain ⟨hm', hfd', fs, hst, hfs, hrep⟩ := internalConnect_effect res f hm
    rw [hstack] at hst
    refine h.opened (f := f) (if_neg hgo) hm' (hst ▸ h.tidy.append hfs) ?_ (hfd'.trans hfd) ?_
    · intro g hg
      rw [hst]
      exact List.mem_append_right fs hg
    · rcases hrep with hrep | ⟨hin, hno⟩
      · exact Or.inl (by simpa only [emitted, hout] using hrep)
      · exact Or.inr ⟨by rw [hst]; exact List.mem_append_left _ hin, hfd ▸ hno⟩

theorem inv_setSocket {fd : Fd} (h : Inv w) :
    Inv (after w (.call (.setSocket fd f)) (setSocket fd f w.cfg)) := by
  unfold setSocket
  split
  · rename_i hskip
    have hl : Inner w (.call (.setSocket fd f)) := ⟨if_pos hskip, nofun⟩
    exact h.same hl ⟨fun _ => rfl, rfl, rfl, rfl⟩ h.tidy fun _ hm => hm
  · rename_i hgo
    refine h.opened (f := f) (if_neg hgo) ?_ h.tidy (fun _ hm => hm) ?_ ?_
    · have hm := h.plain
      cases f <;> exact hm
    · cases f <;> rfl
    · exact Or.inl (by simp [emitted])

theorem inv_write {b : Bytes} (h : Inv w) :
    Inv (after w (.call (.write b)) (write b { w.cfg with written := w.cfg.written ++ b })) := by
  have hl : Inner w (.call (.write b)) := ⟨rfl, nofun⟩
  obtain ⟨hsame, hst⟩ := write_effect (b := b)
    (c := { w.cfg with written := w.cfg.written ++ b })
  refine h.same hl ⟨hsame.fd, hsame.state, hsame.mode, hsame.states⟩ ?_ ?_
  · rcases hst with hst | ⟨fd, hst⟩
    · exact hst ▸ h.tidy
    · exact hst ▸ .above rfl h.tidy
  · intro f hm
    rcases hst with hst | ⟨fd, hst⟩ <;> rw [hst]
    · exact hm
    · exact List.mem_cons_of_mem _ hm

theorem inv_close (h : Inv w) : Inv (after w (.call .close) (close w.cfg)) := by
  have hno : opens w.cfg (.call .close) = none := rfl
  have hn : NoneOpen (close w.cfg).s := noneOpen_fd.mpr fun g => close_fd w.cfg g
  have hsaid : emitted w.cfg (close w.cfg) = none := emitted_none (close_states w.cfg)
  exact
    { heard :=
        { loss := by simpa [after, hno] using h.heard.loss
          once := by simp [after, hsaid, h.heard.once]
          quiet := by simp [after, hsaid, h.heard.quiet] }
      plain := close_mMode w.cfg
      tidy := by simpa [after] using h.tidy
      pending := fun g hg => absurd (noneOpen_fd.mp hn g) hg
      gone := fun _ => hn
      closed := fun _ => hn }

theorem inv_call {op : Call} (h : Inv w) (hop : plainOnly (.call op) = true)
    (hs : callStep op w.cfg = some c') : Inv (after w (.call op) c') := by
  cases op with
  | connect f mode sock res =>
    cases mode with
    | tls => cases hop
    | plain =>
      simp only [callStep] at hs
      split at hs
      · cases hs; exact inv_connect h
      · cases hs
  | setSocket fd f => cases hs; exact inv_setSocket h
  | write b => cases hs; exact inv_write h
  | writeRange data =>
    cases hs
    have hl : Inner w (.call (.writeRange data)) := ⟨rfl, by simp⟩
    refine h.same hl ⟨fun _ => rfl, rfl, rfl, rfl⟩ (.above rfl h.tidy) fun _ hm => ?_
    exact List.mem_cons_of_mem _ hm
  | close => cases hs; exact inv_close h

end Calls

/-! ## Runs -/

/-- **One step** keeps the promise when it meets `Keeps`, and breaks it when
it does not. -/
theorem settles_step {w : Watch} {l : Label} {c' : Cfg} (h : Inv w) (hop : plainOnly l = true)
    (hs : step w.cfg l = some c') : Settles w l c' (Keeps w l) := by
  obtain ⟨-, hcase⟩ := step_cases hs
  rcases hcase with ⟨op, rfl, -, hs⟩ | ⟨fd, flags, rfl, hk, rfl⟩ | ⟨a, fr, k, rfl, hk, hs⟩ |
    ⟨k, rfl, hk, rfl⟩
  · exact settles_true (inv_call h hop hs)
  · exact settles_event h hk
  · refine (settles_exec h hk hs).congr ?_
    simp [Keeps, hk]
  · have ht : Tidy (.handler :: k) := hk ▸ h.tidy
    refine settles_true (h.same ⟨rfl, by simp⟩ same_pop ht.tail fun f hm => ?_)
    simpa [hk] using hm

theorem next_some {w w' : Watch} {l : Label} (h : next w l = some w') :
    plainOnly l = true ∧ ∃ c', step w.cfg l = some c' ∧ w' = after w l c' := by
  unfold next at h
  split at h
  · rename_i hop
    obtain ⟨c', hs, rfl⟩ := Option.map_eq_some_iff.mp h
    exact ⟨hop, c', hs, rfl⟩
  · cases h

theorem heard_exact : watched.Exact Keeps Inv Heard where
  holds _ h := h.heard
  keeps w l w' h hk hs := by
    obtain ⟨hop, c', hstep, rfl⟩ := next_some hs
    exact (settles_step h hop hstep).1 hk
  breaks w l w' h hk hs := by
    obtain ⟨hop, c', hstep, rfl⟩ := next_some hs
    exact fun hh => hk ((settles_step h hop hstep).2 hh)

theorem inv_start {c : Cfg} (h : Fresh c) : Inv (start c) where
  heard := ⟨Or.inl rfl, rfl, rfl⟩
  plain := h.plain
  tidy := .callback (by simp [start, h.stack])
  pending _ _ ht := absurd rfl ht
  gone hg := absurd rfl hg
  closed hc := nomatch hc

/-- **No connection is lost in silence.** A run in Plain mode from a socket
with no descriptor, with any calls from any handler, any events and any
answers, keeps the promise of `Heard` throughout exactly when all its steps
meet `Keeps`. -/
theorem no_silent_loss_iff {c : Cfg} (h : Fresh c) {t : List (Label × Watch)}
    (ht : watched.Trace (start c) t) :
    LTS.AllStates Heard (start c) t ↔ LTS.AllSteps Keeps (start c) t :=
  heard_exact.allStates_iff ht (inv_start h)

/-! ## Three runs -/

instance (s : Sock) (f : Family) : Decidable (Last s f) := inferInstanceAs (Decidable (_ ∧ _))

instance (w : Watch) (a : Ans) : ∀ fr : Frame, Decidable (blockKeeps fr w a)
  | .processWrite _ _ => inferInstanceAs (Decidable (writeFails a = true → Unreported w))
  | .plainWrite _ =>
    inferInstanceAs (Decidable (w.cfg.s.mState = .connecting → ¬ NoneOpen w.cfg.s))
  | .dropFailed f =>
    inferInstanceAs (Decidable (Last w.cfg.s f → w.told f = some w.cfg.s.mState))
  | .closeOther f =>
    inferInstanceAs (Decidable (Last w.cfg.s f.other → w.told f.other = some w.cfg.s.mState))
  | .handler | .callProcessWrite _ | .writeRange _ | .plainRead | .armConnect _ => isTrue trivial
  | .close | .tlsAttach _ | .connectTLS _ | .tlsHandshaken _ | .tlsRead _ | .tlsRetryRead => isTrue trivial
  | .tlsRetryWrite _ | .tlsReadLoop | .tlsWrite _ | .tlsDoWrite _ => isTrue trivial

instance (w : Watch) : ∀ l : Label, Decidable (Keeps w l)
  | .call _ | .ret => isTrue trivial
  | .event fd flags => inferInstanceAs (Decidable (flags.error = true →
      (w.cfg.s.mFd4 = some fd ∨ w.cfg.s.mFd6 = some fd) →
      (w.cfg.s.mFd4 ≠ none ∧ w.cfg.s.mFd6 ≠ none)))
  | .run a => inferInstanceAs (Decidable (∀ fr ∈ w.cfg.stack.head?, blockKeeps fr w a))

instance (w : Watch) : Decidable (Heard w) :=
  decidable_of_iff ((w.gone = none ∨ w.gone = some (some w.cfg.s.mState)) ∧
      w.surplus = false ∧ w.late = false)
    ⟨fun h => ⟨h.1, h.2.1, h.2.2⟩, fun h => ⟨h.loss, h.once, h.quiet⟩⟩

theorem fresh_init : Fresh Cfg.init := ⟨rfl, ⟨rfl, rfl⟩, rfl⟩

/-- Two attempts that fail one after the other; the second is reported, and
its descriptor closed after the handler. -/
def bothFail : List Label :=
  [.call (.connect .v4 .plain (some 5) .inProgress), .ret, .run .unit,
   .call (.connect .v6 .plain (some 6) .inProgress),
   .event 6 ⟨false, false, true⟩, .run (.soError true),
   .event 5 ⟨false, false, true⟩, .run (.soError true), .ret, .run .unit]

theorem no_silent_loss_bothFail : ∃ h : (LTS.record next (start Cfg.init) bothFail).isSome,
    LTS.AllStates Heard (start Cfg.init) ((LTS.record next (start Cfg.init) bothFail).get h) :=
  ⟨by decide, (no_silent_loss_iff fresh_init (LTS.trace_record (by decide))).mpr (by decide)⟩

/-- A connected socket, and an error event on its descriptor. -/
def errorEvent : List Label :=
  [.call (.connect .v4 .plain (some 5) .ok), .ret, .run .unit, .run .unit, .run .unit,
   .event 5 ⟨true, false, false⟩]

theorem errorEvent_runs : (LTS.record next (start Cfg.init) errorEvent).isSome := by decide

/-- The descriptor is closed, nothing is said, and the socket is still
`Connected`. -/
theorem silent_loss : ∃ t, watched.Trace (start Cfg.init) t ∧ t.map Prod.fst = errorEvent ∧
    (t.getLast?.map fun x => (x.2.gone, x.2.cfg.s.mState, x.2.cfg.out.states)) =
      some (some none, .connected, [.connected]) ∧
    ¬ LTS.AllStates Heard (start Cfg.init) t := by
  refine ⟨_, LTS.trace_record errorEvent_runs, by decide, by decide, ?_⟩
  intro hx
  obtain ⟨-, h⟩ := hx
  exact absurd (h _ (List.getLast_mem (by decide))) (by decide)

/-- The handler of `Connected` closes the socket while a write is pending. -/
def closedInHandler : List Label :=
  [.call (.connect .v4 .plain (some 5) .inProgress), .ret, .run .unit, .call (.write [1]),
   .event 5 ⟨false, false, true⟩, .run (.soError false), .call .close, .ret, .run .unit,
   .run (.writeErr 9)]

theorem closedInHandler_runs : (LTS.record next (start Cfg.init) closedInHandler).isSome := by
  decide

/-- The branch goes on to `write(-1, ..)`, and `Error` follows `close()`. -/
theorem heard_after_close : ∃ t, watched.Trace (start Cfg.init) t ∧
    t.map Prod.fst = closedInHandler ∧
    (t.getLast?.map fun x => (x.2.late, x.2.cfg.out.states)) =
      some (true, [.connecting, .connected, .error]) :=
  ⟨_, LTS.trace_record closedInHandler_runs, by decide, by decide⟩

end Reckoning.L4.TcpLoss
