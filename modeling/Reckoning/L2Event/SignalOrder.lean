import Reckoning.L2Event.SignalThreads

/-!
# Runs of a signal that several threads use

What every interleaving of the threads of `L2Event.SignalThreads` keeps to.

* `Global.step`, `inductive_asserted`: the books, in every reachable state.
* `emits_once`: each emit reaches each connection that stays connected once.
* `received_in_order`: what one emit after another means to a handler.
* `lock_released`: nobody waits for the spin lock for long.
-/
namespace Reckoning.L2.SignalThreads
open Reckoning.Monitor

variable {T : Type} [DecidableEq T] {hasLoop : T → Bool} {d d' : Data T} {op : Op} {t u : T}
  {p p' : Place T} {es es' : List (Emission T × List Conn)}

/-! ## The shared data -/

omit [DecidableEq T] in
theorem Known.effect {o : Option (Emission T)} {y : Delivery T} (h : Known y d)
    (heff : Effect o d d') : Known y d' where
  started := by
    obtain ⟨l, hl⟩ := heff.started
    rw [← hl, List.getElem?_append_left (List.getElem?_eq_some_iff.mp h.started).1]
    exact h.started
  conn := Nat.lt_of_lt_of_le h.conn heff.next
  home u hu := (heff.home y.conn h.conn).trans (h.home u hu)
  before m hm := (heff.ended.map _).subset (h.before m hm)

theorem Ordered.mem_sent (ho : Ordered d) {y : Delivery T} (hy : y ∈ d.mEvents u) :
    y ∈ d.sent ∧ y.loop = some u := by
  have hmem : y ∈ d.sent.filter (·.loop == some u) := ho.fifo u ▸ List.mem_append_right _ hy
  simpa using List.mem_filter.mp hmem

omit [DecidableEq T] in
/-- The new turn of an emit that has not ended follows every old one. -/
theorem follows_new {e : Emission T} {x : Delivery T} (hact : Active t e d) (hx : Known x d)
    (c : Conn) (l : Option T) : Follows x ⟨e, c, l⟩ :=
  fun _ hm => absurd (hx.before _ hm) hact.running

/-- A loop runs its next event. -/
theorem ordered_execute (hk : ∀ y ∈ d.sent, Known y d) (ho : Ordered d) {y : Delivery T}
    {ys : List (Delivery T)} (hy : d.mEvents t = y :: ys) :
    Ordered { d with
      received := d.received ++ [y], mEvents := Function.update d.mEvents t ys } := by
  have hmem : y ∈ d.mEvents t := hy ▸ List.mem_cons_self ..
  obtain ⟨hsent, hloop⟩ := ho.mem_sent hmem
  have hsub : ∀ u, ∀ z ∈ Function.update d.mEvents t ys u, z ∈ d.mEvents u := by
    intro u z hz
    by_cases hu : u = t
    · subst hu
      rw [Function.update_self] at hz
      exact hy ▸ List.mem_cons_of_mem _ hz
    · rwa [Function.update_of_ne hu] at hz
  have hqueue := ho.queue t
  rw [hy, List.pairwise_cons] at hqueue
  refine ⟨fun u => ?_, ?_, ?_, ?_, fun u => ?_⟩
  · by_cases hu : u = t
    · subst hu
      have hfifo := ho.fifo u
      rw [hy] at hfifo
      simpa [hloop] using hfifo
    · have hne : (y.loop == some u) = false := by simp [hloop, Ne.symm hu]
      simpa [hne, hu] using ho.fifo u
  · intro z hz
    rcases List.mem_append.mp hz with hz | hz
    · exact ho.taken z hz
    · exact List.mem_singleton.mp hz ▸ hsent
  · refine List.pairwise_append.mpr ⟨ho.order, List.pairwise_singleton .., fun x hx z hz => ?_⟩
    exact List.mem_singleton.mp hz ▸ ho.queued t x hx y hmem
  · intro u x hx z hz
    rcases List.mem_append.mp hx with hx | hx
    · exact ho.queued u x hx z (hsub u z hz)
    · obtain rfl := List.mem_singleton.mp hx
      intro hconn hbefore
      obtain ⟨hzsent, hzloop⟩ := ho.mem_sent (hsub u z hz)
      -- one connection, one loop
      have hu : u = t := by
        have h₁ := (hk z hzsent).home u hzloop
        rw [hconn, (hk x hsent).home t hloop] at h₁
        exact (Option.some.inj h₁).symm
      subst hu
      have hzs : z ∈ ys := by simpa using hz
      exact absurd hbefore (hqueue.1 z hzs)
  · show (Function.update d.mEvents t ys u).Pairwise _
    by_cases hu : u = t
    · subst hu
      rw [Function.update_self]
      exact hqueue.2
    · rw [Function.update_of_ne hu]
      exact ho.queue u

/-- A handler is called. -/
theorem ordered_direct (hk : ∀ y ∈ d.sent, Known y d) (ho : Ordered d) {e : Emission T}
    (hact : Active t e d) (c : Conn) :
    Ordered { d with
      sent := d.sent ++ [⟨e, c, none⟩], received := d.received ++ [⟨e, c, none⟩] } := by
  refine ⟨fun u => by simpa using ho.fifo u, ?_, ?_, ?_, ho.queue⟩
  · intro z hz
    exact List.mem_append.mpr ((List.mem_append.mp hz).imp_left (ho.taken z))
  · refine List.pairwise_append.mpr ⟨ho.order, List.pairwise_singleton .., fun x hx z hz => ?_⟩
    obtain rfl := List.mem_singleton.mp hz
    exact follows_new hact (hk x (ho.taken x hx)) c none
  · intro u x hx z hz
    rcases List.mem_append.mp hx with hx | hx
    · exact ho.queued u x hx z hz
    · obtain rfl := List.mem_singleton.mp hx
      intro _ _
      exact ⟨rfl, by simp [(ho.mem_sent hz).2]⟩

/-- A handler's call is posted to the loop of `u`. -/
theorem ordered_post (hk : ∀ y ∈ d.sent, Known y d) (ho : Ordered d) {e : Emission T}
    (hact : Active t e d) (c : Conn) (u : T) :
    Ordered { d with
      sent := d.sent ++ [⟨e, c, some u⟩]
      mEvents := Function.update d.mEvents u (d.mEvents u ++ [⟨e, c, some u⟩]) } := by
  have hcases : ∀ v, ∀ z ∈ Function.update d.mEvents u (d.mEvents u ++ [⟨e, c, some u⟩]) v,
      z ∈ d.mEvents v ∨ z = ⟨e, c, some u⟩ := by
    intro v z hz
    by_cases hv : v = u
    · subst hv
      rw [Function.update_self] at hz
      exact (List.mem_append.mp hz).imp_right List.mem_singleton.mp
    · rw [Function.update_of_ne hv] at hz
      exact .inl hz
  refine ⟨fun v => ?_, fun z hz => List.mem_append_left _ (ho.taken z hz), ho.order, ?_, fun v => ?_⟩
  · by_cases hv : v = u
    · subst hv
      simp [← ho.fifo v]
    · have hne : (some u == some v) = false := by simp [Ne.symm hv]
      simpa [hne, hv, Ne.symm hv] using ho.fifo v
  · intro v x hx z hz
    rcases hcases v z hz with hz | rfl
    · exact ho.queued v x hx z hz
    · exact follows_new hact (hk x (ho.taken x hx)) c (some u)
  · show (Function.update d.mEvents u (d.mEvents u ++ [⟨e, c, some u⟩]) v).Pairwise _
    by_cases hv : v = u
    · subst hv
      rw [Function.update_self]
      refine List.pairwise_append.mpr ⟨ho.queue v, List.pairwise_singleton .., fun x hx z hz => ?_⟩
      obtain rfl := List.mem_singleton.mp hz
      exact fun hm => hact.running ((hk x (ho.mem_sent hx).1).before _ hm)
    · rw [Function.update_of_ne hv]
      exact ho.queue v

/-- What is known of the new turn. -/
theorem known_new {e : Emission T} {c : Conn} {rest : List Conn} {l : Option T} (hg : Global d)
    (hact : Active t e d) (hturns : Turns e (c :: rest) d) (hl : ∀ u, l = some u → d.home c = some u) :
    Known ⟨e, c, l⟩ d :=
  ⟨hact.started, hturns.made c (List.mem_cons_self ..), hl,
    (hg.calls e (List.mem_of_getElem? hact.started)).2.2⟩

theorem Global.step (hg : Global d) (hl : Local t p es d)
    (h : Statement hasLoop t d p es op p' es' d') : Global d' := by
  have heff := h.effect
  have hfin : ∀ e ∈ d.ended, d'.started[e.number]? = some e ∧ Turns e [] d' := fun e he => by
    obtain ⟨hs, hturns⟩ := hg.finished e he
    obtain ⟨l, hpre⟩ := heff.started
    refine ⟨?_, hturns.effect heff fun e' ho heq => ?_⟩
    · rw [← hpre, List.getElem?_append_left (List.getElem?_eq_some_iff.mp hs).1]
      exact hs
    · have hact := hl.active e' (by simp [emissions, ho])
      exact hact.running (heq ▸ List.mem_map_of_mem he)
  have hcalls : ∀ e ∈ d.started, e.next ≤ d'.next ∧
      (∀ c, e.cut c = true → d'.mConnected c = false) ∧
      ∀ m ∈ e.before, m ∈ d'.ended.map Emission.number := fun e he => by
    obtain ⟨h₁, h₂, h₃⟩ := hg.calls e he
    exact ⟨Nat.le_trans h₁ heff.next, fun c hc => heff.flag c (h₂ c hc),
      fun m hm => (heff.ended.map _).subset (h₃ m hm)⟩
  have hknown : ∀ y ∈ d.sent, Known y d' := fun y hy => (hg.known y hy).effect heff
  have ho := hg.ordered
  cases h with
  | call | ret | lock | unlock | keep | scanned | check | skip => exact hg
  | cut c hc =>
    exact { hg with
      kept := fun c' hc' hlive => hg.kept c' hc' (heff.live c' hlive)
      finished := hfin, calls := hcalls, known := hknown
      ordered := ⟨ho.fifo, ho.taken, ho.order, ho.queued, ho.queue⟩ }
  | emit =>
    refine { hg with
      finished := hfin, calls := fun e he => ?_, known := hknown
      ordered := ⟨ho.fifo, ho.taken, ho.order, ho.queued, ho.queue⟩ }
    rcases List.mem_append.mp he with he | he
    · exact hcalls e he
    · obtain rfl := List.mem_singleton.mp he
      exact ⟨Nat.le_refl _, fun c hc => by simpa [Data.emission] using hc, fun m hm => hm⟩
  | execute y ys hy =>
    exact { hg with
      finished := hfin, calls := hcalls, known := hknown
      ordered := ordered_execute hg.known ho hy }
  | connect =>
    have hnot : d.next ∉ d.mConnections := fun hm => Nat.lt_irrefl _ (hg.listed _ hm)
    refine ⟨?_, fun c hc => ?_, fun c hc hlive => ?_, hfin, hcalls, hknown,
      ⟨ho.fifo, ho.taken, ho.order, ho.queued, ho.queue⟩⟩
    · exact List.nodup_append.mpr ⟨hg.nodup, by simp, fun a ha b hb hab =>
        hnot (List.mem_singleton.mp hb ▸ hab ▸ ha)⟩
    · rcases List.mem_append.mp hc with hc | hc
      · exact Nat.lt_succ_of_lt (hg.listed c hc)
      · exact List.mem_singleton.mp hc ▸ Nat.lt_succ_self _
    · rcases Nat.lt_succ_iff_lt_or_eq.mp hc with hc | rfl
      · exact List.mem_append_left _ (hg.kept c hc hlive)
      · exact List.mem_append_right _ (List.mem_singleton_self _)
  | clear =>
    refine ⟨.nil, fun c hc => absurd hc List.not_mem_nil, fun c hc hlive => ?_, hfin, hcalls, hknown,
      ⟨ho.fifo, ho.taken, ho.order, ho.queued, ho.queue⟩⟩
    have hcleared := hlive.2
    simp only [Data.clear, Bool.or_eq_false_iff, decide_eq_false_iff_not] at hcleared
    exact absurd hc hcleared.2
  | erase e connections c rest hc =>
    have hlist : d.mConnections = connections ++ c :: rest := hl.place.list
    have hsub : (connections ++ rest).Sublist d.mConnections :=
      hlist ▸ (List.Sublist.refl _).append (List.sublist_cons_self ..)
    refine ⟨hg.nodup.sublist hsub, fun c' hc' => hg.listed c' (hsub.subset hc'),
      fun c' hc' hlive => ?_, hfin, hcalls, hknown,
      ⟨ho.fifo, ho.taken, ho.order, ho.queued, ho.queue⟩⟩
    have hne : c' ≠ c := by
      rintro rfl
      exact Bool.false_ne_true (hc.symm.trans hlive.1)
    have hmem := hg.kept c' hc' hlive
    simpa [hlist, hne] using hmem
  | finish e =>
    refine { hg with
      finished := fun e' he' => ?_, calls := hcalls, known := hknown
      ordered := ⟨ho.fifo, ho.taken, ho.order, ho.queued, ho.queue⟩ }
    rcases List.mem_append.mp he' with he' | he'
    · exact hfin e' he'
    · obtain rfl := List.mem_singleton.mp he'
      have hturns : Turns e' [] d := hl.place
      exact ⟨(hl.active e' (List.mem_cons_self ..)).started,
        ⟨hturns.nodup, hturns.made, hturns.fresh, hturns.uncut, hturns.once, hturns.all⟩⟩
  | direct e c rest hc =>
    have hact := hl.active e (List.mem_cons_self ..)
    refine { hg with
      finished := hfin, calls := hcalls, known := fun y hy => ?_
      ordered := ordered_direct hg.known ho hact c }
    rcases List.mem_append.mp hy with hy | hy
    · exact hknown y hy
    · obtain rfl := List.mem_singleton.mp hy
      exact (known_new hg hact hl.place fun u hu => by cases hu).effect heff
  | post e c rest u hc hu =>
    have hact := hl.active e (List.mem_cons_self ..)
    refine { hg with
      finished := hfin, calls := hcalls, known := fun y hy => ?_
      ordered := ordered_post hg.known ho hact c u }
    rcases List.mem_append.mp hy with hy | hy
    · exact hknown y hy
    · obtain rfl := List.mem_singleton.mp hy
      exact (known_new hg hact hl.place fun v hv => Option.some.inj hv ▸ hc).effect heff

/-! ## All threads -/

/-- What is asserted of the thread `t`. -/
structure Holds (t : T) (pc : Pc T) (d : Data T) : Prop where
  self : pc.self = t
  global : Global d
  place : Local t pc.place pc.suspended d

theorem outline (hasLoop : T → Bool) :
    Outline (program hasLoop) (fun _ _ _ => True) Holds where
  own t pc d x op pc' d' _ hn ha := by
    obtain ⟨hself, hstep⟩ := next_spec hn
    have hl := ha.place
    rw [ha.self] at hstep hself
    exact ⟨hself, ha.global.step hl hstep, hl.own ha.global hstep⟩
  other t u pc q d x op pc' d' hut _ hn hout ht hu := by
    obtain ⟨-, hstep⟩ := next_spec hn
    rw [ht.self] at hstep
    refine ⟨hu.self, ht.global.step ht.place hstep, hu.place.other hut (fun e he => ?_) hstep
      fun hp => hout (.inl hp)⟩
    exact ht.place.active e (by simp [emissions, he])

theorem global_init : Global (Data.init : Data T) where
  nodup := .nil
  listed := nofun
  kept := nofun
  finished := nofun
  calls := nofun
  known := nofun
  ordered := ⟨fun _ => rfl, nofun, .nil, nofun, fun _ => .nil⟩

theorem inductive_asserted (hasLoop : T → Bool) :
    (signal hasLoop).Inductive (Asserted (program hasLoop) Holds) := by
  refine (outline hasLoop).holds (disciplined hasLoop) fun s hs => ?_
  subst hs
  exact ⟨fun t => ⟨nofun, nofun⟩, fun t => ⟨rfl, global_init, trivial, nofun, nofun, .nil⟩⟩

/-- **The order in which handlers are run.** In every interleaving each loop
runs what was posted to it in the order of the posts, each once. When an emit had
ended before another was called, by whichever threads, then a connection that
has received both has received the earlier one first; unless the earlier one was
posted to its loop and the later one was called on the loop's own thread. -/
theorem received_in_order (hasLoop : T → Bool) (t : T) (s : State T (Pc T) (Data T))
    (hr : (signal hasLoop).Reachable s) :
    (∀ u, s.data.received.filter (·.loop == some u) ++ s.data.mEvents u =
      s.data.sent.filter (·.loop == some u)) ∧ s.data.received.Pairwise Follows :=
  have ho := (((inductive_asserted hasLoop).reachable s hr).holds t).global.ordered
  ⟨ho.fifo, ho.order⟩

/-! ### A call overtakes a post -/

/-- Thread `true` has a loop and connects; thread `false` emits. -/
def connects : List (Label Bool Choice) :=
  [.run true .connect none, .run true .go none, .run true .go none, .run true .go none]

/-- A whole emit of thread `t`, up to its only turn. -/
def emits (t : Bool) : List (Label Bool Choice) :=
  [.run t .emit none, .run t .go none, .run t .go none, .run t .go none, .run t .go none,
   .run t .go none]

/-- Thread `false` emits, then thread `true`; then the loop runs the first one. -/
def overtakes : List (Label Bool Choice) :=
  connects ++ emits false ++ [.run false .go none] ++ emits true ++
    [.run true .ret none, .run true .go none, .run true .execute none]

theorem overtakes_runs : (LTS.replay (step (program id)) State.init overtakes).isSome := rfl

def overtaken : State Bool (Pc Bool) (Data Bool) :=
  (LTS.replay (step (program id)) State.init overtakes).get overtakes_runs

theorem overtaken_reachable : (signal id).Reachable overtaken :=
  LTS.reachable_replay (· = State.init) rfl overtakes_runs

theorem overtaken_ended : overtaken.data.ended ≠ [] := List.cons_ne_nil _ _

theorem received_in_order_overtaken : overtaken.data.received.Pairwise Follows :=
  (received_in_order id true overtaken overtaken_reachable).2

example : overtaken.data.received.map (·.emission.number) = [1, 0] := rfl

/-! ## The spin lock -/

/-- The statements up to the unlock. -/
def Place.cost : Place T → Nat
  | .connect | .clear => 2
  | .unlock => 1
  | .scan _ _ rest => rest.length + 1
  | _ => 0

/-- The thread that holds the lock has a next statement, which unlocks or leaves
less to do. -/
theorem next_inside (hasLoop : T → Bool) {pc : Pc T} (hin : pc.place.inside = true) (d : Data T) :
    ∃ op pc' d', next hasLoop pc d .go = some (op, pc', d') ∧ (op = .unlock ∨ op = .plain) ∧
      pc'.place.cost < pc.place.cost := by
  obtain ⟨self, place, suspended⟩ := pc
  cases place with
  | connect | clear => exact ⟨_, _, _, rfl, .inr rfl, Nat.lt_succ_self _⟩
  | unlock => exact ⟨_, _, _, rfl, .inl rfl, Nat.lt_succ_self _⟩
  | scan e connections rest =>
    cases rest with
    | nil => exact ⟨_, _, _, rfl, .inl rfl, Nat.lt_succ_self _⟩
    | cons c rest =>
      by_cases hc : d.mConnected c = true
      · exact ⟨.plain, ⟨self, .scan e (connections ++ [c]) rest, suspended⟩, d, by simp [next, hc],
          .inr rfl, Nat.lt_succ_self _⟩
      · exact ⟨.plain, ⟨self, .scan e connections rest, suspended⟩,
          { d with mConnections := connections ++ rest }, by simp [next, hc],
          .inr rfl, Nat.lt_succ_self _⟩
  | user | connectLock | clearLock | emitLock | turns | invoke => cases hin

/-- The thread that holds the lock comes closer to its unlock. -/
theorem progress_inside (hasLoop : T → Bool) {s : State T (Pc T) (Data T)}
    (hex : Exclusive (program hasLoop) s) (hown : s.owner = some t) :
    ∃ s', step (program hasLoop) s (.run t .go none) = some s' ∧
      (∀ u, s'.owner = some u → u = t) ∧ (s'.pc t).place.cost < (s.pc t).place.cost := by
  have hin : (s.pc t).place.inside = true := (hex t).mp hown
  obtain ⟨op, pc', d', hnext, hop, hlt⟩ := next_inside hasLoop hin s.data
  rcases hop with rfl | rfl
  · have hperf : perform t none s.owner s.asleep .unlock = some (none, s.asleep) := by
      simp [perform, hown]
    refine ⟨_, step_of_next hnext hperf, by simp, ?_⟩
    simpa using hlt
  · have hperf : perform t none s.owner s.asleep .plain = some (s.owner, s.asleep) := rfl
    refine ⟨_, step_of_next hnext hperf, fun u hu => Option.some.inj (hu.symm.trans hown), ?_⟩
    simpa using hlt

/-- **Nobody waits long for the spin lock.** Whoever holds it is not in a
handler; its own next statements, one for each connection at most and one more,
release it, whatever the connections are. -/
theorem lock_released (hasLoop : T → Bool) (s : State T (Pc T) (Data T))
    (hr : (signal hasLoop).Reachable s) (t : T) (hown : s.owner = some t) :
    (s.pc t).place ≠ .user ∧ ∃ ls s',
      ((signal hasLoop).guard fun _ l => l = .run t .go none).Run s ls s' ∧
      ls.length ≤ (s.pc t).place.cost ∧ s'.owner = none := by
  have hi := (inductive_asserted hasLoop).reachable s hr
  refine ⟨fun hu => ?_, ?_⟩
  · have hin := (hi.exclusive t).mp hown
    simp only [program, hu] at hin
    cases hin
  · have hstep : ∀ s₁ : State T (Pc T) (Data T),
        (Exclusive (program hasLoop) s₁ ∧ ∀ u, s₁.owner = some u → u = t) → ¬ s₁.owner = none →
        ∃ l s₂, l = .run t .go none ∧ (signal hasLoop).step s₁ l s₂ ∧
          (Exclusive (program hasLoop) s₂ ∧ ∀ u, s₂.owner = some u → u = t) ∧
          (s₂.pc t).place.cost < (s₁.pc t).place.cost := by
      rintro s₁ ⟨hex, hme⟩ hd
      obtain ⟨u, hu⟩ := Option.ne_none_iff_exists'.mp hd
      obtain rfl := hme u hu
      obtain ⟨s₂, hs, hown₂, hlt⟩ := progress_inside hasLoop hex hu
      exact ⟨_, s₂, rfl, hs, ⟨exclusive_step (disciplined hasLoop) hex hs, hown₂⟩, hlt⟩
    obtain ⟨ls, s', hrun, hlen, hdone, -⟩ := LTS.drains hstep s
      ⟨hi.exclusive, fun u hu => Option.some.inj (hu.symm.trans hown)⟩
    exact ⟨ls, s', hrun, hlen, hdone⟩

theorem scanning_runs :
    (LTS.replay (step (program id)) State.init (connects ++ (emits false).take 2)).isSome := rfl

theorem lock_released_scanning : ∃ ls s', ((signal id).guard fun _ l => l = .run false .go none).Run
    ((LTS.replay (step (program id)) State.init (connects ++ (emits false).take 2)).get
      scanning_runs) ls s' ∧ s'.owner = none := by
  obtain ⟨-, ls, s', hrun, -, hfree⟩ := lock_released id _
    (LTS.reachable_replay (· = State.init) rfl scanning_runs) false rfl
  exact ⟨ls, s', hrun, hfree⟩

end Reckoning.L2.SignalThreads
