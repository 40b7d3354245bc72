import Reckoning.Core.MonitorLive
import Reckoning.L4Net.ResolverRuns

/-!
# The resolver comes to an end

Whatever the threads of `L4Net.Resolver` have done, they can get on: the
resolver's thread, and before it the thread that holds the lock, has a statement
that leaves less to do (`todo`). No other thread has to run. c-ares answers and
`select` does not fail meanwhile. The second of `wait_for` need not pass, except
after `shutdown`, which does not notify.

* `progress_caller`, `progress_worker`, `progress`: the statement.
* `always_finishes`: so every request can be completed, or after `shutdown` the
  thread ends.
-/
namespace Reckoning.L4.Resolver
open Reckoning.Monitor

variable {T : Type} [DecidableEq T] {pton : Pton} {d d' : Data} {op : Op} {x : Choice}

/-- No new call, and the environment works. -/
def Choice.helps : Choice → Bool
  | .startRequest _ | .shutdown | .init false | .selected false => false
  | _ => true

/-- A step that helps, of the resolver's thread or of one inside the lock; `wait_for` times out
only when the thread is to stop. -/
def Helps (me : T) (s : State T Pc Data) : Label T Choice → Prop
  | .run t x _ => (t = me ∨ inside (s.pc t) = true) ∧ x.helps = true
  | .wake _ => s.data.mStopped = true

/-- The same without a timeout. -/
def HelpsAwake (me : T) (s : State T Pc Data) : Label T Choice → Prop
  | .run t x _ => (t = me ∨ inside (s.pc t) = true) ∧ x.helps = true
  | .wake _ => False

/-! ## What is left to do -/

/-- For the thread that holds the lock, until it unlocks. A push makes work for
the resolver's thread. -/
def Caller.cost : Caller → Nat
  | .push _ => 27
  | .notify | .set => 2
  | .leave | .unlock => 1
  | _ => 0

/-- For the resolver's thread, until it locks. -/
def Worker.cost (pton : Pton) (d : Data) : Worker → Nat
  | .setup => 6
  | .lock | .woken => 5
  | .checkStopped | .recheckStopped => 4
  | .test | .leave => 3
  | .take => 2
  | .unlock requests => 5 * (requests.flatMap (queries pton)).length + 11 + requests.length
  | .query requests todo => 5 * todo.length + 10 + requests.length
  | .fds requests => 9 + requests.length
  | .select requests => 8 + requests.length
  | .process requests => (if d.active = [] then 10 else 7) + requests.length
  | .complete rest => 6 + rest.length
  | .returned => 0

/-- With what c-ares has to answer and what waits in `mRequests`. -/
def left (pton : Pton) (w : Worker) (d : Data) : Nat :=
  w.cost pton d + 4 * d.active.length + 24 * d.mRequests.length

def Pc.cost : Pc → Nat
  | .caller c => c.cost
  | .worker _ => 0

def Pc.left (pton : Pton) : Pc → Data → Nat
  | .worker w, d => Resolver.left pton w d
  | .caller _, _ => 0

theorem length_queries (pton : Pton) (req : Request) : (queries pton req).length ≤ 2 := by
  unfold queries
  split
  · simp
  · split <;> simp

theorem length_flatMap_queries (pton : Pton) (requests : List Request) :
    (requests.flatMap (queries pton)).length ≤ 2 * requests.length := by
  induction requests with
  | nil => simp
  | cons req rest ih =>
    have := length_queries pton req
    simp only [List.flatMap_cons, List.length_append, List.length_cons]
    omega

/-- Everything submitted is completed. -/
def Done (w : Worker) (d : Data) : Prop :=
  w = .returned ∨ d.mStopped = false ∧ completed d.log = d.submitted

/-- **Progress of the resolver's thread.** -/
theorem progress_worker {w : Worker} (ha : At pton w d) (hd : ¬ Done w d) :
    ∃ x op w' d', workerNext pton d w x = some (op, w', d') ∧ x.helps = true ∧
      op ≠ .wait ∧ op ≠ .notify ∧ left pton w' d' < left pton w d := by
  have hnot := not_or.mp hd
  cases w with
  | setup => exact ⟨.init true, _, _, _, rfl, rfl, by simp, by simp, by simp [left, Worker.cost]⟩
  | lock | woken => exact ⟨.go, _, _, _, rfl, rfl, by simp, by simp, by simp [left, Worker.cost]⟩
  | checkStopped | recheckStopped =>
    refine ⟨.go, _, _, _, rfl, rfl, by simp, by simp, ?_⟩
    split <;> simp [left, Worker.cost]
  | test =>
    -- with nothing to take everything would be completed
    have hreqs : d.mRequests ≠ [] := fun hnil =>
      hnot.2 ⟨ha.running rfl, by simpa [hnil, Worker.pending] using ha.books.order⟩
    refine ⟨.go, .plain, .take, d, ?_, rfl, by simp, by simp, by simp [left, Worker.cost]⟩
    simp [workerNext, hreqs]
  | leave => exact ⟨.go, _, _, _, rfl, rfl, by simp, by simp, by simp [left, Worker.cost]⟩
  | take =>
    refine ⟨.go, _, _, _, rfl, rfl, by simp, by simp, ?_⟩
    have hpos := List.length_pos_iff.mpr (ha.taking rfl)
    have := length_flatMap_queries pton d.mRequests
    simp only [left, Worker.cost, List.length_nil]
    omega
  | unlock requests =>
    exact ⟨.go, _, _, _, rfl, rfl, by simp, by simp, by simp [left, Worker.cost]⟩
  | query requests todo =>
    cases todo with
    | nil => exact ⟨.go, _, _, _, rfl, rfl, by simp, by simp, by simp [left, Worker.cost]⟩
    | cons q todo =>
      refine ⟨.go, _, _, _, rfl, rfl, by simp, by simp, ?_⟩
      simp only [left, Worker.cost, List.length_append, List.length_cons, List.length_nil]
      omega
  | fds requests =>
    by_cases hact : d.active = []
    · refine ⟨.nfds 0, .plain, .complete requests, d, ?_, rfl, by simp, by simp, by
        simp [left, Worker.cost]⟩
      simp [workerNext, Fds, hact]
    · refine ⟨.nfds 1, .plain, .select requests, d, ?_, rfl, by simp, by simp, by
        simp [left, Worker.cost]⟩
      simp [workerNext, Fds, hact]
  | select requests =>
    refine ⟨.selected true, _, _, _, rfl, rfl, by simp, by simp, ?_⟩
    simp [left, Worker.cost, ha.active requests rfl]
  | process requests =>
    cases hact : d.active with
    | nil =>
      refine ⟨.go, _, _, _, rfl, rfl, by simp, by simp, ?_⟩
      simp [left, Worker.cost, hact]
    | cons q active =>
      have hans : answer 0 (.error 0) d =
          some { d with active := active, log := d.log ++ [.answer q (.error 0)] } := by
        simp [answer, hact]
      refine ⟨.answer 0 (.error 0), .plain, .process requests, _, by simp only [workerNext, hans]; rfl,
        rfl, by simp, by simp, ?_⟩
      simp only [left, Worker.cost, hact]
      split
      · simp
        omega
      · simp
  | complete rest =>
    cases rest with
    | nil => exact ⟨.go, _, _, _, rfl, rfl, by simp, by simp, by simp [left, Worker.cost]⟩
    | cons req rest =>
      exact ⟨.go, _, _, _, rfl, rfl, by simp, by simp, by simp [left, Worker.cost]⟩
  | returned => exact absurd rfl hnot.1

/-- The place after `wait_for`. -/
def woken : Pc → Bool
  | .worker .woken => true
  | _ => false

theorem waits_woken (pton : Pton) : Waits (program pton) woken := by
  intro pc d x op pc' d' h
  cases pc with
  | caller c =>
    obtain ⟨c', rfl, hstep⟩ := next_caller h
    refine ⟨?_, nofun⟩
    rintro rfl
    cases hstep with
    | moves hk hawake => exact absurd rfl hawake
  | worker w =>
    obtain ⟨w', rfl, hstep⟩ := next_worker h
    cases hstep with
    | moves hm =>
      refine ⟨fun hop => by rw [(hm.waits hop).1]; rfl, fun hw => hm.locks ?_⟩
      cases w <;> first | rfl | cases hw
    | failed | leave | take | query | complete => exact ⟨nofun, nofun⟩
    | answer a working =>
      refine ⟨nofun, fun hw => ?_⟩
      cases w <;> simp_all [woken, Worker.working]

/-- The place before `notify_one`. -/
def tells : Pc → Bool
  | .caller .notify => true
  | _ => false

theorem notifies_tells (pton : Pton) : Notifies (program pton) (·.mRequests = []) tells where
  wait pc d x pc' d' h := by
    cases pc with
    | caller c =>
      obtain ⟨c', rfl, hstep⟩ := next_caller h
      cases hstep with
      | moves hk hawake => exact absurd rfl hawake
    | worker w =>
      obtain ⟨w', rfl, hstep⟩ := next_worker h
      cases hstep with
      | moves hm => exact (hm.waits rfl).2
  makes pc d x op pc' d' h hidle hbusy := by
    cases pc with
    | caller c =>
      obtain ⟨c', rfl, hstep⟩ := next_caller h
      cases hstep with
      | push => rfl
      | moves | set | join => exact absurd hidle hbusy
    | worker w =>
      obtain ⟨w', rfl, hstep⟩ := next_worker h
      cases hstep with
      | take => exact absurd rfl hbusy
      | moves | failed | leave | query | answer | complete => exact absurd hidle hbusy
  tells pc d x op pc' d' h ht := by
    cases pc with
    | caller c => cases c <;> cases x <;> simp_all [program, next, callerNext, tells]
    | worker => cases ht

/-! ## The system -/

/-- What holds of every reachable state. -/
structure Sound (pton : Pton) (me : T) (s : State T Pc Data) : Prop where
  asserted : Asserted (program pton) (Holds me (At pton)) s
  sleeping : Sleeping woken s
  prompt : Prompt (·.mRequests = []) tells s

omit [DecidableEq T] in
theorem Sound.one {pton : Pton} {me : T} {s : State T Pc Data} (h : Sound pton me s) :
    s.asleep.length ≤ 1 := by
  refine h.sleeping.one me fun t ht => ?_
  have hown := h.asserted.holds t
  cases hpc : s.pc t with
  | caller => rw [hpc] at ht; cases ht
  | worker => rw [hpc] at hown; exact hown.1

theorem inside_of_tells (pc : Pc) (h : tells pc = true) : inside pc = true := by
  cases pc with
  | caller c => cases c <;> first | rfl | cases h
  | worker => cases h

theorem inductive_sound (pton : Pton) (me : T) :
    (resolver pton me).Inductive (Sound pton me) where
  init s hs := by
    refine ⟨(inductive_asserted pton me).init s hs, ?_, ?_⟩
    · subst hs
      exact ⟨.nil, nofun⟩
    · subst hs
      exact fun hne => absurd rfl hne
  step s l s' hi hs :=
    ⟨(inductive_asserted pton me).step s l s' hi.asserted hs,
      sleeping_step (waits_woken pton) hi.sleeping hs,
      prompt_step (notifies_tells pton) hi.prompt hi.one hs⟩

/-- The resolver's thread has ended, or it is not to stop and everything
submitted is completed. -/
def Finished (me : T) (s : State T Pc Data) : Prop :=
  s.pc me = .worker .returned ∨ s.data.mStopped = false ∧ completed s.data.log = s.data.submitted

variable {me : T} {s s' : State T Pc Data}

/-- A caller that holds the lock, at its next statement. -/
theorem progress_caller {c : Caller} (hin : inside (.caller c) = true) (d : Data) :
    ∃ op c' d', callerNext d c .go = some (op, c', d') ∧ (op ≠ .wait ∧ op ≠ .lock) ∧
      d'.active = d.active ∧ 24 * d'.mRequests.length + c'.cost < 24 * d.mRequests.length + c.cost := by
  cases c with
  | push => exact ⟨_, _, _, rfl, by simp, rfl, by simp [Caller.cost]; omega⟩
  | notify | leave | set | unlock => exact ⟨_, _, _, rfl, by simp, rfl, by simp [Caller.cost]⟩
  | idle | start | stop | join | thrown => cases hin

omit [DecidableEq T] in
/-- The resolver's thread sleeps while there is something to do only when it is
to stop, or somebody else holds the lock. -/
theorem stopped_of_asleep (hi : Sound pton me s) (hown : ∀ t, s.owner = some t → t = me)
    (hd : ¬ Finished me s) (hasleep : me ∈ s.asleep) : s.data.mStopped = true := by
  obtain ⟨w, hpc, ha⟩ := asserted_me hi.asserted
  obtain rfl : w = .woken := by
    have hw := hi.sleeping.waits me hasleep
    rw [hpc] at hw
    cases w <;> first | rfl | cases hw
  refine Classical.byContradiction fun hstop => ?_
  have hreqs : s.data.mRequests ≠ [] := fun hnil => hd (.inr ⟨Bool.eq_false_iff.mpr hstop, by
    simpa [hnil, Worker.pending] using ha.books.order⟩)
  have hawake := hi.prompt.awake hi.asserted.exclusive inside_of_tells (fun t ht => by
    rw [hown t ht, hpc]; rfl) hreqs
  exact List.ne_nil_of_mem hasleep hawake

/-- **Progress.** In a reachable state that is not finished some thread has a
statement that leaves less to do. -/
theorem progress (hi : Sound pton me s) (hd : ¬ Finished me s) :
    Progress (program pton) (Helps me) me (Pc.left pton) Pc.cost s := by
  obtain ⟨w, hw, ha⟩ := asserted_me hi.asserted
  by_cases hother : ∃ t, s.owner = some t ∧ t ≠ me
  · obtain ⟨t, hown, hne⟩ := hother
    have ht := hi.asserted.holds t
    cases hpc : s.pc t with
    | worker => rw [hpc] at ht; exact absurd ht.1 hne
    | caller c =>
      have hin : inside (.caller c) = true := hpc ▸ (hi.asserted.exclusive t).mp hown
      obtain ⟨op, c', d', hnext, hop, hact, hlt⟩ := progress_caller hin s.data
      refine progress_other (l := .go) (p := .caller c') (d := d') hown hne ?_ (fun _ => ?_) hop ?_
      · simp [program, next, hpc, hnext]
      · exact ⟨.inr (hpc ▸ hin), rfl⟩
      · have hworker : w.cost pton d' = w.cost pton s.data := by
          cases w <;> simp [Worker.cost, hact]
        simp only [hw, hpc, Pc.left, Pc.cost, left, hact, hworker]
        omega
  · have hown : ∀ t, s.owner = some t → t = me := fun t ht =>
      Classical.byContradiction fun hne => hother ⟨t, ht, hne⟩
    by_cases hasleep : me ∈ s.asleep
    · exact progress_wake hasleep (stopped_of_asleep hi hown hd hasleep)
    · obtain ⟨x, op, w', d', hnext, hx, hwait, hnotify, hlt⟩ := progress_worker ha fun h => hd
        (h.elim (fun he => .inl (hw.trans (he ▸ rfl))) .inr)
      refine progress_me (l := x) (p := .worker w') (d := d') (disciplined pton)
        hi.asserted.exclusive hasleep hown ?_ ⟨.inl rfl, hx⟩ ⟨hwait, hnotify⟩ ?_
      · simp [program, next, hw, hnext]
      · simpa only [hw, Pc.left] using hlt

theorem finishes (hi : Sound pton me s) : ∃ ls s', ((resolver pton me).guard (Helps me)).Run s ls s' ∧
    ls.length ≤ todo me (Pc.left pton) Pc.cost s ∧ Finished me s' ∧ Sound pton me s' := by
  refine LTS.drains (fun s hi hd => ?_) s hi
  obtain ⟨l, s', hc, hs, hlt⟩ := progress hi hd
  exact ⟨l, s', hc, hs, (inductive_sound pton me).step s l s' hi hs, hlt⟩

/-! ## With nobody in `shutdown` -/

/-- The resolver's thread is not to stop, and nobody is about to tell it. -/
structure Serving (me : T) (s : State T Pc Data) : Prop where
  running : s.data.mStopped = false
  nobody : ∀ t, s.pc t ≠ .caller .stop ∧ s.pc t ≠ .caller .set
  ready : s.pc me ≠ .worker .returned

theorem serving_caller {c c' : Caller} (hx : x.helps = true)
    (h : callerNext d c x = some (op, c', d')) (hc : c ≠ .stop ∧ c ≠ .set) :
    (c' ≠ .stop ∧ c' ≠ .set) ∧ d'.mStopped = d.mStopped ∧ d.submitted <+: d'.submitted := by
  unfold callerNext at h
  split at h
  case h_2 => cases hx
  case h_7 => exact absurd rfl hc.1
  case h_8 => exact absurd rfl hc.2
  case h_10 =>
    split at h
    · cases h; exact ⟨by simp, rfl, List.prefix_rfl⟩
    · split at h <;> cases h
      exact ⟨by simp, rfl, List.prefix_rfl⟩
  case h_11 => cases h
  all_goals cases h; exact ⟨by simp, rfl, by simp⟩

theorem serving_step {l : Label T Choice} (hi : Sound pton me s) (h : Serving me s)
    (hc : Helps me s l) (hs : step (program pton) s l = some s') :
    Serving me s' ∧ s.data.submitted <+: s'.data.submitted := by
  cases l with
  | wake t =>
    obtain ⟨-, rfl⟩ := step_wake hs
    exact ⟨⟨h.running, h.nobody, h.ready⟩, List.prefix_rfl⟩
  | run t x woken =>
    obtain ⟨op, hran⟩ := step_run hs
    have hown := hi.asserted.holds t
    have hnobody := h.nobody t
    have hnext := hran.next
    cases hpc : s.pc t with
    | caller c =>
      rw [hpc] at hnext hown hnobody
      obtain ⟨⟨op, c', d'⟩, hcaller, heq⟩ := Option.map_eq_some_iff.mp hnext
      obtain ⟨-, hpair⟩ := Prod.mk.inj heq
      obtain ⟨hpc', rfl⟩ := Prod.mk.inj hpair
      obtain ⟨hne, hstop, hsub⟩ := serving_caller hc.2 hcaller (by simpa using hnobody)
      refine ⟨⟨hstop.trans h.running, fun u => ?_, ?_⟩, hsub⟩
      · by_cases hut : u = t
        · rw [hut, ← hpc']; simpa using hne
        · rw [hran.others u hut]; exact h.nobody u
      · rw [hran.others me (Ne.symm hown)]; exact h.ready
    | worker w =>
      rw [hpc] at hnext hown
      obtain ⟨w', hpc', hstep⟩ := next_worker hnext
      obtain ⟨rfl, ha⟩ := hown
      have hdata : s'.data.mStopped = s.data.mStopped ∧ s'.data.submitted = s.data.submitted := by
        generalize s'.data = d' at hstep
        cases hstep <;> exact ⟨rfl, rfl⟩
      refine ⟨⟨hdata.1.trans h.running, fun u => ?_, ?_⟩, hdata.2 ▸ List.prefix_rfl⟩
      · by_cases hut : u = t
        · rw [hut, hpc']; simp
        · rw [hran.others u hut]; exact h.nobody u
      · rw [hpc']
        rintro hret
        cases hret
        generalize s'.data = d' at hstep
        cases hstep with
        | moves hm => exact hm.runs.2 rfl
        | failed hx => subst hx; cases hc.2
        | leave => exact absurd (ha.leaving rfl) (by simp [h.running])
        | answer a working => cases working

/-- **The resolver always gets on.** From every reachable state, by steps of its
thread and of the one inside the lock: once it is to stop its thread can end; and
while nobody shuts it down, everything submitted can be completed, without a
timeout of `wait_for`. -/
theorem always_finishes (pton : Pton) (me : T) (s : State T Pc Data)
    (hr : (resolver pton me).Reachable s) :
    (s.data.mStopped = true → ∃ ls s', ((resolver pton me).guard (Helps me)).Run s ls s' ∧
      ls.length ≤ todo me (Pc.left pton) Pc.cost s ∧ s'.pc me = .worker .returned) ∧
    (Serving me s → ∃ ls s', ((resolver pton me).guard (HelpsAwake me)).Run s ls s' ∧
      ls.length ≤ todo me (Pc.left pton) Pc.cost s ∧ s.data.submitted <+: s'.data.submitted ∧
      completed s'.data.log = s'.data.submitted) := by
  have hi := (inductive_sound pton me).reachable s hr
  obtain ⟨ls, s', hrun, hlen, hfin, -⟩ := finishes hi
  have hkeep := (inductive_sound pton me).step
  constructor
  · intro hstop
    refine ⟨ls, s', hrun, hlen, hfin.resolve_right fun h => ?_⟩
    have hstop' : s'.data.mStopped = true := by
      refine (hrun.preserves (I := fun s₁ => Sound pton me s₁ ∧ s₁.data.mStopped = true) ?_
        ⟨hi, hstop⟩).2
      intro s₁ l s₂ h₁ hs
      exact ⟨hkeep s₁ l s₂ h₁.1 hs.2, ((stopped_step h₁.1.asserted hs.2).1 h₁.2).2⟩
    exact Bool.false_ne_true (h.1.symm.trans hstop')
  · intro hserve
    obtain ⟨hrun', -, hserve', hsub⟩ := hrun.strengthen (D := HelpsAwake me)
      (I := fun s₁ => Sound pton me s₁ ∧ Serving me s₁ ∧ s.data.submitted <+: s₁.data.submitted)
      (fun s₁ l s₂ h₁ hc hs => by
        obtain ⟨hs₂, hsub⟩ := serving_step h₁.1 h₁.2.1 hc hs
        refine ⟨?_, hkeep s₁ l s₂ h₁.1 hs, hs₂, h₁.2.2.trans hsub⟩
        cases l with
        | run => exact hc
        | wake => exact Bool.false_ne_true (h₁.2.1.running.symm.trans hc))
      ⟨hi, hserve, List.prefix_rfl⟩
    exact ⟨ls, s', hrun', hlen, hsub, (hfin.resolve_left hserve'.ready).2⟩

theorem waiting_runs : (LTS.replay (step (program noLiterals)) (State.init false) asks).isSome := rfl

theorem waiting_serving : Serving false
    ((LTS.replay (step (program noLiterals)) (State.init false) asks).get waiting_runs) where
  running := rfl
  nobody t := by cases t <;> exact ⟨nofun, nofun⟩
  ready := nofun

/-- The request of `asks` is waiting. -/
theorem always_finishes_asks : ∃ ls s',
    ((resolver noLiterals false).guard (HelpsAwake false)).Run
      ((LTS.replay (step (program noLiterals)) (State.init false) asks).get waiting_runs) ls s' ∧
    completed s'.data.log = s'.data.submitted := by
  obtain ⟨ls, s', hrun, -, -, hdone⟩ := (always_finishes noLiterals false _
    (LTS.reachable_replay (· = State.init false) rfl waiting_runs)).2 waiting_serving
  exact ⟨ls, s', hrun, hdone⟩

end Reckoning.L4.Resolver
