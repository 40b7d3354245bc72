import Reckoning.L3Then.Adoption
import Reckoning.Core.Tally
import Mathlib.Algebra.Order.Group.Multiset
import Mathlib.Tactic.Abel

/-!
# The invariant of an adoption

What is under way is a multiset of `Token`s: a call of `func`, the two
registrations on `q`, a settlement of `chain`. It does not depend on the queue
a task stands in, so moving a task changes nothing, and each step of the
library replaces one token. `Due` says which tokens there have to be at each
stage; `POk` and `QOk` say what the slots of `p` and `q` hold.

`lost` is set for the runs in which `q` was rejected after `newchain.then`: in
these nothing is due any more.

* `inv_step`: a step keeps the invariant, and only a late rejection sets `lost`.
-/
namespace Reckoning.L3.Adoption

variable {A B : Type}

/-! ## What is under way -/

/-- What a task will do about the adoption. -/
inductive Token (B : Type)
  | call
  | regFail
  | regThen
  | settle (o : Outcome B)

def token : Task A B → Multiset (Token B)
  | .nextP .adopt _ | .callback => {.call}
  | .adoptFail => {.regFail}
  | .adoptThen => {.regThen}
  | .nextQ .resolveChain arg | .resolveChain arg => {.settle (.ok arg)}
  | .fail .rejectChain failure => {.settle (.error failure)}
  | .nextP .other _ | .nextQ .other _ | .fail .rejectChain2 _ | .fail .other _ | .resolveChain2
  | .user => 0

def tokens (ts : List (Task A B)) : Multiset (Token B) := (ts.map token).foldr (· + ·) 0

@[simp] theorem tokens_nil : tokens ([] : List (Task A B)) = 0 := rfl

@[simp] theorem tokens_cons (t : Task A B) (ts : List (Task A B)) :
    tokens (t :: ts) = token t + tokens ts := rfl

@[simp] theorem tokens_append (ts us : List (Task A B)) :
    tokens (ts ++ us) = tokens ts + tokens us := tally_append token ts us

theorem tokens_eraseIdx {t : Task A B} {ts : List (Task A B)} {i : Nat} (h : ts[i]? = some t) :
    token t + tokens (ts.eraseIdx i) = tokens ts := tally_eraseIdx token h

def settledTokens (os : List (Outcome B)) : Multiset (Token B) := (os.map Token.settle : List (Token B))

theorem settledTokens_snoc (os : List (Outcome B)) (o : Outcome B) :
    settledTokens (os ++ [o]) = {.settle o} + settledTokens os := by
  simp only [settledTokens, List.map_append, ← Multiset.coe_add, add_comm]
  rfl

/-- The tokens under way, and the settlements that have happened. -/
def flow (s : State A B) : Multiset (Token B) :=
  tokens s.sending + tokens s.events + tokens s.running + settledTokens s.settled

/-! ## Invariant -/

/-- What the settlement `o` of `q` has to become. -/
def outs : Option (Outcome B) → Multiset (Token B)
  | some o => {.settle o}
  | none => 0

/-- The same before `newchain.then`, which a value waits for. -/
def errors : Option (Outcome B) → Multiset (Token B)
  | some (.error failure) => {.settle (.error failure)}
  | _ => 0

/-- What has to be under way at each stage; `lost`: a late rejection. -/
def Due (lost : Bool) (s : State A B) (m : Multiset (Token B)) : Prop :=
  match s.stage with
  | .before => m = 0 ∨ s.registered = true ∧
    ((m = {.call} ∧ ∃ arg, s.pOutcome = some (.ok arg)) ∨
      ∃ failure, m = {.settle (.error failure)} ∧ ∃ f, s.pOutcome = some (.error f))
  | .returned => m = {.regFail}
  | .failDone => m = {.regThen} + errors s.outcome
  | .adopted => m = if lost then 0 else outs s.outcome

/-- The slots of `p`. -/
def POk (s : State A B) : Prop :=
  match s.pOutcome with
  | none => s.stage = .before ∧ s.p.mArg = none ∧ s.p.mFailed = false ∧
    (s.p.mNext.isSome ∨ s.p.mFail.isSome → s.p.mLoop = true) ∧
    (s.p.mNext = some .adopt ∨ s.p.mFail = some .rejectChain → s.registered = true)
  | some (.ok _) => s.p.mFailed = false
  | some (.error _) => s.stage = .before ∧ s.p.mArg = none

/-- The value of a resolved `Then`. -/
def valueOf : Option (Outcome B) → Option B
  | some (.ok arg) => some arg
  | _ => none

/-- The slots of `q`; user code may have put its own functions there. -/
def QOk (s : State A B) : Prop :=
  match s.stage with
  | .before | .returned => s.q.mArg = valueOf s.outcome ∧
    (s.q.mFailed = true ↔ ∃ failure, s.outcome = some (.error failure)) ∧
    (∀ failure, s.outcome = some (.error failure) → s.q.mFailure = failure) ∧
    (s.outcome = none → (s.q.mNext = none ∨ s.q.mNext = some .other) ∧
      (s.q.mFail = none ∨ s.q.mFail = some .other))
  | .failDone => s.q.mArg = valueOf s.outcome ∧
    (s.q.mFailed = true → ∃ failure, s.outcome = some (.error failure)) ∧
    (s.outcome = none → (s.q.mNext = none ∨ s.q.mNext = some .other) ∧
      s.q.mFail = some .rejectChain ∧ s.q.mLoop = true)
  | .adopted => (s.q.mFailed = true → s.q.mArg = none) ∧
    (s.outcome = none → s.q.mArg = none ∧ s.q.mFailed = false ∧
      (s.q.mNext = some .resolveChain ∨ s.q.mNext = some .other) ∧
      (s.q.mFail = some .rejectChain2 ∨ s.q.mFail = some .other) ∧ s.q.mLoop = true)

/-- `chain` remembers a settlement that found no handler. -/
def ChainOk (s : State A B) : Prop :=
  (s.chain.mFailed = true → ∃ failure, .error failure ∈ s.settled) ∧
  (s.chain.mArg.isSome → ∃ arg, .ok arg ∈ s.settled)

/-- The invariant, with the tokens under way as an argument: it does not depend
on which queue they are in. -/
structure Ok (lost : Bool) (s : State A B) (m : Multiset (Token B)) : Prop where
  fault : s.fault = none
  lostAt : lost = true → s.stage = .adopted ∧ ∃ failure, s.outcome = some (.error failure)
  p : POk s
  q : QOk s
  chain : ChainOk s
  called : s.stage ≠ .before → s.registered = true ∧ ∃ arg, s.pOutcome = some (.ok arg)
  due : Due lost s m

def Inv (lost : Bool) (s : State A B) : Prop := Ok lost s (flow s)

theorem inv_init : Inv false (State.init : State A B) where
  fault := rfl
  lostAt := nofun
  p := ⟨rfl, rfl, rfl, by simp [State.init, Then.init], by simp [State.init, Then.init]⟩
  q := ⟨rfl, ⟨nofun, nofun⟩, nofun, fun _ => ⟨Or.inl rfl, Or.inl rfl⟩⟩
  chain := ⟨nofun, nofun⟩
  called h := absurd rfl h
  due := Or.inl rfl

/-- A failure is lost after `newchain.then` only. -/
theorem Ok.not_lost {lost : Bool} {s : State A B} {m : Multiset (Token B)} (h : Ok lost s m)
    (hst : s.stage ≠ .adopted) : lost = false := by
  cases hl : lost with
  | false => rfl
  | true => exact absurd (h.lostAt hl).1 hst

/-- Once `p` is resolved its slots do not matter. -/
theorem POk.called {s : State A B} (h : POk s) (hp : ∃ arg, s.pOutcome = some (.ok arg))
    (running : List (Task A B)) (stage : Stage) :
    POk { s with running := running, stage := stage } := by
  obtain ⟨arg, hp⟩ := hp
  unfold POk at h ⊢
  rw [hp] at h ⊢
  exact h

theorem Ok.queues {lost : Bool} {s : State A B} {m : Multiset (Token B)} (h : Ok lost s m)
    (events running sending : List (Task A B)) :
    Ok lost { s with events := events, running := running, sending := sending } m :=
  ⟨h.fault, h.lostAt, h.p, h.q, h.chain, h.called, h.due⟩

/-- Moving tasks between the queues. -/
theorem Inv.queues {lost : Bool} {s : State A B} (h : Inv lost s)
    {events running sending : List (Task A B)}
    (hm : tokens sending + tokens events + tokens running =
      tokens s.sending + tokens s.events + tokens s.running) :
    Inv lost { s with events := events, running := running, sending := sending } := by
  have hf : flow { s with events := events, running := running, sending := sending } = flow s := by
    rw [flow, flow, hm]
  rw [Inv, hf]
  exact Ok.queues h events running sending

theorem flow_post (s : State A B) (ts : List (Task A B)) :
    flow { s with events := s.events ++ ts } = tokens ts + flow s := by
  simp only [flow, tokens_append]
  abel

/-- A call comes under way: it is made or posted. -/
theorem inv_send {lost onLoop : Bool} {call : Bool × Task A B} {s : State A B}
    (hloop : call.1 = true) (h : Ok lost s (token call.2 + flow s)) : Inv lost (send onLoop call s) := by
  cases onLoop with
  | true =>
    have hf : flow { s with running := call.2 :: s.running } = token call.2 + flow s := by
      simp only [flow, tokens_cons]
      abel
    rw [Inv, send, if_pos rfl, hf]
    exact h.queues ..
  | false =>
    have hf : flow { s with sending := s.sending ++ [call.2] } = token call.2 + flow s := by
      simp only [flow, tokens_append, tokens_cons, tokens_nil, add_zero]
      abel
    rw [Inv, send, if_neg Bool.false_ne_true, if_pos hloop, hf]
    exact h.queues ..

/-! ## What the tokens under way say about the stage -/

theorem single_add_single {t u : Token B} {m : Multiset (Token B)} (h : {t} + m = {u}) :
    t = u ∧ m = 0 := by
  rw [Multiset.singleton_add] at h
  obtain ⟨htu, hm⟩ := (Multiset.singleton_eq_cons_iff m).mp h.symm
  exact ⟨htu.symm, hm⟩

theorem mem_outs {t : Token B} {o : Option (Outcome B)} (h : t ∈ outs o) : ∃ r, t = .settle r ∧ o = some r := by
  cases o with
  | none => cases h
  | some r => exact ⟨r, Multiset.mem_singleton.mp h, rfl⟩

theorem mem_errors {t : Token B} {o : Option (Outcome B)} (h : t ∈ errors o) :
    ∃ r, t = .settle r ∧ o = some r := by
  rcases o with - | (failure | arg)
  · cases h
  · exact ⟨_, Multiset.mem_singleton.mp h, rfl⟩
  · cases h

/-- What can be under way after the callback has returned. -/
theorem Due.mem {lost : Bool} {s : State A B} {m : Multiset (Token B)} (h : Due lost s m) {t : Token B}
    (ht : t ∈ m) (hb : s.stage ≠ .before) :
    (s.stage = .returned ∧ t = .regFail) ∨ (s.stage = .failDone ∧ t = .regThen) ∨
      ∃ o, t = .settle o ∧ s.outcome = some o := by
  unfold Due at h
  cases hst : s.stage with
  | before => exact absurd hst hb
  | returned =>
    rw [hst] at h
    subst h
    exact Or.inl ⟨rfl, Multiset.mem_singleton.mp ht⟩
  | failDone =>
    rw [hst] at h
    subst h
    rcases Multiset.mem_add.mp ht with ht | ht
    · exact Or.inr (Or.inl ⟨rfl, Multiset.mem_singleton.mp ht⟩)
    · exact Or.inr (Or.inr (mem_errors ht))
  | adopted =>
    rw [hst] at h
    subst h
    cases lost with
    | true => cases ht
    | false => exact Or.inr (Or.inr (mem_outs ht))

/-- What can be under way before. -/
theorem Due.mem_before {lost : Bool} {s : State A B} {m : Multiset (Token B)} (h : Due lost s m)
    {t : Token B} (ht : t ∈ m) (hb : s.stage = .before) :
    s.registered = true ∧ ((t = .call ∧ m = {.call} ∧ ∃ arg, s.pOutcome = some (.ok arg)) ∨
      ∃ failure, t = .settle (.error failure) ∧ m = {.settle (.error failure)}) := by
  unfold Due at h
  rw [hb] at h
  rcases h with rfl | ⟨hreg, ⟨rfl, hp⟩ | ⟨failure, rfl, -⟩⟩
  · cases ht
  · exact ⟨hreg, Or.inl ⟨Multiset.mem_singleton.mp ht, rfl, hp⟩⟩
  · exact ⟨hreg, Or.inr ⟨failure, Multiset.mem_singleton.mp ht, rfl⟩⟩

theorem mem_single_add (t : Token B) (m : Multiset (Token B)) : t ∈ {t} + m :=
  Multiset.mem_add.mpr (Or.inl (Multiset.mem_singleton_self t))

theorem Due.of_call {lost : Bool} {s : State A B} {m : Multiset (Token B)}
    (h : Due lost s ({.call} + m)) :
    s.stage = .before ∧ m = 0 ∧ s.registered = true ∧ ∃ arg, s.pOutcome = some (.ok arg) := by
  by_cases hb : s.stage = .before
  · obtain ⟨hreg, ⟨-, hm, hp⟩ | ⟨failure, ht, -⟩⟩ := h.mem_before (mem_single_add ..) hb
    · exact ⟨hb, (single_add_single hm).2, hreg, hp⟩
    · cases ht
  · rcases h.mem (mem_single_add ..) hb with ⟨-, h⟩ | ⟨-, h⟩ | ⟨o, h, -⟩ <;> cases h

theorem Due.of_regFail {lost : Bool} {s : State A B} {m : Multiset (Token B)}
    (h : Due lost s ({.regFail} + m)) : s.stage = .returned ∧ m = 0 := by
  by_cases hb : s.stage = .before
  · obtain ⟨-, ⟨ht, -⟩ | ⟨failure, ht, -⟩⟩ := h.mem_before (mem_single_add ..) hb <;> cases ht
  · rcases h.mem (mem_single_add ..) hb with ⟨hst, -⟩ | ⟨-, h⟩ | ⟨o, h, -⟩
    · unfold Due at h
      rw [hst] at h
      exact ⟨hst, (single_add_single h).2⟩
    · cases h
    · cases h

theorem Due.of_regThen {lost : Bool} {s : State A B} {m : Multiset (Token B)}
    (h : Due lost s ({.regThen} + m)) : s.stage = .failDone ∧ m = errors s.outcome := by
  by_cases hb : s.stage = .before
  · obtain ⟨-, ⟨ht, -⟩ | ⟨failure, ht, -⟩⟩ := h.mem_before (mem_single_add ..) hb <;> cases ht
  · rcases h.mem (mem_single_add ..) hb with ⟨-, h⟩ | ⟨hst, -⟩ | ⟨o, h, -⟩
    · cases h
    · unfold Due at h
      rw [hst] at h
      exact ⟨hst, add_left_cancel h⟩
    · cases h

/-- There is one settlement under way at most. -/
theorem Due.settle_unique {lost : Bool} {s : State A B} {m : Multiset (Token B)} (h : Due lost s m)
    {o o' : Outcome B} (ho : Token.settle o ∈ m) (ho' : Token.settle o' ∈ m) : o = o' := by
  by_cases hb : s.stage = .before
  · obtain ⟨-, ⟨ht, -⟩ | ⟨failure, ht, rfl⟩⟩ := h.mem_before ho hb <;> cases ht
    cases Multiset.mem_singleton.mp ho'
    rfl
  · rcases h.mem ho hb with ⟨-, h1⟩ | ⟨-, h1⟩ | ⟨r, h1, hr⟩ <;> cases h1
    rcases h.mem ho' hb with ⟨-, h1⟩ | ⟨-, h1⟩ | ⟨r', h1, hr'⟩ <;> cases h1
    exact Option.some.inj (hr.symm.trans hr')

/-! ## The steps keep the invariant -/

/-- Before `p` is settled nothing is under way. -/
theorem Ok.idle {lost : Bool} {s : State A B} {m : Multiset (Token B)} (h : Ok lost s m)
    (hp : s.pOutcome = none) : m = 0 := by
  refine Multiset.eq_zero_of_forall_notMem fun t ht => ?_
  by_cases hb : s.stage = .before
  · have hd := h.due
    unfold Due at hd
    rw [hb, hp] at hd
    rcases hd with rfl | ⟨-, ⟨-, arg, ha⟩ | ⟨-, -, f, hf⟩⟩
    · cases ht
    · cases ha
    · cases hf
  · obtain ⟨-, arg, ha⟩ := h.called hb
    rw [hp] at ha
    cases ha

theorem Due.zero {lost : Bool} {s : State A B} (hst : s.stage = .before) : Due lost s 0 := by
  unfold Due
  rw [hst]
  exact Or.inl rfl

theorem Due.calling {lost : Bool} {s : State A B} (hst : s.stage = .before)
    (hreg : s.registered = true) {arg : A} (hp : s.pOutcome = some (.ok arg)) :
    Due lost s {.call} := by
  unfold Due
  rw [hst]
  exact Or.inr ⟨hreg, Or.inl ⟨rfl, arg, hp⟩⟩

theorem Due.failing {lost : Bool} {s : State A B} (hst : s.stage = .before)
    (hreg : s.registered = true) {f failure : String} (hp : s.pOutcome = some (.error f)) :
    Due lost s {.settle (.error failure)} := by
  unfold Due
  rw [hst]
  exact Or.inr ⟨hreg, Or.inr ⟨failure, rfl, f, hp⟩⟩

theorem inv_settleP {lost onLoop : Bool} {o : Outcome A} {s : State A B} (h : Inv lost s)
    (hp : s.pOutcome = none) : Inv lost (settleP onLoop o s) := by
  have hok := h.p
  unfold POk at hok
  rw [hp] at hok
  obtain ⟨hst, harg, hfailed, hloop, hreg⟩ := hok
  have hm : flow s = 0 := h.idle hp
  obtain rfl := h.not_lost (by rw [hst]; nofun)
  cases o with
  | ok arg =>
    cases hn : s.p.mNext with
    | none =>
      simp only [settleP, Then.settle, Then.resolve, hn]
      refine ⟨h.fault, nofun, hfailed, h.q, h.chain, fun hb => absurd hst hb, ?_⟩
      exact hm ▸ Due.zero hst
    | some func =>
      simp only [settleP, Then.settle, Then.resolve, hn]
      refine inv_send (hloop (by simp [hn])) ⟨h.fault, nofun, hfailed, h.q, h.chain,
        fun hb => absurd hst hb, ?_⟩
      show Due false _ (token (taskP (.next func arg)) + flow s)
      rw [hm, add_zero]
      cases func with
      | adopt => exact Due.calling hst (hreg (Or.inl hn)) rfl
      | other => exact Due.zero hst
  | error failure =>
    cases hf : s.p.mFail with
    | none =>
      simp only [settleP, Then.settle, Then.reject, hf]
      refine ⟨h.fault, nofun, ⟨hst, harg⟩, h.q, h.chain, fun hb => absurd hst hb, ?_⟩
      exact hm ▸ Due.zero hst
    | some func =>
      simp only [settleP, Then.settle, Then.reject, hf]
      refine inv_send (hloop (by simp [hf])) ⟨h.fault, nofun, ⟨hst, harg⟩, h.q, h.chain,
        fun hb => absurd hst hb, ?_⟩
      show Due false _ (token (taskP (.fail func failure)) + flow s)
      rw [hm, add_zero]
      cases func with
      | rejectChain => exact Due.failing (by exact hst) (by exact hreg (Or.inr hf)) rfl
      | rejectChain2 | other => exact Due.zero hst

theorem inv_registeredP {lost : Bool} {s : State A B} {r : Then.Registered A PNext FailFn}
    (h : Ok lost { s with p := r.self } (tokens (r.posts.map taskP) + flow s)) :
    Inv lost (registeredP (.ok r) s) := by
  have hf : flow (registeredP (.ok r) s) = tokens (r.posts.map taskP) + flow s := flow_post s _
  rw [Inv, hf]
  exact ⟨h.fault, h.lostAt, h.p, h.q, h.chain, h.called, h.due⟩

theorem inv_registeredQ {lost : Bool} {s : State A B} {r : Then.Registered B QNext FailFn}
    (h : Ok lost { s with q := r.self } (tokens (r.posts.map (taskQ (A := A))) + flow s)) :
    Inv lost (registeredQ (.ok r) s) := by
  have hf : flow (registeredQ (.ok r) s) = tokens (r.posts.map (taskQ (A := A))) + flow s :=
    flow_post s _
  rw [Inv, hf]
  exact ⟨h.fault, h.lostAt, h.p, h.q, h.chain, h.called, h.due⟩

/-- `p` is never both failed and resolved. -/
theorem POk.assertion {s : State A B} (h : POk s) (hf : s.p.mFailed = true) : s.p.mArg = none := by
  unfold POk at h
  split at h
  · exact h.2.1
  · rw [h] at hf; cases hf
  · exact h.2

/-- Registrations on `p` change the two function slots only. -/
theorem POk.slots {s : State A B} (h : POk s) {p : Then A PNext FailFn} {registered : Bool}
    (hf : p.mFailed = s.p.mFailed) (ha : s.p.mArg = none → p.mArg = none)
    (hslots : s.p.mArg = none → s.p.mFailed = false → p.mLoop = true ∧
      (p.mNext = some .adopt ∨ p.mFail = some .rejectChain →
        s.p.mNext = some .adopt ∨ s.p.mFail = some .rejectChain ∨ registered = true))
    (hreg : s.registered = true → registered = true) :
    POk { s with p := p, registered := registered } := by
  unfold POk at h ⊢
  dsimp only
  split at h
  · obtain ⟨hst, harg, hfailed, hloop, hr⟩ := h
    obtain ⟨hl, hs⟩ := hslots harg hfailed
    refine ⟨hst, ha harg, hf.trans hfailed, fun _ => hl, fun hp => ?_⟩
    rcases hs hp with h1 | h1 | h1
    · exact hreg (hr (Or.inl h1))
    · exact hreg (hr (Or.inr h1))
    · exact h1
  · exact hf.trans h
  · exact ⟨h.1, ha h.2⟩

/-- What a registration on `p` posts and leaves, when its lambdas are none of
the adoption's business. -/
theorem Inv.registeredP_other {lost : Bool} {s : State A B} {r : Then.Registered A PNext FailFn}
    (h : Inv lost s) (hp : POk { s with p := r.self })
    (hposts : tokens (r.posts.map (taskP (B := B))) = 0) : Inv lost (registeredP (.ok r) s) := by
  refine inv_registeredP ⟨h.fault, h.lostAt, hp, h.q, h.chain, h.called, ?_⟩
  rw [hposts, zero_add]
  exact h.due

/-- Handlers of others on `p`. -/
theorem inv_registerP {lost : Bool} {s : State A B} {moved : Moved A B} {how : Registration}
    (h : Inv lost s) : Inv lost (register moved .p how s) := by
  cases how with
  | then_ =>
    rcases Then.then_cases moved.a PNext.other FailFn.other h.p.assertion with
      ⟨hf, heq⟩ | ⟨hf, arg, ha, heq⟩ | ⟨hf, ha, heq⟩ <;>
    · simp only [register, heq]
      refine h.registeredP_other ?_ (by simp [taskP, token])
      exact h.p.slots rfl (by simp [*]) (by simp [*]) id
  | fail =>
    rcases Then.fail_cases FailFn.other h.p.assertion with ⟨hf, heq⟩ | ⟨hf, heq⟩ <;>
    · simp only [register, heq]
      refine h.registeredP_other ?_ (by simp [taskP, token])
      exact h.p.slots rfl (by simp) (by simp +contextual [*]) id

/-- Before `p.then(func)` nothing is under way. -/
theorem Ok.unregistered {lost : Bool} {s : State A B} {m : Multiset (Token B)} (h : Ok lost s m)
    (hreg : s.registered = false) : s.stage = .before ∧ m = 0 := by
  have hst : s.stage = .before := Classical.byContradiction fun hb => by
    have := (h.called hb).1
    rw [hreg] at this
    cases this
  refine ⟨hst, Multiset.eq_zero_of_forall_notMem fun t ht => ?_⟩
  have := (h.due.mem_before ht hst).1
  rw [hreg] at this
  cases this

/-- How `p` was settled, from what it stores. -/
theorem POk.stored {s : State A B} (h : POk s) :
    (s.p.mFailed = true → ∃ f, s.pOutcome = some (.error f)) ∧
    (∀ arg, s.p.mArg = some arg → ∃ a, s.pOutcome = some (.ok a)) := by
  unfold POk at h
  split at h
  · exact ⟨fun hf => by simp [h.2.2.1] at hf, fun arg ha => by simp [h.2.1] at ha⟩
  · rename_i a hp
    exact ⟨fun hf => by simp [h] at hf, fun _ _ => ⟨a, hp⟩⟩
  · rename_i f hp
    exact ⟨fun _ => ⟨f, hp⟩, fun arg ha => by simp [h.2] at ha⟩

/-- `p.then(func)`. -/
theorem inv_thenP {lost : Bool} {s : State A B} {moved : Moved A B} (h : Inv lost s)
    (hreg : s.registered = false) : Inv lost (thenP moved s) := by
  obtain ⟨hst, hm⟩ := h.unregistered hreg
  have hflow : flow { s with registered := true } = 0 := hm
  obtain rfl := h.not_lost (by rw [hst]; nofun)
  rcases Then.then_cases moved.a PNext.adopt FailFn.rejectChain h.p.assertion with
    ⟨hf, heq⟩ | ⟨hf, arg, ha, heq⟩ | ⟨hf, ha, heq⟩
  · obtain ⟨f, hp⟩ := h.p.stored.1 hf
    simp only [thenP, heq]
    refine inv_registeredP ⟨h.fault, nofun, h.p.slots rfl (by simp) (by simp [hf]) (by simp), h.q, h.chain, fun hb => absurd hst hb, ?_⟩
    rw [hflow, add_zero]
    exact Due.failing (by exact hst) rfl hp
  · obtain ⟨a, hp⟩ := h.p.stored.2 arg ha
    simp only [thenP, heq]
    refine inv_registeredP ⟨h.fault, nofun, h.p.slots rfl (by simp [ha]) (by simp [ha]) (by simp), h.q, h.chain, fun hb => absurd hst hb, ?_⟩
    rw [hflow, add_zero]
    exact Due.calling (by exact hst) rfl hp
  · simp only [thenP, heq]
    refine inv_registeredP ⟨h.fault, nofun, h.p.slots rfl (by simp) (by simp) (by simp), h.q, h.chain, fun hb => absurd hst hb, ?_⟩
    rw [hflow, add_zero]
    exact Due.zero hst

/-- Handlers on `chain`, which is settled once at most. -/
theorem inv_registerChain {lost : Bool} {s : State A B} {moved : Moved A B} {how : Registration}
    (h : Inv lost s) : Inv lost (register moved .chain how s) := by
  have hsettled : ∀ o, o ∈ s.settled → Token.settle o ∈ flow s := fun o ho =>
    Multiset.mem_add.mpr (Or.inr (List.mem_map_of_mem ho))
  have hassert : s.chain.mFailed = true → s.chain.mArg = none := by
    intro hf
    obtain ⟨failure, he⟩ := h.chain.1 hf
    cases ha : s.chain.mArg with
    | none => rfl
    | some a =>
      obtain ⟨arg, hv⟩ := h.chain.2 (by rw [ha]; rfl)
      cases h.due.settle_unique (hsettled _ he) (hsettled _ hv)
  have key : ∀ r : Then.Registered B Unit Unit, r.self.mFailed = s.chain.mFailed →
      (r.self.mArg.isSome → s.chain.mArg.isSome) → Inv lost (registeredChain (.ok r) s) := by
    intro r hf ha
    have hflow : flow (registeredChain (.ok r) s) = flow s := by
      have hz : tokens (r.posts.map fun _ => (Task.user : Task A B)) = 0 := by
        induction r.posts with
        | nil => rfl
        | cons c cs ih => simpa [token] using ih
      rw [registeredChain, ← zero_add (flow s), ← hz]
      exact flow_post s _
    rw [Inv, hflow]
    exact ⟨h.fault, h.lostAt, h.p, h.q, ⟨fun hc => h.chain.1 (hf ▸ hc), fun hc => h.chain.2 (ha hc)⟩,
      h.called, h.due⟩
  cases how with
  | then_ =>
    rcases Then.then_cases moved.b () () hassert with ⟨hf, heq⟩ | ⟨hf, arg, ha, heq⟩ | ⟨hf, ha, heq⟩ <;>
    · simp only [register, heq]
      exact key _ rfl (by simp [*])
  | fail =>
    rcases Then.fail_cases () hassert with ⟨hf, heq⟩ | ⟨hf, heq⟩ <;>
    · simp only [register, heq]
      exact key _ rfl (by simp)

/-- `q` is never both failed and resolved. -/
theorem QOk.assertion {s : State A B} (h : QOk s) (hf : s.q.mFailed = true) : s.q.mArg = none := by
  have hvalue : (∃ failure, s.outcome = some (.error failure)) → valueOf s.outcome = none := fun hx => by
    obtain ⟨failure, ho⟩ := hx
    rw [ho]
    rfl
  unfold QOk at h
  split at h
  · exact h.1.trans (hvalue (h.2.1.mp hf))
  · exact h.1.trans (hvalue (h.2.1.mp hf))
  · exact h.1.trans (hvalue (h.2.1 hf))
  · exact h.1 hf

/-- A registration of user code changes the two function slots of `q` only. -/
theorem QOk.slots {s : State A B} (h : QOk s) {q : Then B QNext FailFn}
    (hf : q.mFailed = s.q.mFailed) (ha : s.q.mArg = none → q.mArg = none)
    (hstage : s.stage = .adopted ∨
      s.stage = .before ∧ q.mArg = s.q.mArg ∧ (s.q.mFailed = true → q.mFailure = s.q.mFailure))
    (hslots : s.q.mArg = none → s.q.mFailed = false → q.mLoop = true ∧
      (q.mNext = s.q.mNext ∨ q.mNext = some .other) ∧ q.mFail = some .other) :
    QOk { s with q := q } := by
  unfold QOk at h ⊢
  rcases hstage with hst | ⟨hst, harg, hfailure⟩
  · rw [hst] at h ⊢
    obtain ⟨hassert, hfree⟩ := h
    refine ⟨fun hq => ha (hassert (hf ▸ hq)), fun ho => ?_⟩
    obtain ⟨harg, hnot, hn, -, -⟩ := hfree ho
    obtain ⟨hl, hnext, hfail⟩ := hslots harg hnot
    refine ⟨ha harg, hf.trans hnot, ?_, Or.inr hfail, hl⟩
    rcases hnext with h1 | h1
    · exact h1 ▸ hn
    · exact Or.inr h1
  · rw [hst] at h ⊢
    obtain ⟨hvalue, hfailed, hstored, hfree⟩ := h
    refine ⟨harg.trans hvalue, by rw [hf]; exact hfailed, fun failure ho => ?_, fun ho => ?_⟩
    · exact (hfailure (hfailed.mpr ⟨failure, ho⟩)).trans (hstored failure ho)
    · have hnot : s.q.mFailed = false := by
        cases hc : s.q.mFailed with
        | false => rfl
        | true =>
          obtain ⟨failure, he⟩ := hfailed.mp hc
          rw [show s.outcome = none from ho] at he; cases he
      have hnone : s.q.mArg = none := by rw [hvalue, show s.outcome = none from ho]; rfl
      obtain ⟨-, hnext, hfail⟩ := hslots hnone hnot
      refine ⟨?_, Or.inr hfail⟩
      rcases hnext with h1 | h1
      · exact h1 ▸ (hfree ho).1
      · exact Or.inr h1

/-- Handlers of others on `q`. -/
theorem inv_registerQ {lost : Bool} {s : State A B} {moved : Moved A B} {how : Registration}
    (h : Inv lost s) (hk : Apart moved s (.register .q how)) :
    Inv lost (register moved .q how s) := by
  have key : ∀ r : Then.Registered B QNext FailFn, QOk { s with q := r.self } →
      tokens (r.posts.map (taskQ (A := A))) = 0 → Inv lost (registeredQ (.ok r) s) := by
    intro r hq hposts
    refine inv_registeredQ ⟨h.fault, h.lostAt, h.p, hq, h.chain, h.called, ?_⟩
    rw [hposts, zero_add]
    exact h.due
  cases how with
  | then_ =>
    rcases Then.then_cases moved.b QNext.other FailFn.other h.q.assertion with
      ⟨hf, heq⟩ | ⟨hf, arg, ha, heq⟩ | ⟨hf, ha, heq⟩
    · simp only [register, heq]
      refine key _ (h.q.slots rfl id (hk.imp_right fun hb => ?_) (by simp [hf])) (by simp [taskQ, token])
      exact ⟨hb.1, rfl, fun _ => (hb.2.2 hf).symm⟩
    · simp only [register, heq]
      refine key _ (h.q.slots rfl (by simp [ha]) (hk.imp_right fun hb => ?_) (by simp [ha]))
        (by simp [taskQ, token])
      have hmoved := hb.2.1 rfl
      rw [ha] at hmoved
      exact ⟨hb.1, hmoved.trans ha.symm, fun _ => rfl⟩
    · simp only [register, heq]
      refine key _ (h.q.slots rfl id (hk.imp_right fun hb => ?_) (by simp)) rfl
      exact ⟨hb.1, rfl, fun _ => rfl⟩
  | fail =>
    rcases Then.fail_cases FailFn.other h.q.assertion with ⟨hf, heq⟩ | ⟨hf, heq⟩
    · simp only [register, heq]
      refine key _ (h.q.slots rfl id (hk.imp_right fun hb => ?_) (by simp [hf])) (by simp [taskQ, token])
      exact ⟨hb.1, rfl, fun _ => (hb.2.2 hf).symm⟩
    · simp only [register, heq]
      refine key _ (h.q.slots rfl id (hk.imp_right fun hb => ?_) (by simp)) rfl
      exact ⟨hb.1, rfl, fun _ => rfl⟩

/-- `q` is settled before its failure callback is linked: the outcome waits in `q`. -/
theorem inv_settleQ_waits {onLoop : Bool} {o : Outcome B} {s : State A B} {moved : Moved A B}
    (h : Inv false s) (ho : s.outcome = none)
    (hst : s.stage = .before ∨ s.stage = .returned)
    (hk : Keeps moved s (.settleQ onLoop o : Label A B)) : Inv false (settleQ onLoop o s) := by
  have hq := h.q
  have hd : Due false s (flow s) := h.due
  unfold QOk at hq
  unfold Due at hd
  rcases hst with hst | hst
  all_goals
    rw [hst] at hq hd
    obtain ⟨ha, hfailed, -, hslots⟩ := hq
    cases o with
    | ok arg =>
      have hn := (hslots ho).1.resolve_right hk.1
      simp only [settleQ, Then.settle, Then.resolve, hn]
      refine ⟨h.fault, nofun, h.p, ?_, h.chain, h.called, ?_⟩
      · unfold QOk; dsimp only; rw [hst]
        exact ⟨rfl, by simp [hfailed, ho], by simp, nofun⟩
      · unfold Due; dsimp only; rw [hst]
        exact hd
    | error failure =>
      have hf := (hslots ho).2.resolve_right hk.1
      simp only [settleQ, Then.settle, Then.reject, hf]
      refine ⟨h.fault, nofun, h.p, ?_, h.chain, h.called, ?_⟩
      · unfold QOk; dsimp only; rw [hst]
        exact ⟨by simp [ha, ho, valueOf], by simp, by simp, nofun⟩
      · unfold Due; dsimp only; rw [hst]
        exact hd

/-- `q` is settled between `newchain.fail` and `newchain.then`: a value waits in
`q`, and a failure goes to `chain`. -/
theorem inv_settleQ_failDone {onLoop : Bool} {o : Outcome B} {s : State A B} {moved : Moved A B}
    (h : Inv false s) (ho : s.outcome = none) (hst : s.stage = .failDone)
    (hk : Keeps moved s (.settleQ onLoop o : Label A B)) : Inv false (settleQ onLoop o s) := by
  have hq := h.q
  have hd : Due false s (flow s) := h.due
  unfold QOk at hq
  unfold Due at hd
  rw [hst] at hq hd
  obtain ⟨ha, hfailed, hslots⟩ := hq
  obtain ⟨hnext, hf, hl⟩ := hslots ho
  have hnot : s.q.mFailed ≠ true := fun hc => by
    obtain ⟨failure, he⟩ := hfailed hc
    rw [ho] at he; cases he
  rw [ho] at hd
  cases o with
  | ok arg =>
    have hn := hnext.resolve_right hk.1
    simp only [settleQ, Then.settle, Then.resolve, hn]
    refine ⟨h.fault, nofun, h.p, ?_, h.chain, h.called, ?_⟩
    · unfold QOk; dsimp only; rw [hst]
      exact ⟨rfl, fun hc => absurd hc hnot, nofun⟩
    · unfold Due; dsimp only; rw [hst]
      exact hd
  | error failure =>
    simp only [settleQ, Then.settle, Then.reject, hf]
    refine inv_send hl ⟨h.fault, nofun, h.p, ?_, h.chain, h.called, ?_⟩
    · unfold QOk; dsimp only; rw [hst]
      exact ⟨by rw [ha, ho]; rfl, fun hc => absurd hc hnot, nofun⟩
    · unfold Due; dsimp only; rw [hst]
      show token (taskQ (.fail .rejectChain failure)) + flow s = _
      rw [hd]
      exact add_comm _ _

/-- `q` is resolved after `newchain.then`: the value goes to `chain`. -/
theorem inv_settleQ_adopted {onLoop : Bool} {o : Outcome B} {s : State A B} {moved : Moved A B}
    (h : Inv false s) (ho : s.outcome = none) (hst : s.stage = .adopted)
    (hk : Keeps moved s (.settleQ onLoop o : Label A B)) : Inv false (settleQ onLoop o s) := by
  have hq := h.q
  have hd : Due false s (flow s) := h.due
  unfold QOk at hq
  unfold Due at hd
  rw [hst] at hq hd
  obtain ⟨hassert, hslots⟩ := hq
  obtain ⟨ha, hnot, hnext, hfail, hl⟩ := hslots ho
  rw [ho] at hd
  cases o with
  | ok arg =>
    have hn := hnext.resolve_right hk.1
    simp only [settleQ, Then.settle, Then.resolve, hn]
    refine inv_send hl ⟨h.fault, nofun, h.p, ?_, h.chain, h.called, ?_⟩
    · unfold QOk; dsimp only; rw [hst]
      exact ⟨hassert, nofun⟩
    · unfold Due; dsimp only; rw [hst]
      show token (taskQ (.next .resolveChain arg)) + flow s = _
      rw [hd]
      exact add_zero _
  | error failure => exact absurd (hfail.resolve_right hk.1) hk.2

/-- `q` is settled, but not rejected after `newchain.then`. -/
theorem inv_settleQ {onLoop : Bool} {o : Outcome B} {s : State A B} {moved : Moved A B}
    (h : Inv false s) (ho : s.outcome = none)
    (hk : Keeps moved s (.settleQ onLoop o : Label A B)) : Inv false (settleQ onLoop o s) := by
  cases hst : s.stage with
  | before => exact inv_settleQ_waits h ho (Or.inl hst) hk
  | returned => exact inv_settleQ_waits h ho (Or.inr hst) hk
  | failDone => exact inv_settleQ_failDone h ho hst hk
  | adopted => exact inv_settleQ_adopted h ho hst hk

/-- `q` is rejected after `newchain.then`: the failure goes to `chain2`. -/
theorem inv_settleQ_late {onLoop : Bool} {failure : String} {s : State A B} (h : Inv false s)
    (ho : s.outcome = none) (hst : s.stage = .adopted) (hf : s.q.mFail = some .rejectChain2) :
    Inv true (settleQ onLoop (.error failure) s) := by
  have hq := h.q
  have hd : Due false s (flow s) := h.due
  unfold QOk at hq
  unfold Due at hd
  rw [hst] at hq hd
  obtain ⟨hassert, hslots⟩ := hq
  obtain ⟨-, -, -, -, hl⟩ := hslots ho
  rw [ho] at hd
  simp only [settleQ, Then.settle, Then.reject, hf]
  refine inv_send hl ⟨h.fault, fun _ => ⟨hst, failure, rfl⟩, h.p, ?_, h.chain, h.called, ?_⟩
  · unfold QOk; dsimp only; rw [hst]
    exact ⟨hassert, nofun⟩
  · unfold Due; dsimp only; rw [hst]
    show token (taskQ (.fail .rejectChain2 failure)) + flow s = _
    rw [hd]
    exact add_zero _

/-! ### The library code -/

theorem flow_running {s : State A B} {t : Task A B} {rest : List (Task A B)}
    (hr : s.running = t :: rest) (ts : List (Task A B)) :
    ∃ m, flow s = token t + m ∧ flow { s with running := ts ++ rest } = tokens ts + m := by
  refine ⟨flow { s with running := rest }, ?_, ?_⟩
  · rw [flow, flow, hr, tokens_cons]
    abel
  · rw [flow, flow, tokens_append]
    abel

/-- The task on top is replaced by tasks that say as much. -/
theorem inv_replace {lost : Bool} {s : State A B} {t : Task A B} {rest : List (Task A B)}
    (h : Inv lost s) (hr : s.running = t :: rest) (ts : List (Task A B)) (ht : tokens ts = token t) :
    Inv lost { s with running := ts ++ rest } := by
  refine Inv.queues h ?_
  rw [hr, tokens_append, tokens_cons, ht]

/-- The callback returns. -/
theorem inv_return {lost : Bool} {s : State A B} {rest : List (Task A B)} (h : Inv lost s)
    (hr : s.running = .callback :: rest) :
    Inv lost { s with running := .adoptFail :: rest, stage := .returned } := by
  obtain ⟨m, hm, hm'⟩ := flow_running hr [.adoptFail]
  have hd := h.due
  rw [hm] at hd
  obtain ⟨hst, rfl, hreg, arg, hp⟩ := hd.of_call
  obtain rfl := h.not_lost (by rw [hst]; nofun)
  have hq := h.q
  refine ⟨h.fault, nofun, h.p.called ⟨arg, hp⟩ .., ?_, h.chain, fun _ => ⟨hreg, arg, hp⟩, ?_⟩
  · unfold QOk at hq ⊢
    rw [hst] at hq
    exact hq
  · exact hm'.trans (by simp [token])

/-- `newchain.fail`. -/
theorem inv_adoptFail {lost : Bool} {s : State A B} {rest : List (Task A B)} (h : Inv lost s)
    (hr : s.running = .adoptFail :: rest) :
    Inv lost (adoptFail { s with running := .adoptThen :: rest }) := by
  obtain ⟨m, hm, hm'⟩ := flow_running hr [.adoptThen]
  have hd := h.due
  rw [hm] at hd
  obtain ⟨hst, rfl⟩ := hd.of_regFail
  have hm'' : flow { s with running := .adoptThen :: rest, stage := .failDone } = {.regThen} :=
    hm'.trans (by simp [token])
  have hcalled := h.called (by rw [hst]; nofun)
  obtain rfl := h.not_lost (by rw [hst]; nofun)
  have hp := h.p.called hcalled.2 (Task.adoptThen :: rest) .failDone
  have hq := h.q
  unfold QOk at hq
  rw [hst] at hq
  obtain ⟨ha, hfailed, hfailure, hslots⟩ := hq
  rcases Then.fail_cases FailFn.rejectChain h.q.assertion with ⟨hf, heq⟩ | ⟨hf, heq⟩
  · -- rejected before: the failure is posted
    obtain ⟨failure, ho⟩ := hfailed.mp hf
    simp only [adoptFail, heq]
    refine inv_registeredQ ⟨h.fault, nofun, hp, ?_, h.chain, fun _ => hcalled, ?_⟩
    · exact ⟨ha, fun _ => ⟨failure, ho⟩, fun hc => by simp [ho] at hc⟩
    · rw [hm'', hfailure failure ho]
      show _ = {Token.regThen} + errors s.outcome
      rw [ho]
      simp [taskQ, token, errors, add_comm]
  · -- the handler waits in `q`
    have ho : errors s.outcome = 0 := by
      rcases hso : s.outcome with - | (failure | arg)
      · rfl
      · rw [hfailed.mpr ⟨failure, hso⟩] at hf; cases hf
      · rfl
    simp only [adoptFail, heq]
    refine inv_registeredQ ⟨h.fault, nofun, hp, ?_, h.chain, fun _ => hcalled, ?_⟩
    · exact ⟨ha, fun hc => by simp [hf] at hc, fun hc => ⟨(hslots hc).1, rfl, rfl⟩⟩
    · rw [hm'']
      show _ = {Token.regThen} + errors s.outcome
      rw [ho]
      simp

/-- `newchain.then`. -/
theorem inv_adoptThen {lost : Bool} {s : State A B} {rest : List (Task A B)} {moved : Moved A B}
    (h : Inv lost s) (hr : s.running = .adoptThen :: rest) :
    Inv lost (adoptThen moved { s with running := rest }) := by
  obtain ⟨m, hm, hm'⟩ := flow_running hr []
  have hd := h.due
  rw [hm] at hd
  obtain ⟨hst, rfl⟩ := hd.of_regThen
  have hm'' : flow { s with running := rest, stage := .adopted } = errors s.outcome :=
    hm'.trans (by simp)
  have hcalled := h.called (by rw [hst]; nofun)
  obtain rfl := h.not_lost (by rw [hst]; nofun)
  have hp := h.p.called hcalled.2 rest .adopted
  have hq := h.q
  unfold QOk at hq
  rw [hst] at hq
  obtain ⟨ha, hfailed, -⟩ := hq
  rcases Then.then_cases moved.b QNext.resolveChain FailFn.rejectChain2 h.q.assertion with
    ⟨hf, heq⟩ | ⟨hf, arg, harg, heq⟩ | ⟨hf, harg, heq⟩
  · -- rejected before `newchain.fail`: what is posted now goes to `chain2`
    obtain ⟨failure, ho⟩ := hfailed hf
    simp only [adoptThen, heq]
    refine inv_registeredQ ⟨h.fault, nofun, hp, ⟨h.q.assertion, fun hc => by simp [ho] at hc⟩,
      h.chain, fun _ => hcalled, ?_⟩
    rw [hm'']
    show _ = outs s.outcome
    rw [ho]
    simp [taskQ, token, errors, outs]
  · -- resolved before: the value is posted
    have ho : s.outcome = some (.ok arg) := by
      rcases hso : s.outcome with - | (failure | arg')
      · rw [ha, hso] at harg; cases harg
      · rw [ha, hso] at harg; cases harg
      · rw [ha, hso] at harg; cases harg; rfl
    simp only [adoptThen, heq]
    refine inv_registeredQ ⟨h.fault, nofun, hp, ⟨fun hc => by simp [hf] at hc,
      fun hc => by simp [ho] at hc⟩, h.chain, fun _ => hcalled, ?_⟩
    rw [hm'']
    show _ = outs s.outcome
    rw [ho]
    simp [taskQ, token, errors, outs]
  · -- not settled, or rejected between the two registrations
    have ho : errors s.outcome = outs s.outcome := by
      rcases hso : s.outcome with - | (failure | arg')
      · rfl
      · rfl
      · rw [ha, hso] at harg; cases harg
    simp only [adoptThen, heq]
    refine inv_registeredQ ⟨h.fault, nofun, hp, ⟨fun _ => harg, fun _ => ?_⟩, h.chain,
      fun _ => hcalled, ?_⟩
    · exact ⟨harg, hf, Or.inl rfl, Or.inl rfl, rfl⟩
    rw [hm'', ho]
    exact zero_add _

/-- `chain->resolve` and `chain->reject`: what was under way has happened. -/
theorem inv_settleChain {lost : Bool} {s : State A B} {t : Task A B} {rest : List (Task A B)}
    {o : Outcome B} (h : Inv lost s) (hr : s.running = t :: rest) (ht : token t = {.settle o}) :
    Inv lost (settleChain o rest s) := by
  have hflow : flow (settleChain o rest s) = flow s := by
    have hrun : tokens (settleChain o rest s).running = tokens rest := by
      simp only [settleChain]
      split <;> simp [token]
    have hset := settledTokens_snoc s.settled o
    show tokens s.sending + tokens s.events + tokens (settleChain o rest s).running +
      settledTokens (settleChain o rest s).settled = _
    rw [hrun, settleChain]
    dsimp only
    rw [hset, flow, hr, tokens_cons, ht]
    abel
  rw [Inv, hflow]
  refine ⟨h.fault, h.lostAt, h.p, h.q, ?_, h.called, h.due⟩
  obtain ⟨hf, ha⟩ := h.chain
  cases o with
  | ok arg =>
    cases hn : s.chain.mNext <;> simp only [ChainOk, settleChain, Then.settle, Then.resolve, hn] <;>
      grind
  | error failure =>
    cases hn : s.chain.mFail <;> simp only [ChainOk, settleChain, Then.settle, Then.reject, hn] <;>
      grind

/-- `chain2` is nobody's business. -/
theorem inv_settleChain2 {lost : Bool} {s : State A B} {t : Task A B} {rest : List (Task A B)}
    {o : Outcome Unit} (h : Inv lost s) (hr : s.running = t :: rest) (ht : token t = 0) :
    Inv lost (settleChain2 o rest s) := by
  obtain ⟨m, hm, hm'⟩ := flow_running hr []
  have hflow : flow (settleChain2 o rest s) = flow s := by
    rw [hm, ht]
    exact hm'
  rw [Inv, hflow]
  exact ⟨h.fault, h.lostAt, h.p, h.q, h.chain, h.called, h.due⟩

theorem inv_exec {lost : Bool} {s s' : State A B} {t : Task A B} {rest : List (Task A B)}
    {moved : Moved A B} (h : Inv lost s) (hr : s.running = t :: rest)
    (hs : exec moved t rest s = some s') : Inv lost s' := by
  unfold exec at hs
  split at hs <;> cases hs
  · exact inv_replace h hr [.callback] (by simp [token])
  · exact inv_replace h hr [.user] (by simp [token])
  · exact inv_adoptFail h hr
  · exact inv_adoptThen h hr
  · exact inv_replace h hr [.resolveChain _, .resolveChain2] (by simp [token])
  · exact inv_replace h hr [.user] (by simp [token])
  · exact inv_settleChain h hr rfl
  · exact inv_settleChain2 h hr rfl
  · exact inv_replace h hr [.user] (by simp [token])
  · exact inv_settleChain h hr rfl
  · exact inv_settleChain2 h hr rfl

/-- Where `q` can be rejected late, `newchain.then` has been called. -/
theorem adopted_of_late {lost : Bool} {s : State A B} (h : Inv lost s) (ho : s.outcome = none)
    (hf : s.q.mFail = some .rejectChain2) : s.stage = .adopted := by
  have hq := h.q
  unfold QOk at hq
  cases hst : s.stage with
  | before | returned =>
    rw [hst] at hq
    rcases (hq.2.2.2 ho).2 with h1 | h1 <;> rw [h1] at hf <;> cases hf
  | failDone => rw [hst] at hq; rw [(hq.2.2 ho).2.1] at hf; cases hf
  | adopted => rfl

/-- A step keeps the invariant; a late rejection loses the failure. -/
theorem inv_step {lost : Bool} {s s' : State A B} {l : Label A B} {moved : Moved A B}
    (h : Inv lost s) (hapart : Apart moved s l) (hs : step moved s l = some s') :
    ∃ lost', Inv lost' s' ∧ (lost' = false ↔ lost = false ∧ OnTime s l) := by
  unfold step at hs
  rw [if_neg (by rw [h.fault]; exact Bool.false_ne_true)] at hs
  split at hs
  · -- thenP
    split at hs <;> cases hs
    rename_i hg
    simp only [Bool.and_eq_true, Bool.not_eq_true'] at hg
    exact ⟨lost, inv_thenP h hg.2, by simp [OnTime]⟩
  · -- register
    rename_i site how
    split at hs <;> cases hs
    refine ⟨lost, ?_, by simp [OnTime]⟩
    cases site with
    | p => exact inv_registerP h
    | q => exact inv_registerQ h hapart
    | chain => exact inv_registerChain h
  · -- settleP
    split at hs <;> cases hs
    rename_i hg
    simp only [Bool.and_eq_true, Option.isNone_iff_eq_none] at hg
    exact ⟨lost, inv_settleP h hg.2, by simp [OnTime]⟩
  · -- settleQ
    rename_i onLoop o
    split at hs <;> cases hs
    rename_i hg
    simp only [Bool.and_eq_true, Option.isNone_iff_eq_none] at hg
    have hlost : lost = false := by
      cases hl : lost with
      | false => rfl
      | true =>
        obtain ⟨failure, hf⟩ := (h.lostAt hl).2
        rw [hg.2] at hf; cases hf
    subst hlost
    by_cases hk : OnTime s (.settleQ onLoop o : Label A B)
    · exact ⟨false, inv_settleQ h hg.2 ⟨hapart, hk⟩, by simp [hk]⟩
    · cases o with
      | ok arg => exact absurd trivial hk
      | error failure =>
        have hf := Classical.byContradiction hk
        exact ⟨true, inv_settleQ_late h hg.2 (adopted_of_late h hg.2 hf) hf, by simp [hk]⟩
  · -- post
    cases hs
    refine ⟨lost, h.queues ?_, by simp [OnTime]⟩
    simp [token]
  · -- deliver
    obtain ⟨t, ht, rfl⟩ := Option.map_eq_some_iff.mp hs
    refine ⟨lost, h.queues ?_, by simp [OnTime]⟩
    rw [← tokens_eraseIdx ht]
    simp only [tokens_append, tokens_cons, tokens_nil]
    abel
  · -- take
    rename_i hr
    split at hs <;> cases hs
    rename_i t events he
    refine ⟨lost, h.queues ?_, by simp [OnTime]⟩
    rw [hr, he]
    simp only [tokens_cons, tokens_nil]
    abel
  · -- run
    rename_i hr
    exact ⟨lost, inv_exec h hr hs, by simp [OnTime]⟩
  · -- the callback returns
    rename_i hr
    cases hs
    exact ⟨lost, inv_return h hr, by simp [OnTime]⟩
  · -- user code returns
    rename_i hr
    cases hs
    exact ⟨lost, inv_replace h hr [] (by simp [token]), by simp [OnTime]⟩
  · cases hs

end Reckoning.L3.Adoption
