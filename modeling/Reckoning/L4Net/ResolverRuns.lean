import Reckoning.L4Net.Resolver

/-!
# Runs of the resolver

What every interleaving of the threads of `L4Net.Resolver` keeps to.

* `requests_in_order`: nothing is lost, doubled or reordered between
  `startRequest` and `onComplete`.
* `emitted_of_completed`: what a completed response has emitted.
* `settled_iff`: when c-ares is left with a pointer to a completed response.
* `stopped_takes_nothing`: `shutdown` is final.
-/
namespace Reckoning.L4.Resolver
open Reckoning.Monitor

variable {T : Type} [DecidableEq T] {pton : Pton} {d d' : Data} {op : Op} {x : Choice}

/-! ## In order, each once -/

/-- What the resolver's thread has taken and not completed. -/
def inHand : Pc → List Request
  | .worker w => w.pending
  | .caller _ => []

theorem nodup_queries (req : Request) : (queries pton req).Nodup := by
  unfold queries
  split
  · simp
  · split <;> simp

theorem request_of_queries {q : Query} {req : Request} (h : q ∈ queries pton req) :
    q.request = req := by
  unfold queries at h
  split at h
  · simp_all
  · split at h <;> simp_all
    rcases h with rfl | rfl <;> rfl

theorem Books.nodup_submitted {pending : List Request} {todo : List Query}
    (h : Books pton d pending todo) : d.submitted.Nodup :=
  .of_map Request.ticket (h.tickets ▸ List.nodup_range)

theorem Books.nodup_made {pending : List Request} {todo : List Query}
    (h : Books pton d pending todo) : (made d.log).Nodup := by
  have hreqs : (completed d.log ++ pending).Nodup :=
    (List.nodup_append.mp (h.order ▸ h.nodup_submitted)).1
  have hall : ((completed d.log ++ pending).flatMap (queries pton)).Nodup := by
    refine List.nodup_flatMap.mpr ⟨fun req _ => nodup_queries req, hreqs.imp fun {a b} hne => ?_⟩
    intro q ha hb
    exact hne ((request_of_queries ha).symm.trans (request_of_queries hb))
  exact (List.nodup_append.mp (h.asked ▸ hall)).1

theorem Books.nodup_answered {pending : List Request} {todo : List Query}
    (h : Books pton d pending todo) : (answered d.log).Nodup :=
  (List.nodup_append.mp (h.called.nodup_iff.mpr h.nodup_made)).1

/-- **In order, each once.** In every interleaving at most one thread holds the
lock; the completed requests, those in hand and those waiting are the calls of
`startRequest` in the order of the lock; no query is called back twice. -/
theorem requests_in_order (pton : Pton) (me : T) (s : State T Pc Data)
    (hr : (resolver pton me).Reachable s) :
    (∀ t u, inside (s.pc t) = true → inside (s.pc u) = true → t = u) ∧
      completed s.data.log ++ inHand (s.pc me) ++ s.data.mRequests = s.data.submitted ∧
      s.data.submitted.Nodup ∧ (answered s.data.log).Nodup := by
  have hi := (inductive_asserted pton me).reachable s hr
  obtain ⟨w, hpc, ha⟩ := asserted_me hi
  refine ⟨fun t u ht hu => mutual_exclusion hi.exclusive ht hu, ?_, ha.books.nodup_submitted,
    ha.books.nodup_answered⟩
  rw [hpc]
  exact ha.books.order

/-! ## What a response emits -/

/-- What has been emitted on the response of `req`. -/
def emitted (req : Request) (log : List Entry) : List Emit :=
  log.flatMap fun
    | .answer q a => if q.request = req then callback a else []
    | .complete r => if r = req then [.mComplete] else []
    | .query _ => []

/-- The answers to the queries of `req`. -/
def answersOf (req : Request) (log : List Entry) : List (Query × Answer) :=
  log.filterMap fun
    | .answer q a => if q.request = req then some (q, a) else none
    | _ => none

/-- The queries of a completed request had been answered. -/
def Served (pton : Pton) (log : List Entry) : Prop :=
  ∀ pre req post, log = pre ++ .complete req :: post → ∀ q ∈ queries pton req, q ∈ answered pre

theorem served_snoc {log : List Entry} {e : Entry} (h : Served pton log)
    (he : ∀ req, e = .complete req → ∀ q ∈ queries pton req, q ∈ answered log) :
    Served pton (log ++ [e]) := by
  intro pre req post heq q hq
  rcases List.eq_nil_or_concat post with rfl | ⟨post, e', rfl⟩
  · obtain ⟨rfl, hlast⟩ := List.append_inj' heq rfl
    exact he req (List.cons.inj hlast).1 q hq
  · rw [List.concat_eq_append, ← List.cons_append, ← List.append_assoc] at heq
    exact h pre req post (List.append_inj' heq rfl).1 q hq

/-- No `select` fails. -/
def SelectWorks (_ : Pc) (_ : Data) (x : Choice) : Prop := x ≠ .selected false

instance (s : State T Pc Data) (l : Label T Choice) : Decidable (Meets SelectWorks s l) :=
  match l with
  | .run _ x _ => inferInstanceAs (Decidable (x ≠ .selected false))
  | .wake _ => .isTrue trivial

/-- What else is true at each place when no `select` fails: a query is active
only while the thread works on its batch. -/
structure AtWorking (pton : Pton) (w : Worker) (d : Data) : Prop extends At pton w d where
  settled : w.working = false → d.active = []
  served : Served pton d.log

theorem mem_answered {w : Worker} (ha : AtWorking pton w d) {req : Request} {rest : List Request}
    (hw : w = .complete (req :: rest)) {q : Query} (hq : q ∈ queries pton req) :
    q ∈ answered d.log := by
  subst hw
  have hasked := ha.books.asked
  have hcalled := ha.books.called
  rw [ha.settled rfl, List.append_nil] at hcalled
  rw [hcalled.mem_iff]
  simp only [Worker.todo, List.append_nil] at hasked
  rw [hasked]
  exact List.mem_flatMap.mpr ⟨req, by simp [Worker.pending], hq⟩

theorem atWorking_worker {w w' : Worker} (hx : x ≠ .selected false) (ha : AtWorking pton w d)
    (h : WorkerStep pton d x w op w' d') : AtWorking pton w' d' := by
  refine ⟨at_worker ha.toAt h, ?_, ?_⟩
  · intro hw'
    cases h with
    | moves hm =>
      rcases hm.settled hw' with hw | hact | hsel
      · exact ha.settled hw
      · exact hact
      · exact absurd hsel hx
    | query => cases hw'
    | answer a working => exact absurd (working.symm.trans hw') (by decide)
    | failed | leave | take | complete => exact ha.settled rfl
  · cases h with
    | moves | failed | leave | take => exact ha.served
    | query | answer => exact served_snoc ha.served nofun
    | complete req rest =>
      refine served_snoc ha.served fun r hr q hq => ?_
      cases hr
      exact mem_answered ha rfl hq

theorem atWorking_caller {w : Worker} {c c' : Caller} (ha : AtWorking pton w d)
    (h : CallerStep d c op c' d') (hout : inside (.caller c) = true → inside (.worker w) = false) :
    AtWorking pton w d' := by
  refine ⟨at_caller ha.toAt h hout, ?_, ?_⟩
  · cases h <;> exact ha.settled
  · cases h <;> exact ha.served

theorem guarded_atWorking (pton : Pton) (me : T) :
    (resolver pton me).Guarded (Meets SelectWorks)
      (Asserted (program pton) (Holds me (AtWorking pton))) :=
  (outline me (fun _ _ _ _ _ _ hx hs ha => atWorking_worker hx ha hs)
    (fun _ _ _ _ _ _ hs hout ha => atWorking_caller ha hs hout)).guarded (disciplined pton)
    (asserted_init ⟨at_init, fun _ => rfl, fun pre req post h => by simp [Data.init] at h⟩)

theorem emitted_append (req : Request) (l l' : List Entry) :
    emitted req (l ++ l') = emitted req l ++ emitted req l' := by
  simp [emitted]

/-- Before its completion a response has emitted its answers only. -/
theorem emitted_of_not_completed {req : Request} {log : List Entry} (h : req ∉ completed log) :
    emitted req log = (answersOf req log).flatMap (callback ·.2) := by
  induction log with
  | nil => rfl
  | cons e log ih =>
    cases e with
    | query q => exact ih (by simpa [completed] using h)
    | answer q a =>
      have ih := ih (by simpa [completed] using h)
      by_cases hq : q.request = req <;> simp_all [emitted, answersOf]
    | complete r =>
      simp only [completed, List.filterMap_cons, Entry.completed, List.mem_cons, not_or] at h
      have ih := ih h.2
      have hne : r ≠ req := fun he => h.1 he.symm
      simp_all [emitted, answersOf]

theorem answersOf_fst (req : Request) (log : List Entry) :
    (answersOf req log).map Prod.fst = (answered log).filter (·.request = req) := by
  induction log with
  | nil => rfl
  | cons e log ih =>
    cases e with
    | answer q a => by_cases hq : q.request = req <;> simp_all [answersOf, answered]
    | query | complete => simpa [answersOf, answered, List.filterMap_cons] using ih

/-- A query is one of its request, which has been taken. -/
theorem mem_taken {w : Worker} (ha : At pton w d) {q : Query}
    (hq : q ∈ answered d.log ++ d.active) :
    q ∈ queries pton q.request ∧ q.request ∈ completed d.log ++ w.pending := by
  have hmade : q ∈ made d.log := ha.books.called.subset hq
  have hall : q ∈ (completed d.log ++ w.pending).flatMap (queries pton) :=
    ha.books.asked ▸ List.mem_append_left _ hmade
  obtain ⟨req, hreq, hquery⟩ := List.mem_flatMap.mp hall
  obtain rfl := request_of_queries hquery
  exact ⟨hquery, hreq⟩

theorem mem_completed {req : Request} {log : List Entry} (h : req ∈ completed log) :
    ∃ pre post, log = pre ++ .complete req :: post := by
  obtain ⟨e, he, hreq⟩ := List.mem_filterMap.mp h
  cases e with
  | complete r =>
    cases hreq
    exact List.append_of_mem he
  | query | answer => cases hreq

theorem completed_around (pre post : List Entry) (req : Request) :
    completed (pre ++ .complete req :: post) = completed pre ++ req :: completed post := by
  simp [completed]

theorem answered_around (pre post : List Entry) (req : Request) :
    answered (pre ++ .complete req :: post) = answered pre ++ answered post := by
  simp [answered, List.filterMap_cons]

/-- **What a completed response has emitted.** As long as no `select` fails, a
completed response has emitted what each of its queries has found, in some order
of the queries, then `onComplete`, and nothing else. -/
theorem emitted_of_completed (pton : Pton) (me : T) (s : State T Pc Data)
    (hr : ((resolver pton me).guard (Meets SelectWorks)).Reachable s) (req : Request)
    (hreq : req ∈ completed s.data.log) :
    ∃ answers : List (Query × Answer), (answers.map Prod.fst).Perm (queries pton req) ∧
      emitted req s.data.log = answers.flatMap (callback ·.2) ++ [.mComplete] := by
  obtain ⟨w, -, ha⟩ := asserted_me ((guarded_atWorking pton me).reachable s hr)
  obtain ⟨pre, post, hlog⟩ := mem_completed hreq
  have hserved := ha.served pre req post hlog
  have hcompleted : (completed s.data.log).Nodup := by
    have := ha.books.order ▸ ha.books.nodup_submitted
    exact (List.nodup_append.mp (List.nodup_append.mp this).1).1
  have hanswered := ha.books.nodup_answered
  have hqueries : ∀ q ∈ answered s.data.log, q ∈ queries pton q.request := fun q hq =>
    (mem_taken ha.toAt (List.mem_append_left _ hq)).1
  rw [hlog, completed_around] at hcompleted
  simp only [hlog, answered_around] at hanswered hqueries
  obtain ⟨-, hpost, hdisj⟩ := List.nodup_append.mp hcompleted
  have hnotpre : req ∉ completed pre := fun h => hdisj req h req (by simp) rfl
  have hnotpost : req ∉ completed post := (List.nodup_cons.mp hpost).1
  -- all its queries were answered before, so none is after
  have hnone : answersOf req post = [] := by
    rw [← List.map_eq_nil_iff (f := Prod.fst), answersOf_fst, List.filter_eq_nil_iff]
    intro q hq heq
    have hin := hqueries q (List.mem_append_right _ hq)
    rw [of_decide_eq_true heq] at hin
    exact (List.nodup_append.mp hanswered).2.2 q (hserved q hin) q hq rfl
  refine ⟨answersOf req pre, ?_, ?_⟩
  · rw [answersOf_fst]
    refine (List.perm_ext_iff_of_nodup ((List.nodup_append.mp hanswered).1.filter _)
      (nodup_queries req)).mpr fun q => ?_
    rw [List.mem_filter]
    constructor
    · rintro ⟨hq, heq⟩
      have hin := hqueries q (List.mem_append_left _ hq)
      rwa [of_decide_eq_true heq] at hin
    · exact fun hq => ⟨hserved q hq, decide_eq_true (request_of_queries hq)⟩
  · have hend : emitted req (.complete req :: post) = .mComplete :: emitted req post := by
      simp [emitted]
    rw [hlog, emitted_append, hend, emitted_of_not_completed hnotpre,
      emitted_of_not_completed hnotpost, hnone]
    rfl

/-! ### One lookup -/

def noLiterals : Pton := ⟨fun _ => false, fun _ => false⟩

/-- A request for a name of one letter. -/
def asked : Request := ⟨0, [97]⟩

/-- Thread `true` calls `startRequest`. -/
def asks : List (Label Bool Choice) :=
  [.run true (.startRequest [97]) none, .run true .go none, .run true .go none, .run true .go none,
   .run true .go none]

/-- The resolver's thread, `false`, takes the request and makes its queries. -/
def takes : List (Label Bool Choice) :=
  [.run false (.init true) none, .run false .go none, .run false .go none, .run false .go none, .run false .go none,
   .run false .go none, .run false .go none, .run false .go none, .run false .go none]

/-- The name has an IPv4 address and no IPv6 address. -/
def answers : List (Label Bool Choice) :=
  [.run false (.nfds 5) none, .run false (.selected true) none,
   .run false (.answer 1 (.error 1)) none, .run false (.answer 0 (.host .inet [[10, 0, 0, 1]])) none,
   .run false .go none, .run false (.nfds 0) none, .run false .go none]

theorem lookup_runs :
    (LTS.record (step (program noLiterals)) (State.init false) (asks ++ takes ++ answers)).isSome := rfl

theorem emitted_of_completed_lookup :
    ∃ found : List (Query × Answer), (found.map Prod.fst).Perm (queries noLiterals asked) ∧
      emitted asked (LTS.last (State.init false) ((LTS.record (step (program noLiterals)) (State.init false)
        (asks ++ takes ++ answers)).get lookup_runs)).data.log =
        found.flatMap (callback ·.2) ++ [.mComplete] :=
  emitted_of_completed noLiterals false _
    (((LTS.trace_record lookup_runs).guard (by decide)).reachable rfl) asked (by decide)

/-! ## Responses without their answers -/

/-- c-ares has no query left of a response that is completed, and so let go of. -/
def Settled (s : State T Pc Data) : Prop :=
  ∀ q ∈ s.data.active, q.request ∉ completed s.data.log

/-- What a statement of a caller leaves alone. -/
structure Same (d d' : Data) : Prop where
  log : d'.log = d.log
  active : d'.active = d.active
  stopped : d.mStopped = true → d'.mStopped = true
  joined : d.joinable = false → d'.joinable = false

theorem CallerStep.same {c c' : Caller} (h : CallerStep d c op c' d') : Same d d' := by
  cases h with
  | moves | push => exact ⟨rfl, rfl, id, id⟩
  | set => exact ⟨rfl, rfl, fun _ => rfl, id⟩
  | join => exact ⟨rfl, rfl, id, fun _ => rfl⟩

/-- As long as no `select` fails, the queries left are those of the batch. -/
theorem not_completed {w : Worker} (ha : AtWorking pton w d) {q : Query} (hq : q ∈ d.active) :
    q.request ∉ completed d.log := by
  intro hcompleted
  obtain ⟨pre, post, hlog⟩ := mem_completed hcompleted
  obtain ⟨hquery, -⟩ := mem_taken ha.toAt (List.mem_append_right _ hq)
  have hanswered : q ∈ answered d.log := by
    rw [hlog, answered_around]
    exact List.mem_append_left _ (ha.served pre q.request post hlog q hquery)
  have honce : (answered d.log ++ d.active).Nodup :=
    ha.books.called.nodup_iff.mpr ha.books.nodup_made
  exact (List.nodup_append.mp honce).2.2 q hanswered q hq rfl

/-- The resolver's thread is about to complete a response that c-ares points to. -/
def Owed (me : T) (s : State T Pc Data) : Prop :=
  ∃ rest, s.pc me = .worker (.complete rest) ∧ ∃ q ∈ s.data.active, q.request ∈ rest

theorem selected_select {w w' : Worker}
    (h : workerNext pton d w (.selected false) = some (op, w', d')) :
    ∃ requests, w = .select requests ∧ w' = .complete requests ∧ d' = d := by
  unfold workerNext at h
  split at h <;> simp_all

/-- The first `select` that fails. -/
theorem owed_of_failed {me : T} {s s' : State T Pc Data} {l : Label T Choice}
    (hi : Asserted (program pton) (Holds me (AtWorking pton)) s) (hc : ¬ Meets SelectWorks s l)
    (hs : step (program pton) s l = some s') : Owed me s' := by
  cases l with
  | wake => exact absurd trivial hc
  | run t x woken =>
    obtain rfl : x = .selected false := Classical.not_not.mp hc
    obtain ⟨op, hran⟩ := step_run hs
    have hnext := hran.next
    have hown := hi.holds t
    cases hpc : s.pc t with
    | caller c =>
      -- callers do not call `select`
      rw [hpc] at hnext
      obtain ⟨⟨op, c', d'⟩, hcaller, -⟩ := Option.map_eq_some_iff.mp hnext
      cases c <;> cases hcaller
    | worker w =>
      rw [hpc] at hnext hown
      obtain ⟨⟨op, w', d'⟩, hworker, heq⟩ := Option.map_eq_some_iff.mp hnext
      obtain ⟨requests, rfl, rfl, rfl⟩ := selected_select hworker
      obtain ⟨rfl, ha⟩ := hown
      obtain ⟨-, hpair⟩ := Prod.mk.inj heq
      obtain ⟨hpc', hdata⟩ := Prod.mk.inj hpair
      obtain ⟨q, hq⟩ := List.exists_mem_of_ne_nil _ (ha.active requests rfl)
      obtain ⟨-, htaken⟩ := mem_taken ha.toAt (List.mem_append_right _ hq)
      have hrest := (List.mem_append.mp htaken).resolve_left (not_completed ha hq)
      exact ⟨requests, hpc'.symm, q, hdata ▸ hq, hrest⟩

theorem complete_next {rest : List Request} {w' : Worker}
    (h : workerNext pton d (.complete rest) x = some (op, w', d')) :
    rest = [] ∨ ∃ req rest', rest = req :: rest' ∧ w' = .complete rest' ∧
      d' = { d with log := d.log ++ [.complete req] } := by
  cases rest with
  | nil => exact .inl rfl
  | cons req rest' => cases x <;> cases h; exact .inr ⟨req, rest', rfl, rfl, rfl⟩

/-- Until it does. -/
theorem owed_step {me : T} {s s' : State T Pc Data} {l : Label T Choice}
    (hi : Asserted (program pton) (Holds me (At pton)) s) (ho : Owed me s)
    (hs : step (program pton) s l = some s') (hset : Settled s') : Owed me s' := by
  cases l with
  | wake t =>
    obtain ⟨-, rfl⟩ := step_wake hs
    exact ho
  | run t x woken =>
    obtain ⟨rest, hme, q, hq, hrest⟩ := ho
    obtain ⟨op, hran⟩ := step_run hs
    have hnext := hran.next
    have hown := hi.holds t
    cases hpc : s.pc t with
    | caller c =>
      rw [hpc] at hnext hown
      obtain ⟨c', -, hstep⟩ := next_caller hnext
      refine ⟨rest, (hran.others me (Ne.symm hown)).trans hme, q, ?_, hrest⟩
      rw [hstep.same.active]
      exact hq
    | worker w =>
      rw [hpc] at hnext hown
      obtain ⟨rfl, -⟩ := hown
      obtain ⟨⟨op, w', d'⟩, hworker, heq⟩ := Option.map_eq_some_iff.mp hnext
      obtain ⟨-, hpair⟩ := Prod.mk.inj heq
      obtain ⟨hpc', hdata⟩ := Prod.mk.inj hpair
      cases hpc.symm.trans hme
      rcases complete_next hworker with rfl | ⟨req, rest', rfl, rfl, rfl⟩
      · cases hrest
      · have hactive : q ∈ s'.data.active := hdata ▸ hq
        rcases List.mem_cons.mp hrest with rfl | hrest
        · refine absurd ?_ (hset q hactive)
          rw [← hdata]
          simp
        · exact ⟨rest', hpc'.symm, q, hactive, hrest⟩

theorem owed_last {me : T} {s : State T Pc Data} {t : List (Label T Choice × State T Pc Data)}
    (ht : (resolver pton me).Trace s t)
    (hi : Asserted (program pton) (Holds me (At pton)) s) (ho : Owed me s)
    (hset : LTS.AllStates Settled s t) : Owed me (LTS.last s t) := by
  induction ht with
  | nil => exact ho
  | cons hs _ ih =>
    obtain ⟨-, hset⟩ := LTS.allStates_cons.mp hset
    exact ih ((inductive_asserted pton me).step _ _ _ hi hs) (owed_step hi ho hs hset.1) hset

theorem works_of_settled {me : T} {s : State T Pc Data}
    {t : List (Label T Choice × State T Pc Data)} (ht : (resolver pton me).Trace s t)
    (hi : Asserted (program pton) (Holds me (At pton)) s)
    (hw : Asserted (program pton) (Holds me (AtWorking pton)) s)
    (hset : LTS.AllStates Settled s t) (hend : ¬ Owed me (LTS.last s t)) :
    LTS.AllSteps (Meets SelectWorks) s t := by
  induction ht with
  | nil => trivial
  | @cons s s' l t hs ht ih =>
    obtain ⟨-, hset⟩ := LTS.allStates_cons.mp hset
    have hi' := (inductive_asserted pton me).step s l s' hi hs
    by_cases hc : Meets SelectWorks s l
    · exact ⟨hc, ih hi' ((guarded_atWorking pton me).step s l s' hw hc hs) hset hend⟩
    · exact absurd (owed_last ht hi' (owed_of_failed hw hc hs) hset) hend

theorem settled_of_works {me : T} {t : List (Label T Choice × State T Pc Data)}
    (ht : (resolver pton me).Trace (State.init me) t)
    (hworks : LTS.AllSteps (Meets SelectWorks) (State.init me) t) :
    LTS.AllStates Settled (State.init me) t := by
  refine (guarded_atWorking pton me).allStates (fun s hs q hq => ?_) ht
    ((guarded_atWorking pton me).init _ rfl) hworks
  obtain ⟨w, -, ha⟩ := asserted_me hs
  exact not_completed ha hq

/-- **c-ares points to no completed response**, in any state of a run, exactly
when no `select` of the run fails. The run must not end between a failure and
the completion of the responses that c-ares is left with. -/
theorem settled_iff (pton : Pton) (me : T) {t : List (Label T Choice × State T Pc Data)}
    (ht : (resolver pton me).Trace (State.init me) t)
    (hend : ¬ Owed me (LTS.last (State.init me) t)) :
    LTS.AllStates Settled (State.init me) t ↔
      LTS.AllSteps (Meets SelectWorks) (State.init me) t :=
  ⟨fun hset => works_of_settled ht ((inductive_asserted pton me).init _ rfl)
    ((guarded_atWorking pton me).init _ rfl) hset hend, settled_of_works ht⟩

theorem requests_in_order_lookup :
    let s := LTS.last (State.init false) ((LTS.record (step (program noLiterals)) (State.init false)
      (asks ++ takes ++ answers)).get lookup_runs)
    completed s.data.log ++ inHand (s.pc false) ++ s.data.mRequests = s.data.submitted :=
  (requests_in_order noLiterals false _
    (LTS.Trace.reachable rfl (LTS.trace_record lookup_runs))).2.1

/-- The queries have been made when `select` fails. -/
def fails : List (Label Bool Choice) :=
  [.run false (.nfds 5) none, .run false (.selected false) none, .run false .go none,
   .run false .go none]

theorem failed_runs : (LTS.record (step (program noLiterals)) (State.init false)
    (asks ++ takes ++ fails)).isSome := rfl

theorem settled_iff_lookup :
    LTS.AllStates Settled (State.init false) ((LTS.record (step (program noLiterals))
        (State.init false) (asks ++ takes ++ answers)).get lookup_runs) ∧
      ¬ LTS.AllStates Settled (State.init false) ((LTS.record (step (program noLiterals))
        (State.init false) (asks ++ takes ++ fails)).get failed_runs) := by
  constructor
  · refine (settled_iff noLiterals false (LTS.trace_record lookup_runs) ?_).mpr (by decide)
    rintro ⟨_, hpc, q, -, hq⟩
    cases hpc
    cases hq
  · refine mt (settled_iff noLiterals false (LTS.trace_record failed_runs) ?_).mp (by decide)
    rintro ⟨_, hpc, -⟩
    cases hpc

/-! ## After `shutdown` -/

/-- What has been taken, completed or not. -/
def taken (me : T) (s : State T Pc Data) : List Request :=
  completed s.data.log ++ inHand (s.pc me)


/-- When the thread is to stop, its statements take nothing. -/
theorem WorkerStep.stopped {w w' : Worker} (h : WorkerStep pton d x w op w' d')
    (ha : At pton w d) (hs : d.mStopped = true) :
    completed d'.log ++ w'.pending = completed d.log ++ w.pending ∧ d'.mStopped = true := by
  cases h with
  | moves hm => exact ⟨by rw [hm.pending], hs⟩
  | take => exact absurd (ha.running rfl) (by simp [hs])
  | failed | leave | query | answer | complete => exact ⟨by simp [Worker.pending], hs⟩

/-- The thread is joined, so it takes no step. -/
theorem At.not_step {w w' : Worker} (ha : At pton w d) (hj : d.joinable = false) :
    ¬ WorkerStep pton d x w op w' d' := by
  intro h
  obtain rfl := ha.ended.mp (ha.joined hj)
  cases h with
  | moves hm => exact hm.runs.1 rfl
  | answer a working => cases working

theorem stopped_step {me : T} {s s' : State T Pc Data} {l : Label T Choice}
    (hi : Asserted (program pton) (Holds me (At pton)) s)
    (hs : step (program pton) s l = some s') :
    (s.data.mStopped = true → taken me s' = taken me s ∧ s'.data.mStopped = true) ∧
      (s.data.joinable = false → s'.data.log = s.data.log ∧ s'.data.joinable = false) := by
  cases l with
  | wake t =>
    obtain ⟨-, rfl⟩ := step_wake hs
    exact ⟨fun h => ⟨rfl, h⟩, fun h => ⟨rfl, h⟩⟩
  | run t x woken =>
    obtain ⟨op, hran⟩ := step_run hs
    have hnext := hran.next
    have hown := hi.holds t
    cases hpc : s.pc t with
    | caller c =>
      rw [hpc] at hnext hown
      obtain ⟨c', hpc', hstep⟩ := next_caller hnext
      obtain ⟨hlog, -, hstop, hjoin⟩ := hstep.same
      refine ⟨fun h => ⟨?_, hstop h⟩, fun h => ⟨hlog, hjoin h⟩⟩
      rw [taken, hlog, hran.others me (Ne.symm hown)]
      rfl
    | worker w =>
      rw [hpc] at hnext hown
      obtain ⟨w', hpc', hstep⟩ := next_worker hnext
      obtain ⟨rfl, ha⟩ := hown
      refine ⟨fun h => ?_, fun h => absurd hstep (ha.not_step h)⟩
      obtain ⟨htaken, hstop⟩ := hstep.stopped ha h
      exact ⟨by rw [taken, taken, hpc, hpc']; exact htaken, hstop⟩

/-- **`shutdown` is final.** Whatever follows the flag of `shutdown`, nothing
that had not been taken is ever taken; whatever follows its join, nothing is
emitted on any response. -/
theorem stopped_takes_nothing (pton : Pton) (me : T) {s s' : State T Pc Data}
    {ls : List (Label T Choice)} (hr : (resolver pton me).Reachable s)
    (hrun : (resolver pton me).Run s ls s') :
    (s.data.mStopped = true → taken me s' = taken me s) ∧
      (s.data.joinable = false → s'.data.log = s.data.log) := by
  have hi := (inductive_asserted pton me).reachable s hr
  have hkeep := (inductive_asserted pton me).step
  constructor
  · intro h
    refine (hrun.preserves (I := fun s₁ => Asserted (program pton) (Holds me (At pton)) s₁ ∧
      s₁.data.mStopped = true ∧ taken me s₁ = taken me s) ?_ ⟨hi, h, rfl⟩).2.2
    intro s₁ l s₂ ⟨h₁, hstop, htaken⟩ hs
    obtain ⟨htaken', hstop'⟩ := (stopped_step h₁ hs).1 hstop
    exact ⟨hkeep s₁ l s₂ h₁ hs, hstop', htaken'.trans htaken⟩
  · intro h
    refine (hrun.preserves (I := fun s₁ => Asserted (program pton) (Holds me (At pton)) s₁ ∧
      s₁.data.joinable = false ∧ s₁.data.log = s.data.log) ?_ ⟨hi, h, rfl⟩).2.2
    intro s₁ l s₂ ⟨h₁, hjoin, hlog⟩ hs
    obtain ⟨hlog', hjoin'⟩ := (stopped_step h₁ hs).2 hjoin
    exact ⟨hkeep s₁ l s₂ h₁ hs, hjoin', hlog'.trans hlog⟩

/-- Thread `true` shuts the resolver down. -/
def stops : List (Label Bool Choice) :=
  [.run false (.init true) none, .run true .shutdown none, .run true .go none, .run true .go none,
   .run true .go none, .run false .go none, .run false .go none, .run false .go none, .run true .go none]

theorem stops_runs : (LTS.replay (step (program noLiterals)) (State.init false) stops).isSome := rfl

theorem asks_runs : (LTS.replay (step (program noLiterals))
    ((LTS.replay (step (program noLiterals)) (State.init false) stops).get stops_runs) asks).isSome := rfl

theorem stopped_takes_nothing_asks :
    taken false ((LTS.replay (step (program noLiterals)) ((LTS.replay (step (program noLiterals))
        (State.init false) stops).get stops_runs) asks).get asks_runs) =
      taken false ((LTS.replay (step (program noLiterals)) (State.init false) stops).get stops_runs) :=
  (stopped_takes_nothing noLiterals false (LTS.reachable_replay (· = State.init false) rfl stops_runs)
    (LTS.run_replay (Option.some_get asks_runs).symm)).1 (by decide)

end Reckoning.L4.Resolver
