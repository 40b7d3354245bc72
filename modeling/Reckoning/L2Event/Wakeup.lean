import Reckoning.L2Event.Execute

/-!
# The wakeup pipe

`wakeup` writes while the caller holds `mMutex`, and only the read end of the
pipe is made non-blocking (lib/event/Loop.cpp:36, :49-56). The loop reads the
pipe in its dispatch phase alone. So a thread that finds the pipe full waits
with the lock in its hands, and the loop, which locks in every phase, waits for
the lock.

* `never_deadlocks`: not in a run whose calls find room in the pipe.
* `blocked_deadlocks`: once a call has not, steps of the loop's thread alone can
  end in the deadlock, wherever it is.
* `deadlock_reachable`: `capacity` posts during one event get there.
-/
namespace Reckoning.L2.Execute

variable {T E : Type}

/-- A thread is blocked in the `write` of `wakeup` while it holds `mMutex`, and
the loop's thread waits for `mMutex`. -/
structure Deadlock (capacity : Nat) (s : Sys T E) : Prop where
  writer : ∃ t, s.threads t = .wakeup ∧ s.mMutex = some (.thread t) ∧ ¬ s.pipe < capacity
  loop : ∃ sec, s.pc = .lock sec

/-- A call of another thread that takes `mMutex` and is to write finds room in
the pipe. -/
def Room (capacity : Nat) (s : Sys T E) : Label T E → Prop
  | .go t =>
    match s.threads t with
    | .lock c => c.writes false = true → s.pipe < capacity
    | _ => True
  | _ => True

instance (capacity : Nat) (s : Sys T E) : DecidablePred (Room capacity s)
  | .go t =>
    match h : s.threads t with
    | .lock c => decidable_of_iff (c.writes false = true → s.pipe < capacity) (by simp [Room, h])
    | .idle | .wakeup | .unlock => .isTrue (by simp [Room, h])
  | .loop _ | .call _ _ => .isTrue trivial

/-! ## With room in the pipe -/

/-- Whoever is in `write` finds room. -/
def Writable (capacity : Nat) (s : Sys T E) : Prop := ∀ t, s.threads t = .wakeup → s.pipe < capacity

theorem writable_loop {capacity : Nat} {s s' : Sys T E} (hi : Inv s) (h : LoopStep capacity s s')
    (hw : Writable capacity s) : Writable capacity s' := by
  intro t ht
  rw [h.threads] at ht
  rcases h.pipe with hle | hholds
  · exact Nat.lt_of_le_of_lt hle (hw t ht)
  · cases (hi.thread t (ht ▸ trivial)).symm.trans (hi.loop hholds)

section
variable [DecidableEq T] {capacity : Nat} {s s' : Sys T E}

theorem writable_thread {t : T} (hi : Inv s) (h : ThreadStep capacity t s s')
    (hroom : ∀ c, s.threads t = .lock c → c.writes false = true → s.pipe < capacity)
    (hw : Writable capacity s) : Writable capacity s' := by
  intro u hu
  cases h with
  | call c ht hs =>
    subst hs
    by_cases hut : u = t
    · rw [hut, setThread_self] at hu; cases hu
    · exact hw u (by rwa [setThread_of_ne hut] at hu)
  | lock c ht hfree hs =>
    subst hs
    have hpipe : (apply c { s with mMutex := some (.thread t) }).pipe = s.pipe := apply_pipe c _
    by_cases hut : u = t
    · rw [hut, setThread_self] at hu
      have hwrites : c.writes false = true := Classical.byContradiction fun hn => by
        rw [if_neg hn] at hu; cases hu
      exact Nat.lt_of_le_of_lt (Nat.le_of_eq hpipe) (hroom c ht hwrites)
    · rw [setThread_of_ne hut, apply_threads] at hu
      exact Nat.lt_of_le_of_lt (Nat.le_of_eq hpipe) (hw u hu)
  | wakeup ht _ hs =>
    subst hs
    by_cases hut : u = t
    · rw [hut, setThread_self] at hu; cases hu
    · -- two threads would hold `mMutex`
      rw [setThread_of_ne hut] at hu
      cases (hi.thread t (ht ▸ trivial)).symm.trans (hi.thread u (hu ▸ trivial))
      exact absurd rfl hut
  | unlock ht hs =>
    subst hs
    by_cases hut : u = t
    · rw [hut, setThread_self] at hu; cases hu
    · exact hw u (by rwa [setThread_of_ne hut] at hu)

theorem guarded_room : (system capacity : LTS (Sys T E) (Label T E)).Guarded (Room capacity)
    fun s => Inv s ∧ Writable capacity s where
  init s h := by cases h; exact ⟨inv_init, nofun⟩
  step s l s' hi hc hs := by
    refine ⟨inductive_inv.step s l s' hi.1 hs, ?_⟩
    cases l with
    | loop m => exact writable_loop hi.1 (loopStep_spec hs) hi.2
    | call t c =>
      refine writable_thread hi.1 (threadStep_spec hs) (fun c' ht => ?_) hi.2
      simp [system, LTS.ofFn, step, threadStep, ht] at hs
    | go t =>
      refine writable_thread hi.1 (threadStep_spec hs) (fun c ht => ?_) hi.2
      simpa [Room, ht] using hc

/-- **No deadlock while every call finds room in the pipe.** -/
theorem never_deadlocks {t : List (Label T E × Sys T E)} (ht : (system capacity).Trace Sys.init t)
    (hroom : LTS.AllSteps (Room capacity) Sys.init t) :
    LTS.AllStates (¬ Deadlock capacity ·) Sys.init t := by
  refine guarded_room.allStates (fun s hi hd => ?_) ht ⟨inv_init, nofun⟩ hroom
  obtain ⟨u, hu, -, hfull⟩ := hd.writer
  exact hfull (hi.2 u hu)

/-! ## Without -/

/-- Steps of the loop's thread alone, which touch nothing of the others, lead to
a lock. -/
def ComesToLock (capacity : Nat) (s : Sys T E) : Prop :=
  ∃ (ms : List (Move E)) (s' : Sys T E), (system capacity).Run s (ms.map Label.loop) s' ∧
    s'.threads = s.threads ∧ s'.mMutex = s.mMutex ∧ s'.pipe = s.pipe ∧ ∃ sec, s'.pc = .lock sec

theorem ComesToLock.here {sec : Section E} (hpc : s.pc = .lock sec) : ComesToLock capacity s :=
  ⟨[], s, .nil s, rfl, rfl, rfl, sec, hpc⟩

theorem ComesToLock.of_step (m : Move E) (s₁ : Sys T E) (hs : loopStep capacity s m = some s₁)
    (hsame : s₁.threads = s.threads ∧ s₁.mMutex = s.mMutex ∧ s₁.pipe = s.pipe)
    (h : ComesToLock capacity s₁) : ComesToLock capacity s := by
  obtain ⟨ms, s', hrun, ht, hm, hp, hlock⟩ := h
  exact ⟨m :: ms, s', .cons hs hrun, ht.trans hsame.1, hm.trans hsame.2.1, hp.trans hsame.2.2, hlock⟩

theorem ComesToLock.of_user {k : User} (hpc : s.pc = .user k) : ComesToLock capacity s :=
  .of_step (.call .stopTimer) { s with pc := .lock (.call .stopTimer k) } (by simp [loopStep, hpc])
    ⟨rfl, rfl, rfl⟩ (.here rfl)

/-- Where `mStopped` is read, `execute` returns or goes on to a lock. -/
theorem ComesToLock.of_check (sec : Section E) (hs : loopStep capacity s .go =
    some (if s.mStopped then returns s.mStatus s else { s with pc := .lock sec })) :
    ComesToLock capacity s := by
  refine .of_step .go _ hs ?_ ?_
  · split <;> exact ⟨rfl, rfl, rfl⟩
  · split
    · exact .of_user rfl
    · exact .here rfl

theorem ComesToLock.of_checkEvents (hpc : s.pc = .checkEvents) : ComesToLock capacity s :=
  .of_check .take (by simp [loopStep, hpc])

theorem ComesToLock.of_dispatch {woken : Bool} (hpc : s.pc = .dispatch woken) :
    ComesToLock capacity s :=
  .of_step (.fd true) { s with pc := .lock (.processFd true woken) } (by simp [loopStep, hpc])
    ⟨rfl, rfl, rfl⟩ (.here rfl)

theorem comesToLock (hfree : ¬ s.pc.Holds) : ComesToLock capacity s := by
  match hpc : s.pc with
  | .user k => exact .of_user hpc
  | .checkEvents => exact .of_checkEvents hpc
  | .events =>
    cases hev : s.events with
    | nil =>
      exact .of_step .go { s with pc := .checkEvents } (by simp [loopStep, hpc, hev]) ⟨rfl, rfl, rfl⟩
        (.of_checkEvents rfl)
    | cons e es =>
      exact .of_step .go { s with events := es, executed := s.executed ++ [e], pc := .user .event }
        (by simp [loopStep, hpc, hev]) ⟨rfl, rfl, rfl⟩ (.of_user rfl)
  | .checkFds => exact .of_check .newFds (by simp [loopStep, hpc])
  | .lock sec => exact .here hpc
  | .wakeup c k => exact absurd (hpc ▸ trivial) hfree
  | .unlock sec => exact absurd (hpc ▸ trivial) hfree
  | .wait =>
    exact .of_step (.report false) { s with pc := .dispatch false } (by simp [loopStep, hpc])
      ⟨rfl, rfl, rfl⟩ (.of_dispatch rfl)
  | .dispatch woken => exact .of_dispatch hpc
  | .timers =>
    exact .of_step .done { s with pc := .checkEvents } (by simp [loopStep, hpc]) ⟨rfl, rfl, rfl⟩
      (.of_checkEvents rfl)

/-- Once a call has found the pipe full, the loop's thread can run into it. -/
theorem blocked_deadlocks (hr : (system capacity).Reachable s) {l : Label T E}
    (hs : step capacity s l = some s') (hroom : ¬ Room capacity s l) :
    ∃ (ms : List (Move E)) (s'' : Sys T E),
      (system capacity).Run s' (ms.map Label.loop) s'' ∧ Deadlock capacity s'' := by
  have hi' : Inv s' := inductive_inv.step s l s' (inductive_inv.reachable s hr) hs
  unfold Room at hroom
  split at hroom
  · rename_i t
    split at hroom
    · rename_i c ht
      obtain ⟨hwrites, hfull⟩ := Classical.not_imp.mp hroom
      rcases threadStep_spec hs with ⟨_, ht', -⟩ | ⟨c', ht', hfree, rfl⟩ | ⟨ht', -, -⟩ | ⟨ht', -⟩ <;>
        cases ht.symm.trans ht'
      -- the lock is taken: the loop's thread does not have it
      have hown := apply_mMutex c { s with mMutex := some (.thread t) }
      have hpipe := apply_pipe c { s with mMutex := some (.thread t) }
      have hlock : ComesToLock capacity
          (setThread t .wakeup (apply c { s with mMutex := some (.thread t) })) := by
        refine comesToLock fun hp => ?_
        rw [if_pos hwrites] at hi'
        cases hown.symm.trans (hi'.loop hp)
      obtain ⟨ms, s'', hrun, hth, hm, hp, hlock⟩ := hlock
      rw [if_pos hwrites]
      refine ⟨ms, s'', hrun, ⟨t, ?_, hm.trans hown, ?_⟩, hlock⟩
      · rw [hth, setThread_self]
      · rw [hp]
        exact fun hlt => hfull (Nat.lt_of_le_of_lt (Nat.le_of_eq hpipe.symm) hlt)
    · exact absurd trivial hroom
  · exact absurd trivial hroom

/-! ### Filling the pipe -/

/-- One post of the thread `t`, from the call to the return. -/
def post (t : T) (e : E) : List (Label T E) := [.call t (.post e), .go t, .go t, .go t]

/-- The thread `t` has posted `e` and is in `write`. -/
def posting (t : T) (e : E) (s : Sys T E) : Sys T E :=
  setThread t .wakeup (apply (.post e) { setThread t (.lock (.post e)) s with
    mMutex := some (.thread t) })

theorem call_post (capacity : Nat) {t : T} (e : E) (ht : s.threads t = .idle) :
    step capacity s (.call t (.post e)) = some (setThread t (.lock (.post e)) s) := by
  simp [step, threadStep, ht]

theorem lock_post (capacity : Nat) (t : T) (e : E) (hfree : s.mMutex = none) :
    step capacity (setThread t (.lock (.post e)) s) (.go t) = some (posting t e s) := by
  have hfree' : (setThread t (.lock (.post e)) s).mMutex = none := hfree
  simp [step, threadStep, hfree', posting, Call.writes]

theorem post_fills {t : T} (e : E) (ht : s.threads t = .idle) (hfree : s.mMutex = none)
    (hroom : s.pipe < capacity) : ∃ s', (system capacity).Run s (post t e) s' ∧
      s'.threads t = .idle ∧ s'.mMutex = none ∧ s'.pipe = s.pipe + 1 := by
  let s₃ := setThread t .unlock (writeByte (posting t e s))
  have h₃ : step capacity (posting t e s) (.go t) = some s₃ := by
    have hroom' : (posting t e s).pipe < capacity := hroom
    have ht' : (posting t e s).threads t = .wakeup := setThread_self ..
    simp [step, threadStep, hroom', ht', s₃]
  have h₄ : step capacity s₃ (.go t) = some (setThread t .idle { s₃ with mMutex := none }) := by
    simp [step, threadStep, s₃]
  exact ⟨_, .cons (call_post capacity e ht) (.cons (lock_post capacity t e hfree)
    (.cons h₃ (.cons h₄ (.nil _)))), setThread_self .., rfl, rfl⟩

/-- `n` posts of one thread while the loop's thread takes no step. -/
theorem posts_fill {t : T} (e : E) (n : Nat) (ht : s.threads t = .idle) (hfree : s.mMutex = none)
    (hroom : s.pipe + n ≤ capacity) : ∃ ls s', (system capacity).Run s ls s' ∧
      s'.threads t = .idle ∧ s'.mMutex = none ∧ s'.pipe = s.pipe + n := by
  induction n generalizing s with
  | zero => exact ⟨[], s, .nil s, ht, hfree, rfl⟩
  | succ n ih =>
    have hlt : s.pipe < capacity := by omega
    obtain ⟨s₁, hrun, ht₁, hfree₁, hpipe⟩ := post_fills e ht hfree hlt
    obtain ⟨ls, s', hrun', ht', hfree', hpipe'⟩ := ih ht₁ hfree₁ (by omega)
    exact ⟨_, s', hrun.append hrun', ht', hfree', by omega⟩

/-- The loop's thread posts an event, calls `execute` and is in it. -/
def inEvent (e : E) : List (Label T E) :=
  [.loop (.call (.post e)), .loop .go, .loop .go, .loop .execute, .loop .go, .loop .go, .loop .go,
   .loop .go]

/-- **The deadlock**, for every capacity: during one event another thread fills
the pipe and posts once more. -/
theorem deadlock_reachable (capacity : Nat) (t : T) (e : E) :
    ∃ s, (system capacity : LTS (Sys T E) (Label T E)).Reachable s ∧ Deadlock capacity s := by
  obtain ⟨s₀, hs₀, ht₀, hfree₀, hpipe₀⟩ : ∃ s₀ : Sys T E,
      LTS.replay (step capacity) Sys.init (inEvent e) = some s₀ ∧ s₀.threads t = .idle ∧
        s₀.mMutex = none ∧ s₀.pipe = 0 := ⟨_, rfl, rfl, rfl, rfl⟩
  have hr₀ : (system capacity).Reachable s₀ := ⟨_, _, rfl, LTS.run_replay hs₀⟩
  have hroom : s₀.pipe + capacity ≤ capacity := by omega
  obtain ⟨ls, s, hrun, ht, hfree, hpipe⟩ := posts_fill e capacity ht₀ hfree₀ hroom
  have hfull : ¬ Room capacity (setThread t (.lock (.post e)) s) (.go t) := by
    have hpipe' : (setThread t (.lock (.post e)) s).pipe = capacity := hpipe.trans (by omega)
    simp [Room, hpipe', Call.writes]
  have hr := (hr₀.run hrun).run (.cons (call_post capacity e ht) (.nil _))
  have hlock := lock_post capacity t e hfree
  obtain ⟨ms, s', hrun', hdead⟩ := blocked_deadlocks hr hlock hfull
  exact ⟨s', (hr.run (.cons hlock (.nil _))).run hrun', hdead⟩

end

/-- A pipe of 64 KiB does not protect from it. -/
theorem pipe_fills : ¬ ∀ s, (system 65536 : LTS (Sys Unit Unit) (Label Unit Unit)).Reachable s →
    ¬ Deadlock 65536 s := by
  intro h
  obtain ⟨s, hr, hdead⟩ := deadlock_reachable 65536 () ()
  exact h s hr hdead

/-- One post that finds room. -/
def postFits : List (Label Unit Unit) := post () ()

theorem postFits_runs : (LTS.record (step 1) Sys.init postFits).isSome := rfl

theorem never_deadlocks_postFits :
    LTS.AllStates (¬ Deadlock 1 ·) Sys.init ((LTS.record (step 1) Sys.init postFits).get postFits_runs) :=
  never_deadlocks (LTS.trace_record postFits_runs) (by decide)

end Reckoning.L2.Execute
