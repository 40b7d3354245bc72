import Reckoning.L2Event.Loop
import Reckoning.Core.LTS

/-!
# The descriptor registry

`addFd` and `removeFd` in any order, and the "process new fds" step of
`Loop::execute` at any time. `latest` is a ghost: the callback of the last
`addFd` of a descriptor, unless `removeFd` came after it.

`Settled` is what the step is meant to leave behind. The loop that takes out
the old entries of pending descriptors advances one iterator in two nested
loops (lib/event/Loop_epoll.cpp:146-156): with `k` pending descriptors it
compares the `i`-th entry of `mFds` only with the pending one number `i % k`,
and runs past the end unless `k` divides the number of entries
(`eraseLoop_eq`, `mem_survivors`).

`registry_iff`: a run keeps the registry right exactly when every process step
finds pending descriptors that line up (`Aligned`), none of them twice or
outdated.
-/
namespace Reckoning.L2.Registry
open Reckoning.L2.EventLoop

variable {α : Type}

structure Reg (α : Type) where
  loop : Loop α
  latest : Fd → Option α
  /-- the tables before the last step, if it was a process step -/
  before : Option (Loop α)
  fault : Option Fault

inductive Label (α : Type)
  | addFd (fd : Fd) (flags : Flags) (callback : α)
  | removeFd (fd : Fd)
  | process
  deriving DecidableEq

def Reg.init : Reg α := ⟨.init, fun _ => none, none, none⟩

def step (r : Reg α) (l : Label α) : Option (Reg α) :=
  if r.fault.isSome then none
  else
    match l with
    | .addFd fd flags callback =>
      some { r with
        loop := addFd fd flags callback r.loop
        latest := fun g => if g = fd then some callback else r.latest g
        before := none }
    | .removeFd fd =>
      some { r with
        loop := removeFd fd r.loop
        latest := fun g => if g = fd then none else r.latest g
        before := none }
    | .process =>
      match processNewFds r.loop with
      | .ok loop => some { r with loop := loop, before := some r.loop }
      | .error f => some { r with fault := some f }

def registry (α : Type) : LTS (Reg α) (Label α) := .ofFn (· = Reg.init) step

/-! ## The property -/

/-- What a process step leaves behind: no pending descriptor, each descriptor
once, with its latest callback, and the other entries kept. -/
structure Settled (before : Loop α) (r : Reg α) : Prop where
  pending : r.loop.mPendingFds = []
  once : (keys r.loop.mFds).Nodup
  latest : ∀ fd callback, (fd, callback) ∈ r.loop.mFds ↔ r.latest fd = some callback
  kept : ∀ e ∈ before.mFds, e.1 ∉ keys before.mPendingFds → e ∈ r.loop.mFds

structure RegOk (r : Reg α) : Prop where
  fault : r.fault = none
  settled : ∀ before, r.before = some before → Settled before r

/-! ## The condition -/

/-- The `i`-th registered descriptor is equal to no pending one but number `i % k`. -/
def Aligned (pending fds : List (Fd × α)) : Prop :=
  ∀ i j e p, fds[i]? = some e → pending[j]? = some p → e.1 = p.1 → j = i % pending.length

structure Fits (r : Reg α) : Prop where
  divides : r.loop.mPendingFds.length ∣ r.loop.mFds.length
  aligned : Aligned r.loop.mPendingFds r.loop.mFds
  once : (keys r.loop.mPendingFds).Nodup
  latest : ∀ e ∈ r.loop.mPendingFds, r.latest e.1 = some e.2

def Keeps (r : Reg α) : Label α → Prop
  | .process => r.loop.mPendingFds = [] ∨ Fits r
  | _ => True

/-! ## What the loop does -/

/-- The entries one turn keeps: each is compared with its own pending descriptor. -/
def survivorsRound (pending fds : List (Fd × α)) : List (Fd × α) :=
  ((pending.zip fds).filter fun p => p.1.1 ≠ p.2.1).map Prod.snd

theorem eraseRound_eq : ∀ (ps kept rest : List (Fd × α)), eraseRound ps kept rest =
    if ps.length ≤ rest.length then .ok (kept ++ survivorsRound ps rest, rest.drop ps.length)
    else .error .pastEnd
  | [], kept, rest => by simp [eraseRound, survivorsRound]
  | _ :: _, kept, [] => by simp [eraseRound]
  | p :: ps, kept, e :: rest => by
    rw [eraseRound]
    by_cases he : p.1 = e.1
    · rw [if_pos he, eraseRound_eq ps kept rest]
      simp [survivorsRound, he]
    · rw [if_neg he, eraseRound_eq ps (kept ++ [e]) rest]
      simp [survivorsRound, he]

/-- The entries the whole loop keeps, when it does not run past the end. -/
def survivors (pending : List (Fd × α)) : Nat → List (Fd × α) → List (Fd × α)
  | 0, _ => []
  | fuel + 1, rest =>
    if rest = [] then []
    else survivorsRound pending rest ++ survivors pending fuel (rest.drop pending.length)

/-- The loop comes to an end: past the end of `mFds` unless the number of
pending descriptors divides the number of entries. -/
theorem eraseLoop_eq {pending : List (Fd × α)} (hk : pending ≠ []) : ∀ (fuel : Nat)
    (kept rest : List (Fd × α)), rest.length ≤ fuel → eraseLoop pending fuel kept rest =
      if pending.length ∣ rest.length then .ok (kept ++ survivors pending fuel rest)
      else .error .pastEnd
  | fuel, kept, [], _ => by cases fuel <;> simp [eraseLoop, survivors]
  | 0, kept, _ :: _, h => absurd h (by simp)
  | fuel + 1, kept, e :: rest, h => by
    have hpos := List.length_pos_iff.mpr hk
    rw [eraseLoop, eraseRound_eq]
    by_cases hle : pending.length ≤ (e :: rest).length
    · rw [if_pos hle]
      dsimp only
      have hlen : ((e :: rest).drop pending.length).length ≤ fuel := by
        rw [List.length_drop]; omega
      have hdvd : pending.length ∣ ((e :: rest).drop pending.length).length ↔
          pending.length ∣ (e :: rest).length := by
        rw [List.length_drop, Nat.dvd_sub_iff_left hle (Nat.dvd_refl _)]
      have hsurv : survivors pending (fuel + 1) (e :: rest) = survivorsRound pending (e :: rest) ++
          survivors pending fuel ((e :: rest).drop pending.length) := by
        rw [survivors, if_neg (by simp)]
      rw [eraseLoop_eq hk fuel _ _ hlen, hsurv]
      simp only [hdvd, List.append_assoc]
    · rw [if_neg hle, if_neg]
      intro hd
      exact hle (Nat.le_of_dvd (by simp) hd)

theorem mem_survivorsRound {pending fds : List (Fd × α)} {e : Fd × α} :
    e ∈ survivorsRound pending fds ↔
      ∃ (i : Nat) (p : Fd × α), fds[i]? = some e ∧ pending[i]? = some p ∧ p.1 ≠ e.1 := by
  simp only [survivorsRound, List.mem_map, List.mem_filter, decide_eq_true_eq]
  constructor
  · intro hx
    obtain ⟨⟨p, e'⟩, ⟨hm, hne⟩, rfl⟩ := hx
    obtain ⟨i, hi⟩ := List.mem_iff_getElem?.mp hm
    obtain ⟨h1, h2⟩ := List.getElem?_zip_eq_some.mp hi
    exact ⟨i, p, h2, h1, hne⟩
  · intro hx
    obtain ⟨i, p, h1, h2, hne⟩ := hx
    exact ⟨(p, e), ⟨List.mem_iff_getElem?.mpr ⟨i, List.getElem?_zip_eq_some.mpr ⟨h2, h1⟩⟩, hne⟩, rfl⟩

/-- The `i`-th entry is compared with the pending descriptor number `i % k` only. -/
theorem mem_survivors {pending : List (Fd × α)} (hk : pending ≠ []) {e : Fd × α} :
    ∀ {fuel : Nat} {rest : List (Fd × α)}, rest.length ≤ fuel →
    (e ∈ survivors pending fuel rest ↔
      ∃ (i : Nat) (p : Fd × α), rest[i]? = some e ∧ pending[i % pending.length]? = some p ∧
        p.1 ≠ e.1) := by
  have hpos := List.length_pos_iff.mpr hk
  intro fuel
  induction fuel with
  | zero =>
    intro rest h
    rw [List.length_eq_zero_iff.mp (Nat.le_zero.mp h)]
    simp [survivors]
  | succ fuel ih =>
    intro rest h
    by_cases hr : rest = []
    · subst hr; simp [survivors]
    have hlen : (rest.drop pending.length).length ≤ fuel := by
      have := List.length_pos_iff.mpr hr
      rw [List.length_drop]; omega
    rw [survivors, if_neg hr, List.mem_append, mem_survivorsRound, ih hlen]
    constructor
    · intro hx
      rcases hx with ⟨i, p, h1, h2, hne⟩ | ⟨i, p, h1, h2, hne⟩
      · have hi := (List.getElem?_eq_some_iff.mp h2).1
        exact ⟨i, p, h1, by rwa [Nat.mod_eq_of_lt hi], hne⟩
      · rw [List.getElem?_drop] at h1
        exact ⟨pending.length + i, p, h1, by rwa [Nat.add_mod_left], hne⟩
    · intro hx
      obtain ⟨i, p, h1, h2, hne⟩ := hx
      rcases Nat.lt_or_ge i pending.length with hi | hi
      · exact Or.inl ⟨i, p, h1, by rwa [Nat.mod_eq_of_lt hi] at h2, hne⟩
      · refine Or.inr ⟨i - pending.length, p, ?_, ?_, hne⟩
        · rw [List.getElem?_drop, Nat.add_sub_cancel' hi]; exact h1
        · rwa [Nat.mod_eq_sub_mod hi] at h2

theorem survivorsRound_sublist : ∀ (ps rest : List (Fd × α)),
    (survivorsRound ps rest).Sublist (rest.take ps.length)
  | [], rest => by simp [survivorsRound]
  | _ :: _, [] => by simp [survivorsRound]
  | p :: ps, e :: rest => by
    have ih := survivorsRound_sublist ps rest
    by_cases he : p.1 = e.1
    · simpa [survivorsRound, he] using ih.cons e
    · simpa [survivorsRound, he] using ih

theorem survivors_sublist (pending : List (Fd × α)) : ∀ (fuel : Nat) (rest : List (Fd × α)),
    (survivors pending fuel rest).Sublist rest
  | 0, rest => by simp [survivors]
  | fuel + 1, rest => by
    rw [survivors]
    split
    · exact List.nil_sublist _
    · have h := (survivorsRound_sublist pending rest).append
        (survivors_sublist pending fuel (rest.drop pending.length))
      rwa [List.take_append_drop] at h

/-- With pending descriptors that line up, exactly the entries of the others survive. -/
theorem mem_survivors_aligned {pending fds : List (Fd × α)} (hk : pending ≠ [])
    (hal : Aligned pending fds) {e : Fd × α} :
    e ∈ survivors pending fds.length fds ↔ e ∈ fds ∧ e.1 ∉ keys pending := by
  have hpos := List.length_pos_iff.mpr hk
  rw [mem_survivors hk (Nat.le_refl _)]
  constructor
  · intro hx
    obtain ⟨i, p, h1, h2, hne⟩ := hx
    refine ⟨List.mem_iff_getElem?.mpr ⟨i, h1⟩, fun hin => ?_⟩
    obtain ⟨q, hq, hqe⟩ := List.mem_map.mp hin
    obtain ⟨j, hj⟩ := List.mem_iff_getElem?.mp hq
    have := hal i j e q h1 hj hqe.symm
    rw [this, h2] at hj
    cases hj
    exact hne hqe
  · intro hx
    obtain ⟨hin, hnot⟩ := hx
    obtain ⟨i, hi⟩ := List.mem_iff_getElem?.mp hin
    have hlt := Nat.mod_lt i hpos
    refine ⟨i, pending[i % pending.length], hi, List.getElem?_eq_getElem hlt, fun he => hnot ?_⟩
    rw [← he]
    exact mem_keys (List.getElem_mem hlt)

/-- The process step, in closed form. -/
theorem processNewFds_eq {l : Loop α} (hk : l.mPendingFds ≠ []) : processNewFds l =
    if l.mPendingFds.length ∣ l.mFds.length then
      .ok { l with
        mFds := survivors l.mPendingFds l.mFds.length l.mFds ++ l.mPendingFds, mPendingFds := [] }
    else .error .pastEnd := by
  rw [processNewFds, if_neg hk, eraseLoop_eq hk _ _ _ (Nat.le_refl _)]
  by_cases hd : l.mPendingFds.length ∣ l.mFds.length
  · rw [if_pos hd, if_pos hd]; rfl
  · rw [if_neg hd, if_neg hd]

/-! ## Invariant -/

/-- The registered entries of descriptors that are not pending are right. -/
structure Inv (r : Reg α) : Prop where
  ok : RegOk r
  once : (keys r.loop.mFds).Nodup
  latest : ∀ fd, fd ∉ keys r.loop.mPendingFds →
    ∀ callback, (fd, callback) ∈ r.loop.mFds ↔ r.latest fd = some callback

theorem inv_init : Inv (Reg.init : Reg α) :=
  ⟨⟨rfl, nofun⟩, List.nodup_nil, fun _ _ _ => ⟨nofun, nofun⟩⟩

theorem inv_addFd {r : Reg α} {fd : Fd} {flags : Flags} {callback : α} (h : Inv r) :
    Inv { r with
      loop := addFd fd flags callback r.loop
      latest := fun g => if g = fd then some callback else r.latest g
      before := none } := by
  refine ⟨⟨h.ok.fault, nofun⟩, h.once, fun g hg => ?_⟩
  simp only [addFd, keys_append, keys_cons, keys_nil, List.mem_append, List.mem_singleton,
    not_or] at hg
  dsimp only [addFd]
  rw [if_neg hg.2]
  exact h.latest g hg.1

theorem inv_removeFd {r : Reg α} {fd : Fd} (h : Inv r) :
    Inv { r with
      loop := removeFd fd r.loop
      latest := fun g => if g = fd then none else r.latest g
      before := none } := by
  refine ⟨⟨h.ok.fault, nofun⟩, (keys_eraseFd_sublist fd _).nodup h.once, fun g hg callback => ?_⟩
  dsimp only [removeFd] at hg ⊢
  by_cases hgf : g = fd
  · subst hgf
    rw [if_pos rfl]
    exact ⟨fun hm => absurd (mem_keys hm) (not_mem_keys_eraseFd h.once), nofun⟩
  · rw [if_neg hgf, mem_eraseFd_of_ne hgf]
    exact h.latest g (fun hin => hg ((mem_keys_eraseFd_of_ne hgf).mpr hin)) callback

/-- A process step with nothing pending. -/
theorem inv_idle {r : Reg α} (h : Inv r) (hp : r.loop.mPendingFds = []) :
    Inv { r with before := some r.loop } := by
  refine ⟨⟨h.ok.fault, ?_⟩, h.once, h.latest⟩
  intro before hb
  cases hb
  exact ⟨hp, h.once, fun fd => h.latest fd (by simp [hp]), fun e he _ => he⟩

/-- A process step leaves the registry right exactly when the pending
descriptors fit. -/
theorem inv_process_iff {r : Reg α} (h : Inv r) (hp : r.loop.mPendingFds ≠ [])
    (hd : r.loop.mPendingFds.length ∣ r.loop.mFds.length) :
    Settled r.loop { r with loop := { r.loop with
      mFds := survivors r.loop.mPendingFds r.loop.mFds.length r.loop.mFds ++ r.loop.mPendingFds
      mPendingFds := [] } } ↔ Fits r := by
  constructor
  · intro hs
    have hnd := hs.once
    dsimp only at hnd
    rw [keys_append, List.nodup_append] at hnd
    obtain ⟨-, hpend, hdisj⟩ := hnd
    refine ⟨hd, ?_, hpend, fun e he => ?_⟩
    · intro i j e p hi hj hep
      refine Classical.byContradiction fun hne => ?_
      -- the entry survives the comparison with another pending descriptor
      have hlt := Nat.mod_lt i (List.length_pos_iff.mpr hp)
      have hsurv : e ∈ survivors r.loop.mPendingFds r.loop.mFds.length r.loop.mFds := by
        refine (mem_survivors hp (Nat.le_refl _)).mpr
          ⟨i, r.loop.mPendingFds[i % r.loop.mPendingFds.length], hi,
            List.getElem?_eq_getElem hlt, fun he => hne ?_⟩
        have hj' := (List.getElem?_eq_some_iff.mp hj).1
        have hk1 : (keys r.loop.mPendingFds)[j]? = some e.1 := by simp [keys, hj, hep]
        have hk2 : (keys r.loop.mPendingFds)[i % r.loop.mPendingFds.length]? = some e.1 := by
          simp [keys, List.getElem?_eq_getElem hlt, he]
        exact (List.getElem?_inj (by simpa [keys] using hj') hpend).mp (hk1.trans hk2.symm)
      exact hdisj e.1 (mem_keys hsurv) e.1 (hep ▸ mem_keys (List.mem_iff_getElem?.mpr ⟨j, hj⟩)) rfl
    · exact (hs.latest e.1 e.2).mp (List.mem_append_right _ he)
  · intro hf
    have hmem : ∀ e, e ∈ survivors r.loop.mPendingFds r.loop.mFds.length r.loop.mFds ↔
        e ∈ r.loop.mFds ∧ e.1 ∉ keys r.loop.mPendingFds := fun e =>
      mem_survivors_aligned hp hf.aligned
    refine ⟨rfl, ?_, fun fd callback => ?_, fun e he hnot => ?_⟩
    · dsimp only
      rw [keys_append, List.nodup_append]
      refine ⟨((survivors_sublist _ _ _).map Prod.fst).nodup h.once, hf.once, ?_⟩
      rintro a ha b hb rfl
      obtain ⟨e, he, rfl⟩ := List.mem_map.mp ha
      exact ((hmem e).mp he).2 hb
    · dsimp only
      rw [List.mem_append, hmem]
      by_cases hin : fd ∈ keys r.loop.mPendingFds
      · obtain ⟨e, he, rfl⟩ := List.mem_map.mp hin
        have hl := hf.latest e he
        constructor
        · intro hx
          rcases hx with ⟨-, hnot⟩ | hm
          · exact absurd hin hnot
          · exact hf.latest _ hm
        · intro hl'
          rw [hl] at hl'
          cases hl'
          exact Or.inr he
      · rw [← h.latest fd hin callback]
        constructor
        · intro hx
          rcases hx with ⟨hm, -⟩ | hm
          · exact hm
          · exact absurd (mem_keys hm) hin
        · exact fun hm => Or.inl ⟨hm, hin⟩
    · exact List.mem_append_left _ ((hmem e).mpr ⟨he, hnot⟩)

/-! ## Runs -/

theorem step_addFd {r r' : Reg α} {fd : Fd} {flags : Flags} {callback : α}
    (hs : step r (.addFd fd flags callback) = some r') :
    r' = { r with
      loop := addFd fd flags callback r.loop
      latest := fun g => if g = fd then some callback else r.latest g
      before := none } := by
  simp only [step] at hs
  split at hs
  · cases hs
  · exact (Option.some.inj hs).symm

theorem step_removeFd {r r' : Reg α} {fd : Fd} (hs : step r (.removeFd fd) = some r') :
    r' = { r with
      loop := removeFd fd r.loop
      latest := fun g => if g = fd then none else r.latest g
      before := none } := by
  simp only [step] at hs
  split at hs
  · cases hs
  · exact (Option.some.inj hs).symm

/-- What a process step can be: nothing to do, the closed form, or past the end. -/
theorem step_process {r r' : Reg α} (hs : step r .process = some r') :
    (r.loop.mPendingFds = [] ∧ r' = { r with before := some r.loop }) ∨
    (r.loop.mPendingFds ≠ [] ∧ r.loop.mPendingFds.length ∣ r.loop.mFds.length ∧
      r' = { r with
        loop := { r.loop with
          mFds := survivors r.loop.mPendingFds r.loop.mFds.length r.loop.mFds ++ r.loop.mPendingFds
          mPendingFds := [] }
        before := some r.loop }) ∨
    (r.loop.mPendingFds ≠ [] ∧ ¬ r.loop.mPendingFds.length ∣ r.loop.mFds.length ∧
      r'.fault = some .pastEnd) := by
  simp only [step] at hs
  split at hs
  · cases hs
  by_cases hp : r.loop.mPendingFds = []
  · rw [processNewFds, if_pos hp] at hs
    exact Or.inl ⟨hp, (Option.some.inj hs).symm⟩
  rw [processNewFds_eq hp] at hs
  by_cases hd : r.loop.mPendingFds.length ∣ r.loop.mFds.length
  · rw [if_pos hd] at hs
    exact Or.inr (Or.inl ⟨hp, hd, (Option.some.inj hs).symm⟩)
  · rw [if_neg hd] at hs
    cases hs
    exact Or.inr (Or.inr ⟨hp, hd, rfl⟩)

theorem inv_step {r r' : Reg α} {l : Label α} (h : Inv r) (hk : Keeps r l)
    (hs : step r l = some r') : Inv r' := by
  cases l with
  | addFd fd flags callback => rw [step_addFd hs]; exact inv_addFd h
  | removeFd fd => rw [step_removeFd hs]; exact inv_removeFd h
  | process =>
    rcases step_process hs with ⟨hp, rfl⟩ | ⟨hp, hd, rfl⟩ | ⟨hp, hd, -⟩
    · exact inv_idle h hp
    · have hsettled := (inv_process_iff h hp hd).mpr (hk.resolve_left hp)
      refine ⟨⟨h.ok.fault, ?_⟩, hsettled.once, fun fd _ => hsettled.latest fd⟩
      intro before hb
      cases hb
      exact ⟨hsettled.pending, hsettled.once, hsettled.latest, hsettled.kept⟩
    · exact absurd (hk.resolve_left hp).divides hd

theorem broken_step {r r' : Reg α} {l : Label α} (h : Inv r) (hk : ¬ Keeps r l)
    (hs : step r l = some r') : ¬ RegOk r' := by
  cases l with
  | addFd fd flags callback => exact absurd trivial hk
  | removeFd fd => exact absurd trivial hk
  | process =>
    rcases step_process hs with ⟨hp, -⟩ | ⟨hp, hd, rfl⟩ | ⟨-, -, hf⟩
    · exact absurd (Or.inl hp) hk
    · intro hok
      have hs := hok.settled r.loop rfl
      exact hk (Or.inr ((inv_process_iff h hp hd).mp
        ⟨hs.pending, hs.once, hs.latest, hs.kept⟩))
    · intro hok
      rw [hok.fault] at hf
      cases hf

theorem registry_exact : (registry α).Exact Keeps Inv RegOk where
  holds _ h := h.ok
  keeps _ _ _ h hk hs := inv_step h hk hs
  breaks _ _ _ h hk hs := broken_step h hk hs

/-- **Descriptor registry.** Over any calls of `addFd` and `removeFd`, every
process step ends, never steps past the end, and leaves the registry right
exactly when each of them finds nothing pending or pending descriptors that
fit. -/
theorem registry_iff {t : List (Label α × Reg α)} (ht : (registry α).Trace Reg.init t) :
    LTS.AllStates RegOk Reg.init t ↔ LTS.AllSteps Keeps Reg.init t :=
  registry_exact.allStates_iff ht inv_init

/-! ## Two runs -/

instance (pending fds : List (Fd × α)) : Decidable (Aligned pending fds) :=
  decidable_of_iff (∀ i, ∀ hi : i < fds.length, ∀ j, ∀ hj : j < pending.length,
      fds[i].1 = pending[j].1 → j = i % pending.length) (by
    constructor
    · intro h i j e p hi hj hep
      obtain ⟨hi', rfl⟩ := List.getElem?_eq_some_iff.mp hi
      obtain ⟨hj', rfl⟩ := List.getElem?_eq_some_iff.mp hj
      exact h i hi' j hj' hep
    · intro h i hi j hj hep
      exact h i j _ _ (List.getElem?_eq_getElem hi) (List.getElem?_eq_getElem hj) hep)

instance [DecidableEq α] (r : Reg α) : Decidable (Fits r) :=
  decidable_of_iff (r.loop.mPendingFds.length ∣ r.loop.mFds.length ∧
      Aligned r.loop.mPendingFds r.loop.mFds ∧ (keys r.loop.mPendingFds).Nodup ∧
      ∀ e ∈ r.loop.mPendingFds, r.latest e.1 = some e.2)
    ⟨fun ⟨h1, h2, h3, h4⟩ => ⟨h1, h2, h3, h4⟩, fun ⟨h1, h2, h3, h4⟩ => ⟨h1, h2, h3, h4⟩⟩

instance [DecidableEq α] (r : Reg α) : DecidablePred (Keeps r)
  | .process => inferInstanceAs (Decidable (_ ∨ _))
  | .addFd .. | .removeFd _ => .isTrue trivial

/-- Two descriptors, then one of them again with another callback. -/
def readded : List (Label Nat) :=
  [.addFd 5 fdRead 1, .addFd 6 fdRead 2, .process, .removeFd 5, .addFd 5 fdRead 3, .process]

theorem readded_runs : (LTS.record step Reg.init readded).isSome := by decide

theorem registry_readded :
    LTS.AllStates RegOk Reg.init ((LTS.record step Reg.init readded).get readded_runs) :=
  (registry_iff (LTS.trace_record readded_runs)).mpr (by decide)

/-- One registered descriptor and two pending ones. -/
def oneThenTwo : List (Label Nat) :=
  [.addFd 5 fdRead 1, .process, .addFd 6 fdRead 2, .addFd 7 fdRead 3, .process]

theorem oneThenTwo_runs : (LTS.record step Reg.init oneThenTwo).isSome := by decide

/-- The step reads past the end of `mFds`. -/
theorem registry_broken : ∃ t, (registry Nat).Trace Reg.init t ∧ t.map Prod.fst = oneThenTwo ∧
    (t.getLast?.map fun x => x.2.fault) = some (some .pastEnd) ∧
    ¬ LTS.AllStates RegOk Reg.init t := by
  refine ⟨_, LTS.trace_record oneThenTwo_runs, by decide, by decide, ?_⟩
  intro hx
  obtain ⟨-, h⟩ := hx
  exact absurd (h _ (List.getLast_mem (by decide))).fault (by decide)

end Reckoning.L2.Registry
