import Mathlib.Data.List.Nodup
import Reckoning.L5App.HttpOwners

/-!
# How the transfers of the HTTP client go

`State.started` are the transfers that curl has got, `State.ended` those whose
message `checkMultiInfo` has read, with the result that curl gave. What a
transfer emits is what the entries of `State.log` with its object say.

* `Books`: the transfers on their way and those that have ended, and what each
  of them has emitted so far.
* `completes_once`: each transfer is still there or has been ended once; it has
  emitted responses and body data, and once ended the error of its result, if
  there is one, `mComplete` and nothing else.
* `check_returns`: `checkMultiInfo` comes back, and then every transfer that had
  finished has been ended.
-/
namespace Reckoning.L5.HttpMulti
open Reckoning.L2
open Reckoning.L2.EventLoop (Fd)
open Reckoning.L2.Timers (Time)

variable {C : Type}

/-! ## What is emitted -/

/-- What the transfer of `conn` has emitted. -/
def emittedBy (conn : Addr) (log : List (Entry C)) : List Emission :=
  (log.filter (·.conn == conn)).map (·.what)

theorem emittedBy_append (conn : Addr) (log log' : List (Entry C)) :
    emittedBy conn (log ++ log') = emittedBy conn log ++ emittedBy conn log' := by
  simp [emittedBy]

/-- A transfer without an entry. -/
theorem emittedBy_of_ne {conn : Addr} {log : List (Entry C)} (h : ∀ y ∈ log, y.conn ≠ conn) :
    emittedBy conn log = [] := by
  simpa [emittedBy] using h

/-- Entries of one transfer. -/
theorem emittedBy_map (conn p : Addr) (http : C) (es : List Emission) :
    emittedBy conn (es.map fun e => ⟨p, http, e⟩) = if p = conn then es else [] := by
  induction es with
  | nil => simp [emittedBy]
  | cons e es ih => by_cases hp : p = conn <;> simp_all [emittedBy]

/-- The error of a result. -/
def Ended.failure (x : Ended C) : List Emission := (x.error.map Emission.error).toList

/-- What ends a transfer. -/
def Ended.closing (x : Ended C) : List Emission :=
  if x.told then x.failure ++ [.complete, .disconnect] else []

/-- What has been emitted of that, when `checkMultiInfo` is at `pc`. -/
def Pc.closed (x : Ended C) : Pc C → List Emission
  | .emitError conn _ _ _ => if conn = x.conn then [] else x.closing
  | .emitComplete conn _ _ => if conn = x.conn then x.failure else x.closing
  | .disconnect conn _ _ => if conn = x.conn then x.failure ++ [.complete] else x.closing
  | .outside | .check | .remove _ _ | .free _ _ => x.closing

/-- `checkMultiInfo` is about to say what the message says. -/
def Pc.Told (ended : List (Ended C)) : Pc C → Prop
  | .emitError conn _ http text => ⟨conn, http, some text, true⟩ ∈ ended
  | .emitComplete conn _ http | .disconnect conn _ http => ∃ error, ⟨conn, http, error, true⟩ ∈ ended
  | .remove conn _ | .free conn _ => conn ∈ ended.map Ended.conn
  | .outside | .check => True

/-! ## The books -/

structure Books (s : State C) : Prop where
  started : (s.started.map Prod.fst).Nodup
  below : ∀ x ∈ s.started, x.1 < s.conns.next
  /-- what is live has been started -/
  live : ∀ p info, s.conns.cells p = some info → (p, info.http) ∈ s.started
  /-- what has not ended is live -/
  kept : ∀ x ∈ s.started, x.1 ∉ s.ended.map Ended.conn → (s.conns.cells x.1).isSome = true
  ended : (s.ended.map Ended.conn).Nodup
  known : ∀ x ∈ s.ended, (x.conn, x.http) ∈ s.started
  /-- the handle of what has ended has no message any more -/
  read : ∀ easy h, s.curl.handles easy = some h → h.priv ∈ s.ended.map Ended.conn →
    h.done = true ∧ easy ∉ s.curl.messages.map Prod.fst
  pc : s.pc.Told s.ended
  log : ∀ y ∈ s.log, (y.conn, y.http) ∈ s.started
  going : ∀ x ∈ s.started, x.1 ∉ s.ended.map Ended.conn →
    (emittedBy x.1 s.log).all Emission.progress = true
  closed : ∀ x ∈ s.ended, ∃ es, es.all Emission.progress = true ∧
    emittedBy x.conn s.log = es ++ s.pc.closed x

theorem books_init : Books (State.init : State C) :=
  ⟨.nil, nofun, nofun, nofun, .nil, nofun, nofun, trivial, nofun, nofun, nofun⟩

section
variable {s s' : State C}

/-- Two entries of `ended` with the same object are the same. -/
theorem Books.unique (hb : Books s) {x y : Ended C} (hx : x ∈ s.ended) (hy : y ∈ s.ended)
    (h : x.conn = y.conn) : x = y := List.inj_on_of_nodup_map hb.ended hx hy h

/-- What the books are about is not the rest of the state. -/
theorem Books.congr (hb : Books s) (hs : Unmoved s s') : Books s' where
  started := by rw [hs.started]; exact hb.started
  below := by rw [hs.started, hs.conns]; exact hb.below
  live := by rw [hs.started, hs.conns]; exact hb.live
  kept := by rw [hs.started, hs.ended, hs.conns]; exact hb.kept
  ended := by rw [hs.ended]; exact hb.ended
  known := by rw [hs.started, hs.ended]; exact hb.known
  read := by rw [hs.handles, hs.ended, hs.messages]; exact hb.read
  pc := by rw [hs.pc, hs.ended]; exact hb.pc
  log := by rw [hs.log, hs.started]; exact hb.log
  going := by rw [hs.log, hs.started, hs.ended]; exact hb.going
  closed := by rw [hs.log, hs.ended, hs.pc]; exact hb.closed

/-- A transfer that has not ended. -/
theorem Books.not_ended (hb : Books s) {easy : Easy} {h : Handle}
    (hh : s.curl.handles easy = some h)
    (hnot : h.done = false ∨ easy ∈ s.curl.messages.map Prod.fst) :
    h.priv ∉ s.ended.map Ended.conn := by
  intro hm
  obtain ⟨hdone, hread⟩ := hb.read easy h hh hm
  rcases hnot with hnot | hnot
  · rw [hnot] at hdone
    cases hdone
  · exact hread hnot

/-- The next object is nobody's yet. -/
theorem Books.next_fresh (hb : Books s) :
    (∀ x ∈ s.started, x.1 ≠ s.conns.next) ∧ ∀ x ∈ s.ended, x.conn ≠ s.conns.next :=
  ⟨fun x hx => Nat.ne_of_lt (hb.below x hx), fun x hx => Nat.ne_of_lt (hb.below _ (hb.known x hx))⟩

/-! ## A transfer is started -/

theorem books_refused (hb : Books s) (info : HttpConnectionInfo C) (next : Easy) : Books { s with
    conns := (s.conns.alloc info).free s.conns.next
    curl := { s.curl with next } } := by
  have hcells : ∀ p, ((s.conns.alloc info).free s.conns.next).cells p = s.conns.cells p := by
    intro p
    by_cases hp : p = s.conns.next
    · simp [hp]
    · simp [hp]
  refine { hb with
    below := fun x hx => Nat.lt_succ_of_lt (hb.below x hx)
    live := fun p info hp => hb.live p info ((hcells p).symm.trans hp)
    kept := fun x hx hne => ?_ }
  show (((s.conns.alloc info).free s.conns.next).cells x.1).isSome = true
  rw [hcells]
  exact hb.kept x hx hne

theorem books_added (hb : Books s) (c : C) (client : C → Option Addr) :
    Books { s with
      conns := s.conns.alloc ⟨s.curl.next, c, 0, [], []⟩
      curl := { s.curl with
        next := s.curl.next + 1
        handles := Function.update s.curl.handles s.curl.next (some ⟨s.conns.next, false⟩) }
      mConnectionInfo := client
      started := s.started ++ [(s.conns.next, c)] } := by
  obtain ⟨hstarted, hended⟩ := hb.next_fresh
  have hnew : s.conns.next ∉ s.ended.map Ended.conn := by
    rintro hm
    obtain ⟨x, hx, heq⟩ := List.mem_map.mp hm
    exact hended x hx heq
  refine ⟨?_, fun x hx => ?_, fun p info hp => ?_, fun x hx hne => ?_, hb.ended,
    fun x hx => List.mem_append_left _ (hb.known x hx), fun easy h hh hm => ?_, hb.pc,
    fun y hy => List.mem_append_left _ (hb.log y hy), fun x hx hne => ?_, hb.closed⟩
  · rw [List.map_append]
    exact List.nodup_append.mpr ⟨hb.started, by simp, by
      rintro p hp q hq rfl
      obtain ⟨x, hx, rfl⟩ := List.mem_map.mp hp
      exact hstarted x hx (by simpa using hq)⟩
  · rcases List.mem_append.mp hx with hx | hx
    · exact Nat.lt_succ_of_lt (hb.below x hx)
    · obtain rfl := List.mem_singleton.mp hx
      exact Nat.lt_succ_self _
  · by_cases hpn : p = s.conns.next
    · subst hpn
      rw [Heap.alloc_self] at hp
      cases hp
      exact List.mem_append_right _ (List.mem_singleton_self _)
    · rw [Heap.alloc_of_ne _ hpn] at hp
      exact List.mem_append_left _ (hb.live p info hp)
  · rcases List.mem_append.mp hx with hx | hx
    · simpa [hstarted x hx] using hb.kept x hx hne
    · obtain rfl := List.mem_singleton.mp hx
      simp
  · by_cases he : easy = s.curl.next
    · subst he
      obtain rfl : (⟨s.conns.next, false⟩ : Handle) = h := by simpa using hh
      exact absurd hm hnew
    · exact hb.read easy h (by simpa [he] using hh) hm
  · rcases List.mem_append.mp hx with hx | hx
    · exact hb.going x hx hne
    · obtain rfl := List.mem_singleton.mp hx
      have hnone : emittedBy s.conns.next s.log = [] :=
        emittedBy_of_ne fun y hy => hstarted _ (hb.log y hy)
      rw [show emittedBy (s.conns.next, c).1 s.log = [] from hnone]
      rfl

/-! ## A transfer goes on -/

/-- A callback emits something on the way of its transfer. -/
theorem books_emits (hb : Books s) {easy : Easy} {h : Handle} (hh : s.curl.handles easy = some h)
    (hnot : h.done = false) {info : HttpConnectionInfo C}
    (hinfo : s.conns.cells h.priv = some info) {conns : Heap (HttpConnectionInfo C)}
    (hconns : Written s.conns conns) {es : List Emission}
    (hes : es.all Emission.progress = true) : Books { s with
      conns
      log := s.log ++ es.map fun e => ⟨h.priv, info.http, e⟩ } := by
  have hgoing := hb.not_ended hh (.inl hnot)
  have hsame : ∀ conn, conn ≠ h.priv →
      emittedBy conn (s.log ++ es.map fun e => ⟨h.priv, info.http, e⟩) = emittedBy conn s.log := by
    intro conn hne
    rw [emittedBy_append, emittedBy_map, if_neg (Ne.symm hne), List.append_nil]
  refine { hb with
    below := fun x hx => hconns.next ▸ hb.below x hx
    live := fun p info' hp => ?_
    kept := fun x hx hne => ?_
    log := fun y hy => ?_
    going := fun x hx hne => ?_
    closed := fun x hx => ?_ }
  · obtain ⟨info₀, h₀, -, heq⟩ := hconns.symm.cells hp
    have hlive := hb.live p info₀ h₀
    rwa [heq] at hlive
  · obtain ⟨info₀, h₀⟩ := Option.isSome_iff_exists.mp (hb.kept x hx hne)
    obtain ⟨info', h', -⟩ := hconns.cells h₀
    exact Option.isSome_iff_exists.mpr ⟨info', h'⟩
  · rcases List.mem_append.mp hy with hy | hy
    · exact hb.log y hy
    · obtain ⟨e, -, rfl⟩ := List.mem_map.mp hy
      exact hb.live _ info hinfo
  · by_cases hpp : x.1 = h.priv
    · rw [emittedBy_append, emittedBy_map, if_pos hpp.symm, List.all_append, hb.going x hx hne, hes]
      rfl
    · rw [hsame x.1 hpp]
      exact hb.going x hx hne
  · rw [hsame x.conn fun he => hgoing (he ▸ List.mem_map_of_mem hx)]
    exact hb.closed x hx

theorem books_finish (hb : Books s) {easy : Easy} {h : Handle}
    (hh : s.curl.handles easy = some h) (hnot : h.done = false) (error : Option Bytes) :
    Books { s with
      curl := { s.curl with
        handles := Function.update s.curl.handles easy (some { h with done := true })
        messages := s.curl.messages ++ [(easy, error)] } } := by
  have hgoing := hb.not_ended hh (.inl hnot)
  refine { hb with read := fun e h' hh' hm => ?_ }
  by_cases he : e = easy
  · subst he
    obtain rfl : { h with done := true } = h' := by simpa using hh'
    exact absurd hm hgoing
  · obtain ⟨hdone, hread⟩ := hb.read e h' (by simpa [he] using hh') hm
    exact ⟨hdone, by simpa [he] using hread⟩

/-! ## A transfer ends -/

/-- `checkMultiInfo` reads the message of a transfer. -/
theorem books_read (ht : Transfers s) (hb : Books s) (hpc : s.pc = .check) {easy : Easy}
    {error : Option Bytes} {messages : List (Easy × Option Bytes)}
    (hm : s.curl.messages = (easy, error) :: messages) {handle : Handle}
    (hh : s.curl.handles easy = some handle) {conn : HttpConnectionInfo C}
    (hconn : s.conns.cells handle.priv = some conn) (told : Bool) (pc : Pc C)
    (htold : pc.Told (s.ended ++ [⟨handle.priv, conn.http, error, told⟩]))
    (hother : ∀ x : Ended C, x.conn ≠ handle.priv → pc.closed x = x.closing)
    (hnothing : pc.closed ⟨handle.priv, conn.http, error, told⟩ = [])
    (client : C → Option Addr) : Books { s with
      curl.messages := messages
      ended := s.ended ++ [⟨handle.priv, conn.http, error, told⟩]
      mConnectionInfo := client, pc } := by
  have hnew : handle.priv ∉ s.ended.map Ended.conn :=
    hb.not_ended hh (.inr (by rw [hm]; exact List.mem_cons_self ..))
  have hnodup := ht.nodup
  rw [hm, List.map_cons] at hnodup
  refine { hb with
    kept := fun x hx hne => hb.kept x hx fun hold => hne (by
      rw [List.map_append]
      exact List.mem_append_left _ hold)
    ended := ?_
    known := fun x hx => ?_
    read := fun e h he hin => ?_
    pc := htold
    going := fun x hx hne => hb.going x hx fun hold => hne (by
      rw [List.map_append]
      exact List.mem_append_left _ hold)
    closed := fun x hx => ?_ }
  · rw [List.map_append]
    exact List.nodup_append.mpr ⟨hb.ended, by simp, by
      rintro p hp q hq rfl
      obtain rfl : p = handle.priv := by simpa using hq
      exact hnew hp⟩
  · rcases List.mem_append.mp hx with hx | hx
    · exact hb.known x hx
    · obtain rfl := List.mem_singleton.mp hx
      exact hb.live _ conn hconn
  · rw [List.map_append] at hin
    rcases List.mem_append.mp hin with hin | hin
    · obtain ⟨hdone, hread⟩ := hb.read e h he hin
      rw [hm, List.map_cons] at hread
      exact ⟨hdone, fun hmem => hread (List.mem_cons_of_mem _ hmem)⟩
    · -- the handle of the same object is the one whose message has been read
      have hpriv : h.priv = handle.priv := by simpa using hin
      have hown : s.owner e = some h.priv := State.owner_of_handle he
      obtain rfl : e = easy := ht.conns.injective (hown.trans (congrArg some hpriv))
        (State.owner_of_handle hh)
      obtain ⟨h', hh', hdone⟩ := ht.done e (by rw [hm]; exact List.mem_cons_self ..)
      rw [he] at hh'
      cases hh'
      exact ⟨hdone, (List.nodup_cons.mp hnodup).1⟩
  · rcases List.mem_append.mp hx with hx | hx
    · obtain ⟨es, hes, heq⟩ := hb.closed x hx
      have hne : x.conn ≠ handle.priv := fun he => hnew (he ▸ List.mem_map_of_mem hx)
      refine ⟨es, hes, heq.trans ?_⟩
      rw [hpc]
      exact congrArg _ (hother x hne).symm
    · obtain rfl := List.mem_singleton.mp hx
      refine ⟨emittedBy handle.priv s.log, hb.going _ (hb.live _ conn hconn) hnew, ?_⟩
      simp only [hnothing, List.append_nil]

/-- `checkMultiInfo` emits for the transfer of `x`. -/
theorem books_tell (hb : Books s) {x : Ended C} (hx : x ∈ s.ended) {e : Emission} {pc : Pc C}
    (htold : pc.Told s.ended) (hself : pc.closed x = s.pc.closed x ++ [e])
    (hother : ∀ y : Ended C, y.conn ≠ x.conn → pc.closed y = s.pc.closed y) :
    Books { s with log := s.log ++ [⟨x.conn, x.http, e⟩], pc } := by
  refine { hb with
    pc := htold
    log := fun y hy => ?_
    going := fun y hy hne => ?_
    closed := fun y hy => ?_ }
  · rcases List.mem_append.mp hy with hy | hy
    · exact hb.log y hy
    · obtain rfl := List.mem_singleton.mp hy
      exact hb.known x hx
  · have hne' : x.conn ≠ y.1 := fun he => hne (he ▸ List.mem_map_of_mem hx)
    have hnone : emittedBy y.1 [⟨x.conn, x.http, e⟩] = [] := by simpa [emittedBy] using hne'
    rw [emittedBy_append, hnone, List.append_nil]
    exact hb.going y hy hne
  · obtain ⟨es, hes, heq⟩ := hb.closed y hy
    refine ⟨es, hes, ?_⟩
    rw [emittedBy_append, heq]
    by_cases hxy : x.conn = y.conn
    · obtain rfl := hb.unique hx hy hxy
      simp [hself, emittedBy]
    · have hnone : emittedBy y.conn [⟨x.conn, x.http, e⟩] = [] := by simpa [emittedBy] using hxy
      rw [hnone, hother y (Ne.symm hxy), List.append_nil]

theorem books_free (hb : Books s) {conn : Addr} {easy : Easy} (hpc : s.pc = .free conn easy) :
    Books { s with conns := s.conns.free conn, pc := .check } := by
  have hended : conn ∈ s.ended.map Ended.conn := by
    have htold := hb.pc
    rw [hpc] at htold
    exact htold
  have hclosed := hb.closed
  rw [hpc] at hclosed
  refine { hb with
    live := fun p info hp => ?_
    kept := fun x hx hne => ?_
    pc := trivial
    closed := hclosed }
  · by_cases hpc : p = conn
    · rw [hpc, Heap.free_self] at hp
      cases hp
    · rw [Heap.free_of_ne hpc] at hp
      exact hb.live p info hp
  · have hne' : x.1 ≠ conn := fun he => hne (he ▸ hended)
    simpa [hne'] using hb.kept x hx hne

/-- `checkMultiInfo` goes to a statement before which as much has been said. -/
theorem books_goto (hb : Books s) (pc : Pc C) (htold : pc.Told s.ended)
    (hclosed : ∀ x, pc.closed x = s.pc.closed x) (timers : Timers.State Nat)
    (timer : Option Nat) (asked : Option (Int × Time)) : Books { s with pc, timers, timer, asked } := by
  refine { hb with
    pc := htold
    closed := fun x hx => ?_ }
  obtain ⟨es, hes, heq⟩ := hb.closed x hx
  exact ⟨es, hes, heq.trans (congrArg _ (hclosed x).symm)⟩

theorem books_remove (hb : Books s) {conn : Addr} {easy : Easy}
    (hpc : s.pc = .remove conn easy) : Books { s with
      curl := { s.curl with
        handles := Function.update s.curl.handles easy none
        messages := s.curl.messages.filter (·.1 ≠ easy) }
      pc := .free conn easy } := by
  have htold := hb.pc
  have hclosed := hb.closed
  rw [hpc] at htold hclosed
  refine { hb with
    pc := htold
    read := fun e h hh hm => ?_
    closed := hclosed }
  have he : e ≠ easy := by
    rintro rfl
    simp at hh
  obtain ⟨hdone, hread⟩ := hb.read e h (by simpa [he] using hh) hm
  refine ⟨hdone, fun hmem => hread ?_⟩
  obtain ⟨x, hx, rfl⟩ := List.mem_map.mp hmem
  exact List.mem_map_of_mem (List.mem_filter.mp hx).1

end

/-! ## Every step -/

section
variable [DecidableEq C] {s s' : State C}

theorem books_check (hi : Inv s) (hb : Books s) (hpc : s.pc = .check)
    (h : checkMultiInfo s .check = some s') : Books s' := by
  have ht := hi.transfers
  cases hm : s.curl.messages with
  | nil =>
    rw [check_empty hm] at h
    cases h
    exact books_goto hb .outside trivial (fun x => by rw [hpc]; rfl) _ _ _
  | cons x messages =>
    obtain ⟨easy, error⟩ := x
    obtain ⟨handle, conn, hh, hconn⟩ := ht.message hm
    have hlast : ∀ told : Bool, (⟨handle.priv, conn.http, error, told⟩ : Ended C) ∈
        s.ended ++ [⟨handle.priv, conn.http, error, told⟩] := fun told =>
      List.mem_append_right _ (List.mem_singleton_self _)
    rw [check_message hm hh hconn] at h
    split at h <;> cases h
    · exact books_read ht hb hpc hm hh hconn false (.remove handle.priv easy)
        (List.mem_map_of_mem (hlast false)) (fun _ _ => rfl) rfl _
    · cases error with
      | some text =>
        exact books_read ht hb hpc hm hh hconn true (.emitError handle.priv easy conn.http text)
          (hlast true) (fun x hx => if_neg (Ne.symm hx)) (if_pos rfl) _
      | none =>
        exact books_read ht hb hpc hm hh hconn true (.emitComplete handle.priv easy conn.http)
          ⟨none, hlast true⟩ (fun x hx => if_neg (Ne.symm hx)) (if_pos rfl) _

theorem books_next (hi : Inv s) (hb : Books s) (h : checkMultiInfo s s.pc = some s') :
    Books s' := by
  have ht := hi.transfers
  have htold := hb.pc
  cases hpc : s.pc with
  | outside => rw [hpc] at h; cases h
  | check => exact books_check hi hb hpc (hpc ▸ h)
  | emitError conn easy http text =>
    have hok := ht.pc
    rw [hpc] at h hok htold
    obtain ⟨info, hinfo, -⟩ := Option.map_eq_some_iff.mp hok.2
    simp only [checkMultiInfo, hinfo] at h
    cases h
    refine books_tell (x := ⟨conn, http, some text, true⟩) hb htold ⟨_, htold⟩ ?_ fun y hy => ?_
    · simp [hpc, Pc.closed, Ended.failure]
    · simp [hpc, Pc.closed, Ne.symm hy]
  | emitComplete conn easy http =>
    rw [hpc] at h htold
    cases h
    obtain ⟨error, hx⟩ := htold
    refine books_tell (x := ⟨conn, http, error, true⟩) hb hx ⟨_, hx⟩ ?_ fun y hy => ?_
    · simp [hpc, Pc.closed]
    · simp [hpc, Pc.closed, Ne.symm hy]
  | disconnect conn easy http =>
    rw [hpc] at h htold
    cases h
    obtain ⟨error, hx⟩ := htold
    refine books_tell (x := ⟨conn, http, error, true⟩) hb hx (List.mem_map_of_mem hx) ?_
      fun y hy => ?_
    · simp [hpc, Pc.closed, Ended.closing]
    · simp [hpc, Pc.closed, Ne.symm hy]
  | remove conn easy =>
    rw [hpc] at h
    cases h
    exact books_remove hb hpc
  | free conn easy =>
    rw [hpc] at h
    obtain ⟨info, hinfo, -⟩ := ht.conns.live easy conn (ht.freeing hpc).2
    simp only [checkMultiInfo, hinfo] at h
    cases h
    exact books_free hb hpc

omit [DecidableEq C] in
theorem books_callback (hi : Inv s) (hb : Books s) {easy : Easy} {h : Handle}
    (hh : s.curl.active easy = some h)
    (hs : (∃ line, easyHeaderCallback h.priv line s = some s') ∨
      (∃ data, easyWriteCallback h.priv data s = s') ∨ easyReadCallback h.priv s = s') :
    Books s' := by
  obtain ⟨info, conns, es, hinfo, hw, hes, rfl⟩ := step_callback hi hh hs
  obtain ⟨hhandle, hnot⟩ := active_eq hh
  exact books_emits hb hhandle hnot hinfo hw hes

omit [DecidableEq C] in
theorem books_event (hb : Books s) (hpc : s.pc = .outside) (running : Nat) :
    Books (socketEventCallback running s) := by
  have hclosed : ∀ x, Pc.check.closed x = s.pc.closed x := fun x => by rw [hpc]; rfl
  unfold socketEventCallback
  split
  · exact books_goto hb .check trivial hclosed _ _ _
  · exact books_goto hb .check trivial hclosed s.timers s.timer s.asked

omit [DecidableEq C] in
theorem books_error (hb : Books s) (hpc : s.pc = .outside) (fd : Fd) (running : Nat) :
    Books (errorEvent fd running s) := by
  have hfailed : Books { s with io := s.io.fail fd, failing := some fd } := hb.congr {}
  unfold errorEvent
  dsimp only
  split
  · exact hfailed
  · exact books_event hfailed hpc running
  · exact hb.congr {}

theorem books_step {l : Label C} (hi : Inv s) (hb : Books s) (h : step s l = some s') :
    Books s' := by
  unfold step at h
  split at h
  · cases h
  cases l with
  | init c added =>
    obtain rfl := step_init h
    unfold init
    split
    · exact hb
    · cases added with
      | true => exact books_added hb c _
      | false => exact books_refused hb _ _
  | write c =>
    obtain rfl := step_write hi h
    exact hb
  | release c => cases h; exact { hb with }
  | socket easy fd what => exact hb.congr (step_socket hi h).unmoved
  | timer ms now => exact hb.congr (step_timer h).1
  | header easy line =>
    obtain ⟨handle, hh, hs⟩ := Option.bind_eq_some_iff.mp h
    exact books_callback hi hb hh (.inl ⟨line, hs⟩)
  | body easy data =>
    obtain ⟨handle, hh, rfl⟩ := Option.map_eq_some_iff.mp h
    exact books_callback hi hb hh (.inr (.inl ⟨data, rfl⟩))
  | read easy =>
    obtain ⟨handle, hh, rfl⟩ := Option.map_eq_some_iff.mp h
    exact books_callback hi hb hh (.inr (.inr rfl))
  | finish easy error =>
    obtain ⟨handle, hh, rfl⟩ := Option.map_eq_some_iff.mp h
    exact books_finish hb (active_eq hh).1 (active_eq hh).2 error
  | event running =>
    obtain ⟨hpc, rfl⟩ := step_event h
    exact books_event hb hpc running
  | error fd running =>
    obtain ⟨hpc, rfl⟩ := step_error h
    exact books_error hb hpc fd running
  | close =>
    obtain ⟨fd, -, rfl⟩ := step_close h
    exact hb.congr {}
  | newFds =>
    obtain rfl := step_newFds h
    exact hb.congr {}
  | updates =>
    obtain ⟨-, rfl⟩ := step_updates h
    exact hb.congr {}
  | fire now order =>
    obtain ⟨-, timers, -, rfl⟩ := step_fire h
    exact hb.congr {}
  | execute =>
    obtain ⟨hpc, timers, -, -, rfl⟩ := step_execute h
    exact books_goto hb .check trivial (fun x => by rw [hpc]; rfl) timers s.timer s.asked
  | next => exact books_next hi hb h
  | opened fd => cases h; exact hb.congr {}
  | loopGone => cases h; exact { hb with }

theorem inductive_books : (multi C).Inductive fun s => Inv s ∧ Books s where
  init s hs := by
    cases hs
    exact ⟨inv_init, books_init⟩
  step _ _ _ hi hs := ⟨inv_step hi.1 hs, books_step hi.1 hi.2 hs⟩

/-- **Each transfer completes once.** In every run a transfer that curl has got
is still there, or its end has been read once. On the way it emits responses and
body data only; after it was ended, and if somebody owned the client then, the
error of its result, if it has one, `mComplete` and the disconnection, and
nothing else. -/
theorem completes_once (s : State C) (hr : (multi C).Reachable s) :
    (s.ended.map Ended.conn).Nodup ∧ (∀ x ∈ s.ended, (x.conn, x.http) ∈ s.started) ∧
      (∀ x ∈ s.started, x.1 ∈ s.ended.map Ended.conn ∨
        (s.conns.cells x.1).isSome = true ∧
          (emittedBy x.1 s.log).all Emission.progress = true) ∧
      (∀ y ∈ s.log, (y.conn, y.http) ∈ s.started) ∧
      ∀ x ∈ s.ended, ∃ es, es.all Emission.progress = true ∧
        emittedBy x.conn s.log = es ++ s.pc.closed x := by
  obtain ⟨-, hb⟩ := inductive_books.reachable s hr
  refine ⟨hb.ended, hb.known, fun x hx => ?_, hb.log, hb.closed⟩
  by_cases he : x.1 ∈ s.ended.map Ended.conn
  · exact .inl he
  · exact .inr ⟨hb.kept x hx he, hb.going x hx he⟩

end

theorem completes_once_transfers :
    let s := (LTS.replay step State.init transfers).get transfers_run
    ∃ es, es.all Emission.progress = true ∧
      emittedBy 0 s.log = es ++ s.pc.closed ⟨0, false, some [33], true⟩ :=
  (completes_once _ (LTS.reachable_replay (· = State.init) rfl transfers_run)).2.2.2.2 _
    (List.mem_singleton_self _)

section
variable [DecidableEq C] {s s' : State C}

/-! ## Coming back -/

/-- The statements up to the next look at the message queue. -/
def Pc.cost : Pc C → Nat
  | .outside => 0
  | .check => 1
  | .free _ _ => 2
  | .remove _ _ => 3
  | .disconnect _ _ _ => 4
  | .emitComplete _ _ _ => 5
  | .emitError _ _ _ _ => 6

def State.cost (s : State C) : Nat := 6 * s.curl.messages.length + s.pc.cost

/-- The transfer of `h` has been ended, or its message is in the queue. -/
def State.Served (s : State C) (easy : Easy) (h : Handle) : Prop :=
  h.priv ∈ s.ended.map Ended.conn ∨
    easy ∈ s.curl.messages.map Prod.fst ∧ s.curl.handles easy = some h

theorem check_progress (ht : Transfers s) (hpc : s.pc = .check) :
    ∃ s', checkMultiInfo s .check = some s' ∧ s'.io = s.io ∧ s'.cost < s.cost ∧
      (s'.pc = .outside → s'.curl.messages = []) ∧
      ∀ easy h, s.Served easy h → s'.Served easy h := by
  cases hm : s.curl.messages with
  | nil =>
    refine ⟨_, check_empty hm, rfl, ?_, fun _ => hm, fun easy h hs => hs⟩
    simp [State.cost, hm, hpc, Pc.cost]
  | cons x messages =>
    obtain ⟨easy, error⟩ := x
    obtain ⟨handle, conn, hh, hconn⟩ := ht.message hm
    have hserved : ∀ (x : Ended C) easy' h, x.conn = handle.priv → s.Served easy' h →
        h.priv ∈ (s.ended ++ [x]).map Ended.conn ∨
          easy' ∈ messages.map Prod.fst ∧ s.curl.handles easy' = some h := by
      intro x easy' h hx hs
      rw [List.map_append]
      rcases hs with hs | ⟨hmem, hh'⟩
      · exact .inl (List.mem_append_left _ hs)
      · rw [hm, List.map_cons] at hmem
        rcases List.mem_cons.mp hmem with rfl | hmem
        · rw [hh] at hh'
          cases hh'
          exact .inl (List.mem_append_right _ (by simp [hx]))
        · exact .inr ⟨hmem, hh'⟩
    have hchecked := check_message hm hh hconn
    by_cases hr : s.released conn.http = true
    · rw [if_pos hr] at hchecked
      refine ⟨_, hchecked, rfl, ?_, nofun, fun easy' h => hserved _ easy' h rfl⟩
      simp only [State.cost, hm, hpc, Pc.cost, List.length_cons]
      omega
    · rw [if_neg hr] at hchecked
      refine ⟨_, hchecked, rfl, ?_, ?_, fun easy' h => hserved _ easy' h rfl⟩
      · cases error <;> simp only [State.cost, hm, hpc, Pc.start, Pc.cost, List.length_cons] <;> omega
      · cases error <;> exact fun he => by cases he

/-- `checkMultiInfo` always has a next statement, which brings it nearer to its end. -/
theorem next_progress (ht : Transfers s) (hpc : s.pc ≠ .outside) :
    ∃ s', checkMultiInfo s s.pc = some s' ∧ s'.io = s.io ∧ s'.cost < s.cost ∧
      (s'.pc = .outside → s'.curl.messages = []) ∧
      ∀ easy h, s.Served easy h → s'.Served easy h := by
  have hok := ht.pc
  cases hp : s.pc with
  | outside => exact absurd hp hpc
  | check => exact check_progress ht hp
  | emitError conn easy http text =>
    rw [hp] at hok
    obtain ⟨info, hinfo, -⟩ := Option.map_eq_some_iff.mp hok.2
    have heq : checkMultiInfo s (.emitError conn easy http text) = some { s with
        log := s.log ++ [⟨conn, http, .error text⟩], pc := .emitComplete conn easy http } := by
      simp [checkMultiInfo, hinfo]
    refine ⟨_, heq, rfl, ?_, by simp, fun easy h hs => hs⟩
    simp [State.cost, hp, Pc.cost]
  | emitComplete | disconnect =>
    refine ⟨_, rfl, rfl, ?_, by simp, fun easy h hs => hs⟩
    simp [State.cost, hp, Pc.cost]
  | remove conn easy =>
    rw [hp] at hok
    have hfin : s.Finishing conn easy := hok
    refine ⟨_, rfl, rfl, ?_, by simp, fun easy' h hs => ?_⟩
    · have hlen := List.length_filter_le (fun x => decide (x.1 ≠ easy)) s.curl.messages
      simp only [State.cost, hp, Pc.cost]
      omega
    · rcases hs with hs | ⟨hmem, hh⟩
      · exact .inl hs
      · have hne : easy' ≠ easy := fun he => hfin.read (he ▸ hmem)
        obtain ⟨x, hx, rfl⟩ := List.mem_map.mp hmem
        exact .inr ⟨List.mem_map_of_mem (List.mem_filter.mpr ⟨hx, by simpa using hne⟩),
          (Function.update_of_ne hne ..).trans hh⟩
  | free conn easy =>
    obtain ⟨info, hinfo, -⟩ := ht.conns.live easy conn (ht.freeing hp).2
    have heq : checkMultiInfo s (.free conn easy) =
        some { s with conns := s.conns.free conn, pc := .check } := by
      simp [checkMultiInfo, hinfo]
    refine ⟨_, heq, rfl, ?_, by simp, fun easy h hs => hs⟩
    simp [State.cost, hp, Pc.cost]

/-- **`checkMultiInfo` comes back.** From every state that it has been reached
in, its own statements end it, whatever the results and however many transfers
had finished; and then each of these has been ended. -/
theorem check_returns (s : State C) (hr : (multi C).Reachable s) (hio : s.io.fault = none)
    (hpc : s.pc ≠ .outside) :
    ∃ ls s', ((multi C).guard fun _ l => l = .next).Run s ls s' ∧ ls.length ≤ s.cost ∧
      s'.pc = .outside ∧ s'.curl.messages = [] ∧
      ∀ easy h, easy ∈ s.curl.messages.map Prod.fst → s.curl.handles easy = some h →
        h.priv ∈ s'.ended.map Ended.conn := by
  have hstep : ∀ s₁ : State C, (Inv s₁ ∧ s₁.io.fault = none ∧
      (s₁.pc = .outside → s₁.curl.messages = []) ∧
      ∀ easy h, s.Served easy h → s₁.Served easy h) → ¬ s₁.pc = .outside →
      ∃ l s₂, l = .next ∧ (multi C).step s₁ l s₂ ∧ (Inv s₂ ∧ s₂.io.fault = none ∧
        (s₂.pc = .outside → s₂.curl.messages = []) ∧
        ∀ easy h, s.Served easy h → s₂.Served easy h) ∧ s₂.cost < s₁.cost := by
    rintro s₁ ⟨hi, hio₁, -, hserved⟩ hout
    obtain ⟨s₂, hnext, hio₂, hlt, hend, hkeep⟩ := next_progress hi.transfers hout
    have hs : step s₁ .next = some s₂ := by
      rw [step, if_neg (by simp [hi.fault, hio₁, Label.waits])]
      exact hnext
    exact ⟨.next, s₂, rfl, hs, ⟨inv_step hi hs, hio₂ ▸ hio₁, hend,
      fun easy h hx => hkeep easy h (hserved easy h hx)⟩, hlt⟩
  obtain ⟨ls, s', hrun, hlen, hdone, -, -, hend, hserved⟩ := LTS.drains hstep s
    ⟨inductive_inv.reachable s hr, hio, fun h => absurd h hpc, fun _ _ h => h⟩
  refine ⟨ls, s', hrun, hlen, hdone, hend hdone, fun easy h hmem hh => ?_⟩
  refine (hserved easy h (.inr ⟨hmem, hh⟩)).resolve_right fun hwait => ?_
  rw [hend hdone] at hwait
  cases hwait.1

end

theorem check_returns_transfers :
    ∃ ls s', ((multi Bool).guard fun _ l => l = .next).Run
      ((LTS.replay step State.init transfers).get transfers_run) ls s' ∧ s'.pc = .outside := by
  obtain ⟨ls, s', hrun, -, hout, -⟩ := check_returns _
    (LTS.reachable_replay (· = State.init) rfl transfers_run) rfl nofun
  exact ⟨ls, s', hrun, hout⟩

end Reckoning.L5.HttpMulti
