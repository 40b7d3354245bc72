import Reckoning.L5App.HttpMulti

/-!
# Who holds the objects of the HTTP client

A `HttpConnectionInfo` is made by `connect` and freed by `checkMultiInfo`; a
`HttpSocketInfo` is made for a new socket of curl and freed with its
`CURL_POLL_REMOVE`. In between there are only plain pointers to them, in curl
and in `mConnectionInfo`.

* `Inv`: each transfer is held by its handle, or by the end of `checkMultiInfo`,
  each socket's object by curl's table, and `mConnectionInfo` of a client that
  somebody owns points to its transfer.
* `no_dangling`: no freed object is used and none is freed twice, and what is
  live is what is held: curl without handles and sockets leaves nothing behind.
-/
namespace Reckoning.L5.HttpMulti
open Reckoning.L2
open Reckoning.L2.EventLoop (Fd Flags)
open Reckoning.L2.Timers (Time Timer)

variable {C : Type}

/-! ## Who holds what -/

/-- Who holds a `HttpConnectionInfo`: its handle, and `checkMultiInfo` when the handle is gone. -/
def State.owner (s : State C) (easy : Easy) : Option Addr :=
  match s.curl.handles easy with
  | some h => some h.priv
  | none =>
    match s.pc with
    | .free conn e => if e = easy then some conn else none
    | _ => none

/-- The transfer that `checkMultiInfo` is about to end. -/
structure State.Finishing (s : State C) (conn : Addr) (easy : Easy) : Prop where
  handle : s.curl.handles easy = some ⟨conn, true⟩
  read : easy ∉ s.curl.messages.map Prod.fst

def Pc.Ok (s : State C) : Pc C → Prop
  | .outside | .check => True
  | .emitError conn easy http _ | .emitComplete conn easy http | .disconnect conn easy http =>
    s.Finishing conn easy ∧ (s.conns.cells conn).map (·.http) = some http
  | .remove conn easy => s.Finishing conn easy
  | .free _ easy => s.curl.handles easy = none

/-- `mConnectionInfo` of a client points to its transfer, whose message has not been read. -/
def State.Current (s : State C) (c : C) (p : Addr) : Prop :=
  ∃ info h, s.conns.cells p = some info ∧ info.http = c ∧ s.curl.handles info.easy = some h ∧
    h.priv = p ∧ (h.done = true → info.easy ∈ s.curl.messages.map Prod.fst)

/-- The transfers of a state. -/
structure Transfers (s : State C) : Prop where
  conns : s.conns.Owned (·.easy) s.owner
  next : ∀ e, s.curl.next ≤ e → s.owner e = none
  nodup : (s.curl.messages.map Prod.fst).Nodup
  done : ∀ e ∈ s.curl.messages.map Prod.fst, ∃ h, s.curl.handles e = some h ∧ h.done = true
  pc : s.pc.Ok s
  client : ∀ c p, s.released c = false → s.mConnectionInfo c = some p → s.Current c p

/-- The sockets of a state. -/
structure Sockets (s : State C) : Prop where
  infos : s.infos.Owned (·.fd) s.curl.assigned
  sockets : ∀ fd, (s.curl.assigned fd).isSome = (s.curl.sockets fd).isSome

structure Inv (s : State C) : Prop where
  fault : s.fault = none
  transfers : Transfers s
  sockets : s.hasLoop = true → Sockets s

theorem inv_init : Inv (State.init : State C) where
  fault := rfl
  transfers := ⟨.empty, fun _ _ => rfl, .nil, nofun, trivial, nofun⟩
  sockets _ := ⟨.empty, fun _ => rfl⟩

/-! ## The sockets -/

section
variable {s : State C} {easy : Easy} {fd : Fd} {p : Addr}

/-- A socket that curl gives up. -/
theorem socketCallback_remove (h : Sockets s) (hl : s.hasLoop = true)
    (hp : s.curl.assigned fd = some p) : socketCallback easy fd .remove s =
      { s.removeFd fd with
        infos := s.infos.free p
        curl.sockets := Function.update s.curl.sockets fd none
        curl.assigned := Function.update s.curl.assigned fd none } := by
  obtain ⟨info, hinfo, -⟩ := h.infos.live fd p hp
  simp [socketCallback, multiSocketCallback, hl, hp, hinfo, State.removeFd]

/-- A socket that curl has not asked about yet. -/
theorem socketCallback_new (hl : s.hasLoop = true) (hp : s.curl.assigned fd = none) (what : Poll)
    {info : HttpConnectionInfo C}
    (hinfo : ((s.curl.handles easy).bind fun h => s.conns.cells h.priv) = some info) :
    socketCallback easy fd (.poll what) s =
      { s.addFd fd (curlToReckoning what) with
        infos := s.infos.alloc ⟨easy, fd, info.http⟩
        curl.sockets := Function.update s.curl.sockets fd (some what)
        curl.assigned := Function.update s.curl.assigned fd (some s.infos.next) } := by
  simp [socketCallback, multiSocketCallback, hl, hp, hinfo, State.addFd]

/-- A socket that is polled for something else. The object is that of this very socket, so it is
never removed and added again. -/
theorem socketCallback_update (h : Sockets s) (hl : s.hasLoop = true)
    (hp : s.curl.assigned fd = some p) (what : Poll) : socketCallback easy fd (.poll what) s =
      { s.updateFd fd (curlToReckoning what) with
        curl.sockets := Function.update s.curl.sockets fd (some what) } := by
  obtain ⟨info, hinfo, hfd⟩ := h.infos.live fd p hp
  simp [socketCallback, multiSocketCallback, hl, hp, hinfo, hfd, State.updateFd]

/-- Without a loop the callback does nothing. -/
theorem socketCallback_gone (hl : s.hasLoop = false) (what : What) :
    ∃ sockets assigned, socketCallback easy fd what s =
      { s with curl := { s.curl with sockets, assigned } } := by
  have hgone : multiSocketCallback easy fd what (s.curl.assigned fd) s = s := by
    simp [multiSocketCallback, hl]
  cases what with
  | remove => exact ⟨_, _, by rw [socketCallback, hgone]⟩
  | poll p => exact ⟨_, _, by rw [socketCallback, hgone]⟩

/-- What curl's question about a socket does. -/
inductive Polled (s : State C) (easy : Easy) (fd : Fd) : What → State C → Prop
  | gone (hl : s.hasLoop = false) (what : What) (sockets : Fd → Option Poll)
      (assigned : Fd → Option Addr) :
      Polled s easy fd what { s with curl := { s.curl with sockets, assigned } }
  | removed (hl : s.hasLoop = true) (p : Addr) (hp : s.curl.assigned fd = some p) :
      Polled s easy fd .remove { s.removeFd fd with
        infos := s.infos.free p
        curl.sockets := Function.update s.curl.sockets fd none
        curl.assigned := Function.update s.curl.assigned fd none }
  | added (hl : s.hasLoop = true) (hp : s.curl.assigned fd = none) (what : Poll)
      (info : HttpConnectionInfo C) :
      Polled s easy fd (.poll what) { s.addFd fd (curlToReckoning what) with
        infos := s.infos.alloc ⟨easy, fd, info.http⟩
        curl.sockets := Function.update s.curl.sockets fd (some what)
        curl.assigned := Function.update s.curl.assigned fd (some s.infos.next) }
  | updated (hl : s.hasLoop = true) (p : Addr) (hp : s.curl.assigned fd = some p) (what : Poll) :
      Polled s easy fd (.poll what) { s.updateFd fd (curlToReckoning what) with
        curl.sockets := Function.update s.curl.sockets fd (some what) }

/-- The object of every socket stays with it. -/
theorem Sockets.polled (h : s.hasLoop = true → Sockets s) {what : What} {s' : State C}
    (hp : Polled s easy fd what s') : s'.hasLoop = true → Sockets s' := by
  intro hl'
  cases hp with
  | gone hl => exact absurd (hl.symm.trans hl') nofun
  | removed hl p hp =>
    refine ⟨(h hl).infos.free hp, fun g => ?_⟩
    by_cases hg : g = fd
    · simp [hg]
    · simpa [hg] using (h hl).sockets g
  | added hl hp what info =>
    have halloc := (h hl).infos.alloc (a := ⟨easy, fd, info.http⟩) hp
    refine ⟨halloc, fun g => ?_⟩
    by_cases hg : g = fd
    · simp [hg]
    · simpa [hg] using (h hl).sockets g
  | updated hl p hp what =>
    refine ⟨(h hl).infos, fun g => ?_⟩
    by_cases hg : g = fd
    · simp [State.updateFd, hg, hp]
    · simpa [State.updateFd, hg] using (h hl).sockets g

end

/-! ## The transfers -/

section
variable {s s' : State C}

/-- What is relied on in the middle of `checkMultiInfo` survives when these three do. -/
theorem Pc.Ok.imp {pc : Pc C} (h : pc.Ok s)
    (hfin : ∀ conn easy, s.Finishing conn easy → s'.Finishing conn easy)
    (hhttp : ∀ conn http, (s.conns.cells conn).map (·.http) = some http →
      (s'.conns.cells conn).map (·.http) = some http)
    (hfree : ∀ conn easy, pc = .free conn easy → s.curl.handles easy = none →
      s'.curl.handles easy = none) : pc.Ok s' := by
  cases pc with
  | outside | check => trivial
  | emitError conn easy http | emitComplete conn easy http | disconnect conn easy http =>
    exact ⟨hfin conn easy h.1, hhttp conn http h.2⟩
  | remove conn easy => exact hfin conn easy h
  | free conn easy => exact hfree conn easy rfl h

theorem State.owner_of_handle {easy : Easy} {h : Handle} (hh : s.curl.handles easy = some h) :
    s.owner easy = some h.priv := by
  simp [State.owner, hh]

/-- The object of a handle. -/
theorem Transfers.live (ht : Transfers s) {easy : Easy} {h : Handle}
    (hh : s.curl.handles easy = some h) :
    ∃ info, s.conns.cells h.priv = some info ∧ info.easy = easy :=
  ht.conns.live easy h.priv (State.owner_of_handle hh)

/-- The transfers, their objects and what they have emitted are the same in both states. -/
structure Unmoved (s s' : State C) : Prop where
  handles : s'.curl.handles = s.curl.handles := by rfl
  next : s'.curl.next = s.curl.next := by rfl
  messages : s'.curl.messages = s.curl.messages := by rfl
  conns : s'.conns = s.conns := by rfl
  pc : s'.pc = s.pc := by rfl
  released : s'.released = s.released := by rfl
  client : s'.mConnectionInfo = s.mConnectionInfo := by rfl
  started : s'.started = s.started := by rfl
  ended : s'.ended = s.ended := by rfl
  log : s'.log = s.log := by rfl
  fault : s'.fault = s.fault := by rfl

theorem Transfers.congr (ht : Transfers s) (hs : Unmoved s s') : Transfers s' := by
  have howner : s'.owner = s.owner := by
    funext e
    simp [State.owner, hs.handles, hs.pc]
  have hcurrent : ∀ c p, s.Current c p → s'.Current c p := by
    rintro c p ⟨info, h, h₁, h₂, h₃, h₄, h₅⟩
    exact ⟨info, h, hs.conns ▸ h₁, h₂, hs.handles ▸ h₃, h₄, hs.messages ▸ h₅⟩
  refine ⟨by rw [hs.conns, howner]; exact ht.conns, by rw [hs.next, howner]; exact ht.next,
    by rw [hs.messages]; exact ht.nodup, by rw [hs.messages, hs.handles]; exact ht.done, ?_, ?_⟩
  · rw [hs.pc]
    exact ht.pc.imp (fun _ _ h => ⟨hs.handles ▸ h.handle, hs.messages ▸ h.read⟩)
      (fun _ _ h => by rw [hs.conns]; exact h) fun _ _ _ h => (congrFun hs.handles _).trans h
  · rw [hs.released, hs.client]
    exact fun c p hr hm => hcurrent c p (ht.client c p hr hm)

theorem Transfers.handles_next (ht : Transfers s) : s.curl.handles s.curl.next = none := by
  cases hh : s.curl.handles s.curl.next with
  | none => rfl
  | some h =>
    have hnone := ht.next _ (Nat.le_refl _)
    rw [State.owner_of_handle hh] at hnone
    cases hnone

/-- `checkMultiInfo` frees a transfer whose handle it has removed. -/
theorem Transfers.freeing (ht : Transfers s) {conn : Addr} {easy : Easy}
    (hpc : s.pc = .free conn easy) : s.curl.handles easy = none ∧ s.owner easy = some conn := by
  have hok := ht.pc
  rw [hpc] at hok
  have hnone : s.curl.handles easy = none := hok
  exact ⟨hnone, by simp [State.owner, hnone, hpc]⟩

section
variable [DecidableEq C]

/-- `connect` succeeds. -/
theorem transfers_added (ht : Transfers s) (c : C) (started : List (Addr × C)) : Transfers { s with
    conns := s.conns.alloc ⟨s.curl.next, c, 0, [], []⟩
    curl := { s.curl with
      next := s.curl.next + 1
      handles := Function.update s.curl.handles s.curl.next (some ⟨s.conns.next, false⟩) }
    mConnectionInfo := Function.update s.mConnectionInfo c (some s.conns.next)
    started } := by
  have hnone := ht.handles_next
  have hne : ∀ {e h}, s.curl.handles e = some h → e ≠ s.curl.next := by
    rintro e h hh rfl
    rw [hnone] at hh
    cases hh
  have hlive : ∀ {p : Addr} {http : C}, (s.conns.cells p).map (·.http) = some http →
      p ≠ s.conns.next := by
    intro p http hp
    obtain ⟨info, hinfo, -⟩ := Option.map_eq_some_iff.mp hp
    exact Heap.ne_next hinfo
  refine ⟨?_, fun e he => ?_, ht.nodup, fun e he => ?_, ?_, fun c' p hr hp => ?_⟩
  · refine (ht.conns.alloc (a := ⟨s.curl.next, c, 0, [], []⟩) (ht.next _ (Nat.le_refl _))).congr
      fun e => ?_
    by_cases he : e = s.curl.next
    · simp [State.owner, he]
    · simp [State.owner, he]
  · have hlt : s.curl.next < e := he
    have hold := ht.next e (Nat.le_of_lt hlt)
    simpa [State.owner, Nat.ne_of_gt hlt] using hold
  · obtain ⟨h, hh, hdone⟩ := ht.done e he
    exact ⟨h, by simp [hne hh, hh], hdone⟩
  · refine ht.pc.imp (fun conn easy h => ⟨by simp [hne h.handle, h.handle], h.read⟩)
      (fun conn http h => by simp [hlive h, h]) fun conn easy hpc hh => ?_
    have heasy : easy ≠ s.curl.next := by
      rintro rfl
      have hown := (ht.freeing hpc).2
      rw [ht.next _ (Nat.le_refl _)] at hown
      cases hown
    simp [heasy, hh]
  · by_cases hc : c' = c
    · subst hc
      obtain rfl : s.conns.next = p := by simpa using hp
      exact ⟨_, _, Heap.alloc_self _ _, rfl, Function.update_self .., rfl, nofun⟩
    · have hp' : s.mConnectionInfo c' = some p := by simpa [hc] using hp
      obtain ⟨info, h, h₁, h₂, h₃, h₄, h₅⟩ := ht.client c' p hr hp'
      exact ⟨info, h, by simp [Heap.ne_next h₁, h₁], h₂, by simp [hne h₃, h₃], h₄, h₅⟩

omit [DecidableEq C] in
/-- `connect` fails. -/
theorem transfers_refused (ht : Transfers s) (c : C) : Transfers { s with
    conns := (s.conns.alloc ⟨s.curl.next, c, 0, [], []⟩).free s.conns.next
    curl := { s.curl with next := s.curl.next + 1 } } := by
  have hcells : ∀ p, ((s.conns.alloc ⟨s.curl.next, c, 0, [], []⟩).free s.conns.next).cells p =
      s.conns.cells p := by
    intro p
    by_cases hp : p = s.conns.next
    · simp [hp]
    · simp [hp]
  refine ⟨⟨?_, ?_⟩, fun e he => ?_, ht.nodup, ht.done, ?_, fun c' p hr hp => ?_⟩
  · intro e p hp
    obtain ⟨info, hinfo, heasy⟩ := ht.conns.live e p hp
    exact ⟨info, (hcells p).trans hinfo, heasy⟩
  · intro p info hp
    exact ht.conns.held p info ((hcells p).symm.trans hp)
  · exact ht.next e (Nat.le_of_lt he)
  · exact ht.pc.imp (fun conn easy h => ⟨h.handle, h.read⟩)
      (fun conn http h => by rw [← h]; exact congrArg _ (hcells conn)) fun _ _ _ hh => hh
  · obtain ⟨info, h, h₁, h₂⟩ := ht.client c' p hr hp
    exact ⟨info, h, (hcells p).trans h₁, h₂⟩

end

theorem active_eq {easy : Easy} {h : Handle} (hh : s.curl.active easy = some h) :
    s.curl.handles easy = some h ∧ h.done = false := by
  simpa [Curl.active, Option.filter_eq_some_iff] using hh

/-- curl finishes a transfer. -/
theorem transfers_finish (ht : Transfers s) {easy : Easy} {h : Handle}
    (hh : s.curl.active easy = some h) (error : Option Bytes) : Transfers { s with
      curl := { s.curl with
        handles := Function.update s.curl.handles easy (some { h with done := true })
        messages := s.curl.messages ++ [(easy, error)] } } := by
  obtain ⟨hhandle, hnot⟩ := active_eq hh
  have hread : easy ∉ s.curl.messages.map Prod.fst := by
    intro hmem
    obtain ⟨h', hh', hdone⟩ := ht.done easy hmem
    rw [hhandle] at hh'
    cases hh'
    rw [hnot] at hdone
    cases hdone
  -- whoever is being ended has finished before
  have hne : ∀ {e conn}, s.curl.handles e = some ⟨conn, true⟩ → e ≠ easy := by
    rintro e conn he rfl
    rw [hhandle] at he
    cases he
    cases hnot
  refine ⟨ht.conns.congr fun e => ?_, fun e he => ?_, ?_, fun e he => ?_, ?_, fun c p hr hp => ?_⟩
  · by_cases he : e = easy
    · simp [State.owner, he, hhandle]
    · simp [State.owner, he]
  · have hnone := ht.next e he
    by_cases heq : e = easy
    · rw [heq, State.owner_of_handle hhandle] at hnone
      cases hnone
    · simpa [State.owner, heq] using hnone
  · rw [List.map_append]
    exact List.nodup_append.mpr ⟨ht.nodup, by simp, by
      rintro a ha b hb rfl
      obtain rfl : a = easy := by simpa using hb
      exact hread ha⟩
  · by_cases heq : e = easy
    · exact ⟨{ h with done := true }, by simp [heq], rfl⟩
    · obtain ⟨h', hh', hdone⟩ := ht.done e (by simpa [heq] using he)
      exact ⟨h', by simp [heq, hh'], hdone⟩
  · refine ht.pc.imp (fun conn e hf => ?_) (fun _ _ h => h) fun conn e _ hnone => ?_
    · have he := hne hf.handle
      exact ⟨by simp [he, hf.handle], by simpa [he] using hf.read⟩
    · have he : e ≠ easy := by
        rintro rfl
        rw [hnone] at hhandle
        cases hhandle
      simp [he, hnone]
  · obtain ⟨info, h', h₁, h₂, h₃, h₄, h₅⟩ := ht.client c p hr hp
    by_cases he : info.easy = easy
    · refine ⟨info, { h with done := true }, h₁, h₂, by simp [he], ?_, fun _ => by simp [he]⟩
      rw [he, hhandle] at h₃
      cases h₃
      exact h₄
    · exact ⟨info, h', h₁, h₂, by simp [he, h₃], h₄, fun hd => by
        rw [List.map_append]
        exact List.mem_append_left _ (h₅ hd)⟩

/-- On the way of a transfer. -/
def Emission.progress : Emission → Bool
  | .response _ | .body _ => true
  | .error _ | .complete | .disconnect => false

/-- The objects after a callback, of which it changes neither the handles nor the clients. -/
structure Written (conns conns' : Heap (HttpConnectionInfo C)) : Prop where
  next : conns'.next = conns.next
  same : ∀ p, (conns'.cells p).map (fun info => (info.easy, info.http)) =
    (conns.cells p).map fun info => (info.easy, info.http)

theorem Written.refl (conns : Heap (HttpConnectionInfo C)) : Written conns conns :=
  ⟨rfl, fun _ => rfl⟩

theorem Written.modify (conns : Heap (HttpConnectionInfo C)) (p : Addr)
    {f : HttpConnectionInfo C → HttpConnectionInfo C}
    (hf : ∀ info, ((f info).easy, (f info).http) = (info.easy, info.http)) :
    Written conns (conns.modify p f) := by
  refine ⟨rfl, fun q => ?_⟩
  by_cases hqp : q = p
  · rw [hqp, Heap.modify_self, Option.map_map]
    exact congrFun (congrArg _ (funext hf)) _
  · rw [Heap.modify_of_ne f hqp]

theorem Written.symm {conns conns' : Heap (HttpConnectionInfo C)} (h : Written conns conns') :
    Written conns' conns := ⟨h.next.symm, fun p => (h.same p).symm⟩

theorem Written.cells {conns conns' : Heap (HttpConnectionInfo C)} (h : Written conns conns')
    {p : Addr} {info : HttpConnectionInfo C} (hp : conns.cells p = some info) :
    ∃ info', conns'.cells p = some info' ∧ info'.easy = info.easy ∧ info'.http = info.http := by
  have hsame := h.same p
  rw [hp] at hsame
  obtain ⟨info', hinfo', heq⟩ := Option.map_eq_some_iff.mp hsame
  exact ⟨info', hinfo', congrArg Prod.fst heq, congrArg Prod.snd heq⟩

/-- A callback writes to the object of its own transfer. -/
theorem transfers_written (ht : Transfers s) {conns : Heap (HttpConnectionInfo C)}
    (hw : Written s.conns conns) (log : List (Entry C)) : Transfers { s with conns, log } := by
  refine ⟨⟨fun e p hp => ?_, fun p info hp => ?_⟩, ht.next, ht.nodup, ht.done, ?_,
    fun c q hr hq => ?_⟩
  · obtain ⟨info, hinfo, rfl⟩ := ht.conns.live e p hp
    obtain ⟨info', hinfo', heasy, -⟩ := hw.cells hinfo
    exact ⟨info', hinfo', heasy⟩
  · obtain ⟨info', hinfo', heasy, -⟩ := hw.symm.cells hp
    exact heasy ▸ ht.conns.held p info' hinfo'
  · refine ht.pc.imp (fun conn easy h => ⟨h.handle, h.read⟩) (fun conn http h => ?_)
      fun _ _ _ hh => hh
    obtain ⟨info, hinfo, rfl⟩ := Option.map_eq_some_iff.mp h
    obtain ⟨info', hinfo', -, hsame⟩ := hw.cells hinfo
    exact Option.map_eq_some_iff.mpr ⟨info', hinfo', hsame⟩
  · obtain ⟨info, h, h₁, h₂, h₃, h₄, h₅⟩ := ht.client c q hr hq
    obtain ⟨info', hinfo', he, hh⟩ := hw.cells h₁
    exact ⟨info', h, hinfo', hh.trans h₂, he ▸ h₃, h₄, he ▸ h₅⟩

/-- The next owner of what the step leaves alone is the old one, when `checkMultiInfo` neither
holds a transfer before nor after it. -/
theorem State.owner_pc {pc : Pc C} (hbefore : ∀ conn easy, s.pc ≠ .free conn easy)
    (hafter : ∀ conn easy, pc ≠ .free conn easy) (easy : Easy) :
    State.owner { s with pc } easy = s.owner easy := by
  cases hh : s.curl.handles easy with
  | some h => simp [State.owner, hh]
  | none =>
    cases hpc : s.pc with
    | free conn e => exact absurd hpc (hbefore conn e)
    | _ =>
      cases pc with
      | free conn e => exact absurd rfl (hafter conn e)
      | _ => simp [State.owner, hh, hpc]

/-- `checkMultiInfo` goes from one emit to the next statement. -/
theorem transfers_goto (ht : Transfers s) {pc : Pc C} (hbefore : ∀ conn easy, s.pc ≠ .free conn easy)
    (hafter : ∀ conn easy, pc ≠ .free conn easy) (hok : pc.Ok s) (log : List (Entry C))
    (timers : Timers.State Nat) (timer : Option Nat) (asked : Option (Int × Time)) :
    Transfers { s with pc, log, timers, timer, asked } := by
  have howner : (State.owner { s with pc, log, timers, timer, asked }) = s.owner :=
    funext (State.owner_pc hbefore hafter)
  refine ⟨howner ▸ ht.conns, howner ▸ ht.next, ht.nodup, ht.done, ?_, ht.client⟩
  exact hok.imp (fun conn easy h => ⟨h.handle, h.read⟩) (fun _ _ h => h) fun _ _ _ h => h

theorem transfers_remove (ht : Transfers s) {conn : Addr} {easy : Easy}
    (hpc : s.pc = .remove conn easy) : Transfers { s with
      curl := { s.curl with
        handles := Function.update s.curl.handles easy none
        messages := s.curl.messages.filter (·.1 ≠ easy) }
      pc := .free conn easy } := by
  have hfin : s.Finishing conn easy := by
    have hok := ht.pc
    rw [hpc] at hok
    exact hok
  have hmessages : s.curl.messages.filter (·.1 ≠ easy) = s.curl.messages := by
    refine List.filter_eq_self.mpr fun x hx => ?_
    have hne : x.1 ≠ easy := fun he => hfin.read (he ▸ List.mem_map_of_mem hx)
    simp [hne]
  rw [hmessages]
  have howner : ∀ e, State.owner { s with
      curl := { s.curl with handles := Function.update s.curl.handles easy none }
      pc := .free conn easy } e = s.owner e := by
    intro e
    by_cases he : e = easy
    · subst he
      simp [State.owner, hfin.handle]
    · cases hh : s.curl.handles e <;> simp [State.owner, he, hh, hpc, Ne.symm he]
  refine ⟨ht.conns.congr howner, fun e he => (howner e).trans (ht.next e he), ht.nodup,
    fun e he => ?_, Function.update_self .., fun c p hr hp => ?_⟩
  · obtain ⟨h, hh, hd⟩ := ht.done e he
    have hne : e ≠ easy := fun heq => hfin.read (heq ▸ he)
    exact ⟨h, by simp [hne, hh], hd⟩
  · obtain ⟨info, h, h₁, h₂, h₃, h₄, h₅⟩ := ht.client c p hr hp
    have hne : info.easy ≠ easy := by
      intro heq
      rw [heq, hfin.handle] at h₃
      cases h₃
      exact hfin.read (heq ▸ h₅ rfl)
    exact ⟨info, h, h₁, h₂, by simp [hne, h₃], h₄, h₅⟩

theorem transfers_free (ht : Transfers s) {conn : Addr} {easy : Easy}
    (hpc : s.pc = .free conn easy) :
    Transfers { s with conns := s.conns.free conn, pc := .check } := by
  obtain ⟨hnone, hown⟩ := ht.freeing hpc
  have howner : ∀ e, State.owner { s with conns := s.conns.free conn, pc := .check } e =
      Function.update s.owner easy none e := by
    intro e
    by_cases he : e = easy
    · simp [State.owner, he, hnone]
    · cases hh : s.curl.handles e <;> simp [State.owner, he, hh, hpc, Ne.symm he]
  refine ⟨(ht.conns.free hown).congr howner, fun e he => ?_, ht.nodup, ht.done, trivial,
    fun c p hr hp => ?_⟩
  · rw [howner]
    by_cases heq : e = easy
    · simp [heq]
    · simpa [heq] using ht.next e he
  · obtain ⟨info, h, h₁, h₂, h₃, h₄, h₅⟩ := ht.client c p hr hp
    have hne : p ≠ conn := by
      rintro rfl
      obtain ⟨info', hinfo', heasy⟩ := ht.conns.live easy p hown
      rw [h₁] at hinfo'
      cases hinfo'
      rw [heasy, hnone] at h₃
      cases h₃
    exact ⟨info, h, by simp [hne, h₁], h₂, h₃, h₄, h₅⟩

/-- `checkMultiInfo` reads a message. Nobody's `mConnectionInfo` points to that transfer any more. -/
theorem transfers_read (ht : Transfers s) (hpc : s.pc = .check) {easy : Easy}
    {error : Option Bytes} {messages : List (Easy × Option Bytes)}
    (hm : s.curl.messages = (easy, error) :: messages) {handle : Handle}
    (hh : s.curl.handles easy = some handle) {conn : HttpConnectionInfo C}
    (hconn : s.conns.cells handle.priv = some conn) {pc : Pc C} {client : C → Option Addr}
    (hafter : ∀ p e, pc ≠ .free p e)
    (hclient : ∀ c p, s.released c = false → client c = some p →
      s.mConnectionInfo c = some p ∧ c ≠ conn.http)
    (hok : handle = ⟨handle.priv, true⟩ → easy ∉ messages.map Prod.fst →
      pc.Ok { s with curl.messages := messages }) (ended : List (Ended C)) :
    Transfers { s with curl.messages := messages, mConnectionInfo := client, pc, ended } := by
  have hnodup := ht.nodup
  have hdone := ht.done
  rw [hm, List.map_cons] at hnodup hdone
  obtain ⟨hread, hnodup⟩ := List.nodup_cons.mp hnodup
  have hhandle : handle = ⟨handle.priv, true⟩ := by
    obtain ⟨h, hh', hd⟩ := hdone easy (List.mem_cons_self ..)
    rw [hh] at hh'
    cases hh'
    rw [← hd]
  have hbefore : ∀ p e, s.pc ≠ .free p e := fun p e h => by rw [hpc] at h; cases h
  have howner : State.owner { s with
      curl.messages := messages, mConnectionInfo := client, pc, ended } = s.owner :=
    funext (State.owner_pc hbefore hafter)
  refine ⟨howner ▸ ht.conns, howner ▸ ht.next, hnodup,
    fun e he => hdone e (List.mem_cons_of_mem _ he), ?_, fun c p hr hp => ?_⟩
  · exact (hok hhandle hread).imp (fun _ _ h => ⟨h.handle, h.read⟩) (fun _ _ h => h)
      fun _ _ _ h => h
  · obtain ⟨hp, hne⟩ := hclient c p hr hp
    obtain ⟨info, h, h₁, h₂, h₃, h₄, h₅⟩ := ht.client c p hr hp
    refine ⟨info, h, h₁, h₂, h₃, h₄, fun hd => ?_⟩
    have hmem := h₅ hd
    rw [hm, List.map_cons] at hmem
    refine (List.mem_cons.mp hmem).resolve_left fun heq => hne ?_
    -- the same handle, so the same object
    rw [heq, hh] at h₃
    cases h₃
    rw [h₄, h₁] at hconn
    cases hconn
    exact h₂.symm

end

/-! ## Every step -/

section
variable [DecidableEq C] {s s' : State C}

omit [DecidableEq C] in
/-- A client that somebody owns points to a live transfer, if to any. -/
theorem write_eq (hi : Inv s) {c : C} (hr : s.released c = false) : write c s = s := by
  unfold write
  cases hp : s.mConnectionInfo c with
  | none => rfl
  | some p =>
    obtain ⟨info, h, hinfo, -⟩ := hi.transfers.client c p hr hp
    simp [hinfo]

theorem step_init {c : C} {added : Bool} (h : perform s (.init c added) = some s') :
    s' = init c added s := by
  simp only [perform] at h
  split at h <;> cases h
  rfl

theorem step_write (hi : Inv s) {c : C} (h : perform s (.write c) = some s') : s' = s := by
  simp only [perform] at h
  split at h <;> cases h
  exact write_eq hi (Bool.eq_false_iff.mpr ‹_›)

/-! The loop does one thing after the other. -/

theorem step_event {running : Nat} (h : perform s (.event running) = some s') :
    s.pc = .outside ∧ s' = socketEventCallback running s := by
  simp only [perform] at h
  split at h <;> cases h
  exact ⟨‹_›, rfl⟩

theorem step_error {fd : Fd} {running : Nat} (h : perform s (.error fd running) = some s') :
    s.pc = .outside ∧ s' = errorEvent fd running s := by
  simp only [perform] at h
  split at h <;> cases h
  exact ⟨‹_›, rfl⟩

theorem step_close (h : perform s .close = some s') : ∃ fd, s.failing = some fd ∧ s' = { s with
    io := s.io.forget fd
    failing := none
    closed := Function.update s.closed fd true } := by
  simp only [perform] at h
  split at h <;> cases h
  exact ⟨_, ‹_›, rfl⟩

theorem step_fire {now : Time} {order : List Nat} (h : perform s (.fire now order) = some s') :
    s.pc = .outside ∧ ∃ timers, Timers.step s.timers (.fire now order) = some timers ∧
      s' = { s with timers, asked := s.asked.filter fun r => now < Timers.deadline r.2 r.1 } := by
  simp only [perform] at h
  split at h
  · obtain ⟨timers, ht, rfl⟩ := Option.map_eq_some_iff.mp h
    exact ⟨‹_›, timers, ht, rfl⟩
  · cases h

/-- The list of timers stays as it is. -/
theorem step_execute (h : perform s .execute = some s') : s.pc = .outside ∧
    ∃ timers : Timers.State Nat, timers.timer = s.timers.timer ∧
      timers.mTimers = s.timers.mTimers ∧ s' = { s with timers, pc := .check } := by
  simp only [perform] at h
  split at h
  · obtain ⟨timers, ht, rfl⟩ := Option.map_eq_some_iff.mp h
    obtain ⟨t, rest, -, -, rfl⟩ := Timers.step_execute ht
    exact ⟨‹_›, { s.timers with due := rest, running := some t }, rfl, rfl, rfl⟩
  · cases h

theorem step_newFds (h : perform s .newFds = some s') :
    s' = { s with io := Interest.newFds s.io } := by
  simp only [perform] at h
  split at h <;> cases h
  rfl

theorem step_updates (h : perform s .updates = some s') :
    s.io.between = true ∧ s' = { s with
      io := Interest.updates s.io
      closed := fun fd => s.closed fd || decide (fd ∈ s.io.loop.mRemovedFds) } := by
  simp only [perform] at h
  split at h <;> cases h
  exact ⟨‹_›, rfl⟩

/-- A call of the socket callback. -/
theorem step_socket (hi : Inv s) {easy : Easy} {fd : Fd} {what : What}
    (h : perform s (.socket easy fd what) = some s') : Polled s easy fd what s' := by
  obtain ⟨rfl, hremove, hpoll⟩ : s' = socketCallback easy fd what s ∧
      (what = .remove → s.curl.sockets fd ≠ none) ∧
      (what ≠ .remove → ∃ handle, s.curl.handles easy = some handle) := by
    simp only [perform] at h
    split at h
    · cases h
    · cases what <;> simp only at h <;> split at h <;> cases h
      · exact ⟨rfl, fun _ => ‹_›, fun hne => absurd rfl hne⟩
      · exact ⟨rfl, nofun, fun _ => Option.ne_none_iff_exists'.mp ‹_›⟩
  by_cases hl : s.hasLoop = true
  · have hs := hi.sockets hl
    cases hp : s.curl.assigned fd with
    | some p =>
      cases what with
      | remove => exact socketCallback_remove hs hl hp ▸ .removed hl p hp
      | poll what => exact socketCallback_update hs hl hp what ▸ .updated hl p hp what
    | none =>
      cases what with
      | remove =>
        have hsame := hs.sockets fd
        rw [hp] at hsame
        exact absurd (Option.isNone_iff_eq_none.mp (by simpa using hsame.symm)) (hremove rfl)
      | poll what =>
        obtain ⟨handle, hhandle⟩ := hpoll nofun
        obtain ⟨info, hinfo, -⟩ := hi.transfers.live hhandle
        have hconn : ((s.curl.handles easy).bind fun h => s.conns.cells h.priv) = some info := by
          rw [hhandle]
          exact hinfo
        exact socketCallback_new hl hp what hconn ▸ .added hl hp what info
  · have hl := Bool.eq_false_iff.mpr hl
    have hgone : ∃ sockets assigned, socketCallback easy fd what s =
        { s with curl := { s.curl with sockets, assigned } } := socketCallback_gone hl what
    obtain ⟨sockets, assigned, heq⟩ := hgone
    exact heq ▸ .gone hl what sockets assigned

omit [DecidableEq C] in
theorem Polled.unmoved {easy : Easy} {fd : Fd} {what : What} (h : Polled s easy fd what s') :
    Unmoved s s' := by
  cases h <;> exact {}

omit [DecidableEq C] in
/-- What a step leaves alone of the sockets. -/
theorem Inv.sockets_of (hi : Inv s) (hloop : s'.hasLoop = true → s.hasLoop = true)
    (hinfos : s'.infos = s.infos) (hassigned : s'.curl.assigned = s.curl.assigned)
    (hsockets : s'.curl.sockets = s.curl.sockets) : s'.hasLoop = true → Sockets s' := by
  intro hl
  have hs := hi.sockets (hloop hl)
  refine ⟨?_, fun fd => ?_⟩
  · rw [hinfos, hassigned]
    exact hs.infos
  · rw [hassigned, hsockets]
    exact hs.sockets fd

theorem inv_client (hi : Inv s) (c : C) (added : Bool) : Inv (init c added s) := by
  unfold init
  split
  · exact hi
  · cases added with
    | true => exact ⟨hi.fault, transfers_added hi.transfers c _, hi.sockets_of id rfl rfl rfl⟩
    | false => exact ⟨hi.fault, transfers_refused hi.transfers c, hi.sockets_of id rfl rfl rfl⟩

theorem inv_release (hi : Inv s) (c : C) :
    Inv { s with released := Function.update s.released c true } := by
  have ht := hi.transfers
  refine ⟨hi.fault, ⟨ht.conns, ht.next, ht.nodup, ht.done, ?_, fun c' p hr hp => ?_⟩,
    hi.sockets_of id rfl rfl rfl⟩
  · exact ht.pc.imp (fun _ _ h => ⟨h.handle, h.read⟩) (fun _ _ h => h) fun _ _ _ h => h
  · refine ht.client c' p ?_ hp
    by_cases hc : c' = c
    · simp [hc] at hr
    · simpa [hc] using hr

omit [DecidableEq C] in
theorem step_timer {ms : Int} {now : Time} (h : multiTimerCallback ms now s = some s') :
    Unmoved s s' ∧ s'.hasLoop = s.hasLoop ∧ s'.infos = s.infos ∧ s'.curl = s.curl := by
  unfold multiTimerCallback at h
  split at h
  · cases h
    exact ⟨{}, rfl, rfl, rfl⟩
  · split at h
    · cases h
      exact ⟨{}, rfl, rfl, rfl⟩
    · dsimp only at h
      split at h <;> cases h
      exact ⟨{}, rfl, rfl, rfl⟩

omit [DecidableEq C] in
/-- The callbacks of a transfer that has not finished find its object, and emit something on the
way of the transfer. -/
theorem step_callback (hi : Inv s) {easy : Easy} {h : Handle} (hh : s.curl.active easy = some h)
    (hs : (∃ line, easyHeaderCallback h.priv line s = some s') ∨
      (∃ data, easyWriteCallback h.priv data s = s') ∨ easyReadCallback h.priv s = s') :
    ∃ info conns, ∃ es : List Emission, s.conns.cells h.priv = some info ∧ Written s.conns conns ∧
      es.all Emission.progress = true ∧
      s' = { s with conns, log := s.log ++ es.map fun e => ⟨h.priv, info.http, e⟩ } := by
  obtain ⟨info, hinfo, -⟩ := hi.transfers.live (active_eq hh).1
  rcases hs with ⟨line, hs⟩ | ⟨data, rfl⟩ | rfl
  · simp only [easyHeaderCallback, hinfo] at hs
    obtain ⟨⟨n, after⟩, -, rfl⟩ := Option.map_eq_some_iff.mp hs
    refine ⟨info, s.conns.modify h.priv ({ · with
        status := after.status, reason := after.reason, headers := after.headers }),
      (after.http.elim [] (·.mResponse)).map .response, hinfo, .modify _ _ fun _ => rfl, ?_, ?_⟩
    · simp [Emission.progress]
    · rw [List.map_map]
      rfl
  · simp only [easyWriteCallback, hinfo, State.lock]
    by_cases hr : s.released info.http = true
    · exact ⟨info, _, [], rfl, .refl _, rfl, by simp [hr]⟩
    · exact ⟨info, _, [.body data], rfl, .refl _, rfl, by simp [hr]⟩
  · exact ⟨info, _, [], hinfo, .refl _, rfl, by simp [easyReadCallback, hinfo]⟩

omit [DecidableEq C] in
theorem inv_callback (hi : Inv s) {easy : Easy} {h : Handle} (hh : s.curl.active easy = some h)
    (hs : (∃ line, easyHeaderCallback h.priv line s = some s') ∨
      (∃ data, easyWriteCallback h.priv data s = s') ∨ easyReadCallback h.priv s = s') :
    Inv s' := by
  obtain ⟨info, conns, es, -, hw, -, rfl⟩ := step_callback hi hh hs
  exact ⟨hi.fault, transfers_written hi.transfers hw _, hi.sockets_of id rfl rfl rfl⟩

/-- Where `checkMultiInfo` goes with a result. -/
def Pc.start (conn : Addr) (easy : Easy) (http : C) : Option Bytes → Pc C
  | some text => .emitError conn easy http text
  | none => .emitComplete conn easy http

theorem check_empty (hm : s.curl.messages = []) : checkMultiInfo s .check =
    some { s with pc := .outside, timers := { s.timers with running := none } } := by
  simp [checkMultiInfo, hm]

/-- The message of a transfer whose client nobody owns, and of one whose client somebody does. -/
theorem check_message {easy : Easy} {error : Option Bytes}
    {messages : List (Easy × Option Bytes)} (hm : s.curl.messages = (easy, error) :: messages)
    {handle : Handle} (hh : s.curl.handles easy = some handle) {conn : HttpConnectionInfo C}
    (hconn : s.conns.cells handle.priv = some conn) : checkMultiInfo s .check =
      if s.released conn.http then
        some { s with
          curl.messages := messages
          ended := s.ended ++ [⟨handle.priv, conn.http, error, false⟩]
          pc := .remove handle.priv easy }
      else
        some { s with
          curl.messages := messages
          ended := s.ended ++ [⟨handle.priv, conn.http, error, true⟩]
          mConnectionInfo := Function.update s.mConnectionInfo conn.http none
          pc := .start handle.priv easy conn.http error } := by
  by_cases hr : s.released conn.http = true
  · simp [checkMultiInfo, hm, hh, hconn, State.lock, hr]
  · simp only [checkMultiInfo, hm, hh, hconn, State.lock, hr]
    cases error <;> rfl

omit [DecidableEq C] in
/-- The next message is that of a transfer. -/
theorem Transfers.message (ht : Transfers s) {easy : Easy} {error : Option Bytes}
    {messages : List (Easy × Option Bytes)} (hm : s.curl.messages = (easy, error) :: messages) :
    ∃ handle conn, s.curl.handles easy = some handle ∧ s.conns.cells handle.priv = some conn := by
  obtain ⟨handle, hh, -⟩ := ht.done easy (by rw [hm]; exact List.mem_cons_self ..)
  obtain ⟨conn, hconn, -⟩ := ht.live hh
  exact ⟨handle, conn, hh, hconn⟩

/-- A transfer that is read from the message queue. -/
theorem inv_check (hi : Inv s) (hpc : s.pc = .check) (h : checkMultiInfo s .check = some s') :
    Inv s' := by
  have ht := hi.transfers
  cases hm : s.curl.messages with
  | nil =>
    rw [check_empty hm] at h
    cases h
    exact ⟨hi.fault, transfers_goto ht (fun _ _ he => by rw [hpc] at he; cases he)
      (fun _ _ he => by cases he) (by trivial) s.log _ s.timer s.asked, hi.sockets_of id rfl rfl rfl⟩
  | cons x messages =>
    obtain ⟨easy, error⟩ := x
    obtain ⟨handle, conn, hh, hconn⟩ := ht.message hm
    rw [check_message hm hh hconn] at h
    split at h <;> cases h
    · rename_i hr
      refine ⟨hi.fault, transfers_read ht hpc hm hh hconn ?_ (fun c p hc hp => ⟨hp, ?_⟩)
        (fun h hread => ?_) _, hi.sockets_of id rfl rfl rfl⟩
      · exact fun _ _ he => by cases he
      · rintro rfl
        rw [hr] at hc
        cases hc
      · exact ⟨h ▸ hh, hread⟩
    · refine ⟨hi.fault, transfers_read ht hpc hm hh hconn ?_ (fun c p _ hp => ?_)
        (fun h hread => ?_) _, hi.sockets_of id rfl rfl rfl⟩
      · cases error <;> exact fun _ _ he => by cases he
      · by_cases hc : c = conn.http
        · simp [hc] at hp
        · exact ⟨by simpa [hc] using hp, hc⟩
      · have hfin : State.Finishing { s with curl.messages := messages } handle.priv easy :=
          ⟨h ▸ hh, hread⟩
        cases error <;> exact ⟨hfin, by simp [hconn]⟩

theorem inv_next (hi : Inv s) (h : checkMultiInfo s s.pc = some s') : Inv s' := by
  have ht := hi.transfers
  have hok := ht.pc
  cases hpc : s.pc with
  | outside => rw [hpc] at h; cases h
  | check => exact inv_check hi hpc (hpc ▸ h)
  | emitError conn easy http text =>
    rw [hpc] at h hok
    obtain ⟨hfin, hhttp⟩ := hok
    obtain ⟨info, hinfo, -⟩ := Option.map_eq_some_iff.mp hhttp
    simp only [checkMultiInfo, hinfo] at h
    cases h
    exact ⟨hi.fault, transfers_goto ht (fun _ _ he => by rw [hpc] at he; cases he)
      (fun _ _ he => by cases he) (by exact ⟨hfin, hhttp⟩) _ s.timers s.timer s.asked,
      hi.sockets_of id rfl rfl rfl⟩
  | emitComplete conn easy http | disconnect conn easy http =>
    rw [hpc] at h hok
    cases h
    exact ⟨hi.fault, transfers_goto ht (fun _ _ he => by rw [hpc] at he; cases he)
      (fun _ _ he => by cases he) (by first | exact hok | exact hok.1) _ s.timers s.timer s.asked,
      hi.sockets_of id rfl rfl rfl⟩
  | remove conn easy =>
    rw [hpc] at h
    cases h
    exact ⟨hi.fault, transfers_remove ht hpc, hi.sockets_of id rfl rfl rfl⟩
  | free conn easy =>
    rw [hpc] at h
    obtain ⟨info, hinfo, -⟩ := ht.conns.live easy conn (ht.freeing hpc).2
    simp only [checkMultiInfo, hinfo] at h
    cases h
    exact ⟨hi.fault, transfers_free ht hpc, hi.sockets_of id rfl rfl rfl⟩

omit [DecidableEq C] in
/-- From the loop to `checkMultiInfo`. -/
theorem inv_outside (hi : Inv s) (hpc : s.pc = .outside) {pc : Pc C} (hpc' : pc = .outside ∨ pc = .check)
    (timers : Timers.State Nat) (timer : Option Nat) (asked : Option (Int × Time)) :
    Inv { s with pc, timers, timer, asked } := by
  refine ⟨hi.fault, transfers_goto hi.transfers (fun _ _ he => by rw [hpc] at he; cases he) ?_ ?_
    s.log timers timer asked, hi.sockets_of id rfl rfl rfl⟩
  · rcases hpc' with rfl | rfl <;> exact nofun
  · rcases hpc' with rfl | rfl <;> trivial

omit [DecidableEq C] in
theorem inv_event (hi : Inv s) (hpc : s.pc = .outside) (running : Nat) :
    Inv (socketEventCallback running s) := by
  unfold socketEventCallback
  split
  · exact inv_outside hi hpc (.inr rfl) _ _ _
  · exact inv_outside hi hpc (.inr rfl) s.timers s.timer s.asked

omit [DecidableEq C] in
/-- What the loop does with its tables is nothing to the objects. -/
theorem inv_io (hi : Inv s) (io : Interest.State Unit) (failing : Option Fd) (closed : Fd → Bool) :
    Inv { s with io, failing, closed } :=
  ⟨hi.fault, hi.transfers.congr {}, hi.sockets_of id rfl rfl rfl⟩

omit [DecidableEq C] in
theorem inv_error (hi : Inv s) (hpc : s.pc = .outside) (fd : Fd) (running : Nat) :
    Inv (errorEvent fd running s) := by
  have hfailed := inv_io hi (s.io.fail fd) (some fd) s.closed
  unfold errorEvent
  dsimp only
  split
  · exact hfailed
  · exact inv_event hfailed hpc running
  · exact inv_io hi _ (some fd) s.closed

theorem inv_step {l : Label C} (hi : Inv s) (h : step s l = some s') : Inv s' := by
  unfold step at h
  split at h
  · cases h
  cases l with
  | init c added =>
    obtain rfl := step_init h
    exact inv_client hi c added
  | write c =>
    obtain rfl := step_write hi h
    exact hi
  | release c => cases h; exact inv_release hi c
  | socket easy fd what =>
    have hp := step_socket hi h
    exact ⟨hp.unmoved.fault.trans hi.fault, hi.transfers.congr hp.unmoved,
      Sockets.polled hi.sockets hp⟩
  | timer ms now =>
    obtain ⟨hsame, hl, hinfos, hcurl⟩ := step_timer h
    exact ⟨hsame.fault.trans hi.fault, hi.transfers.congr hsame,
      hi.sockets_of (hl ▸ id) hinfos (congrArg _ hcurl) (congrArg _ hcurl)⟩
  | header easy line =>
    obtain ⟨handle, hh, hs⟩ := Option.bind_eq_some_iff.mp h
    exact inv_callback hi hh (.inl ⟨line, hs⟩)
  | body easy data =>
    obtain ⟨handle, hh, rfl⟩ := Option.map_eq_some_iff.mp h
    exact inv_callback hi hh (.inr (.inl ⟨data, rfl⟩))
  | read easy =>
    obtain ⟨handle, hh, rfl⟩ := Option.map_eq_some_iff.mp h
    exact inv_callback hi hh (.inr (.inr rfl))
  | finish easy error =>
    obtain ⟨handle, hh, rfl⟩ := Option.map_eq_some_iff.mp h
    exact ⟨hi.fault, transfers_finish hi.transfers hh error, hi.sockets_of id rfl rfl rfl⟩
  | event running =>
    obtain ⟨hpc, rfl⟩ := step_event h
    exact inv_event hi hpc running
  | error fd running =>
    obtain ⟨hpc, rfl⟩ := step_error h
    exact inv_error hi hpc fd running
  | close =>
    obtain ⟨fd, -, rfl⟩ := step_close h
    exact inv_io hi _ _ _
  | fire now order =>
    obtain ⟨hpc, timers, -, rfl⟩ := step_fire h
    exact hpc ▸ inv_outside hi hpc (.inl rfl) timers s.timer _
  | execute =>
    obtain ⟨hpc, timers, -, -, rfl⟩ := step_execute h
    exact inv_outside hi hpc (.inr rfl) timers s.timer s.asked
  | next => exact inv_next hi h
  | newFds =>
    obtain rfl := step_newFds h
    exact inv_io hi _ s.failing s.closed
  | updates =>
    obtain ⟨-, rfl⟩ := step_updates h
    exact inv_io hi _ s.failing _
  | opened fd =>
    cases h
    exact inv_io hi s.io s.failing _
  | loopGone =>
    cases h
    exact ⟨hi.fault, hi.transfers.congr {},
      hi.sockets_of (fun h => by cases h) rfl rfl rfl⟩

theorem inductive_inv : (multi C).Inductive Inv where
  init s hs := by
    cases hs
    exact inv_init
  step _ _ _ hi hs := inv_step hi hs

/-- **Nothing dangles and nothing leaks.** In every run no freed object is used
and none is freed twice. A `HttpConnectionInfo` is live exactly as long as its
handle is, or `checkMultiInfo` is about to free it; and while there is a loop, a
`HttpSocketInfo` exactly as long as curl has the socket it is for. -/
theorem no_dangling (s : State C) (hr : (multi C).Reachable s) :
    s.fault = none ∧
      (∀ p, (s.conns.cells p).isSome = true ↔ ∃ easy, s.owner easy = some p) ∧
      (s.hasLoop = true → ∀ p, (s.infos.cells p).isSome = true ↔
        ∃ fd, (s.curl.sockets fd).isSome = true ∧ s.curl.assigned fd = some p) := by
  have hi := inductive_inv.reachable s hr
  refine ⟨hi.fault, hi.transfers.conns.live_iff, fun hl p => ?_⟩
  have hs := hi.sockets hl
  rw [hs.infos.live_iff]
  constructor
  · rintro ⟨fd, hfd⟩
    exact ⟨fd, by rw [← hs.sockets fd, hfd]; rfl, hfd⟩
  · rintro ⟨fd, -, hfd⟩
    exact ⟨fd, hfd⟩

end

/-- A transfer of the client `false` fails while another one goes on. -/
def transfers : List (Label Bool) :=
  [.init false true, .init true true, .socket 0 7 (.poll .inout), .body 0 [104, 105],
    .finish 0 (some [33]), .event 1, .next]

theorem transfers_run : (LTS.replay step State.init transfers).isSome := rfl

theorem no_dangling_transfers :
    let s := (LTS.replay step State.init transfers).get transfers_run
    s.fault = none ∧ ((s.conns.cells 0).isSome = true ↔ ∃ easy, s.owner easy = some 0) :=
  have h := no_dangling _ (LTS.reachable_replay (· = State.init) rfl transfers_run)
  ⟨h.1, h.2.1 0⟩

end Reckoning.L5.HttpMulti
