import Reckoning.Core.LTS
import Reckoning.L1Bytes.Concat
import Reckoning.L3Then.Then

/-!
# Fetching a URI

`Fetch::fetch` connects two handlers to an `HttpClient`: `onBodyData` puts each
chunk that curl delivers behind `job->buffer`, `onComplete` resolves the promise
with it (include/net/Fetch.h:43-66). `checkMultiInfo` emits `mError` for a
transfer that has failed, and then `mComplete` as for any other
(lib/net/HttpClient.cpp:372-412).

curl delivers chunks of any size, none of them included, and then the result of
the transfer. Between its callbacks the rest of the thread uses the pool, but
not the buffer that the job holds. `job = none` is a failed assertion. What the
memory of new buffers holds (`junk`) is part of the label.

* `write_spec`: a chunk comes behind what there is; a chunk without a byte, with
  nothing before it, fails the assertion of `Buffer::concat`.
* `fetch_iff`: the runs that keep `Integrity`.
-/
namespace Reckoning.L5.Fetch
open Reckoning.L3 (Outcome)
open Reckoning.L1

/-! ## The code -/

/-- `Fetch::Job` and the pool of its thread. `settled` has the calls of `resolve`
and `reject` on `then`, with the bytes of the buffer.
mirrors include/net/Fetch.h:26-37 -/
structure Job where
  tPool : Pool 20 16384
  buffer : Option (Ref 20)
  settled : List (Outcome (Option Bytes))

/-- The buffer that is emitted on `mBodyData`.
mirrors lib/net/HttpClient.cpp:258-273 -/
def easyWriteCallback (junk : Nat → UInt8) (data : Bytes) (p : Pool 20 16384) :
    Option (Ref 20 × Pool 20 16384) :=
  let (buffer, p) := p.get junk data.length
  p.assign data buffer

/-- A shared pointer that may be null goes out of scope. -/
def releaseOld (old : Option (Ref 20)) (p : Pool 20 16384) : Pool 20 16384 :=
  match old with
  | none => p
  | some r => p.release r

/-- mirrors include/net/Fetch.h:56-58 -/
def onBodyData (junk junk' : Nat → UInt8) (buf : Ref 20) (job : Job) : Option Job :=
  (job.tPool.concat junk junk' [job.buffer, some buf]).map fun (r, p) =>
    { job with tPool := releaseOld job.buffer p, buffer := some r }

/-- One call of the write callback: the chunk is let go of after the emission. -/
def write (junk junk' junk'' : Nat → UInt8) (data : Bytes) (job : Job) : Option Job :=
  (easyWriteCallback junk data job.tPool).bind fun (buf, p) =>
    (onBodyData junk' junk'' buf { job with tPool := p }).map fun job =>
      { job with tPool := job.tPool.release buf }

/-- mirrors include/net/Fetch.h:59-62 -/
def onComplete (job : Job) : Job :=
  { job with
    settled := job.settled ++ [.ok (job.buffer.map fun r => (deref job.tPool r).bytes)]
    buffer := none }

/-- What `fetch` connects to the signals of its `HttpClient`. -/
def mComplete : List (Job → Job) := [onComplete]

def mError : List (String → Job → Job) := []

/-- `CURLcode`; a transfer that failed has its `CURLOPT_ERRORBUFFER`. -/
inductive Result
  | ok
  | failed (error : String)
  deriving DecidableEq, Repr

/-- mirrors lib/net/HttpClient.cpp:388-394 -/
def checkMultiInfo (res : Result) (job : Job) : Job :=
  let job :=
    match res with
    | .ok => job
    | .failed error => mError.foldl (fun job handler => handler error job) job
  mComplete.foldl (fun job handler => handler job) job

/-! ## The machine -/

structure State where
  job : Option Job
  /-- what curl has delivered -/
  chunks : List Bytes
  result : Option Result

inductive Label
  | chunk (junk junk' junk'' : Nat → UInt8) (data : Bytes)
  | done (res : Result)
  | others (p : Pool 20 16384)

def start (p : Pool 20 16384) : State := ⟨some ⟨p, none, []⟩, [], none⟩

/-- The rest of the thread leaves the job's buffer alone, and the job's shared
pointer still counts. -/
def Undisturbed (job : Job) (p : Pool 20 16384) : Prop :=
  ∀ r, job.buffer = some r → Held p r ∧ deref p r = deref job.tPool r

inductive Step : State → Label → State → Prop
  | chunk {s : State} {job : Job} {junk junk' junk'' : Nat → UInt8} {data : Bytes} :
      s.job = some job → s.result = none →
      Step s (.chunk junk junk' junk'' data)
        { s with job := write junk junk' junk'' data job, chunks := s.chunks ++ [data] }
  | done {s : State} {job : Job} {res : Result} :
      s.job = some job → s.result = none →
      Step s (.done res) { s with job := some (checkMultiInfo res job), result := some res }
  | others {s : State} {job : Job} {p : Pool 20 16384} :
      s.job = some job → Undisturbed job p →
      Step s (.others p) { s with job := some { job with tPool := p } }

def fetch : LTS State Label where
  init s := ∃ p, s = start p
  step := Step

/-- What curl has delivered, in order. -/
def State.body (s : State) : Bytes := s.chunks.flatten

def State.settled (s : State) : List (Outcome (Option Bytes)) :=
  match s.job with
  | none => []
  | some job => job.settled

/-- Nothing fails. The promise is settled once, when the transfer has ended:
with the whole body (a null buffer has none), or with a failure. -/
structure Integrity (s : State) : Prop where
  fault : s.job ≠ none
  pending : s.result = none → s.settled = []
  success : s.result = some .ok → ∃ body, s.settled = [.ok body] ∧ body.getD [] = s.body
  failure : ∀ error, s.result = some (.failed error) → ∃ failure, s.settled = [.error failure]

/-- The transfer succeeds, and no chunk without a byte comes before all others. -/
def Keeps (s : State) : Label → Prop
  | .chunk _ _ _ data => data ≠ [] ∨ s.body ≠ []
  | .done res => res = .ok
  | .others _ => True

/-! ## One chunk -/

/-- The job has received `bs`. -/
structure Has (job : Job) (bs : Bytes) : Prop where
  held : ∀ r, job.buffer = some r → Held job.tPool r
  bytes : job.tPool.contents job.buffer = bs

theorem easyWriteCallback_spec (junk : Nat → UInt8) (data : Bytes) (p : Pool 20 16384) :
    ∃ buf p', easyWriteCallback junk data p = some (buf, p') ∧ Fresh p data buf p' := by
  rcases hget : p.get junk data.length with ⟨r, p₁⟩
  obtain ⟨buf, p', hassign, hl⟩ := assign_spec data r p₁ (get_spec hget).1
  refine ⟨buf, p', ?_, (fresh_get hget).leaves hl⟩
  simp only [easyWriteCallback, hget, hassign]

/-- Letting go of the old buffer leaves another one alone. -/
theorem releaseOld_spec {old : Option (Ref 20)} {r : Ref 20} {p : Pool 20 16384}
    (ha : ∀ r₀, old = some r₀ → Apart r₀ r) (hr : Held p r) :
    Held (releaseOld old p) r ∧ deref (releaseOld old p) r = deref p r := by
  cases old with
  | none => exact ⟨hr, rfl⟩
  | some r₀ =>
    obtain ⟨hframe, hkeeps⟩ := release_spec (p := p) (ha r₀ rfl)
    exact ⟨hkeeps hr, hframe⟩

/-- **A chunk comes behind what there is**, if there is a byte in either. -/
theorem write_spec {job : Job} {bs : Bytes} (h : Has job bs) (junk junk' junk'' : Nat → UInt8)
    (data : Bytes) :
    (bs ++ data ≠ [] → ∃ job', write junk junk' junk'' data job = some job' ∧
      Has job' (bs ++ data) ∧ job'.settled = job.settled) ∧
    (bs ++ data = [] → write junk junk' junk'' data job = none) := by
  obtain ⟨buf, p₁, hwrite, hbuf⟩ := easyWriteCallback_spec junk data job.tPool
  have hargs : ∀ r₀, some r₀ ∈ [job.buffer, some buf] → Held p₁ r₀ := by
    intro r₀ h₀
    rcases List.mem_cons.mp h₀ with he | h₀
    · exact (hbuf.others r₀ (h.held r₀ he.symm)).2.1
    · cases List.mem_singleton.mp h₀
      exact hbuf.held
  have hbytes : ([job.buffer, some buf].map p₁.contents).flatten = bs ++ data := by
    have hold : p₁.contents job.buffer = bs := by
      rw [← h.bytes]
      cases hb : job.buffer with
      | none => rfl
      | some r => exact congrArg Buffer.bytes (hbuf.others r (h.held r hb)).2.2
    have hnew : p₁.contents (some buf) = data := hbuf.bytes
    simp [hold, hnew]
  have hconcat := concat_spec junk' junk'' hargs
  rw [hbytes] at hconcat
  constructor
  · intro hne
    obtain ⟨r, p₂, hr, hfresh⟩ := hconcat.1 hne
    -- the new buffer is neither the old one nor the chunk, which are let go of
    have hapart : ∀ r₀, some r₀ ∈ [job.buffer, some buf] → Apart r₀ r := fun r₀ h₀ =>
      (hfresh.others r₀ (hargs r₀ h₀)).1.symm
    have hold : ∀ r₀, job.buffer = some r₀ → Apart r₀ r := fun r₀ h₀ => hapart r₀ (by simp [h₀])
    obtain ⟨hheld, hderef⟩ := releaseOld_spec hold hfresh.held
    obtain ⟨hframe, hkeeps⟩ := release_spec (p := releaseOld job.buffer p₂) (hapart buf (by simp))
    refine ⟨{ job with tPool := (releaseOld job.buffer p₂).release buf, buffer := some r }, ?_, ?_, rfl⟩
    · simp only [write, hwrite, Option.bind_some, onBodyData, hr, Option.map_some]
    · refine ⟨fun r' hr' => ?_, ?_⟩
      · cases hr'
        exact hkeeps hheld
      · show (deref _ r).bytes = bs ++ data
        rw [hframe, hderef, hfresh.bytes]
  · intro hnil
    simp only [write, hwrite, Option.bind_some, onBodyData, hconcat.2 hnil, Option.map_none]

/-! ## Runs -/

/-- While the transfer runs the job has what was delivered; then the promise
has it. -/
def Inv (s : State) : Prop :=
  ∃ job, s.job = some job ∧
    ((s.result = none ∧ job.settled = [] ∧ Has job s.body) ∨
     (s.result = some .ok ∧ job.buffer = none ∧
       ∃ body, job.settled = [.ok body] ∧ body.getD [] = s.body))

theorem Inv.integrity {s : State} (h : Inv s) : Integrity s := by
  obtain ⟨job, hjob, ⟨hres, hsettled, -⟩ | ⟨hres, -, body, hsettled, hbody⟩⟩ := h
  · exact {
      fault := by rw [hjob]; exact Option.some_ne_none job
      pending := fun _ => by simp only [State.settled, hjob, hsettled]
      success := fun h => by rw [hres] at h; cases h
      failure := fun error h => by rw [hres] at h; cases h }
  · exact {
      fault := by rw [hjob]; exact Option.some_ne_none job
      pending := fun h => by rw [hres] at h; cases h
      success := fun _ => ⟨body, by simp only [State.settled, hjob, hsettled], hbody⟩
      failure := fun error h => by rw [hres] at h; cases h }

theorem Has.undisturbed {job : Job} {bs : Bytes} {p : Pool 20 16384} (h : Has job bs)
    (hp : Undisturbed job p) : Has { job with tPool := p } bs where
  held r hr := (hp r hr).1
  bytes := by
    rw [← h.bytes]
    cases hb : job.buffer with
    | none => rfl
    | some r => exact congrArg Buffer.bytes (hp r hb).2

/-- Success or not, the promise is resolved. -/
theorem checkMultiInfo_eq (res : Result) (job : Job) : checkMultiInfo res job = onComplete job := by
  cases res <;> rfl

theorem inv_keeps {s s' : State} {l : Label} (h : Inv s) (hc : Keeps s l) (hs : Step s l s') :
    Inv s' := by
  obtain ⟨job, hjob, hcase⟩ := h
  cases hs with
  | @chunk job' junk junk' junk'' data hjob' hrunning =>
    cases hjob.symm.trans hjob'
    rcases hcase with ⟨hres, hsettled, hhas⟩ | ⟨hres, -⟩
    · have hne : s.body ++ data ≠ [] := fun h0 =>
        hc.elim (fun hd => hd (List.append_eq_nil_iff.mp h0).2) fun hb =>
          hb (List.append_eq_nil_iff.mp h0).1
      obtain ⟨job', hwrite, hhas', hsettled'⟩ := (write_spec hhas junk junk' junk'' data).1 hne
      refine ⟨job', hwrite, .inl ⟨hres, hsettled'.trans hsettled, ?_⟩⟩
      simpa [State.body] using hhas'
    · rw [hres] at hrunning; cases hrunning
  | @done job' res hjob' hrunning =>
    cases hjob.symm.trans hjob'
    rcases hcase with ⟨hres, hsettled, hhas⟩ | ⟨hres, -⟩
    · subst hc
      have hbody : (job.buffer.map fun r => (deref job.tPool r).bytes).getD [] = s.body := by
        rw [← hhas.bytes]
        cases job.buffer <;> rfl
      refine ⟨onComplete job, rfl, .inr ⟨rfl, rfl, _, ?_, hbody⟩⟩
      rw [onComplete, hsettled, List.nil_append]
    · rw [hres] at hrunning; cases hrunning
  | others hjob' hp =>
    cases hjob.symm.trans hjob'
    refine ⟨_, rfl, hcase.imp (fun hrun => ?_) fun hdone => hdone⟩
    exact ⟨hrun.1, hrun.2.1, hrun.2.2.undisturbed hp⟩

theorem integrity_breaks {s s' : State} {l : Label} (h : Inv s) (hc : ¬ Keeps s l)
    (hs : Step s l s') : ¬ Integrity s' := by
  obtain ⟨job, hjob, hcase⟩ := h
  intro hi
  cases hs with
  | @chunk job' junk junk' junk'' data hjob' hrunning =>
    cases hjob.symm.trans hjob'
    rcases hcase with ⟨hres, hsettled, hhas⟩ | ⟨hres, -⟩
    · obtain ⟨hdata, hbody⟩ := not_or.mp hc
      have hnil : s.body ++ data = [] := by
        rw [Decidable.not_not.mp hdata, Decidable.not_not.mp hbody, List.append_nil]
      exact hi.fault ((write_spec hhas junk junk' junk'' data).2 hnil)
    · rw [hres] at hrunning; cases hrunning
  | @done job' res hjob' hrunning =>
    cases hjob.symm.trans hjob'
    cases res with
    | ok => exact hc rfl
    | failed error =>
      obtain ⟨failure, hsettled⟩ := hi.failure error rfl
      simp only [State.settled, checkMultiInfo_eq, onComplete] at hsettled
      -- what was appended last is the `resolve`
      have hlast := congrArg List.getLast? hsettled
      simp at hlast
  | others hjob' hp => exact hc trivial

theorem exact_keeps : fetch.Exact Keeps Inv Integrity where
  holds _ := Inv.integrity
  keeps _ _ _ := inv_keeps
  breaks _ _ _ := integrity_breaks

theorem has_start (p : Pool 20 16384) : Has ⟨p, none, []⟩ [] where
  held r hr := by cases hr
  bytes := rfl

/-- **A fetch keeps its integrity exactly when** its transfer succeeds and no
chunk without a byte comes before all others. -/
theorem fetch_iff {p : Pool 20 16384} {t : List (Label × State)} (ht : fetch.Trace (start p) t) :
    LTS.AllStates Integrity (start p) t ↔ LTS.AllSteps Keeps (start p) t :=
  exact_keeps.allStates_iff ht ⟨_, rfl, .inl ⟨rfl, rfl, has_start p⟩⟩

/-- A pool of zeroes that nobody uses. -/
def zeroes : Pool 20 16384 := fun _ => ⟨Buffer.create (fun _ => 0) 16384, 0⟩

/-- One byte, and the transfer ends. -/
theorem fetch_byte (res : Result) : ∃ s s' buffer,
    fetch.Trace (start zeroes) [(.chunk (fun _ => 0) (fun _ => 0) (fun _ => 0) [1], s),
      (.done res, s')] ∧ s'.result = some res ∧
    buffer.getD [] = [1] ∧ s'.settled = [.ok buffer] := by
  obtain ⟨job, hwrite, hhas, hsettled⟩ :=
    (write_spec (has_start zeroes) (fun _ => 0) (fun _ => 0) (fun _ => 0) [1]).1 (by simp)
  refine ⟨⟨some job, [[1]], none⟩, ⟨some (checkMultiInfo res job), [[1]], some res⟩,
    job.buffer.map fun r => (deref job.tPool r).bytes, ?_, rfl, ?_, ?_⟩
  · refine .cons ?_ (.cons (.done rfl rfl) (.nil _))
    rw [← hwrite]
    exact .chunk rfl rfl
  · have hbytes := hhas.bytes
    cases hb : job.buffer with
    | none => rw [hb] at hbytes; cases hbytes
    | some r => rw [hb] at hbytes; exact hbytes
  · simp only [State.settled, checkMultiInfo_eq, onComplete, hsettled, List.nil_append]

theorem fetch_iff_byte : ∃ t, fetch.Trace (start zeroes) t ∧ t.length = 2 ∧
    (LTS.AllStates Integrity (start zeroes) t ↔ LTS.AllSteps Keeps (start zeroes) t) := by
  obtain ⟨s, s', buffer, ht, -⟩ := fetch_byte .ok
  exact ⟨_, ht, rfl, fetch_iff ht⟩

/-- The connection is lost after a byte: the promise is resolved with it. -/
theorem fetch_truncated : ∃ t s' buffer, fetch.Trace (start zeroes) t ∧
    LTS.last (start zeroes) t = s' ∧ s'.result = some (.failed "Recv failure") ∧
    s'.settled = [.ok buffer] ∧ buffer.getD [] = [1] ∧ ¬ Integrity s' := by
  obtain ⟨s, s', buffer, ht, hres, hbytes, hsettled⟩ := fetch_byte (.failed "Recv failure")
  refine ⟨_, s', buffer, ht, rfl, hres, hsettled, hbytes, fun hi => ?_⟩
  obtain ⟨failure, hfailed⟩ := hi.failure _ hres
  rw [hsettled] at hfailed
  cases hfailed

end Reckoning.L5.Fetch
