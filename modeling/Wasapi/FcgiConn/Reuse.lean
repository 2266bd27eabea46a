import Wasapi.Fastcgi.ParamsCuts
import Wasapi.Fastcgi.RoundTrip
import Wasapi.FcgiConn.DecoderCalls
import Wasapi.FcgiConn.EventCases

/-!
# Using a request id again

The entry of an answered request stays in the map until the sweep of `handle_io` erases it.
BEGIN_REQUEST finds it there like every other record and only sets flags in it, so what comes for a
new request on its id goes into the old one until the sweep. The old one has been answered and is
never ready again.

The sweep follows every `process_buffer` call of `handle_io`, and it passes over an entry whose
worker is active. So it depends on where the stream is cut and on the worker how much of the new
request is lost. If the empty PARAMS record is among it the rest never becomes ready; if it is not,
the rest becomes a request of its own, with the whole body and with the pairs that are left.
-/

namespace Wasapi.FcgiConn

open Fastcgi

/-! ## Reads and sweeps

A read here is what one `handle_io` does to the requests map of its connection. The input buffer and
the map are carried from read to read. What else a read is given is free, and so is which workers
have cleared `worker_active` when the sweep looks. Behind the sweep the connection stays open, for
instance because of its other requests or its unsent output: on one that is closed there the new
request is never read to its end. -/

/-- One `handle_io` that reads. -/
structure Arrival where
  io : ConnRef
  /-- what `recv` returns -/
  data : Bytes
  outBuf : Bytes
  world : World
  /-- the ids whose workers have cleared `worker_active` since the sweep before -/
  finished : List UInt16

/-- The side of a connection that takes requests in. -/
structure Intake where
  requests : Requests
  inBuf : Bytes := []
  /-- what `on_request_ready` has been called with -/
  passed : List Request := []

/-- The entry is one the sweep erases. -/
def isOver (r : Request) : Bool :=
  !r.workerActive && (r.flags.responded || (r.flags.failed || r.flags.aborted))

/-- One turn of the sweep, as far as the map goes. -/
def sweepEntry (requests : Requests) (id : UInt16) : Requests :=
  if (requests.lookup id).any isOver then requests.erase id else requests

def sweepEntries (requests : Requests) : Requests := requests.keys.foldl sweepEntry requests

/-- The worker of the entry clears `worker_active`. -/
def finishWorker (requests : Requests) (id : UInt16) : Requests :=
  match requests.lookup id with
  | none => requests
  | some r => requests.insert id { r with workerActive := false }

section

variable (cfg : GlobalConfig)

/-- The read, the `process_buffer` call and the sweep. -/
def receive (s : Intake) (a : Arrival) : Intake :=
  let res := watchedCall cfg s.requests ⟨a.io, s.inBuf ++ a.data, a.outBuf, a.world⟩
  { requests := sweepEntries (a.finished.foldl finishWorker res.requests)
    inBuf := res.inBuf
    passed := s.passed ++ res.ext.2 }

/-- `allocate_request` would give the decoder a request. -/
def Arrival.Grants (a : Arrival) (id : UInt16) : Prop :=
  (allocateRequest cfg a.io id a.world).1.isSome

instance (a : Arrival) (id : UInt16) : Decidable (a.Grants cfg id) :=
  inferInstanceAs (Decidable ((allocateRequest cfg a.io id a.world).1.isSome = true))

end

/-- All that is read. -/
def arrived (reads : List Arrival) : Bytes := reads.flatMap Arrival.data

/-- The reads bring the records of `q` on `id`, however they are cut, and nothing else. -/
def Brings (id : UInt16) (q : EncodedRequest) (reads : List Arrival) : Prop :=
  arrived reads = (q.records id).flatMap Record.encode

/-- There is one call of `on_request_ready`, for a request whose environment and body come from `q`.
-/
def StartsFresh (cfg : GlobalConfig) (requests : Requests) (q : EncodedRequest)
    (reads : List Arrival) : Prop :=
  ∃ r, (reads.foldl (receive cfg) ⟨requests, [], []⟩).passed = [r] ∧ r.body = q.body ∧
    ∀ name value, r.env.find name = some (.string value) → (name, value) ∈ q.pairs

/-- The worker of `r` has cleared `worker_active` by the sweep behind the last of the reads. -/
def Idle (id : UInt16) (r : Request) (reads : List Arrival) : Prop :=
  r.workerActive = false ∨ ∃ a ∈ reads, id ∈ a.finished

/-- The sweep behind one of the reads finds the worker of `r` finished, and by then the empty PARAMS
record has not been read. -/
def SweptInTime (id : UInt16) (r : Request) (q : EncodedRequest) (reads : List Arrival) : Prop :=
  ∃ before, before ≠ [] ∧ before <+: reads ∧ Idle id r before ∧
    q.paramsEnd id ∉ recordFramer.frames (arrived before)

/-! ## What the sweep leaves -/

private theorem lookup_sweepEntry (requests : Requests) (id i : UInt16) :
    (sweepEntry requests id).lookup i
      = if i = id then (requests.lookup i).filter fun r ↦ !isOver r else requests.lookup i := by
  rw [sweepEntry]
  by_cases hi : i = id
  · subst hi
    rw [if_pos rfl]
    cases hr : requests.lookup i with
    | none => rw [Option.any_none, if_neg Bool.false_ne_true, hr, Option.filter_none]
    | some r =>
      rw [Option.any_some]
      cases hover : isOver r with
      | true => rw [if_pos rfl, AList.lookup_erase, Option.filter_some, hover]; rfl
      | false => rw [if_neg Bool.false_ne_true, hr, Option.filter_some, hover]; rfl
  · rw [if_neg hi]
    split
    · exact AList.lookup_erase_ne hi
    · rfl

private theorem lookup_sweepEntries (requests : Requests) (i : UInt16) :
    (sweepEntries requests).lookup i = (requests.lookup i).filter fun r ↦ !isOver r := by
  have hrun (ids : List UInt16) (m : Requests) : (ids.foldl sweepEntry m).lookup i
      = if i ∈ ids then (m.lookup i).filter fun r ↦ !isOver r else m.lookup i := by
    induction ids generalizing m with
    | nil => rfl
    | cons id ids ih =>
      rw [List.foldl_cons, ih, lookup_sweepEntry]
      by_cases hi : i = id
      · rw [if_pos hi, if_pos (List.mem_cons.mpr (.inl hi)), Option.filter_filter]
        simp only [Bool.and_self, ite_self]
      · simp only [hi, if_false, List.mem_cons, false_or]
  rw [sweepEntries, hrun]
  split
  · rfl
  · next hi =>
    rw [AList.lookup_eq_none.mpr hi, Option.filter_none]

private theorem lookup_finishWorker (requests : Requests) (id i : UInt16) :
    (finishWorker requests id).lookup i
      = (requests.lookup i).map fun r ↦ if i = id then { r with workerActive := false } else r := by
  rw [finishWorker]
  by_cases hi : i = id
  · subst hi
    cases hr : requests.lookup i with
    | none => rw [hr, Option.map_none]
    | some r => simp only [AList.lookup_insert, Option.map_some, if_true]
  · simp only [if_neg hi, Option.map_id']
    split
    · rfl
    · exact AList.lookup_insert_ne hi

private theorem lookup_finishWorkers (ids : List UInt16) (requests : Requests) (i : UInt16) :
    (ids.foldl finishWorker requests).lookup i
      = (requests.lookup i).map fun r ↦
          if i ∈ ids then { r with workerActive := false } else r := by
  induction ids generalizing requests with
  | nil => simp only [List.foldl_nil, List.not_mem_nil, if_false, Option.map_id']
  | cons id ids ih =>
    rw [List.foldl_cons, ih, lookup_finishWorker, Option.map_map]
    refine Option.map_congr fun r _ ↦ ?_
    rw [Function.comp_apply]
    by_cases hi : i = id
    · simp [hi]
    · simp [hi]

/-- No connection waits for an arena, and the one at `fd` has these requests but for that of `id`.
-/
private def HasOthers (fd : ℤ) (id : UInt16) (m : Requests) (w : World) : Prop :=
  w.waitingConns = [] ∧ ∃ c, w.conns.lookup fd = some c ∧
    ∀ i, i ≠ id → c.requests.lookup i = m.lookup i

private theorem HasOthers.updateConn {fd : ℤ} {id : UInt16} {m : Requests} {w : World}
    (h : HasOthers fd id m w) (r : Request) :
    HasOthers fd id m (w.updateConn fd fun c ↦ { c with requests := c.requests.insert id r }) := by
  obtain ⟨hwaiting, c, hc, hothers⟩ := h
  rw [World.updateConn_of_some hc]
  refine ⟨hwaiting, _, (World.lookup_setConn fd _ fd).trans (if_pos rfl), fun i hi ↦ ?_⟩
  exact (AList.lookup_insert_ne hi).trans (hothers i hi)

private theorem HasOthers.finalizeRequest {fd : ℤ} {id : UInt16} {m : Requests} {w : World}
    (h : HasOthers fd id m w) (cfg : GlobalConfig) :
    HasOthers fd id m (finalizeRequest cfg fd id w) := by
  rw [FcgiConn.finalizeRequest]
  split
  · exact h
  · exact h.updateConn _

private theorem HasOthers.releaseRequest {fd : ℤ} {id : UInt16} {m : Requests} {w : World}
    (h : HasOthers fd id m w) (cfg : GlobalConfig) :
    HasOthers fd id m (releaseRequest cfg fd id w) := by
  have hdestroyed : HasOthers fd id m (destroyRequest fd id w) := by
    rw [destroyRequest]
    split
    · exact h
    · simp only
      split
      · exact h.updateConn _
      · exact h.updateConn _
  have hresumed : HasOthers fd id m
      (if (destroyRequest fd id w).acceptPaused && 0 < (destroyRequest fd id w).available then
        resumeAccept (destroyRequest fd id w) else destroyRequest fd id w) := by
    split
    · exact hdestroyed
    · exact hdestroyed
  rw [FcgiConn.releaseRequest, processWaitingConnections, hresumed.1]
  exact hresumed

private theorem HasOthers.eraseRequest {fd : ℤ} {id : UInt16} {m : Requests} {w : World}
    (h : HasOthers fd id m w) :
    (eraseRequest fd id w).waitingConns = [] ∧
      ∃ c, (eraseRequest fd id w).conns.lookup fd = some c ∧
        ∀ i, c.requests.lookup i = (m.erase id).lookup i := by
  obtain ⟨hwaiting, c, hc, hothers⟩ := h
  rw [FcgiConn.eraseRequest, World.updateConn_of_some hc]
  refine ⟨hwaiting, _, (World.lookup_setConn fd _ fd).trans (if_pos rfl), fun i ↦ ?_⟩
  by_cases hi : i = id
  · rw [hi, AList.lookup_erase, AList.lookup_erase]
  · rw [AList.lookup_erase_ne hi, AList.lookup_erase_ne hi, hothers i hi]

/-- One turn of the sweep of the event loop, when no connection waits for an arena. -/
private theorem requests_sweepRequest (cfg : GlobalConfig) {w : World} {fd : ℤ} {c : Connection}
    (hc : w.conns.lookup fd = some c) (hwaiting : w.waitingConns = []) (id : UInt16) :
    (sweepRequest cfg fd w id).waitingConns = [] ∧
      ∃ c', (sweepRequest cfg fd w id).conns.lookup fd = some c' ∧
        ∀ i, c'.requests.lookup i = (sweepEntry c.requests id).lookup i := by
  have hw : HasOthers fd id c.requests w := ⟨hwaiting, c, hc, fun _ _ ↦ rfl⟩
  rw [sweepRequest, hc, Option.bind_some, sweepEntry]
  cases hr : c.requests.lookup id with
  | none => exact ⟨hwaiting, c, hc, fun _ ↦ rfl⟩
  | some r =>
    simp only [Option.any_some, isOver]
    by_cases hactive : r.workerActive = true
    · simp only [hactive, if_true, Bool.not_true, Bool.false_and, Bool.false_eq_true, if_false]
      exact ⟨hwaiting, c, hc, fun _ ↦ rfl⟩
    rw [Bool.not_eq_true] at hactive
    by_cases hresponded : r.flags.responded = true
    · simp only [hactive, hresponded, Bool.false_eq_true, if_false, if_true, Bool.not_false,
        Bool.true_and, Bool.true_or]
      exact ((hw.finalizeRequest cfg).releaseRequest cfg).eraseRequest
    rw [Bool.not_eq_true] at hresponded
    simp only [hactive, hresponded, Bool.false_eq_true, if_false, Bool.not_false, Bool.true_and,
      Bool.false_or]
    split
    · exact (hw.releaseRequest cfg).eraseRequest
    · exact ⟨hwaiting, c, hc, fun _ ↦ rfl⟩

/-- **The sweep of the event loop**, when no connection waits for an arena, does to the map of its
connection what `sweepEntries` does. -/
theorem requests_sweep (cfg : GlobalConfig) {w : World} {fd : ℤ} {c : Connection}
    (hc : w.conns.lookup fd = some c) (hwaiting : w.waitingConns = []) :
    ∃ c', (sweep cfg fd w).conns.lookup fd = some c' ∧
      ∀ i, c'.requests.lookup i = (sweepEntries c.requests).lookup i := by
  have hrun (ids : List UInt16) (v : World) (c₁ : Connection) (m : Requests)
      (hv : v.waitingConns = []) (hc₁ : v.conns.lookup fd = some c₁)
      (hm : ∀ i, c₁.requests.lookup i = m.lookup i) :
      ∃ c', (ids.foldl (sweepRequest cfg fd) v).conns.lookup fd = some c' ∧
        ∀ i, c'.requests.lookup i = (ids.foldl sweepEntry m).lookup i := by
    induction ids generalizing v c₁ m with
    | nil => exact ⟨c₁, hc₁, hm⟩
    | cons id ids ih =>
      obtain ⟨hv', c', hc', hlookup⟩ := requests_sweepRequest cfg hc₁ hv id
      refine ih _ c' _ hv' hc' fun i ↦ ?_
      rw [hlookup, lookup_sweepEntry, lookup_sweepEntry, hm]
  have hids : requestIds fd w = c.requests.keys := by rw [requestIds, hc]
  rw [sweep, hids]
  exact hrun _ w c c.requests hwaiting hc fun _ ↦ rfl

/-! ## Until the sweep

The answered entry takes every record of its id and is never ready. Nothing is deferred, since the
id is known, so every whole record that has come is handled before the sweep. -/

/-- No record takes RESPONDED back. -/
theorem withholds_responded (limits : Limits) :
    Withholds limits fun c ↦ c.flags.responded = true := by
  constructor
  · intro rec body hbody c out h
    refine recordBody_invariant (Q := fun c ↦ c.flags.responded = true) hbody ?_ ?_ ?_ c out h
    · exact fun c f hgrow h ↦ hgrow.responded h
    · exact fun c name value _ _ _ h ↦ h
    · exact fun c content _ _ _ h ↦ h
  · exact fun h ↦ isReady_of_responded h

/-- Records of an answered request. -/
private theorem runRecords_of_responded {σ : Type*} (limits : Limits) (cb : Callbacks σ)
    {id : UInt16} {recs : List Record} (hids : ∀ rec ∈ recs, rec.requestId = id) {s : Machine σ}
    {r : Request} (hr : s.requests.lookup id = some r) (hresponded : r.flags.responded = true) :
    ∃ s' r', runRecords limits cb s recs = (s', []) ∧ s'.ext = s.ext ∧
      s'.requests.lookup id = some r' ∧ r'.flags.responded = true ∧
      r'.workerActive = r.workerActive := by
  induction recs generalizing s r with
  | nil => exact ⟨s, r, rfl, rfl, hr, hresponded, rfl⟩
  | cons rec recs ih =>
    have hid : rec.requestId = id := hids rec List.mem_cons_self
    have hids' : ∀ rec ∈ recs, rec.requestId = id := fun rec hrec ↦
      hids rec (List.mem_cons_of_mem _ hrec)
    cases hbody : recordBody limits rec with
    | none =>
      rw [runRecords_cons_next (processRecord_of_body_none hbody s)]
      exact ih hids' hr hresponded
    | some body =>
      subst hid
      have hcore := (withholds_responded limits).record hbody r.toRequestCore s.outBuf hresponded
      have hready := (withholds_responded limits).notReady hcore
      have hturn : touch cb rec.requestId body r s = { s with
          requests := s.requests.insert rec.requestId
            (r.withCore (body r.toRequestCore s.outBuf).1)
          outBuf := (body r.toRequestCore s.outBuf).2 } := by
        rw [touch]
        simp only [hready, Bool.false_eq_true, if_false]
      rw [runRecords_cons_next (processRecord_active hbody hr), hturn]
      exact ih (r := r.withCore (body r.toRequestCore s.outBuf).1) hids' (AList.lookup_insert _)
        hcore

variable {cfg : GlobalConfig} {id : UInt16} {s : Intake}

/-- A read in which every record is handled. -/
private theorem receive_of_runRecords (a : Arrival) {m : Machine (World × List Request)}
    (hrun : runRecords cfg.toLimits (watching (callbacks cfg a.io))
      ⟨s.requests, a.outBuf, (a.world, [])⟩ (recordFramer.frames (s.inBuf ++ a.data)) = (m, [])) :
    receive cfg s a =
      { requests := sweepEntries (a.finished.foldl finishWorker m.requests)
        inBuf := recordFramer.rest (s.inBuf ++ a.data)
        passed := s.passed ++ m.ext.2 } := by
  rw [receive, watchedCall, processBuffer_eq]
  simp only [hrun, if_true]

/-- A read while the answered entry is there. -/
private theorem receive_of_responded (a : Arrival) {r : Request}
    (hr : s.requests.lookup id = some r) (hresponded : r.flags.responded = true)
    (hids : ∀ rec ∈ recordFramer.frames (s.inBuf ++ a.data), rec.requestId = id) :
    (receive cfg s a).inBuf = recordFramer.rest (s.inBuf ++ a.data) ∧
      (receive cfg s a).passed = s.passed ∧
      ((r.workerActive = true ∧ id ∉ a.finished) →
        ∃ r', (receive cfg s a).requests.lookup id = some r' ∧ r'.flags.responded = true ∧
          r'.workerActive = true) ∧
      (¬(r.workerActive = true ∧ id ∉ a.finished) →
        (receive cfg s a).requests.lookup id = none) := by
  obtain ⟨m, r', hrun, hext, hr', hresponded', hactive⟩ :=
    runRecords_of_responded cfg.toLimits (watching (callbacks cfg a.io)) hids
      (s := ⟨s.requests, a.outBuf, (a.world, [])⟩) hr hresponded
  have hread := receive_of_runRecords a hrun
  have hlookup : (receive cfg s a).requests.lookup id
      = (some (if id ∈ a.finished then { r' with workerActive := false } else r')).filter
          fun r ↦ !isOver r := by
    rw [hread]
    simp only
    rw [lookup_sweepEntries, lookup_finishWorkers, hr', Option.map_some]
  refine ⟨by rw [hread], ?_, fun h ↦ ?_, fun h ↦ ?_⟩
  · rw [hread, hext, List.append_nil]
  · refine ⟨r', ?_, hresponded', hactive.trans h.1⟩
    rw [hlookup, if_neg h.2, Option.filter_some, isOver, hactive, h.1]
    rfl
  · rw [hlookup]
    split
    · rw [Option.filter_some, isOver]
      simp [hresponded']
    · next hnot =>
      have hidle : r'.workerActive = false := by
        rw [hactive]
        exact Bool.eq_false_iff.mpr fun hr ↦ h ⟨hr, hnot⟩
      rw [Option.filter_some, isOver]
      simp [hresponded', hidle]

/-- **Until the sweep.** Either no sweep finds the worker finished, and `on_request_ready` is not
called; or the first that does takes the entry away, and there has been no call up to then. -/
private theorem receives_of_responded {reads : List Arrival} {r : Request}
    (hr : s.requests.lookup id = some r) (hresponded : r.flags.responded = true)
    (hids : ∀ rec ∈ recordFramer.frames (s.inBuf ++ arrived reads), rec.requestId = id) :
    ((∀ before, before ≠ [] → before <+: reads → ¬Idle id r before) ∧
        (reads.foldl (receive cfg) s).passed = s.passed) ∨
      ∃ before after, reads = before ++ after ∧ before ≠ [] ∧ Idle id r before ∧
        (∀ before', before' ≠ [] → before' <+: reads → Idle id r before' → before <+: before') ∧
        (before.foldl (receive cfg) s).requests.lookup id = none ∧
        (before.foldl (receive cfg) s).inBuf = recordFramer.rest (s.inBuf ++ arrived before) ∧
        (before.foldl (receive cfg) s).passed = s.passed := by
  induction reads generalizing s r with
  | nil =>
    refine .inl ⟨fun before hne hprefix ↦ absurd (List.prefix_nil.mp hprefix) hne, rfl⟩
  | cons a reads ih =>
    rw [arrived, List.flatMap_cons, ← List.append_assoc, recordFramer.frames_append] at hids
    obtain ⟨hinBuf, hpassed, hstays, hgoes⟩ := receive_of_responded a hr hresponded
      fun rec hrec ↦ hids rec (List.mem_append_left _ hrec)
    by_cases hactive : r.workerActive = true ∧ id ∉ a.finished
    · obtain ⟨r', hr', hresponded', hactive'⟩ := hstays hactive
      have hidle (before : List Arrival) : Idle id r (a :: before) ↔ Idle id r' before := by
        simp [Idle, hactive.1, hactive', hactive.2]
      -- the first read leaves the entry where it is
      have hfirst {before : List Arrival} (hne : before ≠ []) ( hprefix : before <+: a :: reads)
          (h : Idle id r before) :
          ∃ before', before = a :: before' ∧ before' ≠ [] ∧ before' <+: reads ∧
            Idle id r' before' := by
        obtain ⟨b, before', rfl⟩ := List.exists_cons_of_ne_nil hne
        obtain ⟨rfl, hprefix'⟩ := List.cons_prefix_cons.mp hprefix
        rw [hidle] at h
        refine ⟨before', rfl, ?_, hprefix', h⟩
        rintro rfl
        simp [Idle, hactive'] at h
      have hih := ih hr' hresponded' fun rec hrec ↦ hids rec <| by
        rw [hinBuf] at hrec
        exact List.mem_append_right _ hrec
      rw [List.foldl_cons, hpassed] at *
      rcases hih with ⟨hnever, hsame⟩ | ⟨before, after, rfl, hne, h, hleast, hnone, hrest, hsame⟩
      · refine .inl ⟨fun before hne hprefix h ↦ ?_, hsame⟩
        obtain ⟨before', -, hne', hprefix', h'⟩ := hfirst hne hprefix h
        exact hnever before' hne' hprefix' h'
      · refine .inr ⟨a :: before, after, rfl, List.cons_ne_nil _ _, (hidle before).mpr h,
          fun before' hne' hprefix' h' ↦ ?_, hnone, ?_, hsame⟩
        · obtain ⟨before'', rfl, hne'', hprefix'', h''⟩ := hfirst hne' hprefix' h'
          exact List.cons_prefix_cons.mpr ⟨rfl, hleast before'' hne'' hprefix'' h''⟩
        · rw [List.foldl_cons, hrest, hinBuf, arrived, arrived, List.flatMap_cons,
            ← List.append_assoc, ← recordFramer.rest_append]
    · refine .inr ⟨[a], reads, rfl, List.cons_ne_nil _ _, ?_, fun before hne hprefix _ ↦ ?_,
        hgoes hactive, ?_, hpassed⟩
      · by_cases h : r.workerActive = true
        · have hmem : id ∈ a.finished := by
            by_contra hnot
            exact hactive ⟨h, hnot⟩
          exact .inr ⟨a, List.mem_cons_self, hmem⟩
        · exact .inl (Bool.eq_false_iff.mpr h)
      · obtain ⟨b, before', rfl⟩ := List.exists_cons_of_ne_nil hne
        obtain ⟨rfl, -⟩ := List.cons_prefix_cons.mp hprefix
        exact List.cons_prefix_cons.mpr ⟨rfl, List.nil_prefix⟩
      · rw [List.foldl_cons, List.foldl_nil, hinBuf, arrived, List.flatMap_cons, List.flatMap_nil,
          List.append_nil]

/-! ## Behind the sweep

The first record behind the sweep allocates a request. `Gathered` says what the records of `q` that
have come since, `done`, have made of it. -/

/-- The pairs in a record. -/
def recordPairs (rec : Record) : List (Bytes × Bytes) :=
  if rec.type = FCGI_PARAMS then pairsOf rec.content.length rec.content else []

/-- The part of the body in a record. -/
def recordInput (rec : Record) : Bytes := if rec.type = FCGI_STDIN then rec.content else []

variable {q : EncodedRequest}

private theorem recordPairs_params (id : UInt16) (p : ParamsRecord) :
    recordPairs (p.record id) = p.pairs.map fun pair ↦ (pair.name, pair.value) :=
  pairsOf_encode p.pairs le_rfl

private theorem flatMap_recordPairs (q : EncodedRequest) (id : UInt16) :
    (q.openRecords id).flatMap recordPairs = q.pairs := by
  have hparams : (q.params.map (ParamsRecord.record id)).flatMap recordPairs = q.pairs := by
    rw [List.flatMap_map, EncodedRequest.pairs, pairsOfRecords]
    exact congrArg (q.params.flatMap ·) (funext fun p ↦ recordPairs_params id p)
  have hstdin : (q.stdin.map (StdinRecord.record id)).flatMap recordPairs = [] := by
    rw [List.flatMap_map, List.flatMap_eq_nil_iff]
    exact fun _ _ ↦ rfl
  have hbegin : recordPairs (q.beginRecord id) = [] := rfl
  have hend : recordPairs (q.paramsEnd id) = [] := rfl
  rw [EncodedRequest.openRecords, List.flatMap_cons, List.flatMap_append, List.flatMap_cons, hbegin,
    hparams, hend, hstdin, List.nil_append, List.append_nil, List.append_nil]

/-- Before the empty PARAMS record there is none of the body, and behind it there is all of it. -/
private theorem recordInput_of_append {old done : List Record}
    (h : old ++ done = q.openRecords id) :
    (q.paramsEnd id ∉ old ∧ q.paramsEnd id ∈ done ∧ done.flatMap recordInput = q.body) ∨
      (q.paramsEnd id ∈ old ∧ q.paramsEnd id ∉ done) := by
  have hbefore : ∀ rec ∈ q.beginRecord id :: q.params.map (ParamsRecord.record id),
      recordInput rec = [] ∧ rec ≠ q.paramsEnd id := by
    intro rec hrec
    rcases List.mem_cons.mp hrec with rfl | hrec
    · refine ⟨rfl, fun heq ↦ ?_⟩
      exact absurd (congrArg Record.type heq) (show FCGI_BEGIN_REQUEST ≠ FCGI_PARAMS by decide)
    · obtain ⟨p, -, rfl⟩ := List.mem_map.mp hrec
      refine ⟨rfl, fun heq ↦ ?_⟩
      obtain ⟨pair, pairs, hpairs⟩ := List.exists_cons_of_ne_nil p.pairs_ne_nil
      have hcontent : p.pairs.flatMap EncodedPair.encode = [] := congrArg Record.content heq
      rw [hpairs, List.flatMap_cons, List.append_eq_nil_iff] at hcontent
      exact pair.encode_ne_nil hcontent.1
  have hbehind : q.paramsEnd id ∉ q.stdin.map (StdinRecord.record id) := by
    intro hmem
    obtain ⟨p, -, heq⟩ := List.mem_map.mp hmem
    exact absurd (congrArg Record.type heq) (show FCGI_STDIN ≠ FCGI_PARAMS by decide)
  have hbody : (q.stdin.map (StdinRecord.record id)).flatMap recordInput = q.body := by
    rw [List.flatMap_map, EncodedRequest.body]
    rfl
  have hopen : q.openRecords id = (q.beginRecord id :: q.params.map (ParamsRecord.record id)) ++
      q.paramsEnd id :: q.stdin.map (StdinRecord.record id) := rfl
  rw [hopen] at h
  rcases List.append_eq_append_iff.mp h with ⟨x, hx, rfl⟩ | ⟨x, rfl, hx⟩
  · refine .inl ⟨fun hmem ↦ ?_, List.mem_append_right _ List.mem_cons_self, ?_⟩
    · exact (hbefore _ (hx ▸ List.mem_append_left _ hmem)).2 rfl
    · have hnone : x.flatMap recordInput = [] := List.flatMap_eq_nil_iff.mpr fun rec hrec ↦
        (hbefore rec (hx ▸ List.mem_append_right _ hrec)).1
      have hend : recordInput (q.paramsEnd id) = [] := rfl
      rw [List.flatMap_append, List.flatMap_cons, hnone, hend, hbody, List.nil_append,
        List.nil_append]
  · cases x with
    | nil =>
      rw [List.append_nil, List.nil_append] at *
      refine .inl ⟨fun hmem ↦ (hbefore _ hmem).2 rfl, ?_, ?_⟩
      · rw [← hx]
        exact List.mem_cons_self
      · have hend : recordInput (q.paramsEnd id) = [] := rfl
        rw [← hx, List.flatMap_cons, hend, hbody, List.nil_append]
    | cons rec x =>
      rw [List.cons_append] at hx
      obtain ⟨rfl, htail⟩ := List.cons.inj hx
      refine .inr ⟨List.mem_append_right _ List.mem_cons_self, fun hmem ↦ hbehind ?_⟩
      rw [htail]
      exact List.mem_append_right _ hmem

/-- What the open records `done` of `q` have made of a request that was allocated for them. -/
structure Gathered (q : EncodedRequest) (id : UInt16) (done : List Record) (c : RequestCore) : Prop
    where
  failed : c.flags.failed = false
  aborted : c.flags.aborted = false
  responded : c.flags.responded = false
  paramsComplete : c.flags.paramsComplete = true ↔ q.paramsEnd id ∈ done
  inputComplete : c.flags.inputComplete = false
  paramsBytes : c.paramsBytes = pairsSize (done.flatMap recordPairs)
  bodyBytes : c.bodyBytes = (done.flatMap recordInput).length
  body : c.body = done.flatMap recordInput
  env : ∀ name value, c.env.find name = some (.string value) → (name, value) ∈ q.pairs

/-- A fresh request has no strings in its environment. -/
private theorem gathered_nil {cfg : GlobalConfig} {io : ConnRef} {w : World} {r : Request}
    (h : (allocateRequest cfg io id w).1 = some r) : Gathered q id [] r.toRequestCore := by
  obtain ⟨i, rfl⟩ := allocateRequest_eq_some h
  refine ⟨rfl, rfl, rfl, ⟨fun h ↦ absurd h Bool.false_ne_true, fun h ↦ absurd h List.not_mem_nil⟩,
    rfl, rfl, rfl, rfl, fun name value hfind ↦ ?_⟩
  simp only [Request.ofArena] at hfind
  by_cases hname : name = ascii "DBG_ARENA"
  · rw [hname, DynamicVariable.find_assign_self] at hfind
    cases hfind
  · rw [DynamicVariable.find_assign_of_ne _ _ hname] at hfind
    cases hfind

/-- A record has added what is in it. -/
private theorem Gathered.snoc {done : List Record} {c c' : RequestCore} (h : Gathered q id done c)
    (rec : Record) {paramsComplete : Bool} {initialized keepConnection : Bool}
    (hflags : c'.flags = { c.flags with
      paramsComplete := paramsComplete
      initialized := initialized
      keepConnection := keepConnection })
    (hcomplete : paramsComplete = true ↔ c.flags.paramsComplete = true ∨ q.paramsEnd id = rec)
    (hparams : c'.paramsBytes = c.paramsBytes + pairsSize (recordPairs rec))
    (hbytes : c'.bodyBytes = c.bodyBytes + (recordInput rec).length)
    (hbody : c'.body = c.body ++ recordInput rec)
    (henv : ∀ name value, c'.env.find name = some (.string value) → (name, value) ∈ q.pairs) :
    Gathered q id (done ++ [rec]) c' := by
  constructor
  · rw [hflags]
    exact h.failed
  · rw [hflags]
    exact h.aborted
  · rw [hflags]
    exact h.responded
  · rw [hflags, List.mem_append, List.mem_singleton, ← h.paramsComplete]
    exact hcomplete
  · rw [hflags]
    exact h.inputComplete
  · rw [List.flatMap_append, List.flatMap_singleton, pairsSize_append, hparams, h.paramsBytes]
  · rw [List.flatMap_append, List.flatMap_singleton, List.length_append, hbytes, h.bodyBytes]
  · rw [List.flatMap_append, List.flatMap_singleton, hbody, h.body]
  · exact henv

/-- An open record of `q` adds to the request what is in it. -/
private theorem Gathered.record {limits : Limits} {done : List Record} {c : RequestCore}
    (h : Gathered q id done c) {rec : Record} (hrec : rec ∈ q.openRecords id)
    (hparams : pairsSize ((done ++ [rec]).flatMap recordPairs) ≤ limits.maxParamsBytes)
    (hstdin : ((done ++ [rec]).flatMap recordInput).length ≤ limits.maxStdinBytes) (out : Bytes) :
    ∃ body c', recordBody limits rec = some body ∧ body c out = (c', out) ∧
      Gathered q id (done ++ [rec]) c' := by
  rw [List.flatMap_append, List.flatMap_singleton, pairsSize_append, ← h.paramsBytes] at hparams
  rw [List.flatMap_append, List.flatMap_singleton, List.length_append, ← h.bodyBytes] at hstdin
  have hother (hne : q.paramsEnd id ≠ rec) :
      c.flags.paramsComplete = true ↔ c.flags.paramsComplete = true ∨ q.paramsEnd id = rec := by
    simp only [hne, or_false]
  have hmem := hrec
  rw [EncodedRequest.openRecords, List.mem_cons, List.mem_append, List.mem_cons] at hrec
  rcases hrec with rfl | hrec | rfl | hrec
  · -- BEGIN_REQUEST
    have hbody : recordBody limits (q.beginRecord id)
        = some fun r out ↦ (beginRequest q.beginContent r, out) := by
      have htype : (q.beginRecord id).type = FCGI_BEGIN_REQUEST := rfl
      have hlen : beginRequestBodySize ≤ (q.beginRecord id).content.length :=
        q.length_beginContent.ge
      rw [recordBody, if_pos htype, if_pos hlen]
      rfl
    have hne : q.paramsEnd id ≠ q.beginRecord id := fun heq ↦
      absurd (congrArg Record.type heq) (show FCGI_PARAMS ≠ FCGI_BEGIN_REQUEST by decide)
    exact ⟨_, beginRequest q.beginContent c, hbody, rfl,
      h.snoc _ rfl (hother hne) rfl rfl (List.append_nil _).symm h.env⟩
  · -- PARAMS with pairs
    obtain ⟨p, hp, rfl⟩ := List.mem_map.mp hrec
    have hne : q.paramsEnd id ≠ p.record id := fun heq ↦ by
      have hcontent : [] = p.pairs.flatMap EncodedPair.encode := congrArg Record.content heq
      obtain ⟨pair, pairs, hpairs⟩ := List.exists_cons_of_ne_nil p.pairs_ne_nil
      rw [hpairs, List.flatMap_cons] at hcontent
      exact pair.encode_ne_nil (List.append_eq_nil_iff.mp hcontent.symm).1
    have hbody : recordBody limits (p.record id)
        = some (paramsRecord limits (p.pairs.flatMap EncodedPair.encode)) := rfl
    have hpairs : recordPairs (p.record id) ⊆ q.pairs := by
      rw [← flatMap_recordPairs q id]
      exact fun x hx ↦ List.mem_flatMap.mpr ⟨_, hmem, hx⟩
    rw [recordPairs_params] at hparams hpairs
    refine ⟨_, _, hbody, paramsRecord_encode limits p.pairs_ne_nil c out h.failed hparams,
      h.snoc _ rfl (hother hne) ?_ rfl (List.append_nil _).symm fun name value hfind ↦ ?_⟩
    · rw [recordPairs_params]
      rfl
    · rcases find_assignPairs_eq_some hfind with hfind | ⟨value', hvalue, heq⟩
      · exact h.env name value hfind
      · obtain rfl := DynamicVariable.string.inj heq
        exact hpairs hvalue
  · -- the empty PARAMS
    have hbody : recordBody limits (q.paramsEnd id) = some (paramsRecord limits []) := rfl
    exact ⟨_, { c with flags := { c.flags with paramsComplete := true } }, hbody, rfl,
      h.snoc _ rfl (iff_of_true rfl (.inr rfl)) rfl rfl (List.append_nil _).symm h.env⟩
  · -- STDIN with some of the body
    obtain ⟨p, -, rfl⟩ := List.mem_map.mp hrec
    have hne : q.paramsEnd id ≠ p.record id := fun heq ↦
      absurd (congrArg Record.type heq) (show FCGI_PARAMS ≠ FCGI_STDIN by decide)
    have hbody : recordBody limits (p.record id) = some (stdinRecord limits p.content) := rfl
    exact ⟨_, _, hbody, stdinRecord_of_le limits p.content_ne_nil c out h.failed hstdin,
      h.snoc _ rfl (hother hne) rfl rfl rfl h.env⟩

/-- Some records in a row hold no more than all of them. -/
private theorem sizes_le_of_infix {recs : List Record} (h : recs <:+: q.openRecords id) :
    pairsSize (recs.flatMap recordPairs) ≤ pairsSize q.pairs ∧
      (recs.flatMap recordInput).length ≤ q.body.length := by
  obtain ⟨before, behind, hall⟩ := h
  have hinput : (q.openRecords id).flatMap recordInput = q.body := by
    rcases recordInput_of_append (List.nil_append (q.openRecords id)) with ⟨-, -, h⟩ | ⟨h, -⟩
    · exact h
    · exact absurd h List.not_mem_nil
  rw [← flatMap_recordPairs q id, ← hinput, ← hall]
  simp only [List.flatMap_append, pairsSize_append, List.length_append]
  omega

private theorem requestId_of_mem_openRecords {rec : Record} (h : rec ∈ q.openRecords id) :
    rec.requestId = id := by
  rw [EncodedRequest.openRecords, List.mem_cons, List.mem_append, List.mem_cons, List.mem_map,
    List.mem_map] at h
  rcases h with rfl | ⟨p, -, rfl⟩ | rfl | ⟨p, -, rfl⟩
  · rfl
  · rfl
  · rfl
  · rfl

section Turns

variable {σ : Type*} {limits : Limits} {cb : Callbacks σ} {m : Machine σ}

variable (cb) in
/-- Open records of a request that is there. -/
private theorem runRecords_of_gathered (hparams : pairsSize q.pairs ≤ limits.maxParamsBytes)
    (hstdin : q.body.length ≤ limits.maxStdinBytes) {done recs : List Record}
    (hrecs : done ++ recs <:+: q.openRecords id) {r : Request} (hr : m.requests.lookup id = some r)
    (hgathered : Gathered q id done r.toRequestCore) :
    ∃ m' r', (∀ more, runRecords limits cb m (recs ++ more) = runRecords limits cb m' more) ∧
      m'.ext = m.ext ∧ m'.requests.lookup id = some r' ∧
      Gathered q id (done ++ recs) r'.toRequestCore := by
  induction recs generalizing m r done with
  | nil => exact ⟨m, r, fun _ ↦ rfl, rfl, hr, (List.append_nil done).symm ▸ hgathered⟩
  | cons rec recs ih =>
    rw [List.append_cons] at hrecs
    have hrec : rec ∈ q.openRecords id :=
      hrecs.subset (List.mem_append_left _ (List.mem_append_right _ (List.mem_singleton.mpr rfl)))
    have hsizes := sizes_le_of_infix ((List.prefix_append _ _).isInfix.trans hrecs)
    obtain ⟨body, core, hbody, hcore, hgathered'⟩ := hgathered.record hrec (hsizes.1.trans hparams)
      (hsizes.2.trans hstdin) m.outBuf
    have hid := requestId_of_mem_openRecords hrec
    subst hid
    have hready : isReady core.flags = false := by
      rw [isReady, hgathered'.inputComplete, Bool.and_false]
    have hturn : touch cb rec.requestId body r m
        = { m with requests := m.requests.insert rec.requestId (r.withCore core) } := by
      rw [touch, hcore]
      simp only [hready, Bool.false_eq_true, if_false]
    obtain ⟨m', r', hrun, hext, hr', hgathered''⟩ := ih (r := r.withCore core)
      (m := { m with requests := m.requests.insert rec.requestId (r.withCore core) }) hrecs
      (AList.lookup_insert _) hgathered'
    refine ⟨m', r', fun more ↦ ?_, hext, hr', (List.append_cons done rec recs).symm ▸ hgathered''⟩
    rw [List.cons_append, runRecords_cons_next (processRecord_active hbody hr), hturn]
    exact hrun more

variable (limits cb) in
/-- The last record of a request that is there. It makes the request ready exactly if the empty
PARAMS record has reached it. -/
private theorem runRecords_stdinEnd {m : Machine (σ × List Request)} {done : List Record}
    {r : Request} (hr : m.requests.lookup id = some r)
    (hgathered : Gathered q id done r.toRequestCore) :
    ∃ m', runRecords limits (watching cb) m [q.stdinEnd id] = (m', []) ∧
      (q.paramsEnd id ∉ done → m'.ext.2 = m.ext.2) ∧
      (q.paramsEnd id ∈ done → ∃ r' : Request, m'.ext.2 = m.ext.2 ++ [r'] ∧ r'.body = r.body ∧
        r'.env = r.env) := by
  have hbody : recordBody limits (q.stdinEnd id) = some (stdinRecord limits []) := rfl
  set core : RequestCore := { r.toRequestCore with
    flags := { r.flags with inputComplete := true } } with hcore
  have hready : isReady core.flags = r.flags.paramsComplete := by
    rw [isReady, hcore]
    simp [hgathered.failed, hgathered.responded]
  have hended : stdinRecord limits [] r.toRequestCore m.outBuf = (core, m.outBuf) := rfl
  rw [runRecords_cons_next (processRecord_active hbody hr), runRecords_nil, touch, hended]
  refine ⟨_, rfl, fun hnot ↦ ?_, fun hmem ↦ ⟨r.withCore core, ?_, rfl, rfl⟩⟩
  · have hincomplete : r.flags.paramsComplete = false :=
      Bool.eq_false_iff.mpr fun h ↦ hnot (hgathered.paramsComplete.mp h)
    simp only [hready, hincomplete, Bool.false_eq_true, if_false]
  · simp only [hready, hgathered.paramsComplete.mpr hmem, if_true]
    rfl

end Turns

/-- Behind the sweep, with `done` handled since: nothing has come, or the request is there. -/
private def Begun (q : EncodedRequest) (id : UInt16) (done : List Record) (requests : Requests) :
    Prop :=
  (done = [] ∧ requests.lookup id = none) ∨
    ∃ r, requests.lookup id = some r ∧ Gathered q id done r.toRequestCore

/-- The sweep spares an open request. -/
private theorem Begun.swept {done : List Record} {requests : Requests}
    (h : Begun q id done requests) (ids : List UInt16) :
    Begun q id done (sweepEntries (ids.foldl finishWorker requests)) := by
  rw [Begun, lookup_sweepEntries, lookup_finishWorkers]
  rcases h with ⟨hdone, hnone⟩ | ⟨r, hr, hgathered⟩
  · exact .inl ⟨hdone, by rw [hnone]; rfl⟩
  · refine .inr ⟨if id ∈ ids then { r with workerActive := false } else r, ?_, ?_⟩
    · rw [hr, Option.map_some, Option.filter_some, isOver]
      split
      · simp [hgathered.responded, hgathered.failed, hgathered.aborted]
      · simp [hgathered.responded, hgathered.failed, hgathered.aborted]
    · split
      · exact hgathered
      · exact hgathered

/-- The first record behind the sweep gets a request of its own. -/
private theorem Begun.granted {done : List Record} {requests : Requests}
    (h : Begun q id done requests) {a : Arrival} (hgrants : a.Grants cfg id) (rec : Record)
    (hbody : recordBody cfg.toLimits rec ≠ none) (hid : rec.requestId = id) :
    ∃ (m : Machine (World × List Request)) (r : Request),
      (∀ recs, runRecords cfg.toLimits (watching (callbacks cfg a.io))
          ⟨requests, a.outBuf, (a.world, [])⟩ (rec :: recs)
        = runRecords cfg.toLimits (watching (callbacks cfg a.io)) m (rec :: recs)) ∧
      m.ext.2 = [] ∧ m.requests.lookup id = some r ∧ Gathered q id done r.toRequestCore := by
  rcases h with ⟨rfl, hnone⟩ | ⟨r, hr, hgathered⟩
  · subst hid
    obtain ⟨r, hr⟩ := Option.isSome_iff_exists.mp hgrants
    obtain ⟨body, hbody⟩ := Option.ne_none_iff_exists'.mp hbody
    have halloc : (watching (callbacks cfg a.io)).allocateRequest rec.requestId (a.world, [])
        = (some r, ((allocateRequest cfg a.io rec.requestId a.world).2, [])) := by
      rw [watching, callbacks]
      simp only [hr]
    refine ⟨⟨requests.insert rec.requestId r, a.outBuf,
      ((allocateRequest cfg a.io rec.requestId a.world).2, [])⟩, r, fun recs ↦ ?_, rfl,
      AList.lookup_insert _, gathered_nil hr⟩
    rw [runRecords_cons_next (processRecord_allocated hbody hnone halloc),
      runRecords_cons_next (processRecord_active hbody (AList.lookup_insert _))]
  · exact ⟨_, r, fun _ ↦ rfl, rfl, hr, hgathered⟩

private theorem recordBody_ne_none_of_mem_openRecords {limits : Limits} {rec : Record}
    (h : rec ∈ q.openRecords id) : recordBody limits rec ≠ none := by
  rw [EncodedRequest.openRecords, List.mem_cons, List.mem_append, List.mem_cons, List.mem_map,
    List.mem_map] at h
  rcases h with rfl | ⟨p, -, rfl⟩ | rfl | ⟨p, -, rfl⟩
  · have htype : (q.beginRecord id).type = FCGI_BEGIN_REQUEST := rfl
    have hlen : beginRequestBodySize ≤ (q.beginRecord id).content.length :=
      q.length_beginContent.ge
    rw [recordBody, if_pos htype, if_pos hlen]
    exact Option.some_ne_none _
  · exact Option.some_ne_none _
  · exact Option.some_ne_none _
  · exact Option.some_ne_none _

section Fits

variable (hparams : pairsSize q.pairs ≤ cfg.maxParamsBytes)
  (hstdin : q.body.length ≤ cfg.maxStdinBytes)

include hparams hstdin

/-- A read that brings some of the open records. -/
private theorem Begun.receive {done : List Record} (h : Begun q id done s.requests) {a : Arrival}
    (hgrants : a.Grants cfg id)
    (hrecs : done ++ recordFramer.frames (s.inBuf ++ a.data) <:+: q.openRecords id) :
    (receive cfg s a).inBuf = recordFramer.rest (s.inBuf ++ a.data) ∧
      (receive cfg s a).passed = s.passed ∧
      Begun q id (done ++ recordFramer.frames (s.inBuf ++ a.data)) (receive cfg s a).requests := by
  cases hframes : recordFramer.frames (s.inBuf ++ a.data) with
  | nil =>
    rw [receive_of_runRecords a (m := ⟨s.requests, a.outBuf, (a.world, [])⟩) (by rw [hframes]; rfl)]
    refine ⟨rfl, List.append_nil _, ?_⟩
    rw [List.append_nil]
    exact h.swept a.finished
  | cons rec recs =>
    rw [hframes] at hrecs
    have hrec : rec ∈ q.openRecords id :=
      hrecs.subset (List.mem_append_right _ List.mem_cons_self)
    obtain ⟨m, r, hstart, hext, hr, hgathered⟩ := h.granted hgrants rec
      (recordBody_ne_none_of_mem_openRecords hrec) (requestId_of_mem_openRecords hrec)
    obtain ⟨m', r', hrun, hext', hr', hgathered'⟩ := runRecords_of_gathered
      (watching (callbacks cfg a.io)) hparams hstdin hrecs hr hgathered
    have hall : runRecords cfg.toLimits (watching (callbacks cfg a.io))
        ⟨s.requests, a.outBuf, (a.world, [])⟩ (rec :: recs) = (m', []) := by
      have hmore := hrun []
      rw [List.append_nil, runRecords_nil] at hmore
      rw [hstart, hmore]
    rw [receive_of_runRecords a (by rw [hframes, hall])]
    refine ⟨rfl, ?_, Begun.swept (.inr ⟨r', hr', hgathered'⟩) a.finished⟩
    rw [hext', hext, List.append_nil]

/-- The read that brings the last record. -/
private theorem Begun.receive_stdinEnd {done recs : List Record} (h : Begun q id done s.requests)
    {a : Arrival} (hgrants : a.Grants cfg id) (hrecs : done ++ recs <:+: q.openRecords id)
    (hframes : recordFramer.frames (s.inBuf ++ a.data) = recs ++ [q.stdinEnd id]) :
    (FcgiConn.receive cfg s a).inBuf = recordFramer.rest (s.inBuf ++ a.data) ∧
      (q.paramsEnd id ∉ done ++ recs → (FcgiConn.receive cfg s a).passed = s.passed) ∧
      (q.paramsEnd id ∈ done ++ recs → ∃ r : Request,
        (FcgiConn.receive cfg s a).passed = s.passed ++ [r] ∧
          r.body = (done ++ recs).flatMap recordInput ∧
          ∀ name value, r.env.find name = some (.string value) → (name, value) ∈ q.pairs) := by
  obtain ⟨m, r, hstart, hext, hr, hgathered⟩ : ∃ (m : Machine (World × List Request)) (r : Request),
      runRecords cfg.toLimits (watching (callbacks cfg a.io))
          ⟨s.requests, a.outBuf, (a.world, [])⟩ (recs ++ [q.stdinEnd id])
        = runRecords cfg.toLimits (watching (callbacks cfg a.io)) m [q.stdinEnd id] ∧
      m.ext.2 = [] ∧ m.requests.lookup id = some r ∧
      Gathered q id (done ++ recs) r.toRequestCore := by
    cases recs with
    | nil =>
      obtain ⟨m, r, hstart, hext, hr, hgathered⟩ := h.granted hgrants (q.stdinEnd id)
        (Option.some_ne_none _) rfl
      exact ⟨m, r, hstart [], hext, hr, (List.append_nil done).symm ▸ hgathered⟩
    | cons rec recs =>
      have hrec : rec ∈ q.openRecords id :=
        hrecs.subset (List.mem_append_right _ List.mem_cons_self)
      obtain ⟨m, r, hstart, hext, hr, hgathered⟩ := h.granted hgrants rec
        (recordBody_ne_none_of_mem_openRecords hrec) (requestId_of_mem_openRecords hrec)
      obtain ⟨m', r', hrun, hext', hr', hgathered'⟩ := runRecords_of_gathered
        (watching (callbacks cfg a.io)) hparams hstdin hrecs hr hgathered
      exact ⟨m', r', (hstart _).trans (hrun _), (congrArg Prod.snd hext').trans hext, hr',
        hgathered'⟩
  obtain ⟨m', hrun, hsilent, hcalled⟩ := runRecords_stdinEnd cfg.toLimits
    (callbacks cfg a.io) hr hgathered
  rw [receive_of_runRecords a (by rw [hframes, hstart, hrun])]
  refine ⟨rfl, fun hnot ↦ ?_, fun hmem ↦ ?_⟩
  · rw [hsilent hnot, hext, List.append_nil]
  · obtain ⟨r', hr', hbody, henv⟩ := hcalled hmem
    refine ⟨r', ?_, hbody.trans hgathered.body, henv ▸ hgathered.env⟩
    rw [hr', hext, List.nil_append]

end Fits

/-- Nothing more arrives. -/
private theorem receives_nothing {reads : List Arrival}
    (hframes : recordFramer.frames (s.inBuf ++ arrived reads) = []) :
    (reads.foldl (receive cfg) s).passed = s.passed := by
  induction reads generalizing s with
  | nil => rfl
  | cons a reads ih =>
    rw [arrived, List.flatMap_cons, ← List.append_assoc, recordFramer.frames_append,
      List.append_eq_nil_iff] at hframes
    have hstep : receive cfg s a = _ := receive_of_runRecords a
      (m := ⟨s.requests, a.outBuf, (a.world, [])⟩) (by rw [hframes.1]; rfl)
    rw [List.foldl_cons, ih (by rw [hstep]; exact hframes.2), hstep]
    exact List.append_nil _

/-- **Behind the sweep.** The rest of the request causes one call if the empty PARAMS record is in
it, and none otherwise. -/
private theorem receives_of_begun (hparams : pairsSize q.pairs ≤ cfg.maxParamsBytes)
    (hstdin : q.body.length ≤ cfg.maxStdinBytes) {reads : List Arrival}
    (hgrants : ∀ a ∈ reads, a.Grants cfg id) {done : List Record} (recs : List Record)
    (h : Begun q id done s.requests) (hbuf : recordFramer.next s.inBuf = none)
    (hrecs : done ++ recs <:+: q.openRecords id)
    (hframes : recordFramer.frames (s.inBuf ++ arrived reads) = recs ++ [q.stdinEnd id]) :
    (q.paramsEnd id ∉ done ++ recs → (reads.foldl (receive cfg) s).passed = s.passed) ∧
      (q.paramsEnd id ∈ done ++ recs → ∃ r : Request,
        (reads.foldl (receive cfg) s).passed = s.passed ++ [r] ∧
          r.body = (done ++ recs).flatMap recordInput ∧
          ∀ name value, r.env.find name = some (.string value) → (name, value) ∈ q.pairs) := by
  induction reads generalizing s done recs with
  | nil =>
    rw [arrived, List.flatMap_nil, List.append_nil, Framer.frames_of_none hbuf] at hframes
    exact absurd hframes.symm (List.append_ne_nil_of_right_ne_nil _ (List.cons_ne_nil _ _))
  | cons a reads ih =>
    have ha := hgrants a List.mem_cons_self
    have hgrants' : ∀ a ∈ reads, a.Grants cfg id := fun b hb ↦
      hgrants b (List.mem_cons_of_mem a hb)
    rw [arrived, List.flatMap_cons, ← List.append_assoc, recordFramer.frames_append] at hframes
    rw [List.foldl_cons]
    rcases List.eq_nil_or_concat (recordFramer.frames
      (recordFramer.rest (s.inBuf ++ a.data) ++ reads.flatMap Arrival.data)) with
      hlast | ⟨recs', rec, hlater⟩
    · -- the last record is among those of this read
      rw [hlast, List.append_nil] at hframes
      obtain ⟨hinBuf, hsilent, hcalled⟩ := h.receive_stdinEnd hparams hstdin ha hrecs hframes
      rw [receives_nothing (by rw [hinBuf]; exact hlast)]
      exact ⟨hsilent, hcalled⟩
    · rw [List.concat_eq_append] at hlater
      rw [hlater, ← List.append_assoc] at hframes
      obtain ⟨rfl, hrec⟩ := List.append_inj' hframes rfl
      obtain ⟨hinBuf, hpassed, hbegun⟩ := h.receive hparams hstdin ha <| by
        rw [← List.append_assoc] at hrecs
        exact (List.prefix_append _ _).isInfix.trans hrecs
      have hih := ih hgrants' recs' hbegun (by rw [hinBuf]; exact recordFramer.next_rest _)
        (by rwa [List.append_assoc]) (by rw [hinBuf, arrived, hlater, hrec])
      rwa [hpassed, List.append_assoc] at hih

/-! ## When a reused id starts fresh

The two halves meet at the first sweep that takes the old entry away. Whether there is one in time
is a matter of the cuts and of the worker, and nothing else in the requests map has a say in it. -/

/-- **A reused id starts fresh exactly if a sweep is in time.** The records of a new request on the
id of an answered one, cut in any way, lead to one call with nothing but their pairs and their body
exactly if a sweep finds the worker of the old request finished before the empty PARAMS record has
come, given that `allocate_request` does not refuse. -/
theorem startsFresh_iff_sweptInTime (cfg : GlobalConfig) {requests : Requests} {id : UInt16}
    {r : Request} (hr : requests.lookup id = some r) (hresponded : r.flags.responded = true)
    {q : EncodedRequest} (hparams : pairsSize q.pairs ≤ cfg.maxParamsBytes)
    (hstdin : q.body.length ≤ cfg.maxStdinBytes) {reads : List Arrival} (hreads : Brings id q reads)
    (hgrants : ∀ a ∈ reads, a.Grants cfg id) :
    StartsFresh cfg requests q reads ↔ SweptInTime id r q reads := by
  have hframes : recordFramer.frames (arrived reads) = q.openRecords id ++ [q.stdinEnd id] := by
    rw [hreads]
    exact frames_flatMap_encode _
  have hids : ∀ rec ∈ recordFramer.frames ([] ++ arrived reads), rec.requestId = id := by
    intro rec hrec
    rw [List.nil_append, hframes, List.mem_append, List.mem_singleton] at hrec
    rcases hrec with hrec | rfl
    · exact requestId_of_mem_openRecords hrec
    · rfl
  have hnocall {passed : List Request} (h : passed = []) (hpassed : ∃ r : Request, passed = [r] ∧
      r.body = q.body ∧ ∀ name value, r.env.find name = some (.string value) →
        (name, value) ∈ q.pairs) : False := by
    obtain ⟨r, hr, -⟩ := hpassed
    exact List.cons_ne_nil _ _ (hr.symm.trans h)
  rcases receives_of_responded (s := ⟨requests, [], []⟩) hr hresponded hids with
    ⟨hnever, hsame⟩ | ⟨before, after, rfl, hne, hidle, hleast, hnone, hinBuf, hsame⟩
  · -- the old entry takes everything
    refine iff_of_false (hnocall hsame) ?_
    rintro ⟨before, hne, hprefix, hidle, -⟩
    exact hnever before hne hprefix hidle
  rw [List.nil_append] at hinBuf
  have harrived : arrived (before ++ after) = arrived before ++ arrived after :=
    List.flatMap_append
  rw [harrived, recordFramer.frames_append] at hframes
  -- no sweep takes the entry away before this one
  have hswept : SweptInTime id r q (before ++ after) ↔
      q.paramsEnd id ∉ recordFramer.frames (arrived before) := by
    refine ⟨?_, fun h ↦ ⟨before, hne, List.prefix_append _ _, hidle, h⟩⟩
    rintro ⟨before', hne', hprefix', hidle', hnot⟩ hmem
    obtain ⟨more, rfl⟩ := hleast before' hne' hprefix' hidle'
    refine hnot ?_
    rw [arrived, List.flatMap_append, recordFramer.frames_append]
    exact List.mem_append_left _ hmem
  rw [hswept, StartsFresh, List.foldl_append]
  rcases List.eq_nil_or_concat (recordFramer.frames
    (recordFramer.rest (arrived before) ++ arrived after)) with hlast | ⟨recs, rec, hlater⟩
  · -- everything has come before the sweep
    rw [hlast, List.append_nil] at hframes
    refine iff_of_false (hnocall ?_) (not_not.mpr ?_)
    · rw [receives_nothing (by rw [hinBuf]; exact hlast), hsame]
    · rw [hframes]
      exact List.mem_append_left _ (List.mem_cons_of_mem _
        (List.mem_append_right _ List.mem_cons_self))
  · rw [List.concat_eq_append] at hlater
    rw [hlater, ← List.append_assoc] at hframes
    obtain ⟨hopen, hrec⟩ := List.append_inj' hframes rfl
    obtain ⟨hsilent, hcalled⟩ := receives_of_begun hparams hstdin
      (fun a ha ↦ hgrants a (List.mem_append_right _ ha)) recs (.inl ⟨rfl, hnone⟩)
      (by rw [hinBuf]; exact recordFramer.next_rest _)
      (by rw [← hopen, List.nil_append]; exact (List.suffix_append _ _).isInfix)
      (by rw [hinBuf, hlater, hrec])
    rw [List.nil_append, hsame] at hsilent hcalled
    rcases recordInput_of_append hopen with ⟨hnot, hmem, hbody⟩ | ⟨hmem, hnot⟩
    · refine iff_of_true ?_ hnot
      obtain ⟨r', hpassed, hbody', henv⟩ := hcalled hmem
      exact ⟨r', hpassed, hbody'.trans hbody, henv⟩
    · exact iff_of_false (hnocall (hsilent hnot)) (not_not.mpr hmem)

/-- The entry of an answered request with id 7. -/
def answered : Requests := AList.insert 7 { id := 7, flags := { responded := true } } ∅

/-- A read on connection 5 of a server with one free arena. -/
def reading (data : Bytes) : Arrival := ⟨⟨5, 0⟩, data, [], initial [0x10000] 0x10000, []⟩

/-- The first half of a header, and then the rest. -/
theorem startsFresh_cutHeader :
    StartsFresh {} answered smallRequest
      [reading (((smallRequest.records 7).flatMap Record.encode).take 4),
        reading (((smallRequest.records 7).flatMap Record.encode).drop 4)] := by
  have hentry : answered.lookup 7 = some { id := 7, flags := { responded := true } } :=
    AList.lookup_insert ∅
  refine (startsFresh_iff_sweptInTime {} hentry rfl (by decide) (by decide) ?_ ?_).mpr ?_
  · rw [Brings, arrived, List.flatMap_cons, List.flatMap_cons, List.flatMap_nil, List.append_nil,
      reading, reading, List.take_append_drop]
  · decide +kernel
  · refine ⟨[reading (((smallRequest.records 7).flatMap Record.encode).take 4)],
      List.cons_ne_nil _ _, ⟨_, rfl⟩, .inl rfl, ?_⟩
    have hnone : recordFramer.frames
        (arrived [reading (((smallRequest.records 7).flatMap Record.encode).take 4)]) = [] :=
      Framer.frames_of_none (by decide +kernel)
    rw [hnone]
    exact List.not_mem_nil

/-- All records of a new request in one read. -/
theorem not_startsFresh_oneRead :
    Brings 7 smallRequest [reading ((smallRequest.records 7).flatMap Record.encode)] ∧
      ¬StartsFresh {} answered smallRequest
        [reading ((smallRequest.records 7).flatMap Record.encode)] := by
  constructor
  · rw [Brings, arrived, List.flatMap_cons, List.flatMap_nil, List.append_nil, reading]
  · rintro ⟨r, hpassed, -⟩
    have hnone : ([reading ((smallRequest.records 7).flatMap Record.encode)].foldl (receive {})
        ⟨answered, [], []⟩).passed.length = 0 := by
      decide +kernel
    rw [hpassed] at hnone
    cases hnone

end Wasapi.FcgiConn
