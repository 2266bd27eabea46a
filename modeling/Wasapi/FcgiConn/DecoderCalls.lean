import Wasapi.Fastcgi.Limits
import Wasapi.FcgiConn.Handlers

/-!
# Calls of the decoder

A run here is one of `process_buffer` calls on the requests map of a connection, with the callbacks
of the event loop. What else a call is given (the bytes, the output so far, the rest of the program)
is free, so nothing is assumed of what happens between two calls but that it leaves the map alone.
-/

namespace Wasapi.FcgiConn

open Fastcgi

/-- What a call of `process_buffer` is given beside the requests map. -/
structure DecoderCall where
  io : ConnRef
  inBuf : Bytes
  outBuf : Bytes
  world : World

section

variable (cfg : GlobalConfig)

/-- The requests map after the call. -/
def afterCall (requests : Requests) (call : DecoderCall) : Requests :=
  (processBuffer cfg.toLimits (callbacks cfg call.io) call.inBuf
    ⟨requests, call.outBuf, call.world⟩).requests

/-- The call, watched. -/
def watchedCall (requests : Requests) (call : DecoderCall) :
    ProcessResult (World × List Request) :=
  processBuffer cfg.toLimits (watching (callbacks cfg call.io)) call.inBuf
    ⟨requests, call.outBuf, (call.world, [])⟩

/-- The requests passed to `on_request_ready` in the calls. -/
def passedAlong : Requests → List DecoderCall → List Request
  | _, [] => []
  | requests, call :: calls =>
    (watchedCall cfg requests call).ext.2 ++ passedAlong (afterCall cfg requests call) calls

end

variable {cfg : GlobalConfig}

variable (cfg) in
private theorem requests_watchedCall (requests : Requests) (call : DecoderCall) :
    (watchedCall cfg requests call).requests = afterCall cfg requests call := by
  have h := @processBuffer_watching _ cfg.toLimits (callbacks cfg call.io) call.inBuf
    ⟨requests, call.outBuf, (call.world, [])⟩
  rw [afterCall, watchedCall]
  exact (congrArg (·.requests) h).symm

/-! ## The callbacks of the event loop

`allocate_request` makes a request with no strings in its environment, and
`internal_on_request_ready` strips a prefix from two variables and dispatches. Neither makes
anything larger. -/

private theorem stringsSize_stripVariable_le (pathPrefix : Bytes) (hne : ¬pathPrefix.isEmpty)
    (env : DynamicVariable) (key : Bytes) :
    (stripVariable pathPrefix env key).stringsSize ≤ env.stringsSize := by
  rw [stripVariable]
  split
  swap
  · exact le_rfl
  next s hfind =>
  split
  swap
  · exact le_rfl
  next hprefix =>
  refine DynamicVariable.stringsSize_assign_of_find hfind ?_
  have hpos : 0 < pathPrefix.length := by
    rw [List.isEmpty_iff] at hne
    exact List.length_pos_iff.mpr hne
  have hle : pathPrefix.length ≤ s.length := by
    rw [← hprefix, List.length_take]
    exact min_le_right _ _
  simp only [DynamicVariable.fieldSize]
  -- what is left of the variable, or the one octet that takes its place
  split
  · have hone : (ascii "/").length = 1 := by decide
    omega
  · rw [List.length_drop]
    omega

private theorem stringsSize_stripPathPrefix_le (env : DynamicVariable) :
    (stripPathPrefix cfg env).stringsSize ≤ env.stringsSize := by
  rw [stripPathPrefix]
  split
  · exact le_rfl
  · next hne =>
    exact (stringsSize_stripVariable_le _ hne _ _).trans (stringsSize_stripVariable_le _ hne _ _)

variable (cfg) in
private theorem internalOnRequestReady_cases (r : Request) (w : World) :
    (internalOnRequestReady cfg r w).1 = r ∨ (internalOnRequestReady cfg r w).1
      = { r with env := stripPathPrefix cfg r.env, workerActive := true } := by
  rw [internalOnRequestReady]
  split
  · exact .inl rfl
  split
  · exact .inl rfl
  · exact .inr rfl

/-- What `allocate_request` returns. -/
theorem allocateRequest_eq_some {io : ConnRef} {id : UInt16} {w : World} {r : Request}
    (h : (allocateRequest cfg io id w).1 = some r) :
    ∃ i, r = { Request.ofArena i w.clock with
      id := id, connPtr := some io, handle := w.nextHandle } := by
  rw [allocateRequest] at h
  split at h
  · cases h
  next i m _ =>
  split at h
  · cases h
  · exact ⟨i, (Option.some.inj h).symm⟩

variable (cfg) in
private theorem keepsIds_callbacks (limits : Limits) (io : ConnRef) :
    KeepsIds limits (callbacks cfg io) := by
  refine ⟨fun {id w r} halloc ↦ ?_, fun {id r} w _ hr ↦ ?_, fun {rec body id r} out hbody hr ↦ ?_⟩
  · obtain ⟨i, rfl⟩ := allocateRequest_eq_some halloc
    rfl
  · simp only [callbacks]
    rcases internalOnRequestReady_cases cfg r w with heq | heq
    · rw [heq]
      exact hr
    · rw [heq]
      exact hr
  · exact (id_recordBody hbody _ _).trans hr

/-- **The event loop keeps its requests within the limits.** -/
theorem keepsWithinLimits_callbacks (hparams : cfg.maxParamsBytes < 2 ^ 63)
    (hstdin : cfg.maxStdinBytes < 2 ^ 63) (io : ConnRef) :
    KeepsEntries cfg.toLimits (callbacks cfg io)
      fun _ r ↦ WithinLimits cfg.toLimits r.toRequestCore := by
  refine ⟨fun {id w r} halloc ↦ ?_, fun {id r} w _ hr ↦ ?_, fun {rec body id r} out hbody hr ↦ ?_⟩
  · obtain ⟨i, rfl⟩ := allocateRequest_eq_some halloc
    exact ⟨Nat.zero_le _, Nat.zero_le _, rfl, le_rfl⟩
  · simp only [callbacks]
    rcases internalOnRequestReady_cases cfg r w with heq | heq
    · rw [heq]
      exact hr
    · rw [heq]
      exact ⟨hr.params, hr.stdin, hr.body, (stringsSize_stripPathPrefix_le r.env).trans hr.env⟩
  · exact WithinLimits.recordBody hparams hstdin hbody out hr

/-! ## Runs -/

private theorem entries_afterCalls {Q : UInt16 → Request → Prop}
    (hQ : ∀ io, KeepsEntries cfg.toLimits (callbacks cfg io) Q) {requests : Requests}
    (h : Entries Q requests) (calls : List DecoderCall) :
    Entries Q (calls.foldl (afterCall cfg) requests) :=
  List.foldlRecOn calls _ h fun requests hrequests call _ ↦
    Entries.processBuffer (hQ call.io) (s := ⟨requests, call.outBuf, call.world⟩) hrequests
      call.inBuf

/-- **A request withheld stays withheld**, and is not passed to `on_request_ready`. -/
theorem withheld_calls {P : RequestCore → Prop} (hP : Withholds cfg.toLimits P)
    {requests : Requests} (hids : Entries (fun id r ↦ r.id = id) requests) {id : UInt16}
    (hentry : ∃ r, requests.lookup id = some r ∧ P r.toRequestCore) (calls : List DecoderCall) :
    (∃ r, (calls.foldl (afterCall cfg) requests).lookup id = some r ∧ P r.toRequestCore) ∧
      ∀ passed ∈ passedAlong cfg requests calls, passed.id ≠ id := by
  induction calls generalizing requests with
  | nil => exact ⟨hentry, fun _ hpassed ↦ nomatch hpassed⟩
  | cons call calls ih =>
    have hstart : Withheld P id
        (⟨requests, call.outBuf, (call.world, [])⟩ : Machine (World × List Request)) :=
      ⟨hids, hentry, fun _ hpassed ↦ nomatch hpassed⟩
    obtain ⟨hids', hentry', huncalled⟩ :=
      hstart.processBuffer (keepsIds_callbacks cfg cfg.toLimits call.io) hP call.inBuf
    have heq := requests_watchedCall cfg requests call
    rw [watchedCall] at heq
    rw [heq] at hids' hentry'
    obtain ⟨hentry'', hlater⟩ := ih hids' hentry'
    refine ⟨hentry'', fun passed hpassed ↦ ?_⟩
    rw [passedAlong, List.mem_append] at hpassed
    exact hpassed.elim (huncalled passed) (hlater passed)

/-- **Size limits.** In every run of calls on a requests map that starts empty, each request counts
no more than the limits allow and holds no more than it counts. Once one has failed, later calls
change nothing of what it holds, and never pass it to `on_request_ready`. -/
theorem sizes_limited (cfg : GlobalConfig) (hparams : cfg.maxParamsBytes < 2 ^ 63)
    (hstdin : cfg.maxStdinBytes < 2 ^ 63) (before after : List DecoderCall) {id : UInt16}
    {r : Request} (hr : (before.foldl (afterCall cfg) ∅).lookup id = some r) :
    WithinLimits cfg.toLimits r.toRequestCore ∧ r.id = id ∧
      (r.flags.failed = true →
        (∃ r', ((before ++ after).foldl (afterCall cfg) ∅).lookup id = some r' ∧
          FailedWith r.toRequestCore r'.toRequestCore) ∧
        ∀ passed ∈ passedAlong cfg (before.foldl (afterCall cfg) ∅) after, passed.id ≠ id) := by
  have hids : Entries (fun id r ↦ r.id = id) (before.foldl (afterCall cfg) ∅) :=
    entries_afterCalls (keepsIds_callbacks cfg cfg.toLimits) .empty before
  have hlimited := entries_afterCalls (keepsWithinLimits_callbacks hparams hstdin) .empty before
  refine ⟨hlimited id r hr, hids id r hr, fun hfailed ↦ ?_⟩
  rw [List.foldl_append]
  exact withheld_calls (withholds_failedWith cfg.toLimits r.toRequestCore) hids
    ⟨r, hr, hfailed, rfl, rfl, rfl, rfl⟩ after

/-- A configuration that allows a body of two octets. -/
def tinyLimits : GlobalConfig := { maxStdinBytes := 2 }

/-- A request with three. -/
def overlongBody : DecoderCall where
  io := ⟨5, 0⟩
  inBuf := [1, 1, 0, 1, 0, 8, 0, 0, 0, 1, 0, 0, 0, 0, 0, 0] ++ [1, 5, 0, 1, 0, 3, 0, 0, 97, 98, 99]
  outBuf := []
  world := initial [0x10000] 0x10000

theorem sizes_limited_overlongBody :
    ∃ r, ([overlongBody].foldl (afterCall tinyLimits) ∅).lookup 1 = some r ∧
      r.flags.failed = true ∧ WithinLimits tinyLimits.toLimits r.toRequestCore ∧
      ∀ passed ∈ passedAlong tinyLimits ([overlongBody].foldl (afterCall tinyLimits) ∅)
        [overlongBody], passed.id ≠ 1 := by
  have hfails : (([overlongBody].foldl (afterCall tinyLimits) ∅).lookup 1).any
      (fun r ↦ r.flags.failed) = true := by decide +kernel
  obtain ⟨r, hr, hfailed⟩ := (Option.any_eq_true _ _).mp hfails
  obtain ⟨hlimits, -, hstays⟩ :=
    sizes_limited tinyLimits (by decide) (by decide) [overlongBody] [overlongBody] hr
  exact ⟨r, hr, hfailed, hlimits, (hstays hfailed).2⟩

end Wasapi.FcgiConn
