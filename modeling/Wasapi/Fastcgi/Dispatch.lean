import Wasapi.Fastcgi.Chunking
import Wasapi.Library.Transitions

/-!
# Requests handed to a worker

`on_request_ready` hands a request to a worker. Readiness is computed from the request's flags after
every record, and nothing is written down when the call is made, so a later record for the same id
can hand the request over once more, or change it under the worker.

To tell the calls apart every request gets a number when it is allocated, and every call is recorded
(`DispatchLog`). `Final` says that no request has been handed over twice and that those handed over
are as they were. `keepsHandedOver` lists, by type and flags, the records that respect this; a run
of reads, flag changes made elsewhere and releases keeps `Final` exactly when every record for a
request that has been handed over is in this list.
-/

namespace Wasapi.Fastcgi

/-! ## Storing some of the pairs

A PARAMS record stores pair after pair until one of them passes the limit, and the request fails
there. So a record of a request that has been handed over may change its environment even if it
makes the request fail. -/

/-- The pairs that are stored before the limit is passed, from a count of `n`. -/
def fittingPairs (limits : Limits) : ℕ → List (Bytes × Bytes) → List (Bytes × Bytes)
  | _, [] => []
  | n, (name, value) :: ps =>
    if limits.maxParamsBytes < sizeT (n + name.length + value.length) then []
    else (name, value) :: fittingPairs limits (sizeT (n + name.length + value.length)) ps

/-- The limit is passed by one of the pairs, from a count of `n`. -/
def overruns (limits : Limits) : ℕ → List (Bytes × Bytes) → Bool
  | _, [] => false
  | n, (name, value) :: ps =>
    decide (limits.maxParamsBytes < sizeT (n + name.length + value.length))
      || overruns limits (sizeT (n + name.length + value.length)) ps

section

variable {limits : Limits}

theorem failRequest_fst (r : RequestCore) (out : Bytes) (status : ProtocolStatus) :
    (failRequest r out status).1 =
      if r.flags.responded then r
      else { r with flags := { r.flags with responded := true, failed := true } } := by
  rw [failRequest]
  split <;> rfl

theorem env_storePairs (ps : List (Bytes × Bytes)) (r : RequestCore) (out : Bytes) :
    (storePairs limits ps r out).1.env
      = assignPairs r.env (fittingPairs limits r.paramsBytes ps) := by
  induction ps generalizing r with
  | nil => rfl
  | cons p ps ih =>
    obtain ⟨name, value⟩ := p
    rw [storePairs, fittingPairs]
    split
    · rw [failRequest_fst]
      split <;> rfl
    · rw [ih]
      rfl

private theorem body_storePairs (ps : List (Bytes × Bytes)) (r : RequestCore) (out : Bytes) :
    (storePairs limits ps r out).1.body = r.body := by
  induction ps generalizing r with
  | nil => rfl
  | cons p ps ih =>
    obtain ⟨name, value⟩ := p
    rw [storePairs]
    split
    · rw [failRequest_fst]
      split <;> rfl
    · rw [ih]

theorem flags_storePairs (ps : List (Bytes × Bytes)) (r : RequestCore) (out : Bytes) :
    (storePairs limits ps r out).1.flags =
      if overruns limits r.paramsBytes ps && !r.flags.responded then
        { r.flags with responded := true, failed := true }
      else r.flags := by
  induction ps generalizing r with
  | nil => rfl
  | cons p ps ih =>
    obtain ⟨name, value⟩ := p
    rw [storePairs, overruns]
    split
    · next h =>
      rw [failRequest_fst, decide_eq_true h, Bool.true_or, Bool.true_and]
      cases r.flags.responded <;> rfl
    · next h => rw [ih, decide_eq_false h, Bool.false_or]

end

/-! ## Records that leave a request alone

The list is by type, by what the flags say and by what the content holds. It is exact on single
records: a record in it neither makes the request ready nor changes what a worker reads, and any
other record does one of the two. -/

/-- The records that neither make the request ready nor change its environment or its body. -/
def keepsHandedOver (limits : Limits) (rec : Record) (r : RequestCore) : Prop :=
  if rec.type = FCGI_BEGIN_REQUEST then
    rec.content.length < beginRequestBodySize ∨ isReady r.flags = false
  else if rec.type = FCGI_PARAMS then
    if rec.content.isEmpty then isReady { r.flags with paramsComplete := true } = false
    else
      let ps := pairsOf rec.content.length rec.content
      r.flags.failed = true ∨
        (isReady r.flags = false ∨ overruns limits r.paramsBytes ps = true) ∧
          assignPairs r.env (fittingPairs limits r.paramsBytes ps) = r.env
  else if rec.type = FCGI_STDIN then
    if rec.content.isEmpty then isReady { r.flags with inputComplete := true } = false
    else
      r.flags.failed = true ∨ limits.maxStdinBytes < sizeT (r.bodyBytes + rec.content.length)
  else True

section

variable {limits : Limits}

theorem isReady_of_responded {f : RequestFlags} (h : f.responded = true) : isReady f = false := by
  rw [isReady, h]
  simp

theorem isReady_of_failed {f : RequestFlags} (h : f.failed = true) : isReady f = false := by
  rw [isReady, h]
  simp

private theorem isReady_failRequest (r : RequestCore) (out : Bytes) (status : ProtocolStatus) :
    isReady (failRequest r out status).1.flags = false := by
  rw [failRequest_fst]
  split
  · next h => exact isReady_of_responded h
  · exact isReady_of_responded rfl

/-- A nonempty PARAMS record. -/
private theorem paramsRecord_keeps_iff {content : Bytes} (hne : ¬content.isEmpty) (r : RequestCore)
    (out : Bytes) :
    (isReady (paramsRecord limits content r out).1.flags = false ∧
        (paramsRecord limits content r out).1.env = r.env ∧
        (paramsRecord limits content r out).1.body = r.body) ↔
      r.flags.failed = true ∨
        (isReady r.flags = false ∨
            overruns limits r.paramsBytes (pairsOf content.length content) = true) ∧
          assignPairs r.env (fittingPairs limits r.paramsBytes (pairsOf content.length content))
            = r.env := by
  rw [paramsRecord, if_neg hne]
  cases hfailed : r.flags.failed with
  | true => simp [isReady_of_failed hfailed]
  | false =>
    rw [if_neg Bool.false_ne_true, paramsLoop_eq, env_storePairs, body_storePairs, flags_storePairs]
    cases hover : overruns limits r.paramsBytes (pairsOf content.length content) with
    | false => simp
    | true =>
      cases hresp : r.flags.responded with
      | false => simp [isReady_of_responded]
      | true => simp [isReady_of_responded hresp]

/-- A nonempty STDIN record. -/
private theorem stdinRecord_keeps_iff {content : Bytes} (hne : ¬content.isEmpty) (r : RequestCore)
    (out : Bytes) :
    (isReady (stdinRecord limits content r out).1.flags = false ∧
        (stdinRecord limits content r out).1.env = r.env ∧
        (stdinRecord limits content r out).1.body = r.body) ↔
      r.flags.failed = true ∨ limits.maxStdinBytes < sizeT (r.bodyBytes + content.length) := by
  rw [stdinRecord, if_neg hne]
  cases hfailed : r.flags.failed with
  | true => simp [isReady_of_failed hfailed]
  | false =>
    rw [if_neg Bool.false_ne_true]
    split
    · next hover =>
      have hfst := failRequest_fst r out .overloaded
      simp only [isReady_failRequest, hover, or_true, iff_true, true_and]
      rw [hfst]
      split <;> exact ⟨rfl, rfl⟩
    · next hover =>
      rw [List.isEmpty_iff] at hne
      simp [hover, hne]

/-- **The list is exact.** -/
theorem keepsHandedOver_iff {rec : Record} {body : RequestCore → Bytes → RequestCore × Bytes}
    (h : recordBody limits rec = some body) (r : RequestCore) (out : Bytes) :
    (isReady (body r out).1.flags = false ∧ (body r out).1.env = r.env ∧
        (body r out).1.body = r.body) ↔ keepsHandedOver limits rec r := by
  rw [keepsHandedOver]
  rw [recordBody] at h
  split at h
  · next hbegin =>
    rw [if_pos hbegin]
    split at h
    · next hlen =>
      obtain rfl := Option.some.inj h
      have hshort : ¬rec.content.length < beginRequestBodySize := by omega
      simp [beginRequest, isReady, hshort]
    · cases h
  · next hbegin =>
    rw [if_neg hbegin]
    split at h
    · next hparams =>
      obtain rfl := Option.some.inj h
      rw [if_pos hparams]
      by_cases hnil : rec.content.isEmpty
      · rw [if_pos hnil, paramsRecord, if_pos hnil]
        simp
      · rw [if_neg hnil]
        exact paramsRecord_keeps_iff hnil r out
    · next hparams =>
      rw [if_neg hparams]
      split at h
      · next hstdin =>
        obtain rfl := Option.some.inj h
        rw [if_pos hstdin]
        by_cases hnil : rec.content.isEmpty
        · rw [if_pos hnil, stdinRecord, if_pos hnil]
          simp
        · rw [if_neg hnil]
          exact stdinRecord_keeps_iff hnil r out
      · next hstdin =>
        rw [if_neg hstdin]
        split at h
        · obtain rfl := Option.some.inj h
          rw [abortRequest, isReady_failRequest, failRequest_fst]
          simp only [true_and, iff_true]
          split <;> exact ⟨rfl, rfl⟩
        · cases h

end

private theorem keepsHandedOver_of_body_none {limits : Limits} {rec : Record}
    (h : recordBody limits rec = none) (r : RequestCore) : keepsHandedOver limits rec r := by
  rw [keepsHandedOver]
  rw [recordBody] at h
  split at h
  · next hbegin =>
    rw [if_pos hbegin]
    split at h
    · cases h
    · next hlen => exact .inl (by omega)
  · next hbegin =>
    rw [if_neg hbegin]
    split at h
    · cases h
    · next hparams =>
      rw [if_neg hparams]
      split at h
      · cases h
      · next hstdin =>
        rw [if_neg hstdin]
        exact trivial

/-! ## The log of calls

A request that has been released may be followed by another one under the same id and in the same
arena. Numbers given at allocation keep the two apart, and the log keeps each request as it was when
it was handed over. -/

/-- The rest of the program beside a decoder whose requests are numbered. -/
structure DispatchLog (α : Type*) where
  rest : α
  nextHandle : ℕ
  /-- the requests handed over, as the calls left them -/
  dispatched : List Request

/-- `allocate_request` and `on_request_ready` with numbered requests and recorded calls. A call may
change its request in any way. -/
def logging {α : Type*} (alloc : UInt16 → α → Option Request × α)
    (ready : Request → α → Request × α) : Callbacks (DispatchLog α) where
  allocateRequest id s :=
    ((alloc id s.rest).1.map fun r ↦ { r with handle := s.nextHandle },
      { s with rest := (alloc id s.rest).2, nextHandle := s.nextHandle + 1 })
  onRequestReady r s :=
    let called := { (ready r s.rest).1 with handle := r.handle }
    (called, { s with rest := (ready r s.rest).2, dispatched := s.dispatched ++ [called] })

section

variable {α : Type*}

def isDispatched (s : Machine (DispatchLog α)) (r : Request) : Prop :=
  r.handle ∈ s.ext.dispatched.map Request.handle

/-- Numbers tell requests apart. -/
structure Numbered (s : Machine (DispatchLog α)) : Prop where
  lt : ∀ i r, s.requests.lookup i = some r → r.handle < s.ext.nextHandle
  inj : ∀ i j r r', s.requests.lookup i = some r → s.requests.lookup j = some r' →
    r.handle = r'.handle → i = j
  dispatched_lt : ∀ d ∈ s.ext.dispatched, d.handle < s.ext.nextHandle

/-- No request has been handed over twice, and those still there are as they were handed over. -/
structure Final (s : Machine (DispatchLog α)) : Prop where
  once : (s.ext.dispatched.map Request.handle).Nodup
  unchanged : ∀ i r, s.requests.lookup i = some r → ∀ d ∈ s.ext.dispatched, d.handle = r.handle →
    r.env = d.env ∧ r.body = d.body

/-! ## One turn

A turn works on one entry of the map, old or new. Whether it keeps the log final is then decided by
that entry alone: it may be handed over if it never was, and must stay as it is if it was. -/

variable {limits : Limits} {alloc : UInt16 → α → Option Request × α}
  {ready : Request → α → Request × α}

/-- What a turn leaves of the machine when `r` is the request of the record and `c` what the switch
made of it. -/
def finished (ready : Request → α → Request × α) (id : UInt16) (r : Request) (c : RequestCore)
    (out : Bytes) (s : Machine (DispatchLog α)) : Machine (DispatchLog α) :=
  if isReady c.flags then
    let called := { (ready (r.withCore c) s.ext.rest).1 with handle := r.handle }
    { requests := s.requests.insert id called
      outBuf := out
      ext := { s.ext with
        rest := (ready (r.withCore c) s.ext.rest).2
        dispatched := s.ext.dispatched ++ [called] } }
  else { s with requests := s.requests.insert id (r.withCore c), outBuf := out }

/-- **What one turn can do to the log.** -/
theorem turn_logging_cases (limits : Limits) (alloc : UInt16 → α → Option Request × α)
    (ready : Request → α → Request × α) (s : Machine (DispatchLog α)) (rec : Record) :
    (recordBody limits rec = none ∧ turn limits (logging alloc ready) s rec = s) ∨
    (∃ body r, recordBody limits rec = some body ∧ s.requests.lookup rec.requestId = some r ∧
      turn limits (logging alloc ready) s rec
        = finished ready rec.requestId r (body r.toRequestCore s.outBuf).1
            (body r.toRequestCore s.outBuf).2 s) ∨
    (∃ body r rest, recordBody limits rec = some body ∧ s.requests.lookup rec.requestId = none ∧
      r.handle = s.ext.nextHandle ∧
      turn limits (logging alloc ready) s rec
        = finished ready rec.requestId r (body r.toRequestCore s.outBuf).1
            (body r.toRequestCore s.outBuf).2
            { s with ext := { s.ext with rest := rest, nextHandle := s.ext.nextHandle + 1 } }) ∨
    (∃ body rest, recordBody limits rec = some body ∧ s.requests.lookup rec.requestId = none ∧
      turn limits (logging alloc ready) s rec
        = { s with ext := { s.ext with rest := rest, nextHandle := s.ext.nextHandle + 1 } }) := by
  obtain ⟨hbody, h⟩ | ⟨body, r, hbody, hr, h⟩ | ⟨body, nr, ext, hbody, hr, ha, h⟩ |
    ⟨body, ext, hbody, hr, ha, h⟩ := processRecord_cases limits (logging alloc ready) rec s
  · exact .inl ⟨hbody, by rw [turn, h]; rfl⟩
  · refine .inr (.inl ⟨body, r, hbody, hr, ?_⟩)
    rw [turn, h]
    rfl
  · obtain ⟨hnr, hext⟩ := Prod.mk.inj ha
    obtain ⟨r₀, -, rfl⟩ := Option.map_eq_some_iff.mp hnr
    refine .inr (.inr (.inl ⟨body, { r₀ with handle := s.ext.nextHandle },
      (alloc rec.requestId s.ext.rest).2, hbody, hr, rfl, ?_⟩))
    rw [turn, h, ← hext, Turn.machine, touch, finished]
    simp only [AList.insert_insert]
    rfl
  · obtain ⟨-, hext⟩ := Prod.mk.inj ha
    refine .inr (.inr (.inr ⟨body, (alloc rec.requestId s.ext.rest).2, hbody, hr, ?_⟩))
    rw [turn, h, ← hext]
    split <;> rfl

section Finished

variable {s : Machine (DispatchLog α)} {id : UInt16} {r : Request} {c : RequestCore} {out : Bytes}

/-- The entry of `id` after the turn has the number of the request the turn worked on. -/
theorem lookup_finished {i : UInt16} {r' : Request}
    (h : (finished ready id r c out s).requests.lookup i = some r') :
    (i = id ∧ r'.handle = r.handle) ∨ (i ≠ id ∧ s.requests.lookup i = some r') := by
  by_cases hi : i = id
  · subst hi
    refine .inl ⟨rfl, ?_⟩
    rw [finished] at h
    split at h
    · rw [AList.lookup_insert, Option.some.injEq] at h
      rw [← h]
    · rw [AList.lookup_insert, Option.some.injEq] at h
      rw [← h, Request.handle_withCore]
  · refine .inr ⟨hi, ?_⟩
    rw [finished] at h
    split at h <;> rwa [AList.lookup_insert_ne hi] at h

private theorem numbered_finished (hs : Numbered s) (hlt : r.handle < s.ext.nextHandle)
    (hinj : ∀ i r', s.requests.lookup i = some r' → r'.handle = r.handle → i = id) :
    Numbered (finished ready id r c out s) := by
  have hnext : (finished ready id r c out s).ext.nextHandle = s.ext.nextHandle := by
    rw [finished]
    split <;> rfl
  refine ⟨fun i r' h ↦ ?_, fun i j r₁ r₂ h₁ h₂ heq ↦ ?_, fun d hd ↦ ?_⟩
  · rw [hnext]
    obtain ⟨-, heq⟩ | ⟨-, hr'⟩ := lookup_finished h
    · rwa [heq]
    · exact hs.lt i r' hr'
  · obtain ⟨rfl, he₁⟩ | ⟨hi, hr₁⟩ := lookup_finished h₁ <;>
      obtain ⟨rfl, he₂⟩ | ⟨hj, hr₂⟩ := lookup_finished h₂
    · rfl
    · exact (hinj j r₂ hr₂ (heq.symm.trans he₁)).symm
    · exact hinj i r₁ hr₁ (heq.trans he₂)
    · exact hs.inj i j r₁ r₂ hr₁ hr₂ heq
  · rw [hnext]
    rw [finished] at hd
    split at hd
    · obtain hd | hd := List.mem_append.mp hd
      · exact hs.dispatched_lt d hd
      · rw [List.mem_singleton.mp hd]
        exact hlt
    · exact hs.dispatched_lt d hd

/-- A request that has not been handed over yet may be handed over now. -/
theorem final_finished_of_new (hs : Final s) (hnew : ¬isDispatched s r)
    (hinj : ∀ i r', s.requests.lookup i = some r' → r'.handle = r.handle → i = id) :
    Final (finished ready id r c out s) := by
  -- nothing is asked of a request whose number is not in the list
  have hnone : ∀ d ∈ s.ext.dispatched, d.handle ≠ r.handle :=
    fun d hd heq ↦ hnew (List.mem_map.mpr ⟨d, hd, heq⟩)
  by_cases hready : isReady c.flags = true
  · rw [finished, if_pos hready]
    refine ⟨?_, fun i r' h d hd heq ↦ ?_⟩
    · rw [List.map_append, List.nodup_append]
      refine ⟨hs.once, List.nodup_singleton _, ?_⟩
      intro n hn m hm hnm
      rw [List.map_singleton, List.mem_singleton] at hm
      have hm' : m = r.handle := hm
      exact hnew (by rwa [isDispatched, ← hm', ← hnm])
    · by_cases hi : i = id
      · subst hi
        rw [AList.lookup_insert, Option.some.injEq] at h
        subst h
        obtain hd | hd := List.mem_append.mp hd
        · exact absurd heq (hnone d hd)
        · rw [List.mem_singleton.mp hd]
          exact ⟨rfl, rfl⟩
      · rw [AList.lookup_insert_ne hi] at h
        obtain hd | hd := List.mem_append.mp hd
        · exact hs.unchanged i r' h d hd heq
        · rw [List.mem_singleton.mp hd] at heq
          exact absurd (hinj i r' h heq.symm) hi
  · rw [finished, if_neg hready]
    refine ⟨hs.once, fun i r' h d hd heq ↦ ?_⟩
    by_cases hi : i = id
    · subst hi
      rw [AList.lookup_insert, Option.some.injEq] at h
      subst h
      exact absurd heq (hnone d hd)
    · rw [AList.lookup_insert_ne hi] at h
      exact hs.unchanged i r' h d hd heq

/-- A request that has been handed over must not become ready again or change. -/
theorem final_finished_iff (hs : Final s) (hr : s.requests.lookup id = some r)
    (hold : isDispatched s r) :
    Final (finished ready id r c out s) ↔
      isReady c.flags = false ∧ c.env = r.env ∧ c.body = r.body := by
  obtain ⟨d, hd, heq⟩ := List.mem_map.mp hold
  have hsame := hs.unchanged id r hr d hd heq
  by_cases hready : isReady c.flags = true
  · rw [finished, if_pos hready, hready]
    constructor
    · -- its number would be in the list twice
      intro h
      have honce := h.once
      rw [List.map_append, List.nodup_append] at honce
      exact absurd rfl (honce.2.2 r.handle hold r.handle (List.mem_singleton.mpr rfl))
    · rintro ⟨h, -⟩
      cases h
  · rw [finished, if_neg hready, Bool.eq_false_iff.mpr hready]
    constructor
    · intro h
      obtain ⟨henv, hbody⟩ := h.unchanged id (r.withCore c) (AList.lookup_insert _) d hd heq
      exact ⟨rfl, henv.trans hsame.1.symm, hbody.trans hsame.2.symm⟩
    · rintro ⟨-, henv, hbody⟩
      refine ⟨hs.once, fun i r' h d' hd' heq' ↦ ?_⟩
      by_cases hi : i = id
      · subst hi
        rw [AList.lookup_insert, Option.some.injEq] at h
        subst h
        obtain ⟨henv', hbody'⟩ := hs.unchanged i r hr d' hd' heq'
        exact ⟨henv.trans henv', hbody.trans hbody'⟩
      · rw [AList.lookup_insert_ne hi] at h
        exact hs.unchanged i r' h d' hd' heq'

end Finished

/-! ## Runs

Between two turns a request may be answered, may time out, or may be released, by code that does not
go through the decoder. These steps keep the numbers and hand nothing over, so they never break
`Final`. -/

/-- What happens between the turns: elsewhere the flags of a request are changed (it is answered, or
times out), or a request is released. -/
inductive Label where
  | record (rec : Record)
  | flags (id : UInt16) (f : RequestFlags)
  | release (id : UInt16)

def labelStep (limits : Limits) (cb : Callbacks (DispatchLog α)) (s : Machine (DispatchLog α)) :
    Label → Machine (DispatchLog α)
  | .record rec => turn limits cb s rec
  | .flags id f =>
    match s.requests.lookup id with
    | none => s
    | some r => { s with requests := s.requests.insert id { r with flags := f } }
  | .release id => { s with requests := s.requests.erase id }

/-- A record for a request that has been handed over and is still there is harmless. -/
def SparesDispatched (limits : Limits) (s : Machine (DispatchLog α)) : Label → Prop
  | .record rec => ∀ r, s.requests.lookup rec.requestId = some r → isDispatched s r →
      keepsHandedOver limits rec r.toRequestCore
  | _ => True

/-- The requests after a flag change. -/
private theorem lookup_flags {s : Machine (DispatchLog α)} {id i : UInt16} {f : RequestFlags}
    {r : Request} {cb : Callbacks (DispatchLog α)}
    (h : (labelStep limits cb s (.flags id f)).requests.lookup i = some r) :
    ∃ r₀, s.requests.lookup i = some r₀ ∧ r.handle = r₀.handle ∧ r.env = r₀.env ∧
      r.body = r₀.body := by
  rw [labelStep] at h
  split at h
  · exact ⟨r, h, rfl, rfl, rfl⟩
  · next r₀ hr₀ =>
    by_cases hi : i = id
    · subst hi
      rw [AList.lookup_insert, Option.some.injEq] at h
      subst h
      exact ⟨r₀, hr₀, rfl, rfl, rfl⟩
    · rw [AList.lookup_insert_ne hi] at h
      exact ⟨r, h, rfl, rfl, rfl⟩

private theorem ext_flags (cb : Callbacks (DispatchLog α)) (s : Machine (DispatchLog α))
    (id : UInt16) (f : RequestFlags) :
    (labelStep limits cb s (.flags id f)).ext = s.ext := by
  rw [labelStep]
  split <;> rfl

private theorem lookup_erase {s : Machine (DispatchLog α)} {id i : UInt16} {r : Request}
    (h : (s.requests.erase id).lookup i = some r) : s.requests.lookup i = some r := by
  by_cases hi : i = id
  · subst hi
    rw [AList.lookup_erase] at h
    cases h
  · rwa [AList.lookup_erase_ne hi] at h

private theorem numbered_labelStep (s : Machine (DispatchLog α)) (l : Label) (hs : Numbered s) :
    Numbered (labelStep limits (logging alloc ready) s l) := by
  cases l with
  | record rec =>
    rw [labelStep]
    obtain ⟨-, h⟩ | ⟨body, r, -, hr, h⟩ | ⟨body, r, rest, -, hr, hnum, h⟩ |
        ⟨body, rest, -, hr, h⟩ :=
      turn_logging_cases limits alloc ready s rec
    · rwa [h]
    · rw [h]
      exact numbered_finished hs (hs.lt _ r hr) fun i r' hr' heq ↦ hs.inj i _ r' r hr' hr heq
    · rw [h]
      refine numbered_finished ⟨fun i r' hr' ↦ ?_, hs.inj, fun d hd ↦ ?_⟩ ?_ fun i r' hr' heq ↦ ?_
      · exact Nat.lt_succ_of_lt (hs.lt i r' hr')
      · exact Nat.lt_succ_of_lt (hs.dispatched_lt d hd)
      · exact hnum ▸ Nat.lt_succ_self _
      · exact absurd (hs.lt i r' hr') (by rw [heq, hnum]; exact lt_irrefl _)
    · rw [h]
      exact ⟨fun i r' hr' ↦ Nat.lt_succ_of_lt (hs.lt i r' hr'), hs.inj,
        fun d hd ↦ Nat.lt_succ_of_lt (hs.dispatched_lt d hd)⟩
  | flags id f =>
    refine ⟨fun i r h ↦ ?_, fun i j r r' h h' heq ↦ ?_, ?_⟩
    · obtain ⟨r₀, hr₀, hn, -⟩ := lookup_flags h
      rw [ext_flags, hn]
      exact hs.lt i r₀ hr₀
    · obtain ⟨r₀, hr₀, hn, -⟩ := lookup_flags h
      obtain ⟨r₁, hr₁, hn', -⟩ := lookup_flags h'
      exact hs.inj i j r₀ r₁ hr₀ hr₁ (hn.symm.trans (heq.trans hn'))
    · rw [ext_flags]
      exact hs.dispatched_lt
  | release id =>
    exact ⟨fun i r h ↦ hs.lt i r (lookup_erase h),
      fun i j r r' h h' heq ↦ hs.inj i j r r' (lookup_erase h) (lookup_erase h') heq,
      hs.dispatched_lt⟩

/-- The step rule. -/
theorem final_labelStep_iff (s : Machine (DispatchLog α)) (l : Label) (hs : Numbered s)
    (hf : Final s) :
    Final (labelStep limits (logging alloc ready) s l) ↔ SparesDispatched limits s l := by
  cases l with
  | record rec =>
    rw [labelStep, SparesDispatched]
    obtain ⟨hbody, h⟩ | ⟨body, r, hbody, hr, h⟩ | ⟨body, r, rest, -, hr, hnum, h⟩ |
      ⟨body, rest, -, hr, h⟩ := turn_logging_cases limits alloc ready s rec
    · rw [h]
      exact ⟨fun _ r hr _ ↦ keepsHandedOver_of_body_none hbody r.toRequestCore, fun _ ↦ hf⟩
    · rw [h]
      by_cases hold : isDispatched s r
      · rw [final_finished_iff hf hr hold, keepsHandedOver_iff hbody]
        constructor
        · intro hk r' hr' _
          rw [hr, Option.some.injEq] at hr'
          rwa [← hr']
        · intro hk
          exact hk r hr hold
      · refine ⟨fun _ r' hr' hold' ↦ ?_, fun _ ↦ ?_⟩
        · rw [hr, Option.some.injEq] at hr'
          exact absurd (hr' ▸ hold') hold
        · exact final_finished_of_new hf hold fun i r' hr' heq ↦ hs.inj i _ r' r hr' hr heq
    · rw [h]
      refine ⟨fun _ r' hr' ↦ ?_, fun _ ↦ final_finished_of_new ⟨hf.once, hf.unchanged⟩ ?_ ?_⟩
      · rw [hr] at hr'
        cases hr'
      · intro hold
        obtain ⟨d, hd, heq⟩ := List.mem_map.mp hold
        exact absurd (hs.dispatched_lt d hd) (by rw [heq, hnum]; exact lt_irrefl _)
      · intro i r' hr' heq
        exact absurd (hs.lt i r' hr') (by rw [heq, hnum]; exact lt_irrefl _)
    · rw [h]
      refine ⟨fun _ r' hr' ↦ ?_, fun _ ↦ ⟨hf.once, hf.unchanged⟩⟩
      rw [hr] at hr'
      cases hr'
  | flags id f =>
    refine iff_of_true ⟨?_, fun i r h d hd heq ↦ ?_⟩ trivial
    · rw [ext_flags]
      exact hf.once
    · obtain ⟨r₀, hr₀, hn, henv, hbody⟩ := lookup_flags h
      rw [ext_flags] at hd
      obtain ⟨henv', hbody'⟩ := hf.unchanged i r₀ hr₀ d hd (heq.trans hn)
      exact ⟨henv.trans henv', hbody.trans hbody'⟩
  | release id =>
    exact iff_of_true ⟨hf.once, fun i r h ↦ hf.unchanged i r (lookup_erase h)⟩ trivial

/-! ## Runs of `process_buffer`

A read brings several records, and a call may stop at a deferred one and leave all of them in the
buffer for the next. The run of calls is turned into the run of the turns it takes, to which the
step rule applies. -/

/-- What happens to a connection: a read and a call of `process_buffer`, or one of the other
steps. -/
inductive Event where
  | read (chunk : Bytes)
  | flags (id : UInt16) (f : RequestFlags)
  | release (id : UInt16)

def eventStep (limits : Limits) (cb : Callbacks (DispatchLog α)) (st : Reading (DispatchLog α)) :
    Event → Reading (DispatchLog α)
  | .read chunk => readChunk limits cb st chunk
  | .flags id f => { st with toMachine := labelStep limits cb st.toMachine (.flags id f) }
  | .release id => { st with toMachine := labelStep limits cb st.toMachine (.release id) }

/-- The turns behind one event. -/
def eventLabels (limits : Limits) (cb : Callbacks (DispatchLog α)) (st : Reading (DispatchLog α)) :
    Event → List Label
  | .read chunk => (processTurns limits cb (st.inBuf ++ chunk) st.toMachine).map Label.record
  | .flags id f => [.flags id f]
  | .release id => [.release id]

/-- The turns behind a sequence of events. -/
def runLabels (limits : Limits) (cb : Callbacks (DispatchLog α)) :
    Reading (DispatchLog α) → List Event → List Label
  | _, [] => []
  | st, e :: es => eventLabels limits cb st e ++ runLabels limits cb (eventStep limits cb st e) es

private theorem foldl_record (cb : Callbacks (DispatchLog α)) (recs : List Record)
    (s : Machine (DispatchLog α)) :
    (recs.map Label.record).foldl (labelStep limits cb) s = recs.foldl (turn limits cb) s := by
  rw [List.foldl_map]
  rfl

/-- **A run of calls is a run of turns.** -/
theorem toMachine_foldl_eventStep (limits : Limits) (cb : Callbacks (DispatchLog α))
    (st : Reading (DispatchLog α)) (es : List Event) :
    (es.foldl (eventStep limits cb) st).toMachine
      = (runLabels limits cb st es).foldl (labelStep limits cb) st.toMachine := by
  induction es generalizing st with
  | nil => rfl
  | cons e es ih =>
    rw [List.foldl_cons, ih, runLabels, List.foldl_append]
    congr 1
    cases e with
    | read chunk =>
      rw [eventLabels, foldl_record, ← processBuffer_eq_foldl]
      rfl
    | flags id f => rfl
    | release id => rfl

/-- **When dispatch is final.** From any state in which it has been final so far, it stays so
through a run, after every record of every read, exactly when each record for a request that has
been handed over, and is still there, finds it in a state in which the record is harmless. -/
theorem always_final_iff (limits : Limits) (alloc : UInt16 → α → Option Request × α)
    (ready : Request → α → Request × α) (st : Reading (DispatchLog α)) (es : List Event)
    (hs : Numbered st.toMachine) (hf : Final st.toMachine) :
    (Always (labelStep limits (logging alloc ready)) Final st.toMachine
        (runLabels limits (logging alloc ready) st es) ↔
      Meets (labelStep limits (logging alloc ready)) (SparesDispatched limits) st.toMachine
        (runLabels limits (logging alloc ready) st es)) ∧
    (es.foldl (eventStep limits (logging alloc ready)) st).toMachine
      = (runLabels limits (logging alloc ready) st es).foldl
          (labelStep limits (logging alloc ready)) st.toMachine :=
  ⟨always_iff_meets_of_invariant numbered_labelStep final_labelStep_iff hs hf,
    toMachine_foldl_eventStep limits (logging alloc ready) st es⟩

end

/-- A connection on which nothing has arrived. -/
def freshReading : Reading (DispatchLog ℕ) where
  requests := ∅
  outBuf := []
  ext := ⟨0, 0, []⟩
  inBuf := []
  closed := false

private theorem numbered_freshReading : Numbered freshReading.toMachine :=
  ⟨fun _ _ h ↦ (nomatch h), fun _ _ _ _ h ↦ (nomatch h), fun _ hd ↦ (nomatch hd)⟩

private theorem final_freshReading : Final freshReading.toMachine :=
  ⟨List.nodup_nil, fun _ _ h ↦ nomatch h⟩

/-- An allocator that takes the arenas in order. -/
def nextArena (id : UInt16) (n : ℕ) : Option Request × ℕ :=
  (some { Request.ofArena n 0 with id := id }, n + 1)

/-- One record of a request with id 1. -/
def recordOne (type : UInt8) (content : Bytes) (h : content.length < 2 ^ 16) : Record :=
  ⟨type, 1, content, [], 0, h, Record.padding_nil_lt⟩

/-- The empty STDIN record comes twice, and some body after it. -/
theorem not_always_final_repeated_stdin :
    let cb := logging nextArena fun r n ↦ (r, n)
    let opened := [recordOne FCGI_BEGIN_REQUEST [0, 1, 0, 0, 0, 0, 0, 0] (by decide),
      recordOne FCGI_PARAMS [] (by decide), recordOne FCGI_STDIN [] (by decide)]
    let again := [recordOne FCGI_STDIN [] (by decide), recordOne FCGI_STDIN [65] (by decide)]
    let es := [Event.read (opened.flatMap Record.encode), .read (again.flatMap Record.encode)]
    let st := es.foldl (eventStep {} cb) freshReading
    st.ext.dispatched.map Request.handle = [0, 0, 0] ∧
      st.ext.dispatched.map (fun r ↦ r.body) = [[], [], [65]] ∧
      ¬Always (labelStep {} cb) Final freshReading.toMachine (runLabels {} cb freshReading es) := by
  intro cb opened again es st
  refine ⟨by decide, by decide, fun h ↦ ?_⟩
  have hlast := h.last
  rw [← toMachine_foldl_eventStep] at hlast
  exact absurd hlast.once (by decide)

/-- A record for a request that has been handed over is an end of the input and makes nothing
ready. -/
def EndsInputAgain (s : Machine (DispatchLog ℕ)) : Label → Prop
  | .record rec => ∀ r ∈ s.requests.lookup rec.requestId,
    r.handle ∈ s.ext.dispatched.map Request.handle → rec.type = FCGI_STDIN ∧ rec.content = [] ∧
      isReady { r.flags with inputComplete := true } = false
  | _ => True

instance {s : Machine (DispatchLog ℕ)} : ∀ l : Label, Decidable (EndsInputAgain s l)
  | .record _ => inferInstanceAs (Decidable (∀ r ∈ _, _ → _))
  | .flags .. | .release _ => .isTrue trivial

private theorem EndsInputAgain.sparesDispatched {limits : Limits} {s : Machine (DispatchLog ℕ)}
    {l : Label} (h : EndsInputAgain s l) : SparesDispatched limits s l := by
  cases l with
  | record rec =>
    intro r hr hdispatched
    obtain ⟨htype, hcontent, hready⟩ := h r hr hdispatched
    rw [keepsHandedOver, htype, hcontent]
    exact hready
  | _ => trivial

/-- The empty STDIN record comes a second time when the request has been answered, and its id is
used again when it has been released. -/
theorem always_final_iff_answered :
    let cb := logging nextArena fun r n ↦ (r, n)
    let opened := [recordOne FCGI_BEGIN_REQUEST [0, 1, 0, 0, 0, 0, 0, 0] (by decide),
      recordOne FCGI_PARAMS [] (by decide), recordOne FCGI_STDIN [] (by decide)]
    let again := recordOne FCGI_STDIN [] (by decide)
    let es := [Event.read (opened.flatMap Record.encode), .flags 1 { responded := true },
      .read again.encode, .release 1, .read (opened.flatMap Record.encode)]
    (es.foldl (eventStep {} cb) freshReading).ext.dispatched.map Request.handle = [0, 1] ∧
      Always (labelStep {} cb) Final freshReading.toMachine (runLabels {} cb freshReading es) := by
  intro cb opened again es
  have hspares : Meets (labelStep {} cb) EndsInputAgain freshReading.toMachine
      (runLabels {} cb freshReading es) := by decide +kernel
  exact ⟨by decide, (always_final_iff {} nextArena (fun r n ↦ (r, n)) freshReading es
    numbered_freshReading final_freshReading).1.mpr (hspares.mono fun _ _ h ↦ h.sparesDispatched)⟩

end Wasapi.Fastcgi
