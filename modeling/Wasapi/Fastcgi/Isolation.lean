import Wasapi.Fastcgi.Chunking
import Wasapi.Library.Transitions

/-!
# Requests of one connection do not disturb each other

The records of several requests share one buffer, one loop, one map and one output buffer. What a
buffer does to request `i` (its entry, the END_REQUEST records sent for it and the calls of
`on_request_ready` with it) is nevertheless fixed by the records of `i` in the buffer, whatever
records of other requests stand between them.

Two runs are compared by `Agree`. A record of another request keeps it from either side and a record
of `i` keeps it when both sides handle it, so the theorem is an instance of
`foldl_rel_of_filter_eq`.

The environments are compared by a relation `R` that survives assignments. `R` is equality when
every fresh request of an id starts with the same environment; the source's constructor writes the
number of the arena into a fresh environment, and there `R` is equality outside that key.
-/

namespace Wasapi.Fastcgi

/-! ## The same effect on two requests

Two runs rarely have the same entry for a request: its arena is another one, and `env` says so. What
a record does to the decoded part of a request depends on the decoded part alone, up to that number.
-/

/-- A comparison of environments that survives assignments. -/
def SurvivesAssign (R : DynamicVariable → DynamicVariable → Prop) : Prop :=
  ∀ env env' key value, R env env' → R (env.assign key value) (env'.assign key value)

/-- The same decoded state, with the environments compared by `R`. -/
structure SameCore (R : DynamicVariable → DynamicVariable → Prop) (r r' : RequestCore) : Prop where
  id : r.id = r'.id
  flags : r.flags = r'.flags
  env : R r.env r'.env
  body : r.body = r'.body
  paramsBytes : r.paramsBytes = r'.paramsBytes
  bodyBytes : r.bodyBytes = r'.bodyBytes

theorem SameCore.refl (r : RequestCore) : SameCore Eq r r := ⟨rfl, rfl, rfl, rfl, rfl, rfl⟩

/-- On these two requests the body sends the same records, which bear the request's id, and leaves
the same state. -/
def SameEffectAt (R : DynamicVariable → DynamicVariable → Prop)
    (body : RequestCore → Bytes → RequestCore × Bytes) (r r' : RequestCore) : Prop :=
  ∃ sent : List Record, (∀ rec ∈ sent, rec.requestId = r.id) ∧
    ∀ out out', (body r out).2 = out ++ sent.flatMap Record.encode ∧
      (body r' out').2 = out' ++ sent.flatMap Record.encode ∧
      SameCore R (body r out).1 (body r' out').1 ∧ (body r out).1.id = r.id

/-- What a body does depends on the decoded state only. -/
def SameEffect (R : DynamicVariable → DynamicVariable → Prop)
    (body : RequestCore → Bytes → RequestCore × Bytes) : Prop :=
  ∀ r r', SameCore R r r' → SameEffectAt R body r r'

/-- The record `append_end_request` writes. -/
def endRequestRecord (id : UInt16) (appStatus : UInt32) (status : ProtocolStatus) : Record :=
  ⟨FCGI_END_REQUEST, id, beBytes 4 appStatus.toNat ++ [status.toByte, 0, 0, 0], [], 0,
    by rw [List.length_append, length_beBytes]; norm_num, by norm_num⟩

theorem appendEndRequest_eq (out : Bytes) (id : UInt16) (appStatus : UInt32)
    (status : ProtocolStatus) :
    appendEndRequest out id appStatus status
      = out ++ (endRequestRecord id appStatus status).encode := by
  rw [appendEndRequest, appendRecord, Record.encode, endRequestRecord, Record.header,
    List.append_nil]
  rfl

section

variable {R : DynamicVariable → DynamicVariable → Prop} {limits : Limits}

/-- A body that sends nothing. -/
private theorem SameEffectAt.of_silent {body : RequestCore → Bytes → RequestCore × Bytes}
    {r r' c c' : RequestCore} (h : ∀ out, body r out = (c, out))
    (h' : ∀ out, body r' out = (c', out)) (hc : SameCore R c c') (hid : c.id = r.id) :
    SameEffectAt R body r r' := by
  refine ⟨[], by simp, fun out out' ↦ ?_⟩
  rw [h, h', List.flatMap_nil, List.append_nil, List.append_nil]
  exact ⟨rfl, rfl, hc, hid⟩

/-- A body that does on these requests what another one does. -/
private theorem SameEffectAt.congr {body body' : RequestCore → Bytes → RequestCore × Bytes}
    {r r' : RequestCore} (h : SameEffectAt R body r r') (hr : body' r = body r)
    (hr' : body' r' = body r') : SameEffectAt R body' r r' := by
  rw [SameEffectAt, hr, hr']
  exact h

private theorem sameEffect_failRequest (status : ProtocolStatus) :
    SameEffect R fun r out ↦ failRequest r out status := by
  intro r r' h
  by_cases hr : r.flags.responded = true
  · exact .of_silent (fun out ↦ if_pos hr) (fun out ↦ if_pos (h.flags ▸ hr)) h rfl
  · refine ⟨[endRequestRecord r.id 0 status], fun rec hrec ↦ ?_, fun out out' ↦ ?_⟩
    · rw [List.mem_singleton.mp hrec]
      rfl
    · beta_reduce
      rw [failRequest, if_neg hr, failRequest, if_neg (h.flags ▸ hr), appendEndRequest_eq,
        appendEndRequest_eq, ← h.id, List.flatMap_singleton]
      exact ⟨rfl, rfl, ⟨rfl, by rw [h.flags], h.env, h.body, h.paramsBytes, h.bodyBytes⟩, rfl⟩

private theorem sameEffect_storePairs (limits : Limits) (hR : SurvivesAssign R)
    (ps : List (Bytes × Bytes)) : SameEffect R (storePairs limits ps) := by
  induction ps with
  | nil => exact fun r r' h ↦ .of_silent (fun out ↦ rfl) (fun out ↦ rfl) h rfl
  | cons p ps ih =>
    obtain ⟨name, value⟩ := p
    intro r r' h
    by_cases hover : limits.maxParamsBytes < sizeT (r.paramsBytes + name.length + value.length)
    · exact (sameEffect_failRequest .overloaded r r' h).congr
        (funext fun out ↦ if_pos hover) (funext fun out ↦ if_pos (h.paramsBytes ▸ hover))
    · obtain ⟨sent, hsent, heq⟩ := ih
        { r with
          env := r.env.assign name (.string value)
          paramsBytes := sizeT (r.paramsBytes + name.length + value.length) }
        { r' with
          env := r'.env.assign name (.string value)
          paramsBytes := sizeT (r'.paramsBytes + name.length + value.length) }
        ⟨h.id, h.flags, hR _ _ _ _ h.env, h.body, by rw [h.paramsBytes], h.bodyBytes⟩
      refine ⟨sent, hsent, fun out out' ↦ ?_⟩
      rw [storePairs, if_neg hover, storePairs, if_neg (h.paramsBytes ▸ hover)]
      exact heq out out'

private theorem sameEffect_paramsRecord (limits : Limits) (hR : SurvivesAssign R)
    (content : Bytes) : SameEffect R (paramsRecord limits content) := by
  intro r r' h
  by_cases hnil : content.isEmpty
  · exact .of_silent (fun out ↦ if_pos hnil) (fun out ↦ if_pos hnil)
      ⟨h.id, by rw [h.flags], h.env, h.body, h.paramsBytes, h.bodyBytes⟩ rfl
  · by_cases hfailed : r.flags.failed = true
    · have hsame : ∀ c : RequestCore, c.flags.failed = true → ∀ out,
          paramsRecord limits content c out = (c, out) := by
        intro c hc out
        rw [paramsRecord, if_neg hnil, if_pos hc]
      exact .of_silent (hsame r hfailed) (hsame r' (h.flags ▸ hfailed)) h rfl
    · have hstore : ∀ c : RequestCore, ¬c.flags.failed = true →
          paramsRecord limits content c = storePairs limits (pairsOf content.length content) c := by
        intro c hc
        funext out
        rw [paramsRecord, if_neg hnil, if_neg hc, paramsLoop_eq]
      exact (sameEffect_storePairs limits hR _ r r' h).congr (hstore r hfailed)
        (hstore r' (h.flags ▸ hfailed))

private theorem sameEffect_stdinRecord (limits : Limits) (content : Bytes) :
    SameEffect R (stdinRecord limits content) := by
  intro r r' h
  by_cases hnil : content.isEmpty
  · exact .of_silent (fun out ↦ if_pos hnil) (fun out ↦ if_pos hnil)
      ⟨h.id, by rw [h.flags], h.env, h.body, h.paramsBytes, h.bodyBytes⟩ rfl
  · by_cases hfailed : r.flags.failed = true
    · have hsame : ∀ c : RequestCore, c.flags.failed = true → ∀ out,
          stdinRecord limits content c out = (c, out) := by
        intro c hc out
        rw [stdinRecord, if_neg hnil, if_pos hc]
      exact .of_silent (hsame r hfailed) (hsame r' (h.flags ▸ hfailed)) h rfl
    · have hfits : ∀ c : RequestCore, ¬c.flags.failed = true → ∀ out,
          stdinRecord limits content c out =
            if limits.maxStdinBytes < sizeT (c.bodyBytes + content.length) then
              failRequest c out .overloaded
            else ({ c with
              body := c.body ++ content
              bodyBytes := sizeT (c.bodyBytes + content.length) }, out) := by
        intro c hc out
        rw [stdinRecord, if_neg hnil, if_neg hc]
      have hr := hfits r hfailed
      have hr' := hfits r' (h.flags ▸ hfailed)
      by_cases hover : limits.maxStdinBytes < sizeT (r.bodyBytes + content.length)
      · exact (sameEffect_failRequest .overloaded r r' h).congr
          (funext fun out ↦ (hr out).trans (if_pos hover))
          (funext fun out ↦ (hr' out).trans (if_pos (h.bodyBytes ▸ hover)))
      · exact .of_silent (fun out ↦ (hr out).trans (if_neg hover))
          (fun out ↦ (hr' out).trans (if_neg (h.bodyBytes ▸ hover)))
          ⟨h.id, h.flags, h.env, by rw [h.body], h.paramsBytes, by rw [h.bodyBytes]⟩ rfl

private theorem sameEffect_beginRequest (content : Bytes) :
    SameEffect R fun r out ↦ (beginRequest content r, out) := by
  intro r r' h
  exact .of_silent (fun out ↦ rfl) (fun out ↦ rfl)
    ⟨h.id, by rw [beginRequest, beginRequest, h.flags], h.env, h.body, h.paramsBytes, h.bodyBytes⟩
    rfl

private theorem sameEffect_abortRequest : SameEffect R abortRequest := by
  intro r r' h
  exact sameEffect_failRequest .requestComplete
    { r with flags := { r.flags with aborted := true } }
    { r' with flags := { r'.flags with aborted := true } }
    ⟨h.id, by rw [h.flags], h.env, h.body, h.paramsBytes, h.bodyBytes⟩

/-- Every case of the switch has the same effect on requests in the same state. -/
theorem sameEffect_recordBody (hR : SurvivesAssign R) {rec : Record}
    {body : RequestCore → Bytes → RequestCore × Bytes} (h : recordBody limits rec = some body) :
    SameEffect R body := by
  rw [recordBody] at h
  split at h
  · split at h
    · obtain rfl := Option.some.inj h
      exact sameEffect_beginRequest rec.content
    · cases h
  · split at h
    · obtain rfl := Option.some.inj h
      exact sameEffect_paramsRecord limits hR rec.content
    · split at h
      · obtain rfl := Option.some.inj h
        exact sameEffect_stdinRecord limits rec.content
      · split at h
        · obtain rfl := Option.some.inj h
          exact sameEffect_abortRequest
        · cases h

end

/-! ## Machines that agree on a request

What a machine says about request `i` is its entry, the END_REQUEST records for it in the output and
the calls made with it. A turn for another id leaves all three alone, and a turn for `i` does the
same on both sides. -/

/-- Every request is stored under its id, as `allocate_request` and the lookup helper do it. -/
def KeyedById (requests : Requests) : Prop := ∀ i r, requests.lookup i = some r → r.id = i

theorem KeyedById.insert {requests : Requests} (h : KeyedById requests) {id : UInt16} {r : Request}
    (hr : r.id = id) : KeyedById (requests.insert id r) := by
  intro i r' hr'
  by_cases hi : i = id
  · subst hi
    rw [AList.lookup_insert, Option.some.injEq] at hr'
    rw [← hr', hr]
  · rw [AList.lookup_insert_ne hi] at hr'
    exact h i r' hr'

/-- The END_REQUEST records for `i`. -/
def answersTo (i : UInt16) (sent : List Record) : List Record :=
  sent.filter fun rec ↦ rec.type = FCGI_END_REQUEST && rec.requestId = i

private theorem answersTo_append (i : UInt16) (sent sent' : List Record) :
    answersTo i (sent ++ sent') = answersTo i sent ++ answersTo i sent' := List.filter_append ..

private theorem answersTo_eq_nil {i : UInt16} {sent : List Record}
    (h : ∀ rec ∈ sent, rec.requestId ≠ i) :
    answersTo i sent = [] := by
  rw [answersTo, List.filter_eq_nil_iff]
  intro rec hrec
  simp [h rec hrec]

/-- The requests `on_request_ready` was called with that bear the id `i`. -/
def callsFor (i : UInt16) (log : List Request) : List RequestCore :=
  (log.filter fun r ↦ r.id = i).map Request.toRequestCore

private theorem callsFor_append (i : UInt16) (log log' : List Request) :
    callsFor i (log ++ log') = callsFor i log ++ callsFor i log' := by
  rw [callsFor, List.filter_append, List.map_append, callsFor, callsFor]

private theorem callsFor_singleton (i : UInt16) (r : Request) :
    callsFor i [r] = if r.id = i then [r.toRequestCore] else [] := by
  rw [callsFor, List.filter_cons]
  by_cases h : r.id = i
  · simp [h]
  · simp [h]

section

variable {α : Type*} {limits : Limits} {alloc : UInt16 → α → Request × α}

/-- The request a record of id `id` finds or is given. -/
def entryOr (alloc : UInt16 → α → Request × α) (id : UInt16) (s : Machine (α × List Request)) :
    Request :=
  (s.requests.lookup id).getD (alloc id s.ext.1).1

variable (alloc) in
/-- **One turn, when allocation never fails.** -/
theorem turn_granting {rec : Record} {body : RequestCore → Bytes → RequestCore × Bytes}
    (h : recordBody limits rec = some body) (s : Machine (α × List Request)) :
    ∃ a',
      let r := entryOr alloc rec.requestId s
      let core := (body r.toRequestCore s.outBuf).1
      turn limits (granting alloc) s rec =
        { requests := s.requests.insert rec.requestId (r.withCore core)
          outBuf := (body r.toRequestCore s.outBuf).2
          ext := (a', s.ext.2 ++ if isReady core.flags then [r.withCore core] else []) } := by
  cases hr : s.requests.lookup rec.requestId with
  | some r =>
    have hentry : entryOr alloc rec.requestId s = r := by rw [entryOr, hr, Option.getD_some]
    refine ⟨s.ext.1, ?_⟩
    rw [turn, processRecord_active h hr, Turn.machine, touch, hentry]
    simp only [granting, recording]
    split <;> simp
  | none =>
    have hentry : entryOr alloc rec.requestId s = (alloc rec.requestId s.ext.1).1 := by
      rw [entryOr, hr, Option.getD_none]
    have ha : (granting alloc).allocateRequest rec.requestId s.ext
        = (some (alloc rec.requestId s.ext.1).1, ((alloc rec.requestId s.ext.1).2, s.ext.2)) := rfl
    refine ⟨(alloc rec.requestId s.ext.1).2, ?_⟩
    rw [turn, processRecord_allocated h hr ha, Turn.machine, touch, hentry]
    simp only [AList.insert_insert, granting, recording]
    split <;> simp

private theorem id_entryOr (hid : ∀ id a, (alloc id a).1.id = id) {s : Machine (α × List Request)}
    (hs : KeyedById s.requests) (id : UInt16) : (entryOr alloc id s).id = id := by
  cases hr : s.requests.lookup id with
  | some r => rw [entryOr, hr, Option.getD_some, hs id r hr]
  | none => rw [entryOr, hr, Option.getD_none, hid]

/-- What a turn leaves of the view on request `i` when the record bears another id. -/
theorem turn_of_ne (hid : ∀ id a, (alloc id a).1.id = id) {s : Machine (α × List Request)}
    (hs : KeyedById s.requests) {rec : Record} {i : UInt16} (hi : rec.requestId ≠ i) :
    let s' := turn limits (granting alloc) s rec
    s'.requests.lookup i = s.requests.lookup i ∧ KeyedById s'.requests ∧
      (∃ sent, s'.outBuf = s.outBuf ++ sent.flatMap Record.encode ∧ answersTo i sent = []) ∧
      callsFor i s'.ext.2 = callsFor i s.ext.2 := by
  intro s'
  cases hbody : recordBody limits rec with
  | none =>
    have hs' : s' = s := by
      simp only [s', turn, processRecord_of_body_none hbody, Turn.machine]
    rw [hs']
    exact ⟨rfl, hs, ⟨[], by simp, rfl⟩, rfl⟩
  | some body =>
    obtain ⟨a', hturn⟩ := turn_granting alloc hbody s
    set r := entryOr alloc rec.requestId s with hr
    have hrid : r.id = rec.requestId := id_entryOr hid hs rec.requestId
    obtain ⟨sent, hsent, heq⟩ := sameEffect_recordBody (R := Eq) (fun _ _ _ _ h ↦ by rw [h]) hbody
      r.toRequestCore r.toRequestCore (.refl _)
    obtain ⟨hout, -, -, hcid⟩ := heq s.outBuf s.outBuf
    have hid' : (r.withCore (body r.toRequestCore s.outBuf).1).id = rec.requestId :=
      hcid.trans hrid
    have hs' : s' = _ := hturn
    rw [hs']
    refine ⟨AList.lookup_insert_ne hi.symm, hs.insert hid', ⟨sent, hout, answersTo_eq_nil ?_⟩, ?_⟩
    · intro rec' hrec'
      rw [hsent rec' hrec', hrid]
      exact hi
    · rw [callsFor_append]
      split
      · rw [callsFor_singleton, if_neg (hid' ▸ hi), List.append_nil]
      · exact List.append_nil _

/-- The two machines agree on request `i`, on what they have sent for it since their outputs were
`out₀` and `out₀'`, and on the calls made with it. -/
structure Agree (R : DynamicVariable → DynamicVariable → Prop) (i : UInt16) (out₀ out₀' : Bytes)
    (s s' : Machine (α × List Request)) : Prop where
  entry : Option.Rel (SameCore R) ((s.requests.lookup i).map Request.toRequestCore)
    ((s'.requests.lookup i).map Request.toRequestCore)
  keyed : KeyedById s.requests
  keyed' : KeyedById s'.requests
  answers : ∃ sent sent', s.outBuf = out₀ ++ sent.flatMap Record.encode ∧
    s'.outBuf = out₀' ++ sent'.flatMap Record.encode ∧ answersTo i sent = answersTo i sent'
  calls : List.Forall₂ (SameCore R) (callsFor i s.ext.2) (callsFor i s'.ext.2)

section

variable {R : DynamicVariable → DynamicVariable → Prop} {i : UInt16} {out₀ out₀' : Bytes}
  {s s' : Machine (α × List Request)} {rec : Record}

private theorem Agree.turn_left (hid : ∀ id a, (alloc id a).1.id = id)
    (h : Agree R i out₀ out₀' s s') (hi : rec.requestId ≠ i) :
    Agree R i out₀ out₀' (turn limits (granting alloc) s rec) s' := by
  obtain ⟨hlookup, hkeyed, ⟨more, hout, hmore⟩, hcalls⟩ := turn_of_ne hid h.keyed hi
  obtain ⟨sent, sent', hsent, hsent', heq⟩ := h.answers
  refine ⟨hlookup ▸ h.entry, hkeyed, h.keyed', ⟨sent ++ more, sent', ?_, hsent', ?_⟩,
    hcalls ▸ h.calls⟩
  · rw [hout, hsent, List.append_assoc, List.flatMap_append]
  · rw [answersTo_append, hmore, List.append_nil, heq]

private theorem Agree.turn_right (hid : ∀ id a, (alloc id a).1.id = id)
    (h : Agree R i out₀ out₀' s s') (hi : rec.requestId ≠ i) :
    Agree R i out₀ out₀' s (turn limits (granting alloc) s' rec) := by
  obtain ⟨hlookup, hkeyed, ⟨more, hout, hmore⟩, hcalls⟩ := turn_of_ne hid h.keyed' hi
  obtain ⟨sent, sent', hsent, hsent', heq⟩ := h.answers
  refine ⟨hlookup ▸ h.entry, h.keyed, hkeyed, ⟨sent, sent' ++ more, hsent, ?_, ?_⟩,
    hcalls ▸ h.calls⟩
  · rw [hout, hsent', List.append_assoc, List.flatMap_append]
  · rw [answersTo_append, hmore, List.append_nil, heq]

/-- Allocation gives both machines the same fresh request, as far as `R` can tell. -/
theorem sameCore_entryOr (hfresh : ∀ id a a', SameCore R (alloc id a).1.toRequestCore
      (alloc id a').1.toRequestCore) (h : Agree R i out₀ out₀' s s') :
    SameCore R (entryOr alloc i s).toRequestCore (entryOr alloc i s').toRequestCore := by
  have hentry := h.entry
  rw [entryOr, entryOr]
  cases hr : s.requests.lookup i with
  | some r =>
    cases hr' : s'.requests.lookup i with
    | some r' =>
      rw [hr, hr'] at hentry
      cases hentry with
      | some hsame => exact hsame
    | none =>
      rw [hr, hr'] at hentry
      cases hentry
  | none =>
    cases hr' : s'.requests.lookup i with
    | some r' =>
      rw [hr, hr'] at hentry
      cases hentry
    | none => exact hfresh i s.ext.1 s'.ext.1

private theorem Agree.turn_both (hR : SurvivesAssign R) (hid : ∀ id a, (alloc id a).1.id = id)
    (hfresh : ∀ id a a', SameCore R (alloc id a).1.toRequestCore (alloc id a').1.toRequestCore)
    (h : Agree R i out₀ out₀' s s') (hi : rec.requestId = i) :
    Agree R i out₀ out₀' (turn limits (granting alloc) s rec)
      (turn limits (granting alloc) s' rec) := by
  cases hbody : recordBody limits rec with
  | none =>
    rw [turn, turn, processRecord_of_body_none hbody, processRecord_of_body_none hbody]
    exact h
  | some body =>
    subst hi
    obtain ⟨a, hturn⟩ := turn_granting alloc hbody s
    obtain ⟨a', hturn'⟩ := turn_granting alloc hbody s'
    have hsame := sameCore_entryOr hfresh h
    set r := entryOr alloc rec.requestId s with hr
    set r' := entryOr alloc rec.requestId s' with hr'
    have hrid : r.id = rec.requestId := id_entryOr hid h.keyed rec.requestId
    obtain ⟨more, -, heq⟩ := sameEffect_recordBody hR hbody r.toRequestCore r'.toRequestCore hsame
    obtain ⟨hout, hout', hcore, hcid⟩ := heq s.outBuf s'.outBuf
    set c := r.withCore (body r.toRequestCore s.outBuf).1 with hc
    set c' := r'.withCore (body r'.toRequestCore s'.outBuf).1 with hc'
    have hid' : c.id = rec.requestId := hcid.trans hrid
    have hid'' : c'.id = rec.requestId := hcore.id.symm.trans hid'
    obtain ⟨sent, sent', hsent, hsent', hanswers⟩ := h.answers
    rw [hturn, hturn']
    refine ⟨?_, h.keyed.insert hid', h.keyed'.insert hid'',
      ⟨sent ++ more, sent' ++ more, ?_, ?_, ?_⟩, ?_⟩
    · simp only [AList.lookup_insert, Option.map_some]
      exact .some hcore
    · exact hout.trans (by rw [hsent, List.append_assoc, List.flatMap_append])
    · exact hout'.trans (by rw [hsent', List.append_assoc, List.flatMap_append])
    · rw [answersTo_append, answersTo_append, hanswers]
    · rw [callsFor_append, callsFor_append, hcore.flags]
      refine List.rel_append h.calls ?_
      split
      · rw [callsFor_singleton, if_pos hid', callsFor_singleton, if_pos hid'']
        exact .cons hcore .nil
      · exact .nil

end

/-- **Multiplexing isolation.** Two buffers with the same records of id `i`, however they are
interleaved with records of other ids, leave request `i` in the same state, append the same
END_REQUEST records for it and make the same calls with it. -/
theorem processBuffer_isolated (limits : Limits) (alloc : UInt16 → α → Request × α)
    {R : DynamicVariable → DynamicVariable → Prop} (hR : SurvivesAssign R)
    (hid : ∀ id a, (alloc id a).1.id = id)
    (hfresh : ∀ id a a', SameCore R (alloc id a).1.toRequestCore (alloc id a').1.toRequestCore)
    {requests requests' : Requests} (hkeyed : KeyedById requests) (hkeyed' : KeyedById requests')
    {i : UInt16} (hentry : Option.Rel (SameCore R) ((requests.lookup i).map Request.toRequestCore)
      ((requests'.lookup i).map Request.toRequestCore)) (out out' : Bytes) (a a' : α)
    {recs recs' : List Record}
    (h : recs.filter (fun rec ↦ rec.requestId = i) = recs'.filter fun rec ↦ rec.requestId = i) :
    let res := processBuffer limits (granting alloc) (recs.flatMap Record.encode)
      ⟨requests, out, (a, [])⟩
    let res' := processBuffer limits (granting alloc) (recs'.flatMap Record.encode)
      ⟨requests', out', (a', [])⟩
    Option.Rel (SameCore R) ((res.requests.lookup i).map Request.toRequestCore)
        ((res'.requests.lookup i).map Request.toRequestCore) ∧
      (∃ sent sent', res.outBuf = out ++ sent ∧ res'.outBuf = out' ++ sent' ∧
        answersTo i (recordFramer.frames sent) = answersTo i (recordFramer.frames sent')) ∧
      List.Forall₂ (SameCore R) (callsFor i res.ext.2) (callsFor i res'.ext.2) := by
  have hstart : Agree R i out out' ⟨requests, out, (a, [])⟩ ⟨requests', out', (a', [])⟩ :=
    ⟨hentry, hkeyed, hkeyed', ⟨[], [], (List.append_nil _).symm, (List.append_nil _).symm, rfl⟩,
      .nil⟩
  have hend : Agree R i out out'
      (recs.foldl (turn limits (granting alloc)) ⟨requests, out, (a, [])⟩)
      (recs'.foldl (turn limits (granting alloc)) ⟨requests', out', (a', [])⟩) := by
    refine foldl_rel_of_filter_eq (fun s s' rec hs hrec ↦ ?_) (fun s s' rec hs hrec ↦ ?_)
      (fun s s' rec hs hrec ↦ ?_) h hstart
    · exact hs.turn_left hid (of_decide_eq_false hrec)
    · exact hs.turn_right hid (of_decide_eq_false hrec)
    · exact hs.turn_both hR hid hfresh (of_decide_eq_true hrec)
  have hrun : ∀ (recs : List Record) (s : Machine (α × List Request)),
      (processBuffer limits (granting alloc) (recs.flatMap Record.encode) s).toMachine
        = recs.foldl (turn limits (granting alloc)) s := by
    intro recs s
    rw [processBuffer_toMachine, frames_flatMap_encode,
      runRecords_of_neverRefuses (neverRefuses_granting alloc)]
  simp only [hrun]
  obtain ⟨sent, sent', hsent, hsent', hanswers⟩ := hend.answers
  refine ⟨hend.entry, ⟨sent.flatMap Record.encode, sent'.flatMap Record.encode, hsent, hsent', ?_⟩,
    hend.calls⟩
  rw [frames_flatMap_encode, frames_flatMap_encode, hanswers]

end

/-- The constructor writes the arena's number into a fresh environment, and which arena a request
gets depends on the order in which others ask: environments agree outside that key. -/
theorem processBuffer_isolated_swapped_begins :
    let alloc : UInt16 → ℕ → Request × ℕ :=
      fun id n ↦ ({ Request.ofArena n 0 with id := id }, n + 1)
    let sameOff : DynamicVariable → DynamicVariable → Prop :=
      fun env env' ↦ ∀ k, k ≠ ascii "DBG_ARENA" → env.find k = env'.find k
    let begins (id : UInt16) : Record :=
      ⟨FCGI_BEGIN_REQUEST, id, [0, 1, 0, 0, 0, 0, 0, 0], [], 0, by decide, by decide⟩
    let aborts : Record := ⟨FCGI_ABORT_REQUEST, 1, [], [], 0, by decide, by decide⟩
    let res := processBuffer {} (granting alloc)
      ([begins 1, begins 2, aborts].flatMap Record.encode) ⟨∅, [], (0, [])⟩
    let res' := processBuffer {} (granting alloc)
      ([begins 2, begins 1, aborts].flatMap Record.encode) ⟨∅, [], (0, [])⟩
    Option.Rel (SameCore sameOff) ((res.requests.lookup 1).map Request.toRequestCore)
        ((res'.requests.lookup 1).map Request.toRequestCore) ∧
      (∃ sent sent', res.outBuf = [] ++ sent ∧ res'.outBuf = [] ++ sent' ∧
        answersTo 1 (recordFramer.frames sent) = answersTo 1 (recordFramer.frames sent')) ∧
      List.Forall₂ (SameCore sameOff) (callsFor 1 res.ext.2) (callsFor 1 res'.ext.2) := by
  intro alloc sameOff begins aborts
  have hR : SurvivesAssign sameOff := by
    intro env env' key value h k hk
    by_cases hkey : k = key
    · rw [hkey, DynamicVariable.find_assign_self, DynamicVariable.find_assign_self]
    · rw [DynamicVariable.find_assign_of_ne _ _ hkey, DynamicVariable.find_assign_of_ne _ _ hkey,
        h k hk]
  have hfresh : ∀ id a a', SameCore sameOff (alloc id a).1.toRequestCore
      (alloc id a').1.toRequestCore := by
    refine fun id a a' ↦ ⟨rfl, rfl, fun k hk ↦ ?_, rfl, rfl, rfl⟩
    have hfind : ∀ n, (Request.ofArena n 0).env.find k = (DynamicVariable.object []).find k :=
      fun n ↦ DynamicVariable.find_assign_of_ne (.object []) (.number n) hk
    exact (hfind a).trans (hfind a').symm
  have hkeyed : KeyedById ∅ := fun i r h ↦ by cases h
  have hfilter : [begins 1, begins 2, aborts].filter (fun rec ↦ rec.requestId = 1)
      = [begins 2, begins 1, aborts].filter fun rec ↦ rec.requestId = 1 := rfl
  exact processBuffer_isolated {} alloc hR (fun id a ↦ rfl) hfresh hkeyed hkeyed .none [] [] 0 0
    hfilter

end Wasapi.Fastcgi
