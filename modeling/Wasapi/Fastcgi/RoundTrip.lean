import Wasapi.Fastcgi.Chunking

/-!
# Decoding inverts encoding

A client writes a request as a BEGIN_REQUEST record, its pairs grouped into PARAMS records, an empty
PARAMS record, its body cut into STDIN records and an empty STDIN record; it picks the form of every
length and the padding of every record. `EncodedRequest` collects these choices, and
`processBuffer_encode` shows that the decoder gets the pairs and the body back whatever they are.

All records of a request are handled on one entry of the map, so the machine stays
`⟨requests.insert id r, out, ext⟩` throughout, and only `r` changes.
-/

namespace Wasapi.Fastcgi

/-! ## What a client writes

Padding and the reserved octet are free, and so are the form of every length, the grouping of the
pairs into records and the cutting of the body. Only the bounds of the length fields restrict a
client, and they are fields of the structures. -/

/-- The octets behind the content of a record, and the reserved one in front of it. -/
structure Trailer where
  padding : Bytes := []
  reserved : UInt8 := 0
  padding_lt : padding.length < 2 ^ 8 := by decide

/-- A PARAMS record of whole pairs. -/
structure ParamsRecord extends Trailer where
  pairs : List EncodedPair
  pairs_ne_nil : pairs ≠ []
  content_lt : (pairs.flatMap EncodedPair.encode).length < 2 ^ 16

/-- A STDIN record with some of the body. -/
structure StdinRecord extends Trailer where
  content : Bytes
  content_ne_nil : content ≠ []
  content_lt : content.length < 2 ^ 16

structure EncodedRequest where
  role : UInt16 := 1
  flags : UInt8 := 0
  beginReserved : Bytes := [0, 0, 0, 0, 0]
  length_beginReserved : beginReserved.length = 5 := by decide
  beginTrailer : Trailer := {}
  params : List ParamsRecord
  paramsTrailer : Trailer := {}
  stdin : List StdinRecord
  stdinTrailer : Trailer := {}

/-- A record with this content and trailer. -/
def Trailer.record (t : Trailer) (type : UInt8) (id : UInt16) (content : Bytes)
    (h : content.length < 2 ^ 16) : Record :=
  ⟨type, id, content, t.padding, t.reserved, h, t.padding_lt⟩

def ParamsRecord.record (id : UInt16) (p : ParamsRecord) : Record :=
  p.toTrailer.record FCGI_PARAMS id (p.pairs.flatMap EncodedPair.encode) p.content_lt

def StdinRecord.record (id : UInt16) (p : StdinRecord) : Record :=
  p.toTrailer.record FCGI_STDIN id p.content p.content_lt

/-- The names and values in some PARAMS records. -/
def pairsOfRecords (ps : List ParamsRecord) : List (Bytes × Bytes) :=
  ps.flatMap fun p ↦ p.pairs.map fun pair ↦ (pair.name, pair.value)

private theorem pairsOfRecords_cons (p : ParamsRecord) (ps : List ParamsRecord) :
    pairsOfRecords (p :: ps)
      = (p.pairs.map fun pair ↦ (pair.name, pair.value)) ++ pairsOfRecords ps := rfl

namespace EncodedRequest

variable (q : EncodedRequest)

def pairs : List (Bytes × Bytes) := pairsOfRecords q.params

def body : Bytes := q.stdin.flatMap StdinRecord.content

/-- `struct BeginRequestBody` -/
def beginContent : Bytes := beBytes 2 q.role.toNat ++ (q.flags :: q.beginReserved)

theorem length_beginContent : q.beginContent.length = beginRequestBodySize := by
  rw [beginContent, List.length_append, length_beBytes, List.length_cons, q.length_beginReserved,
    beginRequestBodySize]

def beginRecord (id : UInt16) : Record :=
  q.beginTrailer.record FCGI_BEGIN_REQUEST id q.beginContent (by
    rw [length_beginContent, beginRequestBodySize]
    norm_num)

def paramsEnd (id : UInt16) : Record :=
  q.paramsTrailer.record FCGI_PARAMS id [] (by norm_num)

def stdinEnd (id : UInt16) : Record :=
  q.stdinTrailer.record FCGI_STDIN id [] (by norm_num)

/-- All records but the last. -/
def openRecords (id : UInt16) : List Record :=
  q.beginRecord id ::
    (q.params.map (ParamsRecord.record id)
      ++ (q.paramsEnd id :: q.stdin.map (StdinRecord.record id)))

def records (id : UInt16) : List Record := q.openRecords id ++ [q.stdinEnd id]

end EncodedRequest

/-! ## Storing within the limits

As long as the counts stay within the limits, a PARAMS record stores its pairs and a STDIN record
appends its content. The counts of several records add up to those of one. -/

/-- What pairs count towards `params_bytes`. -/
def pairsSize (ps : List (Bytes × Bytes)) : ℕ := (ps.map fun p ↦ p.1.length + p.2.length).sum

@[simp] theorem pairsSize_nil : pairsSize [] = 0 := rfl

theorem pairsSize_append (ps ps' : List (Bytes × Bytes)) :
    pairsSize (ps ++ ps') = pairsSize ps + pairsSize ps' := by
  rw [pairsSize, List.map_append, List.sum_append, pairsSize, pairsSize]

/-- A request with pairs stored. -/
def storing (r : RequestCore) (ps : List (Bytes × Bytes)) : RequestCore :=
  { r with env := assignPairs r.env ps, paramsBytes := r.paramsBytes + pairsSize ps }

/-- A request with some of its body appended. -/
def appending (r : RequestCore) (content : Bytes) : RequestCore :=
  { r with body := r.body ++ content, bodyBytes := r.bodyBytes + content.length }

theorem storing_storing (r : RequestCore) (ps ps' : List (Bytes × Bytes)) :
    storing (storing r ps) ps' = storing r (ps ++ ps') := by
  simp only [storing, assignPairs_append, pairsSize_append, add_assoc]

private theorem appending_appending (r : RequestCore) (content content' : Bytes) :
    appending (appending r content) content' = appending r (content ++ content') := by
  simp only [appending, List.append_assoc, List.length_append, add_assoc]

theorem storePairs_of_le (limits : Limits) (ps : List (Bytes × Bytes)) (r : RequestCore)
    (out : Bytes) (h : r.paramsBytes + pairsSize ps ≤ limits.maxParamsBytes) :
    storePairs limits ps r out = (storing r ps, out) := by
  induction ps generalizing r with
  | nil => rfl
  | cons p ps ih =>
    obtain ⟨name, value⟩ := p
    have hsize : pairsSize ((name, value) :: ps) = name.length + value.length + pairsSize ps := by
      rw [pairsSize, List.map_cons, List.sum_cons, pairsSize]
    rw [hsize] at h
    have hlt : r.paramsBytes + name.length + value.length < 2 ^ 64 := by
      have := limits.maxParamsBytes_lt
      omega
    rw [storePairs, sizeT_of_lt hlt, if_neg (by omega), ih _ (by simp only; omega)]
    simp only [storing, assignPairs, List.foldl_cons, hsize, add_assoc]

theorem paramsRecord_encode (limits : Limits) {ps : List EncodedPair} (hne : ps ≠ [])
    (r : RequestCore) (out : Bytes) (hfailed : r.flags.failed = false)
    (h : r.paramsBytes + pairsSize (ps.map fun p ↦ (p.name, p.value)) ≤ limits.maxParamsBytes) :
    paramsRecord limits (ps.flatMap EncodedPair.encode) r out
      = (storing r (ps.map fun p ↦ (p.name, p.value)), out) := by
  have hcontent : ¬(ps.flatMap EncodedPair.encode).isEmpty := by
    obtain ⟨p, ps, rfl⟩ := List.exists_cons_of_ne_nil hne
    rw [List.isEmpty_iff, List.flatMap_cons, List.append_eq_nil_iff]
    exact fun h ↦ p.encode_ne_nil h.1
  rw [paramsRecord, if_neg hcontent, hfailed, if_neg Bool.false_ne_true, paramsLoop_eq,
    pairsOf_encode ps le_rfl, storePairs_of_le limits _ r out h]

theorem stdinRecord_of_le (limits : Limits) {content : Bytes} (hne : content ≠ [])
    (r : RequestCore) (out : Bytes) (hfailed : r.flags.failed = false)
    (h : r.bodyBytes + content.length ≤ limits.maxStdinBytes) :
    stdinRecord limits content r out = (appending r content, out) := by
  have hlt : r.bodyBytes + content.length < 2 ^ 64 := by
    have := limits.maxStdinBytes_lt
    omega
  rw [stdinRecord, if_neg (by rwa [List.isEmpty_iff]), hfailed, if_neg Bool.false_ne_true,
    sizeT_of_lt hlt, if_neg (by omega), appending]

/-! ## The records of one request

The entry is in the map from the first record on, and no record but the last makes it ready. So each
record turns `insert id r` into `insert id r'`, and the inductions over the PARAMS and the STDIN
records are about `r`. -/

section

variable {σ : Type*} {limits : Limits} {cb : Callbacks σ} {requests : Requests} {out : Bytes}
  {ext : σ} {id : UInt16} {r : Request}

/-- A record that leaves its request not ready changes the entry, and may answer. -/
theorem runRecords_insert {rec : Record} {body : RequestCore → Bytes → RequestCore × Bytes}
    {core core' : RequestCore} {out' : Bytes} (hid : rec.requestId = id)
    (hbody : recordBody limits rec = some body) (hcore : body core out = (core', out'))
    (hready : isReady core'.flags = false) (recs : List Record) :
    runRecords limits cb ⟨requests.insert id (r.withCore core), out, ext⟩ (rec :: recs)
      = runRecords limits cb ⟨requests.insert id (r.withCore core'), out', ext⟩ recs := by
  subst hid
  have hlookup : (requests.insert rec.requestId (r.withCore core)).lookup rec.requestId
      = some (r.withCore core) := AList.lookup_insert requests
  have hactive : processRecord limits cb rec
        ⟨requests.insert rec.requestId (r.withCore core), out, ext⟩ = .next _ :=
    processRecord_active hbody hlookup
  rw [runRecords_cons_next hactive, touch]
  simp only [Request.toRequestCore_withCore, hcore, hready, Bool.false_eq_true, if_false,
    AList.insert_insert, Request.withCore_withCore]

/-- The PARAMS records of a request that has not seen the empty one yet. -/
theorem runRecords_paramsRecords (core : RequestCore) (ps : List ParamsRecord)
    (recs : List Record) (hfailed : core.flags.failed = false)
    (hparams : core.flags.paramsComplete = false)
    (h : core.paramsBytes + pairsSize (pairsOfRecords ps) ≤ limits.maxParamsBytes) :
    runRecords limits cb ⟨requests.insert id (r.withCore core), out, ext⟩
        (ps.map (ParamsRecord.record id) ++ recs)
      = runRecords limits cb
          ⟨requests.insert id (r.withCore (storing core (pairsOfRecords ps))), out, ext⟩ recs := by
  induction ps generalizing core with
  | nil => rfl
  | cons p ps ih =>
    rw [pairsOfRecords_cons] at h ⊢
    rw [pairsSize_append] at h
    have hid : (p.record id).requestId = id := rfl
    have hbody : recordBody limits (p.record id)
        = some (paramsRecord limits (p.pairs.flatMap EncodedPair.encode)) := rfl
    have hcore := paramsRecord_encode limits p.pairs_ne_nil core out hfailed (by omega)
    rw [List.map_cons, List.cons_append,
      runRecords_insert hid hbody hcore (by simp [isReady, storing, hparams]),
      ih (storing core _) hfailed hparams (by simp only [storing]; omega), storing_storing]

/-- The STDIN records of a request that has not seen the empty one yet. -/
theorem runRecords_stdinRecords (core : RequestCore) (ps : List StdinRecord)
    (recs : List Record) (hfailed : core.flags.failed = false)
    (hinput : core.flags.inputComplete = false)
    (h : core.bodyBytes + (ps.flatMap StdinRecord.content).length ≤ limits.maxStdinBytes) :
    runRecords limits cb ⟨requests.insert id (r.withCore core), out, ext⟩
        (ps.map (StdinRecord.record id) ++ recs)
      = runRecords limits cb
          ⟨requests.insert id (r.withCore (appending core (ps.flatMap StdinRecord.content))),
            out, ext⟩
          recs := by
  induction ps generalizing core with
  | nil => rw [List.flatMap_nil, appending, List.append_nil]; rfl
  | cons p ps ih =>
    rw [List.flatMap_cons] at h ⊢
    rw [List.length_append] at h
    have hid : (p.record id).requestId = id := rfl
    have hbody : recordBody limits (p.record id) = some (stdinRecord limits p.content) := rfl
    have hcore := stdinRecord_of_le limits p.content_ne_nil core out hfailed (by omega)
    rw [List.map_cons, List.cons_append,
      runRecords_insert hid hbody hcore (by simp [isReady, appending, hinput]),
      ih (appending core _) hfailed hinput (by simp only [appending]; omega),
      appending_appending]

end

/-! ## The round trip

The stages of a request: opened, its parameters ended, its body read, its input complete. The ready
check passes at the last of them and at no other, so there is one call, with the request as it is
then. -/

namespace EncodedRequest

variable (q : EncodedRequest)

/-- What the BEGIN_REQUEST record makes of a fresh request. -/
def opened (fresh : RequestCore) : RequestCore := beginRequest q.beginContent fresh

/-- What the records up to the empty PARAMS record make of it. -/
def paramsEnded (fresh : RequestCore) : RequestCore :=
  let r := storing (q.opened fresh) q.pairs
  { r with flags := { r.flags with paramsComplete := true } }

/-- What the records before the empty STDIN record make of it. -/
def decodedOpen (fresh : RequestCore) : RequestCore := appending (q.paramsEnded fresh) q.body

/-- What all records make of it. -/
def decoded (fresh : RequestCore) : RequestCore :=
  let r := q.decodedOpen fresh
  { r with flags := { r.flags with inputComplete := true } }

end EncodedRequest

section

variable {α : Type*} {limits : Limits} {alloc : UInt16 → α → Option Request × α}
  {requests : Requests} {out : Bytes} {a a' : α} {log : List Request} {id : UInt16}
  {r₀ : Request} {env₀ : DynamicVariable}

/-- The BEGIN_REQUEST record allocates and opens the request. -/
theorem runRecords_beginRecord (q : EncodedRequest) (hid : id ∉ requests)
    (halloc : alloc id a = (some r₀, a')) (hr₀ : r₀.toRequestCore = { id := id, env := env₀ })
    (recs : List Record) :
    runRecords limits (recording alloc) ⟨requests, out, (a, log)⟩ (q.beginRecord id :: recs)
      = runRecords limits (recording alloc)
          ⟨requests.insert id (r₀.withCore (q.opened r₀.toRequestCore)), out, (a', log)⟩ recs := by
  have hbegin : recordBody limits (q.beginRecord id)
      = some fun r out ↦ (beginRequest q.beginContent r, out) := by
    have htype : (q.beginRecord id).type = FCGI_BEGIN_REQUEST := rfl
    have hlen : beginRequestBodySize ≤ (q.beginRecord id).content.length :=
      q.length_beginContent.ge
    rw [recordBody, if_pos htype, if_pos hlen]
    rfl
  have hcall : (recording alloc).allocateRequest (q.beginRecord id).requestId (a, log)
      = (some r₀, (a', log)) := by
    rw [recording, show (q.beginRecord id).requestId = id from rfl]
    simp only [halloc]
  have hallocated : processRecord limits (recording alloc) (q.beginRecord id)
        ⟨requests, out, (a, log)⟩ = .next _ :=
    processRecord_allocated hbegin (AList.lookup_eq_none.mpr hid) hcall
  have hready : isReady (beginRequest q.beginContent r₀.toRequestCore).flags = false := by
    rw [hr₀, beginRequest, isReady]
    simp only [Bool.and_false]
  rw [runRecords_cons_next hallocated, touch]
  simp only [hready, Bool.false_eq_true, if_false, AList.insert_insert,
    show (q.beginRecord id).requestId = id from rfl, EncodedRequest.opened]

/-- The records of a request up to the last one leave it open. -/
theorem runRecords_openRecords (q : EncodedRequest) (hid : id ∉ requests)
    (halloc : alloc id a = (some r₀, a')) (hr₀ : r₀.toRequestCore = { id := id, env := env₀ })
    (hparams : pairsSize q.pairs ≤ limits.maxParamsBytes)
    (hstdin : q.body.length ≤ limits.maxStdinBytes) (recs : List Record) :
    runRecords limits (recording alloc) ⟨requests, out, (a, log)⟩ (q.openRecords id ++ recs)
      = runRecords limits (recording alloc)
          ⟨requests.insert id (r₀.withCore (q.decodedOpen r₀.toRequestCore)), out, (a', log)⟩
          recs := by
  have hopened : (q.opened r₀.toRequestCore).flags.failed = false ∧
      (q.opened r₀.toRequestCore).flags.paramsComplete = false ∧
      (q.opened r₀.toRequestCore).flags.inputComplete = false ∧
      (q.opened r₀.toRequestCore).paramsBytes = 0 ∧
      (q.opened r₀.toRequestCore).bodyBytes = 0 := by
    rw [hr₀]
    exact ⟨rfl, rfl, rfl, rfl, rfl⟩
  obtain ⟨hfailed, hnoParams, hnoInput, hparamsBytes, hbodyBytes⟩ := hopened
  have hid' : (q.paramsEnd id).requestId = id := rfl
  have hparamsEnd : recordBody limits (q.paramsEnd id) = some (paramsRecord limits []) := rfl
  have hend : paramsRecord limits [] (storing (q.opened r₀.toRequestCore) (pairsOfRecords q.params))
      out = (q.paramsEnded r₀.toRequestCore, out) := rfl
  have hready : isReady (q.paramsEnded r₀.toRequestCore).flags = false := by
    rw [isReady, show (q.paramsEnded r₀.toRequestCore).flags.inputComplete = false from hnoInput]
    simp only [Bool.and_false]
  rw [EncodedRequest.openRecords, List.cons_append,
    runRecords_beginRecord q hid halloc hr₀, List.append_assoc,
    runRecords_paramsRecords _ q.params _ hfailed hnoParams (by
      rw [hparamsBytes, Nat.zero_add]
      exact hparams),
    List.cons_append, runRecords_insert hid' hparamsEnd hend hready,
    runRecords_stdinRecords (q.paramsEnded r₀.toRequestCore) q.stdin _ hfailed hnoInput (by
      rw [show (q.paramsEnded r₀.toRequestCore).bodyBytes = 0 from hbodyBytes, Nat.zero_add]
      exact hstdin)]
  rfl

/-- The last record makes the request ready. -/
theorem runRecords_records (q : EncodedRequest) (hid : id ∉ requests)
    (halloc : alloc id a = (some r₀, a')) (hr₀ : r₀.toRequestCore = { id := id, env := env₀ })
    (hparams : pairsSize q.pairs ≤ limits.maxParamsBytes)
    (hstdin : q.body.length ≤ limits.maxStdinBytes) :
    runRecords limits (recording alloc) ⟨requests, out, (a, log)⟩ (q.records id)
      = (⟨requests.insert id (r₀.withCore (q.decoded r₀.toRequestCore)), out,
          (a', log ++ [r₀.withCore (q.decoded r₀.toRequestCore)])⟩, []) := by
  have hlookup : (requests.insert id (r₀.withCore (q.decodedOpen r₀.toRequestCore))).lookup id
      = some (r₀.withCore (q.decodedOpen r₀.toRequestCore)) := AList.lookup_insert requests
  have hstdinEnd : recordBody limits (q.stdinEnd id) = some (stdinRecord limits []) := rfl
  have hactive : processRecord limits (recording alloc) (q.stdinEnd id)
        ⟨requests.insert id (r₀.withCore (q.decodedOpen r₀.toRequestCore)), out, (a', log)⟩
      = .next _ := processRecord_active hstdinEnd hlookup
  have hready : isReady (q.decoded r₀.toRequestCore).flags = true := by
    rw [hr₀]
    rfl
  have hcore : stdinRecord limits [] (q.decodedOpen r₀.toRequestCore) out
      = (q.decoded r₀.toRequestCore, out) := rfl
  rw [EncodedRequest.records, runRecords_openRecords q hid halloc hr₀ hparams hstdin,
    runRecords_cons_next hactive, runRecords_nil, touch]
  simp only [Request.toRequestCore_withCore, hcore, hready, if_true, recording,
    AList.insert_insert, Request.withCore_withCore,
    show (q.stdinEnd id).requestId = id from rfl]

/-- **Decoding inverts encoding.** Whatever grouping, cuts, length forms and paddings a client
picks, the decoder consumes all of its records and answers none, and the one `on_request_ready`
call, on the last record, gets the client's pairs and body. -/
theorem processBuffer_encode (q : EncodedRequest) (hid : id ∉ requests)
    (halloc : alloc id a = (some r₀, a')) (hr₀ : r₀.toRequestCore = { id := id, env := env₀ })
    (hparams : pairsSize q.pairs ≤ limits.maxParamsBytes)
    (hstdin : q.body.length ≤ limits.maxStdinBytes) :
    ∃ r : Request,
      processBuffer limits (recording alloc) ((q.records id).flatMap Record.encode)
          ⟨requests, out, (a, log)⟩
        = { requests := requests.insert id r
            outBuf := out
            ext := (a', log ++ [r])
            inBuf := []
            waitingForArena := false
            status := .ok } ∧
      r.env = assignPairs env₀ q.pairs ∧ r.body = q.body ∧
      r.paramsBytes = pairsSize q.pairs ∧ r.bodyBytes = q.body.length ∧
      -- the call is made by the last record
      (processBuffer limits (recording alloc) ((q.openRecords id).flatMap Record.encode)
        ⟨requests, out, (a, log)⟩).ext = (a', log) := by
  have hcore : (r₀.withCore (q.decoded r₀.toRequestCore)).toRequestCore
      = q.decoded { id := id, env := env₀ } := by
    rw [Request.toRequestCore_withCore, hr₀]
  refine ⟨r₀.withCore (q.decoded r₀.toRequestCore), ?_, ?_, ?_, ?_, ?_, ?_⟩
  · exact processBuffer_flatMap_encode (runRecords_records q hid halloc hr₀ hparams hstdin)
  · rw [hcore]
    rfl
  · rw [hcore]
    rfl
  · rw [hcore]
    exact Nat.zero_add _
  · rw [hcore]
    exact Nat.zero_add _
  · have hopen : runRecords limits (recording alloc) ⟨requests, out, (a, log)⟩ (q.openRecords id)
        = (⟨requests.insert id (r₀.withCore (q.decodedOpen r₀.toRequestCore)), out,
            (a', log)⟩, []) := by
      simpa using runRecords_openRecords q hid halloc hr₀ hparams hstdin []
    rw [processBuffer_flatMap_encode hopen]

end

/-- A request with one pair, its value length in four octets, and a padded body in two records. -/
def smallRequest : EncodedRequest where
  params := [{
    pairs := [⟨[72], [65, 66], .short, .long, by decide, by decide⟩]
    pairs_ne_nil := List.cons_ne_nil _ _
    content_lt := by decide }]
  stdin := [
    { content := [1, 2], content_ne_nil := List.cons_ne_nil _ _, content_lt := by decide,
      padding := [0, 0, 0] },
    { content := [3], content_ne_nil := List.cons_ne_nil _ _, content_lt := by decide }]

theorem processBuffer_encode_smallRequest :
    let alloc : UInt16 → ℕ → Option Request × ℕ :=
      fun id n ↦ (some { Request.ofArena n 0 with id := id }, n + 1)
    ∃ r : Request,
      processBuffer {} (recording alloc) ((smallRequest.records 7).flatMap Record.encode)
          ⟨∅, [], (0, [])⟩
        = { requests := AList.insert 7 r ∅
            outBuf := []
            ext := (1, [r])
            inBuf := []
            waitingForArena := false
            status := .ok } ∧
      r.env = (Request.ofArena 0 0).env.assign [72] (.string [65, 66]) ∧ r.body = [1, 2, 3] ∧
      r.paramsBytes = 3 ∧ r.bodyBytes = 3 ∧
      (processBuffer {} (recording alloc) ((smallRequest.openRecords 7).flatMap Record.encode)
        ⟨∅, [], (0, [])⟩).ext = (1, []) := by
  intro alloc
  have halloc : alloc 7 0 = (some { Request.ofArena 0 0 with id := 7 }, 1) := rfl
  have hr₀ : ({ Request.ofArena 0 0 with id := 7 } : Request).toRequestCore
      = { id := 7, env := (Request.ofArena 0 0).env } := rfl
  have hparams : pairsSize smallRequest.pairs ≤ ({} : Limits).maxParamsBytes := by decide
  have hstdin : smallRequest.body.length ≤ ({} : Limits).maxStdinBytes := by decide
  exact processBuffer_encode smallRequest (AList.notMem_empty 7) halloc hr₀ hparams hstdin

end Wasapi.Fastcgi
