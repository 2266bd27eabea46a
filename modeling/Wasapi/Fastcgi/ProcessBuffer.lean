import Wasapi.Fastcgi.Params

/-!
# `process_buffer`

The decoder that turns a connection's input buffer into requests. It is generic in the rest of the
program's state `σ`, which only its two callbacks see: `allocate_request`, which may fail, and
`on_request_ready`, which may change the request it is given.

The four record types the decoder knows share one lookup-or-allocate helper and one readiness
check, so the switch is `recordBody`, what each type does to the request it found, and the rest of
the turn is `processRecord`. The loop itself is modelled with the source's offset: at a deferred
BEGIN_REQUEST it returns at once and leaves the buffer as it was.

Everything proved later goes through `processBuffer_eq`: the result depends on the buffer only
through its records (`Framer.frames`), which are handled in order by `runRecords`.
-/

namespace Wasapi.Fastcgi

/-- The requests map of a connection. -/
abbrev Requests := AList fun _ : UInt16 ↦ Request

/-- The function arguments of `process_buffer`. A null `allocate_request` always fails, and a null
`on_request_ready` changes nothing. -/
structure Callbacks (σ : Type*) where
  allocateRequest : UInt16 → σ → Option Request × σ
  onRequestReady : Request → σ → Request × σ

/-- What a turn of the loop works on: the reference arguments of `process_buffer` other than the
input buffer, and the rest of the program. -/
structure Machine (σ : Type*) where
  requests : Requests
  outBuf : Bytes
  ext : σ

/-! ## The switch

A turn first finds the request of its record, or makes one, and the switch then works on it without
knowing which. Records of other types, and a BEGIN_REQUEST record whose body is too short, look up
no request. -/

/-- `sizeof(BeginRequestBody)` -/
def beginRequestBodySize : ℕ := 8

def beginRequest (content : Bytes) (r : RequestCore) : RequestCore :=
  { r with flags := { r.flags with
      initialized := true
      -- the flags octet of `BeginRequestBody` follows the two octets of the role
      keepConnection := r.flags.keepConnection || (content.getD 2 0 &&& KEEP_CONN != 0) } }

def paramsRecord (limits : Limits) (content : Bytes) (r : RequestCore) (out : Bytes) :
    RequestCore × Bytes :=
  if content.isEmpty then ({ r with flags := { r.flags with paramsComplete := true } }, out)
  else if r.flags.failed then (r, out)
  else paramsLoop limits content.length content r out

def stdinRecord (limits : Limits) (content : Bytes) (r : RequestCore) (out : Bytes) :
    RequestCore × Bytes :=
  if content.isEmpty then ({ r with flags := { r.flags with inputComplete := true } }, out)
  else if r.flags.failed then (r, out)
  else if limits.maxStdinBytes < sizeT (r.bodyBytes + content.length) then
    failRequest r out .overloaded
  else
    ({ r with
      body := r.body ++ content
      bodyBytes := sizeT (r.bodyBytes + content.length) }, out)

def abortRequest (r : RequestCore) (out : Bytes) : RequestCore × Bytes :=
  failRequest { r with flags := { r.flags with aborted := true } } out .requestComplete

/-- What the switch does to the request of a record; `none` for the records that look up no
request. -/
def recordBody (limits : Limits) (rec : Record) :
    Option (RequestCore → Bytes → RequestCore × Bytes) :=
  if rec.type = FCGI_BEGIN_REQUEST then
    if beginRequestBodySize ≤ rec.content.length then
      some fun r out ↦ (beginRequest rec.content r, out)
    else none
  else if rec.type = FCGI_PARAMS then some (paramsRecord limits rec.content)
  else if rec.type = FCGI_STDIN then some (stdinRecord limits rec.content)
  else if rec.type = FCGI_ABORT_REQUEST then some abortRequest
  else none

/-! ## One turn of the loop

The ready check stands behind the switch and is made after every record that has a request. It asks
for flags that are never taken back, except that `on_request_ready` may change the request it is
given. -/

/-- The condition of the ready check. -/
def isReady (f : RequestFlags) : Bool :=
  !f.failed && !f.responded && f.paramsComplete && f.inputComplete

section Turn

variable {σ : Type*} (limits : Limits) (cb : Callbacks σ)

/-- `current_req`: the entry of `id`, allocated if there is none. -/
def currentReq (id : UInt16) (s : Machine σ) : Option Request × Machine σ :=
  match s.requests.lookup id with
  | some r => (some r, s)
  | none =>
    match cb.allocateRequest id s.ext with
    | (none, ext) => (none, { s with ext := ext })
    | (some nr, ext) => (some nr, { s with requests := s.requests.insert id nr, ext := ext })

/-- The body of the switch on the request of a record, then the ready check. -/
def touch (id : UInt16) (body : RequestCore → Bytes → RequestCore × Bytes) (r : Request)
    (s : Machine σ) : Machine σ :=
  let core := (body r.toRequestCore s.outBuf).1
  let out := (body r.toRequestCore s.outBuf).2
  let r := r.withCore core
  if isReady core.flags then
    let called := cb.onRequestReady r s.ext
    { requests := s.requests.insert id called.1, outBuf := out, ext := called.2 }
  else { s with requests := s.requests.insert id r, outBuf := out }

/-- How a turn of the loop ends. -/
inductive Turn (σ : Type*) where
  | next (s : Machine σ)
  /-- the early return of a BEGIN_REQUEST for which there is no arena -/
  | deferred (s : Machine σ)

def processRecord (rec : Record) (s : Machine σ) : Turn σ :=
  match recordBody limits rec with
  | none => .next s
  | some body =>
    match currentReq cb rec.requestId s with
    | (some r, s) => .next (touch cb rec.requestId body r s)
    | (none, s) => if rec.type = FCGI_BEGIN_REQUEST then .deferred s else .next s

/-! ## The loop

`offset` moves from record to record, and the buffer is shortened behind the loop. The early return
at a deferred record skips that. -/

/-- How the loop ends: at which offset, and whether by the early return. -/
structure LoopExit (σ : Type*) where
  offset : ℕ
  waiting : Bool
  machine : Machine σ

/-- The loop of `process_buffer` from `offset`; `fuel` bounds the number of turns. -/
def processLoop (inBuf : Bytes) : ℕ → ℕ → Machine σ → LoopExit σ
  | 0, offset, s => ⟨offset, false, s⟩
  | fuel + 1, offset, s =>
    match nextRecord (inBuf.drop offset) with
    | none => ⟨offset, false, s⟩
    | some (rec, _) =>
      match processRecord limits cb rec s with
      | .deferred s => ⟨offset, true, s⟩
      | .next s => processLoop inBuf fuel (offset + rec.header.totalLen) s

inductive ProcessStatus where
  | ok
  | close
  deriving DecidableEq

structure ProcessResult (σ : Type*) extends Machine σ where
  inBuf : Bytes
  waitingForArena : Bool
  status : ProcessStatus

def processBuffer (inBuf : Bytes) (s : Machine σ) : ProcessResult σ :=
  let exit := processLoop limits cb inBuf inBuf.length 0 s
  if exit.waiting then
    { exit.machine with inBuf := inBuf, waitingForArena := true, status := .ok }
  else
    { exit.machine with
      inBuf := inBuf.drop exit.offset
      waitingForArena := false
      status := if badVersion (inBuf.drop exit.offset) then .close else .ok }

/-! ## Records in order

The loop interleaves framing and handling. Framing does not depend on what is handled, so the buffer
can be taken apart first; this is the form in which the decoder is used from here on. -/

/-- Handle records in order. What is left of the list starts with the deferred record. -/
def runRecords : Machine σ → List Record → Machine σ × List Record
  | s, [] => (s, [])
  | s, rec :: recs =>
    match processRecord limits cb rec s with
    | .next s => runRecords s recs
    | .deferred s => (s, rec :: recs)

variable {limits cb}

@[simp] theorem runRecords_nil (s : Machine σ) : runRecords limits cb s [] = (s, []) := rfl

theorem runRecords_cons_next {rec : Record} {recs : List Record} {s s' : Machine σ}
    (h : processRecord limits cb rec s = .next s') :
    runRecords limits cb s (rec :: recs) = runRecords limits cb s' recs := by
  rw [runRecords, h]

theorem runRecords_cons_deferred {rec : Record} {recs : List Record} {s s' : Machine σ}
    (h : processRecord limits cb rec s = .deferred s') :
    runRecords limits cb s (rec :: recs) = (s', rec :: recs) := by
  rw [runRecords, h]

/-- A record of the buffer takes the offset forward, and no further than the buffer goes. -/
theorem drop_of_nextRecord {inBuf e : Bytes} {offset : ℕ} {rec : Record}
    (h : nextRecord (inBuf.drop offset) = some (rec, e)) :
    inBuf.drop (offset + rec.header.totalLen) = e ∧ 0 < rec.header.totalLen ∧
      rec.header.totalLen ≤ inBuf.length - offset := by
  have henc : inBuf.drop offset = rec.encode ++ e := encode_of_nextRecord h
  have hpos : Header.size ≤ rec.header.totalLen := by
    rw [← Record.length_encode]
    exact rec.size_le_length_encode
  simp only [Header.size] at hpos
  refine ⟨?_, by omega, ?_⟩
  · rw [← List.drop_drop, henc, ← Record.length_encode, List.drop_left]
  · rw [← List.length_drop, henc, List.length_append, Record.length_encode]
    exact Nat.le_add_right _ _

/-- The loop from `offset` handles the records that follow `offset`, whatever the fuel, if there is
enough of it. -/
private theorem processLoop_eq (limits : Limits) (cb : Callbacks σ) (inBuf : Bytes)
    (fuel offset : ℕ) (s : Machine σ)
    (hfuel : inBuf.length ≤ offset + fuel) (hoff : offset ≤ inBuf.length) :
    (processLoop limits cb inBuf fuel offset s).machine
        = (runRecords limits cb s (recordFramer.frames (inBuf.drop offset))).1 ∧
      ((processLoop limits cb inBuf fuel offset s).waiting = true
        ↔ (runRecords limits cb s (recordFramer.frames (inBuf.drop offset))).2 ≠ []) ∧
      ((processLoop limits cb inBuf fuel offset s).waiting = false →
        inBuf.drop (processLoop limits cb inBuf fuel offset s).offset
          = recordFramer.rest (inBuf.drop offset)) := by
  induction fuel generalizing offset s with
  | zero =>
    have hnil : inBuf.drop offset = [] := List.drop_eq_nil_of_le (by omega)
    have hnone : recordFramer.next (inBuf.drop offset) = none := hnil ▸ recordFramer.next_nil
    rw [Framer.frames_of_none hnone, Framer.rest_of_none hnone]
    simp [processLoop]
  | succ fuel ih =>
    cases hnext : nextRecord (inBuf.drop offset) with
    | none =>
      rw [Framer.frames_of_none hnext, Framer.rest_of_none hnext]
      simp [processLoop, hnext]
    | some p =>
      obtain ⟨rec, e⟩ := p
      obtain ⟨hdrop, hpos, hlen⟩ := drop_of_nextRecord hnext
      rw [Framer.frames_of_some hnext, Framer.rest_of_some hnext]
      cases hrec : processRecord limits cb rec s with
      | deferred s' => simp [processLoop, hnext, hrec, runRecords_cons_deferred hrec]
      | next s' =>
        rw [runRecords_cons_next hrec, processLoop, hnext]
        simp only [hrec]
        have := ih (offset + rec.header.totalLen) s' (by omega) (by omega)
        rwa [hdrop] at this

/-- **`process_buffer` by records.** It handles the records of the buffer in order; if all are
handled it keeps what follows them, and if one is deferred it keeps the whole buffer. -/
theorem processBuffer_eq (inBuf : Bytes) (s : Machine σ) :
    processBuffer limits cb inBuf s =
      let run := runRecords limits cb s (recordFramer.frames inBuf)
      if run.2 = [] then
        { run.1 with
          inBuf := recordFramer.rest inBuf
          waitingForArena := false
          status := if badVersion (recordFramer.rest inBuf) then .close else .ok }
      else { run.1 with inBuf := inBuf, waitingForArena := true, status := .ok } := by
  obtain ⟨hm, hw, ho⟩ := processLoop_eq limits cb inBuf inBuf.length 0 s (by omega) (by omega)
  rw [List.drop_zero] at hm hw ho
  rw [processBuffer]
  by_cases hwait : (processLoop limits cb inBuf inBuf.length 0 s).waiting = true
  · simp only [hwait, if_true, hm, if_neg (hw.mp hwait)]
  · have hleft := not_ne_iff.mp fun h ↦ hwait (hw.mpr h)
    simp only [hwait, Bool.false_eq_true, if_false, hm, if_pos hleft,
      ho (Bool.eq_false_iff.mpr hwait)]

theorem processBuffer_toMachine (inBuf : Bytes) (s : Machine σ) :
    (processBuffer limits cb inBuf s).toMachine
      = (runRecords limits cb s (recordFramer.frames inBuf)).1 := by
  rw [processBuffer_eq]
  by_cases h : (runRecords limits cb s (recordFramer.frames inBuf)).2 = [] <;>
    simp only [h, if_true, if_false]

/-- A buffer of whole records that are all handled is used up. -/
theorem processBuffer_flatMap_encode {recs : List Record} {s s' : Machine σ}
    (h : runRecords limits cb s recs = (s', [])) :
    processBuffer limits cb (recs.flatMap Record.encode) s =
      { s' with inBuf := [], waitingForArena := false, status := .ok } := by
  rw [processBuffer_eq, frames_flatMap_encode, rest_flatMap_encode, h]
  rfl

/-! ## Turns as steps

For invariants the records that get a turn are the labels of a run. A deferred record gets a turn
too, which changes at most the state of the allocator. -/

/-- The machine after a turn, however the turn ended. -/
def Turn.machine : Turn σ → Machine σ
  | .next s => s
  | .deferred s => s

variable (limits cb)

/-- One turn as a step on machines. -/
def turn (s : Machine σ) (rec : Record) : Machine σ := (processRecord limits cb rec s).machine

/-- The records that get a turn: all up to the first one that is deferred, that one included. -/
def turnsTaken : Machine σ → List Record → List Record
  | _, [] => []
  | s, rec :: recs =>
    match processRecord limits cb rec s with
    | .next s => rec :: turnsTaken s recs
    | .deferred _ => [rec]

/-- The records of a buffer that get a turn. -/
def processTurns (inBuf : Bytes) (s : Machine σ) : List Record :=
  turnsTaken limits cb s (recordFramer.frames inBuf)

variable {limits cb}

private theorem runRecords_fst (s : Machine σ) (recs : List Record) :
    (runRecords limits cb s recs).1
      = (turnsTaken limits cb s recs).foldl (turn limits cb) s := by
  induction recs generalizing s with
  | nil => rfl
  | cons rec recs ih =>
    cases h : processRecord limits cb rec s with
    | next s' =>
      rw [runRecords_cons_next h, ih, turnsTaken, h, List.foldl_cons, turn, h]
      rfl
    | deferred s' =>
      rw [runRecords_cons_deferred h, turnsTaken, h, List.foldl_cons, turn, h]
      rfl

/-- **`process_buffer` as a run of turns.** -/
theorem processBuffer_eq_foldl (inBuf : Bytes) (s : Machine σ) :
    (processBuffer limits cb inBuf s).toMachine
      = (processTurns limits cb inBuf s).foldl (turn limits cb) s := by
  rw [processBuffer_toMachine, runRecords_fst, processTurns]

/-! ## What one turn does

The four ways a turn can go, each with the machine it leaves. Proofs about turns go by these cases
and do not look into `processRecord`. -/

theorem processRecord_of_body_none {rec : Record} (h : recordBody limits rec = none)
    (s : Machine σ) : processRecord limits cb rec s = .next s := by
  rw [processRecord, h]

theorem processRecord_active {rec : Record} {body : RequestCore → Bytes → RequestCore × Bytes}
    (h : recordBody limits rec = some body) {s : Machine σ} {r : Request}
    (hr : s.requests.lookup rec.requestId = some r) :
    processRecord limits cb rec s = .next (touch cb rec.requestId body r s) := by
  simp only [processRecord, h, currentReq, hr]

theorem processRecord_allocated {rec : Record} {body : RequestCore → Bytes → RequestCore × Bytes}
    (h : recordBody limits rec = some body) {s : Machine σ} {nr : Request} {ext : σ}
    (hr : s.requests.lookup rec.requestId = none)
    (ha : cb.allocateRequest rec.requestId s.ext = (some nr, ext)) :
    processRecord limits cb rec s = .next (touch cb rec.requestId body nr
      { s with requests := s.requests.insert rec.requestId nr, ext := ext }) := by
  simp only [processRecord, h, currentReq, hr, ha]

theorem processRecord_refused {rec : Record} {body : RequestCore → Bytes → RequestCore × Bytes}
    (h : recordBody limits rec = some body) {s : Machine σ} {ext : σ}
    (hr : s.requests.lookup rec.requestId = none)
    (ha : cb.allocateRequest rec.requestId s.ext = (none, ext)) :
    processRecord limits cb rec s =
      if rec.type = FCGI_BEGIN_REQUEST then .deferred { s with ext := ext }
      else .next { s with ext := ext } := by
  simp only [processRecord, h, currentReq, hr, ha]

/-- **What one turn can do.** The record looks up no request; or its request is there; or it is
allocated; or there is no arena. -/
theorem processRecord_cases (limits : Limits) (cb : Callbacks σ) (rec : Record) (s : Machine σ) :
    (recordBody limits rec = none ∧ processRecord limits cb rec s = .next s) ∨
    (∃ body r, recordBody limits rec = some body ∧ s.requests.lookup rec.requestId = some r ∧
      processRecord limits cb rec s = .next (touch cb rec.requestId body r s)) ∨
    (∃ body nr ext, recordBody limits rec = some body ∧
      s.requests.lookup rec.requestId = none ∧
      cb.allocateRequest rec.requestId s.ext = (some nr, ext) ∧
      processRecord limits cb rec s = .next (touch cb rec.requestId body nr
        { s with requests := s.requests.insert rec.requestId nr, ext := ext })) ∨
    (∃ body ext, recordBody limits rec = some body ∧
      s.requests.lookup rec.requestId = none ∧
      cb.allocateRequest rec.requestId s.ext = (none, ext) ∧
      processRecord limits cb rec s =
        if rec.type = FCGI_BEGIN_REQUEST then .deferred { s with ext := ext }
        else .next { s with ext := ext }) := by
  cases hbody : recordBody limits rec with
  | none => exact .inl ⟨rfl, processRecord_of_body_none hbody s⟩
  | some body =>
    cases hr : s.requests.lookup rec.requestId with
    | some r => exact .inr (.inl ⟨body, r, rfl, rfl, processRecord_active hbody hr⟩)
    | none =>
      rcases ha : cb.allocateRequest rec.requestId s.ext with ⟨_ | nr, ext⟩
      · exact .inr (.inr (.inr ⟨body, ext, rfl, rfl, rfl, processRecord_refused hbody hr ha⟩))
      · exact .inr (.inr (.inl ⟨body, nr, ext, rfl, rfl, rfl,
          processRecord_allocated hbody hr ha⟩))

/-- The entry made at allocation is overwritten. -/
theorem touch_insert (cb : Callbacks σ) (id : UInt16)
    (body : RequestCore → Bytes → RequestCore × Bytes) (r r' : Request) (s : Machine σ) :
    touch cb id body r { s with requests := s.requests.insert id r' } = touch cb id body r s := by
  simp only [touch, AList.insert_insert]

/-- A turn touches no entry but that of the record's id. -/
theorem lookup_touch_of_ne (cb : Callbacks σ) {id i : UInt16} (h : i ≠ id)
    (body : RequestCore → Bytes → RequestCore × Bytes) (r : Request) (s : Machine σ) :
    (touch cb id body r s).requests.lookup i = s.requests.lookup i := by
  rw [touch]
  split <;> exact AList.lookup_insert_ne h

end Turn

/-! ## Callbacks that record their calls -/

/-- An `allocate_request` with a state of its own and an `on_request_ready` that only records the
requests it is called with. -/
def recording {α : Type*} (alloc : UInt16 → α → Option Request × α) :
    Callbacks (α × List Request) where
  allocateRequest id s := ((alloc id s.1).1, ((alloc id s.1).2, s.2))
  onRequestReady r s := (r, (s.1, s.2 ++ [r]))

end Wasapi.Fastcgi
