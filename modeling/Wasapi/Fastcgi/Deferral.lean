import Wasapi.Fastcgi.ProcessBuffer
import Wasapi.Library.Transitions

/-!
# Deferred BEGIN_REQUEST records

When there is no arena for a BEGIN_REQUEST record, `process_buffer` returns with `waiting_for_arena`
set so that the record is read again later. It leaves the buffer alone, and so the records it has
already handled in the same call are read again too.

`Intake` keeps the books of a sequence of calls: which records have been applied, in order, and
everything that has arrived. The books balance (`Accounted`) when what has been applied, followed by
what is in the buffer, is what has arrived, so that no record is applied twice or lost, and the
buffer left by a deferral starts at the deferred record. They balance throughout a sequence of
calls exactly when every deferral in it happens at the front of the buffer, which is decided by
`deferIndex` from the record types, the ids in use and the answers of `allocate_request` alone.
-/

namespace Wasapi.Fastcgi

section

variable {σ : Type*} (limits : Limits) (cb : Callbacks σ)

/-- The records whose turn of the loop was completed. -/
def handledRecords : Machine σ → List Record → List Record
  | _, [] => []
  | s, rec :: recs =>
    match processRecord limits cb rec s with
    | .next s => rec :: handledRecords s recs
    | .deferred _ => []

variable {limits cb}

private theorem handledRecords_append_left (limits : Limits) (cb : Callbacks σ) (s : Machine σ)
    (recs : List Record) :
    handledRecords limits cb s recs ++ (runRecords limits cb s recs).2 = recs := by
  induction recs generalizing s with
  | nil => rfl
  | cons rec recs ih =>
    cases h : processRecord limits cb rec s with
    | next s' => simp only [handledRecords, runRecords, h, List.cons_append, ih]
    | deferred s' => simp only [handledRecords, runRecords, h, List.nil_append]

/-- What is left over starts with a BEGIN_REQUEST record. -/
theorem type_of_left_cons {s : Machine σ} {recs later : List Record} {rec : Record}
    (h : (runRecords limits cb s recs).2 = rec :: later) : rec.type = FCGI_BEGIN_REQUEST := by
  induction recs generalizing s with
  | nil => cases h
  | cons r recs ih =>
    cases hr : processRecord limits cb r s with
    | next s' =>
      rw [runRecords_cons_next hr] at h
      exact ih h
    | deferred s' =>
      rw [runRecords_cons_deferred hr] at h
      obtain ⟨rfl, -⟩ := List.cons.inj h
      obtain ⟨-, h'⟩ | ⟨_, _, -, -, h'⟩ | ⟨_, _, _, -, -, -, h'⟩ | ⟨_, _, -, -, -, h'⟩ :=
        processRecord_cases limits cb r s <;> rw [h'] at hr
      · cases hr
      · cases hr
      · cases hr
      · by_contra hne
        rw [if_neg hne] at hr
        cases hr

end

/-! ## Where the loop stops

Whether a BEGIN_REQUEST record is deferred depends on which ids are in use and on what the allocator
has answered so far, and not on what the records in front of it made of their requests. So the place
where the loop stops can be computed without running it. -/

/-- The records that look up a request. -/
def addressesRequest (rec : Record) : Bool :=
  rec.type = FCGI_BEGIN_REQUEST && beginRequestBodySize ≤ rec.content.length
    || rec.type = FCGI_PARAMS || rec.type = FCGI_STDIN || rec.type = FCGI_ABORT_REQUEST

theorem recordBody_isSome (limits : Limits) (rec : Record) :
    (recordBody limits rec).isSome = addressesRequest rec := by
  rw [recordBody, addressesRequest]
  by_cases h₁ : rec.type = FCGI_BEGIN_REQUEST
  · rw [if_pos h₁, h₁]
    by_cases hlen : beginRequestBodySize ≤ rec.content.length
    · rw [if_pos hlen, decide_eq_true hlen]
      rfl
    · rw [if_neg hlen, decide_eq_false hlen]
      rfl
  · rw [if_neg h₁, decide_eq_false h₁, Bool.false_and, Bool.false_or]
    by_cases h₂ : rec.type = FCGI_PARAMS
    · rw [if_pos h₂, decide_eq_true h₂]
      rfl
    · rw [if_neg h₂, decide_eq_false h₂, Bool.false_or]
      by_cases h₃ : rec.type = FCGI_STDIN
      · rw [if_pos h₃, decide_eq_true h₃]
        rfl
      · rw [if_neg h₃, decide_eq_false h₃, Bool.false_or]
        by_cases h₄ : rec.type = FCGI_ABORT_REQUEST
        · rw [if_pos h₄, decide_eq_true h₄]
          rfl
        · rw [if_neg h₄, decide_eq_false h₄]
          rfl

/-- The position of the first BEGIN_REQUEST record for an id not in use that `allocate_request`
refuses, from the ids in use and the state of the allocator. -/
def deferIndex {α : Type*} (alloc : UInt16 → α → Option Request × α) :
    List UInt16 → α → List Record → Option ℕ
  | _, _, [] => none
  | known, a, rec :: recs =>
    if addressesRequest rec && rec.requestId ∉ known then
      match alloc rec.requestId a with
      | (some _, a) => (deferIndex alloc (rec.requestId :: known) a recs).map (· + 1)
      | (none, a) =>
        if rec.type = FCGI_BEGIN_REQUEST then some 0
        else (deferIndex alloc known a recs).map (· + 1)
    else (deferIndex alloc known a recs).map (· + 1)

section

variable {α : Type*} {limits : Limits} {alloc : UInt16 → α → Option Request × α}

theorem mem_touch_recording {s : Machine (α × List Request)} {id i : UInt16}
    {body : RequestCore → Bytes → RequestCore × Bytes} {r : Request} :
    i ∈ (touch (recording alloc) id body r s).requests ↔ i = id ∨ i ∈ s.requests := by
  rw [touch]
  split <;> exact AList.mem_insert _

theorem ext_touch_recording (alloc : UInt16 → α → Option Request × α) (id : UInt16)
    (body : RequestCore → Bytes → RequestCore × Bytes) (r : Request)
    (s : Machine (α × List Request)) :
    (touch (recording alloc) id body r s).ext.1 = s.ext.1 := by
  rw [touch]
  split <;> rfl

/-- `deferIndex` says how many records are handled before the loop stops at one. -/
theorem deferIndex_eq (limits : Limits) (recs : List Record) {known : List UInt16}
    {s : Machine (α × List Request)} (hknown : ∀ id, id ∈ known ↔ id ∈ s.requests) :
    deferIndex alloc known s.ext.1 recs =
      if (runRecords limits (recording alloc) s recs).2 = [] then none
      else some (handledRecords limits (recording alloc) s recs).length := by
  induction recs generalizing known s with
  | nil => rfl
  | cons rec recs ih =>
    have hsome := recordBody_isSome limits rec
    -- a completed turn counts one more record
    have hnext : ∀ {known' : List UInt16} (s' : Machine (α × List Request)),
        processRecord limits (recording alloc) rec s = .next s' →
        (∀ id, id ∈ known' ↔ id ∈ s'.requests) →
        (deferIndex alloc known' s'.ext.1 recs).map (· + 1) =
          if (runRecords limits (recording alloc) s (rec :: recs)).2 = [] then none
          else some (handledRecords limits (recording alloc) s (rec :: recs)).length := by
      intro known' s' hproc hk
      rw [ih hk, runRecords_cons_next hproc, handledRecords, hproc]
      split <;> rfl
    rw [deferIndex]
    obtain ⟨hbody, h⟩ | ⟨body, r, hbody, hr, h⟩ | ⟨body, nr, ext, hbody, hr, ha, h⟩ |
      ⟨body, ext, hbody, hr, ha, h⟩ := processRecord_cases limits (recording alloc) rec s
    · rw [hbody, Option.isSome_none] at hsome
      rw [← hsome, Bool.false_and, if_neg Bool.false_ne_true]
      exact hnext _ h hknown
    · have hmem : rec.requestId ∈ s.requests :=
        AList.lookup_isSome.mp (by rw [hr]; rfl)
      have hcond : (addressesRequest rec && decide (rec.requestId ∉ known)) = false := by
        simp [(hknown _).mpr hmem]
      rw [hcond, if_neg Bool.false_ne_true, ← ext_touch_recording alloc rec.requestId body r s]
      refine hnext _ h fun id ↦ ?_
      rw [mem_touch_recording, hknown]
      exact ⟨Or.inr, fun hid ↦ hid.elim (fun e ↦ e ▸ hmem) fun h ↦ h⟩
    · have hnot : rec.requestId ∉ s.requests := AList.lookup_eq_none.mp hr
      rw [hbody, Option.isSome_some] at hsome
      have halloc : alloc rec.requestId s.ext.1 = (some nr, ext.1) := by
        obtain ⟨h₁, h₂⟩ := Prod.mk.inj ha
        rw [← h₂, ← h₁]
      rw [← hsome, if_pos (by simp [hknown, hnot]), halloc]
      simp only
      rw [← ext_touch_recording alloc rec.requestId body nr
        { s with requests := s.requests.insert rec.requestId nr, ext := ext }]
      refine hnext _ h fun id ↦ ?_
      rw [mem_touch_recording, List.mem_cons, hknown, AList.mem_insert]
      tauto
    · have hnot : rec.requestId ∉ s.requests := AList.lookup_eq_none.mp hr
      rw [hbody, Option.isSome_some] at hsome
      have halloc : alloc rec.requestId s.ext.1 = (none, ext.1) := by
        obtain ⟨h₁, h₂⟩ := Prod.mk.inj ha
        rw [← h₂, ← h₁]
      rw [← hsome, if_pos (by simp [hknown, hnot]), halloc]
      simp only
      by_cases hbegin : rec.type = FCGI_BEGIN_REQUEST
      · rw [if_pos hbegin] at h ⊢
        rw [runRecords_cons_deferred h, handledRecords, h]
        simp
      · rw [if_neg hbegin] at h ⊢
        exact hnext _ h hknown

end

/-! ## Keeping the books

The early return leaves `in_buf` as it was. Records that stand in front of the deferred one are then
both applied and in the buffer, and the next call applies them again; the books say so by comparing
what has been applied, with what is in the buffer behind it, to what has arrived. -/

/-- The decoder's side of a connection over a sequence of calls. -/
structure Intake (σ : Type*) extends Machine σ where
  inBuf : Bytes := []
  waitingForArena : Bool := false
  /-- the records applied so far -/
  applied : List Record := []
  /-- all bytes that have arrived -/
  received : Bytes := []

/-- One call of `process_buffer`, after `chunk` has been appended to the buffer. -/
def intakeCall {σ : Type*} (limits : Limits) (cb : Callbacks σ) (st : Intake σ) (chunk : Bytes) :
    Intake σ :=
  let inBuf := st.inBuf ++ chunk
  let res := processBuffer limits cb inBuf st.toMachine
  { res.toMachine with
    inBuf := res.inBuf
    waitingForArena := res.waitingForArena
    applied := st.applied ++ handledRecords limits cb st.toMachine (recordFramer.frames inBuf)
    received := st.received ++ chunk }

/-- Every record that has arrived has been applied exactly once or is still in the buffer, and a
buffer left by a deferral starts at a BEGIN_REQUEST record. -/
def Accounted {σ : Type*} (st : Intake σ) : Prop :=
  st.applied.flatMap Record.encode ++ st.inBuf = st.received ∧
    (st.waitingForArena = true →
      ∃ rec e, rec.type = FCGI_BEGIN_REQUEST ∧ st.inBuf = Record.encode rec ++ e)

/-- If the coming call defers a BEGIN_REQUEST record, it is the first record of the buffer. -/
def DeferredFirst {α : Type*} (alloc : UInt16 → α → Option Request × α)
    (st : Intake (α × List Request)) (chunk : Bytes) : Prop :=
  ∀ k, deferIndex alloc st.requests.keys st.ext.1 (recordFramer.frames (st.inBuf ++ chunk)) = some k
    → k = 0

section

variable {α : Type*} {limits : Limits} {alloc : UInt16 → α → Option Request × α}

private theorem deferredFirst_iff (limits : Limits) (st : Intake (α × List Request))
    (chunk : Bytes) : DeferredFirst alloc st chunk ↔
      ((runRecords limits (recording alloc) st.toMachine
          (recordFramer.frames (st.inBuf ++ chunk))).2 ≠ [] →
        handledRecords limits (recording alloc) st.toMachine
          (recordFramer.frames (st.inBuf ++ chunk)) = []) := by
  rw [DeferredFirst, deferIndex_eq limits _ fun id ↦ AList.mem_keys.symm]
  split
  · next h => simp [h]
  · next h => simp [h]

/-- The step rule: books that balance before a call balance after it exactly if the call defers
nothing or defers the first record. -/
theorem accounted_intakeCall_iff {st : Intake (α × List Request)} (hst : Accounted st)
    (chunk : Bytes) :
    Accounted (intakeCall limits (recording alloc) st chunk) ↔ DeferredFirst alloc st chunk := by
  set buf := st.inBuf ++ chunk with hbuf
  have hsplit := handledRecords_append_left limits (recording alloc) st.toMachine
    (recordFramer.frames buf)
  have hwhole := flatMap_encode_frames buf
  have hreceived : st.received ++ chunk = st.applied.flatMap Record.encode ++ buf := by
    rw [hbuf, ← List.append_assoc, hst.1]
  rw [deferredFirst_iff limits, ← hbuf, Accounted, intakeCall, ← hbuf]
  simp only [processBuffer_eq, hreceived, List.flatMap_append, List.append_assoc,
    List.append_cancel_left_eq]
  cases hleft : (runRecords limits (recording alloc) st.toMachine (recordFramer.frames buf)).2 with
  | nil =>
    rw [hleft, List.append_nil] at hsplit
    simp [hsplit, hwhole]
  | cons rec later =>
    have hbegin := type_of_left_cons hleft
    rw [hleft] at hsplit
    simp only [reduceCtorEq, if_false, ne_eq, not_false_eq_true, forall_true_left]
    constructor
    · -- the whole buffer was kept, so the handled records take no room in it
      rintro ⟨h, -⟩
      have hlen := congrArg List.length h
      rw [List.length_append] at hlen
      rw [← List.length_eq_zero_iff]
      cases hh : handledRecords limits (recording alloc) st.toMachine
          (recordFramer.frames buf) with
      | nil => rfl
      | cons r rs =>
        have hpos := r.size_le_length_encode
        rw [hh, List.flatMap_cons, List.length_append] at hlen
        simp only [Header.size] at hpos
        omega
    · intro hnil
      rw [hnil, List.nil_append] at hsplit
      refine ⟨by rw [hnil]; rfl, rec, later.flatMap Record.encode ++ recordFramer.rest buf,
        hbegin, ?_⟩
      rw [← List.append_assoc, ← List.flatMap_cons, hsplit, hwhole]

/-- **Consumption under arena exhaustion.** From any requests map and allocator, the books balance
after every call of a sequence exactly when no call of it defers a BEGIN_REQUEST record behind
another record. -/
theorem always_accounted_iff (limits : Limits) (alloc : UInt16 → α → Option Request × α)
    (s : Machine (α × List Request)) (chunks : List Bytes) :
    Always (intakeCall limits (recording alloc)) Accounted { s with } chunks
      ↔ Meets (intakeCall limits (recording alloc)) (DeferredFirst alloc) { s with } chunks := by
  refine always_iff_meets (fun st chunk hst ↦ accounted_intakeCall_iff hst chunk) ?_
  exact ⟨rfl, fun h ↦ by cases h⟩

end

/-- An allocator that answers from a list and gives every request the arena 0. -/
def scriptedAlloc (id : UInt16) : List Bool → Option Request × List Bool
  | true :: as => (some { Request.ofArena 0 0 with id := id }, as)
  | _ :: as => (none, as)
  | [] => (none, [])

/-- BEGIN for id 1 gets an arena, STDIN adds one octet, BEGIN for id 2 is deferred: the buffer still
holds all three records, and when an arena is free the octet is added again. -/
theorem not_always_accounted_deferred_behind_stdin :
    let begin₁ : Record := ⟨FCGI_BEGIN_REQUEST, 1, [0, 1, 0, 0, 0, 0, 0, 0], [], 0,
      by decide, by decide⟩
    let begin₂ : Record := ⟨FCGI_BEGIN_REQUEST, 2, [0, 1, 0, 0, 0, 0, 0, 0], [], 0,
      by decide, by decide⟩
    let stdin : Record := ⟨FCGI_STDIN, 1, [65], [], 0, by decide, by decide⟩
    let s : Machine (List Bool × List Request) := ⟨∅, [], ([true, false, true], [])⟩
    let stream := begin₁.encode ++ stdin.encode ++ begin₂.encode
    let st₁ := intakeCall {} (recording scriptedAlloc) { s with } stream
    let st₂ := intakeCall {} (recording scriptedAlloc) st₁ []
    st₁.waitingForArena = true ∧ st₁.inBuf = stream ∧ st₁.inBuf ≠ begin₂.encode ∧
      (st₁.requests.lookup 1).map (fun r ↦ r.body) = some [65] ∧
      st₂.waitingForArena = false ∧
      (st₂.requests.lookup 1).map (fun r ↦ r.body) = some [65, 65] ∧
      ¬Always (intakeCall {} (recording scriptedAlloc)) Accounted { s with } [stream, []] := by
  intro begin₁ begin₂ stdin s stream st₁ st₂
  refine ⟨by decide, by decide, by decide, by decide, by decide, by decide, fun h ↦ ?_⟩
  have hst₁ : Accounted st₁ := h.2.1
  exact absurd hst₁.1 (by decide)

end Wasapi.Fastcgi
