import Wasapi.Fastcgi.ProcessBuffer

/-!
# Reads may be cut anywhere

`handle_io` appends what a read returned to `in_buf` and calls `process_buffer`. When no allocation
fails, the requests, the output, the calls of `on_request_ready` and the bytes left over depend
only on the stream, not on how it was cut into reads: framing is a `Framer`, and the records it
delivers do not depend on the cuts (`Framer.deliver_eq`).
-/

namespace Wasapi.Fastcgi

section NeverRefuses

variable {σ : Type*} {limits : Limits} {cb : Callbacks σ}

def NeverRefuses (cb : Callbacks σ) : Prop := ∀ id ext, (cb.allocateRequest id ext).1 ≠ none

private theorem processRecord_of_neverRefuses (hcb : NeverRefuses cb) (rec : Record)
    (s : Machine σ) : processRecord limits cb rec s = .next (turn limits cb s rec) := by
  rw [turn]
  obtain ⟨-, h⟩ | ⟨_, _, -, -, h⟩ | ⟨_, _, _, -, -, -, h⟩ | ⟨_, _, -, -, ha, -⟩ :=
    processRecord_cases limits cb rec s
  · rw [h]; rfl
  · rw [h]; rfl
  · rw [h]; rfl
  · exact absurd (by rw [ha]) (hcb rec.requestId s.ext)

theorem runRecords_of_neverRefuses (hcb : NeverRefuses cb) (s : Machine σ) (recs : List Record) :
    runRecords limits cb s recs = (recs.foldl (turn limits cb) s, []) := by
  induction recs generalizing s with
  | nil => rfl
  | cons rec recs ih =>
    rw [runRecords_cons_next (processRecord_of_neverRefuses hcb rec s), ih, List.foldl_cons]

private theorem processBuffer_of_neverRefuses (hcb : NeverRefuses cb) (inBuf : Bytes)
    (s : Machine σ) :
    processBuffer limits cb inBuf s =
      { (recordFramer.frames inBuf).foldl (turn limits cb) s with
        inBuf := recordFramer.rest inBuf
        waitingForArena := false
        status := if badVersion (recordFramer.rest inBuf) then .close else .ok } := by
  rw [processBuffer_eq, runRecords_of_neverRefuses hcb]
  simp only [if_true]

end NeverRefuses

/-- Recording callbacks with an allocator that never fails. -/
def granting {α : Type*} (alloc : UInt16 → α → Request × α) : Callbacks (α × List Request) :=
  recording fun id a ↦ (some (alloc id a).1, (alloc id a).2)

theorem neverRefuses_granting {α : Type*} (alloc : UInt16 → α → Request × α) :
    NeverRefuses (granting alloc) := fun _ _ h ↦ by cases h

/-! ## Reading a stream

With an allocator that never fails there is no early return, so a call handles all whole records and
keeps the rest. The octets of a bad header remain in the buffer for good and every later call
reports CLOSE again, which is why the report is recorded and not counted. -/

/-- The decoder's side of a connection between reads. -/
structure Reading (σ : Type*) extends Machine σ where
  inBuf : Bytes
  /-- CLOSE has been reported. -/
  closed : Bool

/-- One read: append what arrived and call `process_buffer`. -/
def readChunk {σ : Type*} (limits : Limits) (cb : Callbacks σ) (st : Reading σ) (chunk : Bytes) :
    Reading σ :=
  let res := processBuffer limits cb (st.inBuf ++ chunk) st.toMachine
  { res.toMachine with inBuf := res.inBuf, closed := st.closed || res.status = .close }

section

variable {σ : Type*} {limits : Limits} {cb : Callbacks σ}

/-- Reading in chunks hands the delivered records to the machine. The invariant carried along is
that the buffer holds no whole record and that CLOSE has been reported exactly if the buffer starts
with a bad header. -/
theorem foldl_readChunk (hcb : NeverRefuses cb) (chunks : List Bytes) (st : Reading σ)
    (hbuf : recordFramer.next st.inBuf = none) (hclosed : st.closed = badVersion st.inBuf) :
    chunks.foldl (readChunk limits cb) st =
      { (recordFramer.deliver st.inBuf chunks).1.foldl (turn limits cb) st.toMachine with
        inBuf := (recordFramer.deliver st.inBuf chunks).2
        closed := badVersion (recordFramer.deliver st.inBuf chunks).2 } := by
  induction chunks generalizing st with
  | nil =>
    rw [List.foldl_nil, Framer.deliver, ← hclosed]
    rfl
  | cons c cs ih =>
    -- a reported CLOSE stays reported because the bad header stays where it is
    have hstep : readChunk limits cb st c =
        { (recordFramer.frames (st.inBuf ++ c)).foldl (turn limits cb) st.toMachine with
          inBuf := recordFramer.rest (st.inBuf ++ c)
          closed := badVersion (recordFramer.rest (st.inBuf ++ c)) } := by
      rw [readChunk, processBuffer_of_neverRefuses hcb, hclosed]
      congr 1
      cases hbad : badVersion st.inBuf with
      | true =>
        have happ := badVersion_append hbad c
        rw [Framer.rest_of_none (F := recordFramer) (nextRecord_of_badVersion happ), happ,
          Bool.true_or]
      | false => cases badVersion (recordFramer.rest (st.inBuf ++ c)) <;> rfl
    rw [List.foldl_cons, hstep, ih _ (recordFramer.next_rest _) rfl, Framer.deliver]
    simp only [List.foldl_append]

/-- **Chunking invariance.** However the stream is cut into reads, the final buffer, the requests,
the output, the recorded calls and whether CLOSE has been reported are the same. -/
theorem foldl_readChunk_eq_of_flatten_eq {α : Type*} (limits : Limits)
    (alloc : UInt16 → α → Request × α) (s : Machine (α × List Request))
    {chunks chunks' : List Bytes} (h : chunks.flatten = chunks'.flatten) :
    chunks.foldl (readChunk limits (granting alloc)) { s with inBuf := [], closed := false }
      = chunks'.foldl (readChunk limits (granting alloc))
          { s with inBuf := [], closed := false } := by
  have hcb := neverRefuses_granting alloc
  have hstart : recordFramer.next [] = none := recordFramer.next_nil
  rw [foldl_readChunk hcb chunks _ hstart rfl, foldl_readChunk hcb chunks' _ hstart rfl,
    recordFramer.deliver_eq hstart, recordFramer.deliver_eq hstart, h]

/-- The header of a BEGIN_REQUEST is cut in the middle, and so is its body. -/
theorem foldl_readChunk_eq_cut_header :
    let cb := granting fun id (n : ℕ) ↦ ({ Request.ofArena n 0 with id := id }, n + 1)
    let whole := [[1, 1, 0, 7, 0, 8, 0, 0, 0, 1, 0, 0, 0, 0, 0, 0]].foldl (readChunk {} cb)
      { requests := ∅, outBuf := [], ext := (0, []), inBuf := [], closed := false }
    whole.requests.keys = [7] ∧
      [[1, 1, 0], [7, 0, 8, 0, 0, 0, 1], [0, 0, 0, 0, 0, 0]].foldl (readChunk {} cb)
        { requests := ∅, outBuf := [], ext := (0, []), inBuf := [], closed := false } = whole :=
  ⟨by decide, foldl_readChunk_eq_of_flatten_eq {} _ ⟨∅, [], (0, [])⟩ rfl⟩

end

end Wasapi.Fastcgi
