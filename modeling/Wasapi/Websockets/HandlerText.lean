import Wasapi.Websockets.Adapters

/-!
# The record loop of `schedule_http`

The loop has its own walk over the headers, beside the one of `process_buffer`, and does not look at
what the records are for: it collects the content of the STDOUT records and steps over the others.
It stops in front of anything that is not a whole record, and in front of nothing that
`append_stdout_text` and `append_end_request` write.
-/

namespace Wasapi.Websockets

open Fastcgi

/-- The loop: `p` is what lies between the pointer and `end`. The second component is what is left
when it stops. -/
def textLoop : ℕ → Bytes → Bytes → Bytes × Bytes
  | 0, p, body => (body, p)
  | fuel + 1, p, body =>
    match Header.read p with
    | none => (body, p)
    | some h =>
      if h.version ≠ VERSION_1 then (body, p)
      else
        let contentLen := h.contentLength.toNat
        let total := Header.size + contentLen + h.paddingLength.toNat
        if p.length < total then (body, p)
        else
          textLoop fuel (p.drop total)
            (if h.type = FCGI_STDOUT ∧ 0 < contentLen then
              body ++ (p.drop Header.size).take contentLen
            else body)

/-- What the loop makes of the output of a handler, and what it has not come to. -/
def recordText (resp : Bytes) : Bytes × Bytes := textLoop resp.length resp []

/-- `append_end_request`, which takes any byte for the protocol status. -/
def appendEndRequestByte (out : Bytes) (reqId : UInt16) (appStatus : UInt32) (protoStatus : UInt8) :
    Bytes :=
  appendRecord out FCGI_END_REQUEST reqId (beBytes 4 appStatus.toNat ++ [protoStatus, 0, 0, 0])

theorem appendEndRequest_eq_appendEndRequestByte (out : Bytes) (reqId : UInt16)
    (appStatus : UInt32) (protoStatus : ProtocolStatus) :
    appendEndRequest out reqId appStatus protoStatus =
      appendEndRequestByte out reqId appStatus protoStatus.toByte := rfl

/-- A whole record is framed with the type and the content its header says. -/
theorem nextRecord_of_whole {p : Bytes} {h : Header} (hread : Header.read p = some h)
    (hversion : h.version = VERSION_1) (hlen : h.totalLen ≤ p.length) :
    ∃ rec : Record, nextRecord p = some (rec, p.drop h.totalLen) ∧ rec.type = h.type ∧
      rec.content = (p.drop Header.size).take h.contentLength.toNat := by
  rw [nextRecord, hread]
  simp only
  rw [if_neg (not_not_intro hversion), if_neg (not_lt.mpr hlen)]
  exact ⟨_, rfl, rfl, rfl⟩

private theorem stdoutText_of_none {p : Bytes} (h : nextRecord p = none) : stdoutText p = [] := by
  rw [stdoutText, Framer.frames_of_none (F := recordFramer) h, List.filter_nil, List.flatMap_nil]

private theorem stdoutText_of_some {p rest : Bytes} {rec : Record}
    (h : nextRecord p = some (rec, rest)) :
    stdoutText p =
      (if rec.type = FCGI_STDOUT then rec.content else []) ++ stdoutText rest := by
  rw [stdoutText, Framer.frames_of_some (F := recordFramer) h, stdoutText]
  by_cases htype : rec.type = FCGI_STDOUT
  · rw [if_pos htype, List.filter_cons_of_pos (by simpa using htype), List.flatMap_cons]
  · rw [if_neg htype, List.filter_cons_of_neg (by simpa using htype), List.nil_append]

/-- **The loop walks the records.** Every turn takes one off, so as many turns as there are octets
are enough. -/
theorem textLoop_eq {fuel : ℕ} {p : Bytes} (hfuel : p.length ≤ fuel) (body : Bytes) :
    textLoop fuel p body = (body ++ stdoutText p, recordFramer.rest p) := by
  induction fuel generalizing p body with
  | zero =>
    obtain rfl := List.eq_nil_of_length_eq_zero (Nat.le_zero.mp hfuel)
    have hnil : nextRecord [] = none := recordFramer.next_nil
    rw [textLoop, stdoutText_of_none hnil, List.append_nil,
      Framer.rest_of_none (F := recordFramer) (b := []) hnil]
  | succ fuel ih =>
    have hstop (h : nextRecord p = none) :
        (body, p) = (body ++ stdoutText p, recordFramer.rest p) := by
      rw [stdoutText_of_none h, List.append_nil, Framer.rest_of_none (F := recordFramer) h]
    rw [textLoop]
    cases hread : Header.read p with
    | none => exact hstop (by rw [nextRecord, hread])
    | some h =>
      simp only
      split
      · next hversion => exact hstop (by rw [nextRecord, hread]; exact if_pos hversion)
      next hversion =>
      split
      · next hlen =>
        refine hstop ?_
        rw [nextRecord, hread]
        exact (if_neg hversion).trans (if_pos hlen)
      next hlen =>
      -- the loop goes on behind the record
      obtain ⟨rec, hnext, htype, hcontent⟩ :=
        nextRecord_of_whole hread (not_not.mp hversion) (not_lt.mp hlen)
      have hlt := recordFramer.length_lt hnext
      rw [← Header.totalLen, ih (by omega), stdoutText_of_some hnext,
        Framer.rest_of_some (F := recordFramer) hnext, ← List.append_assoc, htype, hcontent]
      congr 2
      by_cases hstdout : h.type = FCGI_STDOUT
      · rw [if_pos hstdout]
        by_cases hpos : 0 < h.contentLength.toNat
        · rw [if_pos ⟨hstdout, hpos⟩]
        · -- an empty record adds nothing
          rw [if_neg fun hand ↦ hpos hand.2, Nat.eq_zero_of_not_pos hpos, List.take_zero,
            List.append_nil]
      · rw [if_neg hstdout, if_neg fun hand ↦ hstdout hand.1, List.append_nil]

private theorem recordText_eq (resp : Bytes) :
    recordText resp = (stdoutText resp, recordFramer.rest resp) := by
  rw [recordText, textLoop_eq le_rfl, List.nil_append]

/-- The loop collects the STDOUT content of records and reaches the end. -/
theorem recordText_flatMap_encode (recs : List Record) :
    recordText (recs.flatMap Record.encode) =
      ((recs.filter fun rec ↦ rec.type = FCGI_STDOUT).flatMap Record.content, []) := by
  rw [recordText_eq, stdoutText, frames_flatMap_encode, rest_flatMap_encode]

/-- **The text comes back.** The loop recovers the texts a handler has appended, whether the request
has been ended or not, and nothing is left of the buffer. -/
theorem recordText_appended (id : UInt16) (texts : List Bytes) (appStatus : UInt32)
    (protoStatus : UInt8) :
    let out := texts.foldl (fun out text ↦ appendStdoutText out id text) []
    recordText out = (texts.flatten, []) ∧
      recordText (appendEndRequestByte out id appStatus protoStatus) = (texts.flatten, []) := by
  obtain ⟨outs, houts, hcontent, heq⟩ := foldl_appendStdoutText id texts []
  have hfilter : outs.filter (fun rec ↦ rec.type = FCGI_STDOUT) = outs :=
    List.filter_eq_self.mpr fun rec hrec ↦ decide_eq_true (houts rec hrec)
  have hlen : (beBytes 4 appStatus.toNat ++ [protoStatus, 0, 0, 0]).length < 2 ^ 16 := by
    rw [List.length_append, length_beBytes]
    exact (by decide : 4 + 4 < 2 ^ 16)
  have hend : FCGI_END_REQUEST ≠ FCGI_STDOUT := by decide
  simp only
  rw [heq, List.nil_append, appendEndRequestByte, appendRecord_eq _ _ _ hlen]
  constructor
  · rw [recordText_flatMap_encode, hfilter, hcontent]
  · rw [← List.flatMap_singleton Record.encode, ← List.flatMap_append, recordText_flatMap_encode,
      List.filter_append, hfilter, List.filter_singleton, decide_eq_false hend, cond_false,
      List.append_nil, hcontent]

end Wasapi.Websockets
