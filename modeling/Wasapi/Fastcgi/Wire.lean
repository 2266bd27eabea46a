import Wasapi.Config
import Wasapi.Library.BigEndian
import Wasapi.Library.Framing

/-!
# FastCGI records on the wire

The eight-octet header, its content and its padding. A `Record` carries the two bounds its length
fields impose, so every record can be written, and `nextRecord` gives back exactly the records
that `Record.encode` writes (`nextRecord_eq_some_iff`).
-/

namespace Wasapi.Fastcgi

/-! ## Constants -/

def FCGI_BEGIN_REQUEST : UInt8 := 1
def FCGI_ABORT_REQUEST : UInt8 := 2
def FCGI_END_REQUEST : UInt8 := 3
def FCGI_PARAMS : UInt8 := 4
def FCGI_STDIN : UInt8 := 5
def FCGI_STDOUT : UInt8 := 6

/-- The bit of `enum Flags`. -/
def KEEP_CONN : UInt8 := 1

/-- `enum ProtocolStatus`. -/
inductive ProtocolStatus where
  | requestComplete
  | cantMpxConn
  | overloaded
  | unknownRole
  deriving DecidableEq

def ProtocolStatus.toByte : ProtocolStatus → UInt8
  | requestComplete => 0
  | cantMpxConn => 1
  | overloaded => 2
  | unknownRole => 3

def VERSION_1 : UInt8 := 1

/-! ## Headers

The fields of two octets are in network order on the wire and in host order in the structure.
Reading and writing swap them, so they are inverse to each other whatever the fields say. -/

/-- `struct Header`, its two-octet fields in host order. -/
structure Header where
  version : UInt8
  type : UInt8
  requestId : UInt16
  contentLength : UInt16
  paddingLength : UInt8
  reserved : UInt8

namespace Header

def size : ℕ := 8

def read : Bytes → Option Header
  | v :: t :: i₁ :: i₀ :: c₁ :: c₀ :: p :: r :: _ =>
    some ⟨v, t, UInt16.ofNat (beValue [i₁, i₀]), UInt16.ofNat (beValue [c₁, c₀]), p, r⟩
  | _ => none

def write (h : Header) : Bytes :=
  h.version :: h.type :: beBytes 2 h.requestId.toNat ++ beBytes 2 h.contentLength.toNat
    ++ [h.paddingLength, h.reserved]

/-- `totalLen` of `process_buffer`. -/
def totalLen (h : Header) : ℕ := size + h.contentLength.toNat + h.paddingLength.toNat

@[simp] theorem length_write (h : Header) : h.write.length = size := by
  simp [write, size]

private theorem beBytes_two_ofNat (a b : UInt8) :
    beBytes 2 (UInt16.ofNat (beValue [a, b])).toNat = [a, b] := by
  have hlt : beValue [a, b] < 256 ^ 2 := beValue_lt [a, b]
  rw [UInt16.toNat_ofNat', Nat.mod_eq_of_lt (by omega)]
  exact beBytes_beValue [a, b]

private theorem exists_beBytes_two (n : UInt16) : ∃ a b, beBytes 2 n.toNat = [a, b] ∧
    UInt16.ofNat (beValue [a, b]) = n := by
  obtain ⟨a, b, hab⟩ := List.length_eq_two.mp (length_beBytes 2 n.toNat)
  refine ⟨a, b, hab, ?_⟩
  rw [← hab, beValue_beBytes n.toNat_lt, UInt16.ofNat_toNat]

/-- Reading and writing a header are inverse to each other. -/
theorem read_eq_some_iff (b : Bytes) (h : Header) :
    read b = some h ↔ ∃ r, b = h.write ++ r := by
  constructor
  · intro hr
    rcases b with _ | ⟨v, _ | ⟨t, _ | ⟨i₁, _ | ⟨i₀, _ | ⟨c₁, _ | ⟨c₀, _ | ⟨p, _ | ⟨r, b⟩⟩⟩⟩⟩⟩⟩⟩ <;>
      simp only [read, reduceCtorEq, Option.some.injEq] at hr
    subst hr
    exact ⟨b, by rw [write, beBytes_two_ofNat, beBytes_two_ofNat]; rfl⟩
  · rintro ⟨r, rfl⟩
    obtain ⟨i₁, i₀, hi, hid⟩ := exists_beBytes_two h.requestId
    obtain ⟨c₁, c₀, hc, hlen⟩ := exists_beBytes_two h.contentLength
    rw [write, hi, hc]
    simp only [List.cons_append, List.nil_append, read, hid, hlen]

end Header

/-! ## Records

A record is complete when its header is and the octets the header announces have arrived. A header
with another version stops the framing at that point, and more octets do not change that. -/

/-- A version-1 record: type, request id, content and padding, each within its length field. -/
@[ext] structure Record where
  type : UInt8
  requestId : UInt16
  content : Bytes
  padding : Bytes
  reserved : UInt8
  content_lt : content.length < 2 ^ 16
  padding_lt : padding.length < 2 ^ 8

namespace Record

theorem padding_nil_lt : ([] : Bytes).length < 2 ^ 8 := Nat.two_pow_pos 8

def header (r : Record) : Header where
  version := VERSION_1
  type := r.type
  requestId := r.requestId
  contentLength := UInt16.ofNat r.content.length
  paddingLength := UInt8.ofNat r.padding.length
  reserved := r.reserved

def encode (r : Record) : Bytes := r.header.write ++ (r.content ++ r.padding)

private theorem totalLen_header (r : Record) :
    r.header.totalLen = Header.size + r.content.length + r.padding.length := by
  rw [Header.totalLen, header, UInt16.toNat_ofNat', UInt8.toNat_ofNat',
    Nat.mod_eq_of_lt r.content_lt, Nat.mod_eq_of_lt r.padding_lt]

theorem length_encode (r : Record) : r.encode.length = r.header.totalLen := by
  rw [totalLen_header, encode, List.length_append, Header.length_write, List.length_append]
  omega

theorem size_le_length_encode (r : Record) : Header.size ≤ r.encode.length := by
  rw [length_encode, totalLen_header]
  omega

end Record

/-- The first record of a buffer and what follows it: the framing part of the loop of
`process_buffer`, which stops when the header or the record is not complete or when the version is
not 1. -/
def nextRecord (b : Bytes) : Option (Record × Bytes) :=
  match Header.read b with
  | none => none
  | some h =>
    if h.version ≠ VERSION_1 then none
    else if b.length < h.totalLen then none
    else
      some (⟨h.type, h.requestId, (b.drop Header.size).take h.contentLength.toNat,
          (b.drop (Header.size + h.contentLength.toNat)).take h.paddingLength.toNat, h.reserved,
          (List.length_take_le _ _).trans_lt h.contentLength.toNat_lt,
          (List.length_take_le _ _).trans_lt h.paddingLength.toNat_lt⟩,
        b.drop h.totalLen)

/-- A complete header at the front of the buffer that does not say version 1. -/
def badVersion (b : Bytes) : Bool :=
  match Header.read b with
  | none => false
  | some h => h.version ≠ VERSION_1

private theorem nextRecord_encode (r : Record) (e : Bytes) :
    nextRecord (r.encode ++ e) = some (r, e) := by
  have hread : Header.read (r.encode ++ e) = some r.header :=
    (Header.read_eq_some_iff _ _).mpr ⟨(r.content ++ r.padding) ++ e, by
      rw [Record.encode, List.append_assoc]⟩
  have hc : r.header.contentLength.toNat = r.content.length := by
    rw [Record.header, UInt16.toNat_ofNat', Nat.mod_eq_of_lt r.content_lt]
  have hp : r.header.paddingLength.toNat = r.padding.length := by
    rw [Record.header, UInt8.toNat_ofNat', Nat.mod_eq_of_lt r.padding_lt]
  have hdrop : (r.encode ++ e).drop Header.size = r.content ++ (r.padding ++ e) := by
    rw [Record.encode, List.append_assoc, List.drop_left' (Header.length_write _),
      List.append_assoc]
  have hcontent : ((r.encode ++ e).drop Header.size).take r.header.contentLength.toNat
      = r.content := by
    rw [hdrop, hc, List.take_left]
  have hpadding : ((r.encode ++ e).drop (Header.size + r.header.contentLength.toNat)).take
      r.header.paddingLength.toNat = r.padding := by
    rw [← List.drop_drop, hdrop, hc, List.drop_left, hp, List.take_left]
  have hrest : (r.encode ++ e).drop r.header.totalLen = e := by
    rw [← Record.length_encode, List.drop_left]
  have hlen : ¬(r.encode ++ e).length < r.header.totalLen := by
    rw [List.length_append, Record.length_encode]
    omega
  rw [nextRecord, hread]
  simp only
  rw [if_neg (by simp [Record.header]), if_neg hlen, Option.some.injEq, Prod.mk.injEq]
  exact ⟨Record.ext rfl rfl hcontent hpadding rfl, hrest⟩

theorem encode_of_nextRecord {b e : Bytes} {r : Record} (h : nextRecord b = some (r, e)) :
    b = r.encode ++ e := by
  rw [nextRecord] at h
  cases hread : Header.read b with
  | none => rw [hread] at h; cases h
  | some hd =>
    rw [hread] at h
    obtain ⟨t, rfl⟩ := (Header.read_eq_some_iff _ _).mp hread
    simp only at h
    by_cases hv : hd.version = VERSION_1
    · rw [if_neg (by simpa using hv)] at h
      by_cases hlen : (hd.write ++ t).length < hd.totalLen
      · rw [if_pos hlen] at h; cases h
      · rw [if_neg hlen, Option.some.injEq, Prod.mk.injEq] at h
        obtain ⟨rfl, rfl⟩ := h
        have ht : hd.contentLength.toNat + hd.paddingLength.toNat ≤ t.length := by
          rw [List.length_append, Header.length_write, Header.totalLen] at hlen
          omega
        have hsize : ∀ n, (hd.write ++ t).drop (Header.size + n) = t.drop n := by
          intro n
          rw [← List.drop_drop, List.drop_left' (Header.length_write _)]
        have hzero : (hd.write ++ t).drop Header.size = t := hsize 0
        have hcontent : (t.take hd.contentLength.toNat).length = hd.contentLength.toNat := by
          rw [List.length_take]; omega
        have hpadding : ((t.drop hd.contentLength.toNat).take hd.paddingLength.toNat).length
            = hd.paddingLength.toNat := by
          rw [List.length_take, List.length_drop]; omega
        simp only [Record.encode, Record.header, hzero, hsize, hcontent, hpadding,
          UInt16.ofNat_toNat, UInt8.ofNat_toNat, ← hv, List.append_assoc]
        rw [Header.totalLen, add_assoc, hsize, ← List.drop_drop, List.take_append_drop,
          List.take_append_drop]
    · rw [if_pos (by simpa using hv)] at h; cases h

/-- **Framing is exact**: a buffer yields a record exactly when it starts with its encoding. -/
theorem nextRecord_eq_some_iff (b e : Bytes) (r : Record) :
    nextRecord b = some (r, e) ↔ b = r.encode ++ e :=
  ⟨encode_of_nextRecord, fun h ↦ h ▸ nextRecord_encode r e⟩

/-- The framing of `process_buffer`. -/
def recordFramer : Framer UInt8 Record where
  next := nextRecord
  length_lt := by
    intro b r e h
    have hpos := Record.size_le_length_encode r
    rw [encode_of_nextRecord h, List.length_append]
    simp only [Header.size] at hpos
    omega
  next_append := by
    intro b r e t h
    rw [encode_of_nextRecord h, List.append_assoc, nextRecord_encode]

private theorem recordFramer_reads (r : Record) : recordFramer.Reads Record.encode r :=
  fun e ↦ nextRecord_encode r e

theorem nextRecord_of_badVersion {b : Bytes} (h : badVersion b = true) : nextRecord b = none := by
  rw [badVersion] at h
  rw [nextRecord]
  cases hread : Header.read b with
  | none => rfl
  | some hd =>
    rw [hread] at h
    simp only at h ⊢
    rw [if_pos (by simpa using h)]

/-- A bad version stays bad when more bytes arrive. -/
theorem badVersion_append {b : Bytes} (h : badVersion b = true) (e : Bytes) :
    badVersion (b ++ e) = true := by
  rw [badVersion] at h ⊢
  cases hread : Header.read b with
  | none => rw [hread] at h; cases h
  | some hd =>
    obtain ⟨t, rfl⟩ := (Header.read_eq_some_iff _ _).mp hread
    rw [hread] at h
    rw [(Header.read_eq_some_iff _ hd).mpr ⟨t ++ e, List.append_assoc _ _ _⟩]
    exact h

/-- Every buffer is the encoding of its records followed by its rest. -/
theorem flatMap_encode_frames (b : Bytes) :
    (recordFramer.frames b).flatMap Record.encode ++ recordFramer.rest b = b := by
  induction b using recordFramer.buffer_induction with
  | stop b h => rw [Framer.frames_of_none h, Framer.rest_of_none h]; rfl
  | item b f r h ih =>
    rw [Framer.frames_of_some h, Framer.rest_of_some h, List.flatMap_cons, List.append_assoc, ih]
    exact (encode_of_nextRecord h).symm

theorem frames_flatMap_encode (recs : List Record) :
    recordFramer.frames (recs.flatMap Record.encode) = recs := by
  have h := recordFramer.frames_flatMap (fun r (_ : r ∈ recs) ↦ recordFramer_reads r) []
  rwa [List.append_nil, Framer.frames_of_none recordFramer.next_nil, List.append_nil] at h

theorem rest_flatMap_encode (recs : List Record) :
    recordFramer.rest (recs.flatMap Record.encode) = [] := by
  have h := recordFramer.rest_flatMap (fun r (_ : r ∈ recs) ↦ recordFramer_reads r) []
  rwa [List.append_nil, Framer.rest_of_none recordFramer.next_nil] at h

/-! ## Writing records

The server's own records have no padding. A text longer than a record can hold becomes several
records with the same id. -/

/-- `append_record`: `data` is at most 65535 octets long at every call. -/
def appendRecord (out : Bytes) (type : UInt8) (reqId : UInt16) (data : Bytes) : Bytes :=
  out ++ (Header.write ⟨VERSION_1, type, reqId, UInt16.ofNat data.length, 0, 0⟩ ++ data)

def appendEndRequest (out : Bytes) (reqId : UInt16) (appStatus : UInt32)
    (protoStatus : ProtocolStatus) : Bytes :=
  appendRecord out FCGI_END_REQUEST reqId
    (beBytes 4 appStatus.toNat ++ [protoStatus.toByte, 0, 0, 0])

/-- The chunks of `append_stdout_text`, each of at most 65535 octets; `fuel` bounds their number. -/
def stdoutChunks : ℕ → Bytes → List Bytes
  | 0, _ => []
  | fuel + 1, body =>
    if body.isEmpty then [] else body.take 0xFFFF :: stdoutChunks fuel (body.drop 0xFFFF)

def appendStdoutText (out : Bytes) (reqId : UInt16) (body : Bytes) : Bytes :=
  appendRecord
    ((stdoutChunks body.length body).foldl
      (fun out chunk ↦ appendRecord out FCGI_STDOUT reqId chunk) out)
    FCGI_STDOUT reqId []

theorem appendRecord_eq (out : Bytes) (type : UInt8) (id : UInt16) {data : Bytes}
    (h : data.length < 2 ^ 16) :
    appendRecord out type id data
      = out ++ (⟨type, id, data, [], 0, h, by norm_num⟩ : Record).encode := by
  rw [appendRecord, Record.encode, Record.header, List.append_nil]
  rfl

private theorem length_of_mem_stdoutChunks {fuel : ℕ} {body chunk : Bytes}
    (h : chunk ∈ stdoutChunks fuel body) : chunk.length < 2 ^ 16 := by
  induction fuel generalizing body with
  | zero => cases h
  | succ fuel ih =>
    rw [stdoutChunks] at h
    split at h
    · cases h
    · rcases List.mem_cons.mp h with rfl | h
      · rw [List.length_take]
        omega
      · exact ih h

private theorem flatten_stdoutChunks {fuel : ℕ} {body : Bytes} (h : body.length ≤ fuel) :
    (stdoutChunks fuel body).flatten = body := by
  induction fuel generalizing body with
  | zero => rw [List.eq_nil_of_length_eq_zero (Nat.le_zero.mp h), stdoutChunks, List.flatten_nil]
  | succ fuel ih =>
    rw [stdoutChunks]
    split
    · next hnil => rw [List.isEmpty_iff.mp hnil, List.flatten_nil]
    · rw [List.flatten_cons, ih (by rw [List.length_drop]; omega), List.take_append_drop]

/-- `append_stdout_text` writes STDOUT records of the request, and the text is their content. -/
theorem appendStdoutText_eq (out : Bytes) (id : UInt16) (body : Bytes) : ∃ outs : List Record,
    (∀ rec ∈ outs, rec.type = FCGI_STDOUT ∧ rec.requestId = id) ∧
      outs.flatMap Record.content = body ∧
      appendStdoutText out id body = out ++ outs.flatMap Record.encode := by
  have hchunks : ∀ chunks : List Bytes, (∀ chunk ∈ chunks, chunk.length < 2 ^ 16) →
      ∀ out, ∃ outs : List Record, (∀ rec ∈ outs, rec.type = FCGI_STDOUT ∧ rec.requestId = id) ∧
        outs.flatMap Record.content = chunks.flatten ∧
        chunks.foldl (fun out chunk ↦ appendRecord out FCGI_STDOUT id chunk) out
          = out ++ outs.flatMap Record.encode := by
    intro chunks
    induction chunks with
    | nil => exact fun _ out ↦ ⟨[], fun rec hrec ↦ (nomatch hrec), rfl, (List.append_nil out).symm⟩
    | cons chunk chunks ih =>
      intro hlen out
      have hchunk := hlen chunk List.mem_cons_self
      obtain ⟨outs, houts, hcontent, heq⟩ := ih (fun c hc ↦ hlen c (List.mem_cons_of_mem _ hc))
        (appendRecord out FCGI_STDOUT id chunk)
      refine ⟨⟨FCGI_STDOUT, id, chunk, [], 0, hchunk, by norm_num⟩ :: outs, fun rec hrec ↦ ?_, ?_,
        ?_⟩
      · rcases List.mem_cons.mp hrec with rfl | hrec
        · exact ⟨rfl, rfl⟩
        · exact houts rec hrec
      · rw [List.flatMap_cons, hcontent, List.flatten_cons]
      · rw [List.foldl_cons, heq, appendRecord_eq out FCGI_STDOUT id hchunk, List.flatMap_cons,
          List.append_assoc]
  obtain ⟨outs, houts, hcontent, heq⟩ := hchunks (stdoutChunks body.length body)
    (fun chunk hchunk ↦ length_of_mem_stdoutChunks hchunk) out
  have hnil : ([] : Bytes).length < 2 ^ 16 := by norm_num
  refine ⟨outs ++ [⟨FCGI_STDOUT, id, [], [], 0, hnil, by norm_num⟩], fun rec hrec ↦ ?_, ?_, ?_⟩
  · rcases List.mem_append.mp hrec with hrec | hrec
    · exact houts rec hrec
    · rw [List.mem_singleton.mp hrec]
      exact ⟨rfl, rfl⟩
  · rw [List.flatMap_append, List.flatMap_singleton, hcontent, flatten_stdoutChunks le_rfl,
      List.append_nil]
  · rw [appendStdoutText, heq, appendRecord_eq _ FCGI_STDOUT id hnil, List.flatMap_append,
      List.flatMap_singleton, List.append_assoc]

end Wasapi.Fastcgi
