import Wasapi.Websockets.SentFrames

/-!
# The frame codec

One pass of the frame loop against the buffer it reads from, and against `build_ws_frame`.

The completeness check is all that keeps a pass inside `in_buf`, and its sum is a `size_t`. A length
in eight octets can be so large that the sum wraps; it is then at most 13, and a buffer with the
head and as many octets passes the check.

What `build_ws_frame` makes, and the same frame masked, is a frame in the shortest form for its
length, and a pass takes it apart again whatever follows it.
-/

namespace Wasapi.Websockets

/-! ## Inside the buffer

The sum of three lengths is of type `size_t`, and the check compares it with the size of the buffer.
If it wraps it is small, the check passes, and the pass reads octets that are not there. -/

namespace FrameHead

variable {inBuf : Bytes} {h : FrameHead}

/-- The completeness check of the frame loop. -/
def PassesCheck (h : FrameHead) (inBuf : Bytes) : Prop := ¬inBuf.length < sizeT h.total

/-- The pass stays inside the buffer. -/
structure Inside (h : FrameHead) (inBuf : Bytes) : Prop where
  /-- the final erase -/
  total_le : h.total ≤ inBuf.length
  /-- the payload slice -/
  length_payload : (h.payload inBuf).length = h.payloadLen
  /-- the mask access -/
  mask_lt : h.masked = true → ∀ k < h.payloadLen, h.headerLen + k % 4 < inBuf.length

instance : Decidable (h.PassesCheck inBuf) := inferInstanceAs (Decidable (¬_))

private theorem length_payload_of_le (hle : h.total ≤ inBuf.length) :
    (h.payload inBuf).length = h.payloadLen := by
  rw [total] at hle
  have hdata : ((inBuf.drop (h.headerLen + h.maskLen)).take h.payloadLen).length
      = h.payloadLen := by
    rw [List.length_take, List.length_drop]
    omega
  rw [payload]
  split
  · rw [List.length_mapIdx, hdata]
  · exact hdata

/-- The sum alone decides. -/
theorem inside_iff : h.Inside inBuf ↔ h.total ≤ inBuf.length := by
  constructor
  · intro hin
    exact hin.total_le
  · intro hle
    refine ⟨hle, length_payload_of_le hle, fun hmasked k hk ↦ ?_⟩
    have hmask : h.maskLen = 4 := by rw [maskLen, if_pos hmasked]
    rw [total, hmask] at hle
    omega

private theorem payloadLen_lt_of_read (hread : read inBuf = some h) : h.payloadLen < 2 ^ 64 := by
  have hbytes (bs : Bytes) (w : ℕ) (hw : w ≤ 8) : beValue (bs.take w) < 2 ^ 64 := by
    calc beValue (bs.take w) < 256 ^ (bs.take w).length := beValue_lt _
      _ ≤ 256 ^ 8 := Nat.pow_le_pow_right (by decide) ((List.length_take_le w bs).trans hw)
      _ = 2 ^ 64 := by norm_num
  match inBuf with
  | [] => cases hread
  | [_] => cases hread
  | b0 :: b1 :: rest =>
    simp only [read] at hread
    split at hread
    · split at hread
      · cases hread
      · obtain rfl := Option.some.inj hread
        exact hbytes rest 2 (by decide)
    · split at hread
      · split at hread
        · cases hread
        · obtain rfl := Option.some.inj hread
          exact hbytes rest 8 (by decide)
      · obtain rfl := Option.some.inj hread
        exact lt_trans (UInt8.toNat_lt _) (by norm_num)

/-- The sum wraps at most once. -/
theorem sizeT_total_of_le (hread : read inBuf = some h) (hle : 2 ^ 64 ≤ h.total) :
    sizeT h.total = h.total - 2 ^ 64 := by
  have hheader := (headerLen_of_read hread).2
  have hmask := h.maskLen_le
  have hpayload := payloadLen_lt_of_read hread
  have htotal : h.total = h.headerLen + h.maskLen + h.payloadLen := rfl
  rw [sizeT, Nat.mod_eq_sub_mod hle]
  exact Nat.mod_eq_of_lt (by omega)

/-- **The check keeps a pass inside the buffer** unless the sum wraps and the buffer has as many
octets as are left of it. -/
theorem inside_of_passesCheck_iff (hread : read inBuf = some h) (hsize : inBuf.length < 2 ^ 64) :
    (h.PassesCheck inBuf → h.Inside inBuf) ↔
      (h.total < 2 ^ 64 ∨ inBuf.length < h.total - 2 ^ 64) := by
  rw [PassesCheck, inside_iff]
  rcases lt_or_ge h.total (2 ^ 64) with hlt | hle
  · rw [sizeT_of_lt hlt]
    constructor
    · intro _
      exact .inl hlt
    · intro _ hpass
      exact not_lt.mp hpass
  · -- the sum wraps, and the frame is longer than any buffer
    rw [sizeT_total_of_le hread hle]
    constructor
    · intro hinside
      right
      by_contra hpass
      have htotal := hinside hpass
      omega
    · rintro (hlt | hshort) hpass
      · omega
      · exact absurd hshort hpass

theorem inside_of_passesCheck_iff_short :
    ∃ h, read [0x82, 5, 1] = some h ∧ (h.PassesCheck [0x82, 5, 1] → h.Inside [0x82, 5, 1]) :=
  ⟨_, rfl, (inside_of_passesCheck_iff rfl (by decide)).mpr (.inl (by decide))⟩

/-- A frame of 2 ^ 64 - 10 octets: the sum is 0. -/
def wrappingHead : Bytes := [0x82, 0x7F, 0xFF, 0xFF, 0xFF, 0xFF, 0xFF, 0xFF, 0xFF, 0xF6]

theorem not_inside_wrappingHead :
    ¬∀ (inBuf : Bytes) (h : FrameHead), read inBuf = some h → inBuf.length < 2 ^ 64 →
      h.PassesCheck inBuf → h.Inside inBuf := by
  intro hall
  obtain ⟨h, hread, hpass, htotal⟩ : ∃ h, read wrappingHead = some h ∧
      h.PassesCheck wrappingHead ∧ wrappingHead.length < h.total :=
    ⟨_, rfl, by decide, by decide⟩
  have hinside := hall wrappingHead h hread (by decide) hpass
  exact absurd hinside.total_le (not_le.mpr htotal)

end FrameHead

/-- **The loop throws only where a sum wraps.** -/
theorem wraps_of_frameLoop_thrown {fuel : ℕ} {c : Client} (hthrown : (frameLoop fuel c).thrown) :
    ∃ (b : Bytes) (h : FrameHead), b <:+ c.inBuf ∧ FrameHead.read b = some h ∧
      2 ^ 64 ≤ h.total := by
  induction fuel generalizing c with
  | zero => cases hthrown
  | succ fuel ih =>
    rw [frameLoop] at hthrown
    rcases hread : FrameHead.read c.inBuf with _ | h
    · rw [hread] at hthrown
      cases hthrown
    · rw [hread] at hthrown
      simp only at hthrown
      by_cases hpass : c.inBuf.length < sizeT h.total
      · rw [if_pos hpass] at hthrown
        cases hthrown
      · rw [if_neg hpass] at hthrown
        by_cases hle : c.inBuf.length < h.total
        -- the check has passed although the frame is longer than the buffer
        · refine ⟨c.inBuf, h, List.suffix_rfl, hread, ?_⟩
          by_contra hlt
          rw [sizeT_of_lt (not_le.mp hlt)] at hpass
          exact hpass hle
        · rw [if_neg hle] at hthrown
          obtain ⟨b, h', hsuffix, hread', htotal⟩ := ih hthrown
          exact ⟨b, h', hsuffix.trans (List.drop_suffix _ _), hread', htotal⟩

/-! ## What is built is read

The writer chooses the shortest form of the length and the reader accepts any. Masking twice with
the same key gives the payload back. -/

/-- The shortest form for a length. -/
def PayloadLength.shortest (n : ℕ) : PayloadLength :=
  if n < 126 then .short else if n ≤ 0xFFFF then .medium else .long

private theorem PayloadLength.shortest_cases (n : ℕ) :
    (n < 126 ∧ shortest n = .short) ∨ (126 ≤ n ∧ n ≤ 0xFFFF ∧ shortest n = .medium) ∨
      (126 ≤ n ∧ 0xFFFF < n ∧ shortest n = .long) := by
  rw [shortest]
  rcases lt_or_ge n 126 with hlt | hge
  · exact .inl ⟨hlt, if_pos hlt⟩
  · rw [if_neg (not_lt.mpr hge)]
    rcases le_or_gt n 0xFFFF with hle | hgt
    · exact .inr (.inl ⟨hge, hle, if_pos hle⟩)
    · exact .inr (.inr ⟨hge, hgt, if_neg (not_le.mpr hgt)⟩)

theorem PayloadLength.fits_shortest {n : ℕ} (hn : n < 2 ^ 63) : (shortest n).Fits n := by
  rcases shortest_cases n with ⟨hlt, hform⟩ | ⟨-, hle, hform⟩ | ⟨-, -, hform⟩
  · rw [hform]
    exact hlt
  · rw [hform]
    exact (Nat.lt_succ_of_le hle : n < 2 ^ 16)
  · rw [hform]
    exact hn

/-- `build_ws_frame` with a masking key: the mask bit is set, and the key stands in front of the
masked payload. -/
def maskedWsFrame (opcode : UInt8) (key : MaskingKey) (payload : Bytes) : Bytes :=
  let len := payload.length
  let head :=
    if len < 126 then [0x80 ||| UInt8.ofNat len]
    else if len ≤ 0xFFFF then (0x80 ||| 126) :: beBytes 2 len
    else (0x80 ||| 127) :: beBytes 8 len
  (0x80 ||| (opcode &&& 0x0F)) :: (head ++ key.octets ++ key.apply payload)

/-- The frame that is built, masked if there is a key. -/
def SentFrame.built (opcode : UInt8) {payload : Bytes} (hlen : payload.length < 2 ^ 63)
    (key : Option MaskingKey) : SentFrame where
  first := 0x80 ||| (opcode &&& 0x0F)
  payload := payload
  form := .shortest payload.length
  fits := PayloadLength.fits_shortest hlen
  key := key

section

variable {opcode : UInt8} {payload : Bytes} (hlen : payload.length < 2 ^ 63)

private theorem encode_built_none :
    (SentFrame.built opcode hlen none).encode = buildWsFrame opcode payload := by
  have hsecond : (SentFrame.built opcode hlen none).second
      = UInt8.ofNat ((PayloadLength.shortest payload.length).code payload.length) :=
    congrArg UInt8.ofNat (Nat.zero_add _)
  rw [SentFrame.encode, hsecond]
  simp only [SentFrame.built, SentFrame.keyOctets, SentFrame.sent, buildWsFrame, List.append_nil]
  rcases PayloadLength.shortest_cases payload.length with
    ⟨hle, hform⟩ | ⟨hlt, hle, hform⟩ | ⟨hlt, hlt', hform⟩
  · rw [hform, if_pos hle]
    rfl
  · rw [hform, if_neg (not_lt.mpr hlt), if_pos hle]
    rfl
  · rw [hform, if_neg (not_lt.mpr hlt), if_neg (not_le.mpr hlt')]
    rfl

private theorem encode_built_some (key : MaskingKey) :
    (SentFrame.built opcode hlen (some key)).encode = maskedWsFrame opcode key payload := by
  have hbit : ∀ n < 128, UInt8.ofNat (128 + n) = 0x80 ||| UInt8.ofNat n := by decide
  have hsecond : (SentFrame.built opcode hlen (some key)).second
      = 0x80 ||| UInt8.ofNat ((PayloadLength.shortest payload.length).code payload.length) :=
    hbit _ (PayloadLength.code_lt (PayloadLength.fits_shortest hlen))
  rw [SentFrame.encode, hsecond]
  simp only [SentFrame.built, SentFrame.keyOctets, SentFrame.sent, maskedWsFrame]
  rcases PayloadLength.shortest_cases payload.length with
    ⟨hle, hform⟩ | ⟨hlt, hle, hform⟩ | ⟨hlt, hlt', hform⟩
  · rw [hform, if_pos hle]
    rfl
  · rw [hform, if_neg (not_lt.mpr hlt), if_pos hle]
    rfl
  · rw [hform, if_neg (not_lt.mpr hlt), if_neg (not_le.mpr hlt')]
    rfl

end

/-- One pass of the frame loop takes a frame apart: the payload, and what follows it. -/
structure Decodes (inBuf : Bytes) (opcode : UInt8) (payload rest : Bytes) (h : FrameHead) :
    Prop where
  read : FrameHead.read inBuf = some h
  passesCheck : h.PassesCheck inBuf
  inside : h.Inside inBuf
  fin : h.fin = true
  opcode : h.opcode = opcode
  payload : h.payload inBuf = payload
  erase : inBuf.drop h.total = rest

/-- The octet with FIN and the opcode. -/
theorem opcode_octet {opcode : UInt8} (hopcode : opcode < 16) :
    (0x80 ||| (opcode &&& 0x0F)) &&& 0x80 ≠ 0 ∧ (0x80 ||| (opcode &&& 0x0F)) &&& 0x0F = opcode := by
  have hall : ∀ o : UInt8, o < 16 →
      (0x80 ||| (o &&& 0x0F)) &&& 0x80 ≠ 0 ∧ (0x80 ||| (o &&& 0x0F)) &&& 0x0F = o := by
    decide +kernel
  exact hall opcode hopcode

private theorem decodes_built {opcode : UInt8} (hopcode : opcode < 16) {payload : Bytes}
    (hlen : payload.length < 2 ^ 63) (key : Option MaskingKey) (rest : Bytes) :
    Decodes ((SentFrame.built opcode hlen key).encode ++ rest) opcode payload rest
      (SentFrame.built opcode hlen key).head := by
  obtain ⟨hfin, hlow⟩ := opcode_octet hopcode
  have hread := (SentFrame.built opcode hlen key).read_encode rest
  have hle : (SentFrame.built opcode hlen key).head.total
      ≤ ((SentFrame.built opcode hlen key).encode ++ rest).length := by
    rw [List.length_append, SentFrame.length_encode]
    exact Nat.le_add_right _ _
  constructor
  case read => exact hread
  case passesCheck =>
    rw [FrameHead.PassesCheck, FrameHead.sizeT_total hread hlen]
    exact not_lt.mpr hle
  case inside => exact FrameHead.inside_iff.mpr hle
  case fin => exact decide_eq_true hfin
  case opcode => exact hlow
  case payload => exact SentFrame.payload_encode _ rest
  case erase => rw [← SentFrame.length_encode, List.drop_left]

/-- **What is built is read.** One pass on a frame of `build_ws_frame`, masked or not, finds FIN,
the opcode and the payload, and leaves what follows the frame. -/
theorem decodes_buildWsFrame {opcode : UInt8} (hopcode : opcode < 16) {payload : Bytes}
    (hlen : payload.length < 2 ^ 63) (rest : Bytes) :
    (∃ h, Decodes (buildWsFrame opcode payload ++ rest) opcode payload rest h) ∧
      ∀ key : MaskingKey,
        ∃ h, Decodes (maskedWsFrame opcode key payload ++ rest) opcode payload rest h := by
  constructor
  · refine ⟨(SentFrame.built opcode hlen none).head, ?_⟩
    rw [← encode_built_none hlen]
    exact decodes_built hopcode hlen none rest
  · intro key
    refine ⟨(SentFrame.built opcode hlen (some key)).head, ?_⟩
    rw [← encode_built_some hlen key]
    exact decodes_built hopcode hlen (some key) rest

theorem decodes_buildWsFrame_hey :
    (∃ h, Decodes (buildWsFrame 0x1 [72, 101, 121] ++ [0x89]) 0x1 [72, 101, 121] [0x89] h) ∧
      ∃ h, Decodes (maskedWsFrame 0x1 ⟨1, 2, 3, 4⟩ [72, 101, 121] ++ [0x89]) 0x1 [72, 101, 121]
        [0x89] h := by
  obtain ⟨hplain, hmasked⟩ :=
    @decodes_buildWsFrame 0x1 (by decide) [72, 101, 121] (by decide) [0x89]
  exact ⟨hplain, hmasked ⟨1, 2, 3, 4⟩⟩

/-- The pass is the step the loop takes. -/
theorem Decodes.frameLoop_succ {c : Client} {opcode : UInt8} {payload rest : Bytes} {h : FrameHead}
    (hdec : Decodes c.inBuf opcode payload rest h) (fuel : ℕ) :
    frameLoop (fuel + 1) c =
      let handled := handleFrame h payload c
      let exit := frameLoop fuel { handled.1 with inBuf := rest }
      { exit with calls := handled.2 ++ exit.calls } := by
  rw [frameLoop, hdec.read]
  simp only
  rw [if_neg hdec.passesCheck, if_neg (not_lt.mpr hdec.inside.total_le), hdec.payload, hdec.erase]

end Wasapi.Websockets
