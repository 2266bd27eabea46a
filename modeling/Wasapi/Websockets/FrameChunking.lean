import Wasapi.Library.Framing
import Wasapi.Websockets.Server

/-!
# Frames may be cut anywhere

After the handshake a read appends what arrived to `in_buf` and runs the frame loop, and the server
reads no more from a client it has found closed. A head that is not there yet is never consumed, and
one that is there is read the same whatever follows, so that the frames are delivered by a `Framer`
and the loop does the same whatever the cuts.
-/

namespace Wasapi.Websockets

/-! ## Heads and payloads

A head says how long the frame is. As long as the length is below `2 ^ 63` the sum with the length
of the head is a number, and the completeness check compares what it should. -/

namespace FrameHead

variable {b : Bytes} {h : FrameHead}

private theorem read_append (hread : read b = some h) (e : Bytes) : read (b ++ e) = some h := by
  match b with
  | [] => cases hread
  | [_] => cases hread
  | b0 :: b1 :: rest =>
    rw [List.cons_append, List.cons_append]
    simp only [read, List.length_cons, List.length_append] at hread ⊢
    split at hread
    · next h126 =>
      rw [if_pos h126]
      split at hread
      · cases hread
      · rw [if_neg (by omega), List.take_append_of_le_length (by omega)]
        exact hread
    next h126 =>
    rw [if_neg h126]
    split at hread
    · next h127 =>
      rw [if_pos h127]
      split at hread
      · cases hread
      · rw [if_neg (by omega), List.take_append_of_le_length (by omega)]
        exact hread
    · next h127 =>
      rw [if_neg h127]
      exact hread

theorem headerLen_of_read (hread : read b = some h) : 2 ≤ h.headerLen ∧ h.headerLen ≤ 10 := by
  match b with
  | [] => cases hread
  | [_] => cases hread
  | b0 :: b1 :: rest =>
    simp only [read] at hread
    split at hread
    · split at hread
      · cases hread
      · obtain rfl := Option.some.inj hread
        exact ⟨(by decide : 2 ≤ 4), (by decide : 4 ≤ 10)⟩
    · split at hread
      · split at hread
        · cases hread
        · obtain rfl := Option.some.inj hread
          exact ⟨(by decide : 2 ≤ 10), (by decide : 10 ≤ 10)⟩
      · obtain rfl := Option.some.inj hread
        exact ⟨(by decide : 2 ≤ 2), (by decide : 2 ≤ 10)⟩

theorem maskLen_le (h : FrameHead) : h.maskLen ≤ 4 := by
  rw [maskLen]
  split <;> decide

/-- The sum the completeness check compares with does not wrap. -/
theorem sizeT_total (hread : read b = some h) (hlen : h.payloadLen < 2 ^ 63) :
    sizeT h.total = h.total := by
  have hheader := (headerLen_of_read hread).2
  have hmask := h.maskLen_le
  refine sizeT_of_lt ?_
  rw [total]
  omega

private theorem payload_append (hlen : h.total ≤ b.length) (e : Bytes) :
    h.payload (b ++ e) = h.payload b := by
  rw [total] at hlen
  have hdata : ((b ++ e).drop (h.headerLen + h.maskLen)).take h.payloadLen
      = (b.drop (h.headerLen + h.maskLen)).take h.payloadLen := by
    rw [List.drop_append_of_le_length (by omega),
      List.take_append_of_le_length (by rw [List.length_drop]; omega)]
  rw [payload, payload, hdata]
  cases hmasked : h.masked with
  | false => rfl
  | true =>
    have hmask : h.maskLen = 4 := by rw [maskLen, hmasked]; rfl
    rw [List.drop_append_of_le_length (by omega),
      List.take_append_of_le_length (by rw [List.length_drop]; omega)]

end FrameHead

/-! ## The framer

A frame is taken off when all of it is there. What follows it does not change it, so the frame loop
frames in the sense of `Framer`. -/

/-- A frame that has arrived. -/
structure Frame where
  head : FrameHead
  payload : Bytes

def nextFrame (b : Bytes) : Option (Frame × Bytes) :=
  match FrameHead.read b with
  | none => none
  | some h => if b.length < h.total then none else some (⟨h, h.payload b⟩, b.drop h.total)

theorem nextFrame_eq_some_iff {b : Bytes} {f : Frame} {r : Bytes} :
    nextFrame b = some (f, r) ↔
      ∃ h, FrameHead.read b = some h ∧ h.total ≤ b.length ∧ f = ⟨h, h.payload b⟩ ∧
        r = b.drop h.total := by
  rw [nextFrame]
  cases hread : FrameHead.read b with
  | none => exact ⟨fun hf ↦ (nomatch hf), fun ⟨_, hf, _⟩ ↦ (nomatch hf)⟩
  | some h =>
    simp only
    split
    · next hlt =>
      refine ⟨fun hf ↦ (nomatch hf), ?_⟩
      rintro ⟨_, heq, hle, -⟩
      obtain rfl := Option.some.inj heq
      omega
    · next hle =>
      constructor
      · intro heq
        obtain ⟨rfl, rfl⟩ := Prod.mk.inj (Option.some.inj heq)
        exact ⟨h, rfl, not_lt.mp hle, rfl, rfl⟩
      · rintro ⟨_, heq, -, rfl, rfl⟩
        obtain rfl := Option.some.inj heq
        rfl

/-- The framing of the frame loop. -/
def frameFramer : Framer UInt8 Frame where
  next := nextFrame
  length_lt := by
    intro b f r h
    obtain ⟨hd, hread, hle, -, rfl⟩ := nextFrame_eq_some_iff.mp h
    have hheader := (FrameHead.headerLen_of_read hread).1
    rw [FrameHead.total] at hle
    rw [List.length_drop, FrameHead.total]
    omega
  next_append := by
    intro b f r e h
    obtain ⟨hd, hread, hle, rfl, rfl⟩ := nextFrame_eq_some_iff.mp h
    refine nextFrame_eq_some_iff.mpr ⟨hd, FrameHead.read_append hread e, ?_, ?_, ?_⟩
    · rw [List.length_append]
      omega
    · rw [FrameHead.payload_append hle]
    · rw [List.drop_append_of_le_length hle]

/-! ## Streams

Two things are asked of a stream: that no declared length makes the sum wrap, and that no frame
closes the client, since a closed client is not read from any more and then it matters where a read
ends. -/

/-- Every length declared in the stream is below 2 ^ 63, also that of a frame cut off at its end. -/
def LengthsBelow (b : Bytes) : Prop :=
  (∀ f ∈ frameFramer.frames b, f.head.payloadLen < 2 ^ 63) ∧
    ∀ h ∈ FrameHead.read (frameFramer.rest b), h.payloadLen < 2 ^ 63

/-- No Close frame, and no continuation frame outside a fragmented message. -/
def Continues : Bool → List Frame → Prop
  | _, [] => True
  | assembling, f :: fs =>
    f.head.opcode ≠ 0x8 ∧ (f.head.opcode = 0x0 → assembling = true) ∧
      Continues
        (if f.head.opcode = 0x0 ∨ f.head.opcode = 0x1 ∨ f.head.opcode = 0x2 then !f.head.fin
          else assembling) fs

private theorem lengthsBelow_of_some {b r : Bytes} {f : Frame}
    (h : frameFramer.next b = some (f, r)) :
    LengthsBelow b ↔ f.head.payloadLen < 2 ^ 63 ∧ LengthsBelow r := by
  rw [LengthsBelow, LengthsBelow, Framer.frames_of_some h, Framer.rest_of_some h,
    List.forall_mem_cons, and_assoc]

/-- A shorter stream declares no other lengths. -/
theorem LengthsBelow.of_append {b e : Bytes} (h : LengthsBelow (b ++ e)) :
    LengthsBelow b ∧ LengthsBelow (frameFramer.rest b ++ e) := by
  induction b using frameFramer.buffer_induction with
  | stop b hnone =>
    rw [Framer.rest_of_none hnone]
    refine ⟨⟨?_, ?_⟩, h⟩
    · rw [Framer.frames_of_none hnone]
      exact fun f hf ↦ (nomatch hf)
    · rw [Framer.rest_of_none hnone]
      intro hd hread
      have hread' := FrameHead.read_append hread e
      cases hnext : frameFramer.next (b ++ e) with
      | none => exact h.2 hd (by rw [Framer.rest_of_none hnext]; exact hread')
      | some p =>
        obtain ⟨hd', hread'', -, hf, -⟩ := nextFrame_eq_some_iff.mp hnext
        obtain rfl := Option.some.inj (hread'.symm.trans hread'')
        have hlen := ((lengthsBelow_of_some hnext).mp h).1
        rwa [hf] at hlen
  | item b f r hsome ih =>
    have happ := frameFramer.next_append e hsome
    obtain ⟨hlen, htail⟩ := (lengthsBelow_of_some happ).mp h
    obtain ⟨hr, hrest⟩ := ih htail
    rw [Framer.rest_of_some hsome]
    exact ⟨(lengthsBelow_of_some hsome).mpr ⟨hlen, hr⟩, hrest⟩

instance (b : Bytes) : Decidable (LengthsBelow b) :=
  inferInstanceAs (Decidable (_ ∧ ∀ h ∈ FrameHead.read (frameFramer.rest b), h.payloadLen < 2 ^ 63))

instance decidableContinues : ∀ (assembling : Bool) (fs : List Frame),
    Decidable (Continues assembling fs)
  | _, [] => .isTrue trivial
  | _, _ :: fs => @instDecidableAnd _ _ _ (@instDecidableAnd _ _ _ (decidableContinues _ fs))

/-! ## The loop

The loop handles the frames the framer delivers, in order, until no whole frame is left. A wrapped
sum is the one way out of this. -/

/-- What the loop does with some frames. -/
def handleFrames : Client → List Frame → Client × List MessageCall
  | c, [] => (c, [])
  | c, f :: fs =>
    let p := handleFrame f.head f.payload c
    ((handleFrames p.1 fs).1, p.2 ++ (handleFrames p.1 fs).2)

theorem handleFrames_append (c : Client) (fs gs : List Frame) :
    handleFrames c (fs ++ gs) =
      ((handleFrames (handleFrames c fs).1 gs).1,
        (handleFrames c fs).2 ++ (handleFrames (handleFrames c fs).1 gs).2) := by
  induction fs generalizing c with
  | nil => rfl
  | cons f fs ih => rw [List.cons_append, handleFrames, ih, handleFrames, List.append_assoc]

/-- A frame is handled without a look at the buffer, and at whether the client is closed. -/
theorem handleFrame_with (h : FrameHead) (payload : Bytes) (c : Client) (inBuf : Bytes)
    (closed : Bool) :
    handleFrame h payload { c with inBuf := inBuf, closed := c.closed || closed }
      = ({ (handleFrame h payload c).1 with
            inBuf := inBuf
            closed := (handleFrame h payload c).1.closed || closed },
          (handleFrame h payload c).2) := by
  simp only [handleFrame]
  by_cases hclose : h.opcode = 0x8
  · simp only [if_pos hclose, Bool.true_or]
  simp only [if_neg hclose]
  by_cases hping : h.opcode = 0x9
  · simp only [if_pos hping]
  simp only [if_neg hping]
  by_cases hpong : h.opcode = 0xA
  · simp only [if_pos hpong]
  simp only [if_neg hpong]
  by_cases hdata : h.opcode = 0x1 ∨ h.opcode = 0x2
  · -- a message that is being assembled is given up first
    simp only [if_pos hdata]
    by_cases hassembling : c.assembling = true
    · simp only [if_pos hassembling]
      split_ifs
      · rfl
      · rfl
    · simp only [if_neg hassembling]
      split_ifs
      · rfl
      · rfl
  simp only [if_neg hdata]
  by_cases hcontinuation : h.opcode = 0x0
  · simp only [if_pos hcontinuation]
    split_ifs
    · rw [Bool.true_or]
    · rfl
    · rfl
  · simp only [if_neg hcontinuation]

theorem handleFrames_with (c : Client) (inBuf : Bytes) (closed : Bool) (fs : List Frame) :
    handleFrames { c with inBuf := inBuf, closed := c.closed || closed } fs
      = ({ (handleFrames c fs).1 with
            inBuf := inBuf
            closed := (handleFrames c fs).1.closed || closed },
          (handleFrames c fs).2) := by
  induction fs generalizing c with
  | nil => rfl
  | cons f fs ih => rw [handleFrames, handleFrame_with, ih, handleFrames]

theorem handleFrames_withInBuf (c : Client) (inBuf : Bytes) (fs : List Frame) :
    handleFrames { c with inBuf := inBuf } fs
      = ({ (handleFrames c fs).1 with inBuf := inBuf }, (handleFrames c fs).2) := by
  have hwith := handleFrames_with c inBuf false fs
  simp only [Bool.or_false] at hwith
  exact hwith

/-- The completeness check passes for the frame at the front although the frame is not there. -/
def throws (b : Bytes) : Bool :=
  match FrameHead.read b with
  | none => false
  | some h => decide (sizeT h.total ≤ b.length) && decide (b.length < h.total)

/-- **The loop handles the whole frames of the buffer** and leaves what follows them. -/
theorem frameLoop_eq_of_length_le {c : Client} {fuel : ℕ} (hfuel : c.inBuf.length ≤ fuel) :
    frameLoop fuel c =
      ⟨{ (handleFrames c (frameFramer.frames c.inBuf)).1 with
          inBuf := frameFramer.rest c.inBuf },
        (handleFrames c (frameFramer.frames c.inBuf)).2, throws (frameFramer.rest c.inBuf)⟩ := by
  generalize hb : c.inBuf = b at hfuel ⊢
  induction b using frameFramer.buffer_induction generalizing c fuel with
  | stop b hnone =>
    have hstop : frameLoop fuel c = ⟨c, [], throws b⟩ := by
      cases fuel with
      | zero =>
        obtain rfl := List.eq_nil_of_length_eq_zero (Nat.le_zero.mp hfuel)
        rfl
      | succ fuel =>
        rw [frameLoop, throws, hb]
        cases hread : FrameHead.read b with
        | none => rfl
        | some hd =>
          have hlt : b.length < hd.total := by
            by_contra hle
            have hsome := nextFrame_eq_some_iff.mpr ⟨hd, hread, not_lt.mp hle, rfl, rfl⟩
            exact absurd (hnone.symm.trans hsome) (by simp)
          by_cases hwait : b.length < sizeT hd.total
          · simp only [hwait, if_true, not_le.mpr hwait, decide_false, Bool.false_and]
          · simp only [hwait, if_false, hlt, if_true, not_lt.mp hwait, decide_true, Bool.and_self]
    rw [hstop, Framer.frames_of_none hnone, Framer.rest_of_none hnone, handleFrames, ← hb]
  | item b f r hsome ih =>
    obtain ⟨hd, hread, hle, rfl, rfl⟩ := nextFrame_eq_some_iff.mp hsome
    have hlt := frameFramer.length_lt hsome
    have hwait : ¬b.length < sizeT hd.total := not_lt.mpr ((Nat.mod_le _ _).trans hle)
    obtain ⟨fuel, rfl⟩ : ∃ n, fuel = n + 1 := ⟨fuel - 1, by omega⟩
    rw [frameLoop, hb, hread]
    simp only [hwait, if_false, not_lt.mpr hle]
    rw [ih rfl (by omega), Framer.frames_of_some hsome, Framer.rest_of_some hsome, handleFrames,
      handleFrames_withInBuf]

private theorem throws_rest_eq_false {b : Bytes} (h : LengthsBelow b) :
    throws (frameFramer.rest b) = false := by
  rw [throws]
  cases hread : FrameHead.read (frameFramer.rest b) with
  | none => rfl
  | some hd =>
    simp only [FrameHead.sizeT_total hread (h.2 hd hread), ← not_le]
    by_cases hle : hd.total ≤ (frameFramer.rest b).length <;> simp [hle]

/-- With lengths below 2 ^ 63 the completeness check is right. -/
theorem frameLoop_eq {c : Client} (h : LengthsBelow c.inBuf) {fuel : ℕ}
    (hfuel : c.inBuf.length ≤ fuel) :
    frameLoop fuel c =
      ⟨{ (handleFrames c (frameFramer.frames c.inBuf)).1 with
          inBuf := frameFramer.rest c.inBuf },
        (handleFrames c (frameFramer.frames c.inBuf)).2, false⟩ := by
  rw [frameLoop_eq_of_length_le hfuel, throws_rest_eq_false h]

/-! ## Reads

A read appends and runs the loop. Between reads the buffer holds no whole frame, and from such a
buffer the cuts do not matter. -/

/-- One read after the handshake. The server has erased a client that it found closed, and it is
gone when an exception has left the loop. -/
def readFrames (x : FrameExit) (chunk : Bytes) : FrameExit :=
  if x.client.closed || x.thrown then x
  else
    let c := receive chunk .again x.client
    let exit := frameLoop c.inBuf.length c
    { exit with calls := x.calls ++ exit.calls }

/-- `serve` schedules the calls of each read behind the loop. -/
theorem handleInput_eq_readFrames (cfg : GlobalConfig) (app : Application) (chunk : Bytes)
    {c : Client}
    (hdone : c.handshakeDone = true) (hopen : c.closed = false) (s : Server) :
    let exit := readFrames ⟨c, [], false⟩ chunk
    handleInput cfg app chunk .again c s =
      (exit.client,
        { exit.calls.foldl (scheduleMessage cfg (receive chunk .again c)) s with
          terminated := s.terminated || exit.thrown }) := by
  have hdone' : (receive chunk .again c).handshakeDone = true := hdone
  simp only [handleInput, readFrames, hdone', hopen, if_true, Bool.or_self, Bool.false_eq_true,
    if_false, List.nil_append]

private theorem receive_again (c : Client) (chunk : Bytes) :
    receive chunk .again c = { c with inBuf := c.inBuf ++ chunk } := by
  rw [receive]
  simp only [ne_eq, not_true_eq_false, decide_false, Bool.or_false]

private theorem readFrames_of_open {c : Client} (hopen : c.closed = false)
    (calls : List MessageCall) (chunk : Bytes) :
    readFrames ⟨c, calls, false⟩ chunk =
      { frameLoop (c.inBuf ++ chunk).length { c with inBuf := c.inBuf ++ chunk } with
        calls := calls ++
          (frameLoop (c.inBuf ++ chunk).length { c with inBuf := c.inBuf ++ chunk }).calls } := by
  rw [readFrames, if_neg (by simp [hopen]), receive_again]

/-- Frames that continue the stream close nothing. -/
theorem handleFrame_spec {h : FrameHead} {c : Client} (hclose : h.opcode ≠ 0x8)
    (hstray : h.opcode = 0x0 → c.assembling = true) (payload : Bytes) :
    (handleFrame h payload c).1.closed = c.closed ∧
      (handleFrame h payload c).1.assembling =
        if h.opcode = 0x0 ∨ h.opcode = 0x1 ∨ h.opcode = 0x2 then !h.fin else c.assembling := by
  rw [handleFrame, if_neg hclose]
  by_cases h9 : h.opcode = 0x9
  · simp [h9]
  by_cases hA : h.opcode = 0xA
  · simp [hA]
  rw [if_neg h9, if_neg hA]
  by_cases h12 : h.opcode = 0x1 ∨ h.opcode = 0x2
  · have hkind : h.opcode = 0x0 ∨ h.opcode = 0x1 ∨ h.opcode = 0x2 := .inr h12
    rw [if_pos h12, if_pos hkind]
    cases hfin : h.fin <;> cases hassembling : c.assembling <;> simp [hassembling]
  rw [if_neg h12]
  by_cases h0 : h.opcode = 0x0
  · have hkind : h.opcode = 0x0 ∨ h.opcode = 0x1 ∨ h.opcode = 0x2 := .inl h0
    rw [if_pos h0, if_pos hkind, hstray h0]
    cases hfin : h.fin <;> simp
  · rw [if_neg h0, if_neg (not_or.mpr ⟨h0, h12⟩)]
    exact ⟨rfl, rfl⟩

theorem Continues.handleFrames {c : Client} {fs gs : List Frame}
    (h : Continues c.assembling (fs ++ gs)) (hopen : c.closed = false) :
    (Websockets.handleFrames c fs).1.closed = false ∧
      Continues (Websockets.handleFrames c fs).1.assembling gs := by
  induction fs generalizing c with
  | nil => exact ⟨hopen, h⟩
  | cons f fs ih =>
    obtain ⟨hclose, hstray, htail⟩ := h
    obtain ⟨hclosed, hassembling⟩ := handleFrame_spec hclose hstray f.payload
    rw [Websockets.handleFrames]
    exact ih (by rw [hassembling]; exact htail) (hclosed.trans hopen)

/-- Reading in chunks handles the delivered frames. A client between reads is open and its buffer
holds no whole frame. -/
theorem foldl_readFrames (chunks : List Bytes) {c : Client} (calls : List MessageCall)
    (hbuf : frameFramer.next c.inBuf = none) (hopen : c.closed = false)
    (hlen : LengthsBelow (c.inBuf ++ chunks.flatten))
    (hcont : Continues c.assembling (frameFramer.frames (c.inBuf ++ chunks.flatten))) :
    let p := handleFrames c (frameFramer.frames (c.inBuf ++ chunks.flatten))
    chunks.foldl readFrames ⟨c, calls, false⟩ =
      ⟨{ p.1 with inBuf := frameFramer.rest (c.inBuf ++ chunks.flatten) }, calls ++ p.2,
        false⟩ := by
  induction chunks generalizing c calls with
  | nil =>
    simp only [List.flatten_nil, List.append_nil, Framer.frames_of_none hbuf,
      Framer.rest_of_none hbuf, List.foldl_nil, handleFrames]
  | cons chunk chunks ih =>
    rw [List.flatten_cons, ← List.append_assoc] at hlen hcont ⊢
    obtain ⟨hlen₁, hlen₂⟩ := hlen.of_append
    rw [frameFramer.frames_append] at hcont
    obtain ⟨hopen₁, hcont₂⟩ := hcont.handleFrames hopen
    set p₁ := handleFrames c (frameFramer.frames (c.inBuf ++ chunk)) with hp₁
    have hread : readFrames ⟨c, calls, false⟩ chunk =
        ⟨{ p₁.1 with inBuf := frameFramer.rest (c.inBuf ++ chunk) }, calls ++ p₁.2, false⟩ := by
      have hexit : frameLoop (c.inBuf ++ chunk).length { c with inBuf := c.inBuf ++ chunk } = _ :=
        frameLoop_eq hlen₁ le_rfl
      rw [handleFrames_withInBuf, ← hp₁] at hexit
      rw [readFrames_of_open hopen, hexit]
    have hrest : chunks.foldl readFrames
          ⟨{ p₁.1 with inBuf := frameFramer.rest (c.inBuf ++ chunk) }, calls ++ p₁.2, false⟩ =
        ⟨{ (handleFrames p₁.1 (frameFramer.frames (frameFramer.rest (c.inBuf ++ chunk) ++
              chunks.flatten))).1 with
            inBuf := frameFramer.rest (frameFramer.rest (c.inBuf ++ chunk) ++ chunks.flatten) },
          calls ++ p₁.2 ++ (handleFrames p₁.1 (frameFramer.frames
            (frameFramer.rest (c.inBuf ++ chunk) ++ chunks.flatten))).2, false⟩ := by
      have h := ih (c := { p₁.1 with inBuf := frameFramer.rest (c.inBuf ++ chunk) })
        (calls ++ p₁.2) (frameFramer.next_rest _) hopen₁ hlen₂ hcont₂
      rw [handleFrames_withInBuf] at h
      exact h
    rw [List.foldl_cons, hread, hrest, frameFramer.frames_append (c.inBuf ++ chunk),
      frameFramer.rest_append (c.inBuf ++ chunk), handleFrames_append, ← hp₁]
    simp only [List.append_assoc]

/-- **Chunking invariance.** However a stream without Close frames and stray continuations is cut
into reads, the calls of `schedule_message`, the pongs, the state of the assembly and the bytes left
over are the same. -/
theorem foldl_readFrames_eq_of_flatten_eq {c : Client} (hbuf : nextFrame c.inBuf = none)
    (hopen : c.closed = false) {chunks chunks' : List Bytes}
    (hlen : LengthsBelow (c.inBuf ++ chunks.flatten))
    (hcont : Continues c.assembling (frameFramer.frames (c.inBuf ++ chunks.flatten)))
    (h : chunks.flatten = chunks'.flatten) :
    chunks.foldl readFrames ⟨c, [], false⟩ = chunks'.foldl readFrames ⟨c, [], false⟩ := by
  rw [foldl_readFrames chunks [] hbuf hopen hlen hcont]
  rw [h] at hlen hcont ⊢
  rw [foldl_readFrames chunks' [] hbuf hopen hlen hcont]

/-- A fragmented text with a masked ping between its parts, cut inside heads, mask and payload. -/
theorem foldl_readFrames_eq_ping :
    [[0x01, 2, 72], [101, 0x89], [0x81, 1, 2], [3, 4, 5, 0x80, 1, 121, 0x82]].foldl readFrames
        ⟨{ cid := 0, handshakeDone := true }, [], false⟩
      = [[0x01, 2, 72, 101, 0x89, 0x81, 1, 2, 3, 4, 5, 0x80, 1, 121, 0x82]].foldl readFrames
        ⟨{ cid := 0, handshakeDone := true }, [], false⟩ :=
  foldl_readFrames_eq_of_flatten_eq rfl rfl (by decide +kernel) (by decide +kernel) rfl

end Wasapi.Websockets
