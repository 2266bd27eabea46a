import Wasapi.Websockets.SentFrames

/-!
# Fragmented messages

A message in two or more fragments, with pings and pongs anywhere between them. The loop keeps what
it has of the message in `assemble_data`, and one cascade on the opcode serves fragments and control
frames alike: a frame between the first fragment and the last adds its payload to the data, or its
pong to `out_buf`, or nothing.
-/

namespace Wasapi.Websockets

/-- A continuation without FIN, a ping, or a pong. -/
def SentFrame.IsBetween (f : SentFrame) : Prop :=
  f.opcode = 0x0 ∧ f.fin = false ∨ f.opcode = 0x9 ∨ f.opcode = 0xA

structure FragmentedMessage where
  first : SentFrame
  between : List SentFrame
  last : SentFrame
  opcode_first : first.opcode = 0x1 ∨ first.opcode = 0x2
  fin_first : first.fin = false
  isBetween : ∀ f ∈ between, f.IsBetween
  opcode_last : last.opcode = 0x0
  fin_last : last.fin = true

namespace FragmentedMessage

variable (m : FragmentedMessage)

def frames : List SentFrame := m.first :: (m.between ++ [m.last])

def encode : Bytes := m.frames.flatMap SentFrame.encode

def fragments : List SentFrame :=
  m.first :: (m.between.filter (fun f ↦ f.opcode = 0x0) ++ [m.last])

/-- The message. -/
def data : Bytes := m.fragments.flatMap SentFrame.payload

def pings : List SentFrame := m.between.filter fun f ↦ f.opcode = 0x9

/-- One pong for each ping. -/
def pongs : Bytes := m.pings.flatMap fun f ↦ buildWsFrame 0xA f.payload

/-- The call of `schedule_message`. -/
def call : MessageCall := ⟨m.first.opcode, m.data⟩

/-- What has become of a client when the message has been received. -/
def received (c : Client) : Client :=
  { c with
    inBuf := []
    outBuf := c.outBuf ++ m.pongs
    assembling := false
    assembleOpcode := m.first.opcode
    assembleData := [] }

end FragmentedMessage

/-! ## The frames one after the other

A control frame between two fragments adds to the output and leaves the message alone; a
continuation does the opposite. So the frames in between commute with each other as far as either is
concerned. -/

/-- More data of a message, and more to send. -/
def Client.grow (c : Client) (data out : Bytes) : Client :=
  { c with assembleData := c.assembleData ++ data, outBuf := c.outBuf ++ out }

private theorem Client.grow_grow (c : Client) (data out data' out' : Bytes) :
    (c.grow data out).grow data' out' = c.grow (data ++ data') (out ++ out') := by
  rw [grow, grow, grow, List.append_assoc, List.append_assoc]

/-- The first element contributes if it passes the filter. -/
theorem flatMap_filter_cons {α β : Type*} (p : α → Prop) [DecidablePred p] (g : α → List β)
    (a : α) (l : List α) :
    ((a :: l).filter fun b ↦ p b).flatMap g =
      (if p a then g a else []) ++ (l.filter fun b ↦ p b).flatMap g := by
  by_cases h : p a
  · rw [List.filter_cons_of_pos (by simpa using h), List.flatMap_cons, if_pos h]
  · rw [List.filter_cons_of_neg (by simpa using h), if_neg h, List.nil_append]

section

variable {f : SentFrame} {c : Client}

private theorem handleFrame_first (hopcode : f.opcode = 0x1 ∨ f.opcode = 0x2) (hfin : f.fin = false)
    (hassembling : c.assembling = false) :
    handleFrame f.head f.payload c =
      ({ c with assembling := true, assembleOpcode := f.opcode, assembleData := f.payload },
        []) := by
  have hhead : f.head.opcode = f.opcode := rfl
  have hhead' : f.head.fin = false := hfin
  rw [handleFrame, hhead, hhead', hassembling]
  rcases hopcode with h | h <;> rw [h] <;> rfl

/-- A frame between the fragments adds to the data or to the output. -/
theorem handleFrame_between (h : f.IsBetween) (hassembling : c.assembling = true) :
    handleFrame f.head f.payload c =
      (c.grow (if f.opcode = 0x0 then f.payload else [])
        (if f.opcode = 0x9 then buildWsFrame 0xA f.payload else []), []) := by
  have hhead : f.head.opcode = f.opcode := rfl
  rw [Client.grow]
  rcases h with ⟨h0, hfin⟩ | h9 | hA
  · have hhead' : f.head.fin = false := hfin
    rw [if_pos h0, if_neg (by rw [h0]; decide : f.opcode ≠ 0x9), List.append_nil, handleFrame,
      hhead, h0, hhead', hassembling]
    rfl
  · rw [if_pos h9, if_neg (by rw [h9]; decide : f.opcode ≠ 0x0), List.append_nil, handleFrame,
      hhead, h9]
    rfl
  · rw [if_neg (by rw [hA]; decide : f.opcode ≠ 0x0), List.append_nil,
      if_neg (by rw [hA]; decide : f.opcode ≠ 0x9), List.append_nil, handleFrame, hhead, hA]
    rfl

private theorem handleFrame_last (hopcode : f.opcode = 0x0) (hfin : f.fin = true)
    (hassembling : c.assembling = true) :
    handleFrame f.head f.payload c =
      ({ c with assembleData := [], assembling := false },
        [⟨c.assembleOpcode, c.assembleData ++ f.payload⟩]) := by
  have hhead : f.head.opcode = f.opcode := rfl
  have hhead' : f.head.fin = true := hfin
  rw [handleFrame, hhead, hopcode, hhead', hassembling]
  rfl

/-- The frames between the fragments, by induction with the client that has received some of them as
the accumulator. -/
theorem handleFrames_between {fs : List SentFrame} (h : ∀ f ∈ fs, f.IsBetween)
    (hassembling : c.assembling = true) :
    handleFrames c (fs.map SentFrame.frame) =
      (c.grow ((fs.filter fun f ↦ f.opcode = 0x0).flatMap SentFrame.payload)
        ((fs.filter fun f ↦ f.opcode = 0x9).flatMap fun f ↦ buildWsFrame 0xA f.payload), []) := by
  induction fs generalizing c with
  | nil =>
    simp only [List.map_nil, handleFrames, List.filter_nil, List.flatMap_nil, List.append_nil,
      Client.grow]
  | cons f fs ih =>
    obtain ⟨hf, hfs⟩ := List.forall_mem_cons.mp h
    have hstep : handleFrame f.frame.head f.frame.payload c = _ :=
      handleFrame_between hf hassembling
    have hgrown (data out : Bytes) : (c.grow data out).assembling = true := hassembling
    rw [List.map_cons, handleFrames, hstep, ih hfs (hgrown _ _), Client.grow_grow,
      flatMap_filter_cons, flatMap_filter_cons, List.nil_append]

end

namespace FragmentedMessage

variable (m : FragmentedMessage)

private theorem data_eq : m.data = m.first.payload ++
    (m.between.filter fun f ↦ f.opcode = 0x0).flatMap SentFrame.payload ++ m.last.payload := by
  rw [data, fragments, List.flatMap_cons, List.flatMap_append, List.flatMap_cons, List.flatMap_nil,
    List.append_nil, List.append_assoc]

private theorem handleFrames_frames {c : Client} (hassembling : c.assembling = false) :
    handleFrames c (m.frames.map SentFrame.frame) =
      ({ c with
          outBuf := c.outBuf ++ m.pongs
          assembling := false
          assembleOpcode := m.first.opcode
          assembleData := [] },
        [m.call]) := by
  have hfirst : handleFrame m.first.frame.head m.first.frame.payload c = _ :=
    handleFrame_first m.opcode_first m.fin_first hassembling
  rw [frames, List.map_cons, handleFrames, hfirst, List.map_append, handleFrames_append,
    handleFrames_between m.isBetween rfl, List.map_cons, List.map_nil, handleFrames, handleFrames]
  have hlast {c' : Client} (h : c'.assembling = true) :
      handleFrame m.last.frame.head m.last.frame.payload c' = _ :=
    handleFrame_last m.opcode_last m.fin_last h
  rw [hlast rfl, call, data_eq]
  rfl

/-- The message continues a stream: it has no Close frame, and each continuation continues it. -/
theorem continues_frames : Continues false (m.frames.map SentFrame.frame) := by
  have hbetween {fs gs : List SentFrame} (h : ∀ f ∈ fs, f.IsBetween)
      (hgs : Continues true (gs.map SentFrame.frame)) :
      Continues true ((fs ++ gs).map SentFrame.frame) := by
    induction fs with
    | nil => exact hgs
    | cons f fs ih =>
      obtain ⟨hf, hfs⟩ := List.forall_mem_cons.mp h
      have hopcode : f.frame.head.opcode = f.opcode := rfl
      have hfin : f.frame.head.fin = f.fin := rfl
      rw [List.cons_append, List.map_cons, Continues, hopcode, hfin]
      rcases hf with ⟨h0, hfin⟩ | h9 | hA
      · rw [h0, hfin]
        exact ⟨by decide, fun _ ↦ rfl, ih hfs⟩
      · rw [h9]
        exact ⟨by decide, fun _ ↦ rfl, ih hfs⟩
      · rw [hA]
        exact ⟨by decide, fun _ ↦ rfl, ih hfs⟩
  have hlast : Continues true ([m.last].map SentFrame.frame) := by
    have hopcode : m.last.frame.head.opcode = 0x0 := m.opcode_last
    rw [List.map_cons, List.map_nil, Continues, hopcode]
    exact ⟨by decide, fun _ ↦ rfl, trivial⟩
  have hopcode : m.first.frame.head.opcode = m.first.opcode := rfl
  have hfin : m.first.frame.head.fin = false := m.fin_first
  rw [frames, List.map_cons, Continues, hopcode, hfin]
  rcases m.opcode_first with h1 | h2
  · rw [h1]
    exact ⟨by decide, fun h ↦ absurd h (by decide), hbetween m.isBetween hlast⟩
  · rw [h2]
    exact ⟨by decide, fun h ↦ absurd h (by decide), hbetween m.isBetween hlast⟩

/-- **A fragmented message is put together.** Whether the loop finds all of it in the buffer or it
arrives in reads of any sizes, there is one call of `schedule_message`, with the opcode of the first
fragment and the data of all, and one pong for each ping, and nothing of the message is left. -/
theorem reassembled {c : Client} (hassembling : c.assembling = false) :
    (∀ fuel, c.inBuf = m.encode → c.inBuf.length ≤ fuel →
        frameLoop fuel c = ⟨m.received c, [m.call], false⟩) ∧
      ∀ chunks : List Bytes, nextFrame c.inBuf = none → c.closed = false →
        c.inBuf ++ chunks.flatten = m.encode →
        chunks.foldl readFrames ⟨c, [], false⟩ = ⟨m.received c, [m.call], false⟩ := by
  obtain ⟨hframes, hrest⟩ := frames_encode m.frames
  constructor
  · intro fuel hbuf hfuel
    have hlen : LengthsBelow c.inBuf := by
      rw [hbuf]
      exact lengthsBelow_encode m.frames
    rw [frameLoop_eq hlen hfuel, hbuf, encode, hframes, hrest, handleFrames_frames m hassembling]
    rfl
  · intro chunks hnext hopen hflatten
    have hlen : LengthsBelow (c.inBuf ++ chunks.flatten) := by
      rw [hflatten]
      exact lengthsBelow_encode m.frames
    have hcont : Continues c.assembling (frameFramer.frames (c.inBuf ++ chunks.flatten)) := by
      rw [hflatten, encode, hframes, hassembling]
      exact m.continues_frames
    rw [foldl_readFrames chunks [] hnext hopen hlen hcont, hflatten, encode, hframes, hrest,
      handleFrames_frames m hassembling]
    rfl

/-- A text in two fragments with a masked ping between them. -/
def pingedText : FragmentedMessage where
  first := ⟨0x01, [72, 101], .short, (by decide : 2 < 126), none⟩
  between := [⟨0x89, [9], .short, (by decide : 1 < 126), some ⟨1, 2, 3, 4⟩⟩]
  last := ⟨0x80, [121], .medium, (by decide : 1 < 2 ^ 16), some ⟨5, 6, 7, 8⟩⟩
  opcode_first := .inl (by decide)
  fin_first := by decide
  isBetween f hf := by
    obtain rfl := List.mem_singleton.mp hf
    exact .inr (.inl (by decide))
  opcode_last := by decide
  fin_last := by decide

/-- Found in the buffer, and cut inside the mask of the ping. -/
theorem reassembled_pingedText :
    (frameLoop 30 { cid := 0, inBuf := pingedText.encode }).calls = [⟨0x1, [72, 101, 121]⟩] ∧
      ([pingedText.encode.take 8, pingedText.encode.drop 8].foldl readFrames
        ⟨{ cid := 0 }, [], false⟩).client.outBuf = [0x8A, 1, 9] := by
  have hloop := (pingedText.reassembled (c := { cid := 0, inBuf := pingedText.encode }) rfl).1
  have hchunks := (pingedText.reassembled (c := { cid := 0 }) rfl).2
  constructor
  · rw [hloop 30 rfl (by decide)]
    rfl
  · rw [hchunks _ rfl rfl rfl]
    rfl

end FragmentedMessage

end Wasapi.Websockets
