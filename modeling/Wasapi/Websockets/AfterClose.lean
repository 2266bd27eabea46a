import Wasapi.Websockets.FrameChunking

/-!
# Frames behind a closing frame

A Close frame, or a continuation frame outside a fragmented message, sets `closed`. The loop does
not look at it: it walks on through what has been read, and only then is the client erased. So a
frame behind the closing one is still handled if it has arrived in the same read.

A read event may also come with a hang-up or end the stream; its bytes are handled all the same.
-/

namespace Wasapi.Websockets

/-! ## One frame

What a frame does is told by its opcode and by whether a message is being assembled. Nothing in it
depends on `closed`. -/

namespace Frame

variable (assembling : Bool) (f : Frame)

/-- Whether a message is being assembled behind the frame. -/
def assembles : Bool :=
  if f.head.opcode = 0x1 ∨ f.head.opcode = 0x2 then !f.head.fin
  else if f.head.opcode = 0x0 then assembling && !f.head.fin
  else assembling

/-- A Close frame, or a continuation outside a fragmented message. -/
def closes : Bool := f.head.opcode = 0x8 || f.head.opcode = 0x0 && !assembling

/-- A ping, or the end of a message. -/
def speaks : Bool :=
  f.head.opcode = 0x9 || (f.head.opcode = 0x1 || f.head.opcode = 0x2) && f.head.fin ||
    f.head.opcode = 0x0 && assembling && f.head.fin

/-- What the frame adds to `out_buf`. -/
def pong : Bytes := if f.head.opcode = 0x9 then buildWsFrame 0xA f.payload else []

end Frame

/-- The opcodes the cascade tells apart. -/
theorem opcode_cases {P : UInt8 → Prop} (hclose : P 0x8) (hping : P 0x9) (hpong : P 0xA)
    (htext : P 0x1) (hbinary : P 0x2) (hcontinuation : P 0x0)
    (hother : ∀ o, o ≠ 0x8 → o ≠ 0x9 → o ≠ 0xA → o ≠ 0x1 → o ≠ 0x2 → o ≠ 0x0 → P o) (o : UInt8) :
    P o := by
  by_cases h8 : o = 0x8
  · rwa [h8]
  by_cases h9 : o = 0x9
  · rwa [h9]
  by_cases hA : o = 0xA
  · rwa [hA]
  by_cases h1 : o = 0x1
  · rwa [h1]
  by_cases h2 : o = 0x2
  · rwa [h2]
  by_cases h0 : o = 0x0
  · rwa [h0]
  · exact hother o h8 h9 hA h1 h2 h0

/-- **What one frame does.** -/
theorem handleFrame_effects (f : Frame) (c : Client) :
    (handleFrame f.head f.payload c).1.assembling = f.assembles c.assembling ∧
      (handleFrame f.head f.payload c).1.closed = (c.closed || f.closes c.assembling) ∧
      (handleFrame f.head f.payload c).1.outBuf = c.outBuf ++ f.pong ∧
      ((handleFrame f.head f.payload c).2 = [] ∧ f.pong = [] ↔ f.speaks c.assembling = false) := by
  have hpong : buildWsFrame 0xA f.payload ≠ [] := List.cons_ne_nil _ _
  simp only [handleFrame, Frame.assembles, Frame.closes, Frame.speaks, Frame.pong]
  generalize f.head.opcode = o
  generalize f.head.fin = fin
  induction o using opcode_cases with
  | hother o h8 h9 hA h1 h2 h0 => simp [h8, h9, hA, h1, h2, h0]
  | _ => rcases fin <;> cases hassembling : c.assembling <;> simp [hassembling, hpong]

/-! ## Runs of frames

Some frames in a row do what the single ones do, one after the other. That one of them closes the
client makes no difference to those behind it. -/

/-- One of the frames closes. -/
def closesIn : Bool → List Frame → Bool
  | _, [] => false
  | assembling, f :: fs => f.closes assembling || closesIn (f.assembles assembling) fs

/-- None of the frames is a ping or ends a message. -/
def Silent : Bool → List Frame → Prop
  | _, [] => True
  | assembling, f :: fs => f.speaks assembling = false ∧ Silent (f.assembles assembling) fs

/-- What some frames do, by induction with the client between them. -/
theorem handleFrames_effects (c : Client) (fs : List Frame) :
    (handleFrames c fs).1.assembling = fs.foldl Frame.assembles c.assembling ∧
      (handleFrames c fs).1.closed = (c.closed || closesIn c.assembling fs) ∧
      (handleFrames c fs).1.outBuf = c.outBuf ++ fs.flatMap Frame.pong ∧
      ((handleFrames c fs).2 = [] ∧ fs.flatMap Frame.pong = [] ↔ Silent c.assembling fs) := by
  induction fs generalizing c with
  | nil =>
    refine ⟨rfl, (Bool.or_false _).symm, (List.append_nil _).symm, ?_⟩
    exact iff_of_true ⟨rfl, rfl⟩ trivial
  | cons f fs ih =>
    obtain ⟨hassembling, hclosed, hout, hsilent⟩ := handleFrame_effects f c
    obtain ⟨hassembling', hclosed', hout', hsilent'⟩ := ih (handleFrame f.head f.payload c).1
    rw [handleFrames, List.foldl_cons, closesIn, List.flatMap_cons, Silent, ← hassembling]
    refine ⟨hassembling', ?_, ?_, ?_⟩
    · rw [hclosed', hclosed, Bool.or_assoc]
    · rw [hout', hout, List.append_assoc]
    · rw [List.append_eq_nil_iff, List.append_eq_nil_iff, ← hsilent, ← hsilent']
      tauto

/-- Frames are handled without a look at whether the client is closed. -/
theorem handleFrames_withClosed (c : Client) (fs : List Frame) :
    handleFrames { c with closed := true } fs
      = ({ (handleFrames c fs).1 with closed := true }, (handleFrames c fs).2) := by
  have hwith := handleFrames_with c c.inBuf true fs
  have hinBuf : (handleFrames c fs).1.inBuf = c.inBuf :=
    congrArg (fun p ↦ p.1.inBuf) (handleFrames_withInBuf c c.inBuf fs)
  simp only [Bool.or_true] at hwith
  refine hwith.trans ?_
  rw [← hinBuf]

/-! ## Read events

`serve` looks at `closed` when the loop has ended: it erases the client, and nothing more is read
from it. So the frames that are handled are those of the reads up to the one that closes. -/

/-- A readable event of a client: a hang-up may come with it, and the reads of it may end in an
error or the end of the stream. -/
structure ReadEvent where
  hup : Bool
  data : Bytes
  ending : RecvEnd

/-- The client is gone behind the event, whatever the frames. -/
def ReadEvent.ends (e : ReadEvent) : Bool := e.hup || decide (e.ending ≠ .again)

/-- One event after the handshake. The server has erased a client that it found closed, and it is
gone when an exception has left the loop. -/
def readEvent (x : FrameExit) (e : ReadEvent) : FrameExit :=
  if x.client.closed || x.thrown then x
  else
    let c := receive e.data e.ending { x.client with closed := e.hup }
    let exit := frameLoop c.inBuf.length c
    { exit with calls := x.calls ++ exit.calls }

/-- `serve` makes the calls of the event behind the loop. -/
theorem handleClient_eq_readEvent (cfg : GlobalConfig) (app : Application) {s : Server} {fd : ℤ}
    {c : Client} (hlookup : s.clients.lookup fd = some c) (hdone : c.handshakeDone = true)
    (hopen : c.closed = false) (e : ReadEvent) (epollOut : Bool) :
    handleClient cfg app fd ⟨true, epollOut, e.hup⟩ e.data e.ending s =
      let exit := readEvent ⟨c, [], false⟩ e
      let s' : Server :=
        { exit.calls.foldl
            (scheduleMessage cfg (receive e.data e.ending { c with closed := e.hup })) s with
          terminated := s.terminated || exit.thrown }
      if s'.terminated then { s' with clients := s'.clients.insert fd exit.client }
      else finishEvent fd epollOut exit.client s' := by
  have hclosed : (if e.hup then { c with closed := true } else c) = { c with closed := e.hup } := by
    cases e.hup with
    | false => rw [if_neg Bool.false_ne_true, ← hopen]
    | true => rfl
  have hdone' (c' : Client) (h : c'.handshakeDone = true) :
      (receive e.data e.ending c').handshakeDone = true := h
  simp only [handleClient, hlookup, hclosed, if_true, handleInput, readEvent,
    hdone' { c with closed := e.hup } hdone, hopen, Bool.or_self, Bool.false_eq_true, if_false,
    List.nil_append]

/-- The frames the loop comes to: those of the reads up to the one that closes the client. -/
def framesSeen : Bool → Bytes → List ReadEvent → List Frame
  | _, _, [] => []
  | assembling, inBuf, e :: es =>
    let fs := frameFramer.frames (inBuf ++ e.data)
    let rest := frameFramer.rest (inBuf ++ e.data)
    if e.ends || closesIn assembling fs || throws rest then fs
    else fs ++ framesSeen (fs.foldl Frame.assembles assembling) rest es

private theorem foldl_readEvent_of_stopped {x : FrameExit}
    (h : (x.client.closed || x.thrown) = true)
    (es : List ReadEvent) : es.foldl readEvent x = x := by
  induction es with
  | nil => rfl
  | cons e es ih => rw [List.foldl_cons, readEvent, if_pos h, ih]

/-- One event handles the whole frames it completes. -/
theorem readEvent_of_open {c : Client} (hopen : c.closed = false) (calls : List MessageCall)
    (e : ReadEvent) :
    let p := handleFrames c (frameFramer.frames (c.inBuf ++ e.data))
    readEvent ⟨c, calls, false⟩ e =
      ⟨{ p.1 with
          inBuf := frameFramer.rest (c.inBuf ++ e.data)
          closed := e.ends || p.1.closed },
        calls ++ p.2, throws (frameFramer.rest (c.inBuf ++ e.data))⟩ := by
  have hloop : frameLoop (c.inBuf ++ e.data).length
      { c with inBuf := c.inBuf ++ e.data, closed := e.ends } = _ :=
    frameLoop_eq_of_length_le le_rfl
  simp only [readEvent, hopen, Bool.or_self, Bool.false_eq_true, if_false]
  have hreceive : receive e.data e.ending { c with closed := e.hup }
      = { c with inBuf := c.inBuf ++ e.data, closed := e.ends } := rfl
  rw [hreceive, hloop]
  cases hends : e.ends with
  | false =>
    have hsame : ({ c with inBuf := c.inBuf ++ e.data, closed := false } : Client)
        = { c with inBuf := c.inBuf ++ e.data } := by rw [← hopen]
    rw [hsame, handleFrames_withInBuf]
    simp only [Bool.false_or]
  | true =>
    have hsame : ({ c with inBuf := c.inBuf ++ e.data, closed := true } : Client)
        = { ({ c with inBuf := c.inBuf ++ e.data } : Client) with closed := true } := rfl
    rw [hsame, handleFrames_withClosed, handleFrames_withInBuf]
    simp only [Bool.true_or]

/-- Over a whole connection the loop handles the frames it comes to. -/
theorem foldl_readEvent (es : List ReadEvent) {c : Client} (hopen : c.closed = false)
    (calls : List MessageCall) :
    let seen := framesSeen c.assembling c.inBuf es
    (es.foldl readEvent ⟨c, calls, false⟩).calls = calls ++ (handleFrames c seen).2 ∧
      (es.foldl readEvent ⟨c, calls, false⟩).client.outBuf = (handleFrames c seen).1.outBuf := by
  induction es generalizing c calls with
  | nil => exact ⟨(List.append_nil _).symm, rfl⟩
  | cons e es ih =>
    obtain ⟨hassembling, hclosed, hout, -⟩ :=
      handleFrames_effects c (frameFramer.frames (c.inBuf ++ e.data))
    have hread := readEvent_of_open hopen calls e
    simp only at hread
    rw [hopen, Bool.false_or] at hclosed
    simp only [List.foldl_cons, hread, framesSeen]
    rw [hclosed]
    split
    · next hstop =>
      -- the client is gone, and so are the later events
      rw [foldl_readEvent_of_stopped (by simpa only [Bool.or_assoc] using hstop)]
      exact ⟨rfl, rfl⟩
    · next hgoes =>
      rw [Bool.or_eq_true, not_or, Bool.or_eq_true, not_or] at hgoes
      obtain ⟨⟨hends, hcloses⟩, hthrows⟩ := hgoes
      rw [Bool.not_eq_true] at hends hcloses hthrows
      rw [hends, hcloses, hthrows, Bool.false_or, ← hassembling, handleFrames_append]
      set p := handleFrames c (frameFramer.frames (c.inBuf ++ e.data))
      have hsame : ({ p.1 with
            inBuf := frameFramer.rest (c.inBuf ++ e.data), closed := false } : Client)
          = { p.1 with inBuf := frameFramer.rest (c.inBuf ++ e.data) } := by
        rw [hcloses] at hclosed
        rw [← hclosed]
      obtain ⟨hcalls, hout⟩ :=
        ih (c := { p.1 with inBuf := frameFramer.rest (c.inBuf ++ e.data) })
          (by rw [hcloses] at hclosed; exact hclosed) (calls ++ p.2)
      rw [hsame]
      rw [handleFrames_withInBuf] at hcalls hout
      exact ⟨by rw [hcalls, List.append_assoc], hout⟩

/-! ## What follows a closing frame

Behind a closing frame there are only the frames of the same read. Whether they do harm is a matter
of these frames alone. -/

/-- **Nothing follows a closing frame**: no call of `schedule_message` and no octet of output comes
from a frame behind it. -/
def NothingFollowsClose (c : Client) (es : List ReadEvent) : Prop :=
  ∀ before f behind, framesSeen c.assembling c.inBuf es = before ++ f :: behind →
    f.closes (before.foldl Frame.assembles c.assembling) = true →
    (es.foldl readEvent ⟨c, [], false⟩).calls = (handleFrames c (before ++ [f])).2 ∧
      (es.foldl readEvent ⟨c, [], false⟩).client.outBuf
        = (handleFrames c (before ++ [f])).1.outBuf

/-- The frames that have been read along with a closing frame, behind it, are silent. -/
def SilentBehindClose (c : Client) (es : List ReadEvent) : Prop :=
  ∀ before f behind, framesSeen c.assembling c.inBuf es = before ++ f :: behind →
    f.closes (before.foldl Frame.assembles c.assembling) = true →
    Silent ((before ++ [f]).foldl Frame.assembles c.assembling) behind

/-- **Nothing follows a closing frame exactly if** no ping and no end of a message has arrived
behind it in the same read. -/
theorem nothingFollowsClose_iff {c : Client} (hopen : c.closed = false) (es : List ReadEvent) :
    NothingFollowsClose c es ↔ SilentBehindClose c es := by
  refine forall₃_congr fun before f behind ↦ forall₂_congr fun hseen _ ↦ ?_
  obtain ⟨hcalls, hout⟩ := foldl_readEvent es hopen []
  obtain ⟨hassembling, -, -, -⟩ := handleFrames_effects c (before ++ [f])
  obtain ⟨-, -, hout', hsilent⟩ := handleFrames_effects (handleFrames c (before ++ [f])).1 behind
  rw [List.append_cons] at hseen
  rw [hcalls, hout, hseen, handleFrames_append, List.nil_append, hout', ← hassembling, ← hsilent,
    List.append_right_eq_self, List.append_right_eq_self]

/-- A Close frame and a text in two reads. -/
theorem nothingFollowsClose_text :
    NothingFollowsClose { cid := 0, handshakeDone := true }
      [⟨false, [0x88, 0], .again⟩, ⟨false, [0x81, 1, 97], .again⟩] := by
  refine (nothingFollowsClose_iff rfl _).mpr fun before f behind hseen _ ↦ ?_
  -- the loop comes to one frame
  have hlen : (before ++ f :: behind).length = 1 := by
    rw [← hseen]
    decide +kernel
  rw [List.length_append, List.length_cons] at hlen
  obtain rfl := List.eq_nil_of_length_eq_zero (by omega : behind.length = 0)
  trivial

/-- A Close frame and a text in one read. -/
theorem not_nothingFollowsClose_text :
    ¬NothingFollowsClose { cid := 0, handshakeDone := true }
      [⟨false, [0x88, 0, 0x81, 1, 97], .again⟩] := by
  intro h
  have hcalls := (h [] _ _ rfl rfl).1
  revert hcalls
  decide +kernel

end Wasapi.Websockets
