import Wasapi.Config
import Wasapi.Library.BigEndian

/-!
# Websocket frames

`build_ws_frame` and the frame loop of `serve`. The loop takes frames off `in_buf` as long as its
completeness check passes. Lengths are of type `size_t`, so the sum the check compares with is taken
modulo 2 ^ 64; when that makes it pass although the frame is not there, copying the payload throws,
and nothing catches the exception.

A call of `schedule_message` touches nothing the loop works on, so the loop lists its calls and the
server makes them afterwards.
-/

namespace Wasapi.Websockets

def buildWsFrame (opcode : UInt8) (payload : Bytes) : Bytes :=
  let len := payload.length
  let head :=
    if len < 126 then [UInt8.ofNat len]
    else if len ≤ 0xFFFF then 126 :: beBytes 2 len
    else 127 :: beBytes 8 len
  (0x80 ||| (opcode &&& 0x0F)) :: (head ++ payload)

/-! ## One frame

The second octet holds the mask bit and a length, which may say that the length stands in the next
two or eight octets. -/

structure FrameHead where
  fin : Bool
  opcode : UInt8
  masked : Bool
  payloadLen : ℕ
  headerLen : ℕ

namespace FrameHead

variable (h : FrameHead)

def maskLen : ℕ := if h.masked then 4 else 0

/-- `header_len + mask_len + payload_len` as a number. -/
def total : ℕ := h.headerLen + h.maskLen + h.payloadLen

/-- The head at the front of the buffer, if all of it has arrived. -/
def read (inBuf : Bytes) : Option FrameHead :=
  match inBuf with
  | b0 :: b1 :: rest =>
    let head (payloadLen headerLen : ℕ) : FrameHead :=
      { fin := b0 &&& 0x80 ≠ 0
        opcode := b0 &&& 0x0F
        masked := b1 &&& 0x80 ≠ 0
        payloadLen := payloadLen
        headerLen := headerLen }
    if b1 &&& 0x7F = 126 then
      if inBuf.length < 4 then none else some (head (beValue (rest.take 2)) 4)
    else if b1 &&& 0x7F = 127 then
      if inBuf.length < 10 then none else some (head (beValue (rest.take 8)) 10)
    else some (head (b1 &&& 0x7F).toNat 2)
  | _ => none

/-- The payload, unmasked. -/
def payload (inBuf : Bytes) : Bytes :=
  let data := (inBuf.drop (h.headerLen + h.maskLen)).take h.payloadLen
  let mask := (inBuf.drop h.headerLen).take 4
  if h.masked then data.mapIdx fun k b ↦ b ^^^ mask.getD (k % 4) 0 else data

end FrameHead

/-! ## What a client keeps

`assemble_opcode` and `assemble_data` hold a message of which more fragments are to come. Whatever
is to be sent goes to `out_buf`. -/

/-- A connection of the websocket server. `cid` is the number of the `accept` that made it. -/
structure Client where
  cid : ℕ
  fd : ℤ := -1
  handshakeDone : Bool := false
  inHttp : Bytes := []
  /-- true if plain HTTP (non-upgrade) -/
  httpMode : Bool := false
  httpHeadersParsed : Bool := false
  httpContentLength : ℕ := 0
  /-- for plain HTTP response -/
  closeAfterWrite : Bool := false
  inBuf : Bytes := []
  outBuf : Bytes := []
  closed : Bool := false
  assembling : Bool := false
  /-- original opcode (text/binary) -/
  assembleOpcode : UInt8 := 0
  assembleData : Bytes := []

/-- The arguments of a call of `schedule_message`. -/
structure MessageCall where
  opcode : UInt8
  data : Bytes
  deriving DecidableEq

/-- What the loop does with one frame. -/
def handleFrame (h : FrameHead) (payload : Bytes) (c : Client) : Client × List MessageCall :=
  if h.opcode = 0x8 then ({ c with closed := true }, [])
  else if h.opcode = 0x9 then ({ c with outBuf := c.outBuf ++ buildWsFrame 0xA payload }, [])
  else if h.opcode = 0xA then (c, [])
  else if h.opcode = 0x1 ∨ h.opcode = 0x2 then
    let c := if c.assembling then { c with assembleData := [], assembling := false } else c
    if h.fin then (c, [⟨h.opcode, payload⟩])
    else
      ({ c with assembling := true, assembleOpcode := h.opcode, assembleData := payload }, [])
  else if h.opcode = 0x0 then
    if !c.assembling then ({ c with closed := true }, [])
    else
      let complete := c.assembleData ++ payload
      if h.fin then
        ({ c with assembleData := [], assembling := false }, [⟨c.assembleOpcode, complete⟩])
      else ({ c with assembleData := complete }, [])
  else (c, [])

/-! ## The loop

The loop stops at the first frame that is not there in full. It does not stop at one that closes the
client. -/

structure FrameExit where
  client : Client
  calls : List MessageCall
  /-- copying a payload has thrown -/
  thrown : Bool

/-- The frame loop of `serve`; `fuel` bounds the number of frames. -/
def frameLoop : ℕ → Client → FrameExit
  | 0, c => ⟨c, [], false⟩
  | fuel + 1, c =>
    match FrameHead.read c.inBuf with
    | none => ⟨c, [], false⟩
    | some h =>
      if c.inBuf.length < sizeT h.total then ⟨c, [], false⟩
      else if c.inBuf.length < h.total then ⟨c, [], true⟩
      else
        let handled := handleFrame h (h.payload c.inBuf) c
        let exit := frameLoop fuel { handled.1 with inBuf := c.inBuf.drop h.total }
        { exit with calls := handled.2 ++ exit.calls }

end Wasapi.Websockets
