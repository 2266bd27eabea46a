import Wasapi.Websockets.FrameChunking

/-!
# Frames as they are sent

A frame on the wire: the octet with FIN, the reserved bits and the opcode, the length of the payload
in one of three forms, an optional masking key, and the payload, masked if there is a key. The loop
takes such a frame off the front of the buffer, whatever follows it.

The highest bit of a length in eight octets is zero, so payloads are shorter than 2 ^ 63.
-/

namespace Wasapi.Websockets

/-! ## Masking

The key is repeated along the payload. Applying it twice gives the payload back, so the same
function masks and unmasks. -/

structure MaskingKey where
  (k0 k1 k2 k3 : UInt8)

namespace MaskingKey

def octets (key : MaskingKey) : Bytes := [key.k0, key.k1, key.k2, key.k3]

/-- Mask a payload, or unmask it. -/
def apply (key : MaskingKey) (data : Bytes) : Bytes :=
  data.mapIdx fun k b ↦ b ^^^ key.octets.getD (k % 4) 0

variable (key : MaskingKey)

@[simp] theorem length_apply (data : Bytes) : (key.apply data).length = data.length :=
  List.length_mapIdx

@[simp] theorem apply_apply (data : Bytes) : key.apply (key.apply data) = data := by
  rw [apply, apply, List.mapIdx_mapIdx]
  refine List.ext_getElem? fun k ↦ ?_
  rw [List.getElem?_mapIdx]
  cases data[k]? with
  | none => rfl
  | some b => simp

end MaskingKey

/-! ## Lengths

A sender should use the shortest form. The server does not ask for that, so any form that can
express the length is allowed here. -/

/-- The ways to give the length of a payload. -/
inductive PayloadLength where
  /-- in the second octet -/
  | short
  /-- in two octets behind it -/
  | medium
  /-- in eight octets behind it -/
  | long

namespace PayloadLength

def Fits : PayloadLength → ℕ → Prop
  | short, n => n < 126
  | medium, n => n < 2 ^ 16
  | long, n => n < 2 ^ 63

/-- The lower bits of the second octet. -/
def code : PayloadLength → ℕ → ℕ
  | short, n => n
  | medium, _ => 126
  | long, _ => 127

def octets : PayloadLength → ℕ → Bytes
  | short, _ => []
  | medium, n => beBytes 2 n
  | long, n => beBytes 8 n

theorem code_lt {form : PayloadLength} {n : ℕ} (h : form.Fits n) : form.code n < 128 := by
  cases form with
  | short => exact h.trans (by decide)
  | medium => exact (by decide : 126 < 128)
  | long => exact (by decide : 127 < 128)

private theorem lt_of_fits {form : PayloadLength} {n : ℕ} (h : form.Fits n) : n < 2 ^ 63 := by
  cases form with
  | short => exact h.trans (by decide)
  | medium => exact h.trans (by decide)
  | long => exact h

end PayloadLength

/-! ## Frames

What the server takes off the wire is the frame as it was sent, with the payload unmasked. The
reserved bits are passed over. -/

structure SentFrame where
  /-- FIN, the reserved bits and the opcode -/
  first : UInt8
  payload : Bytes
  form : PayloadLength
  fits : form.Fits payload.length
  key : Option MaskingKey

namespace SentFrame

variable (f : SentFrame)

def fin : Bool := f.first &&& 0x80 ≠ 0

def opcode : UInt8 := f.first &&& 0x0F

/-- The payload as it is sent. -/
def sent : Bytes :=
  match f.key with
  | none => f.payload
  | some key => key.apply f.payload

def keyOctets : Bytes :=
  match f.key with
  | none => []
  | some key => key.octets

/-- The octet with the mask bit. -/
def second : UInt8 :=
  UInt8.ofNat ((if f.key.isSome then 128 else 0) + f.form.code f.payload.length)

def encode : Bytes :=
  f.first :: f.second :: (f.form.octets f.payload.length ++ f.keyOctets ++ f.sent)

/-- What the loop makes of the head. -/
def head : FrameHead where
  fin := f.fin
  opcode := f.opcode
  masked := f.key.isSome
  payloadLen := f.payload.length
  headerLen := 2 + (f.form.octets f.payload.length).length

/-- The frame as the framer delivers it. -/
def frame : Frame := ⟨f.head, f.payload⟩

@[simp] theorem length_sent : f.sent.length = f.payload.length := by
  rw [sent]
  cases f.key with
  | none => rfl
  | some key => exact key.length_apply _

private theorem length_keyOctets : f.keyOctets.length = f.head.maskLen := by
  rw [keyOctets, FrameHead.maskLen, head]
  cases f.key <;> rfl

theorem length_encode : f.encode.length = f.head.total := by
  simp only [encode, List.length_cons, List.length_append, length_keyOctets, length_sent,
    FrameHead.total, head]
  omega

private theorem toNat_second : f.second.toNat
    = (if f.key.isSome then 128 else 0) + f.form.code f.payload.length := by
  have hlt := PayloadLength.code_lt f.fits
  rw [second, UInt8.toNat_ofNat']
  split <;> omega

private theorem second_and_low : (f.second &&& 0x7F).toNat = f.form.code f.payload.length := by
  have hlt := PayloadLength.code_lt f.fits
  rw [toNat_and_low, toNat_second]
  split <;> omega

private theorem second_and_high : decide (f.second &&& 0x80 ≠ 0) = f.key.isSome := by
  have hlt := PayloadLength.code_lt f.fits
  rw [Bool.eq_iff_iff, decide_eq_true_eq, ne_eq, and_high_eq_zero_iff, toNat_second]
  split
  · next hkey => exact iff_of_true (by omega) hkey
  · next hkey => exact iff_of_false (by omega) hkey

/-- **The head is read** whatever follows it. -/
theorem read_encode (r : Bytes) : FrameHead.read (f.encode ++ r) = some f.head := by
  have hfits := f.fits
  have hcode := f.second_and_low
  have hmasked := f.second_and_high
  -- the lower bits tell the form of the length
  have hkind (k : UInt8) : f.second &&& 0x7F = k ↔ f.form.code f.payload.length = k.toNat := by
    rw [← UInt8.toNat_inj, hcode]
  have hbytes {w : ℕ} (s : Bytes) (hn : f.payload.length < 256 ^ w) :
      beValue ((beBytes w f.payload.length ++ s).take w) = f.payload.length := by
    rw [List.take_append_of_le_length (length_beBytes w _).ge,
      List.take_of_length_le (length_beBytes w _).le, beValue_beBytes hn]
  rw [encode, head, fin, opcode, List.cons_append, List.cons_append, List.append_assoc,
    List.append_assoc]
  simp only [FrameHead.read, hmasked, List.length_cons, List.length_append]
  rcases hform : f.form with _ | _ | _
  · -- neither 126 nor 127
    rw [hform] at hkind hfits hcode
    have hlt : f.payload.length < 126 := hfits
    rw [if_neg fun heq ↦ absurd ((hkind 126).mp heq) hlt.ne,
      if_neg fun heq ↦ absurd ((hkind 127).mp heq) (hlt.trans (by decide)).ne, hcode]
    rfl
  · rw [hform] at hkind hfits
    have hlt : f.payload.length < 256 ^ 2 := hfits
    rw [if_pos ((hkind 126).mpr rfl), PayloadLength.octets, hbytes _ hlt, length_beBytes,
      if_neg (by omega)]
  · rw [hform] at hkind hfits
    have hlt : f.payload.length < 256 ^ 8 := lt_trans hfits (by decide)
    rw [if_neg fun heq ↦ absurd ((hkind 126).mp heq) (by decide : 127 ≠ 126),
      if_pos ((hkind 127).mpr rfl), PayloadLength.octets, hbytes _ hlt, length_beBytes,
      if_neg (by omega)]

/-- **The payload is unmasked** whatever follows it. -/
theorem payload_encode (r : Bytes) : f.head.payload (f.encode ++ r) = f.payload := by
  have hdrop : (f.encode ++ r).drop f.head.headerLen = f.keyOctets ++ (f.sent ++ r) := by
    rw [encode, head, List.cons_append, List.cons_append, Nat.add_comm 2, List.drop_succ_cons,
      List.drop_succ_cons, List.append_assoc, List.append_assoc, List.drop_left]
  have hdata : ((f.encode ++ r).drop (f.head.headerLen + f.head.maskLen)).take f.head.payloadLen
      = f.sent := by
    rw [← List.drop_drop, hdrop, ← length_keyOctets, List.drop_left, head,
      ← length_sent, List.take_left]
  rw [FrameHead.payload, hdata, hdrop]
  have hmasked : f.head.masked = f.key.isSome := rfl
  rw [hmasked, sent, keyOctets]
  rcases f.key with _ | key
  · rfl
  · simp only [Option.isSome_some, if_true]
    have hkey : (key.octets ++ (key.apply f.payload ++ r)).take 4 = key.octets := rfl
    rw [hkey]
    exact key.apply_apply f.payload

private theorem next_encode (r : Bytes) : frameFramer.next (f.encode ++ r) = some (f.frame, r) := by
  refine nextFrame_eq_some_iff.mpr ⟨f.head, f.read_encode r, ?_, ?_, ?_⟩
  · rw [List.length_append, length_encode]
    exact Nat.le_add_right _ _
  · rw [payload_encode]
    rfl
  · rw [← length_encode, List.drop_left]

end SentFrame

/-- **Frames are delivered as they were sent.** -/
theorem frames_encode (fs : List SentFrame) :
    frameFramer.frames (fs.flatMap SentFrame.encode) = fs.map SentFrame.frame ∧
      frameFramer.rest (fs.flatMap SentFrame.encode) = [] := by
  have hnext : ∀ f ∈ fs, ∀ r, frameFramer.next (f.encode ++ r) = some (f.frame, r) :=
    fun f _ r ↦ f.next_encode r
  have hframes := Framer.frames_flatMap_map hnext []
  have hrest := Framer.rest_flatMap_map hnext []
  rw [List.append_nil] at hframes hrest
  rw [Framer.frames_of_none frameFramer.next_nil, List.append_nil] at hframes
  rw [Framer.rest_of_none frameFramer.next_nil] at hrest
  exact ⟨hframes, hrest⟩

theorem lengthsBelow_encode (fs : List SentFrame) : LengthsBelow (fs.flatMap SentFrame.encode) := by
  obtain ⟨hframes, hrest⟩ := frames_encode fs
  constructor
  · rw [hframes]
    intro f hf
    obtain ⟨g, -, rfl⟩ := List.mem_map.mp hf
    exact PayloadLength.lt_of_fits g.fits
  · rw [hrest]
    intro h hread
    cases hread

end Wasapi.Websockets
