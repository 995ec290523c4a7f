import Casprix.Library.Bytes

/-! Frames of the WebSocket protocol as `cpx_ws_encode_frame` writes and
`cpx_ws_decode_frame` reads them. A `size_t` has 64 bits. -/
namespace Casprix.Net

open Library (Byte)

/-- The payload pointer is null or names the bytes from its address on. -/
structure CpxWSFrame where
  fin : Bool
  opcode : BitVec 32
  masked : Bool
  payloadLen : BitVec 64
  maskKey : Fin 4 → Byte
  payload : Option (Nat → Byte)

/-- What a call returns. The encoder stores its bytes from the start of the buffer on, so
`stored` is all that it writes. -/
structure WsEncoded where
  code : Int
  stored : List Byte
  outWritten : Option (BitVec 64)
  deriving DecidableEq

/-- The flag in the highest bit of a byte. -/
def bit7 (flag : Bool) : Byte := if flag then 0x80 else 0

def writeU16Be (v : BitVec 16) : List Byte := [(v >>> 8).setWidth 8, (v &&& 0xFF).setWidth 8]

/-- The loop stores the byte of `i` from 7 down to 0. -/
def writeU64Be (v : BitVec 64) : List Byte :=
  [7, 6, 5, 4, 3, 2, 1, 0].map fun i : Nat => ((v >>> (i * 8)) &&& 0xFF).setWidth 8

variable (frame : CpxWSFrame)

namespace CpxWSFrame

def headerLen : BitVec 64 :=
  2 + (if frame.payloadLen ≤ 125 then 0 else if frame.payloadLen ≤ 65535 then 2 else 8) +
    if frame.masked then 4 else 0

/-- The bytes before the payload. -/
def header : List Byte :=
  (bit7 frame.fin ||| (frame.opcode &&& 0x0F).setWidth 8) ::
    (if frame.payloadLen ≤ 125 then [bit7 frame.masked ||| frame.payloadLen.setWidth 8]
    else if frame.payloadLen ≤ 65535 then
      (bit7 frame.masked ||| 126) :: writeU16Be (frame.payloadLen.setWidth 16)
    else (bit7 frame.masked ||| 127) :: writeU64Be frame.payloadLen) ++
    if frame.masked then List.ofFn frame.maskKey else []

/-- The key byte for a place of the payload. -/
def keyByte (i : Nat) : Byte := frame.maskKey (Fin.ofNat 4 i)

/-- The payload as it is stored, from the bytes at the pointer. -/
def body (pay : Nat → Byte) : List Byte :=
  (List.range frame.payloadLen.toNat).map fun i =>
    if frame.masked then pay i ^^^ frame.keyByte i else pay i

end CpxWSFrame

/-- No result when the null pointer is read. -/
def cpxWsEncodeFrame (outSize : BitVec 64) : Option WsEncoded :=
  let need := frame.headerLen + frame.payloadLen
  if need > outSize then some { code := -2, stored := [], outWritten := none }
  else
    match frame.payload with
    | some pay =>
      some { code := 0, stored := frame.header ++ frame.body pay, outWritten := some need }
    | none =>
      if frame.masked ∧ frame.payloadLen ≠ 0 then none
      else some { code := 0, stored := frame.header, outWritten := some need }

/-- What a call leaves in `*out_frame` and `*consumed`. -/
structure WsDecoded where
  code : Int
  frame : CpxWSFrame
  consumed : Option (BitVec 64)

def emptyFrame : CpxWSFrame where
  fin := false
  opcode := 0
  masked := false
  payloadLen := 0
  maskKey := fun _ => 0
  payload := none

/-- The payload length that the header tells, and where the header goes on. -/
def decodeLength (inBuf : List Byte) : Option (BitVec 64 × Nat) :=
  let len := (inBuf.getD 1 0 &&& 0x7F).setWidth 64
  if len = 126 then
    if inBuf.length < 4 then none
    else some ((inBuf.getD 2 0).setWidth 64 <<< 8 ||| (inBuf.getD 3 0).setWidth 64, 4)
  else if len = 127 then
    if inBuf.length < 10 then none
    else
      some ((List.range 8).foldl (fun len i =>
        len <<< 8 ||| (inBuf.getD (2 + i) 0).setWidth 64) 0, 10)
  else some (len, 2)

def cpxWsDecodeFrame (inBuf : List Byte) : WsDecoded :=
  if inBuf.length < 2 then { code := -1, frame := emptyFrame, consumed := none }
  else
    let frame := { emptyFrame with
      fin := inBuf.getD 0 0 &&& 0x80 != 0
      opcode := (inBuf.getD 0 0 &&& 0x0F).setWidth 32 }
    let masked := inBuf.getD 1 0 &&& 0x80 != 0
    match decodeLength inBuf with
    | none => { code := -1, frame := frame, consumed := none }
    | some (len, pos) =>
      let frame := { frame with masked := masked, payloadLen := len }
      if masked ∧ inBuf.length < pos + 4 then { code := -1, frame := frame, consumed := none }
      else
        let frame := if masked then
          { frame with maskKey := fun k => inBuf.getD (pos + k) 0 } else frame
        let pos := if masked then pos + 4 else pos
        -- The sum wraps, and so does the number of bytes consumed.
        if BitVec.ofNat 64 inBuf.length < BitVec.ofNat 64 pos + len then
          { code := -1, frame := frame, consumed := none }
        else
          { code := 0
            frame := { frame with payload := some fun i => inBuf.getD (pos + i) 0 }
            consumed := some (BitVec.ofNat 64 pos + len) }

end Casprix.Net
