import Casprix.Net.WebSocket

/-! The decoder reads back what the encoder wrote, and the encoder stays within its buffer
unless the length of the frame wraps. -/
namespace Casprix.Net

open List Library

variable (m : Bool) (x : Byte)

section

theorem flag_high (h : x < 128) : ((bit7 m ||| x) &&& 0x80 != 0) = m := by
  revert m x
  decide +kernel

theorem flag_low (h : x < 128) : (bit7 m ||| x) &&& 0x7F = x := by
  revert m x
  decide +kernel

theorem flag_opcode (h : x < 16) : (bit7 m ||| x) &&& 0x0F = x := by
  revert m x
  decide +kernel

theorem shiftIn_toNat (len : BitVec 64) (b : Byte) :
    (len <<< 8 ||| b.setWidth 64).toNat = (len.toNat * 256 + b.toNat) % 18446744073709551616 := by
  have hLow : b.toNat < 2 ^ 8 := b.isLt
  have hByte : (b.setWidth 64).toNat = b.toNat := by
    rw [BitVec.toNat_setWidth]
    exact Nat.mod_eq_of_lt (hLow.trans (by decide))
  have hHigh : (len <<< 8).toNat = (len.toNat % 72057594037927936) <<< 8 := by
    rw [BitVec.toNat_shiftLeft, Nat.shiftLeft_eq, Nat.shiftLeft_eq]
    exact Nat.mul_mod_mul_right (2 ^ 8) len.toNat 72057594037927936
  rw [BitVec.toNat_or, hHigh, hByte, ← Nat.shiftLeft_add_eq_or_of_lt hLow, Nat.shiftLeft_eq]
  omega

theorem foldl_shiftIn (bytes : List Byte) (len : BitVec 64) (n : Nat)
    (hSame : len.toNat = n % 18446744073709551616) :
    (bytes.foldl (fun (len : BitVec 64) b => len <<< 8 ||| b.setWidth 64) len).toNat =
      bytes.foldl (fun n b => n * 256 + b.toNat) n % 18446744073709551616 := by
  induction bytes generalizing len n with
  | nil => exact hSame
  | cons b bytes ih =>
    apply ih
    rw [shiftIn_toNat, hSame]
    show _ = (n * 256 + b.toNat) % 18446744073709551616
    omega

theorem byte_shift (v : BitVec 64) (k : Nat) :
    ((v >>> k) &&& 0xFF).setWidth 8 = BitVec.ofNat 8 (v.toNat >>> k) := by
  apply BitVec.eq_of_toNat_eq
  have hMask : BitVec.toNat (0xFF : BitVec 64) = 2 ^ 8 - 1 := rfl
  rw [BitVec.toNat_setWidth, BitVec.toNat_and, BitVec.toNat_ushiftRight, BitVec.toNat_ofNat, hMask,
    Nat.and_two_pow_sub_one_eq_mod, Nat.mod_mod]

theorem writeU64Be_eq (v : BitVec 64) : writeU64Be v = bigEndian 8 v.toNat := by
  simp only [writeU64Be, map_cons, map_nil, byte_shift, bigEndian, nil_append,
    cons_append, Nat.shiftRight_eq_div_pow, Nat.div_div_eq_div_mul]
  norm_num

theorem writeU16Be_eq (v : BitVec 16) : writeU16Be v = bigEndian 2 v.toNat := by
  have hHigh : (v >>> 8).setWidth 8 = BitVec.ofNat 8 (v.toNat / 256) := by
    apply BitVec.eq_of_toNat_eq
    rw [BitVec.toNat_setWidth, BitVec.toNat_ushiftRight, BitVec.toNat_ofNat,
      Nat.shiftRight_eq_div_pow]
  have hLow : (v &&& 0xFF).setWidth 8 = BitVec.ofNat 8 v.toNat := by
    apply BitVec.eq_of_toNat_eq
    have hMask : BitVec.toNat (0xFF : BitVec 16) = 2 ^ 8 - 1 := rfl
    rw [BitVec.toNat_setWidth, BitVec.toNat_and, BitVec.toNat_ofNat, hMask,
      Nat.and_two_pow_sub_one_eq_mod, Nat.mod_mod]
  rw [writeU16Be, hHigh, hLow, bigEndian, bigEndian, bigEndian, nil_append, cons_append, nil_append]

end

/-- A buffer that starts like the bytes, as far as it goes. -/
def StartsLike (bytes buf : List Byte) : Prop :=
  ∀ i, i < buf.length → i < bytes.length → buf.getD i 0 = bytes.getD i 0

theorem startsLike_append (bytes more : List Byte) : StartsLike bytes (bytes ++ more) := by
  intro i _ hi
  exact getD_append _ _ _ _ hi

theorem startsLike_take (bytes : List Byte) (k : Nat) : StartsLike bytes (bytes.take k) := by
  intro i hi _
  rw [length_take] at hi
  rw [getD_eq_getElem?_getD, getD_eq_getElem?_getD, getElem?_take_of_lt (by omega)]

namespace CpxWSFrame

variable {frame : CpxWSFrame} {buf rest : List Byte}

/-- Where the length in the header ends. -/
def lengthEnd (frame : CpxWSFrame) : Nat :=
  if frame.payloadLen ≤ 125 then 2 else if frame.payloadLen ≤ 65535 then 4 else 10

/-- Where the payload starts. -/
def bodyStart (frame : CpxWSFrame) : Nat := frame.lengthEnd + if frame.masked then 4 else 0

theorem headerLen_toNat : frame.headerLen.toNat = frame.bodyStart := by
  rw [headerLen, bodyStart, lengthEnd]
  split
  · split <;> rfl
  · split
    · split <;> rfl
    · split <;> rfl

theorem header_length : frame.header.length = frame.bodyStart := by
  have hKey : (if frame.masked then List.ofFn frame.maskKey else []).length =
      if frame.masked then 4 else 0 := by
    split
    · exact length_ofFn
    · rfl
  rw [header, bodyStart, lengthEnd, length_append, length_cons, hKey]
  split
  · rfl
  · split
    · rfl
    · rfl

theorem header_zero : frame.header.getD 0 0 =
    bit7 frame.fin ||| (frame.opcode &&& 0x0F).setWidth 8 := rfl

theorem getD_header {i : Nat} (hi : i < frame.header.length)
    (hLike : StartsLike (frame.header ++ rest) buf)
    (hBuf : i < buf.length) : buf.getD i 0 = frame.header.getD i 0 := by
  rw [hLike i hBuf (by rw [length_append]; omega)]
  exact getD_append _ _ _ _ hi

theorem lengthEnd_le : frame.lengthEnd ≤ frame.header.length := by
  rw [header_length, bodyStart]
  exact Nat.le_add_right _ _

/-- A short length is in the second byte. -/
theorem decodeLength_small (hLike : StartsLike (frame.header ++ rest) buf) (hTwo : 2 ≤ buf.length)
    (hSmall : frame.payloadLen ≤ 125) : decodeLength buf = some (frame.payloadLen, 2) := by
  have hByte : frame.payloadLen.toNat ≤ 125 := hSmall
  have hOne : buf.getD 1 0 = bit7 frame.masked ||| frame.payloadLen.setWidth 8 := by
    rw [getD_header _ hLike (by omega), header, if_pos hSmall]
    · rfl
    · rw [header_length, bodyStart, lengthEnd, if_pos hSmall]
      omega
  have hTwice : ((frame.payloadLen.setWidth 8).setWidth 64) = frame.payloadLen := by
    apply BitVec.eq_of_toNat_eq
    rw [BitVec.toNat_setWidth, BitVec.toNat_setWidth]
    omega
  have hLow : frame.payloadLen.setWidth 8 < (128 : Byte) := by
    rw [BitVec.lt_def, BitVec.toNat_setWidth]
    show _ < 128
    omega
  have hNot126 : frame.payloadLen ≠ 126 := by
    intro hEq
    rw [hEq] at hByte
    exact absurd hByte (by decide)
  have hNot127 : frame.payloadLen ≠ 127 := by
    intro hEq
    rw [hEq] at hByte
    exact absurd hByte (by decide)
  rw [decodeLength, hOne, flag_low _ _ hLow, hTwice, if_neg hNot126, if_neg hNot127]

theorem digits_eq {count : Nat} {lead : Byte}
    (hHeader : frame.header = frame.header.getD 0 0 :: lead ::
      (bigEndian count frame.payloadLen.toNat ++
        if frame.masked then List.ofFn frame.maskKey else []))
    (hLike : StartsLike (frame.header ++ rest) buf) (hBuf : 2 + count ≤ buf.length) :
    (List.range count).map (fun i => buf.getD (2 + i) 0) =
      bigEndian count frame.payloadLen.toNat := by
  have hLength : 2 + count ≤ frame.header.length := by
    rw [hHeader, length_cons, length_cons, length_append, length_bigEndian]
    omega
  apply ext_getElem
  · rw [length_map, length_range, length_bigEndian]
  · intro i hi hDigit
    rw [length_map, length_range] at hi
    have hNext : 2 + i = i + 1 + 1 := by omega
    rw [getElem_map, getElem_range, getD_header (by omega) hLike (by omega), hHeader, hNext,
      getD_cons_succ, getD_cons_succ, getD_append _ _ _ _ hDigit,
      getD_eq_getElem _ _ hDigit]

section

variable (hLike : StartsLike (frame.header ++ rest) buf) (hTwo : 2 ≤ buf.length)
include hLike hTwo

theorem decodeLength_medium
    (hSmall : ¬frame.payloadLen ≤ 125) (hMedium : frame.payloadLen ≤ 65535) :
    decodeLength buf = if buf.length < 4 then none else some (frame.payloadLen, 4) := by
  have hBound : frame.payloadLen.toNat ≤ 65535 := hMedium
  have hDigits : (frame.payloadLen.setWidth 16).toNat = frame.payloadLen.toNat := by
    rw [BitVec.toNat_setWidth]
    omega
  have hHeader : frame.header = frame.header.getD 0 0 :: (bit7 frame.masked ||| 126) ::
      (bigEndian 2 frame.payloadLen.toNat ++
        if frame.masked then List.ofFn frame.maskKey else []) := by
    rw [header_zero, header, if_neg hSmall, if_pos hMedium, writeU16Be_eq, hDigits]
    rfl
  have hOne : buf.getD 1 0 = bit7 frame.masked ||| 126 := by
    rw [getD_header _ hLike (by omega), hHeader]
    · rfl
    · rw [hHeader, length_cons, length_cons]
      omega
  rw [decodeLength, hOne, flag_low _ _ (by decide), if_pos (by decide)]
  by_cases hShort : buf.length < 4
  · rw [if_pos hShort, if_pos hShort]
  · rw [if_neg hShort, if_neg hShort]
    have hRead := digits_eq hHeader hLike (by omega)
    have hValue : (buf.getD 2 0).setWidth 64 <<< 8 ||| (buf.getD 3 0).setWidth 64 =
        frame.payloadLen := by
      apply BitVec.eq_of_toNat_eq
      have hNumber := fromBigEndian_bigEndian 2 frame.payloadLen.toNat
      rw [← hRead] at hNumber
      have hNumber : (0 * 256 + (buf.getD 2 0).toNat) * 256 + (buf.getD 3 0).toNat =
          frame.payloadLen.toNat % 256 ^ 2 := hNumber
      rw [shiftIn_toNat, BitVec.toNat_setWidth]
      omega
    rw [hValue]

/-- A longer length follows in eight bytes. -/
theorem decodeLength_large (hMedium : ¬frame.payloadLen ≤ 65535) :
    decodeLength buf = if buf.length < 10 then none else some (frame.payloadLen, 10) := by
  have hSmall : ¬frame.payloadLen ≤ 125 :=
    fun hLe => hMedium (BitVec.le_trans hLe (by decide))
  have hHeader : frame.header = frame.header.getD 0 0 :: (bit7 frame.masked ||| 127) ::
      (bigEndian 8 frame.payloadLen.toNat ++
        if frame.masked then List.ofFn frame.maskKey else []) := by
    rw [header_zero, header, if_neg hSmall, if_neg hMedium, writeU64Be_eq]
    rfl
  have hOne : buf.getD 1 0 = bit7 frame.masked ||| 127 := by
    rw [getD_header _ hLike (by omega), hHeader]
    · rfl
    · rw [hHeader, length_cons, length_cons]
      omega
  rw [decodeLength, hOne, flag_low _ _ (by decide), if_neg (by decide), if_pos (by decide)]
  by_cases hShort : buf.length < 10
  · rw [if_pos hShort, if_pos hShort]
  · rw [if_neg hShort, if_neg hShort]
    have hRead := digits_eq hHeader hLike (by omega)
    have hValue : (List.range 8).foldl
        (fun (len : BitVec 64) i => len <<< 8 ||| (buf.getD (2 + i) 0).setWidth 64) 0 =
          frame.payloadLen := by
      apply BitVec.eq_of_toNat_eq
      have hNumber := fromBigEndian_bigEndian 8 frame.payloadLen.toNat
      have hLoop := foldl_shiftIn ((List.range 8).map fun i => buf.getD (2 + i) 0) 0 0 rfl
      rw [foldl_map] at hLoop
      rw [hLoop, hRead]
      rw [fromBigEndian] at hNumber
      rw [hNumber]
      omega
    rw [hValue]

theorem decodeLength_eq :
    decodeLength buf =
      if buf.length < frame.lengthEnd then none else some (frame.payloadLen, frame.lengthEnd) := by
  rw [lengthEnd]
  by_cases hSmall : frame.payloadLen ≤ 125
  · rw [if_pos hSmall, if_neg (by omega)]
    exact decodeLength_small hLike hTwo hSmall
  · rw [if_neg hSmall]
    by_cases hMedium : frame.payloadLen ≤ 65535
    · rw [if_pos hMedium]
      exact decodeLength_medium hLike hTwo hSmall hMedium
    · rw [if_neg hMedium]
      exact decodeLength_large hLike hTwo hMedium

end

/-- A frame says that its payload is what the pointer names. -/
def Carries (frame : CpxWSFrame) (pay : Nat → Byte) : Prop :=
  frame.payload = some pay ∨ frame.payload = none ∧ frame.payloadLen = 0

/-- The bytes of the frame with the payload in place. -/
def bytes (frame : CpxWSFrame) (pay : Nat → Byte) : List Byte := frame.header ++ frame.body pay

theorem bytes_length {pay : Nat → Byte} :
    (frame.bytes pay).length = frame.bodyStart + frame.payloadLen.toNat := by
  rw [bytes, length_append, header_length, body, length_map, length_range]

/-- The result of decoding is the frame, and the bytes that were written are consumed. -/
structure Read (frame : CpxWSFrame) (pay : Nat → Byte) (written : List Byte) (r : WsDecoded) :
    Prop where
  code : r.code = 0
  fin : r.frame.fin = frame.fin
  opcode : r.frame.opcode = frame.opcode
  masked : r.frame.masked = frame.masked
  maskKey : frame.masked = true → r.frame.maskKey = frame.maskKey
  payloadLen : r.frame.payloadLen = frame.payloadLen
  payload : ∃ got, r.frame.payload = some got ∧ ∀ i < frame.payloadLen.toNat,
    (if r.frame.masked then got i ^^^ r.frame.keyByte i else got i) = pay i
  consumed : r.consumed = some (BitVec.ofNat 64 written.length)

variable {pay : Nat → Byte}

theorem header_one : ∃ x : Byte, x < 128 ∧ frame.header.getD 1 0 = bit7 frame.masked ||| x := by
  by_cases hSmall : frame.payloadLen ≤ 125
  · have hByte : frame.payloadLen.toNat ≤ 125 := hSmall
    refine ⟨frame.payloadLen.setWidth 8, ?_, ?_⟩
    · rw [BitVec.lt_def, BitVec.toNat_setWidth]
      show _ < 128
      omega
    · rw [header, if_pos hSmall]
      rfl
  · by_cases hMedium : frame.payloadLen ≤ 65535
    · refine ⟨126, by decide, ?_⟩
      rw [header, if_neg hSmall, if_pos hMedium]
      rfl
    · refine ⟨127, by decide, ?_⟩
      rw [header, if_neg hSmall, if_neg hMedium]
      rfl

/-- The opcode is what the low bits of the first byte say. -/
theorem first_byte (hOpcode : frame.opcode < 16) :
    ((frame.header.getD 0 0 &&& 0x80 != 0) = frame.fin) ∧
      (frame.header.getD 0 0 &&& 0x0F).setWidth 32 = frame.opcode := by
  have hBound : frame.opcode.toNat < 16 := hOpcode
  have hValue : ((frame.opcode &&& 0x0F).setWidth 8 : Byte).toNat = frame.opcode.toNat := by
    have hMask : BitVec.toNat (0x0F : BitVec 32) = 2 ^ 4 - 1 := rfl
    rw [BitVec.toNat_setWidth, BitVec.toNat_and, hMask, Nat.and_two_pow_sub_one_eq_mod]
    omega
  have hLow : ((frame.opcode &&& 0x0F).setWidth 8 : Byte) < 16 := by
    rw [BitVec.lt_def, hValue]
    exact hBound
  rw [header_zero]
  refine ⟨flag_high _ _ (BitVec.lt_def.mpr ((BitVec.lt_def.mp hLow).trans_le (by decide))), ?_⟩
  rw [flag_opcode _ _ hLow]
  apply BitVec.eq_of_toNat_eq
  rw [BitVec.toNat_setWidth, hValue]
  omega

theorem header_key (hMasked : frame.masked = true) (k : Fin 4) :
    frame.header.getD (frame.lengthEnd + k) 0 = frame.maskKey k := by
  have hLead : ∀ lead : List Byte, lead.length = frame.lengthEnd →
      (lead ++ List.ofFn frame.maskKey).getD (frame.lengthEnd + k) 0 = frame.maskKey k := by
    intro lead hLength
    rw [← hLength, getD_append_right _ _ _ _ (Nat.le_add_right _ _), Nat.add_sub_cancel_left,
      getD_eq_getElem _ _ (by rw [length_ofFn]; exact k.isLt), List.getElem_ofFn]
  rw [header, hMasked, if_pos rfl]
  apply hLead
  rw [lengthEnd]
  split
  · rfl
  · split
    · rfl
    · rfl

theorem bytes_body {i : Nat} (hi : i < frame.payloadLen.toNat) :
    (frame.bytes pay).getD (frame.bodyStart + i) 0 =
      if frame.masked then pay i ^^^ frame.keyByte i else pay i := by
  have hBody : i < (frame.body pay).length := by
    rw [body, length_map, length_range]
    exact hi
  rw [bytes, ← header_length, getD_append_right _ _ _ _ (Nat.le_add_right _ _),
    Nat.add_sub_cancel_left, getD_eq_getElem _ _ hBody]
  simp only [body, getElem_map, getElem_range]

/-- The decoder reads the frame from a buffer that starts with all of its bytes. It finds any
shorter one incomplete. -/
theorem decode_bytes (hOpcode : frame.opcode < 16) (hFits : (frame.bytes pay).length < 2 ^ 64)
    (hLike : StartsLike (frame.bytes pay) buf) (hBuf : buf.length < 2 ^ 64) :
    (buf.length < (frame.bytes pay).length → (cpxWsDecodeFrame buf).code = -1) ∧
      ((frame.bytes pay).length ≤ buf.length →
        frame.Read pay (frame.bytes pay) (cpxWsDecodeFrame buf)) := by
  rw [bytes_length] at hFits ⊢
  have hTwice : 2 ≤ frame.lengthEnd := by
    rw [lengthEnd]
    split
    · exact le_refl 2
    · split <;> omega
  have hStart : frame.lengthEnd ≤ frame.bodyStart := Nat.le_add_right _ _
  rw [cpxWsDecodeFrame]
  by_cases hTwo : buf.length < 2
  · rw [if_pos hTwo]
    exact ⟨fun _ => rfl, fun hLong => by omega⟩
  rw [if_neg hTwo]
  have hHead : ∀ {i}, i < frame.header.length → i < buf.length →
      buf.getD i 0 = frame.header.getD i 0 :=
    fun hi hIn => getD_header hi hLike hIn
  have hLong : 2 ≤ frame.header.length := hTwice.trans lengthEnd_le
  obtain ⟨x, hx, hOne⟩ := frame.header_one
  obtain ⟨hFin, hOp⟩ := first_byte hOpcode
  have hMasked : (buf.getD 1 0 &&& 0x80 != 0) = frame.masked := by
    rw [hHead (by omega) (by omega), hOne]
    exact flag_high _ _ hx
  rw [hMasked, hHead (by omega) (by omega), hFin, hOp, decodeLength_eq hLike (by omega)]
  by_cases hShort : buf.length < frame.lengthEnd
  · rw [if_pos hShort]
    exact ⟨fun _ => rfl, fun hAll => by omega⟩
  rw [if_neg hShort]
  have hNat : (BitVec.ofNat 64 frame.bodyStart + frame.payloadLen).toNat =
      frame.bodyStart + frame.payloadLen.toNat := by
    rw [BitVec.toNat_add, BitVec.toNat_ofNat]
    omega
  have hSize : (BitVec.ofNat 64 buf.length).toNat = buf.length := by
    rw [BitVec.toNat_ofNat, Nat.mod_eq_of_lt hBuf]
  have hBody : ∀ i, frame.bodyStart + i < buf.length → i < frame.payloadLen.toNat →
      buf.getD (frame.bodyStart + i) 0 =
        if frame.masked then pay i ^^^ frame.keyByte i else pay i := by
    intro i hIn hi
    rw [hLike _ hIn (by rw [bytes_length]; omega)]
    exact bytes_body hi
  have hShortBody : BitVec.ofNat 64 buf.length <
    BitVec.ofNat 64 frame.bodyStart + frame.payloadLen ↔
      buf.length < frame.bodyStart + frame.payloadLen.toNat := by
    rw [BitVec.lt_def, hNat, hSize]
  have hTotal : BitVec.ofNat 64 frame.bodyStart + frame.payloadLen =
      BitVec.ofNat 64 (frame.bodyStart + frame.payloadLen.toNat) := by
    apply BitVec.eq_of_toNat_eq
    rw [hNat, BitVec.toNat_ofNat, Nat.mod_eq_of_lt hFits]
  cases hMask : frame.masked with
  | true =>
    have hStartEq : frame.bodyStart = frame.lengthEnd + 4 := by
      rw [bodyStart, hMask, if_pos rfl]
    rw [hMask] at hBody
    rw [hStartEq] at hShortBody hBody hTotal ⊢
    simp only [if_true, true_and]
    by_cases hKey : buf.length < frame.lengthEnd + 4
    · rw [if_pos hKey]
      exact ⟨fun _ => rfl, fun hAll => by omega⟩
    rw [if_neg hKey]
    by_cases hRest : buf.length < frame.lengthEnd + 4 + frame.payloadLen.toNat
    · rw [if_pos (hShortBody.mpr hRest)]
      exact ⟨fun _ => rfl, fun hAll => absurd hAll hRest.not_ge⟩
    · rw [if_neg fun hLt => hRest (hShortBody.mp hLt)]
      refine ⟨fun hLt => absurd hLt hRest, fun _ => ?_⟩
      have hKeys : ∀ k : Fin 4, buf.getD (frame.lengthEnd + k) 0 = frame.maskKey k := by
        intro k
        rw [hHead (by rw [header_length]; omega) (by omega)]
        exact header_key hMask k
      exact {
        code := rfl
        fin := rfl
        opcode := rfl
        masked := hMask.symm
        maskKey := fun _ => funext hKeys
        payloadLen := rfl
        payload := by
          refine ⟨_, rfl, fun i hi => ?_⟩
          rw [if_pos rfl, hBody i (by omega) hi, if_pos rfl]
          show pay i ^^^ frame.keyByte i ^^^ buf.getD
            (frame.lengthEnd + (Fin.ofNat 4 i).val) 0 = pay i
          rw [hKeys, BitVec.xor_assoc]
          show pay i ^^^ (frame.keyByte i ^^^ frame.keyByte i) = pay i
          rw [BitVec.xor_self, BitVec.xor_zero]
        consumed := by
          rw [bytes_length, hStartEq, ← hTotal] }
  | false =>
    have hStartEq : frame.bodyStart = frame.lengthEnd := by
      rw [bodyStart, hMask, if_neg Bool.false_ne_true, add_zero]
    rw [hMask] at hBody
    rw [hStartEq] at hShortBody hBody hTotal ⊢
    simp only [Bool.false_eq_true, if_false, false_and]
    by_cases hRest : buf.length < frame.lengthEnd + frame.payloadLen.toNat
    · rw [if_pos (hShortBody.mpr hRest)]
      exact ⟨fun _ => rfl, fun hAll => absurd hAll hRest.not_ge⟩
    · rw [if_neg fun hLt => hRest (hShortBody.mp hLt)]
      refine ⟨fun hLt => absurd hLt hRest, fun _ => ?_⟩
      exact {
        code := rfl
        fin := rfl
        opcode := rfl
        masked := hMask.symm
        maskKey := by
          rw [hMask]
          exact nofun
        payloadLen := rfl
        payload := by
          refine ⟨_, rfl, fun i hi => ?_⟩
          rw [if_neg Bool.false_ne_true, hBody i (by omega) hi, if_neg Bool.false_ne_true]
        consumed := by
          rw [bytes_length, hStartEq, ← hTotal] }

end CpxWSFrame

/-- What a call of the encoder may store, and what the decoder makes of an accepted frame. -/
def FrameSurvives (frame : CpxWSFrame) (outSize : BitVec 64) : Prop :=
  ∀ r, cpxWsEncodeFrame frame outSize = some r →
    r.stored.length ≤ outSize.toNat ∧
      (r.code = 0 → ∀ pay, frame.Carries pay →
        r.outWritten = some (BitVec.ofNat 64 r.stored.length) ∧
          (∀ more, (r.stored ++ more).length < 2 ^ 64 →
            frame.Read pay r.stored (cpxWsDecodeFrame (r.stored ++ more))) ∧
          ∀ k < r.stored.length, (cpxWsDecodeFrame (r.stored.take k)).code = -1)

variable {frame : CpxWSFrame} {outSize : BitVec 64} {pay : Nat → Byte}

theorem need_toNat : (frame.headerLen + frame.payloadLen).toNat =
    (frame.bodyStart + frame.payloadLen.toNat) % 2 ^ 64 := by
  rw [BitVec.toNat_add, CpxWSFrame.headerLen_toNat]

/-- The bytes of an accepted frame are read back. -/
theorem survives_bytes (hOpcode : frame.opcode < 16) (hFits : (frame.bytes pay).length < 2 ^ 64) :
    (∀ more, (frame.bytes pay ++ more).length < 2 ^ 64 →
        frame.Read pay (frame.bytes pay) (cpxWsDecodeFrame (frame.bytes pay ++ more))) ∧
      ∀ k < (frame.bytes pay).length,
        (cpxWsDecodeFrame ((frame.bytes pay).take k)).code = -1 := by
  constructor
  · intro more hBuf
    apply (CpxWSFrame.decode_bytes hOpcode hFits (startsLike_append _ more) hBuf).2
    rw [length_append]
    exact Nat.le_add_right _ _
  · intro k hk
    have hLength : ((frame.bytes pay).take k).length = k := by
      rw [length_take]
      omega
    apply (CpxWSFrame.decode_bytes hOpcode hFits (startsLike_take _ k) (by omega)).1
    rw [hLength]
    exact hk

/-- Without a wrap the encoder stores the frame where there is room for it. -/
theorem survives_of_fits (hOpcode : frame.opcode < 16)
    (hFits : frame.bodyStart + frame.payloadLen.toNat < 2 ^ 64) : FrameSurvives frame outSize := by
  intro r hEncode
  have hNeed : (frame.headerLen + frame.payloadLen).toNat =
      frame.bodyStart + frame.payloadLen.toNat := by
    rw [need_toNat, Nat.mod_eq_of_lt hFits]
  have hWritten : frame.headerLen + frame.payloadLen =
      BitVec.ofNat 64 (frame.bodyStart + frame.payloadLen.toNat) := by
    apply BitVec.eq_of_toNat_eq
    rw [hNeed, BitVec.toNat_ofNat, Nat.mod_eq_of_lt hFits]
  rw [cpxWsEncodeFrame] at hEncode
  by_cases hSmall : frame.headerLen + frame.payloadLen > outSize
  · cases (if_pos hSmall).symm.trans hEncode
    exact ⟨Nat.zero_le _, fun hCode => absurd hCode (by decide)⟩
  replace hEncode := (if_neg hSmall).symm.trans hEncode
  have hRoom : frame.bodyStart + frame.payloadLen.toNat ≤ outSize.toNat := by
    rw [← hNeed]
    exact not_lt.mp hSmall
  cases hPay : frame.payload with
  | some got =>
    rw [hPay] at hEncode
    cases hEncode
    refine ⟨?_, fun _ pay hCarries => ?_⟩
    · show (frame.bytes got).length ≤ _
      rw [CpxWSFrame.bytes_length]
      exact hRoom
    · have hSame : pay = got := by
        rcases hCarries with hSome | ⟨hNone, _⟩
        · rw [hPay] at hSome
          exact (Option.some.inj hSome).symm
        · rw [hPay] at hNone
          cases hNone
      subst hSame
      refine ⟨?_, survives_bytes hOpcode (by rw [CpxWSFrame.bytes_length]; exact hFits)⟩
      show some (frame.headerLen + frame.payloadLen) =
        some (BitVec.ofNat 64 (frame.bytes pay).length)
      rw [hWritten, CpxWSFrame.bytes_length]
  | none =>
    rw [hPay] at hEncode
    by_cases hNull : frame.masked = true ∧ frame.payloadLen ≠ 0
    · cases (if_pos hNull).symm.trans hEncode
    · cases (if_neg hNull).symm.trans hEncode
      refine ⟨?_, fun _ pay hCarries => ?_⟩
      · rw [CpxWSFrame.header_length]
        exact (Nat.le_add_right _ _).trans hRoom
      · have hZero : frame.payloadLen = 0 := by
          rcases hCarries with hSome | ⟨_, hZero⟩
          · rw [hPay] at hSome
            cases hSome
          · exact hZero
        have hBytes : frame.header = frame.bytes pay := by
          rw [CpxWSFrame.bytes, CpxWSFrame.body, hZero]
          exact (append_nil _).symm
        rw [hBytes]
        refine ⟨?_, survives_bytes hOpcode (by rw [CpxWSFrame.bytes_length]; exact hFits)⟩
        rw [hWritten, CpxWSFrame.bytes_length]

/-- A frame survives, and its buffer too, exactly when the sum of its lengths does not wrap, or
wraps to more than the buffer has room for, or there is no payload to store and room for
the header. -/
theorem ws_frame_survives_iff (frame : CpxWSFrame) (outSize : BitVec 64)
    (hOpcode : frame.opcode < 16)
    (hPayload : frame.masked = true → frame.payload = none → frame.payloadLen = 0) :
    FrameSurvives frame outSize ↔
      frame.headerLen.toNat + frame.payloadLen.toNat < 2 ^ 64 ∨
        outSize < frame.headerLen + frame.payloadLen ∨
        frame.payload = none ∧ frame.headerLen ≤ outSize := by
  rw [CpxWSFrame.headerLen_toNat]
  constructor
  · intro hSurvives
    by_contra hNot
    obtain ⟨hWraps, hRest⟩ := not_or.mp hNot
    obtain ⟨hAccepted, hStored⟩ := not_or.mp hRest
    cases hPay : frame.payload with
    | some got =>
      have hEncode : cpxWsEncodeFrame frame outSize = some {
          code := 0, stored := frame.bytes got,
          outWritten := some (frame.headerLen + frame.payloadLen) } := by
        rw [cpxWsEncodeFrame, hPay]
        exact if_neg hAccepted
      have hLe := (hSurvives _ hEncode).1
      rw [CpxWSFrame.bytes_length] at hLe
      omega
    | none =>
      have hRead : ¬(frame.masked = true ∧ frame.payloadLen ≠ 0) :=
        fun hBoth => hBoth.2 (hPayload hBoth.1 hPay)
      have hEncode : cpxWsEncodeFrame frame outSize = some {
          code := 0, stored := frame.header,
          outWritten := some (frame.headerLen + frame.payloadLen) } := by
        rw [cpxWsEncodeFrame, hPay]
        exact (if_neg hAccepted).trans (if_neg hRead)
      have hLe := (hSurvives _ hEncode).1
      rw [CpxWSFrame.header_length, ← CpxWSFrame.headerLen_toNat] at hLe
      exact hStored ⟨hPay, hLe⟩
  · rintro (hFits | hRefused | ⟨hNone, hRoom⟩)
    · exact survives_of_fits hOpcode hFits
    · intro r hEncode
      rw [cpxWsEncodeFrame] at hEncode
      cases (if_pos hRefused).symm.trans hEncode
      exact ⟨Nat.zero_le _, fun hCode => absurd hCode (by decide)⟩
    · by_cases hZero : frame.payloadLen = 0
      · apply survives_of_fits hOpcode
        rw [hZero, ← CpxWSFrame.headerLen_toNat]
        exact frame.headerLen.isLt
      · intro r hEncode
        rw [cpxWsEncodeFrame, hNone] at hEncode
        by_cases hSmall : frame.headerLen + frame.payloadLen > outSize
        · cases (if_pos hSmall).symm.trans hEncode
          exact ⟨Nat.zero_le _, fun hCode => absurd hCode (by decide)⟩
        · replace hEncode := (if_neg hSmall).symm.trans hEncode
          have hRead : ¬(frame.masked = true ∧ frame.payloadLen ≠ 0) :=
            fun hBoth => hBoth.2 (hPayload hBoth.1 hNone)
          cases (if_neg hRead).symm.trans hEncode
          refine ⟨?_, fun _ pay hCarries => ?_⟩
          · rw [CpxWSFrame.header_length, ← CpxWSFrame.headerLen_toNat]
            exact hRoom
          · rcases hCarries with hSome | ⟨_, hLen⟩
            · rw [hNone] at hSome
              cases hSome
            · exact absurd hLen hZero

/-- A masked text frame of two bytes. -/
def greeting : CpxWSFrame where
  fin := true
  opcode := 1
  masked := true
  payloadLen := 2
  maskKey := fun k => BitVec.ofNat 8 (k + 1)
  payload := some fun i => BitVec.ofNat 8 (72 + 33 * i)

theorem ws_frame_survives_greeting :
    FrameSurvives greeting 8 ∧
      (cpxWsEncodeFrame greeting 8).map WsEncoded.stored =
        some [0x81, 0x82, 1, 2, 3, 4, 0x49, 0x6B] :=
  ⟨(ws_frame_survives_iff greeting 8 (by decide) nofun).mpr
    (Or.inl (by decide)), by decide⟩

/-- A frame that says that its payload is five bytes short of all there can be. -/
def endlessFrame : CpxWSFrame where
  fin := true
  opcode := 2
  masked := false
  payloadLen := -5
  maskKey := fun _ => 0
  payload := none

theorem ws_encoder_writes_past_buffer : ¬FrameSurvives endlessFrame 5 := by
  intro hSurvives
  have hLe := (hSurvives { code := 0, stored := endlessFrame.header, outWritten := some 5 }
    (by decide)).1
  exact absurd hLe (by decide)

end Casprix.Net
