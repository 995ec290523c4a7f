import Mathlib.Data.Nat.Bitwise
import Casprix.Net.WebSocket

/-! Which bytes of its buffer the decoder reads, and which it reports. -/
namespace Casprix.Net

open Library (Byte)

section

variable (inBuf : List Byte)

def isMasked : Bool := inBuf.getD 1 0 &&& 0x80 != 0

/-- The length in the second byte, or the mark of a longer one. -/
def shortLength : BitVec 64 := (inBuf.getD 1 0 &&& 0x7F).setWidth 64

/-- The length in the eight bytes after the first two. -/
def longLength : BitVec 64 :=
  (List.range 8).foldl (fun len i => len <<< 8 ||| (inBuf.getD (2 + i) 0).setWidth 64) 0

/-- The places of the buffer that a call reads. -/
def cpxWsReads : List Nat :=
  if inBuf.length < 2 then []
  else
    [0, 1] ++
      (if shortLength inBuf = 126 then if inBuf.length < 4 then [] else [2, 3]
      else if shortLength inBuf = 127 then
        if inBuf.length < 10 then [] else (List.range 8).map (2 + ·)
      else []) ++
      match decodeLength inBuf with
      | none => []
      | some (_, pos) =>
        if isMasked inBuf then
          if inBuf.length < pos + 4 then [] else (List.range 4).map (pos + ·)
        else []

/-- Where the payload starts after a length that ends at `pos`. -/
def payloadStart (pos : Nat) : Nat := if isMasked inBuf then pos + 4 else pos

/-- Every byte that is read is in the buffer, and so is the payload that is reported. Of an
accepted buffer at least the two bytes of the shortest header are consumed. -/
def StaysInside : Prop :=
  (∀ i ∈ cpxWsReads inBuf, i < inBuf.length) ∧
    ((cpxWsDecodeFrame inBuf).code = 0 → ∃ len pos consumed,
      decodeLength inBuf = some (len, pos) ∧
        (cpxWsDecodeFrame inBuf).frame.payload =
          some (fun i => inBuf.getD (payloadStart inBuf pos + i) 0) ∧
        payloadStart inBuf pos + (cpxWsDecodeFrame inBuf).frame.payloadLen.toNat ≤
          inBuf.length ∧
        (cpxWsDecodeFrame inBuf).consumed = some consumed ∧
        2 ≤ consumed.toNat ∧ consumed.toNat ≤ inBuf.length)

/-- The header is complete, and tells of a payload that ends past the last address. -/
def LengthWraps : Prop :=
  shortLength inBuf = 127 ∧ payloadStart inBuf 10 ≤ inBuf.length ∧
    2 ^ 64 ≤ payloadStart inBuf 10 + (longLength inBuf).toNat

end

variable {inBuf : List Byte} {len : BitVec 64} {pos : Nat}

theorem payloadStart_ge (pos : Nat) : pos ≤ payloadStart inBuf pos := by
  unfold payloadStart
  split <;> omega

theorem setWidth_toNat_lt (b : Byte) : (b.setWidth 64).toNat < 2 ^ 8 := by
  rw [BitVec.toNat_setWidth, Nat.mod_eq_of_lt (by omega)]
  exact b.isLt

/-- Only a length of eight bytes may be large. -/
theorem decodeLength_cases (hTwo : 2 ≤ inBuf.length) (h : decodeLength inBuf = some (len, pos)) :
    2 ≤ pos ∧ pos ≤ inBuf.length ∧
      (len.toNat < 2 ^ 16 ∧ pos ≤ 4 ∧ shortLength inBuf ≠ 127 ∨
        len = longLength inBuf ∧ pos = 10 ∧ shortLength inBuf = 127) := by
  change (if shortLength inBuf = 126 then _ else if shortLength inBuf = 127 then _ else
    some (shortLength inBuf, 2)) = _ at h
  split_ifs at h with hMedium hShort hLong hShort
  · cases h
    refine ⟨by omega, by omega, .inl ⟨?_, le_refl 4, by rw [hMedium]; decide⟩⟩
    rw [BitVec.toNat_or, BitVec.toNat_shiftLeft]
    have hHigh := setWidth_toNat_lt (inBuf.getD 2 0)
    have hLow := setWidth_toNat_lt (inBuf.getD 3 0)
    refine Nat.or_lt_two_pow ?_ (by omega)
    rw [Nat.shiftLeft_eq, Nat.mod_eq_of_lt (by omega)]
    omega
  · cases h
    exact ⟨by omega, by omega, .inr ⟨rfl, rfl, hLong⟩⟩
  · cases h
    have hLow := setWidth_toNat_lt (inBuf.getD 1 0 &&& 0x7F)
    exact ⟨le_refl 2, hTwo, .inl ⟨by unfold shortLength; omega, by omega, hLong⟩⟩

theorem reads_inside (inBuf : List Byte) : ∀ i ∈ cpxWsReads inBuf, i < inBuf.length := by
  intro i hi
  unfold cpxWsReads at hi
  split at hi
  · cases hi
  next hTwo =>
    rw [not_lt] at hTwo
    rcases List.mem_append.mp hi with hi | hi
    · rcases List.mem_append.mp hi with hi | hi
      · simp only [List.mem_cons, List.not_mem_nil, or_false] at hi
        omega
      · split_ifs at hi
        · cases hi
        · simp only [List.mem_cons, List.not_mem_nil, or_false] at hi
          omega
        · cases hi
        · simp only [List.mem_map, List.mem_range] at hi
          omega
        · cases hi
    · generalize decodeLength inBuf = found at hi ⊢
      cases found with
      | none =>
        cases hi
      | some result =>
        dsimp only at hi
        split_ifs at hi
        · cases hi
        · simp only [List.mem_map, List.mem_range] at hi
          omega
        · cases hi

section

variable {inBuf' : List Byte} (hLength : inBuf'.length = inBuf.length)
  (hReads : ∀ i ∈ cpxWsReads inBuf, inBuf'.getD i 0 = inBuf.getD i 0)
include hLength hReads

theorem decodeLength_congr (hTwo : 2 ≤ inBuf.length) :
    decodeLength inBuf' = decodeLength inBuf := by
  have hFirst : inBuf'.getD 1 0 = inBuf.getD 1 0 :=
    hReads 1 (by simp [cpxWsReads, not_lt.mpr hTwo])
  have hByte (i : Nat) (hRead : i ∈ if shortLength inBuf = 126 then
        if inBuf.length < 4 then [] else [2, 3]
      else if shortLength inBuf = 127 then
        if inBuf.length < 10 then [] else (List.range 8).map (2 + ·)
      else []) : inBuf'.getD i 0 = inBuf.getD i 0 := by
    refine hReads i ?_
    rw [cpxWsReads, if_neg (not_lt.mpr hTwo)]
    exact List.mem_append_left _ (List.mem_append_right _ hRead)
  unfold shortLength at hByte
  unfold decodeLength
  rw [hFirst, hLength]
  dsimp only
  split_ifs with hMedium hShort hLong hShort
  · rfl
  · rw [if_pos hMedium, if_neg hShort] at hByte
    rw [hByte 2 (by decide), hByte 3 (by decide)]
  · rfl
  · rw [if_neg hMedium, if_pos hLong, if_neg hShort] at hByte
    rw [List.foldl_ext _ _ _ fun len i hi => by rw [hByte (2 + i) (List.mem_map_of_mem hi)]]
  · rfl

/-- What the decoder answers depends on the bytes of `cpxWsReads` only. The payload is
reported as a pointer and not read. -/
theorem cpxWsDecodeFrame_congr :
    (cpxWsDecodeFrame inBuf').code = (cpxWsDecodeFrame inBuf).code ∧
      (cpxWsDecodeFrame inBuf').consumed = (cpxWsDecodeFrame inBuf).consumed ∧
      { (cpxWsDecodeFrame inBuf').frame with payload := none } =
        { (cpxWsDecodeFrame inBuf).frame with payload := none } := by
  by_cases hTwo : inBuf.length < 2
  · have hTwo' : inBuf'.length < 2 := hLength ▸ hTwo
    rw [cpxWsDecodeFrame, cpxWsDecodeFrame, if_pos hTwo, if_pos hTwo']
    exact ⟨rfl, rfl, rfl⟩
  have hFirst : inBuf'.getD 0 0 = inBuf.getD 0 0 := hReads 0 (by simp [cpxWsReads, hTwo])
  have hSecond : inBuf'.getD 1 0 = inBuf.getD 1 0 := hReads 1 (by simp [cpxWsReads, hTwo])
  have hSame := decodeLength_congr hLength hReads (not_lt.mp hTwo)
  unfold cpxWsDecodeFrame
  rw [hLength, if_neg hTwo, if_neg hTwo, hSame, hFirst, hSecond]
  cases hDecoded : decodeLength inBuf with
  | none => exact ⟨rfl, rfl, rfl⟩
  | some result =>
    obtain ⟨len, pos⟩ := result
    dsimp only
    cases hMask : inBuf.getD 1 0 &&& 0x80 != 0 with
    | false =>
      simp only [Bool.false_eq_true, false_and, if_false]
      split_ifs
      all_goals exact ⟨rfl, rfl, rfl⟩
    | true =>
      simp only [true_and, if_true]
      split_ifs with hShort hFar
      · exact ⟨rfl, rfl, rfl⟩
      all_goals
        have hKey (k : Fin 4) : inBuf'.getD (pos + k) 0 = inBuf.getD (pos + k) 0 := by
          refine hReads (pos + k) ?_
          rw [cpxWsReads, if_neg hTwo, hDecoded]
          refine List.mem_append_right _ ?_
          dsimp only
          rw [isMasked, if_pos hMask, if_neg hShort]
          exact List.mem_map_of_mem (List.mem_range.mpr k.isLt)
        simp only [hKey, and_self]

end

theorem cpxWsDecodeFrame_eq (hTwo : 2 ≤ inBuf.length) (h : decodeLength inBuf = some (len, pos))
    (hKey : payloadStart inBuf pos ≤ inBuf.length) :
    (cpxWsDecodeFrame inBuf).frame.payloadLen = len ∧
      ((cpxWsDecodeFrame inBuf).code = 0 ↔
        BitVec.ofNat 64 (payloadStart inBuf pos) + len ≤ BitVec.ofNat 64 inBuf.length) ∧
      ((cpxWsDecodeFrame inBuf).code = 0 →
        (cpxWsDecodeFrame inBuf).frame.payload =
          some (fun i => inBuf.getD (payloadStart inBuf pos + i) 0) ∧
        (cpxWsDecodeFrame inBuf).consumed =
          some (BitVec.ofNat 64 (payloadStart inBuf pos) + len)) := by
  unfold cpxWsDecodeFrame
  unfold payloadStart isMasked at *
  rw [if_neg (not_lt.mpr hTwo), h]
  cases hMask : inBuf.getD 1 0 &&& 0x80 != 0 with
  | false =>
    simp only [Bool.false_eq_true, false_and, if_false]
    split_ifs with hShort
    · exact ⟨rfl, iff_of_false (by simp) (BitVec.not_le.mpr hShort), fun hNo => by cases hNo⟩
    · exact ⟨rfl, iff_of_true rfl (BitVec.not_lt.mp hShort), fun _ => ⟨rfl, rfl⟩⟩
  | true =>
    rw [hMask, if_pos rfl] at hKey
    simp only [true_and, if_true, if_neg (not_lt.mpr hKey)]
    split_ifs with hShort
    · exact ⟨rfl, iff_of_false (by simp) (BitVec.not_le.mpr hShort), fun hNo => by cases hNo⟩
    · exact ⟨rfl, iff_of_true rfl (BitVec.not_lt.mp hShort), fun _ => ⟨rfl, rfl⟩⟩

theorem header_of_code (h : (cpxWsDecodeFrame inBuf).code = 0) :
    2 ≤ inBuf.length ∧ ∃ len pos, decodeLength inBuf = some (len, pos) ∧
      payloadStart inBuf pos ≤ inBuf.length := by
  unfold cpxWsDecodeFrame at h
  split at h
  · cases h
  next hTwo =>
    rw [not_lt] at hTwo
    cases hLength : decodeLength inBuf with
    | none =>
      rw [hLength] at h
      cases h
    | some result =>
      obtain ⟨len, pos⟩ := result
      rw [hLength] at h
      refine ⟨hTwo, len, pos, rfl, ?_⟩
      have hPos := (decodeLength_cases hTwo hLength).2.1
      unfold payloadStart isMasked
      dsimp only at h
      split_ifs with hMask
      · rw [hMask] at h
        by_contra hShort
        rw [if_pos ⟨rfl, not_le.mp hShort⟩] at h
        cases h
      · exact hPos

/-- The decoder stays inside its buffer exactly if the announced payload does not wrap around. -/
theorem staysInside_iff (hSize : inBuf.length < 2 ^ 64) :
    StaysInside inBuf ↔ ¬ LengthWraps inBuf := by
  have hOfLength : (BitVec.ofNat 64 inBuf.length).toNat = inBuf.length := by
    rw [BitVec.toNat_ofNat, Nat.mod_eq_of_lt hSize]
  constructor
  · rintro ⟨-, hInside⟩ ⟨hLong, hHeader, hWraps⟩
    have hTen : 10 ≤ inBuf.length := (payloadStart_ge 10).trans hHeader
    have hLength : decodeLength inBuf = some (longLength inBuf, 10) := by
      change (if shortLength inBuf = 126 then _ else if shortLength inBuf = 127 then _ else _) = _
      rw [if_neg (by rw [hLong]; decide), if_pos hLong, if_neg (not_lt.mpr hTen)]
      rfl
    obtain ⟨hLen, hCode, -⟩ := cpxWsDecodeFrame_eq (by omega) hLength hHeader
    have hAccepted : (cpxWsDecodeFrame inBuf).code = 0 := by
      rw [hCode, BitVec.le_def, hOfLength, BitVec.toNat_add, BitVec.toNat_ofNat]
      omega
    obtain ⟨len, pos, consumed, hSame, -, hEnd, -⟩ := hInside hAccepted
    cases Option.some.inj (hLength.symm.trans hSame)
    rw [hLen] at hEnd
    omega
  · intro hNot
    refine ⟨reads_inside inBuf, fun hAccepted => ?_⟩
    obtain ⟨hTwo, len, pos, hLength, hHeader⟩ := header_of_code hAccepted
    obtain ⟨hLen, hCode, hReport⟩ := cpxWsDecodeFrame_eq hTwo hLength hHeader
    obtain ⟨hPayload, hConsumed⟩ := hReport hAccepted
    obtain ⟨hPos, -, hKinds⟩ := decodeLength_cases hTwo hLength
    have hStart : pos ≤ payloadStart inBuf pos := payloadStart_ge pos
    have hNoWrap : payloadStart inBuf pos + len.toNat < 2 ^ 64 := by
      rcases hKinds with ⟨hSmall, hPosLe, -⟩ | ⟨rfl, rfl, hLong⟩
      · have : payloadStart inBuf pos ≤ 8 := by unfold payloadStart; split <;> omega
        omega
      · exact not_le.mp fun hWraps => hNot ⟨hLong, hHeader, hWraps⟩
    have hSum : (BitVec.ofNat 64 (payloadStart inBuf pos) + len).toNat =
        payloadStart inBuf pos + len.toNat := by
      rw [BitVec.toNat_add, BitVec.toNat_ofNat]
      omega
    have hFits := BitVec.le_def.mp (hCode.mp hAccepted)
    rw [hSum, hOfLength] at hFits
    exact ⟨len, pos, _, hLength, hPayload, hLen ▸ hFits, hConsumed, by omega, by omega⟩

/-- A short masked message, with the first byte of the next one behind it. -/
theorem staysInside_masked :
    StaysInside [0x81, 0x82, 0x01, 0x02, 0x03, 0x04, 0x49, 0x6B, 0x81] :=
  (staysInside_iff (by decide)).mpr (by unfold LengthWraps; decide)

/-- A length of 2^64 - 10 makes the sum zero, so the frame is accepted and nothing consumed. -/
theorem hugeLength_not_staysInside :
    ¬ StaysInside [0x82, 0x7F, 0xFF, 0xFF, 0xFF, 0xFF, 0xFF, 0xFF, 0xFF, 0xF6] ∧
      (cpxWsDecodeFrame [0x82, 0x7F, 0xFF, 0xFF, 0xFF, 0xFF, 0xFF, 0xFF, 0xFF, 0xF6]).consumed =
        some 0 := by
  refine ⟨fun h => ?_, by decide⟩
  obtain ⟨len, pos, consumed, -, -, -, hConsumed, hTwo, -⟩ := h.2 (by decide)
  have hZero : some 0 = some consumed := hConsumed
  cases hZero
  exact absurd hTwo (by decide)

end Casprix.Net
