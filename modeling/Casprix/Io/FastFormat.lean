import Casprix.Library.Bytes

/-! The formatter: text that is appended to a buffer of fixed capacity and cut at its end. -/
namespace Casprix.Io

open Function List Library

/-- The ASCII bytes of a text. -/
def text (s : List Char) : List Byte := s.map fun c => BitVec.ofNat 8 c.toNat

/-- A buffer over memory that somebody else owns. -/
structure CpxFmtBuffer where
  data : Nat → Byte
  cap : Nat
  len : Nat
  truncated : Bool

/-- The two digits of each number below 100. -/
def kDigits2 : List Byte := text
  ("00010203040506070809" ++
   "10111213141516171819" ++
   "20212223242526272829" ++
   "30313233343536373839" ++
   "40414243444546474849" ++
   "50515253545556575859" ++
   "60616263646566676869" ++
   "70717273747576777879" ++
   "80818283848586878889" ++
   "90919293949596979899").toList

def kHexDigits : List Byte := text "0123456789abcdef".toList

/-- What the memory holds behind `memcpy(data + at, s, s.length)`. -/
def copied (data : Nat → Byte) (start : Nat) (s : List Byte) : Nat → Byte := fun i =>
  if start ≤ i then (s[i - start]?).getD (data i) else data i

def cpxFmtInit (storage : Nat → Byte) (cap : Nat) : CpxFmtBuffer where
  data := if cap > 0 then update storage 0 0 else storage
  cap := cap
  len := 0
  truncated := false

variable (b : CpxFmtBuffer)

def cpxFmtPutc (c : Byte) : CpxFmtBuffer :=
  if b.len + 1 < b.cap then
    { b with data := update (update b.data b.len c) (b.len + 1) 0, len := b.len + 1 }
  else { b with truncated := true }

/-- The `len` bytes at `s`, which may be null. -/
def cpxFmtAppendMem (s : Option (List Byte)) : CpxFmtBuffer :=
  match s with
  | none => b
  | some s =>
    if s.length = 0 then b
    else
      let avail := if b.cap > b.len + 1 then b.cap - b.len - 1 else 0
      let n := if s.length < avail then s.length else avail
      let filled :=
        if n > 0 then
          { b with data := update (copied b.data b.len (s.take n)) (b.len + n) 0, len := b.len + n }
        else b
      if n ≠ s.length then { filled with truncated := true } else filled

/-- A string ends at its first NUL. -/
def cpxFmtAppendCstr (s : Option (List Byte)) : CpxFmtBuffer :=
  match s with
  | none => cpxFmtAppendMem b (some (text "(null)".toList))
  | some s => cpxFmtAppendMem b (some (s.takeWhile (· != 0)))

/-- `v / 100`: below `2 ^ 32` by multiplication with a reciprocal. -/
def quotient100 (v : BitVec 64) : BitVec 64 :=
  if v ≤ 0xFFFFFFFF#64 then ((v.setWidth 32).setWidth 64 * 0x51EB851F#64) >>> 37
  else v / 100#64

/-- The digits `kDigits2[r * 2]` and `kDigits2[r * 2 + 1]`. -/
def digitPair (r : BitVec 32) : List Byte :=
  [kDigits2.getD (r * 2).toNat 0, kDigits2.getD (r * 2 + 1).toNat 0]

theorem quotient100_toNat (v : BitVec 64) : (quotient100 v).toNat = v.toNat / 100 := by
  unfold quotient100
  split
  · next hSmall =>
    have hLt : v.toNat ≤ 0xFFFFFFFF := BitVec.le_def.mp hSmall
    have hLow : v.toNat % 2 ^ 32 = v.toNat := Nat.mod_eq_of_lt (by omega)
    have hWide : ((v.setWidth 32).setWidth 64).toNat = v.toNat := by
      rw [BitVec.toNat_setWidth, BitVec.toNat_setWidth, hLow, Nat.mod_eq_of_lt v.isLt]
    have hProduct : ((v.setWidth 32).setWidth 64 * 0x51EB851F#64).toNat = v.toNat * 0x51EB851F := by
      rw [BitVec.toNat_mul, hWide, BitVec.toNat_ofNat]
      omega
    rw [BitVec.toNat_ushiftRight, hProduct, Nat.shiftRight_eq_div_pow]
    omega
  · exact BitVec.toNat_udiv

/-- The bytes of `tmp` from `p` on, in front of which the digits of `v` go. -/
def decimalLoop (v : BitVec 64) (tmp : List Byte) : BitVec 64 × List Byte :=
  if h : v ≥ 100#64 then
    let q := quotient100 v
    let r := (v - q * 100#64).setWidth 32
    have : (quotient100 v).toNat < v.toNat := by
      have hGe : 100 ≤ v.toNat := BitVec.le_def.mp h
      rw [quotient100_toNat]
      omega
    decimalLoop q (digitPair r ++ tmp)
  else (v, tmp)
termination_by v.toNat

def cpxFmtAppendU64 (v : BitVec 64) : CpxFmtBuffer :=
  let (v, tmp) := decimalLoop v []
  let tmp :=
    if v < 10#64 then BitVec.ofNat 8 (48 + v.toNat) :: tmp else digitPair (v.setWidth 32) ++ tmp
  cpxFmtAppendMem b (some tmp)

/-- A negative number is its sign and its absolute value, where there is one. -/
def cpxFmtAppendI64 (v : BitVec 64) : CpxFmtBuffer :=
  if v.toInt < 0 then
    let b := cpxFmtPutc b 45
    if v = BitVec.intMin 64 then cpxFmtAppendMem b (some (text "9223372036854775808".toList))
    else cpxFmtAppendU64 b (-v)
  else cpxFmtAppendU64 b v

def hexLoop (v : BitVec 64) (tmp : List Byte) : List Byte :=
  let tmp := kHexDigits.getD (v &&& 0xF#64).toNat 0 :: tmp
  if v >>> 4 = 0 then tmp else hexLoop (v >>> 4) tmp
termination_by v.toNat
decreasing_by
  rename_i hMore
  have hNe : (v >>> 4).toNat ≠ 0 := fun hZero => hMore (BitVec.eq_of_toNat_eq hZero)
  rw [BitVec.toNat_ushiftRight, Nat.shiftRight_eq_div_pow] at hNe ⊢
  omega

def cpxFmtAppendHexU64 (v : BitVec 64) (withPrefix : Bool) : CpxFmtBuffer :=
  let tmp := hexLoop v []
  let b := if withPrefix then cpxFmtAppendMem b (some (text "0x".toList)) else b
  cpxFmtAppendMem b (some tmp)

inductive CpxFmtCall where
  | putc (c : Byte)
  | appendMem (s : Option (List Byte))
  | appendCstr (s : Option (List Byte))
  | appendU64 (v : BitVec 64)
  | appendI64 (v : BitVec 64)
  | appendHexU64 (v : BitVec 64) (withPrefix : Bool)

def CpxFmtCall.run : CpxFmtCall → CpxFmtBuffer
  | .putc c => cpxFmtPutc b c
  | .appendMem s => cpxFmtAppendMem b s
  | .appendCstr s => cpxFmtAppendCstr b s
  | .appendU64 v => cpxFmtAppendU64 b v
  | .appendI64 v => cpxFmtAppendI64 b v
  | .appendHexU64 v withPrefix => cpxFmtAppendHexU64 b v withPrefix

/-- The decimal text of a number. -/
def decimal (n : Nat) : List Byte := text (Nat.toDigits 10 n)

def signedDecimal (n : Int) :
    List Byte := if n < 0 then 45 :: decimal n.natAbs else decimal n.natAbs

/-- The hexadecimal text of a number, with lower-case letters. -/
def hexadecimal (n : Nat) : List Byte := text (Nat.toDigits 16 n)

/-- All that a call has to append. -/
def CpxFmtCall.fullText : CpxFmtCall → List Byte
  | .putc c => [c]
  | .appendMem s => s.getD []
  | .appendCstr s => (s.getD (text "(null)".toList)).takeWhile (· != 0)
  | .appendU64 v => decimal v.toNat
  | .appendI64 v => signedDecimal v.toInt
  | .appendHexU64 v withPrefix =>
    (if withPrefix then text "0x".toList else []) ++ hexadecimal v.toNat

theorem text_append (s t : List Char) : text (s ++ t) = text s ++ text t := map_append

section

set_option maxRecDepth 4096 in
theorem digitPair_eq (r : Nat) (h : r < 100) :
    digitPair (BitVec.ofNat 32 r) = text [(r / 10).digitChar, (r % 10).digitChar] := by
  have hAll : ∀ r < 100, digitPair (BitVec.ofNat 32 r) =
      text [(r / 10).digitChar, (r % 10).digitChar] := by
    decide
  exact hAll r h

theorem hexDigit_eq (n : Nat) (h : n < 16) : kHexDigits.getD n 0 :: [] = text [n.digitChar] := by
  have hAll : ∀ n < 16, kHexDigits.getD n 0 :: [] = text [n.digitChar] := by decide
  exact hAll n h

theorem digit_eq (n : Nat) (h : n < 10) : [BitVec.ofNat 8 (48 + n)] = text [n.digitChar] := by
  have hAll : ∀ n < 10, [BitVec.ofNat 8 (48 + n)] = text [n.digitChar] := by decide
  exact hAll n h

/-- The last two digits of a number with at least three. -/
theorem decimal_of_ge {n : Nat} (h : 100 ≤ n) :
    decimal n = decimal (n / 100) ++ text [(n % 100 / 10).digitChar, (n % 100 % 10).digitChar] := by
  rw [decimal, Nat.toDigits_of_base_le (by omega) (by omega : 10 ≤ n),
    Nat.toDigits_of_base_le (by omega) (by omega : 10 ≤ n / 10),
      Nat.div_div_eq_div_mul, append_assoc,
    text_append, decimal]
  have hTens : n / 10 % 10 = n % 100 / 10 := by omega
  have hOnes : n % 10 = n % 100 % 10 := by omega
  rw [hTens, hOnes]
  rfl

theorem decimal_of_pair {n : Nat} (h : 10 ≤ n) (hLt : n < 100) :
    decimal n = text [(n / 10).digitChar, (n % 10).digitChar] := by
  rw [decimal, Nat.toDigits_of_base_le (by omega) h, Nat.toDigits_of_lt_base (by omega)]
  rfl

theorem decimal_of_lt {n : Nat} (h : n < 10) : decimal n = text [n.digitChar] := by
  rw [decimal, Nat.toDigits_of_lt_base h]

theorem remainder100 (v : BitVec 64) :
    (v - quotient100 v * 100#64).setWidth 32 = BitVec.ofNat 32 (v.toNat % 100) := by
  apply BitVec.eq_of_toNat_eq
  have hQuotient := quotient100_toNat v
  have hProduct : (quotient100 v * 100#64).toNat = v.toNat / 100 * 100 := by
    rw [BitVec.toNat_mul, hQuotient, BitVec.toNat_ofNat]
    omega
  rw [BitVec.toNat_setWidth, BitVec.toNat_sub_of_le (BitVec.le_def.mpr (by omega)), hProduct,
    BitVec.toNat_ofNat]
  omega

/-- What is left of the number, and the digits of the whole number in front of the bytes that
were there. -/
theorem decimalLoop_spec (v : BitVec 64) (tmp : List Byte) : (decimalLoop v tmp).1.toNat < 100 ∧
    decimal (decimalLoop v tmp).1.toNat ++ (decimalLoop v tmp).2 = decimal v.toNat ++ tmp := by
  induction v, tmp using decimalLoop.induct with
  | case1 v tmp hMore q r hLess ih =>
    have hGe : 100 ≤ v.toNat := BitVec.le_def.mp hMore
    rw [decimalLoop, dif_pos hMore]
    refine ⟨ih.1, ih.2.trans ?_⟩
    rw [show r = BitVec.ofNat 32 (v.toNat % 100) from remainder100 v,
      digitPair_eq _ (Nat.mod_lt _ (by omega)), decimal_of_ge hGe, append_assoc,
      show q.toNat = v.toNat / 100 from quotient100_toNat v]
  | case2 v tmp hDone =>
    rw [decimalLoop, dif_neg hDone]
    exact ⟨Nat.lt_of_not_le fun hGe => hDone (BitVec.le_def.mpr hGe), rfl⟩

theorem cpxFmtAppendU64_eq (v : BitVec 64) :
    cpxFmtAppendU64 b v = cpxFmtAppendMem b (some (decimal v.toNat)) := by
  obtain ⟨hLt, hText⟩ := decimalLoop_spec v []
  rw [append_nil] at hText
  unfold cpxFmtAppendU64
  dsimp only
  rw [← hText]
  congr 2
  split
  · next hSmall =>
    have hTen : (decimalLoop v []).1.toNat < 10 := BitVec.lt_def.mp hSmall
    rw [decimal_of_lt hTen, ← digit_eq _ hTen]
    rfl
  · next hLarge =>
    have hTen : 10 ≤ (decimalLoop v []).1.toNat :=
      Nat.le_of_not_lt fun hSmall => hLarge (BitVec.lt_def.mpr hSmall)
    have hRest : (decimalLoop v []).1.setWidth 32 = BitVec.ofNat 32 (decimalLoop v []).1.toNat := by
      apply BitVec.eq_of_toNat_eq
      rw [BitVec.toNat_setWidth, BitVec.toNat_ofNat]
    rw [hRest, digitPair_eq _ hLt, decimal_of_pair hTen hLt]

theorem hexLoop_eq (v : BitVec 64) (tmp : List Byte) :
    hexLoop v tmp = hexadecimal v.toNat ++ tmp := by
  induction v, tmp using hexLoop.induct with
  | case1 v tmp hDone =>
    have hLt : v.toNat < 16 := by
      have hZero := congrArg BitVec.toNat hDone
      rw [BitVec.toNat_ushiftRight, Nat.shiftRight_eq_div_pow] at hZero
      have : v.toNat / 2 ^ 4 = 0 := hZero
      omega
    have hLow : (v &&& 0xF#64).toNat = v.toNat := by
      rw [BitVec.toNat_and]
      exact (Nat.and_two_pow_sub_one_eq_mod _ 4).trans (Nat.mod_eq_of_lt hLt)
    rw [hexLoop, if_pos hDone, hLow, hexadecimal,
      Nat.toDigits_of_lt_base hLt, ← hexDigit_eq _ hLt]
    rfl
  | case2 v tmp tmp' hMore ih =>
    have hHigh : (v >>> 4).toNat = v.toNat / 16 := by
      rw [BitVec.toNat_ushiftRight, Nat.shiftRight_eq_div_pow]
    have hLow : (v &&& 0xF#64).toNat = v.toNat % 16 := by
      rw [BitVec.toNat_and]
      exact Nat.and_two_pow_sub_one_eq_mod _ 4
    have hGe : 16 ≤ v.toNat := by
      by_contra hSmall
      apply hMore
      apply BitVec.eq_of_toNat_eq
      rw [hHigh]
      exact Nat.div_eq_of_lt (Nat.lt_of_not_le hSmall)
    rw [hexLoop, if_neg hMore, ih, hHigh, hexadecimal, hexadecimal,
      Nat.toDigits_of_base_le (by omega) hGe, text_append, append_assoc]
    congr 1
    show kHexDigits.getD (v &&& 0xF#64).toNat 0 :: tmp = _
    rw [hLow, ← hexDigit_eq _ (Nat.mod_lt _ (by omega))]
    rfl

/-- The digits that `cpx_fmt_append_u64` writes fit its `tmp[32]`, and those that
`cpx_fmt_append_hex_u64` writes its `tmp[16]`. -/
theorem length_digits_le (v : BitVec 64) :
    (decimal v.toNat).length ≤ 32 ∧ (hexLoop v []).length ≤ 16 := by
  have hLt := v.isLt
  rw [hexLoop_eq, append_nil, decimal, hexadecimal, text, text, length_map, length_map,
    Nat.length_toDigits_le_iff (by decide) (by decide),
    Nat.length_toDigits_le_iff (by decide) (by decide)]
  omega

end

namespace CpxFmtBuffer

/-- The text in the buffer. -/
def contents : List Byte := (List.range b.len).map b.data

/-- The buffer has been given a text, over memory that held `storage`. -/
structure Holds (storage : Nat → Byte) (cap : Nat) (given : List Byte)
    (b : CpxFmtBuffer) : Prop where
  capacity : b.cap = cap
  contents : b.contents = given.take (cap - 1)
  terminated : 0 < cap → b.data b.len = 0
  truncated : b.truncated = true ↔ cap - 1 < given.length
  outside : ∀ i, cap ≤ i → b.data i = storage i

variable {storage : Nat → Byte} {cap : Nat} {given s : List Byte} {b : CpxFmtBuffer}

theorem Holds.length (h : Holds storage cap given b) : b.len = min (cap - 1) given.length := by
  have hLength := congrArg List.length h.contents
  rw [CpxFmtBuffer.contents, length_map, length_range, length_take] at hLength
  exact hLength

theorem copied_of_lt {data : Nat → Byte} {start i : Nat} (h : i < start) :
    copied data start s i = data i :=
  if_neg h.not_ge

theorem copied_of_ge {data : Nat → Byte} {start i : Nat} (h : start + s.length ≤ i) :
    copied data start s i = data i := by
  rw [copied, if_pos (by omega), getElem?_eq_none (by omega), Option.getD_none]

/-- The buffer behind its text, when it takes `s` as a whole. -/
def extended (b : CpxFmtBuffer) (s : List Byte) : CpxFmtBuffer :=
  { b with data := update (copied b.data b.len s) (b.len + s.length) 0, len := b.len + s.length }

theorem extended_contents : (b.extended s).contents = b.contents ++ s := by
  show (List.range (b.len + s.length)).map (update (copied b.data b.len s) (b.len + s.length) 0) =
    (List.range b.len).map b.data ++ s
  rw [range_add, map_append, map_map]
  congr 1
  · apply map_congr_left
    intro i hi
    have hLt := mem_range.mp hi
    rw [update_of_ne (by omega), copied_of_lt hLt]
  · apply ext_getElem (by rw [length_map, length_range])
    intro i hi hs
    rw [getElem_map, getElem_range, comp_apply, update_of_ne (by omega), copied, if_pos (by omega),
      Nat.add_sub_cancel_left, getElem?_eq_getElem hs, Option.getD_some]

theorem Holds.extended (h : Holds storage cap given b) (hSome : s ≠ [])
    (hRoom : s.length ≤ b.cap - 1 - b.len) : Holds storage cap (given ++ s) (b.extended s) := by
  have hPos := length_pos_iff.mpr hSome
  have hLength := h.length
  have hCap := h.capacity
  constructor
  · exact hCap
  · rw [extended_contents, h.contents, take_append, take_of_length_le (by omega : s.length ≤ _)]
  · exact fun _ => update_self ..
  · show b.truncated = true ↔ _
    rw [h.truncated, length_append]
    constructor <;> intro hCut <;> omega
  · intro i hi
    show update (copied b.data b.len s) (b.len + s.length) 0 i = storage i
    rw [update_of_ne (by omega), copied_of_ge (by omega), h.outside i hi]

theorem Holds.cut (h : Holds storage cap given b) (hCut : cap - 1 < (given ++ s).length)
    (hFull : given.length < cap - 1 → False) :
    Holds storage cap (given ++ s) { b with truncated := true } where
  capacity := h.capacity
  contents := by
    rw [take_append_of_le_length (Nat.le_of_not_lt hFull)]
    exact h.contents
  terminated := h.terminated
  truncated := ⟨fun _ => hCut, fun _ => rfl⟩
  outside := h.outside

section

/-- The room behind the text, where the NUL goes after it. -/
theorem avail_eq (b : CpxFmtBuffer) :
    (if b.cap > b.len + 1 then b.cap - b.len - 1 else 0) = b.cap - 1 - b.len := by
  split <;> omega

theorem cpxFmtAppendMem_of_fits (hSome : s ≠ []) (hFits : s.length ≤ b.cap - 1 - b.len) :
    cpxFmtAppendMem b (some s) = b.extended s := by
  have hPos := length_pos_iff.mpr hSome
  have hAll : (if s.length < b.cap - 1 - b.len then s.length
      else b.cap - 1 - b.len) = s.length := by
    split <;> omega
  simp only [cpxFmtAppendMem, avail_eq, hAll, if_neg hPos.ne', if_pos hPos, ne_eq, not_true,
    if_false, take_length]
  rfl

theorem cpxFmtAppendMem_of_cut (hRoom : 0 < b.cap - 1 - b.len)
    (hCut : b.cap - 1 - b.len < s.length) :
    cpxFmtAppendMem b (some s) =
      { b.extended (s.take (b.cap - 1 - b.len)) with truncated := true } := by
  have hTaken : (s.take (b.cap - 1 - b.len)).length = b.cap - 1 - b.len := by
    rw [length_take]
    omega
  simp only [cpxFmtAppendMem, avail_eq, if_neg (by omega : ¬s.length = 0),
    if_neg (by omega : ¬s.length < b.cap - 1 - b.len), if_pos hRoom,
      if_pos hCut.ne, extended, hTaken]

theorem cpxFmtAppendMem_of_full (hSome : s ≠ []) (hFull : b.cap - 1 - b.len = 0) :
    cpxFmtAppendMem b (some s) = { b with truncated := true } := by
  have hPos := length_pos_iff.mpr hSome
  simp only [cpxFmtAppendMem, avail_eq, hFull, if_neg hPos.ne', if_neg (Nat.not_lt_zero _),
    Nat.lt_irrefl, gt_iff_lt, if_false, if_pos hPos.ne]

theorem cpxFmtPutc_eq (b : CpxFmtBuffer) (c : Byte) :
    cpxFmtPutc b c = cpxFmtAppendMem b (some [c]) := by
  have hSome : [c] ≠ [] := cons_ne_nil c []
  unfold cpxFmtPutc
  split
  · next hRoom =>
    have hByte : copied b.data b.len [c] = update b.data b.len c := by
      funext i
      by_cases hLess : i < b.len
      · rw [copied_of_lt hLess, update_of_ne (by omega)]
      · by_cases hSame : i = b.len
        · rw [hSame, update_self, copied, if_pos (le_rfl), Nat.sub_self]
          rfl
        · rw [copied_of_ge (by rw [length_singleton]; omega), update_of_ne hSame]
    rw [cpxFmtAppendMem_of_fits hSome (by rw [length_singleton]; omega), extended,
      hByte, length_singleton]
  · next hNoRoom => rw [cpxFmtAppendMem_of_full hSome (by omega)]

end

theorem Holds.appendMem (h : Holds storage cap given b) (s : List Byte) :
    Holds storage cap (given ++ s) (cpxFmtAppendMem b (some s)) := by
  have hCap := h.capacity
  have hLength := h.length
  by_cases hSome : s = []
  · rw [hSome, append_nil]
    exact h
  by_cases hFits : s.length ≤ b.cap - 1 - b.len
  · rw [cpxFmtAppendMem_of_fits hSome hFits]
    exact h.extended hSome hFits
  · by_cases hRoom : 0 < b.cap - 1 - b.len
    · -- What there is room for fills the buffer, and the rest is cut.
      have hTaken : (s.take (b.cap - 1 - b.len)).length = b.cap - 1 - b.len := by
        rw [length_take]
        omega
      have hFilled := h.extended (ne_nil_of_length_pos (by omega)) hTaken.le
      have hRest := hFilled.cut (s := s.drop (b.cap - 1 - b.len))
        (by rw [append_assoc, take_append_drop, length_append]; omega)
        (fun hLess => by rw [length_append, hTaken] at hLess; omega)
      rw [append_assoc, take_append_drop] at hRest
      rw [cpxFmtAppendMem_of_cut hRoom (Nat.lt_of_not_le hFits)]
      exact hRest
    · rw [cpxFmtAppendMem_of_full hSome (by omega)]
      exact h.cut (by rw [length_append]; omega) (fun hLess => by omega)

theorem Holds.run (h : Holds storage cap given b) (call : CpxFmtCall) :
    Holds storage cap (given ++ call.fullText) (call.run b) := by
  cases call with
  | putc c =>
    rw [CpxFmtCall.run, cpxFmtPutc_eq]
    exact h.appendMem [c]
  | appendMem s =>
    cases s with
    | none =>
      show Holds storage cap (given ++ []) b
      rw [append_nil]
      exact h
    | some s => exact h.appendMem s
  | appendCstr s =>
    cases s with
    | none => exact h.appendMem (text "(null)".toList)
    | some s => exact h.appendMem (s.takeWhile (· != 0))
  | appendU64 v =>
    rw [CpxFmtCall.run, cpxFmtAppendU64_eq]
    exact h.appendMem (decimal v.toNat)
  | appendI64 v =>
    show Holds storage cap (given ++ signedDecimal v.toInt) (cpxFmtAppendI64 b v)
    rw [cpxFmtAppendI64, signedDecimal]
    split
    · next hNegative =>
      have hSign := h.appendMem [45]
      rw [← cpxFmtPutc_eq] at hSign
      split
      · next hLeast =>
        have hText : decimal v.toInt.natAbs = text "9223372036854775808".toList := by
          rw [hLeast]
          decide
        rw [hText]
        have hBoth := hSign.appendMem (text "9223372036854775808".toList)
        rw [append_assoc] at hBoth
        exact hBoth
      · next hNotLeast =>
        have hAbsolute : (-v).toNat = v.toInt.natAbs := by
          rw [BitVec.toInt_eq_toNat_cond] at hNegative ⊢
          rw [BitVec.toNat_neg]
          split at hNegative
          · omega
          · next hHigh =>
            rw [if_neg hHigh]
            omega
        rw [cpxFmtAppendU64_eq, hAbsolute]
        have hBoth := hSign.appendMem (decimal v.toInt.natAbs)
        rw [append_assoc] at hBoth
        exact hBoth
    · next hNotNegative =>
      have hAbsolute : v.toNat = v.toInt.natAbs := by
        rw [BitVec.toInt_eq_toNat_cond] at hNotNegative ⊢
        split at hNotNegative
        · next hLow =>
          rw [if_pos hLow, Int.natAbs_natCast]
        · omega
      rw [cpxFmtAppendU64_eq, hAbsolute]
      exact h.appendMem (decimal v.toInt.natAbs)
  | appendHexU64 v withPrefix =>
    show Holds storage cap (given ++
      ((if withPrefix then text "0x".toList else []) ++ hexadecimal v.toNat))
      (cpxFmtAppendHexU64 b v withPrefix)
    rw [cpxFmtAppendHexU64, hexLoop_eq, append_nil]
    cases withPrefix with
    | true =>
      have hBoth := (h.appendMem (text "0x".toList)).appendMem (hexadecimal v.toNat)
      rw [append_assoc] at hBoth
      exact hBoth
    | false => exact h.appendMem (hexadecimal v.toNat)

theorem holds_init (storage : Nat → Byte) (cap : Nat) :
    Holds storage cap [] (cpxFmtInit storage cap) where
  capacity := rfl
  contents := take_nil.symm
  terminated hPos := by
    show (if cap > 0 then update storage 0 0 else storage) 0 = 0
    rw [if_pos hPos, update_self]
  truncated := ⟨nofun, nofun⟩
  outside i hi := by
    show (if cap > 0 then update storage 0 0 else storage) i = storage i
    split
    · exact update_of_ne (by omega) ..
    · rfl

end CpxFmtBuffer

/-- After any calls the buffer holds the beginning of all their texts, and a call whose text fits
behind them appends it. -/
theorem cpx_fmt_exact (storage : Nat → Byte) (cap : Nat) (calls : List CpxFmtCall) :
    let given := calls.flatMap CpxFmtCall.fullText
    let b := calls.foldl CpxFmtCall.run (cpxFmtInit storage cap)
    b.Holds storage cap given ∧
      ∀ call : CpxFmtCall, (given ++ call.fullText).length ≤ cap - 1 →
        (call.run b).contents = b.contents ++ call.fullText ∧ (call.run b).truncated = false := by
  intro given b
  have hHolds : b.Holds storage cap given := by
    suffices hRun : ∀ first b, CpxFmtBuffer.Holds storage cap first b →
      CpxFmtBuffer.Holds storage cap
        (first ++ calls.flatMap CpxFmtCall.fullText) (calls.foldl CpxFmtCall.run b) from
      hRun [] _ (CpxFmtBuffer.holds_init storage cap)
    induction calls with
    | nil =>
      intro first b h
      rw [flatMap_nil, append_nil]
      exact h
    | cons call calls ih =>
      intro first b h
      rw [flatMap_cons, ← append_assoc]
      exact ih _ _ (h.run call)
  refine ⟨hHolds, fun call hFits => ?_⟩
  have hNext := hHolds.run call
  constructor
  · rw [hNext.contents, hHolds.contents, take_of_length_le hFits, take_of_length_le]
    exact Nat.le_trans (by rw [length_append]; exact Nat.le_add_right _ _) hFits
  · rw [← Bool.not_eq_true, hNext.truncated]
    exact hFits.not_gt

/-- The least number, behind its sign, is cut in the middle. -/
example : (cpxFmtAppendI64 (cpxFmtInit (fun _ => 0) 6) (BitVec.intMin 64)).contents =
  text "-9223".toList := by
  decide

end Casprix.Io
