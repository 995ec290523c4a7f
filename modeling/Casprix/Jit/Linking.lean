import Casprix.Jit.Compile
import Mathlib.Data.List.GetD

/-! Filling in the displacements of the branches, on the bytes and on the instructions. -/
namespace Casprix.Jit

open List Mir

variable {labels : List JitBlockLabel} {endPos pos : Nat} {items : List Item} {code : List Insn}

/-- The instruction at `pos` with its displacement filled in. -/
def Item.link (labels : List JitBlockLabel) (endPos pos : Nat) : Item → Insn
  | .insn i => i
  | .jnzTo target =>
    .jnz (targetOffset labels endPos { patchPos := pos + 2, target } - ((pos + 6 : Nat) : Int))
  | .jmpTo target =>
    .jmp (targetOffset labels endPos { patchPos := pos + 1, target } - ((pos + 5 : Nat) : Int))

/-- The instructions from `pos` on. -/
def linkFrom (labels : List JitBlockLabel) (endPos : Nat) : Nat → List Item → List Insn
  | _, [] => []
  | pos, item :: rest =>
    item.link labels endPos pos :: linkFrom labels endPos (pos + item.emitted.encode.length) rest

theorem length_u32 (v : Int) : (u32 v).length = 4 := rfl

theorem length_encode_link (item : Item) :
    (item.link labels endPos pos).encode.length = item.emitted.encode.length := by
  cases item <;> rfl

theorem codeBytes_cons (insn : Insn) (code : List Insn) :
    codeBytes (insn :: code) = insn.encode ++ codeBytes code := flatMap_cons

theorem codeBytes_append (code code' : List Insn) :
    codeBytes (code ++ code') = codeBytes code ++ codeBytes code' := flatMap_append

theorem itemBytes_cons (item : Item) (items : List Item) :
    itemBytes (item :: items) = item.emitted.encode ++ itemBytes items := codeBytes_cons ..

theorem itemBytes_append (items items' : List Item) :
    itemBytes (items ++ items') = itemBytes items ++ itemBytes items' := by
  unfold itemBytes
  rw [map_append, codeBytes_append]

theorem writeRel_append (front opcode rest : List Byte) (v rel : Int) :
    writeRel (front ++ (opcode ++ u32 v ++ rest)) (front.length + opcode.length) rel =
      front ++ (opcode ++ u32 rel ++ rest) := by
  have hFront : front ++ (opcode ++ u32 v ++ rest) = (front ++ opcode) ++ (u32 v ++ rest) := by
    simp only [append_assoc]
  have hBehind : (front ++ opcode) ++ (u32 v ++ rest) = (front ++ opcode ++ u32 v) ++ rest := by
    simp only [append_assoc]
  have hTake : ((front ++ opcode) ++ (u32 v ++ rest)).take (front.length + opcode.length) =
      front ++ opcode := by
    rw [← length_append, take_left]
  have hDrop : ((front ++ opcode ++ u32 v) ++ rest).drop
      (front.length + opcode.length + 4) = rest := by
    have hLength : front.length + opcode.length + 4 = (front ++ opcode ++ u32 v).length := by
      rw [length_append, length_append, length_u32]
    rw [hLength, drop_left]
  unfold writeRel
  rw [hFront, hTake, hBehind, hDrop]
  simp only [append_assoc]

theorem foldl_applyPatch (front : List Byte) (items : List Item) :
    (patches front.length items).foldl (applyPatch labels endPos) (front ++ itemBytes items) =
      front ++ codeBytes (linkFrom labels endPos front.length items) := by
  induction items generalizing front with
  | nil => rfl
  | cons item rest ih =>
    have hRest := fun bytes : List Byte => ih (front ++ bytes)
    rw [itemBytes_cons, linkFrom, codeBytes_cons]
    cases item with
    | insn i =>
      have hStep := hRest i.encode
      rw [length_append, append_assoc, append_assoc] at hStep
      exact hStep
    | jnzTo target =>
      have hStep := hRest (Item.link labels endPos front.length (.jnzTo target)).encode
      rw [length_append, length_encode_link, append_assoc, append_assoc] at hStep
      rw [← hStep]
      exact congrArg (fun buf => List.foldl (applyPatch labels endPos) buf
        (patches (front.length + 6) rest))
        (writeRel_append front [byte 0x0F, byte 0x85] (itemBytes rest) 0 _)
    | jmpTo target =>
      have hStep := hRest (Item.link labels endPos front.length (.jmpTo target)).encode
      rw [length_append, length_encode_link, append_assoc, append_assoc] at hStep
      rw [← hStep]
      exact congrArg (fun buf => List.foldl (applyPatch labels endPos) buf
        (patches (front.length + 5) rest))
        (writeRel_append front [byte 0xE9] (itemBytes rest) 0 _)

/-- The displacement that is read at a place of the code. -/
def readRel (bytes : List Byte) (pos : Nat) : Int :=
  let at_ (i : Nat) : Nat := (bytes.getD (pos + i) 0).toNat
  (BitVec.ofNat 32 (at_ 0 + 256 * at_ 1 + 65536 * at_ 2 + 16777216 * at_ 3)).toInt

theorem readRel_u32 (front rest : List Byte) {rel : Int} (hLow : -2147483648 ≤ rel)
    (hHigh : rel < 2147483648) : readRel (front ++ u32 rel ++ rest) front.length = rel := by
  have hByte : ∀ i, (front ++ u32 rel ++ rest).getD (front.length + i) 0 =
      (u32 rel ++ rest).getD i 0 := by
    intro i
    rw [append_assoc, getD_append_right _ _ _ _ (Nat.le_add_right _ _), Nat.add_sub_cancel_left]
  have hWord : BitVec.ofNat 32 (((BitVec.ofInt 32 rel).extractLsb' 0 8).toNat +
      256 * ((BitVec.ofInt 32 rel).extractLsb' 8 8).toNat +
      65536 * ((BitVec.ofInt 32 rel).extractLsb' 16 8).toNat +
      16777216 * ((BitVec.ofInt 32 rel).extractLsb' 24 8).toNat) = BitVec.ofInt 32 rel := by
    apply BitVec.eq_of_toNat_eq
    rw [BitVec.toNat_ofNat]
    simp only [BitVec.extractLsb'_toNat, Nat.shiftRight_eq_div_pow]
    omega
  unfold readRel
  simp only [hByte]
  refine (congrArg BitVec.toInt hWord).trans ?_
  rw [BitVec.toInt_ofInt, Int.bmod_eq_of_le]
  · exact hLow
  · exact hHigh

end Casprix.Jit
