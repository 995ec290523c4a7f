import Casprix.Jit.Emission
import Casprix.Jit.RegAllocApart

/-! The last byte of the code of an instruction, and when it is the byte of a return. -/
namespace Casprix.Jit

open Mir List

variable {func : MirFunction} {a : JitRegAlloc} {code code' : List Insn} {id : MirValueId}

/-- The instruction is compiled to at least one machine instruction. A copy within one register is
not. -/
def hasCode (a : JitRegAlloc) (inst : MirInst) : Bool :=
  match inst.op with
  | .debugLoc | .nop => false
  | .transfer _ source =>
    jraHomeReg a source = none ∨ jraHomeReg a inst.result ≠ jraHomeReg a source
  | _ => true

/-- The result is stored to a slot at the end. -/
def isStored (a : JitRegAlloc) (id : MirValueId) : Bool := IsValue a.n id ∧ (a.v id).reg = none

/-- The code of the instruction ends with the byte of a return: a return does, and so do a large
negative constant, a sum of registers that are numbered zero and three, and a result that is moved
to `rbx` last. -/
def looksLikeRet (a : JitRegAlloc) (inst : MirInst) : Bool :=
  let r := inst.result
  match inst.op with
  | .ret _ | .retVoid => true
  | .constInt imm => isStored a r = false ∧ imm.extractLsb' 56 8 = 0xC3
  | .binary op lhs rhs =>
    match op with
    | .add | .sub | .mul =>
      let dst := jraResultReg a r .rax
      let ls := jraResultReg a lhs .rax
      let rs := jraResultReg a rhs .r11
      isStored a r = false ∧
        if dst = rs ∧ dst ≠ ls then dst = .rbx
        else (dst = .rax ∨ dst = .r8) ∧ (rs = .rbx ∨ rs = .r11)
    | .cmpLt | .cmpLe | .cmpEq | .cmpNe | .cmpGt | .cmpGe => jraHomeReg a r = some .rbx
    | _ => false
  | .transfer _ source =>
    jraHomeReg a r = some .rbx ∧ (jraHomeReg a source = none ∨ jraHomeReg a source = some .r8)
  | .call .. => jraHomeReg a r = some .rbx
  | _ => false

def endsLikeRet (code : List Insn) : Bool := (codeBytes code).getLast? = some 0xC3

def Insn.endsLikeRet (insn : Insn) : Bool := insn.encode.getLast? = some 0xC3

section

theorem encode_ne_nil (insn : Insn) : insn.encode ≠ [] := by
  cases insn with
  | alu op dst src => cases op <;> exact cons_ne_nil _ _
  | push reg | pop reg => exact append_ne_nil_of_right_ne_nil _ (cons_ne_nil _ _)
  | _ => exact cons_ne_nil _ _

theorem codeBytes_ne_nil (h : code ≠ []) : codeBytes code ≠ [] := by
  cases code with
  | nil => exact absurd rfl h
  | cons insn rest => exact append_ne_nil_of_left_ne_nil (encode_ne_nil insn) _

theorem endsLikeRet_append (h : code' ≠ []) :
    endsLikeRet (code ++ code') = endsLikeRet code' := by
  unfold endsLikeRet
  rw [codeBytes_append, List.getLast?_append_of_ne_nil _ (codeBytes_ne_nil h)]

theorem endsLikeRet_snoc (insn : Insn) : endsLikeRet (code ++ [insn]) = insn.endsLikeRet := by
  rw [endsLikeRet_append (cons_ne_nil _ _)]
  unfold endsLikeRet Insn.endsLikeRet
  rw [codeBytes_cons]
  exact congrArg (fun bytes => decide (bytes.getLast? = some (0xC3 : Byte))) (append_nil _)

theorem endsLikeRet_singleton (insn : Insn) : endsLikeRet [insn] = insn.endsLikeRet := by
  have hSnoc : endsLikeRet ([] ++ [insn]) = insn.endsLikeRet := endsLikeRet_snoc insn
  exact hSnoc

theorem endsLikeRet_append_of_not (h : endsLikeRet code = false) (code' : List Insn) :
    endsLikeRet (code ++ code') = endsLikeRet code' := by
  by_cases hEmpty : code' = []
  · rw [hEmpty, append_nil, h]
    rfl
  · exact endsLikeRet_append hEmpty

/-- The operand byte of two registers is that of a return for registers zero and three. -/
theorem modRM_eq (reg rm : Reg) : modRM 0xC0 reg rm = 0xC3 ↔
    (reg = .rax ∨ reg = .r8) ∧ (rm = .rbx ∨ rm = .r11) := by
  have hBits : ∀ s < 8, ∀ d < 8, byte (0xC0 ||| s <<< 3 ||| d) = 0xC3 ↔ s = 0 ∧ d = 3 := by
    decide
  have hZero : reg.num % 8 = 0 ↔ reg = .rax ∨ reg = .r8 := by cases reg <;> decide
  have hThree : rm.num % 8 = 3 ↔ rm = .rbx ∨ rm = .r11 := by cases rm <;> decide
  unfold modRM
  rw [hBits _ (Nat.mod_lt _ (by decide)) _ (Nat.mod_lt _ (by decide)), hZero, hThree]

theorem endsLikeRet_movRR (dst src : Reg) : (Insn.movRR dst src).endsLikeRet = true ↔
    (src = .rax ∨ src = .r8) ∧ (dst = .rbx ∨ dst = .r11) := by
  unfold Insn.endsLikeRet
  rw [decide_eq_true_iff, ← modRM_eq]
  exact Option.some_inj

theorem endsLikeRet_alu (op : AluOp) (dst src : Reg) : (Insn.alu op dst src).endsLikeRet = true ↔
    (dst = .rax ∨ dst = .r8) ∧ (src = .rbx ∨ src = .r11) := by
  unfold Insn.endsLikeRet
  rw [decide_eq_true_iff, ← modRM_eq]
  cases op <;> exact Option.some_inj

theorem endsLikeRet_movRImm64 (reg : Reg) (imm : Word) :
    (Insn.movRImm64 reg imm).endsLikeRet = true ↔ imm.extractLsb' 56 8 = 0xC3 := by
  unfold Insn.endsLikeRet
  rw [decide_eq_true_iff]
  exact Option.some_inj

theorem not_endsLikeRet_pop (reg : Reg) : (Insn.pop reg).endsLikeRet = false := by
  cases reg <;> rfl

theorem not_endsLikeRet_pops (regs : List Reg) : endsLikeRet (regs.map .pop) = false := by
  rcases eq_nil_or_concat regs with rfl | ⟨front, r, rfl⟩
  · rfl
  · rw [concat_eq_append, map_append, map_singleton, endsLikeRet_snoc]
    exact not_endsLikeRet_pop r

theorem not_endsLikeRet_neg (reg : Reg) : (Insn.neg reg).endsLikeRet = false := by
  cases reg <;> rfl

theorem slot_byte {k : Nat} (h : k < jitMaxSpillSlots) :
    (BitVec.ofInt 32 (-8 * ((k : Int) + 1))).extractLsb' 24 8 ≠ 0xC3 := by
  have hAll : ∀ k < 64, (BitVec.ofInt 32 (-8 * ((k : Nat) + 1 : Int))).extractLsb' 24 8 ≠
      0xC3 := by
    decide +kernel
  exact hAll k h

theorem call_byte {size : Nat} (hPos : 0 < size) (hRoom : size ≤ codeCap) :
    (Insn.call (0 - (size : Int))).endsLikeRet = false := by
  have hSmall : codeCap = 8192 := rfl
  have hByte : (BitVec.ofInt 32 (0 - (size : Int))).extractLsb' 24 8 ≠ 0xC3 := by
    intro hEq
    have hNat := congrArg BitVec.toNat hEq
    rw [BitVec.extractLsb'_toNat, BitVec.toNat_ofInt, Nat.shiftRight_eq_div_pow] at hNat
    have hRight : (0xC3 : BitVec 8).toNat = 195 := rfl
    rw [hRight] at hNat
    omega
  exact decide_eq_false fun hLast => hByte (Option.some.inj hLast)

end

/-- The registers are those of the pool, and the slots those of the frame. -/
structure Housed (a : JitRegAlloc) : Prop where
  pool : ∀ id r, (a.v id).reg = some r → r ∈ allocPool
  slot : ∀ id k, (a.v id).spillSlot = some k → k < jitMaxSpillSlots

theorem housed_of_jitRegalloc (h : jitRegalloc func = some a) : Housed a := by
  obtain ⟨s, done, now, rfl, hRoom, hScanned, _⟩ := jitRegalloc_scanned h
  constructor
  · intro id r hReg
    rcases hScanned.home id (hScanned.mem_of_reg hReg) with ⟨r', hPool, hReg', _⟩ |
      ⟨k, _, hNone, _⟩
    · rw [hReg, Option.some.injEq] at hReg'
      exact hReg' ▸ hPool
    · rw [hReg] at hNone
      cases hNone
  · intro id k hSlot
    exact lt_of_lt_of_le (hScanned.slot_lt hSlot).2 hRoom

section

section

variable (a : JitRegAlloc) (id : MirValueId) (scratch : Reg)

theorem resultReg_eq :
    jraResultReg a id scratch = (jraHomeReg a id).getD scratch := by
  unfold jraResultReg jraHomeReg
  split <;> rfl

theorem loadOperand_reg :
    (jraLoadOperand a id scratch).2 = jraResultReg a id scratch := by
  unfold jraLoadOperand jraResultReg
  split
  · cases (a.v id).reg <;> rfl
  · rfl

theorem loadOperand_eq_nil :
    (jraLoadOperand a id scratch).1 = [] ↔ jraHomeReg a id ≠ none := by
  unfold jraLoadOperand jraHomeReg
  split
  · cases (a.v id).reg <;> simp
  · simp

end

theorem resultReg_eq_iff {r scratch : Reg} (hNe : r ≠ scratch) :
    jraResultReg a id scratch = r ↔ jraHomeReg a id = some r := by
  rw [resultReg_eq]
  cases jraHomeReg a id with
  | none => simp [hNe.symm]
  | some r' => simp

theorem resultReg_eq_scratch (hHoused : Housed a) {scratch : Reg}
    (hScratch : scratch ∉ allocPool) :
    jraResultReg a id scratch = scratch ↔ jraHomeReg a id = none := by
  rw [resultReg_eq]
  cases hHome : jraHomeReg a id with
  | none => simp
  | some r =>
    have hPool : r ∈ allocPool := by
      unfold jraHomeReg at hHome
      split at hHome
      · exact hHoused.pool id r hHome
      · cases hHome
    refine iff_of_false (fun hSame => hScratch ?_) (Option.some_ne_none r)
    have hReg : r = scratch := hSame
    exact hReg ▸ hPool

theorem resultReg_ne (hHoused : Housed a) {r scratch : Reg} (hNe : r ≠ scratch)
    (hPool : r ∉ allocPool) :
    jraResultReg a id scratch ≠ r := by
  intro hSame
  have hHome := (resultReg_eq_iff hNe).mp hSame
  unfold jraHomeReg at hHome
  split at hHome
  · exact hPool (hHoused.pool id r hHome)
  · cases hHome

theorem not_isStored {r : Reg} (h : jraHomeReg a id = some r) : isStored a id = false := by
  unfold jraHomeReg at h
  unfold isStored
  split at h
  · rw [h]
    exact decide_eq_false fun hStored => Option.some_ne_none r hStored.2
  · cases h

end

section

theorem not_endsLikeRet_load (hHoused : Housed a) (id : MirValueId) (scratch : Reg) :
    endsLikeRet (jraLoadOperand a id scratch).1 = false := by
  unfold jraLoadOperand
  split
  · split
    · rfl
    · rw [endsLikeRet_singleton]
      unfold jraSlotDisp
      cases hSlot : (a.v id).spillSlot with
      | none => rfl
      | some k =>
        exact decide_eq_false fun hLast =>
          slot_byte (hHoused.slot id k hSlot) (Option.some.inj hLast)
  · rw [endsLikeRet_singleton]
    rfl

/-- Behind a store the code does not end like a return, and otherwise nothing is added. -/
theorem endsLikeRet_store (hHoused : Housed a) (code : List Insn) (id : MirValueId) (r : Reg) :
    endsLikeRet (code ++ jraStoreResult a id r) = (!isStored a id && endsLikeRet code) := by
  unfold jraStoreResult isStored
  by_cases hStored : IsValue a.n id ∧ (a.v id).reg = none
  · rw [if_pos hStored, endsLikeRet_snoc, decide_eq_true hStored]
    unfold jraSlotDisp
    cases hSlot : (a.v id).spillSlot with
    | none => rfl
    | some k =>
      exact decide_eq_false fun hLast => slot_byte (hHoused.slot id k hSlot) (Option.some.inj hLast)
  · rw [if_neg hStored, append_nil, decide_eq_false hStored]
    rfl

theorem endsLikeRet_moveInto (dst src : Reg) :
    endsLikeRet (moveInto dst src) = (Insn.movRR dst src).endsLikeRet := by
  unfold moveInto
  split
  · exact endsLikeRet_singleton _
  · next hSame =>
      rw [not_not] at hSame
      rw [hSame]
      cases src <;> rfl

section

variable (hHoused : Housed a)
include hHoused

theorem endsLikeRet_result (hCode : endsLikeRet code = false) (id : MirValueId) (src : Reg) :
    endsLikeRet (code ++ moveInto (jraResultReg a id .rax) src ++
        jraStoreResult a id (jraResultReg a id .rax)) = true ↔
      jraHomeReg a id = some .rbx ∧ (src = .rax ∨ src = .r8) := by
  have hNotScratch : jraResultReg a id .rax ≠ .r11 :=
    resultReg_ne hHoused (by decide) (by decide)
  have hHome : jraResultReg a id .rax = .rbx ↔ jraHomeReg a id = some .rbx :=
    resultReg_eq_iff (by decide)
  rw [endsLikeRet_store hHoused, endsLikeRet_append_of_not hCode,
    endsLikeRet_moveInto, Bool.and_eq_true,
    endsLikeRet_movRR, hHome]
  constructor
  · rintro ⟨_, hSrc, hDst⟩
    exact ⟨hDst.resolve_right hNotScratch, hSrc⟩
  · rintro ⟨hDst, hSrc⟩
    rw [not_isStored hDst]
    exact ⟨rfl, hSrc, Or.inl hDst⟩

theorem endsLikeRet_alu_code (op : AluOp) (lhs rhs r : MirValueId) :
    endsLikeRet (emitAlu a op lhs rhs r) = true ↔ isStored a r = false ∧
      if jraResultReg a r .rax = jraResultReg a rhs .r11 ∧
        jraResultReg a r .rax ≠ jraResultReg a lhs .rax
      then jraResultReg a r .rax = .rbx
      else (jraResultReg a r .rax = .rax ∨ jraResultReg a r .rax = .r8) ∧
        (jraResultReg a rhs .r11 = .rbx ∨ jraResultReg a rhs .r11 = .r11) := by
  have hLoads : endsLikeRet ((jraLoadOperand a lhs .rax).1 ++ (jraLoadOperand a rhs .r11).1) =
      false :=
    (endsLikeRet_append_of_not (not_endsLikeRet_load hHoused _ _) _).trans
      (not_endsLikeRet_load hHoused _ _)
  have hDst : jraResultReg a r .rax ≠ .r11 := resultReg_ne hHoused (by decide) (by decide)
  have hRhs : jraResultReg a rhs .r11 ≠ .rax := resultReg_ne hHoused (by decide) (by decide)
  unfold emitAlu
  dsimp only
  rw [endsLikeRet_store hHoused, endsLikeRet_append_of_not hLoads, loadOperand_reg, loadOperand_reg,
    Bool.and_eq_true, Bool.not_eq_true']
  refine and_congr_right fun _ => ?_
  by_cases hAlias : jraResultReg a r .rax = jraResultReg a rhs .r11 ∧
      jraResultReg a r .rax ≠ jraResultReg a lhs .rax
  · -- The result is built in `rax` and moved last.
    have hNotRax : jraResultReg a r .rax ≠ .rax := hAlias.1 ▸ hRhs
    rw [if_pos hAlias, if_pos hAlias, if_neg hRhs.symm]
    have hMove : moveInto (jraResultReg a r .rax) .rax = [.movRR (jraResultReg a r .rax) .rax] :=
      if_pos hNotRax
    rw [hMove, endsLikeRet_snoc, endsLikeRet_movRR]
    exact ⟨fun h => h.2.resolve_right hDst, fun h => ⟨Or.inl rfl, Or.inl h⟩⟩
  · rw [if_neg hAlias, if_neg hAlias, endsLikeRet_snoc, endsLikeRet_alu]

theorem not_endsLikeRet_division (result : Reg) (lhs rhs r : MirValueId) :
    endsLikeRet (emitDivision a result lhs rhs r) = false := by
  unfold emitDivision
  rw [endsLikeRet_store hHoused]
  by_cases hDst : jraResultReg a r .r10 = .rdx
  · rw [if_pos hDst, endsLikeRet_append (cons_ne_nil _ _)]
    exact Bool.and_false _
  · rw [if_neg hDst, endsLikeRet_snoc]
    exact Bool.and_false _

theorem not_endsLikeRet_negation (operand r : MirValueId) :
    endsLikeRet (emitNeg a operand r) = false := by
  unfold emitNeg
  rw [endsLikeRet_store hHoused, endsLikeRet_snoc, not_endsLikeRet_neg]
  exact Bool.and_false _

theorem endsLikeRet_compare (cond : Condition) (lhs rhs r : MirValueId) :
    endsLikeRet (emitCompare a cond lhs rhs r) = true ↔ jraHomeReg a r = some .rbx := by
  have hCompared : endsLikeRet ((jraLoadOperand a lhs .rax).1 ++ (jraLoadOperand a rhs .r11).1 ++
      [.cmp (jraLoadOperand a lhs .rax).2 (jraLoadOperand a rhs .r11).2,
        .setccAl cond, .movzxRaxAl]) =
        false := endsLikeRet_append (cons_ne_nil _ _)
  unfold emitCompare
  rw [endsLikeRet_result hHoused hCompared]
  exact and_iff_left (Or.inl rfl)

theorem endsLikeRet_transfer (source r : MirValueId) :
    endsLikeRet (emitTransfer a source r) = true ↔ jraHomeReg a r = some .rbx ∧
      (jraHomeReg a source = none ∨ jraHomeReg a source = some .r8) := by
  have hScratch : Reg.rax ∉ allocPool := by decide
  unfold emitTransfer
  rw [endsLikeRet_result hHoused (not_endsLikeRet_load hHoused source .rax), loadOperand_reg,
    resultReg_eq_scratch hHoused hScratch, resultReg_eq_iff (by decide)]

theorem endsLikeRet_call (linIdx : Int) {pos : Nat} (args : List MirValueId)
    (r : MirValueId) (hRoom : pos + (codeBytes (emitCall a linIdx pos args r)).length ≤ codeCap) :
    endsLikeRet (emitCall a linIdx pos args r) = true ↔ jraHomeReg a r = some .rbx := by
  have hCall : pos + (codeBytes (beforeCall a linIdx args)).length + 5 ≤ codeCap := by
    unfold emitCall at hRoom
    rw [codeBytes_append, codeBytes_append, length_append, length_append] at hRoom
    have hLength : (codeBytes [Insn.call (0 -
        ((pos + (codeBytes (beforeCall a linIdx args)).length + 5 : Nat) : Int))]).length = 5 := rfl
    omega
  have hBefore : endsLikeRet (beforeCall a linIdx args ++
      [.call (0 - ((pos + (codeBytes (beforeCall a linIdx args)).length + 5 : Nat) : Int))]) =
        false := by
    rw [endsLikeRet_snoc]
    exact call_byte (Nat.succ_pos _) hCall
  have hRestore : endsLikeRet ((savedRegs a linIdx).reverse.map .pop ++
      padding (savedRegs a linIdx).length (.addRspImm32 8)) = false := by
    rw [endsLikeRet_append_of_not (not_endsLikeRet_pops _)]
    unfold padding
    split <;> rfl
  unfold emitCall afterCall callResult
  rw [endsLikeRet_append_of_not hBefore, endsLikeRet_append_of_not hRestore]
  by_cases hResult : r ≠ 0
  · have hNone : endsLikeRet [] = false := rfl
    have hMoved := endsLikeRet_result hHoused hNone r .rax
    rw [if_pos hResult]
    exact hMoved.trans (and_iff_left (Or.inl rfl))
  · rw [if_neg hResult]
    have hHome : jraHomeReg a r = none := if_neg fun hValue => hResult hValue.1
    rw [hHome]
    exact iff_of_false Bool.false_ne_true (Option.some_ne_none _).symm

end

end

section

variable {inst : MirInst} {linIdx : Int} {pos : Nat}

theorem emitTransfer_eq_nil (hHoused : Housed a) (source r : MirValueId) :
    emitTransfer a source r = [] ↔ jraHomeReg a source ≠ none ∧
      jraHomeReg a r = jraHomeReg a source := by
  unfold emitTransfer
  rw [append_eq_nil_iff, append_eq_nil_iff, loadOperand_eq_nil, loadOperand_reg, and_assoc]
  refine and_congr_right fun hSource => ?_
  obtain ⟨hr, hHome⟩ := Option.ne_none_iff_exists'.mp hSource
  have hSrc : jraResultReg a source .rax = hr := by
    rw [resultReg_eq, hHome]
    rfl
  have hRax : hr ≠ .rax := by
    rw [← hSrc]
    intro hScratch
    exact hSource ((resultReg_eq_scratch hHoused (by decide)).mp hScratch)
  have hMove : moveInto (jraResultReg a r .rax) hr = [] ↔ jraHomeReg a r = some hr := by
    rw [← resultReg_eq_iff hRax]
    unfold moveInto
    split
    · next hNe => exact iff_of_false (cons_ne_nil _ _) hNe
    · next hSame => exact iff_of_true rfl (not_not.mp hSame)
  rw [hSrc, hMove, hHome]
  refine and_iff_left_of_imp fun hResult => ?_
  have hStored := not_isStored hResult
  exact if_neg (of_decide_eq_false hStored)

theorem emitAlu_ne_nil (op : AluOp) (lhs rhs r : MirValueId) : emitAlu a op lhs rhs r ≠ [] := by
  unfold emitAlu
  dsimp only
  split <;> simp

theorem emitPlain_ne_nil (hOp : ∀ op source, inst.op ≠ .transfer op source)
    (hDebug : inst.op ≠ .debugLoc)
    (hNop : inst.op ≠ .nop) : emitPlain a linIdx pos inst ≠ [] := by
  unfold emitPlain
  cases hInst : inst.op with
  | transfer op source => exact absurd hInst (hOp op source)
  | debugLoc => exact absurd hInst hDebug
  | nop => exact absurd hInst hNop
  | constInt imm => exact cons_ne_nil _ _
  | constBool imm => exact cons_ne_nil _ _
  | binary op lhs rhs =>
    cases op with
    | add | sub | mul => exact emitAlu_ne_nil _ lhs rhs _
    | div | mod => exact cons_ne_nil _ _
    | cmpLt | cmpLe | cmpEq | cmpNe | cmpGt | cmpGe => simp [emitCompare]
    | _ => exact cons_ne_nil _ _
  | unary op operand targetType =>
    cases op with
    | neg => simp [emitNeg]
    | _ => exact cons_ne_nil _ _
  | ret value => simp [emitRet, epilogue]
  | call funcName args callee => simp [emitCall]
  | _ => exact cons_ne_nil _ _

theorem emitInst_eq_nil (hHoused : Housed a) :
    emitInst a linIdx pos inst = [] ↔ hasCode a inst = false := by
  have hPlain : ∀ code : List Insn, code.map Item.insn = [] ↔ code = [] := fun code =>
    map_eq_nil_iff
  have hSome : (∀ op source, inst.op ≠ .transfer op source) →
    inst.op ≠ .debugLoc → inst.op ≠ .nop →
      emitPlain a linIdx pos inst ≠ [] := emitPlain_ne_nil
  unfold emitInst hasCode
  cases hOp : inst.op with
  | transfer op source =>
    have hCode : emitPlain a linIdx pos inst = emitTransfer a source inst.result := by
      unfold emitPlain
      rw [hOp]
    rw [hPlain, hCode, emitTransfer_eq_nil hHoused, decide_eq_false_iff_not]
    tauto
  | debugLoc | nop =>
    have hCode : emitPlain a linIdx pos inst = [] := by
      unfold emitPlain
      rw [hOp]
    rw [hCode]
    exact iff_of_true rfl rfl
  | condbr cond trueBb falseBb => exact iff_of_false (by simp) (by simp)
  | br target => exact iff_of_false (cons_ne_nil _ _) (by simp)
  | _ =>
    refine iff_of_false (fun hNil => hSome ?_ ?_ ?_ ((hPlain _).mp hNil)) (by simp)
    all_goals rw [hOp]; simp

/-- The code of an instruction ends like a return exactly if the instruction looks like one. -/
theorem endsLikeRet_emitPlain (hHoused : Housed a)
    (hRoom : pos + (codeBytes (emitPlain a linIdx pos inst)).length ≤ codeCap)
    (hBr : ∀ target, inst.op ≠ .br target)
    (hCondbr : ∀ cond t f, inst.op ≠ .condbr cond t f) :
    endsLikeRet (emitPlain a linIdx pos inst) = true ↔ looksLikeRet a inst = true := by
  unfold emitPlain at hRoom ⊢
  unfold looksLikeRet
  cases hOp : inst.op with
  | constInt imm =>
    unfold emitConst
    rw [endsLikeRet_store hHoused, endsLikeRet_singleton, Bool.and_eq_true, endsLikeRet_movRImm64,
      Bool.not_eq_true', decide_eq_true_iff]
  | constBool imm =>
    unfold emitConst
    rw [endsLikeRet_store hHoused, endsLikeRet_singleton]
    cases imm <;> exact iff_of_false (by rw [Bool.and_eq_true]; exact fun h => nomatch h.2)
      Bool.false_ne_true
  | binary op lhs rhs =>
    cases op with
    | add | sub | mul =>
      rw [endsLikeRet_alu_code hHoused, decide_eq_true_iff]
    | div | mod =>
      rw [not_endsLikeRet_division hHoused]
    | cmpLt | cmpLe | cmpEq | cmpNe | cmpGt | cmpGe =>
      rw [endsLikeRet_compare hHoused, decide_eq_true_iff]
    | _ => exact iff_of_false Bool.false_ne_true Bool.false_ne_true
  | unary op operand targetType =>
    cases op with
    | neg =>
      rw [not_endsLikeRet_negation hHoused]
    | _ => exact iff_of_false Bool.false_ne_true Bool.false_ne_true
  | transfer op source =>
    rw [endsLikeRet_transfer hHoused, decide_eq_true_iff]
  | ret value =>
    have hNonempty : epilogue ≠ [] := cons_ne_nil _ _
    unfold emitRet
    rw [endsLikeRet_append hNonempty]
    exact iff_of_true rfl rfl
  | call funcName args callee =>
    rw [hOp] at hRoom
    rw [endsLikeRet_call hHoused linIdx args _ hRoom, decide_eq_true_iff]
  | br target => exact absurd hOp (hBr target)
  | condbr cond trueBb falseBb => exact absurd hOp (hCondbr _ _ _)
  | retVoid => exact iff_of_true rfl rfl
  | _ => exact iff_of_false Bool.false_ne_true Bool.false_ne_true

theorem itemBytes_insns (code : List Insn) : itemBytes (code.map .insn) = codeBytes code := by
  unfold itemBytes
  rw [map_map]
  exact congrArg codeBytes (map_id code)

theorem emitInst_cases (a : JitRegAlloc) (linIdx : Int) (pos : Nat) (inst : MirInst) :
    ((∀ target, inst.op ≠ .br target) ∧ (∀ cond t f, inst.op ≠ .condbr cond t f) ∧
      emitInst a linIdx pos inst = (emitPlain a linIdx pos inst).map .insn) ∨
    ((∃ front target, emitInst a linIdx pos inst = front ++ [.jmpTo target]) ∧
      looksLikeRet a inst = false) := by
  unfold emitInst looksLikeRet
  cases inst.op with
  | condbr cond trueBb falseBb =>
    refine Or.inr ⟨⟨((jraLoadOperand a cond .rax).1 ++
      [Insn.test (jraLoadOperand a cond .rax).2]).map .insn ++ [.jnzTo trueBb], falseBb, ?_⟩,
        rfl⟩
    rw [append_assoc]
    rfl
  | br target => exact Or.inr ⟨⟨[], target, rfl⟩, rfl⟩
  | _ => exact Or.inl ⟨by simp, by simp, rfl⟩

theorem itemBytes_emitInst_ne_nil (hHoused : Housed a)
    (hCode : hasCode a inst = true) (linIdx : Int)
    (pos : Nat) : itemBytes (emitInst a linIdx pos inst) ≠ [] := by
  refine codeBytes_ne_nil fun hNil => ?_
  rw [map_eq_nil_iff, emitInst_eq_nil hHoused, hCode] at hNil
  cases hNil

theorem getLast?_emitInst (hHoused : Housed a)
    (hRoom : pos + (itemBytes (emitInst a linIdx pos inst)).length ≤ codeCap) :
    (itemBytes (emitInst a linIdx pos inst)).getLast? = some 0xC3 ↔
      looksLikeRet a inst = true := by
  rcases emitInst_cases a linIdx pos inst with ⟨hBr, hCondbr, hPlain⟩ |
    ⟨⟨front, target, hJump⟩, hLooks⟩
  · rw [hPlain, itemBytes_insns] at hRoom ⊢
    rw [← endsLikeRet_emitPlain hHoused hRoom hBr hCondbr]
    exact decide_eq_true_iff.symm
  · have hZero : (itemBytes (front ++ [.jmpTo target])).getLast? = some 0 := by
      rw [itemBytes_append]
      exact List.getLast?_append_of_ne_nil _ (cons_ne_nil _ _)
    rw [hJump, hZero, hLooks]
    exact iff_of_false (by decide) Bool.false_ne_true

theorem getLast?_straight (h : Straight code) :
    (code.map Item.insn).getLast? ≠ some (.insn .ret) := by
  intro hLast
  obtain ⟨i, hi, hEq⟩ := mem_map.mp (mem_of_getLast? hLast)
  have hStraight := all_eq_true.mp h i hi
  rw [Item.insn.inj hEq] at hStraight
  cases hStraight

/-- What is emitted for an instruction ends with a return exactly for a return. -/
theorem getLast?_emitInst_ret :
    (emitInst a linIdx pos inst).getLast? = some (.insn .ret) ↔ isReturn inst.op = true := by
  rcases emitInst_cases a linIdx pos inst with ⟨_, _, hPlain⟩ |
    ⟨⟨front, target, hJump⟩, hLooks⟩
  · rw [hPlain]
    cases hReturn : isReturn inst.op with
    | false =>
      exact iff_of_false (getLast?_straight
        (straight_emitPlain hReturn linIdx pos)) Bool.false_ne_true
    | true =>
      obtain ⟨front, _, hCode⟩ := emitPlain_return (a := a) hReturn linIdx pos
      rw [hCode, map_append, map_singleton, List.getLast?_concat]
      exact iff_of_true rfl rfl
  · rw [hJump, List.getLast?_concat]
    refine iff_of_false (fun h => Item.noConfusion (Option.some.inj h)) fun hReturn => ?_
    unfold isReturn at hReturn
    unfold looksLikeRet at hLooks
    split at hReturn
    · next value hOp =>
        rw [hOp] at hLooks
        cases hLooks
    · next hOp =>
        rw [hOp] at hLooks
        cases hLooks
    · cases hReturn

end

section

variable {insts insts' : List MirInst} {e e' e'' : Emitter}

/-- How the code after some instructions ends: as before if none of them has code, and else with
the code of the last one that has. -/
structure Tail (a : JitRegAlloc) (insts : List MirInst) (e e' : Emitter) : Prop where
  more : ∃ more, e'.code = e.code ++ more
  same : insts.filter (hasCode a) = [] → e'.code = e.code
  last : ∀ inst, (insts.filter (hasCode a)).getLast? = some inst →
    ∃ (front : List Item) (linIdx : Nat),
    e'.code = e.code ++ front ++ emitInst a linIdx (itemBytes (e.code ++ front)).length inst

theorem tail_nil (hCode : e'.code = e.code) : Tail a [] e e' where
  more := ⟨[], by rw [hCode, append_nil]⟩
  same _ := hCode
  last inst h := by cases h

theorem tail_inst (hHoused : Housed a) (inst : MirInst) (e : Emitter) :
    Tail a [inst] e (e.inst a inst) where
  more := ⟨_, rfl⟩
  same h := by
    have hNone : hasCode a inst = false := by
      rw [filter_eq_nil_iff] at h
      exact Bool.eq_false_iff.mpr (h inst mem_cons_self)
    unfold Emitter.inst
    rw [(emitInst_eq_nil hHoused).mpr hNone, append_nil]
  last inst' h := by
    have hMem := mem_of_getLast? h
    rw [mem_singleton.mp (mem_filter.mp hMem).1]
    refine ⟨[], e.linIdx, ?_⟩
    rw [append_nil]
    rfl

theorem Tail.append (h : Tail a insts e e') (h' : Tail a insts' e' e'') :
    Tail a (insts ++ insts') e e'' where
  more := by
    obtain ⟨more, hMore⟩ := h.more
    obtain ⟨more', hMore'⟩ := h'.more
    exact ⟨more ++ more', by rw [hMore', hMore, append_assoc]⟩
  same hNone := by
    rw [filter_append, append_eq_nil_iff] at hNone
    exact (h'.same hNone.2).trans (h.same hNone.1)
  last inst hLast := by
    rw [filter_append] at hLast
    by_cases hNone : insts'.filter (hasCode a) = []
    · rw [hNone, append_nil] at hLast
      obtain ⟨front, linIdx, hCode⟩ := h.last inst hLast
      exact ⟨front, linIdx, (h'.same hNone).trans hCode⟩
    · rw [List.getLast?_append_of_ne_nil _ hNone] at hLast
      obtain ⟨more, hMore⟩ := h.more
      obtain ⟨front, linIdx, hCode⟩ := h'.last inst hLast
      refine ⟨more ++ front, linIdx, ?_⟩
      rw [hCode, hMore, append_assoc e.code more front]

theorem tail_foldl_inst (hHoused : Housed a) (insts : List MirInst) (e : Emitter) :
    Tail a insts e (insts.foldl (Emitter.inst a) e) := by
  induction insts generalizing e with
  | nil => exact tail_nil rfl
  | cons inst rest ih => exact (tail_inst hHoused inst e).append (ih (e.inst a inst))

theorem tail_blocks (hHoused : Housed a) (entries : List (MirBlock × Nat)) (e : Emitter) :
    Tail a (entries.flatMap fun entry => entry.1.insts) e (entries.foldl (Emitter.block a) e) := by
  induction entries generalizing e with
  | nil => exact tail_nil rfl
  | cons entry rest ih =>
    have hLabel : Tail a [] e (e.label entry.2) := tail_nil (code_label e entry.2)
    have hBlock := hLabel.append (tail_foldl_inst hHoused entry.1.insts (e.label entry.2))
    exact hBlock.append (ih (e.block a entry))

end

section

/-- The last instruction of the function that has code. -/
def lastCoded (func : MirFunction) (a : JitRegAlloc) : Option MirInst :=
  ((jitInsts func).filter (hasCode a)).getLast?

/-- Some instruction of the block or of a later block has code. -/
def HasCodeFrom (func : MirFunction) (a : JitRegAlloc) (b : MirBlockId) : Prop :=
  ∃ block ∈ func.blocks.drop b, ∃ inst ∈ block.insts, hasCode a inst = true

theorem tail_emitBlocks (hHoused : Housed a) :
    Tail a (jitInsts func) (emitStart func a) (emitBlocks func a) := by
  have hTail := tail_blocks hHoused func.blocks.zipIdx (emitStart func a)
  rw [flatMap_zipIdx] at hTail
  exact hTail

/-- The code of the blocks ends like a return exactly if the last instruction with code looks like
one, or the moves of the parameters do where there is none. -/
theorem getLast?_emitBlocks (hHoused : Housed a)
    (hRoom : (itemBytes (emitBlocks func a).code).length ≤ codeCap) :
    (itemBytes (emitBlocks func a).code).getLast? = some 0xC3 ↔
      (∃ inst, lastCoded func a = some inst ∧ looksLikeRet a inst = true) ∨
      (lastCoded func a = none ∧
        endsLikeRet (prologue a (func.params.map (·.valueId))) = true) := by
  have hTail : Tail a (jitInsts func) (emitStart func a) (emitBlocks func a) :=
    tail_emitBlocks hHoused
  cases hLast : lastCoded func a with
  | none =>
    have hSame := hTail.same (List.getLast?_eq_none_iff.mp hLast)
    have hStart : itemBytes (emitStart func a).code =
        codeBytes (prologue a (func.params.map (·.valueId))) := itemBytes_insns _
    rw [hSame, hStart]
    simp [endsLikeRet]
  | some inst =>
    obtain ⟨front, linIdx, hCode⟩ := hTail.last inst hLast
    have hSome : hasCode a inst = true := (mem_filter.mp (mem_of_getLast? hLast)).2
    generalize hBefore : (emitStart func a).code ++ front = before at hCode
    rw [hCode, itemBytes_append, length_append] at hRoom
    rw [hCode, itemBytes_append,
      List.getLast?_append_of_ne_nil _ (itemBytes_emitInst_ne_nil hHoused hSome _ _),
      getLast?_emitInst hHoused hRoom]
    simp

/-- The code of the blocks ends with a return exactly if the last instruction with code is one. -/
theorem getLast?_emitBlocks_ret (hHoused : Housed a) :
    (emitBlocks func a).code.getLast? = some (.insn .ret) ↔
      ∃ inst, lastCoded func a = some inst ∧ isReturn inst.op = true := by
  have hTail : Tail a (jitInsts func) (emitStart func a) (emitBlocks func a) :=
    tail_emitBlocks hHoused
  cases hLast : lastCoded func a with
  | none =>
    rw [hTail.same (List.getLast?_eq_none_iff.mp hLast)]
    refine iff_of_false (getLast?_straight (straight_prologue _ _)) ?_
    rintro ⟨inst, hSome, _⟩
    cases hSome
  | some inst =>
    obtain ⟨front, linIdx, hCode⟩ := hTail.last inst hLast
    have hSome : hasCode a inst = true := (mem_filter.mp (mem_of_getLast? hLast)).2
    have hNonempty : emitInst a linIdx
        (itemBytes ((emitStart func a).code ++ front)).length inst ≠ [] := by
      rw [Ne, emitInst_eq_nil hHoused, hSome]
      exact Bool.noConfusion
    rw [hCode, List.getLast?_append_of_ne_nil _ hNonempty, getLast?_emitInst_ret]
    simp

/-- A block starts before the end of the code of the blocks exactly if there is code from it on. -/
theorem blockStart_lt_iff (hHoused : Housed a) (b : MirBlockId) :
    blockStart func a b < (itemBytes (emitBlocks func a).code).length ↔ HasCodeFrom func a b := by
  have hInsts : ((func.blocks.zipIdx.drop b).flatMap fun entry => entry.1.insts) =
      (func.blocks.drop b).flatMap (·.insts) := by
    rw [← flatMap_map, map_drop, zipIdx_map_fst]
  have hTail : Tail a ((func.blocks.drop b).flatMap (·.insts)) (emitted func a b)
      (emitBlocks func a) := by
    have hBlocks := tail_blocks hHoused (func.blocks.zipIdx.drop b) (emitted func a b)
    rw [hInsts] at hBlocks
    unfold emitted at hBlocks ⊢
    rw [← foldl_append, take_append_drop] at hBlocks
    exact hBlocks
  have hFrom : HasCodeFrom func a b ↔
      ((func.blocks.drop b).flatMap (·.insts)).filter (hasCode a) ≠ [] := by
    unfold HasCodeFrom
    rw [Ne, filter_eq_nil_iff, forall_mem_flatMap]
    simp
  rw [hFrom]
  unfold blockStart Emitter.pos
  constructor
  · intro hLt hNone
    rw [hTail.same hNone] at hLt
    exact lt_irrefl _ hLt
  · intro hSome
    obtain ⟨inst, hLast⟩ := Option.ne_none_iff_exists'.mp
      (mt List.getLast?_eq_none_iff.mp hSome)
    obtain ⟨front, linIdx, hCode⟩ := hTail.last inst hLast
    have hCoded : hasCode a inst = true := (mem_filter.mp (mem_of_getLast? hLast)).2
    have hPos := length_pos_of_ne_nil (itemBytes_emitInst_ne_nil hHoused hCoded linIdx
      (itemBytes ((emitted func a b).code ++ front)).length)
    rw [hCode, itemBytes_append, length_append, itemBytes_append, length_append]
    rw [itemBytes_append, length_append] at hPos
    omega

end

end Casprix.Jit
