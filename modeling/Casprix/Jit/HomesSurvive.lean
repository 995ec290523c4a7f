import Casprix.Jit.InstEffects
import Casprix.Jit.ParamMovesCorrect
import Casprix.Mir.Ssa

/-! The home of a value on the paths of the emitted code from its definition to its uses. It is left
alone where the interval of the value covers the path, except by divisions that need `r10`. -/
namespace Casprix.Jit

open Mir List

/-- The place of an instruction: its block, and its number there. -/
abbrev Place := MirBlockId × Nat

variable {func : MirFunction} {a : JitRegAlloc} {arith : Arithmetic} {callee : Machine → Machine}
  {v : MirValueId} {home : Home} {b : MirBlockId} {k : Nat} {inst : MirInst} {m m' : Machine}
  {path : List Place} {use : Place} {linIdx : Int}

/-- Control can go from one place to the other. -/
inductive Flows (func : MirFunction) : Place → Place → Prop where
  | next {b : MirBlockId} {k : Nat} {inst : MirInst} (hInst : (func.insts b)[k]? = some inst)
      (hInside : inst.op.isTerminator = false) : Flows func (b, k) (b, k + 1)
  | branch {b : MirBlockId} {k : Nat} {inst : MirInst} {c : MirBlockId}
      (hInst : (func.insts b)[k]? = some inst) (hLast : k + 1 = (func.insts b).length)
      (hTarget : c ∈ inst.op.targets) : Flows func (b, k) (c, 0)

theorem Flows.isReturn {p q : Place} (h : Flows func p q)
    (hInst : (func.insts p.1)[p.2]? = some inst) :
    isReturn inst.op = false := by
  cases h with
  | next hHere hInside =>
    rw [Option.some.inj (hInst.symm.trans hHere)]
    generalize MirInst.op _ = op at hInside ⊢
    cases op with
    | ret | retVoid => cases hInside
    | _ => rfl
  | branch hHere _ hTarget =>
    rw [Option.some.inj (hInst.symm.trans hHere)]
    generalize MirInst.op _ = op at hTarget ⊢
    cases op with
    | ret | retVoid => cases hTarget
    | _ => rfl

/-- `lin_idx` at a place. -/
def linIdxAt (func : MirFunction) (p : Place) : Nat :=
  ((func.blocks.take p.1).flatMap (·.insts)).length + p.2

theorem getElem?_linIdxAt (h : (func.insts b)[k]? = some inst) :
    (jitInsts func)[linIdxAt func (b, k)]? = some inst := by
  obtain ⟨block, hBlock⟩ := MirFunction.exists_block? (MirFunction.lt_of_getElem? h)
  rw [MirFunction.insts_of_block? hBlock] at h
  have hSplit : func.blocks = func.blocks.take b ++ block :: func.blocks.drop (b + 1) := by
    have hDrop := drop_eq_getElem_cons (List.getElem?_eq_some_iff.mp hBlock).1
    rw [(List.getElem?_eq_some_iff.mp hBlock).2] at hDrop
    rw [← hDrop, take_append_drop]
  have hInsts : jitInsts func =
      (func.blocks.take b).flatMap (·.insts) ++
        (block.insts ++ (func.blocks.drop (b + 1)).flatMap (·.insts)) := by
    unfold jitInsts
    conv_lhs => rw [hSplit]
    rw [flatMap_append, flatMap_cons]
  have hLt := (List.getElem?_eq_some_iff.mp h).1
  unfold linIdxAt
  rw [hInsts, List.getElem?_append_right (Nat.le_add_right _ _), Nat.add_sub_cancel_left,
    List.getElem?_append_left hLt]
  exact h

/-- The emitter before the instruction of a place. -/
def emitterAt (func : MirFunction) (a : JitRegAlloc) (p : Place) : Emitter :=
  ((func.insts p.1).take p.2).foldl (Emitter.inst a) ((emitted func a p.1).label p.1)

/-- The machine instructions for the instruction of a place. -/
def codeAt (func : MirFunction) (a : JitRegAlloc) (p : Place) : List Insn :=
  match (func.insts p.1)[p.2]? with
  | some inst => straightCode a (linIdxAt func p) (emitterAt func a p).pos inst
  | none => []

theorem codeAt_eq (h : (func.insts b)[k]? = some inst) :
    codeAt func a (b, k) = straightCode a (linIdxAt func (b, k))
      (emitterAt func a (b, k)).pos inst := by
  unfold codeAt
  rw [h]

/-- A run through the code of places. A call does what `behaves` allows. -/
inductive RunsAlong (func : MirFunction) (a : JitRegAlloc) (arith : Arithmetic)
    (behaves : Machine → Machine → Prop) : List Place → Machine → Machine → Prop where
  | nil (m : Machine) : RunsAlong func a arith behaves [] m m
  | cons {p : Place} {rest : List Place} {callee : Machine → Machine} {m m' : Machine}
      (hCallee : ∀ m, behaves m (callee m))
      (hRest : RunsAlong func a arith behaves rest (runAll arith callee (codeAt func a p) m) m') :
      RunsAlong func a arith behaves (p :: rest) m m'

section

/-- The part of the code of an instruction that brings its operands to where the operation takes
them from: to registers, and for a call to the stack. -/
def operandCode (a : JitRegAlloc) (linIdx : Int) (inst : MirInst) : List Insn :=
  match inst.op with
  | .binary .div lhs rhs | .binary .mod lhs rhs =>
    let (loadLhs, ls) := jraLoadOperand a lhs .r10
    let (loadRhs, rs) := jraLoadOperand a rhs .r11
    let saveDivisor := if rs = .rax ∨ rs = .rdx then [Insn.movRR .r11 rs] else []
    [.push .rdx] ++ loadLhs ++ loadRhs ++ saveDivisor ++ [.movRR .rax ls]
  | .binary .add lhs rhs | .binary .sub lhs rhs | .binary .mul lhs rhs | .binary .cmpLt lhs rhs
  | .binary .cmpLe lhs rhs | .binary .cmpEq lhs rhs | .binary .cmpNe lhs rhs
  | .binary .cmpGt lhs rhs | .binary .cmpGe lhs rhs =>
    (jraLoadOperand a lhs .rax).1 ++ (jraLoadOperand a rhs .r11).1
  | .unary .neg operand _ | .transfer _ operand | .ret operand | .condbr operand _ _ =>
    (jraLoadOperand a operand .rax).1
  | .call _ args _ =>
    padding (savedRegs a linIdx).length (.subRspImm32 8) ++ (savedRegs a linIdx).map .push ++
      padding args.length (.subRspImm32 8) ++ args.reverse.flatMap (pushArg a)
  | _ => []

/-- The code of an instruction starts with that for its operands. -/
theorem operandCode_prefix (a : JitRegAlloc) (linIdx : Int) (pos : Nat) (inst : MirInst) :
    operandCode a linIdx inst <+: straightCode a linIdx pos inst := by
  unfold operandCode straightCode emitInst
  cases hOp : inst.op with
  | binary op lhs rhs =>
    dsimp only
    rw [filterMap_insns]
    unfold emitPlain
    rw [hOp]
    cases op with
    | add | sub | mul | cmpLt | cmpLe | cmpEq | cmpNe | cmpGt | cmpGe =>
      simp [emitAlu, emitCompare]
    | div | mod =>
      dsimp only [emitDivision]
      split <;> simp
    | _ => exact nil_prefix
  | unary op operand type =>
    dsimp only
    rw [filterMap_insns]
    unfold emitPlain
    rw [hOp]
    cases op with
    | neg => simp [emitNeg]
    | _ => exact nil_prefix
  | transfer | ret =>
    dsimp only
    rw [filterMap_insns]
    unfold emitPlain
    rw [hOp]
    simp [emitTransfer, emitRet]
  | condbr cond trueBb falseBb =>
    dsimp only
    rw [filterMap_append, filterMap_insns]
    simp
  | call funcName args callee =>
    dsimp only
    rw [filterMap_insns]
    unfold emitPlain
    rw [hOp]
    unfold emitCall beforeCall marshalArgs
    cases args with
    | nil => simp [padding]
    | cons arg rest => simp
  | _ => exact nil_prefix

/-- The instruction of the place reads the value. -/
def UsesAt (func : MirFunction) (v : MirValueId) (p : Place) : Prop :=
  ∃ inst, (func.insts p.1)[p.2]? = some inst ∧ v ∈ inst.op.operands

/-- Control passes through these places between the definition of the value, or the entry for a
parameter, and a use. -/
def DefUsePath (func : MirFunction) (v : MirValueId) (path : List Place) (use : Place) : Prop :=
  UsesAt func v use ∧
    ((∃ start, DefinedAt func start.1 start.2 v ∧
      (start :: path ++ [use]).IsChain (Flows func)) ∨
      (v ∈ func.params.map (·.valueId) ∧ (path ++ [use]).head? = some (0, 0) ∧
        (path ++ [use]).IsChain (Flows func)))

/-- The stack pointer is below the spill slots, as the prologue leaves it. -/
def InFrame (a : JitRegAlloc) (m : Machine) : Prop := m.regs .rsp = m.regs .rbp - frameBytes a

/-- Except for definitions of the value, no instruction along the path changes what its home holds,
and the using instruction does not until it has its operands. -/
structure SurvivesAlong (func : MirFunction) (a : JitRegAlloc) (v : MirValueId) (path : List Place)
    (use : Place) : Prop where
  between : ∀ (arith : Arithmetic) (before after : List Place) (p : Place)
    (callee : Machine → Machine)
    (m m' : Machine) (home : Home), path = before ++ p :: after → ¬DefinedAt func p.1 p.2 v →
    HasHome (a.v v) home → InFrame a m → RunsAlong func a arith Returns before m m' →
    (∀ m, Returns m (callee m)) →
      home.read (runAll arith callee (codeAt func a p) m') = home.read m'
  operands : ∀ (arith : Arithmetic) (callee : Machine → Machine) (m m' : Machine) (home : Home)
    (inst : MirInst), (func.insts use.1)[use.2]? = some inst →
      HasHome (a.v v) home → InFrame a m →
    RunsAlong func a arith Returns path m m' →
    home.read (runAll arith callee (operandCode a (linIdxAt func use) inst) m') = home.read m'

end

section

/-- The value is a parameter, or has a definition at this number or before. -/
def BegunBy (func : MirFunction) (v : MirValueId) (idx : Nat) : Prop :=
  v ∈ func.params.map (·.valueId) ∨
    ∃ i inst, i ≤ idx ∧ (jitInsts func)[i]? = some inst ∧ inst.result = v

/-- The value is mentioned at this number or behind. -/
def NeededFrom (func : MirFunction) (v : MirValueId) (idx : Nat) : Prop :=
  ∃ j inst, idx ≤ j ∧ (jitInsts func)[j]? = some inst ∧
    (v ∈ jraOperands inst.op ∨ inst.result = v)

/-- In the order of the block list, the value is live at this number. -/
def LivesAt (func : MirFunction) (v : MirValueId) (idx : Nat) : Prop :=
  BegunBy func v idx ∧ NeededFrom func v idx

/-- In the order of the block list, the value is live before this number and behind it. -/
def LivesAcross (func : MirFunction) (v : MirValueId) (idx : Nat) : Prop :=
  (v ∈ func.params.map (·.valueId) ∨
    ∃ i inst, i < idx ∧ (jitInsts func)[i]? = some inst ∧ inst.result = v) ∧
  NeededFrom func v (idx + 1)

/-- The instruction of the place stands where the value is live in the order of the block list, as
far as it has a result, and as far as it is a call and the value is in a register that the callee
may change. A division does not use `r10` where the value is there. -/
structure Spared (func : MirFunction) (a : JitRegAlloc) (v : MirValueId) (p : Place)
    (inst : MirInst) : Prop where
  result : inst.result ≠ 0 → inst.result ≠ v → LivesAt func v (linIdxAt func p)
  call : ∀ funcName args callee, inst.op = .call funcName args callee →
    (∃ r ∈ callerSavedPool, (a.v v).reg = some r) → LivesAcross func v (linIdxAt func p)
  division : ∀ op lhs rhs, inst.op = .binary op lhs rhs → op = .div ∨ op = .mod →
    (a.v v).reg = some .r10 → divScratch a lhs inst.result = false

/-- A division that uses the value does not load its dividend into `r10` where
the value is there. -/
def SparedByUse (func : MirFunction) (a : JitRegAlloc) (v : MirValueId) (use : Place) : Prop :=
  ∀ inst, (func.insts use.1)[use.2]? = some inst →
    ∀ op lhs rhs, inst.op = .binary op lhs rhs →
    op = .div ∨ op = .mod → (a.v v).reg = some .r10 → jraHomeReg a lhs ≠ none

theorem range_of_livesAt {idx : Nat} (hValue : IsValue (jitValueCount func) v)
    (h : LivesAt func v idx) :
    (liveRanges func v).first ≤ idx ∧ idx ≤ (liveRanges func v).last := by
  obtain ⟨hBegun, j, used, hj, hUsed, hMention⟩ := h
  constructor
  · rcases hBegun with hParam | ⟨i, defined, hi, hDefined, hResult⟩
    · rw [(liveIn_of_mem_params hParam hValue).1]
      omega
    · have hFirst := first_le_liveRanges hValue hDefined hResult
      omega
  · have hLast := le_last_liveRanges hValue hUsed hMention
    omega

theorem range_of_livesAcross {idx : Nat} (hValue : IsValue (jitValueCount func) v)
    (h : LivesAcross func v idx) :
    (liveRanges func v).first < idx ∧ idx < (liveRanges func v).last := by
  obtain ⟨hBegun, j, used, hj, hUsed, hMention⟩ := h
  constructor
  · rcases hBegun with hParam | ⟨i, defined, hi, hDefined, hResult⟩
    · rw [(liveIn_of_mem_params hParam hValue).1]
      omega
    · have hFirst := first_le_liveRanges hValue hDefined hResult
      omega
  · have hLast := le_last_liveRanges hValue hUsed hMention
    omega

end

section

/-- What the allocation has from the pass over the instructions. -/
structure Allocated (func : MirFunction) (a : JitRegAlloc) : Prop where
  count : a.n = jitValueCount func
  range : ∀ id, (a.v id).first = (liveRanges func id).first ∧
    (a.v id).last = (liveRanges func id).last
  used : ∀ id home, HasHome (a.v id) home → (a.v id).used = true

theorem allocated_of_jitRegalloc (h : jitRegalloc func = some a) : Allocated func a := by
  obtain ⟨s, done, now, rfl, _, hScanned, hDone⟩ := jitRegalloc_scanned h
  refine ⟨rfl, fun id => ⟨(hScanned.range id).1, (hScanned.range id).2.1⟩,
    fun id home hHome => ?_⟩
  have hMem : id ∈ done := by
    by_contra hNew
    obtain ⟨hReg, hSlot⟩ := hScanned.fresh id hNew
    cases home with
    | reg r =>
      rw [HasHome, hReg] at hHome
      cases hHome.1
    | slot k =>
      rw [HasHome, hSlot] at hHome
      cases hHome
  rw [(hScanned.range id).2.2]
  exact (hDone id).mp hMem

theorem apart_of_livesAt (hApart : HomesApart func a) (hAllocated : Allocated func a) {r : Reg}
    (hHome : HasHome (a.v v) (.reg r)) (hInst : (func.insts b)[k]? = some inst)
    (hOther : inst.result ≠ v)
    (hLives : inst.result ≠ 0 → inst.result ≠ v → LivesAt func v (linIdxAt func (b, k))) :
    jraHomeReg a inst.result ≠ some r := by
  intro hSame
  unfold jraHomeReg at hSame
  split at hSame
  · next hValue =>
      have hHome' : HasHome (a.v inst.result) (.reg r) := ⟨hSame, hHome.2⟩
      have hUsed := hAllocated.used v _ hHome
      have hUsed' := hAllocated.used inst.result _ hHome'
      have hRange := range_of_livesAt ((hApart.used_iff v).mp hUsed).1 (hLives hValue.1 hOther)
      have hNumber := getElem?_linIdxAt hInst
      rw [hAllocated.count] at hValue
      have hFirst := first_le_liveRanges hValue hNumber rfl
      have hLast := le_last_liveRanges hValue hNumber (.inr rfl)
      have hTogether : Intersects (a.v v) (a.v inst.result) := by
        unfold Intersects
        rw [(hAllocated.range v).1, (hAllocated.range v).2, (hAllocated.range inst.result).1,
          (hAllocated.range inst.result).2]
        omega
      exact hApart.apart v inst.result hOther.symm hUsed hUsed' hTogether _ hHome hHome'
  · cases hSame

theorem scratch_of_mem_pool {r : Reg} (h : r ∈ allocPool) : r ≠ .rax ∧ r ≠ .r11 := by
  have hAll : ∀ r ∈ allocPool, r ≠ .rax ∧ r ≠ .r11 := by decide
  exact hAll r h

theorem pool_cases {r : Reg} (h : r ∈ allocPool) :
    r ∈ calleeSaved ∨ r ∈ callerSavedPool := by
  have hAll : ∀ r ∈ allocPool, r ∈ calleeSaved ∨ r ∈ callerSavedPool := by decide
  exact hAll r h

theorem not_mayWrite_of_spared (hApart : HomesApart func a)
    (hAllocated : Allocated func a) {r : Reg}
    (hHome : HasHome (a.v v) (.reg r)) (hInst : (func.insts b)[k]? = some inst)
    (hOther : inst.result ≠ v)
    (hSpared : Spared func a v (b, k) inst) : ¬MayWrite a (linIdxAt func (b, k)) inst r := by
  have hPool := scratch_of_mem_pool hHome.2
  rintro (hRax | hR11 | hResult | hOp)
  · exact hPool.1 hRax
  · exact hPool.2 hR11
  · exact apart_of_livesAt hApart hAllocated hHome hInst hOther hSpared.result hResult
  · split at hOp
    · next lhs rhs hDiv =>
        have hFalse := hSpared.division _ lhs rhs hDiv (.inl rfl) (hOp.1 ▸ hHome.1)
        exact Bool.false_ne_true (hFalse.symm.trans hOp.2)
    · next lhs rhs hMod =>
        have hFalse := hSpared.division _ lhs rhs hMod (.inr rfl) (hOp.1 ▸ hHome.1)
        exact Bool.false_ne_true (hFalse.symm.trans hOp.2)
    · next funcName args callee' hCall =>
        have hCaller := (pool_cases hHome.2).resolve_left hOp.1
        have hUsed := hAllocated.used v _ hHome
        have hValue := ((hApart.used_iff v).mp hUsed).1
        have hAcross := range_of_livesAcross hValue
          (hSpared.call _ _ _ hCall ⟨r, hCaller, hHome.1⟩)
        refine hOp.2 (List.mem_filter.mpr
          ⟨hCaller, List.any_eq_true.mpr ⟨v, ?_, decide_eq_true ?_⟩⟩)
        · rw [hAllocated.count]
          exact List.mem_range.mpr hValue.2
        · rw [(hAllocated.range v).1, (hAllocated.range v).2]
          exact ⟨hUsed, hHome.1, hAcross.1, hAcross.2⟩
    · exact hOp

end

section

variable (hHoused : Housed a) (hCallee : ∀ m, Returns m (callee m))

theorem run_store (r : MirValueId) (x : Reg) (m : Machine) :
    (runAll arith callee (jraStoreResult a r x) m).regs = m.regs ∧
      ∀ address, (∀ k, (a.v r).spillSlot = some k → address ≠ m.regs .rbp - 8 * (k + 1)) →
        address < m.regs .rbp →
        (runAll arith callee (jraStoreResult a r x) m).stack address = m.stack address := by
  unfold jraStoreResult
  split
  · refine ⟨rfl, fun address hOther hBelow => m.setCell_of_ne ?_ _⟩
    unfold jraSlotDisp
    cases hSlot : (a.v r).spillSlot with
    | none =>
      dsimp only
      omega
    | some k =>
      have hNe := hOther k hSlot
      dsimp only
      omega
  · exact ⟨rfl, fun _ _ _ => rfl⟩

section

variable (hInst : (func.insts b)[k]? = some inst) (hStay : isReturn inst.op = false)
include hInst hStay

include hHoused hCallee in
theorem stores_codeAt :
    Stores a arith callee (MayWrite a (linIdxAt func (b, k)) inst) inst.result
      (codeAt func a (b, k)) := by
  rw [codeAt_eq hInst]
  exact straightCode_stores hHoused hCallee hStay _ _

include hHoused hCallee in
theorem pointers_codeAt (m : Machine) :
    (runAll arith callee (codeAt func a (b, k)) m).regs .rbp = m.regs .rbp ∧
      (runAll arith callee (codeAt func a (b, k)) m).regs .rsp = m.regs .rsp := by
  have hStores : Stores a arith callee (MayWrite a (linIdxAt func (b, k)) inst) inst.result
      (codeAt func a (b, k)) := stores_codeAt hHoused hCallee hInst hStay
  obtain ⟨core, rest, hCode, hEffect, hRest⟩ := hStores
  have hSame : (runAll arith callee rest (runAll arith callee core m)).regs =
      (runAll arith callee core m).regs := by
    rcases hRest with rfl | ⟨x, rfl⟩
    · rfl
    · exact (run_store inst.result x _).1
  rw [hCode, runAll_append, hSame]
  exact ⟨hEffect.base m, (hEffect.top m).trans (Int.add_zero _)⟩

include hHoused hCallee in
theorem inFrame_codeAt
    (hFrame : InFrame a m) : InFrame a (runAll arith callee (codeAt func a (b, k)) m) := by
  have hPointers : (runAll arith callee (codeAt func a (b, k)) m).regs .rbp = m.regs .rbp ∧
      (runAll arith callee (codeAt func a (b, k)) m).regs .rsp = m.regs .rsp :=
    pointers_codeAt hHoused hCallee hInst hStay m
  unfold InFrame
  rw [hPointers.1, hPointers.2]
  exact hFrame

end

/-- Code in the frame leaves a home alone that is no register it writes. -/
theorem read_of_effect {written : Reg → Prop} {depth : Int} {code : List Insn}
    (h : Effect arith callee written depth code) (hApart : HomesApart func a)
    (hHome : HasHome (a.v v) home) (hNot : ∀ r, home = .reg r → ¬written r)
    (hFrame : InFrame a m) :
    home.read (runAll arith callee code m) = home.read m := by
  cases home with
  | reg r => exact h.regs m r (plain_of_mem_pool hHome.2).1 (hNot r rfl)
  | slot n =>
    have hRoom := hApart.slot_lt v n hHome
    have hTop : m.regs .rsp ≤ m.regs .rbp - 8 * (n + 1) := by
      have hPointer : m.regs .rsp = m.regs .rbp - frameBytes a := hFrame
      unfold frameBytes at hPointer
      omega
    calc (runAll arith callee code m).stack ((runAll arith callee code m).regs .rbp - 8 * (n + 1))
      _ = (runAll arith callee code m).stack (m.regs .rbp - 8 * (n + 1)) := by rw [h.base m]
      _ = m.stack (m.regs .rbp - 8 * (n + 1)) := h.stack m _ hTop

include hHoused hCallee in
theorem read_codeAt (hApart : HomesApart func a) (hAllocated : Allocated func a)
    (hHome : HasHome (a.v v) home) (hInst : (func.insts b)[k]? = some inst)
    (hOther : inst.result ≠ v)
    (hStay : isReturn inst.op = false) (hSpared : Spared func a v (b, k) inst)
    (hFrame : InFrame a m) :
    home.read (runAll arith callee (codeAt func a (b, k)) m) = home.read m := by
  have hStores : Stores a arith callee (MayWrite a (linIdxAt func (b, k)) inst) inst.result
      (codeAt func a (b, k)) := stores_codeAt hHoused hCallee hInst hStay
  obtain ⟨core, rest, hCode, hEffect, hRest⟩ := hStores
  have hCore : home.read (runAll arith callee core m) = home.read m :=
    read_of_effect hEffect hApart hHome (fun r hReg =>
      not_mayWrite_of_spared hApart hAllocated (hReg ▸ hHome) hInst hOther hSpared) hFrame
  rw [hCode, runAll_append, ← hCore]
  rcases hRest with rfl | ⟨x, rfl⟩
  · rfl
  · obtain ⟨hRegs, hStack⟩ :=
      @run_store a arith callee inst.result x (runAll arith callee core m)
    cases home with
    | reg r => exact congrFun hRegs r
    | slot n =>
      unfold Home.read
      dsimp only
      rw [hRegs, hStack]
      · intro k hSlot hSame
        have hEq : n = k := by omega
        exact hOther (hApart.slots inst.result v n (hEq ▸ hSlot) hHome)
      · omega

theorem effect_padding {written : Reg → Prop} (count : Nat) :
    ∃ depth ≤ 0, Effect arith callee written depth (padding count (.subRspImm32 8)) := by
  unfold padding
  split
  · exact ⟨-8, by decide, effect_sub 8⟩
  · exact ⟨0, Int.le_refl 0, effect_nil⟩

theorem effect_pushes {written : Reg → Prop} (regs : List Reg) :
    ∃ depth ≤ 0, Effect arith callee written depth (regs.map .push) := by
  induction regs with
  | nil => exact ⟨0, Int.le_refl 0, effect_nil⟩
  | cons r rest ih =>
    obtain ⟨depth, hDown, hRest⟩ := ih
    exact ⟨-8 + depth, by omega, (effect_push r).append hRest (by decide)⟩

/-- The registers that bringing the operands may change: the scratch registers, and `r10` for a
dividend that has no register. -/
def WrittenForOperands (a : JitRegAlloc) (inst : MirInst) (x : Reg) : Prop :=
  x = .rax ∨ x = .r11 ∨ x = .r10 ∧ ∃ op lhs rhs, inst.op = .binary op lhs rhs ∧
    (op = .div ∨ op = .mod) ∧ jraHomeReg a lhs = none

theorem effect_operandCode (a : JitRegAlloc) (linIdx : Int) (inst : MirInst) :
    ∃ depth, Effect arith callee (WrittenForOperands a inst) depth
      (operandCode a linIdx inst) := by
  have hLoad : ∀ id, Effect arith callee (WrittenForOperands a inst) 0
      (jraLoadOperand a id .rax).1 :=
    fun id => effect_load (by decide) fun _ => .inl rfl
  have hLoads : ∀ lhs rhs, Effect arith callee (WrittenForOperands a inst) 0
      ((jraLoadOperand a lhs .rax).1 ++ (jraLoadOperand a rhs .r11).1) :=
    fun lhs rhs => effect_loads (.inl rfl) (.inr (.inl rfl))
  have hDivision : ∀ op lhs rhs (saves : Prop) [Decidable saves] (rs : Reg),
      inst.op = .binary op lhs rhs → op = .div ∨ op = .mod →
      Effect arith callee (WrittenForOperands a inst) (-8)
        ([.push .rdx] ++ (jraLoadOperand a lhs .r10).1 ++ (jraLoadOperand a rhs .r11).1 ++
          (if saves then [.movRR .r11 rs] else []) ++
            [.movRR .rax (jraLoadOperand a lhs .r10).2]) := by
    intro op lhs rhs saves _ rs hOp hDivides
    have hOperands : Effect arith callee (WrittenForOperands a inst) 0
        ((jraLoadOperand a lhs .r10).1 ++ (jraLoadOperand a rhs .r11).1) :=
      (effect_load (by decide) fun hNone =>
        .inr (.inr ⟨rfl, op, lhs, rhs, hOp, hDivides, hNone⟩)).then
        (effect_load (by decide) fun _ => .inr (.inl rfl))
    have hSaved : Effect arith callee (WrittenForOperands a inst) 0
        (if saves then [.movRR .r11 rs] else []) := by
      split
      · exact effect_dst rfl rfl (by decide) (.inr (.inl rfl))
      · exact effect_nil
    have hDividend : Effect arith callee (WrittenForOperands a inst) 0
        [.movRR .rax (jraLoadOperand a lhs .r10).2] := effect_dst rfl rfl (by decide) (.inl rfl)
    have hAll := (effect_push .rdx).append ((hOperands.then hSaved).then hDividend) (by decide)
    simpa only [append_assoc, Int.add_zero] using hAll
  unfold operandCode
  cases hOp : inst.op with
  | binary op lhs rhs =>
    cases op with
    | add | sub | mul | cmpLt | cmpLe | cmpEq | cmpNe | cmpGt
    | cmpGe => exact ⟨0, hLoads lhs rhs⟩
    | div | mod => exact ⟨-8, hDivision _ _ _ _ _ hOp (by decide)⟩
    | _ => exact ⟨0, effect_nil⟩
  | unary op operand type =>
    cases op with
    | neg => exact ⟨0, hLoad operand⟩
    | _ => exact ⟨0, effect_nil⟩
  | transfer | ret | condbr => exact ⟨0, hLoad _⟩
  | call funcName args target =>
    obtain ⟨pad, hPad, hSavePad⟩ := effect_padding (savedRegs a linIdx).length
    obtain ⟨saved, hSaved, hSaves⟩ := effect_pushes (savedRegs a linIdx)
    obtain ⟨pad', hPad', hArgPad⟩ := effect_padding args.length
    have hArgs : Effect arith callee (WrittenForOperands a inst) (-8 * args.reverse.length)
        (args.reverse.flatMap (pushArg a)) := effect_pushArgs (.inl rfl) args.reverse
    exact ⟨_, ((hSavePad.append hSaves hPad).append hArgPad (by omega)).append hArgs (by omega)⟩
  | _ => exact ⟨0, effect_nil⟩

end

section

/-- Each place of a path to a use has an instruction that does not return. -/
theorem stays_of_path (hPath : DefUsePath func v path use) : ∀ p ∈ path, ∃ inst,
    (func.insts p.1)[p.2]? = some inst ∧ isReturn inst.op = false := by
  have hFlows : (path ++ [use]).IsChain (Flows func) → ∀ p ∈ path, ∃ q, Flows func p q := by
    clear hPath
    induction path with
    | nil => exact nofun
    | cons first rest ih =>
      intro hChain p hMem
      rcases List.mem_cons.mp hMem with rfl | hRest
      · cases rest with
        | nil => exact ⟨use, (List.isChain_cons_cons.mp hChain).1⟩
        | cons second rest => exact ⟨second, (List.isChain_cons_cons.mp hChain).1⟩
      · exact ih hChain.tail p hRest
  obtain ⟨_, hStart⟩ := hPath
  have hChain : (path ++ [use]).IsChain (Flows func) := by
    rcases hStart with ⟨start, _, hChain⟩ | ⟨_, _, hChain⟩
    · exact hChain.tail
    · exact hChain
  intro p hMem
  obtain ⟨q, hFlow⟩ := hFlows hChain p hMem
  have hInst : ∃ inst, (func.insts p.1)[p.2]? = some inst := by
    cases hFlow with
    | next hInst _ => exact ⟨_, hInst⟩
    | branch hInst _ _ => exact ⟨_, hInst⟩
  obtain ⟨inst, hInst⟩ := hInst
  exact ⟨inst, hInst, hFlow.isReturn hInst⟩

theorem inFrame_runsAlong (hHoused : Housed a) (hRun : RunsAlong func a arith Returns path m m')
    (hStays : ∀ p ∈ path, ∃ inst, (func.insts p.1)[p.2]? = some inst ∧
      isReturn inst.op = false)
    (hFrame : InFrame a m) : InFrame a m' := by
  induction hRun with
  | nil m => exact hFrame
  | @cons p rest callee m m' hCallee hRest ih =>
    rw [List.forall_mem_cons] at hStays
    obtain ⟨⟨inst, hInst, hStay⟩, hLater⟩ := hStays
    exact ih hLater (inFrame_codeAt hHoused hCallee hInst hStay hFrame)

/-- On a path from the definition of a value to a use the home of the value is left alone, where
each instruction of the path spares it and the use does. -/
theorem jit_regalloc_homes_survive (hAlloc : jitRegalloc func = some a)
    (hPath : DefUsePath func v path use)
    (hSpared : ∀ p ∈ path, ∀ inst,
      (func.insts p.1)[p.2]? = some inst → Spared func a v p inst)
    (hUse : SparedByUse func a v use) : SurvivesAlong func a v path use := by
  have hHoused := housed_of_jitRegalloc hAlloc
  have hApart := jit_regalloc_homes_apart hAlloc
  have hStays := stays_of_path hPath
  refine ⟨?_, ?_⟩
  · intro arith before after p callee m m' home hSplit hNot hHome hFrame hRun hCallee
    have hHere : p ∈ path := by
      rw [hSplit]
      exact mem_append_right _ mem_cons_self
    have hBefore : ∀ q ∈ before, q ∈ path := by
      intro q hq
      rw [hSplit]
      exact mem_append_left _ hq
    obtain ⟨inst, hInst, hStay⟩ := hStays p hHere
    have hOther : inst.result ≠ v := fun hResult => hNot ⟨inst, hInst, hResult⟩
    have hFrame' : InFrame a m' :=
      inFrame_runsAlong hHoused hRun (fun q hq => hStays q (hBefore q hq)) hFrame
    exact read_codeAt hHoused hCallee hApart
      (allocated_of_jitRegalloc hAlloc) hHome hInst hOther hStay
      (hSpared p hHere inst hInst) hFrame'
  · intro arith callee m m' home inst hInst hHome hFrame hRun
    obtain ⟨depth, hEffect⟩ := effect_operandCode a (linIdxAt func use) inst
    refine read_of_effect hEffect hApart hHome (fun r hReg => ?_)
      (inFrame_runsAlong hHoused hRun hStays hFrame)
    subst hReg
    rintro (hRax | hR11 | ⟨hR10, op, lhs, rhs, hOp, hDivides, hNone⟩)
    · exact absurd hRax (scratch_of_mem_pool hHome.2).1
    · exact absurd hR11 (scratch_of_mem_pool hHome.2).2
    · exact hUse inst hInst op lhs rhs hOp hDivides (hR10 ▸ hHome.1) hNone

end

section

/-- The block with the definition is listed behind the one with the use. -/
def lateDefinition : MirFunction where
  name := "late_definition"
  nextValueId := 3
  blocks := [
    { insts := [{ op := .br (some 2) }] },
    { insts := [{ op := .ret 1 }] },
    { insts := [
        { op := .constInt 5, result := 1 },
        { op := .constInt 6, result := 2 },
        { op := .br (some 1) }] }]

theorem usesDominated_lateDefinition : UsesDominated lateDefinition where
  uses b k inst hInst hPhi id hId := by
    have hOnly : ∀ (b : MirBlockId) (k : Nat)
      (inst : MirInst), (lateDefinition.insts b)[k]? = some inst →
        ∀ check ∈ operandChecks inst.op, b = 1 ∧ check.1 = 1 := by decide
    obtain ⟨check, hCheck, rfl⟩ := List.mem_map.mp hId
    obtain ⟨rfl, hValue⟩ := hOnly b k inst hInst check hCheck
    rw [hValue]
    refine .inr (.inr ⟨2, 0, ⟨_, rfl, rfl⟩, .inr ⟨by decide, fun hAvoids => ?_⟩⟩)
    have hEntry : ∀ {c : MirBlockId},
        Library.Avoiding (fun a b => b ∈ lateDefinition.targets a) 0 2 c → c = 0 := by
      intro c hAvoids
      induction hAvoids with
      | entry _ => rfl
      | step _ hNext hOther ih =>
        subst ih
        exact absurd (List.mem_singleton.mp hNext) hOther
    exact absurd (hEntry hAvoids) (by decide)
  phis b k inst edges hInst hOp := by
    have hNone : ∀ (b : MirBlockId) (k : Nat)
      (inst : MirInst), (lateDefinition.insts b)[k]? = some inst →
        inst.op.isPhi = false := by decide
    have hPhi := hNone b k inst hInst
    rw [hOp] at hPhi
    cases hPhi

/-- The second constant goes to the register of the first one, which is returned behind it. -/
theorem late_definition_is_overwritten : ∃ a, jitFunctionIsSupported lateDefinition = true ∧
    SsaForm lateDefinition ∧ UsesDominated lateDefinition ∧
    jitRegalloc lateDefinition = some a ∧
    ¬∀ v path use, DefUsePath lateDefinition v path use →
      SurvivesAlong lateDefinition a v path use := by
  have hOk : (jitRegalloc lateDefinition).map (fun a =>
    (a.n, a.nSpillSlots, (a.v 1).reg, (a.v 2).reg)) =
      some (3, 0, some .rcx, some .rcx) := by decide +kernel
  obtain ⟨a, hAlloc, hValues⟩ := Option.map_eq_some_iff.mp hOk
  simp only [Prod.mk.injEq] at hValues
  obtain ⟨hCount, hSlots, hFirst, hSecond⟩ := hValues
  refine ⟨a, by decide, by decide, usesDominated_lateDefinition, hAlloc, fun hAll => ?_⟩
  have hPath : DefUsePath lateDefinition 1 [(2, 1), (2, 2)] (1, 0) := by
    refine ⟨⟨_, rfl, by decide⟩, .inl ⟨(2, 0), ⟨_, rfl, rfl⟩, ?_⟩⟩
    refine .cons_cons (.next rfl rfl) (.cons_cons (.next rfl rfl) (.cons_cons ?_ (.singleton _)))
    exact .branch (by exact rfl) rfl (List.mem_singleton.mpr rfl)
  have hNot : ¬DefinedAt lateDefinition 2 1 1 := by
    rintro ⟨inst, hInst, hResult⟩
    cases hInst
    exact absurd hResult (by decide)
  have hFrame : InFrame a { regs := fun r =>
      if r = .rsp then -8 else 0, stack := fun _ => 0, compared := (0, 0) } := by
    unfold InFrame frameBytes
    rw [hSlots]
    decide
  have hSame := (hAll 1 _ _ hPath).between (fun _ _ _ => 0) [] [(2, 2)]
    (2, 1) id _ _ (.reg .rcx) rfl hNot
    ⟨hFirst, by decide⟩ hFrame (.nil _) fun m => ⟨fun _ _ => rfl, fun _ _ => rfl⟩
  have hCode : codeAt lateDefinition a (2, 1) = [.movRImm64 .rcx 6] := by
    have hResult : jraResultReg a 2 .rax = .rcx := by
      unfold jraResultReg
      rw [hCount, hSecond]
      rfl
    have hStore : jraStoreResult a 2 .rcx = [] := by
      unfold jraStoreResult
      rw [hSecond]
      exact if_neg fun h => nomatch h.2
    rw [codeAt_eq rfl]
    unfold straightCode emitInst emitPlain emitConst
    dsimp only
    rw [hResult, hStore]
    rfl
  rw [hCode] at hSame
  exact absurd hSame (by decide)

/-- A function that calls itself while its parameter is live. -/
def shrinking : MirFunction where
  name := "shrinking"
  nextValueId := 7
  params := [{ name := "x", type := none, valueId := 1 }]
  blocks := [
    { insts := [
        { op := .constInt 1, result := 2 },
        { op := .binary .cmpLe 1 2, result := 3 },
        { op := .condbr 3 (some 1) (some 2) }] },
    { insts := [{ op := .ret 2 }] },
    { insts := [
        { op := .binary .sub 1 2, result := 4 },
        { op := .call (some "shrinking") [4] 0, result := 5 },
        { op := .binary .div 5 1, result := 6 },
        { op := .ret 6 }] }]

/-- The parameter is still in its home when it divides what the call returns. -/
theorem shrinking_keeps_its_parameter : ∃ a, jitRegalloc shrinking = some a ∧
    SurvivesAlong shrinking a 1 [(0, 0), (0, 1), (0, 2), (2, 0), (2, 1)] (2, 2) := by
  have hOk : (jitRegalloc shrinking).map (fun a => (a.v 1).reg) = some (some .rcx) := by
    decide +kernel
  obtain ⟨a, hAlloc, hReg⟩ := Option.map_eq_some_iff.mp hOk
  refine ⟨a, hAlloc, jit_regalloc_homes_survive hAlloc ?_ (fun p hp inst hInst => ?_) ?_⟩
  · refine ⟨⟨_, rfl, by decide⟩, .inr ⟨by decide, rfl, ?_⟩⟩
    refine .cons_cons (.next rfl rfl) (.cons_cons (.next rfl rfl) (.cons_cons ?_
      (.cons_cons (.next rfl rfl) (.cons_cons (.next rfl rfl) (.singleton _)))))
    exact .branch (by exact rfl) rfl (List.mem_cons_of_mem _ (List.mem_singleton.mpr rfl))
  · have hBefore : ∀ p ∈ [(0, 0), (0, 1), (0, 2), (2, 0), (2, 1)],
        linIdxAt shrinking p + 1 ≤ 6 := by decide
    have hParam : 1 ∈ shrinking.params.map (·.valueId) := by decide
    have hLinear := hBefore p hp
    refine ⟨fun _ _ => ⟨.inl hParam, 6, _, by omega, rfl, .inl (by decide)⟩,
      fun _ _ _ _ _ => ⟨.inl hParam, 6, _, hLinear, rfl, .inl (by decide)⟩, ?_⟩
    intro op lhs rhs hOp hKind _
    simp only [List.mem_cons, List.not_mem_nil, or_false] at hp
    rcases hp with rfl | rfl | rfl | rfl | rfl <;> cases hInst <;> cases hOp <;>
      rcases hKind with h | h <;> cases h
  · intro inst _ op lhs rhs _ _ hR10
    rw [hReg] at hR10
    cases hR10

end

end Casprix.Jit
