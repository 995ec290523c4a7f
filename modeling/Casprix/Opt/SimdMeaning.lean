import Casprix.Library.Machine
import Casprix.Opt.SimdConverges

/-! What vector instructions compute lane by lane, and when legalization keeps it. -/
namespace Casprix.Opt

open List Mir
open Library

/-- The values assigned so far, each with its lanes, and memory. -/
structure LaneState (Memory : Type) where
  values : MirValueId → List Word
  memory : Memory

inductive LaneOutcome (Memory : Type) where
  | next (st : LaneState Memory)
  | jump (target : MirBlockRef) (st : LaneState Memory)
  | done (value : List Word) (memory : Memory)

/-- The arithmetic of one lane, the memory that lanes are kept in, and what instructions do
that are neither vector instructions nor their scalar forms. -/
structure LaneUnit (Memory : Type) where
  binary : BinaryOp → Option MirType → Word → Word → Word
  min : Option MirType → Word → Word → Word
  max : Option MirType → Word → Word → Word
  read : Memory → Word → Word
  write : Memory → Word → Word → Memory
  other : MirInst → MirBlockRef → LaneState Memory → LaneOutcome Memory

section

variable {Memory : Type}

namespace LaneState

def assign (st : LaneState Memory) (id : MirValueId) (lanes : List Word) : LaneState Memory :=
  { st with values := Function.update st.values id lanes }

/-- A lane of a value, zero where it has no such lane. -/
def lane (st : LaneState Memory) (id : MirValueId) (k : Nat) : Word := (st.values id).getD k 0

end LaneState

/-- The lanes that an instruction is about. A width of zero stands for those of the target. -/
def laneCount (target : SimdTarget) (width : Int) (laneType : Option MirType) : Nat :=
  if width = 0 then (simdNativeLanes target laneType).toNat else width.toNat

/-- Lanes are one after the other in memory. -/
def laneAddress (laneType : Option MirType) (ptr : Word) (k : Nat) : Word :=
  ptr + BitVec.ofInt 64 (k * simdLaneBytes laneType)

namespace LaneUnit

variable (unit : LaneUnit Memory)

def add (laneType type : Option MirType) : Word → Word → Word :=
  unit.binary (if isFloatLane laneType then .fadd else .add) type

def mul (laneType type : Option MirType) : Word → Word → Word :=
  unit.binary (if isFloatLane laneType then .fmul else .mul) type

/-- The sum of lanes, from the first on. -/
def sum (laneType type : Option MirType) : List Word → Word
  | [] => 0
  | x :: xs => xs.foldl (unit.add laneType type) x

/-- A lane of a mask is all ones or all zeros. -/
def mask (v : Word) : Word := if v = 0 then 0 else BitVec.allOnes 64

/-- What an opcode computes from the lanes of its operands. -/
def laneValue (op : VecOp) (laneType type : Option MirType) (x y z : Word) : Word :=
  match op with
  | .fma => unit.add laneType type (unit.mul laneType type x y) z
  | .select => if x = 0 then z else y
  | .min => unit.min type x y
  | .max => unit.max type x y
  | .cmpEq => mask (unit.binary .cmpEq type x y)
  | .cmpLt => mask (unit.binary .cmpLt type x y)
  | .cmpGt => mask (unit.binary .cmpGt type x y)
  | op => ((scalarOpForVec op (isFloatLane laneType)).map fun op => unit.binary op type x y).getD 0

/-- A vector instruction of `n` lanes. -/
def execVec (result : MirValueId) (type : Option MirType) (op : VecOp)
    (a b c : MirValueId) (n : Nat)
    (laneType : Option MirType) (st : LaneState Memory) : LaneState Memory :=
  let lanes := List.range n
  match op with
  | .load | .loadUnaligned =>
    st.assign result (lanes.map fun k => unit.read st.memory (laneAddress laneType (st.lane a 0) k))
  | .store | .storeUnaligned =>
    { st with memory := lanes.foldl (fun memory k =>
        unit.write memory (laneAddress laneType (st.lane a 0) k) (st.lane b k)) st.memory }
  | .broadcast => st.assign result (lanes.map fun _ => st.lane a 0)
  | .reduceSum => st.assign result [unit.sum laneType type (lanes.map fun k => st.lane a k)]
  | .dot =>
    st.assign result [unit.sum laneType type (lanes.map fun k =>
      unit.mul laneType type (st.lane a k) (st.lane b k))]
  | op => st.assign result
      (lanes.map fun k => unit.laneValue op laneType type (st.lane a k) (st.lane b k) (st.lane c k))

/-- An instruction. The scalar ones read the first lane and give one lane. -/
def exec (target : SimdTarget) (inst : MirInst) (prev : MirBlockRef) (st : LaneState Memory) :
    LaneOutcome Memory :=
  match inst.op with
  | .vec op a b c width laneType =>
    .next (unit.execVec inst.result inst.type op a b c
      (laneCount target width laneType) laneType st)
  | .load ptr => .next (st.assign inst.result [unit.read st.memory (st.lane ptr 0)])
  | .store ptr value => .next
    { st with memory := unit.write st.memory (st.lane ptr 0) (st.lane value 0) }
  | .transfer .copy source => .next (st.assign inst.result [st.lane source 0])
  | .binary op lhs rhs => .next
    (st.assign inst.result [unit.binary op inst.type (st.lane lhs 0) (st.lane rhs 0)])
  | _ => unit.other inst prev st

end LaneUnit

inductive LaneConfig (Memory : Type) where
  | running (block : MirBlockId) (place : Nat) (prev : MirBlockRef) (st : LaneState Memory)
  | done (value : List Word) (memory : Memory)

/-- One instruction. A null block and the end of a block have no step. -/
def laneStep (target : SimdTarget) (unit : LaneUnit Memory) (func : MirFunction) :
    LaneConfig Memory → Option (LaneConfig Memory)
  | .done .. => none
  | .running block place prev st =>
    (func.insts block)[place]?.bind fun inst =>
      match unit.exec target inst prev st with
      | .next st => some (.running block (place + 1) prev st)
      | .jump next st => next.map fun next => .running next 0 (some block) st
      | .done value memory => some (.done value memory)

/-- The function returns a value and leaves this memory. -/
def Computes (target : SimdTarget) (unit : LaneUnit Memory)
    (func : MirFunction) (st : LaneState Memory)
    (value : List Word) (memory : Memory) : Prop :=
  ∃ n, runFor (laneStep target unit func) n (.running 0 0 none st) = .done value memory

theorem computes_unique {target : SimdTarget} {unit : LaneUnit Memory}
    {func : MirFunction} {st : LaneState Memory}
    {value value' : List Word} {memory memory' : Memory}
    (h : Computes target unit func st value memory)
    (h' : Computes target unit func st value' memory') : value = value' ∧ memory = memory' := by
  obtain ⟨n, hRun⟩ := h
  obtain ⟨m, hRun'⟩ := h'
  have hLong : runFor (laneStep target unit func) (n + m) (.running 0 0 none st) =
      .done value memory := by
    rw [runFor_add, hRun, runFor_of_none rfl]
  have hLong' : runFor (laneStep target unit func) (n + m) (.running 0 0 none st) =
      .done value' memory' := by
    rw [add_comm, runFor_add, hRun', runFor_of_none rfl]
  injection hLong.symm.trans hLong' with hValue hMemory
  exact ⟨hValue, hMemory⟩

end

/-- Legalization does not change what a function returns and stores, from any state. -/
def SameMeaning (target : SimdTarget) (func : MirFunction) : Prop :=
  ∀ (Memory : Type) (unit : LaneUnit Memory) (st : LaneState Memory)
    (value : List Word) (memory : Memory),
    Computes target unit (simdLegalizeFunction target func).1 st value memory ↔
      Computes target unit func st value memory

/-- The rewriting of an instruction is right: without vectors, it is about one lane and neither a
product of vectors nor a comparison; with vectors, one register is wide enough, and a fused
multiplication is there if it is asked for. -/
def Kept (target : SimdTarget) (op : MirOp) : Prop :=
  match op with
  | .vec op _ _ _ width laneType =>
    if scalarLanes target laneType = true then
      width ≤ 1 ∧ (scalarizable op = true → laneCount target width laneType = 1 ∧
        op ≠ .dot ∧ op ≠ .cmpEq ∧ op ≠ .cmpLt ∧ op ≠ .cmpGt)
    else width ≤ simdNativeLanes target laneType ∧ ¬ (op = .fma ∧ simdHasFma target = false)
  | _ => True

/-- The instruction as a visit leaves it when it is kept. -/
def keptForm (target : SimdTarget) (inst : MirInst) : MirInst :=
  match inst.op with
  | .vec _ _ _ _ _ laneType =>
    if scalarLanes target laneType = true then (scalarizeInPlace inst).1 else inst
  | _ => inst

section

variable {Memory : Type} {target : SimdTarget} {func : MirFunction} {inst : MirInst}
  {insts : List MirInst} {blocks : List MirBlock}

variable (func) in
theorem legalizeInst_of_kept (h : Kept target inst.op) :
    (legalizeInst target func inst).inst = keptForm target inst ∧
      (legalizeInst target func inst).clones = [] ∧
      (legalizeInst target func inst).func = func := by
  have hFunc := (func_legalizeInst target func inst).2
  cases hOp : inst.op
  case vec op a b c width laneType =>
    rw [hOp] at h
    by_cases hLanes : scalarLanes target laneType = true
    · simp only [Kept, if_pos hLanes] at h
      have hNarrow : ¬ 1 < width := Int.not_lt.mpr h.1
      have hCount : (width - 1).toNat = 0 := by omega
      have hNone : (legalizeInst target func inst).clones = [] := by
        simp only [legalizeInst, hOp, if_pos hLanes, scalarizeLanes, hCount,
          replicate_zero, insertClones,
          map_nil]
      refine ⟨?_, hNone, hFunc hNone⟩
      simp only [legalizeInst, keptForm, hOp, if_pos hLanes, scalarizeLanes, if_neg hNarrow]
      rw [← hOp]
    · simp only [Kept, if_neg hLanes] at h
      have hFits := Int.not_lt.mpr h.1
      obtain ⟨hInst, -, hNone, -⟩ := legalizeInst_split func hOp hLanes
      have hKept : keptForm target inst = inst := by
        simp only [keptForm, hOp, if_neg hLanes]
      refine ⟨?_, hNone hFits, hFunc (hNone hFits)⟩
      rw [hKept, hInst, if_neg h.2, Int.min_eq_right h.1, ← hOp]
  all_goals
    simp only [legalizeInst, keptForm, hOp]
    exact ⟨trivial, trivial, trivial⟩

@[simp] theorem laneAddress_zero (laneType : Option MirType) (ptr : Word) :
    laneAddress laneType ptr 0 = ptr := by
  simp [laneAddress]

section

variable (unit : LaneUnit Memory) (prev : MirBlockRef) (st : LaneState Memory)

theorem exec_scalarForm {scalar : MirOp}
    {op : VecOp} {a b c : MirValueId} {laneType : Option MirType}
    (h : scalarForm op a b laneType = some scalar)
    (hOp : op ≠ .dot ∧ op ≠ .cmpEq ∧ op ≠ .cmpLt ∧ op ≠ .cmpGt) :
    unit.exec target { inst with op := scalar } prev st =
      .next (unit.execVec inst.result inst.type op a b c 1 laneType st) := by
  obtain ⟨hDot, hEq, hLt, hGt⟩ := hOp
  cases op
  case dot => exact absurd rfl hDot
  case cmpEq => exact absurd rfl hEq
  case cmpLt => exact absurd rfl hLt
  case cmpGt => exact absurd rfl hGt
  case fma | select | min | max => exact (nomatch h)
  all_goals
    obtain rfl := Option.some.inj h
    simp [LaneUnit.exec, LaneUnit.execVec, LaneUnit.laneValue, LaneUnit.sum, scalarOpForVec]

theorem exec_keptForm (h : Kept target inst.op) :
    unit.exec target (keptForm target inst) prev st = unit.exec target inst prev st := by
  cases hOp : inst.op
  case vec op a b c width laneType =>
    by_cases hLanes : scalarLanes target laneType = true
    · rw [hOp] at h
      simp only [Kept, if_pos hLanes] at h
      obtain ⟨hWidth, hScalar⟩ := h
      have hKept : keptForm target inst = (scalarizeInPlace inst).1 := by
        simp only [keptForm, hOp, if_pos hLanes]
      cases hForm : scalarizable op with
      | true =>
        obtain ⟨hOne, hOthers⟩ := hScalar hForm
        obtain ⟨scalar, hScalarForm, hInst⟩ := scalarizeInPlace_some hOp hForm
        rw [hKept, hInst, exec_scalarForm (c := c) unit prev st hScalarForm hOthers]
        simp only [LaneUnit.exec, hOp, hOne]
      | false =>
        rw [hKept, scalarizeInPlace_none hOp hForm, Int.min_eq_right hWidth, ← hOp]
    · have hKept : keptForm target inst = inst := by
        simp only [keptForm, hOp, if_neg hLanes]
      rw [hKept]
  all_goals simp only [keptForm, hOp]

end

variable (func) in
theorem legalizeInsts_of_kept (h : ∀ inst ∈ insts, Kept target inst.op) :
    (legalizeInsts target func insts).func = func ∧
      (legalizeInsts target func insts).insts = insts.map (keptForm target) := by
  induction insts with
  | nil =>
    rw [legalizeInsts]
    exact ⟨rfl, rfl⟩
  | cons inst rest ih =>
    obtain ⟨hInst, hClones, hFunc⟩ := legalizeInst_of_kept func (h inst mem_cons_self)
    obtain ⟨hTailFunc, hTail⟩ := ih fun other hOther => h other (mem_cons_of_mem inst hOther)
    rw [legalizeInsts]
    simp only [hInst, hClones, hFunc, nil_append, hTailFunc, hTail]
    exact ⟨trivial, rfl⟩

variable (func) in
theorem legalizeBlocks_of_kept
    (h : ∀ block ∈ blocks, ∀ inst ∈ block.insts, Kept target inst.op) :
    (legalizeBlocks target func blocks).func = func ∧ (legalizeBlocks target func blocks).blocks =
      blocks.map fun block => { block with insts := block.insts.map (keptForm target) } := by
  induction blocks with
  | nil => exact ⟨rfl, rfl⟩
  | cons first rest ih =>
    obtain ⟨hFunc, hInsts⟩ := legalizeInsts_of_kept func (h first mem_cons_self)
    obtain ⟨hTailFunc, hTail⟩ := ih fun block hBlock => h block (mem_cons_of_mem first hBlock)
    simp only [legalizeBlocks, hFunc, hInsts, hTailFunc, hTail]
    exact ⟨trivial, rfl⟩

theorem getElem?_insts_of_kept (h : EveryInst func (Kept target))
    (block : MirBlockId) (place : Nat) :
    ((simdLegalizeFunction target func).1.insts block)[place]? =
      ((func.insts block)[place]?).map (keptForm target) := by
  have hBlocks := (legalizeBlocks_of_kept func h).2
  simp only [simdLegalizeFunction, MirFunction.insts, MirFunction.block?, hBlocks, getElem?_map]
  cases func.blocks[block]? with
  | none => rfl
  | some found => exact getElem?_map

theorem kept_of_getElem? (h : EveryInst func (Kept target)) {block : MirBlockId} {place : Nat}
    (hInst : (func.insts block)[place]? = some inst) : Kept target inst.op := by
  have hMem := mem_of_getElem? hInst
  unfold MirFunction.insts MirFunction.block? at hMem
  generalize hBlock : func.blocks[block]? = value at hMem
  cases value with
  | none =>
    exact (nomatch hMem)
  | some found =>
    exact h found (mem_of_getElem? hBlock) inst hMem

theorem laneStep_of_kept (unit : LaneUnit Memory) (h : EveryInst func (Kept target)) :
    laneStep target unit (simdLegalizeFunction target func).1 = laneStep target unit func := by
  funext config
  cases config with
  | done value memory => rfl
  | running block place prev st =>
    rw [laneStep, laneStep, getElem?_insts_of_kept h]
    cases hInst : (func.insts block)[place]? with
    | none => rfl
    | some inst =>
      rw [Option.map_some, Option.bind_some, Option.bind_some,
        exec_keptForm unit prev st (kept_of_getElem? h hInst)]

/-- A function whose instructions are all kept means the same afterwards. -/
theorem sameMeaning_of_kept (h : EveryInst func (Kept target)) : SameMeaning target func := by
  intro Memory unit st value memory
  rw [Computes, Computes, laneStep_of_kept unit h]

end

/-- Loads lanes, and stores what an opcode computes of them. -/
def fmaKernel (op : VecOp) (width : Int) : MirFunction where
  name := "kernel"
  nextValueId := 6
  blocks := [{ insts := [
    { op := .vec .load 1 0 0 width (some .f32), result := 4, type := some .f32 },
    { op := .vec op 4 4 4 width (some .f32), result := 5, type := some .f32 },
    { op := .vec .store 1 5 0 width (some .f32), type := some .void },
    { op := .retVoid }] }]

/-- Without vectors the kernel of one lane is rewritten to scalar instructions. -/
theorem sameMeaning_mulKernel :
    (simdLegalizeFunction (simdTargetMake .vm .none) (fmaKernel .mul 1)).1 ≠ fmaKernel .mul 1 ∧
      SameMeaning (simdTargetMake .vm .none) (fmaKernel .mul 1) := by
  refine ⟨by decide +kernel, sameMeaning_of_kept fun block hBlock => ?_⟩
  obtain rfl := mem_singleton.mp hBlock
  have hLanes : scalarLanes (simdTargetMake .vm .none) (some .f32) = true := by decide
  simp only [forall_mem_cons, Kept, if_pos hLanes]
  refine ⟨⟨by decide, by decide⟩, ⟨by decide, by decide⟩,
    ⟨by decide, by decide⟩, trivial, ?_⟩
  exact fun inst hInst => (nomatch hInst)

/-- Lanes with integer arithmetic and a memory of one cell. -/
def cellUnit : LaneUnit Word where
  binary op _ x y :=
    match op with
    | .add | .fadd => x + y
    | .mul | .fmul => x * y
    | _ => x
  min _ x _ := x
  max _ x _ := x
  read memory _ := memory
  write _ _ v := v
  other inst _ st :=
    match inst.op with
    | .retVoid => .done [] st.memory
    | _ => .next st

theorem simdLegalizeFunction_fmaKernel :
    (simdLegalizeFunction (simdTargetMake .x86_64 .sse2) (fmaKernel .fma 4)).1 =
      fmaKernel .mul 4 := by
  simp [simdLegalizeFunction, legalizeBlocks, legalizeInsts, legalizeInst, scalarLanes,
    simdNativeLanes, simdLaneBytes,
    splitChunks, simdTargetMake, capabilityToBits, insertClones, simdHasFma, fmaKernel]

/-- On a target without the fused multiplication the addend is lost: from a cell with 3 the
kernel stores 9 and not 12. -/
theorem fmaKernel_not_sameMeaning :
    ¬ SameMeaning (simdTargetMake .x86_64 .sse2) (fmaKernel .fma 4) := by
  intro h
  have hBefore : Computes (simdTargetMake .x86_64 .sse2) cellUnit (fmaKernel .fma 4) ⟨fun _ =>
      [], 3⟩ [] 12 := ⟨4, rfl⟩
  have hProduct : Computes (simdTargetMake .x86_64 .sse2) cellUnit (fmaKernel .mul 4)
      ⟨fun _ => [], 3⟩ [] 9 := ⟨4, rfl⟩
  have hAfter := (h Word cellUnit ⟨fun _ => [], 3⟩ [] 12).mpr hBefore
  rw [simdLegalizeFunction_fmaKernel] at hAfter
  exact absurd (computes_unique hAfter hProduct).2 (by decide)

end Casprix.Opt
