import Casprix.Mir.Builder
import Mathlib.Algebra.GroupWithZero.Nat

/-! `simd_legalize_function`: vector instructions are split into chunks of the
width that a target has, or turned into scalar ones. -/
namespace Casprix.Opt

open List Mir

inductive SimdCapability where
  | none | sse2 | neon | avx2 | avx512
  deriving DecidableEq, Repr

/-- The fields of a target that legalization reads. -/
structure SimdTarget where
  capability : SimdCapability
  nativeBits : Int
  deriving DecidableEq, Repr

def capabilityToBits : SimdCapability → Int
  | .none => 0
  | .sse2 | .neon => 128
  | .avx2 => 256
  | .avx512 => 512

inductive MirTargetArch where
  | x86_64 | aarch64 | wasm32 | vm | jit
  deriving DecidableEq, Repr

/-- The target with the register width of a capability. A capability that the architecture
cannot have is replaced by one that it has. -/
def simdTargetMake (arch : MirTargetArch) (cap : SimdCapability) : SimdTarget :=
  let cap :=
    match arch, cap with
    | .aarch64, .sse2 | .aarch64, .avx2 | .aarch64, .avx512 => .neon
    | .x86_64, .neon => .sse2
    | _, cap => cap
  { capability := cap, nativeBits := capabilityToBits cap }

def simdLaneBytes : Option MirType → Int
  | some .bool | some .i8 | some .u8 => 1
  | some .i16 | some .u16 => 2
  | some .i32 | some .u32 | some .f32 => 4
  | some .i64 | some .u64 | some .f64 => 8
  | _ => 0

variable (target : SimdTarget)

def simdNativeLanes (laneType : Option MirType) : Int :=
  if simdLaneBytes laneType ≤ 0 then 0
  else if target.nativeBits = 0 then 1
  else target.nativeBits.tdiv (simdLaneBytes laneType * 8)

def simdHasFma : Bool :=
  match target.capability with
  | .avx2 | .avx512 | .neon => true
  | _ => false

structure SimdLegalizeStats where
  vecOpsSeen : Nat := 0
  vecOpsSplit : Nat := 0
  vecOpsScalarized : Nat := 0
  fmaExpanded : Nat := 0
  deriving DecidableEq, Repr

def SimdLegalizeStats.add (s t : SimdLegalizeStats) : SimdLegalizeStats where
  vecOpsSeen := s.vecOpsSeen + t.vecOpsSeen
  vecOpsSplit := s.vecOpsSplit + t.vecOpsSplit
  vecOpsScalarized := s.vecOpsScalarized + t.vecOpsScalarized
  fmaExpanded := s.fmaExpanded + t.fmaExpanded

def isFloatLane (laneType : Option MirType) : Bool := (laneType.map MirType.isFloat).getD false

/-- The binary opcode for one lane. `MIR_NOP`, for the others, is not used. -/
def scalarOpForVec (op : VecOp) (isFloat : Bool) : Option BinaryOp :=
  match op with
  | .add => some (if isFloat then .fadd else .add)
  | .sub => some (if isFloat then .fsub else .sub)
  | .mul => some (if isFloat then .fmul else .mul)
  | .div => some (if isFloat then .fdiv else .div)
  | .and => some .band
  | .or => some .bor
  | .xor => some .bxor
  | .cmpEq => some .cmpEq
  | .cmpLt => some .cmpLt
  | .cmpGt => some .cmpGt
  | _ => none

/-- What the switch of `scalarize_in_place` puts in place of an opcode. -/
def scalarForm (op : VecOp) (a b : MirValueId) (laneType : Option MirType) : Option MirOp :=
  match op with
  | .load | .loadUnaligned => some (.load a)
  | .store | .storeUnaligned => some (.store a b)
  | .broadcast => some (.transfer .copy a)
  | .reduceSum | .dot => some (.transfer .copy a)
  | .fma | .select => none
  | op => (scalarOpForVec op (isFloatLane laneType)).map fun op => .binary op a b

/-- The instruction at width one, as a scalar one if there is such an opcode. -/
def scalarizeInPlace (inst : MirInst) : MirInst × Bool :=
  match inst.op with
  | .vec op a b c width laneType =>
    let width := if 1 < width then 1 else width
    match scalarForm op a b laneType with
    | some scalar => ({ inst with op := scalar }, true)
    | none => ({ inst with op := .vec op a b c width laneType }, false)
  | _ => (inst, false)

/-- Copies of an instruction with other opcodes, each with a new result. -/
def insertClones (inst : MirInst) : MirFunction → List MirOp → MirFunction × List MirInst
  | func, [] => (func, [])
  | func, op :: ops =>
    let fresh := func.newValue inst.type
    let tail := insertClones inst fresh.2 ops
    (tail.1, { inst with op := op, result := fresh.1 } :: tail.2)

/-- An instruction that was visited, with what is inserted behind it. -/
structure Legalized where
  func : MirFunction
  inst : MirInst
  clones : List MirInst := []
  stats : SimdLegalizeStats := {}
  changed : Nat := 0

/-- Every lane for itself. -/
def scalarizeLanes (func : MirFunction) (inst : MirInst) (op : VecOp)
    (a b c : MirValueId) (width : Int)
    (laneType : Option MirType) : Legalized :=
  let fresh := insertClones inst func (List.replicate (width - 1).toNat (.vec op a b c 1 laneType))
  let lanes := fresh.2.map scalarizeInPlace
  let lane := scalarizeInPlace
    { inst with op := .vec op a b c (if 1 < width then 1 else width) laneType }
  let scalarized := (lane :: lanes).countP (·.2)
  { func := fresh.1
    inst := lane.1
    clones := lanes.map (·.1)
    stats := { vecOpsSeen := 1, vecOpsScalarized := scalarized }
    changed := scalarized }

/-- The widths of the chunks after the first. -/
def chunkWidths (native width : Int) : List Int :=
  List.replicate (width / native - 1).toNat native ++
    if 0 < width - width / native * native then [width - width / native * native] else []

/-- Chunks of the target's width, and no fused multiplication where there is none. -/
def splitChunks (native : Int) (func : MirFunction) (inst : MirInst) (op : VecOp)
    (a b c : MirValueId) (width : Int) (laneType : Option MirType) : Legalized :=
  let widths := if native < width then chunkWidths native width else []
  let fresh := insertClones inst func (widths.map fun chunk => .vec op a b c chunk laneType)
  let split := if native < width then fresh.2.length + 1 else 0
  let expand := op = .fma ∧ simdHasFma target = false
  let narrow := if native < width then native else width
  { func := fresh.1
    inst := { inst with op := .vec (if expand then .mul else op) a b c narrow laneType }
    clones := fresh.2
    stats := { vecOpsSeen := 1, vecOpsSplit := split, fmaExpanded := if expand then 1 else 0 }
    changed := split + if expand then 1 else 0 }

/-- Lanes are scalarized where the target has no vectors of them. -/
def scalarLanes (laneType : Option MirType) : Bool :=
  target.capability == .none || simdNativeLanes target laneType ≤ 1

/-- The body of the loop. -/
def legalizeInst (func : MirFunction) (inst : MirInst) : Legalized :=
  match inst.op with
  | .vec op a b c width laneType =>
    if scalarLanes target laneType then scalarizeLanes func inst op a b c width laneType
    else splitChunks target (simdNativeLanes target laneType) func inst op a b c width laneType
  | _ => { func := func, inst := inst }

/-- The width that is left to split, one at least. -/
def opWidth : MirOp → Nat
  | .vec _ _ _ _ width _ => max 1 width.toNat
  | _ => 1

def totalWidth (insts : List MirInst) : Nat := (insts.map fun inst => opWidth inst.op).sum

variable (inst : MirInst) (func : MirFunction) (ops : List MirOp)

@[simp] theorem totalWidth_cons (insts : List MirInst) :
    totalWidth (inst :: insts) = opWidth inst.op + totalWidth insts := rfl

@[simp] theorem totalWidth_append (front back : List MirInst) :
    totalWidth (front ++ back) = totalWidth front + totalWidth back := by
  simp [totalWidth]

theorem one_le_opWidth (op : MirOp) : 1 ≤ opWidth op := by
  unfold opWidth
  split
  · exact le_max_left 1 _
  · exact le_refl 1

theorem map_op_insertClones : (insertClones inst func ops).2.map (·.op) = ops := by
  induction ops generalizing func with
  | nil => rfl
  | cons op ops ih => exact congrArg (op :: ·) (ih _)

theorem totalWidth_insertClones :
    totalWidth (insertClones inst func ops).2 = (ops.map opWidth).sum := by
  conv_rhs => rw [← map_op_insertClones inst func ops, map_map]
  rfl

theorem length_insertClones : (insertClones inst func ops).2.length = ops.length := by
  rw [← length_map, map_op_insertClones]

theorem opWidth_scalarizeInPlace_le : opWidth (scalarizeInPlace inst).1.op ≤ 1 := by
  unfold scalarizeInPlace
  cases hOp : inst.op
  case vec op a b c width laneType =>
    simp only
    cases hScalar : scalarForm op a b laneType with
    | none =>
      simp only [opWidth]
      split <;> omega
    | some scalar =>
      cases op <;> cases hScalar <;> exact le_refl 1
  all_goals
    simp only [hOp]
    exact le_refl 1

theorem totalWidth_le_length {insts : List MirInst}
    (h : ∀ inst ∈ insts, opWidth inst.op ≤ 1) :
    totalWidth insts ≤ insts.length := by
  induction insts with
  | nil => exact le_refl 0
  | cons inst insts ih =>
    have hFirst := h inst mem_cons_self
    have hRest := ih fun other hOther => h other (mem_cons_of_mem inst hOther)
    rw [totalWidth_cons, length_cons]
    omega

theorem sum_chunkWidths {native width : Int} (hNative : 1 < native) (hWide : native < width) :
    ((chunkWidths native width).map fun chunk => max 1 chunk.toNat).sum =
      (width - native).toNat := by
  have hDiv := Int.mul_ediv_add_emod width native
  have hMod := Int.emod_nonneg width (show native ≠ 0 by omega)
  have hFull : 1 ≤ width / native := (Int.le_ediv_iff_mul_le (by omega)).mpr (by omega)
  have hOne : max 1 native.toNat = native.toNat := by omega
  have hTail : width - width / native * native = width % native := by
    rw [Int.mul_comm]
    omega
  have hSplit : (width / native - 1) * native = width - native - width % native := by
    rw [Int.sub_mul, Int.one_mul]
    omega
  have hReplicate : ((List.replicate (width / native - 1).toNat native).map fun chunk =>
    max 1 chunk.toNat).sum =
      (width - native - width % native).toNat := by
    rw [map_replicate, sum_replicate_nat, hOne, ← Int.toNat_mul (by omega) (by omega), hSplit]
  have hBelow : 0 ≤ width - native - width % native := by
    rw [← hSplit]
    exact Int.mul_nonneg (by omega) (by omega)
  rw [chunkWidths, map_append, sum_append_nat, hTail, hReplicate]
  by_cases hRest : 0 < width % native
  · rw [if_pos hRest]
    simp only [map_cons, map_nil, sum_cons, sum_nil]
    omega
  · rw [if_neg hRest]
    simp only [map_nil, sum_nil]
    omega

theorem one_lt_of_not_scalarLanes {target : SimdTarget} {laneType : Option MirType}
    (h : ¬ scalarLanes target laneType = true) : 1 < simdNativeLanes target laneType := by
  rw [scalarLanes, Bool.or_eq_true, not_or, decide_eq_true_eq] at h
  exact Int.lt_of_not_ge h.2

theorem totalWidth_clones_lt (func : MirFunction) (inst : MirInst) :
    totalWidth (legalizeInst target func inst).clones < opWidth inst.op := by
  unfold legalizeInst
  cases hOp : inst.op
  case vec op a b c width laneType =>
    simp only
    by_cases hScalar : scalarLanes target laneType = true
    · rw [if_pos hScalar]
      have hEach : ∀ lane ∈ (scalarizeLanes func inst op a b c width laneType).clones,
          opWidth lane.op ≤ 1 := by
        intro lane hLane
        obtain ⟨pair, hPair, rfl⟩ := mem_map.mp hLane
        obtain ⟨clone, -, rfl⟩ := mem_map.mp hPair
        exact opWidth_scalarizeInPlace_le clone
      have hLength : (scalarizeLanes func inst op a b c width laneType).clones.length =
          (width - 1).toNat := by
        simp only [scalarizeLanes, length_map, length_insertClones, length_replicate]
      have hTotal := totalWidth_le_length hEach
      simp only [opWidth]
      omega
    · rw [if_neg hScalar]
      have hNative : 1 < simdNativeLanes target laneType := one_lt_of_not_scalarLanes hScalar
      simp only [splitChunks, totalWidth_insertClones, map_map, opWidth]
      by_cases hWide : simdNativeLanes target laneType < width
      · rw [if_pos hWide]
        have hSum := sum_chunkWidths hNative hWide
        have hCompose : ((fun op => opWidth op) ∘ fun chunk =>
          MirOp.vec op a b c chunk laneType) =
            fun chunk => max 1 chunk.toNat := rfl
        rw [hCompose, hSum]
        omega
      · rw [if_neg hWide]
        exact Nat.lt_of_lt_of_le Nat.one_pos (Nat.le_max_left 1 _)
  all_goals exact one_le_opWidth _

/-- What the walk over a block leaves. -/
structure LegalizedInsts where
  func : MirFunction
  insts : List MirInst
  stats : SimdLegalizeStats := {}
  changed : Nat := 0

/-- The walk over a block, which visits what was inserted next. -/
def legalizeInsts (target : SimdTarget) (func : MirFunction) : List MirInst → LegalizedInsts
  | [] => { func := func, insts := [] }
  | inst :: rest =>
    let visit := legalizeInst target func inst
    let tail := legalizeInsts target visit.func (visit.clones ++ rest)
    { func := tail.func
      insts := visit.inst :: tail.insts
      stats := visit.stats.add tail.stats
      changed := visit.changed + tail.changed }
termination_by insts => totalWidth insts
decreasing_by
  rw [totalWidth_append, totalWidth_cons]
  exact Nat.add_lt_add_right (totalWidth_clones_lt target func inst) _

/-- The walk over the blocks. -/
structure LegalizedBlocks where
  func : MirFunction
  blocks : List MirBlock
  stats : SimdLegalizeStats := {}
  changed : Nat := 0

def legalizeBlocks (target : SimdTarget) : MirFunction → List MirBlock → LegalizedBlocks
  | func, [] => { func := func, blocks := [] }
  | func, block :: blocks =>
    let walk := legalizeInsts target func block.insts
    let tail := legalizeBlocks target walk.func blocks
    { func := tail.func
      blocks := { block with insts := walk.insts } :: tail.blocks
      stats := walk.stats.add tail.stats
      changed := walk.changed + tail.changed }

/-- The function after legalization, the number it returns and the counts. -/
def simdLegalizeFunction (func : MirFunction) : MirFunction × Nat × SimdLegalizeStats :=
  let walk := legalizeBlocks target func func.blocks
  ({ walk.func with blocks := walk.blocks }, walk.changed, walk.stats)

end Casprix.Opt
