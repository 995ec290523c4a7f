import Casprix.Opt.SimdLegalize

/-! When legalization converges and returns the truth about what it did. -/
namespace Casprix.Opt

open List Mir

/-- The opcodes with a scalar form. -/
def scalarizable : VecOp → Bool
  | .fma | .select | .min | .max => false
  | _ => true

/-- The widest vector the target has for a lane type. -/
def nativeWidth (target : SimdTarget) (laneType : Option MirType) : Int :=
  if target.capability = .none then 1 else simdNativeLanes target laneType

/-- A vector instruction is not wider than the target's vectors. -/
def Narrow (target : SimdTarget) (op : MirOp) : Prop :=
  match op with
  | .vec _ _ _ _ width laneType => width ≤ nativeWidth target laneType
  | _ => True

/-- A visit leaves nothing wider than the target's vectors: what has no scalar form keeps
one lane, which is too many for a lane type without a size. -/
def Narrowable (target : SimdTarget) (op : MirOp) : Prop :=
  match op with
  | .vec op _ _ _ width laneType =>
    scalarLanes target laneType = true → scalarizable op = false →
      min 1 width ≤ nativeWidth target laneType
  | _ => True

/-- A visit is counted as a change. -/
def Counted (target : SimdTarget) (op : MirOp) : Prop :=
  match op with
  | .vec op _ _ _ width laneType =>
    if scalarLanes target laneType = true then scalarizable op = true
    else simdNativeLanes target laneType < width ∨ (op = .fma ∧ simdHasFma target = false)
  | _ => False

/-- A visit puts copies behind the instruction and does not count them. -/
def Silent (target : SimdTarget) (op : MirOp) : Prop :=
  match op with
  | .vec op _ _ _ width laneType => scalarLanes target laneType = true ∧
    scalarizable op = false ∧ 1 < width
  | _ => False

/-- A visit does nothing. -/
def AtRest (target : SimdTarget) (op : MirOp) : Prop := ¬ Counted target op ∧ ¬ Silent target op

/-- Every instruction of a function. -/
def EveryInst (func : MirFunction) (p : MirOp → Prop) : Prop :=
  ∀ block ∈ func.blocks, ∀ inst ∈ block.insts, p inst.op

def SomeInst (func : MirFunction) (p : MirOp → Prop) : Prop :=
  ∃ block ∈ func.blocks, ∃ inst ∈ block.insts, p inst.op

section

variable {target : SimdTarget} {func : MirFunction} {inst : MirInst}
  {op : VecOp} {a b c : MirValueId}
  {width : Int} {laneType : Option MirType}

theorem le_of_mem_chunkWidths {native chunk : Int} (hNative : 1 < native)
    (h : chunk ∈ chunkWidths native width) :
    chunk ≤ native := by
  rcases mem_append.mp h with hFull | hTail
  · exact Int.le_of_eq (eq_of_mem_replicate hFull)
  · split at hTail
    · have hMod := Int.emod_lt_of_pos width (show 0 < native by omega)
      have hDiv := Int.mul_ediv_add_emod width native
      rw [mem_singleton.mp hTail, Int.mul_comm]
      omega
    · cases hTail

theorem scalarForm_eq_none_iff : scalarForm op a b laneType = none ↔ scalarizable op = false := by
  cases op <;> simp [scalarForm, scalarizable, scalarOpForVec]

theorem scalarForm_ne_vec {op' : VecOp} {a' b' c' : MirValueId} {width' : Int}
    {laneType' : Option MirType} :
    scalarForm op a b laneType ≠ some (.vec op' a' b' c' width' laneType') := by
  cases op <;> simp [scalarForm, scalarOpForVec]

theorem scalarizeInPlace_none (hOp : inst.op = .vec op a b c width laneType)
    (h : scalarizable op = false) :
    scalarizeInPlace inst = ({ inst with op := .vec op a b c (min 1 width) laneType }, false) := by
  have hWidth : (if 1 < width then 1 else width) = min 1 width := by
    split <;> omega
  simp only [scalarizeInPlace, hOp, scalarForm_eq_none_iff.mpr h, hWidth]

theorem scalarizeInPlace_some (hOp : inst.op = .vec op a b c width laneType)
    (h : scalarizable op = true) :
    ∃ scalar, scalarForm op a b laneType = some scalar ∧
      scalarizeInPlace inst = ({ inst with op := scalar }, true) := by
  cases hForm : scalarForm op a b laneType with
  | none => exact absurd (h.symm.trans (scalarForm_eq_none_iff.mp hForm)) (by decide)
  | some scalar => exact ⟨scalar, rfl, by simp only [scalarizeInPlace, hOp, hForm]⟩

variable (target) in
theorem atRest_of_scalarForm {scalar : MirOp} (h : scalarForm op a b laneType = some scalar) :
    AtRest target scalar ∧ Narrow target scalar ∧ Narrowable target scalar := by
  cases hScalar : scalar
  case vec => exact absurd (hScalar ▸ h) scalarForm_ne_vec
  all_goals exact ⟨⟨id, id⟩, trivial, trivial⟩

theorem nextValueId_insertClones (ops : List MirOp) :
    (insertClones inst func ops).1.nextValueId = func.nextValueId + ops.length := by
  induction ops generalizing func with
  | nil => rfl
  | cons op ops ih =>
    rw [insertClones, ih, length_cons, add_comm ops.length, ← add_assoc]
    rfl

theorem op_mem_of_mem_insertClones {ops : List MirOp} {clone : MirInst}
    (h : clone ∈ (insertClones inst func ops).2) : clone.op ∈ ops := by
  rw [← map_op_insertClones inst func ops]
  exact mem_map_of_mem h

theorem func_eq_of_insertClones (ops : List MirOp) (h : (insertClones inst func ops).2 = []) :
    (insertClones inst func ops).1 = func := by
  cases ops with
  | nil => rfl
  | cons op ops => exact (nomatch h)

theorem func_legalizeInst (target : SimdTarget) (func : MirFunction) (inst : MirInst) :
    (legalizeInst target func inst).func.nextValueId =
        func.nextValueId + (legalizeInst target func inst).clones.length ∧
      ((legalizeInst target func inst).clones = [] →
        (legalizeInst target func inst).func = func) := by
  unfold legalizeInst
  cases hOp : inst.op
  case vec op a b c width laneType =>
    simp only
    split
    · refine ⟨?_, fun hNone => func_eq_of_insertClones _ ?_⟩
      · simp only [scalarizeLanes, nextValueId_insertClones, length_map, length_insertClones]
      · simpa only [scalarizeLanes, map_eq_nil_iff] using hNone
    · refine ⟨?_, fun hNone => func_eq_of_insertClones _ hNone⟩
      simp only [splitChunks, nextValueId_insertClones, length_insertClones]
  all_goals exact ⟨rfl, fun _ => rfl⟩

variable (func) in
theorem legalizeInst_scalar (hOp : inst.op = .vec op a b c width laneType)
    (hLanes : scalarLanes target laneType = true)
    (hForm : scalarizable op = true) : ∃ scalar, scalarForm op a b laneType = some scalar ∧
      (legalizeInst target func inst).inst = { inst with op := scalar } ∧
      (∀ clone ∈ (legalizeInst target func inst).clones, clone.op = scalar) ∧
      0 < (legalizeInst target func inst).changed := by
  have hNarrow : ({ inst with
      op := .vec op a b c (if 1 < width then 1 else width) laneType } : MirInst).op =
        .vec op a b c (if 1 < width then 1 else width) laneType := rfl
  obtain ⟨scalar, hScalar, hFirst⟩ := scalarizeInPlace_some hNarrow hForm
  refine ⟨scalar, hScalar, ?_, ?_, ?_⟩
  · simp only [legalizeInst, hOp, if_pos hLanes, scalarizeLanes, hFirst]
  · intro clone hClone
    simp only [legalizeInst, hOp, if_pos hLanes, scalarizeLanes, mem_map] at hClone
    obtain ⟨pair, ⟨wide, hWide, rfl⟩, rfl⟩ := hClone
    have hWideOp := eq_of_mem_replicate (op_mem_of_mem_insertClones hWide)
    obtain ⟨scalar', hScalar', hEach⟩ := scalarizeInPlace_some hWideOp hForm
    rw [hEach]
    exact Option.some.inj (hScalar'.symm.trans hScalar)
  · simp only [legalizeInst, hOp, if_pos hLanes, scalarizeLanes, countP_cons, hFirst]
    exact Nat.succ_pos _

variable (func) in
theorem legalizeInst_kept (hOp : inst.op = .vec op a b c width laneType)
    (hLanes : scalarLanes target laneType = true) (hForm : scalarizable op = false) :
    (legalizeInst target func inst).inst =
    { inst with op := .vec op a b c (min 1 width) laneType } ∧
      (∀ clone ∈ (legalizeInst target func inst).clones,
        clone.op = .vec op a b c 1 laneType) ∧
      (legalizeInst target func inst).clones.length = (width - 1).toNat ∧
      (legalizeInst target func inst).changed = 0 := by
  have hNarrow : ({ inst with
      op := .vec op a b c (if 1 < width then 1 else width) laneType } : MirInst).op =
        .vec op a b c (if 1 < width then 1 else width) laneType := rfl
  have hFirst := scalarizeInPlace_none hNarrow hForm
  have hWidth : min 1 (if 1 < width then 1 else width) = min 1 width := by
    split <;> omega
  have hEach : ∀ wide ∈ (insertClones inst func
    (List.replicate (width - 1).toNat (.vec op a b c 1 laneType))).2,
      scalarizeInPlace wide = ({ wide with op := .vec op a b c 1 laneType }, false) := by
    intro wide hWide
    exact scalarizeInPlace_none (eq_of_mem_replicate (op_mem_of_mem_insertClones hWide)) hForm
  refine ⟨?_, ?_, ?_, ?_⟩
  · simp only [legalizeInst, hOp, if_pos hLanes, scalarizeLanes, hFirst, hWidth]
  · intro clone hClone
    simp only [legalizeInst, hOp, if_pos hLanes, scalarizeLanes, mem_map] at hClone
    obtain ⟨pair, ⟨wide, hWide, rfl⟩, rfl⟩ := hClone
    rw [hEach wide hWide]
  · simp only [legalizeInst, hOp, if_pos hLanes, scalarizeLanes, length_map, length_insertClones,
      length_replicate]
  · simp only [legalizeInst, hOp, if_pos hLanes, scalarizeLanes, countP_cons, hFirst]
    refine countP_eq_zero.mpr fun pair hPair => ?_
    obtain ⟨wide, hWide, rfl⟩ := mem_map.mp hPair
    rw [hEach wide hWide]
    exact Bool.false_ne_true

variable (func) in
theorem legalizeInst_split (hOp : inst.op = .vec op a b c width laneType)
    (hLanes : ¬ scalarLanes target laneType = true) :
    (legalizeInst target func inst).inst = { inst with
        op := .vec (if op = .fma ∧ simdHasFma target = false then .mul else op) a b c
          (min (simdNativeLanes target laneType) width) laneType } ∧
      (∀ clone ∈ (legalizeInst target func inst).clones,
        ∃ chunk ≤ simdNativeLanes target laneType, clone.op = .vec op a b c chunk laneType) ∧
      (¬ simdNativeLanes target laneType < width →
        (legalizeInst target func inst).clones = []) ∧
      ((legalizeInst target func inst).changed = 0 ↔
        ¬ (simdNativeLanes target laneType < width ∨
          (op = .fma ∧ simdHasFma target = false))) := by
  have hNative := one_lt_of_not_scalarLanes hLanes
  have hWidth : (if simdNativeLanes target laneType <
    width then simdNativeLanes target laneType else width) =
      min (simdNativeLanes target laneType) width := by
    split <;> omega
  refine ⟨?_, ?_, ?_, ?_⟩
  · simp only [legalizeInst, hOp, if_neg hLanes, splitChunks, hWidth]
  · intro clone hClone
    simp only [legalizeInst, hOp, if_neg hLanes, splitChunks] at hClone
    obtain ⟨chunk, hChunk, hEq⟩ := mem_map.mp (op_mem_of_mem_insertClones hClone)
    refine ⟨chunk, ?_, hEq.symm⟩
    split at hChunk
    · next hWide => exact le_of_mem_chunkWidths hNative hChunk
    · cases hChunk
  · intro hFits
    simp only [legalizeInst, hOp, if_neg hLanes, splitChunks, if_neg hFits, map_nil, insertClones]
  · simp only [legalizeInst, hOp, if_neg hLanes, splitChunks]
    by_cases hWide : simdNativeLanes target laneType < width
    · rw [if_pos hWide]
      exact ⟨fun hZero => absurd hZero (by omega), fun hNot => absurd (.inl hWide) hNot⟩
    · rw [if_neg hWide, zero_add]
      by_cases hExpand : op = .fma ∧ simdHasFma target = false
      · rw [if_pos hExpand]
        exact ⟨by simp, fun hNot => absurd (.inr hExpand) hNot⟩
      · rw [if_neg hExpand]
        exact ⟨fun _ => not_or.mpr ⟨hWide, hExpand⟩, fun _ => rfl⟩

/-- A visit leaves an instruction that a further one leaves alone. -/
theorem atRest_legalizeInst (target : SimdTarget) (func : MirFunction) (inst : MirInst) :
    AtRest target (legalizeInst target func inst).inst.op := by
  cases hOp : inst.op
  case vec op a b c width laneType =>
    by_cases hLanes : scalarLanes target laneType = true
    · cases hForm : scalarizable op with
      | true =>
        obtain ⟨scalar, hScalar, hInst, -, -⟩ := legalizeInst_scalar func hOp hLanes hForm
        rw [hInst]
        exact (atRest_of_scalarForm target hScalar).1
      | false =>
        obtain ⟨hInst, -, -, -⟩ := legalizeInst_kept func hOp hLanes hForm
        rw [hInst]
        constructor
        · simp [Counted, hLanes, hForm]
        · simp only [Silent, hLanes, hForm, true_and]
          omega
    · obtain ⟨hInst, -, -, -⟩ := legalizeInst_split func hOp hLanes
      rw [hInst]
      constructor
      · simp only [Counted, if_neg hLanes, not_or]
        refine ⟨by omega, fun hFma => ?_⟩
        split at hFma
        · exact absurd hFma.1 (by decide)
        · next hKeep => exact hKeep hFma
      · exact fun hSilent => hLanes hSilent.1
  all_goals
    simp only [legalizeInst, hOp]
    exact ⟨id, id⟩

variable (func) in
theorem legalizeInst_of_atRest (h : AtRest target inst.op) :
    (legalizeInst target func inst).inst = inst ∧ (legalizeInst target func inst).clones = [] ∧
      (legalizeInst target func inst).func = func ∧
        (legalizeInst target func inst).changed = 0 := by
  have hFunc := (func_legalizeInst target func inst).2
  cases hOp : inst.op
  case vec op a b c width laneType =>
    rw [hOp] at h
    obtain ⟨hCounted, hSilent⟩ := h
    by_cases hLanes : scalarLanes target laneType = true
    · have hForm : scalarizable op = false := by
        simpa [Counted, hLanes] using hCounted
      obtain ⟨hInst, -, hLength, hChanged⟩ := legalizeInst_kept func hOp hLanes hForm
      have hWidth : width ≤ 1 := by
        simpa [Silent, hLanes, hForm] using hSilent
      have hNone : (legalizeInst target func inst).clones = [] :=
        eq_nil_of_length_eq_zero (hLength.trans (by omega))
      refine ⟨?_, hNone, hFunc hNone, hChanged⟩
      rw [hInst, Int.min_eq_right hWidth, ← hOp]
    · obtain ⟨hInst, -, hNone, hChanged⟩ := legalizeInst_split func hOp hLanes
      simp only [Counted, if_neg hLanes] at hCounted
      obtain ⟨hFits, hKeep⟩ := not_or.mp hCounted
      refine ⟨?_, hNone hFits, hFunc (hNone hFits), hChanged.mpr hCounted⟩
      rw [hInst, if_neg hKeep, Int.min_eq_right (Int.le_of_not_gt hFits), ← hOp]
  all_goals
    simp only [legalizeInst, hOp]
    exact ⟨trivial, trivial, trivial, trivial⟩

/-- Exactly the counted visits are counted, and the copies of an instruction that is
not counted are not. -/
theorem changed_legalizeInst (target : SimdTarget) (func : MirFunction) (inst : MirInst) :
    (0 < (legalizeInst target func inst).changed ↔ Counted target inst.op) ∧
      (¬ Counted target inst.op → ∀ clone ∈ (legalizeInst target func inst).clones,
        ¬ Counted target clone.op) := by
  cases hOp : inst.op
  case vec op a b c width laneType =>
    by_cases hLanes : scalarLanes target laneType = true
    · cases hForm : scalarizable op with
      | true =>
        obtain ⟨scalar, -, -, -, hChanged⟩ := legalizeInst_scalar func hOp hLanes hForm
        have hCounted : Counted target (.vec op a b c width laneType) := by
          simp [Counted, hLanes, hForm]
        exact ⟨⟨fun _ => hCounted, fun _ => hChanged⟩, fun hNot => absurd hCounted hNot⟩
      | false =>
        obtain ⟨-, hClones, -, hChanged⟩ := legalizeInst_kept func hOp hLanes hForm
        have hNot : ∀ width, ¬ Counted target (.vec op a b c width laneType) := by
          simp [Counted, hLanes, hForm]
        refine ⟨⟨fun hPos => absurd hChanged hPos.ne', fun hCounted =>
          absurd hCounted (hNot width)⟩, ?_⟩
        intro _ clone hClone
        rw [hClones clone hClone]
        exact hNot 1
    · obtain ⟨-, -, hNone, hChanged⟩ := legalizeInst_split func hOp hLanes
      simp only [Counted, if_neg hLanes]
      refine ⟨?_, fun hNot clone hClone => ?_⟩
      · rw [Nat.pos_iff_ne_zero, Ne, hChanged, not_not]
      · rw [hNone (not_or.mp hNot).1] at hClone
        cases hClone
  all_goals
    simp only [legalizeInst, hOp]
    exact ⟨⟨fun hPos => absurd hPos (lt_irrefl 0), False.elim⟩, fun _ clone hClone =>
      absurd hClone not_mem_nil⟩

theorem clones_of_silent (h : Silent target inst.op) :
    0 < (legalizeInst target func inst).clones.length := by
  cases hOp : inst.op
  case vec op a b c width laneType =>
    rw [hOp] at h
    obtain ⟨hLanes, hForm, hWide⟩ := h
    obtain ⟨-, -, hLength, -⟩ := legalizeInst_kept func hOp hLanes hForm
    omega
  all_goals exact (hOp ▸ h).elim

/-- What a visit leaves is narrow exactly if the instruction could be made so, and then
its copies can. -/
theorem narrow_legalizeInst (target : SimdTarget) (func : MirFunction) (inst : MirInst) :
    (Narrow target (legalizeInst target func inst).inst.op ↔ Narrowable target inst.op) ∧
      (Narrowable target inst.op → ∀ clone ∈ (legalizeInst target func inst).clones,
        Narrowable target clone.op) := by
  cases hOp : inst.op
  case vec op a b c width laneType =>
    by_cases hLanes : scalarLanes target laneType = true
    · cases hForm : scalarizable op with
      | true =>
        obtain ⟨scalar, hScalar, hInst, hClones, -⟩ := legalizeInst_scalar func hOp hLanes hForm
        obtain ⟨-, hNarrow, hNarrowable⟩ := atRest_of_scalarForm target hScalar
        rw [hInst]
        refine ⟨⟨fun _ _ hNot => absurd (hForm.symm.trans hNot) (by decide),
          fun _ => hNarrow⟩, ?_⟩
        intro _ clone hClone
        rw [hClones clone hClone]
        exact hNarrowable
      | false =>
        obtain ⟨hInst, hClones, hLength, -⟩ := legalizeInst_kept func hOp hLanes hForm
        rw [hInst]
        refine ⟨⟨fun hNarrow _ _ => hNarrow, fun hNarrowable =>
          hNarrowable hLanes hForm⟩, ?_⟩
        intro hNarrowable clone hClone
        have hMany := length_pos_of_mem hClone
        have hOne : min 1 width = 1 := by omega
        rw [hClones clone hClone]
        intro _ _
        exact Int.le_trans (Int.min_le_left 1 1) (hOne ▸ hNarrowable hLanes hForm)
    · obtain ⟨hInst, hClones, -, -⟩ := legalizeInst_split func hOp hLanes
      have hVectors : nativeWidth target laneType = simdNativeLanes target laneType :=
        if_neg fun hNone => hLanes (by simp [scalarLanes, hNone])
      rw [hInst]
      refine ⟨⟨fun _ hScalar => absurd hScalar hLanes, fun _ => ?_⟩,
        fun _ clone hClone => ?_⟩
      · exact hVectors ▸ Int.min_le_left _ _
      · obtain ⟨chunk, -, hOpClone⟩ := hClones clone hClone
        rw [hOpClone]
        exact fun hScalar => absurd hScalar hLanes
  all_goals
    simp only [legalizeInst, hOp]
    exact ⟨⟨fun _ => trivial, fun _ => trivial⟩, fun _ clone hClone =>
      absurd hClone not_mem_nil⟩

end

section

variable {target : SimdTarget} {func : MirFunction} {insts : List MirInst} {blocks : List MirBlock}

theorem atRest_legalizeInsts (target : SimdTarget) (func : MirFunction) (insts : List MirInst) :
    ∀ inst ∈ (legalizeInsts target func insts).insts, AtRest target inst.op := by
  induction func, insts using legalizeInsts.induct target with
  | case1 func =>
    rw [legalizeInsts]
    exact nofun
  | case2 func inst rest visit ih =>
    rw [legalizeInsts]
    intro other hOther
    rcases mem_cons.mp hOther with rfl | hTail
    · exact atRest_legalizeInst target func inst
    · exact ih other hTail

variable (func) in
theorem legalizeInsts_of_atRest (h : ∀ inst ∈ insts, AtRest target inst.op) :
    (legalizeInsts target func insts).func = func ∧
      (legalizeInsts target func insts).insts = insts ∧
      (legalizeInsts target func insts).changed = 0 := by
  induction insts with
  | nil =>
    rw [legalizeInsts]
    exact ⟨rfl, rfl, rfl⟩
  | cons inst rest ih =>
    obtain ⟨hInst, hClones, hFunc, hChanged⟩ :=
      legalizeInst_of_atRest func (h inst mem_cons_self)
    obtain ⟨hTailFunc, hTail, hTailChanged⟩ := ih fun other hOther =>
      h other (mem_cons_of_mem inst hOther)
    rw [legalizeInsts]
    simp only [hInst, hClones, hFunc, hChanged, nil_append, hTailFunc, hTail, hTailChanged]
    exact ⟨trivial, trivial, trivial⟩

section

variable (target : SimdTarget) (func : MirFunction) (insts : List MirInst)

/-- The count of a walk is positive exactly if it came past something counted. -/
theorem changed_legalizeInsts :
    0 < (legalizeInsts target func insts).changed ↔
      ∃ inst ∈ insts, Counted target inst.op := by
  induction func, insts using legalizeInsts.induct target with
  | case1 func =>
    rw [legalizeInsts]
    refine ⟨fun hPos => absurd hPos (lt_irrefl 0), ?_⟩
    rintro ⟨_, hMem, _⟩
    cases hMem
  | case2 func inst rest visit ih =>
    obtain ⟨hVisit, hClones⟩ := changed_legalizeInst target func inst
    rw [legalizeInsts]
    constructor
    · intro hPos
      by_cases hCounted : Counted target inst.op
      · exact ⟨inst, mem_cons_self, hCounted⟩
      · have hTail := (Nat.add_pos_iff_pos_or_pos.mp hPos).resolve_left (mt hVisit.mp hCounted)
        obtain ⟨other, hOther, hOtherCounted⟩ := ih.mp hTail
        rcases mem_append.mp hOther with hClone | hRest
        · exact absurd hOtherCounted (hClones hCounted other hClone)
        · exact ⟨other, mem_cons_of_mem inst hRest, hOtherCounted⟩
    · rintro ⟨other, hOther, hCounted⟩
      rcases mem_cons.mp hOther with rfl | hRest
      · exact Nat.add_pos_left (hVisit.mpr hCounted) _
      · exact Nat.add_pos_right _ (ih.mpr ⟨other, mem_append_right _ hRest, hCounted⟩)

theorem nextValueId_legalizeInsts :
    func.nextValueId ≤ (legalizeInsts target func insts).func.nextValueId ∧
      ((∃ inst ∈ insts, Silent target inst.op) →
        func.nextValueId < (legalizeInsts target func insts).func.nextValueId) := by
  induction func, insts using legalizeInsts.induct target with
  | case1 func =>
    rw [legalizeInsts]
    refine ⟨le_rfl, ?_⟩
    rintro ⟨_, hMem, _⟩
    cases hMem
  | case2 func inst rest visit ih =>
    have hVisit : visit.func.nextValueId = func.nextValueId + visit.clones.length :=
      (func_legalizeInst target func inst).1
    obtain ⟨hLe, hLt⟩ := ih
    rw [legalizeInsts]
    refine ⟨(hVisit ▸ Nat.le_add_right _ _).trans hLe, ?_⟩
    rintro ⟨other, hOther, hSilent⟩
    rcases mem_cons.mp hOther with rfl | hRest
    · have hCopies : 0 < visit.clones.length := clones_of_silent hSilent
      exact lt_of_lt_of_le (by omega) hLe
    · have hGrows := hLt ⟨other, mem_append_right _ hRest, hSilent⟩
      exact (hVisit ▸ Nat.le_add_right _ _).trans_lt hGrows

theorem narrow_legalizeInsts :
    (∀ inst ∈ (legalizeInsts target func insts).insts, Narrow target inst.op) ↔
      ∀ inst ∈ insts, Narrowable target inst.op := by
  induction func, insts using legalizeInsts.induct target with
  | case1 func =>
    rw [legalizeInsts]
    exact ⟨nofun,
      nofun⟩
  | case2 func inst rest visit ih =>
    obtain ⟨hVisit, hClones⟩ := narrow_legalizeInst target func inst
    rw [legalizeInsts, forall_mem_cons, forall_mem_cons, hVisit, ih, forall_mem_append]
    exact ⟨fun hAll => ⟨hAll.1, hAll.2.2⟩, fun hAll => ⟨hAll.1, hClones hAll.1, hAll.2⟩⟩

end

theorem atRest_legalizeBlocks (target : SimdTarget) (func : MirFunction) (blocks : List MirBlock) :
    ∀ block ∈ (legalizeBlocks target func blocks).blocks, ∀ inst ∈ block.insts,
      AtRest target inst.op := by
  induction blocks generalizing func with
  | nil => exact nofun
  | cons first rest ih =>
    intro block hBlock
    rcases mem_cons.mp hBlock with rfl | hRest
    · exact atRest_legalizeInsts target func first.insts
    · exact ih _ block hRest

variable (func) in
theorem legalizeBlocks_of_atRest
    (h : ∀ block ∈ blocks, ∀ inst ∈ block.insts, AtRest target inst.op) :
    (legalizeBlocks target func blocks).func = func ∧
      (legalizeBlocks target func blocks).blocks = blocks ∧
      (legalizeBlocks target func blocks).changed = 0 := by
  induction blocks with
  | nil => exact ⟨rfl, rfl, rfl⟩
  | cons first rest ih =>
    obtain ⟨hFunc, hInsts, hChanged⟩ := legalizeInsts_of_atRest func (h first mem_cons_self)
    obtain ⟨hTailFunc, hTail, hTailChanged⟩ := ih fun block hBlock =>
      h block (mem_cons_of_mem first hBlock)
    simp only [legalizeBlocks, hFunc, hInsts, hChanged, hTailFunc, hTail, hTailChanged]
    exact ⟨trivial, trivial, trivial⟩

section

variable (target : SimdTarget) (func : MirFunction) (blocks : List MirBlock)

theorem changed_legalizeBlocks :
    0 < (legalizeBlocks target func blocks).changed ↔
      ∃ block ∈ blocks, ∃ inst ∈ block.insts, Counted target inst.op := by
  induction blocks generalizing func with
  | nil =>
    refine ⟨fun hPos => absurd hPos (lt_irrefl 0), ?_⟩
    rintro ⟨_, hMem, _⟩
    cases hMem
  | cons first rest ih =>
    rw [legalizeBlocks, exists_mem_cons_iff, ← changed_legalizeInsts target func, ← ih]
    exact Nat.add_pos_iff_pos_or_pos

theorem nextValueId_legalizeBlocks :
    func.nextValueId ≤ (legalizeBlocks target func blocks).func.nextValueId ∧
      ((∃ block ∈ blocks, ∃ inst ∈ block.insts, Silent target inst.op) →
        func.nextValueId < (legalizeBlocks target func blocks).func.nextValueId) := by
  induction blocks generalizing func with
  | nil =>
    refine ⟨le_rfl, ?_⟩
    rintro ⟨_, hMem, _⟩
    cases hMem
  | cons first rest ih =>
    obtain ⟨hWalk, hWalkSilent⟩ := nextValueId_legalizeInsts target func first.insts
    obtain ⟨hTail, hTailSilent⟩ := ih (legalizeInsts target func first.insts).func
    refine ⟨hWalk.trans hTail, ?_⟩
    rintro ⟨block, hBlock, hSilent⟩
    rcases mem_cons.mp hBlock with rfl | hRest
    · exact (hWalkSilent hSilent).trans_le hTail
    · exact hWalk.trans_lt (hTailSilent ⟨block, hRest, hSilent⟩)

theorem narrow_legalizeBlocks :
    (∀ block ∈ (legalizeBlocks target func blocks).blocks, ∀ inst ∈ block.insts,
      Narrow target inst.op) ↔
      ∀ block ∈ blocks, ∀ inst ∈ block.insts, Narrowable target inst.op := by
  induction blocks generalizing func with
  | nil =>
    exact ⟨nofun,
      nofun⟩
  | cons first rest ih =>
    rw [legalizeBlocks, forall_mem_cons, forall_mem_cons, ih]
    exact and_congr_left fun _ => narrow_legalizeInsts target func first.insts

end

end

/-- What is left is as narrow as the target's vectors, a second call does nothing and says
so, and a call that returns zero did nothing. -/
structure Converges (target : SimdTarget) (func : MirFunction) : Prop where
  narrow : EveryInst (simdLegalizeFunction target func).1 (Narrow target)
  again : (simdLegalizeFunction target (simdLegalizeFunction target func).1).1 =
    (simdLegalizeFunction target func).1 ∧
    (simdLegalizeFunction target (simdLegalizeFunction target func).1).2.1 = 0
  truthful : (simdLegalizeFunction target func).2.1 = 0 →
    (simdLegalizeFunction target func).1 = func

section

variable {target : SimdTarget} {func : MirFunction}

theorem simdLegalizeFunction_of_atRest (h : EveryInst func (AtRest target)) :
    (simdLegalizeFunction target func).1 = func ∧ (simdLegalizeFunction target func).2.1 = 0 := by
  obtain ⟨hFunc, hBlocks, hChanged⟩ := legalizeBlocks_of_atRest func h
  refine ⟨?_, hChanged⟩
  simp only [simdLegalizeFunction, hFunc, hBlocks]

theorem ne_of_silent (h : SomeInst func (Silent target)) :
    (simdLegalizeFunction target func).1 ≠ func := by
  intro hSame
  have hGrows := (nextValueId_legalizeBlocks target func func.blocks).2 h
  exact absurd (congrArg MirFunction.nextValueId hSame) hGrows.ne'

variable (target func) in
/-- Legalization converges and is truthful exactly if no instruction keeps a lane of a type
that the target has no vectors of, and no copies are made by a call that counts nothing. -/
theorem simdLegalizeFunction_converges_iff : Converges target func ↔
    EveryInst func (Narrowable target) ∧
      (SomeInst func (Counted target) ∨ EveryInst func fun op => ¬ Silent target op) := by
  have hNarrow := narrow_legalizeBlocks target func func.blocks
  have hCount := changed_legalizeBlocks target func func.blocks
  constructor
  · intro h
    refine ⟨hNarrow.mp h.narrow, ?_⟩
    by_cases hSome : SomeInst func (Counted target)
    · exact .inl hSome
    · refine .inr fun block hBlock inst hInst hSilent => ?_
      have hZero := Nat.eq_zero_of_not_pos (mt hCount.mp hSome)
      exact ne_of_silent ⟨block, hBlock, inst, hInst, hSilent⟩ (h.truthful hZero)
  · rintro ⟨hNarrowable, hTruth⟩
    constructor
    case narrow => exact hNarrow.mpr hNarrowable
    case again => exact simdLegalizeFunction_of_atRest (atRest_legalizeBlocks
      target func func.blocks)
    case truthful =>
      intro hZero
      have hNone : ¬ SomeInst func (Counted target) := mt hCount.mpr ((le_of_eq hZero).not_gt)
      have hQuiet := hTruth.resolve_left hNone
      refine (simdLegalizeFunction_of_atRest fun block hBlock inst hInst => ?_).1
      exact ⟨fun hCounted => hNone ⟨block, hBlock, inst, hInst, hCounted⟩,
        hQuiet block hBlock inst hInst⟩

end

/-- A product with an addend of two lanes, on a target without vectors. -/
def wideFma : MirFunction where
  name := "fma"
  nextValueId := 5
  blocks := [{ insts := [{ op := .vec .fma 1 2 3 2 (some .f32), result := 4, type := some .f32 }] }]

/-- A copy is put behind it, and the call returns zero. -/
theorem wideFma_not_converges : ¬ Converges (simdTargetMake .vm .none) wideFma := by
  intro h
  have hLanes : scalarLanes (simdTargetMake .vm .none) (some .f32) = true := by decide
  have hZero : (simdLegalizeFunction (simdTargetMake .vm .none) wideFma).2.1 = 0 := by
    refine Nat.eq_zero_of_not_pos fun hPos => ?_
    obtain ⟨block, hBlock, inst, hInst, hCounted⟩ := (changed_legalizeBlocks _ _ _).mp hPos
    rw [mem_singleton.mp hBlock] at hInst
    rw [mem_singleton.mp hInst] at hCounted
    simp [Counted, hLanes, scalarizable] at hCounted
  have hSilent : Silent (simdTargetMake .vm .none)
      (.vec .fma 1 2 3 2 (some .f32)) := ⟨hLanes, rfl, by decide⟩
  exact ne_of_silent ⟨_, mem_singleton_self _, _,
    mem_singleton_self _, hSilent⟩ (h.truthful hZero)

end Casprix.Opt
