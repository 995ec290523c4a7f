import Casprix.Cvm.FrameInvariant

/-! Functions whose operands and results are all values they have handed out. -/
namespace Casprix.Cvm

open Mir Library

/-- All operands and results of these instructions are values that `func` has handed out. -/
def NumberedIn (func : MirFunction) (insts : List MirInst) : Prop :=
  ∀ inst ∈ insts, (∀ id ∈ inst.op.operands, id < func.nextValueId) ∧
    inst.result < func.nextValueId

/-- Every operand and result is a value that the function has handed out. The verifier
checks this of operands. -/
def WellNumbered (func : MirFunction) : Prop := NumberedIn func (func.blocks.flatMap (·.insts))

instance (func : MirFunction) (insts : List MirInst) : Decidable (NumberedIn func insts) :=
  inferInstanceAs (Decidable (∀ inst ∈ insts,
    (∀ id ∈ inst.op.operands, id < func.nextValueId) ∧ inst.result < func.nextValueId))

instance (func : MirFunction) : Decidable (WellNumbered func) :=
  inferInstanceAs (Decidable (NumberedIn func (func.blocks.flatMap (·.insts))))

section

variable {func : MirFunction}

theorem cvmRegCount_eq (hFits : func.nextValueId ≤ cvmMaxRegs) :
    cvmRegCount func = max func.nextValueId 1 :=
  min_eq_left (max_le hFits (by decide))

theorem lt_cvmRegCount {id : MirValueId} (hId : id < func.nextValueId)
    (hFits : func.nextValueId ≤ cvmMaxRegs) : id < cvmRegCount func := by
  rw [cvmRegCount_eq hFits]
  exact hId.trans_le (le_max_left _ _)

theorem outside_eq_false {frame : CvmFrame} {id : MirValueId} (h : id < cvmRegCount frame.func) :
    frame.outside id = false := by
  unfold CvmFrame.outside
  rw [decide_eq_false h.not_ge, Bool.and_false]

theorem WellNumbered.mem (h : WellNumbered func) {b : MirBlockId} {inst : MirInst}
    (hInst : inst ∈ func.insts b) :
    (∀ id ∈ inst.op.operands, id < func.nextValueId) ∧ inst.result < func.nextValueId :=
  h inst (MirFunction.mem_flatMap_of_mem_insts hInst)

theorem branchReads_subset_operands (op : MirOp) : branchReads op ⊆ op.operands := by
  cases op with
  | condbr | switch => exact List.Subset.refl _
  | _ => exact List.nil_subset _

theorem WellNumbered.branchesInside (h : WellNumbered func)
    (hFits : func.nextValueId ≤ cvmMaxRegs) :
    BranchesInside func := fun _ inst hInst id hId =>
  lt_cvmRegCount ((h.mem hInst).1 id (branchReads_subset_operands inst.op hId)) hFits

end

end Casprix.Cvm
