import Mathlib.Data.List.Find
import Casprix.Opt.DeadCodeRuns
import Casprix.Opt.InPlace

/-! Instructions that a pass has renamed, folded or taken out, beside the original ones. -/
namespace Casprix.Opt

open Function List Mir Cvm Library

/-- The opcodes whose operands `replace_value_in_inst` leaves as they are. -/
def replaceMisses : MirOp → Bool
  | .switch .. | .callVirtual .. | .structInit _ | .extract .. | .insert .. | .suspend .. => true
  | _ => false

variable (rename : MirValueId → MirValueId)

/-- The name that replacing gives an operand of this operation. -/
def reachedName (op : MirOp) : MirValueId → MirValueId :=
  if replaceMisses op then id else rename

def substOp (op : MirOp) : MirOp :=
  mapOperands (reachedName rename op) op

def substInst (inst : MirInst) : MirInst :=
  { inst with op := substOp rename inst.op }

section

variable {f g rename : MirValueId → MirValueId} {op : MirOp}

theorem substOp_of_misses (h : replaceMisses op = true) : substOp rename op = op := by
  unfold substOp reachedName
  rw [if_pos h, mapOperands_id]

theorem substOp_of_reached (h : replaceMisses op = false) :
    substOp rename op = mapOperands rename op := by
  unfold substOp reachedName
  rw [if_neg (Bool.eq_false_iff.mp h)]

theorem substOp_id (op : MirOp) : substOp id op = op := by
  unfold substOp reachedName
  rw [ite_self, mapOperands_id]

theorem replaceMisses_mapOperands (op : MirOp) :
    replaceMisses (mapOperands rename op) = replaceMisses op := by
  cases op <;> rfl

theorem mapOperands_comp (op : MirOp) :
    mapOperands g (mapOperands f op) = mapOperands (g ∘ f) op := by
  cases op with
  | phi edges =>
    simp only [mapOperands, map_map]
    rfl
  | call | callIndirect | callVirtual | structInit => simp only [mapOperands, map_map, comp]
  | _ => rfl

theorem substOp_comp (op : MirOp) : substOp g (substOp f op) = substOp (g ∘ f) op := by
  cases hMissed : replaceMisses op with
  | true => rw [substOp_of_misses hMissed, substOp_of_misses hMissed, substOp_of_misses hMissed]
  | false =>
    rw [substOp_of_reached hMissed, substOp_of_reached hMissed,
      substOp_of_reached, mapOperands_comp]
    rwa [replaceMisses_mapOperands]

theorem replaceValueInOp_eq (oldVal newVal : MirValueId) (op : MirOp) :
    replaceValueInOp oldVal newVal op = substOp (replaced oldVal newVal) op := by
  cases hMissed : replaceMisses op with
  | true =>
    rw [substOp_of_misses hMissed]
    cases op with
    | switch | callVirtual | structInit | extract | insert | suspend => rfl
    | _ => cases hMissed
  | false =>
    rw [substOp_of_reached hMissed]
    cases op with
    | switch | callVirtual | structInit | extract | insert | suspend => cases hMissed
    | _ => rfl

theorem replaceValueInInst_substInst (oldVal newVal : MirValueId) (inst : MirInst) :
    replaceValueInInst oldVal newVal (substInst rename inst) =
      substInst (replaced oldVal newVal ∘ rename) inst := by
  unfold replaceValueInInst substInst
  rw [replaceValueInOp_eq, substOp_comp]

theorem checked_mapOperands (rename : MirValueId → MirValueId) (op : MirOp) :
    (operandChecks (mapOperands rename op)).map Prod.fst =
      ((operandChecks op).map Prod.fst).map rename := by
  cases op with
  | call | callIndirect | callVirtual | structInit | phi =>
    simp only [mapOperands, operandChecks, map_cons, map_map, comp_def, renameEdge]
  | _ => rfl

end

/-- The registers that the machine reads, or an observer of a suspension. -/
def shownReads (frame : CvmFrame) : MirOp → List MirValueId
  | .phi edges => [phiOperand edges frame.prev]
  | .suspend _ future => [future]
  | op => gotoReads op

/-- Whatever the operation reads holds the same under its new name. A PHI reads the same edge,
and a move zeroes the same register. -/
structure NamesAgree (rename : MirValueId → MirValueId) (frame : CvmFrame)
    (op : MirOp) : Prop where
  reg_eq : ∀ id ∈ shownReads frame op, frame.reg (reachedName rename op id) = frame.reg id
  phi : ∀ edges, op = .phi edges →
    phiOperand (edges.map (renameEdge rename)) frame.prev = rename (phiOperand edges frame.prev)
  move : ∀ source, op = .transfer .move source → rename source = source

/-- Where the machine finds an edge or no operand becomes or ceases to be none, a PHI with new
names selects the operand of the same edge. -/
theorem phiOperand_renamed {rename : MirValueId → MirValueId} {edges : List MirPhiEdge}
    {prev : MirBlockRef} (h : edges.any (·.block == prev) = true ∨
      ∀ v ∈ 0 :: edges.map (·.value), (rename v = 0 ↔ v = 0)) :
    phiOperand (edges.map (renameEdge rename)) prev = rename (phiOperand edges prev) := by
  have hOwn : (edges.map (renameEdge rename)).find? (·.block == prev) =
      (edges.find? (·.block == prev)).map (renameEdge rename) := by
    rw [find?_map]
    rfl
  unfold phiOperand
  rw [hOwn]
  cases hFind : edges.find? (·.block == prev) with
  | some edge => rfl
  | none =>
    have hNone : ∀ v ∈ 0 :: edges.map (·.value), (rename v = 0 ↔ v = 0) := by
      rcases h with hAny | hNone
      · obtain ⟨edge, hEdge, hBlock⟩ := any_eq_true.mp hAny
        exact absurd hBlock (List.find?_eq_none.mp hFind edge hEdge)
      · exact hNone
    have hSame : ∀ edge ∈ edges, ((renameEdge rename edge).value != 0) = (edge.value != 0) := by
      intro edge hEdge
      have hIff := hNone edge.value (mem_cons_of_mem 0 (mem_map_of_mem hEdge))
      rw [Bool.eq_iff_iff, bne_iff_ne, bne_iff_ne]
      exact not_congr hIff
    have hAny : (edges.map (renameEdge rename)).find? (·.value != 0) =
        (edges.find? (·.value != 0)).map (renameEdge rename) := by
      rw [find?_map]
      exact congrArg (Option.map _) (find?_congr hSame)
    simp only [Option.map_none, hAny]
    cases edges.find? (·.value != 0) with
    | some edge => rfl
    | none => exact ((hNone 0 mem_cons_self).mpr rfl).symm

theorem shownReads_subset {frame : CvmFrame} {op : MirOp} {id : MirValueId}
    (h : id ∈ shownReads frame op) : id = 0 ∨ id ∈ op.operands := by
  cases op with
  | phi edges =>
    rw [shownReads, mem_singleton] at h
    rw [h]
    exact phiOperand_mem edges frame.prev
  | suspend resumeBb future => exact Or.inr h
  | _ => exact Or.inr (gotoReads_subset_operands _ h)

section

variable {Heap : Type} {host : CvmHost Heap} {loop : CvmLoop Heap} {func func' : MirFunction}
  {rules : RewriteRules} {frame frame' : CvmFrame} {vm vm' : CvmState Heap} {inst : MirInst}
  {rename : MirValueId → MirValueId}

theorem sameSlot_of_nextValueId (hNext : func'.nextValueId = func.nextValueId) (id : MirValueId) :
    SameSlot func func' id := by
  unfold SameSlot cvmRegCount
  rw [hNext]

theorem outside_of_lt (hFits : func.nextValueId ≤ cvmMaxRegs) (hFunc : frame.func = func)
    {id : MirValueId} (hId : id < func.nextValueId) : frame.outside id = false := by
  apply outside_eq_false
  rw [hFunc]
  exact lt_cvmRegCount hId hFits

section

variable (hFunc : frame.func = func)
  (hFrame : FrameRelated (update id func func') (rulesOf func rules) frame frame')
include hFunc hFrame

theorem func_of_related :
    frame'.func = func' := by
  rw [hFrame.func_eq, hFunc, update_self]

theorem reg_of_related
    {x : MirValueId} (hVisible : rules.visible x) : frame'.reg x = frame.reg x := by
  apply hFrame.regs_eq
  rwa [hFunc, rulesOf_self]

end

section

variable (hLoop : loop = gotoLoop host ∨ loop = switchLoop host)
include hLoop

/-- An instruction with its operands renamed does the same, where the names agree and the new
names are visible. -/
theorem doesSame_renamed
    (hName : func'.name = func.name) (hNext : func'.nextValueId = func.nextValueId)
    (hFits : func.nextValueId ≤ cvmMaxRegs) (hFunc : frame.func = func)
    (hFrame : FrameRelated (update id func func') (rulesOf func rules) frame frame')
    (hVm : VmRelated (update id func func') vm vm')
    (hAgree : NamesAgree rename frame inst.op)
    (hReads : ∀ id ∈ shownReads frame inst.op, id < func.nextValueId ∧
      reachedName rename inst.op id < func.nextValueId ∧
        rules.visible (reachedName rename inst.op id)) :
    DoesSame loop (update id func func') (rulesOf func rules) frame frame' inst
      (substInst rename inst) vm vm' := by
  have hFunc' := func_of_related hFunc hFrame
  have hFits' : func'.nextValueId ≤ cvmMaxRegs := hNext.symm ▸ hFits
  have hSlots : ∀ x, SameSlot frame.func (update id func func' frame.func) x := by
    intro x
    rw [hFunc, update_self]
    exact sameSlot_of_nextValueId hNext x
  have hSame : ∀ x ∈ shownReads frame inst.op,
      SameReads (reachedName rename inst.op) frame frame' x := by
    intro x hx
    obtain ⟨hOld, hNew, hVisible⟩ := hReads x hx
    refine ⟨(reg_of_related hFunc hFrame hVisible).trans (hAgree.reg_eq x hx), ?_⟩
    rw [outside_of_lt hFits hFunc hOld, outside_of_lt hFits' hFunc' (hNext.symm ▸ hNew)]
  refine doesSame_of_readsAlike hLoop (name_update hName) hFrame hVm rfl rfl (hSlots inst.result)
    ⟨fun x hx => ?_, fun edges hOp => ?_, fun source hOp => ?_, fun resumeBb future hOp => ?_⟩
  · apply hSame
    generalize inst.op = op at hx ⊢
    cases op with
    | phi edges =>
      cases hx
    | suspend resumeBb future =>
      cases hx
    | _ =>
      exact hx
  · have hOperand : phiOperand edges frame.prev ∈ shownReads frame inst.op := by
      rw [hOp]
      exact mem_singleton_self _
    have hReached : reachedName rename inst.op = rename := by rw [hOp]; rfl
    refine ⟨?_, hSame _ hOperand⟩
    rw [hReached]
    exact hAgree.phi edges hOp
  · have hReached : reachedName rename inst.op = rename := by rw [hOp]; rfl
    refine ⟨by rw [hReached, hAgree.move source hOp], ?_⟩
    rw [hFrame.func_eq]
    exact hSlots source
  · have hFuture : future ∈ shownReads frame inst.op := by
      rw [hOp]
      exact mem_singleton_self _
    exact (hSame future hFuture).1

/-- A binary operation that was folded to a constant does the same, if the constant is what it
computes. -/
theorem doesSame_folded (hNext : func'.nextValueId = func.nextValueId)
    (hFits : func.nextValueId ≤ cvmMaxRegs) (hFunc : frame.func = func)
    (hFrame : FrameRelated (update id func func') (rulesOf func rules) frame frame')
    (hVm : VmRelated (update id func func') vm vm') {op : BinaryOp} {lhs rhs : MirValueId}
    (hOp : inst.op = .binary op lhs rhs) (hLhs : lhs < func.nextValueId)
    (hRhs : rhs < func.nextValueId) {folded : MirOp}
    (hFolded : loop.exec frame' { inst with op := folded } vm' = setNext frame' inst.result
      (cvmBinary host op (frame.reg lhs) (frame.reg rhs)) vm')
    (hSilent : frame'.suspensions folded = []) :
    DoesSame loop (update id func func') (rulesOf func rules) frame frame' inst
      { inst with op := folded } vm vm' where
  result_eq := rfl
  slot := by
    rw [hFunc, update_self]
    exact sameSlot_of_nextValueId hNext inst.result
  suspensions_eq := by
    rw [hOp]
    exact hSilent
  outcome := by
    rw [exec_binary hLoop hOp (outside_of_lt hFits hFunc hLhs)
      (outside_of_lt hFits hFunc hRhs), hFolded]
    apply hFrame.setNext hVm
    rw [hFunc, update_self]
    exact sameSlot_of_nextValueId hNext inst.result

/-- An instruction that only assigns can be taken out, if its result is not visible. -/
theorem doesSame_removed (hNext : func'.nextValueId = func.nextValueId) (hFunc : frame.func = func)
    (hFrame : FrameRelated (update id func func') (rulesOf func rules) frame frame')
    (hVm : VmRelated (update id func func') vm vm')
    (hOnly : OnlyAssigns frame vm inst.result (loop.exec frame inst vm))
    (hSilent : frame.suspensions inst.op = [])
    (hHidden : ∀ id, rules.visible id → id = 0 ∨ id ≠ inst.result) :
    DoesSame loop (update id func func') (rulesOf func rules) frame frame' inst
      { inst with op := .nop } vm vm' where
  result_eq := rfl
  slot := by
    rw [hFunc, update_self]
    exact sameSlot_of_nextValueId hNext inst.result
  suspensions_eq := hSilent.symm
  outcome := by
    obtain ⟨regs, hExec, hRegs⟩ := hOnly
    have hNop : ({ inst with op := .nop } : MirInst).op = .nop := rfl
    rw [hExec, exec_nop hLoop hNop]
    refine .next ⟨hFrame.func_eq, fun x hVisible => ?_, hFrame.allocas_eq, hFrame.block_eq,
      hFrame.prev_eq, hFrame.rest⟩ hVm
    have hOwn : rules.visible x := by
      have hHere : (rulesOf func rules frame.func).visible x := hVisible
      rwa [hFunc, rulesOf_self] at hHere
    rw [hRegs x (hHidden x hOwn)]
    exact reg_of_related hFunc hFrame hOwn

end

end

end Casprix.Opt
