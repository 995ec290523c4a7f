import Casprix.Cvm.Assigned
import Casprix.Library.Stutter

/-! Runs of a function beside runs of a rewritten one. Instructions may be left out, made
to read other registers, or given a constant of their own, and the registers that both
functions use hold the same. -/
namespace Casprix.Cvm

open List Mir Library

section

variable {Heap : Type}

/-- The value and trap code of a call that is over, and what the run has done so far. -/
def CvmConfig.observed : CvmConfig Heap → Option (Option (CvmReg × Nat) × List CvmEvent)
  | .running _ _ vm => some (none, vm.events)
  | .returned value vm => some (some (value, vm.trapCode), vm.events)
  | .crashed => none

/-- A suspension shows where it resumes and the future it waits for. -/
def CvmFrame.suspensions (frame : CvmFrame) : MirOp → List (MirBlockRef × CvmReg)
  | .suspend resumeBb future => [(resumeBb, frame.reg future)]
  | _ => []

def CvmConfig.suspensions : CvmConfig Heap → List (MirBlockRef × CvmReg)
  | .running frame _ _ =>
    match frame.block, frame.rest with
    | some _, inst :: _ => frame.suspensions inst.op
    | _, _ => []
  | _ => []

/-- What can be seen: the end of the call, the calls, the stores and the suspensions. -/
def observedTrace (c : CvmConfig Heap × List (MirBlockRef × CvmReg)) :
    Option (Option (CvmReg × Nat) × List CvmEvent) × List (MirBlockRef × CvmReg) :=
  (c.1.observed, c.2)

/-- A call of `func` on one machine comes to show the same as a call of `func'` on another. -/
def SameBehaviour (host : CvmHost Heap) (loop : CvmLoop Heap) (vm vm' : CvmState Heap)
    (func func' : MirFunction) (args : List CvmReg) : Prop :=
  SameRuns (traced (step host loop) CvmConfig.suspensions) observedTrace
    (cvmExecFunction host loop [] vm func args, [])
    (traced (step host loop) CvmConfig.suspensions) observedTrace
    (cvmExecFunction host loop [] vm' func' args, [])

/-- The machine with one function of its module replaced, wherever it is listed. -/
def CvmState.replaceFunction (vm : CvmState Heap) (func func' : MirFunction) : CvmState Heap :=
  { vm with
    module := { vm.module with
      funcList := vm.module.funcList.map (Function.update id func func') } }

end

/-- How the instructions of a function are rewritten: the registers that keep their
meaning, and which instruction, at the head of what is left of a block, is replaced,
left out, or replaced behind a constant. -/
structure RewriteRules where
  visible : MirValueId → Prop
  kept : MirBlockId → MirInst → List MirInst → MirInst → Prop
  dropped : MirBlockId → MirInst → List MirInst → Prop
  preceded : MirBlockId → MirInst → List MirInst → MirInst → MirInst → Prop

inductive Rewritten (rules : RewriteRules) (b : MirBlockId) : List MirInst → List MirInst → Prop
  | nil : Rewritten rules b [] []
  | kept {inst inst' : MirInst} {rest rest' : List MirInst} (h : rules.kept b inst rest inst')
      (hRest : Rewritten rules b rest rest') : Rewritten rules b (inst :: rest) (inst' :: rest')
  | dropped {inst : MirInst} {rest rest' : List MirInst} (h : rules.dropped b inst rest)
      (hRest : Rewritten rules b rest rest') : Rewritten rules b (inst :: rest) rest'
  | preceded {inst extra inst' : MirInst} {rest rest' : List MirInst}
      (h : rules.preceded b inst rest extra inst') (hRest : Rewritten rules b rest rest') :
      Rewritten rules b (inst :: rest) (extra :: inst' :: rest')

/-- The rules that leave a function as it is. -/
def RewriteRules.same : RewriteRules where
  visible _ := True
  kept _ inst _ inst' := inst' = inst
  dropped _ _ _ := False
  preceded _ _ _ _ _ := False

theorem rewritten_same (b : MirBlockId) (insts : List MirInst) :
    Rewritten RewriteRules.same b insts insts := by
  induction insts with
  | nil => exact .nil
  | cons inst rest ih => exact .kept rfl ih

/-- An id is inside both register files or outside both. -/
def SameSlot (func func' : MirFunction) (id : MirValueId) : Prop :=
  cvmRegCount func ≤ id ↔ cvmRegCount func' ≤ id

section

variable {Heap : Type} (opt : MirFunction → MirFunction) (rules : MirFunction → RewriteRules)

structure VmRelated (vm vm' : CvmState Heap) : Prop where
  module_eq : vm'.module.funcList = vm.module.funcList.map opt
  heap_eq : vm'.heap = vm.heap
  trapCode_eq : vm'.trapCode = vm.trapCode
  events_eq : vm'.events = vm.events

structure FrameRelated (frame frame' : CvmFrame) : Prop where
  func_eq : frame'.func = opt frame.func
  regs_eq : ∀ id, (rules frame.func).visible id → frame'.reg id = frame.reg id
  allocas_eq : frame'.allocas = frame.allocas
  block_eq : frame'.block = frame.block
  prev_eq : frame'.prev = frame.prev
  rest : ∀ b, frame.block = some b → Rewritten (rules frame.func) b frame.rest frame'.rest

structure WaitingRelated (frame frame' : CvmFrame) :
    Prop extends FrameRelated opt rules frame frame' where
  resultId_eq : frame'.resultId = frame.resultId
  slot : SameSlot frame.func (opt frame.func) frame.resultId

inductive OutcomeRelated : CvmOutcome Heap → CvmOutcome Heap → Prop
  | next {frame frame' : CvmFrame} {vm vm' : CvmState Heap}
    (h : FrameRelated opt rules frame frame')
      (hVm : VmRelated opt vm vm') : OutcomeRelated (.next frame vm) (.next frame' vm')
  | jump (target : MirBlockRef) {vm vm' : CvmState Heap} (hVm : VmRelated opt vm vm') :
      OutcomeRelated (.jump target vm) (.jump target vm')
  | done (value : CvmReg) {vm vm' : CvmState Heap} (hVm : VmRelated opt vm vm') :
      OutcomeRelated (.done value vm) (.done value vm')
  | enter (callee : MirFunction) (args : List CvmReg) {vm vm' : CvmState Heap}
      (hVm : VmRelated opt vm vm') :
      OutcomeRelated (.enter callee args vm) (.enter (opt callee) args vm')
  | crash : OutcomeRelated .crash .crash

inductive ConfigRelated : CvmConfig Heap → CvmConfig Heap → Prop
  | running {frame frame' : CvmFrame} {callers callers' : List CvmFrame} {vm vm' : CvmState Heap}
      (h : FrameRelated opt rules frame frame')
      (hCallers : List.Forall₂ (WaitingRelated opt rules) callers callers')
      (hVm : VmRelated opt vm vm') :
      ConfigRelated (.running frame callers vm) (.running frame' callers' vm')
  | returned (value : CvmReg) {vm vm' : CvmState Heap} (hVm : VmRelated opt vm vm') :
      ConfigRelated (.returned value vm) (.returned value vm')
  | crashed : ConfigRelated .crashed .crashed

end

section

variable {Heap : Type} {opt : MirFunction → MirFunction} {rules : MirFunction → RewriteRules}
  {host : CvmHost Heap} {loop : CvmLoop Heap} {frame frame' : CvmFrame}
  {callers callers' : List CvmFrame} {vm vm' : CvmState Heap} {id id' : MirValueId} {v : CvmReg}

section

variable (h : VmRelated opt vm vm')
include h

theorem VmRelated.trap (code : Nat) :
    VmRelated opt (vm.trap code) (vm'.trap code) :=
  ⟨h.module_eq, h.heap_eq, rfl, h.events_eq⟩

theorem VmRelated.tick : VmRelated opt vm.tick vm'.tick :=
  ⟨h.module_eq, h.heap_eq, h.trapCode_eq, h.events_eq⟩

theorem VmRelated.record (event : CvmEvent) :
    VmRelated opt (vm.record event) (vm'.record event) :=
  ⟨h.module_eq, h.heap_eq, h.trapCode_eq, congrArg (· ++ [event]) h.events_eq⟩

theorem VmRelated.withHeap (heap : Heap) :
    VmRelated opt { vm with heap := heap } { vm' with heap := heap } :=
  ⟨h.module_eq, rfl, h.trapCode_eq, h.events_eq⟩

end

theorem outside_eq_of_sameSlot (hFunc : frame'.func = opt frame.func)
    (hSlot : SameSlot frame.func (opt frame.func) id) : frame'.outside id = frame.outside id := by
  unfold CvmFrame.outside
  rw [hFunc, decide_eq_decide.mpr hSlot]

section

variable (h : FrameRelated opt rules frame frame')
include h

section

variable (hVm : VmRelated opt vm vm') (hSlot : SameSlot frame.func (opt frame.func) id) (v : CvmReg)
include hVm hSlot

theorem FrameRelated.set :
    FrameRelated opt rules (cvmRegSet frame id v vm).1 (cvmRegSet frame' id v vm').1 ∧
      VmRelated opt (cvmRegSet frame id v vm).2 (cvmRegSet frame' id v vm').2 := by
  have hCount : cvmRegCount frame'.func = cvmRegCount (opt frame.func) := congrArg _ h.func_eq
  unfold cvmRegSet
  rw [hCount]
  by_cases hZero : id = 0
  · rw [if_pos hZero, if_pos hZero]
    exact ⟨h, hVm⟩
  · rw [if_neg hZero, if_neg hZero]
    by_cases hOut : cvmRegCount frame.func ≤ id
    · rw [if_pos hOut, if_pos (hSlot.mp hOut)]
      exact ⟨h, hVm.trap 5⟩
    · have hOut' : ¬cvmRegCount (opt frame.func) ≤ id := fun hLe => hOut (hSlot.mpr hLe)
      rw [if_neg hOut, if_neg hOut']
      refine ⟨⟨h.func_eq, fun other hVisible => ?_, h.allocas_eq, h.block_eq,
        h.prev_eq, h.rest⟩, hVm⟩
      rw [reg_update, reg_update, hCount, h.regs_eq other hVisible]
      simp only [Nat.lt_of_not_le hOut, Nat.lt_of_not_le hOut']

theorem FrameRelated.setNext :
    OutcomeRelated opt rules (setNext frame id v vm) (setNext frame' id v vm') :=
  have hSet := h.set hVm hSlot v
  .next hSet.1 hSet.2

end

theorem FrameRelated.clearMoved (hSlot : SameSlot frame.func (opt frame.func) id) :
    FrameRelated opt rules (clearMoved frame id) (clearMoved frame' id) := by
  have hCount : cvmRegCount frame'.func = cvmRegCount (opt frame.func) := congrArg _ h.func_eq
  unfold Cvm.clearMoved
  rw [hCount]
  by_cases hOut : id = 0 ∨ cvmRegCount frame.func ≤ id
  · rw [if_pos hOut, if_pos (hOut.imp_right hSlot.mp)]
    exact h
  · have hOut' : ¬(id = 0 ∨ cvmRegCount (opt frame.func) ≤ id) := fun hEither =>
      hOut (hEither.imp_right hSlot.mpr)
    rw [if_neg hOut, if_neg hOut']
    rw [not_or] at hOut hOut'
    refine ⟨h.func_eq, fun other hVisible => ?_, h.allocas_eq, h.block_eq, h.prev_eq, h.rest⟩
    rw [reg_update, reg_update, hCount, h.regs_eq other hVisible]
    simp only [Nat.lt_of_not_le hOut.2, Nat.lt_of_not_le hOut'.2]

theorem FrameRelated.loadNext (hVm : VmRelated opt vm vm')
    (hSlot : SameSlot frame.func (opt frame.func) id) (address : CvmReg) :
    OutcomeRelated opt rules (loadNext host frame id address vm)
      (loadNext host frame' id address vm') := by
  unfold Cvm.loadNext
  rw [hVm.heap_eq]
  cases host.read vm.heap address with
  | none => exact .crash
  | some value => exact h.setNext hVm hSlot value

theorem FrameRelated.allocNext (hVm : VmRelated opt vm vm')
    (hSlot : SameSlot frame.func (opt frame.func) id) (bytes : Nat) (tracked : Bool) :
    OutcomeRelated opt rules (allocNext host frame id bytes tracked vm)
      (allocNext host frame' id bytes tracked vm') := by
  unfold Cvm.allocNext
  rw [hVm.heap_eq]
  cases host.calloc vm.heap bytes with
  | none => exact .done 0 (hVm.trap 1)
  | some allocated =>
    obtain ⟨mem, heap⟩ := allocated
    cases tracked with
    | false => exact h.setNext (hVm.withHeap heap) hSlot mem
    | true =>
      have hTracked : FrameRelated opt rules
          { frame with allocas := frame.allocas ++ [mem] }
          { frame' with allocas := frame'.allocas ++ [mem] } :=
        ⟨h.func_eq, h.regs_eq, congrArg (· ++ [mem]) h.allocas_eq,
          h.block_eq, h.prev_eq, h.rest⟩
      exact hTracked.setNext (hVm.withHeap heap) hSlot mem

theorem FrameRelated.storeNext (hVm : VmRelated opt vm vm')
    {ptr value ptr' value' : MirValueId} (hPtr : frame'.reg ptr' = frame.reg ptr)
    (hValue : frame'.reg value' = frame.reg value) :
    OutcomeRelated opt rules (storeNext host frame ptr value vm)
      (storeNext host frame' ptr' value' vm') := by
  unfold Cvm.storeNext
  rw [hVm.heap_eq, hPtr, hValue]
  by_cases hNull : frame.reg ptr = 0
  · rw [if_pos hNull, if_pos hNull]
    exact .next h hVm
  · rw [if_neg hNull, if_neg hNull]
    cases host.write vm.heap (frame.reg ptr) (frame.reg value) with
    | none => exact .crash
    | some heap => exact .next h ((hVm.withHeap heap).record _)

end

theorem VmRelated.findFunction (h : VmRelated opt vm vm') (hName : ∀ f, (opt f).name = f.name)
    (name : String) :
    vm'.module.findFunction name = (vm.module.findFunction name).map opt := by
  have hSame : ((fun f : MirFunction => f.name == name) ∘ opt) = fun f => f.name == name := by
    funext f
    simp only [Function.comp, hName]
  unfold MirModule.findFunction
  rw [h.module_eq, find?_map, hSame]

theorem FrameRelated.dispatchCall (h : FrameRelated opt rules frame frame')
    (hVm : VmRelated opt vm vm') (hName : ∀ f, (opt f).name = f.name)
    (hSlot : SameSlot frame.func (opt frame.func) id) (name : Option String)
    {args args' : List MirValueId}
    (hArgs : (args'.take 64).map frame'.reg = (args.take 64).map frame.reg) :
    OutcomeRelated opt rules (cvmDispatchCall frame id name args vm)
      (cvmDispatchCall frame' id name args' vm') := by
  unfold cvmDispatchCall
  rw [hVm.trapCode_eq, hArgs]
  by_cases hTrap : vm.trapCode = 0
  · rw [if_neg (not_not_intro hTrap), if_neg (not_not_intro hTrap)]
    have hCalled := hVm.record (.call name ((args.take 64).map frame.reg))
    cases name with
    | none =>
      have hEmpty : (vm'.record (.call none ((args.take 64).map frame.reg))).module.funcList =
        [] ↔
          (vm.record (.call none ((args.take 64).map frame.reg))).module.funcList = [] := by
        rw [hCalled.module_eq, map_eq_nil_iff]
      simp only [hEmpty]
      split
      · exact h.setNext hCalled hSlot 0
      · exact .crash
    | some called =>
      simp only [hCalled.findFunction hName]
      split
      · exact h.setNext hCalled hSlot 0
      · cases (vm.record (.call (some called) ((args.take 64).map frame.reg))).module.findFunction
          called with
        | none => exact h.setNext hCalled hSlot 0
        | some callee => exact .enter callee _ hCalled
  · rw [if_pos hTrap, if_pos hTrap]
    exact h.setNext hVm hSlot 0

end

section

variable (rename : MirValueId → MirValueId)

def renameEdge (edge : MirPhiEdge) : MirPhiEdge := { edge with value := rename edge.value }

/-- An operation with its operands renamed. -/
def mapOperands : MirOp → MirOp
  | .binary op lhs rhs => .binary op (rename lhs) (rename rhs)
  | .unary op operand type => .unary op (rename operand) type
  | .load ptr => .load (rename ptr)
  | .store ptr value => .store (rename ptr) (rename value)
  | .getFieldPtr base fieldIndex index => .getFieldPtr (rename base) fieldIndex (rename index)
  | .getElemPtr base index => .getElemPtr (rename base) (rename index)
  | .condbr cond trueBb falseBb => .condbr (rename cond) trueBb falseBb
  | .switch discriminant cases defaultBb => .switch (rename discriminant) cases defaultBb
  | .ret value => .ret (rename value)
  | .call name args callee => .call name (args.map rename) (rename callee)
  | .callIndirect name args callee => .callIndirect name (args.map rename) (rename callee)
  | .callVirtual selfObj vtableIndex args =>
    .callVirtual (rename selfObj) vtableIndex (args.map rename)
  | .phi edges => .phi (edges.map (renameEdge rename))
  | .transfer op source => .transfer op (rename source)
  | .refop op ptr => .refop op (rename ptr)
  | .structInit fields => .structInit (fields.map rename)
  | .extract aggregate fieldIdx => .extract (rename aggregate) fieldIdx
  | .insert aggregate fieldIdx insertVal => .insert (rename aggregate) fieldIdx (rename insertVal)
  | .vec op a b c width laneType => .vec op (rename a) (rename b) (rename c) width laneType
  | .suspend resumeBb future => .suspend resumeBb (rename future)
  | op => op

theorem map_renameEdge_id (edges : List MirPhiEdge) : edges.map (renameEdge id) = edges :=
  (map_congr_left fun _ _ => rfl).trans (map_id edges)

theorem mapOperands_id (op : MirOp) : mapOperands id op = op := by
  cases op with
  | phi edges => exact congrArg MirOp.phi (map_renameEdge_id edges)
  | call name args callee | callIndirect name args callee | callVirtual selfObj vtableIndex args
  | structInit fields => simp only [mapOperands, map_id_fun, id]
  | _ => rfl

/-- Registers that agree under the names the two frames have for them. -/
def SameReads (frame frame' : CvmFrame) (id : MirValueId) : Prop :=
  frame'.reg (rename id) = frame.reg id ∧ frame'.outside (rename id) = frame.outside id

/-- What an operation reads is the same in both frames under the other names. A PHI selects
the operand of the same edge, and the source of a move keeps its name. -/
structure ReadsAlike (frame frame' : CvmFrame) (op : MirOp) : Prop where
  reads : ∀ id ∈ gotoReads op, SameReads rename frame frame' id
  phi : ∀ edges, op = .phi edges →
    phiOperand (edges.map (renameEdge rename)) frame.prev = rename (phiOperand edges frame.prev) ∧
      SameReads rename frame frame' (phiOperand edges frame.prev)
  move : ∀ source, op = .transfer .move source →
    rename source = source ∧ SameSlot frame.func frame'.func source
  future : ∀ resumeBb future, op = .suspend resumeBb future →
    frame'.reg (rename future) = frame.reg future

end

theorem gotoReads_subset_operands (op : MirOp) : gotoReads op ⊆ op.operands := by
  cases op with
  | call name args callee => exact take_subset 64 args
  | callIndirect name args callee =>
    exact fun id hId => mem_cons_of_mem callee (take_subset 64 args hId)
  | getFieldPtr base fieldIndex index =>
    exact fun id hId => mem_of_mem_head? (congrArg some (mem_singleton.mp hId)).symm
  | _ => first
    | exact List.Subset.refl _
    | exact nil_subset _

theorem phiOperand_mem (edges : List MirPhiEdge) (prev : MirBlockRef) :
    phiOperand edges prev = 0 ∨ phiOperand edges prev ∈ edges.map (·.value) := by
  unfold phiOperand
  cases hOwn : edges.find? (·.block == prev) with
  | some edge => exact .inr (mem_map_of_mem (mem_of_find?_eq_some hOwn))
  | none =>
    cases hAny : edges.find? (·.value != 0) with
    | some edge => exact .inr (mem_map_of_mem (mem_of_find?_eq_some hAny))
    | none => exact .inl rfl

section

variable {Heap : Type} {opt : MirFunction → MirFunction} {rules : MirFunction → RewriteRules}
  {host : CvmHost Heap} {loop : CvmLoop Heap} {frame frame' : CvmFrame}
  {vm vm' : CvmState Heap} {rename : MirValueId → MirValueId} {op : MirOp} {inst inst' : MirInst}

theorem suspensions_mapOperands (h : ReadsAlike rename frame frame' op) :
    frame'.suspensions (mapOperands rename op) = frame.suspensions op := by
  cases op with
  | suspend resumeBb future =>
    exact congrArg (fun value => [(resumeBb, value)]) (h.future resumeBb future rfl)
  | _ => rfl

theorem any_outside_map {ids : List MirValueId}
    (h : ∀ id ∈ ids, SameReads rename frame frame' id) :
    (ids.map rename).any frame'.outside = ids.any frame.outside := by
  rw [any_map, Bool.eq_iff_iff, any_eq_true, any_eq_true]
  refine exists_congr fun id => and_congr_right fun hId => ?_
  rw [Function.comp, (h id hId).2]

theorem map_take_reg {args : List MirValueId}
    (h : ∀ id ∈ args.take 64, SameReads rename frame frame' id) :
    ((args.map rename).take 64).map frame'.reg = (args.take 64).map frame.reg := by
  rw [← map_take, map_map]
  exact map_congr_left fun id hId => (h id hId).1

/-- Where all operands are visible, an operation reads alike without new names. -/
theorem FrameRelated.readsAlike (h : FrameRelated opt rules frame frame')
    (hSlots : ∀ id, (rules frame.func).visible id → SameSlot frame.func (opt frame.func) id)
    (hZero : (rules frame.func).visible 0)
    (hOperands : ∀ id ∈ op.operands, (rules frame.func).visible id) :
    ReadsAlike id frame frame' op := by
  have hReads : ∀ x, (rules frame.func).visible x → SameReads id frame frame' x :=
    fun x hVisible =>
    ⟨h.regs_eq x hVisible, outside_eq_of_sameSlot h.func_eq (hSlots x hVisible)⟩
  refine ⟨fun x hRead => hReads x (hOperands x (gotoReads_subset_operands op hRead)),
    fun edges hOp => ⟨?_, hReads _ ?_⟩, fun source hOp =>
      ⟨rfl, ?_⟩, fun resumeBb future hOp => ?_⟩
  · rw [map_renameEdge_id, id]
  · rcases phiOperand_mem edges frame.prev with hNone | hMem
    · rw [hNone]
      exact hZero
    · exact hOperands _ (by rw [hOp]; exact hMem)
  · rw [h.func_eq]
    exact hSlots source (hOperands source (by rw [hOp]; exact mem_singleton_self source))
  · exact (hReads future (hOperands future (by rw [hOp]; exact mem_singleton_self future))).1

/-- The registers read are those of the first frame under their other names. -/
theorem readIds_mapOperands (h : ReadsAlike rename frame frame' op)
    (hPrev : frame'.prev = frame.prev)
    (trapCode : Nat) : frame'.readIds trapCode (mapOperands rename op) =
      (frame.readIds trapCode op).map rename := by
  cases op with
  | binary op lhs rhs =>
    have hLhs := (h.reads lhs mem_cons_self).1
    cases op with
    | logicAnd | logicOr =>
      simp only [mapOperands, CvmFrame.readIds, hLhs]
      split <;> rfl
    | _ => rfl
  | store ptr value =>
    have hPtr := (h.reads ptr mem_cons_self).1
    simp only [mapOperands, CvmFrame.readIds, hPtr]
    split <;> rfl
  | call name args callee | callIndirect name args callee =>
    simp only [mapOperands, CvmFrame.readIds]
    split
    · exact map_take.symm
    · rfl
  | phi edges =>
    simp only [mapOperands, CvmFrame.readIds, hPrev, (h.phi edges rfl).1, map_cons, map_nil]
  | _ => rfl

theorem readIds_sameReads (h : ReadsAlike rename frame frame' op) (trapCode : Nat) :
    ∀ id ∈ frame.readIds trapCode op, SameReads rename frame frame' id := by
  cases op with
  | phi edges =>
    intro id hId
    rw [CvmFrame.readIds, mem_singleton] at hId
    rw [hId]
    exact (h.phi edges rfl).2
  | _ => exact fun id hId => h.reads id (mem_gotoReads rfl hId)

theorem VmRelated.touch (h : VmRelated opt vm vm') (hReads : ReadsAlike rename frame frame' op)
    (hPrev : frame'.prev = frame.prev) :
    VmRelated opt (touch frame (frame.readIds vm.trapCode op) vm)
      (touch frame' (frame'.readIds vm'.trapCode (mapOperands rename op)) vm') := by
  unfold Cvm.touch
  rw [readIds_mapOperands hReads hPrev, h.trapCode_eq,
    any_outside_map (readIds_sameReads hReads vm.trapCode)]
  split
  · exact h.trap 5
  · exact h

theorem execGoto_related (hName : ∀ f, (opt f).name = f.name)
    (h : FrameRelated opt rules frame frame') (hVm : VmRelated opt vm vm')
    (hOp : inst'.op = mapOperands rename inst.op) (hResult : inst'.result = inst.result)
    (hSlot : SameSlot frame.func (opt frame.func) inst.result)
    (hReads : ReadsAlike rename frame frame' inst.op) :
    OutcomeRelated opt rules (execGoto host frame inst vm) (execGoto host frame' inst' vm') := by
  have hTouched := hVm.touch hReads h.prev_eq
  unfold execGoto
  rw [hOp, hResult]
  generalize touch frame (frame.readIds vm.trapCode inst.op) vm = left at hTouched ⊢
  generalize touch frame' (frame'.readIds vm'.trapCode (mapOperands rename inst.op)) vm' = right
    at hTouched ⊢
  generalize inst.op = op at hReads ⊢
  cases op with
  | load ptr =>
    simp only [mapOperands, (hReads.reads ptr mem_cons_self).1]
    split
    · exact .done 0 (hTouched.trap 3)
    · exact h.loadNext hTouched hSlot _
  | store ptr value =>
    exact h.storeNext hTouched (hReads.reads ptr mem_cons_self).1
      (hReads.reads value (mem_cons_of_mem ptr mem_cons_self)).1
  | transfer op source =>
    have hSource := (hReads.reads source mem_cons_self).1
    cases op with
    | move =>
      obtain ⟨hKept, hMoved⟩ := hReads.move source rfl
      rw [h.func_eq] at hMoved
      have hSet := h.set hTouched hSlot (frame.reg source)
      simp only [mapOperands, hSource]
      rw [hKept]
      refine .next (hSet.1.clearMoved ?_) hSet.2
      rcases cvmRegSet_cases frame inst.result (frame.reg source) left with
        ⟨_, hWrite⟩ | ⟨regs, hWrite, _⟩ <;> rw [hWrite] <;> exact hMoved
    | copy | borrow | borrowMut =>
      simp only [mapOperands, hSource]
      exact h.setNext hTouched hSlot _
  | extract aggregate fieldIdx =>
    simp only [mapOperands, (hReads.reads aggregate mem_cons_self).1]
    split
    · exact h.setNext hTouched hSlot 0
    · exact h.loadNext hTouched hSlot _
  | getFieldPtr base fieldIndex index =>
    simp only [mapOperands, (hReads.reads base mem_cons_self).1]
    split
    · exact .done 0 (hTouched.trap 6)
    · exact h.setNext hTouched hSlot _
  | getElemPtr base index =>
    simp only [mapOperands, (hReads.reads base mem_cons_self).1,
      (hReads.reads index (mem_cons_of_mem base mem_cons_self)).1]
    exact h.setNext hTouched hSlot _
  | binary op lhs rhs =>
    simp only [mapOperands, (hReads.reads lhs mem_cons_self).1,
      (hReads.reads rhs (mem_cons_of_mem lhs mem_cons_self)).1]
    exact h.setNext hTouched hSlot _
  | unary op operand type =>
    simp only [mapOperands, (hReads.reads operand mem_cons_self).1]
    exact h.setNext hTouched hSlot _
  | phi edges =>
    obtain ⟨hOperand, hRead⟩ := hReads.phi edges rfl
    simp only [mapOperands, h.prev_eq, hOperand, hRead.1]
    exact h.setNext hTouched hSlot _
  | condbr operand _ _ | switch operand _ _ =>
    simp only [mapOperands, (hReads.reads operand mem_cons_self).1]
    exact .jump _ hTouched
  | ret value =>
    simp only [mapOperands, (hReads.reads value mem_cons_self).1]
    exact .done _ hTouched
  | call name args callee | callIndirect name args callee =>
    exact h.dispatchCall hTouched hName hSlot name (map_take_reg hReads.reads)
  | alloca | objAlloc => exact h.allocNext hTouched hSlot _ _
  | br target => exact .jump target hTouched
  | retVoid => exact .done 0 hTouched
  | unreachable => exact .done 0 (hTouched.trap 4)
  | constInt | constFloat | constBool | constString | constNull | callVirtual =>
    exact h.setNext hTouched hSlot _
  | constFunc | globalAddr | refop | structInit | insert | vec | nop | undef | suspend | debugLoc =>
    exact .next h hTouched

/-- The opcodes whose code is not the same in the two loops. -/
def loopsDiffer : MirOp → Bool
  | .load _ | .getFieldPtr .. | .getElemPtr .. | .extract .. | .callVirtual .. | .unary .. => true
  | _ => false

theorem execSwitch_eq_execGoto (h : loopsDiffer inst.op = false) :
    execSwitch host frame inst vm = execGoto host frame inst vm := by
  unfold execSwitch execGoto
  cases hOp : inst.op with
  | load | getFieldPtr | getElemPtr | extract | callVirtual | unary =>
    rw [hOp] at h
    cases h
  | transfer op source => cases op <;> rfl
  | _ => rfl

theorem loopsDiffer_mapOperands (op : MirOp) :
    loopsDiffer (mapOperands rename op) = loopsDiffer op := by
  cases op <;> rfl

theorem execSwitch_related (hName : ∀ f, (opt f).name = f.name)
    (h : FrameRelated opt rules frame frame') (hVm : VmRelated opt vm vm')
    (hOp : inst'.op = mapOperands rename inst.op) (hResult : inst'.result = inst.result)
    (hSlot : SameSlot frame.func (opt frame.func) inst.result)
    (hReads : ReadsAlike rename frame frame' inst.op) :
    OutcomeRelated opt rules (execSwitch host frame inst vm)
      (execSwitch host frame' inst' vm') := by
  cases hDiffer : loopsDiffer inst.op with
  | false =>
    have hDiffer' : loopsDiffer inst'.op = false := by rw [hOp, loopsDiffer_mapOperands, hDiffer]
    rw [execSwitch_eq_execGoto hDiffer, execSwitch_eq_execGoto hDiffer']
    exact execGoto_related hName h hVm hOp hResult hSlot hReads
  | true =>
    have hTouched := hVm.touch hReads h.prev_eq
    unfold execSwitch
    rw [hOp, hResult]
    generalize touch frame (frame.readIds vm.trapCode inst.op) vm = left at hTouched ⊢
    generalize touch frame' (frame'.readIds vm'.trapCode (mapOperands rename inst.op)) vm' = right
      at hTouched ⊢
    generalize inst.op = op at hReads hDiffer ⊢
    cases op with
    | load operand | extract operand _ =>
      simp only [mapOperands, (hReads.reads operand mem_cons_self).1]
      split
      · exact .next h hTouched
      · exact h.loadNext hTouched hSlot _
    | getFieldPtr base fieldIndex index =>
      simp only [mapOperands, (hReads.reads base mem_cons_self).1]
      exact h.setNext hTouched hSlot _
    | getElemPtr base index =>
      simp only [mapOperands, (hReads.reads base mem_cons_self).1,
        (hReads.reads index (mem_cons_of_mem base mem_cons_self)).1]
      exact h.setNext hTouched hSlot _
    | unary op operand type =>
      simp only [mapOperands, (hReads.reads operand mem_cons_self).1]
      exact h.setNext hTouched hSlot _
    | callVirtual => exact .next h hTouched
    | _ => cases hDiffer

theorem touch_inside {ids : List MirValueId} (h : ∀ id ∈ ids, frame.outside id = false) :
    touch frame ids vm = vm := by
  unfold touch
  rw [if_neg]
  rw [any_eq_true]
  rintro ⟨id, hId, hOut⟩
  exact absurd ((h id hId).symm.trans hOut) Bool.false_ne_true

section

variable (hLoop : loop = gotoLoop host ∨ loop = switchLoop host)
include hLoop

theorem exec_of_execGoto (hOp : loopsDiffer inst.op = false) :
    loop.exec frame inst vm = execGoto host frame inst vm := by
  rcases hLoop with rfl | rfl
  · rfl
  · exact execSwitch_eq_execGoto hOp

/-- A binary operation on registers of the file assigns what it computes. -/
theorem exec_binary {op : BinaryOp} {lhs rhs : MirValueId} (hOp : inst.op = .binary op lhs rhs)
    (hLhs : frame.outside lhs = false) (hRhs : frame.outside rhs = false) :
    loop.exec frame inst vm =
      setNext frame inst.result (cvmBinary host op (frame.reg lhs) (frame.reg rhs)) vm := by
  have hInside : ∀ id ∈ frame.readIds vm.trapCode (.binary op lhs rhs),
      frame.outside id = false := by
    intro id hId
    rcases mem_cons.mp (mem_gotoReads rfl hId) with hFirst | hSecond
    · rw [hFirst, hLhs]
    · rw [mem_singleton.mp hSecond, hRhs]
  rw [exec_of_execGoto hLoop (by rw [hOp]; rfl), execGoto, hOp, touch_inside hInside]

theorem exec_constInt {imm : Word} (hOp : inst.op = .constInt imm) :
    loop.exec frame inst vm = setNext frame inst.result imm vm := by
  rw [exec_of_execGoto hLoop (by rw [hOp]; rfl), execGoto, hOp]
  rfl

/-- An instruction with other names for its operands does the same in either loop. -/
theorem exec_related (hName : ∀ f, (opt f).name = f.name)
    (h : FrameRelated opt rules frame frame')
    (hVm : VmRelated opt vm vm') (hOp : inst'.op = mapOperands rename inst.op)
    (hResult : inst'.result = inst.result)
    (hSlot : SameSlot frame.func (opt frame.func) inst.result)
    (hReads : ReadsAlike rename frame frame' inst.op) :
    OutcomeRelated opt rules (loop.exec frame inst vm) (loop.exec frame' inst' vm') := by
  cases hLoop with
  | inl hGoto =>
    rw [hGoto]
    exact execGoto_related hName h hVm hOp hResult hSlot hReads
  | inr hSwitch =>
    rw [hSwitch]
    exact execSwitch_related hName h hVm hOp hResult hSlot hReads

end

end

end Casprix.Cvm
