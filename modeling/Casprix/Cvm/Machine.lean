import Casprix.Library.Machine
import Casprix.Mir.Basic

/-! The register machine that interprets a module: its state, and the two
loops it is built with, on computed gotos or on a switch. -/
namespace Casprix.Cvm

open Mir List Function

/-- A 64-bit slot; a double is stored as its bits. -/
abbrev CvmReg := Word

/-- What the machine takes from its host: the memory with its allocator, the
addresses of string literals, and the floating-point unit. Reading or writing
outside the memory has no result. -/
structure CvmHost (Heap : Type) where
  calloc : Heap → Nat → Option (CvmReg × Heap)
  free : Heap → List CvmReg → Heap
  read : Heap → CvmReg → Option Word
  write : Heap → CvmReg → Word → Option Heap
  literal : String → CvmReg
  fadd : Word → Word → Word
  fsub : Word → Word → Word
  fmul : Word → Word → Word
  fdiv : Word → Word → Word
  fneg : Word → Word
  sitofp : Word → Word
  fptosi : Word → Word

/-- What a run does that others can see. -/
inductive CvmEvent where
  | call (name : Option String) (args : List CvmReg)
  | store (address value : CvmReg)
  deriving DecidableEq, Repr

/-- The fields of the machine that execution reads and writes, without a
compiler attached. `events` records what was done, latest last. -/
structure CvmState (Heap : Type) where
  module : MirModule
  heap : Heap
  trapCode : Nat := 0
  instExecuted : Nat := 0
  events : List CvmEvent := []

/-- A call frame. A slot of the register file that was not written since its
allocation is `none` and reads as zero. `rest` is what is left of `block`. -/
structure CvmFrame where
  func : MirFunction
  regs : MirValueId → Option CvmReg
  allocas : List CvmReg := []
  block : MirBlockRef
  prev : MirBlockRef := none
  rest : List MirInst
  resultId : MirValueId := 0

def cvmMaxRegs : Nat := 4096

def cvmMaxCallDepth : Nat := 512

/-- The size of a function's register file. -/
def cvmRegCount (func : MirFunction) : Nat := min (max func.nextValueId 1) cvmMaxRegs

namespace CvmFrame

/-- The value `cvm_reg_get` returns. -/
def reg (frame : CvmFrame) (id : MirValueId) : CvmReg :=
  if id = 0 ∨ cvmRegCount frame.func ≤ id then 0 else (frame.regs id).getD 0

def outside (frame : CvmFrame) (id : MirValueId) : Bool :=
  id != 0 && cvmRegCount frame.func ≤ id

/-- Enters a block at its first instruction. -/
def enter (frame : CvmFrame) (target : MirBlockRef) : CvmFrame :=
  { frame with
    prev := frame.block
    block := target
    rest := (target.map frame.func.insts).getD [] }

/-- Before an instruction: what is left of the block after it, and where its
result goes. -/
def fetch (frame : CvmFrame) (inst : MirInst) (rest : List MirInst) : CvmFrame :=
  { frame with rest := rest, resultId := inst.result }

/-- The next block in the list. -/
def nextBlock (frame : CvmFrame) : MirBlockRef :=
  match frame.block with
  | some b => if b + 1 < frame.func.blocks.length then some (b + 1) else none
  | none => none

end CvmFrame

section

variable {Heap : Type}

def CvmState.trap (vm : CvmState Heap) (code : Nat) : CvmState Heap := { vm with trapCode := code }

/-- One more instruction executed. -/
def CvmState.tick (vm : CvmState Heap) : CvmState Heap :=
  { vm with instExecuted := vm.instExecuted + 1 }

def CvmState.record (vm : CvmState Heap) (event : CvmEvent) : CvmState Heap :=
  { vm with events := vm.events ++ [event] }

/-- The effect of reading registers: an id outside the register file traps. -/
def touch (frame : CvmFrame) (ids : List MirValueId) (vm : CvmState Heap) : CvmState Heap :=
  if ids.any frame.outside then vm.trap 5 else vm

def cvmRegSet (frame : CvmFrame) (id : MirValueId) (value : CvmReg) (vm : CvmState Heap) :
    CvmFrame × CvmState Heap :=
  if id = 0 then (frame, vm)
  else if cvmRegCount frame.func ≤ id then (frame, vm.trap 5)
  else ({ frame with regs := update frame.regs id (some value) }, vm)

section

variable {frame : CvmFrame} {id : MirValueId} {v : CvmReg} {vm : CvmState Heap}

variable (frame id v) in
theorem reg_update (other : MirValueId) :
    ({ frame with regs := update frame.regs id (some v) } : CvmFrame).reg other =
      if other = id ∧ id ≠ 0 ∧ id < cvmRegCount frame.func then v else frame.reg other := by
  unfold CvmFrame.reg
  by_cases hEq : other = id
  · subst hEq
    by_cases hOut : other = 0 ∨ cvmRegCount frame.func ≤ other
    · have hNot : ¬ (other ≠ 0 ∧ other < cvmRegCount frame.func) := by
        rintro ⟨hNe, hLt⟩
        exact hOut.elim hNe (Nat.not_le_of_lt hLt)
      simp [hOut, hNot]
    · rw [not_or] at hOut
      have hLt := Nat.lt_of_not_le hOut.2
      simp [hOut.1, hLt, Nat.not_le_of_lt hLt]
  · simp [hEq]

variable (frame id v vm) in
/-- What assigning a register does: it traps outside the file, and otherwise
writes this register alone. -/
theorem cvmRegSet_cases :
    (frame.outside id = true ∧ cvmRegSet frame id v vm = (frame, vm.trap 5)) ∨
      ∃ regs, cvmRegSet frame id v vm = ({ frame with regs := regs }, vm) ∧
        ({ frame with regs := regs } : CvmFrame).reg =
          if id = 0 then frame.reg else update frame.reg id v := by
  unfold cvmRegSet CvmFrame.outside
  split
  · next hZero => exact .inr ⟨frame.regs, rfl, rfl⟩
  · next hNe =>
      split
      · next hOut => exact .inl ⟨by simp [hNe, hOut], rfl⟩
      · next hIn =>
          refine .inr ⟨_, rfl, ?_⟩
          funext other
          rw [reg_update]
          simp [update_apply, hNe, Nat.lt_of_not_le hIn]

end

end

def intMin : Word := BitVec.intMin 64

def cvmSafeDivI64 (lhs rhs : CvmReg) : CvmReg :=
  if rhs = 0 then 0
  else if lhs = intMin ∧ rhs = -1 then intMin
  else lhs.sdiv rhs

def cvmSafeModI64 (lhs rhs : CvmReg) : CvmReg :=
  if rhs = 0 then 0
  else if lhs = intMin ∧ rhs = -1 then 0
  else lhs.srem rhs

def flag (b : Bool) : CvmReg := if b then 1 else 0

section

variable {Heap : Type} (host : CvmHost Heap)

/-- The expression both loops assign for a binary opcode. -/
def cvmBinary (op : BinaryOp) (l r : CvmReg) : CvmReg :=
  match op with
  | .add => l + r
  | .sub => l - r
  | .mul => l * r
  | .div => cvmSafeDivI64 l r
  | .mod => cvmSafeModI64 l r
  | .fadd => host.fadd l r
  | .fsub => host.fsub l r
  | .fmul => host.fmul l r
  | .fdiv => host.fdiv l r
  | .band => l &&& r
  | .bor => l ||| r
  | .bxor => l ^^^ r
  | .shl => l <<< (r &&& 63).toNat
  | .shr => l.sshiftRight (r &&& 63).toNat
  | .ushr => l >>> (r &&& 63).toNat
  | .cmpEq => flag (l == r)
  | .cmpNe => flag (l != r)
  | .cmpLt => flag (l.slt r)
  | .cmpLe => flag (l.sle r)
  | .cmpGt => flag (r.slt l)
  | .cmpGe => flag (r.sle l)
  | .logicAnd => flag (l != 0 && r != 0)
  | .logicOr => flag (l != 0 || r != 0)

/-- Unary opcodes on computed gotos. -/
def gotoUnary (op : UnaryOp) (target : Option MirType) (x : CvmReg) : CvmReg :=
  match op with
  | .neg => -x
  | .fneg => host.fneg x
  | .bnot => ~~~x
  | .logicNot => flag (x == 0)
  | .cast =>
    match target with
    | some .f64 | some .f32 => host.sitofp x
    | _ => x
  | .bitcast => x
  | .trunc => x &&& 0xFFFFFFFF
  | .zext => x
  | .sext => (x.setWidth 32).signExtend 64
  | .sitofp => host.sitofp x
  | .fptosi => host.fptosi x

/-- Unary opcodes on a switch. -/
def switchUnary (op : UnaryOp) (x : CvmReg) : CvmReg :=
  match op with
  | .neg => -x
  | .fneg => host.fneg x
  | .bnot => ~~~x
  | .logicNot => flag (x == 0)
  | .cast | .bitcast | .zext | .sext => x
  | .trunc => x &&& 0xFFFFFFFF
  | .sitofp => host.sitofp x
  | .fptosi => host.fptosi x

/-- The operand a PHI reads when the machine came from `prev`: that of the
first edge for this block, else the first that is not `MIR_VALUE_NONE`. -/
def phiOperand (edges : List MirPhiEdge) (prev : MirBlockRef) : MirValueId :=
  match edges.find? (·.block == prev) with
  | some edge => edge.value
  | none => ((edges.find? (·.value != 0)).map (·.value)).getD 0

/-- The registers an instruction reads. The second operand of a logical
opcode, the value of a store to null and the arguments of a call made after a
trap are not read, and a call reads 64 arguments at most. -/
def CvmFrame.readIds (frame : CvmFrame) (trapCode : Nat) (op : MirOp) : List MirValueId :=
  match op with
  | .binary .logicAnd lhs rhs => if frame.reg lhs = 0 then [lhs] else [lhs, rhs]
  | .binary .logicOr lhs rhs => if frame.reg lhs = 0 then [lhs, rhs] else [lhs]
  | .binary _ lhs rhs => [lhs, rhs]
  | .unary _ operand _ => [operand]
  | .load ptr => [ptr]
  | .store ptr value => if frame.reg ptr = 0 then [ptr] else [ptr, value]
  | .getFieldPtr base _ _ => [base]
  | .getElemPtr base index => [base, index]
  | .condbr cond _ _ => [cond]
  | .switch discriminant _ _ => [discriminant]
  | .ret value => [value]
  | .call _ args _ | .callIndirect _ args _ => if trapCode = 0 then args.take 64 else []
  | .phi edges => [phiOperand edges frame.prev]
  | .transfer _ source => [source]
  | .extract aggregate _ => [aggregate]
  | _ => []

/-- How an instruction leaves the loop body. -/
inductive CvmOutcome (Heap : Type) where
  | next (frame : CvmFrame) (vm : CvmState Heap)
  | jump (target : MirBlockRef) (vm : CvmState Heap)
  | done (value : CvmReg) (vm : CvmState Heap)
  | enter (callee : MirFunction) (args : List CvmReg) (vm : CvmState Heap)
  | crash

/-- Assigns a register and goes on. -/
def setNext (frame : CvmFrame) (id : MirValueId) (value : CvmReg) (vm : CvmState Heap) :
    CvmOutcome Heap :=
  let written := cvmRegSet frame id value vm
  .next written.1 written.2

/-- The names of the host intrinsics. -/
def cvmIntrinsics : List String :=
  ["nuwan_print_int", "nuwan_print_float", "nuwan_print_bool", "nuwan_print_str"]

/-- A call once its arguments are read: nothing after a trap, else an
intrinsic, else the function of that name in the module. An unresolved name
returns zero; a null name is compared with the functions there are. -/
def cvmDispatchCall (frame : CvmFrame) (result : MirValueId) (name : Option String)
    (args : List MirValueId) (vm : CvmState Heap) : CvmOutcome Heap :=
  if vm.trapCode ≠ 0 then setNext frame result 0 vm
  else
    let values := (args.take 64).map frame.reg
    let vm := vm.record (.call name values)
    match name with
    | some name =>
      if name ∈ cvmIntrinsics then setNext frame result 0 vm
      else
        match vm.module.findFunction name with
        | some callee => .enter callee values vm
        | none => setNext frame result 0 vm
    | none => if vm.module.funcList = [] then setNext frame result 0 vm else .crash

/-- Where a switch goes. -/
def switchTarget (cases : List MirSwitchCase) (defaultBb : MirBlockRef) (disc : CvmReg) :
    MirBlockRef :=
  match cases.find? (·.value == disc) with
  | some c => c.target
  | none => defaultBb

/-- The source of a move is zeroed. -/
def clearMoved (frame : CvmFrame) (source : MirValueId) : CvmFrame :=
  if source = 0 ∨ cvmRegCount frame.func ≤ source then frame
  else { frame with regs := update frame.regs source (some 0) }

/-- A zeroed allocation of `bytes`, assigned to a register. -/
def allocNext (frame : CvmFrame) (id : MirValueId) (bytes : Nat) (tracked : Bool)
    (vm : CvmState Heap) : CvmOutcome Heap :=
  match host.calloc vm.heap bytes with
  | some (mem, heap) =>
    let frame := if tracked then { frame with allocas := frame.allocas ++ [mem] } else frame
    setNext frame id mem { vm with heap := heap }
  | none => .done 0 (vm.trap 1)

/-- The bytes an object takes. -/
def objectBytes (size : Int) : Nat := max (if 0 < size then size.toNat else 64) 16

def storeNext (frame : CvmFrame) (ptr value : MirValueId) (vm : CvmState Heap) : CvmOutcome Heap :=
  if frame.reg ptr = 0 then .next frame vm
  else
    match host.write vm.heap (frame.reg ptr) (frame.reg value) with
    | some heap =>
      .next frame ({ vm with heap := heap }.record (.store (frame.reg ptr) (frame.reg value)))
    | none => .crash

def loadNext (frame : CvmFrame) (id : MirValueId) (address : CvmReg) (vm : CvmState Heap) :
    CvmOutcome Heap :=
  match host.read vm.heap address with
  | some value => setNext frame id value vm
  | none => .crash

/-- An instruction on computed gotos. -/
def execGoto (frame : CvmFrame) (inst : MirInst) (vm : CvmState Heap) : CvmOutcome Heap :=
  let vm := touch frame (frame.readIds vm.trapCode inst.op) vm
  match inst.op with
  | .constInt imm => setNext frame inst.result imm vm
  | .constFloat imm => setNext frame inst.result imm vm
  | .constBool imm => setNext frame inst.result (flag imm) vm
  | .constString imm => setNext frame inst.result (host.literal imm) vm
  | .constNull => setNext frame inst.result 0 vm
  | .binary op lhs rhs =>
    setNext frame inst.result (cvmBinary host op (frame.reg lhs) (frame.reg rhs)) vm
  | .unary op operand target =>
    setNext frame inst.result (gotoUnary host op target (frame.reg operand)) vm
  | .alloca _ count =>
    allocNext host frame inst.result ((if 0 < count then count.toNat else 1) * 8) true vm
  | .load ptr =>
    if frame.reg ptr = 0 then .done 0 (vm.trap 3)
    else loadNext host frame inst.result (frame.reg ptr) vm
  | .store ptr value => storeNext host frame ptr value vm
  | .objAlloc _ size => allocNext host frame inst.result (objectBytes size) false vm
  | .getFieldPtr base fieldIndex _ =>
    if fieldIndex < 0 then .done 0 (vm.trap 6)
    else setNext frame inst.result (frame.reg base + BitVec.ofNat 64 (fieldIndex.toNat * 8)) vm
  | .getElemPtr base index =>
    setNext frame inst.result (frame.reg base + frame.reg index * 8) vm
  | .br target => .jump target vm
  | .condbr cond trueBb falseBb => .jump (if frame.reg cond = 0 then falseBb else trueBb) vm
  | .switch discriminant cases defaultBb =>
    .jump (switchTarget cases defaultBb (frame.reg discriminant)) vm
  | .ret value => .done (frame.reg value) vm
  | .retVoid => .done 0 vm
  | .unreachable => .done 0 (vm.trap 4)
  | .call name args _ => cvmDispatchCall frame inst.result name args vm
  | .callIndirect name args _ => cvmDispatchCall frame inst.result name args vm
  | .callVirtual .. => setNext frame inst.result 0 vm
  | .phi edges => setNext frame inst.result (frame.reg (phiOperand edges frame.prev)) vm
  | .transfer .move source =>
    let written := cvmRegSet frame inst.result (frame.reg source) vm
    .next (clearMoved written.1 source) written.2
  | .transfer _ source => setNext frame inst.result (frame.reg source) vm
  | .extract aggregate fieldIdx =>
    if frame.reg aggregate = 0 then setNext frame inst.result 0 vm
    else
      loadNext host frame inst.result (frame.reg aggregate + BitVec.ofInt 64 (fieldIdx * 8)) vm
  | .constFunc _ | .globalAddr _ | .refop .. | .structInit _ | .insert .. | .vec .. | .nop
  | .undef | .suspend .. | .debugLoc => .next frame vm

/-- An instruction in the switch loop. -/
def execSwitch (frame : CvmFrame) (inst : MirInst) (vm : CvmState Heap) : CvmOutcome Heap :=
  let vm := touch frame (frame.readIds vm.trapCode inst.op) vm
  match inst.op with
  | .constInt imm => setNext frame inst.result imm vm
  | .constFloat imm => setNext frame inst.result imm vm
  | .constBool imm => setNext frame inst.result (flag imm) vm
  | .constString imm => setNext frame inst.result (host.literal imm) vm
  | .constNull => setNext frame inst.result 0 vm
  | .binary op lhs rhs =>
    setNext frame inst.result (cvmBinary host op (frame.reg lhs) (frame.reg rhs)) vm
  | .unary op operand _ => setNext frame inst.result (switchUnary host op (frame.reg operand)) vm
  | .alloca _ count =>
    allocNext host frame inst.result ((if 0 < count then count.toNat else 1) * 8) true vm
  | .objAlloc _ size => allocNext host frame inst.result (objectBytes size) false vm
  | .load ptr =>
    if frame.reg ptr = 0 then .next frame vm
    else loadNext host frame inst.result (frame.reg ptr) vm
  | .store ptr value => storeNext host frame ptr value vm
  | .getFieldPtr base fieldIndex _ =>
    setNext frame inst.result (frame.reg base + BitVec.ofInt 64 (fieldIndex * 8)) vm
  | .getElemPtr base index =>
    setNext frame inst.result (frame.reg base + BitVec.ofInt 64 ((frame.reg index).toInt * 8)) vm
  | .transfer .move source =>
    let written := cvmRegSet frame inst.result (frame.reg source) vm
    .next (clearMoved written.1 source) written.2
  | .transfer _ source => setNext frame inst.result (frame.reg source) vm
  | .extract aggregate fieldIdx =>
    if frame.reg aggregate = 0 then .next frame vm
    else
      loadNext host frame inst.result (frame.reg aggregate + BitVec.ofInt 64 (fieldIdx * 8)) vm
  | .call name args _ | .callIndirect name args _ =>
    cvmDispatchCall frame inst.result name args vm
  | .phi edges => setNext frame inst.result (frame.reg (phiOperand edges frame.prev)) vm
  | .br target => .jump target vm
  | .condbr cond trueBb falseBb => .jump (if frame.reg cond = 0 then falseBb else trueBb) vm
  | .switch discriminant cases defaultBb =>
    .jump (switchTarget cases defaultBb (frame.reg discriminant)) vm
  | .ret value => .done (frame.reg value) vm
  | .retVoid => .done 0 vm
  | .unreachable => .done 0 (vm.trap 4)
  | _ => .next frame vm

/-- The opcodes whose instruction assigns its result, if the call goes on. -/
def gotoAssigns : MirOp → Bool
  | .constInt _ | .constFloat _ | .constBool _ | .constString _ | .constNull => true
  | .binary .. | .unary .. | .alloca .. | .load _ | .objAlloc .. => true
  | .getFieldPtr .. | .getElemPtr .. | .phi _ | .transfer .. | .extract .. => true
  | .call .. | .callIndirect .. | .callVirtual .. => true
  | _ => false

/-- The register a branch looks at. -/
def branchReads : MirOp → List MirValueId
  | .condbr cond _ _ => [cond]
  | .switch discriminant _ _ => [discriminant]
  | _ => []

/-- The name and the arguments of a call. -/
def calledWith : MirOp → Option (Option String × List MirValueId)
  | .call name args _ | .callIndirect name args _ => some (name, args)
  | _ => none

/-- What an instruction can do, apart from the values. `idle` tells whether a result may be
left out. -/
inductive Effect (idle : Prop) (frame : CvmFrame) (inst : MirInst) (vm : CvmState Heap) :
    CvmOutcome Heap → Prop
  | set (allocas : List CvmReg) (value : CvmReg) (vm' : CvmState Heap)
      (hTerm : inst.op.isTerminator = false) :
      Effect idle frame inst vm (setNext { frame with allocas := allocas } inst.result value vm')
  | keep (vm' : CvmState Heap) (hTerm : inst.op.isTerminator = false)
      (hIdle : gotoAssigns inst.op = true → idle) : Effect idle frame inst vm (.next frame vm')
  | move (source : MirValueId) (vm' : CvmState Heap) (hOp : inst.op = .transfer .move source) :
      Effect idle frame inst vm
        (.next (clearMoved (cvmRegSet frame inst.result (frame.reg source) vm').1 source)
          (cvmRegSet frame inst.result (frame.reg source) vm').2)
  | jump (target : MirBlockRef) (vm' : CvmState Heap)
    (hVm : vm' = touch frame (branchReads inst.op) vm)
      (hTarget : ∀ b, target = some b → b ∈ inst.op.targets) :
      Effect idle frame inst vm (.jump target vm')
  | enter {name : Option String} {ids : List MirValueId} {callee : MirFunction}
      {args : List CvmReg} {vm' : CvmState Heap} (hCall : calledWith inst.op = some (name, ids))
      (hEnter : cvmDispatchCall frame inst.result name ids
        (touch frame (if vm.trapCode = 0 then ids.take 64 else []) vm) = .enter callee args vm') :
      Effect idle frame inst vm (.enter callee args vm')
  | done (value : CvmReg) (vm' : CvmState Heap) : Effect idle frame inst vm (.done value vm')
  | crash : Effect idle frame inst vm .crash

section

variable {idle : Prop} {frame : CvmFrame} {inst : MirInst} {vm vm' : CvmState Heap} {v : CvmReg}

section

variable (hTerm : inst.op.isTerminator = false)
include hTerm

theorem effect_setNext :
    Effect idle frame inst vm (setNext frame inst.result v vm') :=
  .set frame.allocas v vm' hTerm

theorem effect_loadNext :
    Effect idle frame inst vm (loadNext host frame inst.result v vm') := by
  unfold loadNext
  split
  · exact effect_setNext hTerm
  · exact .crash

theorem effect_allocNext {bytes : Nat} {tracked : Bool} :
    Effect idle frame inst vm (allocNext host frame inst.result bytes tracked vm') := by
  unfold allocNext
  split
  · cases tracked with
    | false => exact effect_setNext hTerm
    | true => exact .set _ _ _ hTerm
  · exact .done 0 _

end

theorem effect_storeNext {ptr value : MirValueId} (hOp : inst.op = .store ptr value) :
    Effect idle frame inst vm (storeNext host frame ptr value vm') := by
  have hKept : ∀ vm' : CvmState Heap, Effect idle frame inst vm (.next frame vm') := fun vm' =>
    .keep vm' (by rw [hOp]; rfl) fun hAssigns => by rw [hOp] at hAssigns; cases hAssigns
  unfold storeNext
  split
  · exact hKept vm'
  · split
    · exact hKept _
    · exact .crash

theorem cvmDispatchCall_cases (frame : CvmFrame) (id : MirValueId) (name : Option String)
    (ids : List MirValueId) (vm : CvmState Heap) :
    (∃ vm', cvmDispatchCall frame id name ids vm = setNext frame id 0 vm') ∨
      cvmDispatchCall frame id name ids vm = .crash ∨
      vm.trapCode = 0 ∧ ∃ called callee, name = some called ∧ called ∉ cvmIntrinsics ∧
        vm.module.findFunction called = some callee ∧
        cvmDispatchCall frame id name ids vm =
          .enter callee ((ids.take 64).map frame.reg)
            (vm.record (.call name ((ids.take 64).map frame.reg))) := by
  by_cases hTrap : vm.trapCode ≠ 0
  · exact .inl ⟨vm, if_pos hTrap⟩
  rw [cvmDispatchCall, if_neg hTrap]
  cases name with
  | none =>
    dsimp only
    split
    · exact .inl ⟨_, rfl⟩
    · exact .inr (.inl rfl)
  | some called =>
    dsimp only
    split
    · exact .inl ⟨_, rfl⟩
    · next hOwn =>
        split
        · next callee hFind =>
            exact .inr (.inr ⟨not_not.mp hTrap, called, callee, rfl, hOwn, hFind, rfl⟩)
        · exact .inl ⟨_, rfl⟩

theorem effect_cvmDispatchCall {name : Option String} {ids : List MirValueId}
    (hCall : calledWith inst.op = some (name, ids)) (hTerm : inst.op.isTerminator = false) :
    Effect idle frame inst vm (cvmDispatchCall frame inst.result name ids
      (touch frame (if vm.trapCode = 0 then ids.take 64 else []) vm)) := by
  rcases cvmDispatchCall_cases frame inst.result name ids
    (touch frame (if vm.trapCode = 0 then ids.take 64 else []) vm) with
    ⟨vm', hSet⟩ | hCrash | ⟨-, called, callee, -, -, -, hEnter⟩
  · rw [hSet]
    exact effect_setNext hTerm
  · rw [hCrash]
    exact .crash
  · rw [hEnter]
    exact .enter hCall hEnter

theorem switchTarget_mem {cases : List MirSwitchCase} {defaultBb : MirBlockRef} {disc : CvmReg}
    {b : MirBlockId} (h : switchTarget cases defaultBb disc = some b) :
    b ∈ cases.filterMap (·.target) ++ defaultBb.toList := by
  unfold switchTarget at h
  split at h
  · next c hFound =>
      exact mem_append_left _ (mem_filterMap.mpr ⟨c, mem_of_find?_eq_some hFound, h⟩)
  · exact mem_append_right _ (Option.mem_toList.mpr h)

variable (frame inst vm) in
theorem execGoto_effect : Effect idle frame inst vm (execGoto host frame inst vm) := by
  unfold execGoto
  cases hOp : inst.op with
  | br target =>
    exact .jump target _ (by rw [hOp]; rfl) fun b hTarget => by
      rw [hOp, MirOp.targets]
      exact Option.mem_toList.mpr hTarget
  | condbr cond trueBb falseBb =>
    refine .jump _ _ (by rw [hOp]; rfl) fun b hTarget => ?_
    rw [hOp, MirOp.targets]
    split at hTarget
    · exact mem_append_right _ (Option.mem_toList.mpr hTarget)
    · exact mem_append_left _ (Option.mem_toList.mpr hTarget)
  | switch discriminant cases defaultBb =>
    exact .jump _ _ (by rw [hOp]; rfl) fun b hTarget => by
      rw [hOp, MirOp.targets]
      exact switchTarget_mem hTarget
  | ret | retVoid | unreachable => exact .done _ _
  | constInt | constFloat | constBool | constString | constNull | binary | unary | getElemPtr
  | callVirtual | phi => exact effect_setNext (by rw [hOp]; rfl)
  | alloca | objAlloc => exact effect_allocNext host (by rw [hOp]; rfl)
  | call | callIndirect => exact effect_cvmDispatchCall (by rw [hOp]; rfl) (by rw [hOp]; rfl)
  | load ptr =>
    dsimp only
    split
    · exact .done 0 _
    · exact effect_loadNext host (by rw [hOp]; rfl)
  | getFieldPtr base fieldIndex _ =>
    dsimp only
    split
    · exact .done 0 _
    · exact effect_setNext (by rw [hOp]; rfl)
  | extract aggregate fieldIdx =>
    dsimp only
    split
    · exact effect_setNext (by rw [hOp]; rfl)
    · exact effect_loadNext host (by rw [hOp]; rfl)
  | store ptr value => exact effect_storeNext host hOp
  | transfer op source =>
    cases op with
    | copy | borrow | borrowMut => exact effect_setNext (by rw [hOp]; rfl)
    | move => exact .move source _ hOp
  | constFunc | globalAddr | refop | structInit | insert | vec | nop | undef | suspend | debugLoc =>
    exact .keep _ (by rw [hOp]; rfl) fun hAssigns => by rw [hOp] at hAssigns; cases hAssigns

end

/-- The running frames, innermost first, or the end of the outermost call. -/
inductive CvmConfig (Heap : Type) where
  | running (frame : CvmFrame) (callers : List CvmFrame) (vm : CvmState Heap)
  | returned (value : CvmReg) (vm : CvmState Heap)
  | crashed

/-- A dispatch loop: its instructions, and whether it gets past the look at
the first instruction of a function. -/
structure CvmLoop (Heap : Type) where
  exec : CvmFrame → MirInst → CvmState Heap → CvmOutcome Heap
  entryOk : MirFunction → Bool

/-- Computed gotos, on instructions that carry the label of their opcode. The
look for a label needs the entry block and its first instruction. -/
def gotoLoop : CvmLoop Heap where
  exec := execGoto host
  entryOk func := !(func.insts 0).isEmpty

def switchLoop : CvmLoop Heap where
  exec := execSwitch host
  entryOk _ := true

/-- A value is returned to the frame that waits for it, which goes on unless
there is a trap. -/
def resume : List CvmFrame → CvmState Heap → CvmReg → CvmConfig Heap
  | [], vm, value => .returned value vm
  | frame :: callers, vm, value =>
    let written := cvmRegSet frame frame.resultId value vm
    if written.2.trapCode ≠ 0 then
      resume callers { written.2 with heap := host.free written.2.heap frame.allocas } 0
    else .running written.1 callers written.2

/-- The frame is popped and its allocations are freed. -/
def leave (frame : CvmFrame) (callers : List CvmFrame) (vm : CvmState Heap) (value : CvmReg) :
    CvmConfig Heap :=
  resume host callers { vm with heap := host.free vm.heap frame.allocas } value

/-- The register file of a call: the parameters hold the arguments. -/
def startRegs (func : MirFunction) (args : List CvmReg) : MirValueId → Option CvmReg :=
  (func.params.zip args).foldl
    (fun regs p =>
      if p.1.valueId = 0 ∨ cvmRegCount func ≤ p.1.valueId then regs
      else update regs p.1.valueId (some p.2))
    fun _ => none

/-- The frame of a call, before the first instruction. -/
def startFrame (func : MirFunction) (args : List CvmReg) : CvmFrame where
  func := func
  regs := startRegs func args
  block := if func.blocks = [] then none else some 0
  rest := func.insts 0

variable (dispatch : CvmLoop Heap)

/-- The start of `cvm_exec_function` on top of the frames of its callers. -/
def cvmExecFunction (callers : List CvmFrame) (vm : CvmState Heap) (func : MirFunction)
    (args : List CvmReg) : CvmConfig Heap :=
  if cvmMaxCallDepth < callers.length + 1 then resume host callers (vm.trap 2) 0
  else if dispatch.entryOk func then .running (startFrame func args) callers vm
  else .crashed

/-- What follows an instruction of the innermost frame. The trap code is
looked at before the next instruction of the block, not on the way to another. -/
def settle (frame : CvmFrame) (callers : List CvmFrame) : CvmOutcome Heap → CvmConfig Heap
  | .next frame vm =>
    if vm.trapCode ≠ 0 then leave host frame callers vm 0 else .running frame callers vm
  | .jump target vm => .running (frame.enter target) callers vm
  | .done value vm => leave host frame callers vm value
  | .enter callee args vm => cvmExecFunction host dispatch (frame :: callers) vm callee args
  | .crash => .crashed

/-- One step: a block is left at its end, or one instruction is executed. -/
def step : CvmConfig Heap → Option (CvmConfig Heap)
  | .running frame callers vm =>
    match frame.block, frame.rest with
    | none, _ => some (leave host frame callers vm 0)
    | some _, [] => some (.running (frame.enter frame.nextBlock) callers vm)
    | some _, inst :: rest =>
      let frame := frame.fetch inst rest
      some (settle host dispatch frame callers (dispatch.exec frame inst vm.tick))
  | _ => none

theorem resume_of_trap {callers : List CvmFrame} {vm : CvmState Heap} {value : CvmReg}
    (h : vm.trapCode ≠ 0) :
    ∃ v vm', resume host callers vm value = .returned v vm' ∧ vm'.trapCode ≠ 0 := by
  induction callers generalizing vm value with
  | nil => exact ⟨value, vm, rfl, h⟩
  | cons frame callers ih =>
    have hKept : (cvmRegSet frame frame.resultId value vm).2.trapCode ≠ 0 := by
      rcases cvmRegSet_cases frame frame.resultId value vm with ⟨_, hSet⟩ | ⟨regs, hSet, _⟩
      · rw [hSet]
        exact Nat.succ_ne_zero 4
      · rwa [hSet]
    rw [resume, if_pos hKept]
    exact ih hKept

theorem leave_of_trap {frame : CvmFrame} {callers : List CvmFrame} {vm : CvmState Heap}
    {value : CvmReg} (h : vm.trapCode ≠ 0) :
    ∃ v vm', leave host frame callers vm value = .returned v vm' ∧ vm'.trapCode ≠ 0 :=
  resume_of_trap host h

end

/-- The value and the trap code of a call that is over. -/
def CvmConfig.result {Heap : Type} : CvmConfig Heap → Option (CvmReg × Nat)
  | .returned value vm => some (value, vm.trapCode)
  | _ => none

/-- A host whose memory is a list of words from address 8 on and is never
reused. It has no floating-point unit. -/
def wordHost : CvmHost (List Word) where
  calloc heap bytes :=
    some (BitVec.ofNat 64 (8 * (heap.length + 1)), heap ++ List.replicate ((bytes + 7) / 8) 0)
  free heap _ := heap
  read heap address := if address.toNat % 8 = 0 then heap[address.toNat / 8 - 1]? else none
  write heap address value :=
    if address.toNat % 8 = 0 ∧ address.toNat / 8 - 1 < heap.length then
      some (heap.set (address.toNat / 8 - 1) value)
    else none
  literal _ := 0
  fadd l _ := l
  fsub l _ := l
  fmul l _ := l
  fdiv l _ := l
  fneg x := x
  sitofp x := x
  fptosi x := x

/-- A machine on this host, before its first call. -/
def wordVm (module : MirModule) : CvmState (List Word) := { module := module, heap := [] }

end Casprix.Cvm
