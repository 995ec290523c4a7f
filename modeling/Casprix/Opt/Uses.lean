import Casprix.Mir.Basic

/-! What the passes of the optimiser share: finding the definition of a value, its uses,
and replacing them. The two walks over the operands are separate tables in the source and
do not cover the same opcodes. -/
namespace Casprix.Opt

open Mir

variable (func : MirFunction)

/-- `find_def`: the first instruction with this result, in list order. -/
def findDef (val : MirValueId) : Option MirInst :=
  (func.blocks.flatMap (·.insts)).find? (·.result == val)

/-- The integer constant that `find_def` sees behind an operand. -/
def constBehind (val : MirValueId) : Option Word :=
  match findDef func val with
  | some valDef =>
    match valDef.op with
    | .constInt imm => some imm
    | _ => none
  | none => none

/-- The integer constant that an instruction defines. -/
def constOf (inst : MirInst) : Option Word :=
  match inst.op with
  | .constInt imm => some imm
  | _ => none

theorem constBehind_eq (val : MirValueId) :
    constBehind func val =
      ((func.blocks.flatMap (·.insts)).find? (·.result == val)).bind constOf := by
  unfold constBehind findDef
  cases (func.blocks.flatMap (·.insts)).find? (·.result == val) with
  | none => rfl
  | some valDef => rfl

def valueUsedInInst (inst : MirInst) (val : MirValueId) : Bool :=
  match inst.op with
  | .binary _ lhs rhs => lhs == val || rhs == val
  | .unary _ operand _ => operand == val
  | .load ptr => ptr == val
  | .store ptr value => ptr == val || value == val
  | .getFieldPtr base _ index => base == val || index == val
  | .getElemPtr base index => base == val || index == val
  | .condbr cond _ _ => cond == val
  | .ret value => value == val
  | .switch discriminant _ _ => discriminant == val
  | .call _ args callee | .callIndirect _ args callee => callee == val || args.contains val
  | .callVirtual selfObj _ args => selfObj == val || args.contains val
  | .phi edges => edges.any (·.value == val)
  | .transfer _ source => source == val
  | .refop _ ptr => ptr == val
  | .structInit fields => fields.contains val
  | .extract aggregate _ => aggregate == val
  | .insert aggregate _ insertVal => aggregate == val || insertVal == val
  | .vec _ a b c _ _ => a == val || b == val || c == val
  | _ => false

/-- The number of instructions that use a value. -/
def countUses (val : MirValueId) : Nat :=
  (func.blocks.flatMap (·.insts)).countP (valueUsedInInst · val)

section

variable (oldVal newVal : MirValueId)

def replaced (id : MirValueId) : MirValueId := if id = oldVal then newVal else id

/-- The operands of `MIR_SWITCH`, `MIR_CALL_VIRTUAL`, `MIR_STRUCT_INIT`, `MIR_EXTRACT`,
`MIR_INSERT` and `MIR_SUSPEND` are left as they are. -/
def replaceValueInOp : MirOp → MirOp
  | .binary op lhs rhs => .binary op (replaced oldVal newVal lhs) (replaced oldVal newVal rhs)
  | .unary op operand type => .unary op (replaced oldVal newVal operand) type
  | .load ptr => .load (replaced oldVal newVal ptr)
  | .store ptr value => .store (replaced oldVal newVal ptr) (replaced oldVal newVal value)
  | .getFieldPtr base fieldIndex index =>
    .getFieldPtr (replaced oldVal newVal base) fieldIndex (replaced oldVal newVal index)
  | .getElemPtr base index =>
    .getElemPtr (replaced oldVal newVal base) (replaced oldVal newVal index)
  | .condbr cond trueBb falseBb => .condbr (replaced oldVal newVal cond) trueBb falseBb
  | .ret value => .ret (replaced oldVal newVal value)
  | .call name args callee =>
    .call name (args.map (replaced oldVal newVal)) (replaced oldVal newVal callee)
  | .callIndirect name args callee =>
    .callIndirect name (args.map (replaced oldVal newVal)) (replaced oldVal newVal callee)
  | .phi edges => .phi (edges.map fun e => { e with value := replaced oldVal newVal e.value })
  | .transfer op source => .transfer op (replaced oldVal newVal source)
  | .refop op ptr => .refop op (replaced oldVal newVal ptr)
  | .vec op a b c width laneType =>
    .vec op (replaced oldVal newVal a) (replaced oldVal newVal b) (replaced oldVal newVal c) width
      laneType
  | op => op

def replaceValueInInst (inst : MirInst) : MirInst :=
  { inst with op := replaceValueInOp oldVal newVal inst.op }

end

/-- Every instruction of a function is changed, where it stands. -/
def mapInsts (f : MirInst → MirInst) : MirFunction :=
  { func with blocks := func.blocks.map fun block => { block with insts := block.insts.map f } }

def replaceAllUses (oldVal newVal : MirValueId) : MirFunction :=
  mapInsts func (replaceValueInInst oldVal newVal)

end Casprix.Opt
