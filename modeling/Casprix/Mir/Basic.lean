import Mathlib.Data.List.Basic

/-! The mid-level representation: a function is a list of basic blocks, a block
is a list of instructions, and every value is named by a `MirValueId`. -/
namespace Casprix.Mir

/-- `MIR_VALUE_NONE` is `0`; real values are numbered from one. -/
abbrev MirValueId := Nat

/-- Blocks are numbered by their place in the block list, so the `id` field of
a block also serves as the block's address. -/
abbrev MirBlockId := Nat

/-- A `MirBlock*` field. `none` is the null pointer. -/
abbrev MirBlockRef := Option MirBlockId

abbrev Word := BitVec 64

inductive MirType where
  | void | bool
  | i8 | i16 | i32 | i64
  | u8 | u16 | u32 | u64
  | f32 | f64
  | ptr (pointee : MirType)
  | ref (pointee : MirType)
  | mutRef (pointee : MirType)
  | func (ret : MirType)
  | strct (name : String)
  | array (elem : MirType) (count : Nat)
  | slice (elem : MirType)
  | aggregate
  deriving DecidableEq, Repr

namespace MirType

def isInteger : MirType → Bool
  | i8 | i16 | i32 | i64 | u8 | u16 | u32 | u64 => true
  | _ => false

def isFloat : MirType → Bool
  | f32 | f64 => true
  | _ => false

end MirType

/-- The opcodes whose operands live in `as.binary`. -/
inductive BinaryOp where
  | add | sub | mul | div | mod
  | fadd | fsub | fmul | fdiv
  | band | bor | bxor | shl | shr | ushr
  | cmpEq | cmpNe | cmpLt | cmpLe | cmpGt | cmpGe
  | logicAnd | logicOr
  deriving DecidableEq, Repr

/-- The opcodes whose operand lives in `as.unary`. -/
inductive UnaryOp where
  | neg | fneg | bnot | logicNot
  | cast | bitcast | trunc | zext | sext | sitofp | fptosi
  deriving DecidableEq, Repr

/-- The opcodes whose operand lives in `as.transfer`. -/
inductive TransferOp where
  | copy | borrow | borrowMut | move
  deriving DecidableEq, Repr

/-- The opcodes whose operand lives in `as.refop`. -/
inductive RefOp where
  | arcRetain | arcRelease | drop
  deriving DecidableEq, Repr

/-- The opcodes whose operands live in `as.vec`. -/
inductive VecOp where
  | load | loadUnaligned | store | storeUnaligned | broadcast
  | add | sub | mul | div | min | max | and | or | xor
  | fma | reduceSum | dot | cmpEq | cmpLt | cmpGt | select
  deriving DecidableEq, Repr

structure MirPhiEdge where
  block : MirBlockRef
  value : MirValueId
  deriving DecidableEq, Repr

structure MirSwitchCase where
  value : Word
  target : MirBlockRef
  deriving DecidableEq, Repr

/-- An opcode together with the union member its instruction reads. The tag of
a `MirInst` decides which member of `as` is live, so the two are one value. -/
inductive MirOp where
  | constInt (imm : Word)
  | constFloat (imm : Word)
  | constBool (imm : Bool)
  | constString (imm : String)
  | constFunc (name : String)
  | constNull
  | globalAddr (name : String)
  | binary (op : BinaryOp) (lhs rhs : MirValueId)
  | unary (op : UnaryOp) (operand : MirValueId) (targetType : Option MirType)
  | alloca (allocType : Option MirType) (count : Int)
  | load (ptr : MirValueId)
  | store (ptr value : MirValueId)
  | getFieldPtr (base : MirValueId) (fieldIndex : Int) (index : MirValueId)
  | getElemPtr (base index : MirValueId)
  | br (target : MirBlockRef)
  | condbr (cond : MirValueId) (trueBb falseBb : MirBlockRef)
  | switch (discriminant : MirValueId) (cases : List MirSwitchCase) (defaultBb : MirBlockRef)
  | ret (value : MirValueId)
  | retVoid
  | unreachable
  | call (funcName : Option String) (args : List MirValueId) (callee : MirValueId)
  | callIndirect (funcName : Option String) (args : List MirValueId) (callee : MirValueId)
  | callVirtual (selfObj : MirValueId) (vtableIndex : Int) (args : List MirValueId)
  | phi (edges : List MirPhiEdge)
  | transfer (op : TransferOp) (source : MirValueId)
  | refop (op : RefOp) (ptr : MirValueId)
  | objAlloc (className : String) (size : Int)
  | structInit (fields : List MirValueId)
  | extract (aggregate : MirValueId) (fieldIdx : Int)
  | insert (aggregate : MirValueId) (fieldIdx : Int) (insertVal : MirValueId)
  | vec (op : VecOp) (a b c : MirValueId) (width : Int) (laneType : Option MirType)
  | nop
  | undef
  | suspend (resumeBb : MirBlockRef) (future : MirValueId)
  | debugLoc
  deriving DecidableEq, Repr

structure MirInst where
  op : MirOp
  result : MirValueId := 0
  type : Option MirType := none
  srcLine : Nat := 0
  srcCol : Nat := 0
  deriving DecidableEq, Repr

structure MirBlock where
  label : String := ""
  insts : List MirInst := []
  predecessors : List MirBlockId := []
  successors : List MirBlockId := []
  deriving DecidableEq, Repr

structure MirParam where
  name : String
  type : Option MirType
  valueId : MirValueId
  deriving DecidableEq, Repr

/-- `block_list` in list order. `mir_function_add_block` and the renumbering in
`mir_remove_unreachable_blocks` give the block at place `i` the id `i`, and
the first listed block is the entry block. -/
structure MirFunction where
  name : String
  returnType : Option MirType := none
  params : List MirParam := []
  blocks : List MirBlock := []
  nextValueId : Nat := 1
  valueTypes : List (Option MirType) := List.replicate 64 none
  isConstexpr : Bool := false
  isExtern : Bool := false
  deriving DecidableEq, Repr

structure MirModule where
  funcList : List MirFunction := []
  deriving DecidableEq, Repr

namespace MirOp

/-- The opcodes `mir_block_is_terminated` accepts at the end of a block. -/
def isTerminator : MirOp → Bool
  | br _ | condbr .. | switch .. | ret _ | retVoid | unreachable => true
  | _ => false

def isPhi : MirOp → Bool
  | phi _ => true
  | _ => false

/-- Every block the operation can transfer control to, null targets left out.
`MIR_SUSPEND` names a block as well, but does not end one. -/
def targets : MirOp → List MirBlockId
  | br target => target.toList
  | condbr _ trueBb falseBb => trueBb.toList ++ falseBb.toList
  | switch _ cases defaultBb => cases.filterMap (·.target) ++ defaultBb.toList
  | _ => []

/-- The values an instruction reads. The callee of a direct call is named by a
string, so `as.call.callee` counts only for an indirect one. -/
def operands : MirOp → List MirValueId
  | binary _ lhs rhs => [lhs, rhs]
  | unary _ operand _ => [operand]
  | load ptr => [ptr]
  | store ptr value => [ptr, value]
  | getFieldPtr base _ index => [base, index]
  | getElemPtr base index => [base, index]
  | condbr cond _ _ => [cond]
  | switch discriminant _ _ => [discriminant]
  | ret value => [value]
  | call _ args _ => args
  | callIndirect _ args callee => callee :: args
  | callVirtual selfObj _ args => selfObj :: args
  | phi edges => edges.map (·.value)
  | transfer _ source => [source]
  | refop _ ptr => [ptr]
  | structInit fields => fields
  | extract aggregate _ => [aggregate]
  | insert aggregate _ insertVal => [aggregate, insertVal]
  | vec _ a b c _ _ => [a, b, c]
  | suspend _ future => [future]
  | _ => []

end MirOp

namespace MirBlock

def terminator (block : MirBlock) : Option MirInst := block.insts.getLast?

/-- `mir_block_is_terminated`. -/
def isTerminated (block : MirBlock) : Bool :=
  match block.terminator with
  | some inst => inst.op.isTerminator
  | none => false

/-- The blocks named by the terminator. -/
def targets (block : MirBlock) : List MirBlockId :=
  match block.terminator with
  | some inst => inst.op.targets
  | none => []

/-- The leading PHI nodes. -/
def phis (block : MirBlock) : List MirInst := block.insts.takeWhile (·.op.isPhi)

end MirBlock

namespace MirFunction

def block? (func : MirFunction) (b : MirBlockId) : Option MirBlock := func.blocks[b]?

/-- The instructions of block `b`; a number outside the list names no block. -/
def insts (func : MirFunction) (b : MirBlockId) : List MirInst :=
  ((func.block? b).map MirBlock.insts).getD []

def predecessors (func : MirFunction) (b : MirBlockId) : List MirBlockId :=
  ((func.block? b).map MirBlock.predecessors).getD []

def successors (func : MirFunction) (b : MirBlockId) : List MirBlockId :=
  ((func.block? b).map MirBlock.successors).getD []

/-- `mir_function_value_type`. -/
def valueType (func : MirFunction) (id : MirValueId) : Option MirType :=
  if id = 0 then none else (func.valueTypes[id]?).getD none

/-- The edge lists agree with the terminators and with each other, and no
terminator or edge leaves the block list. -/
structure CfgConsistent (func : MirFunction) : Prop where
  successors_iff : ∀ a block, func.block? a = some block →
    ∀ b, b ∈ block.successors ↔ b ∈ block.targets
  predecessors_iff : ∀ a b, a ∈ func.predecessors b ↔ b ∈ func.successors a
  listed : ∀ a b, b ∈ func.successors a → b < func.blocks.length

end MirFunction

/-- `mir_module_find_function`: the first function of that name. -/
def MirModule.findFunction (module : MirModule) (name : String) : Option MirFunction :=
  module.funcList.find? (·.name == name)

end Casprix.Mir
