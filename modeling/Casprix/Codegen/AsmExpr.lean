import Casprix.Codegen.X86
import Casprix.Frontend.Ast

/-! The code the native backend emits for scalar expressions, and what these
expressions mean in the source. -/
namespace Casprix.Codegen

open Frontend

/-- What the generator knows of a name, and the type the analyzer has given an
expression, which the generator does not look at here. A local variable has an
offset below the frame pointer, and no offset is zero. -/
structure Symbols where
  isFunction : String → Bool
  isExtern : String → Bool
  findLocal : String → Nat
  dataType : Expr → DataType

def functionLabel (symbols : Symbols) (name : String) : String :=
  if symbols.isExtern name then name else "__casprix_" ++ name

/-- The function a direct call names. -/
def calleeName (symbols : Symbols) : Expr → Option String
  | .variable name _ => if symbols.isFunction name then some name else none
  | _ => none

/-- A literal of another integer type is passed over. -/
def generateAsmLiteral (type : DataType) (value : LiteralValue) (reg : Reg) : List Instr :=
  match type, value with
  | .i32, .int value => [.movImm reg (.ofInt 64 value)]
  | .bool, .bool value => [.movImm reg (if value then 1 else 0)]
  | _, _ => []

def generateAsmVariable (symbols : Symbols) (name : String) (reg : Reg) : List Instr :=
  if symbols.isFunction name then [.leaFunction reg (functionLabel symbols name)]
  else if symbols.findLocal name = 0 then [.loadGlobal reg name]
  else [.loadLocal reg (symbols.findLocal name)]

def comparison (condition : Condition) (reg : Reg) : List Instr :=
  [.cmp reg .rbx, .setAl condition, .movzxAl reg]

variable (operator : Operator)

/-- The left operand is in the target register and the right one in `rbx`. -/
def binaryOperation (reg : Reg) : List Instr :=
  match operator with
  | .plus => [.alu .add reg .rbx]
  | .minus => [.alu .sub reg .rbx]
  | .star => [.alu .imul reg .rbx]
  | .slash => [.movImm .rdx 0, .idiv .rbx, .mov reg .rax]
  | .percent => [.movImm .rdx 0, .idiv .rbx, .mov reg .rdx]
  | .equal => comparison .e reg
  | .notEqual => comparison .ne reg
  | .less => comparison .l reg
  | .lessEqual => comparison .le reg
  | .greater => comparison .g reg
  | .greaterEqual => comparison .ge reg
  | .and | .bitAnd => [.alu .and reg .rbx]
  | .or | .pipe => [.alu .or reg .rbx]
  | .bitXor => [.alu .xor reg .rbx]
  | .lshift => [.mov .rcx .rbx, .shlCl reg]
  | .rshift => [.mov .rcx .rbx, .sarCl reg]
  | .not | .bitNot => []

def unaryOperation (reg : Reg) : List Instr :=
  match operator with
  | .minus => [.neg reg]
  | .not => [.test reg, .setAl .e, .movzxAl reg]
  | .bitNot => [.not reg]
  | _ => []

/-- The room for the arguments on the stack, in multiples of sixteen bytes. -/
def stackSize (argCount : Nat) : Nat :=
  let size := (argCount - abiRegs.length) * 8
  if size % 16 = 0 then size else size + 8

section

variable (symbols : Symbols)

mutual

/-- `generate_asm_expr` on the scalar expressions. Moves, indirect calls and
expressions that are not scalar are left out. -/
def generateAsmExpr : Expr → Reg → List Instr
  | .literal type value, reg => generateAsmLiteral type value reg
  | .variable name _, reg => generateAsmVariable symbols name reg
  | .binary operator left right, reg =>
    generateAsmExpr left reg ++ .push reg :: generateAsmExpr right reg ++
      .mov .rbx reg :: .pop reg :: binaryOperation operator reg
  | .unary operator operand, reg => generateAsmExpr operand reg ++ unaryOperation operator reg
  | .index array index, reg =>
    generateAsmExpr array .rax ++ .push .rax :: generateAsmExpr index .rbx ++
      [.pop .rax, .loadField .rax .rax 8, .leaElement reg .rax .rbx, .loadField reg reg 0]
  | .call callee arguments, reg =>
    match calleeName symbols callee with
    | none => []
    | some name =>
      .subRsp (stackSize arguments.length) :: generateStackArguments arguments 0 ++
        generateRegArguments arguments 0 ++
        [.call (functionLabel symbols name) arguments.length,
          .addRsp (stackSize arguments.length), .mov reg .rax]
  | _, _ => []

/-- The arguments past the sixth, the last one first. -/
def generateStackArguments : List Expr → Nat → List Instr
  | [], _ => []
  | argument :: rest, i =>
    generateStackArguments rest (i + 1) ++
      if abiRegs.length ≤ i then
        generateAsmExpr argument .rax ++ [.storeArgument ((i - abiRegs.length) * 8) .rax]
      else []

def generateRegArguments : List Expr → Nat → List Instr
  | [], _ => []
  | argument :: rest, i =>
    (match abiRegs[i]? with
      | some reg => generateAsmExpr argument reg
      | none => []) ++ generateRegArguments rest (i + 1)

end

end

def ofBool (condition : Bool) : Word := if condition then 1 else 0

/-- `type_size_bytes` of the integer types. -/
def typeSizeBytes : DataType → Nat
  | .i8 | .u8 => 1
  | .i16 | .u16 => 2
  | .i32 | .u32 => 4
  | .i64 | .u64 => 8
  | .i128 | .u128 => 16
  | _ => 0

/-- `get_result_type` on integers: the wider type, or the left one. -/
def getResultType (left right : DataType) : DataType :=
  if typeSizeBytes right ≤ typeSizeBytes left then left else right

def isUnsigned : DataType → Bool
  | .u8 | .u16 | .u32 | .u64 | .u128 => true
  | _ => false

/-- The operands have an unsigned type in common. A shift goes by its left one. -/
def Symbols.onUnsigned (symbols : Symbols) (operator : Operator) (left right : Expr) : Bool :=
  match operator with
  | .lshift | .rshift => isUnsigned (symbols.dataType left)
  | _ => isUnsigned (getResultType (symbols.dataType left) (symbols.dataType right))

/-- The operators that evaluate both operands. Shifts take their count modulo 64. -/
def Operator.value (unsigned : Bool) (operator : Operator) (a b : Word) : Word :=
  match operator with
  | .plus => a + b
  | .minus => a - b
  | .star => a * b
  | .slash => if unsigned then a / b else a.sdiv b
  | .percent => if unsigned then a % b else a.srem b
  | .equal => ofBool (a == b)
  | .notEqual => ofBool (a != b)
  | .less => ofBool (if unsigned then a.ult b else a.slt b)
  | .lessEqual => ofBool (if unsigned then a.ule b else a.sle b)
  | .greater => ofBool (if unsigned then b.ult a else b.slt a)
  | .greaterEqual => ofBool (if unsigned then b.ule a else b.sle a)
  | .bitAnd => a &&& b
  | .pipe => a ||| b
  | .bitXor => a ^^^ b
  | .lshift => a <<< (b.toNat % 64)
  | .rshift => if unsigned then a >>> (b.toNat % 64) else a.sshiftRight (b.toNat % 64)
  | .and | .or | .not | .bitNot => 0

/-- The left operand decides the value alone. -/
def decides (a : Word) : Bool :=
  match operator with
  | .and => a == 0
  | .or => a != 0
  | _ => false

def Operator.unaryValue (a : Word) : Word :=
  match operator with
  | .minus => -a
  | .not => ofBool (a == 0)
  | .bitNot => ~~~a
  | _ => a

section

variable {World : Type} (platform : Platform World) (symbols : Symbols) (locals : String → Word)

/-- The element of an array whose object holds its length and its data pointer. -/
def element (outside : Outside World) (array index : Word) : Word :=
  platform.heap outside.world (platform.heap outside.world (array + 8) + index * 8)

mutual

/-- The value of an expression, and what evaluating it has done outside. -/
def evalExpr : Expr → Outside World → Word × Outside World
  | .literal _ (.int value), outside => (.ofInt 64 value, outside)
  | .literal _ (.bool value), outside => (ofBool value, outside)
  | .variable name _, outside => (locals name, outside)
  | .unary operator operand, outside =>
    let (a, after) := evalExpr operand outside
    (Operator.unaryValue operator a, after)
  | .binary operator left right, outside =>
    let (a, afterLeft) := evalExpr left outside
    if decides operator a then (ofBool (a != 0), afterLeft)
    else
      let (b, after) := evalExpr right afterLeft
      match operator with
      | .and | .or => (b, after)
      | _ => (Operator.value (symbols.onUnsigned operator left right) operator a b, after)
  | .index array index, outside =>
    let (a, afterArray) := evalExpr array outside
    let (i, after) := evalExpr index afterArray
    (element platform after a i, after)
  | .call callee arguments, outside =>
    match calleeName symbols callee with
    | none => (0, outside)
    | some name =>
      let (values, after) := evalArguments arguments outside
      after.call platform (functionLabel symbols name) values
  | _, outside => (0, outside)

/-- Arguments are evaluated from left to right. -/
def evalArguments : List Expr → Outside World → List Word × Outside World
  | [], outside => ([], outside)
  | argument :: rest, outside =>
    let (value, afterFirst) := evalExpr argument outside
    let (values, after) := evalArguments rest afterFirst
    (value :: values, after)

end

/-- The arguments past the sixth as the code takes them, the last one first. -/
def evalStackArguments : List Expr → Nat → Outside World → List Word × Outside World
  | [], _, outside => ([], outside)
  | argument :: rest, i, outside =>
    let (values, afterRest) := evalStackArguments rest (i + 1) outside
    if abiRegs.length ≤ i then
      let (value, after) := evalExpr platform symbols locals argument afterRest
      (value :: values, after)
    else (values, afterRest)

/-- The first six arguments. -/
def evalRegArguments : List Expr → Nat → Outside World → List Word × Outside World
  | [], _, outside => ([], outside)
  | argument :: rest, i, outside =>
    if i < abiRegs.length then
      let (value, afterFirst) := evalExpr platform symbols locals argument outside
      let (values, after) := evalRegArguments rest (i + 1) afterFirst
      (value :: values, after)
    else ([], outside)

/-- All arguments in the order of the code. -/
def evalCodeOrder (arguments : List Expr) (outside : Outside World) :
    List Word × Outside World :=
  let (onStack, afterStack) := evalStackArguments platform symbols locals arguments 0 outside
  let (inRegs, after) := evalRegArguments platform symbols locals arguments 0 afterStack
  (inRegs ++ onStack, after)

end

section

variable (symbols : Symbols)

mutual

/-- Literals, local variables, the operators, array elements and direct calls. -/
def isScalar : Expr → Bool
  | .literal _ (.int _) | .literal .bool (.bool _) => true
  | .variable name isMove => !isMove && symbols.findLocal name != 0
  | .unary operator operand =>
    (match operator with
      | .minus | .not | .bitNot => true
      | _ => false) && isScalar operand
  | .binary operator left right =>
    (match operator with
      | .not | .bitNot => false
      | _ => true) && isScalar left && isScalar right
  | .index array index => isScalar array && isScalar index
  | .call callee arguments => (calleeName symbols callee).isSome && areScalar arguments
  | _ => false

def areScalar : List Expr → Bool
  | [] => true
  | expr :: rest => isScalar expr && areScalar rest

end

end

/-- The registers besides the target that the code of an operator writes. -/
def operatorClobbers : Operator → List Reg
  | .slash | .percent => [.rax, .rdx]
  | .equal | .notEqual | .less | .lessEqual | .greater | .greaterEqual | .not => [.rax]
  | .lshift | .rshift => [.rcx]
  | _ => []

/-- The registers besides the target that may change. A call may change them all. -/
def clobbers : Expr → Reg → List Reg
  | .unary operator operand, reg => operatorClobbers operator ++ clobbers operand reg
  | .binary operator left right, reg =>
    .rbx :: operatorClobbers operator ++ clobbers left reg ++ clobbers right reg
  | .index array index, _ => .rax :: .rbx :: clobbers array .rax ++ clobbers index .rbx
  | .call .., _ => .rbx :: .rax :: .r10 :: .r11 :: abiRegs
  | _, _ => []

/-- What the operator asks of its target register and its operands. The operands
of `&&` and `||` are booleans. -/
def OperatorFits (reg : Reg) (a b : Word) : Prop :=
  match operator with
  | .slash | .percent => reg = .rax ∧ 0 ≤ a.toInt ∧ b ≠ 0
  | .lshift | .rshift => reg ≠ .rcx
  | .and | .or => (a = 0 ∨ a = 1) ∧ (b = 0 ∨ b = 1)
  | _ => True

/-- The signed operation does for these operands what the unsigned one does. -/
def SignFits (a b : Word) : Prop :=
  match operator with
  | .less | .lessEqual | .greater | .greaterEqual => a.msb = b.msb
  | .slash | .percent => a.msb = false ∧ b.msb = false
  | .rshift => a.msb = false
  | _ => True

section

variable {World : Type} (platform : Platform World) (symbols : Symbols) (locals : String → Word)

mutual

/-- The expression can be computed in the register, from this stack pointer on:
no operand is written over while it is needed, nothing is evaluated out of turn,
unsigned operands may be taken as signed ones, and the stack is aligned where a
function is called. -/
def Placed : Expr → Reg → Int → Outside World → Prop
  | .literal type (.int _), _, _, _ => type = .i32
  | .variable name _, _, _, _ => symbols.isFunction name = false
  | .unary _ operand, reg, rsp, outside => Placed operand reg rsp outside
  | .binary operator left right, reg, rsp, outside =>
    let (a, afterLeft) := evalExpr platform symbols locals left outside
    let (b, after) := evalExpr platform symbols locals right afterLeft
    reg ≠ .rbx ∧ Placed left reg rsp outside ∧ Placed right reg (rsp - 8) afterLeft ∧
      OperatorFits operator reg a b ∧
      (symbols.onUnsigned operator left right = true → SignFits operator a b) ∧
      (decides operator a = true → after = afterLeft)
  | .index array index, _, rsp, outside =>
    Placed array .rax rsp outside ∧
      Placed index .rbx (rsp - 8) (evalExpr platform symbols locals array outside).2
  | .call _ arguments, _, rsp, outside =>
    rsp % 16 = 0 ∧ PlacedOnStack arguments 0 (rsp - stackSize arguments.length) outside ∧
      PlacedInRegs arguments 0 (rsp - stackSize arguments.length)
        (evalStackArguments platform symbols locals arguments 0 outside).2 ∧
      evalCodeOrder platform symbols locals arguments outside =
        evalArguments platform symbols locals arguments outside
  | _, _, _, _ => True

def PlacedOnStack : List Expr → Nat → Int → Outside World → Prop
  | [], _, _, _ => True
  | argument :: rest, i, rsp, outside =>
    PlacedOnStack rest (i + 1) rsp outside ∧ (abiRegs.length ≤ i →
      Placed argument .rax rsp (evalStackArguments platform symbols locals rest (i + 1) outside).2)

/-- No argument writes over the registers of those before it. -/
def PlacedInRegs : List Expr → Nat → Int → Outside World → Prop
  | [], _, _, _ => True
  | argument :: rest, i, rsp, outside =>
    (∀ reg, abiRegs[i]? = some reg → Placed argument reg rsp outside ∧
      (∀ earlier ∈ abiRegs.take i, earlier ∉ clobbers argument reg)) ∧
    PlacedInRegs rest (i + 1) rsp (evalExpr platform symbols locals argument outside).2

end

end

end Casprix.Codegen
