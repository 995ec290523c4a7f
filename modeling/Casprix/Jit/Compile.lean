import Casprix.Jit.ParamMoves

/-! The code generator of the mini-JIT: the instructions of each block, and the displacements of the
branches that are filled in at the end. -/
namespace Casprix.Jit

open Mir

/-- `JIT_MAX_PARAMS`. -/
def jitMaxParams : Nat := 16

/-- `MAX_PATCHES`. -/
def maxPatches : Nat := 256

/-- The length of `block_labels`. -/
def maxLabels : Nat := 64

/-- The size of the code buffer. -/
def codeCap : Nat := 8192

/-- An instruction that `jit_function_is_supported` lets through in a function of this name. -/
def isSupported (name : String) : MirOp → Bool
  | .alloca .. | .load _ | .store .. | .getFieldPtr .. | .getElemPtr .. | .phi _
  | .switch .. => false
  | .structInit _ | .extract .. | .insert .. | .callIndirect .. | .callVirtual .. => false
  | .refop op _ => op = .drop
  | .objAlloc .. | .suspend .. | .vec .. => false
  | .binary op _ _ => op ≠ .fadd ∧ op ≠ .fsub ∧ op ≠ .fmul ∧ op ≠ .fdiv
  | .unary op _ _ => op ≠ .fneg ∧ op ≠ .sitofp ∧ op ≠ .fptosi
  | .call funcName args _ => funcName = some name ∧ args.length ≤ maxArg
  | _ => true

variable (func : MirFunction)

def jitFunctionIsSupported : Bool :=
  func.params.length ≤ jitMaxParams ∧ (jitInsts func).all fun inst =>
    isSupported func.name inst.op

section

variable (a : JitRegAlloc) (id : MirValueId)

/-- Brings a value into a register. -/
def jraLoadOperand (scratch : Reg) : List Insn × Reg :=
  if IsValue a.n id then
    match (a.v id).reg with
    | some hr => ([], hr)
    | none => ([.movRRbpdisp scratch (jraSlotDisp a id)], scratch)
  else ([.movRImm64 scratch 0], scratch)

def jraResultReg (scratch : Reg) : Reg :=
  if IsValue a.n id then (a.v id).reg.getD scratch else scratch

def jraStoreResult (fromReg : Reg) : List Insn :=
  if IsValue a.n id ∧ (a.v id).reg = none then [.movRbpdispR (jraSlotDisp a id) fromReg] else []

end

/-- `if (dst != src) xe_mov_r_r(dst, src)`. -/
def moveInto (dst src : Reg) : List Insn := if dst ≠ src then [.movRR dst src] else []

def epilogue : List Insn :=
  [.movRspRbp, .pop .r15, .pop .r14, .pop .r13, .pop .r12, .pop .rbp, .pop .rbx, .ret]

section

variable (a : JitRegAlloc)

def emitConst (imm : Word) (r : MirValueId) : List Insn :=
  let dst := jraResultReg a r .rax
  [.movRImm64 dst imm] ++ jraStoreResult a r dst

def emitAlu (op : AluOp) (lhs rhs r : MirValueId) : List Insn :=
  let (loadLhs, ls) := jraLoadOperand a lhs .rax
  let (loadRhs, rs) := jraLoadOperand a rhs .r11
  let dst := jraResultReg a r .rax
  let compute :=
    if dst = rs ∧ dst ≠ ls then
      let tmp := if Reg.rax = rs then Reg.r11 else .rax
      [.movRR tmp ls, .alu op tmp rs] ++ moveInto dst tmp
    else moveInto dst ls ++ [.alu op dst rs]
  loadLhs ++ loadRhs ++ compute ++ jraStoreResult a r dst

/-- The quotient is left in `rax`, the remainder in `rdx`, which is kept on the stack meanwhile. -/
def emitDivision (result : Reg) (lhs rhs r : MirValueId) : List Insn :=
  let (loadLhs, ls) := jraLoadOperand a lhs .r10
  let (loadRhs, rs) := jraLoadOperand a rhs .r11
  let (saveDivisor, divisor) :=
    if rs = .rax ∨ rs = .rdx then ([Insn.movRR .r11 rs], Reg.r11) else ([], rs)
  let dst := jraResultReg a r .r10
  let restore :=
    if dst = .rdx then [.movRR .r10 .rdx, .pop .rdx, .movRR .rdx .r10] else [.pop .rdx]
  [.push .rdx] ++ loadLhs ++ loadRhs ++ saveDivisor ++ [.movRR .rax ls, .cqo, .idiv divisor] ++
    moveInto dst result ++ restore ++ jraStoreResult a r dst

def emitNeg (operand r : MirValueId) : List Insn :=
  let (load, src) := jraLoadOperand a operand .rax
  let dst := jraResultReg a r .rax
  load ++ moveInto dst src ++ [.neg dst] ++ jraStoreResult a r dst

def emitTransfer (source r : MirValueId) : List Insn :=
  let (load, src) := jraLoadOperand a source .rax
  let dst := jraResultReg a r .rax
  load ++ moveInto dst src ++ jraStoreResult a r dst

def emitCompare (cond : Condition) (lhs rhs r : MirValueId) : List Insn :=
  let (loadLhs, ls) := jraLoadOperand a lhs .rax
  let (loadRhs, rs) := jraLoadOperand a rhs .r11
  let dst := jraResultReg a r .rax
  loadLhs ++ loadRhs ++ [.cmp ls rs, .setccAl cond, .movzxRaxAl] ++ moveInto dst .rax ++
    jraStoreResult a r dst

def emitRet (value : MirValueId) : List Insn :=
  let (load, src) := jraLoadOperand a value .rax
  load ++ moveInto .rax src ++ epilogue

def callerSavedPool : List Reg := [.rcx, .rdx, .rsi, .rdi, .r8, .r9, .r10]

/-- The caller-saved registers of values that live across a call. -/
def savedRegs (linIdx : Int) : List Reg :=
  callerSavedPool.filter fun reg => (List.range a.n).any fun vi =>
    (a.v vi).used = true ∧ (a.v vi).reg = some reg ∧
      (a.v vi).first < linIdx ∧ (a.v vi).last > linIdx

/-- Keeps the stack aligned when an odd number of registers is pushed. -/
def padding (count : Nat) (insn : Insn) : List Insn := if count % 2 = 1 then [insn] else []

def pushArg (arg : MirValueId) : List Insn :=
  let (load, ar) := jraLoadOperand a arg .rax
  load ++ [.push ar]

/-- The arguments go to their registers by way of the stack. -/
def marshalArgs (args : List MirValueId) : List Insn :=
  if args.length > 0 then
    padding args.length (.subRspImm32 8) ++ args.reverse.flatMap (pushArg a) ++
      (argRegs.take args.length).map .pop ++ List.replicate (args.length - maxArg) (.pop .r10) ++
      padding args.length (.addRspImm32 8)
  else []

/-- What stands before the `call` instruction. -/
def beforeCall (linIdx : Int) (args : List MirValueId) : List Insn :=
  let save := savedRegs a linIdx
  padding save.length (.subRspImm32 8) ++ save.map .push ++ marshalArgs a args

def callResult (r : MirValueId) : List Insn :=
  if r ≠ 0 then
    let dst := jraResultReg a r .rax
    moveInto dst .rax ++ jraStoreResult a r dst
  else []

def afterCall (linIdx : Int) (r : MirValueId) : List Insn :=
  let save := savedRegs a linIdx
  save.reverse.map .pop ++ padding save.length (.addRspImm32 8) ++ callResult a r

end

/-- An instruction, or a branch to a block, whose displacement is filled in at the end. -/
inductive Item where
  | insn (i : Insn)
  | jnzTo (target : MirBlockRef)
  | jmpTo (target : MirBlockRef)
  deriving DecidableEq, Repr

/-- The instruction as it is emitted at first. -/
def Item.emitted : Item → Insn
  | .insn i => i
  | .jnzTo _ => .jnz 0
  | .jmpTo _ => .jmp 0

def codeBytes (code : List Insn) : List Byte := code.flatMap Insn.encode

def itemBytes (items : List Item) : List Byte := codeBytes (items.map Item.emitted)

variable (a : JitRegAlloc)

/-- The self-recursive call, for an instruction that starts at `pos`. -/
def emitCall (linIdx : Int) (pos : Nat) (args : List MirValueId) (r : MirValueId) : List Insn :=
  let before := beforeCall a linIdx args
  before ++ [.call (0 - ((pos + (codeBytes before).length + 5 : Nat) : Int))] ++
    afterCall a linIdx r

/-- The instruction for a MIR instruction without branches. -/
def emitPlain (linIdx : Int) (pos : Nat) (inst : MirInst) : List Insn :=
  let r := inst.result
  match inst.op with
  | .constInt imm => emitConst a imm r
  | .constBool imm => emitConst a (if imm then 1 else 0) r
  | .binary op lhs rhs =>
    match op with
    | .add => emitAlu a .add lhs rhs r
    | .sub => emitAlu a .sub lhs rhs r
    | .mul => emitAlu a .imul lhs rhs r
    | .div => emitDivision a .rax lhs rhs r
    | .mod => emitDivision a .rdx lhs rhs r
    | .cmpLt => emitCompare a .lt lhs rhs r
    | .cmpLe => emitCompare a .le lhs rhs r
    | .cmpEq => emitCompare a .eq lhs rhs r
    | .cmpNe => emitCompare a .ne lhs rhs r
    | .cmpGt => emitCompare a .gt lhs rhs r
    | .cmpGe => emitCompare a .ge lhs rhs r
    | _ => [.nop]
  | .unary .neg operand _ => emitNeg a operand r
  | .transfer _ source => emitTransfer a source r
  | .ret value => emitRet a value
  | .retVoid => [.movRImm64 .rax 0] ++ epilogue
  | .call _ args _ => emitCall a linIdx pos args r
  | .debugLoc | .nop => []
  | _ => [.nop]

def emitInst (linIdx : Int) (pos : Nat) (inst : MirInst) : List Item :=
  match inst.op with
  | .condbr cond trueBb falseBb =>
    let (load, cr) := jraLoadOperand a cond .rax
    (load ++ [Insn.test cr]).map .insn ++ [.jnzTo trueBb, .jmpTo falseBb]
  | .br target => [.jmpTo target]
  | _ => (emitPlain a linIdx pos inst).map .insn

/-- `block_id` and `code_offset`. -/
structure JitBlockLabel where
  blockId : MirBlockId
  codeOffset : Nat
  deriving DecidableEq, Repr

structure Emitter where
  code : List Item
  labels : List JitBlockLabel := []
  linIdx : Nat := 0

namespace Emitter

def pos (e : Emitter) : Nat := (itemBytes e.code).length

def inst (e : Emitter) (inst : MirInst) : Emitter :=
  { e with code := e.code ++ emitInst a e.linIdx e.pos inst, linIdx := e.linIdx + 1 }

/-- Records the label of a block, while there is room. -/
def label (e : Emitter) (b : MirBlockId) : Emitter :=
  if e.labels.length < maxLabels then
    { e with labels := e.labels ++ [{ blockId := b, codeOffset := e.pos }] }
  else e

def block (e : Emitter) (entry : MirBlock × Nat) : Emitter :=
  entry.1.insts.foldl (inst a) (e.label entry.2)

end Emitter

/-- The emitter after the prologue. -/
def emitStart : Emitter :=
  { code := (prologue a (func.params.map (·.valueId))).map .insn }

/-- The emitter after all blocks. -/
def emitBlocks : Emitter :=
  func.blocks.zipIdx.foldl (Emitter.block a) (emitStart func a)

/-- Returns zero, unless the code ends as a return does. -/
def ensureReturn (items : List Item) : List Item :=
  if (itemBytes items).getLast? = some 0xC3 then items
  else items ++ ([Insn.movRImm64 .rax 0] ++ epilogue).map .insn

/-- `patch_pos`, and the target that gives the `block_id`. -/
structure JitPatch where
  patchPos : Nat
  target : MirBlockRef
  deriving DecidableEq, Repr

/-- A null target counts as block zero. -/
def JitPatch.blockId (patch : JitPatch) : MirBlockId := patch.target.getD 0

/-- The patches of items that start at `pos`. -/
def patches : Nat → List Item → List JitPatch
  | _, [] => []
  | pos, item :: rest =>
    let next := pos + item.emitted.encode.length
    match item with
    | .insn _ => patches next rest
    | .jnzTo target => { patchPos := pos + 2, target } :: patches next rest
    | .jmpTo target => { patchPos := pos + 1, target } :: patches next rest

/-- The offset that a patch leads to. A block without a label is taken to be at the end. -/
def targetOffset (labels : List JitBlockLabel) (endPos : Nat) (patch : JitPatch) : Nat :=
  match labels.find? (·.blockId == patch.blockId) with
  | some label => label.codeOffset
  | none => endPos

/-- Overwrites four bytes. -/
def writeRel (buf : List Byte) (pos : Nat) (rel : Int) : List Byte :=
  buf.take pos ++ u32 rel ++ buf.drop (pos + 4)

def applyPatch (labels : List JitBlockLabel) (endPos : Nat) (buf : List Byte) (patch : JitPatch) :
    List Byte :=
  writeRel buf patch.patchPos
    (targetOffset labels endPos patch - ((patch.patchPos + 4 : Nat) : Int))

/-- The items of the function, with the return at the end. -/
def jitItems : List Item :=
  ensureReturn (emitBlocks func a).code

def jitCompileFunction : Option (List Byte) :=
  if func.blocks = [] ∨ ¬jitFunctionIsSupported func then none
  else
    (jitRegalloc func).bind fun a =>
      let items := jitItems func a
      let buf := itemBytes items
      if (patches 0 items).length > maxPatches ∨ buf.length > codeCap then none
      else
        some ((patches 0 items).foldl (applyPatch (emitBlocks func a).labels buf.length) buf)

end Casprix.Jit
