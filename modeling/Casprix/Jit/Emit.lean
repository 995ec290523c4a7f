import Casprix.Jit.RegAlloc

/-! The x86-64 instructions that the mini-JIT emits, their bytes, and what those
without jumps do. -/
namespace Casprix.Jit

open Mir Function

abbrev Byte := BitVec 8

def Reg.num : Reg → Nat
  | .rax => 0 | .rcx => 1 | .rdx => 2 | .rbx => 3 | .rsp => 4 | .rbp => 5 | .rsi => 6 | .rdi => 7
  | .r8 => 8 | .r9 => 9 | .r10 => 10 | .r11 => 11 | .r12 => 12 | .r13 => 13 | .r14 => 14
  | .r15 => 15

/-- The opcodes with a result in the first register. -/
inductive AluOp where
  | add | sub | imul
  deriving DecidableEq, Repr

/-- The conditions of `SETcc`. -/
inductive Condition where
  | lt | le | eq | ne | gt | ge
  deriving DecidableEq, Repr

/-- Displacements of jumps are relative to the end of the instruction. -/
inductive Insn where
  | movRImm64 (reg : Reg) (imm : Word)
  | movRR (dst src : Reg)
  | alu (op : AluOp) (dst src : Reg)
  | movRRbpdisp (dst : Reg) (disp : Int)
  | movRbpdispR (disp : Int) (src : Reg)
  | subRspImm32 (imm : Int)
  | addRspImm32 (imm : Int)
  | movRspRbp
  | ret
  | push (reg : Reg)
  | pop (reg : Reg)
  | cqo
  | idiv (divisor : Reg)
  | neg (reg : Reg)
  | cmp (ls rs : Reg)
  | setccAl (cond : Condition)
  | movzxRaxAl
  | test (reg : Reg)
  | jnz (rel : Int)
  | jmp (rel : Int)
  | call (rel : Int)
  | nop
  deriving DecidableEq, Repr

section

/-- `xe_u32`. -/
def u32 (v : Int) : List Byte :=
  let w := BitVec.ofInt 32 v
  [w.extractLsb' 0 8, w.extractLsb' 8 8, w.extractLsb' 16 8, w.extractLsb' 24 8]

/-- `xe_i64`. -/
def i64 (w : Word) : List Byte := (List.range 8).map fun i => w.extractLsb' (8 * i) 8

def byte (n : Nat) : Byte := BitVec.ofNat 8 n

/-- A REX prefix with the bits of the registers that are extended. -/
def rex (r b : Reg) : Byte :=
  byte (0x48 ||| (if r.num ≥ 8 then 0x04 else 0) ||| if b.num ≥ 8 then 0x01 else 0)

/-- A REX prefix as `xe_mov_r_imm64` makes it, for the one register. -/
def rexB (b : Reg) : Byte := byte (0x48 ||| if b.num ≥ 8 then 0x41 else 0)

/-- The operand byte for two registers. -/
def modRM (base : Nat) (reg rm : Reg) : Byte := byte (base ||| (reg.num % 8) <<< 3 ||| rm.num % 8)

/-- The operand byte for a register, with an opcode or the frame base as the other operand. -/
def modR (base : Nat) (reg : Reg) : Byte := byte (base ||| reg.num % 8)

def Condition.code : Condition → Nat
  | .lt => 0x9C | .le => 0x9E | .eq => 0x94 | .ne => 0x95 | .gt => 0x9F | .ge => 0x9D

def Insn.encode : Insn → List Byte
  | .movRImm64 reg imm => [rexB reg, modR 0xB8 reg] ++ i64 imm
  | .movRR dst src => [rex src dst, byte 0x89, modRM 0xC0 src dst]
  | .alu .add dst src => [rex dst src, byte 0x03, modRM 0xC0 dst src]
  | .alu .sub dst src => [rex dst src, byte 0x2B, modRM 0xC0 dst src]
  | .alu .imul dst src => [rex dst src, byte 0x0F, byte 0xAF, modRM 0xC0 dst src]
  | .movRRbpdisp dst disp => [rex dst .rbp, byte 0x8B, modRM 0x80 dst .rbp] ++ u32 disp
  | .movRbpdispR disp src => [rex src .rbp, byte 0x89, modRM 0x80 src .rbp] ++ u32 disp
  | .subRspImm32 imm => [byte 0x48, byte 0x81, byte 0xEC] ++ u32 imm
  | .addRspImm32 imm => [byte 0x48, byte 0x81, byte 0xC4] ++ u32 imm
  | .movRspRbp => [byte 0x48, byte 0x89, byte 0xEC]
  | .ret => [byte 0xC3]
  | .push reg => (if reg.num ≥ 8 then [byte 0x41] else []) ++ [modR 0x50 reg]
  | .pop reg => (if reg.num ≥ 8 then [byte 0x41] else []) ++ [modR 0x58 reg]
  | .cqo => [byte 0x48, byte 0x99]
  | .idiv divisor => [rexB divisor, byte 0xF7, modR 0xF8 divisor]
  | .neg reg => [rexB reg, byte 0xF7, modR 0xD8 reg]
  | .cmp ls rs => [rex ls rs, byte 0x3B, modRM 0xC0 ls rs]
  | .setccAl cond => [byte 0x0F, byte cond.code, byte 0xC0]
  | .movzxRaxAl => [byte 0x48, byte 0x0F, byte 0xB6, byte 0xC0]
  | .test reg => [byte (0x48 ||| if reg.num ≥ 8 then 0x45 else 0), byte 0x85, modRM 0xC0 reg reg]
  | .jnz rel => [byte 0x0F, byte 0x85] ++ u32 rel
  | .jmp rel => [byte 0xE9] ++ u32 rel
  | .call rel => [byte 0xE8] ++ u32 rel
  | .nop => [byte 0x90]

end

/-- Registers and the stack hold numbers, and the stack is in cells of eight bytes. `compared` is
what the flags are about. -/
structure Machine where
  regs : Reg → Int
  stack : Int → Int
  compared : Int × Int

variable (m : Machine)

namespace Machine

def setReg (m : Machine) (r : Reg) (value : Int) : Machine :=
  { m with regs := update m.regs r value }

def setCell (m : Machine) (address value : Int) : Machine :=
  { m with stack := update m.stack address value }

@[simp] theorem setReg_self (r : Reg) (value : Int) : (m.setReg r value).regs r = value :=
  update_self ..

theorem setReg_of_ne {r r' : Reg} (hNe : r' ≠ r) (value : Int) :
    (m.setReg r value).regs r' = m.regs r' := update_of_ne hNe ..

@[simp] theorem setReg_stack (r : Reg) (value : Int) : (m.setReg r value).stack = m.stack := rfl

@[simp] theorem setCell_self (address value : Int) :
    (m.setCell address value).stack address = value := update_self ..

theorem setCell_of_ne {address address' : Int} (hNe : address' ≠ address) (value : Int) :
    (m.setCell address value).stack address' = m.stack address' := update_of_ne hNe ..

@[simp] theorem setCell_regs (address value : Int) : (m.setCell address value).regs = m.regs := rfl

end Machine

/-- What the arithmetic instructions leave in a register that they write. -/
abbrev Arithmetic := Insn → Machine → Reg → Int

/-- The registers that receive what an instruction computes. -/
def Insn.computed : Insn → List Reg
  | .alu _ dst _ => [dst]
  | .neg reg => [reg]
  | .cqo => [.rdx]
  | .idiv _ => [.rax, .rdx]
  | .setccAl _ | .movzxRaxAl => [.rax]
  | _ => []

/-- An instruction that does not jump. -/
def Insn.exec (arith : Arithmetic) (insn : Insn) (m : Machine) : Machine :=
  match insn with
  | .movRImm64 reg imm => m.setReg reg imm.toInt
  | .movRR dst src => m.setReg dst (m.regs src)
  | .movRRbpdisp dst disp => m.setReg dst (m.stack (m.regs .rbp + disp))
  | .movRbpdispR disp src => m.setCell (m.regs .rbp + disp) (m.regs src)
  | .subRspImm32 imm => m.setReg .rsp (m.regs .rsp - imm)
  | .addRspImm32 imm => m.setReg .rsp (m.regs .rsp + imm)
  | .movRspRbp => m.setReg .rsp (m.regs .rbp)
  | .push reg => (m.setCell (m.regs .rsp - 8) (m.regs reg)).setReg .rsp (m.regs .rsp - 8)
  | .pop reg => (m.setReg .rsp (m.regs .rsp + 8)).setReg reg (m.stack (m.regs .rsp))
  | .cmp ls rs => { m with compared := (m.regs ls, m.regs rs) }
  | .test reg => { m with compared := (m.regs reg, 0) }
  | _ => insn.computed.foldl (fun m' r => m'.setReg r (arith insn m r)) m

def execAll (arith : Arithmetic) (code : List Insn) (m : Machine) : Machine :=
  code.foldl (fun m insn => insn.exec arith m) m

theorem execAll_append (arith : Arithmetic) (code code' : List Insn) (m : Machine) :
    execAll arith (code ++ code') m = execAll arith code' (execAll arith code m) :=
  List.foldl_append

end Casprix.Jit
