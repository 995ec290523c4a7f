import Mathlib.Data.BitVec

/-! The part of an x86-64 processor that the code of scalar expressions uses.
The code has no jumps. The stack is a memory of its own, in cells of eight
bytes, and what is outside the expression, the heap and the functions it calls,
is a parameter. -/
namespace Casprix.Codegen

open Function

abbrev Word := BitVec 64

inductive Reg where
  | rax | rbx | rcx | rdx | rsi | rdi | r8 | r9 | r10 | r11
  deriving DecidableEq, Repr

inductive AluOp where
  | add | sub | imul | and | or | xor
  deriving DecidableEq, Repr

def AluOp.apply : AluOp → Word → Word → Word
  | add, a, b => a + b
  | sub, a, b => a - b
  | imul, a, b => a * b
  | and, a, b => a &&& b
  | or, a, b => a ||| b
  | xor, a, b => a ^^^ b

/-- The conditions of `setcc`, on the operands compared last. -/
inductive Condition where
  | e | ne | l | le | g | ge
  deriving DecidableEq, Repr

def Condition.holds : Condition → Word → Word → Bool
  | e, a, b => a == b
  | ne, a, b => a != b
  | l, a, b => a.slt b
  | le, a, b => a.sle b
  | g, a, b => b.slt a
  | ge, a, b => b.sle a

/-- A call tells how many arguments its function takes. -/
inductive Instr where
  | movImm (target : Reg) (value : Word)
  | mov (target source : Reg)
  | loadLocal (target : Reg) (offset : Nat)
  | loadGlobal (target : Reg) (name : String)
  | leaFunction (target : Reg) (label : String)
  | storeArgument (offset : Nat) (source : Reg)
  | push (source : Reg)
  | pop (target : Reg)
  | subRsp (size : Nat)
  | addRsp (size : Nat)
  | alu (op : AluOp) (target source : Reg)
  | neg (target : Reg)
  | not (target : Reg)
  | cmp (left right : Reg)
  | test (operand : Reg)
  | setAl (condition : Condition)
  | movzxAl (target : Reg)
  | idiv (divisor : Reg)
  | shlCl (target : Reg)
  | sarCl (target : Reg)
  | loadField (target base : Reg) (offset : Nat)
  | leaElement (target base index : Reg)
  | call (label : String) (argCount : Nat)
  deriving DecidableEq, Repr

/-- The world is everything a function can change, and `calls` lists the calls
made with the arguments they were given, the latest first. -/
structure Outside (World : Type) where
  world : World
  calls : List (String × List Word)

/-- A function may leave anything in the registers it does not have to save and
in the stack below its caller. -/
structure Platform (World : Type) where
  heap : World → Word → Word
  address : World → String → Word
  callee : String → List Word → World → Word × World
  scratchRegs : Outside World → Reg → Word
  scratchStack : Outside World → Int → Word

structure Machine (World : Type) where
  reg : Reg → Word
  rsp : Int
  rbp : Int
  stack : Int → Word
  compared : Word × Word
  outside : Outside World

/-- The argument registers of the System V convention, in order. -/
def abiRegs : List Reg := [.rdi, .rsi, .rdx, .rcx, .r8, .r9]

def Reg.isCalleeSaved : Reg → Bool
  | .rbx => true
  | _ => false

namespace Outside

variable {World : Type}

def call (platform : Platform World) (label : String) (arguments : List Word)
    (outside : Outside World) : Word × Outside World :=
  let returned := platform.callee label arguments outside.world
  (returned.1, ⟨returned.2, (label, arguments) :: outside.calls⟩)

end Outside

namespace Machine

variable {World : Type}

def setReg (m : Machine World) (r : Reg) (value : Word) : Machine World :=
  { m with reg := update m.reg r value }

/-- The arguments a function finds: the registers first, then the stack. -/
def arguments (m : Machine World) (argCount : Nat) : List Word :=
  (abiRegs.take argCount).map m.reg ++
    (List.range (argCount - abiRegs.length)).map fun i : Nat => m.stack (m.rsp + 8 * (i : Int))

/-- A function returns in `rax` to a stack pointer that is back in place. Its
arguments on the stack are its own. -/
def call (platform : Platform World) (label : String) (argCount : Nat) (m : Machine World) :
    Machine World :=
  let returned := m.outside.call platform label (m.arguments argCount)
  { m with
    reg := update
      (fun r => if r.isCalleeSaved then m.reg r else platform.scratchRegs returned.2 r)
      .rax returned.1
    stack := fun a =>
      if a < m.rsp + 8 * (argCount - abiRegs.length : Nat) then platform.scratchStack returned.2 a
      else m.stack a
    outside := returned.2 }

/-- The quotient must fit in a register, and the remainder goes to `rdx`. -/
def idiv (m : Machine World) (divisor : Word) : Option (Machine World) :=
  let dividend : Int := (m.reg .rdx ++ m.reg .rax).toInt
  let quotient := dividend.tdiv divisor.toInt
  if divisor = 0 ∨ quotient < -9223372036854775808 ∨ 9223372036854775808 ≤ quotient then none
  else
    some ((m.setReg .rax (.ofInt 64 quotient)).setReg .rdx
      (.ofInt 64 (dividend.tmod divisor.toInt)))

def lowByte (byte rest : Word) : Word := (rest &&& ~~~255#64) ||| byte

/-- One instruction. A division can fault, and so can a function that is called
on a stack that is not aligned as the convention asks. -/
def step (platform : Platform World) (m : Machine World) : Instr → Option (Machine World)
  | .movImm target value => some (m.setReg target value)
  | .mov target source => some (m.setReg target (m.reg source))
  | .loadLocal target offset => some (m.setReg target (m.stack (m.rbp - offset)))
  | .loadGlobal target name =>
    some (m.setReg target (platform.heap m.outside.world (platform.address m.outside.world name)))
  | .leaFunction target label => some (m.setReg target (platform.address m.outside.world label))
  | .storeArgument offset source =>
    some { m with stack := update m.stack (m.rsp + offset) (m.reg source) }
  | .push source =>
    some { m with
      rsp := m.rsp - 8
      stack := update m.stack (m.rsp - 8) (m.reg source) }
  | .pop target => some { m.setReg target (m.stack m.rsp) with rsp := m.rsp + 8 }
  | .subRsp size => some { m with rsp := m.rsp - size }
  | .addRsp size => some { m with rsp := m.rsp + size }
  | .alu op target source => some (m.setReg target (op.apply (m.reg target) (m.reg source)))
  | .neg target => some (m.setReg target (-m.reg target))
  | .not target => some (m.setReg target (~~~m.reg target))
  | .cmp left right => some { m with compared := (m.reg left, m.reg right) }
  | .test operand => some { m with compared := (m.reg operand, 0) }
  | .setAl condition =>
    some (m.setReg .rax (lowByte
      (if condition.holds m.compared.1 m.compared.2 then 1 else 0) (m.reg .rax)))
  | .movzxAl target => some (m.setReg target (m.reg .rax &&& 255#64))
  | .idiv divisor => m.idiv (m.reg divisor)
  | .shlCl target => some (m.setReg target (m.reg target <<< ((m.reg .rcx).toNat % 64)))
  | .sarCl target => some (m.setReg target ((m.reg target).sshiftRight ((m.reg .rcx).toNat % 64)))
  | .loadField target base offset =>
    some (m.setReg target (platform.heap m.outside.world (m.reg base + .ofNat 64 offset)))
  | .leaElement target base index => some (m.setReg target (m.reg base + m.reg index * 8))
  | .call label argCount => if m.rsp % 16 = 0 then some (m.call platform label argCount) else none

/-- Runs the instructions in order. -/
def run (platform : Platform World) : List Instr → Machine World → Option (Machine World)
  | [], m => some m
  | instr :: rest, m => (m.step platform instr).bind (run platform rest)

variable {platform : Platform World} {m m' m'' : Machine World} {code code' : List Instr}

theorem run_append : run platform (code ++ code') m =
    (run platform code m).bind (run platform code') := by
  induction code generalizing m with
  | nil => rfl
  | cons instr rest ih =>
    rw [List.cons_append, run, run]
    cases m.step platform instr with
    | none => rfl
    | some next => exact ih

theorem run_trans (h : run platform code m = some m') (h' : run platform code' m' = some m'') :
    run platform (code ++ code') m = some m'' := by
  rw [run_append, h]
  exact h'

theorem run_singleton (instr : Instr) : run platform [instr] m = m.step platform instr :=
  Option.bind_fun_some _

theorem setReg_self (r : Reg) (value : Word) : (m.setReg r value).reg r = value :=
  update_self _ _ _

theorem setReg_of_ne {r other : Reg} (h : other ≠ r) (value : Word) :
    (m.setReg r value).reg other = m.reg other :=
  update_of_ne h _ _

theorem call_rax (label : String) (argCount : Nat) :
    (m.call platform label argCount).reg .rax =
      (m.outside.call platform label (m.arguments argCount)).1 := by
  rw [Machine.call]
  dsimp only
  exact update_self _ _ _

theorem lowByte_and (condition : Bool) (rest : Word) :
    lowByte (if condition then 1 else 0) rest &&& 255#64 = if condition then 1 else 0 := by
  have hMask : rest &&& ~~~255#64 &&& 255#64 = 0#64 := by
    rw [BitVec.and_assoc, BitVec.not_and_self]
    exact BitVec.and_zero
  rw [lowByte, BitVec.and_or_distrib_right, hMask, BitVec.zero_or]
  cases condition <;> rfl

end Machine

end Casprix.Codegen
