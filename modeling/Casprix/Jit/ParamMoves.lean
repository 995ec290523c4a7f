import Casprix.Jit.Emit

/-! The prologue of a compiled function: the frame, and the moves that bring the parameters from
where the System V convention passes them to their homes. -/
namespace Casprix.Jit

open Mir

variable (a : JitRegAlloc)

/-- `jra_home_reg`. -/
def jraHomeReg (id : MirValueId) : Option Reg :=
  if IsValue a.n id then (a.v id).reg else none

/-- `jra_slot_disp`. The slot of a value without one is `-1`. -/
def jraSlotDisp (id : MirValueId) : Int :=
  match (a.v id).spillSlot with
  | some slot => -8 * (slot + 1)
  | none => 0

/-- The argument registers of the System V convention, the only one modelled. -/
def argRegs : List Reg := [.rdi, .rsi, .rdx, .rcx, .r8, .r9]

/-- `max_arg` of the System V convention; it is four where the target is Windows. -/
def maxArg : Nat := 6

/-- Where the parameters go. The parameters from `np` on are not in registers at first. -/
structure Homes where
  np : Nat
  dst : Nat → Option Reg
  slotDisp : Nat → Int

/-- The moves that are still to be emitted, with the code so far. -/
structure Shuffle where
  src : Nat → Reg
  pending : Nat → Bool
  code : List Insn := []
  progress : Bool := false

namespace Shuffle

variable (homes : Homes) (s : Shuffle)

def npend : Nat := (List.range homes.np).countP s.pending

/-- Emits the move of a parameter, which then is not pending any more. -/
def emit (i : Nat) (code : List Insn) : Shuffle :=
  { s with pending := Function.update s.pending i false, code := s.code ++ code, progress := true }

/-- A parameter whose home is a spill slot is stored at once. -/
def storeSpilled (i : Nat) : Shuffle :=
  if s.pending i = true ∧ homes.dst i = none then
    s.emit i [.movRbpdispR (homes.slotDisp i) (s.src i)]
  else s

/-- Another pending move still reads `dst[i]`. -/
def blocked (i : Nat) : Bool :=
  (List.range homes.np).any fun j => j ≠ i ∧ s.pending j = true ∧ some (s.src j) = homes.dst i

def schedule (i : Nat) : Shuffle :=
  match homes.dst i with
  | none => s
  | some dst =>
    if s.pending i then
      if dst = s.src i then s.emit i []
      else if s.blocked homes i then s
      else s.emit i [.movRR dst (s.src i)]
    else s

/-- The first pending move is to read its source from `JIT_SCRATCH_A`. -/
def stage : Shuffle :=
  match (List.range homes.np).find? s.pending with
  | some i =>
    { s with src := Function.update s.src i .rax, code := s.code ++ [.movRR .rax (s.src i)] }
  | none => s

def round : Shuffle :=
  let s := (List.range homes.np).foldl (schedule homes) { s with progress := false }
  if s.progress then s else s.stage homes

/-- `while (npend > 0 && guard++ < 64)`. -/
def run : Nat → Shuffle → Shuffle
  | 0, s => s
  | guard + 1, s => if s.npend homes > 0 then run guard (s.round homes) else s

end Shuffle

variable (params : List MirValueId)

/-- The id of a parameter, `MIR_VALUE_NONE` where there is none. -/
def paramId (i : Nat) : MirValueId := params.getD i 0

def paramHomes : Homes where
  np := min params.length maxArg
  dst i := jraHomeReg a (paramId params i)
  slotDisp i := jraSlotDisp a (paramId params i)

/-- The moves from the argument registers. -/
def shuffleParams : Shuffle :=
  let homes := paramHomes a params
  let start : Shuffle :=
    { src := fun i => argRegs.getD i .rax
      pending := fun i => i < homes.np ∧ paramId params i ≠ 0 }
  ((List.range homes.np).foldl (Shuffle.storeSpilled homes) start).run homes 64

/-- The displacement of a parameter that the caller has left on its stack. -/
def callerDisp (i : Nat) : Int := 56 + 8 * (i - maxArg : Nat)

/-- The move of a parameter beyond the argument registers. -/
def stackParam (i : Nat) : List Insn :=
  if paramId params i = 0 then []
  else
    match jraHomeReg a (paramId params i) with
    | some hr => [.movRRbpdisp hr (callerDisp i)]
    | none =>
      [.movRRbpdisp .rax (callerDisp i), .movRbpdispR (jraSlotDisp a (paramId params i)) .rax]

def paramMoves : List Insn :=
  (shuffleParams a params).code ++
    (List.range' maxArg (params.length - maxArg)).flatMap (stackParam a params)

/-- A size that brings the stack pointer back to a multiple of sixteen. -/
def frameBytes : Int := (8 * a.nSpillSlots + 15) / 16 * 16 + 8

def framePushes : List Insn :=
  [.push .rbx, .push .rbp, .push .r12, .push .r13, .push .r14, .push .r15]

def prologue : List Insn :=
  framePushes ++ [.movRR .rbp .rsp, .subRspImm32 (frameBytes a)] ++ paramMoves a params

end Casprix.Jit
