import Casprix.Jit.Emission

/-! What a piece of the emitted code leaves as it was: registers, the stack pointer, and the part of
the stack above it. -/
namespace Casprix.Jit

open List Mir

variable {arith : Arithmetic} {callee : Machine → Machine} {code code' : List Insn} {r : Reg}
  {written written' : Reg → Prop} {depth depth' : Int} {m m' : Machine}

/-- The registers that a function has to leave as they were. -/
def calleeSaved : List Reg := [.rbx, .rbp, .rsp, .r12, .r13, .r14, .r15]

/-- What a call may rely on when the callee has returned. -/
structure Returns (m m' : Machine) : Prop where
  regs : ∀ r ∈ calleeSaved, m'.regs r = m.regs r
  stack : ∀ address, m.regs .rsp ≤ address → m'.stack address = m.stack address

section

variable (arith callee)

/-- An instruction that does not jump, or a call that comes back. -/
def Insn.run (insn : Insn) (m : Machine) : Machine :=
  match insn with
  | .call _ => callee m
  | _ => insn.exec arith m

def runAll (code : List Insn) (m : Machine) :
    Machine := code.foldl (fun m insn => insn.run arith callee m) m

theorem runAll_append (code code' : List Insn) (m : Machine) :
    runAll arith callee (code ++ code') m =
      runAll arith callee code' (runAll arith callee code m) :=
  foldl_append

/-- The code moves the stack pointer by `depth`, changes no other registers than those that are
written, and nothing above the stack pointer. -/
structure Effect (written : Reg → Prop) (depth : Int) (code : List Insn) : Prop where
  base : ∀ m, (runAll arith callee code m).regs .rbp = m.regs .rbp
  top : ∀ m, (runAll arith callee code m).regs .rsp = m.regs .rsp + depth
  regs : ∀ m r, r ≠ .rsp → ¬written r → (runAll arith callee code m).regs r = m.regs r
  stack : ∀ m address, m.regs .rsp ≤ address →
    (runAll arith callee code m).stack address = m.stack address

end

theorem effect_nil : Effect arith callee written 0 [] where
  base _ := rfl
  top _ := (Int.add_zero _).symm
  regs _ _ _ _ := rfl
  stack _ _ _ := rfl

theorem Effect.mono (h : Effect arith callee written depth code)
    (hMore : ∀ r, written r → written' r) :
    Effect arith callee written' depth code :=
  { h with regs := fun m r hRsp hNot => h.regs m r hRsp fun hWritten => hNot (hMore r hWritten) }

theorem Effect.append (h : Effect arith callee written depth code)
    (h' : Effect arith callee written depth' code') (hDown : depth ≤ 0) :
    Effect arith callee written (depth + depth') (code ++ code') where
  base m := by rw [runAll_append, h'.base, h.base]
  top m := by rw [runAll_append, h'.top, h.top, Int.add_assoc]
  regs m r hRsp hNot := by rw [runAll_append, h'.regs _ r hRsp hNot, h.regs _ r hRsp hNot]
  stack m address hAbove := by
    have hTop := h.top m
    rw [runAll_append, h'.stack _ address (by omega), h.stack m address hAbove]

theorem Effect.then (h : Effect arith callee written 0 code)
    (h' : Effect arith callee written depth code') :
    Effect arith callee written depth (code ++ code') := by
  have hBoth := h.append h' (Int.le_refl 0)
  rwa [Int.zero_add] at hBoth

variable (regs : List Reg)

section

/-- The registers that an instruction without the stack writes. -/
def Insn.dests : Insn → List Reg
  | .movRImm64 reg _ | .movRRbpdisp reg _ => [reg]
  | .movRR dst _ => [dst]
  | insn => insn.computed

/-- The instruction does not write to the stack, and does not move the stack pointer. -/
def Insn.quiet (insn : Insn) : Bool :=
  match insn with
  | .movRbpdispR .. | .subRspImm32 _ | .addRspImm32 _ | .movRspRbp | .push _ | .pop _
  | .call _ => false
  | _ => .rsp ∉ insn.dests ∧ .rbp ∉ insn.dests

theorem foldl_setReg (value : Reg → Int) (m : Machine) :
    (regs.foldl (fun m' r => m'.setReg r (value r)) m).stack = m.stack ∧
      ∀ r, r ∉ regs → (regs.foldl (fun m' r => m'.setReg r (value r)) m).regs r =
        m.regs r := by
  induction regs generalizing m with
  | nil => exact ⟨rfl, fun _ _ => rfl⟩
  | cons first rest ih =>
    obtain ⟨hStack, hRegs⟩ := ih (m.setReg first (value first))
    refine ⟨hStack, fun r hr => ?_⟩
    rw [mem_cons, not_or] at hr
    exact (hRegs r hr.2).trans (m.setReg_of_ne hr.1 _)

theorem run_quiet {insn : Insn} (h : insn.quiet = true) (m : Machine) :
    (insn.run arith callee m).stack = m.stack ∧
      ∀ r, r ∉ insn.dests → (insn.run arith callee m).regs r = m.regs r := by
  cases insn with
  | movRbpdispR | subRspImm32 | addRspImm32 | movRspRbp | push | pop | call => cases h
  | movRImm64 | movRR | movRRbpdisp =>
    exact ⟨rfl, fun r hr => m.setReg_of_ne (ne_of_not_mem_cons hr) _⟩
  | cmp | test => exact ⟨rfl, fun _ _ => rfl⟩
  | _ => exact foldl_setReg _ _ m

theorem effect_quiet (hQuiet : code.all Insn.quiet = true)
    (hWritten : ∀ insn ∈ code, ∀ r ∈ insn.dests, written r) :
    Effect arith callee written 0 code := by
  have hRun : ∀ m, (runAll arith callee code m).stack = m.stack ∧
      ∀ r, (∀ insn ∈ code, r ∉ insn.dests) →
        (runAll arith callee code m).regs r = m.regs r := by
    clear hWritten
    induction code with
    | nil => exact fun m => ⟨rfl, fun _ _ => rfl⟩
    | cons insn rest ih =>
      intro m
      rw [all_cons, Bool.and_eq_true] at hQuiet
      obtain ⟨hStack, hRegs⟩ := @run_quiet arith callee insn hQuiet.1 m
      obtain ⟨hStack', hRegs'⟩ := ih hQuiet.2 (insn.run arith callee m)
      refine ⟨hStack'.trans hStack, fun r hr => ?_⟩
      rw [forall_mem_cons] at hr
      exact (hRegs' r hr.2).trans (hRegs r hr.1)
  have hPointers : ∀ insn ∈ code, .rsp ∉ insn.dests ∧ .rbp ∉ insn.dests := by
    intro insn hInsn
    have h := all_eq_true.mp hQuiet insn hInsn
    cases insn with
    | movRbpdispR | subRspImm32 | addRspImm32 | movRspRbp | push | pop | call => cases h
    | _ => exact of_decide_eq_true h
  exact {
    base := fun m => (hRun m).2 .rbp fun insn hInsn => (hPointers insn hInsn).2
    top := fun m => ((hRun m).2 .rsp fun insn hInsn =>
      (hPointers insn hInsn).1).trans (Int.add_zero _).symm
    regs := fun m r _ hNot => (hRun m).2 r fun insn hInsn hMem => hNot (hWritten insn hInsn r hMem)
    stack := fun m address _ => congrFun (hRun m).1 address }

end

section

theorem effect_push (r : Reg) : Effect arith callee written (-8) [.push r] where
  base m := (m.setCell _ _).setReg_of_ne (by decide) _
  top m := Machine.setReg_self ..
  regs m r hRsp _ := (m.setCell _ _).setReg_of_ne hRsp _
  stack m address hAbove := m.setCell_of_ne (by omega) _

theorem effect_sub (imm : Int) : Effect arith callee written (-imm) [.subRspImm32 imm] where
  base m := m.setReg_of_ne (by decide) _
  top m := Machine.setReg_self ..
  regs m r hRsp _ := m.setReg_of_ne hRsp _
  stack _ _ _ := rfl

theorem effect_add (imm : Int) : Effect arith callee written imm [.addRspImm32 imm] where
  base m := m.setReg_of_ne (by decide) _
  top m := Machine.setReg_self ..
  regs m r hRsp _ := m.setReg_of_ne hRsp _
  stack _ _ _ := rfl

theorem run_pop (hRsp : r ≠ .rsp) (m : Machine) :
    (runAll arith callee [.pop r] m).stack = m.stack ∧
      (runAll arith callee [.pop r] m).regs .rsp = m.regs .rsp + 8 ∧
      (runAll arith callee [.pop r] m).regs r = m.stack (m.regs .rsp) ∧
      ∀ r', r' ≠ .rsp → r' ≠ r →
        (runAll arith callee [.pop r] m).regs r' = m.regs r' := by
  refine ⟨rfl, ?_, Machine.setReg_self .., fun r' hRsp' hNe => ?_⟩
  · exact (Machine.setReg_of_ne _ hRsp.symm _).trans (Machine.setReg_self ..)
  · exact (Machine.setReg_of_ne _ hNe _).trans (m.setReg_of_ne hRsp' _)

section

variable (h : Effect arith callee written 0 code)
include h

theorem Effect.bracket (hRsp : r ≠ .rsp) (hRbp : r ≠ .rbp) :
    Effect arith callee (fun x => written x ∧ x ≠ r) 0 ([.push r] ++ code ++ [.pop r]) := by
  have hPush : Effect arith callee written (-8) [.push r] := effect_push r
  have hInner := hPush.append h (by decide)
  have hPop := fun m => @run_pop arith callee r hRsp (runAll arith callee ([.push r] ++ code) m)
  have hValue : ∀ m, (runAll arith callee ([.push r] ++ code) m).stack
      (m.regs .rsp - 8) = m.regs r := by
    intro m
    have hTop := hPush.top m
    rw [runAll_append, h.stack _ _ (by omega)]
    exact m.setCell_self _ _
  constructor
  · intro m
    rw [runAll_append, (hPop m).2.2.2 .rbp (by decide) hRbp.symm, hInner.base]
  · intro m
    rw [runAll_append, (hPop m).2.1, hInner.top]
    omega
  · intro m x hx hNot
    rw [runAll_append]
    by_cases hSame : x = r
    · have hTop := hInner.top m
      rw [hSame, (hPop m).2.2.1, hTop]
      exact hValue m
    · rw [(hPop m).2.2.2 x hx hSame, hInner.regs m x hx fun hWritten => hNot ⟨hWritten, hSame⟩]
  · intro m address hAbove
    rw [runAll_append, (hPop m).1, hInner.stack m address hAbove]

/-- Registers that are pushed before and popped behind in the other order keep their values. -/
theorem Effect.saved (regs : List Reg) (hRegs : ∀ r ∈ regs, r ≠ .rsp ∧ r ≠ .rbp) :
    Effect arith callee (fun x => written x ∧ x ∉ regs) 0
      (regs.map .push ++ code ++ regs.reverse.map .pop) := by
  induction regs with
  | nil =>
    rw [map_nil, nil_append, reverse_nil, map_nil, append_nil]
    exact h.mono fun x hx => ⟨hx, not_mem_nil⟩
  | cons r rest ih =>
    rw [forall_mem_cons] at hRegs
    have hOuter := (ih hRegs.2).bracket hRegs.1.1 hRegs.1.2
    have hCode : (r :: rest).map Insn.push ++ code ++ (r :: rest).reverse.map .pop =
        [.push r] ++ (rest.map .push ++ code ++ rest.reverse.map .pop) ++ [.pop r] := by
      simp
    rw [hCode]
    refine hOuter.mono fun x hx => ⟨hx.1.1, fun hMem => ?_⟩
    exact (mem_cons.mp hMem).elim hx.2 hx.1.2

theorem Effect.padded (count : Nat) :
    Effect arith callee written 0
      (padding count (.subRspImm32 8) ++ code ++ padding count (.addRspImm32 8)) := by
  unfold padding
  split
  · exact ((effect_sub 8).append h (by decide)).append (effect_add 8) (by decide)
  · rw [nil_append, append_nil]
    exact h

end

theorem run_pops (hRegs : ∀ r ∈ regs, r ≠ .rsp ∧ r ≠ .rbp) (m : Machine) :
    (runAll arith callee (regs.map .pop) m).stack = m.stack ∧
      (runAll arith callee (regs.map .pop) m).regs .rsp = m.regs .rsp + 8 * regs.length ∧
      ∀ r, r ≠ .rsp → r ∉ regs →
        (runAll arith callee (regs.map .pop) m).regs r = m.regs r := by
  induction regs generalizing m with
  | nil => exact ⟨rfl, (Int.add_zero _).symm, fun _ _ _ => rfl⟩
  | cons r rest ih =>
    rw [forall_mem_cons] at hRegs
    have hFirst := @run_pop arith callee r hRegs.1.1 m
    obtain ⟨hStack, hTop, hOther⟩ := ih hRegs.2 (runAll arith callee [.pop r] m)
    refine ⟨hStack.trans hFirst.1, ?_, fun x hx hNot => ?_⟩
    · have hAll : (runAll arith callee ((r :: rest).map .pop) m).regs .rsp =
          m.regs .rsp + 8 + 8 * rest.length := hTop.trans (by rw [hFirst.2.1])
      rw [hAll, length_cons]
      omega
    · rw [mem_cons, not_or] at hNot
      exact (hOther x hx hNot.2).trans (hFirst.2.2.2 x hx hNot.1)

theorem effect_pops (hRegs : ∀ r ∈ regs, r ≠ .rsp ∧ r ≠ .rbp)
    (hWritten : ∀ r ∈ regs, written r) :
    Effect arith callee written (8 * regs.length) (regs.map .pop) where
  base m := (run_pops regs hRegs m).2.2 .rbp (by decide) fun hMem => (hRegs _ hMem).2 rfl
  top m := (run_pops regs hRegs m).2.1
  regs m r hRsp hNot := (run_pops regs hRegs m).2.2 r hRsp fun hMem => hNot (hWritten r hMem)
  stack m address _ := congrFun (run_pops regs hRegs m).1 address

theorem effect_call (hCallee : ∀ m, Returns m (callee m)) (rel : Int) :
    Effect arith callee (· ∉ calleeSaved) 0 [.call rel] where
  base m := (hCallee m).regs .rbp (by decide)
  top m := ((hCallee m).regs .rsp (by decide)).trans (Int.add_zero _).symm
  regs m r _ hNot := (hCallee m).regs r (not_not.mp hNot)
  stack m address hAbove := (hCallee m).stack address hAbove

end

end Casprix.Jit
