import Casprix.Cvm.Dispatch
import Casprix.Cvm.Rewriting

/-! What holds of every frame of a run, in either loop: of the innermost one, and of each
that waits once the call it made has returned. -/
namespace Casprix.Cvm

open Mir Library List

variable {address : CvmReg} {target : MirBlockRef} {name : Option String}

section

variable {Heap : Type} {host : CvmHost Heap} {loop : CvmLoop Heap} {frame frame' : CvmFrame}
  {vm vm' : CvmState Heap} {inst : MirInst}

/-- What an instruction can do in either loop; in the switch loop a result may be left out. -/
theorem exec_effect (hLoop : loop = gotoLoop host ∨ loop = switchLoop host) :
    Effect True frame inst vm (loop.exec frame inst vm) := by
  cases hLoop with
  | inl hIsGoto =>
    rw [hIsGoto]
    exact execGoto_effect host frame inst vm
  | inr hIsSwitch =>
    rw [hIsSwitch]
    show Effect True frame inst vm (execSwitch host frame inst vm)
    cases hDiffer : loopsDiffer inst.op with
    | false =>
      rw [execSwitch_eq_execGoto hDiffer]
      exact execGoto_effect host frame inst vm
    | true =>
      unfold execSwitch
      generalize touch frame (frame.readIds vm.trapCode inst.op) vm = touched
      cases hOp : inst.op with
      | load | extract =>
        dsimp only
        split
        · exact .keep _ (by rw [hOp]; rfl) fun _ => trivial
        · exact effect_loadNext host (by rw [hOp]; rfl)
      | getFieldPtr | getElemPtr | unary => exact effect_setNext (by rw [hOp]; rfl)
      | callVirtual => exact .keep _ (by rw [hOp]; rfl) fun _ => trivial
      | _ =>
        rw [hOp] at hDiffer
        cases hDiffer

section

variable (hLoop : loop = gotoLoop host ∨ loop = switchLoop host)
include hLoop

/-- Only the slots of the frame change while its block goes on, which it does not do at a
terminator. -/
theorem exec_next (h : loop.exec frame inst vm = .next frame' vm') :
    inst.op.isTerminator = false ∧ Advances frame frame' := by
  have hEffect := @exec_effect _ _ _ frame vm inst hLoop
  rw [h] at hEffect
  exact ⟨(next_of_effect hEffect).1, (next_of_effect hEffect).2.1⟩

theorem exec_advances (h : loop.exec frame inst vm = .next frame' vm') : Advances frame frame' :=
  (exec_next hLoop h).2

theorem exec_jump (h : loop.exec frame inst vm = .jump target vm') :
    vm' = touch frame (branchReads inst.op) vm ∧ ∀ b, target = some b →
      b ∈ inst.op.targets := by
  have hEffect := @exec_effect _ _ _ frame vm inst hLoop
  rw [h] at hEffect
  cases hEffect with
  | jump _ _ hVm hTarget => exact ⟨hVm, hTarget⟩

theorem exec_enter {callee : MirFunction}
    {args : List CvmReg} (h : loop.exec frame inst vm = .enter callee args vm') :
    vm'.trapCode = 0 := by
  have hEffect := @exec_effect _ _ _ frame vm inst hLoop
  rw [h] at hEffect
  cases hEffect with
  | enter hCall hEnter => exact (cvmDispatchCall_enter hEnter).2.1

end

end

def isCall : MirOp → Bool
  | .call .. | .callIndirect .. => true
  | _ => false

/-- Of the registers only the result and the source of a move change, and only calls enter a
function. -/
def Spares {Heap : Type} (frame : CvmFrame) (inst : MirInst) : CvmOutcome Heap → Prop
  | .next frame' _ => ∀ id, id ≠ inst.result →
      (∀ source, inst.op = .transfer .move source → id ≠ source) →
        frame'.reg id = frame.reg id
  | .enter .. => isCall inst.op = true
  | .jump .. | .done .. | .crash => True

section

variable {Heap : Type} {host : CvmHost Heap} {loop : CvmLoop Heap} {frame : CvmFrame}
  {vm : CvmState Heap} {inst : MirInst} {id : MirValueId} {v : CvmReg}

theorem reg_cvmRegSet_of_ne {other : MirValueId} (h : other ≠ id) :
    (cvmRegSet frame id v vm).1.reg other = frame.reg other := by
  rcases cvmRegSet_cases frame id v vm with ⟨_, hSet⟩ | ⟨regs, hSet, hReg⟩
  · rw [hSet]
  · rw [hSet]
    refine (congrFun hReg other).trans ?_
    split
    · rfl
    · exact Function.update_of_ne h _ _

theorem reg_cvmRegSet_self (hId : id ≠ 0) (hTrap : (cvmRegSet frame id v vm).2.trapCode = 0) :
    (cvmRegSet frame id v vm).1.reg id = v := by
  rcases cvmRegSet_cases frame id v vm with ⟨_, hSet⟩ | ⟨regs, hSet, hReg⟩
  · rw [hSet] at hTrap
    cases hTrap
  · rw [hSet]
    refine (congrFun hReg id).trans ?_
    rw [if_neg hId, Function.update_self]

theorem reg_clearMoved_of_ne {other : MirValueId} (h : other ≠ id) :
    (clearMoved frame id).reg other = frame.reg other := by
  unfold clearMoved
  split
  · rfl
  · rw [reg_update, if_neg fun hBoth => h hBoth.1]

theorem exec_spares (hLoop : loop = gotoLoop host ∨ loop = switchLoop host) :
    Spares frame inst (loop.exec frame inst vm) := by
  have hEffect := @exec_effect _ _ _ frame vm inst hLoop
  generalize loop.exec frame inst vm = outcome at hEffect ⊢
  cases hEffect with
  | set allocas value vm' => exact fun other hOther _ => reg_cvmRegSet_of_ne hOther
  | keep => exact fun _ _ _ => rfl
  | move source vm' hOp =>
    exact fun other hOther hMoved =>
      (reg_clearMoved_of_ne (hMoved source hOp)).trans (reg_cvmRegSet_of_ne hOther)
  | enter hCall =>
    cases hOp : inst.op with
    | call | callIndirect => rw [Spares, hOp]; rfl
    | _ => rw [hOp] at hCall; cases hCall
  | jump | done | crash => trivial

end

section

variable {Heap : Type} {host : CvmHost Heap} {loop : CvmLoop Heap}

/-- What every move of a frame keeps: it starts, goes on in its block, at the end of it or in
another, or takes the value of the call it made. -/
structure FrameInvariant (loop : CvmLoop Heap)
    (I : CvmFrame → CvmState Heap → Prop) : Prop where
  start : ∀ func args (vm : CvmState Heap), vm.trapCode = 0 → I (startFrame func args) vm
  falls : ∀ {frame : CvmFrame} {vm : CvmState Heap} {b : MirBlockId}, I frame vm →
    frame.block = some b → frame.rest = [] → I (frame.enter frame.nextBlock) vm
  next : ∀ {frame frame' : CvmFrame} {vm vm' : CvmState Heap} {b : MirBlockId} {inst : MirInst}
      {rest : List MirInst}, I frame vm → frame.block = some b → frame.rest = inst :: rest →
    loop.exec (frame.fetch inst rest) inst vm.tick = .next frame' vm' → vm'.trapCode = 0 →
    I frame' vm'
  jump : ∀ {frame : CvmFrame} {vm vm' : CvmState Heap} {b : MirBlockId} {inst : MirInst}
      {rest : List MirInst} {target : MirBlockRef}, I frame vm → frame.block = some b →
    frame.rest = inst :: rest →
    loop.exec (frame.fetch inst rest) inst vm.tick = .jump target vm' →
    I ((frame.fetch inst rest).enter target) vm'
  returns : ∀ {frame : CvmFrame} {vm vm' vm'' : CvmState Heap} {b : MirBlockId} {inst : MirInst}
      {rest : List MirInst} {callee : MirFunction} {args : List CvmReg} (value : CvmReg),
    I frame vm → frame.block = some b → frame.rest = inst :: rest →
    loop.exec (frame.fetch inst rest) inst vm.tick = .enter callee args vm' →
    (cvmRegSet (frame.fetch inst rest) inst.result value vm'').2.trapCode = 0 →
    I (cvmRegSet (frame.fetch inst rest) inst.result value vm'').1
      (cvmRegSet (frame.fetch inst rest) inst.result value vm'').2

/-- The frame will satisfy the invariant when its call returns. -/
def Awaits (I : CvmFrame → CvmState Heap → Prop) (frame : CvmFrame) : Prop :=
  ∀ (value : CvmReg) (vm : CvmState Heap),
    (cvmRegSet frame frame.resultId value vm).2.trapCode = 0 →
    I (cvmRegSet frame frame.resultId value vm).1 (cvmRegSet frame frame.resultId value vm).2

def CvmConfig.Frames (I : CvmFrame → CvmState Heap → Prop) : CvmConfig Heap → Prop
  | .running frame callers vm => I frame vm ∧ ∀ caller ∈ callers, Awaits I caller
  | _ => True

variable {I : CvmFrame → CvmState Heap → Prop} {frame : CvmFrame} {callers : List CvmFrame}
  {vm : CvmState Heap}

theorem frames_resume (hCallers : ∀ caller ∈ callers, Awaits I caller) (value : CvmReg) :
    (resume host callers vm value).Frames I := by
  induction callers generalizing vm value with
  | nil => trivial
  | cons frame callers ih =>
    have hOthers : ∀ caller ∈ callers, Awaits I caller := fun caller hCaller =>
      hCallers caller (mem_cons_of_mem frame hCaller)
    simp only [resume]
    split
    · exact ih hOthers 0
    · next hGoesOn => exact ⟨hCallers frame mem_cons_self value vm
        (not_not.mp hGoesOn), hOthers⟩

theorem FrameInvariant.cvmExecFunction (h : FrameInvariant loop I)
    (hCallers : ∀ caller ∈ callers, Awaits I caller)
    (hTrap : vm.trapCode = 0) (func : MirFunction)
    (args : List CvmReg) : (cvmExecFunction host loop callers vm func args).Frames I := by
  unfold Cvm.cvmExecFunction
  split
  · exact frames_resume hCallers 0
  · split
    · exact ⟨h.start func args vm hTrap, hCallers⟩
    · trivial

theorem FrameInvariant.step (hLoop : loop = gotoLoop host ∨ loop = switchLoop host)
    (h : FrameInvariant loop I) {c d : CvmConfig Heap} (hFrames : c.Frames I)
    (hStep : step host loop c = some d) : d.Frames I := by
  cases c with
  | returned | crashed => cases hStep
  | running frame callers vm =>
    obtain ⟨hFrame, hCallers⟩ := hFrames
    cases hBlock : frame.block with
    | none =>
      simp only [Cvm.step, hBlock, Option.some.injEq] at hStep
      rw [← hStep]
      exact frames_resume hCallers 0
    | some b =>
      cases hRest : frame.rest with
      | nil =>
        simp only [Cvm.step, hBlock, hRest, Option.some.injEq] at hStep
        rw [← hStep]
        exact ⟨h.falls hFrame hBlock hRest, hCallers⟩
      | cons inst rest =>
        simp only [Cvm.step, hBlock, hRest, Option.some.injEq] at hStep
        rw [← hStep]
        cases hExec : loop.exec (frame.fetch inst rest) inst vm.tick with
        | next frame' vm' =>
          simp only [settle]
          split
          · exact frames_resume hCallers 0
          · next hGoesOn =>
              exact ⟨h.next hFrame hBlock hRest hExec (not_not.mp hGoesOn), hCallers⟩
        | jump target vm' => exact ⟨h.jump hFrame hBlock hRest hExec, hCallers⟩
        | done value vm' => exact frames_resume hCallers value
        | enter callee args vm' =>
          refine h.cvmExecFunction (fun caller hCaller => ?_) (exec_enter hLoop hExec) callee args
          rcases mem_cons.mp hCaller with hNew | hOld
          · rw [hNew]
            exact fun value vm'' hTrap => h.returns value hFrame hBlock hRest hExec hTrap
          · exact hCallers caller hOld
        | crash => trivial

/-- An invariant of frames holds of the running frame throughout. -/
theorem FrameInvariant.run (hLoop : loop = gotoLoop host ∨ loop = switchLoop host)
    (h : FrameInvariant loop I) (hTrap : vm.trapCode = 0) (func : MirFunction) (args : List CvmReg)
    (n : Nat) :
    (runFor (Cvm.step host loop) n (Cvm.cvmExecFunction host loop [] vm func args)).Frames I := by
  apply runFor_induction (h.cvmExecFunction (fun caller hNone => absurd hNone not_mem_nil)
    hTrap func args)
  exact fun c d hFrames hStep => h.step hLoop hFrames hStep

end

/-- What is left of a block is the end of it. -/
def CvmFrame.InFunction (frame : CvmFrame) : Prop :=
  ∀ b, frame.block = some b → frame.rest <:+ frame.func.insts b

/-- The conditions of the branches are inside the register file. -/
def BranchesInside (func : MirFunction) : Prop :=
  ∀ b, ∀ inst ∈ func.insts b, ∀ id ∈ branchReads inst.op, id < cvmRegCount func

section

variable {Heap : Type} {host : CvmHost Heap} {loop : CvmLoop Heap} {func : MirFunction}
  {frame frame' : CvmFrame} {vm : CvmState Heap} {b : MirBlockId} {inst : MirInst}
  {rest : List MirInst}

theorem CvmFrame.InFunction.mem (h : frame.InFunction) (hBlock : frame.block = some b)
    (hRest : frame.rest = inst :: rest) : inst ∈ frame.func.insts b := by
  have hSuffix := h b hBlock
  rw [hRest] at hSuffix
  exact hSuffix.subset mem_cons_self

theorem inFunction_enter (frame : CvmFrame) (target : MirBlockRef) :
    (frame.enter target).InFunction := by
  intro b hBlock
  have hTarget : target = some b := hBlock
  rw [hTarget]
  exact suffix_refl (frame.func.insts b)

theorem CvmFrame.InFunction.advance (h : frame.InFunction) (hBlock : frame.block = some b)
    (hRest : frame.rest = inst :: rest) (hMoved : Advances (frame.fetch inst rest) frame') :
    frame'.InFunction := by
  intro b' hBlock'
  have hSame : b' = b := Option.some.inj (hBlock'.symm.trans (hMoved.block.trans hBlock))
  have hFunc : frame'.func = frame.func := hMoved.func
  have hLeft : frame'.rest = rest := hMoved.rest
  have hSuffix := h b hBlock
  rw [hRest] at hSuffix
  rw [hSame, hFunc, hLeft]
  exact (suffix_cons inst rest).trans hSuffix

/-- A function whose branches look at registers of its file is never run with a trap set. -/
theorem frameInvariant_noTrap (hLoop : loop = gotoLoop host ∨ loop = switchLoop host)
    (hInside : BranchesInside func) : FrameInvariant loop fun frame (vm : CvmState Heap) =>
      frame.InFunction ∧ (frame.func = func → vm.trapCode = 0) where
  start f args vm hTrap := by
    refine ⟨fun b hBlock => ?_, fun _ => hTrap⟩
    have hEntry : b = 0 := by
      simp only [startFrame] at hBlock
      split at hBlock
      · cases hBlock
      · exact (Option.some.inj hBlock).symm
    rw [hEntry]
    exact suffix_refl (f.insts 0)
  falls hFrame _ _ := ⟨inFunction_enter _ _, hFrame.2⟩
  next hFrame hBlock hRest hExec hTrap :=
    ⟨hFrame.1.advance hBlock hRest (exec_advances hLoop hExec), fun _ => hTrap⟩
  jump {frame vm vm' b inst rest target} hFrame hBlock hRest hExec := by
    refine ⟨inFunction_enter _ _, fun hFunc => ?_⟩
    have hOwn : frame.func = func := hFunc
    have hRead : ∀ id ∈ branchReads inst.op, (frame.fetch inst rest).outside id = false := by
      intro id hId
      have hMem := hFrame.1.mem hBlock hRest
      rw [hOwn] at hMem
      have hIn : id < cvmRegCount frame.func := hOwn ▸ hInside b inst hMem id hId
      have hDecided : decide (cvmRegCount frame.func ≤ id) = false :=
        decide_eq_false hIn.not_ge
      show (id != 0 && decide (cvmRegCount frame.func ≤ id)) = false
      rw [hDecided, Bool.and_false]
    rw [(exec_jump hLoop hExec).1, touch_inside hRead]
    exact hFrame.2 hOwn
  returns {frame vm vm' vm'' b inst rest callee args} value hFrame hBlock hRest _ hTrap :=
    ⟨hFrame.1.advance hBlock hRest
      (cvmRegSet_advances _ vm'' inst.result value).1, fun _ => hTrap⟩

/-- When the function is about to make a step of its own there is no trap. -/
def Settled (func : MirFunction) : CvmConfig Heap → Prop
  | .running frame _ vm => frame.func = func → vm.trapCode = 0 ∧ frame.InFunction
  | _ => True

theorem settled_run (hLoop : loop = gotoLoop host ∨ loop = switchLoop host)
    (hInside : BranchesInside func) (hTrap : vm.trapCode = 0) (start : MirFunction)
    (args : List CvmReg) (n : Nat) :
    Settled func (runFor (step host loop) n (cvmExecFunction host loop [] vm start args)) := by
  have hFrames := (frameInvariant_noTrap hLoop hInside).run hLoop hTrap start args n
  cases hConfig : runFor (step host loop) n (cvmExecFunction host loop [] vm start args) with
  | running frame callers vm' =>
    rw [hConfig] at hFrames
    exact fun hFunc => ⟨hFrames.1.2 hFunc, hFrames.1.1⟩
  | returned | crashed => trivial

end

end Casprix.Cvm
