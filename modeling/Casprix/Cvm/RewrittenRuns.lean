import Casprix.Cvm.Rewriting

/-! The runs of a function and of a rewritten one show the same, when every rule matches what
the instructions it relates do. -/
namespace Casprix.Cvm

open Function Mir Library List

section

variable {Heap : Type} {opt : MirFunction → MirFunction} {rules : MirFunction → RewriteRules}
  {host : CvmHost Heap} {loop : CvmLoop Heap} {frame frame' : CvmFrame}
  {callers callers' : List CvmFrame} {vm vm' : CvmState Heap}

/-- What a rewriting keeps of every function, apart from its instructions. -/
structure KeepsShape (loop : CvmLoop Heap) (opt : MirFunction → MirFunction)
    (rules : MirFunction → RewriteRules) : Prop where
  name_eq : ∀ f, (opt f).name = f.name
  params_eq : ∀ f, (opt f).params = f.params
  length_eq : ∀ f, (opt f).blocks.length = f.blocks.length
  entryOk_eq : ∀ f, loop.entryOk (opt f) = loop.entryOk f
  slots : ∀ f id, (rules f).visible id → SameSlot f (opt f) id
  insts : ∀ f b, Rewritten (rules f) b (f.insts b) ((opt f).insts b)

section

variable (hShape : KeepsShape loop opt rules) (h : FrameRelated opt rules frame frame')
include hShape h

theorem KeepsShape.enter
    (target : MirBlockRef) : FrameRelated opt rules (frame.enter target) (frame'.enter target) where
  func_eq := h.func_eq
  regs_eq := h.regs_eq
  allocas_eq := h.allocas_eq
  block_eq := rfl
  prev_eq := h.block_eq
  rest b hBlock := by
    have hTarget : target = some b := hBlock
    have hFunc : frame'.func.insts b = (opt frame.func).insts b := by rw [h.func_eq]
    subst hTarget
    show Rewritten (rules frame.func) b (frame.func.insts b) (frame'.func.insts b)
    rw [hFunc]
    exact hShape.insts frame.func b

theorem KeepsShape.nextBlock : frame'.nextBlock = frame.nextBlock := by
  unfold CvmFrame.nextBlock
  rw [h.block_eq, h.func_eq, hShape.length_eq]

end

theorem startRegs_eq {f f' : MirFunction} (hParams : f'.params = f.params) {id : MirValueId}
    (hSlot : SameSlot f f' id) (hIn : id < cvmRegCount f) (args : List CvmReg) :
    startRegs f' args id = startRegs f args id := by
  have hIn' : id < cvmRegCount f' := Nat.lt_of_not_le fun hOut => hIn.not_ge (hSlot.mpr hOut)
  unfold startRegs
  rw [hParams]
  suffices hFold : ∀ (assigned : List (MirParam × CvmReg))
    (regs regs' : MirValueId → Option CvmReg),
      regs' id = regs id →
      assigned.foldl (fun (regs : MirValueId → Option CvmReg) p =>
        if p.1.valueId = 0 ∨ cvmRegCount f' ≤ p.1.valueId then regs
        else update regs p.1.valueId (some p.2)) regs' id =
      assigned.foldl (fun (regs : MirValueId → Option CvmReg) p =>
        if p.1.valueId = 0 ∨ cvmRegCount f ≤ p.1.valueId then regs
        else update regs p.1.valueId (some p.2)) regs id from
    hFold (f.params.zip args) _ _ rfl
  intro assigned
  induction assigned with
  | nil => exact fun regs regs' hSame => hSame
  | cons p assigned ih =>
    intro regs regs' hSame
    rw [foldl_cons, foldl_cons]
    apply ih
    by_cases hParam : p.1.valueId = id
    · rw [hParam]
      simp only [hIn.not_ge, hIn'.not_ge, or_false]
      split
      · exact hSame
      · rw [update_self, update_self]
    · have hOther : id ≠ p.1.valueId := fun hEq => hParam hEq.symm
      split <;> split <;> simp only [update_of_ne hOther, hSame]

theorem KeepsShape.startFrame (hShape : KeepsShape loop opt rules) (f : MirFunction)
    (args : List CvmReg) : FrameRelated opt rules (startFrame f args)
      (startFrame (opt f) args) where
  func_eq := rfl
  regs_eq id hVisible := by
    have hSlot : SameSlot f (opt f) id := hShape.slots f id hVisible
    show (if id = 0 ∨ cvmRegCount (opt f) ≤ id then 0 else (startRegs (opt f) args id).getD 0) =
      if id = 0 ∨ cvmRegCount f ≤ id then 0 else (startRegs f args id).getD 0
    by_cases hOut : id = 0 ∨ cvmRegCount f ≤ id
    · rw [if_pos hOut, if_pos (hOut.imp_right hSlot.mp)]
    · rw [if_neg hOut, if_neg fun hOut' => hOut (hOut'.imp_right hSlot.mpr)]
      rw [not_or] at hOut
      rw [startRegs_eq (hShape.params_eq f) hSlot (Nat.lt_of_not_le hOut.2)]
  allocas_eq := rfl
  block_eq := by
    have hNil : (opt f).blocks = [] ↔ f.blocks = [] := by
      rw [← length_eq_zero_iff, hShape.length_eq, length_eq_zero_iff]
    simp only [Cvm.startFrame, hNil]
  prev_eq := rfl
  rest b hBlock := by
    have hEntry : b = 0 := by
      simp only [Cvm.startFrame] at hBlock
      split at hBlock
      · cases hBlock
      · exact (Option.some.inj hBlock).symm
    rw [hEntry]
    exact hShape.insts f 0

theorem resume_related (hCallers : List.Forall₂ (WaitingRelated opt rules) callers callers')
    (hVm : VmRelated opt vm vm') (value : CvmReg) :
    ConfigRelated opt rules (resume host callers vm value) (resume host callers' vm' value) := by
  induction hCallers generalizing vm vm' value with
  | nil => exact .returned value hVm
  | @cons frame frame' callers callers' hWaiting hCallers ih =>
    obtain ⟨hFrame, hState⟩ := hWaiting.toFrameRelated.set hVm hWaiting.slot value
    simp only [resume, hWaiting.resultId_eq]
    by_cases hTrap : (cvmRegSet frame frame.resultId value vm).2.trapCode = 0
    · rw [if_neg (not_not_intro hTrap), if_neg (not_not_intro (hState.trapCode_eq.trans hTrap))]
      exact .running hFrame hCallers hState
    · rw [if_pos hTrap, if_pos fun hNone => hTrap (hState.trapCode_eq.symm.trans hNone),
        hState.heap_eq, hWaiting.allocas_eq]
      exact ih (hState.withHeap _) 0

theorem leave_related (h : FrameRelated opt rules frame frame')
    (hCallers : List.Forall₂ (WaitingRelated opt rules) callers callers')
    (hVm : VmRelated opt vm vm') (value : CvmReg) :
    ConfigRelated opt rules (leave host frame callers vm value)
      (leave host frame' callers' vm' value) := by
  unfold leave
  rw [hVm.heap_eq, h.allocas_eq]
  exact resume_related hCallers (hVm.withHeap _) value

variable (host) in
theorem KeepsShape.cvmExecFunction (hShape : KeepsShape loop opt rules)
    (hCallers : List.Forall₂ (WaitingRelated opt rules) callers callers')
    (hVm : VmRelated opt vm vm') (func : MirFunction) (args : List CvmReg) :
    ConfigRelated opt rules (cvmExecFunction host loop callers vm func args)
      (cvmExecFunction host loop callers' vm' (opt func) args) := by
  unfold Cvm.cvmExecFunction
  rw [hCallers.length_eq, hShape.entryOk_eq]
  split
  · exact resume_related hCallers (hVm.trap 2) 0
  · split
    · exact .running (hShape.startFrame func args) hCallers hVm
    · exact .crashed

/-- The two instructions do the same in these frames, which were just fetched for them. -/
structure DoesSame (loop : CvmLoop Heap) (opt : MirFunction → MirFunction)
    (rules : MirFunction → RewriteRules) (frame frame' : CvmFrame) (inst inst' : MirInst)
    (vm vm' : CvmState Heap) : Prop where
  result_eq : inst'.result = inst.result
  slot : SameSlot frame.func (opt frame.func) inst.result
  suspensions_eq : frame'.suspensions inst'.op = frame.suspensions inst.op
  outcome : OutcomeRelated opt rules (loop.exec frame inst vm) (loop.exec frame' inst' vm')

variable (host) in
theorem KeepsShape.settle (hShape : KeepsShape loop opt rules) {outcome outcome' : CvmOutcome Heap}
    (h : WaitingRelated opt rules frame frame')
    (hCallers : List.Forall₂ (WaitingRelated opt rules) callers callers')
    (hOutcome : OutcomeRelated opt rules outcome outcome') :
    ConfigRelated opt rules (settle host loop frame callers outcome)
      (settle host loop frame' callers' outcome') := by
  cases hOutcome with
  | next hFrame hVm =>
    simp only [Cvm.settle]
    rw [hVm.trapCode_eq]
    split
    · exact leave_related hFrame hCallers hVm 0
    · exact .running hFrame hCallers hVm
  | jump target hVm => exact .running (hShape.enter h.toFrameRelated target) hCallers hVm
  | done value hVm => exact leave_related h.toFrameRelated hCallers hVm value
  | enter callee args hVm => exact hShape.cvmExecFunction host (.cons h hCallers) hVm callee args
  | crash => exact .crashed

end

section

variable {Heap : Type}

def CvmFrame.withRegs (frame : CvmFrame) (regs : MirValueId → Option CvmReg) : CvmFrame :=
  { frame with regs := regs }

/-- Executing an instruction has no effect but on registers that are not visible. -/
def OnlyHides (loop : CvmLoop Heap) (visible : MirValueId → Prop)
    (frame : CvmFrame) (inst : MirInst)
    (vm : CvmState Heap) (regs : MirValueId → Option CvmReg) : Prop :=
  vm.trapCode = 0 ∧ frame.suspensions inst.op = [] ∧
    loop.exec frame inst vm = .next (frame.withRegs regs) vm ∧
    ∀ id, visible id → (frame.withRegs regs).reg id = frame.reg id

/-- Each rule matches what the instructions it relates do, in the good configurations. -/
structure SoundRules (loop : CvmLoop Heap) (opt : MirFunction → MirFunction)
    (rules : MirFunction → RewriteRules) (good : CvmConfig Heap → Prop) : Prop
    extends KeepsShape loop opt rules where
  kept : ∀ {frame frame' : CvmFrame} {callers : List CvmFrame} {vm vm' : CvmState Heap}
      {b : MirBlockId} {inst inst' : MirInst} {rest rest' : List MirInst},
    good (.running frame callers vm) → frame.block = some b → frame.rest = inst :: rest →
    (rules frame.func).kept b inst rest inst' →
    FrameRelated opt rules (frame.fetch inst rest) (frame'.fetch inst' rest') →
    VmRelated opt vm.tick vm'.tick →
    DoesSame loop opt rules (frame.fetch inst rest) (frame'.fetch inst' rest') inst inst' vm.tick
      vm'.tick
  dropped : ∀ {frame : CvmFrame} {callers : List CvmFrame} {vm : CvmState Heap} {b : MirBlockId}
      {inst : MirInst} {rest : List MirInst},
    good (.running frame callers vm) → frame.block = some b → frame.rest = inst :: rest →
    (rules frame.func).dropped b inst rest →
    ∃ regs, OnlyHides loop (rules frame.func).visible (frame.fetch inst rest) inst vm.tick regs
  preceded : ∀ {frame frame' : CvmFrame} {callers : List CvmFrame} {vm vm' : CvmState Heap}
      {b : MirBlockId} {inst extra inst' : MirInst} {rest rest' : List MirInst},
    good (.running frame callers vm) → frame.block = some b → frame.rest = inst :: rest →
    (rules frame.func).preceded b inst rest extra inst' →
    FrameRelated opt rules (frame.fetch inst rest) (frame'.fetch inst' rest') →
    VmRelated opt vm.tick vm'.tick →
    ∃ regs, OnlyHides loop (rules frame.func).visible (frame'.fetch extra (inst' :: rest')) extra
        vm'.tick regs ∧
      DoesSame loop opt rules (frame.fetch inst rest)
        ((frame'.withRegs regs).fetch inst' rest') inst inst' vm.tick vm'.tick.tick

variable {opt : MirFunction → MirFunction} {rules : MirFunction → RewriteRules}
  {host : CvmHost Heap} {loop : CvmLoop Heap} {frame frame' : CvmFrame}
  {callers callers' : List CvmFrame} {vm vm' : CvmState Heap} {b : MirBlockId}
  {inst inst' : MirInst} {rest rest' : List MirInst} {good : CvmConfig Heap → Prop}

theorem step_running_inst (hBlock : frame.block = some b) (hRest : frame.rest = inst :: rest) :
    step host loop (.running frame callers vm) =
      some (settle host loop (frame.fetch inst rest) callers
      (loop.exec (frame.fetch inst rest) inst vm.tick)) := by
  simp only [step, hBlock, hRest]

variable (callers vm) in
theorem suspensions_running (hBlock : frame.block = some b) (hRest : frame.rest = inst :: rest) :
    (CvmConfig.running frame callers vm).suspensions = frame.suspensions inst.op := by
  simp only [CvmConfig.suspensions, hBlock, hRest]

/-- The configurations and the suspensions so far are related. -/
def TraceRelated (opt : MirFunction → MirFunction) (rules : MirFunction → RewriteRules)
    (c c' : CvmConfig Heap × List (MirBlockRef × CvmReg)) : Prop :=
  ConfigRelated opt rules c.1 c'.1 ∧ c'.2 = c.2

/-- The instructions left of a block. -/
def CvmConfig.left : CvmConfig Heap → Nat
  | .running frame _ _ => frame.rest.length
  | _ => 0

theorem ConfigRelated.observed_eq {c c' : CvmConfig Heap} (h : ConfigRelated opt rules c c') :
    c'.observed = c.observed := by
  cases h with
  | running _ _ hVm => exact congrArg (fun events => some (none, events)) hVm.events_eq
  | returned value hVm =>
    simp only [CvmConfig.observed, hVm.trapCode_eq, hVm.events_eq]
  | crashed => rfl

theorem FrameRelated.fetch (h : FrameRelated opt rules frame frame') (hBlock : frame.block = some b)
    (hRest : Rewritten (rules frame.func) b rest rest') :
    FrameRelated opt rules (frame.fetch inst rest) (frame'.fetch inst' rest') where
  func_eq := h.func_eq
  regs_eq := h.regs_eq
  allocas_eq := h.allocas_eq
  block_eq := h.block_eq
  prev_eq := h.prev_eq
  rest b' hBlock' := by
    rw [show b' = b from Option.some.inj (hBlock'.symm.trans hBlock)]
    exact hRest

theorem traced_of_step {c d : CvmConfig Heap} {log : List (MirBlockRef × CvmReg)}
    (h : step host loop c = some d) :
    traced (step host loop) CvmConfig.suspensions (c, log) = some (d, log ++ c.suspensions) := by
  rw [traced, h, Option.map_some]

theorem follows_of_step {c d c' d' : CvmConfig Heap} {log : List (MirBlockRef × CvmReg)}
    (h : ConfigRelated opt rules c c') (hStep : step host loop c' = some d')
    (hShown : c'.suspensions = c.suspensions) (hNext : ConfigRelated opt rules d d') :
    ∃ n, TraceRelated opt rules (d, log ++ c.suspensions)
        (runFor (traced (step host loop) CvmConfig.suspensions) n (c', log)) ∧
      (n = 0 → d.left < c.left) ∧ ∀ k < n, observedTrace
        (runFor (traced (step host loop) CvmConfig.suspensions) k (c', log)) =
          observedTrace (c, log) := by
  refine ⟨1, ?_, by omega, fun k hk => ?_⟩
  · rw [runFor_succ_of_some (traced_of_step hStep)]
    exact ⟨hNext, congrArg (log ++ ·) hShown⟩
  · rw [Nat.lt_one_iff.mp hk]
    exact congrArg (·, log) h.observed_eq

variable (host) in
/-- An instruction is executed in the function: the rewritten one executes what it became. -/
theorem follows_inst (hSound : SoundRules loop opt rules good)
    (h : FrameRelated opt rules frame frame')
    (hCallers : List.Forall₂ (WaitingRelated opt rules) callers callers')
    (hVm : VmRelated opt vm vm') (hGood : good (.running frame callers vm))
    (hBlock : frame.block = some b) (hRest : frame.rest = inst :: rest)
    (log : List (MirBlockRef × CvmReg)) :
    ∃ n, TraceRelated opt rules
        (settle host loop (frame.fetch inst rest) callers
          (loop.exec (frame.fetch inst rest) inst vm.tick), log ++ frame.suspensions inst.op)
        (runFor (traced (step host loop) CvmConfig.suspensions) n
          (.running frame' callers' vm', log)) ∧
      (n = 0 → (settle host loop (frame.fetch inst rest) callers
          (loop.exec (frame.fetch inst rest) inst vm.tick)).left < frame.rest.length) ∧
      ∀ k < n, observedTrace (runFor (traced (step host loop) CvmConfig.suspensions) k
        (.running frame' callers' vm', log)) = observedTrace (.running frame callers vm, log) := by
  have hBlock' : frame'.block = some b := h.block_eq.trans hBlock
  have hRewritten := h.rest b hBlock
  rw [hRest] at hRewritten
  have hConfig : ConfigRelated opt rules (.running frame callers vm)
      (.running frame' callers' vm') := .running h hCallers hVm
  generalize hLeft : frame'.rest = left at hRewritten
  cases hRewritten with
  | @kept _ inst' _ rest' hRule hTail =>
    have hFetched : FrameRelated opt rules (frame.fetch inst rest) (frame'.fetch inst' rest') :=
      h.fetch hBlock hTail
    have hSame := hSound.kept hGood hBlock hRest hRule hFetched hVm.tick
    have hNext := hSound.toKeepsShape.settle host ⟨hFetched, hSame.result_eq, hSame.slot⟩
      hCallers hSame.outcome
    have hShown : (CvmConfig.running frame' callers' vm').suspensions =
        (CvmConfig.running frame callers vm).suspensions := by
      rw [suspensions_running callers' vm' hBlock' hLeft,
        suspensions_running callers vm hBlock hRest]
      exact hSame.suspensions_eq
    rw [← suspensions_running callers vm hBlock hRest]
    exact follows_of_step hConfig (step_running_inst hBlock' hLeft) hShown hNext
  | dropped hRule hTail =>
    obtain ⟨regs, hTrap, hShown, hExec, hHidden⟩ := hSound.dropped hGood hBlock hRest hRule
    have hNone : frame.suspensions inst.op = [] := hShown
    have hNext : settle host loop (frame.fetch inst rest) callers
        (loop.exec (frame.fetch inst rest) inst vm.tick) =
        .running ((frame.fetch inst rest).withRegs regs) callers vm.tick := by
      rw [hExec, settle, if_neg (not_not_intro hTrap)]
    rw [hNext, hNone, append_nil]
    refine ⟨0, ⟨.running ⟨h.func_eq, fun id hVisible =>
      ?_, h.allocas_eq, h.block_eq, h.prev_eq,
      fun b' hBlock'' => ?_⟩ hCallers ⟨hVm.module_eq, hVm.heap_eq,
        hVm.trapCode_eq, hVm.events_eq⟩,
      rfl⟩, fun _ => ?_, by omega⟩
    · exact (h.regs_eq id hVisible).trans (hHidden id hVisible).symm
    · rw [show b' = b from Option.some.inj (hBlock''.symm.trans hBlock), hLeft]
      exact hTail
    · rw [hRest]
      exact Nat.lt_succ_self rest.length
  | @preceded _ extra inst' _ rest' hRule hTail =>
    have hFetched : FrameRelated opt rules (frame.fetch inst rest) (frame'.fetch inst' rest') :=
      h.fetch hBlock hTail
    obtain ⟨regs, ⟨hTrap, hShown, hExec, hHidden⟩, hSame⟩ :=
      hSound.preceded hGood hBlock hRest hRule hFetched hVm.tick
    have hFirst : step host loop (.running frame' callers' vm') =
        some (.running ((frame'.fetch extra (inst' :: rest')).withRegs regs)
          callers' vm'.tick) := by
      rw [step_running_inst hBlock' hLeft, hExec, settle, if_neg (not_not_intro hTrap)]
    have hNoneShown : (CvmConfig.running frame' callers' vm').suspensions = [] := by
      rw [suspensions_running callers' vm' hBlock' hLeft]
      exact hShown
    have hMiddle : FrameRelated opt rules (frame.fetch inst rest)
        ((frame'.withRegs regs).fetch inst' rest') :=
      ⟨h.func_eq, fun id hVisible => (hHidden id hVisible).trans (h.regs_eq id hVisible),
        h.allocas_eq, h.block_eq, h.prev_eq, hFetched.rest⟩
    have hSecond : step host loop
        (.running ((frame'.fetch extra (inst' :: rest')).withRegs regs) callers' vm'.tick) =
        some (settle host loop ((frame'.withRegs regs).fetch inst' rest') callers'
          (loop.exec ((frame'.withRegs regs).fetch inst' rest') inst' vm'.tick.tick)) :=
      step_running_inst hBlock' rfl
    have hNext := hSound.toKeepsShape.settle host ⟨hMiddle, hSame.result_eq, hSame.slot⟩
      hCallers hSame.outcome
    have hShownSecond : (CvmConfig.running
        ((frame'.fetch extra (inst' :: rest')).withRegs regs) callers' vm'.tick).suspensions =
        frame.suspensions inst.op := by
      simp only [CvmConfig.suspensions, CvmFrame.withRegs, CvmFrame.fetch, hBlock']
      exact hSame.suspensions_eq
    refine ⟨2, ?_, by omega, fun k hk => ?_⟩
    · rw [runFor_succ_of_some (traced_of_step hFirst),
        runFor_succ_of_some (traced_of_step hSecond),
        hNoneShown, hShownSecond, append_nil]
      exact ⟨hNext, rfl⟩
    · cases k with
      | zero => exact congrArg (·, log) hConfig.observed_eq
      | succ k =>
        rw [show k = 0 by omega, runFor_succ_of_some (traced_of_step hFirst), hNoneShown,
          append_nil]
        exact congrArg (·, log) hConfig.observed_eq

variable (host) in
theorem stutters (hSound : SoundRules loop opt rules good) :
    Stutters (traced (step host loop) CvmConfig.suspensions) observedTrace
      (traced (step host loop) CvmConfig.suspensions) observedTrace (fun c => good c.1)
      (fun c => c.1.left) (@TraceRelated Heap opt rules) where
  shows_eq := by
    rintro ⟨c, log⟩ ⟨c', log'⟩ ⟨hConfig, hLog⟩
    exact congrArg₂ Prod.mk hConfig.observed_eq hLog
  halts := by
    rintro ⟨c, log⟩ ⟨c', log'⟩ ⟨hConfig, _⟩ hStep
    cases hConfig with
    | returned | crashed => rfl
    | @running frame frame' callers callers' vm vm' h hCallers hVm =>
      rw [traced, Option.map_eq_none_iff] at hStep
      cases hBlock : frame.block with
      | none => simp only [step, hBlock, reduceCtorEq] at hStep
      | some b =>
        cases hRest : frame.rest with
        | nil => simp only [step, hBlock, hRest, reduceCtorEq] at hStep
        | cons inst rest => simp only [step, hBlock, hRest, reduceCtorEq] at hStep
  follows := by
    rintro ⟨c, log⟩ ⟨c', log'⟩ ⟨d, log''⟩ ⟨hConfig, hLog⟩ hGood hStep
    cases hLog
    rw [traced, Option.map_eq_some_iff] at hStep
    obtain ⟨next, hNext, hEq⟩ := hStep
    cases hEq
    cases hConfig with
    | returned | crashed => cases hNext
    | @running frame frame' callers callers' vm vm' h hCallers hVm =>
      have hConfig : ConfigRelated opt rules (.running frame callers vm)
          (.running frame' callers' vm') := .running h hCallers hVm
      cases hBlock : frame.block with
      | none =>
        have hBlock' : frame'.block = none := h.block_eq.trans hBlock
        have hLeft : step host loop (.running frame' callers' vm') =
            some (leave host frame' callers' vm' 0) := by
          simp only [step, hBlock']
        have hShown : (CvmConfig.running frame' callers' vm').suspensions =
            (CvmConfig.running frame callers vm).suspensions := by
          simp only [CvmConfig.suspensions, hBlock, hBlock']
        simp only [step, hBlock] at hNext
        cases hNext
        exact follows_of_step hConfig hLeft hShown (leave_related h hCallers hVm 0)
      | some b =>
        have hBlock' : frame'.block = some b := h.block_eq.trans hBlock
        cases hRest : frame.rest with
        | nil =>
          have hRest' : frame'.rest = [] := by
            have hRewritten := h.rest b hBlock
            rw [hRest] at hRewritten
            generalize frame'.rest = left at hRewritten ⊢
            cases hRewritten
            rfl
          have hEnter : step host loop (.running frame' callers' vm') =
              some (.running (frame'.enter frame'.nextBlock) callers' vm') := by
            simp only [step, hBlock', hRest']
          have hShown : (CvmConfig.running frame' callers' vm').suspensions =
              (CvmConfig.running frame callers vm).suspensions := by
            simp only [CvmConfig.suspensions, hBlock, hBlock', hRest, hRest']
          simp only [step, hBlock, hRest] at hNext
          cases hNext
          refine follows_of_step hConfig hEnter hShown (.running ?_ hCallers hVm)
          rw [hSound.toKeepsShape.nextBlock h]
          exact hSound.toKeepsShape.enter h frame.nextBlock
        | cons inst rest =>
          rw [step_running_inst hBlock hRest] at hNext
          cases hNext
          have hFollows := follows_inst host hSound h hCallers hVm hGood hBlock hRest log
          rw [← suspensions_running callers vm hBlock hRest] at hFollows
          exact hFollows

theorem SoundRules.sameBehaviour (hSound : SoundRules loop opt rules good)
    (hVm : VmRelated opt vm vm') (func : MirFunction) (args : List CvmReg)
    (hGood : ∀ n, good (runFor (step host loop) n (cvmExecFunction host loop [] vm func args))) :
    SameBehaviour host loop vm vm' func (opt func) args := by
  apply (stutters host hSound).sameRuns
  · exact ⟨hSound.toKeepsShape.cvmExecFunction host .nil hVm func args, rfl⟩
  · intro n
    rw [fst_runFor_traced]
    exact hGood n

/-- An instruction that reads alike under other names does the same. -/
theorem doesSame_of_readsAlike (hLoop : loop = gotoLoop host ∨ loop = switchLoop host)
    (hName : ∀ f, (opt f).name = f.name) (h : FrameRelated opt rules frame frame')
    (hVm : VmRelated opt vm vm') {rename : MirValueId → MirValueId}
    (hOp : inst'.op = mapOperands rename inst.op) (hResult : inst'.result = inst.result)
    (hSlot : SameSlot frame.func (opt frame.func) inst.result)
    (hReads : ReadsAlike rename frame frame' inst.op) :
    DoesSame loop opt rules frame frame' inst inst' vm vm' where
  result_eq := hResult
  slot := hSlot
  suspensions_eq := by
    rw [hOp]
    exact suspensions_mapOperands hReads
  outcome := exec_related hLoop hName h hVm hOp hResult hSlot hReads

end

section

variable {Heap : Type} {host : CvmHost Heap} {loop : CvmLoop Heap} {func func' : MirFunction}
  {good : CvmConfig Heap → Prop}

/-- The rules for one function. All others stay as they are. -/
def rulesOf (func : MirFunction) (rules : RewriteRules) (f : MirFunction) : RewriteRules :=
  if f = func then rules else .same

@[simp] theorem rulesOf_self (rules : RewriteRules) : rulesOf func rules func = rules := if_pos rfl

/-- Sound rules that take `func` to `func'`. -/
structure SoundFor (loop : CvmLoop Heap) (func func' : MirFunction) (rules : RewriteRules)
    (good : CvmConfig Heap → Prop) : Prop where
  name_eq : func'.name = func.name
  params_eq : func'.params = func.params
  length_eq : func'.blocks.length = func.blocks.length
  entryOk_eq : loop.entryOk func' = loop.entryOk func
  slots : ∀ id, rules.visible id → SameSlot func func' id
  insts : ∀ b, Rewritten rules b (func.insts b) (func'.insts b)
  kept : ∀ {frame frame' : CvmFrame} {callers : List CvmFrame} {vm vm' : CvmState Heap}
      {b : MirBlockId} {inst inst' : MirInst} {rest rest' : List MirInst},
    frame.func = func → good (.running frame callers vm) → frame.block = some b →
    frame.rest = inst :: rest → rules.kept b inst rest inst' →
    FrameRelated (update id func func') (rulesOf func rules) (frame.fetch inst rest)
      (frame'.fetch inst' rest') →
    VmRelated (update id func func') vm.tick vm'.tick →
    DoesSame loop (update id func func') (rulesOf func rules) (frame.fetch inst rest)
      (frame'.fetch inst' rest') inst inst' vm.tick vm'.tick
  dropped : ∀ {frame : CvmFrame} {callers : List CvmFrame} {vm : CvmState Heap} {b : MirBlockId}
      {inst : MirInst} {rest : List MirInst},
    frame.func = func → good (.running frame callers vm) → frame.block = some b →
    frame.rest = inst :: rest → rules.dropped b inst rest →
    ∃ regs, OnlyHides loop rules.visible (frame.fetch inst rest) inst vm.tick regs
  preceded : ∀ {frame frame' : CvmFrame} {callers : List CvmFrame} {vm vm' : CvmState Heap}
      {b : MirBlockId} {inst extra inst' : MirInst} {rest rest' : List MirInst},
    frame.func = func → good (.running frame callers vm) → frame.block = some b →
    frame.rest = inst :: rest → rules.preceded b inst rest extra inst' →
    FrameRelated (update id func func') (rulesOf func rules) (frame.fetch inst rest)
      (frame'.fetch inst' rest') →
    VmRelated (update id func func') vm.tick vm'.tick →
    ∃ regs, OnlyHides loop rules.visible (frame'.fetch extra
      (inst' :: rest')) extra vm'.tick regs ∧
      DoesSame loop (update id func func') (rulesOf func rules) (frame.fetch inst rest)
        ((frame'.withRegs regs).fetch inst' rest') inst inst' vm.tick vm'.tick.tick

variable {rules : RewriteRules}

theorem name_update (h : func'.name = func.name) (f : MirFunction) :
    (update id func func' f).name = f.name := by
  by_cases hFunc : f = func
  · rw [hFunc, update_self, h]
  · rw [update_of_ne hFunc, id]

/-- An instruction of the function that is left as it is does the same, if its operands are
visible. -/
theorem doesSame_unchanged (hLoop : loop = gotoLoop host ∨ loop = switchLoop host)
    (hName : func'.name = func.name) (hSlots : ∀ id, rules.visible id → SameSlot func func' id)
    (hZero : rules.visible 0) {frame frame' : CvmFrame} {vm vm' : CvmState Heap} {inst : MirInst}
    (hFunc : frame.func = func)
    (hFrame : FrameRelated (update id func func') (rulesOf func rules) frame frame')
    (hVm : VmRelated (update id func func') vm vm') (hResult : SameSlot func func' inst.result)
    (hOperands : ∀ id ∈ inst.op.operands, rules.visible id) :
    DoesSame loop (update id func func') (rulesOf func rules) frame frame' inst inst vm vm' := by
  have hRules : rulesOf func rules frame.func = rules := by rw [hFunc, rulesOf_self]
  have hOpt : update id func func' frame.func = func' := by rw [hFunc, update_self]
  have hReads : ReadsAlike id frame frame' inst.op := by
    apply hFrame.readsAlike
    · rw [hRules, hOpt, hFunc]
      exact hSlots
    · rw [hRules]
      exact hZero
    · rw [hRules]
      exact hOperands
  refine doesSame_of_readsAlike hLoop (name_update hName) hFrame hVm
    (mapOperands_id inst.op).symm rfl ?_
    hReads
  rw [hOpt, hFunc]
  exact hResult

theorem SoundFor.keepsShape (h : SoundFor loop func func' rules good) :
    KeepsShape loop (update id func func') (rulesOf func rules) where
  name_eq := name_update h.name_eq
  params_eq f := by
    by_cases hFunc : f = func
    · rw [hFunc, update_self, h.params_eq]
    · rw [update_of_ne hFunc, id]
  length_eq f := by
    by_cases hFunc : f = func
    · rw [hFunc, update_self, h.length_eq]
    · rw [update_of_ne hFunc, id]
  entryOk_eq f := by
    by_cases hFunc : f = func
    · rw [hFunc, update_self, h.entryOk_eq]
    · rw [update_of_ne hFunc, id]
  slots f x hVisible := by
    by_cases hFunc : f = func
    · rw [hFunc, rulesOf_self] at hVisible
      rw [hFunc, update_self]
      exact h.slots x hVisible
    · rw [update_of_ne hFunc]
      exact Iff.rfl
  insts f b := by
    by_cases hFunc : f = func
    · rw [hFunc, update_self, rulesOf_self]
      exact h.insts b
    · rw [update_of_ne hFunc, rulesOf, if_neg hFunc]
      exact rewritten_same b (f.insts b)

section

variable (hLoop : loop = gotoLoop host ∨ loop = switchLoop host)
  (h : SoundFor loop func func' rules good)
include hLoop h

theorem SoundFor.soundRules :
    SoundRules loop (update id func func') (rulesOf func rules) good where
  toKeepsShape := h.keepsShape
  kept {frame frame' callers vm vm' b inst inst' rest rest'} hGood hBlock
    hRest hRule hFrame hVm := by
    by_cases hFunc : frame.func = func
    · rw [hFunc, rulesOf_self] at hRule
      exact h.kept hFunc hGood hBlock hRest hRule hFrame hVm
    · rw [rulesOf, if_neg hFunc] at hRule
      cases hRule
      have hSame : ∀ x, SameReads id (frame.fetch inst rest) (frame'.fetch inst rest') x := by
        intro x
        have hVisible : (rulesOf func rules frame.func).visible x := by
          rw [rulesOf, if_neg hFunc]
          trivial
        refine ⟨hFrame.regs_eq x hVisible, outside_eq_of_sameSlot hFrame.func_eq ?_⟩
        exact h.keepsShape.slots frame.func x hVisible
      have hSlots : ∀ x, SameSlot frame.func (update id func func' frame.func) x := by
        intro x
        rw [update_of_ne hFunc]
        exact Iff.rfl
      refine doesSame_of_readsAlike hLoop h.keepsShape.name_eq hFrame hVm
        (mapOperands_id inst.op).symm
        rfl (hSlots inst.result) ⟨fun x _ => hSame x, fun edges _ => ⟨?_, hSame _⟩,
          fun source _ => ⟨rfl, ?_⟩, fun _ future _ => (hSame future).1⟩
      · rw [map_renameEdge_id, id]
      · rw [hFrame.func_eq]
        exact hSlots source
  dropped {frame callers vm b inst rest} hGood hBlock hRest hRule := by
    by_cases hFunc : frame.func = func
    · rw [hFunc, rulesOf_self] at hRule ⊢
      exact h.dropped hFunc hGood hBlock hRest hRule
    · rw [rulesOf, if_neg hFunc] at hRule
      exact hRule.elim
  preceded {frame frame' callers vm vm' b inst extra inst' rest rest'} hGood
    hBlock hRest hRule hFrame
      hVm := by
    by_cases hFunc : frame.func = func
    · rw [hFunc, rulesOf_self] at hRule ⊢
      exact h.preceded hFunc hGood hBlock hRest hRule hFrame hVm
    · rw [rulesOf, if_neg hFunc] at hRule
      exact hRule.elim

/-- Calls of a function and of what sound rules make of it show the same, in a machine with
either of them in its module. -/
theorem SoundFor.sameBehaviour (vm : CvmState Heap) (args : List CvmReg)
    (hGood : ∀ n, good (runFor (step host loop) n (cvmExecFunction host loop [] vm func args))) :
    SameBehaviour host loop vm (vm.replaceFunction func func') func func' args := by
  have hVm : VmRelated (update id func func') vm (vm.replaceFunction func func') :=
    ⟨rfl, rfl, rfl, rfl⟩
  have hBoth := (h.soundRules hLoop).sameBehaviour hVm func args hGood
  rwa [update_self] at hBoth

end

end

end Casprix.Cvm
