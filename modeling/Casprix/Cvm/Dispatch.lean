import Casprix.Cvm.Machine

/-! Where the two dispatch loops agree. Registers are compared by what they
read as: a slot that was never written reads as zero. -/
namespace Casprix.Cvm

open List Mir Library Function

section

variable {Heap : Type} {host : CvmHost Heap} {frame : CvmFrame} {callers : List CvmFrame}
  {vm : CvmState Heap} {id : MirValueId} {v w : CvmReg}

/-- The frame with every slot written as what it reads as. -/
def CvmFrame.erase (frame : CvmFrame) : CvmFrame :=
  { frame with regs := fun id => some (frame.reg id) }

def CvmOutcome.erase : CvmOutcome Heap → CvmOutcome Heap
  | .next frame vm => .next frame.erase vm
  | .jump target vm => .jump target vm
  | .done value vm => .done value vm
  | .enter callee args vm => .enter callee args vm
  | .crash => .crash

def CvmConfig.erase : CvmConfig Heap → CvmConfig Heap
  | .running frame callers vm => .running frame.erase (callers.map CvmFrame.erase) vm
  | .returned value vm => .returned value vm
  | .crashed => .crashed

variable (frame) in
@[simp] theorem reg_erase : frame.erase.reg = frame.reg := by
  funext id
  by_cases hOut : id = 0 ∨ cvmRegCount frame.func ≤ id
  · have hErased : frame.erase.reg id = 0 := if_pos hOut
    have hZero : frame.reg id = 0 := if_pos hOut
    rw [hErased, hZero]
  · have hErased : frame.erase.reg id = (some (frame.reg id)).getD 0 := if_neg hOut
    exact hErased

@[simp] theorem erase_erase : frame.erase.erase = frame.erase := by
  have hRegs : (fun id => some (frame.erase.reg id)) = fun id => some (frame.reg id) := by
    rw [reg_erase]
  exact congrArg (fun regs => ({ frame with regs := regs } : CvmFrame)) hRegs

theorem erase_update_erase :
    ({ frame.erase with regs := update frame.erase.regs id (some v) } : CvmFrame).erase =
      ({ frame with regs := update frame.regs id (some v) } : CvmFrame).erase := by
  have hSame : ∀ other,
      ({ frame.erase with regs := update frame.erase.regs id (some v) } : CvmFrame).reg other =
        ({ frame with regs := update frame.regs id (some v) } : CvmFrame).reg other := by
    intro other
    rw [reg_update frame.erase, reg_update frame, reg_erase]
    rfl
  unfold CvmFrame.erase at hSame ⊢
  congr 1
  funext other
  exact congrArg some (hSame other)

theorem cvmRegSet_erase :
    (cvmRegSet frame.erase id v vm).1.erase = (cvmRegSet frame id v vm).1.erase ∧
      (cvmRegSet frame.erase id v vm).2 = (cvmRegSet frame id v vm).2 := by
  have hFunc : frame.erase.func = frame.func := rfl
  simp only [cvmRegSet, hFunc]
  split
  · exact ⟨erase_erase, rfl⟩
  · split
    · exact ⟨erase_erase, rfl⟩
    · exact ⟨erase_update_erase, rfl⟩

theorem setNext_erase : (setNext frame.erase id v vm).erase = (setNext frame id v vm).erase := by
  simp only [setNext, CvmOutcome.erase, cvmRegSet_erase]

theorem readIds_erase (trapCode : Nat) (op : MirOp) :
    frame.erase.readIds trapCode op = frame.readIds trapCode op := by
  unfold CvmFrame.readIds
  rw [reg_erase]
  rfl

theorem touch_erase (ids : List MirValueId) : touch frame.erase ids vm = touch frame ids vm := rfl

theorem clearMoved_erase :
    (clearMoved frame.erase id).erase = (clearMoved frame id).erase := by
  have hFunc : frame.erase.func = frame.func := rfl
  unfold clearMoved
  rw [hFunc]
  split
  · exact erase_erase
  · exact erase_update_erase

theorem clearMoved_congr {frame' : CvmFrame} (h : frame.erase = frame'.erase) :
    (clearMoved frame id).erase = (clearMoved frame' id).erase := by
  rw [← clearMoved_erase, h, clearMoved_erase]

theorem cvmDispatchCall_erase {name : Option String} {args : List MirValueId} :
    (cvmDispatchCall frame.erase id name args vm).erase =
      (cvmDispatchCall frame id name args vm).erase := by
  simp only [cvmDispatchCall, reg_erase]
  split
  · exact setNext_erase
  · split
    · split
      · exact setNext_erase
      · split
        · rfl
        · exact setNext_erase
    · split
      · exact setNext_erase
      · rfl

theorem allocNext_erase {bytes : Nat} {tracked : Bool} :
    (allocNext host frame.erase id bytes tracked vm).erase =
      (allocNext host frame id bytes tracked vm).erase := by
  unfold allocNext
  split
  · next mem heap hAlloc =>
      cases tracked with
      | false => exact setNext_erase
      | true =>
        let tracked : CvmFrame := { frame with allocas := frame.allocas ++ [mem] }
        show (setNext tracked.erase id mem _).erase = (setNext tracked id mem _).erase
        exact setNext_erase
  · rfl

theorem storeNext_erase {ptr value : MirValueId} :
    (storeNext host frame.erase ptr value vm).erase =
      (storeNext host frame ptr value vm).erase := by
  unfold storeNext
  rw [reg_erase]
  split
  · show CvmOutcome.next _ _ = CvmOutcome.next _ _
    rw [erase_erase]
  · split
    · show CvmOutcome.next _ _ = CvmOutcome.next _ _
      rw [erase_erase]
    · rfl

theorem loadNext_erase {address : CvmReg} :
    (loadNext host frame.erase id address vm).erase =
      (loadNext host frame id address vm).erase := by
  unfold loadNext
  split
  · exact setNext_erase
  · rfl

/-- The switch loop looks at what registers read as only. -/
theorem execSwitch_erase (inst : MirInst) :
    (execSwitch host frame.erase inst vm).erase = (execSwitch host frame inst vm).erase := by
  have hNext : ∀ vm : CvmState Heap,
      (CvmOutcome.next frame.erase vm).erase = (CvmOutcome.next frame vm).erase := by
    intro vm
    show CvmOutcome.next _ _ = CvmOutcome.next _ _
    rw [erase_erase]
  have hPrev : frame.erase.prev = frame.prev := rfl
  unfold execSwitch
  rw [readIds_erase, touch_erase, reg_erase, hPrev]
  generalize touch frame (frame.readIds vm.trapCode inst.op) vm = vm
  cases inst.op with
  | transfer op source =>
    cases op with
    | move =>
      simp only [CvmOutcome.erase, cvmRegSet_erase, clearMoved_congr cvmRegSet_erase.1]
    | copy | borrow | borrowMut => exact setNext_erase
  | load _ | extract _ _ =>
    dsimp only
    split
    · exact hNext vm
    · exact loadNext_erase
  | store ptr value => exact storeNext_erase
  | alloca | objAlloc => exact allocNext_erase
  | call | callIndirect => exact cvmDispatchCall_erase
  | br | condbr | switch | ret | retVoid | unreachable => rfl
  | constInt | constFloat | constBool | constString | constNull | binary | unary | getFieldPtr
  | getElemPtr | phi => exact setNext_erase
  | constFunc | globalAddr | callVirtual | refop | structInit | insert | vec | nop | undef
  | suspend | debugLoc => exact hNext vm

theorem resume_erase {value : CvmReg} : (resume host (callers.map CvmFrame.erase) vm value).erase =
    (resume host callers vm value).erase := by
  induction callers generalizing vm value with
  | nil => rfl
  | cons frame callers ih =>
    obtain ⟨hFrame, hState⟩ :
        (cvmRegSet frame.erase frame.resultId value vm).1.erase =
            (cvmRegSet frame frame.resultId value vm).1.erase ∧
          (cvmRegSet frame.erase frame.resultId value vm).2 =
            (cvmRegSet frame frame.resultId value vm).2 := cvmRegSet_erase
    have hResult : frame.erase.resultId = frame.resultId := rfl
    have hAllocas : frame.erase.allocas = frame.allocas := rfl
    simp only [map_cons, resume, hResult, hState, hAllocas]
    split
    · exact ih
    · simp only [CvmConfig.erase, hFrame, map_map]
      congr 1
      exact map_congr_left fun _ _ => erase_erase

end

section

variable {Heap : Type} {host : CvmHost Heap} {frame frame' : CvmFrame}
  {callers callers' : List CvmFrame} {vm : CvmState Heap}

theorem allocas_eq_of_erase (h : frame.erase = frame'.erase) : frame.allocas = frame'.allocas := by
  have hFields := congrArg CvmFrame.allocas h
  exact hFields

theorem resume_congr (h : callers.map CvmFrame.erase = callers'.map CvmFrame.erase)
    (value : CvmReg) : (resume host callers vm value).erase =
      (resume host callers' vm value).erase := by
  rw [← resume_erase, h, resume_erase]

section

variable (h : frame.erase = frame'.erase)
include h

theorem leave_congr
    (hCallers : callers.map CvmFrame.erase = callers'.map CvmFrame.erase) (value : CvmReg) :
    (leave host frame callers vm value).erase = (leave host frame' callers' vm value).erase := by
  rw [leave, leave, allocas_eq_of_erase h]
  exact resume_congr hCallers value

theorem enter_congr (target : MirBlockRef) :
    (frame.enter target).erase = (frame'.enter target).erase :=
  congrArg (fun frame => CvmFrame.enter frame target) h

/-- What follows an instruction depends on what the outcome reads as only. -/
theorem settle_congr {loop : CvmLoop Heap} {outcome outcome' : CvmOutcome Heap}
    (hCallers : callers.map CvmFrame.erase = callers'.map CvmFrame.erase)
    (hOutcome : outcome.erase = outcome'.erase) :
    (settle host loop frame callers outcome).erase =
      (settle host loop frame' callers' outcome').erase := by
  cases outcome with
  | next left vm =>
    cases outcome' with
    | next right vm' =>
      simp only [CvmOutcome.erase, CvmOutcome.next.injEq] at hOutcome
      obtain ⟨hFrame, rfl⟩ := hOutcome
      simp only [settle]
      split
      · exact leave_congr hFrame hCallers 0
      · simp only [CvmConfig.erase, hFrame, hCallers]
    | jump | done | enter | crash => cases hOutcome
  | jump target vm =>
    cases outcome' with
    | jump target' vm' =>
      cases hOutcome
      simp only [settle, CvmConfig.erase, enter_congr h, hCallers]
    | next | done | enter | crash => cases hOutcome
  | done value vm =>
    cases outcome' with
    | done value' vm' =>
      cases hOutcome
      exact leave_congr h hCallers value
    | next | jump | enter | crash => cases hOutcome
  | enter callee args vm =>
    cases outcome' with
    | enter callee' args' vm' =>
      cases hOutcome
      have hLength : callers.length = callers'.length := by
        simpa using congrArg List.length hCallers
      have hAll : (frame :: callers).map CvmFrame.erase =
          (frame' :: callers').map CvmFrame.erase := by
        rw [map_cons, map_cons, h, hCallers]
      simp only [settle, cvmExecFunction, length_cons, hLength]
      split
      · exact resume_congr hAll 0
      · split
        · exact congrArg (CvmConfig.running _ · vm) hAll
        · rfl
    | next | jump | done | crash => cases hOutcome
  | crash =>
    cases outcome' with
    | crash => rfl
    | next | jump | done | enter => cases hOutcome

end

/-- The switch loop steps by what registers read as. -/
theorem step_switch_erase (c : CvmConfig Heap) :
    (step host (switchLoop host) c.erase).map CvmConfig.erase =
      (step host (switchLoop host) c).map CvmConfig.erase := by
  cases c with
  | returned | crashed => rfl
  | running frame callers vm =>
    have hCallers : (callers.map CvmFrame.erase).map CvmFrame.erase =
        callers.map CvmFrame.erase := by
      rw [map_map]
      exact map_congr_left fun _ _ => erase_erase
    have hBlock : frame.erase.block = frame.block := rfl
    have hRest : frame.erase.rest = frame.rest := rfl
    simp only [CvmConfig.erase, step, hBlock, hRest]
    split
    · exact congrArg some (leave_congr erase_erase hCallers 0)
    · exact congrArg some (congrArg₂ (CvmConfig.running · · vm)
        (enter_congr erase_erase _) hCallers)
    · next inst rest _ _ =>
        have hFetched : (frame.fetch inst rest).erase.erase = (frame.fetch inst rest).erase :=
          erase_erase
        have hExec : (execSwitch host (frame.fetch inst rest).erase inst vm.tick).erase =
            (execSwitch host (frame.fetch inst rest) inst vm.tick).erase := execSwitch_erase inst
        exact congrArg some (settle_congr hFetched hCallers hExec)

end

section

variable {Heap : Type} {host : CvmHost Heap} {frame : CvmFrame} {callers : List CvmFrame}
  {vm : CvmState Heap} {inst : MirInst} {id : MirValueId} {v w : CvmReg}

/-- Assigning either value does the same. -/
def SameWrite (frame : CvmFrame) (id : MirValueId) (v w : CvmReg) : Prop :=
  id = 0 ∨ cvmRegCount frame.func ≤ id ∨ v = w

/-- Assigning zero changes nothing: the register reads as zero, or it is
outside the file and the trap for that is already set. -/
def NoWrite (frame : CvmFrame) (id : MirValueId) (vm : CvmState Heap) : Prop :=
  if frame.outside id then vm.trapCode = 5 else frame.reg id = 0

/-- The states in which the loops do the same for an instruction. Only the
switch loop ignores the target of a cast, the sign of an extension, a null
load or extraction, a negative field index and a virtual call. -/
def LoopsAgree (host : CvmHost Heap) (frame : CvmFrame) (inst : MirInst) (vm : CvmState Heap) :
    Prop :=
  match inst.op with
  | .unary .cast x (some .f64) | .unary .cast x (some .f32) =>
    SameWrite frame inst.result (host.sitofp (frame.reg x)) (frame.reg x)
  | .unary .sext x _ =>
    SameWrite frame inst.result (((frame.reg x).setWidth 32).signExtend 64) (frame.reg x)
  | .load ptr => frame.reg ptr ≠ 0
  | .getFieldPtr _ fieldIndex _ => 0 ≤ fieldIndex
  | .extract aggregate _ =>
    frame.reg aggregate ≠ 0 ∨ NoWrite frame inst.result (touch frame [aggregate] vm)
  | .callVirtual .. => NoWrite frame inst.result vm
  | _ => True

theorem setNext_eq_iff : (setNext frame id v vm).erase = (setNext frame id w vm).erase ↔
    SameWrite frame id v w := by
  unfold SameWrite setNext cvmRegSet
  split
  · next hZero => simp [hZero]
  · next hNe =>
      split
      · next hOut => simp [hOut]
      · next hIn =>
          simp only [hNe, hIn, false_or, CvmOutcome.erase, CvmOutcome.next.injEq, and_true]
          constructor
          · intro hFrames
            have hValue := congrFun (congrArg CvmFrame.regs hFrames) id
            have hReads := Option.some.inj hValue
            rw [reg_update, reg_update] at hReads
            simpa [hNe, Nat.lt_of_not_le hIn] using hReads
          · exact fun hSame => by rw [hSame]

theorem setNext_zero_eq_iff : (setNext frame id 0 vm).erase = (CvmOutcome.next frame vm).erase ↔
    NoWrite frame id vm := by
  unfold NoWrite CvmFrame.outside setNext cvmRegSet
  by_cases hZero : id = 0
  · simp [hZero, CvmFrame.reg]
  · by_cases hOut : cvmRegCount frame.func ≤ id
    · simp only [hZero, hOut, if_true, if_false, CvmOutcome.erase, CvmOutcome.next.injEq, true_and,
        bne_iff_ne, ne_eq, not_false_eq_true, decide_true, Bool.and_true]
      constructor
      · exact fun hTrap => (congrArg CvmState.trapCode hTrap).symm
      · intro hCode
        unfold CvmState.trap
        rw [← hCode]
    · simp only [hZero, hOut, if_false, CvmOutcome.erase, CvmOutcome.next.injEq, and_true,
        decide_false, Bool.and_false, Bool.false_eq_true]
      constructor
      · intro hFrames
        have hValue := Option.some.inj (congrFun (congrArg CvmFrame.regs hFrames) id)
        rw [reg_update] at hValue
        simpa [hZero, Nat.lt_of_not_le hOut] using hValue.symm
      · intro hReads
        unfold CvmFrame.erase
        congr 1
        funext other
        rw [reg_update]
        split
        · next hOwn => rw [hOwn.1, hReads]
        · rfl

theorem ofInt_mul_eight {i : Int} (h : 0 ≤ i) :
    BitVec.ofNat 64 (i.toNat * 8) = BitVec.ofInt 64 (i * 8) := by
  obtain ⟨n, rfl⟩ := Int.eq_ofNat_of_zero_le h
  rw [Int.toNat_natCast]
  exact (BitVec.ofInt_natCast 64 (n * 8)).symm

theorem ofInt_toInt_mul_eight (x : CvmReg) : BitVec.ofInt 64 (x.toInt * 8) = x * 8 := by
  rw [BitVec.ofInt_mul, BitVec.ofInt_toInt]
  rfl

/-- The loops do the same for an instruction exactly in these states. -/
theorem execGoto_eq_execSwitch_iff :
    (execGoto host frame inst vm).erase = (execSwitch host frame inst vm).erase ↔
      LoopsAgree host frame inst vm := by
  unfold execGoto execSwitch LoopsAgree
  cases inst.op with
  | load ptr =>
    dsimp only
    split
    · next hNull => exact iff_of_false (by rintro ⟨⟩) (not_not_intro hNull)
    · next hPtr => exact iff_of_true rfl hPtr
  | getFieldPtr base fieldIndex index =>
    dsimp only
    split
    · next hNeg => exact iff_of_false (by rintro ⟨⟩) (Int.not_le_of_gt hNeg)
    · next hPos =>
        have hIndex := Int.not_lt.mp hPos
        rw [ofInt_mul_eight hIndex]
        exact iff_of_true rfl hIndex
  | getElemPtr base index =>
    dsimp only
    rw [ofInt_toInt_mul_eight]
    exact iff_of_true rfl trivial
  | extract aggregate fieldIdx =>
    dsimp only
    split
    · next hNull =>
        rw [setNext_zero_eq_iff]
        exact (or_iff_right (not_not_intro hNull)).symm
    · next hPtr => exact iff_of_true rfl (.inl hPtr)
  | callVirtual selfObj vtableIndex args => exact setNext_zero_eq_iff
  | unary op x target =>
    cases op with
    | sext => exact setNext_eq_iff
    | cast =>
      cases target with
      | none => exact iff_of_true rfl trivial
      | some t =>
        cases t with
        | f32 | f64 => exact setNext_eq_iff
        | void | bool | i8 | i16 | i32 | i64 | u8 | u16 | u32 | u64 | ptr | ref | mutRef
        | func | strct | array | slice | aggregate => exact iff_of_true rfl trivial
    | neg | fneg | bnot | logicNot | bitcast | trunc | zext | sitofp | fptosi =>
      exact iff_of_true rfl trivial
  | transfer op source =>
    cases op with
    | move | copy | borrow | borrowMut => exact iff_of_true rfl trivial
  | constInt | constFloat | constBool | constString | constFunc | constNull | globalAddr | binary
  | alloca | store | br | condbr | switch | ret | retVoid | unreachable | call | callIndirect | phi
  | refop | objAlloc | structInit | insert | vec | nop | undef | suspend | debugLoc =>
    exact iff_of_true rfl trivial

/-- A call that goes through leads to a function the computed gotos can
start: its entry block has a first instruction. -/
def CallEntersWell (frame : CvmFrame) (callers : List CvmFrame) (name : Option String)
    (args : List MirValueId) (vm : CvmState Heap) : Prop :=
  (touch frame (args.take 64) vm).trapCode = 0 → callers.length + 1 < cvmMaxCallDepth →
    ∀ called, name = some called → called ∉ cvmIntrinsics →
      ∀ callee, vm.module.findFunction called = some callee → callee.insts 0 ≠ []

def EntersWell (frame : CvmFrame) (callers : List CvmFrame) (inst : MirInst) (vm : CvmState Heap) :
    Prop :=
  match inst.op with
  | .call name args _ | .callIndirect name args _ => CallEntersWell frame callers name args vm
  | _ => True

/-- The next step of a configuration does the same in both loops. -/
def StepAgrees (host : CvmHost Heap) : CvmConfig Heap → Prop
  | .running frame callers vm =>
    match frame.block, frame.rest with
    | some _, inst :: rest =>
      LoopsAgree host (frame.fetch inst rest) inst vm.tick ∧
        EntersWell (frame.fetch inst rest) callers inst vm.tick
    | _, _ => True
  | _ => True

theorem cvmDispatchCall_enter {name : Option String} {args : List MirValueId}
    {callee : MirFunction} {values : List CvmReg} {vm' : CvmState Heap}
    (h : cvmDispatchCall frame id name args vm = .enter callee values vm') :
    vm.trapCode = 0 ∧ vm'.trapCode = 0 ∧ ∃ called, name = some called ∧
      called ∉ cvmIntrinsics ∧
      vm.module.findFunction called = some callee := by
  rcases cvmDispatchCall_cases frame id name args vm with
    ⟨_, hSet⟩ | hCrash | ⟨hTrap, called, callee', hName, hOwn, hFind, hEnter⟩
  · cases hSet.symm.trans h
  · cases hCrash.symm.trans h
  · cases hEnter.symm.trans h
    exact ⟨hTrap, hTrap, called, hName, hOwn, hFind⟩

theorem trapCode_of_touch {ids : List MirValueId} (h : (touch frame ids vm).trapCode = 0) :
    vm.trapCode = 0 := by
  unfold touch at h
  split at h
  · cases h
  · exact h

theorem module_touch {ids : List MirValueId} : (touch frame ids vm).module = vm.module := by
  unfold touch
  split <;> rfl

theorem CallEntersWell.insts_ne_nil {name : Option String} {ids : List MirValueId}
    (h : CallEntersWell frame callers name ids vm) {callee : MirFunction} {args : List CvmReg}
    {vm' : CvmState Heap}
    (hEnter : cvmDispatchCall frame id name ids
      (touch frame (if vm.trapCode = 0 then ids.take 64 else []) vm) = .enter callee args vm')
    (hDepth : callers.length + 1 < cvmMaxCallDepth) : callee.insts 0 ≠ [] := by
  obtain ⟨hTrap, -, called, hName, hOwn, hFind⟩ := cvmDispatchCall_enter hEnter
  rw [if_pos (trapCode_of_touch hTrap)] at hTrap
  rw [module_touch] at hFind
  exact h hTrap hDepth called hName hOwn callee hFind

theorem EntersWell.insts_ne_nil (h : EntersWell frame callers inst vm) {callee : MirFunction}
    {args : List CvmReg} {vm' : CvmState Heap}
    (hEnter : execGoto host frame inst vm = .enter callee args vm')
    (hDepth : callers.length + 1 < cvmMaxCallDepth) : callee.insts 0 ≠ [] := by
  have hEffect := @execGoto_effect Heap host False frame inst vm
  rw [hEnter] at hEffect
  cases hEffect with
  | enter hCall hEnters =>
    unfold EntersWell at h
    cases hOp : inst.op with
    | call | callIndirect =>
      rw [hOp] at h hCall
      cases hCall
      exact h.insts_ne_nil hEnters hDepth
    | _ => rw [hOp] at hCall; cases hCall

theorem settle_goto_eq {outcome : CvmOutcome Heap}
    (h : ∀ callee args vm', outcome = .enter callee args vm' →
      callers.length + 1 < cvmMaxCallDepth → callee.insts 0 ≠ []) :
    settle host (gotoLoop host) frame callers outcome =
      settle host (switchLoop host) frame callers outcome := by
  cases outcome with
  | next | jump | done | crash => rfl
  | enter callee args vm' =>
    simp only [settle, cvmExecFunction, length_cons]
    split
    · rfl
    · next hDepth =>
        have hInsts := h callee args vm' rfl (by omega)
        have hOk : (gotoLoop host).entryOk callee = true := by
          simpa [gotoLoop] using hInsts
        rw [if_pos hOk]
        rfl

/-- A step that agrees shows the same in both loops. -/
theorem StepAgrees.step_eq {c : CvmConfig Heap} (h : StepAgrees host c) :
    (step host (gotoLoop host) c).map CvmConfig.erase =
      (step host (switchLoop host) c).map CvmConfig.erase := by
  cases c with
  | returned | crashed => rfl
  | running frame callers vm =>
    simp only [step]
    simp only [StepAgrees] at h
    split
    · rfl
    · rfl
    · next inst rest hBlock hRest =>
        rw [hBlock, hRest] at h
        obtain ⟨hAgree, hEnters⟩ := h
        have hSettle : settle host (gotoLoop host) (frame.fetch inst rest) callers
            (execGoto host (frame.fetch inst rest) inst vm.tick) =
            settle host (switchLoop host) (frame.fetch inst rest) callers
            (execGoto host (frame.fetch inst rest) inst vm.tick) :=
          settle_goto_eq fun callee args vm' hEnter => hEnters.insts_ne_nil hEnter
        have hOutcome := execGoto_eq_execSwitch_iff.mpr hAgree
        show some (CvmConfig.erase (settle host (gotoLoop host) _ _ (execGoto host _ _ _))) = _
        rw [hSettle]
        exact congrArg some (settle_congr rfl rfl hOutcome)

/-- What an instruction holds in `vm_data`: no label yet, that of its opcode,
or one written before the opcode was changed. -/
inductive VmData where
  | null
  | own
  | stale
  deriving DecidableEq, Repr

/-- An instruction is named by its function, its block and the number of
instructions from it to the end of the block. -/
abbrev Labels := MirFunction → MirBlockId → Nat → VmData

/-- `cvm_prepare_dispatch`, which goes over the module of the machine only. -/
def cvmPrepareDispatch (module : MirModule) (labels : Labels) : Labels :=
  fun func b left => if func ∈ module.funcList then .own else labels func b left

/-- The look at the label of the first instruction of a function. -/
def Labels.enter (labels : Labels) (module : MirModule) (func : MirFunction) : Labels :=
  if labels func 0 (func.insts 0).length = .null then cvmPrepareDispatch module labels else labels

/-- What a step makes of the labels. A call that overflows the stack is over
before it looks at them. -/
def labelsAfter (host : CvmHost Heap) (labels : Labels) : CvmConfig Heap → Labels
  | .running frame callers vm =>
    match frame.block, frame.rest with
    | some _, inst :: rest =>
      match execGoto host (frame.fetch inst rest) inst vm.tick with
      | .enter callee _ vm =>
        if cvmMaxCallDepth < callers.length + 2 then labels else labels.enter vm.module callee
      | _ => labels
    | _, _ => labels
  | _ => labels

/-- The next instruction, if there is one, carries the label of its opcode. -/
def OwnLabel (labels : Labels) : CvmConfig Heap → Prop
  | .running frame _ _ =>
    match frame.block, frame.rest with
    | some b, inst :: rest => labels frame.func b (inst :: rest).length = .own
    | _, _ => True
  | _ => True

instance (labels : Labels) (c : CvmConfig Heap) : Decidable (OwnLabel labels c) := by
  unfold OwnLabel
  split
  · split <;> infer_instance
  · infer_instance

/-- A step of the computed gotos with the labels they jump to. The jump through
a label that is not there, or into the code of another opcode, is lost. -/
def labelledStep (host : CvmHost Heap) :
    CvmConfig Heap × Labels → Option (CvmConfig Heap × Labels)
  | (c, labels) =>
    if OwnLabel labels c then
      (step host (gotoLoop host) c).map fun next => (next, labelsAfter host labels c)
    else some (.crashed, labels)

/-- The start of a call on computed gotos, with the labels that are there. -/
def cvmExecLabelled (host : CvmHost Heap) (vm : CvmState Heap) (func : MirFunction)
    (args : List CvmReg) (labels : Labels) : CvmConfig Heap × Labels :=
  (cvmExecFunction host (gotoLoop host) [] vm func args, labels.enter vm.module func)

/-- As long as the labels are right the run is that of the instructions. -/
theorem runFor_labelledStep {n : Nat} {c : CvmConfig Heap × Labels}
    (hOwn : ∀ k, k < n → OwnLabel (runFor (labelledStep host) k c).2
      (runFor (labelledStep host) k c).1) :
    (runFor (labelledStep host) n c).1 = runFor (step host (gotoLoop host)) n c.1 := by
  induction n generalizing c with
  | zero => rfl
  | succ n ih =>
    obtain ⟨config, labels⟩ := c
    have hFirst : labelledStep host (config, labels) =
        (step host (gotoLoop host) config).map fun next => (next, labelsAfter host labels config) :=
      if_pos (hOwn 0 n.succ_pos)
    cases hStep : step host (gotoLoop host) config with
    | none =>
      rw [hStep, Option.map_none] at hFirst
      rw [runFor_of_none hFirst, runFor_of_none hStep]
    | some next =>
      rw [hStep, Option.map_some] at hFirst
      rw [runFor_succ_of_some hFirst, runFor_succ_of_some hStep]
      refine ih fun k hk => ?_
      have hLater := hOwn (k + 1) (Nat.succ_lt_succ hk)
      rwa [runFor_succ_of_some hFirst] at hLater

end

/-- A call whose run on computed gotos keeps to instructions that carry their
own label, and to steps on which the loops agree, shows the same, step by step,
in the switch loop: the same registers, memory, trap code, calls, stores and
value returned. -/
theorem cvmExecFunction_agrees {Heap : Type} (host : CvmHost Heap) (vm : CvmState Heap)
    (func : MirFunction) (args : List CvmReg) (labels : Labels) (n : Nat)
    (hEntry : func.insts 0 ≠ [])
    (hSteps : ∀ k, k < n →
      let reached := runFor (labelledStep host) k (cvmExecLabelled host vm func args labels)
      OwnLabel reached.2 reached.1 ∧ StepAgrees host reached.1) :
    (runFor (labelledStep host) n (cvmExecLabelled host vm func args labels)).1.erase =
      (runFor (step host (switchLoop host)) n
        (cvmExecFunction host (switchLoop host) [] vm func args)).erase := by
  have hRun : ∀ m, m ≤ n →
      (runFor (labelledStep host) m (cvmExecLabelled host vm func args labels)).1 =
        runFor (step host (gotoLoop host)) m
          (cvmExecFunction host (gotoLoop host) [] vm func args) :=
    fun m hm => runFor_labelledStep fun k hk => (hSteps k (Nat.lt_of_lt_of_le hk hm)).1
  have hOk : (gotoLoop host).entryOk func = true := by
    simpa [gotoLoop] using hEntry
  have hStart : cvmExecFunction host (gotoLoop host) [] vm func args =
      cvmExecFunction host (switchLoop host) [] vm func args := by
    simp only [cvmExecFunction, hOk]
    rfl
  rw [hRun n (Nat.le_refl n)]
  apply map_runFor_eq (congrArg CvmConfig.erase hStart)
  · intro c d hSame
    rw [← step_switch_erase c, hSame, step_switch_erase d]
  · intro k hk
    have hAgrees := (hSteps k hk).2
    rw [hRun k (Nat.le_of_lt hk)] at hAgrees
    exact hAgrees.step_eq

/-- A function that widens a 32-bit constant. -/
def widen (imm : Word) : MirFunction where
  name := "widen"
  returnType := some .i64
  blocks := [{ insts := [{ op := .constInt imm, result := 1, type := some .i32 },
    { op := .unary .sext 1 (some .i64), result := 2, type := some .i64 }, { op := .ret 2 }] }]
  nextValueId := 3

/-- A function that loads from null. -/
def loadNull : MirFunction where
  name := "load_null"
  returnType := some .i64
  blocks := [{ insts := [{ op := .constNull, result := 1, type := some (.ptr .i64) },
    { op := .load 1, result := 2, type := some .i64 }, { op := .ret 2 }] }]
  nextValueId := 3

/-- No instruction has a label yet. -/
def noLabels : Labels := fun _ _ _ => .null

def wideningModule (imm : Word) : MirModule := { funcList := [loadNull, widen imm] }

/-- The loops agree on a constant that is not negative, in a module whose
labels are written when the function is entered. -/
theorem cvmExecFunction_agrees_widen :
    (runFor (labelledStep wordHost) 3
        (cvmExecLabelled wordHost (wordVm (wideningModule 5)) (widen 5) [] noLabels)).1.erase =
      (runFor (step wordHost (switchLoop wordHost)) 3
        (cvmExecFunction wordHost (switchLoop wordHost) [] (wordVm (wideningModule 5)) (widen 5)
          [])).erase :=
  cvmExecFunction_agrees wordHost (wordVm (wideningModule 5)) (widen 5) [] noLabels 3 (by decide)
    fun k hk =>
      match k, hk with
      | 0, _ => ⟨by decide, trivial, trivial⟩
      | 1, _ => ⟨by decide, .inr (.inr (by decide)), trivial⟩
      | 2, _ => ⟨by decide, trivial, trivial⟩

/-- On computed gotos the constant 0xFFFFFFFF is widened to -1 and a null load
traps; the switch loop keeps the constant and goes on after the load. -/
theorem loops_disagree :
    let vm := wordVm (wideningModule 0xFFFFFFFF)
    let gotoResult := fun func =>
      (runFor (labelledStep wordHost) 3 (cvmExecLabelled wordHost vm func [] noLabels)).1.result
    let switchResult := fun func =>
      (runFor (step wordHost (switchLoop wordHost)) 3
        (cvmExecFunction wordHost (switchLoop wordHost) [] vm func [])).result
    gotoResult (widen 0xFFFFFFFF) = some (-1, 0) ∧
      switchResult (widen 0xFFFFFFFF) = some (0xFFFFFFFF, 0) ∧
      gotoResult loadNull = some (0, 3) ∧ switchResult loadNull = some (0, 0) := by
  decide

end Casprix.Cvm
