import Casprix.Consteval.Agreement

/-! Whole calls: while the evaluator works on a call, the machine runs the
frame for it, and the frames below wait with their cells untouched. -/
namespace Casprix.Consteval

open Function List Mir Cvm Library

variable {Heap : Type} {host : CvmHost Heap} {castI64 : Word → Word}

/-- A slot that belongs to none of the calls at work: to no call at all, or to
one with a number below `next` other than `serial`. -/
def Foreign (serial next : Nat) : Option (Nat × Role) → Prop
  | none => True
  | some (k, _) => k ≠ serial ∧ k < next

/-- The slots of the calls that are not at work keep owner and contents. -/
def OthersKept (serial next : Nat) (slots slots' : MirValueId → MirConstValue)
    (owner owner' : Owners) : Prop :=
  ∀ id, Foreign serial next (owner' id) → owner id = owner' id ∧ slots' id = slots id

/-- The numbers that were given to calls. -/
def Owners.Below (owner : Owners) (next : Nat) : Prop :=
  ∀ id k role, owner id = some (k, role) → k < next

variable {k n fuel : Nat} {args : List MirValueId} {c d : CvmConfig Heap} {value : CvmReg}
  {b : MirBlockId}

section

variable {serial next : Nat} {slots slots' slots'' : MirValueId → MirConstValue}
  {owner owner' owner'' : Owners}

theorem OthersKept.refl : OthersKept serial next slots slots owner owner := fun _ _ =>
    ⟨rfl, rfl⟩

theorem OthersKept.trans {next' : Nat} (h : OthersKept serial next slots slots' owner owner')
    (hLe : next ≤ next') (h' : OthersKept serial next' slots' slots'' owner' owner'') :
    OthersKept serial next slots slots'' owner owner'' := by
  intro id hForeign
  have hLater : Foreign serial next' (owner'' id) := by
    cases hOwner : owner'' id with
    | none => trivial
    | some entry =>
      rw [hOwner] at hForeign
      exact ⟨hForeign.1, Nat.lt_of_lt_of_le hForeign.2 hLe⟩
  obtain ⟨hOwner', hSlot'⟩ := h' id hLater
  rw [← hOwner'] at hForeign
  obtain ⟨hOwner, hSlot⟩ := h id hForeign
  exact ⟨hOwner.trans hOwner', hSlot'.trans hSlot⟩

theorem OthersKept.of_callee (h : OthersKept next (next + 1) slots slots' owner owner') :
    OthersKept serial next slots slots' owner owner' := by
  intro id hForeign
  refine h id ?_
  cases hOwner : owner' id with
  | none => trivial
  | some entry =>
    rw [hOwner] at hForeign
    exact ⟨Nat.ne_of_lt hForeign.2, Nat.lt_succ_of_lt hForeign.2⟩

theorem OthersKept.mark (hAtWork : k = serial ∨ next ≤ k) (id : MirValueId) (role : Role)
    (value : MirConstValue) :
    OthersKept serial next slots (update slots id value) owner (owner.mark k id role) := by
  intro other hForeign
  by_cases hEq : other = id
  · subst hEq
    rw [Owners.mark, update_self] at hForeign
    rcases hAtWork with rfl | hLe
    · exact absurd rfl hForeign.1
    · exact absurd hForeign.2 (Nat.not_lt.mpr hLe)
  · rw [Owners.mark_of_ne hEq, update_of_ne hEq]
    exact ⟨rfl, rfl⟩

theorem Owners.Below.mono {next' : Nat} (h : owner.Below next) (hLe : next ≤ next') :
    owner.Below next' :=
  fun id k role hOwner => Nat.lt_of_lt_of_le (h id k role hOwner) hLe

theorem Owners.Below.mark (h : owner.Below next) (hk : k < next) (id : MirValueId) (role : Role) :
    (owner.mark k id role).Below next := by
  intro other j r hOwner
  rcases Owners.mark_eq_some hOwner with ⟨_, rfl, _⟩ | ⟨_, hOld⟩
  · exact hk
  · exact h other j r hOld

theorem Owners.Below.after (h : owner.Below next) (hSerial : serial < next) (inst : MirInst) :
    (owner.after serial inst).Below next := by
  unfold Owners.after
  split
  · exact h
  · exact h
  · exact h
  · exact h.mark hSerial _ _
  · dsimp only
    split
    · exact h.mark hSerial _ _
    · exact (h.mark hSerial _ _).mark hSerial _ _
  · exact h.mark hSerial _ _

/-- An instruction writes slots of its own call only. -/
theorem mirConstevalStep_others {ce ce' : MirConstEval} {func : MirFunction} {inst : MirInst}
    (hOk : Visit.Ok host castI64 ⟨ce.module, func, serial, owner, ce.slots, inst⟩)
    (hStep : mirConstevalStep host castI64 ce inst = some (ce', true)) :
    OthersKept serial next ce.slots ce'.slots owner (owner.after serial inst) := by
  unfold mirConstevalStep at hStep
  dsimp only at hStep
  split at hStep
  · cases hStep
  · cases hOp : inst.op with
    | binary op lhs rhs =>
      simp only [hOp] at hStep
      split at hStep
      · cases hStep
        simp only [Owners.after, hOp]
        exact .mark (.inl rfl) _ _ _
      · cases hStep
      · cases hStep
    | unary op operand target =>
      simp only [hOp] at hStep
      split at hStep
      · cases hStep
        simp only [Owners.after, hOp]
        exact .mark (.inl rfl) _ _ _
      · cases hStep
    | store ptr value =>
      simp only [Visit.Ok, hOp, Visit.ReadsCell] at hOk
      rw [hOp] at hStep
      cases hStep
      simp only [Owners.after, hOp]
      intro id hForeign
      have hNe : id ≠ ptr := by
        rintro rfl
        rw [hOk.1.2] at hForeign
        exact hForeign.1 rfl
      exact ⟨rfl, update_of_ne hNe ..⟩
    | transfer op source =>
      rw [hOp] at hStep
      cases op with
      | copy =>
        cases hStep
        simp only [Owners.after, hOp]
        exact .mark (.inl rfl) _ _ _
      | move =>
        cases hStep
        simp only [Owners.after, hOp]
        have hFirst : OthersKept serial next ce.slots
            (update ce.slots inst.result (ce.slots source)) owner
            (owner.mark serial inst.result .value) := .mark (.inl rfl) _ _ _
        split
        · exact hFirst
        · refine hFirst.trans (Nat.le_refl next) ?_
          have hSecond : ∀ slots owner, OthersKept serial next slots
              (update slots source (slots source)) owner
              (owner.mark serial source .lost) :=
            fun _ _ => .mark (.inl rfl) _ _ _
          have hLost := hSecond (update ce.slots inst.result (ce.slots source))
            (owner.mark serial inst.result .value)
          rwa [update_eq_self] at hLost
      | borrow | borrowMut => cases hStep
    | constInt | constFloat | constBool | constString | constNull | alloca | load =>
      rw [hOp] at hStep
      cases hStep
      simp only [Owners.after, hOp]
      exact .mark (.inl rfl) _ _ _
    | nop | debugLoc =>
      rw [hOp] at hStep
      cases hStep
      simp only [Owners.after, hOp]
      exact .refl
    | _ =>
      rw [hOp] at hStep
      cases hStep

end

section

variable {memory : HostMemory host} {outer : CvmReg → Prop} {ce : MirConstEval} {owner : Owners}
  {serial next : Nat} {func : MirFunction} {frame : CvmFrame} {heap : Heap}

theorem Owners.params_map {α β : Type} (f : α → β) (args : List α) :
    owner.params serial func (args.map f) = owner.params serial func args := by
  rw [Owners.params, zip_map_right, foldl_map]
  rfl

variable (ce func) in
theorem setParams_kept (args : List MirConstValue) : (setParams ce func args).module = ce.module ∧
    (setParams ce func args).callDepth = ce.callDepth ∧
      (setParams ce func args).maxCallDepth = ce.maxCallDepth := by
  unfold setParams
  induction func.params.zip args generalizing ce with
  | nil => exact ⟨rfl, rfl, rfl⟩
  | cons p pairs ih => exact ih _

theorem setParams_others (hAtWork : k = serial ∨ next ≤ k) (args : List MirConstValue) :
    OthersKept serial next ce.slots (setParams ce func args).slots owner
      (owner.params k func args) := by
  unfold setParams Owners.params
  induction func.params.zip args generalizing ce owner with
  | nil => exact .refl
  | cons p pairs ih => exact (OthersKept.mark hAtWork _ _ _).trans (Nat.le_refl next) ih

theorem Owners.Below.params {α : Type} (h : owner.Below next) (hk : k < next) (args : List α) :
    (owner.params k func args).Below next := by
  unfold Owners.params
  induction func.params.zip args generalizing owner with
  | nil => exact h
  | cons p pairs ih => exact ih (h.mark hk _ _)

theorem Agrees.param (h : Agrees memory outer ce.slots owner serial frame heap)
    (hFunc : frame.func = func) (id : MirValueId) (value : MirConstValue) :
    Agrees memory outer (ce.setSlot id value).slots
      (owner.mark serial id (if id < cvmRegCount func then .value else .lost)) serial
      { frame with regs := if id = 0 ∨ cvmRegCount func ≤ id then frame.regs
          else Function.update frame.regs id (some (constReg host value)) } heap := by
  subst hFunc
  by_cases hOut : id = 0 ∨ cvmRegCount frame.func ≤ id
  · rw [if_pos hOut]
    refine h.update (fun _ _ => rfl) rfl (by split <;> nofun) ?_
    intro hNe hRole
    rw [if_neg (Nat.not_lt.mpr (hOut.resolve_left hNe))] at hRole
    cases hRole
  · rw [if_neg hOut]
    refine h.update ?_ rfl (by split <;> nofun) ?_
    · intro other hNe
      rw [reg_update, if_neg fun hAnd => hNe hAnd.1]
    · intro hNe _
      rw [reg_update, if_pos ⟨rfl, hNe, Nat.lt_of_not_le fun hLe => hOut (.inr hLe)⟩]

variable (ce func) in
theorem startFrame_agrees (hSlots : ∀ id, owner id = none → ce.slots id = .int 0)
    (hBelow : owner.Below serial) (hOuter : ∀ a, outer a → memory.Live heap a)
    (args : List MirConstValue) :
    Agrees memory outer (setParams ce func args).slots (owner.params serial func args) serial
      (startFrame func (args.map (constReg host))) heap := by
  let bare : CvmFrame := { startFrame func [] with regs := fun _ => none }
  have hNone : ∀ id role, owner id ≠ some (serial, role) := fun id role hOwner =>
    Nat.lt_irrefl serial (hBelow id serial role hOwner)
  have hBare : Agrees memory outer ce.slots owner serial bare heap := by
    refine ⟨?_, fun id hOwner => absurd hOwner (hNone id _), fun id hOwner =>
      absurd hOwner (hNone id _),
      fun id _ hOwner => absurd hOwner (hNone id _), nofun, hOuter⟩
    intro id hOwner
    refine ⟨hSlots id hOwner, ?_⟩
    unfold CvmFrame.reg
    split <;> rfl
  have hFold : ∀ (pairs : List (MirParam × MirConstValue)) (ce : MirConstEval) (owner : Owners)
      (frame : CvmFrame), frame.func = func →
        Agrees memory outer ce.slots owner serial frame heap →
      Agrees memory outer (pairs.foldl (fun ce p => ce.setSlot p.1.valueId p.2) ce).slots
        (pairs.foldl (fun owner p => owner.mark serial p.1.valueId
          (if p.1.valueId < cvmRegCount func then .value else .lost)) owner) serial
        { frame with regs := pairs.foldl (fun regs p =>
            if p.1.valueId = 0 ∨ cvmRegCount func ≤ p.1.valueId then regs
            else update regs p.1.valueId (some (constReg host p.2))) frame.regs } heap := by
    intro pairs
    induction pairs with
    | nil => exact fun _ _ _ _ hAgrees => hAgrees
    | cons p pairs ih =>
      intro ce owner frame hFunc hAgrees
      refine ih _ _ _ ?_ (hAgrees.param hFunc p.1.valueId p.2)
      exact hFunc
  have hAll := hFold (func.params.zip args) ce owner bare rfl hBare
  rw [startFrame, startRegs, zip_map_right, foldl_map]
  exact hAll

private theorem zip_take {α β : Type} {xs : List α} {ys : List β}
    (h : ys.length ≤ n ∨ xs.length ≤ n) : xs.zip (ys.take n) = xs.zip ys := by
  induction xs generalizing ys n with
  | nil => rfl
  | cons x xs ih =>
    cases ys with
    | nil => rw [take_nil]
    | cons y ys =>
      cases n with
      | zero => exact absurd h (by simp)
      | succ n =>
        rw [take_succ_cons, zip_cons_cons, zip_cons_cons,
          ih (h.imp Nat.le_of_succ_le_succ Nat.le_of_succ_le_succ)]

/-- The machine passes what the evaluator passes, as far as there are parameters. -/
theorem startFrame_args {slots : MirValueId → MirConstValue} {reg : MirValueId → CvmReg}
    (hLength : args.length ≤ maxCallArgs ∨ func.params.length ≤ maxCallArgs)
    (hArgs : ∀ id ∈ args.take func.params.length, reg id = constReg host (slots id)) :
    startFrame func ((args.take 64).map reg) =
      startFrame func (((args.take maxCallArgs).map slots).map (constReg host)) := by
  have hMore : args.length ≤ 64 ∨ func.params.length ≤ 64 :=
    hLength.imp (Nat.le_trans · (by decide)) (Nat.le_trans · (by decide))
  have hZip : func.params.zip ((args.take 64).map reg) =
      func.params.zip (((args.take maxCallArgs).map slots).map (constReg host)) := by
    have hEnough : ∀ f : MirValueId → CvmReg,
        func.params.zip (args.map f) = func.params.zip ((args.take func.params.length).map f) := by
      intro f
      rw [map_take, zip_take (.inr (Nat.le_refl _))]
    rw [map_map, map_take, map_take, zip_take (by simpa using hMore),
      zip_take (by simpa using hLength), hEnough, hEnough, map_congr_left hArgs]
    rfl
  rw [startFrame, startFrame, startRegs, startRegs, hZip]

end

/-- The machine comes to an allocation for which there is no memory. -/
def RunsOut (host : CvmHost Heap) (c : CvmConfig Heap) : Prop :=
  ∃ n frame callers vm inst rest,
    runFor (step host (gotoLoop host)) n c = .running frame callers vm ∧ frame.block ≠ none ∧
      frame.rest = inst :: rest ∧ AllocFails host inst vm

/-- The frame at work and those below it come to the point where the frame
returns `value`, unless memory runs out before. -/
def Returns (host : CvmHost Heap) (c : CvmConfig Heap) (callers : List CvmFrame) (value : CvmReg)
    (P : CvmState Heap → Prop) : Prop :=
  RunsOut host c ∨
    ∃ n vm, runFor (step host (gotoLoop host)) n c = Cvm.resume host callers vm value ∧ P vm

theorem RunsOut.of_runFor (hRun : runFor (step host (gotoLoop host)) n c = d) (h : RunsOut host d) :
    RunsOut host c := by
  obtain ⟨m, frame, callers, vm, inst, rest, hLater, hNext⟩ := h
  refine ⟨n + m, frame, callers, vm, inst, rest, ?_, hNext⟩
  rw [runFor_add, hRun, hLater]

theorem Returns.of_runFor {callers : List CvmFrame} {P Q : CvmState Heap → Prop}
    (hRun : runFor (step host (gotoLoop host)) n c = d) (h : Returns host d callers value P)
    (hImp : ∀ vm, P vm → Q vm) : Returns host c callers value Q := by
  rcases h with hOut | ⟨m, vm, hLater, hP⟩
  · exact .inl (hOut.of_runFor hRun)
  · refine .inr ⟨n + m, vm, ?_, hImp vm hP⟩
    rw [runFor_add, hRun, hLater]

theorem Returns.of_step {callers : List CvmFrame} {P Q : CvmState Heap → Prop}
    (hStep : step host (gotoLoop host) c = some d) (h : Returns host d callers value P)
    (hImp : ∀ vm, P vm → Q vm) : Returns host c callers value Q :=
  h.of_runFor (n := 1) (runFor_succ_of_some hStep) hImp

/-- The machine is where the evaluator is: before `insts` in the call with the
number `serial`. -/
structure AtWork (memory : HostMemory host) (outer : CvmReg → Prop) (ce : MirConstEval)
    (owner : Owners) (serial next : Nat) (func : MirFunction) (insts : List MirInst)
    (frame : CvmFrame) (callers : List CvmFrame) (vm : CvmState Heap) : Prop where
  agrees : Agrees memory outer ce.slots owner serial frame vm.heap
  below : owner.Below next
  serial : serial < next
  func : frame.func = func
  block : frame.block ≠ none
  rest : frame.rest = insts
  trapCode : vm.trapCode = 0
  module : vm.module = ce.module
  depth : callers.length + 1 = ce.callDepth
  maxDepth : ce.maxCallDepth < cvmMaxCallDepth

/-- What a call leaves as it was. -/
structure Left (memory : HostMemory host) (outer : CvmReg → Prop) (ce : MirConstEval)
    (owner : Owners) (serial next : Nat) (vm : CvmState Heap) (w : Watched)
    (vm' : CvmState Heap) : Prop where
  trapCode : vm'.trapCode = 0
  module : vm'.module = vm.module
  kept : Kept memory outer vm.heap vm'.heap
  others : OthersKept serial next ce.slots w.ce.slots owner w.owner
  next : next ≤ w.next
  below : w.owner.Below w.next
  ceModule : w.ce.module = ce.module
  depth : w.ce.callDepth = ce.callDepth - 1
  maxDepth : w.ce.maxCallDepth = ce.maxCallDepth

/-- A frame at work on `insts` returns `value` and leaves what `w` says. -/
def ReturnsFrom (memory : HostMemory host) (outer : CvmReg → Prop) (ce : MirConstEval)
    (owner : Owners) (serial next : Nat) (func : MirFunction) (insts : List MirInst)
    (callers : List CvmFrame) (value : CvmReg) (w : Watched) : Prop :=
  ∀ frame vm, AtWork memory outer ce owner serial next func insts frame callers vm →
    Returns host (.running frame callers vm) callers value
      (Left memory outer ce owner serial next vm w)

section

variable {memory : HostMemory host} {outer : CvmReg → Prop} {ce ce' : MirConstEval}
  {owner owner' : Owners} {serial next next' : Nat} {func : MirFunction} {insts rest : List MirInst}
  {inst : MirInst} {frame frame' : CvmFrame} {callers : List CvmFrame}
  {vm vm' vm'' : CvmState Heap} {w : Watched} {visits : List Visit}

theorem Kept.trans {heap heap' heap'' : Heap} (h : Kept memory outer heap heap')
    (h' : Kept memory outer heap' heap'') : Kept memory outer heap heap'' :=
  fun a ha => ⟨(h' a ha).1, (h' a ha).2.trans (h a ha).2⟩

theorem Left.of_step (h : Left memory outer ce' owner' serial next' vm' w vm'')
    (hOthers : OthersKept serial next ce.slots ce'.slots owner owner') (hNext : next ≤ next')
    (hCe : ce'.module = ce.module ∧ ce'.callDepth = ce.callDepth ∧
      ce'.maxCallDepth = ce.maxCallDepth)
    (hModule : vm'.module = vm.module) (hKept : Kept memory outer vm.heap vm'.heap) :
    Left memory outer ce owner serial next vm (w.log visits) vm'' where
  trapCode := h.trapCode
  module := h.module.trans hModule
  kept := hKept.trans h.kept
  others := hOthers.trans hNext h.others
  next := Nat.le_trans hNext h.next
  below := h.below
  ceModule := h.ceModule.trans hCe.1
  depth := h.depth.trans (congrArg (· - 1) hCe.2.1)
  maxDepth := h.maxDepth.trans hCe.2.2

section

variable (h : AtWork memory outer ce owner serial next func (inst :: rest) frame callers vm)
include h

theorem AtWork.step_eq :
    step host (gotoLoop host) (.running frame callers vm) =
      some (settle host (gotoLoop host) (frame.fetch inst rest) callers
        (execGoto host (frame.fetch inst rest) inst vm.tick)) := by
  obtain ⟨b, hBlock⟩ := Option.ne_none_iff_exists'.mp h.block
  simp only [step, hBlock, h.rest]
  rfl

theorem AtWork.fetch :
    AtWork memory outer ce owner serial next func rest (frame.fetch inst rest) callers vm.tick :=
  ⟨⟨h.agrees.untouched, h.agrees.value, h.agrees.cell, h.agrees.distinct, h.agrees.allocas,
    h.agrees.outer⟩, h.below, h.serial, h.func, h.block, rfl, h.trapCode, h.module, h.depth,
    h.maxDepth⟩

end

theorem AtWork.enter (h : AtWork memory outer ce owner serial next func insts frame callers vm) :
    AtWork memory outer ce owner serial next func (func.insts b)
      (frame.enter (some b)) callers vm :=
  ⟨⟨h.agrees.untouched, h.agrees.value, h.agrees.cell, h.agrees.distinct, h.agrees.allocas,
    h.agrees.outer⟩, h.below, h.serial, h.func, nofun, congrArg (·.insts b) h.func, h.trapCode,
    h.module, h.depth, h.maxDepth⟩

section

variable (h : AtWork memory outer ce owner serial next func (inst :: rest) frame callers vm)
include h

theorem AtWork.leave_returns {result : MirConstValue}
    (hExec : execGoto host (frame.fetch inst rest) inst vm.tick = .done value vm.tick) :
    Returns host (.running frame callers vm) callers value
      (Left memory outer ce owner serial next vm ⟨ce.leave, owner, next, result, visits⟩) := by
  have hStep := h.step_eq
  rw [hExec] at hStep
  refine .inr ⟨1, _, runFor_succ_of_some hStep, ?_⟩
  exact {
    trapCode := h.trapCode
    module := rfl
    kept := fun a ha => memory.free (h.agrees.outer a ha) fun hMem => h.agrees.allocas a hMem ha
    others := .refl
    next := Nat.le_refl next
    below := h.below
    ceModule := rfl
    depth := rfl
    maxDepth := rfl }

theorem AtWork.jump_returns
    (hExec : execGoto host (frame.fetch inst rest) inst vm.tick = .jump (some b) vm.tick)
    (hLater : ReturnsFrom memory outer ce owner serial next func (func.insts b) callers value w) :
    Returns host (.running frame callers vm) callers value
      (Left memory outer ce owner serial next vm (w.log visits)) := by
  have hStep := h.step_eq
  rw [hExec] at hStep
  refine (hLater _ _ h.fetch.enter).of_step hStep fun vm' hLeft => ?_
  exact hLeft.of_step .refl (Nat.le_refl next) ⟨rfl, rfl, rfl⟩ rfl
    fun a ha => ⟨h.agrees.outer a ha, rfl⟩

theorem AtWork.step_returns
    (hOk : Visit.Ok host castI64 ⟨ce.module, func, serial, owner, ce.slots, inst⟩)
    (hCe : mirConstevalStep host castI64 ce inst = some (ce', true))
    (hLater : ReturnsFrom memory outer ce' (owner.after serial inst) serial next func rest
      callers value w) :
    Returns host (.running frame callers vm) callers value
      (Left memory outer ce owner serial next vm (w.log visits)) := by
  by_cases hMemory : AllocFails host inst vm
  · exact .inl ⟨0, frame, callers, vm, inst, rest, rfl, h.block, h.rest, hMemory⟩
  · have hFetched := h.fetch
    obtain ⟨frame', vm', hExec, hGoes⟩ :=
      execGoto_goes hFetched.agrees hFetched.trapCode hFetched.func hOk hCe hMemory
    have hStep := h.step_eq
    rw [hExec, settle, if_neg (not_not_intro hGoes.trapCode)] at hStep
    obtain ⟨⟨hModule, -, hMaxDepth⟩, hDepth⟩ := mirConstevalStep_charged hCe
    have hNext : AtWork memory outer ce' (owner.after serial inst) serial next func rest frame'
        callers vm' := {
      agrees := hGoes.agrees
      below := h.below.after h.serial inst
      serial := h.serial
      func := hGoes.func.trans hFetched.func
      block := fun hNone => hFetched.block (hGoes.block.symm.trans hNone)
      rest := hGoes.rest
      trapCode := hGoes.trapCode
      module := (hGoes.module.trans hFetched.module).trans hModule.symm
      depth := hFetched.depth.trans hDepth.symm
      maxDepth := hMaxDepth ▸ h.maxDepth }
    refine (hLater _ _ hNext).of_step hStep fun vm'' hLeft => ?_
    exact hLeft.of_step (mirConstevalStep_others hOk hCe) (Nat.le_refl next)
      ⟨hModule, hDepth, hMaxDepth⟩ hGoes.module hGoes.kept

end

theorem enterCall_eq_ok {args : List MirConstValue} (h : enterCall ce func args = .ok ce') :
    ce.callDepth < ce.maxCallDepth ∧
      ce' = setParams { ce with callDepth := ce.callDepth + 1 } func args := by
  unfold enterCall at h
  split at h
  · cases h
  · split at h
    · cases h
    · next hDepth =>
        cases h
        exact ⟨Nat.lt_of_not_le hDepth, rfl⟩

theorem insts_ne_nil_of_watchInsts
    (h : watchInsts host castI64 fuel ce owner serial next func insts = some w) : insts ≠ [] := by
  rintro rfl
  cases fuel with
  | zero => cases h
  | succ fuel => cases h

theorem entryBlock_eq_some (h : entryBlock func = some b) : func.blocks ≠ [] ∧ b = 0 := by
  unfold entryBlock at h
  split at h
  · cases h
  · next hBlocks =>
      cases h
      exact ⟨hBlocks, rfl⟩

theorem AtWork.call_step {name : Option String} {target : MirValueId} {callee : MirFunction}
    {w : Watched} {owner' : Owners} {serial' next' : Nat}
    (h : AtWork memory outer ce owner serial next func (inst :: rest) frame callers vm)
    (hOp : inst.op = .call name args target)
    (hCallee : name.bind ce.module.findFunction = some callee)
    (hOk : Visit.CallOk ⟨ce.module, func, serial, owner, ce.slots, inst⟩ name args)
    (hEnter : enterCall ce callee ((args.take maxCallArgs).map ce.slots) = .ok ce')
    (hEntry : entryBlock callee = some b)
    (hWatch : watchInsts host castI64 fuel ce' owner' serial' next' callee
      (callee.insts b) = some w) :
    ∃ vm', step host (gotoLoop host) (.running frame callers vm) =
        some (.running (startFrame callee
          (((args.take maxCallArgs).map ce.slots).map (constReg host)))
          (frame.fetch inst rest :: callers) vm') ∧
      vm'.heap = vm.heap ∧ vm'.trapCode = 0 ∧ vm'.module = vm.module := by
  obtain ⟨name, rfl, hFind⟩ := Option.bind_eq_some_iff.mp hCallee
  simp only [Visit.CallOk, hFind] at hOk
  obtain ⟨hHost, hLength, hFile, hReads⟩ := hOk
  obtain ⟨hDepth, rfl⟩ := enterCall_eq_ok hEnter
  obtain ⟨hBlocks, rfl⟩ := entryBlock_eq_some hEntry
  have hFetched := h.fetch
  have hArgs : ∀ id ∈ args.take callee.params.length,
      (frame.fetch inst rest).reg id = constReg host (ce.slots id) :=
    fun id hMem => hFetched.agrees.reg_eq (hReads id hMem).2
  let called := vm.tick.record (.call (some name) ((args.take 64).map (frame.fetch inst rest).reg))
  have hExec : execGoto host (frame.fetch inst rest) inst vm.tick =
      .enter callee ((args.take 64).map (frame.fetch inst rest).reg) called := by
    have hFile' : ∀ id ∈ args.take 64, id < cvmRegCount (frame.fetch inst rest).func := by
      rw [hFetched.func]
      exact hFile
    have hModule : called.module = ce.module := hFetched.module
    simp only [execGoto, hOp, CvmFrame.readIds, hFetched.trapCode, if_true]
    rw [touch_eq_self hFile', cvmDispatchCall, if_neg (not_not_intro hFetched.trapCode)]
    simp only [if_neg hHost]
    rw [show (vm.tick.record _).module = ce.module from hModule, hFind]
  refine ⟨called, ?_, rfl, hFetched.trapCode, rfl⟩
  have hShallow : ¬cvmMaxCallDepth < (frame.fetch inst rest :: callers).length + 1 := by
    have := h.depth
    have := h.maxDepth
    rw [length_cons]
    omega
  have hInsts : callee.insts 0 ≠ [] := insts_ne_nil_of_watchInsts hWatch
  have hLoop : (gotoLoop host).entryOk callee = true := by simpa [gotoLoop] using hInsts
  rw [h.step_eq, hExec, settle, cvmExecFunction, if_neg hShallow, if_pos hLoop,
    startFrame_args hLength hArgs]

/-- The slots of a call agree with its frame again when the call it made is over. -/
theorem Agrees.after_call {slots slots' : MirValueId → MirConstValue} {heap heap' : Heap}
    (h : Agrees memory outer slots owner serial frame heap) (hSerial : serial < next)
    (hOthers : OthersKept next (next + 1) slots slots' owner owner')
    (hKept : Kept memory (memory.Live heap) heap heap') :
    Agrees memory outer slots' owner' serial frame heap' := by
  have hOwn : ∀ id role, owner' id = some (serial, role) →
      owner id = some (serial, role) ∧ slots' id = slots id := by
    intro id role hOwner
    have hForeign : Foreign next (next + 1) (owner' id) := by
      rw [hOwner]
      exact ⟨Nat.ne_of_lt hSerial, Nat.lt_succ_of_lt hSerial⟩
    obtain ⟨hSame, hSlot⟩ := hOthers id hForeign
    exact ⟨hSame.trans hOwner, hSlot⟩
  constructor
  · intro id hNone
    have hForeign : Foreign next (next + 1) (owner' id) := by
      rw [hNone]
      trivial
    obtain ⟨hSame, hSlot⟩ := hOthers id hForeign
    rw [hSlot]
    exact h.untouched id (hSame.trans hNone)
  · intro id hValue
    obtain ⟨hOwner, hSlot⟩ := hOwn id .value hValue
    rw [hSlot]
    exact h.value id hOwner
  · intro id hCell
    obtain ⟨hOwner, hSlot⟩ := hOwn id .cell hCell
    obtain ⟨⟨hNonzero, hNotOuter, hLive⟩, hRead⟩ := h.cell id hOwner
    obtain ⟨hStill, hSame⟩ := hKept _ hLive
    rw [hSlot]
    exact ⟨⟨hNonzero, hNotOuter, hStill⟩, hSame.trans hRead⟩
  · intro a b ha hb hEq
    exact h.distinct a b (hOwn a .cell ha).1 (hOwn b .cell hb).1 hEq
  · exact h.allocas
  · exact fun a ha => (hKept a (h.outer a ha)).1

section

variable (h : AtWork memory outer ce owner serial next func (inst :: rest) frame callers vm)
include h

theorem AtWork.resume_eq (hId : inst.result < cvmRegCount func)
    (hLeft : Left memory (memory.Live vm.heap) ce' owner' next (next + 1) vm' w vm'')
    (hOthers : OthersKept next (next + 1) ce.slots ce'.slots owner owner')
    (hCe : ce'.module = ce.module ∧ ce'.callDepth = ce.callDepth + 1 ∧ ce'.maxCallDepth =
      ce.maxCallDepth) (hHeap : vm'.heap = vm.heap) (hModule : vm'.module = vm.module) :
    ∃ frame', Cvm.resume host (frame.fetch inst rest :: callers) vm'' (constReg host w.value) =
        .running frame' callers vm'' ∧
      AtWork memory outer
        (if inst.result = 0 then w.ce else w.ce.setSlot inst.result w.value)
        (if inst.result = 0 then w.owner else w.owner.mark serial inst.result .value) serial w.next
        func rest frame' callers vm'' := by
  have hFetched := h.fetch
  have hKept : Kept memory (memory.Live vm.heap) vm.heap vm''.heap := hHeap ▸ hLeft.kept
  have hAgrees : Agrees memory outer w.ce.slots w.owner serial (frame.fetch inst rest) vm''.heap :=
    hFetched.agrees.after_call h.serial (hOthers.trans (Nat.le_refl _) hLeft.others) hKept
  have hSerial : serial < w.next := Nat.lt_of_lt_of_le h.serial (Nat.le_of_succ_le hLeft.next)
  have hDepth : callers.length + 1 = w.ce.callDepth := by
    rw [hLeft.depth, hCe.2.1, h.depth, Nat.add_sub_cancel]
  have hMaxDepth : w.ce.maxCallDepth < cvmMaxCallDepth := by
    rw [hLeft.maxDepth, hCe.2.2]
    exact h.maxDepth
  have hSame : vm''.module = w.ce.module := by
    rw [hLeft.module, hModule, h.module, hLeft.ceModule, hCe.1]
  obtain ⟨regs, hSet, hReg⟩ :=
    cvmRegSet_of_lt (frame.fetch inst rest) vm'' (constReg host w.value) (hFetched.func ▸ hId)
  refine ⟨{ frame.fetch inst rest with regs := regs }, ?_, ?_⟩
  · have hWritten : cvmRegSet (frame.fetch inst rest) (frame.fetch inst rest).resultId
        (constReg host w.value) vm'' = ({ frame.fetch inst rest with regs := regs }, vm'') := hSet
    rw [Cvm.resume, hWritten]
    exact if_neg (not_not_intro hLeft.trapCode)
  · by_cases hZero : inst.result = 0
    · rw [if_pos hZero] at hReg
      rw [if_pos hZero, if_pos hZero]
      have hFrame : Agrees memory outer w.ce.slots w.owner serial
          { frame.fetch inst rest with regs := regs } vm''.heap :=
        ⟨hReg ▸ hAgrees.untouched, hReg ▸ hAgrees.value, hReg ▸ hAgrees.cell,
          hReg ▸ hAgrees.distinct, hAgrees.allocas, hAgrees.outer⟩
      exact ⟨hFrame, hLeft.below, hSerial, hFetched.func, hFetched.block, rfl, hLeft.trapCode,
        hSame, hDepth, hMaxDepth⟩
    · rw [if_neg hZero] at hReg
      rw [if_neg hZero, if_neg hZero]
      refine ⟨?_, hLeft.below.mark hSerial _ _, hSerial, hFetched.func, hFetched.block, rfl,
        hLeft.trapCode, hSame, hDepth, hMaxDepth⟩
      refine hAgrees.update ?_ rfl (by decide) ?_
      · intro other hNe
        rw [hReg, update_of_ne hNe]
      · intro _ _
        rw [hReg, update_self]

/-- The machine comes back from a call it makes as the evaluator does, and goes on. -/
theorem AtWork.call_returns {name : Option String} {target : MirValueId} {callee : MirFunction}
    {inner : Watched}
    (hOp : inst.op = .call name args target)
    (hCallee : name.bind ce.module.findFunction = some callee)
    (hOk : Visit.Ok host castI64 ⟨ce.module, func, serial, owner, ce.slots, inst⟩)
    (hEnter : enterCall ce callee ((args.take maxCallArgs).map ce.slots) = .ok ce')
    (hEntry : entryBlock callee = some b)
    (hWatch : watchInsts host castI64 fuel ce' (owner.params next callee (args.take maxCallArgs))
      next (next + 1) callee (callee.insts b) = some inner)
    (hInner : ∀ outer callers,
      ReturnsFrom memory outer ce' (owner.params next callee (args.take maxCallArgs)) next
        (next + 1) callee (callee.insts b) callers (constReg host inner.value) inner)
    (hLater : ReturnsFrom memory outer
      (if inst.result = 0 then inner.ce else inner.ce.setSlot inst.result inner.value)
      (if inst.result = 0 then inner.owner else inner.owner.mark serial inst.result .value)
      serial inner.next func rest callers value w) :
    Returns host (.running frame callers vm) callers value
      (Left memory outer ce owner serial next vm (w.log visits)) := by
  simp only [Visit.Ok, hOp] at hOk
  obtain ⟨hCallOk, hId⟩ := hOk
  obtain ⟨vm', hStep, hHeap, hTrap, hModule⟩ :=
    h.call_step hOp hCallee hCallOk hEnter hEntry hWatch
  obtain ⟨hDepth, rfl⟩ := enterCall_eq_ok hEnter
  obtain ⟨_, rfl⟩ := entryBlock_eq_some hEntry
  let values := (args.take maxCallArgs).map ce.slots
  let started : MirConstEval := { ce with callDepth := ce.callDepth + 1 }
  have hParams : owner.params next callee (args.take maxCallArgs) =
      owner.params next callee values :=
    (Owners.params_map ce.slots _).symm
  have hKeptCe := setParams_kept started callee values
  have hOthers : OthersKept next (next + 1) ce.slots (setParams started callee values).slots owner
      (owner.params next callee (args.take maxCallArgs)) := by
    rw [hParams]
    exact setParams_others (.inl rfl) values
  have hEntered : AtWork memory (memory.Live vm.heap) (setParams started callee values)
      (owner.params next callee (args.take maxCallArgs)) next (next + 1) callee (callee.insts 0)
      (startFrame callee (values.map (constReg host))) (frame.fetch inst rest :: callers) vm' := {
    agrees := by
      rw [hParams, hHeap]
      exact startFrame_agrees started callee (fun id hNone =>
        (h.agrees.untouched id hNone).1) h.below
        (fun _ ha => ha) values
    below := (h.below.mono (Nat.le_succ next)).params (Nat.lt_succ_self next) _
    serial := Nat.lt_succ_self next
    func := rfl
    block := by
      rw [startFrame, if_neg (entryBlock_eq_some hEntry).1]
      exact Option.some_ne_none 0
    rest := rfl
    trapCode := hTrap
    module := (hModule.trans h.module).trans hKeptCe.1.symm
    depth := by
      rw [hKeptCe.2.1, length_cons, h.depth]
    maxDepth := by
      rw [hKeptCe.2.2]
      exact h.maxDepth }
  rcases hInner _ _ _ _ hEntered with hOut | ⟨n, vm'', hRun, hLeft⟩
  · exact .inl (hOut.of_runFor (n := 1) (runFor_succ_of_some hStep))
  · obtain ⟨frame', hResume, hBack⟩ := h.resume_eq hId hLeft hOthers hKeptCe hHeap hModule
    have hAll : runFor (step host (gotoLoop host)) (1 + n) (.running frame callers vm) =
        .running frame' callers vm'' := by
      rw [runFor_add, runFor_succ_of_some hStep, runFor, hRun, hResume]
    refine (hLater _ _ hBack).of_runFor hAll fun last hLast => ?_
    have hCalled : OthersKept serial next ce.slots inner.ce.slots owner inner.owner :=
      (hOthers.trans (Nat.le_refl _) hLeft.others).of_callee
    have hResult : OthersKept serial next inner.ce.slots
        (if inst.result = 0 then inner.ce else inner.ce.setSlot inst.result inner.value).slots
        inner.owner
        (if inst.result = 0 then inner.owner else inner.owner.mark serial inst.result .value) := by
      split
      · exact .refl
      · exact .mark (.inl rfl) _ _ _
    have hCe : inner.ce.module = ce.module ∧ inner.ce.callDepth = ce.callDepth ∧
        inner.ce.maxCallDepth = ce.maxCallDepth := by
      rw [hLeft.ceModule, hLeft.depth, hLeft.maxDepth, hKeptCe.2.1]
      exact ⟨hKeptCe.1, Nat.add_sub_cancel .., hKeptCe.2.2⟩
    refine hLast.of_step (hCalled.trans (Nat.le_refl next) hResult)
      (Nat.le_of_succ_le hLeft.next) ?_
      (hLeft.module.trans hModule) ?_
    · split
      · exact hCe
      · exact hCe
    · rw [← hHeap]
      exact fun a ha => hLeft.kept a (h.agrees.outer a ha)

end

/-- Where every instruction that the evaluator comes to finds what its own call
has put there, the machine returns what the evaluator returns. -/
theorem watchInsts_returns
    (hWatch : watchInsts host castI64 fuel ce owner serial next func insts = some w)
    (hOk : ∀ visit ∈ w.visits, visit.Ok host castI64)
    (h : AtWork memory outer ce owner serial next func insts frame callers vm) :
    Returns host (.running frame callers vm) callers (constReg host w.value)
      (Left memory outer ce owner serial next vm w) := by
  induction fuel generalizing outer ce owner serial next func insts w frame callers vm with
  | zero => cases hWatch
  | succ fuel ih =>
    cases insts with
    | nil => cases hWatch
    | cons inst rest =>
      cases hOp : inst.op with
      | br target =>
        simp only [watchInsts, hOp, Option.bind_eq_some_iff, Option.map_eq_some_iff] at hWatch
        obtain ⟨b, rfl, later, hLater, rfl⟩ := hWatch
        refine h.jump_returns ?_ fun _ _ =>
          ih hLater fun visit hMem => hOk visit (mem_append_right _ hMem)
        simp only [execGoto, hOp, CvmFrame.readIds]
        rw [touch_eq_self (by simp)]
      | condbr cond trueBb falseBb =>
        simp only [watchInsts, hOp] at hWatch
        cases hCond : ce.slots cond with
        | bool taken =>
          simp only [hCond, Option.bind_eq_some_iff, Option.map_eq_some_iff] at hWatch
          obtain ⟨b, hTarget, later, hLater, rfl⟩ := hWatch
          have hVisit := hOk ⟨ce.module, func, serial, owner, ce.slots, inst⟩
            (mem_append_left _ (mem_singleton.mpr rfl))
          simp only [Visit.Ok, hOp, Visit.Reads] at hVisit
          refine h.jump_returns ?_ fun _ _ =>
            ih hLater fun visit hMem => hOk visit (mem_append_right _ hMem)
          have hFetched := h.fetch
          have hIds : ∀ id ∈ [cond], id < cvmRegCount (frame.fetch inst rest).func := by
            rw [hFetched.func]
            simpa using hVisit.1
          simp only [execGoto, hOp, CvmFrame.readIds]
          rw [touch_eq_self hIds, hFetched.agrees.reg_eq hVisit.2, hCond, ← hTarget]
          cases taken <;> rfl
        | _ =>
          rw [hCond] at hWatch
          cases hWatch
      | ret value =>
        simp only [watchInsts, hOp, Option.some.injEq] at hWatch
        subst hWatch
        have hVisit := hOk ⟨ce.module, func, serial, owner, ce.slots, inst⟩
          (mem_singleton.mpr rfl)
        simp only [Visit.Ok, hOp, Visit.Reads] at hVisit
        have hFetched := h.fetch
        have hIds : ∀ id ∈ [value], id < cvmRegCount (frame.fetch inst rest).func := by
          rw [hFetched.func]
          simpa using hVisit.1
        refine h.leave_returns ?_
        simp only [execGoto, hOp, CvmFrame.readIds]
        rw [touch_eq_self hIds, hFetched.agrees.reg_eq hVisit.2]
      | retVoid =>
        simp only [watchInsts, hOp, Option.some.injEq] at hWatch
        subst hWatch
        refine h.leave_returns ?_
        simp only [execGoto, hOp, CvmFrame.readIds]
        rw [touch_eq_self (by simp)]
        rfl
      | call name args target =>
        simp only [watchInsts, hOp] at hWatch
        obtain ⟨callee, hCallee, hWatch⟩ := Option.bind_eq_some_iff.mp hWatch
        cases hEnter : enterCall ce callee ((args.take maxCallArgs).map ce.slots) with
        | error failed =>
          rw [hEnter] at hWatch
          cases hWatch
        | ok entered =>
          simp only [hEnter, Option.bind_eq_some_iff, Option.map_eq_some_iff] at hWatch
          obtain ⟨b, hEntry, inner, hInner, later, hLater, rfl⟩ := hWatch
          have hVisit := hOk ⟨ce.module, func, serial, owner, ce.slots, inst⟩
            (mem_append_left _ mem_cons_self)
          refine h.call_returns hOp hCallee hVisit hEnter hEntry hInner ?_ ?_
          · exact fun _ _ _ _ => ih hInner fun visit hMem =>
              hOk visit (mem_append_left _ (mem_cons_of_mem _ hMem))
          · exact fun _ _ => ih hLater fun visit hMem => hOk visit (mem_append_right _ hMem)
      | _ =>
        simp only [watchInsts, hOp] at hWatch
        split at hWatch
        · next stepped hStep =>
            simp only [Option.map_eq_some_iff] at hWatch
            obtain ⟨later, hLater, rfl⟩ := hWatch
            have hVisit := hOk ⟨ce.module, func, serial, owner, ce.slots, inst⟩
              (mem_append_left _ (mem_singleton.mpr rfl))
            exact h.step_returns hVisit hStep
              fun _ _ => ih hLater fun visit hMem => hOk visit (mem_append_right _ hMem)
        · cases hWatch

end

/-- Whenever the evaluator returns a value for a call, the machine returns the
same, unless it runs out of memory before. -/
def SameResult (host : CvmHost Heap) (castI64 : Word → Word) (module : MirModule)
    (func : MirFunction) (args : List MirConstValue) (fuel : Nat) : Prop :=
  ∀ ce v, mirConstevalCall host castI64 fuel (mirConstevalInit module) func args =
      some (ce, some v) →
    ∀ vm : CvmState Heap, vm.module = module → vm.trapCode = 0 →
      let start := cvmExecFunction host (gotoLoop host) [] vm func (args.map (constReg host))
      RunsOut host start ∨
        ∃ n vm', runFor (step host (gotoLoop host)) n start = .returned (constReg host v) vm' ∧
          vm'.trapCode = 0

/-- A call returns the same on both sides when every instruction that the
evaluator comes to meets its condition. -/
theorem sameResult_of_ok (memory : HostMemory host) {module : MirModule} {func : MirFunction}
    {args : List MirConstValue} {fuel : Nat}
    (hOk : ∀ visit ∈ constevalVisits host castI64 fuel module func args,
      visit.Ok host castI64) :
    SameResult host castI64 module func args fuel := by
  intro ce v hCall vm hModule hTrap
  unfold mirConstevalCall at hCall
  unfold constevalVisits at hOk
  cases hEnter : enterCall (mirConstevalInit module) func args with
  | error failed =>
    rw [hEnter] at hCall
    cases hCall
  | ok entered =>
    cases hEntry : entryBlock func with
    | none =>
      rw [hEnter, hEntry] at hCall
      cases hCall
    | some b =>
      simp only [hEnter, hEntry] at hCall hOk
      obtain ⟨w, hWatch, rfl, rfl⟩ :=
        exists_watchInsts hCall (Owners.params (fun _ => none) 0 func args) 0 1
      rw [Option.bind_some, hWatch] at hOk
      obtain ⟨hDepth, rfl⟩ := enterCall_eq_ok hEnter
      obtain ⟨hBlocks, rfl⟩ := entryBlock_eq_some hEntry
      let started : MirConstEval := { mirConstevalInit module with callDepth := 1 }
      have hKept := setParams_kept started func args
      have hNobody : ∀ next, Owners.Below (fun _ => none) next := fun _ _ _ _ hNot => nomatch hNot
      have hLimit : started.maxCallDepth < cvmMaxCallDepth := of_decide_eq_true rfl
      have hStart : AtWork memory (fun _ => False) (setParams started func args)
          (Owners.params (fun _ => none) 0 func args) 0 1 func (func.insts 0)
          (startFrame func (args.map (constReg host))) [] vm := {
        agrees := startFrame_agrees started func (fun _ _ => rfl) (hNobody 0) nofun args
        below := (hNobody 1).params Nat.zero_lt_one args
        serial := Nat.zero_lt_one
        func := rfl
        block := by
          rw [startFrame, if_neg hBlocks]
          nofun
        rest := rfl
        trapCode := hTrap
        module := hModule.trans hKept.1.symm
        depth := hKept.2.1.symm
        maxDepth := by
          rw [hKept.2.2]
          exact hLimit }
      have hInsts : func.insts 0 ≠ [] := insts_ne_nil_of_watchInsts hWatch
      have hLoop : (gotoLoop host).entryOk func = true := by simpa [gotoLoop] using hInsts
      have hShallow : ¬cvmMaxCallDepth < ([] : List CvmFrame).length + 1 := by decide
      rw [cvmExecFunction, if_neg hShallow, if_pos hLoop]
      rcases watchInsts_returns hWatch hOk hStart with hOut | ⟨n, vm', hRun, hLeft⟩
      · exact .inl hOut
      · exact .inr ⟨n, vm', hRun, hLeft.trapCode⟩

/-- The memory of `wordHost`, where an allocation has to fit into the address space. -/
def smallHost : CvmHost (List Word) :=
  { wordHost with
    calloc heap bytes :=
      if heap.length + bytes < 0x100000000 then wordHost.calloc heap bytes else none }

private theorem toNat_nextCell {heap : List Word} (h : heap.length < 0x100000000) :
    (BitVec.ofNat 64 (8 * (heap.length + 1))).toNat = 8 * (heap.length + 1) := by
  rw [BitVec.toNat_ofNat]
  exact Nat.mod_eq_of_lt (by omega)

def smallMemory : HostMemory smallHost where
  Live heap a := a.toNat % 8 = 0 ∧ 8 ≤ a.toNat ∧ a.toNat / 8 - 1 < heap.length
  calloc := by
    intro heap heap' bytes a hBytes hCalloc
    simp only [smallHost] at hCalloc
    split at hCalloc
    · next hFits =>
        cases hCalloc
        have hAddress := toNat_nextCell (Nat.lt_of_le_of_lt (Nat.le_add_right _ bytes) hFits)
        have hLength : (heap ++ List.replicate ((bytes + 7) / 8) (0 : Word)).length =
            heap.length + (bytes + 7) / 8 := by simp
        have hSome : 0 < (bytes + 7) / 8 := by omega
        refine ⟨⟨?_, ?_, ?_, ?_⟩, ?_⟩
        · intro hZero
          rw [hZero] at hAddress
          simp at hAddress
        · rw [hAddress]
          omega
        · rw [hAddress, hLength]
          omega
        · simp only [smallHost, wordHost]
          have hIndex : 8 * (heap.length + 1) / 8 - 1 = heap.length := by omega
          rw [hAddress, if_pos (by omega), hIndex, getElem?_append_right (Nat.le_refl _)]
          simp [hSome]
        · rintro b ⟨hAligned, hLow, hHigh⟩
          refine ⟨⟨hAligned, hLow, ?_⟩, ?_⟩
          · rw [hLength]
            omega
          · simp only [smallHost, wordHost]
            rw [getElem?_append_left hHigh]
    · cases hCalloc
  write := by
    rintro heap a w ⟨hAligned, hLow, hHigh⟩
    refine ⟨heap.set (a.toNat / 8 - 1) w, ?_, ⟨hAligned, hLow, ?_⟩, ?_, ?_⟩
    · simp only [smallHost, wordHost]
      rw [if_pos ⟨hAligned, hHigh⟩]
    · rwa [length_set]
    · simp only [smallHost, wordHost]
      rw [if_pos hAligned, getElem?_set_self hHigh]
    · rintro b ⟨hAlignedB, hLowB, hHighB⟩ hNe
      have hApart : a.toNat / 8 - 1 ≠ b.toNat / 8 - 1 := by
        intro hEq
        exact hNe (BitVec.eq_of_toNat_eq (by omega))
      refine ⟨⟨hAlignedB, hLowB, ?_⟩, ?_⟩
      · rwa [length_set]
      · simp only [smallHost, wordHost]
        rw [getElem?_set_ne hApart]
  free := fun hLive _ => ⟨hLive, rfl⟩

/-- The sum of the parameter and itself, kept in a cell. -/
def twice : MirFunction where
  name := "twice"
  returnType := some .i64
  params := [⟨"n", some .i64, 1⟩]
  blocks := [{ insts := [{ op := .alloca (some .i64) 1, result := 2, type := some (.ptr .i64) },
    { op := .binary .add 1 1, result := 3, type := some .i64 }, { op := .store 2 3 },
    { op := .load 2, result := 4, type := some .i64 }, { op := .ret 4 }] }]
  nextValueId := 5
  isConstexpr := true

/-- A call of `twice` whose caller reads none of the slots it shares with it. -/
def callsTwice : MirFunction where
  name := "calls_twice"
  returnType := some .i64
  params := [⟨"n", some .i64, 1⟩]
  blocks := [{ insts := [{ op := .constInt 1, result := 2, type := some .i64 },
    { op := .binary .add 1 2, result := 3, type := some .i64 },
    { op := .call (some "twice") [3] 0, result := 5, type := some .i64 }, { op := .ret 5 }] }]
  nextValueId := 6
  isConstexpr := true

/-- The evaluator and the machine find the same for this call. -/
theorem sameResult_callsTwice :
    (mirConstevalCall smallHost id 20 (mirConstevalInit { funcList := [twice, callsTwice] })
        callsTwice [.int 4]).map (·.2) = some (some (.int 10)) ∧
      SameResult smallHost id { funcList := [twice, callsTwice] } callsTwice [.int 4] 20 :=
  ⟨by decide +kernel, sameResult_of_ok smallMemory (by decide +kernel)⟩

/-- A constant, in the slot that the caller keeps its own constant in. -/
def ten : MirFunction where
  name := "ten"
  returnType := some .i64
  blocks := [{ insts := [{ op := .constInt 10, result := 1, type := some .i64 },
    { op := .ret 1 }] }]
  nextValueId := 2
  isConstexpr := true

/-- The constant is read again after the call. -/
def fivePlusTen : MirFunction where
  name := "five_plus_ten"
  returnType := some .i64
  blocks := [{ insts := [{ op := .constInt 5, result := 1, type := some .i64 },
    { op := .call (some "ten") [] 0, result := 2, type := some .i64 },
    { op := .binary .add 1 2, result := 3, type := some .i64 }, { op := .ret 3 }] }]
  nextValueId := 4
  isConstexpr := true

/-- The next instruction allocates a cell. -/
private def comesToAlloca (c : CvmConfig Heap) : Bool :=
  match c with
  | .running frame _ _ =>
    match frame.rest.head?.map MirInst.op with
    | some (.alloca ..) => true
    | _ => false
  | _ => false

private theorem RunsOut.comesToAlloca {c : CvmConfig Heap} (h : RunsOut host c) :
    ∃ n, comesToAlloca (runFor (step host (gotoLoop host)) n c) = true := by
  obtain ⟨n, frame, callers, vm, inst, rest, hRun, _, hRest, allocType, count, hOp, _⟩ := h
  refine ⟨n, ?_⟩
  rw [hRun]
  simp only [Consteval.comesToAlloca, hRest, head?_cons, Option.map_some, hOp]

private theorem runFor_of_result {m : Nat} {r : CvmReg × Nat}
    (h : (runFor (step host (gotoLoop host)) m c).result = some r) (n : Nat) :
    runFor (step host (gotoLoop host)) (m + n) c = runFor (step host (gotoLoop host)) m c := by
  rw [runFor_add]
  cases hRun : runFor (step host (gotoLoop host)) m c with
  | returned value vm => exact runFor_of_none rfl
  | _ =>
    rw [hRun] at h
    cases h

/-- The evaluator accepts a function and finds 20 where the machine returns 15. -/
theorem fivePlusTen_not_sameResult :
    mirConstevalEligible { funcList := [ten, fivePlusTen] } 2 fivePlusTen = some true ∧
      ¬SameResult smallHost id { funcList := [ten, fivePlusTen] } fivePlusTen [] 20 := by
  refine ⟨by decide +kernel, fun hSame => ?_⟩
  let vm : CvmState (List Word) := { module := { funcList := [ten, fivePlusTen] }, heap := [] }
  let start := cvmExecFunction smallHost (gotoLoop smallHost) [] vm fivePlusTen
    (([] : List MirConstValue).map (constReg smallHost))
  have hEval : (mirConstevalCall smallHost id 20
      (mirConstevalInit { funcList := [ten, fivePlusTen] }) fivePlusTen []).map (·.2) =
        some (some (.int 20)) := by decide +kernel
  have hEnd : (runFor (step smallHost (gotoLoop smallHost)) 6 start).result = some (15, 0) := by
    decide +kernel
  have hBefore : ∀ n < 7, comesToAlloca (runFor (step smallHost (gotoLoop smallHost)) n start) =
      false := by decide +kernel
  obtain ⟨⟨ce, _⟩, hCall, rfl⟩ := Option.map_eq_some_iff.mp hEval
  rcases hSame ce (.int 20) hCall vm rfl rfl with hOut | ⟨n, vm', hRun, _⟩
  · obtain ⟨n, hAlloca⟩ := hOut.comesToAlloca
    rcases Nat.lt_or_ge n 7 with hLt | hGe
    · exact absurd ((hBefore n hLt).symm.trans hAlloca) Bool.false_ne_true
    · obtain ⟨k, rfl⟩ := Nat.exists_eq_add_of_le (Nat.le_of_succ_le hGe)
      rw [runFor_of_result hEnd k] at hAlloca
      exact absurd ((hBefore 6 (Nat.lt_succ_self 6)).symm.trans hAlloca) Bool.false_ne_true
  · have hBoth : (runFor (step smallHost (gotoLoop smallHost)) (n + 6) start).result =
        some (20, vm'.trapCode) := by
      rw [runFor_add, hRun, runFor_of_none rfl]
      rfl
    rw [Nat.add_comm, runFor_of_result hEnd n, hEnd] at hBoth
    cases hBoth

end Casprix.Consteval
