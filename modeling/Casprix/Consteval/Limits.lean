import Casprix.Consteval.Activations

/-! The limits of the compile-time evaluator: no run of a call takes more steps or more nested
activations than it may, and a call that fails has an error. -/
namespace Casprix.Consteval

open List Mir Cvm Library Option

variable {Heap : Type} {host : CvmHost Heap} {castI64 : Word → Word} {ce ce' : MirConstEval}
  {func : MirFunction} {insts : List MirInst} {inst : MirInst} {callers : List Caller}

section

/-- Where an instruction that is not charged can lead within its function. -/
def freeNexts (func : MirFunction) (inst : MirInst) (rest : List MirInst) : List (List MirInst) :=
  match inst.op with
  | .br target => target.toList.map func.insts
  | .condbr _ trueBb falseBb => (trueBb.toList ++ falseBb.toList).map func.insts
  | .call .. => [rest]
  | _ => []

variable (host castI64) in
/-- What is known of a move. A failure keeps the depth, and only charged instructions go on behind
themselves. -/
def MoveSpec (ce : MirConstEval) (func : MirFunction) (insts : List MirInst) : Move → Prop
  | .fail failed => SameLimits ce failed ∧ failed.callDepth = ce.callDepth ∧
    failed.errorMsg ≠ none ∧
      failed.steps ≤ ce.steps + 1
  | .ret value => value = .void ∨ ∃ inst ∈ insts.head?, ∃ id,
    inst.op = .ret id ∧ value = ce.slots id
  | .trap => True
  | .goto ce' insts' => (ce' = ce ∧ (∃ b, insts' = func.insts b) ∧
      ∃ inst rest, insts = inst :: rest ∧ insts' ∈ freeNexts func inst rest) ∨
      ∃ inst, insts = inst :: insts' ∧ mirConstevalStep host castI64 ce inst = some (ce', true)
  | .enter entered callee start result rest => ∃ inst name args callee', insts = inst :: rest ∧
      inst.op = .call (some name) args callee' ∧ result = inst.result ∧
      ce.module.findFunction name = some callee ∧ (∃ b, start = callee.insts b) ∧
      enterCall ce callee ((args.take maxCallArgs).map ce.slots) = .ok entered

theorem jumpTo_spec {target : MirBlockRef} {rest : List MirInst}
    (hNext : ∀ b ∈ target, func.insts b ∈ freeNexts func inst rest) :
    MoveSpec host castI64 ce func (inst :: rest) (jumpTo func ce target) := by
  cases target with
  | none => exact ⟨⟨rfl, rfl, rfl⟩, rfl, some_ne_none _, Nat.le_succ _⟩
  | some b => exact .inl ⟨rfl, ⟨b, rfl⟩, inst, rest, rfl, hNext b rfl⟩

/-- A call that is entered is one activation deeper, and within the limit. -/
structure Entered (ce entered : MirConstEval) (callee : MirFunction)
    (args : List MirConstValue) : Prop where
  limits : SameLimits ce entered
  depth : entered.callDepth = ce.callDepth + 1
  within : entered.callDepth ≤ entered.maxCallDepth
  steps : entered.steps = ce.steps
  error : entered.errorMsg = ce.errorMsg
  slots : entered.slots = (setParams ce callee args).slots

theorem setParams_with (ce : MirConstEval) (args : List MirConstValue) (depth : Nat) :
    setParams { ce with callDepth := depth } func args =
      { ce with callDepth := depth, slots := (setParams ce func args).slots } := by
  unfold setParams
  induction func.params.zip args generalizing ce with
  | nil => rfl
  | cons p pairs ih => exact ih (ce.setSlot p.1.valueId p.2)

theorem enterCall_entered {callee : MirFunction} {args : List MirConstValue}
    {entered : MirConstEval}
    (h : enterCall ce callee args = .ok entered) : Entered ce entered callee args := by
  unfold enterCall at h
  split at h
  · cases h
  · split at h
    · cases h
    · next hDepth =>
        rw [setParams_with] at h
        obtain rfl := Except.ok.inj h
        exact ⟨⟨rfl, rfl, rfl⟩, rfl, Nat.lt_of_not_le hDepth, rfl, rfl, rfl⟩

theorem enterCall_refused {callee : MirFunction} {args : List MirConstValue}
    {refused : MirConstEval} (h : enterCall ce callee args = .error refused) :
    SameLimits ce refused ∧ refused.callDepth = ce.callDepth ∧ refused.errorMsg ≠ none ∧
      refused.steps = ce.steps := by
  unfold enterCall at h
  split at h
  · obtain rfl := Except.error.inj h
    exact ⟨⟨rfl, rfl, rfl⟩, rfl, some_ne_none _, rfl⟩
  · split at h
    · obtain rfl := Except.error.inj h
      exact ⟨⟨rfl, rfl, rfl⟩, rfl, some_ne_none _, rfl⟩
    · cases h

theorem enterCallee_spec {name : String} {args : List MirValueId} {callee : MirFunction}
    {callee' : MirValueId} {rest : List MirInst} (hOp : inst.op = .call (some name) args callee')
    (hFind : ce.module.findFunction name = some callee) :
    MoveSpec host castI64 ce func (inst :: rest) (enterCallee ce callee args inst.result rest) := by
  unfold enterCallee
  cases hEnter : enterCall ce callee ((args.take maxCallArgs).map ce.slots) with
  | error refused =>
    obtain ⟨hLimits, hDepth, hError, hSteps⟩ := enterCall_refused hEnter
    exact ⟨hLimits, hDepth, hError, hSteps ▸ Nat.le_succ _⟩
  | ok entered =>
    have hEntered := enterCall_entered hEnter
    cases entryBlock callee with
    | some b => exact ⟨inst, name, args, callee', rfl, hOp, rfl, hFind, ⟨b, rfl⟩, hEnter⟩
    | none =>
      refine ⟨⟨hEntered.limits.module, hEntered.limits.maxSteps,
        hEntered.limits.maxCallDepth⟩, ?_,
        some_ne_none _, hEntered.steps ▸ Nat.le_succ _⟩
      exact congrArg (· - 1) hEntered.depth

theorem move_spec (ce : MirConstEval) (func : MirFunction) (insts : List MirInst) :
    MoveSpec host castI64 ce func insts (move host castI64 ce func insts) := by
  have hFail : ∀ message : String,
      MoveSpec host castI64 ce func insts (.fail (ce.error message)) :=
    fun message => ⟨⟨rfl, rfl, rfl⟩, rfl, some_ne_none _, Nat.le_succ _⟩
  cases insts with
  | nil => exact hFail _
  | cons inst rest =>
    cases hOp : inst.op with
    | br target =>
      simp only [move, hOp]
      refine jumpTo_spec fun b hb => ?_
      simp only [freeNexts, hOp]
      exact mem_map_of_mem (mem_toList.mpr hb)
    | condbr cond trueBb falseBb =>
      simp only [move, hOp]
      cases ce.slots cond with
      | bool taken =>
        refine jumpTo_spec fun b hb => ?_
        simp only [freeNexts, hOp]
        refine mem_map_of_mem (mem_append.mpr ?_)
        cases taken with
        | true => exact .inl (mem_toList.mpr hb)
        | false => exact .inr (mem_toList.mpr hb)
      | _ => exact hFail _
    | ret value =>
      simp only [move, hOp]
      exact .inr ⟨inst, rfl, value, hOp, rfl⟩
    | retVoid =>
      simp only [move, hOp]
      exact .inl rfl
    | call name args callee' =>
      simp only [move, hOp]
      cases hFind : name.bind ce.module.findFunction with
      | none => exact hFail _
      | some callee =>
        cases name with
        | none => cases hFind
        | some name => exact enterCallee_spec hOp hFind
    | _ =>
      simp only [move, hOp]
      cases hStep : mirConstevalStep host castI64 ce inst with
      | none => trivial
      | some stepped =>
        obtain ⟨stepped, ok⟩ := stepped
        have hCharged := mirConstevalStep_charged hStep
        cases ok with
        | false => exact ⟨hCharged.limits, hCharged.depth,
          hCharged.error rfl, hCharged.steps.le⟩
        | true => exact .inr ⟨inst, rfl, hStep⟩

end

section

variable {funcs : List MirFunction}

/-- What is left of a block, for every place in a function. -/
def tails (func : MirFunction) : List (List MirInst) :=
  [] :: func.blocks.flatMap fun block => block.insts.tails

/-- The values that the functions name. -/
def named (funcs : List MirFunction) : List MirValueId :=
  funcs.flatMap fun func => func.params.map (·.valueId) ++
    (func.blocks.flatMap (·.insts)).flatMap fun inst => inst.result :: inst.op.operands

theorem insts_mem_tails (func : MirFunction) (b : MirBlockId) : func.insts b ∈ tails func := by
  unfold MirFunction.insts MirFunction.block?
  cases hBlock : func.blocks[b]? with
  | none => exact mem_cons_self
  | some block =>
    exact mem_cons_of_mem _ (mem_flatMap.mpr
      ⟨block, mem_of_getElem? hBlock, (mem_tails _ _).mpr suffix_rfl⟩)

theorem exists_block_of_mem_tails (h : inst :: insts ∈ tails func) :
    ∃ block ∈ func.blocks, inst :: insts <:+ block.insts := by
  rcases mem_cons.mp h with hNil | hBlock
  · cases hNil
  · obtain ⟨block, hMem, hTail⟩ := mem_flatMap.mp hBlock
    exact ⟨block, hMem, (mem_tails _ _).mp hTail⟩

theorem rest_mem_tails (h : inst :: insts ∈ tails func) : insts ∈ tails func := by
  obtain ⟨block, hMem, hSuffix⟩ := exists_block_of_mem_tails h
  refine mem_cons_of_mem _ (mem_flatMap.mpr ⟨block, hMem, (mem_tails _ _).mpr ?_⟩)
  exact (suffix_cons inst insts).trans hSuffix

theorem mem_named (hFunc : func ∈ funcs) (h : inst :: insts ∈ tails func) {id : MirValueId}
    (hId : id = inst.result ∨ id ∈ inst.op.operands) : id ∈ named funcs := by
  obtain ⟨block, hMem, hSuffix⟩ := exists_block_of_mem_tails h
  have hInst : inst ∈ func.blocks.flatMap (·.insts) :=
    mem_flatMap.mpr ⟨block, hMem, hSuffix.subset mem_cons_self⟩
  refine mem_flatMap.mpr ⟨func, hFunc,
    mem_append_right _ (mem_flatMap.mpr ⟨inst, hInst, ?_⟩)⟩
  exact mem_cons.mpr hId

end

section

variable {ce₀ : MirConstEval} {funcs : List MirFunction} {c : Activation}
  {value : Option MirConstValue}

/-- The most steps an evaluation that starts at `ce₀` can have behind it. -/
def stepLimit (ce₀ : MirConstEval) : Nat := max ce₀.steps ce₀.maxSteps

def Caller.Known (funcs : List MirFunction) (caller : Caller) : Prop :=
  caller.func ∈ funcs ∧ caller.result ∈ named funcs ∧ caller.rest ∈ tails caller.func

/-- An activation of a call that was made at `ce₀` to one of the functions. -/
structure Active (ce₀ : MirConstEval) (funcs : List MirFunction) (c : Activation) : Prop where
  limits : SameLimits ce₀ c.ce
  depth : c.ce.callDepth = ce₀.callDepth + (c.callers.length + 1)
  within : c.ce.callDepth ≤ ce₀.maxCallDepth
  least : ce₀.steps ≤ c.ce.steps
  steps : c.ce.steps ≤ stepLimit ce₀
  func : c.func ∈ funcs
  insts : c.insts ∈ tails c.func
  callers : ∀ caller ∈ c.callers, caller.Known funcs

/-- The call has been left. A failure has an error, and only a failure can be over the limit. -/
structure Ended (ce₀ ce : MirConstEval) (value : Option MirConstValue) : Prop where
  limits : SameLimits ce₀ ce
  depth : ce.callDepth = ce₀.callDepth
  steps : ce.steps ≤ stepLimit ce₀ + 1
  within : value ≠ none → ce.steps ≤ stepLimit ce₀
  error : value = none → ce.errorMsg ≠ none

def Valid (ce₀ : MirConstEval) (funcs : List MirFunction) : EvalState → Prop
  | .running c => Active ce₀ funcs c
  | .returned ce value => Ended ce₀ ce value
  | .trapped => True

theorem SameLimits.leave (h : SameLimits ce₀ ce) : SameLimits ce₀ ce.leave :=
  ⟨h.module, h.maxSteps, h.maxCallDepth⟩

theorem setResult_with (ce : MirConstEval) (id : MirValueId) (v : MirConstValue) :
    ∃ slots, ce.setResult id v = { ce with slots } := by
  unfold MirConstEval.setResult
  split
  · exact ⟨ce.slots, rfl⟩
  · exact ⟨_, rfl⟩

section

variable (hLimits : SameLimits ce₀ ce) (hDepth : ce.callDepth = ce₀.callDepth + callers.length)
include hLimits hDepth

theorem resume_fail (hSteps : ce.steps ≤ stepLimit ce₀ + 1) (hError : ce.errorMsg ≠ none) :
    Valid ce₀ funcs (resume ce none callers) := by
  induction callers generalizing ce with
  | nil => exact ⟨hLimits, hDepth, hSteps, (absurd rfl ·), fun _ => hError⟩
  | cons caller rest ih =>
    refine ih hLimits.leave ?_ hSteps hError
    exact congrArg (· - 1) hDepth

theorem resume_value (hWithin : ce.callDepth ≤ ce₀.maxCallDepth)
    (hLeast : ce₀.steps ≤ ce.steps)
    (hSteps : ce.steps ≤ stepLimit ce₀) (hCallers : ∀ caller ∈ callers, caller.Known funcs)
    (v : MirConstValue) : Valid ce₀ funcs (resume ce (some v) callers) := by
  cases callers with
  | nil =>
    exact ⟨hLimits, hDepth, Nat.le_succ_of_le hSteps, fun _ => hSteps, fun h => nomatch h⟩
  | cons caller rest =>
    rw [forall_mem_cons] at hCallers
    obtain ⟨slots, hSlots⟩ := setResult_with ce caller.result v
    unfold resume
    dsimp only
    rw [hSlots]
    exact ⟨⟨hLimits.module, hLimits.maxSteps, hLimits.maxCallDepth⟩, hDepth,
      hWithin, hLeast, hSteps,
      hCallers.1.1, hCallers.1.2.2, hCallers.2⟩

end

theorem Active.step (hFuncs : ∀ f ∈ ce₀.module.funcList, f ∈ funcs)
    (h : Active ce₀ funcs c) :
    Valid ce₀ funcs (activationStep host castI64 c) := by
  obtain ⟨ce, func, insts, callers⟩ := c
  have hSpec : MoveSpec host castI64 ce func insts (move host castI64 ce func insts) :=
    move_spec ce func insts
  unfold activationStep
  have hLeave : ∀ {ce' : MirConstEval}, ce'.callDepth = ce.callDepth →
      ce'.leave.callDepth = ce₀.callDepth + callers.length := by
    intro ce' hDepth
    exact congrArg (· - 1) (hDepth.trans h.depth)
  generalize move host castI64 ce func insts = found at hSpec ⊢
  cases found with
  | fail failed =>
    obtain ⟨hLimits, hDepth, hError, hSteps⟩ := hSpec
    exact resume_fail (h.limits.trans hLimits).leave (hLeave hDepth)
      (hSteps.trans (Nat.succ_le_succ h.steps)) hError
  | ret v =>
    exact resume_value h.limits.leave (hLeave rfl) ((Nat.sub_le _ _).trans h.within) h.least h.steps
      h.callers v
  | trap => trivial
  | goto ce' insts' =>
    rcases hSpec with ⟨rfl, ⟨b, rfl⟩, _⟩ | ⟨inst, rfl, hStep⟩
    · exact { h with insts := insts_mem_tails func b }
    · have hCharged := mirConstevalStep_charged hStep
      have hLimits := h.limits.trans hCharged.limits
      have hWithin := hCharged.within rfl
      rw [hLimits.maxSteps] at hWithin
      exact {
        limits := hLimits
        depth := hCharged.depth.trans h.depth
        within := hCharged.depth ▸ h.within
        least := by
          rw [hCharged.steps]
          exact Nat.le_succ_of_le h.least
        steps := hWithin.trans (le_max_right _ _)
        func := h.func
        insts := rest_mem_tails h.insts
        callers := h.callers }
  | enter entered callee start result rest =>
    obtain ⟨inst, name, args, callee', rfl, hOp, rfl, hFind, ⟨b, rfl⟩, hEnter⟩ := hSpec
    have hEntered := enterCall_entered hEnter
    have hLimits := h.limits.trans hEntered.limits
    have hWithin := hEntered.within
    rw [hLimits.maxCallDepth] at hWithin
    have hCallee : callee ∈ funcs := by
      rw [h.limits.module] at hFind
      exact hFuncs callee (mem_of_find?_eq_some hFind)
    exact {
      limits := hLimits
      depth := by
        rw [hEntered.depth, h.depth]
        rfl
      within := hWithin
      least := hEntered.steps ▸ h.least
      steps := hEntered.steps ▸ h.steps
      func := hCallee
      insts := insts_mem_tails callee b
      callers := forall_mem_cons.mpr
        ⟨⟨h.func, mem_named h.func h.insts (.inl rfl), rest_mem_tails h.insts⟩, h.callers⟩ }

end

end Casprix.Consteval
