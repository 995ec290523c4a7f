import Casprix.Consteval.Limits
import Mathlib.Data.Prod.Lex

/-! When the compile-time evaluator comes to an end: as long as nothing is charged it can only move
the values it has about, so it goes on for ever exactly if it comes to the same state again. -/
namespace Casprix.Consteval

open List Mir Cvm Library Function

variable {Heap : Type} {host : CvmHost Heap} {castI64 : Word → Word} {ce ce₀ : MirConstEval}
  {func : MirFunction} {funcs : List MirFunction} {x c d : Activation}
  {slots slots₀ : MirValueId → MirConstValue}

section

/-- The values that are about when nothing is charged. -/
def values (funcs : List MirFunction) (slots₀ : MirValueId → MirConstValue) :
    Set MirConstValue :=
  insert .void (slots₀ '' {id | id ∈ named funcs})

/-- The slots of named values hold values that were about, and the others are as they were. -/
def Shuffled (funcs : List MirFunction) (slots₀ slots : MirValueId → MirConstValue) : Prop :=
  (∀ id, id ∉ named funcs → slots id = slots₀ id) ∧ ∀ id ∈ named funcs,
    slots id ∈ values funcs slots₀

theorem shuffled_refl (funcs : List MirFunction) (slots : MirValueId → MirConstValue) :
    Shuffled funcs slots slots :=
  ⟨fun _ _ => rfl, fun id hId => Set.mem_insert_of_mem _ ⟨id, hId, rfl⟩⟩

theorem Shuffled.update (h : Shuffled funcs slots₀ slots) {id : MirValueId}
    (hId : id ∈ named funcs) {v : MirConstValue} (hv : v ∈ values funcs slots₀) :
    Shuffled funcs slots₀ (update slots id v) := by
  constructor
  · intro other hOther
    have hNe : other ≠ id := fun hSame => hOther (hSame ▸ hId)
    rw [update_of_ne hNe]
    exact h.1 other hOther
  · intro other hOther
    by_cases hSame : other = id
    · rw [hSame, update_self]
      exact hv
    · rw [update_of_ne hSame]
      exact h.2 other hOther

theorem Shuffled.setParams (hFunc : func ∈ funcs) {args : List MirConstValue}
    (hArgs : ∀ v ∈ args, v ∈ values funcs slots₀) (h : Shuffled funcs slots₀ ce.slots) :
    Shuffled funcs slots₀ (Consteval.setParams ce func args).slots := by
  have hParams : ∀ p ∈ func.params.zip args, p.1.valueId ∈ named funcs ∧
      p.2 ∈ values funcs slots₀ := by
    intro p hp
    obtain ⟨hParam, hArg⟩ := of_mem_zip (a := p.1) (b := p.2) hp
    exact ⟨mem_flatMap.mpr ⟨func, hFunc, mem_append_left _ (mem_map_of_mem hParam)⟩,
      hArgs _ hArg⟩
  unfold Consteval.setParams
  generalize func.params.zip args = pairs at hParams
  induction pairs generalizing ce with
  | nil => exact h
  | cons p pairs ih =>
    rw [forall_mem_cons] at hParams
    have hSet : Shuffled funcs slots₀ (ce.setSlot p.1.valueId p.2).slots :=
      h.update hParams.1.1 hParams.1.2
    exact ih hSet hParams.2

theorem finite_shuffled (funcs : List MirFunction) (slots₀ : MirValueId → MirConstValue) :
    {slots | Shuffled funcs slots₀ slots}.Finite := by
  have hValues : (values funcs slots₀).Finite :=
    ((finite_toSet (named funcs)).image slots₀).insert .void
  exact finite_changes slots₀ (named funcs) hValues

end

section

/-- Nothing was charged since `x`. -/
structure Quiet (funcs : List MirFunction) (x c : Activation) : Prop where
  steps : c.ce.steps = x.ce.steps
  error : c.ce.errorMsg = x.ce.errorMsg
  slots : Shuffled funcs x.ce.slots c.ce.slots

theorem quiet_refl (funcs : List MirFunction) (x : Activation) : Quiet funcs x x :=
  ⟨rfl, rfl, shuffled_refl _ _⟩

theorem resume_none_ne_running (ce : MirConstEval) (callers : List Caller) :
    resume ce none callers ≠ .running d := by
  induction callers generalizing ce with
  | nil => exact EvalState.noConfusion
  | cons caller rest ih => exact ih ce.leave

/-- The value of a return was about. -/
theorem ret_mem_values (hActive : Active ce₀ funcs c)
    (hSlots : Shuffled funcs slots₀ c.ce.slots)
    {v : MirConstValue} (hMove : move host castI64 c.ce c.func c.insts = .ret v) :
    v ∈ values funcs slots₀ := by
  have hSpec : MoveSpec host castI64 c.ce c.func c.insts (move host castI64 c.ce c.func c.insts) :=
    move_spec _ _ _
  rw [hMove] at hSpec
  rcases hSpec with rfl | ⟨inst, hHead, id, hOp, rfl⟩
  · exact Set.mem_insert _ _
  · have hInsts := hActive.insts
    obtain ⟨rest, hCons⟩ := List.head?_eq_some_iff.mp hHead
    rw [hCons] at hInsts
    refine hSlots.2 id (mem_named hActive.func hInsts (.inr ?_))
    rw [hOp]
    exact mem_cons_self

/-- What a step that goes on has done. -/
theorem activationStep_cases (hStep : activationStep host castI64 c = .running d) :
    (∃ v caller rest, move host castI64 c.ce c.func c.insts = .ret v ∧
      c.callers = caller :: rest ∧
      d = ⟨c.ce.leave.setResult caller.result v, caller.func, caller.rest, rest⟩) ∨
    (∃ ce insts, MoveSpec host castI64 c.ce c.func c.insts (.goto ce insts) ∧
      d = { c with ce, insts }) ∨
    ∃ entered callee start result rest,
      MoveSpec host castI64 c.ce c.func c.insts (.enter entered callee start result rest) ∧
        d = ⟨entered, callee, start, ⟨c.func, result, rest⟩ :: c.callers⟩ := by
  have hSpec : MoveSpec host castI64 c.ce c.func c.insts (move host castI64 c.ce c.func c.insts) :=
    move_spec _ _ _
  unfold activationStep at hStep
  generalize move host castI64 c.ce c.func c.insts = found at hStep hSpec ⊢
  cases found with
  | fail failed =>
    exact absurd hStep (resume_none_ne_running _ _)
  | trap =>
    cases hStep
  | ret v =>
    generalize c.callers = callers at hStep ⊢
    cases callers with
    | nil =>
      cases hStep
    | cons caller rest =>
      exact .inl ⟨v, caller, rest, rfl, rfl, (EvalState.running.inj hStep).symm⟩
  | goto ce' insts' =>
    exact .inr (.inl ⟨ce', insts', hSpec, (EvalState.running.inj hStep).symm⟩)
  | enter entered callee start result rest =>
    exact .inr (.inr ⟨entered, callee, start, result, rest, hSpec,
      (EvalState.running.inj hStep).symm⟩)

/-- One instruction is charged, or moves values about. -/
theorem activationStep_running (hFuncs : ∀ f ∈ ce₀.module.funcList, f ∈ funcs)
    (hActive : Active ce₀ funcs c) (hStep : activationStep host castI64 c = .running d) :
    d.ce.steps = c.ce.steps + 1 ∨
      d.ce.steps = c.ce.steps ∧ ∀ x, Quiet funcs x c → Quiet funcs x d := by
  rcases activationStep_cases hStep with ⟨v, caller, rest, hMove, hCallers, rfl⟩ |
    ⟨ce', insts', (⟨rfl, _⟩ | ⟨inst, _, hCharged⟩), rfl⟩ |
    ⟨entered, callee, start, result, rest, hSpec, rfl⟩
  · have hKnown := hActive.callers caller (hCallers ▸ mem_cons_self)
    unfold MirConstEval.setResult
    split
    · exact .inr ⟨rfl, fun x hQuiet => ⟨hQuiet.steps, hQuiet.error, hQuiet.slots⟩⟩
    · exact .inr ⟨rfl, fun x hQuiet => ⟨hQuiet.steps, hQuiet.error,
        hQuiet.slots.update hKnown.2.1 (ret_mem_values hActive hQuiet.slots hMove)⟩⟩
  · exact .inr ⟨rfl, fun x hQuiet => ⟨hQuiet.steps, hQuiet.error, hQuiet.slots⟩⟩
  · exact .inl (mirConstevalStep_charged hCharged).steps
  · obtain ⟨inst, name, args, callee', hInsts, hOp, _, hFind, _, hEnter⟩ := hSpec
    have hEntered := enterCall_entered hEnter
    have hCallee : callee ∈ funcs := by
      rw [hActive.limits.module] at hFind
      exact hFuncs callee (mem_of_find?_eq_some hFind)
    have hPlace := hActive.insts
    rw [hInsts] at hPlace
    refine .inr ⟨hEntered.steps, fun x hQuiet => ⟨hEntered.steps.trans hQuiet.steps,
      hEntered.error.trans hQuiet.error, ?_⟩⟩
    rw [hEntered.slots]
    refine hQuiet.slots.setParams hCallee fun v hv => ?_
    obtain ⟨id, hId, rfl⟩ := mem_map.mp hv
    refine hQuiet.slots.2 id (mem_named hActive.func hPlace (.inr ?_))
    rw [hOp]
    exact mem_of_mem_take hId

/-- The states that can be come to while nothing is charged are finitely many. -/
theorem finite_quiet (ce₀ : MirConstEval) (funcs : List MirFunction) (x : Activation) :
    {d | Active ce₀ funcs d ∧ Quiet funcs x d}.Finite := by
  have hPlaces : {insts | ∃ f ∈ funcs, insts ∈ tails f}.Finite := by
    refine (finite_toSet (funcs.flatMap tails)).subset fun insts hInsts => ?_
    exact mem_flatMap.mpr hInsts
  have hFuncs := finite_toSet funcs
  have hCaller : {caller : Caller | caller.Known funcs}.Finite := by
    refine ((hFuncs.prod ((finite_toSet (named funcs)).prod hPlaces)).image
      fun p => (⟨p.1, p.2.1, p.2.2⟩ : Caller)).subset fun caller hKnown => ?_
    exact ⟨(caller.func, caller.result, caller.rest),
      ⟨hKnown.1, hKnown.2.1, caller.func, hKnown.1,
      hKnown.2.2⟩, rfl⟩
  have hCallers := finite_lists hCaller ce₀.maxCallDepth
  have hDepth := Set.finite_le_nat ce₀.maxCallDepth
  refine ((((finite_shuffled funcs x.ce.slots).prod hDepth).prod
    (hFuncs.prod hPlaces)).prod hCallers
    |>.image fun p => (⟨⟨ce₀.module, p.1.1.1, x.ce.steps,
      ce₀.maxSteps, x.ce.errorMsg, p.1.1.2,
      ce₀.maxCallDepth⟩, p.1.2.1, p.1.2.2, p.2⟩ : Activation)).subset ?_
  rintro d ⟨hActive, hQuiet⟩
  have hLength : d.callers.length ≤ ce₀.maxCallDepth := by
    have hBound := hActive.within
    rw [hActive.depth] at hBound
    omega
  refine ⟨(((d.ce.slots, d.ce.callDepth), (d.func, d.insts)), d.callers),
    ⟨⟨⟨hQuiet.slots, hActive.within⟩, hActive.func, d.func, hActive.func, hActive.insts⟩,
      hActive.callers, hLength⟩, ?_⟩
  obtain ⟨⟨module, slots, steps, maxSteps, errorMsg, callDepth, maxCallDepth⟩,
      func, insts, callers⟩ := d
  obtain ⟨hModule, hMaxSteps, hMaxDepth⟩ := hActive.limits
  obtain ⟨hSteps, hError, _⟩ := hQuiet
  dsimp only at hModule hMaxSteps hMaxDepth hSteps hError ⊢
  rw [hModule, hMaxSteps, hMaxDepth, hSteps, hError]

end

section

variable {s s' : EvalState}

section

variable (hFuncs : ∀ f ∈ ce₀.module.funcList, f ∈ funcs) (hValid : Valid ce₀ funcs s)
include hFuncs hValid

theorem valid_step (hStep : evalStep host castI64 s = some s') : Valid ce₀ funcs s' := by
  cases s with
  | running c =>
    obtain rfl := Option.some.inj hStep
    exact hValid.step hFuncs
  | returned ce value => cases hStep
  | trapped => cases hStep

theorem valid_run (n : Nat) :
    Valid ce₀ funcs (runFor (evalStep host castI64) n s) :=
  runFor_induction hValid (fun _ _ => valid_step hFuncs) n

end

/-- The steps that are left, where the evaluation goes on. -/
def stepsLeft (limit : Nat) : EvalState → Nat
  | .running c => limit + 1 - c.ce.steps
  | _ => 0

section

variable (hFuncs : ∀ f ∈ ce₀.module.funcList, f ∈ funcs)
include hFuncs

theorem stepsLeft_step (hValid : Valid ce₀ funcs s) :
    stepsLeft (stepLimit ce₀) (runFor (evalStep host castI64) 1 s) ≤
      stepsLeft (stepLimit ce₀) s := by
  cases s with
  | running c =>
    have hRun : runFor (evalStep host castI64) 1 (.running c) = activationStep host castI64 c := rfl
    rw [hRun]
    cases hStep : activationStep host castI64 c with
    | running d =>
      have hSteps : c.ce.steps ≤ d.ce.steps := by
        rcases activationStep_running hFuncs hValid hStep with hMore | ⟨hSame, _⟩
        · rw [hMore]
          exact Nat.le_succ _
        · exact hSame.symm.le
      exact Nat.sub_le_sub_left hSteps _
    | returned ce value => exact Nat.zero_le _
    | trapped => exact Nat.zero_le _
  | returned ce value => exact le_rfl
  | trapped => exact le_rfl

/-- A state that is come to from `x` is charged, or nothing was charged since. -/
theorem quiet_run (hActive : Active ce₀ funcs x) (n : Nat) :
    ∀ d, runFor (evalStep host castI64) n (.running x) = .running d →
      x.ce.steps < d.ce.steps ∨ Quiet funcs x d := by
  induction n with
  | zero =>
    intro d hd
    obtain rfl := EvalState.running.inj hd
    exact .inr (quiet_refl funcs x)
  | succ n ih =>
    intro d hd
    have hStart : Valid ce₀ funcs (.running x) := hActive
    have hValid : Valid ce₀ funcs (runFor (evalStep host castI64) n (.running x)) :=
      valid_run hFuncs hStart n
    rw [runFor_succ] at hd
    generalize hBefore : runFor (evalStep host castI64) n (.running x) = found at hd hValid ⊢
    cases found with
    | running c =>
      have hStep : activationStep host castI64 c = .running d := hd
      rcases ih c hBefore with hMore | hQuiet
      · left
        rcases activationStep_running hFuncs hValid hStep with hCharged | ⟨hSame, _⟩
        · omega
        · omega
      · rcases activationStep_running hFuncs hValid hStep with hCharged | ⟨_, hNext⟩
        · left
          rw [hCharged, hQuiet.steps]
          exact Nat.lt_add_one _
        · exact .inr (hNext x hQuiet)
    | returned ce value =>
      cases hd
    | trapped =>
      cases hd

/-- The evaluation comes to an end exactly if it never comes to the same state again. -/
theorem halts_iff (hValid : Valid ce₀ funcs s) :
    Halts (evalStep host castI64) s ↔ ¬Repeats (evalStep host castI64) s := by
  have hRank : ∀ n, stepsLeft (stepLimit ce₀) (runFor (evalStep host castI64) (n + 1) s) ≤
      stepsLeft (stepLimit ce₀) (runFor (evalStep host castI64) n s) := by
    intro n
    rw [runFor_succ]
    exact stepsLeft_step hFuncs (valid_run hFuncs hValid n)
  refine halts_iff_not_repeats hRank fun start => ?_
  have hStart : Valid ce₀ funcs (runFor (evalStep host castI64) start s) :=
    valid_run hFuncs hValid start
  cases hState : runFor (evalStep host castI64) start s with
  | running x =>
    rw [hState] at hStart
    refine ((finite_quiet ce₀ funcs x).image EvalState.running).subset ?_
    rintro d ⟨n, rfl, hRank⟩
    rw [runFor_add, hState] at hRank ⊢
    have hNow : Valid ce₀ funcs (runFor (evalStep host castI64) n (.running x)) :=
      valid_run hFuncs hStart n
    have hLeft : 0 < stepsLeft (stepLimit ce₀) (.running x) :=
      Nat.sub_pos_of_lt (Nat.lt_succ_of_le hStart.steps)
    generalize hLater : runFor (evalStep host castI64) n (.running x) = found at hRank hNow ⊢
    cases found with
    | running d =>
      refine ⟨d, ⟨hNow, ?_⟩, rfl⟩
      refine (quiet_run hFuncs hStart n d hLater).resolve_left fun hMore => ?_
      have hLimit := hNow.steps
      unfold stepsLeft at hRank
      dsimp only at hRank
      omega
    | returned ce value =>
      exact absurd hRank.symm hLeft.ne'
    | trapped =>
      exact absurd hRank.symm hLeft.ne'
  | returned ce value =>
    refine (Set.finite_singleton (EvalState.returned ce value)).subset ?_
    rintro d ⟨n, rfl, _⟩
    rw [runFor_add, hState]
    exact runFor_of_none rfl
  | trapped =>
    refine (Set.finite_singleton EvalState.trapped).subset ?_
    rintro d ⟨n, rfl, _⟩
    rw [runFor_add, hState]
    exact runFor_of_none rfl

end

end

section

/-- The instruction is passed to `mir_consteval_step`, which counts it. The call itself handles the
others. -/
def counted (inst : MirInst) : Bool :=
  match inst.op with
  | .br _ | .condbr .. | .ret _ | .retVoid | .call .. => false
  | _ => true

/-- The activation stands before an instruction that is counted. -/
def Activation.Counts (c : Activation) : Prop :=
  ∃ inst rest, c.insts = inst :: rest ∧ counted inst = true

/-- The instruction is executed: there is one, and it is not refused for the number of steps. -/
def Activation.Executes (c : Activation) : Prop :=
  c.insts ≠ [] ∧ (c.Counts → c.ce.steps < c.ce.maxSteps)

instance (c : Activation) : Decidable c.Counts :=
  decidable_of_iff (c.insts.head?.any counted = true)
    (by cases h : c.insts <;> simp [Activation.Counts, h])

instance (c : Activation) : Decidable c.Executes := inferInstanceAs (Decidable (_ ∧ _))

/-- The instructions that are executed in the first `n` steps, counted or not. -/
def executed (host : CvmHost Heap) (castI64 : Word → Word) : Nat → EvalState → Nat
  | n + 1, .running c =>
    (if c.Executes then 1 else 0) + executed host castI64 n (activationStep host castI64 c)
  | _, _ => 0

theorem move_of_counted {inst : MirInst} (h : counted inst = true) (rest : List MirInst) :
    move host castI64 ce func (inst :: rest) =
      match mirConstevalStep host castI64 ce inst with
      | none => .trap
      | some (ce, false) => .fail ce
      | some (ce, true) => .goto ce rest := by
  unfold counted at h
  cases hOp : inst.op with
  | br | condbr | ret | retVoid | call =>
    rw [hOp] at h
    cases h
  | _ =>
    cases hStep : mirConstevalStep host castI64 ce inst with
    | none => simp [move, hOp, hStep]
    | some stepped =>
      obtain ⟨stepped, _ | _⟩ := stepped
      all_goals simp [move, hOp, hStep]

/-- An instruction that the call itself handles is no instruction for `mir_consteval_step`. -/
theorem counted_of_step {inst : MirInst}
    (h : mirConstevalStep host castI64 ce inst = some (ce', true)) :
    counted inst = true := by
  unfold mirConstevalStep at h
  dsimp only at h
  split at h
  · cases h
  · unfold counted
    cases hOp : inst.op with
    | br | condbr | ret | retVoid | call =>
      rw [hOp] at h
      cases h
    | _ => rfl

/-- A step that goes on has executed an instruction, and counted it if it is one of those. -/
theorem activationStep_counts (hStep : activationStep host castI64 c = .running d) :
    c.Executes ∧ d.ce.maxSteps = c.ce.maxSteps ∧
      (c.Counts → d.ce.steps = c.ce.steps + 1) ∧ (¬c.Counts → d.ce.steps = c.ce.steps) := by
  have hCounted : ∀ inst rest, c.insts = inst :: rest → counted inst = true →
      ∃ stepped, mirConstevalStep host castI64 c.ce inst =
        some (stepped, true) ∧ d.ce = stepped := by
    intro inst rest hInsts hCounted
    unfold activationStep at hStep
    rw [hInsts, move_of_counted hCounted] at hStep
    cases hInst : mirConstevalStep host castI64 c.ce inst with
    | none =>
      rw [hInst] at hStep
      cases hStep
    | some stepped =>
      obtain ⟨stepped, ok⟩ := stepped
      rw [hInst] at hStep
      cases ok with
      | false => exact absurd hStep (resume_none_ne_running _ _)
      | true =>
        cases hStep
        exact ⟨stepped, rfl, rfl⟩
  by_cases hCounts : c.Counts
  · obtain ⟨inst, rest, hInsts, hInst⟩ := hCounts
    obtain ⟨stepped, hRun, hNext⟩ := hCounted inst rest hInsts hInst
    have hCharged := mirConstevalStep_charged hRun
    have hWithin := hCharged.within rfl
    rw [hCharged.steps, hCharged.limits.maxSteps] at hWithin
    rw [hNext]
    refine ⟨⟨by rw [hInsts]; exact cons_ne_nil _ _, fun _ => hWithin⟩,
      hCharged.limits.maxSteps,
      fun _ => hCharged.steps, fun hNot => absurd ⟨inst, rest, hInsts, hInst⟩ hNot⟩
  · have hSome : c.insts ≠ [] := by
      intro hNil
      unfold activationStep at hStep
      rw [hNil] at hStep
      exact resume_none_ne_running _ _ hStep
    refine ⟨⟨hSome, fun h => absurd h hCounts⟩, ?_⟩
    rcases activationStep_cases hStep with ⟨v, caller, rest, _, _, rfl⟩ |
      ⟨ce', insts', (⟨rfl, _⟩ | ⟨inst, hInsts, hRun⟩), rfl⟩ |
      ⟨entered, callee, start, result, rest, hSpec, rfl⟩
    · obtain ⟨slots, hSlots⟩ := setResult_with c.ce.leave caller.result v
      rw [hSlots]
      exact ⟨rfl, fun h => absurd h hCounts, fun _ => rfl⟩
    · exact ⟨rfl, fun h => absurd h hCounts, fun _ => rfl⟩
    · exact absurd ⟨inst, insts', hInsts, counted_of_step hRun⟩ hCounts
    · obtain ⟨inst, name, args, callee', _, _, _, _, _, hEnter⟩ := hSpec
      have hEntered := enterCall_entered hEnter
      exact ⟨hEntered.limits.maxSteps, fun h => absurd h hCounts, fun _ => hEntered.steps⟩

/-- The instructions that a run comes to first: one of the first `budget` ends it, or all of them
and the next are counted. -/
def Paced (host : CvmHost Heap) (castI64 : Word → Word) (budget : Nat) (s : EvalState) : Prop :=
  ∀ c, runFor (evalStep host castI64) budget s = .running c → c.insts = [] ∨
    ∀ k ≤ budget, ∀ d, runFor (evalStep host castI64) k s = .running d → d.Counts

theorem executed_of_not_running {s : EvalState} (h : ∀ c, s ≠ .running c) (n : Nat) :
    executed host castI64 n s = 0 := by
  cases n with
  | zero => rfl
  | succ n =>
    cases s with
    | running c => exact absurd rfl (h c)
    | _ => rfl

theorem executed_succ (n : Nat) (hExecutes : c.Executes) :
    executed host castI64 (n + 1) (.running c) =
      1 + executed host castI64 n (activationStep host castI64 c) := by
  rw [executed, if_pos hExecutes]

theorem not_executes_iff :
    ¬c.Executes ↔ c.insts = [] ∨ c.Counts ∧ c.ce.maxSteps ≤ c.ce.steps := by
  unfold Activation.Executes
  rw [not_and_or, not_not, Classical.not_imp, not_lt]

theorem runFor_of_not_running {s : EvalState} (h : ∀ c, s ≠ .running c) (n : Nat) :
    runFor (evalStep host castI64) n s = s := by
  apply runFor_of_none
  cases s with
  | running c => exact absurd rfl (h c)
  | _ => rfl

/-- After `paid` instructions that were not counted, a run keeps to a budget exactly if it is over
in time, or if there were none and all that come are counted. -/
theorem executed_le_iff (budget paid : Nat) (s : EvalState)
    (hSlack : ∀ c, s = .running c → c.ce.maxSteps - c.ce.steps = budget + paid) :
    (∀ n, executed host castI64 n s ≤ budget) ↔
      ∀ c, runFor (evalStep host castI64) budget s = .running c → c.insts = [] ∨
        paid = 0 ∧ ∀ k ≤ budget, ∀ d, runFor (evalStep host castI64) k s =
          .running d → d.Counts := by
  by_cases hRunning : ∃ c, s = .running c
  case neg =>
    have hNot : ∀ c, s ≠ .running c := fun c hc => hRunning ⟨c, hc⟩
    simp only [executed_of_not_running hNot, Nat.zero_le, implies_true, true_iff]
    rw [runFor_of_not_running hNot]
    exact fun c hc => absurd hc (hNot c)
  obtain ⟨c, rfl⟩ := hRunning
  have hLeft := hSlack c rfl
  have hFirst : ∀ n, runFor (evalStep host castI64) (n + 1) (.running c) =
      runFor (evalStep host castI64) n (activationStep host castI64 c) := fun n => rfl
  induction budget generalizing paid c with
  | zero =>
    have hHere : (∀ d, runFor (evalStep host castI64) 0 (.running c) =
      .running d → d.insts = [] ∨
        paid = 0 ∧ ∀ k ≤ 0, ∀ d, runFor (evalStep host castI64) k (.running c) =
          .running d → d.Counts) ↔
        c.insts = [] ∨ paid = 0 ∧ c.Counts := by
      simp [runFor]
    rw [hHere]
    constructor
    · intro hNone
      have hNot : ¬c.Executes := by
        intro hExecutes
        have hOne := hNone 1
        rw [executed_succ 0 hExecutes] at hOne
        omega
      rcases not_executes_iff.mp hNot with hNil | ⟨hCounts, hFull⟩
      · exact .inl hNil
      · exact .inr ⟨by omega, hCounts⟩
    · intro hEnd n
      have hNot : ¬c.Executes := by
        rw [not_executes_iff]
        refine hEnd.imp_right fun h => ⟨h.2, ?_⟩
        omega
      have hStops : ∀ d, activationStep host castI64 c ≠ .running d :=
        fun d hStep => hNot (activationStep_counts hStep).1
      cases n with
      | zero => exact le_rfl
      | succ n => rw [executed, if_neg hNot, executed_of_not_running hStops]
  | succ budget ih =>
    by_cases hNext : ∃ d, activationStep host castI64 c = .running d
    case neg =>
      have hStops : ∀ d, activationStep host castI64 c ≠ .running d := fun d hd =>
        hNext ⟨d, hd⟩
      have hOne : ∀ n, executed host castI64 n (.running c) ≤ budget + 1 := by
        intro n
        cases n with
        | zero => exact Nat.zero_le _
        | succ n =>
          rw [executed, executed_of_not_running hStops]
          split <;> omega
      rw [hFirst, runFor_of_not_running hStops]
      exact iff_of_true hOne fun d hd => absurd hd (hStops d)
    obtain ⟨d, hStep⟩ := hNext
    obtain ⟨hExecutes, hMax, hCounted, hFree⟩ := activationStep_counts hStep
    have hTail : (∀ n, executed host castI64 n (.running c) ≤ budget + 1) ↔
        ∀ n, executed host castI64 n (.running d) ≤ budget := by
      rw [← hStep]
      constructor
      · intro h n
        have hMore := h (n + 1)
        rw [executed_succ n hExecutes] at hMore
        omega
      · intro h n
        cases n with
        | zero => exact Nat.zero_le _
        | succ n =>
          rw [executed_succ n hExecutes]
          have hRest := h n
          omega
    have hCounts : (∀ k ≤ budget + 1, ∀ e,
      runFor (evalStep host castI64) k (.running c) = .running e →
        e.Counts) ↔ c.Counts ∧ ∀ k ≤ budget, ∀ e,
          runFor (evalStep host castI64) k (.running d) = .running e → e.Counts := by
      rw [← hStep]
      constructor
      · exact fun h => ⟨h 0 (Nat.zero_le _) c rfl, fun k hk e he =>
          h (k + 1) (Nat.succ_le_succ hk) e he⟩
      · rintro ⟨hHere, hRest⟩ k hk e he
        cases k with
        | zero =>
          cases he
          exact hHere
        | succ k => exact hRest k (Nat.le_of_succ_le_succ hk) e he
    rw [hTail, hFirst, hStep, hCounts]
    by_cases hHere : c.Counts
    · have hSteps := hCounted hHere
      have hRoom := hExecutes.2 hHere
      have hLess : ∀ e, EvalState.running d = .running e →
          e.ce.maxSteps - e.ce.steps = budget + paid := by
        intro e he
        cases he
        omega
      have hRest := ih paid d hLess (hLess d rfl) fun n => rfl
      refine hRest.trans ?_
      simp [hHere]
    · have hSteps := hFree hHere
      have hSame : ∀ e, EvalState.running d = .running e →
          e.ce.maxSteps - e.ce.steps = budget + (paid + 1) := by
        intro e he
        cases he
        omega
      have hRest := ih (paid + 1) d hSame (hSame d rfl) fun n => rfl
      refine hRest.trans ?_
      simp [hHere]

end

section

variable {args : List MirConstValue}

theorem callState_valid (ce : MirConstEval) (func : MirFunction) (args : List MirConstValue) :
    Valid ce (func :: ce.module.funcList) (callState ce func args) := by
  unfold callState
  cases hEnter : enterCall ce func args with
  | error refused =>
    obtain ⟨hLimits, hDepth, hError, hSteps⟩ := enterCall_refused hEnter
    refine ⟨hLimits, hDepth, ?_, (absurd rfl ·), fun _ => hError⟩
    rw [hSteps]
    exact Nat.le_succ_of_le (le_max_left _ _)
  | ok entered =>
    have hEntered := enterCall_entered hEnter
    have hSteps : entered.steps ≤ stepLimit ce := hEntered.steps ▸ le_max_left _ _
    cases entryBlock func with
    | none =>
      refine ⟨⟨hEntered.limits.module, hEntered.limits.maxSteps,
        hEntered.limits.maxCallDepth⟩, ?_,
        Nat.le_succ_of_le hSteps, (absurd rfl ·), fun _ => Option.some_ne_none _⟩
      exact congrArg (· - 1) hEntered.depth
    | some b =>
      exact {
        limits := hEntered.limits
        depth := hEntered.depth
        within := hEntered.limits.maxCallDepth ▸ hEntered.within
        least := hEntered.steps.symm.le
        steps := hSteps
        func := mem_cons_self
        insts := insts_mem_tails func b
        callers := nofun }

/-- The answer of a call is what the machine returns. -/
theorem runFor_of_mirConstevalCall {fuel : Nat} {ce' : MirConstEval} {value : Option MirConstValue}
    (h : mirConstevalCall host castI64 fuel ce func args = some (ce', value)) :
    ∃ n, runFor (evalStep host castI64) n (callState ce func args) = .returned ce' value := by
  unfold mirConstevalCall at h
  unfold callState
  generalize enterCall ce func args = found at h ⊢
  cases found with
  | error refused =>
    obtain ⟨rfl, rfl⟩ := Prod.mk.inj (Option.some.inj h)
    exact ⟨0, rfl⟩
  | ok entered =>
    generalize entryBlock func = point at h ⊢
    cases point with
    | none =>
      obtain ⟨rfl, rfl⟩ := Prod.mk.inj (Option.some.inj h)
      exact ⟨0, rfl⟩
    | some b =>
      exact runFor_of_evalInsts h []

/-- The call comes to an answer, or a division stops the process. -/
def Ends (host : CvmHost Heap) (castI64 : Word → Word) (ce : MirConstEval) (func : MirFunction)
    (args : List MirConstValue) : Prop :=
  (∃ fuel answer, mirConstevalCall host castI64 fuel ce func args = some answer) ∨
    ∃ n, runFor (evalStep host castI64) n (callState ce func args) = .trapped

theorem ends_iff_halts : Ends host castI64 ce func args ↔
    Halts (evalStep host castI64) (callState ce func args) := by
  constructor
  · rintro (⟨fuel, ⟨ce', value⟩, hCall⟩ | ⟨n, hTrap⟩)
    · obtain ⟨n, hRun⟩ := runFor_of_mirConstevalCall hCall
      exact ⟨n, by rw [hRun]; rfl⟩
    · exact ⟨n, by rw [hTrap]; rfl⟩
  · rintro ⟨n, hHalted⟩
    unfold Ends mirConstevalCall callState
    unfold callState at hHalted
    cases hEnter : enterCall ce func args with
    | error refused => exact .inl ⟨0, _, rfl⟩
    | ok entered =>
      rw [hEnter] at hHalted
      cases hEntry : entryBlock func with
      | none => exact .inl ⟨0, _, rfl⟩
      | some b =>
        rw [hEntry] at hHalted
        rcases evalInsts_of_halts hHalted with hTrap | ⟨fuel, ce', value, hRun, _⟩
        · exact .inr hTrap
        · exact .inl ⟨fuel, (ce', value), hRun⟩

/-- The steps that are left to a new call. -/
def budget (ce : MirConstEval) : Nat := ce.maxSteps - ce.steps

/-- The call stops within its limits, and fails with an error where it meets one. -/
structure CallStops (host : CvmHost Heap) (castI64 : Word → Word)
    (ce : MirConstEval) (func : MirFunction)
    (args : List MirConstValue) : Prop where
  ends : Ends host castI64 ce func args
  instructions : ∀ n, executed host castI64 n (callState ce func args) ≤ budget ce
  depth : ∀ n c, runFor (evalStep host castI64) n (callState ce func args) = .running c →
    ce.callDepth + (c.callers.length + 1) ≤ ce.maxCallDepth
  limit : ∀ fuel ce' value, mirConstevalCall host castI64 fuel ce func args =
    some (ce', value) →
    max ce.steps ce.maxSteps < ce'.steps → value = none
  error : ∀ fuel ce', mirConstevalCall host castI64 fuel ce func args = some (ce', none) →
    ce'.errorMsg ≠ none

theorem instructions_iff (ce : MirConstEval) (func : MirFunction) (args : List MirConstValue) :
    (∀ n, executed host castI64 n (callState ce func args) ≤ budget ce) ↔
      Paced host castI64 (budget ce) (callState ce func args) := by
  rw [executed_le_iff (budget ce) 0]
  · simp [Paced]
  · intro c hCall
    unfold callState at hCall
    cases hEnter : enterCall ce func args with
    | error refused =>
      rw [hEnter] at hCall
      cases hCall
    | ok entered =>
      have hEntered := enterCall_entered hEnter
      rw [hEnter] at hCall
      generalize entryBlock func = found at hCall ⊢
      cases found with
      | none =>
        cases hCall
      | some b =>
        cases hCall
        rw [hEntered.limits.maxSteps, hEntered.steps]
        rfl

/-- A run that executes no more than so many instructions comes to an end. -/
theorem halts_of_executed {s : EvalState} {bound : Nat}
    (h : ∀ n, executed host castI64 n s ≤ bound) :
    Halts (evalStep host castI64) s := by
  by_contra hRuns
  have hRunning : ∀ n, ∃ c, runFor (evalStep host castI64) n s = .running c := by
    intro n
    cases hState : runFor (evalStep host castI64) n s with
    | running c => exact ⟨c, rfl⟩
    | returned ce value => exact absurd ⟨n, by rw [hState]; rfl⟩ hRuns
    | trapped => exact absurd ⟨n, by rw [hState]; rfl⟩ hRuns
  have hAll : ∀ n s, (∀ k, ∃ c, runFor (evalStep host castI64) k s = .running c) →
      executed host castI64 n s = n := by
    intro n
    induction n with
    | zero =>
      intro s hs
      rfl
    | succ n ih =>
      intro s hs
      obtain ⟨c, hc⟩ := hs 0
      obtain rfl : s = .running c := hc
      obtain ⟨d, hd⟩ := hs 1
      rw [executed_succ n (activationStep_counts hd).1, ih _ fun k => hs (k + 1), add_comm]
  have hMore := h (bound + 1)
  rw [hAll (bound + 1) s hRunning] at hMore
  omega

theorem callStops_iff (ce : MirConstEval) (func : MirFunction) (args : List MirConstValue) :
    CallStops host castI64 ce func args ↔
      Paced host castI64 (budget ce) (callState ce func args) := by
  have hFuncs : ∀ f ∈ ce.module.funcList, f ∈ func :: ce.module.funcList :=
    fun f hf => mem_cons_of_mem func hf
  have hValid := callState_valid ce func args
  have hEnded : ∀ {fuel : Nat} {ce' : MirConstEval} {value : Option MirConstValue},
      mirConstevalCall host castI64 fuel ce func args = some (ce', value) →
        Ended ce ce' value := by
    intro fuel ce' value hCall
    obtain ⟨n, hRun⟩ := runFor_of_mirConstevalCall hCall
    have hEnd : Valid ce (func :: ce.module.funcList)
        (runFor (evalStep host castI64) n (callState ce func args)) := valid_run hFuncs hValid n
    rw [hRun] at hEnd
    exact hEnd
  rw [← instructions_iff]
  refine ⟨CallStops.instructions, fun hWithin =>
    ⟨ends_iff_halts.mpr (halts_of_executed hWithin), hWithin, ?_, ?_, ?_⟩⟩
  · intro n c hRun
    have hNow : Valid ce (func :: ce.module.funcList)
        (runFor (evalStep host castI64) n (callState ce func args)) := valid_run hFuncs hValid n
    rw [hRun] at hNow
    have hActive : Active ce (func :: ce.module.funcList) c := hNow
    rw [← hActive.depth]
    exact hActive.within
  · intro fuel ce' value hCall hOver
    by_contra hSome
    exact absurd ((hEnded hCall).within hSome) (not_le.mpr hOver)
  · intro fuel ce' hCall
    exact (hEnded hCall).error rfl

/-- The call comes to an end exactly if it never comes to the same state again. -/
theorem ends_iff_not_repeats (ce : MirConstEval) (func : MirFunction) (args : List MirConstValue) :
    Ends host castI64 ce func args ↔
      ¬Repeats (evalStep host castI64) (callState ce func args) := by
  rw [ends_iff_halts]
  exact halts_iff (fun f hf => mem_cons_of_mem func hf) (callState_valid ce func args)

end

end Casprix.Consteval
