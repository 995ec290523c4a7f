import Casprix.Consteval.Evaluator
import Casprix.Library.Halting

/-! The compile-time evaluator as a machine that takes one instruction at a time and keeps the
callers of the activation at work on a stack. -/
namespace Casprix.Consteval

open Mir Cvm Library

/-- What one instruction comes to. -/
inductive Move where
  | fail (ce : MirConstEval)
  | ret (value : MirConstValue)
  | trap
  | goto (ce : MirConstEval) (insts : List MirInst)
  | enter (ce : MirConstEval) (callee : MirFunction) (start : List MirInst) (result : MirValueId)
      (rest : List MirInst)

/-- The return address of a call: where its value goes, and what comes behind it. -/
structure Caller where
  func : MirFunction
  result : MirValueId
  rest : List MirInst

structure Activation where
  ce : MirConstEval
  func : MirFunction
  insts : List MirInst
  callers : List Caller

inductive EvalState where
  | running (c : Activation)
  | returned (ce : MirConstEval) (value : Option MirConstValue)
  /-- A division without a result has stopped the process. -/
  | trapped

/-- `set_slot`, where there is a result. -/
def MirConstEval.setResult (ce : MirConstEval) (result : MirValueId)
    (value : MirConstValue) : MirConstEval :=
  if result = 0 then ce else ce.setSlot result value

section

variable {Heap : Type} (host : CvmHost Heap) (castI64 : Word → Word)

def jumpTo (func : MirFunction) (ce : MirConstEval) : MirBlockRef → Move
  | some b => .goto ce (func.insts b)
  | none => .fail (ce.error "consteval: reached null block")

def enterCallee (ce : MirConstEval) (callee : MirFunction)
    (args : List MirValueId) (result : MirValueId)
    (rest : List MirInst) : Move :=
  match enterCall ce callee ((args.take maxCallArgs).map ce.slots) with
  | .error ce => .fail ce
  | .ok entered =>
    match entryBlock callee with
    | some b => .enter entered callee (callee.insts b) result rest
    | none => .fail (entered.error "consteval: reached null block").leave

def move (ce : MirConstEval) (func : MirFunction) : List MirInst → Move
  | [] => .fail (ce.error "consteval: block without terminator")
  | inst :: rest =>
    match inst.op with
    | .br target => jumpTo func ce target
    | .condbr cond trueBb falseBb =>
      match ce.slots cond with
      | .bool b => jumpTo func ce (if b then trueBb else falseBb)
      | _ => .fail (ce.error "consteval: condbr on non-bool")
    | .ret value => .ret (ce.slots value)
    | .retVoid => .ret .void
    | .call name args _ =>
      match name.bind ce.module.findFunction with
      | none => .fail (ce.error "consteval: unknown function in call")
      | some callee => enterCallee ce callee args inst.result rest
    | _ =>
      match mirConstevalStep host castI64 ce inst with
      | none => .trap
      | some (ce, false) => .fail ce
      | some (ce, true) => .goto ce rest

/-- An activation that has been left hands its value to its caller. A failure passes through all. -/
def resume (ce : MirConstEval) (value : Option MirConstValue) : List Caller → EvalState
  | [] => .returned ce value
  | caller :: callers =>
    match value with
    | some v => .running ⟨ce.setResult caller.result v, caller.func, caller.rest, callers⟩
    | none => resume ce.leave none callers

def activationStep (c : Activation) : EvalState :=
  match move host castI64 c.ce c.func c.insts with
  | .fail ce => resume ce.leave none c.callers
  | .ret value => resume c.ce.leave (some value) c.callers
  | .trap => .trapped
  | .goto ce insts => .running { c with ce, insts }
  | .enter entered callee start result rest =>
    .running ⟨entered, callee, start, ⟨c.func, result, rest⟩ :: c.callers⟩

def evalStep : EvalState → Option EvalState
  | .running c => some (activationStep host castI64 c)
  | _ => none

/-- Where the evaluation of a call starts. -/
def callState (ce : MirConstEval) (func : MirFunction) (args : List MirConstValue) : EvalState :=
  match enterCall ce func args with
  | .error ce => .returned ce none
  | .ok entered =>
    match entryBlock func with
    | some b => .running ⟨entered, func, func.insts b, []⟩
    | none => .returned (entered.error "consteval: reached null block").leave none

end

section

variable {Heap : Type} {host : CvmHost Heap} {castI64 : Word → Word} {ce ce' : MirConstEval}
  {func : MirFunction} {insts : List MirInst} {value : Option MirConstValue} {callers : List Caller}

theorem evalInsts_succ (fuel : Nat) : evalInsts host castI64 (fuel + 1) ce func insts =
    match move host castI64 ce func insts with
    | .fail ce => some (ce.leave, none)
    | .ret value => some (ce.leave, some value)
    | .trap => none
    | .goto ce insts => evalInsts host castI64 fuel ce func insts
    | .enter entered callee start result rest =>
      match evalInsts host castI64 fuel entered callee start with
      | none => none
      | some (ce, none) => some (ce.leave, none)
      | some (ce, some value) =>
        evalInsts host castI64 fuel (ce.setResult result value) func rest := by
  cases insts with
  | nil => rfl
  | cons inst rest =>
    cases hOp : inst.op with
    | br target =>
      simp only [evalInsts, move, hOp]
      cases target <;> rfl
    | condbr cond trueBb falseBb =>
      simp only [evalInsts, move, hOp]
      cases ce.slots cond with
      | bool b =>
        dsimp only
        cases (if b then trueBb else falseBb) <;> rfl
      | _ => rfl
    | call name args callee =>
      simp only [evalInsts, move, hOp]
      cases name.bind ce.module.findFunction with
      | none => rfl
      | some callee =>
        dsimp only
        unfold enterCallee
        cases enterCall ce callee ((args.take maxCallArgs).map ce.slots) with
        | error ce => rfl
        | ok entered => cases entryBlock callee <;> rfl
    | ret value => simp only [evalInsts, move, hOp]
    | retVoid => simp only [evalInsts, move, hOp]
    | _ =>
      simp only [evalInsts, move, hOp]
      cases mirConstevalStep host castI64 ce inst with
      | none => rfl
      | some stepped =>
        obtain ⟨stepped, _ | _⟩ := stepped <;> rfl

theorem runFor_activationStep {c : Activation} (n : Nat) (next : EvalState)
    (hNext : activationStep host castI64 c = next) :
    runFor (evalStep host castI64) (n + 1) (.running c) = runFor (evalStep host castI64) n next :=
  runFor_succ_of_some (congrArg some hNext)

/-- What the recursive evaluator comes to, the machine hands to the callers. -/
theorem runFor_of_evalInsts {fuel : Nat}
    (h : evalInsts host castI64 fuel ce func insts = some (ce', value)) (callers : List Caller) :
    ∃ n, runFor (evalStep host castI64) n (.running ⟨ce, func, insts, callers⟩) =
      resume ce' value callers := by
  induction fuel generalizing ce ce' func insts value callers with
  | zero => cases h
  | succ fuel ih =>
    have hFirst := @runFor_activationStep _ host castI64 ⟨ce, func, insts, callers⟩
    rw [evalInsts_succ] at h
    unfold activationStep at hFirst
    generalize move host castI64 ce func insts = found at h hFirst ⊢
    cases found with
    | fail _ | ret _ =>
      obtain ⟨rfl, rfl⟩ := Prod.mk.inj (Option.some.inj h)
      exact ⟨1, hFirst 0 _ rfl⟩
    | trap =>
      cases h
    | goto ce insts =>
      obtain ⟨n, hRun⟩ := ih h callers
      exact ⟨n + 1, (hFirst n _ rfl).trans hRun⟩
    | enter entered callee start result rest =>
      dsimp only at h
      cases hCallee : evalInsts host castI64 fuel entered callee start with
      | none =>
        rw [hCallee] at h
        cases h
      | some answer =>
        obtain ⟨left, calleeValue⟩ := answer
        obtain ⟨n, hRun⟩ := ih hCallee (⟨func, result, rest⟩ :: callers)
        rw [hCallee] at h
        cases calleeValue with
        | none =>
          obtain ⟨rfl, rfl⟩ := Prod.mk.inj (Option.some.inj h)
          exact ⟨n + 1, (hFirst n _ rfl).trans hRun⟩
        | some v =>
          obtain ⟨m, hRest⟩ := ih h callers
          refine ⟨n + 1 + m, ?_⟩
          rw [runFor_add, hFirst n _ rfl, hRun]
          exact hRest

theorem evalInsts_mono {fuel fuel' : Nat} {answer : MirConstEval × Option MirConstValue}
    (h : evalInsts host castI64 fuel ce func insts = some answer) (hLe : fuel ≤ fuel') :
    evalInsts host castI64 fuel' ce func insts = some answer := by
  induction fuel generalizing ce func insts fuel' answer with
  | zero => cases h
  | succ fuel ih =>
    obtain ⟨more, rfl⟩ := Nat.exists_eq_add_of_le' hLe
    rw [← add_assoc, evalInsts_succ]
    rw [evalInsts_succ] at h
    have hMore : fuel ≤ more + fuel := Nat.le_add_left fuel more
    cases hMove : move host castI64 ce func insts with
    | fail failed => rwa [hMove] at h
    | ret v => rwa [hMove] at h
    | trap => rwa [hMove] at h
    | goto ce insts =>
      rw [hMove] at h
      exact ih h hMore
    | enter entered callee start result rest =>
      rw [hMove] at h
      dsimp only at h ⊢
      cases hCallee : evalInsts host castI64 fuel entered callee start with
      | none =>
        rw [hCallee] at h
        cases h
      | some answer =>
        obtain ⟨left, value⟩ := answer
        rw [hCallee] at h
        rw [ih hCallee hMore]
        cases value with
        | none => exact h
        | some v => exact ih h hMore

/-- Where the machine halts, it traps, or the recursive evaluator comes to an answer that the
machine hands to the callers. -/
theorem evalInsts_of_halts {n : Nat}
    (h : evalStep host castI64
      (runFor (evalStep host castI64) n (.running ⟨ce, func, insts, callers⟩)) = none) :
    (∃ m, runFor (evalStep host castI64) m
      (.running ⟨ce, func, insts, callers⟩) = .trapped) ∨
    ∃ fuel ce' value, evalInsts host castI64 fuel ce func insts = some (ce', value) ∧
      ∃ m ≤ n,
        runFor (evalStep host castI64) m (.running ⟨ce, func, insts, callers⟩) =
          resume ce' value callers := by
  induction n using Nat.strongRecOn generalizing ce func insts callers with
  | ind n ih =>
    cases n with
    | zero => cases h
    | succ n =>
      have hFirst := @runFor_activationStep _ host castI64 ⟨ce, func, insts, callers⟩
      have hEval := fun fuel => @evalInsts_succ Heap host castI64 ce func insts fuel
      unfold activationStep at hFirst
      generalize move host castI64 ce func insts = found at hFirst hEval ⊢
      cases found with
      | fail _ | ret _ =>
        exact .inr ⟨1, _, _, hEval 0, 1, Nat.le_add_left 1 n, hFirst 0 _ rfl⟩
      | trap =>
        exact .inl ⟨1, hFirst 0 _ rfl⟩
      | goto ce insts =>
        rw [hFirst n _ rfl] at h
        rcases ih n (Nat.lt_succ_self n) h with ⟨m, hTrap⟩ |
          ⟨fuel, ce', value, hRun, m, hm, hResume⟩
        · exact .inl ⟨m + 1, (hFirst m _ rfl).trans hTrap⟩
        · exact .inr ⟨fuel + 1, ce', value, (hEval fuel).trans hRun, m + 1, Nat.succ_le_succ hm,
            (hFirst m _ rfl).trans hResume⟩
      | enter entered callee start result rest =>
        dsimp only at hEval
        rw [hFirst n _ rfl] at h
        rcases ih n (Nat.lt_succ_self n) h with ⟨m, hTrap⟩ |
          ⟨fuel, left, value, hRun, m, hm, hResume⟩
        · exact .inl ⟨m + 1, (hFirst m _ rfl).trans hTrap⟩
        · cases value with
          | none =>
            refine .inr ⟨fuel + 1, left.leave, none, ?_, m + 1, Nat.succ_le_succ hm,
              (hFirst m _ rfl).trans hResume⟩
            rw [hEval, hRun]
          | some v =>
            obtain ⟨k, rfl⟩ := Nat.exists_eq_add_of_le hm
            rw [runFor_add, hResume] at h
            have hBack : ∀ k, runFor (evalStep host castI64) (m + 1 + k)
                (.running ⟨ce, func, insts, callers⟩) =
                  runFor (evalStep host castI64) k
                    (.running ⟨left.setResult result v, func, rest, callers⟩) := by
              intro k
              rw [runFor_add, hFirst m _ rfl, hResume]
              rfl
            rcases ih k (by omega) h with ⟨m', hTrap⟩ |
              ⟨fuel', ce', value, hRest, m', hm', hEnd⟩
            · exact .inl ⟨m + 1 + m', (hBack m').trans hTrap⟩
            · refine .inr ⟨max fuel fuel' + 1, ce', value, ?_, m + 1 + m', by omega,
                (hBack m').trans hEnd⟩
              rw [hEval, evalInsts_mono hRun (le_max_left fuel fuel')]
              exact evalInsts_mono hRest (le_max_right fuel fuel')

end

end Casprix.Consteval
