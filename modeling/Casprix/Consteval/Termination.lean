import Casprix.Consteval.Calls
import Casprix.Consteval.Eligible
import Casprix.Consteval.Rounds

/-! Whether compile-time evaluation stops. Jumps, calls and returns are not charged, so a loop that
has nothing else in it is gone round for ever. -/
namespace Casprix.Consteval

open List Mir Cvm Library

variable {Heap : Type} {host : CvmHost Heap} {castI64 : Word → Word} {ce ce₀ : MirConstEval}
  {func : MirFunction} {funcs : List MirFunction} {x c d : Activation}

/-- Every loop of the function has an instruction that is charged: the places can be numbered so
that the numbers go down wherever nothing is charged. -/
def LoopsCharged (func : MirFunction) : Prop :=
  ∃ height : List MirInst → Nat, ∀ inst rest, inst :: rest ∈ tails func →
    ∀ next ∈ freeNexts func inst rest, height next < height (inst :: rest)

section

variable {height : MirFunction → List MirInst → Nat}

/-- The numbers of the places where the activations are, those of the callers first. -/
def heights (height : MirFunction → List MirInst → Nat) (c : Activation) : List Nat :=
  c.callers.reverse.map (fun caller => height caller.func caller.rest) ++ [height c.func c.insts]

section

variable
  (hHeight : ∀ f ∈ funcs, ∀ inst rest, inst :: rest ∈ tails f →
    ∀ next ∈ freeNexts f inst rest,
    height f next < height f (inst :: rest))
include hHeight

theorem heights_lt
    (hActive : Active ce₀ funcs c) (hStep : activationStep host castI64 c = .running d)
    (hSteps : d.ce.steps = c.ce.steps) : heights height d < heights height c := by
  rcases activationStep_cases hStep with ⟨v, caller, rest, _, hCallers, rfl⟩ |
    ⟨ce', insts', (⟨_, _, inst, rest, hInsts, hNext⟩ | ⟨inst, _, hCharged⟩), rfl⟩ |
    ⟨entered, callee, start, result, rest, hSpec, rfl⟩
  · unfold heights
    rw [hCallers, reverse_cons, map_append, append_assoc]
    exact append_left_lt (cons_lt_cons_iff.mpr (.inr ⟨rfl, nil_lt_cons _ _⟩))
  · have hPlace := hActive.insts
    rw [hInsts] at hPlace
    have hLt := hHeight c.func hActive.func inst rest hPlace insts' hNext
    rw [← hInsts] at hLt
    exact append_left_lt (cons_lt_cons_iff.mpr (.inl hLt))
  · rw [(mirConstevalStep_charged hCharged).steps] at hSteps
    exact absurd hSteps (Nat.succ_ne_self _)
  · obtain ⟨inst, name, args, callee', hInsts, hOp, _, _, _, _⟩ := hSpec
    have hPlace := hActive.insts
    rw [hInsts] at hPlace
    have hNext : rest ∈ freeNexts c.func inst rest := by
      unfold freeNexts
      rw [hOp]
      exact mem_cons_self
    have hLt := hHeight c.func hActive.func inst rest hPlace rest hNext
    rw [← hInsts] at hLt
    unfold heights
    rw [reverse_cons, map_append, append_assoc]
    exact append_left_lt (cons_lt_cons_iff.mpr (.inl hLt))

theorem heights_run (hFuncs : ∀ f ∈ ce₀.module.funcList, f ∈ funcs)
    (hActive : Active ce₀ funcs x) (n : Nat) :
    ∀ d, runFor (evalStep host castI64) (n + 1) (.running x) = .running d →
      d.ce.steps = x.ce.steps →
      heights height d < heights height x := by
  have hStart : Valid ce₀ funcs (.running x) := hActive
  induction n with
  | zero => exact fun d hd hSteps => heights_lt hHeight hActive hd hSteps
  | succ n ih =>
    intro d hd hSteps
    have hValid : Valid ce₀ funcs (runFor (evalStep host castI64) (n + 1) (.running x)) :=
      valid_run hFuncs hStart (n + 1)
    rw [runFor_succ] at hd
    generalize hBefore : runFor (evalStep host castI64) (n + 1) (.running x) = found
        at hd hValid ⊢
    cases found with
    | running c =>
      have hStep : activationStep host castI64 c = .running d := hd
      have hSame : c.ce.steps = x.ce.steps := by
        have hSince := quiet_run hFuncs hActive (n + 1) c hBefore
        rcases activationStep_running hFuncs hValid hStep with hCharged | ⟨hSame, _⟩
        · rcases hSince with hMore | hQuiet
          · omega
          · have hEqual := hQuiet.steps
            omega
        · rw [← hSame, hSteps]
      have hLast := heights_lt hHeight hValid hStep (hSteps.trans hSame.symm)
      exact lt_trans hLast (ih c hBefore hSame)
    | returned ce value =>
      cases hd
    | trapped =>
      cases hd

end

theorem not_repeats_of_loopsCharged {args : List MirConstValue}
    (hLoops : ∀ f ∈ func :: ce.module.funcList, LoopsCharged f) :
    ¬Repeats (evalStep host castI64) (callState ce func args) := by
  have hFuncs : ∀ f ∈ ce.module.funcList, f ∈ func :: ce.module.funcList :=
    fun f hf => mem_cons_of_mem func hf
  have hHeight : ∃ height : MirFunction → List MirInst → Nat,
      ∀ f ∈ func :: ce.module.funcList,
      ∀ inst rest, inst :: rest ∈ tails f → ∀ next ∈ freeNexts f inst rest,
        height f next < height f (inst :: rest) := by
    choose! height hHeight using hLoops
    exact ⟨height, hHeight⟩
  obtain ⟨height, hHeight⟩ := hHeight
  rintro ⟨m, n, hLt, hSame, hStep⟩
  obtain ⟨k, rfl⟩ := Nat.exists_eq_add_of_lt hLt
  have hValid : Valid ce (func :: ce.module.funcList)
      (runFor (evalStep host castI64) m (callState ce func args)) :=
    valid_run hFuncs (callState_valid ce func args) m
  rw [add_assoc, runFor_add] at hSame
  cases hState : runFor (evalStep host castI64) m (callState ce func args) with
  | running x =>
    rw [hState] at hSame hValid
    exact lt_irrefl _ (heights_run hHeight hFuncs hValid k x hSame.symm rfl)
  | returned left value => exact hStep (by rw [hState]; rfl)
  | trapped => exact hStep (by rw [hState]; rfl)

end

/-- The eligibility check of the function comes to an answer, and its evaluation stops within its
limits. -/
structure EvaluationStops (host : CvmHost Heap) (castI64 : Word → Word) (ce : MirConstEval)
    (func : MirFunction) (args : List MirConstValue) : Prop where
  eligible : ∃ depth answer, mirConstevalEligible ce.module depth func = some answer
  call : CallStops host castI64 ce func args

/-- Compile-time evaluation stops within its limits exactly if no chain of functions that are
checked goes on for ever, and if of the first `max_steps` instructions that the call comes to one
ends it, or all of them and the next are counted. Without regard to the limits it comes to an end
exactly if no state of the evaluation is come to again, which follows if every loop has an
instruction that is charged. -/
theorem mir_consteval_stops_exact (ce : MirConstEval) (func : MirFunction)
    (args : List MirConstValue) :
    (EvaluationStops host castI64 ce func args ↔
      Acc (Asks ce.module) func ∧ Paced host castI64 (budget ce) (callState ce func args)) ∧
    (Ends host castI64 ce func args ↔
      ¬Repeats (evalStep host castI64) (callState ce func args)) ∧
    ((∀ f ∈ func :: ce.module.funcList, LoopsCharged f) →
      ¬Repeats (evalStep host castI64) (callState ce func args)) := by
  refine ⟨?_, ends_iff_not_repeats ce func args, not_repeats_of_loopsCharged⟩
  rw [← eligible_answers_iff, ← callStops_iff ce func args]
  exact ⟨fun h => ⟨h.eligible, h.call⟩, fun h => ⟨h.1, h.2⟩⟩

/-- A block that jumps to itself. -/
def spin : MirFunction where
  name := "spin"
  blocks := [{ insts := [{ op := .br (some 0) }] }]

/-- A function that calls itself, and is not marked. -/
def ask : MirFunction where
  name := "ask"
  blocks := [{ insts := [{ op := .call (some "ask") [] 0 }, { op := .retVoid }] }]

def endless : MirModule := { funcList := [spin, ask] }

/-- The evaluation of the one never stops, and the check of the other never comes to an answer. -/
theorem endless_not_stops :
    ¬EvaluationStops smallHost id (mirConstevalInit endless) spin [] ∧
      ¬∃ depth answer, mirConstevalEligible endless depth ask = some answer := by
  constructor
  · intro hStops
    have hHalts := ends_iff_halts.mp hStops.call.ends
    exact not_repeats_of_halts hHalts ⟨0, 1, zero_lt_one, rfl, Option.some_ne_none _⟩
  · intro hAnswers
    have hSelf : Asks endless ask ask :=
      ⟨rfl, [], _, [{ op := .retVoid }], rfl, rfl, nofun⟩
    have hNever : ∀ f, Acc (Asks endless) f → ¬Asks endless f f := by
      intro f hAcc
      induction hAcc with
      | intro f _ ih => exact fun hLoop => ih f hLoop hLoop
    exact hNever ask (eligible_answers_iff.mp hAnswers) hSelf

end Casprix.Consteval
