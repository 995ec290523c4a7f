import Casprix.Cvm.Numbered
import Casprix.Cvm.RewrittenRuns
import Casprix.Opt.StrengthReduce

/-! What strength reduction makes of a function, and the runs it leaves as they were. -/
namespace Casprix.Opt

open List Mir Cvm Library Function

/-- The power of two that an instruction multiplies with or divides by. -/
def reducibleBy (func : MirFunction) (inst : MirInst) : Option Word :=
  match inst.op with
  | .binary .mul _ rhs | .binary .mod _ rhs => (constBehind func rhs).filter isPowerOfTwo
  | _ => none

/-- The number of instructions that are rewritten, each with a fresh value. -/
def reducibleCount (func : MirFunction) : Nat :=
  (func.blocks.flatMap (·.insts)).countP fun inst => (reducibleBy func inst).isSome

/-- The constant that comes before an instruction, and what the instruction becomes. -/
inductive Reduction (func : MirFunction) (fresh : MirValueId) (inst : MirInst) :
    MirInst → MirInst → Prop
  | mul {lhs rhs : MirValueId} {imm : Word} (type : Option MirType)
      (hOp : inst.op = .binary .mul lhs rhs) (hBy : reducibleBy func inst = some imm) :
      Reduction func fresh inst
        { op := .constInt (BitVec.ofNat 64 (log2Int imm)), result := fresh, type := type }
        { inst with op := .binary .shl lhs fresh }
  | mod {lhs rhs : MirValueId} {imm : Word} (type : Option MirType)
      (hOp : inst.op = .binary .mod lhs rhs) (hBy : reducibleBy func inst = some imm) :
      Reduction func fresh inst { op := .constInt (imm - 1), result := fresh, type := type }
        { inst with op := .binary .band lhs fresh }

/-- Everything but multiplications and remainders stays, and the new values lie between the
old ones and a limit. -/
def reductionRules (func : MirFunction) (limit : MirValueId) : RewriteRules where
  visible id := id < func.nextValueId
  kept _ inst _ inst' := inst' = inst
  dropped _ _ _ := False
  preceded _ inst _ extra inst' :=
    ∃ fresh, func.nextValueId ≤ fresh ∧ fresh < limit ∧
      Reduction func fresh inst extra inst'

variable {extra : MirInst} {frame : CvmFrame}

section

variable {func func₀ : MirFunction} {inst : MirInst} {limit limit' : MirValueId}
  {b b' c : MirBlockId} {insts insts' more more' : List MirInst} {v : MirValueId}

section

variable (h : Rewritten (reductionRules func limit) b insts insts')
include h

theorem rewritten_append
    (h' : Rewritten (reductionRules func limit') b' more more') (hLimit : limit ≤ limit') :
    Rewritten (reductionRules func limit') c (insts ++ more) (insts' ++ more') := by
  induction h with
  | nil =>
    rw [nil_append, nil_append]
    induction h' with
    | nil => exact .nil
    | kept hRule _ ih => exact .kept hRule ih
    | dropped hRule _ _ => exact hRule.elim
    | preceded hRule _ ih => exact .preceded hRule ih
  | kept hRule _ ih => exact .kept hRule ih
  | dropped hRule _ _ => exact hRule.elim
  | preceded hRule _ ih =>
    obtain ⟨fresh, hNew, hOld, hReduction⟩ := hRule
    exact .preceded ⟨fresh, hNew, hOld.trans_le hLimit, hReduction⟩ ih

theorem rewritten_mono
    (hLimit : limit ≤ limit') : Rewritten (reductionRules func limit') c insts insts' := by
  have hNil : Rewritten (reductionRules func limit') c [] [] := .nil
  have hBoth : Rewritten (reductionRules func limit') c (insts ++ []) (insts' ++ []) :=
    rewritten_append h hNil hLimit
  rwa [append_nil, append_nil] at hBoth

end

/-- A reduced instruction keeps its result and defines no constant, before or after. -/
theorem Reduction.consts {fresh : MirValueId} {inst' : MirInst}
    (h : Reduction func fresh inst extra inst') :
    extra.result = fresh ∧ inst'.result = inst.result ∧ constOf inst = none ∧
      constOf inst' = none := by
  cases h with
  | mul type hOp hBy | mod type hOp hBy => exact ⟨rfl, rfl, by rw [constOf, hOp], rfl⟩

/-- The search for a constant is not disturbed by what was rewritten. -/
theorem find_const_rewritten (h : Rewritten (reductionRules func limit) b insts insts')
    (hOld : v < func.nextValueId) :
    (insts'.find? (·.result == v)).bind constOf = (insts.find? (·.result == v)).bind constOf := by
  induction h with
  | nil => rfl
  | @kept inst inst' rest rest' hRule _ ih =>
    cases hRule
    rw [find?_cons, find?_cons]
    split
    · rfl
    · exact ih
  | dropped hRule _ _ => exact hRule.elim
  | @preceded inst extra inst' rest rest' hRule _ ih =>
    obtain ⟨fresh, hNew, _, hReduction⟩ := hRule
    obtain ⟨hExtra, hResult, hConst, hConst'⟩ := hReduction.consts
    have hOther : (extra.result == v) = false := by
      rw [hExtra, beq_eq_false_iff_ne]
      exact (lt_of_lt_of_le hOld hNew).ne'
    rw [find?_cons, find?_cons, find?_cons, hOther, hResult]
    cases inst.result == v with
    | true => simp only [Option.bind_some, hConst, hConst']
    | false => exact ih

/-- Rewriting a part of the function does not change which instructions are reduced. -/
theorem reducibleBy_rewritten (h : Rewritten (reductionRules func₀ limit) b
      (func₀.blocks.flatMap (·.insts)) (func.blocks.flatMap (·.insts)))
    (hOld : ∀ id ∈ inst.op.operands, id < func₀.nextValueId) :
    reducibleBy func inst = reducibleBy func₀ inst := by
  have hConst : ∀ v, v < func₀.nextValueId → constBehind func v = constBehind func₀ v := by
    intro v hv
    rw [constBehind_eq, constBehind_eq, find_const_rewritten h hv]
  unfold reducibleBy
  cases hOp : inst.op with
  | binary op lhs rhs =>
    rw [hOp] at hOld
    cases op with
    | mul | mod =>
      simp only
      rw [hConst rhs (hOld rhs (mem_cons_of_mem lhs mem_cons_self))]
    | _ => rfl
  | _ => rfl

theorem reduceInst_cases (func : MirFunction) (inst : MirInst) :
    (reducibleBy func inst = none ∧
      reduceInst func inst = { func := func, insts := [inst], changes := 0 }) ∨
    ((reducibleBy func inst).isSome = true ∧ ∃ type extra inst',
      Reduction func func.nextValueId inst extra inst' ∧
      reduceInst func inst =
        { func := (func.newValue type).2, insts := [extra, inst'], changes := 1 }) := by
  cases hBy : reducibleBy func inst with
  | none =>
    refine .inl ⟨rfl, ?_⟩
    unfold reducibleBy constBehind at hBy
    unfold reduceInst
    cases hOp : inst.op with
    | binary op lhs rhs =>
      cases op with
      | mul | mod =>
        cases hDef : findDef func rhs with
        | none => simp only [hDef]
        | some rhsDef =>
          cases hConst : rhsDef.op with
          | constInt imm =>
            simp only [hOp, hDef, hConst, Option.filter_some, ite_eq_right_iff,
              reduceCtorEq, imp_false, Bool.not_eq_true] at hBy
            simp only [hDef, hConst, hBy, Bool.false_eq_true, if_false]
          | _ => simp only [hDef, hConst]
      | _ => rfl
    | _ => rfl
  | some imm =>
    refine .inr ⟨rfl, ?_⟩
    have hBy' := hBy
    unfold reducibleBy constBehind at hBy
    cases hOp : inst.op with
    | binary op lhs rhs =>
      cases op with
      | mul | mod =>
        cases hDef : findDef func rhs with
        | none => simp [hOp, hDef] at hBy
        | some rhsDef =>
          cases hConst : rhsDef.op with
          | constInt imm' =>
            simp only [hOp, hDef, hConst, Option.filter_some, Option.ite_none_right_eq_some,
              Option.some.injEq] at hBy
            obtain ⟨hPow, rfl⟩ := hBy
            have hStep : reduceInst func inst = reduceInst func inst := rfl
            conv at hStep =>
              rhs
              simp only [reduceInst, hOp, hDef, hConst, hPow, if_true, insertConst]
            first
              | exact ⟨rhsDef.type, _, _, .mul rhsDef.type hOp hBy', hStep⟩
              | exact ⟨rhsDef.type, _, _, .mod rhsDef.type hOp hBy', hStep⟩
          | _ => simp [hOp, hDef, hConst] at hBy
      | _ => simp [hOp] at hBy
    | _ => simp [hOp] at hBy

/-- The results among the instructions that are not old values, in order. -/
def freshIds (first : MirValueId) (insts : List MirInst) : List MirValueId :=
  (insts.map MirInst.result).filter fun id => decide (first ≤ id)

/-- The number of these instructions that are reduced. -/
def reducedIn (func : MirFunction) (insts : List MirInst) : Nat :=
  insts.countP fun inst => (reducibleBy func inst).isSome

/-- Only the ids and their types have changed. -/
structure SameButValues (func₀ func : MirFunction) : Prop where
  name_eq : func.name = func₀.name
  params_eq : func.params = func₀.params
  isExtern_eq : func.isExtern = func₀.isExtern

/-- The instructions passed so far became `out`, and `func` has handed out one value for each
that was reduced. -/
structure Walked (func₀ : MirFunction) (passed out : List MirInst)
    (func : MirFunction) : Prop where
  same : SameButValues func₀ func
  rewritten : Rewritten (reductionRules func₀ func.nextValueId) 0 passed out
  nextValueId_eq : func.nextValueId = func₀.nextValueId + reducedIn func₀ passed
  fresh_eq : freshIds func₀.nextValueId out =
    List.range' func₀.nextValueId (reducedIn func₀ passed)

theorem freshIds_append (first : MirValueId) (insts more : List MirInst) :
    freshIds first (insts ++ more) = freshIds first insts ++ freshIds first more := by
  unfold freshIds
  rw [map_append, filter_append]

theorem reducedIn_append (insts more : List MirInst) :
    reducedIn func (insts ++ more) = reducedIn func insts + reducedIn func more :=
  countP_append

theorem freshIds_old {first : MirValueId} (h : inst.result < first) :
    freshIds first [inst] = [] := by
  unfold freshIds
  rw [map_singleton, filter_singleton, decide_eq_false h.not_ge]
  rfl

theorem Walked.step {passed out rest : List MirInst} (h : Walked func₀ passed out func)
    (current : MirFunction) (hNext : current.nextValueId = func.nextValueId)
    (hName : SameButValues func current)
    (hAll : func₀.blocks.flatMap (·.insts) = passed ++ inst :: rest)
    (hNow : current.blocks.flatMap (·.insts) = out ++ inst :: rest)
    (hNumbered : NumberedIn func₀ [inst]) :
    Walked func₀ (passed ++ [inst]) (out ++ (reduceInst current inst).insts)
        (reduceInst current inst).func ∧
      Rewritten (reductionRules func₀ (reduceInst current inst).func.nextValueId) 0 [inst]
        (reduceInst current inst).insts ∧
      (reduceInst current inst).changes = reducedIn func₀ [inst] := by
  obtain ⟨hOperands, hResult⟩ := hNumbered inst mem_cons_self
  have hOpen : func₀.nextValueId ≤ func.nextValueId := by
    rw [h.nextValueId_eq]
    exact Nat.le_add_right _ _
  have hRest : Rewritten (reductionRules func₀ func.nextValueId) 0
      (inst :: rest) (inst :: rest) := by
    generalize inst :: rest = insts
    induction insts with
    | nil => exact .nil
    | cons head tail ih => exact .kept rfl ih
  have hWhole : Rewritten (reductionRules func₀ func.nextValueId) 0
      (func₀.blocks.flatMap (·.insts)) (current.blocks.flatMap (·.insts)) := by
    rw [hAll, hNow]
    exact rewritten_append h.rewritten hRest (le_rfl)
  have hBy := reducibleBy_rewritten hWhole hOperands
  have hSame : SameButValues func₀ current :=
    ⟨hName.name_eq.trans h.same.name_eq, hName.params_eq.trans h.same.params_eq,
      hName.isExtern_eq.trans h.same.isExtern_eq⟩
  have hOld : freshIds func₀.nextValueId [inst] = [] := freshIds_old hResult
  rcases reduceInst_cases current inst with ⟨hNone, hStep⟩ |
    ⟨hSome, type, extra, inst', hReduction, hStep⟩
  · have hCount : reducedIn func₀ [inst] = 0 := by
      rw [hBy] at hNone
      simp [reducedIn, hNone]
    have hKept : Rewritten (reductionRules func₀ func.nextValueId) 0 [inst] [inst] :=
      .kept rfl .nil
    rw [hStep, hCount]
    refine ⟨⟨hSame, ?_, ?_, ?_⟩, ?_, rfl⟩
    · show Rewritten (reductionRules func₀ current.nextValueId) 0
        (passed ++ [inst]) (out ++ [inst])
      rw [hNext]
      exact rewritten_append h.rewritten hKept (le_rfl)
    · rw [reducedIn_append, hCount, add_zero, ← h.nextValueId_eq]
      exact hNext
    · rw [freshIds_append, hOld, append_nil, reducedIn_append, hCount, add_zero]
      exact h.fresh_eq
    · show Rewritten (reductionRules func₀ current.nextValueId) 0 [inst] [inst]
      rw [hNext]
      exact hKept
  · have hCount : reducedIn func₀ [inst] = 1 := by
      rw [hBy] at hSome
      simp [reducedIn, hSome]
    have hNew : (current.newValue type).2.nextValueId = func.nextValueId + 1 :=
      congrArg (· + 1) hNext
    have hReduction' : Reduction func₀ func.nextValueId inst extra inst' := by
      rw [hNext] at hReduction
      cases hReduction with
      | mul type hOp hIs => exact .mul type hOp (hBy ▸ hIs)
      | mod type hOp hIs => exact .mod type hOp (hBy ▸ hIs)
    have hPair : Rewritten (reductionRules func₀ (func.nextValueId + 1)) 0
        [inst] [extra, inst'] :=
      .preceded ⟨func.nextValueId, hOpen, lt_add_one _, hReduction'⟩ .nil
    obtain ⟨hExtra, hResult', _⟩ := hReduction'.consts
    have hFresh : freshIds func₀.nextValueId [extra, inst'] = [func.nextValueId] := by
      unfold freshIds
      rw [map_cons, map_singleton, hExtra, hResult', filter_cons,
        if_pos (decide_eq_true hOpen), filter_singleton,
        decide_eq_false hResult.not_ge]
      rfl
    rw [hStep, hCount]
    refine ⟨⟨⟨hSame.name_eq, hSame.params_eq, hSame.isExtern_eq⟩, ?_, ?_, ?_⟩, ?_, rfl⟩
    · rw [hNew]
      exact rewritten_append h.rewritten hPair (Nat.le_succ _)
    · rw [hNew, reducedIn_append, hCount, h.nextValueId_eq, add_assoc]
    · rw [freshIds_append, h.fresh_eq, hFresh, reducedIn_append, hCount, range'_concat,
        h.nextValueId_eq, one_mul]
    · rw [hNew]
      exact hPair

theorem Walked.nextValueId_le {passed out : List MirInst} (h : Walked func₀ passed out func)
    {passed' out' : List MirInst} {func' : MirFunction} (h' : Walked func₀ passed' out' func')
    {more : List MirInst} (hMore : passed' = passed ++ more) :
    func.nextValueId ≤ func'.nextValueId := by
  rw [h.nextValueId_eq, h'.nextValueId_eq, hMore, reducedIn_append, ← add_assoc]
  exact Nat.le_add_right _ _

theorem reduceInsts_walked {before after : List MirBlock} (block : MirBlock)
    {passed done₀ done rest : List MirInst}
    (h : Walked func₀ (passed ++ done₀) (before.flatMap (·.insts) ++ done) func)
    (hDone : Rewritten (reductionRules func₀ func.nextValueId) 0 done₀ done)
    (hAll : func₀.blocks.flatMap (·.insts) =
      passed ++ done₀ ++ (rest ++ after.flatMap (·.insts)))
    (hNumbered : NumberedIn func₀ rest) :
    Walked func₀ (passed ++ (done₀ ++ rest))
        (before.flatMap (·.insts) ++ (reduceInsts before block after done rest func).insts)
        (reduceInsts before block after done rest func).func ∧
      Rewritten (reductionRules func₀
          (reduceInsts before block after done rest func).func.nextValueId) 0 (done₀ ++ rest)
        (reduceInsts before block after done rest func).insts ∧
      (reduceInsts before block after done rest func).changes = reducedIn func₀ rest := by
  induction rest generalizing done₀ done func with
  | nil =>
    rw [append_nil]
    exact ⟨h, hDone, rfl⟩
  | cons inst rest ih =>
    let current : MirFunction :=
      { func with blocks := before ++ { block with insts := done ++ inst :: rest } :: after }
    have hNow : current.blocks.flatMap (·.insts) =
        before.flatMap (·.insts) ++ done ++ inst :: (rest ++ after.flatMap (·.insts)) := by
      show (before ++ { block with insts := done ++ inst :: rest } :: after).flatMap (·.insts) = _
      rw [flatMap_append, flatMap_cons]
      simp only [append_assoc, cons_append]
    have hOne : NumberedIn func₀ [inst] := fun a ha =>
      hNumbered a (mem_singleton.mp ha ▸ mem_cons_self)
    obtain ⟨hWalked, hPair, hChanges⟩ :=
      h.step current rfl ⟨rfl, rfl, rfl⟩ hAll hNow hOne
    have hLimit := h.nextValueId_le hWalked rfl
    rw [append_assoc, append_assoc] at hWalked
    obtain ⟨hEnd, hBlock, hCount⟩ := ih hWalked (rewritten_append hDone hPair hLimit)
      (by rw [hAll]; simp only [append_assoc, cons_append, nil_append])
      (fun a ha => hNumbered a (mem_cons_of_mem inst ha))
    rw [append_assoc] at hEnd hBlock
    refine ⟨hEnd, hBlock, ?_⟩
    have hSplit : reducedIn func₀
        (inst :: rest) = reducedIn func₀ [inst] + reducedIn func₀ rest :=
      reducedIn_append [inst] rest
    rw [hSplit, ← hCount, ← hChanges]
    rfl

/-- A block as the walk leaves it. -/
def BlockReduced (func : MirFunction) (limit : MirValueId) (block block' : MirBlock) : Prop :=
  Rewritten (reductionRules func limit) 0 block.insts block'.insts

theorem reduceBlocks_walked {before₀ before after : List MirBlock}
    (h : Walked func₀ (before₀.flatMap (·.insts)) (before.flatMap (·.insts)) func)
    (hBefore : List.Forall₂ (BlockReduced func₀ func.nextValueId) before₀ before)
    (hAll : func₀.blocks = before₀ ++ after)
    (hNumbered : NumberedIn func₀ (after.flatMap (·.insts))) :
    Walked func₀ (func₀.blocks.flatMap (·.insts))
        ((reduceBlocks before after func).1.blocks.flatMap (·.insts))
          (reduceBlocks before after func).1 ∧
      List.Forall₂ (BlockReduced func₀ (reduceBlocks before after func).1.nextValueId)
        func₀.blocks (reduceBlocks before after func).1.blocks ∧
      (reduceBlocks before after func).2 = reducedIn func₀ (after.flatMap (·.insts)) := by
  induction after generalizing before₀ before func with
  | nil =>
    rw [hAll, append_nil]
    exact ⟨⟨⟨h.same.name_eq, h.same.params_eq, h.same.isExtern_eq⟩,
      h.rewritten, h.nextValueId_eq,
      h.fresh_eq⟩, hBefore, rfl⟩
  | cons block after ih =>
    have hFlat : func₀.blocks.flatMap (·.insts) =
        before₀.flatMap (·.insts) ++ [] ++ (block.insts ++ after.flatMap (·.insts)) := by
      rw [hAll, flatMap_append, flatMap_cons, append_nil]
    have hHere : NumberedIn func₀ block.insts := fun a ha =>
      hNumbered a (by rw [flatMap_cons]; exact mem_append_left _ ha)
    have hStart : Walked func₀ (before₀.flatMap (·.insts) ++ [])
      (before.flatMap (·.insts) ++ [])
        func := by
      rw [append_nil, append_nil]
      exact h
    obtain ⟨hWalked, hBlock, hChanges⟩ :=
      reduceInsts_walked block hStart .nil hFlat hHere
    have hLimit := h.nextValueId_le hWalked rfl
    rw [nil_append] at hWalked hBlock
    let reduced : MirBlock :=
      { block with insts := (reduceInsts before block after [] block.insts func).insts }
    have hNext : Walked func₀ ((before₀ ++ [block]).flatMap (·.insts))
        ((before ++ [reduced]).flatMap (·.insts))
        (reduceInsts before block after [] block.insts func).func := by
      rw [flatMap_append, flatMap_append, flatMap_singleton, flatMap_singleton]
      exact hWalked
    have hOld : List.Forall₂ (BlockReduced func₀
        (reduceInsts before block after [] block.insts func).func.nextValueId) before₀ before :=
      hBefore.imp fun _ _ hReduced => rewritten_mono hReduced hLimit
    have hNew : List.Forall₂ (BlockReduced func₀
        (reduceInsts before block after [] block.insts func).func.nextValueId) [block] [reduced] :=
      .cons hBlock .nil
    have hPairs := rel_append hOld hNew
    obtain ⟨hEnd, hAllPairs, hCount⟩ := ih hNext hPairs (by rw [hAll, append_assoc]; rfl)
      (fun a ha => hNumbered a (by rw [flatMap_cons]; exact mem_append_right _ ha))
    refine ⟨hEnd, hAllPairs, ?_⟩
    rw [flatMap_cons, reducedIn_append, ← hCount, ← hChanges]
    rfl

end

/-- What an instruction that is reduced must find in the registers: the constant on the right,
and on the left of a remainder a value that is not negative or is a multiple. -/
def ReadsReducible (func : MirFunction) (frame : CvmFrame) (inst : MirInst) : Prop :=
  match inst.op, reducibleBy func inst with
  | .binary op lhs rhs, some imm =>
    frame.reg rhs = imm ∧ (op = .mod → 0 ≤ (frame.reg lhs).toInt ∨
      imm.toInt ∣ (frame.reg lhs).toInt)
  | _, _ => True

instance (func : MirFunction) (frame : CvmFrame) (inst : MirInst) :
    Decidable (ReadsReducible func frame inst) := by
  unfold ReadsReducible
  split <;> infer_instance

/-- The next instruction of the function, if it is reduced, finds what it must. -/
def ReducesWell {Heap : Type} (func : MirFunction) : CvmConfig Heap → Prop
  | .running frame _ _ => frame.func = func →
      match frame.block, frame.rest with
      | some _, inst :: _ => ReadsReducible func frame inst
      | _, _ => True
  | _ => True

instance {Heap : Type} (func : MirFunction) (c : CvmConfig Heap) :
    Decidable (ReducesWell func c) :=
  match c with
  | .running frame _ _ =>
    @instDecidableForall _ _ _ <|
      match frame.block, frame.rest with
      | some _, inst :: _ => inferInstanceAs (Decidable (ReadsReducible func frame inst))
      | none, _ | some _, [] => isTrue trivial
  | .returned .. | .crashed => isTrue trivial

section

variable {Heap : Type} {host : CvmHost Heap} {loop : CvmLoop Heap} {func : MirFunction}

theorem walked_pass (hNumbered : WellNumbered func) :
    Walked func (func.blocks.flatMap (·.insts))
        ((mirPassStrengthReduce func).1.blocks.flatMap (·.insts))
          (mirPassStrengthReduce func).1 ∧
      List.Forall₂ (BlockReduced func (mirPassStrengthReduce func).1.nextValueId) func.blocks
        (mirPassStrengthReduce func).1.blocks ∧
      (mirPassStrengthReduce func).2 = reducibleCount func := by
  have hStart : Walked func (([] : List MirBlock).flatMap (·.insts))
      (([] : List MirBlock).flatMap (·.insts)) func := ⟨⟨rfl, rfl, rfl⟩, .nil, rfl, rfl⟩
  exact reduceBlocks_walked hStart .nil rfl hNumbered

theorem insts_pass (hNumbered : WellNumbered func) (b : MirBlockId) :
    Rewritten (reductionRules func (mirPassStrengthReduce func).1.nextValueId) b (func.insts b)
      ((mirPassStrengthReduce func).1.insts b) := by
  obtain ⟨_, hBlocks, _⟩ := walked_pass hNumbered
  obtain ⟨hLength, hEach⟩ := forall₂_iff_get.mp hBlocks
  unfold MirFunction.insts MirFunction.block?
  by_cases hb : b < func.blocks.length
  · have hb' : b < (mirPassStrengthReduce func).1.blocks.length := hLength ▸ hb
    rw [getElem?_eq_getElem hb, getElem?_eq_getElem hb']
    exact rewritten_mono (hEach b hb hb') (le_rfl)
  · have hb' : ¬b < (mirPassStrengthReduce func).1.blocks.length := hLength ▸ hb
    rw [getElem?_eq_none (Nat.le_of_not_lt hb), getElem?_eq_none (Nat.le_of_not_lt hb')]
    exact .nil

theorem isEmpty_eq_of_rewritten {limit : MirValueId} {b : MirBlockId} {insts insts' : List MirInst}
    (h : Rewritten (reductionRules func limit) b insts insts') :
    insts'.isEmpty = insts.isEmpty := by
  cases h with
  | nil => rfl
  | kept => rfl
  | dropped hRule => exact hRule.elim
  | preceded => rfl

/-- The new values fit into the register file. -/
def FitsReduced (func : MirFunction) : Prop := func.nextValueId + reducibleCount func ≤ cvmMaxRegs

instance (func : MirFunction) : Decidable (FitsReduced func) :=
  inferInstanceAs (Decidable (func.nextValueId + reducibleCount func ≤ cvmMaxRegs))

theorem nextValueId_pass (hNumbered : WellNumbered func) :
    (mirPassStrengthReduce func).1.nextValueId = func.nextValueId + reducibleCount func :=
  (walked_pass hNumbered).1.nextValueId_eq

theorem FitsReduced.old (h : FitsReduced func) : func.nextValueId ≤ cvmMaxRegs :=
  (Nat.le_add_right _ _).trans h

theorem FitsReduced.new (h : FitsReduced func) (hNumbered : WellNumbered func) :
    (mirPassStrengthReduce func).1.nextValueId ≤ cvmMaxRegs := by
  rw [nextValueId_pass hNumbered]
  exact h

theorem sameSlot_pass (hNumbered : WellNumbered func) (hFits : FitsReduced func) {id : MirValueId}
    (hId : id < func.nextValueId) : SameSlot func (mirPassStrengthReduce func).1 id := by
  have hOld : id < cvmRegCount func := lt_cvmRegCount hId hFits.old
  have hNew : id < cvmRegCount (mirPassStrengthReduce func).1 := by
    refine lt_cvmRegCount (hId.trans_le ?_) (hFits.new hNumbered)
    rw [nextValueId_pass hNumbered]
    exact Nat.le_add_right _ _
  exact iff_of_false hOld.not_ge hNew.not_ge

theorem onlyHides_const (hLoop : loop = gotoLoop host ∨ loop = switchLoop host)
    {vm : CvmState Heap} {imm : Word} {visible : MirValueId → Prop} (hTrap : vm.trapCode = 0)
    (hOp : extra.op = .constInt imm) (hZero : extra.result ≠ 0)
    (hInside : extra.result < cvmRegCount frame.func) (hNew : ¬visible extra.result) :
    OnlyHides loop visible frame extra vm (update frame.regs extra.result (some imm)) := by
  refine ⟨hTrap, by rw [hOp]; rfl, ?_, fun id hVisible => ?_⟩
  · rw [exec_constInt hLoop hOp, setNext, cvmRegSet, if_neg hZero, if_neg hInside.not_ge]
    rfl
  · have hOther : id ≠ extra.result := fun hSame => hNew (hSame ▸ hVisible)
    rw [CvmFrame.withRegs, reg_update, if_neg fun hBoth => hOther hBoth.1]

theorem reg_withRegs_update {id : MirValueId} {value : CvmReg} (hZero : id ≠ 0)
    (hInside : id < cvmRegCount frame.func) :
    (frame.withRegs (update frame.regs id (some value))).reg id = value := by
  rw [CvmFrame.withRegs, reg_update, if_pos ⟨rfl, hZero, hInside⟩]

/-- The runs that strength reduction keeps. -/
def ReductionGood (func : MirFunction) (c : CvmConfig Heap) : Prop :=
  Settled func c ∧ ReducesWell func c

theorem readsReducible_of_good {callers : List CvmFrame} {vm : CvmState Heap}
    (h : ReductionGood func (.running frame callers vm)) (hFunc : frame.func = func)
    {b : MirBlockId} {inst : MirInst} {rest : List MirInst} (hBlock : frame.block = some b)
    (hRest : frame.rest = inst :: rest) : ReadsReducible func frame inst := by
  have hReads := h.2 hFunc
  rw [hBlock, hRest] at hReads
  exact hReads

variable (host) in
/-- The operation that a reduction puts in place of another, on a register with its constant. -/
theorem Reduction.computes {fresh : MirValueId} {inst inst' : MirInst}
    (h : Reduction func fresh inst extra inst') (hReads : ReadsReducible func frame inst) :
    ∃ op op' lhs rhs value, inst.op = .binary op lhs rhs ∧ inst'.op = .binary op' lhs fresh ∧
      extra.op = .constInt value ∧
      cvmBinary host op' (frame.reg lhs) value =
        cvmBinary host op (frame.reg lhs) (frame.reg rhs) := by
  have hPower : ∀ {imm : Word}, reducibleBy func inst = some imm → isPowerOfTwo imm = true := by
    intro imm hBy
    unfold reducibleBy at hBy
    split at hBy
    · exact (Option.filter_eq_some_iff.mp hBy).2
    · exact (Option.filter_eq_some_iff.mp hBy).2
    · cases hBy
  cases h with
  | @mul lhs rhs imm type hOp hBy =>
    have hRight : frame.reg rhs = imm := by
      simp only [ReadsReducible, hOp, hBy] at hReads
      exact hReads.1
    refine ⟨.mul, .shl, lhs, rhs, _, hOp, rfl, rfl, ?_⟩
    rw [hRight]
    exact (mul_eq_shl (hPower hBy)).symm
  | @mod lhs rhs imm type hOp hBy =>
    simp only [ReadsReducible, hOp, hBy] at hReads
    refine ⟨.mod, .band, lhs, rhs, _, hOp, rfl, rfl, ?_⟩
    rw [hReads.1]
    exact ((mod_eq_band_iff (hPower hBy)).mpr (hReads.2 trivial)).symm

section

variable (hLoop : loop = gotoLoop host ∨ loop = switchLoop host) (hNumbered : WellNumbered func)
  (hFits : FitsReduced func)
include hLoop hNumbered hFits

/-- A reduced instruction behind its constant computes what it computed before. -/
theorem doesSame_reduced {frame frame' : CvmFrame} {vm vm' : CvmState Heap}
    {inst extra inst' : MirInst} {rest rest' : List MirInst} {fresh : MirValueId}
    (hFunc : frame.func = func) (hTrap : vm.trapCode = 0) (hReads : ReadsReducible func frame inst)
    (hIds : (∀ id ∈ inst.op.operands, id < func.nextValueId) ∧ inst.result < func.nextValueId)
    (hNew : func.nextValueId ≤ fresh)
    (hLimit : fresh < (mirPassStrengthReduce func).1.nextValueId)
    (hReduction : Reduction func fresh inst extra inst')
    (hFrame : FrameRelated (update id func (mirPassStrengthReduce func).1) (rulesOf func
      (reductionRules func (mirPassStrengthReduce func).1.nextValueId)) (frame.fetch inst rest)
      (frame'.fetch inst' rest'))
    (hVm : VmRelated (update id func (mirPassStrengthReduce func).1) vm.tick vm'.tick) :
    ∃ regs, OnlyHides loop (· < func.nextValueId) (frame'.fetch extra
      (inst' :: rest')) extra vm'.tick
        regs ∧
      DoesSame loop (update id func (mirPassStrengthReduce func).1)
        (rulesOf func (reductionRules func (mirPassStrengthReduce func).1.nextValueId))
        (frame.fetch inst rest) ((frame'.withRegs regs).fetch inst' rest') inst inst' vm.tick
        vm'.tick.tick := by
  obtain ⟨op, op', lhs, rhs, value, hOp, hOp', hExtra, hSame⟩ := hReduction.computes host hReads
  obtain ⟨hResultExtra, hResult', _⟩ := hReduction.consts
  have hFunc' : frame'.func = (mirPassStrengthReduce func).1 := by
    have hEq : frame'.func = update id func (mirPassStrengthReduce func).1 frame.func :=
      hFrame.func_eq
    rw [hEq, hFunc, update_self]
  have hTrap' : vm'.trapCode = 0 := hVm.trapCode_eq.trans hTrap
  have hZero : fresh ≠ 0 := (Nat.lt_of_lt_of_le (Nat.zero_lt_of_lt hIds.2) hNew).ne'
  have hInside : fresh < cvmRegCount frame'.func := by
    rw [hFunc']
    exact lt_cvmRegCount hLimit (hFits.new hNumbered)
  have hHides : OnlyHides loop (· < func.nextValueId) (frame'.fetch extra (inst' :: rest')) extra
      vm'.tick (update frame'.regs fresh (some value)) := by
    rw [← hResultExtra] at hZero hInside hNew ⊢
    exact onlyHides_const hLoop hTrap' hExtra hZero hInside (hNew.not_gt)
  let regs := update frame'.regs fresh (some value)
  have hHidden : ∀ id, id < func.nextValueId → (frame'.withRegs regs).reg id = frame'.reg id :=
    fun id hId => hHides.2.2.2 id hId
  have hVisible : ∀ id, id < func.nextValueId →
      (frame'.withRegs regs).reg id = frame.reg id := by
    intro id hId
    rw [hHidden id hId]
    refine hFrame.regs_eq id ?_
    show (rulesOf func _ frame.func).visible id
    rw [hFunc, rulesOf_self]
    exact hId
  have hMiddle : FrameRelated (update id func (mirPassStrengthReduce func).1)
      (rulesOf func (reductionRules func (mirPassStrengthReduce func).1.nextValueId))
      (frame.fetch inst rest) ((frame'.withRegs regs).fetch inst' rest') := by
    refine ⟨hFrame.func_eq, fun id hId => ?_, hFrame.allocas_eq, hFrame.block_eq, hFrame.prev_eq,
      hFrame.rest⟩
    have hId' : (rulesOf func (reductionRules func (mirPassStrengthReduce func).1.nextValueId)
      frame.func).visible id := hId
    rw [hFunc, rulesOf_self] at hId'
    exact hVisible id hId'
  have hLhs : lhs < func.nextValueId := hIds.1 lhs (by rw [hOp]; exact mem_cons_self)
  have hRhs : rhs < func.nextValueId :=
    hIds.1 rhs (by rw [hOp]; exact mem_cons_of_mem lhs mem_cons_self)
  have hOldIn : ∀ id, id < func.nextValueId → (frame.fetch inst rest).outside id = false := by
    intro id hId
    apply outside_eq_false
    show id < cvmRegCount frame.func
    rw [hFunc]
    exact lt_cvmRegCount hId hFits.old
  have hNewIn : ∀ id, id < (mirPassStrengthReduce func).1.nextValueId →
      ((frame'.withRegs regs).fetch inst' rest').outside id = false := by
    intro id hId
    apply outside_eq_false
    show id < cvmRegCount frame'.func
    rw [hFunc']
    exact lt_cvmRegCount hId (hFits.new hNumbered)
  have hSlot : SameSlot frame.func
      (update id func (mirPassStrengthReduce func).1 frame.func) inst.result := by
    rw [hFunc, update_self]
    exact sameSlot_pass hNumbered hFits hIds.2
  have hLeft : loop.exec (frame.fetch inst rest) inst vm.tick =
      setNext (frame.fetch inst rest) inst.result
        (cvmBinary host op (frame.reg lhs) (frame.reg rhs)) vm.tick :=
    exec_binary hLoop hOp (hOldIn lhs hLhs) (hOldIn rhs hRhs)
  have hRight : loop.exec ((frame'.withRegs regs).fetch inst' rest') inst' vm'.tick.tick =
      setNext ((frame'.withRegs regs).fetch inst' rest') inst'.result
        (cvmBinary host op' ((frame'.withRegs regs).reg lhs) ((frame'.withRegs regs).reg fresh))
        vm'.tick.tick :=
    exec_binary hLoop hOp' (hNewIn lhs ((lt_of_lt_of_le hLhs hNew).trans hLimit))
      (hNewIn fresh hLimit)
  have hFresh : (frame'.withRegs regs).reg fresh = value := reg_withRegs_update hZero hInside
  refine ⟨regs, hHides, hResult', hSlot, by rw [hOp', hOp]; rfl, ?_⟩
  rw [hLeft, hRight, hVisible lhs hLhs, hFresh, hSame, hResult']
  have hTicked : VmRelated (update id func (mirPassStrengthReduce func).1) vm.tick
      vm'.tick.tick := ⟨hVm.module_eq, hVm.heap_eq, hVm.trapCode_eq, hVm.events_eq⟩
  exact hMiddle.setNext hTicked hSlot _

theorem reductionSound :
    SoundFor loop func (mirPassStrengthReduce func).1
      (reductionRules func (mirPassStrengthReduce func).1.nextValueId) (ReductionGood func) where
  name_eq := (walked_pass hNumbered).1.same.name_eq
  params_eq := (walked_pass hNumbered).1.same.params_eq
  length_eq := (walked_pass hNumbered).2.1.length_eq.symm
  entryOk_eq := by
    cases hLoop with
    | inl hGoto =>
      rw [hGoto]
      exact congrArg not (isEmpty_eq_of_rewritten (insts_pass hNumbered 0))
    | inr hSwitch =>
      rw [hSwitch]
      rfl
  slots id hId := sameSlot_pass hNumbered hFits hId
  insts := insts_pass hNumbered
  dropped _ _ _ _ hRule := hRule.elim
  kept {frame frame' callers vm vm' b inst inst' rest rest'} hFunc hGood hBlock hRest hRule hFrame
      hVm := by
    cases hRule
    have hMem := (hGood.1 hFunc).2.mem hBlock hRest
    rw [hFunc] at hMem
    obtain ⟨hOperands, hResult⟩ := hNumbered.mem hMem
    exact doesSame_unchanged hLoop (walked_pass hNumbered).1.same.name_eq
      (fun id hId => sameSlot_pass hNumbered hFits hId) (Nat.zero_lt_of_lt hResult) hFunc hFrame hVm
      (sameSlot_pass hNumbered hFits hResult) hOperands
  preceded {frame frame' callers vm vm' b inst extra inst' rest rest'} hFunc
    hGood hBlock hRest hRule
      hFrame hVm := by
    obtain ⟨fresh, hNew, hLimit, hReduction⟩ := hRule
    have hMem := (hGood.1 hFunc).2.mem hBlock hRest
    rw [hFunc] at hMem
    exact doesSame_reduced hLoop hNumbered hFits hFunc (hGood.1 hFunc).1
      (readsReducible_of_good hGood hFunc hBlock hRest) (hNumbered.mem hMem) hNew hLimit hReduction
      hFrame hVm

end

end

/-- When all ids were handed out by the function and the new ones fit into the register file,
the new ones are the next ids, one for each reduced instruction, and every run in which the
reduced instructions find their constant, and remainders a left operand that is not negative
or is a multiple, shows the same as before. A shift is the product for every factor, and a
mask is the remainder for these left operands only. -/
theorem strength_reduction_preserves {Heap : Type} (host : CvmHost Heap) (loop : CvmLoop Heap)
    (hLoop : loop = gotoLoop host ∨ loop = switchLoop host) (func : MirFunction)
    (hNumbered : WellNumbered func) (hFits : FitsReduced func) :
    freshIds func.nextValueId ((mirPassStrengthReduce func).1.blocks.flatMap (·.insts)) =
        List.range' func.nextValueId (reducibleCount func) ∧
      (∀ l c : Word, isPowerOfTwo c = true →
        cvmBinary host .mul l c = cvmBinary host .shl l (BitVec.ofNat 64 (log2Int c)) ∧
          (cvmBinary host .mod l c = cvmBinary host .band l (c - 1) ↔
            0 ≤ l.toInt ∨ c.toInt ∣ l.toInt)) ∧
      ∀ (vm : CvmState Heap) (args : List CvmReg), vm.trapCode = 0 →
        (∀ n, ReducesWell func
          (runFor (step host loop) n (cvmExecFunction host loop [] vm func args))) →
        SameBehaviour host loop vm (vm.replaceFunction func (mirPassStrengthReduce func).1) func
          (mirPassStrengthReduce func).1 args := by
  refine ⟨(walked_pass hNumbered).1.fresh_eq, fun l c hPower => ⟨mul_eq_shl hPower,
    mod_eq_band_iff hPower⟩, fun vm args hTrap hWell => ?_⟩
  apply (reductionSound hLoop hNumbered hFits).sameBehaviour hLoop
  have hInside := hNumbered.branchesInside hFits.old
  exact fun n => ⟨settled_run hLoop hInside hTrap func args n, hWell n⟩

/-- Eight times the argument, and the remainder of that by four. -/
def scaled : MirFunction where
  name := "scaled"
  returnType := some .i64
  params := [{ name := "x", type := some .i64, valueId := 1 }]
  blocks := [{ insts := [{ op := .constInt 8, result := 2, type := some .i64 },
    { op := .binary .mul 1 2, result := 3, type := some .i64 },
    { op := .constInt 4, result := 4, type := some .i64 },
    { op := .binary .mod 3 4, result := 5, type := some .i64 }, { op := .ret 5 }] }]
  nextValueId := 6
  valueTypes := [none, some .i64, some .i64, some .i64, some .i64, some .i64]

theorem strength_reduction_preserves_scaled :
    SameBehaviour wordHost (gotoLoop wordHost) (wordVm { funcList := [scaled] })
      ((wordVm { funcList := [scaled] }).replaceFunction scaled (mirPassStrengthReduce scaled).1)
      scaled (mirPassStrengthReduce scaled).1 [5] :=
  (strength_reduction_preserves wordHost (gotoLoop wordHost) (.inl rfl) scaled (by decide)
    (by decide)).2.2 (wordVm { funcList := [scaled] }) [5] rfl
    (forall_runFor_of_halted (n := 5) (by decide) (by decide))

/-- The remainder of the argument by four. -/
def byFour : MirFunction where
  name := "by_four"
  returnType := some .i64
  params := [{ name := "x", type := some .i64, valueId := 1 }]
  blocks := [{ insts := [{ op := .constInt 4, result := 2, type := some .i64 },
    { op := .binary .mod 1 2, result := 3, type := some .i64 }, { op := .ret 3 }] }]
  nextValueId := 4
  valueTypes := [none, some .i64, some .i64, some .i64]

/-- A verified function returns -3 for -3, and 1 after the pass. -/
theorem strength_reduction_negative : mirVerifyFunction byFour = [] ∧
    (runFor (step wordHost (gotoLoop wordHost)) 3
      (cvmExecFunction wordHost (gotoLoop wordHost) [] (wordVm {}) byFour [-3])).result =
      some (-3, 0) ∧
    (runFor (step wordHost (gotoLoop wordHost)) 4
      (cvmExecFunction wordHost (gotoLoop wordHost) [] (wordVm {}) (mirPassStrengthReduce byFour).1
        [-3])).result = some (1, 0) := by
  decide

end Casprix.Opt
