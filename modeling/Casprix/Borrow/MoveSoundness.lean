import Casprix.Borrow.Checker
import Casprix.Mir.Path
import Mathlib.Data.Fintype.Pi

/-! A clean report of the borrow checker rules out every path on which a moved
value is read again. -/
namespace Casprix.Borrow

open List Casprix.Mir Library

namespace ValueSet

variable {numVals : Nat} {s t : ValueSet numVals} {v w : MirValueId}

theorem mem_iff : s.mem v = true ↔ ∃ h : v < numVals, s ⟨v, h⟩ = true := by
  unfold mem
  split <;> simp_all

@[simp] theorem mem_empty : (empty : ValueSet numVals).mem v = false := by
  unfold mem empty
  split <;> rfl

theorem mem_add (h : w < numVals) : (s.add w).mem v = true ↔ v = w ∨ s.mem v = true := by
  simp only [mem_iff, add, Bool.or_eq_true, beq_iff_eq]
  constructor
  · rintro ⟨hv, rfl | hs⟩
    · exact .inl rfl
    · exact .inr ⟨hv, hs⟩
  · rintro (rfl | ⟨hv, hs⟩)
    · exact ⟨h, .inl rfl⟩
    · exact ⟨hv, .inr hs⟩

theorem mem_union : (s.union t).mem v = true ↔ s.mem v = true ∨ t.mem v = true := by
  simp only [mem_iff, union, Bool.or_eq_true, ← exists_or]

private theorem mem_foldl_union (sets : List (ValueSet numVals)) (acc : ValueSet numVals) :
    (sets.foldl union acc).mem v = true ↔ acc.mem v = true ∨
      ∃ s ∈ sets, s.mem v = true := by
  induction sets generalizing acc with
  | nil => simp
  | cons s sets ih => simp [ih, mem_union, or_assoc]

@[simp] theorem mem_unionAll (sets : List (ValueSet numVals)) :
    (unionAll sets).mem v = true ↔ ∃ s ∈ sets, s.mem v = true := by
  simp [unionAll, mem_foldl_union]

theorem le_iff_mem : s ≤ t ↔ ∀ v, s.mem v = true → t.mem v = true := by
  constructor
  · intro h v hv
    obtain ⟨hLt, hs⟩ := mem_iff.mp hv
    exact mem_iff.mpr ⟨hLt, h ⟨v, hLt⟩ hs⟩
  · intro h v hs
    obtain ⟨_, ht⟩ := mem_iff.mp (h v.val (mem_iff.mpr ⟨v.isLt, hs⟩))
    exact ht

theorem empty_le (s : ValueSet numVals) : empty ≤ s := by
  rw [le_iff_mem]
  simp

/-- The number of values in a set, which bounds how long a fixpoint can climb. -/
def size (s : ValueSet numVals) : Nat := (Finset.univ.filter fun v => s v = true).card

theorem size_le (s : ValueSet numVals) : s.size ≤ numVals := by
  simpa [size] using Finset.card_filter_le Finset.univ fun v : Fin numVals => s v = true

theorem size_lt_size (h : s < t) : s.size < t.size := by
  obtain ⟨hLe, v, hv⟩ := Pi.lt_def.mp h
  refine Finset.card_lt_card (Finset.ssubset_iff_of_subset ?_ |>.mpr ⟨v, ?_, ?_⟩)
  · intro w hw
    rw [Finset.mem_filter] at hw ⊢
    exact ⟨hw.1, hLe w hw.2⟩
  · simpa using (Bool.lt_iff.mp hv).2
  · simpa using (Bool.lt_iff.mp hv).1

end ValueSet

variable {b : MirBlockId} {before after : List MirInst}

section

variable {func : MirFunction}

theorem mem_markMove {moved : Values func} {inst : MirInst} {v : MirValueId} :
    (markMove func moved inst).mem v = true ↔
      moved.mem v = true ∨ (inst.op = .transfer .move v ∧ v ≠ 0 ∧
        v < func.nextValueId) := by
  unfold markMove
  split
  · next source hOp =>
      rw [hOp]
      split
      · next hSource =>
          rw [ValueSet.mem_add hSource.2]
          constructor
          · rintro (rfl | h)
            · exact .inr ⟨rfl, hSource⟩
            · exact .inl h
          · rintro (h | ⟨hEq, _⟩)
            · exact .inr h
            · cases hEq
              exact .inl rfl
      · next hSource =>
          constructor
          · exact .inl
          · rintro (h | ⟨hEq, hv⟩)
            · exact h
            · cases hEq
              exact absurd hv hSource
  · next hOp =>
      constructor
      · exact .inl
      · rintro (h | ⟨hEq, _⟩)
        · exact h
        · exact absurd hEq (hOp v)

theorem mem_foldl_markMove {insts : List MirInst} {moved : Values func} {v : MirValueId} :
    (insts.foldl (markMove func) moved).mem v = true ↔
      moved.mem v = true ∨
        ∃ inst ∈ insts, inst.op = .transfer .move v ∧ v ≠ 0 ∧ v < func.nextValueId := by
  induction insts generalizing moved with
  | nil => simp
  | cons inst insts ih => simp [ih, mem_markMove, or_assoc]

theorem mem_moveIn {out : Nat → Values func} {v : MirValueId} :
    (moveIn func out b).mem v = true ↔ ∃ p ∈ func.predecessors b, (out p).mem v = true := by
  simp [moveIn]

theorem moveAnalysis_monotone {s t : Nat → Values func} (hLe : ∀ node, s node ≤ t node)
    (b : MirBlockId) :
    (moveAnalysis func).transfer s b ≤ (moveAnalysis func).transfer t b := by
  refine ValueSet.le_iff_mem.mpr fun v hv => ?_
  simp only [moveAnalysis, mem_foldl_markMove, mem_moveIn] at hv ⊢
  rcases hv with ⟨p, hp, hMem⟩ | hMove
  · exact .inl ⟨p, hp, ValueSet.le_iff_mem.mp (hLe p) v hMem⟩
  · exact .inr hMove

theorem moveAnalysis_ascending
    (hListed : ∀ a b, b ∈ func.successors a → b < func.blocks.length) :
    (moveAnalysis func).Ascending ValueSet.size func.nextValueId where
  monotone := moveAnalysis_monotone
  rank_lt := ValueSet.size_lt_size
  rank_le := ValueSet.size_le
  dependents_lt := fun a b hb => hListed a b hb

/-- After the fixpoint, what a block moves out is what it moves in together
with its own moves. -/
theorem mem_blockOut (hCfg : func.CfgConsistent) (hb : b < func.blocks.length) (v : MirValueId) :
    (blockOut func b).mem v = true ↔
      (moveIn func (blockOut func) b).mem v = true ∨
        ∃ inst ∈ func.insts b, inst.op = .transfer .move v ∧ v ≠ 0 ∧
          v < func.nextValueId := by
  have hStable := Dataflow.solve_stable (moveAnalysis_ascending hCfg.listed)
    (fun _ _ => ValueSet.empty_le _)
    (by
      intro s t node _ hKeys
      have hPreds : (func.predecessors node).map s = (func.predecessors node).map t :=
        map_congr_left fun p hp => hKeys p ((hCfg.predecessors_iff p node).mp hp)
      simp only [moveAnalysis, moveIn, hPreds])
    b hb
  have hEq : blockOut func b =
      (func.insts b).foldl (markMove func) (moveIn func (blockOut func) b) :=
    hStable
  rw [hEq, mem_foldl_markMove]

theorem mem_moveIn_of_edge (hCfg : func.CfgConsistent) {a : MirBlockId} {v : MirValueId}
    (hEdge : b ∈ func.targets a) (hOut : (blockOut func a).mem v = true) :
    (moveIn func (blockOut func) b).mem v = true :=
  mem_moveIn.mpr ⟨a, (hCfg.mem_predecessors_iff a b).mpr hEdge, hOut⟩

end

section

theorem emitError_ne_nil (bc : MirBorrowChecker) (error : MirBorrowError) :
    (emitError bc error).errors ≠ [] := by
  unfold emitError
  split
  · next hFull =>
      intro hNil
      simp [hNil, maxErrors] at hFull
  · simp

theorem foldl_clean {α : Type*}
    {check : MirBorrowChecker → α → MirBorrowChecker} (Ok : α → Prop)
    (hCheck : ∀ bc x, (check bc x).errors = [] → bc.errors = [] ∧ Ok x)
    {items : List α} {bc : MirBorrowChecker} (h : (items.foldl check bc).errors = []) :
    bc.errors = [] ∧ ∀ x ∈ items, Ok x := by
  induction items generalizing bc with
  | nil => exact ⟨h, by simp⟩
  | cons x items ih =>
    obtain ⟨hHead, hTail⟩ := ih h
    obtain ⟨hBc, hx⟩ := hCheck bc x hHead
    refine ⟨hBc, fun y hy => ?_⟩
    rcases mem_cons.mp hy with rfl | hy
    · exact hx
    · exact hTail y hy

variable {func : MirFunction} {moved live : Values func} {inst : MirInst} {rest : List MirInst}
  {bc : MirBorrowChecker}

private theorem borrowOperandMoved_clean (operand : MirValueId × String)
    (h : (borrowOperandMoved func moved inst bc operand).errors = []) :
    bc.errors = [] ∧ (operand.1 ≠ 0 → moved.mem operand.1 = false) := by
  unfold borrowOperandMoved at h
  split at h
  · exact absurd h (emitError_ne_nil _ _)
  · next hOk =>
      refine ⟨h, fun hNe => ?_⟩
      simpa [hNe] using hOk

private theorem checkMove_clean (h : (checkMove func moved inst bc).errors = []) :
    bc.errors = [] ∧ ∀ source, inst.op = .transfer .move source → source ≠ 0 →
      moved.mem source = false := by
  unfold checkMove at h
  split at h
  · next source hOp =>
      split at h
      · exact absurd h (emitError_ne_nil _ _)
      · next hOk =>
          refine ⟨h, fun source' hOp' hNe => ?_⟩
          rw [hOp] at hOp'
          cases hOp'
          by_contra hMem
          rw [Bool.not_eq_false] at hMem
          exact hOk ⟨hNe, (ValueSet.mem_iff.mp hMem).1, hMem⟩
  · next hOp => exact ⟨h, fun source hEq => absurd hEq (hOp source)⟩

private theorem checkBorrowConflicts_clean {source : MirValueId} {kind : MirBorrowKind}
    (h : (checkBorrowConflicts func live inst rest source kind bc).errors = []) :
    bc.errors = [] := by
  refine (foldl_clean (fun _ => True) ?_ h).1
  intro bc existing hStep
  refine ⟨?_, trivial⟩
  dsimp only at hStep
  split at hStep
  · exact hStep
  · split at hStep
    · exact absurd hStep (emitError_ne_nil _ _)
    · exact hStep

private theorem checkBorrow_clean (h : (checkBorrow func live inst rest bc).errors = []) :
    bc.errors = [] := by
  unfold checkBorrow at h
  split at h
  · exact checkBorrowConflicts_clean h
  · exact checkBorrowConflicts_clean h
  · exact h

/-- The operand walk covers every opcode that reads a value, moves excepted. -/
theorem mem_checkedOperands {op : MirOp} {v : MirValueId} (h : v ∈ op.operands) :
    (∃ message, (v, message) ∈ checkedOperands op) ∨ op = .transfer .move v := by
  cases op with
  | transfer kind source =>
    have hv : v = source := by simpa [MirOp.operands] using h
    subst hv
    cases kind <;> simp [checkedOperands]
  | constInt | constFloat | constBool | constString | constFunc | constNull | globalAddr | alloca
  | br | retVoid | unreachable | objAlloc | nop | undef | debugLoc =>
    simp [MirOp.operands] at h
  | _ =>
    left
    simp only [MirOp.operands, mem_map, mem_cons, not_mem_nil] at h
    simp only [checkedOperands, mem_cons, mem_map, Prod.mk.injEq]
    grind

theorem validateInst_clean (h : (validateInst func live moved inst rest bc).errors = []) :
    bc.errors = [] ∧ ∀ v ∈ inst.op.operands, v ≠ 0 → moved.mem v = false := by
  obtain ⟨hOperands, hMove⟩ := checkMove_clean (checkBorrow_clean h)
  obtain ⟨hBc, hChecked⟩ := foldl_clean
    (fun operand => operand.1 ≠ 0 → moved.mem operand.1 = false)
    (fun _ operand => borrowOperandMoved_clean operand) hOperands
  refine ⟨hBc, fun v hv hNe => ?_⟩
  rcases mem_checkedOperands hv with ⟨message, hMem⟩ | hOp
  · exact hChecked (v, message) hMem hNe
  · exact hMove v hOp hNe

/-- Along a block that passes, no instruction reads a value moved before it. -/
theorem validateInsts_clean {insts : List MirInst}
    (h : (validateInsts func live moved insts bc).errors = []) :
    bc.errors = [] ∧ ∀ before inst after, insts = before ++ inst :: after →
      ∀ v ∈ inst.op.operands, v ≠ 0 →
        (before.foldl (markMove func) moved).mem v = false := by
  induction insts generalizing moved bc with
  | nil => exact ⟨h, by simp⟩
  | cons first insts ih =>
    obtain ⟨hFirst, hRest⟩ := ih h
    obtain ⟨hBc, hOk⟩ := validateInst_clean hFirst
    refine ⟨hBc, fun before inst after hSplit v hv hNe => ?_⟩
    cases before with
    | nil =>
      cases hSplit
      exact hOk v hv hNe
    | cons head before =>
      rw [cons_append, List.cons.injEq] at hSplit
      obtain ⟨rfl, hTail⟩ := hSplit
      exact hRest before inst after hTail v hv hNe

theorem trackBorrow_errors : (trackBorrow bc inst).errors = bc.errors := by
  unfold trackBorrow
  dsimp only
  split
  · split <;> rfl
  · split <;> rfl
  · rfl

theorem foldl_trackBorrow_errors (insts : List MirInst) (bc : MirBorrowChecker) :
    (insts.foldl trackBorrow bc).errors = bc.errors := by
  induction insts generalizing bc with
  | nil => rfl
  | cons inst insts ih => rw [foldl_cons, ih, trackBorrow_errors]

/-- A report of no errors by a checker that had none: every listed block
passed its validation. -/
theorem check_clean (hBody : func.isExtern = false) (hClean : bc.errors = [])
    (hOk : (mirBorrowCheckFunction func bc).1 = 0) (hb : b < func.blocks.length) :
    ∀ before inst after, func.insts b = before ++ inst :: after →
      ∀ v ∈ inst.op.operands, v ≠ 0 →
      (before.foldl (markMove func) (moveIn func (blockOut func) b)).mem v = false := by
  have hBlocks : func.blocks ≠ [] := by
    rintro hNil
    simp [hNil] at hb
  simp only [mirBorrowCheckFunction, hBody, hBlocks, hClean, length_nil,
    Bool.false_eq_true, or_self, if_false] at hOk
  have hErrors := length_eq_zero_iff.mp hOk
  exact (foldl_clean
    (fun b => ∀ before inst after, func.insts b = before ++ inst :: after →
      ∀ v ∈ inst.op.operands, v ≠ 0 →
        (before.foldl (markMove func) (moveIn func (blockOut func) b)).mem v = false)
    (fun _ _ h => validateInsts_clean h) hErrors).2 b (mem_range.mpr hb)

end

/-- Some path from the entry block executes a move of `v` and later, with no
definition of `v` between the two, an instruction that reads or moves `v`. -/
def ReadsMovedValue (func : MirFunction) : Prop :=
  ∃ path before move between use after v, func.IsEntryPath path ∧
    func.pathInsts path = before ++ move :: (between ++ use :: after) ∧
    move.op = .transfer .move v ∧ v ≠ 0 ∧ v ∈ use.op.operands ∧
      ∀ inst ∈ between, inst.result ≠ v

section

variable {func : MirFunction}

/-- Every listed block passes its validation. -/
def Validated (func : MirFunction) : Prop :=
  ∀ b, b < func.blocks.length →
    ∀ before inst after, func.insts b = before ++ inst :: after →
    ∀ v ∈ inst.op.operands, v ≠ 0 →
      (before.foldl (markMove func) (moveIn func (blockOut func) b)).mem v = false

private theorem lt_of_insts_split {inst : MirInst} (h : func.insts b = before ++ inst :: after) :
    b < func.blocks.length := by
  by_contra hNot
  rw [MirFunction.insts_eq_nil (Nat.le_of_not_lt hNot)] at h
  simp at h

private theorem lt_of_edge {a : MirBlockId} (h : b ∈ func.targets a) :
    a < func.blocks.length := by
  by_contra hNot
  rw [MirFunction.targets_eq_nil (Nat.le_of_not_lt hNot)] at h
  simp at h

/-- A value moved before a path is never read along it. -/
theorem Validated.not_read_of_moved (hOk : Validated func) (hCfg : func.CfgConsistent)
    {path : List MirBlockId} (hPath : func.IsPath (b :: path)) {v : MirValueId}
    (hMoved : (moveIn func (blockOut func) b).mem v = true) (hNe : v ≠ 0) {use : MirInst}
    (hUse : func.pathInsts (b :: path) = before ++ use :: after) : v ∉ use.op.operands := by
  induction path generalizing b before with
  | nil =>
    intro hRead
    rw [MirFunction.pathInsts_cons, MirFunction.pathInsts_nil, append_nil] at hUse
    have hNot := hOk b (lt_of_insts_split hUse) before use after hUse v hRead hNe
    rw [← Bool.not_eq_true, mem_foldl_markMove] at hNot
    exact hNot (.inl hMoved)
  | cons next path ih =>
    rcases MirFunction.pathInsts_cons_split hUse with ⟨tail, hInsts, _⟩ |
      ⟨skipped, _, hRest⟩
    · intro hRead
      have hNot := hOk b (lt_of_insts_split hInsts) before use tail hInsts v hRead hNe
      rw [← Bool.not_eq_true, mem_foldl_markMove] at hNot
      exact hNot (.inl hMoved)
    · obtain ⟨hEdge, hNext⟩ := MirFunction.isPath_cons_cons.mp hPath
      have hOut := (mem_blockOut hCfg (lt_of_edge hEdge) v).mpr (.inl hMoved)
      exact ih hNext (mem_moveIn_of_edge hCfg hEdge hOut) hRest

/-- A value moved along a path is not read later along it. -/
theorem Validated.not_read_after_move (hOk : Validated func) (hCfg : func.CfgConsistent)
    {path : List MirBlockId} (hPath : func.IsPath path) {v : MirValueId} (hNe : v ≠ 0)
    (hLt : v < func.nextValueId) {between : List MirInst} {move use : MirInst}
    (hMove : move.op = .transfer .move v)
    (hInsts : func.pathInsts path = before ++ move :: (between ++ use :: after)) :
    v ∉ use.op.operands := by
  induction path generalizing before with
  | nil => simp at hInsts
  | cons b path ih =>
    rcases MirFunction.pathInsts_cons_split hInsts with ⟨tail, hBlock, hAfter⟩ |
      ⟨skipped, _, hRest⟩
    · have hb := lt_of_insts_split hBlock
      rcases append_eq_append_iff.mp hAfter with ⟨rest, hTail, hUse⟩ |
        ⟨rest, hBetween, hUse⟩
      · cases rest with
        | nil =>
          cases path with
          | nil => simp at hUse
          | cons next path =>
            have hEdge := MirFunction.isPath_cons_cons.mp hPath
            have hOut := (mem_blockOut hCfg hb v).mpr
              (.inr ⟨move, by rw [hBlock]; simp, hMove, hNe, hLt⟩)
            have hFirst : func.pathInsts (next :: path) = [] ++ use :: after := hUse.symm
            exact hOk.not_read_of_moved hCfg hEdge.2
              (mem_moveIn_of_edge hCfg hEdge.1 hOut) hNe hFirst
        | cons first rest =>
          rw [cons_append, List.cons.injEq] at hUse
          obtain ⟨rfl, _⟩ := hUse
          intro hRead
          have hSplit : func.insts b = (before ++ move :: between) ++ use :: rest := by
            rw [hBlock, hTail]
            simp
          have hNot := hOk b hb _ use rest hSplit v hRead hNe
          rw [← Bool.not_eq_true, mem_foldl_markMove] at hNot
          exact hNot (.inr ⟨move, by simp, hMove, hNe, hLt⟩)
      · cases path with
        | nil => simp at hUse
        | cons next path =>
          have hEdge := MirFunction.isPath_cons_cons.mp hPath
          have hOut := (mem_blockOut hCfg hb v).mpr
            (.inr ⟨move, by rw [hBlock]; simp, hMove, hNe, hLt⟩)
          exact hOk.not_read_of_moved hCfg hEdge.2 (mem_moveIn_of_edge hCfg hEdge.1 hOut) hNe hUse
    · cases path with
      | nil => simp at hRest
      | cons next path =>
        exact ih (MirFunction.isPath_cons_cons.mp hPath).2 hRest

/-- A function with a body, consistent edges and moves of its own values that
the checker reports clean never reads a moved value on a path. -/
theorem not_readsMovedValue_of_check (func : MirFunction) (bc : MirBorrowChecker)
    (hCfg : func.CfgConsistent) (hBody : func.isExtern = false)
    (hOwn : ∀ b, ∀ inst ∈ func.insts b, ∀ v,
      inst.op = .transfer .move v → v < func.nextValueId)
    (hClean : bc.errors = []) (hOk : (mirBorrowCheckFunction func bc).1 = 0) :
    ¬ReadsMovedValue func := by
  rintro ⟨path, before, move, between, use, after, v, hPath, hInsts, hMove, hNe, hRead, _⟩
  have hValidated : Validated func := fun b hb => check_clean hBody hClean hOk hb
  have hLt : v < func.nextValueId := by
    have hMem : move ∈ func.pathInsts path := by rw [hInsts]; simp
    obtain ⟨b, _, hb⟩ := mem_flatMap.mp hMem
    exact hOwn b move hb v hMove
  exact hValidated.not_read_after_move hCfg hPath.isPath hNe hLt hMove hInsts hRead

/-- `%1` is moved into `%2`, which the next block returns. -/
def movedOnce : MirFunction where
  name := "moved_once"
  nextValueId := 3
  blocks := [
    { insts := [{ op := .constInt 7, result := 1 }, { op := .transfer .move 1, result := 2 },
        { op := .br (some 1) }]
      successors := [1] },
    { insts := [{ op := .ret 2 }]
      predecessors := [0] }]

theorem movedOnce_not_readsMovedValue : ¬ReadsMovedValue movedOnce := by
  have hOwn : ∀ b, ∀ inst ∈ movedOnce.insts b, ∀ v, inst.op = .transfer .move v →
      v < movedOnce.nextValueId := by
    intro b inst hInst v hMove
    match b with
    | 0 | 1 =>
      simp only [MirFunction.insts, MirFunction.block?, movedOnce] at hInst ⊢
      grind
    | b + 2 =>
      rw [MirFunction.insts_eq_nil (Nat.le_add_left 2 b)] at hInst
      cases hInst
  exact not_readsMovedValue_of_check movedOnce {} (by decide) rfl hOwn rfl (by decide)

/-- `%5` is moved twice by a function that has numbered no value yet. -/
def strayMove : MirFunction where
  name := "stray_move"
  blocks := [{ insts := [{ op := .transfer .move 5 }, { op := .transfer .move 5 },
    { op := .retVoid }] }]

/-- The checker skips moves of ids it has no entry for, and functions marked
extern even when they have a body. -/
theorem strayMove_readsMovedValue :
    (strayMove.CfgConsistent ∧ (mirBorrowCheckFunction strayMove {}).1 = 0 ∧
      ReadsMovedValue strayMove) ∧
    let external := { strayMove with nextValueId := 6, isExtern := true }
    external.CfgConsistent ∧ (mirBorrowCheckFunction external {}).1 = 0 ∧
      ReadsMovedValue external := by
  have hReads : ∀ func : MirFunction, func.blocks = strayMove.blocks →
      ReadsMovedValue func := by
    intro func hBlocks
    refine ⟨[0], [], { op := .transfer .move 5 }, [], { op := .transfer .move 5 },
      [{ op := .retVoid }], 5, ⟨isChain_singleton 0, rfl⟩, ?_, rfl,
      by decide, by decide, by simp⟩
    simp [MirFunction.pathInsts, MirFunction.insts, MirFunction.block?, hBlocks, strayMove]
  exact ⟨⟨by decide, by decide, hReads _ rfl⟩, by decide, by decide, hReads _ rfl⟩

end

end Casprix.Borrow
