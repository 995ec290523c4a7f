import Casprix.Borrow.Reports

/-! When a reported move is one that some path makes. -/
namespace Casprix.Borrow

open List Casprix.Mir Library

variable {func : MirFunction}

/-- `p` is listed among the predecessors of `b`. -/
def Precedes (func : MirFunction) (p b : MirBlockId) : Prop := p ∈ func.predecessors b

/-- Block `b` moves the numbered value `v`. -/
def MovesIn (func : MirFunction) (b : MirBlockId) (v : MirValueId) : Prop :=
  ∃ inst ∈ func.insts b, inst.op = .transfer .move v ∧ v ≠ 0 ∧ v < func.nextValueId

variable {v : MirValueId} {site : Site func}

/-- A value leaves a block as moved only if the block, or one that its
predecessor lists lead back to, moves it. -/
theorem exists_movesIn_of_mem_blockOut {b : MirBlockId} (h : (blockOut func b).mem v = true) :
    ∃ a, Relation.ReflTransGen (Precedes func) a b ∧ MovesIn func a v := by
  classical
  let bound : Nat → Values func := fun b w =>
    decide (∃ a, Relation.ReflTransGen (Precedes func) a b ∧ MovesIn func a w)
  have hMem : ∀ b w, (bound b).mem w = true ↔
      ∃ a, Relation.ReflTransGen (Precedes func) a b ∧ MovesIn func a w := by
    intro b w
    rw [ValueSet.mem_iff]
    constructor
    · rintro ⟨_, hBound⟩
      exact of_decide_eq_true hBound
    · rintro ⟨a, hWalk, hMoves⟩
      exact ⟨hMoves.choose_spec.2.2.2, decide_eq_true ⟨a, hWalk, hMoves⟩⟩
  have hBound : ∀ node, (moveAnalysis func).transfer bound node ≤ bound node := by
    intro node
    refine ValueSet.le_iff_mem.mpr fun w hw => ?_
    simp only [moveAnalysis, mem_foldl_markMove, mem_moveIn, hMem] at hw ⊢
    rcases hw with ⟨p, hp, a, hWalk, hMoves⟩ | hMove
    · exact ⟨a, hWalk.tail hp, hMoves⟩
    · exact ⟨node, .refl, hMove⟩
  have hLe : blockOut func b ≤ bound b :=
    Dataflow.solve_le (P := moveAnalysis func) moveAnalysis_monotone
      (fun _ _ => ValueSet.empty_le _) hBound b
  exact (hMem b v).mp (ValueSet.le_iff_mem.mp hLe v h)

theorem mem_moveIn_of_movesIn (hCfg : func.CfgConsistent) {a b : MirBlockId}
    (hMoves : MovesIn func a v) (hWalk : Relation.TransGen (Precedes func) a b) :
    (moveIn func (blockOut func) b).mem v = true := by
  have hLt : ∀ p b, Precedes func p b → p < func.blocks.length := fun p b h =>
    MirFunction.lt_of_mem_targets ((hCfg.mem_predecessors_iff p b).mp h)
  induction hWalk with
  | single hEdge =>
    exact mem_moveIn.mpr ⟨a, hEdge, (mem_blockOut hCfg (hLt _ _ hEdge) v).mpr (.inr hMoves)⟩
  | tail _ hEdge ih =>
    exact mem_moveIn.mpr ⟨_, hEdge, (mem_blockOut hCfg (hLt _ _ hEdge) v).mpr (.inl ih)⟩

/-- A move of the value stands before the site in its block, or in a block
that the predecessor lists lead back to. -/
def MoveLinked (site : Site func) (v : MirValueId) : Prop :=
  (∃ inst ∈ site.before, inst.op = .transfer .move v) ∨
    ∃ a, Relation.TransGen (Precedes func) a site.block ∧
      ∃ inst ∈ func.insts a, inst.op = .transfer .move v

theorem moveLinked_of_mem_moved (h : site.moved.mem v = true) : MoveLinked site v := by
  rw [Site.moved, mem_foldl_markMove, mem_moveIn] at h
  rcases h with ⟨p, hEdge, hOut⟩ | ⟨inst, hInst, hOp, _⟩
  · obtain ⟨a, hWalk, inst, hInst, hOp, _⟩ := exists_movesIn_of_mem_blockOut hOut
    exact .inr ⟨a, Relation.TransGen.tail' hWalk hEdge, inst, hInst, hOp⟩
  · exact .inl ⟨inst, hInst, hOp⟩

theorem mem_moved_of_moveLinked (hCfg : func.CfgConsistent) (hNe : v ≠ 0)
    (hLt : v < func.nextValueId) (h : MoveLinked site v) : site.moved.mem v = true := by
  rw [Site.moved, mem_foldl_markMove]
  rcases h with ⟨inst, hInst, hOp⟩ | ⟨a, hWalk, inst, hInst, hOp⟩
  · exact .inr ⟨inst, hInst, hOp, hNe, hLt⟩
  · exact .inl (mem_moveIn_of_movesIn hCfg ⟨inst, hInst, hOp, hNe, hLt⟩ hWalk)

/-- Of what concerns `v`, the last thing the instructions do is to move it. -/
def EndsMoved (insts : List MirInst) (v : MirValueId) : Prop :=
  ∃ before move between, insts = before ++ move :: between ∧ move.op = .transfer .move v ∧
    ∀ inst ∈ between, inst.result ≠ v

/-- Some path from the entry block moves `v` and reaches the read of `v` at the
site with `v` not defined again. A PHI reads `v` on the edge that carries it. -/
def MovedOnPath (site : Site func) (v : MirValueId) : Prop :=
  match site.inst.op with
  | .phi edges => ∃ path a, func.IsEntryPath (path ++ [a] ++ [site.block]) ∧
      { block := some a, value := v } ∈ edges ∧ EndsMoved (func.pathInsts (path ++ [a])) v
  | op => v ∈ op.operands ∧ ∃ path, func.IsEntryPath (path ++ [site.block]) ∧
      EndsMoved (func.pathInsts path ++ site.before) v

/-- Every report of a moved value is of a read that some path makes after the move. -/
def MoveReportsJustified (func : MirFunction) (bc : MirBorrowChecker) : Prop :=
  ∀ (site : Site func) error, Reports func bc site error →
    error.kind = .useAfterMove ∨ error.kind = .doubleMove → MovedOnPath site error.value

/-- Every move that the edge lists link to a read reaches it along some path,
through the edge the read takes and past no definition of the value. -/
def MovesReachReads (func : MirFunction) : Prop :=
  func.isExtern = true ∨ ∀ (site : Site func) v, v ∈ site.inst.op.operands → v ≠ 0 →
    v < func.nextValueId → MoveLinked site v → MovedOnPath site v

theorem mem_operands_of_checked {op : MirOp} {message : String}
    (h : (v, message) ∈ checkedOperands op) : v ∈ op.operands := by
  cases op with
  | transfer kind source =>
    cases kind <;> simp_all [checkedOperands, MirOp.operands]
  | constInt | constFloat | constBool | constString | constFunc | constNull | globalAddr | alloca
  | br | retVoid | unreachable | objAlloc | nop | undef | debugLoc =>
    simp [checkedOperands] at h
  | _ =>
    simp only [checkedOperands, mem_cons, mem_map, Prod.mk.injEq, not_mem_nil] at h
    simp only [MirOp.operands, mem_map, mem_cons, not_mem_nil]
    grind

theorem kind_of_conflict {new existing : MirBorrowKind} {kind : MirBorrowErrorKind}
    {message : String} (h : conflict? new existing = some (kind, message)) :
    kind = .borrowConflict ∨ kind = .mutAlias := by
  cases new <;> cases existing <;> simp_all [conflict?]

section

variable {error : MirBorrowError} (h : RaisedAt site error)
  (hKind : error.kind = .useAfterMove ∨ error.kind = .doubleMove)
include h hKind

theorem RaisedAt.moved :
    error.value ∈ site.inst.op.operands ∧ error.value ≠ 0 ∧
      site.moved.mem error.value = true := by
  rcases h with hMove | hConflict
  · cases hMove with
    | operand hOperand hNe hMoved => exact ⟨mem_operands_of_checked hOperand, hNe, hMoved⟩
    | move hOp hNe hMoved => exact ⟨by simp [hOp, MirOp.operands], hNe, hMoved⟩
  · cases hConflict with
    | borrow _ _ _ _ hConflict =>
      rcases kind_of_conflict hConflict with hIs | hIs <;> simp [hIs] at hKind

theorem RaisedAt.exists_moveLinked :
    ∃ (site : Site func) (v : MirValueId), v ∈ site.inst.op.operands ∧ v ≠ 0 ∧
      v < func.nextValueId ∧ MoveLinked site v := by
  obtain ⟨hRead, hNe, hMoved⟩ := h.moved hKind
  exact ⟨site, error.value, hRead, hNe, (ValueSet.mem_iff.mp hMoved).1,
    moveLinked_of_mem_moved hMoved⟩

end

theorem exists_raisedAt_of_mem_moved (hRead : v ∈ site.inst.op.operands) (hNe : v ≠ 0)
    (hMoved : site.moved.mem v = true) :
    ∃ error, RaisedAt site error ∧ error.value = v ∧
      (error.kind = .useAfterMove ∨ error.kind = .doubleMove) := by
  rcases mem_checkedOperands hRead with ⟨message, hOperand⟩ | hOp
  · exact ⟨_, .inl (.operand hOperand hNe hMoved), rfl, .inl rfl⟩
  · exact ⟨_, .inl (.move hOp hNe hMoved), rfl, .inr rfl⟩

/-- The reports of moves are right when every linked move reaches its read, and
for a consistent function whose errors fit the array only then. -/
theorem moveReportsJustified_iff (func : MirFunction) (bc : MirBorrowChecker) :
    (MovesReachReads func → MoveReportsJustified func bc) ∧
      (func.CfgConsistent → (mirBorrowCheckFunction func bc).2.errors.length < maxErrors →
        (MoveReportsJustified func bc ↔ MovesReachReads func)) := by
  have hEnough : MovesReachReads func → MoveReportsJustified func bc := by
    intro hReach site error hReport hKind
    obtain ⟨hRead, hNe, hMoved⟩ := hReport.raisedAt.moved hKind
    rcases hReach with hExtern | hReach
    · exact absurd hReport.1 (by simp [hExtern])
    · obtain ⟨hLt, _⟩ := ValueSet.mem_iff.mp hMoved
      exact hReach site error.value hRead hNe hLt (moveLinked_of_mem_moved hMoved)
  refine ⟨hEnough, fun hCfg hRoom => ⟨fun hJustified => ?_, hEnough⟩⟩
  cases hBody : func.isExtern with
  | true => exact .inl hBody
  | false =>
    refine .inr fun site v hRead hNe hLt hLinked => ?_
    obtain ⟨error, hRaised, rfl, hKind⟩ :=
      exists_raisedAt_of_mem_moved hRead hNe (mem_moved_of_moveLinked hCfg hNe hLt hLinked)
    exact hJustified site error (reports_of_raisedAt bc hBody hRoom hRaised) hKind

theorem not_endsMoved_concat {insts : List MirInst} {inst : MirInst} (hDef : inst.result = v)
    (hOp : inst.op ≠ .transfer .move v) : ¬EndsMoved (insts ++ [inst]) v := by
  rintro ⟨before, move, between, hSplit, hMove, hKept⟩
  rcases eq_nil_or_concat between with rfl | ⟨kept, last, rfl⟩
  · obtain ⟨_, hLast⟩ := append_inj' hSplit rfl
    cases hLast
    exact hOp hMove
  · rw [concat_eq_append, ← cons_append, ← append_assoc] at hSplit
    obtain ⟨_, hLast⟩ := append_inj' hSplit rfl
    cases hLast
    exact hKept _ (by simp) hDef

/-- `%1` is moved twice in a row. -/
def movedTwice : MirFunction where
  name := "moved_twice"
  nextValueId := 4
  blocks := [{ insts := [{ op := .constInt 7, result := 1 },
    { op := .transfer .move 1, result := 2 },
    { op := .transfer .move 1, result := 3 }, { op := .retVoid }] }]

theorem moveReportsJustified_movedTwice : MoveReportsJustified movedTwice {} := by
  refine ((moveReportsJustified_iff movedTwice {}).2 (by decide) (by decide)).mpr (.inr ?_)
  have hNoEdge : ∀ a, ¬Relation.TransGen (Precedes movedTwice) a 0 := by
    intro a hWalk
    obtain ⟨p, _, hEdge⟩ := Relation.TransGen.tail'_iff.mp hWalk
    simp [Precedes, MirFunction.predecessors, MirFunction.block?, movedTwice] at hEdge
  rintro ⟨b, before, inst, after, hSplit⟩ v hRead _ _ hLinked
  have hBlock : b = 0 := by
    have hLt := MirFunction.lt_of_insts hSplit
    exact Nat.lt_one_iff.mp hLt
  subst hBlock
  have hInsts : movedTwice.insts 0 = [{ op := .constInt 7, result := 1 },
    { op := .transfer .move 1, result := 2 }, { op := .transfer .move 1, result := 3 },
    { op := .retVoid }] := rfl
  rw [hInsts] at hSplit
  rcases hLinked with ⟨move, hMove, hOp⟩ | ⟨a, hWalk, _⟩
  · rcases before with _ | ⟨first, _ | ⟨second, _ | ⟨third, before⟩⟩⟩
    · cases hMove
    · cases hSplit
      cases mem_singleton.mp hMove
      cases hOp
    · cases hSplit
      cases mem_singleton.mp hRead
      refine ⟨hRead, [], ⟨isChain_singleton 0, rfl⟩, [{ op := .constInt 7, result := 1 }],
        { op := .transfer .move 1, result := 2 }, [], rfl, rfl, ?_⟩
      simp
    · have hLast : inst.op = .retVoid := by
        cases before with
        | nil =>
          cases hSplit
          rfl
        | cons fourth before => simp at hSplit
      rw [hLast] at hRead
      cases hRead
  · exact absurd hWalk (hNoEdge a)

/-- A loop whose body makes a value and moves it. -/
def loopMove : MirFunction where
  name := "loop_move"
  nextValueId := 4
  blocks := [
    { insts := [{ op := .br (some 1) }]
      successors := [1] },
    { insts := [{ op := .constInt 7, result := 1 }, { op := .transfer .move 1, result := 2 },
        { op := .constBool true, result := 3 }, { op := .condbr 3 (some 1) (some 2) }]
      predecessors := [0, 1]
      successors := [1, 2] },
    { insts := [{ op := .retVoid }]
      predecessors := [1] }]

/-- The move of the next round is reported, although the value is a new one. -/
theorem loopMove_not_moveReportsJustified :
    loopMove.CfgConsistent ∧ (mirBorrowCheckFunction loopMove {}).1 = 1 ∧
      ¬MoveReportsJustified loopMove {} := by
  refine ⟨by decide, by decide +kernel, fun hJustified => ?_⟩
  let site : Site loopMove := ⟨1, [{ op := .constInt 7, result := 1 }],
    { op := .transfer .move 1, result := 2 },
    [{ op := .constBool true, result := 3 }, { op := .condbr 3 (some 1) (some 2) }], rfl⟩
  have hMoved : site.moved.mem 1 = true := by decide +kernel
  have hReport := reports_of_raisedAt {} rfl (by decide +kernel)
    (.inl (MoveError.move rfl one_ne_zero hMoved) : RaisedAt site _)
  obtain ⟨_, path, _, hEnds⟩ := hJustified site _ hReport (.inr rfl)
  exact not_endsMoved_concat rfl (by decide) hEnds

end Casprix.Borrow
