import Casprix.Borrow.MoveSoundness

/-! Which errors the validation pass records, and at which instruction. Every
check is a run of `emitError`, so what it raises can be said without the state
of the checker. -/
namespace Casprix.Borrow

open List Casprix.Mir Library

/-- The errors recorded between two states of the checker. -/
def newErrors (bc bc' : MirBorrowChecker) : List MirBorrowError :=
  bc'.errors.drop bc.errors.length

@[simp] theorem borrows_emitError (bc : MirBorrowChecker) (error : MirBorrowError) :
    (emitError bc error).borrows = bc.borrows := by
  unfold emitError
  split <;> rfl

variable {bc : MirBorrowChecker}

theorem errors_emitError_of_lt (error : MirBorrowError)
    (h : bc.errors.length < maxErrors) : (emitError bc error).errors = bc.errors ++ [error] := by
  rw [emitError, if_neg (not_le.mpr h)]

theorem emitError_of_le (error : MirBorrowError)
    (h : maxErrors ≤ bc.errors.length) : emitError bc error = bc := by
  rw [emitError, if_pos h]

theorem errors_foldl_emitError (errors : List MirBorrowError) (bc : MirBorrowChecker) :
    (errors.foldl emitError bc).errors =
      bc.errors ++ errors.take (maxErrors - bc.errors.length) := by
  induction errors generalizing bc with
  | nil => simp
  | cons error errors ih =>
    rw [foldl_cons, ih]
    rcases lt_or_ge bc.errors.length maxErrors with hRoom | hFull
    · have hSplit : maxErrors - bc.errors.length = maxErrors - (bc.errors.length + 1) + 1 := by
        omega
      rw [errors_emitError_of_lt error hRoom, length_append, length_singleton,
        hSplit, take_succ_cons, append_assoc, singleton_append]
    · rw [emitError_of_le error hFull, Nat.sub_eq_zero_of_le hFull]
      simp

theorem borrows_foldl_emitError (errors : List MirBorrowError) (bc : MirBorrowChecker) :
    (errors.foldl emitError bc).borrows = bc.borrows := by
  induction errors generalizing bc with
  | nil => rfl
  | cons error errors ih => rw [foldl_cons, ih, borrows_emitError]

/-- A check that runs `emitError` on exactly the errors that satisfy `raised`. -/
def Emits (raised : MirBorrowError → Prop) (bc bc' : MirBorrowChecker) : Prop :=
  ∃ errors : List MirBorrowError, bc' = errors.foldl emitError bc ∧
    ∀ error, error ∈ errors ↔ raised error

namespace Emits

variable {raised raised' : MirBorrowError → Prop} {bc bc' bc'' : MirBorrowChecker}
  {error : MirBorrowError}

theorem none (bc : MirBorrowChecker) (h : ∀ error, ¬raised error) : Emits raised bc bc :=
  ⟨[], rfl, fun error => by simp [h error]⟩

theorem one (bc : MirBorrowChecker) (h : ∀ e, raised e ↔ e = error) :
    Emits raised bc (emitError bc error) :=
  ⟨[error], rfl, fun e => by simp [h e]⟩

theorem trans (h : Emits raised bc bc') (h' : Emits raised' bc' bc'') :
    Emits (fun e => raised e ∨ raised' e) bc bc'' := by
  obtain ⟨errors, rfl, hErrors⟩ := h
  obtain ⟨errors', rfl, hErrors'⟩ := h'
  refine ⟨errors ++ errors', by rw [foldl_append], fun e => ?_⟩
  rw [mem_append, hErrors, hErrors']

theorem congr (h : Emits raised bc bc') (hIff : ∀ e, raised e ↔ raised' e) :
    Emits raised' bc bc' := by
  obtain ⟨errors, hEq, hErrors⟩ := h
  exact ⟨errors, hEq, fun e => (hErrors e).trans (hIff e)⟩

theorem borrows (h : Emits raised bc bc') : bc'.borrows = bc.borrows := by
  obtain ⟨errors, rfl, _⟩ := h
  exact borrows_foldl_emitError errors bc

theorem foldl {α : Type*} {check : MirBorrowChecker → α → MirBorrowChecker}
    {raised : α → MirBorrowError → Prop} {tracked : List MirBorrow}
    (h : ∀ bc x, bc.borrows = tracked → Emits (raised x) bc (check bc x))
    (items : List α) (bc : MirBorrowChecker) (hBorrows : bc.borrows = tracked) :
    Emits (fun e => ∃ x ∈ items, raised x e) bc (items.foldl check bc) := by
  induction items generalizing bc with
  | nil => exact none bc (by simp)
  | cons x items ih =>
    have hHead := h bc x hBorrows
    exact (hHead.trans (ih _ (hHead.borrows.trans hBorrows))).congr (by simp)

theorem errors_isPrefix (h : Emits raised bc bc') : bc.errors <+: bc'.errors := by
  obtain ⟨errors, rfl, _⟩ := h
  rw [errors_foldl_emitError]
  exact prefix_append _ _

theorem of_mem (h : Emits raised bc bc') (hMem : error ∈ newErrors bc bc') : raised error := by
  obtain ⟨errors, rfl, hErrors⟩ := h
  rw [newErrors, errors_foldl_emitError, drop_left] at hMem
  exact (hErrors error).mp (mem_of_mem_take hMem)

theorem mem_of_room (h : Emits raised bc bc') (hRoom : bc'.errors.length < maxErrors)
    (hRaised : raised error) : error ∈ newErrors bc bc' := by
  obtain ⟨errors, rfl, hErrors⟩ := h
  rw [errors_foldl_emitError, length_append, length_take] at hRoom
  rw [newErrors, errors_foldl_emitError, drop_left, take_of_length_le (by omega)]
  exact (hErrors error).mpr hRaised

end Emits

section

variable {α : Type*} {check : MirBorrowChecker → α → MirBorrowChecker}

theorem isPrefix_foldl (hGrows : ∀ bc x, bc.errors <+: (check bc x).errors) (items : List α)
    (bc : MirBorrowChecker) : bc.errors <+: (items.foldl check bc).errors := by
  induction items generalizing bc with
  | nil => exact prefix_rfl
  | cons x items ih => exact (hGrows bc x).trans (ih _)

theorem newErrors_append {bc bc' bc'' : MirBorrowChecker} (h : bc.errors <+: bc'.errors)
    (h' : bc'.errors <+: bc''.errors) :
    newErrors bc bc'' = newErrors bc bc' ++ newErrors bc' bc'' := by
  obtain ⟨added, hAdded⟩ := h
  obtain ⟨added', hAdded'⟩ := h'
  rw [newErrors, newErrors, newErrors, ← hAdded', ← hAdded, drop_left, drop_left, append_assoc,
    drop_left]

/-- Each error of a whole pass is recorded at one of its checks. -/
theorem mem_newErrors_foldl {error : MirBorrowError}
    (hGrows : ∀ bc x, bc.errors <+: (check bc x).errors) (items : List α)
    (bc : MirBorrowChecker) :
    error ∈ newErrors bc (items.foldl check bc) ↔
      ∃ before x after, items = before ++ x :: after ∧
      error ∈ newErrors (before.foldl check bc) (check (before.foldl check bc) x) := by
  induction items generalizing bc with
  | nil => simp [newErrors]
  | cons x items ih =>
    rw [foldl_cons, newErrors_append (hGrows bc x) (isPrefix_foldl hGrows items _), mem_append, ih]
    constructor
    · rintro (hHead | ⟨before, y, after, rfl, hMem⟩)
      · exact ⟨[], x, items, rfl, hHead⟩
      · exact ⟨x :: before, y, after, rfl, hMem⟩
    · rintro ⟨_ | ⟨_, before⟩, y, after, hSplit, hMem⟩
      · cases hSplit
        exact .inl hMem
      · cases hSplit
        exact .inr ⟨before, y, after, rfl, hMem⟩

end

section

variable {func : MirFunction} {moved live : Values func} {inst : MirInst} {rest : List MirInst}

/-- The errors of the move checks of an instruction. -/
inductive MoveError (moved : Values func) (inst : MirInst) : MirBorrowError → Prop where
  | operand {v : MirValueId} {message : String}
    (hOperand : (v, message) ∈ checkedOperands inst.op)
      (hNe : v ≠ 0) (hMoved : moved.mem v = true) :
      MoveError moved inst
        { kind := .useAfterMove, message := message, line := inst.srcLine, col := inst.srcCol,
          value := v, conflicting := 0 }
  | move {v : MirValueId} (hOp : inst.op = .transfer .move v) (hNe : v ≠ 0)
      (hMoved : moved.mem v = true) :
      MoveError moved inst
        { kind := .doubleMove, message := "value moved more than once", line := inst.srcLine,
          col := inst.srcCol, value := v, conflicting := 0 }

def MirBorrowKind.op : MirBorrowKind → TransferOp
  | .shared => .borrow
  | .mutable => .borrowMut

theorem MirBorrowKind.op_injective {kind kind' : MirBorrowKind} (h : kind.op = kind'.op) :
    kind = kind' := by
  cases kind <;> cases kind' <;> first | rfl | cases h

/-- The test by which an existing borrow counts as active at an instruction. -/
def CountsActive (live : Values func) (inst : MirInst) (rest : List MirInst) (v : MirValueId) :
    Prop :=
  v ∈ inst.op.operands ∨
    (v ≠ 0 ∧ v < func.nextValueId ∧
      ((∃ later ∈ rest, v ∈ later.op.operands) ∨ live.mem v = true))

/-- The errors of the borrow check of an instruction against the tracked borrows. -/
inductive ConflictError (borrows : List MirBorrow) (live : Values func) (inst : MirInst)
    (rest : List MirInst) : MirBorrowError → Prop where
  | borrow {kind : MirBorrowKind} {existing : MirBorrow} {errorKind : MirBorrowErrorKind}
      {message : String} (hOp : inst.op = .transfer kind.op existing.sourceId)
      (hExisting : existing ∈ borrows) (hOther : existing.borrowId ≠ inst.result)
      (hActive : CountsActive live inst rest existing.borrowId)
      (hConflict : conflict? kind existing.kind = some (errorKind, message)) :
      ConflictError borrows live inst rest
        { kind := errorKind, message := message, line := inst.srcLine, col := inst.srcCol,
          value := inst.result, conflicting := existing.borrowId }

theorem countsActive_iff (v : MirValueId) :
    (instUsesValue inst v || isLiveAfter func rest v live) = true ↔
      CountsActive live inst rest v := by
  simp only [CountsActive, instUsesValue, isLiveAfter, Bool.or_eq_true, contains_iff_mem]
  refine or_congr_right ?_
  split
  · next hOut =>
      simp only [Bool.false_eq_true, false_iff]
      rintro ⟨hNe, hLt, _⟩
      rcases hOut with hZero | hLe
      · exact hNe hZero
      · exact not_lt.mpr hLe hLt
  · next hIn =>
      obtain ⟨hNe, hLt⟩ := not_or.mp hIn
      simp [hNe, not_le.mp hLt]

theorem emits_borrowCheckInstOperands (moved : Values func) (inst : MirInst)
    (bc : MirBorrowChecker) :
    Emits (fun e => ∃ operand ∈ checkedOperands inst.op, operand.1 ≠ 0 ∧
        moved.mem operand.1 = true ∧
        e = { kind := .useAfterMove, message := operand.2, line := inst.srcLine,
              col := inst.srcCol, value := operand.1, conflicting := 0 })
      bc (borrowCheckInstOperands func moved inst bc) := by
  refine Emits.foldl ?_ _ bc rfl
  intro bc operand _
  unfold borrowOperandMoved
  split
  · next h => exact Emits.one bc (by simp [h])
  · next h => exact Emits.none bc (fun e hRaised => h ⟨hRaised.1, hRaised.2.1⟩)

theorem emits_checkMove (moved : Values func) (inst : MirInst) (bc : MirBorrowChecker) :
    Emits (fun e => ∃ v, inst.op = .transfer .move v ∧ v ≠ 0 ∧ moved.mem v = true ∧
        e = { kind := .doubleMove, message := "value moved more than once", line := inst.srcLine,
              col := inst.srcCol, value := v, conflicting := 0 })
      bc (checkMove func moved inst bc) := by
  unfold checkMove
  split
  · next source hOp =>
      split
      · next h => exact Emits.one bc (by simp [hOp, h])
      · next h =>
          refine Emits.none bc ?_
          rintro e ⟨v, hMove, hNe, hMem, _⟩
          rw [hOp] at hMove
          cases hMove
          exact h ⟨hNe, (ValueSet.mem_iff.mp hMem).1, hMem⟩
  · next hOp => exact Emits.none bc (fun e ⟨v, hMove, _⟩ => hOp v hMove)

theorem emits_checkBorrowConflicts (kind : MirBorrowKind) (source : MirValueId)
    (hOp : inst.op = .transfer kind.op source) (bc : MirBorrowChecker) :
    Emits (ConflictError bc.borrows live inst rest) bc
      (checkBorrowConflicts func live inst rest source kind bc) := by
  have hLoop : Emits (fun e => ∃ existing ∈ bc.borrows,
      (existing.borrowId ≠ inst.result ∧ CountsActive live inst rest existing.borrowId ∧
        existing.sourceId = source) ∧
      ∃ errorKind message, conflict? kind existing.kind = some (errorKind, message) ∧
        e = { kind := errorKind, message := message, line := inst.srcLine, col := inst.srcCol,
              value := inst.result, conflicting := existing.borrowId })
      bc (checkBorrowConflicts func live inst rest source kind bc) := by
    refine Emits.foldl ?_ _ bc rfl
    intro bc existing _
    dsimp only
    split
    · next hSkip =>
        refine Emits.none bc ?_
        rintro e ⟨⟨hOther, hActive, hSource⟩, _⟩
        rcases hSkip with hSame | hIdle | hOtherSource
        · exact hOther hSame
        · rw [Bool.or_assoc, Bool.or_eq_false_iff] at hIdle
          exact Bool.eq_false_iff.mp hIdle.2 ((countsActive_iff _).mpr hActive)
        · exact hOtherSource hSource
    · next hKeep =>
        rw [not_or, not_or, Bool.not_eq_false, not_not] at hKeep
        obtain ⟨hOther, hActive, hSource⟩ := hKeep
        rw [beq_false_of_ne hOther, Bool.false_or, countsActive_iff] at hActive
        cases conflict? kind existing.kind with
        | none => exact Emits.none bc (by simp)
        | some conflict =>
          obtain ⟨errorKind, message⟩ := conflict
          exact Emits.one bc (by simp [hOther, hActive, hSource])
  refine hLoop.congr fun e => ?_
  constructor
  · rintro ⟨existing, hExisting, ⟨hOther, hActive, rfl⟩, errorKind,
      message, hConflict, rfl⟩
    exact .borrow hOp hExisting hOther hActive hConflict
  · rintro ⟨hOp', hExisting, hOther, hActive, hConflict⟩
    rw [hOp] at hOp'
    obtain ⟨hKind, hSource⟩ := MirOp.transfer.inj hOp'
    rw [← MirBorrowKind.op_injective hKind] at hConflict
    exact ⟨_, hExisting, ⟨hOther, hActive, hSource.symm⟩, _, _, hConflict, rfl⟩

theorem emits_checkBorrow (live : Values func) (inst : MirInst) (rest : List MirInst)
    (bc : MirBorrowChecker) :
    Emits (ConflictError bc.borrows live inst rest) bc (checkBorrow func live inst rest bc) := by
  unfold checkBorrow
  split
  · next source hOp => exact emits_checkBorrowConflicts .shared source hOp bc
  · next source hOp => exact emits_checkBorrowConflicts .mutable source hOp bc
  · next hShared hMutable =>
      refine Emits.none bc ?_
      rintro e ⟨hOp, _⟩
      rename_i kind existing _ _ _ _ _ _
      cases kind with
      | shared => exact hShared _ hOp
      | mutable => exact hMutable _ hOp

/-- One instruction raises the errors of its move checks and of its borrow check. -/
theorem emits_validateInst (bc : MirBorrowChecker) :
    Emits (fun e => MoveError moved inst e ∨ ConflictError bc.borrows live inst rest e) bc
      (validateInst func live moved inst rest bc) := by
  have hOperands := emits_borrowCheckInstOperands moved inst bc
  have hMove := emits_checkMove moved inst (borrowCheckInstOperands func moved inst bc)
  have hBorrow := emits_checkBorrow live inst rest
    (checkMove func moved inst (borrowCheckInstOperands func moved inst bc))
  rw [hMove.borrows, hOperands.borrows] at hBorrow
  refine ((hOperands.trans hMove).trans hBorrow).congr fun e => or_congr_left ?_
  constructor
  · rintro (⟨operand, hOperand, hNe, hMoved, rfl⟩ | ⟨v, hOp, hNe, hMoved, rfl⟩)
    · exact .operand hOperand hNe hMoved
    · exact .move hOp hNe hMoved
  · rintro (⟨hOperand, hNe, hMoved⟩ | ⟨hOp, hNe, hMoved⟩)
    · exact .inl ⟨_, hOperand, hNe, hMoved, rfl⟩
    · exact .inr ⟨_, hOp, hNe, hMoved, rfl⟩

end

/-- An instruction at its place in a block. -/
@[ext]
structure Site (func : MirFunction) where
  block : MirBlockId
  before : List MirInst
  inst : MirInst
  after : List MirInst
  split : func.insts block = before ++ inst :: after

section

variable {func : MirFunction}

/-- The sites of a block from the instruction after `before` on. -/
def sitesFrom (func : MirFunction) (b : MirBlockId) (before : List MirInst) :
    (rest : List MirInst) → func.insts b = before ++ rest → List (Site func)
  | [], _ => []
  | inst :: after, h =>
    ⟨b, before, inst, after, h⟩ ::
      sitesFrom func b (before ++ [inst]) after (by rw [h, append_assoc, singleton_append])

/-- Every instruction, in the order of the validation pass. -/
def sites (func : MirFunction) : List (Site func) :=
  (List.range func.blocks.length).flatMap fun b => sitesFrom func b [] (func.insts b) rfl

variable (site : Site func)

/-- The state of the move analysis when the validation reaches the site. -/
def Site.moved : Values func :=
  site.before.foldl (markMove func) (moveIn func (blockOut func) site.block)

def validateSite (bc : MirBorrowChecker) (site : Site func) : MirBorrowChecker :=
  validateInst func (liveOut func site.block) site.moved site.inst site.after bc

/-- The checker once the borrows of the function are tracked. -/
def tracked (func : MirFunction) (bc : MirBorrowChecker) : MirBorrowChecker :=
  (func.blocks.flatMap (·.insts)).foldl trackBorrow { bc with borrows := [] }

private theorem validateInsts_eq (b : MirBlockId) (before rest : List MirInst)
    (h : func.insts b = before ++ rest) (bc : MirBorrowChecker) :
    validateInsts func (liveOut func b)
        (before.foldl (markMove func) (moveIn func (blockOut func) b)) rest bc =
      (sitesFrom func b before rest h).foldl validateSite bc := by
  induction rest generalizing before bc with
  | nil => rfl
  | cons inst after ih =>
    rw [validateInsts, sitesFrom, foldl_cons, ← ih]
    rw [foldl_append]
    rfl

theorem mirBorrowCheckFunction_eq (hBody : func.isExtern = false) (hBlocks : func.blocks ≠ [])
    (bc : MirBorrowChecker) :
    (mirBorrowCheckFunction func bc).2 = (sites func).foldl validateSite (tracked func bc) := by
  have hBlock : validateBlock func = fun bc b =>
      (sitesFrom func b [] (func.insts b) rfl).foldl validateSite bc := by
    funext bc b
    exact validateInsts_eq b [] (func.insts b) rfl bc
  rw [mirBorrowCheckFunction, if_neg (by simp [hBody, hBlocks]), sites, foldl_flatMap, hBlock]
  rfl

private theorem mem_sitesFrom {before rest : List MirInst}
    (h : func.insts site.block = before ++ rest) {front : List MirInst}
    (hBefore : site.before = before ++ front) (hRest : rest = front ++ site.inst :: site.after) :
    site ∈ sitesFrom func site.block before rest h := by
  induction rest generalizing before front with
  | nil => simp at hRest
  | cons first rest ih =>
    rw [sitesFrom]
    cases front with
    | nil =>
      cases hRest
      have hSite : site = ⟨site.block, before, site.inst, site.after, h⟩ :=
        Site.ext rfl (by simpa using hBefore) rfl rfl
      exact mem_cons.mpr (.inl hSite)
    | cons head front =>
      cases hRest
      exact mem_cons_of_mem _ (ih _ (by simpa using hBefore) rfl)

theorem Site.block_lt : site.block < func.blocks.length :=
  MirFunction.lt_of_insts site.split

theorem mem_sites : site ∈ sites func :=
  mem_flatMap.mpr ⟨site.block, mem_range.mpr site.block_lt,
    mem_sitesFrom site rfl rfl site.split⟩

/-- The borrow an instruction makes. -/
def borrowOf? (inst : MirInst) : Option MirBorrow :=
  match inst.op with
  | .transfer .borrow source =>
    some { borrowId := inst.result, sourceId := source, kind := .shared,
           srcLine := inst.srcLine, srcCol := inst.srcCol }
  | .transfer .borrowMut source =>
    some { borrowId := inst.result, sourceId := source, kind := .mutable,
           srcLine := inst.srcLine, srcCol := inst.srcCol }
  | _ => none

/-- The borrows that fit the table, in the order of the instructions. -/
def trackedBorrows (func : MirFunction) : List MirBorrow :=
  ((func.blocks.flatMap (·.insts)).filterMap borrowOf?).take maxBorrows

theorem trackBorrow_of_none {inst : MirInst} (h : borrowOf? inst = none) :
    trackBorrow bc inst = bc := by
  unfold borrowOf? at h
  unfold trackBorrow
  split at h <;> simp_all

theorem trackBorrow_of_some {inst : MirInst} {borrow : MirBorrow}
    (h : borrowOf? inst = some borrow) :
    trackBorrow bc inst =
      if maxBorrows ≤ bc.borrows.length then bc
        else { bc with borrows := bc.borrows ++ [borrow] } := by
  unfold borrowOf? at h
  unfold trackBorrow
  split at h <;> simp_all

private theorem borrows_foldl_trackBorrow (insts : List MirInst) (bc : MirBorrowChecker)
    (h : bc.borrows.length ≤ maxBorrows) :
    (insts.foldl trackBorrow bc).borrows =
      (bc.borrows ++ insts.filterMap borrowOf?).take maxBorrows := by
  induction insts generalizing bc with
  | nil => simp [take_of_length_le h]
  | cons inst insts ih =>
    rw [foldl_cons]
    cases hBorrow : borrowOf? inst with
    | none =>
      rw [trackBorrow_of_none hBorrow, ih bc h, filterMap_cons_none hBorrow]
    | some borrow =>
      rw [trackBorrow_of_some hBorrow, filterMap_cons_some hBorrow]
      split
      · next hFull =>
          rw [ih bc h, take_append_of_le_length hFull, take_append_of_le_length hFull]
      · next hRoom =>
          have hLength : (bc.borrows ++ [borrow]).length ≤ maxBorrows := by
            rw [length_append]
            exact Nat.lt_of_not_le hRoom
          rw [ih _ hLength, append_assoc, singleton_append]

theorem borrows_tracked (bc : MirBorrowChecker) :
    (tracked func bc).borrows = trackedBorrows func := by
  rw [tracked, borrows_foldl_trackBorrow _ _ (Nat.zero_le _)]
  rfl

theorem errors_tracked (bc : MirBorrowChecker) : (tracked func bc).errors = bc.errors :=
  foldl_trackBorrow_errors _ _

/-- The errors the validation raises at a site, room in the array aside. -/
def RaisedAt (error : MirBorrowError) : Prop :=
  MoveError site.moved site.inst error ∨
    ConflictError (trackedBorrows func) (liveOut func site.block) site.inst site.after error

theorem emits_validateSite {bc : MirBorrowChecker} (h : bc.borrows = trackedBorrows func)
    (site : Site func) : Emits (RaisedAt site) bc (validateSite bc site) := by
  have hEmits : Emits _ bc (validateInst func (liveOut func site.block) site.moved site.inst
      site.after bc) := emits_validateInst bc
  rwa [h] at hEmits

/-- `mir_borrow_check_function` records the error when it validates the site. -/
def Reports (func : MirFunction) (bc : MirBorrowChecker) (site : Site func)
    (error : MirBorrowError) : Prop :=
  func.isExtern = false ∧ ∃ before after, sites func = before ++ site :: after ∧
    error ∈ newErrors (before.foldl validateSite (tracked func bc))
      (validateSite (before.foldl validateSite (tracked func bc)) site)

private theorem validateSite_grows (bc : MirBorrowChecker) (site : Site func) :
    bc.errors <+: (validateSite bc site).errors :=
  (emits_validateInst bc).errors_isPrefix

private theorem emits_foldl_validateSite (visited : List (Site func)) (bc : MirBorrowChecker) :
    Emits (fun e => ∃ site ∈ visited, RaisedAt site e) (tracked func bc)
      (visited.foldl validateSite (tracked func bc)) :=
  Emits.foldl (fun _ site hBorrows => emits_validateSite hBorrows site) visited _
    (borrows_tracked bc)

private theorem borrows_foldl_validateSite (visited : List (Site func)) (bc : MirBorrowChecker) :
    (visited.foldl validateSite (tracked func bc)).borrows = trackedBorrows func :=
  (emits_foldl_validateSite visited bc).borrows.trans (borrows_tracked bc)

theorem Reports.raisedAt {bc : MirBorrowChecker} {site : Site func} {error : MirBorrowError}
    (h : Reports func bc site error) : RaisedAt site error := by
  obtain ⟨_, before, _, _, hMem⟩ := h
  exact (emits_validateSite (borrows_foldl_validateSite before bc) site).of_mem hMem

/-- The reports at the sites are all the errors that the check of a function adds. -/
theorem mem_newErrors_iff_reports {bc : MirBorrowChecker} {error : MirBorrowError}
    (hBody : func.isExtern = false) :
    error ∈ newErrors (tracked func bc) (mirBorrowCheckFunction func bc).2 ↔
      ∃ site : Site func, Reports func bc site error := by
  have hSites : error ∈ newErrors (tracked func bc)
      ((sites func).foldl validateSite (tracked func bc)) ↔
        ∃ site, Reports func bc site error := by
    rw [mem_newErrors_foldl validateSite_grows]
    constructor
    · rintro ⟨before, site, after, hSplit, hMem⟩
      exact ⟨site, hBody, before, after, hSplit, hMem⟩
    · rintro ⟨site, -, before, after, hSplit, hMem⟩
      exact ⟨before, site, after, hSplit, hMem⟩
  by_cases hBlocks : func.blocks = []
  · have hNone : ¬∃ site : Site func, Reports func bc site error := by
      rintro ⟨site, -⟩
      have hLt := site.block_lt
      simp [hBlocks] at hLt
    rw [mirBorrowCheckFunction, if_pos (.inr hBlocks), newErrors, errors_tracked, drop_length]
    exact iff_of_false not_mem_nil hNone
  · rwa [mirBorrowCheckFunction_eq hBody hBlocks]

/-- A function whose errors all fit the array has every raised one reported. -/
theorem reports_of_raisedAt (bc : MirBorrowChecker) (hBody : func.isExtern = false)
    (hRoom : (mirBorrowCheckFunction func bc).2.errors.length < maxErrors) {site : Site func}
    {error : MirBorrowError} (h : RaisedAt site error) : Reports func bc site error := by
  have hBlocks : func.blocks ≠ [] := length_pos_iff.mp (Nat.zero_lt_of_lt site.block_lt)
  obtain ⟨before, after, hSplit⟩ := append_of_mem (mem_sites site)
  refine ⟨hBody, before, after, hSplit, ?_⟩
  rw [mirBorrowCheckFunction_eq hBody hBlocks, hSplit, foldl_append, foldl_cons] at hRoom
  have hRest := (isPrefix_foldl validateSite_grows after
    (validateSite (before.foldl validateSite (tracked func bc)) site)).length_le
  exact (emits_validateSite (borrows_foldl_validateSite before bc) site).mem_of_room
    (hRest.trans_lt hRoom) h

private theorem mirBorrowCheckFunction_fst (hBody : func.isExtern = false)
    (hBlocks : func.blocks ≠ []) :
    (mirBorrowCheckFunction func bc).1 =
      (newErrors (tracked func bc) (mirBorrowCheckFunction func bc).2).length := by
  rw [mirBorrowCheckFunction, if_neg (by simp [hBody, hBlocks]), newErrors, length_drop,
    errors_tracked]

theorem mirBorrowCheckFunction_eq_zero_iff {bc : MirBorrowChecker} (hBody : func.isExtern = false)
    (hRoom : bc.errors.length < maxErrors) :
    (mirBorrowCheckFunction func bc).1 = 0 ↔
      ∀ (site : Site func) error, ¬RaisedAt site error := by
  by_cases hBlocks : func.blocks = []
  · have hNone : ∀ site : Site func, False := fun site => by
      have hLt := site.block_lt
      simp [hBlocks] at hLt
    rw [mirBorrowCheckFunction, if_pos (.inr hBlocks)]
    exact ⟨fun _ site => (hNone site).elim, fun _ => rfl⟩
  · have hEmits := emits_foldl_validateSite (sites func) bc
    rw [← mirBorrowCheckFunction_eq hBody hBlocks] at hEmits
    rw [mirBorrowCheckFunction_fst hBody hBlocks, length_eq_zero_iff]
    constructor
    · intro hNil site error hRaised
      have hLength : (mirBorrowCheckFunction func bc).2.errors.length ≤ bc.errors.length := by
        rwa [newErrors, drop_eq_nil_iff, errors_tracked] at hNil
      have hMem := hEmits.mem_of_room (hLength.trans_lt hRoom)
        ⟨site, mem_sites site, hRaised⟩
      rw [hNil] at hMem
      cases hMem
    · intro hQuiet
      refine eq_nil_iff_forall_not_mem.mpr fun error hMem => ?_
      obtain ⟨site, _, hRaised⟩ := hEmits.of_mem hMem
      exact hQuiet site error hRaised

theorem mirBorrowCheckFunction_eq_zero_of_full {bc : MirBorrowChecker}
    (hFull : maxErrors ≤ bc.errors.length) : (mirBorrowCheckFunction func bc).1 = 0 := by
  by_cases hRuns : func.isExtern = true ∨ func.blocks = []
  · rw [mirBorrowCheckFunction, if_pos hRuns]
  · rw [not_or, Bool.not_eq_true] at hRuns
    obtain ⟨errors, hErrors, _⟩ := emits_foldl_validateSite (sites func) bc
    rw [← mirBorrowCheckFunction_eq hRuns.1 hRuns.2] at hErrors
    rw [mirBorrowCheckFunction_fst hRuns.1 hRuns.2, hErrors, newErrors, errors_foldl_emitError,
      drop_left, errors_tracked, Nat.sub_eq_zero_of_le hFull, take_zero, length_nil]

end

end Casprix.Borrow
