import Casprix.Opt.ConstantFold

/-! The runs that constant folding leaves as they were. -/
namespace Casprix.Opt

open List Mir Cvm Library

/-- Where the pass puts a `MIR_NOP`, no instruction has the result as an operand any more. -/
def LeavesNoReader (func func' : MirFunction) : Prop :=
  ∀ (b : MirBlockId) (k : Nat) (inst inst' : MirInst), (func.insts b)[k]? = some inst →
    (func'.insts b)[k]? = some inst' → inst.op ≠ .nop → inst'.op = .nop →
    ∀ user ∈ func'.blocks.flatMap (·.insts),
      inst.result ∉ (operandChecks user.op).map Prod.fst

/-- The opcodes that `replace_value_in_inst` leaves out have no result of an identity as an
operand. -/
def IdentitiesReached (func : MirFunction) : Prop :=
  ∀ inst ∈ func.blocks.flatMap (·.insts), replaceMisses inst.op = true →
    ∀ id ∈ (operandChecks inst.op).map Prod.fst, ¬Removable func id

section

variable {func cur : MirFunction} {rename : MirValueId → MirValueId} {gone : List MirValueId}

section

variable (h : Folded func cur rename gone) (hReached : IdentitiesReached func)
include h hReached

theorem Folded.not_read {v : MirValueId} (hv : v ∈ gone) {user : MirInst}
    (hUser : user ∈ cur.blocks.flatMap (·.insts)) :
    v ∉ (operandChecks user.op).map Prod.fst := by
  obtain ⟨i, hAt⟩ := mem_iff_getElem?.mp hUser
  obtain ⟨inst, hInst, hRel⟩ := forall₂_getElem? h.matched.flat hAt
  intro hMem
  cases hRel with
  | renamed =>
    have hOperand : v ∈ (operandChecks (substOp rename inst.op)).map Prod.fst := hMem
    cases hMissed : replaceMisses inst.op with
    | true =>
      rw [substOp_of_misses hMissed] at hOperand
      exact hReached inst (mem_of_getElem? hInst) hMissed v hOperand (h.removable v hv)
    | false =>
      rw [substOp_of_reached hMissed, checked_mapOperands] at hOperand
      obtain ⟨x, _, hx⟩ := mem_map.mp hOperand
      exact h.clear x (hx ▸ hv)
  | arithmetic | comparison | zero | removed => cases hMem

theorem Folded.leavesNoReader :
    LeavesNoReader func cur := by
  intro b k inst inst' hInst hInst' hBefore hAfter user hUser
  obtain ⟨old, hOld, hRel⟩ := h.matched.getElem? hInst'
  cases hInst.symm.trans hOld
  cases hRel with
  | renamed =>
    have hNop : substOp rename inst.op = .nop := hAfter
    cases hOp : inst.op with
    | nop => exact absurd hOp hBefore
    | _ =>
      rw [hOp] at hNop
      cases hNop
  | removed _ hGone => exact h.not_read hReached hGone hUser
  | arithmetic | comparison | zero => cases hAfter

end

end

/-- What an operation reads is what the pass takes it to be: known constants are there, values
that may be replaced by others hold the same, and where an operand is not replaced, or its
register is zeroed, it is no result of an identity. A PHI that has no edge for the block the
machine came from takes the first operand that is not `MIR_VALUE_NONE`, before and after. -/
structure ReadsAsKnown (func : MirFunction) (frame : CvmFrame) (op : MirOp) : Prop where
  agrees : ∀ id ∈ shownReads frame op, ∀ x, Agrees func id x → frame.reg x = frame.reg id
  known : ∀ binOp lhs rhs, op = .binary binOp lhs rhs →
    ∀ id ∈ [lhs, rhs], ∀ c, Known func id c →
    frame.reg id = c
  reached : replaceMisses op = true → ∀ id ∈ op.operands, ¬Removable func id
  move : ∀ source, op = .transfer .move source → ¬Removable func source
  phi : ∀ edges, op = .phi edges → edges.any (·.block == frame.prev) = true ∨
    ∀ v ∈ 0 :: edges.map (·.value), ∀ x, Agrees func v x → (x = 0 ↔ v = 0)

/-- The next instruction, if it is one of the function, reads what the pass takes it to. -/
def FoldsWell {Heap : Type} (func : MirFunction) : CvmConfig Heap → Prop
  | .running frame _ _ => frame.func = func →
      match frame.block, frame.rest with
      | some _, inst :: _ => ReadsAsKnown func frame inst.op
      | _, _ => True
  | _ => True

def foldRules (func : MirFunction) (rename : MirValueId → MirValueId) (gone : List MirValueId) :
    RewriteRules where
  visible id := id ∉ gone
  kept _ inst _ inst' := Changed func rename gone inst inst'
  dropped _ _ _ := False
  preceded _ _ _ _ _ := False

theorem rewritten_of_forall₂ {rules : RewriteRules} {b : MirBlockId}
    {R : MirInst → MirInst → Prop}
    {insts insts' : List MirInst} (h : List.Forall₂ R insts insts')
    (hKept : ∀ inst rest inst', R inst inst' → rules.kept b inst rest inst') :
    Rewritten rules b insts insts' := by
  induction h with
  | nil => exact .nil
  | @cons inst inst' rest rest' hHead _ ih => exact .kept (hKept inst rest inst' hHead) ih

theorem exec_constBool {Heap : Type} {host : CvmHost Heap} {loop : CvmLoop Heap} {frame : CvmFrame}
    {vm : CvmState Heap} {inst : MirInst} {imm : Bool}
    (hLoop : loop = gotoLoop host ∨ loop = switchLoop host) (hOp : inst.op = .constBool imm) :
    loop.exec frame inst vm = setNext frame inst.result (flag imm) vm := by
  rw [exec_of_execGoto hLoop (by rw [hOp]; rfl), execGoto, hOp]
  rfl

section

variable {Heap : Type} {host : CvmHost Heap} {loop : CvmLoop Heap} {func func' : MirFunction}
  {rename : MirValueId → MirValueId} {gone : List MirValueId} {frame : CvmFrame} {op : MirOp}

section

variable (h : Folded func func' rename gone) (hWell : ReadsAsKnown func frame op)
include h hWell

theorem Folded.namesAgree :
    NamesAgree rename frame op where
  reg_eq id hId := by
    unfold reachedName
    split
    · rfl
    · exact hWell.agrees id hId (rename id) (h.agrees id)
  phi edges hOp := by
    apply phiOperand_renamed
    exact (hWell.phi edges hOp).imp_right fun hNone v hv => hNone v hv (rename v) (h.agrees v)
  move source hOp := h.fixed source fun hGone => hWell.move source hOp (h.removable source hGone)

theorem Folded.visible
    {id : MirValueId} (hId : id ∈ shownReads frame op) : reachedName rename op id ∉ gone := by
  unfold reachedName
  split
  · next hMissed =>
      intro hGone
      have hOperand : id ∈ op.operands := by
        rcases shownReads_subset hId with hZero | hMem
        · cases op with
          | phi => cases hMissed
          | suspend => exact hId
          | _ => exact gotoReads_subset_operands _ hId
        · exact hMem
      exact hWell.reached hMissed id hOperand (h.removable id hGone)
  · exact h.clear id

end

def FoldGood (func : MirFunction) (c : CvmConfig Heap) : Prop := Settled func c ∧ FoldsWell func c

theorem Folded.rename_lt (h : Folded func func' rename gone) (hNumbered : WellNumbered func)
    {id : MirValueId} (hId : id < func.nextValueId) : rename id < func.nextValueId := by
  rcases h.operand id with hSame | ⟨inst, hInst, hOperand⟩
  · rwa [hSame]
  · exact (hNumbered inst hInst).1 (rename id) hOperand

theorem foldSound (hLoop : loop = gotoLoop host ∨ loop = switchLoop host)
    (hNumbered : WellNumbered func) (hFits : func.nextValueId ≤ cvmMaxRegs)
    (h : Folded func func' rename gone) :
    SoundFor loop func func' (foldRules func rename gone) (FoldGood func) where
  name_eq := h.matched.name_eq
  params_eq := h.matched.params_eq
  length_eq := h.matched.blocks.length_eq.symm
  entryOk_eq := by
    cases hLoop with
    | inl hGoto =>
      rw [hGoto]
      refine congrArg not ?_
      rw [Bool.eq_iff_iff, isEmpty_iff_length_eq_zero, isEmpty_iff_length_eq_zero,
        (h.matched.insts 0).length_eq]
    | inr hSwitch =>
      rw [hSwitch]
      rfl
  slots id _ := sameSlot_of_nextValueId h.matched.nextValueId_eq id
  insts b := rewritten_of_forall₂ (h.matched.insts b) fun _ _ _ hRel => hRel
  dropped _ _ _ _ hRule := hRule.elim
  preceded _ _ _ _ hRule := hRule.elim
  kept {frame frame' callers vm vm' b inst inst' rest rest'} hFunc hGood hBlock hRest hRule hFrame
      hVm := by
    have hNext := h.matched.nextValueId_eq
    have hOwn : (frame.fetch inst rest).func = func := hFunc
    have hMem := (hGood.1 hFunc).2.mem hBlock hRest
    rw [hFunc] at hMem
    obtain ⟨hOperands, hResult⟩ := hNumbered.mem hMem
    have hNextWell := hGood.2 hFunc
    rw [hBlock, hRest] at hNextWell
    have hHere : ReadsAsKnown func frame inst.op := hNextWell
    have hWell : ReadsAsKnown func (frame.fetch inst rest) inst.op :=
      ⟨hHere.agrees, hHere.known, hHere.reached, hHere.move, hHere.phi⟩
    have hInside : ∀ x, x < func.nextValueId → (frame.fetch inst rest).outside x = false :=
      fun x hx => outside_of_lt hFits hOwn hx
    cases hRule with
    | renamed =>
      refine doesSame_renamed hLoop h.matched.name_eq hNext hFits hOwn hFrame hVm
        (h.namesAgree hWell) fun id hId => ?_
      have hLt : id < func.nextValueId := by
        rcases shownReads_subset hId with hZero | hOperand
        · rw [hZero]
          exact Nat.zero_lt_of_lt hResult
        · exact hOperands id hOperand
      refine ⟨hLt, ?_, h.visible hWell hId⟩
      unfold reachedName
      split
      · exact hLt
      · exact h.rename_lt hNumbered hLt
    | @arithmetic op lhs rhs l r c hOp hLhs hRhs hFold =>
      rw [hOp] at hOperands
      have hL := hWell.known op lhs rhs hOp lhs mem_cons_self l hLhs
      have hR := hWell.known op lhs rhs hOp rhs (mem_cons_of_mem lhs mem_cons_self) r hRhs
      refine doesSame_folded hLoop hNext hFits hOwn hFrame hVm hOp (hOperands lhs mem_cons_self)
        (hOperands rhs (mem_cons_of_mem lhs mem_cons_self)) ?_ (by rfl)
      rw [hL, hR, cvmBinary_of_foldArithmetic host hFold]
      exact exec_constInt hLoop rfl
    | @comparison op lhs rhs l r hOp hLhs hRhs hComparison =>
      rw [hOp] at hOperands
      have hL := hWell.known op lhs rhs hOp lhs mem_cons_self l hLhs
      have hR := hWell.known op lhs rhs hOp rhs (mem_cons_of_mem lhs mem_cons_self) r hRhs
      refine doesSame_folded hLoop hNext hFits hOwn hFrame hVm hOp (hOperands lhs mem_cons_self)
        (hOperands rhs (mem_cons_of_mem lhs mem_cons_self)) ?_ (by rfl)
      rw [hL, hR, cvmBinary_of_isComparison host hComparison]
      exact exec_constBool hLoop rfl
    | @zero lhs rhs hOp hRhs =>
      rw [hOp] at hOperands
      have hR := hWell.known .mul lhs rhs hOp rhs (mem_cons_of_mem lhs mem_cons_self) 0 hRhs
      refine doesSame_folded hLoop hNext hFits hOwn hFrame hVm hOp (hOperands lhs mem_cons_self)
        (hOperands rhs (mem_cons_of_mem lhs mem_cons_self)) ?_ (by rfl)
      have hProduct : cvmBinary host .mul ((frame.fetch inst rest).reg lhs) 0 = 0 := BitVec.mul_zero
      rw [hR, hProduct]
      exact exec_constInt hLoop rfl
    | @removed lhs hIdentity hGone =>
      obtain ⟨_, op, rhs, c, hOp, _⟩ := hIdentity
      rw [hOp] at hOperands
      refine doesSame_removed hLoop hNext hOwn hFrame hVm ?_ (by rw [hOp]; rfl)
        fun id hVisible => .inr fun hSame => hVisible (hSame ▸ hGone)
      rw [exec_binary hLoop hOp (hInside lhs (hOperands lhs mem_cons_self))
        (hInside rhs (hOperands rhs (mem_cons_of_mem lhs mem_cons_self)))]
      exact onlyAssigns_setNext (hInside _ hResult) _

end

/-- A table of known constants and of values with what may replace them. -/
structure FactTable where
  consts : List (MirValueId × Word)
  aliases : List (MirValueId × MirValueId)

namespace FactTable

variable (table : FactTable)

/-- What an instruction adds to the facts is in the table. -/
def closedAt (inst : MirInst) : Bool :=
  match inst.op with
  | .constInt c => decide ((inst.result, c) ∈ table.consts)
  | .binary op lhs rhs =>
    (table.consts.all fun l => table.consts.all fun r =>
      !(l.1 == lhs && r.1 == rhs) ||
        match foldArithmetic op l.2 r.2 with
        | some (some c) => decide ((inst.result, c) ∈ table.consts)
        | _ => true) &&
      (table.consts.all fun r => !(r.1 == rhs && r.2 == 0 && op == .mul) ||
        decide ((inst.result, 0) ∈ table.consts)) &&
      table.consts.all fun r => !(r.1 == rhs && neutral op == some r.2) ||
        decide ((inst.result, lhs) ∈ table.aliases)
  | _ => true

/-- The table holds all facts about the function, and no value stands for itself in it. -/
def closed (func : MirFunction) : Bool :=
  (func.blocks.flatMap (·.insts)).all table.closedAt &&
    (table.aliases.all fun a => table.consts.all fun c =>
      c.1 != a.2 || decide ((a.1, c.2) ∈ table.consts)) &&
    (table.aliases.all fun a => table.aliases.all fun a' =>
      a'.1 != a.2 || decide ((a.1, a'.2) ∈ table.aliases)) &&
    table.aliases.all fun a => a.1 != a.2

/-- What an operation reads is as the table has it. Moves, and operands that are not replaced,
are left aside. -/
def reads (frame : CvmFrame) (op : MirOp) : Bool :=
  (shownReads frame op).all (fun id => table.aliases.all fun a =>
      a.1 != id || frame.reg a.2 == frame.reg id) &&
    match op with
    | .binary _ lhs rhs => [lhs, rhs].all fun id => table.consts.all fun c =>
      c.1 != id || frame.reg id == c.2
    | .transfer .move _ => false
    | .phi edges => edges.any (·.block == frame.prev)
    | op => !replaceMisses op

end FactTable

section

variable {func : MirFunction} {table : FactTable} {inst : MirInst} {v w lhs rhs : MirValueId}
  {op : BinaryOp} {l r c : Word}

theorem mem_of_findDef (h : findDef func v = some inst) :
    inst ∈ func.blocks.flatMap (·.insts) ∧ inst.result = v := by
  have hFound := find?_some h
  exact ⟨mem_of_find?_eq_some h, by simpa using hFound⟩

section

variable (h : table.closedAt inst = true)
include h

theorem FactTable.const_mem (hOp : inst.op = .constInt c) :
    (inst.result, c) ∈ table.consts := by
  rw [closedAt, hOp] at h
  simpa using h

theorem FactTable.folded_mem (hOp : inst.op = .binary op lhs rhs)
    (hLhs : (lhs, l) ∈ table.consts) (hRhs : (rhs, r) ∈ table.consts)
    (hFold : foldArithmetic op l r = some (some c)) : (inst.result, c) ∈ table.consts := by
  simp only [closedAt, hOp, Bool.and_eq_true, all_eq_true] at h
  simpa [hFold] using h.1.1 (lhs, l) hLhs (rhs, r) hRhs

theorem FactTable.zero_mem (hOp : inst.op = .binary .mul lhs rhs)
    (hRhs : (rhs, 0) ∈ table.consts) : (inst.result, 0) ∈ table.consts := by
  simp only [closedAt, hOp, Bool.and_eq_true, all_eq_true] at h
  simpa using h.1.2 (rhs, 0) hRhs

theorem FactTable.alias_mem (hOp : inst.op = .binary op lhs rhs)
    (hNeutral : neutral op = some r) (hRhs : (rhs, r) ∈ table.consts) :
    (inst.result, lhs) ∈ table.aliases := by
  simp only [closedAt, hOp, Bool.and_eq_true, all_eq_true] at h
  simpa [hNeutral] using h.2 (rhs, r) hRhs

end

theorem FactTable.closed_iff : table.closed func = true ↔
    (∀ inst ∈ func.blocks.flatMap (·.insts), table.closedAt inst = true) ∧
    (∀ v w c, (v, w) ∈ table.aliases → (w, c) ∈ table.consts →
      (v, c) ∈ table.consts) ∧
    (∀ u v w, (u, v) ∈ table.aliases → (v, w) ∈ table.aliases →
      (u, w) ∈ table.aliases) ∧
    ∀ v, (v, v) ∉ table.aliases := by
  simp only [closed, Bool.and_eq_true, all_eq_true, Prod.forall, Bool.or_eq_true, bne_iff_ne,
    decide_eq_true_eq, and_assoc]
  refine and_congr_right fun _ => and_congr ?_ (and_congr ?_ ?_)
  · exact ⟨fun h v w c hAlias hConst =>
      (h v w hAlias w c hConst).resolve_left (not_not_intro rfl),
      fun h v w hAlias w' c hConst => or_iff_not_imp_left.mpr fun hSame =>
        h v w c hAlias (not_not.mp hSame ▸ hConst)⟩
  · exact ⟨fun h u v w hFirst hSecond =>
      (h u v hFirst v w hSecond).resolve_left (not_not_intro rfl),
      fun h u v hFirst v' w hSecond => or_iff_not_imp_left.mpr fun hSame =>
        h u v w hFirst (not_not.mp hSame ▸ hSecond)⟩
  · exact ⟨fun h v hAlias =>
      h v v hAlias rfl, fun h v w hAlias hSame => h w (hSame ▸ hAlias)⟩

mutual

/-- A closed table has all the constants that may be known. -/
theorem Known.mem_table (hClosed : table.closed func = true) :
    ∀ {v : MirValueId} {c : Word}, Known func v c → (v, c) ∈ table.consts
  | _, _, .const hDef hOp => by
      obtain ⟨hMem, rfl⟩ := mem_of_findDef hDef
      exact FactTable.const_mem ((FactTable.closed_iff.mp hClosed).1 _ hMem) hOp
  | _, _, .folded hDef hOp hLhs hRhs hFold => by
      have hL := hLhs.mem_table hClosed
      have hR := hRhs.mem_table hClosed
      obtain ⟨hMem, rfl⟩ := mem_of_findDef hDef
      exact FactTable.folded_mem ((FactTable.closed_iff.mp hClosed).1 _ hMem) hOp hL hR hFold
  | _, _, .zero hDef hOp hRhs => by
      have hZero := hRhs.mem_table hClosed
      obtain ⟨hMem, rfl⟩ := mem_of_findDef hDef
      exact FactTable.zero_mem ((FactTable.closed_iff.mp hClosed).1 _ hMem) hOp hZero
  | _, _, .same hSame hKnown => by
      have hConst := hKnown.mem_table hClosed
      have hEither := hSame.mem_table hClosed
      rcases hEither with rfl | hAlias
      · exact hConst
      · exact (FactTable.closed_iff.mp hClosed).2.1 _ _ _ hAlias hConst

/-- It has all the values that may be replaced. -/
theorem Agrees.mem_table (hClosed : table.closed func = true) :
    ∀ {v w : MirValueId}, Agrees func v w → v = w ∨ (v, w) ∈ table.aliases
  | _, _, .refl _ => .inl rfl
  | _, _, .trans hFirst hSecond => by
      have hBefore := hFirst.mem_table hClosed
      have hAfter := hSecond.mem_table hClosed
      rcases hBefore with rfl | hAlias
      · exact hAfter
      · rcases hAfter with rfl | hNext
        · exact .inr hAlias
        · exact .inr ((FactTable.closed_iff.mp hClosed).2.2.1 _ _ _ hAlias hNext)
  | _, _, .identity hInst hOp hNeutral hRhs =>
    .inr (FactTable.alias_mem ((FactTable.closed_iff.mp hClosed).1 _ hInst) hOp hNeutral
      (hRhs.mem_table hClosed))

end

section

variable (hClosed : table.closed func = true)
include hClosed

theorem IsIdentity.mem_table (h : IsIdentity func inst lhs) :
    (inst.result, lhs) ∈ table.aliases := by
  obtain ⟨hInst, op, rhs, k, hOp, hNeutral, hRhs⟩ := h
  exact FactTable.alias_mem ((FactTable.closed_iff.mp hClosed).1 inst hInst) hOp hNeutral
    (hRhs.mem_table hClosed)

theorem identitiesAcyclic_of_closed : IdentitiesAcyclic func := by
  intro inst lhs hIdentity hAgrees
  obtain ⟨_, _, hTrans, hIrrefl⟩ := FactTable.closed_iff.mp hClosed
  have hAlias := hIdentity.mem_table hClosed
  rcases hAgrees.mem_table hClosed with hSame | hBack
  · rw [hSame] at hAlias
    exact hIrrefl _ hAlias
  · exact hIrrefl _ (hTrans _ _ _ hAlias hBack)

theorem readsAsKnown_of_reads {frame : CvmFrame} {op : MirOp}
    (h : table.reads frame op = true) : ReadsAsKnown func frame op := by
  unfold FactTable.reads at h
  rw [Bool.and_eq_true] at h
  obtain ⟨hAliases, hOp⟩ := h
  refine ⟨fun id hId x hAgrees => ?_, fun binOp lhs rhs hCase id hId c hKnown => ?_,
    fun hMissed => ?_, fun source hCase => ?_, fun edges hCase => ?_⟩
  · rcases hAgrees.mem_table hClosed with hSame | hAlias
    · rw [hSame]
    · have hAll := all_eq_true.mp (all_eq_true.mp hAliases id hId) (id, x) hAlias
      simpa using hAll
  · rw [hCase] at hOp
    have hAll := all_eq_true.mp (all_eq_true.mp hOp id hId) (id, c) (hKnown.mem_table hClosed)
    simpa using hAll
  · cases op with
    | switch | callVirtual | structInit | extract | insert | suspend => cases hOp
    | _ => cases hMissed
  · rw [hCase] at hOp
    cases hOp
  · rw [hCase] at hOp
    exact .inl hOp

theorem not_divisionOverflows_of_closed
    (hConsts : ∀ c ∈ table.consts, c.2 ≠ intMin) : ¬DivisionOverflows func := by
  rintro ⟨inst, _, op, lhs, rhs, _, _, hLhs, _⟩
  exact hConsts (lhs, intMin) (hLhs.mem_table hClosed) rfl

end

end

/-- When no known division overflows and no identity is about itself, the pass has a result. Its
constants are what the machine computes, no instruction is left that reads a removed value if
none of the opcodes that are left out did, and every run in which the instructions read what the
pass takes them to shows the same as before. -/
theorem constant_fold_preserves {Heap : Type} (host : CvmHost Heap) (loop : CvmLoop Heap)
    (hLoop : loop = gotoLoop host ∨ loop = switchLoop host) (func : MirFunction)
    (hNumbered : WellNumbered func) (hFits : func.nextValueId ≤ cvmMaxRegs)
    (hAcyclic : IdentitiesAcyclic func) (hDivides : ¬DivisionOverflows func) :
    (∀ op l r c, foldArithmetic op l r = some (some c) → cvmBinary host op l r = c) ∧
      (∀ op l r, isComparison op = true →
        cvmBinary host op l r = flag (foldComparison op l r)) ∧
      ∃ func' changes, mirPassConstantFold func = some (func', changes) ∧
        (IdentitiesReached func → LeavesNoReader func func') ∧
        ∀ (vm : CvmState Heap) (args : List CvmReg), vm.trapCode = 0 →
          (∀ n, FoldsWell func
            (runFor (step host loop) n (cvmExecFunction host loop [] vm func args))) →
          SameBehaviour host loop vm (vm.replaceFunction func func') func func' args := by
  refine ⟨fun op l r c => cvmBinary_of_foldArithmetic host,
    fun op l r => cvmBinary_of_isComparison host, ?_⟩
  cases hPass : mirPassConstantFold func with
  | none => exact absurd (divisionOverflows_of_foldWalk (folded_refl func) hAcyclic hPass) hDivides
  | some result =>
    obtain ⟨rename, gone, hFolded⟩ := folded_pass hAcyclic hPass
    refine ⟨result.1, result.2, rfl, hFolded.leavesNoReader, fun vm args hTrap hWell => ?_⟩
    apply (foldSound hLoop hNumbered hFits hFolded).sameBehaviour hLoop
    have hInside := hNumbered.branchesInside hFits
    exact fun n => ⟨settled_run hLoop hInside hTrap func args n, hWell n⟩

/-- The argument plus nothing, and 25 more. -/
def plusSquare : MirFunction where
  name := "plus_square"
  returnType := some .i64
  params := [{ name := "x", type := some .i64, valueId := 1 }]
  blocks := [{ insts := [{ op := .constInt 0, result := 2, type := some .i64 },
    { op := .constInt 5, result := 3, type := some .i64 },
    { op := .binary .add 1 2, result := 4, type := some .i64 },
    { op := .binary .mul 3 3, result := 5, type := some .i64 },
    { op := .binary .add 4 5, result := 6, type := some .i64 }, { op := .ret 6 }] }]
  nextValueId := 7
  valueTypes := [none, some .i64, some .i64, some .i64, some .i64, some .i64, some .i64]

def plusSquareFacts : FactTable where
  consts := [(2, 0), (3, 5), (5, 25)]
  aliases := [(4, 1)]

theorem plusSquareFacts_closed : plusSquareFacts.closed plusSquare = true := by decide

/-- The next instruction reads what the table has. -/
def readsTable (table : FactTable) : CvmConfig (List Word) → Bool
  | .running frame _ _ =>
    match frame.block, frame.rest with
    | some _, inst :: _ => table.reads frame inst.op
    | _, _ => true
  | _ => true

theorem foldsWell_of_readsTable {func : MirFunction} {table : FactTable}
    (hClosed : table.closed func = true) {c : CvmConfig (List Word)}
    (h : readsTable table c = true) :
    FoldsWell func c := by
  cases c with
  | returned | crashed => trivial
  | running frame callers vm =>
    intro _
    cases hBlock : frame.block with
    | none => trivial
    | some b =>
      cases hRest : frame.rest with
      | nil => trivial
      | cons inst rest =>
        simp only [readsTable, hBlock, hRest] at h
        exact readsAsKnown_of_reads hClosed h

theorem constant_fold_preserves_plusSquare :
    ∃ func' changes, mirPassConstantFold plusSquare = some (func', changes) ∧
      SameBehaviour wordHost (gotoLoop wordHost) (wordVm { funcList := [plusSquare] })
        ((wordVm { funcList := [plusSquare] }).replaceFunction plusSquare func')
          plusSquare func' [3] := by
  obtain ⟨func', changes, hPass, _, hRuns⟩ :=
    (constant_fold_preserves wordHost (gotoLoop wordHost)
    (.inl rfl) plusSquare (by decide) (by decide)
      (identitiesAcyclic_of_closed plusSquareFacts_closed)
    (not_divisionOverflows_of_closed plusSquareFacts_closed (by decide))).2.2
  have hReads : ∀ n, readsTable plusSquareFacts (runFor (step wordHost (gotoLoop wordHost)) n
      (cvmExecFunction wordHost (gotoLoop wordHost) [] (wordVm
        { funcList := [plusSquare] }) plusSquare
        [3])) = true :=
    forall_runFor_of_halted (P := fun c => readsTable plusSquareFacts c = true) (n := 6) (by decide)
      (by decide)
  exact ⟨func', changes, hPass, hRuns (wordVm { funcList := [plusSquare] }) [3] rfl fun n =>
    foldsWell_of_readsTable plusSquareFacts_closed (hReads n)⟩

/-- The quotient of the least integer by -1. -/
def leastQuotient : MirFunction where
  name := "least_quotient"
  returnType := some .i64
  blocks := [{ insts := [{ op := .constInt intMin, result := 1, type := some .i64 },
    { op := .constInt (-1), result := 2, type := some .i64 },
    { op := .binary .div 1 2, result := 3, type := some .i64 }, { op := .ret 3 }] }]
  nextValueId := 4
  valueTypes := [none, some .i64, some .i64, some .i64]

/-- A switch on its argument plus nothing. -/
def switchOnSum : MirFunction where
  name := "switch_on_sum"
  returnType := some .i64
  params := [{ name := "x", type := some .i64, valueId := 1 }]
  blocks := [{ insts := [{ op := .constInt 0, result := 2, type := some .i64 },
      { op := .binary .add 1 2, result := 3, type := some .i64 },
      { op := .switch 3 [{ value := 5, target := some 1 }] (some 2) }]
               successors := [1, 2] },
    { insts := [{ op := .ret 1 }], predecessors := [0] },
    { insts := [{ op := .ret 2 }], predecessors := [0] }]
  nextValueId := 4
  valueTypes := [none, some .i64, some .i64, some .i64]

/-- A constant that is assigned on one of two ways to the sum. -/
def halfAssigned : MirFunction where
  name := "half_assigned"
  returnType := some .i64
  params := [{ name := "x", type := some .i64, valueId := 1 }]
  blocks := [{ insts := [{ op := .condbr 1 (some 1) (some 2) }], successors := [1, 2] },
    { insts := [{ op := .constInt 5, result := 2, type := some .i64 }, { op := .br (some 2) }]
      predecessors := [0], successors := [2] },
    { insts := [{ op := .binary .add 2 2, result := 3, type := some .i64 }, { op := .ret 3 }]
      predecessors := [0, 1] }]
  nextValueId := 4
  valueTypes := [none, some .i64, some .i64, some .i64]

/-- The results of a call before the pass and after it. -/
def foldedResults (func : MirFunction) (args : List CvmReg) (n : Nat) :
    Option (CvmReg × Nat) × Option (Option (CvmReg × Nat)) :=
  ((runFor (step wordHost (gotoLoop wordHost)) n
    (cvmExecFunction wordHost (gotoLoop wordHost) [] (wordVm {}) func args)).result,
  (mirPassConstantFold func).map fun folded => (runFor (step wordHost (gotoLoop wordHost)) n
    (cvmExecFunction wordHost (gotoLoop wordHost) [] (wordVm {}) folded.1 args)).result)

/-- On verified functions the pass has no result where the machine returns the least integer,
a switch goes by the value that was removed, and a sum is folded that reads no constant. -/
theorem constant_fold_differs :
    (mirVerifyFunction leastQuotient = [] ∧
      foldedResults leastQuotient [] 4 = (some (intMin, 0), none)) ∧
    (mirVerifyFunction switchOnSum = [] ∧
      foldedResults switchOnSum [5] 4 = (some (5, 0), some (some (0, 0)))) ∧
    mirVerifyFunction halfAssigned = [] ∧
      foldedResults halfAssigned [0] 3 = (some (0, 0), some (some (10, 0))) := by
  decide

end Casprix.Opt
