import Casprix.Opt.CopyDeadCode

/-! The runs that copy propagation and dead-code elimination leave as they were. -/
namespace Casprix.Opt

open List Mir Cvm Library Bool

/-- The next instruction, if it has no side effects and nothing needs its result, does no harm. -/
def UnneededHarmless {Heap : Type} (host : CvmHost Heap) (func : MirFunction) :
    CvmConfig Heap → Prop
  | .running frame _ vm => frame.func = func →
      match frame.block, frame.rest with
      | some _, inst :: _ => hasSideEffects inst.op = false → inst.result ≠ 0 →
          ¬Needed func inst.result → Harmless host frame vm inst.op
      | _, _ => True
  | _ => True

/-- What is known of a configuration of a run. -/
structure CopyGood {Heap : Type} (host : CvmHost Heap) (func : MirFunction) (c : CvmConfig Heap) :
    Prop where
  settled : Settled func c
  agrees : ∀ frame callers vm, c = .running frame callers vm → AgreesIn func frame
  harmless : UnneededHarmless host func c

/-- Instructions are renamed or dropped. The results of the dropped ones differ. -/
def copyRules (func cur : MirFunction) (rename : MirValueId → MirValueId)
    (gone : List MirValueId) :
    RewriteRules where
  visible id := id ∉ gone ∧ (deadRules cur).visible id
  kept b inst rest inst' := inst' = substInst rename inst ∧ ¬Dead cur b (placeOf func b rest)
  dropped b _ rest := Dead cur b (placeOf func b rest)
  preceded _ _ _ _ _ := False

section

variable {func cur : MirFunction} {rename : MirValueId → MirValueId} {gone : List MirValueId}
  {inst : MirInst} {id v x : MirValueId} {b : MirBlockId} {k : Nat} {frame : CvmFrame}

/-- A value that the function has handed out is a copy of such values only. -/
theorem CopyOf.lt (hNumbered : WellNumbered func) (h : CopyOf func v x)
    (hv : v < func.nextValueId) :
    x < func.nextValueId := by
  induction h with
  | refl => exact hv
  | @copy inst source x hInst hOp _ _ ih =>
    refine ih ((hNumbered inst hInst).1 source ?_)
    rw [hOp]
    exact mem_singleton_self source
  | @phi inst edges x hInst hOp hSome _ ih =>
    obtain ⟨edge, hEdge⟩ := exists_mem_of_ne_nil edges hSome
    refine ih edge hEdge ((hNumbered inst hInst).1 edge.value ?_)
    rw [hOp]
    exact mem_map_of_mem hEdge

theorem Propagated.reachedName_zero (hSsa : SsaForm func)
    (h : Propagated func cur rename gone) (op : MirOp) :
    reachedName rename op 0 = 0 := by
  unfold reachedName
  split
  · rfl
  · exact h.rename_zero hSsa

/-- Where copies agree, an instruction reads the same under the new names. -/
theorem CopiesAgree.namesAgree (hForm : CopyForm func) (hSafe : CopySafe func)
    (hProp : Propagated func cur rename gone) (h : CopiesAgree func frame b k)
    (hInst : (func.insts b)[k]? = some inst) : NamesAgree rename frame inst.op where
  reg_eq id hId := by
    cases hPhi : inst.op.isPhi with
    | true =>
      cases hOp : inst.op with
      | phi edges =>
        obtain ⟨a, hPrev, _, edge, hEdge, hBlock, hOperand⟩ := h.phiOperand hForm hInst hOp
        rw [hOp, shownReads, mem_singleton, hOperand] at hId
        rw [hId]
        show frame.reg (rename edge.value) = frame.reg edge.value
        by_cases hSame : edge.value = rename edge.value
        · rw [← hSame]
        · refine (h.incoming a hPrev (phis_before hForm hInst hPhi) _ _
            (hProp.copies edge.value) hSame
            (hForm.dominated.phis b k inst edges hInst hOp edge hEdge a hBlock) fun j hBefore =>
              ?_).symm
          exact hSafe.phis b j k inst edges hInst hOp edge hEdge _ (hProp.copies edge.value) hSame
            hBefore
      | _ => simp only [hOp, MirOp.isPhi, false_eq_true] at hPhi
    | false =>
      rcases shownReads_subset hId with rfl | hOperand
      · rw [hProp.reachedName_zero hForm.ssa]
      · unfold reachedName
        split
        · rfl
        · by_cases hSame : id = rename id
          · rw [← hSame]
          · refine (h.values id (rename id) (hProp.copies id) hSame ?_).symm
            exact hForm.dominated.uses b k inst hInst hPhi id
              (operands_subset_checked inst.op hOperand)
  phi edges hOp := by
    obtain ⟨a, hPrev, _, edge, hEdge, hBlock, _⟩ := h.phiOperand hForm hInst hOp
    refine phiOperand_renamed (.inl (any_eq_true.mpr ⟨edge, hEdge, ?_⟩))
    rw [hPrev, hBlock]
    exact beq_self_eq_true (some a)
  move source hOp := by
    by_contra hOther
    exact (hSafe.moves inst (MirFunction.mem_flatMap_of_getElem? hInst) source hOp source
      (rename source) (hProp.copies source) fun hSame => hOther hSame.symm).1 rfl

section

variable (hSsa : SsaForm func) (hSafe : CopySafe func) (h : Propagated func cur rename gone)
  (hInst : (func.insts b)[k]? = some inst)
include hSsa hSafe h hInst

/-- What an instruction reads that stays is visible under its new name. -/
theorem Propagated.visible_of_read (hInst' : (cur.insts b)[k]? = some (substInst rename inst))
    (hLive : ¬Dead cur b k) (hId : id = 0 ∨ id ∈ inst.op.operands) :
    (copyRules func cur rename gone).visible (reachedName rename inst.op id) := by
  by_cases hZero : reachedName rename inst.op id = 0
  · rw [hZero]
    exact ⟨h.rename_zero hSsa ▸ h.clear 0, .inl rfl⟩
  · have hOperand : id ∈ inst.op.operands := by
      refine hId.resolve_left fun hNone => hZero ?_
      rw [hNone, h.reachedName_zero hSsa]
    have hRead := operands_subset_checked inst.op hOperand
    refine ⟨h.not_gone_of_read hSafe (MirFunction.mem_flatMap_of_getElem? hInst) hRead,
      .inr fun a j dead hDead hAt _ hSame => ?_⟩
    have hDefined : DefinedAt func a j (reachedName rename inst.op id) :=
      h.definedAt_iff.mp ⟨dead, hAt, hSame.symm⟩
    exact h.live_of_read hSsa hSafe hInst hInst' hLive hRead hZero hDefined hDead

/-- A dead instruction of the function has no side effects, and if it is neither a copy nor a
PHI, nothing needs its result. -/
theorem Propagated.unneeded_of_dead
    (hDead : Dead cur b k) : inst.op = .nop ∨ inst.result ≠ 0 ∧
      hasSideEffects inst.op = false ∧
      (inst.op.isPhi = false → (∀ source, inst.op ≠ .transfer .copy source) →
        ¬Needed func inst.result) := by
  obtain ⟨inst', hInst', hRel⟩ := h.matched.getElem?_left hInst
  have hMem := MirFunction.mem_flatMap_of_getElem? hInst
  cases hRel with
  | collapsed hPhi =>
    refine .inr ⟨hSsa.phiResult inst hMem hPhi, ?_, fun hNone => ?_⟩
    · cases hOp : inst.op with
      | phi => rfl
      | _ => simp only [hOp, MirOp.isPhi, false_eq_true] at hPhi
    · exact absurd (hNone.symm.trans hPhi) false_ne_true
  | renamed =>
    by_cases hNop : inst.op = .nop
    · exact .inl hNop
    · have hNew : (substInst rename inst).op ≠ .nop := fun hOp => hNop (op_eq_nop_of_substOp hOp)
      rcases (dead_iff hInst').mp hDead with hOp | ⟨hResult, hNone, _⟩
      · exact absurd hOp hNew
      · refine .inr ⟨hResult, (hasSideEffects_mapOperands inst.op).symm.trans hNone,
          fun hNotPhi hNoCopy hNeeded => ?_⟩
        have hKept : inst.result ∉ gone := by
          intro hGone
          obtain ⟨phi, hPhiMem, hPhi, hSame, _⟩ := h.collapsible inst.result hGone
          rw [hSsa.inst_eq hInst hResult hPhiMem hSame] at hPhi
          exact absurd (hNotPhi.symm.trans hPhi) false_ne_true
        have hStill := h.needed hSsa hSafe.missed hNeeded
        rw [h.rename_eq_self hSsa hMem hNoCopy hKept] at hStill
        exact not_dead_of_needed hStill hInst' rfl hNew hDead

end

end

variable {frame : CvmFrame}

section

variable {Heap : Type} {host : CvmHost Heap} {loop : CvmLoop Heap} {func cur : MirFunction}
  {rename : MirValueId → MirValueId} {gone : List MirValueId} {b : MirBlockId}

theorem rewritten_propagated {pre pre' insts insts' : List MirInst}
    (h : func.insts b = pre ++ insts)
    (h' : cur.insts b = pre' ++ insts') (hLength : pre'.length = pre.length)
    (hRel : List.Forall₂ (Forwarded rename gone) insts insts') :
    Rewritten (copyRules func cur rename gone) b insts
      (remaining (Dead cur b) pre.length insts') := by
  induction hRel generalizing pre pre' with
  | nil => exact .nil
  | @cons inst inst' rest rest' hHead _ ih =>
    have hNext : func.insts b = (pre ++ [inst]) ++ rest := by
      rw [h, append_assoc]
      rfl
    have hNext' : cur.insts b = (pre' ++ [inst']) ++ rest' := by
      rw [h', append_assoc]
      rfl
    have hTail := ih hNext hNext' (by rw [length_append, length_append, hLength]; rfl)
    rw [length_append, length_singleton] at hTail
    have hPlace : placeOf func b rest = pre.length := placeOf_eq h
    rw [remaining]
    split
    · next hDead =>
        refine .dropped ?_ hTail
        show Dead cur b (placeOf func b rest)
        rwa [hPlace]
    · next hLive =>
        refine .kept ⟨?_, hPlace.symm ▸ hLive⟩ hTail
        have hAt : (cur.insts b)[pre.length]? = some inst' := by
          rw [h', ← hLength, getElem?_append_right (le_rfl), Nat.sub_self]
          rfl
        cases hHead with
        | renamed => rfl
        | collapsed => exact absurd (.nop hAt rfl) hLive

theorem isEmpty_entry (hForm : CopyForm func) (h : Propagated func cur rename gone) :
    ((mirPassDeadCodeEliminate cur).1.insts 0).isEmpty = (func.insts 0).isEmpty := by
  have hLeft : ((mirPassDeadCodeEliminate cur).1.insts 0) = [] ↔ cur.insts 0 = [] := by
    rw [← getLast?_eq_none_iff, getLast?_mirPassDeadCodeEliminate (h.endsBlocks hForm),
      getLast?_eq_none_iff]
  have hOld : cur.insts 0 = [] ↔ func.insts 0 = [] := by
    rw [← length_eq_zero_iff, ← (h.matched.insts 0).length_eq, length_eq_zero_iff]
  rw [Bool.eq_iff_iff, List.isEmpty_iff, List.isEmpty_iff]
  exact hLeft.trans hOld

/-- The place of the instruction that a frame of the function stands before. -/
theorem AgreesIn.place {inst : MirInst} {rest : List MirInst} (h : AgreesIn func frame)
    (hFunc : frame.func = func) (hBlock : frame.block = some b)
    (hRest : frame.rest = inst :: rest) :
    (func.insts b)[placeOf func b rest]? = some inst ∧
      CopiesAgree func (frame.fetch inst rest) b (placeOf func b rest) := by
  obtain ⟨k, hk, hLeft, hAgree⟩ := h hFunc b hBlock
  obtain ⟨hInst, hNext⟩ := getElem?_of_drop (hLeft.symm.trans hRest)
  have hSplit : func.insts b = (func.insts b).take k ++ inst :: rest := by
    rw [← hRest, hLeft, take_append_drop]
  have hPlace : placeOf func b rest = k := by
    rw [placeOf_eq hSplit, length_take_of_le hk.le]
  rw [hPlace]
  exact ⟨hInst, hAgree.1, hAgree.2, hAgree.3⟩

theorem harmless_of_isPhi {vm : CvmState Heap} {op : MirOp} (h : op.isPhi = true) :
    Harmless host frame vm op := by
  cases op with
  | phi => trivial
  | _ => cases h

theorem Propagated.dropped (hLoop : loop = gotoLoop host ∨ loop = switchLoop host)
    (hNumbered : WellNumbered func) (hFits : func.nextValueId ≤ cvmMaxRegs) (hSsa : SsaForm func)
    (hSafe : CopySafe func) (h : Propagated func cur rename gone) {vm : CvmState Heap}
    {inst : MirInst} {k : Nat} (hInst : (func.insts b)[k]? = some inst) (hDead : Dead cur b k)
    (hFunc : frame.func = func) (hTrap : vm.trapCode = 0)
    (hHarmless : hasSideEffects inst.op = false → inst.result ≠ 0 →
      ¬Needed func inst.result → Harmless host frame vm inst.op) :
    ∃ regs, OnlyHides loop (copyRules func cur rename gone).visible frame inst vm regs := by
  have hMem := MirFunction.mem_flatMap_of_getElem? hInst
  obtain ⟨inst', hInst', hRel⟩ := h.matched.getElem?_left hInst
  by_cases hNop : inst.op = .nop
  · exact ⟨frame.regs, hTrap, by rw [hNop]; rfl, exec_nop hLoop hNop, fun _ _ => rfl⟩
  · obtain ⟨hResult, hNone, hUnneeded⟩ :=
      (h.unneeded_of_dead hSsa hSafe hInst hDead).resolve_left hNop
    obtain ⟨hOperands, hOwn⟩ := hNumbered inst hMem
    have hInside : ∀ id, id < func.nextValueId → frame.outside id = false := fun id hId =>
      outside_of_lt hFits hFunc hId
    have hDoesNoHarm : Harmless host frame vm inst.op := by
      cases hPhi : inst.op.isPhi with
      | true => exact harmless_of_isPhi hPhi
      | false =>
        by_cases hCopy : ∃ source, inst.op = .transfer .copy source
        · obtain ⟨source, hOp⟩ := hCopy
          rw [hOp]
          trivial
        · exact hHarmless hNone hResult (hUnneeded hPhi fun source hOp => hCopy ⟨source, hOp⟩)
    have hShown : frame.suspensions inst.op = [] := by
      cases hOp : inst.op with
      | suspend resumeBb future =>
        rcases hSafe.suspends inst hMem resumeBb future hOp with hZero | hNeeded
        · exact absurd hZero hResult
        · refine absurd hNeeded (hUnneeded ?_ fun source hCopy => ?_)
          · rw [hOp]
            rfl
          · rw [hOp] at hCopy
            cases hCopy
      | _ => rfl
    obtain ⟨regs, hExec, hRegs⟩ := exec_onlyAssigns hLoop hNone hDoesNoHarm
      (fun id hId => hInside id (hOperands id hId)) (hInside inst.result hOwn)
    refine ⟨regs, hTrap, hShown, hExec, fun id hVisible => hRegs id ?_⟩
    cases hRel with
    | collapsed _ hGone => exact .inr fun hSame => hVisible.1 (hSame ▸ hGone)
    | renamed =>
      have hStill : (substInst rename inst).op ≠ .nop := fun hNew =>
        hNop (op_eq_nop_of_substOp hNew)
      exact hVisible.2.imp_right fun hOther =>
        hOther b k (substInst rename inst) hDead hInst' hStill

theorem copySound (hLoop : loop = gotoLoop host ∨ loop = switchLoop host) (hForm : CopyForm func)
    (hNumbered : WellNumbered func)
    (hFits : func.nextValueId ≤ cvmMaxRegs) (hSafe : CopySafe func)
    (h : Propagated func cur rename gone) :
    SoundFor loop func (mirPassDeadCodeEliminate cur).1 (copyRules func cur rename gone)
      (CopyGood host func) where
  name_eq := h.matched.name_eq
  params_eq := h.matched.params_eq
  length_eq := (length_blocks_mirPassDeadCodeEliminate cur).trans h.matched.blocks.length_eq.symm
  entryOk_eq := by
    cases hLoop with
    | inl hGoto =>
      rw [hGoto]
      exact congrArg not (isEmpty_entry hForm h)
    | inr hSwitch =>
      rw [hSwitch]
      rfl
  slots id _ := sameSlot_of_nextValueId h.matched.nextValueId_eq id
  insts b := by
    have hWhole : func.insts b = [] ++ func.insts b := rfl
    have hWhole' : cur.insts b = [] ++ cur.insts b := rfl
    rw [insts_mirPassDeadCodeEliminate]
    exact rewritten_propagated hWhole hWhole' rfl (h.matched.insts b)
  preceded _ _ _ _ hRule := hRule.elim
  kept {frame frame' callers vm vm' b inst inst' rest rest'} hFunc hGood hBlock hRest hRule hFrame
      hVm := by
    obtain ⟨rfl, hLive⟩ := hRule
    obtain ⟨hInst, hAgree⟩ := (hGood.agrees frame callers vm rfl).place hFunc hBlock hRest
    have hMem := MirFunction.mem_flatMap_of_getElem? hInst
    obtain ⟨hOperands, hResult⟩ := hNumbered inst hMem
    have hInst' : (cur.insts b)[placeOf func b rest]? = some (substInst rename inst) := by
      obtain ⟨inst', hAt, hRel⟩ := h.matched.getElem?_left hInst
      cases hRel with
      | renamed => exact hAt
      | collapsed => exact absurd (.nop hAt rfl) hLive
    have hOwn : (frame.fetch inst rest).func = func := hFunc
    refine doesSame_renamed hLoop h.matched.name_eq h.matched.nextValueId_eq hFits hOwn hFrame hVm
      (hAgree.namesAgree hForm hSafe h hInst) fun id hId => ?_
    have hRead := shownReads_subset hId
    have hOld : id < func.nextValueId := by
      rcases hRead with hZero | hOperand
      · rw [hZero]
        exact Nat.zero_lt_of_lt hResult
      · exact hOperands id hOperand
    refine ⟨hOld, ?_, h.visible_of_read hForm.ssa hSafe hInst hInst' hLive hRead⟩
    unfold reachedName
    split
    · exact hOld
    · exact (h.copies id).lt hNumbered hOld
  dropped {frame callers vm b inst rest} hFunc hGood hBlock hRest hRule := by
    obtain ⟨hInst, _⟩ := (hGood.agrees frame callers vm rfl).place hFunc hBlock hRest
    have hHarmless := hGood.harmless hFunc
    rw [hBlock, hRest] at hHarmless
    have hOwn : (frame.fetch inst rest).func = func := hFunc
    exact h.dropped hLoop hNumbered hFits hForm.ssa hSafe hInst hRule hOwn (hGood.settled hFunc).1
      hHarmless

end

/-- Copy propagation followed by dead-code elimination. Where their tables do no harm, uses stay
dominated by definitions that are there, and every run in which the instructions that nothing
needs do no harm shows the same as before. -/
theorem copy_propagate_preserves {Heap : Type} (host : CvmHost Heap) (loop : CvmLoop Heap)
    (hLoop : loop = gotoLoop host ∨ loop = switchLoop host) (func : MirFunction)
    (hVerified : mirVerifyFunction func = []) (hBody : func.isExtern = true → func.blocks = [])
    (hNumbered : WellNumbered func) (hFits : func.nextValueId ≤ cvmMaxRegs) (hSsa : SsaForm func)
    (hUses : UsesDominated func) (hSafe : CopySafe func) :
    SsaForm (mirPassDeadCodeEliminate (mirPassCopyPropagate func).1).1 ∧
      UsesDominated (mirPassDeadCodeEliminate (mirPassCopyPropagate func).1).1 ∧
      ∀ (vm : CvmState Heap) (args : List CvmReg), vm.trapCode = 0 →
        (∀ n, UnneededHarmless host func
          (runFor (step host loop) n (cvmExecFunction host loop [] vm func args))) →
        SameBehaviour host loop vm
          (vm.replaceFunction func (mirPassDeadCodeEliminate (mirPassCopyPropagate func).1).1) func
          (mirPassDeadCodeEliminate (mirPassCopyPropagate func).1).1 args := by
  obtain ⟨rename, gone, hProp⟩ := propagated_pass func
  have hForm : CopyForm func := ⟨hSsa, hUses, orderly_of_verified hVerified hBody, hSafe.moves⟩
  refine ⟨hProp.ssaForm hForm, hProp.usesDominated hForm hSafe,
    fun vm args hTrap hHarmless => ?_⟩
  apply (copySound hLoop hForm hNumbered hFits hSafe hProp).sameBehaviour hLoop
  intro n
  refine ⟨settled_run hLoop (hNumbered.branchesInside hFits) hTrap func args n,
    fun frame callers vm' hAt => ?_, hHarmless n⟩
  exact agreesIn_run hLoop hForm hTrap func args n hAt

section

variable {Heap : Type} {host : CvmHost Heap} {func : MirFunction}

/-- Without moves, suspensions and the opcodes that replacing leaves out, and with one PHI in a
block, the tables do no harm. -/
theorem copySafe_of_plain (hPlain : ∀ inst ∈ func.blocks.flatMap (·.insts),
      isPlain inst.op = true ∧ replaceMisses inst.op = false)
    (hFirst : ∀ (b : MirBlockId) (k : Nat) (inst : MirInst), (func.insts b)[k]? = some inst →
      inst.op.isPhi = true → k = 0) : CopySafe func where
  moves inst hInst source hOp := by
    have hKnown := (hPlain inst hInst).1
    rw [hOp] at hKnown
    cases hKnown
  missed inst hInst hMissed := absurd ((hPlain inst hInst).2.symm.trans hMissed) false_ne_true
  phis b j k inst edges hInst hOp edge _ x _ _ hBefore := by
    have hStart : k = 0 := hFirst b k inst hInst (by rw [hOp]; rfl)
    rw [hStart] at hBefore
    cases hBefore
  suspends inst hInst resumeBb future hOp := by
    have hKnown := (hPlain inst hInst).1
    rw [hOp] at hKnown
    cases hKnown
  futures inst hInst resumeBb future hOp := by
    have hKnown := (hPlain inst hInst).1
    rw [hOp] at hKnown
    cases hKnown
  nops inst hInst hOp := by
    have hKnown := (hPlain inst hInst).1
    rw [hOp] at hKnown
    cases hKnown

theorem unneededHarmless_of_plain
    (hPlain : ∀ inst ∈ func.blocks.flatMap (·.insts), isPlain inst.op = true)
    {c : CvmConfig Heap} (hSettled : Settled func c) : UnneededHarmless host func c := by
  cases c with
  | returned | crashed => trivial
  | running frame callers vm =>
    intro hFunc
    cases hBlock : frame.block with
    | none => trivial
    | some b =>
      cases hRest : frame.rest with
      | nil => trivial
      | cons inst rest =>
        intro _ _ _
        have hMem := (hSettled hFunc).2.mem hBlock hRest
        rw [hFunc] at hMem
        exact harmless_of_isPlain (hPlain inst (MirFunction.mem_flatMap_of_mem_insts hMem))

end

/-- A copy of the argument that the only edge of a PHI carries, and twice that. -/
def carried : MirFunction where
  name := "carried"
  returnType := some .i64
  params := [{ name := "x", type := some .i64, valueId := 1 }]
  blocks := [{ insts := [{ op := .transfer .copy 1, result := 2, type := some .i64 },
                 { op := .br (some 1) }]
               successors := [1] },
    { insts := [{ op := .phi [{ block := some 0, value := 2 }], result := 3, type := some .i64 },
        { op := .binary .add 3 3, result := 4, type := some .i64 }, { op := .ret 4 }]
      predecessors := [0] }]
  nextValueId := 5
  valueTypes := [none, some .i64, some .i64, some .i64, some .i64]

theorem copy_propagate_preserves_carried :
    SameBehaviour wordHost (gotoLoop wordHost) (wordVm { funcList := [carried] })
      ((wordVm { funcList := [carried] }).replaceFunction carried
        (mirPassDeadCodeEliminate (mirPassCopyPropagate carried).1).1)
      carried (mirPassDeadCodeEliminate (mirPassCopyPropagate carried).1).1 [21] :=
  (copy_propagate_preserves wordHost (gotoLoop wordHost) (.inl rfl) carried (by decide) (by decide)
    (by decide) (by decide) (by decide) (usesDominated_of_within (by decide))
    (copySafe_of_plain (by decide) (by decide))).2.2
    (wordVm { funcList := [carried] }) [21] rfl fun n =>
      unneededHarmless_of_plain (by decide)
        (settled_run (.inl rfl) (WellNumbered.branchesInside (by decide) (by decide))
          rfl carried [21] n)

/-- A switch on a PHI whose only edge carries the argument. -/
def picker : MirFunction where
  name := "picker"
  returnType := some .i64
  params := [{ name := "x", type := some .i64, valueId := 1 }]
  blocks := [{ insts := [{ op := .br (some 1) }], successors := [1] },
    { insts := [{ op := .phi [{ block := some 0, value := 1 }], result := 2, type := some .i64 },
        { op := .switch 2 [{ value := 7, target := some 2 }] (some 3) }]
      predecessors := [0], successors := [2, 3] },
    { insts := [{ op := .constInt 1, result := 3, type := some .i64 }, { op := .ret 3 }]
      predecessors := [1] },
    { insts := [{ op := .constInt 0, result := 4, type := some .i64 }, { op := .ret 4 }]
      predecessors := [1] }]
  nextValueId := 5
  valueTypes := [none, some .i64, some .i64, some .i64, some .i64]

/-- A copy of the argument that is returned after the argument was moved. -/
def copiedThenMoved : MirFunction where
  name := "copied_then_moved"
  returnType := some .i64
  params := [{ name := "x", type := some .i64, valueId := 1 }]
  blocks := [{ insts := [{ op := .transfer .copy 1, result := 2, type := some .i64 },
    { op := .transfer .move 1, result := 3, type := some .i64 },
    { op := .binary .add 2 3, result := 4, type := some .i64 }, { op := .ret 4 }] }]
  nextValueId := 5
  valueTypes := [none, some .i64, some .i64, some .i64, some .i64]

/-- The function as the two passes leave it. -/
def propagatedAndCleared (func : MirFunction) : MirFunction :=
  (mirPassDeadCodeEliminate (mirPassCopyPropagate func).1).1

/-- In a verified function with dominated uses a switch goes on reading a PHI that is deleted,
and takes the other way; in another one a copy is read from the argument that a move has
zeroed by then. -/
theorem copy_propagate_differs :
    (mirVerifyFunction picker = [] ∧ SsaForm picker ∧ UsesDominated picker ∧
      ¬UsesDominated (propagatedAndCleared picker) ∧
      (runFor (step wordHost (gotoLoop wordHost)) 5
        (cvmExecFunction wordHost (gotoLoop wordHost) [] (wordVm {}) picker [7])).result =
          some (1, 0) ∧
      (runFor (step wordHost (gotoLoop wordHost)) 5
        (cvmExecFunction wordHost (gotoLoop wordHost) [] (wordVm {})
          (propagatedAndCleared picker) [7])).result = some (0, 0)) ∧
    mirVerifyFunction copiedThenMoved = [] ∧ SsaForm copiedThenMoved ∧
      UsesDominated copiedThenMoved ∧
      (runFor (step wordHost (gotoLoop wordHost)) 4
        (cvmExecFunction wordHost (gotoLoop wordHost) [] (wordVm {}) copiedThenMoved [9])).result =
          some (18, 0) ∧
      (runFor (step wordHost (gotoLoop wordHost)) 3
        (cvmExecFunction wordHost (gotoLoop wordHost) [] (wordVm {})
          (propagatedAndCleared copiedThenMoved) [9])).result = some (9, 0) := by
  have hDangling : ¬UsesDominated (propagatedAndCleared picker) := by
    intro h
    have hNowhere : ∀ (b : MirBlockId) (k : Nat) (inst : MirInst),
        ((propagatedAndCleared picker).insts b)[k]? = some inst → inst.result ≠ 2 := by decide
    rcases h.uses 1 0 _ rfl rfl 2 (by decide) with hZero | ⟨p, hp, hValue⟩ |
      ⟨a, j, ⟨inst, hAt, hResult⟩, _⟩
    · cases hZero
    · have hParam : ∀ p ∈ (propagatedAndCleared picker).params, p.valueId ≠ 2 := by decide
      exact hParam p hp hValue
    · exact hNowhere a j inst hAt hResult
  refine ⟨⟨by decide, by decide, usesDominated_of_within (by decide),
    hDangling, by decide, by decide⟩,
    by decide, by decide, usesDominated_of_within (by decide), by decide, by decide⟩

end Casprix.Opt
