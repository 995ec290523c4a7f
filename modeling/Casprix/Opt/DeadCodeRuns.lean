import Casprix.Cvm.Numbered
import Casprix.Cvm.RewrittenRuns
import Casprix.Opt.DeadCode

/-! What dead-code elimination may delete, and the runs it leaves as they were. -/
namespace Casprix.Opt

open Function List Mir Cvm Library

section

variable {inst : MirInst} {id : MirValueId}

/-- The use test knows every operand that the verifier looks at, but not the future of a
suspension. -/
theorem valueUsedInInst_of_checked (h : id ∈ (operandChecks inst.op).map Prod.fst)
    (hOp : ∀ resumeBb, inst.op ≠ .suspend resumeBb id) : valueUsedInInst inst id = true := by
  unfold valueUsedInInst
  cases hCase : inst.op with
  | suspend resumeBb future =>
    simp only [operandChecks, hCase, map_cons, map_nil, mem_singleton] at h
    exact absurd (h ▸ hCase) (hOp resumeBb)
  | phi edges =>
    simp only [operandChecks, hCase, map_map, mem_map, comp] at h
    obtain ⟨edge, hEdge, hValue⟩ := h
    exact any_eq_true.mpr ⟨edge, hEdge, beq_iff_eq.mpr hValue⟩
  | call name args callee | callIndirect name args callee | callVirtual callee vtableIndex args =>
    simp only [operandChecks, hCase, map_cons, map_map, mem_cons, mem_map, comp] at h
    simp only [Bool.or_eq_true, beq_iff_eq, contains_iff_mem]
    rcases h with hCallee | ⟨arg, hArg, hValue⟩
    · exact .inl hCallee.symm
    · exact .inr (hValue ▸ hArg)
  | structInit fields =>
    simp only [operandChecks, hCase, map_map, mem_map, comp] at h
    obtain ⟨field, hField, hValue⟩ := h
    exact contains_iff_mem.mpr (hValue ▸ hField)
  | binary | unary | load | store | getFieldPtr | getElemPtr | condbr |
    switch | ret | transfer | refop
  | extract | insert | vec =>
    simp only [operandChecks, hCase, map_cons, map_nil, mem_cons, not_mem_nil, or_false] at h
    grind
  | _ => simp [operandChecks, hCase] at h

theorem operands_subset_checked (op : MirOp) : op.operands ⊆ (operandChecks op).map Prod.fst := by
  cases op with
  | call name args callee =>
    intro id hId
    simp only [operandChecks, map_cons, map_map, comp_def, map_id']
    exact mem_cons_of_mem callee hId
  | callIndirect | callVirtual | structInit | phi =>
    simp [operandChecks, MirOp.operands, comp_def]
  | _ => simp [operandChecks, MirOp.operands]

end

/-- Suspensions, calls, stores and terminators. -/
def isEffect : MirOp → Bool
  | .suspend .. | .call .. | .callIndirect .. | .callVirtual .. => true
  | .store .. | .vec .store .. | .vec .storeUnaligned .. => true
  | op => op.isTerminator

/-- The deleted instructions are no effects, and what is left does not read their results. -/
structure RemovesOnlyDead (func : MirFunction) : Prop where
  effectFree : ∀ b k inst, Dead func b k → (func.insts b)[k]? = some inst →
    isEffect inst.op = false
  unread : ∀ b k inst, Dead func b k → (func.insts b)[k]? = some inst → inst.result ≠ 0 →
    ∀ b', ∀ user ∈ (mirPassDeadCodeEliminate func).1.insts b',
      inst.result ∉ (operandChecks user.op).map Prod.fst

/-- The opcodes that the tables of the pass leave out are not involved: no suspension and no
vector store is dead, no suspension that stays waits for a dead result, and no `MIR_NOP`
bears a value that an instruction reads that stays. -/
structure TablesSuffice (func : MirFunction) : Prop where
  suspends : ∀ b k inst, Dead func b k → (func.insts b)[k]? = some inst →
    ∀ resumeBb future, inst.op ≠ .suspend resumeBb future
  vecStores : ∀ b k inst, Dead func b k → (func.insts b)[k]? = some inst →
    ∀ x y z width laneType, inst.op ≠ .vec .store x y z width laneType ∧
      inst.op ≠ .vec .storeUnaligned x y z width laneType
  futures : ∀ b k inst, Dead func b k → (func.insts b)[k]? = some inst → inst.result ≠ 0 →
    ∀ b' k' user, ¬Dead func b' k' → (func.insts b')[k']? = some user →
      ∀ resumeBb, user.op ≠ .suspend resumeBb inst.result
  nops : ∀ (b : MirBlockId) (k : Nat)
    (inst : MirInst), (func.insts b)[k]? = some inst → inst.op = .nop →
    inst.result ≠ 0 → ∀ b' k' user, ¬Dead func b' k' → (func.insts b')[k']? = some user →
      inst.result ∉ (operandChecks user.op).map Prod.fst

section

variable {func : MirFunction} {b b' : MirBlockId} {k k' : Nat} {inst user : MirInst}

theorem mem_insts_pass : user ∈ (mirPassDeadCodeEliminate func).1.insts b ↔
    ∃ k : Nat, (func.insts b)[k]? = some user ∧ ¬Dead func b k := by
  rw [insts_mirPassDeadCodeEliminate, mem_remaining]
  simp only [Nat.zero_add]

theorem not_dead_of_sideEffects (hInst : (func.insts b)[k]? = some inst)
    (hOp : hasSideEffects inst.op = true) : ¬Dead func b k := by
  intro hDead
  rcases (dead_iff hInst).mp hDead with hNop | ⟨_, hNone, _⟩
  · rw [hNop] at hOp
    cases hOp
  · exact absurd (hNone.symm.trans hOp) Bool.false_ne_true

theorem not_used_of_dead (hDead : Dead func b k) (hInst : (func.insts b)[k]? = some inst)
    (hNop : inst.op ≠ .nop) (hLive : ¬Dead func b' k')
    (hUser : (func.insts b')[k']? = some user) :
    valueUsedInInst user inst.result = false := by
  cases hDead with
  | nop hInst' hOp =>
    cases hInst.symm.trans hInst'
    exact absurd hOp hNop
  | unused hInst' _ _ _ hUses =>
    cases hInst.symm.trans hInst'
    by_contra hUsed
    exact hLive (hUses b' k' user hUser (Bool.not_eq_false _ ▸ hUsed))

theorem isEffect_eq_false (hDead : Dead func b k) (hInst : (func.insts b)[k]? = some inst)
    (hSuspend : ∀ resumeBb future, inst.op ≠ .suspend resumeBb future)
    (hVec : ∀ x y z width laneType, inst.op ≠ .vec .store x y z width laneType ∧
      inst.op ≠ .vec .storeUnaligned x y z width laneType) : isEffect inst.op = false := by
  by_contra hEffect
  rw [Bool.not_eq_false] at hEffect
  refine not_dead_of_sideEffects hInst ?_ hDead
  cases hOp : inst.op with
  | suspend resumeBb future => exact absurd hOp (hSuspend resumeBb future)
  | vec op x y z width laneType =>
    cases op with
    | store => exact absurd hOp (hVec x y z width laneType).1
    | storeUnaligned => exact absurd hOp (hVec x y z width laneType).2
    | _ =>
      rw [hOp] at hEffect
      cases hEffect
  | store | call | callIndirect | callVirtual | br | condbr | switch | ret | retVoid
  | unreachable => rfl
  | _ =>
    rw [hOp] at hEffect
    cases hEffect

/-- The pass removes dead instructions without effects only, exactly if its tables suffice. -/
theorem removesOnlyDead_iff (func : MirFunction) : RemovesOnlyDead func ↔ TablesSuffice func := by
  constructor
  · intro h
    refine ⟨fun b k inst hDead hInst resumeBb future hOp => ?_,
      fun b k inst hDead hInst x y z width laneType => ⟨fun hOp => ?_, fun hOp => ?_⟩,
      fun b k inst hDead hInst hResult b' k' user hLive hUser resumeBb hOp => ?_,
      fun b k inst hInst hOp hResult b' k' user hLive hUser hMem => ?_⟩
    · have hFree := h.effectFree b k inst hDead hInst
      rw [hOp] at hFree
      cases hFree
    · have hFree := h.effectFree b k inst hDead hInst
      rw [hOp] at hFree
      cases hFree
    · have hFree := h.effectFree b k inst hDead hInst
      rw [hOp] at hFree
      cases hFree
    · refine h.unread b k inst hDead hInst hResult b' user
        (mem_insts_pass.mpr ⟨k', hUser, hLive⟩) ?_
      rw [hOp]
      exact mem_singleton_self _
    · exact h.unread b k inst (.nop hInst hOp) hInst hResult b' user
        (mem_insts_pass.mpr ⟨k', hUser, hLive⟩) hMem
  · intro h
    refine ⟨fun b k inst hDead hInst =>
      isEffect_eq_false hDead hInst (h.suspends b k inst hDead hInst)
      (h.vecStores b k inst hDead hInst),
        fun b k inst hDead hInst hResult b' user hUser hMem => ?_⟩
    obtain ⟨k', hAt, hLive⟩ := mem_insts_pass.mp hUser
    by_cases hNop : inst.op = .nop
    · exact h.nops b k inst hInst hNop hResult b' k' user hLive hAt hMem
    · have hUsed := valueUsedInInst_of_checked hMem
        (h.futures b k inst hDead hInst hResult b' k' user
        hLive hAt)
      exact absurd ((not_used_of_dead hDead hInst hNop hLive hAt).symm.trans hUsed)
        Bool.false_ne_true

end

/-- Executing an instruction without side effects assigns its result and does nothing else:
it does not trap, allocate or zero the source of a move. -/
def Harmless {Heap : Type} (host : CvmHost Heap) (frame : CvmFrame) (vm : CvmState Heap) :
    MirOp → Prop
  | .alloca .. => False
  | .load ptr => frame.reg ptr ≠ 0 ∧ (host.read vm.heap (frame.reg ptr)).isSome = true
  | .extract aggregate fieldIdx => frame.reg aggregate = 0 ∨
      (host.read vm.heap (frame.reg aggregate + BitVec.ofInt 64 (fieldIdx * 8))).isSome = true
  | .getFieldPtr _ fieldIndex _ => 0 ≤ fieldIndex
  | .transfer .move source => frame.reg source = 0
  | _ => True

section

variable {Heap : Type} {host : CvmHost Heap} {loop : CvmLoop Heap} {frame : CvmFrame}
  {vm : CvmState Heap} {inst : MirInst} {id : MirValueId}

/-- The outcome of an instruction that changes no register but its result. -/
def OnlyAssigns (frame : CvmFrame) (vm : CvmState Heap) (result : MirValueId)
    (outcome : CvmOutcome Heap) : Prop :=
  ∃ regs, outcome = .next (frame.withRegs regs) vm ∧
    ∀ id, id = 0 ∨ id ≠ result → (frame.withRegs regs).reg id = frame.reg id

theorem onlyAssigns_refl (result : MirValueId) : OnlyAssigns frame vm result (.next frame vm) :=
  ⟨frame.regs, rfl, fun _ _ => rfl⟩

section

variable (hInside : frame.outside id = false)
include hInside

theorem onlyAssigns_setNext (v : CvmReg) :
    OnlyAssigns frame vm id (setNext frame id v vm) := by
  rcases cvmRegSet_cases frame id v vm with ⟨hOut, _⟩ | ⟨regs, hSet, hReg⟩
  · exact absurd (hInside.symm.trans hOut) Bool.false_ne_true
  · refine ⟨regs, by rw [setNext, hSet]; rfl, fun x hx => ?_⟩
    have hAt : (frame.withRegs regs).reg x =
        (if id = 0 then frame.reg else update frame.reg id v) x := congrFun hReg x
    rw [hAt]
    split
    · rfl
    · next hNonzero =>
        rcases hx with hZero | hOther
        · exact update_of_ne (fun hSame => hNonzero (hSame.symm.trans hZero)) _ _
        · exact update_of_ne hOther _ _

theorem onlyAssigns_loadNext {address : CvmReg}
    (hRead : (host.read vm.heap address).isSome = true) :
    OnlyAssigns frame vm id (loadNext host frame id address vm) := by
  unfold loadNext
  cases hValue : host.read vm.heap address with
  | none =>
    rw [hValue] at hRead
    cases hRead
  | some value => exact onlyAssigns_setNext hInside value

theorem onlyAssigns_move {source : MirValueId}
    (hZero : frame.reg source = 0) : OnlyAssigns frame vm id
      (.next (clearMoved (cvmRegSet frame id (frame.reg source) vm).1 source)
        (cvmRegSet frame id (frame.reg source) vm).2) := by
  have hAssigned : OnlyAssigns frame vm id (setNext frame id (frame.reg source) vm) :=
    onlyAssigns_setNext hInside (frame.reg source)
  obtain ⟨regs, hNext, hRegs⟩ := hAssigned
  have hSet : (cvmRegSet frame id (frame.reg source) vm).1 = frame.withRegs regs ∧
      (cvmRegSet frame id (frame.reg source) vm).2 = vm := by
    injection hNext with hFrame hVm
    exact ⟨hFrame, hVm⟩
  rw [hSet.1, hSet.2]
  unfold clearMoved
  split
  · exact ⟨regs, rfl, hRegs⟩
  · next hIn =>
      refine ⟨update regs source (some 0), rfl, fun x hx => ?_⟩
      have hCleared : (frame.withRegs (update regs source (some 0))).reg x =
          if x = source ∧ source ≠ 0 ∧ source < cvmRegCount frame.func then 0
          else (frame.withRegs regs).reg x := reg_update (frame.withRegs regs) source 0 x
      rw [hCleared]
      split
      · next hSame => rw [hSame.1, hZero]
      · exact hRegs x hx

end

theorem readIds_inside (hZero : frame.outside 0 = false)
    (h : ∀ id ∈ inst.op.operands, frame.outside id = false) (trapCode : Nat) :
    ∀ id ∈ frame.readIds trapCode inst.op, frame.outside id = false := by
  intro id hId
  cases hOp : inst.op with
  | phi edges =>
    rw [hOp, CvmFrame.readIds, mem_singleton] at hId
    rw [hId]
    rcases phiOperand_mem edges frame.prev with hNone | hMem
    · rw [hNone, hZero]
    · exact h _ (by rw [hOp]; exact hMem)
  | _ =>
    rw [hOp] at hId
    have hRead := mem_gotoReads rfl hId
    exact h id (by rw [hOp]; exact gotoReads_subset_operands _ hRead)

theorem exec_nop (hLoop : loop = gotoLoop host ∨ loop = switchLoop host) (hOp : inst.op = .nop) :
    loop.exec frame inst vm = .next frame vm := by
  rw [exec_of_execGoto hLoop (by rw [hOp]; rfl), execGoto, hOp]
  rfl

/-- Without side effects, a suspension or harm, executing an instruction only assigns. -/
theorem exec_onlyAssigns (hLoop : loop = gotoLoop host ∨ loop = switchLoop host)
    (hOp : hasSideEffects inst.op = false) (hHarmless : Harmless host frame vm inst.op)
    (hOperands : ∀ id ∈ inst.op.operands, frame.outside id = false)
    (hResult : frame.outside inst.result = false) :
    OnlyAssigns frame vm inst.result (loop.exec frame inst vm) := by
  have hZero : frame.outside 0 = false := rfl
  have hTouch : touch frame (frame.readIds vm.trapCode inst.op) vm = vm :=
    touch_inside (readIds_inside hZero hOperands vm.trapCode)
  have hSet : ∀ v, OnlyAssigns frame vm inst.result (setNext frame inst.result v vm) :=
    onlyAssigns_setNext hResult
  have hGoto : OnlyAssigns frame vm inst.result (execGoto host frame inst vm) := by
    unfold execGoto
    rw [hTouch]
    generalize inst.op = found at hHarmless hOp ⊢
    cases found with
    | load ptr =>
      simp only [hHarmless.1, if_false]
      exact onlyAssigns_loadNext hResult hHarmless.2
    | extract aggregate fieldIdx =>
      dsimp only
      split
      · exact hSet 0
      · next hNonzero => exact onlyAssigns_loadNext hResult (hHarmless.resolve_left hNonzero)
    | getFieldPtr base fieldIndex index =>
      have hNotNeg : ¬fieldIndex < 0 := Int.not_lt.mpr hHarmless
      simp only [hNotNeg, if_false]
      exact hSet _
    | transfer op source =>
      cases op with
      | move => exact onlyAssigns_move hResult hHarmless
      | copy | borrow | borrowMut => exact hSet _
    | alloca =>
      exact hHarmless.elim
    | store | call | callIndirect | callVirtual | br | condbr | switch | ret | retVoid | unreachable
    | refop | objAlloc | debugLoc =>
      cases hOp
    | constInt | constFloat | constBool | constString | constNull | binary | unary | getElemPtr
    | phi =>
      exact hSet _
    | constFunc | globalAddr | structInit | insert | vec | nop | undef | suspend =>
      exact onlyAssigns_refl _
  cases hLoop with
  | inl hIsGoto =>
    rw [hIsGoto]
    exact hGoto
  | inr hIsSwitch =>
    rw [hIsSwitch]
    cases hDiffer : loopsDiffer inst.op with
    | false =>
      rw [← execSwitch_eq_execGoto hDiffer] at hGoto
      exact hGoto
    | true =>
      show OnlyAssigns frame vm inst.result (execSwitch host frame inst vm)
      unfold execSwitch
      rw [hTouch]
      generalize inst.op = value at hHarmless hOp hDiffer ⊢
      cases value with
      | load ptr =>
        simp only [hHarmless.1, if_false]
        exact onlyAssigns_loadNext hResult hHarmless.2
      | extract aggregate fieldIdx =>
        dsimp only
        split
        · exact onlyAssigns_refl _
        · next hNonzero => exact onlyAssigns_loadNext hResult (hHarmless.resolve_left hNonzero)
      | getFieldPtr | getElemPtr | unary => exact hSet _
      | callVirtual =>
        cases hOp
      | _ =>
        cases hDiffer

end

/-- The place of the instruction before `rest`. -/
def placeOf (func : MirFunction) (b : MirBlockId) (rest : List MirInst) : Nat :=
  (func.insts b).length - (rest.length + 1)

/-- Dead instructions are dropped, and only their results differ. -/
def deadRules (func : MirFunction) : RewriteRules where
  visible id := id = 0 ∨ ∀ b k inst, Dead func b k → (func.insts b)[k]? = some inst →
    inst.op ≠ .nop → id ≠ inst.result
  kept b inst rest inst' := inst' = inst ∧ ¬Dead func b (placeOf func b rest)
  dropped b _ rest := Dead func b (placeOf func b rest)
  preceded _ _ _ _ _ := False

/-- The next instruction, if it is dead, does no harm. -/
def DeadWell {Heap : Type} (host : CvmHost Heap) (func : MirFunction) : CvmConfig Heap → Prop
  | .running frame _ vm => frame.func = func →
      match frame.block, frame.rest with
      | some b, inst :: rest => Dead func b (placeOf func b rest) → Harmless host frame vm inst.op
      | _, _ => True
  | _ => True

section

variable {Heap : Type} {host : CvmHost Heap} {loop : CvmLoop Heap} {func : MirFunction}
  {b : MirBlockId} {inst : MirInst} {rest : List MirInst}

theorem placeOf_eq {pre : List MirInst} (h : func.insts b = pre ++ inst :: rest) :
    placeOf func b rest = pre.length := by
  rw [placeOf, h, length_append, length_cons, Nat.add_sub_cancel]

theorem getElem?_placeOf {frame : CvmFrame} (hIn : frame.InFunction) (hFunc : frame.func = func)
    (hBlock : frame.block = some b) (hRest : frame.rest = inst :: rest) :
    (func.insts b)[placeOf func b rest]? = some inst := by
  obtain ⟨pre, hSplit⟩ := hIn b hBlock
  rw [hRest, hFunc] at hSplit
  rw [placeOf_eq hSplit.symm, ← hSplit, getElem?_append_right (le_rfl), Nat.sub_self]
  rfl

theorem rewritten_remaining {pre insts : List MirInst} (h : func.insts b = pre ++ insts) :
    Rewritten (deadRules func) b insts (remaining (Dead func b) pre.length insts) := by
  induction insts generalizing pre with
  | nil => exact .nil
  | cons inst rest ih =>
    have hNext : func.insts b = (pre ++ [inst]) ++ rest := by
      rw [h, append_assoc]
      rfl
    have hTail := ih hNext
    rw [length_append, length_singleton] at hTail
    rw [remaining]
    split
    · next hDead =>
        refine .dropped ?_ hTail
        show Dead func b (placeOf func b rest)
        rwa [placeOf_eq h]
    · next hLive =>
        refine .kept ⟨rfl, ?_⟩ hTail
        rwa [placeOf_eq h]

theorem visible_of_live (hTables : TablesSuffice func) {k : Nat}
    (hInst : (func.insts b)[k]? = some inst)
    (hLive : ¬Dead func b k) {id : MirValueId} (hId : id ∈ inst.op.operands) :
    (deadRules func).visible id := by
  by_cases hZero : id = 0
  · exact .inl hZero
  · refine .inr fun b' k' dead hDead hAt hNop hSame => ?_
    rw [hSame] at hId hZero
    have hUsed := valueUsedInInst_of_checked (operands_subset_checked inst.op hId)
      (hTables.futures b' k' dead hDead hAt hZero b k inst hLive hInst)
    exact absurd ((not_used_of_dead hDead hAt hNop hLive hInst).symm.trans hUsed) Bool.false_ne_true

theorem entry_remaining (hVerified : mirVerifyFunction func = [])
    (hBody : func.isExtern = true → func.blocks = []) :
    (remaining (Dead func 0) 0 (func.insts 0)).isEmpty = (func.insts 0).isEmpty := by
  by_cases hBlocks : func.blocks = []
  · rw [MirFunction.insts_eq_nil (by rw [hBlocks]; exact le_refl 0)]
    rfl
  · have hOwn : func.isExtern = false := Bool.eq_false_iff.mpr fun h => hBlocks (hBody h)
    have hAccepted := ((mirVerifyFunction_eq_nil_iff hOwn).mp hVerified).2.2.1
    obtain ⟨block, hBlock⟩ := MirFunction.exists_block? (length_pos_iff.mpr hBlocks)
    obtain ⟨term, hLast, hTerm⟩ := (hAccepted 0 block hBlock).terminates.1
    rw [← MirFunction.insts_of_block? hBlock] at hLast
    rw [getLast?_eq_getElem?] at hLast
    have hEffect : hasSideEffects term.op = true := by
      cases hOp : term.op with
      | br | condbr | switch | ret | retVoid | unreachable => rfl
      | _ =>
        rw [hOp] at hTerm
        cases hTerm
    have hMem : term ∈ remaining (Dead func 0) 0 (func.insts 0) :=
      mem_remaining.mpr ⟨_, hLast, by
        rw [Nat.zero_add]
        exact not_dead_of_sideEffects hLast hEffect⟩
    have hOld : term ∈ func.insts 0 := mem_of_getElem? hLast
    rw [isEmpty_eq_false_iff.mpr (ne_nil_of_mem hMem),
      isEmpty_eq_false_iff.mpr (ne_nil_of_mem hOld)]

def DeadGood (host : CvmHost Heap) (func : MirFunction) (c : CvmConfig Heap) : Prop :=
  Settled func c ∧ DeadWell host func c

theorem deadSound (hLoop : loop = gotoLoop host ∨ loop = switchLoop host)
    (hVerified : mirVerifyFunction func = []) (hBody : func.isExtern = true → func.blocks = [])
    (hNumbered : WellNumbered func) (hFits : func.nextValueId ≤ cvmMaxRegs)
    (hTables : TablesSuffice func) :
    SoundFor loop func (mirPassDeadCodeEliminate func).1 (deadRules func) (DeadGood host func) where
  name_eq := rfl
  params_eq := rfl
  length_eq := by
    have hWhole : func.blocks = [] ++ func.blocks := rfl
    have hStart : Passed func [] := rfl
    exact (deadCodeBlocks_passed hWhole hStart rfl).2
  entryOk_eq := by
    cases hLoop with
    | inl hGoto =>
      rw [hGoto]
      refine congrArg not ?_
      rw [insts_mirPassDeadCodeEliminate]
      exact entry_remaining hVerified hBody
    | inr hSwitch =>
      rw [hSwitch]
      rfl
  slots _ _ := Iff.rfl
  insts b := by
    have hWhole : func.insts b = [] ++ func.insts b := rfl
    rw [insts_mirPassDeadCodeEliminate]
    exact rewritten_remaining hWhole
  preceded _ _ _ _ hRule := hRule.elim
  kept {frame frame' callers vm vm' b inst inst' rest rest'} hFunc hGood hBlock hRest hRule hFrame
      hVm := by
    obtain ⟨rfl, hLive⟩ := hRule
    have hAt := getElem?_placeOf (hGood.1 hFunc).2 hFunc hBlock hRest
    have hName : (mirPassDeadCodeEliminate func).1.name = func.name := rfl
    have hSlots : ∀ id, (deadRules func).visible id →
        SameSlot func (mirPassDeadCodeEliminate func).1 id := fun _ _ => Iff.rfl
    exact doesSame_unchanged hLoop hName hSlots (.inl rfl) hFunc hFrame hVm Iff.rfl
      fun id hId => visible_of_live hTables hAt hLive hId
  dropped {frame callers vm b inst rest} hFunc hGood hBlock hRest hRule := by
    obtain ⟨hTrap, hIn⟩ := hGood.1 hFunc
    have hAt := getElem?_placeOf hIn hFunc hBlock hRest
    obtain ⟨hOperands, hResult⟩ := hNumbered.mem (mem_of_getElem? hAt)
    have hInside : ∀ id, id < func.nextValueId →
        (frame.fetch inst rest).outside id = false := by
      intro id hId
      apply outside_eq_false
      show id < cvmRegCount frame.func
      rw [hFunc]
      exact lt_cvmRegCount hId hFits
    have hHarmless := hGood.2 hFunc
    rw [hBlock, hRest] at hHarmless
    have hNoEffect : hasSideEffects inst.op = false := by
      rcases (dead_iff hAt).mp hRule with hNop | ⟨_, hNone, _⟩
      · rw [hNop]
        rfl
      · exact hNone
    have hOnly : OnlyAssigns (frame.fetch inst rest) vm.tick inst.result
        (loop.exec (frame.fetch inst rest) inst vm.tick) :=
      exec_onlyAssigns hLoop hNoEffect (hHarmless hRule) (fun id hId =>
        hInside id (hOperands id hId))
        (hInside _ hResult)
    have hSuspends := hTables.suspends b _ inst hRule hAt
    have hShown : (frame.fetch inst rest).suspensions inst.op = [] := by
      cases hOp : inst.op with
      | suspend resumeBb future => exact absurd hOp (hSuspends resumeBb future)
      | _ => rfl
    by_cases hNop : inst.op = .nop
    · refine ⟨frame.regs, hTrap, hShown, ?_, fun _ _ => rfl⟩
      exact exec_nop hLoop hNop
    · obtain ⟨regs, hNext, hRegs⟩ := hOnly
      refine ⟨regs, hTrap, hShown, hNext, fun id hVisible => hRegs id ?_⟩
      exact hVisible.imp_right fun hOther => hOther b _ inst hRule hAt hNop

/-- Opcodes that the tables know and that only assign, whatever the registers hold. -/
def isPlain : MirOp → Bool
  | .suspend .. | .vec .. | .nop | .alloca .. | .load _ | .extract .. | .getFieldPtr .. => false
  | .transfer .move _ => false
  | _ => true

theorem tablesSuffice_of_plain
    (hPlain : ∀ inst ∈ func.blocks.flatMap (·.insts), isPlain inst.op = true) :
    TablesSuffice func := by
  have hOp : ∀ (b : MirBlockId) (k : Nat) (inst : MirInst), (func.insts b)[k]? = some inst →
      isPlain inst.op = true := fun b k inst hInst =>
    hPlain inst (MirFunction.mem_flatMap_of_mem_insts (mem_of_getElem? hInst))
  refine ⟨fun b k inst _ hInst resumeBb future hSuspend => ?_,
    fun b k inst _ hInst x y z width laneType => ⟨fun hVec => ?_, fun hVec => ?_⟩,
    fun _ _ _ _ _ _ b' k' user _ hUser resumeBb hSuspend => ?_,
    fun b k inst hInst hNop _ _ _ _ _ _ => ?_⟩
  · have hKnown := hOp b k inst hInst
    rw [hSuspend] at hKnown
    cases hKnown
  · have hKnown := hOp b k inst hInst
    rw [hVec] at hKnown
    cases hKnown
  · have hKnown := hOp b k inst hInst
    rw [hVec] at hKnown
    cases hKnown
  · have hKnown := hOp b' k' user hUser
    rw [hSuspend] at hKnown
    cases hKnown
  · have hKnown := hOp b k inst hInst
    rw [hNop] at hKnown
    cases hKnown

theorem harmless_of_isPlain {frame : CvmFrame} {vm : CvmState Heap} {op : MirOp}
    (h : isPlain op = true) :
    Harmless host frame vm op := by
  cases op with
  | transfer op source =>
    cases op with
    | move => cases h
    | copy | borrow | borrowMut => trivial
  | alloca | load | extract | getFieldPtr => cases h
  | _ => trivial

theorem deadWell_of_plain (hPlain : ∀ inst ∈ func.blocks.flatMap (·.insts),
    isPlain inst.op = true)
    {c : CvmConfig Heap} (hSettled : Settled func c) : DeadWell host func c := by
  cases c with
  | returned | crashed => trivial
  | running frame callers vm =>
    intro hFunc
    cases hBlock : frame.block with
    | none => trivial
    | some b =>
      cases hRest : frame.rest with
      | nil => trivial
      | cons inst rest =>
        intro _
        have hMem := (hSettled hFunc).2.mem hBlock hRest
        rw [hFunc] at hMem
        exact harmless_of_isPlain (hPlain inst (MirFunction.mem_flatMap_of_mem_insts hMem))

end

/-- The pass deletes the dead instructions. They have no effect and are read by nothing that is
left exactly if the tables of the pass suffice, and then every run in which the deleted
instructions do no harm shows the same as before. -/
theorem dead_code_preserves {Heap : Type} (host : CvmHost Heap) (loop : CvmLoop Heap)
    (hLoop : loop = gotoLoop host ∨ loop = switchLoop host) (func : MirFunction)
    (hVerified : mirVerifyFunction func = []) (hBody : func.isExtern = true → func.blocks = [])
    (hNumbered : WellNumbered func) (hFits : func.nextValueId ≤ cvmMaxRegs) :
    (∀ b, (mirPassDeadCodeEliminate func).1.insts b =
      remaining (Dead func b) 0 (func.insts b)) ∧
      (RemovesOnlyDead func ↔ TablesSuffice func) ∧
      (TablesSuffice func → ∀ (vm : CvmState Heap) (args : List CvmReg), vm.trapCode = 0 →
        (∀ n, DeadWell host func
          (runFor (step host loop) n (cvmExecFunction host loop [] vm func args))) →
        SameBehaviour host loop vm (vm.replaceFunction func (mirPassDeadCodeEliminate func).1) func
          (mirPassDeadCodeEliminate func).1 args) := by
  refine ⟨insts_mirPassDeadCodeEliminate func, removesOnlyDead_iff func,
    fun hTables vm args hTrap hWell => ?_⟩
  apply (deadSound hLoop hVerified hBody hNumbered hFits hTables).sameBehaviour hLoop
  have hInside := hNumbered.branchesInside hFits
  exact fun n => ⟨settled_run hLoop hInside hTrap func args n, hWell n⟩

/-- Twice the argument, computed a second time for nothing. -/
def doubled : MirFunction where
  name := "doubled"
  returnType := some .i64
  params := [{ name := "x", type := some .i64, valueId := 1 }]
  blocks := [{ insts := [{ op := .binary .add 1 1, result := 2, type := some .i64 },
    { op := .binary .add 1 1, result := 3, type := some .i64 }, { op := .ret 3 }] }]
  nextValueId := 4
  valueTypes := [none, some .i64, some .i64, some .i64]

theorem dead_code_preserves_doubled :
    SameBehaviour wordHost (switchLoop wordHost) (wordVm { funcList := [doubled] })
      ((wordVm { funcList := [doubled] }).replaceFunction doubled
        (mirPassDeadCodeEliminate doubled).1)
      doubled (mirPassDeadCodeEliminate doubled).1 [5] :=
  (dead_code_preserves wordHost (switchLoop wordHost) (.inr rfl) doubled (by decide) (by decide)
    (by decide) (by decide)).2.2 (tablesSuffice_of_plain (by decide))
    (wordVm { funcList := [doubled] }) [5] rfl fun n =>
      deadWell_of_plain (by decide)
        (settled_run (.inr rfl) (WellNumbered.branchesInside (by decide) (by decide))
          rfl doubled [5] n)

/-- A coroutine that suspends for a future and does not use what it is woken with. -/
def sleeper : MirFunction where
  name := "sleeper"
  returnType := some .i64
  params := [{ name := "f", type := some .i64, valueId := 1 }]
  blocks := [{ insts := [{ op := .constInt 7, result := 2, type := some .i64 },
    { op := .suspend (some 1) 1, result := 3, type := some .i64 }, { op := .br (some 1) }]
               successors := [1] },
    { insts := [{ op := .ret 2 }], predecessors := [0] }]
  nextValueId := 4
  valueTypes := [none, some .i64, some .i64, some .i64]

/-- A load from its argument for nothing. -/
def prober : MirFunction where
  name := "prober"
  returnType := some .i64
  params := [{ name := "p", type := some .i64, valueId := 1 }]
  blocks := [{ insts := [{ op := .load 1, result := 2, type := some .i64 }, { op := .ret 1 }] }]
  nextValueId := 3
  valueTypes := [none, some .i64, some .i64]

/-- A move of its argument for nothing. -/
def mover : MirFunction where
  name := "mover"
  returnType := some .i64
  params := [{ name := "x", type := some .i64, valueId := 1 }]
  blocks := [{ insts := [{ op := .transfer .move 1, result := 2, type := some .i64 },
    { op := .ret 1 }] }]
  nextValueId := 3
  valueTypes := [none, some .i64, some .i64]

/-- The suspension of a verified function is deleted, which is not shown any more. Verified
functions trap at a load from null or return the zero that a move left, and return their
argument after the pass. -/
theorem dead_code_effects :
    (mirVerifyFunction sleeper = [] ∧
      (mirPassDeadCodeEliminate sleeper).1.insts 0 =
        [{ op := .constInt 7, result := 2, type := some .i64 }, { op := .br (some 1) }] ∧
      (runFor (traced (step wordHost (gotoLoop wordHost)) CvmConfig.suspensions) 4
        (cvmExecFunction wordHost (gotoLoop wordHost) [] (wordVm {}) sleeper [5], [])).2 =
        [(some 1, 5)] ∧
      (runFor (traced (step wordHost (gotoLoop wordHost)) CvmConfig.suspensions) 3
        (cvmExecFunction wordHost (gotoLoop wordHost) [] (wordVm {})
          (mirPassDeadCodeEliminate sleeper).1 [5], [])).2 = []) ∧
    (mirVerifyFunction prober = [] ∧
      (runFor (step wordHost (gotoLoop wordHost)) 2
        (cvmExecFunction wordHost (gotoLoop wordHost) [] (wordVm {}) prober [0])).result =
        some (0, 3) ∧
      (runFor (step wordHost (gotoLoop wordHost)) 2
        (cvmExecFunction wordHost (gotoLoop wordHost) [] (wordVm {})
          (mirPassDeadCodeEliminate prober).1 [0])).result = some (0, 0)) ∧
    mirVerifyFunction mover = [] ∧
      (runFor (step wordHost (gotoLoop wordHost)) 2
        (cvmExecFunction wordHost (gotoLoop wordHost) [] (wordVm {}) mover [9])).result =
        some (0, 0) ∧
      (runFor (step wordHost (gotoLoop wordHost)) 2
        (cvmExecFunction wordHost (gotoLoop wordHost) [] (wordVm {})
          (mirPassDeadCodeEliminate mover).1 [9])).result = some (9, 0) := by
  decide

end Casprix.Opt
