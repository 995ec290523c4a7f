import Casprix.Opt.CopyPropagate

/-! While a function in SSA form runs, a value and the values it is a copy of hold the same
wherever its definition dominates. -/
namespace Casprix.Opt

open List Mir Cvm Library

section

variable {func : MirFunction} {b c : MirBlockId} {j k : Nat} {inst : MirInst} {v x : MirValueId}
  {edges : List MirPhiEdge}

section

variable (hSsa : SsaForm func)
include hSsa

/-- A value that is a copy of another is the result of an instruction. -/
theorem CopyOf.definedAt (h : CopyOf func v x) (hOther : v ≠ x) :
    v ≠ 0 ∧ ∃ b k, DefinedAt func b k v := by
  cases h with
  | refl => exact absurd rfl hOther
  | copy hInst hOp hResult _ =>
    obtain ⟨b, k, hAt⟩ := MirFunction.exists_getElem?_of_mem hInst
    exact ⟨hResult, b, k, _, hAt, rfl⟩
  | phi hInst hOp _ _ =>
    obtain ⟨b, k, hAt⟩ := MirFunction.exists_getElem?_of_mem hInst
    exact ⟨hSsa.phiResult _ hInst (by rw [hOp]; rfl), b, k, _, hAt, rfl⟩

/-- The instruction that makes a value a copy of another. -/
theorem CopyOf.cases_at (h : CopyOf func inst.result x)
    (hOther : inst.result ≠ x) (hInst : (func.insts b)[k]? = some inst) :
    (∃ source, inst.op = .transfer .copy source ∧ CopyOf func source x) ∨
      ∃ edges, inst.op = .phi edges ∧ ∀ edge ∈ edges, CopyOf func edge.value x := by
  have hResult := (h.definedAt hSsa hOther).1
  generalize hValue : inst.result = v at h hOther
  cases h with
  | refl => exact absurd rfl hOther
  | @copy inst' source _ hMem hOp _ hSource =>
    have hSame := hSsa.inst_eq hInst hResult hMem hValue.symm
    exact .inl ⟨source, hSame ▸ hOp, hSource⟩
  | @phi inst' edges _ hMem hOp _ hEdges =>
    have hSame := hSsa.inst_eq hInst hResult hMem hValue.symm
    exact .inr ⟨edges, hSame ▸ hOp, hEdges⟩

/-- Where a copy is defined, what it is a copy of is available. -/
theorem CopyOf.availableAt (hUses : UsesDominated func) (hOrder : Orderly func)
    (h : CopyOf func v x) (hOther : v ≠ x) (hDefined : DefinedAt func b k v) :
    AvailableAt func b k x := by
  induction h generalizing b k with
  | refl => exact absurd rfl hOther
  | @copy inst' source x hMem hOp hResult hSource ih =>
    obtain ⟨inst, hInst, hValue⟩ := hDefined
    have hSame := hSsa.inst_eq hInst (hValue ▸ hResult) hMem hValue.symm
    subst hSame
    have hRead : AvailableAt func b k source := by
      refine hUses.uses b k inst' hInst (by rw [hOp]; rfl) source ?_
      rw [hOp]
      exact mem_singleton_self source
    by_cases hEnd : source = x
    · exact hEnd ▸ hRead
    · obtain ⟨hNonzero, c, j, hThere⟩ := hSource.definedAt hSsa hEnd
      exact (ih hEnd hThere).trans (hSsa.placeDominates hThere hNonzero hRead)
        (hOrder.reachable c (MirFunction.lt_of_getElem? hThere.choose_spec.1))
  | @phi inst' edges x hMem hOp hSome hEdges ih =>
    obtain ⟨inst, hInst, hValue⟩ := hDefined
    have hResult : inst'.result ≠ 0 := hSsa.phiResult inst' hMem (by rw [hOp]; rfl)
    have hSame := hSsa.inst_eq hInst (hValue ▸ hResult) hMem hValue.symm
    subst hSame
    refine AvailableAt.of_entry ?_ k
    refine availableAt_of_phi hSsa hUses hOrder hInst hOp fun edge hEdge => ?_
    by_cases hEnd : edge.value = x
    · exact .inl hEnd
    · obtain ⟨hNonzero, c, j, hThere⟩ := (hEdges edge hEdge).definedAt hSsa hEnd
      exact .inr ⟨c, j, hThere, hNonzero, ih edge hEdge hEnd hThere⟩

/-- What a PHI is a copy of is not defined in its block. -/
theorem not_definedAt_of_phi (hUses : UsesDominated func)
    (hOrder : Orderly func) (h : CopyOf func inst.result x)
    (hOther : inst.result ≠ x) (hx : x ≠ 0)
    (hInst : (func.insts b)[k]? = some inst) (hPhi : inst.op.isPhi = true) (j : Nat) :
    ¬DefinedAt func b j x := by
  intro hDefined
  rcases h.cases_at hSsa hOther hInst with ⟨source, hOp, _⟩ | ⟨edges, hOp, hEdges⟩
  · rw [hOp] at hPhi
    cases hPhi
  · have hEntry : AvailableAt func b 0 x := by
      refine availableAt_of_phi hSsa hUses hOrder hInst hOp fun edge hEdge => ?_
      by_cases hEnd : edge.value = x
      · exact .inl hEnd
      · obtain ⟨hNonzero, c, i, hThere⟩ := (hEdges edge hEdge).definedAt hSsa hEnd
        exact .inr ⟨c, i, hThere, hNonzero,
          (hEdges edge hEdge).availableAt hSsa hUses hOrder hEnd hThere⟩
    rcases hSsa.placeDominates hDefined hx hEntry with ⟨_, hNone⟩ | ⟨hSelf, _⟩
    · exact Nat.not_lt_zero j hNone
    · exact hSelf rfl

end

end

/-- No move takes a value that is a copy of another or has such a copy. -/
def MovesApart (func : MirFunction) : Prop :=
  ∀ inst ∈ func.blocks.flatMap (·.insts), ∀ source, inst.op = .transfer .move source →
    ∀ v x, CopyOf func v x → v ≠ x → source ≠ v ∧ source ≠ x

/-- Before the `k`-th instruction of block `b`: what is available there holds the same as what
it is a copy of. Among the leading PHIs this also goes for what was available at the end of the
block before, as long as no PHI has assigned what it is a copy of. -/
structure CopiesAgree (func : MirFunction) (frame : CvmFrame)
    (b : MirBlockId) (k : Nat) : Prop where
  values : ∀ v x, CopyOf func v x → v ≠ x → AvailableAt func b k v →
    frame.reg v = frame.reg x
  came : frame.prev = none ∧ b = 0 ∨ ∃ a, frame.prev = some a ∧ b ∈ func.targets a
  incoming : ∀ a, frame.prev = some a →
    (∀ j < k, ∀ inst, (func.insts b)[j]? = some inst → inst.op.isPhi = true) →
    ∀ v x, CopyOf func v x → v ≠ x → AvailableAtEnd func a v →
      (∀ j < k, ¬DefinedAt func b j x) →
    frame.reg v = frame.reg x

/-- What optimising copies away relies on. -/
structure CopyForm (func : MirFunction) : Prop where
  ssa : SsaForm func
  dominated : UsesDominated func
  orderly : Orderly func
  moves : MovesApart func

section

variable {func : MirFunction} {frame frame' : CvmFrame} {b : MirBlockId} {k : Nat} {inst : MirInst}
  {v x : MirValueId} {edges : List MirPhiEdge}

/-- The operand that a PHI reads is the one of an edge for where the machine came from. -/
theorem CopiesAgree.phiOperand (hForm : CopyForm func) (h : CopiesAgree func frame b k)
    (hInst : (func.insts b)[k]? = some inst) (hOp : inst.op = .phi edges) :
    ∃ a, frame.prev = some a ∧ b ∈ func.targets a ∧
      ∃ edge ∈ edges, edge.block = some a ∧
      phiOperand edges frame.prev = edge.value := by
  have hMem := mem_of_getElem? hInst
  rcases h.came with ⟨_, hEntry⟩ | ⟨a, hPrev, hEdge⟩
  · rw [hEntry] at hMem
    have hNotPhi := hForm.ssa.entryPhis inst hMem
    rw [hOp] at hNotPhi
    cases hNotPhi
  · obtain ⟨edge, hFind⟩ := hForm.ssa.phiEdges a b hEdge inst hMem edges hOp
    refine ⟨a, hPrev, hEdge, edge, mem_of_find?_eq_some hFind, ?_, ?_⟩
    · simpa using find?_some hFind
    · rw [Cvm.phiOperand, hPrev, hFind]

theorem phis_before (hForm : CopyForm func) (hInst : (func.insts b)[k]? = some inst)
    (hPhi : inst.op.isPhi = true) :
    ∀ j < k, ∀ earlier, (func.insts b)[j]? = some earlier → earlier.op.isPhi = true :=
  fun _ hBefore _ hEarlier => hForm.orderly.phis hBefore hEarlier hInst hPhi

/-- A PHI of copies of one value reads this value. -/
theorem CopiesAgree.reg_phiOperand (hForm : CopyForm func) (h : CopiesAgree func frame b k)
    (hInst : (func.insts b)[k]? = some inst) (hOp : inst.op = .phi edges)
    (hCopy : CopyOf func inst.result x) (hOther : inst.result ≠ x)
    (hEdges : ∀ edge ∈ edges, CopyOf func edge.value x) :
    frame.reg (Cvm.phiOperand edges frame.prev) = frame.reg x := by
  have hPhi : inst.op.isPhi = true := by
    rw [hOp]
    rfl
  obtain ⟨a, hPrev, _, edge, hEdge, hBlock, hOperand⟩ := h.phiOperand hForm hInst hOp
  rw [hOperand]
  by_cases hEnd : edge.value = x
  · rw [hEnd]
  · refine h.incoming a hPrev (phis_before hForm hInst hPhi) edge.value x (hEdges edge hEdge) hEnd
      (hForm.dominated.phis b k inst edges hInst hOp edge hEdge a hBlock) fun j hBefore hDefined =>
        ?_
    by_cases hZero : x = 0
    · obtain ⟨earlier, hEarlier, hResult⟩ := hDefined
      exact hForm.ssa.phiResult earlier (MirFunction.mem_flatMap_of_getElem? hEarlier)
        (phis_before hForm hInst hPhi j hBefore earlier hEarlier) (hResult.trans hZero)
    · exact not_definedAt_of_phi hForm.ssa hForm.dominated hForm.orderly hCopy
        hOther hZero hInst hPhi j
        hDefined

/-- The frame after an instruction of the function: it has assigned what a copy or a PHI reads,
and left the other registers alone, but for the source of a move. -/
structure AfterInst (frame frame' : CvmFrame) (inst : MirInst) : Prop where
  prev : frame'.prev = frame.prev
  others : ∀ id, id ≠ inst.result →
    (∀ source, inst.op = .transfer .move source → id ≠ source) →
    frame'.reg id = frame.reg id
  copy : ∀ source, inst.op = .transfer .copy source → inst.result ≠ 0 →
    frame'.reg inst.result = frame.reg source
  phi : ∀ edges, inst.op = .phi edges → inst.result ≠ 0 →
    frame'.reg inst.result = frame.reg (Cvm.phiOperand edges frame.prev)

theorem AfterInst.reg_eq (hForm : CopyForm func) (h : AfterInst frame frame' inst)
    (hInst : (func.insts b)[k]? = some inst) (hCopy : CopyOf func v x) (hOther : v ≠ x) :
    (inst.result ≠ v → frame'.reg v = frame.reg v) ∧
      (inst.result ≠ x → frame'.reg x = frame.reg x) := by
  have hMoves := hForm.moves inst (MirFunction.mem_flatMap_of_getElem? hInst)
  exact ⟨fun hNew => h.others v hNew.symm fun source hOp hSame =>
      (hMoves source hOp v x hCopy hOther).1 hSame.symm,
    fun hNew => h.others x hNew.symm fun source hOp hSame =>
      (hMoves source hOp v x hCopy hOther).2 hSame.symm⟩

section

variable (hForm : CopyForm func) (h : CopiesAgree func frame b k)
  (hInst : (func.insts b)[k]? = some inst)
include hForm h hInst

/-- A value that was just defined holds the same as what it is a copy of. -/
theorem CopiesAgree.defined (hAfter : AfterInst frame frame' inst)
    (hCopy : CopyOf func inst.result x) (hOther : inst.result ≠ x) :
    frame'.reg inst.result = frame'.reg x := by
  have hNonzero := (hCopy.definedAt hForm.ssa hOther).1
  rw [(hAfter.reg_eq hForm hInst hCopy hOther).2 hOther]
  rcases hCopy.cases_at hForm.ssa hOther hInst with ⟨source, hOp, hSource⟩ |
    ⟨edges, hOp, hEdges⟩
  · rw [hAfter.copy source hOp hNonzero]
    by_cases hEnd : source = x
    · rw [hEnd]
    · refine h.values source x hSource hEnd
        (hForm.dominated.uses b k inst hInst (by rw [hOp]; rfl) _ ?_)
      rw [hOp]
      exact mem_singleton_self source
  · rw [hAfter.phi edges hOp hNonzero]
    exact h.reg_phiOperand hForm hInst hOp hCopy hOther hEdges

theorem CopiesAgree.advance (hAfter : AfterInst frame frame' inst) :
    CopiesAgree func frame' b (k + 1) := by
  have hHere : ∀ {id}, inst.result = id → DefinedAt func b k id := fun hResult =>
    ⟨inst, hInst, hResult⟩
  refine ⟨fun v x hCopy hOther hAvailable =>
    ?_, ?_, fun a hPrev hPhis v x hCopy hOther hEnd hNot => ?_⟩
  · rcases availableAt_succ hAvailable with hOld | ⟨inst', hInst', hResult⟩
    · obtain ⟨hNonzero, c, i, hDefined⟩ := hCopy.definedAt hForm.ssa hOther
      have hBefore := hForm.ssa.placeDominates hDefined hNonzero hOld
      have hReachable := hForm.orderly.reachable b (MirFunction.lt_of_getElem? hInst)
      have hOwn : inst.result ≠ v := by
        intro hSame
        have hSelf := hForm.ssa.placeDominates (hHere hSame) hNonzero hOld
        exact hSelf.asymm hSelf hReachable
      have hSource : inst.result ≠ x ∨ x = 0 := by
        by_cases hZero : x = 0
        · exact .inr hZero
        · refine .inl fun hSame => ?_
          have hThere := hCopy.availableAt hForm.ssa hForm.dominated hForm.orderly hOther hDefined
          exact hBefore.asymm (hForm.ssa.placeDominates (hHere hSame) hZero hThere) hReachable
      rw [(hAfter.reg_eq hForm hInst hCopy hOther).1 hOwn, h.values v x hCopy hOther hOld]
      rcases hSource with hKept | hZero
      · rw [(hAfter.reg_eq hForm hInst hCopy hOther).2 hKept]
      · rw [hZero]
        rfl
    · cases hInst.symm.trans hInst'
      subst hResult
      exact h.defined hForm hInst hAfter hCopy hOther
  · rw [hAfter.prev]
    exact h.came
  · rw [hAfter.prev] at hPrev
    have hBefore := h.incoming a hPrev (fun j hj =>
      hPhis j (Nat.lt_succ_of_lt hj)) v x hCopy hOther hEnd
      fun j hj => hNot j (Nat.lt_succ_of_lt hj)
    have hSource : inst.result ≠ x := fun hSame => hNot k (Nat.lt_succ_self k) (hHere hSame)
    by_cases hOwn : inst.result = v
    · subst hOwn
      exact h.defined hForm hInst hAfter hCopy hOther
    · rw [(hAfter.reg_eq hForm hInst hCopy hOther).1 hOwn, hBefore,
        (hAfter.reg_eq hForm hInst hCopy hOther).2 hSource]

theorem CopiesAgree.enter (hTerm : inst.op.isTerminator = true) {c : MirBlockId}
    (hEdge : c ∈ func.targets b) (hReg : ∀ id, frame'.reg id = frame.reg id)
    (hPrev : frame'.prev = some b) : CopiesAgree func frame' c 0 := by
  have hEnds : ∀ v x, CopyOf func v x → v ≠ x → AvailableAtEnd func b v →
      frame'.reg v = frame'.reg x := by
    intro v x hCopy hOther hEnd
    rw [hReg, hReg]
    have hLast : k + 1 = (func.insts b).length := (hForm.orderly.ends hInst).mp hTerm
    unfold AvailableAtEnd at hEnd
    rw [← hLast] at hEnd
    rcases availableAt_succ hEnd with hOld | ⟨inst', hInst', hResult⟩
    · exact h.values v x hCopy hOther hOld
    · cases hInst.symm.trans hInst'
      subst hResult
      rcases hCopy.cases_at hForm.ssa hOther hInst with ⟨source, hOp, _⟩ | ⟨edges, hOp, _⟩
      · rw [hOp] at hTerm
        cases hTerm
      · rw [hOp] at hTerm
        cases hTerm
  refine ⟨fun v x hCopy hOther hAvailable =>
    hEnds v x hCopy hOther (availableAtEnd_of_enter hEdge hAvailable),
    .inr ⟨b, hPrev, hEdge⟩, fun a hCame _ v x hCopy hOther hEnd _ => ?_⟩
  cases hPrev.symm.trans hCame
  exact hEnds v x hCopy hOther hEnd

end

end

/-- A frame of the function stands before an instruction, and copies agree there. -/
def AgreesIn (func : MirFunction) (frame : CvmFrame) : Prop :=
  frame.func = func → ∀ b, frame.block = some b → ∃ k < (func.insts b).length,
    frame.rest = (func.insts b).drop k ∧ CopiesAgree func frame b k

section

variable {Heap : Type} {host : CvmHost Heap} {loop : CvmLoop Heap} {func : MirFunction}
  {frame frame' : CvmFrame} {vm vm' : CvmState Heap} {b : MirBlockId} {inst : MirInst}
  {rest : List MirInst}

theorem exec_copy (hLoop : loop = gotoLoop host ∨ loop = switchLoop host) {source : MirValueId}
    (hOp : inst.op = .transfer .copy source) : loop.exec frame inst vm =
      setNext frame inst.result (frame.reg source) (touch frame [source] vm) := by
  cases hLoop with
  | inl hGoto => simp [hGoto, gotoLoop, execGoto, CvmFrame.readIds, hOp]
  | inr hSwitch => simp [hSwitch, switchLoop, execSwitch, CvmFrame.readIds, hOp]

theorem reg_of_setNext {id : MirValueId} {v : CvmReg} (h : setNext frame id v vm = .next frame' vm')
    (hId : id ≠ 0) (hTrap : vm'.trapCode = 0) : frame'.reg id = v := by
  cases h
  exact reg_cvmRegSet_self hId hTrap

theorem afterInst_next (hLoop : loop = gotoLoop host ∨ loop = switchLoop host)
    (hExec : loop.exec frame inst vm = .next frame' vm') (hTrap : vm'.trapCode = 0) :
    AfterInst frame frame' inst where
  prev := (exec_advances hLoop hExec).prev
  others := by
    have hSpares : Spares frame inst (loop.exec frame inst vm) := exec_spares hLoop
    rw [hExec] at hSpares
    exact hSpares
  copy source hOp hResult := by
    rw [exec_copy hLoop hOp] at hExec
    exact reg_of_setNext hExec hResult hTrap
  phi edges hOp hResult := by
    have hPhi : inst.op.isPhi = true := by
      rw [hOp]
      rfl
    rw [exec_phi hLoop hPhi] at hExec
    have hSource : phiSource frame.prev inst = Cvm.phiOperand edges frame.prev := by
      rw [phiSource, hOp]
    rw [← hSource]
    exact reg_of_setNext hExec hResult hTrap

theorem afterInst_returns (hLoop : loop = gotoLoop host ∨ loop = switchLoop host)
    {callee : MirFunction}
    {args : List CvmReg} (hExec : loop.exec frame inst vm = .enter callee args vm') (value : CvmReg)
    (vm'' : CvmState Heap) : AfterInst frame (cvmRegSet frame inst.result value vm'').1 inst := by
  have hSpares : Spares frame inst (loop.exec frame inst vm) := exec_spares hLoop
  rw [hExec] at hSpares
  have hCall : isCall inst.op = true := hSpares
  refine ⟨(cvmRegSet_advances frame vm'' inst.result value).1.prev,
    fun id hOther _ => reg_cvmRegSet_of_ne hOther, fun source hOp => ?_, fun edges hOp => ?_⟩
  · rw [hOp] at hCall
    cases hCall
  · rw [hOp] at hCall
    cases hCall

theorem getElem?_of_drop {insts : List MirInst} {k : Nat} (h : insts.drop k = inst :: rest) :
    insts[k]? = some inst ∧ insts.drop (k + 1) = rest := by
  have hHead : (insts.drop k)[0]? = some inst := by
    rw [h]
    rfl
  rw [getElem?_drop, Nat.add_zero] at hHead
  refine ⟨hHead, ?_⟩
  rw [← drop_drop, h]
  rfl

section

variable (hForm : CopyForm func) (h : AgreesIn func frame) (hBlock : frame.block = some b)
  (hRest : frame.rest = inst :: rest)
include hForm h hBlock hRest

/-- A frame that goes on behind an instruction that is not the terminator. -/
theorem AgreesIn.advance
    (hTerm : inst.op.isTerminator = false) (hMoved : Advances (frame.fetch inst rest) frame')
    (hAfter : AfterInst (frame.fetch inst rest) frame' inst) : AgreesIn func frame' := by
  intro hFunc b' hBlock'
  have hOwn : frame.func = func := hMoved.func.symm.trans hFunc
  cases (hBlock'.symm.trans hMoved.block).trans hBlock
  obtain ⟨k, hk, hLeft, hAgree⟩ := h hOwn b hBlock
  obtain ⟨hInst, hNext⟩ := getElem?_of_drop (hLeft.symm.trans hRest)
  have hMore : k + 1 < (func.insts b).length := by
    refine lt_of_le_of_ne hk fun hEnd => ?_
    exact absurd (hTerm.symm.trans ((hForm.orderly.ends hInst).mpr hEnd)) Bool.false_ne_true
  refine ⟨k + 1, hMore, hMoved.rest.trans hNext.symm, ?_⟩
  have hFetched : CopiesAgree func (frame.fetch inst rest) b k := ⟨hAgree.1, hAgree.2, hAgree.3⟩
  exact hFetched.advance hForm hInst hAfter

theorem agreesIn_enter (hTerm : inst.op.isTerminator = true) {target : MirBlockRef}
    (hTarget : ∀ c, target = some c → c ∈ inst.op.targets) :
    AgreesIn func ((frame.fetch inst rest).enter target) := by
  intro hFunc c hEntered
  have hOwn : frame.func = func := hFunc
  have hInto : target = some c := hEntered
  obtain ⟨k, hk, hLeft, hAgree⟩ := h hOwn b hBlock
  obtain ⟨hInst, hNext⟩ := getElem?_of_drop (hLeft.symm.trans hRest)
  have hLast : k + 1 = (func.insts b).length := (hForm.orderly.ends hInst).mp hTerm
  have hWhole : func.insts b = (func.insts b).take k ++ [inst] := by
    have hDrop : (func.insts b).drop k = [inst] := by
      rw [← hLeft, hRest, ← hNext, hLast, drop_length]
    rw [← hDrop, take_append_drop]
  have hEdge : c ∈ func.targets b := by
    rw [MirFunction.targets_of_insts hWhole]
    exact hTarget c hInto
  have hListed := hForm.ssa.listed b c hEdge
  refine ⟨0, length_pos_iff.mpr (hForm.orderly.nonempty c hListed), ?_, ?_⟩
  · rw [hInto, ← hOwn]
    rfl
  · exact hAgree.enter hForm hInst hTerm hEdge (fun _ => rfl) hBlock

end

theorem agreesIn_startFrame (hForm : CopyForm func) (f : MirFunction) (args : List CvmReg) :
    AgreesIn func (startFrame f args) := by
  intro hFunc b hBlock
  have hSame : f = func := hFunc
  subst hSame
  simp only [startFrame] at hBlock
  split at hBlock
  · cases hBlock
  · next hSome =>
      cases hBlock
      have hEntry := hForm.orderly.nonempty 0 (length_pos_iff.mpr hSome)
      refine ⟨0, length_pos_iff.mpr hEntry, rfl, fun v x hCopy hOther hAvailable => ?_,
        .inl ⟨rfl, rfl⟩, fun a hPrev => by cases hPrev⟩
      obtain ⟨hNonzero, c, i, hDefined⟩ := hCopy.definedAt hForm.ssa hOther
      rcases hForm.ssa.placeDominates hDefined hNonzero hAvailable with ⟨_, hNone⟩ |
        ⟨hElse, hDominates⟩
      · cases hNone
      · exact absurd (.entry fun hSame => hElse hSame.symm) hDominates

section

variable (hLoop : loop = gotoLoop host ∨ loop = switchLoop host) (hForm : CopyForm func)
include hLoop hForm

/-- Copies agree in every frame of the function. -/
theorem frameInvariant_agreesIn :
    FrameInvariant loop fun frame (_ : CvmState Heap) => AgreesIn func frame where
  start f args _ _ := agreesIn_startFrame hForm f args
  falls {frame vm b} hFrame hBlock hRest := by
    intro hFunc
    have hOwn : frame.func = func := hFunc
    obtain ⟨k, hk, hLeft, _⟩ := hFrame hOwn b hBlock
    rw [hRest] at hLeft
    exact absurd (drop_eq_nil_iff.mp hLeft.symm) hk.not_ge
  next {frame frame' vm vm' b inst rest} hFrame hBlock hRest hExec hTrap := by
    obtain ⟨hTerm, hMoved⟩ := exec_next hLoop hExec
    exact hFrame.advance hForm hBlock hRest hTerm hMoved (afterInst_next hLoop hExec hTrap)
  jump {frame vm vm' b inst rest target} hFrame hBlock hRest hExec := by
    have hTargets := (exec_jump hLoop hExec).2
    intro hFunc c hEntered
    have hInto : target = some c := hEntered
    have hTerm := (isTerminator_of_mem_targets (hTargets c hInto)).1
    exact agreesIn_enter hForm hFrame hBlock hRest hTerm hTargets hFunc c hEntered
  returns {frame vm vm' vm'' b inst rest callee args} value hFrame hBlock hRest hExec hTrap := by
    have hSpares : Spares (frame.fetch inst rest) inst
        (loop.exec (frame.fetch inst rest) inst vm.tick) := exec_spares hLoop
    rw [hExec] at hSpares
    have hCall : isCall inst.op = true := hSpares
    have hTerm : inst.op.isTerminator = false := by
      cases hOp : inst.op with
      | call | callIndirect => rfl
      | _ =>
        rw [hOp] at hCall
        cases hCall
    exact hFrame.advance hForm hBlock hRest hTerm
      (cvmRegSet_advances (frame.fetch inst rest) vm'' inst.result value).1
      (afterInst_returns hLoop hExec value vm'')

theorem agreesIn_run (hTrap : vm.trapCode = 0) (start : MirFunction) (args : List CvmReg) (n : Nat)
    {callers : List CvmFrame}
    (hAt : runFor (step host loop) n (cvmExecFunction host loop [] vm start args) =
      .running frame callers vm') : AgreesIn func frame := by
  have hFrames := (frameInvariant_agreesIn hLoop hForm).run hLoop hTrap start args n
  rw [hAt] at hFrames
  exact hFrames.1

end

end

end Casprix.Opt
