import Casprix.Cvm.Phi

/-! What a function that the verifier accepts can rely on when the machine
runs it on computed gotos: the registers it reads were assigned, its blocks do
not end without a terminator, and its PHIs have an edge for where they came from. -/
namespace Casprix.Cvm

open List Mir Library Function Bool

/-- Every register an instruction other than a PHI may read. -/
def gotoReads : MirOp → List MirValueId
  | .binary _ lhs rhs => [lhs, rhs]
  | .unary _ operand _ => [operand]
  | .load ptr => [ptr]
  | .store ptr value => [ptr, value]
  | .getFieldPtr base _ _ => [base]
  | .getElemPtr base index => [base, index]
  | .condbr cond _ _ => [cond]
  | .switch discriminant _ _ => [discriminant]
  | .ret value => [value]
  | .call _ args _ | .callIndirect _ args _ => args.take 64
  | .transfer _ source => [source]
  | .extract aggregate _ => [aggregate]
  | _ => []

/-- An instruction among these assigns the value. -/
def Defines (insts : List MirInst) (id : MirValueId) : Prop :=
  ∃ inst ∈ insts, gotoAssigns inst.op = true ∧ inst.result = id

/-- The value is a parameter, or assigned by one of these instructions. -/
def DefinedBy (func : MirFunction) (insts : List MirInst) (id : MirValueId) : Prop :=
  id = 0 ∨ (∃ p ∈ func.params, p.valueId = id) ∨ Defines insts id

/-- What the verifier does not look at: branches stay in the block list, and
on every path from the entry block each operand is a parameter or assigned
before, and each PHI has an edge for the block before its own. -/
structure DefinedOnPaths (func : MirFunction) : Prop where
  body : func.isExtern = true → func.blocks = []
  listed : ∀ a b, b ∈ func.targets a → b < func.blocks.length
  reads : ∀ path b, func.IsEntryPath (path ++ [b]) → ∀ before inst after,
    func.insts b = before ++ inst :: after →
    ∀ id ∈ gotoReads inst.op, DefinedBy func (func.pathInsts path ++ before) id
  phis : ∀ path b, func.IsEntryPath (path ++ [b]) → ∀ before inst after edges,
    func.insts b = before ++ inst :: after → inst.op = .phi edges →
    ∃ edge, edges.find? (·.block == path.getLast?) = some edge ∧
      DefinedBy func (func.pathInsts path ++ before) edge.value

variable {id : MirValueId}

theorem Defines.mono {insts more : List MirInst} (h : Defines insts id) (hSub : insts ⊆ more) :
    Defines more id := by
  obtain ⟨inst, hInst, hId⟩ := h
  exact ⟨inst, hSub hInst, hId⟩

theorem Defines.of_append_singleton {insts : List MirInst} {inst : MirInst}
    (h : Defines (insts ++ [inst]) id) :
    Defines insts id ∨ (gotoAssigns inst.op = true ∧ inst.result = id) := by
  obtain ⟨a, ha, hId⟩ := h
  cases mem_append.mp ha with
  | inl hOld => exact .inl ⟨a, hOld, hId⟩
  | inr hNew => exact .inr (mem_singleton.mp hNew ▸ hId)

/-- The values known to be assigned after an instruction. -/
def knownAfter (known : List MirValueId) (inst : MirInst) : List MirValueId :=
  if gotoAssigns inst.op then inst.result :: known else known

/-- Every operand in a block is known where it is read. -/
def readsKnown : List MirValueId → List MirInst → Bool
  | _, [] => true
  | known, inst :: rest =>
    (gotoReads inst.op).all known.contains && readsKnown (knownAfter known inst) rest

/-- A PHI has an edge for a block at whose end these values are known. -/
def phiKnown (p : MirBlockId) (known : List MirValueId) (inst : MirInst) : Bool :=
  match inst.op with
  | .phi edges =>
    match edges.find? (·.block == some p) with
    | some edge => known.contains edge.value
    | none => false
  | _ => true

/-- The check the verifier does not make, given the values claimed to be
assigned wherever each block is entered. -/
def checkAvailable (func : MirFunction) (avail : MirBlockId → List MirValueId) : Bool :=
  !func.isExtern &&
  (avail 0).all (fun id => id == 0 || func.params.any (·.valueId == id)) &&
  (func.insts 0).all (!·.op.isPhi) &&
  (List.range func.blocks.length).all fun a =>
    readsKnown (avail a) (func.insts a) &&
    (func.targets a).all fun b =>
      let known := (func.insts a).foldl knownAfter (avail a)
      decide (b < func.blocks.length) && (avail b).all known.contains &&
        (func.insts b).all (phiKnown a known)

section

variable {func : MirFunction} {avail : MirBlockId → List MirValueId} {known : List MirValueId}
  {insts more : List MirInst} {inst : MirInst} {a b : MirBlockId}

theorem DefinedBy.mono (h : DefinedBy func insts id) (hSub : insts ⊆ more) :
    DefinedBy func more id :=
  h.imp_right fun h => h.imp_right fun h => h.mono hSub

theorem definedBy_foldl_knownAfter (h : ∀ id ∈ known, DefinedBy func insts id) :
    ∀ id ∈ more.foldl knownAfter known, DefinedBy func (insts ++ more) id := by
  induction more generalizing known insts with
  | nil => simpa using h
  | cons inst more ih =>
    have hNext : ∀ id ∈ knownAfter known inst, DefinedBy func (insts ++ [inst]) id := by
      intro id hId
      have hOld : ∀ id ∈ known, DefinedBy func (insts ++ [inst]) id := fun id hId =>
        (h id hId).mono (subset_append_left ..)
      unfold knownAfter at hId
      split at hId
      · next hAssigns =>
          rcases mem_cons.mp hId with rfl | hId
          · exact .inr (.inr ⟨inst, mem_append_right _ mem_cons_self, hAssigns, rfl⟩)
          · exact hOld id hId
      · exact hOld id hId
    rw [append_cons]
    exact ih hNext

theorem mem_of_readsKnown {before after : List MirInst}
    (h : readsKnown known (before ++ inst :: after) = true) :
    ∀ id ∈ gotoReads inst.op, id ∈ before.foldl knownAfter known := by
  induction before generalizing known with
  | nil =>
    rw [nil_append, readsKnown, and_eq_true] at h
    exact fun id hId => contains_iff_mem.mp (all_eq_true.mp h.1 id hId)
  | cons first before ih =>
    rw [cons_append, readsKnown, and_eq_true] at h
    exact ih h.2

section

variable (h : checkAvailable func avail = true)
include h

theorem checkAvailable_block (ha : a < func.blocks.length) :
    readsKnown (avail a) (func.insts a) = true ∧ ∀ b ∈ func.targets a,
      b < func.blocks.length ∧
      (∀ id ∈ avail b, id ∈ (func.insts a).foldl knownAfter (avail a)) ∧
      ∀ inst ∈ func.insts b, phiKnown a
        ((func.insts a).foldl knownAfter (avail a)) inst = true := by
  simp only [checkAvailable, and_eq_true, all_eq_true, mem_range] at h
  obtain ⟨hReads, hTargets⟩ := h.2 a ha
  refine ⟨hReads, fun b hb => ?_⟩
  obtain ⟨⟨hListed, hFlow⟩, hPhis⟩ := hTargets b hb
  exact ⟨of_decide_eq_true hListed, fun id hId => contains_iff_mem.mp (hFlow id hId), hPhis⟩

/-- On every path into a block, its available values are assigned. -/
theorem definedBy_of_isEntryPath {path : List MirBlockId} (hPath : func.IsEntryPath (path ++ [b])) :
    ∀ id ∈ avail b, DefinedBy func (func.pathInsts path) id := by
  induction path using List.reverseRecOn generalizing b with
  | nil =>
    have hb : b = 0 := Option.some.inj hPath.entry
    simp only [checkAvailable, and_eq_true, all_eq_true] at h
    intro id hId
    have hEntry := h.1.1.2 id (hb ▸ hId)
    rw [or_eq_true, beq_iff_eq, any_eq_true] at hEntry
    exact hEntry.imp_right fun ⟨p, hp, hValue⟩ => .inl ⟨p, hp, beq_iff_eq.mp hValue⟩
  | append_singleton front a ih =>
    obtain ⟨hFront, hEdge⟩ := MirFunction.isEntryPath_concat_iff.mp hPath
    obtain ⟨_, hTargets⟩ := checkAvailable_block h (MirFunction.lt_of_mem_targets hEdge)
    intro id hId
    have hKnown := (hTargets b hEdge).2.1 id hId
    rw [MirFunction.pathInsts_concat]
    exact definedBy_foldl_knownAfter (ih hFront) id hKnown

/-- A function that passes the check has its operands defined on every path. -/
theorem definedOnPaths_of_checkAvailable :
    DefinedOnPaths func := by
  have hParts := h
  simp only [checkAvailable, and_eq_true, all_eq_true] at hParts
  constructor
  · intro hExtern
    simp [hExtern] at hParts
  · intro a b hb
    exact ((checkAvailable_block h (MirFunction.lt_of_mem_targets hb)).2 b hb).1
  · intro path b hPath before inst after hInsts id hId
    have hReads := (checkAvailable_block h (MirFunction.lt_of_insts hInsts)).1
    rw [hInsts] at hReads
    exact definedBy_foldl_knownAfter (definedBy_of_isEntryPath h hPath) id
      (mem_of_readsKnown hReads id hId)
  · intro path b hPath before inst after edges hInsts hOp
    have hInst : inst ∈ func.insts b := hInsts ▸ mem_append_right _ mem_cons_self
    cases path using List.reverseRecOn with
    | nil =>
      have hb : b = 0 := Option.some.inj hPath.entry
      have hNotPhi := hParts.1.2 inst (hb ▸ hInst)
      simp [hOp, MirOp.isPhi] at hNotPhi
    | append_singleton front a =>
      obtain ⟨hFront, hEdge⟩ := MirFunction.isEntryPath_concat_iff.mp hPath
      have hPhi := ((checkAvailable_block h (MirFunction.lt_of_mem_targets hEdge)).2 b hEdge).2.2
        inst hInst
      simp only [phiKnown, hOp] at hPhi
      rw [getLast?_concat]
      split at hPhi
      · next edge hFound =>
          refine ⟨edge, hFound, ?_⟩
          have hKnown := definedBy_foldl_knownAfter (definedBy_of_isEntryPath h hFront) edge.value
            (contains_iff_mem.mp hPhi)
          rw [MirFunction.pathInsts_concat]
          exact hKnown.mono (subset_append_left ..)
      · cases hPhi

end

end

/-- The register was assigned since the call began, or holds an argument. -/
def CvmFrame.Assigned (frame : CvmFrame) (id : MirValueId) : Prop :=
  id = 0 ∨ (∃ p ∈ frame.func.params, p.valueId = id) ∨ (frame.regs id).isSome = true

/-- What the next step of a frame must not do: go on behind the last
instruction of a block, read a register that was not assigned, or execute a
PHI that has no edge for the block it came from. -/
structure CvmFrame.Safe (frame : CvmFrame) (trapCode : Nat) : Prop where
  terminated : ∀ b, frame.block = some b → frame.rest ≠ []
  reads : ∀ b inst rest, frame.block = some b → frame.rest = inst :: rest →
    ∀ id ∈ frame.readIds trapCode inst.op, frame.Assigned id
  phis : ∀ b inst rest edges, frame.block = some b → frame.rest = inst :: rest →
    inst.op = .phi edges → ∃ edge ∈ edges, edge.block = frame.prev

/-- The frame has moved on within its block, and no register was lost. -/
structure Advances (frame frame' : CvmFrame) : Prop where
  func : frame'.func = frame.func
  block : frame'.block = frame.block
  prev : frame'.prev = frame.prev
  rest : frame'.rest = frame.rest
  regs : ∀ id, (frame.regs id).isSome = true → (frame'.regs id).isSome = true

section

variable {Heap : Type} {host : CvmHost Heap} {frame frame' : CvmFrame} {vm vm' : CvmState Heap}
  {inst : MirInst} {id : MirValueId} {v : CvmReg}

/-- The register is assigned, unless the call is about to end. -/
def Writes (id : MirValueId) (frame : CvmFrame) (vm : CvmState Heap) : Prop :=
  vm.trapCode = 0 → id = 0 ∨ (frame.regs id).isSome = true

theorem Advances.refl (frame : CvmFrame) : Advances frame frame :=
  ⟨rfl, rfl, rfl, rfl, fun _ h => h⟩

variable (frame id v) in
theorem advances_update :
    Advances frame { frame with regs := update frame.regs id (some v) } := by
  refine ⟨rfl, rfl, rfl, rfl, fun other hOther => ?_⟩
  show (update frame.regs id (some v) other).isSome = true
  rw [update_apply]
  split
  · rfl
  · exact hOther

variable (frame id v vm) in
theorem cvmRegSet_advances : Advances frame (cvmRegSet frame id v vm).1 ∧
    Writes id (cvmRegSet frame id v vm).1 (cvmRegSet frame id v vm).2 := by
  unfold cvmRegSet
  split
  · next hZero => exact ⟨.refl frame, fun _ => .inl hZero⟩
  · split
    · exact ⟨.refl frame, nofun⟩
    · refine ⟨advances_update frame id v, fun _ => .inr ?_⟩
      show (update frame.regs id (some v) id).isSome = true
      rw [update_self]
      rfl

theorem clearMoved_advances : Advances frame (clearMoved frame id) := by
  unfold clearMoved
  split
  · exact .refl frame
  · exact advances_update frame id 0

theorem Advances.trans {frame'' : CvmFrame} (h : Advances frame frame')
    (h' : Advances frame' frame'') : Advances frame frame'' :=
  ⟨h'.func.trans h.func, h'.block.trans h.block, h'.prev.trans h.prev, h'.rest.trans h.rest,
    fun id hId => h'.regs id (h.regs id hId)⟩

/-- What an instruction may do: the block goes on with its result assigned,
another of its blocks is entered, or a call is made whose result is to be assigned. -/
def Follows (frame : CvmFrame) (inst : MirInst) : CvmOutcome Heap → Prop
  | .next frame' vm' => inst.op.isTerminator = false ∧ Advances frame frame' ∧
      (gotoAssigns inst.op = true → Writes inst.result frame' vm')
  | .jump target _ => ∀ b, target = some b → b ∈ inst.op.targets
  | .enter .. => inst.op.isTerminator = false
  | .done .. | .crash => True

theorem next_of_effect {idle : Prop} (h : Effect idle frame inst vm (.next frame' vm')) :
    inst.op.isTerminator = false ∧ Advances frame frame' ∧
      (gotoAssigns inst.op = true → idle ∨ Writes inst.result frame' vm') := by
  cases h with
  | set allocas value vm'' hTerm =>
    have hAllocas : Advances frame { frame with allocas := allocas } :=
      ⟨rfl, rfl, rfl, rfl, fun _ h => h⟩
    obtain ⟨hFrame, hWrites⟩ :=
      cvmRegSet_advances { frame with allocas := allocas } vm'' inst.result value
    exact ⟨hTerm, hAllocas.trans hFrame, fun _ => .inr hWrites⟩
  | keep _ hTerm hIdle => exact ⟨hTerm, .refl frame, fun hAssigns => .inl (hIdle hAssigns)⟩
  | move source vm'' hOp =>
    obtain ⟨hFrame, hWrites⟩ := cvmRegSet_advances frame vm'' inst.result (frame.reg source)
    have hCleared : Advances (cvmRegSet frame inst.result (frame.reg source) vm'').1
      (clearMoved (cvmRegSet frame inst.result (frame.reg source) vm'').1 source) :=
      clearMoved_advances
    exact ⟨by rw [hOp]; rfl, hFrame.trans hCleared, fun _ => .inr fun hTrap =>
      (hWrites hTrap).imp_right (hCleared.regs inst.result)⟩

theorem follows_of_effect {outcome : CvmOutcome Heap} (h : Effect False frame inst vm outcome) :
    Follows frame inst outcome := by
  cases outcome with
  | next frame' vm' =>
    obtain ⟨hTerm, hFrame, hWrites⟩ := next_of_effect h
    exact ⟨hTerm, hFrame, fun hAssigns => (hWrites hAssigns).resolve_left id⟩
  | jump target vm' =>
    cases h with
    | jump _ _ hVm hTarget => exact hTarget
  | enter callee args vm' =>
    cases h with
    | enter hCall hEnter =>
      cases hOp : inst.op with
      | call | callIndirect => rw [Follows, hOp]; rfl
      | _ => rw [hOp] at hCall; cases hCall
  | done | crash => trivial

end

/-- Where a frame of the function is: the blocks it came through, the block it
is in and the instructions executed there, all of whose results are assigned. -/
structure Tracks (func : MirFunction) (frame : CvmFrame) (path : List MirBlockId) (b : MirBlockId)
    (before : List MirInst) : Prop where
  sameFunc : frame.func = func
  entryPath : func.IsEntryPath (path ++ [b])
  block : frame.block = some b
  prev : frame.prev = path.getLast?
  insts : func.insts b = before ++ frame.rest
  ends : ∃ term, frame.rest.getLast? = some term ∧ term.op.isTerminator = true
  assigned : ∀ id, Defines (func.pathInsts path ++ before) id → id = 0 ∨
    (frame.regs id).isSome = true

/-- The frames of this call's callers are still there below. -/
def CvmConfig.Within {Heap : Type} (callers : List CvmFrame) : CvmConfig Heap → Prop
  | .running _ frames _ => callers <:+ frames
  | _ => False

/-- A call of the function that goes on: its frame is the innermost one, has
branched to null, or waits for a call that it made. -/
inductive Activation {Heap : Type} (func : MirFunction) (callers : List CvmFrame) :
    CvmConfig Heap → Prop
  | active {frame : CvmFrame} {vm : CvmState Heap} {path : List MirBlockId} {b : MirBlockId}
      {before : List MirInst} (tracks : Tracks func frame path b before) :
      Activation func callers (.running frame callers vm)
  | fallen {frame : CvmFrame} {vm : CvmState Heap} (sameFunc : frame.func = func)
      (block : frame.block = none) : Activation func callers (.running frame callers vm)
  | waiting {inner frame : CvmFrame} {others : List CvmFrame} {vm : CvmState Heap}
      {path : List MirBlockId} {b : MirBlockId} {before rest : List MirInst} {inst : MirInst}
      (tracks : Tracks func frame path b before) (calls : frame.rest = inst :: rest)
      (notTerm : inst.op.isTerminator = false) :
      Activation func callers (.running inner (others ++ frame.fetch inst rest :: callers) vm)

section

variable {Heap : Type} {host : CvmHost Heap} {func : MirFunction} {frame frame' : CvmFrame}
  {callers others : List CvmFrame} {vm vm' : CvmState Heap} {path : List MirBlockId}
  {b : MirBlockId} {before rest : List MirInst} {inst : MirInst} {value : CvmReg}
  {c c' : CvmConfig Heap}

theorem DefinedBy.assigned (h : Tracks func frame path b before)
    (hId : DefinedBy func (func.pathInsts path ++ before) id) : frame.Assigned id := by
  rcases hId with hZero | hParam | hDefined
  · exact .inl hZero
  · exact .inr (.inl (h.sameFunc.symm ▸ hParam))
  · exact (h.assigned id hDefined).imp_right .inr

theorem mem_gotoReads {trapCode : Nat} {op : MirOp} (hPhi : op.isPhi = false)
    (h : id ∈ frame.readIds trapCode op) : id ∈ gotoReads op := by
  cases op with
  | phi => cases hPhi
  | call | callIndirect =>
    simp only [CvmFrame.readIds] at h
    split at h
    · exact h
    · cases h
  | store ptr value =>
    simp only [CvmFrame.readIds] at h
    split at h
    · exact mem_cons.mpr (.inl (mem_singleton.mp h))
    · exact h
  | binary op lhs rhs =>
    cases op with
    | logicAnd | logicOr =>
      simp only [CvmFrame.readIds] at h
      split at h <;> simp_all [gotoReads]
    | _ => exact h
  | _ => exact h

section

variable (h : Tracks func frame path b before)
include h

theorem Tracks.safe (hDefined : DefinedOnPaths func) (trapCode : Nat) : frame.Safe trapCode := by
  have hPhi : ∀ inst rest edges, frame.rest = inst :: rest → inst.op = .phi edges →
      ∃ edge, edges.find? (·.block == frame.prev) = some edge ∧ frame.Assigned edge.value := by
    intro inst rest edges hRest hOp
    have hInsts := h.insts
    rw [hRest] at hInsts
    obtain ⟨edge, hEdge, hValue⟩ :=
      hDefined.phis path b h.entryPath before inst rest edges hInsts hOp
    rw [← h.prev] at hEdge
    exact ⟨edge, hEdge, hValue.assigned h⟩
  constructor
  · intro _ _ hRest
    obtain ⟨term, hLast, _⟩ := h.ends
    rw [hRest] at hLast
    cases hLast
  · intro _ inst rest _ hRest id hId
    cases hOp : inst.op.isPhi with
    | true =>
      cases hEdges : inst.op with
      | phi edges =>
        obtain ⟨edge, hEdge, hValue⟩ := hPhi inst rest edges hRest hEdges
        rw [hEdges, CvmFrame.readIds, mem_singleton, phiOperand, hEdge] at hId
        exact hId ▸ hValue
      | _ => simp [hEdges, MirOp.isPhi] at hOp
    | false =>
      have hInsts := h.insts
      rw [hRest] at hInsts
      exact (hDefined.reads path b h.entryPath before inst rest hInsts id
        (mem_gotoReads hOp hId)).assigned h
  · intro _ inst rest edges _ hRest hOp
    obtain ⟨edge, hEdge, _⟩ := hPhi inst rest edges hRest hOp
    exact ⟨edge, mem_of_find?_eq_some hEdge, by simpa using find?_some hEdge⟩

theorem Tracks.advance (hRest : frame.rest = inst :: rest)
    (hTerm : inst.op.isTerminator = false) (hFrame : Advances (frame.fetch inst rest) frame')
    (hWrites : gotoAssigns inst.op = true →
      inst.result = 0 ∨ (frame'.regs inst.result).isSome = true) :
    Tracks func frame' path b (before ++ [inst]) := by
  have hInsts := h.insts
  have ⟨term, hLast, hEnd⟩ := h.ends
  rw [hRest] at hInsts hLast
  refine ⟨hFrame.func.trans h.sameFunc, h.entryPath, hFrame.block.trans h.block,
    hFrame.prev.trans h.prev, ?_, ⟨term, ?_, hEnd⟩, fun id hId => ?_⟩
  · rw [hInsts, hFrame.rest, append_assoc]
    rfl
  · rw [hFrame.rest]
    cases rest with
    | nil =>
      cases hLast
      exact absurd (hTerm.symm.trans hEnd) false_ne_true
    | cons next rest => exact getLast?_cons_cons ▸ hLast
  · rw [← append_assoc] at hId
    rcases hId.of_append_singleton with hOld | ⟨hAssigns, hResult⟩
    · exact (h.assigned id hOld).imp_right (hFrame.regs id)
    · exact hResult ▸ hWrites hAssigns

theorem Tracks.branch (hRest : frame.rest = [inst])
    (hTerm : gotoAssigns inst.op = false) {target : MirBlockId}
    (hTarget : target ∈ inst.op.targets)
    (hEnds : ∃ term, (func.insts target).getLast? = some term ∧ term.op.isTerminator = true) :
    Tracks func ((frame.fetch inst []).enter (some target)) (path ++ [b]) target [] := by
  have hInsts := h.insts
  rw [hRest] at hInsts
  have hEdge : target ∈ func.targets b := MirFunction.targets_of_insts hInsts ▸ hTarget
  have hSame : ((frame.fetch inst []).enter (some target)).rest = func.insts target :=
    congrArg (MirFunction.insts · target) h.sameFunc
  refine ⟨h.sameFunc, MirFunction.isEntryPath_concat_iff.mpr ⟨h.entryPath, hEdge⟩, rfl, ?_,
    hSame.symm, hSame.symm ▸ hEnds, ?_⟩
  · rw [getLast?_concat]
    exact h.block
  · intro id hId
    rw [append_nil, MirFunction.pathInsts_concat, hInsts, ← append_assoc] at hId
    rcases hId.of_append_singleton with hOld | ⟨hAssigns, _⟩
    · exact h.assigned id hOld
    · exact absurd (hTerm.symm.trans hAssigns) false_ne_true

end

theorem not_within_resume : ¬(resume host callers vm value).Within callers := by
  have hShorter : ∀ (callers : List CvmFrame) (vm : CvmState Heap) (value : CvmReg)
      (frame : CvmFrame) (frames : List CvmFrame) (vm' : CvmState Heap),
      resume host callers vm value = .running frame frames vm' →
        frames.length < callers.length := by
    intro callers
    induction callers with
    | nil => exact fun vm value frame frames vm' h => by cases h
    | cons caller callers ih =>
      intro vm value frame frames vm' h
      simp only [resume] at h
      split at h
      · exact Nat.lt_succ_of_lt (ih _ _ _ _ _ h)
      · cases h
        exact Nat.lt_add_one _
  intro hWithin
  cases h : resume host callers vm value with
  | returned | crashed =>
    rw [h] at hWithin
    exact hWithin
  | running frame frames vm' =>
    rw [h] at hWithin
    exact absurd hWithin.length_le ((hShorter callers vm value frame frames vm' h).not_ge)

theorem not_within_resume_of_trap (hTrap : vm.trapCode ≠ 0) (frames : List CvmFrame) :
    ¬(resume host frames vm value).Within callers := by
  have hReturns : ∃ v vm', resume host frames vm value = .returned v vm' ∧ vm'.trapCode ≠ 0 :=
    resume_of_trap host hTrap
  obtain ⟨v, vm', hReturned, _⟩ := hReturns
  rw [hReturned]
  exact id

theorem activation_of_resume (h : Tracks func frame path b before)
    (hRest : frame.rest = inst :: rest) (hTerm : inst.op.isTerminator = false)
    (hWithin : (resume host (others ++ frame.fetch inst rest :: callers) vm value).Within callers) :
    Activation func callers (resume host
      (others ++ frame.fetch inst rest :: callers) vm value) := by
  cases others with
  | nil =>
    simp only [nil_append, resume] at hWithin ⊢
    split at hWithin
    · exact absurd hWithin not_within_resume
    · next hGoesOn =>
        rw [if_neg hGoesOn]
        obtain ⟨hFrame, hWrites⟩ :=
          cvmRegSet_advances (frame.fetch inst rest) vm inst.result value
        exact .active (h.advance hRest hTerm hFrame fun _ => hWrites (not_not.mp hGoesOn))
  | cons other others =>
    simp only [cons_append, resume] at hWithin ⊢
    split at hWithin
    · next hTrap => exact absurd hWithin (not_within_resume_of_trap (by exact hTrap) _)
    · next hGoesOn =>
        rw [if_neg hGoesOn]
        exact .waiting h hRest hTerm

theorem step_running_cases {loop : CvmLoop Heap}
    (h : step host loop (.running frame callers vm) = some c) :
    (∃ frame' vm', c = .running frame' callers vm') ∨
    (∃ vm' value, c = resume host callers vm' value) ∨
    (∃ frame' outer vm', c = .running frame' (outer :: callers) vm') ∨
    ∀ callers, ¬c.Within callers := by
  cases hBlock : frame.block with
  | none =>
    simp only [step, hBlock, Option.some.injEq] at h
    exact .inr (.inl ⟨_, _, h.symm⟩)
  | some b =>
    cases hRest : frame.rest with
    | nil =>
      simp only [step, hBlock, hRest, Option.some.injEq] at h
      exact .inl ⟨_, _, h.symm⟩
    | cons inst rest =>
      simp only [step, hBlock, hRest, Option.some.injEq] at h
      subst h
      cases loop.exec (frame.fetch inst rest) inst vm.tick with
      | next frame' vm' =>
        simp only [settle]
        split
        · exact .inr (.inl ⟨_, _, rfl⟩)
        · exact .inl ⟨_, _, rfl⟩
      | jump target vm' => exact .inl ⟨_, _, rfl⟩
      | done value vm' => exact .inr (.inl ⟨_, _, rfl⟩)
      | enter callee args vm' =>
        simp only [settle, cvmExecFunction]
        split
        · exact .inr (.inr (.inr fun callers =>
            not_within_resume_of_trap (Nat.succ_ne_zero 1) _))
        · split
          · exact .inr (.inr (.inl ⟨_, _, _, rfl⟩))
          · exact .inr (.inr (.inr fun _ => id))
      | crash => exact .inr (.inr (.inr fun _ => id))

theorem isTerminator_of_mem_targets {op : MirOp} (h : b ∈ op.targets) :
    op.isTerminator = true ∧ gotoAssigns op = false := by
  cases op with
  | br | condbr | switch => exact ⟨rfl, rfl⟩
  | _ => cases h

section

variable (hListed : ∀ a b, b ∈ func.targets a → b < func.blocks.length)
  (hBlocks : ∀ b block, func.block? b = some block → BlockAccepted func b block)
include hListed hBlocks

theorem activation_settle (h : Tracks func frame path b before) (hRest : frame.rest = inst :: rest)
    {outcome : CvmOutcome Heap} (hFollows : Follows (frame.fetch inst rest) inst outcome)
    (hWithin : (settle host (gotoLoop host)
      (frame.fetch inst rest) callers outcome).Within callers) :
    Activation func callers (settle host (gotoLoop host)
      (frame.fetch inst rest) callers outcome) := by
  cases outcome with
  | next frame' vm' =>
    obtain ⟨hTerm, hFrame, hWrites⟩ := hFollows
    simp only [settle] at hWithin ⊢
    split at hWithin
    · exact absurd hWithin not_within_resume
    · next hGoesOn =>
        rw [if_neg hGoesOn]
        have hNoTrap : vm'.trapCode = 0 := not_not.mp hGoesOn
        exact .active (h.advance hRest hTerm hFrame fun hAssigns => hWrites hAssigns hNoTrap)
  | jump target vm' =>
    cases target with
    | none => exact .fallen h.sameFunc rfl
    | some target =>
      have hTarget := hFollows target rfl
      obtain ⟨hTerm, hNoWrite⟩ := isTerminator_of_mem_targets hTarget
      have hInsts := h.insts
      rw [hRest] at hInsts
      obtain ⟨block, hBlock⟩ := MirFunction.exists_block? (MirFunction.lt_of_insts hInsts)
      have hLast : rest = [] := (hBlocks b block hBlock).terminates.2 before inst rest
        (MirFunction.insts_of_block? hBlock ▸ hInsts) hTerm
      subst hLast
      have hEdge := hListed b target (MirFunction.targets_of_insts hInsts ▸ hTarget)
      obtain ⟨next, hNext⟩ := MirFunction.exists_block? hEdge
      have hEnds := (hBlocks target next hNext).terminates.1
      rw [← MirFunction.insts_of_block? hNext] at hEnds
      exact .active (h.branch hRest hNoWrite hTarget hEnds)
  | done value vm' => exact absurd hWithin not_within_resume
  | enter callee args vm' =>
    simp only [settle, cvmExecFunction] at hWithin ⊢
    split at hWithin
    · exact absurd hWithin (not_within_resume_of_trap (Nat.succ_ne_zero 1) _)
    · next hDepth =>
        rw [if_neg hDepth]
        split at hWithin
        · next hOk =>
            rw [if_pos hOk]
            show Activation func callers (.running _ ([] ++ frame.fetch inst rest :: callers) vm')
            exact .waiting h hRest hFollows
        · exact hWithin.elim
  | crash => exact hWithin.elim

theorem Activation.step
    (h : Activation func callers c) (hStep : step host (gotoLoop host) c = some c')
    (hWithin : c'.Within callers) : Activation func callers c' := by
  cases h with
  | @active frame vm path b before tracks =>
    cases hRest : frame.rest with
    | nil =>
      obtain ⟨term, hLast, _⟩ := tracks.ends
      rw [hRest] at hLast
      cases hLast
    | cons inst rest =>
      simp only [Cvm.step, tracks.block, hRest, Option.some.injEq] at hStep
      subst hStep
      exact activation_settle hListed hBlocks tracks hRest
        (follows_of_effect (execGoto_effect ..)) hWithin
  | fallen sameFunc block =>
    simp only [Cvm.step, block, Option.some.injEq] at hStep
    exact absurd hWithin (hStep ▸ not_within_resume)
  | @waiting inner frame others vm path b before rest inst tracks calls notTerm =>
    rcases step_running_cases hStep with
      ⟨_, _, rfl⟩ | ⟨_, _, rfl⟩ | ⟨_, outer, _, rfl⟩ | hOver
    · exact .waiting tracks calls notTerm
    · exact activation_of_resume tracks calls notTerm hWithin
    · show Activation func callers
        (.running _ ((outer :: others) ++ frame.fetch inst rest :: callers) _)
      exact .waiting tracks calls notTerm
    · exact absurd hWithin (hOver callers)

end

theorem Activation.innermost (h : Activation func callers (.running frame callers vm)) :
    (∃ path b before, Tracks func frame path b before) ∨
      (frame.func = func ∧ frame.block = none) := by
  generalize hConfig : CvmConfig.running frame callers vm = c at h
  cases h with
  | active tracks =>
    cases hConfig
    exact .inl ⟨_, _, _, tracks⟩
  | fallen sameFunc block =>
    cases hConfig
    exact .inr ⟨sameFunc, block⟩
  | waiting =>
    have hFrames := congrArg List.length (CvmConfig.running.inj hConfig).2.1
    simp at hFrames
    omega

end

theorem CvmFrame.safe_of_block_eq_none {frame : CvmFrame} {trapCode : Nat}
    (h : frame.block = none) : frame.Safe trapCode := by
  constructor
  · exact fun b hBlock => absurd (h.symm.trans hBlock) (Option.some_ne_none b).symm
  · exact fun b _ _ hBlock => absurd (h.symm.trans hBlock) (Option.some_ne_none b).symm
  · exact fun b _ _ _ hBlock => absurd (h.symm.trans hBlock) (Option.some_ne_none b).symm

theorem activation_cvmExecFunction {Heap : Type} {host : CvmHost Heap} {func : MirFunction}
    {callers : List CvmFrame} {vm : CvmState Heap} {args : List CvmReg}
    (hBlocks : ∀ b block, func.block? b = some block → BlockAccepted func b block)
    (hWithin : (cvmExecFunction host (gotoLoop host) callers vm func args).Within callers) :
    Activation func callers (cvmExecFunction host (gotoLoop host) callers vm func args) := by
  unfold cvmExecFunction at hWithin ⊢
  split at hWithin
  · exact absurd hWithin not_within_resume
  · next hDepth =>
      rw [if_neg hDepth]
      split at hWithin
      · next hOk =>
          rw [if_pos hOk]
          have hInsts : func.insts 0 ≠ [] := by simpa [gotoLoop] using hOk
          have hEntry : 0 < func.blocks.length := by
            by_contra hOut
            exact hInsts (MirFunction.insts_eq_nil (Nat.le_of_not_lt hOut))
          obtain ⟨block, hBlock⟩ := MirFunction.exists_block? hEntry
          have hEnds := (hBlocks 0 block hBlock).terminates.1
          rw [← MirFunction.insts_of_block? hBlock] at hEnds
          have hStart : (startFrame func args).block = some 0 :=
            if_neg (ne_nil_of_length_pos hEntry)
          have hNone : ∀ id, Defines (func.pathInsts [] ++ []) id →
              id = 0 ∨ ((startFrame func args).regs id).isSome = true := by
            intro id hId
            obtain ⟨inst, hInst, _⟩ := hId
            cases hInst
          have hTracks : Tracks func (startFrame func args) [] 0 [] :=
            ⟨rfl, ⟨isChain_singleton 0, rfl⟩, hStart, rfl, rfl, hEnds, hNone⟩
          exact .active hTracks
      · exact hWithin.elim

/-- Whenever a call of an accepted function, with operands defined on every
path, is about to make a step of its own, the step is safe. -/
theorem cvmExecFunction_safe {Heap : Type} (host : CvmHost Heap) (callers : List CvmFrame)
    (vm : CvmState Heap) (func : MirFunction) (args : List CvmReg)
    (hAccepted : mirVerifyFunction func = []) (hDefined : DefinedOnPaths func) (n : Nat)
    (hOpen : ∀ k, k ≤ n → (runFor (step host (gotoLoop host)) k
      (cvmExecFunction host (gotoLoop
      host) callers vm func args)).Within callers) (frame : CvmFrame) (vm' : CvmState Heap)
    (hRun : runFor (step host (gotoLoop host)) n (cvmExecFunction host (gotoLoop host) callers vm
      func args) = .running frame callers vm') :
    frame.func = func ∧ frame.Safe vm'.trapCode := by
  have hBlocks : ∀ b block, func.block? b = some block → BlockAccepted func b block := by
    cases hBody : func.isExtern with
    | false => exact ((mirVerifyFunction_eq_nil_iff hBody).mp hAccepted).2.2.1
    | true =>
      intro b block hBlock
      simp [MirFunction.block?, hDefined.body hBody] at hBlock
  have hActivation : ∀ k, k ≤ n →
    Activation func callers (runFor (step host (gotoLoop host)) k
      (cvmExecFunction host (gotoLoop host) callers vm func args)) := by
    intro k
    induction k with
    | zero => exact fun hk => activation_cvmExecFunction hBlocks (hOpen 0 hk)
    | succ k ih =>
      intro hk
      have hBefore := ih (Nat.le_of_succ_le hk)
      have hWithin := hOpen (k + 1) hk
      rw [runFor_succ] at hWithin ⊢
      cases hStep : step host (gotoLoop host) (runFor (step host (gotoLoop host)) k
          (cvmExecFunction host (gotoLoop host) callers vm func args)) with
      | none => rwa [runFor_of_none hStep]
      | some c =>
        rw [runFor_succ_of_some hStep] at hWithin ⊢
        exact hBefore.step hDefined.listed hBlocks hStep hWithin
  have hLast := hActivation n (le_refl n)
  rw [hRun] at hLast
  rcases hLast.innermost with ⟨path, b, before, hTracks⟩ | ⟨hFunc, hFallen⟩
  · exact ⟨hTracks.sameFunc, hTracks.safe hDefined _⟩
  · exact ⟨hFunc, CvmFrame.safe_of_block_eq_none hFallen⟩

theorem within_nil_of_running {Heap : Type} {host : CvmHost Heap} {c : CvmConfig Heap} {n : Nat}
    {frame : CvmFrame} {callers : List CvmFrame} {vm : CvmState Heap}
    (h : runFor (step host (gotoLoop host)) n c = .running frame callers vm)
    (k : Nat) (hk : k ≤ n) :
    (runFor (step host (gotoLoop host)) k c).Within [] := by
  have hSplit : runFor (step host (gotoLoop host)) (k + (n - k)) c =
      runFor (step host (gotoLoop host)) (n - k) (runFor (step host (gotoLoop host)) k c) :=
        runFor_add
  rw [Nat.add_sub_cancel' hk, h] at hSplit
  cases hAt : runFor (step host (gotoLoop host)) k c with
  | running frame frames vm => exact nil_suffix
  | returned _ _ | crashed =>
    rw [hAt, runFor_of_none rfl] at hSplit
    cases hSplit

/-- The values assigned wherever a block of the swap loop is entered. -/
def swapAvailable : MirBlockId → List MirValueId
  | 1 => [1, 2]
  | 2 => [4]
  | _ => []

/-- The swap loop is safe when it comes round. -/
theorem cvmExecFunction_safe_swapLoop :
    (swapFrame 8).func = swapLoop ∧ (swapFrame 8).Safe (swapVm 8).trapCode :=
  cvmExecFunction_safe wordHost [] (wordVm {}) swapLoop [] (by decide)
    (definedOnPaths_of_checkAvailable
      (show checkAvailable swapLoop swapAvailable = true by decide)) 8
    (within_nil_of_running (show swapRun 8 = .running (swapFrame 8) [] (swapVm 8) from rfl))
    (swapFrame 8) (swapVm 8) rfl

/-- A function that returns a value no instruction assigns. -/
def returnUnassigned : MirFunction where
  name := "return_unassigned"
  returnType := some .i64
  blocks := [{ label := "entry", insts := [{ op := .ret 1 }] }]
  nextValueId := 2
  valueTypes := [none, some .i64]

/-- A function whose PHI names its own block in place of its predecessor. -/
def phiFromElsewhere : MirFunction where
  name := "phi_from_elsewhere"
  returnType := some .i64
  blocks := [
    { label := "entry", successors := [1]
      insts := [{ op := .constInt 7, result := 1, type := some .i64 }, { op := .br (some 1) }] },
    { label := "join", predecessors := [0]
      insts := [{ op := .phi [⟨some 1, 1⟩], result := 2, type := some .i64 },
        { op := .ret 2 }] }]
  nextValueId := 3
  valueTypes := [none, some .i64, some .i64]

/-- Both functions are accepted, but one reads a register that was never
assigned and the other executes a PHI without an edge for where it came from. -/
theorem accepted_unsafe : mirVerifyFunction returnUnassigned = [] ∧
    (∃ frame vm, cvmExecFunction wordHost (gotoLoop wordHost) [] (wordVm {}) returnUnassigned [] =
      .running frame [] vm ∧ ¬frame.Safe vm.trapCode) ∧
    mirVerifyFunction phiFromElsewhere = [] ∧
    ∃ frame vm, runFor (step wordHost (gotoLoop wordHost)) 2
      (cvmExecFunction wordHost (gotoLoop wordHost) [] (wordVm {}) phiFromElsewhere []) =
      .running frame [] vm ∧ ¬frame.Safe vm.trapCode := by
  refine ⟨by decide, ⟨_, _, rfl, fun hSafe => ?_⟩, by decide, _, _, rfl, fun hSafe => ?_⟩
  · have hRead := hSafe.reads 0 { op := .ret 1 } [] rfl rfl 1 (by decide)
    rcases hRead with hZero | ⟨p, hp, _⟩ | hSome
    · cases hZero
    · cases hp
    · cases hSome
  · obtain ⟨edge, hEdge, hFrom⟩ := hSafe.phis 1 _ _ _ rfl rfl rfl
    rw [mem_singleton.mp hEdge] at hFrom
    cases hFrom

end Casprix.Cvm
