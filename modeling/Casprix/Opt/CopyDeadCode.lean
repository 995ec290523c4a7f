import Casprix.Opt.CopyAgreement

/-! What dead-code elimination leaves of a function whose copies were propagated. -/
namespace Casprix.Opt

open List Mir Cvm Library

/-- The value is used by an instruction that stays in any case, or for a value that is needed. -/
inductive Needed (func : MirFunction) : MirValueId → Prop
  | effect {user : MirInst} {v : MirValueId} (hUser : user ∈ func.blocks.flatMap (·.insts))
      (hUsed : valueUsedInInst user v = true)
      (hStays : hasSideEffects user.op = true ∨ user.result = 0) : Needed func v
  | result {user : MirInst} {v : MirValueId} (hUser : user ∈ func.blocks.flatMap (·.insts))
      (hUsed : valueUsedInInst user v = true) (hNeeded : Needed func user.result) : Needed func v

/-- Where the tables of the two passes do no harm. No move takes a value that is a copy or has
one. The opcodes that replacing leaves out read no PHI of copies of one value, and no PHI reads
a copy of an earlier PHI of its block. A `MIR_SUSPEND` has no result or a needed one, and waits
for a value that is no copy and is needed by another instruction or comes from one with side
effects. What a `MIR_NOP` bears is read by nothing. -/
structure CopySafe (func : MirFunction) : Prop where
  moves : MovesApart func
  missed : ∀ inst ∈ func.blocks.flatMap (·.insts), replaceMisses inst.op = true →
    ∀ id ∈ (operandChecks inst.op).map Prod.fst, ¬Collapsible func id
  phis : ∀ (b : MirBlockId) (j k : Nat) (inst : MirInst) (edges : List MirPhiEdge),
    (func.insts b)[k]? = some inst → inst.op = .phi edges → ∀ edge ∈ edges, ∀ x,
    CopyOf func edge.value x → edge.value ≠ x → j < k → ¬DefinedAt func b j x
  suspends : ∀ inst ∈ func.blocks.flatMap (·.insts), ∀ resumeBb future,
    inst.op = .suspend resumeBb future → inst.result = 0 ∨ Needed func inst.result
  futures : ∀ inst ∈ func.blocks.flatMap (·.insts), ∀ resumeBb future,
    inst.op = .suspend resumeBb future → ∀ source ∈ func.blocks.flatMap (·.insts),
    source.result = future → future ≠ 0 → hasSideEffects source.op = true ∨
      Needed func future ∧ ∀ copied, source.op ≠ .transfer .copy copied
  nops : ∀ inst ∈ func.blocks.flatMap (·.insts), inst.op = .nop → inst.result ≠ 0 →
    ∀ user ∈ func.blocks.flatMap (·.insts),
      inst.result ∉ (operandChecks user.op).map Prod.fst

variable (op : MirOp)

section

variable {func : MirFunction} {rename : MirValueId → MirValueId} {inst user : MirInst}
  {id v x : MirValueId} {b : MirBlockId} {k : Nat}

/-- What the use test knows are operands. -/
theorem checked_of_used (h : valueUsedInInst inst id = true) :
    id ∈ (operandChecks inst.op).map Prod.fst := by
  unfold valueUsedInInst at h
  cases hOp : inst.op with
  | phi edges =>
    rw [hOp] at h
    obtain ⟨edge, hEdge, hValue⟩ := any_eq_true.mp h
    exact mem_map.mpr ⟨(edge.value, "phi edge"), mem_map_of_mem hEdge, beq_iff_eq.mp hValue⟩
  | structInit fields =>
    simp only [hOp, contains_iff_mem] at h
    exact mem_map.mpr ⟨(id, "struct field"), mem_map_of_mem h, rfl⟩
  | call | callIndirect | callVirtual =>
    simp only [hOp, Bool.or_eq_true, beq_iff_eq, contains_iff_mem] at h
    simp only [operandChecks, map_cons, map_map, Function.comp_def, map_id', mem_cons]
    exact h.imp_left Eq.symm
  | binary | unary | load | store | getFieldPtr | getElemPtr | condbr |
    switch | ret | transfer | refop
  | extract | insert | vec =>
    simp only [operandChecks, map_cons, map_nil, mem_cons, not_mem_nil, or_false]
    grind
  | _ =>
    rw [hOp] at h
    cases h

theorem isPhi_mapOperands : (mapOperands rename op).isPhi = op.isPhi := by
  cases op <;> rfl

theorem hasSideEffects_mapOperands :
    hasSideEffects (mapOperands rename op) = hasSideEffects op := by
  cases op <;> rfl

theorem targets_mapOperands : (mapOperands rename op).targets = op.targets := by
  cases op <;> rfl

theorem isTerminator_mapOperands : (mapOperands rename op).isTerminator = op.isTerminator := by
  cases op <;> rfl

theorem used_mapOperands (h : valueUsedInInst inst id = true) {user : MirInst}
    (hOp : user.op = mapOperands rename inst.op) : valueUsedInInst user (rename id) = true := by
  have hNotSuspend : ∀ resumeBb, user.op ≠ .suspend resumeBb (rename id) := by
    intro resumeBb hSuspend
    unfold valueUsedInInst at h
    cases hOld : inst.op with
    | suspend =>
      rw [hOld] at h
      cases h
    | _ =>
      rw [hOp, hOld] at hSuspend
      cases hSuspend
  refine valueUsedInInst_of_checked ?_ hNotSuspend
  rw [hOp, checked_mapOperands]
  exact mem_map_of_mem (checked_of_used h)

theorem op_ne_nop_of_used (h : valueUsedInInst inst id = true) : inst.op ≠ .nop := by
  intro hOp
  unfold valueUsedInInst at h
  rw [hOp] at h
  cases h

/-- A value that is a copy of another was made from something that reads this one. -/
theorem CopyOf.read (h : CopyOf func v x) (hOther : v ≠ x) :
    ∃ user ∈ func.blocks.flatMap (·.insts), x ∈ (operandChecks user.op).map Prod.fst := by
  induction h with
  | refl => exact absurd rfl hOther
  | @copy inst source x hInst hOp _ _ ih =>
    by_cases hEnd : source = x
    · refine ⟨inst, hInst, ?_⟩
      rw [hOp, hEnd]
      exact mem_singleton_self x
    · exact ih hEnd
  | @phi inst edges x hInst hOp hSome hEdges ih =>
    obtain ⟨edge, hEdge⟩ := exists_mem_of_ne_nil edges hSome
    by_cases hEnd : edge.value = x
    · refine ⟨inst, hInst, ?_⟩
      rw [hOp]
      exact mem_map.mpr ⟨(edge.value, "phi edge"), mem_map_of_mem hEdge, hEnd⟩
    · exact ih edge hEdge hEnd

/-- What is needed is not dead. -/
theorem not_dead_of_needed (h : Needed func v) (hInst : (func.insts b)[k]? = some inst)
    (hResult : inst.result = v) (hOp : inst.op ≠ .nop) : ¬Dead func b k := by
  have hUsers : ∀ {b : MirBlockId} {k : Nat}
    {inst user : MirInst}, (func.insts b)[k]? = some inst →
      inst.op ≠ .nop → user ∈ func.blocks.flatMap (·.insts) →
      valueUsedInInst user inst.result = true → Dead func b k →
      ∃ b' k', (func.insts b')[k']? = some user ∧ Dead func b' k' := by
    intro b k inst user hInst hOp hUser hUsed hDead
    obtain ⟨b', k', hAt⟩ := MirFunction.exists_getElem?_of_mem hUser
    refine ⟨b', k', hAt, ?_⟩
    by_contra hLive
    exact absurd ((not_used_of_dead hDead hInst hOp hLive hAt).symm.trans hUsed) Bool.false_ne_true
  induction h generalizing b k inst with
  | effect hUser hUsed hStays =>
    intro hDead
    obtain ⟨b', k', hAt, hGone⟩ := hUsers hInst hOp hUser (hResult ▸ hUsed) hDead
    rcases (dead_iff hAt).mp hGone with hNop | ⟨hBears, hNone, _⟩
    · exact op_ne_nop_of_used hUsed hNop
    · rcases hStays with hEffect | hZero
      · exact absurd (hNone.symm.trans hEffect) Bool.false_ne_true
      · exact hBears hZero
  | result hUser hUsed _ ih =>
    intro hDead
    obtain ⟨b', k', hAt, hGone⟩ := hUsers hInst hOp hUser (hResult ▸ hUsed) hDead
    exact ih hAt rfl (op_ne_nop_of_used hUsed) hGone

end

section

variable {func cur : MirFunction} {rename : MirValueId → MirValueId} {gone : List MirValueId}
  {inst : MirInst} {v : MirValueId}

section

variable (hSsa : SsaForm func) (h : Propagated func cur rename gone)
include hSsa h

theorem Propagated.rename_zero :
    rename 0 = 0 := by
  by_contra hOther
  exact ((h.copies 0).definedAt hSsa fun hSame => hOther hSame.symm).1 rfl

/-- An instruction whose result has a new name is a copy or a PHI that was removed. -/
theorem Propagated.sharesName (hInst : inst ∈ func.blocks.flatMap (·.insts))
    (hRenamed : rename inst.result ≠ inst.result) :
    (∃ source, inst.op = .transfer .copy source ∧ rename inst.result = rename source) ∨
      ∃ edges, inst.op = .phi edges ∧ inst.result ∈ gone ∧
        ∀ edge ∈ edges, rename edge.value = rename inst.result := by
  rcases h.named inst.result with hSelf | ⟨other, hOther, hResult, hCase⟩
  · exact absurd hSelf hRenamed
  · have hNonzero : inst.result ≠ 0 := by
      intro hZero
      rw [hZero] at hRenamed
      exact hRenamed (h.rename_zero hSsa)
    obtain ⟨b, k, hAt⟩ := MirFunction.exists_getElem?_of_mem hInst
    have hSame : other = inst := hSsa.inst_eq hAt hNonzero hOther hResult
    rwa [hSame] at hCase

theorem Propagated.rename_eq_self (hInst : inst ∈ func.blocks.flatMap (·.insts))
    (hCopy : ∀ source, inst.op ≠ .transfer .copy source)
    (hKept : inst.result ∉ gone) : rename inst.result = inst.result := by
  by_contra hRenamed
  rcases h.sharesName hSsa hInst hRenamed with ⟨source, hOp, _⟩ | ⟨_, _, hGone, _⟩
  · exact hCopy source hOp
  · exact hKept hGone

end

theorem Propagated.exists_forwarded (h : Propagated func cur rename gone)
    (hInst : inst ∈ func.blocks.flatMap (·.insts)) :
    ∃ inst' ∈ cur.blocks.flatMap (·.insts), Forwarded rename gone inst inst' := by
  obtain ⟨b, k, hAt⟩ := MirFunction.exists_getElem?_of_mem hInst
  obtain ⟨inst', hAt', hRel⟩ := h.matched.getElem?_left hAt
  exact ⟨inst', MirFunction.mem_flatMap_of_getElem? hAt', hRel⟩

theorem Propagated.needed_rename (h : Propagated func cur rename gone)
    (hKept : v ∉ gone) (hNeeded : Needed cur v) : Needed cur (rename v) := by
  rcases h.named v with hSelf |
    ⟨inst, hInst, hResult, ⟨source, hOp, hSame⟩ | ⟨_, _, hGone, _⟩⟩
  · rwa [hSelf]
  · obtain ⟨inst', hInst', hRel⟩ := h.exists_forwarded hInst
    cases hRel with
    | renamed =>
      refine .result hInst' ?_ (hResult.symm ▸ hNeeded)
      unfold valueUsedInInst substInst
      rw [hOp, hSame]
      exact beq_self_eq_true (rename source)
    | collapsed hPhi =>
      rw [hOp] at hPhi
      cases hPhi
  · exact absurd hGone hKept

/-- A needed value is needed under its new name after the pass. -/
theorem Propagated.needed (hSsa : SsaForm func) (h : Propagated func cur rename gone)
    (hMissed : ∀ inst ∈ func.blocks.flatMap (·.insts), replaceMisses inst.op = true →
      ∀ id ∈ (operandChecks inst.op).map Prod.fst, ¬Collapsible func id)
    (hNeeded : Needed func v) : Needed cur (rename v) := by
  have hUnreached : ∀ {user : MirInst}
    {v : MirValueId}, user ∈ func.blocks.flatMap (·.insts) →
      valueUsedInInst user v = true → replaceMisses user.op = true → v ∉ gone := by
    intro user v hUser hUsed hMisses hGone
    exact hMissed user hUser hMisses v (checked_of_used hUsed) (h.collapsible v hGone)
  induction hNeeded with
  | @effect user v hUser hUsed hStays =>
    obtain ⟨user', hUser', hRel⟩ := h.exists_forwarded hUser
    cases hRel with
    | renamed =>
      cases hMisses : replaceMisses user.op with
      | true =>
        have hSame : substInst rename user = user := by
          unfold substInst
          rw [substOp_of_misses hMisses]
        rw [hSame] at hUser'
        exact h.needed_rename (hUnreached hUser hUsed hMisses) (.effect hUser' hUsed hStays)
      | false =>
        have hOp : (substInst rename user).op = mapOperands rename user.op :=
          substOp_of_reached hMisses
        refine .effect hUser' (used_mapOperands hUsed hOp) ?_
        rw [hOp, hasSideEffects_mapOperands]
        exact hStays
    | collapsed hPhi =>
      rcases hStays with hEffect | hZero
      · generalize user.op = op at hEffect hPhi ⊢
        cases op with
        | phi =>
          cases hEffect
        | _ =>
          cases hPhi
      · exact absurd hZero (hSsa.phiResult user hUser hPhi)
  | @result user v hUser hUsed _ ih =>
    by_cases hRenamed : rename user.result = user.result
    · obtain ⟨user', hUser', hRel⟩ := h.exists_forwarded hUser
      rw [hRenamed] at ih
      cases hRel with
      | renamed =>
        cases hMisses : replaceMisses user.op with
        | true =>
          have hSame : substInst rename user = user := by
            unfold substInst
            rw [substOp_of_misses hMisses]
          rw [hSame] at hUser'
          exact h.needed_rename (hUnreached hUser hUsed hMisses) (.result hUser' hUsed ih)
        | false => exact .result hUser' (used_mapOperands hUsed (substOp_of_reached hMisses)) ih
      | collapsed _ hGone => exact absurd (hRenamed.symm ▸ hGone) (h.clear user.result)
    · have hSame : rename v = rename user.result := by
        have hOperand := checked_of_used hUsed
        rcases h.sharesName hSsa hUser hRenamed with ⟨source, hOp, hName⟩ |
          ⟨edges, hOp, _, hNames⟩
        · rw [hOp] at hOperand
          rw [mem_singleton.mp hOperand, hName]
        · rw [hOp] at hOperand
          obtain ⟨check, hCheck, hValue⟩ := mem_map.mp hOperand
          obtain ⟨edge, hEdge, rfl⟩ := mem_map.mp hCheck
          rw [← hValue, hNames edge hEdge]
      rw [hSame]
      exact ih

end

section

variable {func cur : MirFunction} {rename : MirValueId → MirValueId} {gone : List MirValueId}
  {inst inst' : MirInst} {id : MirValueId} {a b : MirBlockId} {j k : Nat}

theorem Propagated.renamed_of_live (h : Propagated func cur rename gone)
    (hInst' : (cur.insts b)[k]? = some inst') (hLive : ¬Dead cur b k) :
    ∃ inst, (func.insts b)[k]? = some inst ∧ inst' = substInst rename inst := by
  obtain ⟨inst, hInst, hRel⟩ := h.matched.getElem? hInst'
  cases hRel with
  | renamed => exact ⟨inst, hInst, rfl⟩
  | collapsed => exact absurd (.nop hInst' rfl) hLive

theorem op_eq_nop_of_substOp {op : MirOp} (h : substOp rename op = .nop) : op = .nop := by
  cases op with
  | nop => rfl
  | _ => cases h

theorem checked_substOp : (operandChecks (substOp rename op)).map Prod.fst =
    ((operandChecks op).map Prod.fst).map (reachedName rename op) :=
  checked_mapOperands (reachedName rename op) op

theorem Propagated.not_gone_of_read (hSafe : CopySafe func) (h : Propagated func cur rename gone)
    (hInst : inst ∈ func.blocks.flatMap (·.insts))
    (hRead : id ∈ (operandChecks inst.op).map Prod.fst) :
    reachedName rename inst.op id ∉ gone := by
  unfold reachedName
  split
  · next hMissed =>
      exact fun hGone => hSafe.missed inst hInst hMissed id hRead (h.collapsible id hGone)
  · exact h.clear id

/-- The definition of what an instruction reads that stays is not dead. -/
theorem Propagated.live_of_read (hSsa : SsaForm func) (hSafe : CopySafe func)
    (h : Propagated func cur rename gone) (hInst : (func.insts b)[k]? = some inst)
    (hInst' : (cur.insts b)[k]? = some (substInst rename inst)) (hLive : ¬Dead cur b k)
    (hRead : id ∈ (operandChecks inst.op).map Prod.fst)
    (hId : reachedName rename inst.op id ≠ 0)
    (hDefined : DefinedAt func a j (reachedName rename inst.op id)) : ¬Dead cur a j := by
  have hMem := MirFunction.mem_flatMap_of_getElem? hInst
  have hKept := h.not_gone_of_read hSafe hMem hRead
  obtain ⟨source, hSource, hResult⟩ := hDefined
  have hSourceMem := MirFunction.mem_flatMap_of_getElem? hSource
  obtain ⟨source', hSource', hRel⟩ := h.matched.getElem?_left hSource
  cases hRel with
  | collapsed _ hGone => exact absurd (hResult ▸ hGone) hKept
  | renamed =>
    intro hDead
    have hRead' : (substInst rename source).result ∈
        (operandChecks (substInst rename inst).op).map Prod.fst := by
      have hNew : reachedName rename inst.op id ∈
          (operandChecks (substOp rename inst.op)).map Prod.fst := by
        rw [checked_substOp]
        exact mem_map_of_mem hRead
      rw [← hResult] at hNew
      exact hNew
    by_cases hNop : (substInst rename source).op = .nop
    · have hWas : source.op = .nop := op_eq_nop_of_substOp hNop
      have hUnread := hSafe.nops source hSourceMem hWas (hResult.symm ▸ hId)
      by_cases hSame : reachedName rename inst.op id = id
      · exact hUnread inst hMem (by rw [hResult, hSame]; exact hRead)
      · have hName : reachedName rename inst.op id = rename id := by
          unfold reachedName at hSame ⊢
          split at hSame
          · exact absurd rfl hSame
          · next hReached => rw [if_neg hReached]
        rw [hName] at hSame hResult
        obtain ⟨user, hUser, hUsed⟩ := (h.copies id).read fun hEq => hSame hEq.symm
        exact hUnread user hUser (hResult.symm ▸ hUsed)
    · have hUnused := not_used_of_dead hDead hSource' hNop hLive hInst'
      have hSuspend : ∃ resumeBb, (substInst rename inst).op =
          .suspend resumeBb (substInst rename source).result := by
        by_contra hNone
        have hUsed := valueUsedInInst_of_checked hRead' fun resumeBb hOp =>
          hNone ⟨resumeBb, hOp⟩
        exact absurd (hUnused.symm.trans hUsed) Bool.false_ne_true
      obtain ⟨resumeBb, hOp⟩ := hSuspend
      have hNew : substOp rename inst.op = .suspend resumeBb source.result := hOp
      have hOld : inst.op = .suspend resumeBb source.result := by
        cases hWas : inst.op with
        | suspend =>
          rw [hWas] at hNew
          exact hNew
        | _ =>
          rw [hWas] at hNew
          cases hNew
      rcases hSafe.futures inst hMem resumeBb _ hOld source hSourceMem rfl
        (hResult.symm ▸ hId) with
        hEffect | ⟨hNeeded, hNoCopy⟩
      · refine not_dead_of_sideEffects hSource' ?_ hDead
        show hasSideEffects (substOp rename source.op) = true
        unfold substOp
        rw [hasSideEffects_mapOperands]
        exact hEffect
      · have hName := h.rename_eq_self hSsa hSourceMem hNoCopy (hResult.symm ▸ hKept)
        have hStill := h.needed hSsa hSafe.missed hNeeded
        rw [hName] at hStill
        exact not_dead_of_needed hStill hSource' rfl hNop hDead

theorem Propagated.availableAt (hForm : CopyForm func)
    (h : Propagated func cur rename gone) {op : MirOp}
    (hAvailable : AvailableAt func b k id) : AvailableAt func b k (reachedName rename op id) := by
  unfold reachedName
  split
  · exact hAvailable
  · by_cases hSame : id = rename id
    · rwa [← hSame]
    · obtain ⟨hId, c, i, hDefined⟩ := (h.copies id).definedAt hForm.ssa hSame
      have hThere := (h.copies id).availableAt hForm.ssa hForm.dominated
        hForm.orderly hSame hDefined
      exact hThere.trans (hForm.ssa.placeDominates hDefined hId hAvailable)
        (hForm.orderly.reachable c (MirFunction.lt_of_getElem? hDefined.choose_spec.1))

theorem Propagated.definedAt_iff (h : Propagated func cur rename gone) :
    DefinedAt cur b k id ↔ DefinedAt func b k id := by
  constructor
  · rintro ⟨inst', hInst', hResult⟩
    obtain ⟨inst, hInst, hRel⟩ := h.matched.getElem? hInst'
    exact ⟨inst, hInst, hRel.result_eq ▸ hResult⟩
  · rintro ⟨inst, hInst, hResult⟩
    obtain ⟨inst', hInst', hRel⟩ := h.matched.getElem?_left hInst
    exact ⟨inst', hInst', hRel.result_eq.trans hResult⟩

theorem Forwarded.targets_eq (h : Forwarded rename gone inst inst') :
    inst'.op.targets = inst.op.targets := by
  cases h with
  | renamed => exact targets_mapOperands inst.op
  | collapsed hPhi =>
    cases hOp : inst.op with
    | phi => rfl
    | _ =>
      simp only [hOp, MirOp.isPhi, Bool.false_eq_true] at hPhi

theorem Propagated.targets_eq (h : Propagated func cur rename gone) (b : MirBlockId) :
    cur.targets b = func.targets b := by
  rw [MirFunction.targets_eq_getLast?, MirFunction.targets_eq_getLast?, getLast?_eq_getElem?,
    getLast?_eq_getElem?, ← (h.matched.insts b).length_eq]
  cases hLast : (func.insts b)[(func.insts b).length - 1]? with
  | none =>
    have hNone : (cur.insts b)[(func.insts b).length - 1]? = none := by
      rw [List.getElem?_eq_none_iff] at hLast ⊢
      rwa [← (h.matched.insts b).length_eq]
    rw [hNone]
  | some inst =>
    obtain ⟨inst', hInst', hRel⟩ := h.matched.getElem?_left hLast
    rw [hInst']
    exact hRel.targets_eq

end

/-- Where an instruction that stays stands after dead-code elimination. -/
noncomputable def newPlace (func : MirFunction) (b : MirBlockId) (k : Nat) : Nat :=
  (remaining (Dead func b) 0 ((func.insts b).take k)).length

section

variable {func : MirFunction} {inst : MirInst} {id : MirValueId} {b : MirBlockId} {k k' : Nat}

theorem getElem?_newPlace (hInst : (func.insts b)[k]? = some inst) (hLive : ¬Dead func b k) :
    ((mirPassDeadCodeEliminate func).1.insts b)[newPlace func b k]? = some inst := by
  rw [insts_mirPassDeadCodeEliminate]
  exact getElem?_remaining hInst hLive

theorem exists_newPlace (h : ((mirPassDeadCodeEliminate func).1.insts b)[k']? = some inst) :
    ∃ k, (func.insts b)[k]? = some inst ∧ ¬Dead func b k ∧ k' = newPlace func b k := by
  rw [insts_mirPassDeadCodeEliminate] at h
  obtain ⟨k, hInst, hLive, hPlace⟩ := exists_of_getElem?_remaining h
  rw [Nat.zero_add] at hLive
  exact ⟨k, hInst, hLive, hPlace⟩

theorem newPlace_length (b : MirBlockId) :
    newPlace func b (func.insts b).length = ((mirPassDeadCodeEliminate func).1.insts b).length := by
  rw [newPlace, take_length, insts_mirPassDeadCodeEliminate]

/-- Each block ends with a terminator, if it has instructions. -/
def EndsBlocks (func : MirFunction) : Prop :=
  ∀ b inst, (func.insts b).getLast? = some inst → inst.op.isTerminator = true

theorem hasSideEffects_of_isTerminator {op : MirOp} (h : op.isTerminator = true) :
    hasSideEffects op = true := by
  cases op with
  | br | condbr | switch | ret | retVoid | unreachable => rfl
  | _ => cases h

theorem getLast?_mirPassDeadCodeEliminate (hEnds : EndsBlocks func) (b : MirBlockId) :
    ((mirPassDeadCodeEliminate func).1.insts b).getLast? = (func.insts b).getLast? := by
  rw [insts_mirPassDeadCodeEliminate]
  cases hLast : (func.insts b).getLast? with
  | none =>
    rw [getLast?_eq_none_iff] at hLast
    rw [hLast]
    rfl
  | some inst =>
    have hStays : ¬Dead func b ((func.insts b).length - 1) :=
      not_dead_of_sideEffects (getLast?_eq_getElem? ▸ hLast)
        (hasSideEffects_of_isTerminator (hEnds b inst hLast))
    obtain ⟨before, hSplit⟩ := List.getLast?_eq_some_iff.mp hLast
    have hPlace : before.length = (func.insts b).length - 1 := by
      rw [hSplit, length_append, length_singleton, Nat.add_sub_cancel]
    rw [hSplit, remaining_append, Nat.zero_add, remaining, if_neg (hPlace ▸ hStays)]
    exact getLast?_concat

theorem targets_mirPassDeadCodeEliminate (hEnds : EndsBlocks func) (b : MirBlockId) :
    (mirPassDeadCodeEliminate func).1.targets b = func.targets b := by
  rw [MirFunction.targets_eq_getLast?, getLast?_mirPassDeadCodeEliminate hEnds,
    MirFunction.targets_eq_getLast?]

theorem length_blocks_mirPassDeadCodeEliminate (func : MirFunction) :
    (mirPassDeadCodeEliminate func).1.blocks.length = func.blocks.length := by
  have hWhole : func.blocks = [] ++ func.blocks := rfl
  have hStart : Passed func [] := rfl
  exact (deadCodeBlocks_passed hWhole hStart rfl).2

/-- What is available, and is not dead, is available after dead-code elimination. -/
theorem availableAt_newPlace (hEnds : EndsBlocks func) (h : AvailableAt func b k id)
    (hLive : id ≠ 0 → ∀ a j, DefinedAt func a j id → ¬Dead func a j) :
    AvailableAt (mirPassDeadCodeEliminate func).1 b (newPlace func b k) id := by
  by_cases hId : id = 0
  · exact .inl hId
  · rcases h with hZero | hParam | ⟨a, j, ⟨inst, hInst, hResult⟩, hBefore⟩
    · exact absurd hZero hId
    · exact .inr (.inl hParam)
    · have hStays := hLive hId a j ⟨inst, hInst, hResult⟩
      refine .inr (.inr ⟨a, newPlace func a j,
        ⟨inst, getElem?_newPlace hInst hStays, hResult⟩, ?_⟩)
      refine hBefore.imp (fun ⟨hSame, hEarlier⟩ => ⟨hSame, ?_⟩) fun ⟨hOther,
        hDominates⟩ => ⟨hOther, ?_⟩
      · subst hSame
        exact length_remaining_lt hInst hStays hEarlier
      · have hTargets : (mirPassDeadCodeEliminate func).1.targets = func.targets :=
          funext (targets_mirPassDeadCodeEliminate hEnds)
        unfold BlockDominates
        rw [hTargets]
        exact hDominates

end

section

variable {func cur : MirFunction} {rename : MirValueId → MirValueId} {gone : List MirValueId}
  {inst' : MirInst} {id : MirValueId} {b : MirBlockId} {k k' : Nat}

theorem Propagated.endsBlocks (hForm : CopyForm func) (h : Propagated func cur rename gone) :
    EndsBlocks cur := by
  intro b inst' hLast
  rw [getLast?_eq_getElem?] at hLast
  obtain ⟨inst, hInst, hRel⟩ := h.matched.getElem? hLast
  have hEnd : (cur.insts b).length - 1 + 1 = (func.insts b).length := by
    rw [(h.matched.insts b).length_eq]
    exact Nat.sub_add_cancel (Nat.zero_lt_of_lt (List.getElem?_eq_some_iff.mp hLast).1)
  have hTerm := (hForm.orderly.ends hInst).mpr hEnd
  cases hRel with
  | renamed => exact (isTerminator_mapOperands inst.op).trans hTerm
  | collapsed hPhi =>
    cases hOp : inst.op with
    | phi =>
      rw [hOp] at hTerm
      cases hTerm
    | _ => simp only [hOp, MirOp.isPhi, Bool.false_eq_true] at hPhi

/-- An instruction of the result is one of the function with new names, at its new place. -/
theorem Propagated.exists_left (h : Propagated func cur rename gone)
    (hInst' : ((mirPassDeadCodeEliminate cur).1.insts b)[k']? = some inst') :
    ∃ k inst, (func.insts b)[k]? = some inst ∧ inst' = substInst rename inst ∧
      (cur.insts b)[k]? = some inst' ∧ ¬Dead cur b k ∧ k' = newPlace cur b k := by
  obtain ⟨k, hAt, hLive, hPlace⟩ := exists_newPlace hInst'
  obtain ⟨inst, hInst, hSame⟩ := h.renamed_of_live hAt hLive
  exact ⟨k, inst, hInst, hSame, hAt, hLive, hPlace⟩

section

variable (hForm : CopyForm func) (hSafe : CopySafe func) (h : Propagated func cur rename gone)
include hForm hSafe h

/-- What an instruction reads that stays is available at its new place. -/
theorem Propagated.availableAt_left {inst : MirInst} (hInst : (func.insts b)[k]? = some inst)
    (hInst' : (cur.insts b)[k]? = some (substInst rename inst)) (hLive : ¬Dead cur b k)
    (hRead : id ∈ (operandChecks inst.op).map Prod.fst) {c : MirBlockId} {i : Nat}
    (hAvailable : AvailableAt func c i id) :
    AvailableAt (mirPassDeadCodeEliminate cur).1 c (newPlace cur c i)
      (reachedName rename inst.op id) := by
  have hNew : AvailableAt func c i (reachedName rename inst.op id) := h.availableAt hForm hAvailable
  have hCur : AvailableAt cur c i (reachedName rename inst.op id) := by
    have hTargets : cur.targets = func.targets := funext h.targets_eq
    refine hNew.imp_right fun hNew => hNew.imp (fun ⟨p, hp, hValue⟩ => ⟨p, ?_, hValue⟩)
      fun ⟨a, j, hDefined, hBefore⟩ => ⟨a, j, h.definedAt_iff.mpr hDefined, ?_⟩
    · rwa [h.matched.params_eq]
    · unfold PlaceDominates BlockDominates
      rw [hTargets]
      exact hBefore
  refine availableAt_newPlace (h.endsBlocks hForm) hCur fun hId a j hDefined => ?_
  exact h.live_of_read hForm.ssa hSafe hInst hInst' hLive hRead hId (h.definedAt_iff.mp hDefined)

theorem Propagated.usesDominated : UsesDominated (mirPassDeadCodeEliminate cur).1 where
  uses b k' inst' hInst' hPhi id hId := by
    obtain ⟨k, inst, hInst, rfl, hAt, hLive, rfl⟩ := h.exists_left hInst'
    have hNew : id ∈ ((operandChecks inst.op).map Prod.fst).map (reachedName rename inst.op) := by
      rw [← checked_substOp]
      exact hId
    obtain ⟨old, hOld, rfl⟩ := mem_map.mp hNew
    have hNotPhi : inst.op.isPhi = false := (isPhi_mapOperands inst.op).symm.trans hPhi
    exact h.availableAt_left hForm hSafe hInst hAt hLive hOld
      (hForm.dominated.uses b k inst hInst hNotPhi old hOld)
  phis b k' inst' edges' hInst' hOp' edge' hEdge' a hBlock := by
    obtain ⟨k, inst, hInst, rfl, hAt, hLive, rfl⟩ := h.exists_left hInst'
    have hRel : Forwarded rename gone inst (substInst rename inst) := .renamed
    obtain ⟨edges, hOp, rfl⟩ := hRel.phi hOp'
    obtain ⟨edge, hEdge, rfl⟩ := mem_map.mp hEdge'
    have hRead : edge.value ∈ (operandChecks inst.op).map Prod.fst := by
      rw [hOp]
      exact mem_map.mpr ⟨(edge.value, "phi edge"), mem_map_of_mem hEdge, rfl⟩
    have hName : reachedName rename inst.op edge.value = rename edge.value := by rw [hOp]; rfl
    have hLength : newPlace cur a (func.insts a).length =
        ((mirPassDeadCodeEliminate cur).1.insts a).length := by
      rw [(h.matched.insts a).length_eq, newPlace_length]
    have hThere := h.availableAt_left hForm hSafe hInst hAt hLive hRead
      (hForm.dominated.phis b k inst edges hInst hOp edge hEdge a hBlock)
    rw [hName, hLength] at hThere
    exact hThere

end

theorem Propagated.ssaForm (hForm : CopyForm func) (h : Propagated func cur rename gone) :
    SsaForm (mirPassDeadCodeEliminate cur).1 where
  single {a b j' k' id} hFirst hSecond hId := by
    obtain ⟨first, hFirstAt, hFirstResult⟩ := hFirst
    obtain ⟨second, hSecondAt, hSecondResult⟩ := hSecond
    obtain ⟨j, old, hOld, rfl, _, _, rfl⟩ := h.exists_left hFirstAt
    obtain ⟨k, old', hOld', rfl, _, _, rfl⟩ := h.exists_left hSecondAt
    obtain ⟨rfl, rfl⟩ := hForm.ssa.single ⟨old, hOld, hFirstResult⟩
      ⟨old', hOld', hSecondResult⟩ hId
    exact ⟨rfl, rfl⟩
  params p hp b k' hDefined := by
    obtain ⟨inst', hInst', hResult⟩ := hDefined
    obtain ⟨k, inst, hInst, rfl, _, _, _⟩ := h.exists_left hInst'
    have hOld : p ∈ func.params := h.matched.params_eq ▸ hp
    exact hForm.ssa.params p hOld b k ⟨inst, hInst, hResult⟩
  phiResult inst' hMem hPhi := by
    obtain ⟨b, k', hInst'⟩ := MirFunction.exists_getElem?_of_mem hMem
    obtain ⟨k, inst, hInst, rfl, _, _, _⟩ := h.exists_left hInst'
    exact hForm.ssa.phiResult inst (MirFunction.mem_flatMap_of_getElem? hInst)
      ((isPhi_mapOperands inst.op).symm.trans hPhi)
  entryPhis inst' hMem := by
    obtain ⟨k', hInst'⟩ := mem_iff_getElem?.mp hMem
    obtain ⟨k, inst, hInst, rfl, _, _, _⟩ := h.exists_left hInst'
    exact (isPhi_mapOperands inst.op).trans (hForm.ssa.entryPhis inst (mem_of_getElem? hInst))
  listed a b hEdge := by
    rw [targets_mirPassDeadCodeEliminate (h.endsBlocks hForm), h.targets_eq] at hEdge
    rw [length_blocks_mirPassDeadCodeEliminate, ← h.matched.blocks.length_eq]
    exact hForm.ssa.listed a b hEdge
  phiEdges a b hEdge inst' hMem edges' hOp' := by
    rw [targets_mirPassDeadCodeEliminate (h.endsBlocks hForm), h.targets_eq] at hEdge
    obtain ⟨k', hInst'⟩ := mem_iff_getElem?.mp hMem
    obtain ⟨k, inst, hInst, rfl, _, _, _⟩ := h.exists_left hInst'
    have hRel : Forwarded rename gone inst (substInst rename inst) := .renamed
    obtain ⟨edges, hOp, rfl⟩ := hRel.phi hOp'
    obtain ⟨edge, hFind⟩ := hForm.ssa.phiEdges a b hEdge inst (mem_of_getElem? hInst) edges hOp
    refine ⟨renameEdge rename edge, ?_⟩
    have hSame : ((fun edge : MirPhiEdge => edge.block == some a) ∘ renameEdge rename) =
        fun edge => edge.block == some a := rfl
    rw [find?_map, hSame, hFind]
    rfl

end

end Casprix.Opt
