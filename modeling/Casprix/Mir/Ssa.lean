import Casprix.Library.Dominance
import Casprix.Mir.Verify

/-! Single assignment and uses that are dominated by their definitions. The verifier checks
neither of them. -/
namespace Casprix.Mir

open List Library Bool

variable {func : MirFunction} {a b c : MirBlockId} {j k : Nat} {id : MirValueId}

def BlockDominates (func : MirFunction) (a b : MirBlockId) : Prop :=
  Dominates (fun a b => b ∈ func.targets a) 0 a b

def BlockReachable (func : MirFunction) (b : MirBlockId) : Prop :=
  Reachable (fun a b => b ∈ func.targets a) 0 b

/-- The instruction at this place has the value as its result. -/
def DefinedAt (func : MirFunction) (b : MirBlockId) (k : Nat) (id : MirValueId) : Prop :=
  ∃ inst, (func.insts b)[k]? = some inst ∧ inst.result = id

/-- Every path from the entry to the second place goes through the first one before. -/
def PlaceDominates (func : MirFunction) (a : MirBlockId) (j : Nat)
    (b : MirBlockId) (k : Nat) : Prop :=
  a = b ∧ j < k ∨ a ≠ b ∧ BlockDominates func a b

/-- The operand is `MIR_VALUE_NONE`, a parameter, or has a definition that dominates the place. -/
def AvailableAt (func : MirFunction) (b : MirBlockId) (k : Nat) (id : MirValueId) : Prop :=
  id = 0 ∨ (∃ p ∈ func.params, p.valueId = id) ∨
    ∃ a j, DefinedAt func a j id ∧ PlaceDominates func a j b k

def AvailableAtEnd (func : MirFunction) (b : MirBlockId) (id : MirValueId) : Prop :=
  AvailableAt func b (func.insts b).length id

/-- Values are defined once, and PHIs have results and an edge for each way into their block,
which is not the entry. Branches stay in the block list. -/
structure SsaForm (func : MirFunction) : Prop where
  single : ∀ {a b : MirBlockId} {j k : Nat} {id : MirValueId}, DefinedAt func a j id →
    DefinedAt func b k id → id ≠ 0 → a = b ∧ j = k
  params : ∀ p ∈ func.params, ∀ b k, DefinedAt func b k p.valueId → p.valueId = 0
  phiResult : ∀ inst ∈ func.blocks.flatMap (·.insts),
    inst.op.isPhi = true → inst.result ≠ 0
  entryPhis : ∀ inst ∈ func.insts 0, inst.op.isPhi = false
  listed : ∀ a b, b ∈ func.targets a → b < func.blocks.length
  phiEdges : ∀ a b, b ∈ func.targets a →
    ∀ inst ∈ func.insts b, ∀ edges, inst.op = .phi edges →
    ∃ edge, edges.find? (·.block == some a) = some edge

/-- Each operand that the verifier looks at is available where it is read, that of a PHI at the
end of the block it comes from. -/
structure UsesDominated (func : MirFunction) : Prop where
  uses : ∀ (b : MirBlockId) (k : Nat) (inst : MirInst), (func.insts b)[k]? = some inst →
    inst.op.isPhi = false → ∀ id ∈ (operandChecks inst.op).map Prod.fst,
      AvailableAt func b k id
  phis : ∀ (b : MirBlockId) (k : Nat) (inst : MirInst) (edges : List MirPhiEdge),
    (func.insts b)[k]? = some inst → inst.op = .phi edges → ∀ edge ∈ edges, ∀ a,
    edge.block = some a → AvailableAtEnd func a edge.value

theorem lt_of_definedAt (h : DefinedAt func b k id) : k < (func.insts b).length := by
  obtain ⟨inst, hInst, _⟩ := h
  exact (List.getElem?_eq_some_iff.mp hInst).1

theorem blockReachable_of_mem_targets (h : BlockReachable func a) (hEdge : b ∈ func.targets a) :
    BlockReachable func b :=
  Relation.ReflTransGen.tail h hEdge

theorem walkSuccs_subset_targets (b : MirBlockId) : walkSuccs func b ⊆ func.targets b := by
  unfold walkSuccs MirFunction.targets
  cases func.block? b with
  | none => exact nil_subset _
  | some block =>
    simp only [Option.bind_some, Option.map_some, Option.getD_some, MirBlock.targets]
    cases block.terminator with
    | none => exact nil_subset _
    | some inst =>
      simp only [mirCollectTermSuccs, Option.map_some]
      cases inst.op with
      | br | condbr => exact List.Subset.refl _
      | switch discriminant cases defaultBb =>
        simp only [MirOp.targets]
        split
        · exact append_subset.mpr ⟨List.Subset.trans (take_subset ..) (subset_append_left ..),
            subset_append_right ..⟩
        · exact List.Subset.trans (take_subset ..) (subset_append_left ..)
      | _ => exact nil_subset _

theorem blockReachable_of_verified (hVerified : mirVerifyFunction func = [])
    (hBody : func.isExtern = true → func.blocks = []) (hb : b < func.blocks.length) :
    BlockReachable func b := by
  have hBlocks : func.blocks ≠ [] := length_pos_iff.mp (Nat.zero_lt_of_lt hb)
  have hOwn : func.isExtern = false := eq_false_iff.mpr fun h => hBlocks (hBody h)
  have hReachable := ((mirVerifyFunction_eq_nil_iff hOwn).mp hVerified).2.2.2
  have hWalk := (mirVerifyCfgReachable_eq_nil_iff hBlocks).mp hReachable b hb
  have hStep : ∀ a c, (c ∈ walkSuccs func a ∧ c < func.blocks.length) →
      c ∈ func.targets a :=
    fun a c hNext => walkSuccs_subset_targets a hNext.1
  exact Relation.ReflTransGen.mono hStep 0 b hWalk

/-- What the verifier sees to in the blocks: they are reachable, PHIs come first, and the
terminator last. -/
structure Orderly (func : MirFunction) : Prop where
  reachable : ∀ b < func.blocks.length, BlockReachable func b
  nonempty : ∀ b < func.blocks.length, func.insts b ≠ []
  ends : ∀ {b : MirBlockId} {k : Nat} {inst : MirInst}, (func.insts b)[k]? = some inst →
    (inst.op.isTerminator = true ↔ k + 1 = (func.insts b).length)
  phis : ∀ {b : MirBlockId} {j k : Nat} {earlier inst : MirInst}, j < k →
    (func.insts b)[j]? = some earlier →
      (func.insts b)[k]? = some inst → inst.op.isPhi = true →
    earlier.op.isPhi = true

theorem isPhi_eq_false_of_instOrder {insts : List MirInst} (h : instOrder func b true insts = []) :
    ∀ inst ∈ insts, inst.op.isPhi = false := by
  induction insts with
  | nil => exact nofun
  | cons head rest ih =>
    rw [instOrder, append_eq_nil_iff, append_eq_nil_iff, Bool.true_or] at h
    intro inst hInst
    rcases mem_cons.mp hInst with rfl | hRest
    · by_contra hPhi
      rw [not_eq_false] at hPhi
      simp [hPhi] at h
    · exact ih h.2 inst hRest

theorem isPhi_of_instOrder {insts : List MirInst} {pastPhis : Bool} {earlier inst : MirInst}
    (h : instOrder func b pastPhis insts = []) (hBefore : j < k)
    (hEarlier : insts[j]? = some earlier)
    (hInst : insts[k]? = some inst) (hPhi : inst.op.isPhi = true) : earlier.op.isPhi = true := by
  induction insts generalizing j k pastPhis with
  | nil => cases hEarlier
  | cons head rest ih =>
    rw [instOrder, append_eq_nil_iff] at h
    cases k with
    | zero => cases hBefore
    | succ k =>
      cases j with
      | succ j => exact ih h.2 (Nat.lt_of_succ_lt_succ hBefore) hEarlier hInst
      | zero =>
        cases hEarlier
        by_contra hHead
        have hPast : (pastPhis || !earlier.op.isPhi) = true := by
          rw [Bool.eq_false_iff.mpr hHead, Bool.not_false, Bool.or_true]
        rw [hPast] at h
        have hLater := isPhi_eq_false_of_instOrder h.2 inst (mem_of_getElem? hInst)
        exact absurd (hLater.symm.trans hPhi) false_ne_true

theorem orderly_of_verified (hVerified : mirVerifyFunction func = [])
    (hBody : func.isExtern = true → func.blocks = []) : Orderly func := by
  have hAccepted : ∀ b < func.blocks.length, ∃ block, func.insts b = block.insts ∧
      BlockAccepted func b block := by
    intro b hb
    have hBlocks : func.blocks ≠ [] := length_pos_iff.mp (Nat.zero_lt_of_lt hb)
    have hOwn : func.isExtern = false := eq_false_iff.mpr fun h => hBlocks (hBody h)
    obtain ⟨block, hBlock⟩ := MirFunction.exists_block? hb
    exact ⟨block, MirFunction.insts_of_block? hBlock,
      ((mirVerifyFunction_eq_nil_iff hOwn).mp hVerified).2.2.1 b block hBlock⟩
  refine ⟨fun b hb => blockReachable_of_verified hVerified hBody hb, fun b hb => ?_,
    fun {b k inst} hInst => ?_, fun {b j k earlier inst} hBefore hEarlier hInst hPhi => ?_⟩
  · obtain ⟨block, hInsts, hOk⟩ := hAccepted b hb
    obtain ⟨term, hLast, _⟩ := hOk.terminates.1
    rw [hInsts]
    rintro hNone
    rw [hNone] at hLast
    cases hLast
  · obtain ⟨block, hInsts, hOk⟩ := hAccepted b (MirFunction.lt_of_getElem? hInst)
    rw [hInsts] at hInst ⊢
    obtain ⟨hLt, hGet⟩ := List.getElem?_eq_some_iff.mp hInst
    constructor
    · intro hTerm
      have hSplit : block.insts = block.insts.take k ++ inst :: block.insts.drop (k + 1) := by
        rw [← hGet, getElem_cons_drop, take_append_drop]
      have hNone := hOk.terminates.2 _ _ _ hSplit hTerm
      rw [drop_eq_nil_iff] at hNone
      omega
    · intro hEnd
      obtain ⟨term, hLast, hTerm⟩ := hOk.terminates.1
      rw [getLast?_eq_getElem?, ← hEnd, Nat.add_sub_cancel, hInst] at hLast
      rwa [Option.some.inj hLast]
  · obtain ⟨block, hInsts, hOk⟩ := hAccepted b (MirFunction.lt_of_getElem? hInst)
    rw [hInsts] at hEarlier hInst
    have hShape := hOk.shape
    rw [mirVerifyBlockShape, append_eq_nil_iff, append_eq_nil_iff] at hShape
    exact isPhi_of_instOrder hShape.1.2 hBefore hEarlier hInst hPhi

section

variable {l : Nat}

theorem PlaceDominates.trans (h : PlaceDominates func a j b k) (h' : PlaceDominates func b k c l)
    (hReachable : BlockReachable func b) : PlaceDominates func a j c l := by
  rcases h with ⟨rfl, hBefore⟩ | ⟨hOther, hDominates⟩
  · rcases h' with ⟨rfl, hBefore'⟩ | hElse
    · exact .inl ⟨rfl, hBefore.trans hBefore'⟩
    · exact .inr hElse
  · rcases h' with ⟨rfl, _⟩ | ⟨_, hDominates'⟩
    · exact .inr ⟨hOther, hDominates⟩
    · refine .inr ⟨fun hSame => hOther ?_, hDominates.trans hDominates'⟩
      exact hDominates.antisymm (hSame ▸ hDominates') hReachable

theorem PlaceDominates.asymm (h : PlaceDominates func a j b k) (h' : PlaceDominates func b k a j)
    (hReachable : BlockReachable func b) : False := by
  rcases h with ⟨rfl, hBefore⟩ | ⟨hOther, hDominates⟩
  · rcases h' with ⟨_, hAfter⟩ | ⟨hSelf, _⟩
    · exact lt_asymm hBefore hAfter
    · exact hSelf rfl
  · rcases h' with ⟨hSame, _⟩ | ⟨_, hDominates'⟩
    · exact hOther hSame.symm
    · exact hOther (hDominates.antisymm hDominates' hReachable)

theorem AvailableAt.trans (h : AvailableAt func b k id) (h' : PlaceDominates func b k c l)
    (hReachable : BlockReachable func b) : AvailableAt func c l id :=
  h.imp_right fun h => h.imp_right fun ⟨a, j, hDefined, hBefore⟩ =>
    ⟨a, j, hDefined, hBefore.trans h' hReachable⟩

theorem availableAt_succ (h : AvailableAt func b (k + 1) id) :
    AvailableAt func b k id ∨ DefinedAt func b k id := by
  rcases h with hZero | hParam | ⟨a, j, hDefined, ⟨rfl, hBefore⟩ | hElse⟩
  · exact .inl (.inl hZero)
  · exact .inl (.inr (.inl hParam))
  · rcases Nat.lt_succ_iff_lt_or_eq.mp hBefore with hEarlier | rfl
    · exact .inl (.inr (.inr ⟨a, j, hDefined, .inl ⟨rfl, hEarlier⟩⟩))
    · exact .inr hDefined
  · exact .inl (.inr (.inr ⟨a, j, hDefined, .inr hElse⟩))

/-- What is available where a block is entered was available at the end of the block before. -/
theorem availableAtEnd_of_enter (hEdge : c ∈ func.targets b) (h : AvailableAt func c 0 id) :
    AvailableAtEnd func b id := by
  refine h.imp_right fun h => h.imp_right fun ⟨a, j, hDefined, hBefore⟩ =>
    ⟨a, j, hDefined, ?_⟩
  rcases hBefore with ⟨_, hNone⟩ | ⟨hOther, hDominates⟩
  · cases hNone
  · have hHere : BlockDominates func a b :=
      dominates_of_next hDominates hEdge fun hSame => hOther hSame.symm
    by_cases hSame : a = b
    · subst hSame
      exact .inl ⟨rfl, lt_of_definedAt hDefined⟩
    · exact .inr ⟨hSame, hHere⟩

/-- A value that is no parameter is available only where its one definition dominates. -/
theorem SsaForm.placeDominates (hSsa : SsaForm func)
    (hDefined : DefinedAt func a j id) (hId : id ≠ 0)
    (h : AvailableAt func b k id) : PlaceDominates func a j b k := by
  rcases h with hZero | ⟨p, hp, hValue⟩ | ⟨a', j', hDefined', hBefore⟩
  · exact absurd hZero hId
  · rw [← hValue] at hDefined hId
    exact absurd (hSsa.params p hp a j hDefined) hId
  · obtain ⟨rfl, rfl⟩ := hSsa.single hDefined hDefined' hId
    exact hBefore

variable {inst : MirInst} {edges : List MirPhiEdge} {x : MirValueId}

theorem SsaForm.inst_eq (hSsa : SsaForm func) (hInst : (func.insts b)[k]? = some inst)
    (hResult : inst.result ≠ 0) {other : MirInst}
    (hOther : other ∈ func.blocks.flatMap (·.insts))
    (hSame : other.result = inst.result) : other = inst := by
  obtain ⟨c, j, hAt⟩ := MirFunction.exists_getElem?_of_mem hOther
  obtain ⟨rfl, rfl⟩ := hSsa.single ⟨inst, hInst, rfl⟩ ⟨other, hAt, hSame⟩ hResult
  exact Option.some.inj (hAt.symm.trans hInst)

theorem BlockDominates.of_placeDominates {a : MirBlockId} (h : PlaceDominates func a j b k) :
    BlockDominates func a b := by
  rcases h with ⟨rfl, _⟩ | ⟨_, hDominates⟩
  · exact dominates_refl a
  · exact hDominates

/-- What all operands of a PHI are copies of is available where its block is entered. -/
theorem availableAt_of_phi (hSsa : SsaForm func)
    (hUses : UsesDominated func) (hOrder : Orderly func)
    (hInst : (func.insts b)[k]? = some inst) (hOp : inst.op = .phi edges)
    (hEdges : ∀ edge ∈ edges, edge.value = x ∨ ∃ c j, DefinedAt func c j edge.value ∧
      edge.value ≠ 0 ∧ AvailableAt func c j x) : AvailableAt func b 0 x := by
  have hb := MirFunction.lt_of_getElem? hInst
  have hMem := mem_of_getElem? hInst
  have hNotEntry : b ≠ 0 := by
    intro hEntry
    rw [hEntry] at hMem
    have hNotPhi := hSsa.entryPhis inst hMem
    rw [hOp] at hNotPhi
    cases hNotPhi
  have hBefore : ∀ a, b ∈ func.targets a → AvailableAtEnd func a x := by
    intro a hEdge
    obtain ⟨edge, hFind⟩ := hSsa.phiEdges a b hEdge inst hMem edges hOp
    have hEdgeMem := mem_of_find?_eq_some hFind
    have hBlock : edge.block = some a := by simpa using find?_some hFind
    have hValue := hUses.phis b k inst edges hInst hOp edge hEdgeMem a hBlock
    rcases hEdges edge hEdgeMem with hSame | ⟨c, j, hDefined, hNonzero, hThere⟩
    · exact hSame ▸ hValue
    · exact hThere.trans (hSsa.placeDominates hDefined hNonzero hValue)
        (hOrder.reachable c (MirFunction.lt_of_getElem? hDefined.choose_spec.1))
  rcases exists_next_not_dominated (hOrder.reachable b hb) with hEntry | ⟨a, hEdge, hNot, _⟩
  · exact absurd hEntry hNotEntry
  · rcases hBefore a hEdge with hZero | hParam | ⟨d, i, hDefined, hThere⟩
    · exact .inl hZero
    · exact .inr (.inl hParam)
    · by_cases hZero : x = 0
      · exact .inl hZero
      · have hAll : ∀ a', b ∈ func.targets a' → BlockDominates func d a' := fun a' hEdge' =>
          .of_placeDominates (hSsa.placeDominates hDefined hZero (hBefore a' hEdge'))
        have hOther : d ≠ b := fun hSame => hNot (hSame ▸ hAll a hEdge)
        exact .inr (.inr ⟨d, i, hDefined, .inr ⟨hOther,
          dominates_of_forall_next (fun hEq => hNotEntry hEq.symm) hAll⟩⟩)

theorem AvailableAt.of_entry (h : AvailableAt func b 0 x) (k : Nat) : AvailableAt func b k x := by
  refine h.imp_right fun h => h.imp_right fun ⟨a, j, hDefined, hBefore⟩ =>
    ⟨a, j, hDefined, ?_⟩
  rcases hBefore with ⟨_, hNone⟩ | hElse
  · cases hNone
  · exact .inr hElse

end

section

variable {P : MirBlockId → Nat → MirInst → Prop}

theorem forall_getElem?_iff : (∀ (b : MirBlockId) (k : Nat) (inst : MirInst),
      (func.insts b)[k]? = some inst → P b k inst) ↔
    ∀ b ∈ List.range func.blocks.length, ∀ k ∈ List.range (func.insts b).length,
      ∀ inst ∈ (func.insts b)[k]?, P b k inst := by
  constructor
  · exact fun h b _ k _ inst hInst => h b k inst hInst
  · exact fun h b k inst hInst => h b (mem_range.mpr (MirFunction.lt_of_getElem? hInst)) k
      (mem_range.mpr (List.getElem?_eq_some_iff.mp hInst).1) inst hInst

instance [∀ b k inst, Decidable (P b k inst)] :
    Decidable (∀ (b : MirBlockId) (k : Nat) (inst : MirInst),
    (func.insts b)[k]? = some inst → P b k inst) :=
  decidable_of_iff' _ forall_getElem?_iff

/-- An edge of a PHI for each way into its block. -/
def hasEdges (func : MirFunction) (a b : MirBlockId) : Bool :=
  (func.insts b).all fun inst =>
    match inst.op with
    | .phi edges => edges.any (·.block == some a)
    | _ => true

theorem hasEdges_iff : hasEdges func a b = true ↔ ∀ inst ∈ func.insts b, ∀ edges,
    inst.op = .phi edges → ∃ edge, edges.find? (·.block == some a) = some edge := by
  unfold hasEdges
  rw [all_eq_true]
  refine forall₂_congr fun inst _ => ?_
  cases inst.op with
  | phi edges =>
    rw [any_eq_true]
    constructor
    · rintro ⟨edge, hEdge, hBlock⟩ edges' hOp
      cases hOp
      exact Option.isSome_iff_exists.mp (List.find?_isSome.mpr ⟨edge, hEdge, hBlock⟩)
    · intro h
      obtain ⟨edge, hFind⟩ := h edges rfl
      exact ⟨edge, mem_of_find?_eq_some hFind,
        find?_some (p := fun edge : MirPhiEdge => edge.block == some a) hFind⟩
  | _ => simp

theorem ssaForm_iff : SsaForm func ↔
    (∀ (a : MirBlockId) (j : Nat) (inst : MirInst), (func.insts a)[j]? = some inst →
      (inst.result ∈ func.params.map (·.valueId) → inst.result = 0) ∧
      (inst.op.isPhi = true → a ≠ 0 ∧ inst.result ≠ 0) ∧
      ∀ (b : MirBlockId) (k : Nat) (other : MirInst), (func.insts b)[k]? = some other →
        other.result = inst.result → inst.result ≠ 0 → a = b ∧ j = k) ∧
    ∀ a ∈ List.range func.blocks.length, ∀ b ∈ func.targets a,
      b < func.blocks.length ∧ hasEdges func a b = true := by
  constructor
  · intro h
    refine ⟨fun a j inst hInst =>
      ⟨fun hParam => ?_, fun hPhi => ⟨fun hEntry => ?_, ?_⟩, ?_⟩,
      fun a _ b hEdge => ⟨h.listed a b hEdge, hasEdges_iff.mpr (h.phiEdges a b hEdge)⟩⟩
    · obtain ⟨p, hp, hValue⟩ := mem_map.mp hParam
      exact hValue ▸ h.params p hp a j ⟨inst, hInst, hValue.symm⟩
    · have hMem := mem_of_getElem? hInst
      rw [hEntry] at hMem
      exact absurd ((h.entryPhis inst hMem).symm.trans hPhi) false_ne_true
    · exact h.phiResult inst (MirFunction.mem_flatMap_of_getElem? hInst) hPhi
    · exact fun b k other hOther hSame hResult =>
        h.single ⟨inst, hInst, rfl⟩ ⟨other, hOther, hSame⟩ hResult
  · rintro ⟨hInsts, hEdges⟩
    refine ⟨?_, ?_, fun inst hMem hPhi => ?_, fun inst hMem => ?_, fun a b hEdge => ?_,
      fun a b hEdge => ?_⟩
    · rintro a b j k id ⟨inst, hInst, rfl⟩ ⟨other, hOther, hSame⟩ hResult
      exact (hInsts a j inst hInst).2.2 b k other hOther hSame hResult
    · rintro p hp b k ⟨inst, hInst, hResult⟩
      exact hResult ▸ (hInsts b k inst hInst).1 (hResult ▸ mem_map_of_mem hp)
    · obtain ⟨b, k, hInst⟩ := MirFunction.exists_getElem?_of_mem hMem
      exact ((hInsts b k inst hInst).2.1 hPhi).2
    · obtain ⟨k, hInst⟩ := mem_iff_getElem?.mp hMem
      exact eq_false_iff.mpr fun hPhi => ((hInsts 0 k inst hInst).2.1 hPhi).1 rfl
    · exact (hEdges a (mem_range.mpr (MirFunction.lt_of_mem_targets hEdge)) b hEdge).1
    · exact hasEdges_iff.mp (hEdges a
        (mem_range.mpr (MirFunction.lt_of_mem_targets hEdge)) b hEdge).2

instance : Decidable (SsaForm func) := decidable_of_iff' _ ssaForm_iff

/-- The value is a parameter or defined earlier in the same block. -/
def availableWithin (func : MirFunction) (b : MirBlockId) (k : Nat) (id : MirValueId) : Bool :=
  id == 0 || func.params.any (·.valueId == id) || ((func.insts b).take k).any (·.result == id)

theorem AvailableAt.of_within (h : availableWithin func b k id = true) :
    AvailableAt func b k id := by
  unfold availableWithin at h
  rw [or_eq_true, or_eq_true] at h
  rcases h with (hZero | hParam) | hBefore
  · exact .inl (beq_iff_eq.mp hZero)
  · obtain ⟨p, hp, hValue⟩ := any_eq_true.mp hParam
    exact .inr (.inl ⟨p, hp, beq_iff_eq.mp hValue⟩)
  · obtain ⟨inst, hMem, hResult⟩ := any_eq_true.mp hBefore
    obtain ⟨j, hAt⟩ := mem_iff_getElem?.mp hMem
    have hEarlier : j < k := lt_of_lt_of_le (List.getElem?_eq_some_iff.mp hAt).1
      (length_take_le k (func.insts b))
    rw [getElem?_take_of_lt hEarlier] at hAt
    exact .inr (.inr ⟨b, j, ⟨inst, hAt, beq_iff_eq.mp hResult⟩, .inl ⟨rfl, hEarlier⟩⟩)

/-- The operands of this instruction are defined in its block, those of a PHI in the blocks
they come from. -/
def usesWithin (func : MirFunction) (b : MirBlockId) (k : Nat) (inst : MirInst) : Bool :=
  match inst.op with
  | .phi edges => edges.all fun edge =>
    match edge.block with
    | some a => availableWithin func a (func.insts a).length edge.value
    | none => true
  | op => (operandChecks op).all fun check => availableWithin func b k check.1

theorem usesDominated_of_within (h : ∀ (b : MirBlockId) (k : Nat) (inst : MirInst),
    (func.insts b)[k]? = some inst → usesWithin func b k inst = true) : UsesDominated func where
  uses b k inst hInst hPhi id hId := by
    have hWithin := h b k inst hInst
    obtain ⟨check, hCheck, rfl⟩ := mem_map.mp hId
    unfold usesWithin at hWithin
    cases hOp : inst.op with
    | phi edges =>
      rw [hOp] at hPhi
      cases hPhi
    | _ =>
      simp only [hOp] at hWithin hCheck
      exact .of_within (all_eq_true.mp hWithin check hCheck)
  phis b k inst edges hInst hOp edge hEdge a hBlock := by
    have hWithin := h b k inst hInst
    simp only [usesWithin, hOp] at hWithin
    have hOwn := all_eq_true.mp hWithin edge hEdge
    simp only [hBlock] at hOwn
    exact .of_within hOwn

end

end Casprix.Mir
