import Casprix.Mir.Ssa
import Casprix.Opt.Substitute

/-! `mir_pass_copy_propagate`, and which values are copies of others. -/
namespace Casprix.Opt

open List Mir

/-- The body of the loop. A `MIR_COPY` stays where it is, a PHI whose edges all carry one value
becomes a `MIR_NOP`. -/
def copyAt (func : MirFunction) (b : MirBlockId) (k : Nat) : MirFunction × Nat :=
  match (func.insts b)[k]? with
  | none => (func, 0)
  | some inst =>
    match inst.op with
    | .transfer .copy source =>
      if inst.result ≠ 0 then (replaceAllUses func inst.result source, 1) else (func, 0)
    | .phi (first :: others) =>
      if others.all (·.value == first.value) ∧ first.value ≠ inst.result then
        (setOp (replaceAllUses func inst.result first.value) b k .nop, 1)
      else (func, 0)
    | _ => (func, 0)

def copyWalk : List (MirBlockId × Nat) → MirFunction → MirFunction × Nat
  | [], func => (func, 0)
  | (b, k) :: rest, func =>
    let step := copyAt func b k
    let tail := copyWalk rest step.1
    (tail.1, step.2 + tail.2)

/-- The function after the pass, and the number of changes it returns. -/
def mirPassCopyPropagate (func : MirFunction) : MirFunction × Nat := copyWalk (places func) func

/-- The first value is the second, a copy of a copy of it, or a PHI of such copies only. -/
inductive CopyOf (func : MirFunction) : MirValueId → MirValueId → Prop
  | refl (v : MirValueId) : CopyOf func v v
  | copy {inst : MirInst} {source x : MirValueId} (hInst : inst ∈ func.blocks.flatMap (·.insts))
      (hOp : inst.op = .transfer .copy source) (hResult : inst.result ≠ 0)
      (hSource : CopyOf func source x) : CopyOf func inst.result x
  | phi {inst : MirInst} {edges : List MirPhiEdge} {x : MirValueId}
      (hInst : inst ∈ func.blocks.flatMap (·.insts))
        (hOp : inst.op = .phi edges) (hSome : edges ≠ [])
      (hEdges : ∀ edge ∈ edges, CopyOf func edge.value x) : CopyOf func inst.result x

theorem CopyOf.trans {func : MirFunction} {u v w : MirValueId} (h : CopyOf func u v)
    (h' : CopyOf func v w) : CopyOf func u w := by
  induction h with
  | refl => exact h'
  | copy hInst hOp hResult _ ih => exact .copy hInst hOp hResult (ih h')
  | phi hInst hOp hSome _ ih => exact .phi hInst hOp hSome fun edge hEdge => ih edge hEdge h'

/-- The value is a PHI of copies of another value. -/
def Collapsible (func : MirFunction) (v : MirValueId) : Prop :=
  ∃ inst ∈ func.blocks.flatMap (·.insts), inst.op.isPhi = true ∧ inst.result = v ∧
    ∃ x, x ≠ v ∧ CopyOf func v x

/-- What an instruction has become when the PHIs in `gone` were removed. -/
inductive Forwarded (rename : MirValueId → MirValueId) (gone : List MirValueId) (inst : MirInst) :
    MirInst → Prop
  | renamed : Forwarded rename gone inst (substInst rename inst)
  | collapsed (hPhi : inst.op.isPhi = true) (hGone : inst.result ∈ gone) :
      Forwarded rename gone inst { inst with op := .nop }

/-- A copy has the name of its source, and a PHI that was removed the name of its operands. -/
def SharesName (func : MirFunction) (rename : MirValueId → MirValueId) (gone : List MirValueId)
    (v : MirValueId) : Prop :=
  ∃ inst ∈ func.blocks.flatMap (·.insts), inst.result = v ∧
    ((∃ source, inst.op = .transfer .copy source ∧ rename v = rename source) ∨
      ∃ edges, inst.op = .phi edges ∧ v ∈ gone ∧
        ∀ edge ∈ edges, rename edge.value = rename v)

/-- The walk has made `cur` of the function, with the operands renamed and some PHIs removed. -/
structure Propagated (func cur : MirFunction) (rename : MirValueId → MirValueId)
    (gone : List MirValueId) : Prop where
  matched : MatchedBy (Forwarded rename gone) func cur
  copies : ∀ v, CopyOf func v (rename v)
  named : ∀ v, rename v = v ∨ SharesName func rename gone v
  clear : ∀ v, rename v ∉ gone
  collapsible : ∀ v ∈ gone, Collapsible func v

section

variable {func cur : MirFunction} {rename : MirValueId → MirValueId} {gone : List MirValueId}
  {inst inst' : MirInst} {b : MirBlockId} {k : Nat}

theorem Forwarded.result_eq (h : Forwarded rename gone inst inst') :
    inst'.result = inst.result := by
  cases h <;> rfl

theorem Forwarded.transfer (h : Forwarded rename gone inst inst')
    {op : TransferOp} {source : MirValueId} (hOp : inst'.op = .transfer op source) :
    ∃ source₀, inst.op = .transfer op source₀ ∧ source = rename source₀ := by
  cases h with
  | renamed =>
    have hNew : substOp rename inst.op = .transfer op source := hOp
    generalize inst.op = found at hNew ⊢
    cases found with
    | transfer op₀ source₀ =>
      cases hNew
      exact ⟨source₀, rfl, rfl⟩
    | _ =>
      cases hNew
  | collapsed => cases hOp

theorem Forwarded.phi (h : Forwarded rename gone inst inst') {edges : List MirPhiEdge}
    (hOp : inst'.op = .phi edges) :
    ∃ edges₀, inst.op = .phi edges₀ ∧ edges = edges₀.map (Cvm.renameEdge rename) := by
  cases h with
  | renamed =>
    have hNew : substOp rename inst.op = .phi edges := hOp
    generalize inst.op = op at hNew ⊢
    cases op with
    | phi edges₀ =>
      cases hNew
      exact ⟨edges₀, rfl, rfl⟩
    | _ =>
      cases hNew
  | collapsed => cases hOp

/-- Replacing one value by another in a function that the walk has come to. -/
theorem Propagated.replace (h : Propagated func cur rename gone) (oldVal newVal : MirValueId) :
    MatchedBy (Forwarded (replaced oldVal newVal ∘ rename) gone) func
      (replaceAllUses cur oldVal newVal) := by
  refine h.matched.mapInsts fun old new hRel => ?_
  cases hRel with
  | renamed =>
    rw [replaceValueInInst_substInst]
    exact .renamed
  | collapsed hPhi hGone => exact .collapsed hPhi hGone

theorem Propagated.copies_replace (h : Propagated func cur rename gone) {v w : MirValueId}
    (hCopy : CopyOf func v (rename w)) (u : MirValueId) :
    CopyOf func u ((replaced v (rename w) ∘ rename) u) ∧
      ((replaced v (rename w) ∘ rename) u = rename w ∨
        (replaced v (rename w) ∘ rename) u = rename u ∧ rename u ≠ v) := by
  have hCase : (replaced v (rename w) ∘ rename) u = if rename u = v then rename w else rename u :=
    rfl
  rw [hCase]
  split
  · next hSame => exact ⟨(hSame ▸ h.copies u).trans hCopy, .inl rfl⟩
  · next hOther => exact ⟨h.copies u, .inr ⟨rfl, hOther⟩⟩

theorem SharesName.replace {v : MirValueId} (h : SharesName func rename gone v)
    {gone' : List MirValueId} (hMore : gone ⊆ gone') (f : MirValueId → MirValueId) :
    SharesName func (f ∘ rename) gone' v := by
  obtain ⟨inst, hInst, hResult, hCase⟩ := h
  refine ⟨inst, hInst, hResult, ?_⟩
  rcases hCase with ⟨source, hOp, hSame⟩ | ⟨edges, hOp, hGone, hSame⟩
  · exact .inl ⟨source, hOp, congrArg f hSame⟩
  · exact .inr ⟨edges, hOp, hMore hGone, fun edge hEdge => congrArg f (hSame edge hEdge)⟩

theorem Propagated.named_replace (h : Propagated func cur rename gone) {v w : MirValueId}
    {gone' : List MirValueId} (hMore : gone ⊆ gone')
    (hOwn : (replaced v (rename w) ∘ rename) v = rename w →
      SharesName func (replaced v (rename w) ∘ rename) gone' v) (u : MirValueId) :
    (replaced v (rename w) ∘ rename) u = u ∨
      SharesName func (replaced v (rename w) ∘ rename) gone' u := by
  rcases h.named u with hSelf | hShares
  · have hNew : (replaced v (rename w) ∘ rename) u = if u = v then rename w else u :=
      congrArg (replaced v (rename w)) hSelf
    by_cases hSame : u = v
    · subst hSame
      rw [if_pos rfl] at hNew
      exact .inr (hOwn hNew)
    · rw [if_neg hSame] at hNew
      exact .inl hNew
  · exact .inr (hShares.replace hMore (replaced v (rename w)))

theorem replaced_self (v w : MirValueId) : replaced v w w = w := ite_self w

section

variable (h : Propagated func cur rename gone)
include h

theorem Propagated.forward {source : MirValueId}
    (hMem : inst ∈ func.blocks.flatMap (·.insts)) (hOp : inst.op = .transfer .copy source)
    (hResult : inst.result ≠ 0) : Propagated func (replaceAllUses cur inst.result (rename source))
      (replaced inst.result (rename source) ∘ rename) gone := by
  have hCopy : CopyOf func inst.result (rename source) := .copy hMem hOp hResult (h.copies source)
  refine ⟨h.replace inst.result (rename source), fun u => (h.copies_replace hCopy u).1,
    h.named_replace (List.Subset.refl gone) fun hNew =>
      ⟨inst, hMem, rfl, .inl ⟨source, hOp, ?_⟩⟩,
    fun u => ?_, h.collapsible⟩
  · rw [hNew]
    exact (replaced_self inst.result (rename source)).symm
  · rcases (h.copies_replace hCopy u).2 with hNew | ⟨hSame, _⟩
    · rw [hNew]
      exact h.clear source
    · rw [hSame]
      exact h.clear u

theorem Propagated.collapse {first : MirPhiEdge} {others : List MirPhiEdge}
    (hInst : (func.insts b)[k]? = some inst) (hOp : inst.op = .phi (first :: others))
    (hSame : ∀ edge ∈ first :: others, rename edge.value = rename first.value)
    (hOther : rename first.value ≠ inst.result) :
    Propagated func (setOp (replaceAllUses cur inst.result (rename first.value)) b k .nop)
      (replaced inst.result (rename first.value) ∘ rename) (inst.result :: gone) := by
  have hMem := MirFunction.mem_flatMap_of_getElem? hInst
  have hCopy : CopyOf func inst.result (rename first.value) :=
    .phi hMem hOp (cons_ne_nil first others) fun edge hEdge =>
      hSame edge hEdge ▸ h.copies edge.value
  have hPhi : inst.op.isPhi = true := by
    rw [hOp]
    rfl
  refine ⟨?_, fun u => (h.copies_replace hCopy u).1,
    h.named_replace (subset_cons_self inst.result gone) fun hNew => ⟨inst, hMem, rfl,
      .inr ⟨_, hOp, mem_cons_self, fun edge hEdge => ?_⟩⟩, fun u => ?_, fun u hu => ?_⟩
  · have hWider : ∀ old new, Forwarded
        (replaced inst.result (rename first.value) ∘ rename) gone old new →
        Forwarded (replaced inst.result (rename first.value) ∘ rename)
          (inst.result :: gone) old new := by
      intro old new hOldRel
      cases hOldRel with
      | renamed => exact .renamed
      | collapsed hPhi' hGone => exact .collapsed hPhi' (mem_cons_of_mem inst.result hGone)
    refine (h.replace inst.result (rename first.value)).setOp hWider fun old new hOldInst hOldRel =>
      ?_
    cases hInst.symm.trans hOldInst
    have hNew : ({ new with op := .nop } : MirInst) = { inst with op := .nop } := by
      cases hOldRel <;> rfl
    rw [hNew]
    exact .collapsed hPhi mem_cons_self
  · rw [hNew, Function.comp_apply, hSame edge hEdge]
    exact replaced_self inst.result (rename first.value)
  · rw [mem_cons, not_or]
    rcases (h.copies_replace hCopy u).2 with hNew | ⟨hKept, hDiffer⟩
    · rw [hNew]
      exact ⟨hOther, h.clear first.value⟩
    · rw [hKept]
      exact ⟨hDiffer, h.clear u⟩
  · rcases mem_cons.mp hu with hNew | hOldGone
    · exact ⟨inst, hMem, hPhi, hNew.symm, rename first.value,
        fun hEq => hOther (hEq.trans hNew), hNew ▸ hCopy⟩
    · exact h.collapsible u hOldGone

theorem copyAt_propagated (b : MirBlockId) (k : Nat) :
    ∃ rename' gone', Propagated func (copyAt cur b k).1 rename' gone' := by
  have hStays : ∃ rename' gone', Propagated func cur rename' gone' := ⟨rename, gone, h⟩
  unfold copyAt
  split
  · exact hStays
  · next inst' hAt =>
      obtain ⟨inst, hInst, hRel⟩ := h.matched.getElem? hAt
      split
      · next source hOp =>
          split
          · next hResult =>
              rw [hRel.result_eq] at hResult ⊢
              obtain ⟨source₀, hOld, rfl⟩ := hRel.transfer hOp
              exact ⟨_, _, h.forward (MirFunction.mem_flatMap_of_getElem? hInst) hOld hResult⟩
          · exact hStays
      · next first others hOp =>
          split
          · next hTest =>
              obtain ⟨hAll, hOther⟩ := hTest
              rw [hRel.result_eq] at hOther ⊢
              obtain ⟨edges₀, hOld, hEdges⟩ := hRel.phi hOp
              cases edges₀ with
              | nil => cases hEdges
              | cons first₀ others₀ =>
                rw [map_cons, List.cons.injEq] at hEdges
                obtain ⟨rfl, rfl⟩ := hEdges
                refine ⟨_, _, h.collapse hInst hOld (fun edge hEdge => ?_) hOther⟩
                rcases mem_cons.mp hEdge with rfl | hEdge
                · rfl
                · exact beq_iff_eq.mp (all_eq_true.mp hAll _ (mem_map_of_mem hEdge))
          · exact hStays
      · exact hStays

theorem copyWalk_propagated (at_ : List (MirBlockId × Nat)) :
    ∃ rename' gone', Propagated func (copyWalk at_ cur).1 rename' gone' := by
  induction at_ generalizing cur rename gone with
  | nil => exact ⟨rename, gone, h⟩
  | cons place rest ih =>
    obtain ⟨rename', gone', hStep⟩ := copyAt_propagated h place.1 place.2
    exact ih hStep

end

theorem propagated_pass (func : MirFunction) :
    ∃ rename gone, Propagated func (mirPassCopyPropagate func).1 rename gone := by
  have hStart : Propagated func func id [] := by
    refine ⟨matchedBy_refl (fun inst => ?_) func, .refl, fun _ => .inl rfl, fun _ => not_mem_nil,
      nofun⟩
    have hSame : substInst id inst = inst := by
      unfold substInst
      rw [substOp_id]
    have hRenamed : Forwarded id [] inst (substInst id inst) := .renamed
    rwa [hSame] at hRenamed
  exact copyWalk_propagated hStart (places func)

end

end Casprix.Opt
