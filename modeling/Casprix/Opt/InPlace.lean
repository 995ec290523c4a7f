import Mathlib.Data.List.Forall2
import Casprix.Opt.Uses

/-! Passes that change the instructions of a function where they stand. -/
namespace Casprix.Opt

open Mir List

/-- The opcode, with its operands, is overwritten at one place. -/
def setOp (func : MirFunction) (b : MirBlockId) (k : Nat) (op : MirOp) : MirFunction :=
  { func with
    blocks := func.blocks.modify b fun block =>
      { block with insts := block.insts.modify k fun inst => { inst with op := op } } }

/-- The places of a function in the order of a walk over its blocks. -/
def places (func : MirFunction) : List (MirBlockId × Nat) :=
  (List.range func.blocks.length).flatMap fun b => (List.range (func.insts b).length).map (b, ·)

/-- The functions differ only in the instructions, which are as many in each block and related
one by one. -/
structure MatchedBy (R : MirInst → MirInst → Prop) (func cur : MirFunction) : Prop where
  name_eq : cur.name = func.name
  params_eq : cur.params = func.params
  nextValueId_eq : cur.nextValueId = func.nextValueId
  isExtern_eq : cur.isExtern = func.isExtern
  blocks : List.Forall₂ (fun block block' =>
    List.Forall₂ R block.insts block'.insts) func.blocks
    cur.blocks

section

variable {α β : Type} {R R' : α → β → Prop} {l : List α} {l' : List β}

section

variable (h : List.Forall₂ R l l')
include h

theorem forall₂_modify {f : β → β} {k : Nat} (hOther : ∀ a a', R a a' → R' a a')
    (hAt : ∀ a a', l[k]? = some a → R a a' → R' a (f a')) :
    List.Forall₂ R' l (l'.modify k f) := by
  induction h generalizing k with
  | nil =>
    rw [modify_nil]
    exact .nil
  | @cons a a' rest rest' hHead hRest ih =>
    cases k with
    | zero => exact .cons (hAt a a' rfl hHead) (hRest.imp hOther)
    | succ k => exact .cons (hOther a a' hHead) (ih fun x x' hx => hAt x x' hx)

theorem forall₂_getElem? {k : Nat} {a' : β} (hAt : l'[k]? = some a') :
    ∃ a, l[k]? = some a ∧ R a a' := by
  induction h generalizing k with
  | nil => cases hAt
  | @cons a _ _ _ hHead _ ih =>
    cases k with
    | zero =>
      cases hAt
      exact ⟨a, rfl, hHead⟩
    | succ k => exact ih hAt

theorem forall₂_getElem?_left {k : Nat} {a : α} (hAt : l[k]? = some a) :
    ∃ a', l'[k]? = some a' ∧ R a a' :=
  forall₂_getElem? (List.Forall₂.flip h) hAt

theorem forall₂_find? {p : α → Bool} {q : β → Bool}
    (hSame : ∀ a a', R a a' → q a' = p a) {a' : β} (hFind : l'.find? q = some a') :
    ∃ a, l.find? p = some a ∧ R a a' := by
  induction h with
  | nil => cases hFind
  | @cons a head _ _ hHead _ ih =>
    rw [List.find?_cons, hSame a head hHead] at hFind
    rw [List.find?_cons]
    generalize p a = found at hFind ⊢
    cases found with
    | true =>
      cases hFind
      exact ⟨a, rfl, hHead⟩
    | false =>
      exact ih hFind

end

end

section

variable {R R' : MirInst → MirInst → Prop} {func cur : MirFunction} {b : MirBlockId} {k : Nat}
  {inst' : MirInst} {v : MirValueId}

theorem matchedBy_refl (h : ∀ inst, R inst inst) (func : MirFunction) : MatchedBy R func func :=
  ⟨rfl, rfl, rfl, rfl, forall₂_same.mpr fun _ _ => forall₂_same.mpr fun inst _ => h inst⟩

theorem MatchedBy.mapInsts (h : MatchedBy R func cur) {f : MirInst → MirInst}
    (hInst : ∀ inst inst', R inst inst' → R' inst (f inst')) :
    MatchedBy R' func (mapInsts cur f) where
  name_eq := h.name_eq
  params_eq := h.params_eq
  nextValueId_eq := h.nextValueId_eq
  isExtern_eq := h.isExtern_eq
  blocks := by
    show List.Forall₂ _ func.blocks (cur.blocks.map _)
    rw [forall₂_map_right_iff]
    exact h.blocks.imp fun block block' hBlock =>
      forall₂_map_right_iff.mpr (hBlock.imp hInst)

theorem MatchedBy.setOp (h : MatchedBy R func cur) {op : MirOp}
    (hOther : ∀ inst inst', R inst inst' → R' inst inst')
    (hAt : ∀ inst inst', (func.insts b)[k]? = some inst → R inst inst' →
      R' inst { inst' with op := op }) : MatchedBy R' func (setOp cur b k op) where
  name_eq := h.name_eq
  params_eq := h.params_eq
  nextValueId_eq := h.nextValueId_eq
  isExtern_eq := h.isExtern_eq
  blocks := by
    refine forall₂_modify h.blocks (fun block block' hBlock => hBlock.imp hOther)
      fun block block' hBlock hInsts => forall₂_modify hInsts hOther fun inst inst' hInst hRel =>
        ?_
    refine hAt inst inst' ?_ hRel
    rw [MirFunction.insts, MirFunction.block?, hBlock]
    exact hInst

section

variable (h : MatchedBy R func cur)
include h

theorem MatchedBy.insts (b : MirBlockId) :
    List.Forall₂ R (func.insts b) (cur.insts b) := by
  unfold MirFunction.insts MirFunction.block?
  cases hNew : cur.blocks[b]? with
  | none =>
    have hOld : func.blocks[b]? = none := by
      rw [List.getElem?_eq_none_iff] at hNew ⊢
      rwa [h.blocks.length_eq]
    rw [hOld]
    exact .nil
  | some block' =>
    obtain ⟨block, hOld, hInsts⟩ := forall₂_getElem? h.blocks hNew
    rw [hOld]
    exact hInsts

theorem MatchedBy.getElem? (hAt : (cur.insts b)[k]? = some inst') :
    ∃ inst, (func.insts b)[k]? = some inst ∧ R inst inst' :=
  forall₂_getElem? (h.insts b) hAt

theorem MatchedBy.getElem?_left {inst : MirInst} (hAt : (func.insts b)[k]? = some inst) :
    ∃ inst', (cur.insts b)[k]? = some inst' ∧ R inst inst' :=
  forall₂_getElem?_left (h.insts b) hAt

theorem MatchedBy.flat :
    List.Forall₂ R (func.blocks.flatMap (·.insts)) (cur.blocks.flatMap (·.insts)) :=
  rel_flatMap h.blocks fun _ _ hInsts => hInsts

end

/-- The search for a definition ends at the same place. -/
theorem MatchedBy.findDef (h : MatchedBy R func cur)
    (hResult : ∀ inst inst', R inst inst' → inst'.result = inst.result)
    (hFind : findDef cur v = some inst') : ∃ inst, findDef func v = some inst ∧ R inst inst' :=
  forall₂_find? h.flat (fun inst inst' hRel => by rw [hResult inst inst' hRel]) hFind

end

end Casprix.Opt
