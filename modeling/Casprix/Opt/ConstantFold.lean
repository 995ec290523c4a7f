import Casprix.Opt.Substitute

/-! `mir_pass_constant_fold`, and what it knows about values when it folds and removes. -/
namespace Casprix.Opt

open Mir Cvm List

def isArithmetic : BinaryOp → Bool
  | .add | .sub | .mul | .div | .mod => true
  | _ => false

def isComparison : BinaryOp → Bool
  | .cmpEq | .cmpNe | .cmpLt | .cmpLe | .cmpGt | .cmpGe => true
  | _ => false

/-- The arithmetic of the pass on `int64_t`, where sums and products wrap around. There is no
result where a quotient overflows: C does not define it, and processors trap. A division by
zero is not valid and left to the machine. -/
def foldArithmetic (op : BinaryOp) (l r : Word) : Option (Option Word) :=
  match op with
  | .add => some (some (l + r))
  | .sub => some (some (l - r))
  | .mul => some (some (l * r))
  | .div => if r = 0 then some none else if l = intMin ∧
    r = -1 then none else some (some (l.sdiv r))
  | .mod => if r = 0 then some none else if l = intMin ∧
    r = -1 then none else some (some (l.srem r))
  | _ => some none

def foldComparison (op : BinaryOp) (l r : Word) : Bool :=
  match op with
  | .cmpEq => l == r
  | .cmpNe => l != r
  | .cmpLt => l.slt r
  | .cmpLe => l.sle r
  | .cmpGt => r.slt l
  | .cmpGe => r.sle l
  | _ => false

variable (func : MirFunction)

/-- An operation on constants as the first two parts of the loop body leave it. -/
def foldConstants (op : MirOp) : Option MirOp :=
  match op with
  | .binary binOp lhs rhs =>
    match constBehind func lhs, constBehind func rhs with
    | some l, some r =>
      if isArithmetic binOp then
        match foldArithmetic binOp l r with
        | some (some result) => some (.constInt result)
        | some none => some op
        | none => none
      else if isComparison binOp then some (.constBool (foldComparison binOp l r))
      else some op
    | _, _ => some op
  | _ => some op

/-- The algebraic identities, for the instruction at this place. -/
def foldIdentity (b : MirBlockId) (k : Nat) (inst : MirInst) : MirFunction × Nat :=
  match inst.op with
  | .binary .add lhs rhs | .binary .sub lhs rhs =>
    if constBehind func rhs = some 0 then
      (setOp (replaceAllUses func inst.result lhs) b k .nop, 1)
    else (func, 0)
  | .binary .mul lhs rhs =>
    if constBehind func rhs = some 1 then
      (setOp (replaceAllUses func inst.result lhs) b k .nop, 1)
    else if constBehind func rhs = some 0 then (setOp func b k (.constInt 0), 1)
    else (func, 0)
  | _ => (func, 0)

/-- The body of the loop. An operation that was folded is a constant, which no identity is
about. -/
def foldAt (b : MirBlockId) (k : Nat) : Option (MirFunction × Nat) :=
  match (func.insts b)[k]? with
  | none => some (func, 0)
  | some inst =>
    match foldConstants func inst.op with
    | none => none
    | some op => if op = inst.op then some (foldIdentity func b k inst)
      else some (setOp func b k op, 1)

def foldWalk : List (MirBlockId × Nat) → MirFunction → Option (MirFunction × Nat)
  | [], func => some (func, 0)
  | (b, k) :: rest, func =>
    match foldAt func b k with
    | none => none
    | some folded => (foldWalk rest folded.1).map fun tail => (tail.1, folded.2 + tail.2)

/-- The function after the pass, and the number of changes it returns. The walk neither adds
nor unlinks instructions, so it comes to the places there are at the start. -/
def mirPassConstantFold (func : MirFunction) : Option (MirFunction × Nat) :=
  foldWalk (places func) func

section

variable {Heap : Type} {op : BinaryOp} {l r c : Word}

variable (host : CvmHost Heap) in
theorem cvmBinary_of_foldArithmetic (h : foldArithmetic op l r = some (some c)) :
    cvmBinary host op l r = c := by
  unfold foldArithmetic at h
  cases op with
  | add | sub | mul =>
    cases h
    rfl
  | div | mod =>
    simp only at h
    split at h
    · cases h
    · next hNonzero =>
        split at h
        · cases h
        · next hDefined =>
            cases h
            simp only [cvmBinary, cvmSafeDivI64, cvmSafeModI64, if_neg hNonzero, if_neg hDefined]
  | _ => cases h

variable (host : CvmHost Heap) in
theorem cvmBinary_of_isComparison (hOp : isComparison op = true) :
    cvmBinary host op l r = flag (foldComparison op l r) := by
  cases op with
  | cmpEq | cmpNe | cmpLt | cmpLe | cmpGt | cmpGe => rfl
  | _ => cases hOp

theorem foldArithmetic_eq_none_iff :
    foldArithmetic op l r = none ↔ (op = .div ∨ op = .mod) ∧ l = intMin ∧ r = -1 := by
  have hMinusOne : (-1 : Word) ≠ 0 := by decide
  unfold foldArithmetic
  cases op with
  | div | mod =>
    simp only [true_or, or_true, true_and]
    split
    · next hZero =>
        rw [hZero]
        exact iff_of_false (fun h => by cases h) fun h => hMinusOne h.2.symm
    · split
      · next hOverflow => exact ⟨fun _ => hOverflow, fun _ => rfl⟩
      · next hDefined => exact iff_of_false (fun h => by cases h) hDefined
  | _ => simp

/-- The right operand that leaves the left one as it is. -/
def neutral : BinaryOp → Option Word
  | .add | .sub => some 0
  | .mul => some 1
  | _ => none

end

mutual

/-- The value is the constant, as far as the pass may find out. -/
inductive Known (func : MirFunction) : MirValueId → Word → Prop
  | const {v : MirValueId} {inst : MirInst} {c : Word} (hDef : findDef func v = some inst)
      (hOp : inst.op = .constInt c) : Known func v c
  | folded {v lhs rhs : MirValueId} {inst : MirInst} {op : BinaryOp} {l r c : Word}
      (hDef : findDef func v = some inst) (hOp : inst.op = .binary op lhs rhs)
      (hLhs : Known func lhs l) (hRhs : Known func rhs r)
      (hFold : foldArithmetic op l r = some (some c)) : Known func v c
  | zero {v lhs rhs : MirValueId} {inst : MirInst} (hDef : findDef func v = some inst)
      (hOp : inst.op = .binary .mul lhs rhs) (hRhs : Known func rhs 0) : Known func v 0
  | same {v w : MirValueId} {c : Word} (hSame : Agrees func v w) (hKnown : Known func w c) :
      Known func v c

/-- The first value may be replaced by the second. -/
inductive Agrees (func : MirFunction) : MirValueId → MirValueId → Prop
  | refl (v : MirValueId) : Agrees func v v
  | trans {u v w : MirValueId} (hFirst : Agrees func u v) (hSecond : Agrees func v w) :
      Agrees func u w
  | identity {inst : MirInst} {op : BinaryOp} {lhs rhs : MirValueId} {k : Word}
      (hInst : inst ∈ func.blocks.flatMap (·.insts)) (hOp : inst.op = .binary op lhs rhs)
      (hNeutral : neutral op = some k) (hRhs : Known func rhs k) : Agrees func inst.result lhs

end

/-- The instruction is `lhs + 0`, `lhs - 0` or `lhs * 1`. -/
def IsIdentity (inst : MirInst) (lhs : MirValueId) : Prop :=
  inst ∈ func.blocks.flatMap (·.insts) ∧
    ∃ op rhs k, inst.op = .binary op lhs rhs ∧ neutral op = some k ∧ Known func rhs k

/-- The value is the result of an identity, which the pass removes. -/
def Removable (v : MirValueId) : Prop :=
  ∃ inst lhs, IsIdentity func inst lhs ∧ inst.result = v

/-- A quotient or remainder whose operands are known to overflow it. -/
def DivisionOverflows : Prop :=
  ∃ inst ∈ func.blocks.flatMap (·.insts), ∃ op lhs rhs, inst.op = .binary op lhs rhs ∧
    (op = .div ∨ op = .mod) ∧ Known func lhs intMin ∧ Known func rhs (-1)

/-- No identity is about its own result, not even through others. -/
def IdentitiesAcyclic (func : MirFunction) : Prop :=
  ∀ inst lhs, IsIdentity func inst lhs → ¬Agrees func lhs inst.result

theorem IsIdentity.agrees {func : MirFunction} {inst : MirInst} {lhs : MirValueId}
    (h : IsIdentity func inst lhs) : Agrees func inst.result lhs := by
  obtain ⟨hInst, op, rhs, k, hOp, hNeutral, hRhs⟩ := h
  exact .identity hInst hOp hNeutral hRhs

/-- What an instruction has become when the values in `gone` were removed. -/
inductive Changed (func : MirFunction) (rename : MirValueId → MirValueId) (gone : List MirValueId)
    (inst : MirInst) : MirInst → Prop
  | renamed : Changed func rename gone inst (substInst rename inst)
  | arithmetic {op : BinaryOp} {lhs rhs : MirValueId} {l r c : Word}
    (hOp : inst.op = .binary op lhs rhs)
      (hLhs : Known func lhs l) (hRhs : Known func rhs r)
      (hFold : foldArithmetic op l r = some (some c)) :
      Changed func rename gone inst { inst with op := .constInt c }
  | comparison {op : BinaryOp} {lhs rhs : MirValueId} {l r : Word}
    (hOp : inst.op = .binary op lhs rhs)
      (hLhs : Known func lhs l) (hRhs : Known func rhs r) (hComparison : isComparison op = true) :
      Changed func rename gone inst { inst with op := .constBool (foldComparison op l r) }
  | zero {lhs rhs : MirValueId} (hOp : inst.op = .binary .mul lhs rhs) (hRhs : Known func rhs 0) :
      Changed func rename gone inst { inst with op := .constInt 0 }
  | removed {lhs : MirValueId} (hIdentity : IsIdentity func inst lhs)
    (hGone : inst.result ∈ gone) :
      Changed func rename gone inst { inst with op := .nop }

/-- The walk has made `cur` of the function, with the operands renamed and some values removed. -/
structure Folded (func cur : MirFunction) (rename : MirValueId → MirValueId)
    (gone : List MirValueId) :
    Prop where
  matched : MatchedBy (Changed func rename gone) func cur
  agrees : ∀ v, Agrees func v (rename v)
  clear : ∀ v, rename v ∉ gone
  fixed : ∀ v, v ∉ gone → rename v = v
  removable : ∀ v ∈ gone, Removable func v
  operand : ∀ v, rename v = v ∨ ∃ inst ∈ func.blocks.flatMap (·.insts),
    rename v ∈ inst.op.operands

section

variable {func cur : MirFunction} {rename : MirValueId → MirValueId} {gone : List MirValueId}
  {inst inst' : MirInst} {b : MirBlockId} {k : Nat} {v : MirValueId} {c : Word}

theorem Changed.result_eq (h : Changed func rename gone inst inst') :
    inst'.result = inst.result := by
  cases h <;> rfl

theorem Changed.binary (h : Changed func rename gone inst inst')
    {op : BinaryOp} {lhs rhs : MirValueId} (hOp : inst'.op = .binary op lhs rhs) :
    ∃ lhs₀ rhs₀, inst.op = .binary op lhs₀ rhs₀ ∧
      lhs = rename lhs₀ ∧ rhs = rename rhs₀ := by
  cases h with
  | renamed =>
    cases hOld : inst.op with
    | binary op₀ lhs₀ rhs₀ =>
      have hNew : substOp rename inst.op = .binary op lhs rhs := hOp
      rw [hOld] at hNew
      cases hNew
      exact ⟨lhs₀, rhs₀, rfl, rfl, rfl⟩
    | _ =>
      have hNew : substOp rename inst.op = .binary op lhs rhs := hOp
      rw [hOld] at hNew
      cases hNew
  | arithmetic | comparison | zero | removed => cases hOp

theorem Changed.known (h : Changed func rename gone inst inst') (hDef : findDef func v = some inst)
    (hOp : inst'.op = .constInt c) : Known func v c := by
  cases h with
  | renamed =>
    have hNew : substOp rename inst.op = .constInt c := hOp
    generalize hOld : inst.op = op at hNew ⊢
    cases op with
    | constInt imm =>
      cases hNew
      exact .const hDef hOld
    | _ =>
      cases hNew
  | arithmetic hOld hLhs hRhs hFold =>
    cases hOp
    exact .folded hDef hOld hLhs hRhs hFold
  | zero hOld hRhs =>
    cases hOp
    exact .zero hDef hOld hRhs
  | comparison | removed => cases hOp

/-- A constant that the walk finds behind a renamed operand is known of the operand. -/
theorem Folded.known (h : Folded func cur rename gone)
    (hConst : constBehind cur (rename v) = some c) :
    Known func v c := by
  unfold constBehind at hConst
  split at hConst
  · next inst' hFind =>
      split at hConst
      · next imm hOp =>
          cases hConst
          obtain ⟨inst, hDef, hChanged⟩ :=
            h.matched.findDef (fun _ _ hRel => hRel.result_eq) hFind
          exact .same (h.agrees v) (hChanged.known hDef hOp)
      · cases hConst
  · cases hConst

section

variable (h : Folded func cur rename gone)
include h

theorem Folded.setConst {op : MirOp}
    (hAt : ∀ inst, (func.insts b)[k]? = some inst → Changed func rename gone inst
      { inst with op := op }) :
    Folded func (setOp cur b k op) rename gone where
  matched := h.matched.setOp (fun _ _ hRel => hRel) fun inst inst' hInst hRel => by
    have hSame : ({ inst' with op := op } : MirInst) = { inst with op := op } := by
      cases hRel <;> rfl
    rw [hSame]
    exact hAt inst hInst
  agrees := h.agrees
  clear := h.clear
  fixed := h.fixed
  removable := h.removable
  operand := h.operand

theorem Folded.remove (hAcyclic : IdentitiesAcyclic func)
    (hInst : (func.insts b)[k]? = some inst) {lhs : MirValueId}
    (hIdentity : IsIdentity func inst lhs) :
    Folded func (setOp (replaceAllUses cur inst.result (rename lhs)) b k .nop)
      (replaced inst.result (rename lhs) ∘ rename) (inst.result :: gone) := by
  have hOther : rename lhs ≠ inst.result := fun hSame =>
    hAcyclic inst lhs hIdentity (hSame ▸ h.agrees lhs)
  have hCase : ∀ v, (replaced inst.result (rename lhs) ∘ rename) v =
      if rename v = inst.result then rename lhs else rename v := fun _ => rfl
  refine ⟨?_, fun v => ?_, fun v => ?_, fun v hv => ?_, fun v hv => ?_, fun v => ?_⟩
  · have hReplaced : MatchedBy
        (Changed func (replaced inst.result (rename lhs) ∘ rename) (inst.result :: gone)) func
        (replaceAllUses cur inst.result (rename lhs)) := by
      refine h.matched.mapInsts fun old new hRel => ?_
      cases hRel with
      | renamed =>
        rw [replaceValueInInst_substInst]
        exact .renamed
      | arithmetic hOp hLhs hRhs hFold => exact .arithmetic hOp hLhs hRhs hFold
      | comparison hOp hLhs hRhs hComparison => exact .comparison hOp hLhs hRhs hComparison
      | zero hOp hRhs => exact .zero hOp hRhs
      | removed hOld hGone => exact .removed hOld (mem_cons_of_mem inst.result hGone)
    refine hReplaced.setOp (fun _ _ hRel => hRel) fun old new hOld hRel => ?_
    cases hInst.symm.trans hOld
    have hSame : ({ new with op := .nop } : MirInst) = { inst with op := .nop } := by
      cases hRel <;> rfl
    rw [hSame]
    exact .removed hIdentity mem_cons_self
  · rw [hCase]
    split
    · next hSame => exact (hSame ▸ h.agrees v).trans (hIdentity.agrees.trans (h.agrees lhs))
    · exact h.agrees v
  · rw [hCase, mem_cons, not_or]
    split
    · exact ⟨hOther, h.clear lhs⟩
    · next hDiffer => exact ⟨hDiffer, h.clear v⟩
  · rw [mem_cons, not_or] at hv
    rw [hCase, h.fixed v hv.2, if_neg hv.1]
  · rcases mem_cons.mp hv with hNew | hOld
    · exact ⟨inst, lhs, hIdentity, hNew.symm⟩
    · exact h.removable v hOld
  · rw [hCase]
    split
    · rcases h.operand lhs with hSame | hOperand
      · obtain ⟨hMem, op, rhs, k, hOp, _⟩ := hIdentity
        refine .inr ⟨inst, hMem, ?_⟩
        rw [hSame, hOp]
        exact mem_cons_self
      · exact .inr hOperand
    · exact h.operand v

theorem foldConstants_changed (hRel : Changed func rename gone inst inst') {op : MirOp}
    (hFold : foldConstants cur inst'.op = some op) (hNew : op ≠ inst'.op) :
    Changed func rename gone inst { inst with op := op } := by
  unfold foldConstants at hFold
  split at hFold
  · next binOp lhs rhs hOp =>
      obtain ⟨lhs₀, rhs₀, hOld, rfl, rfl⟩ := hRel.binary hOp
      split at hFold
      · next l r hL hR =>
          split at hFold
          · split at hFold
            · next result hArith =>
                cases hFold
                exact .arithmetic hOld (h.known hL) (h.known hR) hArith
            · cases hFold
              exact absurd rfl hNew
            · cases hFold
          · split at hFold
            · next hComparison =>
                cases hFold
                exact .comparison hOld (h.known hL) (h.known hR) hComparison
            · cases hFold
              exact absurd rfl hNew
      · cases hFold
        exact absurd rfl hNew
  · cases hFold
    exact absurd rfl hNew

section

variable (hAcyclic : IdentitiesAcyclic func)
include hAcyclic

theorem foldIdentity_folded
    (hInst : (func.insts b)[k]? = some inst) (hRel : Changed func rename gone inst inst') :
    ∃ rename' gone', Folded func (foldIdentity cur b k inst').1 rename' gone' := by
  have hStays : ∃ rename' gone', Folded func cur rename' gone' := ⟨rename, gone, h⟩
  have hRemoved : ∀ {op : BinaryOp} {lhs rhs : MirValueId} {c : Word},
      inst'.op = .binary op lhs rhs → neutral op = some c → constBehind cur rhs = some c →
      ∃ rename' gone', Folded func
        (setOp (replaceAllUses cur inst'.result lhs) b k .nop) rename' gone' := by
    intro op lhs rhs c hOp hNeutral hConst
    obtain ⟨lhs₀, rhs₀, hOld, rfl, rfl⟩ := hRel.binary hOp
    rw [hRel.result_eq]
    have hIdentity : IsIdentity func inst lhs₀ :=
      ⟨MirFunction.mem_flatMap_of_getElem? hInst, op, rhs₀, c, hOld, hNeutral, h.known hConst⟩
    exact ⟨_, _, h.remove hAcyclic hInst hIdentity⟩
  unfold foldIdentity
  split
  · next lhs rhs hOp =>
      split
      · next hZero => exact hRemoved hOp rfl hZero
      · exact hStays
  · next lhs rhs hOp =>
      split
      · next hZero => exact hRemoved hOp rfl hZero
      · exact hStays
  · next lhs rhs hOp =>
      split
      · next hOne => exact hRemoved hOp rfl hOne
      · split
        · next hZero =>
            obtain ⟨lhs₀, rhs₀, hOld, rfl, rfl⟩ := hRel.binary hOp
            refine ⟨rename, gone, h.setConst fun inst₀ hInst₀ => ?_⟩
            cases hInst.symm.trans hInst₀
            exact .zero hOld (h.known hZero)
        · exact hStays
  · exact hStays

theorem foldAt_folded {step : MirFunction × Nat} (hStep : foldAt cur b k = some step) :
    ∃ rename' gone', Folded func step.1 rename' gone' := by
  unfold foldAt at hStep
  split at hStep
  · cases hStep
    exact ⟨rename, gone, h⟩
  · next inst' hAt =>
      obtain ⟨inst, hInst, hRel⟩ := h.matched.getElem? hAt
      split at hStep
      · cases hStep
      · next op hFold =>
          split at hStep
          · cases hStep
            exact foldIdentity_folded h hAcyclic hInst hRel
          · next hNew =>
              cases hStep
              refine ⟨rename, gone, h.setConst fun inst₀ hInst₀ => ?_⟩
              cases hInst.symm.trans hInst₀
              exact foldConstants_changed h hRel hFold hNew

theorem foldWalk_folded {at_ : List (MirBlockId × Nat)} {result : MirFunction × Nat}
    (hWalk : foldWalk at_ cur = some result) :
    ∃ rename' gone', Folded func result.1 rename' gone' := by
  induction at_ generalizing cur rename gone result with
  | nil =>
    cases hWalk
    exact ⟨rename, gone, h⟩
  | cons place rest ih =>
    unfold foldWalk at hWalk
    split at hWalk
    · cases hWalk
    · next step hStep =>
        obtain ⟨rename', gone', hFolded⟩ := foldAt_folded h hAcyclic hStep
        obtain ⟨tail, hTail, rfl⟩ := Option.map_eq_some_iff.mp hWalk
        have hEnd : ∃ rename gone, Folded func tail.1 rename gone := ih hFolded hTail
        exact hEnd

end

/-- Only an overflow leaves the walk without a result. -/
theorem divisionOverflows_of_foldAt (hNone : foldAt cur b k = none) :
    DivisionOverflows func := by
  unfold foldAt at hNone
  split at hNone
  · cases hNone
  · next inst' hAt =>
      obtain ⟨inst, hInst, hRel⟩ := h.matched.getElem? hAt
      split at hNone
      · next hFold =>
          unfold foldConstants at hFold
          split at hFold
          · next binOp lhs rhs hOp =>
              obtain ⟨lhs₀, rhs₀, hOld, rfl, rfl⟩ := hRel.binary hOp
              split at hFold
              · next l r hL hR =>
                  split at hFold
                  · split at hFold
                    · cases hFold
                    · cases hFold
                    · next hArith =>
                        obtain ⟨hDivision, rfl, rfl⟩ := foldArithmetic_eq_none_iff.mp hArith
                        exact ⟨inst, MirFunction.mem_flatMap_of_getElem? hInst, binOp,
                          lhs₀, rhs₀, hOld, hDivision,
                          h.known hL, h.known hR⟩
                  · split at hFold <;> cases hFold
              · cases hFold
          · cases hFold
      · split at hNone <;> cases hNone

theorem divisionOverflows_of_foldWalk (hAcyclic : IdentitiesAcyclic func)
    {at_ : List (MirBlockId × Nat)} (hNone : foldWalk at_ cur = none) :
    DivisionOverflows func := by
  induction at_ generalizing cur rename gone with
  | nil => cases hNone
  | cons place rest ih =>
    unfold foldWalk at hNone
    split at hNone
    · next hStep => exact divisionOverflows_of_foldAt h hStep
    · next step hStep =>
        obtain ⟨rename', gone', hFolded⟩ := foldAt_folded h hAcyclic hStep
        exact ih hFolded (Option.map_eq_none_iff.mp hNone)

end

theorem folded_refl (func : MirFunction) : Folded func func id [] where
  matched := by
    refine matchedBy_refl (fun inst => ?_) func
    have hSame : substInst id inst = inst := by
      unfold substInst
      rw [substOp_id]
    have hRenamed : Changed func id [] inst (substInst id inst) := .renamed
    rwa [hSame] at hRenamed
  agrees := .refl
  clear _ := not_mem_nil
  fixed _ _ := rfl
  removable v hv := nomatch hv
  operand _ := .inl rfl

theorem folded_pass (hAcyclic : IdentitiesAcyclic func) {result : MirFunction × Nat}
    (hPass : mirPassConstantFold func = some result) :
    ∃ rename gone, Folded func result.1 rename gone :=
  foldWalk_folded (folded_refl func) hAcyclic hPass

end

end Casprix.Opt
