import Casprix.Mir.Verify
import Casprix.Opt.Uses

/-! `mir_pass_dead_code_eliminate`, and which instructions it deletes. -/
namespace Casprix.Opt

open List Mir

def hasSideEffects : MirOp → Bool
  | .store .. | .call .. | .callIndirect .. | .callVirtual .. => true
  | .br _ | .condbr .. | .switch .. | .ret _ | .retVoid | .unreachable => true
  | .refop .. | .objAlloc .. | .debugLoc => true
  | _ => false

/-- The walk over a block, of which `kept` and the rest are left. The uses are counted in the
whole function as it is at that moment. The second result is the number of changes. -/
def deadCodeInsts (func : MirFunction) (before : List MirBlock) (block : MirBlock)
    (after : List MirBlock) : List MirInst → List MirInst → List MirInst × Nat
  | kept, [] => (kept, 0)
  | kept, inst :: next =>
    let current : MirFunction :=
      { func with blocks := before ++ { block with insts := kept ++ inst :: next } :: after }
    if inst.op = .nop then
      let tail := deadCodeInsts func before block after kept next
      (tail.1, tail.2 + 1)
    else if inst.result ≠ 0 ∧ hasSideEffects inst.op = false ∧
      countUses current inst.result = 0 then
      let tail := deadCodeInsts func before block after kept next
      (tail.1, tail.2 + 1)
    else deadCodeInsts func before block after (kept ++ [inst]) next

/-- The walk over the block list. -/
def deadCodeBlocks (func : MirFunction) : List MirBlock → List MirBlock → List MirBlock × Nat
  | before, [] => (before, 0)
  | before, block :: after =>
    let step := deadCodeInsts func before block after [] block.insts
    let tail := deadCodeBlocks func (before ++ [{ block with insts := step.1 }]) after
    (tail.1, step.2 + tail.2)

/-- The function after the pass, and the number of changes it returns. -/
def mirPassDeadCodeEliminate (func : MirFunction) : MirFunction × Nat :=
  let walk := deadCodeBlocks func [] func.blocks
  ({ func with blocks := walk.1 }, walk.2)

/-- An instruction is dead if it is a `MIR_NOP`, or if its opcode counts as free of effects
and every instruction that uses its result comes earlier and is dead itself. -/
inductive Dead (func : MirFunction) : MirBlockId → Nat → Prop
  | nop {b : MirBlockId} {k : Nat} {inst : MirInst} (hInst : (func.insts b)[k]? = some inst)
      (hOp : inst.op = .nop) : Dead func b k
  | unused {b : MirBlockId} {k : Nat} {inst : MirInst} (hInst : (func.insts b)[k]? = some inst)
      (hResult : inst.result ≠ 0) (hOp : hasSideEffects inst.op = false)
      (hBefore : ∀ b' k' user, (func.insts b')[k']? = some user →
        valueUsedInInst user inst.result = true → b' < b ∨ b' = b ∧ k' < k)
      (hUses : ∀ b' k' user, (func.insts b')[k']? = some user →
        valueUsedInInst user inst.result = true → Dead func b' k') :
      Dead func b k

open Classical in
/-- The instructions that are not dead, where the first of them is the `k`-th. -/
noncomputable def remaining (dead : Nat → Prop) : Nat → List MirInst → List MirInst
  | _, [] => []
  | k, inst :: rest =>
    if dead k then remaining dead (k + 1) rest else inst :: remaining dead (k + 1) rest

section

variable {dead : Nat → Prop} {k : Nat} {insts more : List MirInst} {inst : MirInst}

theorem mem_remaining : inst ∈ remaining dead k insts ↔
    ∃ i, insts[i]? = some inst ∧ ¬dead (k + i) := by
  induction insts generalizing k with
  | nil =>
    constructor
    · exact nofun
    · rintro ⟨i, hInst, _⟩
      cases hInst
  | cons head rest ih =>
    have hSplit : (∃ i, (head :: rest)[i]? = some inst ∧ ¬dead (k + i)) ↔
        (head = inst ∧ ¬dead k) ∨ ∃ i, rest[i]? = some inst ∧ ¬dead (k + 1 + i) := by
      constructor
      · rintro ⟨i, hInst, hLive⟩
        cases i with
        | zero => exact .inl ⟨Option.some.inj hInst, hLive⟩
        | succ i => exact .inr ⟨i, hInst, by rwa [Nat.add_assoc, Nat.add_comm 1 i]⟩
      · rintro (⟨rfl, hLive⟩ | ⟨i, hInst, hLive⟩)
        · exact ⟨0, rfl, hLive⟩
        · exact ⟨i + 1, hInst, by rwa [Nat.add_assoc, Nat.add_comm 1 i] at hLive⟩
    rw [hSplit, remaining]
    split
    · next hDead =>
        rw [ih]
        exact (or_iff_right fun h => h.2 hDead).symm
    · next hLive =>
        rw [mem_cons, ih]
        exact or_congr ⟨fun h => ⟨h.symm, hLive⟩, fun h => h.1.symm⟩ Iff.rfl

theorem remaining_append : remaining dead k (insts ++ more) =
    remaining dead k insts ++ remaining dead (k + insts.length) more := by
  induction insts generalizing k with
  | nil => rfl
  | cons head rest ih =>
    have hLength : k + 1 + rest.length = k + (head :: rest).length := by
      rw [length_cons, Nat.add_assoc, Nat.add_comm 1]
    rw [cons_append, remaining, remaining, ih, hLength]
    split
    · rfl
    · rfl

/-- An instruction that is not dead comes after what is left of those before it. -/
theorem getElem?_remaining (hInst : insts[k]? = some inst) (hLive : ¬dead k) :
    (remaining dead 0 insts)[(remaining dead 0 (insts.take k)).length]? = some inst := by
  obtain ⟨hLt, hGet⟩ := List.getElem?_eq_some_iff.mp hInst
  have hSplit : insts = insts.take k ++ inst :: insts.drop (k + 1) := by
    rw [← hGet, getElem_cons_drop, take_append_drop]
  have hBefore : (insts.take k).length = k := length_take_of_le hLt.le
  have hWhole : remaining dead 0 insts =
      remaining dead 0 (insts.take k) ++ inst :: remaining dead (k + 1) (insts.drop (k + 1)) := by
    conv_lhs => rw [hSplit, remaining_append, Nat.zero_add, hBefore, remaining, if_neg hLive]
  rw [hWhole, getElem?_append_right (le_rfl), Nat.sub_self]
  rfl

theorem exists_of_getElem?_remaining {i k' : Nat} (h : (remaining dead i insts)[k']? = some inst) :
    ∃ k, insts[k]? = some inst ∧ ¬dead (i + k) ∧
      k' = (remaining dead i (insts.take k)).length := by
  induction insts generalizing i k' with
  | nil => cases h
  | cons head rest ih =>
    have hLater : ∀ {k' : Nat}, (remaining dead (i + 1) rest)[k']? = some inst → ∃ k,
        (head :: rest)[k + 1]? = some inst ∧ ¬dead (i + (k + 1)) ∧
          k' = (remaining dead (i + 1) (rest.take k)).length := by
      intro k' hAt
      obtain ⟨k, hInst, hLive, hPlace⟩ := ih hAt
      exact ⟨k, hInst, by rwa [Nat.add_comm k 1, ← Nat.add_assoc], hPlace⟩
    rw [remaining] at h
    split at h
    · next hDead =>
        obtain ⟨k, hInst, hLive, hPlace⟩ := hLater h
        refine ⟨k + 1, hInst, hLive, ?_⟩
        rw [take_succ_cons, remaining, if_pos hDead, hPlace]
    · next hHead =>
        cases k' with
        | zero => exact ⟨0, h, hHead, rfl⟩
        | succ k' =>
          obtain ⟨k, hInst, hLive, hPlace⟩ := hLater h
          refine ⟨k + 1, hInst, hLive, ?_⟩
          rw [take_succ_cons, remaining, if_neg hHead, length_cons, hPlace]

theorem length_remaining_lt {j : Nat} (hInst : insts[j]? = some inst)
    (hLive : ¬dead j) (hBefore : j < k) :
    (remaining dead 0 (insts.take j)).length < (remaining dead 0 (insts.take k)).length := by
  have hThere : (insts.take k)[j]? = some inst := by
    rw [getElem?_take_of_lt hBefore]
    exact hInst
  have hAt := getElem?_remaining hThere hLive
  rw [take_take, min_eq_left hBefore.le] at hAt
  exact (List.getElem?_eq_some_iff.mp hAt).1

end

section

variable {func : MirFunction} {b : MirBlockId} {k : Nat} {inst : MirInst}

/-- An instruction of the function as it is when the walk comes to the `k`-th of block `b`. -/
def StillThere (func : MirFunction) (b : MirBlockId) (k : Nat) (user : MirInst) : Prop :=
  ∃ b' k', (func.insts b')[k']? = some user ∧
    ((b' < b ∨ b' = b ∧ k' < k) → ¬Dead func b' k')

/-- What the walk asks of an instruction. -/
theorem dead_iff (hInst : (func.insts b)[k]? = some inst) : Dead func b k ↔ inst.op = .nop ∨
    inst.result ≠ 0 ∧ hasSideEffects inst.op = false ∧
      ∀ user, StillThere func b k user → valueUsedInInst user inst.result = false := by
  constructor
  · intro hDead
    cases hDead with
    | nop hInst' hOp =>
      cases hInst.symm.trans hInst'
      exact .inl hOp
    | unused hInst' hResult hOp hBefore hUses =>
      cases hInst.symm.trans hInst'
      refine .inr ⟨hResult, hOp, ?_⟩
      rintro user ⟨b', k', hUser, hLive⟩
      by_contra hUsed
      rw [Bool.not_eq_false] at hUsed
      exact hLive (hBefore b' k' user hUser hUsed) (hUses b' k' user hUser hUsed)
  · rintro (hOp | ⟨hResult, hOp, hUses⟩)
    · exact .nop hInst hOp
    · have hBoth : ∀ b' k' user, (func.insts b')[k']? = some user →
          valueUsedInInst user inst.result = true →
            (b' < b ∨ b' = b ∧ k' < k) ∧ Dead func b' k' := by
        intro b' k' user hUser hUsed
        by_contra hNot
        have hThere : StillThere func b k user :=
          ⟨b', k', hUser, fun hEarlier hGone => hNot ⟨hEarlier, hGone⟩⟩
        exact absurd ((hUses user hThere).symm.trans hUsed) Bool.false_ne_true
      exact .unused hInst hResult hOp (fun b' k' user hUser hUsed =>
        (hBoth b' k' user hUser hUsed).1)
        fun b' k' user hUser hUsed => (hBoth b' k' user hUser hUsed).2

theorem countUses_eq_zero_iff (func : MirFunction) (val : MirValueId) : countUses func val = 0 ↔
    ∀ user ∈ func.blocks.flatMap (·.insts), valueUsedInInst user val = false := by
  unfold countUses
  rw [countP_eq_zero]
  exact forall₂_congr fun user _ => Bool.not_eq_true _ ▸ Iff.rfl

/-- The blocks that the walk has left, without their dead instructions. -/
def Passed (func : MirFunction) (before : List MirBlock) : Prop :=
  before.map (·.insts) =
    (List.range before.length).map fun b => remaining (Dead func b) 0 (func.insts b)

theorem Passed.mem_iff {before : List MirBlock} (h : Passed func before) {user : MirInst} :
    user ∈ before.flatMap (·.insts) ↔
      ∃ b' < before.length, ∃ k' : Nat,
        (func.insts b')[k']? = some user ∧ ¬Dead func b' k' := by
  have hFlat : before.flatMap (·.insts) = (before.map (·.insts)).flatten := rfl
  rw [hFlat, h]
  simp only [mem_flatten, mem_map, mem_range]
  constructor
  · rintro ⟨_, ⟨b', hb', rfl⟩, hMem⟩
    obtain ⟨k', hUser, hLive⟩ := mem_remaining.mp hMem
    rw [Nat.zero_add] at hLive
    exact ⟨b', hb', k', hUser, hLive⟩
  · rintro ⟨b', hb', k', hUser, hLive⟩
    refine ⟨_, ⟨b', hb', rfl⟩, mem_remaining.mpr ⟨k', hUser, ?_⟩⟩
    rwa [Nat.zero_add]

variable {old before after : List MirBlock} {block : MirBlock} {user : MirInst}

section

variable (hBlocks : func.blocks = old ++ block :: after)
include hBlocks

theorem insts_middle :
    func.insts old.length = block.insts := by
  unfold MirFunction.insts MirFunction.block?
  rw [hBlocks, getElem?_append_right (le_rfl), Nat.sub_self]
  rfl

theorem insts_after (i : Nat) :
    func.insts (old.length + 1 + i) = ((after[i]?).map (·.insts)).getD [] := by
  unfold MirFunction.insts MirFunction.block?
  rw [hBlocks, getElem?_append_right (by omega),
    show old.length + 1 + i - old.length = i + 1 by omega, getElem?_cons_succ]

theorem mem_after_iff :
    user ∈ after.flatMap (·.insts) ↔
      ∃ b', old.length < b' ∧ ∃ k' : Nat, (func.insts b')[k']? = some user := by
  rw [mem_flatMap]
  constructor
  · rintro ⟨later, hLater, hUser⟩
    obtain ⟨i, hAt⟩ := mem_iff_getElem?.mp hLater
    obtain ⟨k', hk'⟩ := mem_iff_getElem?.mp hUser
    refine ⟨old.length + 1 + i, by omega, k', ?_⟩
    rw [insts_after hBlocks, hAt]
    exact hk'
  · rintro ⟨b', hLater, k', hk'⟩
    obtain ⟨i, rfl⟩ := Nat.exists_eq_add_of_le hLater
    rw [Nat.succ_eq_add_one, insts_after hBlocks] at hk'
    cases hAt : after[i]? with
    | none => simp [hAt] at hk'
    | some later =>
      rw [hAt] at hk'
      exact ⟨later, mem_of_getElem? hAt, mem_of_getElem? hk'⟩

/-- The function as the walk sees it holds the instructions that are still there. -/
theorem mem_current_iff (hBefore : Passed func before)
    (hLength : before.length = old.length) {pre next : List MirInst}
    (hInsts : block.insts = pre ++ next) :
    user ∈ (before ++ { block with
        insts := remaining (Dead func old.length) 0 pre ++ next } :: after).flatMap (·.insts) ↔
      StillThere func old.length pre.length user := by
  rw [flatMap_append, flatMap_cons, mem_append, mem_append, mem_append,
    hBefore.mem_iff, mem_after_iff hBlocks, mem_remaining]
  have hHere : func.insts old.length = pre ++ next := (insts_middle hBlocks).trans hInsts
  constructor
  · rintro (⟨b', hb', k', hUser, hLive⟩ |
      (⟨k', hUser, hLive⟩ | hUser) | ⟨b', hb', k', hUser⟩)
    · exact ⟨b', k', hUser, fun _ => hLive⟩
    · refine ⟨old.length, k', ?_, fun _ => by rwa [Nat.zero_add] at hLive⟩
      rw [hHere, getElem?_append_left (List.getElem?_eq_some_iff.mp hUser).1]
      exact hUser
    · obtain ⟨i, hi⟩ := mem_iff_getElem?.mp hUser
      refine ⟨old.length, pre.length + i, ?_, fun hEarlier => ?_⟩
      · rw [hHere, getElem?_append_right (Nat.le_add_right _ _), Nat.add_sub_cancel_left]
        exact hi
      · rcases hEarlier with hBelow | ⟨_, hBelow⟩
        · exact absurd hBelow (lt_irrefl _)
        · exact absurd hBelow ((Nat.le_add_right _ _).not_gt)
    · refine ⟨b', k', hUser, fun hEarlier => ?_⟩
      rcases hEarlier with hBelow | ⟨hSame, _⟩
      · exact absurd (hb'.trans hBelow) (lt_irrefl _)
      · exact absurd hSame hb'.ne'
  · rintro ⟨b', k', hUser, hLive⟩
    rcases lt_trichotomy b' old.length with hBelow | hSame | hAbove
    · exact .inl ⟨b', hLength ▸ hBelow, k', hUser, hLive (.inl hBelow)⟩
    · subst hSame
      rw [hHere] at hUser
      refine .inr (.inl ?_)
      by_cases hk : k' < pre.length
      · rw [getElem?_append_left hk] at hUser
        exact .inl ⟨k', hUser, by rw [Nat.zero_add]; exact hLive (.inr ⟨rfl, hk⟩)⟩
      · rw [getElem?_append_right (Nat.le_of_not_lt hk)] at hUser
        exact .inr (mem_of_getElem? hUser)
    · exact .inr (.inr ⟨b', hAbove, k', hUser⟩)

/-- The walk over a block leaves what is not dead. -/
theorem deadCodeInsts_eq (hBefore : Passed func before)
    (hLength : before.length = old.length) {pre next : List MirInst}
    (hInsts : block.insts = pre ++ next) :
    (deadCodeInsts func before block after (remaining (Dead func old.length) 0 pre) next).1 =
      remaining (Dead func old.length) 0 block.insts := by
  induction next generalizing pre with
  | nil =>
    rw [hInsts, append_nil]
    rfl
  | cons inst next ih =>
    have hAt : (func.insts old.length)[pre.length]? = some inst := by
      rw [insts_middle hBlocks, hInsts, getElem?_append_right (le_rfl), Nat.sub_self]
      rfl
    have hNext : block.insts = (pre ++ [inst]) ++ next := by
      rw [hInsts, append_assoc]
      rfl
    have hStep := ih hNext
    rw [remaining_append, Nat.zero_add] at hStep
    rw [deadCodeInsts]
    split
    · next hNop =>
        have hDead : Dead func old.length pre.length := .nop hAt hNop
        simp only [remaining, hDead, if_true, append_nil] at hStep
        exact hStep
    · next hNotNop =>
        have hCount : ∀ val, countUses { func with
            blocks := before ++ { block with
              insts := remaining (Dead func old.length) 0 pre ++ inst :: next } :: after } val =
                0 ↔
            ∀ user, StillThere func old.length pre.length user →
              valueUsedInInst user val = false := by
          intro val
          rw [countUses_eq_zero_iff]
          exact forall_congr' fun user =>
            imp_congr (mem_current_iff hBlocks hBefore hLength hInsts) Iff.rfl
        split
        · next hUnused =>
            have hDead : Dead func old.length pre.length :=
              (dead_iff hAt).mpr (.inr ⟨hUnused.1, hUnused.2.1, (hCount _).mp hUnused.2.2⟩)
            simp only [remaining, hDead, if_true, append_nil] at hStep
            exact hStep
        · next hUsed =>
            have hLive : ¬Dead func old.length pre.length := fun hDead =>
              ((dead_iff hAt).mp hDead).elim hNotNop fun h =>
                hUsed ⟨h.1, h.2.1, (hCount _).mpr h.2.2⟩
            simp only [remaining, hLive, if_false] at hStep
            exact hStep

end

theorem deadCodeBlocks_passed (hBlocks : func.blocks = old ++ after) (hBefore : Passed func before)
    (hLength : before.length = old.length) :
    Passed func (deadCodeBlocks func before after).1 ∧
      (deadCodeBlocks func before after).1.length = func.blocks.length := by
  induction after generalizing old before with
  | nil =>
    rw [hBlocks, append_nil, ← hLength]
    exact ⟨hBefore, rfl⟩
  | cons block after ih =>
    have hNext : func.blocks = (old ++ [block]) ++ after := by
      rw [hBlocks, append_assoc]
      rfl
    have hNone : block.insts = [] ++ block.insts := rfl
    have hBlock := deadCodeInsts_eq hBlocks hBefore hLength hNone
    refine ih hNext ?_ (by rw [length_append, length_append, hLength]; rfl)
    unfold Passed
    rw [map_append, hBefore, length_append, length_singleton, range_succ,
      map_append, map_singleton, map_singleton, hLength, insts_middle hBlocks]
    exact congrArg (fun insts => _ ++ [insts]) hBlock

theorem insts_mirPassDeadCodeEliminate (func : MirFunction) (b : MirBlockId) :
    (mirPassDeadCodeEliminate func).1.insts b = remaining (Dead func b) 0 (func.insts b) := by
  have hWhole : func.blocks = [] ++ func.blocks := rfl
  have hStart : Passed func [] := rfl
  obtain ⟨hPassed, hLength⟩ := deadCodeBlocks_passed hWhole hStart rfl
  have hAll : (mirPassDeadCodeEliminate func).1.blocks.map (·.insts) =
      (List.range func.blocks.length).map fun b => remaining (Dead func b) 0 (func.insts b) := by
    rw [← hLength]
    exact hPassed
  have hInsts : ∀ f : MirFunction, f.insts b = ((f.blocks.map (·.insts))[b]?).getD [] := by
    intro f
    rw [getElem?_map]
    rfl
  rw [hInsts, hAll, getElem?_map]
  by_cases hb : b < func.blocks.length
  · rw [getElem?_range hb]
    rfl
  · rw [getElem?_eq_none (by rw [length_range]; exact Nat.le_of_not_lt hb),
      MirFunction.insts_eq_nil (Nat.le_of_not_lt hb)]
    rfl

end

end Casprix.Opt
