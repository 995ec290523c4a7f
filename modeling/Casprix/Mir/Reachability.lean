import Casprix.Mir.Ssa

/-! What the verifier reports as orphaned, beside the paths there are. -/
namespace Casprix.Mir

open List Library

variable {func : MirFunction}

/-- The report about a block that is not reachable. -/
def orphanedReport (func : MirFunction) (block : MirBlock) (b : MirBlockId) : String :=
  verrorAt func ("orphaned basic block bb" ++ toString b ++ " (" ++ block.label ++
    ") (not reachable from entry)")

open Classical in
/-- The reports about all blocks that no path of branches leads to, in the order of the list. -/
noncomputable def orphanedBlocks (func : MirFunction) : List String :=
  func.blocks.zipIdx.flatMap fun (block, b) =>
    if BlockReachable func b then [] else [orphanedReport func block b]

/-- The walk comes to the block. -/
def WalkReaches (func : MirFunction) (b : MirBlockId) : Prop :=
  Traversal.Reaches (walkSuccs func) func.blocks.length 0 b

/-- What the buffer of the walk has no room for is found in other ways: a target that it cuts
off from a terminator is reached all the same. -/
def BufferSuffices (func : MirFunction) : Prop :=
  ∀ a b, WalkReaches func a → b ∈ func.targets a → b ∉ walkSuccs func a →
    b < func.blocks.length →
    WalkReaches func b

theorem WalkReaches.blockReachable {b : MirBlockId} (h : WalkReaches func b) :
    BlockReachable func b := by
  have hStep : ∀ a c, (c ∈ walkSuccs func a ∧ c < func.blocks.length) →
      c ∈ func.targets a :=
    fun a c hNext => walkSuccs_subset_targets a hNext.1
  exact Relation.ReflTransGen.mono hStep 0 b h

theorem BufferSuffices.walkReaches (h : BufferSuffices func) {b : MirBlockId}
    (hReachable : BlockReachable func b) (hb : b < func.blocks.length) : WalkReaches func b := by
  induction hReachable with
  | refl => exact .refl
  | @tail a b _ hEdge ih =>
    have hBefore := ih (MirFunction.lt_of_mem_targets hEdge)
    by_cases hKept : b ∈ walkSuccs func a
    · exact hBefore.tail ⟨hKept, hb⟩
    · exact h a b hBefore hEdge hKept hb

theorem length_eq_of_flatMap {α β : Type} {f g : α → List β} {l : List α}
    (hLe : ∀ x ∈ l, (g x).length ≤ (f x).length)
    (h : (l.flatMap f).length = (l.flatMap g).length) :
    ∀ x ∈ l, (f x).length = (g x).length := by
  have hTotal : ∀ {l : List α}, (∀ x ∈ l, (g x).length ≤ (f x).length) →
      (l.flatMap g).length ≤ (l.flatMap f).length := by
    intro l
    induction l with
    | nil => exact fun _ => le_rfl
    | cons x rest ih =>
      intro hLe
      rw [flatMap_cons, flatMap_cons, length_append, length_append]
      exact Nat.add_le_add (hLe x mem_cons_self) (ih fun y hy => hLe y (mem_cons_of_mem x hy))
  induction l with
  | nil => exact nofun
  | cons x rest ih =>
    have hHead := hLe x mem_cons_self
    have hRest : ∀ y ∈ rest, (g y).length ≤ (f y).length := fun y hy =>
      hLe y (mem_cons_of_mem x hy)
    have hOthers := hTotal hRest
    rw [flatMap_cons, flatMap_cons, length_append, length_append] at h
    intro y hy
    rcases mem_cons.mp hy with rfl | hMem
    · omega
    · exact ih hRest (by omega) y hMem

/-- The reports are about the blocks that the walk does not come to. -/
theorem mirVerifyCfgReachable_eq_orphanedBlocks_iff :
    mirVerifyCfgReachable func = orphanedBlocks func ↔
    ∀ b < func.blocks.length, (WalkReaches func b ↔ BlockReachable func b) := by
  by_cases hBlocks : func.blocks = []
  · unfold mirVerifyCfgReachable orphanedBlocks
    rw [hBlocks]
    simp
  · have hEntry : 0 < func.blocks.length := length_pos_iff.mpr hBlocks
    have hSeen : ∀ b,
        ((Traversal.search (walkSuccs func) func.blocks.length 0).seen[b]?).getD false = true ↔
          WalkReaches func b := fun b => Traversal.seen_search_iff hEntry
    constructor
    · intro h b hb
      have hMem := mem_zipIdx_blocks.mpr (getElem?_eq_getElem hb)
      have hEqual := length_eq_of_flatMap (fun entry _ => ?_) (congrArg List.length h) _ hMem
      · refine ⟨WalkReaches.blockReachable, fun hReachable => ?_⟩
        dsimp only at hEqual
        rw [if_pos hReachable] at hEqual
        by_contra hMissed
        rw [if_neg fun hMarked => hMissed ((hSeen b).mp hMarked)] at hEqual
        cases hEqual
      · dsimp only
        split
        · exact Nat.zero_le _
        · next hUnreachable =>
            rw [if_neg fun hMarked => hUnreachable ((hSeen entry.2).mp hMarked).blockReachable]
            exact le_refl 1
    · intro h
      refine flatMap_congr fun entry hMem => ?_
      have hb := (List.getElem?_eq_some_iff.mp (mem_zipIdx_blocks.mp hMem)).1
      have hSame := (hSeen entry.2).trans (h entry.2 hb)
      dsimp only
      by_cases hReachable : BlockReachable func entry.2
      · rw [if_pos hReachable, if_pos (hSame.mpr hReachable)]
      · rw [if_neg hReachable, if_neg fun hMarked => hReachable (hSame.mp hMarked)]
        rfl

/-- The verifier reports exactly the blocks that no path of branches leads to, if and only if
what its buffer cuts off from a terminator is reached in other ways. -/
theorem mir_verify_cfg_reachable_exact (func : MirFunction) :
    mirVerifyCfgReachable func = orphanedBlocks func ↔ BufferSuffices func := by
  rw [mirVerifyCfgReachable_eq_orphanedBlocks_iff]
  constructor
  · intro h a b hReaches hEdge _ hb
    exact (h b hb).mpr (blockReachable_of_mem_targets hReaches.blockReachable hEdge)
  · exact fun h b hb => ⟨WalkReaches.blockReachable, fun hReachable =>
      h.walkReaches hReachable hb⟩

/-- A switch with 64 cases that go to one block and a last one that goes to another. -/
def wideSwitch : MirFunction where
  name := "wide_switch"
  returnType := some .i64
  params := [{ name := "x", type := some .i64, valueId := 1 }]
  blocks := [{ insts := [{ op := .switch 1 ((List.range 64).map fun i =>
                   { value := BitVec.ofNat 64 i, target := some 1 }) (some 2) }]
               successors := [1, 2] },
    { insts := [{ op := .ret 1 }], predecessors := [0] },
    { insts := [{ op := .ret 1 }], predecessors := [0] }]
  nextValueId := 2
  valueTypes := [none, some .i64]

/-- The default of a switch with 64 cases is reported as orphaned, though a branch leads to it. -/
theorem mir_verify_cfg_reachable_misses :
    mirVerifyCfgReachable wideSwitch = [orphanedReport wideSwitch
        { insts := [{ op := .ret 1 }], predecessors := [0] } 2] ∧
      2 ∈ wideSwitch.targets 0 ∧
        mirVerifyCfgReachable wideSwitch ≠ orphanedBlocks wideSwitch := by
  have hReport : mirVerifyCfgReachable wideSwitch = [orphanedReport wideSwitch
      { insts := [{ op := .ret 1 }], predecessors := [0] } 2] := by decide +kernel
  have hEdge : 2 ∈ wideSwitch.targets 0 := by decide +kernel
  refine ⟨hReport, hEdge, fun hSame => ?_⟩
  have hReached := (mirVerifyCfgReachable_eq_orphanedBlocks_iff.mp hSame 2 (by decide)).mpr
    (blockReachable_of_mem_targets .refl hEdge)
  have hUnseen : ((Traversal.search
    (walkSuccs wideSwitch) wideSwitch.blocks.length 0).seen[2]?).getD
      false = false := by decide +kernel
  have hEntry : 0 < wideSwitch.blocks.length := by decide
  exact absurd (hUnseen.symm.trans ((Traversal.seen_search_iff hEntry).mpr hReached))
    Bool.false_ne_true

end Casprix.Mir
