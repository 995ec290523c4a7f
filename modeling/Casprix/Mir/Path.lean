import Casprix.Mir.Basic
import Mathlib.Data.List.Chain

/-! Paths through the control-flow graph and the instructions along them. -/
namespace Casprix.Mir.MirFunction

open List

variable {func : MirFunction}

/-- The blocks named by the terminator of block `b`. -/
def targets (func : MirFunction) (b : MirBlockId) : List MirBlockId :=
  ((func.block? b).map MirBlock.targets).getD []

/-- Consecutive blocks are joined by a branch. -/
def IsPath (func : MirFunction) (path : List MirBlockId) : Prop :=
  path.IsChain fun a b => b ∈ func.targets a

/-- A path that starts in the entry block. -/
structure IsEntryPath (func : MirFunction) (path : List MirBlockId) : Prop where
  isPath : func.IsPath path
  entry : path.head? = some 0

/-- Every instruction executed along a path, in order. -/
def pathInsts (func : MirFunction) (path : List MirBlockId) : List MirInst :=
  path.flatMap func.insts

@[simp] theorem pathInsts_nil : func.pathInsts [] = [] := rfl

@[simp] theorem pathInsts_cons (b : MirBlockId) (path : List MirBlockId) :
    func.pathInsts (b :: path) = func.insts b ++ func.pathInsts path := rfl

variable {b : MirBlockId} {path : List MirBlockId} {before : List MirInst} {inst : MirInst}

theorem isPath_cons_cons {a : MirBlockId} :
    func.IsPath (a :: b :: path) ↔ b ∈ func.targets a ∧ func.IsPath (b :: path) :=
  isChain_cons_cons

/-- An occurrence along a path is in the first block or along the rest. -/
theorem pathInsts_cons_split {after : List MirInst}
    (h : func.pathInsts (b :: path) = before ++ inst :: after) :
    (∃ tail, func.insts b = before ++ inst :: tail ∧ after = tail ++ func.pathInsts path) ∨
    (∃ skipped, before = func.insts b ++ skipped ∧
      func.pathInsts path = skipped ++ inst :: after) := by
  rw [pathInsts_cons, append_eq_append_iff] at h
  rcases h with ⟨skipped, hBefore, hRest⟩ | ⟨tail, hInsts, hAfter⟩
  · exact .inr ⟨skipped, hBefore, hRest⟩
  · cases tail with
    | nil => exact .inr ⟨[], by simpa using hInsts.symm, by simpa using hAfter.symm⟩
    | cons head tail =>
      rw [cons_append, List.cons.injEq] at hAfter
      obtain ⟨rfl, rfl⟩ := hAfter
      exact .inl ⟨tail, hInsts, rfl⟩

theorem insts_eq_nil (h : func.blocks.length ≤ b) : func.insts b = [] := by
  simp [insts, block?, h]

theorem targets_eq_nil (h : func.blocks.length ≤ b) : func.targets b = [] := by
  simp [targets, block?, h]

theorem insts_of_block? {block : MirBlock} (h : func.block? b = some block) :
    func.insts b = block.insts := by
  simp [insts, h]

theorem mem_flatMap_of_mem_insts (h : inst ∈ func.insts b) :
    inst ∈ func.blocks.flatMap (·.insts) := by
  cases hBlock : func.block? b with
  | none => simp [insts, hBlock] at h
  | some block =>
    rw [insts_of_block? hBlock] at h
    exact mem_flatMap.mpr ⟨block, mem_of_getElem? hBlock, h⟩

theorem mem_flatMap_of_getElem? {k : Nat} (h : (func.insts b)[k]? = some inst) :
    inst ∈ func.blocks.flatMap (·.insts) :=
  mem_flatMap_of_mem_insts (mem_of_getElem? h)

theorem exists_getElem?_of_mem (h : inst ∈ func.blocks.flatMap (·.insts)) :
    ∃ (b : MirBlockId) (k : Nat), (func.insts b)[k]? = some inst := by
  obtain ⟨block, hBlock, hMem⟩ := mem_flatMap.mp h
  obtain ⟨b, hb⟩ := mem_iff_getElem?.mp hBlock
  obtain ⟨k, hk⟩ := mem_iff_getElem?.mp hMem
  exact ⟨b, k, by rwa [insts_of_block? hb]⟩

theorem lt_of_getElem? {k : Nat} (h : (func.insts b)[k]? = some inst) : b < func.blocks.length := by
  by_contra hOut
  rw [insts_eq_nil (Nat.le_of_not_lt hOut)] at h
  cases h

theorem lt_of_block? {block : MirBlock} (h : func.block? b = some block) : b < func.blocks.length :=
  (List.getElem?_eq_some_iff.mp h).1

theorem exists_block? (h : b < func.blocks.length) : ∃ block, func.block? b = some block :=
  ⟨func.blocks[b], getElem?_eq_getElem h⟩

theorem targets_of_insts (h : func.insts b = before ++ [inst]) :
    func.targets b = inst.op.targets := by
  cases hBlock : func.block? b with
  | none => simp [insts, hBlock] at h
  | some block =>
    rw [insts_of_block? hBlock] at h
    simp [targets, hBlock, MirBlock.targets, MirBlock.terminator, h]

theorem targets_eq_getLast? (func : MirFunction) (b : MirBlockId) :
    func.targets b = ((func.insts b).getLast?.map (·.op.targets)).getD [] := by
  cases hBlock : func.block? b with
  | none => simp [targets, insts, hBlock]
  | some block =>
    rw [insts_of_block? hBlock]
    simp only [targets, hBlock, Option.map_some, Option.getD_some,
      MirBlock.targets, MirBlock.terminator]
    cases block.insts.getLast? with
    | none => rfl
    | some inst => rfl

theorem lt_of_mem_targets {a : MirBlockId} (h : b ∈ func.targets a) : a < func.blocks.length := by
  by_contra hOut
  rw [targets_eq_nil (Nat.le_of_not_lt hOut)] at h
  cases h

theorem lt_of_insts {after : List MirInst} (h : func.insts b = before ++ inst :: after) :
    b < func.blocks.length := by
  by_contra hOut
  rw [insts_eq_nil (Nat.le_of_not_lt hOut)] at h
  simp at h

theorem pathInsts_concat (path : List MirBlockId) (b : MirBlockId) :
    func.pathInsts (path ++ [b]) = func.pathInsts path ++ func.insts b := by
  simp [pathInsts]

theorem isEntryPath_concat_iff {a : MirBlockId} :
    func.IsEntryPath (path ++ [a] ++ [b]) ↔ func.IsEntryPath (path ++ [a]) ∧
      b ∈ func.targets a := by
  constructor
  · intro h
    obtain ⟨hFront, _, hEdge⟩ := isChain_append.mp h.isPath
    have hHead := h.entry
    rw [head?_append_of_ne_nil _ (by simp)] at hHead
    exact ⟨⟨hFront, hHead⟩, hEdge a (by simp) b rfl⟩
  · intro h
    have hHead := h.1.entry
    rw [← head?_append_of_ne_nil (path ++ [a]) (by simp)] at hHead
    exact ⟨h.1.isPath.append (isChain_singleton b) (by simpa using h.2), hHead⟩

namespace CfgConsistent

theorem mem_successors_iff (h : func.CfgConsistent) (a b : MirBlockId) :
    b ∈ func.successors a ↔ b ∈ func.targets a := by
  by_cases ha : a < func.blocks.length
  · obtain ⟨block, hBlock⟩ := exists_block? ha
    simpa [successors, targets, hBlock] using h.successors_iff a block hBlock b
  · simp [successors, targets, block?, ha]

theorem mem_predecessors_iff (h : func.CfgConsistent) (a b : MirBlockId) :
    a ∈ func.predecessors b ↔ b ∈ func.targets a :=
  (h.predecessors_iff a b).trans (h.mem_successors_iff a b)

theorem iff_forall_listed : func.CfgConsistent ↔ ∀ a ∈ List.range func.blocks.length,
    (∀ b ∈ func.successors a, b ∈ func.targets a ∧ a ∈ func.predecessors b ∧
      b < func.blocks.length) ∧
    (∀ b ∈ func.targets a, b ∈ func.successors a) ∧
    ∀ p ∈ func.predecessors a, a ∈ func.successors p := by
  constructor
  · intro h a _
    refine ⟨fun b hb => ?_, fun b hb => ?_, fun p hp => ?_⟩
    · exact ⟨(h.mem_successors_iff a b).mp hb,
        (h.predecessors_iff a b).mpr hb, h.listed a b hb⟩
    · exact (h.mem_successors_iff a b).mpr hb
    · exact (h.predecessors_iff p a).mp hp
  · intro h
    have hListed : ∀ a b, b ∈ func.successors a → a < func.blocks.length := by
      intro a b hb
      by_contra hNot
      simp [successors, block?, Nat.le_of_not_lt hNot] at hb
    refine ⟨fun a block hBlock b => ?_, fun a b => ?_, fun a b hb => ?_⟩
    · have ha := h a (mem_range.mpr (lt_of_block? hBlock))
      simp only [successors, targets, hBlock, Option.map_some, Option.getD_some] at ha
      exact ⟨fun hb => (ha.1 b hb).1, ha.2.1 b⟩
    · constructor
      · intro hp
        have hb : b < func.blocks.length := by
          by_contra hNot
          simp [predecessors, block?, Nat.le_of_not_lt hNot] at hp
        exact (h b (mem_range.mpr hb)).2.2 a hp
      · intro hb
        exact ((h a (mem_range.mpr (hListed a b hb))).1 b hb).2.1
    · exact ((h a (mem_range.mpr (hListed a b hb))).1 b hb).2.2

instance : Decidable func.CfgConsistent := decidable_of_iff' _ iff_forall_listed

end CfgConsistent

end Casprix.Mir.MirFunction
