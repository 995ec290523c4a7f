import Casprix.Library.LinkedChain
import Casprix.Library.Machine
import Casprix.Support.Arena
import Mathlib.Data.List.Perm.Subperm

/-! The books of an arena: what its counters say of its chain of blocks, and
where the allocations lie that are still in use. -/
namespace Casprix.Support

open Function List
open Mir (Word)
open Library

section

variable {arena : Arena} {before after : List Nat} {block : ArenaBlock} {ok : Bool}
  {size used : Word} {id : Nat}

/-- The numbers of bytes of a block. -/
def ArenaBlock.sizeBytes (block : ArenaBlock) : Nat := block.size.toNat

def ArenaBlock.usedBytes (block : ArenaBlock) : Nat := block.used.toNat

/-- The blocks from the first on, the current one between `before` and `after`. -/
abbrev Arena.chain (arena : Arena) (before after : List Nat) : List Nat :=
  before ++ arena.currentBlock :: after

/-- The chain holds every block, and the counters are its sums. The blocks
after the current one are untouched. -/
structure Books (arena : Arena) (before after : List Nat) : Prop where
  linked : Linked ArenaBlock.next arena.heap.block (some arena.firstBlock)
    (arena.chain before after)
  nodup : (arena.chain before after).Nodup
  reachable : ∀ id b, arena.heap.block id = some b → id ∈ arena.chain before after
  below : ∀ id ∈ arena.chain before after, id < arena.heap.fresh
  sizes : ∀ id b, arena.heap.block id = some b → b.used ≤ b.size ∧ arenaBlockSize ≤ b.size
  untouched : ∀ id ∈ after, ∀ b, arena.heap.block id = some b → b.used = 0
  bytes : arena.heap.bytes =
    sumOver ArenaBlock.sizeBytes arena.heap.block (arena.chain before after)
  bytes_lt : arena.heap.bytes < 2 ^ 64
  allocated : arena.totalAllocated.toNat = arena.heap.bytes
  count : arena.blockCount.toNat = (arena.chain before after).length
  used : arena.totalUsed.toNat =
    sumOver ArenaBlock.usedBytes arena.heap.block (arena.chain before after)

theorem le_alignSize {alignment : Word} (hPos : 0 < alignment)
    (hFits : size.toNat + alignment.toNat ≤ 2 ^ 64) : size ≤ alignSize size alignment := by
  have hMask : (alignment - 1).toNat = alignment.toNat - 1 := BitVec.toNat_sub_of_le hPos
  have hSum : (size + (alignment - 1)).toNat = size.toNat + (alignment.toNat - 1) := by
    rw [BitVec.toNat_add, hMask]
    exact Nat.mod_eq_of_lt (by omega)
  have hParts : ∀ x m : Word, (x &&& m).toNat + (x &&& ~~~m).toNat = x.toNat := by
    intro x m
    have hApart : (x &&& m) &&& (x &&& ~~~m) = 0#64 := by
      ext i
      simp
      tauto
    rw [← BitVec.toNat_add_of_and_eq_zero hApart, BitVec.add_eq_or_of_and_eq_zero _ _ hApart]
    congr 1
    ext i
    cases hm : m[i] <;> simp [hm]
  have hLow := hParts (size + (alignment - 1)) (alignment - 1)
  have hLess : ((size + (alignment - 1)) &&& (alignment - 1)).toNat ≤ (alignment - 1).toNat := by
    rw [BitVec.toNat_and]
    exact Nat.and_le_right
  have hAssoc : size + alignment - 1 = size + (alignment - 1) := by
    rw [BitVec.sub_eq_add_neg, BitVec.sub_eq_add_neg, BitVec.add_assoc]
  rw [BitVec.le_def, alignSize, hAssoc]
  omega

/-- A block that is created is large enough and new. -/
theorem createBlock_eq {heap heap' : Heap} {newBlock : ArenaBlock}
    (h : createBlock heap ok size = some (id, newBlock, heap')) : ∃ newSize, size ≤ newSize ∧
      arenaBlockSize ≤ newSize ∧ ok = true ∧ heap.bytes + newSize.toNat < 2 ^ 64 ∧
      id = heap.fresh ∧ newBlock = ⟨newSize, 0, none⟩ ∧
      heap' = ⟨Function.update heap.block heap.fresh
        (some ⟨newSize, 0, none⟩), heap.fresh + 1,
        heap.bytes + newSize.toNat⟩ := by
  obtain ⟨newSize, hSize, hLarge, hEq⟩ : ∃ newSize, size ≤ newSize ∧
    arenaBlockSize ≤ newSize ∧
      (if arenaBlockSize < size then size else arenaBlockSize) = newSize := by
    by_cases hMore : arenaBlockSize < size
    · exact ⟨size, BitVec.le_refl _, BitVec.le_of_lt hMore, if_pos hMore⟩
    · exact ⟨arenaBlockSize, BitVec.not_lt.mp hMore, BitVec.le_refl _, if_neg hMore⟩
  simp only [createBlock, hEq] at h
  by_cases hOk : ok = true ∧ heap.bytes + newSize.toNat < 2 ^ 64
  · rw [if_pos hOk, Option.some.injEq, Prod.mk.injEq, Prod.mk.injEq] at h
    exact ⟨newSize, hSize, hLarge, hOk.1, hOk.2, h.1.symm, h.2.1.symm, h.2.2.symm⟩
  · rw [if_neg hOk] at h
    cases h

theorem current_mem (arena : Arena) (before after : List Nat) :
    arena.currentBlock ∈ arena.chain before after := mem_append_right _ mem_cons_self

namespace Books

section

variable (h : Books arena before after)
include h

theorem exists_current :
    ∃ block, arena.heap.block arena.currentBlock = some block :=
  h.linked.exists_node (current_mem arena before after)

theorem not_mem :
    arena.currentBlock ∉ before ∧ arena.currentBlock ∉ after := by
  have hNodup := h.nodup
  rw [Arena.chain, nodup_middle, nodup_cons, mem_append, not_or] at hNodup
  exact hNodup.1

theorem fill (hBlock : arena.heap.block arena.currentBlock = some block)
    (hMore : block.used ≤ used)
    (hFits : used ≤ block.size) : Books
      { arena with
        heap := arena.heap.set arena.currentBlock { block with used := used }
        totalUsed := arena.totalUsed + (used - block.used) } before after := by
  have hMore' : block.used.toNat ≤ used.toNat := hMore
  have hSizes : ∀ id b, (arena.heap.set arena.currentBlock
      { block with used := used }).block id = some b →
      b.used ≤ b.size ∧ arenaBlockSize ≤ b.size := by
    intro id b hb
    by_cases hId : id = arena.currentBlock
    · subst hId
      rw [Heap.set_block, update_self] at hb
      cases hb
      exact ⟨hFits, (h.sizes _ block hBlock).2⟩
    · rw [Heap.set_block, update_of_ne hId] at hb
      exact h.sizes id b hb
  have hBytes : sumOver ArenaBlock.sizeBytes
      (arena.heap.set arena.currentBlock { block with used := used }).block
      (arena.chain before after) = arena.heap.bytes := by
    rw [h.bytes, Arena.chain, Heap.set_block, sumOver_update h.nodup, sumOver_middle hBlock]
    rfl
  have hUsed : sumOver ArenaBlock.usedBytes
      (arena.heap.set arena.currentBlock { block with used := used }).block
      (arena.chain before after) = arena.totalUsed.toNat + (used.toNat - block.used.toNat) := by
    rw [h.used, Arena.chain, Heap.set_block, sumOver_update h.nodup, sumOver_middle hBlock]
    show _ + (used.toNat + _) = _ + (block.used.toNat + _) + _
    omega
  refine ⟨?_, h.nodup, ?_, h.below, hSizes, ?_, hBytes.symm, h.bytes_lt,
    h.allocated, h.count, ?_⟩
  · refine h.linked.congr fun i _ b hb => ?_
    by_cases hId : i = arena.currentBlock
    · subst hId
      cases hBlock.symm.trans hb
      exact ⟨_, update_self .., rfl⟩
    · exact ⟨b, (update_of_ne hId ..).trans hb, rfl⟩
  · intro i b hb
    by_cases hId : i = arena.currentBlock
    · subst hId
      exact current_mem arena before after
    · exact h.reachable i b ((update_of_ne hId ..).symm.trans hb)
  · intro i hi b hb
    have hId : i ≠ arena.currentBlock := ne_of_mem_of_not_mem hi h.not_mem.2
    exact h.untouched i hi b ((update_of_ne hId ..).symm.trans hb)
  · have hLe := sumOver_le (f := ArenaBlock.usedBytes)
      (g := ArenaBlock.sizeBytes) fun i (_ : i ∈ arena.chain before after) b hb =>
        (hSizes i b hb).1
    have hLt := h.bytes_lt
    show (arena.totalUsed + (used - block.used)).toNat = _
    rw [hUsed]
    rw [hUsed, hBytes] at hLe
    rw [BitVec.toNat_add, BitVec.toNat_sub_of_le hMore]
    exact Nat.mod_eq_of_lt (by omega)

end

theorem newBlock (h : Books arena before []) {heap : Heap} {newSize : Word}
    (hBlock : arena.heap.block arena.currentBlock = some block)
    (hFresh : heap.block arena.heap.fresh = some ⟨newSize, size, none⟩)
    (hCurrent : heap.block arena.currentBlock = some { block with next := some arena.heap.fresh })
    (hOther : ∀ i, i ≠ arena.heap.fresh → i ≠ arena.currentBlock →
      heap.block i = arena.heap.block i)
    (hNext : heap.fresh = arena.heap.fresh + 1)
    (hBytes : heap.bytes = arena.heap.bytes + newSize.toNat) (hLt : heap.bytes < 2 ^ 64)
    (hSize : size ≤ newSize) (hLarge : arenaBlockSize ≤ newSize) : Books
      { arena with
        heap := heap
        currentBlock := arena.heap.fresh
        totalAllocated := arena.totalAllocated + newSize
        totalUsed := arena.totalUsed + size
        blockCount := arena.blockCount + 1 } (before ++ [arena.currentBlock]) [] := by
  have hBelow : ∀ i ∈ before, heap.block i = arena.heap.block i := fun i hi =>
    hOther i (Nat.ne_of_lt (h.below i (mem_append_left _ hi))) (ne_of_mem_of_not_mem hi h.not_mem.1)
  have hNotMem : arena.heap.fresh ∉ arena.chain before [] := fun hMem =>
    Nat.lt_irrefl _ (h.below _ hMem)
  have hChain : (before ++ [arena.currentBlock]) ++ [arena.heap.fresh] =
      before ++ arena.currentBlock :: [arena.heap.fresh] := append_assoc ..
  have hSum : ∀ f : ArenaBlock → Nat, f
      { block with next := some arena.heap.fresh } = f block →
      sumOver f heap.block ((before ++ [arena.currentBlock]) ++ [arena.heap.fresh]) =
        sumOver f arena.heap.block (arena.chain before []) + f ⟨newSize, size, none⟩ := by
    intro f hSame
    rw [hChain, sumOver_middle hCurrent, Arena.chain, sumOver_middle hBlock,
      sumOver_congr hBelow, hSame]
    simp [hFresh, add_assoc]
  have hSizes : ∀ i b, heap.block i = some b → b.used ≤ b.size ∧
      arenaBlockSize ≤ b.size := by
    intro i b hb
    by_cases hFreshId : i = arena.heap.fresh
    · subst hFreshId
      cases hFresh.symm.trans hb
      exact ⟨hSize, hLarge⟩
    · by_cases hId : i = arena.currentBlock
      · subst hId
        cases hCurrent.symm.trans hb
        exact h.sizes _ block hBlock
      · exact h.sizes i b ((hOther i hFreshId hId).symm.trans hb)
  have hTotal : heap.bytes =
      sumOver ArenaBlock.sizeBytes heap.block
        ((before ++ [arena.currentBlock]) ++ [arena.heap.fresh]) := by
    rw [hSum _ rfl, ← h.bytes, hBytes]
    rfl
  have hLinked : Linked ArenaBlock.next heap.block (some arena.firstBlock)
      ((before ++ [arena.currentBlock]) ++ [arena.heap.fresh]) := by
    rw [hChain]
    exact h.linked.splice hBelow hCurrent ⟨rfl, _, hFresh, rfl⟩
  refine ⟨hLinked, ?_, ?_, ?_, hSizes, ?_, hTotal, hLt, ?_, ?_, ?_⟩
  · exact nodup_append'.mpr ⟨h.nodup, nodup_singleton _, by simpa using hNotMem⟩
  · intro i b hb
    by_cases hFreshId : i = arena.heap.fresh
    · exact mem_append_right _ (mem_singleton.mpr hFreshId)
    · by_cases hId : i = arena.currentBlock
      · subst hId
        exact mem_append_left _ (current_mem arena before [])
      · exact mem_append_left _ (h.reachable i b ((hOther i hFreshId hId).symm.trans hb))
  · intro i hi
    rw [hNext]
    rcases mem_append.mp hi with hMem | hMem
    · exact Nat.lt_succ_of_lt (h.below i hMem)
    · exact Nat.lt_succ_of_le (Nat.le_of_eq (mem_singleton.mp hMem))
  · exact nofun
  · show (arena.totalAllocated + newSize).toNat = heap.bytes
    rw [BitVec.toNat_add, h.allocated, ← hBytes]
    exact Nat.mod_eq_of_lt hLt
  · have hLong := length_mul_le_sumOver (f := ArenaBlock.sizeBytes) (k := arenaBlockSize.toNat)
      fun i hi => by
        obtain ⟨b, hb⟩ := hLinked.exists_node hi
        exact ⟨b, hb, (hSizes i b hb).2⟩
    have hBlockSize : arenaBlockSize.toNat = 65536 := rfl
    have hEnd : (before ++ [arena.currentBlock] ++ [arena.heap.fresh]).length =
        (before ++ [arena.currentBlock]).length + 1 := length_append
    show (arena.blockCount + 1).toNat =
      (before ++ [arena.currentBlock] ++ [arena.heap.fresh]).length
    rw [← hTotal, hBlockSize, hEnd] at hLong
    rw [hEnd, BitVec.toNat_add, h.count]
    exact Nat.mod_eq_of_lt (show (before ++ [arena.currentBlock]).length + 1 < 2 ^ 64 by omega)
  · have hLe := sumOver_le (f := ArenaBlock.usedBytes) (g := ArenaBlock.sizeBytes)
      fun i (_ : i ∈ before ++ [arena.currentBlock] ++ [arena.heap.fresh]) b hb =>
        (hSizes i b hb).1
    show (arena.totalUsed + size).toNat =
      sumOver _ _ (before ++ [arena.currentBlock] ++ [arena.heap.fresh])
    rw [hSum _ rfl, ← h.used] at hLe ⊢
    rw [← hTotal] at hLe
    rw [BitVec.toNat_add]
    exact Nat.mod_eq_of_lt (Nat.lt_of_le_of_lt hLe hLt)

theorem length_le (h : Books arena before after) :
    (arena.chain before after).length ≤ arena.heap.fresh := by
  have hRange : arena.chain before after ⊆ List.range arena.heap.fresh := fun i hi =>
    mem_range.mpr (h.below i hi)
  have hLe := (subperm_of_subset h.nodup hRange).length_le
  rwa [length_range] at hLe

end Books

/-- A block of which nothing is used. -/
def ArenaBlock.rewound (block : ArenaBlock) : ArenaBlock := { block with used := 0 }

/-- The loop rewinds the blocks of the chain and no other. -/
theorem clearUsed_eq {heap : Heap} {start : Option Nat} {chain : List Nat} {fuel : Nat}
    (hLinked : Linked ArenaBlock.next heap.block start chain) (hNodup : chain.Nodup)
    (hFuel : chain.length ≤ fuel) : ∃ heap', clearUsed fuel start heap = some heap' ∧
      heap'.fresh = heap.fresh ∧ heap'.bytes = heap.bytes ∧
      (∀ i ∈ chain, heap'.block i = (heap.block i).map ArenaBlock.rewound) ∧
      ∀ i ∉ chain, heap'.block i = heap.block i := by
  induction chain generalizing start fuel heap with
  | nil =>
    obtain rfl : start = none := hLinked
    exact ⟨heap, by cases fuel <;> rfl, rfl, rfl, nofun, fun i _ => rfl⟩
  | cons id rest ih =>
    obtain ⟨rfl, block, hBlock, hRest⟩ := hLinked
    obtain ⟨hNotMem, hNodup⟩ := nodup_cons.mp hNodup
    cases fuel with
    | zero => exact absurd hFuel (Nat.not_succ_le_zero _)
    | succ fuel =>
      have hSame : ∀ i ∈ rest, (heap.set id block.rewound).block i = heap.block i := fun i hi =>
        update_of_ne (ne_of_mem_of_not_mem hi hNotMem) ..
      have hNext : Linked ArenaBlock.next (heap.set id block.rewound).block block.next rest :=
        hRest.congr fun i hi b hb => ⟨b, (hSame i hi).trans hb, rfl⟩
      obtain ⟨heap', hRun, hFresh, hBytes, hIn, hOut⟩ :=
        ih hNext hNodup (Nat.le_of_succ_le_succ hFuel)
      refine ⟨heap', ?_, hFresh, hBytes, fun i hi => ?_, fun i hi => ?_⟩
      · rw [clearUsed, hBlock]
        exact hRun
      · rcases mem_cons.mp hi with rfl | hMem
        · rw [hOut i hNotMem, Heap.set_block, update_self, hBlock]
          rfl
        · rw [hIn i hMem, hSame i hMem]
      · rw [mem_cons, not_or] at hi
        rw [hOut i hi.2]
        exact update_of_ne hi.1 ..

/-- The loop frees the blocks of the chain and no other. -/
theorem freeBlocks_eq {start : Option Nat} {chain : List Nat} {fuel : Nat}
    (hLinked : Linked ArenaBlock.next arena.heap.block start chain) (hNodup : chain.Nodup)
    (hFuel : chain.length ≤ fuel) (hCount : chain.length ≤ arena.blockCount.toNat)
    (hBytes : sumOver ArenaBlock.sizeBytes arena.heap.block chain ≤ arena.totalAllocated.toNat) :
    ∃ heap total count, freeBlocks fuel start arena =
        some { arena with heap := heap, totalAllocated := total, blockCount := count } ∧
      heap.fresh = arena.heap.fresh ∧
      heap.bytes = arena.heap.bytes - sumOver ArenaBlock.sizeBytes arena.heap.block chain ∧
      total.toNat = arena.totalAllocated.toNat -
        sumOver ArenaBlock.sizeBytes arena.heap.block chain ∧
      count.toNat = arena.blockCount.toNat - chain.length ∧
      (∀ i ∈ chain, heap.block i = none) ∧
        ∀ i ∉ chain, heap.block i = arena.heap.block i := by
  induction chain generalizing start fuel arena with
  | nil =>
    obtain rfl : start = none := hLinked
    exact ⟨_, _, _, by cases fuel <;> rfl, rfl, rfl, rfl, rfl, nofun,
      fun i _ => rfl⟩
  | cons id rest ih =>
    obtain ⟨rfl, block, hBlock, hRest⟩ := hLinked
    obtain ⟨hNotMem, hNodup⟩ := nodup_cons.mp hNodup
    cases fuel with
    | zero => exact absurd hFuel (Nat.not_succ_le_zero _)
    | succ fuel =>
      have hSame : ∀ i ∈ rest, (arena.release id block).heap.block i = arena.heap.block i :=
        fun i hi =>
        update_of_ne (ne_of_mem_of_not_mem hi hNotMem) ..
      have hSum : sumOver ArenaBlock.sizeBytes (arena.release id block).heap.block rest =
          sumOver ArenaBlock.sizeBytes arena.heap.block rest := sumOver_congr hSame
      have hNext : Linked ArenaBlock.next (arena.release id block).heap.block block.next rest :=
        hRest.congr fun i hi b hb => ⟨b, (hSame i hi).trans hb, rfl⟩
      rw [sumOver_cons, hBlock, Option.elim_some] at hBytes ⊢
      rw [length_cons] at hCount ⊢
      have hTotal : (arena.release id block).totalAllocated.toNat =
          arena.totalAllocated.toNat - block.sizeBytes :=
        BitVec.toNat_sub_of_le (Nat.le_trans (Nat.le_add_right _ _) hBytes)
      have hOne : (arena.release id block).blockCount.toNat = arena.blockCount.toNat - 1 :=
        BitVec.toNat_sub_of_le (Nat.le_trans (Nat.le_add_left 1 _) hCount)
      obtain ⟨heap, total, count, hRun, hFresh, hLeft, hTotal', hCount', hIn, hOut⟩ :=
        ih hNext hNodup (Nat.le_of_succ_le_succ hFuel)
          (by rw [hOne]; omega) (by rw [hSum, hTotal]; omega)
      refine ⟨heap, total, count, ?_, hFresh, ?_, ?_, ?_, fun i hi => ?_, fun i hi => ?_⟩
      · rw [freeBlocks, hBlock]
        exact hRun
      · rw [hLeft, hSum]
        exact Nat.sub_sub ..
      · rw [hTotal', hTotal, hSum, Nat.sub_sub]
      · rw [hCount', hOne]
        omega
      · rcases mem_cons.mp hi with rfl | hMem
        · rw [hOut i hNotMem]
          exact update_self ..
        · exact hIn i hMem
      · rw [mem_cons, not_or] at hi
        rw [hOut i hi.2]
        exact update_of_ne hi.1 ..

namespace Books

theorem reset (h : Books arena before after) :
    ∃ d rest, arenaReset arena = some d ∧ Books d [] rest := by
  obtain ⟨rest, hChain⟩ : ∃ rest, arena.chain before after = arena.firstBlock :: rest := by
    have hLinked := h.linked
    cases hList : arena.chain before after with
    | nil => exact absurd (hList ▸ current_mem arena before after) not_mem_nil
    | cons i rest =>
      rw [hList] at hLinked
      exact ⟨rest, by rw [Option.some.inj hLinked.1]⟩
  obtain ⟨heap, hRun, hFresh, hBytes, hIn, hOut⟩ := clearUsed_eq h.linked h.nodup h.length_le
  have hRewound : ∀ i b, heap.block i = some b → b.used = 0 ∧
    ∃ c, arena.heap.block i = some c ∧
      c.size = b.size := by
    intro i b hb
    by_cases hMem : i ∈ arena.chain before after
    · rw [hIn i hMem, Option.map_eq_some_iff] at hb
      obtain ⟨c, hc, rfl⟩ := hb
      exact ⟨rfl, c, hc, rfl⟩
    · rw [hOut i hMem] at hb
      exact absurd (h.reachable i b hb) hMem
  have hSum : sumOver ArenaBlock.sizeBytes heap.block (arena.chain before after) = heap.bytes := by
    rw [hBytes, h.bytes]
    refine sumOver_ext fun i hi => ?_
    rw [hIn i hi]
    cases arena.heap.block i <;> rfl
  refine ⟨_, rest, by rw [arenaReset, hRun], ?_⟩
  refine ⟨?_, ?_, ?_, ?_, ?_, ?_, ?_, ?_, ?_, ?_, ?_⟩
  · show Linked _ _ _ (arena.firstBlock :: rest)
    rw [← hChain]
    refine h.linked.congr fun i hi b hb => ⟨b.rewound, by rw [hIn i hi, hb]; rfl, rfl⟩
  · show (arena.firstBlock :: rest).Nodup
    exact hChain ▸ h.nodup
  · intro i b hb
    obtain ⟨_, c, hc, _⟩ := hRewound i b hb
    show i ∈ arena.firstBlock :: rest
    exact hChain ▸ h.reachable i c hc
  · intro i hi
    show i < heap.fresh
    rw [hFresh]
    exact h.below i (hChain ▸ hi)
  · intro i b hb
    obtain ⟨hZero, c, hc, hSize⟩ := hRewound i b hb
    refine ⟨?_, hSize ▸ (h.sizes i c hc).2⟩
    rw [hZero, BitVec.le_def]
    exact Nat.zero_le _
  · exact fun i _ b hb => (hRewound i b hb).1
  · show heap.bytes = sumOver _ _ (arena.firstBlock :: rest)
    rw [← hChain, hSum]
  · show heap.bytes < 2 ^ 64
    exact hBytes ▸ h.bytes_lt
  · show arena.totalAllocated.toNat = heap.bytes
    rw [hBytes, h.allocated]
  · show arena.blockCount.toNat = (arena.firstBlock :: rest).length
    rw [← hChain, h.count]
  · symm
    exact sumOver_eq_zero fun i _ b hb => by rw [ArenaBlock.usedBytes, (hRewound i b hb).1]; rfl

/-- A scope end cuts the chain after the saved block when the rest is unused. -/
theorem scopeEnd (h : Books arena before after) {front back : List Nat} {scope : ArenaScope}
    (hChain : arena.chain before after = front ++ scope.savedBlock :: back)
    (hBlock : arena.heap.block scope.savedBlock = some block)
    (hUsed : scope.savedUsed ≤ block.used)
    (hUnused : ∀ i ∈ back, ∀ b, arena.heap.block i = some b → b.used = 0) :
    ∃ d, arenaScopeEnd arena scope = some d ∧ Books d front [] ∧
      d.currentBlock = scope.savedBlock ∧
      d.heap.block scope.savedBlock = some { block with next := none, used := scope.savedUsed } ∧
      ∀ i ∈ front, d.heap.block i = arena.heap.block i := by
  have hLinked := h.linked
  have hNodup := h.nodup
  rw [hChain] at hLinked hNodup
  obtain ⟨hFrontNodup, hBackNodup, hDisjoint⟩ := nodup_append'.mp hNodup
  obtain ⟨hSavedBack, hBackNodup⟩ := nodup_cons.mp hBackNodup
  have hSavedFront : scope.savedBlock ∉ front := fun hMem => hDisjoint hMem mem_cons_self
  obtain ⟨b, hb, hBack⟩ := hLinked.rest
  obtain rfl := Option.some.inj (hBlock.symm.trans hb)
  have hSizes : ∀ f, sumOver f arena.heap.block (front ++ scope.savedBlock :: back) =
      sumOver f arena.heap.block front + (f block + sumOver f arena.heap.block back) := fun f =>
    sumOver_middle hBlock
  have hBytes := h.bytes
  have hCount := h.count
  have hTotalUsed := h.used
  rw [hChain, hSizes] at hBytes hTotalUsed
  rw [hChain, length_append, length_cons] at hCount
  have hZero : sumOver ArenaBlock.usedBytes arena.heap.block back = 0 :=
    sumOver_eq_zero fun i hi b hb => by rw [ArenaBlock.usedBytes, hUnused i hi b hb]; rfl
  have hLength := h.length_le
  rw [hChain, length_append, length_cons] at hLength
  obtain ⟨heap, total, count, hRun, hFresh, hLeft, hTotal, hCount', hIn, hOut⟩ :=
    freeBlocks_eq hBack hBackNodup (show back.length ≤ arena.heap.fresh by omega) (by omega)
      (by rw [h.allocated, hBytes]; omega)
  have hFront : ∀ i ∈ front, (heap.set scope.savedBlock
      { block with next := none, used := scope.savedUsed }).block i = arena.heap.block i := by
    intro i hi
    have hBackMem : i ∉ back := fun hMem => hDisjoint hi (mem_cons_of_mem _ hMem)
    exact (update_of_ne (ne_of_mem_of_not_mem hi hSavedFront) ..).trans (hOut i hBackMem)
  have hSaved : (heap.set scope.savedBlock
      { block with next := none, used := scope.savedUsed }).block
      scope.savedBlock = some { block with next := none, used := scope.savedUsed } :=
    update_self ..
  have hKept : ∀ f, f { block with next := none, used := scope.savedUsed } = f block →
      sumOver f (heap.set scope.savedBlock
        { block with next := none, used := scope.savedUsed }).block
        (front ++ [scope.savedBlock]) = sumOver f arena.heap.block front + f block := by
    intro f hSame
    rw [sumOver_middle hSaved, sumOver_congr hFront, hSame]
    rfl
  refine ⟨{ arena with
    heap := heap.set scope.savedBlock { block with next := none, used := scope.savedUsed }
    totalAllocated := total
    totalUsed := arena.totalUsed - (block.used - scope.savedUsed)
    blockCount := count
    currentBlock := scope.savedBlock }, ?_, ?_, rfl, hSaved, hFront⟩
  · simp only [arenaScopeEnd, hBlock, hRun]
    exact if_neg (Nat.not_lt_of_le hUsed)
  · have hSizes : ∀ i b, (heap.set scope.savedBlock
        { block with next := none, used := scope.savedUsed }).block i = some b →
        i ∈ front ++ [scope.savedBlock] ∧ b.used ≤ b.size ∧ arenaBlockSize ≤ b.size := by
      intro i b hb
      by_cases hId : i = scope.savedBlock
      · subst hId
        cases hSaved.symm.trans hb
        have hOld := h.sizes _ block hBlock
        exact ⟨mem_append_right _ mem_cons_self, BitVec.le_trans hUsed hOld.1, hOld.2⟩
      · have hOther : heap.block i = some b := (update_of_ne hId ..).symm.trans hb
        have hNotBack : i ∉ back := fun hMem => by cases (hIn i hMem).symm.trans hOther
        rw [hOut i hNotBack] at hOther
        have hMem := h.reachable i b hOther
        rw [hChain, mem_append, mem_cons] at hMem
        exact ⟨mem_append_left _ (by tauto), h.sizes i b hOther⟩
    refine ⟨?_, ?_, fun i b hb => (hSizes i b hb).1, ?_, fun i b hb => (hSizes i b hb).2,
      nofun, ?_, ?_, ?_, ?_, ?_⟩
    · exact hLinked.splice hFront hSaved rfl
    · exact hNodup.sublist (List.Sublist.append_left (by simp) front)
    · intro i hi
      show i < heap.fresh
      rw [hFresh]
      refine h.below i (hChain ▸ ?_)
      exact List.Sublist.subset (List.Sublist.append_left (by simp) front) hi
    · show heap.bytes = sumOver _ _ (front ++ [scope.savedBlock])
      rw [hKept _ rfl, hLeft, hBytes]
      omega
    · show heap.bytes < 2 ^ 64
      have hLt := h.bytes_lt
      omega
    · show total.toNat = heap.bytes
      rw [hTotal, hLeft, h.allocated]
    · show count.toNat = (front ++ [scope.savedBlock]).length
      rw [hCount', hCount, length_append, length_singleton]
      omega
    · have hLe : scope.savedUsed.toNat ≤ block.used.toNat := hUsed
      have hFreed : (block.used - scope.savedUsed).toNat =
          block.used.toNat - scope.savedUsed.toNat :=
        BitVec.toNat_sub_of_le hUsed
      show (arena.totalUsed - (block.used - scope.savedUsed)).toNat =
        sumOver _ _ (front ++ [scope.savedBlock])
      rw [hZero] at hTotalUsed
      have hEnough : block.used - scope.savedUsed ≤ arena.totalUsed := by
        rw [BitVec.le_def, hFreed, hTotalUsed, ArenaBlock.usedBytes]
        omega
      rw [BitVec.toNat_sub_of_le hEnough, hFreed, hTotalUsed, sumOver_middle hSaved,
        sumOver_congr hFront, sumOver_nil]
      show _ - (block.used.toNat - scope.savedUsed.toNat) = _ + (scope.savedUsed.toNat + 0)
      rw [ArenaBlock.usedBytes]
      omega

end Books

end

end Casprix.Support
