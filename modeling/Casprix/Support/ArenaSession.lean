import Casprix.Support.ArenaBooks

/-! The allocations of an arena over whole runs: they stay apart and inside
blocks of the chain, and the counters are those of the chain. -/
namespace Casprix.Support

open Function List
open Mir (Word)
open Library

/-- Two ranges have no byte in common. -/
def Apart (a b : Allocation) : Prop :=
  a.block = b.block → a.offset + a.length ≤ b.offset ∨ b.offset + b.length ≤ a.offset

/-- The allocations in use lie in blocks of the chain and are pairwise apart,
and the counters are the sums over the chain, which holds every block. -/
structure BalancedOn (s : Session) (chain : List Nat) : Prop where
  linked : Linked ArenaBlock.next s.arena.heap.block (some s.arena.firstBlock) chain
  reachable : ∀ id b, s.arena.heap.block id = some b → id ∈ chain
  inside : ∀ a ∈ s.live, a.block ∈ chain ∧ ∃ b, s.arena.heap.block a.block = some b ∧
    a.offset + a.length ≤ b.size.toNat
  apart : s.live.Pairwise Apart
  allocated : s.arena.totalAllocated.toNat = sumOver ArenaBlock.sizeBytes s.arena.heap.block chain
  count : s.arena.blockCount.toNat = chain.length
  used : s.arena.totalUsed.toNat = sumOver ArenaBlock.usedBytes s.arena.heap.block chain

def Balanced (s : Session) : Prop := ∃ chain, BalancedOn s chain

/-- The block that is current has room, or a fresh one goes to the end of the chain. -/
def GrowsAtEnd (block : ArenaBlock) (ok : Bool) (used size : Word) : Prop :=
  block.Fits used size ∨ block.next = none ∨ ok = false

/-- A size that can be rounded up, and no block behind the current one when it does not fit. -/
def AllocKeeps (arena : Arena) (ok : Bool) (size : Word) : Prop :=
  size = 0 ∨ size.toNat + arenaAlignment.toNat ≤ 2 ^ 64 ∧
    ∀ block ∈ arena.heap.block arena.currentBlock,
      GrowsAtEnd block ok block.used (alignSize size arenaAlignment)

/-- The calls that keep the books. A scope end must find its block, not
rewound below its mark, and no used bytes in the blocks it frees. -/
def KeepsBooks (op : ArenaOp) (s : Session) : Prop :=
  match op with
  | .alloc size ok => AllocKeeps s.arena ok size
  | .allocAligned size alignment ok => IsAlignment alignment ∧
      ∀ block ∈ s.arena.heap.block s.arena.currentBlock,
        block.used.toNat + alignment.toNat ≤ 2 ^ 64 ∧
        GrowsAtEnd block ok (alignSize block.used alignment) size ∧
        (block.Fits (alignSize block.used alignment) size ∨ ok = false ∨
          size.toNat + alignment.toNat ≤ 2 ^ 64)
  | .calloc count size ok => count * size = 0 ∨
      count.toNat * size.toNat < 2 ^ 64 ∧ AllocKeeps s.arena ok (count * size)
  | .reset | .scopeBegin => True
  | .scopeEnd => ∃ scope ∈ s.scopes.head?, ∃ block ∈ s.arena.heap.block scope.savedBlock,
      scope.savedUsed ≤ block.used ∧
      ∀ id ∈ walk ArenaBlock.next s.arena.heap.block s.arena.heap.fresh block.next,
        ∀ b ∈ s.arena.heap.block id, b.used = 0

/-- The books are kept, nothing in use lies behind the current block, and what
was in use when an open scope began lies before its mark. -/
structure Sound (s : Session) (before after : List Nat) : Prop where
  books : Books s.arena before after
  placed : ∀ a ∈ s.live, a.block ∉ after ∧ ∃ b, s.arena.heap.block a.block = some b ∧
    a.offset + a.length ≤ b.used.toNat
  apart : s.live.Pairwise Apart
  saved : ∀ scope rest, (scope :: rest) <:+ s.scopes → ∀ front back,
    s.arena.chain before after = front ++ scope.savedBlock :: back →
    ∀ a ∈ s.live, a.depth ≤ rest.length → a.block ∉ back ∧
      (a.block = scope.savedBlock → a.offset + a.length ≤ scope.savedUsed.toNat)

section

variable {s : Session} {before after : List Nat} {block : ArenaBlock} {ok : Bool}
  {size used offset : Word} {length : Nat}

namespace Sound

theorem balanced (h : Sound s before after) : Balanced s := by
  refine ⟨s.arena.chain before after, h.books.linked, h.books.reachable,
    fun a ha => ?_, h.apart, ?_,
    h.books.count, h.books.used⟩
  · obtain ⟨_, b, hb, hEnd⟩ := h.placed a ha
    exact ⟨h.books.reachable _ b hb, b, hb, Nat.le_trans hEnd (h.books.sizes _ b hb).1⟩
  · rw [h.books.allocated, h.books.bytes]

theorem fill (h : Sound s before after)
    (hBlock : s.arena.heap.block s.arena.currentBlock = some block)
    (hOffset : block.used ≤ offset)
    (hEnd : offset.toNat + length ≤ used.toNat) (hFits : used ≤ block.size) : Sound
      (s.record length (some ⟨s.arena.currentBlock, offset⟩,
        { s.arena with
          heap := s.arena.heap.set s.arena.currentBlock { block with used := used }
          totalUsed := s.arena.totalUsed + (used - block.used) })) before after := by
  have hOffset' : block.used.toNat ≤ offset.toNat := hOffset
  have hMore : block.used.toNat ≤ used.toNat := by omega
  refine ⟨h.books.fill hBlock hMore hFits, ?_, ?_, ?_⟩
  · intro a ha
    rcases mem_cons.mp ha with rfl | ha
    · exact ⟨h.books.not_mem.2, _, update_self .., hEnd⟩
    · obtain ⟨hAfter, b, hb, hLe⟩ := h.placed a ha
      refine ⟨hAfter, ?_⟩
      by_cases hHere : a.block = s.arena.currentBlock
      · rw [hHere, hBlock] at hb
        cases hb
        refine ⟨{ block with used := used }, ?_, Nat.le_trans hLe hMore⟩
        rw [hHere]
        exact update_self ..
      · exact ⟨b, (update_of_ne hHere ..).trans hb, hLe⟩
  · refine pairwise_cons.mpr ⟨fun a ha hSame => .inr ?_, h.apart⟩
    obtain ⟨_, b, hb, hLe⟩ := h.placed a ha
    rw [← hSame] at hb
    cases hBlock.symm.trans hb
    exact Nat.le_trans hLe hOffset'
  · intro scope rest hSuffix front back hChain a ha hDepth
    rcases mem_cons.mp ha with rfl | ha
    · have hShorter := hSuffix.length_le
      exact absurd (Nat.lt_of_lt_of_le (Nat.lt_succ_self _) hShorter) (Nat.not_lt_of_le hDepth)
    · exact h.saved scope rest hSuffix front back hChain a ha hDepth

theorem split_concat {chain front back : List Nat} {i j : Nat}
    (h : chain ++ [i] = front ++ j :: back) :
    (back = [] ∧ j = i) ∨ ∃ rest, back = rest ++ [i] ∧ chain = front ++ j :: rest := by
  rcases eq_nil_or_concat back with rfl | ⟨rest, k, rfl⟩
  · obtain ⟨_, hLast⟩ := append_inj' h rfl
    exact .inl ⟨rfl, (List.cons.inj hLast).1.symm⟩
  · rw [concat_eq_append, ← cons_append, ← append_assoc] at h
    obtain ⟨hChain, hLast⟩ := append_inj' h rfl
    refine .inr ⟨rest, ?_, hChain⟩
    rw [concat_eq_append, hLast]

theorem arenaNewBlock (h : Sound s before after)
    (hBlock : s.arena.heap.block s.arena.currentBlock = some block)
    (hLength : ok = true → length ≤ size.toNat)
    (hGrows : block.next = none ∨ ok = false) : ∃ before after,
      Sound (s.record length (arenaNewBlock s.arena ok block size)) before after := by
  rw [Support.arenaNewBlock]
  cases hCreate : createBlock s.arena.heap ok size with
  | none => exact ⟨before, after, h⟩
  | some result =>
    obtain ⟨id, newBlock, heap⟩ := result
    obtain ⟨newSize, hSize, hLarge, hOk, hBytes, rfl, rfl, rfl⟩ := createBlock_eq hCreate
    have hNext : block.next = none := hGrows.resolve_right fun hFail => by
      cases hOk.symm.trans hFail
    obtain ⟨b, hb, hRest⟩ := h.books.linked.rest
    cases hBlock.symm.trans hb
    rw [hNext] at hRest
    have hAfter : after = [] := hRest.unique rfl
    subst hAfter
    have hNew : ∀ a ∈ s.live, a.block < s.arena.heap.fresh := by
      intro a ha
      obtain ⟨_, c, hc, _⟩ := h.placed a ha
      exact h.books.below _ (h.books.reachable _ c hc)
    have hCurrentOld := h.books.below _ (current_mem s.arena before [])
    obtain ⟨heap, hHeap⟩ : ∃ heap, (Heap.set ⟨update s.arena.heap.block s.arena.heap.fresh
      (some ⟨newSize, 0, none⟩), s.arena.heap.fresh + 1, s.arena.heap.bytes + newSize.toNat⟩
      s.arena.currentBlock { block with next := some s.arena.heap.fresh }).set s.arena.heap.fresh
      ⟨newSize, size, none⟩ = heap := ⟨_, rfl⟩
    have hFresh : heap.block s.arena.heap.fresh = some ⟨newSize, size, none⟩ := by
      rw [← hHeap]
      exact update_self ..
    have hCurrent : heap.block s.arena.currentBlock =
        some { block with next := some s.arena.heap.fresh } := by
      rw [← hHeap, Heap.set_block, update_of_ne (Nat.ne_of_lt hCurrentOld)]
      exact update_self ..
    have hOther : ∀ i, i ≠ s.arena.heap.fresh → i ≠ s.arena.currentBlock →
        heap.block i = s.arena.heap.block i := by
      intro i hi hId
      rw [← hHeap, Heap.set_block, update_of_ne hi, Heap.set_block, update_of_ne hId]
      exact update_of_ne hi ..
    have hBooks := h.books.newBlock hBlock hFresh hCurrent hOther (by rw [← hHeap]; rfl)
      (by rw [← hHeap]; rfl) (by rw [← hHeap]; exact hBytes) hSize hLarge
    subst hHeap
    refine ⟨before ++ [s.arena.currentBlock], [], hBooks, ?_, ?_, ?_⟩
    · intro a ha
      refine ⟨not_mem_nil, ?_⟩
      rcases mem_cons.mp ha with rfl | ha
      · exact ⟨_, hFresh, Nat.le_trans (Nat.le_of_eq (Nat.zero_add _)) (hLength hOk)⟩
      · obtain ⟨_, c, hc, hLe⟩ := h.placed a ha
        by_cases hHere : a.block = s.arena.currentBlock
        · rw [hHere] at hc ⊢
          cases hBlock.symm.trans hc
          exact ⟨_, hCurrent, hLe⟩
        · exact ⟨c, (hOther _ (Nat.ne_of_lt (hNew a ha)) hHere).trans hc, hLe⟩
    · refine pairwise_cons.mpr ⟨fun a ha hSame => ?_, h.apart⟩
      exact absurd hSame.symm (Nat.ne_of_lt (hNew a ha))
    · intro scope rest hSuffix front back hChain a ha hDepth
      rcases mem_cons.mp ha with rfl | ha
      · have hShorter := hSuffix.length_le
        exact absurd (Nat.lt_of_lt_of_le (Nat.lt_succ_self _) hShorter) (Nat.not_lt_of_le hDepth)
      · have hOld := Nat.ne_of_lt (hNew a ha)
        rcases split_concat hChain with ⟨rfl, hLast⟩ | ⟨back', rfl, hInner⟩
        · exact ⟨not_mem_nil, fun hHere => absurd (hHere.trans hLast) hOld⟩
        · obtain ⟨hNotMem, hMark⟩ := h.saved scope rest hSuffix front back' hInner a ha hDepth
          refine ⟨?_, hMark⟩
          rw [mem_append, mem_singleton, not_or]
          exact ⟨hNotMem, hOld⟩

theorem reset (h : Sound s before after) : ∃ d, sessionStep .reset s = some d ∧
    ∃ before after, Sound d before after := by
  obtain ⟨arena, rest, hReset, hBooks⟩ := h.books.reset
  refine ⟨_, by rw [sessionStep, hReset]; rfl, [], rest, hBooks, ?_, List.Pairwise.nil, ?_⟩
  · exact nofun
  · exact nofun

theorem scopeBegin (h : Sound s before after) : ∃ d, sessionStep .scopeBegin s = some d ∧
    ∃ before after, Sound d before after := by
  obtain ⟨block, hBlock⟩ := h.books.exists_current
  refine ⟨{ s with scopes := ⟨s.arena.currentBlock, block.used⟩ :: s.scopes },
    ?_, before, after,
    h.books, h.placed, h.apart, ?_⟩
  · rw [sessionStep, arenaScopeBegin, hBlock]
    rfl
  · intro scope rest hSuffix front back hChain a ha hDepth
    rcases suffix_cons_iff.mp hSuffix with hNew | hOld
    · cases hNew
      have hSplit : before ++ s.arena.currentBlock :: after =
          front ++ s.arena.currentBlock :: back := hChain
      have hNodup := h.books.nodup
      rw [Arena.chain, hSplit, nodup_middle, nodup_cons, mem_append, not_or] at hNodup
      obtain ⟨_, _, rfl⟩ := (append_cons_inj_of_notMem hNodup.1.1 hNodup.1.2).mp hSplit.symm
      obtain ⟨hAfter, b, hb, hLe⟩ := h.placed a ha
      refine ⟨hAfter, fun hHere => ?_⟩
      rw [hHere] at hb
      cases hBlock.symm.trans hb
      exact hLe
    · exact h.saved scope rest hOld front back hChain a ha hDepth

theorem scopeEnd (h : Sound s before after) (hKeeps : KeepsBooks .scopeEnd s) :
    ∃ d, sessionStep .scopeEnd s = some d ∧ ∃ before after, Sound d before after := by
  obtain ⟨scope, hHead, block, hBlock, hUsed, hUnused⟩ := hKeeps
  obtain ⟨scopes, hScopes⟩ : ∃ scopes, s.scopes = scope :: scopes := by
    cases hList : s.scopes with
    | nil => rw [hList] at hHead; cases hHead
    | cons first scopes => rw [hList] at hHead; cases hHead; exact ⟨scopes, rfl⟩
  obtain ⟨front, back, hChain⟩ := append_of_mem (h.books.reachable _ block hBlock)
  have hLinked := h.books.linked
  rw [hChain] at hLinked
  obtain ⟨b, hb, hRest⟩ := hLinked.rest
  cases Option.some.inj (hBlock.symm.trans hb)
  have hLength := h.books.length_le
  rw [hChain, length_append, length_cons] at hLength
  rw [hRest.walk_eq (show back.length ≤ s.arena.heap.fresh by omega)] at hUnused
  obtain ⟨arena, hEnd, hBooks, hCurrent, hSaved, hFront⟩ :=
    h.books.scopeEnd hChain hBlock hUsed hUnused
  have hMark := h.saved scope scopes (hScopes ▸ suffix_refl _) front back hChain
  have hLive : ∀ a ∈ s.live.filter fun a => a.depth ≤ scopes.length,
      a ∈ s.live ∧ a.depth ≤ scopes.length := fun a ha => by
    rw [mem_filter, decide_eq_true_iff] at ha
    exact ha
  refine ⟨⟨arena, scopes, s.live.filter fun a => a.depth ≤ scopes.length⟩,
    ?_, front, [], hBooks, ?_,
    h.apart.filter _, ?_⟩
  · rw [sessionStep, hScopes]
    show (arenaScopeEnd s.arena scope).map _ = _
    rw [hEnd]
    rfl
  · intro a ha
    obtain ⟨hMem, hDepth⟩ := hLive a ha
    obtain ⟨hBack, hBefore⟩ := hMark a hMem hDepth
    obtain ⟨_, c, hc, hLe⟩ := h.placed a hMem
    refine ⟨not_mem_nil, ?_⟩
    by_cases hHere : a.block = scope.savedBlock
    · exact ⟨_, hHere ▸ hSaved, hBefore hHere⟩
    · have hIn := h.books.reachable _ c hc
      rw [hChain, mem_append, mem_cons] at hIn
      exact ⟨c, (hFront _ (by tauto)).trans hc, hLe⟩
  · intro scope' rest hSuffix front' back' hCut a ha hDepth
    obtain ⟨hMem, _⟩ := hLive a ha
    have hWhole : s.arena.chain before after = front' ++ scope'.savedBlock :: (back' ++ back) := by
      have hCut' : front ++ [scope.savedBlock] = front' ++ scope'.savedBlock :: back' :=
        hCurrent ▸ hCut
      rw [hChain, ← cons_append, ← append_assoc, ← hCut', append_assoc, singleton_append]
    have hOuter : (scope' :: rest) <:+ s.scopes := hScopes ▸ hSuffix.trans (suffix_cons _ _)
    obtain ⟨hBack, hBefore⟩ :=
      h.saved scope' rest hOuter front' (back' ++ back) hWhole a hMem hDepth
    exact ⟨fun hIn => hBack (mem_append_left _ hIn), hBefore⟩

end Sound

/-- Bytes that fit are added without wrapping. -/
theorem ArenaBlock.Fits.add (h : block.Fits used size) :
    (used + size).toNat = used.toNat + size.toNat ∧ used + size ≤ block.size := by
  have hUsed : used.toNat ≤ block.size.toNat := h.1
  have hSize : size.toNat ≤ (block.size - used).toNat := h.2
  rw [BitVec.toNat_sub_of_le h.1] at hSize
  have hAdd : (used + size).toNat = used.toNat + size.toNat := by
    rw [BitVec.toNat_add]
    exact Nat.mod_eq_of_lt (by omega)
  refine ⟨hAdd, ?_⟩
  rw [BitVec.le_def, hAdd]
  omega

theorem Sound.alloc (h : Sound s before after) (hKeeps : AllocKeeps s.arena ok size)
    (hLength : size = 0 ∨ length = size.toNat) :
    ∃ result, arenaAlloc s.arena ok size = some result ∧
      ∃ before after, Sound (s.record length result) before after := by
  rw [arenaAlloc]
  by_cases hZero : size = 0
  · exact ⟨_, if_pos hZero, before, after, h⟩
  · obtain ⟨block, hBlock⟩ := h.books.exists_current
    obtain ⟨hWrap, hGrows⟩ := hKeeps.resolve_left hZero
    have hLarger : size ≤ alignSize size arenaAlignment := le_alignSize (by decide) hWrap
    have hLarger' : length ≤ (alignSize size arenaAlignment).toNat :=
      Nat.le_trans (Nat.le_of_eq (hLength.resolve_left hZero)) hLarger
    rw [if_neg hZero]
    simp only [hBlock]
    by_cases hFits : block.Fits block.used (alignSize size arenaAlignment)
    · obtain ⟨hAdd, hLe⟩ := hFits.add
      rw [if_pos hFits]
      refine ⟨_, rfl, before, after, ?_⟩
      have hEnd : block.used.toNat + length ≤
          (block.used + alignSize size arenaAlignment).toNat := by
        rw [hAdd]
        exact Nat.add_le_add_left hLarger' _
      have hFill := h.fill hBlock (BitVec.le_refl _) hEnd hLe
      rwa [BitVec.add_comm, BitVec.add_sub_cancel, BitVec.add_comm] at hFill
    · rw [if_neg hFits]
      refine ⟨_, rfl, h.arenaNewBlock hBlock (fun _ => hLarger') ?_⟩
      exact (hGrows block hBlock).resolve_left hFits

theorem Sound.allocAligned (h : Sound s before after) {alignment : Word}
    (hKeeps : KeepsBooks (.allocAligned size alignment ok) s) :
    ∃ result, arenaAllocAligned s.arena ok size alignment = some result ∧
      ∃ before after, Sound (s.record size.toNat result) before after := by
  obtain ⟨hAlignment, hBlocks⟩ := hKeeps
  obtain ⟨block, hBlock⟩ := h.books.exists_current
  obtain ⟨hWrap, hGrows, hRound⟩ := hBlocks block hBlock
  rw [arenaAllocAligned, if_pos hAlignment]
  simp only [hBlock]
  have hLarger : block.used ≤ alignSize block.used alignment := le_alignSize hAlignment.1 hWrap
  by_cases hFits : block.Fits (alignSize block.used alignment) size
  · obtain ⟨hAdd, hLe⟩ := hFits.add
    rw [if_pos hFits]
    refine ⟨_, rfl, before, after, ?_⟩
    have hFill := h.fill hBlock hLarger (Nat.le_of_eq hAdd.symm) hLe
    have hPad : alignSize block.used alignment + size - block.used =
        alignSize block.used alignment - block.used + size := by
      rw [BitVec.sub_eq_add_neg, BitVec.sub_eq_add_neg, BitVec.add_assoc, BitVec.add_comm size,
        BitVec.add_assoc]
    rwa [hPad] at hFill
  · rw [if_neg hFits]
    have hTail := hGrows.resolve_left hFits
    refine ⟨_, rfl, h.arenaNewBlock hBlock (fun hOk => ?_) hTail⟩
    rcases hRound.resolve_left hFits with hFail | hRound
    · cases hOk.symm.trans hFail
    · exact le_alignSize hAlignment.1 hRound

theorem Sound.step {op : ArenaOp} (h : Sound s before after) (hKeeps : KeepsBooks op s) :
    ∃ d, sessionStep op s = some d ∧ ∃ before after, Sound d before after := by
  cases op with
  | alloc size ok =>
    obtain ⟨result, hRun, hSound⟩ := h.alloc hKeeps (.inr rfl)
    exact ⟨_, by rw [sessionStep, hRun]; rfl, hSound⟩
  | allocAligned size alignment ok =>
    obtain ⟨result, hRun, hSound⟩ := h.allocAligned hKeeps
    exact ⟨_, by rw [sessionStep, hRun]; rfl, hSound⟩
  | calloc count size ok =>
    rcases hKeeps with hZero | ⟨hWrap, hKeeps⟩
    · obtain ⟨result, hRun, hSound⟩ := h.alloc (.inl hZero) (.inl hZero)
      exact ⟨_, by rw [sessionStep, arenaCalloc, hRun]; rfl, hSound⟩
    · have hTotal : (count * size).toNat = count.toNat * size.toNat := by
        rw [BitVec.toNat_mul]
        exact Nat.mod_eq_of_lt hWrap
      obtain ⟨result, hRun, hSound⟩ := h.alloc hKeeps (.inr hTotal.symm)
      exact ⟨_, by rw [sessionStep, arenaCalloc, hRun]; rfl, hSound⟩
  | reset => exact h.reset
  | scopeBegin => exact h.scopeBegin
  | scopeEnd => exact h.scopeEnd hKeeps

/-- A new arena has one empty block. -/
def freshArena (generation : BitVec 32) : Arena where
  heap := ⟨update (fun _ => none) 0 (some ⟨arenaBlockSize, 0, none⟩),
    1, arenaBlockSize.toNat⟩
  currentBlock := 0
  firstBlock := 0
  totalAllocated := arenaBlockSize
  totalUsed := 0
  blockCount := 1
  generation := generation

theorem arenaCreate_eq {generation : BitVec 32} {arena : Arena}
    (hCreate : arenaCreate ok generation = some arena) : arena = freshArena generation := by
  cases ok with
  | false => cases hCreate
  | true => exact (Option.some.inj hCreate).symm

theorem sound_freshArena (generation : BitVec 32) :
    Sound ⟨freshArena generation, [], []⟩ [] [] := by
  have hBlock : ∀ i b, (freshArena generation).heap.block i = some b →
      i = 0 ∧ b = ⟨arenaBlockSize, 0, none⟩ := by
    intro i b hb
    by_cases hId : i = 0
    · subst hId
      exact ⟨rfl, (Option.some.inj hb).symm⟩
    · have hNone : (freshArena generation).heap.block i = none := by
        show update (fun _ => none) 0 (some (⟨arenaBlockSize, 0, none⟩ : ArenaBlock)) i = none
        rw [update_of_ne hId]
      cases hNone.symm.trans hb
  refine ⟨⟨⟨rfl, _, rfl, rfl⟩, nodup_singleton 0, ?_, ?_, ?_, ?_, rfl,
    show arenaBlockSize.toNat < 2 ^ 64 by decide, rfl, rfl, rfl⟩, ?_, List.Pairwise.nil, ?_⟩
  · intro i b hb
    rw [(hBlock i b hb).1]
    exact mem_cons_self
  · intro i hi
    rw [mem_singleton.mp hi]
    exact Nat.one_pos
  · intro i b hb
    rw [(hBlock i b hb).2]
    decide
  · exact nofun
  · exact nofun
  · exact nofun

end

instance (block : ArenaBlock) (ok : Bool) (used size : Word) :
    Decidable (GrowsAtEnd block ok used size) :=
  inferInstanceAs (Decidable (block.Fits used size ∨ block.next = none ∨ ok = false))

instance (arena : Arena) (ok : Bool) (size : Word) : Decidable (AllocKeeps arena ok size) :=
  inferInstanceAs (Decidable (size = 0 ∨ size.toNat + arenaAlignment.toNat ≤ 2 ^ 64 ∧
    ∀ block ∈ arena.heap.block arena.currentBlock,
      GrowsAtEnd block ok block.used (alignSize size arenaAlignment)))

instance (op : ArenaOp) (s : Session) : Decidable (KeepsBooks op s) :=
  match op with
  | .alloc size ok => inferInstanceAs (Decidable (AllocKeeps s.arena ok size))
  | .allocAligned size alignment ok => inferInstanceAs (Decidable (IsAlignment alignment ∧
      ∀ block ∈ s.arena.heap.block s.arena.currentBlock,
        block.used.toNat + alignment.toNat ≤ 2 ^ 64 ∧
        GrowsAtEnd block ok (alignSize block.used alignment) size ∧
        (block.Fits (alignSize block.used alignment) size ∨ ok = false ∨
          size.toNat + alignment.toNat ≤ 2 ^ 64)))
  | .calloc count size ok => inferInstanceAs (Decidable (count * size = 0 ∨
      count.toNat * size.toNat < 2 ^ 64 ∧ AllocKeeps s.arena ok (count * size)))
  | .reset | .scopeBegin => instDecidableTrue
  | .scopeEnd => inferInstanceAs (Decidable (∃ scope ∈ s.scopes.head?,
      ∃ block ∈ s.arena.heap.block scope.savedBlock, scope.savedUsed ≤ block.used ∧
      ∀ id ∈ walk ArenaBlock.next s.arena.heap.block s.arena.heap.fresh block.next,
        ∀ b ∈ s.arena.heap.block id, b.used = 0))

/-- In a run whose calls all keep the books, every call completes, the
allocations in use stay apart and inside blocks of the chain, and the counters are
the sums over the chain. -/
theorem arena_balanced (ok : Bool) (generation : BitVec 32) (arena : Arena) (ops : List ArenaOp)
    (hCreate : arenaCreate ok generation = some arena)
    (hKeeps : CallsMeet sessionStep KeepsBooks ops ⟨arena, [], []⟩) :
    ∃ s, runCalls sessionStep ops ⟨arena, [], []⟩ = some s ∧ Balanced s := by
  have hStart : ∃ before after, Sound ⟨arena, [], []⟩ before after :=
    ⟨[], [], arenaCreate_eq hCreate ▸ sound_freshArena generation⟩
  have hStep : ∀ (op : ArenaOp) s, (∃ before after, Sound s before after) →
    KeepsBooks op s →
      ∃ d, sessionStep op s = some d ∧ ∃ before after, Sound d before after :=
    fun op s ⟨_, _, hSound⟩ hOk => hSound.step hOk
  obtain ⟨s, hRun, before, after, hSound⟩ := exists_runCalls hStep hStart hKeeps
  exact ⟨s, hRun, hSound.balanced⟩

/-- A scope that stays in the first block, a second block, and a reset. -/
def keptCalls : List ArenaOp :=
  [.alloc 100 true, .scopeBegin, .allocAligned 24 64 true, .calloc 3 5 true, .scopeEnd,
    .alloc 70000 true, .reset, .alloc 16 true]

theorem arena_balanced_kept :
    ∃ s, runCalls sessionStep keptCalls ⟨freshArena 0, [], []⟩ = some s ∧ Balanced s :=
  arena_balanced true 0 (freshArena 0) keptCalls rfl (by decide +kernel)

/-- The used bytes of a block that a scope added are still counted after it is freed. -/
theorem arena_scope_unbalanced :
    ¬∀ s, runCalls sessionStep [.alloc 16 true, .scopeBegin, .alloc 65536 true, .scopeEnd]
      ⟨freshArena 0, [], []⟩ = some s → Balanced s := by
  intro h
  obtain ⟨s, hRun, hSeen⟩ : ∃ s, runCalls sessionStep
      [.alloc 16 true, .scopeBegin, .alloc 65536 true, .scopeEnd]
        ⟨freshArena 0, [], []⟩ = some s ∧
      (s.arena.firstBlock, s.arena.heap.block 0, s.arena.totalUsed) =
        (0, some ⟨65536, 16, none⟩, 65552) :=
    Option.map_eq_some_iff.mp (by decide +kernel)
  rw [Prod.mk.injEq, Prod.mk.injEq] at hSeen
  obtain ⟨chain, hBalanced⟩ := h s hRun
  have hLinked := hBalanced.linked
  rw [hSeen.1] at hLinked
  have hChain : chain = [0] := hLinked.unique ⟨rfl, _, hSeen.2.1, rfl⟩
  have hUsed := hBalanced.used
  rw [hChain, hSeen.2.2, sumOver_cons, hSeen.2.1] at hUsed
  cases hUsed

end Casprix.Support
