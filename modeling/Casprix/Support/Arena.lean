import Casprix.Mir.Basic
import Mathlib.Algebra.Group.Nat.Defs

/-! The arena: a chain of blocks with a current one that is filled from the
front, rewound by a reset and cut at the end of a scope. -/
namespace Casprix.Support

open Mir (Word)

def arenaBlockSize : Word := 64 * 1024

def arenaAlignment : Word := 16

/-- The memory of a block is its own, so a block and its memory have one name. -/
structure ArenaBlock where
  size : Word
  used : Word
  next : Option Nat
  deriving DecidableEq, Repr

/-- The blocks that are not freed, the next name, and the bytes handed out.
These never exceed the address space. -/
structure Heap where
  block : Nat → Option ArenaBlock := fun _ => none
  fresh : Nat := 0
  bytes : Nat := 0

def Heap.set (heap : Heap) (id : Nat) (block : ArenaBlock) : Heap :=
  { heap with block := Function.update heap.block id (some block) }

def Heap.free (heap : Heap) (id : Nat) (block : ArenaBlock) : Heap :=
  { heap with
    block := Function.update heap.block id none
    bytes := heap.bytes - block.size.toNat }

@[simp] theorem Heap.set_block (heap : Heap) (id : Nat) (block : ArenaBlock) :
    (heap.set id block).block = Function.update heap.block id (some block) := rfl

@[simp] theorem Heap.free_block (heap : Heap) (id : Nat) (block : ArenaBlock) :
    (heap.free id block).block = Function.update heap.block id none := rfl

structure Arena where
  heap : Heap
  currentBlock : Nat
  firstBlock : Nat
  totalAllocated : Word
  totalUsed : Word
  blockCount : Word
  generation : BitVec 32

/-- An address inside the memory of a block. -/
structure ArenaPtr where
  block : Nat
  offset : Word
  deriving DecidableEq, Repr

structure ArenaScope where
  savedBlock : Nat
  savedUsed : Word
  deriving DecidableEq, Repr

def alignSize (size alignment : Word) : Word := (size + alignment - 1) &&& ~~~(alignment - 1)

/-- `ok` tells whether the allocations of the system succeed. -/
def createBlock (heap : Heap) (ok : Bool) (minSize : Word) : Option (Nat × ArenaBlock × Heap) :=
  let blockSize := if arenaBlockSize < minSize then minSize else arenaBlockSize
  if ok = true ∧ heap.bytes + blockSize.toNat < 2 ^ 64 then
    some (heap.fresh, ⟨blockSize, 0, none⟩,
      { block := Function.update heap.block heap.fresh (some ⟨blockSize, 0, none⟩)
        fresh := heap.fresh + 1
        bytes := heap.bytes + blockSize.toNat })
  else none

/-- The generation counter starts with what was in its memory. -/
def arenaCreate (ok : Bool) (generation : BitVec 32) : Option Arena :=
  match createBlock {} ok arenaBlockSize with
  | none => none
  | some (id, _, heap) => some
      { heap := heap
        currentBlock := id
        firstBlock := id
        totalAllocated := arenaBlockSize
        totalUsed := 0
        blockCount := 1
        generation := generation }

variable (arena : Arena)

/-- The end of both allocators: a fresh block after the current one. -/
def arenaNewBlock (ok : Bool) (block : ArenaBlock) (size : Word) : Option ArenaPtr × Arena :=
  match createBlock arena.heap ok size with
  | none => (none, arena)
  | some (id, newBlock, heap) => (some ⟨id, 0⟩,
      { arena with
        heap := (heap.set arena.currentBlock { block with next := some id }).set id
          { newBlock with used := size }
        currentBlock := id
        totalAllocated := arena.totalAllocated + newBlock.size
        totalUsed := arena.totalUsed + size
        blockCount := arena.blockCount + 1 })

/-- Whether `size` bytes fit after the first `used` ones. -/
def ArenaBlock.Fits (block : ArenaBlock) (used size : Word) : Prop :=
  used ≤ block.size ∧ size ≤ block.size - used

instance (block : ArenaBlock) (used size : Word) : Decidable (block.Fits used size) :=
  inferInstanceAs (Decidable (used ≤ block.size ∧ size ≤ block.size - used))

def arenaAlloc (ok : Bool) (size : Word) : Option (Option ArenaPtr × Arena) :=
  if size = 0 then some (none, arena)
  else
    let size := alignSize size arenaAlignment
    match arena.heap.block arena.currentBlock with
    | none => none
    | some block =>
      if block.Fits block.used size then
        some (some ⟨arena.currentBlock, block.used⟩,
          { arena with
            heap := arena.heap.set arena.currentBlock { block with used := block.used + size }
            totalUsed := arena.totalUsed + size })
      else some (arenaNewBlock arena ok block size)

/-- The assertion of `arena_alloc_aligned`. -/
def IsAlignment (alignment : Word) : Prop := 0 < alignment ∧ alignment &&& (alignment - 1) = 0

instance (alignment : Word) : Decidable (IsAlignment alignment) :=
  inferInstanceAs (Decidable (0 < alignment ∧ alignment &&& (alignment - 1) = 0))

def arenaAllocAligned (ok : Bool) (size alignment : Word) : Option (Option ArenaPtr × Arena) :=
  if IsAlignment alignment then
    match arena.heap.block arena.currentBlock with
    | none => none
    | some block =>
      let alignedUsed := alignSize block.used alignment
      let pad := alignedUsed - block.used
      if block.Fits alignedUsed size then
        some (some ⟨arena.currentBlock, alignedUsed⟩,
          { arena with
            heap := arena.heap.set arena.currentBlock { block with used := alignedUsed + size }
            totalUsed := arena.totalUsed + (pad + size) })
      else some (arenaNewBlock arena ok block (alignSize size alignment))
  else none

def arenaCalloc (ok : Bool) (count size : Word) : Option (Option ArenaPtr × Arena) :=
  arenaAlloc arena ok (count * size)

/-- The loop of `arena_reset`. -/
def clearUsed : Nat → Option Nat → Heap → Option Heap
  | _, none, heap => some heap
  | 0, some _, _ => none
  | fuel + 1, some id, heap =>
    match heap.block id with
    | none => none
    | some block => clearUsed fuel block.next (heap.set id { block with used := 0 })

def arenaReset : Option Arena :=
  match clearUsed arena.heap.fresh (some arena.firstBlock) arena.heap with
  | none => none
  | some heap => some
      { arena with
        heap := heap
        currentBlock := arena.firstBlock
        totalUsed := 0
        generation := arena.generation + 1 }

def arenaScopeBegin : Option ArenaScope :=
  match arena.heap.block arena.currentBlock with
  | none => none
  | some block => some ⟨arena.currentBlock, block.used⟩

/-- One round of the loop of `arena_scope_end`: the size of the block is
subtracted from one counter, its used bytes from none. -/
def Arena.release (id : Nat) (block : ArenaBlock) : Arena :=
  { arena with
    heap := arena.heap.free id block
    totalAllocated := arena.totalAllocated - block.size
    blockCount := arena.blockCount - 1 }

/-- The loop of `arena_scope_end`. -/
def freeBlocks : Nat → Option Nat → Arena → Option Arena
  | _, none, arena => some arena
  | 0, some _, _ => none
  | fuel + 1, some id, arena =>
    match arena.heap.block id with
    | none => none
    | some block => freeBlocks fuel block.next (arena.release id block)

/-- It fails its assertion when the block was rewound below the saved mark. -/
def arenaScopeEnd (scope : ArenaScope) : Option Arena :=
  match arena.heap.block scope.savedBlock with
  | none => none
  | some block =>
    match freeBlocks arena.heap.fresh block.next arena with
    | none => none
    | some arena =>
      if block.used < scope.savedUsed then none
      else some
        { arena with
          heap := arena.heap.set scope.savedBlock
            { block with next := none, used := scope.savedUsed }
          totalUsed := arena.totalUsed - (block.used - scope.savedUsed)
          currentBlock := scope.savedBlock }

/-- An allocation its caller may still use, with the number of scopes it was made in. -/
structure Allocation where
  block : Nat
  offset : Nat
  length : Nat
  depth : Nat
  deriving DecidableEq, Repr

/-- The arena, the scopes that are open (the innermost first), and the allocations
that no scope end or reset has ended. -/
structure Session where
  arena : Arena
  scopes : List ArenaScope
  live : List Allocation

inductive ArenaOp where
  | alloc (size : Word) (ok : Bool)
  | allocAligned (size alignment : Word) (ok : Bool)
  | calloc (count size : Word) (ok : Bool)
  | reset
  | scopeBegin
  | scopeEnd
  deriving DecidableEq, Repr

/-- Records the pointer an allocator returned for `length` bytes. -/
def Session.record (s : Session) (length : Nat) (result : Option ArenaPtr × Arena) : Session :=
  { s with
    arena := result.2
    live := match result.1 with
      | none => s.live
      | some ptr => ⟨ptr.block, ptr.offset.toNat, length, s.scopes.length⟩ :: s.live }

/-- One call. A call that fails an assertion or reaches freed memory has no next state. -/
def sessionStep (op : ArenaOp) (s : Session) : Option Session :=
  match op with
  | .alloc size ok => (arenaAlloc s.arena ok size).map (s.record size.toNat)
  | .allocAligned size alignment ok =>
    (arenaAllocAligned s.arena ok size alignment).map (s.record size.toNat)
  | .calloc count size ok =>
    (arenaCalloc s.arena ok count size).map (s.record (count.toNat * size.toNat))
  | .reset => (arenaReset s.arena).map fun arena => { s with arena := arena, live := [] }
  | .scopeBegin => (arenaScopeBegin s.arena).map fun scope => { s with scopes := scope :: s.scopes }
  | .scopeEnd =>
    match s.scopes with
    | [] => none
    | scope :: scopes => (arenaScopeEnd s.arena scope).map fun arena =>
      { arena := arena
        scopes := scopes
        live := s.live.filter fun a => a.depth ≤ scopes.length }

end Casprix.Support
