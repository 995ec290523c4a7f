import Mathlib.Algebra.Group.Int.Defs
import Mathlib.Algebra.Group.Nat.Defs
import Mathlib.Data.List.Basic

/-! The cache of key and value vectors, in its contiguous and in its paged layout.
A failed assertion has no result. Memory is read and written by element; what it
holds before the first write is arbitrary. The numbers of the paged layout are of
type `int` and those of the contiguous one of type `size_t`; both wrap around. -/
namespace Casprix.Ml

variable {F : Type*}

inductive KvLayout
  | contiguous
  | paged
  deriving DecidableEq, Repr

/-- The value of an `int`. Sums and products may wrap once at their end. -/
def intVal (n : Int) : Int := n.bmod (2 ^ 32)

/-- An `int` as an index; nothing lies in front of an array. -/
def intIndex (n : Int) : Option Nat := (intVal n).toNat?

structure KvCacheConfig where
  numLayers : Nat
  numKvHeads : Nat
  headDim : Nat
  maxSeqLen : Nat
  maxBatch : Nat
  layout : KvLayout
  pageSize : Int
  deriving DecidableEq, Repr

structure KvPage (F : Type*) where
  kPage : Nat → F
  vPage : Nat → F

/-- A slot with its two blocks or its page table, as the layout has it. The table
is a flat array of pages of the pool. -/
structure KvSeq (F : Type*) where
  seqId : Int
  seqLen : Nat
  isPaged : Bool
  kBase : Nat → F
  vBase : Nat → F
  pages : Option (Nat → Option Nat)
  numPages : Int

/-- The head of the list is the top of the stack of free pages. -/
structure KvCache (F : Type*) where
  config : KvCacheConfig
  seqs : Nat → KvSeq F
  pagePool : Nat → KvPage F
  pagePoolCap : Int
  freePages : List Nat

/-- `n` elements of the source from its start, copied to an offset. -/
def memcpy (dst : Nat → F) (offset : Nat) (src : Nat → F) (n : Nat) : Nat → F :=
  fun i => if offset ≤ i ∧ i < offset + n then src (i - offset) else dst i

variable (cfg : KvCacheConfig)

namespace KvCacheConfig

def kvPageSize : Nat := if 0 < cfg.pageSize then cfg.pageSize.toNat else 16

/-- The pages that this many positions of one layer and head need. -/
def kvPages (len : Nat) : Int :=
  (intVal (len + cfg.kvPageSize - 1)).tdiv cfg.kvPageSize

def kvMaxPages : Int := cfg.kvPages cfg.maxSeqLen

def lhCount : Nat := cfg.numLayers * cfg.numKvHeads

def lhIndex (layer head : Nat) : Nat := layer * cfg.numKvHeads + head

def kvOffset (layer head pos : Nat) : Nat :=
  (cfg.lhIndex layer head * cfg.maxSeqLen * cfg.headDim + pos * cfg.headDim) % 2 ^ 64

def totalPages : Nat :=
  ((cfg.maxBatch * cfg.numLayers * cfg.numKvHeads * cfg.kvMaxPages + 128) % 2 ^ 64).toNat

end KvCacheConfig

/-- The slots start free. The blocks and the pages hold whatever was in memory. The
number of pages is a `size_t` that the top of the stack takes as an `int`. -/
def cpxKvcacheCreate (blocks pool : Nat → KvPage F) : KvCache F where
  config := cfg
  seqs := fun i =>
    { seqId := -1
      seqLen := 0
      isPaged := false
      kBase := (blocks i).kPage
      vBase := (blocks i).vPage
      pages := none
      numPages := 0 }
  pagePool := pool
  pagePoolCap := match cfg.layout with
    | .contiguous => 0
    | .paged => intVal cfg.totalPages
  freePages := match cfg.layout with
    | .contiguous => []
    | .paged => ((List.range cfg.totalPages).take (intVal cfg.totalPages).toNat).reverse

variable (c : KvCache F)

namespace KvCache

def setSeq (i : Nat) (seq : KvSeq F) : KvCache F :=
  { c with seqs := fun j => if j = i then seq else c.seqs j }

def setPage (p : Nat) (page : KvPage F) : KvCache F :=
  { c with pagePool := fun q => if q = p then page else c.pagePool q }

/-- The page of a table, from the table's own sequence. -/
def setEntry (i idx : Nat) (table : Nat → Option Nat) (entry : Option Nat) : KvCache F :=
  c.setSeq i { c.seqs i with pages := some fun j => if j = idx then entry else table j }

end KvCache

def kvAllocPage : Option (Nat × KvCache F) :=
  match c.freePages with
  | [] => none
  | p :: rest => some (p, { c with freePages := rest })

def kvFreePage (p : Nat) : KvCache F :=
  if c.pagePoolCap ≤ c.freePages.length then c else { c with freePages := p :: c.freePages }

/-- The first free slot, or `-1`. A table of negative size is not allocated. -/
def cpxKvcacheAllocSeq (initialLen : Nat) : Int × KvCache F :=
  match (List.range c.config.maxBatch).find? fun i => decide ((c.seqs i).seqId < 0) with
  | none => (-1, c)
  | some i =>
    match c.config.layout with
    | .contiguous =>
      (i, c.setSeq i { c.seqs i with seqId := i, seqLen := initialLen, isPaged := false })
    | .paged =>
      (i, c.setSeq i { c.seqs i with
        seqId := i
        seqLen := initialLen
        isPaged := true
        pages := (intIndex (c.config.lhCount * c.config.kvMaxPages)).map fun _ _ => none
        numPages := c.config.kvMaxPages })

/-- The entries of all layers and heads from one page on, in the order of the loops. -/
def tableEntries (lhCount : Nat) (maxPages first : Int) : Option (List Nat) :=
  ((List.range (intVal lhCount).toNat).flatMap fun lh : Nat =>
    (List.range (maxPages - first).toNat).map fun p : Nat =>
      (lh * maxPages + (first + p) : Int)).mapM intIndex

def freeEntry (table : Nat → Option Nat) (c : KvCache F) (idx : Nat) : KvCache F :=
  match table idx with
  | none => c
  | some p => kvFreePage c p

def cpxKvcacheFreeSeq (seqId : Nat) : Option (KvCache F) :=
  if seqId < c.config.maxBatch then
    let freed : Option (KvCache F) := match (c.seqs seqId).isPaged, (c.seqs seqId).pages with
      | true, some table =>
        (tableEntries c.config.lhCount c.config.kvMaxPages 0).map fun entries =>
          let emptied := entries.foldl (freeEntry table) c
          emptied.setSeq seqId { emptied.seqs seqId with pages := none, numPages := 0 }
      | _, _ => some c
    freed.map fun c => c.setSeq seqId { c.seqs seqId with seqId := -1, seqLen := 0 }
  else none

/-- The page of an entry, taken from the pool when there is none yet. -/
def findOrAllocPage (i idx : Nat) (table : Nat → Option Nat) : Option (Nat × KvCache F) :=
  match table idx with
  | some p => some (p, c)
  | none =>
    match kvAllocPage c with
    | none => none
    | some (p, c) => some (p, c.setEntry i idx table (some p))

def copyToPage (p slot : Nat) (k v : Nat → F) : Option (KvCache F) :=
  (intIndex (slot * c.config.headDim)).map fun offset => c.setPage p {
    kPage := memcpy (c.pagePool p).kPage offset k c.config.headDim
    vPage := memcpy (c.pagePool p).vPage offset v c.config.headDim }

/-- The entry of a layer and head for a position, where the assertion holds. -/
def entryIndex (i lh pos : Nat) : Option Nat :=
  if (pos / c.config.kvPageSize : Nat) < (c.seqs i).numPages then
    intIndex (lh * (c.seqs i).numPages + (pos / c.config.kvPageSize : Nat))
  else none

/-- One token of one layer and head, in the page of its position. -/
def storeToken (i lh pos : Nat) (k v : Nat → F) : Option (KvCache F) :=
  match (c.seqs i).isPaged, (c.seqs i).pages with
  | true, some table =>
    (entryIndex c i lh pos).bind fun idx =>
      (findOrAllocPage c i idx table).bind fun found =>
        copyToPage found.2 found.1 (pos % c.config.kvPageSize) k v
  | _, _ => none

/-- The length grows after the last layer and head. -/
def advance (i layer head tokens : Nat) : KvCache F :=
  if layer + 1 = c.config.numLayers ∧ head + 1 = c.config.numKvHeads then
    c.setSeq i { c.seqs i with seqLen := (c.seqs i).seqLen + tokens }
  else c

def copyToBlocks (i layer head tokens : Nat) (k v : Nat → F) : KvCache F :=
  let offset := c.config.kvOffset layer head (c.seqs i).seqLen
  c.setSeq i { c.seqs i with
    kBase := memcpy (c.seqs i).kBase offset k (tokens * c.config.headDim)
    vBase := memcpy (c.seqs i).vBase offset v (tokens * c.config.headDim) }

def cpxKvcacheWrite (i layer head : Nat) (k v : Nat → F) : Option (KvCache F) :=
  let written := match c.config.layout with
    | .contiguous => some (copyToBlocks c i layer head 1 k v)
    | .paged => storeToken c i (c.config.lhIndex layer head) (c.seqs i).seqLen k v
  written.map fun c => advance c i layer head 1

/-- The tokens of a chunk one by one. -/
def storeTokens (c : KvCache F) (i lh base : Nat) (k v : Nat → F) : Nat → Option (KvCache F)
  | 0 => some c
  | t + 1 => (storeTokens c i lh base k v t).bind fun c =>
    (intIndex (t * c.config.headDim)).bind fun offset =>
      storeToken c i lh (base + t) (fun d => k (offset + d)) fun d => v (offset + d)

def cpxKvcachePrefill (i layer head : Nat) (k v : Nat → F) (tokens : Nat) : Option (KvCache F) :=
  let written := match c.config.layout with
    | .contiguous => some (copyToBlocks c i layer head tokens k v)
    | .paged =>
      if (c.seqs i).isPaged && (c.seqs i).pages.isSome then
        storeTokens c i (c.config.lhIndex layer head) (c.seqs i).seqLen k v tokens
      else none
  written.map fun c => advance c i layer head tokens

/-- The page of a position that is read. -/
def findPage (i lh pos : Nat) : Option (KvPage F) :=
  match (c.seqs i).isPaged, (c.seqs i).pages with
  | true, some table => (entryIndex c i lh pos).bind fun idx => (table idx).map c.pagePool
  | _, _ => none

/-- The output buffers after the copies of the first positions. -/
def readTokens (c : KvCache F) (i lh start : Nat) (kOut vOut : Nat → F) :
    Nat → Option ((Nat → F) × (Nat → F))
  | 0 => some (kOut, vOut)
  | t + 1 => (readTokens c i lh start kOut vOut t).bind fun out =>
    (findPage c i lh (start + t)).bind fun page =>
      (intIndex (t * c.config.headDim)).bind fun outOff =>
        (intIndex (((start + t) % c.config.kvPageSize : Nat) * c.config.headDim)).map fun offset =>
          (memcpy out.1 outOff (fun d => page.kPage (offset + d)) c.config.headDim,
            memcpy out.2 outOff (fun d => page.vPage (offset + d)) c.config.headDim)

def cpxKvcacheReadRange (c : KvCache F) (i layer head start stop : Nat) (kOut vOut : Nat → F) :
    Option ((Nat → F) × (Nat → F)) :=
  match c.config.layout with
  | .contiguous =>
    let offset := c.config.kvOffset layer head start
    some (memcpy kOut 0 (fun d => (c.seqs i).kBase (offset + d))
      ((stop - start) * c.config.headDim),
      memcpy vOut 0 (fun d => (c.seqs i).vBase (offset + d)) ((stop - start) * c.config.headDim))
  | .paged =>
    if (c.seqs i).isPaged && (c.seqs i).pages.isSome then
      readTokens c i (c.config.lhIndex layer head) start kOut vOut (stop - start)
    else none

/-- The entries of the table are given back one by one and cleared. -/
def clearEntry (i : Nat) (c : KvCache F) (idx : Nat) : KvCache F :=
  match (c.seqs i).pages with
  | none => c
  | some table =>
    match table idx with
    | none => c
    | some p => (kvFreePage c p).setEntry i idx table none

def cpxKvcacheRollback (i newLen : Nat) : Option (KvCache F) :=
  if newLen ≤ (c.seqs i).seqLen then
    let cleared : Option (KvCache F) :=
      if c.config.layout = .paged ∧ (c.seqs i).isPaged = true ∧
        (c.seqs i).pages.isSome = true then
        (tableEntries c.config.lhCount (c.seqs i).numPages (c.config.kvPages newLen)).map
          fun entries => entries.foldl (clearEntry i) c
      else some c
    cleared.map fun c => c.setSeq i { c.seqs i with seqLen := newLen }
  else none

/-- A token or a chunk is given with the vectors of all layers and heads. -/
inductive KvOp (F : Type*)
  | allocSeq
  | writeToken (seq : Nat) (k v : Nat → Nat → Nat → F)
  | prefillChunk (seq tokens : Nat) (k v : Nat → Nat → Nat → F)
  | rollback (seq newLen : Nat)
  | freeSeq (seq : Nat)
  | readRange (seq layer head start stop : Nat) (kOut vOut : Nat → F)
  | seqLen (seq : Nat)

inductive KvReply (F : Type*)
  | seqId (id : Int)
  | length (n : Nat)
  | range (k v : List F)
  | done
  deriving DecidableEq, Repr

/-- All layers, and in each all heads. -/
def lhPairs (numLayers numKvHeads : Nat) : List (Nat × Nat) :=
  (List.range numLayers).flatMap fun layer => (List.range numKvHeads).map fun head => (layer, head)

def forPairs (call : KvCache F → Nat → Nat → Option (KvCache F)) (c : KvCache F)
    (pairs : List (Nat × Nat)) : Option (KvCache F) :=
  pairs.foldlM (fun c lh => call c lh.1 lh.2) c

def kvStep (op : KvOp F) (c : KvCache F) : Option (KvReply F × KvCache F) :=
  match op with
  | .allocSeq => some (.seqId (cpxKvcacheAllocSeq c 0).1, (cpxKvcacheAllocSeq c 0).2)
  | .writeToken seq k v =>
    (forPairs (fun c layer head => cpxKvcacheWrite c seq layer head (k layer head) (v layer head)) c
      (lhPairs c.config.numLayers c.config.numKvHeads)).map fun c => (.done, c)
  | .prefillChunk seq tokens k v =>
    (forPairs
      (fun c layer head =>
        cpxKvcachePrefill c seq layer head (k layer head) (v layer head) tokens) c
      (lhPairs c.config.numLayers c.config.numKvHeads)).map fun c => (.done, c)
  | .rollback seq newLen => (cpxKvcacheRollback c seq newLen).map fun c => (.done, c)
  | .freeSeq seq => (cpxKvcacheFreeSeq c seq).map fun c => (.done, c)
  | .readRange seq layer head start stop kOut vOut =>
    (cpxKvcacheReadRange c seq layer head start stop kOut vOut).map fun out =>
      (.range ((List.range ((stop - start) * c.config.headDim)).map out.1)
        ((List.range ((stop - start) * c.config.headDim)).map out.2), c)
  | .seqLen seq => some (.length (c.seqs seq).seqLen, c)

end Casprix.Ml
