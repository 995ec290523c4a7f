import Casprix.Support.ArenaBooks

/-! The heap of each thread, a slab that is filled from the front, and the pool in which the
threads leave their slabs. What a thread does at one visit to the pool, or with what `malloc`
gives it, is one step. -/
namespace Casprix.Memory

open Function Library List
open Mir (Word)

def tlocalSlabSize : Nat := 256 * 1024
def tlocalMaxAllocSize : Word := 4 * 1024
def tlocalAlignment : Word := 16
def tlocalMaxFreeSlabs : Int := 32

def alignUp (val align : Word) : Word := (val + align - 1) &&& ~~~(align - 1)

/-- Memory is named by what `malloc` returned for it. -/
structure TLocalSlab where
  memory : Nat
  capacity : Nat
  used : Nat

/-- What a call returned, and to which thread. -/
structure TlocalBlock where
  thread : Nat
  memory : Nat
  offset : Nat
  size : Nat

/-- Where a thread stands in `tlocal_alloc`: before it takes its first slab, before it gives a
full one back, before it takes another one, or before it asks `malloc`. -/
inductive TlocalPoint
  | idle
  | ensureSlab (size : Word)
  | release (size : Word)
  | acquire (size : Word)
  | fallback (size : Word)

/-- `malloced` has the sizes of what is not freed. The blocks are those obtained since the last
reset or cleanup of their thread. -/
structure TlocalState where
  malloced : Nat → Option Nat
  bytes : Nat → Nat → BitVec 8
  freeList : List TLocalSlab
  freeCount : Int
  currentSlab : Nat → Option TLocalSlab
  point : Nat → TlocalPoint
  blocks : List TlocalBlock

def tlocalStart : TlocalState where
  malloced := fun _ => none
  bytes := fun _ _ => 0
  freeList := []
  freeCount := 0
  currentSlab := fun _ => none
  point := fun _ => .idle
  blocks := []

variable (s : TlocalState)

namespace TlocalState

def goto (t : Nat) (point : TlocalPoint) : TlocalState :=
  { s with point := update s.point t point }

/-- The slab and, when the pool is empty, the memory that `malloc` gives for a new one. -/
def poolAcquireSlab (memory : Option Nat) : Option TLocalSlab × TlocalState :=
  match s.freeList with
  | slab :: rest =>
    (some { slab with used := 0 }, { s with freeList := rest, freeCount := s.freeCount - 1 })
  | [] =>
    match memory with
    | none => (none, s)
    | some m =>
      (some ⟨m, tlocalSlabSize, 0⟩,
        { s with malloced := update s.malloced m (some tlocalSlabSize) })

def poolReleaseSlab (slab : TLocalSlab) : TlocalState :=
  if s.freeCount < tlocalMaxFreeSlabs then
    { s with freeList := slab :: s.freeList, freeCount := s.freeCount + 1 }
  else { s with malloced := update s.malloced slab.memory none }

/-- The pointer is returned and the bytes behind it are zeroed. -/
def returned (block : TlocalBlock) (zeroed : Nat) : TlocalState :=
  { s with bytes := fun m i =>
             if m = block.memory ∧ block.offset ≤ i ∧ i < block.offset + zeroed then 0
             else s.bytes m i
           point := update s.point block.thread .idle
           blocks := block :: s.blocks }

def hold (t : Nat) (slab : Option TLocalSlab) : TlocalState :=
  { s with currentSlab := update s.currentSlab t slab }

def bump (t : Nat) (slab : TLocalSlab) (size : Word) : TlocalState :=
  let aligned := (alignUp size tlocalAlignment).toNat
  (s.hold t (some { slab with used := slab.used + aligned })).returned
    ⟨t, slab.memory, slab.used, size.toNat⟩ aligned

def allocFrom (t : Nat) (slab : TLocalSlab) (size : Word) : TlocalState :=
  if slab.capacity < slab.used + (alignUp size tlocalAlignment).toNat then s.goto t (.release size)
  else s.bump t slab size

def tlocalAlloc (t : Nat) (size : Word) : TlocalState :=
  if size = 0 then s
  else if tlocalMaxAllocSize < size then s.goto t (.fallback size)
  else
    match s.currentSlab t with
    | none => s.goto t (.ensureSlab size)
    | some slab => s.allocFrom t slab size

/-- The next step of an allocation. The slab taken in place of a full one is not checked. -/
def resume (t : Nat) (memory : Option Nat) : Option TlocalState :=
  match s.point t with
  | .idle => none
  | .ensureSlab size =>
    match s.poolAcquireSlab memory with
    | (none, s') => some (s'.goto t (.fallback size))
    | (some slab, s') => some ((s'.hold t (some slab)).allocFrom t slab size)
  | .release size => (s.currentSlab t).map fun slab =>
    (s.poolReleaseSlab slab).goto t (.acquire size)
  | .acquire size =>
    match s.poolAcquireSlab memory with
    | (none, s') => some ((s'.hold t none).goto t (.fallback size))
    | (some slab, s') => some (s'.bump t slab size)
  | .fallback size =>
    match memory with
    | none => some (s.goto t .idle)
    | some m =>
      some ({ s with malloced := update s.malloced m (some size.toNat) }.returned
        ⟨t, m, 0, size.toNat⟩ size.toNat)

/-- The thread has no further use for its blocks. -/
def forget (t : Nat) : TlocalState :=
  { s with blocks := s.blocks.filter fun block => block.thread ≠ t }

def tlocalReset (t : Nat) : TlocalState :=
  match s.currentSlab t with
  | none => s
  | some slab => s.hold t (some { slab with used := 0 })

def tlocalThreadCleanup (t : Nat) : TlocalState :=
  match s.currentSlab t with
  | none => s
  | some slab => (s.poolReleaseSlab slab).hold t none

end TlocalState

/-- The program stores a byte wherever it likes. -/
inductive TlocalAct
  | tlocalAlloc (t : Nat) (size : Word)
  | resume (t : Nat) (memory : Option Nat)
  | tlocalReset (t : Nat)
  | tlocalThreadCleanup (t : Nat)
  | store (memory offset : Nat) (byte : BitVec 8)

/-- A thread makes one call at a time, and `malloc` returns memory that is not in use. -/
def tlocalStep : TlocalAct → TlocalState → Option TlocalState
  | .tlocalAlloc t size, s =>
    match s.point t with
    | .idle => some (s.tlocalAlloc t size)
    | _ => none
  | .resume t memory, s =>
    if memory.all fun m => (s.malloced m).isNone then s.resume t memory else none
  | .tlocalReset t, s =>
    match s.point t with
    | .idle => some ((s.forget t).tlocalReset t)
    | _ => none
  | .tlocalThreadCleanup t, s =>
    match s.point t with
    | .idle => some ((s.forget t).tlocalThreadCleanup t)
    | _ => none
  | .store memory offset byte, s =>
    some { s with bytes := update s.bytes memory (update (s.bytes memory) offset byte) }

def TlocalAct.IsAlloc : TlocalAct → Prop
  | .tlocalAlloc _ _ | .resume _ _ => True
  | _ => False

def TlocalBlock.Apart (a b : TlocalBlock) : Prop :=
  a.memory ≠ b.memory ∨ a.offset + a.size ≤ b.offset ∨ b.offset + b.size ≤ a.offset

instance : DecidableRel TlocalBlock.Apart := fun _ _ => inferInstanceAs (Decidable (_ ∨ _ ∨ _))

namespace TlocalState

/-- The block lies in memory that is not freed. -/
def Backs (block : TlocalBlock) : Prop :=
  ∃ size, s.malloced block.memory = some size ∧ block.offset + block.size ≤ size

def Undisturbed (s s' : TlocalState) : Prop :=
  ∀ block ∈ s.blocks, s'.Backs block ∧ ∀ i, block.offset ≤ i →
    i < block.offset + block.size →
    s'.bytes block.memory i = s.bytes block.memory i

end TlocalState

/-- An allocation that may use the slab of its thread finds room there. -/
def TlocalFits : TlocalAct → TlocalState → Prop
  | .tlocalAlloc t size, s => size ≤ tlocalMaxAllocSize → ∀ slab ∈ s.currentSlab t,
      slab.used + (alignUp size tlocalAlignment).toNat ≤ slab.capacity
  | _, _ => True

/-- The blocks in use do not overlap, and no next allocation that finds room touches them. -/
def BlocksSafe : Prop :=
  s.blocks.Pairwise TlocalBlock.Apart ∧ (∀ block ∈ s.blocks, s.Backs block) ∧
    ∀ act s', act.IsAlloc → TlocalFits act s → tlocalStep act s = some s' → s.Undisturbed s'

theorem le_alignUp {size : Word} (h : size ≤ tlocalMaxAllocSize) :
    size.toNat ≤ (alignUp size tlocalAlignment).toNat :=
  Support.le_alignSize (by decide) (Nat.le_trans (Nat.add_le_add_right h _) (by decide))

theorem alignUp_fits {size : Word} (h : size ≤ tlocalMaxAllocSize) :
    (alignUp size tlocalAlignment).toNat ≤ tlocalSlabSize := by
  have hLe : size.toNat ≤ 4096 := h
  have hMask : (alignUp size tlocalAlignment).toNat ≤ (size + 16 - 1 : Word).toNat := by
    rw [alignUp, BitVec.toNat_and]
    exact Nat.and_le_left
  have hSum : (size + 16 - 1 : Word).toNat ≤ tlocalSlabSize := by
    have hSame : (size + 16 - 1 : Word) = size + 15 := by
      rw [BitVec.sub_eq_add_neg, BitVec.add_assoc]
      rfl
    rw [hSame, BitVec.toNat_add]
    exact Nat.le_trans (Nat.mod_le _ _) (Nat.le_trans (Nat.add_le_add_right hLe _) (by decide))
  exact Nat.le_trans hMask hSum

/-- No thread gives back a full slab. -/
def TlocalPoint.Calm : TlocalPoint → Prop
  | .idle | .fallback _ => True
  | .ensureSlab size => size ≤ tlocalMaxAllocSize
  | .release _ | .acquire _ => False

namespace TlocalState

/-- The slab is in the pool or held by a thread. -/
def SlabAt : Option Nat → TLocalSlab → Prop
  | none, slab => slab ∈ s.freeList
  | some t, slab => s.currentSlab t = some slab

def Whole (slab : TLocalSlab) : Prop :=
  slab.capacity = tlocalSlabSize ∧ s.malloced slab.memory = some tlocalSlabSize

/-- A slab has one place, and the blocks in it are its thread's and below what is used. -/
structure Good (s : TlocalState) : Prop where
  calm : ∀ t, (s.point t).Calm
  backed : ∀ block ∈ s.blocks, s.Backs block
  apart : s.blocks.Pairwise TlocalBlock.Apart
  whole : ∀ o slab, s.SlabAt o slab → s.Whole slab
  held : ∀ block ∈ s.blocks, ∀ o slab, s.SlabAt o slab → slab.memory = block.memory →
    o = some block.thread ∧ block.offset + block.size ≤ slab.used
  onePlace : ∀ o o' slab slab', s.SlabAt o slab → s.SlabAt o' slab' →
    slab.memory = slab'.memory → o = o'
  nodup : (s.freeList.map TLocalSlab.memory).Nodup

variable {s s' : TlocalState} {t : Nat} {slab : TLocalSlab} {size : Word}

theorem slabAt_hold {o : Option Nat} {new : Option TLocalSlab} (h : (s.hold t new).SlabAt o slab) :
    o = some t ∧ new = some slab ∨ o ≠ some t ∧ s.SlabAt o slab := by
  cases o with
  | none => exact .inr ⟨by rintro ⟨⟩, h⟩
  | some u =>
    have h : update s.currentSlab t new u = some slab := h
    by_cases hSame : u = t
    · subst hSame
      rw [update_self] at h
      exact .inl ⟨rfl, h⟩
    · rw [update_of_ne hSame] at h
      exact .inr ⟨fun hNo => hSame (Option.some.inj hNo), h⟩

theorem calm_update {point : TlocalPoint} (h : ∀ u, (s.point u).Calm)
    (hCalm : point.Calm) (t : Nat) :
    ∀ u, (update s.point t point u).Calm :=
  (forall_update_iff s.point fun _ p => p.Calm).mpr ⟨hCalm, fun u _ => h u⟩

section

variable (h : s.Good)
include h

theorem Good.goto {point : TlocalPoint} (hCalm : point.Calm) : (s.goto t point).Good :=
  { h with calm := calm_update h.calm hCalm t }

theorem Good.fewer (hPlaces : ∀ o slab, s'.SlabAt o slab → s.SlabAt o slab)
    (hMalloced : s'.malloced = s.malloced) (hPoint : s'.point = s.point)
    (hBlocks : s'.blocks.Sublist s.blocks) (hFreeList : s'.freeList.Sublist s.freeList) :
    s'.Good where
  calm := hPoint ▸ h.calm
  backed block hBlock := by
    rw [Backs, hMalloced]
    exact h.backed block (hBlocks.subset hBlock)
  apart := h.apart.sublist hBlocks
  whole o slab hSlab := by
    rw [Whole, hMalloced]
    exact h.whole o slab (hPlaces o slab hSlab)
  held block hBlock o slab hSlab :=
    h.held block (hBlocks.subset hBlock) o slab (hPlaces o slab hSlab)
  onePlace o o' slab slab' hSlab hSlab' :=
    h.onePlace o o' slab slab' (hPlaces o slab hSlab) (hPlaces o' slab' hSlab')
  nodup := h.nodup.sublist (hFreeList.map _)

theorem Good.forget (t : Nat) : (s.forget t).Good :=
  h.fewer (fun _ _ hSlab => hSlab) rfl rfl filter_sublist (List.Sublist.refl _)

theorem Good.notIn (hSlab : s.currentSlab t = some slab) :
    ∀ block ∈ (s.forget t).blocks, slab.memory ≠ block.memory := by
  intro block hBlock hMemory
  obtain ⟨hIn, hThread⟩ := mem_filter.mp hBlock
  have hOwner := (h.held block hIn (some t) slab hSlab hMemory).1
  exact of_decide_eq_true hThread (Option.some.inj hOwner).symm

theorem Good.onlyAt (hSlab : s.currentSlab t = some slab) (o : Option Nat)
    (other : TLocalSlab) (hNot : o ≠ some t) (hOther : s.SlabAt o other) :
    other.memory ≠ slab.memory :=
  fun hMemory => hNot (h.onePlace o (some t) other slab hOther hSlab hMemory)

theorem Good.hold (hWhole : s.Whole slab)
    (hBlocks : ∀ block ∈ s.blocks, slab.memory = block.memory →
      t = block.thread ∧ block.offset + block.size ≤ slab.used)
    (hPlaces : ∀ o other, o ≠ some t → s.SlabAt o other → other.memory ≠ slab.memory) :
    (s.hold t (some slab)).Good :=
  { h with
    whole := by
      intro o other hOther
      rcases slabAt_hold hOther with ⟨-, hSame⟩ | ⟨-, hOther⟩
      · cases hSame
        exact hWhole
      · exact h.whole o other hOther
    held := by
      intro block hBlock o other hOther hMemory
      rcases slabAt_hold hOther with ⟨hAt, hSame⟩ | ⟨-, hOther⟩
      · cases hSame
        obtain ⟨hThread, hBelow⟩ := hBlocks block hBlock hMemory
        exact ⟨hThread ▸ hAt, hBelow⟩
      · exact h.held block hBlock o other hOther hMemory
    onePlace := by
      intro o o' other other' hOther hOther' hMemory
      rcases slabAt_hold hOther with ⟨hAt, hSame⟩ | ⟨hAt, hOther⟩ <;>
        rcases slabAt_hold hOther' with ⟨hAt', hSame'⟩ | ⟨hAt', hOther'⟩
      · exact hAt.trans hAt'.symm
      · cases hSame
        exact absurd hMemory.symm (hPlaces o' other' hAt' hOther')
      · cases hSame'
        exact absurd hMemory (hPlaces o other hAt hOther)
      · exact h.onePlace o o' other other' hOther hOther' hMemory }

theorem Good.unused {m : Nat} (hFree : s.malloced m = none) :
    (∀ block ∈ s.blocks, block.memory ≠ m) ∧
      ∀ o slab, s.SlabAt o slab → slab.memory ≠ m := by
  refine ⟨fun block hBlock hMemory => ?_, fun o slab hSlab hMemory => ?_⟩
  · obtain ⟨n, hSize, -⟩ := h.backed block hBlock
    rw [hMemory, hFree] at hSize
    cases hSize
  · have hSize := (h.whole o slab hSlab).2
    rw [hMemory, hFree] at hSize
    cases hSize

theorem Good.setMalloced {m : Nat} (hBlocks : ∀ block ∈ s.blocks, block.memory ≠ m)
    (hPlaces : ∀ o slab, s.SlabAt o slab → slab.memory ≠ m) (size : Option Nat) :
    ({ s with malloced := update s.malloced m size } : TlocalState).Good :=
  { h with
    backed := by
      intro block hBlock
      obtain ⟨n, hSize, hIn⟩ := h.backed block hBlock
      exact ⟨n, (update_of_ne (hBlocks block hBlock) _ _).trans hSize, hIn⟩
    whole := by
      intro o slab hSlab
      obtain ⟨hCapacity, hSize⟩ := h.whole o slab hSlab
      exact ⟨hCapacity, (update_of_ne (hPlaces o slab hSlab) _ _).trans hSize⟩ }

theorem Good.acquired {memory : Option Nat}
    (hFree : ∀ m ∈ memory, s.malloced m = none) {new : TLocalSlab}
    (hTake : s.poolAcquireSlab memory = (some new, s')) : (s'.hold t (some new)).Good ∧
      new.used = 0 ∧ new.capacity = tlocalSlabSize ∧ s'.blocks = s.blocks ∧
        s'.bytes = s.bytes := by
  unfold poolAcquireSlab at hTake
  split at hTake
  next slab rest hList =>
    cases hTake
    have hSlab : s.SlabAt none slab := by
      rw [SlabAt, hList]
      exact mem_cons_self
    have hPlaces (o : Option Nat) (other : TLocalSlab)
        (hOther : ({ s with freeList := rest, freeCount := s.freeCount - 1 } : TlocalState).SlabAt
          o other) : s.SlabAt o other := by
      cases o with
      | some u => exact hOther
      | none =>
        rw [SlabAt, hList]
        exact mem_cons_of_mem _ hOther
    have hNodup := h.nodup
    rw [hList, map_cons, nodup_cons] at hNodup
    have hRest : ({ s with freeList := rest, freeCount := s.freeCount - 1 } : TlocalState).Good :=
      h.fewer hPlaces rfl rfl (List.Sublist.refl _) (hList ▸ sublist_cons_self slab rest)
    refine ⟨hRest.hold (h.whole none slab hSlab) ?_ ?_, rfl,
      (h.whole none slab hSlab).1, rfl, rfl⟩
    · intro block hBlock hMemory
      cases (h.held block hBlock none slab hSlab hMemory).1
    · intro o other _ hOther hMemory
      cases h.onePlace o none other slab (hPlaces o other hOther) hSlab hMemory
      exact hNodup.1 (hMemory ▸ mem_map_of_mem hOther)
  next =>
    split at hTake
    · cases hTake
    next m =>
      cases hTake
      obtain ⟨hBlocks, hPlaces⟩ := h.unused (hFree m rfl)
      exact ⟨(h.setMalloced hBlocks hPlaces _).hold ⟨rfl, update_self _ _ _⟩
        (fun block hBlock hMemory => absurd hMemory.symm (hBlocks block hBlock))
        (fun o other _ hOther => hPlaces o other hOther), rfl, rfl, rfl, rfl⟩

theorem Good.poolReleaseSlab (hWhole : s.Whole slab)
    (hBlocks : ∀ block ∈ s.blocks, block.memory ≠ slab.memory)
    (hPlaces : ∀ o other, s.SlabAt o other → other.memory ≠ slab.memory) :
    (s.poolReleaseSlab slab).Good := by
  unfold TlocalState.poolReleaseSlab
  split
  · have hPlace {o : Option Nat} {other : TLocalSlab}
        (hOther : ({ s with freeList := slab :: s.freeList, freeCount := s.freeCount + 1 } :
          TlocalState).SlabAt o other) : o = none ∧ other = slab ∨ s.SlabAt o other := by
      cases o with
      | some u => exact .inr hOther
      | none => exact (mem_cons.mp hOther).imp_left (⟨rfl, ·⟩)
    exact { h with
      whole := by
        intro o other hOther
        rcases hPlace hOther with ⟨-, rfl⟩ | hOther
        · exact hWhole
        · exact h.whole o other hOther
      held := by
        intro block hBlock o other hOther hMemory
        rcases hPlace hOther with ⟨-, rfl⟩ | hOther
        · exact absurd hMemory.symm (hBlocks block hBlock)
        · exact h.held block hBlock o other hOther hMemory
      onePlace := by
        intro o o' other other' hOther hOther' hMemory
        rcases hPlace hOther with ⟨hAt, hSame⟩ | hIn <;>
          rcases hPlace hOther' with ⟨hAt', hSame'⟩ | hIn'
        · exact hAt.trans hAt'.symm
        · exact absurd (hSame ▸ hMemory.symm) (hPlaces o' other' hIn')
        · exact absurd (hSame' ▸ hMemory) (hPlaces o other hIn)
        · exact h.onePlace o o' other other' hIn hIn' hMemory
      nodup := by
        refine nodup_cons.mpr ⟨fun hMem => ?_, h.nodup⟩
        obtain ⟨other, hOther, hMemory⟩ := mem_map.mp hMem
        exact hPlaces none other hOther hMemory }
  · exact h.setMalloced hBlocks hPlaces none

/-- A block in memory of which no other block has a byte at or after its offset. -/
theorem Good.returned {block : TlocalBlock} (zeroed : Nat) (hBacked : s.Backs block)
    (hApart : ∀ b ∈ s.blocks, b.memory = block.memory → b.offset + b.size ≤ block.offset)
    (hHeld : ∀ o slab, s.SlabAt o slab → slab.memory = block.memory →
      o = some block.thread ∧ block.offset + block.size ≤ slab.used) :
    (s.returned block zeroed).Good ∧ s.Undisturbed (s.returned block zeroed) := by
  refine ⟨{ h with
    calm := calm_update h.calm (show TlocalPoint.idle.Calm from trivial) _
    backed := forall_mem_cons.mpr ⟨hBacked, h.backed⟩
    apart := pairwise_cons.mpr ⟨fun b hb => ?_, h.apart⟩
    held := forall_mem_cons.mpr ⟨hHeld, h.held⟩ }, fun b hb => ⟨h.backed b hb, ?_⟩⟩
  · by_cases hSame : b.memory = block.memory
    · exact .inr (.inr (hApart b hb hSame))
    · exact .inl fun hNo => hSame hNo.symm
  · intro i _ hi
    refine if_neg fun hIn => ?_
    have := hApart b hb hIn.1
    omega

section

variable (hSlab : s.currentSlab t = some slab) (hSize : size ≤ tlocalMaxAllocSize)
  (hRoom : slab.used + (alignUp size tlocalAlignment).toNat ≤ slab.capacity)
include hSlab hSize hRoom

theorem Good.bump :
    (s.bump t slab size).Good ∧ s.Undisturbed (s.bump t slab size) := by
  have hLe := le_alignUp hSize
  have hWhole := h.whole (some t) slab hSlab
  have hAway := h.onlyAt hSlab
  have hHeld (block : TlocalBlock) (hBlock : block ∈ s.blocks)
      (hMemory : slab.memory = block.memory) :=
    h.held block hBlock (some t) slab hSlab hMemory
  have hNext : (s.hold t (some { slab with used :=
      slab.used + (alignUp size tlocalAlignment).toNat })).Good :=
    h.hold hWhole (fun block hBlock hMemory => ⟨Option.some.inj (hHeld block hBlock hMemory).1,
      Nat.le_trans (hHeld block hBlock hMemory).2 (Nat.le_add_right _ _)⟩) hAway
  refine hNext.returned _ ⟨tlocalSlabSize, hWhole.2, ?_⟩ ?_ ?_
  · have := hWhole.1
    show slab.used + size.toNat ≤ _
    omega
  · exact fun b hb hMemory => (hHeld b hb hMemory.symm).2
  · intro o other hOther hMemory
    rcases slabAt_hold hOther with ⟨hAt, hSame⟩ | ⟨hNot, hOther⟩
    · cases hSame
      exact ⟨hAt, Nat.add_le_add_left hLe _⟩
    · exact absurd hMemory (hAway o other hNot hOther)

theorem Good.allocFrom :
    (s.allocFrom t slab size).Good ∧ s.Undisturbed (s.allocFrom t slab size) := by
  rw [TlocalState.allocFrom, if_neg (Nat.not_lt.mpr hRoom)]
  exact h.bump hSlab hSize hRoom

end

theorem Good.undisturbed (hBytes : s'.bytes = s.bytes)
    (hMalloced : s'.malloced = s.malloced) : s.Undisturbed s' := by
  intro block hBlock
  obtain ⟨n, hSize, hIn⟩ := h.backed block hBlock
  exact ⟨⟨n, hMalloced ▸ hSize, hIn⟩, fun i _ _ => by rw [hBytes]⟩

theorem Good.tlocalAlloc (hFits : TlocalFits (.tlocalAlloc t size) s) :
    (s.tlocalAlloc t size).Good ∧ s.Undisturbed (s.tlocalAlloc t size) := by
  unfold TlocalState.tlocalAlloc
  split
  · exact ⟨h, h.undisturbed rfl rfl⟩
  · split
    · exact ⟨h.goto trivial, h.undisturbed rfl rfl⟩
    next hSmall =>
      have hSize : size ≤ tlocalMaxAllocSize := BitVec.not_lt.mp hSmall
      split
      · exact ⟨h.goto hSize, h.undisturbed rfl rfl⟩
      next slab hSlab => exact h.allocFrom hSlab hSize (hFits hSize slab hSlab)

theorem Good.resume {memory : Option Nat} (hFree : ∀ m ∈ memory, s.malloced m = none)
    (hStep : s.resume t memory = some s') : s'.Good ∧ s.Undisturbed s' := by
  have hCalm := h.calm t
  unfold TlocalState.resume at hStep
  split at hStep
  next => cases hStep
  next size hPoint =>
    rw [hPoint] at hCalm
    split at hStep
    next s₁ hTake =>
      have hSame : s₁ = s := by
        unfold poolAcquireSlab at hTake
        split at hTake
        · cases hTake
        · split at hTake
          · cases hTake
            rfl
          · cases hTake
      cases hStep
      subst hSame
      exact ⟨h.goto trivial, h.undisturbed rfl rfl⟩
    next slab s₁ hTake =>
      cases hStep
      obtain ⟨hHeld, hUsed, hCapacity, hBlocks, hBytes⟩ := h.acquired (t := t) hFree hTake
      have hRoom : slab.used + (alignUp size tlocalAlignment).toNat ≤ slab.capacity := by
        rw [hUsed, hCapacity, zero_add]
        exact alignUp_fits hCalm
      obtain ⟨hGood, hKept⟩ := hHeld.allocFrom (update_self _ _ _) hCalm hRoom
      refine ⟨hGood, fun block hBlock => ?_⟩
      have hHere := hKept block (hBlocks ▸ hBlock)
      exact ⟨hHere.1, fun i hLow hHigh =>
        (hHere.2 i hLow hHigh).trans (by rw [← hBytes]; rfl)⟩
  next size hPoint =>
    rw [hPoint] at hCalm
    exact hCalm.elim
  next size hPoint =>
    rw [hPoint] at hCalm
    exact hCalm.elim
  next size hPoint =>
    split at hStep
    next =>
      cases hStep
      exact ⟨h.goto trivial, h.undisturbed rfl rfl⟩
    next m =>
      cases hStep
      obtain ⟨hBlocks, hPlaces⟩ := h.unused (hFree m rfl)
      exact (h.setMalloced hBlocks hPlaces _).returned _
        ⟨size.toNat, update_self _ _ _, Nat.le_of_eq (Nat.zero_add _)⟩
        (fun b hb hMemory => absurd hMemory (hBlocks b hb))
        (fun o slab hSlab hMemory => absurd hMemory (hPlaces o slab hSlab))

theorem Good.tlocalReset (t : Nat) : ((s.forget t).tlocalReset t).Good := by
  unfold TlocalState.tlocalReset
  split
  · exact h.forget t
  next slab hSlab =>
    exact (h.forget t).hold (h.whole (some t) slab hSlab)
      (fun block hBlock hMemory => absurd hMemory (h.notIn hSlab block hBlock))
      (fun o other hNot hOther => h.onlyAt hSlab o other hNot hOther)

theorem Good.tlocalThreadCleanup (t : Nat) :
    ((s.forget t).tlocalThreadCleanup t).Good := by
  unfold TlocalState.tlocalThreadCleanup
  split
  · exact h.forget t
  next slab hSlab =>
    have hLeft {o : Option Nat} {other : TLocalSlab}
        (hOther : ((s.forget t).hold t none).SlabAt o other) :
          o ≠ some t ∧ s.SlabAt o other := by
      rcases slabAt_hold hOther with ⟨-, hSame⟩ | hOther
      · cases hSame
      · exact hOther
    have hDropped : ((s.forget t).hold t none).Good :=
      (h.forget t).fewer (fun _ _ hOther => (hLeft hOther).2) rfl rfl (List.Sublist.refl _)
        (List.Sublist.refl _)
    have hReleased := hDropped.poolReleaseSlab (h.whole (some t) slab hSlab)
      (fun block hBlock => (h.notIn hSlab block hBlock).symm)
      (fun o other hOther => h.onlyAt hSlab o other (hLeft hOther).1 (hLeft hOther).2)
    have hSame : ((s.forget t).poolReleaseSlab slab).hold t none =
        ((s.forget t).hold t none).poolReleaseSlab slab := by
      unfold TlocalState.poolReleaseSlab
      split
      next hMore => exact (if_pos hMore).symm
      next hMore => exact (if_neg hMore).symm
    exact hSame ▸ hReleased

end

end TlocalState

theorem tlocalStep_good {act : TlocalAct} {s s' : TlocalState} (h : s.Good)
    (hFits : TlocalFits act s)
    (hStep : tlocalStep act s = some s') : s'.Good ∧ (act.IsAlloc → s.Undisturbed s') := by
  cases act with
  | tlocalAlloc t size =>
    rw [tlocalStep] at hStep
    split at hStep
    · cases hStep
      exact ⟨(h.tlocalAlloc hFits).1, fun _ => (h.tlocalAlloc hFits).2⟩
    · cases hStep
  | resume t memory =>
    rw [tlocalStep] at hStep
    split at hStep
    next hFree =>
      have hFree (m : Nat) (hm : m ∈ memory) : s.malloced m = none := by
        rw [Option.mem_def.mp hm] at hFree
        exact Option.isNone_iff_eq_none.mp hFree
      exact ⟨(h.resume hFree hStep).1, fun _ => (h.resume hFree hStep).2⟩
    next => cases hStep
  | tlocalReset t =>
    rw [tlocalStep] at hStep
    split at hStep
    · cases hStep
      exact ⟨h.tlocalReset t, False.elim⟩
    · cases hStep
  | tlocalThreadCleanup t =>
    rw [tlocalStep] at hStep
    split at hStep
    · cases hStep
      exact ⟨h.tlocalThreadCleanup t, False.elim⟩
    · cases hStep
  | store memory offset byte =>
    cases hStep
    exact ⟨{ h with }, False.elim⟩

theorem tlocal_blocksSafe {acts : List TlocalAct} {s : TlocalState}
    (hFits : CallsMeet tlocalStep TlocalFits acts tlocalStart)
    (hRun : runCalls tlocalStep acts tlocalStart = some s) : BlocksSafe s := by
  have hStart : tlocalStart.Good :=
    { calm := fun _ => trivial
      backed := nofun
      apart := List.Pairwise.nil
      whole := fun o slab hSlab => by cases o <;> cases hSlab
      held := nofun
      onePlace := fun o _ slab _ hSlab => by cases o <;> cases hSlab
      nodup := nodup_nil }
  have hGood := runCalls_invariant
    (fun _ _ _ hInv hOk hStep => (tlocalStep_good hInv hOk hStep).1) hStart hFits hRun
  exact ⟨hGood.apart, hGood.backed, fun _ _ hAlloc hOk hStep =>
    (tlocalStep_good hGood hOk hStep).2 hAlloc⟩

theorem tlocal_blocksSafe_two :
    ∃ s, runCalls tlocalStep
      [.tlocalAlloc 0 24, .resume 0 (some 7), .tlocalAlloc 0 40, .tlocalAlloc 1 5000,
        .resume 1 (some 8), .tlocalThreadCleanup 0, .tlocalAlloc 1 8, .resume 1 none]
      tlocalStart = some s ∧ BlocksSafe s := by
  refine ⟨_, rfl, @tlocal_blocksSafe [.tlocalAlloc 0 24, .resume 0 (some 7), .tlocalAlloc 0 40,
    .tlocalAlloc 1 5000, .resume 1 (some 8), .tlocalThreadCleanup 0, .tlocalAlloc 1 8,
    .resume 1 none] _ ?_ rfl⟩
  refine ⟨?_, trivial, ?_, ?_, trivial, trivial, ?_, trivial, trivial⟩
  · exact fun _ slab hSlab => by cases hSlab
  · exact fun _ slab hSlab => by cases hSlab; decide
  · exact fun _ slab hSlab => by cases hSlab
  · exact fun _ slab hSlab => by cases hSlab

def fillSlab : List TlocalAct :=
  [.tlocalAlloc 0 4096, .resume 0 (some 0)] ++ List.replicate 64 (.tlocalAlloc 0 4096) ++
    [.resume 0 none, .resume 0 none]

/-- The thread gives back its full slab and takes it again. -/
theorem fullSlab_reused :
    ∃ acts s, runCalls tlocalStep acts tlocalStart = some s ∧ ¬ BlocksSafe s := by
  have hOverlap : ∀ s ∈ runCalls tlocalStep fillSlab tlocalStart,
      ¬ s.blocks.Pairwise TlocalBlock.Apart := by decide
  have hRun : (runCalls tlocalStep fillSlab tlocalStart).isSome := by decide
  obtain ⟨s, hSome⟩ := Option.isSome_iff_exists.mp hRun
  exact ⟨fillSlab, s, hSome, fun hSafe => hOverlap s hSome hSafe.1⟩

end Casprix.Memory
