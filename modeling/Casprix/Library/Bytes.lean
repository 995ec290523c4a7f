import Mathlib

/-! Numbers as bytes with the most significant byte first, and memory as bytes, with words of eight
of them and the blocks that are live. -/
namespace Library

abbrev Byte := BitVec 8

/-- The last `count` base-256 digits of a number. -/
def bigEndian : Nat → Nat → List Byte
  | 0, _ => []
  | count + 1, n => bigEndian count (n / 256) ++ [BitVec.ofNat 8 n]

def fromBigEndian (bytes : List Byte) : Nat := bytes.foldl (fun n b => n * 256 + b.toNat) 0

theorem length_bigEndian (count n : Nat) : (bigEndian count n).length = count := by
  induction count generalizing n with
  | zero => rfl
  | succ count ih => rw [bigEndian, List.length_append, ih, List.length_singleton]

theorem fromBigEndian_bigEndian (count n : Nat) :
    fromBigEndian (bigEndian count n) = n % 256 ^ count := by
  induction count generalizing n with
  | zero => rw [pow_zero, Nat.mod_one, bigEndian, fromBigEndian, List.foldl_nil]
  | succ count ih =>
    have hHigh := ih (n / 256)
    rw [fromBigEndian] at hHigh
    have hSplit : n % 256 ^ (count + 1) = n % 256 + 256 * (n / 256 % 256 ^ count) := by
      rw [pow_succ', Nat.mod_mul]
    have hLow : (BitVec.ofNat 8 n).toNat = n % 256 := BitVec.toNat_ofNat n 8
    rw [bigEndian, fromBigEndian, List.foldl_append, List.foldl_cons, List.foldl_nil, hHigh, hLow,
      hSplit]
    omega

abbrev Address := BitVec 64

/-- The number of addresses. -/
def addressSpace : Nat := 0x10000000000000000

/-- The byte `k` of a word, lowest first. -/
def byteOfWord (v : BitVec 64) (k : Nat) : BitVec 8 := v.extractLsb' (8 * k) 8

/-- The word of eight bytes, lowest first. -/
def wordOfBytes (f : Nat → BitVec 8) : BitVec 64 :=
  f 7 ++ (f 6 ++ (f 5 ++ (f 4 ++ (f 3 ++ (f 2 ++ (f 1 ++ f 0))))))

def loadWord (bytes : Address → BitVec 8) (a : Address) : BitVec 64 :=
  wordOfBytes fun k => bytes (a + BitVec.ofNat 64 k)

/-- Copies the eight bytes of a word to an address. -/
def storeWord (bytes : Address → BitVec 8) (a : Address) (v : BitVec 64) :
    Address → BitVec 8 := fun x =>
  if (x - a).toNat < 8 then byteOfWord v (x - a).toNat else bytes x

/-- The bytes of memory, and the blocks that are allocated, each with its size. -/
structure ByteHeap where
  bytes : Address → BitVec 8
  blocks : List (Address × Nat)

/-- The eight bytes at `a` lie in the block. -/
def Inside (block : Address × Nat) (a : Address) : Prop :=
  block.1.toNat ≤ a.toNat ∧ a.toNat + 8 ≤ block.1.toNat + block.2

instance (block : Address × Nat) (a : Address) : Decidable (Inside block a) :=
  inferInstanceAs (Decidable (_ ∧ _))

namespace ByteHeap

/-- The eight bytes at `a` lie in a live block. -/
def holds (heap : ByteHeap) (a : Address) : Bool := heap.blocks.any fun block => Inside block a

def read (heap : ByteHeap) (a : Address) : Option (BitVec 64) :=
  if heap.holds a then some (loadWord heap.bytes a) else none

def write (heap : ByteHeap) (a : Address) (v : BitVec 64) : Option ByteHeap :=
  if heap.holds a then some { heap with bytes := storeWord heap.bytes a v } else none

def release (heap : ByteHeap) (bases : List Address) : ByteHeap :=
  { heap with blocks := heap.blocks.filter fun block => block.1 ∉ bases }

end ByteHeap

/-- An allocator places a block inside the address space, apart from the live ones. -/
structure Allocator where
  place : ByteHeap → Nat → Option Address
  fits : ∀ heap n base, place heap n = some base → base ≠ 0 ∧
    base.toNat + n ≤ addressSpace
  apart : ∀ heap n base, place heap n = some base → ∀ block ∈ heap.blocks,
    block.1.toNat + block.2 ≤ base.toNat ∨ base.toNat + n ≤ block.1.toNat

namespace Allocator

/-- The first address behind every one of the blocks. -/
def top : List (Address × Nat) → Nat
  | [] => 16
  | block :: blocks => max (block.1.toNat + block.2) (top blocks)

theorem le_top {block : Address × Nat} {blocks : List (Address × Nat)} (h : block ∈ blocks) :
    block.1.toNat + block.2 ≤ top blocks := by
  induction blocks with
  | nil => exact (nomatch h)
  | cons first rest ih =>
    rcases List.mem_cons.mp h with rfl | hRest
    · exact Nat.le_max_left _ _
    · exact Nat.le_trans (ih hRest) (Nat.le_max_right _ _)

theorem sixteen_le_top (blocks : List (Address × Nat)) : 16 ≤ top blocks := by
  induction blocks with
  | nil => exact Nat.le_refl 16
  | cons first rest ih => exact Nat.le_trans ih (Nat.le_max_right _ _)

theorem toNat_top {blocks : List (Address × Nat)} {n : Nat} (h : top blocks + n < addressSpace) :
    (BitVec.ofNat 64 (top blocks)).toNat = top blocks :=
  Nat.mod_eq_of_lt (Nat.lt_of_le_of_lt (Nat.le_add_right _ n) h)

/-- Places each block behind the live ones. -/
def bump : Allocator where
  place heap n := if top heap.blocks + n <
    addressSpace then some (BitVec.ofNat 64 (top heap.blocks)) else none
  fits heap n base h := by
    obtain ⟨hRoom, hBase⟩ := Option.ite_none_right_eq_some.mp h
    obtain rfl := Option.some.inj hBase
    refine ⟨fun hZero => ?_, (toNat_top hRoom).symm ▸ Nat.le_of_lt hRoom⟩
    have hNull : top heap.blocks = 0 := by rw [← toNat_top hRoom, hZero]; rfl
    exact absurd (sixteen_le_top heap.blocks) (hNull ▸ by decide)
  apart heap n base h block hBlock := by
    obtain ⟨hRoom, hBase⟩ := Option.ite_none_right_eq_some.mp h
    obtain rfl := Option.some.inj hBase
    exact Or.inl ((toNat_top hRoom).symm ▸ le_top hBlock)

end Allocator

section

variable {bytes : Address → BitVec 8} {heap : ByteHeap} {block : Address × Nat}
  {a b : Address} {v : BitVec 64}

end

end Library
