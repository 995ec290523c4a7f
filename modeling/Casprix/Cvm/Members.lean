import Casprix.Cvm.Machine
import Casprix.Library.Bytes

/-! The addresses of fields and elements in the machine, against the block that
was allocated for them: every member takes a slot of eight bytes. -/
namespace Casprix.Cvm

open Mir List BitVec
open Library

/-- Rounds up to a multiple of a power of two. -/
def alignUp (n align : Nat) : Nat := (n + align - 1) / align * align

/-- The instructions that allocate. -/
inductive Allocation where
  | alloca (count : Int)
  | objAlloc (className : String) (size : Int)

/-- The opcode that allocates for a type. -/
def Allocation.op (type : MirType) : Allocation → MirOp
  | .alloca count => .alloca (some type) count
  | .objAlloc className size => .objAlloc className size

/-- The size of the block. -/
def Allocation.bytes : Allocation → Nat
  | .alloca count => (if 0 < count then count.toNat else 1) * 8
  | .objAlloc _ size => objectBytes size

section

variable {host : CvmHost ByteHeap} {allocator : Allocator} {structs : MirStructs}
  {type : MirType} {n i j k : Nat}
  {exec : CvmFrame → MirInst → CvmState ByteHeap → CvmOutcome ByteHeap}
  {frame frame' : CvmFrame} {vm vm' : CvmState ByteHeap} {alloc : Allocation}
    {base : CvmReg} {bytes : Nat}

section

variable {mem : CvmReg}

end

end

end Casprix.Cvm
