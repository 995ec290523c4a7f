import Casprix.Mir.Basic
import Mathlib.Data.List.Sort

/-! The linear-scan register allocator of the mini-JIT. -/
namespace Casprix.Jit

open Mir Function

/-- The general purpose registers, by their numbers. -/
inductive Reg where
  | rax | rcx | rdx | rbx | rsp | rbp | rsi | rdi
  | r8 | r9 | r10 | r11 | r12 | r13 | r14 | r15
  deriving DecidableEq, Repr

/-- `kAllocPool`. -/
def allocPool : List Reg :=
  [.rcx, .rdx, .rsi, .rdi, .r8, .r9, .r10, .rbx, .r12, .r13, .r14, .r15]

/-- `JIT_MAX_SPILL_SLOTS`. -/
def jitMaxSpillSlots : Nat := 64

/-- `JRA_FIRST_UNSET`. -/
def jraFirstUnset : Int := -2

/-- `none` in `reg` is `JIT_REG_NONE`, and `none` in `spillSlot` is `-1`. -/
structure JitVReg where
  first : Int := jraFirstUnset
  last : Int := -1
  reg : Option Reg := none
  spillSlot : Option Nat := none
  used : Bool := false
  deriving DecidableEq, Repr

/-- `v` is read at ids below `n` only. -/
structure JitRegAlloc where
  v : MirValueId → JitVReg
  n : Nat
  nSpillSlots : Nat

/-- The ids that have an entry in `v`. -/
def IsValue (n : Nat) (id : MirValueId) : Prop := id ≠ 0 ∧ id < n

instance (n : Nat) (id : MirValueId) :
    Decidable (IsValue n id) := inferInstanceAs (Decidable (_ ∧ _))

/-- Changes the entry of an id, if there is one. -/
def touch (n : Nat) (v : MirValueId → JitVReg) (id : MirValueId) (change : JitVReg → JitVReg) :
    MirValueId → JitVReg :=
  if IsValue n id then update v id (change (v id)) else v

def JitVReg.use (idx : Int) (r : JitVReg) : JitVReg :=
  { r with used := true, last := if idx > r.last then idx else r.last }

def JitVReg.define (idx : Int) (r : JitVReg) : JitVReg :=
  { r with used := true
           first := if r.first = jraFirstUnset then idx else r.first
           last := if idx > r.last then idx else r.last }

def JitVReg.liveIn (r : JitVReg) : JitVReg := { r with used := true, first := -1, last := 0 }

def jraUse (n : Nat) (idx : Int) (v : MirValueId → JitVReg) (id : MirValueId) :
    MirValueId → JitVReg :=
  touch n v id (JitVReg.use idx)

def jraDef (n : Nat) (idx : Int) (v : MirValueId → JitVReg) (id : MirValueId) :
    MirValueId → JitVReg :=
  touch n v id (JitVReg.define idx)

def jraParam (n : Nat) (v : MirValueId → JitVReg) (id : MirValueId) : MirValueId → JitVReg :=
  touch n v id JitVReg.liveIn

/-- The operands that `jra_walk_operands` hands to its callback. -/
def jraOperands : MirOp → List MirValueId
  | .binary op lhs rhs =>
    match op with
    | .fadd | .fsub | .fmul | .fdiv => []
    | _ => [lhs, rhs]
  | .unary op operand _ =>
    match op with
    | .fneg | .sitofp | .fptosi => []
    | _ => [operand]
  | .transfer _ source => [source]
  | .condbr cond _ _ => [cond]
  | .ret value => [value]
  | .call _ args _ => args
  | _ => []

/-- One instruction of the pass that records the live ranges. -/
def jraInst (n : Nat) (v : MirValueId → JitVReg) (entry : MirInst × Nat) :
    MirValueId → JitVReg :=
  let used := (jraOperands entry.1.op).foldl (jraUse n entry.2) v
  jraDef n entry.2 used entry.1.result

/-- A value that is used and has no definition lives at its last use. -/
def JitVReg.normalise (r : JitVReg) : JitVReg :=
  if r.used ∧ r.first = jraFirstUnset then { r with first := r.last } else r

variable (func : MirFunction)

/-- The instructions in the order of the block list. -/
def jitInsts : List MirInst := func.blocks.flatMap (·.insts)

/-- `a->n`. -/
def jitValueCount : Nat := if func.nextValueId < 1 then 1 else func.nextValueId

def liveRanges : MirValueId → JitVReg :=
  let n := jitValueCount func
  let params := (func.params.map (·.valueId)).foldl (jraParam n) fun _ => {}
  let ranges := (jitInsts func).zipIdx.foldl (jraInst n) params
  fun id => (ranges id).normalise

variable (v : MirValueId → JitVReg)

/-- `x` is not moved past `y` when it is sorted in from the end. -/
def endsBehind (x y : MirValueId) : Prop :=
  ¬((v y).first > (v x).first ∨ (v y).first = (v x).first ∧ (v y).last > (v x).last)

instance (v : MirValueId → JitVReg) : DecidableRel (endsBehind v) :=
  fun _ _ => inferInstanceAs (Decidable ¬(_ ∨ _))

/-- The used values, sorted by the start and then by the end of their ranges. -/
def scanOrder (n : Nat) : List MirValueId :=
  (((List.range n).filter fun id => (v id).used).foldl
    (fun sorted id => sorted.orderedInsert (endsBehind v) id) []).reverse

/-- The state of the scan. `active` has the entry that ends last at its head. -/
structure LinearScan where
  v : MirValueId → JitVReg
  nSpillSlots : Nat := 0
  poolFree : Reg → Bool := fun _ => true
  active : List MirValueId := []

namespace LinearScan

/-- Gives the register of a value back to the pool. -/
def freeReg (poolFree : Reg → Bool) (id : MirValueId) : Reg → Bool :=
  match (v id).reg with
  | some r => update poolFree r true
  | none => poolFree

/-- Expires the intervals that end before `start`. -/
def expire (s : LinearScan) (start : Int) : LinearScan :=
  { s with poolFree := (s.active.filter fun id =>
    (s.v id).last < start).foldl (freeReg s.v) s.poolFree
           active := s.active.filter fun id => ¬(s.v id).last < start }

/-- The entry is not moved past `y` when it is sorted into `active` from the end. -/
def endsNoEarlier (x y : MirValueId) : Prop := ¬(v y).last > (v x).last

instance (v : MirValueId → JitVReg) : DecidableRel (endsNoEarlier v) :=
  fun _ _ => inferInstanceAs (Decidable ¬(_ > _))

def setReg (id : MirValueId) (reg : Option Reg) : MirValueId → JitVReg :=
  update v id { v id with reg }

def setSlot (id : MirValueId) (slot : Nat) : MirValueId → JitVReg :=
  update v id { v id with spillSlot := some slot }

/-- Finds a home for a value, after the expired intervals are gone. `none` where the last entry of
an empty list is read. -/
def place (s : LinearScan) (vid : MirValueId) : Option LinearScan :=
  match allocPool.find? s.poolFree with
  | some chosen =>
    some { s with v := setReg s.v vid (some chosen)
                  poolFree := update s.poolFree chosen false
                  active := s.active.orderedInsert (endsNoEarlier s.v) vid }
  | none =>
    match s.active with
    | [] => none
    | spillVid :: rest =>
      if (s.v spillVid).last > (s.v vid).last then
        let stolen := setReg s.v vid (s.v spillVid).reg
        some { s with v := setSlot (setReg stolen spillVid none) spillVid s.nSpillSlots
                      nSpillSlots := s.nSpillSlots + 1
                      active := rest.orderedInsert (endsNoEarlier s.v) vid }
      else
        some { s with v := setSlot s.v vid s.nSpillSlots, nSpillSlots := s.nSpillSlots + 1 }

def step (s : LinearScan) (vid : MirValueId) : Option LinearScan :=
  (s.expire (s.v vid).first).place vid

end LinearScan

def linearScan : Option LinearScan :=
  (scanOrder (liveRanges func) (jitValueCount func)).foldlM LinearScan.step { v := liveRanges func }

/-- The allocation where it is `ok`. -/
def jitRegalloc : Option JitRegAlloc :=
  (linearScan func).bind fun s =>
    if s.nSpillSlots > jitMaxSpillSlots then none
    else some { v := s.v, n := jitValueCount func, nSpillSlots := s.nSpillSlots }

end Casprix.Jit
