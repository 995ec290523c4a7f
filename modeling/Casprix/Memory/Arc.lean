import Casprix.Library.Machine
import Mathlib.Algebra.Group.Nat.Defs
import Mathlib.Data.List.Basic

/-! Reference counting with weak handles. An allocation is named by the order in
which it was made. The references that are held, and by whom, are listed beside
the heap: the counters have to agree with them. -/
namespace Casprix.Memory

abbrev Obj := Nat

inductive ArcColor
  | black
  | purple
  | gray
  | white
  | green
  deriving DecidableEq, Repr

/-- One statement of a destructor: give up what a field holds and clear it, or
release the object that is being destroyed. -/
inductive DestructorOp
  | releaseField (index : Nat)
  | releaseWeakField (index : Nat)
  | releaseSelf
  deriving DecidableEq, Repr

structure ArcHeader where
  size : Nat
  strongCount : Int
  weakCount : Int
  moved : Bool
  buffered : Bool
  acyclic : Bool
  deallocating : Bool
  color : ArcColor
  destructor : Option (List DestructorOp)
  scanner : Bool
  deriving DecidableEq, Repr

/-- Memory that was not allocated yet. -/
def ArcHeader.unallocated : ArcHeader where
  size := 0
  strongCount := 0
  weakCount := 0
  moved := false
  buffered := false
  acyclic := false
  deallocating := false
  color := .black
  destructor := none
  scanner := false

structure ArcStats where
  totalAllocations : Nat := 0
  totalFrees : Nat := 0
  currentObjects : Nat := 0
  currentBytes : Nat := 0
  totalRetains : Nat := 0
  totalReleases : Nat := 0
  weakRefsCreated : Nat := 0
  weakUpgrades : Nat := 0
  weakUpgradeFails : Nat := 0
  deriving DecidableEq, Repr

/-- A reference is held by the code that calls or by a field of an object. -/
inductive Holder
  | caller
  | field (obj : Obj) (index : Nat)
  deriving DecidableEq, Repr

structure Ref where
  holder : Holder
  target : Obj
  deriving DecidableEq, Repr

/-- `arc_finalize_zero_strong` under way: what its destructor has still to do. -/
structure Finalization where
  obj : Obj
  todo : List DestructorOp
  deriving DecidableEq, Repr

/-- The ways a call ends the program. The first is an access to memory that was
given back, the others are the errors `arc_abort_count_error` reports. -/
inductive Fault
  | useAfterFree
  | overRelease
  | weakUnderflow
  | countUnderflow
  | countOverflow
  | deadObject
  | movedObject
  deriving DecidableEq, Repr

/-- The calls of `free` and of destructors are recorded for each allocation. -/
structure ArcState where
  heap : Obj → ArcHeader
  next : Obj
  strongRefs : List Ref
  weakRefs : List Ref
  stack : List Finalization
  stats : ArcStats
  destructorRuns : Obj → Nat
  frees : Obj → Nat

def ArcState.initial : ArcState where
  heap := fun _ => .unallocated
  next := 0
  strongRefs := []
  weakRefs := []
  stack := []
  stats := {}
  destructorRuns := fun _ => 0
  frees := fun _ => 0

variable (s : ArcState) (o : Obj)

namespace ArcState

def setHeader (header : ArcHeader) : ArcState :=
  { s with heap := fun q => if q = o then header else s.heap q }

def holdStrong (ref : Ref) : ArcState := { s with strongRefs := ref :: s.strongRefs }

def dropStrong (ref : Ref) : ArcState :=
  { s with strongRefs := s.strongRefs.erase ref }

def holdWeak (ref : Ref) : ArcState := { s with weakRefs := ref :: s.weakRefs }

def dropWeak (ref : Ref) : ArcState := { s with weakRefs := s.weakRefs.erase ref }

def isFreed : Bool := decide (0 < s.frees o)

end ArcState

def int32Max : Int := 2147483647

/-- An object without strong references counts as finalized also while the
cycle collector looks at it. -/
def arcHeaderIsFinalized (header : ArcHeader) : Bool :=
  header.deallocating ||
    (decide (header.strongCount ≤ 0) &&
      (header.color == .white || header.color == .gray || header.buffered))

def arcTryIncCount (count : Int) : Except Fault Int :=
  if count < 0 then .error .countUnderflow
  else if count = int32Max then .error .countOverflow
  else .ok (count + 1)

/-- The bytes of a header and of the slot that points back to it. -/
def arcMetadataSize : Nat := 64 + 8

def arcDefaultAlignment : Nat := 16

/-- The new object, held by nobody yet. An empty one is refused, and so is one whose bytes
a `size_t` cannot count or `malloc` does not have. -/
def arcAllocFull (size : Nat) (destructor : Option (List DestructorOp))
    (scanner malloced : Bool) : Option (Obj × ArcState) :=
  if size = 0 ∨ 2 ^ 64 ≤ arcMetadataSize + size + (arcDefaultAlignment - 1) ∨
    malloced = false then
    none
  else
    some (s.next,
      { s.setHeader s.next {
          size := size
          strongCount := 1
          weakCount := 1
          moved := false
          buffered := false
          acyclic := false
          deallocating := false
          color := .black
          destructor := destructor
          scanner := scanner } with
        next := s.next + 1
        stats := { s.stats with
          totalAllocations := s.stats.totalAllocations + 1
          currentObjects := s.stats.currentObjects + 1
          currentBytes := s.stats.currentBytes + size } })

def arcRetain : Except Fault ArcState :=
  if s.isFreed o then .error .useAfterFree
  else if arcHeaderIsFinalized (s.heap o) then .error .deadObject
  else if (s.heap o).moved then .error .movedObject
  else
    match arcTryIncCount (s.heap o).strongCount with
    | .error fault => .error fault
    | .ok count =>
      .ok { s.setHeader o { s.heap o with strongCount := count } with
        stats := { s.stats with totalRetains := s.stats.totalRetains + 1 } }

/-- The destructor of an object whose last reference went away is called; what
`arc_finalize_zero_strong` does after it waits on the stack. -/
def arcStartFinalization : ArcState :=
  match (s.heap o).destructor with
  | none => { s with stack := ⟨o, []⟩ :: s.stack }
  | some ops =>
    { s with
      stack := ⟨o, ops⟩ :: s.stack
      destructorRuns := fun q => if q = o then s.destructorRuns q + 1 else s.destructorRuns q }

/-- `arc_start_deallocation` and the call that follows it. -/
def arcStartDeallocation : ArcState :=
  if (s.heap o).deallocating then s
  else arcStartFinalization (s.setHeader o { s.heap o with deallocating := true }) o

def arcReleaseImpl : Except Fault ArcState :=
  if s.isFreed o then .error .useAfterFree
  else if (s.heap o).strongCount ≤ 0 then
    if arcHeaderIsFinalized (s.heap o) then .ok s else .error .overRelease
  else
    let released := s.setHeader o { s.heap o with strongCount := (s.heap o).strongCount - 1 }
    .ok (if (s.heap o).strongCount = 1 then arcStartDeallocation released o else released)

def arcRelease : Except Fault ArcState :=
  arcReleaseImpl { s with stats := { s.stats with totalReleases := s.stats.totalReleases + 1 } } o

def arcFreeAllocation : ArcState :=
  { s with frees := fun q => if q = o then s.frees q + 1 else s.frees q }

/-- What `arc_finalize_zero_strong` does when the destructor has returned. -/
def arcFinishFinalization : Except Fault ArcState :=
  if s.isFreed o then .error .useAfterFree
  else if (s.heap o).weakCount ≤ 0 then .error .weakUnderflow
  else
    let finished :=
      { s.setHeader o { s.heap o with
          scanner := false
          color := .black
          buffered := false
          weakCount := (s.heap o).weakCount - 1 } with
        stats := { s.stats with
          totalFrees := s.stats.totalFrees + 1
          currentObjects := s.stats.currentObjects - 1
          currentBytes :=
            if (s.heap o).size ≤ s.stats.currentBytes then s.stats.currentBytes - (s.heap o).size
            else 0 } }
    .ok (if (s.heap o).weakCount = 1 then arcFreeAllocation finished o else finished)

def arcWeakCreate : Except Fault ArcState :=
  if s.isFreed o then .error .useAfterFree
  else if arcHeaderIsFinalized (s.heap o) || decide ((s.heap o).strongCount ≤ 0) then
    .error .deadObject
  else
    match arcTryIncCount (s.heap o).weakCount with
    | .error fault => .error fault
    | .ok count =>
      .ok { s.setHeader o { s.heap o with weakCount := count } with
        stats := { s.stats with weakRefsCreated := s.stats.weakRefsCreated + 1 } }

/-- The object, or nothing when it is dead. -/
def arcWeakUpgrade : Except Fault (Option Obj × ArcState) :=
  if s.isFreed o then .error .useAfterFree
  else if (s.heap o).strongCount ≤ 0 ∨ arcHeaderIsFinalized (s.heap o) = true then
    .ok (none,
      { s with stats := { s.stats with weakUpgradeFails := s.stats.weakUpgradeFails + 1 } })
  else if (s.heap o).strongCount = int32Max then .error .countOverflow
  else
    .ok (some o,
      { s.setHeader o { s.heap o with strongCount := (s.heap o).strongCount + 1 } with
        stats := { s.stats with
          totalRetains := s.stats.totalRetains + 1
          weakUpgrades := s.stats.weakUpgrades + 1 } })

def arcWeakRelease : Except Fault ArcState :=
  if s.isFreed o then .error .useAfterFree
  else if (s.heap o).weakCount ≤ 0 then .error .weakUnderflow
  else
    let released := s.setHeader o { s.heap o with weakCount := (s.heap o).weakCount - 1 }
    .ok (if (s.heap o).weakCount = 1 ∧
      (s.heap o).strongCount ≤ 0 then arcFreeAllocation released o
      else released)

/-- A field of an object under destruction that holds nothing is left alone. -/
def runDestructorOp : DestructorOp → Except Fault ArcState
  | .releaseField index =>
    match s.strongRefs.find? fun ref => ref.holder == .field o index with
    | none => .ok s
    | some ref => arcRelease (s.dropStrong ref) ref.target
  | .releaseWeakField index =>
    match s.weakRefs.find? fun ref => ref.holder == .field o index with
    | none => .ok s
    | some ref => arcWeakRelease (s.dropWeak ref) ref.target
  | .releaseSelf => arcRelease s o

/-- The innermost finalization goes one statement on. -/
def proceed : Except Fault ArcState :=
  match s.stack with
  | [] => .ok s
  | ⟨o, []⟩ :: rest => arcFinishFinalization { s with stack := rest } o
  | ⟨o, op :: todo⟩ :: rest => runDestructorOp { s with stack := ⟨o, todo⟩ :: rest } o op

/-- A call of the interface, an assignment that moves a reference or a weak
handle between the caller and the fields of objects, or a statement of the
destructor that runs. Whether `malloc` has the bytes of an allocation is part of the call. -/
inductive ArcCall
  | allocFull (size : Nat) (destructor : Option (List DestructorOp)) (scanner malloced : Bool)
  | retain (obj : Obj)
  | release (obj : Obj)
  | weakCreate (obj : Obj)
  | weakUpgrade (obj : Obj)
  | weakRelease (obj : Obj)
  | moveStrong (source target : Holder) (obj : Obj)
  | moveWeak (source target : Holder) (obj : Obj)
  | proceed
  deriving DecidableEq, Repr

/-- The fields of an object can be reached while a reference keeps it. -/
def Holder.open : Holder → Prop
  | .caller => True
  | .field o _ => ∃ ref ∈ s.strongRefs, ref.target = o

instance (s : ArcState) : ∀ holder : Holder, Decidable (holder.open s)
  | .caller => isTrue trivial
  | .field o _ => inferInstanceAs (Decidable (∃ ref ∈ s.strongRefs, ref.target = o))

/-- A pointer to the object or a handle to it is in somebody's hands. -/
def ArcState.inHand : Prop :=
  (∃ ref ∈ s.strongRefs, ref.target = o) ∨ ∃ ref ∈ s.weakRefs, ref.target = o

instance (s : ArcState) (o : Obj) : Decidable (s.inHand o) :=
  inferInstanceAs (Decidable (_ ∨ _))

/-- Nobody calls on an object without a pointer to it, gives up a reference it
does not hold, or overwrites a reference. A destructor that runs comes first. -/
def ArcCall.allowed : ArcCall → Prop
  | .allocFull _ _ _ _ => s.stack = []
  | .retain o | .weakCreate o => s.stack = [] ∧ s.inHand o
  | .release o => s.stack = [] ∧ ⟨.caller, o⟩ ∈ s.strongRefs
  | .weakUpgrade o => s.stack = [] ∧ ∃ ref ∈ s.weakRefs, ref.target = o
  | .weakRelease o => s.stack = [] ∧ ⟨.caller, o⟩ ∈ s.weakRefs
  | .moveStrong source target o =>
    s.stack = [] ∧ source.open s ∧ target.open s ∧ ⟨source, o⟩ ∈ s.strongRefs ∧
      (target = .caller ∨ ∀ ref ∈ s.strongRefs, ref.holder ≠ target)
  | .moveWeak source target o =>
    s.stack = [] ∧ source.open s ∧ target.open s ∧ ⟨source, o⟩ ∈ s.weakRefs ∧
      (target = .caller ∨ ∀ ref ∈ s.weakRefs, ref.holder ≠ target)
  | .proceed => s.stack ≠ []

instance (s : ArcState) : ∀ call : ArcCall, Decidable (call.allowed s)
  | .allocFull _ _ _ _ => inferInstanceAs (Decidable (s.stack = []))
  | .retain _ | .weakCreate _ => inferInstanceAs (Decidable (_ ∧ _))
  | .release _ | .weakRelease _ | .weakUpgrade _ => inferInstanceAs (Decidable (_ ∧ _))
  | .moveStrong _ _ _ | .moveWeak _ _ _ => inferInstanceAs (Decidable (_ ∧ _))
  | .proceed => inferInstanceAs (Decidable (s.stack ≠ []))

/-- The call, with the references that change hands in it. -/
def ArcCall.perform : ArcCall → Except Fault ArcState
  | .allocFull size destructor scanner malloced =>
    match arcAllocFull s size destructor scanner malloced with
    | none => .ok s
    | some (o, t) => .ok (t.holdStrong ⟨.caller, o⟩)
  | .retain o => (arcRetain s o).map fun t => t.holdStrong ⟨.caller, o⟩
  | .release o => arcRelease (s.dropStrong ⟨.caller, o⟩) o
  | .weakCreate o => (arcWeakCreate s o).map fun t => t.holdWeak ⟨.caller, o⟩
  | .weakUpgrade o =>
    (arcWeakUpgrade s o).map fun result =>
      if result.1.isSome then result.2.holdStrong ⟨.caller, o⟩ else result.2
  | .weakRelease o => arcWeakRelease (s.dropWeak ⟨.caller, o⟩) o
  | .moveStrong source target o => .ok ((s.dropStrong ⟨source, o⟩).holdStrong ⟨target, o⟩)
  | .moveWeak source target o => .ok ((s.dropWeak ⟨source, o⟩).holdWeak ⟨target, o⟩)
  | .proceed => Memory.proceed s

/-- A program goes on until a call ends it. -/
def arcStep (call : ArcCall) (result : Except Fault ArcState) : Option (Except Fault ArcState) :=
  match result with
  | .error _ => none
  | .ok s => if call.allowed s then some (call.perform s) else none

end Casprix.Memory
