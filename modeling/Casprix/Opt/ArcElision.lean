import Mathlib
import Casprix.Opt.Uses

/-! `mir_pass_arc_elision`, what a block does to the reference counts, which pairs the pass
elides, and when the objects live on without them. -/
namespace Casprix.Opt

open Mir Finset

/-- The search for the release that matches a retain, which stops at a use of the value. -/
def findRelease (ptr : MirValueId) : List MirInst → Option Nat
  | [] => none
  | inst :: rest =>
    if inst.op = .refop .arcRelease ptr then some 0
    else if valueUsedInInst inst ptr then none
    else (findRelease ptr rest).map (· + 1)

def clearInst (inst : MirInst) : MirInst := { inst with op := .nop }

/-- What an instruction does to an object of the heap. -/
inductive RefEvent (Obj : Type) where
  | touch (o : Obj)
  | retain (o : Obj)
  | release (o : Obj)
  deriving DecidableEq

namespace RefEvent

variable {Obj : Type}

def object : RefEvent Obj → Obj
  | touch o => o
  | retain o => o
  | release o => o

def delta : RefEvent Obj → Int
  | touch _ => 0
  | retain _ => 1
  | release _ => -1

end RefEvent

variable {Obj : Type} [DecidableEq Obj]

/-- The counts after an event. -/
def countStep (counts : Obj → Int) (e : RefEvent Obj) : Obj → Int :=
  Function.update counts e.object (counts e.object + e.delta)

/-- No event touches an object whose count has reached zero. -/
def Alive : (Obj → Int) → List (RefEvent Obj) → Prop
  | _, [] => True
  | counts, e :: events => 0 < counts e.object ∧ Alive (countStep counts e) events

/-- An execution of a block: which object a value names, if it names one, and what the
instruction at each place does to the heap when it is no retain or release. Different values
may name the same object, and a call may do anything. -/
structure BlockHeap (Obj : Type) where
  names : MirValueId → Option Obj
  others : Nat → List (RefEvent Obj)

def BlockHeap.eventsOf (heap : BlockHeap Obj) (k : Nat) : MirOp → List (RefEvent Obj)
  | .refop .arcRetain ptr => (heap.names ptr).toList.map .retain
  | .refop .arcRelease ptr => (heap.names ptr).toList.map .release
  | .nop => []
  | _ => heap.others k

/-- What a block does from its `k`-th instruction on. -/
def BlockHeap.events (heap : BlockHeap Obj) : Nat → List MirInst → List (RefEvent Obj)
  | _, [] => []
  | k, inst :: rest => heap.eventsOf k inst.op ++ heap.events (k + 1) rest

open List

section

variable {insts rest rest' : List MirInst} {inst : MirInst} {ptr ptr' : MirValueId}
  {d i j k m : Nat}

/-- The release that the retain at a place is paired with. -/
def partner (insts : List MirInst) (i : Nat) : Option (Nat × MirValueId) :=
  match insts[i]? with
  | some inst =>
    match inst.op with
    | .refop .arcRetain ptr => (findRelease ptr (insts.drop (i + 1))).map fun d => (i + 1 + d, ptr)
    | _ => none
  | none => none

/-- The instruction belongs to a pair whose retain is before the `m`-th instruction. -/
def ElidedBy (insts : List MirInst) (m k : Nat) : Prop :=
  (k < m ∧ (partner insts k).isSome = true) ∨ ∃ i < m, (partner insts i).map Prod.fst = some k

instance (insts : List MirInst) (m k : Nat) : Decidable (ElidedBy insts m k) :=
  inferInstanceAs (Decidable ((k < m ∧ (partner insts k).isSome = true) ∨
    ∃ i < m, (partner insts i).map Prod.fst = some k))

/-- The instruction at a place after the loop has looked at the first `m`. -/
def marked (insts : List MirInst) (m k : Nat) (inst : MirInst) : MirInst :=
  if ElidedBy insts m k then clearInst inst else inst

end

variable {Obj : Type} [DecidableEq Obj]

instance decidableAlive (counts : Obj → Int) (events : List (RefEvent Obj)) :
    Decidable (Alive counts events) :=
  match events with
  | [] => isTrue trivial
  | e :: events =>
    have := decidableAlive (countStep counts e) events
    inferInstanceAs (Decidable (0 < counts e.object ∧ Alive (countStep counts e) events))

section

variable {heap : BlockHeap Obj} {insts : List MirInst} {inst : MirInst} {k : Nat}
  {counts counts' : Obj → Int} {events : List (RefEvent Obj)} {o : Obj}

end

end Casprix.Opt
