import Casprix.Library.Machine

/-! The work-stealing deque of the scheduler, with one load, store or
compare-and-exchange in each step. Indices grow without bound, and a ring that was
replaced is leaked, so a thief may still read it. -/
namespace Casprix.Ml

open Function

variable {α : Type*}

/-- The array behind a deque. Its capacity is a power of two, so that masking an
index wraps it around. -/
structure DequeRing (α : Type*) where
  buf : Nat → α
  cap : Nat
  isPowerOfTwo : cap.isPowerOfTwo

namespace DequeRing

/-- `i & (cap - 1)`, for the indices that are read and written. -/
def slot (r : DequeRing α) (i : Int) : Nat := i.toNat &&& (r.cap - 1)

def cell (r : DequeRing α) (i : Int) : α := r.buf (r.slot i)

def write (r : DequeRing α) (i : Int) (task : α) : DequeRing α :=
  { r with buf := update r.buf (r.slot i) task }

end DequeRing

def dequeInitCap : Nat := 256

/-- A ring of a larger capacity, with whatever its memory held before. -/
def ringAlloc (contents : Nat → α) (cap : Nat) (h : cap.isPowerOfTwo) : DequeRing α where
  buf := contents
  cap := cap
  isPowerOfTwo := h

/-- Where the owner stands, with its local variables. A ring that is not yet
stored into the deque is among them. -/
inductive OwnerPoint (α : Type*)
  | idle
  | pushLoadTop (task : α) (b : Int)
  | pushLoadArray (task : α) (b t : Int)
  | pushCopy (task : α) (b i : Int) (r : Nat) (nr : DequeRing α)
  | pushCopied (task : α) (b i : Int) (r : Nat) (nr : DequeRing α) (entry : α)
  | pushWrite (task : α) (b : Int) (r : Nat)
  | pushStoreBottom (task : α) (b : Int)
  | popLoadArray (b : Int)
  | popStoreBottom (b : Int) (r : Nat)
  | popLoadTop (b : Int) (r : Nat)
  | popRead (b t : Int) (r : Nat)
  | popExchange (b t : Int) (task : α)
  | popRestore (b : Int) (task : Option α)

/-- Where a thief stands. -/
inductive ThiefPoint (α : Type*)
  | idle
  | loadBottom (t : Int)
  | loadArray (t : Int)
  | read (t : Int) (r : Nat)
  | exchange (t : Int) (task : α)

/-- The deque, the threads that use it, and the tasks that completed calls have
pushed and returned. Rings are numbered in the order in which they are stored. -/
structure DequeState (α : Type*) where
  bottom : Int
  top : Int
  array : Nat
  ring : Nat → DequeRing α
  ringCount : Nat
  owner : OwnerPoint α
  thief : Nat → ThiefPoint α
  pushed : List α
  returned : List α

/-- `cpx_deque_init`, before any thread uses the deque. -/
def cpxDequeInit (memory : Nat → Nat → α) : DequeState α where
  bottom := 0
  top := 0
  array := 0
  ring := fun n => ringAlloc (memory n) dequeInitCap ⟨8, rfl⟩
  ringCount := 1
  owner := .idle
  thief := fun _ => .idle
  pushed := []
  returned := []

namespace DequeState

def current (s : DequeState α) : DequeRing α := s.ring s.array

/-- `atomic_store` of a new ring to the array. -/
def storeArray (s : DequeState α) (nr : DequeRing α) : DequeState α :=
  { s with array := s.ringCount
           ring := update s.ring s.ringCount nr
           ringCount := s.ringCount + 1 }

def writeCell (s : DequeState α) (r : Nat) (i : Int) (task : α) : DequeState α :=
  { s with ring := update s.ring r ((s.ring r).write i task) }

def setThief (s : DequeState α) (k : Nat) (point : ThiefPoint α) : DequeState α :=
  { s with thief := update s.thief k point }

/-- The next step of the owner. -/
def ownerStep (memory : Nat → Nat → α) (s : DequeState α) : Option (DequeState α) :=
  match s.owner with
  | .idle => none
  | .pushLoadTop task b => some { s with owner := .pushLoadArray task b s.top }
  | .pushLoadArray task b t =>
    if b - t > s.current.cap - 1 then
      some { s with owner := .pushCopy task b t s.array
                      (ringAlloc (memory s.ringCount) (s.current.cap * 2)
                        (Nat.isPowerOfTwo_mul_two_of_isPowerOfTwo s.current.isPowerOfTwo)) }
    else some { s with owner := .pushWrite task b s.array }
  | .pushCopy task b i r nr =>
    if i < b then some { s with owner := .pushCopied task b i r nr ((s.ring r).cell i) }
    else some { s.storeArray nr with owner := .pushWrite task b s.ringCount }
  | .pushCopied task b i r nr entry =>
    some { s with owner := .pushCopy task b (i + 1) r (nr.write i entry) }
  | .pushWrite task b r => some { s.writeCell r b task with owner := .pushStoreBottom task b }
  | .pushStoreBottom task b =>
    some { s with bottom := b + 1, owner := .idle, pushed := s.pushed ++ [task] }
  | .popLoadArray b => some { s with owner := .popStoreBottom b s.array }
  | .popStoreBottom b r => some { s with bottom := b, owner := .popLoadTop b r }
  | .popLoadTop b r =>
    if s.top ≤ b then some { s with owner := .popRead b s.top r }
    else some { s with owner := .popRestore b none }
  | .popRead b t r =>
    -- Only the last task is contended for.
    if t = b then some { s with owner := .popExchange b t ((s.ring r).cell b) }
    else some { s with owner := .idle, returned := s.returned ++ [(s.ring r).cell b] }
  | .popExchange b t task =>
    if s.top = t then some { s with top := t + 1, owner := .popRestore b (some task) }
    else some { s with owner := .popRestore b none }
  | .popRestore b task =>
    some { s with bottom := b + 1, owner := .idle, returned := s.returned ++ task.toList }

/-- The next step of a thief. -/
def thiefStep (k : Nat) (s : DequeState α) : Option (DequeState α) :=
  match s.thief k with
  | .idle => none
  | .loadBottom t =>
    if t ≥ s.bottom then some (s.setThief k .idle) else some (s.setThief k (.loadArray t))
  | .loadArray t => some (s.setThief k (.read t s.array))
  | .read t r => some (s.setThief k (.exchange t ((s.ring r).cell t)))
  | .exchange t task =>
    if s.top = t then
      some { s.setThief k .idle with top := t + 1, returned := s.returned ++ [task] }
    else some (s.setThief k .idle)

end DequeState

/-- What a schedule can choose: the first load of a call, or the next step of a
call that has begun. -/
inductive DequeAct (α : Type*)
  | cpxDequePush (task : α)
  | cpxDequePop
  | owner
  | cpxDequeSteal (k : Nat)
  | thief (k : Nat)

/-- One step of the threads. A step that its thread cannot take has no result. -/
def dequeStep (memory : Nat → Nat → α) :
    DequeAct α → DequeState α → Option (DequeState α)
  | .cpxDequePush task, s =>
    match s.owner with
    | .idle => some { s with owner := .pushLoadTop task s.bottom }
    | _ => none
  | .cpxDequePop, s =>
    match s.owner with
    | .idle => some { s with owner := .popLoadArray (s.bottom - 1) }
    | _ => none
  | .owner, s => s.ownerStep memory
  | .cpxDequeSteal k, s =>
    match s.thief k with
    | .idle => some (s.setThief k (.loadBottom s.top))
    | _ => none
  | .thief k, s => s.thiefStep k

end Casprix.Ml
