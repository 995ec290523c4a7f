import Casprix.Ml.Deque

/-! `cpx_parallel_for` on thread 0 beside the loops of the workers, with one atomic
access in each step. Thread 0 pushes onto the deques of all workers, so a deque has two
owner points, of which one is the worker's. A task is named by its place in the pool.
Which victim a worker tries and when it sleeps are left to the schedule. -/
namespace Casprix.Ml

open Function

/-- Where a thread stands that looks for a task or executes one. -/
inductive WorkerPoint
  | idle
  | pop
  | steal (victim : Nat)
  | call (t : Nat)
  | body (t i : Nat)
  | countDown (t : Nat)
  | deactivate (t : Nat)
  | release (t : Nat)
  deriving DecidableEq, Repr

/-- Where `cpx_parallel_for` stands outside of the tasks that thread 0 executes. -/
inductive ForPoint
  | alloc (i : Nat)
  | submit (i t : Nat)
  | push (i t : Nat)
  | activate (i : Nat)
  | wait
  | help
  | returned
  deriving DecidableEq, Repr

/-- A call in progress. The point of the owner of a deque is that of its worker, and
`pusher` is where thread 0 stands in a push. `called` lists the indices for which `fn`
was called and `finished` those for which it returned. -/
structure ParallelFor where
  deque : Nat → DequeState Nat
  pusher : OwnerPoint Nat
  main : ForPoint
  worker : Nat → WorkerPoint
  arg : Nat → Nat
  free : List Nat
  counter : Int
  activeTasks : Int
  called : List Nat
  finished : List Nat

/-- The call of `cpx_parallel_for` on a scheduler that has no other work. -/
def cpxParallelFor (memory : Nat → Nat → Nat → Nat) (free : List Nat)
    (activeTasks : Int) (n : Nat) :
    ParallelFor where
  deque := fun w => cpxDequeInit (memory w)
  pusher := .idle
  main := .alloc 0
  worker := fun _ => .idle
  arg := fun _ => 0
  free := free
  counter := n
  activeTasks := activeTasks
  called := []
  finished := []

namespace ParallelFor

def setWorker (s : ParallelFor) (w : Nat) (point : WorkerPoint) : ParallelFor :=
  { s with worker := update s.worker w point }

def setDeque (s : ParallelFor) (w : Nat) (deque : DequeState Nat) : ParallelFor :=
  { s with deque := update s.deque w deque }

/-- The deque as thread 0 sees it in a push. -/
def pushed (s : ParallelFor) (w : Nat) : DequeState Nat := { s.deque w with owner := s.pusher }

/-- What thread 0's step in a push leaves, with the worker where it was. -/
def afterPush (s : ParallelFor) (w : Nat)
    (deque : DequeState Nat) (main : ForPoint) : ParallelFor :=
  { s.setDeque w { deque with owner :=
    (s.deque w).owner } with pusher := deque.owner, main := main }

/-- `submit_task` goes on when its push has ended. -/
def pushGoesOn (i t : Nat) : OwnerPoint Nat → ForPoint
  | .idle => .activate i
  | _ => .push i t

/-- The next step of `cpx_parallel_for` outside of the deques and the tasks. -/
def mainStep (numWorkers n : Nat) (memory : Nat → Nat → Nat → Nat) (s : ParallelFor) :
    Option ParallelFor :=
  match s.main with
  | .alloc i =>
    if i < n then
      -- The assertion: the task pool is not exhausted.
      match s.free with
      | [] => none
      | t :: free => some { s with free := free, arg := update s.arg t i, main := .submit i t }
    else some { s with main := .wait }
  | .submit i t =>
    (dequeStep (memory (i % numWorkers)) (.cpxDequePush t)
      { s.deque (i % numWorkers) with owner := .idle }).map
        fun deque => s.afterPush (i % numWorkers) deque (.push i t)
  | .push i t =>
    ((s.pushed (i % numWorkers)).ownerStep (memory (i % numWorkers))).map fun deque =>
      s.afterPush (i % numWorkers) deque (pushGoesOn i t deque.owner)
  | .activate i => some { s with activeTasks := s.activeTasks + 1, main := .alloc (i + 1) }
  | .wait => if s.counter > 0 then some { s with main := .help } else some
    { s with main := .returned }
  | .help => none
  | .returned => none

/-- What a call on a deque has returned by its last step. -/
def fetched (before after : DequeState Nat) : Option Nat :=
  (after.returned.drop before.returned.length).head?

/-- Where a thread stands after a step of its pop or steal. -/
def afterFetch (before after : DequeState Nat) (goesOn : WorkerPoint)
    (ended : Bool) : WorkerPoint :=
  match fetched before after with
  | some t => .call t
  | none => if ended then .idle else goesOn

def OwnerPoint.isIdle : OwnerPoint Nat → Bool
  | .idle => true
  | _ => false

def ThiefPoint.isIdle : ThiefPoint Nat → Bool
  | .idle => true
  | _ => false

/-- The next step of a thread that executes a task. -/
def runStep (w : Nat) (s : ParallelFor) : Option ParallelFor :=
  match s.worker w with
  | .call t => some { s.setWorker w (.body t (s.arg t)) with called := s.called ++ [s.arg t] }
  | .body t i => some { s.setWorker w (.countDown t) with finished := s.finished ++ [i] }
  | .countDown t => some { s.setWorker w (.deactivate t) with counter := s.counter - 1 }
  | .deactivate t => some { s.setWorker w (.release t) with activeTasks := s.activeTasks - 1 }
  | .release t => some { s.setWorker w .idle with free := t :: s.free }
  | _ => none

end ParallelFor

/-- What a schedule can choose: a step of `cpx_parallel_for`, the first or the next
step of a pop or steal, or a step of a task. -/
inductive ForAct
  | main
  | popCall (w : Nat)
  | popStep (w : Nat)
  | stealCall (w victim : Nat)
  | stealStep (w : Nat)
  | run (w : Nat)
  deriving DecidableEq, Repr

open ParallelFor in
def forStep (numWorkers n : Nat) (memory : Nat → Nat → Nat → Nat) :
    ForAct → ParallelFor → Option ParallelFor
  | .main, s => if s.worker 0 = .idle then s.mainStep numWorkers n memory else none
  | .popCall w, s =>
    if w < numWorkers ∧ s.worker w = .idle ∧ (w = 0 → s.main = .help) then
      (dequeStep (memory w) .cpxDequePop (s.deque w)).map fun deque =>
        { (s.setDeque w deque).setWorker w .pop with main := if w = 0 then .wait else s.main }
    else none
  | .popStep w, s =>
    if s.worker w = .pop then
      ((s.deque w).ownerStep (memory w)).map fun deque =>
        (s.setDeque w deque).setWorker w
          (afterFetch (s.deque w) deque .pop (OwnerPoint.isIdle deque.owner))
    else none
  | .stealCall w victim, s =>
    if w ≠ 0 ∧ w < numWorkers ∧ victim < numWorkers ∧
      victim ≠ w ∧ s.worker w = .idle then
      (dequeStep (memory victim) (.cpxDequeSteal w) (s.deque victim)).map fun deque =>
        (s.setDeque victim deque).setWorker w (.steal victim)
    else none
  | .stealStep w, s =>
    match s.worker w with
    | .steal victim =>
      ((s.deque victim).thiefStep w).map fun deque =>
        (s.setDeque victim deque).setWorker w
          (afterFetch (s.deque victim) deque (.steal victim) (ThiefPoint.isIdle (deque.thief w)))
    | _ => none
  | .run w, s => s.runStep w

end Casprix.Ml
