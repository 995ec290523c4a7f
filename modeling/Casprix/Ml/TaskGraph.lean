import Casprix.Library.Machine

/-! The task graph of the scheduler and its run, with one atomic access in each step.
A deque is the bag of the tasks it stores, which the steps of `DequeState` refine: a
pop or steal that returns takes one of them, and any may come back empty. What a
node's function does is left open. -/
namespace Casprix.Ml

open Function

/-- The nodes are numbered in the order in which they are added. -/
structure CpxTaskGraph where
  numNodes : Nat
  successors : Nat → List Nat
  depCount : Nat → Int

def schedMaxDeps : Nat := 8

def cpxTaskgraphInit : CpxTaskGraph where
  numNodes := 0
  successors := fun _ => []
  depCount := fun _ => 0

def cpxTaskgraphAdd (maxNodes : Nat) (g : CpxTaskGraph) : Option CpxTaskGraph :=
  if g.numNodes < maxNodes then
    some { numNodes := g.numNodes + 1
           successors := update g.successors g.numNodes []
           depCount := update g.depCount g.numNodes 0 }
  else none

/-- A dependency between two nodes that were added. Its assertion bounds the successors. -/
def cpxTaskgraphDepend (pred succ : Nat) (g : CpxTaskGraph) : Option CpxTaskGraph :=
  if pred < g.numNodes ∧ succ < g.numNodes ∧ (g.successors pred).length < schedMaxDeps then
    some { g with
      successors := update g.successors pred (g.successors pred ++ [succ])
      depCount := update g.depCount succ (g.depCount succ + 1) }
  else none

inductive GraphCall
  | add
  | depend (pred succ : Nat)
  deriving DecidableEq, Repr

def graphCall (maxNodes : Nat) : GraphCall → CpxTaskGraph → Option CpxTaskGraph
  | .add, g => cpxTaskgraphAdd maxNodes g
  | .depend pred succ, g => cpxTaskgraphDepend pred succ g

/-- Where a thread stands that executes `graph_task_wrapper` for a node. -/
inductive RunPoint
  | idle
  | call (node : Nat)
  | body (node : Nat)
  | successor (node i : Nat)
  | alloc (node i succ : Nat)
  | push (node i succ : Nat)
  | countDown (node : Nat)
  | release
  deriving DecidableEq, Repr

/-- Where `cpx_taskgraph_run` stands: in its submission loop, in its helping loop, or
at the end. A task that it helps with is executed by thread 0. -/
inductive GraphRunPoint
  | scan (i : Nat)
  | alloc (i : Nat)
  | push (i : Nat)
  | wait
  | help
  | returned
  deriving DecidableEq, Repr

/-- A run of the graph. A queued task stands with the number of its deque, `started`
lists the nodes whose function was called and `finished` those whose function returned. -/
structure GraphRun where
  depCount : Nat → Int
  graphDone : Int
  freeTasks : Nat
  queued : List (Nat × Nat)
  main : GraphRunPoint
  thread : Nat → RunPoint
  started : List Nat
  finished : List Nat

/-- The call of `cpx_taskgraph_run` while nothing else is scheduled. -/
def cpxTaskgraphRun (g : CpxTaskGraph) (freeTasks : Nat) : GraphRun where
  depCount := g.depCount
  graphDone := g.numNodes
  freeTasks := freeTasks
  queued := []
  main := .scan 0
  thread := fun _ => .idle
  started := []
  finished := []

namespace GraphRun

def setThread (s : GraphRun) (w : Nat) (point : RunPoint) : GraphRun :=
  { s with thread := update s.thread w point }

/-- The next step of `cpx_taskgraph_run` outside of the tasks it helps with. -/
def mainStep (g : CpxTaskGraph) (s : GraphRun) : Option GraphRun :=
  match s.main with
  | .scan i =>
    if i < g.numNodes then
      if s.depCount i = 0 then some { s with main := .alloc i }
      else some { s with main := .scan (i + 1) }
    else some { s with main := .wait }
  | .alloc i =>
    -- Without a free task the node is passed over.
    if s.freeTasks = 0 then some { s with main := .scan (i + 1) }
    else some { s with freeTasks := s.freeTasks - 1, main := .push i }
  | .push i => some { s with queued := s.queued ++ [(0, i)], main := .scan (i + 1) }
  | .wait => if s.graphDone > 0 then some { s with main := .help } else some
    { s with main := .returned }
  | .help => some { s with main := .wait }
  | .returned => none

/-- The next step of a thread that executes a task. -/
def runStep (g : CpxTaskGraph) (w : Nat) (s : GraphRun) : Option GraphRun :=
  match s.thread w with
  | .idle => none
  | .call node => some { s.setThread w (.body node) with started := s.started ++ [node] }
  | .body node => some { s.setThread w (.successor node 0) with finished := s.finished ++ [node] }
  | .successor node i =>
    match (g.successors node)[i]? with
    | none => some (s.setThread w (.countDown node))
    | some succ =>
      let point : RunPoint :=
        if s.depCount succ - 1 = 0 then .alloc node i succ else .successor node (i + 1)
      some { s.setThread w point with
        depCount := update s.depCount succ (s.depCount succ - 1) }
  | .alloc node i succ =>
    if s.freeTasks = 0 then some (s.setThread w (.successor node (i + 1)))
    else some { s.setThread w (.push node i succ) with freeTasks := s.freeTasks - 1 }
  | .push node i succ =>
    some { s.setThread w (.successor node (i + 1)) with queued := s.queued ++ [(w, succ)] }
  | .countDown _ => some { s.setThread w .release with graphDone := s.graphDone - 1 }
  | .release => some { s.setThread w .idle with freeTasks := s.freeTasks + 1 }

end GraphRun

/-- What a schedule can choose. A thread takes a task from its own deque or from
another's, thread 0 only in its helping loop. -/
inductive GraphAct
  | main
  | take (w deque node : Nat)
  | run (w : Nat)
  deriving DecidableEq, Repr

def graphStep (g : CpxTaskGraph) : GraphAct → GraphRun → Option GraphRun
  | .main, s => if s.thread 0 = .idle then s.mainStep g else none
  | .take w deque node, s =>
    if s.thread w = .idle ∧ (deque, node) ∈ s.queued ∧ (w = 0 → s.main = .help) then
      some { s.setThread w (.call node) with
        queued := s.queued.erase (deque, node)
        main := if w = 0 then .wait else s.main }
    else none
  | .run w, s => s.runStep g w

end Casprix.Ml
