import Casprix.Library.DominatorTree
import Casprix.Library.PostOrder
import Casprix.Mir.Verify

/-! Dominators by iteration over the blocks in reverse post-order. -/
namespace Casprix.Mem2reg

open Library Mir Function

/-- `MAX_BLOCKS`. -/
def maxBlocks : Nat := 4096

def dfsPostOrder (func : MirFunction) (fuel : Nat) (bb : MirBlockId)
    (order : PostOrder MirBlockId) :
    Option (PostOrder MirBlockId) :=
  PostOrder.search func.successors fuel bb order

/-- `none` where the fuel ends, or a block is outside the tables. -/
def computeRpo (func : MirFunction) (fuel : Nat) : Option (List MirBlockId) :=
  match func.blocks with
  | [] => some []
  | _ :: _ =>
    (dfsPostOrder func fuel 0 PostOrder.start).bind fun order =>
      if order.nodes.all (· < maxBlocks) then some order.nodes.reverse else none

/-- `RpoIndexMap`. -/
def rpoIndexMap (rpo : List MirBlockId) : MirBlockId → Int :=
  rpo.zipIdx.foldl (fun data (bb, i) => update data bb (i : Int)) fun _ => -1

section

variable (data : MirBlockId → Int) (idom : MirBlockId → Option MirBlockId)

/-- One of the inner loops of `intersect`. `none` where the fuel ends or a block has no `idom`. -/
def climb (bound : Int) : Nat → MirBlockId → Option MirBlockId
  | 0, _ => none
  | fuel + 1, b => if data b > bound then (idom b).bind (climb bound fuel) else some b

def intersect : Nat → MirBlockId → MirBlockId → Option MirBlockId
  | 0, _, _ => none
  | fuel + 1, b1, b2 =>
    if b1 = b2 then some b1
    else
      (climb data idom (data b2) fuel b1).bind fun b1 =>
        (climb data idom (data b1) fuel b2).bind fun b2 => intersect fuel b1 b2

/-- Intersects with one more predecessor, if it is processed. -/
def intersectPred (fuel : Nat) (newIdom pred : MirBlockId) : Option MirBlockId :=
  if pred = newIdom then some newIdom
  else if (idom pred).isSome then intersect data idom fuel pred newIdom
  else some newIdom

/-- The `new_idom` of a block, which is null where no predecessor is processed. -/
def newIdom (func : MirFunction) (fuel : Nat) (bb : MirBlockId) : Option (Option MirBlockId) :=
  match (func.predecessors bb).find? fun pred => (idom pred).isSome with
  | none => some none
  | some first => ((func.predecessors bb).foldlM (intersectPred data idom fuel) first).map some

end

structure Round where
  idom : MirBlockId → Option MirBlockId
  changed : Bool

def Round.visit (func : MirFunction) (data : MirBlockId → Int) (fuel : Nat) (round : Round)
    (bb : MirBlockId) : Option Round :=
  (newIdom data round.idom func fuel bb).map fun
    | none => round
    | some n =>
      if round.idom bb ≠ some n then { idom := update round.idom bb (some n), changed := true }
      else round

/-- `while (changed)`. -/
def iterate (func : MirFunction) (data : MirBlockId → Int) (fuel : Nat)
    (blocks : List MirBlockId) :
    Nat → (MirBlockId → Option MirBlockId) → Option (MirBlockId → Option MirBlockId)
  | 0, _ => none
  | rounds + 1, idom =>
    (blocks.foldlM (Round.visit func data fuel) { idom, changed := false }).bind fun round =>
      if round.changed then iterate func data fuel blocks rounds round.idom else some round.idom

/-- The fields that the pass writes in each block. -/
structure DomTree where
  idom : MirBlockId → Option MirBlockId
  domChildren : MirBlockId → List MirBlockId

def addChild (idom : MirBlockId → Option MirBlockId) (children : MirBlockId → List MirBlockId)
    (bb : MirBlockId) : MirBlockId → List MirBlockId :=
  match idom bb with
  | some parent =>
    if parent = bb then children else update children parent (children parent ++ [bb])
  | none => children

/-- Sets a field of the blocks in a list. -/
def resetAll {α : Type} (value : α) (blocks : List MirBlockId) (field : MirBlockId → α) :
    MirBlockId → α :=
  blocks.foldl (fun field bb => update field bb value) field

/-- The fields after the pass, from those before it. `none` where the fuel ends. -/
def mirComputeDominators (func : MirFunction) (fuel : Nat) (before : DomTree) : Option DomTree :=
  (computeRpo func fuel).bind fun
    | [] => some before
    | entry :: rest =>
      let start := update (resetAll none (entry :: rest) before.idom) entry (some entry)
      (iterate func (rpoIndexMap (entry :: rest)) fuel rest fuel start).map fun idom =>
        { idom
          domChildren := rest.foldl (addChild idom) (resetAll []
            (entry :: rest) before.domChildren) }

end Casprix.Mem2reg
