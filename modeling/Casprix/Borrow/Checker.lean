import Casprix.Library.Worklist
import Casprix.Mir.Basic

/-! The borrow checker: a forward analysis of moved values, a backward analysis
of live values, and one validation pass that reports errors against both. -/
namespace Casprix.Borrow

open Casprix.Mir Library

/-- A `bool` array with one entry for each value below `num_vals`. -/
abbrev ValueSet (numVals : Nat) := Fin numVals → Bool

namespace ValueSet

variable {numVals : Nat}

def empty : ValueSet numVals := fun _ => false

/-- An id beyond the array is in no set. -/
def mem (s : ValueSet numVals) (v : MirValueId) : Bool :=
  if h : v < numVals then s ⟨v, h⟩ else false

def add (s : ValueSet numVals) (v : MirValueId) : ValueSet numVals :=
  fun w => w.val == v || s w

def union (s t : ValueSet numVals) : ValueSet numVals := fun v => s v || t v

def unionAll (sets : List (ValueSet numVals)) : ValueSet numVals :=
  sets.foldl union empty

end ValueSet

inductive MirBorrowKind where
  | shared | mutable
  deriving DecidableEq, Repr

structure MirBorrow where
  borrowId : MirValueId
  sourceId : MirValueId
  kind : MirBorrowKind
  srcLine : Nat
  srcCol : Nat
  deriving DecidableEq, Repr

inductive MirBorrowErrorKind where
  | useAfterMove | doubleMove | borrowConflict | mutAlias
  deriving DecidableEq, Repr

structure MirBorrowError where
  kind : MirBorrowErrorKind
  message : String
  line : Nat
  col : Nat
  value : MirValueId
  conflicting : MirValueId
  deriving DecidableEq, Repr

structure MirBorrowChecker where
  borrows : List MirBorrow := []
  errors : List MirBorrowError := []
  deriving DecidableEq, Repr

/-- `MIR_MAX_BORROWS`. -/
def maxBorrows : Nat := 512

/-- `MIR_MAX_ERRORS`. -/
def maxErrors : Nat := 64

/-- Errors past the capacity of the array are dropped. -/
def emitError (bc : MirBorrowChecker) (error : MirBorrowError) : MirBorrowChecker :=
  if maxErrors ≤ bc.errors.length then bc else { bc with errors := bc.errors ++ [error] }

/-- Borrows past the capacity of the table are not tracked. -/
def trackBorrow (bc : MirBorrowChecker) (inst : MirInst) : MirBorrowChecker :=
  let track (kind : MirBorrowKind) (source : MirValueId) : MirBorrowChecker :=
    if maxBorrows ≤ bc.borrows.length then bc
    else { bc with borrows := bc.borrows ++
      [{ borrowId := inst.result, sourceId := source, kind := kind,
         srcLine := inst.srcLine, srcCol := inst.srcCol }] }
  match inst.op with
  | .transfer .borrow source => track .shared source
  | .transfer .borrowMut source => track .mutable source
  | _ => bc

def instUsesValue (inst : MirInst) (val : MirValueId) : Bool := inst.op.operands.contains val

section

variable (func : MirFunction)

abbrev Values := ValueSet func.nextValueId

/-- A `MIR_MOVE` marks its source; an id outside the array is skipped. -/
def markMove (moved : Values func) (inst : MirInst) : Values func :=
  match inst.op with
  | .transfer .move source =>
    if source ≠ 0 ∧ source < func.nextValueId then moved.add source else moved
  | _ => moved

/-- The values moved at the end of some listed predecessor. -/
def moveIn (out : Nat → Values func) (b : MirBlockId) : Values func :=
  ValueSet.unionAll ((func.predecessors b).map out)

def moveAnalysis : Dataflow (Values func) (Values func) where
  size := func.blocks.length
  transfer out b := (func.insts b).foldl (markMove func) (moveIn func out b)
  key := id
  dependents := func.successors

/-- `block_out` after the forward fixpoint. -/
def blockOut : Nat → Values func :=
  (moveAnalysis func).solve ValueSet.empty func.nextValueId

structure Liveness where
  liveIn : Values func
  liveOut : Values func

structure DefUse where
  defs : Values func
  uses : Values func

/-- One instruction of the def/use scan: its reads come before its result. -/
def markUses (acc : DefUse func) (inst : MirInst) : DefUse func :=
  let used := inst.op.operands.foldl (fun uses v =>
    if v ≠ 0 ∧ v < func.nextValueId ∧
      acc.defs.mem v = false then uses.add v else uses) acc.uses
  { defs := if inst.result ≠ 0 ∧ inst.result < func.nextValueId then acc.defs.add inst.result
      else acc.defs
    uses := used }

def defUse (b : MirBlockId) : DefUse func :=
  (func.insts b).foldl (markUses func) ⟨ValueSet.empty, ValueSet.empty⟩

def liveAnalysis : Dataflow (Liveness func) (Values func) where
  size := func.blocks.length
  transfer value b :=
    let liveOut := ValueSet.unionAll ((func.successors b).map fun s => (value s).liveIn)
    { liveIn := fun v => (liveOut v && !(defUse func b).defs v) || (defUse func b).uses v
      liveOut := liveOut }
  key := Liveness.liveIn
  dependents := func.predecessors

/-- `live_out` after the backward fixpoint. -/
def liveOut (b : MirBlockId) : Values func :=
  ((liveAnalysis func).solve ⟨ValueSet.empty, ValueSet.empty⟩ func.nextValueId b).liveOut

/-- Whether `val` is read later in the block, or live at its end. -/
def isLiveAfter (rest : List MirInst) (val : MirValueId) (live : Values func) : Bool :=
  if val = 0 ∨ func.nextValueId ≤ val then false
  else rest.any (instUsesValue · val) || live.mem val

/-- The message for a new borrow against an existing one of the same source. -/
def conflict? (newKind existing : MirBorrowKind) : Option (MirBorrowErrorKind × String) :=
  match newKind, existing with
  | .mutable, .mutable => some (.mutAlias, "cannot create second mutable borrow")
  | .mutable, .shared =>
    some (.borrowConflict, "cannot create mutable borrow while shared borrows exist")
  | .shared, .mutable =>
    some (.borrowConflict, "cannot create shared borrow while mutable borrow exists")
  | .shared, .shared => none

def checkBorrowConflicts (live : Values func) (inst : MirInst) (rest : List MirInst)
    (source : MirValueId) (newKind : MirBorrowKind) (bc : MirBorrowChecker) : MirBorrowChecker :=
  bc.borrows.foldl (fun bc existing =>
    let active := existing.borrowId == inst.result || instUsesValue inst existing.borrowId ||
      isLiveAfter func rest existing.borrowId live
    if existing.borrowId = inst.result ∨ active = false ∨ existing.sourceId ≠ source then bc
    else
      match conflict? newKind existing.kind with
      | some (kind, message) => emitError bc
          { kind := kind, message := message, line := inst.srcLine, col := inst.srcCol,
            value := inst.result, conflicting := existing.borrowId }
      | none => bc) bc

def borrowOperandMoved (moved : Values func) (inst : MirInst) (bc : MirBorrowChecker)
    (operand : MirValueId × String) : MirBorrowChecker :=
  if operand.1 ≠ 0 ∧ moved.mem operand.1 = true then
    emitError bc { kind := .useAfterMove, message := operand.2, line := inst.srcLine,
                   col := inst.srcCol, value := operand.1, conflicting := 0 }
  else bc

end

/-- The operands `borrow_check_inst_operands` walks, with the text of the error
each one raises. A `MIR_MOVE` is checked apart. -/
def checkedOperands : MirOp → List (MirValueId × String)
  | .binary _ lhs rhs =>
    [(lhs, "value used after move (lhs)"), (rhs, "value used after move (rhs)")]
  | .unary _ operand _ => [(operand, "value used after move (operand)")]
  | .load ptr => [(ptr, "value used after move (load ptr)")]
  | .store ptr value =>
    [(ptr, "value used after move (store ptr)"), (value, "value used after move (store val)")]
  | .getFieldPtr base _ index =>
    [(base, "value used after move (gep base)"), (index, "value used after move (gep index)")]
  | .getElemPtr base index =>
    [(base, "value used after move (gep base)"), (index, "value used after move (gep index)")]
  | .condbr cond _ _ => [(cond, "value used after move (cond)")]
  | .ret value => [(value, "value used after move (ret)")]
  | .switch discriminant _ _ => [(discriminant, "value used after move (switch)")]
  | .call _ args _ => args.map fun a => (a, "call argument used after move")
  | .callIndirect _ args callee =>
    (callee, "call target used after move") ::
      args.map fun a => (a, "call argument used after move")
  | .callVirtual selfObj _ args =>
    (selfObj, "vcall self used after move") :: args.map fun a => (a, "vcall arg used after move")
  | .phi edges => edges.map fun e => (e.value, "phi operand used after move")
  | .transfer .move _ => []
  | .transfer _ source => [(source, "transfer source used after move")]
  | .refop _ ptr => [(ptr, "ref op ptr used after move")]
  | .structInit fields => fields.map fun f => (f, "struct field used after move")
  | .extract aggregate _ => [(aggregate, "extract agg used after move")]
  | .insert aggregate _ insertVal =>
    [(aggregate, "insert agg used after move"), (insertVal, "insert val used after move")]
  | .suspend _ future => [(future, "suspend future used after move")]
  | .vec _ a b c _ _ =>
    [(a, "vec operand a used after move"), (b, "vec operand b used after move"),
     (c, "vec operand c used after move")]
  | _ => []

section

variable (func : MirFunction)

def borrowCheckInstOperands (moved : Values func) (inst : MirInst) (bc : MirBorrowChecker) :
    MirBorrowChecker :=
  (checkedOperands inst.op).foldl (borrowOperandMoved func moved inst) bc

/-- A second `MIR_MOVE` of one value is reported at the instruction. -/
def checkMove (moved : Values func) (inst : MirInst) (bc : MirBorrowChecker) : MirBorrowChecker :=
  match inst.op with
  | .transfer .move source =>
    if source ≠ 0 ∧ source < func.nextValueId ∧ moved.mem source = true then
      emitError bc { kind := .doubleMove, message := "value moved more than once",
                     line := inst.srcLine, col := inst.srcCol, value := source, conflicting := 0 }
    else bc
  | _ => bc

def checkBorrow (live : Values func) (inst : MirInst) (rest : List MirInst)
    (bc : MirBorrowChecker) : MirBorrowChecker :=
  match inst.op with
  | .transfer .borrow source => checkBorrowConflicts func live inst rest source .shared bc
  | .transfer .borrowMut source => checkBorrowConflicts func live inst rest source .mutable bc
  | _ => bc

/-- The checks of one instruction, in the order of the validation loop. -/
def validateInst (live moved : Values func) (inst : MirInst) (rest : List MirInst)
    (bc : MirBorrowChecker) : MirBorrowChecker :=
  checkBorrow func live inst rest
    (checkMove func moved inst (borrowCheckInstOperands func moved inst bc))

def validateInsts (live : Values func) (moved : Values func) :
    List MirInst → MirBorrowChecker → MirBorrowChecker
  | [], bc => bc
  | inst :: rest, bc =>
    validateInsts live (markMove func moved inst) rest (validateInst func live moved inst rest bc)

def validateBlock (bc : MirBorrowChecker) (b : MirBlockId) : MirBorrowChecker :=
  validateInsts func (liveOut func b) (moveIn func (blockOut func) b) (func.insts b) bc

/-- The number of errors found, and the checker with them recorded. -/
def mirBorrowCheckFunction (bc : MirBorrowChecker) : Nat × MirBorrowChecker :=
  if func.isExtern = true ∨ func.blocks = [] then (0, bc)
  else
    let reset : MirBorrowChecker := { bc with borrows := [] }
    let tracked := (func.blocks.flatMap (·.insts)).foldl trackBorrow reset
    let checked := (List.range func.blocks.length).foldl (validateBlock func) tracked
    (checked.errors.length - bc.errors.length, checked)

end

end Casprix.Borrow
