import Casprix.Library.Traversal
import Casprix.Mir.Path

/-! The verifier that runs between lowering and code generation. Each check
returns its diagnostics, and the number of errors is their number. -/
namespace Casprix.Mir

open List Library

namespace BinaryOp

/-- The number of the opcode. -/
def opcode : BinaryOp → Nat
  | add => 7 | sub => 8 | mul => 9 | div => 10 | mod => 11
  | fadd => 13 | fsub => 14 | fmul => 15 | fdiv => 16
  | band => 18 | bor => 19 | bxor => 20 | shl => 22 | shr => 23 | ushr => 24
  | cmpEq => 25 | cmpNe => 26 | cmpLt => 27 | cmpLe => 28 | cmpGt => 29 | cmpGe => 30
  | logicAnd => 31 | logicOr => 32

def isInteger : BinaryOp → Bool
  | add | sub | mul | div | mod | band | bor | bxor | shl | shr | ushr => true
  | _ => false

def isFloat : BinaryOp → Bool
  | fadd | fsub | fmul | fdiv => true
  | _ => false

end BinaryOp

def mirVerror (text : String) : String := "MIR_VERIFY: " ++ text

/-- An error that names the function first. -/
def verrorAt (func : MirFunction) (text : String) : String :=
  mirVerror ("@" ++ func.name ++ ": " ++ text)

section

variable (func : MirFunction)

def mirVidDefined (id : MirValueId) : Bool := id == 0 || id < func.nextValueId

def mirVerifyValueIdsOperand (id : MirValueId) (ctx : String) : List String :=
  let errorText (what : String) :=
    mirVerror ("function @" ++ func.name ++ ": " ++ what ++ " value %" ++ toString id ++
      " (" ++ ctx ++ ")")
  if id = 0 then []
  else if !mirVidDefined func id then [errorText "undefined SSA"]
  else if (func.valueType id).isNone then [errorText "missing type for"]
  else []

/-- The operands the verifier looks at and how it calls them. The callee of a
direct call is among them. -/
def operandChecks : MirOp → List (MirValueId × String)
  | .binary _ lhs rhs => [(lhs, "binary lhs"), (rhs, "binary rhs")]
  | .unary _ operand _ => [(operand, "unary")]
  | .load ptr => [(ptr, "load ptr")]
  | .store ptr value => [(ptr, "store ptr"), (value, "store val")]
  | .getFieldPtr base _ index => [(base, "gep base"), (index, "gep index")]
  | .getElemPtr base index => [(base, "gep base"), (index, "gep index")]
  | .condbr cond _ _ => [(cond, "cond")]
  | .ret value => [(value, "ret val")]
  | .switch discriminant _ _ => [(discriminant, "switch disc")]
  | .call _ args callee | .callIndirect _ args callee =>
    (callee, "call callee") :: args.map (·, "call arg")
  | .callVirtual selfObj _ args => (selfObj, "vcall self") :: args.map (·, "vcall arg")
  | .phi edges => edges.map fun e => (e.value, "phi edge")
  | .transfer _ source => [(source, "transfer src")]
  | .refop _ ptr => [(ptr, "refop ptr")]
  | .structInit fields => fields.map (·, "struct field")
  | .extract aggregate _ => [(aggregate, "extract agg")]
  | .insert aggregate _ insertVal => [(aggregate, "insert agg"), (insertVal, "insert val")]
  | .suspend _ future => [(future, "suspend future")]
  | .vec _ a b c _ _ => [(a, "vec a"), (b, "vec b"), (c, "vec c")]
  | _ => []

def mirVerifyInstValueIds (inst : MirInst) : List String :=
  (operandChecks inst.op).flatMap fun (id, ctx) => mirVerifyValueIdsOperand func id ctx

/-- Both operand types are known and one of them is not of the kind asked for. -/
def wrongOperands (isKind : MirType → Bool) (lhs rhs : MirValueId) : Bool :=
  match func.valueType lhs, func.valueType rhs with
  | some a, some b => !isKind a || !isKind b
  | _, _ => false

def mirVerifyInstTypes (inst : MirInst) : List String :=
  match inst.op with
  | .binary op lhs rhs =>
    if op.isInteger && wrongOperands func MirType.isInteger lhs rhs then
      [verrorAt func ("integer opcode " ++ toString op.opcode ++ " with non-integer operand type")]
    else if op.isFloat && wrongOperands func MirType.isFloat lhs rhs then
      [verrorAt func ("float opcode " ++ toString op.opcode ++ " with non-float operand type")]
    else []
  | .vec _ _ _ _ width laneType =>
    match laneType with
    | none => [verrorAt func "VEC_* missing lane_type or invalid width"]
    | some lane =>
      if width < 0 then [verrorAt func "VEC_* missing lane_type or invalid width"]
      else if !lane.isInteger && !lane.isFloat then
        [verrorAt func "VEC_* lane_type must be scalar primitive"]
      else []
  | _ => []

/-- The successors a terminator names, as far as the buffer of the walk has
room for them: the targets of a `MIR_SWITCH` stop at `cap`, and the default
is left out when they fill the buffer. -/
def mirCollectTermSuccs (cap : Nat) (term : Option MirInst) : List MirBlockId :=
  match term.map MirInst.op with
  | some (.br target) => target.toList
  | some (.condbr _ trueBb falseBb) => trueBb.toList ++ falseBb.toList
  | some (.switch _ cases defaultBb) =>
    let targets := (cases.filterMap (·.target)).take cap
    if targets.length < cap then targets ++ defaultBb.toList else targets
  | _ => []

/-- The successors the walk follows from block `b`. -/
def walkSuccs (b : MirBlockId) : List MirBlockId :=
  mirCollectTermSuccs 64 ((func.block? b).bind MirBlock.terminator)

def mirVerifyCfgReachable : List String :=
  let seen := (Traversal.search (walkSuccs func) func.blocks.length 0).seen
  func.blocks.zipIdx.flatMap fun (block, b) =>
    if (seen[b]?).getD false then []
    else [verrorAt func ("orphaned basic block bb" ++ toString b ++ " (" ++ block.label ++
      ") (not reachable from entry)")]

/-- PHIs come first and the terminator last. -/
def instOrder (b : MirBlockId) : Bool → List MirInst → List String
  | _, [] => []
  | pastPhis, inst :: rest =>
    (if inst.op.isPhi && pastPhis then
      [verrorAt func ("bb" ++ toString b ++ " has PHI after non-PHI instruction")] else []) ++
    (if inst.op.isTerminator && !rest.isEmpty then
      [verrorAt func ("bb" ++ toString b ++ " has instructions after terminator")] else []) ++
    instOrder b (pastPhis || !inst.op.isPhi) rest

def phiEdges (b : MirBlockId) (predCount : Nat) (inst : MirInst) : List String :=
  match inst.op with
  | .phi edges =>
    if edges.length = predCount then []
    else [verrorAt func ("bb" ++ toString b ++ " phi %" ++ toString inst.result ++ " has " ++
      toString edges.length ++ " edges but " ++ toString predCount ++ " predecessors")]
  | _ => []

def mirVerifyBlockShape (b : MirBlockId) (block : MirBlock) : List String :=
  (if block.isTerminated then []
    else [verrorAt func ("bb" ++ toString b ++ " (" ++ block.label ++ ") is not terminated")]) ++
  instOrder func b false block.insts ++
  block.phis.flatMap (phiEdges func b block.predecessors.length)

def mirVerifyInst (inst : MirInst) : List String :=
  mirVerifyInstValueIds func inst ++ mirVerifyInstTypes func inst

/-- The diagnostics of `mir_verify_function`, in order. -/
def mirVerifyFunction : List String :=
  if func.isExtern then []
  else if func.blocks = [] then [mirVerror ("function @" ++ func.name ++ " has no entry block")]
  else
    (if func.predecessors 0 = [] then []
      else [mirVerror ("function @" ++ func.name ++ " entry block has predecessors")]) ++
    (func.blocks.zipIdx.flatMap fun (block, b) =>
      mirVerifyBlockShape func b block ++ block.insts.flatMap (mirVerifyInst func)) ++
    mirVerifyCfgReachable func

end

section

variable {func : MirFunction} {b : MirBlockId} {block : MirBlock}

/-- What each block of an accepted function satisfies. -/
structure BlockAccepted (func : MirFunction) (b : MirBlockId) (block : MirBlock) : Prop where
  shape : mirVerifyBlockShape func b block = []
  insts : ∀ inst ∈ block.insts, mirVerifyInst func inst = []

theorem mem_zipIdx_blocks : (block, b) ∈ func.blocks.zipIdx ↔ func.block? b = some block :=
  mk_mem_zipIdx_iff_getElem?

theorem mirVerifyFunction_eq_nil_iff (hBody : func.isExtern = false) :
    mirVerifyFunction func = [] ↔ func.blocks ≠ [] ∧ func.predecessors 0 = [] ∧
      (∀ b block, func.block? b = some block → BlockAccepted func b block) ∧
      mirVerifyCfgReachable func = [] := by
  unfold mirVerifyFunction
  rw [hBody, if_neg Bool.false_ne_true]
  by_cases hBlocks : func.blocks = []
  · simp [hBlocks]
  · have hAll : (func.blocks.zipIdx.flatMap fun (block, b) =>
        mirVerifyBlockShape func b block ++ block.insts.flatMap (mirVerifyInst func)) = [] ↔
        ∀ b block, func.block? b = some block → BlockAccepted func b block := by
      rw [flatMap_eq_nil_iff]
      constructor
      · intro hNil b block hBlock
        have hBoth := append_eq_nil_iff.mp (hNil (block, b) (mem_zipIdx_blocks.mpr hBlock))
        exact ⟨hBoth.1, flatMap_eq_nil_iff.mp hBoth.2⟩
      · intro hAccepted entry hEntry
        have hOk := hAccepted entry.2 entry.1 (mem_zipIdx_blocks.mp hEntry)
        exact append_eq_nil_iff.mpr ⟨hOk.shape, flatMap_eq_nil_iff.mpr hOk.insts⟩
    rw [if_neg hBlocks, append_eq_nil_iff, append_eq_nil_iff, hAll]
    simp [hBlocks, and_assoc]

theorem rest_eq_nil_of_instOrder {pastPhis : Bool} {before rest : List MirInst} {inst : MirInst}
    (h : instOrder func b pastPhis (before ++ inst :: rest) = [])
    (hTerm : inst.op.isTerminator = true) : rest = [] := by
  induction before generalizing pastPhis with
  | nil =>
    by_contra hRest
    simp [instOrder, hTerm, hRest] at h
  | cons a before ih =>
    rw [cons_append, instOrder, append_eq_nil_iff] at h
    exact ih h.2

theorem BlockAccepted.terminates (h : BlockAccepted func b block) :
    (∃ term, block.insts.getLast? = some term ∧ term.op.isTerminator = true) ∧
      ∀ before inst rest, block.insts = before ++ inst :: rest → inst.op.isTerminator = true →
        rest = [] := by
  have hShape := h.shape
  rw [mirVerifyBlockShape, append_eq_nil_iff, append_eq_nil_iff] at hShape
  obtain ⟨⟨hEnds, hOrder⟩, _⟩ := hShape
  constructor
  · have hTerminated : block.isTerminated = true := by
      by_contra hNot
      simp [hNot] at hEnds
    unfold MirBlock.isTerminated MirBlock.terminator at hTerminated
    split at hTerminated
    · next term hLast => exact ⟨term, hLast, hTerminated⟩
    · cases hTerminated
  · intro before inst rest hInsts hTerm
    rw [hInsts] at hOrder
    exact rest_eq_nil_of_instOrder hOrder hTerm

/-- The walk finds the blocks reachable through the successors it collects. -/
theorem mirVerifyCfgReachable_eq_nil_iff (hBlocks : func.blocks ≠ []) :
    mirVerifyCfgReachable func = [] ↔ ∀ b, b < func.blocks.length →
      Traversal.Reaches (walkSuccs func) func.blocks.length 0 b := by
  have hEntry : 0 < func.blocks.length := length_pos_iff.mpr hBlocks
  unfold mirVerifyCfgReachable
  rw [flatMap_eq_nil_iff]
  constructor
  · intro hNil b hb
    have hMem := mem_zipIdx_blocks.mpr (getElem?_eq_getElem hb)
    rw [← Traversal.seen_search_iff hEntry]
    by_contra hUnseen
    have hReport := hNil _ hMem
    simp [hUnseen] at hReport
  · intro hReach entry hMem
    have hb := (List.getElem?_eq_some_iff.mp (mem_zipIdx_blocks.mp hMem)).1
    simp [(Traversal.seen_search_iff hEntry).mpr (hReach entry.2 hb)]

end

end Casprix.Mir
