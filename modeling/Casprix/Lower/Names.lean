import Casprix.Frontend.Ast
import Casprix.Library.OverwriteMap

/-! What the lowering to the mid-level representation does to the names of a
program: the variable map, the loop targets, and the storage every variable is
given. The value ids of two functions overlap, so the allocations and bound
parameters are numbered here over the whole module. -/
namespace Casprix.Lower

open Frontend Library

/-- Where a variable lives. A name that denotes code or nothing has no storage. -/
inductive Storage where
  | slot (number : Nat)
  | global (name : String)
  | code
  | missing
  deriving DecidableEq, Repr

def Storage.isSlot : Storage → Bool
  | slot _ => true
  | _ => false

/-- `lower_variable`, the target of `lower_assignment`, and `lower_captured_addr`. -/
inductive UseKind where
  | read
  | assign
  | capture
  deriving DecidableEq, Repr

/-- A use of a name: the storage it was lowered to, and that of the innermost
declaration around it in the same function. -/
structure Use where
  kind : UseKind
  name : String
  used : Storage
  declared : Option Storage
  deriving DecidableEq, Repr

/-- A use reaches the storage of its declaration. Where the function declares
no variable of the name, it reaches no variable of a function. -/
def Use.Lexical (use : Use) : Prop :=
  match use.declared with
  | some (.slot number) => use.used = .slot number
  | some (.global name) => use.used = .global name
  | _ => use.used.isSlot = false

instance (use : Use) : Decidable use.Lexical := by
  unfold Use.Lexical
  split <;> infer_instance

/-- A `break` or `continue`: the function it stands in and the function of the block it names. -/
structure Jump where
  source : Nat
  target : Nat
  deriving DecidableEq, Repr

/-- What the analyzer has left in a lambda. -/
structure Closure where
  closureId : Nat
  capturedVars : List String
  hasMutableCapture : Bool
  deriving DecidableEq, Repr

/-- The symbol table that is left after the analysis, and what the analyzer has
found about the lambdas and the arguments of `dyn`, in the order of their lowering. -/
structure Findings where
  isFunction : String → Bool
  isGlobalVariable : String → Bool
  isClosureValue : String → Bool
  hasConstructor : String → Bool
  closures : Nat → Closure
  isReference : Nat → Bool

/-- Functions are numbered from one. `env` lists the declarations around the
current point in the function being lowered, the innermost first, and `nested`
tells of scopes within a function. `taken` lists the global variables given to
declarations of such scopes, and `overrun` tells of a loop that was entered
past the end of `loop_stack`. What stands here from `env` on is read by nothing. -/
structure MirLowerCtx where
  varMap : OverwriteMap String Nat := []
  func : Nat := 0
  terminated : Bool := false
  loopStack : List Nat := []
  loopDepth : Nat := 0
  loweringToplevel : Bool := false
  errorCount : Nat := 0
  lambdas : List Nat := []
  funcCount : Nat := 0
  slotCount : Nat := 0
  answered : Nat := 0
  env : List (String × Storage) := []
  nested : Bool := false
  uses : List Use := []
  jumps : List Jump := []
  taken : List String := []
  overrun : Bool := false
  deriving DecidableEq, Repr

/-- Every use reaches the storage of its innermost declaration, every jump
stays in its function, no inner declaration is given the storage of an outer
one, and `loop_stack` has room. -/
def MirLowerCtx.Lexical (ctx : MirLowerCtx) : Prop :=
  (∀ use ∈ ctx.uses, use.Lexical) ∧ (∀ jump ∈ ctx.jumps, jump.source = jump.target) ∧
    ctx.taken = [] ∧ ctx.overrun = false

instance (ctx : MirLowerCtx) : Decidable ctx.Lexical :=
  inferInstanceAs (Decidable (_ ∧ _ ∧ _))

/-- The length of `loop_stack`, which `lower_for` does not look at and
`lower_while` looks at in an assertion only. -/
def maxLoopDepth : Nat := 32

/-- Writes over the entry at the depth. -/
def pushLoop {α : Type} (stack : List α) (depth : Nat) (frame : α) : List α :=
  stack.take depth ++ frame :: stack.drop (depth + 1)

def variableName : Expr → Option String
  | .variable name _ => some name
  | _ => none

def isLambda : Expr → Bool
  | .lambda .. => true
  | _ => false

namespace MirLowerCtx

/-- `var_map_set` with a new slot. -/
def varMapSet (ctx : MirLowerCtx) (name : String) : MirLowerCtx :=
  { ctx with varMap := ctx.varMap.put name ctx.slotCount, slotCount := ctx.slotCount + 1 }

def declare (ctx : MirLowerCtx) (name : String) (storage : Storage) : MirLowerCtx :=
  { ctx with env := (name, storage) :: ctx.env }

/-- `lower_global_addr` goes by the name alone: at the top level a declaration
of an inner scope is given the global variable of its name, if there is one. -/
def declareGlobal (findings : Findings) (name : String) (ctx : MirLowerCtx) : MirLowerCtx :=
  { ctx.declare name (.global name) with
    taken := if ctx.nested ∧ findings.isGlobalVariable name then name :: ctx.taken
      else ctx.taken }

/-- A name that is declared where it is entered. -/
def bind (ctx : MirLowerCtx) (name : String) : MirLowerCtx :=
  (ctx.varMapSet name).declare name (.slot ctx.slotCount)

def bindAll (names : List String) (ctx : MirLowerCtx) : MirLowerCtx := names.foldl bind ctx

/-- The map comes first, then the table of the analyzer. -/
def resolve (findings : Findings) (ctx : MirLowerCtx) (kind : UseKind) (name : String) : Storage :=
  match ctx.varMap.get name with
  | some number => .slot number
  | none =>
    match kind with
    | .read =>
      if findings.isFunction name then .code
      else if findings.isGlobalVariable name then .global name
      else .missing
    | .assign => if findings.isGlobalVariable name then .global name else .missing
    | .capture => .missing

def use (findings : Findings) (kind : UseKind) (name : String) (ctx : MirLowerCtx) : MirLowerCtx :=
  { ctx with
    uses := ⟨kind, name, ctx.resolve findings kind name, ctx.env.lookup name⟩ :: ctx.uses }

def useAll (findings : Findings) (kind : UseKind) (names : List String) (ctx : MirLowerCtx) :
    MirLowerCtx :=
  names.foldl (fun ctx name => ctx.use findings kind name) ctx

/-- The next answer of the analyzer is used up. -/
def ask (ctx : MirLowerCtx) : MirLowerCtx := { ctx with answered := ctx.answered + 1 }

def addLambda (ctx : MirLowerCtx) (closureId : Nat) : MirLowerCtx :=
  { ctx with lambdas := closureId :: ctx.lambdas }

def addError (ctx : MirLowerCtx) : MirLowerCtx := { ctx with errorCount := ctx.errorCount + 1 }

def setTerminated (ctx : MirLowerCtx) (terminated : Bool) : MirLowerCtx :=
  { ctx with terminated := terminated }

/-- The builder moves on to a block that has no instructions yet. -/
def startBlock (ctx : MirLowerCtx) : MirLowerCtx := ctx.setTerminated false

/-- Both targets of a loop are blocks of the function being lowered. -/
def enterLoop (ctx : MirLowerCtx) : MirLowerCtx :=
  { ctx with
    loopStack := pushLoop ctx.loopStack ctx.loopDepth ctx.func
    loopDepth := ctx.loopDepth + 1
    overrun := ctx.overrun || decide (maxLoopDepth ≤ ctx.loopDepth) }

def leaveLoop (ctx : MirLowerCtx) : MirLowerCtx := { ctx with loopDepth := ctx.loopDepth - 1 }

/-- `break` and `continue`. Outside of a loop they leave nothing. -/
def jump (ctx : MirLowerCtx) : MirLowerCtx :=
  if ctx.loopDepth = 0 then ctx
  else
    { ctx with
      jumps := ⟨ctx.func, (ctx.loopStack[ctx.loopDepth - 1]?).getD 0⟩ :: ctx.jumps
      terminated := true }

def enterScope (ctx : MirLowerCtx) : MirLowerCtx := { ctx with nested := true }

def leaveScope (outer inner : MirLowerCtx) : MirLowerCtx :=
  { inner with env := outer.env, nested := outer.nested }

/-- The builder is set up in the entry block of a new function. -/
def enterFunction (ctx : MirLowerCtx) (loopDepth : Nat) : MirLowerCtx :=
  { ctx with
    func := ctx.funcCount + 1
    funcCount := ctx.funcCount + 1
    terminated := false
    loopDepth := loopDepth
    env := []
    nested := true }

/-- Restores what was saved: the builder, the number of entries and the loop depth. -/
def leaveFunction (outer inner : MirLowerCtx) (loopDepth : Nat) : MirLowerCtx :=
  { inner with
    varMap := inner.varMap.take outer.varMap.length
    func := outer.func
    terminated := outer.terminated
    loopDepth := loopDepth
    env := outer.env
    nested := outer.nested }

end MirLowerCtx

section

variable (findings : Findings)

mutual

/-- `lower_expr`. -/
def lowerExpr : Expr → MirLowerCtx → MirLowerCtx
  | .null, ctx | .literal .., ctx | .this, ctx | .super .., ctx | .genericInst _, ctx
  | .arrayLiteral _, ctx => ctx
  | .variable name _, ctx => ctx.use findings .read name
  | .binary _ left right, ctx => lowerExpr right (lowerExpr left ctx)
  | .unary _ operand, ctx => lowerExpr operand ctx
  | .call callee arguments, ctx =>
    if variableName callee = some "dyn" then
      if arguments.length = 1 ∧ findings.isReference ctx.answered then
        lowerExprs arguments ctx.ask
      else ctx.ask
    else if isLambda callee ∧ (findings.closures ctx.answered).capturedVars ≠ [] then
      lowerExprs arguments ((lowerExpr callee ctx).useAll findings .capture
        (findings.closures ctx.answered).capturedVars)
    else
      let lowered := lowerExprs arguments ctx
      if (variableName callee).any findings.isFunction then lowered
      else if (variableName callee).any findings.isClosureValue then
        lowerExprs arguments (lowerExpr callee lowered)
      else lowerExpr callee lowered
  | .memberAccess object _ isMethodCall arguments, ctx =>
    let lowered := lowerExpr object ctx
    if isMethodCall then lowerExprs arguments lowered else lowered
  | .staticAccess _ _ isMethodCall arguments, ctx =>
    if isMethodCall then lowerExprs arguments ctx else ctx
  | .new className arguments, ctx =>
    if findings.hasConstructor className then lowerExprs arguments ctx else ctx
  | .index array index, ctx => lowerExpr index (lowerExpr array ctx)
  | .lambda parameters _ isExpression exprBody blockBody, ctx =>
    let closure := findings.closures ctx.answered
    if closure.hasMutableCapture then ctx.ask.addError
    else if closure.closureId ∈ ctx.lambdas then
      ctx.ask.useAll findings .capture closure.capturedVars
    else
      let made := ctx.ask.addLambda closure.closureId
      let bound := (made.enterFunction made.loopDepth).bindAll
        (closure.capturedVars ++ parameters.map Parameter.name)
      let lowered :=
        if isExpression ∧ exprBody.isNull = false then lowerExpr exprBody bound
        else lowerStmt blockBody bound
      (made.leaveFunction lowered made.loopDepth).useAll findings .capture closure.capturedVars
  | .await expression, ctx => (lowerExpr expression ctx).startBlock

def lowerExprs : List Expr → MirLowerCtx → MirLowerCtx
  | [], ctx => ctx
  | expr :: rest, ctx => lowerExprs rest (lowerExpr expr ctx)

/-- `lower_stmt`. -/
def lowerStmt : Stmt → MirLowerCtx → MirLowerCtx
  | .declaration name _ initializer, ctx =>
    if ctx.loweringToplevel then (lowerExpr initializer ctx).declareGlobal findings name
    else (lowerExpr initializer (ctx.varMapSet name)).declare name (.slot ctx.slotCount)
  | .assignment (.variable name _) value, ctx =>
    lowerExpr value (ctx.use findings .assign name)
  | .assignment (.memberAccess object _ _ _) value, ctx => lowerExpr value (lowerExpr object ctx)
  | .assignment (.index array index) value, ctx =>
    lowerExpr value (lowerExpr index (lowerExpr array ctx))
  | .ifStmt condition thenBranch elseBranch, ctx =>
    let afterThen := lowerStmt thenBranch (lowerExpr condition ctx).startBlock
    (lowerStmt elseBranch afterThen.startBlock).startBlock
  | .whileStmt condition body, ctx =>
    let tested := lowerExpr condition ctx.enterLoop.startBlock
    (lowerStmt body tested.startBlock).leaveLoop.startBlock
  | .forStmt varName _ initializer condition increment body, ctx =>
    let started := match varName with
      | none => ctx.enterScope
      | some name => lowerExpr initializer (ctx.enterScope.bind name)
    let tested := lowerExpr condition started.enterLoop.startBlock
    let stepped := lowerStmt increment (lowerStmt body tested.startBlock).startBlock
    ctx.leaveScope stepped.leaveLoop.startBlock
  | .matchStmt subject arms, ctx => (lowerArms arms (lowerExpr subject ctx)).startBlock
  | .returnStmt value, ctx => (lowerExpr value ctx).setTerminated true
  | .breakStmt, ctx | .continueStmt, ctx => ctx.jump
  | .print expression, ctx | .exprStmt expression, ctx => lowerExpr expression ctx
  | .block statements, ctx => ctx.leaveScope (lowerStmts statements ctx.enterScope)
  | .function name parameters _ _ body, ctx =>
    let bound := (ctx.enterFunction 0).bindAll (parameters.map Parameter.name)
    (ctx.leaveFunction (lowerStmt body bound) ctx.loopDepth).declare name .code
  | _, ctx => ctx

/-- `lower_block` stops once the current block has its terminator. -/
def lowerStmts : List Stmt → MirLowerCtx → MirLowerCtx
  | [], ctx => ctx
  | statement :: rest, ctx =>
    let lowered := lowerStmt statement ctx
    if lowered.terminated then lowered else lowerStmts rest lowered

/-- The body of an arm starts in a block of its own. The block in which the
pattern of the next arm is lowered may have its terminator already. -/
def lowerArms : List MatchArm → MirLowerCtx → MirLowerCtx
  | [], ctx => ctx
  | .mk pattern body :: rest, ctx =>
    let lowered := lowerStmt body (lowerExpr pattern ctx).startBlock
    lowerArms rest (lowered.setTerminated pattern.isNull)

end

end

section

variable (findings : Findings)

/-- `mir_lower_function` at the top level, after `var_map_reset`. -/
def mirLowerFunction (parameters : List Parameter) (body : Stmt) (ctx : MirLowerCtx) :
    MirLowerCtx :=
  let bound := (ctx.enterFunction 0).bindAll (parameters.map Parameter.name)
  ctx.leaveFunction (lowerStmt findings body bound) ctx.loopDepth

/-- The loop depth is set back and not restored. A constructor without a body
only binds its parameters. -/
def lowerMethod (ctx : MirLowerCtx) : Method → MirLowerCtx
  | .mk _ parameters body =>
    if body.isNull then ctx
    else
      let bound := (ctx.enterFunction 0).bindAll ("this" :: parameters.map Parameter.name)
      let lowered := lowerStmt findings body bound
      ctx.leaveFunction lowered lowered.loopDepth

def lowerImplMethod (ctx : MirLowerCtx) : Stmt → MirLowerCtx
  | .function _ parameters _ _ body => mirLowerFunction findings parameters body ctx
  | _ => ctx

def varMapReset (ctx : MirLowerCtx) : MirLowerCtx := { ctx with varMap := [] }

def lowerDefinition (ctx : MirLowerCtx) : Stmt → MirLowerCtx
  | .function _ parameters _ _ body => mirLowerFunction findings parameters body (varMapReset ctx)
  | .classStmt _ _ _ methods => methods.foldl (lowerMethod findings) ctx
  | .impl methods => methods.foldl (lowerImplMethod findings) ctx
  | _ => ctx

def isToplevelCode : Stmt → Bool
  | .function .. | .classStmt .. | .impl _ | .externFunc _ | .struct _ | .enum _ | .union _
  | .trait .. | .include | .null => false
  | _ => true

/-- The statements outside of every definition make up a function of their own. -/
def lowerEntry (statements : List Stmt) (ctx : MirLowerCtx) : MirLowerCtx :=
  let toplevel := statements.filter isToplevelCode
  if toplevel = [] then ctx
  else
    let entered := { (varMapReset ctx).enterFunction ctx.loopDepth with
      loweringToplevel := true, nested := false }
    toplevel.foldl (fun ctx statement => lowerStmt findings statement ctx) entered

/-- `mir_lower_program`. -/
def mirLowerProgram (statements : List Stmt) : MirLowerCtx :=
  lowerEntry findings statements (statements.foldl (lowerDefinition findings) {})

end

end Casprix.Lower
