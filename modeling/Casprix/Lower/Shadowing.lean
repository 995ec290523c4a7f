import Casprix.Lower.Names

/-! Which names a program lets go astray, read off its text alone. An entry of
the variable map goes stale when it is written over for an inner declaration
and the scope of that declaration is left. At the top level a declaration of an
inner scope must not have the name of a global variable. -/
namespace Casprix.Lower

open Frontend

/-- What a declaration makes of its name. -/
inductive Place where
  | slot
  | global
  | code
  deriving DecidableEq, Repr

/-- `mapped` lists the names with an entry in the variable map and `stale` those
whose entry is not the one of their innermost declaration. `touched` and
`pushed` list the names and the loop levels entered since the construct at hand
began. A loop level is the function's own when one of its loops stands there. -/
structure Walk where
  mapped : List String := []
  stale : List String := []
  touched : List String := []
  env : List (String × Place) := []
  nested : Bool := false
  terminated : Bool := false
  loops : List Bool := []
  pushed : List Nat := []
  loopDepth : Nat := 0
  loweringToplevel : Bool := false
  lambdas : List Nat := []
  answered : Nat := 0
  ok : Bool := true
  deriving DecidableEq, Repr

namespace Walk

variable (walk : Walk)

def enter (name : String) : Walk :=
  { walk with
    mapped := if name ∈ walk.mapped then walk.mapped else walk.mapped ++ [name]
    stale := name :: walk.stale
    touched := name :: walk.touched }

def declare (name : String) (place : Place) : Walk :=
  { walk with env := (name, place) :: walk.env }

def declareGlobal (findings : Findings) (name : String) (walk : Walk) : Walk :=
  { walk.declare name .global with
    ok := walk.ok && !(walk.nested && findings.isGlobalVariable name) }

/-- The entry of the name is that of its new declaration. -/
def settle (name : String) : Walk :=
  { walk.declare name .slot with stale := walk.stale.filter (· ≠ name) }

def bind (name : String) : Walk := (walk.enter name).settle name

def bindAll (names : List String) (walk : Walk) : Walk := names.foldl bind walk

/-- The use does not reach the storage of the innermost declaration. -/
def misses (findings : Findings) (walk : Walk) (kind : UseKind) (name : String) : Bool :=
  match walk.env.lookup name with
  | some .slot => name ∈ walk.stale
  | some .global =>
    match kind with
    | .read => name ∈ walk.mapped ∨ findings.isFunction name ∨
      ¬findings.isGlobalVariable name
    | .assign => name ∈ walk.mapped ∨ ¬findings.isGlobalVariable name
    | .capture => true
  | _ => name ∈ walk.mapped

def use (findings : Findings) (kind : UseKind) (name : String) (walk : Walk) : Walk :=
  { walk with ok := walk.ok && !walk.misses findings kind name }

def useAll (findings : Findings) (kind : UseKind) (names : List String) (walk : Walk) : Walk :=
  names.foldl (fun walk name => walk.use findings kind name) walk

def ask : Walk := { walk with answered := walk.answered + 1 }

def addLambda (closureId : Nat) : Walk :=
  { walk with lambdas := closureId :: walk.lambdas }

def setTerminated (terminated : Bool) : Walk := { walk with terminated := terminated }

def startBlock : Walk := walk.setTerminated false

def enterLoop : Walk :=
  { walk with
    loops := pushLoop walk.loops walk.loopDepth true
    pushed := walk.loopDepth :: walk.pushed
    loopDepth := walk.loopDepth + 1
    ok := walk.ok && decide (walk.loopDepth < maxLoopDepth) }

def leaveLoop : Walk := { walk with loopDepth := walk.loopDepth - 1 }

def jump (walk : Walk) : Walk :=
  if walk.loopDepth = 0 then walk
  else
    { walk with
      ok := walk.ok && (walk.loops[walk.loopDepth - 1]?).getD false
      terminated := true }

/-- Nothing has been entered yet in the construct that begins. -/
def unmarked : Walk := { walk with touched := [] }

def enterScope : Walk := { walk.unmarked with nested := true }

/-- The names entered in a scope are stale for the declarations around it. -/
def leaveScope (outer inner : Walk) : Walk :=
  { inner with
    env := outer.env
    nested := outer.nested
    stale := inner.touched ++ outer.stale
    touched := inner.touched ++ outer.touched }

def enterFunction (loopDepth : Nat) : Walk :=
  { walk with
    stale := []
    touched := []
    env := []
    nested := true
    terminated := false
    loops := walk.loops.map fun _ => false
    pushed := []
    loopDepth := loopDepth }

/-- The entries a function adds are dropped with it, and those it writes over stay. -/
def leaveFunction (outer inner : Walk) (loopDepth : Nat) : Walk :=
  let written := inner.touched.filter (· ∈ outer.mapped)
  { inner with
    mapped := outer.mapped
    stale := written ++ outer.stale
    touched := written ++ outer.touched
    env := outer.env
    nested := outer.nested
    terminated := outer.terminated
    loops := inner.loops.mapIdx fun i _ => (outer.loops[i]?).getD false && i ∉ inner.pushed
    pushed := inner.pushed ++ outer.pushed
    loopDepth := loopDepth }

/-- A declaration enters its name before its initializer is lowered, and the
name is declared after it. -/
def leaveInitializer (outer inner : Walk) (name : String) : Walk :=
  let settled := if name ∈ inner.touched then
      { inner.declare name .slot with stale := name :: inner.stale }
    else inner.settle name
  { settled with touched := inner.touched ++ name :: outer.touched }

end Walk

section

variable (findings : Findings)

mutual

def walkExpr : Expr → Walk → Walk
  | .null, walk | .literal .., walk | .this, walk | .super .., walk | .genericInst _, walk
  | .arrayLiteral _, walk => walk
  | .variable name _, walk => walk.use findings .read name
  | .binary _ left right, walk => walkExpr right (walkExpr left walk)
  | .unary _ operand, walk => walkExpr operand walk
  | .call callee arguments, walk =>
    if variableName callee = some "dyn" then
      if arguments.length = 1 ∧ findings.isReference walk.answered then
        walkExprs arguments walk.ask
      else walk.ask
    else if isLambda callee ∧ (findings.closures walk.answered).capturedVars ≠ [] then
      walkExprs arguments ((walkExpr callee walk).useAll findings .capture
        (findings.closures walk.answered).capturedVars)
    else
      let walked := walkExprs arguments walk
      if (variableName callee).any findings.isFunction then walked
      else if (variableName callee).any findings.isClosureValue then
        walkExprs arguments (walkExpr callee walked)
      else walkExpr callee walked
  | .memberAccess object _ isMethodCall arguments, walk =>
    let walked := walkExpr object walk
    if isMethodCall then walkExprs arguments walked else walked
  | .staticAccess _ _ isMethodCall arguments, walk =>
    if isMethodCall then walkExprs arguments walk else walk
  | .new className arguments, walk =>
    if findings.hasConstructor className then walkExprs arguments walk else walk
  | .index array index, walk => walkExpr index (walkExpr array walk)
  | .lambda parameters _ isExpression exprBody blockBody, walk =>
    let closure := findings.closures walk.answered
    if closure.hasMutableCapture then walk.ask
    else if closure.closureId ∈ walk.lambdas then
      walk.ask.useAll findings .capture closure.capturedVars
    else
      let made := walk.ask.addLambda closure.closureId
      let bound := (made.enterFunction made.loopDepth).bindAll
        (closure.capturedVars ++ parameters.map Parameter.name)
      let walked :=
        if isExpression ∧ exprBody.isNull = false then walkExpr exprBody bound
        else walkStmt blockBody bound
      (made.leaveFunction walked made.loopDepth).useAll findings .capture closure.capturedVars
  | .await expression, walk => (walkExpr expression walk).startBlock

def walkExprs : List Expr → Walk → Walk
  | [], walk => walk
  | expr :: rest, walk => walkExprs rest (walkExpr expr walk)

def walkStmt : Stmt → Walk → Walk
  | .declaration name _ initializer, walk =>
    if walk.loweringToplevel then (walkExpr initializer walk).declareGlobal findings name
    else walk.leaveInitializer (walkExpr initializer (walk.enter name).unmarked) name
  | .assignment (.variable name _) value, walk => walkExpr value (walk.use findings .assign name)
  | .assignment (.memberAccess object _ _ _) value, walk => walkExpr value (walkExpr object walk)
  | .assignment (.index array index) value, walk =>
    walkExpr value (walkExpr index (walkExpr array walk))
  | .ifStmt condition thenBranch elseBranch, walk =>
    let afterThen := walkStmt thenBranch (walkExpr condition walk).startBlock
    (walkStmt elseBranch afterThen.startBlock).startBlock
  | .whileStmt condition body, walk =>
    let tested := walkExpr condition walk.enterLoop.startBlock
    (walkStmt body tested.startBlock).leaveLoop.startBlock
  | .forStmt varName _ initializer condition increment body, walk =>
    let started := match varName with
      | none => walk.enterScope
      | some name => walkExpr initializer (walk.enterScope.bind name)
    let tested := walkExpr condition started.enterLoop.startBlock
    let stepped := walkStmt increment (walkStmt body tested.startBlock).startBlock
    walk.leaveScope stepped.leaveLoop.startBlock
  | .matchStmt subject arms, walk => (walkArms arms (walkExpr subject walk)).startBlock
  | .returnStmt value, walk => (walkExpr value walk).setTerminated true
  | .breakStmt, walk | .continueStmt, walk => walk.jump
  | .print expression, walk | .exprStmt expression, walk => walkExpr expression walk
  | .block statements, walk => walk.leaveScope (walkStmts statements walk.enterScope)
  | .function name parameters _ _ body, walk =>
    let bound := (walk.enterFunction 0).bindAll (parameters.map Parameter.name)
    (walk.leaveFunction (walkStmt body bound) walk.loopDepth).declare name .code
  | _, walk => walk

def walkStmts : List Stmt → Walk → Walk
  | [], walk => walk
  | statement :: rest, walk =>
    let walked := walkStmt statement walk
    if walked.terminated then walked else walkStmts rest walked

def walkArms : List MatchArm → Walk → Walk
  | [], walk => walk
  | .mk pattern body :: rest, walk =>
    let walked := walkStmt body (walkExpr pattern walk).startBlock
    walkArms rest (walked.setTerminated pattern.isNull)

end

def walkFunction (parameters : List Parameter) (body : Stmt) (walk : Walk) : Walk :=
  let bound := (walk.enterFunction 0).bindAll (parameters.map Parameter.name)
  walk.leaveFunction (walkStmt findings body bound) walk.loopDepth

def walkMethod (walk : Walk) : Method → Walk
  | .mk _ parameters body =>
    if body.isNull then walk
    else
      let bound := (walk.enterFunction 0).bindAll ("this" :: parameters.map Parameter.name)
      let walked := walkStmt findings body bound
      walk.leaveFunction walked walked.loopDepth

def walkImplMethod (walk : Walk) : Stmt → Walk
  | .function _ parameters _ _ body => walkFunction findings parameters body walk
  | _ => walk

def Walk.reset (walk : Walk) : Walk := { walk with mapped := [] }

def walkDefinition (walk : Walk) : Stmt → Walk
  | .function _ parameters _ _ body => walkFunction findings parameters body walk.reset
  | .classStmt _ _ _ methods => methods.foldl (walkMethod findings) walk
  | .impl methods => methods.foldl (walkImplMethod findings) walk
  | _ => walk

def walkEntry (statements : List Stmt) (walk : Walk) : Walk :=
  let toplevel := statements.filter isToplevelCode
  if toplevel = [] then walk
  else
    let entered := { walk.reset.enterFunction walk.loopDepth with
      loweringToplevel := true, nested := false }
    toplevel.foldl (fun walk statement => walkStmt findings statement walk) entered

/-- No use of a stale name, no use of a name the map or the table lacks, no
jump to a loop level of another function, no inner declaration at the top level
of a global variable's name, and no loop within 32 others. -/
def keepsNames (statements : List Stmt) : Bool :=
  (walkEntry findings statements (statements.foldl (walkDefinition findings) {})).ok

end

end Casprix.Lower
