import Casprix.Frontend.Ast
import Casprix.Sema.Ownership

/-! The walk of the semantic analyzer over a program, with what it does to the
symbol table and to the move state. Its typing is a parameter: it only decides
here which subexpressions are visited. -/
namespace Casprix.Sema

open Frontend

def variableName : Expr → Option String
  | .variable name _ => some name
  | _ => none

/-- The variable a `move` expression names. -/
def movedName : Expr → Option String
  | .variable name true => some name
  | _ => none

mutual

def branchDiverges : Stmt → Bool
  | .returnStmt _ | .throwStmt _ | .breakStmt | .continueStmt => true
  | .block statements => anyDiverges statements
  | .ifStmt _ thenBranch elseBranch => branchDiverges thenBranch && branchDiverges elseBranch
  | .matchStmt _ arms => !arms.isEmpty && armsDiverge arms
  | _ => false

def anyDiverges : List Stmt → Bool
  | [] => false
  | statement :: rest => branchDiverges statement || anyDiverges rest

def armsDiverge : List MatchArm → Bool
  | [] => true
  | .mk _ body :: rest => branchDiverges body && armsDiverge rest

end

mutual

def exprHasMove : Expr → Bool
  | .variable _ isMove => isMove
  | .binary _ left right => exprHasMove left || exprHasMove right
  | .unary _ operand => exprHasMove operand
  | .call callee arguments => exprHasMove callee || anyHasMove arguments
  | .memberAccess object _ _ arguments => exprHasMove object || anyHasMove arguments
  | .index array index => exprHasMove array || exprHasMove index
  | .await expression => exprHasMove expression
  | .arrayLiteral elements => anyHasMove elements
  | _ => false

def anyHasMove : List Expr → Bool
  | [] => false
  | expr :: rest => exprHasMove expr || anyHasMove rest

end

mutual

def stmtHasMove : Stmt → Bool
  | .declaration _ _ initializer => exprHasMove initializer
  | .assignment target value => exprHasMove target || exprHasMove value
  | .print expression | .exprStmt expression | .returnStmt expression | .throwStmt expression =>
    exprHasMove expression
  | .ifStmt condition thenBranch elseBranch =>
    exprHasMove condition || stmtHasMove thenBranch || stmtHasMove elseBranch
  | .whileStmt condition body => exprHasMove condition || stmtHasMove body
  | .forStmt _ _ initializer condition increment body =>
    exprHasMove initializer || exprHasMove condition || stmtHasMove increment || stmtHasMove body
  | .forIn _ iterable body => exprHasMove iterable || stmtHasMove body
  | .block statements => anyStmtHasMove statements
  | .matchStmt subject arms => exprHasMove subject || armsHaveMove arms
  | _ => false

def anyStmtHasMove : List Stmt → Bool
  | [] => false
  | statement :: rest => stmtHasMove statement || anyStmtHasMove rest

def armsHaveMove : List MatchArm → Bool
  | [] => false
  | .mk _ body :: rest => stmtHasMove body || armsHaveMove rest

end

/-- A construct that is being analyzed: the counter it opened its scope with,
the table it found, and the declarations of its text so far. -/
structure Scope where
  depth : Nat
  entry : SymbolTable
  declared : List Symbol
  deriving DecidableEq, Repr

/-- The table with its depth counter, and the constructs open around it, the
innermost first. The code keeps no record of the constructs. -/
@[ext]
structure View where
  symbols : SymbolTable := []
  scopeDepth : Nat := 0
  scopes : List Scope := [⟨0, [], []⟩]
  deriving DecidableEq, Repr

inductive Event where
  | enter
  | enterOwn (binds bodyIsBlock : Bool)
  | declare (symbol : Symbol) (accepted : Bool)
  | addClass (symbol : Symbol) (parentName : Option String) (accepted : Bool)
  | skip (symbol found : Symbol)
  | leave
  deriving DecidableEq, Repr

structure Step where
  event : Event
  before : View
  after : View
  deriving DecidableEq, Repr

/-- `judged` counts the answers taken from the typing, `stopped` tells whether
anything was found in error or left out, a use of a moved value apart, and
`reports` lists the uses of moved values. -/
structure SemanticAnalyzer extends View where
  nextSymbol : Nat := 0
  inFunction : Bool := false
  inAsyncFunction : Bool := false
  moveState : OwnMoveState := []
  suppressDiagnostics : Bool := false
  judged : Nat := 0
  stopped : Bool := false
  reports : List String := []
  steps : List Step := []

/-- The first declaration of a name in a scope stands. -/
def Scope.declare (scope : Scope) (symbol : Symbol) : Scope :=
  if scope.declared.any fun declared => declared.name == symbol.name then scope
  else { scope with declared := symbol :: scope.declared }

def declareInnermost (scopes : List Scope) (symbol : Symbol) : List Scope :=
  match scopes with
  | [] => []
  | scope :: outer => scope.declare symbol :: outer

variable (analyzer : SemanticAnalyzer)

namespace SemanticAnalyzer

def step (event : Event) (view : View) : SemanticAnalyzer :=
  { analyzer with toView := view, steps := ⟨event, analyzer.toView, view⟩ :: analyzer.steps }

def stop : SemanticAnalyzer := { analyzer with stopped := true }

/-- The next answer of the typing is used up. -/
def judge : SemanticAnalyzer :=
  { analyzer with judged := analyzer.judged + 1 }

/-- `enter_scope` on the counter of the analyzer. -/
def enterScope : SemanticAnalyzer :=
  analyzer.step .enter
    { analyzer.toView with
      scopeDepth := analyzer.scopeDepth + 1
      scopes := ⟨analyzer.scopeDepth + 1, analyzer.symbols, []⟩ :: analyzer.scopes }

/-- `enter_scope` on a counter of the construct's own that starts at zero. -/
def enterOwnScope (binds bodyIsBlock : Bool) : SemanticAnalyzer :=
  analyzer.step (.enterOwn binds bodyIsBlock)
    { analyzer.toView with scopes := ⟨1, analyzer.symbols, []⟩ :: analyzer.scopes }

def exitScope : SemanticAnalyzer :=
  analyzer.step .leave
    { symbols := analyzer.symbols.exitScope analyzer.scopeDepth
      scopeDepth := analyzer.scopeDepth - 1
      scopes := analyzer.scopes.tail }

def exitOwnScope : SemanticAnalyzer :=
  analyzer.step .leave
    { analyzer.toView with
      symbols := analyzer.symbols.exitScope 1
      scopes := analyzer.scopes.tail }

/-- A declaration of the text, whose entry in the table is `table` when there is one. -/
def attempt (event : Event) (symbol : Symbol) (table : Option SymbolTable) : SemanticAnalyzer :=
  { analyzer.step event
      { analyzer.toView with
        symbols := table.getD analyzer.symbols
        scopes := declareInnermost analyzer.scopes symbol } with
    nextSymbol := analyzer.nextSymbol + 1 }

/-- `add_symbol` at a depth. -/
def declareAt (name : String) (kind : SymbolKind) (scopeDepth : Nat) : SemanticAnalyzer :=
  let symbol := ⟨analyzer.nextSymbol, name, kind, scopeDepth⟩
  let table := analyzer.symbols.addSymbol symbol
  { analyzer.attempt (.declare symbol table.isSome) symbol table with
    stopped := analyzer.stopped || table.isNone }

def declare (name : String) (kind : SymbolKind) : SemanticAnalyzer :=
  analyzer.declareAt name kind analyzer.scopeDepth

def addClass (name : String) (parentName : Option String) : SemanticAnalyzer :=
  let symbol := ⟨analyzer.nextSymbol, name, .class, analyzer.scopeDepth⟩
  let table := analyzer.symbols.addClass symbol parentName
  analyzer.attempt (.addClass symbol parentName table.isSome) symbol table

/-- A declaration that is taken for one entered before. -/
def skip (name : String) (kind : SymbolKind) (found : Symbol) : SemanticAnalyzer :=
  let symbol := ⟨analyzer.nextSymbol, name, kind, analyzer.scopeDepth⟩
  analyzer.attempt (.skip symbol found) symbol none

def addParameters (parameters : List Parameter) (analyzer : SemanticAnalyzer) :
    SemanticAnalyzer :=
  parameters.foldl (fun analyzer parameter => analyzer.declare parameter.name .parameter) analyzer

/-- Only a variable, a parameter or a function is read by its name. -/
def analyzeVariableExpr (name : String) : SemanticAnalyzer :=
  match analyzer.symbols.lookupSymbol name with
  | none => analyzer.stop
  | some symbol =>
    if analyzer.moveState.isMoved symbol then
      if analyzer.suppressDiagnostics then analyzer
      else { analyzer with reports := name :: analyzer.reports }
    else if symbol.kind = .class ∨ symbol.kind = .trait then analyzer.stop
    else analyzer

def markMoved (name : String) : SemanticAnalyzer :=
  match analyzer.symbols.lookupSymbol name with
  | none => analyzer
  | some symbol => { analyzer with moveState := analyzer.moveState.moveSet symbol }

/-- The value of a declaration or an assignment, when it is a `move` expression. -/
def markMovedValue (value : Expr) (analyzer : SemanticAnalyzer) : SemanticAnalyzer :=
  match movedName value with
  | none => analyzer
  | some name => analyzer.markMoved name

def ownershipResetFunction : SemanticAnalyzer :=
  { analyzer with moveState := [], suppressDiagnostics := false }

def validateScopeEnd : SemanticAnalyzer :=
  { analyzer with moveState := analyzer.moveState.forgetScope analyzer.scopeDepth }

def restore (snapshot : OwnMoveState) : SemanticAnalyzer :=
  { analyzer with moveState := snapshot }

/-- A branch that diverges does not reach the join. -/
def joinBranches (pre afterThen afterElse : OwnMoveState) (thenDiverges elseDiverges : Bool) :
    OwnMoveState :=
  match thenDiverges, elseDiverges with
  | true, true => pre
  | true, false => afterElse
  | false, true => afterThen
  | false, false => afterThen.mergeIntersect afterElse

/-- A silent pass over the body widens the loop head, and a second one reports. -/
def loopBodyFixpoint (hasMove : Bool) (body : SemanticAnalyzer → SemanticAnalyzer)
    (analyzer : SemanticAnalyzer) : SemanticAnalyzer :=
  if hasMove then
    let entry := analyzer.moveState
    let primed := body { analyzer with suppressDiagnostics := true }
    let final := body
      { primed with
        suppressDiagnostics := analyzer.suppressDiagnostics
        moveState := entry.mergeUnion primed.moveState }
    final.restore (entry.mergeUnion final.moveState)
  else body analyzer

/-- What a nested declaration of a function is taken for. -/
def existingFunction (table : SymbolTable) (name : String) : Option Symbol :=
  (table.lookupSymbol name).filter fun symbol => symbol.kind == .function

/-- Whether the declaration is entered, and whether its body is analyzed. -/
def registerFunction (name : String) : SemanticAnalyzer × Bool :=
  match existingFunction analyzer.symbols name with
  | some found => (analyzer.skip name .function found, true)
  | none =>
    (analyzer.declare name .function, !analyzer.symbols.redeclares name analyzer.scopeDepth)

def registerClass (name : String) (parentName : Option String) : SemanticAnalyzer × Bool :=
  match analyzer.symbols.lookupClass name with
  | some found => (analyzer.skip name .class found, true)
  | none =>
    let registered := analyzer.addClass name parentName
    (registered, (registered.symbols.lookupClass name).isSome)

/-- Structs, enums and unions share the names of the classes. -/
def registerType (name : String) : SemanticAnalyzer :=
  match (analyzer.symbols.lookupClass name).or (analyzer.symbols.lookupSymbol name) with
  | some found => analyzer.skip name .class found
  | none => analyzer.addClass name none

def registerTrait (name : String) : SemanticAnalyzer × Bool :=
  match analyzer.symbols.lookupTrait name, analyzer.symbols.lookupSymbol name with
  | some found, _ => (analyzer.skip name .trait found, true)
  | none, some found => (analyzer.skip name .trait found, false)
  | none, none =>
    let registered := analyzer.declare name .trait
    (registered, (registered.symbols.lookupTrait name).isSome)

end SemanticAnalyzer

section

variable (typing : Nat → Bool)

/-- What the analyzer does next depends on the types it has found. -/
def ifTyped (next : SemanticAnalyzer → SemanticAnalyzer) (analyzer : SemanticAnalyzer) :
    SemanticAnalyzer :=
  if typing analyzer.judged then next analyzer.judge else analyzer.judge.stop

/-- A member of a variable that names a class is a static member of the class. -/
def namesClass (object : Expr) : Bool :=
  (variableName object).any fun name => (analyzer.symbols.lookupClass name).isSome

mutual

def analyzeExpr : Expr → SemanticAnalyzer → SemanticAnalyzer
  | .null, analyzer | .literal .., analyzer | .this, analyzer | .genericInst _, analyzer => analyzer
  | .binary _ left right, analyzer =>
    if left.isNull || right.isNull then analyzer.stop
    else analyzeExpr right (analyzeExpr left analyzer)
  | .unary _ operand, analyzer => analyzeExpr operand analyzer
  | .variable name _, analyzer => analyzer.analyzeVariableExpr name
  | .call callee arguments, analyzer =>
    if callee.isNull then analyzer.stop
    else if variableName callee = some "dyn" then
      if arguments.length = 1 then analyzeExprs arguments analyzer else analyzer.stop
    else ifTyped typing (analyzeExprs arguments) (analyzeExpr callee analyzer)
  | .memberAccess object _ isMethodCall arguments, analyzer =>
    if object.isNull then analyzer.stop
    else if namesClass analyzer object then
      ifTyped typing (fun analyzer =>
        if isMethodCall then analyzeExprs arguments analyzer else analyzer) analyzer
    else
      -- a variable that named a class at an earlier visit is not looked up again
      ifTyped typing (fun analyzer =>
        ifTyped typing (fun analyzer =>
            if isMethodCall then analyzeArguments arguments analyzer else analyzer)
          (analyzeExpr object analyzer)) analyzer
  | .staticAccess className _ isMethodCall arguments, analyzer =>
    if (analyzer.symbols.lookupClass className).isSome then
      ifTyped typing (fun analyzer =>
        if isMethodCall then analyzeExprs arguments analyzer else analyzer) analyzer
    else analyzer.stop
  | .super _ isMethodCall arguments, analyzer =>
    ifTyped typing (fun analyzer =>
      if isMethodCall then analyzeExprs arguments analyzer else analyzer) analyzer
  | .new className arguments, analyzer =>
    if (analyzer.symbols.lookupClass className).isSome then
      ifTyped typing (analyzeExprs arguments) analyzer
    else analyzer.stop
  | .index array index, analyzer => analyzeExpr index (analyzeExpr array analyzer)
  | .lambda parameters _ isExpression exprBody blockBody, analyzer =>
    let entered := (analyzer.enterScope).addParameters parameters
    let inside := { entered with inFunction := true }
    let analyzed :=
      if isExpression then analyzeExpr exprBody inside else analyzeStmt blockBody inside
    { analyzed.exitScope with inFunction := analyzer.inFunction }
  | .await expression, analyzer =>
    if analyzer.inAsyncFunction then analyzeExpr expression analyzer else analyzer.stop
  | .arrayLiteral elements, analyzer => analyzeExprs elements analyzer

def analyzeExprs : List Expr → SemanticAnalyzer → SemanticAnalyzer
  | [], analyzer => analyzer
  | expr :: rest, analyzer => analyzeExprs rest (analyzeExpr expr analyzer)

/-- The arguments of a method call: the first that does not fit ends the walk over them. -/
def analyzeArguments : List Expr → SemanticAnalyzer → SemanticAnalyzer
  | [], analyzer => analyzer
  | expr :: rest, analyzer => ifTyped typing (analyzeArguments rest) (analyzeExpr expr analyzer)

def analyzeStmt : Stmt → SemanticAnalyzer → SemanticAnalyzer
  | .null, analyzer | .include, analyzer | .breakStmt, analyzer | .continueStmt, analyzer =>
    analyzer
  | .declaration name type initializer, analyzer =>
    let valued := (analyzeExpr initializer analyzer).markMovedValue initializer
    if type = .error ∧ initializer.isNull then valued.stop else valued.declare name .variable
  | .assignment target value, analyzer =>
    if target.isNull || value.isNull then analyzer.stop
    else (analyzeExpr value (analyzeExpr target analyzer)).markMovedValue value
  | .print expression, analyzer | .exprStmt expression, analyzer
  | .throwStmt expression, analyzer =>
    analyzeExpr expression analyzer
  | .ifStmt condition thenBranch elseBranch, analyzer =>
    if condition.isNull then analyzer.stop
    else
      let tested := analyzeExpr condition analyzer
      let afterThen := analyzeStmt thenBranch tested
      let afterElse := analyzeStmt elseBranch (afterThen.restore tested.moveState)
      afterElse.restore (SemanticAnalyzer.joinBranches tested.moveState afterThen.moveState
        afterElse.moveState (branchDiverges thenBranch) (branchDiverges elseBranch))
  | .forStmt varName _ initializer condition increment body, analyzer =>
    match varName with
    | none => analyzer.enterScope.stop.exitScope
    | some name =>
      let declared := analyzer.enterScope.declare name .variable
      let tested := analyzeExpr condition (analyzeExpr initializer declared)
      let stepped := analyzeStmt increment tested
      (stepped.loopBodyFixpoint (stmtHasMove body) (analyzeStmt body)).exitScope
  | .forIn varName iterable body, analyzer =>
    if iterable.isNull then analyzer.stop
    else
      let entered := (analyzeExpr iterable analyzer).enterOwnScope true body.isBody
      ((entered.declareAt varName .variable 1).loopBodyFixpoint (stmtHasMove body)
        (analyzeStmt body)).exitOwnScope
  | .whileStmt condition body, analyzer =>
    if condition.isNull then analyzer.stop
    else
      (analyzeExpr condition analyzer).loopBodyFixpoint (stmtHasMove body) (analyzeStmt body)
  | .function name parameters _ isAsync body, analyzer =>
    let (registered, goesOn) := analyzer.registerFunction name
    if goesOn then
      let entered := registered.enterScope.addParameters parameters
      let inside :=
        { entered.ownershipResetFunction with inFunction := true, inAsyncFunction := isAsync }
      let analyzed := (analyzeStmt body inside).validateScopeEnd
      { analyzed.exitScope with
        inFunction := analyzer.inFunction
        inAsyncFunction := analyzer.inAsyncFunction }
    else registered.stop
  | .returnStmt value, analyzer =>
    if analyzer.inFunction then analyzeExpr value analyzer else analyzer.stop
  | .block statements, analyzer =>
    ((analyzeStmts statements analyzer.enterScope).validateScopeEnd).exitScope
  | .classStmt name parentName defaultValues methods, analyzer =>
    let (registered, goesOn) := analyzer.registerClass name parentName
    if goesOn then analyzeMethods methods (analyzeExprs defaultValues registered)
    else registered.stop
  | .externFunc name, analyzer => analyzer.declare name .function
  | .struct name, analyzer | .enum name, analyzer | .union name, analyzer =>
    analyzer.registerType name
  | .tryStmt tryBody catches finallyBody, analyzer =>
    analyzeStmt finallyBody (analyzeCatches catches (analyzeStmt tryBody analyzer))
  | .matchStmt subject arms, analyzer =>
    if subject.isNull then analyzer.stop
    else
      let tested := analyzeExpr subject analyzer
      analyzeArms tested.moveState arms tested.moveState tested
  | .trait name methods, analyzer =>
    let (registered, goesOn) := analyzer.registerTrait name
    if goesOn then analyzeDefaultBodies methods registered else registered.stop
  | .impl methods, analyzer => analyzeStmts methods analyzer

def analyzeStmts : List Stmt → SemanticAnalyzer → SemanticAnalyzer
  | [], analyzer => analyzer
  | statement :: rest, analyzer => analyzeStmts rest (analyzeStmt statement analyzer)

/-- Every arm is analyzed from the state before the match; `acc` is what the
arms so far agree on. -/
def analyzeArms (pre : OwnMoveState) :
    List MatchArm → OwnMoveState → SemanticAnalyzer → SemanticAnalyzer
  | [], acc, analyzer => analyzer.restore acc
  | .mk pattern body :: rest, acc, analyzer =>
    let matched := analyzeStmt body ((analyzeExpr pattern analyzer).restore pre)
    analyzeArms pre rest
      (if branchDiverges body then acc else acc.mergeIntersect matched.moveState) matched

def analyzeCatches : List CatchClause → SemanticAnalyzer → SemanticAnalyzer
  | [], analyzer => analyzer
  | .mk exceptionVar body :: rest, analyzer =>
    let entered := analyzer.enterOwnScope exceptionVar.isSome body.isBody
    let bound := match exceptionVar with
      | none => entered
      | some name => entered.declareAt name .variable 1
    analyzeCatches rest (analyzeStmt body bound).exitOwnScope

def analyzeMethods : List Method → SemanticAnalyzer → SemanticAnalyzer
  | [], analyzer => analyzer
  | .mk _ parameters body :: rest, analyzer =>
    let entered := analyzer.enterScope.addParameters parameters
    let analyzed := analyzeStmt body { entered with inFunction := true }
    analyzeMethods rest { analyzed.exitScope with inFunction := analyzer.inFunction }

def analyzeDefaultBodies : List Method → SemanticAnalyzer → SemanticAnalyzer
  | [], analyzer => analyzer
  | .mk _ parameters body :: rest, analyzer =>
    if body.isNull then analyzeDefaultBodies rest analyzer
    else
      let entered := analyzer.enterScope.addParameters parameters
      let analyzed := analyzeStmt body { entered with inFunction := true }
      analyzeDefaultBodies rest { analyzed.exitScope with inFunction := analyzer.inFunction }

end

end

/-- The declarations of a program are entered before anything is analyzed. -/
def preregister (statement : Stmt) (analyzer : SemanticAnalyzer) : SemanticAnalyzer :=
  match statement with
  | .externFunc name | .function name .. => analyzer.declare name .function
  | .classStmt name parentName .. => analyzer.addClass name parentName
  | .struct name | .enum name | .union name => analyzer.addClass name none
  | .trait name _ => analyzer.declare name .trait
  | _ => analyzer

def analyzeProgram (typing : Nat → Bool) (statements : List Stmt) : SemanticAnalyzer :=
  let registered := statements.foldl (fun analyzer statement => preregister statement analyzer) {}
  (statements.filter fun statement => !statement.isExtern).foldl
    (fun analyzer statement => analyzeStmt typing statement analyzer) registered

end Casprix.Sema
