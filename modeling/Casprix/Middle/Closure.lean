import Mathlib.Data.List.Nodup
import Casprix.Frontend.Ast
import Casprix.Sema.Symtable

/-! The captures of a lambda, as the compiler collects them and as the scopes
of the language have them. -/
namespace Casprix.Closure

open List Frontend

inductive CaptureMode where
  | byValue
  | byReference
  deriving DecidableEq, Repr

/-- The name of the class and the slot in the frame of the parent are filled by the code
generator. -/
structure CapturedVar where
  varName : String
  type : DataType
  className : Option String := none
  mode : CaptureMode := .byValue
  parentOffset : Int := 0
  envOffset : Nat := 0
  isMutable : Bool := false
  deriving DecidableEq, Repr

/-- A symbol of the enclosing scopes, with its type. -/
structure OuterSymbol extends Sema.Symbol where
  type : DataType
  deriving DecidableEq, Repr

/-- The enclosing scopes, the newest symbol first. -/
abbrev ParentTable := List OuterSymbol

def ParentTable.lookupSymbol (table : ParentTable) (name : String) : Option OuterSymbol :=
  table.find? fun symbol => symbol.name == name

/-- The variable or parameter that a name of the enclosing scopes stands for. -/
def ParentTable.outer (table : ParentTable) (name : String) : Option OuterSymbol :=
  (table.lookupSymbol name).filter fun symbol =>
    symbol.kind == .variable || symbol.kind == .parameter

/-- The local table is flat: the second symbol of a name is refused. -/
def addLocal (locals : List String) (name : String) : List String :=
  if name ∈ locals then locals else name :: locals

section

variable (parent : ParentTable)

def capture (locals : List String) (captures : List CapturedVar) (name : String) :
    List CapturedVar :=
  if name ∈ locals then captures
  else
    match parent.outer name with
    | none => captures
    | some symbol =>
      if captures.any fun captured => captured.varName == name then captures
      else captures ++ [{ varName := name, type := symbol.type }]

mutual

def findFreeVarsExpr (locals : List String) : Expr → List CapturedVar → List CapturedVar
  | .variable name _, captures => capture parent locals captures name
  | .binary _ left right, captures =>
    findFreeVarsExpr locals right (findFreeVarsExpr locals left captures)
  | .unary _ operand, captures => findFreeVarsExpr locals operand captures
  | .call callee arguments, captures =>
    findFreeVarsExprs locals arguments (findFreeVarsExpr locals callee captures)
  | .memberAccess object _ isMethodCall arguments, captures =>
    let searched := findFreeVarsExpr locals object captures
    if isMethodCall then findFreeVarsExprs locals arguments searched else searched
  | .index array index, captures =>
    findFreeVarsExpr locals index (findFreeVarsExpr locals array captures)
  | .new _ arguments, captures => findFreeVarsExprs locals arguments captures
  | .staticAccess _ _ isMethodCall arguments, captures =>
    if isMethodCall then findFreeVarsExprs locals arguments captures else captures
  | _, captures => captures

def findFreeVarsExprs (locals : List String) : List Expr → List CapturedVar → List CapturedVar
  | [], captures => captures
  | expr :: rest, captures => findFreeVarsExprs locals rest (findFreeVarsExpr locals expr captures)

end

/-- The local table, and the captures so far. -/
structure Search where
  locals : List String
  captures : List CapturedVar
  deriving DecidableEq, Repr

def Search.expr (expr : Expr) (search : Search) : Search :=
  { search with captures := findFreeVarsExpr parent search.locals expr search.captures }

def Search.addSymbol (name : String) (search : Search) : Search :=
  { search with locals := addLocal search.locals name }

/-- The target of an assignment is looked up among the captures only. -/
def CapturedVar.markMutable (name : String) (captured : CapturedVar) : CapturedVar :=
  if captured.varName = name then { captured with isMutable := true, mode := .byReference }
  else captured

def Search.markMutable (target : Expr) (search : Search) : Search :=
  match target with
  | .variable name _ =>
    { search with captures := search.captures.map (CapturedVar.markMutable name) }
  | _ => search

mutual

def findFreeVarsStmt : Stmt → Search → Search
  | .declaration name _ initializer, search =>
    (search.expr parent initializer).addSymbol name
  | .exprStmt expression, search | .returnStmt expression, search | .print expression, search =>
    search.expr parent expression
  | .assignment target value, search =>
    ((search.expr parent target).expr parent value).markMutable target
  | .ifStmt condition thenBranch elseBranch, search =>
    findFreeVarsStmt elseBranch (findFreeVarsStmt thenBranch (search.expr parent condition))
  | .whileStmt condition body, search =>
    findFreeVarsStmt body (search.expr parent condition)
  | .forStmt _ _ initializer condition increment body, search =>
    findFreeVarsStmt body (findFreeVarsStmt increment
      ((search.expr parent initializer).expr parent condition))
  | .block statements, search => findFreeVarsStmts statements search
  | _, search => search

def findFreeVarsStmts : List Stmt → Search → Search
  | [], search => search
  | statement :: rest, search => findFreeVarsStmts rest (findFreeVarsStmt statement search)

end

end

def alignUp (offset align : Nat) : Nat :=
  if offset % align ≠ 0 then offset + (align - offset % align) else offset

structure LambdaExpr where
  parameters : List Parameter
  isExpression : Bool
  exprBody : Expr
  blockBody : Stmt

variable (lambda : LambdaExpr)

def LambdaExpr.names : List String :=
  lambda.parameters.map Parameter.name

def LambdaExpr.captures (parent : ParentTable) : List CapturedVar :=
  let locals := lambda.names.foldl addLocal []
  if lambda.isExpression then findFreeVarsExpr parent locals lambda.exprBody []
  else (findFreeVarsStmt parent lambda.blockBody ⟨locals, []⟩).captures

/-- An occurrence of a name, as the target of an assignment or as a value. -/
structure Occurrence where
  name : String
  isTarget : Bool
  deriving DecidableEq, Repr

/-- The names a statement declares in the scope it stands in. -/
def declaredNames : Stmt → List String
  | .declaration name .. | .function name .. | .classStmt name .. | .externFunc name
  | .struct name | .enum name | .union name | .trait name _ => [name]
  | _ => []

mutual

/-- The occurrences in an expression that no declaration inside it binds. -/
def freeExpr (bound : List String) : Expr → List Occurrence
  | .variable name _ => if name ∈ bound then [] else [⟨name, false⟩]
  | .binary _ left right => freeExpr bound left ++ freeExpr bound right
  | .unary _ operand => freeExpr bound operand
  | .call callee arguments => freeExpr bound callee ++ freeExprs bound arguments
  | .memberAccess object _ isMethodCall arguments =>
    freeExpr bound object ++ (if isMethodCall then freeExprs bound arguments else [])
  | .staticAccess _ _ isMethodCall arguments | .super _ isMethodCall arguments =>
    if isMethodCall then freeExprs bound arguments else []
  | .new _ arguments => freeExprs bound arguments
  | .index array index => freeExpr bound array ++ freeExpr bound index
  | .lambda parameters _ isExpression exprBody blockBody =>
    let inside := parameters.map Parameter.name ++ bound
    if isExpression then freeExpr inside exprBody else freeStmt inside blockBody
  | .await expression => freeExpr bound expression
  | .arrayLiteral elements => freeExprs bound elements
  | _ => []

def freeExprs (bound : List String) : List Expr → List Occurrence
  | [] => []
  | expr :: rest => freeExpr bound expr ++ freeExprs bound rest

/-- The variable of a loop is in sight from its initializer on, and that of a `catch` in its
body. -/
def freeStmt (bound : List String) : Stmt → List Occurrence
  | .declaration _ _ initializer => freeExpr bound initializer
  | .assignment (.variable name _) value =>
    (if name ∈ bound then [] else [⟨name, true⟩]) ++ freeExpr bound value
  | .assignment target value => freeExpr bound target ++ freeExpr bound value
  | .print expression | .exprStmt expression | .returnStmt expression | .throwStmt expression =>
    freeExpr bound expression
  | .ifStmt condition thenBranch elseBranch =>
    freeExpr bound condition ++ freeStmt bound thenBranch ++ freeStmt bound elseBranch
  | .whileStmt condition body => freeExpr bound condition ++ freeStmt bound body
  | .forStmt varName _ initializer condition increment body =>
    let inside := varName.toList ++ bound
    freeExpr inside initializer ++ freeExpr inside condition ++ freeStmt inside increment ++
      freeStmt inside body
  | .forIn varName iterable body =>
    freeExpr bound iterable ++ freeStmt (varName :: bound) body
  | .function name parameters _ _ body =>
    freeStmt (parameters.map Parameter.name ++ name :: bound) body
  | .block statements => freeStmts bound statements
  | .classStmt name _ defaultValues methods =>
    freeExprs (name :: bound) defaultValues ++ freeMethods (name :: bound) methods
  | .tryStmt tryBody catches finallyBody =>
    freeStmt bound tryBody ++ freeCatches bound catches ++ freeStmt bound finallyBody
  | .matchStmt subject arms => freeExpr bound subject ++ freeArms bound arms
  | .trait name methods => freeMethods (name :: bound) methods
  | .impl methods => freeStmts bound methods
  | _ => []

/-- A declaration of a block binds in the statements after it. -/
def freeStmts (bound : List String) : List Stmt → List Occurrence
  | [] => []
  | statement :: rest =>
    freeStmt bound statement ++ freeStmts (declaredNames statement ++ bound) rest

def freeMethods (bound : List String) : List Method → List Occurrence
  | [] => []
  | .mk _ parameters body :: rest =>
    freeStmt (parameters.map Parameter.name ++ bound) body ++ freeMethods bound rest

def freeCatches (bound : List String) : List CatchClause → List Occurrence
  | [] => []
  | .mk exceptionVar body :: rest =>
    freeStmt (exceptionVar.toList ++ bound) body ++ freeCatches bound rest

def freeArms (bound : List String) : List MatchArm → List Occurrence
  | [] => []
  | .mk pattern body :: rest =>
    freeExpr bound pattern ++ freeStmt bound body ++ freeArms bound rest

end

def LambdaExpr.free : List Occurrence :=
  if lambda.isExpression then freeExpr lambda.names lambda.exprBody
  else freeStmt lambda.names lambda.blockBody

inductive Visit where
  | use (name : String)
  | assign (name : String)
  | declare (name : String)
  deriving DecidableEq, Repr

mutual

/-- The names the compiler looks up in an expression. -/
def walkedNames : Expr → List String
  | .variable name _ => [name]
  | .binary _ left right => walkedNames left ++ walkedNames right
  | .unary _ operand => walkedNames operand
  | .call callee arguments => walkedNames callee ++ walkedNamesAll arguments
  | .memberAccess object _ isMethodCall arguments =>
    walkedNames object ++ (if isMethodCall then walkedNamesAll arguments else [])
  | .index array index => walkedNames array ++ walkedNames index
  | .new _ arguments => walkedNamesAll arguments
  | .staticAccess _ _ isMethodCall arguments =>
    if isMethodCall then walkedNamesAll arguments else []
  | _ => []

def walkedNamesAll : List Expr → List String
  | [] => []
  | expr :: rest => walkedNames expr ++ walkedNamesAll rest

end

def uses (expr : Expr) : List Visit :=
  (walkedNames expr).map Visit.use

def assigns : Expr → List Visit
  | .variable name _ => [.assign name]
  | _ => []

mutual

/-- The places of a statement the compiler goes through, in its order. -/
def walked : Stmt → List Visit
  | .declaration name _ initializer => uses initializer ++ [.declare name]
  | .exprStmt expression | .returnStmt expression | .print expression => uses expression
  | .assignment target value => uses target ++ uses value ++ assigns target
  | .ifStmt condition thenBranch elseBranch =>
    uses condition ++ walked thenBranch ++ walked elseBranch
  | .whileStmt condition body => uses condition ++ walked body
  | .forStmt _ _ initializer condition increment body =>
    uses initializer ++ uses condition ++ walked increment ++ walked body
  | .block statements => walkedAll statements
  | _ => []

def walkedAll : List Stmt → List Visit
  | [] => []
  | statement :: rest => walked statement ++ walkedAll rest

end

def LambdaExpr.walked : List Visit :=
  if lambda.isExpression then uses lambda.exprBody else Closure.walked lambda.blockBody

/-- Whether a name is used before the first declaration of it. -/
def reaches (name : String) : List Visit → Bool
  | [] => false
  | .use used :: rest => used == name || reaches name rest
  | .declare declared :: rest => declared != name && reaches name rest
  | .assign _ :: rest => reaches name rest

/-- Whether a name is assigned anywhere after such a use. -/
def reachesAssigned (name : String) : List Visit → Bool
  | [] => false
  | .use used :: rest =>
    if used = name then rest.any fun visit => visit == .assign name
    else reachesAssigned name rest
  | .declare declared :: rest => declared != name && reachesAssigned name rest
  | .assign _ :: rest => reachesAssigned name rest

section

variable (parent : ParentTable)

def Search.visit (search : Search) : Visit → Search
  | .use name => { search with captures := capture parent search.locals search.captures name }
  | .assign name => { search with captures := search.captures.map (CapturedVar.markMutable name) }
  | .declare name => search.addSymbol name

mutual

theorem findFreeVarsExpr_eq_foldl (locals : List String) (expr : Expr)
    (captures : List CapturedVar) :
    findFreeVarsExpr parent locals expr captures =
      (walkedNames expr).foldl (capture parent locals) captures := by
  cases expr with
  | memberAccess object memberName isMethodCall arguments =>
    cases isMethodCall <;>
      simp [findFreeVarsExpr, walkedNames, findFreeVarsExpr_eq_foldl locals object,
        findFreeVarsExprs_eq_foldl locals arguments]
  | staticAccess className memberName isMethodCall arguments =>
    cases isMethodCall <;>
      simp [findFreeVarsExpr, walkedNames, findFreeVarsExprs_eq_foldl locals arguments]
  | binary | unary | call | new | index =>
    simp [findFreeVarsExpr, walkedNames, findFreeVarsExpr_eq_foldl locals,
      findFreeVarsExprs_eq_foldl locals]
  | null | literal | this | super | lambda | genericInst | await | arrayLiteral | «variable» =>
    simp [findFreeVarsExpr, walkedNames]

theorem findFreeVarsExprs_eq_foldl (locals : List String) (exprs : List Expr)
    (captures : List CapturedVar) :
    findFreeVarsExprs parent locals exprs captures =
      (walkedNamesAll exprs).foldl (capture parent locals) captures := by
  cases exprs with
  | nil => simp [findFreeVarsExprs, walkedNamesAll]
  | cons expr rest =>
    simp [findFreeVarsExprs, walkedNamesAll, findFreeVarsExpr_eq_foldl locals expr,
      findFreeVarsExprs_eq_foldl locals rest]

end

theorem foldl_visit_uses (names : List String) (search : Search) :
    (names.map Visit.use).foldl (Search.visit parent) search =
      { search with captures := names.foldl (capture parent search.locals) search.captures } := by
  induction names generalizing search with
  | nil => rfl
  | cons name rest ih => simp [Search.visit, ih]

theorem expr_eq_foldl (expr : Expr) (search : Search) :
    search.expr parent expr = (uses expr).foldl (Search.visit parent) search := by
  rw [Search.expr, uses, foldl_visit_uses, findFreeVarsExpr_eq_foldl]

theorem markMutable_eq_foldl (target : Expr) (search : Search) :
    search.markMutable target = (assigns target).foldl (Search.visit parent) search := by
  cases target <;> rfl

mutual

theorem findFreeVarsStmt_eq_foldl (statement : Stmt) (search : Search) :
    findFreeVarsStmt parent statement search =
      (walked statement).foldl (Search.visit parent) search := by
  cases statement with
  | declaration | exprStmt | returnStmt | print =>
    simp [findFreeVarsStmt, walked, expr_eq_foldl, Search.visit]
  | assignment target value =>
    simp [findFreeVarsStmt, walked, expr_eq_foldl, markMutable_eq_foldl parent]
  | ifStmt | whileStmt | forStmt | block =>
    simp [findFreeVarsStmt, walked, expr_eq_foldl, findFreeVarsStmt_eq_foldl,
      findFreeVarsStmts_eq_foldl]
  | null | forIn | function | breakStmt | continueStmt | «include» | classStmt | externFunc
  | struct | enum | union | tryStmt | throwStmt | matchStmt | trait | impl =>
    simp [findFreeVarsStmt, walked]

theorem findFreeVarsStmts_eq_foldl (statements : List Stmt) (search : Search) :
    findFreeVarsStmts parent statements search =
      (walkedAll statements).foldl (Search.visit parent) search := by
  cases statements with
  | nil => simp [findFreeVarsStmts, walkedAll]
  | cons statement rest =>
    simp [findFreeVarsStmts, walkedAll, findFreeVarsStmt_eq_foldl statement,
      findFreeVarsStmts_eq_foldl rest]

end

def Search.names (search : Search) : List String :=
  search.captures.map CapturedVar.varName

/-- A captured variable as the walk leaves it. -/
structure CapturedVar.Agrees (captured : CapturedVar) : Prop where
  type : ∃ symbol, parent.outer captured.varName = some symbol ∧ captured.type = symbol.type
  mode : captured.mode = .byReference ↔ captured.isMutable = true

structure Search.WellFormed (search : Search) : Prop where
  once : search.names.Nodup
  agrees : ∀ captured ∈ search.captures, captured.Agrees parent

@[simp]
theorem type_markMutable (name : String) (captured : CapturedVar) :
    (captured.markMutable name).type = captured.type := by
  unfold CapturedVar.markMutable
  split <;> rfl

/-- The search a lambda begins with. -/
def LambdaExpr.search : Search :=
  ⟨lambda.names.foldl addLocal [], []⟩

section

variable (lambda : LambdaExpr)

end

end

end Casprix.Closure
