import Casprix.Sema.Analyzer

/-! The execution paths of a function body, as far as moves go: which
variables are moved, and which reads meet a moved one. A move is excused
where the path has gone through something the checker does not follow. -/
namespace Casprix.Sema

open Frontend

mutual

def isPlain : Expr → Bool
  | .lambda .. => false
  | .binary _ left right => isPlain left && isPlain right
  | .unary _ operand => isPlain operand
  | .call callee arguments => isPlain callee && arePlain arguments
  | .memberAccess object _ _ arguments => isPlain object && arePlain arguments
  | .staticAccess _ _ _ arguments | .super _ _ arguments | .new _ arguments =>
    arePlain arguments
  | .index array index => isPlain array && isPlain index
  | .await expression => isPlain expression
  | .arrayLiteral elements => arePlain elements
  | _ => true

def arePlain : List Expr → Bool
  | [] => true
  | expr :: rest => isPlain expr && arePlain rest

end

def declaredName : Stmt → Option String
  | .declaration name _ _ => some name
  | _ => none

mutual

/-- The statements of a body that is followed here, with expressions that
build no lambda. The parser declares nothing in a branch outside a block. -/
def isCore : Stmt → Bool
  | .null | .breakStmt | .continueStmt => true
  | .declaration _ _ initializer => isPlain initializer
  | .assignment target value => isPlain target && isPlain value
  | .print expression | .exprStmt expression | .returnStmt expression => isPlain expression
  | .ifStmt condition thenBranch elseBranch =>
    isPlain condition && isCore thenBranch && isCore elseBranch &&
      (declaredName thenBranch).isNone && (declaredName elseBranch).isNone
  | .forStmt varName _ initializer condition increment body =>
    varName.isSome && isPlain initializer && isPlain condition && isCore increment &&
      isCore body && (declaredName increment).isNone && (declaredName body).isNone
  | .whileStmt condition body =>
    isPlain condition && isCore body && (declaredName body).isNone
  | .block statements => areCore statements
  | .matchStmt subject arms => isPlain subject && armsAreCore arms
  | _ => false

def areCore : List Stmt → Bool
  | [] => true
  | statement :: rest => isCore statement && areCore rest

def armsAreCore : List MatchArm → Bool
  | [] => true
  | .mk pattern body :: rest =>
    isPlain pattern && isCore body && (declaredName body).isNone && armsAreCore rest

end

mutual

/-- The outer variables that a statement moves as a whole initializer or
assigned value, on every side of an `if` that reaches its end. -/
def movesOf : Stmt → List String
  | .declaration _ _ initializer => (movedName initializer).toList
  | .assignment _ value => (movedName value).toList
  | .block statements => movesOfAll statements
  | .ifStmt _ thenBranch elseBranch =>
    match branchDiverges thenBranch, branchDiverges elseBranch with
    | true, true => []
    | true, false => movesOf elseBranch
    | false, true => movesOf thenBranch
    | false, false => (movesOf thenBranch).filter fun name => name ∈ movesOf elseBranch
  | .whileStmt _ body => movesOf body
  | .forStmt varName _ _ _ increment body =>
    (movesOf increment ++ movesOf body).filter fun name => varName ≠ some name
  | _ => []

def movesOfAll : List Stmt → List String
  | [] => []
  | statement :: rest =>
    movesOf statement ++ (movesOfAll rest).filter fun name => declaredName statement ≠ some name

end

inductive Status where
  | live
  | moved (excused : Bool)
  deriving DecidableEq, Repr

/-- The variables in sight, the innermost first. -/
abbrev Env := List (String × Status)

structure Read where
  name : String
  excused : Bool
  deriving DecidableEq, Repr

def Read.pardon (read : Read) : Read := { read with excused := true }

namespace Env

def status (env : Env) (name : String) : Status := (env.lookup name).getD .live

def set : Env → String → Status → Env
  | [], _, _ => []
  | binding :: outer, name, status =>
    if binding.1 = name then (name, status) :: outer else binding :: set outer name status

/-- On leaving a construct, the moves made in it other than those of `names` are excused. -/
def excuse : List String → Env → Env → Env
  | names, (name, before) :: outer, (_, after) :: outer' =>
    (name,
      if after = .moved false ∧ before ≠ .moved false ∧ name ∉ names then .moved true
      else after) ::
      excuse (names.filter fun other => other ≠ name) outer outer'
  | _, _, after => after

end Env

mutual

/-- The variables an expression reads, from left to right, and whether it moves
them. A member of a class name is a static one, and the body of a lambda is
not run where it is built. -/
def reads (isClass : String → Bool) : Expr → List (String × Bool)
  | .variable name isMove => [(name, isMove)]
  | .binary _ left right => reads isClass left ++ reads isClass right
  | .unary _ operand => reads isClass operand
  | .call callee arguments =>
    (if variableName callee = some "dyn" then [] else reads isClass callee) ++
      readsAll isClass arguments
  | .memberAccess object _ isMethodCall arguments =>
    (if (variableName object).any isClass then [] else reads isClass object) ++
      (if isMethodCall then readsAll isClass arguments else [])
  | .staticAccess _ _ isMethodCall arguments | .super _ isMethodCall arguments =>
    if isMethodCall then readsAll isClass arguments else []
  | .new _ arguments => readsAll isClass arguments
  | .index array index => reads isClass array ++ reads isClass index
  | .await expression => reads isClass expression
  | .arrayLiteral elements => readsAll isClass elements
  | _ => []

def readsAll (isClass : String → Bool) : List Expr → List (String × Bool)
  | [] => []
  | expr :: rest => reads isClass expr ++ readsAll isClass rest

end

/-- A move inside a larger expression is excused from the start. -/
def evalReads : List (String × Bool) → Env → Env × List Read
  | [], env => (env, [])
  | (name, isMove) :: rest, env =>
    let next := evalReads rest (if isMove then env.set name (.moved true) else env)
    match env.status name with
    | .live => next
    | .moved excused => (next.1, ⟨name, excused⟩ :: next.2)

variable (isClass : String → Bool)

def eval (expr : Expr) (env : Env) : Env × List Read :=
  evalReads (reads isClass expr) env

/-- The value of a declaration or an assignment. -/
def evalValue (value : Expr) (env : Env) : Env × List Read :=
  let evaluated := eval isClass value env
  match movedName value with
  | none => evaluated
  | some name => (evaluated.1.set name (.moved false), evaluated.2)

/-- An assigned variable is not read, and is live afterwards. -/
def evalTarget (target : Expr) (env : Env) : Env × List Read :=
  match variableName target with
  | none => eval isClass target env
  | some _ => (env, [])

def assign (target : Expr) (env : Env) : Env :=
  match variableName target with
  | none => env
  | some name => env.set name .live

/-- The reads in a condition that is evaluated again are excused. -/
def evalCondition (again : Bool) (condition : Expr) (env : Env) : Env × List Read :=
  let evaluated := eval isClass condition env
  if again then (evaluated.1, evaluated.2.map Read.pardon) else evaluated

inductive Outcome where
  | normal
  | broke
  | continued
  | returned
  deriving DecidableEq, Repr

/-- What a path goes through: a statement, a list of them, a loop whose
condition has been evaluated before or not, or the arms of a `match`. -/
inductive Code where
  | stmt (statement : Stmt)
  | stmts (statements : List Stmt)
  | loop (again : Bool) (condition : Expr) (increment body : Stmt)
  | arms (arms : List MatchArm)

/-- A branch that reaches its end leaves its moves behind, those of `names` apart. -/
def leave (outcome : Outcome) (names : List String) (before after : Env) : Env :=
  if outcome = .normal then Env.excuse names before after else after

/-- What a statement declared goes out of sight behind it. -/
def dropDeclared (before after : Env) : Env := after.drop (after.length - before.length)

/-- A path through a body, any branch being possible: how it ends, the
variables afterwards and the reads of moved variables on the way. -/
inductive Exec (isClass : String → Bool) :
    Code → Env → Outcome → Env → List Read → Prop where
  | null (env) : Exec isClass (.stmt .null) env .normal env []
  | declaration (name type initializer env) :
      Exec isClass (.stmt (.declaration name type initializer)) env .normal
        ((name, .live) :: (evalValue isClass initializer env).1)
        (evalValue isClass initializer env).2
  | assignment (target value env) :
      Exec isClass (.stmt (.assignment target value)) env .normal
        (assign target (evalValue isClass value (evalTarget isClass target env).1).1)
        ((evalTarget isClass target env).2 ++
          (evalValue isClass value (evalTarget isClass target env).1).2)
  | print (expression env) :
      Exec isClass (.stmt (.print expression)) env .normal (eval isClass expression env).1
        (eval isClass expression env).2
  | exprStmt (expression env) :
      Exec isClass (.stmt (.exprStmt expression)) env .normal (eval isClass expression env).1
        (eval isClass expression env).2
  | returnStmt (value env) :
      Exec isClass (.stmt (.returnStmt value)) env .returned (eval isClass value env).1
        (eval isClass value env).2
  | breakStmt (env) : Exec isClass (.stmt .breakStmt) env .broke env []
  | continueStmt (env) : Exec isClass (.stmt .continueStmt) env .continued env []
  | block {statements env outcome after bad}
    (inner : Exec isClass (.stmts statements) env outcome after bad) :
      Exec isClass (.stmt (.block statements)) env outcome (dropDeclared env after) bad
  | ifThen {condition thenBranch elseBranch env outcome after bad}
      (branch : Exec isClass (.stmt thenBranch) (eval isClass condition env).1 outcome after bad) :
      Exec isClass (.stmt (.ifStmt condition thenBranch elseBranch)) env outcome
        (leave outcome (movesOf (.ifStmt condition thenBranch elseBranch))
          (eval isClass condition env).1 after)
        ((eval isClass condition env).2 ++ bad)
  | ifElse {condition thenBranch elseBranch env outcome after bad}
      (branch : Exec isClass (.stmt elseBranch) (eval isClass condition env).1 outcome after bad) :
      Exec isClass (.stmt (.ifStmt condition thenBranch elseBranch)) env outcome
        (leave outcome (movesOf (.ifStmt condition thenBranch elseBranch))
          (eval isClass condition env).1 after)
        ((eval isClass condition env).2 ++ bad)
  | whileStmt {condition body env outcome after bad}
      (loop : Exec isClass (.loop false condition .null body) env outcome after bad) :
      Exec isClass (.stmt (.whileStmt condition body)) env outcome after bad
  | forStmt {name type initializer condition increment body env outcome after bad}
      (loop : Exec isClass (.loop false condition increment body)
        (eval isClass initializer ((name, .live) :: env)).1 outcome after bad) :
      Exec isClass (.stmt (.forStmt (some name) type initializer condition increment body)) env
        outcome (dropDeclared env after)
          ((eval isClass initializer ((name, .live) :: env)).2 ++ bad)
  | matchStmt {subject arms env outcome after bad}
      (taken : Exec isClass (.arms arms) (eval isClass subject env).1 outcome after bad) :
      Exec isClass (.stmt (.matchStmt subject arms)) env outcome after
        ((eval isClass subject env).2 ++ bad)
  | nil (env) : Exec isClass (.stmts []) env .normal env []
  | cons {statement rest env middle outcome after bad bad'}
      (first : Exec isClass (.stmt statement) env .normal middle bad)
      (others : Exec isClass (.stmts rest) middle outcome after bad') :
      Exec isClass (.stmts (statement :: rest)) env outcome after (bad ++ bad')
  | exits {statement rest env outcome after bad} (hOutcome : outcome ≠ .normal)
      (first : Exec isClass (.stmt statement) env outcome after bad) :
      Exec isClass (.stmts (statement :: rest)) env outcome after bad
  | loopEnds (again condition increment body env) :
      Exec isClass (.loop again condition increment body) env .normal
        (evalCondition isClass again condition env).1 (evalCondition isClass again condition env).2
  | loopReturns {again condition increment body env after bad}
      (inner : Exec isClass (.stmt body) (evalCondition isClass again condition env).1 .returned
        after bad) :
      Exec isClass (.loop again condition increment body) env .returned after
        ((evalCondition isClass again condition env).2 ++ bad)
  | loopBreaks {again condition increment body env after bad}
      (inner : Exec isClass (.stmt body) (evalCondition isClass again condition env).1 .broke
        after bad) :
      Exec isClass (.loop again condition increment body) env .normal
        (Env.excuse [] (evalCondition isClass again condition env).1 after)
        ((evalCondition isClass again condition env).2 ++ bad)
  | loopNext {again condition increment body env middle stepped outcome after bad bad' bad''}
      (inner : Exec isClass (.stmt body) (evalCondition isClass again condition env).1 .normal
        middle bad)
      (increments : Exec isClass (.stmt increment) middle .normal stepped bad')
      (next : Exec isClass (.loop true condition increment body) stepped outcome after bad'') :
      Exec isClass (.loop again condition increment body) env outcome after
        ((evalCondition isClass again condition env).2 ++ bad ++ bad'.map Read.pardon ++ bad'')
  | loopContinues {again condition increment body env middle stepped outcome after bad bad' bad''}
      (inner : Exec isClass (.stmt body) (evalCondition isClass again condition env).1 .continued
        middle bad)
      (increments : Exec isClass (.stmt increment)
        (Env.excuse [] (evalCondition isClass again condition env).1 middle) .normal stepped bad')
      (next : Exec isClass (.loop true condition increment body) stepped outcome after bad'') :
      Exec isClass (.loop again condition increment body) env outcome after
        ((evalCondition isClass again condition env).2 ++ bad ++ bad'.map Read.pardon ++ bad'')
  | noArm (env) : Exec isClass (.arms []) env .normal env []
  | arm {pattern body rest env outcome after bad}
      (taken : Exec isClass (.stmt body) (eval isClass pattern env).1 outcome after bad) :
      Exec isClass (.arms (.mk pattern body :: rest)) env outcome
        (leave outcome [] (eval isClass pattern env).1 after)
        ((eval isClass pattern env).2 ++ bad)
  | nextArm {pattern body rest env outcome after bad} (hPattern : pattern.isNull = false)
      (others : Exec isClass (.arms rest) (eval isClass pattern env).1 outcome after bad) :
      Exec isClass (.arms (.mk pattern body :: rest)) env outcome after
        ((eval isClass pattern env).2 ++ bad)

end Casprix.Sema
