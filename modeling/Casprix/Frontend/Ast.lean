import Mathlib.Data.List.Basic

/-! The syntax tree the parser builds. A child that may be missing, a NULL
pointer of the tree, is the constructor `null` of its type. -/
namespace Casprix.Frontend

inductive DataType where
  | i8 | i16 | i32 | i64 | i128
  | u8 | u16 | u32 | u64 | u128
  | f16 | f32 | f64 | bf16
  | bool | char
  | string | strbuf
  | void
  | struct | enum | union | «class»
  | array | staticArray | slice
  | ptr | rawptr | ref
  | vec | mat | tensor
  | func
  | dyn
  | generic
  | future
  | error
  deriving DecidableEq, Repr

/-- The tokens the parser leaves in binary and unary expressions. -/
inductive Operator where
  | plus | minus | star | slash | percent
  | equal | notEqual | less | lessEqual | greater | greaterEqual
  | and | or | not
  | bitAnd | pipe | bitXor | bitNot | lshift | rshift
  deriving DecidableEq, Repr

inductive LiteralValue where
  | int (value : Int)
  | float (bits : Nat)
  | string (value : String)
  | bool (value : Bool)
  deriving DecidableEq, Repr

structure Parameter where
  name : String
  type : DataType
  deriving DecidableEq, Repr

mutual

/-- A direct call keeps the name of its callee in the callee itself. -/
inductive Expr where
  | null
  | binary (operator : Operator) (left right : Expr)
  | unary (operator : Operator) (operand : Expr)
  | literal (type : DataType) (value : LiteralValue)
  | variable (name : String) (isMove : Bool)
  | call (callee : Expr) (arguments : List Expr)
  | memberAccess (object : Expr) (memberName : String) (isMethodCall : Bool) (arguments : List Expr)
  | staticAccess (className memberName : String) (isMethodCall : Bool) (arguments : List Expr)
  | this
  | super (memberName : String) (isMethodCall : Bool) (arguments : List Expr)
  | new (className : String) (arguments : List Expr)
  | index (array index : Expr)
  | lambda (parameters : List Parameter) (returnType : DataType) (isExpression : Bool)
      (exprBody : Expr) (blockBody : Stmt)
  | genericInst (baseName : String)
  | await (expression : Expr)
  | arrayLiteral (elements : List Expr)

/-- A constant declaration is a declaration. The fields of a class are given
by their default values. -/
inductive Stmt where
  | null
  | declaration (name : String) (type : DataType) (initializer : Expr)
  | assignment (target value : Expr)
  | print (expression : Expr)
  | ifStmt (condition : Expr) (thenBranch elseBranch : Stmt)
  | forStmt (varName : Option String) (varType : DataType) (initializer condition : Expr)
      (increment body : Stmt)
  | forIn (varName : String) (iterable : Expr) (body : Stmt)
  | whileStmt (condition : Expr) (body : Stmt)
  | function (name : String) (parameters : List Parameter) (returnType : DataType)
      (isAsync : Bool) (body : Stmt)
  | returnStmt (value : Expr)
  | breakStmt
  | continueStmt
  | exprStmt (expression : Expr)
  | block (statements : List Stmt)
  | include
  | classStmt (name : String) (parentName : Option String) (defaultValues : List Expr)
      (methods : List Method)
  | externFunc (name : String)
  | struct (name : String)
  | enum (name : String)
  | union (name : String)
  | tryStmt (tryBody : Stmt) (catches : List CatchClause) (finallyBody : Stmt)
  | throwStmt (value : Expr)
  | matchStmt (subject : Expr) (arms : List MatchArm)
  | trait (name : String) (methods : List Method)
  | impl (methods : List Stmt)

/-- A method of a class, or a method of a trait with its default body. -/
inductive Method where
  | mk (name : String) (parameters : List Parameter) (body : Stmt)

inductive CatchClause where
  | mk (exceptionVar : Option String) (body : Stmt)

/-- The wildcard has no pattern. -/
inductive MatchArm where
  | mk (pattern : Expr) (body : Stmt)

end

def Expr.isNull : Expr → Bool
  | .null => true
  | _ => false

def Stmt.isNull : Stmt → Bool
  | .null => true
  | _ => false

/-- The parser builds every body as a block, or leaves it out. -/
def Stmt.isBody : Stmt → Bool
  | .block _ | .null => true
  | _ => false

def Stmt.isExtern : Stmt → Bool
  | .externFunc _ => true
  | _ => false

end Casprix.Frontend
