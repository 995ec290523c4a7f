import Casprix.Frontend.Ast

/-! The syntax tree with its types, and the substitution of type parameters in it. -/
namespace Casprix.Middle

open Frontend (DataType Operator LiteralValue)

/-- A type and the name that goes with it: of a class, or of a type parameter. -/
structure TypeRef where
  type : DataType
  className : Option String := none
  deriving DecidableEq, Repr

attribute [ext] TypeRef

/-- The type of a component of a compound type. -/
inductive TypeInfo where
  | null
  | mk (base : DataType) (typeName : Option String) (elementType : TypeInfo)
      (paramTypes : List TypeInfo) (returnType : TypeInfo)

structure Parameter where
  name : String
  type : TypeRef
  typeInfo : TypeInfo

mutual

inductive Expr where
  | null
  | mk (type : TypeRef) (typeInfo : TypeInfo) (node : ExprNode)

inductive ExprNode where
  | binary (left : Expr) (operator : Operator) (right : Expr)
  | unary (operator : Operator) (operand : Expr)
  | literal (type : DataType) (value : LiteralValue)
  | variable (name : String) (isMove : Bool)
  | call (callee : Expr) (name : Option String) (arguments : List Expr)
  | memberAccess (object : Expr) (memberName : String) (isMethodCall : Bool) (arguments : List Expr)
  | staticAccess (className memberName : String) (isMethodCall : Bool) (arguments : List Expr)
  | this (className : Option String)
  | super (memberName : String) (isMethodCall : Bool) (arguments : List Expr)
  | new (className : String) (arguments : List Expr)
  | index (array index : Expr)
  | lambda (parameters : List Parameter) (returnType : TypeRef) (isExpression : Bool)
      (exprBody : Expr) (blockBody : Stmt)
  | genericInst (baseName : String) (typeArgs : List TypeRef)
  | await (expression : Expr)
  | arrayLiteral (elements : List Expr)

/-- The names in the return type of a function, in the type of a loop variable and in
the payloads of an enumeration are the ones in the source text: the compiler's tree
keeps the types only. -/
inductive Stmt where
  | null
  | declaration (name : String) (type : TypeRef) (typeInfo : TypeInfo) (initializer : Expr)
  | constDecl (name : String) (type : TypeRef) (typeInfo : TypeInfo) (initializer : Expr)
  | assignment (target value : Expr)
  | print (expression : Expr)
  | ifStmt (condition : Expr) (thenBranch elseBranch : Stmt)
  | forStmt (varName : Option String) (varType : TypeRef) (initializer condition : Expr)
      (increment body : Stmt)
  | forIn (varName : String) (varType : TypeRef) (iterable : Expr) (body : Stmt)
  | whileStmt (condition : Expr) (body : Stmt)
  | function (name : String) (parameters : List Parameter) (returnType : TypeRef)
      (returnTypeInfo : TypeInfo) (body : Stmt)
  | returnStmt (value : Expr)
  | breakStmt
  | continueStmt
  | exprStmt (expression : Expr)
  | block (statements : List Stmt) (isAllocScope : Bool)
  | include (moduleName : String)
  | classStmt (name : String) (fields : List Parameter) (defaultValues : List Expr)
      (methods : List Stmt)
  | externFunc (name : String) (parameters : List Parameter) (returnType : TypeRef)
  | struct (name : String) (fields : List Parameter)
  | enum (name : String) (payloads : List (List TypeRef))
  | union (name : String) (fields : List Parameter)
  | tryStmt (tryBody : Stmt) (catches : List CatchClause) (finallyBody : Stmt)
  | throwStmt (value : Expr)
  | matchStmt (subject : Expr) (arms : List MatchArm)
  | trait (name : String) (methods : List Stmt)
  | impl (targetName : String) (traitName : Option String) (methods : List Stmt)

inductive CatchClause where
  | mk (exceptionVar exceptionType : Option String) (body : Stmt)

/-- The wildcard has no pattern. -/
inductive MatchArm where
  | mk (pattern : Expr) (variantName : Option String) (bindVars : List Expr) (body : Stmt)

end

structure FieldDecl where
  name : String
  type : TypeRef
  defaultValue : Expr

/-- As for a function, the compiler's tree does not keep the name in the return type. -/
structure MethodDecl where
  name : String
  parameters : List Parameter
  returnType : TypeRef
  body : Stmt

structure ClassStmt where
  name : String
  parentName : Option String
  fields : List FieldDecl
  methods : List MethodDecl
  typeParams : List String

structure FunctionStmt where
  name : String
  parameters : List Parameter
  returnType : TypeRef
  returnTypeInfo : TypeInfo
  body : Stmt
  isAsync : Bool
  typeParams : List String

mutual

def TypeInfo.types : TypeInfo → List TypeRef
  | .null => []
  | .mk base typeName elementType paramTypes returnType =>
    ⟨base, typeName⟩ :: (elementType.types ++ TypeInfo.listTypes paramTypes ++ returnType.types)

def TypeInfo.listTypes : List TypeInfo → List TypeRef
  | [] => []
  | info :: infos => info.types ++ TypeInfo.listTypes infos

end

def Parameter.types (param : Parameter) : List TypeRef := param.type :: param.typeInfo.types

mutual

/-- The types of an expression and of what is in it, in the order of the tree. -/
def Expr.types : Expr → List TypeRef
  | .null => []
  | .mk type typeInfo node => type :: (typeInfo.types ++ node.types)

def ExprNode.types : ExprNode → List TypeRef
  | .binary left _ right => left.types ++ right.types
  | .unary _ operand => operand.types
  | .literal _ _ => []
  | .variable _ _ => []
  | .call callee _ arguments => callee.types ++ Expr.listTypes arguments
  | .memberAccess object _ _ arguments => object.types ++ Expr.listTypes arguments
  | .staticAccess _ _ _ arguments => Expr.listTypes arguments
  | .this _ => []
  | .super _ _ arguments => Expr.listTypes arguments
  | .new _ arguments => Expr.listTypes arguments
  | .index array index => array.types ++ index.types
  | .lambda parameters returnType _ exprBody blockBody =>
    parameters.flatMap Parameter.types ++ returnType :: (exprBody.types ++ blockBody.types)
  | .genericInst _ typeArgs => typeArgs
  | .await expression => expression.types
  | .arrayLiteral elements => Expr.listTypes elements

def Expr.listTypes : List Expr → List TypeRef
  | [] => []
  | e :: es => e.types ++ Expr.listTypes es

def Stmt.types : Stmt → List TypeRef
  | .null => []
  | .declaration _ type typeInfo initializer => type :: (typeInfo.types ++ initializer.types)
  | .constDecl _ type typeInfo initializer => type :: (typeInfo.types ++ initializer.types)
  | .assignment target value => target.types ++ value.types
  | .print expression => expression.types
  | .ifStmt condition thenBranch elseBranch =>
    condition.types ++ thenBranch.types ++ elseBranch.types
  | .forStmt _ varType initializer condition increment body =>
    varType :: (initializer.types ++ condition.types ++ increment.types ++ body.types)
  | .forIn _ varType iterable body => varType :: (iterable.types ++ body.types)
  | .whileStmt condition body => condition.types ++ body.types
  | .function _ parameters returnType returnTypeInfo body =>
    parameters.flatMap Parameter.types ++ returnType :: (returnTypeInfo.types ++ body.types)
  | .returnStmt value => value.types
  | .breakStmt => []
  | .continueStmt => []
  | .exprStmt expression => expression.types
  | .block statements _ => Stmt.listTypes statements
  | .include _ => []
  | .classStmt _ fields defaultValues methods =>
    fields.flatMap Parameter.types ++ Expr.listTypes defaultValues ++ Stmt.listTypes methods
  | .externFunc _ parameters returnType => parameters.flatMap Parameter.types ++ [returnType]
  | .struct _ fields => fields.flatMap Parameter.types
  | .enum _ payloads => payloads.flatten
  | .union _ fields => fields.flatMap Parameter.types
  | .tryStmt tryBody catches finallyBody =>
    tryBody.types ++ CatchClause.listTypes catches ++ finallyBody.types
  | .throwStmt value => value.types
  | .matchStmt subject arms => subject.types ++ MatchArm.listTypes arms
  | .trait _ methods => Stmt.listTypes methods
  | .impl _ _ methods => Stmt.listTypes methods

def Stmt.listTypes : List Stmt → List TypeRef
  | [] => []
  | stmt :: stmts => stmt.types ++ Stmt.listTypes stmts

def CatchClause.types : CatchClause → List TypeRef
  | .mk _ _ body => body.types

def CatchClause.listTypes : List CatchClause → List TypeRef
  | [] => []
  | clause :: clauses => clause.types ++ CatchClause.listTypes clauses

def MatchArm.types : MatchArm → List TypeRef
  | .mk pattern _ bindVars body => pattern.types ++ Expr.listTypes bindVars ++ body.types

def MatchArm.listTypes : List MatchArm → List TypeRef
  | [] => []
  | arm :: arms => arm.types ++ MatchArm.listTypes arms

end

/-- What stands for a type parameter. -/
abbrev Substitution := String → Option DataType

variable (σ : Substitution)

/-- A generic type that names a parameter. -/
def TypeRef.names (t : TypeRef) : Bool := t.type = .generic && (t.className.bind σ).isSome

def TypeRef.subst (t : TypeRef) : TypeRef :=
  if t.type = .generic then
    match t.className.bind σ with
    | some arg => ⟨arg, none⟩
    | none => t
  else t

mutual

def TypeInfo.subst : TypeInfo → TypeInfo
  | .null => .null
  | .mk base typeName elementType paramTypes returnType =>
    let type := TypeRef.subst σ ⟨base, typeName⟩
    .mk type.type type.className elementType.subst (TypeInfo.listSubst paramTypes) returnType.subst

def TypeInfo.listSubst : List TypeInfo → List TypeInfo
  | [] => []
  | info :: infos => info.subst :: TypeInfo.listSubst infos

end

def Parameter.subst (param : Parameter) : Parameter :=
  { param with type := param.type.subst σ, typeInfo := param.typeInfo.subst σ }

mutual

/-- The same tree with every generic type that names a parameter replaced. -/
def Expr.subst : Expr → Expr
  | .null => .null
  | .mk type typeInfo node => .mk (type.subst σ) (typeInfo.subst σ) node.subst

def ExprNode.subst : ExprNode → ExprNode
  | .binary left operator right => .binary left.subst operator right.subst
  | .unary operator operand => .unary operator operand.subst
  | .literal type value => .literal type value
  | .variable name isMove => .variable name isMove
  | .call callee name arguments => .call callee.subst name (Expr.listSubst arguments)
  | .memberAccess object memberName isMethodCall arguments =>
    .memberAccess object.subst memberName isMethodCall (Expr.listSubst arguments)
  | .staticAccess className memberName isMethodCall arguments =>
    .staticAccess className memberName isMethodCall (Expr.listSubst arguments)
  | .this className => .this className
  | .super memberName isMethodCall arguments =>
    .super memberName isMethodCall (Expr.listSubst arguments)
  | .new className arguments => .new className (Expr.listSubst arguments)
  | .index array index => .index array.subst index.subst
  | .lambda parameters returnType isExpression exprBody blockBody =>
    .lambda (parameters.map (Parameter.subst σ)) (returnType.subst σ) isExpression exprBody.subst
      blockBody.subst
  | .genericInst baseName typeArgs => .genericInst baseName (typeArgs.map (TypeRef.subst σ))
  | .await expression => .await expression.subst
  | .arrayLiteral elements => .arrayLiteral (Expr.listSubst elements)

def Expr.listSubst : List Expr → List Expr
  | [] => []
  | e :: es => e.subst :: Expr.listSubst es

def Stmt.subst : Stmt → Stmt
  | .null => .null
  | .declaration name type typeInfo initializer =>
    .declaration name (type.subst σ) (typeInfo.subst σ) initializer.subst
  | .constDecl name type typeInfo initializer =>
    .constDecl name (type.subst σ) (typeInfo.subst σ) initializer.subst
  | .assignment target value => .assignment target.subst value.subst
  | .print expression => .print expression.subst
  | .ifStmt condition thenBranch elseBranch =>
    .ifStmt condition.subst thenBranch.subst elseBranch.subst
  | .forStmt varName varType initializer condition increment body =>
    .forStmt varName (varType.subst σ) initializer.subst condition.subst increment.subst body.subst
  | .forIn varName varType iterable body =>
    .forIn varName (varType.subst σ) iterable.subst body.subst
  | .whileStmt condition body => .whileStmt condition.subst body.subst
  | .function name parameters returnType returnTypeInfo body =>
    .function name (parameters.map (Parameter.subst σ)) (returnType.subst σ)
      (returnTypeInfo.subst σ) body.subst
  | .returnStmt value => .returnStmt value.subst
  | .breakStmt => .breakStmt
  | .continueStmt => .continueStmt
  | .exprStmt expression => .exprStmt expression.subst
  | .block statements isAllocScope => .block (Stmt.listSubst statements) isAllocScope
  | .include moduleName => .include moduleName
  | .classStmt name fields defaultValues methods =>
    .classStmt name (fields.map (Parameter.subst σ)) (Expr.listSubst defaultValues)
      (Stmt.listSubst methods)
  | .externFunc name parameters returnType =>
    .externFunc name (parameters.map (Parameter.subst σ)) (returnType.subst σ)
  | .struct name fields => .struct name (fields.map (Parameter.subst σ))
  | .enum name payloads => .enum name (payloads.map fun types => types.map (TypeRef.subst σ))
  | .union name fields => .union name (fields.map (Parameter.subst σ))
  | .tryStmt tryBody catches finallyBody =>
    .tryStmt tryBody.subst (CatchClause.listSubst catches) finallyBody.subst
  | .throwStmt value => .throwStmt value.subst
  | .matchStmt subject arms => .matchStmt subject.subst (MatchArm.listSubst arms)
  | .trait name methods => .trait name (Stmt.listSubst methods)
  | .impl targetName traitName methods => .impl targetName traitName (Stmt.listSubst methods)

def Stmt.listSubst : List Stmt → List Stmt
  | [] => []
  | stmt :: stmts => stmt.subst :: Stmt.listSubst stmts

def CatchClause.subst : CatchClause → CatchClause
  | .mk exceptionVar exceptionType body => .mk exceptionVar exceptionType body.subst

def CatchClause.listSubst : List CatchClause → List CatchClause
  | [] => []
  | clause :: clauses => clause.subst :: CatchClause.listSubst clauses

def MatchArm.subst : MatchArm → MatchArm
  | .mk pattern variantName bindVars body =>
    .mk pattern.subst variantName (Expr.listSubst bindVars) body.subst

def MatchArm.listSubst : List MatchArm → List MatchArm
  | [] => []
  | arm :: arms => arm.subst :: MatchArm.listSubst arms

end

variable (t : TypeRef) (types : List TypeRef)

/-- A type stays as it is exactly if it names no parameter. -/
theorem TypeRef.subst_eq_self_iff : t.subst σ = t ↔ t.names σ = false := by
  obtain ⟨type, className⟩ := t
  unfold TypeRef.subst TypeRef.names
  by_cases hGeneric : type = .generic
  · cases className with
    | none => simp [hGeneric]
    | some name => cases hArg : σ name <;> simp [hGeneric, hArg]
  · simp [hGeneric]

/-- What is put in for a parameter is not a parameter. -/
theorem TypeRef.names_subst : (t.subst σ).names σ = false := by
  obtain ⟨type, className⟩ := t
  unfold TypeRef.subst TypeRef.names
  by_cases hGeneric : type = .generic
  · cases className with
    | none => simp [hGeneric]
    | some name => cases hArg : σ name <;> simp [hGeneric, hArg]
  · simp [hGeneric]

/-- No type of the list names a parameter. -/
def plain (types : List TypeRef) : Bool := types.all fun t => !t.names σ

@[simp] theorem plain_nil : plain σ [] = true := rfl

@[simp] theorem plain_cons : plain σ (t :: types) = (!t.names σ && plain σ types) := rfl

@[simp] theorem plain_append (front back : List TypeRef) :
    plain σ (front ++ back) = (plain σ front && plain σ back) := List.all_append

attribute [local simp] TypeInfo.subst TypeInfo.types TypeInfo.listSubst TypeInfo.listTypes
  Parameter.subst Parameter.types Expr.subst Expr.types ExprNode.subst ExprNode.types
  Expr.listSubst Expr.listTypes Stmt.subst Stmt.types Stmt.listSubst Stmt.listTypes
  CatchClause.subst CatchClause.types CatchClause.listSubst CatchClause.listTypes
  MatchArm.subst MatchArm.types MatchArm.listSubst MatchArm.listTypes TypeRef.subst_eq_self_iff

mutual

/-- The same of a nested type, by induction on it. -/
theorem TypeInfo.subst_eq_self_iff (info : TypeInfo) :
    info.subst σ = info ↔ plain σ info.types = true := by
  cases info with
  | null => simp
  | mk base typeName elementType paramTypes returnType =>
    have hType := TypeRef.subst_eq_self_iff σ ⟨base, typeName⟩
    rw [TypeRef.ext_iff] at hType
    simp only [TypeInfo.subst, TypeInfo.types, TypeInfo.mk.injEq, plain_cons, plain_append,
      Bool.and_eq_true, Bool.not_eq_true', TypeInfo.subst_eq_self_iff elementType,
      TypeInfo.listSubst_eq_self_iff paramTypes, TypeInfo.subst_eq_self_iff returnType, ← hType,
      and_assoc]

theorem TypeInfo.listSubst_eq_self_iff (infos : List TypeInfo) :
    TypeInfo.listSubst σ infos = infos ↔ plain σ (TypeInfo.listTypes infos) = true := by
  cases infos with
  | nil => simp
  | cons info infos =>
    simp [TypeInfo.subst_eq_self_iff info, TypeInfo.listSubst_eq_self_iff infos]

end

theorem Parameter.subst_eq_self_iff (param : Parameter) :
    param.subst σ = param ↔ plain σ param.types = true := by
  obtain ⟨name, type, typeInfo⟩ := param
  simp [TypeInfo.subst_eq_self_iff]

/-- A list stays as it is exactly if all its types are plain. -/
theorem map_eq_self_iff {α : Type} {f : α → α} {types : α → List TypeRef}
    (h : ∀ x, f x = x ↔ plain σ (types x) = true) (xs : List α) :
    xs.map f = xs ↔ plain σ (xs.flatMap types) = true := by
  induction xs with
  | nil => simp
  | cons x xs ih => simp [h, ih]

theorem parameters_subst_eq_self_iff (params : List Parameter) :
    params.map (Parameter.subst σ) = params ↔ plain σ (params.flatMap Parameter.types) = true :=
  map_eq_self_iff σ (Parameter.subst_eq_self_iff σ) params

theorem typeRefs_subst_eq_self_iff :
    types.map (TypeRef.subst σ) = types ↔ plain σ types = true := by
  have hPlain : ∀ t : TypeRef, t.subst σ = t ↔ plain σ [t] = true := fun t => by
    simp
  rw [map_eq_self_iff σ hPlain, List.flatMap_singleton']

mutual

/-- The same of an expression. Statements stand in the bodies of lambdas, so the
induction is on both. -/
theorem Expr.subst_eq_self_iff (e : Expr) : e.subst σ = e ↔ plain σ e.types = true := by
  cases e with
  | null => simp
  | mk type typeInfo node =>
    simp [TypeInfo.subst_eq_self_iff, ExprNode.subst_eq_self_iff node]

theorem ExprNode.subst_eq_self_iff (node : ExprNode) :
    node.subst σ = node ↔ plain σ node.types = true := by
  cases node with
  | lambda parameters returnType isExpression exprBody blockBody =>
    simp [parameters_subst_eq_self_iff, Expr.subst_eq_self_iff exprBody,
      Stmt.subst_eq_self_iff blockBody]
  | genericInst baseName typeArgs =>
    simp [typeRefs_subst_eq_self_iff]
  | literal | «variable» | this => simp
  | binary | unary | call | memberAccess | staticAccess | super | new | index | await
  | arrayLiteral =>
    simp [Expr.subst_eq_self_iff, Expr.listSubst_eq_self_iff]

theorem Expr.listSubst_eq_self_iff (es : List Expr) :
    Expr.listSubst σ es = es ↔ plain σ (Expr.listTypes es) = true := by
  cases es with
  | nil => simp
  | cons e es =>
    simp [Expr.subst_eq_self_iff e, Expr.listSubst_eq_self_iff es]

/-- One case for each form of statement: a type of a variable, of a parameter, of a
field or of a payload counts like those in expressions. -/
theorem Stmt.subst_eq_self_iff (stmt : Stmt) :
    stmt.subst σ = stmt ↔ plain σ stmt.types = true := by
  cases stmt with
  | null | breakStmt | continueStmt | «include» => simp
  | enum name payloads =>
    have hPayloads := map_eq_self_iff σ (typeRefs_subst_eq_self_iff σ) payloads
    rw [List.flatMap_id'] at hPayloads
    simp [hPayloads]
  | declaration | constDecl | function | classStmt | externFunc | struct | union =>
    simp [TypeInfo.subst_eq_self_iff, parameters_subst_eq_self_iff, Expr.subst_eq_self_iff,
      Expr.listSubst_eq_self_iff, Stmt.subst_eq_self_iff, Stmt.listSubst_eq_self_iff]
  | assignment | print | ifStmt | forStmt | forIn | whileStmt | returnStmt | exprStmt | block
  | tryStmt | throwStmt | matchStmt | trait | impl =>
    simp [Expr.subst_eq_self_iff, Stmt.subst_eq_self_iff, Stmt.listSubst_eq_self_iff,
      CatchClause.listSubst_eq_self_iff, MatchArm.listSubst_eq_self_iff]

theorem Stmt.listSubst_eq_self_iff (stmts : List Stmt) :
    Stmt.listSubst σ stmts = stmts ↔ plain σ (Stmt.listTypes stmts) = true := by
  cases stmts with
  | nil => simp
  | cons stmt stmts =>
    simp [Stmt.subst_eq_self_iff stmt, Stmt.listSubst_eq_self_iff stmts]

theorem CatchClause.listSubst_eq_self_iff (clauses : List CatchClause) :
    CatchClause.listSubst σ clauses = clauses ↔
      plain σ (CatchClause.listTypes clauses) = true := by
  cases clauses with
  | nil => simp
  | cons clause clauses =>
    cases clause with
    | mk exceptionVar exceptionType body =>
      simp [Stmt.subst_eq_self_iff body, CatchClause.listSubst_eq_self_iff clauses]

theorem MatchArm.listSubst_eq_self_iff (arms : List MatchArm) :
    MatchArm.listSubst σ arms = arms ↔ plain σ (MatchArm.listTypes arms) = true := by
  cases arms with
  | nil => simp
  | cons arm arms =>
    cases arm with
    | mk pattern variantName bindVars body =>
      simp [Expr.subst_eq_self_iff pattern, Expr.listSubst_eq_self_iff bindVars,
        Stmt.subst_eq_self_iff body, MatchArm.listSubst_eq_self_iff arms, and_assoc]

end

mutual

/-- The types of a nested type after the substitution are those from before, each replaced. -/
theorem TypeInfo.types_subst (info : TypeInfo) :
    (info.subst σ).types = info.types.map (TypeRef.subst σ) := by
  cases info with
  | null => simp
  | mk base typeName elementType paramTypes returnType =>
    simp [TypeInfo.types_subst elementType, TypeInfo.listTypes_listSubst paramTypes,
      TypeInfo.types_subst returnType]

theorem TypeInfo.listTypes_listSubst (infos : List TypeInfo) :
    TypeInfo.listTypes (TypeInfo.listSubst σ infos) =
      (TypeInfo.listTypes infos).map (TypeRef.subst σ) := by
  cases infos with
  | nil => simp
  | cons info infos =>
    simp [TypeInfo.types_subst info, TypeInfo.listTypes_listSubst infos]

end

/-- The same of a parameter. -/
theorem Parameter.types_subst (param : Parameter) :
    (param.subst σ).types = param.types.map (TypeRef.subst σ) := by
  simp [TypeInfo.types_subst]

theorem parameters_types_subst (params : List Parameter) :
    (params.map (Parameter.subst σ)).flatMap Parameter.types =
      (params.flatMap Parameter.types).map (TypeRef.subst σ) := by
  induction params with
  | nil => rfl
  | cons param params ih =>
    simp [TypeInfo.types_subst, ih]

mutual

/-- The same of an expression. -/
theorem Expr.types_subst (e : Expr) :
    (e.subst σ).types = e.types.map (TypeRef.subst σ) := by
  cases e with
  | null => simp
  | mk type typeInfo node =>
    simp [TypeInfo.types_subst, ExprNode.types_subst node]

theorem ExprNode.types_subst (node : ExprNode) :
    (node.subst σ).types = node.types.map (TypeRef.subst σ) := by
  cases node with
  | lambda | genericInst | literal | «variable» | this =>
    simp [parameters_types_subst, Expr.types_subst, Stmt.types_subst]
  | binary | unary | call | memberAccess | staticAccess | super | new | index | await
  | arrayLiteral =>
    simp [Expr.types_subst, Expr.listTypes_listSubst]

theorem Expr.listTypes_listSubst (es : List Expr) :
    Expr.listTypes (Expr.listSubst σ es) = (Expr.listTypes es).map (TypeRef.subst σ) := by
  cases es with
  | nil => simp
  | cons e es =>
    simp [Expr.types_subst e, Expr.listTypes_listSubst es]

/-- The same of a statement. -/
theorem Stmt.types_subst (stmt : Stmt) :
    (stmt.subst σ).types = stmt.types.map (TypeRef.subst σ) := by
  cases stmt with
  | null | breakStmt | continueStmt | «include» | enum =>
    simp [List.map_flatten]
  | declaration | constDecl | function | classStmt | externFunc | struct | union =>
    simp [TypeInfo.types_subst, parameters_types_subst, Expr.types_subst, Expr.listTypes_listSubst,
      Stmt.types_subst, Stmt.listTypes_listSubst]
  | assignment | print | ifStmt | forStmt | forIn | whileStmt | returnStmt | exprStmt | block
  | tryStmt | throwStmt | matchStmt | trait | impl =>
    simp [Expr.types_subst, Stmt.types_subst, Stmt.listTypes_listSubst,
      CatchClause.listTypes_listSubst, MatchArm.listTypes_listSubst]

theorem Stmt.listTypes_listSubst (stmts : List Stmt) :
    Stmt.listTypes (Stmt.listSubst σ stmts) = (Stmt.listTypes stmts).map (TypeRef.subst σ) := by
  cases stmts with
  | nil => simp
  | cons stmt stmts =>
    simp [Stmt.types_subst stmt, Stmt.listTypes_listSubst stmts]

/-- The type of a caught exception is not a type of the tree. -/
theorem CatchClause.listTypes_listSubst (clauses : List CatchClause) :
    CatchClause.listTypes (CatchClause.listSubst σ clauses) =
      (CatchClause.listTypes clauses).map (TypeRef.subst σ) := by
  cases clauses with
  | nil => simp
  | cons clause clauses =>
    cases clause with
    | mk exceptionVar exceptionType body =>
      simp [Stmt.types_subst body, CatchClause.listTypes_listSubst clauses]

theorem MatchArm.listTypes_listSubst (arms : List MatchArm) :
    MatchArm.listTypes (MatchArm.listSubst σ arms) =
      (MatchArm.listTypes arms).map (TypeRef.subst σ) := by
  cases arms with
  | nil => simp
  | cons arm arms =>
    cases arm with
    | mk pattern variantName bindVars body =>
      simp [Expr.types_subst pattern, Expr.listTypes_listSubst bindVars, Stmt.types_subst body,
        MatchArm.listTypes_listSubst arms]

end

theorem plain_map_subst : plain σ (types.map (TypeRef.subst σ)) = true := by
  induction types with
  | nil => rfl
  | cons t types ih => simp [TypeRef.names_subst, ih]

end Casprix.Middle
