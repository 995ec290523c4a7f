import Casprix.Middle.TypedTree
import Mathlib.Data.List.Induction

/-! The specialization of generic classes and functions, and when it is the substitution of
the type arguments. -/
namespace Casprix.Middle

open List
open Frontend (DataType)

section

variable (params : List String) (args : List DataType)

/-- The loop over the parameters and arguments: the last parameter of the name counts. -/
def substituteType (t : TypeRef) : TypeRef :=
  (params.zip args).foldl (fun new (param : String × DataType) =>
    if t.type = .generic ∧ t.className = some param.1 then ⟨param.2, none⟩ else new) t

mutual

def copyExprWithSubstitution : Expr → Expr
  | .null => .null
  | .mk type typeInfo node => .mk (substituteType params args type) typeInfo (copyNode node)

/-- What the switch has no case for is copied as it is. -/
def copyNode : ExprNode → ExprNode
  | .binary left operator right =>
    .binary (copyExprWithSubstitution left) operator (copyExprWithSubstitution right)
  | .unary operator operand => .unary operator (copyExprWithSubstitution operand)
  | .call callee name arguments =>
    .call (copyExprWithSubstitution callee) name (copyExprs arguments)
  | .memberAccess object memberName isMethodCall arguments =>
    .memberAccess (copyExprWithSubstitution object) memberName isMethodCall
      (if isMethodCall then copyExprs arguments else arguments)
  | .index array index => .index (copyExprWithSubstitution array) (copyExprWithSubstitution index)
  | .new className arguments => .new className (copyExprs arguments)
  | node => node

def copyExprs : List Expr → List Expr
  | [] => []
  | e :: es => copyExprWithSubstitution e :: copyExprs es

end

mutual

def copyStmtWithSubstitution : Stmt → Stmt
  | .null => .null
  | .declaration name type typeInfo initializer =>
    .declaration name (substituteType params args type) typeInfo
      (copyExprWithSubstitution params args initializer)
  | .exprStmt expression => .exprStmt (copyExprWithSubstitution params args expression)
  | .returnStmt value => .returnStmt (copyExprWithSubstitution params args value)
  | .ifStmt condition thenBranch elseBranch =>
    .ifStmt (copyExprWithSubstitution params args condition) (copyStmtWithSubstitution thenBranch)
      (copyStmtWithSubstitution elseBranch)
  | .whileStmt condition body =>
    .whileStmt (copyExprWithSubstitution params args condition) (copyStmtWithSubstitution body)
  | .forStmt varName varType initializer condition increment body =>
    .forStmt varName varType (copyExprWithSubstitution params args initializer)
      (copyExprWithSubstitution params args condition) (copyStmtWithSubstitution increment)
      (copyStmtWithSubstitution body)
  | .block statements isAllocScope => .block (copyStmts statements) isAllocScope
  | .print expression => .print (copyExprWithSubstitution params args expression)
  | .assignment target value =>
    .assignment (copyExprWithSubstitution params args target)
      (copyExprWithSubstitution params args value)
  | stmt => stmt

def copyStmts : List Stmt → List Stmt
  | [] => []
  | stmt :: stmts => copyStmtWithSubstitution stmt :: copyStmts stmts

end

/-- A generic return type takes every argument in turn, whatever it names. -/
def substituteReturnType (t : TypeRef) : TypeRef :=
  (params.zip args).foldl (fun new (param : String × DataType) =>
    if t.type = .generic then ⟨param.2, none⟩ else new) t

end

def mangledTypeName : DataType → String
  | .i32 => "Int"
  | .f64 => "Float"
  | .string => "String"
  | .bool => "Bool"
  | _ => "Unknown"

def mangleGenericName (base : String) (typeArgs : List DataType) : String :=
  typeArgs.foldl (fun mangled type => mangled ++ "_" ++ mangledTypeName type) base

structure GenericInstance where
  mangledName : String
  baseName : String
  typeArgs : List DataType
  specializedClass : ClassStmt

/-- The instances made so far, the newest first. -/
structure MonoContext where
  instances : List GenericInstance

def findInstantiation (baseName : String) (typeArgs : List DataType) (ctx : MonoContext) :
    Option GenericInstance :=
  ctx.instances.find? fun inst => inst.baseName = baseName && inst.typeArgs = typeArgs

/-- The class with its fields, and the bodies and return types of its methods, specialized. -/
def specializeClass (genericClass : ClassStmt) (typeArgs : List DataType) : ClassStmt where
  name := mangleGenericName genericClass.name typeArgs
  parentName := genericClass.parentName
  fields := genericClass.fields.map fun field =>
    { field with type := substituteType genericClass.typeParams typeArgs field.type }
  methods := genericClass.methods.map fun method =>
    { method with
      body := copyStmtWithSubstitution genericClass.typeParams typeArgs method.body
      returnType := substituteReturnType genericClass.typeParams typeArgs method.returnType }
  typeParams := []

def monomorphizeClass (genericClass : ClassStmt) (typeArgs : List DataType) (ctx : MonoContext) :
    GenericInstance × MonoContext :=
  match findInstantiation genericClass.name typeArgs ctx with
  | some existing => (existing, ctx)
  | none =>
    let inst : GenericInstance :=
      { mangledName := mangleGenericName genericClass.name typeArgs
        baseName := genericClass.name
        typeArgs := typeArgs
        specializedClass := specializeClass genericClass typeArgs }
    (inst, ⟨inst :: ctx.instances⟩)

def monomorphizeFunction (genericFunc : FunctionStmt) (typeArgs : List DataType) : FunctionStmt :=
  { genericFunc with
    name := mangleGenericName genericFunc.name typeArgs
    typeParams := []
    body := copyStmtWithSubstitution genericFunc.typeParams typeArgs genericFunc.body
    returnType := substituteReturnType genericFunc.typeParams typeArgs genericFunc.returnType }

/-- The argument of a parameter; a parameter hides an earlier one of its name. -/
def argumentOf (params : List String) (args : List DataType) : Substitution :=
  fun name => (params.zip args).reverse.lookup name

/-- The class with the arguments for the parameters in every type position. -/
def ClassStmt.subst (generic : ClassStmt) (args : List DataType) : ClassStmt :=
  let σ := argumentOf generic.typeParams args
  { name := mangleGenericName generic.name args
    parentName := generic.parentName
    fields := generic.fields.map fun field =>
      { field with type := field.type.subst σ, defaultValue := field.defaultValue.subst σ }
    methods := generic.methods.map fun method =>
      { method with
        parameters := method.parameters.map (Parameter.subst σ)
        returnType := method.returnType.subst σ
        body := method.body.subst σ }
    typeParams := [] }

variable (generic : FunctionStmt)

def FunctionStmt.subst (args : List DataType) : FunctionStmt :=
  let σ := argumentOf generic.typeParams args
  { generic with
    name := mangleGenericName generic.name args
    parameters := generic.parameters.map (Parameter.subst σ)
    returnType := generic.returnType.subst σ
    returnTypeInfo := generic.returnTypeInfo.subst σ
    body := generic.body.subst σ
    typeParams := [] }

def ClassStmt.types (stmt : ClassStmt) : List TypeRef :=
  (stmt.fields.flatMap fun field => field.type :: field.defaultValue.types) ++
    stmt.methods.flatMap fun method =>
      method.parameters.flatMap Parameter.types ++ method.returnType :: method.body.types

def FunctionStmt.types (stmt : FunctionStmt) : List TypeRef :=
  stmt.parameters.flatMap Parameter.types ++
    stmt.returnType :: (stmt.returnTypeInfo.types ++ stmt.body.types)

section

variable (σ : Substitution)

mutual

/-- No parameter is named in a position that the copy leaves as it is. -/
def Expr.clean : Expr → Bool
  | .null => true
  | .mk _ typeInfo node => plain σ typeInfo.types && node.clean

def ExprNode.clean : ExprNode → Bool
  | .binary left _ right => left.clean && right.clean
  | .unary _ operand => operand.clean
  | .call callee _ arguments => callee.clean && Expr.listClean arguments
  | .memberAccess object _ isMethodCall arguments =>
    object.clean &&
      (if isMethodCall then Expr.listClean arguments else plain σ (Expr.listTypes arguments))
  | .index array index => array.clean && index.clean
  | .new _ arguments => Expr.listClean arguments
  | node => plain σ node.types

def Expr.listClean : List Expr → Bool
  | [] => true
  | e :: es => e.clean && Expr.listClean es

end

mutual

def Stmt.clean : Stmt → Bool
  | .null => true
  | .declaration _ _ typeInfo initializer => plain σ typeInfo.types && initializer.clean σ
  | .exprStmt expression => expression.clean σ
  | .returnStmt value => value.clean σ
  | .ifStmt condition thenBranch elseBranch =>
    condition.clean σ && thenBranch.clean && elseBranch.clean
  | .whileStmt condition body => condition.clean σ && body.clean
  | .forStmt _ varType initializer condition increment body =>
    !varType.names σ && initializer.clean σ && condition.clean σ && increment.clean && body.clean
  | .block statements _ => Stmt.listClean statements
  | .print expression => expression.clean σ
  | .assignment target value => target.clean σ && value.clean σ
  | stmt => plain σ stmt.types

def Stmt.listClean : List Stmt → Bool
  | [] => true
  | stmt :: stmts => stmt.clean && Stmt.listClean stmts

end

end

/-- A generic return type is that of the last parameter, or of one with the same argument. -/
def returnClean (params : List String) (args : List DataType) (t : TypeRef) : Bool :=
  t.type ≠ .generic ||
    ((params.zip args).getLast?.all fun param =>
      decide (t.subst (argumentOf params args) = ⟨param.2, none⟩))

def MethodDecl.clean (params : List String) (args : List DataType) (method : MethodDecl) : Bool :=
  plain (argumentOf params args) (method.parameters.flatMap Parameter.types) &&
    returnClean params args method.returnType && method.body.clean (argumentOf params args)

/-- No default value and no parameter of a method names a type parameter, and the return
types and bodies of the methods are clean. -/
def ClassStmt.clean (generic : ClassStmt) (args : List DataType) : Bool :=
  (generic.fields.all fun field =>
      plain (argumentOf generic.typeParams args) field.defaultValue.types) &&
    generic.methods.all (MethodDecl.clean generic.typeParams args)

def FunctionStmt.clean (args : List DataType) : Bool :=
  plain (argumentOf generic.typeParams args) (generic.parameters.flatMap Parameter.types) &&
    plain (argumentOf generic.typeParams args) generic.returnTypeInfo.types &&
    returnClean generic.typeParams args generic.returnType &&
    generic.body.clean (argumentOf generic.typeParams args)

theorem substituteType_eq (params : List String) (args : List DataType) (t : TypeRef) :
    substituteType params args t = t.subst (argumentOf params args) := by
  unfold substituteType argumentOf
  generalize params.zip args = bindings
  induction bindings using List.reverseRecOn with
  | nil => simp [TypeRef.subst]
  | append_singleton bindings param ih =>
    obtain ⟨name, arg⟩ := param
    rw [foldl_append, ih]
    obtain ⟨type, className⟩ := t
    by_cases hGeneric : type = .generic
    · cases className with
      | none => simp [TypeRef.subst, hGeneric]
      | some other =>
        by_cases hName : other = name
        · simp [TypeRef.subst, hGeneric, hName, lookup_cons]
        · have hBeq : (other == name) = false := beq_eq_false_iff_ne.mpr hName
          simp [TypeRef.subst, hGeneric, hName, lookup_cons, hBeq]
    · simp [TypeRef.subst, hGeneric]

theorem substituteReturnType_eq_iff (params : List String) (args : List DataType) (t : TypeRef) :
    substituteReturnType params args t = t.subst (argumentOf params args) ↔
      returnClean params args t = true := by
  unfold substituteReturnType returnClean
  by_cases hGeneric : t.type = .generic
  · cases hLast : (params.zip args).getLast? with
    | none =>
      have hNone : params.zip args = [] := List.getLast?_eq_none_iff.mp hLast
      have hSubst : t.subst (argumentOf params args) = t := by
        unfold TypeRef.subst argumentOf
        rw [hNone]
        cases t.className <;> simp
      simp [hNone, hSubst]
    | some param =>
      obtain ⟨front, hSplit⟩ := List.getLast?_eq_some_iff.mp hLast
      rw [hSplit, foldl_append]
      simp [hGeneric, eq_comm]
  · have hKeep : (params.zip args).foldl (fun new (param : String × DataType) =>
        if t.type = .generic then ⟨param.2, none⟩ else new) t = t := by
      simp [hGeneric]
    rw [hKeep]
    simp [hGeneric, TypeRef.subst]

section

variable (params : List String) (args : List DataType)

attribute [local simp] copyStmtWithSubstitution copyExprWithSubstitution

mutual

/-- A copy is the substitution exactly where no parameter is named in what it leaves. -/
theorem copyExpr_eq_subst_iff (e : Expr) :
    copyExprWithSubstitution params args e = e.subst (argumentOf params args) ↔
      e.clean (argumentOf params args) = true := by
  cases e with
  | null => simp [Expr.subst, Expr.clean]
  | mk type typeInfo node =>
    simp [Expr.subst, Expr.clean, substituteType_eq, eq_comm
      (a := typeInfo), TypeInfo.subst_eq_self_iff, copyNode_eq_subst_iff node]

theorem copyNode_eq_subst_iff (node : ExprNode) :
    copyNode params args node = node.subst (argumentOf params args) ↔
      node.clean (argumentOf params args) = true := by
  have hKept : node = node.subst (argumentOf params args) ↔
      plain (argumentOf params args) node.types = true :=
    eq_comm.trans (ExprNode.subst_eq_self_iff (argumentOf params args) node)
  cases node with
  | memberAccess object memberName isMethodCall arguments =>
    cases isMethodCall with
    | true =>
      simp [copyNode, ExprNode.subst, ExprNode.clean, copyExpr_eq_subst_iff object,
        copyExprs_eq_subst_iff arguments]
    | false =>
      have hArguments : arguments = Expr.listSubst (argumentOf params args) arguments ↔
          plain (argumentOf params args) (Expr.listTypes arguments) = true :=
        eq_comm.trans (Expr.listSubst_eq_self_iff (argumentOf params args) arguments)
      simp [copyNode, ExprNode.subst, ExprNode.clean, copyExpr_eq_subst_iff object, hArguments]
  | binary | unary | call | index | new =>
    simp [copyNode, ExprNode.subst, ExprNode.clean, copyExpr_eq_subst_iff, copyExprs_eq_subst_iff]
  | literal | «variable» | staticAccess | this | super | lambda | genericInst | await
  | arrayLiteral => exact hKept

theorem copyExprs_eq_subst_iff (es : List Expr) :
    copyExprs params args es = Expr.listSubst (argumentOf params args) es ↔
      Expr.listClean (argumentOf params args) es = true := by
  cases es with
  | nil => simp [copyExprs, Expr.listSubst, Expr.listClean]
  | cons e es =>
    simp [copyExprs, Expr.listSubst, Expr.listClean, copyExpr_eq_subst_iff e,
      copyExprs_eq_subst_iff es]

end

mutual

theorem copyStmt_eq_subst_iff (stmt : Stmt) :
    copyStmtWithSubstitution params args stmt = stmt.subst (argumentOf params args) ↔
      stmt.clean (argumentOf params args) = true := by
  have hKept : stmt = stmt.subst (argumentOf params args) ↔
      plain (argumentOf params args) stmt.types = true :=
    eq_comm.trans (Stmt.subst_eq_self_iff (argumentOf params args) stmt)
  cases stmt with
  | null => simp [Stmt.subst, Stmt.clean]
  | declaration name type typeInfo initializer =>
    simp [Stmt.subst, Stmt.clean, substituteType_eq, eq_comm
      (a := typeInfo), TypeInfo.subst_eq_self_iff, copyExpr_eq_subst_iff params args initializer]
  | forStmt varName varType initializer condition increment body =>
    simp [Stmt.subst, Stmt.clean, eq_comm (a := varType), TypeRef.subst_eq_self_iff,
      copyExpr_eq_subst_iff params args, copyStmt_eq_subst_iff increment,
        copyStmt_eq_subst_iff body, and_assoc]
  | exprStmt | returnStmt | ifStmt | whileStmt | block | print | assignment =>
    simp [Stmt.subst, Stmt.clean, copyExpr_eq_subst_iff params args, copyStmt_eq_subst_iff,
      copyStmts_eq_subst_iff, and_assoc]
  | constDecl | forIn | function | breakStmt | continueStmt | «include» | classStmt | externFunc
  | struct | enum | union | tryStmt | throwStmt | matchStmt | trait | impl => exact hKept

theorem copyStmts_eq_subst_iff (stmts : List Stmt) :
    copyStmts params args stmts = Stmt.listSubst (argumentOf params args) stmts ↔
      Stmt.listClean (argumentOf params args) stmts = true := by
  cases stmts with
  | nil => simp [copyStmts, Stmt.listSubst, Stmt.listClean]
  | cons stmt stmts =>
    simp [copyStmts, Stmt.listSubst, Stmt.listClean, copyStmt_eq_subst_iff stmt,
      copyStmts_eq_subst_iff stmts]

end

end

section

variable (σ : Substitution) (params : List String) (args : List DataType)
  (hσ : σ = argumentOf params args)
include hσ

theorem specializeField_eq_iff (field : FieldDecl) :
    ({ field with type := substituteType params args field.type } : FieldDecl) =
      { field with type := field.type.subst σ, defaultValue := field.defaultValue.subst σ } ↔
      plain σ field.defaultValue.types = true := by
  subst hσ
  simp [substituteType_eq, eq_comm (a := field.defaultValue), Expr.subst_eq_self_iff]

theorem specializeMethod_eq_iff (method : MethodDecl) :
    ({ method with
        body := copyStmtWithSubstitution params args method.body
        returnType := substituteReturnType params args method.returnType } : MethodDecl) =
      { method with
        parameters := method.parameters.map (Parameter.subst σ)
        returnType := method.returnType.subst σ
        body := method.body.subst σ } ↔ method.clean params args = true := by
  subst hσ
  simp [MethodDecl.clean, eq_comm (a := method.parameters), parameters_subst_eq_self_iff,
    substituteReturnType_eq_iff, copyStmt_eq_subst_iff, and_assoc]

end

theorem specializeClass_eq_subst_iff (generic : ClassStmt) (args : List DataType) :
    specializeClass generic args = generic.subst args ↔ generic.clean args = true := by
  have hClass : specializeClass generic args = generic.subst args ↔
      (specializeClass generic args).fields = (generic.subst args).fields ∧
        (specializeClass generic args).methods = (generic.subst args).methods := by
    simp [specializeClass, ClassStmt.subst]
  rw [hClass]
  simp only [specializeClass, ClassStmt.subst, map_inj_left, ClassStmt.clean,
    Bool.and_eq_true, all_eq_true, specializeField_eq_iff _ _ _ rfl,
    specializeMethod_eq_iff _ _ _ rfl]

theorem monomorphizeFunction_eq_subst_iff (args : List DataType) :
    monomorphizeFunction generic args = generic.subst args ↔ generic.clean args = true := by
  simp [monomorphizeFunction, FunctionStmt.subst, FunctionStmt.clean,
    eq_comm (a := generic.parameters), parameters_subst_eq_self_iff, substituteReturnType_eq_iff,
    eq_comm (a := generic.returnTypeInfo), TypeInfo.subst_eq_self_iff, copyStmt_eq_subst_iff]
  tauto

theorem plain_classSubst (generic : ClassStmt) (args : List DataType) :
    plain (argumentOf generic.typeParams args) (generic.subst args).types = true := by
  have hTypes : (generic.subst args).types =
      generic.types.map (TypeRef.subst (argumentOf generic.typeParams args)) := by
    simp [ClassStmt.types, ClassStmt.subst, map_flatMap, flatMap_map, Expr.types_subst,
      Stmt.types_subst, Parameter.types_subst]
  rw [hTypes]
  exact plain_map_subst _ _

theorem plain_functionSubst (args : List DataType) :
    plain (argumentOf generic.typeParams args) (generic.subst args).types = true := by
  have hTypes : (generic.subst args).types =
      generic.types.map (TypeRef.subst (argumentOf generic.typeParams args)) := by
    simp [FunctionStmt.types, FunctionStmt.subst, Stmt.types_subst, parameters_types_subst,
      TypeInfo.types_subst]
  rw [hTypes]
  exact plain_map_subst _ _

/-- The contexts of a run that specializes these classes. -/
inductive Reaches (classes : List ClassStmt) : MonoContext → Prop where
  | init : Reaches classes ⟨[]⟩
  | step {ctx : MonoContext} {generic : ClassStmt} (prior : Reaches classes ctx)
      (hMem : generic ∈ classes) (args : List DataType) :
      Reaches classes (monomorphizeClass generic args ctx).2

/-- An instance is a class of the run, specialized. -/
def Made (classes : List ClassStmt) (inst : GenericInstance) : Prop :=
  ∃ generic ∈ classes, inst.baseName = generic.name ∧
    inst.specializedClass = specializeClass generic inst.typeArgs

theorem monomorphizeClass_made {classes : List ClassStmt} {ctx : MonoContext}
    {generic : ClassStmt} (h : ∀ inst ∈ ctx.instances, Made classes inst)
    (hMem : generic ∈ classes) (args : List DataType) :
    ∀ inst ∈ (monomorphizeClass generic args ctx).2.instances, Made classes inst := by
  unfold monomorphizeClass
  cases findInstantiation generic.name args ctx with
  | some existing => exact h
  | none =>
    intro inst hInst
    rcases mem_cons.mp hInst with rfl | hOld
    · exact ⟨generic, hMem, rfl, rfl⟩
    · exact h inst hOld

theorem Reaches.made {classes : List ClassStmt} {ctx : MonoContext} (h : Reaches classes ctx) :
    ∀ inst ∈ ctx.instances, Made classes inst := by
  induction h with
  | init => exact nofun
  | step prior hMem args ih => exact monomorphizeClass_made ih hMem args

section

variable {classes : List ClassStmt} {ctx : MonoContext}
  (hNames : ∀ c ∈ classes, ∀ d ∈ classes, c.name = d.name → c = d)
  (h : Reaches classes ctx)
include hNames h

theorem specializedClass_monomorphizeClass
    {generic : ClassStmt} (hMem : generic ∈ classes) (args : List DataType) :
    (monomorphizeClass generic args ctx).1.specializedClass = specializeClass generic args := by
  unfold monomorphizeClass
  cases hFound : findInstantiation generic.name args ctx with
  | none => rfl
  | some existing =>
    have hTest := find?_some hFound
    rw [Bool.and_eq_true, decide_eq_true_eq, decide_eq_true_eq] at hTest
    obtain ⟨other, hOther, hBase, hClass⟩ := h.made existing (mem_of_find?_eq_some hFound)
    obtain rfl : other = generic := hNames _ hOther _ hMem (hBase.symm.trans hTest.1)
    rw [hClass, hTest.2]

/-- The result is the substitution, and no generic type in it names a parameter. -/
def ClassStmt.IsSubstitution (generic : ClassStmt) (args : List DataType) (result : ClassStmt) :
    Prop :=
  result = generic.subst args ∧ plain (argumentOf generic.typeParams args) result.types = true

def FunctionStmt.IsSubstitution (args : List DataType) (result : FunctionStmt) : Prop :=
  result = generic.subst args ∧ plain (argumentOf generic.typeParams args) result.types = true

/-- Monomorphization is the substitution of the arguments exactly for the classes and
functions that name their parameters in copied positions only, and in return types the
last one. -/
theorem monomorphize_isSubstitution_iff (args : List DataType) :
    (∀ generic ∈ classes, generic.IsSubstitution args
        (monomorphizeClass generic args ctx).1.specializedClass ↔ generic.clean args = true) ∧
      ∀ generic : FunctionStmt, generic.IsSubstitution args
        (monomorphizeFunction generic args) ↔
        generic.clean args = true := by
  constructor
  · intro generic hMem
    rw [ClassStmt.IsSubstitution, specializedClass_monomorphizeClass hNames h hMem,
      ← specializeClass_eq_subst_iff]
    refine ⟨fun hBoth => hBoth.1, fun hEq => ⟨hEq, ?_⟩⟩
    rw [hEq]
    exact plain_classSubst generic args
  · intro generic
    rw [FunctionStmt.IsSubstitution, ← monomorphizeFunction_eq_subst_iff]
    refine ⟨fun hBoth => hBoth.1, fun hEq => ⟨hEq, ?_⟩⟩
    rw [hEq]
    exact plain_functionSubst generic args

end

/-- A pair of two parameters with methods that return and take the first. -/
def pairClass : ClassStmt where
  name := "Pair"
  parentName := none
  fields :=
    [{ name := "first", type := ⟨.generic, some "A"⟩, defaultValue := .null },
      { name := "second", type := ⟨.generic, some "B"⟩, defaultValue := .null }]
  methods :=
    [{ name := "getFirst", parameters := [], returnType :=
      ⟨.generic, some "A"⟩, body := .null },
      { name := "setFirst"
        parameters := [{ name := "value", type := ⟨.generic, some "A"⟩, typeInfo := .null }]
        returnType := { type := .void }
        body := .null }]
  typeParams := ["A", "B"]

theorem monomorphize_pairClass_iff :
    (∀ generic ∈ [pairClass], generic.IsSubstitution [.i32, .string]
        (monomorphizeClass generic [.i32, .string] ⟨[]⟩).1.specializedClass ↔
          generic.clean [.i32, .string] = true) ∧
      ∀ generic : FunctionStmt, generic.IsSubstitution [.i32, .string]
        (monomorphizeFunction generic [.i32, .string]) ↔ generic.clean [.i32, .string] = true :=
  monomorphize_isSubstitution_iff
    (fun _ hc _ hd _ => (mem_singleton.mp hc).trans (mem_singleton.mp hd).symm)
    Reaches.init [.i32, .string]

/-- The method still takes a value of type `A`. -/
theorem pairClass_not_isSubstitution :
    ¬ ∀ (generic : ClassStmt) (args : List DataType), args.length = generic.typeParams.length →
      generic.IsSubstitution args (monomorphizeClass generic args ⟨[]⟩).1.specializedClass := by
  intro hAll
  have hPair := (hAll pairClass [.i32, .string] rfl).1
  have hTaken := congrArg (fun result =>
    result.methods.flatMap fun method => method.parameters.map Parameter.type) hPair
  exact absurd hTaken (by decide)

end Casprix.Middle
