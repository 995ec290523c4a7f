import Casprix.Frontend.Ast

/-! Classes and their methods in the symbol table, and the slot every instance
method gets. A class is kept with its ancestors, so a table holds one list for
each class, the class itself first. -/
namespace Casprix.Sema

open Frontend

/-- A method as it is declared. It has a body when it is not abstract. -/
structure MethodDecl where
  name : String
  returnType : DataType
  paramTypes : List DataType
  isConstructor : Bool
  isStatic : Bool
  isAbstract : Bool
  deriving DecidableEq, Repr

structure ClassStmt where
  name : String
  parentName : Option String
  methods : List MethodDecl
  deriving DecidableEq, Repr

structure MethodSymbol where
  name : String
  returnType : DataType
  paramTypes : List DataType
  isConstructor : Bool
  isStatic : Bool
  isAbstract : Bool
  vtableIndex : Int
  deriving DecidableEq, Repr

structure ClassSymbol where
  name : String
  methods : List MethodSymbol
  deriving DecidableEq, Repr

/-- The first method of the name, in the class or its nearest ancestor. -/
def findMethod : List ClassSymbol → String → Option MethodSymbol
  | [], _ => none
  | classSym :: parents, name =>
    match classSym.methods.find? (fun method => method.name == name) with
    | some method => some method
    | none => findMethod parents name

def maxIndex (methods : List MethodSymbol) : Int :=
  methods.foldl (fun max method =>
    if max < method.vtableIndex then method.vtableIndex else max) (-1)

/-- The index of the method that is overridden, or a new one. -/
def assignIndex (classSym : ClassSymbol) (parents : List ClassSymbol) (method : MethodDecl)
    (overridden : Option MethodSymbol) : Int :=
  if method.isConstructor || method.isStatic then -1
  else
    let inherited := match overridden with
      | some parentMethod => parentMethod.vtableIndex
      | none => -1
    if inherited = -1 then
      maxIndex (classSym.methods ++ parents.flatMap ClassSymbol.methods) + 1
    else inherited

/-- Static methods and constructors override nothing. -/
def overriddenMethod (parents : List ClassSymbol) (method : MethodDecl) : Option MethodSymbol :=
  if method.isConstructor || method.isStatic then none else findMethod parents method.name

/-- A method is refused when its name is taken in the class, constructors
apart, or when its signature differs from the one it overrides. -/
def addMethodToClass (classSym : ClassSymbol) (parents : List ClassSymbol)
    (method : MethodDecl) : Option ClassSymbol :=
  if classSym.methods.any fun old =>
      old.name == method.name && !(method.isConstructor && old.isConstructor) then none
  else if (overriddenMethod parents method).any fun parentMethod =>
      parentMethod.returnType != method.returnType ||
        parentMethod.paramTypes != method.paramTypes then none
  else
    some { classSym with methods := classSym.methods ++ [{
      name := method.name
      returnType := method.returnType
      paramTypes := method.paramTypes
      isConstructor := method.isConstructor
      isStatic := method.isStatic
      isAbstract := false
      vtableIndex :=
        assignIndex classSym parents method (overriddenMethod parents method) }] }

/-- The first method of the name becomes abstract. -/
def markAbstract (name : String) : List MethodSymbol → List MethodSymbol
  | [] => []
  | method :: rest =>
    if method.name = name then { method with isAbstract := true } :: rest
    else method :: markAbstract name rest

/-- The methods of a class in the order of their declarations. Programs in
which a method is refused are left out. -/
def addMethods (parents : List ClassSymbol) :
    ClassSymbol → List MethodDecl → Option ClassSymbol
  | classSym, [] => some classSym
  | classSym, method :: rest =>
    (addMethodToClass classSym parents method).bind fun added =>
      addMethods parents
        (if method.isAbstract then
          { added with methods := markAbstract method.name added.methods } else added) rest

def lookupClass (table : List (List ClassSymbol)) (name : String) : Option (List ClassSymbol) :=
  table.find? fun chain => (chain.head?.map ClassSymbol.name) == some name

/-- The ancestors of a class are known before it. -/
def parentChain (table : List (List ClassSymbol)) : Option String → Option (List ClassSymbol)
  | none => some []
  | some parentName => lookupClass table parentName

def preregisterClass (table : List (List ClassSymbol)) (stmt : ClassStmt) :
    Option (List (List ClassSymbol)) :=
  if (lookupClass table stmt.name).isSome then none
  else
    (parentChain table stmt.parentName).bind fun parents =>
      (addMethods parents ⟨stmt.name, []⟩ stmt.methods).map fun classSym =>
        table ++ [classSym :: parents]

/-- The first pass over a program. -/
def preregisterClasses (stmts : List ClassStmt) : Option (List (List ClassSymbol)) :=
  stmts.foldlM preregisterClass []

end Casprix.Sema
