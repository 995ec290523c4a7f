import Mathlib.Data.List.Basic

/-! The symbol table of the semantic analyzer. It is listed from its end, the
newest symbol first, which is the order of every scan. -/
namespace Casprix.Sema

inductive SymbolKind where
  | variable
  | function
  | parameter
  | «class»
  | trait
  deriving DecidableEq, Repr

/-- The identity of a symbol is its allocation; that of a freed symbol is not used again. -/
structure Symbol where
  id : Nat
  name : String
  kind : SymbolKind
  scopeDepth : Nat
  deriving DecidableEq, Repr

abbrev SymbolTable := List Symbol

namespace SymbolTable

variable (table : SymbolTable)

/-- The redeclaration check looks back to the first shallower symbol. -/
def redeclares (name : String) (scopeDepth : Nat) : Bool :=
  (table.takeWhile fun symbol => scopeDepth ≤ symbol.scopeDepth).any fun symbol =>
    symbol.name == name

def addSymbol (symbol : Symbol) : Option SymbolTable :=
  if table.redeclares symbol.name symbol.scopeDepth then none else some (symbol :: table)

def lookupSymbol (name : String) : Option Symbol :=
  table.find? fun symbol => symbol.name == name

def lookupClass (name : String) : Option Symbol :=
  table.find? fun symbol => symbol.kind == .class && symbol.name == name

def lookupTrait (name : String) : Option Symbol :=
  table.find? fun symbol => symbol.kind == .trait && symbol.name == name

/-- The parent is looked up behind the new symbol, which has no class yet. -/
def addClass (symbol : Symbol) (parentName : Option String) : Option SymbolTable :=
  match parentName with
  | none => table.addSymbol symbol
  | some parent =>
    if parent ≠ symbol.name ∧ (table.lookupClass parent).isSome then table.addSymbol symbol
    else none

def exitScope (scopeDepth : Nat) : SymbolTable :=
  table.dropWhile fun symbol => symbol.scopeDepth == scopeDepth

end SymbolTable

end Casprix.Sema
