import Casprix.Sema.ClassTable
import Mathlib.Data.List.Induction
import Mathlib.Data.List.Pairwise

/-! The tables, labels and calls of methods in the assembly of a program, the global
variable that holds the receiver, and when they follow the class hierarchy. -/
namespace Casprix.Codegen

open Sema Bool

structure Program where
  classes : List ClassStmt
  functions : List String
  deriving DecidableEq, Repr

def methodLabel (className name : String) : String := className ++ "_" ++ name

/-- Overloaded constructors are told apart by their position. -/
def constructorLabel (className : String) (constructorCount ordinal : Nat) : String :=
  if 1 < constructorCount then className ++ "_new__c" ++ toString ordinal else className ++ "_new"

/-- The labels of the methods of a class that have a body. -/
def methodLabels (className : String) (constructorCount : Nat) :
    Nat → List MethodDecl → List String
  | _, [] => []
  | ordinal, method :: rest =>
    let label :=
      if method.isStatic then "__static_" ++ methodLabel className method.name
      else if method.isConstructor then constructorLabel className constructorCount ordinal
      else methodLabel className method.name
    let next := if !method.isStatic && method.isConstructor then ordinal + 1 else ordinal
    if method.isAbstract then methodLabels className constructorCount next rest
    else label :: methodLabels className constructorCount next rest

def classLabels (stmt : ClassStmt) : List String :=
  methodLabels stmt.name (stmt.methods.countP MethodDecl.isConstructor) 0 stmt.methods ++
    ["__dtor_" ++ stmt.name, "__vtable_" ++ stmt.name]

variable (program : Program)

/-- The labels of a program. It only assembles when they differ. -/
def emittedLabels : List String :=
  program.classes.flatMap classLabels ++ program.functions.map fun name => "__casprix_" ++ name

/-- The nearest ancestor in which a concrete method of the name is visible. -/
def concreteAncestor : List ClassSymbol → String → Option String
  | [], _ => none
  | ancestor :: rest, name =>
    match findMethod (ancestor :: rest) name with
    | some method => if method.isAbstract then concreteAncestor rest name else some ancestor.name
    | none => concreteAncestor rest name

/-- A word of a table. No label stands for zero. -/
def vtableWord (stmt : ClassStmt) (parents : List ClassSymbol) (method : MethodSymbol) :
    Option String :=
  if method.isAbstract then none
  else if stmt.methods.any fun decl => decl.name == method.name && !decl.isAbstract then
    some (methodLabel stmt.name method.name)
  else (concreteAncestor parents method.name).map fun owner => methodLabel owner method.name

def isVirtual (method : MethodSymbol) : Bool :=
  !(method.vtableIndex < 0 || method.isStatic || method.isConstructor)

/-- The table of a class has a word for each virtual method the class declares,
and a zero when there is none. -/
def vtable (stmt : ClassStmt) (classSym : ClassSymbol) (parents : List ClassSymbol) :
    List (Option String) :=
  let words := (classSym.methods.filter isVirtual).map (vtableWord stmt parents)
  if words.isEmpty then [none] else words

/-- Where `obj.name(..)` goes. The class is the static one and the table is that
of the object. -/
def methodCallTarget (classSym : ClassSymbol) (table : List (Option String)) (name : String) :
    Option String :=
  match classSym.methods.find? fun method => method.name == name with
  | some method =>
    if 0 ≤ method.vtableIndex && !method.isStatic then table[method.vtableIndex.toNat]?.join
    else some (methodLabel classSym.name name)
  | none => some (methodLabel classSym.name name)

/-- Where `Super.name(..)` goes. -/
def superCallTarget (parentName name : String) : Option String :=
  some ("__casprix_" ++ methodLabel parentName name)

/-- Only instance methods and constructors have a receiver. -/
inductive Event (Object : Type) where
  | enter (receiver : Option Object)
  | leave
  | this
  deriving DecidableEq, Repr

/-- The receivers of the activations, the innermost first, and `this_ptr`. -/
structure ThisState (Object : Type) where
  activations : List (Option Object)
  thisPtr : Option Object

variable {Object : Type}

/-- The prologue of a method with a receiver stores it, and nothing restores it. -/
def ThisState.step (s : ThisState Object) : Event Object → ThisState Object
  | .enter (some receiver) => ⟨some receiver :: s.activations, some receiver⟩
  | .enter none => ⟨none :: s.activations, s.thisPtr⟩
  | .leave => ⟨s.activations.tail, s.thisPtr⟩
  | .this => s

def ThisState.run (s : ThisState Object) (events : List (Event Object)) : ThisState Object :=
  events.foldl ThisState.step s

open List

/-- The class whose declaration of a name is visible, with its method. -/
def findOwner : List ClassSymbol → String → Option (ClassSymbol × MethodSymbol)
  | [], _ => none
  | classSym :: parents, name =>
    match classSym.methods.find? fun method => method.name == name with
    | some method => some (classSym, method)
    | none => findOwner parents name

variable (chain : List ClassSymbol)

/-- The label of the most derived implementation, if the method is not abstract. -/
def implementation (name : String) : Option String :=
  match findOwner chain name with
  | some (owner, method) =>
    if method.isAbstract then none else some (methodLabel owner.name name)
  | none => none

/-- The slot of a visible name. -/
def slotOf (name : String) : Nat := (slots chain).idxOf (some name)

/-- The instance methods a class declares, in their order. -/
def ownInstance (classSym : ClassSymbol) : List MethodSymbol :=
  classSym.methods.filter MethodSymbol.isInstance

def VisibleInstance (name : String) (method : MethodSymbol) : Prop :=
  findMethod chain name = some method ∧ method.isInstance = true

def Assembles : Prop := (emittedLabels program).Nodup

/-- The word at the index of each visible instance method is its implementation. -/
def TableFollows (stmt : ClassStmt) (classSym : ClassSymbol) (parents : List ClassSymbol) : Prop :=
  ∀ name method, VisibleInstance (classSym :: parents) name method →
    (vtable stmt classSym parents)[method.vtableIndex.toNat]? =
      some (implementation (classSym :: parents) name)

/-- The call reaches the implementation of the object's class. -/
def MethodCallFollows (staticClass : ClassSymbol) (stmt : ClassStmt)
    (classSym : ClassSymbol) (parents : List ClassSymbol) (name : String) : Prop :=
  ∃ label, implementation (classSym :: parents) name = some label ∧
    label ∈ emittedLabels program ∧
    methodCallTarget staticClass (vtable stmt classSym parents) name = some label

/-- The call reaches the implementation of the parent class. -/
def SuperCallFollows (parent : ClassSymbol) (ancestors : List ClassSymbol) (name : String) : Prop :=
  ∃ label, implementation (parent :: ancestors) name = some label ∧
    label ∈ emittedLabels program ∧ superCallTarget parent.name name = some label

def ThisState.start : ThisState Object := ⟨[], none⟩

variable (events : List (Event Object))

/-- Every evaluation of `this` yields the receiver of its activation. -/
def ThisFollows : Prop :=
  ∀ before after receiver, events = before ++ .this :: after →
    (ThisState.start.run before).activations.head? = some (some receiver) →
    (ThisState.start.run before).thisPtr = some receiver

/-- A visible method that is not abstract is declared by the class itself, and
its place among the class's own instance methods is its slot. The slot of an
abstract one holds an abstract one. -/
def TableFits (classSym : ClassSymbol) (parents : List ClassSymbol) : Prop :=
  ∀ name method, VisibleInstance (classSym :: parents) name method →
    if method.isAbstract then
      ownInstance classSym = [] ∧ slotOf (classSym :: parents) name = 0 ∨
        ∃ other, (ownInstance classSym)[slotOf (classSym :: parents) name]? = some other ∧
          other.isAbstract = true
    else ∃ other, (ownInstance classSym)[slotOf (classSym :: parents) name]? = some other ∧
      other.name = name

/-- The static class declares the method, and its slot there is the place of the
method among the instance methods the object's class declares. -/
def MethodCallFits (staticClass : ClassSymbol) (staticParents : List ClassSymbol)
    (classSym : ClassSymbol) (name : String) : Prop :=
  (∃ method ∈ staticClass.methods, method.name = name) ∧
    ∃ other, (ownInstance classSym)[slotOf (staticClass :: staticParents) name]? = some other ∧
      other.name = name

/-- The method comes from an ancestor that happens to have the parent's name
after the mark of functions. -/
def SuperCallFits (parent : ClassSymbol) (ancestors : List ClassSymbol) (name : String) : Prop :=
  ∃ owner method, findOwner (parent :: ancestors) name = some (owner, method) ∧
    method.isAbstract = false ∧ owner.name = "__casprix_" ++ parent.name

def Event.receiver : Event Object → Option Object
  | .enter receiver => receiver
  | _ => none

/-- No other receiver was entered after the last entry with this one. -/
def ThisFits : Prop :=
  ∀ before after receiver, events = before ++ .this :: after →
    (ThisState.start.run before).activations.head? = some (some receiver) →
    (before.filterMap Event.receiver).getLast? = some receiver

theorem findMethod_eq_findOwner (name : String) :
    findMethod chain name = (findOwner chain name).map Prod.snd := by
  induction chain with
  | nil => rfl
  | cons classSym parents ih =>
    unfold findMethod findOwner
    cases classSym.methods.find? fun method => method.name == name with
    | some method => rfl
    | none => exact ih

variable {chain parents : List ClassSymbol} {name className : String} {method : MethodSymbol}
  {classSym : ClassSymbol} {stmt : ClassStmt}

theorem findOwner_spec {owner : ClassSymbol} (h : findOwner chain name = some (owner, method)) :
    owner ∈ chain ∧ method ∈ owner.methods ∧ method.name = name := by
  induction chain with
  | nil => cases h
  | cons classSym parents ih =>
    unfold findOwner at h
    split at h
    next found hFind =>
      cases h
      exact ⟨mem_cons_self, mem_of_find?_eq_some hFind, by simpa using find?_some hFind⟩
    · obtain ⟨hOwner, hMethod⟩ := ih h
      exact ⟨mem_cons_of_mem _ hOwner, hMethod⟩

theorem implementation_of_found (h : findMethod chain name = some method) :
    ∃ owner ∈ chain, method ∈ owner.methods ∧ method.name = name ∧
      findOwner chain name = some (owner, method) ∧
      implementation chain name =
        if method.isAbstract then none else some (methodLabel owner.name name) := by
  rw [findMethod_eq_findOwner] at h
  obtain ⟨⟨owner, found⟩, hOwner, rfl⟩ := Option.map_eq_some_iff.mp h
  obtain ⟨hMem, hMethod, hName⟩ := findOwner_spec hOwner
  refine ⟨owner, hMem, hMethod, hName, hOwner, ?_⟩
  rw [implementation, hOwner]

theorem find?_of_apart {methods : List MethodSymbol} (h : NamesApart methods)
    (hMem : method ∈ methods) (hInstance : method.isInstance = true) :
    methods.find? (fun other => other.name == method.name) = some method := by
  induction methods with
  | nil => cases hMem
  | cons first rest ih =>
    obtain ⟨hFirst, hRest⟩ := pairwise_cons.mp h
    rw [find?_cons]
    rcases mem_cons.mp hMem with rfl | hMem
    · rw [beq_self_eq_true]
    · have hNe : (first.name == method.name) = false := by
        rw [beq_eq_false_iff_ne]
        intro hName
        have hConstructor := (hFirst method hMem hName).2
        rw [MethodSymbol.isInstance, hConstructor] at hInstance
        cases hInstance
      rw [hNe]
      exact ih hRest hMem

theorem findMethod_of_mem (h : NamesApart classSym.methods) (hMem : method ∈ classSym.methods)
    (hInstance : method.isInstance = true) :
    findMethod (classSym :: parents) method.name = some method := by
  rw [findMethod, find?_of_apart h hMem hInstance]

theorem vtableIndex_eq_slotOf (h : Indexed chain) (hVisible : VisibleInstance chain name method) :
    method.vtableIndex = slotOf chain name := by
  obtain ⟨k, hk, hSlot⟩ := h.visible name method hVisible.1 hVisible.2
  have hFirst : (slots chain)[slotOf chain name]? = some (some name) := by
    have hMem : some name ∈ slots chain := mem_of_getElem? hSlot
    rw [slotOf, getElem?_eq_getElem (idxOf_lt_length_of_mem hMem)]
    exact congrArg some (getElem_idxOf _)
  rw [hk, h.unique _ _ name hFirst hSlot]

theorem filter_isVirtual (h : Indexed (classSym :: parents))
    (hApart : NamesApart classSym.methods) :
    classSym.methods.filter isVirtual = ownInstance classSym := by
  apply filter_congr
  intro method hMem
  cases hInstance : method.isInstance with
  | true =>
    have hVisible : VisibleInstance (classSym :: parents) method.name method :=
      ⟨findMethod_of_mem hApart hMem hInstance, hInstance⟩
    have hIndex := vtableIndex_eq_slotOf h hVisible
    have hNonneg : ¬method.vtableIndex < 0 := by omega
    rw [MethodSymbol.isInstance, and_eq_true, Bool.not_eq_true', Bool.not_eq_true'] at hInstance
    rw [isVirtual, hInstance.1, hInstance.2, decide_eq_false hNonneg]
    rfl
  | false =>
    rw [MethodSymbol.isInstance] at hInstance
    rw [isVirtual]
    cases hConstructor : method.isConstructor with
    | true => rw [Bool.or_true]; rfl
    | false =>
      rw [hConstructor, Bool.not_false, Bool.true_and, Bool.not_eq_false'] at hInstance
      rw [hInstance, Bool.or_true]
      rfl

theorem vtableWord_eq (parents : List ClassSymbol) (h : Declares stmt classSym)
    (hMem : method ∈ classSym.methods) (hInstance : method.isInstance = true) :
    vtableWord stmt parents method =
      if method.isAbstract then none else some (methodLabel classSym.name method.name) := by
  obtain ⟨decl, hDecl, hDeclared⟩ := (forall₂_mem h.methods).2 method hMem
  rw [vtableWord]
  split
  · rfl
  next hConcrete =>
    have hConstructor : decl.isConstructor = false := by
      rw [MethodSymbol.isInstance, and_eq_true, Bool.not_eq_true'] at hInstance
      exact hDeclared.isConstructor.symm.trans hInstance.1
    have hFound : (stmt.methods.any fun other =>
        other.name == method.name && !other.isAbstract) = true := by
      refine any_eq_true.mpr ⟨decl, hDecl, ?_⟩
      rw [← hDeclared.isAbstract hConstructor, hDeclared.name, beq_self_eq_true, Bool.true_and,
        Bool.not_eq_true']
      exact not_eq_true _ ▸ hConcrete
    rw [if_pos hFound, h.name]

theorem vtable_getElem? (h : Declares stmt classSym) (hIndexed : Indexed (classSym :: parents))
    (k : Nat) :
    (vtable stmt classSym parents)[k]? =
      if ownInstance classSym = [] then [none][k]?
      else (ownInstance classSym)[k]?.map fun method =>
        if method.isAbstract then none else some (methodLabel classSym.name method.name) := by
  have hWords : (ownInstance classSym).map (vtableWord stmt parents) =
      (ownInstance classSym).map fun method =>
        if method.isAbstract then none else some (methodLabel classSym.name method.name) := by
    apply map_congr_left
    intro method hMem
    obtain ⟨hMem, hInstance⟩ := mem_filter.mp hMem
    exact vtableWord_eq parents h hMem hInstance
  unfold vtable
  rw [filter_isVirtual hIndexed h.apart, hWords]
  by_cases hEmpty : ownInstance classSym = []
  · rw [hEmpty, if_pos rfl]
    rfl
  · rw [if_neg hEmpty, ← getElem?_map]
    cases hOwn : ownInstance classSym with
    | nil => exact absurd hOwn hEmpty
    | cons first rest => rfl

theorem mem_methodLabels {constructorCount : Nat} {methods : List MethodDecl} {decl : MethodDecl}
    (hMem : decl ∈ methods) (hConstructor : decl.isConstructor = false)
    (hStatic : decl.isStatic = false) (hConcrete : decl.isAbstract = false) (ordinal : Nat) :
    methodLabel className decl.name ∈
      methodLabels className constructorCount ordinal methods := by
  induction methods generalizing ordinal with
  | nil => cases hMem
  | cons first rest ih =>
    rw [methodLabels]
    rcases mem_cons.mp hMem with rfl | hMem
    · rw [hConstructor, hStatic, hConcrete]
      exact mem_cons_self
    · split
      · exact ih hMem _
      · exact mem_cons_of_mem _ (ih hMem _)

theorem mem_classLabels (h : Declares stmt classSym) (hMem : method ∈ classSym.methods)
    (hInstance : method.isInstance = true) (hConcrete : method.isAbstract = false) :
    methodLabel classSym.name method.name ∈ classLabels stmt := by
  obtain ⟨decl, hDecl, hDeclared⟩ := (forall₂_mem h.methods).2 method hMem
  rw [MethodSymbol.isInstance, and_eq_true, Bool.not_eq_true', Bool.not_eq_true',
    hDeclared.isConstructor, hDeclared.isStatic] at hInstance
  have hDeclConcrete : decl.isAbstract = false :=
    (hDeclared.isAbstract hInstance.1).symm.trans hConcrete
  rw [h.name, hDeclared.name]
  exact mem_append_left _ (mem_methodLabels hDecl hInstance.1 hInstance.2 hDeclConcrete 0)

theorem methodLabel_inj {other : String}
    (h : methodLabel className name = methodLabel className other) : name = other := by
  exact (String.append_right_inj _).mp h

theorem methodLabel_inj_left {other : String}
    (h : methodLabel className name = methodLabel other name) : className = other := by
  exact (String.append_left_inj _).mp ((String.append_left_inj _).mp h)

section

variable {program : Program} {table : List (List ClassSymbol)}

/-- In a program that assembles, a label tells the class and the name. -/
theorem label_inj (hAssembles : Assembles program) {owner other : ClassSymbol}
    {otherMethod : MethodSymbol} (hOwner : ∃ stmt ∈ program.classes, Declares stmt owner)
    (hOther : ∃ stmt ∈ program.classes, Declares stmt other) (hMem : method ∈ owner.methods)
    (hInstance : method.isInstance = true) (hConcrete : method.isAbstract = false)
    (hOtherMem : otherMethod ∈ other.methods) (hOtherInstance : otherMethod.isInstance = true)
    (hOtherConcrete : otherMethod.isAbstract = false)
    (hLabel : methodLabel owner.name method.name = methodLabel other.name otherMethod.name) :
    owner.name = other.name ∧ method.name = otherMethod.name := by
  obtain ⟨stmt, hStmt, hDeclares⟩ := hOwner
  obtain ⟨otherStmt, hOtherStmt, hOtherDeclares⟩ := hOther
  have hIn := mem_classLabels hDeclares hMem hInstance hConcrete
  have hOtherIn := mem_classLabels hOtherDeclares hOtherMem hOtherInstance hOtherConcrete
  have hSame : stmt = otherStmt := by
    by_contra hNe
    have hClasses := (nodup_append.mp hAssembles).1
    have hDisjoint := (nodup_flatMap.mp hClasses).2
    have hSymm : Std.Symm (Function.onFun List.Disjoint classLabels) :=
      ⟨fun _ _ h _ hMem hOther => h hOther hMem⟩
    rw [hLabel] at hIn
    exact hDisjoint.forall hStmt hOtherStmt hNe hIn hOtherIn
  have hName : owner.name = other.name := by
    rw [hDeclares.name, hOtherDeclares.name, hSame]
  rw [hName] at hLabel
  exact ⟨hName, methodLabel_inj hLabel⟩

theorem implementation_emitted
    (hChain : ∀ classSym ∈ chain, ∃ stmt ∈ program.classes, Declares stmt classSym)
    (hVisible : VisibleInstance chain name method) (hConcrete : method.isAbstract = false) :
    ∃ owner ∈ chain, method ∈ owner.methods ∧ method.name = name ∧
      findOwner chain name = some (owner, method) ∧
      implementation chain name = some (methodLabel owner.name name) ∧
      methodLabel owner.name name ∈ emittedLabels program := by
  obtain ⟨owner, hOwner, hMethod, hName, hFound, hImplementation⟩ :=
    implementation_of_found hVisible.1
  rw [hConcrete, if_neg Bool.false_ne_true] at hImplementation
  obtain ⟨stmt, hStmt, hDeclares⟩ := hChain owner hOwner
  have hLabel := mem_classLabels hDeclares hMethod hVisible.2 hConcrete
  rw [hName] at hLabel
  exact ⟨owner, hOwner, hMethod, hName, hFound, hImplementation,
    mem_append_left _ (mem_flatMap.mpr ⟨stmt, hStmt, hLabel⟩)⟩

section

variable (hAssembles : Assembles program) (hRegistered : Registered program.classes table)
  (hChain : classSym :: parents ∈ table)
include hAssembles hRegistered hChain

/-- A word of a table is the label of a visible implementation exactly when the
class declares the method at that place. -/
theorem vtable_implementation_iff (hDeclares : Declares stmt classSym)
    (hVisible : VisibleInstance (classSym :: parents) name method)
    (hConcrete : method.isAbstract = false) (k : Nat) :
    (vtable stmt classSym parents)[k]? = some (implementation (classSym :: parents) name) ↔
      ∃ other, (ownInstance classSym)[k]? = some other ∧ other.name = name := by
  obtain ⟨owner, hOwner, hMethod, hName, hFound, hImplementation⟩ :=
    implementation_of_found hVisible.1
  rw [hImplementation, hConcrete, if_neg Bool.false_ne_true,
    vtable_getElem? hDeclares (hRegistered.indexed _ hChain) k]
  constructor
  · intro hWord
    by_cases hEmpty : ownInstance classSym = []
    · rw [if_pos hEmpty] at hWord
      cases k <;> cases hWord
    rw [if_neg hEmpty] at hWord
    obtain ⟨other, hOther, hOtherWord⟩ := Option.map_eq_some_iff.mp hWord
    refine ⟨other, hOther, ?_⟩
    obtain ⟨hOtherMem, hOtherInstance⟩ := mem_filter.mp (mem_of_getElem? hOther)
    generalize hOtherConcrete : other.isAbstract = isAbstract at hOtherWord ⊢
    cases isAbstract with
    | true =>
      cases hOtherWord
    | false =>
      have hLabel := Option.some.inj hOtherWord
      rw [← hName] at hLabel ⊢
      exact (label_inj hAssembles (hRegistered.known _ hChain _ mem_cons_self)
        (hRegistered.known _ hChain _ hOwner) hOtherMem hOtherInstance hOtherConcrete hMethod
        hVisible.2 hConcrete hLabel).2
  · rintro ⟨other, hOther, rfl⟩
    obtain ⟨hOtherMem, hOtherInstance⟩ := mem_filter.mp (mem_of_getElem? hOther)
    have hOwn : findOwner (classSym :: parents) other.name = some (classSym, other) := by
      rw [findOwner, find?_of_apart hDeclares.apart hOtherMem hOtherInstance]
    obtain ⟨rfl, rfl⟩ := Prod.mk.inj (Option.some.inj (hFound.symm.trans hOwn))
    have hNonempty : ownInstance owner ≠ [] := ne_nil_of_mem (mem_of_getElem? hOther)
    rw [if_neg hNonempty, hOther, Option.map_some, hConcrete]
    rfl

theorem tableFollows_iff (hDeclares : Declares stmt classSym) :
    TableFollows stmt classSym parents ↔ TableFits classSym parents := by
  have hIndexed := hRegistered.indexed _ hChain
  refine forall_congr' fun name => forall_congr' fun method => forall_congr' fun hVisible => ?_
  have hIndex : method.vtableIndex.toNat = slotOf (classSym :: parents) name := by
    rw [vtableIndex_eq_slotOf hIndexed hVisible]
    exact Int.toNat_natCast _
  rw [hIndex]
  cases hAbstract : method.isAbstract with
  | false =>
    rw [if_neg Bool.false_ne_true]
    exact vtable_implementation_iff hAssembles hRegistered hChain hDeclares hVisible hAbstract _
  | true =>
    obtain ⟨owner, -, -, -, -, hImplementation⟩ := implementation_of_found hVisible.1
    rw [if_pos rfl, hImplementation, hAbstract, if_pos rfl, vtable_getElem? hDeclares hIndexed]
    by_cases hEmpty : ownInstance classSym = []
    · rw [if_pos hEmpty, hEmpty]
      cases slotOf (classSym :: parents) name with
      | zero => simp
      | succ k => simp
    · rw [if_neg hEmpty, Option.map_eq_some_iff]
      constructor
      · rintro ⟨other, hOther, hWord⟩
        refine Or.inr ⟨other, hOther, ?_⟩
        cases hOtherAbstract : other.isAbstract with
        | true => rfl
        | false =>
          rw [hOtherAbstract] at hWord
          cases hWord
      · rintro (⟨hOwn, -⟩ | ⟨other, hOther, hOtherAbstract⟩)
        · exact absurd hOwn hEmpty
        · exact ⟨other, hOther, by rw [hOtherAbstract]; rfl⟩

theorem methodCallFollows_iff {staticClass : ClassSymbol} {staticParents : List ClassSymbol}
    (hStatic : staticClass :: staticParents ∈ table)
    (hSuffix : staticClass :: staticParents <:+ classSym :: parents)
    (hDeclares : Declares stmt classSym) {target : MethodSymbol}
    (hMethod : VisibleInstance (staticClass :: staticParents) name method)
    (hTarget : VisibleInstance (classSym :: parents) name target)
    (hConcrete : target.isAbstract = false) :
    MethodCallFollows program staticClass stmt classSym parents name ↔
      MethodCallFits staticClass staticParents classSym name := by
  obtain ⟨owner, hOwner, hMem, hName, -, hImplementation, hEmitted⟩ :=
    implementation_emitted (hRegistered.known _ hChain) hTarget hConcrete
  have hFollows : MethodCallFollows program staticClass stmt classSym parents name ↔
      methodCallTarget staticClass (vtable stmt classSym parents) name =
        implementation (classSym :: parents) name := by
    constructor
    · rintro ⟨label, hLabel, -, hCall⟩
      exact hCall.trans hLabel.symm
    · intro hCall
      exact ⟨_, hImplementation, hEmitted, hCall.trans hImplementation⟩
  rw [hFollows, methodCallTarget]
  cases hFind : staticClass.methods.find? fun method => method.name == name with
  | some found =>
    have hSame : found = method := by
      have hFound := hMethod.1
      rw [findMethod, hFind] at hFound
      exact Option.some.inj hFound
    subst hSame
    have hIndex := vtableIndex_eq_slotOf (hRegistered.indexed _ hStatic) hMethod
    have hInstance := hMethod.2
    rw [MethodSymbol.isInstance, and_eq_true] at hInstance
    have hVirtual : (decide (0 ≤ found.vtableIndex) && !found.isStatic) = true := by
      rw [hInstance.2, decide_eq_true (by omega)]
      rfl
    have hDeclared : ∃ method ∈ staticClass.methods, method.name = name :=
      ⟨found, mem_of_find?_eq_some hFind, by simpa using find?_some hFind⟩
    have hWord := vtable_implementation_iff hAssembles hRegistered hChain hDeclares hTarget
      hConcrete (slotOf (staticClass :: staticParents) name)
    rw [hImplementation] at hWord ⊢
    dsimp only
    rw [if_pos hVirtual, hIndex, Int.toNat_natCast, Option.join_eq_some_iff, hWord]
    exact (and_iff_right hDeclared).symm
  | none =>
    -- the label of a method the static class does not declare
    have hUndeclared : ¬∃ method ∈ staticClass.methods, method.name = name := by
      rintro ⟨other, hOther, hOtherName⟩
      exact absurd (beq_iff_eq.mpr hOtherName) (List.find?_eq_none.mp hFind other hOther)
    constructor
    · intro hCall
      have hClass : staticClass.name = owner.name :=
        methodLabel_inj_left (Option.some.inj (hCall.trans hImplementation))
      have hStaticMem : staticClass ∈ classSym :: parents :=
        hSuffix.mem mem_cons_self
      have hSame := inj_on_of_nodup_map (hRegistered.chainApart _ hChain) hStaticMem hOwner hClass
      exact absurd ⟨target, by rw [hSame]; exact hMem, hName⟩ hUndeclared
    · exact fun hFits => absurd hFits.1 hUndeclared

end

theorem superCallFollows_iff (hRegistered : Registered program.classes table)
    {current parent : ClassSymbol} {ancestors : List ClassSymbol}
    (hChain : current :: parent :: ancestors ∈ table)
    (hMethod : VisibleInstance (parent :: ancestors) name method) :
    SuperCallFollows program parent ancestors name ↔ SuperCallFits parent ancestors name := by
  have hKnown : ∀ classSym ∈ parent :: ancestors, ∃ stmt ∈ program.classes,
      Declares stmt classSym :=
    fun classSym hMem => hRegistered.known _ hChain classSym (mem_cons_of_mem _ hMem)
  have hMark (owner : String) : superCallTarget parent.name name = some (methodLabel owner name) ↔
      owner = "__casprix_" ++ parent.name := by
    have hTarget : superCallTarget parent.name name =
        some (methodLabel ("__casprix_" ++ parent.name) name) := by
      rw [superCallTarget, methodLabel, methodLabel, String.append_assoc, String.append_assoc,
        String.append_assoc]
    rw [hTarget, Option.some_inj]
    exact ⟨fun h => (methodLabel_inj_left h).symm, fun h => by rw [h]⟩
  constructor
  · rintro ⟨label, hLabel, -, hCall⟩
    obtain ⟨owner, -, -, -, hFound, hImplementation⟩ := implementation_of_found hMethod.1
    cases hAbstract : method.isAbstract with
    | true =>
      rw [hImplementation, hAbstract] at hLabel
      cases hLabel
    | false =>
      rw [hImplementation, hAbstract] at hLabel
      exact ⟨owner, method, hFound, hAbstract, (hMark owner.name).mp (hCall.trans hLabel.symm)⟩
  · rintro ⟨owner, other, hOther, hConcrete, hName⟩
    have hFound := hMethod.1
    rw [findMethod_eq_findOwner, hOther] at hFound
    obtain rfl := Option.some.inj hFound
    obtain ⟨found, -, -, -, hOwner, hImplementation, hEmitted⟩ :=
      implementation_emitted hKnown hMethod hConcrete
    obtain ⟨rfl, -⟩ := Prod.mk.inj (Option.some.inj (hOther.symm.trans hOwner))
    exact ⟨_, hImplementation, hEmitted, (hMark _).mpr hName⟩

end

theorem run_thisPtr :
    (ThisState.start.run events).thisPtr = (events.filterMap Event.receiver).getLast? := by
  induction events using List.reverseRecOn with
  | nil => rfl
  | append_singleton before event ih =>
    have hRun : ThisState.start.run (before ++ [event]) =
        (ThisState.start.run before).step event := foldl_append
    rw [hRun, filterMap_append]
    cases event with
    | enter receiver =>
      cases receiver with
      | none => exact ih.trans (congrArg _ (append_nil _).symm)
      | some receiver => exact List.getLast?_concat.symm
    | leave | this => exact ih.trans (congrArg _ (append_nil _).symm)

theorem thisFollows_iff : ThisFollows events ↔ ThisFits events := by
  unfold ThisFollows ThisFits
  simp only [run_thisPtr]

/-- For every class, call and run of a program: the table of the class, the call
and the receivers follow the hierarchy exactly when they fit. -/
theorem dispatchFollows_iff (table : List (List ClassSymbol))
    (hTable : preregisterClasses program.classes = some table) :
    (∀ stmt ∈ program.classes, ∀ classSym parents,
      lookupClass table stmt.name = some (classSym :: parents) →
      (Assembles program ∧ TableFollows stmt classSym parents ↔
          Assembles program ∧ TableFits classSym parents) ∧
        ∀ staticName staticClass staticParents name method target,
          lookupClass table staticName = some (staticClass :: staticParents) →
          staticClass :: staticParents <:+ classSym :: parents →
          VisibleInstance (staticClass :: staticParents) name method →
          VisibleInstance (classSym :: parents) name target → target.isAbstract = false →
          (Assembles program ∧ MethodCallFollows program staticClass
            stmt classSym parents name ↔
            Assembles program ∧ MethodCallFits staticClass staticParents classSym name)) ∧
    (∀ currentName current parent ancestors name method,
      lookupClass table currentName = some (current :: parent :: ancestors) →
      VisibleInstance (parent :: ancestors) name method →
      (Assembles program ∧ SuperCallFollows program parent ancestors name ↔
        Assembles program ∧ SuperCallFits parent ancestors name)) ∧
    ∀ (Object : Type) (events : List (Event Object)), ThisFollows events ↔ ThisFits events := by
  have hRegistered := registered_of_preregistered hTable
  refine ⟨?_, ?_, fun Object events => thisFollows_iff events⟩
  · intro stmt hStmt classSym parents hLookup
    obtain ⟨found, foundParents, hFound, hDeclares, hChain⟩ := hRegistered.lookup hStmt
    obtain ⟨rfl, rfl⟩ := List.cons.inj (Option.some.inj (hFound.symm.trans hLookup))
    constructor
    · exact and_congr_right fun hAssembles =>
        tableFollows_iff hAssembles hRegistered hChain hDeclares
    · intro staticName staticClass staticParents name method target hStatic hSuffix hMethod hTarget
        hConcrete
      exact and_congr_right fun hAssembles => methodCallFollows_iff hAssembles hRegistered hChain
        (mem_of_find?_eq_some hStatic) hSuffix hDeclares hMethod hTarget hConcrete
  · intro currentName current parent ancestors name method hCurrent hMethod
    exact and_congr_right fun _ =>
      superCallFollows_iff hRegistered (mem_of_find?_eq_some hCurrent) hMethod

def smallMethod (name : String) : MethodDecl := ⟨name, .i32, [], false, false, false⟩

/-- A class and one that derives from it. -/
def smallProgram (methods : List String) : Program where
  classes := [⟨"A", none, [smallMethod "f"]⟩, ⟨"B", some "A", methods.map smallMethod⟩]
  functions := []

def smallSymbol (name : String) (vtableIndex : Int) : MethodSymbol :=
  ⟨name, .i32, [], false, false, false, vtableIndex⟩

def smallParent : ClassSymbol := ⟨"A", [smallSymbol "f" 0]⟩

theorem smallProgram_fits :
    TableFits ⟨"B", [smallSymbol "f" 0, smallSymbol "g" 1]⟩ [smallParent] := by
  rintro name method ⟨hFound, -⟩
  by_cases hF : name = "f"
  · subst hF
    obtain rfl := Option.some.inj hFound
    exact ⟨smallSymbol "f" 0, by decide, rfl⟩
  by_cases hG : name = "g"
  · subst hG
    obtain rfl := Option.some.inj hFound
    exact ⟨smallSymbol "g" 1, by decide, rfl⟩
  · have hNone : findMethod
        [⟨"B", [smallSymbol "f" 0, smallSymbol "g" 1]⟩, smallParent] name = none := by
      simp [findMethod, smallSymbol, smallParent, Ne.symm hF, Ne.symm hG]
    rw [hNone] at hFound
    cases hFound

/-- A call within a call, each of which evaluates `this` before it makes another. -/
theorem thisFits_nested : ThisFits [.enter (some 1), .this, .enter (some 2), .this] := by
  intro before after receiver hSplit hTop
  rcases before with _ | ⟨a, _ | ⟨b, _ | ⟨c, _ | ⟨d, before⟩⟩⟩⟩
  · cases hSplit
  · cases hSplit
    cases hTop
    rfl
  · cases hSplit
  · cases hSplit
    cases hTop
    rfl
  · simp at hSplit

/-- A class that declares its parent's method again and then its own. A call of that method on
an object of the class arrives, and a call of the parent's does not. -/
theorem dispatchFollows_redeclared :
    TableFollows ⟨"B", some "A", [smallMethod "f", smallMethod "g"]⟩
        ⟨"B", [smallSymbol "f" 0, smallSymbol "g" 1]⟩ [smallParent] ∧
      MethodCallFollows (smallProgram ["f", "g"]) smallParent
        ⟨"B", some "A", [smallMethod "f", smallMethod "g"]⟩
        ⟨"B", [smallSymbol "f" 0, smallSymbol "g" 1]⟩ [smallParent] "f" ∧
      ¬SuperCallFollows (smallProgram ["f", "g"]) smallParent [] "f" ∧
      ThisFollows [.enter (some 1), .this, .enter (some 2), .this] := by
  obtain ⟨hClasses, hSuper, hThis⟩ := dispatchFollows_iff (smallProgram ["f", "g"])
    [[smallParent], [⟨"B", [smallSymbol "f" 0, smallSymbol "g" 1]⟩, smallParent]] (by decide)
  have hAssembles : Assembles (smallProgram ["f", "g"]) := by
    unfold Assembles
    decide
  obtain ⟨hTable, hCall⟩ := hClasses
    ⟨"B", some "A", [smallMethod "f", smallMethod "g"]⟩ (by decide) _ _
    (by decide : _ = some [⟨"B", [smallSymbol "f" 0, smallSymbol "g" 1]⟩, smallParent])
  have hReaches := hCall "A" smallParent [] "f" (smallSymbol "f" 0) (smallSymbol "f" 0) (by decide)
    (List.suffix_cons _ _) ⟨by decide, by decide⟩ ⟨by decide, by decide⟩ rfl
  have hParent := hSuper "B" ⟨"B", [smallSymbol "f" 0, smallSymbol "g" 1]⟩ smallParent [] "f"
    (smallSymbol "f" 0) (by decide) ⟨by decide, by decide⟩
  refine ⟨(hTable.mpr ⟨hAssembles, smallProgram_fits⟩).2, ?_, fun hFollows => ?_,
    (hThis Nat _).mpr thisFits_nested⟩
  · refine (hReaches.mpr ⟨hAssembles, ?_, smallSymbol "f" 0, by decide, rfl⟩).2
    exact ⟨smallSymbol "f" 0, List.mem_singleton.mpr rfl, rfl⟩
  · obtain ⟨-, owner, method, hOwner, -, hName⟩ := hParent.mp ⟨hAssembles, hFollows⟩
    cases hOwner
    exact absurd hName (by decide)

/-- A class that only declares its own method: its table has that method where
the inherited one is looked for. -/
theorem vtable_inherited_wrong :
    preregisterClasses (smallProgram ["g"]).classes =
        some [[smallParent], [⟨"B", [smallSymbol "g" 1]⟩, smallParent]] ∧
      Assembles (smallProgram ["g"]) ∧
      ¬TableFollows ⟨"B", some "A", [smallMethod "g"]⟩
        ⟨"B", [smallSymbol "g" 1]⟩ [smallParent] := by
  refine ⟨by decide, ?_, fun h => ?_⟩
  · unfold Assembles
    decide
  have hWord := h "f" (smallSymbol "f" 0) ⟨rfl, rfl⟩
  cases hWord

end Casprix.Codegen
