import Casprix.Sema.ClassTable
import Mathlib.Data.List.Pairwise

/-! Fields and methods of classes as the first pass registers them, and the
places they keep over a whole hierarchy. A refused member leaves its class as it
was. -/
namespace Casprix.Sema

open List

structure FieldDecl where
  name : String
  isStatic : Bool
  deriving DecidableEq, Repr

/-- A class statement with its fields. -/
structure LayoutStmt extends ClassStmt where
  fields : List FieldDecl
  deriving DecidableEq, Repr

/-- A static field has no place in an instance. -/
structure FieldSymbol where
  name : String
  isStatic : Bool
  offset : Int
  deriving DecidableEq, Repr

structure ClassLayout extends ClassSymbol where
  fields : List FieldSymbol
  instanceSize : Nat
  deriving DecidableEq, Repr

/-- The methods of a hierarchy. -/
def methodChain (chain : List ClassLayout) : List ClassSymbol := chain.map ClassLayout.toClassSymbol

/-- The first field of the name, in the class or its nearest ancestor. -/
def findField : List ClassLayout → String → Option FieldSymbol
  | [], _ => none
  | classSym :: parents, name =>
    match classSym.fields.find? fun field => field.name == name with
    | some field => some field
    | none => findField parents name

/-- An instance field is refused when an ancestor has a field of its name. -/
def addFieldToClass (classSym : ClassLayout) (parents : List ClassLayout) (field : FieldDecl) :
    Option ClassLayout :=
  if classSym.fields.any fun old => old.name == field.name then none
  else if !field.isStatic && (findField parents field.name).isSome then none
  else
    some { classSym with
      fields := classSym.fields ++ [{
        name := field.name
        isStatic := field.isStatic
        offset := if field.isStatic then -1 else classSym.instanceSize }]
      instanceSize := if field.isStatic then classSym.instanceSize else classSym.instanceSize + 8 }

def registerField (parents : List ClassLayout) (classSym : ClassLayout) (field : FieldDecl) :
    ClassLayout :=
  (addFieldToClass classSym parents field).getD classSym

/-- The mark of an abstract method goes to the class's own method of its name.
A refused one may mark a method of an ancestor instead, which moves nothing. -/
def registerMethod (parents : List ClassLayout) (classSym : ClassLayout) (method : MethodDecl) :
    ClassLayout :=
  let added :=
    (addMethodToClass classSym.toClassSymbol (methodChain parents) method).getD
      classSym.toClassSymbol
  { classSym with
    methods := if method.isAbstract then markAbstract method.name added.methods else added.methods }

/-- The empty class starts with the table pointer or with what its parent has. -/
def addClass (name : String) (parents : List ClassLayout) : ClassLayout where
  name := name
  methods := []
  fields := []
  instanceSize := match parents with
    | [] => 8
    | parent :: _ => parent.instanceSize

variable (table : List (List ClassLayout))

def findClass (name : String) : Option (List ClassLayout) :=
  table.find? fun chain => (chain.head?.map fun classSym => classSym.name) == some name

def findParents : Option String → Option (List ClassLayout)
  | none => some []
  | some parentName => findClass table parentName

/-- A class is refused when its name is taken or its parent is not known. -/
def preregisterLayout (stmt : LayoutStmt) : List (List ClassLayout) :=
  if (findClass table stmt.name).isSome then table
  else
    match findParents table stmt.parentName with
    | none => table
    | some parents =>
      let withFields := stmt.fields.foldl (registerField parents) (addClass stmt.name parents)
      table ++ [stmt.methods.foldl (registerMethod parents) withFields :: parents]

def preregisterLayouts (stmts : List LayoutStmt) : List (List ClassLayout) :=
  stmts.foldl preregisterLayout []

def sizeOf : List ClassLayout → Nat
  | [] => 8
  | classSym :: _ => classSym.instanceSize

/-- The instance fields of a hierarchy. -/
def instanceFields (chain : List ClassLayout) : List FieldSymbol :=
  (chain.flatMap ClassLayout.fields).filter fun field => !field.isStatic

/-- The fields of a hierarchy lie apart and inside its instances, and hide no
field of an ancestor. -/
structure LaidOut (chain : List ClassLayout) : Prop where
  inside : ∀ field ∈ instanceFields chain, 8 ≤ field.offset ∧
    field.offset + 8 ≤ sizeOf chain
  apart : ((instanceFields chain).map FieldSymbol.offset).Nodup
  fresh : ∀ classSym parents, classSym :: parents <:+ chain →
    ∀ field ∈ classSym.fields, field.isStatic = false → findField parents field.name = none
  eight : 8 ≤ sizeOf chain

variable {chain parents : List ClassLayout} {name : String} {field : FieldSymbol}
  {classSym : ClassLayout} {taken : List (Option String)} {slot : Option String} {k : Nat}

theorem findField_mem (h : findField chain name = some field) :
    field ∈ chain.flatMap ClassLayout.fields ∧ field.name = name := by
  induction chain with
  | nil => cases h
  | cons classSym parents ih =>
    rw [flatMap_cons]
    unfold findField at h
    split at h
    next found hFind =>
      obtain rfl := Option.some.inj h
      exact ⟨mem_append_left _ (mem_of_find?_eq_some hFind), by simpa using find?_some hFind⟩
    · exact ⟨mem_append_right _ (ih h).1, (ih h).2⟩

theorem laidOut_nil : LaidOut [] where
  inside _ h := (not_mem_nil h).elim
  apart := .nil
  fresh _ _ h := absurd (eq_nil_of_suffix_nil h) (cons_ne_nil _ _)
  eight := Nat.le_refl _

theorem LaidOut.addClass {parents : List ClassLayout} (h : LaidOut parents) (name : String) :
    LaidOut (addClass name parents :: parents) := by
  have hSize : sizeOf (Sema.addClass name parents :: parents) = sizeOf parents := by
    cases parents with
    | nil => rfl
    | cons parent ancestors => rfl
  refine ⟨?_, h.apart, ?_, ?_⟩
  · rw [hSize]
    exact h.inside
  · intro classSym ancestors hSuffix field hField
    rcases suffix_cons_iff.mp hSuffix with hEq | hSuffix
    · obtain ⟨rfl, rfl⟩ := List.cons.inj hEq
      exact (not_mem_nil hField).elim
    · exact h.fresh classSym ancestors hSuffix field hField
  · rw [hSize]
    exact h.eight

theorem instanceFields_cons (classSym : ClassLayout) (parents : List ClassLayout) :
    instanceFields (classSym :: parents) =
      (classSym.fields.filter fun field => !field.isStatic) ++ instanceFields parents := by
  rw [instanceFields, flatMap_cons, filter_append]
  rfl

section

variable (h : LaidOut (classSym :: parents))
include h

theorem LaidOut.freshAdded {added : ClassLayout}
    (hFields : added.fields = classSym.fields ++ [field])
    (hField : field.isStatic = false → findField parents field.name = none) :
    ∀ member ancestors, member :: ancestors <:+ added :: parents →
      ∀ other ∈ member.fields, other.isStatic = false →
        findField ancestors other.name = none := by
  intro member ancestors hSuffix other hOther hInstance
  rcases suffix_cons_iff.mp hSuffix with hEq | hSuffix
  · obtain ⟨rfl, rfl⟩ := List.cons.inj hEq
    rw [hFields] at hOther
    rcases mem_append.mp hOther with hOld | hNew
    · exact h.fresh classSym ancestors (suffix_refl _) other hOld hInstance
    · rw [mem_singleton.mp hNew] at hInstance ⊢
      exact hField hInstance
  · exact h.fresh member ancestors (hSuffix.trans (suffix_cons _ _)) other hOther hInstance

theorem LaidOut.addStatic (name : String) :
    LaidOut ({ classSym with fields := classSym.fields ++ [⟨name, true, -1⟩] } :: parents) := by
  have hFields : instanceFields
      ({ classSym with fields := classSym.fields ++ [⟨name, true, -1⟩] } :: parents) =
        instanceFields (classSym :: parents) := by
    rw [instanceFields_cons, instanceFields_cons, filter_append]
    exact congrArg (· ++ instanceFields parents) (append_nil _)
  refine ⟨?_, ?_, h.freshAdded rfl fun hInstance => ?_, h.eight⟩
  · rw [hFields]
    exact h.inside
  · rw [hFields]
    exact h.apart
  · cases hInstance

theorem LaidOut.addInstance (hName : findField parents name = none) :
    LaidOut ({ classSym with
      fields := classSym.fields ++ [⟨name, false, classSym.instanceSize⟩]
      instanceSize := classSym.instanceSize + 8 } :: parents) := by
  let field : FieldSymbol := ⟨name, false, classSym.instanceSize⟩
  let added : ClassLayout := { classSym with
    fields := classSym.fields ++ [field]
    instanceSize := classSym.instanceSize + 8 }
  have hFields : List.Perm (instanceFields (added :: parents))
      (field :: instanceFields (classSym :: parents)) := by
    rw [instanceFields_cons, instanceFields_cons, filter_append, append_assoc]
    exact perm_middle
  have hEight : 8 ≤ classSym.instanceSize := h.eight
  refine ⟨?_, ?_, h.freshAdded rfl fun _ => hName, Nat.le_add_right_of_le hEight⟩
  · intro other hOther
    change _ ∧ other.offset + 8 ≤ ((classSym.instanceSize + 8 : Nat) : Int)
    rcases mem_cons.mp (hFields.mem_iff.mp hOther) with rfl | hOld
    · change 8 ≤ (classSym.instanceSize : Int) ∧ (classSym.instanceSize : Int) + 8 ≤ _
      omega
    · obtain ⟨hLower, hUpper⟩ := h.inside other hOld
      change _ ≤ (classSym.instanceSize : Int) at hUpper
      omega
  · refine (hFields.map FieldSymbol.offset).nodup_iff.mpr ?_
    rw [map_cons, nodup_cons]
    refine ⟨?_, h.apart⟩
    intro hMem
    obtain ⟨other, hOld, hOffset⟩ := mem_map.mp hMem
    have hUpper := (h.inside other hOld).2
    change _ ≤ (classSym.instanceSize : Int) at hUpper
    change other.offset = (classSym.instanceSize : Int) at hOffset
    omega

theorem LaidOut.addField {added : ClassLayout} {field : FieldDecl}
    (hAdd : addFieldToClass classSym parents field = some added) : LaidOut (added :: parents) := by
  unfold addFieldToClass at hAdd
  split at hAdd
  · cases hAdd
  split at hAdd
  · cases hAdd
  next hFresh =>
  obtain rfl := Option.some.inj hAdd
  cases hStatic : field.isStatic with
  | true => exact h.addStatic field.name
  | false =>
    rw [hStatic, Bool.not_false, Bool.true_and, Bool.not_eq_true, Option.isSome_eq_false_iff,
      Option.isNone_iff_eq_none] at hFresh
    exact h.addInstance hFresh

end

theorem LaidOut.registerField {classSym : ClassLayout} {parents : List ClassLayout}
    (h : LaidOut (classSym :: parents)) (field : FieldDecl) :
    LaidOut (registerField parents classSym field :: parents) := by
  unfold Sema.registerField
  cases hAdd : addFieldToClass classSym parents field with
  | none => exact h
  | some added => exact h.addField hAdd

theorem LaidOut.registerFields (h : LaidOut (classSym :: parents)) (fields : List FieldDecl) :
    LaidOut (fields.foldl (Sema.registerField parents) classSym :: parents) := by
  induction fields generalizing classSym with
  | nil => exact h
  | cons field rest ih => exact ih (h.registerField field)

/-- The instance methods of a class have the indices of those they override. -/
def Overrides (parents : List ClassSymbol) (methods : List MethodSymbol) : Prop :=
  ∀ method ∈ methods, method.isInstance = true →
    ∀ old, findMethod parents method.name = some old →
    old.isInstance = true → method.vtableIndex = old.vtableIndex

theorem Overrides.same {parents : List ClassSymbol} {methods others : List MethodSymbol}
    (h : Overrides parents methods) (hSame : List.Forall₂ SameMethod methods others) :
    Overrides parents others := by
  intro other hOther hInstance old hOld hOldInstance
  obtain ⟨method, hMethod, hMethodSame⟩ := (forall₂_mem hSame).2 other hOther
  rw [← hMethodSame.name] at hOld
  rw [← hMethodSame.vtableIndex]
  exact h method hMethod (hMethodSame.isInstance.trans hInstance) old hOld hOldInstance

theorem Overrides.addMethodToClass {classSym added : ClassSymbol} {parents : List ClassSymbol}
    {decl : MethodDecl} (hParents : Indexed parents) (h : Overrides parents classSym.methods)
    (hAdd : Sema.addMethodToClass classSym parents decl = some added) :
    Overrides parents added.methods := by
  unfold Sema.addMethodToClass at hAdd
  split at hAdd
  · cases hAdd
  split at hAdd
  · cases hAdd
  obtain rfl := Option.some.inj hAdd
  intro method hMethod hInstance old hOld hOldInstance
  rcases mem_append.mp hMethod with hBefore | hNew
  · exact h method hBefore hInstance old hOld hOldInstance
  · rw [mem_singleton.mp hNew] at hInstance hOld ⊢
    have hPlain : ¬(decl.isConstructor || decl.isStatic) = true := by
      rw [MethodSymbol.isInstance, ← Bool.not_or, Bool.not_eq_true'] at hInstance
      exact Bool.not_eq_true _ ▸ hInstance
    obtain ⟨k, hk, -⟩ := hParents.visible _ old hOld hOldInstance
    have hIndex : old.vtableIndex ≠ -1 := by omega
    rw [overriddenMethod, if_neg hPlain, hOld, assignIndex, if_neg hPlain]
    exact if_neg hIndex

/-- What registration keeps of a class and its ancestors. -/
structure Registration (classSym : ClassLayout) (parents : List ClassLayout) : Prop where
  laidOut : LaidOut (classSym :: parents)
  indexed : Indexed (methodChain (classSym :: parents))
  overrides : Overrides (methodChain parents) classSym.methods

theorem addedMethods {classSym : ClassSymbol} {parents : List ClassSymbol}
    (hParents : Indexed parents) (hIndexed : Indexed (classSym :: parents))
    (hOverrides : Overrides parents classSym.methods) (decl : MethodDecl) :
    let added := (addMethodToClass classSym parents decl).getD classSym
    Indexed (⟨classSym.name, added.methods⟩ :: parents) ∧
      Overrides parents added.methods := by
  cases hAdd : addMethodToClass classSym parents decl with
  | none => exact ⟨hIndexed, hOverrides⟩
  | some added =>
    have hKept := hOverrides.addMethodToClass hParents hAdd
    have hMore := hIndexed.addMethodToClass hAdd
    obtain ⟨-, method, rfl, -⟩ := addMethodToClass_spec hAdd
    exact ⟨hMore, hKept⟩

theorem LaidOut.withMethods (h : LaidOut (classSym :: parents)) (methods : List MethodSymbol) :
    LaidOut ({ classSym with methods := methods } :: parents) := by
  refine ⟨h.inside, h.apart, ?_, h.eight⟩
  intro member ancestors hSuffix
  rcases suffix_cons_iff.mp hSuffix with hEq | hSuffix
  · obtain ⟨rfl, rfl⟩ := List.cons.inj hEq
    exact h.fresh classSym ancestors (suffix_refl _)
  · exact h.fresh member ancestors (hSuffix.trans (suffix_cons _ _))

theorem Registration.registerMethod {classSym : ClassLayout} {parents : List ClassLayout}
    (hParents : Indexed (methodChain parents)) (h : Registration classSym parents)
    (decl : MethodDecl) : Registration (registerMethod parents classSym decl) parents := by
  obtain ⟨hIndexed, hOverrides⟩ := addedMethods hParents h.indexed h.overrides decl
  unfold Sema.registerMethod
  split
  · have hSame := markAbstract_same decl.name
      ((Sema.addMethodToClass classSym.toClassSymbol (methodChain parents) decl).getD
        classSym.toClassSymbol).methods
    exact ⟨h.laidOut.withMethods _, hIndexed.same hSame, hOverrides.same hSame⟩
  · exact ⟨h.laidOut.withMethods _, hIndexed, hOverrides⟩

theorem Registration.registerMethods (hParents : Indexed (methodChain parents))
    (h : Registration classSym parents) (decls : List MethodDecl) :
    Registration (decls.foldl (Sema.registerMethod parents) classSym) parents := by
  induction decls generalizing classSym with
  | nil => exact h
  | cons decl rest ih => exact ih (h.registerMethod hParents decl)

theorem registerField_methods (parents : List ClassLayout) (classSym : ClassLayout)
    (field : FieldDecl) :
    (registerField parents classSym field).toClassSymbol = classSym.toClassSymbol := by
  unfold registerField addFieldToClass
  split
  · rfl
  split
  · rfl
  · rfl

theorem registerFields_methods (parents : List ClassLayout) (classSym : ClassLayout)
    (fields : List FieldDecl) :
    (fields.foldl (registerField parents) classSym).toClassSymbol = classSym.toClassSymbol := by
  induction fields generalizing classSym with
  | nil => rfl
  | cons field rest ih => exact (ih _).trans (registerField_methods parents classSym field)

/-- Every hierarchy of the table, and every part of one from a class up, is
registered. -/
def Tabled : Prop :=
  ∀ chain ∈ table, ∀ classSym parents, classSym :: parents <:+ chain →
    Registration classSym parents

theorem registration_of_parents
    (h : ∀ classSym ancestors, classSym :: ancestors <:+ parents →
      Registration classSym ancestors) :
    LaidOut parents ∧ Indexed (methodChain parents) := by
  cases parents with
  | nil => exact ⟨laidOut_nil, indexed_nil⟩
  | cons parent ancestors =>
    have hParent := h parent ancestors (suffix_refl _)
    exact ⟨hParent.laidOut, hParent.indexed⟩

theorem Tabled.preregisterLayout {table : List (List ClassLayout)} (h : Tabled table)
    (stmt : LayoutStmt) : Tabled (preregisterLayout table stmt) := by
  unfold Sema.preregisterLayout
  split
  · exact h
  split
  · exact h
  next parents hParents =>
    have hKnown : ∀ classSym ancestors, classSym :: ancestors <:+ parents →
        Registration classSym ancestors := by
      generalize stmt.parentName = parentName at hParents ⊢
      cases parentName with
      | none =>
        obtain rfl := Option.some.inj hParents
        intro classSym ancestors hSuffix
        exact absurd (eq_nil_of_suffix_nil hSuffix) (cons_ne_nil _ _)
      | some name =>
        exact h parents (mem_of_find?_eq_some hParents)
    obtain ⟨hLaidOut, hIndexed⟩ := registration_of_parents hKnown
    let withFields := stmt.fields.foldl (registerField parents) (addClass stmt.name parents)
    have hMethods : withFields.toClassSymbol = ⟨stmt.name, []⟩ :=
      registerFields_methods parents _ stmt.fields
    have hFields : Registration withFields parents := by
      refine ⟨(hLaidOut.addClass stmt.name).registerFields stmt.fields, ?_, ?_⟩
      · change Indexed (withFields.toClassSymbol :: methodChain parents)
        rw [hMethods]
        exact hIndexed.open stmt.name
      · rw [hMethods]
        intro method hMem
        exact (not_mem_nil hMem).elim
    intro chain hChain classSym ancestors hSuffix
    rcases mem_append.mp hChain with hOld | hNew
    · exact h chain hOld classSym ancestors hSuffix
    · rw [mem_singleton.mp hNew] at hSuffix
      rcases suffix_cons_iff.mp hSuffix with hEq | hSuffix
      · obtain ⟨rfl, rfl⟩ := List.cons.inj hEq
        exact hFields.registerMethods hIndexed stmt.methods
      · exact hKnown classSym ancestors hSuffix

theorem tabled_preregisterLayouts (stmts : List LayoutStmt) :
    Tabled (preregisterLayouts stmts) := by
  have hFold : ∀ table, Tabled table → Tabled (stmts.foldl preregisterLayout table) := by
    induction stmts with
    | nil => exact fun _ h => h
    | cons stmt rest ih => exact fun table h => ih _ (h.preregisterLayout stmt)
  exact hFold [] fun chain hMem => (not_mem_nil hMem).elim

theorem addSlot_getElem? (method : MethodSymbol) (h : taken[k]? = some slot) :
    (addSlot taken method)[k]? = some slot ∨
      (addSlot taken method)[k]? = some none ∧ slot = some method.name ∧
        method.isInstance = false := by
  unfold addSlot
  cases hInstance : method.isInstance with
  | true =>
    rw [if_pos rfl]
    split
    · exact .inl h
    · rw [getElem?_append_left (List.getElem?_eq_some_iff.mp h).1]
      exact .inl h
  | false =>
    rw [if_neg Bool.false_ne_true, getElem?_map, h, Option.map_some]
    by_cases hSlot : slot = some method.name
    · rw [if_pos hSlot]
      exact .inr ⟨rfl, hSlot, rfl⟩
    · rw [if_neg hSlot]
      exact .inl rfl

theorem foldl_addSlot_none (methods : List MethodSymbol) (h : taken[k]? = some none) :
    (methods.foldl addSlot taken)[k]? = some none := by
  induction methods generalizing taken with
  | nil => exact h
  | cons method rest ih =>
    rcases addSlot_getElem? method h with hKept | ⟨hHidden, -⟩
    · exact ih hKept
    · exact ih hHidden

theorem foldl_addSlot_getElem? (methods : List MethodSymbol) (h : taken[k]? = some slot) :
    (methods.foldl addSlot taken)[k]? = some slot ∨
      (methods.foldl addSlot taken)[k]? = some none ∧
        ∃ method ∈ methods, slot = some method.name ∧ method.isInstance = false := by
  induction methods generalizing taken with
  | nil => exact .inl h
  | cons method rest ih =>
    rw [foldl_cons]
    rcases addSlot_getElem? method h with hKept | ⟨hHidden, hSlot, hPlain⟩
    · rcases ih hKept with hKept | ⟨hHidden, other, hOther, hSlot⟩
      · exact .inl hKept
      · exact .inr ⟨hHidden, other, mem_cons_of_mem _ hOther, hSlot⟩
    · exact .inr ⟨foldl_addSlot_none rest hHidden, method, mem_cons_self, hSlot, hPlain⟩

/-- What the classes below an ancestor do to its slots. -/
theorem slots_getElem?_append (between : List ClassSymbol) {ancestors : List ClassSymbol}
    (h : (slots ancestors)[k]? = some slot) :
    (slots (between ++ ancestors))[k]? = some slot ∨
      (slots (between ++ ancestors))[k]? = some none ∧
        ∃ classSym ∈ between, ∃ method ∈ classSym.methods,
          slot = some method.name ∧ method.isInstance = false := by
  induction between with
  | nil => exact .inl h
  | cons classSym rest ih =>
    rcases ih with hKept | ⟨hHidden, other, hOther, hMethod⟩
    · rcases foldl_addSlot_getElem? classSym.methods hKept with hKept | ⟨hHidden, hMethod⟩
      · exact .inl hKept
      · exact .inr ⟨hHidden, classSym, mem_cons_self, hMethod⟩
    · exact .inr ⟨foldl_addSlot_none classSym.methods hHidden, other,
        mem_cons_of_mem _ hOther, hMethod⟩

def VisibleField (chain : List ClassLayout) (name : String) (field : FieldSymbol) : Prop :=
  findField chain name = some field ∧ field.isStatic = false

def VisibleMethod (chain : List ClassLayout) (name : String) (method : MethodSymbol) : Prop :=
  findMethod (methodChain chain) name = some method ∧ method.isInstance = true

/-- The layout of a class, the first of a hierarchy, is consistent. -/
structure Consistent (chain : List ClassLayout) : Prop where
  fieldInside : ∀ name field, VisibleField chain name field →
    0 ≤ field.offset ∧ field.offset + 8 ≤ sizeOf chain
  fieldsApart : ∀ name other field otherField, VisibleField chain name field →
    VisibleField chain other otherField → name ≠ other → field.offset ≠ otherField.offset
  methodsApart : ∀ name other method otherMethod, VisibleMethod chain name method →
    VisibleMethod chain other otherMethod → name ≠ other →
    method.vtableIndex ≠ otherMethod.vtableIndex

/-- The class at the head overrides at the inherited index. -/
def OverridesInPlace (classSym : ClassLayout) (parents : List ClassLayout) : Prop :=
  ∀ method ∈ classSym.methods, method.isInstance = true → ∀ old,
    VisibleMethod parents method.name old → method.vtableIndex = old.vtableIndex

/-- The classes in `between` keep what is visible in the class they derive from,
unless one of them hides the name. A place is given to nothing else. -/
structure Keeps (between ancestors : List ClassLayout) : Prop where
  field : ∀ name field, VisibleField ancestors name field →
    (∀ classSym ∈ between, ∀ other ∈ classSym.fields, other.name = name →
      other.isStatic = false) →
    VisibleField (between ++ ancestors) name field
  offset : ∀ name field other otherField, VisibleField ancestors name field →
    VisibleField (between ++ ancestors) other otherField → otherField.offset = field.offset →
    other = name ∧ otherField = field
  method : ∀ name method, VisibleMethod ancestors name method →
    (∀ classSym ∈ between, ∀ other ∈ classSym.methods, other.name = name →
      other.isInstance = true) →
    ∃ kept, VisibleMethod (between ++ ancestors) name kept ∧
      kept.vtableIndex = method.vtableIndex
  index : ∀ name method other otherMethod, VisibleMethod ancestors name method →
    VisibleMethod (between ++ ancestors) other otherMethod →
    otherMethod.vtableIndex = method.vtableIndex → other = name

theorem VisibleField.mem (h : VisibleField chain name field) :
    field ∈ instanceFields chain ∧ field.name = name := by
  obtain ⟨hMem, hName⟩ := findField_mem h.1
  refine ⟨mem_filter.mpr ⟨hMem, ?_⟩, hName⟩
  rw [h.2]
  rfl

theorem LaidOut.offset_inj (h : LaidOut chain) {other : FieldSymbol}
    (hField : field ∈ instanceFields chain) (hOther : other ∈ instanceFields chain)
    (hOffset : field.offset = other.offset) : field = other :=
  inj_on_of_nodup_map h.apart hField hOther hOffset

theorem consistent_of_registration (h : Registration classSym parents) :
    Consistent (classSym :: parents) := by
  refine ⟨?_, ?_, ?_⟩
  · intro name field hField
    obtain ⟨hLower, hUpper⟩ := h.laidOut.inside field hField.mem.1
    exact ⟨by omega, hUpper⟩
  · intro name other field otherField hField hOther hNe hOffset
    have hSame := h.laidOut.offset_inj hField.mem.1 hOther.mem.1 hOffset
    apply hNe
    rw [← hField.mem.2, ← hOther.mem.2, hSame]
  · intro name other method otherMethod hMethod hOther hNe hIndex
    obtain ⟨k, hk, hSlot⟩ := h.indexed.visible name method hMethod.1 hMethod.2
    obtain ⟨j, hj, hOtherSlot⟩ := h.indexed.visible other otherMethod hOther.1 hOther.2
    have hSame : k = j := by omega
    rw [hSame, hOtherSlot] at hSlot
    exact hNe (Option.some.inj (Option.some.inj hSlot)).symm

theorem instanceFields_append (between ancestors : List ClassLayout) :
    instanceFields (between ++ ancestors) = instanceFields between ++ instanceFields ancestors := by
  rw [instanceFields, flatMap_append, filter_append]
  rfl

theorem findField_append {between ancestors : List ClassLayout}
    (hFresh : ∀ classSym parents, classSym :: parents <:+ between ++ ancestors →
      ∀ other ∈ classSym.fields, other.isStatic = false → findField parents other.name = none)
    (hField : findField ancestors name = some field)
    (hHidden : ∀ classSym ∈ between, ∀ other ∈ classSym.fields, other.name = name →
      other.isStatic = false) :
    findField (between ++ ancestors) name = some field := by
  induction between with
  | nil => exact hField
  | cons classSym rest ih =>
    have hBelow := ih
      (fun member parents hSuffix => hFresh member parents (hSuffix.trans (suffix_cons _ _)))
      fun other hOther => hHidden other (mem_cons_of_mem _ hOther)
    rw [cons_append, findField]
    split
    next found hFind =>
      have hName : found.name = name := by simpa using find?_some hFind
      have hMem : found ∈ classSym.fields := mem_of_find?_eq_some hFind
      have hNone := hFresh classSym (rest ++ ancestors) (suffix_refl _) found hMem
        (hHidden classSym mem_cons_self found hMem hName)
      rw [hName, hBelow] at hNone
      cases hNone
    · exact hBelow

theorem methodChain_append (between ancestors : List ClassLayout) :
    methodChain (between ++ ancestors) = methodChain between ++ methodChain ancestors :=
  map_append

theorem keeps_of_registered {between ancestors : List ClassLayout}
    (hLaidOut : LaidOut (between ++ ancestors))
    (hIndexed : Indexed (methodChain (between ++ ancestors)))
    (hAncestors : Indexed (methodChain ancestors)) : Keeps between ancestors := by
  have hSlots : ∀ name method, VisibleMethod ancestors name method →
      ∃ k : Nat, method.vtableIndex = k ∧
        ((slots (methodChain (between ++ ancestors)))[k]? = some (some name) ∨
          (slots (methodChain (between ++ ancestors)))[k]? = some none ∧
            ∃ classSym ∈ methodChain between, ∃ other ∈ classSym.methods,
              some name = some other.name ∧ other.isInstance = false) := by
    intro name method hMethod
    obtain ⟨k, hk, hSlot⟩ := hAncestors.visible name method hMethod.1 hMethod.2
    rw [methodChain_append]
    exact ⟨k, hk, slots_getElem?_append (methodChain between) hSlot⟩
  refine ⟨?_, ?_, ?_, ?_⟩
  · intro name field hField hHidden
    exact ⟨findField_append hLaidOut.fresh hField.1 hHidden, hField.2⟩
  · intro name field other otherField hField hOther hOffset
    have hMem : field ∈ instanceFields (between ++ ancestors) := by
      rw [instanceFields_append]
      exact mem_append_right _ hField.mem.1
    have hSame := hLaidOut.offset_inj hOther.mem.1 hMem hOffset
    refine ⟨?_, hSame⟩
    rw [← hOther.mem.2, ← hField.mem.2, hSame]
  · intro name method hMethod hHidden
    obtain ⟨k, hk, hSlot | ⟨-, classSym, hClass, other, hOther, hName, hPlain⟩⟩ :=
      hSlots name method hMethod
    · obtain ⟨kept, hKept, hInstance⟩ := hIndexed.known name (mem_of_getElem? hSlot)
      obtain ⟨j, hj, hKeptSlot⟩ := hIndexed.visible name kept hKept hInstance
      refine ⟨kept, ⟨hKept, hInstance⟩, ?_⟩
      rw [hj, hk, hIndexed.unique j k name hKeptSlot hSlot]
    · obtain ⟨layout, hLayout, rfl⟩ := mem_map.mp hClass
      have hInstance := hHidden layout hLayout other hOther (Option.some.inj hName).symm
      rw [hPlain] at hInstance
      cases hInstance
  · intro name method other otherMethod hMethod hOther hIndex
    obtain ⟨k, hk, hSlot⟩ := hSlots name method hMethod
    obtain ⟨j, hj, hOtherSlot⟩ := hIndexed.visible other otherMethod hOther.1 hOther.2
    have hSame : j = k := by omega
    rw [hSame] at hOtherSlot
    rcases hSlot with hSlot | ⟨hSlot, -⟩
    · rw [hOtherSlot] at hSlot
      exact Option.some.inj (Option.some.inj hSlot)
    · rw [hOtherSlot] at hSlot
      cases hSlot

/-- Every hierarchy the first pass registers is consistent, overrides in place
and keeps the places of its ancestors. -/
theorem preregisterLayouts_consistent (stmts : List LayoutStmt) (chain : List ClassLayout)
    (hChain : chain ∈ preregisterLayouts stmts) :
    Consistent chain ∧
      (∀ classSym parents, classSym :: parents <:+ chain →
        OverridesInPlace classSym parents) ∧
      ∀ between ancestors, chain = between ++ ancestors → Keeps between ancestors := by
  have hTabled := tabled_preregisterLayouts stmts chain hChain
  obtain ⟨hLaidOut, hIndexed⟩ := registration_of_parents hTabled
  refine ⟨?_, ?_, ?_⟩
  · cases chain with
    | nil =>
      refine ⟨?_, ?_, ?_⟩
      · intro _ _ hField
        cases hField.1
      · intro _ _ _ _ hField
        cases hField.1
      · intro _ _ _ _ hMethod
        cases hMethod.1
    | cons classSym parents =>
      exact consistent_of_registration (hTabled classSym parents (suffix_refl _))
  · intro classSym parents hSuffix method hMem hInstance old hOld
    exact (hTabled classSym parents hSuffix).overrides method hMem hInstance old hOld.1 hOld.2
  · rintro between ancestors rfl
    have hAncestors := registration_of_parents fun classSym parents hSuffix =>
      hTabled classSym parents (hSuffix.trans (suffix_append _ _))
    exact keeps_of_registered hLaidOut hIndexed hAncestors.2

/-- A class with an instance method `f`, one below it with a static `f`, and one
below that with an instance method `f` again. -/
def hidingStmts : List LayoutStmt :=
  [⟨⟨"A", none, [⟨"f", .i32, [], false, false, false⟩]⟩, [⟨"x", false⟩]⟩,
    ⟨⟨"B", some "A", [⟨"f", .i32, [], false, true, false⟩]⟩, [⟨"y", false⟩]⟩,
    ⟨⟨"C", some "B", [⟨"f", .i32, [], false, false, false⟩]⟩, []⟩]

def hidingA : ClassLayout :=
  ⟨⟨"A", [⟨"f", .i32, [], false, false, false, 0⟩]⟩, [⟨"x", false, 8⟩], 16⟩

def hidingB : ClassLayout :=
  ⟨⟨"B", [⟨"f", .i32, [], false, true, false, -1⟩]⟩, [⟨"y", false, 16⟩], 24⟩

def hidingC : ClassLayout := ⟨⟨"C", [⟨"f", .i32, [], false, false, false, 1⟩]⟩, [], 24⟩

theorem preregisterLayouts_consistent_hiding : Consistent [hidingC, hidingB, hidingA] :=
  (preregisterLayouts_consistent hidingStmts [hidingC, hidingB, hidingA] (by decide)).1

/-- The last class does not keep `f` at the index its first ancestor has it. -/
theorem hidden_index_not_kept :
    [hidingC, hidingB, hidingA] ∈ preregisterLayouts hidingStmts ∧
      VisibleMethod [hidingA] "f" ⟨"f", .i32, [], false, false, false, 0⟩ ∧
      VisibleMethod [hidingC, hidingB, hidingA] "f" ⟨"f", .i32, [], false, false, false, 1⟩ :=
  ⟨by decide, ⟨rfl, rfl⟩, ⟨rfl, rfl⟩⟩

end Casprix.Sema
