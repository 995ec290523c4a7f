import Casprix.Sema.Classes
import Mathlib.Data.List.Forall2

/-! The index of an instance method is the position its name takes when the
hierarchy is read from the root: a name that is new takes the next slot, and a
static method or a constructor hides the slot of its name. -/
namespace Casprix.Sema

open List Bool

def MethodSymbol.isInstance (method : MethodSymbol) : Bool :=
  !method.isConstructor && !method.isStatic

def addSlot (taken : List (Option String)) (method : MethodSymbol) : List (Option String) :=
  if method.isInstance then
    if some method.name ∈ taken then taken else taken ++ [some method.name]
  else taken.map fun slot => if slot = some method.name then none else slot

/-- The slots of a hierarchy. A hidden slot keeps its place. -/
def slots : List ClassSymbol → List (Option String)
  | [] => []
  | classSym :: parents => classSym.methods.foldl addSlot (slots parents)

/-- The indices of a hierarchy are its slots. -/
structure Indexed (chain : List ClassSymbol) : Prop where
  visible : ∀ name method, findMethod chain name = some method → method.isInstance = true →
    ∃ k : Nat, method.vtableIndex = k ∧ (slots chain)[k]? = some (some name)
  plain : ∀ name method, findMethod chain name = some method → method.isInstance = false →
    method.vtableIndex = -1
  known : ∀ name, some name ∈ slots chain →
    ∃ method, findMethod chain name = some method ∧ method.isInstance = true
  unique : ∀ (i j : Nat) (name : String), (slots chain)[i]? = some (some name) →
    (slots chain)[j]? = some (some name) → i = j
  bound : ∀ method ∈ chain.flatMap ClassSymbol.methods,
    method.vtableIndex < (slots chain).length
  reached : slots chain = [] ∨ ∃ method ∈ chain.flatMap ClassSymbol.methods,
    method.vtableIndex = (slots chain).length - 1

theorem indexed_nil : Indexed [] where
  visible _ _ h := nomatch h
  plain _ _ h := nomatch h
  known _ h := nomatch h
  unique _ _ _ h := nomatch h
  bound _ h := nomatch h
  reached := .inl rfl

theorem Indexed.open {parents : List ClassSymbol} (h : Indexed parents) (name : String) :
    Indexed (⟨name, []⟩ :: parents) :=
  ⟨h.visible, h.plain, h.known, h.unique, h.bound, h.reached⟩

theorem foldl_max (methods : List MethodSymbol) (start : Int) :
    let result := methods.foldl
      (fun max method => if max < method.vtableIndex then method.vtableIndex else max) start
    start ≤ result ∧ (∀ method ∈ methods, method.vtableIndex ≤ result) ∧
      (result = start ∨ ∃ method ∈ methods, method.vtableIndex = result) := by
  induction methods generalizing start with
  | nil =>
    refine ⟨Int.le_refl _, fun _ h => ?_, .inl rfl⟩
    cases h
  | cons method rest ih =>
    rw [foldl_cons]
    by_cases hLess : start < method.vtableIndex
    · rw [if_pos hLess]
      obtain ⟨hStart, hRest, hReached⟩ := ih method.vtableIndex
      refine ⟨Int.le_trans (Int.le_of_lt hLess) hStart, ?_, .inr ?_⟩
      · intro other hOther
        rcases mem_cons.mp hOther with rfl | hMem
        · exact hStart
        · exact hRest other hMem
      · rcases hReached with hEq | ⟨other, hMem, hEq⟩
        · exact ⟨method, mem_cons_self, hEq.symm⟩
        · exact ⟨other, mem_cons_of_mem _ hMem, hEq⟩
    · rw [if_neg hLess]
      obtain ⟨hStart, hRest, hReached⟩ := ih start
      refine ⟨hStart, ?_, hReached.imp_right ?_⟩
      · intro other hOther
        rcases mem_cons.mp hOther with rfl | hMem
        · exact Int.le_trans (Int.not_lt.mp hLess) hStart
        · exact hRest other hMem
      · rintro ⟨other, hMem, hEq⟩
        exact ⟨other, mem_cons_of_mem _ hMem, hEq⟩

theorem Indexed.maxIndex_eq {chain : List ClassSymbol} (h : Indexed chain) :
    maxIndex (chain.flatMap ClassSymbol.methods) + 1 = (slots chain).length := by
  obtain ⟨hStart, hAll, hReached⟩ := foldl_max (chain.flatMap ClassSymbol.methods) (-1)
  have hLower : ((slots chain).length : Int) ≤
      maxIndex (chain.flatMap ClassSymbol.methods) + 1 := by
    rcases h.reached with hEmpty | ⟨method, hMem, hEq⟩
    · rw [hEmpty, length_nil]
      unfold maxIndex
      omega
    · have := hAll method hMem
      unfold maxIndex
      omega
  have hUpper : maxIndex (chain.flatMap ClassSymbol.methods) < (slots chain).length := by
    rcases hReached with hEq | ⟨method, hMem, hEq⟩
    · unfold maxIndex
      omega
    · have := h.bound method hMem
      unfold maxIndex
      omega
  omega

variable {name : String} {method : MethodSymbol} {className : String} {methods : List MethodSymbol}

theorem findMethod_append_of_ne
    {added : MethodSymbol} {parents : List ClassSymbol} (h : name ≠ added.name) :
    findMethod (⟨className, methods ++ [added]⟩ :: parents) name =
      findMethod (⟨className, methods⟩ :: parents) name := by
  have hAdded : (added.name == name) = false := beq_eq_false_iff_ne.mpr (Ne.symm h)
  have hFind : (methods ++ [added]).find? (fun method => method.name == name) =
      methods.find? fun method => method.name == name := by
    rw [find?_append, find?_cons, hAdded, find?_nil, Option.or_none]
  unfold findMethod
  rw [hFind]

theorem findMethod_append_self {added : MethodSymbol} {parents : List ClassSymbol}
    (h : ∀ method ∈ methods, method.name ≠ added.name) :
    findMethod (⟨className, methods ++ [added]⟩ :: parents) added.name = some added := by
  have hFind : methods.find? (fun method => method.name == added.name) = none :=
    List.find?_eq_none.mpr fun method hMem => by simpa using h method hMem
  unfold findMethod
  rw [find?_append, hFind, find?_cons, beq_self_eq_true]
  rfl

theorem findMethod_of_undeclared
    {parents : List ClassSymbol} (h : ∀ method ∈ methods, method.name ≠ name) :
    findMethod (⟨className, methods⟩ :: parents) name = findMethod parents name := by
  have hFind : methods.find? (fun method => method.name == name) = none :=
    List.find?_eq_none.mpr fun method hMem => by simpa using h method hMem
  rw [findMethod, hFind]

/-- Among methods of one name that are all constructors, a constructor is found. -/
theorem findMethod_overloaded
    {added : MethodSymbol} {parents : List ClassSymbol} (hAdded : added.isConstructor = true)
    (h : ∀ method ∈ methods, method.name = added.name → method.isConstructor = true)
    {found : MethodSymbol}
    (hFound : findMethod (⟨className, methods ++ [added]⟩ :: parents) added.name = some found) :
    found.isConstructor = true := by
  unfold findMethod at hFound
  cases hFind : (methods ++ [added]).find? (fun method => method.name == added.name) with
  | none =>
    have hNone := List.find?_eq_none.mp hFind added
      (mem_append_right _ (mem_singleton.mpr rfl))
    exact absurd (beq_self_eq_true _) hNone
  | some first =>
    rw [hFind] at hFound
    obtain rfl := Option.some.inj hFound
    have hName : first.name = added.name := by simpa using find?_some hFind
    rcases mem_append.mp (mem_of_find?_eq_some hFind) with hMem | hMem
    · exact h first hMem hName
    · rw [mem_singleton.mp hMem]
      exact hAdded

/-- A method of a name that is declared already is not found. -/
theorem findMethod_append_of_declared {added : MethodSymbol} {parents : List ClassSymbol}
    (h : ∃ method ∈ methods, method.name = added.name) :
    findMethod (⟨className, methods ++ [added]⟩ :: parents) added.name =
      findMethod (⟨className, methods⟩ :: parents) added.name := by
  obtain ⟨method, hMem, hName⟩ := h
  have hSome : (methods.find? fun method => method.name == added.name).isSome = true := by
    rw [find?_isSome]
    exact ⟨method, hMem, by simpa using hName⟩
  obtain ⟨first, hFirst⟩ := Option.isSome_iff_exists.mp hSome
  unfold findMethod
  rw [find?_append, hFirst]
  rfl

theorem slots_append (className : String) (methods : List MethodSymbol) (added : MethodSymbol)
    (parents : List ClassSymbol) :
    slots (⟨className, methods ++ [added]⟩ :: parents) =
      addSlot (slots (⟨className, methods⟩ :: parents)) added := by
  rw [slots, slots, foldl_append]
  rfl

theorem mem_methods_append {added : MethodSymbol} {parents : List ClassSymbol} :
    method ∈ (⟨className, methods ++ [added]⟩ :: parents).flatMap ClassSymbol.methods ↔
      method ∈ (⟨className, methods⟩ :: parents).flatMap ClassSymbol.methods ∨
        method = added := by
  simp only [flatMap_cons, mem_append, mem_singleton]
  tauto

section

variable {className : String} {methods : List MethodSymbol} {added : MethodSymbol}
  {parents : List ClassSymbol}

theorem getElem?_append_singleton {α : Type} {l : List α} {last value : α} {i : Nat} :
    (l ++ [last])[i]? = some value ↔ l[i]? = some value ∨ i = l.length ∧ last = value := by
  grind

theorem findMethod_added (hNew : ∀ method ∈ methods, method.name ≠ added.name)
    (h : findMethod (⟨className, methods ++ [added]⟩ :: parents) name = some method) :
    name = added.name ∧ method = added ∨
      name ≠ added.name ∧ findMethod (⟨className, methods⟩ :: parents) name =
        some method := by
  by_cases hName : name = added.name
  · rw [hName, findMethod_append_self hNew] at h
    exact .inl ⟨hName, (Option.some.inj h).symm⟩
  · rw [findMethod_append_of_ne hName] at h
    exact .inr ⟨hName, h⟩

section

variable (h : Indexed (⟨className, methods⟩ :: parents)) (hInstance : added.isInstance = true)
  (hNew : ∀ method ∈ methods, method.name ≠ added.name)
include h hInstance hNew

/-- An override takes the slot of the method it overrides. -/
theorem Indexed.addOverride {old : MethodSymbol} (hOld : findMethod parents added.name = some old)
    (hOldInstance : old.isInstance = true) (hIndex : added.vtableIndex = old.vtableIndex) :
    Indexed (⟨className, methods ++ [added]⟩ :: parents) := by
  have hFound : findMethod (⟨className, methods⟩ :: parents) added.name = some old :=
    (findMethod_of_undeclared hNew).trans hOld
  obtain ⟨k, hk, hSlot⟩ := h.visible added.name old hFound hOldInstance
  have hSlots : slots (⟨className, methods ++ [added]⟩ :: parents) =
      slots (⟨className, methods⟩ :: parents) := by
    rw [slots_append, addSlot, if_pos hInstance, if_pos (mem_of_getElem? hSlot)]
  constructor
  · intro name method hMethod hMethodInstance
    rw [hSlots]
    rcases findMethod_added hNew hMethod with ⟨rfl, rfl⟩ | ⟨_, hBefore⟩
    · exact ⟨k, hIndex.trans hk, hSlot⟩
    · exact h.visible name method hBefore hMethodInstance
  · intro name method hMethod hPlain
    rcases findMethod_added hNew hMethod with ⟨rfl, rfl⟩ | ⟨_, hBefore⟩
    · rw [hInstance] at hPlain
      cases hPlain
    · exact h.plain name method hBefore hPlain
  · intro name hName
    rw [hSlots] at hName
    by_cases hSame : name = added.name
    · rw [hSame]
      exact ⟨added, findMethod_append_self hNew, hInstance⟩
    · obtain ⟨method, hMethod, hMethodInstance⟩ := h.known name hName
      exact ⟨method, (findMethod_append_of_ne hSame).trans hMethod, hMethodInstance⟩
  · rw [hSlots]
    exact h.unique
  · intro method hMethod
    rw [hSlots]
    rcases mem_methods_append.mp hMethod with hBefore | rfl
    · exact h.bound method hBefore
    · have hBound := (List.getElem?_eq_some_iff.mp hSlot).1
      omega
  · rw [hSlots]
    refine h.reached.imp_right ?_
    rintro ⟨method, hMem, hEq⟩
    exact ⟨method, mem_methods_append.mpr (.inl hMem), hEq⟩

/-- A name that is not visible takes the next slot. -/
theorem Indexed.addNew
    (hOld : ∀ old, findMethod parents added.name = some old → old.isInstance = false)
    (hIndex : added.vtableIndex = (slots (⟨className, methods⟩ :: parents)).length) :
    Indexed (⟨className, methods ++ [added]⟩ :: parents) := by
  have hAbsent : some added.name ∉ slots (⟨className, methods⟩ :: parents) := by
    intro hMem
    obtain ⟨method, hMethod, hMethodInstance⟩ := h.known added.name hMem
    rw [findMethod_of_undeclared hNew] at hMethod
    rw [hOld method hMethod] at hMethodInstance
    cases hMethodInstance
  have hSlots : slots (⟨className, methods ++ [added]⟩ :: parents) =
      slots (⟨className, methods⟩ :: parents) ++ [some added.name] := by
    rw [slots_append, addSlot, if_pos hInstance, if_neg hAbsent]
  constructor
  · intro name method hMethod hMethodInstance
    rw [hSlots]
    rcases findMethod_added hNew hMethod with ⟨rfl, rfl⟩ | ⟨_, hBefore⟩
    · exact ⟨_, hIndex, getElem?_append_singleton.mpr (.inr ⟨rfl, rfl⟩)⟩
    · obtain ⟨k, hk, hSlot⟩ := h.visible name method hBefore hMethodInstance
      exact ⟨k, hk, getElem?_append_singleton.mpr (.inl hSlot)⟩
  · intro name method hMethod hPlain
    rcases findMethod_added hNew hMethod with ⟨rfl, rfl⟩ | ⟨_, hBefore⟩
    · rw [hInstance] at hPlain
      cases hPlain
    · exact h.plain name method hBefore hPlain
  · intro name hName
    rw [hSlots] at hName
    by_cases hSame : name = added.name
    · rw [hSame]
      exact ⟨added, findMethod_append_self hNew, hInstance⟩
    · have hBefore : some name ∈ slots (⟨className, methods⟩ :: parents) := by
        rcases mem_append.mp hName with hMem | hMem
        · exact hMem
        · exact absurd (Option.some.inj (mem_singleton.mp hMem)) hSame
      obtain ⟨method, hMethod, hMethodInstance⟩ := h.known name hBefore
      exact ⟨method, (findMethod_append_of_ne hSame).trans hMethod, hMethodInstance⟩
  · intro i j name hi hj
    rw [hSlots] at hi hj
    rcases getElem?_append_singleton.mp hi with hi | ⟨rfl, hName⟩
    · rcases getElem?_append_singleton.mp hj with hj | ⟨rfl, hName⟩
      · exact h.unique i j name hi hj
      · exact absurd (by rw [hName]; exact mem_of_getElem? hi) hAbsent
    · rcases getElem?_append_singleton.mp hj with hj | ⟨rfl, _⟩
      · exact absurd (by rw [hName]; exact mem_of_getElem? hj) hAbsent
      · rfl
  · intro method hMethod
    rw [hSlots, length_append, length_singleton]
    rcases mem_methods_append.mp hMethod with hBefore | rfl
    · have hBound := h.bound method hBefore
      omega
    · omega
  · right
    refine ⟨added, mem_methods_append.mpr (.inr rfl), ?_⟩
    rw [hSlots, length_append, length_singleton, hIndex]
    omega

end

theorem hidden_getElem? {l : List (Option String)} {hidden : String} {i : Nat} :
    (l.map fun slot => if slot = some hidden then none else slot)[i]? = some (some name) ↔
      l[i]? = some (some name) ∧ name ≠ hidden := by
  grind

section

variable (h : Indexed (⟨className, methods⟩ :: parents)) (hPlain : added.isInstance = false)
  (hIndex : added.vtableIndex = -1)
  (hNames : (∀ method ∈ methods, method.name ≠ added.name) ∨
    added.isConstructor = true ∧ ∀ method ∈
    methods, method.name = added.name → method.isConstructor = true)
include h hPlain hIndex hNames

theorem Indexed.findMethod_plain
    (hFound : findMethod (⟨className, methods ++ [added]⟩ :: parents) name = some method) :
    name = added.name ∧ method.isInstance = false ∧ method.vtableIndex = -1 ∨
      name ≠ added.name ∧ findMethod (⟨className, methods⟩ :: parents) name =
        some method := by
  by_cases hName : name = added.name
  · left
    subst hName
    refine ⟨rfl, ?_⟩
    by_cases hDeclared : ∃ method ∈ methods, method.name = added.name
    · obtain ⟨hConstructor, hOld⟩ : added.isConstructor = true ∧
          ∀ method ∈ methods, method.name = added.name → method.isConstructor = true := by
        rcases hNames with hNew | hOverload
        · obtain ⟨old, hMem, hSame⟩ := hDeclared
          exact absurd hSame (hNew old hMem)
        · exact hOverload
      have hMethod := findMethod_overloaded hConstructor hOld hFound
      have hMethodPlain : method.isInstance = false := by
        rw [MethodSymbol.isInstance, hMethod]
        rfl
      rw [findMethod_append_of_declared hDeclared] at hFound
      exact ⟨hMethodPlain, h.plain _ method hFound hMethodPlain⟩
    · have hNew : ∀ method ∈ methods, method.name ≠ added.name :=
        fun method hMem hSame => hDeclared ⟨method, hMem, hSame⟩
      rw [findMethod_append_self hNew] at hFound
      obtain rfl := Option.some.inj hFound
      exact ⟨hPlain, hIndex⟩
  · rw [findMethod_append_of_ne hName] at hFound
    exact .inr ⟨hName, hFound⟩

theorem Indexed.addPlain :
    Indexed (⟨className, methods ++ [added]⟩ :: parents) := by
  have hSlots : slots (⟨className, methods ++ [added]⟩ :: parents) =
      (slots (⟨className, methods⟩ :: parents)).map fun slot =>
        if slot = some added.name then none else slot := by
    rw [slots_append, addSlot, hPlain]
    rfl
  have hLength : (slots (⟨className, methods ++ [added]⟩ :: parents)).length =
      (slots (⟨className, methods⟩ :: parents)).length := by
    rw [hSlots, length_map]
  constructor
  · intro name method hMethod hMethodInstance
    rcases h.findMethod_plain hPlain hIndex hNames hMethod with ⟨_,
      hMethodPlain, _⟩ | ⟨hNe, hBefore⟩
    · rw [hMethodInstance] at hMethodPlain
      cases hMethodPlain
    · obtain ⟨k, hk, hSlot⟩ := h.visible name method hBefore hMethodInstance
      refine ⟨k, hk, ?_⟩
      rw [hSlots]
      exact hidden_getElem?.mpr ⟨hSlot, hNe⟩
  · intro name method hMethod hMethodPlain
    rcases h.findMethod_plain hPlain hIndex hNames hMethod with ⟨_,
      _, hAdded⟩ | ⟨_, hBefore⟩
    · exact hAdded
    · exact h.plain name method hBefore hMethodPlain
  · intro name hName
    obtain ⟨i, hi⟩ := mem_iff_getElem?.mp hName
    rw [hSlots] at hi
    obtain ⟨hi, hNe⟩ := hidden_getElem?.mp hi
    obtain ⟨method, hMethod, hMethodInstance⟩ := h.known name (mem_of_getElem? hi)
    exact ⟨method, (findMethod_append_of_ne hNe).trans hMethod, hMethodInstance⟩
  · intro i j name hi hj
    rw [hSlots] at hi hj
    exact h.unique i j name (hidden_getElem?.mp hi).1 (hidden_getElem?.mp hj).1
  · intro method hMethod
    rw [hLength]
    rcases mem_methods_append.mp hMethod with hBefore | rfl
    · exact h.bound method hBefore
    · omega
  · rw [hLength]
    rcases h.reached with hEmpty | ⟨method, hMem, hEq⟩
    · left
      rw [hSlots, hEmpty]
      rfl
    · exact .inr ⟨method, mem_methods_append.mpr (.inl hMem), hEq⟩

end

end

theorem forall₂_mem {α β : Type} {R : α → β → Prop} {l : List α} {l' : List β}
    (h : List.Forall₂ R l l') :
    (∀ a ∈ l, ∃ b ∈ l', R a b) ∧ ∀ b ∈ l', ∃ a ∈ l, R a b := by
  induction h with
  | nil => simp
  | cons hHead _ ih =>
    constructor
    · intro a hMem
      rcases mem_cons.mp hMem with rfl | hMem
      · exact ⟨_, mem_cons_self, hHead⟩
      · obtain ⟨b, hb, hR⟩ := ih.1 a hMem
        exact ⟨b, mem_cons_of_mem _ hb, hR⟩
    · intro b hMem
      rcases mem_cons.mp hMem with rfl | hMem
      · exact ⟨_, mem_cons_self, hHead⟩
      · obtain ⟨a, ha, hR⟩ := ih.2 b hMem
        exact ⟨a, mem_cons_of_mem _ ha, hR⟩

/-- Two symbols that only differ in being abstract. -/
structure SameMethod (method other : MethodSymbol) : Prop where
  name : method.name = other.name
  isConstructor : method.isConstructor = other.isConstructor
  isStatic : method.isStatic = other.isStatic
  vtableIndex : method.vtableIndex = other.vtableIndex

theorem markAbstract_same (name : String) (methods : List MethodSymbol) :
    List.Forall₂ SameMethod methods (markAbstract name methods) := by
  induction methods with
  | nil => exact .nil
  | cons method rest ih =>
    rw [markAbstract]
    split
    · exact .cons ⟨rfl, rfl, rfl, rfl⟩ (forall₂_same.mpr fun _ _ => ⟨rfl, rfl, rfl, rfl⟩)
    · exact .cons ⟨rfl, rfl, rfl, rfl⟩ ih

theorem SameMethod.isInstance {other : MethodSymbol} (h : SameMethod method other) :
    method.isInstance = other.isInstance := by
  rw [MethodSymbol.isInstance, h.isConstructor, h.isStatic]
  rfl

section

variable {methods others : List MethodSymbol}

theorem foldl_addSlot_same (h : List.Forall₂ SameMethod methods others)
    (taken : List (Option String)) :
    others.foldl addSlot taken = methods.foldl addSlot taken := by
  induction h generalizing taken with
  | nil => rfl
  | cons hHead _ ih =>
    rw [foldl_cons, foldl_cons, ih, addSlot, addSlot, hHead.isInstance, hHead.name]

theorem find?_same (h : List.Forall₂ SameMethod methods others) (name : String) :
    methods.find? (fun method => method.name == name) = none ∧
        others.find? (fun method => method.name == name) = none ∨
      ∃ method other, methods.find? (fun method => method.name == name) = some method ∧
        others.find? (fun method => method.name == name) = some other ∧
        SameMethod method other := by
  induction h with
  | nil => exact .inl ⟨rfl, rfl⟩
  | cons hHead _ ih =>
    rw [find?_cons, find?_cons, ← hHead.name]
    split
    · exact .inr ⟨_, _, rfl, rfl, hHead⟩
    · exact ih

variable {className : String} {parents : List ClassSymbol}

theorem findMethod_same (h : List.Forall₂ SameMethod methods others) (name : String) :
    findMethod (⟨className, methods⟩ :: parents) name =
        findMethod (⟨className, others⟩ :: parents) name ∨
      ∃ method other, findMethod (⟨className, methods⟩ :: parents) name = some method ∧
        findMethod (⟨className, others⟩ :: parents) name = some other ∧
        SameMethod method other := by
  unfold findMethod
  rcases find?_same h name with ⟨hNone, hNone'⟩ | ⟨method, other, hFind, hFind', hSame⟩
  · rw [hNone, hNone']
    exact .inl rfl
  · rw [hFind, hFind']
    exact .inr ⟨method, other, rfl, rfl, hSame⟩

theorem Indexed.same (hIndexed : Indexed (⟨className, methods⟩ :: parents))
    (h : List.Forall₂ SameMethod methods others) :
    Indexed (⟨className, others⟩ :: parents) := by
  have hSlots : slots (⟨className, others⟩ :: parents) =
      slots (⟨className, methods⟩ :: parents) :=
    foldl_addSlot_same h _
  have hBack : ∀ name other, findMethod (⟨className, others⟩ :: parents) name = some other →
      ∃ method, findMethod (⟨className, methods⟩ :: parents) name = some method ∧
        method.isInstance = other.isInstance ∧ method.vtableIndex = other.vtableIndex := by
    intro name other hOther
    rcases findMethod_same h name with hEq | ⟨method, found, hMethod, hFound, hSame⟩
    · exact ⟨other, hEq.trans hOther, rfl, rfl⟩
    · obtain rfl := Option.some.inj (hFound.symm.trans hOther)
      exact ⟨method, hMethod, hSame.isInstance, hSame.vtableIndex⟩
  constructor
  · intro name other hOther hInstance
    obtain ⟨method, hMethod, hSameInstance, hSameIndex⟩ := hBack name other hOther
    rw [hSlots, ← hSameIndex]
    exact hIndexed.visible name method hMethod (hSameInstance.trans hInstance)
  · intro name other hOther hPlain
    obtain ⟨method, hMethod, hSameInstance, hSameIndex⟩ := hBack name other hOther
    rw [← hSameIndex]
    exact hIndexed.plain name method hMethod (hSameInstance.trans hPlain)
  · intro name hName
    rw [hSlots] at hName
    obtain ⟨method, hMethod, hInstance⟩ := hIndexed.known name hName
    rcases findMethod_same h name with hEq | ⟨found, other, hFound, hOther, hSame⟩
    · exact ⟨method, hEq.symm.trans hMethod, hInstance⟩
    · obtain rfl := Option.some.inj (hFound.symm.trans hMethod)
      exact ⟨other, hOther, hSame.isInstance.symm.trans hInstance⟩
  · rw [hSlots]
    exact hIndexed.unique
  · intro other hOther
    rw [hSlots]
    rcases mem_append.mp hOther with hMem | hMem
    · obtain ⟨method, hMethod, hSame⟩ := (forall₂_mem h).2 other hMem
      rw [← hSame.vtableIndex]
      exact hIndexed.bound method (mem_append_left _ hMethod)
    · exact hIndexed.bound other (mem_append_right _ hMem)
  · rw [hSlots]
    refine hIndexed.reached.imp_right ?_
    rintro ⟨method, hMem, hEq⟩
    rcases mem_append.mp hMem with hMem | hMem
    · obtain ⟨other, hOther, hSame⟩ := (forall₂_mem h).1 method hMem
      exact ⟨other, mem_append_left _ hOther, hSame.vtableIndex.symm.trans hEq⟩
    · exact ⟨method, mem_append_right _ hMem, hEq⟩

end

/-- Only an overload of a constructor shares its name with a method before it. -/
theorem names_of_accepted {method : MethodDecl} (h : ¬(methods.any fun old =>
      old.name == method.name && !(method.isConstructor && old.isConstructor)) = true) :
    ∀ old ∈ methods, old.name = method.name →
      method.isConstructor = true ∧ old.isConstructor = true := by
  intro old hMem hName
  by_contra hOther
  apply h
  rw [any_eq_true]
  refine ⟨old, hMem, ?_⟩
  rw [and_eq_true]
  refine ⟨beq_iff_eq.mpr hName, ?_⟩
  rw [Bool.not_eq_true', ← not_eq_true, and_eq_true]
  exact hOther

theorem Indexed.addMethodToClass {classSym added : ClassSymbol} {parents : List ClassSymbol}
    {method : MethodDecl} (h : Indexed (classSym :: parents))
    (hAdd : Sema.addMethodToClass classSym parents method = some added) :
    Indexed (added :: parents) := by
  unfold Sema.addMethodToClass at hAdd
  split at hAdd
  · cases hAdd
  next hAccepted =>
  have hNames := names_of_accepted hAccepted
  split at hAdd
  · cases hAdd
  obtain rfl := Option.some.inj hAdd
  by_cases hPlain : (method.isConstructor || method.isStatic) = true
  · refine h.addPlain ?_ (if_pos hPlain) ?_
    · rw [MethodSymbol.isInstance, ← Bool.not_or, hPlain]
      rfl
    · by_cases hConstructor : method.isConstructor = true
      · exact .inr ⟨hConstructor, fun old hMem hName => (hNames old hMem hName).2⟩
      · exact .inl fun old hMem hName => hConstructor (hNames old hMem hName).1
  · have hNew : ∀ old ∈ classSym.methods, old.name ≠ method.name := by
      intro old hMem hName
      rw [(hNames old hMem hName).1] at hPlain
      exact hPlain rfl
    have hInstance : (!method.isConstructor && !method.isStatic) = true := by
      rw [← Bool.not_or, Bool.not_eq_true']
      exact Bool.not_eq_true _ ▸ hPlain
    have hNext : assignIndex classSym parents method none =
        (slots (classSym :: parents)).length := by
      rw [assignIndex, if_neg hPlain, ← h.maxIndex_eq]
      rfl
    rw [overriddenMethod, if_neg hPlain]
    cases hOld : findMethod parents method.name with
    | none =>
      refine h.addNew hInstance hNew ?_ hNext
      intro old hSome
      rw [hOld] at hSome
      cases hSome
    | some old =>
      have hFound : findMethod (classSym :: parents) method.name = some old :=
        (findMethod_of_undeclared hNew).trans hOld
      cases hOldInstance : old.isInstance with
      | true =>
        obtain ⟨k, hk, -⟩ := h.visible _ old hFound hOldInstance
        refine h.addOverride hInstance hNew hOld hOldInstance ?_
        have hIndex : old.vtableIndex ≠ -1 := by omega
        rw [assignIndex, if_neg hPlain]
        exact if_neg hIndex
      | false =>
        have hIndex := h.plain _ old hFound hOldInstance
        refine h.addNew hInstance hNew ?_ ?_
        · intro other hOther
          obtain rfl := Option.some.inj (hOld.symm.trans hOther)
          exact hOldInstance
        · rw [← hNext, assignIndex, assignIndex, if_neg hPlain, if_neg hPlain, hIndex]

theorem Indexed.addMethods {classSym built : ClassSymbol} {parents : List ClassSymbol}
    {methods : List MethodDecl} (h : Indexed (classSym :: parents))
    (hAdd : Sema.addMethods parents classSym methods = some built) :
    Indexed (built :: parents) := by
  induction methods generalizing classSym with
  | nil =>
    obtain rfl := Option.some.inj hAdd
    exact h
  | cons method rest ih =>
    rw [Sema.addMethods] at hAdd
    obtain ⟨added, hAdded, hRest⟩ := Option.bind_eq_some_iff.mp hAdd
    have hIndexed := h.addMethodToClass hAdded
    split at hRest
    · exact ih (hIndexed.same (markAbstract_same method.name added.methods)) hRest
    · exact ih hIndexed hRest

end Casprix.Sema
