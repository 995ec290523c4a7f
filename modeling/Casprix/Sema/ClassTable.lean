import Casprix.Sema.Slots
import Mathlib.Data.List.Nodup

/-! What the first pass over a program leaves in the symbol table. -/
namespace Casprix.Sema

open List

/-- The symbol of a method says what its declaration says. An abstract
constructor may mark another overload. -/
structure Declared (decl : MethodDecl) (method : MethodSymbol) : Prop where
  name : method.name = decl.name
  isConstructor : method.isConstructor = decl.isConstructor
  isStatic : method.isStatic = decl.isStatic
  isAbstract : decl.isConstructor = false → method.isAbstract = decl.isAbstract

/-- Only constructors share a name. -/
def NamesApart (methods : List MethodSymbol) : Prop :=
  methods.Pairwise fun method other =>
    method.name = other.name → method.isConstructor = true ∧ other.isConstructor = true

/-- A class as its statement declares it. -/
structure Declares (stmt : ClassStmt) (classSym : ClassSymbol) : Prop where
  name : classSym.name = stmt.name
  methods : List.Forall₂ Declared stmt.methods classSym.methods
  apart : NamesApart classSym.methods

theorem NamesApart.same {methods others : List MethodSymbol} (h : NamesApart methods)
    (hSame : List.Forall₂ SameMethod methods others) : NamesApart others := by
  induction hSame with
  | nil => exact .nil
  | cons hHead hTail ih =>
    obtain ⟨hFirst, hRest⟩ := pairwise_cons.mp h
    refine pairwise_cons.mpr ⟨?_, ih hRest⟩
    intro other hOther hName
    obtain ⟨method, hMethod, hMethodSame⟩ := (forall₂_mem hTail).2 other hOther
    rw [← hHead.name, ← hMethodSame.name] at hName
    rw [← hHead.isConstructor, ← hMethodSame.isConstructor]
    exact hFirst method hMethod hName

variable {decl : MethodDecl} {classSym : ClassSymbol} {parents : List ClassSymbol}
  {parentName : Option String}

/-- Marking the method added last keeps what the symbols say of the others. -/
theorem markAbstract_declared {decls : List MethodDecl} {methods : List MethodSymbol}
    {added : MethodSymbol} (h : List.Forall₂ Declared decls methods)
    (hAdded : added.name = decl.name ∧ added.isConstructor = decl.isConstructor ∧
      added.isStatic = decl.isStatic)
    (hAbstract : decl.isAbstract = true)
    (hNames : ∀ old ∈ methods, old.name = decl.name → decl.isConstructor = true ∧
      old.isConstructor = true) :
    List.Forall₂ Declared (decls ++ [decl]) (markAbstract decl.name (methods ++ [added])) := by
  induction h with
  | nil =>
    rw [nil_append, nil_append, markAbstract, if_pos hAdded.1]
    exact .cons ⟨hAdded.1, hAdded.2.1, hAdded.2.2, fun _ => hAbstract.symm⟩ .nil
  | @cons head method decls methods hHead hTail ih =>
    rw [cons_append, cons_append, markAbstract]
    split
    next hName =>
      obtain ⟨hConstructor, hOld⟩ := hNames method mem_cons_self hName
      refine .cons ⟨hHead.name, hHead.isConstructor, hHead.isStatic, ?_⟩ ?_
      · intro hNot
        rw [hHead.isConstructor, hNot] at hOld
        cases hOld
      · refine rel_append hTail (.cons ⟨hAdded.1, hAdded.2.1, hAdded.2.2, ?_⟩ .nil)
        intro hNot
        rw [hConstructor] at hNot
        cases hNot
    · exact .cons hHead (ih fun old hMem => hNames old (mem_cons_of_mem _ hMem))

theorem addMethodToClass_spec {added : ClassSymbol}
    (h : addMethodToClass classSym parents decl = some added) :
    (∀ old ∈ classSym.methods, old.name = decl.name →
      decl.isConstructor = true ∧ old.isConstructor = true) ∧
    ∃ method, added = ⟨classSym.name, classSym.methods ++ [method]⟩ ∧
      (method.name = decl.name ∧ method.isConstructor = decl.isConstructor ∧
        method.isStatic = decl.isStatic) ∧ method.isAbstract = false := by
  unfold addMethodToClass at h
  split at h
  · cases h
  next hAccepted =>
  split at h
  · cases h
  exact ⟨names_of_accepted hAccepted, _, (Option.some.inj h).symm, ⟨rfl, rfl, rfl⟩, rfl⟩

theorem Declares.addMethodToClass {name : String} {before : List MethodDecl} {added : ClassSymbol}
    (h : Declares ⟨name, parentName, before⟩ classSym)
    (hAdd : Sema.addMethodToClass classSym parents decl = some added) :
    Declares ⟨name, parentName, before ++ [decl]⟩
      (if decl.isAbstract then { added with methods := markAbstract decl.name added.methods }
        else added) := by
  obtain ⟨hNames, method, rfl, hMethod, hConcrete⟩ := addMethodToClass_spec hAdd
  have hApart : NamesApart (classSym.methods ++ [method]) := by
    refine pairwise_append.mpr ⟨h.apart, pairwise_singleton _ _, ?_⟩
    intro old hOld other hOther hName
    rw [mem_singleton.mp hOther] at hName ⊢
    rw [hMethod.2.1]
    exact (hNames old hOld (hName.trans hMethod.1)).symm
  split
  next hAbstract =>
    exact ⟨h.name, markAbstract_declared h.methods hMethod hAbstract hNames,
      hApart.same (markAbstract_same _ _)⟩
  next hAbstract =>
    refine ⟨h.name, rel_append h.methods
      (.cons ⟨hMethod.1, hMethod.2.1, hMethod.2.2, ?_⟩ .nil),
      hApart⟩
    intro _
    rw [hConcrete]
    exact (Bool.not_eq_true _ ▸ hAbstract).symm

theorem Declares.addMethods {name : String} {before methods : List MethodDecl} {built : ClassSymbol}
    (h : Declares ⟨name, parentName, before⟩ classSym)
    (hAdd : Sema.addMethods parents classSym methods = some built) :
    Declares ⟨name, parentName, before ++ methods⟩ built := by
  induction methods generalizing before classSym with
  | nil =>
    obtain rfl := Option.some.inj hAdd
    rw [append_nil]
    exact h
  | cons decl rest ih =>
    rw [Sema.addMethods] at hAdd
    obtain ⟨added, hAdded, hRest⟩ := Option.bind_eq_some_iff.mp hAdd
    have hBuilt := ih (h.addMethodToClass hAdded) hRest
    rw [append_assoc] at hBuilt
    exact hBuilt

/-- A table after the first pass over some classes. -/
structure Registered (stmts : List ClassStmt) (table : List (List ClassSymbol)) : Prop where
  declares : List.Forall₂ (fun stmt chain => ∃ classSym parents, chain = classSym :: parents ∧
    Declares stmt classSym) stmts table
  apart : (stmts.map ClassStmt.name).Nodup
  indexed : ∀ chain ∈ table, Indexed chain
  known : ∀ chain ∈ table, ∀ classSym ∈ chain, ∃ stmt ∈ stmts, Declares stmt classSym
  chainApart : ∀ chain ∈ table, (chain.map ClassSymbol.name).Nodup

theorem registered_nil : Registered [] [] :=
  ⟨.nil, .nil, fun _ h => (not_mem_nil h).elim, fun _ h => (not_mem_nil h).elim,
    fun _ h => (not_mem_nil h).elim⟩

namespace Registered

variable {stmts : List ClassStmt} {table : List (List ClassSymbol)}

section

variable (h : Registered stmts table)
include h

theorem lookup {stmt : ClassStmt} (hStmt : stmt ∈ stmts) :
    ∃ classSym parents, lookupClass table stmt.name = some (classSym :: parents) ∧
      Declares stmt classSym ∧ classSym :: parents ∈ table := by
  obtain ⟨chain, hChain, classSym, parents, rfl, hDeclares⟩ :=
    (forall₂_mem h.declares).1 stmt hStmt
  cases hFind : lookupClass table stmt.name with
  | none =>
    have hOther := List.find?_eq_none.mp hFind _ hChain
    exact absurd (beq_iff_eq.mpr (congrArg some hDeclares.name)) hOther
  | some found =>
    have hFound : found ∈ table := mem_of_find?_eq_some hFind
    obtain ⟨other, hOther, otherSym, otherParents, rfl, hOtherDeclares⟩ :=
      (forall₂_mem h.declares).2 found hFound
    have hName : otherSym.name = stmt.name := by
      simpa using find?_some hFind
    obtain rfl := inj_on_of_nodup_map h.apart hOther hStmt (hOtherDeclares.name.symm.trans hName)
    exact ⟨otherSym, otherParents, rfl, hOtherDeclares, hFound⟩

theorem parentChain_spec (hParents : parentChain table parentName = some parents) :
    Indexed parents ∧ (∀ classSym ∈ parents, ∃ stmt ∈ stmts, Declares stmt classSym) ∧
      (parents.map ClassSymbol.name).Nodup := by
  cases parentName with
  | none =>
    obtain rfl := Option.some.inj hParents
    exact ⟨indexed_nil, fun _ hMem => (not_mem_nil hMem).elim, nodup_nil⟩
  | some name =>
    have hMem : parents ∈ table := mem_of_find?_eq_some hParents
    exact ⟨h.indexed _ hMem, h.known _ hMem, h.chainApart _ hMem⟩

theorem preregister {stmt : ClassStmt}
    {next : List (List ClassSymbol)} (hNext : preregisterClass table stmt = some next) :
    Registered (stmts ++ [stmt]) next := by
  unfold preregisterClass at hNext
  split at hNext
  · cases hNext
  next hFresh =>
  obtain ⟨parents, hParents, hNext⟩ := Option.bind_eq_some_iff.mp hNext
  obtain ⟨classSym, hBuilt, rfl⟩ := Option.map_eq_some_iff.mp hNext
  obtain ⟨hIndexed, hKnown, hApart⟩ := h.parentChain_spec hParents
  have hDeclares : Declares stmt classSym := by
    have hStart : Declares ⟨stmt.name, stmt.parentName, []⟩ ⟨stmt.name, []⟩ :=
      ⟨rfl, .nil, .nil⟩
    exact hStart.addMethods hBuilt
  have hOther : ∀ other ∈ stmts, other.name ≠ stmt.name := by
    intro other hMem hName
    obtain ⟨_, _, hFound, -⟩ := h.lookup hMem
    rw [hName] at hFound
    rw [hFound] at hFresh
    exact hFresh rfl
  have hParentsOther : ∀ parent ∈ parents, parent.name ≠ classSym.name := by
    intro parent hMem hName
    obtain ⟨other, hOtherMem, hOtherDeclares⟩ := hKnown parent hMem
    exact hOther other hOtherMem (hOtherDeclares.name.symm.trans (hName.trans hDeclares.name))
  refine ⟨?_, ?_, ?_, ?_, ?_⟩
  · exact rel_append h.declares (.cons ⟨classSym, parents, rfl, hDeclares⟩ .nil)
  · rw [map_append]
    refine nodup_append.mpr ⟨h.apart, pairwise_singleton _ _, ?_⟩
    intro name hName other hOtherName hEq
    obtain ⟨old, hOld, rfl⟩ := mem_map.mp hName
    rw [map_singleton, mem_singleton] at hOtherName
    exact hOther old hOld (hEq.trans hOtherName)
  · intro chain hChain
    rcases mem_append.mp hChain with hMem | hMem
    · exact h.indexed chain hMem
    · rw [mem_singleton.mp hMem]
      exact (hIndexed.open stmt.name).addMethods hBuilt
  · intro chain hChain
    rcases mem_append.mp hChain with hMem | hMem
    · intro member hMember
      obtain ⟨old, hOld, hOldDeclares⟩ := h.known chain hMem member hMember
      exact ⟨old, mem_append_left _ hOld, hOldDeclares⟩
    · rw [mem_singleton.mp hMem]
      intro member hMember
      rcases mem_cons.mp hMember with rfl | hMember
      · exact ⟨stmt, mem_append_right _ (mem_singleton.mpr rfl), hDeclares⟩
      · obtain ⟨old, hOld, hOldDeclares⟩ := hKnown member hMember
        exact ⟨old, mem_append_left _ hOld, hOldDeclares⟩
  · intro chain hChain
    rcases mem_append.mp hChain with hMem | hMem
    · exact h.chainApart chain hMem
    · rw [mem_singleton.mp hMem, map_cons, nodup_cons]
      refine ⟨?_, hApart⟩
      intro hName
      obtain ⟨parent, hParent, hEq⟩ := mem_map.mp hName
      exact hParentsOther parent hParent hEq

theorem foldlM {rest : List ClassStmt}
    {final : List (List ClassSymbol)} (hFinal : rest.foldlM preregisterClass table = some final) :
    Registered (stmts ++ rest) final := by
  induction rest generalizing stmts table with
  | nil =>
    obtain rfl := Option.some.inj hFinal
    rw [append_nil]
    exact h
  | cons stmt rest ih =>
    rw [foldlM_cons] at hFinal
    obtain ⟨next, hNext, hRest⟩ := Option.bind_eq_some_iff.mp hFinal
    have hAll := ih (h.preregister hNext) hRest
    rw [append_assoc] at hAll
    exact hAll

end

end Registered

theorem registered_of_preregistered {stmts : List ClassStmt} {table : List (List ClassSymbol)}
    (h : preregisterClasses stmts = some table) : Registered stmts table :=
  registered_nil.foldlM h

end Casprix.Sema
