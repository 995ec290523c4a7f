import Mathlib

/-! Virtual dispatch: compressed vtables, which store only what differs from the parent's table,
and the inline cache of a call site. -/
namespace Casprix.Runtime

open List

variable {M : Type}

/-- The table of a class, behind those of the classes that it derives from. A slot may be null. -/
inductive VTable (M : Type) where
  | root (methods : List (Option M))
  | derived (parent : VTable M) (methods : List (Option M))

namespace VTable

def methods : VTable M → List (Option M)
  | root methods => methods
  | derived _ methods => methods

def parent : VTable M → Option (VTable M)
  | root _ => none
  | derived parent _ => some parent

def numMethods (vt : VTable M) : Nat := vt.methods.length

/-- `methods[i]`, or null where the table ends. -/
def methodAt (vt : VTable M) (i : Nat) : Option M := vt.methods[i]?.join

/-- The slots of a table that shares the beginning of another one. -/
def inheritMethods (numMethods : Nat) (inherited : List (Option M)) : List (Option M) :=
  inherited.take numMethods ++ List.replicate (numMethods - inherited.length) none

def vtableCreate (parent : Option (VTable M)) (numMethods : Nat) : VTable M :=
  match parent with
  | none => root (inheritMethods numMethods [])
  | some parent => derived parent (inheritMethods numMethods parent.methods)

def vtableSetMethod (vt : VTable M) (index : Nat) (method : Option M) : VTable M :=
  match vt with
  | root methods => root (methods.set index method)
  | derived parent methods => derived parent (methods.set index method)

end VTable

open VTable

structure VTableOverride (M : Type) where
  methodIndex : Nat
  methodPtr : Option M

inductive CompressedVTable (M : Type) where
  | mk (base : VTable M) (parent : Option (CompressedVTable M))
    (overrides : List (VTableOverride M))
      (totalMethods : Nat)

def CompressedVTable.base : CompressedVTable M → VTable M
  | mk base _ _ _ => base

section

variable [DecidableEq M]

def overrideAt (full : VTable M) (i : Nat) : VTableOverride M := ⟨i, full.methodAt i⟩

variable (full parentFull : VTable M)

def differsAt (i : Nat) : Bool := full.methodAt i ≠ parentFull.methodAt i

def sharedMethods : Nat :=
  if parentFull.numMethods > full.numMethods then full.numMethods else parentFull.numMethods

/-- The first pass: the size of the array. -/
def overrideCount : Nat :=
  (List.range (sharedMethods full parentFull)).countP (differsAt full parentFull) +
    if full.numMethods > parentFull.numMethods then full.numMethods - parentFull.numMethods else 0

/-- The second pass: changed methods, and then added ones. -/
def overridesOf : List (VTableOverride M) :=
  let shared := sharedMethods full parentFull
  ((List.range shared).filter (differsAt full parentFull)).map (overrideAt full) ++
    (List.range' shared (full.numMethods - shared)).map (overrideAt full)

def cvtableCreate (full : VTable M) (parentCv : Option (CompressedVTable M)) : CompressedVTable M :=
  match parentCv, full.parent with
  | some parent, some _ => .mk full parentCv (overridesOf full parent.base) full.numMethods
  | _, _ => .mk full parentCv [] full.numMethods

/-- The classes are compressed from the root to the leaf. -/
def compress : VTable M → CompressedVTable M
  | root methods => cvtableCreate (root methods) none
  | derived parent methods => cvtableCreate (derived parent methods) (some (compress parent))

end

def cvtableLookup : CompressedVTable M → Nat → Option M
  | .mk base parent overrides _, methodIndex =>
    match overrides.find? fun o => o.methodIndex == methodIndex with
    | some o => o.methodPtr
    | none =>
      match parent with
      | some parent => cvtableLookup parent methodIndex
      | none => if methodIndex < base.numMethods then base.methodAt methodIndex else none

abbrev Address := Nat

structure ObjectHeader where
  vtable : Option Address

inductive ICacheState
  | empty | monomorphic | polymorphic | megamorphic
  deriving DecidableEq, Repr

def icachePolySize : Nat := 4

structure ICacheEntry (M : Type) where
  vtable : Address
  method : M

/-- The entries are the first `num_entries` of the array. -/
structure InlineCache (M : Type) where
  state : ICacheState
  methodIndex : Nat
  entries : List (ICacheEntry M)
  hits : Nat
  misses : Nat

def icacheInit (methodIndex : Nat) : InlineCache M where
  state := .empty
  methodIndex := methodIndex
  entries := []
  hits := 0
  misses := 0

def icacheReset (ic : InlineCache M) : InlineCache M := icacheInit ic.methodIndex

variable (heap : Address → VTable M)

/-- The lookup without a cache, in the table of an object that may be null. -/
def objVirtualMethod (obj : Option ObjectHeader) (methodIndex : Nat) : Option M :=
  match obj.bind (·.vtable) with
  | none => none
  | some vt => if methodIndex ≥ (heap vt).numMethods then none else (heap vt).methodAt methodIndex

/-- What the slow path leaves in the cache. -/
def icacheUpdate (ic : InlineCache M) (entry : ICacheEntry M) : InlineCache M :=
  match ic.state with
  | .empty => { ic with entries := [entry], state := .monomorphic }
  | .monomorphic | .polymorphic =>
    if ic.entries.length < icachePolySize then
      { ic with entries := ic.entries ++ [entry], state := .polymorphic }
    else { ic with state := .megamorphic }
  | .megamorphic => ic

def icacheDispatch (ic : InlineCache M) (obj : Option ObjectHeader) : Option M × InlineCache M :=
  match obj.bind (·.vtable) with
  | none => (none, ic)
  | some vt =>
    match ic.entries.find? fun entry => entry.vtable == vt with
    | some entry => (some entry.method, { ic with hits := ic.hits + 1 })
    | none =>
      let ic := { ic with misses := ic.misses + 1 }
      let method := if ic.methodIndex <
        (heap vt).numMethods then (heap vt).methodAt ic.methodIndex else none
      match method with
      | none => (none, ic)
      | some method => (some method, icacheUpdate ic ⟨vt, method⟩)

/-- What happens at a call site. -/
inductive ICacheOp where
  | dispatch (obj : Option ObjectHeader)
  | reset

/-- The methods that the call site gets. -/
def icacheAnswers (ic : InlineCache M) : List ICacheOp → List (Option M)
  | [] => []
  | .dispatch obj :: ops => (icacheDispatch heap ic obj).1 :: icacheAnswers
    (icacheDispatch heap ic obj).2 ops
  | .reset :: ops => icacheAnswers (icacheReset ic) ops

def receivers : List ICacheOp → List (Option ObjectHeader)
  | [] => []
  | .dispatch obj :: ops => obj :: receivers ops
  | .reset :: ops => receivers ops

/-- The cache behind the calls. -/
def icacheRun (ic : InlineCache M) : List ICacheOp → InlineCache M
  | [] => ic
  | .dispatch obj :: ops => icacheRun (icacheDispatch heap ic obj).2 ops
  | .reset :: ops => icacheRun (icacheReset ic) ops

def seen (methodIndex : Nat) (tables : List Address) (obj : Option ObjectHeader) : List Address :=
  match obj.bind (·.vtable) with
  | none => tables
  | some vt => if vt ∈ tables ∨
    (heap vt).methodAt methodIndex = none then tables else tables ++ [vt]

/-- The tables with the method that receivers have had since the last reset, in the order
of the first ones. -/
def tablesSeen (methodIndex : Nat) (tables : List Address) : List ICacheOp → List Address
  | [] => tables
  | .dispatch obj :: ops => tablesSeen methodIndex (seen heap methodIndex tables obj) ops
  | .reset :: ops => tablesSeen methodIndex [] ops

def stateFor (numTables : Nat) : ICacheState :=
  if numTables = 0 then .empty else if numTables = 1 then .monomorphic
  else if numTables ≤ icachePolySize then .polymorphic else .megamorphic

/-- The entries are those of the first tables, as many as there is room for. -/
structure InlineCache.Keeps (ic : InlineCache M) (tables : List Address) : Prop where
  nodup : tables.Nodup
  entries : ic.entries.map (·.vtable) = tables.take icachePolySize
  state : ic.state = stateFor tables.length

/-- The slot of the nearest class whose table has it. -/
def VTable.nearestSlot : VTable M → Nat → Option M
  | root methods, i => methods[i]?.join
  | derived parent methods, i =>
    if i < methods.length then methods[i]?.join else parent.nearestSlot i

section

variable [DecidableEq M] {full parentFull parent : VTable M} {methods : List (Option M)} {i : Nat}

omit [DecidableEq M] in
theorem sharedMethods_eq :
    sharedMethods full parentFull = min parentFull.numMethods full.numMethods := by
  unfold sharedMethods
  split <;> omega

theorem length_overridesOf :
    (overridesOf full parentFull).length = overrideCount full parentFull := by
  unfold overridesOf overrideCount
  rw [length_append, length_map, length_map, length_range',
    countP_eq_length_filter, sharedMethods_eq]
  congr 1
  split <;> omega

omit [DecidableEq M] in
theorem methodAt_of_ge {vt : VTable M} (h : vt.numMethods ≤ i) : vt.methodAt i = none := by
  rw [methodAt, getElem?_eq_none h, Option.join_none]

theorem mem_overridesOf {o : VTableOverride M} (h : o ∈ overridesOf full parentFull) :
    o = overrideAt full o.methodIndex := by
  rcases mem_append.mp h with hChanged | hAdded
  · obtain ⟨k, _, rfl⟩ := mem_map.mp hChanged
    rfl
  · obtain ⟨k, _, rfl⟩ := mem_map.mp hAdded
    rfl

/-- The slots that a class stores are those that differ from the parent's and those that it adds. -/
theorem exists_override_iff : (∃ o ∈ overridesOf full parentFull, o.methodIndex = i) ↔
    i < full.numMethods ∧ (parentFull.numMethods ≤ i ∨
      full.methodAt i ≠ parentFull.methodAt i) := by
  unfold overridesOf
  simp only [mem_append, mem_map, mem_filter, mem_range, mem_range'_1, sharedMethods_eq, differsAt,
    decide_eq_true_eq, overrideAt]
  constructor
  · rintro ⟨o, ⟨k, ⟨hLt, hDiffers⟩, rfl⟩ | ⟨k, hBounds, rfl⟩, hIndex⟩
    · obtain rfl : k = i := hIndex
      exact ⟨by omega, .inr hDiffers⟩
    · obtain rfl : k = i := hIndex
      exact ⟨by omega, .inl (by omega)⟩
  · rintro ⟨hLt, hStored⟩
    by_cases hLong : parentFull.numMethods ≤ i
    · exact ⟨⟨i, full.methodAt i⟩, .inr ⟨i, by omega, rfl⟩, rfl⟩
    · exact ⟨⟨i, full.methodAt i⟩,
        .inl ⟨i, ⟨by omega, hStored.resolve_left hLong⟩, rfl⟩, rfl⟩

theorem cvtableLookup_derived : cvtableLookup (compress (derived parent methods)) i =
    if i < methods.length ∧ (parent.numMethods ≤ i ∨
      methods[i]?.join ≠ parent.methodAt i) then methods[i]?.join
    else cvtableLookup (compress parent) i := by
  have hBase : (compress parent).base = parent := by
    cases parent with
    | root => rfl
    | derived => rfl
  show cvtableLookup (.mk (derived parent methods) (some (compress parent))
    (overridesOf (derived parent methods) (compress parent).base) methods.length) i = _
  rw [cvtableLookup, hBase]
  have hStored : (∃ o ∈ overridesOf (derived parent methods) parent, o.methodIndex = i) ↔
      i < methods.length ∧ (parent.numMethods ≤ i ∨ methods[i]?.join ≠ parent.methodAt i) :=
        exists_override_iff
  cases hFind : (overridesOf (derived parent methods) parent).find? fun o => o.methodIndex == i with
  | some o =>
    have hMem := mem_of_find?_eq_some hFind
    have hIndex : o.methodIndex = i := by simpa using find?_some hFind
    rw [if_pos (hStored.mp ⟨o, hMem, hIndex⟩), mem_overridesOf hMem, hIndex]
    rfl
  | none =>
    rw [if_neg]
    intro hHere
    obtain ⟨o, hMem, hIndex⟩ := hStored.mpr hHere
    exact find?_eq_none.mp hFind o hMem (beq_iff_eq.mpr hIndex)

theorem cvtableLookup_compress (vt : VTable M) (i : Nat) :
    cvtableLookup (compress vt) i = vt.nearestSlot i := by
  induction vt with
  | root methods =>
    show (if i < methods.length then methods[i]?.join else none) = methods[i]?.join
    split
    · rfl
    · next hEnd => rw [getElem?_eq_none (Nat.le_of_not_lt hEnd), Option.join_none]
  | derived parent methods ih =>
    rw [cvtableLookup_derived, ih, nearestSlot]
    by_cases hOwn : i < methods.length
    · rw [if_pos hOwn]
      by_cases hStored : parent.numMethods ≤ i ∨ methods[i]?.join ≠ parent.methodAt i
      · rw [if_pos ⟨hOwn, hStored⟩]
      · obtain ⟨hShort, hSame⟩ := not_or.mp hStored
        rw [if_neg fun h => hStored h.2, not_not.mp hSame]
        cases parent with
        | root => rfl
        | derived => exact if_pos (Nat.lt_of_not_le hShort)
    · rw [if_neg hOwn, if_neg fun h => hOwn h.1]

end

section

variable {heap} {ic : InlineCache M} {obj : Option ObjectHeader} {tables : List Address}

/-- An entry is what the table has. -/
def ICacheEntry.Current (heap : Address → VTable M) (methodIndex : Nat)
    (entry : ICacheEntry M) : Prop :=
  (heap entry.vtable).methodAt methodIndex = some entry.method

structure InlineCache.Valid (heap : Address → VTable M) (methodIndex : Nat)
    (ic : InlineCache M) : Prop where
  index : ic.methodIndex = methodIndex
  current : ∀ entry ∈ ic.entries, entry.Current heap methodIndex

theorem valid_icacheInit (methodIndex : Nat) :
    (icacheInit methodIndex : InlineCache M).Valid heap methodIndex :=
  ⟨rfl, nofun⟩

theorem InlineCache.Valid.update {methodIndex : Nat}
    (h : ic.Valid heap methodIndex) {entry : ICacheEntry M}
    (hEntry : entry.Current heap methodIndex) : (icacheUpdate ic entry).Valid heap methodIndex := by
  unfold icacheUpdate
  cases ic.state with
  | empty => exact ⟨h.index, fun e he => mem_singleton.mp he ▸ hEntry⟩
  | megamorphic => exact h
  | monomorphic | polymorphic =>
    dsimp only
    split
    · refine ⟨h.index, fun e he => ?_⟩
      rcases mem_append.mp he with he | he
      · exact h.current e he
      · exact mem_singleton.mp he ▸ hEntry
    · exact ⟨h.index, h.current⟩

theorem objVirtualMethod_eq (heap : Address → VTable M)
    (obj : Option ObjectHeader) (methodIndex : Nat) :
    objVirtualMethod heap obj methodIndex = (obj.bind (·.vtable)).bind fun vt =>
      (heap vt).methodAt methodIndex := by
  unfold objVirtualMethod
  cases obj.bind (·.vtable) with
  | none => rfl
  | some vt =>
    dsimp only [Option.bind_some]
    split
    · next hEnd => exact (methodAt_of_ge hEnd).symm
    · rfl

/-- A dispatch answers as the lookup without a cache, and leaves a valid cache. -/
theorem InlineCache.Valid.dispatch {methodIndex : Nat} (h : ic.Valid heap methodIndex)
    (obj : Option ObjectHeader) :
    (icacheDispatch heap ic obj).1 = objVirtualMethod heap obj methodIndex ∧
      (icacheDispatch heap ic obj).2.Valid heap methodIndex := by
  rw [objVirtualMethod_eq]
  unfold icacheDispatch
  cases obj.bind (·.vtable) with
  | none => exact ⟨rfl, h⟩
  | some vt =>
    dsimp only [Option.bind_some]
    cases hFind : ic.entries.find? fun entry => entry.vtable == vt with
    | some entry =>
      have hTable : entry.vtable = vt := by simpa using find?_some hFind
      have hCurrent := h.current entry (mem_of_find?_eq_some hFind)
      rw [ICacheEntry.Current, hTable] at hCurrent
      exact ⟨hCurrent.symm, h.index, h.current⟩
    | none =>
      have hMethod : (if ic.methodIndex <
        (heap vt).numMethods then (heap vt).methodAt ic.methodIndex else none) =
          (heap vt).methodAt methodIndex := by
        rw [h.index]
        split
        · rfl
        · next hEnd => exact (methodAt_of_ge (Nat.le_of_not_lt hEnd)).symm
      rw [hMethod]
      cases hSlot : (heap vt).methodAt methodIndex with
      | none => exact ⟨rfl, h.index, h.current⟩
      | some method =>
        have hMissed : ({ ic with misses :=
          ic.misses + 1 } : InlineCache M).Valid heap methodIndex :=
          ⟨h.index, h.current⟩
        exact ⟨rfl, hMissed.update hSlot⟩

theorem InlineCache.Valid.answers {methodIndex : Nat}
    (h : ic.Valid heap methodIndex) (ops : List ICacheOp) :
    icacheAnswers heap ic ops = (receivers ops).map fun obj =>
      objVirtualMethod heap obj methodIndex := by
  induction ops generalizing ic with
  | nil => rfl
  | cons op ops ih =>
    cases op with
    | dispatch obj =>
      obtain ⟨hAnswer, hValid⟩ := h.dispatch obj
      rw [icacheAnswers, receivers, map_cons, hAnswer, ih hValid]
    | reset =>
      rw [icacheAnswers, receivers]
      apply ih
      rw [icacheReset, h.index]
      exact valid_icacheInit methodIndex

theorem stateFor_of_lt {n : Nat} (h : icachePolySize < n) : stateFor n = .megamorphic := by
  rw [icachePolySize] at h
  rw [stateFor, icachePolySize, if_neg (by omega), if_neg (by omega), if_neg h.not_ge]

theorem InlineCache.Keeps.full (h : ic.Keeps tables) (hMany : icachePolySize < tables.length)
    (entry : ICacheEntry M) : icacheUpdate ic entry = ic := by
  unfold icacheUpdate
  rw [h.state, stateFor_of_lt hMany]

theorem InlineCache.Keeps.update (h : ic.Keeps tables) {entry : ICacheEntry M}
    (hNew : entry.vtable ∉ tables) :
    (icacheUpdate ic entry).Keeps (tables ++ [entry.vtable]) := by
  have hLength : ic.entries.length = min icachePolySize tables.length := by
    rw [← length_take, ← h.entries, length_map]
  have hState := h.state
  have hUpdate : (icacheUpdate ic entry).entries =
    ic.entries ++ [entry].take (icachePolySize - tables.length) ∧
      (icacheUpdate ic entry).state = stateFor (tables.length + 1) := by
    by_cases hMany : icachePolySize < tables.length
    · rw [h.full hMany, hState, stateFor_of_lt hMany, stateFor_of_lt (Nat.lt_succ_of_lt hMany),
        Nat.sub_eq_zero_of_le hMany.le, take_zero, append_nil]
      exact ⟨rfl, rfl⟩
    · unfold icacheUpdate
      rw [hState]
      rcases hSize : tables.length with _ | _ | _ | _ | _ | n <;>
        simp_all [stateFor, icachePolySize]
  refine ⟨nodup_append.mpr ⟨h.nodup, nodup_singleton _, ?_⟩, ?_, ?_⟩
  · rintro a ha b hb rfl
    exact hNew (mem_singleton.mp hb ▸ ha)
  · rw [hUpdate.1, map_append, h.entries, map_take, map_singleton, take_append]
  · rw [hUpdate.2, length_append, length_singleton]

theorem InlineCache.Keeps.dispatch (h : ic.Keeps tables) (obj : Option ObjectHeader) :
    (icacheDispatch heap ic obj).2.Keeps (seen heap ic.methodIndex tables obj) := by
  unfold icacheDispatch seen
  cases obj.bind (·.vtable) with
  | none => exact h
  | some vt =>
    dsimp only
    cases hFind : ic.entries.find? fun entry => entry.vtable == vt with
    | some entry =>
      have hTable : entry.vtable = vt := by simpa using find?_some hFind
      have hMem := mem_map_of_mem (f := (·.vtable)) (mem_of_find?_eq_some hFind)
      rw [h.entries, hTable] at hMem
      rw [if_pos (Or.inl (mem_of_mem_take hMem))]
      exact ⟨h.nodup, h.entries, h.state⟩
    | none =>
      have hMissed : ({ ic with misses := ic.misses + 1 } : InlineCache M).Keeps tables :=
        ⟨h.nodup, h.entries, h.state⟩
      dsimp only
      rw [ite_eq_left_iff.mpr fun hEnd => (methodAt_of_ge (Nat.le_of_not_lt hEnd)).symm]
      cases hSlot : (heap vt).methodAt ic.methodIndex with
      | none => rwa [if_pos (Or.inr rfl)]
      | some method =>
        by_cases hSeen : vt ∈ tables
        · rw [if_pos (Or.inl hSeen)]
          -- The table came when there was no room left.
          have hMany : icachePolySize < tables.length := by
            by_contra hFew
            rw [← take_of_length_le (Nat.le_of_not_lt hFew), ← h.entries] at hSeen
            obtain ⟨entry, hEntry, rfl⟩ := mem_map.mp hSeen
            exact find?_eq_none.mp hFind entry hEntry (beq_self_eq_true _)
          dsimp only
          rwa [hMissed.full hMany]
        · rw [if_neg (by simp [hSeen])]
          exact hMissed.update hSeen

theorem InlineCache.Keeps.run {methodIndex : Nat} (h : ic.Keeps tables)
    (hValid : ic.Valid heap methodIndex)
    (ops : List ICacheOp) : (icacheRun heap ic ops).Keeps
      (tablesSeen heap methodIndex tables ops) := by
  induction ops generalizing ic tables with
  | nil => exact h
  | cons op ops ih =>
    cases op with
    | dispatch obj => exact ih (hValid.index ▸ h.dispatch obj) (hValid.dispatch obj).2
    | reset => exact ih ⟨nodup_nil, rfl, rfl⟩ (hValid.index ▸ valid_icacheInit ic.methodIndex)

end

/-- A call site knows the first four tables with the method that it has met, and its state
how many it has met. -/
theorem inline_cache_keeps (methodIndex : Nat) (ops : List ICacheOp) :
    (icacheRun heap (icacheInit methodIndex) ops).Keeps (tablesSeen heap methodIndex [] ops) :=
  InlineCache.Keeps.run ⟨nodup_nil, rfl, rfl⟩ (valid_icacheInit methodIndex) ops

/-- Both kinds of dispatch find what the full table of a class has. -/
structure DispatchExact [DecidableEq M] (vt : VTable M) : Prop where
  compressed : ∀ i, cvtableLookup (compress vt) i = vt.methodAt i
  cached : ∀ (heap : Address → VTable M) (methodIndex : Nat) (ops : List ICacheOp),
    icacheAnswers heap (icacheInit methodIndex) ops =
      (receivers ops).map fun obj => objVirtualMethod heap obj methodIndex

/-- Nothing is found behind the end of a table, where a class has fewer slots than it inherits. -/
def NothingBehind (vt : VTable M) : Prop :=
  ∀ parent ∈ vt.parent, ∀ i, vt.numMethods ≤ i → parent.nearestSlot i = none

/-- Dispatch is exact for a class exactly if nothing it inherits lies behind the end of its
table. -/
theorem dispatchExact_iff_nothingBehind [DecidableEq M] (vt : VTable M) :
    DispatchExact vt ↔ NothingBehind vt := by
  constructor
  · rintro ⟨hCompressed, -⟩ parent hParent i hEnd
    cases vt with
    | root => cases hParent
    | derived above methods =>
      cases hParent
      have hShort : methods.length ≤ i := hEnd
      have hNone := hCompressed i
      rw [cvtableLookup_compress, methodAt_of_ge hEnd, nearestSlot, if_neg hShort.not_gt] at hNone
      exact hNone
  · intro hBehind
    refine ⟨fun i => ?_, fun heap methodIndex ops => (valid_icacheInit methodIndex).answers ops⟩
    rw [cvtableLookup_compress]
    cases vt with
    | root => rfl
    | derived parent methods =>
      rw [nearestSlot]
      split
      · rfl
      · next hEnd =>
        rw [hBehind parent rfl i (Nat.le_of_not_lt hEnd)]
        exact (methodAt_of_ge (Nat.le_of_not_lt hEnd)).symm

/-- A class with two methods. -/
def animal : VTable Nat :=
  vtableSetMethod (vtableSetMethod (vtableCreate none 2) 0 (some 10)) 1 (some 11)

/-- A class that derives from it and has room for one method. -/
def stone : VTable Nat := vtableCreate (some animal) 1

/-- The second method of the parent is found in the child, whose table ends before it. -/
theorem stone_not_dispatchExact : ¬DispatchExact stone := by
  intro h
  exact absurd (h.compressed 1) (by decide)

end Casprix.Runtime
