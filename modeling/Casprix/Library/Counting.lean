import Mathlib

/-! Counting what a list or a finite set of indices still has to offer, and how many of the first
indices have a place of some kind. -/
namespace Library

/-- A predicate that gives up a member of the list counts less. -/
theorem countP_lt_of_imp {α : Type} {p q : α → Bool} {l : List α} {x : α} (hMem : x ∈ l)
    (hp : p x = true) (hq : q x = false) (hImp : ∀ y, q y = true → p y = true) :
    l.countP q < l.countP p := by
  induction l with
  | nil => cases hMem
  | cons y rest ih =>
    have hLe : rest.countP q ≤ rest.countP p := List.countP_mono_left fun z _ => hImp z
    by_cases hSame : y = x
    · rw [hSame, List.countP_cons_of_pos hp, List.countP_cons_of_neg (by rw [hq]; decide)]
      exact Nat.lt_succ_of_le hLe
    · have hRest := ih ((List.mem_cons.mp hMem).resolve_left fun hEq => hSame hEq.symm)
      rw [List.countP_cons, List.countP_cons]
      have hHead : (if q y = true then 1 else 0) ≤ if p y = true then 1 else 0 := by
        by_cases hy : q y = true
        · rw [if_pos hy, if_pos (hImp y hy)]
        · rw [if_neg hy]
          exact Nat.zero_le _
      omega

/-- If each index of a finite set has another one whose second value is its first value, and the
first values are distinct, then each second value is a first value. -/
theorem exists_first_of_second {α : Type} {bound : Nat} {member : Nat → Prop}
    (first second : Nat → α) (hBound : ∀ i, member i → i < bound)
    (hFirst : ∀ i j, member i → member j → first i = first j → i = j)
    (hFound : ∀ i, member i → ∃ j, member j ∧ second j = first i) :
    ∀ j, member j → ∃ i, member i ∧ second j = first i := by
  have hFinite : Finite {i // member i} := Finite.of_injective
    (fun i : {i // member i} => (⟨i.1, hBound i.1 i.2⟩ : Fin bound))
    fun i j hEq => Subtype.ext (congrArg Fin.val hEq)
  choose next hNext hValue using hFound
  let f : {i // member i} → {i // member i} := fun i => ⟨next i.1 i.2, hNext i.1 i.2⟩
  have hInjective : Function.Injective f := by
    intro i j hEq
    have hSame : next i.1 i.2 = next j.1 j.2 := congrArg Subtype.val hEq
    have hValues := (hValue i.1 i.2).symm.trans ((congrArg second hSame).trans (hValue j.1 j.2))
    exact Subtype.ext (hFirst i.1 j.1 i.2 j.2 hValues)
  intro j hj
  obtain ⟨⟨i, hi⟩, hEq⟩ := Finite.injective_iff_surjective.mp hInjective ⟨j, hj⟩
  have hSame : next i hi = j := congrArg Subtype.val hEq
  exact ⟨i, hi, hSame ▸ hValue i hi⟩

section

variable {α : Type*} {count i : Nat} {place : Nat → α} {value : α} {kind : α → Bool}

def tally (count : Nat) (place : Nat → α) (kind : α → Bool) : Nat :=
  ((Finset.range count).filter fun i => kind (place i) = true).card

theorem tally_update (hi : i < count) :
    tally count (Function.update place i value) kind + (kind (place i)).toNat =
      tally count place kind + (kind value).toNat := by
  have hMem : i ∈ Finset.range count := Finset.mem_range.mpr hi
  have hSplit : ∀ place : Nat → α, tally count place kind =
      (kind (place i)).toNat +
        (((Finset.range count).erase i).filter fun j => kind (place j) = true).card := by
    intro place
    rw [tally, ← Finset.insert_erase hMem, Finset.filter_insert]
    by_cases hKind : kind (place i) = true
    · rw [if_pos hKind, Finset.card_insert_of_notMem, hKind, Bool.toNat_true, add_comm,
        Finset.insert_erase hMem]
      exact fun hIn => Finset.notMem_erase i _ (Finset.mem_filter.mp hIn).1
    · rw [if_neg hKind, Bool.eq_false_iff.mpr hKind, Bool.toNat_false, zero_add,
        Finset.insert_erase hMem]
  have hRest : ((Finset.range count).erase i).filter
      (fun j => kind (Function.update place i value j) = true) =
      ((Finset.range count).erase i).filter fun j => kind (place j) = true := by
    apply Finset.filter_congr
    intro j hj
    rw [Function.update_of_ne (Finset.ne_of_mem_erase hj)]
  rw [hSplit (Function.update place i value), hSplit place, hRest, Function.update_self]
  omega

theorem tally_le : tally count place kind ≤ count := by
  have hLe := Finset.card_filter_le (Finset.range count) fun i => kind (place i) = true
  rwa [Finset.card_range] at hLe

theorem of_tally_eq (h : count ≤ tally count place kind) (hi : i < count) :
    kind (place i) = true := by
  have hSubset : (Finset.range count).filter (fun i =>
      kind (place i) = true) ⊆ Finset.range count :=
    Finset.filter_subset _ _
  have hAll := Finset.eq_of_subset_of_card_le hSubset (by rwa [Finset.card_range])
  have hMem : i ∈ (Finset.range count).filter fun i => kind (place i) = true := by
    rw [hAll]
    exact Finset.mem_range.mpr hi
  exact (Finset.mem_filter.mp hMem).2

theorem tally_le_of_lt {bound : Nat} (h : ∀ i, kind (place i) = true → i < bound) :
    tally count place kind ≤ bound := by
  have hSubset : (Finset.range count).filter (fun i => kind (place i) = true) ⊆
      Finset.range bound := by
    intro i hi
    exact Finset.mem_range.mpr (h i (Finset.mem_filter.mp hi).2)
  have hLe := Finset.card_le_card hSubset
  rwa [Finset.card_range] at hLe

theorem tally_eq_zero (h : ∀ i, kind (place i) = false) : tally count place kind = 0 := by
  rw [tally, Finset.card_eq_zero]
  apply Finset.filter_eq_empty_iff.mpr
  intro i _
  rw [h i]
  exact Bool.false_ne_true

end

end Library
