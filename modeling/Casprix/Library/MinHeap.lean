import Mathlib.Data.List.Nodup
import Mathlib.Data.List.Range
import Mathlib.Logic.Equiv.Basic
import Mathlib.Order.Lattice

/-! Binary heaps in an array: the order of parents and children, and what swapping a node with its
parent or a child leaves of it. -/
namespace Library

variable {P : Type*} [LinearOrder P] {key : Nat → P} {n hole i s : Nat}

/-- The node above `i`. -/
def heapParent (i : Nat) : Nat := (i - 1) / 2

theorem heapParent_lt (h : 0 < i) : heapParent i < i := by
  unfold heapParent
  omega

theorem heapParent_eq_iff (h : 0 < i) : heapParent i = s ↔ i = 2 * s + 1 ∨ i = 2 * s + 2 := by
  unfold heapParent
  omega

def HeapOrdered (key : Nat → P) (n : Nat) : Prop :=
  ∀ i, 0 < i → i < n → key (heapParent i) ≤ key i

theorem HeapOrdered.root_le (h : HeapOrdered key n) (hi : i < n) : key 0 ≤ key i := by
  induction i using Nat.strongRecOn with
  | ind i ih =>
    cases Nat.eq_zero_or_pos i with
    | inl hZero => rw [hZero]
    | inr hPos =>
      have hParent := heapParent_lt hPos
      exact (ih _ hParent (hParent.trans hi)).trans (h i hPos hi)

section

/-- In order, but that the node at the hole may be less than its parent. -/
structure RisingAt (key : Nat → P) (n hole : Nat) : Prop where
  others : ∀ i, 0 < i → i < n → i ≠ hole → key (heapParent i) ≤ key i
  above : 0 < hole → ∀ i, 0 < i → i < n → heapParent i = hole →
    key (heapParent hole) ≤ key i

theorem RisingAt.finish (h : RisingAt key n hole)
    (hStop : 0 < hole → key (heapParent hole) ≤ key hole) :
    HeapOrdered key n := by
  intro i hPos hLt
  by_cases hHole : i = hole
  · rw [hHole]
    exact hStop (hHole ▸ hPos)
  · exact h.others i hPos hLt hHole

theorem RisingAt.swap (h : RisingAt key n hole) (hPos : 0 < hole) (hHole : hole < n)
    (hLess : key hole < key (heapParent hole)) :
    RisingAt (key ∘ Equiv.swap (heapParent hole) hole) n (heapParent hole) := by
  have hParent := heapParent_lt hPos
  have hOther : ∀ j, j ≠ heapParent hole → j ≠ hole →
      Equiv.swap (heapParent hole) hole j = j :=
    fun j => Equiv.swap_apply_of_ne_of_ne
  have hGrand : 0 < heapParent hole →
      key (heapParent (heapParent hole)) ≤ key (heapParent hole) :=
    fun hMore => h.others _ hMore (hParent.trans hHole) hParent.ne
  constructor
  · intro i hi hLt hNot
    simp only [Function.comp_apply]
    by_cases hSame : i = hole
    · rw [hSame, Equiv.swap_apply_left, Equiv.swap_apply_right]
      exact hLess.le
    · rw [hOther i hNot hSame]
      by_cases hBelow : heapParent i = hole
      · rw [hBelow, Equiv.swap_apply_right]
        exact h.above hPos i hi hLt hBelow
      · by_cases hSibling : heapParent i = heapParent hole
        · rw [hSibling, Equiv.swap_apply_left]
          have hOrder := h.others i hi hLt hSame
          rw [hSibling] at hOrder
          exact hLess.le.trans hOrder
        · rw [hOther _ hSibling hBelow]
          exact h.others i hi hLt hSame
  · intro hMore i hi hLt hChild
    have hAbove := heapParent_lt hMore
    simp only [Function.comp_apply]
    rw [hOther (heapParent (heapParent hole)) hAbove.ne
      ((lt_trans hAbove hParent).ne)]
    by_cases hSame : i = hole
    · rw [hSame, Equiv.swap_apply_right]
      exact hGrand hMore
    · have hNot : i ≠ heapParent hole := by
        have hLower := heapParent_lt hi
        rw [hChild] at hLower
        exact hLower.ne'
      rw [hOther i hNot hSame]
      have hOrder := h.others i hi hLt hSame
      rw [hChild] at hOrder
      exact (hGrand hMore).trans hOrder

end

section

/-- In order, but that the node at the hole may be greater than its children. -/
structure SinkingAt (key : Nat → P) (n hole : Nat) : Prop where
  others : ∀ i, 0 < i → i < n → heapParent i ≠ hole → key (heapParent i) ≤ key i
  above : 0 < hole → ∀ i, 0 < i → i < n → heapParent i = hole →
    key (heapParent hole) ≤ key i

theorem SinkingAt.finish (h : SinkingAt key n hole)
    (hStop : ∀ i, 0 < i → i < n → heapParent i = hole → key hole ≤ key i) :
    HeapOrdered key n := by
  intro i hPos hLt
  by_cases hHole : heapParent i = hole
  · rw [hHole]
    exact hStop i hPos hLt hHole
  · exact h.others i hPos hLt hHole

theorem SinkingAt.swap (h : SinkingAt key n hole) (hPos : 0 < s) (hLt : s < n)
    (hChild : heapParent s = hole) (hLess : key s < key hole)
    (hLeast : ∀ i, 0 < i → i < n → heapParent i = hole → key s ≤ key i) :
    SinkingAt (key ∘ Equiv.swap hole s) n s := by
  have hDown : hole < s := by
    rw [← hChild]
    exact heapParent_lt hPos
  have hOther : ∀ j, j ≠ hole → j ≠ s → Equiv.swap hole s j = j := fun j =>
    Equiv.swap_apply_of_ne_of_ne
  constructor
  · intro i hi hIn hNot
    simp only [Function.comp_apply]
    by_cases hSame : i = s
    · rw [hSame, hChild, Equiv.swap_apply_left, Equiv.swap_apply_right]
      exact hLess.le
    · by_cases hSibling : heapParent i = hole
      · have hLower := heapParent_lt hi
        rw [hSibling] at hLower
        rw [hSibling, Equiv.swap_apply_left, hOther i hLower.ne' hSame]
        exact hLeast i hi hIn hSibling
      · rw [hOther _ hSibling hNot]
        by_cases hTop : i = hole
        · rw [hTop, Equiv.swap_apply_left]
          exact h.above (hTop ▸ hi) s hPos hLt hChild
        · rw [hOther i hTop hSame]
          exact h.others i hi hIn hSibling
  · intro _ i hi hIn hBelow
    have hLower := heapParent_lt hi
    rw [hBelow] at hLower
    simp only [Function.comp_apply]
    rw [hChild, Equiv.swap_apply_left, hOther i ((lt_trans hDown hLower).ne') hLower.ne']
    have hOrder := h.others i hi hIn fun hHole => hDown.ne' (hBelow.symm.trans hHole)
    rwa [hBelow] at hOrder

end

theorem map_swap_perm {α : Type*} (f : Nat → α) {a b : Nat} (ha : a < n) (hb : b < n) :
    ((List.range n).map (f ∘ Equiv.swap a b)).Perm ((List.range n).map f) := by
  rw [← List.map_map]
  apply List.Perm.map
  have hNodup : ((List.range n).map (Equiv.swap a b)).Nodup :=
    List.nodup_range.map (Equiv.swap a b).injective
  rw [List.perm_ext_iff_of_nodup hNodup List.nodup_range]
  intro x
  have hBound : ∀ x, x < n → Equiv.swap a b x < n := by
    intro x hx
    rw [Equiv.swap_apply_def]
    split
    · exact hb
    · split
      · exact ha
      · exact hx
  rw [List.mem_map, List.mem_range]
  constructor
  · rintro ⟨y, hy, rfl⟩
    exact hBound y (List.mem_range.mp hy)
  · intro hx
    exact ⟨Equiv.swap a b x, List.mem_range.mpr (hBound x hx), Equiv.swap_apply_self ..⟩

end Library
