import Mathlib.Algebra.Group.Nat.Defs
import Mathlib.Data.List.Sort
import Mathlib.Data.List.Sublists

/-! Sets kept as strictly increasing lists, searched by bisection. -/
namespace Library

open List

variable {α : Type*} [LinearOrder α]

/-- Bisects `[lo, hi)` for the first place whose entry is not below `x`. -/
def lowerBoundLoop (xs : List α) (x : α) : Nat → Nat → Nat → Nat
  | 0, lo, _ => lo
  | fuel + 1, lo, hi =>
    if lo < hi then
      match xs[(lo + hi) / 2]? with
      | some y =>
        if y < x then lowerBoundLoop xs x fuel ((lo + hi) / 2 + 1) hi
        else lowerBoundLoop xs x fuel lo ((lo + hi) / 2)
      | none => lo
    else lo

def lowerBound (xs : List α) (x : α) : Nat := lowerBoundLoop xs x xs.length 0 xs.length

/-- Inserts `x` at its place unless it is already there. -/
def sortedAdd (xs : List α) (x : α) : List α :=
  if xs[lowerBound xs x]? = some x then xs
  else xs.take (lowerBound xs x) ++ x :: xs.drop (lowerBound xs x)

/-- Bisects `[lo, hi)` for `x` itself. -/
def sortedContainsLoop (xs : List α) (x : α) : Nat → Nat → Nat → Bool
  | 0, _, _ => false
  | fuel + 1, lo, hi =>
    if lo < hi then
      match xs[(lo + hi) / 2]? with
      | some y =>
        if y < x then sortedContainsLoop xs x fuel ((lo + hi) / 2 + 1) hi
        else if x < y then sortedContainsLoop xs x fuel lo ((lo + hi) / 2)
        else true
      | none => false
    else false

def sortedContains (xs : List α) (x : α) : Bool :=
  sortedContainsLoop xs x xs.length 0 xs.length

/-- Strictly increasing. -/
abbrev Increasing (xs : List α) : Prop := xs.Pairwise (· < ·)

section

variable {xs : List α} {x y : α} {lo hi fuel i j : Nat}

theorem Increasing.lt (h : Increasing xs) {a b : α} (hLt : i < j) (ha : xs[i]? = some a)
    (hb : xs[j]? = some b) : a < b := by
  obtain ⟨hi, rfl⟩ := List.getElem?_eq_some_iff.mp ha
  obtain ⟨hj, rfl⟩ := List.getElem?_eq_some_iff.mp hb
  exact pairwise_iff_getElem.mp h i j hi hj hLt

/-- The entries before `lo` are below `x`, those from `hi` on are not. -/
structure Bracket (xs : List α) (x : α) (lo hi : Nat) : Prop where
  le : lo ≤ hi
  le_length : hi ≤ xs.length
  below : ∀ i y, i < lo → xs[i]? = some y → y < x
  above : ∀ i y, hi ≤ i → xs[i]? = some y → x ≤ y

theorem bracket_whole (xs : List α) (x : α) : Bracket xs x 0 xs.length where
  le := Nat.zero_le _
  le_length := le_rfl
  below := nofun
  above := by
    intro i y hi hy
    rw [getElem?_eq_none hi] at hy
    cases hy

section

variable (h : Increasing xs) (hBracket : Bracket xs x lo hi)
include h hBracket

theorem Bracket.right {mid : Nat}
    (hMid : mid < hi) (hy : xs[mid]? = some y) (hLt : y < x) : Bracket xs x (mid + 1) hi where
  le := hMid
  le_length := hBracket.le_length
  below := by
    intro i z hi hz
    rcases lt_or_eq_of_le (Nat.le_of_lt_succ hi) with hi | rfl
    · exact (h.lt hi hz hy).trans hLt
    · cases hz.symm.trans hy
      exact hLt
  above := hBracket.above

theorem Bracket.left {mid : Nat}
    (hLo : lo ≤ mid) (hMid : mid < hi) (hy : xs[mid]? = some y) (hLe : x ≤ y) :
    Bracket xs x lo mid where
  le := hLo
  le_length := hMid.le.trans hBracket.le_length
  below := hBracket.below
  above := by
    intro i z hi hz
    rcases lt_or_eq_of_le hi with hi | rfl
    · exact hLe.trans (h.lt hi hy hz).le
    · cases hy.symm.trans hz
      exact hLe

theorem bracket_lowerBoundLoop (hFuel : hi - lo ≤ fuel) :
    Bracket xs x (lowerBoundLoop xs x fuel lo hi) (lowerBoundLoop xs x fuel lo hi) := by
  induction fuel generalizing lo hi with
  | zero =>
    have hLe := hBracket.le
    have hEq : lo = hi := by omega
    subst hEq
    exact hBracket
  | succ fuel ih =>
    unfold lowerBoundLoop
    split
    · next hLt =>
        have hLength := hBracket.le_length
        obtain ⟨y, hy⟩ : ∃ y, xs[(lo + hi) / 2]? = some y :=
          ⟨_, getElem?_eq_getElem (by omega)⟩
        simp only [hy]
        split
        · next hBelow => exact ih (hBracket.right h (by omega) hy hBelow) (by omega)
        · next hAbove =>
            exact ih (hBracket.left h (by omega) (by omega) hy (not_lt.mp hAbove)) (by omega)
    · next hNot =>
        have hLe := hBracket.le
        have hEq : lo = hi := by omega
        subst hEq
        exact hBracket

end

theorem bracket_lowerBound (h : Increasing xs) (x : α) :
    Bracket xs x (lowerBound xs x) (lowerBound xs x) :=
  bracket_lowerBoundLoop h (bracket_whole xs x) (by omega)

theorem mem_sortedAdd : y ∈ sortedAdd xs x ↔ y = x ∨ y ∈ xs := by
  unfold sortedAdd
  split
  · next hFound =>
      have hMem := mem_of_getElem? hFound
      constructor
      · exact Or.inr
      · rintro (rfl | hy)
        · exact hMem
        · exact hy
  · rw [mem_append, mem_cons, or_left_comm, ← mem_append, take_append_drop]

theorem length_sortedAdd (h : x ∉ xs) : (sortedAdd xs x).length = xs.length + 1 := by
  unfold sortedAdd
  split
  · next hFound => exact absurd (mem_of_getElem? hFound) h
  · rw [length_append, length_cons, ← add_assoc, ← length_append, take_append_drop]

theorem increasing_sortedAdd (h : Increasing xs) : Increasing (sortedAdd xs x) := by
  have hBracket := bracket_lowerBound h x
  unfold sortedAdd
  split
  · exact h
  · next hNot =>
      have hTake : ∀ y ∈ xs.take (lowerBound xs x), y < x := by
        intro y hy
        obtain ⟨i, hi, rfl⟩ := mem_take_iff_getElem.mp hy
        exact hBracket.below i _ (by omega) (getElem?_eq_getElem _)
      have hDrop : ∀ y ∈ xs.drop (lowerBound xs x), x < y := by
        intro y hy
        obtain ⟨i, hi, hEntry⟩ := mem_drop_iff_getElem.mp hy
        have hAt : xs[lowerBound xs x + i]? = some y := by
          rw [← hEntry, getElem?_eq_getElem]
        refine lt_of_le_of_ne (hBracket.above _ _ (Nat.le_add_right _ i) hAt) ?_
        rintro rfl
        have hFirst : xs[lowerBound xs x]? = some x := by
          have hLt : lowerBound xs x < xs.length := by omega
          have hLe := hBracket.above _ _ (le_rfl) (getElem?_eq_getElem hLt)
          rw [getElem?_eq_getElem hLt, Option.some.injEq]
          refine le_antisymm ?_ hLe
          cases i with
          | zero =>
            rw [add_zero, getElem?_eq_getElem hLt] at hAt
            exact (Option.some.inj hAt).le
          | succ i =>
            exact (h.lt (Nat.lt_add_of_pos_right (Nat.succ_pos i)) (getElem?_eq_getElem hLt) hAt).le
        exact hNot hFirst
      refine pairwise_append.mpr ⟨h.sublist (take_sublist _ _), ?_, ?_⟩
      · exact pairwise_cons.mpr ⟨hDrop, h.sublist (drop_sublist _ _)⟩
      · intro a ha b hb
        rcases mem_cons.mp hb with rfl | hb
        · exact hTake a ha
        · exact (hTake a ha).trans (hDrop b hb)

theorem sortedContainsLoop_iff (h : Increasing xs)
    (hBracket : ∀ i, xs[i]? = some x → lo ≤ i ∧ i < hi)
    (hLength : hi ≤ xs.length) (hFuel : hi - lo ≤ fuel) :
    sortedContainsLoop xs x fuel lo hi = true ↔ x ∈ xs := by
  induction fuel generalizing lo hi with
  | zero =>
    simp only [sortedContainsLoop, Bool.false_eq_true, false_iff]
    intro hMem
    obtain ⟨i, hi⟩ := mem_iff_getElem?.mp hMem
    have := hBracket i hi
    omega
  | succ fuel ih =>
    unfold sortedContainsLoop
    split
    · next hLt =>
        obtain ⟨y, hy⟩ : ∃ y, xs[(lo + hi) / 2]? = some y :=
          ⟨_, getElem?_eq_getElem (by omega)⟩
        simp only [hy]
        split
        · next hBelow =>
            refine ih (fun i hi => ⟨?_, (hBracket i hi).2⟩) hLength (by omega)
            by_contra hNot
            rcases lt_or_eq_of_le (Nat.le_of_lt_succ (not_le.mp hNot)) with hLt | rfl
            · exact absurd (h.lt hLt hi hy) (lt_asymm hBelow)
            · cases hy.symm.trans hi
              exact lt_irrefl _ hBelow
        · split
          · next hAbove =>
              refine ih (fun i hi => ⟨(hBracket i hi).1, ?_⟩) (by omega) (by omega)
              by_contra hNot
              rcases lt_or_eq_of_le (not_lt.mp hNot) with hLt | rfl
              · exact absurd (h.lt hLt hy hi) (lt_asymm hAbove)
              · cases hy.symm.trans hi
                exact lt_irrefl _ hAbove
          · next hNotBelow hNotAbove =>
              have hEq : y = x := le_antisymm (not_lt.mp hNotAbove) (not_lt.mp hNotBelow)
              subst hEq
              simpa using mem_of_getElem? hy
    · simp only [Bool.false_eq_true, false_iff]
      intro hMem
      obtain ⟨i, hi⟩ := mem_iff_getElem?.mp hMem
      have := hBracket i hi
      omega

theorem sortedContains_iff (h : Increasing xs) : sortedContains xs x = true ↔ x ∈ xs := by
  refine sortedContainsLoop_iff h (fun i hi => ⟨Nat.zero_le i, ?_⟩) (le_rfl) (by omega)
  exact (List.getElem?_eq_some_iff.mp hi).1

end

/-- There are no more increasing lists below `n` than subsets. -/
theorem length_le_two_pow {sets : List (List Nat)} {n : Nat} (hNodup : sets.Nodup)
    (h : ∀ xs ∈ sets, Increasing xs ∧ ∀ x ∈ xs, x < n) : sets.length ≤ 2 ^ n := by
  have hSubset : sets ⊆ (List.range n).sublists := by
    intro xs hxs
    obtain ⟨hIncreasing, hBound⟩ := h xs hxs
    have hMembers : xs ⊆ List.range n := fun x hx => mem_range.mpr (hBound x hx)
    exact mem_sublists.mpr (sublist_of_subperm_of_pairwise
      (subperm_of_subset hIncreasing.nodup hMembers) hIncreasing pairwise_lt_range)
  calc sets.length ≤ (List.range n).sublists.length :=
        (subperm_of_subset hNodup hSubset).length_le
    _ = 2 ^ n := by rw [length_sublists, length_range]

theorem length_le_of_lt {xs : List Nat} {n : Nat} (hIncreasing : Increasing xs)
    (h : ∀ x ∈ xs, x < n) : xs.length ≤ n := by
  have hMembers : xs ⊆ List.range n := fun x hx => mem_range.mpr (h x hx)
  simpa using (subperm_of_subset hIncreasing.nodup hMembers).length_le

end Library
