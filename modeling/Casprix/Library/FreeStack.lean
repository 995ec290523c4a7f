import Mathlib.Data.Finset.Card

/-! Numbered resources that are each in one entry of a table or on a stack of free
ones. None is lost and none is in two places, and the stack cannot run empty
while the table has fewer entries than there are resources. -/
namespace Library

open Function List

/-- Every resource below the capacity is in one place. -/
structure Accounted {ι : Type*} (entries : ι → Option Nat) (free : List Nat) (capacity : Nat) :
    Prop where
  nodup : free.Nodup
  free_lt : ∀ p ∈ free, p < capacity
  injective : ∀ x y p, entries x = some p → entries y = some p → x = y
  apart : ∀ x p, entries x = some p → p ∉ free
  cover : ∀ p < capacity, p ∈ free ∨ ∃ x, entries x = some p
  entry_lt : ∀ x p, entries x = some p → p < capacity

namespace Accounted

variable {ι : Type*} {entries : ι → Option Nat} {free : List Nat} {capacity p : Nat} {x : ι}

theorem all_free (capacity : Nat) :
    Accounted (fun _ : ι => none) (List.range capacity).reverse capacity where
  nodup := nodup_reverse.mpr nodup_range
  free_lt := fun _ hp => mem_range.mp (mem_reverse.mp hp)
  injective := nofun
  apart := nofun
  cover := fun _ hp => .inl (mem_reverse.mpr (mem_range.mpr hp))
  entry_lt := nofun

section

variable (h : Accounted entries free capacity)
include h

theorem congr {entries' : ι → Option Nat}
    (hSame : ∀ x, entries x = entries' x) : Accounted entries' free capacity :=
  funext hSame ▸ h

/-- There is room on the stack for what is in the table. -/
theorem free_length_lt (hx : entries x = some p) :
    free.length < capacity := by
  have hNodup : (p :: free).Nodup := nodup_cons.mpr ⟨h.apart x p hx, h.nodup⟩
  have hSubset : (p :: free).toFinset ⊆ Finset.range capacity := by
    intro q hq
    rw [mem_toFinset, mem_cons] at hq
    rw [Finset.mem_range]
    rcases hq with rfl | hFree
    · exact h.entry_lt x _ hx
    · exact h.free_lt q hFree
  have hCard := Finset.card_le_card hSubset
  rw [toFinset_card_of_nodup hNodup, Finset.card_range, length_cons] at hCard
  exact hCard

/-- A table with few entries leaves something on the stack. -/
theorem free_ne_nil (used : Finset ι) (hUsed : ∀ x p, entries x = some p → x ∈ used)
    (hCard : used.card < capacity) : free ≠ [] := by
  rintro rfl
  have hSubset : Finset.range capacity ⊆ used.image fun x => (entries x).getD 0 := by
    intro q hq
    obtain ⟨x, hx⟩ := (h.cover q (Finset.mem_range.mp hq)).resolve_left not_mem_nil
    exact Finset.mem_image.mpr ⟨x, hUsed x q hx, by rw [hx]; rfl⟩
  have hLe := (Finset.card_le_card hSubset).trans Finset.card_image_le
  rw [Finset.card_range] at hLe
  omega

end

variable [DecidableEq ι]

theorem take (h : Accounted entries (p :: free) capacity) (hx : entries x = none) :
    Accounted (update entries x (some p)) free capacity := by
  have hNodup := nodup_cons.mp h.nodup
  have hSplit : ∀ y q, update entries x (some p) y = some q →
      (y = x ∧ q = p) ∨ (y ≠ x ∧ entries y = some q) := by
    intro y q hy
    by_cases hSame : y = x
    · rw [hSame, update_self] at hy
      cases hy
      exact .inl ⟨hSame, rfl⟩
    · rw [update_of_ne hSame] at hy
      exact .inr ⟨hSame, hy⟩
  have hNew : ∀ y, entries y ≠ some p := fun y hy => h.apart y p hy mem_cons_self
  exact {
    nodup := hNodup.2
    free_lt := fun q hq => h.free_lt q (mem_cons_of_mem _ hq)
    injective := fun y z q hy hz => by
      rcases hSplit y q hy with ⟨rfl, rfl⟩ | ⟨hy, hyq⟩ <;>
        rcases hSplit z q hz with ⟨rfl, hq⟩ | ⟨hz, hzq⟩
      · rfl
      · exact absurd hzq (hNew z)
      · exact absurd (hq ▸ hyq) (hNew y)
      · exact h.injective y z q hyq hzq
    apart := fun y q hy => by
      rcases hSplit y q hy with ⟨rfl, rfl⟩ | ⟨-, hyq⟩
      · exact hNodup.1
      · exact fun hFree => h.apart y q hyq (mem_cons_of_mem _ hFree)
    cover := fun q hq => by
      rcases h.cover q hq with hFree | ⟨y, hy⟩
      · rcases mem_cons.mp hFree with rfl | hFree
        · exact .inr ⟨x, update_self _ _ _⟩
        · exact .inl hFree
      · have hOther : y ≠ x := fun hSame => by
          rw [hSame, hx] at hy
          cases hy.symm
        exact .inr ⟨y, by rw [update_of_ne hOther, hy]⟩
    entry_lt := fun y q hy => by
      rcases hSplit y q hy with ⟨rfl, rfl⟩ | ⟨-, hyq⟩
      · exact h.free_lt _ mem_cons_self
      · exact h.entry_lt y q hyq }

theorem give (h : Accounted entries free capacity) (hx : entries x = some p) :
    Accounted (update entries x none) (p :: free) capacity := by
  have hSplit : ∀ y q, update entries x none y = some q → y ≠ x ∧ entries y = some q := by
    intro y q hy
    by_cases hSame : y = x
    · rw [hSame, update_self] at hy
      cases hy.symm
    · rw [update_of_ne hSame] at hy
      exact ⟨hSame, hy⟩
  exact {
    nodup := nodup_cons.mpr ⟨h.apart x p hx, h.nodup⟩
    free_lt := fun q hq => by
      rcases mem_cons.mp hq with rfl | hFree
      · exact h.entry_lt x _ hx
      · exact h.free_lt q hFree
    injective := fun y z q hy hz => h.injective y z q (hSplit y q hy).2 (hSplit z q hz).2
    apart := fun y q hy hFree => by
      obtain ⟨hOther, hyq⟩ := hSplit y q hy
      rcases mem_cons.mp hFree with rfl | hFree
      · exact hOther (h.injective y x _ hyq hx)
      · exact h.apart y q hyq hFree
    cover := fun q hq => by
      rcases h.cover q hq with hFree | ⟨y, hy⟩
      · exact .inl (mem_cons_of_mem _ hFree)
      · by_cases hSame : y = x
        · rw [hSame, hx] at hy
          cases hy
          exact .inl mem_cons_self
        · exact .inr ⟨y, by rw [update_of_ne hSame, hy]⟩
    entry_lt := fun y q hy => h.entry_lt y q (hSplit y q hy).2 }

end Accounted

end Library
