import Mathlib.Data.Nat.ModEq

/-! Indices that grow without bound, masked into an array whose size is a power of two, and
sequences in consecutive slots of a circular buffer. -/
namespace Library

variable {cap i j : Nat}

theorem masked_eq_mod (hCap : cap.isPowerOfTwo) (i : Nat) : i &&& (cap - 1) = i % cap := by
  obtain ⟨k, rfl⟩ := hCap
  exact Nat.and_two_pow_sub_one_eq_mod i k

/-- Indices that fit into the array together are at different places. -/
theorem masked_ne (hCap : cap.isPowerOfTwo) (hLt : i < j) (hFits : j < i + cap) :
    i &&& (cap - 1) ≠ j &&& (cap - 1) := by
  intro hSame
  rw [masked_eq_mod hCap, masked_eq_mod hCap] at hSame
  have hDvd : cap ∣ j - i := (Nat.modEq_iff_dvd' hLt.le).mp hSame
  have hLe := Nat.le_of_dvd (by omega) hDvd
  omega

theorem masked_add (hCap : cap.isPowerOfTwo) (i : Nat) :
    (i + cap) &&& (cap - 1) = i &&& (cap - 1) := by
  rw [masked_eq_mod hCap, masked_eq_mod hCap, Nat.add_mod_right]

open Function

variable {α : Type*} {slot slot' : Nat → α} {cap start : Nat} {items : List α} {x : α}

/-- The slots from `start` on hold the items, in order. -/
def RingHolds (slot : Nat → α) (cap start : Nat) (items : List α) : Prop :=
  ∀ i x, items[i]? = some x → slot ((start + i) % cap) = x

theorem RingHolds.nil (slot : Nat → α) (cap start : Nat) : RingHolds slot cap start [] := by
  intro i x h
  cases h

theorem RingHolds.mod (h : RingHolds slot cap start items) :
    RingHolds slot cap (start % cap) items := by
  intro i x hItem
  rw [Nat.mod_add_mod]
  exact h i x hItem

/-- Two places less than the capacity apart are the same slot only if they are equal. -/
theorem eq_of_mod_eq {i j : Nat} (hi : i < cap) (hj : j < cap)
    (h : (start + i) % cap = (start + j) % cap) : i = j := by
  have hMod : i % cap = j % cap := Nat.ModEq.add_left_cancel (Nat.ModEq.refl start) h
  rwa [Nat.mod_eq_of_lt hi, Nat.mod_eq_of_lt hj] at hMod

theorem RingHolds.update (h : RingHolds slot cap start items) {k : Nat}
    (hBeyond : items.length ≤ k)
    (hRoom : k < cap) (x : α) : RingHolds (update slot ((start + k) % cap) x) cap start items := by
  intro i y hItem
  have hi : i < items.length := (List.getElem?_eq_some_iff.mp hItem).1
  rw [update_of_ne fun hSame => ?_]
  · exact h i y hItem
  · have := eq_of_mod_eq (by omega) hRoom hSame
    omega

theorem RingHolds.push (h : RingHolds slot cap start items)
    (hSlot : slot ((start + items.length) % cap) = x) :
    RingHolds slot cap start (items ++ [x]) := by
  intro i y hItem
  rcases lt_trichotomy i items.length with hi | rfl | hi
  · rw [List.getElem?_append_left hi] at hItem
    exact h i y hItem
  · rw [List.getElem?_concat_length] at hItem
    rw [hSlot, Option.some.inj hItem]
  · rw [List.getElem?_eq_none (by simp; omega)] at hItem
    cases hItem

theorem RingHolds.head (h : RingHolds slot cap start (x :: items)) : slot (start % cap) = x :=
  h 0 x rfl

theorem RingHolds.drop (h : RingHolds slot cap start items) (n : Nat) :
    RingHolds slot cap (start + n) (items.drop n) := by
  intro i x hItem
  rw [List.getElem?_drop] at hItem
  rw [add_assoc]
  exact h (n + i) x hItem

end Library
