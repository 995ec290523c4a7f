import Mathlib.Data.List.Basic
import Mathlib.Data.List.TakeWhile

/-! A list that grows at its end and is cut by bookmarks: each level remembers how long
the list was when the level was entered, and leaving a level cuts the list back. -/
namespace Library

open List

variable {α : Type*}

/-- The items of the levels from `l` on are those behind the bookmark of `l`. -/
structure Segmented (depth : α → Nat) (start : Nat → Nat) (level : Nat)
    (items : List α) : Prop where
  start_zero : start 0 = 0
  start_le : ∀ l ≤ level, start l ≤ items.length
  before : ∀ l ≤ level, ∀ x ∈ items.take (start l), depth x < l
  behind : ∀ l ≤ level, ∀ x ∈ items.drop (start l), l ≤ depth x
  depth_le : ∀ x ∈ items, depth x ≤ level

namespace Segmented

variable {depth : α → Nat} {start : Nat → Nat} {level : Nat} {items : List α}

theorem nil {start : Nat → Nat} (h : start 0 = 0) : Segmented depth start 0 [] where
  start_zero := h
  start_le := fun l hl => by rw [Nat.le_zero.mp hl, h]; exact Nat.zero_le _
  before := fun l _ x hx => by rw [take_nil] at hx; cases hx
  behind := fun l _ x hx => by rw [drop_nil] at hx; cases hx
  depth_le := fun x hx => by cases hx

section

variable (h : Segmented depth start level items)
include h

theorem enter :
    Segmented depth (Function.update start (level + 1) items.length) (level + 1) items := by
  have hOld : ∀ l ≤ level,
      Function.update start (level + 1) items.length l = start l :=
    fun l hl => Function.update_of_ne (by omega) _ _
  refine ⟨?_, ?_, ?_, ?_, fun x hx => (h.depth_le x hx).trans (Nat.le_succ _)⟩
  · rw [hOld 0 (Nat.zero_le _)]
    exact h.start_zero
  all_goals
    intro l hl
    rcases lt_or_eq_of_le hl with hLt | rfl
  · rw [hOld l (by omega)]
    exact h.start_le l (by omega)
  · rw [Function.update_self]
  · rw [hOld l (by omega)]
    exact h.before l (by omega)
  · rw [Function.update_self, take_length]
    exact fun x hx => Nat.lt_succ_of_le (h.depth_le x hx)
  · rw [hOld l (by omega)]
    exact h.behind l (by omega)
  · rw [Function.update_self, drop_length]
    exact fun x hx => by cases hx

theorem push {x : α} (hx : depth x = level) :
    Segmented depth start level (items ++ [x]) where
  start_zero := h.start_zero
  start_le := fun l hl => by
    rw [length_append]
    exact (h.start_le l hl).trans (Nat.le_add_right _ _)
  before := fun l hl y hy => by
    rw [take_append_of_le_length (h.start_le l hl)] at hy
    exact h.before l hl y hy
  behind := fun l hl y hy => by
    rw [drop_append_of_le_length (h.start_le l hl), mem_append, mem_singleton] at hy
    rcases hy with hy | rfl
    · exact h.behind l hl y hy
    · rwa [hx]
  depth_le := fun y hy => by
    rw [mem_append, mem_singleton] at hy
    rcases hy with hy | rfl
    · exact h.depth_le y hy
    · exact hx.le

theorem start_mono {k l : Nat} (hkl : k ≤ l) (hl : l ≤ level) : start k ≤ start l := by
  by_contra hLt
  have hBound : start l < items.length := by
    have := h.start_le k (hkl.trans hl)
    omega
  have hTake : items[start l] ∈ items.take (start k) :=
    mem_take_iff_getElem.mpr ⟨start l, by omega, rfl⟩
  have hDrop : items[start l] ∈ items.drop (start l) :=
    mem_drop_iff_getElem.mpr ⟨0, by omega, by simp only [Nat.add_zero]⟩
  have hBefore := h.before k (hkl.trans hl) _ hTake
  have hBehind := h.behind l hl _ hDrop
  omega

end

/-- Leaving a level gives the items up to its bookmark back to the level before. -/
theorem leave (h : Segmented depth start (level + 1) items) :
    Segmented depth start level (items.take (start (level + 1))) where
  start_zero := h.start_zero
  start_le := fun l hl => by
    rw [length_take]
    exact le_min (h.start_mono (by omega) le_rfl) (h.start_le l (by omega))
  before := fun l hl x hx => by
    rw [take_take, min_eq_left (h.start_mono (by omega) le_rfl)] at hx
    exact h.before l (by omega) x hx
  behind := fun l hl x hx => by
    rw [drop_take] at hx
    exact h.behind l (by omega) x (mem_of_mem_take hx)
  depth_le := fun x hx => Nat.le_of_lt_succ (h.before (level + 1) le_rfl x hx)

section

variable (h : Segmented depth start level items)
include h

/-- Changes of the items that keep their depths and their number keep the segments. -/
theorem congr {items' : List α}
    (hSame : items'.map depth = items.map depth) : Segmented depth start level items' := by
  have hLength : items'.length = items.length := by
    rw [← length_map (f := depth), hSame, length_map]
  have hMem : ∀ {n m : Nat} {x}, x ∈ (items'.drop n).take m →
      ∃ y ∈ (items.drop n).take m, depth y = depth x := fun {n m x} hx => by
    have hDepth := mem_map_of_mem (f := depth) hx
    rw [map_take, map_drop, hSame, ← map_drop, ← map_take] at hDepth
    exact mem_map.mp hDepth
  refine ⟨h.start_zero, fun l hl => hLength ▸ h.start_le l hl, fun l hl x hx => ?_,
    fun l hl x hx => ?_, fun x hx => ?_⟩
  · obtain ⟨y, hy, hEq⟩ := hMem (n := 0) (m := start l) hx
    exact hEq ▸ h.before l hl y hy
  · obtain ⟨y, hy, hEq⟩ := hMem (n := start l) (m := items'.length) (x := x)
      (by rwa [take_of_length_le (by rw [length_drop]; omega)])
    exact hEq ▸ h.behind l hl y (mem_of_mem_take hy)
  · obtain ⟨y, hy, hEq⟩ := hMem (n := 0) (m := items'.length) (x := x)
      (by rwa [drop_zero, take_length])
    exact hEq ▸ h.depth_le y (mem_of_mem_take hy)

theorem takeWhile_reverse {l : Nat} (hl : l ≤ level) :
    items.reverse.takeWhile (fun x => decide (l ≤ depth x)) = (items.drop (start l)).reverse := by
  conv_lhs => rw [← take_append_drop (start l) items]
  rw [reverse_append, takeWhile_append_of_pos]
  · rw [append_right_eq_self]
    cases hTake : (items.take (start l)).reverse with
    | nil => rfl
    | cons x rest =>
      have hMem : x ∈ items.take (start l) := by
        rw [← mem_reverse, hTake]
        exact mem_cons_self
      have hLt := h.before l hl x hMem
      rw [takeWhile_cons_of_neg (by simpa using hLt)]
  · intro x hx
    exact decide_eq_true (h.behind l hl x (mem_reverse.mp hx))

/-- The items behind a bookmark are those that are deep enough. -/
theorem filter_eq_drop {l : Nat} (hl : l ≤ level) :
    items.filter (fun x => decide (l ≤ depth x)) = items.drop (start l) := by
  conv_lhs => rw [← take_append_drop (start l) items]
  rw [filter_append, filter_eq_nil_iff.mpr, filter_eq_self.mpr, nil_append]
  · exact fun x hx => decide_eq_true (h.behind l hl x hx)
  · intro x hx
    have hLt := h.before l hl x hx
    simpa using hLt

end

end Segmented

end Library
