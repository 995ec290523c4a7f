import Mathlib.Data.List.ReduceOption
import Mathlib.Data.Set.Card

/-! Partial functions with finitely many keys, and the lists of entries that
hold them. -/
namespace Library

open Function List

section

variable {β : Type*} {lanes : List (Option β)} {i : Nat} {x y : Option β}

theorem reduceOption_split (h : lanes[i]? = some x) :
    lanes.reduceOption = (lanes.take i).reduceOption ++
      ([x].reduceOption ++ (lanes.drop (i + 1)).reduceOption) := by
  obtain ⟨hi, hx⟩ := List.getElem?_eq_some_iff.mp h
  have hSplit : lanes = lanes.take i ++ ([x] ++ lanes.drop (i + 1)) := by
    rw [← hx, singleton_append, getElem_cons_drop, take_append_drop]
  conv_lhs => rw [hSplit]
  rw [reduceOption_append, reduceOption_append]

theorem reduceOption_set (h : lanes[i]? = some x) :
    (lanes.set i y).reduceOption = (lanes.take i).reduceOption ++
      ([y].reduceOption ++ (lanes.drop (i + 1)).reduceOption) := by
  have hi := (List.getElem?_eq_some_iff.mp h).1
  rw [set_eq_take_append_cons_drop, if_pos hi, reduceOption_append,
    ← singleton_append, reduceOption_append]

/-- Distinct positions that hold entries are no more than the entries. -/
theorem length_le_reduceOption {positions : List Nat} (hNodup : positions.Nodup)
    (hAll : ∀ p ∈ positions, ∃ b, lanes[p]? = some (some b)) :
    positions.length ≤ lanes.reduceOption.length := by
  induction positions generalizing lanes with
  | nil => exact Nat.zero_le _
  | cons p positions ih =>
    obtain ⟨hNotMem, hRest⟩ := nodup_cons.mp hNodup
    obtain ⟨b, hb⟩ := hAll p mem_cons_self
    have hOther : ∀ q ∈ positions, ∃ c, (lanes.set p none)[q]? = some (some c) := by
      intro q hq
      obtain ⟨c, hc⟩ := hAll q (mem_cons_of_mem p hq)
      refine ⟨c, ?_⟩
      rw [getElem?_set_ne, hc]
      rintro rfl
      exact hNotMem hq
    have hFewer := ih hRest hOther
    rw [reduceOption_set hb] at hFewer
    rw [reduceOption_split hb]
    simp [List.reduceOption] at hFewer ⊢
    omega

end

section

variable {κ ν : Type*}

/-- The number of keys. -/
noncomputable def keyCount (f : κ → Option ν) : Nat := {k | f k ≠ none}.ncard

/-- The entries, in any order, are those of the partial function, each key once. -/
structure Holds (entries : List (κ × ν)) (f : κ → Option ν) : Prop where
  nodup : (entries.map Prod.fst).Nodup
  mem_iff : ∀ k v, (k, v) ∈ entries ↔ f k = some v

namespace Holds

variable {entries front back : List (κ × ν)} {f : κ → Option ν} {k : κ} {v w : ν}

theorem empty : Holds ([] : List (κ × ν)) fun _ => none :=
  ⟨nodup_nil, fun k v => by simp⟩

section

variable (h : Holds entries f)
include h

theorem perm {entries' : List (κ × ν)} (hPerm : entries.Perm entries') :
    Holds entries' f :=
  ⟨(hPerm.map Prod.fst).nodup_iff.mp h.nodup, fun k v =>
    hPerm.mem_iff.symm.trans (h.mem_iff k v)⟩

theorem mem_keys_iff : k ∈ entries.map Prod.fst ↔ f k ≠ none := by
  rw [mem_map, Option.ne_none_iff_exists']
  constructor
  · rintro ⟨entry, hEntry, rfl⟩
    exact ⟨entry.2, (h.mem_iff entry.1 entry.2).mp hEntry⟩
  · rintro ⟨v, hv⟩
    exact ⟨(k, v), (h.mem_iff k v).mpr hv, rfl⟩

theorem keyCount_eq : keyCount f = entries.length := by
  classical
  have hKeys : {k | f k ≠ none} = ((entries.map Prod.fst).toFinset : Set κ) := by
    ext k
    rw [coe_toFinset]
    exact h.mem_keys_iff.symm
  rw [keyCount, hKeys, Set.ncard_coe_finset, toFinset_card_of_nodup h.nodup, length_map]

theorem eq_none_iff : f k = none ↔ ∀ v, (k, v) ∉ entries := by
  rw [Option.eq_none_iff_forall_ne_some]
  exact forall_congr' fun v => not_congr (h.mem_iff k v).symm

end

variable [DecidableEq κ]

theorem insert (h : Holds entries f) (hNew : f k = none) :
    Holds ((k, v) :: entries) (update f k (some v)) := by
  have hAbsent : k ∉ entries.map Prod.fst := fun hMem => h.mem_keys_iff.mp hMem hNew
  refine ⟨nodup_cons.mpr ⟨hAbsent, h.nodup⟩, fun j w => ?_⟩
  rw [mem_cons, Prod.mk.injEq, h.mem_iff]
  by_cases hKey : j = k
  · subst hKey
    rw [update_self, hNew, Option.some.injEq]
    simp [eq_comm]
  · rw [update_of_ne hKey]
    simp [hKey]

theorem erase (h : Holds (front ++ (k, v) :: back) f) :
    Holds (front ++ back) (update f k none) := by
  have hNodup := h.nodup
  rw [map_append, map_cons, nodup_middle, nodup_cons] at hNodup
  refine ⟨by rw [map_append]; exact hNodup.2, fun j w => ?_⟩
  by_cases hKey : j = k
  · subst hKey
    rw [update_self]
    constructor
    · intro hMem
      exact absurd (mem_map_of_mem (f := Prod.fst) hMem) (by
        rw [map_append]
        exact hNodup.1)
    · exact fun hNone => absurd hNone (Option.some_ne_none w).symm
  · rw [update_of_ne hKey, ← h.mem_iff]
    simp [hKey]

theorem replace (h : Holds (front ++ (k, w) :: back) f) :
    Holds (front ++ (k, v) :: back) (update f k (some v)) := by
  have hErased := h.erase.insert (v := v) (update_self k none f)
  rw [update_idem] at hErased
  exact hErased.perm perm_middle.symm

end Holds

end

end Library
