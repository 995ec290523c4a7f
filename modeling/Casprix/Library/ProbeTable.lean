import Mathlib.Data.List.Basic
import Mathlib.Data.Nat.Bitwise
import Casprix.Library.RingSlots

/-! Open addressing with linear probing: a table of indices into a growing
list, with a power of two of slots. -/
namespace Library

open List

/-- A slot holds an index or is free. -/
abbrev Slots := List (Option Nat)

inductive Probe where
  | found (index : Nat)
  | free (slot : Nat)
  deriving DecidableEq, Repr

/-- Walks from slot `k` to the first free slot or index that is a hit. -/
def probe (slots : Slots) (mask : Nat) (hit : Nat → Bool) : Nat → Nat → Probe
  | 0, k => .free k
  | fuel + 1, k =>
    match slots[k]? with
    | some (some i) => if hit i then .found i else probe slots mask hit fuel ((k + 1) &&& mask)
    | _ => .free k

/-- Stores `index` in the first free slot from `home` on. -/
def storeIndex (slots : Slots) (mask : Nat) (home index : Nat) : Slots :=
  match probe slots mask (fun _ => false) (mask + 1) home with
  | .free slot => slots.set slot (some index)
  | .found _ => slots

/-- A fresh table with the indices of `homes` stored in order. -/
def storeAll (mask : Nat) (homes : List Nat) : Slots :=
  homes.zipIdx.foldl (fun slots entry => storeIndex slots mask entry.1 entry.2)
    (List.replicate (mask + 1) none)

/-- The table finds each index below `count` by walking over occupied slots
from its home. -/
structure Represents (slots : Slots) (mask : Nat) (home : Nat → Nat) (count : Nat) : Prop where
  pow : ∃ m, mask + 1 = 2 ^ m
  length : slots.length = mask + 1
  entry_lt : ∀ k i : Nat, slots[k]? = some (some i) → i < count
  chain : ∀ i, i < count → ∃ d, slots[(home i + d) % (mask + 1)]? = some (some i) ∧
    ∀ e, e < d → ∃ j, slots[(home i + e) % (mask + 1)]? = some (some j)
  free : slots.count none + count = mask + 1

/-- Every slot is ahead of every other, around the end of the table. -/
theorem exists_offset {cap k j : Nat} (hk : k < cap) (hj : j < cap) :
    ∃ d, d < cap ∧ (k + d) % cap = j := by
  rcases le_total k j with hLe | hLe
  · exact ⟨j - k, by omega, by rw [Nat.add_sub_cancel' hLe, Nat.mod_eq_of_lt hj]⟩
  · rcases eq_or_lt_of_le hLe with rfl | hLess
    · exact ⟨0, by omega, by rw [add_zero, Nat.mod_eq_of_lt hj]⟩
    · refine ⟨cap - k + j, by omega, ?_⟩
      have hSum : k + (cap - k + j) = j + cap := by omega
      rw [hSum, Nat.add_mod_right, Nat.mod_eq_of_lt hj]

theorem offset_inj {cap k s t : Nat} (hs : s < cap) (ht : t < cap)
    (h : (k + s) % cap = (k + t) % cap) : s = t := by
  have hMod := Nat.ModEq.add_left_cancel' k h
  rwa [Nat.ModEq, Nat.mod_eq_of_lt hs, Nat.mod_eq_of_lt ht] at hMod

section

variable {slots : Slots} {mask count : Nat} {home : Nat → Nat}
  {hit : Nat → Bool} {fuel k d : Nat}

theorem and_mask_eq_mod (hPow : ∃ m, mask + 1 = 2 ^ m) (k : Nat) :
    k &&& mask = k % (mask + 1) :=
  masked_eq_mod hPow k

/-- How a walk from `k` ends: `d` misses, then a free slot or a hit. -/
structure Walk (slots : Slots) (mask : Nat) (hit : Nat → Bool) (k d : Nat) (result : Probe) :
    Prop where
  misses : ∀ e, e < d → ∃ j, slots[(k + e) % (mask + 1)]? = some (some j) ∧ hit j = false
  last : (slots[(k + d) % (mask + 1)]? = some none ∧ result = .free ((k + d) % (mask + 1))) ∨
    ∃ j, slots[(k + d) % (mask + 1)]? = some (some j) ∧ hit j = true ∧ result = .found j

theorem Walk.succ (hPow : ∃ m, mask + 1 = 2 ^ m) {result : Probe} {j : Nat}
    (hSlot : slots[k % (mask + 1)]? = some (some j)) (hMiss : hit j = false)
    (h : Walk slots mask hit ((k + 1) &&& mask) d result) :
    Walk slots mask hit k (d + 1) result := by
  have hShift : ∀ e, (((k + 1) &&& mask) + e) % (mask + 1) = (k + (e + 1)) % (mask + 1) := by
    intro e
    rw [and_mask_eq_mod hPow, Nat.mod_add_mod]
    congr 1
    omega
  obtain ⟨hMisses, hLast⟩ := h
  simp only [hShift] at hMisses hLast
  refine ⟨fun e he => ?_, hLast⟩
  cases e with
  | zero => exact ⟨j, hSlot, hMiss⟩
  | succ e => exact hMisses e (Nat.lt_of_succ_lt_succ he)

theorem exists_walk (hPow : ∃ m, mask + 1 = 2 ^ m) (hLength : slots.length = mask + 1)
    (hk : k < mask + 1) (hFree : slots[(k + d) % (mask + 1)]? = some none) (hFuel : d < fuel) :
    ∃ e, Walk slots mask hit k e (probe slots mask hit fuel k) := by
  induction fuel generalizing k d with
  | zero => cases hFuel
  | succ fuel ih =>
    have hMod : k % (mask + 1) = k := Nat.mod_eq_of_lt hk
    obtain ⟨entry, hSlot⟩ : ∃ entry, slots[k]? = some entry :=
      ⟨_, getElem?_eq_getElem (by omega)⟩
    cases entry with
    | none =>
      refine ⟨0, nofun, Or.inl ?_⟩
      simp [probe, hSlot, hMod]
    | some j =>
      cases hHit : hit j with
      | true =>
        refine ⟨0, nofun, Or.inr ⟨j, ?_⟩⟩
        simp [probe, hSlot, hMod, hHit]
      | false =>
        cases d with
        | zero =>
          rw [add_zero, hMod, hSlot] at hFree
          cases hFree
        | succ d =>
          have hNext : (k + 1) &&& mask < mask + 1 := Nat.lt_succ_of_le Nat.and_le_right
          have hAhead : slots[(((k + 1) &&& mask) + d) % (mask + 1)]? = some none := by
            rw [and_mask_eq_mod hPow, Nat.mod_add_mod, add_assoc, add_comm 1 d]
            exact hFree
          obtain ⟨e, hWalk⟩ := ih hNext hAhead (Nat.lt_of_succ_lt_succ hFuel)
          have hProbe : probe slots mask hit (fuel + 1) k =
              probe slots mask hit fuel ((k + 1) &&& mask) := by
            simp [probe, hSlot, hHit]
          rw [hProbe]
          exact ⟨e + 1, hWalk.succ hPow (by rw [hMod, hSlot]) hHit⟩

end

namespace Represents

variable {slots : Slots} {mask count : Nat} {home : Nat → Nat}
  {hit : Nat → Bool} {k slot i : Nat}

section

variable (h : Represents slots mask home count)
include h

theorem congr {home' : Nat → Nat}
    (hEq : ∀ i, i < count → home i = home' i) : Represents slots mask home' count where
  pow := h.pow
  length := h.length
  entry_lt := h.entry_lt
  chain := fun i hi => hEq i hi ▸ h.chain i hi
  free := h.free

theorem exists_walk (hit : Nat → Bool) (hRoom : count < mask + 1) (hk : k < mask + 1) :
    ∃ e, Walk slots mask hit k e (probe slots mask hit (mask + 1) k) := by
  have hCount := h.free
  have hMem : none ∈ slots := count_pos_iff.mp (by omega)
  obtain ⟨j, hj⟩ := mem_iff_getElem?.mp hMem
  have hLt : j < mask + 1 := h.length ▸ (List.getElem?_eq_some_iff.mp hj).1
  obtain ⟨d, hd, hEq⟩ := exists_offset hk hLt
  exact Library.exists_walk h.pow h.length hk (hEq ▸ hj) hd

theorem found (hRoom : count < mask + 1)
    (hk : k < mask + 1) (hFound : probe slots mask hit (mask + 1) k = .found i) :
    i < count ∧ hit i = true := by
  obtain ⟨e, hWalk⟩ := h.exists_walk hit hRoom hk
  rcases hWalk.last with ⟨_, hResult⟩ | ⟨j, hSlot, hHit, hResult⟩
  · rw [hFound] at hResult
    cases hResult
  · rw [hFound] at hResult
    cases hResult
    exact ⟨h.entry_lt _ _ hSlot, hHit⟩

/-- A walk that ends at a free slot saw no hit among the indices at home there. -/
theorem miss (hRoom : count < mask + 1)
    (hk : k < mask + 1) (hFree : probe slots mask hit (mask + 1) k = .free slot) (hi : i < count)
    (hHome : home i = k) : hit i = false := by
  obtain ⟨e, hWalk⟩ := h.exists_walk hit hRoom hk
  obtain ⟨d, hSlot, hChain⟩ := h.chain i hi
  rw [hHome] at hSlot hChain
  rcases lt_trichotomy d e with hLt | rfl | hGt
  · obtain ⟨j, hj, hMiss⟩ := hWalk.misses d hLt
    cases hSlot.symm.trans hj
    exact hMiss
  · rcases hWalk.last with ⟨hNone, _⟩ | ⟨j, _, _, hResult⟩
    · cases hSlot.symm.trans hNone
    · rw [hFree] at hResult
      cases hResult
  · obtain ⟨j, hj⟩ := hChain e hGt
    rcases hWalk.last with ⟨hNone, _⟩ | ⟨j, _, _, hResult⟩
    · cases hj.symm.trans hNone
    · rw [hFree] at hResult
      cases hResult

theorem set (hRoom : count < mask + 1) (hk : home count < mask + 1)
    (hFree : probe slots mask hit (mask + 1) (home count) = .free slot) :
    Represents (slots.set slot (some count)) mask home (count + 1) := by
  obtain ⟨e, hWalk⟩ := h.exists_walk hit hRoom hk
  obtain ⟨hSlot, hEq⟩ : slots[(home count + e) % (mask + 1)]? = some none ∧
      slot = (home count + e) % (mask + 1) := by
    rcases hWalk.last with ⟨hNone, hResult⟩ | ⟨j, _, _, hResult⟩
    · rw [hFree] at hResult
      exact ⟨hNone, Probe.free.inj hResult⟩
    · rw [hFree] at hResult
      cases hResult
  rw [← hEq] at hSlot
  have hLt := (List.getElem?_eq_some_iff.mp hSlot).1
  have hOther : ∀ j i : Nat, slots[j]? = some (some i) →
      (slots.set slot (some count))[j]? = some (some i) := by
    intro j i hj
    rw [getElem?_set_ne, hj]
    rintro rfl
    cases hj.symm.trans hSlot
  refine ⟨h.pow, by rw [length_set, h.length], ?_, ?_, ?_⟩
  · intro j i hj
    rw [getElem?_set] at hj
    split at hj
    · cases hj
      exact Nat.lt_succ_self count
    · exact Nat.lt_succ_of_lt (h.entry_lt j i hj)
  · intro i hi
    rcases lt_or_eq_of_le (Nat.le_of_lt_succ hi) with hi | rfl
    · obtain ⟨d, hd, hChain⟩ := h.chain i hi
      refine ⟨d, hOther _ _ hd, fun c hc => ?_⟩
      obtain ⟨j, hj⟩ := hChain c hc
      exact ⟨j, hOther _ _ hj⟩
    · refine ⟨e, ?_, fun c hc => ?_⟩
      · rw [← hEq, getElem?_set_self hLt]
      · obtain ⟨j, hj, _⟩ := hWalk.misses c hc
        exact ⟨j, hOther _ _ hj⟩
  · have hCount := h.free
    rw [count_set hLt, (List.getElem?_eq_some_iff.mp hSlot).2]
    simp
    omega

end

/-- A fresh table of `mask + 1` slots. -/
theorem replicate (hPow : ∃ m, mask + 1 = 2 ^ m) (home : Nat → Nat) :
    Represents (List.replicate (mask + 1) none) mask home 0 where
  pow := hPow
  length := length_replicate
  entry_lt := by
    intro k i hk
    have hMem := mem_of_getElem? hk
    rw [mem_replicate] at hMem
    cases hMem.2
  chain := nofun
  free := by simp

theorem storeIndex (h : Represents slots mask home count) (hRoom : count < mask + 1)
    (hk : home count < mask + 1) :
    Represents (storeIndex slots mask (home count) count) mask home (count + 1) := by
  unfold Library.storeIndex
  split
  · next slot hFree => exact h.set hRoom hk hFree
  · next i hFound =>
      have hHit := (h.found hRoom hk hFound).2
      cases hHit

theorem storeAll (hPow : ∃ m, mask + 1 = 2 ^ m) {homes : List Nat}
    (hHomes : ∀ k ∈ homes, k < mask + 1) (hRoom : homes.length ≤ mask + 1) :
    Represents (storeAll mask homes) mask (fun i => homes.getD i 0) homes.length := by
  have hFold : ∀ n, n ≤ homes.length → Represents
      ((homes.zipIdx.take n).foldl (fun slots entry =>
        Library.storeIndex slots mask entry.1 entry.2)
        (List.replicate (mask + 1) none)) mask (fun i => homes.getD i 0) n := by
    intro n
    induction n with
    | zero => exact fun _ => replicate hPow _
    | succ n ih =>
      intro hn
      have hLt : n < homes.length := hn
      have hZip : n < homes.zipIdx.length := by simpa using hLt
      rw [take_succ_eq_append_getElem hZip, foldl_append]
      have hStep := (ih hLt.le).storeIndex (by omega) (by
        simpa [hLt] using hHomes _ (getElem_mem hLt))
      simpa [hLt] using hStep
  have hAll := hFold homes.length (le_rfl)
  rwa [take_of_length_le (by simp)] at hAll

end Represents

end Library
