import Casprix.Collections.NuwanMap
import Casprix.Library.FiniteMap
import Casprix.Library.ProbeTable
import Casprix.Library.Refinement

/-! The string map against a partial function. A removal leaves a hole in the
probe runs that pass over its slot. -/
namespace Casprix.Collections

open List Function
open Mir (Word)
open Library

inductive NuwanMapOp (κ : Type*) where
  | put (key : κ) (val : Word)
  | get (key : κ)
  | has (key : κ)
  | remove (key : κ)
  | reserve (expectedSize : Word)
  | clear
  | size

inductive NuwanMapReply where
  | flag (b : Bool)
  | value (val : Word)
  | count (n : Nat)
  | done
  deriving DecidableEq

section

variable {κ : Type*} [DecidableEq κ]

/-- What a partial function answers, and how it is updated. An absent key reads as zero. -/
noncomputable def nuwanMapAnswer :
    NuwanMapOp κ → (κ → Option Word) → NuwanMapReply × (κ → Option Word)
  | .put key val, f => (.done, update f key (some val))
  | .get key, f => (.value ((f key).getD 0), f)
  | .has key, f => (.flag (f key).isSome, f)
  | .remove key, f => (.flag (f key).isSome, update f key none)
  | .reserve _, f => (.done, f)
  | .clear, _ => (.done, fun _ => none)
  | .size, f => (.count (keyCount f), f)

/-- One call on the map. -/
def nuwanMapStep (hash : κ → Word) (op : NuwanMapOp κ) (m : NuwanMap κ) :
    Option (NuwanMapReply × NuwanMap κ) :=
  match op with
  | .put key val => (nuwanMapPut hash m key val).map fun m => (.done, m)
  | .get key => (nuwanMapGet hash m key).map fun val => (.value val, m)
  | .has key => (nuwanMapHas hash m key).map fun b => (.flag b, m)
  | .remove key => (nuwanMapRemove hash m key).map fun r => (.flag r.1, r.2)
  | .reserve expectedSize => (nuwanMapReserve m expectedSize).map fun m => (.done, m)
  | .clear => some (.done, nuwanMapClear m)
  | .size => some (.count m.size, m)

/-- The entry is found by walking over the slot. -/
def PassesOver (cap : Nat) (e : MapEntry κ) (i : Nat) : Prop :=
  ∃ t < e.dib.toNat, (e.hash.toNat % cap + t) % cap = i

instance (cap : Nat) (e : MapEntry κ) (i : Nat) : Decidable (PassesOver cap e i) :=
  inferInstanceAs (Decidable (∃ t < e.dib.toNat, (e.hash.toNat % cap + t) % cap = i))

/-- The calls that keep every probe run whole: no key hashes to the mark of an
empty slot, distances fit their 32 bits, the table asked for has a size, and
no entry is found by walking over the slot of a key that is removed. -/
def NuwanMapFits (hash : κ → Word) (op : NuwanMapOp κ) (m : NuwanMap κ) : Prop :=
  match op with
  | .put key _ => hash key ≠ mapEmpty ∧ m.size < 2 ^ 32
  | .remove key => ∀ slot ∈ m.slots.zipIdx, slot.1.key = some key →
      ∀ e ∈ m.slots, e.hash ≠ mapEmpty → ¬PassesOver m.cap e slot.2
  | .reserve expectedSize => mapReserveNeed expectedSize < 2 ^ 58 * mapLoadNum
  | _ => True

end

/-- The key and value of an occupied slot. -/
def MapEntry.entry {κ : Type*} (e : MapEntry κ) : Option (κ × Word) :=
  if e.hash = mapEmpty then none else e.key.map fun key => (key, e.val)

def mapEntries {κ : Type*} (slots : List (MapEntry κ)) : List (κ × Word) :=
  (slots.map MapEntry.entry).reduceOption

section

variable {κ : Type*} {hash : κ → Word} {cap i j fuel : Nat} {slots : List (MapEntry κ)}
  {c e : MapEntry κ} {key : κ} {val : Word}

/-- An entry fits at slot `i`: its distance leads there, over occupied slots
whose own distances are no smaller than the way so far. -/
structure Placed (hash : κ → Word) (cap : Nat) (slots : List (MapEntry κ)) (i : Nat)
    (e : MapEntry κ) : Prop where
  keyed : ∃ key, e.key = some key ∧ e.hash = hash key
  full : e.hash ≠ mapEmpty
  place : (e.hash.toNat % cap + e.dib.toNat) % cap = i
  run : ∀ t, t < e.dib.toNat →
    ∃ other, slots[(e.hash.toNat % cap + t) % cap]? = some other ∧
    other.hash ≠ mapEmpty ∧ t ≤ other.dib.toNat

/-- Every occupied slot holds an entry that fits there. -/
structure RobinHood (hash : κ → Word) (cap : Nat) (slots : List (MapEntry κ)) : Prop where
  length : slots.length = cap
  placed : ∀ (i : Nat) e, slots[i]? = some e → e.hash ≠ mapEmpty → Placed hash cap slots i e

/-- Some slot is empty. -/
def HasRoom (slots : List (MapEntry κ)) : Prop :=
  ∃ (j : Nat) (e : MapEntry κ), slots[j]? = some e ∧ e.hash = mapEmpty

theorem MapEntry.entry_of_full (hFull : e.hash ≠ mapEmpty) (hKey : e.key = some key) :
    e.entry = some (key, e.val) := by
  rw [MapEntry.entry, if_neg hFull, hKey]
  rfl

theorem MapEntry.entry_of_empty (hEmpty : e.hash = mapEmpty) : e.entry = none := if_pos hEmpty

theorem mapEntries_set (hAt : slots[i]? = some e) : ∃ front back,
    mapEntries slots = front ++ ([e.entry].reduceOption ++ back) ∧
    ∀ c, mapEntries (slots.set i c) = front ++ ([MapEntry.entry c].reduceOption ++ back) := by
  have hEntry : (slots.map MapEntry.entry)[i]? = some e.entry := by
    rw [getElem?_map, hAt]
    rfl
  refine ⟨_, _, reduceOption_split hEntry, fun c => ?_⟩
  rw [mapEntries, map_set]
  exact reduceOption_set hEntry

theorem modify_eq_set {g : MapEntry κ → MapEntry κ} (hAt : slots[i]? = some e) :
    slots.modify i g = slots.set i (g e) := by
  have : Inhabited (MapEntry κ) := ⟨e⟩
  rw [List.modify_eq_set, hAt]
  rfl

theorem mem_mapEntries : (key, val) ∈ mapEntries slots ↔
    ∃ (i : Nat) (e : MapEntry κ), slots[i]? = some e ∧ e.hash ≠ mapEmpty ∧
      e.key = some key ∧ e.val = val := by
  rw [mapEntries, reduceOption_mem_iff, mem_map]
  constructor
  · rintro ⟨e, hMem, hEntry⟩
    obtain ⟨i, hAt⟩ := mem_iff_getElem?.mp hMem
    by_cases hEmpty : e.hash = mapEmpty
    · rw [MapEntry.entry_of_empty hEmpty] at hEntry
      cases hEntry
    · rw [MapEntry.entry, if_neg hEmpty, Option.map_eq_some_iff] at hEntry
      obtain ⟨k, hKey, hSame⟩ := hEntry
      rw [Prod.mk.injEq] at hSame
      exact ⟨i, e, hAt, hEmpty, hSame.1 ▸ hKey, hSame.2⟩
  · rintro ⟨i, e, hAt, hFull, hKey, rfl⟩
    exact ⟨e, mem_of_getElem? hAt, MapEntry.entry_of_full hFull hKey⟩

namespace Placed

section

variable (h : Placed hash cap slots i c) (hAt : slots[i]? = some e) (hFull : e.hash ≠ mapEmpty)
include h hAt hFull

theorem on_run {t : Nat} (ht : t ≤ c.dib.toNat) :
    ∃ other, slots[(c.hash.toNat % cap + t) % cap]? = some other ∧
      other.hash ≠ mapEmpty ∧ (t < c.dib.toNat → t ≤ other.dib.toNat) ∧
      (t = c.dib.toNat → other = e) := by
  rcases lt_or_eq_of_le ht with hLt | rfl
  · obtain ⟨other, hOther, hOtherFull, hLe⟩ := h.run t hLt
    exact ⟨other, hOther, hOtherFull, fun _ => hLe, fun hSame => absurd hSame hLt.ne⟩
  · exact ⟨e, by rw [h.place, hAt], hFull, fun hLt => absurd hLt (lt_irrefl _), fun _ => rfl⟩

theorem dib_lt (hLength : slots.length = cap) (hRoom : HasRoom slots) : c.dib.toNat < cap := by
  obtain ⟨j, empty, hj, hEmpty⟩ := hRoom
  have hLt : j < cap := hLength ▸ (List.getElem?_eq_some_iff.mp hj).1
  obtain ⟨t, ht, hSlot⟩ := exists_offset (Nat.mod_lt c.hash.toNat (Nat.zero_lt_of_lt hLt)) hLt
  by_contra hLong
  obtain ⟨other, hOther, hOtherFull, _⟩ := h.on_run hAt hFull (t := t) (by omega)
  rw [hSlot, hj] at hOther
  cases hOther
  exact hOtherFull hEmpty

end

/-- Writing an entry that is no nearer to its home than the one it replaces. -/
theorem set (h : Placed hash cap slots i e) {old : MapEntry κ} (hAt : slots[j]? = some old)
    (hMore : old.hash ≠ mapEmpty → old.dib.toNat ≤ c.dib.toNat)
    (hFull : c.hash ≠ mapEmpty) :
    Placed hash cap (slots.set j c) i e where
  keyed := h.keyed
  full := h.full
  place := h.place
  run := by
    intro t ht
    obtain ⟨other, hOther, hOtherFull, hLe⟩ := h.run t ht
    by_cases hSame : (e.hash.toNat % cap + t) % cap = j
    · rw [hSame, hAt] at hOther
      cases hOther
      refine ⟨c, ?_, hFull, hLe.trans (hMore hOtherFull)⟩
      rw [hSame, getElem?_set_self (List.getElem?_eq_some_iff.mp hAt).1]
    · refine ⟨other, ?_, hOtherFull, hLe⟩
      rw [getElem?_set_ne (Ne.symm hSame), hOther]

theorem next (h : Placed hash cap slots i c) (hAt : slots[i]? = some e)
    (hFull : e.hash ≠ mapEmpty)
    (hLe : c.dib.toNat ≤ e.dib.toNat) (hFits : c.dib.toNat + 1 < 2 ^ 32) :
    Placed hash cap slots ((i + 1) % cap) { c with dib := c.dib + 1 } := by
  have hDib : (c.dib + 1).toNat = c.dib.toNat + 1 := by
    rw [BitVec.toNat_add]
    exact Nat.mod_eq_of_lt hFits
  refine ⟨h.keyed, h.full, ?_, ?_⟩
  · show (c.hash.toNat % cap + (c.dib + 1).toNat) % cap = (i + 1) % cap
    rw [hDib, ← add_assoc, ← Nat.mod_add_mod, h.place]
  · show ∀ t, t < (c.dib + 1).toNat →
      ∃ other, slots[(c.hash.toNat % cap + t) % cap]? = some other ∧ _
    rw [hDib]
    intro t ht
    rcases lt_or_eq_of_le (Nat.le_of_lt_succ ht) with hLt | rfl
    · exact h.run t hLt
    · exact ⟨e, by rw [h.place, hAt], hFull, hLe⟩

end Placed

namespace RobinHood

section

variable (h : RobinHood hash cap slots)
include h

/-- Writing an entry that fits, no nearer to its home than the one it replaces. -/
theorem set (hAt : slots[j]? = some e) (hMore : e.hash ≠ mapEmpty → e.dib.toNat ≤ c.dib.toNat)
    (hPlaced : Placed hash cap slots j c) :
    RobinHood hash cap (slots.set j c) where
  length := by rw [length_set, h.length]
  placed := by
    intro i d hi hFull
    by_cases hSame : j = i
    · subst hSame
      rw [getElem?_set_self (List.getElem?_eq_some_iff.mp hAt).1] at hi
      cases hi
      exact hPlaced.set hAt hMore hPlaced.full
    · rw [getElem?_set_ne hSame] at hi
      exact (h.placed i d hi hFull).set hAt hMore hPlaced.full

theorem entry_eq (hAt : slots[i]? = some e) (hFull : e.hash ≠ mapEmpty) :
    ∃ key, e.key = some key ∧ e.hash = hash key ∧ e.entry = some (key, e.val) := by
  obtain ⟨key, hKey, hHash⟩ := (h.placed i e hAt hFull).keyed
  exact ⟨key, hKey, hHash, MapEntry.entry_of_full hFull hKey⟩

theorem erase (hAlone : ∀ e ∈ slots, e.hash ≠ mapEmpty → ¬PassesOver cap e j)
    (hEmpty : c.hash = mapEmpty) :
    RobinHood hash cap (slots.set j c) where
  length := by rw [length_set, h.length]
  placed := by
    intro i e hi hFull
    have hNe : j ≠ i := by
      rintro rfl
      obtain ⟨hj, rfl⟩ := List.getElem?_eq_some_iff.mp hi
      rw [getElem_set_self] at hFull
      exact hFull hEmpty
    rw [getElem?_set_ne hNe] at hi
    have hPlaced := h.placed i e hi hFull
    refine ⟨hPlaced.keyed, hFull, hPlaced.place, fun t ht => ?_⟩
    obtain ⟨other, hOther, hRest⟩ := hPlaced.run t ht
    refine ⟨other, ?_, hRest⟩
    rw [getElem?_set_ne, hOther]
    exact fun hHere => hAlone e (mem_of_getElem? hi) hFull ⟨t, ht, hHere.symm⟩

theorem hasRoom (hFew : (mapEntries slots).length < cap) :
    HasRoom slots := by
  by_contra hNone
  have hAll : ∀ x ∈ slots.map MapEntry.entry, x.isSome = true := by
    intro x hx
    obtain ⟨e, hMem, rfl⟩ := mem_map.mp hx
    obtain ⟨i, hAt⟩ := mem_iff_getElem?.mp hMem
    have hFull : e.hash ≠ mapEmpty := fun hEmpty => hNone ⟨i, e, hAt, hEmpty⟩
    obtain ⟨key, _, _, hEntry⟩ := h.entry_eq hAt hFull
    rw [hEntry]
    rfl
  have hLength := reduceOption_length_eq_iff.mpr hAll
  rw [length_map, h.length] at hLength
  exact absurd hLength hFew.ne

/-- A run that ends at an occupied slot is no longer than the entries are many. -/
theorem run_lt (hRoom : HasRoom slots)
    (hPlaced : Placed hash cap slots i c) (hAt : slots[i]? = some e) (hFull : e.hash ≠ mapEmpty) :
    c.dib.toNat < (mapEntries slots).length := by
  have hLt := hPlaced.dib_lt hAt hFull h.length hRoom
  have hNodup : ((List.range (c.dib.toNat + 1)).map fun t =>
      (c.hash.toNat % cap + t) % cap).Nodup := by
    refine List.Nodup.map_on ?_ nodup_range
    intro s hs t ht hSame
    rw [mem_range] at hs ht
    exact offset_inj (by omega) (by omega) hSame
  have hLength : _ ≤ (slots.map MapEntry.entry).reduceOption.length :=
    length_le_reduceOption hNodup (by
    intro p hp
    obtain ⟨t, ht, rfl⟩ := mem_map.mp hp
    obtain ⟨other, hOther, hOtherFull, _⟩ :=
      hPlaced.on_run hAt hFull (Nat.le_of_lt_succ (mem_range.mp ht))
    obtain ⟨key, _, _, hEntry⟩ := h.entry_eq hOther hOtherFull
    exact ⟨(key, other.val), by rw [getElem?_map, hOther, Option.map_some, hEntry]⟩)
  rw [length_map, length_range] at hLength
  exact hLength

end

end RobinHood

theorem robinHood_replicate (hash : κ → Word) (cap : Nat) :
    RobinHood hash cap (List.replicate cap ({} : MapEntry κ)) where
  length := length_replicate
  placed := by
    intro i e hAt hFull
    exact absurd (by rw [eq_of_mem_replicate (mem_of_getElem? hAt)]) hFull

theorem mapEntries_replicate (cap : Nat) :
    mapEntries (List.replicate cap ({} : MapEntry κ)) = [] := by
  rw [mapEntries, map_replicate]
  exact reduceOption_replicate_none

end

section

variable {κ : Type*} [DecidableEq κ] {hash : κ → Word} {cap i r fuel : Nat}
  {slots : List (MapEntry κ)} {c e : MapEntry κ} {key : κ} {val : Word}

section

variable (h : RobinHood hash cap slots)
include h

attribute [local simp] List.reduceOption

/-- An entry whose key is new ends in a slot, and so does every entry it drives out. -/
theorem mapInsertLoop_new (hPlaced : Placed hash cap slots i c) (hKey : c.key = some key)
    (hNodup : (((key, c.val) :: mapEntries slots).map Prod.fst).Nodup) (hi : i < cap)
    (hRoom : ∃ e, slots[(i + r) % cap]? = some e ∧ e.hash = mapEmpty) (hFuel : r < fuel)
    (hFew : (mapEntries slots).length < 2 ^ 32) :
    ∃ slots', mapInsertLoop cap fuel i c slots = some (true, slots') ∧
      RobinHood hash cap slots' ∧
      (mapEntries slots').Perm ((key, c.val) :: mapEntries slots) := by
  induction fuel generalizing i r c slots key with
  | zero => cases hFuel
  | succ fuel ih =>
    obtain ⟨e, hAt⟩ : ∃ e, slots[i]? = some e :=
      ⟨_, getElem?_eq_getElem (h.length ▸ hi)⟩
    obtain ⟨front, back, hSplit, hSet⟩ := mapEntries_set hAt
    have hCarry := MapEntry.entry_of_full hPlaced.full hKey
    rw [mapInsertLoop, hAt]
    by_cases hEmpty : e.hash = mapEmpty
    · refine ⟨slots.set i c, by simp [hEmpty], h.set hAt (absurd hEmpty) hPlaced, ?_⟩
      rw [hSet, hSplit, hCarry, MapEntry.entry_of_empty hEmpty]
      exact perm_middle
    · obtain ⟨k, hOther, hHash, hEntry⟩ := h.entry_eq hAt hEmpty
      have hRun := h.run_lt ⟨_, hRoom⟩ hPlaced hAt hEmpty
      have hDiffer : e.key ≠ c.key := by
        rw [hKey, hOther]
        rintro hSame
        cases hSame
        rw [hSplit, hEntry] at hNodup
        simp at hNodup
      obtain ⟨s, rfl⟩ : ∃ s, r = s + 1 := by
        cases r with
        | zero =>
          obtain ⟨empty, hSlot, hFree⟩ := hRoom
          rw [add_zero, Nat.mod_eq_of_lt hi, hAt] at hSlot
          cases hSlot
          exact absurd hFree hEmpty
        | succ s => exact ⟨s, rfl⟩
      have hAhead : (i + (s + 1)) % cap = ((i + 1) % cap + s) % cap := by
        rw [Nat.mod_add_mod, add_assoc, add_comm 1 s]
      have hNext : (i + 1) % cap < cap := Nat.mod_lt _ (Nat.zero_lt_of_lt hi)
      rw [hAhead] at hRoom
      -- the entry nearer to its home is the one carried on
      by_cases hRicher : e.dib < c.dib
      · have hOut : (mapEntries (slots.set i c)).length = (mapEntries slots).length := by
          rw [hSet, hSplit, hCarry, hEntry]
          simp
        have hTrade : ((k, e.val) :: mapEntries (slots.set i c)).Perm
            ((key, c.val) :: mapEntries slots) := by
          rw [hSet, hSplit, hCarry, hEntry]
          have hFront : ∀ x, (front ++ x :: back).Perm (x :: (front ++ back)) := fun _ =>
            perm_middle
          exact ((hFront (key, c.val)).cons _).trans
            ((List.Perm.swap _ _ _).trans ((hFront (k, e.val)).cons _).symm)
        have hDib : e.dib.toNat ≤ c.dib.toNat := hRicher.le
        have hTable := h.set hAt (fun _ => hDib) hPlaced
        have hBack := (h.placed i e hAt hEmpty).set hAt (fun _ => hDib) hPlaced.full
        have hHere : (slots.set i c)[i]? = some c := getElem?_set_self (h.length ▸ hi)
        have hStep := hBack.next hHere hPlaced.full hDib (by omega)
        have hStill : ∃ empty, (slots.set i c)[((i + 1) % cap + s) % cap]? = some empty ∧
            empty.hash = mapEmpty := by
          obtain ⟨empty, hSlot, hFree⟩ := hRoom
          refine ⟨empty, ?_, hFree⟩
          rw [getElem?_set_ne, hSlot]
          intro hSame
          rw [← hSame, hAt] at hSlot
          cases hSlot
          exact hEmpty hFree
        obtain ⟨slots', hLoop, hRobin, hPerm⟩ := ih hTable hStep hOther
          ((hTrade.map Prod.fst).nodup_iff.mpr hNodup) hNext hStill (by omega) (hOut ▸ hFew)
        refine ⟨slots', ?_, hRobin, hPerm.trans hTrade⟩
        simp only [hEmpty, hDiffer, hRicher, and_false, if_false, if_true]
        exact hLoop
      · have hStep := hPlaced.next hAt hEmpty (Nat.le_of_not_lt hRicher) (by omega)
        obtain ⟨slots', hLoop, hTable, hPerm⟩ :=
          ih h hStep hKey hNodup hNext hRoom (by omega) hFew
        refine ⟨slots', ?_, hTable, hPerm⟩
        simp only [hEmpty, hDiffer, hRicher, and_false, if_false]
        exact hLoop

theorem mapInsertLoop_old (hAt : slots[i]? = some e) (hFull : e.hash ≠ mapEmpty)
    (hKey : e.key = some key) {t : Nat} (ht : t ≤ e.dib.toNat) (hFuel : e.dib.toNat - t < fuel)
    (hCarry : c.key = some key) (hHash : c.hash = hash key) (hDib : c.dib.toNat = t) :
    ∃ (j : Nat) (d : MapEntry κ), slots[j]? = some d ∧ d.hash ≠ mapEmpty ∧
      d.key = some key ∧ mapInsertLoop cap fuel ((e.hash.toNat % cap + t) % cap) c slots =
        some (false, slots.set j { d with val := c.val }) := by
  have hPlaced := h.placed i e hAt hFull
  induction fuel generalizing t c with
  | zero => cases hFuel
  | succ fuel ih =>
    obtain ⟨other, hOther, hOtherFull, hLe, hLast⟩ := hPlaced.on_run hAt hFull ht
    obtain ⟨k, hOtherKey, hOtherHash, _⟩ := h.entry_eq hOther hOtherFull
    rw [mapInsertLoop, hOther]
    by_cases hSame : other.hash = c.hash ∧ other.key = c.key
    · refine ⟨_, other, hOther, hOtherFull, hSame.2.trans hCarry, ?_⟩
      exact (if_neg hOtherFull).trans (if_pos hSame)
    · have hLt : t < e.dib.toNat := by
        refine lt_of_le_of_ne ht fun hEnd => hSame ?_
        obtain rfl := hLast hEnd
        obtain rfl := Option.some.inj (hOtherKey.symm.trans hKey)
        exact ⟨hOtherHash.trans hHash.symm, hKey.trans hCarry.symm⟩
      have hPoorer : ¬other.dib < c.dib := by
        have hMore := hLe hLt
        rw [← hDib] at hMore
        exact hMore.not_gt
      have hNext : (c.dib + 1).toNat = t + 1 := by
        have hBound := e.dib.isLt
        rw [BitVec.toNat_add, hDib]
        exact Nat.mod_eq_of_lt (lt_of_le_of_lt hLt hBound)
      obtain ⟨j, d, hd, hdFull, hdKey, hLoop⟩ :=
        ih (t := t + 1) (c := { c with dib := c.dib + 1 }) hLt (by omega) hCarry hHash hNext
      refine ⟨j, d, hd, hdFull, hdKey, ?_⟩
      simp only [hOtherFull, hSame, hPoorer, if_false]
      rw [Nat.mod_add_mod, add_assoc]
      exact hLoop

theorem mapInsertRaw_new (hHash : hash key ≠ mapEmpty)
    (hNew : key ∉ (mapEntries slots).map Prod.fst)
    (hNodup : ((mapEntries slots).map Prod.fst).Nodup) (hLess : (mapEntries slots).length < cap)
    (hFew : (mapEntries slots).length < 2 ^ 32) (val : Word) :
    ∃ slots', mapInsertRaw slots cap (some key) val (hash key) = some (true, slots') ∧
      RobinHood hash cap slots' ∧ (mapEntries slots').Perm ((key, val) :: mapEntries slots) := by
  have hHome : (hash key).toNat % cap < cap := Nat.mod_lt _ (Nat.zero_lt_of_lt hLess)
  have hPlaced : Placed hash cap slots ((hash key).toNat % cap) ⟨some key, val, hash key, 0⟩ :=
    ⟨⟨key, rfl, rfl⟩, hHash, Nat.mod_mod _ _, nofun⟩
  obtain ⟨j, empty, hj, hEmpty⟩ := h.hasRoom hLess
  obtain ⟨r, hr, hSlot⟩ := exists_offset hHome
    (h.length ▸ (List.getElem?_eq_some_iff.mp hj).1)
  exact mapInsertLoop_new h hPlaced rfl (nodup_cons.mpr ⟨hNew, hNodup⟩) hHome
    ⟨empty, hSlot ▸ hj, hEmpty⟩ hr hFew

theorem mapInsertRaw_old (hAt : slots[i]? = some e)
    (hFull : e.hash ≠ mapEmpty) (hKey : e.key = some key) (hRoom : HasRoom slots) (val : Word) :
    ∃ (j : Nat) (d : MapEntry κ), slots[j]? = some d ∧
      d.hash ≠ mapEmpty ∧ d.key = some key ∧
      mapInsertRaw slots cap (some key) val (hash key) =
        some (false, slots.set j { d with val := val }) := by
  have hLt := (h.placed i e hAt hFull).dib_lt hAt hFull h.length hRoom
  obtain ⟨k, hOwn, hHash, _⟩ := h.entry_eq hAt hFull
  obtain rfl := Option.some.inj (hOwn.symm.trans hKey)
  obtain ⟨j, d, hd, hdFull, hdKey, hLoop⟩ :=
    mapInsertLoop_old (c := ⟨some k, val, hash k, 0⟩) h hAt
    hFull hKey (Nat.zero_le _) (show e.dib.toNat - 0 < cap from hLt) rfl rfl rfl
  refine ⟨j, d, hd, hdFull, hdKey, ?_⟩
  rw [add_zero, Nat.mod_mod, hHash] at hLoop
  exact hLoop

end

theorem mapReinsert_holds {ns : List (MapEntry κ)}
    (hKeyed : ∀ e ∈ slots, e.hash ≠ mapEmpty →
      ∃ key, e.key = some key ∧ e.hash = hash key)
    (h : RobinHood hash cap ns) (hNodup : ((mapEntries ns ++ mapEntries slots).map Prod.fst).Nodup)
    (hLess : (mapEntries ns ++ mapEntries slots).length < cap)
    (hFew : (mapEntries ns ++ mapEntries slots).length ≤ 2 ^ 32) :
    ∃ ns', mapReinsert cap slots ns = some ns' ∧ RobinHood hash cap ns' ∧
      (mapEntries ns').Perm (mapEntries ns ++ mapEntries slots) := by
  induction slots generalizing ns with
  | nil => exact ⟨ns, rfl, h, by simp [mapEntries]⟩
  | cons e slots ih =>
    have hRest := fun d hd => hKeyed d (mem_cons_of_mem e hd)
    rw [mapReinsert, foldlM_cons]
    by_cases hEmpty : e.hash = mapEmpty
    · have hSame : mapEntries (e :: slots) = mapEntries slots := by
        simp [mapEntries, MapEntry.entry_of_empty hEmpty]
      rw [hSame] at hNodup hLess hFew ⊢
      rw [if_pos hEmpty]
      exact ih hRest h hNodup hLess hFew
    · obtain ⟨key, hKey, hHash⟩ := hKeyed e mem_cons_self hEmpty
      have hMore : mapEntries (e :: slots) = (key, e.val) :: mapEntries slots := by
        simp [mapEntries, MapEntry.entry_of_full hEmpty hKey]
      rw [hMore] at hNodup hLess hFew ⊢
      have hFront : (mapEntries ns ++ (key, e.val) :: mapEntries slots).Perm
          ((key, e.val) :: mapEntries ns ++ mapEntries slots) := perm_middle
      have hDistinct := (hFront.map Prod.fst).nodup_iff.mp hNodup
      rw [hFront.length_eq] at hLess hFew
      rw [cons_append, map_cons, nodup_cons, map_append, nodup_append] at hDistinct
      obtain ⟨slots', hRaw, hTable, hPerm⟩ := mapInsertRaw_new h (hHash ▸ hEmpty)
        (fun hMem => hDistinct.1 (mem_append_left _ hMem)) hDistinct.2.1
        (by simp at hLess; omega) (by simp at hFew; omega) e.val
      have hAll := (hPerm.append_right (mapEntries slots)).trans hFront.symm
      obtain ⟨ns', hFold, hTable', hPerm'⟩ := ih hRest hTable
        ((hAll.map Prod.fst).nodup_iff.mpr hNodup) (by
          rw [hAll.length_eq, hFront.length_eq]; exact hLess)
        (by rw [hAll.length_eq, hFront.length_eq]; exact hFew)
      refine ⟨ns', ?_, hTable', hPerm'.trans hAll⟩
      rw [if_neg hEmpty, hKey, hHash, hRaw]
      exact hFold

end

section

variable {κ : Type*} [DecidableEq κ] {hash : κ → Word} {m : NuwanMap κ} {i r fuel : Nat}
  {e : MapEntry κ} {key : κ}

theorem mapFindLoop_old (h : RobinHood hash m.cap m.slots) (hAt : m.slots[i]? = some e)
    (hFull : e.hash ≠ mapEmpty) (hKey : e.key = some key) {t : Nat} (ht : t ≤ e.dib.toNat)
    (hFuel : e.dib.toNat - t < fuel) : ∃ (j : Nat) (d : MapEntry κ), m.slots[j]? = some d ∧
      d.hash ≠ mapEmpty ∧ d.key = some key ∧
      mapFindLoop m key (hash key) fuel ((e.hash.toNat % m.cap + t) % m.cap) = some (some j) := by
  have hPlaced := h.placed i e hAt hFull
  induction fuel generalizing t with
  | zero => cases hFuel
  | succ fuel ih =>
    obtain ⟨other, hOther, hOtherFull, _, hLast⟩ := hPlaced.on_run hAt hFull ht
    obtain ⟨k, hOtherKey, hOtherHash, _⟩ := h.entry_eq hOther hOtherFull
    rw [mapFindLoop, hOther]
    by_cases hSame : other.hash = hash key ∧ other.key = some key
    · exact ⟨_, other, hOther, hOtherFull, hSame.2, (if_neg hOtherFull).trans (if_pos hSame)⟩
    · have hLt : t < e.dib.toNat := by
        refine lt_of_le_of_ne ht fun hEnd => hSame ?_
        obtain rfl := hLast hEnd
        obtain rfl := Option.some.inj (hOtherKey.symm.trans hKey)
        exact ⟨hOtherHash, hKey⟩
      obtain ⟨j, d, hd, hdFull, hdKey, hLoop⟩ := ih (t := t + 1) hLt (by omega)
      refine ⟨j, d, hd, hdFull, hdKey, ?_⟩
      simp only [hOtherFull, hSame, if_false]
      rw [Nat.mod_add_mod, add_assoc]
      exact hLoop

theorem mapFindLoop_new (hLength : m.slots.length = m.cap)
    (hNew : ∀ s, s < r → ∀ d, m.slots[(i + s) % m.cap]? = some d →
      d.hash ≠ mapEmpty → d.key ≠ some key) (hi : i < m.cap)
    (hRoom : ∃ e, m.slots[(i + r) % m.cap]? = some e ∧ e.hash = mapEmpty)
    (hFuel : r < fuel) (h : Word) : mapFindLoop m key h fuel i = some none := by
  induction fuel generalizing i r with
  | zero => cases hFuel
  | succ fuel ih =>
    obtain ⟨e, hAt⟩ : ∃ e, m.slots[i]? = some e :=
      ⟨_, getElem?_eq_getElem (hLength ▸ hi)⟩
    rw [mapFindLoop, hAt]
    by_cases hEmpty : e.hash = mapEmpty
    · exact if_pos hEmpty
    · cases r with
      | zero =>
        obtain ⟨empty, hSlot, hFree⟩ := hRoom
        rw [add_zero, Nat.mod_eq_of_lt hi, hAt] at hSlot
        cases hSlot
        exact absurd hFree hEmpty
      | succ r =>
        have hAhead : ∀ s, (i + (s + 1)) % m.cap = ((i + 1) % m.cap + s) % m.cap := by
          intro s
          rw [Nat.mod_add_mod, add_assoc, add_comm 1 s]
        have hOther := hNew 0 (Nat.succ_pos r) e
          (by rw [Nat.add_zero, Nat.mod_eq_of_lt hi, hAt]) hEmpty
        simp only [hEmpty, hOther, and_false, if_false]
        refine ih (fun s hs d hd => ?_) (Nat.mod_lt _ (Nat.zero_lt_of_lt hi))
          (hAhead r ▸ hRoom) (by omega)
        exact hNew (s + 1) (Nat.succ_lt_succ hs) d (hAhead s ▸ hd)

end

/-- The map holds the partial function, in a table that is never full. -/
structure MapHolds {κ : Type*} (hash : κ → Word) (m : NuwanMap κ)
    (f : κ → Option Word) : Prop where
  table : RobinHood hash m.cap m.slots
  holds : Holds (mapEntries m.slots) f
  size : m.size = (mapEntries m.slots).length
  load : m.size * mapLoadDen ≤ m.cap * mapLoadNum + mapLoadNum
  cap_ge : mapInitCap ≤ m.cap
  cap_le : m.cap ≤ 2 ^ 58
  few : m.size ≤ 2 ^ 32

/-- The doubling ends before it wraps when the need is less than the largest table's load. -/
theorem mapTargetLoop_eq {need k target fuel : Nat} (hNeed : need < 2 ^ 58 * mapLoadNum)
    (hTarget : target * 2 ^ k = 2 ^ 58) (hFuel : k < fuel) :
    ∃ result, mapTargetLoop need fuel target = some result ∧ result ≤ 2 ^ 58 := by
  induction k generalizing target fuel with
  | zero =>
    obtain ⟨fuel, rfl⟩ := Nat.exists_eq_add_of_lt hFuel
    rw [pow_zero, mul_one] at hTarget
    subst hTarget
    refine ⟨2 ^ 58, ?_, le_rfl⟩
    rw [zero_add, mapTargetLoop, Nat.mod_eq_of_lt (by decide), if_neg hNeed.not_ge]
  | succ k ih =>
    obtain ⟨fuel, rfl⟩ : ∃ n, fuel = n + 1 := ⟨fuel - 1, by omega⟩
    have hLe : target ≤ 2 ^ 58 := hTarget ▸ Nat.le_mul_of_pos_right _ (Nat.two_pow_pos _)
    rw [mapTargetLoop]
    split
    · have hDouble : target * 2 % 2 ^ 64 = target * 2 := Nat.mod_eq_of_lt (by omega)
      rw [hDouble]
      refine ih ?_ (Nat.lt_of_succ_lt_succ hFuel)
      rw [mul_assoc, ← hTarget, pow_succ, mul_comm 2]
    · exact ⟨target, rfl, hLe⟩

section

variable {κ : Type*} {hash : κ → Word} {m : NuwanMap κ} {f : κ → Option Word} {key : κ}
  {val : Word} {nc : Nat}

namespace MapHolds

theorem size_eq (h : MapHolds hash m f) : m.size = keyCount f := by
  rw [h.size, h.holds.keyCount_eq]

theorem size_lt (h : MapHolds hash m f) : m.size < m.cap := by
  have hLoad := h.load
  have hCap := h.cap_ge
  simp only [mapLoadDen, mapLoadNum, mapInitCap] at hLoad hCap
  omega

theorem hasRoom (h : MapHolds hash m f) : HasRoom m.slots :=
  h.table.hasRoom (h.size ▸ h.size_lt)

theorem new (hash : κ → Word) : MapHolds hash nuwanMapNew fun _ => none where
  table := robinHood_replicate hash mapInitCap
  holds := by
    rw [nuwanMapNew, mapEntries_replicate]
    exact Holds.empty
  size := by
    rw [nuwanMapNew, mapEntries_replicate]
    rfl
  load := Nat.le_of_ble_eq_true rfl
  cap_ge := le_rfl
  cap_le := Nat.le_of_ble_eq_true rfl
  few := Nat.zero_le _

theorem clear (h : MapHolds hash m f) : MapHolds hash (nuwanMapClear m) fun _ => none := by
  have hEntries : mapEntries (nuwanMapClear m).slots = [] := by
    rw [mapEntries, nuwanMapClear, map_map]
    simp [comp_def, MapEntry.entry]
  refine ⟨⟨?_, ?_⟩, ?_, ?_, ?_, h.cap_ge, h.cap_le, Nat.zero_le _⟩
  · exact (length_map _).trans h.table.length
  · intro i e hAt hFull
    obtain ⟨d, _, rfl⟩ := mem_map.mp (mem_of_getElem? hAt)
    exact absurd rfl hFull
  · rw [hEntries]
    exact Holds.empty
  · rw [hEntries]
    rfl
  · exact (Nat.le_of_eq (Nat.zero_mul _)).trans (Nat.zero_le _)

theorem slot_cases (h : MapHolds hash m f) (key : κ) :
    (∃ (i : Nat) (e : MapEntry κ), m.slots[i]? = some e ∧
      e.hash ≠ mapEmpty ∧ e.key = some key) ∨
      (f key = none ∧ ∀ d ∈ m.slots, d.hash ≠ mapEmpty → d.key ≠ some key) := by
  cases hValue : f key with
  | some val =>
    obtain ⟨i, e, hAt, hFull, hKey, _⟩ :=
      mem_mapEntries.mp ((h.holds.mem_iff key val).mpr hValue)
    exact .inl ⟨i, e, hAt, hFull, hKey⟩
  | none =>
    refine .inr ⟨rfl, fun d hd hFull hKey => ?_⟩
    obtain ⟨i, hAt⟩ := mem_iff_getElem?.mp hd
    exact h.holds.eq_none_iff.mp hValue d.val (mem_mapEntries.mpr ⟨i, d, hAt, hFull, hKey, rfl⟩)

theorem value_eq (h : MapHolds hash m f) {i : Nat} {e : MapEntry κ} (hAt : m.slots[i]? = some e)
    (hFull : e.hash ≠ mapEmpty) (hKey : e.key = some key) : f key = some e.val :=
  (h.holds.mem_iff key e.val).mp (mem_mapEntries.mpr ⟨i, e, hAt, hFull, hKey, rfl⟩)

variable [DecidableEq κ]

section

variable (h : MapHolds hash m f)
include h

theorem rehash (hMore : m.cap ≤ nc) (hMax : nc ≤ 2 ^ 58) :
    ∃ slots, mapRehash m nc = some { m with slots := slots, cap := nc } ∧
      MapHolds hash { m with slots := slots, cap := nc } f := by
  have hEmpty := mapEntries_replicate (κ := κ) nc
  have hNodup := h.holds.nodup
  have hLess := h.size_lt.trans_le hMore
  have hFew := h.few
  rw [h.size] at hLess hFew
  have hKeyed : ∀ e ∈ m.slots, e.hash ≠ mapEmpty →
      ∃ key, e.key = some key ∧ e.hash = hash key := by
    intro e hMem hFull
    obtain ⟨i, hAt⟩ := mem_iff_getElem?.mp hMem
    exact (h.table.placed i e hAt hFull).keyed
  obtain ⟨slots, hMoved, hTable, hPerm⟩ :=
    mapReinsert_holds hKeyed (robinHood_replicate hash nc)
    (by rwa [hEmpty, nil_append]) (by rwa [hEmpty, nil_append])
    (by rwa [hEmpty, nil_append])
  rw [hEmpty, nil_append] at hPerm
  refine ⟨slots, ?_, hTable, h.holds.perm hPerm.symm, h.size.trans hPerm.length_eq.symm, ?_,
    h.cap_ge.trans hMore, hMax, h.few⟩
  · have hBytes : nc * mapEntrySize < 2 ^ 64 := by
      simp only [mapEntrySize]
      omega
    rw [mapRehash, if_pos hBytes, hMoved]
    rfl
  · exact h.load.trans (Nat.add_le_add_right (Nat.mul_le_mul_right mapLoadNum hMore) _)

theorem grow (hFew : m.size < 2 ^ 32) : ∃ d,
    mapGrowIfLoaded m = some d ∧ MapHolds hash d f ∧ d.size = m.size ∧
      d.size * mapLoadDen < d.cap * mapLoadNum := by
  rw [mapGrowIfLoaded]
  split
  · next hLoaded =>
      have hLoad := h.load
      have hCap := h.cap_ge
      simp only [mapLoadDen, mapLoadNum, mapInitCap] at hLoad hCap hLoaded
      obtain ⟨slots, hMoved, hHolds⟩ :=
        h.rehash (Nat.le_mul_of_pos_right m.cap two_pos) (by omega)
      refine ⟨_, hMoved, hHolds, rfl, ?_⟩
      show m.size * mapLoadDen < m.cap * 2 * mapLoadNum
      simp only [mapLoadDen, mapLoadNum]
      omega
  · next hLight => exact ⟨m, rfl, h, rfl, Nat.lt_of_not_le hLight⟩

theorem put (hHash : hash key ≠ mapEmpty) (hFew : m.size < 2 ^ 32) :
    ∃ d, nuwanMapPut hash m key val = some d ∧
      MapHolds hash d (update f key (some val)) := by
  obtain ⟨g, hGrow, hGrown, hSize, hLight⟩ := h.grow hFew
  rw [nuwanMapPut, hGrow]
  show ∃ d, (mapInsertRaw g.slots g.cap (some key) val (hash key)).bind _ = some d ∧ _
  rcases hGrown.slot_cases key with ⟨i, e, hAt, hFull, hKey⟩ | ⟨hNone, hNew⟩
  · obtain ⟨j, d, hd, hdFull, hdKey, hRaw⟩ :=
      mapInsertRaw_old hGrown.table hAt hFull hKey hGrown.hasRoom val
    obtain ⟨front, back, hSplit, hSet⟩ := mapEntries_set hd
    have hPlaced := hGrown.table.placed j d hd hdFull
    have hOld := MapEntry.entry_of_full hdFull hdKey
    have hWritten : mapEntries (g.slots.set j { d with val := val }) =
        front ++ (key, val) :: back := by
      rw [hSet, MapEntry.entry_of_full (e := { d with val := val }) hdFull hdKey]
      rfl
    rw [hRaw]
    refine ⟨_, rfl, hGrown.table.set hd (fun _ => le_rfl)
      ⟨hPlaced.keyed, hdFull, hPlaced.place, hPlaced.run⟩, ?_, ?_, hGrown.load, hGrown.cap_ge,
      hGrown.cap_le, hGrown.few⟩
    · have hHolds := hGrown.holds
      rw [hSplit, hOld] at hHolds
      rw [hWritten]
      exact hHolds.replace
    · show g.size = _
      rw [hWritten, hGrown.size, hSplit, hOld]
      simp
  · have hAbsent : key ∉ (mapEntries g.slots).map Prod.fst := fun hMem =>
      hGrown.holds.mem_keys_iff.mp hMem hNone
    obtain ⟨slots', hRaw, hTable, hPerm⟩ := mapInsertRaw_new hGrown.table hHash hAbsent
      hGrown.holds.nodup (hGrown.size ▸ hGrown.size_lt) (by
        rw [← hGrown.size, hSize]; exact hFew) val
    rw [hRaw]
    refine ⟨_, rfl, hTable, (hGrown.holds.insert hNone).perm hPerm.symm, ?_, ?_, hGrown.cap_ge,
      hGrown.cap_le, ?_⟩
    · show g.size + 1 = _
      rw [hPerm.length_eq, hGrown.size, length_cons]
    · show (g.size + 1) * mapLoadDen ≤ g.cap * mapLoadNum + mapLoadNum
      simp only [mapLoadDen, mapLoadNum] at hLight ⊢
      omega
    · show g.size + 1 ≤ 2 ^ 32
      omega

theorem find_cases (key : κ) :
    (∃ (i : Nat) (e : MapEntry κ),
      mapFind hash m key = some (some i) ∧ m.slots[i]? = some e ∧
      e.hash ≠ mapEmpty ∧ e.key = some key ∧ f key = some e.val) ∨
    (mapFind hash m key = some none ∧ f key = none) := by
  rcases h.slot_cases key with ⟨i, e, hAt, hFull, hKey⟩ | ⟨hNone, hNew⟩
  · have hLt := (h.table.placed i e hAt hFull).dib_lt hAt hFull h.table.length h.hasRoom
    obtain ⟨k, hOwn, hHash, _⟩ := h.table.entry_eq hAt hFull
    obtain rfl := Option.some.inj (hOwn.symm.trans hKey)
    obtain ⟨j, d, hd, hdFull, hdKey, hLoop⟩ :=
      mapFindLoop_old h.table hAt hFull hKey (Nat.zero_le _) (show e.dib.toNat - 0 < m.cap from hLt)
    rw [Nat.add_zero, Nat.mod_mod, hHash] at hLoop
    exact .inl ⟨j, d, hLoop, hd, hdFull, hdKey, h.value_eq hd hdFull hdKey⟩
  · have hHome : (hash key).toNat % m.cap < m.cap := Nat.mod_lt _ (Nat.zero_lt_of_lt h.size_lt)
    obtain ⟨j, empty, hj, hEmpty⟩ := h.hasRoom
    obtain ⟨r, hr, hSlot⟩ :=
      exists_offset hHome (h.table.length ▸ (List.getElem?_eq_some_iff.mp hj).1)
    exact .inr ⟨mapFindLoop_new h.table.length (fun s _ d hd => hNew d (mem_of_getElem? hd))
      hHome ⟨empty, hSlot ▸ hj, hEmpty⟩ hr _, hNone⟩

theorem get (key : κ) : nuwanMapGet hash m key = some ((f key).getD 0) := by
  rw [nuwanMapGet]
  rcases h.find_cases key with ⟨i, e, hFind, hAt, _, _, hValue⟩ | ⟨hFind, hNone⟩
  · rw [hFind, hValue]
    show (m.slots[i]?).map MapEntry.val = _
    rw [hAt]
    rfl
  · rw [hFind, hNone]
    rfl

theorem has (key : κ) : nuwanMapHas hash m key = some (f key).isSome := by
  rw [nuwanMapHas]
  rcases h.find_cases key with ⟨i, e, hFind, _, _, _, hValue⟩ | ⟨hFind, hNone⟩
  · rw [hFind, hValue]
    rfl
  · rw [hFind, hNone]
    rfl

theorem reserve {expectedSize : Word} (hFits : NuwanMapFits hash (.reserve expectedSize) m) :
    ∃ d, nuwanMapReserve m expectedSize = some d ∧ MapHolds hash d f := by
  obtain ⟨target, hLoop, hMax⟩ := mapTargetLoop_eq hFits
    (show mapInitCap * 2 ^ 54 = 2 ^ 58 from rfl) (show 54 < 64 from Nat.le_of_ble_eq_true rfl)
  rw [nuwanMapReserve, hLoop]
  show ∃ d, (if m.cap < target then mapRehash m target else some m) = some d ∧ _
  split
  · next hMore =>
      obtain ⟨slots, hMoved, hHolds⟩ := h.rehash hMore.le hMax
      exact ⟨_, hMoved, hHolds⟩
  · exact ⟨m, rfl, h⟩

theorem remove (hFits : NuwanMapFits hash (.remove key) m) :
    ∃ d, nuwanMapRemove hash m key = some ((f key).isSome, d) ∧
      MapHolds hash d (update f key none) := by
  rw [nuwanMapRemove]
  rcases h.find_cases key with ⟨i, e, hFind, hAt, hFull, hKey, hValue⟩ | ⟨hFind, hNone⟩
  · rw [hFind, hValue]
    have hAlone := hFits (e, i) (mem_zipIdx_iff_getElem?.mpr hAt) hKey
    obtain ⟨front, back, hSplit, hSet⟩ := mapEntries_set hAt
    rw [MapEntry.entry_of_full hFull hKey] at hSplit
    have hErased : mapEntries (m.slots.set i { e with hash := mapEmpty, key := none }) =
        front ++ back := by
      rw [hSet, MapEntry.entry_of_empty rfl]
      rfl
    have hSize := h.size
    have hLoad := h.load
    have hFew := h.few
    rw [hSplit, length_append, length_append] at hSize
    have hOne : [some (key, e.val)].reduceOption.length = 1 := rfl
    refine ⟨_, rfl, ?_⟩
    rw [modify_eq_set hAt]
    refine ⟨h.table.erase hAlone rfl, ?_, ?_, ?_, h.cap_ge, h.cap_le, ?_⟩
    · have hHolds := h.holds
      rw [hSplit] at hHolds
      rw [hErased]
      exact hHolds.erase
    · show m.size - 1 = _
      rw [hErased, length_append]
      omega
    · show (m.size - 1) * mapLoadDen ≤ m.cap * mapLoadNum + mapLoadNum
      simp only [mapLoadDen, mapLoadNum] at hLoad ⊢
      omega
    · show m.size - 1 ≤ 2 ^ 32
      omega
  · rw [hFind, hNone]
    refine ⟨m, rfl, ?_⟩
    rwa [← hNone, update_eq_self]

end

end MapHolds

/-- Calls that keep the probe runs whole answer as the partial function does. -/
theorem nuwanMapStep_refines [DecidableEq κ] : Refines (nuwanMapStep hash) nuwanMapAnswer
    (fun op m _ => NuwanMapFits hash op m) (MapHolds hash (κ := κ)) := by
  intro op m f h hFits
  cases op with
  | put key val =>
    obtain ⟨d, hPut, hHolds⟩ := h.put hFits.1 hFits.2
    exact ⟨d, by rw [nuwanMapStep, hPut]; rfl, hHolds⟩
  | get key => exact ⟨m, by rw [nuwanMapStep, h.get]; rfl, h⟩
  | has key => exact ⟨m, by rw [nuwanMapStep, h.has]; rfl, h⟩
  | remove key =>
    obtain ⟨d, hRemove, hHolds⟩ := h.remove hFits
    exact ⟨d, by rw [nuwanMapStep, hRemove]; rfl, hHolds⟩
  | reserve expectedSize =>
    obtain ⟨d, hReserve, hHolds⟩ := h.reserve hFits
    exact ⟨d, by rw [nuwanMapStep, hReserve]; rfl, hHolds⟩
  | clear => exact ⟨_, rfl, h.clear⟩
  | size => exact ⟨m, by rw [nuwanMapStep, h.size_eq]; rfl, h⟩

end

instance {κ : Type*} [DecidableEq κ] (hash : κ → Word) (op : NuwanMapOp κ) (m : NuwanMap κ) :
    Decidable (NuwanMapFits hash op m) :=
  match op with
  | .put key _ => inferInstanceAs (Decidable (hash key ≠ mapEmpty ∧ m.size < 2 ^ 32))
  | .remove key => inferInstanceAs
    (Decidable (∀ slot ∈ m.slots.zipIdx, slot.1.key = some key →
      ∀ e ∈ m.slots, e.hash ≠ mapEmpty → ¬PassesOver m.cap e slot.2))
  | .reserve expectedSize =>
    inferInstanceAs (Decidable (mapReserveNeed expectedSize < 2 ^ 58 * mapLoadNum))
  | .get _ | .has _ | .clear | .size => instDecidableTrue

/-- A map answers a sequence of calls as a partial function does, whatever the
hash function, when each of them keeps the probe runs whole. -/
theorem nuwanMap_answers {κ : Type*} [DecidableEq κ] (hash : κ → Word)
    (ops : List (NuwanMapOp κ))
    (hFits : AllowedRun (nuwanMapStep hash) nuwanMapAnswer (fun op m _ => NuwanMapFits hash op m)
      ops nuwanMapNew fun _ => none) :
    ∃ d, answers (nuwanMapStep hash) ops nuwanMapNew =
      some ((specAnswers nuwanMapAnswer ops fun _ => none).1, d) := by
  obtain ⟨d, hRun, _⟩ := nuwanMapStep_refines.answers (MapHolds.new hash) hFits
  exact ⟨d, hRun⟩

/-- Keys 1 and 17 share a home. The later one is removed first. -/
def stackedCalls : List (NuwanMapOp Nat) :=
  [.put 1 5, .put 17 6, .put 1 7, .remove 17, .get 1, .has 17, .remove 1, .size]

theorem nuwanMap_answers_stacked :
    ∃ d, answers (nuwanMapStep (BitVec.ofNat 64)) stackedCalls nuwanMapNew =
    some ((specAnswers nuwanMapAnswer stackedCalls fun _ => none).1, d) :=
  nuwanMap_answers (BitVec.ofNat 64) stackedCalls (by decide +kernel)

/-- Removing the earlier of two keys with one home loses the other. -/
theorem nuwanMap_loses_key :
    ¬∃ d, answers (nuwanMapStep (BitVec.ofNat 64))
        [.put 1 5, .put 17 6, .remove 1, .has 17] nuwanMapNew =
      some ((specAnswers nuwanMapAnswer
        [.put 1 5, .put 17 6, .remove 1, .has 17] fun _ => none).1, d) := by
  rintro ⟨d, hRun⟩
  have hCode : ((answers (nuwanMapStep (BitVec.ofNat 64)) [.put 1 5, .put 17 6, .remove 1, .has 17]
      nuwanMapNew).map Prod.fst) = some [.done, .done, .flag true, .flag false] := by decide +kernel
  have hSpec : (specAnswers nuwanMapAnswer [.put 1 5, .put 17 6, .remove 1, .has 17]
      fun _ => none).1 = [.done, .done, .flag true, .flag true] := by
    simp [specAnswers, nuwanMapAnswer, update]
  rw [hRun, Option.map_some, hSpec] at hCode
  cases hCode

end Casprix.Collections
