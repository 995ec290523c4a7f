import Mathlib.Data.List.Nodup

/-! A list of named entries that is extended at its end, where entering a name
again writes over its entry in place, and which is cut back to an earlier
length. What a stretch of writes did to such a table is told by the names it
has marked. -/
namespace Library

open List

abbrev OverwriteMap (κ ν : Type) := List (κ × ν)

namespace OverwriteMap

variable {κ ν : Type} [DecidableEq κ]

def put : OverwriteMap κ ν → κ → ν → OverwriteMap κ ν
  | [], key, value => [(key, value)]
  | entry :: rest, key, value =>
    if entry.1 = key then (key, value) :: rest else entry :: put rest key value

/-- The last entry of the key. -/
def get (entries : OverwriteMap κ ν) (key : κ) : Option ν :=
  (entries.reverse.find? fun entry => entry.1 = key).map Prod.snd

def keys (entries : OverwriteMap κ ν) : List κ := entries.map Prod.fst

variable {entries : OverwriteMap κ ν} {key other : κ} {value : ν}

theorem keys_put : (entries.put key value).keys =
    if key ∈ entries.keys then entries.keys else entries.keys ++ [key] := by
  induction entries with
  | nil => simp [put, keys]
  | cons entry rest ih =>
    rw [put]
    by_cases hEntry : entry.1 = key
    · simp [keys, hEntry]
    · have hOther : ¬key = entry.1 := fun h => hEntry h.symm
      rw [if_neg hEntry]
      show entry.1 :: keys (put rest key value) = _
      rw [ih]
      by_cases hRest : key ∈ keys rest
      · have hMem : key ∈ keys (entry :: rest) := mem_cons_of_mem _ hRest
        rw [if_pos hRest, if_pos hMem]
        rfl
      · have hNot : key ∉ keys (entry :: rest) := by
          intro hMem
          rcases mem_cons.mp hMem with hHead | hTail
          · exact hOther hHead
          · exact hRest hTail
        rw [if_neg hRest, if_neg hNot]
        rfl

theorem nodup_put (h : entries.keys.Nodup) : (entries.put key value).keys.Nodup := by
  rw [keys_put]
  split
  · exact h
  · next hNot =>
      rw [nodup_append]
      refine ⟨h, nodup_singleton _, ?_⟩
      intro a ha b hb hEq
      rw [mem_singleton] at hb
      exact hNot (hb ▸ hEq ▸ ha)

theorem get_cons {entry : κ × ν} :
    get (entry :: entries) key =
      (get entries key).or (if entry.1 = key then some entry.2 else none) := by
  unfold get
  rw [reverse_cons, find?_append]
  cases entries.reverse.find? (fun entry => entry.1 = key) with
  | some found => rfl
  | none =>
    by_cases hEntry : entry.1 = key <;> simp [hEntry]

theorem get_eq_none_iff : get entries key = none ↔ key ∉ entries.keys := by
  induction entries with
  | nil => simp [get, keys]
  | cons entry rest ih =>
    rw [get_cons, Option.or_eq_none_iff, ih]
    by_cases hEntry : entry.1 = key
    · simp [keys, hEntry]
    · have hOther : ¬key = entry.1 := fun h => hEntry h.symm
      simp [keys, hEntry, hOther]

theorem get_put_self (h : entries.keys.Nodup) : (entries.put key value).get key = some value := by
  induction entries with
  | nil => simp [put, get]
  | cons entry rest ih =>
    have hNodup := nodup_cons.mp h
    rw [put]
    by_cases hEntry : entry.1 = key
    · have hRest : get rest key = none := get_eq_none_iff.mpr (hEntry ▸ hNodup.1)
      rw [if_pos hEntry, get_cons, hRest]
      simp
    · rw [if_neg hEntry, get_cons, ih hNodup.2]
      rfl

theorem get_put_of_ne (h : other ≠ key) :
    (entries.put key value).get other = entries.get other := by
  have hNe : ¬key = other := fun hEq => h hEq.symm
  induction entries with
  | nil => simp [put, get, hNe]
  | cons entry rest ih =>
    rw [put]
    by_cases hEntry : entry.1 = key
    · rw [if_pos hEntry, get_cons, get_cons, hEntry]
      simp [hNe]
    · rw [if_neg hEntry, get_cons, get_cons, ih]

theorem get_append (hNodup : (keys (entries ++ rest)).Nodup) (h : key ∈ entries.keys) :
    get (entries ++ rest) key = get entries key := by
  induction entries with
  | nil => cases h
  | cons entry rest' ih =>
    have hCons := nodup_cons.mp hNodup
    rw [cons_append, get_cons, get_cons]
    by_cases hMem : key ∈ keys rest'
    · rw [ih hCons.2 hMem]
    · have hHead : entry.1 = key := by
        rcases mem_cons.mp h with hHead | hTail
        · exact hHead.symm
        · exact absurd hTail hMem
      have hAll : get (rest' ++ rest) key = none := get_eq_none_iff.mpr (hHead ▸ hCons.1)
      rw [hAll, get_eq_none_iff.mpr hMem]

omit [DecidableEq κ] in
theorem keys_take {before : List κ} (hKeys : before <+: entries.keys) :
    keys (entries.take before.length) = before := by
  rw [keys, map_take]
  exact (prefix_iff_eq_take.mp hKeys).symm

/-- The map cut back to the keys it had holds the values it has by now. -/
theorem get_take {before : List κ} (hNodup : entries.keys.Nodup)
    (hKeys : before <+: entries.keys) :
    get (entries.take before.length) key = if key ∈ before then get entries key else none := by
  have hTake := keys_take hKeys
  split
  · next hMem =>
      have hSplit : entries = entries.take before.length ++ entries.drop before.length :=
        (take_append_drop _ _).symm
      have hWhole : (keys (entries.take before.length ++ entries.drop before.length)).Nodup := by
        rwa [← hSplit]
      have hApart := get_append hWhole (hTake ▸ hMem)
      rw [← hSplit] at hApart
      exact hApart.symm
  · next hNot => exact get_eq_none_iff.mpr (by rw [hTake]; exact hNot)

end OverwriteMap

/-- From the table `t` to the table `t'` every changed key was marked, and
every key marked on the way holds a new value. -/
structure Writes {κ ν : Type} (isNew : ν → Prop) (t t' : κ → Option ν)
    (marks marks' : List κ) :
    Prop where
  changed : ∀ k, t' k = t k ∨ k ∈ marks' ∧ ∃ v, t' k = some v ∧ isNew v
  marked : ∀ k ∈ marks', k ∈ marks ∨ ∃ v, t' k = some v ∧ isNew v
  kept : ∀ k ∈ marks, k ∈ marks'

namespace Writes

variable {κ ν : Type} {isNew isNewer : ν → Prop} {t t' t'' : κ → Option ν}
  {marks marks' marks'' : List κ}

theorem refl : Writes isNew t t marks marks :=
  ⟨fun _ => .inl rfl, fun _ h => .inl h, fun _ h => h⟩

theorem trans (h : Writes isNew t t' marks marks') (h' : Writes isNewer t' t'' marks' marks'')
    (hNewer : ∀ v, isNewer v → isNew v) : Writes isNew t t'' marks marks'' where
  changed := by
    intro k
    rcases h'.changed k with hSame | ⟨hMem, v, hv, hNew⟩
    · rw [hSame]
      rcases h.changed k with hOld | ⟨hMem, hNew⟩
      · exact .inl hOld
      · exact .inr ⟨h'.kept k hMem, hNew⟩
    · exact .inr ⟨hMem, v, hv, hNewer v hNew⟩
  marked := by
    intro k hk
    rcases h'.marked k hk with hMem | ⟨v, hv, hNew⟩
    · rcases h.marked k hMem with hOld | ⟨v, hv, hNew⟩
      · exact .inl hOld
      · rcases h'.changed k with hSame | ⟨_, w, hw, hNew'⟩
        · exact .inr ⟨v, hSame.trans hv, hNew⟩
        · exact .inr ⟨w, hw, hNewer w hNew'⟩
    · exact .inr ⟨v, hv, hNewer v hNew⟩
  kept := fun k hk => h'.kept k (h.kept k hk)

theorem mono (h : Writes isNewer t t' marks marks') (hNewer : ∀ v, isNewer v → isNew v) :
    Writes isNew t t' marks marks' :=
  Writes.trans (Writes.refl : Writes isNew t t marks marks) h hNewer

theorem append (h : Writes isNew t t' [] marks') : Writes isNew t t' marks (marks' ++ marks) where
  changed := by
    intro k
    rcases h.changed k with hSame | ⟨hMem, hNew⟩
    · exact .inl hSame
    · exact .inr ⟨mem_append_left _ hMem, hNew⟩
  marked := by
    intro k hk
    rcases mem_append.mp hk with hMem | hOld
    · rcases h.marked k hMem with hNil | hNew
      · cases hNil
      · exact .inr hNew
    · exact .inl hOld
  kept := fun _ hk => mem_append_right _ hk

/-- A key holds another value than an old one when it was marked or held another before. -/
theorem ne_some_iff (h : Writes isNew t t' [] marks') {k : κ} {v : ν} (hOld : ¬isNew v) :
    t' k ≠ some v ↔ k ∈ marks' ∨ t k ≠ some v := by
  constructor
  · intro hNe
    rcases h.changed k with hSame | ⟨hMem, _⟩
    · exact .inr (hSame ▸ hNe)
    · exact .inl hMem
  · rintro (hMem | hNe) hEq
    · rcases h.marked k hMem with hNil | ⟨w, hw, hNew⟩
      · cases hNil
      · rw [hEq] at hw
        exact hOld (Option.some.inj hw ▸ hNew)
    · rcases h.changed k with hSame | ⟨_, w, hw, hNew⟩
      · exact hNe (hSame ▸ hEq)
      · rw [hEq] at hw
        exact hOld (Option.some.inj hw ▸ hNew)

end Writes

end Library
