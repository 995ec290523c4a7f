import Mathlib.Data.List.Induction
import Mathlib.Data.List.Nodup
import Mathlib.Logic.Relation

/-! A depth-first walk that selects an item for every request and then the
items that it needs, and skips the requests whose name it has already met. -/
namespace Library

open List

/-- What is asked for, and the items that are offered. -/
structure Catalogue (ρ ι ν : Type*) where
  name : ρ → ν
  label : ι → ν
  needs : ι → List ρ
  select : ρ → Option ι
  label_of_select : ∀ r i, select r = some i → label i = name r

section

variable {ρ ι ν : Type*} (C : Catalogue ρ ι ν)

/-- A walk that completes: from requests and the items done so far to the
requests it came to, each with the items done then, and the items done in the end. -/
inductive MemoWalk : List ρ → List ι → List (List ι × ρ) → List ι → Prop where
  | nil (done : List ι) : MemoWalk [] done [] done
  | known {r : ρ} {rs : List ρ} {calls : List (List ι × ρ)} {done done' : List ι}
      (hKnown : C.name r ∈ done.map C.label) (rest : MemoWalk rs done calls done') :
      MemoWalk (r :: rs) done ((done, r) :: calls) done'
  | fresh {r : ρ} {rs : List ρ} {i : ι} {inner outer : List (List ι × ρ)}
    {done mid done' : List ι}
      (hNew : C.name r ∉ done.map C.label) (hSelect : C.select r = some i)
      (needed : MemoWalk (C.needs i) done inner mid) (rest : MemoWalk rs (mid ++ [i]) outer done') :
      MemoWalk (r :: rs) done ((done, r) :: (inner ++ outer)) done'

/-- What an item needs stands before it. -/
def NeedsFirst (items : List ι) : Prop :=
  ∀ front i back, items = front ++ i :: back →
    ∀ r ∈ C.needs i, C.name r ∈ front.map C.label

variable {C} {r : ρ} {rs : List ρ} {calls : List (List ι × ρ)}
  {done done' front back : List ι}
  {i j : ι}

theorem NeedsFirst.of_prefix (h : NeedsFirst C done') (hPrefix : done <+: done') :
    NeedsFirst C done := by
  obtain ⟨tail, rfl⟩ := hPrefix
  rintro front i back rfl
  exact h front i (back ++ tail) (by rw [append_assoc, cons_append])

theorem NeedsFirst.concat (h : NeedsFirst C done)
    (hNeeds : ∀ r ∈ C.needs i, C.name r ∈ done.map C.label) :
    NeedsFirst C (done ++ [i]) := by
  intro front j back hSplit
  rcases eq_nil_or_concat back with rfl | ⟨tail, k, rfl⟩
  · obtain ⟨rfl, hLast⟩ := append_inj' hSplit rfl
    cases hLast
    exact hNeeds
  · rw [concat_eq_append, ← cons_append, ← append_assoc] at hSplit
    exact h front j tail (append_inj' hSplit rfl).1

namespace MemoWalk

section

variable (h : MemoWalk C rs done calls done')
include h

theorem append {later : List ρ} {calls' : List (List ι × ρ)} {done'' : List ι}
    (hLater : MemoWalk C later done' calls' done'') :
    MemoWalk C (rs ++ later) done (calls ++ calls') done'' := by
  induction h with
  | nil done => exact hLater
  | known hKnown _ ih => exact .known hKnown (ih hLater)
  | fresh hNew hSelect needed _ _ ih =>
    rw [cons_append, cons_append, append_assoc]
    exact .fresh hNew hSelect needed (ih hLater)

theorem isPrefix : done <+: done' := by
  induction h with
  | nil done => exact prefix_refl done
  | known _ _ ih => exact ih
  | fresh _ _ _ _ ihNeeded ihRest => exact (ihNeeded.trans (prefix_append _ _)).trans ihRest

theorem named : ∀ r ∈ rs, C.name r ∈ done'.map C.label := by
  induction h with
  | nil done => exact nofun
  | known hKnown rest ih =>
    refine forall_mem_cons.mpr ⟨?_, ih⟩
    exact (rest.isPrefix.map _).subset hKnown
  | @fresh r _ i _ _ _ mid _ _ hSelect _ rest _ ih =>
    refine forall_mem_cons.mpr ⟨?_, ih⟩
    apply (rest.isPrefix.map C.label).subset
    rw [← C.label_of_select r i hSelect]
    exact mem_map_of_mem (mem_append_right mid mem_cons_self)

theorem needsFirst (hFirst : NeedsFirst C done) :
    NeedsFirst C done' := by
  induction h with
  | nil done => exact hFirst
  | known _ _ ih => exact ih hFirst
  | fresh _ _ needed _ ihNeeded ihRest => exact ihRest ((ihNeeded hFirst).concat needed.named)

theorem selected : ∀ i ∈ done', i ∈ done ∨ ∃ r, C.select r = some i := by
  induction h with
  | nil done => exact fun i hi => .inl hi
  | known _ _ ih => exact ih
  | @fresh r _ _ _ _ _ _ _ _ hSelect _ _ ihNeeded ihRest =>
    intro j hj
    rcases ihRest j hj with hMid | hLater
    · rcases mem_append.mp hMid with hMid | hLast
      · exact ihNeeded j hMid
      · exact .inr ⟨r, mem_singleton.mp hLast ▸ hSelect⟩
    · exact .inr hLater

theorem origin : ∀ i ∈ done', i ∈ done ∨
    ∃ front j back, done' = front ++ j :: back ∧ i ∈ front ++ [j] ∧
      ∃ r ∈ rs, C.label j = C.name r := by
  induction h with
  | nil done => exact fun i hi => .inl hi
  | known _ _ ih =>
    intro j hj
    rcases ih j hj with hOld | ⟨front, k, back, hSplit, hMem, r, hr, hName⟩
    · exact .inl hOld
    · exact .inr ⟨front, k, back, hSplit, hMem, r, mem_cons_of_mem _ hr, hName⟩
  | @fresh r _ i _ _ _ mid _ _ hSelect _ rest ihNeeded ihRest =>
    intro j hj
    rcases ihRest j hj with hMid | ⟨front, k, back, hSplit, hMem, r', hr', hName⟩
    · obtain ⟨tail, hTail⟩ := rest.isPrefix
      refine .inr ⟨mid, i, tail, ?_, hMid, r, mem_cons_self, C.label_of_select r i hSelect⟩
      rw [← hTail, append_assoc, singleton_append]
    · exact .inr ⟨front, k, back, hSplit, hMem, r', mem_cons_of_mem _ hr', hName⟩

/-- When items of one label are equal, no label is met twice: an item met again
inside its own needs would need, before itself, the label that leads to it. -/
theorem nodup (hFirst : NeedsFirst C done)
    (hSame : ∀ i ∈ done', ∀ j ∈ done', C.label i = C.label j → i = j)
    (hNodup : (done.map C.label).Nodup) : (done'.map C.label).Nodup := by
  induction h with
  | nil done => exact hNodup
  | known _ _ ih => exact ih hFirst hSame hNodup
  | @fresh r _ i _ _ done mid _ hNew hSelect needed rest ihNeeded ihRest =>
    have hPrefix := rest.isPrefix
    have hMidSame : ∀ a ∈ mid ++ [i], ∀ b ∈ mid ++ [i], C.label a = C.label b → a = b :=
      fun a ha b hb => hSame a (hPrefix.subset ha) b (hPrefix.subset hb)
    have hMid := ihNeeded hFirst
      (fun a ha b hb => hMidSame a (mem_append_left _ ha) b (mem_append_left _ hb)) hNodup
    have hMidFirst := needed.needsFirst hFirst
    have hLabel := C.label_of_select r i hSelect
    refine ihRest (hMidFirst.concat needed.named) hSame ?_
    rw [map_append, map_singleton, nodup_append']
    refine ⟨hMid, nodup_singleton _, ?_⟩
    rw [disjoint_singleton]
    intro hMem
    obtain ⟨k, hk, hkLabel⟩ := mem_map.mp hMem
    -- the item itself was added while its needs were walked
    obtain rfl : k = i := hMidSame k (mem_append_left _ hk) i
      (mem_append_right _ mem_cons_self) hkLabel
    rcases needed.origin k hk with hOld | ⟨front, j, back, hSplit, hMemFront, r', hr', hName⟩
    · exact hNew (hLabel ▸ mem_map_of_mem hOld)
    · have hBefore : C.label j ∈ front.map C.label := by
        rw [hName]
        rcases mem_append.mp hMemFront with hFront | hLast
        · obtain ⟨before, between, rfl⟩ := append_of_mem hFront
          have hNeeds := hMidFirst before k (between ++ j :: back) (by simp [hSplit]) r' hr'
          rw [map_append]
          exact mem_append_left _ hNeeds
        · obtain rfl := mem_singleton.mp hLast
          exact hMidFirst front k back hSplit r' hr'
      rw [hSplit, map_append, map_cons, nodup_middle, nodup_cons] at hMid
      exact hMid.1 (mem_append_left _ hBefore)

theorem calls_of : ∀ call ∈ calls, call.1 <+: done' ∧
    (call.2 ∈ rs ∨ ∃ i ∈ done', call.2 ∈ C.needs i) := by
  induction h with
  | nil done => exact nofun
  | known _ rest ih =>
    refine forall_mem_cons.mpr ⟨⟨rest.isPrefix, .inl mem_cons_self⟩, fun call hCall => ?_⟩
    obtain ⟨hPrefix, hFrom⟩ := ih call hCall
    exact ⟨hPrefix, hFrom.imp_left (mem_cons_of_mem _)⟩
  | @fresh _ _ i _ _ _ mid _ _ _ needed rest ihNeeded ihRest =>
    have hMid := (prefix_append mid [i]).trans rest.isPrefix
    refine forall_mem_cons.mpr
      ⟨⟨needed.isPrefix.trans hMid, .inl mem_cons_self⟩, fun call hCall => ?_⟩
    rcases mem_append.mp hCall with hInner | hOuter
    · obtain ⟨hPrefix, hFrom⟩ := ihNeeded call hInner
      refine ⟨hPrefix.trans hMid, .inr ?_⟩
      rcases hFrom with hNeed | ⟨k, hk, hNeed⟩
      · exact ⟨i, rest.isPrefix.subset (mem_append_right mid mem_cons_self), hNeed⟩
      · exact ⟨k, hMid.subset hk, hNeed⟩
    · obtain ⟨hPrefix, hFrom⟩ := ihRest call hOuter
      exact ⟨hPrefix, hFrom.imp_left (mem_cons_of_mem _)⟩

/-- When every known item suits the request that finds it known, every
request gets an item that suits it, and so does every need of an item. -/
theorem suited {suits : ι → ρ → Prop} (hSelect : ∀ r i, C.select r = some i → suits i r)
    (hAgree : ∀ call ∈ calls, ∀ i ∈ call.1, C.label i = C.name call.2 → suits i call.2) :
    (∀ r ∈ rs, ∃ i ∈ done', C.label i = C.name r ∧ suits i r) ∧
    ∀ i ∈ done', i ∈ done ∨ ∀ r ∈ C.needs i, ∃ j ∈ done',
      C.label j = C.name r ∧ suits j r := by
  induction h with
  | nil done => exact ⟨nofun, fun i hi => .inl hi⟩
  | @known r rs calls done done' hKnown rest ih =>
    obtain ⟨hHere, hLater⟩ := forall_mem_cons.mp hAgree
    obtain ⟨hRest, hNeeds⟩ := ih hLater
    obtain ⟨i, hi, hLabel⟩ := mem_map.mp hKnown
    refine ⟨forall_mem_cons.mpr ⟨?_, hRest⟩, hNeeds⟩
    exact ⟨i, rest.isPrefix.subset hi, hLabel, hHere i hi hLabel⟩
  | @fresh r rs i inner outer done mid done' _ hSel needed rest ihNeeded ihRest =>
    obtain ⟨_, hLater⟩ := forall_mem_cons.mp hAgree
    obtain ⟨hNeed, hMid⟩ := ihNeeded fun call hCall => hLater call (mem_append_left _ hCall)
    obtain ⟨hRest, hAll⟩ := ihRest fun call hCall => hLater call (mem_append_right _ hCall)
    have hPrefix := (prefix_append mid [i]).trans rest.isPrefix
    have hUp : ∀ r, (∃ j ∈ mid, C.label j = C.name r ∧ suits j r) →
        ∃ j ∈ done', C.label j = C.name r ∧ suits j r := fun r ⟨j, hj, hBoth⟩ =>
      ⟨j, hPrefix.subset hj, hBoth⟩
    refine ⟨forall_mem_cons.mpr ⟨?_, hRest⟩, fun j hj => ?_⟩
    · exact ⟨i, rest.isPrefix.subset (mem_append_right mid mem_cons_self),
        C.label_of_select r i hSel, hSelect r i hSel⟩
    · rcases hAll j hj with hOld | hDone
      · rcases mem_append.mp hOld with hOld | hLast
        · rcases hMid j hOld with hOlder | hDone
          · exact .inl hOlder
          · exact .inr fun r hr => hUp r (hDone r hr)
        · obtain rfl := mem_singleton.mp hLast
          exact .inr fun r hr => hUp r (hNeed r hr)
      · exact .inr hDone

end

end MemoWalk

/-- The first request is answered by an item that needs the second. -/
def Catalogue.Leads (C : Catalogue ρ ι ν) (r r' : ρ) : Prop :=
  ∃ i, C.select r = some i ∧ r' ∈ C.needs i

/-- The requests that a request leads to in the end. -/
abbrev Catalogue.Reaches (C : Catalogue ρ ι ν) :
    ρ → ρ → Prop := Relation.ReflTransGen C.Leads

/-- The requests that `root` leads to select one item for each name, and `items`
has no other item of that name. -/
structure Catalogue.OneItem (C : Catalogue ρ ι ν) (root : ρ) (items : List ι) : Prop where
  selected : ∀ r r', C.Reaches root r → C.Reaches root r' → C.name r = C.name r' →
    C.select r = C.select r'
  listed : ∀ r, C.Reaches root r → ∀ i ∈ items, C.label i = C.name r → C.select r = some i

section

variable {root : ρ} {items : List ι}

/-- Every item that is added was selected for a request that the walk reaches. -/
theorem MemoWalk.selected_reached (h : MemoWalk C rs done calls done') :
    ∀ i ∈ done', i ∈ done ∨ ∃ r ∈ rs, ∃ r', C.Reaches r r' ∧
      C.select r' = some i := by
  induction h with
  | nil done => exact fun i hi => .inl hi
  | known _ _ ih =>
    intro i hi
    exact (ih i hi).imp_right fun ⟨r, hr, hFrom⟩ => ⟨r, mem_cons_of_mem _ hr, hFrom⟩
  | @fresh r _ j _ _ _ mid _ _ hSelect _ _ ihNeeded ihRest =>
    intro i hi
    rcases ihRest i hi with hMid | ⟨r', hr', hFrom⟩
    · rcases mem_append.mp hMid with hMid | hLast
      · refine (ihNeeded i hMid).imp_right fun ⟨need, hNeed, r', hReach, hPick⟩ => ?_
        exact ⟨r, mem_cons_self, r',
          Relation.ReflTransGen.head ⟨j, hSelect, hNeed⟩ hReach, hPick⟩
      · obtain rfl := mem_singleton.mp hLast
        exact .inr ⟨r, mem_cons_self, r, .refl, hSelect⟩
    · exact .inr ⟨r', mem_cons_of_mem _ hr', hFrom⟩

theorem Catalogue.OneItem.of_walk (hOne : C.OneItem root done) (h : MemoWalk C rs done calls done')
    (hFrom : ∀ r ∈ rs, C.Reaches root r) : C.OneItem root done' where
  selected := hOne.selected
  listed := by
    intro r hReach i hi hLabel
    rcases h.selected_reached i hi with hOld | ⟨r₀, hr₀, r', hReach', hSelect⟩
    · exact hOne.listed r hReach i hOld hLabel
    · rw [← hSelect]
      exact hOne.selected r r' hReach ((hFrom r₀ hr₀).trans hReach')
        (hLabel.symm.trans (C.label_of_select r' i hSelect))

/-- What is named with its needs first has the names of all it leads to. -/
theorem NeedsFirst.named_of_reaches (h : NeedsFirst C items) (hOne : C.OneItem root items)
    (hRoot : C.name root ∈ items.map C.label) (hReach : C.Reaches root r) :
    C.name r ∈ items.map C.label := by
  induction hReach with
  | refl => exact hRoot
  | @tail b c hTo hLeads ih =>
    obtain ⟨i, hi, hLabel⟩ := mem_map.mp ih
    obtain ⟨j, hSelect, hNeed⟩ := hLeads
    obtain rfl : i = j := Option.some.inj ((hOne.listed b hTo i hi hLabel).symm.trans hSelect)
    obtain ⟨front, back, rfl⟩ := append_of_mem hi
    rw [map_append]
    exact mem_append_left _ (h front i back rfl c hNeed)

/-- No name on a cycle stands in a list that has the needs first: the first of
them would need another before it. -/
theorem NeedsFirst.not_named_of_cycle (h : NeedsFirst C items) (hOne : C.OneItem root items)
    (hReach : C.Reaches root r) (hCycle : Relation.TransGen C.Leads r r) :
    C.name r ∉ items.map C.label := by
  induction items using List.reverseRecOn generalizing r with
  | nil => exact not_mem_nil
  | append_singleton front i ih =>
    have hFront : ∀ {r}, C.Reaches root r → Relation.TransGen C.Leads r r →
        C.name r ∉ front.map C.label :=
      ih (h.of_prefix (prefix_append front [i]))
        ⟨hOne.selected, fun r hr j hj => hOne.listed r hr j (mem_append_left _ hj)⟩
    intro hMem
    rw [map_append, mem_append] at hMem
    rcases hMem with hMem | hLast
    · exact hFront hReach hCycle hMem
    · obtain ⟨next, ⟨j, hSelect, hNeed⟩, hBack⟩ := Relation.TransGen.head'_iff.mp hCycle
      have hPick := hOne.listed r hReach i (mem_append_right _ mem_cons_self)
        (mem_singleton.mp hLast).symm
      obtain rfl : i = j := Option.some.inj (hPick.symm.trans hSelect)
      have hLeads : C.Leads r next := ⟨i, hSelect, hNeed⟩
      exact hFront (hReach.tail hLeads) (Relation.TransGen.tail' hBack hLeads)
        (h front i [] rfl next hNeed)

/-- A walk that completes has met no cycle, where every name has one item. -/
theorem MemoWalk.acyclic (h : MemoWalk C [root] done calls done') (hFirst : NeedsFirst C done)
    (hOne : C.OneItem root done) (hReach : C.Reaches root r) : ¬Relation.TransGen C.Leads r r := by
  intro hCycle
  have hAfter := hOne.of_walk h fun r hr => mem_singleton.mp hr ▸ .refl
  have hNeeds := h.needsFirst hFirst
  exact hNeeds.not_named_of_cycle hAfter hReach hCycle
    (hNeeds.named_of_reaches hAfter (h.named root mem_cons_self) hReach)

end

end

end Library
