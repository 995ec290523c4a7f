import Mathlib.Data.List.Nodup
import Mathlib.Data.List.Range

/-! Breadth-first search over the nodes below a bound, with a mark for every
node and a queue that keeps all nodes ever enqueued. -/
namespace Library

open List

/-- The marks and the nodes enqueued so far, in order. -/
structure Traversal where
  seen : List Bool
  queue : List Nat

namespace Traversal

/-- Enqueues a node that is in range and not marked. -/
def visit (n : Nat) (t : Traversal) (s : Nat) : Traversal :=
  if s < n ∧ (t.seen[s]?).getD false = false then
    { seen := t.seen.set s true, queue := t.queue ++ [s] }
  else t

/-- Visits the successors of each enqueued node in turn. -/
def loop (succs : Nat → List Nat) (n : Nat) : Nat → Nat → Traversal → Traversal
  | 0, _, t => t
  | fuel + 1, head, t =>
    match t.queue[head]? with
    | some cur => loop succs n fuel (head + 1) ((succs cur).foldl (visit n) t)
    | none => t

def start (n entry : Nat) : Traversal :=
  { seen := (List.replicate n false).set entry true, queue := [entry] }

/-- No node is enqueued twice, so `n` rounds empty the queue. -/
def search (succs : Nat → List Nat) (n entry : Nat) : Traversal :=
  loop succs n n 0 (start n entry)

/-- Reachability through nodes in range. -/
def Reaches (succs : Nat → List Nat) (n : Nat) : Nat → Nat → Prop :=
  Relation.ReflTransGen fun a b => b ∈ succs a ∧ b < n

/-- The queue holds the marked nodes, all of them reachable, and the
successors of those before `head`. -/
structure Explored (succs : Nat → List Nat) (n entry head : Nat) (t : Traversal) : Prop where
  length : t.seen.length = n
  seen_iff : ∀ s, (t.seen[s]?).getD false = true ↔ s ∈ t.queue
  bounded : ∀ s ∈ t.queue, s < n
  nodup : t.queue.Nodup
  entry_mem : entry ∈ t.queue
  reaches : ∀ s ∈ t.queue, Reaches succs n entry s
  head_le : head ≤ t.queue.length
  closed : ∀ (i : Nat) c, i < head → t.queue[i]? = some c →
    ∀ s ∈ succs c, s < n → s ∈ t.queue

section

variable {succs : Nat → List Nat} {n entry head s c : Nat} {t : Traversal}

section

variable (h : Explored succs n entry head t)
include h

theorem Explored.length_le : t.queue.length ≤ n := by
  have hSub : t.queue ⊆ List.range n := fun s hs => mem_range.mpr (h.bounded s hs)
  have hLe := List.Nodup.length_le_of_subset h.nodup hSub
  rwa [length_range] at hLe

theorem Explored.visit (hReach : Reaches succs n entry c) (hs : s ∈ succs c) :
    Explored succs n entry head (t.visit n s) ∧ t.queue <+: (t.visit n s).queue ∧
      (s < n → s ∈ (t.visit n s).queue) := by
  unfold Traversal.visit
  split
  · next hNew =>
      obtain ⟨hLt, hUnseen⟩ := hNew
      have hFresh : s ∉ t.queue := by
        rw [← h.seen_iff, hUnseen]
        exact Bool.false_ne_true
      have hMem : ∀ u, u ∈ t.queue ++ [s] ↔ u ∈ t.queue ∨ u = s := by simp
      refine ⟨⟨?_, ?_, ?_, ?_, ?_, ?_, ?_, ?_⟩, ⟨[s], rfl⟩, fun _ => by simp⟩
      · rw [length_set, h.length]
      · intro u
        rw [getElem?_set, hMem, ← h.seen_iff]
        by_cases hEq : s = u
        · subst hEq
          simp [h.length, hLt]
        · simp [hEq, Ne.symm hEq]
      · intro u hu
        cases (hMem u).mp hu with
        | inl hOld => exact h.bounded u hOld
        | inr hOwn => rwa [hOwn]
      · apply h.nodup.append (nodup_singleton s)
        intro u hu hOwn
        rw [mem_singleton.mp hOwn] at hu
        exact hFresh hu
      · exact mem_append_left _ h.entry_mem
      · intro u hu
        cases (hMem u).mp hu with
        | inl hOld => exact h.reaches u hOld
        | inr hOwn =>
          rw [hOwn]
          exact hReach.tail ⟨hs, hLt⟩
      · exact h.head_le.trans (length_append.symm ▸ Nat.le_add_right _ _)
      · intro i d hi hd u hu hRange
        rw [getElem?_append_left (hi.trans_le h.head_le)] at hd
        exact mem_append_left _ (h.closed i d hi hd u hu hRange)
  · next hOld =>
      refine ⟨h, prefix_rfl, fun hLt => ?_⟩
      rw [← h.seen_iff]
      simpa [hLt] using hOld

theorem Explored.foldl_visit (hReach : Reaches succs n entry c)
    {nodes : List Nat} (hNodes : ∀ s ∈ nodes, s ∈ succs c) :
    Explored succs n entry head (nodes.foldl (Traversal.visit n) t) ∧
      t.queue <+: (nodes.foldl (Traversal.visit n) t).queue ∧
      ∀ s ∈ nodes, s < n → s ∈ (nodes.foldl (Traversal.visit n) t).queue := by
  induction nodes generalizing t with
  | nil => exact ⟨h, prefix_rfl, nofun⟩
  | cons u nodes ih =>
    obtain ⟨hHead, hKept, hOwn⟩ := h.visit hReach (hNodes u mem_cons_self)
    obtain ⟨hRest, hPrefix, hAll⟩ := ih hHead fun s hs => hNodes s (mem_cons_of_mem u hs)
    refine ⟨hRest, hKept.trans hPrefix, fun s hs hLt => ?_⟩
    cases hs with
    | head => exact hPrefix.subset (hOwn hLt)
    | tail _ hs => exact hAll s hs hLt

theorem Explored.advance (hHead : t.queue[head]? = some c) :
    Explored succs n entry (head + 1) ((succs c).foldl (Traversal.visit n) t) := by
  have hMem := mem_of_getElem? hHead
  obtain ⟨hNext, hPrefix, hAll⟩ := h.foldl_visit (h.reaches c hMem) fun _ hs => hs
  have hLt := (List.getElem?_eq_some_iff.mp hHead).1
  refine ⟨hNext.length, hNext.seen_iff, hNext.bounded, hNext.nodup, hNext.entry_mem,
    hNext.reaches, ?_, ?_⟩
  · exact le_trans hLt hPrefix.length_le
  · intro i d hi hd s hs hRange
    cases lt_or_eq_of_le (Nat.le_of_lt_succ hi) with
    | inl hBefore => exact hNext.closed i d hBefore hd s hs hRange
    | inr hOwn =>
      have hSame := prefix_iff_getElem?.mp hPrefix head hLt
      rw [hOwn, hSame, (List.getElem?_eq_some_iff.mp hHead).2] at hd
      cases hd
      exact hAll s hs hRange

end

theorem Explored.loop {fuel : Nat} (h : Explored succs n entry head t) (hFuel : n ≤ head + fuel) :
    Explored succs n entry (loop succs n fuel head t).queue.length (loop succs n fuel head t) := by
  induction fuel generalizing head t with
  | zero =>
    have hEq : head = t.queue.length := le_antisymm h.head_le (h.length_le.trans hFuel)
    show Explored succs n entry t.queue.length t
    rw [← hEq]
    exact h
  | succ fuel ih =>
    unfold Traversal.loop
    split
    · next c hHead => exact ih (h.advance hHead) (by omega)
    · next hNone =>
        have hEq : head = t.queue.length :=
          le_antisymm h.head_le (List.getElem?_eq_none_iff.mp hNone)
        rw [← hEq]
        exact h

theorem explored_start (hEntry : entry < n) : Explored succs n entry 0 (start n entry) where
  length := by simp [start]
  seen_iff := by
    intro s
    simp only [start, getElem?_set, length_replicate, mem_singleton]
    by_cases hEq : entry = s
    · simp [hEq, hEq ▸ hEntry]
    · rw [if_neg hEq, getElem?_replicate]
      constructor
      · split <;> exact nofun
      · exact fun hSame => absurd hSame.symm hEq
  bounded := by simp [start, hEntry]
  nodup := nodup_singleton entry
  entry_mem := mem_singleton.mpr rfl
  reaches := by
    intro s hs
    rw [mem_singleton.mp hs]
    exact .refl
  head_le := Nat.zero_le _
  closed := nofun

/-- The search marks exactly the nodes reachable from the entry. -/
theorem seen_search_iff (hEntry : entry < n) :
    ((search succs n entry).seen[s]?).getD false = true ↔ Reaches succs n entry s := by
  have hDone : Explored succs n entry _ (search succs n entry) :=
    (explored_start hEntry).loop (by omega)
  rw [hDone.seen_iff]
  constructor
  · exact hDone.reaches s
  · intro hReach
    induction hReach with
    | refl => exact hDone.entry_mem
    | tail _ hEdge ih =>
      obtain ⟨i, hi⟩ := mem_iff_getElem?.mp ih
      exact hDone.closed i _ (List.getElem?_eq_some_iff.mp hi).1 hi _ hEdge.1 hEdge.2

end

end Traversal

end Library
