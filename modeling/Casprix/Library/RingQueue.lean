import Mathlib.Data.Nat.ModEq
import Mathlib.Data.Finset.Card

/-! A first-in first-out queue of distinct numbers below a capacity, kept in a
circular buffer beside a membership flag for each number. Since no number is
stored twice, the buffer never overflows. -/
namespace Library

open List

structure RingQueue where
  slots : List Nat
  queued : List Bool
  head : Nat
  tail : Nat
  count : Nat
  deriving DecidableEq, Repr

namespace RingQueue

def empty (capacity : Nat) : RingQueue where
  slots := List.replicate capacity 0
  queued := List.replicate capacity false
  head := 0
  tail := 0
  count := 0

def capacity (q : RingQueue) : Nat := q.slots.length

/-- Append an item unless its flag says that it is already stored. -/
def push (q : RingQueue) (item : Nat) : RingQueue :=
  if q.queued.getD item false then q
  else
    { slots := q.slots.set q.tail item
      queued := q.queued.set item true
      head := q.head
      tail := (q.tail + 1) % q.capacity
      count := q.count + 1 }

/-- The oldest item, and the queue without it. -/
def pop (q : RingQueue) : Nat × RingQueue :=
  let item := q.slots.getD q.head 0
  (item,
    { slots := q.slots
      queued := q.queued.set item false
      head := (q.head + 1) % q.capacity
      tail := q.tail
      count := q.count - 1 })

/-- The circular buffer stores exactly `items`, oldest first. -/
structure Contents (q : RingQueue) (items : List Nat) : Prop where
  count_eq : q.count = items.length
  head_lt : 0 < q.capacity → q.head < q.capacity
  queued_length : q.queued.length = q.capacity
  tail_eq : q.tail = (q.head + items.length) % q.capacity
  slot : ∀ i, i < items.length → q.slots[(q.head + i) % q.capacity]? = items[i]?
  queued_iff : ∀ item, q.queued.getD item false = true ↔ item ∈ items
  nodup : items.Nodup
  lt_capacity : ∀ item ∈ items, item < q.capacity

variable {q : RingQueue} {items : List Nat} {item : Nat}

theorem contents_empty (capacity : Nat) : (empty capacity).Contents [] where
  count_eq := rfl
  head_lt := id
  queued_length := by simp [empty, RingQueue.capacity]
  tail_eq := by simp [empty]
  slot := by simp
  queued_iff := by
    intro item
    by_cases hItem : item < capacity <;> simp [empty, List.getD, hItem]
  nodup := nodup_nil
  lt_capacity := by simp

/-- Distinct numbers below the capacity leave room for one that is absent. -/
theorem Contents.length_lt (h : q.Contents items) (hItem : item < q.capacity)
    (hNew : item ∉ items) : items.length < q.capacity := by
  have hNodup : (item :: items).Nodup := nodup_cons.mpr ⟨hNew, h.nodup⟩
  have hSubset : (item :: items).toFinset ⊆ Finset.range q.capacity := by
    intro x hx
    rw [mem_toFinset, mem_cons] at hx
    rcases hx with rfl | hx
    · exact Finset.mem_range.mpr hItem
    · exact Finset.mem_range.mpr (h.lt_capacity x hx)
  have hCard := Finset.card_le_card hSubset
  rw [toFinset_card_of_nodup hNodup, Finset.card_range] at hCard
  simpa [Nat.succ_le_iff] using hCard

theorem Contents.length_le (h : q.Contents items) : items.length ≤ q.capacity := by
  have hSubset : items.toFinset ⊆ Finset.range q.capacity := by
    intro x hx
    exact Finset.mem_range.mpr (h.lt_capacity x (mem_toFinset.mp hx))
  have hCard := Finset.card_le_card hSubset
  rwa [toFinset_card_of_nodup h.nodup, Finset.card_range] at hCard

@[simp] theorem capacity_push (q : RingQueue) (item : Nat) :
    (q.push item).capacity = q.capacity := by
  unfold push
  split <;> simp [RingQueue.capacity]

@[simp] theorem capacity_pop (q : RingQueue) : q.pop.2.capacity = q.capacity := rfl

theorem push_of_mem (h : q.Contents items) (hItem : item ∈ items) : q.push item = q := by
  rw [push, if_pos ((h.queued_iff item).mpr hItem)]

/-- Two offsets smaller than the capacity land on the same slot only if equal. -/
private theorem offset_injective {head i j capacity : Nat} (hi : i < capacity) (hj : j < capacity)
    (h : (head + i) % capacity = (head + j) % capacity) : i = j := by
  have hMod : i % capacity = j % capacity := Nat.ModEq.add_left_cancel (Nat.ModEq.refl head) h
  rwa [Nat.mod_eq_of_lt hi, Nat.mod_eq_of_lt hj] at hMod

theorem contents_push (h : q.Contents items) (hItem : item < q.capacity) (hNew : item ∉ items) :
    (q.push item).Contents (items ++ [item]) := by
  have hRoom := h.length_lt hItem hNew
  have hPush : q.push item =
      { slots := q.slots.set q.tail item
        queued := q.queued.set item true
        head := q.head
        tail := (q.tail + 1) % q.capacity
        count := q.count + 1 } := by
    rw [push, if_neg]
    rwa [h.queued_iff item]
  have hCapacity := capacity_push q item
  rw [hPush] at hCapacity ⊢
  refine ⟨?_, ?_, ?_, ?_, ?_, ?_, ?_, ?_⟩
  · simp [h.count_eq]
  · rw [hCapacity]
    exact h.head_lt
  · simp [h.queued_length, RingQueue.capacity]
  · rw [hCapacity, h.tail_eq]
    simp [add_assoc]
  · intro i hi
    rw [hCapacity]
    simp only [length_append, length_singleton] at hi
    rw [getElem?_set, h.tail_eq]
    by_cases hLast : i = items.length
    · subst hLast
      have hSlot : (q.head + items.length) % q.capacity < q.slots.length :=
        Nat.mod_lt _ (by omega)
      simp [hSlot]
    · have hOld : i < items.length := by omega
      have hNe : (q.head + items.length) % q.capacity ≠ (q.head + i) % q.capacity := fun hEq =>
        hLast (offset_injective (by omega) hRoom hEq.symm)
      rw [if_neg hNe, h.slot i hOld, getElem?_append_left hOld]
  · intro x
    have hLength : item < q.queued.length := by rw [h.queued_length]; exact hItem
    by_cases hx : x = item
    · subst hx
      simp [List.getD, hLength]
    · have hOld := h.queued_iff x
      simp only [List.getD] at hOld ⊢
      rw [getElem?_set_ne (Ne.symm hx), hOld]
      simp [hx]
  · exact nodup_append.mpr ⟨h.nodup, nodup_singleton _, by
      intro a ha b hb
      rw [mem_singleton] at hb
      subst hb
      rintro rfl
      exact hNew ha⟩
  · intro x hx
    rw [hCapacity]
    rw [mem_append, mem_singleton] at hx
    rcases hx with hx | rfl
    · exact h.lt_capacity x hx
    · exact hItem

theorem exists_contents_push (h : q.Contents items) (hItem : item < q.capacity) :
    ∃ items', (q.push item).Contents items' ∧ ∀ x, x ∈ items' ↔
      x ∈ items ∨ x = item := by
  by_cases hMem : item ∈ items
  · refine ⟨items, by rwa [push_of_mem h hMem], fun x => ?_⟩
    constructor
    · exact Or.inl
    · rintro (hx | rfl)
      · exact hx
      · exact hMem
  · exact ⟨items ++ [item], contents_push h hItem hMem, fun x => by simp⟩

theorem pop_fst (h : q.Contents (item :: items)) : q.pop.1 = item := by
  have hItem := h.lt_capacity item mem_cons_self
  have hHead : q.head < q.capacity := h.head_lt (by omega)
  have hSlot := h.slot 0 (by simp)
  rw [add_zero, Nat.mod_eq_of_lt hHead, getElem?_cons_zero] at hSlot
  simp [pop, List.getD, hSlot]

theorem contents_pop (h : q.Contents (item :: items)) : q.pop.2.Contents items := by
  have hFst := pop_fst h
  have hItem := h.lt_capacity item mem_cons_self
  have hNodup := nodup_cons.mp h.nodup
  have hCapacity : q.pop.2.capacity = q.capacity := rfl
  refine ⟨?_, ?_, ?_, ?_, ?_, ?_, hNodup.2, ?_⟩
  · simp [pop, h.count_eq]
  · intro hPos
    exact Nat.mod_lt _ hPos
  · simp only [pop, length_set, h.queued_length]
    rfl
  · rw [hCapacity]
    simp only [pop, h.tail_eq, length_cons, Nat.mod_add_mod]
    congr 1
    omega
  · intro i hi
    have hSlot := h.slot (i + 1) (by simpa using hi)
    rw [getElem?_cons_succ] at hSlot
    rw [hCapacity, ← hSlot]
    simp only [pop, Nat.mod_add_mod]
    congr 2
    omega
  · intro x
    have hFlag : q.pop.2.queued = q.queued.set item false := by rw [← hFst]; rfl
    have hLength : item < q.queued.length := by rw [h.queued_length]; exact hItem
    rw [hFlag]
    by_cases hx : x = item
    · subst hx
      simp [List.getD, hLength, hNodup.1]
    · have hOld := h.queued_iff x
      simp only [List.getD] at hOld ⊢
      rw [getElem?_set_ne (Ne.symm hx), hOld]
      simp [hx]
  · intro x hx
    exact h.lt_capacity x (mem_cons_of_mem _ hx)

end RingQueue

end Library
