import Casprix.Library.Refinement
import Casprix.Mir.Basic
import Mathlib.Data.Nat.ModEq

/-! The ring-buffer queue, which doubles when it is full. -/
namespace Casprix.Collections

open List Library Mir Function

/-- `QUEUE_INIT_CAP`. -/
def queueInitCap : Nat := 16

/-- The words of a block of memory. -/
abbrev Words := Nat → Word

structure NuwanQueue where
  data : Words
  head : Nat
  tail : Nat
  size : Nat
  cap : Nat

/-- `mem` is what the arena's block holds. -/
def nuwanQueueNew (mem : Words) : NuwanQueue :=
  { data := mem, head := 0, tail := 0, size := 0, cap := queueInitCap }

namespace NuwanQueue

variable (q : NuwanQueue)

/-- Lays the ring out from the start of a block twice as long. -/
def grow (nd : Words) : NuwanQueue :=
  { data := fun i => if i < q.size then q.data ((q.head + i) % q.cap) else nd i
    head := 0
    tail := q.size
    size := q.size
    cap := q.cap * 2 }

def put (v : Word) : NuwanQueue :=
  { q with data := update q.data q.tail v
           tail := (q.tail + 1) % q.cap
           size := q.size + 1 }

end NuwanQueue

/-- `nd` is the block that the arena gives where the queue grows, if it gives one. -/
def nuwanQueueEnqueue (q : NuwanQueue) (nd : Option Words) (v : Word) : Bool × NuwanQueue :=
  if q.size = q.cap then
    match nd with
    | none => (false, q)
    | some nd => (true, (q.grow nd).put v)
  else (true, q.put v)

def nuwanQueueDequeue (q : NuwanQueue) : Word × NuwanQueue :=
  if q.size = 0 then (0, q)
  else (q.data q.head, { q with head := (q.head + 1) % q.cap, size := q.size - 1 })

def nuwanQueuePeek (q : NuwanQueue) : Word := if q.size = 0 then 0 else q.data q.head

def nuwanQueueClear (q : NuwanQueue) : NuwanQueue := { q with head := 0, tail := 0, size := 0 }

inductive QueueOp where
  | enqueue (nd : Option Words) (v : Word)
  | dequeue
  | peek
  | clear

inductive QueueReply where
  | done (ok : Bool)
  | value (v : Word)
  deriving DecidableEq

def queueStep (op : QueueOp) (q : NuwanQueue) : QueueReply × NuwanQueue :=
  match op with
  | .enqueue nd v =>
    let (ok, q) := nuwanQueueEnqueue q nd v
    (.done ok, q)
  | .dequeue =>
    let (v, q) := nuwanQueueDequeue q
    (.value v, q)
  | .peek => (.value (nuwanQueuePeek q), q)
  | .clear => (.done true, nuwanQueueClear q)

/-- What a queue is for: values leave it in the order in which they came. Without memory a value may
be refused. -/
inductive Fifo : QueueOp → QueueReply → List Word → List Word → Prop where
  | enqueue (nd : Option Words) (v : Word) (items : List Word) :
      Fifo (.enqueue nd v) (.done true) items (items ++ [v])
  | refuse (v : Word) (items : List Word) : Fifo (.enqueue none v) (.done false) items items
  | dequeue (v : Word) (items : List Word) : Fifo .dequeue (.value v) (v :: items) items
  | dequeueEmpty : Fifo .dequeue (.value 0) [] []
  | peek (v : Word) (items : List Word) : Fifo .peek (.value v) (v :: items) (v :: items)
  | peekEmpty : Fifo .peek (.value 0) [] []
  | clear (items : List Word) : Fifo .clear (.done true) items []

namespace NuwanQueue

variable {q : NuwanQueue}

/-- What the ring holds, from the head on. -/
def contents (q : NuwanQueue) :
    List Word := (List.range q.size).map fun i => q.data ((q.head + i) % q.cap)

structure Valid (q : NuwanQueue) : Prop where
  head_lt : q.head < q.cap
  size_le : q.size ≤ q.cap
  tail_eq : q.tail = (q.head + q.size) % q.cap

theorem place_ne {head cap i j : Nat} (hij : i < j) (hj : j < cap) :
    (head + i) % cap ≠ (head + j) % cap := by
  intro hSame
  have hMod : i ≡ j [MOD cap] := Nat.ModEq.add_left_cancel' head hSame
  exact hij.ne (hMod.eq_of_lt_of_lt (hij.trans hj) hj)

theorem Valid.contents_put (h : q.Valid) (hRoom : q.size < q.cap) (v : Word) :
    (q.put v).contents = q.contents ++ [v] := by
  unfold contents put
  dsimp only
  rw [range_succ, map_append, map_singleton, ← h.tail_eq, update_self]
  congr 1
  apply map_congr_left
  intro i hi
  apply update_of_ne
  rw [h.tail_eq]
  exact place_ne (mem_range.mp hi) hRoom

theorem Valid.put (h : q.Valid) (hRoom : q.size < q.cap) (v : Word) : (q.put v).Valid where
  head_lt := h.head_lt
  size_le := hRoom
  tail_eq := by
    show (q.tail + 1) % q.cap = (q.head + (q.size + 1)) % q.cap
    rw [h.tail_eq, Nat.mod_add_mod, add_assoc]

theorem Valid.grow (h : q.Valid) (nd : Words) : (q.grow nd).Valid where
  head_lt := Nat.mul_pos (Nat.zero_lt_of_lt h.head_lt) Nat.two_pos
  size_le := h.size_le.trans (Nat.le_mul_of_pos_right _ Nat.two_pos)
  tail_eq := by
    have hPos := Nat.zero_lt_of_lt h.head_lt
    have hLe := h.size_le
    show q.size = (0 + q.size) % (q.cap * 2)
    rw [zero_add, Nat.mod_eq_of_lt (by omega)]

theorem Valid.contents_grow (h : q.Valid) (nd : Words) : (q.grow nd).contents = q.contents := by
  have hLe := h.size_le
  unfold contents NuwanQueue.grow
  dsimp only
  apply map_congr_left
  intro i hi
  have hLt := mem_range.mp hi
  rw [zero_add, Nat.mod_eq_of_lt (by omega), if_pos hLt]

theorem contents_of_pos (h : q.Valid) (hSome : q.size ≠ 0) :
    q.contents = q.data q.head :: (nuwanQueueDequeue q).2.contents := by
  obtain ⟨n, hn⟩ := Nat.exists_eq_succ_of_ne_zero hSome
  unfold nuwanQueueDequeue
  rw [if_neg hSome]
  unfold contents
  rw [hn, Nat.succ_sub_one, range_succ_eq_map, map_cons, map_map, Nat.add_zero,
    Nat.mod_eq_of_lt h.head_lt]
  congr 1
  apply map_congr_left
  intro i _
  show q.data ((q.head + (i + 1)) % q.cap) = q.data (((q.head + 1) % q.cap + i) % q.cap)
  rw [Nat.mod_add_mod, Nat.add_assoc, Nat.add_comm 1 i]

theorem contents_of_zero (hNone : q.size = 0) : q.contents = [] := by
  rw [contents, hNone]
  rfl

theorem Valid.dequeue (h : q.Valid) (hSome : q.size ≠ 0) : (nuwanQueueDequeue q).2.Valid := by
  unfold nuwanQueueDequeue
  rw [if_neg hSome]
  refine ⟨Nat.mod_lt _ (Nat.zero_lt_of_lt h.head_lt), (Nat.sub_le _ _).trans h.size_le, ?_⟩
  show q.tail = ((q.head + 1) % q.cap + (q.size - 1)) % q.cap
  rw [Nat.mod_add_mod, h.tail_eq]
  congr 1
  omega

theorem Valid.enqueue (h : q.Valid) (nd : Option Words) (v : Word) :
    Fifo (.enqueue nd v) (.done (nuwanQueueEnqueue q nd v).1) q.contents
      (nuwanQueueEnqueue q nd v).2.contents ∧
      (nuwanQueueEnqueue q nd v).2.Valid := by
  unfold nuwanQueueEnqueue
  split
  · next hFull =>
      cases nd with
      | none => exact ⟨.refuse v _, h⟩
      | some nd =>
        have hRoom : (q.grow nd).size < (q.grow nd).cap := by
          have hPos := Nat.zero_lt_of_lt h.head_lt
          show q.size < q.cap * 2
          omega
        refine ⟨?_, (h.grow nd).put hRoom v⟩
        rw [(h.grow nd).contents_put hRoom, h.contents_grow]
        exact .enqueue _ v _
  · next hNotFull =>
      have hRoom : q.size < q.cap := lt_of_le_of_ne h.size_le hNotFull
      refine ⟨?_, h.put hRoom v⟩
      rw [h.contents_put hRoom]
      exact .enqueue _ v _

theorem Valid.step (h : q.Valid) (op : QueueOp) :
    Fifo op (queueStep op q).1 q.contents (queueStep op q).2.contents ∧
      (queueStep op q).2.Valid := by
  cases op with
  | enqueue nd v => exact h.enqueue nd v
  | dequeue =>
    by_cases hNone : q.size = 0
    · have hSame : nuwanQueueDequeue q = (0, q) := if_pos hNone
      unfold queueStep
      rw [hSame]
      refine ⟨?_, h⟩
      rw [contents_of_zero hNone]
      exact .dequeueEmpty
    · have hValue : (nuwanQueueDequeue q).1 = q.data q.head := congrArg Prod.fst (if_neg hNone)
      refine ⟨?_, h.dequeue hNone⟩
      unfold queueStep
      dsimp only
      rw [hValue, contents_of_pos h hNone]
      exact .dequeue _ _
  | peek =>
    refine ⟨?_, h⟩
    unfold queueStep nuwanQueuePeek
    by_cases hNone : q.size = 0
    · rw [if_pos hNone, contents_of_zero hNone]
      exact .peekEmpty
    · rw [if_neg hNone, contents_of_pos h hNone]
      exact .peek _ _
  | clear =>
    refine ⟨.clear _, Nat.zero_lt_of_lt h.head_lt, Nat.zero_le _, ?_⟩
    exact (Nat.zero_mod _).symm

end NuwanQueue

/-- After any operations the ring holds, from the head on, what was enqueued and not yet dequeued,
in order, and the tail is where it ends. -/
theorem nuwan_queue_fifo (mem : Words) (ops : List QueueOp) :
    Answered Fifo (replies queueStep ops (nuwanQueueNew mem)).1 []
        (replies queueStep ops (nuwanQueueNew mem)).2.contents ∧
      (replies queueStep ops (nuwanQueueNew mem)).2.Valid := by
  have hStart : (nuwanQueueNew mem).Valid := ⟨Nat.succ_pos 15, Nat.zero_le _, rfl⟩
  have hStep : ∀ op q, q.Valid →
    Fifo op (queueStep op q).1 q.contents (queueStep op q).2.contents ∧
      (queueStep op q).2.Valid := fun op q h => h.step op
  exact answered_replies hStep hStart

end Casprix.Collections
