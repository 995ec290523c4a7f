import Casprix.Library.RingQueue
import Mathlib.Algebra.Order.BigOperators.Group.Finset

/-! Iterating a dataflow problem with a worklist. A node is taken from the
queue, its value is recomputed, and the nodes that read it are queued again
when the observed part of the value has changed. -/
namespace Library

open Function

/-- A dataflow problem over the nodes below `size`. The `key` of a value is the
part other nodes read and the part compared by the change test. -/
structure Dataflow (Value Key : Type*) where
  size : Nat
  transfer : (Nat → Value) → Nat → Value
  key : Value → Key
  dependents : Nat → List Nat

namespace Dataflow

variable {Value Key : Type*}

structure State (Value : Type*) where
  queue : RingQueue
  value : Nat → Value

def pushAll (queue : RingQueue) (nodes : List Nat) : RingQueue :=
  nodes.foldl RingQueue.push queue

/-- Every node is queued once, in increasing order. -/
def start (P : Dataflow Value Key) (bottom : Value) : State Value where
  queue := pushAll (RingQueue.empty P.size) (List.range P.size)
  value := fun _ => bottom

/-- Enough rounds for every value to climb to the height bound. -/
def fuel (P : Dataflow Value Key) (height : Nat) : Nat :=
  P.size * height * (P.size + 1) + P.size

theorem exists_contents_pushAll {queue : RingQueue} {items : List Nat}
    (h : queue.Contents items) (nodes : List Nat)
    (hNodes : ∀ node ∈ nodes, node < queue.capacity) :
    ∃ items', (pushAll queue nodes).Contents items' ∧
      (∀ x, x ∈ items' ↔ x ∈ items ∨ x ∈ nodes) ∧
      (pushAll queue nodes).capacity = queue.capacity := by
  induction nodes generalizing queue items with
  | nil => exact ⟨items, h, by simp, rfl⟩
  | cons node nodes ih =>
    obtain ⟨pushed, hPushed, hMem⟩ :=
      RingQueue.exists_contents_push h (hNodes node List.mem_cons_self)
    obtain ⟨items', hItems, hIff, hCapacity⟩ := ih hPushed (by
      intro x hx
      rw [RingQueue.capacity_push]
      exact hNodes x (List.mem_cons_of_mem _ hx))
    refine ⟨items', hItems, fun x => ?_, hCapacity.trans (RingQueue.capacity_push _ _)⟩
    rw [hIff, hMem, List.mem_cons, or_assoc]

section

variable [DecidableEq Key]

/-- Recompute the oldest queued node. -/
def step (P : Dataflow Value Key) (s : State Value) : State Value :=
  let node := s.queue.pop.1
  let queue := s.queue.pop.2
  let value := P.transfer s.value node
  { queue := if P.key value = P.key (s.value node) then queue
      else pushAll queue (P.dependents node)
    value := update s.value node value }

def loop (P : Dataflow Value Key) : Nat → State Value → State Value
  | 0, s => s
  | fuel + 1, s => if s.queue.count = 0 then s else loop P fuel (P.step s)

def solve (P : Dataflow Value Key) (bottom : Value) (height : Nat) : Nat → Value :=
  (P.loop (P.fuel height) (P.start bottom)).value

/-- The loop keeps every property of the values that recomputing a node keeps. -/
theorem loop_value_induction {P : Dataflow Value Key} (motive : (Nat → Value) → Prop)
    (hStep : ∀ value node, motive value →
      motive (update value node (P.transfer value node)))
    {s : State Value} (h : motive s.value) (rounds : Nat) : motive (P.loop rounds s).value := by
  induction rounds generalizing s with
  | zero => exact h
  | succ rounds ih =>
    rw [loop]
    split
    · exact h
    · exact ih (hStep s.value s.queue.pop.1 h)

end

section

variable [PartialOrder Key]

/-- What makes the iteration ascend and stop: larger inputs give larger keys,
keys have bounded rank, and a node's value depends only on the keys of the
nodes that queue it. -/
structure Ascending (P : Dataflow Value Key) (rank : Key → Nat) (height : Nat) : Prop where
  monotone : ∀ {s t : Nat → Value}, (∀ node, P.key (s node) ≤ P.key (t node)) →
    ∀ node, P.key (P.transfer s node) ≤ P.key (P.transfer t node)
  rank_lt : ∀ {a b : Key}, a < b → rank a < rank b
  rank_le : ∀ a : Key, rank a ≤ height
  dependents_lt : ∀ node dependent, dependent ∈ P.dependents node → dependent < P.size

variable {P : Dataflow Value Key} {rank : Key → Nat} {height : Nat} {bottom : Value}

/-- The loop invariant: the queue is well formed and no key has overtaken its
recomputed value. -/
structure Invariant (P : Dataflow Value Key) (s : State Value) (items : List Nat) : Prop where
  contents : s.queue.Contents items
  capacity : s.queue.capacity = P.size
  ascending : ∀ node, P.key (s.value node) ≤ P.key (P.transfer s.value node)

theorem key_le_update {s : State Value} {items : List Nat}
    (h : Invariant P s items) (node n : Nat) :
    P.key (s.value n) ≤ P.key (update s.value node (P.transfer s.value node) n) := by
  by_cases hn : n = node
  · subst hn
    rw [update_self]
    exact h.ascending n
  · rw [update_of_ne hn]

/-- The total rank of the values still to be climbed, weighted so that one
change pays for a full queue. -/
private def remaining (P : Dataflow Value Key) (rank : Key → Nat) (height : Nat)
    (s : State Value) (items : List Nat) : Nat :=
  (P.size * height - ∑ node ∈ Finset.range P.size, rank (P.key (s.value node))) * (P.size + 1) +
    items.length

private theorem sum_rank_le (hP : Ascending P rank height) (s : State Value) :
    ∑ node ∈ Finset.range P.size, rank (P.key (s.value node)) ≤ P.size * height := by
  calc
    _ ≤ ∑ _node ∈ Finset.range P.size, height :=
        Finset.sum_le_sum fun node _ => hP.rank_le _
    _ = P.size * height := by simp

private theorem rank_le_rank (hP : Ascending P rank height) {a b : Key} (h : a ≤ b) :
    rank a ≤ rank b := by
  rcases h.eq_or_lt with rfl | hLt
  · exact le_rfl
  · exact (hP.rank_lt hLt).le

theorem exists_invariant_start (P : Dataflow Value Key) (bottom : Value)
    (hBottom : ∀ s : Nat → Value, ∀ node, P.key bottom ≤ P.key (P.transfer s node)) :
    ∃ items, Invariant P (P.start bottom) items ∧
      ∀ node, node < P.size → node ∈ items := by
  have hEmpty := RingQueue.contents_empty P.size
  have hCapacity : (RingQueue.empty P.size).capacity = P.size := by
    simp [RingQueue.empty, RingQueue.capacity]
  obtain ⟨items, hItems, hMem, hSize⟩ :=
    exists_contents_pushAll hEmpty (List.range P.size) (by simp [hCapacity])
  refine ⟨items, ⟨hItems, hSize.trans hCapacity, fun node => hBottom _ node⟩,
    fun node hNode => ?_⟩
  exact (hMem node).mpr (.inr (List.mem_range.mpr hNode))

private theorem remaining_le_fuel {s : State Value} {items : List Nat} (h : Invariant P s items) :
    remaining P rank height s items ≤ P.fuel height := by
  have hLength := h.contents.length_le
  rw [h.capacity] at hLength
  have hMul := Nat.mul_le_mul_right (P.size + 1)
    (Nat.sub_le (P.size * height) (∑ node ∈ Finset.range P.size, rank (P.key (s.value node))))
  simp only [remaining, fuel]
  omega

section

variable [DecidableEq Key]

section

variable (hP : Ascending P rank height)
include hP

/-- One round keeps the invariant. Its items are the remaining queue, with the
dependents of the node added when its key has changed. -/
theorem exists_invariant_step {s : State Value} {node : Nat}
    {items : List Nat} (h : Invariant P s (node :: items)) :
    ∃ items', Invariant P (P.step s) items' ∧
      (P.step s).value = update s.value node (P.transfer s.value node) ∧
      (P.key (P.transfer s.value node) = P.key (s.value node) → items' = items) ∧
      (P.key (P.transfer s.value node) ≠ P.key (s.value node) →
        ∀ x, x ∈ items' ↔ x ∈ items ∨ x ∈ P.dependents node) := by
  have hNode := RingQueue.pop_fst h.contents
  have hPop := RingQueue.contents_pop h.contents
  have hValue : (P.step s).value =
      update s.value node (P.transfer s.value node) := by
    simp only [step, hNode]
  have hAscending : ∀ n, P.key ((P.step s).value n) ≤
      P.key (P.transfer (P.step s).value n) := by
    intro n
    have hMono := hP.monotone (key_le_update h node) n
    rw [hValue]
    by_cases hn : n = node
    · subst hn
      rwa [update_self]
    · rw [update_of_ne hn]
      exact (h.ascending n).trans hMono
  by_cases hKey : P.key (P.transfer s.value node) = P.key (s.value node)
  · have hQueue : (P.step s).queue = s.queue.pop.2 := by
      simp only [step, hNode, if_pos hKey]
    refine ⟨items, ⟨?_, ?_, hAscending⟩, hValue, fun _ => rfl, fun hNe => absurd hKey hNe⟩
    · rw [hQueue]
      exact hPop
    · rw [hQueue, RingQueue.capacity_pop, h.capacity]
  · have hQueue : (P.step s).queue = pushAll s.queue.pop.2 (P.dependents node) := by
      simp only [step, hNode, if_neg hKey]
    obtain ⟨items', hItems, hMem, hCapacity⟩ :=
      exists_contents_pushAll hPop (P.dependents node) (by
        intro dependent hDependent
        rw [RingQueue.capacity_pop, h.capacity]
        exact hP.dependents_lt node dependent hDependent)
    refine ⟨items', ⟨?_, ?_, hAscending⟩, hValue, fun hEq => absurd hEq hKey, fun _ => hMem⟩
    · rw [hQueue]
      exact hItems
    · rw [hQueue, hCapacity, RingQueue.capacity_pop, h.capacity]

private theorem exists_invariant_step_lt {s : State Value}
    {node : Nat} {items : List Nat} (h : Invariant P s (node :: items)) :
    ∃ items', Invariant P (P.step s) items' ∧
      remaining P rank height (P.step s) items' < remaining P rank height s (node :: items) := by
  obtain ⟨items', hInv, hValue, hSame, _⟩ := exists_invariant_step hP h
  refine ⟨items', hInv, ?_⟩
  have hSum : ∑ n ∈ Finset.range P.size, rank (P.key (s.value n)) ≤
      ∑ n ∈ Finset.range P.size, rank (P.key ((P.step s).value n)) := by
    rw [hValue]
    exact Finset.sum_le_sum fun n _ => rank_le_rank hP (key_le_update h node n)
  by_cases hKey : P.key (P.transfer s.value node) = P.key (s.value node)
  · have hItems := hSame hKey
    subst hItems
    have hMono := Nat.mul_le_mul_right (P.size + 1) (Nat.sub_le_sub_left hSum (P.size * height))
    simp only [remaining, List.length_cons]
    omega
  · have hNode : node < P.size := by
      have hLt := h.contents.lt_capacity node List.mem_cons_self
      rwa [h.capacity] at hLt
    have hStrict : ∑ n ∈ Finset.range P.size, rank (P.key (s.value n)) <
        ∑ n ∈ Finset.range P.size, rank (P.key ((P.step s).value n)) := by
      rw [hValue]
      refine Finset.sum_lt_sum (fun n _ => rank_le_rank hP (key_le_update h node n))
        ⟨node, Finset.mem_range.mpr hNode, ?_⟩
      rw [update_self]
      exact hP.rank_lt (lt_of_le_of_ne (h.ascending node) (Ne.symm hKey))
    have hBound := sum_rank_le hP (P.step s)
    have hLength := hInv.contents.length_le
    rw [hInv.capacity] at hLength
    have hGap : P.size * height - ∑ n ∈ Finset.range P.size,
      rank (P.key ((P.step s).value n)) + 1 ≤
        P.size * height - ∑ n ∈ Finset.range P.size, rank (P.key (s.value n)) := by omega
    have hMul := Nat.mul_le_mul_right (P.size + 1) hGap
    rw [Nat.add_mul] at hMul
    simp only [remaining, List.length_cons]
    omega

/-- With fuel for the whole climb the loop ends with an empty queue, and keeps
every property that a round keeps. -/
theorem loop_induction (motive : State Value → List Nat → Prop)
    (hStep : ∀ s node items items', Invariant P s (node :: items) → motive s (node :: items) →
      Invariant P (P.step s) items' → motive (P.step s) items')
    {s : State Value} {items : List Nat}
    {rounds : Nat} (h : Invariant P s items) (hMotive : motive s items)
    (hFuel : remaining P rank height s items ≤ rounds) :
    Invariant P (P.loop rounds s) [] ∧ motive (P.loop rounds s) [] := by
  induction rounds generalizing s items with
  | zero =>
    have hItems : items = [] := by
      refine List.length_eq_zero_iff.mp ?_
      simp only [remaining] at hFuel
      omega
    subst hItems
    exact ⟨h, hMotive⟩
  | succ rounds ih =>
    cases items with
    | nil =>
      have hCount : s.queue.count = 0 := h.contents.count_eq
      rw [loop, if_pos hCount]
      exact ⟨h, hMotive⟩
    | cons node items =>
      have hCount : s.queue.count ≠ 0 := by simp [h.contents.count_eq]
      obtain ⟨items', hInv, hLt⟩ := exists_invariant_step_lt hP h
      rw [loop, if_neg hCount]
      exact ih hInv (hStep s node items items' h hMotive hInv) (by omega)

/-- The solution is stable at every node, provided that a node's value depends
only on the keys of the nodes that queue it. -/
theorem solve_stable
    (hBottom : ∀ s : Nat → Value, ∀ node, P.key bottom ≤ P.key (P.transfer s node))
    (hReads : ∀ (s t : Nat → Value) node, node < P.size →
      (∀ source, node ∈ P.dependents source →
      P.key (s source) = P.key (t source)) → P.transfer s node = P.transfer t node) :
    ∀ node, node < P.size →
      P.solve bottom height node = P.transfer (P.solve bottom height) node := by
  obtain ⟨items, hInv, hAll⟩ := exists_invariant_start P bottom hBottom
  have hLoop := loop_induction hP
    (fun s items => ∀ node, node < P.size → node ∉ items →
      s.value node = P.transfer s.value node)
    (by
      intro s node items items' h hStable hInv' n hn hNot
      obtain ⟨items'', hInv'', hValue, hSame, hGrow⟩ := exists_invariant_step hP h
      have hMem : ∀ x, x ∈ items'' ↔ x ∈ items' := fun x =>
        (hInv''.contents.queued_iff x).symm.trans (hInv'.contents.queued_iff x)
      rw [← hMem] at hNot
      have hKeys : ∀ source, n ∈ P.dependents source →
          P.key (s.value source) = P.key ((P.step s).value source) := by
        intro source hSource
        rw [hValue]
        by_cases hEq : source = node
        · subst hEq
          rw [update_self]
          by_contra hNe
          exact hNot ((hGrow (Ne.symm hNe) n).mpr (.inr hSource))
        · rw [update_of_ne hEq]
      have hTransfer := hReads s.value (P.step s).value n hn hKeys
      rw [← hTransfer, hValue]
      by_cases hEq : n = node
      · subst hEq
        rw [update_self]
      · rw [update_of_ne hEq]
        refine hStable n hn fun hIn => hNot ?_
        have hOld : n ∈ items := (List.mem_cons.mp hIn).resolve_left hEq
        by_cases hKey : P.key (P.transfer s.value node) = P.key (s.value node)
        · rw [hSame hKey]
          exact hOld
        · exact (hGrow hKey n).mpr (.inl hOld))
    hInv (fun node hNode hNot => absurd (hAll node hNode) hNot) (remaining_le_fuel hInv)
  intro node hNode
  exact hLoop.2 node hNode (by simp)

end

/-- The solution lies below every assignment whose recomputed keys do not
exceed it, whatever the queue has left out. -/
theorem solve_le
    (hMono : ∀ {s t : Nat → Value}, (∀ node, P.key (s node) ≤ P.key (t node)) →
      ∀ node, P.key (P.transfer s node) ≤ P.key (P.transfer t node))
    (hBottom : ∀ s : Nat → Value, ∀ node, P.key bottom ≤ P.key (P.transfer s node))
    {bound : Nat → Value}
    (hBound : ∀ node, P.key (P.transfer bound node) ≤ P.key (bound node)) (node : Nat) :
    P.key (P.solve bottom height node) ≤ P.key (bound node) := by
  refine loop_value_induction (fun value => ∀ n, P.key (value n) ≤ P.key (bound n)) ?_
    (fun n => (hBottom bound n).trans (hBound n)) (P.fuel height) node
  intro value taken hLe n
  by_cases hn : n = taken
  · subst hn
    rw [update_self]
    exact (hMono hLe n).trans (hBound n)
  · rw [update_of_ne hn]
    exact hLe n

end

end

end Dataflow

end Library
