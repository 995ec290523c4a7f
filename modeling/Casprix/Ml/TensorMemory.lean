import Casprix.Ml.TensorGraph

/-! The memory planner of the tensor graph: a value may take the slot of one
that is read no more. -/
namespace Casprix.Ml

open List

variable {F : Type}

/-- A slot, with the order of the first node that it is free for. -/
structure MemorySlot where
  freeAt : Nat
  size : Nat

def maxSlots : Nat := 512

/-- The nodes that remain, each at its `schedule_order`. -/
def scheduled (nodes : List (IRNode F)) : List (IRNode F) := nodes.filter (!·.eliminated)

/-- One round of the loop over the users, for the entry of a value. -/
def laterUse (v next : Nat) (user : IRNode F × Nat) : Nat :=
  if v ∈ user.1.inputs ∧ user.2 ≥ next then user.2 + 1 else next

/-- The `last_use` of a value and one more, which is zero without a use. -/
def lastUseNext (live : List (IRNode F)) (v : Nat) : Nat := live.zipIdx.foldl (laterUse v) 0

/-- `size * sizeof(f32)`, a `size_t`. -/
def IRNode.needed (node : IRNode F) : Nat := node.outputShape.size * 4 % 2 ^ 64

def MemorySlot.fits (node : IRNode F) (order : Nat) (slot : MemorySlot) : Bool :=
  slot.freeAt ≤ order && slot.size ≥ node.needed

/-- The slot of a node, if there is one, and the slots then. -/
def placeNode (live : List (IRNode F)) (order : Nat) (slots : List MemorySlot) (node : IRNode F) :
    Option Nat × List MemorySlot :=
  let freeAt := max (lastUseNext live node.output) (order + 1)
  match slots.findIdx? (MemorySlot.fits node order) with
  | some s => (some s, slots.modify s fun slot => { slot with freeAt := freeAt })
  | none =>
    if slots.length < maxSlots then (some slots.length,
      slots ++ [{ freeAt := freeAt, size := node.needed }])
    else (none, slots)

/-- The loop from the node at `order` on: the slots in the end, and that of each node. -/
def planFrom (live : List (IRNode F)) :
    Nat → List MemorySlot → List (IRNode F) → List MemorySlot × List (Option Nat)
  | _, slots, [] => (slots, [])
  | order, slots, node :: rest =>
    let (slot, slots) := placeNode live order slots node
    let (slots, placed) := planFrom live (order + 1) slots rest
    (slots, slot :: placed)

def irMemoryPlan (nodes : List (IRNode F)) : List MemorySlot × List (Option Nat) :=
  planFrom (scheduled nodes) 0 [] (scheduled nodes)

/-- A slot has room for each value in it, and none of them is read from the node on that has the
slot next. -/
structure SharesSafely (live : List (IRNode F)) (slots : List MemorySlot)
    (placed : List (Option Nat)) :
    Prop where
  room : ∀ (i s : Nat) (node : IRNode F), live[i]? = some node → placed[i]? = some (some s) →
    ∃ slot, slots[s]? = some slot ∧ node.needed ≤ slot.size
  apart : ∀ (i j s : Nat) (node : IRNode F), i < j → live[i]? = some node →
    placed[i]? = some (some s) →
    placed[j]? = some (some s) → ∀ (k : Nat) (reader : IRNode F), live[k]? = some reader →
      node.output ∈ reader.inputs → k < j

variable {live : List (IRNode F)} {slots : List MemorySlot} {node : IRNode F} {v order s i j : Nat}

theorem foldl_laterUse (users : List (IRNode F × Nat)) (next : Nat) :
    next ≤ users.foldl (laterUse v) next ∧
      ∀ user ∈ users, v ∈ user.1.inputs → user.2 < users.foldl (laterUse v) next := by
  induction users generalizing next with
  | nil => exact ⟨le_rfl, fun _ hUser => absurd hUser not_mem_nil⟩
  | cons user users ih =>
    obtain ⟨hNext, hUsers⟩ := ih (laterUse v next user)
    have hStep : next ≤ laterUse v next user ∧
        (v ∈ user.1.inputs → user.2 < laterUse v next user) := by
      unfold laterUse
      split
      · exact ⟨by omega, fun _ => Nat.lt_succ_self _⟩
      · next hNot => exact ⟨le_rfl, fun hUses =>
          Nat.lt_of_not_le fun hLe => hNot ⟨hUses, hLe⟩⟩
    refine ⟨hStep.1.trans hNext, fun other hOther hUses => ?_⟩
    rcases mem_cons.mp hOther with rfl | hRest
    · exact (hStep.2 hUses).trans_le hNext
    · exact hUsers other hRest hUses

/-- A node is given a slot that is free by then, and no other slot changes. -/
theorem placeNode_spec (live : List (IRNode F)) (order : Nat)
    (slots : List MemorySlot) (node : IRNode F) :
    (∀ (s : Nat) (slot : MemorySlot), slots[s]? = some slot → ∃ slot' : MemorySlot,
      (placeNode live order slots node).2[s]? = some slot' ∧ slot.freeAt ≤ slot'.freeAt ∧
        slot'.size = slot.size) ∧
    ∀ s, (placeNode live order slots node).1 = some s →
      (∀ slot, slots[s]? = some slot → slot.freeAt ≤ order) ∧ ∃ slot' : MemorySlot,
        (placeNode live order slots node).2[s]? = some slot' ∧
          slot'.freeAt = max (lastUseNext live node.output) (order + 1) ∧
            node.needed ≤ slot'.size := by
  unfold placeNode
  cases hFind : slots.findIdx? (MemorySlot.fits node order) with
  | some s =>
    obtain ⟨hLt, hFree, -⟩ := findIdx?_eq_some_iff_getElem.mp hFind
    rw [MemorySlot.fits, Bool.and_eq_true, decide_eq_true_eq, decide_eq_true_eq] at hFree
    refine ⟨fun t slot hSlot => ?_, fun t ht => ?_⟩
    · dsimp only
      by_cases hSame : s = t
      · subst hSame
        obtain rfl : slots[s] = slot := Option.some.inj ((getElem?_eq_getElem hLt).symm.trans hSlot)
        rw [getElem?_modify_eq, hSlot]
        exact ⟨_, rfl, by dsimp only; omega, rfl⟩
      · rw [getElem?_modify_ne _ _ hSame]
        exact ⟨slot, hSlot, le_rfl, rfl⟩
    · obtain rfl : s = t := Option.some.inj ht
      dsimp only
      rw [getElem?_modify_eq, getElem?_eq_getElem hLt]
      refine ⟨fun slot hSlot => ?_, _, rfl, rfl, hFree.2⟩
      exact Option.some.inj hSlot ▸ hFree.1
  | none =>
    dsimp only
    split
    · refine ⟨fun t slot hSlot => ⟨slot, ?_, le_rfl, rfl⟩, fun t ht => ?_⟩
      · exact (getElem?_append_left (List.getElem?_eq_some_iff.mp hSlot).1).trans hSlot
      · obtain rfl : slots.length = t := Option.some.inj ht
        refine ⟨fun slot hSlot => ?_, _, getElem?_concat_length, rfl, le_rfl⟩
        rw [getElem?_eq_none le_rfl] at hSlot
        cases hSlot
    · exact ⟨fun t slot hSlot => ⟨slot, hSlot, le_rfl, rfl⟩, nofun⟩

/-- From the node at `order` on, a slot goes to nodes that it is free for. -/
theorem planFrom_spec (live : List (IRNode F)) (rest : List (IRNode F)) (order : Nat)
    (slots : List MemorySlot) :
    (∀ (s : Nat) (slot : MemorySlot), slots[s]? = some slot →
      (∃ slot' : MemorySlot, (planFrom live order slots rest).1[s]? = some slot' ∧
        slot'.size = slot.size) ∧
        ∀ i, (planFrom live order slots rest).2[i]? = some (some s) →
          slot.freeAt ≤ order + i) ∧
    ∀ (i s : Nat) (node : IRNode F), rest[i]? = some node →
      (planFrom live order slots rest).2[i]? = some (some s) →
        (∃ slot, (planFrom live order slots rest).1[s]? = some slot ∧
          node.needed ≤ slot.size) ∧
          ∀ j, i < j → (planFrom live order slots rest).2[j]? = some (some s) →
            lastUseNext live node.output ≤ order + j := by
  induction rest generalizing order slots with
  | nil =>
    refine ⟨fun s slot hSlot =>
      ⟨⟨slot, hSlot, rfl⟩, fun i hHas => ?_⟩, fun i s node hAt => ?_⟩
    · simp [planFrom] at hHas
    · simp at hAt
  | cons node rest ih =>
    obtain ⟨hSlots, hPlaced⟩ := placeNode_spec live order slots node
    obtain ⟨hLater, hRest⟩ := ih (order + 1) (placeNode live order slots node).2
    refine ⟨fun s slot hSlot => ?_, fun i s other hAt hHas => ?_⟩
    · obtain ⟨slot', hSlot', hFree, hSize⟩ := hSlots s slot hSlot
      obtain ⟨⟨last, hLast, hSame⟩, hNodes⟩ := hLater s slot' hSlot'
      refine ⟨⟨last, hLast, hSame.trans hSize⟩, fun i hHas => ?_⟩
      cases i with
      | zero => exact (hPlaced s (Option.some.inj hHas)).1 slot hSlot
      | succ i =>
        have hLe := hNodes i hHas
        omega
    · cases i with
      | zero =>
        cases hAt
        obtain ⟨-, slot', hSlot', hFree, hRoom⟩ := hPlaced s (Option.some.inj hHas)
        obtain ⟨⟨last, hLast, hSame⟩, hNodes⟩ := hLater s slot' hSlot'
        refine ⟨⟨last, hLast, hRoom.trans hSame.ge⟩, fun j hj hNext => ?_⟩
        obtain ⟨j, rfl⟩ := Nat.exists_eq_succ_of_ne_zero hj.ne'
        have hLe := hNodes j hNext
        omega
      | succ i =>
        obtain ⟨hRoom, hApart⟩ := hRest i s other hAt hHas
        refine ⟨hRoom, fun j hj hNext => ?_⟩
        obtain ⟨j, rfl⟩ := Nat.exists_eq_succ_of_ne_zero (Nat.zero_lt_of_lt hj).ne'
        have hLe := hApart j (Nat.lt_of_succ_lt_succ hj) hNext
        omega

/-- The plan never puts a value into a slot whose value is still read. -/
theorem irMemoryPlan_sharesSafely (nodes : List (IRNode F)) :
    SharesSafely (scheduled nodes) (irMemoryPlan nodes).1 (irMemoryPlan nodes).2 := by
  have hPlan := (planFrom_spec (scheduled nodes) (scheduled nodes) 0 []).2
  refine ⟨fun i s node hAt hHas => (hPlan i s node hAt hHas).1, ?_⟩
  intro i j s node hLt hAt hHas hNext k reader hReader hReads
  have hUse := (foldl_laterUse (v := node.output) (scheduled nodes).zipIdx 0).2 (reader, k)
    (mem_zipIdx_iff_getElem?.mpr hReader) hReads
  have hLe := (hPlan i s node hAt hHas).2 j hLt hNext
  exact hUse.trans_le (hLe.trans (Nat.zero_add j).le)

end Casprix.Ml
