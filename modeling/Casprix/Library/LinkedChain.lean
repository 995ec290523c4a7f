import Mathlib.Data.List.Nodup

/-! Chains of nodes in a store, each with a pointer to the next. -/
namespace Library

open List

section

variable {β : Type*}

/-- The nodes a pointer leads to, one after the other up to the null pointer. -/
def Linked (next : β → Option Nat) (node : Nat → Option β) : Option Nat → List Nat → Prop
  | start, [] => start = none
  | start, id :: rest => start = some id ∧ ∃ b, node id = some b ∧
    Linked next node (next b) rest

/-- The nodes met by following pointers. -/
def walk (next : β → Option Nat) (node : Nat → Option β) : Nat → Option Nat → List Nat
  | 0, _ => []
  | _ + 1, none => []
  | fuel + 1, some id => id :: ((node id).elim [] fun b => walk next node fuel (next b))

/-- The sum of a number over the nodes of a chain. -/
def sumOver (f : β → Nat) (node : Nat → Option β) : List Nat → Nat
  | [] => 0
  | id :: chain => (node id).elim 0 f + sumOver f node chain

variable {next : β → Option Nat} {node node' : Nat → Option β} {start : Option Nat}
  {chain front back back' : List Nat} {id fuel : Nat} {b b' : β} {f : β → Nat}

namespace Linked

theorem congr (h : Linked next node start chain)
    (hSame : ∀ i ∈ chain, ∀ b, node i = some b →
      ∃ b', node' i = some b' ∧ next b' = next b) :
    Linked next node' start chain := by
  induction chain generalizing start with
  | nil => exact h
  | cons i rest ih =>
    obtain ⟨hStart, b, hNode, hRest⟩ := h
    obtain ⟨b', hNode', hNext⟩ := hSame i mem_cons_self b hNode
    refine ⟨hStart, b', hNode', ?_⟩
    rw [hNext]
    exact ih hRest fun j hj => hSame j (mem_cons_of_mem i hj)

theorem rest (h : Linked next node start (front ++ id :: back)) :
    ∃ b, node id = some b ∧ Linked next node (next b) back := by
  induction front generalizing start with
  | nil => exact h.2
  | cons i front ih =>
    obtain ⟨_, b, _, hRest⟩ := h
    exact ih hRest

theorem exists_node (h : Linked next node start chain) (hMem : id ∈ chain) :
    ∃ b, node id = some b := by
  obtain ⟨front, back, rfl⟩ := append_of_mem hMem
  obtain ⟨b, hNode, _⟩ := h.rest
  exact ⟨b, hNode⟩

theorem splice (h : Linked next node start (front ++ id :: back))
    (hFront : ∀ i ∈ front, node' i = node i) (hNode : node' id = some b')
    (hBack : Linked next node' (next b') back') :
    Linked next node' start (front ++ id :: back') := by
  induction front generalizing start with
  | nil => exact ⟨h.1, b', hNode, hBack⟩
  | cons i front ih =>
    obtain ⟨hStart, b, hHere, hRest⟩ := h
    refine ⟨hStart, b, (hFront i mem_cons_self).trans hHere, ?_⟩
    exact ih hRest fun j hj => hFront j (mem_cons_of_mem i hj)

theorem unique {chain' : List Nat} (h : Linked next node start chain)
    (h' : Linked next node start chain') : chain = chain' := by
  induction chain generalizing start chain' with
  | nil =>
    cases chain' with
    | nil => rfl
    | cons i rest => cases h.symm.trans h'.1
  | cons i rest ih =>
    obtain ⟨hStart, b, hNode, hRest⟩ := h
    cases chain' with
    | nil => cases hStart.symm.trans h'
    | cons j rest' =>
      obtain ⟨hStart', b', hNode', hRest'⟩ := h'
      obtain rfl := Option.some.inj (hStart.symm.trans hStart')
      obtain rfl := Option.some.inj (hNode.symm.trans hNode')
      rw [ih hRest hRest']

theorem walk_eq (h : Linked next node start chain) (hFuel : chain.length ≤ fuel) :
    walk next node fuel start = chain := by
  induction chain generalizing start fuel with
  | nil =>
    obtain rfl : start = none := h
    cases fuel with
    | zero => rfl
    | succ fuel => rfl
  | cons i rest ih =>
    obtain ⟨rfl, b, hNode, hRest⟩ := h
    cases fuel with
    | zero => exact absurd hFuel (Nat.not_succ_le_zero _)
    | succ fuel => rw [walk, hNode, Option.elim_some, ih hRest (Nat.le_of_succ_le_succ hFuel)]

end Linked

@[simp] theorem sumOver_nil : sumOver f node [] = 0 := rfl

@[simp] theorem sumOver_cons :
    sumOver f node (id :: chain) = (node id).elim 0 f + sumOver f node chain := rfl

@[simp] theorem sumOver_append :
    sumOver f node (front ++ back) = sumOver f node front + sumOver f node back := by
  induction front with
  | nil => exact (Nat.zero_add _).symm
  | cons i front ih => rw [cons_append, sumOver_cons, ih, sumOver_cons, Nat.add_assoc]

theorem sumOver_ext (hSame : ∀ i ∈ chain, (node' i).elim 0 f = (node i).elim 0 f) :
    sumOver f node' chain = sumOver f node chain := by
  induction chain with
  | nil => rfl
  | cons i rest ih =>
    rw [sumOver_cons, sumOver_cons, hSame i mem_cons_self,
      ih fun j hj => hSame j (mem_cons_of_mem i hj)]

theorem sumOver_congr (hSame : ∀ i ∈ chain, node' i = node i) :
    sumOver f node' chain = sumOver f node chain := sumOver_ext fun i hi => by rw [hSame i hi]

theorem sumOver_middle (hNode : node id = some b) : sumOver f node (front ++ id :: back) =
    sumOver f node front + (f b + sumOver f node back) := by
  rw [sumOver_append, sumOver_cons, hNode, Option.elim_some]

theorem sumOver_update (hNodup : (front ++ id :: back).Nodup) :
    sumOver f (Function.update node id (some b)) (front ++ id :: back) =
      sumOver f node front + (f b + sumOver f node back) := by
  rw [nodup_middle, nodup_cons, mem_append, not_or] at hNodup
  rw [sumOver_middle (Function.update_self id (some b) node)]
  congr 1
  · exact sumOver_congr fun i hi => Function.update_of_ne (ne_of_mem_of_not_mem hi hNodup.1.1) _ _
  · congr 1
    exact sumOver_congr fun i hi => Function.update_of_ne (ne_of_mem_of_not_mem hi hNodup.1.2) _ _

theorem sumOver_le {g : β → Nat}
    (hLe : ∀ i ∈ chain, ∀ b, node i = some b → f b ≤ g b) :
    sumOver f node chain ≤ sumOver g node chain := by
  induction chain with
  | nil => exact Nat.le_refl 0
  | cons i rest ih =>
    rw [sumOver_cons, sumOver_cons]
    refine Nat.add_le_add ?_ (ih fun j hj => hLe j (mem_cons_of_mem i hj))
    cases hNode : node i with
    | none => exact Nat.le_refl 0
    | some b => exact hLe i mem_cons_self b hNode

theorem sumOver_eq_zero (hZero : ∀ i ∈ chain, ∀ b, node i = some b → f b = 0) :
    sumOver f node chain = 0 := by
  induction chain with
  | nil => rfl
  | cons i rest ih =>
    rw [sumOver_cons, ih fun j hj => hZero j (mem_cons_of_mem i hj)]
    cases hNode : node i with
    | none => rfl
    | some b => exact hZero i mem_cons_self b hNode

theorem length_mul_le_sumOver {k : Nat}
    (hLe : ∀ i ∈ chain, ∃ b, node i = some b ∧ k ≤ f b) :
    chain.length * k ≤ sumOver f node chain := by
  induction chain with
  | nil => exact Nat.le_of_eq (Nat.zero_mul k)
  | cons i rest ih =>
    obtain ⟨b, hNode, hk⟩ := hLe i mem_cons_self
    rw [length_cons, Nat.succ_mul, Nat.add_comm, sumOver_cons, hNode]
    exact Nat.add_le_add hk (ih fun j hj => hLe j (mem_cons_of_mem i hj))

end

end Library
