import Casprix.Library.Counting
import Mathlib.Data.List.Range

/-! Depth-first search that lists each node after the nodes it has led to. -/
namespace Library

open List

/-- The marks, and the nodes that were left for good so far. -/
structure PostOrder (α : Type) where
  visited : α → Bool
  nodes : List α

namespace PostOrder

variable {α : Type}

def start : PostOrder α := { visited := fun _ => false, nodes := [] }

def mark [DecidableEq α] (order : PostOrder α) (node : α) : PostOrder α :=
  { order with visited := Function.update order.visited node true }

/-- Visits a node and what it leads to. The fuel bounds the depth of the recursion. -/
def search [DecidableEq α] (succs : α → List α) :
    Nat → α → PostOrder α → Option (PostOrder α)
  | 0, _, _ => none
  | fuel + 1, node, order =>
    if order.visited node then some order
    else
      ((succs node).foldlM (fun order next => search succs fuel next order) (order.mark node)).map
        fun order => { order with nodes := order.nodes ++ [node] }

/-- What visiting the roots has added to the list. -/
structure Adds (succs : α → List α) (roots : List α)
    (order order' : PostOrder α) (new : List α) :
    Prop where
  nodes_eq : order'.nodes = order.nodes ++ new
  nodup : new.Nodup
  fresh : ∀ x ∈ new, order.visited x = false
  visited_iff : ∀ x, order'.visited x = true ↔ order.visited x = true ∨ x ∈ new
  fed : ∀ before x after, new = before ++ x :: after → x ∈ roots ∨
    ∃ p ∈ after, x ∈ succs p
  closed : ∀ x ∈ new, ∀ s ∈ succs x, order'.visited s = true
  marked : ∀ r ∈ roots, order'.visited r = true
  reached : ∀ x ∈ new, ∃ r ∈ roots, Relation.ReflTransGen (fun a b => b ∈ succs a) r x

section

variable {succs : α → List α} {roots roots' new new' : List α}
  {order order' order'' : PostOrder α}
  {node : α}

theorem adds_nil (order : PostOrder α) : Adds succs [] order order [] where
  nodes_eq := (append_nil order.nodes).symm
  nodup := nodup_nil
  fresh _ h := nomatch h
  visited_iff _ := (or_iff_left not_mem_nil).symm
  fed before x after h := absurd h (by simp)
  closed _ h := nomatch h
  marked _ h := nomatch h
  reached _ h := nomatch h

theorem Adds.trans (h : Adds succs roots order order' new)
    (h' : Adds succs roots' order' order'' new') :
    Adds succs (roots ++ roots') order order'' (new ++ new') where
  nodes_eq := by rw [h'.nodes_eq, h.nodes_eq, append_assoc]
  nodup := by
    refine List.Nodup.append h.nodup h'.nodup fun x hx hx' => ?_
    have hMarked := (h.visited_iff x).mpr (.inr hx)
    exact absurd ((h'.fresh x hx').symm.trans hMarked) Bool.false_ne_true
  fresh x hx := by
    rcases mem_append.mp hx with hOld | hNew
    · exact h.fresh x hOld
    · by_contra hMarked
      rw [Bool.not_eq_false] at hMarked
      have hStill := (h.visited_iff x).mpr (.inl hMarked)
      exact absurd ((h'.fresh x hNew).symm.trans hStill) Bool.false_ne_true
  visited_iff x := by rw [h'.visited_iff, h.visited_iff, mem_append, or_assoc]
  fed before x after hSplit := by
    rw [append_eq_append_iff] at hSplit
    rcases hSplit with ⟨rest, hBefore, hNew⟩ | ⟨rest, hNew, hAfter⟩
    · rcases h'.fed rest x after hNew with hRoot | hFed
      · exact .inl (mem_append_right roots hRoot)
      · exact .inr hFed
    · cases rest with
      | nil =>
        have hStart : new' = [] ++ x :: after := hAfter.symm
        rcases h'.fed [] x after hStart with hRoot | hFed
        · exact .inl (mem_append_right roots hRoot)
        · exact .inr hFed
      | cons y rest =>
        rw [cons_append, List.cons.injEq] at hAfter
        obtain ⟨rfl, rfl⟩ := hAfter
        rcases h.fed before x rest hNew with hRoot | ⟨p, hp, hEdge⟩
        · exact .inl (mem_append_left roots' hRoot)
        · exact .inr ⟨p, mem_append_left new' hp, hEdge⟩
  closed x hx s hs := by
    rcases mem_append.mp hx with hOld | hNew
    · exact (h'.visited_iff s).mpr (.inl (h.closed x hOld s hs))
    · exact h'.closed x hNew s hs
  marked r hr := by
    rcases mem_append.mp hr with hOld | hNew
    · exact (h'.visited_iff r).mpr (.inl (h.marked r hOld))
    · exact h'.marked r hNew
  reached x hx := by
    rcases mem_append.mp hx with hOld | hNew
    · obtain ⟨r, hr, hPath⟩ := h.reached x hOld
      exact ⟨r, mem_append_left roots' hr, hPath⟩
    · obtain ⟨r, hr, hPath⟩ := h'.reached x hNew
      exact ⟨r, mem_append_right roots hr, hPath⟩

theorem adds_visited (h : order.visited node = true) : Adds succs [node] order order [] where
  nodes_eq := (append_nil order.nodes).symm
  nodup := nodup_nil
  fresh _ h := nomatch h
  visited_iff _ := (or_iff_left not_mem_nil).symm
  fed before x after h := absurd h (by simp)
  closed _ h := nomatch h
  marked r hr := by rwa [mem_singleton.mp hr]
  reached _ h := nomatch h

/-- The nodes of a list that are not visited. -/
def unvisited (scope : List α) (order : PostOrder α) : Nat :=
  scope.countP fun x => !order.visited x

theorem Adds.unvisited_le (h : Adds succs roots order order' new) (scope : List α) :
    unvisited scope order' ≤ unvisited scope order := by
  refine countP_mono_left fun x _ hx => ?_
  rw [Bool.not_eq_true'] at hx ⊢
  by_contra hMarked
  rw [Bool.not_eq_false] at hMarked
  exact absurd (hx.symm.trans ((h.visited_iff x).mpr (.inl hMarked))) Bool.false_ne_true

variable [DecidableEq α]

@[simp] theorem mark_self (order : PostOrder α) (node : α) :
    (order.mark node).visited node = true :=
  Function.update_self ..

theorem mark_of_ne {x : α} (h : x ≠ node) : (order.mark node).visited x = order.visited x :=
  Function.update_of_ne h ..

/-- A node that was not visited comes after what its successors have added. -/
theorem Adds.behind (hFresh : order.visited node = false)
    (h : Adds succs (succs node) (order.mark node) order' new) :
    Adds succs [node] order { order' with nodes := order'.nodes ++ [node] } (new ++ [node]) where
  nodes_eq := by
    rw [← append_assoc]
    exact congrArg (· ++ [node]) h.nodes_eq
  nodup := by
    refine List.Nodup.append h.nodup (nodup_singleton node) fun x hx hNode => ?_
    have hUnmarked := h.fresh x hx
    rw [mem_singleton.mp hNode] at hUnmarked
    exact absurd (hUnmarked.symm.trans (mark_self order node)) Bool.false_ne_true
  fresh x hx := by
    rcases mem_append.mp hx with hOld | hNode
    · have hUnmarked := h.fresh x hOld
      by_cases hSame : x = node
      · rw [hSame, hFresh]
      · exact (mark_of_ne hSame).symm.trans hUnmarked
    · rw [mem_singleton.mp hNode, hFresh]
  visited_iff x := by
    have hMarks := h.visited_iff x
    refine hMarks.trans ?_
    rw [mem_append, mem_singleton]
    by_cases hSame : x = node
    · subst hSame
      simp
    · simp only [mark_of_ne hSame, hSame, or_false]
  fed before x after hSplit := by
    rw [append_eq_append_iff] at hSplit
    rcases hSplit with ⟨rest, _, hNew⟩ | ⟨rest, hNew, hAfter⟩
    · cases rest with
      | nil => exact .inl (mem_singleton.mpr (List.cons.inj hNew).1.symm)
      | cons y rest => simp at hNew
    · cases rest with
      | nil => exact .inl (mem_singleton.mpr (List.cons.inj hAfter).1)
      | cons y rest =>
        rw [cons_append, List.cons.injEq] at hAfter
        obtain ⟨rfl, rfl⟩ := hAfter
        refine .inr ?_
        rcases h.fed before x rest hNew with hRoot | ⟨p, hp, hEdge⟩
        · exact ⟨node, mem_append_right rest (mem_singleton_self node), hRoot⟩
        · exact ⟨p, mem_append_left [node] hp, hEdge⟩
  closed x hx s hs := by
    rcases mem_append.mp hx with hOld | hNode
    · exact h.closed x hOld s hs
    · rw [mem_singleton.mp hNode] at hs
      exact h.marked s hs
  marked r hr := by
    rw [mem_singleton.mp hr]
    exact (h.visited_iff node).mpr (.inl (mark_self order node))
  reached x hx := by
    refine ⟨node, mem_singleton_self node, ?_⟩
    rcases mem_append.mp hx with hOld | hNode
    · obtain ⟨r, hr, hPath⟩ := h.reached x hOld
      exact .head hr hPath
    · rw [mem_singleton.mp hNode]

theorem unvisited_mark {scope : List α} (hMem : node ∈ scope)
    (hFresh : order.visited node = false) :
    unvisited scope (order.mark node) < unvisited scope order := by
  refine countP_lt_of_imp hMem (by rw [hFresh]; rfl) (by rw [mark_self]; rfl) fun x hx => ?_
  by_cases hSame : x = node
  · rw [hSame, hFresh]
    rfl
  · rwa [mark_of_ne hSame] at hx

theorem foldlM_adds {scope : List α} {fuel : Nat}
    (hSearch : ∀ {node : α} {order : PostOrder α}, node ∈ scope →
      unvisited scope order < fuel →
      ∃ order' new, search succs fuel node order = some order' ∧
        Adds succs [node] order order' new)
    (nexts : List α) (hSub : nexts ⊆ scope) (order : PostOrder α)
    (hRoom : unvisited scope order < fuel) : ∃ order' new,
      nexts.foldlM (fun order next => search succs fuel next order) order = some order' ∧
        Adds succs nexts order order' new := by
  induction nexts generalizing order with
  | nil => exact ⟨order, [], rfl, adds_nil order⟩
  | cons next rest ih =>
    obtain ⟨middle, new, hFirst, hAdds⟩ := hSearch (hSub mem_cons_self) hRoom
    obtain ⟨order', new', hRest, hAdds'⟩ :=
      ih (fun x hx => hSub (mem_cons_of_mem next hx)) middle
      ((hAdds.unvisited_le scope).trans_lt hRoom)
    refine ⟨order', new ++ new', ?_, hAdds.trans hAdds'⟩
    rw [foldlM_cons, hFirst]
    exact hRest

/-- With fuel for the nodes that are not visited the search ends, and lists what it visits. -/
theorem search_adds {scope : List α} (hClosed : ∀ x ∈ scope, succs x ⊆ scope) {fuel : Nat}
    (hNode : node ∈ scope) (hFuel : unvisited scope order < fuel) :
    ∃ order' new, search succs fuel node order = some order' ∧
      Adds succs [node] order order' new := by
  induction fuel generalizing node order with
  | zero => cases hFuel
  | succ fuel ih =>
    rw [search]
    cases hVisited : order.visited node with
    | true => exact ⟨order, [], rfl, adds_visited hVisited⟩
    | false =>
      obtain ⟨order', new, hChildren, hAdds⟩ := foldlM_adds ih (succs node) (hClosed node hNode)
        (order.mark node)
        ((unvisited_mark hNode hVisited).trans_le (Nat.le_of_lt_succ hFuel))
      refine ⟨_, new ++ [node], ?_, hAdds.behind hVisited⟩
      rw [if_neg Bool.false_ne_true, hChildren]
      rfl

/-- The whole search lists the nodes that can be reached, the start last, and each other one
before a node that leads to it. -/
theorem search_start {scope : List α} (hClosed : ∀ x ∈ scope, succs x ⊆ scope) {fuel : Nat}
    (hNode : node ∈ scope) (hFuel : scope.length < fuel) :
    ∃ order' before, search succs fuel node start = some order' ∧
      order'.nodes = before ++ [node] ∧ order'.nodes.Nodup ∧
      (∀ x, x ∈ order'.nodes ↔ Relation.ReflTransGen (fun a b => b ∈ succs a) node x) ∧
      ∀ early x late, order'.nodes = early ++ x :: late → x = node ∨
        ∃ p ∈ late, x ∈ succs p := by
  have hRoom : unvisited scope (start : PostOrder α) < fuel :=
    lt_of_le_of_lt countP_le_length hFuel
  obtain ⟨order', new, hSearch, hAdds⟩ := search_adds hClosed hNode hRoom
  have hNodes : order'.nodes = new := hAdds.nodes_eq
  have hMember : ∀ x, order'.visited x = true ↔ x ∈ new := fun x =>
    (hAdds.visited_iff x).trans (or_iff_right Bool.false_ne_true)
  have hAll : ∀ x, x ∈ new ↔ Relation.ReflTransGen (fun a b => b ∈ succs a) node x := by
    intro x
    constructor
    · intro hx
      obtain ⟨r, hr, hPath⟩ := hAdds.reached x hx
      rwa [mem_singleton.mp hr] at hPath
    · intro hPath
      induction hPath with
      | refl => exact (hMember node).mp (hAdds.marked node (mem_singleton_self node))
      | @tail a b _ hEdge ih => exact (hMember b).mp (hAdds.closed a ih b hEdge)
  have hFed : ∀ early x late, new = early ++ x :: late → x = node ∨
      ∃ p ∈ late, x ∈ succs p :=
    fun early x late hSplit => (hAdds.fed early x late hSplit).imp_left mem_singleton.mp
  have hLast : ∃ before, new = before ++ [node] := by
    rcases eq_nil_or_concat new with hNone | ⟨before, last, hSplit⟩
    · have hMem := (hAll node).mpr .refl
      rw [hNone] at hMem
      cases hMem
    · rw [concat_eq_append] at hSplit
      rcases hFed before last [] hSplit with rfl | ⟨p, hp, _⟩
      · exact ⟨before, hSplit⟩
      · cases hp
  obtain ⟨before, hSplit⟩ := hLast
  refine ⟨order', before, hSearch, hNodes.trans hSplit, hNodes ▸ hAdds.nodup, fun x => ?_, ?_⟩
  · rw [hNodes]
    exact hAll x
  · rw [hNodes]
    exact hFed

end

end PostOrder

end Library
