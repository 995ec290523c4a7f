import Casprix.Mem2reg.Dominators

/-! The reverse post-order of a graph of blocks, and the places of blocks in it. -/
namespace Casprix.Mem2reg

open List Library Mir Function

variable {func : MirFunction} {rpo : List MirBlockId} {a b p : MirBlockId} {i j : Nat}

def Leads (func : MirFunction) (a b : MirBlockId) : Prop := b ∈ func.successors a

/-- The lists of predecessors and successors agree, and all blocks are reached from the entry. -/
structure Connected (func : MirFunction) : Prop where
  predecessors_iff : ∀ a b, a ∈ func.predecessors b ↔ b ∈ func.successors a
  listed : ∀ a b, b ∈ func.successors a → b < func.blocks.length
  reachable : ∀ b < func.blocks.length, Reachable (Leads func) 0 b

theorem connected_of_cfgConsistent (h : func.CfgConsistent)
    (hReachable : ∀ b < func.blocks.length, Reachable (Leads func) 0 b) : Connected func where
  predecessors_iff := h.predecessors_iff
  listed := h.listed
  reachable := hReachable

theorem lt_of_mem_successors (h : b ∈ func.successors a) : a < func.blocks.length := by
  by_contra hNot
  have hNone : func.block? a = none := getElem?_eq_none (Nat.le_of_not_lt hNot)
  unfold MirFunction.successors at h
  rw [hNone] at h
  cases h

theorem Connected.lt_of_reachable (h : Connected func) (hEntry : func.blocks ≠ [])
    (hb : Reachable (Leads func) 0 b) : b < func.blocks.length := by
  cases hb with
  | refl => exact length_pos_iff.mpr hEntry
  | tail _ hNext => exact h.listed _ b hNext

/-- All blocks, each once, and each but the entry after one that leads to it. -/
structure IsRpo (func : MirFunction) (rpo : List MirBlockId) : Prop where
  nodup : rpo.Nodup
  mem_iff : ∀ b, b ∈ rpo ↔ b < func.blocks.length
  first : ∃ rest, rpo = 0 :: rest
  forward : ∀ early b late, rpo = early ++ b :: late → b = 0 ∨
    ∃ p ∈ early, b ∈ func.successors p

theorem dfsPostOrder_eq (h : Connected func) (hEntry : func.blocks ≠ []) {fuel : Nat}
    (hFuel : func.blocks.length < fuel) :
    ∃ order, dfsPostOrder func fuel 0 PostOrder.start = some order ∧
      IsRpo func order.nodes.reverse := by
  have hClosed : ∀ x ∈ List.range func.blocks.length,
      func.successors x ⊆ List.range func.blocks.length :=
    fun x _ y hy => mem_range.mpr (h.listed x y hy)
  obtain ⟨order, before, hSearch, hLast, hNodup, hMem, hFed⟩ := PostOrder.search_start hClosed
    (mem_range.mpr (length_pos_iff.mpr hEntry))
    (length_range (n := func.blocks.length) ▸ hFuel)
  refine ⟨order, hSearch, ?_, fun b => ?_, ?_, ?_⟩
  · exact nodup_reverse.mpr hNodup
  · exact mem_reverse.trans ((hMem b).trans ⟨h.lt_of_reachable hEntry, h.reachable b⟩)
  · exact ⟨before.reverse, by rw [hLast, reverse_append]; rfl⟩
  · intro early b late hSplit
    have hOrder : order.nodes = late.reverse ++ b :: early.reverse := by
      rw [← reverse_reverse order.nodes, hSplit, reverse_append, reverse_cons, append_assoc]
      rfl
    rcases hFed _ b _ hOrder with hRoot | ⟨p, hp, hEdge⟩
    · exact Or.inl hRoot
    · exact Or.inr ⟨p, mem_reverse.mp hp, hEdge⟩

theorem computeRpo_iff (h : Connected func) (hEntry : func.blocks ≠ []) {fuel : Nat}
    (hFuel : func.blocks.length < fuel) :
    ∃ rpo, IsRpo func rpo ∧
      computeRpo func fuel = if func.blocks.length ≤ maxBlocks then some rpo else none := by
  obtain ⟨order, hSearch, hRpo⟩ := dfsPostOrder_eq h hEntry hFuel
  have hListed : ∀ b, b ∈ order.nodes ↔ b < func.blocks.length := fun b =>
    mem_reverse.symm.trans (hRpo.mem_iff b)
  have hAll : order.nodes.all (· < maxBlocks) = true ↔ func.blocks.length ≤ maxBlocks := by
    rw [all_eq_true]
    constructor
    · intro hEach
      have hLt := Nat.pred_lt (length_pos_iff.mpr hEntry).ne'
      exact Nat.le_of_pred_lt (of_decide_eq_true (hEach _ ((hListed _).mpr hLt)))
    · exact fun hRoom b hb => decide_eq_true (((hListed b).mp hb).trans_le hRoom)
  refine ⟨order.nodes.reverse, hRpo, ?_⟩
  unfold computeRpo
  cases hBlocks : func.blocks with
  | nil => exact absurd hBlocks hEntry
  | cons block rest =>
    rw [hBlocks] at hAll
    rw [hSearch, Option.bind_some]
    simp only [hAll]

theorem rpoIndexMap_concat (rpo : List MirBlockId) (b : MirBlockId) :
    rpoIndexMap (rpo ++ [b]) = update (rpoIndexMap rpo) b (rpo.length : Int) := by
  unfold rpoIndexMap
  rw [zipIdx_append, foldl_append]
  simp

/-- The index map gives the place of each block. -/
theorem rpoIndexMap_of_getElem? (hNodup : rpo.Nodup) (h : rpo[i]? = some b) :
    rpoIndexMap rpo b = i := by
  induction rpo using List.reverseRecOn generalizing i with
  | nil => cases h
  | append_singleton rest last ih =>
    rw [rpoIndexMap_concat]
    have hApart := nodup_append.mp hNodup
    by_cases hi : i < rest.length
    · rw [getElem?_append_left hi] at h
      have hOther : b ≠ last := hApart.2.2 b (mem_of_getElem? h) last (mem_singleton_self last)
      rw [update_of_ne hOther]
      exact ih hApart.1 h
    · rw [getElem?_append_right (Nat.le_of_not_lt hi)] at h
      have hLast : i - rest.length = 0 := by
        have hLt := (List.getElem?_eq_some_iff.mp h).1
        rw [length_singleton] at hLt
        exact Nat.lt_one_iff.mp hLt
      rw [hLast, getElem?_cons_zero, Option.some.injEq] at h
      rw [← h, update_self, le_antisymm (Nat.le_of_sub_eq_zero hLast) (Nat.le_of_not_lt hi)]

theorem IsRpo.exists_place (h : IsRpo func rpo) (hb : b < func.blocks.length) :
    ∃ i : Nat, rpo[i]? = some b ∧ rpoIndexMap rpo b = i := by
  obtain ⟨i, hi⟩ := mem_iff_getElem?.mp ((h.mem_iff b).mpr hb)
  exact ⟨i, hi, rpoIndexMap_of_getElem? h.nodup hi⟩

theorem IsRpo.length_eq (h : IsRpo func rpo) : rpo.length = func.blocks.length := by
  have hPerm : rpo.Perm (List.range func.blocks.length) :=
    (perm_ext_iff_of_nodup h.nodup nodup_range).mpr fun b =>
      (h.mem_iff b).trans mem_range.symm
  rw [hPerm.length_eq, length_range]

/-- Places are ranks of the kind that the iteration needs. -/
theorem IsRpo.ranked (h : IsRpo func rpo) (hConnected : Connected func)
    (hEntry : func.blocks ≠ []) :
    Ranked (Leads func) 0 (rpoIndexMap rpo) where
  entry_lt b hb hOther := by
    obtain ⟨i, hi, hPlace⟩ := h.exists_place (hConnected.lt_of_reachable hEntry hb)
    obtain ⟨rest, hFirst⟩ := h.first
    have hZero : rpoIndexMap rpo 0 = (0 : Nat) :=
      rpoIndexMap_of_getElem? h.nodup (by rw [hFirst]; rfl)
    rw [hZero, hPlace]
    refine Int.ofNat_lt.mpr (Nat.pos_of_ne_zero fun hSame => hOther ?_)
    rw [hSame, hFirst, getElem?_cons_zero, Option.some.injEq] at hi
    exact hi.symm
  injective a b ha hb hEq := by
    obtain ⟨i, hi, hPlace⟩ := h.exists_place (hConnected.lt_of_reachable hEntry ha)
    obtain ⟨j, hj, hPlace'⟩ := h.exists_place (hConnected.lt_of_reachable hEntry hb)
    rw [hPlace, hPlace', Int.ofNat_inj] at hEq
    rw [hEq, hj, Option.some.injEq] at hi
    exact hi.symm
  forward b hb hOther := by
    obtain ⟨i, hi, hPlace⟩ := h.exists_place (hConnected.lt_of_reachable hEntry hb)
    obtain ⟨hLt, hGet⟩ := List.getElem?_eq_some_iff.mp hi
    have hSplit : rpo = rpo.take i ++ b :: rpo.drop (i + 1) := by
      rw [← hGet, getElem_cons_drop, take_append_drop]
    rcases h.forward _ b _ hSplit with hZero | ⟨p, hp, hEdge⟩
    · exact absurd hZero hOther
    · have hListed := lt_of_mem_successors hEdge
      obtain ⟨j, hj⟩ := mem_iff_getElem?.mp hp
      have hjLt : j < i := by
        have hShort := (List.getElem?_eq_some_iff.mp hj).1
        rw [length_take] at hShort
        omega
      rw [getElem?_take_of_lt hjLt] at hj
      refine ⟨p, hEdge, hConnected.reachable p hListed, ?_⟩
      rw [hPlace, rpoIndexMap_of_getElem? h.nodup hj]
      exact Int.ofNat_lt.mpr hjLt

end Casprix.Mem2reg
