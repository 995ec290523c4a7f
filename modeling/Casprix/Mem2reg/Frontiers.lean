import Casprix.Mem2reg.DominatorTree

/-! Dominance frontiers, found by running up the dominator tree from the predecessors of joins. -/
namespace Casprix.Mem2reg

open List Library Mir Function

variable {func : MirFunction} {idom : MirBlockId → Option MirBlockId}
  {frontiers : MirBlockId → List MirBlockId} {a b c d bb runner x : MirBlockId}

/-- Adds `bb` to the frontier of the runner, if it is not there. -/
def addFrontier (bb runner : MirBlockId) (frontiers : MirBlockId → List MirBlockId) :
    MirBlockId → List MirBlockId :=
  if bb ∈ frontiers runner then frontiers
  else update frontiers runner (frontiers runner ++ [bb])

/-- `while (runner != bb->idom)`. `none` where the fuel ends. -/
def walkRunner (idom : MirBlockId → Option MirBlockId) (bb : MirBlockId) :
    Nat → (MirBlockId → List MirBlockId) → MirBlockId →
      Option (MirBlockId → List MirBlockId)
  | 0, _, _ => none
  | fuel + 1, frontiers, runner =>
    if some runner ≠ idom bb then
      match idom runner with
      | some above => walkRunner idom bb fuel (addFrontier bb runner frontiers) above
      | none => some (addFrontier bb runner frontiers)
    else some frontiers

/-- One block of the list. Only joins are in frontiers. -/
def joinFrontiers (func : MirFunction) (idom : MirBlockId → Option MirBlockId) (fuel : Nat)
    (frontiers : MirBlockId → List MirBlockId) (bb : MirBlockId) :
    Option (MirBlockId → List MirBlockId) :=
  if (func.predecessors bb).length < 2 then some frontiers
  else (func.predecessors bb).foldlM (walkRunner idom bb fuel) frontiers

def mirComputeDomFrontiers (func : MirFunction) (idom : MirBlockId → Option MirBlockId)
    (fuel : Nat) : Option (MirBlockId → List MirBlockId) :=
  (List.range func.blocks.length).foldlM (joinFrontiers func idom fuel) fun _ => []

/-- `b` dominates a predecessor of `y`, and does not strictly dominate `y`. -/
def InFrontier (func : MirFunction) (y b : MirBlockId) : Prop :=
  (∃ p ∈ func.predecessors y, Dominates (Leads func) 0 b p) ∧
    ¬(Dominates (Leads func) 0 b y ∧ b ≠ y)

/-- The frontiers have received the blocks that are named, and no block twice. -/
structure Received (frontiers frontiers' : MirBlockId → List MirBlockId)
    (named : MirBlockId → MirBlockId → Prop) : Prop where
  mem_iff : ∀ x b, x ∈ frontiers' b ↔ x ∈ frontiers b ∨ named x b
  nodup : (∀ b, (frontiers b).Nodup) → ∀ b, (frontiers' b).Nodup

theorem received_none (frontiers : MirBlockId → List MirBlockId) :
    Received frontiers frontiers fun _ _ => False where
  mem_iff _ _ := (or_false _).symm ▸ Iff.rfl
  nodup h := h

theorem Received.congr {frontiers' : MirBlockId → List MirBlockId}
    {named named' : MirBlockId → MirBlockId → Prop} (h : Received frontiers frontiers' named)
    (hSame : ∀ x b, named x b ↔ named' x b) : Received frontiers frontiers' named' where
  mem_iff x b := (h.mem_iff x b).trans (or_congr_right (hSame x b))
  nodup := h.nodup

theorem Received.trans {frontiers' frontiers'' : MirBlockId → List MirBlockId}
    {named named' : MirBlockId → MirBlockId → Prop} (h : Received frontiers frontiers' named)
    (h' : Received frontiers' frontiers'' named') :
    Received frontiers frontiers'' fun x b => named x b ∨ named' x b where
  mem_iff x b := by rw [h'.mem_iff, h.mem_iff, or_assoc]
  nodup hNodup := h'.nodup (h.nodup hNodup)

theorem received_addFrontier (bb runner : MirBlockId) (frontiers : MirBlockId → List MirBlockId) :
    Received frontiers (addFrontier bb runner frontiers) fun x b => x = bb ∧ b = runner := by
  unfold addFrontier
  by_cases hMem : bb ∈ frontiers runner
  · rw [if_pos hMem]
    refine ⟨fun x b => ⟨.inl, fun h => h.elim id ?_⟩, id⟩
    rintro ⟨rfl, rfl⟩
    exact hMem
  · rw [if_neg hMem]
    refine ⟨fun x b => ?_, fun hNodup b => ?_⟩
    · by_cases hSame : b = runner
      · rw [hSame, update_self, mem_append, mem_singleton, and_iff_left rfl]
      · rw [update_of_ne hSame]
        exact (or_iff_left fun hNew => hSame hNew.2).symm
    · by_cases hSame : b = runner
      · rw [hSame, update_self]
        exact List.Nodup.append (hNodup runner) (nodup_singleton bb)
          (disjoint_singleton.mpr hMem)
      · rw [update_of_ne hSame]
        exact hNodup b

theorem foldlM_received (step : (MirBlockId → List MirBlockId) → MirBlockId →
      Option (MirBlockId → List MirBlockId))
    {named : MirBlockId → MirBlockId → MirBlockId → Prop}
    (items : List MirBlockId) (frontiers : MirBlockId → List MirBlockId)
    (hStep : ∀ item ∈ items, ∀ frontiers, ∃ frontiers',
      step frontiers item = some frontiers' ∧ Received frontiers frontiers' (named item)) :
    ∃ frontiers', items.foldlM step frontiers = some frontiers' ∧
      Received frontiers frontiers' fun x b => ∃ item ∈ items, named item x b := by
  induction items generalizing frontiers with
  | nil =>
    refine ⟨frontiers, rfl, (received_none frontiers).congr fun x b => ?_⟩
    exact iff_of_false id fun ⟨_, hMem, _⟩ => not_mem_nil hMem
  | cons item rest ih =>
    obtain ⟨middle, hFirst, hReceived⟩ := hStep item mem_cons_self frontiers
    obtain ⟨frontiers', hRest, hOthers⟩ := ih middle
      fun other hOther => hStep other (mem_cons_of_mem item hOther)
    refine ⟨frontiers', ?_, (hReceived.trans hOthers).congr fun x b => ?_⟩
    · rw [foldlM_cons, hFirst]
      exact hRest
    · simp only [mem_cons, exists_eq_or_imp]

section

variable {tree : DomTree}

open Classical in
/-- The blocks that dominate a block. -/
noncomputable def dominators (func : MirFunction) (b : MirBlockId) : Finset MirBlockId :=
  (Finset.range func.blocks.length).filter fun a => Dominates (Leads func) 0 a b

open Classical in
theorem mem_dominators : a ∈ dominators func b ↔
    a < func.blocks.length ∧ Dominates (Leads func) 0 a b := by
  unfold dominators
  rw [Finset.mem_filter, Finset.mem_range]

open Classical in
theorem card_dominators_le (b : MirBlockId) : (dominators func b).card ≤ func.blocks.length := by
  exact (Finset.card_filter_le ..).trans_eq (Finset.card_range _)

theorem card_dominators_lt (h : ImmediatelyDominates (Leads func) 0 c b)
    (hb : b < func.blocks.length) (hReachable : Reachable (Leads func) 0 b) :
    (dominators func c).card < (dominators func b).card := by
  refine Finset.card_lt_card (Finset.ssubset_iff_of_subset ?_ |>.mpr ⟨b, ?_, ?_⟩)
  · intro a ha
    obtain ⟨hListed, hDominates⟩ := mem_dominators.mp ha
    exact mem_dominators.mpr ⟨hListed, hDominates.trans h.dominates⟩
  · exact mem_dominators.mpr ⟨hb, dominates_refl b⟩
  · intro hMem
    have hBelow := (mem_dominators.mp hMem).2
    exact h.ne (h.dominates.antisymm hBelow hReachable)

theorem eq_entry_of_dominates (h : Dominates (Leads func) 0 a 0) : a = 0 := by
  by_contra hOther
  exact h (.entry fun hSame => hOther hSame.symm)

/-- The runner goes up to the immediate dominator of the join, which dominates where it starts. -/
theorem walkRunner_eq (hTree : IsDominatorTree func tree) (hConnected : Connected func)
    (hUp : tree.idom bb = some c) (hAbove : Dominates (Leads func) 0 c runner)
    (hRunner : runner < func.blocks.length)
    (frontiers : MirBlockId → List MirBlockId) {fuel : Nat}
    (hFuel : (dominators func runner).card < fuel) :
    ∃ frontiers', walkRunner tree.idom bb fuel frontiers runner = some frontiers' ∧
      Received frontiers frontiers' fun x b => x = bb ∧
        Dominates (Leads func) 0 b runner ∧ ¬Dominates (Leads func) 0 b c := by
  induction fuel generalizing runner frontiers with
  | zero => cases hFuel
  | succ fuel ih =>
    have hReachable := hConnected.reachable runner hRunner
    rw [walkRunner, hUp]
    by_cases hSame : runner = c
    · subst hSame
      refine ⟨frontiers, if_neg (not_not_intro rfl), (received_none frontiers).congr ?_⟩
      exact fun x b => iff_of_false id fun h => h.2.2 h.2.1
    · have hOther : runner ≠ 0 := by
        intro hEntry
        rw [hEntry] at hAbove hSame
        exact hSame (eq_entry_of_dominates hAbove).symm
      obtain ⟨d, hNext, hImmediate⟩ := hTree.immediate runner hRunner hOther
      have hd := hConnected.lt_of_reachable (length_pos_iff.mp (Nat.zero_lt_of_lt hRunner))
        (hImmediate.dominates.reachable hReachable)
      have hLess := card_dominators_lt hImmediate hRunner hReachable
      obtain ⟨frontiers', hWalk, hReceived⟩ := ih
        (hImmediate.others c hAbove fun hEq => hSame hEq.symm) hd
        (addFrontier bb runner frontiers) (hLess.trans_le (Nat.le_of_lt_succ hFuel))
      refine ⟨frontiers', ?_, ((received_addFrontier bb runner frontiers).trans hReceived).congr
        ?_⟩
      · rw [if_pos fun hEq => hSame (Option.some.inj hEq), hNext]
        exact hWalk
      · intro x b
        constructor
        · rintro (⟨rfl, rfl⟩ | ⟨rfl, hBelow, hNot⟩)
          · refine ⟨rfl, dominates_refl b, fun hBack => hSame ?_⟩
            exact (hAbove.antisymm hBack hReachable).symm
          · exact ⟨rfl, hBelow.trans hImmediate.dominates, hNot⟩
        · rintro ⟨rfl, hBelow, hNot⟩
          by_cases hHere : b = runner
          · exact .inl ⟨rfl, hHere⟩
          · exact .inr ⟨rfl, hImmediate.others b hBelow hHere, hNot⟩

theorem lt_of_mem_predecessors (hConnected : Connected func) (h : a ∈ func.predecessors b) :
    a < func.blocks.length :=
  lt_of_mem_successors ((hConnected.predecessors_iff a b).mp h)

/-- The one predecessor of a block is its immediate dominator. -/
theorem not_inFrontier_of_length_lt (hConnected : Connected func) (hb : b < func.blocks.length)
    (hOther : b ≠ 0) (hShort : (func.predecessors b).length < 2) : ¬InFrontier func b a := by
  rintro ⟨⟨p, hp, hAbove⟩, hNot⟩
  have hOnly : ∀ q, Leads func q b → q = p := by
    intro q hq
    have hMem := (hConnected.predecessors_iff q b).mpr hq
    obtain ⟨only, hSingle⟩ := length_eq_one_iff.mp
      (le_antisymm (Nat.le_of_lt_succ hShort) (length_pos_of_mem hp))
    rw [hSingle, mem_singleton] at hMem hp
    rw [hMem, hp]
  refine hNot ⟨dominates_of_forall_next (fun hEq => hOther hEq.symm) fun q hq => ?_, ?_⟩
  · rwa [hOnly q hq]
  · rintro rfl
    rcases exists_next_not_dominated (hConnected.reachable a hb) with hEntry | ⟨q, hq, hFree, _⟩
    · exact hOther hEntry
    · exact hFree (hOnly q hq ▸ hAbove)

theorem joinFrontiers_eq (hTree : IsDominatorTree func tree) (hConnected : Connected func)
    (hEntry : func.predecessors 0 = []) (hbb : bb < func.blocks.length)
    (frontiers : MirBlockId → List MirBlockId) {fuel : Nat} (hFuel : func.blocks.length < fuel) :
    ∃ frontiers', joinFrontiers func tree.idom fuel frontiers bb = some frontiers' ∧
      Received frontiers frontiers' fun x b => x = bb ∧ InFrontier func bb b := by
  unfold joinFrontiers
  by_cases hZero : bb = 0
  · subst hZero
    refine ⟨frontiers, if_pos (by rw [hEntry]; decide),
      (received_none frontiers).congr fun x b => ?_⟩
    refine iff_of_false id ?_
    rintro ⟨_, ⟨p, hp, _⟩, _⟩
    rw [hEntry] at hp
    cases hp
  · by_cases hShort : (func.predecessors bb).length < 2
    · refine ⟨frontiers, if_pos hShort, (received_none frontiers).congr fun x b => ?_⟩
      exact iff_of_false id fun h => not_inFrontier_of_length_lt hConnected hbb hZero hShort h.2
    · rw [if_neg hShort]
      obtain ⟨c, hUp, hImmediate⟩ := hTree.immediate bb hbb hZero
      have hReachable := hConnected.reachable bb hbb
      have hStrict : ∀ b, Dominates (Leads func) 0 b c ↔
          Dominates (Leads func) 0 b bb ∧ b ≠ bb := by
        intro b
        refine ⟨fun h => ⟨h.trans hImmediate.dominates, ?_⟩, fun h =>
          hImmediate.others b h.1 h.2⟩
        rintro rfl
        exact hImmediate.ne (hImmediate.dominates.antisymm h hReachable)
      obtain ⟨frontiers', hFold, hReceived⟩ := foldlM_received (walkRunner tree.idom bb fuel)
        (func.predecessors bb) frontiers fun p hp frontiers =>
        have hNext := (hConnected.predecessors_iff p bb).mp hp
        walkRunner_eq hTree hConnected hUp
          (dominates_of_next hImmediate.dominates hNext fun hEq => hImmediate.ne hEq.symm)
          (lt_of_mem_predecessors hConnected hp) frontiers
          ((card_dominators_le p).trans_lt hFuel)
      refine ⟨frontiers', hFold, hReceived.congr fun x b => ?_⟩
      unfold InFrontier
      rw [← hStrict b]
      constructor
      · rintro ⟨p, hp, hSame, hAbove, hNot⟩
        exact ⟨hSame, ⟨p, hp, hAbove⟩, hNot⟩
      · rintro ⟨hSame, ⟨p, hp, hAbove⟩, hNot⟩
        exact ⟨p, hp, hSame, hAbove, hNot⟩

end

/-- The frontiers of a block are the blocks that have a predecessor dominated by it, and are not
strictly dominated by it themselves. -/
theorem mir_compute_dom_frontiers_exact (hConnected : Connected func)
    (hEntry : func.predecessors 0 = []) {before tree : DomTree} {fuel : Nat}
    (hFuel : enoughFuel func ≤ fuel) (hTree : mirComputeDominators func fuel before = some tree) :
    ∃ frontiers, mirComputeDomFrontiers func tree.idom fuel = some frontiers ∧
      (∀ y b, y ∈ frontiers b ↔ InFrontier func y b) ∧ ∀ b, (frontiers b).Nodup := by
  have hCorrect := isDominatorTree_of_compute hConnected hFuel hTree
  have hSteps : func.blocks.length < fuel := by
    unfold enoughFuel at hFuel
    omega
  obtain ⟨frontiers, hFold, hReceived⟩ := foldlM_received (joinFrontiers func tree.idom fuel)
    (List.range func.blocks.length) (fun _ => []) fun bb hbb frontiers =>
      joinFrontiers_eq hCorrect hConnected hEntry (mem_range.mp hbb) frontiers hSteps
  refine ⟨frontiers, hFold, fun y b => ?_, hReceived.nodup fun _ => nodup_nil⟩
  rw [hReceived.mem_iff, or_iff_right not_mem_nil]
  constructor
  · rintro ⟨_, _, rfl, hIn⟩
    exact hIn
  · intro hIn
    obtain ⟨p, hp, _⟩ := hIn.1
    have hy := hConnected.listed p y ((hConnected.predecessors_iff p y).mp hp)
    exact ⟨y, mem_range.mpr hy, rfl, hIn⟩

theorem twoWaysIn_frontiers :
    ∃ tree, mirComputeDominators twoWaysIn 17
    { idom := fun _ => none, domChildren := fun _ => [] } =
      some tree ∧ ∃ frontiers, mirComputeDomFrontiers twoWaysIn tree.idom 17 =
        some frontiers ∧
        (∀ y b, y ∈ frontiers b ↔ InFrontier twoWaysIn y b) ∧
          ∀ b, (frontiers b).Nodup := by
  have hFuel : enoughFuel twoWaysIn ≤ 17 := by decide
  obtain ⟨tree, hTree, _⟩ := dominators_correct connected_twoWaysIn (by decide)
    { idom := fun _ => none, domChildren := fun _ => [] } hFuel
  exact ⟨tree, hTree, mir_compute_dom_frontiers_exact connected_twoWaysIn rfl hFuel hTree⟩

end Casprix.Mem2reg
