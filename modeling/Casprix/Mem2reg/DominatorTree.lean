import Casprix.Mem2reg.DominatorRounds

/-! The fields that the dominator pass leaves in the blocks are the dominator tree. -/
namespace Casprix.Mem2reg

open Function List Library Mir

variable {func : MirFunction} {rpo : List MirBlockId} {idom : MirBlockId → Option MirBlockId}
  {b c : MirBlockId}

/-- The entry is its own immediate dominator, each other block has its own one, and the children
of a block are the blocks that it immediately dominates. -/
structure IsDominatorTree (func : MirFunction) (tree : DomTree) : Prop where
  entry : func.blocks ≠ [] → tree.idom 0 = some 0
  immediate : ∀ b < func.blocks.length, b ≠ 0 →
    ∃ c, tree.idom b = some c ∧ ImmediatelyDominates (Leads func) 0 c b
  children_iff : ∀ b c, c < func.blocks.length → (b ∈ tree.domChildren c ↔
    b < func.blocks.length ∧ b ≠ 0 ∧ ImmediatelyDominates (Leads func) 0 c b)
  nodup : ∀ c < func.blocks.length, (tree.domChildren c).Nodup

theorem resetAll_eq {α : Type} (value : α) (blocks : List MirBlockId) (field : MirBlockId → α)
    (b : MirBlockId) : resetAll value blocks field b = if b ∈ blocks then value else field b := by
  unfold resetAll
  induction blocks generalizing field with
  | nil => rfl
  | cons bb rest ih =>
    rw [foldl_cons, ih]
    by_cases hSame : b = bb
    · rw [hSame, update_self, if_pos mem_cons_self, ite_self]
    · have hMem : b ∈ bb :: rest ↔ b ∈ rest := mem_cons.trans (or_iff_right hSame)
      rw [update_of_ne hSame]
      simp only [hMem]

theorem foldl_addChild (rest : List MirBlockId) (children : MirBlockId → List MirBlockId)
    (c : MirBlockId) : rest.foldl (addChild idom) children c =
      children c ++ rest.filter fun b => idom b = some c ∧ c ≠ b := by
  induction rest generalizing children with
  | nil => exact (append_nil _).symm
  | cons bb rest ih =>
    rw [foldl_cons, ih]
    have hStep : addChild idom children bb c =
        children c ++ [bb].filter fun b => idom b = some c ∧ c ≠ b := by
      unfold addChild
      cases hUp : idom bb with
      | none => simp [hUp]
      | some parent =>
        dsimp only
        by_cases hSelf : parent = bb
        · rw [if_pos hSelf]
          simpa [hUp, hSelf] using fun hEq : bb = c => hEq.symm
        · rw [if_neg hSelf]
          by_cases hSame : c = parent
          · subst hSame
            rw [update_self]
            simp [hUp, hSelf]
          · rw [update_of_ne hSame]
            simpa [hUp] using fun hEq : parent = c => absurd hEq.symm hSame
    rw [hStep, append_assoc, ← filter_append]
    rfl

/-- Fuel for the searches and for every round. -/
def enoughFuel (func : MirFunction) : Nat :=
  func.blocks.length * func.blocks.length + 2 * func.blocks.length + 2

section

variable (hOrdered : Ordered func rpo)
include hOrdered

theorem potential_le
    (hListed : ∀ b c, b < func.blocks.length → idom b = some c → c < func.blocks.length) :
    potential func rpo idom ≤ func.blocks.length * func.blocks.length := by
  have hEach : ∀ w ∈ rpo.map (weight func rpo idom), w ≤ func.blocks.length := by
    intro w hw
    obtain ⟨b, hb, rfl⟩ := mem_map.mp hw
    unfold weight
    cases hUp : idom b with
    | none => exact le_rfl
    | some c =>
      have hIndex := hOrdered.index_lt (hListed b c ((hOrdered.rpo.mem_iff b).mp hb) hUp)
      dsimp only
      omega
  have hSum := sum_le_card_nsmul _ _ hEach
  rwa [length_map, hOrdered.rpo.length_eq, nsmul_eq_mul] at hSum

theorem listedIdom_start (before : MirBlockId → Option MirBlockId) :
    listedIdom func (update (resetAll none rpo before) 0 (some 0)) = entryOnly 0 := by
  funext b
  unfold listedIdom entryOnly
  by_cases hSame : b = 0
  · rw [hSame, if_pos hOrdered.entry_lt, update_self, update_self]
  · rw [update_of_ne hSame, update_of_ne hSame]
    by_cases hb : b < func.blocks.length
    · rw [if_pos hb, resetAll_eq, if_pos ((hOrdered.rpo.mem_iff b).mpr hb)]
    · rw [if_neg hb]

theorem iterate_start {rest : List MirBlockId} (hRpo : rpo = 0 :: rest)
    {fuel : Nat} (hFuel : enoughFuel func ≤ fuel) (before : MirBlockId → Option MirBlockId) :
    ∃ idom, iterate func (rpoIndexMap rpo) fuel rest fuel
        (update (resetAll none rpo before) 0 (some 0)) = some idom ∧
      Holds func rpo func.blocks.length idom ∧ Settled (Leads func) 0 (listedIdom func idom) := by
  unfold enoughFuel at hFuel
  have hStart := listedIdom_start hOrdered before
  have hHolds : Holds func rpo 1 (update (resetAll none rpo before) 0 (some 0)) := by
    unfold Holds
    rw [hStart]
    exact progress_entryOnly hOrdered.ranked
  have hPotential : potential func rpo (update (resetAll none rpo before) 0 (some 0)) ≤
      func.blocks.length * func.blocks.length := by
    refine potential_le hOrdered fun b c hb hUp => ?_
    have hField := (congrFun hStart b).symm.trans (listedIdom_of_lt hb)
    exact (entryOnly_eq_some (hField.trans hUp)).2 ▸ hOrdered.entry_lt
  exact iterate_eq hOrdered (by omega) hRpo hHolds (by omega)

/-- Fields `idom` that a round does not change make the dominator tree. -/
theorem isDominatorTree_of_settled {rest : List MirBlockId}
    (hRpo : rpo = 0 :: rest) (h : Holds func rpo func.blocks.length idom)
    (hSettled : Settled (Leads func) 0 (listedIdom func idom))
    (before : MirBlockId → List MirBlockId) :
    IsDominatorTree func
      { idom, domChildren := rest.foldl (addChild idom) (resetAll [] rpo before) } := by
  have hImmediate : ∀ b c, b < func.blocks.length → b ≠ 0 → idom b = some c →
      ImmediatelyDominates (Leads func) 0 c b := fun b c hb hOther hUp =>
    h.immediatelyDominates hSettled (hOrdered.connected.reachable b hb) hOther
      ((listedIdom_of_lt hb).trans hUp)
  have hFound : ∀ b < func.blocks.length, b ≠ 0 → ∃ c, idom b = some c := by
    intro b hb hOther
    obtain ⟨c, hUp, _⟩ := hSettled b (hOrdered.connected.reachable b hb) hOther
    exact ⟨c, (listedIdom_of_lt hb).symm.trans hUp⟩
  have hApart := hOrdered.rpo.nodup
  rw [hRpo, nodup_cons] at hApart
  have hRest : ∀ b, b ∈ rest ↔ b < func.blocks.length ∧ b ≠ 0 := by
    intro b
    rw [← hOrdered.rpo.mem_iff, hRpo, mem_cons]
    refine ⟨fun hb => ⟨Or.inr hb, fun hZero => hApart.1 (hZero ▸ hb)⟩,
      fun hb => hb.1.resolve_left hb.2⟩
  have hChildren : ∀ c < func.blocks.length,
    rest.foldl (addChild idom) (resetAll [] rpo before) c =
      rest.filter fun b => idom b = some c ∧ c ≠ b := by
    intro c hc
    rw [foldl_addChild, resetAll_eq, if_pos ((hOrdered.rpo.mem_iff c).mpr hc), nil_append]
  constructor
  · exact fun _ => (listedIdom_of_lt hOrdered.entry_lt).symm.trans h.entry_self
  · intro b hb hOther
    obtain ⟨c, hUp⟩ := hFound b hb hOther
    exact ⟨c, hUp, hImmediate b c hb hOther hUp⟩
  · intro b c hc
    dsimp only
    rw [hChildren c hc, mem_filter, decide_eq_true_eq, hRest]
    constructor
    · rintro ⟨⟨hb, hOther⟩, hUp, _⟩
      exact ⟨hb, hOther, hImmediate b c hb hOther hUp⟩
    · rintro ⟨hb, hOther, hDominates⟩
      obtain ⟨d, hUp⟩ := hFound b hb hOther
      have hSame := (hImmediate b d hb hOther hUp).unique hDominates
        (hOrdered.connected.reachable b hb)
      exact ⟨⟨hb, hOther⟩, hSame ▸ hUp, hDominates.ne⟩
  · intro c hc
    dsimp only
    rw [hChildren c hc]
    exact hApart.2.filter _

end

theorem dominators_correct (hConnected : Connected func) (hRoom : func.blocks.length ≤ maxBlocks)
    (before : DomTree) {fuel : Nat} (hFuel : enoughFuel func ≤ fuel) :
    ∃ tree, mirComputeDominators func fuel before = some tree ∧ IsDominatorTree func tree := by
  by_cases hEntry : func.blocks = []
  · have hNone : ∀ b, ¬b < func.blocks.length := by
      rw [hEntry]
      exact fun b => Nat.not_lt_zero b
    refine ⟨before, ?_, ?_⟩
    · unfold mirComputeDominators computeRpo
      rw [hEntry]
      rfl
    · constructor
      · exact fun h => absurd hEntry h
      · exact fun b hb => absurd hb (hNone b)
      · exact fun b c hc => absurd hc (hNone c)
      · exact fun c hc => absurd hc (hNone c)
  · have hSearch : func.blocks.length < fuel := by
      unfold enoughFuel at hFuel
      omega
    obtain ⟨rpo, hRpo, hCompute⟩ := computeRpo_iff hConnected hEntry hSearch
    rw [if_pos hRoom] at hCompute
    have hOrdered : Ordered func rpo := { connected := hConnected, rpo := hRpo }
    obtain ⟨rest, hFirst⟩ := hRpo.first
    obtain ⟨idom, hIterate, hHolds, hSettled⟩ := iterate_start hOrdered hFirst hFuel before.idom
    refine ⟨_, ?_, isDominatorTree_of_settled hOrdered hFirst hHolds
      hSettled before.domChildren⟩
    unfold mirComputeDominators
    rw [hCompute, hFirst]
    rw [hFirst] at hIterate
    dsimp only [Option.bind_some]
    rw [hIterate]
    rfl

/-- What the pass leaves in the blocks is the dominator tree. -/
theorem isDominatorTree_of_compute (hConnected : Connected func)
    {before tree : DomTree} {fuel : Nat}
    (hFuel : enoughFuel func ≤ fuel) (h : mirComputeDominators func fuel before = some tree) :
    IsDominatorTree func tree := by
  by_cases hRoom : func.blocks.length ≤ maxBlocks
  · obtain ⟨tree', hCompute, hCorrect⟩ := dominators_correct hConnected hRoom before hFuel
    rw [h, Option.some.injEq] at hCompute
    rwa [hCompute]
  · have hEntry : func.blocks ≠ [] := by
      intro hNone
      rw [hNone] at hRoom
      exact hRoom (Nat.zero_le _)
    have hSearch : func.blocks.length < fuel := by
      unfold enoughFuel at hFuel
      omega
    obtain ⟨rpo, _, hCompute⟩ := computeRpo_iff hConnected hEntry hSearch
    unfold mirComputeDominators at h
    rw [hCompute, if_neg hRoom] at h
    cases h

/-- For a function with at most `MAX_BLOCKS` blocks, consistent edge lists and no unreachable
block the pass ends, and leaves the dominator tree in the blocks. -/
theorem mir_compute_dominators_correct (hConnected : Connected func)
    (hRoom : func.blocks.length ≤ maxBlocks) (before : DomTree) {fuel : Nat}
    (hFuel : enoughFuel func ≤ fuel) :
    ∃ tree, mirComputeDominators func fuel before = some tree ∧ IsDominatorTree func tree :=
  dominators_correct hConnected hRoom before hFuel

/-- A loop with two ways in. -/
def twoWaysIn : MirFunction where
  name := "two_ways_in"
  blocks := [
    { insts := [{ op := .condbr 1 (some 1) (some 2) }]
      successors := [1, 2] },
    { insts := [{ op := .br (some 2) }]
      predecessors := [0, 2], successors := [2] },
    { insts := [{ op := .br (some 1) }]
      predecessors := [0, 1], successors := [1] }]

theorem connected_twoWaysIn : Connected twoWaysIn := by
  have hReachable : ∀ b < twoWaysIn.blocks.length, Reachable (Leads twoWaysIn) 0 b := by
    intro b hb
    cases b with
    | zero => exact .refl
    | succ b =>
      have hSucc : b + 1 ∈ twoWaysIn.successors 0 := by
        have hCases : b + 1 = 1 ∨ b + 1 = 2 := by
          have hLt : b + 1 < 3 := hb
          omega
        rcases hCases with hFirst | hSecond
        · rw [hFirst]
          exact mem_cons_self
        · rw [hSecond]
          exact mem_cons_of_mem 1 (mem_singleton_self 2)
      exact .single hSucc
  exact connected_of_cfgConsistent (by decide) hReachable

theorem twoWaysIn_dominators :
    ∃ tree, mirComputeDominators twoWaysIn 17
    { idom := fun _ => none, domChildren := fun _ => [] } =
      some tree ∧ IsDominatorTree twoWaysIn tree :=
  mir_compute_dominators_correct connected_twoWaysIn (by decide) _ (by decide)

end Casprix.Mem2reg
