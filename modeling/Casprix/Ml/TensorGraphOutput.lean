import Casprix.Ml.TensorGraphPasses

/-! When the optimised graph still computes the output. -/
namespace Casprix.Ml

open List

section

variable {F V : Type} [IRScalar F] {nodes : List (IRNode F)} {node producer fused last : IRNode F}
  {i p v r : Nat} {interp : IRInterp F V} {ρ env : Nat → V} {ids : List Nat} {tail : IRNode F}
  {t : Nat} {b : Bool} {counts : Nat → Nat}

theorem Kept.irConstantFold (h : Kept interp ρ ids nodes) :
    Kept interp ρ ids (irConstantFold nodes) := by
  apply List.foldlRecOn (motive := fun nodes => Kept interp ρ ids nodes) _ _ h
  exact fun _ hKept i _ => hKept.foldAt i

theorem Kept.fuseAt (h : Kept interp ρ ids nodes) (hUsers : SingleUsers counts nodes) (i : Nat) :
    Kept interp ρ ids (fuseAt counts nodes i) ∧ SingleUsers counts (fuseAt counts nodes i) := by
  rcases fuseAt_cases counts nodes i with hSame | ⟨p, node, producer, fused, hFusion, hNew⟩
  · rw [hSame]
    exact ⟨h, hUsers⟩
  · rw [hNew]
    exact ⟨⟨hFusion.outputs.trans h.outputs, hFusion.order h.order hUsers,
      hFusion.sound h.order h.sound⟩,
      hFusion.singleUsers h.order hUsers⟩

/-- The last node with its output, and whether it remains. -/
def EndsWith (t output : Nat) (eliminated : Bool) (nodes : List (IRNode F)) : Prop :=
  ∃ last, nodes[t]? = some last ∧ last.output = output ∧ last.eliminated = eliminated

theorem EndsWith.fuseAt {output : Nat} (h : EndsWith t output b nodes)
    (hKept : Kept interp ρ ids nodes) (hLast : t + 1 = ids.length) (hi : i < ids.length) :
    EndsWith t output b (fuseAt counts nodes i) := by
  rcases fuseAt_cases counts nodes i with hSame | ⟨p, node, producer, fused, hFusion, hNew⟩
  · rw [hSame]
    exact h
  · obtain ⟨last, hAt, hOutput, hEliminated⟩ := h
    have hLt := hFusion.lt hKept.order
    rw [hNew, EndsWith, hFusion.get, if_neg (by omega : t ≠ p)]
    by_cases hConsumer : t = i
    · rw [if_pos hConsumer]
      rw [hConsumer, hFusion.consumerAt] at hAt
      cases hAt
      have hFused := fusedNode_kept hFusion.fusedBy
      exact ⟨fused, rfl, hFused.1.trans hOutput, hFused.2.1.trans hEliminated⟩
    · rw [if_neg hConsumer]
      exact ⟨last, hAt, hOutput, hEliminated⟩

theorem Kept.irFuseOps {output : Nat} (h : Kept interp ρ ids nodes)
    (hEnd : EndsWith t output b nodes) (hLast : t + 1 = ids.length) :
    Kept interp ρ ids (irFuseOps nodes) ∧ EndsWith t output b (irFuseOps nodes) := by
  have hRun : (Kept interp ρ ids (Ml.irFuseOps nodes) ∧
    SingleUsers (useCount nodes) (Ml.irFuseOps nodes)) ∧
      EndsWith t output b (Ml.irFuseOps nodes) := by
    apply List.foldlRecOn (motive := fun current =>
      (Kept interp ρ ids current ∧ SingleUsers (useCount nodes) current) ∧
        EndsWith t output b current)
    · exact ⟨⟨h, singleUsers_useCount⟩, hEnd⟩
    · rintro current ⟨⟨hKept, hUsers⟩, hEnd⟩ i hi
      rw [mem_range, h.length] at hi
      exact ⟨hKept.fuseAt hUsers i, hEnd.fuseAt hKept hLast hi⟩
  exact ⟨hRun.1.1, hRun.2⟩

/-- The last node before the walk of the constant folder comes to it. -/
def Reaches (t output : Nat) (b : Bool) (nodes : List (IRNode F)) : Prop :=
  ∃ last, nodes[t]? = some last ∧ last.output = output ∧
    last.eliminated = false ∧ scalesByOne last = b

theorem Reaches.foldAt {output : Nat} (h : Reaches t output b nodes) (hi : i < t) :
    Reaches t output b (foldAt nodes i) := by
  rcases foldAt_cases nodes i with hSame | ⟨node, r, _, _, _, hNew⟩
  · rw [hSame]
    exact h
  · obtain ⟨last, hAt, hOutput, hLive, hScale⟩ := h
    rw [hNew]
    refine ⟨last.replaceInput node.output r, ?_, ?_, ?_, ?_⟩
    · rw [forwarded_get_gt hi, hAt, Option.map_some]
    · rw [replaceInput_output, hOutput]
    · rw [replaceInput_eliminated, hLive]
    · rw [scalesByOne, replaceInput_eliminated, replaceInput_op, replaceInput_attrs]
      exact hScale

/-- The walk eliminates the last node when that is a scale by one. -/
theorem endsWith_irConstantFold (hKept : Kept interp ρ ids nodes)
    (hLast : t + 1 = ids.length) {output : Nat}
    (h : Reaches t output b nodes) : EndsWith t output b (irConstantFold nodes) := by
  have hRun : Reaches t output b ((List.range t).foldl foldAt nodes) ∧
      Kept interp ρ ids ((List.range t).foldl foldAt nodes) := by
    apply List.foldlRecOn (motive := fun current => Reaches t output b current ∧
      Kept interp ρ ids current)
    · exact ⟨h, hKept⟩
    · rintro current ⟨hReaches, hKept⟩ i hi
      exact ⟨hReaches.foldAt (mem_range.mp hi), hKept.foldAt i⟩
  obtain ⟨⟨last, hAt, hOutput, hLive, hScale⟩, hKept'⟩ := hRun
  rw [irConstantFold, hKept.length, ← hLast, range_succ, foldl_append, foldl_cons, foldl_nil]
  cases b with
  | true =>
    obtain ⟨r, hInputs⟩ := hKept'.order.inputs_of_scalesByOne hAt hScale
    have hInput : last.inputs.head? = some r := by rw [hInputs, head?_cons]
    rw [foldAt_of_scalesByOne hAt hScale hInput]
    refine ⟨last.eliminate, ?_, hOutput, rfl⟩
    rw [forwarded_get, hAt, Option.map_some, if_pos rfl]
  | false =>
    rcases foldAt_cases ((List.range t).foldl foldAt nodes) t with hSame |
      ⟨node, r, hNode, hScale', _⟩
    · rw [hSame]
      exact ⟨last, hAt, hOutput, hLive⟩
    · rw [hAt] at hNode
      cases hNode
      rw [hScale] at hScale'
      cases hScale'

omit [IRScalar F] in
theorem endsWith_irDce {output : Nat} (hLast : t + 1 = nodes.length)
    (h : EndsWith t output b nodes) :
    EndsWith t output b (irDce nodes) := by
  obtain ⟨last, hAt, hKept⟩ := h
  exact ⟨last, (irDce_get_last hLast).trans hAt, hKept⟩

theorem irOptimize_eq_irDce (hKept : Kept interp ρ ids nodes)
    (hLast : t + 1 = ids.length) {output : Nat} (h : Reaches t output b nodes) :
    ∃ fusedNodes, irOptimize nodes = irDce fusedNodes ∧ Kept interp ρ ids fusedNodes ∧
      EndsWith t output b fusedNodes := by
  have hDce : Reaches t output b (irDce nodes) := by
    obtain ⟨last, hAt, hRest⟩ := h
    exact ⟨last, (irDce_get_last (hLast.trans hKept.length.symm)).trans hAt, hRest⟩
  have hFold := endsWith_irConstantFold hKept.irDce hLast hDce
  exact ⟨irFuseOps (irConstantFold (irDce nodes)), rfl,
    hKept.irDce.irConstantFold.irFuseOps hFold hLast⟩

omit [IRScalar F] in
theorem lastLive_eq_some (hAt : nodes[t]? = some last) (hLast : t + 1 = nodes.length)
    (hLive : last.eliminated = false) : lastLive nodes = some last := by
  have hGet : nodes.getLast? = some last := by
    rw [getLast?_eq_getElem?, ← hLast]
    exact hAt
  obtain ⟨front, rfl⟩ := List.getLast?_eq_some_iff.mp hGet
  have hKept : [last].filter (fun node => !node.eliminated) = [last] := by
    rw [filter_singleton, hLive]
    rfl
  rw [lastLive, filter_append, hKept, getLast?_concat]

omit [IRScalar F] in
theorem lastLive_irDce_eq_none (hOrder : SsaOrder nodes) (hLast : t + 1 = nodes.length)
    (hAt : nodes[t]? = some last) (hEliminated : last.eliminated = true) :
    lastLive (irDce nodes) = none := by
  have hOrder' := hOrder.irDce
  -- A node that remains is read by a later one, and so on to the end.
  have hNone : ∀ n k node, k + n = nodes.length → (irDce nodes)[k]? = some node →
      node.eliminated = true := by
    intro n
    induction n using Nat.strongRecOn with
    | ind n ih =>
      intro k node hk hNode
      by_contra hNot
      have hLive : node.eliminated = false := Bool.eq_false_iff.mpr hNot
      have hNotLast : k + 1 ≠ (irDce nodes).length := by
        rw [length_irDce]
        intro hEnd
        obtain rfl : k = t := by omega
        rw [irDce_get_last hLast, hAt] at hNode
        cases hNode
        exact hNot hEliminated
      have hUsed : useCount (irDce nodes) node.output ≠ 0 := by
        have hDead := not_deadAt_irDce hNode
        rw [deadAt, hLive, bne_iff_ne.mpr hNotLast] at hDead
        exact beq_eq_false_iff_ne.mp hDead
      obtain ⟨user, hUser, hUserLive, hRead⟩ :
        ∃ user ∈ irDce nodes, user.eliminated = false ∧
          node.output ∈ user.inputs := by
        by_contra hNoUser
        apply hUsed
        rw [useCount_eq_zero_iff]
        exact fun user hUser hLive hRead => hNoUser ⟨user, hUser, hLive, hRead⟩
      obtain ⟨k', hk'⟩ := mem_iff_getElem?.mp hUser
      have hOutput : node.output ∈ outputs (irDce nodes) := mem_map_of_mem (mem_of_getElem? hNode)
      obtain ⟨j, hj, m, hm, _, hSame⟩ := hOrder'.before k' user hk' hUserLive _ hRead hOutput
      obtain rfl := hOrder'.index_unique hNode hm hSame
      have hLt := (List.getElem?_eq_some_iff.mp hk').1
      rw [length_irDce] at hLt
      have hGone := ih (nodes.length - k') (by omega) k' user (by omega) hk'
      rw [hUserLive] at hGone
      cases hGone
  have hEmpty : (irDce nodes).filter (fun node => !node.eliminated) = [] := by
    rw [filter_eq_nil_iff]
    intro node hNode
    obtain ⟨k, hk⟩ := mem_iff_getElem?.mp hNode
    have hLt := (List.getElem?_eq_some_iff.mp hk).1
    rw [length_irDce] at hLt
    rw [hNone (nodes.length - k) k node (by omega) hk]
    exact Bool.false_ne_true
  rw [lastLive, hEmpty, getLast?_nil]

omit [IRScalar F] in
theorem SsaOrder.inputsRemain (h : SsaOrder nodes) : InputsRemain nodes := by
  intro node hNode hLive v hv hOutput
  obtain ⟨i, hi⟩ := mem_iff_getElem?.mp hNode
  obtain ⟨_, _, m, hm, hmLive, hmOutput⟩ := h.before i node hi hLive v hv hOutput
  exact ⟨m, mem_of_getElem? hm, hmLive, hmOutput⟩

/-- The graph still computes its output, exactly when that is no scale by one. -/
theorem ir_optimize_preserves_iff (interp : IRInterp F V) (env : Nat → V)
    (hOrder : SsaOrder nodes)
    (hTail : nodes.getLast? = some tail) (hLive : tail.eliminated = false) :
    ((∃ last, lastLive (irOptimize nodes) = some last ∧
        irEval interp env (irOptimize nodes) last.output = irEval interp env nodes tail.output) ∧
      InputsRemain (irOptimize nodes)) ↔
    ¬(tail.op = .scale ∧ IRScalar.nearOne tail.attrs.scalar = true) := by
  have hNe : nodes ≠ [] := by
    rintro rfl
    cases hTail
  obtain ⟨t, ht⟩ : ∃ t, t + 1 = nodes.length :=
    ⟨nodes.length - 1, Nat.sub_add_cancel (length_pos_iff.mpr hNe)⟩
  have hAt : nodes[t]? = some tail := by
    rw [getLast?_eq_getElem?, ← ht] at hTail
    exact hTail
  have hKept : Kept interp (irEval interp env nodes) (outputs nodes) nodes :=
    ⟨rfl, hOrder, hOrder.sound_irEval⟩
  have hLast : t + 1 = (outputs nodes).length := ht.trans hKept.length
  obtain ⟨fusedNodes, hOptimize, hFused, hFusedEnd⟩ :=
    irOptimize_eq_irDce hKept hLast ⟨tail, hAt, rfl, hLive, rfl⟩
  have hFusedLast := hLast.trans hFused.length.symm
  have hDone := hFused.irDce
  obtain ⟨last, hEnd, hOutput, hEliminated⟩ := endsWith_irDce hFusedLast hFusedEnd
  have hScale : ¬(tail.op = .scale ∧ IRScalar.nearOne tail.attrs.scalar = true) ↔
      scalesByOne tail = false := by
    rw [← Bool.not_eq_true, scalesByOne_iff]
    exact not_congr (and_iff_right hLive).symm
  rw [hScale, hOptimize]
  constructor
  · rintro ⟨⟨live, hSome, _⟩, _⟩
    cases hTailScale : scalesByOne tail with
    | false => rfl
    | true =>
      obtain ⟨fusedLast, hFusedAt, _, hFusedEliminated⟩ := hFusedEnd
      rw [hTailScale] at hFusedEliminated
      rw [lastLive_irDce_eq_none hFused.order hFusedLast hFusedAt hFusedEliminated] at hSome
      cases hSome
  · intro hNot
    rw [hNot] at hEliminated
    refine ⟨⟨last, lastLive_eq_some hEnd (hLast.trans hDone.length.symm) hEliminated, ?_⟩,
      hDone.order.inputsRemain⟩
    rw [← hOutput]
    apply hDone.order.irEval_eq hDone.sound ?_ hEnd hEliminated
    intro v hv
    rw [hDone.outputs] at hv
    exact irEval_of_notMem hv

end

def plainAttrs : IRAttrs ℚ := { scalar := 1, eps := 0 }

def plainNode (op : IROpCode) (inputs : List Nat) (output : Nat) : IRNode ℚ :=
  { op, inputs, output, outputShape := ⟨[2, 2], 2, 4⟩, attrs := plainAttrs }

/-- A product with bias, and its activation. -/
def denseGraph : List (IRNode ℚ) := [plainNode .gemmBias [0, 1, 2] 3, plainNode .gelu [3] 4]

/-- An activation whose result is scaled by one. -/
def scaledGraph : List (IRNode ℚ) := [plainNode .gelu [0] 1, plainNode .scale [1] 2]

def rationalInterp : IRInterp ℚ ℚ :=
  ringInterp (fun s => if IRScalar.nearOne s then 1 else s) (fun x => x / 2) (fun x => max x 0)
    (fun _ _ _ => 0) fun _ h => if_pos h

theorem ssaOrder_pair {a b : IRNode F} (hLive : a.eliminated = false)
    (hOnce : a.output ≠ b.output)
    (hArity : ∀ node ∈ [a, b], ∀ n ∈ node.op.arity, node.inputs.length = n)
    (hFirst : ∀ v ∈ a.inputs, v ∉ [a.output, b.output])
    (hSecond : ∀ v ∈ b.inputs, v = a.output) :
    SsaOrder [a, b] where
  once := nodup_cons.mpr ⟨not_mem_cons_of_ne_of_not_mem hOnce not_mem_nil, nodup_singleton _⟩
  arity node hNode _ := hArity node hNode
  before i node hNode _ v hv hOutput := by
    cases i with
    | zero =>
      cases hNode
      exact absurd hOutput (hFirst v hv)
    | succ i =>
      cases i with
      | zero =>
        cases hNode
        exact ⟨0, zero_lt_one, a, rfl, hLive, (hSecond v hv).symm⟩
      | succ i => cases hNode

theorem ssaOrder_denseGraph : SsaOrder denseGraph :=
  ssaOrder_pair rfl (by decide) (by decide) (by decide) (by decide)

theorem ssaOrder_scaledGraph : SsaOrder scaledGraph :=
  ssaOrder_pair rfl (by decide) (by decide) (by decide) (by decide)

/-- The dense layer is fused and computes its output. -/
theorem ir_optimize_preserves_dense :
    (∃ last, lastLive (irOptimize denseGraph) = some last ∧
        irEval rationalInterp (fun _ => 3) (irOptimize denseGraph) last.output =
          irEval rationalInterp (fun _ => 3) denseGraph 4) ∧
      InputsRemain (irOptimize denseGraph) :=
  (ir_optimize_preserves_iff rationalInterp (fun _ => 3)
    ssaOrder_denseGraph rfl rfl).mpr fun h => by
    cases h.1

/-- The scale is passed over and eliminated, and then nothing keeps the activation. -/
theorem ir_optimize_loses_output : ¬∃ last, lastLive (irOptimize scaledGraph) = some last ∧
    irEval rationalInterp (fun _ => 3) (irOptimize scaledGraph) last.output =
      irEval rationalInterp (fun _ => 3) scaledGraph 2 := by
  rintro ⟨live, hLive, _⟩
  have hOrder := ssaOrder_scaledGraph
  have hKept : Kept rationalInterp
    (irEval rationalInterp (fun _ => 3) scaledGraph) (outputs scaledGraph)
      scaledGraph := ⟨rfl, hOrder, hOrder.sound_irEval⟩
  have hScale : scalesByOne (plainNode .scale [1] 2) = true :=
    scalesByOne_iff.mpr ⟨rfl, rfl, by
      show decide (|(1 : ℚ) - 1| < 1 / 10000000) = true
      norm_num⟩
  obtain ⟨fusedNodes, hOptimize, hFused, last, hLast, _, hEliminated⟩ :=
    irOptimize_eq_irDce hKept (show 1 + 1 = (outputs scaledGraph).length from rfl)
      ⟨plainNode .scale [1] 2, rfl, rfl, rfl, hScale⟩
  rw [hOptimize, lastLive_irDce_eq_none hFused.order hFused.length.symm hLast hEliminated] at hLive
  cases hLive

end Casprix.Ml
