import Casprix.Ml.TensorGraph

/-! What each pass keeps of a tensor graph: the order of its definitions and its values. -/
namespace Casprix.Ml

open List Function

variable {F V : Type} {nodes : List (IRNode F)}
  {node user producer fused last : IRNode F} {i k p v r : Nat}

section

variable [IRScalar F] {interp : IRInterp F V} {env ρ : Nat → V}

/-- Each remaining node computes its value from those of its inputs. -/
def Sound (interp : IRInterp F V) (ρ : Nat → V) (nodes : List (IRNode F)) : Prop :=
  ∀ node ∈ nodes, node.eliminated = false →
    ρ node.output = interp.den node.op node.attrs (node.inputs.map ρ)

theorem irEval_append {xs ys : List (IRNode F)} :
    irEval interp env (xs ++ ys) = irEval interp (irEval interp env xs) ys := by
  induction xs generalizing env with
  | nil => rfl
  | cons x xs ih =>
    rw [cons_append, irEval, irEval]
    split
    · exact ih
    · exact ih

/-- A value that no node puts out is that of the environment. -/
theorem irEval_of_notMem (h : v ∉ outputs nodes) : irEval interp env nodes v = env v := by
  induction nodes generalizing env with
  | nil => rfl
  | cons node nodes ih =>
    have hNot := not_mem_of_not_mem_cons h
    rw [irEval]
    split
    · exact ih hNot
    · rw [ih hNot, update_of_ne (ne_of_not_mem_cons h)]

omit [IRScalar F] in
/-- An input of a node has its value before the node is reached. -/
theorem SsaOrder.input_notMem {pre post : List (IRNode F)} (h : SsaOrder (pre ++ node :: post))
    (hLive : node.eliminated = false) (hInput : v ∈ node.inputs) :
    v ∉ outputs (node :: post) := by
  intro hMem
  have hAt : (pre ++ node :: post)[pre.length]? = some node := by
    rw [getElem?_append_right (le_rfl), Nat.sub_self]
    rfl
  have hOutputs : outputs (pre ++ node :: post) = outputs pre ++ outputs (node :: post) :=
    map_append
  obtain ⟨j, hj, m, hm, _, rfl⟩ := h.before pre.length node hAt hLive v hInput
    (hOutputs ▸ mem_append_right _ hMem)
  rw [getElem?_append_left hj] at hm
  have hPre : m.output ∈ outputs pre := mem_map_of_mem (mem_of_getElem? hm)
  have hOnce := h.once
  rw [hOutputs] at hOnce
  exact disjoint_of_nodup_append hOnce hPre hMem

/-- Evaluation in order gives every node the value of its operation. -/
theorem SsaOrder.sound_irEval (h : SsaOrder nodes) :
    Sound interp (irEval interp env nodes) nodes := by
  intro node hNode hLive
  obtain ⟨pre, post, rfl⟩ := append_of_mem hNode
  have hSplit : irEval interp env (pre ++ node :: post) =
      irEval interp (update (irEval interp env pre) node.output
        (interp.den node.op node.attrs (node.inputs.map (irEval interp env pre)))) post := by
    rw [irEval_append, irEval, if_neg (Bool.eq_false_iff.mp hLive)]
  have hOutput : node.output ∉ outputs post := by
    have hOnce := h.once
    rw [outputs, map_append, map_cons] at hOnce
    exact (nodup_cons.mp (nodup_append.mp hOnce).2.1).1
  have hInputs : node.inputs.map (irEval interp env (pre ++ node :: post)) =
      node.inputs.map (irEval interp env pre) := by
    apply map_congr_left
    intro v hv
    rw [irEval_append]
    exact irEval_of_notMem (h.input_notMem hLive hv)
  rw [hInputs, hSplit, irEval_of_notMem hOutput, update_self]

/-- A graph in order has no other values. -/
theorem SsaOrder.irEval_eq (h : SsaOrder nodes) (hSound : Sound interp ρ nodes)
    (hInputs : ∀ v, v ∉ outputs nodes → ρ v = env v) (hNode : nodes[i]? = some node)
    (hLive : node.eliminated = false) : irEval interp env nodes node.output = ρ node.output := by
  induction i using Nat.strongRecOn generalizing node with
  | ind i ih =>
    have hMem := mem_of_getElem? hNode
    rw [hSound node hMem hLive, h.sound_irEval node hMem hLive]
    congr 1
    apply map_congr_left
    intro v hv
    by_cases hOutput : v ∈ outputs nodes
    · obtain ⟨j, hj, m, hm, hmLive, rfl⟩ := h.before i node hNode hLive v hv hOutput
      exact ih j hj hm hmLive
    · rw [irEval_of_notMem hOutput, hInputs v hOutput]

end

theorem outputs_eq_of_get {nodes' : List (IRNode F)}
    (h : ∀ i : Nat, (nodes'[i]?).map IRNode.output = (nodes[i]?).map IRNode.output) :
    outputs nodes' = outputs nodes := by
  apply ext_getElem?
  intro i
  rw [outputs, outputs, getElem?_map, getElem?_map]
  exact h i

/-- No two nodes put out the same value. -/
theorem SsaOrder.index_unique (h : SsaOrder nodes) {j : Nat} {m : IRNode F}
    (hNode : nodes[i]? = some node)
    (hm : nodes[j]? = some m) (hOutput : m.output = node.output) : j = i := by
  have hi : (outputs nodes)[i]? = some node.output := by
    rw [outputs, getElem?_map, hNode, Option.map_some]
  have hj : (outputs nodes)[j]? = some node.output := by
    rw [outputs, getElem?_map, hm, Option.map_some, hOutput]
  have hLt := (List.getElem?_eq_some_iff.mp hj).1
  exact (getElem?_inj hLt h.once).mp (hj.trans hi.symm)

section

/-- No use is counted exactly if no remaining node reads the value. -/
theorem useCount_eq_zero_iff :
    useCount nodes v = 0 ↔ ∀ node ∈ nodes, node.eliminated = false → v ∉ node.inputs := by
  rw [useCount, count_eq_zero, mem_flatMap]
  constructor
  · intro h node hNode hLive hv
    apply h
    refine ⟨node, mem_filter.mpr ⟨hNode, ?_⟩, hv⟩
    rw [hLive]
    rfl
  · rintro h ⟨node, hNode, hv⟩
    obtain ⟨hMem, hLive⟩ := mem_filter.mp hNode
    exact h node hMem (Bool.not_eq_true' _ ▸ hLive) hv

theorem dceOnce_get (i : Nat) : (dceOnce nodes)[i]? =
    (nodes[i]?).map fun node => if deadAt nodes i node then node.eliminate else node :=
  getElem?_mapIdx

theorem length_dceOnce : (dceOnce nodes).length = nodes.length := length_mapIdx

/-- What remains after a turn stood there before it. -/
theorem dceOnce_get_of_live (hNode : (dceOnce nodes)[i]? = some node)
    (hLive : node.eliminated = false) :
    nodes[i]? = some node := by
  rw [dceOnce_get] at hNode
  obtain ⟨old, hOld, rfl⟩ := Option.map_eq_some_iff.mp hNode
  split at hLive
  · cases hLive
  · next hDead => rw [if_neg hDead, hOld]

theorem dceOnce_get_of_not_dead (hNode : nodes[i]? = some node)
    (hDead : deadAt nodes i node = false) :
    (dceOnce nodes)[i]? = some node := by
  rw [dceOnce_get, hNode, Option.map_some, hDead]
  rfl

theorem outputs_dceOnce : outputs (dceOnce nodes) = outputs nodes := by
  apply outputs_eq_of_get
  intro i
  rw [dceOnce_get, Option.map_map]
  congr 1
  funext node
  show (if deadAt nodes i node then node.eliminate else node).output = node.output
  split <;> rfl

/-- A node is eliminated only when no remaining node reads it. -/
theorem SsaOrder.dceOnce (h : SsaOrder nodes) : SsaOrder (dceOnce nodes) where
  once := by
    rw [outputs_dceOnce]
    exact h.once
  arity node hNode hLive := by
    obtain ⟨i, hi⟩ := mem_iff_getElem?.mp hNode
    exact h.arity node (mem_of_getElem? (dceOnce_get_of_live hi hLive)) hLive
  before i node hNode hLive v hv hOutput := by
    have hOld := dceOnce_get_of_live hNode hLive
    rw [outputs_dceOnce] at hOutput
    obtain ⟨j, hj, m, hm, hmLive, hmOutput⟩ := h.before i node hOld hLive v hv hOutput
    refine ⟨j, hj, m, dceOnce_get_of_not_dead hm ?_, hmLive, hmOutput⟩
    -- The node that reads the value keeps its definition.
    have hUsed : useCount nodes m.output ≠ 0 := by
      intro hZero
      rw [hmOutput] at hZero
      exact useCount_eq_zero_iff.mp hZero node (mem_of_getElem? hOld) hLive hv
    rw [deadAt, beq_eq_false_iff_ne.mpr hUsed, Bool.and_false]

theorem Sound.dceOnce [IRScalar F] {interp : IRInterp F V} {ρ : Nat → V}
    (h : Sound interp ρ nodes) :
    Sound interp ρ (dceOnce nodes) := by
  intro node hNode hLive
  obtain ⟨i, hi⟩ := mem_iff_getElem?.mp hNode
  exact h node (mem_of_getElem? (dceOnce_get_of_live hi hLive)) hLive

section

variable {α : Type} {q : α → Bool} {xs ys : List α} {x y : α}

section

variable (hLength : ys.length = xs.length)
  (hLe : ∀ (i : Nat) (x y : α), xs[i]? = some x → ys[i]? = some y →
    q y = true → q x = true)
include hLength hLe

theorem countP_le_countP_of_get :
    ys.countP q ≤ xs.countP q := by
  induction xs generalizing ys with
  | nil => rw [eq_nil_of_length_eq_zero hLength]
  | cons a xs ih =>
    cases ys with
    | nil => exact Nat.zero_le _
    | cons b ys =>
      have hRest := ih (Nat.succ.inj hLength) fun i => hLe (i + 1)
      have hHead := hLe 0 a b rfl rfl
      rw [countP_cons, countP_cons]
      split
      · next hb =>
          rw [if_pos (hHead hb)]
          omega
      · split <;> omega

theorem countP_lt_countP_of_get
    (hx : xs[i]? = some x) (hy : ys[i]? = some y) (hqx : q x = true) (hqy : q y = false) :
    ys.countP q < xs.countP q := by
  induction xs generalizing ys i with
  | nil => cases hx
  | cons a xs ih =>
    cases ys with
    | nil => cases hy
    | cons b ys =>
      rw [countP_cons, countP_cons]
      cases i with
      | zero =>
        cases hx
        cases hy
        have hRest := countP_le_countP_of_get (Nat.succ.inj hLength) fun i => hLe (i + 1)
        rw [hqx, hqy, if_pos rfl, if_neg Bool.false_ne_true]
        omega
      | succ i =>
        have hRest := ih (Nat.succ.inj hLength) (fun i => hLe (i + 1)) hx hy
        have hHead := hLe 0 a b rfl rfl
        split
        · next hb =>
            rw [if_pos (hHead hb)]
            omega
        · split <;> omega

end

end

/-- A turn that finds a dead node eliminates one, so the turns come to an end. -/
theorem irGraphLiveCount_dceOnce_lt (hNode : nodes[i]? = some node)
    (hDead : deadAt nodes i node = true) :
    irGraphLiveCount (dceOnce nodes) < irGraphLiveCount nodes := by
  have hNew : (dceOnce nodes)[i]? = some node.eliminate := by
    rw [dceOnce_get, hNode, Option.map_some, hDead]
    rfl
  apply countP_lt_countP_of_get length_dceOnce ?_ hNode hNew ?_ rfl
  · intro k x y hx hy hLive
    rw [dceOnce_get_of_live hy (Bool.not_eq_true' _ ▸ hLive)] at hx
    cases hx
    exact hLive
  · rw [deadAt, Bool.and_eq_true, Bool.and_eq_true] at hDead
    exact hDead.1.1

theorem length_irDce : (irDce nodes).length = nodes.length := by
  induction nodes using irDce.induct with
  | case1 nodes hLess ih => rw [irDce, if_pos hLess, ih, length_dceOnce]
  | case2 nodes hNot => rw [irDce, if_neg hNot, length_dceOnce]

theorem outputs_irDce : outputs (irDce nodes) = outputs nodes := by
  induction nodes using irDce.induct with
  | case1 nodes hLess ih => rw [irDce, if_pos hLess, ih, outputs_dceOnce]
  | case2 nodes hNot => rw [irDce, if_neg hNot, outputs_dceOnce]

/-- By induction on the turns, like the next one. -/
theorem SsaOrder.irDce (h : SsaOrder nodes) : SsaOrder (irDce nodes) := by
  induction nodes using irDce.induct with
  | case1 nodes hLess ih =>
    rw [Ml.irDce, if_pos hLess]
    exact ih h.dceOnce
  | case2 nodes hNot =>
    rw [Ml.irDce, if_neg hNot]
    exact h.dceOnce

theorem Sound.irDce [IRScalar F] {interp : IRInterp F V} {ρ : Nat → V}
    (h : Sound interp ρ nodes) :
    Sound interp ρ (irDce nodes) := by
  induction nodes using irDce.induct with
  | case1 nodes hLess ih =>
    rw [Ml.irDce, if_pos hLess]
    exact ih h.dceOnce
  | case2 nodes hNot =>
    rw [Ml.irDce, if_neg hNot]
    exact h.dceOnce

/-- The output of the graph is left alone. -/
theorem irDce_get_last (hLast : i + 1 = nodes.length) : (irDce nodes)[i]? = nodes[i]? := by
  have hOnce : ∀ {nodes : List (IRNode F)}, i + 1 = nodes.length →
      (dceOnce nodes)[i]? = nodes[i]? := by
    intro nodes hLast
    have hLive : ∀ node, deadAt nodes i node = false := by
      intro node
      rw [deadAt, bne_eq_false_iff_eq.mpr hLast, Bool.and_false, Bool.false_and]
    rw [dceOnce_get]
    simp only [hLive, Bool.false_eq_true, if_false, Option.map_id']
  induction nodes using irDce.induct with
  | case1 nodes hLess ih =>
    rw [irDce, if_pos hLess, ih (length_dceOnce.symm ▸ hLast), hOnce hLast]
  | case2 nodes hNot => rw [irDce, if_neg hNot, hOnce hLast]

/-- No turn would eliminate another node. -/
theorem not_deadAt_irDce (hNode : (irDce nodes)[i]? = some node) :
    deadAt (irDce nodes) i node = false := by
  induction nodes using irDce.induct with
  | case1 nodes hLess ih =>
    rw [irDce, if_pos hLess] at hNode ⊢
    exact ih hNode
  | case2 nodes hNot =>
    have hNone : ∀ i node, nodes[i]? = some node → deadAt nodes i node = false := by
      intro i node hNode
      cases hDead : deadAt nodes i node with
      | false => rfl
      | true => exact absurd (irGraphLiveCount_dceOnce_lt hNode hDead) hNot
    have hSame : dceOnce nodes = nodes := by
      apply ext_getElem?
      intro i
      rw [dceOnce_get]
      cases hAt : nodes[i]? with
      | none => rfl
      | some node => rw [Option.map_some, hNone i node hAt]; rfl
    rw [irDce, if_neg hNot, hSame] at hNode ⊢
    exact hNone i node hNode

end

section

/-- The nodes after a scale by one, at the `i`-th place, is passed over. -/
def forwarded (i output replacement : Nat) (nodes : List (IRNode F)) : List (IRNode F) :=
  nodes.mapIdx fun k user =>
    if k = i then user.eliminate
    else if i < k then user.replaceInput output replacement else user

theorem replaceInput_output (user : IRNode F) (output replacement : Nat) :
    (user.replaceInput output replacement).output = user.output := by
  rw [IRNode.replaceInput]
  split <;> rfl

theorem replaceInput_eliminated (user : IRNode F) (output replacement : Nat) :
    (user.replaceInput output replacement).eliminated = user.eliminated := by
  rw [IRNode.replaceInput]
  split <;> rfl

theorem replaceInput_op (user : IRNode F) (output replacement : Nat) :
    (user.replaceInput output replacement).op = user.op := by
  rw [IRNode.replaceInput]
  split <;> rfl

theorem replaceInput_attrs (user : IRNode F) (output replacement : Nat) :
    (user.replaceInput output replacement).attrs = user.attrs := by
  rw [IRNode.replaceInput]
  split <;> rfl

theorem replaceInput_inputs (hLive : user.eliminated = false) (output replacement : Nat) :
    (user.replaceInput output replacement).inputs =
      user.inputs.map fun v => if v = output then replacement else v := by
  rw [IRNode.replaceInput, if_neg (Bool.eq_false_iff.mp hLive)]

theorem forwarded_get {output : Nat} (k : Nat) : (forwarded i output r nodes)[k]? =
    (nodes[k]?).map fun user =>
      if k = i then user.eliminate else if i < k then user.replaceInput output r else user :=
  getElem?_mapIdx

theorem forwarded_get_lt {output : Nat} (h : k < i) :
    (forwarded i output r nodes)[k]? = nodes[k]? := by
  rw [forwarded_get]
  simp only [if_neg h.ne, if_neg (lt_asymm h), Option.map_id']

theorem forwarded_get_gt {output : Nat} (h : i < k) :
    (forwarded i output r nodes)[k]? = (nodes[k]?).map (·.replaceInput output r) := by
  rw [forwarded_get]
  simp only [if_neg h.ne', if_pos h]

/-- A remaining node stood there before, with the old input or the new one. -/
theorem forwarded_get_of_live {output : Nat} (hUser : (forwarded i output r nodes)[k]? = some user)
    (hLive : user.eliminated = false) :
    k ≠ i ∧ ∃ old, nodes[k]? = some old ∧ old.eliminated = false ∧
      user = if i < k then old.replaceInput output r else old := by
  rw [forwarded_get] at hUser
  obtain ⟨old, hOld, rfl⟩ := Option.map_eq_some_iff.mp hUser
  by_cases hSame : k = i
  · rw [if_pos hSame] at hLive
    cases hLive
  · rw [if_neg hSame] at hLive ⊢
    refine ⟨hSame, old, hOld, ?_, rfl⟩
    split at hLive
    · rw [replaceInput_eliminated] at hLive
      exact hLive
    · exact hLive

theorem outputs_forwarded {output : Nat} :
    outputs (forwarded i output r nodes) = outputs nodes := by
  apply outputs_eq_of_get
  intro k
  rw [forwarded_get, Option.map_map]
  congr 1
  funext user
  show (if k = i then user.eliminate
    else if i < k then user.replaceInput output r else user).output =
    user.output
  split
  · rfl
  · split
    · exact replaceInput_output user output r
    · rfl

/-- The input of the scale is defined before the scale, so its users may read it. -/
theorem SsaOrder.forwarded (h : SsaOrder nodes) (hNode : nodes[i]? = some node)
    (hLiveNode : node.eliminated = false) (hInput : r ∈ node.inputs) :
    SsaOrder (forwarded i node.output r nodes) where
  once := by
    rw [outputs_forwarded]
    exact h.once
  arity user hUser hLive := by
    obtain ⟨k, hk⟩ := mem_iff_getElem?.mp hUser
    obtain ⟨_, old, hOld, hOldLive, rfl⟩ := forwarded_get_of_live hk hLive
    have hArity := h.arity old (mem_of_getElem? hOld) hOldLive
    split
    · rw [replaceInput_op, replaceInput_inputs hOldLive, length_map]
      exact hArity
    · exact hArity
  before k user hUser hLive v hv hOutput := by
    rw [outputs_forwarded] at hOutput
    obtain ⟨hNe, old, hOld, hOldLive, rfl⟩ := forwarded_get_of_live hUser hLive
    by_cases hAfter : i < k
    · rw [if_pos hAfter, replaceInput_inputs hOldLive] at hv
      obtain ⟨w, hw, rfl⟩ := mem_map.mp hv
      by_cases hScaled : w = node.output
      · -- The input of the scale is defined before the scale.
        rw [if_pos hScaled] at hOutput ⊢
        obtain ⟨j, hj, m, hm, hmLive, hmOutput⟩ :=
          h.before i node hNode hLiveNode r hInput hOutput
        exact ⟨j, hj.trans hAfter, m, (forwarded_get_lt hj).trans hm, hmLive, hmOutput⟩
      · rw [if_neg hScaled] at hOutput ⊢
        obtain ⟨j, hj, m, hm, hmLive, rfl⟩ := h.before k old hOld hOldLive w hw hOutput
        have hOther : j ≠ i := by
          rintro rfl
          rw [hNode] at hm
          cases hm
          exact hScaled rfl
        rcases lt_or_gt_of_ne hOther with hLt | hGt
        · exact ⟨j, hj, m, (forwarded_get_lt hLt).trans hm, hmLive, rfl⟩
        · refine ⟨j, hj, m.replaceInput node.output r, ?_, ?_,
            replaceInput_output m node.output r⟩
          · rw [forwarded_get_gt hGt, hm, Option.map_some]
          · rw [replaceInput_eliminated]
            exact hmLive
    · rw [if_neg hAfter] at hv
      obtain ⟨j, hj, m, hm, hmLive, hmOutput⟩ := h.before k old hOld hOldLive v hv hOutput
      have hLt : j < i := by omega
      exact ⟨j, hj, m, (forwarded_get_lt hLt).trans hm, hmLive, hmOutput⟩

end

section

variable [IRScalar F] {interp : IRInterp F V} {ρ : Nat → V}

/-- A scale that remains and that the pass takes for the identity. -/
def scalesByOne (node : IRNode F) : Bool :=
  !node.eliminated && node.op == .scale && IRScalar.nearOne node.attrs.scalar

theorem foldAt_of_scalesByOne (hNode : nodes[i]? = some node) (hScale : scalesByOne node = true)
    (hInput : node.inputs.head? = some r) : foldAt nodes i = forwarded i node.output r nodes := by
  rw [scalesByOne] at hScale
  rw [foldAt, hNode]
  simp only [hScale, hInput, if_true]
  rfl

/-- One step of the pass passes over a scale by one, or does nothing. -/
theorem foldAt_cases (nodes : List (IRNode F)) (i : Nat) : foldAt nodes i = nodes ∨
    ∃ node r, nodes[i]? = some node ∧ scalesByOne node = true ∧ node.inputs.head? = some r ∧
      foldAt nodes i = forwarded i node.output r nodes := by
  cases hNode : nodes[i]? with
  | none => exact .inl (by rw [foldAt, hNode])
  | some node =>
    cases hScale : scalesByOne node with
    | false =>
      left
      rw [scalesByOne] at hScale
      rw [foldAt, hNode]
      simp only [hScale, Bool.false_eq_true, if_false]
    | true =>
      cases hInput : node.inputs.head? with
      | none =>
        left
        rw [scalesByOne] at hScale
        rw [foldAt, hNode]
        simp only [hScale, hInput, if_true]
      | some r =>
        exact .inr ⟨node, r, rfl, hScale, hInput, foldAt_of_scalesByOne hNode hScale hInput⟩

theorem scalesByOne_iff : scalesByOne node = true ↔
    node.eliminated = false ∧ node.op = .scale ∧ IRScalar.nearOne node.attrs.scalar = true := by
  rw [scalesByOne, Bool.and_eq_true, Bool.and_eq_true, Bool.not_eq_true', beq_iff_eq, and_assoc]

theorem SsaOrder.inputs_of_scalesByOne (h : SsaOrder nodes) (hNode : nodes[i]? = some node)
    (hScale : scalesByOne node = true) : ∃ r, node.inputs = [r] := by
  obtain ⟨hLive, hOp, _⟩ := scalesByOne_iff.mp hScale
  apply length_eq_one_iff.mp
  apply h.arity node (mem_of_getElem? hNode) hLive
  rw [hOp]
  rfl

/-- Two values that are the same may stand for each other. -/
theorem Sound.forwarded {output : Nat} (h : Sound interp ρ nodes)
    (hSame : ρ output = ρ r) : Sound interp ρ (forwarded i output r nodes) := by
  intro user hUser hLive
  obtain ⟨k, hk⟩ := mem_iff_getElem?.mp hUser
  obtain ⟨_, old, hOld, hOldLive, rfl⟩ := forwarded_get_of_live hk hLive
  have hOldSound := h old (mem_of_getElem? hOld) hOldLive
  split
  · have hInputs : (old.inputs.map fun v => if v = output then r else v).map ρ =
        old.inputs.map ρ := by
      rw [map_map]
      apply map_congr_left
      intro v _
      show ρ (if v = output then r else v) = ρ v
      split
      · next hEq => rw [hEq, hSame]
      · rfl
    rw [replaceInput_output, replaceInput_op, replaceInput_attrs,
      replaceInput_inputs hOldLive, hInputs]
    exact hOldSound
  · exact hOldSound

/-- What the passes keep: the order, the outputs and the values. -/
structure Kept (interp : IRInterp F V) (ρ : Nat → V) (ids : List Nat)
    (nodes : List (IRNode F)) : Prop where
  outputs : outputs nodes = ids
  order : SsaOrder nodes
  sound : Sound interp ρ nodes

variable {ids : List Nat}

theorem Kept.length (h : Kept interp ρ ids nodes) : nodes.length = ids.length := by
  rw [← h.outputs]
  exact (length_map _).symm

theorem Kept.irDce (h : Kept interp ρ ids nodes) : Kept interp ρ ids (irDce nodes) :=
  ⟨outputs_irDce.trans h.outputs, h.order.irDce, h.sound.irDce⟩

/-- Passing over a scale by one keeps the values, since the scale has that of its input. -/
theorem Kept.foldAt (h : Kept interp ρ ids nodes) (i : Nat) :
    Kept interp ρ ids (foldAt nodes i) := by
  rcases foldAt_cases nodes i with hSame | ⟨node, r, hNode, hScale, hInput, hNew⟩
  · rw [hSame]
    exact h
  · rw [hNew]
    obtain ⟨hLive, hOp, hOne⟩ := scalesByOne_iff.mp hScale
    have hMem := mem_of_getElem? hNode
    obtain ⟨r', hInputs⟩ := h.order.inputs_of_scalesByOne hNode hScale
    rw [hInputs] at hInput
    cases hInput
    refine ⟨outputs_forwarded.trans h.outputs,
      h.order.forwarded hNode hLive ?_, h.sound.forwarded ?_⟩
    · rw [hInputs]
      exact mem_singleton_self r
    · rw [h.sound node hMem hLive, hOp, hInputs]
      exact interp.scaleOne node.attrs (ρ r) hOne

end

section

/-- A use count of one leaves one user among the nodes that remain. -/
def SingleUsers (counts : Nat → Nat) (nodes : List (IRNode F)) : Prop :=
  ∀ v, counts v = 1 → ∀ (k k' : Nat)
    (a b : IRNode F), nodes[k]? = some a → nodes[k']? = some b →
    a.eliminated = false → b.eliminated = false → v ∈ a.inputs → v ∈ b.inputs → k = k'

theorem useCount_cons : useCount (node :: nodes) v =
    (if node.eliminated = true then 0 else node.inputs.count v) + useCount nodes v := by
  rw [useCount, useCount, filter_cons]
  cases node.eliminated with
  | true => exact (zero_add _).symm
  | false => exact count_append

theorem useCount_pos (hNode : nodes[k]? = some node) (hLive : node.eliminated = false)
    (hv : v ∈ node.inputs) : 0 < useCount nodes v := by
  apply pos_of_ne_zero
  intro hZero
  exact useCount_eq_zero_iff.mp hZero node (mem_of_getElem? hNode) hLive hv

/-- Two nodes that read a value are two uses of it. -/
theorem two_le_useCount {k' : Nat} {a b : IRNode F} (hLt : k < k') (ha : nodes[k]? = some a)
    (hb : nodes[k']? = some b) (haLive : a.eliminated = false) (hbLive : b.eliminated = false)
    (hva : v ∈ a.inputs) (hvb : v ∈ b.inputs) : 2 ≤ useCount nodes v := by
  induction nodes generalizing k k' with
  | nil => cases ha
  | cons node nodes ih =>
    rw [useCount_cons]
    obtain ⟨k', rfl⟩ : ∃ n, k' = n + 1 := ⟨k' - 1, by omega⟩
    cases k with
    | zero =>
      cases ha
      have hHere := count_pos_iff.mpr hva
      have hbNext : nodes[k']? = some b := hb
      have hLater := useCount_pos hbNext hbLive hvb
      rw [if_neg (Bool.eq_false_iff.mp haLive)]
      omega
    | succ k =>
      have hLater := ih (Nat.lt_of_succ_lt_succ hLt) ha hb
      omega

theorem singleUsers_useCount : SingleUsers (useCount nodes) nodes := by
  intro v hOne k k' a b ha hb haLive hbLive hva hvb
  rcases lt_trichotomy k k' with hLt | hEq | hGt
  · have hTwo := two_le_useCount hLt ha hb haLive hbLive hva hvb
    omega
  · exact hEq
  · have hTwo := two_le_useCount hGt hb ha hbLive haLive hvb hva
    omega

/-- The fused node puts out what the consumer did. -/
theorem fusedNode_kept (h : fusedNode node producer = some fused) :
    fused.output = node.output ∧ fused.eliminated = node.eliminated ∧ fused.op.arity = none ∧
      node.op.arity = some 1 := by
  unfold fusedNode at h
  split at h
  · next hOp _ =>
      cases h
      rw [hOp]
      exact ⟨rfl, rfl, rfl, rfl⟩
  · next hOp _ =>
      cases h
      rw [hOp]
      exact ⟨rfl, rfl, rfl, rfl⟩
  · next hOp _ =>
      cases h
      rw [hOp]
      exact ⟨rfl, rfl, rfl, rfl⟩
  · cases h

theorem fusedNode_inputs (h : fusedNode node producer = some fused)
    (hArity : ∀ n ∈ producer.op.arity, producer.inputs.length = n) :
    fused.inputs = producer.inputs := by
  unfold fusedNode at h
  split at h
  · next hOp =>
      cases h
      rw [hOp] at hArity
      exact take_of_length_le ((hArity 3 rfl).le)
  · next hOp =>
      cases h
      rw [hOp] at hArity
      exact take_of_length_le ((hArity 3 rfl).le)
  · next hOp =>
      cases h
      rw [hOp] at hArity
      exact take_of_length_le ((hArity 2 rfl).le)
  · cases h

/-- The fused node has the value of the consumer after the producer. -/
theorem fusedNode_den [IRScalar F] (interp : IRInterp F V) (ρ : Nat → V)
    (h : fusedNode node producer = some fused)
    (hArity : ∀ n ∈ producer.op.arity, producer.inputs.length = n) :
    interp.den fused.op fused.attrs (fused.inputs.map ρ) =
      interp.den node.op node.attrs [interp.den producer.op producer.attrs
        (producer.inputs.map ρ)] := by
  rw [fusedNode_inputs h hArity]
  unfold fusedNode at h
  split at h
  · next hOp hProducer =>
      cases h
      rw [hProducer] at hArity
      obtain ⟨a, b, c, hInputs⟩ := length_eq_three.mp (hArity 3 rfl)
      rw [hInputs, hOp, hProducer]
      exact interp.fusedGelu node.attrs producer.attrs (ρ a) (ρ b) (ρ c)
  · next hOp hProducer =>
      cases h
      rw [hProducer] at hArity
      obtain ⟨a, b, c, hInputs⟩ := length_eq_three.mp (hArity 3 rfl)
      rw [hInputs, hOp, hProducer]
      exact interp.fusedRelu node.attrs producer.attrs (ρ a) (ρ b) (ρ c)
  · next hOp hProducer =>
      cases h
      rw [hProducer] at hArity
      obtain ⟨a, b, hInputs⟩ := length_eq_two.mp (hArity 2 rfl)
      rw [hInputs, hOp, hProducer]
      exact interp.fusedAddScale node.attrs producer.attrs (ρ a) (ρ b)
  · cases h

theorem defOf_eq_some (h : defOf nodes v = some p) :
    ∃ producer, nodes[p]? = some producer ∧ producer.output = v := by
  obtain ⟨hLt, hOutput, _⟩ := List.findIdx?_eq_some_iff_getElem.mp h
  exact ⟨nodes[p], getElem?_eq_getElem hLt, beq_iff_eq.mp hOutput⟩

/-- A producer whose one user is fused with it. -/
structure Fusion (counts : Nat → Nat) (nodes : List (IRNode F)) (i p : Nat)
    (node producer fused : IRNode F) : Prop where
  consumerAt : nodes[i]? = some node
  live : node.eliminated = false
  producerAt : nodes[p]? = some producer
  liveProducer : producer.eliminated = false
  input : node.inputs.head? = some producer.output
  single : counts producer.output = 1
  fusedBy : fusedNode node producer = some fused

variable {counts : Nat → Nat}

/-- One step of the pass fuses a producer with its one user, or does nothing. -/
theorem fuseAt_cases (counts : Nat → Nat) (nodes : List (IRNode F)) (i : Nat) :
    fuseAt counts nodes i = nodes ∨ ∃ p node producer fused,
      Fusion counts nodes i p node producer fused ∧
      fuseAt counts nodes i = (nodes.set i fused).set p producer.eliminate := by
  unfold fuseAt
  split
  · next node hNode =>
      split
      · next p hDef =>
          obtain ⟨v, hInput, hDef⟩ := Option.bind_eq_some_iff.mp hDef
          obtain ⟨producer, hProducer, rfl⟩ := defOf_eq_some hDef
          rw [hProducer]
          simp only []
          split
          · next hGuard =>
              rw [Bool.and_eq_true, Bool.and_eq_true, Bool.not_eq_true',
                Bool.not_eq_true', isSingleUseBy,
                Bool.and_eq_true, beq_iff_eq] at hGuard
              obtain ⟨⟨hLive, hLiveProducer⟩, hSingle, _⟩ := hGuard
              split
              · next fused hFused =>
                  right
                  exact ⟨p, node, producer, fused,
                    ⟨hNode, hLive, hProducer, hLiveProducer, hInput, hSingle, hFused⟩, rfl⟩
              · exact .inl rfl
          · exact .inl rfl
      · exact .inl rfl
  · exact .inl rfl

section

variable (h : Fusion counts nodes i p node producer fused)

include h

theorem Fusion.inputs (hOrder : SsaOrder nodes) : node.inputs = [producer.output] := by
  have hLength := hOrder.arity node (mem_of_getElem? h.consumerAt) h.live 1
    (fusedNode_kept h.fusedBy).2.2.2
  obtain ⟨r, hInputs⟩ := length_eq_one_iff.mp hLength
  have hInput := h.input
  rw [hInputs] at hInput ⊢
  cases hInput
  rfl

/-- The producer stands before its user. -/
theorem Fusion.lt (hOrder : SsaOrder nodes) : p < i := by
  have hRead : producer.output ∈ node.inputs := by
    rw [h.inputs hOrder]
    exact mem_singleton_self producer.output
  have hOutput : producer.output ∈ outputs nodes := mem_map_of_mem (mem_of_getElem? h.producerAt)
  obtain ⟨j, hj, m, hm, _, hSame⟩ := hOrder.before i node h.consumerAt h.live _ hRead hOutput
  rw [← hOrder.index_unique h.producerAt hm hSame]
  exact hj

theorem Fusion.producer_inputs (hOrder : SsaOrder nodes) : fused.inputs = producer.inputs :=
  fusedNode_inputs h.fusedBy (hOrder.arity producer (mem_of_getElem? h.producerAt) h.liveProducer)

theorem Fusion.get (k : Nat) : ((nodes.set i fused).set p producer.eliminate)[k]? =
    if k = p then some producer.eliminate else if k = i then some fused else nodes[k]? := by
  have hp := (List.getElem?_eq_some_iff.mp h.producerAt).1
  have hi := (List.getElem?_eq_some_iff.mp h.consumerAt).1
  by_cases hProducer : k = p
  · rw [if_pos hProducer, hProducer, getElem?_set_self (by rw [length_set]; exact hp)]
  · rw [if_neg hProducer, getElem?_set_ne (Ne.symm hProducer)]
    by_cases hConsumer : k = i
    · rw [if_pos hConsumer, hConsumer, getElem?_set_self hi]
    · rw [if_neg hConsumer, getElem?_set_ne (Ne.symm hConsumer)]

/-- What remains after the fusion is the fused node or stood there before. -/
theorem Fusion.get_of_live (hUser : ((nodes.set i fused).set p producer.eliminate)[k]? = some user)
    (hLive : user.eliminated = false) :
    k ≠ p ∧ ((k = i ∧ user = fused) ∨ (k ≠ i ∧ nodes[k]? = some user)) := by
  rw [h.get] at hUser
  by_cases hProducer : k = p
  · rw [if_pos hProducer] at hUser
    cases hUser
    cases hLive
  · rw [if_neg hProducer] at hUser
    refine ⟨hProducer, ?_⟩
    by_cases hConsumer : k = i
    · rw [if_pos hConsumer] at hUser
      exact .inl ⟨hConsumer, (Option.some.inj hUser).symm⟩
    · rw [if_neg hConsumer] at hUser
      exact .inr ⟨hConsumer, hUser⟩

theorem Fusion.outputs : outputs ((nodes.set i fused).set p producer.eliminate) =
    outputs nodes := by
  apply outputs_eq_of_get
  intro k
  rw [h.get]
  by_cases hProducer : k = p
  · rw [if_pos hProducer, hProducer, h.producerAt]
    rfl
  · rw [if_neg hProducer]
    by_cases hConsumer : k = i
    · rw [if_pos hConsumer, hConsumer, h.consumerAt, Option.map_some, Option.map_some,
        (fusedNode_kept h.fusedBy).1]
    · rw [if_neg hConsumer]

theorem Fusion.still_defined {j : Nat} {m : IRNode F} (hm : nodes[j]? = some m)
    (hLive : m.eliminated = false)
    (hOther : j ≠ p) : ∃ m', ((nodes.set i fused).set p producer.eliminate)[j]? = some m' ∧
      m'.eliminated = false ∧ m'.output = m.output := by
  rw [h.get, if_neg hOther]
  by_cases hConsumer : j = i
  · rw [if_pos hConsumer]
    rw [hConsumer, h.consumerAt] at hm
    cases hm
    have hKept := fusedNode_kept h.fusedBy
    exact ⟨fused, rfl, hKept.2.1.trans h.live, hKept.1⟩
  · rw [if_neg hConsumer]
    exact ⟨m, hm, hLive, rfl⟩

/-- What a node reads after the fusion, a node that stood there or the producer read before. -/
theorem Fusion.reader (hOrder : SsaOrder nodes)
    (hUser : ((nodes.set i fused).set p producer.eliminate)[k]? = some user)
    (hLive : user.eliminated = false) (hv : v ∈ user.inputs) :
    ∃ old, nodes[if k = i then p else k]? = some old ∧
      old.eliminated = false ∧ v ∈ old.inputs := by
  obtain ⟨_, ⟨rfl, rfl⟩ | ⟨hConsumer, hOld⟩⟩ := h.get_of_live hUser hLive
  · rw [if_pos rfl]
    rw [h.producer_inputs hOrder] at hv
    exact ⟨producer, h.producerAt, h.liveProducer, hv⟩
  · rw [if_neg hConsumer]
    exact ⟨user, hOld, hLive, hv⟩

section

variable (hOrder : SsaOrder nodes) (hUsers : SingleUsers counts nodes)
include hOrder hUsers

/-- The value of the producer is read by nobody after the fusion. -/
theorem Fusion.not_read (hUser : ((nodes.set i fused).set p producer.eliminate)[k]? = some user)
    (hLive : user.eliminated = false) : producer.output ∉ user.inputs := by
  intro hv
  obtain ⟨old, hOld, hOldLive, hvOld⟩ := h.reader hOrder hUser hLive hv
  have hRead : producer.output ∈ node.inputs := by
    rw [h.inputs hOrder]
    exact mem_singleton_self producer.output
  have hPlace := hUsers _ h.single _ i old node hOld h.consumerAt hOldLive h.live hvOld hRead
  have hLt := h.lt hOrder
  by_cases hConsumer : k = i
  · rw [if_pos hConsumer] at hPlace
    omega
  · rw [if_neg hConsumer] at hPlace
    exact hConsumer hPlace

theorem Fusion.singleUsers :
    SingleUsers counts ((nodes.set i fused).set p producer.eliminate) := by
  intro v hOne k k' a b ha hb haLive hbLive hva hvb
  obtain ⟨a', ha', haLive', hva'⟩ := h.reader hOrder ha haLive hva
  obtain ⟨b', hb', hbLive', hvb'⟩ := h.reader hOrder hb hbLive hvb
  have hPlace := hUsers v hOne _ _ a' b' ha' hb' haLive' hbLive' hva' hvb'
  have hk := (h.get_of_live ha haLive).1
  have hk' := (h.get_of_live hb hbLive).1
  by_cases hConsumer : k = i
  · by_cases hConsumer' : k' = i
    · rw [hConsumer, hConsumer']
    · rw [if_pos hConsumer, if_neg hConsumer'] at hPlace
      exact absurd hPlace.symm hk'
  · by_cases hConsumer' : k' = i
    · rw [if_neg hConsumer, if_pos hConsumer'] at hPlace
      exact absurd hPlace hk
    · rw [if_neg hConsumer, if_neg hConsumer'] at hPlace
      exact hPlace

/-- The fused node reads what the producer read, which is defined before it. -/
theorem Fusion.order :
    SsaOrder ((nodes.set i fused).set p producer.eliminate) where
  once := by
    rw [h.outputs]
    exact hOrder.once
  arity user hUser hLive := by
    obtain ⟨k, hk⟩ := mem_iff_getElem?.mp hUser
    obtain ⟨_, ⟨rfl, rfl⟩ | ⟨_, hOld⟩⟩ := h.get_of_live hk hLive
    · rw [(fusedNode_kept h.fusedBy).2.2.1]
      intro n hn
      cases hn
    · exact hOrder.arity user (mem_of_getElem? hOld) hLive
  before k user hUser hLive v hv hOutput := by
    rw [h.outputs] at hOutput
    obtain ⟨old, hOld, hOldLive, hvOld⟩ := h.reader hOrder hUser hLive hv
    obtain ⟨j, hj, m, hm, hmLive, hmOutput⟩ := hOrder.before _ old hOld hOldLive v hvOld hOutput
    have hOther : j ≠ p := by
      rintro rfl
      rw [h.producerAt] at hm
      cases hm
      exact h.not_read hOrder hUsers hUser hLive (hmOutput ▸ hv)
    obtain ⟨m', hm', hmLive', hmOutput'⟩ := h.still_defined hm hmLive hOther
    refine ⟨j, ?_, m', hm', hmLive', hmOutput'.trans hmOutput⟩
    have hLt := h.lt hOrder
    split at hj
    · omega
    · exact hj

end

/-- The fused node computes the value of the consumer, and the others compute theirs. -/
theorem Fusion.sound [IRScalar F] {interp : IRInterp F V} {ρ : Nat → V} (hOrder : SsaOrder nodes)
    (hSound : Sound interp ρ nodes) :
    Sound interp ρ ((nodes.set i fused).set p producer.eliminate) := by
  intro user hUser hLive
  obtain ⟨k, hk⟩ := mem_iff_getElem?.mp hUser
  obtain ⟨_, ⟨rfl, rfl⟩ | ⟨_, hOld⟩⟩ := h.get_of_live hk hLive
  · have hProducer := mem_of_getElem? h.producerAt
    have hConsumer := mem_of_getElem? h.consumerAt
    rw [(fusedNode_kept h.fusedBy).1, hSound node hConsumer h.live, h.inputs hOrder,
      fusedNode_den interp ρ h.fusedBy (hOrder.arity producer hProducer h.liveProducer),
      ← hSound producer hProducer h.liveProducer]
    rfl
  · exact hSound user (mem_of_getElem? hOld) hLive

end

end

end Casprix.Ml
