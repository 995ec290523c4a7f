import Casprix.Borrow.MoveSoundness

/-! What the liveness analysis computes: the values that some walk along the
successor lists reads before it defines them. -/
namespace Casprix.Borrow

open Casprix.Mir Library List

variable {func : MirFunction} {v : MirValueId}

/-- Some instruction reads the value, and none before it defines it. -/
def UsedFirst (v : MirValueId) : List MirInst → Prop
  | [] => False
  | inst :: insts => v ∈ inst.op.operands ∨ (inst.result ≠ v ∧ UsedFirst v insts)

/-- A walk along the successor lists that starts with block `b` reads the value
before it defines it. -/
inductive ReadAhead (func : MirFunction) (v : MirValueId) : MirBlockId → Prop where
  | here {b : MirBlockId} (hUsed : UsedFirst v (func.insts b)) : ReadAhead func v b
  | later {b next : MirBlockId} (hKept : ∀ inst ∈ func.insts b, inst.result ≠ v)
      (hNext : next ∈ func.successors b) (hRead : ReadAhead func v next) : ReadAhead func v b

private theorem mem_foldl_addUses (operands : List MirValueId) (defs uses : Values func) :
    (operands.foldl (fun uses w =>
      if w ≠ 0 ∧ w < func.nextValueId ∧ defs.mem w = false then uses.add w
        else uses) uses).mem v =
        true ↔
      uses.mem v = true ∨ (v ∈ operands ∧ v ≠ 0 ∧ v < func.nextValueId ∧
        defs.mem v = false) := by
  induction operands generalizing uses with
  | nil => simp
  | cons w operands ih =>
    rw [foldl_cons, ih, mem_cons]
    split
    · next h =>
        rw [ValueSet.mem_add h.2.1]
        constructor
        · rintro ((rfl | hUses) | hRest)
          · exact .inr ⟨.inl rfl, h⟩
          · exact .inl hUses
          · exact .inr ⟨.inr hRest.1, hRest.2⟩
        · rintro (hUses | ⟨rfl | hMem, hRest⟩)
          · exact .inl (.inr hUses)
          · exact .inl (.inl rfl)
          · exact .inr ⟨hMem, hRest⟩
    · next h =>
        constructor
        · rintro (hUses | hRest)
          · exact .inl hUses
          · exact .inr ⟨.inr hRest.1, hRest.2⟩
        · rintro (hUses | ⟨rfl | hMem, hRest⟩)
          · exact .inl hUses
          · exact absurd hRest h
          · exact .inr ⟨hMem, hRest⟩

section

variable (hNe : v ≠ 0) (hLt : v < func.nextValueId)
include hNe hLt

private theorem mem_defs_markUses {acc : DefUse func} {inst : MirInst} :
    (markUses func acc inst).defs.mem v = true ↔ acc.defs.mem v = true ∨ inst.result = v := by
  simp only [markUses]
  split
  · next h => rw [ValueSet.mem_add h.2, or_comm, eq_comm (a := v)]
  · next h =>
      constructor
      · exact .inl
      · rintro (hMem | rfl)
        · exact hMem
        · exact absurd ⟨hNe, hLt⟩ h

private theorem mem_uses_markUses {acc : DefUse func} {inst : MirInst} :
    (markUses func acc inst).uses.mem v = true ↔
      acc.uses.mem v = true ∨ (v ∈ inst.op.operands ∧ acc.defs.mem v = false) := by
  simp only [markUses, mem_foldl_addUses]
  simp [hNe, hLt]

private theorem mem_defs_foldl_markUses (insts : List MirInst) (acc : DefUse func) :
    (insts.foldl (markUses func) acc).defs.mem v = true ↔
      acc.defs.mem v = true ∨ ∃ inst ∈ insts, inst.result = v := by
  induction insts generalizing acc with
  | nil => simp
  | cons inst insts ih => simp [ih, mem_defs_markUses hNe hLt, or_assoc]

private theorem mem_uses_foldl_markUses (insts : List MirInst) (acc : DefUse func) :
    (insts.foldl (markUses func) acc).uses.mem v = true ↔
      acc.uses.mem v = true ∨ (acc.defs.mem v = false ∧ UsedFirst v insts) := by
  induction insts generalizing acc with
  | nil => simp [UsedFirst]
  | cons inst insts ih =>
    have hKept : (markUses func acc inst).defs.mem v = false ↔
        acc.defs.mem v = false ∧ inst.result ≠ v := by
      rw [← Bool.not_eq_true, mem_defs_markUses hNe hLt, not_or, Bool.not_eq_true]
    rw [foldl_cons, ih, mem_uses_markUses hNe hLt, hKept, UsedFirst, or_assoc]
    refine or_congr_right ?_
    rw [and_comm (a := v ∈ inst.op.operands), and_assoc, ← and_or_left]

theorem mem_defs_defUse (b : MirBlockId) :
    (defUse func b).defs.mem v = true ↔ ∃ inst ∈ func.insts b, inst.result = v := by
  rw [defUse, mem_defs_foldl_markUses hNe hLt]
  simp

theorem mem_uses_defUse (b : MirBlockId) :
    (defUse func b).uses.mem v = true ↔ UsedFirst v (func.insts b) := by
  rw [defUse, mem_uses_foldl_markUses hNe hLt]
  simp

end

theorem mem_transfer_liveOut (value : Nat → Liveness func) (b : MirBlockId) :
    ((liveAnalysis func).transfer value b).liveOut.mem v = true ↔
      ∃ next ∈ func.successors b, (value next).liveIn.mem v = true := by
  simp [liveAnalysis]

theorem mem_transfer_liveIn (value : Nat → Liveness func) (b : MirBlockId) (hNe : v ≠ 0)
    (hLt : v < func.nextValueId) :
    ((liveAnalysis func).transfer value b).liveIn.mem v = true ↔
      ((∃ next ∈ func.successors b, (value next).liveIn.mem v = true) ∧
        ∀ inst ∈ func.insts b, inst.result ≠ v) ∨ UsedFirst v (func.insts b) := by
  have hIn : ((liveAnalysis func).transfer value b).liveIn.mem v =
      ((((liveAnalysis func).transfer value b).liveOut.mem v && !(defUse func b).defs.mem v) ||
        (defUse func b).uses.mem v) := by
    simp only [ValueSet.mem, hLt, dif_pos]
    rfl
  have hDefs : (defUse func b).defs.mem v = false ↔
      ∀ inst ∈ func.insts b, inst.result ≠ v := by
    rw [← Bool.not_eq_true, mem_defs_defUse hNe hLt]
    simp
  rw [hIn, Bool.or_eq_true, Bool.and_eq_true, Bool.not_eq_true', mem_transfer_liveOut, hDefs,
    mem_uses_defUse hNe hLt]

/-- A value counts as live only where some walk reads it before defining it. -/
theorem readAhead_of_liveOut (hNe : v ≠ 0) (hLt : v < func.nextValueId) {b : MirBlockId}
    (h : (liveOut func b).mem v = true) :
    ∃ next ∈ func.successors b, ReadAhead func v next := by
  have hSolve := Dataflow.loop_value_induction (P := liveAnalysis func)
    (fun value => ∀ n, ((value n).liveIn.mem v = true → ReadAhead func v n) ∧
      ((value n).liveOut.mem v = true → ∃ next ∈ func.successors n, ReadAhead func v next))
    (by
      intro value node hValue n
      by_cases hn : n = node
      · subst hn
        rw [Function.update_self, mem_transfer_liveIn _ _ hNe hLt, mem_transfer_liveOut]
        constructor
        · rintro (⟨⟨next, hNext, hLive⟩, hKept⟩ | hUsed)
          · exact .later hKept hNext ((hValue next).1 hLive)
          · exact .here hUsed
        · rintro ⟨next, hNext, hLive⟩
          exact ⟨next, hNext, (hValue next).1 hLive⟩
      · rw [Function.update_of_ne hn]
        exact hValue n)
    (s := (liveAnalysis func).start ⟨ValueSet.empty, ValueSet.empty⟩)
    (fun n => by simp [Dataflow.start]) ((liveAnalysis func).fuel func.nextValueId)
  exact (hSolve b).2 h

theorem liveAnalysis_monotone {s t : Nat → Liveness func}
    (hLe : ∀ node, (liveAnalysis func).key (s node) ≤ (liveAnalysis func).key (t node))
    (b : MirBlockId) :
    (liveAnalysis func).key ((liveAnalysis func).transfer s b) ≤
      (liveAnalysis func).key ((liveAnalysis func).transfer t b) := by
  have hOut : ((liveAnalysis func).transfer s b).liveOut ≤
      ((liveAnalysis func).transfer t b).liveOut := by
    refine ValueSet.le_iff_mem.mpr fun v hv => ?_
    rw [mem_transfer_liveOut] at hv ⊢
    obtain ⟨next, hNext, hLive⟩ := hv
    exact ⟨next, hNext, ValueSet.le_iff_mem.mp (hLe next) v hLive⟩
  intro v hv
  have hAt := hOut v
  simp only [liveAnalysis, Bool.or_eq_true, Bool.and_eq_true] at hv hAt ⊢
  exact hv.imp_left fun hLive => ⟨hAt hLive.1, hLive.2⟩

theorem liveAnalysis_ascending (hCfg : func.CfgConsistent) :
    (liveAnalysis func).Ascending ValueSet.size func.nextValueId where
  monotone := liveAnalysis_monotone
  rank_lt := ValueSet.size_lt_size
  rank_le := ValueSet.size_le
  dependents_lt := fun node p hp =>
    MirFunction.lt_of_mem_targets ((hCfg.mem_predecessors_iff p node).mp hp)

/-- In a consistent function a value is live wherever a walk reads it before
defining it. -/
theorem liveOut_of_readAhead (hCfg : func.CfgConsistent) (hNe : v ≠ 0)
    (hLt : v < func.nextValueId)
    {b next : MirBlockId} (hNext : next ∈ func.successors b) (h : ReadAhead func v next) :
    (liveOut func b).mem v = true := by
  let value := (liveAnalysis func).solve ⟨ValueSet.empty, ValueSet.empty⟩ func.nextValueId
  have hStable : ∀ node, node < func.blocks.length →
      value node = (liveAnalysis func).transfer value node := by
    refine Dataflow.solve_stable (liveAnalysis_ascending hCfg) (fun _ _ => ValueSet.empty_le _) ?_
    intro s t node _ hKeys
    have hSuccs : (func.successors node).map (fun n => (s n).liveIn) =
        (func.successors node).map fun n => (t n).liveIn :=
      map_congr_left fun n hn => hKeys n ((hCfg.predecessors_iff node n).mpr hn)
    simp only [liveAnalysis, hSuccs]
  have hListed : ∀ {a c}, c ∈ func.successors a → a < func.blocks.length := fun hc =>
    MirFunction.lt_of_mem_targets ((hCfg.mem_successors_iff _ _).mp hc)
  have hLiveIn : ∀ {c}, ReadAhead func v c → (value c).liveIn.mem v = true := by
    intro c hc
    induction hc with
    | @here c hUsed =>
      have hc : c < func.blocks.length := by
        by_contra hOut
        rw [MirFunction.insts_eq_nil (Nat.le_of_not_lt hOut)] at hUsed
        exact hUsed
      rw [hStable c hc, mem_transfer_liveIn _ _ hNe hLt]
      exact .inr hUsed
    | @later c d hKept hd hRead ih =>
      rw [hStable c (hListed hd), mem_transfer_liveIn _ _ hNe hLt]
      exact .inl ⟨⟨d, hd, ih⟩, hKept⟩
  have hOut : (value b).liveOut.mem v = true := by
    rw [hStable b (hListed hNext), mem_transfer_liveOut]
    exact ⟨next, hNext, hLiveIn h⟩
  exact hOut

end Casprix.Borrow
