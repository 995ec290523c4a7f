import Casprix.Mir.Verify
import Casprix.Regex.Layout

/-! What the verifier finds in an emitted function: at most unreachable blocks. -/
namespace Casprix.Regex

open List Mir Library

attribute [local simp] operandChecks valued plain

section

variable {d : Dfa} {f : MirFunction} {b s : Nat} {ds : DfaState} {block : MirBlock}

theorem block_cases (hb : b < 3 * d.states.length + 2) :
    b = 0 ∨ b = 1 ∨ ∃ s, s < d.states.length ∧
      (b = headId s ∨ b = bodyId s ∨ b = endId s) := by
  cases b with
  | zero => exact .inl rfl
  | succ b =>
    cases b with
    | zero => exact .inr (.inl rfl)
    | succ b =>
      refine .inr (.inr ⟨b / 3, ?_, ?_⟩)
      · omega
      · simp only [headId, bodyId, endId]
        omega

/-- An operand the verifier accepts: a numbered value with a type. -/
def Typed (f : MirFunction) (id : Nat) : Prop :=
  id < f.nextValueId ∧ (f.valueType id).isSome = true

theorem mirVerifyValueIdsOperand_of_typed {id : MirValueId} (h : Typed f id) (ctx : String) :
    mirVerifyValueIdsOperand f id ctx = [] := by
  obtain ⟨hLt, hType⟩ := h
  have hSome : (f.valueType id).isNone = false := by
    rw [← Option.not_isSome, hType]
    rfl
  simp [mirVerifyValueIdsOperand, mirVidDefined, hLt, hSome]

theorem Layout.typed_fixed (h : Layout d f) {i : Nat} (hi : i < 5) : Typed f (i + 1) := by
  constructor
  · rw [h.next, valueBase]
    omega
  · rcases i with _ | _ | _ | _ | _ | i
    case succ.succ.succ.succ.succ => omega
    all_goals
      rw [h.fixedTypes _ _ rfl]
      rfl

theorem Layout.typed_state (h : Layout d f) (hs : s < d.states.length) {i : Nat} (hi : i < 9) :
    Typed f (valueBase s + i) := by
  constructor
  · rw [h.next]
    simp only [valueBase]
    omega
  · have hWidth : i < Regex.stateTypes.length := hi
    rw [h.stateTypes s hs i _ (getElem?_eq_getElem hWidth)]
    rfl

/-- An instruction without vector lanes whose operands are typed, and whose
integer operands are integers, is accepted. -/
theorem mirVerifyInst_of_typed {inst : MirInst}
    (hOperands : ∀ p ∈ operandChecks inst.op, Typed f p.1)
    (hTypes : mirVerifyInstTypes f inst = []) : mirVerifyInst f inst = [] := by
  rw [mirVerifyInst, hTypes, append_nil, mirVerifyInstValueIds, flatMap_eq_nil_iff]
  intro p hp
  exact mirVerifyValueIdsOperand_of_typed (hOperands p hp) p.2

section

variable (h : Layout d f) (hs : s < d.states.length)
include h hs

theorem typed_dispatch :
    ∀ p ∈ operandChecks (dispatch s ds), Typed f p.1 := by
  unfold dispatch
  split
  · exact nofun
  · intro p hp
    rw [mem_singleton.mp hp]
    exact h.typed_state hs (by decide)

theorem mirVerifyInst_headInsts :
    ∀ inst ∈ headInsts s, mirVerifyInst f inst = [] := by
  have hSlot : Typed f 3 := h.typed_fixed (i := 2) (by decide)
  have hLen : Typed f 2 := h.typed_fixed (i := 1) (by decide)
  have hPos : Typed f (valueBase s) := h.typed_state hs (i := 0) (by decide)
  have hEnd : Typed f (valueBase s + 1) := h.typed_state hs (by decide)
  intro inst hInst
  simp only [headInsts, mem_cons, not_mem_nil, or_false] at hInst
  rcases hInst with rfl | rfl | rfl
  · exact mirVerifyInst_of_typed (by simpa using hSlot) rfl
  · exact mirVerifyInst_of_typed (by simpa using ⟨hPos, hLen⟩) rfl
  · exact mirVerifyInst_of_typed (by simpa using hEnd) rfl

theorem mirVerifyInst_bodyInsts :
    ∀ inst ∈ bodyInsts s ds, mirVerifyInst f inst = [] := by
  have hInput : Typed f 1 := h.typed_fixed (i := 0) (by decide)
  have hSlot : Typed f 3 := h.typed_fixed (i := 2) (by decide)
  have hPos : Typed f (valueBase s + 2) := h.typed_state hs (by decide)
  have hAddress : Typed f (valueBase s + 3) := h.typed_state hs (by decide)
  have hByte : Typed f (valueBase s + 4) := h.typed_state hs (by decide)
  have hOne : Typed f (valueBase s + 6) := h.typed_state hs (by decide)
  have hNext : Typed f (valueBase s + 7) := h.typed_state hs (by decide)
  have hAdd : mirVerifyInstTypes f (valued (.binary .add (valueBase s + 2) (valueBase s + 6))
      (valueBase s + 7) .i64) = [] := by
    simp [mirVerifyInstTypes, wrongOperands, h.stateTypes s hs 2 .i64 rfl,
      h.stateTypes s hs 6 .i64 rfl, MirType.isInteger, BinaryOp.isFloat]
  have hDispatch : mirVerifyInstTypes f (plain (dispatch s ds)) = [] := by
    unfold dispatch
    split <;> rfl
  intro inst hInst
  simp only [bodyInsts, mem_cons, not_mem_nil, or_false] at hInst
  rcases hInst with rfl | rfl | rfl | rfl | rfl | rfl | rfl | rfl
  · exact mirVerifyInst_of_typed (by simpa using hSlot) rfl
  · exact mirVerifyInst_of_typed (by simpa using ⟨hInput, hPos⟩) rfl
  · exact mirVerifyInst_of_typed (by simpa using hAddress) rfl
  · exact mirVerifyInst_of_typed (by simpa using hByte) rfl
  · exact mirVerifyInst_of_typed (by simp) rfl
  · exact mirVerifyInst_of_typed (by simpa using ⟨hPos, hOne⟩) hAdd
  · exact mirVerifyInst_of_typed (by simpa using ⟨hSlot, hNext⟩) rfl
  · exact mirVerifyInst_of_typed (typed_dispatch h hs) hDispatch

theorem mirVerifyInst_endInsts :
    ∀ inst ∈ endInsts s ds, mirVerifyInst f inst = [] := by
  have hAnswer : Typed f (valueBase s + 8) := h.typed_state hs (by decide)
  intro inst hInst
  simp only [endInsts, mem_cons, not_mem_nil, or_false] at hInst
  rcases hInst with rfl | rfl
  · exact mirVerifyInst_of_typed (by simp) rfl
  · exact mirVerifyInst_of_typed (by simpa using hAnswer) rfl

end

theorem mirVerifyInst_entryInsts (h : Layout d f) :
    ∀ inst ∈ entryInsts, mirVerifyInst f inst = [] := by
  have hSlot : Typed f 3 := h.typed_fixed (i := 2) (by decide)
  have hZero : Typed f 4 := h.typed_fixed (i := 3) (by decide)
  intro inst hInst
  simp only [entryInsts, mem_cons, not_mem_nil, or_false] at hInst
  rcases hInst with rfl | rfl | rfl | rfl
  · exact mirVerifyInst_of_typed (by simp) rfl
  · exact mirVerifyInst_of_typed (by simp) rfl
  · exact mirVerifyInst_of_typed (by simpa using ⟨hSlot, hZero⟩) rfl
  · exact mirVerifyInst_of_typed (by simp) rfl

theorem mirVerifyInst_rejectInsts (h : Layout d f) :
    ∀ inst ∈ rejectInsts, mirVerifyInst f inst = [] := by
  have hZero : Typed f 5 := h.typed_fixed (i := 4) (by decide)
  intro inst hInst
  simp only [rejectInsts, mem_cons, not_mem_nil, or_false] at hInst
  rcases hInst with rfl | rfl
  · exact mirVerifyInst_of_typed (by simp) rfl
  · exact mirVerifyInst_of_typed (by simpa using hZero) rfl

/-- Straight code without PHIs that ends in its only terminator. -/
structure Straight (f : MirFunction) (b : MirBlockId) (insts : List MirInst) : Prop where
  terminated : ∃ inst, insts.getLast? = some inst ∧ inst.op.isTerminator = true
  order : instOrder f b false insts = []
  phis : insts.takeWhile (·.op.isPhi) = []

theorem Straight.accepted {insts : List MirInst} (h : Straight f b insts)
    (hInsts : block.insts = insts) (hOk : ∀ inst ∈ insts, mirVerifyInst f inst = []) :
    BlockAccepted f b block := by
  obtain ⟨inst, hLast, hTerm⟩ := h.terminated
  have hEnds : block.isTerminated = true := by
    rw [MirBlock.isTerminated, MirBlock.terminator, hInsts, hLast]
    exact hTerm
  constructor
  · rw [mirVerifyBlockShape, hEnds, hInsts, h.order, MirBlock.phis, hInsts, h.phis]
    rfl
  · rw [hInsts]
    exact hOk

theorem isTerminator_dispatch : (dispatch s ds).isTerminator = true := by
  unfold dispatch
  split <;> rfl

theorem isPhi_dispatch : (dispatch s ds).isPhi = false := by
  unfold dispatch
  split <;> rfl

theorem straight_bodyInsts : Straight f b (bodyInsts s ds) where
  terminated := ⟨plain (dispatch s ds), rfl, isTerminator_dispatch⟩
  order := by
    have hPhi : (dispatch s ds).isPhi = false := isPhi_dispatch
    simp only [bodyInsts, instOrder, valued, plain, hPhi, isTerminator_dispatch]
    rfl
  phis := rfl

/-- The verifier has nothing to report on any single block. -/
theorem blockAccepted (h : Layout d f) (hBlock : f.block? b = some block) :
    BlockAccepted f b block := by
  have hInsts : block.insts = f.insts b := (MirFunction.insts_of_block? hBlock).symm
  have hb := MirFunction.lt_of_block? hBlock
  rw [h.length] at hb
  rcases block_cases hb with rfl | rfl | ⟨s, hs, hCase⟩
  · have hShape : Straight f 0 entryInsts := ⟨⟨_, rfl, rfl⟩, rfl, rfl⟩
    exact hShape.accepted (hInsts.trans h.entry) (mirVerifyInst_entryInsts h)
  · have hShape : Straight f 1 rejectInsts := ⟨⟨_, rfl, rfl⟩, rfl, rfl⟩
    exact hShape.accepted (hInsts.trans h.reject) (mirVerifyInst_rejectInsts h)
  · obtain ⟨hHead, hBody, hEnd⟩ := h.state s _ (getElem?_eq_getElem hs)
    rcases hCase with rfl | rfl | rfl
    · have hShape : Straight f (headId s) (headInsts s) := ⟨⟨_, rfl, rfl⟩, rfl, rfl⟩
      exact hShape.accepted (hInsts.trans hHead) (mirVerifyInst_headInsts h hs)
    · exact straight_bodyInsts.accepted (hInsts.trans hBody) (mirVerifyInst_bodyInsts h hs)
    · have hShape : Straight f (endId s) (endInsts s d.states[s]) :=
        ⟨⟨_, rfl, rfl⟩, rfl, rfl⟩
      exact hShape.accepted (hInsts.trans hEnd) (mirVerifyInst_endInsts h hs)

end

section

variable {d : Dfa} {f : MirFunction} {b s t : Nat} {ds : DfaState}

/-- The live bytes below `b`. -/
def liveBelow (ds : DfaState) (b : Byte) : Nat :=
  (allBytes.take b.toNat).countP fun c => ((ds.trans[c.toNat]?).getD none).isSome

/-- The transitions the walk follows: those on the first 64 live bytes. -/
def Narrow (d : Dfa) (s t : Nat) : Prop :=
  ∃ ds, d.states[s]? = some ds ∧ ∃ b : Byte, (ds.trans[b.toNat]?).getD none = some t ∧
    liveBelow ds b < 64

/-- The blocks the walk follows from the body of a state. -/
def bodySuccs (ds : DfaState) : List MirBlockId :=
  let targets := ((stateCases ds).filterMap (·.target)).take 64
  if targets.length < 64 then targets ++ [1] else targets

theorem walkSuccs_eq (hInsts : f.insts b ≠ []) :
    walkSuccs f b = mirCollectTermSuccs 64 (f.insts b).getLast? := by
  rw [walkSuccs, MirFunction.insts]
  cases hBlock : f.block? b with
  | none => rw [MirFunction.insts, hBlock] at hInsts; exact absurd rfl hInsts
  | some block => rfl

theorem walkSuccs_entry (h : Layout d f) : walkSuccs f 0 = [headId 0] := by
  rw [walkSuccs_eq (h.entry ▸ cons_ne_nil _ _), h.entry]
  rfl

theorem walkSuccs_reject (h : Layout d f) : walkSuccs f 1 = [] := by
  rw [walkSuccs_eq (h.reject ▸ cons_ne_nil _ _), h.reject]
  rfl

section

variable (h : Layout d f) (hState : d.states[s]? = some ds)
include h hState

theorem walkSuccs_head :
    walkSuccs f (headId s) = [endId s, bodyId s] := by
  have hInsts := (h.state s ds hState).1
  rw [walkSuccs_eq (hInsts ▸ cons_ne_nil _ _), hInsts]
  rfl

theorem walkSuccs_end :
    walkSuccs f (endId s) = [] := by
  have hInsts := (h.state s ds hState).2.2
  rw [walkSuccs_eq (hInsts ▸ cons_ne_nil _ _), hInsts]
  rfl

theorem walkSuccs_body
    (hLive : (stateCases ds).length = ds.ntrans) : walkSuccs f (bodyId s) = bodySuccs ds := by
  have hInsts := (h.state s ds hState).2.1
  rw [walkSuccs_eq (hInsts ▸ cons_ne_nil _ _), hInsts]
  show mirCollectTermSuccs 64 (some (plain (dispatch s ds))) = _
  unfold dispatch
  split
  · next hNone =>
      have hNil : stateCases ds = [] := eq_nil_of_length_eq_zero (hLive.trans hNone)
      rw [bodySuccs, hNil]
      rfl
  · rfl

end

/-- The first `k` values of a partial function along a list. -/
theorem mem_take_filterMap {α β : Type} {g : α → Option β} {l : List α} {k : Nat} {x : β} :
    x ∈ (l.filterMap g).take k ↔ ∃ (i : Nat) (a : α), l[i]? = some a ∧ g a = some x ∧
      (l.take i).countP (fun a => (g a).isSome) < k := by
  induction l generalizing k with
  | nil => simp
  | cons c l ih =>
    have hShift : (∃ (i : Nat) (a : α), (c :: l)[i]? = some a ∧ g a = some x ∧
        ((c :: l).take i).countP (fun a => (g a).isSome) < k) ↔ (g c = some x ∧ 0 < k) ∨
        ∃ (i : Nat) (a : α), l[i]? = some a ∧ g a = some x ∧
          (l.take i).countP (fun a => (g a).isSome) + (if (g c).isSome then 1 else 0) < k := by
      constructor
      · intro hFound
        obtain ⟨i, a, hGet, hValue, hCount⟩ := hFound
        cases i with
        | zero =>
          cases hGet
          exact .inl ⟨hValue, hCount⟩
        | succ i => exact .inr ⟨i, a, hGet, hValue, by
          rwa [take_succ_cons, countP_cons] at hCount⟩
      · intro hFound
        cases hFound with
        | inl hHead => exact ⟨0, c, rfl, hHead⟩
        | inr hTail =>
          obtain ⟨i, a, hGet, hValue, hCount⟩ := hTail
          exact ⟨i + 1, a, hGet, hValue, by rwa [take_succ_cons, countP_cons]⟩
    rw [hShift]
    cases hValue : g c with
    | none => simp [hValue, ih]
    | some y =>
      cases k with
      | zero => simp
      | succ k => simp [hValue, ih, eq_comm]

theorem getElem?_allBytes {i : Nat} {a : Byte} : allBytes[i]? = some a ↔ i = a.toNat := by
  simp only [allBytes, getElem?_map, Option.map_eq_some_iff, List.getElem?_eq_some_iff,
    length_range, getElem_range]
  constructor
  · intro hFound
    obtain ⟨j, ⟨hj, hEq⟩, hByte⟩ := hFound
    rw [← hByte, ← hEq, UInt8.toNat_ofNat_of_lt' hj]
  · intro hEq
    exact ⟨i, ⟨hEq ▸ a.toNat_lt, rfl⟩, by rw [hEq, UInt8.ofNat_toNat]⟩

theorem targets_stateCases : (stateCases ds).filterMap (·.target) =
    allBytes.filterMap fun b => ((ds.trans[b.toNat]?).getD none).map headId := by
  rw [stateCases, filterMap_filterMap]
  apply filterMap_congr
  intro b _
  rw [stateCase]
  cases (ds.trans[b.toNat]?).getD none <;> rfl

theorem mem_bodySuccs : b ∈ bodySuccs ds ↔ (b = 1 ∧ (stateCases ds).length < 64) ∨
    ∃ (c : Byte) (t : Nat), (ds.trans[c.toNat]?).getD none = some t ∧ liveBelow ds c < 64 ∧
      b = headId t := by
  have hLength : ((stateCases ds).filterMap (·.target)).length = (stateCases ds).length := by
    rw [length_filterMap_eq_countP, countP_eq_length]
    intro c hc
    obtain ⟨bv, t, _, rfl⟩ := mem_stateCases.mp hc
    rfl
  have hTargets : b ∈ ((stateCases ds).filterMap (·.target)).take 64 ↔
      ∃ (c : Byte) (t : Nat), (ds.trans[c.toNat]?).getD none = some t ∧ liveBelow ds c < 64 ∧
        b = headId t := by
    rw [targets_stateCases, mem_take_filterMap]
    constructor
    · intro hFound
      obtain ⟨i, c, hGet, hValue, hCount⟩ := hFound
      obtain ⟨t, hTrans, hHead⟩ := Option.map_eq_some_iff.mp hValue
      rw [getElem?_allBytes.mp hGet] at hCount
      simp only [Option.isSome_map] at hCount
      exact ⟨c, t, hTrans, hCount, hHead.symm⟩
    · intro hFound
      obtain ⟨c, t, hTrans, hCount, hHead⟩ := hFound
      refine ⟨c.toNat, c, getElem?_allBytes.mpr rfl, by rw [hTrans, hHead]; rfl, ?_⟩
      simp only [Option.isSome_map]
      exact hCount
  simp only [bodySuccs, length_take, hLength]
  split
  · next hShort =>
      have hFew : (stateCases ds).length < 64 := by omega
      rw [mem_append, hTargets, mem_singleton]
      simp [hFew, or_comm]
  · next hFull =>
      have hMany : ¬ (stateCases ds).length < 64 := by omega
      rw [hTargets]
      simp [hMany]

/-- The states the walk gets to. -/
def Found (d : Dfa) : Nat → Prop := Relation.ReflTransGen (Narrow d) 0

/-- The walk gets to the blocks of the states found, and to the reject block
when one of these states has room for the default edge. -/
theorem found_of_reaches (hWell : d.WellFormed) (hLayout : Layout d f) {n : Nat}
    (hReach : Traversal.Reaches (walkSuccs f) n 0 b) :
    b = 0 ∨ (b = 1 ∧ ∃ s ds, Found d s ∧ d.states[s]? = some ds ∧ ds.ntrans < 64) ∨
      ∃ s ds, Found d s ∧ d.states[s]? = some ds ∧
        (b = headId s ∨ b = bodyId s ∨ b = endId s) := by
  induction hReach with
  | refl => exact .inl rfl
  | @tail a b _ hEdge ih =>
    have hSucc := hEdge.1
    rcases ih with rfl | ⟨rfl, _⟩ | ⟨s, ds, hFound, hState, rfl | rfl | rfl⟩
    · rw [walkSuccs_entry hLayout, mem_singleton] at hSucc
      have hPos : 0 < d.states.length := length_pos_iff.mpr hWell.states_ne_nil
      exact .inr (.inr ⟨0, _, .refl, getElem?_eq_getElem hPos, .inl hSucc⟩)
    · rw [walkSuccs_reject hLayout] at hSucc
      cases hSucc
    · rw [walkSuccs_head hLayout hState] at hSucc
      simp only [mem_cons, not_mem_nil, or_false] at hSucc
      exact .inr (.inr ⟨s, ds, hFound, hState, .inr hSucc.symm⟩)
    · have hLive := hWell.live ds (mem_of_getElem? hState)
      rw [walkSuccs_body hLayout hState hLive, mem_bodySuccs, hLive] at hSucc
      rcases hSucc with ⟨hReject, hFew⟩ | ⟨c, t, hTrans, hCount, hHead⟩
      · exact .inr (.inl ⟨hReject, s, ds, hFound, hState, hFew⟩)
      · have ht := hWell.target_lt ds (mem_of_getElem? hState) c t hTrans
        have hNext : Found d t := hFound.tail ⟨ds, hState, c, hTrans, hCount⟩
        exact .inr (.inr ⟨t, _, hNext, getElem?_eq_getElem ht, .inl hHead⟩)
    · rw [walkSuccs_end hLayout hState] at hSucc
      cases hSucc

private theorem reaches_step {a c : Nat} (hLayout : Layout d f)
    (h : Traversal.Reaches (walkSuccs f) f.blocks.length 0 a) (hSucc : c ∈ walkSuccs f a)
    (hc : c < 3 * d.states.length + 2) :
    Traversal.Reaches (walkSuccs f) f.blocks.length 0 c :=
  h.tail ⟨hSucc, by rwa [hLayout.length]⟩

section

variable (hWell : d.WellFormed) (hLayout : Layout d f)
include hWell hLayout

theorem reaches_head_of_found (hFound : Found d s) :
    s < d.states.length ∧ Traversal.Reaches (walkSuccs f) f.blocks.length 0 (headId s) := by
  induction hFound with
  | refl =>
    have hPos : 0 < d.states.length := length_pos_iff.mpr hWell.states_ne_nil
    refine ⟨hPos, reaches_step hLayout .refl ?_ ?_⟩
    · rw [walkSuccs_entry hLayout]
      exact mem_singleton.mpr rfl
    · simp only [headId]
      omega
  | @tail s t _ hEdge ih =>
    obtain ⟨hs, hHead⟩ := ih
    obtain ⟨ds, hState, c, hTrans, hCount⟩ := hEdge
    have hMem := mem_of_getElem? hState
    have ht := hWell.target_lt ds hMem c t hTrans
    have hBody : Traversal.Reaches (walkSuccs f) f.blocks.length 0 (bodyId s) := by
      apply reaches_step hLayout hHead
      · rw [walkSuccs_head hLayout hState]
        exact mem_cons_of_mem _ (mem_singleton.mpr rfl)
      · simp only [bodyId]
        omega
    refine ⟨ht, reaches_step hLayout hBody ?_ ?_⟩
    · rw [walkSuccs_body hLayout hState (hWell.live ds hMem), mem_bodySuccs]
      exact .inr ⟨c, t, hTrans, hCount, rfl⟩
    · simp only [headId]
      omega

/-- The walk gets everywhere when it finds every state and, in one of them,
the default edge. -/
theorem forall_reaches_iff :
    (∀ b, b < f.blocks.length → Traversal.Reaches (walkSuccs f) f.blocks.length 0 b) ↔
      (∀ s, s < d.states.length → Found d s) ∧ ∃ ds ∈ d.states, ds.ntrans < 64 := by
  rw [hLayout.length]
  constructor
  · intro hAll
    have hStates : ∀ s, s < d.states.length → Found d s := by
      intro s hs
      have hHead := found_of_reaches hWell hLayout (hAll (headId s) (by simp only [headId]; omega))
      rcases hHead with hZero | ⟨hOne, _⟩ | ⟨t, ds, hFound, _, hEq⟩
      · simp only [headId] at hZero
        omega
      · simp only [headId] at hOne
        omega
      · simp only [headId, bodyId, endId] at hEq
        have hSame : s = t := by omega
        rwa [hSame]
    refine ⟨hStates, ?_⟩
    rcases found_of_reaches hWell hLayout (hAll 1 (by omega)) with hZero |
      ⟨_, hFew⟩ | ⟨t, _, _, _, hEq⟩
    · cases hZero
    · obtain ⟨s, ds, _, hState, hCount⟩ := hFew
      exact ⟨ds, mem_of_getElem? hState, hCount⟩
    · simp only [headId, bodyId, endId] at hEq
      omega
  · intro hBoth b hb
    obtain ⟨hStates, ds, hMem, hFew⟩ := hBoth
    rw [← hLayout.length]
    have hHeads : ∀ s, s < d.states.length →
        Traversal.Reaches (walkSuccs f) f.blocks.length 0 (headId s) :=
      fun s hs => (reaches_head_of_found hWell hLayout (hStates s hs)).2
    have hBodies : ∀ s, s < d.states.length →
        Traversal.Reaches (walkSuccs f) f.blocks.length 0 (bodyId s) := by
      intro s hs
      apply reaches_step hLayout (hHeads s hs)
      · rw [walkSuccs_head hLayout (getElem?_eq_getElem hs)]
        exact mem_cons_of_mem _ (mem_singleton.mpr rfl)
      · simp only [bodyId]
        omega
    rcases block_cases hb with rfl | rfl | ⟨s, hs, rfl | rfl | rfl⟩
    · exact .refl
    · obtain ⟨s, hState⟩ := mem_iff_getElem?.mp hMem
      have hs := (List.getElem?_eq_some_iff.mp hState).1
      apply reaches_step hLayout (hBodies s hs) _ hb
      rw [walkSuccs_body hLayout hState (hWell.live ds hMem), mem_bodySuccs, hWell.live ds hMem]
      exact .inl ⟨rfl, hFew⟩
    · exact hHeads s hs
    · exact hBodies s hs
    · apply reaches_step hLayout (hHeads s hs) _ hb
      rw [walkSuccs_head hLayout (getElem?_eq_getElem hs)]
      exact mem_cons_self

/-- The verifier accepts the emitted function when its walk finds every state
and one with fewer than 64 live bytes. -/
theorem mirVerifyFunction_layout_iff :
    mirVerifyFunction f = [] ↔
      (∀ s, s < d.states.length → Found d s) ∧ ∃ ds ∈ d.states, ds.ntrans < 64 := by
  have hBlocks : f.blocks ≠ [] := by
    rw [← length_pos_iff, hLayout.length]
    omega
  rw [mirVerifyFunction_eq_nil_iff hLayout.body, mirVerifyCfgReachable_eq_nil_iff hBlocks,
    forall_reaches_iff hWell hLayout]
  constructor
  · exact fun hAll => hAll.2.2.2
  · exact fun hWalk => ⟨hBlocks, hLayout.entry_preds, fun _ _ => blockAccepted hLayout, hWalk⟩

end

end

end Casprix.Regex
