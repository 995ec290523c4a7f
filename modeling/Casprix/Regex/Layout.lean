import Casprix.Regex.Determinize
import Casprix.Regex.Emit

/-! The blocks, values and types of the emitted function. -/
namespace Casprix.Regex

open List Mir

/-- The blocks of state `s`; block 0 is the entry and block 1 the reject. -/
def headId (s : Nat) : Nat := 3 * s + 2

def bodyId (s : Nat) : Nat := 3 * s + 3

def endId (s : Nat) : Nat := 3 * s + 4

/-- The first value numbered for state `s`. -/
def valueBase (s : Nat) : Nat := 9 * s + 6

def valued (op : MirOp) (id : MirValueId) (type : MirType) : MirInst :=
  { op := op, result := id, type := some type }

def plain (op : MirOp) : MirInst := { op := op, type := some .void }

def entryInsts : List MirInst :=
  [valued (.alloca (some .i64) 1) 3 (.ptr .i64), valued (.constInt 0) 4 .i64,
    plain (.store 3 4), plain (.br (some (headId 0)))]

def rejectInsts : List MirInst := [valued (.constInt 0) 5 .i32, plain (.ret 5)]

def headInsts (s : Nat) : List MirInst :=
  [valued (.load 3) (valueBase s) .i64,
    valued (.binary .cmpGe (valueBase s) 2) (valueBase s + 1) .bool,
    plain (.condbr (valueBase s + 1) (some (endId s)) (some (bodyId s)))]

/-- The case of one byte, when its transition is live. -/
def stateCase (st : DfaState) (bv : Byte) : Option MirSwitchCase :=
  match (st.trans[bv.toNat]?).getD none with
  | some t => some { value := bv.toNat, target := some (headId t) }
  | none => none

def stateCases (st : DfaState) : List MirSwitchCase := allBytes.filterMap (stateCase st)

def dispatch (s : Nat) (st : DfaState) : MirOp :=
  if st.ntrans = 0 then .br (some 1)
  else .switch (valueBase s + 5) (stateCases st) (some 1)

def bodyInsts (s : Nat) (st : DfaState) : List MirInst :=
  [valued (.load 3) (valueBase s + 2) .i64,
    valued (.getElemPtr 1 (valueBase s + 2)) (valueBase s + 3) (.ptr .u8),
    valued (.load (valueBase s + 3)) (valueBase s + 4) .u8,
    valued (.unary .zext (valueBase s + 4) (some .i64)) (valueBase s + 5) .i64,
    valued (.constInt 1) (valueBase s + 6) .i64,
    valued (.binary .add (valueBase s + 2) (valueBase s + 6)) (valueBase s + 7) .i64,
    plain (.store 3 (valueBase s + 7)), plain (dispatch s st)]

def endInsts (s : Nat) (st : DfaState) : List MirInst :=
  [valued (.constInt (if st.accepting then 1 else 0)) (valueBase s + 8) .i32,
    plain (.ret (valueBase s + 8))]

def headTypes : List MirType := [.i64, .bool]

def bodyTypes : List MirType := [.i64, .ptr .u8, .u8, .i64, .i64, .i64]

def stateTypes : List MirType := headTypes ++ bodyTypes ++ [.i32]

/-- What a state adds to block `c`. -/
def stateInsts (s : Nat) (st : DfaState) : MirBlockId → List MirInst :=
  fun c => only (headId s) (headInsts s) c ++
    (only (bodyId s) (bodyInsts s st) c ++ only (endId s) (endInsts s st) c)

section

variable {f : MirFunction} {b n s : Nat} {st : DfaState} {bbs : List StateBlocks}

private theorem only_append (b c : MirBlockId) (xs ys : List MirInst) :
    only b xs c ++ only b ys c = only b (xs ++ ys) c := by
  unfold only
  split <;> rfl

theorem builds_emitHead (h : Site f n (valueBase s)) (hs : endId s < n) (b : MirBlockId) :
    ∃ f', Builds (emitHead 2 3 ⟨headId s, bodyId s, endId s⟩) f b () f' (headId s)
      (only (headId s) (headInsts s)) headTypes := by
  have hb : headId s < n := by
    simp only [headId, endId] at hs ⊢
    omega
  have hEnd : endId s ≠ 0 := Nat.succ_ne_zero _
  have hBody : bodyId s ≠ 0 := Nat.succ_ne_zero _
  have h₀ := builds_setBlock h b (headId s)
  obtain ⟨f₁, h₁⟩ := builds_emit h hb (.load 3) .i64 (by decide)
  have hSite₁ := h.step h₁.result
  obtain ⟨f₂, h₂⟩ := builds_emit hSite₁ hb
    (.binary .cmpGe (valueBase s) 2) .bool (by decide)
  have hSite₂ := hSite₁.step h₂.result
  obtain ⟨f₃, h₃⟩ := builds_condbr hSite₂ hb (valueBase s + 1) hEnd hBody
  refine ⟨f₃, (h₀.bind (h₁.bind (h₂.bind h₃))).congr (fun c => ?_) rfl⟩
  simp only [nil_append, only_append]
  rfl

variable (st) in
theorem builds_emitEnd (h : Site f n (valueBase s + 8)) (hs : endId s < n) (b : MirBlockId) :
    ∃ f', Builds (emitEnd ⟨headId s, bodyId s, endId s⟩ st) f b () f' (endId s)
      (only (endId s) (endInsts s st)) [.i32] := by
  have h₀ := builds_setBlock h b (endId s)
  obtain ⟨f₁, h₁⟩ := builds_emit h hs
    (.constInt (if st.accepting then 1 else 0)) .i32 (by decide)
  obtain ⟨f₂, h₂⟩ := builds_emitVoid (h.step h₁.result) hs (.ret (valueBase s + 8))
  refine ⟨f₂, (h₀.bind (h₁.bind h₂)).congr (fun c => ?_) rfl⟩
  simp only [nil_append, only_append]
  rfl

/-- The edges of a switch: one to each case, then one to the default. -/
theorem builds_linkCases {k : Nat} (h : Site f n k) (b : MirBlockId) {cases : List MirSwitchCase}
    (hCases : ∀ c ∈ cases, ∃ t, c.target = some t ∧ t ≠ 0) :
    ∃ f', Builds (cases.forM fun c => Build.linkCfg c.target) f b () f' b (fun _ => []) [] := by
  induction cases generalizing f with
  | nil => exact ⟨f, rfl, Extends.refl h.ready⟩
  | cons c cases ih =>
    obtain ⟨t, hTarget, hNe⟩ := hCases c mem_cons_self
    obtain ⟨f₁, h₁⟩ := builds_linkCfg h b hNe
    obtain ⟨f₂, h₂⟩ := ih (h.step h₁.result) fun c hc => hCases c (mem_cons_of_mem _ hc)
    refine ⟨f₂, ?_⟩
    show Builds (Build.linkCfg c.target >>= fun _ => _) f b () f₂ b _ _
    rw [hTarget]
    exact h₁.bind h₂

theorem builds_emitSwitch {k : Nat} (h : Site f n k) (hb : b < n) (v : MirValueId)
    {cases : List MirSwitchCase} (hCases : ∀ c ∈ cases, ∃ t, c.target = some t ∧ t ≠ 0)
    {target : MirBlockId} (hTarget : target ≠ 0) :
    ∃ f', Builds (emitSwitch v cases (some target)) f b () f' b
      (only b [plain (.switch v cases (some target))]) [] := by
  obtain ⟨f₁, h₁⟩ := builds_emitVoid h hb (.switch v cases (some target))
  have hSite₁ := h.step h₁.result
  obtain ⟨f₂, h₂⟩ := builds_linkCases hSite₁ b hCases
  obtain ⟨f₃, h₃⟩ := builds_linkCfg (hSite₁.step h₂.result) b hTarget
  exact ⟨f₃, (h₁.bind (h₂.bind h₃)).congr (fun c => append_nil _) rfl⟩

theorem mem_stateCases {c : MirSwitchCase} : c ∈ stateCases st ↔
    ∃ (bv : Byte) (t : Nat), (st.trans[bv.toNat]?).getD none = some t ∧
      c = { value := bv.toNat, target := some (headId t) } := by
  simp only [stateCases, mem_filterMap, mem_allBytes, true_and]
  constructor
  · rintro ⟨bv, hCase⟩
    unfold stateCase at hCase
    split at hCase
    · next t hTrans => exact ⟨bv, t, hTrans, (Option.some.inj hCase).symm⟩
    · cases hCase
  · rintro ⟨bv, t, hTrans, rfl⟩
    exact ⟨bv, by simp [stateCase, hTrans]⟩

theorem builds_emitBody (h : Site f n (valueBase s + 2)) (hs : endId s < n) (b : MirBlockId)
    (hInput : f.valueType 1 = some (.ptr .u8)) (hCases : liveCases bbs st = stateCases st)
    (hLive : (stateCases st).length = st.ntrans) :
    ∃ f', Builds (emitBody bbs 1 3 1 ⟨headId s, bodyId s, endId s⟩ st) f b () f' (bodyId s)
      (only (bodyId s) (bodyInsts s st)) bodyTypes := by
  have hb : bodyId s < n := by
    simp only [bodyId, endId] at hs ⊢
    omega
  have h₀ := builds_setBlock h b (bodyId s)
  obtain ⟨f₁, h₁⟩ := builds_emit h hb (.load 3) .i64 (by decide)
  have hSite₁ := h.step h₁.result
  have hInput₁ : f₁.valueType 1 = some (.ptr .u8) := by
    rw [h₁.result.old_type 1 (by rw [h.next]; simp only [valueBase]; omega), hInput]
  have hPos₁ : f₁.valueType (valueBase s + 2) = some .i64 :=
    h.next ▸ h₁.result.new_type 0 _ rfl
  obtain ⟨f₂, h₂⟩ := builds_emit_typeOf hSite₁ hb
    (.getElemPtr 1 (valueBase s + 2)) hInput₁
    (by decide)
  have hSite₂ := hSite₁.step h₂.result
  obtain ⟨f₃, h₃⟩ := builds_emit hSite₂ hb (.load (valueBase s + 3)) .u8 (by decide)
  have hSite₃ := hSite₂.step h₃.result
  obtain ⟨f₄, h₄⟩ := builds_emit hSite₃ hb
    (.unary .zext (valueBase s + 4) (some .i64)) .i64
    (by decide)
  have hSite₄ := hSite₃.step h₄.result
  obtain ⟨f₅, h₅⟩ := builds_emit hSite₄ hb (.constInt 1) .i64 (by decide)
  have hSite₅ := hSite₄.step h₅.result
  have hPos₅ : f₅.valueType (valueBase s + 2) = some .i64 := by
    rw [h₅.result.old_type _ (by rw [hSite₄.next]; simp only [length_singleton]; omega),
      h₄.result.old_type _ (by rw [hSite₃.next]; simp only [length_singleton]; omega),
      h₃.result.old_type _ (by rw [hSite₂.next]; simp only [length_singleton]; omega),
      h₂.result.old_type _ (by rw [hSite₁.next]; simp only [length_singleton]; omega), hPos₁]
  obtain ⟨f₆, h₆⟩ := builds_emit_typeOf hSite₅ hb
    (.binary .add (valueBase s + 2) (valueBase s + 6)) hPos₅ (by decide)
  have hSite₆ := hSite₅.step h₆.result
  obtain ⟨f₇, h₇⟩ := builds_emitVoid hSite₆ hb (.store 3 (valueBase s + 7))
  have hSite₇ := hSite₆.step h₇.result
  obtain ⟨f₈, h₈⟩ : ∃ f₈, Builds (if st.ntrans = 0 then Build.br (some 1)
      else emitSwitch (valueBase s + 5)
        ((liveCases bbs st).take st.ntrans) (some 1)) f₇ (bodyId s)
      () f₈ (bodyId s) (only (bodyId s) [plain (dispatch s st)]) [] := by
    unfold dispatch
    split
    · exact builds_br hSite₇ hb one_ne_zero
    · rw [hCases, ← hLive, take_length]
      apply builds_emitSwitch hSite₇ hb _ _ one_ne_zero
      intro c hc
      obtain ⟨bv, t, _, rfl⟩ := mem_stateCases.mp hc
      exact ⟨headId t, rfl, Nat.succ_ne_zero _⟩
  refine ⟨f₈, (h₀.bind (h₁.bind (h₂.bind (h₃.bind (h₄.bind (h₅.bind (h₆.bind
    (h₇.bind h₈)))))))).congr (fun c => ?_) rfl⟩
  simp only [nil_append, only_append]
  rfl

/-- The blocks of state `s`, as they are added. -/
def blocksOf (s : Nat) : StateBlocks := ⟨headId s, bodyId s, endId s⟩

/-- A state whose cases are those the emission collects. -/
structure CasesOk (bbs : List StateBlocks) (st : DfaState) : Prop where
  cases_eq : liveCases bbs st = stateCases st
  live : (stateCases st).length = st.ntrans

theorem builds_emitState (h : Site f n (valueBase s)) (hs : endId s < n) (b : MirBlockId)
    (hInput : f.valueType 1 = some (.ptr .u8)) (hCases : CasesOk bbs st) :
    ∃ f', Builds (emitState bbs 1 2 3 1 (blocksOf s) st) f b () f' (endId s) (stateInsts s st)
      stateTypes := by
  obtain ⟨f₁, h₁⟩ := builds_emitHead h hs b
  have hSite₁ : Site f₁ n (valueBase s + 2) := h.step h₁.result
  have hInput₁ : f₁.valueType 1 = some (.ptr .u8) := by
    rw [h₁.result.old_type 1 (by rw [h.next]; simp only [valueBase]; omega), hInput]
  obtain ⟨f₂, h₂⟩ := builds_emitBody hSite₁ hs
    (headId s) hInput₁ hCases.cases_eq hCases.live
  have hSite₂ : Site f₂ n (valueBase s + 8) := hSite₁.step h₂.result
  obtain ⟨f₃, h₃⟩ := builds_emitEnd st hSite₂ hs (bodyId s)
  exact ⟨f₃, h₁.bind (h₂.bind h₃)⟩

/-- What the states from number `s` on add to block `c`. -/
def statesInsts : Nat → List DfaState → MirBlockId → List MirInst
  | _, [], _ => []
  | s, st :: states, c => stateInsts s st c ++ statesInsts (s + 1) states c

theorem builds_states {states : List DfaState} (h : Site f n (valueBase s))
    (hn : 3 * (s + states.length) + 2 ≤ n) (b : MirBlockId)
    (hInput : f.valueType 1 = some (.ptr .u8)) (hCases : ∀ st ∈ states, CasesOk bbs st) :
    ∃ f' b', Builds ((((List.range' s states.length).map blocksOf).zip states).forM
        fun (blocks, st) => emitState bbs 1 2 3 1 blocks st) f b () f' b' (statesInsts s states)
      (states.flatMap fun _ => stateTypes) := by
  induction states generalizing s f b with
  | nil => exact ⟨f, b, rfl, Extends.refl h.ready⟩
  | cons st states ih =>
    have hs : endId s < n := by
      simp only [endId, length_cons] at hn ⊢
      omega
    obtain ⟨f₁, h₁⟩ := builds_emitState h hs b hInput (hCases st mem_cons_self)
    have hSite₁ : Site f₁ n (valueBase (s + 1)) := h.step h₁.result
    have hInput₁ : f₁.valueType 1 = some (.ptr .u8) := by
      rw [h₁.result.old_type 1 (by rw [h.next]; simp only [valueBase]; omega), hInput]
    obtain ⟨f₂, b₂, h₂⟩ := ih hSite₁ (by simp only [length_cons] at hn; omega) (endId s)
      hInput₁ fun st hst => hCases st (mem_cons_of_mem _ hst)
    exact ⟨f₂, b₂, h₁.bind h₂⟩

theorem builds_emitBlocks {states : List DfaState} (h : Site f n 3) (hStates : states ≠ [])
    (hn : n = 3 * states.length + 2) (hInput : f.valueType 1 = some (.ptr .u8))
    (hBbs : bbs = (List.range' 0 states.length).map blocksOf)
    (hCases : ∀ st ∈ states, CasesOk bbs st) :
    ∃ f' b', Builds (emitBlocks bbs 1 2 0 1 states) f 0 () f' b'
      (fun c => only 0 entryInsts c ++ (only 1 rejectInsts c ++ statesInsts 0 states c))
      ([.ptr .i64, .i64] ++ ([.i32] ++ states.flatMap fun _ => stateTypes)) := by
  have hPos : 0 < states.length := length_pos_iff.mpr hStates
  have hHead : headBb bbs 0 = some (headId 0) := by
    simp [headBb, hBbs, hPos, blocksOf]
  have h0 : 0 < n := by omega
  have h1 : 1 < n := by omega
  have hNe : headId 0 ≠ 0 := Nat.succ_ne_zero _
  have hEntry := builds_setBlock h 0 0
  obtain ⟨f₁, h₁⟩ := builds_emit h h0 (.alloca (some .i64) 1) (.ptr .i64) (by decide)
  have hSite₁ := h.step h₁.result
  obtain ⟨f₂, h₂⟩ := builds_emit hSite₁ h0 (.constInt 0) .i64 (by decide)
  have hSite₂ := hSite₁.step h₂.result
  obtain ⟨f₃, h₃⟩ := builds_emitVoid hSite₂ h0 (.store 3 4)
  have hSite₃ := hSite₂.step h₃.result
  obtain ⟨f₄, h₄⟩ := builds_br hSite₃ h0 hNe
  have hSite₄ := hSite₃.step h₄.result
  have hReject := builds_setBlock hSite₄ 0 1
  obtain ⟨f₅, h₅⟩ := builds_emit hSite₄ h1 (.constInt 0) .i32 (by decide)
  have hSite₅ := hSite₄.step h₅.result
  obtain ⟨f₆, h₆⟩ := builds_emitVoid hSite₅ h1 (.ret 5)
  have hSite₆ : Site f₆ n (valueBase 0) := hSite₅.step h₆.result
  have hFirst := h₁.result.trans (h₂.result.trans (h₃.result.trans (h₄.result.trans
    (h₅.result.trans h₆.result))))
  have hInput₆ : f₆.valueType 1 = some (.ptr .u8) := by
    rw [hFirst.old_type 1 (by rw [h.next]; decide), hInput]
  obtain ⟨f₇, b₇, h₇⟩ := builds_states hSite₆ (by omega) 1 hInput₆ hCases
  rw [← hBbs] at h₇
  refine ⟨f₇, b₇, ?_⟩
  unfold emitBlocks
  rw [hHead]
  refine (hEntry.bind (h₁.bind (h₂.bind (h₃.bind (h₄.bind (hReject.bind (h₅.bind
    (h₆.bind h₇)))))))).congr (fun c => ?_) rfl
  simp only [nil_append, ← append_assoc, only_append]
  rfl

end

/-- Every transition leads to a state, and every state counts its live ones. -/
structure Dfa.WellFormed (d : Dfa) : Prop where
  states_ne_nil : d.states ≠ []
  target_lt : ∀ st ∈ d.states, ∀ (b : Byte) t, (st.trans[b.toNat]?).getD none = some t →
    t < d.states.length
  live : ∀ st ∈ d.states, (stateCases st).length = st.ntrans

/-- What the emitted function consists of. -/
structure Layout (d : Dfa) (f : MirFunction) : Prop where
  length : f.blocks.length = 3 * d.states.length + 2
  next : f.nextValueId = valueBase d.states.length
  entry : f.insts 0 = entryInsts
  reject : f.insts 1 = rejectInsts
  state : ∀ (s : Nat) st, d.states[s]? = some st → f.insts (headId s) = headInsts s ∧
    f.insts (bodyId s) = bodyInsts s st ∧ f.insts (endId s) = endInsts s st
  fixedTypes : ∀ (i : Nat) t, [MirType.ptr .u8, .i64, .ptr .i64, .i64, .i32][i]? = some t →
    f.valueType (i + 1) = some t
  stateTypes : ∀ (s : Nat), s < d.states.length → ∀ (i : Nat) t, stateTypes[i]? = some t →
    f.valueType (valueBase s + i) = some t
  entry_preds : f.predecessors 0 = []
  body : f.isExtern = false
  params : f.params.map MirParam.valueId = [1, 2]

section

variable {s c : Nat} {st : DfaState} {states : List DfaState}

theorem statesInsts_of_lt (hc : c < 3 * s + 2) : statesInsts s states c = [] := by
  induction states generalizing s with
  | nil => rfl
  | cons st states ih =>
    have hHead : c ≠ headId s := by
      simp only [headId]
      omega
    have hBody : c ≠ bodyId s := by
      simp only [bodyId]
      omega
    have hEnd : c ≠ endId s := by
      simp only [endId]
      omega
    simp only [statesInsts, stateInsts, only, hHead, hBody, hEnd, if_false, nil_append]
    exact ih (by omega)

/-- The blocks of one state hold what that state added. -/
theorem statesInsts_of_get {i : Nat} (hState : states[i]? = some st)
    (hLo : headId (s + i) ≤ c) (hHi : c ≤ endId (s + i)) :
    statesInsts s states c = stateInsts (s + i) st c := by
  induction states generalizing s i with
  | nil => simp at hState
  | cons first states ih =>
    cases i with
    | zero =>
      rw [getElem?_cons_zero, Option.some.injEq] at hState
      subst hState
      rw [statesInsts, statesInsts_of_lt, append_nil, add_zero]
      simp only [endId, add_zero] at hHi
      omega
    | succ i =>
      have hSkip : stateInsts s first c = [] := by
        have hHead : c ≠ headId s := by
          simp only [headId] at hLo ⊢
          omega
        have hBody : c ≠ bodyId s := by
          simp only [headId, bodyId] at hLo ⊢
          omega
        have hEnd : c ≠ endId s := by
          simp only [headId, endId] at hLo ⊢
          omega
        simp [stateInsts, only, hHead, hBody, hEnd]
      have hShift : s + (i + 1) = s + 1 + i := by omega
      rw [statesInsts, hSkip, nil_append, hShift]
      rw [hShift] at hLo hHi
      exact ih hState hLo hHi

theorem stateInsts_head : stateInsts s st (headId s) = headInsts s := by
  simp [stateInsts, only, headId, bodyId, endId]

theorem stateInsts_body : stateInsts s st (bodyId s) = bodyInsts s st := by
  simp [stateInsts, only, headId, bodyId, endId]

theorem stateInsts_end : stateInsts s st (endId s) = endInsts s st := by
  simp [stateInsts, only, headId, bodyId, endId]

/-- The blocks the loop adds are listed in order after those of `f`. -/
theorem foldl_addStateBlocks {f : MirFunction} (hLength : f.blocks.length = 2) (n : Nat) :
    ∃ blocks : List MirBlock, blocks.length = 3 * n ∧
      (∀ block ∈ blocks, block.insts = []) ∧
      (List.range n).foldl addStateBlocks ([], f) =
        ((List.range' 0 n).map blocksOf, { f with blocks := f.blocks ++ blocks }) := by
  induction n with
  | zero => exact ⟨[], rfl, by simp, by simp⟩
  | succ n ih =>
    obtain ⟨blocks, hBlocks, hEmpty, hFold⟩ := ih
    refine ⟨blocks ++ [{ label := "state_" ++ toString n }, { label := "body_" ++ toString n },
      { label := "end_" ++ toString n }], ?_, ?_, ?_⟩
    · simp only [length_append, length_cons, length_nil]
      omega
    · intro block hBlock
      rcases mem_append.mp hBlock with hBlock | hBlock
      · exact hEmpty block hBlock
      · simp only [mem_cons, not_mem_nil, or_false] at hBlock
        rcases hBlock with rfl | rfl | rfl <;> rfl
    · have hCount : (f.blocks ++ blocks).length = headId n := by
        rw [length_append, hLength, hBlocks, headId]
        omega
      rw [range_succ, foldl_append, hFold, range'_concat]
      have hBody : f.blocks.length + (blocks.length + 1) = 3 * n + 3 := by omega
      have hEnd : f.blocks.length + (blocks.length + 2) = 3 * n + 4 := by omega
      simp [addStateBlocks, MirFunction.addBlock, hCount, blocksOf, bodyId, endId, hBody, hEnd]

theorem length_stateCases (hWidth : st.trans.length = 256) :
    (stateCases st).length = st.trans.countP Option.isSome := by
  have hTrans : allBytes.map (fun b => (st.trans[b.toNat]?).getD none) = st.trans := by
    apply ext_getElem
    · simp [allBytes, hWidth]
    · intro i hi hi'
      have hByte : i < 256 := hWidth ▸ hi'
      have hNat : (UInt8.ofNat i).toNat = i := UInt8.toNat_ofNat_of_lt' hByte
      simp [allBytes, hNat, hi']
  have hSome : (fun b => (stateCase st b).isSome) =
      Option.isSome ∘ fun b : Byte => (st.trans[b.toNat]?).getD none := by
    funext b
    unfold stateCase
    simp only [Function.comp]
    split
    · next hCase => rw [hCase]; rfl
    · next hCase => rw [hCase]; rfl
  rw [stateCases, length_filterMap_eq_countP, hSome, ← countP_map, hTrans]

theorem wellFormed_nfaToDfa (tree : RegexNode) : (nfaToDfa (buildNfa tree)).WellFormed := by
  have hStates : 0 < (buildNfa tree).states.length := by
    rw [length_buildNfa_states]
    exact Nat.succ_pos _
  have hExpanded := expandedTo_nfaToDfa (closed_buildNfa tree) hStates
  refine ⟨?_, ?_, ?_⟩
  · obtain ⟨st, hState, _⟩ := hExpanded.start
    exact ne_nil_of_mem (mem_of_getElem? hState)
  · intro st hst b t hTrans
    obtain ⟨i, hi⟩ := mem_iff_getElem?.mp hst
    have hLt := (List.getElem?_eq_some_iff.mp hi).1
    rcases hExpanded.made i st b hi hLt with ⟨_, hDead⟩ | ⟨j, st', hLive, hTarget, _⟩
    · rw [hDead] at hTrans
      cases hTrans
    · rw [hLive] at hTrans
      cases hTrans
      exact (List.getElem?_eq_some_iff.mp hTarget).1
  · intro st hst
    obtain ⟨i, hi⟩ := mem_iff_getElem?.mp hst
    have hOk := hExpanded.state i st hi
    rw [length_stateCases hOk.width, hOk.live]

theorem casesOk_of_wellFormed {d : Dfa} (h : d.WellFormed) (hst : st ∈ d.states) :
    CasesOk ((List.range' 0 d.states.length).map blocksOf) st where
  live := h.live st hst
  cases_eq := by
    apply filterMap_congr
    intro bv _
    unfold stateCase
    cases hTrans : (st.trans[bv.toNat]?).getD none with
    | none => rfl
    | some t =>
      have hLt := h.target_lt st hst bv t hTrans
      simp [headBb, hLt, blocksOf]

/-- The function with the two blocks that belong to no state. -/
structure StartOk (f : MirFunction) : Prop where
  site : Site f 2 3
  insts_nil : ∀ c, f.insts c = []
  types : ∀ (i : Nat) t, [MirType.ptr .u8, .i64][i]? = some t → f.valueType (i + 1) = some t
  entry_preds : f.predecessors 0 = []
  body : f.isExtern = false
  params : f.params.map MirParam.valueId = [1, 2]

theorem startOk_startFunction (funcName : String) : StartOk (startFunction funcName).2.2 where
  site := by
    refine ⟨⟨?_, ?_⟩, rfl, rfl⟩
    · exact Nat.succ_pos 2
    · have hTable : (startFunction funcName).2.2.valueTypes.length = 64 := rfl
      rw [hTable]
      exact Nat.le_of_ble_eq_true rfl
  insts_nil := by
    intro c
    match c with
    | 0 | 1 => rfl
    | c + 2 => rfl
  types := by
    intro i t ht
    match i with
    | 0 | 1 =>
      cases ht
      rfl
    | i + 2 => cases ht
  entry_preds := rfl
  body := rfl
  params := rfl

/-- The blocks of the states are empty when they are added. -/
theorem StartOk.addBlocks {f : MirFunction} (h : StartOk f) {blocks : List MirBlock} {n : Nat}
    (hCount : blocks.length = 3 * n) (hEmpty : ∀ block ∈ blocks, block.insts = []) :
    Site { f with blocks := f.blocks ++ blocks } (3 * n + 2) 3 ∧
      (∀ c, MirFunction.insts { f with blocks := f.blocks ++ blocks } c = []) ∧
      MirFunction.predecessors { f with blocks := f.blocks ++ blocks } 0 = [] := by
  refine ⟨⟨⟨h.site.ready.next_pos, h.site.ready.table⟩, ?_, h.site.next⟩,
    fun c => ?_, ?_⟩
  · show (f.blocks ++ blocks).length = _
    rw [length_append, h.site.length, hCount, add_comm]
  · have hOld := h.insts_nil c
    simp only [MirFunction.insts, MirFunction.block?] at hOld ⊢
    by_cases hc : c < f.blocks.length
    · rwa [getElem?_append_left hc]
    · rw [getElem?_append_right (Nat.le_of_not_lt hc)]
      cases hBlock : blocks[c - f.blocks.length]? with
      | none => rfl
      | some block => exact hEmpty block (mem_of_getElem? hBlock)
  · have hOld := h.entry_preds
    have hPos : 0 < f.blocks.length := by
      rw [h.site.length]
      exact Nat.succ_pos 1
    simp only [MirFunction.predecessors, MirFunction.block?] at hOld ⊢
    rwa [getElem?_append_left hPos]

theorem length_flatMap_stateTypes (states : List DfaState) :
    (states.flatMap fun _ => stateTypes).length = 9 * states.length := by
  induction states with
  | nil => rfl
  | cons st states ih =>
    rw [flatMap_cons, length_append, ih, length_cons]
    show 9 + _ = _
    omega

theorem getElem?_flatMap_stateTypes {s i : Nat} {t : MirType} (hs : s < states.length)
    (ht : stateTypes[i]? = some t) :
    (states.flatMap fun _ => stateTypes)[9 * s + i]? = some t := by
  have hi : i < 9 := (List.getElem?_eq_some_iff.mp ht).1
  induction states generalizing s with
  | nil => cases hs
  | cons st states ih =>
    cases s with
    | zero => rwa [flatMap_cons, mul_zero, zero_add, getElem?_append_left hi]
    | succ s =>
      have hShift : 9 * (s + 1) + i - stateTypes.length = 9 * s + i := by
        show 9 * (s + 1) + i - 9 = _
        omega
      rw [flatMap_cons, getElem?_append_right, hShift]
      · exact ih (Nat.lt_of_succ_lt_succ hs)
      · show 9 ≤ _
        omega

theorem paramId_eq {f : MirFunction} {i : Nat} {ids : List MirValueId}
    (h : f.params.map MirParam.valueId = ids) : paramId f i = (ids[i]?).getD 0 := by
  rw [paramId, ← h, getElem?_map]

theorem layout_emitMir (funcName : String) {d : Dfa} (h : d.WellFormed) :
    Layout d (emitMir funcName d) := by
  have hStart := startOk_startFunction funcName
  have hIds : (startFunction funcName).1 = 0 ∧ (startFunction funcName).2.1 = 1 := ⟨rfl, rfl⟩
  obtain ⟨blocks, hCount, hEmpty, hFold⟩ :=
    foldl_addStateBlocks hStart.site.length d.states.length
  obtain ⟨hSite, hInsts, hPreds⟩ := hStart.addBlocks hCount hEmpty
  have hParams : ({ (startFunction funcName).2.2 with
      blocks := (startFunction funcName).2.2.blocks ++ blocks } : MirFunction).params.map
        MirParam.valueId = [1, 2] := hStart.params
  have hTypes : ∀ (i : Nat) t, [MirType.ptr .u8, .i64][i]? = some t →
      MirFunction.valueType { (startFunction funcName).2.2 with
        blocks := (startFunction funcName).2.2.blocks ++ blocks } (i + 1) = some t := hStart.types
  have hBody : ({ (startFunction funcName).2.2 with
      blocks := (startFunction funcName).2.2.blocks ++ blocks } : MirFunction).isExtern = false :=
    hStart.body
  simp only [emitMir, hFold, hIds.1, hIds.2, paramId_eq hParams]
  generalize ({ (startFunction funcName).2.2 with
    blocks := (startFunction funcName).2.2.blocks ++ blocks } : MirFunction) = f
    at hSite hInsts hPreds hParams hTypes hBody ⊢
  obtain ⟨f', b', hBuilds⟩ := builds_emitBlocks hSite h.states_ne_nil rfl (hTypes 0 _ rfl) rfl
    fun st hst => casesOk_of_wellFormed h hst
  show Layout d ((emitBlocks _ 1 2 0 1 d.states).run ⟨f, 0⟩).2.func
  rw [hBuilds.run_eq]
  have hResult := hBuilds.result
  have hLow : ∀ c, c < 2 → statesInsts 0 d.states c = [] := fun c hc => statesInsts_of_lt hc
  constructor
  · rw [hResult.length_eq, hSite.length]
  · rw [hResult.next_eq, hSite.next]
    simp only [length_append, length_flatMap_stateTypes, length_cons, length_nil, valueBase]
    omega
  · rw [hResult.insts_eq, hInsts, hLow 0 (by decide)]
    simp [only]
  · rw [hResult.insts_eq, hInsts, hLow 1 (by decide)]
    simp [only]
  · intro s st hState
    have hNe : ∀ c, headId s ≤ c → c ≠ 0 ∧ c ≠ 1 := by
      intro c hc
      simp only [headId] at hc
      omega
    have hBlock : ∀ c, headId s ≤ c → c ≤ endId s → f'.insts c = stateInsts s st c := by
      intro c hLo hHi
      have hGet : statesInsts 0 d.states c = stateInsts (0 + s) st c :=
        statesInsts_of_get hState (by rwa [zero_add]) (by rwa [zero_add])
      rw [hResult.insts_eq, hInsts, hGet, zero_add]
      simp [only, hNe c hLo]
    refine ⟨?_, ?_, ?_⟩
    · rw [hBlock _ (le_rfl) (by simp only [headId, endId]; omega), stateInsts_head]
    · rw [hBlock _ (by simp only [headId, bodyId]; omega) (by simp only [bodyId, endId]; omega),
        stateInsts_body]
    · rw [hBlock _ (by simp only [headId, endId]; omega) (le_rfl), stateInsts_end]
  · intro i t ht
    have hOld : ∀ i, i < 2 → [MirType.ptr .u8, .i64][i]? = some t →
        f'.valueType (i + 1) = some t := by
      intro i hi ht
      rw [hResult.old_type _ (by rw [hSite.next]; exact Nat.succ_lt_succ hi)]
      exact hTypes i t ht
    rcases i with _ | _ | i
    · exact hOld 0 (by decide) ht
    · exact hOld 1 (by decide) ht
    · have hAll : ([MirType.ptr .i64, .i64] ++ ([MirType.i32] ++
          d.states.flatMap fun _ => stateTypes))[i]? = some t := by
        rcases i with _ | _ | _ | i
        case succ.succ.succ => cases ht
        all_goals exact ht
      have hNew := hResult.new_type i t hAll
      rwa [hSite.next, add_comm 3 i] at hNew
  · intro s hs i t ht
    have hAll : ([MirType.ptr .i64, .i64] ++ ([MirType.i32] ++
        d.states.flatMap fun _ => stateTypes))[9 * s + i + 3]? = some t :=
      getElem?_flatMap_stateTypes hs ht
    have hNew := hResult.new_type _ t hAll
    have hPlace : 3 + (9 * s + i + 3) = valueBase s + i := by
      simp only [valueBase]
      omega
    rwa [hSite.next, hPlace] at hNew
  · rw [hResult.entry_eq, hPreds]
  · rw [hResult.extern_eq, hBody]
  · rw [hResult.params_eq, hParams]

end

end Casprix.Regex
