import Casprix.Jit.RegAlloc

/-! What the pass over the instructions records about the values, and the order of the scan. -/
namespace Casprix.Jit

open List Mir

variable {func : MirFunction} {n : Nat} {idx : Int} {id x : MirValueId}
  {v v' v'' : MirValueId → JitVReg}

/-- The value is a parameter, a result, or an operand that the allocator looks at. -/
def Appears (func : MirFunction) (id : MirValueId) : Prop :=
  id ∈ func.params.map (·.valueId) ∨
    ∃ inst ∈ jitInsts func, id ∈ jraOperands inst.op ∨ inst.result = id

section

variable {change : JitVReg → JitVReg}

theorem touch_of_ne (hNe : x ≠ id) : touch n v id change x = v x := by
  unfold touch
  split
  · exact Function.update_of_ne hNe ..
  · rfl

/-- An id with an entry is changed. -/
theorem touch_self (hValue : IsValue n id) : touch n v id change id = change (v id) := by
  unfold touch
  rw [if_pos hValue, Function.update_self]

/-- An id outside the table is ignored. -/
theorem touch_of_not_isValue (hValue : ¬IsValue n id) : touch n v id change = v := if_neg hValue

/-- What is touched counts as used. -/
theorem used_touch (hChange : ∀ r, (change r).used = true) :
    (touch n v id change x).used = true ↔ (v x).used = true ∨ IsValue n x ∧ x = id := by
  by_cases hSame : x = id
  · subst hSame
    by_cases hValue : IsValue n x
    · rw [touch_self hValue]
      exact iff_of_true (hChange _) (.inr ⟨hValue, rfl⟩)
    · rw [touch_of_not_isValue hValue]
      exact (or_iff_left fun h => hValue h.1).symm
  · rw [touch_of_ne hSame, or_iff_left fun h => hSame h.2]

theorem touch_keeps {P : JitVReg → Prop} (hChange : P (v id) → P (change (v id)))
    (h : P (v x)) : P (touch n v id change x) := by
  by_cases hSame : x = id
  · subst hSame
    by_cases hValue : IsValue n x
    · rw [touch_self hValue]
      exact hChange h
    · rwa [touch_of_not_isValue hValue]
  · rwa [touch_of_ne hSame]

end

/-- A value is used in the end if it was so before or one of the items uses it. -/
theorem used_foldl {β : Type} (step : (MirValueId → JitVReg) → β → MirValueId → JitVReg)
    (uses : β → Prop) (hStep : ∀ v b, ((step v b) x).used = true ↔
      (v x).used = true ∨ uses b)
    (items : List β) : ((items.foldl step v) x).used = true ↔
      (v x).used = true ∨ ∃ b ∈ items, uses b := by
  induction items generalizing v with
  | nil => simp
  | cons b rest ih =>
    rw [foldl_cons, ih, hStep, or_assoc]
    simp only [mem_cons, exists_eq_or_imp]

theorem used_jraInst (entry : MirInst × Nat) : ((jraInst n v entry) x).used = true ↔
    (v x).used = true ∨ IsValue n x ∧
      (x ∈ jraOperands entry.1.op ∨ entry.1.result = x) := by
  unfold jraInst jraDef
  rw [used_touch fun _ => rfl]
  rw [used_foldl (jraUse n entry.2) (fun id => IsValue n x ∧ x = id)
    fun v id => used_touch fun _ => rfl]
  constructor
  · rintro ((hOld | ⟨id, hMem, hValue, rfl⟩) | ⟨hValue, rfl⟩)
    · exact .inl hOld
    · exact .inr ⟨hValue, .inl hMem⟩
    · exact .inr ⟨hValue, .inr rfl⟩
  · rintro (hOld | ⟨hValue, hMem | rfl⟩)
    · exact .inl (.inl hOld)
    · exact .inl (.inr ⟨x, hMem, hValue, rfl⟩)
    · exact .inr ⟨hValue, rfl⟩

@[simp] theorem used_normalise (r : JitVReg) : r.normalise.used = r.used := by
  unfold JitVReg.normalise
  split <;> rfl

/-- The used values are the ids with an entry that appear in the function. -/
theorem used_liveRanges : ((liveRanges func) id).used = true ↔
    IsValue (jitValueCount func) id ∧ Appears func id := by
  unfold liveRanges
  simp only [used_normalise]
  rw [used_foldl (jraInst _) _ fun v entry => used_jraInst entry]
  rw [used_foldl (jraParam (jitValueCount func))
    (fun p => IsValue (jitValueCount func) id ∧ id = p) fun v p => used_touch fun _ => rfl]
  constructor
  · rintro ((hNone | ⟨p, hMem, hValue, rfl⟩) | ⟨⟨inst, k⟩, hMem, hValue, hUse⟩)
    · cases hNone
    · exact ⟨hValue, .inl hMem⟩
    · have hInst := fst_mem_of_mem_zipIdx hMem
      exact ⟨hValue, .inr ⟨inst, hInst, hUse⟩⟩
  · rintro ⟨hValue, hMem | ⟨inst, hInst, hUse⟩⟩
    · exact .inl (.inr ⟨id, hMem, hValue, rfl⟩)
    · obtain ⟨k, hk⟩ := mem_iff_getElem?.mp hInst
      exact .inr ⟨(inst, k), mem_zipIdx_iff_getElem?.mpr hk, hValue, hUse⟩

section

variable {P : JitVReg → Prop}

/-- What every step keeps of an entry, the whole loop keeps. -/
theorem foldl_keeps {β : Type} (step : (MirValueId → JitVReg) → β → MirValueId → JitVReg)
    (hStep : ∀ v b, P (v x) → P (step v b x)) (items : List β) (h : P (v x)) :
    P (items.foldl step v x) := by
  induction items generalizing v with
  | nil => exact h
  | cons b rest ih => exact ih (hStep v b h)

theorem jraInst_keeps {entry : MirInst × Nat} (hUse : ∀ r, P r → P (JitVReg.use entry.2 r))
    (hDefine : ∀ r, P r → P (JitVReg.define entry.2 r)) (h : P (v x)) :
    P (jraInst n v entry x) := by
  have hOperands := foldl_keeps (jraUse n entry.2)
    (fun v id => touch_keeps (hUse (v id))) (jraOperands entry.1.op) h
  exact touch_keeps (hDefine _) hOperands

theorem foldl_jraInst_keeps (hUse : ∀ idx r, P r → P (JitVReg.use idx r))
    (hDefine : ∀ idx r, P r → P (JitVReg.define idx r)) (entries : List (MirInst × Nat))
    (h : P (v x)) : P (entries.foldl (jraInst n) v x) :=
  foldl_keeps (jraInst n) (fun _ entry h =>
    jraInst_keeps (hUse entry.2) (hDefine entry.2) h) entries h

end

/-- A value that is live at the entry. -/
def LiveIn (r : JitVReg) : Prop := r.first = -1 ∧ 0 ≤ r.last

variable {r : JitVReg}

theorem LiveIn.use (h : LiveIn r) (idx : Int) : LiveIn (r.use idx) := by
  refine ⟨h.1, ?_⟩
  unfold JitVReg.use
  dsimp only
  split
  · have hLast := h.2
    omega
  · exact h.2

theorem LiveIn.define (h : LiveIn r) (idx : Int) : LiveIn (r.define idx) := by
  have hFirst : r.first ≠ jraFirstUnset := by
    rw [h.1]
    decide
  refine ⟨?_, (h.use idx).2⟩
  unfold JitVReg.define
  rw [if_neg hFirst, h.1]

/-- Parameters are live at the entry. -/
theorem liveIn_of_mem_params (hMem : id ∈ func.params.map (·.valueId))
    (hValue : IsValue (jitValueCount func) id) : LiveIn (liveRanges func id) := by
  have hKeeps : ∀ {v : MirValueId → JitVReg} {p : MirValueId}, LiveIn (v id) →
      LiveIn (jraParam (jitValueCount func) v p id) := fun h =>
    touch_keeps (fun _ => ⟨rfl, le_refl 0⟩) h
  have hParams : ∀ (params : List MirValueId) (v : MirValueId → JitVReg),
      id ∈ params ∨ LiveIn (v id) →
        LiveIn (params.foldl (jraParam (jitValueCount func)) v id) := by
    intro params
    induction params with
    | nil => exact fun v h => h.resolve_left not_mem_nil
    | cons p rest ih =>
      intro v h
      refine ih _ ?_
      rcases h with hMem | hLive
      · rcases mem_cons.mp hMem with rfl | hRest
        · refine .inr ?_
          unfold jraParam
          rw [touch_self hValue]
          exact ⟨rfl, le_refl 0⟩
        · exact .inl hRest
      · exact .inr (hKeeps hLive)
  have hLive := foldl_jraInst_keeps (n := jitValueCount func) (P := LiveIn)
    (fun idx r h => h.use idx) (fun idx r h => h.define idx) (jitInsts func).zipIdx
    (hParams _ (fun _ => {}) (.inl hMem))
  unfold liveRanges JitVReg.normalise
  rw [if_neg fun h => absurd (hLive.1.symm.trans h.2) (by decide)]
  exact hLive

/-- No register and no slot has been given to the value. -/
def Homeless (r : JitVReg) : Prop := r.reg = none ∧ r.spillSlot = none

theorem homeless_liveRanges (func : MirFunction) (id : MirValueId) :
    Homeless (liveRanges func id) := by
  have hParams := foldl_keeps (P := Homeless) (x := id)
    (jraParam (jitValueCount func)) (fun v p => touch_keeps (P := Homeless) fun h => h)
    (func.params.map (·.valueId)) (v := fun _ => {}) ⟨rfl, rfl⟩
  have hInsts := foldl_jraInst_keeps (n := jitValueCount func)
    (P := Homeless) (fun _ _ h => h) (fun _ _ h => h)
    (jitInsts func).zipIdx hParams
  unfold liveRanges JitVReg.normalise
  split
  · exact hInsts
  · exact hInsts

section

/-- The value has been defined at this index or before. -/
def Begun (idx : Int) (r : JitVReg) : Prop := r.first ≠ jraFirstUnset ∧ r.first ≤ idx

/-- Where the value has been defined, it begins at this index or before. -/
def NotAfter (idx : Int) (r : JitVReg) : Prop := r.first = jraFirstUnset ∨ r.first ≤ idx

theorem JitVReg.le_last_use (r : JitVReg) (idx : Int) :
    r.last ≤ (r.use idx).last ∧ idx ≤ (r.use idx).last := by
  unfold JitVReg.use
  dsimp only
  split <;> omega

theorem JitVReg.le_last_define (r : JitVReg) (idx : Int) :
    r.last ≤ (r.define idx).last ∧ idx ≤ (r.define idx).last := r.le_last_use idx

theorem Begun.define (h : Begun idx r) (idx' : Int) : Begun idx (r.define idx') := by
  have hSame : (r.define idx').first = r.first := if_neg h.1
  unfold Begun
  rw [hSame]
  exact h

/-- A definition begins the range, or finds it begun. -/
theorem begun_define (hIdx : 0 ≤ idx) (h : NotAfter idx r) : Begun idx (r.define idx) := by
  have hUnset : jraFirstUnset = -2 := rfl
  by_cases hNew : r.first = jraFirstUnset
  · have hFirst : (r.define idx).first = idx := if_pos hNew
    unfold Begun
    rw [hFirst]
    omega
  · have hFirst : (r.define idx).first = r.first := if_neg hNew
    unfold Begun
    rw [hFirst]
    exact ⟨hNew, h.resolve_left hNew⟩

/-- The range of a value reaches to where it is mentioned. -/
theorem le_last_jraInst {entry : MirInst × Nat} (hValue : IsValue n x)
    (hMention : x ∈ jraOperands entry.1.op ∨ entry.1.result = x) :
    (entry.2 : Int) ≤ (jraInst n v entry x).last := by
  rcases hMention with hUse | rfl
  · have hUsed : ∀ (operands : List MirValueId) (v : MirValueId → JitVReg),
        x ∈ operands ∨ (entry.2 : Int) ≤ (v x).last →
        (entry.2 : Int) ≤ (operands.foldl (jraUse n entry.2) v x).last := by
      intro operands
      induction operands with
      | nil => exact fun v h => h.resolve_left not_mem_nil
      | cons id rest ih =>
        intro v h
        refine ih _ ?_
        rcases h with hMem | hOld
        · rcases mem_cons.mp hMem with rfl | hRest
          · refine .inr ?_
            unfold jraUse
            rw [touch_self hValue]
            exact (JitVReg.le_last_use _ _).2
          · exact .inl hRest
        · exact .inr (touch_keeps (P := fun r => (entry.2 : Int) ≤ r.last)
            (fun h => h.trans (JitVReg.le_last_use _ _).1) hOld)
    exact touch_keeps (P := fun r => (entry.2 : Int) ≤ r.last)
      (fun h => h.trans (JitVReg.le_last_define _ _).1) (hUsed _ v (.inl hUse))
  · unfold jraInst jraDef
    rw [touch_self hValue]
    exact (JitVReg.le_last_define _ _).2

section

variable {i start : Nat} {inst : MirInst} {insts : List MirInst} (hValue : IsValue n x)
  (hInst : insts[i]? = some inst)
include hValue hInst

/-- By induction on the instructions: the range reaches to each mention. -/
theorem foldl_le_last (hMention : x ∈ jraOperands inst.op ∨ inst.result = x) :
    ((start + i : Nat) : Int) ≤ ((insts.zipIdx start).foldl (jraInst n) v x).last := by
  induction insts generalizing i start v with
  | nil => cases hInst
  | cons first rest ih =>
    rw [zipIdx_cons, foldl_cons]
    cases i with
    | zero =>
      rw [getElem?_cons_zero, Option.some.injEq] at hInst
      subst hInst
      exact foldl_jraInst_keeps (P := fun r => (start : Int) ≤ r.last)
        (fun idx r h => h.trans (r.le_last_use idx).1) (fun idx r h =>
          h.trans (r.le_last_define idx).1) _
        (@le_last_jraInst n x v (first, start) hValue hMention)
    | succ i =>
      have hRest := @ih (jraInst n v (first, start)) i (start + 1) hInst
      rwa [Nat.add_right_comm] at hRest

theorem foldl_begun (hResult : inst.result = x) (hBefore : NotAfter start (v x)) :
    Begun (start + i : Nat) ((insts.zipIdx start).foldl (jraInst n) v x) := by
  induction insts generalizing i start v with
  | nil => cases hInst
  | cons first rest ih =>
    rw [zipIdx_cons, foldl_cons]
    cases i with
    | zero =>
      rw [getElem?_cons_zero, Option.some.injEq] at hInst
      subst hInst
      have hUses := foldl_keeps (P := NotAfter start) (jraUse n start)
        (fun v id => touch_keeps (P := NotAfter start) fun h => h) (jraOperands first.op) hBefore
      have hHere : Begun start (jraInst n v (first, start) x) := by
        unfold jraInst jraDef
        rw [hResult, touch_self hValue]
        exact begun_define (Int.natCast_nonneg start) hUses
      exact foldl_jraInst_keeps (fun _ _ h => h) (fun idx r h => h.define idx) _ hHere
    | succ i =>
      have hHere : NotAfter start (jraInst n v (first, start) x) :=
        jraInst_keeps (P := NotAfter start) (fun r h => h)
          (fun r h => .inr (begun_define (Int.natCast_nonneg start) h).2) hBefore
      have hNext : NotAfter (start + 1 : Nat) (jraInst n v (first, start) x) :=
        hHere.imp_right fun h => by omega
      have hRest := ih hInst hNext
      rwa [Nat.add_right_comm] at hRest

end

section

variable {i : Nat} {inst : MirInst} (hValue : IsValue (jitValueCount func) x)
  (hInst : (jitInsts func)[i]? = some inst)
include hValue hInst

/-- No mention of a value is behind the end of its range. -/
theorem le_last_liveRanges (hMention : x ∈ jraOperands inst.op ∨ inst.result = x) :
    (i : Int) ≤ (liveRanges func x).last := by
  have hLast := @foldl_le_last (jitValueCount func) x
    ((func.params.map (·.valueId)).foldl (jraParam (jitValueCount func)) fun _ =>
      {}) i 0 inst _ hValue
    hInst hMention
  rw [Nat.zero_add] at hLast
  unfold liveRanges JitVReg.normalise
  split
  · exact hLast
  · exact hLast

/-- The range begins at the first definition or before. -/
theorem first_le_liveRanges (hResult : inst.result = x) : (liveRanges func x).first ≤ i := by
  have hParams := foldl_keeps (P := NotAfter 0) (x := x) (jraParam (jitValueCount func))
    (fun v p => touch_keeps (P := NotAfter 0) fun _ => .inr (Int.negSucc_lt_zero 0).le)
    (func.params.map (·.valueId)) (v := fun _ => {}) (.inl rfl)
  have hBegun := @foldl_begun (jitValueCount func) x _ i 0 inst _ hValue hInst hResult hParams
  rw [Nat.zero_add] at hBegun
  unfold liveRanges JitVReg.normalise
  rw [if_neg fun h => hBegun.1 h.2]
  exact hBegun.2

end

end

variable (v : MirValueId → JitVReg) (n : Nat)

section

/-- The order of the scan, from the last: by the beginning, and by the end where two begin
together. -/
theorem endsBehind_iff {y : MirValueId} : endsBehind v x y ↔
    (v y).first < (v x).first ∨ (v y).first = (v x).first ∧ (v y).last ≤ (v x).last := by
  unfold endsBehind
  omega

theorem endsBehind_total : Std.Total (endsBehind v) :=
  ⟨fun x y => by
    rw [endsBehind_iff, endsBehind_iff]
    omega⟩

theorem endsBehind_trans : IsTrans MirValueId (endsBehind v) :=
  ⟨fun x y z hxy hyz => by
    rw [endsBehind_iff] at hxy hyz ⊢
    omega⟩

/-- The insertion of the source sorts. -/
theorem scanOrder_eq : scanOrder v n =
    (((List.range n).filter fun id => (v id).used).reverse.insertionSort
      (endsBehind v)).reverse := by
  unfold scanOrder List.insertionSort
  rw [foldr_reverse]

theorem mem_scanOrder : id ∈ scanOrder v n ↔ id < n ∧ (v id).used = true := by
  rw [scanOrder_eq, mem_reverse, mem_insertionSort, mem_reverse, mem_filter, mem_range]

theorem nodup_scanOrder : (scanOrder v n).Nodup := by
  rw [scanOrder_eq, nodup_reverse, (perm_insertionSort _ _).nodup_iff, nodup_reverse]
  exact nodup_range.filter _

/-- The values are scanned in the order in which their ranges begin. -/
theorem pairwise_scanOrder : (scanOrder v n).Pairwise fun x y => (v x).first ≤ (v y).first := by
  have hTotal := endsBehind_total v
  have hTrans := endsBehind_trans v
  rw [scanOrder_eq, pairwise_reverse]
  refine (pairwise_insertionSort (endsBehind v) _).imp fun h => ?_
  rw [endsBehind_iff] at h
  omega

end

end Casprix.Jit
