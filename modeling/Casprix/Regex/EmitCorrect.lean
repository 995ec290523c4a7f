import Casprix.Mir.Semantics
import Casprix.Regex.Layout

/-! The emitted function computes what the reference matcher computes. -/
namespace Casprix.Regex

open List Mir

/-- A byte as the element a load of type `u8` produces. -/
def byteCell (b : Byte) : Option MirValue := some (.word (BitVec.ofNat 64 b.toNat))

/-- The caller's buffer: the input and whatever lies behind it. -/
def inputObject (input : List Byte) (beyond : List (Option MirValue)) : MirObject :=
  { elem := .u8, cells := input.map byteCell ++ beyond }

/-- The position counter. -/
def positionObject (p : Nat) : MirObject :=
  { elem := .i64, cells := [some (.word (BitVec.ofNat 64 p))] }

/-- What the matcher's registers and memory hold between two states, when the
first `p` bytes have been read. -/
structure Scanned (input : List Byte) (beyond : List (Option MirValue)) (p : Nat)
    (st : MirState) : Prop where
  base : st.values 1 = some (.ptr 0 0)
  len : st.values 2 = some (.word (BitVec.ofNat 64 input.length))
  slot : st.values 3 = some (.ptr 1 0)
  memory : st.memory = [inputObject input beyond, positionObject p]
  reads : ∀ place ∈ st.loads, place.1 = 0 → 0 ≤ place.2 ∧ place.2 < input.length

section

variable {d : Dfa} {func : MirFunction} {input : List Byte} {beyond : List (Option MirValue)}
  {s p : Nat} {ds : DfaState} {st : MirState}

theorem toInt_ofNat {n : Nat} (hn : n < 2 ^ 63) : (BitVec.ofNat 64 n).toInt = n := by
  have hNat : (BitVec.ofNat 64 n).toNat = n := by
    rw [BitVec.toNat_ofNat, Nat.mod_eq_of_lt]
    omega
  rw [BitVec.toInt_eq_toNat_of_lt, hNat]
  omega

namespace Scanned

section

variable (h : Scanned input beyond p st)
include h

/-- Registers numbered after the parameters and the entry block are free to change. -/
theorem assign {id : MirValueId} (hId : valueBase 0 ≤ id)
    (v : MirValue) : Scanned input beyond p (st.assign id v) := by
  have hNe : ∀ fixed : MirValueId, fixed < valueBase 0 → fixed ≠ id := by
    intro fixed hFixed hEq
    exact absurd (hEq ▸ hFixed) hId.not_gt
  constructor
  · rw [MirState.assign_of_ne (hNe 1 (by decide)), h.base]
  · rw [MirState.assign_of_ne (hNe 2 (by decide)), h.len]
  · rw [MirState.assign_of_ne (hNe 3 (by decide)), h.slot]
  · exact h.memory
  · exact h.reads

theorem record {place : Nat × Int}
    (hPlace : place.1 = 0 → 0 ≤ place.2 ∧ place.2 < input.length) :
    Scanned input beyond p (st.record place) where
  base := h.base
  len := h.len
  slot := h.slot
  memory := h.memory
  reads := by
    intro read hRead
    rcases mem_append.mp hRead with hOld | hNew
    · exact h.reads read hOld
    · rw [mem_singleton.mp hNew]
      exact hPlace

theorem load_position :
    st.load .i64 (1, 0) = some (.word (BitVec.ofNat 64 p)) := by
  simp [MirState.load, h.memory, positionObject]

theorem load_byte {i : Nat} {b : Byte} (hb : input[i]? = some b) :
    st.load .u8 (0, i) = some (.word (BitVec.ofNat 64 b.toNat)) := by
  obtain ⟨hLt, hGet⟩ := List.getElem?_eq_some_iff.mp hb
  have hCell : (inputObject input beyond).cells[i]? = some (byteCell b) := by
    rw [inputObject, getElem?_append_left (by rwa [length_map]), getElem?_map, hb]
    rfl
  have hElem : (inputObject input beyond).elem = .u8 := rfl
  simp [MirState.load, h.memory, hElem, hCell, byteCell]

theorem store_position (q : Nat) :
    ∃ st', st.store .i64 (1, 0) (.word (BitVec.ofNat 64 q)) = some st' ∧
      st'.values = st.values ∧ Scanned input beyond q st' := by
  refine ⟨{ st with memory := [inputObject input beyond, positionObject q] }, ?_, rfl, ?_⟩
  · simp [MirState.store, h.memory, positionObject]
  · exact ⟨h.base, h.len, h.slot, rfl, h.reads⟩

end

end Scanned

theorem sle_ofNat {m n : Nat} (hm : m < 2 ^ 63) (hn : n < 2 ^ 63) :
    (BitVec.ofNat 64 m).sle (BitVec.ofNat 64 n) = decide (m ≤ n) := by
  rw [BitVec.sle_eq_decide, toInt_ofNat hm, toInt_ofNat hn]
  simp

section

variable (hLayout : Layout d func) (hState : d.states[s]? = some ds) (h : Scanned input beyond p st)
include hLayout hState h

/-- The head of a state asks for another byte. -/
theorem steps_head (hLen : input.length < 2 ^ 63) (hp : p ≤ input.length) :
    ∃ st', Scanned input beyond p st' ∧
      let next := if p < input.length then bodyId s else endId s
      Steps func (.running (headId s) (func.insts (headId s)) st)
        (.running next (func.insts next) st') := by
  obtain ⟨hHead, hBody, hEnd⟩ := hLayout.state s ds hState
  have hBase : valueBase 0 ≤ valueBase s := Nat.le_add_left 6 (9 * s)
  let atEnd := boolWord (decide (input.length ≤ p))
  let st₁ := (st.record (1, 0)).assign (valueBase s) (.word (BitVec.ofNat 64 p))
  let st₂ := st₁.assign (valueBase s + 1) (.word atEnd)
  have h₁ : Scanned input beyond p st₁ :=
    (h.record fun hPlace => absurd hPlace one_ne_zero).assign hBase _
  have h₂ : Scanned input beyond p st₂ := h₁.assign (Nat.le_succ_of_le hBase) _
  have hLoad : evalInst func (valued (.load 3) (valueBase s) .i64) st = some st₁ :=
    evalInst_load (MirState.ptr?_of_values h.slot) h.load_position
  have hCompare : evalBinary .cmpGe (BitVec.ofNat 64 p) (BitVec.ofNat 64 input.length) =
      some atEnd := by
    show some (boolWord (BitVec.sle _ _)) = _
    rw [sle_ofNat hLen (hp.trans_lt hLen)]
  have hCmp : evalInst func (valued (.binary .cmpGe (valueBase s) 2)
    (valueBase s + 1) .bool) st₁ =
      some st₂ := evalInst_binary (MirState.word?_of_values MirState.assign_self)
    (MirState.word?_of_values h₁.len) hCompare
  have hBranch : evalTerminator
    (.condbr (valueBase s + 1) (some (endId s)) (some (bodyId s))) st₂ =
      some (.goto (if p < input.length then bodyId s else endId s)) := by
    have hWord : st₂.word? (valueBase s + 1) = some atEnd :=
      MirState.word?_of_values MirState.assign_self
    by_cases hMore : p < input.length
    · simp [evalTerminator, hWord, atEnd, boolWord, hMore]
    · simp [evalTerminator, hWord, atEnd, boolWord, hMore, Nat.le_of_not_lt hMore]
  refine ⟨st₂, h₂, ?_⟩
  rw [hHead]
  apply Steps.execute rfl hLoad
  apply Steps.execute rfl hCmp
  apply Steps.goto rfl hBranch _ (.refl _)
  split
  · rw [hBody]
    simp [bodyInsts, valued, MirOp.isPhi]
  · rw [hEnd]
    simp [endInsts, valued, MirOp.isPhi]

theorem steps_end :
    ∃ st', Scanned input beyond p st' ∧
      Steps func (.running (endId s) (func.insts (endId s)) st)
        (.returned (some (.word (boolWord ds.accepting))) st') := by
  have hBase : valueBase 0 ≤ valueBase s + 8 := Nat.le_add_left 6 (9 * s + 8)
  let st₁ := st.assign (valueBase s + 8) (.word (boolWord ds.accepting))
  have hRet : evalTerminator (.ret (valueBase s + 8)) st₁ =
      some (.done (some (.word (boolWord ds.accepting)))) := by
    simp [evalTerminator, st₁]
  refine ⟨st₁, h.assign hBase _, ?_⟩
  rw [(hLayout.state s ds hState).2.2]
  apply Steps.execute rfl evalInst_constInt
  exact Steps.done rfl hRet

end

theorem zext_byte (b : Byte) :
    evalUnary .zext (some .u8) (some .i64) (BitVec.ofNat 64 b.toNat) =
      some (BitVec.ofNat 64 b.toNat) := by
  have hLt : b.toNat < 256 := b.toNat_lt
  show some (((BitVec.ofNat 64 b.toNat).setWidth 8).setWidth 64) = _
  congr 1
  apply BitVec.eq_of_toNat_eq
  simp only [BitVec.toNat_setWidth, BitVec.toNat_ofNat]
  omega

theorem find_stateCases (ds : DfaState) (b : Byte) :
    (stateCases ds).find? (·.value == BitVec.ofNat 64 b.toNat) = stateCase ds b := by
  have hOwn : ∀ (bv : Byte) c, stateCase ds bv = some c →
      c.value = BitVec.ofNat 64 bv.toNat := by
    intro bv c hCase
    unfold stateCase at hCase
    split at hCase
    · cases hCase
      rfl
    · cases hCase
  have hInj : ∀ bv : Byte, BitVec.ofNat 64 bv.toNat = BitVec.ofNat 64 b.toNat → bv = b := by
    intro bv hEq
    have hNat := congrArg BitVec.toNat hEq
    have hLt := bv.toNat_lt
    have hLt' := b.toNat_lt
    simp only [BitVec.toNat_ofNat] at hNat
    apply UInt8.toNat_inj.mp
    omega
  cases hCase : stateCase ds b with
  | none =>
    apply List.find?_eq_none.mpr
    intro c hc hValue
    obtain ⟨bv, _, hbv⟩ := mem_filterMap.mp hc
    have hSame := hInj bv ((hOwn bv c hbv).symm.trans (eq_of_beq hValue))
    rw [hSame, hCase] at hbv
    cases hbv
  | some c =>
    have hMem : c ∈ stateCases ds := mem_filterMap.mpr ⟨b, mem_allBytes b, hCase⟩
    cases hFind : (stateCases ds).find? (·.value == BitVec.ofNat 64 b.toNat) with
    | none =>
      have hNone := List.find?_eq_none.mp hFind c hMem
      rw [hOwn b c hCase] at hNone
      exact absurd (beq_self_eq_true _) hNone
    | some c' =>
      obtain ⟨bv, _, hbv⟩ := mem_filterMap.mp (mem_of_find?_eq_some hFind)
      have hValue := find?_some hFind
      have hSame := hInj bv ((hOwn bv c' hbv).symm.trans (eq_of_beq hValue))
      rw [hSame, hCase] at hbv
      exact hbv.symm

/-- Where the body of a state leads after byte `b`: the next state's head, or
the reject block on a dead edge. -/
def bodyTarget (ds : DfaState) (b : Byte) : MirBlockId :=
  match (ds.trans[b.toNat]?).getD none with
  | some t => headId t
  | none => 1

theorem evalTerminator_dispatch (hLive : (stateCases ds).length = ds.ntrans) {b : Byte}
    (hByte : st.word? (valueBase s + 5) = some (BitVec.ofNat 64 b.toNat)) :
    evalTerminator (dispatch s ds) st = some (.goto (bodyTarget ds b)) := by
  have hFind := find_stateCases ds b
  cases hTrans : (ds.trans[b.toNat]?).getD none with
  | none =>
    simp only [stateCase, hTrans] at hFind
    unfold dispatch
    split
    · simp [evalTerminator, bodyTarget, hTrans]
    · simp only [evalTerminator, hByte, bodyTarget, hTrans, Option.bind_eq_bind,
        Option.bind_some, hFind, Option.map_some]
  | some t =>
    simp only [stateCase, hTrans] at hFind
    have hSome : ds.ntrans ≠ 0 := by
      rw [← hLive, Ne, length_eq_zero_iff]
      intro hNil
      rw [hNil] at hFind
      cases hFind
    simp only [dispatch, hSome, if_false, evalTerminator, hByte, bodyTarget, hTrans,
      Option.bind_eq_bind, Option.bind_some, hFind, Option.map_some]

section

variable (hWell : d.WellFormed) (hLayout : Layout d func) (hState : d.states[s]? = some ds)
include hWell hLayout hState

theorem head_bodyTarget_not_phi (b : Byte) :
    ∀ inst ∈ (func.insts (bodyTarget ds b)).head?, inst.op.isPhi = false := by
  unfold bodyTarget
  split
  · next t hTrans =>
      have hLt := hWell.target_lt ds (mem_of_getElem? hState) b t hTrans
      rw [(hLayout.state t _ (getElem?_eq_getElem hLt)).1]
      simp [headInsts, valued, MirOp.isPhi]
  · rw [hLayout.reject]
    simp [rejectInsts, valued, MirOp.isPhi]

/-- The body of a state reads one byte, advances the counter and dispatches. -/
theorem steps_body (h : Scanned input beyond p st)
    (hLen : input.length < 2 ^ 63) {b : Byte} (hb : input[p]? = some b) :
    ∃ st', Scanned input beyond (p + 1) st' ∧
      Steps func (.running (bodyId s) (func.insts (bodyId s)) st)
        (.running (bodyTarget ds b) (func.insts (bodyTarget ds b)) st') := by
  have hp : p < input.length := (List.getElem?_eq_some_iff.mp hb).1
  have hs : s < d.states.length := (List.getElem?_eq_some_iff.mp hState).1
  have hBase : ∀ i, valueBase 0 ≤ valueBase s + i := by
    intro i
    show 6 ≤ 9 * s + 6 + i
    omega
  let v := valueBase s
  let byte := BitVec.ofNat 64 b.toNat
  let st₁ := (st.record (1, 0)).assign (v + 2) (.word (BitVec.ofNat 64 p))
  let st₂ := st₁.assign (v + 3) (.ptr 0 p)
  let st₃ := (st₂.record (0, p)).assign (v + 4) (.word byte)
  let st₄ := st₃.assign (v + 5) (.word byte)
  let st₅ := st₄.assign (v + 6) (.word 1)
  let st₆ := st₅.assign (v + 7) (.word (BitVec.ofNat 64 (p + 1)))
  have h₁ : Scanned input beyond p st₁ :=
    (h.record fun hPlace => absurd hPlace one_ne_zero).assign (hBase 2) _
  have h₂ : Scanned input beyond p st₂ := h₁.assign (hBase 3) _
  have h₃ : Scanned input beyond p st₃ :=
    (h₂.record fun _ => ⟨Int.natCast_nonneg p, Int.ofNat_lt.mpr hp⟩).assign (hBase 4) _
  have h₆ : Scanned input beyond p st₆ :=
    ((h₃.assign (hBase 5) _).assign (hBase 6) _).assign (hBase 7) _
  obtain ⟨st₇, hStore, hValues, h₇⟩ := h₆.store_position (p + 1)
  have hGep : evalInst func (valued (.getElemPtr 1 (v + 2)) (v + 3)
      (.ptr .u8)) st₁ = some st₂ := by
    have hPlace : (0 + (BitVec.ofNat 64 p).toInt : Int) = p := by
      rw [toInt_ofNat (hp.trans hLen), zero_add]
    show _ = some (st₁.assign (v + 3) (.ptr 0 p))
    rw [← hPlace]
    exact evalInst_getElemPtr (MirState.ptr?_of_values h₁.base)
      (MirState.word?_of_values MirState.assign_self)
  have hByte : st₇.word? (v + 5) = some byte := by
    apply MirState.word?_of_values
    rw [hValues]
    simp [st₆, st₅, st₄]
  refine ⟨st₇, h₇, ?_⟩
  rw [(hLayout.state s ds hState).2.1]
  apply Steps.execute rfl (evalInst_load (MirState.ptr?_of_values h.slot) h.load_position)
  apply Steps.execute rfl hGep
  apply Steps.execute rfl (evalInst_load (MirState.ptr?_of_values MirState.assign_self)
    (h₂.load_byte hb))
  have hZext : evalUnary .zext (func.valueType (v + 4)) (some .i64) byte = some byte := by
    rw [hLayout.stateTypes s hs 4 .u8 rfl]
    exact zext_byte b
  apply Steps.execute rfl (evalInst_unary (MirState.word?_of_values MirState.assign_self) hZext)
  apply Steps.execute rfl evalInst_constInt
  have hAdd : evalBinary .add (BitVec.ofNat 64 p) 1 = some (BitVec.ofNat 64 (p + 1)) := by
    show some (BitVec.ofNat 64 p + 1) = _
    rw [BitVec.ofNat_add]
    rfl
  have hPos : st₅.word? (v + 2) = some (BitVec.ofNat 64 p) := by
    apply MirState.word?_of_values
    simp [st₅, st₄, st₃, st₂, st₁]
  apply Steps.execute rfl (evalInst_binary hPos
    (MirState.word?_of_values MirState.assign_self) hAdd)
  have hNext : func.valueType (v + 7) = some .i64 := hLayout.stateTypes s hs 7 .i64 rfl
  apply Steps.execute rfl ((evalInst_store hNext (MirState.ptr?_of_values h₆.slot)
    MirState.assign_self).trans hStore)
  have hTerminator : (dispatch s ds).isTerminator = true := by
    unfold dispatch
    split <;> rfl
  have hLive := hWell.live ds (mem_of_getElem? hState)
  exact Steps.goto hTerminator (evalTerminator_dispatch hLive hByte)
    (head_bodyTarget_not_phi hWell hLayout hState b) (.refl _)

end

end

section

variable {d : Dfa} {func : MirFunction} {input : List Byte} {beyond : List (Option MirValue)}
  {st : MirState}

theorem steps_reject (hLayout : Layout d func) {p : Nat} (h : Scanned input beyond p st) :
    ∃ st', Scanned input beyond p st' ∧
      Steps func (.running 1 (func.insts 1) st)
        (.returned (some (.word (boolWord false))) st') := by
  have hRet : evalTerminator (.ret 5) (st.assign 5 (.word 0)) =
      some (.done (some (.word (boolWord false)))) := by
    simp [evalTerminator, boolWord]
  refine ⟨st.assign 5 (.word 0), ⟨?_, ?_, ?_, h.memory, h.reads⟩, ?_⟩
  · rw [MirState.assign_of_ne (by decide), h.base]
  · rw [MirState.assign_of_ne (by decide), h.len]
  · rw [MirState.assign_of_ne (by decide), h.slot]
  · rw [hLayout.reject]
    apply Steps.execute rfl evalInst_constInt
    exact Steps.done rfl hRet

/-- From the head of a state the function returns what the automaton answers
on the bytes that are left. -/
theorem steps_run (hWell : d.WellFormed) (hLayout : Layout d func) (hLen : input.length < 2 ^ 63)
    (rest : List Byte) {s p : Nat} (hs : s < d.states.length) (hRest : input.drop p = rest)
    (hp : p ≤ input.length) (h : Scanned input beyond p st) :
    ∃ q st', Scanned input beyond q st' ∧
      Steps func (.running (headId s) (func.insts (headId s)) st)
        (.returned (some (.word (boolWord (d.run s rest)))) st') := by
  induction rest generalizing s p st with
  | nil =>
    have hState := getElem?_eq_getElem hs
    have hDone : ¬ p < input.length := (drop_eq_nil_iff.mp hRest).not_gt
    obtain ⟨st₁, h₁, hHead⟩ := steps_head hLayout hState h hLen hp
    simp only [hDone, if_false] at hHead
    obtain ⟨st₂, h₂, hEnd⟩ := steps_end hLayout hState h₁
    refine ⟨p, st₂, h₂, ?_⟩
    have hRun : d.run s [] = d.states[s].accepting := by
      simp [Dfa.run, Dfa.accepting, hState]
    rw [hRun]
    exact hHead.trans hEnd
  | cons b rest ih =>
    have hState := getElem?_eq_getElem hs
    have hb : input[p]? = some b := by
      rw [← head?_drop, hRest, head?_cons]
    have hMore : p < input.length := (List.getElem?_eq_some_iff.mp hb).1
    have hTail : input.drop (p + 1) = rest := by
      rw [← drop_drop, hRest, drop_succ_cons, drop_zero]
    obtain ⟨st₁, h₁, hHead⟩ := steps_head hLayout hState h hLen hp
    simp only [hMore, if_true] at hHead
    obtain ⟨st₂, h₂, hBody⟩ := steps_body hWell hLayout hState h₁ hLen hb
    have hTrans : d.trans s b = (d.states[s].trans[b.toNat]?).getD none := by
      rw [Dfa.trans, hState]
    cases hTarget : (d.states[s].trans[b.toNat]?).getD none with
    | none =>
      have hDead : bodyTarget d.states[s] b = 1 := by rw [bodyTarget, hTarget]
      have hRun : d.run s (b :: rest) = false := by rw [Dfa.run, hTrans, hTarget]
      rw [hDead] at hBody
      obtain ⟨st₃, h₃, hReject⟩ := steps_reject hLayout h₂
      rw [hRun]
      exact ⟨p + 1, st₃, h₃, hHead.trans (hBody.trans hReject)⟩
    | some t =>
      have hLive : bodyTarget d.states[s] b = headId t := by rw [bodyTarget, hTarget]
      have hRun : d.run s (b :: rest) = d.run t rest := by rw [Dfa.run, hTrans, hTarget]
      have ht := hWell.target_lt _ (mem_of_getElem? hState) b t hTarget
      rw [hLive] at hBody
      obtain ⟨q, st₃, h₃, hTailRun⟩ := ih ht hTail hMore h₂
      rw [hRun]
      exact ⟨q, st₃, h₃, hHead.trans (hBody.trans hTailRun)⟩

/-- The parameters are the first two registers. -/
theorem startConfig_eq (hLayout : Layout d func) (a b : MirValue) (memory : List MirObject) :
    ∃ st, startConfig func [a, b] memory = .running 0 (func.insts 0) st ∧
      st.values 1 = some a ∧ st.values 2 = some b ∧ st.memory = memory ∧ st.loads = [] := by
  obtain ⟨first, params, hList, hFirst, hParams⟩ := map_eq_cons_iff.mp hLayout.params
  obtain ⟨second, params, rfl, hSecond, hNil⟩ := map_eq_cons_iff.mp hParams
  rw [map_eq_nil_iff.mp hNil] at hList
  let st₀ : MirState := { values := fun _ => none, memory := memory }
  refine ⟨(st₀.assign 1 a).assign 2 b, ?_, ?_, ?_, rfl, rfl⟩
  · simp only [startConfig, hList, zip_cons_cons, zip_nil_right, foldl_cons,
      foldl_nil, hFirst, hSecond, st₀]
  · rw [MirState.assign_of_ne (by decide), MirState.assign_self]
  · exact MirState.assign_self

variable (beyond) in
theorem steps_call (hWell : d.WellFormed) (hLayout : Layout d func) (hLen : input.length < 2 ^ 63) :
    ∃ q st', Scanned input beyond q st' ∧
      Steps func (startConfig func [.ptr 0 0, .word (BitVec.ofNat 64 input.length)]
          [inputObject input beyond])
        (.returned (some (.word (boolWord (d.run 0 input)))) st') := by
  obtain ⟨st₀, hStart, hBase, hLength, hMemory, hLoads⟩ := startConfig_eq hLayout (.ptr 0 0)
    (.word (BitVec.ofNat 64 input.length)) [inputObject input beyond]
  let slot : MirObject := { elem := .i64, cells := [none] }
  let st₁ := { st₀ with memory := st₀.memory ++ [slot] }.assign 3 (.ptr st₀.memory.length 0)
  let st₂ := st₁.assign 4 (.word 0)
  let st₃ := { st₂ with memory := [inputObject input beyond, positionObject 0] }
  have hSlot : st₂.values 3 = some (.ptr 1 0) := by
    rw [MirState.assign_of_ne (by decide), MirState.assign_self, hMemory]
    rfl
  have h₃ : Scanned input beyond 0 st₃ := by
    refine ⟨hBase, hLength, hSlot, rfl, fun place hPlace => ?_⟩
    rw [show st₃.loads = [] from hLoads] at hPlace
    cases hPlace
  have hStore : st₂.store .i64 (1, 0) (.word 0) = some st₃ := by
    have hCells : st₂.memory = [inputObject input beyond, slot] := by
      show st₀.memory ++ [slot] = _
      rw [hMemory]
      rfl
    simp [MirState.store, hCells, slot, positionObject, st₃]
  have hPos : 0 < d.states.length := length_pos_iff.mpr hWell.states_ne_nil
  have hZero : func.valueType 4 = some .i64 := hLayout.fixedTypes 3 .i64 rfl
  have hPhi : ∀ inst ∈ (func.insts (headId 0)).head?, inst.op.isPhi = false := by
    rw [(hLayout.state 0 _ (getElem?_eq_getElem hPos)).1]
    simp [headInsts, valued, MirOp.isPhi]
  obtain ⟨q, st', hFinal, hRun⟩ := steps_run hWell hLayout hLen input hPos drop_zero
    (Nat.zero_le _) h₃
  refine ⟨q, st', hFinal, ?_⟩
  rw [hStart, hLayout.entry]
  have hAlloca : evalInst func (valued (.alloca (some .i64) 1) 3 (.ptr .i64)) st₀ = some st₁ :=
    rfl
  apply Steps.execute rfl hAlloca
  apply Steps.execute rfl evalInst_constInt
  apply Steps.execute rfl ((evalInst_store hZero (MirState.ptr?_of_values hSlot)
    MirState.assign_self).trans hStore)
  exact Steps.goto rfl rfl hPhi hRun

end

/-- A compiled matcher terminates on every buffer with the answer of the
reference matcher, and loads no element behind the input. -/
theorem mirRegexCompile_computes (module : MirModule) (funcName : String)
    (pattern input : List Byte) (beyond : List (Option MirValue)) (len : Word)
    (hOk : (mirRegexCompile module funcName pattern).1.ok = true)
    (hLen : len.toInt = input.length) :
    ∃ func st, (mirRegexCompile module funcName pattern).1.func = some func ∧
      Steps func (startConfig func [.ptr 0 0, .word len] [inputObject input beyond])
        (.returned (some (.word (if (mirRegexMatchReference pattern input).1 then 1 else 0)))
          st) ∧
      ∀ place ∈ st.loads, place.1 = 0 → 0 ≤ place.2 ∧ place.2 < input.length := by
  have hRange : input.length < 2 ^ 63 := by
    have hLt := BitVec.toInt_lt (x := len)
    omega
  have hWord : len = BitVec.ofNat 64 input.length :=
    BitVec.eq_of_toInt_eq (hLen.trans (toInt_ofNat hRange).symm)
  cases hParse : parsePattern pattern with
  | error e =>
    cases e with
    | none => exact absurd hOk (by simp [mirRegexCompile, hParse])
    | some e => exact absurd hOk (by simp [mirRegexCompile, hParse])
  | ok tree =>
    have hWell := wellFormed_nfaToDfa tree
    have hLayout := layout_emitMir funcName hWell
    obtain ⟨q, st, hScanned, hSteps⟩ := steps_call beyond hWell hLayout hRange
    have hFunc : (mirRegexCompile module funcName pattern).1.func =
        some (emitMir funcName (nfaToDfa (buildNfa tree))) := by
      simp only [mirRegexCompile, hParse]
    refine ⟨_, st, hFunc, ?_, hScanned.reads⟩
    rw [hWord, mirRegexMatchReference, hParse]
    exact hSteps

/-- The matcher of `a*` on a buffer that continues behind the input. -/
theorem mirRegexCompile_computes_star :
    ∃ func st, (mirRegexCompile {} "m" [97, 42]).1.func = some func ∧
      Steps func (startConfig func [.ptr 0 0, .word 2] [inputObject [97, 97] [byteCell 98]])
        (.returned (some (.word
          (if (mirRegexMatchReference [97, 42] [97, 97]).1 then 1 else 0))) st) ∧
      ∀ place ∈ st.loads, place.1 = 0 → 0 ≤ place.2 ∧
        place.2 < ([97, 97] : List Byte).length :=
  mirRegexCompile_computes {} "m" _ _ _ 2 rfl rfl

end Casprix.Regex
