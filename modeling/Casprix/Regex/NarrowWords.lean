import Casprix.Regex.EmitVerify
import Mathlib.Data.Set.Card

/-! Which patterns the verifier accepts, told by the words their automaton reads. -/
namespace Casprix.Regex

open List Mir Library

section

variable (M : εNFA Byte Nat)

/-- The bytes that can follow a word. -/
def follow (w : List Byte) : Set Byte := {b | (M.eval (w ++ [b])).Nonempty}

/-- Readable words each of whose bytes is among the 64 smallest that can
follow at its place. -/
inductive NarrowWord : List Byte → Prop where
  | nil : NarrowWord []
  | snoc {w : List Byte} {b : Byte} (before : NarrowWord w) (follows : b ∈ follow M w)
      (few : {c | c ∈ follow M w ∧ c < b}.ncard < 64) : NarrowWord (w ++ [b])

/-- Whatever a word leads to, a narrow word leads to as well, and some
readable word is followed by fewer than 64 bytes. -/
structure NarrowlyCovered : Prop where
  covered : ∀ w, (M.eval w).Nonempty → ∃ w', NarrowWord M w' ∧ M.eval w' = M.eval w
  ends : ∃ w, (M.eval w).Nonempty ∧ (follow M w).ncard < 64

end

theorem nonempty_eval_of_append {M : εNFA Byte Nat} {w : List Byte} {b : Byte}
    (h : (M.eval (w ++ [b])).Nonempty) : (M.eval w).Nonempty := by
  rw [Set.nonempty_iff_ne_empty]
  intro hEmpty
  rw [εNFA.eval_append_singleton, hEmpty, εNFA.stepSet_empty] at h
  exact Set.not_nonempty_empty h

/-- The state at place `i` holds what the automaton reaches on `w`. -/
def StandsFor (nfa : Nfa) (d : Dfa) (i : Nat) (w : List Byte) : Prop :=
  ∃ st, d.states[i]? = some st ∧ nfa.automaton.eval w = {s | s ∈ st.set}

section

variable {nfa : Nfa} {d : Dfa} {i j : Nat} {w : List Byte} {b : Byte} {st : DfaState}

section

variable (h : ExpandedTo nfa d.states.length d)
include h

theorem StandsFor.unique (hi : StandsFor nfa d i w) (hj : StandsFor nfa d j w) : i = j := by
  obtain ⟨st, hState, hEval⟩ := hi
  obtain ⟨st', hState', hEval'⟩ := hj
  have hMem : ∀ s, s ∈ st.set ↔ s ∈ st'.set := by
    intro s
    have hSame := Set.ext_iff.mp (hEval.symm.trans hEval') s
    exact hSame
  have hSet : st.set = st'.set :=
    List.Pairwise.eq_of_mem_iff (h.state i st hState).subset.increasing
      (h.state j st' hState').subset.increasing hMem
  have hLt : i < (d.states.map DfaState.set).length := by
    rw [length_map]
    exact (List.getElem?_eq_some_iff.mp hState).1
  apply (getElem?_inj hLt h.distinct).mp
  rw [getElem?_map, getElem?_map, hState, hState', Option.map_some, Option.map_some, hSet]

theorem StandsFor.next (hClosed : Closed nfa.states 0)
    (hi : StandsFor nfa d i w) (hState : d.states[i]? = some st) (b : Byte) :
    ((st.trans[b.toNat]?).getD none = none ∧ b ∉ follow nfa.automaton w) ∨
      ∃ j, (st.trans[b.toNat]?).getD none = some j ∧ StandsFor nfa d j (w ++ [b]) ∧
        b ∈ follow nfa.automaton w := by
  obtain ⟨st', hState', hEval⟩ := hi
  cases hState.symm.trans hState'
  have hMove := (h.state i st hState).subset.moveSet hClosed b
  have hStep : nfa.automaton.eval (w ++ [b]) = {t | t ∈ moveSet nfa st.set b} := by
    rw [εNFA.eval_append_singleton, hEval]
    ext t
    exact (hMove.2 t).symm
  have hLt := (List.getElem?_eq_some_iff.mp hState).1
  rcases h.made i st b hState hLt with ⟨hDead, hTrans⟩ | ⟨j, st', hTrans, hTarget, hSet⟩
  · refine Or.inl ⟨by rw [hTrans]; rfl, ?_⟩
    intro hFollow
    obtain ⟨t, ht⟩ : (nfa.automaton.eval (w ++ [b])).Nonempty := hFollow
    rw [hStep, hDead] at ht
    exact not_mem_nil ht
  · refine Or.inr ⟨j, by rw [hTrans]; rfl, ⟨st', hTarget, by rw [hStep, hSet]⟩, ?_⟩
    have hNonempty := (h.state j st' hTarget).reached.1
    rw [hSet] at hNonempty
    obtain ⟨t, ht⟩ := exists_mem_of_ne_nil _ hNonempty
    exact ⟨t, by rw [hStep]; exact ht⟩

theorem standsFor_nil : StandsFor nfa d 0 [] := by
  obtain ⟨st, hState, hStart⟩ := h.start
  refine ⟨st, hState, ?_⟩
  ext s
  exact (hStart s).symm

theorem exists_standsFor (hClosed : Closed nfa.states 0)
    (hRead : (nfa.automaton.eval w).Nonempty) : ∃ i, StandsFor nfa d i w := by
  induction w using List.reverseRecOn with
  | nil => exact ⟨0, standsFor_nil h⟩
  | append_singleton w b ih =>
    have hBefore : (nfa.automaton.eval w).Nonempty := nonempty_eval_of_append hRead
    obtain ⟨i, st, hState, hEval⟩ := ih hBefore
    have hi : StandsFor nfa d i w := ⟨st, hState, hEval⟩
    rcases hi.next h hClosed hState b with ⟨_, hStop⟩ | ⟨j, _, hj, _⟩
    · exact absurd hRead hStop
    · exact ⟨j, hj⟩

theorem StandsFor.live_iff (hClosed : Closed nfa.states 0)
    (hi : StandsFor nfa d i w) (hState : d.states[i]? = some st) (b : Byte) :
    ((st.trans[b.toNat]?).getD none).isSome = true ↔ b ∈ follow nfa.automaton w := by
  rcases hi.next h hClosed hState b with ⟨hDead, hStop⟩ | ⟨j, hTrans, _, hGo⟩
  · simp [hDead, hStop]
  · simp [hTrans, hGo]

end

theorem ncard_eq_countP {α : Type} [DecidableEq α] {l : List α}
    (hNodup : l.Nodup) (q : α → Bool) :
    {a | a ∈ l ∧ q a = true}.ncard = l.countP q := by
  have hSet : {a | a ∈ l ∧ q a = true} = ((l.filter q).toFinset : Set α) := by
    ext a
    simp
  rw [hSet, Set.ncard_coe_finset, toFinset_card_of_nodup (hNodup.filter q), countP_eq_length_filter]

theorem mem_take_allBytes {c : Byte} : c ∈ allBytes.take b.toNat ↔ c < b := by
  rw [UInt8.lt_iff_toNat_lt, mem_iff_getElem?]
  constructor
  · intro hFound
    obtain ⟨i, hi⟩ := hFound
    rw [getElem?_take] at hi
    split at hi
    · next hLt => rwa [getElem?_allBytes.mp hi] at hLt
    · cases hi
  · intro hLt
    exact ⟨c.toNat, by rw [getElem?_take, if_pos hLt, getElem?_allBytes]⟩

section

variable (h : ExpandedTo nfa d.states.length d) (hClosed : Closed nfa.states 0)
include h hClosed

theorem StandsFor.ncard_below
    (hi : StandsFor nfa d i w) (hState : d.states[i]? = some st) (b : Byte) :
    {c | c ∈ follow nfa.automaton w ∧ c < b}.ncard = liveBelow st b := by
  have hSet : {c | c ∈ follow nfa.automaton w ∧ c < b} = {c | c ∈ allBytes.take b.toNat ∧
      ((st.trans[c.toNat]?).getD none).isSome = true} := by
    ext c
    show (_ ∧ _) ↔ (_ ∧ _)
    rw [mem_take_allBytes, hi.live_iff h hClosed hState, and_comm]
  rw [hSet, ncard_eq_countP (nodup_allBytes.sublist (take_sublist _ _)), liveBelow]

theorem StandsFor.ncard_follow (hi : StandsFor nfa d i w) (hState : d.states[i]? = some st) :
    (follow nfa.automaton w).ncard = (stateCases st).length := by
  have hSet : follow nfa.automaton w = {c | c ∈ allBytes ∧
      (stateCase st c).isSome = true} := by
    ext c
    rw [← hi.live_iff h hClosed hState]
    show _ ↔ (_ ∧ _)
    unfold stateCase
    cases (st.trans[c.toNat]?).getD none <;> simp [mem_allBytes]
  rw [hSet, ncard_eq_countP nodup_allBytes, stateCases, length_filterMap_eq_countP]

/-- The walk finds the states that narrow words lead to. -/
theorem found_iff :
    Found d i ↔ ∃ w, NarrowWord nfa.automaton w ∧ StandsFor nfa d i w := by
  constructor
  · intro hFound
    induction hFound with
    | refl => exact ⟨[], .nil, standsFor_nil h⟩
    | @tail i j _ hEdge ih =>
      obtain ⟨w, hNarrow, hi⟩ := ih
      obtain ⟨st, hState, b, hTrans, hFew⟩ := hEdge
      rcases hi.next h hClosed hState b with ⟨hDead, _⟩ | ⟨j', hTrans', hj, hGo⟩
      · rw [hDead] at hTrans
        cases hTrans
      · rw [hTrans'] at hTrans
        cases hTrans
        rw [← hi.ncard_below h hClosed hState] at hFew
        exact ⟨w ++ [b], hNarrow.snoc hGo hFew, hj⟩
  · intro hWord
    obtain ⟨w, hNarrow, hi⟩ := hWord
    induction hNarrow generalizing i with
    | nil =>
      rw [hi.unique h (standsFor_nil h)]
      exact .refl
    | @snoc w b hBefore hFollows hFew ih =>
      have hRead : (nfa.automaton.eval w).Nonempty := nonempty_eval_of_append hFollows
      obtain ⟨k, hk⟩ := exists_standsFor h hClosed hRead
      have ⟨st, hState, _⟩ := hk
      rw [hk.ncard_below h hClosed hState] at hFew
      rcases hk.next h hClosed hState b with ⟨_, hStop⟩ | ⟨j, hTrans, hj, _⟩
      · exact absurd hFollows hStop
      · rw [hi.unique h hj]
        exact (ih hk).tail ⟨st, hState, b, hTrans, hFew⟩

/-- The walk gets everywhere exactly when the words of the automaton are
narrowly covered. -/
theorem found_all_iff (hWell : d.WellFormed) :
    ((∀ s, s < d.states.length → Found d s) ∧ ∃ ds ∈ d.states, ds.ntrans < 64) ↔
      NarrowlyCovered nfa.automaton := by
  constructor
  · intro hBoth
    obtain ⟨hAll, ds, hMem, hFew⟩ := hBoth
    refine ⟨fun w hRead => ?_, ?_⟩
    · obtain ⟨i, st, hState, hEval⟩ := exists_standsFor h hClosed hRead
      have hFound := hAll i (List.getElem?_eq_some_iff.mp hState).1
      obtain ⟨w', hNarrow, st', hState', hEval'⟩ := (found_iff h hClosed).mp hFound
      cases hState.symm.trans hState'
      exact ⟨w', hNarrow, hEval'.trans hEval.symm⟩
    · obtain ⟨i, hState⟩ := mem_iff_getElem?.mp hMem
      obtain ⟨hNonempty, w, hEval⟩ := (h.state i ds hState).reached
      have hi : StandsFor nfa d i w := ⟨ds, hState, hEval⟩
      refine ⟨w, ?_, ?_⟩
      · rw [hEval]
        exact exists_mem_of_ne_nil _ hNonempty
      · rwa [hi.ncard_follow h hClosed hState, hWell.live ds hMem]
  · intro hCovered
    refine ⟨fun s hs => ?_, ?_⟩
    · have hState := getElem?_eq_getElem hs
      obtain ⟨hNonempty, w, hEval⟩ := (h.state s _ hState).reached
      have hRead : (nfa.automaton.eval w).Nonempty := by
        rw [hEval]
        exact exists_mem_of_ne_nil _ hNonempty
      obtain ⟨w', hNarrow, hSame⟩ := hCovered.covered w hRead
      exact (found_iff h hClosed).mpr ⟨w', hNarrow, _, hState, hSame.trans hEval⟩
    · obtain ⟨w, hRead, hFew⟩ := hCovered.ends
      obtain ⟨i, hi⟩ := exists_standsFor h hClosed hRead
      have ⟨st, hState, _⟩ := hi
      have hMem := mem_of_getElem? hState
      refine ⟨st, hMem, ?_⟩
      rwa [← hWell.live st hMem, ← hi.ncard_follow h hClosed hState]

end

end

/-- A compiled matcher passes the verifier exactly when the words of its
pattern's automaton are narrowly covered. -/
theorem mirVerifyFunction_mirRegexCompile_iff (module : MirModule) (funcName : String)
    (pattern : List Byte) (tree : RegexNode) (hTree : parsePattern pattern = .ok tree) :
    (∃ func, (mirRegexCompile module funcName pattern).1.func = some func ∧
      mirVerifyFunction func = []) ↔ NarrowlyCovered (buildNfa tree).automaton := by
  have hStates : 0 < (buildNfa tree).states.length := by
    rw [length_buildNfa_states]
    exact Nat.succ_pos _
  have hWell := wellFormed_nfaToDfa tree
  have hExpanded := expandedTo_nfaToDfa (closed_buildNfa tree) hStates
  have hFunc : (mirRegexCompile module funcName pattern).1.func =
      some (emitMir funcName (nfaToDfa (buildNfa tree))) := by
    simp only [mirRegexCompile, hTree]
  rw [hFunc, ← found_all_iff hExpanded (closed_buildNfa tree) hWell,
    ← mirVerifyFunction_layout_iff hWell (layout_emitMir funcName hWell)]
  simp

/-- The pattern `a*`. -/
theorem mirVerifyFunction_star_iff :
    (∃ func, (mirRegexCompile {} "re" [97, 42]).1.func = some func ∧
      mirVerifyFunction func = []) ↔
      NarrowlyCovered (buildNfa (.star (.byteClass (ByteSet.clear.add 97)))).automaton :=
  mirVerifyFunction_mirRegexCompile_iff {} "re" [97, 42] _ (by decide)

/-- The pattern `.*` is compiled, and its reject block is reported: all 64
successors collected from the only body lead back to the only state. -/
theorem mirVerifyFunction_anything : (mirRegexCompile {} "re_anything" [46, 42]).1.ok = true ∧
    (mirRegexCompile {} "re_anything" [46, 42]).1.func.map mirVerifyFunction = some
    ["MIR_VERIFY: @re_anything: orphaned basic block bb1 (reject) (not reachable from entry)"] := by
  decide +kernel

end Casprix.Regex
