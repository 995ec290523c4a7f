import Casprix.Library.EpsilonPath
import Casprix.Regex.Nfa

/-! Thompson's construction preserves the language of the tree. -/
namespace Casprix.Regex

open Library

namespace NfaState

/-- The states one edge away, on a byte or without consuming one. -/
def step (st : NfaState) : Option Byte → Set Nat
  | some b => {t | st.kind = .byte ∧ st.cls.has b = true ∧ st.out1 = some t}
  | none => {t | st.kind = .split ∧ (st.out1 = some t ∨ st.out2 = some t)}

end NfaState

/-- The automaton a state table describes, started in state 0. -/
def Nfa.automaton (nfa : Nfa) : εNFA Byte Nat where
  step s a := {t | ∃ st, nfa.states[s]? = some st ∧ t ∈ st.step a}
  start := {0}
  accept := {nfa.matchState}

attribute [local simp] NfaState.step

section

variable {nfa : Nfa} {s t f : Nat} {st : NfaState}

theorem step_automaton (h : nfa.states[s]? = some st) (a : Option Byte) :
    nfa.automaton.step s a = st.step a := by
  ext t
  constructor
  · rintro ⟨st', hState, hStep⟩
    cases h.symm.trans hState
    exact hStep
  · exact fun hStep => ⟨st, h, hStep⟩

theorem splitsTo_one (h : nfa.states[s]? = some { kind := .split, out1 := some t }) :
    SplitsTo nfa.automaton s {t} where
  epsilon := by
    rw [step_automaton h]
    ext v
    simp [eq_comm]
  noByte := by
    intro b
    rw [step_automaton h]
    simp

theorem splitsTo_two {u : Nat}
    (h : nfa.states[s]? = some { kind := .split, out1 := some u, out2 := some t }) :
    SplitsTo nfa.automaton s {u, t} where
  epsilon := by
    rw [step_automaton h]
    ext v
    simp [eq_comm]
  noByte := by
    intro b
    rw [step_automaton h]
    simp

section

variable {cls : ByteSet} (h : nfa.states[s]? = some { kind := .byte, cls := cls, out1 := some t })
include h

theorem spells_byteClass : Spells nfa.automaton s t (RegexNode.byteClass cls).language := by
  intro w hw
  obtain ⟨b, hb, rfl⟩ := RegexNode.mem_language_byteClass.mp hw
  refine ⟨[some b], nfa.automaton.isPath_singleton.mpr ?_, rfl⟩
  rw [step_automaton h]
  exact ⟨rfl, hb, rfl⟩

theorem segments_byteClass (hNe : s ≠ f) :
    Segments nfa.automaton f s t (RegexNode.byteClass cls).language := by
  intro x hx
  cases hx with
  | nil => exact absurd rfl hNe
  | cons v _ _ a y hStep hRest =>
    rw [step_automaton h] at hStep
    cases a with
    | none => cases hStep.1
    | some b =>
      obtain ⟨_, hb, hOut⟩ := hStep
      cases hOut
      exact ⟨[some b], y, rfl, ⟨b, hb, rfl⟩, hRest⟩

end

/-- Every word of the tree is read from the entry of its fragment to its exit. -/
theorem Realizes.spells {r : RegexNode} (h : Realizes nfa.states r s t) :
    Spells nfa.automaton s t r.language := by
  induction r generalizing s t with
  | byteClass cls => exact spells_byteClass h
  | concat a b iha ihb =>
    obtain ⟨u, hA, hB⟩ := h
    exact (iha hA).mul (ihb hB)
  | alt a b iha ihb =>
    obtain ⟨l, r, hState, hA, hB⟩ := h
    have hSplit := (splitsTo_two hState).epsilon
    exact ((iha hA).of_epsilon (by simp [hSplit])).add ((ihb hB).of_epsilon (by simp [hSplit]))
  | star a ih =>
    obtain ⟨u, hState, hA⟩ := h
    have hSplit := (splitsTo_two hState).epsilon
    exact (ih hA).kstar (by simp [hSplit]) (by simp [hSplit])
  | plus a ih =>
    obtain ⟨u, hA, hState⟩ := h
    have hSplit := (splitsTo_two hState).epsilon
    exact (ih hA).mul ((ih hA).kstar (by simp [hSplit]) (by simp [hSplit]))
  | opt a ih =>
    obtain ⟨u, hState, hA⟩ := h
    have hSplit := (splitsTo_two hState).epsilon
    exact (Spells.epsilon (by simp [hSplit])).add ((ih hA).of_epsilon (by simp [hSplit]))
  | empty => exact Spells.epsilon (by simp [(splitsTo_one h).epsilon])

/-- A state without edges, where every path ends. -/
def Final (nfa : Nfa) (f : Nat) : Prop := nfa.states[f]? = some { kind := .split }

theorem Final.ne (hFinal : Final nfa f) (h : nfa.states[s]? = some st) (hOut : st.out1 ≠ none) :
    s ≠ f := by
  rintro rfl
  rw [Final, h] at hFinal
  cases hFinal
  exact hOut rfl

/-- Every path from the entry of a fragment to the final state reads a word of
the tree and passes through the exit. -/
theorem Realizes.segments (hFinal : Final nfa f) {r : RegexNode}
    (h : Realizes nfa.states r s t) : Segments nfa.automaton f s t r.language := by
  induction r generalizing s t with
  | byteClass cls => exact segments_byteClass h (hFinal.ne h (by simp))
  | concat a b iha ihb =>
    obtain ⟨u, hA, hB⟩ := h
    exact (iha hA).mul (ihb hB)
  | alt a b iha ihb =>
    obtain ⟨l, r, hState, hA, hB⟩ := h
    exact .split (splitsTo_two hState) (hFinal.ne hState (by simp)) (iha hA) (ihb hB)
  | star a ih =>
    obtain ⟨u, hState, hA⟩ := h
    exact .kstar (splitsTo_two hState) (hFinal.ne hState (by simp)) (ih hA)
  | plus a ih =>
    obtain ⟨u, hA, hState⟩ := h
    exact (ih hA).mul (.kstar (splitsTo_two hState) (hFinal.ne hState (by simp)) (ih hA))
  | opt a ih =>
    obtain ⟨u, hState, hA⟩ := h
    have hNe := hFinal.ne hState (by simp)
    have hSplit := Segments.split (splitsTo_two hState) hNe (ih hA) (Segments.refl t)
    exact hSplit.mono fun w hw => by rwa [add_comm] at hw
  | empty => exact .epsilon (splitsTo_one h) (hFinal.ne h (by simp))

end

section

variable (r : RegexNode)

theorem length_buildNfa_states :
    (buildNfa r).states.length = (buildFrag [] r).2.length + 1 := by
  simp [buildNfa, nfaNew]

theorem realizes_buildNfa : Realizes (buildNfa r).states r 0 (buildNfa r).matchState := by
  have hBuilt := built_buildFrag [] r
  have hEntry : (buildFrag [] r).1.entry = 0 := hBuilt.entry
  rw [← hEntry]
  refine hBuilt.realizes _ _ fun i _ hHi => ?_
  simp only [buildNfa, nfaNew]
  rw [getElem?_fragPatchTo, List.getElem?_append_left hHi]

theorem final_buildNfa : Final (buildNfa r) (buildNfa r).matchState := by
  have hBuilt := built_buildFrag [] r
  simp only [Final, buildNfa, nfaNew]
  rw [getElem?_fragPatchTo_of_forall_ne fun p hp => ne_of_lt (hBuilt.patches p hp).2]
  simp

theorem closed_buildNfa : Closed (buildNfa r).states 0 := by
  have hBuilt := built_buildFrag [] r
  exact (closed_nfaNew hBuilt.closed rfl rfl).fragPatchTo (by simp [nfaNew])

/-- Thompson's construction preserves the language. -/
theorem accepts_automaton_buildNfa : (buildNfa r).automaton.accepts = r.language := by
  ext w
  rw [εNFA.mem_accepts_iff_exists_path]
  constructor
  · rintro ⟨s, f, x, hStart, hAccept, rfl, hPath⟩
    cases hStart
    cases hAccept
    obtain ⟨y, z, rfl, hRead, hRest⟩ :=
      (realizes_buildNfa r).segments (final_buildNfa r) x hPath
    cases hRest with
    | nil => rwa [List.append_nil]
    | cons v _ _ a z hStep _ =>
      rw [step_automaton (final_buildNfa r)] at hStep
      cases a <;> simp at hStep
  · intro hw
    obtain ⟨x, hPath, hRead⟩ := (realizes_buildNfa r).spells w hw
    exact ⟨0, (buildNfa r).matchState, x, rfl, rfl, hRead, hPath⟩

end

end Casprix.Regex
