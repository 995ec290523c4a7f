import Casprix.Regex.Dfa
import Casprix.Regex.Thompson

/-! The sets of the subset construction are the state sets of the epsilon
automaton. -/
namespace Casprix.Regex

open List Library

/-- A sorted list of states that no epsilon edge leaves. -/
structure Subset (nfa : Nfa) (set : List Nat) : Prop where
  increasing : Increasing set
  bounded : ∀ s ∈ set, s < nfa.states.length
  closed : ∀ s ∈ set, ∀ t ∈ nfa.automaton.step s none, t ∈ set

theorem subset_nil (nfa : Nfa) : Subset nfa [] where
  increasing := List.Pairwise.nil
  bounded := by simp
  closed := by simp

theorem Subset.εClosure_subset {nfa : Nfa} {set : List Nat} (h : Subset nfa set)
    {start s : Nat} (hStart : start ∈ set)
    (hs : s ∈ nfa.automaton.εClosure {start}) : s ∈ set := by
  induction hs with
  | base s hs =>
    cases hs
    exact hStart
  | step s t hStep _ ih => exact h.closed s ih t hStep

section

variable {nfa : Nfa} {base : List Nat} {start : Nat} {pending : List Nat}
  {work : List Nat × List Nat} {target : Option Nat}

/-- The stack and the set while the closure of `start` is added to `base`.
Edges out of stacked and pending states may still lead outside the set. -/
structure Work (nfa : Nfa) (base : List Nat) (start : Nat) (pending : List Nat)
    (work : List Nat × List Nat) : Prop where
  increasing : Increasing work.2
  bounded : ∀ s ∈ work.2, s < nfa.states.length
  stacked : ∀ s ∈ work.1, s ∈ work.2
  sound : ∀ s ∈ work.2, s ∈ base ∨ s ∈ nfa.automaton.εClosure {start}
  closed : ∀ s ∈ work.2, s ∉ work.1 → s ∉ pending →
    ∀ t ∈ nfa.automaton.step s none, t ∈ work.2

/-- The rounds the loop still needs. -/
def remaining (nfa : Nfa) (work : List Nat × List Nat) : Nat :=
  work.1.length + (nfa.states.length - work.2.length)

theorem Work.visit (h : Work nfa base start pending work)
    (hTarget : ∀ t, target = some t →
      t < nfa.states.length ∧ (t ∈ base ∨ t ∈ nfa.automaton.εClosure {start})) :
    Work nfa base start pending (ecloseVisit target work) ∧
      (∀ t, target = some t → t ∈ (ecloseVisit target work).2) ∧
      (∀ s ∈ work.2, s ∈ (ecloseVisit target work).2) ∧
      remaining nfa (ecloseVisit target work) ≤ remaining nfa work := by
  cases target with
  | none => exact ⟨h, by simp, fun s hs => hs, le_rfl⟩
  | some t =>
    obtain ⟨hLt, hSound⟩ := hTarget t rfl
    simp only [ecloseVisit]
    split
    · next hMem =>
        refine ⟨h, fun t' hEq => ?_, fun s hs => hs, le_rfl⟩
        cases hEq
        exact hMem
    · next hNew =>
        have hBounded : ∀ s ∈ sortedAdd work.2 t, s < nfa.states.length := by
          intro s hs
          rcases mem_sortedAdd.mp hs with rfl | hs
          · exact hLt
          · exact h.bounded s hs
        have hIncreasing : Increasing (sortedAdd work.2 t) := increasing_sortedAdd h.increasing
        refine ⟨⟨hIncreasing, hBounded, ?_, ?_, ?_⟩, ?_, ?_, ?_⟩
        · intro s hs
          rcases mem_cons.mp hs with rfl | hs
          · exact mem_sortedAdd.mpr (.inl rfl)
          · exact mem_sortedAdd.mpr (.inr (h.stacked s hs))
        · intro s hs
          rcases mem_sortedAdd.mp hs with rfl | hs
          · exact hSound
          · exact h.sound s hs
        · intro s hs hStack hPending u hu
          rw [mem_cons, not_or] at hStack
          rcases mem_sortedAdd.mp hs with rfl | hs
          · exact absurd rfl hStack.1
          · exact mem_sortedAdd.mpr (.inr (h.closed s hs hStack.2 hPending u hu))
        · intro t' hEq
          cases hEq
          exact mem_sortedAdd.mpr (.inl rfl)
        · exact fun s hs => mem_sortedAdd.mpr (.inr hs)
        · have hLength := length_le_of_lt hIncreasing hBounded
          rw [length_sortedAdd hNew] at hLength
          simp only [remaining, length_cons, length_sortedAdd hNew]
          omega

theorem Work.subset_of_nil (h : Work nfa base start [] work) (hNil : work.1 = []) :
    Subset nfa work.2 where
  increasing := h.increasing
  bounded := h.bounded
  closed := fun s hs => h.closed s hs (by simp [hNil]) not_mem_nil

theorem Work.loop (hClosed : Closed nfa.states 0) (hBase : Subset nfa base) {fuel : Nat}
    (h : Work nfa base start [] work) (hFuel : remaining nfa work ≤ fuel) :
    Subset nfa (ecloseLoop nfa fuel work) ∧
      (∀ s ∈ work.2, s ∈ ecloseLoop nfa fuel work) ∧
      ∀ s ∈ ecloseLoop nfa fuel work, s ∈ base ∨ s ∈ nfa.automaton.εClosure {start} := by
  induction fuel generalizing work with
  | zero =>
    have hNil : work.1 = [] := by
      rw [← length_eq_zero_iff]
      simp only [remaining] at hFuel
      omega
    exact ⟨h.subset_of_nil hNil, fun s hs => hs, h.sound⟩
  | succ fuel ih =>
    obtain ⟨stk, set⟩ := work
    cases stk with
    | nil => exact ⟨h.subset_of_nil rfl, fun s hs => hs, h.sound⟩
    | cons cur stk =>
      have hCur := h.stacked cur mem_cons_self
      obtain ⟨s, hState⟩ : ∃ s, nfa.states[cur]? = some s :=
        ⟨_, getElem?_eq_getElem (h.bounded cur hCur)⟩
      have hPopped : Work nfa base start [cur] (stk, set) := by
        refine ⟨h.increasing, h.bounded, fun v hv => h.stacked v (mem_cons_of_mem cur hv),
          h.sound, fun v hv hStack hPending => h.closed v hv ?_ not_mem_nil⟩
        rw [mem_cons, not_or]
        exact ⟨fun hEq => hPending (hEq ▸ mem_singleton_self cur), hStack⟩
      have hRemaining : remaining nfa (stk, set) ≤ fuel := by
        simp only [remaining, length_cons] at hFuel ⊢
        omega
      have hStep : ∀ t, t ∈ nfa.automaton.step cur none ↔ t ∈ s.step none := fun t => by
        rw [step_automaton hState]
      unfold ecloseLoop
      simp only [hState]
      split
      · next hSplit =>
          have hTarget : ∀ t, s.out1 = some t ∨ s.out2 = some t → t < nfa.states.length ∧
              (t ∈ base ∨ t ∈ nfa.automaton.εClosure {start}) := by
            intro t hOut
            refine ⟨hClosed cur s t (Nat.zero_le cur) hState hOut, ?_⟩
            have hEdge := (hStep t).mpr ⟨hSplit, hOut⟩
            rcases h.sound cur hCur with hMem | hMem
            · exact .inl (hBase.closed cur hMem t hEdge)
            · exact .inr (εNFA.εClosure.step cur t hEdge hMem)
          obtain ⟨h₁, hOut1, hKept₁, hLe₁⟩ := hPopped.visit fun t ht =>
            hTarget t (.inl ht)
          obtain ⟨h₂, hOut2, hKept₂, hLe₂⟩ := h₁.visit fun t ht => hTarget t (.inr ht)
          have hNext : Work nfa base start []
              (ecloseVisit s.out2 (ecloseVisit s.out1 (stk, set))) := by
            refine ⟨h₂.increasing, h₂.bounded, h₂.stacked, h₂.sound,
              fun v hv hStack _ => ?_⟩
            by_cases hEq : v = cur
            · subst hEq
              intro t ht
              rcases ((hStep t).mp ht).2 with hOut | hOut
              · exact hKept₂ t (hOut1 t hOut)
              · exact hOut2 t hOut
            · exact h₂.closed v hv hStack (by simpa using hEq)
          obtain ⟨hSubset, hKept, hSound⟩ := ih hNext (by omega)
          exact ⟨hSubset, fun v hv => hKept v (hKept₂ v (hKept₁ v hv)), hSound⟩
      · next hByte =>
          have hNext : Work nfa base start [] (stk, set) := by
            refine ⟨h.increasing, h.bounded, hPopped.stacked, h.sound, fun v hv hStack _ => ?_⟩
            by_cases hEq : v = cur
            · subst hEq
              exact fun t ht => absurd ((hStep t).mp ht).1 hByte
            · exact hPopped.closed v hv hStack (by simpa using hEq)
          exact ih hNext hRemaining

/-- `eclose` adds the epsilon closure of its start state. -/
theorem Subset.eclose (hClosed : Closed nfa.states 0) (h : Subset nfa base)
    (hStart : start < nfa.states.length) :
    Subset nfa (eclose nfa base start) ∧ ∀ t, t ∈ eclose nfa base start ↔
      t ∈ base ∨ t ∈ nfa.automaton.εClosure {start} := by
  unfold Regex.eclose
  split
  · next hMem =>
      refine ⟨h, fun t => ⟨.inl, ?_⟩⟩
      rintro (ht | ht)
      · exact ht
      · exact h.εClosure_subset hMem ht
  · next hNew =>
      have hWork : Work nfa base start [] ([start], sortedAdd base start) := by
        refine ⟨increasing_sortedAdd h.increasing, ?_, ?_, ?_, ?_⟩
        · intro s hs
          rcases mem_sortedAdd.mp hs with rfl | hs
          · exact hStart
          · exact h.bounded s hs
        · intro s hs
          exact mem_sortedAdd.mpr (.inl (mem_singleton.mp hs))
        · intro s hs
          rcases mem_sortedAdd.mp hs with rfl | hs
          · exact .inr (.base s rfl)
          · exact .inl hs
        · intro s hs hStack _ t ht
          rcases mem_sortedAdd.mp hs with rfl | hs
          · exact absurd (mem_singleton_self s) hStack
          · exact mem_sortedAdd.mpr (.inr (h.closed s hs t ht))
      have hFuel : remaining nfa ([start], sortedAdd base start) ≤ nfa.states.length := by
        have hGrown := length_le_of_lt hWork.increasing hWork.bounded
        rw [length_sortedAdd hNew] at hGrown
        simp only [remaining, length_singleton, length_sortedAdd hNew]
        omega
      obtain ⟨hSubset, hKept, hSound⟩ := hWork.loop hClosed h hFuel
      refine ⟨hSubset, fun t => ⟨hSound t, ?_⟩⟩
      rintro (ht | ht)
      · exact hKept t (mem_sortedAdd.mpr (.inr ht))
      · exact hSubset.εClosure_subset (hKept start (mem_sortedAdd.mpr (.inl rfl))) ht

end

section

variable {nfa : Nfa} {b : Byte}

theorem step_some_eq {id : Nat} {s : NfaState} (hState : nfa.states[id]? = some s) :
    nfa.automaton.step id (some b) =
      if s.kind = .byte ∧ s.cls.has b = true then {t | s.out1 = some t} else ∅ := by
  rw [step_automaton hState]
  ext t
  split
  · next h => exact ⟨fun ht => ht.2.2, fun ht => ⟨h.1, h.2, ht⟩⟩
  · next h => exact ⟨fun ht => h ⟨ht.1, ht.2.1⟩, fun ht => absurd ht (Set.notMem_empty t)⟩

theorem Subset.moveVisit (hClosed : Closed nfa.states 0) {acc : List Nat} {id : Nat}
    (hId : id < nfa.states.length) (h : Subset nfa acc) :
    Subset nfa (moveVisit nfa b acc id) ∧ ∀ t, t ∈ moveVisit nfa b acc id ↔
      t ∈ acc ∨ t ∈ nfa.automaton.εClosure (nfa.automaton.step id (some b)) := by
  obtain ⟨s, hState⟩ : ∃ s, nfa.states[id]? = some s := ⟨_, getElem?_eq_getElem hId⟩
  have hStay : nfa.automaton.step id (some b) = ∅ → ∀ t, t ∈ acc ↔
      t ∈ acc ∨ t ∈ nfa.automaton.εClosure (nfa.automaton.step id (some b)) := by
    intro hEmpty t
    rw [hEmpty, εNFA.εClosure_empty]
    simp
  have hStep := step_some_eq (b := b) hState
  simp only [Regex.moveVisit, hState]
  split
  · next hMatch =>
      rw [if_pos hMatch] at hStep
      split
      · next t hOut =>
          have hSingle : nfa.automaton.step id (some b) = {t} := by
            rw [hStep, hOut]
            ext u
            simp [eq_comm]
          rw [hSingle]
          exact h.eclose hClosed (hClosed id s t (Nat.zero_le id) hState (.inl hOut))
      · next hOut => exact ⟨h, hStay (by rw [hStep, hOut]; simp)⟩
  · next hMiss =>
      rw [if_neg hMiss] at hStep
      exact ⟨h, hStay hStep⟩

theorem Subset.foldl_moveVisit (hClosed : Closed nfa.states 0) {ids acc : List Nat}
    (hIds : ∀ s ∈ ids, s < nfa.states.length) (h : Subset nfa acc) :
    Subset nfa (ids.foldl (Regex.moveVisit nfa b) acc) ∧
      ∀ t, t ∈ ids.foldl (Regex.moveVisit nfa b) acc ↔
        t ∈ acc ∨ ∃ s ∈ ids, t ∈ nfa.automaton.εClosure
          (nfa.automaton.step s (some b)) := by
  induction ids generalizing acc with
  | nil => simpa using h
  | cons id ids ih =>
    obtain ⟨hHead, hMemHead⟩ := h.moveVisit (b := b) hClosed (hIds id mem_cons_self)
    obtain ⟨hRest, hMemRest⟩ := ih (fun s hs => hIds s (mem_cons_of_mem id hs)) hHead
    refine ⟨hRest, fun t => ?_⟩
    rw [foldl_cons, hMemRest, hMemHead, or_assoc]
    simp

theorem Subset.moveSet (hClosed : Closed nfa.states 0) {set : List Nat} (h : Subset nfa set)
    (b : Byte) :
    Subset nfa (moveSet nfa set b) ∧
      ∀ t, t ∈ Regex.moveSet nfa set b ↔ t ∈ nfa.automaton.stepSet {s | s ∈ set} b := by
  obtain ⟨hSubset, hMem⟩ := (subset_nil nfa).foldl_moveVisit (b := b) hClosed h.bounded
  refine ⟨hSubset, fun t => ?_⟩
  rw [Regex.moveSet, hMem, εNFA.mem_stepSet_iff]
  simp

end

end Casprix.Regex
