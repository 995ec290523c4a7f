import Casprix.Library.Machine
import Mathlib.Data.Set.Finite.List

/-! When a deterministic machine with few states comes to a halt. -/
namespace Library

open Function

section

variable {σ : Type*}

/-- The run from `c` comes to a configuration without a step. -/
def Halts (step : σ → Option σ) (c : σ) : Prop := ∃ n, step (runFor step n c) = none

/-- The run from `c` comes to the same configuration again, and goes on from there. -/
def Repeats (step : σ → Option σ) (c : σ) : Prop :=
  ∃ m n, m < n ∧ runFor step m c = runFor step n c ∧ step (runFor step m c) ≠ none

variable {step : σ → Option σ} {c : σ}

theorem runFor_of_halted {n : Nat} (h : step (runFor step n c) = none) (k : Nat) :
    runFor step (n + k) c = runFor step n c := by
  rw [runFor_add, runFor_of_none h]

theorem runFor_rounds {m k : Nat} (h : runFor step (m + k) c = runFor step m c) (j : Nat) :
    runFor step (m + j * k) c = runFor step m c := by
  induction j with
  | zero => rw [Nat.zero_mul, Nat.add_zero]
  | succ j ih => rw [Nat.succ_mul, ← Nat.add_assoc, runFor_add, ih, ← runFor_add, h]

theorem not_repeats_of_halts (h : Halts step c) : ¬Repeats step c := by
  obtain ⟨n, hHalted⟩ := h
  rintro ⟨m, n', hLt, hSame, hStep⟩
  obtain ⟨k, rfl⟩ := Nat.exists_eq_add_of_lt hLt
  have hRounds := runFor_rounds (k := k + 1) hSame.symm n
  have hLate : n ≤ m + n * (k + 1) :=
    (Nat.le_mul_of_pos_right n (Nat.succ_pos k)).trans (Nat.le_add_left _ m)
  obtain ⟨more, hMore⟩ := Nat.exists_eq_add_of_le hLate
  rw [hMore, runFor_of_halted hHalted] at hRounds
  exact hStep (hRounds ▸ hHalted)

theorem exists_settled {rank : Nat → Nat} (h : ∀ n, rank (n + 1) ≤ rank n) :
    ∃ start, ∀ n, rank (start + n) = rank start := by
  have hAnti : Antitone rank := antitone_nat_of_succ_le h
  obtain ⟨start, hLeast⟩ : ∃ start, ∀ n, rank start ≤ rank n :=
    ⟨argmin rank, fun n => argmin_le rank n⟩
  exact ⟨start, fun n => Nat.le_antisymm (hAnti (Nat.le_add_right start n)) (hLeast _)⟩

/-- A machine whose rank never grows, and that has finitely many configurations of one rank to come
to, halts exactly if it never comes to the same configuration again. -/
theorem halts_iff_not_repeats {rank : σ → Nat}
    (hRank : ∀ n, rank (runFor step (n + 1) c) ≤ rank (runFor step n c))
    (hFinite : ∀ start, {d | ∃ n, d = runFor step (start + n) c ∧
      rank d = rank (runFor step start c)}.Finite) :
    Halts step c ↔ ¬Repeats step c := by
  refine ⟨not_repeats_of_halts, fun hNot => ?_⟩
  by_contra hRuns
  have hGoesOn : ∀ n, step (runFor step n c) ≠ none := fun n hNone => hRuns ⟨n, hNone⟩
  obtain ⟨start, hSettled⟩ :
      ∃ start, ∀ n, rank (runFor step (start + n) c) = rank (runFor step start c) :=
    @exists_settled (fun n => rank (runFor step n c)) hRank
  have hInjective : Injective fun n => runFor step (start + n) c := by
    intro m n hSame
    by_contra hNe
    rcases lt_or_gt_of_ne hNe with hLt | hLt
    · exact hNot ⟨start + m, start + n, Nat.add_lt_add_left hLt _, hSame, hGoesOn _⟩
    · exact hNot ⟨start + n, start + m, Nat.add_lt_add_left hLt _, hSame.symm, hGoesOn _⟩
  have hMem : ∀ n, runFor step (start + n) c ∈
      {d | ∃ n, d = runFor step (start + n) c ∧ rank d = rank (runFor step start c)} :=
    fun n => ⟨n, rfl, hSettled n⟩
  exact Set.infinite_of_injective_forall_mem hInjective hMem (hFinite start)

end

section

variable {ι β : Type*} [DecidableEq ι]

/-- Functions that differ from `f` at the given places only, and have one of the given values
there, are finitely many. -/
theorem finite_changes (f : ι → β) (places : List ι) {values : Set β}
    (hValues : values.Finite) :
    {g : ι → β | (∀ i, i ∉ places → g i = f i) ∧
      ∀ i ∈ places, g i ∈ values}.Finite := by
  induction places generalizing f with
  | nil =>
    refine (Set.finite_singleton f).subset fun g hg => ?_
    exact funext fun i => hg.1 i List.not_mem_nil
  | cons place rest ih =>
    have hParts := hValues.biUnion fun value _ => ih (Function.update f place value)
    refine hParts.subset fun g hg => ?_
    rw [Set.mem_iUnion₂]
    refine ⟨g place, hg.2 place List.mem_cons_self, fun i hi => ?_, fun i hi => ?_⟩
    · by_cases hPlace : i = place
      · rw [hPlace, update_self]
      · rw [update_of_ne hPlace]
        exact hg.1 i fun hMem => (List.mem_cons.mp hMem).elim hPlace hi
    · exact hg.2 i (List.mem_cons_of_mem place hi)

/-- Lists of bounded length over finitely many elements are finitely many. -/
theorem finite_lists {elems : Set β} (hElems : elems.Finite) (bound : Nat) :
    {l : List β | (∀ x ∈ l, x ∈ elems) ∧ l.length ≤ bound}.Finite := by
  induction bound with
  | zero =>
    refine (Set.finite_singleton []).subset fun l hl => ?_
    exact List.eq_nil_of_length_eq_zero (Nat.le_zero.mp hl.2)
  | succ bound ih =>
    refine ((Set.finite_singleton []).union
      (Set.Finite.image2 List.cons hElems ih)).subset fun l hl => ?_
    cases l with
    | nil => exact Or.inl rfl
    | cons x rest =>
      obtain ⟨hMem, hLength⟩ := hl
      rw [List.forall_mem_cons] at hMem
      exact Or.inr ⟨x, hMem.1, rest, ⟨hMem.2, Nat.le_of_succ_le_succ hLength⟩, rfl⟩

end

end Library
