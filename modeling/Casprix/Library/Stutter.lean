import Casprix.Library.Machine

/-! Two deterministic machines of which the second takes some steps, or none, where the
first takes one, and what their runs have in common. -/
namespace Library

section

variable {σ ω : Type*}

/-- A machine that writes down what its steps show. -/
def traced (step : σ → Option σ) (label : σ → List ω) (c : σ × List ω) :
    Option (σ × List ω) :=
  (step c.1).map fun d => (d, c.2 ++ label c.1)

variable {step : σ → Option σ} {label : σ → List ω}

/-- Writing down does not change the run. -/
theorem fst_runFor_traced (n : Nat) (c : σ × List ω) :
    (runFor (traced step label) n c).1 = runFor step n c.1 := by
  induction n generalizing c with
  | zero => rfl
  | succ n ih =>
    cases hStep : step c.1 with
    | none =>
      have hTraced : traced step label c = none := by rw [traced, hStep, Option.map_none]
      rw [runFor_of_none hTraced, runFor_of_none hStep]
    | some d =>
      have hTraced : traced step label c = some (d, c.2 ++ label c.1) := by
        rw [traced, hStep, Option.map_some]
      rw [runFor_succ_of_some hTraced, runFor_succ_of_some hStep, ih]

theorem forall_runFor_of_halted {c : σ} {n : Nat} {P : σ → Prop}
    (hHalted : step (runFor step n c) = none) (h : ∀ k ≤ n, P (runFor step k c)) (m : Nat) :
    P (runFor step m c) := by
  rcases Nat.le_total m n with hBefore | hAfter
  · exact h m hBefore
  · obtain ⟨extra, rfl⟩ := Nat.exists_eq_add_of_le hAfter
    rw [runFor_add, runFor_of_none hHalted]
    exact h n (Nat.le_refl n)

end

section

variable {σ τ ω : Type*}

/-- The two runs come to show the same things. -/
def SameRuns (step : σ → Option σ) (shows : σ → ω) (c : σ)
    (step' : τ → Option τ) (shows' : τ → ω)
    (c' : τ) : Prop :=
  ∀ o, (∃ n, shows (runFor step n c) = o) ↔ ∃ n, shows' (runFor step' n c') = o

/-- A relation that a step of the first machine and the steps taken for it by the second
keep, where the first machine is in a good configuration. As long as the second has not
taken them all it shows what it showed before, and it takes none only if the first machine
gets smaller. -/
structure Stutters (step : σ → Option σ) (shows : σ → ω)
    (step' : τ → Option τ) (shows' : τ → ω)
    (good : σ → Prop) (size : σ → Nat) (R : σ → τ → Prop) : Prop where
  shows_eq : ∀ {c c'}, R c c' → shows' c' = shows c
  halts : ∀ {c c'}, R c c' → step c = none → step' c' = none
  follows : ∀ {c c' d}, R c c' → good c → step c = some d →
    ∃ n, R d (runFor step' n c') ∧ (n = 0 → size d < size c) ∧
      ∀ k < n, shows' (runFor step' k c') = shows c

namespace Stutters

variable {step : σ → Option σ} {shows : σ → ω}
  {step' : τ → Option τ} {shows' : τ → ω}
  {good : σ → Prop} {size : σ → Nat} {R : σ → τ → Prop} {c : σ} {c' : τ}

section

variable (h : Stutters step shows step' shows' good size R)
include h

/-- Every configuration of the first run is met by one of the second. -/
theorem exists_related (hStart : R c c') (hGood : ∀ n, good (runFor step n c)) (n : Nat) :
    ∃ m, R (runFor step n c) (runFor step' m c') := by
  induction n with
  | zero => exact ⟨0, hStart⟩
  | succ n ih =>
    obtain ⟨m, hMet⟩ := ih
    rw [runFor_succ]
    cases hStep : step (runFor step n c) with
    | none =>
      rw [runFor_of_none hStep]
      exact ⟨m, hMet⟩
    | some d =>
      obtain ⟨k, hNext, _⟩ := h.follows hMet (hGood n) hStep
      rw [← runFor_add] at hNext
      exact ⟨m + k, by rwa [runFor_succ_of_some hStep]⟩

/-- Whatever the second run shows, the first shows too. By induction on the length of the
second run, and then on the size of the first machine, for the steps that are dropped. -/
theorem exists_shows (m : Nat) :
    ∀ k c c', size c = k → R c c' → (∀ n, good (runFor step n c)) →
      ∃ n, shows (runFor step n c) = shows' (runFor step' m c') := by
  induction m using Nat.strongRecOn with
  | ind m ihSteps =>
    intro k
    induction k using Nat.strongRecOn with
    | ind k ihSize =>
      intro c c' hSize hRelated hGood
      cases hStep : step c with
      | none =>
        rw [runFor_of_none (h.halts hRelated hStep)]
        exact ⟨0, (h.shows_eq hRelated).symm⟩
      | some d =>
        have hGoodNext : ∀ n, good (runFor step n d) := by
          intro n
          rw [← runFor_succ_of_some hStep]
          exact hGood (n + 1)
        obtain ⟨taken, hNext, hSmaller, hShown⟩ := h.follows hRelated (hGood 0) hStep
        rcases Nat.lt_or_ge m taken with hFew | hMany
        · exact ⟨0, (hShown m hFew).symm⟩
        · have hRest : ∃ n, shows (runFor step n d) = shows' (runFor step' m c') := by
            cases taken with
            | zero => exact ihSize (size d) (hSize ▸ hSmaller rfl) d c' rfl hNext hGoodNext
            | succ taken =>
              obtain ⟨left, rfl⟩ := Nat.exists_eq_add_of_le hMany
              rw [runFor_add]
              exact ihSteps left (by omega) (size d) d _ rfl hNext hGoodNext
          obtain ⟨n, hEq⟩ := hRest
          exact ⟨n + 1, by rwa [runFor_succ_of_some hStep]⟩

theorem sameRuns (hStart : R c c')
    (hGood : ∀ n, good (runFor step n c)) : SameRuns step shows c step' shows' c' := by
  intro o
  constructor
  · rintro ⟨n, rfl⟩
    obtain ⟨m, hMet⟩ := h.exists_related hStart hGood n
    exact ⟨m, h.shows_eq hMet⟩
  · rintro ⟨m, rfl⟩
    exact h.exists_shows m (size c) c c' rfl hStart hGood

end

end Stutters

end

end Library
