import Mathlib.Computability.EpsilonNFA

/-! Languages read along the paths of an epsilon automaton. -/
namespace Library

open List

variable {α σ : Type*} {M : εNFA α σ} {L L' : Language α} {s t u f : σ}

/-- Every word of `L` is read along some path from `s` to `t`. -/
def Spells (M : εNFA α σ) (s t : σ) (L : Language α) : Prop :=
  ∀ w ∈ L, ∃ x, M.IsPath s t x ∧ x.reduceOption = w

/-- Every path from `s` to `f` reads a word of `L` and goes on from `t`. -/
def Segments (M : εNFA α σ) (f s t : σ) (L : Language α) : Prop :=
  ∀ x, M.IsPath s f x → ∃ y z, x = y ++ z ∧ y.reduceOption ∈ L ∧ M.IsPath t f z

/-- Only epsilon edges leave `s`, and they lead to members of `targets`. -/
structure SplitsTo (M : εNFA α σ) (s : σ) (targets : Set σ) : Prop where
  epsilon : M.step s none = targets
  noByte : ∀ a, M.step s (some a) = ∅

namespace Spells

theorem mul (h : Spells M s u L) (h' : Spells M u t L') : Spells M s t (L * L') := by
  intro w hw
  obtain ⟨a, ha, b, hb, rfl⟩ := Language.mem_mul.mp hw
  obtain ⟨x, hx, rfl⟩ := h a ha
  obtain ⟨y, hy, rfl⟩ := h' b hb
  exact ⟨x ++ y, M.isPath_append.mpr ⟨u, hx, hy⟩, reduceOption_append x y⟩

theorem add (h : Spells M s t L) (h' : Spells M s t L') : Spells M s t (L + L') := by
  intro w hw
  rcases (Language.mem_add L L' w).mp hw with hw | hw
  · exact h w hw
  · exact h' w hw

theorem of_epsilon (hStep : u ∈ M.step s none) (h : Spells M u t L) : Spells M s t L := by
  intro w hw
  obtain ⟨x, hx, rfl⟩ := h w hw
  exact ⟨none :: x, .cons u s t none x hStep hx, reduceOption_cons_of_none x⟩

theorem epsilon (hStep : t ∈ M.step s none) : Spells M s t 1 := by
  intro w hw
  rw [Language.mem_one] at hw
  subst hw
  exact ⟨[none], M.isPath_singleton.mpr hStep, rfl⟩

theorem kstar (hEnter : u ∈ M.step s none) (hLeave : t ∈ M.step s none) (h : Spells M u s L) :
    Spells M s t (KStar.kstar L) := by
  intro w hw
  obtain ⟨words, rfl, hWords⟩ := Language.mem_kstar.mp hw
  clear hw
  induction words with
  | nil => exact epsilon hLeave [] (Language.nil_mem_one)
  | cons word words ih =>
    obtain ⟨x, hx, hRead⟩ := of_epsilon hEnter h word (hWords word mem_cons_self)
    obtain ⟨y, hy, hRest⟩ := ih fun v hv => hWords v (mem_cons_of_mem word hv)
    refine ⟨x ++ y, M.isPath_append.mpr ⟨s, hx, hy⟩, ?_⟩
    rw [reduceOption_append, hRead, hRest, flatten_cons]

end Spells

namespace Segments

theorem refl (s : σ) : Segments M f s s 1 :=
  fun x hx => ⟨[], x, rfl, Language.nil_mem_one, hx⟩

theorem mul (h : Segments M f s u L) (h' : Segments M f u t L') :
    Segments M f s t (L * L') := by
  intro x hx
  obtain ⟨y, z, rfl, hy, hz⟩ := h x hx
  obtain ⟨y', z', rfl, hy', hz'⟩ := h' z hz
  refine ⟨y ++ y', z', (append_assoc y y' z').symm, ?_, hz'⟩
  rw [reduceOption_append]
  exact Language.append_mem_mul hy hy'

theorem mono (h : Segments M f s t L) (hLe : ∀ w ∈ L, w ∈ L') : Segments M f s t L' := by
  intro x hx
  obtain ⟨y, z, hEq, hy, hz⟩ := h x hx
  exact ⟨y, z, hEq, hLe _ hy, hz⟩

end Segments

theorem SplitsTo.first {targets : Set σ} (hSplit : SplitsTo M s targets) (hNe : s ≠ f)
    {x : List (Option α)} (hx : M.IsPath s f x) :
    ∃ v ∈ targets, ∃ y, x = none :: y ∧ M.IsPath v f y := by
  cases hx with
  | nil => exact absurd rfl hNe
  | cons v _ _ a y hStep hRest =>
    cases a with
    | none => exact ⟨v, hSplit.epsilon ▸ hStep, y, rfl, hRest⟩
    | some a => exact absurd (hSplit.noByte a ▸ hStep) (Set.notMem_empty v)

namespace Segments

theorem epsilon (hSplit : SplitsTo M s {t}) (hNe : s ≠ f) : Segments M f s t 1 := by
  intro x hx
  obtain ⟨v, rfl, y, rfl, hy⟩ := hSplit.first hNe hx
  exact ⟨[none], y, rfl, Language.nil_mem_one, hy⟩

theorem split {u' : σ} (hSplit : SplitsTo M s {u, u'}) (hNe : s ≠ f) (h : Segments M f u t L)
    (h' : Segments M f u' t L') : Segments M f s t (L + L') := by
  intro x hx
  obtain ⟨v, hv, y, rfl, hy⟩ := hSplit.first hNe hx
  rcases hv with rfl | rfl
  · obtain ⟨y₁, y₂, rfl, hRead, hRest⟩ := h y hy
    exact ⟨none :: y₁, y₂, rfl, (Language.mem_add L L' _).mpr (.inl hRead), hRest⟩
  · obtain ⟨y₁, y₂, rfl, hRead, hRest⟩ := h' y hy
    exact ⟨none :: y₁, y₂, rfl, (Language.mem_add L L' _).mpr (.inr hRead), hRest⟩

/-- A path that enters a body leading back leaves after finitely many rounds. -/
theorem kstar (hSplit : SplitsTo M s {u, t}) (hNe : s ≠ f) (h : Segments M f u s L) :
    Segments M f s t (KStar.kstar L) := by
  intro x
  induction hLength : x.length using Nat.strong_induction_on generalizing x with
  | _ length ih =>
    intro hx
    obtain ⟨v, hv, y, rfl, hy⟩ := hSplit.first hNe hx
    rcases hv with rfl | rfl
    · obtain ⟨y₁, y₂, rfl, hRead, hRest⟩ := h y hy
      have hShorter : y₂.length < length := by
        simp only [← hLength, length_cons, length_append]
        omega
      obtain ⟨z₁, z₂, rfl, hWords, hLast⟩ := ih _ hShorter y₂ rfl hRest
      refine ⟨none :: (y₁ ++ z₁), z₂, by simp, ?_, hLast⟩
      rw [← Language.one_add_self_mul_kstar_eq_kstar, reduceOption_cons_of_none,
        reduceOption_append]
      exact (Language.mem_add _ _ _).mpr (.inr (Language.append_mem_mul hRead hWords))
    · exact ⟨[none], y, rfl, Language.nil_mem_kstar L, hy⟩

end Segments

end Library
