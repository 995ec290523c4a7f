import Mathlib.Logic.Relation
import Mathlib.Tactic.ByContra

/-! Dominance in a graph with an entry: a node dominates another if every path from the entry
to the other goes through it. -/
namespace Library

variable {α : Type} (next : α → α → Prop) (entry : α)

/-- There is a path from the entry that does not go through `p`. -/
inductive Avoiding (p : α) : α → Prop
  | entry (h : entry ≠ p) : Avoiding p entry
  | step {a b : α} (h : Avoiding p a) (hNext : next a b) (hOther : b ≠ p) : Avoiding p b

def Reachable (a : α) : Prop := Relation.ReflTransGen next entry a

def Dominates (p q : α) : Prop := ¬Avoiding next entry p q

variable {next entry} {p q r a b : α}

theorem Avoiding.ne (h : Avoiding next entry p a) : a ≠ p := by
  cases h with
  | entry h => exact h
  | step _ _ hOther => exact hOther

theorem Avoiding.reachable (h : Avoiding next entry p a) : Reachable next entry a := by
  induction h with
  | entry _ => exact .refl
  | step _ hNext _ ih => exact ih.tail hNext

theorem dominates_refl (p : α) : Dominates next entry p p := fun h => h.ne rfl

/-- What dominates the end of an edge, and is not this end, dominates its start. -/
theorem dominates_of_next (h : Dominates next entry p b) (hNext : next a b) (hOther : b ≠ p) :
    Dominates next entry p a :=
  fun hAvoiding => h (hAvoiding.step hNext hOther)

theorem Dominates.trans (h : Dominates next entry p q) (h' : Dominates next entry q r) :
    Dominates next entry p r := by
  have hSplit : ∀ {a : α}, Avoiding next entry p a →
      Avoiding next entry q a ∨ Avoiding next entry p q := by
    intro a hAvoiding
    induction hAvoiding with
    | entry hOther =>
      by_cases hSame : entry = q
      · exact .inr (hSame ▸ .entry hOther)
      · exact .inl (.entry hSame)
    | @step a b hBefore hNext hOther ih =>
      rcases ih with hEarlier | hFound
      · by_cases hSame : b = q
        · exact .inr (hSame ▸ hBefore.step hNext hOther)
        · exact .inl (hEarlier.step hNext hSame)
      · exact .inr hFound
  intro hAvoiding
  rcases hSplit hAvoiding with hQ | hP
  · exact h' hQ
  · exact h hP

/-- Of two nodes that are not the same, a path comes to one before the other. -/
theorem Dominates.antisymm (h : Dominates next entry p q) (h' : Dominates next entry q p)
    (hReachable : Reachable next entry q) : p = q := by
  by_contra hDiffer
  have hFirst : ∀ {a : α}, Reachable next entry a →
      Avoiding next entry p a ∧ Avoiding next entry q a := by
    intro a hPath
    have hBoth : ∀ {a : α}, (entry = a ∨ ∃ b, next b a ∧ Avoiding next entry p b ∧
        Avoiding next entry q b) → Avoiding next entry p a ∧ Avoiding next entry q a := by
      intro a hCame
      have hP : a ≠ p := by
        intro hSame
        rw [hSame] at hCame
        rcases hCame with rfl | ⟨b, hNext, _, hQ⟩
        · exact h' (.entry hDiffer)
        · exact h' (hQ.step hNext hDiffer)
      have hQ : a ≠ q := by
        intro hSame
        rw [hSame] at hCame
        have hOther : q ≠ p := fun hEq => hDiffer hEq.symm
        rcases hCame with rfl | ⟨b, hNext, hAvoids, _⟩
        · exact h (.entry hOther)
        · exact h (hAvoids.step hNext hOther)
      rcases hCame with rfl | ⟨b, hNext, hAvoids, hAvoids'⟩
      · exact ⟨.entry hP, .entry hQ⟩
      · exact ⟨hAvoids.step hNext hP, hAvoids'.step hNext hQ⟩
    induction hPath with
    | refl => exact hBoth (.inl rfl)
    | tail _ hNext ih => exact hBoth (.inr ⟨_, hNext, ih.1, ih.2⟩)
  exact (hFirst hReachable).2.ne rfl

/-- `p` is a strict dominator of `q`, and all others dominate `p`. -/
structure ImmediatelyDominates (next : α → α → Prop) (entry p q : α) : Prop where
  dominates : Dominates next entry p q
  ne : p ≠ q
  others : ∀ d, Dominates next entry d q → d ≠ q → Dominates next entry d p

/-- A node that is dominated is reached through its dominator. -/
theorem Dominates.reachable (h : Dominates next entry p q) (hReachable : Reachable next entry q) :
    Reachable next entry p := by
  by_contra hNot
  have hAvoids : ∀ {a : α}, Reachable next entry a → Avoiding next entry p a := by
    intro a hPath
    induction hPath with
    | refl => exact .entry fun hSame => hNot (hSame ▸ .refl)
    | @tail a b hBefore hNext ih =>
      exact ih.step hNext fun hSame => hNot (hSame ▸ hBefore.tail hNext)
  exact h (hAvoids hReachable)

theorem ImmediatelyDominates.unique (h : ImmediatelyDominates next entry p r)
    (h' : ImmediatelyDominates next entry q r) (hReachable : Reachable next entry r) : p = q :=
  (h'.others p h.dominates h.ne).antisymm (h.others q h'.dominates h'.ne)
    (h'.dominates.reachable hReachable)

/-- A node that can be reached is the entry, or is first come to from a node that it does not
dominate. -/
theorem exists_next_not_dominated (h : Reachable next entry q) :
    q = entry ∨ ∃ a, next a q ∧ ¬Dominates next entry q a ∧ Reachable next entry a := by
  have hSplit : ∀ {a : α}, Reachable next entry a → Avoiding next entry q a ∨ q = entry ∨
      ∃ b, next b q ∧ Avoiding next entry q b := by
    intro a hPath
    induction hPath with
    | refl =>
      by_cases hSame : entry = q
      · exact .inr (.inl hSame.symm)
      · exact .inl (.entry hSame)
    | @tail a b _ hNext ih =>
      rcases ih with hAvoids | hFound
      · by_cases hSame : b = q
        · exact .inr (.inr ⟨a, hSame ▸ hNext, hAvoids⟩)
        · exact .inl (hAvoids.step hNext hSame)
      · exact .inr hFound
  rcases hSplit h with hAvoids | hEntry | ⟨b, hNext, hAvoids⟩
  · exact absurd rfl hAvoids.ne
  · exact .inl hEntry
  · exact .inr ⟨b, hNext, not_not_intro hAvoids, hAvoids.reachable⟩

/-- What dominates all nodes before one that is not the entry dominates it. -/
theorem dominates_of_forall_next (hEntry : entry ≠ q)
    (h : ∀ a, next a q → Dominates next entry p a) : Dominates next entry p q := by
  intro hAvoiding
  cases hAvoiding with
  | entry _ => exact hEntry rfl
  | step hBefore hNext _ => exact h _ hNext hBefore

end Library
