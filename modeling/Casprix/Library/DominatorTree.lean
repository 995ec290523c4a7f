import Casprix.Library.Dominance
import Mathlib.Order.Lattice

/-! Computing immediate dominators by intersecting the ways up a tree that is not finished yet.
Nodes are ranked, and each but the entry has a node of lower rank before it. -/
namespace Library

open Function

variable {α ι : Type} [LinearOrder ι] {next : α → α → Prop} {entry : α} {rank : α → ι}
  {idom : α → Option α} {a b c d n p x y z : α} {i j : ι}

/-- The way up from a node goes through `z`. -/
inductive Above (idom : α → Option α) (z : α) : α → Prop
  | refl : Above idom z z
  | up {b c : α} (hUp : idom b = some c) (h : Above idom z c) : Above idom z b

/-- The node has a place in the tree already. -/
def Processed (idom : α → Option α) (b : α) : Prop := ∃ c, idom b = some c

theorem Above.trans (h : Above idom z y) (h' : Above idom y x) : Above idom z x := by
  induction h' with
  | refl => exact h
  | up hUp _ ih => exact .up hUp ih

theorem Above.total (h : Above idom y x) (h' : Above idom z x) :
    Above idom y z ∨ Above idom z y := by
  induction h with
  | refl => exact .inr h'
  | up hUp h ih =>
    cases h' with
    | refl => exact .inl (.up hUp h)
    | up hUp' h' =>
      rw [hUp, Option.some.injEq] at hUp'
      subst hUp'
      exact ih h'

theorem Above.of_ne (h : Above idom z x) (hNe : z ≠ x) (hUp : idom x = some c) :
    Above idom z c := by
  cases h with
  | refl => exact absurd rfl hNe
  | up hUp' h =>
    rw [hUp, Option.some.injEq] at hUp'
    rwa [hUp']

/-- `n` is the lowest node above all nodes before `b` that have a place. -/
structure Meets (next : α → α → Prop) (idom : α → Option α) (b n : α) : Prop where
  above : ∀ p, next p b → Processed idom p → Above idom n p
  lowest : ∀ z, (∀ p, next p b → Processed idom p → Above idom z p) → Above idom z n

/-- Each node but the entry has a node of lower rank before it. -/
structure Ranked (next : α → α → Prop) (entry : α) (rank : α → ι) : Prop where
  entry_lt : ∀ b, Reachable next entry b → b ≠ entry → rank entry < rank b
  injective : ∀ a b, Reachable next entry a →
    Reachable next entry b → rank a = rank b → a = b
  forward : ∀ b, Reachable next entry b → b ≠ entry →
    ∃ p, next p b ∧ Reachable next entry p ∧ rank p < rank b

/-- What holds of the tree when a round has come to the nodes of rank `i`. -/
structure Progress (next : α → α → Prop) (entry : α) (rank : α → ι) (i : ι)
    (idom : α → Option α) : Prop where
  entry_self : idom entry = some entry
  reachable : ∀ b, Processed idom b → Reachable next entry b
  rank_lt : ∀ b c, b ≠ entry → idom b = some c → rank c < rank b
  processed : ∀ b c, idom b = some c → Processed idom c
  downward : ∀ a b, Processed idom b → Reachable next entry a →
    rank a < rank b → Processed idom a
  /-- No dominator is lost. -/
  dominators : ∀ d x, Processed idom x → Dominates next entry d x → Above idom d x
  avoids : ∀ d z x, Above idom z x → Above idom d z → d ≠ z → Avoiding next entry d z →
    Avoiding next entry d x
  /-- What a round finds for a node is no lower than what the last one has found. -/
  meets : ∀ b z, Processed idom b → b ≠ entry →
    (∀ p, next p b → Processed idom p → Above idom z p) → Above idom z b
  forward : ∀ b p c, Processed idom b → next p b →
    Reachable next entry p → rank p < rank b →
    Above idom c b → c ≠ b → i ≤ rank c ∨ rank b < i → Above idom c p

section

variable (h : Progress next entry rank i idom) (hAbove : Above idom z x)
include h hAbove

theorem Progress.rank_le :
    rank z ≤ rank x := by
  induction hAbove with
  | refl => exact le_refl _
  | @up b c hUp _ ih =>
    by_cases hEntry : b = entry
    · rw [hEntry, h.entry_self, Option.some.injEq] at hUp
      rwa [hEntry, hUp]
    · exact le_trans ih (le_of_lt (h.rank_lt b c hEntry hUp))

theorem Progress.above_entry (hEntry : x = entry) : z = entry := by
  induction hAbove with
  | refl => exact hEntry
  | up hUp _ ih =>
    rw [hEntry, h.entry_self, Option.some.injEq] at hUp
    exact ih hUp.symm

theorem Progress.rank_lt_of_ne (hNe : z ≠ x) : rank z < rank x := by
  cases hAbove with
  | refl => exact absurd rfl hNe
  | @up _ c hUp hAbove =>
    by_cases hEntry : x = entry
    · exact absurd (h.above_entry (.up hUp hAbove) hEntry) (hEntry ▸ hNe)
    · exact lt_of_le_of_lt (h.rank_le hAbove) (h.rank_lt x c hEntry hUp)

theorem Progress.processed_above (hx : Processed idom x) : Processed idom z := by
  induction hAbove with
  | refl => exact hx
  | up hUp _ ih => exact ih (h.processed _ _ hUp)

end

/-- Moves a node up to the lowest node above all that are before it. -/
structure Moves (next : α → α → Prop) (entry : α)
    (rank : α → ι) (idom : α → Option α)
    (a n : α) : Prop where
  ranked : Ranked next entry rank
  progress : Progress next entry rank (rank a) idom
  reachable : Reachable next entry a
  other : a ≠ entry
  earlier : ∀ x, Reachable next entry x → rank x < rank a → Processed idom x
  meets : Meets next idom a n

section

variable (h : Moves next entry rank idom a n)
include h

theorem Moves.exists_forward :
    ∃ p, next p a ∧ rank p < rank a ∧ Processed idom p ∧ Above idom n p := by
  obtain ⟨p, hNext, hp, hLt⟩ := h.ranked.forward a h.reachable h.other
  have hProcessed := h.earlier p hp hLt
  exact ⟨p, hNext, hLt, hProcessed, h.meets.above p hNext hProcessed⟩

theorem Moves.rank_lt : rank n < rank a := by
  obtain ⟨p, _, hLt, _, hAbove⟩ := h.exists_forward
  exact lt_of_le_of_lt (h.progress.rank_le hAbove) hLt

theorem Moves.processed_target : Processed idom n := by
  obtain ⟨p, _, _, hProcessed, hAbove⟩ := h.exists_forward
  exact h.progress.processed_above hAbove hProcessed

theorem Moves.processed_of_above (hAbove : Above idom a x) (hNe : x ≠ a) : Processed idom a := by
  induction hAbove with
  | refl => exact absurd rfl hNe
  | @up b c hUp hAbove ih =>
    by_cases hSame : c = a
    · exact hSame ▸ h.progress.processed b c hUp
    · exact ih hSame

/-- A node that has a place already is moved up. -/
theorem Moves.above_of_processed (hProcessed : Processed idom a) : Above idom n a :=
  h.progress.meets a n hProcessed h.other h.meets.above

end

section

variable [DecidableEq α]

/-- The entry is its own immediate dominator, and no other node has one. -/
def entryOnly (entry : α) : α → Option α := update (fun _ => none) entry (some entry)

theorem entryOnly_eq_some (h : entryOnly entry b = some c) : b = entry ∧ c = entry := by
  unfold entryOnly at h
  by_cases hEntry : b = entry
  · rw [hEntry, update_self, Option.some.injEq] at h
    exact ⟨hEntry, h.symm⟩
  · rw [update_of_ne hEntry] at h
    cases h

theorem eq_of_above_entryOnly (h : Above (entryOnly entry) z x) : z = x := by
  induction h with
  | refl => rfl
  | up hUp _ ih =>
    obtain ⟨rfl, rfl⟩ := entryOnly_eq_some hUp
    exact ih

theorem progress_entryOnly (hRanked : Ranked next entry rank) :
    Progress next entry rank i (entryOnly entry) where
  entry_self := update_self ..
  reachable b h := by
    obtain ⟨c, hUp⟩ := h
    rw [(entryOnly_eq_some hUp).1]
    exact .refl
  rank_lt b c hOther hUp := absurd (entryOnly_eq_some hUp).1 hOther
  processed b c hUp := by
    obtain ⟨_, rfl⟩ := entryOnly_eq_some hUp
    exact ⟨_, update_self ..⟩
  downward a b h ha hLt := by
    obtain ⟨c, hUp⟩ := h
    by_cases hEntry : a = entry
    · exact ⟨entry, hEntry ▸ update_self ..⟩
    · have hEntryLt := hRanked.entry_lt a ha hEntry
      rw [(entryOnly_eq_some hUp).1] at hLt
      exact absurd hLt (lt_asymm hEntryLt)
  dominators d x h hDominates := by
    obtain ⟨c, hUp⟩ := h
    rw [(entryOnly_eq_some hUp).1] at hDominates ⊢
    by_contra hNot
    refine hDominates (.entry fun hSame => hNot ?_)
    rw [hSame]
    exact .refl
  avoids d z x hBelow _ _ hAvoids := by rwa [← eq_of_above_entryOnly hBelow]
  meets b z h hOther _ := by
    obtain ⟨c, hUp⟩ := h
    exact absurd (entryOnly_eq_some hUp).1 hOther
  forward b p c _ _ _ _ hUpper hNe _ := absurd (eq_of_above_entryOnly hUpper) hNe

theorem Above.update_or_lost (m : Option α) (h : Above idom z x) :
    Above (update idom a m) z x ∨ Above idom a x ∧ Above idom z a ∧ z ≠ a := by
  induction h with
  | refl => exact .inl .refl
  | @up b c hUp h ih =>
    by_cases hSame : b = a
    · subst hSame
      by_cases hHere : z = b
      · subst hHere
        exact .inl .refl
      · exact .inr ⟨.refl, .up hUp h, hHere⟩
    · rcases ih with hKept | ⟨ha, hz, hNe⟩
      · exact .inl (.up (by rwa [update_of_ne hSame]) hKept)
      · exact .inr ⟨.up hUp ha, hz, hNe⟩

section

variable (h : Moves next entry rank idom a n)
include h

theorem Moves.shrink (hOld : x ≠ a ∨ Processed idom a)
    (hAbove : Above (update idom a (some n)) z x) : Above idom z x := by
  induction hAbove with
  | refl => exact .refl
  | @up b c hUp _ ih =>
    by_cases hSame : b = a
    · subst hSame
      rw [update_self, Option.some.injEq] at hUp
      subst hUp
      have hProcessed := hOld.resolve_left fun hNe => hNe rfl
      have hUpper : Above idom z n := ih (.inr hProcessed)
      exact hUpper.trans (h.above_of_processed hProcessed)
    · rw [update_of_ne hSame] at hUp
      refine .up hUp (ih ?_)
      by_cases hHere : c = a
      · exact .inr (hHere ▸ h.progress.processed b c hUp)
      · exact .inl hHere

theorem Moves.keep (hAbove : Above idom z x) (hLt : rank x < rank a) :
    Above (update idom a (some n)) z x := by
  rcases hAbove.update_or_lost (some n) (a := a) with hKept | ⟨hLost, _, _⟩
  · exact hKept
  · exact absurd (h.progress.rank_le hLost) (not_le_of_gt hLt)

theorem Moves.keep_above (hAbove : Above idom z x) (hLe : rank a ≤ rank z) :
    Above (update idom a (some n)) z x := by
  rcases hAbove.update_or_lost (some n) (a := a) with hKept | ⟨_, hUpper, hNe⟩
  · exact hKept
  · exact absurd (h.progress.rank_lt_of_ne hUpper hNe) (not_lt_of_ge hLe)

theorem Moves.above_target (hAbove : Above idom z n) :
    Above (update idom a (some n)) z a :=
  .up (update_self ..) (h.keep hAbove h.rank_lt)

theorem Moves.of_above_self (hAbove : Above (update idom a (some n)) z a) (hNe : z ≠ a) :
    Above idom z n := by
  have hUpper := hAbove.of_ne hNe (update_self ..)
  refine h.shrink (.inl fun hSame => ?_) hUpper
  have hLt := h.rank_lt
  rw [hSame] at hLt
  exact lt_irrefl _ hLt

end

theorem processed_update_iff : Processed (update idom a (some n)) x ↔
    x = a ∨ Processed idom x := by
  by_cases hSame : x = a
  · exact iff_of_true ⟨n, hSame ▸ update_self ..⟩ (.inl hSame)
  · unfold Processed
    rw [update_of_ne hSame]
    exact (or_iff_right hSame).symm

/-- What holds of the tree holds after the move, where the round has come past the node. -/
theorem Moves.progress_update (h : Moves next entry rank idom a n)
    (hj : ∀ x, Reachable next entry x → (rank a < rank x ↔ j ≤ rank x)) :
    Progress next entry rank j (update idom a (some n)) where
  entry_self := by rw [update_of_ne h.other.symm, h.progress.entry_self]
  reachable b hb := by
    rcases processed_update_iff.mp hb with rfl | hOld
    · exact h.reachable
    · exact h.progress.reachable b hOld
  rank_lt b c hOther hUp := by
    by_cases hSame : b = a
    · rw [hSame, update_self, Option.some.injEq] at hUp
      rw [hSame, ← hUp]
      exact h.rank_lt
    · rw [update_of_ne hSame] at hUp
      exact h.progress.rank_lt b c hOther hUp
  processed b c hUp := by
    refine processed_update_iff.mpr (.inr ?_)
    by_cases hSame : b = a
    · rw [hSame, update_self, Option.some.injEq] at hUp
      exact hUp ▸ h.processed_target
    · rw [update_of_ne hSame] at hUp
      exact h.progress.processed b c hUp
  downward x b hb hx hLt := by
    refine processed_update_iff.mpr (.inr ?_)
    rcases processed_update_iff.mp hb with rfl | hOld
    · exact h.earlier x hx hLt
    · exact h.progress.downward x b hOld hx hLt
  dominators d x hx hDominates := by
    have hNode : ∀ {d}, Dominates next entry d a → Above (update idom a (some n)) d a := by
      intro d hDominates
      by_cases hSame : d = a
      · rw [hSame]
        exact .refl
      · refine h.above_target (h.meets.lowest d fun p hNext hProcessed => ?_)
        exact h.progress.dominators d p hProcessed
          (dominates_of_next hDominates hNext fun hEq => hSame hEq.symm)
    by_cases hSame : x = a
    · subst hSame
      exact hNode hDominates
    · have hOld := (processed_update_iff.mp hx).resolve_left hSame
      have hAbove := h.progress.dominators d x hOld hDominates
      rcases hAbove.update_or_lost (some n) (a := a) with hKept | ⟨ha, hd, hNe⟩
      · exact hKept
      · by_cases hUpper : Dominates next entry d a
        · exact (hNode hUpper).trans (h.keep_above ha (le_refl _))
        · exact absurd (h.progress.avoids d a x ha hd hNe (not_not.mp hUpper)) hDominates
  avoids d z x hAbove hUpper hNe hAvoids := by
    by_cases hOld : x ≠ a ∨ Processed idom a
    · have hz : z ≠ a ∨ Processed idom a := by
        rcases hOld with hOther | hProcessed
        · by_cases hSame : z = a
          · exact .inr (h.processed_of_above (hSame ▸ h.shrink (.inl hOther) hAbove) hOther)
          · exact .inl hSame
        · exact .inr hProcessed
      exact h.progress.avoids d z x (h.shrink hOld hAbove) (h.shrink hz hUpper) hNe hAvoids
    · -- the node has no place so far, and nothing is below it
      obtain ⟨hSame, hNew⟩ := not_or.mp hOld
      rw [not_not] at hSame
      subst hSame
      by_cases hHere : z = x
      · rwa [← hHere]
      · have hz := h.of_above_self hAbove hHere
        have hd := h.shrink (.inl hHere) hUpper
        obtain ⟨p, hNext, _, _, hAbovePred⟩ := h.exists_forward
        have hBefore := h.progress.avoids d z p (hz.trans hAbovePred) hd hNe hAvoids
        refine hBefore.step hNext fun hEq => ?_
        have hLe := h.progress.rank_le (hd.trans hz)
        rw [← hEq] at hLe
        exact absurd h.rank_lt (not_lt_of_ge hLe)
  meets b z hb hOther hAll := by
    have hPreds : ∀ p, next p b → Processed idom p → Above idom z p := by
      intro p hNext hProcessed
      refine h.shrink ?_ (hAll p hNext (processed_update_iff.mpr (.inr hProcessed)))
      by_cases hSame : p = a
      · exact .inr (hSame ▸ hProcessed)
      · exact .inl hSame
    by_cases hSame : b = a
    · subst hSame
      exact h.above_target (h.meets.lowest z hPreds)
    · have hOld := (processed_update_iff.mp hb).resolve_left hSame
      have hAbove := h.progress.meets b z hOld hOther hPreds
      rcases hAbove.update_or_lost (some n) (a := a) with hKept | ⟨ha, hz, hNe⟩
      · exact hKept
      · -- the node is above a forward node before `b`, so what is above this one is still above it
        obtain ⟨p, hNext, hp, hLt⟩ := h.ranked.forward b (h.progress.reachable b hOld) hOther
        have hProcessed := h.progress.downward p b hOld hp hLt
        have hUpper := h.progress.forward b p a hOld hNext hp hLt ha (fun hEq => hSame hEq.symm)
          (.inl (le_refl _))
        have hzp := hAll p hNext (processed_update_iff.mpr (.inr hProcessed))
        have hza : Above (update idom a (some n)) z a := by
          rcases hzp.total (h.keep_above hUpper (le_refl _)) with hza | haz
          · exact hza
          · have hLe := h.progress.rank_le (h.shrink (.inr (h.processed_of_above ha hSame)) haz)
            exact absurd (h.progress.rank_lt_of_ne hz hNe) (not_lt_of_ge hLe)
        exact hza.trans (h.keep_above ha (le_refl _))
  forward b p c hb hNext hp hLt hAbove hNe hPast := by
    by_cases hSame : b = a
    · subst hSame
      have hUpper := h.meets.above p hNext (h.earlier p hp hLt)
      exact h.keep ((h.of_above_self hAbove hNe).trans hUpper) hLt
    · have hOld := (processed_update_iff.mp hb).resolve_left hSame
      have hUpper := h.shrink (.inl hSame) hAbove
      have hc := h.progress.reachable c (h.progress.processed_above hUpper hOld)
      have hFound := h.progress.forward b p c hOld hNext hp hLt hUpper hNe
      rcases hPast with hLower | hEarlier
      · have hBelow := le_of_lt ((hj c hc).mpr hLower)
        exact h.keep_above (hFound (.inl hBelow)) hBelow
      · have hb := h.progress.reachable b hOld
        have hLe : rank b ≤ rank a := le_of_not_gt fun hGt =>
          not_lt_of_ge ((hj b hb).mp hGt) hEarlier
        have hBefore := lt_of_le_of_ne hLe fun hEq =>
          hSame (h.ranked.injective b a hb h.reachable hEq)
        exact h.keep (hFound (.inr hBefore)) (lt_trans hLt hBefore)

end

theorem Progress.restart (h : Progress next entry rank i idom)
    (hAll : ∀ x, Reachable next entry x → rank x < i) : Progress next entry rank j idom where
  entry_self := h.entry_self
  reachable := h.reachable
  rank_lt := h.rank_lt
  processed := h.processed
  downward := h.downward
  dominators := h.dominators
  avoids := h.avoids
  meets := h.meets
  forward b p c hb hNext hp hLt hAbove hNe _ :=
    h.forward b p c hb hNext hp hLt hAbove hNe (.inr (hAll b (h.reachable b hb)))

/-- Each node but the entry is below the lowest node above all nodes before it. -/
def Settled (next : α → α → Prop) (entry : α) (idom : α → Option α) : Prop :=
  ∀ b, Reachable next entry b → b ≠ entry → ∃ n, idom b = some n ∧ Meets next idom b n

section

variable (h : Progress next entry rank i idom) (hSettled : Settled next entry idom)
  (hb : Reachable next entry b)
include h hSettled hb

theorem Progress.processed_of_settled : Processed idom b := by
  by_cases hEntry : b = entry
  · exact ⟨entry, hEntry ▸ h.entry_self⟩
  · obtain ⟨n, hUp, _⟩ := hSettled b hb hEntry
    exact ⟨n, hUp⟩

/-- Where a round moves no node, the ways up are the dominators. -/
theorem Progress.above_iff_dominates :
    Above idom z b ↔ Dominates next entry z b := by
  constructor
  · intro hAbove hAvoids
    clear hb
    induction hAvoids with
    | entry hOther => exact hOther (h.above_entry hAbove rfl).symm
    | @step a b hBefore hNext hOther ih =>
      by_cases hEntry : b = entry
      · exact hOther (hEntry.trans (h.above_entry hAbove hEntry).symm)
      · have ha := hBefore.reachable
        obtain ⟨n, hUp, hMeets⟩ := hSettled b (ha.tail hNext) hEntry
        have hUpper := hAbove.of_ne (fun hEq => hOther hEq.symm) hUp
        exact ih (hUpper.trans (hMeets.above a hNext (h.processed_of_settled hSettled ha)))
  · exact h.dominators z b (h.processed_of_settled hSettled hb)

theorem Progress.immediatelyDominates (hOther : b ≠ entry)
    (hUp : idom b = some c) : ImmediatelyDominates next entry c b where
  dominates := (h.above_iff_dominates hSettled hb).mp (.up hUp .refl)
  ne := by
    rintro rfl
    exact lt_irrefl _ (h.rank_lt c c hOther hUp)
  others d hDominates hNe := by
    have hc := h.reachable c (h.processed b c hUp)
    have hAbove := (h.above_iff_dominates hSettled hb).mpr hDominates
    exact (h.above_iff_dominates hSettled hc).mp (hAbove.of_ne hNe hUp)

end

end Library
