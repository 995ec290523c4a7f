import Mathlib.Data.List.Infix

/-! The first place where a pattern stands in a text, for a pattern between
delimiters in a text of delimited strings. -/
namespace Library

open List

variable {α : Type*} {c : α} {s t key tail rest pattern : List α}

theorem append_cons_prefix_iff (hKey : c ∉ key) (hs : c ∉ s) :
    key ++ c :: tail <+: s ++ c :: rest ↔ s = key ∧ tail <+: rest := by
  induction key generalizing s with
  | nil =>
    cases s with
    | nil => simp
    | cons a s =>
      rw [mem_cons, not_or] at hs
      simp [hs.1]
  | cons k key ih =>
    rw [mem_cons, not_or] at hKey
    cases s with
    | nil => simp [Ne.symm hKey.1]
    | cons a s =>
      rw [mem_cons, not_or] at hs
      rw [cons_append, cons_append, cons_prefix_cons, ih hKey.2 hs.2,
        List.cons.injEq, and_assoc, eq_comm]

section

variable [DecidableEq α]

/-- The text from the first occurrence of the pattern on. -/
def findSuffix (pattern : List α) : List α → Option (List α)
  | [] => if pattern = [] then some [] else none
  | a :: text => if pattern <+: a :: text then some (a :: text) else findSuffix pattern text

@[simp] theorem findSuffix_nil : findSuffix (c :: pattern) [] = none := rfl

theorem findSuffix_append_of_not_mem (h : c ∉ s) :
    findSuffix (c :: pattern) (s ++ t) = findSuffix (c :: pattern) t := by
  induction s with
  | nil => rfl
  | cons a s ih =>
    rw [mem_cons, not_or] at h
    have hNot : ¬c :: pattern <+: a :: (s ++ t) := fun hPrefix =>
      h.1 (cons_prefix_cons.mp hPrefix).1
    rw [cons_append, findSuffix, if_neg hNot, ih h.2]

theorem findSuffix_cons_self :
    findSuffix (c :: pattern) (c :: t) =
      if pattern <+: t then some (c :: t) else findSuffix (c :: pattern) t := by
  rw [findSuffix]
  simp only [cons_prefix_cons, true_and]

/-- A delimited pattern is found at a delimited string that is its key and is
followed by its tail. It is not found at the closing delimiter when what
follows there differs from the key at once. -/
theorem findSuffix_delimited {k : α} (hKey : c ∉ k :: key) (hs : c ∉ s)
    (hRest : rest.head? ≠ some k) :
    findSuffix (c :: k :: key ++ c :: tail) (c :: s ++ c :: rest) =
      if s = k :: key ∧ tail <+: rest then some (c :: s ++ c :: rest)
      else findSuffix (c :: k :: key ++ c :: tail) rest := by
  have hClosing : ¬k :: key ++ c :: tail <+: rest := by
    rintro ⟨more, rfl⟩
    exact hRest rfl
  have hIff : k :: key ++ c :: tail <+: s ++ c :: rest ↔ s = k :: key ∧ tail <+: rest :=
    append_cons_prefix_iff hKey hs
  simp only [cons_append] at hClosing hIff ⊢
  rw [findSuffix_cons_self]
  by_cases hMatch : s = k :: key ∧ tail <+: rest
  · rw [if_pos hMatch, if_pos (hIff.mpr hMatch)]
  · rw [if_neg hMatch, if_neg (mt hIff.mp hMatch), findSuffix_append_of_not_mem hs,
      findSuffix_cons_self, if_neg hClosing]

theorem findSuffix_eq_none_of_lt {suffix : List α} (h : findSuffix pattern (s ++ t) = some suffix)
    (hShort : s.length + suffix.length < pattern.length + (s ++ t).length) :
    findSuffix pattern s = none := by
  have hLength : ∀ {short : List α}, short.length < pattern.length →
      findSuffix pattern short = none := by
    intro short hShort
    induction short with
    | nil => rw [findSuffix, if_neg (ne_nil_of_length_pos hShort)]
    | cons a short ih =>
      have hNot : ¬pattern <+: a :: short := fun hPrefix => not_lt.mpr hPrefix.length_le hShort
      rw [findSuffix, if_neg hNot, ih (Nat.lt_of_succ_lt hShort)]
  induction s with
  | nil =>
    apply hLength
    apply length_pos_iff.mpr
    rintro rfl
    have hWhole : suffix = t := by
      cases t with
      | nil => exact (Option.some.inj h).symm
      | cons a t =>
        rw [nil_append, findSuffix, if_pos nil_prefix] at h
        exact (Option.some.inj h).symm
    rw [hWhole] at hShort
    exact lt_irrefl _ hShort
  | cons a s ih =>
    rw [cons_append, findSuffix] at h
    rw [length_cons, cons_append, length_cons] at hShort
    by_cases hPrefix : pattern <+: a :: (s ++ t)
    · rw [if_pos hPrefix] at h
      cases h
      rw [length_cons] at hShort
      apply hLength
      rw [length_cons]
      omega
    · rw [if_neg hPrefix] at h
      have hNot : ¬pattern <+: a :: s := fun hHere =>
        hPrefix (hHere.trans (prefix_append (a :: s) t))
      rw [findSuffix, if_neg hNot]
      exact ih h (by omega)

end

end Library
