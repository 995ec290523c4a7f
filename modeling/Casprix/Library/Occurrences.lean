import Casprix.Library.Substring

/-! The occurrences of a pattern in a text, taken from left to right without overlaps. -/
namespace Library

open List

variable {α : Type*} {d front rest s t u v : List α}

/-- When the pattern follows, that is its first occurrence. -/
def FirstBehind (d front : List α) : Prop := ¬d <:+: front ++ d.dropLast

theorem length_dropLast_lt (hd : d ≠ []) : d.dropLast.length < d.length := by
  rw [length_dropLast]
  exact Nat.sub_lt (length_pos_iff.mpr hd) Nat.one_pos

theorem firstBehind_nil (hd : d ≠ []) : FirstBehind d [] := fun h =>
  not_lt.mpr h.length_le (length_dropLast_lt hd)

theorem firstBehind_iff (hd : d ≠ []) (rest : List α) : FirstBehind d front ↔
    ∀ u v, front ++ d ++ rest = u ++ d ++ v → front.length ≤ u.length := by
  have hLast : d.dropLast ++ [d.getLast hd] = d := dropLast_append_getLast hd
  constructor
  · intro h u v hSplit
    by_contra hBefore
    have hShort : (u ++ d).length ≤ (front ++ d.dropLast).length := by
      have hLength := congrArg List.length hLast
      rw [length_append, length_singleton] at hLength
      rw [length_append, length_append]
      omega
    have hPrefix : u ++ d <+: front ++ d.dropLast := by
      have hWhole : u ++ d <+: front ++ d ++ rest := ⟨v, hSplit.symm⟩
      refine prefix_of_prefix_length_le hWhole ⟨[d.getLast hd] ++ rest, ?_⟩ hShort
      rw [← append_assoc, append_assoc front, hLast]
    exact h ((suffix_append u d).isInfix.trans hPrefix.isInfix)
  · rintro h ⟨u, v, hInside⟩
    have hSplit : front ++ d ++ rest = u ++ d ++ (v ++ [d.getLast hd] ++ rest) := by
      conv_lhs => rw [← hLast]
      rw [← append_assoc, ← hInside]
      simp only [append_assoc]
    have hLe := h u _ hSplit
    have hLength := congrArg List.length hInside
    rw [length_append, length_append, length_append] at hLength
    have hShort := length_dropLast_lt hd
    omega

theorem FirstBehind.of_append (h : FirstBehind d (u ++ front)) : FirstBehind d front := by
  intro hInside
  apply h
  rw [append_assoc]
  exact hInside.trans (suffix_append u _).isInfix

theorem FirstBehind.not_prefix {a : α} (hd : d ≠ [])
    (h : FirstBehind d (a :: front)) (rest : List α) :
    ¬d <+: a :: (front ++ d ++ rest) := by
  rintro ⟨v, hSplit⟩
  have hLe := (firstBehind_iff hd rest).mp h [] v hSplit.symm
  exact Nat.not_succ_le_zero _ hLe

section

variable [DecidableEq α]

theorem findSuffix_eq_none_iff : findSuffix d s = none ↔ ¬d <:+: s := by
  induction s with
  | nil => simp [findSuffix]
  | cons a s ih =>
    rw [findSuffix, infix_cons_iff]
    by_cases hHere : d <+: a :: s
    · simp [hHere]
    · simp [hHere, ih]

theorem findSuffix_eq_some_iff (hd : d ≠ []) : findSuffix d s = some t ↔
    ∃ front rest, s = front ++ d ++ rest ∧ t = d ++ rest ∧ FirstBehind d front := by
  induction s with
  | nil =>
    have hNone : findSuffix d [] = none := if_neg hd
    rw [hNone]
    refine iff_of_false (Option.some_ne_none _).symm ?_
    rintro ⟨front, rest, hSplit, _⟩
    have hLength := congrArg List.length hSplit
    rw [length_append, length_append, length_nil] at hLength
    have hPos := length_pos_iff.mpr hd
    omega
  | cons a s ih =>
    rw [findSuffix]
    by_cases hHere : d <+: a :: s
    · rw [if_pos hHere]
      obtain ⟨rest, hRest⟩ := hHere
      constructor
      · intro hSame
        cases hSame
        exact ⟨[], rest, hRest.symm, hRest.symm, firstBehind_nil hd⟩
      · rintro ⟨front, rest', hSplit, rfl, hFirst⟩
        have hLe := (firstBehind_iff hd rest').mp hFirst [] rest (hSplit.symm.trans hRest.symm)
        have hEmpty : front = [] := length_eq_zero_iff.mp (Nat.le_zero.mp hLe)
        rw [hSplit, hEmpty]
        rfl
    · rw [if_neg hHere, ih]
      constructor
      · rintro ⟨front, rest, rfl, rfl, hFirst⟩
        refine ⟨a :: front, rest, rfl, rfl, fun hInside => ?_⟩
        rw [cons_append, infix_cons_iff] at hInside
        rcases hInside with hPrefix | hLater
        · apply hHere
          refine hPrefix.trans (cons_prefix_cons.mpr ⟨rfl, ?_⟩)
          rw [append_assoc]
          exact prefix_append_right_inj front |>.mpr
            (( dropLast_prefix d).trans (prefix_append d rest))
        · exact hFirst hLater
      · rintro ⟨front, rest, hSplit, rfl, hFirst⟩
        cases front with
        | nil => exact absurd ⟨rest, hSplit.symm⟩ hHere
        | cons b front =>
          rw [cons_append, cons_append, List.cons.injEq] at hSplit
          exact ⟨front, rest, hSplit.2, rfl, hFirst.of_append (u := [b])⟩

end

/-- A text has no occurrence, or a first one and what is behind it. -/
theorem occurrence_induction (hd : d ≠ []) {P : List α → Prop}
    (hNone : ∀ s, ¬d <:+: s → P s)
    (hFirst : ∀ front rest, FirstBehind d front → P rest → P (front ++ d ++ rest))
    (s : List α) : P s := by
  classical
  induction hLength : s.length using Nat.strongRecOn generalizing s with
  | ind n ih =>
    cases hFind : findSuffix d s with
    | none => exact hNone s (findSuffix_eq_none_iff.mp hFind)
    | some t =>
      obtain ⟨front, rest, rfl, _, hBehind⟩ := (findSuffix_eq_some_iff hd).mp hFind
      refine hFirst front rest hBehind (ih rest.length ?_ rest rfl)
      have hPos := length_pos_iff.mpr hd
      rw [← hLength, length_append, length_append]
      omega

section

variable [DecidableEq α]

/-- The number of occurrences behind the next `skip` characters. -/
def countFrom (d : List α) : Nat → List α → Nat
  | _, [] => 0
  | skip + 1, _ :: s => countFrom d skip s
  | 0, a :: s => if d <+: a :: s then countFrom d (d.length - 1) s + 1 else countFrom d 0 s

/-- The number of occurrences, from left to right without overlaps. -/
def occurrences (d s : List α) : Nat := countFrom d 0 s

/-- The text behind the next `skip` characters, with the occurrences replaced. -/
def replaceFrom (old new : List α) : Nat → List α → List α
  | _, [] => []
  | skip + 1, _ :: s => replaceFrom old new skip s
  | 0, a :: s =>
    if old <+: a :: s then new ++ replaceFrom old new (old.length - 1) s
      else a :: replaceFrom old new 0 s

/-- The text with its occurrences replaced, from left to right without overlaps. -/
def replaceEach (old new s : List α) : List α := replaceFrom old new 0 s

theorem countFrom_append (front s : List α) :
    countFrom d front.length (front ++ s) = countFrom d 0 s := by
  induction front with
  | nil => rfl
  | cons a front ih => exact ih

theorem replaceFrom_append {old new : List α} (front s : List α) :
    replaceFrom old new front.length (front ++ s) = replaceFrom old new 0 s := by
  induction front with
  | nil => rfl
  | cons a front ih => exact ih

theorem occurrences_of_first (hd : d ≠ []) (h : FirstBehind d front) (rest : List α) :
    occurrences d (front ++ d ++ rest) = occurrences d rest + 1 := by
  unfold occurrences
  induction front with
  | nil =>
    cases d with
    | nil => exact absurd rfl hd
    | cons c d =>
      have hHere : c :: d <+: c :: (d ++ rest) := prefix_append (c :: d) rest
      rw [nil_append, cons_append, countFrom, if_pos hHere]
      exact congrArg (· + 1) (countFrom_append d rest)
  | cons a front ih =>
    rw [cons_append, cons_append, countFrom, if_neg (h.not_prefix hd rest)]
    exact ih (h.of_append (u := [a]))

theorem occurrences_of_absent (h : ¬d <:+: s) : occurrences d s = 0 := by
  unfold occurrences
  induction s with
  | nil => rfl
  | cons a s ih =>
    rw [infix_cons_iff, not_or] at h
    rw [countFrom, if_neg h.1]
    exact ih h.2

theorem replaceEach_of_first {old new : List α} (hOld : old ≠ [])
    (h : FirstBehind old front) (rest : List α) :
    replaceEach old new (front ++ old ++ rest) = front ++ new ++ replaceEach old new rest := by
  unfold replaceEach
  induction front with
  | nil =>
    cases old with
    | nil => exact absurd rfl hOld
    | cons c old =>
      have hHere : c :: old <+: c :: (old ++ rest) := prefix_append (c :: old) rest
      rw [nil_append, cons_append, replaceFrom, if_pos hHere]
      exact congrArg (new ++ ·) (replaceFrom_append old rest)
  | cons a front ih =>
    rw [cons_append, cons_append, replaceFrom, if_neg (h.not_prefix hOld rest)]
    exact congrArg (a :: ·) (ih (h.of_append (u := [a])))

theorem replaceEach_of_absent {old new : List α} (h : ¬old <:+: s) :
    replaceEach old new s = s := by
  unfold replaceEach
  induction s with
  | nil => rfl
  | cons a s ih =>
    rw [infix_cons_iff, not_or] at h
    rw [replaceFrom, if_neg h.1]
    exact congrArg (a :: ·) (ih h.2)

end

end Library
