import Casprix.Stdlib.Split
import Mathlib.Data.List.Chain

/-! Replacing in a string. The loop of `nuwan_string_replace_all` starts over at the beginning of
what it has produced, so a replacement may be replaced in turn. -/
namespace Casprix.Stdlib

open List Library

/-- The first occurrence is replaced. -/
def nuwanStringReplace (s old new : CString) : CString :=
  match strstr s old with
  | none => s
  | some p => s.take (s.length - p.length) ++ new ++ p.drop old.length

/-- The loop, which goes on with `result`. -/
def replaceAllLoop (old new : CString) : Nat → CString → Option CString
  | 0, _ => none
  | fuel + 1, result =>
    match strstr result old with
    | some _ => replaceAllLoop old new fuel (nuwanStringReplace result old new)
    | none => some result

/-- `none` where the loop is still running after `fuel` rounds. -/
def nuwanStringReplaceAll (fuel : Nat) (s old new : CString) : Option CString :=
  if old = [] then some s else replaceAllLoop old new fuel s

/-- The places where the loop replaces. -/
def replacedAt (old new : CString) : Nat → CString → List Nat
  | 0, _ => []
  | fuel + 1, result =>
    match strstr result old with
    | some p => (result.length - p.length) :: replacedAt old new fuel
      (nuwanStringReplace result old new)
    | none => []

/-- The call ends with each occurrence replaced, and after a replacement it goes on behind the text
that was put in. -/
def ReplacesOnce (s old new : CString) : Prop :=
  ∃ fuel, nuwanStringReplaceAll fuel s old new = some (replaceEach old new s) ∧
    (replacedAt old new fuel s).IsChain fun p q => p + new.length ≤ q

/-- The string is cut at one of the occurrences that are taken from left to right. -/
inductive CutsAt (old : CString) : CString → CString → CString → Prop where
  | here {front : CString} (rest : CString) (hFirst : FirstBehind old front) :
      CutsAt old (front ++ old ++ rest) front rest
  | later {front rest u t : CString} (hFirst : FirstBehind old front) (h : CutsAt old rest u t) :
      CutsAt old (front ++ old ++ rest) (front ++ old ++ u) t

/-- The replacements form no occurrence: not with the text up to the next occurrence and the
characters of that one but its last, and not at the end. -/
structure FormsNone (s old new : CString) : Prop where
  before : ∀ u t, CutsAt old s u t → FirstBehind old (replaceEach old new u)
  after : ¬old <:+: replaceEach old new s

section

variable {old new front rest s done : CString} {fuel : Nat}

theorem replace_first (hOld : old ≠ []) (h : FirstBehind old front) (rest : CString) :
    nuwanStringReplace (front ++ old ++ rest) old new = front ++ new ++ rest ∧
      (front ++ old ++ rest).length - (old ++ rest).length = front.length := by
  have hLength : (front ++ old ++ rest).length - (old ++ rest).length = front.length := by
    rw [append_assoc, length_append]
    exact Nat.add_sub_cancel ..
  refine ⟨?_, hLength⟩
  unfold nuwanStringReplace
  rw [strstr_first hOld h]
  dsimp only
  rw [hLength, drop_left, append_assoc front old, take_left]

/-- What `FormsNone` says when the text before `s` is already `done`. -/
structure FormsNoneBehind (old new done s : CString) : Prop where
  before : ∀ u t, CutsAt old s u t → FirstBehind old (done ++ replaceEach old new u)
  after : ¬old <:+: done ++ replaceEach old new s

/-- The text before the first occurrence, and each occurrence behind it. -/
theorem formsNoneBehind_first_iff (hOld : old ≠ []) (h : FirstBehind old front) :
    FormsNoneBehind old new done (front ++ old ++ rest) ↔
      FirstBehind old (done ++ front) ∧ FormsNoneBehind old new (done ++ front ++ new) rest := by
  have hFront : replaceEach old new front = front := by
    refine replaceEach_of_absent fun hInside => h ?_
    exact hInside.trans (prefix_append _ _).isInfix
  have hEach : ∀ u, done ++ replaceEach old new (front ++ old ++ u) =
      done ++ front ++ new ++ replaceEach old new u := by
    intro u
    rw [replaceEach_of_first hOld h, append_assoc done front new, append_assoc done (front ++ new)]
  constructor
  · intro hNone
    refine ⟨?_, fun u t hCut => ?_, ?_⟩
    · have hHere := hNone.before front rest (.here rest h)
      rwa [hFront] at hHere
    · rw [← hEach]
      exact hNone.before _ t (.later h hCut)
    · rw [← hEach]
      exact hNone.after
  · rintro ⟨hHere, hNone⟩
    constructor
    · intro u t hCut
      generalize hText : front ++ old ++ rest = text at hCut
      have hSame : ∀ {front' rest'}, FirstBehind old front' →
        front ++ old ++ rest = front' ++ old ++ rest' →
          front' = front ∧ rest' = rest := by
        intro front' rest' h' hSplit
        have hLe := (firstBehind_iff hOld rest).mp h front' rest' hSplit
        have hLe' := (firstBehind_iff hOld rest').mp h' front rest hSplit.symm
        rw [append_assoc, append_assoc] at hSplit
        obtain ⟨hFronts, hRests⟩ := append_inj hSplit (le_antisymm hLe hLe')
        exact ⟨hFronts.symm, (append_cancel_left hRests).symm⟩
      cases hCut with
      | here rest' h' =>
        obtain ⟨rfl, _⟩ := hSame h' hText
        rwa [hFront]
      | later h' hLater =>
        obtain ⟨rfl, rfl⟩ := hSame h' hText
        rw [hEach]
        exact hNone.before _ t hLater
    · rw [hEach]
      exact hNone.after

theorem formsNoneBehind_none_iff (hNot : ¬old <:+: s) :
    FormsNoneBehind old new done s ↔ ¬old <:+: done ++ s := by
  have hNoCut : ∀ u t, ¬CutsAt old s u t := by
    intro u t hCut
    apply hNot
    cases hCut with
    | here rest _ => exact ⟨u, t, rfl⟩
    | @later front rest u t _ _ => exact ⟨front, rest, rfl⟩
  constructor
  · intro h
    have hAfter := h.after
    rwa [replaceEach_of_absent hNot] at hAfter
  · intro h
    refine ⟨fun u t hCut => absurd hCut (hNoCut u t), ?_⟩
    rwa [replaceEach_of_absent hNot]

theorem loop_of_absent (h : ¬old <:+: s) : replaceAllLoop old new 1 s = some s := by
  have hEnd : strstr s old = none := findSuffix_eq_none_iff.mpr h
  rw [replaceAllLoop, hEnd]

theorem replacedAt_of_absent (h : ¬old <:+: s) (fuel : Nat) : replacedAt old new fuel s = [] := by
  have hEnd : strstr s old = none := findSuffix_eq_none_iff.mpr h
  cases fuel with
  | zero => rfl
  | succ fuel => rw [replacedAt, hEnd]

theorem exists_loop_of_formsNone (hOld : old ≠ []) (s done : CString)
    (h : FormsNoneBehind old new done s) : ∃ fuel,
      replaceAllLoop old new fuel (done ++ s) = some (done ++ replaceEach old new s) ∧
        (replacedAt old new fuel (done ++ s)).IsChain (fun p q => p + new.length ≤ q) ∧
        ∀ p ∈ replacedAt old new fuel (done ++ s), done.length ≤ p := by
  induction s using occurrence_induction hOld generalizing done with
  | hNone s hNot =>
    rw [formsNoneBehind_none_iff hNot] at h
    rw [replaceEach_of_absent hNot]
    refine ⟨1, loop_of_absent h, ?_⟩
    rw [replacedAt_of_absent h]
    exact ⟨.nil, nofun⟩
  | hFirst front rest hBehind ih =>
    rw [formsNoneBehind_first_iff hOld hBehind] at h
    obtain ⟨hHere, hRest⟩ := h
    obtain ⟨fuel, hLoop, hChain, hLater⟩ := ih (done ++ front ++ new) hRest
    obtain ⟨hReplaced, hPlace⟩ := @replace_first old new (done ++ front) hOld hHere rest
    have hText : done ++ (front ++ old ++ rest) = done ++ front ++ old ++ rest := by
      rw [← append_assoc, ← append_assoc]
    have hAt : replacedAt old new (fuel + 1) (done ++ front ++ old ++ rest) =
        (done ++ front).length :: replacedAt old new fuel (done ++ front ++ new ++ rest) := by
      rw [replacedAt, strstr_first hOld hHere]
      dsimp only
      rw [hReplaced, hPlace]
    rw [hText]
    refine ⟨fuel + 1, ?_, ?_, ?_⟩
    · rw [replaceAllLoop, strstr_first hOld hHere]
      rw [hReplaced, hLoop, replaceEach_of_first hOld hBehind, append_assoc done front new,
        append_assoc done (front ++ new)]
    · rw [hAt, isChain_cons]
      refine ⟨fun q hq => ?_, hChain⟩
      have hLe := hLater q (mem_of_mem_head? hq)
      rwa [length_append] at hLe
    · rw [hAt]
      intro p hp
      rcases mem_cons.mp hp with rfl | hRest
      · rw [length_append]
        exact Nat.le_add_right _ _
      · have hLe := hLater p hRest
        rw [length_append, length_append, Nat.add_assoc] at hLe
        exact (Nat.le_add_right _ _).trans hLe

/-- A loop that ends, and always goes on behind the text that it has put in, has met no occurrence
that was formed. -/
theorem formsNone_of_loop (hOld : old ≠ []) (s done : CString) {result : CString}
    (hLoop : replaceAllLoop old new fuel (done ++ s) = some result)
    (hChain : (replacedAt old new fuel (done ++ s)).IsChain fun p q => p + new.length ≤ q)
    (hLater : ∀ p ∈ (replacedAt old new fuel (done ++ s)).head?, done.length ≤ p) :
    FormsNoneBehind old new done s := by
  -- An occurrence that starts behind `done` lies in `s`.
  have hInside : ∀ {done s u v : CString}, done ++ s = u ++ old ++ v →
    done.length ≤ u.length →
      ∃ u', u = done ++ u' ∧ s = u' ++ old ++ v := by
    intro done s u v hSplit hLe
    have hPrefix : done <+: u := by
      refine prefix_of_prefix_length_le (prefix_append done s) ?_ hLe
      rw [hSplit, append_assoc]
      exact prefix_append _ _
    obtain ⟨u', rfl⟩ := hPrefix
    refine ⟨u', rfl, ?_⟩
    rw [append_assoc done, append_assoc done] at hSplit
    exact append_cancel_left hSplit
  induction s using occurrence_induction hOld generalizing done fuel with
  | hNone s hNot =>
    rw [formsNoneBehind_none_iff hNot]
    intro hOccurs
    cases fuel with
    | zero => cases hLoop
    | succ fuel =>
      cases hFind : strstr (done ++ s) old with
      | none => exact findSuffix_eq_none_iff.mp hFind hOccurs
      | some found =>
        obtain ⟨u, v, hSplit, rfl, hFirst⟩ := (findSuffix_eq_some_iff hOld).mp hFind
        rw [replacedAt, hFind] at hLater
        have hPlace := (@replace_first old new u hOld hFirst v).2
        rw [hSplit] at hLater
        have hLe := hLater _ rfl
        rw [hPlace] at hLe
        obtain ⟨u', _, hIn⟩ := hInside hSplit hLe
        exact hNot ⟨u', v, hIn.symm⟩
  | hFirst front rest hBehind ih =>
    cases fuel with
    | zero => cases hLoop
    | succ fuel =>
      have hText : done ++ (front ++ old ++ rest) = done ++ front ++ old ++ rest := by
        rw [← append_assoc, ← append_assoc]
      have hHere : FirstBehind old (done ++ front) := by
        cases hFind : strstr (done ++ (front ++ old ++ rest)) old with
        | none =>
          refine absurd ?_ (findSuffix_eq_none_iff.mp hFind)
          exact ⟨done ++ front, rest, hText.symm⟩
        | some found =>
          obtain ⟨u, v, hSplit, rfl, hFirst⟩ := (findSuffix_eq_some_iff hOld).mp hFind
          rw [replacedAt, hFind] at hLater
          have hPlace := (@replace_first old new u hOld hFirst v).2
          rw [hSplit] at hLater
          have hLe := hLater _ rfl
          rw [hPlace] at hLe
          obtain ⟨u', rfl, hIn⟩ := hInside hSplit hLe
          have hNotBefore := (firstBehind_iff hOld rest).mp hBehind u' v hIn
          have hFirst' := (firstBehind_iff hOld v).mp hFirst (done ++ front) rest
            (hSplit.symm.trans hText)
          rw [length_append, length_append] at hFirst'
          have hSame : u' = front := by
            rw [append_assoc, append_assoc] at hIn
            exact (append_inj_left hIn (by omega)).symm
          rwa [hSame] at hFirst
      rw [formsNoneBehind_first_iff hOld hBehind]
      obtain ⟨hReplaced, hPlace⟩ := @replace_first old new (done ++ front) hOld hHere rest
      rw [hText] at hLoop hChain
      rw [replaceAllLoop, strstr_first hOld hHere] at hLoop
      rw [replacedAt, strstr_first hOld hHere] at hChain
      dsimp only at hLoop hChain
      rw [hReplaced] at hLoop hChain
      rw [hPlace, isChain_cons] at hChain
      refine ⟨hHere, ih (done ++ front ++ new) hLoop hChain.2 fun q hq => ?_⟩
      rw [@length_append _ (done ++ front) new]
      exact hChain.1 q hq

/-- The call replaces each occurrence once where the replacements form none. -/
theorem nuwan_string_replace_all_exact (hOld : old ≠ []) (s new : CString) :
    ReplacesOnce s old new ↔ FormsNone s old new := by
  have hSame : FormsNone s old new ↔ FormsNoneBehind old new [] s :=
    ⟨fun h => ⟨h.before, h.after⟩, fun h => ⟨h.before, h.after⟩⟩
  have hCall : ∀ fuel, nuwanStringReplaceAll fuel s old new = replaceAllLoop old new fuel s :=
    fun fuel => if_neg hOld
  rw [hSame]
  constructor
  · rintro ⟨fuel, hLoop, hChain⟩
    rw [hCall] at hLoop
    exact formsNone_of_loop hOld s [] hLoop hChain fun p _ => Nat.zero_le p
  · intro h
    obtain ⟨fuel, hLoop, hChain, _⟩ := exists_loop_of_formsNone hOld s [] h
    exact ⟨fuel, (hCall fuel).trans hLoop, hChain⟩

/-- In `replace_all("aabbaa", "aa", "X")` nothing is formed. -/
theorem pairs_formsNone : FormsNone [97, 97, 98, 98, 97, 97] [97, 97] [88] := by
  have hTwo : ([97, 97] : CString) ≠ [] := by decide
  have hEnd : FormsNoneBehind [97, 97] [88] [88, 98, 98, 88] [] :=
    (formsNoneBehind_none_iff (by decide)).mpr (by decide)
  have hMiddle : FormsNoneBehind [97, 97] [88] [88] ([98, 98] ++ [97, 97] ++ []) :=
    (formsNoneBehind_first_iff hTwo (by unfold FirstBehind; decide)).mpr
      ⟨by unfold FirstBehind; decide, hEnd⟩
  have hStart : FormsNoneBehind [97, 97] [88] [] ([] ++ [97, 97] ++ [98, 98, 97, 97]) :=
    (formsNoneBehind_first_iff hTwo (firstBehind_nil hTwo)).mpr ⟨firstBehind_nil hTwo, hMiddle⟩
  exact ⟨hStart.before, hStart.after⟩

theorem replace_all_of_pairs : ReplacesOnce [97, 97, 98, 98, 97, 97] [97, 97] [88] :=
  (nuwan_string_replace_all_exact (by decide) _ _).mpr pairs_formsNone

/-- `replace_all("a", "a", "aa")` does not end, and `replace_all("aab", "ab",
"b")` replaces twice. -/
theorem replace_all_rescans : ¬ReplacesOnce [97] [97] [97, 97] ∧
    nuwanStringReplaceAll 3 [97, 97, 98] [97, 98] [98] = some [98] ∧
    replaceEach [97, 98] [98] [97, 97, 98] = [97, 98] := by
  have hRuns : ∀ fuel rest, replaceAllLoop [97] [97, 97] fuel (97 :: rest) = none := by
    intro fuel
    induction fuel with
    | zero => exact fun rest => rfl
    | succ fuel ih =>
      intro rest
      have hHere : strstr (97 :: rest) [97] = some (97 :: rest) := by
        unfold strstr findSuffix
        exact if_pos (cons_prefix_cons.mpr ⟨rfl, nil_prefix⟩)
      have hReplaced : nuwanStringReplace (97 :: rest) [97] [97, 97] = 97 :: 97 :: rest := by
        unfold nuwanStringReplace
        rw [hHere]
        dsimp only
        rw [Nat.sub_self]
        rfl
      rw [replaceAllLoop, hHere]
      rw [hReplaced]
      exact ih (97 :: rest)
  refine ⟨?_, by decide, by decide⟩
  rintro ⟨fuel, hLoop, _⟩
  have hNone : nuwanStringReplaceAll fuel [97] [97] [97, 97] = none := hRuns fuel []
  rw [hNone] at hLoop
  cases hLoop

end

end Casprix.Stdlib
