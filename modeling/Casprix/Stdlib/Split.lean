import Casprix.Library.Occurrences

/-! Cutting a string at a delimiter: one scan counts the parts and another one cuts them. -/
namespace Casprix.Stdlib

open List Library

/-- The characters before the terminating zero. -/
abbrev CString := List UInt8

/-- `strstr`: the string from the first occurrence on. -/
def strstr (s sub : CString) : Option CString := findSuffix sub s

/-- The loop that counts the parts, which goes on at `p`. -/
def countParts (delim : CString) : Nat → CString → Nat → Option Nat
  | 0, _, _ => none
  | fuel + 1, p, n =>
    match strstr p delim with
    | some found => countParts delim fuel (found.drop delim.length) (n + 1)
    | none => some n

/-- The loop that cuts the parts, which goes on at `cur`. -/
def cutParts (delim : CString) : Nat → CString → List CString
  | 0, _ => []
  | i + 1, cur =>
    match strstr cur delim with
    | some found => cur.take (cur.length - found.length) :: cutParts delim i
      (found.drop delim.length)
    | none => cur :: cutParts delim i []

/-- `none` where the first loop is still running after `fuel` rounds. -/
def nuwanStringSplit (fuel : Nat) (s delim : CString) : Option (List CString) :=
  (countParts delim fuel s 1).map fun n => cutParts delim n s

/-- The call ends with one part more than the delimiter occurs, none of which contains it, and the
parts joined are the string. -/
def SplitsAt (s delim : CString) : Prop :=
  ∃ fuel parts, nuwanStringSplit fuel s delim = some parts ∧
    parts.length = occurrences delim s + 1 ∧ (∀ part ∈ parts, ¬delim <:+: part) ∧
    List.intercalate delim parts = s

section

variable {delim front rest s : CString} {n fuel : Nat}

theorem strstr_first (hDelim : delim ≠ []) (h : FirstBehind delim front) (rest : CString) :
    strstr (front ++ delim ++ rest) delim = some (delim ++ rest) :=
  (findSuffix_eq_some_iff hDelim).mpr ⟨front, rest, rfl, rfl, h⟩

theorem exists_countParts (hDelim : delim ≠ []) (s : CString) : ∃ fuel, ∀ n,
    countParts delim fuel s n = some (n + occurrences delim s) := by
  induction s using occurrence_induction hDelim with
  | hNone s hNot =>
    refine ⟨1, fun n => ?_⟩
    have hEnd : strstr s delim = none := findSuffix_eq_none_iff.mpr hNot
    rw [countParts, hEnd, occurrences_of_absent hNot]
    rfl
  | hFirst front rest hBehind ih =>
    obtain ⟨fuel, hCount⟩ := ih
    refine ⟨fuel + 1, fun n => ?_⟩
    rw [countParts, strstr_first hDelim hBehind]
    dsimp only
    rw [drop_left, hCount, occurrences_of_first hDelim hBehind, Nat.add_assoc, Nat.add_comm 1]

/-- The second loop has a part for each round, and comes to the end of the string
with the last one. -/
theorem cutParts_spec (hDelim : delim ≠ []) (s : CString) :
    (cutParts delim (occurrences delim s + 1) s).length = occurrences delim s + 1 ∧
      (∀ part ∈ cutParts delim (occurrences delim s + 1) s, ¬delim <:+: part) ∧
      List.intercalate delim (cutParts delim (occurrences delim s + 1) s) = s := by
  induction s using occurrence_induction hDelim with
  | hNone s hNot =>
    have hEnd : strstr s delim = none := findSuffix_eq_none_iff.mpr hNot
    have hOne : cutParts delim 1 s = [s] := by rw [cutParts, hEnd, cutParts]
    rw [occurrences_of_absent hNot, hOne]
    refine ⟨rfl, fun part hPart => ?_, intercalate_singleton ..⟩
    rw [mem_singleton.mp hPart]
    exact hNot
  | hFirst front rest hBehind ih =>
    obtain ⟨hLength, hParts, hJoined⟩ := ih
    have hCut : cutParts delim (occurrences delim (front ++ delim ++ rest) + 1)
      (front ++ delim ++ rest) =
        front :: cutParts delim (occurrences delim rest + 1) rest := by
      have hFront : (front ++ delim ++ rest).length - (delim ++ rest).length = front.length := by
        rw [append_assoc, length_append]
        exact Nat.add_sub_cancel ..
      rw [occurrences_of_first hDelim hBehind, cutParts, strstr_first hDelim hBehind]
      dsimp only
      rw [drop_left, hFront, append_assoc, take_left]
    have hSome : cutParts delim (occurrences delim rest + 1) rest ≠ [] := by
      rw [← length_pos_iff, hLength]
      exact Nat.succ_pos _
    rw [hCut]
    refine ⟨?_, fun part hPart => ?_, ?_⟩
    · rw [length_cons, hLength, occurrences_of_first hDelim hBehind]
    · rcases mem_cons.mp hPart with rfl | hLater
      · exact fun hInside => hBehind (hInside.trans (prefix_append _ _).isInfix)
      · exact hParts part hLater
    · rw [intercalate_cons_of_ne_nil hSome, hJoined]

/-- An empty delimiter is found where the search starts, again and again. -/
theorem countParts_nil (fuel : Nat) (s : CString) (n : Nat) : countParts [] fuel s n = none := by
  have hHere : strstr s [] = some s := by
    cases s with
    | nil => rfl
    | cons a s =>
      unfold strstr findSuffix
      exact if_pos nil_prefix
  induction fuel generalizing n with
  | zero => rfl
  | succ fuel ih =>
    rw [countParts, hHere]
    exact ih (n + 1)

/-- The call is right for all delimiters but the empty one, with which it does not end. -/
theorem nuwan_string_split_exact (s delim : CString) : SplitsAt s delim ↔ delim ≠ [] := by
  constructor
  · rintro ⟨fuel, parts, hSplit, _⟩ rfl
    rw [nuwanStringSplit, countParts_nil] at hSplit
    cases hSplit
  · intro hDelim
    obtain ⟨fuel, hCount⟩ := exists_countParts hDelim s
    refine ⟨fuel, _, ?_, cutParts_spec hDelim s⟩
    rw [nuwanStringSplit, hCount, Option.map_some, Nat.add_comm 1]

/-- `split("a", "")` does not end. -/
theorem split_empty_runs_on : ¬SplitsAt [97] [] := by
  rintro ⟨fuel, parts, hSplit, _⟩
  rw [nuwanStringSplit, countParts_nil] at hSplit
  cases hSplit

end

end Casprix.Stdlib
