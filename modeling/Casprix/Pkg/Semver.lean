import Casprix.Pkg.Registry
import Mathlib.Data.Char
import Mathlib.Data.List.Basic
import Mathlib.Data.List.Lex
import Mathlib.Data.Prod.Lex
import Mathlib.Data.Sum.Order
import Mathlib.Order.WithBot
import Mathlib.Tactic.Common

/-! Versions of the package manager: parsing, the comparison, the constraints, and when the
comparison is the precedence of semantic versions. -/
namespace Casprix.Pkg

open List

structure SemVer where
  major : Int
  minor : Int
  patch : Int
  prerelease : Option CString
  build : Option CString
  deriving DecidableEq, Repr

def skipLeadingV : CString → CString
  | 'v' :: rest => rest
  | 'V' :: rest => rest
  | s => s

/-- The answer is `none` where the length of the prerelease comes out negative, so that
what it is copied to does not exist, and `some none` where there is no number. -/
def semverParse (versionStr : CString) : Option (Option SemVer) :=
  let s := skipLeadingV versionStr
  match scanInt s with
  | none => some none
  | some _ =>
    let (major, minor, patch) := parseNumbers s
    let build := match s.dropWhile (· ≠ '+') with
      | _ :: rest => some rest
      | [] => none
    match s.dropWhile (· ≠ '-') with
    | [] => some (some ⟨major, minor, patch, none, build⟩)
    | _ :: rest =>
      if '+' ∈ s.takeWhile (· ≠ '-') then none
      else some (some ⟨major, minor, patch, some (rest.takeWhile (· ≠ '+')), build⟩)

/-- The difference of two numbers as an `int`. -/
def intDifference (m n : Int) : Int := Int.bmod (m - n) 0x100000000

/-- What is not there compares as equal to everything. -/
def semverCompare (a b : Option SemVer) : Int :=
  match a, b with
  | some a, some b =>
    if a.major ≠ b.major then intDifference a.major b.major
    else if a.minor ≠ b.minor then intDifference a.minor b.minor
    else if a.patch ≠ b.patch then intDifference a.patch b.patch
    else
      match a.prerelease, b.prerelease with
      | none, none => 0
      | none, some _ => 1
      | some _, none => -1
      | some p, some q => strcmp p q
  | _, _ => 0

def semverEquals (a b : Option SemVer) : Bool := semverCompare a b = 0

/-- A missing base is read through a null pointer. -/
def satisfiesCaret (ver : SemVer) (base : Option SemVer) : Option Bool :=
  match base with
  | none => none
  | some base =>
    some <|
      if ver.major ≠ base.major then false
      else if 0 < base.major then
        decide (0 ≤ semverCompare (some ver) (some base)) && decide (ver.major = base.major)
      else if 0 < base.minor then
        decide (0 ≤ semverCompare (some ver) (some base)) && decide (ver.major = 0) &&
          decide (ver.minor = base.minor)
      else semverEquals (some ver) (some base)

def satisfiesTilde (ver : SemVer) (base : Option SemVer) : Option Bool :=
  match base with
  | none => none
  | some base =>
    some <|
      if ver.major ≠ base.major then false
      else if ver.minor ≠ base.minor then false
      else decide (0 ≤ semverCompare (some ver) (some base))

def isWildLetter (c : Char) : Bool := c = 'x' || c = 'X'

/-- The copy of the constraint that is parsed, with zeros for the wildcards. -/
def wildcardBuffer (constraint : CString) : CString :=
  (constraint.take 63).map fun c => if isWildLetter c then '0' else c

/-- How far into the constraint the first `x` stands. Where there is none, the address of
the constraint is taken from a null pointer. -/
def wildcardOffset (constraint : CString) : Int :=
  if 'x' ∈ constraint then (constraint.idxOf 'x' : Int) else -1

def satisfiesWildcard (version : SemVer) (constraint : CString) : Option Bool := do
  let base ← semverParse (wildcardBuffer constraint)
  if wildcardOffset constraint < 2 then some true
  else
    let base ← base
    if wildcardOffset constraint < 4 then some (decide (version.major = base.major))
    else some (decide (version.major = base.major) && decide (version.minor = base.minor))

inductive Operator where
  | caret
  | tilde
  | ge
  | gt
  | le
  | lt
  deriving DecidableEq, Repr

/-- The operator at the front and what follows it. -/
def operator : CString → Option (Operator × CString)
  | '^' :: rest => some (.caret, rest)
  | '~' :: rest => some (.tilde, rest)
  | '>' :: '=' :: rest => some (.ge, rest)
  | '>' :: rest => some (.gt, rest)
  | '<' :: '=' :: rest => some (.le, rest)
  | '<' :: rest => some (.lt, rest)
  | _ => none

def Operator.satisfies (version : SemVer) (base : Option SemVer) : Operator → Option Bool
  | .caret => satisfiesCaret version base
  | .tilde => satisfiesTilde version base
  | .ge => some (decide (0 ≤ semverCompare (some version) base))
  | .gt => some (decide (0 < semverCompare (some version) base))
  | .le => some (decide (semverCompare (some version) base ≤ 0))
  | .lt => some (decide (semverCompare (some version) base < 0))

/-- The constraint after its leading white space. -/
def satisfiesConstraint (version : SemVer) (constraint : CString) : Option Bool :=
  match operator constraint with
  | some (op, rest) => do
      let base ← semverParse rest
      op.satisfies version base
  | none =>
    if constraint.any isWildLetter then satisfiesWildcard version constraint
    else do
      let base ← semverParse constraint
      some (semverEquals (some version) base)

/-- The answer is `none` where a null pointer is read or written. -/
def semverSatisfies (version : Option SemVer) (constraint : Option CString) : Option Bool :=
  match version, constraint with
  | some version, some constraint =>
    if constraint = ['*'] then some true
    else satisfiesConstraint version (constraint.dropWhile isSpace)
  | _, _ => some false

/-- The loop over the versions, with the index of the best so far. -/
def maxSatisfyingLoop (versions : List SemVer) (constraint : CString) :
    List (SemVer × Nat) → Option Nat → Option (Option Nat)
  | [], best => some best
  | (version, i) :: rest, best => do
      let satisfied ← semverSatisfies (some version) (some constraint)
      if satisfied then
        match best with
        | none => maxSatisfyingLoop versions constraint rest (some i)
        | some b =>
          if 0 < semverCompare (some version) versions[b]? then
            maxSatisfyingLoop versions constraint rest (some i)
          else maxSatisfyingLoop versions constraint rest (some b)
      else maxSatisfyingLoop versions constraint rest best

/-- The index of the best version, or minus one. -/
def semverMaxSatisfying (versions : List SemVer) (constraint : CString) : Option Int :=
  (maxSatisfyingLoop versions constraint versions.zipIdx none).map fun best =>
    match best with
    | some i => i
    | none => -1

/-- Identifiers of digits are numbers and come before the others. -/
abbrev Identifier := Nat ⊕ₗ CString

def identifier (str : CString) : Identifier :=
  if str ≠ [] ∧ str.all Char.isDigit then toLex (Sum.inl (digitsValue str))
  else toLex (Sum.inr str)

/-- The identifiers between the dots. -/
def identifiers (prerelease : CString) : List Identifier :=
  (prerelease.splitOn '.').map identifier

/-- A version without a prerelease comes after those with one. -/
def prereleaseKey : Option CString → WithTop (List Identifier)
  | some p => WithTop.some (identifiers p)
  | none => ⊤

/-- Versions are ordered by their numbers, then by their prereleases. -/
def SemVer.precedence (v : SemVer) : Int ×ₗ Int ×ₗ Int ×ₗ WithTop (List Identifier) :=
  toLex (v.major, toLex (v.minor, toLex (v.patch, prereleaseKey v.prerelease)))

/-- The comparison tells which version comes first. -/
structure ComparesAs (a b : SemVer) : Prop where
  lt : semverCompare (some a) (some b) < 0 ↔ a.precedence < b.precedence
  eq : semverCompare (some a) (some b) = 0 ↔ a.precedence = b.precedence
  gt : 0 < semverCompare (some a) (some b) ↔ b.precedence < a.precedence

/-- The answer is the index of a greatest version that satisfies the constraint, or minus
one where none does. -/
def IsGreatestIndex (versions : List SemVer) (constraint : CString) (idx : Int) : Prop :=
  (idx = -1 ∧ ∀ v ∈ versions, semverSatisfies (some v) (some constraint) = some false) ∨
    ∃ n : Nat, idx = n ∧ ∃ best ∈ versions[n]?,
      semverSatisfies (some best) (some constraint) = some true ∧
      ∀ v ∈ versions, semverSatisfies (some v) (some constraint) = some true →
        v.precedence ≤ best.precedence

/-- The comparison of these versions is a total preorder and the precedence, and the best
version is a greatest one. -/
structure IsPrecedence (versions : List SemVer) : Prop where
  compares : ∀ a ∈ versions, ∀ b ∈ versions, ComparesAs a b
  antisymm : ∀ a ∈ versions, ∀ b ∈ versions,
    semverCompare (some a) (some b) < 0 ↔ 0 < semverCompare (some b) (some a)
  trans : ∀ a ∈ versions, ∀ b ∈ versions, ∀ c ∈ versions,
    semverCompare (some a) (some b) ≤ 0 → semverCompare (some b) (some c) ≤ 0 →
      semverCompare (some a) (some c) ≤ 0
  greatest : ∀ constraint idx, semverMaxSatisfying versions constraint = some idx →
    IsGreatestIndex versions constraint idx

/-- An identifier with the dot behind it, unless it is the last. -/
def withDot (x : CString) (rest : List CString) : CString :=
  if rest = [] then x else x ++ ['.']

/-- At the first identifiers that differ, the bytes are ordered as the identifiers are.
Numbers that differ in leading zeros only leave the order to what follows. -/
def BytesDecide : List CString → List CString → Prop
  | x :: xs, y :: ys =>
    if x = y then BytesDecide xs ys
    else if identifier x = identifier y then
      (withDot x xs < withDot y ys ↔ xs.map identifier < ys.map identifier) ∧
        (withDot y ys < withDot x xs ↔ ys.map identifier < xs.map identifier)
    else withDot x xs < withDot y ys ↔ identifier x < identifier y
  | _, _ => True

def decideBytes : ∀ xs ys, Decidable (BytesDecide xs ys)
  | x :: xs, y :: ys =>
    have := decideBytes xs ys
    inferInstanceAs (Decidable (if x = y then BytesDecide xs ys
      else if identifier x = identifier y then
        (withDot x xs < withDot y ys ↔ xs.map identifier < ys.map identifier) ∧
          (withDot y ys < withDot x xs ↔ ys.map identifier < xs.map identifier)
      else (withDot x xs < withDot y ys ↔ identifier x < identifier y)))
  | [], _ => instDecidableTrue
  | _ :: _, [] => instDecidableTrue

instance : DecidableRel BytesDecide := decideBytes

/-- The difference of the first numbers that differ is an `int`; where no number differs,
the bytes of the prereleases decide as the identifiers do. -/
def Decided (a b : SemVer) : Prop :=
  if a.major ≠ b.major then -0x80000000 ≤ a.major - b.major ∧ a.major - b.major ≤ 0x7FFFFFFF
  else if a.minor ≠ b.minor then -0x80000000 ≤ a.minor - b.minor ∧
    a.minor - b.minor ≤ 0x7FFFFFFF
  else if a.patch ≠ b.patch then -0x80000000 ≤ a.patch - b.patch ∧
    a.patch - b.patch ≤ 0x7FFFFFFF
  else
    ∀ p ∈ a.prerelease, ∀ q ∈ b.prerelease, BytesDecide (p.splitOn '.') (q.splitOn '.')

instance : DecidableRel Decided := fun _ _ =>
  inferInstanceAs (Decidable (ite _ _ (ite _ _ (ite ..))))

variable {p q : CString}

theorem strcmp_lt : strcmp p q < 0 ↔ p < q := by
  induction p generalizing q with
  | nil =>
    cases q with
    | nil => simp [strcmp]
    | cons d q => simp [strcmp]
  | cons c p ih =>
    cases q with
    | nil => simp [strcmp]
    | cons d q =>
      rw [strcmp, cons_lt_cons_iff]
      by_cases hSame : c = d
      · rw [if_pos hSame, ih]
        simp [hSame]
      · rw [if_neg hSame]
        by_cases hLt : c < d
        · simp [hLt]
        · simp [hLt, hSame]

theorem strcmp_eq : strcmp p q = 0 ↔ p = q := by
  refine ⟨eq_of_strcmp_eq_zero, ?_⟩
  rintro rfl
  induction p with
  | nil => rfl
  | cons c p ih => rwa [strcmp, if_pos rfl]

theorem strcmp_gt : 0 < strcmp p q ↔ q < p := by
  rw [← not_le, le_iff_lt_or_eq, strcmp_lt, strcmp_eq, ← le_iff_lt_or_eq, not_le]

theorem splitOn_ne_nil (p : CString) : p.splitOn '.' ≠ [] := splitOnP_ne_nil _ p

theorem dot_not_mem_splitOn {x : CString} (h : x ∈ p.splitOn '.') : '.' ∉ x := by
  induction p generalizing x with
  | nil => simp_all [List.splitOn]
  | cons c p ih =>
    rw [List.splitOn, splitOnP_cons_eq_if_modifyHead] at h
    split at h
    · rcases mem_cons.mp h with rfl | hTail
      · exact not_mem_nil
      · exact ih hTail
    case isFalse hDot =>
      obtain ⟨head, tail, hSplit⟩ := exists_cons_of_ne_nil (splitOn_ne_nil p)
      rw [List.splitOn] at hSplit
      rw [hSplit, modifyHead_cons] at h
      rcases mem_cons.mp h with rfl | hTail
      · have hHead := ih (x := head) (by rw [List.splitOn, hSplit]; exact mem_cons_self)
        simp only [beq_iff_eq] at hDot
        simp [hHead, Ne.symm hDot]
      · exact ih (by rw [List.splitOn, hSplit]; exact mem_cons_of_mem _ hTail)

/-- What follows an identifier in the string. -/
def afterDot : List CString → CString
  | [] => []
  | x :: xs => '.' :: ['.'].intercalate (x :: xs)

theorem intercalate_dot_cons (x : CString) (xs : List CString) :
    ['.'].intercalate (x :: xs) = x ++ afterDot xs := by
  cases xs with
  | nil => simp [afterDot]
  | cons y ys => simp [afterDot, intercalate_cons_cons]

theorem append_lt_append_left_iff {α : Type*} [LinearOrder α] (x s t : List α) :
    x ++ s < x ++ t ↔ s < t := by
  induction x with
  | nil => rfl
  | cons c x ih =>
    rw [cons_append, cons_append, cons_lt_cons_iff, ih]
    simp

/-- Where two strings without dots differ, it does not matter what follows them, as long as
it begins with a dot in the same cases. -/
theorem append_lt_append_iff {x y s s' t t' : CString} (hx : '.' ∉ x)
    (hy : '.' ∉ y) (hNe : x ≠ y)
    (hs : s = [] ∧ s' = [] ∨ (∃ r r', s = '.' :: r ∧ s' = '.' :: r'))
    (ht : t = [] ∧ t' = [] ∨ (∃ r r', t = '.' :: r ∧ t' = '.' :: r')) :
    x ++ s < y ++ t ↔ x ++ s' < y ++ t' := by
  induction x generalizing y with
  | nil =>
    cases y with
    | nil => exact absurd rfl hNe
    | cons d y =>
      have hd : '.' ≠ d := fun hSame => hy (hSame ▸ mem_cons_self)
      rcases hs with ⟨rfl, rfl⟩ | ⟨r, r', rfl, rfl⟩
      · simp
      · simp [cons_lt_cons_iff, hd]
  | cons c x ih =>
    cases y with
    | nil =>
      have hc : c ≠ '.' := fun hSame => hx (hSame ▸ mem_cons_self)
      rcases ht with ⟨rfl, rfl⟩ | ⟨r, r', rfl, rfl⟩
      · simp
      · simp [cons_lt_cons_iff, hc]
    | cons d y =>
      simp only [cons_append, cons_lt_cons_iff]
      by_cases hSame : c = d
      · subst hSame
        rw [ih (fun h => hx (mem_cons_of_mem _ h)) (fun h => hy (mem_cons_of_mem _ h))
          (fun h => hNe (by rw [h]))]
      · simp [hSame]

theorem intercalate_dot_lt_iff {x y : CString} (xs ys : List CString)
    (hx : '.' ∉ x) (hy : '.' ∉ y) (hNe : x ≠ y) :
    ['.'].intercalate (x :: xs) < ['.'].intercalate (y :: ys) ↔ withDot x xs < withDot y ys := by
  have hFollow : ∀ (z : CString) (zs : List CString), ∃ r, withDot z zs = z ++ r ∧
      (afterDot zs = [] ∧ r = [] ∨ ∃ u v, afterDot zs = '.' :: u ∧ r = '.' :: v) := by
    intro z zs
    cases zs with
    | nil => exact ⟨[], by simp [withDot], .inl ⟨rfl, rfl⟩⟩
    | cons w ws => exact ⟨['.'], by simp [withDot], .inr ⟨_, [], rfl, rfl⟩⟩
  obtain ⟨r, hr, hs⟩ := hFollow x xs
  obtain ⟨t, ht, hFollows⟩ := hFollow y ys
  rw [intercalate_dot_cons, intercalate_dot_cons, hr, ht]
  exact append_lt_append_iff hx hy hNe hs hFollows

theorem withDot_ne {x y : CString} (xs ys : List CString) (hx : '.' ∉ x) (hy : '.' ∉ y)
    (hNe : x ≠ y) : withDot x xs ≠ withDot y ys := by
  unfold withDot
  intro hSame
  split at hSame <;> split at hSame
  · exact hNe hSame
  · exact hx (hSame ▸ mem_append_right _ mem_cons_self)
  · exact hy (hSame ▸ mem_append_right _ mem_cons_self)
  · exact hNe (append_cancel_right hSame)

/-- The bytes and the identifiers are in the same order. -/
def SameOrder (xs ys : List CString) : Prop :=
  (['.'].intercalate xs < ['.'].intercalate ys ↔ xs.map identifier < ys.map identifier) ∧
    (['.'].intercalate ys < ['.'].intercalate xs ↔ ys.map identifier < xs.map identifier)

theorem sameOrder_iff {xs ys : List CString} (hxs : ∀ x ∈ xs, '.' ∉ x)
    (hys : ∀ y ∈ ys, '.' ∉ y)
    (hx : xs ≠ []) (hy : ys ≠ []) : SameOrder xs ys ↔ BytesDecide xs ys := by
  induction xs generalizing ys with
  | nil => exact absurd rfl hx
  | cons x xs ih =>
    cases ys with
    | nil => exact absurd rfl hy
    | cons y ys =>
      have hDots := hxs x mem_cons_self
      have hDots' := hys y mem_cons_self
      rw [BytesDecide]
      by_cases hSame : x = y
      · subst hSame
        rw [if_pos rfl]
        have hRest : SameOrder (x :: xs) (x :: ys) ↔
            (afterDot xs < afterDot ys ↔ xs.map identifier < ys.map identifier) ∧
              (afterDot ys < afterDot xs ↔ ys.map identifier < xs.map identifier) := by
          simp only [SameOrder, intercalate_dot_cons, append_lt_append_left_iff, map_cons,
            cons_lt_cons_iff, lt_irrefl, true_and, false_or]
        rw [hRest]
        cases xs with
        | nil => cases ys <;> simp [afterDot, BytesDecide]
        | cons x' xs =>
          cases ys with
          | nil => simp [afterDot, BytesDecide]
          | cons y' ys =>
            rw [← ih (fun z hz => hxs z (mem_cons_of_mem _ hz))
              (fun z hz => hys z (mem_cons_of_mem _ hz)) (cons_ne_nil _ _)
              (cons_ne_nil _ _)]
            simp only [SameOrder, afterDot, cons_lt_cons_iff, lt_irrefl, true_and, false_or]
      · rw [if_neg hSame]
        unfold SameOrder
        rw [intercalate_dot_lt_iff xs ys hDots hDots' hSame,
          intercalate_dot_lt_iff ys xs hDots' hDots (Ne.symm hSame)]
        simp only [map_cons, cons_lt_cons_iff]
        by_cases hId : identifier x = identifier y
        · simp [hId]
        · rw [if_neg hId]
          have hWords := withDot_ne xs ys hDots hDots' hSame
          have hBytes : withDot y ys < withDot x xs ↔ ¬ withDot x xs < withDot y ys :=
            ⟨fun h => not_lt_of_gt h, fun h => lt_of_le_of_ne (not_lt.mp h) (Ne.symm hWords)⟩
          have hIds : identifier y < identifier x ↔ ¬ identifier x < identifier y :=
            ⟨fun h => not_lt_of_gt h, fun h => lt_of_le_of_ne (not_lt.mp h) (Ne.symm hId)⟩
          tauto

/-- The numbers of a version are of type `int`. -/
structure SemVer.Fits (v : SemVer) : Prop where
  major : -0x80000000 ≤ v.major ∧ v.major ≤ 0x7FFFFFFF
  minor : -0x80000000 ≤ v.minor ∧ v.minor ≤ 0x7FFFFFFF
  patch : -0x80000000 ≤ v.patch ∧ v.patch ≤ 0x7FFFFFFF

theorem storeInt_fits (n : Int) : -0x80000000 ≤ storeInt n ∧ storeInt n ≤ 0x7FFFFFFF := by
  have hLe := Int.le_bmod (x := max (-0x8000000000000000) (min n 0x7FFFFFFFFFFFFFFF))
    (m := 0x100000000) (by decide)
  have hLt := Int.bmod_lt (x := max (-0x8000000000000000) (min n 0x7FFFFFFFFFFFFFFF))
    (m := 0x100000000) (by decide)
  constructor
  · exact hLe
  · exact Int.le_of_lt_add_one hLt

theorem scanInt_fits {str rest : CString} {n : Int} (h : scanInt str = some (n, rest)) :
    -0x80000000 ≤ n ∧ n ≤ 0x7FFFFFFF := by
  simp only [scanInt] at h
  split at h <;> split at h <;> cases h
  all_goals exact storeInt_fits _

theorem parseNumbers_fits (str : CString) (prerelease build : Option CString) :
    SemVer.Fits ⟨(parseNumbers str).1, (parseNumbers str).2.1, (parseNumbers str).2.2, prerelease,
      build⟩ := by
  have hZero : (-0x80000000 : Int) ≤ 0 ∧ (0 : Int) ≤ 0x7FFFFFFF := by decide
  unfold parseNumbers
  split
  case h_1 major rest hMajor =>
    split
    case h_1 minor rest' hMinor =>
      split
      case h_1 patch rest'' hPatch =>
        exact ⟨scanInt_fits hMajor, scanInt_fits hMinor, scanInt_fits hPatch⟩
      case h_2 => exact ⟨scanInt_fits hMajor, scanInt_fits hMinor, hZero⟩
    case h_2 minor rest' _ hMinor => exact ⟨scanInt_fits hMajor, scanInt_fits hMinor, hZero⟩
    case h_3 => exact ⟨scanInt_fits hMajor, hZero, hZero⟩
  case h_2 major rest _ hMajor => exact ⟨scanInt_fits hMajor, hZero, hZero⟩
  case h_3 => exact ⟨hZero, hZero, hZero⟩

theorem semverParse_fits {str : CString} {v : SemVer} (h : semverParse str = some (some v)) :
    v.Fits := by
  simp only [semverParse] at h
  split at h
  · cases h
  · split at h
    · cases h
      exact parseNumbers_fits _ _ _
    · split at h
      · cases h
      · cases h
        exact parseNumbers_fits _ _ _

theorem intDifference_sign_iff {m n : Int} (hm : -0x80000000 ≤ m ∧ m ≤ 0x7FFFFFFF)
    (hn : -0x80000000 ≤ n ∧ n ≤ 0x7FFFFFFF) :
    ((intDifference m n < 0 ↔ m < n) ∧ (0 < intDifference m n ↔ n < m)) ↔
      -0x80000000 ≤ m - n ∧ m - n ≤ 0x7FFFFFFF := by
  unfold intDifference
  rw [Int.bmod_def]
  split <;> omega

theorem precedence_lt_iff (a b : SemVer) : a.precedence < b.precedence ↔
    a.major < b.major ∨ a.major = b.major ∧ (a.minor < b.minor ∨ a.minor = b.minor ∧
      (a.patch < b.patch ∨ a.patch = b.patch ∧
        prereleaseKey a.prerelease < prereleaseKey b.prerelease)) := by
  simp only [SemVer.precedence, Prod.Lex.toLex_lt_toLex]

theorem comparesAs_of_sign {a b : SemVer}
    (hLt : semverCompare (some a) (some b) < 0 ↔ a.precedence < b.precedence)
    (hGt : 0 < semverCompare (some a) (some b) ↔ b.precedence < a.precedence) :
    ComparesAs a b where
  lt := hLt
  gt := hGt
  eq := by
    rw [← not_iff_not, ← ne_eq, ← ne_eq, ne_iff_lt_or_gt, ne_iff_lt_or_gt, hLt]
    exact or_congr_right hGt

theorem comparesAs_iff {a b : SemVer} :
    ComparesAs a b ↔ (semverCompare (some a) (some b) < 0 ↔ a.precedence < b.precedence) ∧
      (0 < semverCompare (some a) (some b) ↔ b.precedence < a.precedence) :=
  ⟨fun h => ⟨h.lt, h.gt⟩, fun h => comparesAs_of_sign h.1 h.2⟩

theorem prereleaseKey_lt_iff :
    prereleaseKey (some p) < prereleaseKey (some q) ↔ identifiers p < identifiers q :=
  WithTop.coe_lt_coe

theorem strcmp_sign_iff :
    ((strcmp p q < 0 ↔ identifiers p < identifiers q) ∧
      (0 < strcmp p q ↔ identifiers q < identifiers p)) ↔
      BytesDecide (p.splitOn '.') (q.splitOn '.') := by
  rw [strcmp_lt, strcmp_gt, ← sameOrder_iff (fun x hx => dot_not_mem_splitOn hx)
    (fun y hy => dot_not_mem_splitOn hy) (splitOn_ne_nil p) (splitOn_ne_nil q), SameOrder,
    intercalate_splitOn, intercalate_splitOn]
  rfl

theorem comparesAs_iff_decided {a b : SemVer} (ha : a.Fits) (hb : b.Fits) :
    ComparesAs a b ↔ Decided a b := by
  rw [comparesAs_iff, precedence_lt_iff, precedence_lt_iff, semverCompare, Decided]
  by_cases hMajor : a.major = b.major
  · by_cases hMinor : a.minor = b.minor
    · by_cases hPatch : a.patch = b.patch
      · simp only [hMajor, hMinor, hPatch, ne_eq, not_true_eq_false, if_false, lt_irrefl, true_and,
          false_or]
        cases hp : a.prerelease with
        | none =>
          cases hq : b.prerelease with
          | none => simp
          | some q => simp [prereleaseKey]
        | some p =>
          cases hq : b.prerelease with
          | none => simp [prereleaseKey]
          | some q =>
            simp only [prereleaseKey_lt_iff, strcmp_sign_iff]
            simp
      · have hSign := intDifference_sign_iff ha.patch hb.patch
        simp only [hMajor, hMinor, hPatch, Ne.symm hPatch, ne_eq, not_true_eq_false,
          not_false_eq_true, if_true, if_false, lt_irrefl, true_and, false_or, false_and, or_false]
        exact hSign
    · have hSign := intDifference_sign_iff ha.minor hb.minor
      simp only [hMajor, hMinor, Ne.symm hMinor, ne_eq, not_true_eq_false, not_false_eq_true,
        if_true, if_false, lt_irrefl, true_and, false_or, false_and, or_false]
      exact hSign
  · have hSign := intDifference_sign_iff ha.major hb.major
    simp only [hMajor, Ne.symm hMajor, ne_eq, not_false_eq_true, if_true, false_and, or_false]
    exact hSign

/-- What the loop knows of the versions it has seen. -/
def BestOf (versions seen : List SemVer) (constraint : CString) : Option Nat → Prop
  | none => ∀ v ∈ seen, semverSatisfies (some v) (some constraint) = some false
  | some n => ∃ best ∈ versions[n]?,
    semverSatisfies (some best) (some constraint) = some true ∧
      ∀ v ∈ seen, semverSatisfies (some v) (some constraint) = some true →
        v.precedence ≤ best.precedence

section

variable {versions seen rest : List SemVer} {constraint : CString} {best result : Option Nat}
  {v : SemVer}

theorem bestOf_new (hPlace : versions[seen.length]? = some v)
    (hSatisfied : semverSatisfies (some v) (some constraint) = some true)
    (hAbove : ∀ u ∈ seen, semverSatisfies (some u) (some constraint) = some true →
      u.precedence ≤ v.precedence) :
    BestOf versions (seen ++ [v]) constraint (some seen.length) := by
  refine ⟨v, hPlace, hSatisfied, fun u hu hSat => ?_⟩
  rcases mem_append.mp hu with hOld | hNew
  · exact hAbove u hOld hSat
  · rw [mem_singleton.mp hNew]

/-- The best version stays, the one looked at being no better. -/
theorem bestOf_keep (hBest : BestOf versions seen constraint best)
    (hv : semverSatisfies (some v) (some constraint) = some false ∨
      ∃ n, best = some n ∧ ∀ b ∈ versions[n]?, v.precedence ≤ b.precedence) :
    BestOf versions (seen ++ [v]) constraint best := by
  cases best with
  | none =>
    intro u hu
    rcases mem_append.mp hu with hOld | hNew
    · exact hBest u hOld
    · rcases hv with hFalse | ⟨n, hNone, -⟩
      · rw [mem_singleton.mp hNew, hFalse]
      · cases hNone
  | some n =>
    obtain ⟨b, hb, hTrue, hGreatest⟩ := hBest
    refine ⟨b, hb, hTrue, fun u hu hSat => ?_⟩
    rcases mem_append.mp hu with hOld | hNew
    · exact hGreatest u hOld hSat
    · rw [mem_singleton.mp hNew] at hSat ⊢
      rcases hv with hFalse | ⟨m, hSome, hLe⟩
      · cases hFalse.symm.trans hSat
      · cases hSome
        exact hLe b hb

theorem bestOf_maxSatisfyingLoop
    (hCompares : ∀ a ∈ versions, ∀ b ∈ versions, ComparesAs a b)
    (hSplit : versions = seen ++ rest) (hBest : BestOf versions seen constraint best)
    (h : maxSatisfyingLoop versions constraint (rest.zipIdx seen.length) best = some result) :
    BestOf versions versions constraint result := by
  induction rest generalizing seen best with
  | nil =>
    cases h
    rw [append_nil] at hSplit
    rwa [← hSplit] at hBest
  | cons v rest ih =>
    have hPlace : versions[seen.length]? = some v := by simp [hSplit]
    have hNext : versions = (seen ++ [v]) ++ rest := by simp [hSplit]
    have hLength : seen.length + 1 = (seen ++ [v]).length := by simp
    obtain ⟨satisfied, hSatisfied, h⟩ := Option.bind_eq_some_iff.mp h
    rw [hLength] at h
    cases satisfied with
    | false => exact ih hNext (bestOf_keep hBest (.inl hSatisfied)) h
    | true =>
      cases best with
      | none =>
        refine ih hNext (bestOf_new hPlace hSatisfied fun u hu hSat => ?_) h
        cases (hBest u hu).symm.trans hSat
      | some n =>
        obtain ⟨b, hb, hTrue, hGreatest⟩ := id hBest
        have hSign := hCompares v (mem_of_getElem? hPlace) b (mem_of_getElem? hb)
        rw [if_pos rfl] at h
        have hFound : versions[n]? = some b := hb
        simp only [hFound] at h
        by_cases hBetter : 0 < semverCompare (some v) (some b)
        · rw [if_pos hBetter] at h
          refine ih hNext (bestOf_new hPlace hSatisfied fun u hu hSat => ?_) h
          exact (hGreatest u hu hSat).trans (hSign.gt.mp hBetter).le
        · rw [if_neg hBetter] at h
          refine ih hNext (bestOf_keep hBest (.inr ⟨n, rfl, fun c hc => ?_⟩)) h
          obtain rfl : b = c := Option.some.inj (hb.symm.trans hc)
          exact not_lt.mp (mt hSign.gt.mpr hBetter)

end

/-- Where the comparison is the precedence it is a total preorder, and the best version
is a greatest one. -/
theorem isPrecedence_of_comparesAs {versions : List SemVer}
    (h : ∀ a ∈ versions, ∀ b ∈ versions, ComparesAs a b) : IsPrecedence versions where
  compares := h
  antisymm a ha b hb := (h a ha b hb).lt.trans (h b hb a ha).gt.symm
  trans a ha b hb c hc hab hbc := by
    have hLe : ∀ {u v : SemVer}, ComparesAs u v →
        (semverCompare (some u) (some v) ≤ 0 ↔ u.precedence ≤ v.precedence) := fun hSign => by
      rw [← not_lt, ← not_lt, hSign.gt]
    rw [hLe (h _ ha _ hb)] at hab
    rw [hLe (h _ hb _ hc)] at hbc
    exact (hLe (h _ ha _ hc)).mpr (hab.trans hbc)
  greatest constraint idx hMax := by
    obtain ⟨best, hLoop, rfl⟩ := Option.map_eq_some_iff.mp hMax
    have hStart : BestOf versions [] constraint none := nofun
    have hBest := bestOf_maxSatisfyingLoop h rfl hStart hLoop
    cases best with
    | none => exact .inl ⟨rfl, hBest⟩
    | some n => exact .inr ⟨n, rfl, hBest⟩

/-- The comparison of parsed versions is the precedence of semantic versions exactly when,
for each two, the numbers that decide differ by an `int` and the bytes of the prereleases
decide as their identifiers do. -/
theorem isPrecedence_iff_decided {versions : List SemVer}
    (h : ∀ v ∈ versions, ∃ str, semverParse str = some (some v)) :
    IsPrecedence versions ↔ ∀ a ∈ versions, ∀ b ∈ versions, Decided a b := by
  have hFits : ∀ v ∈ versions, v.Fits := fun v hv => by
    obtain ⟨str, hParse⟩ := h v hv
    exact semverParse_fits hParse
  constructor
  · intro hPrecedence a ha b hb
    exact (comparesAs_iff_decided (hFits a ha) (hFits b hb)).mp (hPrecedence.compares a ha b hb)
  · intro hDecided
    apply isPrecedence_of_comparesAs
    intro a ha b hb
    exact (comparesAs_iff_decided (hFits a ha) (hFits b hb)).mpr (hDecided a ha b hb)

def alpha2 : SemVer := ⟨1, 0, 0, some "alpha.2".toList, none⟩

def alpha10 : SemVer := ⟨1, 0, 0, some "alpha.10".toList, none⟩

theorem semverParse_alpha2 : semverParse "1.0.0-alpha.2".toList = some (some alpha2) := by
  decide +kernel

theorem semverParse_alpha10 : semverParse "1.0.0-alpha.10".toList = some (some alpha10) := by
  decide +kernel

def alpha9 : SemVer := ⟨1, 0, 0, some "alpha.9".toList, none⟩

def one : SemVer := ⟨1, 0, 0, none, none⟩

theorem isPrecedence_alphas : IsPrecedence [one, alpha9, alpha2] := by
  refine (isPrecedence_iff_decided ?_).mpr (by decide +kernel)
  simp only [forall_mem_cons, not_mem_nil, false_imp_iff, implies_true, and_true]
  exact ⟨⟨"1.0.0".toList, by decide +kernel⟩, ⟨"1.0.0-alpha.9".toList, by decide +kernel⟩,
    ⟨_, semverParse_alpha2⟩⟩

/-- The tenth prerelease is taken for an older one than the second. -/
theorem not_isPrecedence_pair :
    ¬ ∀ versions : List SemVer,
      (∀ v ∈ versions, ∃ str, semverParse str = some (some v)) →
      IsPrecedence versions := by
  intro hAll
  have hPair := hAll [alpha2, alpha10] (by
    simp only [forall_mem_cons, not_mem_nil, false_imp_iff, implies_true, and_true]
    exact ⟨⟨_, semverParse_alpha2⟩, ⟨_, semverParse_alpha10⟩⟩)
  have hSign := hPair.compares alpha2 mem_cons_self alpha10 (mem_cons_of_mem _ mem_cons_self)
  have hLt : alpha2.precedence < alpha10.precedence := by
    rw [precedence_lt_iff]
    refine .inr ⟨rfl, .inr ⟨rfl, .inr ⟨rfl, prereleaseKey_lt_iff.mpr ?_⟩⟩⟩
    decide +kernel
  have hCompare := hSign.lt.mpr hLt
  revert hCompare
  decide +kernel

end Casprix.Pkg
