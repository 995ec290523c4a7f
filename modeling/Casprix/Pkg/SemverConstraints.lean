import Casprix.Pkg.Semver
import Mathlib.Algebra.Order.Ring.Int

/-! What the constraints on versions mean, and which constraints the package manager matches
by their meaning. -/
namespace Casprix.Pkg

open List

/-- The version of three numbers. -/
def release (major minor patch : Int) : SemVer := ⟨major, minor, patch, none, none⟩

/-- From one version on and before another. -/
def Between (v low high : SemVer) : Prop :=
  0 ≤ semverCompare (some v) (some low) ∧ semverCompare (some v) (some high) < 0

/-- `^1.2.3` means `>= 1.2.3` and `< 2.0.0`, `^0.x.y` allows changes of the patch only, and `^0.0.x`
none. -/
def CaretRange (v base : SemVer) : Prop :=
  if 0 < base.major then Between v base (release (base.major + 1) 0 0)
  else if 0 < base.minor then
    0 ≤ semverCompare (some v) (some base) ∧ v.major = base.major ∧ v.minor = base.minor
  else semverCompare (some v) (some base) = 0

/-- `~1.2.3` means `>= 1.2.3` and `< 1.3.0`. -/
def TildeRange (v base : SemVer) : Prop := Between v base (release base.major (base.minor + 1) 0)

/-- What the parts before the wildcard fix. -/
inductive Wildcard where
  | any
  | major (major : Int)
  | majorMinor (major minor : Int)
  deriving DecidableEq, Repr

def Wildcard.Matches (v : SemVer) : Wildcard → Prop
  | .any => True
  | .major m => v.major = m
  | .majorMinor m n => v.major = m ∧ v.minor = n

def isWildPart (part : CString) : Bool := part = ['x'] || part = ['X']

def isNumberPart (part : CString) : Bool := part ≠ [] && part.all Char.isDigit

/-- The wildcard that the parts between the dots make, where they make one: `x`, `M.x` or
`M.m.x`, whatever the number of digits. -/
def wildcard (constraint : CString) : Option Wildcard :=
  match constraint.splitOn '.' with
  | first :: rest =>
    if isWildPart first then some .any
    else if isNumberPart first then
      match rest with
      | second :: rest =>
        if isWildPart second then some (.major (digitsValue first))
        else if isNumberPart second then
          match rest with
          | third :: _ =>
            if isWildPart third then
              some (.majorMinor (digitsValue first) (digitsValue second))
            else none
          | [] => none
        else none
      | [] => none
    else none
  | [] => none

/-- The version and what the text parses to are so related. Text that is not parsed to a
version matches nothing. -/
def Against (text : CString) (related : SemVer → Prop) : Prop :=
  ∃ base, semverParse text = some (some base) ∧ related base

def Operator.Range (v base : SemVer) : Operator → Prop
  | .caret => CaretRange v base
  | .tilde => TildeRange v base
  | .ge => 0 ≤ semverCompare (some v) (some base)
  | .gt => 0 < semverCompare (some v) (some base)
  | .le => semverCompare (some v) (some base) ≤ 0
  | .lt => semverCompare (some v) (some base) < 0

/-- The versions that a constraint without leading white space stands for. -/
def Means (v : SemVer) (constraint : CString) : Prop :=
  match operator constraint with
  | some (op, rest) => Against rest fun base => op.Range v base
  | none =>
    constraint = ['*'] ∨
      match wildcard constraint with
      | some parts => parts.Matches v
      | none => Against constraint fun base => semverCompare (some v) (some base) = 0

/-- Whether a version satisfies a constraint is answered, by the constraint's meaning. -/
def MatchesMeaning (v : SemVer) (constraint : CString) : Prop :=
  ∃ answer, semverSatisfies (some v) (some constraint) = some answer ∧
    (answer = true ↔ Means v (constraint.dropWhile isSpace))

/-- The first `x` stands where it is taken for the part that the wildcard is, and the parser
reads the parts before it as they stand. -/
def WildcardRead (constraint : CString) : Wildcard → Prop
  | .any => wildcardOffset constraint < 2 ∧ semverParse (wildcardBuffer constraint) ≠ none
  | .major major => 2 ≤ wildcardOffset constraint ∧ wildcardOffset constraint < 4 ∧
      Against (wildcardBuffer constraint) fun base => base.major = major
  | .majorMinor major minor => 4 ≤ wildcardOffset constraint ∧
      Against (wildcardBuffer constraint) fun base => base.major = major ∧ base.minor = minor

/-- The largest number of type `int`. -/
def intMax : Int := 0x7FFFFFFF

/-- The text after an operator parses to a version; a strict order may also be asked of
text without a number. A range that ends before the next major or minor version has the
prereleases of that version in it, which the code refuses, unless there is no such version. -/
def Operator.Reads (rest : CString) : Operator → Prop
  | .caret => Against rest fun base =>
      (0 < base.major → base.major = intMax) ∧ ¬ (base.major < 0 ∧ 0 < base.minor)
  | .tilde => Against rest fun base => base.minor = intMax
  | .ge | .le => Against rest fun _ => True
  | .gt | .lt => semverParse rest ≠ none

/-- Where there is no operator a constraint with an `x` is a wildcard that is read, and one
without parses to a version. -/
def Sound (constraint : CString) : Prop :=
  match operator constraint with
  | some (op, rest) => op.Reads rest
  | none =>
    constraint = ['*'] ∨
      if constraint.any isWildLetter then
        ∃ parts, wildcard constraint = some parts ∧ WildcardRead constraint parts
      else Against constraint fun _ => True

variable (v : SemVer) {base : SemVer} {constraint : CString} {parts : Wildcard}

theorem semverCompare_self : semverCompare (some v) (some v) = 0 := by
  simp only [semverCompare, ne_eq, not_true_eq_false, if_false]
  cases v.prerelease with
  | none => rfl
  | some p => exact strcmp_eq.mpr rfl

theorem eq_of_intDifference_eq_zero {m n : Int} (hm : -0x80000000 ≤ m ∧ m ≤ 0x7FFFFFFF)
    (hn : -0x80000000 ≤ n ∧ n ≤ 0x7FFFFFFF) (h : intDifference m n = 0) : m = n := by
  rw [intDifference, Int.bmod_def] at h
  split at h <;> omega

theorem numbers_eq_of_semverCompare {v : SemVer} (hv : v.Fits) (hb : base.Fits)
    (h : semverCompare (some v) (some base) = 0) :
    v.major = base.major ∧ v.minor = base.minor ∧ v.patch = base.patch := by
  simp only [semverCompare] at h
  split at h
  case isTrue hNe => exact absurd (eq_of_intDifference_eq_zero hv.major hb.major h) hNe
  case isFalse hMajor =>
    split at h
    case isTrue hNe => exact absurd (eq_of_intDifference_eq_zero hv.minor hb.minor h) hNe
    case isFalse hMinor =>
      split at h
      case isTrue hNe => exact absurd (eq_of_intDifference_eq_zero hv.patch hb.patch h) hNe
      case isFalse hPatch => exact ⟨not_not.mp hMajor, not_not.mp hMinor, not_not.mp hPatch⟩

theorem against_iff {text : CString} {related : SemVer → Prop}
    (h : semverParse text = some (some base)) : Against text related ↔ related base := by
  constructor
  · rintro ⟨other, hParse, hRelated⟩
    cases h.symm.trans hParse
    exact hRelated
  · intro hRelated
    exact ⟨base, h, hRelated⟩

theorem not_against {text : CString} {related : SemVer → Prop}
    (h : ∀ base, semverParse text ≠ some (some base)) : ¬ Against text related := by
  rintro ⟨base, hParse, -⟩
  exact h base hParse

/-- A version that is there for every text. -/
def zeroVersion : SemVer := ⟨0, 0, 0, none, none⟩

theorem zeroVersion_fits : zeroVersion.Fits := ⟨by decide, by decide, by decide⟩

/-- The answer is there and says whether the property holds. -/
def Answers (answer : Option Bool) (p : Prop) : Prop := ∃ b, answer = some b ∧ (b = true ↔ p)

theorem answers_some {b : Bool} {p : Prop} : Answers (some b) p ↔ (b = true ↔ p) := by
  constructor
  · rintro ⟨c, hSame, hIff⟩
    cases hSame
    exact hIff
  · intro hIff
    exact ⟨b, rfl, hIff⟩

theorem not_answers_none {p : Prop} : ¬ Answers none p := by
  rintro ⟨b, hNone, -⟩
  cases hNone

/-- The first prerelease of a version. -/
def prerelease (major minor : Int) : SemVer := ⟨major, minor, 0, some ['a'], none⟩

attribute [local simp] prerelease

/-- A prerelease of the next major version is before that version. -/
theorem between_nextMajor :
    Between (prerelease (base.major + 1) 0) base (release (base.major + 1) 0 0) := by
  have hOne : intDifference (base.major + 1) base.major = 1 := by
    rw [intDifference, add_sub_cancel_left]
    decide
  constructor
  · simp [semverCompare, hOne]
  · simp [semverCompare, release]

theorem between_nextMinor :
    Between (prerelease base.major (base.minor + 1)) base
      (release base.major (base.minor + 1) 0) := by
  have hOne : intDifference (base.minor + 1) base.minor = 1 := by
    rw [intDifference, add_sub_cancel_left]
    decide
  constructor
  · simp [semverCompare, hOne]
  · simp [semverCompare, release]

/-- Behind the last number of type `int` the difference tells the end of a range. -/
theorem difference_intMax {n : Int} (h : -0x80000000 ≤ n ∧ n ≤ 0x7FFFFFFF) :
    (0 ≤ intDifference n intMax ∧ intDifference n (intMax + 1) < 0) ↔ n = intMax := by
  unfold intDifference intMax
  rw [Int.bmod_def, Int.bmod_def]
  constructor
  · rintro ⟨hLow, hHigh⟩
    split at hLow <;> split at hHigh <;> omega
  · rintro rfl
    decide

theorem between_lastMajor {v : SemVer} (hv : v.Fits) (hLast : base.major = intMax) :
    Between v base (release (base.major + 1) 0 0) ↔
      0 ≤ semverCompare (some v) (some base) ∧ v.major = base.major := by
  have hFits := hv.major
  have hHigh : semverCompare (some v) (some (release (base.major + 1) 0 0)) =
      intDifference v.major (intMax + 1) := by
    rw [← hLast]
    refine if_pos fun hSame => ?_
    change v.major = base.major + 1 at hSame
    rw [hLast, intMax] at hSame
    omega
  rw [Between, hHigh]
  refine and_congr_right fun hLow => ?_
  rw [hLast, ← difference_intMax hFits]
  constructor
  · intro hBelow
    refine ⟨?_, hBelow⟩
    by_cases hSame : v.major = intMax
    · rw [hSame, intDifference, sub_self]
      decide
    · have hOther : v.major ≠ base.major := by rwa [hLast]
      rwa [semverCompare, if_pos hOther, hLast] at hLow
  · exact And.right

theorem between_lastMinor {v : SemVer} (hv : v.Fits) (hLast : base.minor = intMax) :
    Between v base (release base.major (base.minor + 1) 0) ↔
      0 ≤ semverCompare (some v) (some base) ∧ v.major = base.major ∧
        v.minor = base.minor := by
  have hFits := hv.minor
  unfold Between
  refine and_congr_right fun hLow => ?_
  by_cases hMajor : v.major = base.major
  · have hNext : v.minor ≠ intMax + 1 := by
      rw [intMax]
      omega
    have hHigh : semverCompare (some v) (some (release base.major (base.minor + 1) 0)) =
        intDifference v.minor (intMax + 1) := by
      simp only [semverCompare, release, hMajor, hLast, ne_eq, not_true_eq_false, if_false, hNext,
        not_false_eq_true, if_true]
    rw [hHigh, hLast, ← difference_intMax hFits]
    constructor
    · intro hBelow
      refine ⟨hMajor, ?_, hBelow⟩
      by_cases hSame : v.minor = intMax
      · rw [hSame, intDifference, sub_self]
        decide
      · have hOther : v.minor ≠ intMax := hSame
        simpa only [semverCompare, hMajor, ne_eq, not_true_eq_false, if_false, hLast, hOther,
          not_false_eq_true, if_true] using hLow
    · exact fun h => h.2.2
  · simp only [semverCompare, release, hMajor, ne_eq, not_false_eq_true, if_true] at hLow ⊢
    simp only [false_and, iff_false, not_lt]
    exact hLow

theorem answers_satisfiesCaret {v : SemVer} (hv : v.Fits) (hb : base.Fits)
    (hLast : 0 < base.major → base.major = intMax) (h : ¬ (base.major < 0 ∧ 0 < base.minor)) :
    Answers (satisfiesCaret v (some base)) (CaretRange v base) := by
  rw [satisfiesCaret, answers_some, CaretRange]
  by_cases hStable : 0 < base.major
  · rw [if_pos hStable, if_pos hStable, between_lastMajor hv (hLast hStable)]
    by_cases hMajor : v.major = base.major
    · simp [hMajor]
    · simp [hMajor]
  · rw [if_neg hStable, if_neg hStable]
    by_cases hMajor : v.major = base.major
    · rw [if_neg (not_not.mpr hMajor)]
      by_cases hMinor : 0 < base.minor
      · have hZero : base.major = 0 := by omega
        simp [hMinor, hMajor, hZero]
      · simp [hMinor, semverEquals]
    · rw [if_pos hMajor]
      have hNumbers := numbers_eq_of_semverCompare hv hb
      split
      · simp [hMajor]
      · simp only [Bool.false_eq_true, false_iff]
        exact fun hEq => hMajor (hNumbers hEq).1

theorem answers_satisfiesTilde {v : SemVer} (hv : v.Fits) (hLast : base.minor = intMax) :
    Answers (satisfiesTilde v (some base)) (TildeRange v base) := by
  rw [satisfiesTilde, answers_some, TildeRange, between_lastMinor hv hLast]
  by_cases hMajor : v.major = base.major
  · by_cases hMinor : v.minor = base.minor
    · simp [hMajor, hMinor]
    · simp [hMajor, hMinor]
  · simp [hMajor]

theorem prerelease_fits {major minor : Int}
    (hMajor : -0x80000000 ≤ major ∧ major ≤ 0x7FFFFFFF)
    (hMinor : -0x80000000 ≤ minor ∧ minor ≤ 0x7FFFFFFF) : (prerelease major minor).Fits :=
  ⟨hMajor, hMinor, show -0x80000000 ≤ (0 : Int) ∧ (0 : Int) ≤ 0x7FFFFFFF by decide⟩

/-- An operator answers by its range for every version where its text is read. -/
theorem answers_operator_iff (op : Operator) (rest : CString) :
    (∀ v : SemVer, v.Fits → Answers ((semverParse rest).bind fun base => op.satisfies v base)
      (Against rest fun base => op.Range v base)) ↔ op.Reads rest := by
  cases hParse : semverParse rest with
  | none =>
    have hNot : ¬ op.Reads rest := by
      cases op <;> simp [Operator.Reads, not_against, hParse]
    exact ⟨fun h => absurd (h _ zeroVersion_fits) not_answers_none, fun h => absurd h hNot⟩
  | some parsed =>
    cases parsed with
    | none =>
      have hNone : ∀ {related : SemVer → Prop}, ¬ Against rest related :=
        not_against (by simp [hParse])
      have hZero := fun v : SemVer => show semverCompare (some v) none = 0 from rfl
      cases op with
      | caret | tilde =>
        exact ⟨fun h => absurd (h _ zeroVersion_fits) not_answers_none, fun h => absurd h hNone⟩
      | ge | le =>
        refine ⟨fun h => ?_, fun h => absurd h hNone⟩
        have hAnswer := answers_some.mp (h _ zeroVersion_fits)
        exact absurd (hAnswer.mp (by simp [hZero])) hNone
      | gt | lt =>
        refine ⟨fun _ => by simp [Operator.Reads, hParse], fun _ v _ => ?_⟩
        rw [Option.bind_some, Operator.satisfies, answers_some]
        simp [hZero, hNone]
    | some base =>
      have hb := semverParse_fits hParse
      simp only [Option.bind_some, against_iff hParse]
      cases op with
      | caret =>
        simp only [Operator.Reads, against_iff hParse]
        refine ⟨fun h => ⟨fun hStable => ?_, fun hNegative => ?_⟩,
          fun h v hv => answers_satisfiesCaret hv hb h.1 h.2⟩
        · by_contra hMore
          have hMajor := hb.major
          rw [intMax] at hMore
          have hFits : (prerelease (base.major + 1) 0).Fits :=
            prerelease_fits (by omega) (by decide)
          have hNext := h _ hFits
          have hRefused : satisfiesCaret (prerelease (base.major + 1) 0)
              (some base) = some false := by
            simp [satisfiesCaret]
          rw [Operator.satisfies, hRefused, answers_some, Operator.Range, CaretRange,
            if_pos hStable] at hNext
          exact Bool.false_ne_true (hNext.mpr between_nextMajor)
        have hSelf := h base hb
        simp only [Operator.satisfies, satisfiesCaret, answers_some, Operator.Range,
          CaretRange, semverCompare_self] at hSelf
        have hNotPos : ¬ 0 < base.major := by omega
        have hNotZero : base.major ≠ 0 := by omega
        simp [hNotPos, hNegative.2, hNotZero] at hSelf
      | tilde =>
        simp only [Operator.Reads, against_iff hParse]
        refine ⟨fun h => ?_, fun hLast v hv => answers_satisfiesTilde hv hLast⟩
        by_contra hMore
        have hMinor := hb.minor
        rw [intMax] at hMore
        have hFits : (prerelease base.major (base.minor + 1)).Fits :=
          prerelease_fits hb.major (by omega)
        have hNext := h _ hFits
        have hRefused : satisfiesTilde (prerelease base.major (base.minor + 1))
            (some base) = some false := by
          simp [satisfiesTilde]
        rw [Operator.satisfies, hRefused, answers_some] at hNext
        exact Bool.false_ne_true (hNext.mpr between_nextMinor)
      | ge | le =>
        simp only [Operator.Reads, against_iff hParse, Operator.satisfies, Operator.Range,
          answers_some, decide_eq_true_eq, implies_true]
      | gt | lt =>
        simp only [Operator.Reads, hParse, Operator.satisfies, Operator.Range,
          answers_some, decide_eq_true_eq, implies_true, ne_eq, reduceCtorEq,
          not_false_eq_true]

instance (v : SemVer) (parts : Wildcard) : Decidable (parts.Matches v) := by
  cases parts <;> unfold Wildcard.Matches <;> infer_instance

/-- The parts that the offset of the first `x` selects. -/
def selection (constraint : CString) : Option Wildcard := do
  let base ← semverParse (wildcardBuffer constraint)
  if wildcardOffset constraint < 2 then some .any
  else
    let base ← base
    if wildcardOffset constraint < 4 then some (.major base.major)
    else some (.majorMinor base.major base.minor)

theorem satisfiesWildcard_eq (constraint : CString) :
    satisfiesWildcard v constraint =
      (selection constraint).map fun parts => decide (parts.Matches v) := by
  unfold satisfiesWildcard selection
  cases semverParse (wildcardBuffer constraint) with
  | none => rfl
  | some base =>
    simp only [Option.bind_eq_bind, Option.bind_some]
    split
    · exact congrArg some (decide_eq_true (p := Wildcard.any.Matches v) trivial).symm
    · cases base with
      | none => rfl
      | some base =>
        simp only [Option.bind_some]
        split
        · exact congrArg some (decide_eq_decide.mpr Iff.rfl)
        · rw [Option.map_some, ← Bool.decide_and]
          exact congrArg some (decide_eq_decide.mpr Iff.rfl)

attribute [local simp] WildcardRead

theorem selection_eq_some_iff :
    selection constraint = some parts ↔ WildcardRead constraint parts := by
  unfold selection
  cases hParse : semverParse (wildcardBuffer constraint) with
  | none => cases parts <;> simp [hParse, not_against]
  | some base =>
    simp only [Option.bind_eq_bind, Option.bind_some]
    by_cases hAny : wildcardOffset constraint < 2
    · rw [if_pos hAny]
      cases parts with
      | any => simp [hAny, hParse]
      | major m => simp [not_le.mpr hAny]
      | majorMinor m n =>
        have hLow : ¬ 4 ≤ wildcardOffset constraint := by omega
        simp [hLow]
    · rw [if_neg hAny]
      cases base with
      | none => cases parts <;> simp [hAny, hParse, not_against]
      | some base =>
        by_cases hMajor : wildcardOffset constraint < 4
        · cases parts <;>
            simp [hAny, hMajor, not_le.mpr hMajor, not_lt.mp hAny, against_iff hParse]
        · cases parts <;> simp [hAny, hMajor, not_lt.mp hMajor, against_iff hParse]

/-- The numbers of the parts are of type `int`. -/
def Wildcard.Fits : Wildcard → Prop
  | .any => True
  | .major m => -0x80000000 ≤ m ∧ m ≤ 0x7FFFFFFF
  | .majorMinor m n => (-0x80000000 ≤ m ∧ m ≤ 0x7FFFFFFF) ∧
    -0x80000000 ≤ n ∧ n ≤ 0x7FFFFFFF

theorem selection_fits (h : selection constraint = some parts) : parts.Fits := by
  rw [selection_eq_some_iff] at h
  cases parts with
  | any => trivial
  | major m =>
    obtain ⟨-, -, base, hParse, rfl⟩ := h
    exact (semverParse_fits hParse).major
  | majorMinor m n =>
    obtain ⟨-, base, hParse, rfl, rfl⟩ := h
    exact ⟨(semverParse_fits hParse).major, (semverParse_fits hParse).minor⟩

theorem Wildcard.eq_of_matches {other : Wildcard} (h : parts.Fits)
    (hSame : ∀ major minor : Int, (release major minor 0).Fits →
      (parts.Matches (release major minor 0) ↔ other.Matches (release major minor 0))) :
    parts = other := by
  have hZero : (-0x80000000 : Int) ≤ 0 ∧ (0 : Int) ≤ 0x7FFFFFFF := by decide
  have hOne : (-0x80000000 : Int) ≤ 1 ∧ (1 : Int) ≤ 0x7FFFFFFF := by decide
  cases parts with
  | any =>
    cases other with
    | any => rfl
    | major m =>
      have h0 : 0 = m := (hSame 0 0 ⟨hZero, hZero, hZero⟩).mp trivial
      have h1 : 1 = m := (hSame 1 0 ⟨hOne, hZero, hZero⟩).mp trivial
      omega
    | majorMinor m n =>
      have h0 : 0 = m ∧ 0 = n := (hSame 0 0 ⟨hZero, hZero, hZero⟩).mp trivial
      have h1 : 1 = m ∧ 0 = n := (hSame 1 0 ⟨hOne, hZero, hZero⟩).mp trivial
      omega
  | major k =>
    cases other with
    | any =>
      have h0 : 0 = k := (hSame 0 0 ⟨hZero, hZero, hZero⟩).mpr trivial
      have h1 : 1 = k := (hSame 1 0 ⟨hOne, hZero, hZero⟩).mpr trivial
      omega
    | major m =>
      have hk : k = m := (hSame k 0 ⟨h, hZero, hZero⟩).mp rfl
      rw [hk]
    | majorMinor m n =>
      have h0 : k = m ∧ 0 = n := (hSame k 0 ⟨h, hZero, hZero⟩).mp rfl
      have h1 : k = m ∧ 1 = n := (hSame k 1 ⟨h, hOne, hZero⟩).mp rfl
      omega
  | majorMinor k l =>
    cases other with
    | any =>
      have h0 : 0 = k ∧ 0 = l := (hSame 0 0 ⟨hZero, hZero, hZero⟩).mpr trivial
      have h1 : 1 = k ∧ 0 = l := (hSame 1 0 ⟨hOne, hZero, hZero⟩).mpr trivial
      omega
    | major m =>
      have hk : k = m := (hSame k l ⟨h.1, h.2, hZero⟩).mp ⟨rfl, rfl⟩
      have h0 : k = k ∧ 0 = l := (hSame k 0 ⟨h.1, hZero, hZero⟩).mpr hk
      have h1 : k = k ∧ 1 = l := (hSame k 1 ⟨h.1, hOne, hZero⟩).mpr hk
      omega
    | majorMinor m n =>
      have hkl : k = m ∧ l = n := (hSame k l ⟨h.1, h.2, hZero⟩).mp ⟨rfl, rfl⟩
      rw [hkl.1, hkl.2]

theorem Wildcard.exists_release (h : parts.Fits) :
    ∃ major minor : Int, ∀ patch, -0x80000000 ≤ patch ∧ patch ≤ 0x7FFFFFFF →
      (release major minor patch).Fits ∧ parts.Matches (release major minor patch) := by
  have hZero : (-0x80000000 : Int) ≤ 0 ∧ (0 : Int) ≤ 0x7FFFFFFF := by decide
  cases parts with
  | any => exact ⟨0, 0, fun patch hPatch => ⟨⟨hZero, hZero, hPatch⟩, trivial⟩⟩
  | major m => exact ⟨m, 0, fun patch hPatch => ⟨⟨h, hZero, hPatch⟩, rfl⟩⟩
  | majorMinor m n => exact ⟨m, n, fun patch hPatch => ⟨⟨h.1, h.2, hPatch⟩, rfl, rfl⟩⟩

/-- The meaning of a constraint without an operator. -/
def MeansParts (v : SemVer) (constraint : CString) : Prop :=
  match wildcard constraint with
  | some parts => parts.Matches v
  | none => Against constraint fun base => semverCompare (some v) (some base) = 0

/-- Selected parts mean what the constraint means only where it is the wildcard of these
parts: an exact version does not match another patch. -/
theorem matches_iff_meansParts (h : parts.Fits) :
    (∀ v : SemVer, v.Fits → (parts.Matches v ↔ MeansParts v constraint)) ↔
      wildcard constraint = some parts := by
  unfold MeansParts
  cases hWildcard : wildcard constraint with
  | none =>
    simp only [reduceCtorEq, iff_false]
    intro hSame
    obtain ⟨major, minor, hRelease⟩ := Wildcard.exists_release h
    have hPatch : ∀ patch, -0x80000000 ≤ patch ∧ patch ≤ 0x7FFFFFFF →
        ∃ base, semverParse constraint = some (some base) ∧ patch = base.patch := by
      intro patch hFits
      obtain ⟨hv, hMatches⟩ := hRelease patch hFits
      obtain ⟨base, hParse, hEqual⟩ := (hSame _ hv).mp hMatches
      exact ⟨base, hParse, (numbers_eq_of_semverCompare hv
        (semverParse_fits hParse) hEqual).2.2⟩
    obtain ⟨base, hParse, hFirst⟩ := hPatch 0 (by decide)
    obtain ⟨other, hOther, hSecond⟩ := hPatch 1 (by decide)
    cases hParse.symm.trans hOther
    exact absurd (hFirst.trans hSecond.symm) (by decide)
  | some other =>
    rw [Option.some.injEq]
    constructor
    · intro hSame
      exact (Wildcard.eq_of_matches h fun major minor hv => hSame _ hv).symm
    · rintro rfl v -
      exact Iff.rfl

theorem answers_wildcard_iff (constraint : CString) :
    (∀ v : SemVer, v.Fits → Answers (satisfiesWildcard v constraint)
      (MeansParts v constraint)) ↔
      ∃ parts, wildcard constraint = some parts ∧ WildcardRead constraint parts := by
  simp only [satisfiesWildcard_eq, ← selection_eq_some_iff]
  cases hSelection : selection constraint with
  | none =>
    simp only [Option.map_none, reduceCtorEq, and_false, exists_false, iff_false]
    exact fun h => not_answers_none (h _ zeroVersion_fits)
  | some parts =>
    simp only [Option.map_some, answers_some, decide_eq_true_eq, Option.some.injEq,
      exists_eq_right']
    exact matches_iff_meansParts (selection_fits hSelection)

theorem answers_exact_iff (hWildcard : wildcard constraint = none) :
    (∀ v : SemVer, v.Fits → Answers ((semverParse constraint).bind fun base =>
      some (semverEquals (some v) base)) (MeansParts v constraint)) ↔
      Against constraint fun _ => True := by
  unfold MeansParts
  rw [hWildcard]
  cases hParse : semverParse constraint with
  | none =>
    refine ⟨fun h => absurd (h _ zeroVersion_fits) not_answers_none, fun h => ?_⟩
    exact absurd h (not_against (by simp [hParse]))
  | some parsed =>
    cases parsed with
    | none =>
      have hNone : ∀ {related : SemVer → Prop}, ¬ Against constraint related :=
        not_against (by simp [hParse])
      refine ⟨fun h => ?_, fun h => absurd h hNone⟩
      exact absurd ((answers_some.mp (h _ zeroVersion_fits)).mp rfl) hNone
    | some base =>
      simp only [Option.bind_some, against_iff hParse, answers_some, semverEquals,
        decide_eq_true_eq, implies_true]

theorem mem_intercalate_dot {parts : List CString} {part : CString}
    {c : Char} (hPart : part ∈ parts)
    (hc : c ∈ part) : c ∈ ['.'].intercalate parts := by
  induction parts with
  | nil => cases hPart
  | cons x xs ih =>
    rw [intercalate_dot_cons, mem_append]
    rcases mem_cons.mp hPart with rfl | hRest
    · exact Or.inl hc
    · cases xs with
      | nil => cases hRest
      | cons y ys => exact Or.inr (mem_cons_of_mem _ (ih hRest))

theorem mem_of_mem_splitOn {str part : CString} {c : Char} (hPart : part ∈ str.splitOn '.')
    (hc : c ∈ part) : c ∈ str := by
  have hMem := mem_intercalate_dot hPart hc
  rwa [intercalate_splitOn] at hMem

theorem any_isWildLetter_of_wildcard (h : wildcard constraint = some parts) :
    constraint.any isWildLetter = true := by
  have hPart : ∃ part ∈ constraint.splitOn '.', isWildPart part = true := by
    unfold wildcard at h
    generalize constraint.splitOn '.' = split at h
    split at h
    case h_1 first rest =>
      split at h
      case isTrue hFirst => exact ⟨first, mem_cons_self, hFirst⟩
      case isFalse =>
        split at h
        case isTrue =>
          split at h
          case h_1 second rest =>
            split at h
            case isTrue hSecond =>
              exact ⟨second, mem_cons_of_mem _ mem_cons_self, hSecond⟩
            case isFalse =>
              split at h
              case isTrue =>
                split at h
                case h_1 third rest =>
                  split at h
                  case isTrue hThird =>
                    exact ⟨third, mem_cons_of_mem _ (mem_cons_of_mem _ mem_cons_self), hThird⟩
                  case isFalse => cases h
                case h_2 => cases h
              case isFalse => cases h
          case h_2 => cases h
        case isFalse => cases h
    case h_2 => cases h
  obtain ⟨part, hMem, hWild⟩ := hPart
  have hLetter : ∃ c ∈ part, isWildLetter c = true := by
    rw [isWildPart, Bool.or_eq_true, decide_eq_true_eq, decide_eq_true_eq] at hWild
    rcases hWild with rfl | rfl
    · exact ⟨'x', mem_cons_self, rfl⟩
    · exact ⟨'X', mem_cons_self, rfl⟩
  obtain ⟨c, hc, hIs⟩ := hLetter
  rw [any_eq_true]
  exact ⟨c, mem_of_mem_splitOn hMem hc, hIs⟩

theorem semverSatisfies_eq (constraint : CString) :
    semverSatisfies (some v) (some constraint) =
      satisfiesConstraint v (constraint.dropWhile isSpace) := by
  rw [semverSatisfies]
  split
  case isTrue hStar =>
    subst hStar
    rfl
  case isFalse => rfl

/-- A constraint is matched by its meaning for every version exactly where the text of its
base is a version and its wildcard is read. -/
theorem matchesMeaning_iff_sound (constraint : CString) :
    (∀ v : SemVer, v.Fits → MatchesMeaning v constraint) ↔
      Sound (constraint.dropWhile isSpace) := by
  have hAnswers : ∀ v, MatchesMeaning v constraint ↔
      Answers (satisfiesConstraint v (constraint.dropWhile isSpace))
        (Means v (constraint.dropWhile isSpace)) := fun v => by
    rw [MatchesMeaning, semverSatisfies_eq]
    rfl
  simp only [hAnswers]
  generalize constraint.dropWhile isSpace = text
  unfold satisfiesConstraint Means Sound
  cases hOperator : operator text with
  | some found => exact answers_operator_iff found.1 found.2
  | none =>
    by_cases hStar : text = ['*']
    · subst hStar
      simp only [true_or, iff_true]
      exact fun v _ => ⟨true, rfl, by simp⟩
    · simp only [hStar, false_or]
      by_cases hWild : text.any isWildLetter = true
      · rw [if_pos hWild]
        simp only [if_pos hWild]
        exact answers_wildcard_iff text
      · rw [if_neg hWild]
        simp only [if_neg hWild]
        apply answers_exact_iff
        by_contra hSome
        obtain ⟨parts, hParts⟩ := Option.ne_none_iff_exists'.mp hSome
        exact hWild (any_isWildLetter_of_wildcard hParts)

theorem semverSatisfies_missing_base :
    semverSatisfies (some zeroVersion) (some "^latest".toList) = none := by
  decide +kernel

theorem not_matchesMeaning :
    ¬ ∀ (constraint : CString) (v : SemVer), v.Fits → MatchesMeaning v constraint := by
  intro hAll
  obtain ⟨answer, hAnswer, -⟩ := hAll "^latest".toList zeroVersion zeroVersion_fits
  cases semverSatisfies_missing_base.symm.trans hAnswer

end Casprix.Pkg
