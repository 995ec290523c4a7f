import Mathlib.Data.List.Basic

/-! The package registry: semantic versions, version specifications, and the
lookup of a package by name and specification. -/
namespace Casprix.Pkg

/-- The characters before the terminating zero. -/
abbrev CString := List Char

def isSpace (c : Char) : Bool := c = ' ' || ('\t' ≤ c && c ≤ '\r')

def digitsValue (digits : CString) : Nat :=
  digits.foldl (fun n c => 10 * n + (c.toNat - '0'.toNat)) 0

/-- The `int` that `sscanf` stores for a number: `strtol` clamps it to a
`long`, whose low 32 bits are kept. -/
def storeInt (n : Int) : Int :=
  Int.bmod (max (-0x8000000000000000) (min n 0x7FFFFFFFFFFFFFFF)) 0x100000000

/-- The conversion `%d`: the number at the front and what follows it. -/
def scanInt (str : CString) : Option (Int × CString) :=
  let str := str.dropWhile isSpace
  let (negative, str) := match str with
    | '-' :: rest => (true, rest)
    | '+' :: rest => (false, rest)
    | _ => (false, str)
  let digits := str.takeWhile Char.isDigit
  if digits = [] then none
  else
    let n : Int := digitsValue digits
    some (storeInt (if negative then -n else n), str.dropWhile Char.isDigit)

structure PkgVersion where
  major : Int
  minor : Int
  patch : Int
  prerelease : Option CString
  deriving DecidableEq, Repr

/-- The numbers that `"%d.%d.%d"` reads. One that is not read stays zero. -/
def parseNumbers (str : CString) : Int × Int × Int :=
  match scanInt str with
  | some (major, '.' :: rest) =>
    match scanInt rest with
    | some (minor, '.' :: rest) =>
      match scanInt rest with
      | some (patch, _) => (major, minor, patch)
      | none => (major, minor, 0)
    | some (minor, _) => (major, minor, 0)
    | none => (major, 0, 0)
  | some (major, _) => (major, 0, 0)
  | none => (0, 0, 0)

/-- The prerelease follows the first dash, wherever it stands. -/
def parseVersion (str : CString) : PkgVersion :=
  let (major, minor, patch) := parseNumbers str
  { major := major
    minor := minor
    patch := patch
    prerelease := match str.dropWhile (· ≠ '-') with
      | _ :: rest => some rest
      | [] => none }

/-- The sign of `strcmp`. -/
def strcmp : CString → CString → Int
  | [], [] => 0
  | [], _ :: _ => -1
  | _ :: _, [] => 1
  | a :: as, b :: bs => if a = b then strcmp as bs else if a < b then -1 else 1

/-- Minus one, zero or one; a version with a prerelease comes before the same without. -/
def pkgVersionCompare (a b : PkgVersion) : Int :=
  if a.major ≠ b.major then if a.major < b.major then -1 else 1
  else if a.minor ≠ b.minor then if a.minor < b.minor then -1 else 1
  else if a.patch ≠ b.patch then if a.patch < b.patch then -1 else 1
  else
    match a.prerelease, b.prerelease with
    | some _, none => -1
    | none, some _ => 1
    | some p, some q => strcmp p q
    | none, none => 0

/-- A caret keeps the major version, a tilde the minor one too. -/
def pkgVersionSatisfies (version : PkgVersion) (spec : Option CString) : Bool :=
  match spec with
  | none | some [] => true
  | some ('^' :: rest) =>
    let required := parseVersion rest
    version.major = required.major && !(version.minor < required.minor) &&
      !(version.minor = required.minor && version.patch < required.patch)
  | some ('~' :: rest) =>
    let required := parseVersion rest
    version.major = required.major && version.minor = required.minor &&
      !(version.patch < required.patch)
  | some ('>' :: '=' :: rest) => 0 ≤ pkgVersionCompare version (parseVersion rest)
  | some ('<' :: '=' :: rest) => pkgVersionCompare version (parseVersion rest) ≤ 0
  | some spec => pkgVersionCompare version (parseVersion spec) = 0

structure PkgDependency where
  name : CString
  versionSpec : CString
  deriving DecidableEq, Repr

structure PkgInfo where
  name : CString
  version : PkgVersion
  dependencies : List PkgDependency
  deriving DecidableEq, Repr

structure PkgRegistry where
  packages : List PkgInfo
  deriving DecidableEq, Repr

/-- The first package of that name whose version satisfies the specification. -/
def pkgRegistryInfo (reg : PkgRegistry) (name : CString) (version : Option CString) :
    Option PkgInfo :=
  reg.packages.find? fun pkg =>
    pkg.name = name && (version.isNone || pkgVersionSatisfies pkg.version version)

theorem eq_of_strcmp_eq_zero {a b : CString} (h : strcmp a b = 0) : a = b := by
  induction a generalizing b with
  | nil =>
    cases b with
    | nil => rfl
    | cons d b => cases h
  | cons c a ih =>
    cases b with
    | nil => cases h
    | cons d b =>
      rw [strcmp] at h
      by_cases hSame : c = d
      · rw [if_pos hSame] at h
        rw [hSame, ih h]
      · rw [if_neg hSame] at h
        split at h <;> cases h

theorem eq_of_pkgVersionCompare_eq_zero {a b : PkgVersion}
    (h : pkgVersionCompare a b = 0) : a = b := by
  have hUnit : ∀ p : Prop, [Decidable p] → (if p then (-1 : Int) else 1) ≠ 0 := by
    intro p _
    split <;> decide
  rw [pkgVersionCompare] at h
  by_cases hMajor : a.major = b.major
  · by_cases hMinor : a.minor = b.minor
    · by_cases hPatch : a.patch = b.patch
      · rw [if_neg (not_not.mpr hMajor), if_neg (not_not.mpr hMinor),
          if_neg (not_not.mpr hPatch)] at h
        obtain ⟨major, minor, patch, p⟩ := a
        obtain ⟨major', minor', patch', q⟩ := b
        obtain rfl : major = major' := hMajor
        obtain rfl : minor = minor' := hMinor
        obtain rfl : patch = patch' := hPatch
        cases p with
        | none =>
          cases q with
          | none => rfl
          | some q => cases h
        | some p =>
          cases q with
          | none => cases h
          | some q => rw [eq_of_strcmp_eq_zero h]
      · rw [if_neg (not_not.mpr hMajor), if_neg (not_not.mpr hMinor), if_pos hPatch] at h
        exact absurd h (hUnit _)
    · rw [if_neg (not_not.mpr hMajor), if_pos hMinor] at h
      exact absurd h (hUnit _)
  · rw [if_pos hMajor] at h
    exact absurd h (hUnit _)

section

variable {reg : PkgRegistry} {name : CString} {version version' : Option CString}
  {pkg pkg' : PkgInfo}

theorem name_of_pkgRegistryInfo (h : pkgRegistryInfo reg name version = some pkg) :
    pkg.name = name := by
  have hFound := List.find?_some h
  rw [Bool.and_eq_true, decide_eq_true_iff] at hFound
  exact hFound.1

theorem satisfies_of_pkgRegistryInfo (h : pkgRegistryInfo reg name version = some pkg) :
    pkgVersionSatisfies pkg.version version = true := by
  have hFound := List.find?_some h
  rw [Bool.and_eq_true, Bool.or_eq_true] at hFound
  rcases hFound.2 with hNone | hSatisfies
  · rw [Option.isNone_iff_eq_none] at hNone
    rw [hNone, pkgVersionSatisfies]
  · exact hSatisfies

theorem find?_unique {α : Type*} {p q : α → Bool} {a b : α} {list : List α}
    (hp : list.find? p = some a) (hq : list.find? q = some b)
    (hqa : q a = true) (hpb : p b = true) :
    a = b := by
  induction list with
  | nil => cases hp
  | cons x list ih =>
    rw [List.find?_cons] at hp hq
    cases hpx : p x with
    | true =>
      simp only [hpx, Option.some.injEq] at hp
      subst hp
      simp only [hqa, Option.some.injEq] at hq
      exact hq
    | false =>
      cases hqx : q x with
      | true =>
        simp only [hqx, Option.some.injEq] at hq
        subst hq
        cases hpx.symm.trans hpb
      | false =>
        simp only [hpx] at hp
        simp only [hqx] at hq
        exact ih hp hq

theorem pkgRegistryInfo_unique (h : pkgRegistryInfo reg name version = some pkg)
    (h' : pkgRegistryInfo reg name version' = some pkg') (hVersion : pkg.version = pkg'.version) :
    pkg = pkg' := by
  have hName := name_of_pkgRegistryInfo h
  have hName' := name_of_pkgRegistryInfo h'
  have hFound := List.find?_some h
  have hFound' := List.find?_some h'
  refine find?_unique h h' ?_ ?_
  · rw [hVersion, hName]
    rwa [hName'] at hFound'
  · rw [← hVersion, hName']
    rwa [hName] at hFound

end

end Casprix.Pkg
