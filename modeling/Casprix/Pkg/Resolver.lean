import Casprix.Library.MemoWalk
import Casprix.Pkg.Registry

/-! The dependency resolver: a depth-first walk over the registry that
remembers the packages it has resolved by their names. -/
namespace Casprix.Pkg

open List Library

/-- A copy of what the registry offers. -/
structure ResolvedPkg where
  name : CString
  version : PkgVersion
  dependencies : List PkgDependency
  deriving DecidableEq, Repr

def ResolvedPkg.ofInfo (info : PkgInfo) :
    ResolvedPkg := ⟨info.name, info.version, info.dependencies⟩

def isResolved (resolved : List ResolvedPkg) (name : CString) : Bool :=
  resolved.any fun pkg => pkg.name = name

/-- The loop over the dependencies of a package. The first failure ends it. -/
def resolveDependencies (resolve : List ResolvedPkg → CString → Option CString →
    Bool × List ResolvedPkg) :
    List PkgDependency → List ResolvedPkg → Bool × List ResolvedPkg
  | [], resolved => (true, resolved)
  | dep :: deps, resolved =>
    match resolve resolved dep.name (some dep.versionSpec) with
    | (false, resolved) => (false, resolved)
    | (true, resolved) => resolveDependencies resolve deps resolved

/-- `resolve_recursive` with `levels` more than the depth allowed to go: a call
deeper than 100 fails. -/
def resolveRecursive (reg : PkgRegistry) :
    Nat → List ResolvedPkg → CString → Option CString → Bool × List ResolvedPkg
  | 0, resolved, _, _ => (false, resolved)
  | levels + 1, resolved, package, version =>
    if isResolved resolved package then (true, resolved)
    else
      match pkgRegistryInfo reg package version with
      | none => (false, resolved)
      | some info =>
        match resolveDependencies (resolveRecursive reg levels) info.dependencies resolved with
        | (false, resolved) => (false, resolved)
        | (true, resolved) => (true, resolved ++ [ResolvedPkg.ofInfo info])

def maxDepth : Nat := 100

/-- The walk of a fresh resolver. -/
def pkgResolverResolve (reg : PkgRegistry) (package : CString) (version : Option CString) :
    Bool × List ResolvedPkg :=
  resolveRecursive reg (maxDepth + 1) [] package version

/-- No package appears with versions that differ. -/
def pkgResolverCheckConflicts : List ResolvedPkg → Bool
  | [] => true
  | a :: rest =>
    rest.all (fun b => !(a.name = b.name) || pkgVersionCompare a.version b.version = 0) &&
      pkgResolverCheckConflicts rest

/-- A call of `resolve_recursive`: the packages resolved before it, the name
and the specification. -/
abbrev ResolveCall := List ResolvedPkg × CString × Option CString

/-- The calls of the loop over the dependencies. -/
def dependencyCalls (resolve : List ResolvedPkg → CString → Option CString →
    Bool × List ResolvedPkg)
    (calls : List ResolvedPkg → CString → Option CString → List ResolveCall) :
    List PkgDependency → List ResolvedPkg → List ResolveCall
  | [], _ => []
  | dep :: deps, resolved =>
    calls resolved dep.name (some dep.versionSpec) ++
      match resolve resolved dep.name (some dep.versionSpec) with
      | (false, _) => []
      | (true, resolved) => dependencyCalls resolve calls deps resolved

/-- The calls a walk makes, in their order. -/
def resolveCalls (reg : PkgRegistry) :
    Nat → List ResolvedPkg → CString → Option CString → List ResolveCall
  | 0, _, _, _ => []
  | levels + 1, resolved, package, version =>
    (resolved, package, version) ::
      if isResolved resolved package then []
      else
        match pkgRegistryInfo reg package version with
        | none => []
        | some info => dependencyCalls (resolveRecursive reg levels) (resolveCalls reg levels)
            info.dependencies resolved

/-- A package of that name that is already resolved satisfies the specification of the call. -/
def CallAgrees (call : ResolveCall) : Prop :=
  ∀ pkg ∈ call.1, pkg.name = call.2.1 → pkgVersionSatisfies pkg.version call.2.2 = true

instance (call : ResolveCall) : Decidable (CallAgrees call) :=
  inferInstanceAs (Decidable (∀ pkg ∈ call.1, pkg.name = call.2.1 →
    pkgVersionSatisfies pkg.version call.2.2 = true))

/-- The registry as a catalogue. A request is a name with a specification. -/
def registryCatalogue (reg : PkgRegistry) :
    Catalogue (CString × Option CString) ResolvedPkg CString where
  name := Prod.fst
  label := ResolvedPkg.name
  needs := fun pkg => pkg.dependencies.map fun dep => (dep.name, some dep.versionSpec)
  select := fun request => (pkgRegistryInfo reg request.1 request.2).map ResolvedPkg.ofInfo
  label_of_select := by
    intro request pkg hSelect
    obtain ⟨info, hInfo, rfl⟩ := Option.map_eq_some_iff.mp hSelect
    exact name_of_pkgRegistryInfo hInfo

/-- What a resolution is for: the package asked for, and for every package one
that satisfies each of its dependencies and comes before it, each name once. -/
structure Resolution (package : CString) (version : Option CString) (resolved : List ResolvedPkg) :
    Prop where
  root : ∃ pkg ∈ resolved, pkg.name = package ∧ pkgVersionSatisfies pkg.version version = true
  satisfied : ∀ pkg ∈ resolved, ∀ dep ∈ pkg.dependencies, ∃ other ∈ resolved,
    other.name = dep.name ∧ pkgVersionSatisfies other.version (some dep.versionSpec) = true
  once : (resolved.map ResolvedPkg.name).Nodup
  before : ∀ front pkg back, resolved = front ++ pkg :: back → ∀ dep ∈ pkg.dependencies,
    dep.name ∈ front.map ResolvedPkg.name

section

variable {reg : PkgRegistry} {levels : Nat} {resolved resolved' : List ResolvedPkg}
  {package : CString} {version : Option CString} {deps : List PkgDependency}

theorem isResolved_iff : isResolved resolved package = true ↔
    package ∈ resolved.map ResolvedPkg.name := by
  rw [isResolved, any_eq_true, mem_map]
  exact exists_congr fun pkg => and_congr_right fun _ => decide_eq_true_iff

theorem walk_resolveDependencies
    (hStep : ∀ {resolved resolved' : List ResolvedPkg} {package : CString} {version : Option
      CString}, resolveRecursive reg levels resolved package version =
        (true, resolved') → MemoWalk
      (registryCatalogue reg) [(package, version)] resolved (resolveCalls reg levels resolved
      package version) resolved')
    (h : resolveDependencies (resolveRecursive reg levels) deps resolved = (true, resolved')) :
    MemoWalk (registryCatalogue reg) (deps.map fun dep => (dep.name, some dep.versionSpec)) resolved
      (dependencyCalls (resolveRecursive reg levels)
        (resolveCalls reg levels) deps resolved) resolved' := by
  induction deps generalizing resolved with
  | nil =>
    cases h
    exact .nil _
  | cons dep deps ih =>
    rw [resolveDependencies] at h
    cases hCall : resolveRecursive reg levels resolved dep.name (some dep.versionSpec) with
    | mk success next =>
      cases success with
      | false => simp [hCall] at h
      | true =>
        rw [hCall] at h
        rw [dependencyCalls, hCall]
        exact (hStep hCall).append (ih h)

theorem walk_resolveRecursive
    (h : resolveRecursive reg levels resolved package version = (true, resolved')) :
    MemoWalk (registryCatalogue reg) [(package, version)] resolved
      (resolveCalls reg levels resolved package version) resolved' := by
  induction levels generalizing resolved resolved' package version with
  | zero => cases h
  | succ levels ih =>
    rw [resolveRecursive] at h
    rw [resolveCalls]
    by_cases hKnown : isResolved resolved package = true
    · rw [if_pos hKnown] at h ⊢
      cases h
      exact .known (isResolved_iff.mp hKnown) (.nil resolved)
    · rw [if_neg hKnown] at h ⊢
      cases hInfo : pkgRegistryInfo reg package version with
      | none => simp [hInfo] at h
      | some info =>
        rw [hInfo] at h
        cases hDeps : resolveDependencies
          (resolveRecursive reg levels) info.dependencies resolved with
        | mk success next =>
          cases success with
          | false => simp [hDeps] at h
          | true =>
            simp only [hDeps, Prod.mk.injEq, true_and] at h
            subst h
            have hNeeded := walk_resolveDependencies ih hDeps
            have hSelect : (registryCatalogue reg).select (package, version) =
                some (ResolvedPkg.ofInfo info) :=
              congrArg (Option.map ResolvedPkg.ofInfo) hInfo
            have hWalk := MemoWalk.fresh (fun hMem => hKnown (isResolved_iff.mpr hMem)) hSelect
              hNeeded (.nil _)
            rwa [append_nil] at hWalk

/-- Packages that pass the conflict check and come from the registry are one
when their names are. -/
theorem eq_of_name_eq (hCheck : pkgResolverCheckConflicts resolved = true)
    (hFrom : ∀ pkg ∈ resolved, ∃ request, (registryCatalogue reg).select request = some pkg) :
    ∀ a ∈ resolved, ∀ b ∈ resolved, a.name = b.name → a = b := by
  have hVersions : ∀ a ∈ resolved, ∀ b ∈ resolved, a.name = b.name →
      a.version = b.version := by
    clear hFrom
    induction resolved with
    | nil => exact nofun
    | cons first rest ih =>
      rw [pkgResolverCheckConflicts, Bool.and_eq_true, all_eq_true] at hCheck
      have hFirst : ∀ b ∈ rest, first.name = b.name → first.version = b.version := by
        intro b hb hName
        have hTest := hCheck.1 b hb
        rw [Bool.or_eq_true, decide_eq_true_iff, Bool.not_eq_true',
          decide_eq_false_iff_not] at hTest
        exact eq_of_pkgVersionCompare_eq_zero (hTest.resolve_left (not_not.mpr hName))
      intro a ha b hb hName
      rcases mem_cons.mp ha with rfl | haRest
      · rcases mem_cons.mp hb with rfl | hbRest
        · rfl
        · exact hFirst b hbRest hName
      · rcases mem_cons.mp hb with rfl | hbRest
        · exact (hFirst a haRest hName.symm).symm
        · exact ih hCheck.2 a haRest b hbRest hName
  intro a ha b hb hName
  obtain ⟨request, hSelect⟩ := hFrom a ha
  obtain ⟨request', hSelect'⟩ := hFrom b hb
  obtain ⟨info, hInfo, rfl⟩ := Option.map_eq_some_iff.mp hSelect
  obtain ⟨info', hInfo', rfl⟩ := Option.map_eq_some_iff.mp hSelect'
  have hSame := hVersions _ ha _ hb hName
  have hRequest : request.1 = request'.1 :=
    (name_of_pkgRegistryInfo hInfo).symm.trans (hName.trans (name_of_pkgRegistryInfo hInfo'))
  rw [← hRequest] at hInfo'
  rw [pkgRegistryInfo_unique hInfo hInfo' hSame]

/-- A resolution that succeeds without conflict is sound exactly when every
package that a call finds resolved satisfies the specification of the call. -/
theorem pkgResolver_sound_iff (reg : PkgRegistry) (package : CString) (version : Option CString)
    (resolved : List ResolvedPkg)
    (hResolve : pkgResolverResolve reg package version = (true, resolved))
    (hCheck : pkgResolverCheckConflicts resolved = true) :
    Resolution package version resolved ↔
      ∀ call ∈ resolveCalls reg (maxDepth + 1) [] package version, CallAgrees call := by
  have hWalk := walk_resolveRecursive hResolve
  have hSelected : ∀ pkg ∈ resolved, ∃ request,
      (registryCatalogue reg).select request = some pkg :=
    fun pkg hPkg => (hWalk.selected pkg hPkg).resolve_left not_mem_nil
  have hUnique := eq_of_name_eq hCheck hSelected
  have hEmpty : NeedsFirst (registryCatalogue reg) [] := fun front pkg back hSplit => by
    cases front <;> cases hSplit
  have hFirst := hWalk.needsFirst hEmpty
  have hOnce := hWalk.nodup hEmpty hUnique nodup_nil
  constructor
  · intro h call hCall pkg hPkg hName
    obtain ⟨hPrefix, hFrom⟩ := hWalk.calls_of call hCall
    rcases hFrom with hRoot | ⟨dependent, hDependent, hNeed⟩
    · obtain ⟨root, hMem, hRootName, hSatisfies⟩ := h.root
      rw [mem_singleton.mp hRoot] at hName ⊢
      rw [hUnique pkg (hPrefix.subset hPkg) root hMem (hName.trans hRootName.symm)]
      exact hSatisfies
    · obtain ⟨dep, hDep, hSame⟩ := mem_map.mp hNeed
      obtain ⟨other, hOther, hOtherName, hSatisfies⟩ :=
        h.satisfied dependent hDependent dep hDep
      rw [← hSame] at hName ⊢
      rw [hUnique pkg (hPrefix.subset hPkg) other hOther (hName.trans hOtherName.symm)]
      exact hSatisfies
  · intro hAgree
    have hSelect : ∀ request pkg, (registryCatalogue reg).select request = some pkg →
        pkgVersionSatisfies pkg.version request.2 = true := by
      intro request pkg hPkg
      obtain ⟨info, hInfo, rfl⟩ := Option.map_eq_some_iff.mp hPkg
      exact satisfies_of_pkgRegistryInfo hInfo
    obtain ⟨hRoot, hNeeds⟩ := hWalk.suited hSelect hAgree
    refine ⟨hRoot _ mem_cons_self, fun pkg hPkg dep hDep => ?_, hOnce, ?_⟩
    · exact (hNeeds pkg hPkg).resolve_left not_mem_nil _ (mem_map_of_mem hDep)
    · intro front pkg back hSplit dep hDep
      exact hFirst front pkg back hSplit _ (mem_map_of_mem hDep)

end

/-- A package whose two dependencies ask for the same package. -/
def diamond (left right : CString) : PkgRegistry where
  packages :=
    [⟨['a'], ⟨1, 0, 0, none⟩, [⟨['b'], []⟩, ⟨['c'], []⟩]⟩,
      ⟨['b'], ⟨1, 0, 0, none⟩, [⟨['d'], left⟩]⟩,
      ⟨['c'], ⟨1, 0, 0, none⟩, [⟨['d'], right⟩]⟩,
      ⟨['d'], ⟨1, 2, 0, none⟩, []⟩,
      ⟨['d'], ⟨2, 0, 0, none⟩, []⟩]

/-- What the resolver makes of it: the dependencies of both take the first version that
fits the left one. -/
def diamondResolved (left right : CString) : List ResolvedPkg :=
  [⟨['d'], ⟨1, 2, 0, none⟩, []⟩,
    ⟨['b'], ⟨1, 0, 0, none⟩, [⟨['d'], left⟩]⟩,
    ⟨['c'], ⟨1, 0, 0, none⟩, [⟨['d'], right⟩]⟩,
    ⟨['a'], ⟨1, 0, 0, none⟩, [⟨['b'], []⟩, ⟨['c'], []⟩]⟩]

theorem pkgResolver_sound_diamond :
    Resolution ['a'] none
        (diamondResolved ['^', '1', '.', '0', '.', '0'] ['~', '1', '.', '2', '.', '0']) ↔
      ∀ call ∈ resolveCalls
          (diamond ['^', '1', '.', '0', '.', '0'] ['~', '1', '.', '2', '.', '0'])
          (maxDepth + 1) [] ['a'] none,
        CallAgrees call :=
  pkgResolver_sound_iff
    (diamond ['^', '1', '.', '0', '.', '0'] ['~', '1', '.', '2', '.', '0']) ['a'] none
    _ (by decide +kernel) (by decide +kernel)

/-- The second dependency on `d` is not satisfied by the version resolved for the first. -/
theorem pkgResolver_unsound :
    ¬∀ resolved, pkgResolverResolve (diamond ['^', '1'] ['^', '2']) ['a'] none =
      (true, resolved) →
      pkgResolverCheckConflicts resolved = true → Resolution ['a'] none resolved := by
  intro h
  have hSound := h (diamondResolved ['^', '1'] ['^', '2']) (by decide +kernel) (by decide +kernel)
  have hMissing : ∀ other ∈ diamondResolved ['^', '1'] ['^', '2'], other.name = ['d'] →
      pkgVersionSatisfies other.version (some ['^', '2']) = false := by decide +kernel
  obtain ⟨other, hOther, hName, hSatisfies⟩ := hSound.satisfied
    ⟨['c'], ⟨1, 0, 0, none⟩, [⟨['d'], ['^', '2']⟩]⟩ (by decide)
      ⟨['d'], ['^', '2']⟩ mem_cons_self
  rw [hMissing other hOther hName] at hSatisfies
  cases hSatisfies

end Casprix.Pkg
