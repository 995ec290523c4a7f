import Casprix.Pkg.Resolver

/-! The runs of the resolver: that each one ends, which of them succeed, and
what a run that fails leaves behind. -/
namespace Casprix.Pkg

open List Library

/-- A name with a specification. -/
abbrev PkgRequest := CString × Option CString

/-- What is left to do: a call of `resolve_recursive`, or its loop over the dependencies. -/
inductive ResolveWork where
  | package (name : CString) (version : Option CString)
  | dependencies (deps : List PkgDependency)

/-- The runs of `resolve_recursive` at a depth, as far as they end. Nothing but
the test of the depth bounds the recursion. -/
inductive ResolveRun (reg : PkgRegistry) :
    Nat → List ResolvedPkg → ResolveWork → Bool × List ResolvedPkg → Prop where
  | depthExceeded {depth : Nat} {resolved : List ResolvedPkg} {name : CString}
    {version : Option CString}
      (hDepth : maxDepth < depth) :
      ResolveRun reg depth resolved (.package name version) (false, resolved)
  | alreadyResolved {depth : Nat} {resolved : List ResolvedPkg} {name : CString}
    {version : Option CString}
      (hDepth : ¬maxDepth < depth) (hKnown : isResolved resolved name = true) :
      ResolveRun reg depth resolved (.package name version) (true, resolved)
  | notFound {depth : Nat} {resolved : List ResolvedPkg} {name : CString} {version : Option CString}
      (hDepth : ¬maxDepth < depth) (hNew : ¬isResolved resolved name = true)
      (hInfo : pkgRegistryInfo reg name version = none) :
      ResolveRun reg depth resolved (.package name version) (false, resolved)
  | dependencyFailed {depth : Nat} {resolved after : List ResolvedPkg} {name : CString}
      {version : Option CString} {info : PkgInfo}
      (hDepth : ¬maxDepth < depth) (hNew : ¬isResolved resolved name = true)
      (hInfo : pkgRegistryInfo reg name version = some info)
      (run : ResolveRun reg depth resolved (.dependencies info.dependencies) (false, after)) :
      ResolveRun reg depth resolved (.package name version) (false, after)
  | added {depth : Nat} {resolved after : List ResolvedPkg} {name : CString}
      {version : Option CString} {info : PkgInfo}
      (hDepth : ¬maxDepth < depth) (hNew : ¬isResolved resolved name = true)
      (hInfo : pkgRegistryInfo reg name version = some info)
      (run : ResolveRun reg depth resolved (.dependencies info.dependencies) (true, after)) :
      ResolveRun reg depth resolved (.package name version)
        (true, after ++ [ResolvedPkg.ofInfo info])
  | loopDone {depth : Nat} {resolved : List ResolvedPkg} :
      ResolveRun reg depth resolved (.dependencies []) (true, resolved)
  | loopFailed {depth : Nat} {resolved after : List ResolvedPkg} {dep : PkgDependency}
      {deps : List PkgDependency}
      (run : ResolveRun reg (depth + 1) resolved
        (.package dep.name (some dep.versionSpec)) (false, after)) :
      ResolveRun reg depth resolved (.dependencies (dep :: deps)) (false, after)
  | loopNext {depth : Nat} {resolved mid : List ResolvedPkg} {dep : PkgDependency}
      {deps : List PkgDependency} {result : Bool × List ResolvedPkg}
      (run : ResolveRun reg (depth + 1) resolved
        (.package dep.name (some dep.versionSpec)) (true, mid))
      (rest : ResolveRun reg depth mid (.dependencies deps) result) :
      ResolveRun reg depth resolved (.dependencies (dep :: deps)) result

/-- The packages a resolver holds after calls of `pkg_resolver_resolve`. -/
def resolvedAfter (reg : PkgRegistry) (earlier : List PkgRequest) : List ResolvedPkg :=
  earlier.foldl (fun resolved call =>
    (resolveRecursive reg (maxDepth + 1) resolved call.1 call.2).2) []

/-- The graph below a request is one to resolve: every node is present, there is
no cycle, and no chain of dependencies is longer than the depth allowed. -/
structure Resolvable (reg : PkgRegistry) (root : PkgRequest) : Prop where
  present : ∀ r, (registryCatalogue reg).Reaches root r →
    (pkgRegistryInfo reg r.1 r.2).isSome = true
  acyclic : ∀ r, (registryCatalogue reg).Reaches root r →
    ¬Relation.TransGen (registryCatalogue reg).Leads r r
  shallow : ∀ chain, List.IsChain (registryCatalogue reg).Leads
    (root :: chain) → chain.length ≤ maxDepth

/-- The graph below a request has a cycle. -/
def Cyclic (reg : PkgRegistry) (root : PkgRequest) : Prop :=
  ∃ r, (registryCatalogue reg).Reaches root r ∧
    Relation.TransGen (registryCatalogue reg).Leads r r

/-- What a call leaves: the packages from before it, and behind them packages of
the graph, each with its dependencies before it. -/
structure Extends (reg : PkgRegistry) (root : PkgRequest)
    (resolved after : List ResolvedPkg) : Prop where
  kept : resolved <+: after
  reached : ∀ pkg ∈ after, pkg ∈ resolved ∨
    ∃ r, (registryCatalogue reg).Reaches root r ∧ (registryCatalogue reg).select r = some pkg
  before : ∀ front pkg back, after = front ++ pkg :: back → ∀ dep ∈ pkg.dependencies,
    dep.name ∈ front.map ResolvedPkg.name

variable {root : PkgRequest} {after : List ResolvedPkg}

section

variable {reg : PkgRegistry} {levels depth : Nat} {resolved resolved' : List ResolvedPkg}
  {package : CString} {version : Option CString} {deps : List PkgDependency}
  {result : Bool × List ResolvedPkg}

/-- What the work comes to with the levels that the depth leaves. -/
def workResult (reg : PkgRegistry) (depth : Nat) (resolved : List ResolvedPkg) :
    ResolveWork → Bool × List ResolvedPkg
  | .package name version => resolveRecursive reg (maxDepth + 1 - depth) resolved name version
  | .dependencies deps => resolveDependencies
    (resolveRecursive reg (maxDepth - depth)) deps resolved

theorem levels_of_not_exceeded (hDepth : ¬maxDepth < depth) :
    maxDepth + 1 - depth = (maxDepth - depth) + 1 := by omega

theorem ResolveRun.eq_workResult {work : ResolveWork}
    (h : ResolveRun reg depth resolved work result) :
    result = workResult reg depth resolved work := by
  induction h with
  | @depthExceeded depth resolved name version hDepth =>
    rw [workResult, show maxDepth + 1 - depth = 0 by omega, resolveRecursive]
  | alreadyResolved hDepth hKnown =>
    rw [workResult, levels_of_not_exceeded hDepth, resolveRecursive, if_pos hKnown]
  | notFound hDepth hNew hInfo =>
    rw [workResult, levels_of_not_exceeded hDepth, resolveRecursive, if_neg hNew, hInfo]
  | dependencyFailed hDepth hNew hInfo _ ih | added hDepth hNew hInfo _ ih =>
    rw [workResult] at ih
    rw [workResult, levels_of_not_exceeded hDepth, resolveRecursive, if_neg hNew, hInfo]
    simp only [← ih]
  | loopDone => rfl
  | @loopFailed depth resolved after dep deps _ ih =>
    rw [workResult, Nat.add_sub_add_right] at ih
    rw [workResult, resolveDependencies, ← ih]
  | @loopNext depth resolved mid dep deps result _ _ ih ihRest =>
    rw [workResult, Nat.add_sub_add_right] at ih
    rw [workResult] at ihRest
    rw [workResult, resolveDependencies, ← ih]
    exact ihRest

theorem resolveRun_dependencies
    (hCall : ∀ (resolved : List ResolvedPkg) (name : CString) (version : Option CString),
      ∃ result, ResolveRun reg (depth + 1) resolved (.package name version) result) :
    ∃ result, ResolveRun reg depth resolved (.dependencies deps) result := by
  induction deps generalizing resolved with
  | nil => exact ⟨_, .loopDone⟩
  | cons dep deps ih =>
    obtain ⟨⟨success, mid⟩, hRun⟩ := hCall resolved dep.name (some dep.versionSpec)
    cases success with
    | false => exact ⟨_, .loopFailed hRun⟩
    | true =>
      obtain ⟨result, hRest⟩ := @ih mid
      exact ⟨result, .loopNext hRun hRest⟩

/-- Every call ends: below the depth allowed no call goes deeper. -/
theorem resolveRun_exists (hLevels : maxDepth + 1 - depth = levels) :
    ∃ result, ResolveRun reg depth resolved (.package package version) result := by
  induction levels generalizing depth resolved package version with
  | zero => exact ⟨_, .depthExceeded (by omega)⟩
  | succ levels ih =>
    have hDepth : ¬maxDepth < depth := by omega
    by_cases hKnown : isResolved resolved package = true
    · exact ⟨_, .alreadyResolved hDepth hKnown⟩
    · cases hInfo : pkgRegistryInfo reg package version with
      | none => exact ⟨_, .notFound hDepth hKnown hInfo⟩
      | some info =>
        obtain ⟨⟨success, after⟩, hRun⟩ :
            ∃ result, ResolveRun reg depth resolved (.dependencies info.dependencies) result :=
          resolveRun_dependencies fun resolved name version => ih (by omega)
        cases success with
        | false => exact ⟨_, .dependencyFailed hDepth hKnown hInfo hRun⟩
        | true => exact ⟨_, .added hDepth hKnown hInfo hRun⟩

theorem resolveDependencies_succeeds
    {resolve : List ResolvedPkg → CString → Option CString → Bool × List ResolvedPkg}
    (hCall : ∀ dep ∈ deps, ∀ resolved,
      (resolve resolved dep.name (some dep.versionSpec)).1 = true) :
    (resolveDependencies resolve deps resolved).1 = true := by
  induction deps generalizing resolved with
  | nil => rfl
  | cons dep deps ih =>
    obtain ⟨hFirst, hRest⟩ := forall_mem_cons.mp hCall
    rw [resolveDependencies]
    cases hDep : resolve resolved dep.name (some dep.versionSpec) with
    | mk success mid =>
      obtain rfl : success = true := by
        have hSuccess := hFirst resolved
        rwa [hDep] at hSuccess
      exact ih hRest

theorem resolveRecursive_succeeds
    (hPresent : ∀ r, (registryCatalogue reg).Reaches (package, version) r →
      (pkgRegistryInfo reg r.1 r.2).isSome = true)
    (hShallow : ∀ chain, List.IsChain (registryCatalogue reg).Leads
      ((package, version) :: chain) →
      chain.length ≤ levels) :
    (resolveRecursive reg (levels + 1) resolved package version).1 = true := by
  induction levels generalizing resolved package version with
  | zero =>
    rw [resolveRecursive]
    by_cases hKnown : isResolved resolved package = true
    · rw [if_pos hKnown]
    · obtain ⟨info, hInfo⟩ := Option.isSome_iff_exists.mp (hPresent _ .refl)
      have hNone : info.dependencies = [] := by
        cases hDeps : info.dependencies with
        | nil => rfl
        | cons dep deps =>
          have hLeads : (registryCatalogue reg).Leads (package, version)
              (dep.name, some dep.versionSpec) := by
            refine ⟨_, congrArg (Option.map ResolvedPkg.ofInfo) hInfo, ?_⟩
            exact mem_map_of_mem (by rw [ResolvedPkg.ofInfo, hDeps]; exact mem_cons_self)
          exact absurd (hShallow [_]
            (isChain_cons_cons.mpr ⟨hLeads, List.IsChain.singleton _⟩)) (by simp)
      simp [if_neg hKnown, hInfo, hNone, resolveDependencies]
  | succ levels ih =>
    rw [resolveRecursive]
    by_cases hKnown : isResolved resolved package = true
    · rw [if_pos hKnown]
    · obtain ⟨info, hInfo⟩ := Option.isSome_iff_exists.mp (hPresent _ .refl)
      have hDeps : (resolveDependencies
        (resolveRecursive reg (levels + 1)) info.dependencies resolved).1 =
          true := by
        refine resolveDependencies_succeeds fun dep hDep resolved => ?_
        have hLeads : (registryCatalogue reg).Leads (package, version)
            (dep.name, some dep.versionSpec) :=
          ⟨_, congrArg (Option.map ResolvedPkg.ofInfo) hInfo, mem_map_of_mem hDep⟩
        apply ih
        · exact fun r hReach => hPresent r (Relation.ReflTransGen.head hLeads hReach)
        · intro chain hChain
          have hLonger := hShallow (_ :: chain) (isChain_cons_cons.mpr ⟨hLeads, hChain⟩)
          rw [length_cons] at hLonger
          omega
      rw [if_neg hKnown]
      simp only [hInfo]
      cases hLoop : resolveDependencies
        (resolveRecursive reg (levels + 1)) info.dependencies resolved with
      | mk success after =>
        rw [hLoop] at hDeps
        cases hDeps
        rfl

/-- The list after a call, failed or not, is what some requests of its graph
leave when they are all resolved. -/
def LeftByWalk (reg : PkgRegistry) (root : PkgRequest) (resolved after : List ResolvedPkg) : Prop :=
  ∃ rs calls, (∀ r ∈ rs, (registryCatalogue reg).Reaches root r) ∧
    MemoWalk (registryCatalogue reg) rs resolved calls after

theorem LeftByWalk.refl : LeftByWalk reg root resolved resolved :=
  ⟨[], [], nofun, .nil resolved⟩

theorem LeftByWalk.trans {mid : List ResolvedPkg} (h : LeftByWalk reg root resolved mid)
    (hNext : LeftByWalk reg root mid after) : LeftByWalk reg root resolved after := by
  obtain ⟨rs, calls, hFrom, hWalk⟩ := h
  obtain ⟨rs', calls', hFrom', hWalk'⟩ := hNext
  exact ⟨rs ++ rs', calls ++ calls',
    forall_mem_append.mpr ⟨hFrom, hFrom'⟩, hWalk.append hWalk'⟩

theorem LeftByWalk.below {next : PkgRequest} (h : LeftByWalk reg next resolved after)
    (hLeads : (registryCatalogue reg).Leads root next) : LeftByWalk reg root resolved after := by
  obtain ⟨rs, calls, hFrom, hWalk⟩ := h
  exact ⟨rs, calls, fun r hr => Relation.ReflTransGen.head hLeads (hFrom r hr), hWalk⟩

theorem LeftByWalk.needsFirst (h : LeftByWalk reg root resolved after)
    (hFirst : NeedsFirst (registryCatalogue reg) resolved) :
    NeedsFirst (registryCatalogue reg) after := by
  obtain ⟨rs, calls, _, hWalk⟩ := h
  exact hWalk.needsFirst hFirst

theorem leftByWalk_resolveDependencies
    {resolve : List ResolvedPkg → CString → Option CString → Bool × List ResolvedPkg}
    (hCall : ∀ dep ∈ deps, ∀ resolved,
      LeftByWalk reg root resolved (resolve resolved dep.name (some dep.versionSpec)).2) :
    LeftByWalk reg root resolved (resolveDependencies resolve deps resolved).2 := by
  induction deps generalizing resolved with
  | nil => exact .refl
  | cons dep deps ih =>
    obtain ⟨hFirst, hRest⟩ := forall_mem_cons.mp hCall
    have hHere := hFirst resolved
    rw [resolveDependencies]
    cases hDep : resolve resolved dep.name (some dep.versionSpec) with
    | mk success mid =>
      rw [hDep] at hHere
      cases success with
      | false => exact hHere
      | true => exact hHere.trans (ih hRest)

theorem leftByWalk_resolveRecursive :
    LeftByWalk reg (package, version) resolved
      (resolveRecursive reg levels resolved package version).2 := by
  induction levels generalizing resolved package version with
  | zero => exact .refl
  | succ levels ih =>
    cases hResult : resolveRecursive reg (levels + 1) resolved package version with
    | mk success after =>
      cases success with
      | true =>
        exact ⟨[(package, version)], _, fun r hr => mem_singleton.mp hr ▸ .refl,
          walk_resolveRecursive hResult⟩
      | false =>
        rw [resolveRecursive] at hResult
        by_cases hKnown : isResolved resolved package = true
        · rw [if_pos hKnown] at hResult
          cases hResult
        · rw [if_neg hKnown] at hResult
          cases hInfo : pkgRegistryInfo reg package version with
          | none =>
            simp only [hInfo] at hResult
            cases hResult
            exact .refl
          | some info =>
            -- what the loop leaves stays when it fails
            have hLoop : LeftByWalk reg (package, version) resolved
                (resolveDependencies (resolveRecursive reg levels)
                  info.dependencies resolved).2 := by
              refine leftByWalk_resolveDependencies fun dep hDep resolved => ih.below ?_
              exact ⟨_, congrArg (Option.map ResolvedPkg.ofInfo) hInfo, mem_map_of_mem hDep⟩
            simp only [hInfo] at hResult
            cases hDeps : resolveDependencies (resolveRecursive
              reg levels) info.dependencies resolved with
            | mk success mid =>
              rw [hDeps] at hResult hLoop
              cases success with
              | true => cases hResult
              | false =>
                cases hResult
                exact hLoop

theorem needsFirst_resolvedAfter (earlier : List PkgRequest) :
    NeedsFirst (registryCatalogue reg) (resolvedAfter reg earlier) := by
  have hFold : ∀ resolved, NeedsFirst (registryCatalogue reg) resolved →
      NeedsFirst (registryCatalogue reg) (earlier.foldl (fun resolved call =>
        (resolveRecursive reg (maxDepth + 1) resolved call.1 call.2).2) resolved) := by
    induction earlier with
    | nil => exact fun resolved h => h
    | cons call earlier ih => exact fun resolved h => ih _ (leftByWalk_resolveRecursive.needsFirst
      h)
  refine hFold [] fun front pkg back hSplit => ?_
  cases front <;> cases hSplit

theorem extends_resolveRecursive (hFirst : NeedsFirst (registryCatalogue reg) resolved) :
    Extends reg root resolved (resolveRecursive reg levels resolved root.1 root.2).2 := by
  have hLeft : LeftByWalk reg root resolved
      (resolveRecursive reg levels resolved root.1 root.2).2 :=
    leftByWalk_resolveRecursive
  obtain ⟨rs, calls, hFrom, hWalk⟩ := hLeft
  refine ⟨hWalk.isPrefix, fun pkg hPkg => ?_, fun front pkg back hSplit dep hDep => ?_⟩
  · refine (hWalk.selected_reached pkg hPkg).imp_right fun ⟨r, hr, r', hReach, hSelect⟩ => ?_
    exact ⟨r', (hFrom r hr).trans hReach, hSelect⟩
  · exact hWalk.needsFirst hFirst front pkg back hSplit _ (mem_map_of_mem hDep)

/-- Every call ends. It succeeds where the graph below the package is resolvable.
It fails on a cyclic graph, where every name stands for one package. A call
that fails leaves what was resolved before it, and behind that packages of the
graph that are resolved with all their dependencies. -/
theorem pkgResolver_resolve_runs (reg : PkgRegistry)
    (earlier : List PkgRequest) (root : PkgRequest) :
    (∃ result, ResolveRun reg 0 (resolvedAfter reg earlier) (.package root.1 root.2) result) ∧
    ∀ result, ResolveRun reg 0 (resolvedAfter reg earlier) (.package root.1 root.2) result →
      (Resolvable reg root → result.1 = true) ∧
      (Cyclic reg root → (registryCatalogue reg).OneItem root (resolvedAfter reg earlier) →
        result.1 = false) ∧
      (result.1 = false → Extends reg root (resolvedAfter reg earlier) result.2) := by
  refine ⟨resolveRun_exists rfl, fun result hRun => ?_⟩
  obtain rfl : result = resolveRecursive reg (maxDepth + 1)
      (resolvedAfter reg earlier) root.1 root.2 :=
    hRun.eq_workResult
  refine ⟨fun h => resolveRecursive_succeeds h.present h.shallow, ?_, ?_⟩
  · rintro ⟨r, hReach, hCycle⟩ hOne
    cases hResult : resolveRecursive reg (maxDepth + 1)
      (resolvedAfter reg earlier) root.1 root.2 with
    | mk success after =>
      cases success with
      | false => rfl
      | true =>
        exact absurd hCycle ((walk_resolveRecursive hResult).acyclic
          (needsFirst_resolvedAfter earlier) hOne hReach)
  · exact fun _ => extends_resolveRecursive (needsFirst_resolvedAfter earlier)

end

/-- Two packages, the second without dependencies. -/
def pair : PkgRegistry where
  packages :=
    [⟨['a'], ⟨1, 0, 0, none⟩, [⟨['b'], []⟩]⟩, ⟨['b'], ⟨1, 0, 0, none⟩, []⟩]

theorem pair_leads {r next : PkgRequest} (h : (registryCatalogue pair).Leads r next) :
    r.1 = ['a'] ∧ next = (['b'], some []) := by
  obtain ⟨pkg, hSelect, hNeed⟩ := h
  obtain ⟨info, hInfo, rfl⟩ := Option.map_eq_some_iff.mp hSelect
  have hMem : info ∈ pair.packages := mem_of_find?_eq_some hInfo
  have hSame := name_of_pkgRegistryInfo hInfo
  rcases mem_cons.mp hMem with rfl | hMem
  · exact ⟨hSame.symm, mem_singleton.mp hNeed⟩
  · obtain rfl := mem_singleton.mp hMem
    cases hNeed

theorem pair_resolvable : Resolvable pair (['a'], none) where
  present := by
    intro r hReach
    rcases Relation.ReflTransGen.cases_tail hReach with rfl | ⟨mid, hMid, hLast⟩
    · rfl
    · rw [(pair_leads hLast).2]
      decide +kernel
  acyclic := by
    intro r hReach hCycle
    obtain ⟨last, hBack, hLast⟩ := Relation.TransGen.tail'_iff.mp hCycle
    obtain ⟨next, hFirst, hRest⟩ := Relation.TransGen.head'_iff.mp hCycle
    have hName := (pair_leads hFirst).1
    rw [(pair_leads hLast).2] at hName
    exact absurd hName (by decide)
  shallow := by
    intro chain hChain
    cases chain with
    | nil => exact Nat.zero_le _
    | cons first chain =>
      cases chain with
      | nil => exact Nat.le_add_left 1 99
      | cons second chain =>
        obtain ⟨hFirst, hRest⟩ := isChain_cons_cons.mp hChain
        have hName := (pair_leads (isChain_cons_cons.mp hRest).1).1
        rw [(pair_leads hFirst).2] at hName
        exact absurd hName (by decide)

theorem leads_of_any {reg : PkgRegistry} {r next : PkgRequest}
    (h : ((registryCatalogue reg).select r).any
      (fun pkg => next ∈ (registryCatalogue reg).needs pkg) = true) :
    (registryCatalogue reg).Leads r next := by
  obtain ⟨pkg, hSelect, hNeed⟩ := (Option.any_eq_true _ _).mp h
  exact ⟨pkg, hSelect, of_decide_eq_true hNeed⟩

/-- Requests that lead only to one another are all that any of them reaches. -/
theorem mem_of_reaches {reg : PkgRegistry} {root r : PkgRequest} {requests : List PkgRequest}
    (hRoot : root ∈ requests)
    (hClosed : ∀ r ∈ requests, ∀ pkg ∈ (registryCatalogue reg).select r,
      ∀ next ∈ (registryCatalogue reg).needs pkg, next ∈ requests)
    (h : (registryCatalogue reg).Reaches root r) : r ∈ requests := by
  induction h with
  | refl => exact hRoot
  | tail _ hLast ih =>
    obtain ⟨pkg, hSelect, hNeed⟩ := hLast
    exact hClosed _ ih pkg hSelect _ hNeed

/-- `c` and `d` depend on each other, and `c` and `a` on `b`. -/
def circle : PkgRegistry where
  packages :=
    [⟨['a'], ⟨1, 0, 0, none⟩, [⟨['b'], []⟩]⟩, ⟨['b'], ⟨1, 0, 0, none⟩, []⟩,
      ⟨['c'], ⟨1, 0, 0, none⟩, [⟨['b'], []⟩, ⟨['d'], []⟩]⟩,
        ⟨['d'], ⟨1, 0, 0, none⟩, [⟨['c'], []⟩]⟩]

theorem circle_cyclic : Cyclic circle (['c'], none) := by
  refine ⟨(['d'], some []), .single (leads_of_any (by decide +kernel)), ?_⟩
  exact .head (b := (['c'], some [])) (leads_of_any (by decide +kernel))
    (.single (leads_of_any (by decide +kernel)))

theorem circle_oneItem : (registryCatalogue circle).OneItem (['c'], none)
    (resolvedAfter circle [(['a'], none)]) := by
  have hMem (r : PkgRequest) (h : (registryCatalogue circle).Reaches (['c'], none) r) :
      r ∈ [(['c'], none), (['b'], some []), (['d'], some []), (['c'], some [])] :=
    mem_of_reaches (by decide) (by decide +kernel) h
  constructor
  · intro r r' hReach hReach'
    have hSame : ∀ r ∈ [(['c'], none), (['b'], some []), (['d'], some []), (['c'], some [])],
        ∀ r' ∈ [(['c'], none), (['b'], some []), (['d'], some []), (['c'], some [])],
        (registryCatalogue circle).name r = (registryCatalogue circle).name r' →
          (registryCatalogue circle).select r = (registryCatalogue circle).select r' := by
      decide +kernel
    exact hSame r (hMem r hReach) r' (hMem r' hReach')
  · intro r hReach
    have hListed : ∀ r ∈ [(['c'], none), (['b'], some []), (['d'], some []), (['c'], some [])],
        ∀ pkg ∈ resolvedAfter circle [(['a'], none)],
        (registryCatalogue circle).label pkg = (registryCatalogue circle).name r →
          (registryCatalogue circle).select r = some pkg := by
      decide +kernel
    exact hListed r (hMem r hReach)

/-- The pair is resolved. Behind `a`, which was resolved before, the circle fails and leaves
`b` and `a` where they were. -/
theorem pkgResolver_resolve_runs_pair :
    (∃ result, ResolveRun pair 0 [] (.package ['a'] none) result ∧ result.1 = true) ∧
    (resolvedAfter circle [(['a'], none)]).map ResolvedPkg.name = [['b'], ['a']] ∧
    ∃ result, ResolveRun circle 0 (resolvedAfter circle [(['a'], none)])
      (.package ['c'] none) result ∧
      result.1 = false ∧
      Extends circle (['c'], none) (resolvedAfter circle [(['a'], none)]) result.2 := by
  refine ⟨?_, by decide +kernel, ?_⟩
  · obtain ⟨⟨result, hRun⟩, hAll⟩ := pkgResolver_resolve_runs pair [] (['a'], none)
    exact ⟨result, hRun, (hAll result hRun).1 pair_resolvable⟩
  · obtain ⟨⟨result, hRun⟩, hAll⟩ :=
      pkgResolver_resolve_runs circle [(['a'], none)] (['c'], none)
    obtain ⟨-, hCyclic, hFailed⟩ := hAll result hRun
    have hFails : result.1 = false := hCyclic circle_cyclic circle_oneItem
    exact ⟨result, hRun, hFails, hFailed hFails⟩

/-- The second dependency of `a` is missing. -/
def missing : PkgRegistry where
  packages :=
    [⟨['a'], ⟨1, 0, 0, none⟩, [⟨['b'], []⟩, ⟨['c'], []⟩]⟩,
      ⟨['b'], ⟨1, 0, 0, none⟩, []⟩]

/-- The first versions of `a` and `b` depend on each other, but `b` is resolved
in its second version first. -/
def detour : PkgRegistry where
  packages :=
    [⟨['c'], ⟨1, 0, 0, none⟩, [⟨['b'], ['2']⟩, ⟨['a'], ['1']⟩]⟩,
      ⟨['a'], ⟨1, 0, 0, none⟩, [⟨['b'], ['1']⟩]⟩,
      ⟨['b'], ⟨1, 0, 0, none⟩, [⟨['a'], ['1']⟩]⟩,
      ⟨['b'], ⟨2, 0, 0, none⟩, []⟩]

theorem detour_cyclic : Cyclic detour (['c'], none) := by
  refine ⟨(['a'], some ['1']), .single (leads_of_any (by decide +kernel)), ?_⟩
  exact .head (b := (['b'], some ['1'])) (leads_of_any (by decide +kernel))
    (.single (leads_of_any (by decide +kernel)))

/-- A failed call leaves `b` behind, and a cyclic graph is resolved. -/
theorem resolve_leaves_and_passes :
    (¬∀ (reg : PkgRegistry) (root : PkgRequest) result,
      ResolveRun reg 0 [] (.package root.1 root.2) result →
      result.1 = false → result.2 = []) ∧
    ¬∀ (reg : PkgRegistry) (root : PkgRequest) result,
      ResolveRun reg 0 [] (.package root.1 root.2) result →
      Cyclic reg root → result.1 = false := by
  constructor
  · intro h
    obtain ⟨result, hRun⟩ : ∃ result, ResolveRun missing 0 [] (.package ['a'] none) result :=
      resolveRun_exists rfl
    have hEmpty := h missing (['a'], none) result hRun
    rw [hRun.eq_workResult] at hEmpty
    exact absurd (hEmpty (by decide +kernel)) (by decide +kernel)
  · intro h
    obtain ⟨result, hRun⟩ : ∃ result, ResolveRun detour 0 [] (.package ['c'] none) result :=
      resolveRun_exists rfl
    have hFails := h detour (['c'], none) result hRun detour_cyclic
    rw [hRun.eq_workResult] at hFails
    exact absurd hFails (by decide +kernel)

end Casprix.Pkg
