import Casprix.Library.Machine
import Casprix.Library.Segments

/-! The drop planner: the entries of the variables in scope, the drops that leaving a
scope or returning early calls for, and the check that no view outlives its String. -/
namespace Casprix.Sema

open List Library Function

inductive DropKind where
  | none
  | arc
  | rc
  | dtor
  | region
  | scopeGuard
  | linearView
  deriving DecidableEq, Repr

structure DropEntry where
  varName : Option String
  scopeLevel : Nat
  stackOffset : Int := 0
  kind : DropKind
  dtorName : Option String := none
  isMoved : Bool := false
  isBorrowed : Bool := false
  isParam : Bool := false
  parentName : Option String := none
  declLine : Int := 0
  deriving DecidableEq, Repr

/-- The entries up to `count`, oldest first, and where each scope starts. -/
structure DropPlanner where
  entries : List DropEntry
  currentScope : Nat
  scopeStart : Nat → Nat

def maxDropEntries : Nat := 256

def maxDropScopes : Nat := 32

/-- What the walks over the entries do not skip. -/
def DropEntry.owns (e : DropEntry) : Bool :=
  e.kind ≠ .none && e.kind ≠ .region && e.kind ≠ .linearView && !e.isMoved && !e.isBorrowed

/-- The position of the newest entry that satisfies the test. -/
def newest (p : DropEntry → Bool) (entries : List DropEntry) : Option Nat :=
  (entries.zipIdx.reverse.find? fun e => p e.1).map (·.2)

/-- A report of the check: where the String and the view stand among the entries. -/
structure Diagnostic where
  parent : Nat
  view : Nat
  line : Int
  message : String
  deriving DecidableEq, Repr

variable (dp : DropPlanner)

namespace DropPlanner

def init : DropPlanner := { entries := [], currentScope := 0, scopeStart := fun _ => 0 }

def reset : DropPlanner :=
  { entries := [], currentScope := 0, scopeStart := update dp.scopeStart 0 0 }

/-- `none` where the assertion fails. A build without assertions writes behind
`scope_start` there. -/
def enterScope : Option DropPlanner :=
  if dp.currentScope + 1 < maxDropScopes then
    some { dp with
      currentScope := dp.currentScope + 1
      scopeStart := update dp.scopeStart (dp.currentScope + 1) dp.entries.length }
  else none

/-- `none` where the assertion fails. A build without assertions counts below
the outermost scope. -/
def exitScope : Option DropPlanner :=
  if 0 < dp.currentScope then
    some { dp with
      entries := dp.entries.take (dp.scopeStart dp.currentScope)
      currentScope := dp.currentScope - 1 }
  else none

/-- Both registrations put an entry of the current scope behind the others. `none` where the
assertion fails; a build without assertions writes behind `entries`, over the
planner's own counters. -/
def push (e : DropEntry) : Option DropPlanner :=
  if dp.entries.length < maxDropEntries then
    some { dp with entries := dp.entries ++ [{ e with scopeLevel := dp.currentScope }] }
  else none

def register (varName : Option String) (stackOffset : Int) (kind : DropKind)
    (dtorName : Option String) (isParam : Bool) : Option DropPlanner :=
  dp.push
    { varName := varName
      scopeLevel := dp.currentScope
      stackOffset := stackOffset
      kind := kind
      dtorName := dtorName
      isParam := isParam }

def registerLinearView (viewName parentStringName : Option String)
    (declLine : Int) : Option DropPlanner :=
  dp.push
    { varName := viewName
      scopeLevel := dp.currentScope
      kind := .linearView
      isBorrowed := true
      parentName := parentStringName
      declLine := declLine }

def findEntry (varName : String) : Option Nat :=
  newest (fun e => e.varName = some varName) dp.entries

def modifyEntry (varName : String) (f : DropEntry → DropEntry) : DropPlanner :=
  match dp.findEntry varName with
  | some i => { dp with entries := dp.entries.modify i f }
  | none => dp

def markMoved (varName : String) : DropPlanner :=
  dp.modifyEntry varName fun e => { e with isMoved := true }

def markBorrowed (varName : String) : DropPlanner :=
  dp.modifyEntry varName fun e => { e with isBorrowed := true }

/-- The drops of the current scope, last declared first. -/
def getScopeDrops : List DropEntry :=
  (dp.entries.drop (dp.scopeStart dp.currentScope)).reverse.filter DropEntry.owns

/-- The drops of an early exit: the walk stops at the first entry of a scope further out. -/
def getDropsToScope (targetScope : Nat) : List DropEntry :=
  (dp.entries.reverse.takeWhile fun e =>
    decide (targetScope ≤ e.scopeLevel)).filter DropEntry.owns

/-- A view of a scope further out that names the String as its parent. -/
def survives (parent view : DropEntry) : Bool :=
  view.kind = .linearView && view.parentName.isSome && view.parentName = parent.varName &&
    decide (view.scopeLevel < parent.scopeLevel)

/-- The message is cut to what its buffer holds. -/
def message (parent view : DropEntry) (dropLine : Int) : String :=
  let name (str : Option String) := str.getD "(null)"
  ((s!"Cannot drop String '{name parent.varName}' at line {dropLine}: linear StringView " ++
    s!"'{name view.varName}' (declared at line {view.declLine}, outer scope {view.scopeLevel}) " ++
    "still borrows it -- the view would dangle past parent free").take 383).toString

def checkStringDropInvariants (dropLine : Int) : List Diagnostic :=
  ((dp.entries.zipIdx.drop (dp.scopeStart dp.currentScope)).filter fun parent =>
      parent.1.varName.isSome && parent.1.owns).flatMap fun parent =>
    (dp.entries.zipIdx.filter fun view => survives parent.1 view.1).map fun view =>
      { parent := parent.2
        view := view.2
        line := dropLine
        message := message parent.1 view.1 dropLine }

end DropPlanner

inductive DropOp where
  | init
  | reset
  | enterScope
  | exitScope
  | register (varName : Option String) (stackOffset : Int) (kind : DropKind)
      (dtorName : Option String) (isParam : Bool)
  | registerLinearView (viewName parentStringName : Option String) (declLine : Int)
  | markMoved (varName : String)
  | markBorrowed (varName : String)

namespace DropPlanner

def apply : DropOp → Option DropPlanner
  | .init => some DropPlanner.init
  | .reset => some dp.reset
  | .enterScope => dp.enterScope
  | .exitScope => dp.exitScope
  | .register varName stackOffset kind dtorName isParam =>
    dp.register varName stackOffset kind dtorName isParam
  | .registerLinearView viewName parentStringName declLine =>
    dp.registerLinearView viewName parentStringName declLine
  | .markMoved varName => some (dp.markMoved varName)
  | .markBorrowed varName => some (dp.markBorrowed varName)

/-- The planner has room for what the operation adds, and a scope to leave. -/
def Fits : DropOp → Prop
  | .enterScope => dp.currentScope + 1 < maxDropScopes
  | .exitScope => 0 < dp.currentScope
  | .register .. | .registerLinearView .. => dp.entries.length < maxDropEntries
  | .init | .reset | .markMoved _ | .markBorrowed _ => True

instance (dp : DropPlanner) : ∀ op, Decidable (dp.Fits op)
  | .enterScope => inferInstanceAs (Decidable (dp.currentScope + 1 < maxDropScopes))
  | .exitScope => inferInstanceAs (Decidable (0 < dp.currentScope))
  | .register .. | .registerLinearView .. =>
    inferInstanceAs (Decidable (dp.entries.length < maxDropEntries))
  | .init | .reset | .markMoved _ | .markBorrowed _ => isTrue trivial

theorem exists_apply {dp : DropPlanner} {op : DropOp} (h : dp.Fits op) :
    ∃ after, dp.apply op = some after := by
  cases op with
  | enterScope => exact ⟨_, if_pos h⟩
  | exitScope => exact ⟨_, if_pos h⟩
  | register => exact ⟨_, if_pos h⟩
  | registerLinearView => exact ⟨_, if_pos h⟩
  | init | reset | markMoved | markBorrowed => exact ⟨_, rfl⟩

/-- The planners that some sequence of operations leads to. -/
inductive Reachable : DropPlanner → Prop where
  | init : Reachable DropPlanner.init
  | step {dp after : DropPlanner} {op : DropOp} (prior : Reachable dp)
      (last : dp.apply op = some after) : Reachable after

/-- The entries from a scope's bookmark on are those of that scope and the deeper ones. -/
def Layered : Prop :=
  Segmented DropEntry.scopeLevel dp.scopeStart dp.currentScope dp.entries

theorem layered_modifyEntry {dp : DropPlanner} (h : dp.Layered) (varName : String)
    {f : DropEntry → DropEntry} (hf : ∀ e, (f e).scopeLevel = e.scopeLevel) :
    (dp.modifyEntry varName f).Layered := by
  unfold modifyEntry
  cases dp.findEntry varName with
  | none => exact h
  | some i =>
    apply Segmented.congr h
    change (dp.entries.modify i f).map DropEntry.scopeLevel = _
    apply ext_getElem?
    intro n
    rw [getElem?_map, getElem?_map, getElem?_modify]
    cases dp.entries[n]? with
    | none => rfl
    | some e =>
      by_cases hi : i = n
      · simp [hi, hf]
      · simp [hi]

theorem layered_push {dp after : DropPlanner} {e : DropEntry} (h : dp.Layered)
    (hPush : dp.push e = some after) : after.Layered := by
  unfold push at hPush
  split at hPush
  · cases hPush
    exact Segmented.push h rfl
  · cases hPush

theorem layered_apply {dp after : DropPlanner} {op : DropOp} (h : dp.Layered)
    (hApply : dp.apply op = some after) : after.Layered := by
  cases op with
  | init =>
    cases hApply
    exact Segmented.nil rfl
  | reset =>
    cases hApply
    exact Segmented.nil (update_self 0 0 dp.scopeStart)
  | enterScope =>
    simp only [apply, enterScope] at hApply
    split at hApply
    · cases hApply
      exact Segmented.enter h
    · cases hApply
  | exitScope =>
    simp only [apply, exitScope] at hApply
    split at hApply
    case isTrue hPos =>
      cases hApply
      have hScope : dp.currentScope = dp.currentScope - 1 + 1 := by omega
      unfold Layered at h ⊢
      rw [hScope] at h
      rw [hScope]
      exact h.leave
    case isFalse => cases hApply
  | register varName stackOffset kind dtorName isParam => exact layered_push h hApply
  | registerLinearView viewName parentStringName declLine => exact layered_push h hApply
  | markMoved varName | markBorrowed varName =>
    cases hApply
    exact layered_modifyEntry h varName fun _ => rfl

theorem Reachable.layered {dp : DropPlanner} (h : Reachable dp) : dp.Layered := by
  induction h with
  | init => exact Segmented.nil rfl
  | step prior last ih => exact layered_apply ih last

/-- A String is registered with one of the kinds that release it. -/
def isString (e : DropEntry) : Bool :=
  e.kind ≠ .none && e.kind ≠ .region && e.kind ≠ .linearView

/-- The innermost String of that name. -/
def newestString (name : String) : Option Nat :=
  newest (fun e => e.varName = some name && isString e) dp.entries

/-- A view that names a parent names one that is visible. -/
def Names : DropOp → Prop
  | .registerLinearView _ (some name) _ => (dp.newestString name).isSome = true
  | _ => True

instance (dp : DropPlanner) : ∀ op, Decidable (dp.Names op)
  | .registerLinearView _ (some name) _ =>
    inferInstanceAs (Decidable ((dp.newestString name).isSome = true))
  | .registerLinearView _ none _ | .init | .reset | .enterScope | .exitScope | .register ..
  | .markMoved _ | .markBorrowed _ => isTrue trivial

/-- For each entry the place of its parent, written down when the entry is registered. -/
def parentsAfter (parents : List (Option Nat)) : DropOp → List (Option Nat)
  | .init | .reset => []
  | .exitScope => parents.take (dp.scopeStart dp.currentScope)
  | .register .. => parents ++ [none]
  | .registerLinearView _ parentStringName _ => parents ++ [parentStringName.bind dp.newestString]
  | .enterScope | .markMoved _ | .markBorrowed _ => parents

/-- The planners of the runs whose views name visible parents, with the parents' places. -/
inductive Tracks : DropPlanner → List (Option Nat) → Prop where
  | init : Tracks DropPlanner.init []
  | step {dp after : DropPlanner} {parents : List (Option Nat)} {op : DropOp}
      (prior : Tracks dp parents) (names : dp.Names op) (last : dp.apply op = some after) :
      Tracks after (dp.parentsAfter parents op)

/-- The check reports this String and this view. -/
def Reports (dropLine : Int) (i j : Nat) : Prop :=
  ∃ d ∈ dp.checkStringDropInvariants dropLine, d.parent = i ∧ d.view = j

/-- The exit drops the parent of a view of a scope further out. -/
def LeavesDangling (parents : List (Option Nat)) (i j : Nat) : Prop :=
  parents[j]? = some (some i) ∧ dp.scopeStart dp.currentScope ≤ i ∧
    (∃ parent ∈ dp.entries[i]?, parent.owns) ∧
    ∃ view ∈ dp.entries[j]?, view.scopeLevel < dp.currentScope

/-- Nothing that the exit drops has the name of the parent of a view of a scope further out. -/
def NoNamesake : Prop :=
  ∀ parent ∈ dp.entries.drop (dp.scopeStart dp.currentScope), parent.owns →
    ∀ view ∈ dp.entries, view.kind = .linearView → view.scopeLevel < dp.currentScope →
      ∀ name ∈ view.parentName, parent.varName ≠ some name

theorem Tracks.reachable {dp : DropPlanner} {parents : List (Option Nat)} (h : Tracks dp parents) :
    Reachable dp := by
  induction h with
  | init => exact Reachable.init
  | step prior names last ih => exact Reachable.step ih last

theorem newest_lt {p : DropEntry → Bool} {entries : List DropEntry} {i : Nat}
    (h : newest p entries = some i) : i < entries.length := by
  obtain ⟨⟨e, n⟩, hFind, rfl⟩ := Option.map_eq_some_iff.mp h
  have hMem := mem_reverse.mp (mem_of_find?_eq_some hFind)
  have hLt := snd_lt_add_of_mem_zipIdx hMem
  simpa using hLt

/-- A place is written down for each entry, and a parent stands before its view. -/
structure ParentsBefore (dp : DropPlanner) (parents : List (Option Nat)) : Prop where
  length_eq : parents.length = dp.entries.length
  lt : ∀ i j : Nat, parents[j]? = some (some i) → i < j

namespace ParentsBefore

variable {dp : DropPlanner} {parents : List (Option Nat)}

theorem push {after : DropPlanner} {e : DropEntry} {parent : Option Nat}
    (h : ParentsBefore dp parents) (hPush : dp.push e = some after)
    (hParent : ∀ i ∈ parent, i < dp.entries.length) :
    ParentsBefore after (parents ++ [parent]) := by
  rw [DropPlanner.push] at hPush
  split at hPush
  · cases hPush
    refine ⟨by simp [h.length_eq], fun i j hj => ?_⟩
    rw [getElem?_append] at hj
    split at hj
    · exact h.lt i j hj
    case isFalse hGe =>
      rw [getElem?_singleton] at hj
      split at hj
      · have hLt := hParent i (Option.some.inj hj)
        have := h.length_eq
        omega
      · cases hj
  · cases hPush

theorem modifyEntry (h : ParentsBefore dp parents) (varName : String)
    (f : DropEntry → DropEntry) : ParentsBefore (dp.modifyEntry varName f) parents := by
  unfold DropPlanner.modifyEntry
  cases dp.findEntry varName with
  | none => exact h
  | some i => exact ⟨by simp [h.length_eq], h.lt⟩

theorem apply {after : DropPlanner} {op : DropOp} (h : ParentsBefore dp parents)
    (hApply : dp.apply op = some after) : ParentsBefore after (dp.parentsAfter parents op) := by
  cases op with
  | init | reset =>
    cases hApply
    exact ⟨rfl, fun i j hj => by cases hj⟩
  | enterScope =>
    simp only [DropPlanner.apply, enterScope] at hApply
    split at hApply
    · cases hApply
      exact ⟨h.length_eq, h.lt⟩
    · cases hApply
  | exitScope =>
    simp only [DropPlanner.apply, exitScope] at hApply
    split at hApply
    · cases hApply
      refine ⟨by simp [parentsAfter, h.length_eq], fun i j hj => h.lt i j ?_⟩
      rw [parentsAfter, getElem?_take] at hj
      split at hj
      · exact hj
      · cases hj
    · cases hApply
  | register varName stackOffset kind dtorName isParam =>
    exact h.push hApply fun i hi => by cases hi
  | registerLinearView viewName parentStringName declLine =>
    apply h.push hApply
    intro i hi
    cases parentStringName with
    | none => cases hi
    | some name => exact newest_lt (show dp.newestString name = some i from hi)
  | markMoved varName | markBorrowed varName =>
    cases hApply
    exact h.modifyEntry varName _

end ParentsBefore

theorem Tracks.parentsBefore {dp : DropPlanner} {parents : List (Option Nat)}
    (h : Tracks dp parents) : ParentsBefore dp parents := by
  induction h with
  | init => exact ⟨rfl, fun i j hj => by cases hj⟩
  | step prior names last ih => exact ih.apply last

/-- A view is registered in the scope of its parent or a deeper one, so that it is gone
when its parent is dropped. -/
theorem Tracks.not_leavesDangling {dp : DropPlanner} {parents : List (Option Nat)}
    (h : Tracks dp parents) (i j : Nat) : ¬ dp.LeavesDangling parents i j := by
  rintro ⟨hParent, hStart, -, view, hView, hOuter⟩
  have hBefore := h.parentsBefore.lt i j hParent
  have hBehind : view ∈ dp.entries.drop (dp.scopeStart dp.currentScope) := by
    apply mem_of_getElem? (i := j - dp.scopeStart dp.currentScope)
    rw [getElem?_drop, Nat.add_sub_cancel' (by omega)]
    exact hView
  have hLevel := h.reachable.layered.behind _ le_rfl view hBehind
  omega

theorem mem_checkStringDropInvariants {dp : DropPlanner} {dropLine : Int} {d : Diagnostic} :
    d ∈ dp.checkStringDropInvariants dropLine ↔
      ∃ parent ∈ dp.entries.zipIdx.drop (dp.scopeStart dp.currentScope),
        parent.1.varName.isSome ∧ parent.1.owns ∧
        ∃ view ∈ dp.entries.zipIdx, survives parent.1 view.1 ∧
          d = ⟨parent.2, view.2, dropLine, message parent.1 view.1 dropLine⟩ := by
  simp only [checkStringDropInvariants, mem_flatMap, mem_filter, mem_map, Bool.and_eq_true]
  constructor
  · rintro ⟨parent, ⟨hMem, hName, hOwns⟩, view, ⟨hView, hSurvives⟩, rfl⟩
    exact ⟨parent, hMem, hName, hOwns, view, hView, hSurvives, rfl⟩
  · rintro ⟨parent, hMem, hName, hOwns, view, hView, hSurvives, rfl⟩
    exact ⟨parent, ⟨hMem, hName, hOwns⟩, view, ⟨hView, hSurvives⟩, rfl⟩

theorem checkStringDropInvariants_eq_nil {dp : DropPlanner} (h : dp.Layered) (dropLine : Int) :
    dp.checkStringDropInvariants dropLine = [] ↔ dp.NoNamesake := by
  have hLevel : ∀ e ∈ dp.entries.drop (dp.scopeStart dp.currentScope),
      e.scopeLevel = dp.currentScope := fun e he =>
    le_antisymm (Segmented.depth_le h e (mem_of_mem_drop he)) (Segmented.behind h _ le_rfl e he)
  have hFst : dp.entries.zipIdx.map Prod.fst = dp.entries := zipIdx_map_fst 0 dp.entries
  rw [eq_nil_iff_forall_not_mem]
  constructor
  · intro hNone parent hParent hOwns view hView hKind hOuter name hName hSame
    rw [← hFst, ← map_drop] at hParent
    rw [← hFst] at hView
    obtain ⟨p, hp, rfl⟩ := mem_map.mp hParent
    obtain ⟨v, hv, rfl⟩ := mem_map.mp hView
    have hScope := hLevel p.1 (by
      have hMem := mem_map_of_mem (f := Prod.fst) hp
      rwa [map_drop, hFst] at hMem)
    have hSurvives : survives p.1 v.1 = true := by
      have hNamed : v.1.parentName = some name := hName
      simp [survives, hKind, hNamed, hSame, hScope, hOuter]
    exact hNone _ (mem_checkStringDropInvariants.mpr
      ⟨p, hp, by rw [hSame]; rfl, hOwns, v, hv, hSurvives, rfl⟩)
  · intro hNo d hd
    obtain ⟨p, hp, -, hOwns, v, hv, hSurvives, -⟩ := mem_checkStringDropInvariants.mp hd
    have hParent : p.1 ∈ dp.entries.drop (dp.scopeStart dp.currentScope) := by
      have hMem := mem_map_of_mem (f := Prod.fst) hp
      rwa [map_drop, hFst] at hMem
    have hView : v.1 ∈ dp.entries := by
      have hMem := mem_map_of_mem (f := Prod.fst) hv
      rwa [hFst] at hMem
    simp only [survives, Bool.and_eq_true, decide_eq_true_eq, Option.isSome_iff_exists] at hSurvives
    obtain ⟨⟨⟨hKind, name, hName⟩, hSame⟩, hOuter⟩ := hSurvives
    apply hNo p.1 hParent hOwns v.1 hView hKind (hLevel p.1 hParent ▸ hOuter) name hName
    rw [← hSame, hName]

theorem Tracks.exact_iff {dp : DropPlanner} {parents : List (Option Nat)} (h : Tracks dp parents)
    (dropLine : Int) :
    (∀ i j, dp.Reports dropLine i j ↔ dp.LeavesDangling parents i j) ↔ dp.NoNamesake := by
  rw [← checkStringDropInvariants_eq_nil h.reachable.layered dropLine, eq_nil_iff_forall_not_mem]
  constructor
  · intro hExact d hd
    exact h.not_leavesDangling _ _ ((hExact d.parent d.view).mp ⟨d, hd, rfl, rfl⟩)
  · intro hSilent i j
    constructor
    · rintro ⟨d, hd, -⟩
      exact absurd hd (hSilent d)
    · intro hDangling
      exact absurd hDangling (h.not_leavesDangling i j)

/-- An operation on the planner and on the places of the parents. -/
def trackStep (op : DropOp) (tracked : DropPlanner × List (Option Nat)) :
    Option (DropPlanner × List (Option Nat)) :=
  (tracked.1.apply op).map fun after => (after, tracked.1.parentsAfter tracked.2 op)

/-- The view names a visible parent, and the planner has room. -/
def TrackFits (op : DropOp) (tracked : DropPlanner × List (Option Nat)) : Prop :=
  tracked.1.Names op ∧ tracked.1.Fits op

instance (op : DropOp) (tracked : DropPlanner × List (Option Nat)) :
    Decidable (TrackFits op tracked) :=
  inferInstanceAs (Decidable (_ ∧ _))

/-- After operations that the planner has room for and whose views name visible parents, the check
is exact where no entry about to be dropped shadows the parent of a view of a scope further out. -/
theorem check_exact_iff (ops : List DropOp) (hFits : CallsMeet trackStep TrackFits ops (init, [])) :
    ∃ dp parents, runCalls trackStep ops (init, []) = some (dp, parents) ∧ ∀ dropLine,
      (∀ i j, dp.Reports dropLine i j ↔ dp.LeavesDangling parents i j) ↔ dp.NoNamesake := by
  have hStep : ∀ op (tracked : DropPlanner × List (Option Nat)), Tracks tracked.1 tracked.2 →
      TrackFits op tracked → ∃ next, trackStep op tracked = some next ∧
        Tracks next.1 next.2 := by
    intro op tracked hTracks hFit
    obtain ⟨after, hApply⟩ := exists_apply hFit.2
    exact ⟨_, by rw [trackStep, hApply, Option.map_some], hTracks.step hFit.1 hApply⟩
  obtain ⟨⟨dp, parents⟩, hRun, hTracks⟩ := exists_runCalls hStep .init hFits
  exact ⟨dp, parents, hRun, hTracks.exact_iff⟩

/-- A String, its view, and in an inner scope a String of the same name. -/
def shadowing : List DropOp :=
  [.enterScope, .register (some "s") 0 .dtor (some "string_release") false,
    .registerLinearView (some "v") (some "s") 2, .enterScope,
    .register (some "s") 0 .dtor (some "string_release") false]

theorem check_exact_shadowing_iff : ∃ dp parents,
    runCalls trackStep shadowing (init, []) = some (dp, parents) ∧ ∀ dropLine,
      (∀ i j, dp.Reports dropLine i j ↔ dp.LeavesDangling parents i j) ↔ dp.NoNamesake :=
  check_exact_iff shadowing (by decide)

/-- The check reports the outer view for the inner String. -/
theorem check_not_exact : ¬∃ dp parents,
    runCalls trackStep shadowing (init, []) = some (dp, parents) ∧ ∀ dropLine i j,
      dp.Reports dropLine i j ↔ dp.LeavesDangling parents i j := by
  rintro ⟨dp, parents, hRun, hExact⟩
  cases hRun
  obtain ⟨hParent, -⟩ := (hExact 5 2 1).mp ⟨_, mem_checkStringDropInvariants.mpr
    ⟨_, mem_cons_self, rfl, rfl, _, mem_cons_of_mem _ mem_cons_self, rfl, rfl⟩, rfl, rfl⟩
  cases hParent

/-- The drops of the current scope, then those of its parent after leaving it, and so on
for so many scopes. -/
def dropsScopeByScope : Nat → DropPlanner → Option (List DropEntry)
  | 0, dp => some dp.getScopeDrops
  | n + 1, dp =>
    dp.exitScope.bind fun after =>
      (dropsScopeByScope n after).map (dp.getScopeDrops ++ ·)

theorem getDropsToScope_eq {dp : DropPlanner} (h : dp.Layered) {targetScope : Nat}
    (ht : targetScope ≤ dp.currentScope) :
    dp.getDropsToScope targetScope =
      (dp.entries.drop (dp.scopeStart targetScope)).reverse.filter DropEntry.owns := by
  rw [getDropsToScope, Segmented.takeWhile_reverse h ht]

theorem dropsScopeByScope_eq {dp : DropPlanner} (h : dp.Layered) (n : Nat) {targetScope : Nat}
    (ht : targetScope + n = dp.currentScope) :
    dropsScopeByScope n dp = some (dp.getDropsToScope targetScope) := by
  induction n generalizing dp with
  | zero =>
    have hSame : targetScope = dp.currentScope := ht
    rw [getDropsToScope_eq h hSame.le, hSame]
    rfl
  | succ n ih =>
    obtain ⟨after, hExit⟩ : ∃ after, dp.exitScope = some after :=
      ⟨_, if_pos (show 0 < dp.currentScope by omega)⟩
    have hAfter : after.Layered :=
      layered_apply h (show dp.apply .exitScope = some after from hExit)
    have hShape : after = { dp with
        entries := dp.entries.take (dp.scopeStart dp.currentScope)
        currentScope := dp.currentScope - 1 } := by
      rw [exitScope, if_pos (show 0 < dp.currentScope by omega)] at hExit
      exact (Option.some.inj hExit).symm
    have hScope : targetScope + n = after.currentScope := by
      rw [hShape]
      change targetScope + n = dp.currentScope - 1
      omega
    have hSplit : dp.entries.drop (dp.scopeStart targetScope) =
        after.entries.drop (after.scopeStart targetScope) ++
          dp.entries.drop (dp.scopeStart dp.currentScope) := by
      have hMono : dp.scopeStart targetScope ≤ dp.scopeStart dp.currentScope :=
        Segmented.start_mono h (show targetScope ≤ dp.currentScope by omega) le_rfl
      have hBound : dp.scopeStart dp.currentScope ≤ dp.entries.length :=
        Segmented.start_le h _ le_rfl
      conv_lhs =>
        rw [← take_append_drop (dp.scopeStart dp.currentScope) dp.entries]
      rw [hShape, drop_append_of_le_length]
      rw [length_take]
      exact le_min hMono (hMono.trans hBound)
    rw [dropsScopeByScope, hExit, Option.bind_some, ih hAfter hScope, Option.map_some,
      getDropsToScope_eq hAfter (by omega), getDropsToScope_eq h (by omega), hSplit,
      reverse_append, filter_append]
    rfl

/-- An early exit drops what leaving the scopes one after the other drops: of the scopes
left, each entry that owns its value once, the last declared first. -/
structure DropsScopeByScope (dp : DropPlanner) (targetScope : Nat) : Prop where
  concat : dropsScopeByScope (dp.currentScope - targetScope) dp =
    some (dp.getDropsToScope targetScope)
  once : dp.getDropsToScope targetScope =
    ((dp.entries.filter fun e =>
      decide (targetScope ≤ e.scopeLevel)).filter DropEntry.owns).reverse
  leaves : ∀ after, dp.exitScope = some after → ∃ left, dp.entries = after.entries ++ left ∧
    dp.getScopeDrops = (left.filter DropEntry.owns).reverse

theorem Reachable.dropsScopeByScope {dp : DropPlanner} (h : Reachable dp) {targetScope : Nat}
    (ht : targetScope ≤ dp.currentScope) : DropsScopeByScope dp targetScope := by
  refine ⟨dropsScopeByScope_eq h.layered _ (by omega), ?_, ?_⟩
  · rw [getDropsToScope_eq h.layered ht, Segmented.filter_eq_drop h.layered ht, filter_reverse]
  · intro after hExit
    rw [exitScope] at hExit
    split at hExit
    · cases hExit
      refine ⟨dp.entries.drop (dp.scopeStart dp.currentScope), (take_append_drop _ _).symm, ?_⟩
      rw [getScopeDrops, filter_reverse]
    · cases hExit

/-- After operations that the planner has room for, an early exit to any scope drops what leaving
the scopes one after the other drops. -/
theorem drops_scopeByScope (ops : List DropOp)
    (hFits : CallsMeet (fun op dp => dp.apply op) (fun op dp => dp.Fits op) ops init) :
    ∃ dp, runCalls (fun op dp => dp.apply op) ops init = some dp ∧
      ∀ targetScope ≤ dp.currentScope, DropsScopeByScope dp targetScope := by
  have hStep : ∀ op (dp : DropPlanner), Reachable dp → dp.Fits op →
      ∃ after, dp.apply op = some after ∧ Reachable after := by
    intro op dp hReachable hFit
    obtain ⟨after, hApply⟩ := exists_apply hFit
    exact ⟨after, hApply, hReachable.step hApply⟩
  obtain ⟨dp, hRun, hReachable⟩ := exists_runCalls hStep .init hFits
  exact ⟨dp, hRun, fun _ ht => hReachable.dropsScopeByScope ht⟩

theorem drops_scopeByScope_shadowing : ∃ dp,
    runCalls (fun op dp => dp.apply op) shadowing init = some dp ∧
      ∀ targetScope ≤ dp.currentScope, DropsScopeByScope dp targetScope :=
  drops_scopeByScope shadowing (by decide)

/-- The 257th entry has no room, and the 32nd scope neither. -/
theorem drops_overflow : (¬∃ dp, runCalls (fun op dp => dp.apply op)
      (replicate 257 (.register none 0 .dtor none false)) init = some dp ∧
        ∀ targetScope ≤ dp.currentScope, DropsScopeByScope dp targetScope) ∧
    ¬∃ dp, runCalls (fun op dp => dp.apply op) (replicate 32 .enterScope) init = some dp ∧
      ∀ targetScope ≤ dp.currentScope, DropsScopeByScope dp targetScope := by
  constructor
  · rintro ⟨dp, hRun, -⟩
    have hNone : (runCalls (fun op dp => DropPlanner.apply dp op)
        (replicate 257 (.register none 0 .dtor none false)) init).isNone = true := by decide +kernel
    rw [hRun] at hNone
    cases hNone
  · rintro ⟨dp, hRun, -⟩
    have hNone : (runCalls (fun op dp => DropPlanner.apply dp op)
        (replicate 32 .enterScope) init).isNone = true := by decide +kernel
    rw [hRun] at hNone
    cases hNone

end DropPlanner

end Casprix.Sema
