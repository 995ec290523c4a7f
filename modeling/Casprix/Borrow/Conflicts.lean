import Casprix.Borrow.LiveValues
import Casprix.Borrow.MovePrecision

/-! Borrows along a path, and what the checker sees of them: which conflicts it
reports, and which overlaps a clean report rules out. -/
namespace Casprix.Borrow

open List Casprix.Mir Library

/-- An executed instruction, with the block that control came from. -/
structure Step where
  pred : MirBlockRef
  inst : MirInst

namespace Step

/-- The values read by the step: of its edges a PHI reads the one control came by. -/
def reads (step : Step) : List MirValueId :=
  match step.inst.op with
  | .phi edges => (edges.filter (·.block = step.pred)).map (·.value)
  | op => op.operands

theorem mem_operands_of_mem_reads {step : Step} {v : MirValueId} (h : v ∈ step.reads) :
    v ∈ step.inst.op.operands := by
  unfold reads at h
  split at h
  · next edges hOp =>
      rw [hOp]
      obtain ⟨edge, hEdge, rfl⟩ := mem_map.mp h
      exact mem_map_of_mem (mem_of_mem_filter hEdge)
  · exact h

end Step

def stepsIn (pred : MirBlockRef) (insts : List MirInst) : List Step := insts.map (Step.mk pred)

/-- The steps of a path entered from `pred`. -/
def pathSteps (func : MirFunction) : MirBlockRef → List MirBlockId → List Step
  | _, [] => []
  | pred, b :: path => stepsIn pred (func.insts b) ++ pathSteps func (some b) path

/-- Some step reads the value, and none before it defines it. -/
def UsedNext (v : MirValueId) : List Step → Prop
  | [] => False
  | step :: steps => v ∈ step.reads ∨ (step.inst.result ≠ v ∧ UsedNext v steps)

section

variable {func : MirFunction} {v : MirValueId}

theorem usedNext_append_of_kept {steps rest : List Step}
    (hKept : ∀ s ∈ steps, s.inst.result ≠ v)
    (h : UsedNext v rest) : UsedNext v (steps ++ rest) := by
  induction steps with
  | nil => exact h
  | cons step steps ih =>
    refine .inr ⟨hKept step mem_cons_self, ih fun s hs => ?_⟩
    exact hKept s (mem_cons_of_mem _ hs)

theorem usedNext_stepsIn_append {pred : MirBlockRef} {insts : List MirInst} {rest : List Step}
    (h : UsedNext v (stepsIn pred insts ++ rest)) :
    UsedFirst v insts ∨ ((∀ inst ∈ insts, inst.result ≠ v) ∧ UsedNext v rest) := by
  induction insts with
  | nil => exact .inr ⟨by simp, h⟩
  | cons inst insts ih =>
    rcases h with hRead | ⟨hKept, hLater⟩
    · exact .inl (.inl (Step.mem_operands_of_mem_reads hRead))
    · rcases ih hLater with hUsed | ⟨hRest, hPast⟩
      · exact .inl (.inr ⟨hKept, hUsed⟩)
      · exact .inr ⟨by simpa [hKept] using hRest, hPast⟩

theorem exists_read_of_usedFirst {insts : List MirInst} (h : UsedFirst v insts) :
    ∃ inst ∈ insts, v ∈ inst.op.operands := by
  induction insts with
  | nil => exact h.elim
  | cons inst insts ih =>
    rcases h with hRead | ⟨_, hLater⟩
    · exact ⟨inst, mem_cons_self, hRead⟩
    · obtain ⟨later, hMem, hRead⟩ := ih hLater
      exact ⟨later, mem_cons_of_mem _ hMem, hRead⟩

theorem readAhead_of_usedNext (hCfg : func.CfgConsistent) {pred : MirBlockRef} {b : MirBlockId}
    {path : List MirBlockId} (hPath : func.IsPath (b :: path))
    (h : UsedNext v (pathSteps func pred (b :: path))) : ReadAhead func v b := by
  induction path generalizing pred b with
  | nil =>
    rcases usedNext_stepsIn_append h with hUsed | ⟨_, hPast⟩
    · exact .here hUsed
    · exact hPast.elim
  | cons next path ih =>
    obtain ⟨hEdge, hNext⟩ := MirFunction.isPath_cons_cons.mp hPath
    rcases usedNext_stepsIn_append h with hUsed | ⟨hKept, hPast⟩
    · exact .here hUsed
    · exact .later hKept ((hCfg.mem_successors_iff b next).mpr hEdge) (ih hNext hPast)

end

/-- A point of a path from the entry block, between two instructions. -/
structure Point (func : MirFunction) where
  front : List MirBlockId
  block : MirBlockId
  before : List MirInst
  after : List MirInst
  split : func.insts block = before ++ after
  isEntryPath : func.IsEntryPath (front ++ [block])

namespace Point

variable {func : MirFunction}

def pred (p : Point func) : MirBlockRef := p.front.getLast?

/-- The steps executed on the way to the point. -/
def done (p : Point func) : List Step :=
  pathSteps func none p.front ++ stepsIn p.pred p.before

/-- The steps of a continuation through the blocks `more`. -/
def ahead (p : Point func) (more : List MirBlockId) : List Step :=
  stepsIn p.pred p.after ++ pathSteps func (some p.block) more

/-- Some continuation uses the value before defining it again. -/
def LiveAt (p : Point func) (v : MirValueId) : Prop :=
  v ≠ 0 ∧ ∃ more, func.IsPath (p.block :: more) ∧ UsedNext v (p.ahead more)

/-- The borrow was made on the way and its value has not been defined since. -/
def Holds (p : Point func) (borrow : MirBorrow) : Prop :=
  ∃ before made after, p.done = before ++ made :: after ∧ borrowOf? made.inst = some borrow ∧
    ∀ step ∈ after, step.inst.result ≠ borrow.borrowId

end Point

section

variable {func : MirFunction}

/-- The value is read at the site, later in its block, or along the successor
lists before a block defines it. -/
def SeenActive (site : Site func) (v : MirValueId) : Prop :=
  v ∈ site.inst.op.operands ∨
    (v ≠ 0 ∧ v < func.nextValueId ∧ ((∃ later ∈ site.after, v ∈ later.op.operands) ∨
      ∃ next ∈ func.successors site.block, ReadAhead func v next))

/-- At the site of the borrow `new` the tracked borrow `existing` of the same
source seems active, and the two exclude each other. -/
structure SeenConflict (site : Site func) (new existing : MirBorrow) : Prop where
  made : borrowOf? site.inst = some new
  tracked : existing ∈ trackedBorrows func
  other : existing.borrowId ≠ new.borrowId
  sameSource : existing.sourceId = new.sourceId
  mutable : existing.kind = .mutable ∨ new.kind = .mutable
  active : SeenActive site existing.borrowId

theorem seenActive_of_countsActive {site : Site func} {v : MirValueId}
    (h : CountsActive (liveOut func site.block) site.inst site.after v) : SeenActive site v := by
  rcases h with hRead | ⟨hNe, hLt, hLater | hLive⟩
  · exact .inl hRead
  · exact .inr ⟨hNe, hLt, .inl hLater⟩
  · exact .inr ⟨hNe, hLt, .inr (readAhead_of_liveOut hNe hLt hLive)⟩

theorem countsActive_of_seenActive (hCfg : func.CfgConsistent) {site : Site func} {v : MirValueId}
    (h : SeenActive site v) : CountsActive (liveOut func site.block) site.inst site.after v := by
  rcases h with hRead | ⟨hNe, hLt, hLater | ⟨next, hNext, hAhead⟩⟩
  · exact .inl hRead
  · exact .inr ⟨hNe, hLt, .inl hLater⟩
  · exact .inr ⟨hNe, hLt, .inr (liveOut_of_readAhead hCfg hNe hLt hNext hAhead)⟩

theorem exists_conflict_iff {new existing : MirBorrowKind} :
    (∃ kind message, conflict? new existing = some (kind, message)) ↔
      existing = .mutable ∨ new = .mutable := by
  cases new <;> cases existing <;> simp [conflict?]

attribute [local simp] MirBorrowKind.op

theorem borrowOf?_eq_some_iff {inst : MirInst} {borrow : MirBorrow} :
    borrowOf? inst = some borrow ↔ inst.op = .transfer borrow.kind.op borrow.sourceId ∧
      borrow.borrowId = inst.result ∧ borrow.srcLine = inst.srcLine ∧
        borrow.srcCol = inst.srcCol := by
  unfold borrowOf?
  obtain ⟨id, source, kind, line, col⟩ := borrow
  split
  · next hOp =>
      cases kind with
      | shared => simp [hOp, eq_comm, and_left_comm]
      | mutable => simp [hOp]
  · next hOp =>
      cases kind with
      | shared => simp [hOp]
      | mutable => simp [hOp, eq_comm, and_left_comm]
  · next hShared hMutable =>
      simp only [reduceCtorEq, false_iff]
      rintro ⟨hOp, _⟩
      cases kind with
      | shared => exact hShared source hOp
      | mutable => exact hMutable source hOp

theorem MirBorrowErrorKind.move_or_conflict (kind : MirBorrowErrorKind) :
    (kind = .useAfterMove ∨ kind = .doubleMove) ∨
      (kind = .borrowConflict ∨ kind = .mutAlias) := by
  cases kind <;> simp

theorem RaisedAt.seenConflict {site : Site func} {error : MirBorrowError} (h : RaisedAt site error)
    (hKind : error.kind = .borrowConflict ∨ error.kind = .mutAlias) :
    ∃ new existing, SeenConflict site new existing ∧ error.conflicting = existing.borrowId := by
  rcases h with hMove | hConflict
  · cases hMove with
    | operand => simp at hKind
    | move => simp at hKind
  · cases hConflict with
    | @borrow kind existing errorKind message hOp hExisting hOther hActive hConflict =>
      let new : MirBorrow :=
        { borrowId := site.inst.result, sourceId := existing.sourceId, kind := kind,
          srcLine := site.inst.srcLine, srcCol := site.inst.srcCol }
      exact ⟨new, existing,
        { made := borrowOf?_eq_some_iff.mpr ⟨hOp, rfl, rfl, rfl⟩
          tracked := hExisting
          other := hOther
          sameSource := rfl
          mutable := exists_conflict_iff.mp ⟨errorKind, message, hConflict⟩
          active := seenActive_of_countsActive hActive }, rfl⟩

/-- In a consistent function every conflict seen at a site is raised there. -/
theorem SeenConflict.exists_raisedAt (hCfg : func.CfgConsistent) {site : Site func}
    {new existing : MirBorrow} (h : SeenConflict site new existing) :
    ∃ error, RaisedAt site error ∧ error.conflicting = existing.borrowId ∧
      (error.kind = .borrowConflict ∨ error.kind = .mutAlias) := by
  obtain ⟨hOp, hId, _, _⟩ := borrowOf?_eq_some_iff.mp h.made
  obtain ⟨kind, message, hConflict⟩ := exists_conflict_iff.mpr h.mutable
  rw [← h.sameSource] at hOp
  have hOther := h.other
  rw [hId] at hOther
  exact ⟨_, .inr (.borrow hOp h.tracked hOther (countsActive_of_seenActive hCfg h.active)
    hConflict), rfl, kind_of_conflict hConflict⟩

end

section

/-- On some path a borrow of `source` under the name `v` is made before the
site and used at or after it. -/
def BorrowedAcross {func : MirFunction} (site : Site func) (v source : MirValueId) : Prop :=
  ∃ p : Point func, p.block = site.block ∧ p.before = site.before ∧
    (∃ borrow, p.Holds borrow ∧ borrow.borrowId = v ∧ borrow.sourceId = source) ∧ p.LiveAt v

/-- Every report of a conflict is against a borrow held across the reported one. -/
def ConflictReportsJustified (func : MirFunction) (bc : MirBorrowChecker) : Prop :=
  ∀ (site : Site func) error, Reports func bc site error →
    error.kind = .borrowConflict ∨ error.kind = .mutAlias →
      ∃ new, borrowOf? site.inst = some new ∧ BorrowedAcross site error.conflicting new.sourceId

/-- Every borrow that seems active at a conflicting one is held across it. -/
def SeenConflictsHeld (func : MirFunction) : Prop :=
  func.isExtern = true ∨ ∀ (site : Site func) new existing, SeenConflict site new existing →
    BorrowedAcross site existing.borrowId new.sourceId

/-- The reports of conflicts are right when every borrow that seems active is
held, and for a consistent function whose errors fit the array only then. -/
theorem conflictReportsJustified_iff (func : MirFunction) (bc : MirBorrowChecker) :
    (SeenConflictsHeld func → ConflictReportsJustified func bc) ∧
      (func.CfgConsistent → (mirBorrowCheckFunction func bc).2.errors.length < maxErrors →
        (ConflictReportsJustified func bc ↔ SeenConflictsHeld func)) := by
  have hEnough : SeenConflictsHeld func → ConflictReportsJustified func bc := by
    intro hHeld site error hReport hKind
    obtain ⟨new, existing, hSeen, hId⟩ := hReport.raisedAt.seenConflict hKind
    rcases hHeld with hExtern | hHeld
    · exact absurd hReport.1 (by simp [hExtern])
    · rw [hId]
      exact ⟨new, hSeen.made, hHeld site new existing hSeen⟩
  refine ⟨hEnough, fun hCfg hRoom => ⟨fun hJustified => ?_, hEnough⟩⟩
  cases hBody : func.isExtern with
  | true => exact .inl hBody
  | false =>
    refine .inr fun site new existing hSeen => ?_
    obtain ⟨error, hRaised, hId, hKind⟩ := hSeen.exists_raisedAt hCfg
    obtain ⟨made, hMade, hAcross⟩ :=
      hJustified site error (reports_of_raisedAt bc hBody hRoom hRaised) hKind
    rw [hSeen.made] at hMade
    cases hMade
    rwa [← hId]

private theorem front_eq_nil {func : MirFunction} (hEdges : ∀ a, func.targets a = [])
    (p : Point func) : p.front = [] := by
  rcases eq_nil_or_concat p.front with hNil | ⟨front, a, hFront⟩
  · exact hNil
  · have hPath := p.isEntryPath
    rw [hFront, concat_eq_append, MirFunction.isEntryPath_concat_iff, hEdges] at hPath
    cases hPath.2

/-- A second mutable borrow is made while the first is still to be used. -/
def nestedBorrows : MirFunction where
  name := "nested_borrows"
  nextValueId := 5
  blocks := [{ insts := [{ op := .constInt 7, result := 1 },
    { op := .transfer .borrowMut 1, result := 2 }, { op := .transfer .borrowMut 1, result := 3 },
    { op := .load 2, result := 4 }, { op := .retVoid }] }]

theorem conflictReportsJustified_nestedBorrows : ConflictReportsJustified nestedBorrows {} := by
  refine ((conflictReportsJustified_iff nestedBorrows {}).2 (by decide) (by decide +kernel)).mpr
    (.inr ?_)
  rintro ⟨b, before, inst, after, hSplit⟩ new existing hSeen
  have hBlock : b = 0 := Nat.lt_one_iff.mp (MirFunction.lt_of_insts hSplit)
  subst hBlock
  have hInsts : nestedBorrows.insts 0 = [{ op := .constInt 7, result := 1 },
    { op := .transfer .borrowMut 1, result := 2 }, { op := .transfer .borrowMut 1, result := 3 },
    { op := .load 2, result := 4 }, { op := .retVoid }] := rfl
  have hExisting : existing = ⟨2, 1, .mutable, 0, 0⟩ ∨
      existing = ⟨3, 1, .mutable, 0, 0⟩ := by
    have hTracked : existing ∈ [⟨2, 1, .mutable, 0, 0⟩, ⟨3, 1, .mutable, 0, 0⟩] :=
      hSeen.tracked
    simpa using hTracked
  have hMade := hSeen.made
  have hOther := hSeen.other
  have hActive := hSeen.active
  rcases before with _ | ⟨first, _ | ⟨second, _ | ⟨third, before⟩⟩⟩
  · cases hSplit
    cases hMade
  · cases hSplit
    cases hMade
    rcases hExisting with rfl | rfl
    · exact absurd rfl hOther
    · simp [SeenActive, MirOp.operands, MirFunction.successors, MirFunction.block?,
        nestedBorrows] at hActive
  · cases hSplit
    cases hMade
    rcases hExisting with rfl | rfl
    · let p : Point nestedBorrows := ⟨[], 0, [{ op := .constInt 7, result := 1 },
        { op := .transfer .borrowMut 1, result := 2 }], _, hInsts, isChain_singleton 0, rfl⟩
      have hHolds : p.Holds ⟨2, 1, .mutable, 0, 0⟩ := by
        refine ⟨[⟨none, { op := .constInt 7, result := 1 }⟩],
          ⟨none, { op := .transfer .borrowMut 1, result := 2 }⟩, [], rfl, rfl, ?_⟩
        simp
      have hUsed : UsedNext 2 (p.ahead []) :=
        .inr ⟨Nat.succ_ne_self 2, .inl (mem_singleton.mpr rfl)⟩
      exact ⟨p, rfl, rfl, ⟨_, hHolds, rfl, rfl⟩, by decide, [], isChain_singleton 0, hUsed⟩
    · exact absurd rfl hOther
  · rcases before with _ | ⟨fourth, _ | ⟨fifth, before⟩⟩
    · cases hSplit
      cases hMade
    · cases hSplit
      cases hMade
    · simp [hInsts] at hSplit

/-- A value is borrowed twice, the second time after the last use of the first borrow. -/
def borrowsInTurn : MirFunction where
  name := "borrows_in_turn"
  nextValueId := 6
  blocks := [{ insts := [{ op := .constInt 7, result := 1 },
    { op := .transfer .borrowMut 1, result := 2 }, { op := .load 2, result := 3 },
    { op := .transfer .borrowMut 1, result := 4 }, { op := .load 4, result := 5 },
    { op := .retVoid }] }]

/-- The first borrow is reported against the second, which is not made yet. -/
theorem borrowsInTurn_not_conflictReportsJustified :
    borrowsInTurn.CfgConsistent ∧ (mirBorrowCheckFunction borrowsInTurn {}).1 = 1 ∧
      ¬ConflictReportsJustified borrowsInTurn {} := by
  refine ⟨by decide, by decide +kernel, fun hJustified => ?_⟩
  let site : Site borrowsInTurn := ⟨0, [{ op := .constInt 7, result := 1 }],
    { op := .transfer .borrowMut 1, result := 2 },
    [{ op := .load 2, result := 3 }, { op := .transfer .borrowMut 1, result := 4 },
      { op := .load 4, result := 5 }, { op := .retVoid }], rfl⟩
  have hSeen : SeenConflict site ⟨2, 1, .mutable, 0, 0⟩ ⟨4, 1, .mutable, 0, 0⟩ :=
    { made := rfl
      tracked := by decide
      other := by decide
      sameSource := rfl
      mutable := .inl rfl
      active := .inr ⟨by decide, by decide, .inl ⟨{ op := .load 4, result := 5 }, by decide,
        by decide⟩⟩ }
  obtain ⟨error, hRaised, hId, hKind⟩ := hSeen.exists_raisedAt (by decide)
  obtain ⟨_, _, p, _, hBefore,
      ⟨borrow, ⟨before, made, after, hDone, hMade, _⟩, _⟩, _⟩ :=
    hJustified site error (reports_of_raisedAt {} rfl (by decide +kernel) hRaised) hKind
  have hFront : p.front = [] := by
    refine front_eq_nil (fun a => ?_) p
    cases a with
    | zero => rfl
    | succ a => exact MirFunction.targets_eq_nil (Nat.le_add_left 1 a)
  rw [Point.done, hFront, hBefore] at hDone
  have hMem : made ∈ stepsIn p.pred site.before := by
    rw [show stepsIn p.pred site.before = before ++ made :: after from hDone]
    simp
  cases mem_singleton.mp hMem
  cases hMade

end

section

variable {func : MirFunction}

/-- At some point of some path `existing` and the later borrow `new` of the
same source are both live, and one of them is mutable. -/
def Overlap (func : MirFunction) (existing new : MirBorrow) : Prop :=
  ∃ (p : Point func) (before between after : List Step) (first second : Step),
    p.done = before ++ first :: (between ++ second :: after) ∧
    borrowOf? first.inst = some existing ∧ borrowOf? second.inst = some new ∧
    (∀ step ∈ between ++ second :: after, step.inst.result ≠ existing.borrowId) ∧
    (∀ step ∈ after, step.inst.result ≠ new.borrowId) ∧
    existing.sourceId = new.sourceId ∧ (existing.kind = .mutable ∨ new.kind = .mutable) ∧
    p.LiveAt existing.borrowId ∧ p.LiveAt new.borrowId

/-- No two borrows that exclude each other are live at once. -/
def Exclusive (func : MirFunction) : Prop := ∀ existing new, ¬Overlap func existing new

/-- A step of a path whose value is used later on is at a site that sees the use. -/
theorem exists_site_of_pathSteps (hCfg : func.CfgConsistent) {v : MirValueId} {pred : MirBlockRef}
    {path : List MirBlockId} (hPath : func.IsPath path) {before after : List Step} {step : Step}
    (hSteps : pathSteps func pred path = before ++ step :: after) (hUsed : UsedNext v after) :
    ∃ site : Site func, site.inst = step.inst ∧
      ((∃ later ∈ site.after, v ∈ later.op.operands) ∨
      ∃ next ∈ func.successors site.block, ReadAhead func v next) := by
  induction path generalizing pred before with
  | nil => simp [pathSteps] at hSteps
  | cons b path ih =>
    have hTail : func.IsPath path := hPath.tail
    rw [pathSteps, append_eq_append_iff] at hSteps
    rcases hSteps with ⟨skipped, _, hRest⟩ | ⟨tail, hInsts, hAfter⟩
    · exact ih hTail hRest
    · cases tail with
      | nil =>
        have hFirst : pathSteps func (some b) path = [] ++ step :: after := hAfter.symm
        exact ih hTail hFirst
      | cons head tail =>
        rw [cons_append, List.cons.injEq] at hAfter
        obtain ⟨rfl, rfl⟩ := hAfter
        obtain ⟨front, rest, hSplit, _, hTailSteps⟩ := map_eq_append_iff.mp hInsts
        obtain ⟨inst, later, rfl, rfl, rfl⟩ := map_eq_cons_iff.mp hTailSteps
        refine ⟨⟨b, front, inst, later, hSplit⟩, rfl, ?_⟩
        rcases usedNext_stepsIn_append hUsed with hFirst | ⟨_, hPast⟩
        · exact .inl (exists_read_of_usedFirst hFirst)
        · cases path with
          | nil => exact hPast.elim
          | cons next path =>
            obtain ⟨hEdge, hNext⟩ := MirFunction.isPath_cons_cons.mp hPath
            exact .inr ⟨next, (hCfg.mem_successors_iff b next).mpr hEdge,
              readAhead_of_usedNext hCfg hNext hPast⟩

theorem pathSteps_append (pred : MirBlockRef) (front path : List MirBlockId) :
    pathSteps func pred (front ++ path) =
      pathSteps func pred front ++ pathSteps func (front.getLast?.or pred) path := by
  induction front generalizing pred with
  | nil => rfl
  | cons b front ih =>
    have hLast : (b :: front).getLast?.or pred = front.getLast?.or (some b) := by
      rw [getLast?_cons]
      cases front.getLast? <;> rfl
    rw [cons_append, pathSteps, pathSteps, ih, hLast, append_assoc]

theorem Point.isPath_append {p : Point func} {more : List MirBlockId}
    (h : func.IsPath (p.block :: more)) : func.IsPath (p.front ++ p.block :: more) := by
  obtain ⟨hFront, _, hEdge⟩ := isChain_append.mp p.isEntryPath.isPath
  exact isChain_append.mpr ⟨hFront, h, hEdge⟩

theorem Point.pathSteps_append (p : Point func) (more : List MirBlockId) :
    pathSteps func none (p.front ++ p.block :: more) = p.done ++ p.ahead more := by
  rw [Borrow.pathSteps_append, pathSteps, p.split, Option.or_none, Point.done, Point.ahead,
    Point.pred, stepsIn, map_append]
  simp only [stepsIn, append_assoc]

/-- The later of two overlapping borrows is made where the earlier seems active. -/
theorem Overlap.seenConflict (hCfg : func.CfgConsistent) {existing new : MirBorrow}
    (h : Overlap func existing new) (hTracked : existing ∈ trackedBorrows func)
    (hLt : existing.borrowId < func.nextValueId) :
    ∃ site : Site func, SeenConflict site new existing := by
  obtain ⟨p, before, between, after, first, second, hDone, _, hSecond, hKept, _, hSource, hKind,
    ⟨hNe, more, hMore, hUsed⟩, _⟩ := h
  have hSteps : pathSteps func none (p.front ++ p.block :: more) =
      (before ++ first :: between) ++ second :: (after ++ p.ahead more) := by
    rw [Point.pathSteps_append, hDone]
    simp
  have hLater : UsedNext existing.borrowId (after ++ p.ahead more) :=
    usedNext_append_of_kept (fun step hStep => hKept step (by simp [hStep])) hUsed
  obtain ⟨site, hInst, hActive⟩ :=
    exists_site_of_pathSteps hCfg (Point.isPath_append hMore) hSteps hLater
  refine ⟨site, ?_⟩
  exact
    { made := by rw [hInst, hSecond]
      tracked := hTracked
      other := by
        obtain ⟨_, hId, _⟩ := borrowOf?_eq_some_iff.mp hSecond
        rw [hId]
        exact (hKept second (by simp)).symm
      sameSource := hSource
      mutable := hKind
      active := .inr ⟨hNe, hLt, hActive⟩ }

private theorem exists_inst_of_mem_pathSteps {pred : MirBlockRef} {path : List MirBlockId}
    {step : Step} (h : step ∈ pathSteps func pred path) : ∃ b, step.inst ∈ func.insts b := by
  induction path generalizing pred with
  | nil => cases h
  | cons b path ih =>
    rcases mem_append.mp h with hHere | hRest
    · obtain ⟨inst, hInst, rfl⟩ := mem_map.mp hHere
      exact ⟨b, hInst⟩
    · exact ih hRest

theorem Overlap.mem_trackedBorrows {existing new : MirBorrow} (h : Overlap func existing new)
    (hFew : ((func.blocks.flatMap (·.insts)).filterMap borrowOf?).length ≤ maxBorrows) :
    existing ∈ trackedBorrows func := by
  obtain ⟨p, before, between, after, first, second, hDone, hFirst, _⟩ := h
  have hStep : first ∈ pathSteps func none (p.front ++ p.block :: []) := by
    rw [Point.pathSteps_append, hDone]
    simp
  obtain ⟨b, hInst⟩ := exists_inst_of_mem_pathSteps hStep
  have hBorrow : existing ∈ (func.blocks.flatMap (·.insts)).filterMap borrowOf? :=
    mem_filterMap.mpr ⟨first.inst, MirFunction.mem_flatMap_of_mem_insts hInst, hFirst⟩
  rwa [trackedBorrows, take_of_length_le hFew]

/-- A clean report means exclusive borrows exactly when each overlap is one the
checker can see, or comes with another error that it sees. -/
theorem exclusive_of_check_iff (func : MirFunction) (bc : MirBorrowChecker)
    (hCfg : func.CfgConsistent) :
    ((mirBorrowCheckFunction func bc).1 = 0 → Exclusive func) ↔
      ∀ existing new, Overlap func existing new →
        func.isExtern = false ∧ bc.errors.length < maxErrors ∧
        ((existing ∈ trackedBorrows func ∧ existing.borrowId < func.nextValueId) ∨
          (∃ (site : Site func) (seen made : MirBorrow), SeenConflict site made seen) ∨
          ∃ (site : Site func) (v : MirValueId), v ∈ site.inst.op.operands ∧ v ≠ 0 ∧
            v < func.nextValueId ∧ MoveLinked site v) := by
  constructor
  · intro hSound existing new hOverlap
    have hErrors : (mirBorrowCheckFunction func bc).1 ≠ 0 := fun hZero =>
      hSound hZero existing new hOverlap
    have hBody : func.isExtern = false := by
      rw [← Bool.not_eq_true]
      intro hExtern
      exact hErrors (by rw [mirBorrowCheckFunction, if_pos (.inl hExtern)])
    have hRoom : bc.errors.length < maxErrors := by
      by_contra hFull
      exact hErrors (mirBorrowCheckFunction_eq_zero_of_full (Nat.le_of_not_lt hFull))
    rw [Ne, mirBorrowCheckFunction_eq_zero_iff hBody hRoom] at hErrors
    push Not at hErrors
    obtain ⟨site, error, hRaised⟩ := hErrors
    refine ⟨hBody, hRoom, .inr ?_⟩
    rcases MirBorrowErrorKind.move_or_conflict error.kind with hMove | hConflict
    · exact .inr (hRaised.exists_moveLinked hMove)
    · obtain ⟨made, seen, hSeen, _⟩ := hRaised.seenConflict hConflict
      exact .inl ⟨site, seen, made, hSeen⟩
  · intro hSeen hZero existing new hOverlap
    obtain ⟨hBody, hRoom, hCause⟩ := hSeen existing new hOverlap
    have hQuiet := (mirBorrowCheckFunction_eq_zero_iff hBody hRoom).mp hZero
    have hNoConflict : ∀ (site : Site func) made seen, ¬SeenConflict site made seen := by
      intro site made seen hConflict
      obtain ⟨error, hRaised, _⟩ := hConflict.exists_raisedAt hCfg
      exact hQuiet site error hRaised
    rcases hCause with ⟨hTracked, hLt⟩ | ⟨site, seen, made, hConflict⟩ |
      ⟨site, v, hRead, hNe, hLt, hLinked⟩
    · obtain ⟨site, hConflict⟩ := hOverlap.seenConflict hCfg hTracked hLt
      exact hNoConflict site new existing hConflict
    · exact hNoConflict site made seen hConflict
    · obtain ⟨error, hRaised, _⟩ := exists_raisedAt_of_mem_moved hRead hNe
        (mem_moved_of_moveLinked hCfg hNe hLt hLinked)
      exact hQuiet site error hRaised

/-- A value is mutably borrowed once. -/
def lentOnce : MirFunction where
  name := "lent_once"
  nextValueId := 4
  blocks := [{ insts := [{ op := .constInt 7, result := 1 },
    { op := .transfer .borrowMut 1, result := 2 }, { op := .load 2, result := 3 },
    { op := .retVoid }] }]

theorem exclusive_lentOnce : Exclusive lentOnce := by
  refine (exclusive_of_check_iff lentOnce {} (by decide)).mpr (fun existing new hOverlap => ?_)
    (by decide)
  have hTracked := hOverlap.mem_trackedBorrows (by decide)
  have hOnly : trackedBorrows lentOnce = [⟨2, 1, .mutable, 0, 0⟩] := rfl
  refine ⟨rfl, by decide, .inl ⟨hTracked, ?_⟩⟩
  rw [hOnly, mem_singleton] at hTracked
  rw [hTracked]
  decide

/-- As many borrows as the table holds, none of them ever used. -/
def crowd : List MirInst :=
  { op := .constInt 7, result := 1 } ::
    (List.range maxBorrows).map fun i => { op := .transfer .borrow 1, result := i + 2 }

/-- After the table is full the value is mutably borrowed twice. -/
def crowdedBorrows : MirFunction where
  name := "crowded_borrows"
  nextValueId := 518
  blocks := [{ insts := crowd ++ [{ op := .transfer .borrowMut 1, result := 514 },
    { op := .transfer .borrowMut 1, result := 515 }, { op := .load 514, result := 516 },
    { op := .load 515, result := 517 }, { op := .retVoid }] }]

private theorem trackedBorrows_crowdedBorrows : trackedBorrows crowdedBorrows =
    (List.range maxBorrows).map fun i => ⟨i + 2, 1, .shared, 0, 0⟩ := by
  have hCrowd : crowd.filterMap borrowOf? =
      (List.range maxBorrows).map fun i => ⟨i + 2, 1, .shared, 0, 0⟩ := by
    rw [crowd, filterMap_cons_none rfl, filterMap_map]
    exact congrFun filterMap_eq_map' _
  simp only [trackedBorrows, crowdedBorrows, flatMap_cons, flatMap_nil, append_nil,
    filterMap_append, hCrowd]
  exact take_left' (by simp)

private theorem insts_crowdedBorrows {b : MirBlockId} {inst : MirInst}
    (h : inst ∈ crowdedBorrows.insts b) :
    inst.op ∈ [.constInt 7, .transfer .borrow 1, .transfer .borrowMut 1, .load 514, .load 515,
      .retVoid] := by
  cases b with
  | zero =>
    have hInsts : inst ∈ crowd ++ [{ op := .transfer .borrowMut 1, result := 514 },
      { op := .transfer .borrowMut 1, result := 515 }, { op := .load 514, result := 516 },
      { op := .load 515, result := 517 }, { op := .retVoid }] := h
    rcases mem_append.mp hInsts with hCrowd | hRest
    · rcases mem_cons.mp hCrowd with rfl | hBorrow
      · simp
      · obtain ⟨i, _, rfl⟩ := mem_map.mp hBorrow
        simp
    · simp only [mem_cons, not_mem_nil, or_false] at hRest
      rcases hRest with rfl | rfl | rfl | rfl | rfl <;> simp
  | succ b =>
    rw [MirFunction.insts_eq_nil (Nat.le_add_left 1 b)] at h
    cases h

private theorem operands_crowdedBorrows {b : MirBlockId} {inst : MirInst} {v : MirValueId}
    (h : inst ∈ crowdedBorrows.insts b) (hRead : v ∈ inst.op.operands) :
    v = 1 ∨ 514 ≤ v := by
  have hOp := insts_crowdedBorrows h
  simp only [mem_cons, not_mem_nil, or_false] at hOp
  rcases hOp with hOp | hOp | hOp | hOp | hOp | hOp <;> rw [hOp] at hRead <;>
    simp [MirOp.operands] at hRead <;> simp [hRead]

private theorem not_seenConflict_crowdedBorrows (site : Site crowdedBorrows)
    (new existing : MirBorrow) :
    ¬SeenConflict site new existing := by
  intro hSeen
  have hTracked := hSeen.tracked
  rw [trackedBorrows_crowdedBorrows] at hTracked
  obtain ⟨i, hi, rfl⟩ := mem_map.mp hTracked
  have hUnread : ∀ b, ∀ inst ∈ crowdedBorrows.insts b, i + 2 ∉ inst.op.operands := by
    intro b inst hInst hRead
    have hId : (i + 2 : Nat) = 1 ∨ 514 ≤ (i + 2 : Nat) := operands_crowdedBorrows hInst hRead
    have hSmall : i < 512 := mem_range.mp hi
    omega
  rcases hSeen.active with hRead | ⟨_, _, ⟨later, hLater, hRead⟩ | ⟨next, hNext, _⟩⟩
  · exact hUnread site.block site.inst (by simp [site.split]) hRead
  · exact hUnread site.block later (by simp [site.split, hLater]) hRead
  · have hNone : crowdedBorrows.successors site.block = [] := by
      cases site.block <;> rfl
    rw [hNone] at hNext
    cases hNext

private theorem overlap_crowdedBorrows :
    Overlap crowdedBorrows ⟨514, 1, .mutable, 0, 0⟩ ⟨515, 1, .mutable, 0, 0⟩ := by
  let p : Point crowdedBorrows :=
    { front := []
      block := 0
      before := crowd ++ [{ op := .transfer .borrowMut 1, result := 514 },
        { op := .transfer .borrowMut 1, result := 515 }]
      after := [{ op := .load 514, result := 516 }, { op := .load 515, result := 517 },
        { op := .retVoid }]
      split := by
        rw [append_assoc]
        rfl
      isEntryPath := ⟨isChain_singleton 0, rfl⟩ }
  have hFirst : UsedNext 514 (p.ahead []) := .inl (mem_singleton.mpr rfl)
  have hSecond : UsedNext 515 (p.ahead []) :=
    .inr ⟨Nat.succ_ne_self 515, .inl (mem_singleton.mpr rfl)⟩
  refine ⟨p, stepsIn none crowd, [], [],
    ⟨none, { op := .transfer .borrowMut 1, result := 514 }⟩,
    ⟨none, { op := .transfer .borrowMut 1, result := 515 }⟩, ?_, rfl, rfl, by simp,
    by simp, rfl, .inl rfl, ⟨by simp, [], isChain_singleton 0, hFirst⟩,
    by simp, [], isChain_singleton 0, hSecond⟩
  simp [Point.done, pathSteps, stepsIn, p, Point.pred]

/-- Both mutable borrows are live at once and the function is reported clean. -/
theorem crowdedBorrows_not_exclusive :
    crowdedBorrows.CfgConsistent ∧ (mirBorrowCheckFunction crowdedBorrows {}).1 = 0 ∧
      ¬Exclusive crowdedBorrows := by
  have hUnmoved : ∀ b, ∀ inst ∈ crowdedBorrows.insts b, ∀ v,
      inst.op ≠ .transfer .move v := by
    intro b inst hInst v hOp
    have hMem := insts_crowdedBorrows hInst
    simp [hOp] at hMem
  have hUnlinked : ∀ (site : Site crowdedBorrows) v, ¬MoveLinked site v := by
    rintro site v (⟨inst, hInst, hOp⟩ | ⟨a, _, inst, hInst, hOp⟩)
    · exact hUnmoved site.block inst (by simp [site.split, hInst]) v hOp
    · exact hUnmoved a inst hInst v hOp
  have hQuiet : ∀ (site : Site crowdedBorrows) error, ¬RaisedAt site error := by
    intro site error hRaised
    rcases MirBorrowErrorKind.move_or_conflict error.kind with hMove | hConflict
    · obtain ⟨site, v, _, _, _, hLinked⟩ := hRaised.exists_moveLinked hMove
      exact hUnlinked site v hLinked
    · obtain ⟨new, existing, hSeen, _⟩ := hRaised.seenConflict hConflict
      exact not_seenConflict_crowdedBorrows site new existing hSeen
  have hLast : crowdedBorrows.insts 0 = (crowd ++ [{ op := .transfer .borrowMut 1, result := 514 },
      { op := .transfer .borrowMut 1, result := 515 }, { op := .load 514, result := 516 },
      { op := .load 515, result := 517 }]) ++ [{ op := .retVoid }] := by
    rw [append_assoc]
    rfl
  have hTargets : crowdedBorrows.targets 0 = [] := MirFunction.targets_of_insts hLast
  refine ⟨?_, (mirBorrowCheckFunction_eq_zero_iff rfl (by decide)).mpr hQuiet,
    fun hExclusive => hExclusive _ _ overlap_crowdedBorrows⟩
  refine MirFunction.CfgConsistent.iff_forall_listed.mpr fun a ha => ?_
  have hZero : a = 0 := Nat.lt_one_iff.mp (mem_range.mp ha)
  subst hZero
  have hSuccessors : crowdedBorrows.successors 0 = [] := rfl
  have hPredecessors : crowdedBorrows.predecessors 0 = [] := rfl
  simp [hTargets, hSuccessors, hPredecessors]

end

end Casprix.Borrow
