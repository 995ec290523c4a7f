import Casprix.Sema.MovePaths
import Casprix.Sema.MoveTracking

/-! The move check: on no path of an accepted body is a moved variable read,
but for moves that the analysis does not follow. -/
namespace Casprix.Sema

open List Frontend Bool Option

theorem movedName_of_hasMove {expr : Expr} (h : exprHasMove expr = false) :
    movedName expr = none := by
  cases expr with
  | «variable» name isMove =>
    rw [exprHasMove] at h
    rw [h]
    rfl
  | _ => rfl

mutual

theorem movesOf_of_hasMove : ∀ (stmt : Stmt), stmtHasMove stmt = false → movesOf stmt = []
  | .declaration name type initializer, h => by
      rw [stmtHasMove] at h
      rw [movesOf, movedName_of_hasMove h, toList_none]
  | .assignment target value, h => by
      rw [stmtHasMove, or_eq_false_iff] at h
      rw [movesOf, movedName_of_hasMove h.2, toList_none]
  | .block statements, h => by
      rw [stmtHasMove] at h
      rw [movesOf, movesOfAll_of_hasMove statements h]
  | .ifStmt condition thenBranch elseBranch, h => by
      simp only [stmtHasMove, or_eq_false_iff] at h
      have hThen := movesOf_of_hasMove thenBranch h.1.2
      have hElse := movesOf_of_hasMove elseBranch h.2
      rw [movesOf, hThen, hElse]
      split <;> rfl
  | .whileStmt condition body, h => by
      rw [stmtHasMove, or_eq_false_iff] at h
      rw [movesOf, movesOf_of_hasMove body h.2]
  | .forStmt varName type initializer condition increment body, h => by
      simp only [stmtHasMove, or_eq_false_iff] at h
      rw [movesOf, movesOf_of_hasMove increment h.1.2, movesOf_of_hasMove body h.2]
      rfl
  | .null, _ | .print _, _ | .forIn .., _ | .function .., _ | .returnStmt _, _ | .breakStmt, _
  | .continueStmt, _ | .exprStmt _, _ | .include, _ | .classStmt .., _ | .externFunc _, _
  | .struct _, _ | .enum _, _ | .union _, _ | .tryStmt .., _ | .throwStmt _, _
  | .matchStmt .., _ | .trait .., _ | .impl _, _ => rfl

theorem movesOfAll_of_hasMove : ∀ (stmts : List Stmt),
    anyStmtHasMove stmts = false → movesOfAll stmts = []
  | [], _ => rfl
  | statement :: rest, h => by
      rw [anyStmtHasMove, or_eq_false_iff] at h
      rw [movesOfAll, movesOf_of_hasMove statement h.1, movesOfAll_of_hasMove rest h.2]
      rfl

end

/-- The variables of a path are those of the table, and what it has moved is
marked. -/
def Aligned (env : Env) (table : SymbolTable) (state : OwnMoveState) : Prop :=
  List.Forall₂ (fun binding symbol =>
    binding.1 = symbol.name ∧ (binding.2 = .moved false →
      state.isMoved symbol = true)) env table

namespace Aligned

variable {env env' : Env} {table : SymbolTable} {state state' : OwnMoveState}

/-- A variable that is read without a report is not moved, but for an excuse. -/
theorem status_ne (h : Aligned env table state) {name : String} {symbol : Symbol}
    (hFound : table.lookupSymbol name = some symbol) (hMoved : state.isMoved symbol = false) :
    env.status name ≠ .moved false := by
  induction h with
  | nil => cases hFound
  | @cons binding other outer rest hHead hTail ih =>
    obtain ⟨hName, hStatus⟩ := hHead
    rw [SymbolTable.lookupSymbol, find?_cons] at hFound
    rw [Env.status]
    by_cases hSame : other.name = name
    · have hBeq : (name == binding.1) = true := by rw [hName, hSame]; exact beq_self_eq_true name
      rw [hSame, beq_self_eq_true] at hFound
      rw [lookup_cons, hBeq]
      intro hBinding
      rw [Option.some.inj hFound, hMoved] at hStatus
      exact false_ne_true (hStatus hBinding)
    · have hBeq : (name == binding.1) = false := by
        rw [hName]
        exact beq_eq_false_iff_ne.mpr fun hEq => hSame hEq.symm
      rw [beq_eq_false_iff_ne.mpr hSame] at hFound
      rw [lookup_cons, hBeq]
      exact ih hFound

theorem grew {names : List String} (hGrew : Grew names env env') (h : Aligned env table state)
    (hKeeps : ∀ symbol ∈ table, state.isMoved symbol = true → state'.isMoved symbol = true)
    (hMoves : ∀ name ∈ names, ∀ symbol, table.lookupSymbol name = some symbol →
      state'.isMoved symbol = true) : Aligned env' table state' := by
  induction h generalizing names env' with
  | nil =>
    cases env' with
    | nil => exact List.Forall₂.nil
    | cons binding outer => exact absurd hGrew id
  | @cons binding symbol outer rest hHead hTail ih =>
    cases env' with
    | nil => exact absurd hGrew id
    | cons binding' outer' =>
      obtain ⟨hName, hStatus⟩ := hHead
      obtain ⟨hSame, hAfter, hOuter⟩ := hGrew
      refine List.Forall₂.cons ⟨hSame.symm.trans hName, fun hMoved => ?_⟩ ?_
      · rcases hAfter hMoved with hBefore | hNew
        · exact hKeeps symbol mem_cons_self (hStatus hBefore)
        · refine hMoves _ hNew symbol ?_
          rw [SymbolTable.lookupSymbol, find?_cons, hName, beq_self_eq_true]
      · refine ih hOuter (fun other hOther => hKeeps other (mem_cons_of_mem _ hOther))
          fun name hMem other hFound => ?_
        obtain ⟨hMem, hOther⟩ := mem_filter.mp hMem
        refine hMoves name hMem other ?_
        have hDifferent : symbol.name ≠ name := fun hEq =>
          of_decide_eq_true hOther (hEq.symm.trans hName.symm)
        rw [SymbolTable.lookupSymbol, find?_cons, beq_eq_false_iff_ne.mpr hDifferent]
        exact hFound

end Aligned

def Excused (bad : List Read) : Prop := ∀ read ∈ bad, read.excused = true

namespace Excused

theorem nil : Excused [] := nofun

theorem append {bad bad' : List Read} (h : Excused bad) (h' : Excused bad') :
    Excused (bad ++ bad') := by
  intro read hRead
  rcases mem_append.mp hRead with hRead | hRead
  · exact h read hRead
  · exact h' read hRead

theorem pardon (bad : List Read) : Excused (bad.map Read.pardon) := by
  intro read hRead
  obtain ⟨before, -, hSame⟩ := mem_map.mp hRead
  rw [← hSame, Read.pardon]

end Excused

theorem Env.status_set_ne {env : Env} {name other : String} {status : Status}
    (hStatus : status ≠ .moved false) (h : env.status other ≠ .moved false) :
    (env.set name status).status other ≠ .moved false := by
  induction env with
  | nil => exact h
  | cons binding outer ih =>
    rw [Env.status, lookup_cons] at h
    rw [Env.set]
    split
    · rename_i hName
      rw [Env.status, lookup_cons, ← hName]
      cases hOther : other == binding.1 with
      | true => exact hStatus
      | false =>
        rw [hOther] at h
        exact h
    · rw [Env.status, lookup_cons]
      cases hOther : other == binding.1 with
      | true =>
        rw [hOther] at h
        exact h
      | false =>
        rw [hOther] at h
        exact ih h

theorem evalReads_excused {accesses : List (String × Bool)} {env : Env}
    (h : ∀ access ∈ accesses, env.status access.1 ≠ .moved false) :
    Excused (evalReads accesses env).2 := by
  induction accesses generalizing env with
  | nil => exact Excused.nil
  | cons access rest ih =>
    have hNext : Excused
        (evalReads rest (if access.2 then env.set access.1 (.moved true) else env)).2 := by
      refine ih fun other hOther => ?_
      have hBefore := h other (mem_cons_of_mem _ hOther)
      split
      · exact Env.status_set_ne (by decide) hBefore
      · exact hBefore
    have hHead := h access mem_cons_self
    rw [evalReads]
    split
    · exact hNext
    · rename_i excused hStatus
      intro read hRead
      rcases mem_cons.mp hRead with hRead | hRead
      · rw [hRead]
        cases excused with
        | true => rfl
        | false => exact absurd hStatus hHead
      · exact hNext read hRead

theorem evalValue_snd (isClass : String → Bool) (value : Expr) (env : Env) :
    (evalValue isClass value env).2 = (eval isClass value env).2 := by
  rw [evalValue]
  cases movedName value with
  | none => rfl
  | some name => rfl

theorem evalCondition_excused {isClass : String → Bool} {again : Bool}
    {condition : Expr} {env : Env} (h : again = false → Excused (eval isClass condition env).2) :
    Excused (evalCondition isClass again condition env).2 := by
  cases again with
  | true => exact Excused.pardon _
  | false => exact h rfl

/-- The analyzer stands where the path does, and reports what it finds. -/
structure Ready (isClass : String → Bool) (a : SemanticAnalyzer) (env : Env) : Prop where
  bounded : a.Bounded
  classes : a.IsClass isClass
  reporting : a.suppressDiagnostics = false
  aligned : Aligned env a.symbols a.moveState

namespace Ready

variable {typing : Nat → Bool} {isClass : String → Bool} {a b : SemanticAnalyzer}
  {env after : Env} {moved : List String}

section

variable (h : Ready isClass a env)
include h

theorem follow (hTracks : Tracks [] moved a b)
    (hGrew : Grew moved env after) : Ready isClass b after where
  bounded := hTracks.bounded h.bounded
  classes := hTracks.isClass h.classes
  reporting := hTracks.suppress.trans h.reporting
  aligned := by
    rw [hTracks.symbols_eq]
    exact h.aligned.grew hGrew hTracks.keeps hTracks.moves

theorem declare {name : String} (hTracks : Tracks [name] moved a b)
    (hGrew : Grew moved env after) : Ready isClass b ((name, .live) :: after) := by
  refine ⟨hTracks.bounded h.bounded, hTracks.isClass h.classes,
    hTracks.suppress.trans h.reporting, ?_⟩
  obtain ⟨new, hSymbols, hNames, -⟩ := hTracks.symbols
  obtain ⟨symbol, hNew, hName⟩ := map_eq_singleton_iff.mp hNames
  rw [hSymbols, hNew]
  exact List.Forall₂.cons ⟨hName.symm, fun hMoved => by cases hMoved⟩
    (h.aligned.grew hGrew hTracks.keeps hTracks.moves)

theorem statement {stmt : Stmt} (hTracks : Tracks (declaredName stmt).toList (movesOf stmt) a b)
    (hBehaves : Behaves (.stmt stmt) env .normal after) : Ready isClass b after := by
  obtain ⟨added, old, rfl, -, hGrew, hAdded⟩ := hBehaves
  rw [Code.Declares] at hAdded
  rw [hAdded]
  generalize declaredName stmt = found at hTracks ⊢
  cases found with
  | none =>
    exact h.follow hTracks (hGrew rfl)
  | some name =>
    exact h.declare hTracks (hGrew rfl)

theorem enterScope : Ready isClass a.enterScope env :=
  ⟨Tracks.enterScope_bounded h.bounded, h.classes, h.reporting, h.aligned⟩

theorem grew {names : List String} (hGrew : Grew names env after)
    (hMoves : ∀ name ∈ names, ∀ symbol, a.symbols.lookupSymbol name = some symbol →
      a.moveState.isMoved symbol = true) : Ready isClass a after :=
  ⟨h.bounded, h.classes, h.reporting, h.aligned.grew hGrew (fun _ _ hMoved => hMoved) hMoves⟩

theorem eval_excused {expr : Expr} (hPlain : isPlain expr = true)
    (hClean : (analyzeExpr typing expr a).Clean) : Excused (eval isClass expr env).2 := by
  refine evalReads_excused fun access hAccess => ?_
  obtain ⟨symbol, hFound, hMoved⟩ :=
    (analyzeExpr_checked typing expr a hPlain h.classes).unmoved hClean h.reporting access hAccess
  exact h.aligned.status_ne hFound hMoved

end

theorem eval {expr : Expr} (h : Ready isClass a env) (hPlain : isPlain expr = true)
    (hClean : (analyzeExpr typing expr a).Clean) :
    Ready isClass (analyzeExpr typing expr a) (eval isClass expr env).1 :=
  h.follow (tracks_analyzeExpr typing hPlain h.classes hClean) (grew_eval isClass expr env)

end Ready

/-- The analyzer has accepted what the path goes through. The arms of a
`match` are gone over with moves of the arms before, and a loop with all the moves
of its iterations. -/
def Accepted (typing : Nat → Bool) (isClass : String → Bool) : Code → Env → Prop
  | .stmt statement, env => ∃ a, Ready isClass a env ∧ (analyzeStmt typing statement a).Clean
  | .stmts statements, env => ∃ a, Ready isClass a env ∧
    (analyzeStmts typing statements a).Clean
  | .loop again condition increment body, env =>
    (again = false → Excused (eval isClass condition env).2) ∧
      ∃ head, Ready isClass head env ∧ (analyzeStmt typing body head).Clean ∧
        ∀ name ∈ movesOf increment ++ movesOf body, ∀ symbol,
          head.symbols.lookupSymbol name = some symbol → head.moveState.isMoved symbol = true
  | .arms arms, env => ∃ a pre acc, Ready isClass (a.restore pre) env ∧
      (∀ symbol ∈ a.symbols, pre.isMoved symbol = true →
        a.moveState.isMoved symbol = true) ∧
      a.suppressDiagnostics = false ∧ (analyzeArms typing pre arms acc a).Clean

section

variable {typing : Nat → Bool} {isClass : String → Bool}

/-- What a loop is accepted with: `a` is where its body is first gone over. -/
theorem accepted_loop {condition : Expr} {increment body : Stmt} {env : Env} {hasMove : Bool}
    {a : SemanticAnalyzer} (hCore : isCore body = true) (hScoped : declaredName body = none)
    (hHasMove : hasMove = stmtHasMove body)
    (hReads : Excused (eval isClass condition env).2) (hReady : Ready isClass a env)
    (hMoves : ∀ name ∈ movesOf increment, ∀ symbol,
      a.symbols.lookupSymbol name = some symbol →
      a.moveState.isMoved symbol = true)
    (hClean : (a.loopBodyFixpoint hasMove (analyzeStmt typing body)).Clean) :
    Accepted typing isClass (.loop false condition increment body) env := by
  refine ⟨fun _ => hReads, ?_⟩
  have hBody := fun c => @analyzeStmt_follows typing isClass body c hCore
  rw [hScoped, toList_none] at hBody
  obtain ⟨head, hHeadClean, hHead⟩ := exists_loopHead hReady.bounded hReady.classes hBody hClean
    fun hNone => movesOf_of_hasMove body (hHasMove.symm.trans hNone)
  refine ⟨head, hReady.follow hHead (Grew.refl _ _), hHeadClean,
    fun name hName symbol hFound => ?_⟩
  rw [hHead.lookupSymbol not_mem_nil] at hFound
  rcases mem_append.mp hName with hName | hName
  · exact hHead.keeps symbol (SymbolTable.mem_of_lookupSymbol hFound)
      (hMoves name hName symbol hFound)
  · exact hHead.moves name hName symbol hFound

section

variable {again : Bool} {condition : Expr} {increment body : Stmt} {env stepped : Env}

section

variable (h : Accepted typing isClass (.loop again condition increment body) env)
include h

theorem accepted_body :
    Accepted typing isClass (.stmt body) (evalCondition isClass again condition env).1 := by
  obtain ⟨-, head, hReady, hClean, -⟩ := h
  rw [evalCondition_env]
  exact ⟨head, hReady.grew (grew_eval isClass condition env)
    nofun, hClean⟩

theorem accepted_again (hGrew : Grew (movesOf increment ++ movesOf body) env stepped) :
    Accepted typing isClass (.loop true condition increment body) stepped := by
  obtain ⟨-, head, hReady, hClean, hMoves⟩ := h
  exact ⟨fun hFirst => absurd hFirst (by decide), head,
    hReady.grew hGrew hMoves, hClean, hMoves⟩

end

end

/-- An arm is gone over from the moves before the `match`, and so is the next one. -/
theorem accepted_arm {pattern : Expr} {body : Stmt} {rest : List MatchArm} {env : Env}
    (hPlain : isPlain pattern = true) (hBody : isCore body = true)
    (hScoped : (declaredName body).isNone = true) (hRest : armsAreCore rest = true)
    (h : Accepted typing isClass (.arms (.mk pattern body :: rest)) env) :
    Excused (eval isClass pattern env).2 ∧
      Accepted typing isClass (.stmt body) (eval isClass pattern env).1 ∧
      Accepted typing isClass (.arms rest) (eval isClass pattern env).1 := by
  obtain ⟨a, pre, acc, hReady, hKept, hReporting, hClean⟩ := h
  rw [analyzeArms] at hClean
  have hMatched := (@analyzeArms_follows typing isClass pre rest _ _ hRest).1 hClean
  have hStart : ((analyzeExpr typing pattern a).restore pre).Clean :=
    (@analyzeStmt_follows typing isClass body _ hBody).clean hMatched
  have hChecked := analyzeExpr_checked typing pattern a hPlain hReady.classes
  have hEntered : Ready isClass ((analyzeExpr typing pattern a).restore pre)
      (eval isClass pattern env).1 := by
    have hGrew := hReady.grew (grew_eval isClass pattern env)
      nofun
    have hTracks := Tracks.of_checked hChecked hStart
    refine ⟨hTracks.bounded hReady.bounded, hTracks.isClass hReady.classes,
      hChecked.suppress.trans hReporting, ?_⟩
    show Aligned _ (analyzeExpr typing pattern a).symbols pre
    rw [hChecked.symbols]
    exact hGrew.aligned
  refine ⟨evalReads_excused fun access hAccess => ?_, ?_, ?_⟩
  · obtain ⟨symbol, hFound, hMoved⟩ := hChecked.unmoved hStart hReporting access hAccess
    refine hReady.aligned.status_ne hFound ?_
    have hMem := SymbolTable.mem_of_lookupSymbol hFound
    refine eq_false_iff.mpr fun hBefore => ?_
    rw [hKept symbol hMem hBefore] at hMoved
    cases hMoved
  · exact ⟨_, hEntered, hMatched⟩
  · have hTracks := (analyzeStmt_follows typing body _ hBody).tracks hEntered.bounded
      hEntered.classes hMatched
    rw [isNone_iff_eq_none.mp hScoped, toList_none] at hTracks
    refine ⟨_, pre, _, hEntered.follow hTracks.restore_self (Grew.refl _ _), ?_, ?_, hClean⟩
    · intro symbol hMem hMoved
      rw [hTracks.symbols_eq] at hMem
      exact hTracks.keeps symbol hMem hMoved
    · exact hTracks.suppress.trans hEntered.reporting

theorem exec_excused {code : Code} {env after : Env} {outcome : Outcome} {bad : List Read}
    (hExec : Exec isClass code env outcome after bad) (hCore : code.isCore = true)
    (hAccepted : Accepted typing isClass code env) : Excused bad := by
  induction hExec with
  | null env | breakStmt env | continueStmt env | nil env | noArm env => exact Excused.nil
  | declaration name type initializer env =>
    obtain ⟨a, hReady, hClean⟩ := hAccepted
    rw [analyzeStmt] at hClean
    split at hClean
    · exact absurd hClean (SemanticAnalyzer.not_clean_stop _)
    · have hValued := (SemanticAnalyzer.clean_markMovedValue initializer).mp
        (SemanticAnalyzer.clean_of_declare hClean)
      rw [evalValue_snd]
      exact hReady.eval_excused hCore hValued
  | assignment target value env =>
    obtain ⟨a, hReady, hClean⟩ := hAccepted
    simp only [Code.isCore, isCore, and_eq_true] at hCore
    rw [analyzeStmt] at hClean
    split at hClean
    · exact absurd hClean a.not_clean_stop
    · have hValued := (SemanticAnalyzer.clean_markMovedValue value).mp hClean
      have hTargeted := clean_of_analyzeExpr typing hCore.2 hValued
      have hTarget := hReady.follow (tracks_analyzeExpr typing hCore.1 hReady.classes hTargeted)
        (grew_evalTarget isClass target env)
      rw [evalValue_snd]
      refine Excused.append ?_ (hTarget.eval_excused hCore.2 hValued)
      rw [evalTarget]
      split
      · exact hReady.eval_excused hCore.1 hTargeted
      · exact Excused.nil
  | print expression env | exprStmt expression env =>
    obtain ⟨a, hReady, hClean⟩ := hAccepted
    rw [analyzeStmt] at hClean
    exact hReady.eval_excused hCore hClean
  | returnStmt value env =>
    obtain ⟨a, hReady, hClean⟩ := hAccepted
    rw [analyzeStmt] at hClean
    split at hClean
    · exact hReady.eval_excused hCore hClean
    · exact absurd hClean a.not_clean_stop
  | block inner ih =>
    obtain ⟨a, hReady, hClean⟩ := hAccepted
    rw [analyzeStmt] at hClean
    exact ih hCore ⟨a.enterScope, hReady.enterScope, hClean⟩
  | @ifThen condition thenBranch elseBranch env outcome after bad branch ih =>
    obtain ⟨a, hReady, hClean⟩ := hAccepted
    simp only [Code.isCore, isCore, and_eq_true] at hCore
    rw [analyzeStmt] at hClean
    split at hClean
    · exact absurd hClean a.not_clean_stop
    have hThen := (@analyzeStmt_follows typing isClass elseBranch _ hCore.1.1.2).clean hClean
    have hTested := (@analyzeStmt_follows typing isClass thenBranch _ hCore.1.1.1.2).clean hThen
    exact (hReady.eval_excused hCore.1.1.1.1 hTested).append
      (ih hCore.1.1.1.2 ⟨_, hReady.eval hCore.1.1.1.1 hTested, hThen⟩)
  | @ifElse condition thenBranch elseBranch env outcome after bad branch ih =>
    obtain ⟨a, hReady, hClean⟩ := hAccepted
    simp only [Code.isCore, isCore, and_eq_true] at hCore
    rw [analyzeStmt] at hClean
    split at hClean
    · exact absurd hClean a.not_clean_stop
    have hThen := (@analyzeStmt_follows typing isClass elseBranch _ hCore.1.1.2).clean hClean
    have hTested := (@analyzeStmt_follows typing isClass thenBranch _ hCore.1.1.1.2).clean hThen
    have hReadyTested := hReady.eval hCore.1.1.1.1 hTested
    have hTracks := (analyzeStmt_follows typing thenBranch _ hCore.1.1.1.2).tracks
      hReadyTested.bounded
      hReadyTested.classes hThen
    rw [isNone_iff_eq_none.mp hCore.1.2, toList_none] at hTracks
    exact (hReady.eval_excused hCore.1.1.1.1 hTested).append
      (ih hCore.1.1.2 ⟨_, hReadyTested.follow hTracks.restore_self (Grew.refl _ _), hClean⟩)
  | @whileStmt condition body env outcome after bad loop ih =>
    obtain ⟨a, hReady, hClean⟩ := hAccepted
    simp only [Code.isCore, isCore, and_eq_true] at hCore
    rw [analyzeStmt] at hClean
    split at hClean
    · exact absurd hClean a.not_clean_stop
    have hTested := SemanticAnalyzer.clean_of_loopBodyFixpoint
      (fun c => (@analyzeStmt_follows typing isClass body c hCore.1.2).clean) hClean
    refine ih ?_ ?_
    · simp only [Code.isCore, and_eq_true]
      exact ⟨⟨⟨⟨hCore.1.1, rfl⟩, hCore.1.2⟩, rfl⟩, hCore.2⟩
    exact accepted_loop hCore.1.2 (isNone_iff_eq_none.mp hCore.2) rfl
      (hReady.eval_excused hCore.1.1 hTested)
      (hReady.follow (tracks_analyzeExpr typing hCore.1.1 hReady.classes hTested) (Grew.refl _ _))
      (fun _ hName => absurd hName not_mem_nil) hClean
  | @forStmt name type initializer condition increment body env outcome after bad loop ih =>
    obtain ⟨a, hReady, hClean⟩ := hAccepted
    simp only [Code.isCore, isCore, and_eq_true] at hCore
    rw [analyzeStmt] at hClean
    have hStepped := SemanticAnalyzer.clean_of_loopBodyFixpoint
      (fun c => (@analyzeStmt_follows typing isClass body c hCore.1.1.2).clean) hClean
    have hTested := (@analyzeStmt_follows typing isClass increment _ hCore.1.1.1.2).clean hStepped
    have hValued := clean_of_analyzeExpr typing hCore.1.1.1.1.2 hTested
    have hDeclared := clean_of_analyzeExpr typing hCore.1.1.1.1.1.2 hValued
    have hEntered := hReady.enterScope.declare
      (Tracks.declare name (by decide) hDeclared) (Grew.refl _ _)
    have hReadyValued := hEntered.eval hCore.1.1.1.1.1.2 hValued
    have hReadyTested := hReadyValued.follow
      (tracks_analyzeExpr typing hCore.1.1.1.1.2 hReadyValued.classes hTested) (Grew.refl _ _)
    have hIncrement := (analyzeStmt_follows typing increment _ hCore.1.1.1.2).tracks
      hReadyTested.bounded
      hReadyTested.classes hStepped
    rw [isNone_iff_eq_none.mp hCore.1.2, toList_none] at hIncrement
    refine (hEntered.eval_excused hCore.1.1.1.1.1.2 hValued).append
      (ih (by simp [Code.isCore, hCore]) ?_)
    refine accepted_loop hCore.1.1.2 (isNone_iff_eq_none.mp hCore.2) rfl
      (hReadyValued.eval_excused hCore.1.1.1.1.2 hTested)
      (hReadyTested.follow hIncrement (Grew.refl _ _)) (fun other hOther symbol hFound => ?_) hClean
    rw [hIncrement.lookupSymbol not_mem_nil] at hFound
    exact hIncrement.moves other hOther symbol hFound
  | @matchStmt subject arms env outcome after bad taken ih =>
    obtain ⟨a, hReady, hClean⟩ := hAccepted
    simp only [Code.isCore, isCore, and_eq_true] at hCore
    rw [analyzeStmt] at hClean
    split at hClean
    · exact absurd hClean a.not_clean_stop
    have hTested := (@analyzeArms_follows typing isClass _ arms _ _ hCore.2).1 hClean
    have hReadyTested := hReady.eval hCore.1 hTested
    exact (hReady.eval_excused hCore.1 hTested).append
      (ih hCore.2 ⟨_, _, _, hReadyTested, fun _ _ hMoved => hMoved,
        hReadyTested.reporting, hClean⟩)
  | @cons statement rest env middle outcome after bad bad' first others ihFirst ihOthers =>
    obtain ⟨a, hReady, hClean⟩ := hAccepted
    simp only [Code.isCore, areCore, and_eq_true] at hCore
    rw [analyzeStmts] at hClean
    have hFirst := (@analyzeStmts_follows typing isClass rest _ hCore.2).clean hClean
    have hTracks := (analyzeStmt_follows typing statement a hCore.1).tracks
      hReady.bounded hReady.classes
      hFirst
    exact (ihFirst hCore.1 ⟨a, hReady, hFirst⟩).append (ihOthers hCore.2
      ⟨_, hReady.statement hTracks (exec_behaves first hCore.1), hClean⟩)
  | @exits statement rest env outcome after bad hOutcome first ih =>
    obtain ⟨a, hReady, hClean⟩ := hAccepted
    simp only [Code.isCore, areCore, and_eq_true] at hCore
    rw [analyzeStmts] at hClean
    exact ih hCore.1 ⟨a, hReady,
      (@analyzeStmts_follows typing isClass rest _ hCore.2).clean hClean⟩
  | loopEnds again condition increment body env =>
    exact evalCondition_excused hAccepted.1
  | loopReturns inner ih | loopBreaks inner ih =>
    simp only [Code.isCore, and_eq_true] at hCore
    exact (evalCondition_excused hAccepted.1).append (ih hCore.1.1.2 (accepted_body hAccepted))
  | @loopNext again condition increment body env middle stepped outcome after bad bad' bad'' inner
      increments next ihBody ihIncrement ihNext =>
      have hParts := hCore
      simp only [Code.isCore, and_eq_true] at hParts
      have hBody := (exec_behaves inner hParts.1.1.2).unscoped hParts.2
      have hIncrement := (exec_behaves increments hParts.1.1.1.2).unscoped hParts.1.2
      rw [evalCondition_env] at hBody
      have hReads := (evalCondition_excused hAccepted.1).append
        (ihBody hParts.1.1.2 (accepted_body hAccepted))
      exact (hReads.append (Excused.pardon bad')).append
        (ihNext hCore (accepted_again hAccepted (grew_iteration (hBody.2 rfl) (hIncrement.2 rfl))))
  | @loopContinues again condition increment body env middle stepped outcome after bad bad' bad''
      inner increments next ihBody ihIncrement ihNext =>
      have hParts := hCore
      simp only [Code.isCore, and_eq_true] at hParts
      have hBody := (exec_behaves inner hParts.1.1.2).unscoped hParts.2
      have hIncrement := (exec_behaves increments hParts.1.1.1.2).unscoped hParts.1.2
      rw [evalCondition_env] at hBody hIncrement
      have hReads := (evalCondition_excused hAccepted.1).append
        (ihBody hParts.1.1.2 (accepted_body hAccepted))
      exact (hReads.append (Excused.pardon bad')).append (ihNext hCore
        (accepted_again hAccepted
          (grew_iteration (grew_continued (movesOf body) hBody.1) (hIncrement.2 rfl))))
  | @arm pattern body rest env outcome after bad taken ih =>
    simp only [Code.isCore, armsAreCore, and_eq_true] at hCore
    obtain ⟨hReads, hTaken, -⟩ :=
      accepted_arm hCore.1.1.1 hCore.1.1.2 hCore.1.2 hCore.2 hAccepted
    exact hReads.append (ih hCore.1.1.2 hTaken)
  | @nextArm pattern body rest env outcome after bad hPattern others ih =>
    simp only [Code.isCore, armsAreCore, and_eq_true] at hCore
    obtain ⟨hReads, -, hRest⟩ :=
      accepted_arm hCore.1.1.1 hCore.1.1.2 hCore.1.2 hCore.2 hAccepted
    exact hReads.append (ih hCore.2 hRest)

end

/-- The variables where a body starts: its parameters, and the symbols around it. -/
def entryEnv (parameters : List Parameter) (table : SymbolTable) : Env :=
  ((parameters.map Parameter.name).reverse ++ table.map Symbol.name).map fun name => (name, .live)

theorem aligned_live (table : SymbolTable) (state : OwnMoveState) :
    Aligned ((table.map Symbol.name).map fun name => (name, .live)) table state := by
  induction table with
  | nil => exact List.Forall₂.nil
  | cons symbol rest ih => exact List.Forall₂.cons ⟨rfl, fun hMoved => by cases hMoved⟩ ih

namespace SemanticAnalyzer

variable {a : SemanticAnalyzer}

theorem bounded_declare (h : a.Bounded) (name : String) (kind : SymbolKind) :
    (a.declare name kind).Bounded := by
  intro symbol hMem
  simp only [declare, declareAt, attempt, step, SymbolTable.addSymbol] at hMem
  split at hMem
  · exact h symbol hMem
  · rcases mem_cons.mp hMem with hNew | hOld
    · rw [hNew]
      exact Nat.le_refl _
    · exact h symbol hOld

theorem bounded_registerFunction (h : a.Bounded) (name : String) :
    (a.registerFunction name).1.Bounded := by
  rw [registerFunction]
  split
  · exact h
  · exact bounded_declare h name .function

theorem clean_of_addParameters {parameters : List Parameter}
    (h : (a.addParameters parameters).Clean) :
    a.Clean := by
  induction parameters generalizing a with
  | nil => exact h
  | cons parameter rest ih => exact clean_of_declare (ih h)

end SemanticAnalyzer

theorem Tracks.addParameters {parameters : List Parameter} {a : SemanticAnalyzer}
    (h : (a.addParameters parameters).Clean) :
    Tracks (parameters.map Parameter.name).reverse [] a (a.addParameters parameters) := by
  induction parameters generalizing a with
  | nil => exact Tracks.of_checked (Checked.refl a) h
  | cons parameter rest ih =>
    have hFirst := Tracks.declare parameter.name (by decide)
      (SemanticAnalyzer.clean_of_addParameters h)
    have hAll := hFirst.trans (ih h)
    rw [map_cons, reverse_cons]
    exact hAll

/-- Where a function is accepted, a path that meets no excused read meets no
moved variable at all: every read of one is excused. The move stands within a
larger expression, or an `if` or `match` that it stands in has been left, or
the iteration that made it was left early, or the read is in the condition of a
loop that is gone over again, or in the increment of a `for`. -/
theorem analyzeFunction_sound (typing : Nat → Bool) (a : SemanticAnalyzer) (name : String)
    (parameters : List Parameter) (returnType : DataType) (isAsync : Bool) (body : Stmt)
    (hCore : isCore body = true)
    (hDepth : ∀ symbol ∈ a.symbols, symbol.scopeDepth ≤ a.scopeDepth)
    (hStopped : (analyzeStmt typing (.function name parameters returnType isAsync body) a).stopped =
      false)
    (hReports : (analyzeStmt typing (.function name parameters returnType isAsync body) a).reports =
      []) :
    ∀ outcome after bad,
      Exec (fun other => ((a.registerFunction name).1.symbols.lookupClass other).isSome)
          (.stmt body) (entryEnv parameters
            (a.registerFunction name).1.symbols) outcome after bad →
        ∀ read ∈ bad, read.excused = true := by
  intro outcome after bad hExec
  have hBounded := SemanticAnalyzer.bounded_registerFunction hDepth name
  have hClean : (analyzeStmt typing (.function name parameters returnType isAsync body) a).Clean :=
    ⟨hStopped, hReports⟩
  rw [analyzeStmt] at hClean
  cases hRegistered : a.registerFunction name with
  | mk registered goesOn =>
    rw [hRegistered] at hClean hExec hBounded
    cases goesOn with
    | false => exact absurd hClean registered.not_clean_stop
    | true =>
      refine exec_excused hExec hCore ⟨_, ?_, hClean⟩
      have hInside := (@analyzeStmt_follows typing (fun _ => false) body _ hCore).clean hClean
      have hEntered : (registered.enterScope.addParameters parameters).Clean :=
        ⟨hInside.1, hInside.2⟩
      have hTracks := Tracks.addParameters hEntered
      refine ⟨hTracks.bounded (Tracks.enterScope_bounded hBounded),
        hTracks.isClass fun _ => rfl, rfl, ?_⟩
      obtain ⟨new, hSymbols, hNames, -⟩ := hTracks.symbols
      have hEnv : entryEnv parameters registered.symbols =
          ((registered.enterScope.addParameters parameters).symbols.map Symbol.name).map
            fun other => (other, .live) := by
        rw [entryEnv, ← hNames, hSymbols, ← map_append]
        rfl
      rw [hEnv]
      exact aligned_live _ _

/-- The body moves `s` where both branches reach their end, and reads the new owner. -/
theorem analyzeFunction_sound_bothBranches :
    let body : Stmt := .block [.declaration "t" .string .null,
      .ifStmt (.variable "c" false)
        (.block [.assignment (.variable "t" false) (.variable "s" true)])
        (.block [.assignment (.variable "t" false) (.variable "s" true)]),
      .returnStmt (.variable "t" false)]
    let parameters : List Parameter := [⟨"c", .bool⟩, ⟨"s", .string⟩]
    let registered := (({} : SemanticAnalyzer).registerFunction "f").1.symbols
    ∃ after bad, Exec (fun other => (registered.lookupClass other).isSome) (.stmt body)
      (entryEnv parameters registered) .returned after bad ∧
        ∀ read ∈ bad, read.excused = true := by
  intro body parameters registered
  have hPath : ∃ after bad, Exec (fun other => (registered.lookupClass other).isSome) (.stmt body)
      (entryEnv parameters registered) .returned after bad :=
    ⟨_, _, Exec.block (Exec.cons (Exec.declaration _ _ _ _)
      (Exec.cons (Exec.ifThen (Exec.block (Exec.cons (Exec.assignment _ _ _) (Exec.nil _))))
        (Exec.exits (by decide) (Exec.returnStmt _ _))))⟩
  obtain ⟨after, bad, hExec⟩ := hPath
  exact ⟨after, bad, hExec,
    analyzeFunction_sound (fun _ => true) {} "f" parameters .string false body
    (by decide) (by decide) (by decide) (by decide) _ _ _ hExec⟩

/-- The state at a `continue` is joined with nothing, so that the priming pass
over the body does not see the move before it: the function is accepted, and
the second iteration reads what the first has moved. -/
theorem movedBeforeContinue_read :
    let body : Stmt := .block [.declaration "t" .string .null,
      .whileStmt (.variable "c" false) (.block
        [.ifStmt (.variable "d" false)
          (.block [.assignment (.variable "t" false) (.variable "s" true), .continueStmt])
          .null])]
    let parameters : List Parameter := [⟨"c", .bool⟩, ⟨"d", .bool⟩, ⟨"s", .string⟩]
    let accepted := analyzeStmt (fun _ => true) (.function "f" parameters .string false body) {}
    accepted.stopped = false ∧ accepted.reports = [] ∧
      ∃ after bad, Exec (fun _ => false) (.stmt body)
        (entryEnv parameters (({} : SemanticAnalyzer).registerFunction "f").1.symbols) .normal
        after bad ∧ ∃ read ∈ bad, read.name = "s" := by
  refine ⟨by decide, by decide, _, _, Exec.block (Exec.cons (Exec.declaration _ _ _ _)
    (Exec.cons (Exec.whileStmt (Exec.loopContinues
      (Exec.block (Exec.exits (by decide) (Exec.ifThen (Exec.block
        (Exec.cons (Exec.assignment _ _ _) (Exec.exits (by decide) (Exec.continueStmt _)))))))
      (Exec.null _)
      (Exec.loopContinues
        (Exec.block (Exec.exits (by decide) (Exec.ifThen (Exec.block
          (Exec.cons (Exec.assignment _ _ _) (Exec.exits (by decide) (Exec.continueStmt _)))))))
        (Exec.null _) (Exec.loopEnds _ _ _ _ _)))) (Exec.nil _))), by decide⟩

end Casprix.Sema
