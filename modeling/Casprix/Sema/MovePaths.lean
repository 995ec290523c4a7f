import Casprix.Sema.Paths

/-! What a path does to the variables: a statement that reaches its end has
moved, without an excuse, at most the variables it is known to move. -/
namespace Casprix.Sema

open List Frontend

/-- The same variables, of which only those of `names` may have been moved
without an excuse. A name stands for the innermost variable that has it. -/
def Grew : List String → Env → Env → Prop
  | _, [], [] => True
  | names, (name, before) :: outer, (name', after) :: outer' =>
    name = name' ∧ (after = .moved false → before = .moved false ∨ name ∈ names) ∧
      Grew (names.filter fun other => other ≠ name) outer outer'
  | _, _, _ => False

/-- The same variables in the same order, whatever has become of them. -/
def SameNames (env env' : Env) : Prop := env.map Prod.fst = env'.map Prod.fst

namespace Grew

variable {names names' : List String} {env env' env'' : Env}

theorem refl (names : List String) (env : Env) : Grew names env env := by
  induction env generalizing names with
  | nil => exact trivial
  | cons binding outer ih => exact ⟨rfl, .inl, ih _⟩

theorem mono (hNames : ∀ name ∈ names, name ∈ names') (h : Grew names env env') :
    Grew names' env env' := by
  induction env generalizing names names' env' with
  | nil =>
    cases env' with
    | nil => exact trivial
    | cons binding outer => exact h
  | cons binding outer ih =>
    cases env' with
    | nil => exact h
    | cons binding' outer' =>
      obtain ⟨hName, hStatus, hOuter⟩ := h
      refine ⟨hName, fun hMoved => (hStatus hMoved).imp_right (hNames _), ?_⟩
      refine ih (fun name hMem => ?_) hOuter
      obtain ⟨hMem, hOther⟩ := mem_filter.mp hMem
      exact mem_filter.mpr ⟨hNames name hMem, hOther⟩

theorem of_none (h : Grew [] env env') : Grew names env env' :=
  h.mono fun _ hName => absurd hName not_mem_nil

theorem trans_same (h : Grew names env env') (h' : Grew names env' env'') :
    Grew names env env'' := by
  induction env generalizing names env' env'' with
  | nil =>
    cases env' with
    | nil => exact h'
    | cons binding outer => exact absurd h id
  | cons binding outer ih =>
    cases env' with
    | nil => exact absurd h id
    | cons binding' outer' =>
      cases env'' with
      | nil => exact absurd h' id
      | cons binding'' outer'' =>
        obtain ⟨hName, hStatus, hOuter⟩ := h
        obtain ⟨hName', hStatus', hOuter'⟩ := h'
        refine ⟨hName.trans hName', fun hMoved => ?_, ih hOuter (hName ▸ hOuter')⟩
        rcases hStatus' hMoved with hBefore | hNew
        · exact hStatus hBefore
        · exact .inr (hName ▸ hNew)

/-- The moves of two parts together. -/
theorem trans (h : Grew names env env') (h' : Grew names' env' env'') :
    Grew (names ++ names') env env'' :=
  (h.mono fun _ => mem_append_left names').trans_same (h'.mono fun _ => mem_append_right names)

theorem sameNames (h : Grew names env env') : SameNames env env' := by
  induction env generalizing names env' with
  | nil =>
    cases env' with
    | nil => rfl
    | cons binding outer => exact absurd h id
  | cons binding outer ih =>
    cases env' with
    | nil => exact absurd h id
    | cons binding' outer' =>
      obtain ⟨hName, -, hOuter⟩ := h
      exact congrArg₂ List.cons hName (ih hOuter)

/-- Variables in front of both lists shadow those behind them. -/
theorem of_append {front front' : Env} (hFront : SameNames front front')
    (h : Grew names (front ++ env) (front' ++ env')) :
    Grew (names.filter fun name => name ∉ front.map Prod.fst) env env' := by
  induction front generalizing names front' with
  | nil =>
    cases front' with
    | nil => exact h.mono fun name hName => mem_filter.mpr ⟨hName, by simp⟩
    | cons binding outer => exact absurd hFront (cons_ne_nil _ _).symm
  | cons binding outer ih =>
    cases front' with
    | nil => cases hFront
    | cons binding' outer' =>
      obtain ⟨-, -, hOuter⟩ := h
      refine (ih (List.cons.inj hFront).2 hOuter).mono fun name hName => ?_
      obtain ⟨hName, hBehind⟩ := mem_filter.mp hName
      obtain ⟨hName, hOther⟩ := mem_filter.mp hName
      refine mem_filter.mpr ⟨hName, ?_⟩
      simp only [decide_eq_true_eq, map_cons, mem_cons, not_or] at hBehind hOther ⊢
      exact ⟨hOther, hBehind⟩

theorem set {name : String} {status : Status} (h : status ≠ .moved false) :
    Grew [] env (env.set name status) := by
  induction env with
  | nil => exact trivial
  | cons binding outer ih =>
    rw [Env.set]
    split
    · rename_i hName
      exact ⟨hName, fun hMoved => absurd hMoved h, refl _ _⟩
    · exact ⟨rfl, .inl, ih⟩

/-- A move without an excuse is a move of its name. -/
theorem set_moved (env : Env) (name : String) : Grew [name] env (env.set name (.moved false)) := by
  induction env with
  | nil => exact trivial
  | cons binding outer ih =>
    rw [Env.set]
    split
    · rename_i hName
      exact ⟨hName, fun _ => .inr (by rw [hName]; exact mem_cons_self), refl _ _⟩
    · rename_i hName
      refine ⟨rfl, .inl, ih.mono fun other hOther => ?_⟩
      refine mem_filter.mpr ⟨hOther, ?_⟩
      rw [mem_singleton.mp hOther]
      simpa using fun hSame => hName hSame.symm

/-- Moves that are excused are not counted. -/
theorem excuse (h : SameNames env env') : Grew names env (Env.excuse names env env') := by
  induction env generalizing names env' with
  | nil =>
    cases env' with
    | nil => exact trivial
    | cons binding outer => exact absurd h (cons_ne_nil _ _).symm
  | cons binding outer ih =>
    cases env' with
    | nil => cases h
    | cons binding' outer' =>
      refine ⟨rfl, fun hMoved => ?_, ih (List.cons.inj h).2⟩
      by_cases hBefore : binding.2 = .moved false
      · exact .inl hBefore
      · by_cases hName : binding.1 ∈ names
        · exact .inr hName
        · by_cases hAfter : binding'.2 = .moved false
          · simp [hBefore, hName, hAfter] at hMoved
          · simp [hAfter] at hMoved

end Grew

section

variable (isClass : String → Bool)

/-- Reading moves nothing. -/
theorem grew_evalReads (accesses : List (String × Bool)) (env : Env) :
    Grew [] env (evalReads accesses env).1 := by
  induction accesses generalizing env with
  | nil => exact Grew.refl _ _
  | cons access rest ih =>
    have hNext : Grew [] env
        (evalReads rest (if access.2 then env.set access.1 (.moved true) else env)).1 := by
      cases access.2 with
      | true => exact (Grew.set (by decide)).trans_same (ih _)
      | false => exact ih env
    rw [evalReads]
    split
    · exact hNext
    · exact hNext

theorem grew_eval (expr : Expr) (env : Env) : Grew [] env (eval isClass expr env).1 :=
  grew_evalReads _ env

/-- An initializer or an assigned value moves the variable it names with `move`. -/
theorem grew_evalValue (value : Expr) (env : Env) :
    Grew (movedName value).toList env (evalValue isClass value env).1 := by
  rw [evalValue]
  cases movedName value with
  | none => exact grew_eval isClass value env
  | some name => exact (grew_eval isClass value env).trans (Grew.set_moved _ name)

theorem grew_evalTarget (target : Expr) (env : Env) :
    Grew [] env (evalTarget isClass target env).1 := by
  rw [evalTarget]
  split
  · exact grew_eval isClass target env
  · exact Grew.refl _ _

theorem grew_assign (target : Expr) (env : Env) : Grew [] env (assign target env) := by
  rw [assign]
  split
  · exact Grew.refl _ _
  · exact Grew.set (by decide)

theorem evalCondition_env (again : Bool) (condition : Expr) (env : Env) :
    (evalCondition isClass again condition env).1 = (eval isClass condition env).1 := by
  cases again with
  | true => rfl
  | false => rfl

end

namespace Code

/-- The statements that the semantics has: no lambda, and no declaration as the body of a loop. -/
def isCore : Code → Bool
  | .stmt statement => Sema.isCore statement
  | .stmts statements => areCore statements
  | .loop _ condition increment body =>
    isPlain condition && Sema.isCore increment && Sema.isCore body &&
      (declaredName increment).isNone && (declaredName body).isNone
  | .arms those => armsAreCore those

/-- The moves that the analyzer has seen once it has accepted the code. -/
def moves : Code → List String
  | .stmt statement => movesOf statement
  | .stmts statements => movesOfAll statements
  | .loop _ _ increment body => movesOf increment ++ movesOf body
  | .arms _ => []

/-- The variables a path may add: one for a declaration, and any for a list of statements. -/
def Declares : Code → Env → Prop
  | .stmt statement, new => new = (declaredName statement).toList.map fun name => (name, .live)
  | .stmts _, _ => True
  | .loop _ _ _ _, new | .arms _, new => new = []

end Code

/-- After a path the variables are those from before it, behind new ones. -/
def Behaves (code : Code) (env : Env) (outcome : Outcome) (after : Env) : Prop :=
  ∃ new old, after = new ++ old ∧ SameNames env old ∧
    (outcome = .normal → Grew code.moves env old) ∧ code.Declares new

namespace Behaves

variable {code : Code} {env after : Env} {outcome : Outcome}

/-- Code that declares nothing, and moves no more than its moves. -/
theorem of_grew (hNone : code.Declares []) (h : Grew code.moves env after) :
    Behaves code env outcome after :=
  ⟨[], after, rfl, h.sameNames, fun _ => h, hNone⟩

theorem unscoped {statement : Stmt} (h : Behaves (.stmt statement) env outcome after)
    (hScoped : (declaredName statement).isNone = true) :
    SameNames env after ∧ (outcome = .normal → Grew (movesOf statement) env after) := by
  obtain ⟨new, old, rfl, hNames, hGrew, hDeclares⟩ := h
  have hNew : new = [] := by
    rwa [Code.Declares, Option.isNone_iff_eq_none.mp hScoped] at hDeclares
  rw [hNew]
  exact ⟨hNames, hGrew⟩

theorem dropDeclared {new old : Env} (h : SameNames env old) :
    dropDeclared env (new ++ old) = old := by
  have hLength : env.length = old.length := by
    simpa using congrArg List.length h
  rw [Sema.dropDeclared, length_append, hLength, Nat.add_sub_cancel]
  exact drop_left

end Behaves

theorem SameNames.trans {env env' env'' : Env} (h : SameNames env env')
    (h' : SameNames env' env'') :
    SameNames env env'' :=
  Eq.trans h h'

/-- Leaving a loop body keeps the variables. -/
theorem sameNames_leave {outcome : Outcome} (names : List String) {before after : Env}
    (h : SameNames before after) : SameNames before (leave outcome names before after) := by
  rw [leave]
  split
  · exact (Grew.excuse h).sameNames
  · exact h

theorem behaves_leave {code : Code} {env entered after : Env} {outcome : Outcome}
    (hNone : code.Declares []) (hEntered : Grew [] env entered) (h : SameNames entered after) :
    Behaves code env outcome (leave outcome code.moves entered after) := by
  refine ⟨[], _, rfl, hEntered.sameNames.trans (sameNames_leave _ h), fun hNormal => ?_, hNone⟩
  subst hNormal
  exact hEntered.of_none.trans_same (Grew.excuse h)

theorem grew_continued {env middle : Env} (names : List String) (h : SameNames env middle) :
    Grew names env (Env.excuse [] env middle) :=
  (Grew.excuse h).of_none

/-- One turn of a loop: the condition, the body and the increment. -/
theorem grew_iteration {isClass : String → Bool} {condition : Expr} {increment body : Stmt}
    {env middle stepped : Env} (hBody : Grew (movesOf body) (eval isClass condition env).1 middle)
    (hIncrement : Grew (movesOf increment) middle stepped) :
    Grew (movesOf increment ++ movesOf body) env stepped :=
  ((grew_eval isClass condition env).of_none.trans_same
    (hBody.mono fun _ => mem_append_right _)).trans_same
    (hIncrement.mono fun _ => mem_append_left _)

/-- By induction on the path: it moves without an excuse only what the code is seen to move. -/
theorem exec_behaves {isClass : String → Bool} {code : Code} {env after : Env}
    {outcome : Outcome} {bad : List Read} (hExec : Exec isClass code env outcome after bad)
    (hCore : code.isCore = true) : Behaves code env outcome after := by
  induction hExec with
  | null env | breakStmt env | continueStmt env
  | noArm env => exact Behaves.of_grew rfl (Grew.refl _ _)
  | declaration name type initializer env =>
    exact ⟨[_], _, rfl, (grew_evalValue isClass initializer env).sameNames,
      fun _ => grew_evalValue isClass initializer env, rfl⟩
  | assignment target value env =>
    have hTarget := grew_evalTarget isClass target env
    have hValue := grew_evalValue isClass value (evalTarget isClass target env).1
    have hAssign := grew_assign target (evalValue isClass value (evalTarget isClass target env).1).1
    exact Behaves.of_grew rfl (((hTarget.trans hValue).trans hAssign).mono fun name hName => by
      simpa [Code.moves, movesOf] using hName)
  | print expression env | exprStmt expression env | returnStmt expression env =>
    exact Behaves.of_grew rfl (grew_eval isClass expression env)
  | block inner ih =>
    obtain ⟨new, old, rfl, hNames, hGrew, -⟩ := ih hCore
    rw [Behaves.dropDeclared hNames]
    exact ⟨[], old, rfl, hNames, hGrew, rfl⟩
  | @ifThen condition thenBranch elseBranch env outcome after bad branch ih =>
    simp only [Code.isCore, isCore, Bool.and_eq_true] at hCore
    exact @behaves_leave (.stmt (.ifStmt condition thenBranch elseBranch)) _ _ _ _ rfl
      (grew_eval isClass condition env) ((ih hCore.1.1.1.2).unscoped hCore.1.2).1
  | @ifElse condition thenBranch elseBranch env outcome after bad branch ih =>
    simp only [Code.isCore, isCore, Bool.and_eq_true] at hCore
    exact @behaves_leave (.stmt (.ifStmt condition thenBranch elseBranch)) _ _ _ _ rfl
      (grew_eval isClass condition env) ((ih hCore.1.1.2).unscoped hCore.2).1
  | @whileStmt condition body env outcome after bad loop ih =>
    simp only [Code.isCore, isCore, Bool.and_eq_true] at hCore
    obtain ⟨new, old, rfl, hNames, hGrew, hNew⟩ := ih (by
      simp only [Code.isCore, Bool.and_eq_true]
      exact ⟨⟨⟨⟨hCore.1.1, rfl⟩, hCore.1.2⟩, rfl⟩, hCore.2⟩)
    exact ⟨new, old, rfl, hNames, hGrew, by rw [hNew]; rfl⟩
  | @forStmt name type initializer condition increment body env outcome after bad loop ih =>
    simp only [Code.isCore, isCore, Bool.and_eq_true] at hCore
    obtain ⟨new, old, rfl, hNames, hGrew, hNew⟩ := ih (by
      simp only [Code.isCore, Bool.and_eq_true]
      exact ⟨⟨⟨⟨hCore.1.1.1.1.2, hCore.1.1.1.2⟩, hCore.1.1.2⟩, hCore.1.2⟩, hCore.2⟩)
    have hInit := grew_eval isClass initializer ((name, .live) :: env)
    have hAll := hInit.sameNames.trans hNames
    cases old with
    | nil => cases hAll
    | cons binding outer =>
      have hOuter : SameNames env outer := (List.cons.inj hAll).2
      rw [show new ++ binding :: outer = (new ++ [binding]) ++ outer by simp,
        Behaves.dropDeclared hOuter]
      refine ⟨[], outer, rfl, hOuter, fun hNormal => ?_, rfl⟩
      have hBoth := hInit.trans (hGrew hNormal)
      refine hBoth.2.2.mono fun other hOther => ?_
      obtain ⟨hOther, hName⟩ := mem_filter.mp hOther
      refine mem_filter.mpr ⟨hOther, decide_eq_true fun hSame => ?_⟩
      exact of_decide_eq_true hName (Option.some.inj hSame).symm
  | @matchStmt subject arms env outcome after bad taken ih =>
    simp only [Code.isCore, isCore, Bool.and_eq_true] at hCore
    obtain ⟨new, old, rfl, hNames, hGrew, hNew⟩ := ih hCore.2
    have hSubject := grew_eval isClass subject env
    exact ⟨new, old, rfl, hSubject.sameNames.trans hNames,
      fun hNormal => hSubject.trans (hGrew hNormal), by rw [hNew]; rfl⟩
  | nil env => exact Behaves.of_grew trivial (Grew.refl _ _)
  | @cons statement rest env middle outcome after bad bad' first others ihFirst ihOthers =>
    simp only [Code.isCore, areCore, Bool.and_eq_true] at hCore
    obtain ⟨new, old, rfl, hNames, hGrew, hNew⟩ := ihFirst hCore.1
    obtain ⟨new', old', rfl, hNames', hGrew', -⟩ := ihOthers hCore.2
    obtain ⟨front, back, rfl, hFront, hBack⟩ := map_eq_append_iff.mp
      (hNames'.symm.trans map_append)
    refine ⟨new' ++ front, back, by simp, hNames.trans hBack.symm, fun hNormal => ?_, trivial⟩
    have hRest := Grew.of_append hFront.symm (hGrew' hNormal)
    refine ((hGrew rfl).trans hRest).mono fun name hName => ?_
    simp only [Code.Declares] at hNew
    simp only [Code.moves, movesOfAll, mem_append, mem_filter, hNew] at hName ⊢
    simpa using hName
  | @exits statement rest env outcome after bad hOutcome first ih =>
    simp only [Code.isCore, areCore, Bool.and_eq_true] at hCore
    obtain ⟨new, old, rfl, hNames, -, -⟩ := ih hCore.1
    exact ⟨new, old, rfl, hNames, fun hNormal => absurd hNormal hOutcome, trivial⟩
  | loopEnds again condition increment body env =>
    rw [evalCondition_env]
    exact Behaves.of_grew rfl (grew_eval isClass condition env).of_none
  | @loopReturns again condition increment body env after bad inner ih =>
    simp only [Code.isCore, Bool.and_eq_true] at hCore
    have hBody := (ih hCore.1.1.2).unscoped hCore.2
    rw [evalCondition_env] at hBody
    exact ⟨[], after, rfl, (grew_eval isClass condition env).sameNames.trans hBody.1,
      fun hNormal => absurd hNormal (by decide), rfl⟩
  | @loopBreaks again condition increment body env after bad inner ih =>
    simp only [Code.isCore, Bool.and_eq_true] at hCore
    have hBody := (ih hCore.1.1.2).unscoped hCore.2
    rw [evalCondition_env] at hBody ⊢
    have hLeft := (grew_eval isClass condition env).trans_same (Grew.excuse hBody.1)
    exact Behaves.of_grew rfl hLeft.of_none
  | @loopNext again condition increment body env middle stepped outcome after bad bad' bad'' inner
      increments next ihBody ihIncrement ihNext =>
      have hParts := hCore
      simp only [Code.isCore, Bool.and_eq_true] at hParts
      have hBody := (ihBody hParts.1.1.2).unscoped hParts.2
      have hIncrement := (ihIncrement hParts.1.1.1.2).unscoped hParts.1.2
      obtain ⟨new, old, rfl, hNames, hGrew, hNew⟩ := ihNext hCore
      rw [evalCondition_env] at hBody
      have hIteration := grew_iteration (hBody.2 rfl) (hIncrement.2 rfl)
      exact ⟨new, old, rfl, hIteration.sameNames.trans hNames,
        fun hNormal => hIteration.trans_same (hGrew hNormal), hNew⟩
  | @loopContinues again condition increment body env middle stepped outcome after bad bad' bad''
      inner increments next ihBody ihIncrement ihNext =>
      have hParts := hCore
      simp only [Code.isCore, Bool.and_eq_true] at hParts
      have hBody := (ihBody hParts.1.1.2).unscoped hParts.2
      have hIncrement := (ihIncrement hParts.1.1.1.2).unscoped hParts.1.2
      obtain ⟨new, old, rfl, hNames, hGrew, hNew⟩ := ihNext hCore
      rw [evalCondition_env] at hBody hIncrement
      have hIteration := grew_iteration (grew_continued (movesOf body) hBody.1) (hIncrement.2 rfl)
      exact ⟨new, old, rfl, hIteration.sameNames.trans hNames,
        fun hNormal => hIteration.trans_same (hGrew hNormal), hNew⟩
  | @arm pattern body rest env outcome after bad taken ih =>
    simp only [Code.isCore, armsAreCore, Bool.and_eq_true] at hCore
    exact @behaves_leave (.arms (.mk pattern body :: rest)) _ _ _ _ rfl
      (grew_eval isClass pattern env) ((ih hCore.1.1.2).unscoped hCore.1.2).1
  | @nextArm pattern body rest env outcome after bad hPattern others ih =>
    simp only [Code.isCore, armsAreCore, Bool.and_eq_true] at hCore
    obtain ⟨new, old, rfl, hNames, hGrew, hNew⟩ := ih hCore.2
    have hPatternGrew := grew_eval isClass pattern env
    exact ⟨new, old, rfl, hPatternGrew.sameNames.trans hNames,
      fun hNormal => hPatternGrew.trans (hGrew hNormal), hNew⟩

end Casprix.Sema
