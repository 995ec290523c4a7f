import Casprix.Middle.Closure

/-! The lambdas whose captures are their free variables: what the search leaves out of a
lambda does not matter, and no outer variable is declared again in an inner block. -/
namespace Casprix.Closure

open List Frontend

mutual

/-- The expression without nested lambdas, array literals, `await` and `super`. -/
def keptExpr : Expr → Expr
  | .binary operator left right => .binary operator (keptExpr left) (keptExpr right)
  | .unary operator operand => .unary operator (keptExpr operand)
  | .call callee arguments => .call (keptExpr callee) (keptExprs arguments)
  | .memberAccess object memberName isMethodCall arguments =>
    .memberAccess (keptExpr object) memberName isMethodCall (keptExprs arguments)
  | .staticAccess className memberName isMethodCall arguments =>
    .staticAccess className memberName isMethodCall (keptExprs arguments)
  | .new className arguments => .new className (keptExprs arguments)
  | .index array index => .index (keptExpr array) (keptExpr index)
  | .lambda .. | .await _ | .arrayLiteral _ | .super .. => .null
  | expr => expr

def keptExprs : List Expr → List Expr
  | [] => []
  | expr :: rest => keptExpr expr :: keptExprs rest

end

mutual

/-- The statement without `for` over a collection, `match`, `try`, `throw` and declarations
other than of variables. A `for` loop is left without its variable. -/
def keptStmt : Stmt → Stmt
  | .declaration name type initializer => .declaration name type (keptExpr initializer)
  | .assignment target value => .assignment (keptExpr target) (keptExpr value)
  | .print expression => .print (keptExpr expression)
  | .exprStmt expression => .exprStmt (keptExpr expression)
  | .returnStmt value => .returnStmt (keptExpr value)
  | .ifStmt condition thenBranch elseBranch =>
    .ifStmt (keptExpr condition) (keptStmt thenBranch) (keptStmt elseBranch)
  | .whileStmt condition body => .whileStmt (keptExpr condition) (keptStmt body)
  | .forStmt _ varType initializer condition increment body =>
    .forStmt none varType (keptExpr initializer) (keptExpr condition) (keptStmt increment)
      (keptStmt body)
  | .block statements => .block (keptStmts statements)
  | _ => .null

def keptStmts : List Stmt → List Stmt
  | [] => []
  | statement :: rest => keptStmt statement :: keptStmts rest

end

def LambdaExpr.kept (lambda : LambdaExpr) : LambdaExpr :=
  { lambda with exprBody := keptExpr lambda.exprBody, blockBody := keptStmt lambda.blockBody }

mutual

/-- Whether a variable of the name is declared in the statement, at any depth. -/
def declaresVar (name : String) : Stmt → Bool
  | .declaration declared _ _ => declared == name
  | .ifStmt _ thenBranch elseBranch => declaresVar name thenBranch || declaresVar name elseBranch
  | .whileStmt _ body => declaresVar name body
  | .forStmt _ _ _ _ increment body => declaresVar name increment || declaresVar name body
  | .block statements => declareVar name statements
  | _ => false

def declareVar (name : String) : List Stmt → Bool
  | [] => false
  | statement :: rest => declaresVar name statement || declareVar name rest

end

/-- Whether a variable of the name is declared in an inner block, or behind a use of the name
that is still the outer one. -/
def redeclare (name : String) : List Stmt → Bool
  | [] => false
  | statement :: rest =>
    let isUsed := (freeStmt [] (keptStmt statement)).any fun occurrence => occurrence.name == name
    if declaredNames (keptStmt statement) = [name] then isUsed
    else declaresVar name statement || (if isUsed then declareVar name rest
      else redeclare name rest)

/-- The statements of the body, which stand in the scope of the parameters. -/
def LambdaExpr.statements (lambda : LambdaExpr) : List Stmt :=
  match lambda.blockBody with
  | .block statements => statements
  | body => [body]

def LambdaExpr.redeclares (lambda : LambdaExpr) (name : String) : Bool :=
  !lambda.isExpression && !(name ∈ lambda.names : Bool) && redeclare name lambda.statements

variable {name : String} {bound : List String} {occurrence : Occurrence}

attribute [local simp] keptExpr freeExpr

attribute [local simp] walkedNames reachesAssigned

mutual

theorem mem_freeExpr_kept (expr : Expr) :
    occurrence ∈ freeExpr bound (keptExpr expr) ↔
      occurrence.isTarget = false ∧ occurrence.name ∈ walkedNames expr ∧
        occurrence.name ∉ bound := by
  cases expr with
  | «variable» other isMove =>
    obtain ⟨own, isTarget⟩ := occurrence
    rw [keptExpr, freeExpr, walkedNames, mem_singleton]
    · by_cases hOther : other ∈ bound
      · rw [if_pos hOther]
        refine iff_of_false not_mem_nil ?_
        rintro ⟨-, hOwn, hFree⟩
        exact hFree (hOwn ▸ hOther)
      · rw [if_neg hOther, mem_singleton, Occurrence.mk.injEq]
        constructor
        · rintro ⟨rfl, rfl⟩
          exact ⟨rfl, rfl, hOther⟩
        · exact fun h => ⟨h.2.1, h.1⟩
    all_goals simp
  | memberAccess object memberName isMethodCall arguments =>
    cases isMethodCall <;>
      simp [mem_freeExpr_kept object, mem_freeExprs_kept arguments]
    tauto
  | staticAccess className memberName isMethodCall arguments =>
    cases isMethodCall <;>
      simp [mem_freeExprs_kept arguments]
  | binary _ left right =>
    simp [mem_freeExpr_kept left, mem_freeExpr_kept right]
    tauto
  | call callee arguments =>
    simp [mem_freeExpr_kept callee, mem_freeExprs_kept arguments]
    tauto
  | index array index =>
    simp [mem_freeExpr_kept array, mem_freeExpr_kept index]
    tauto
  | unary _ operand => simp [mem_freeExpr_kept operand]
  | new _ arguments => simp [mem_freeExprs_kept arguments]
  | null | literal | this | super | lambda | genericInst | await | arrayLiteral =>
    simp

theorem mem_freeExprs_kept (exprs : List Expr) :
    occurrence ∈ freeExprs bound (keptExprs exprs) ↔
      occurrence.isTarget = false ∧ occurrence.name ∈ walkedNamesAll exprs ∧
        occurrence.name ∉ bound := by
  cases exprs with
  | nil => simp [keptExprs, freeExprs, walkedNamesAll]
  | cons expr rest =>
    simp [keptExprs, freeExprs, walkedNamesAll, mem_freeExpr_kept expr, mem_freeExprs_kept rest]
    tauto

end

theorem reachesAssigned_append {front back : List Visit} (hKept : .declare name ∉ front) :
    reachesAssigned name (front ++ back) = true ↔
      reachesAssigned name front = true ∨ .use name ∈ front ∧ .assign name ∈ back ∨
        .use name ∉ front ∧ reachesAssigned name back = true := by
  induction front with
  | nil => simp
  | cons visit rest ih =>
    have hRest := ih fun hMem => hKept (mem_cons_of_mem _ hMem)
    cases visit with
    | use used =>
      by_cases hUsed : used = name
      · subst hUsed
        simp
      · have hMem : Visit.use name ∈ Visit.use used :: rest ↔ Visit.use name ∈ rest := by
          simp [Ne.symm hUsed]
        rw [cons_append, reachesAssigned, if_neg hUsed, hRest, reachesAssigned, if_neg hUsed, hMem]
    | assign assigned => simp [hRest]
    | declare declared =>
      have hOther : declared ≠ name := fun hSame => hKept (hSame ▸ mem_cons_self)
      simp [hRest, hOther]

/-- In a stretch of the walk without a declaration of the name, the occurrences that are free
in the scopes are the places the walk goes through. -/
structure Matches (name : String) (occurrences : List Occurrence) (visits : List Visit) : Prop where
  used : (∃ occurrence ∈ occurrences, occurrence.name = name) ↔ .use name ∈ visits
  assigned : ⟨name, true⟩ ∈ occurrences ↔ .assign name ∈ visits
  kept : .declare name ∉ visits
  marked : .assign name ∈ visits → reachesAssigned name visits = true

theorem not_mem_declaredNames {statement : Stmt} (hBound : name ∉ bound)
    (hDeclares : declaresVar name statement = false) :
    name ∉ declaredNames (keptStmt statement) ++ bound := by
  cases statement with
  | declaration own type initializer =>
    have hOther : own ≠ name := beq_eq_false_iff_ne.mp hDeclares
    exact fun hMem => (mem_cons.mp hMem).elim hOther.symm hBound
  | _ => exact hBound

namespace Matches

variable {occurrences occurrences' : List Occurrence} {visits visits' : List Visit}

theorem nil : Matches name [] [] :=
  ⟨by simp, by simp, not_mem_nil, nofun⟩

theorem append (h : Matches name occurrences visits) (h' : Matches name occurrences' visits') :
    Matches name (occurrences ++ occurrences') (visits ++ visits') where
  used := by
    rw [mem_append, ← h.used, ← h'.used]
    simp only [mem_append, or_and_right, exists_or]
  assigned := by rw [mem_append, mem_append, h.assigned, h'.assigned]
  kept hMem := (mem_append.mp hMem).elim h.kept h'.kept
  marked hMem := by
    rw [reachesAssigned_append h.kept]
    rcases mem_append.mp hMem with hFront | hBack
    · exact .inl (h.marked hFront)
    · by_cases hUsed : Visit.use name ∈ visits
      · exact .inr (.inl ⟨hUsed, hBack⟩)
      · exact .inr (.inr ⟨hUsed, h'.marked hBack⟩)

theorem expr (hBound : name ∉ bound) (expr : Expr) :
    Matches name (freeExpr bound (keptExpr expr)) (uses expr) where
  used := by
    simp only [mem_freeExpr_kept, uses, mem_map, Visit.use.injEq]
    constructor
    · rintro ⟨occurrence, ⟨-, hMem, -⟩, rfl⟩
      exact ⟨_, hMem, rfl⟩
    · rintro ⟨_, hMem, rfl⟩
      exact ⟨⟨_, false⟩, ⟨rfl, hMem, hBound⟩, rfl⟩
  assigned := by simp [mem_freeExpr_kept, uses]
  kept := by simp [uses]
  marked hMem := by simp [uses] at hMem

theorem assignment (hBound : name ∉ bound) (target value : Expr) :
    Matches name (freeStmt bound (.assignment (keptExpr target) (keptExpr value)))
      (uses target ++ uses value ++ assigns target) := by
  have hValue := expr hBound value
  have hOther : Matches name (freeExpr bound (keptExpr target) ++ freeExpr bound (keptExpr value))
      (uses target ++ uses value ++ []) := by
    rw [append_nil]
    exact (expr hBound target).append hValue
  cases target with
  | «variable» other isMove =>
    simp only [keptExpr, freeStmt, uses, walkedNames, assigns, map_cons, map_nil]
    by_cases hSame : other = name
    · subst hSame
      rw [if_neg hBound]
      exact ⟨by simp, by simp, by simp, fun _ => by simp⟩
    · have hFirst : Matches name (if other ∈ bound then []
          else [⟨other, true⟩]) [.use other] := by
        split <;> exact ⟨by simp [hSame, Ne.symm hSame],
          by simp [Ne.symm hSame], by simp, by simp⟩
      have hLast : Matches name [] [.assign other] :=
        ⟨by simp, by simp [Ne.symm hSame], by simp, by simp [Ne.symm hSame]⟩
      simpa [uses] using (hFirst.append hValue).append hLast
  | _ => exact hOther

mutual

theorem stmt {bound : List String} (statement : Stmt) (hBound : name ∉ bound)
    (hDeclares : declaresVar name statement = false) :
    Matches name (freeStmt bound (keptStmt statement)) (walked statement) := by
  cases statement with
  | declaration own type initializer =>
    have hOther : own ≠ name := beq_eq_false_iff_ne.mp hDeclares
    have hDeclared : Matches name [] [.declare own] :=
      ⟨by simp, by simp, by simp [hOther.symm], by simp⟩
    simpa [keptStmt, freeStmt, walked] using (expr hBound initializer).append hDeclared
  | assignment target value => exact assignment hBound target value
  | print | exprStmt | returnStmt => exact expr hBound _
  | ifStmt condition thenBranch elseBranch =>
    rw [declaresVar, Bool.or_eq_false_iff] at hDeclares
    exact ((expr hBound condition).append (stmt thenBranch hBound hDeclares.1)).append
      (stmt elseBranch hBound hDeclares.2)
  | whileStmt condition body => exact (expr hBound condition).append (stmt body hBound hDeclares)
  | forStmt varName varType initializer condition increment body =>
    rw [declaresVar, Bool.or_eq_false_iff] at hDeclares
    exact (((expr hBound initializer).append (expr hBound condition)).append
      (stmt increment hBound hDeclares.1)).append (stmt body hBound hDeclares.2)
  | block statements => exact stmts statements hBound hDeclares
  | _ => exact nil

theorem stmts {bound : List String} (statements : List Stmt) (hBound : name ∉ bound)
    (hDeclares : declareVar name statements = false) :
    Matches name (freeStmts bound (keptStmts statements)) (walkedAll statements) := by
  cases statements with
  | nil => exact nil
  | cons statement rest =>
    rw [declareVar, Bool.or_eq_false_iff] at hDeclares
    exact (stmt statement hBound hDeclares.1).append
      (stmts rest (not_mem_declaredNames hBound hDeclares.1) hDeclares.2)

end

end Matches

mutual

/-- A name that is in scope does not occur free. -/
theorem not_free_stmt {bound : List String} (statement : Stmt) (hBound : name ∈ bound) :
    ∀ occurrence ∈ freeStmt bound (keptStmt statement), occurrence.name ≠ name := by
  have hExpr : ∀ expr, ∀ occurrence ∈ freeExpr bound (keptExpr expr),
      occurrence.name ≠ name :=
    fun _ _ hMem hName => (mem_freeExpr_kept _).mp hMem |>.2.2 (hName ▸ hBound)
  cases statement with
  | declaration own type initializer => exact hExpr initializer
  | assignment target value =>
    have hOther : ∀ occurrence ∈ freeExpr bound (keptExpr target) ++
      freeExpr bound (keptExpr value),
        occurrence.name ≠ name :=
      forall_mem_append.mpr ⟨hExpr target, hExpr value⟩
    cases target with
    | «variable» other isMove =>
      refine forall_mem_append.mpr ⟨fun occurrence hMem hName => ?_, hExpr value⟩
      split at hMem
      · exact absurd hMem not_mem_nil
      · next hFree =>
          rw [mem_singleton.mp hMem] at hName
          obtain rfl : other = name := hName
          exact hFree hBound
    | _ => exact hOther
  | print expression | exprStmt expression | returnStmt expression => exact hExpr expression
  | ifStmt condition thenBranch elseBranch =>
    exact forall_mem_append.mpr ⟨forall_mem_append.mpr
      ⟨hExpr condition, not_free_stmt thenBranch hBound⟩, not_free_stmt elseBranch hBound⟩
  | whileStmt condition body =>
    exact forall_mem_append.mpr ⟨hExpr condition, not_free_stmt body hBound⟩
  | forStmt varName varType initializer condition increment body =>
    exact forall_mem_append.mpr ⟨forall_mem_append.mpr ⟨forall_mem_append.mpr
      ⟨hExpr initializer, hExpr condition⟩, not_free_stmt increment hBound⟩,
        not_free_stmt body hBound⟩
  | block statements => exact not_free_stmts statements hBound
  | _ => exact fun _ hMem => absurd hMem not_mem_nil

theorem not_free_stmts {bound : List String} (statements : List Stmt) (hBound : name ∈ bound) :
    ∀ occurrence ∈ freeStmts bound (keptStmts statements), occurrence.name ≠ name := by
  cases statements with
  | nil => exact fun _ hMem => absurd hMem not_mem_nil
  | cons statement rest =>
    exact forall_mem_append.mpr ⟨not_free_stmt statement hBound,
      not_free_stmts rest (mem_append_right _ hBound)⟩

end

variable {lambda : LambdaExpr} {parent : ParentTable}

end Casprix.Closure
