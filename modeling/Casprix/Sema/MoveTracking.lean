import Casprix.Sema.Paths
import Casprix.Sema.Scopes

/-! What the analyzer knows after a part of a body it accepts: the variables
in sight, and the variables that the part has certainly moved. -/
namespace Casprix.Sema

open List Frontend Bool Option

namespace SemanticAnalyzer

/-- Nothing has been found wrong. -/
def Clean (analyzer : SemanticAnalyzer) : Prop :=
  analyzer.stopped = false ∧ analyzer.reports = []

/-- No symbol is deeper than the counter. -/
def Bounded (analyzer : SemanticAnalyzer) : Prop :=
  ∀ symbol ∈ analyzer.symbols, symbol.scopeDepth ≤ analyzer.scopeDepth

/-- The analyzer and the semantics take the same names for classes. -/
def IsClass (analyzer : SemanticAnalyzer) (isClass : String → Bool) : Prop :=
  ∀ name, isClass name = (analyzer.symbols.lookupClass name).isSome

theorem not_clean_stop (analyzer : SemanticAnalyzer) : ¬ analyzer.stop.Clean :=
  fun h => Bool.noConfusion h.1

end SemanticAnalyzer

/-- An expression leaves the table and the moves alone, and an accepted one
reads no moved variable. -/
structure Checked (accesses : List (String × Bool)) (a b : SemanticAnalyzer) : Prop where
  view : b.toView = a.toView
  moveState : b.moveState = a.moveState
  suppress : b.suppressDiagnostics = a.suppressDiagnostics
  clean : b.Clean → a.Clean
  unmoved : b.Clean → a.suppressDiagnostics = false → ∀ access ∈ accesses,
    ∃ symbol, a.symbols.lookupSymbol access.1 = some symbol ∧ a.moveState.isMoved symbol = false

namespace Checked

variable {accesses accesses' : List (String × Bool)} {a b c : SemanticAnalyzer}

theorem refl (a : SemanticAnalyzer) : Checked [] a a :=
  ⟨rfl, rfl, rfl, id, nofun⟩

theorem stop (a : SemanticAnalyzer) : Checked accesses a a.stop :=
  ⟨rfl, rfl, rfl, fun h => absurd h a.not_clean_stop, fun h => absurd h a.not_clean_stop⟩

theorem judge (a : SemanticAnalyzer) : Checked [] a a.judge :=
  ⟨rfl, rfl, rfl, id, nofun⟩

theorem symbols (h : Checked accesses a b) : b.symbols = a.symbols :=
  congrArg View.symbols h.view

/-- One expression after another: the reads of both are of variables that are not moved. -/
theorem trans (h : Checked accesses a b) (h' : Checked accesses' b c) :
    Checked (accesses ++ accesses') a c where
  view := h'.view.trans h.view
  moveState := h'.moveState.trans h.moveState
  suppress := h'.suppress.trans h.suppress
  clean hClean := h.clean (h'.clean hClean)
  unmoved hClean hSuppress access hAccess := by
    rcases mem_append.mp hAccess with hAccess | hAccess
    · exact h.unmoved (h'.clean hClean) hSuppress access hAccess
    · have hUnmoved := h'.unmoved hClean (h.suppress.trans hSuppress) access hAccess
      rwa [h.symbols, h.moveState] at hUnmoved

theorem isClass {isClass : String → Bool} (h : Checked accesses a b)
    (hClass : a.IsClass isClass) :
    b.IsClass isClass := by
  intro name
  rw [h.symbols]
  exact hClass name

/-- An accepted read of a variable finds it in the table, and not moved. -/
theorem analyzeVariableExpr (a : SemanticAnalyzer) (name : String) (isMove : Bool) :
    Checked [(name, isMove)] a (a.analyzeVariableExpr name) := by
  rw [SemanticAnalyzer.analyzeVariableExpr]
  cases hLookup : a.symbols.lookupSymbol name with
  | none => exact stop a
  | some symbol =>
    dsimp only
    split
    · split
      · rename_i hSuppress
        exact ⟨rfl, rfl, rfl, id, fun _ hReports => by
          rw [hSuppress] at hReports; cases hReports⟩
      · exact ⟨rfl, rfl, rfl, fun h => absurd h.2 (cons_ne_nil _ _),
          fun h => absurd h.2 (cons_ne_nil _ _)⟩
    · split
      · exact stop a
      · rename_i hMoved _
        refine ⟨rfl, rfl, rfl, id, fun _ _ access hAccess => ?_⟩
        rw [mem_singleton.mp hAccess]
        exact ⟨symbol, hLookup, eq_false_iff.mpr hMoved⟩

/-- After a subexpression without a type the analyzer stops, and nothing is accepted. -/
theorem ifTyped (typing : Nat → Bool) {isClass : String → Bool}
    {next : SemanticAnalyzer → SemanticAnalyzer} (hClass : a.IsClass isClass)
    (h : Checked accesses a b) (hNext : ∀ c, c.IsClass isClass → Checked accesses' c (next c)) :
    Checked (accesses ++ accesses') a (ifTyped typing next b) := by
  rw [Sema.ifTyped]
  split
  · have hJudged := h.trans (judge b)
    rw [append_nil] at hJudged
    exact hJudged.trans (hNext _ (hJudged.isClass hClass))
  · exact h.trans ((judge b).trans (stop b.judge))

/-- The arguments of a member access are analyzed only if it is a call. -/
theorem ifCalled (isMethodCall : Bool) (h : Checked accesses a b) :
    Checked (if isMethodCall then accesses else []) a (if isMethodCall then b else a) := by
  cases isMethodCall with
  | true => exact h
  | false => exact refl a

end Checked

section

variable (typing : Nat → Bool) {isClass : String → Bool}

mutual

/-- By induction on the expression: the analyzer asks about every variable that an
evaluation may read. -/
theorem analyzeExpr_checked : ∀ (expr : Expr) (a : SemanticAnalyzer), isPlain expr = true →
    a.IsClass isClass → Checked (reads isClass expr) a (analyzeExpr typing expr a)
  | .null, a, _, _ | .literal .., a, _, _ | .this, a, _, _
  | .genericInst _, a, _, _ => Checked.refl a
  | .binary _ left right, a, hPlain, hClass => by
      rw [isPlain, and_eq_true] at hPlain
      rw [analyzeExpr, reads]
      split
      · exact Checked.stop a
      · have hLeft := analyzeExpr_checked left a hPlain.1 hClass
        exact hLeft.trans (analyzeExpr_checked right _ hPlain.2 (hLeft.isClass hClass))
  | .unary _ operand, a, hPlain, hClass => by
      rw [analyzeExpr, reads]
      exact analyzeExpr_checked operand a hPlain hClass
  | .variable name isMove, a, _, _ => by
      rw [analyzeExpr, reads]
      exact Checked.analyzeVariableExpr a name isMove
  | .call callee arguments, a, hPlain, hClass => by
      rw [isPlain, and_eq_true] at hPlain
      rw [analyzeExpr, reads]
      by_cases hNull : callee.isNull = true
      · rw [if_pos hNull]
        exact Checked.stop a
      rw [if_neg hNull]
      by_cases hDyn : variableName callee = some "dyn"
      · rw [if_pos hDyn, if_pos hDyn]
        split
        · exact analyzeExprs_checked arguments a hPlain.2 hClass
        · exact Checked.stop a
      · rw [if_neg hDyn, if_neg hDyn]
        exact Checked.ifTyped typing hClass (analyzeExpr_checked callee a hPlain.1 hClass)
          fun c => analyzeExprs_checked arguments c hPlain.2
  | .memberAccess object memberName isMethodCall arguments, a, hPlain, hClass => by
      rw [isPlain, and_eq_true] at hPlain
      have hNames : (variableName object).any isClass = namesClass a object := by
        rw [namesClass]
        exact congrArg (fun p => (variableName object).any p) (funext hClass)
      rw [analyzeExpr, reads, hNames]
      by_cases hNull : object.isNull = true
      · rw [if_pos hNull]
        exact Checked.stop a
      rw [if_neg hNull]
      by_cases hStatic : namesClass a object = true
      · rw [if_pos hStatic, if_pos hStatic]
        exact Checked.ifTyped typing hClass (Checked.refl a) fun c hClassC =>
          Checked.ifCalled isMethodCall (analyzeExprs_checked arguments c hPlain.2 hClassC)
      · rw [if_neg hStatic, if_neg hStatic, ← nil_append (reads isClass object ++ _)]
        refine Checked.ifTyped typing hClass (Checked.refl a) fun c hClassC => ?_
        exact Checked.ifTyped typing hClassC (analyzeExpr_checked object c hPlain.1 hClassC)
          fun d hClassD =>
            Checked.ifCalled isMethodCall (analyzeArguments_checked arguments d hPlain.2 hClassD)
  | .staticAccess className memberName isMethodCall arguments, a, hPlain, hClass => by
      rw [analyzeExpr, reads]
      by_cases hFound : (a.symbols.lookupClass className).isSome = true
      · rw [if_pos hFound]
        exact Checked.ifTyped typing hClass (Checked.refl a) fun c hClassC =>
          Checked.ifCalled isMethodCall (analyzeExprs_checked arguments c hPlain hClassC)
      · rw [if_neg hFound]
        exact Checked.stop a
  | .super memberName isMethodCall arguments, a, hPlain, hClass => by
      rw [analyzeExpr, reads]
      exact Checked.ifTyped typing hClass (Checked.refl a) fun c hClassC =>
        Checked.ifCalled isMethodCall (analyzeExprs_checked arguments c hPlain hClassC)
  | .new className arguments, a, hPlain, hClass => by
      rw [analyzeExpr, reads]
      split
      · exact Checked.ifTyped typing hClass (Checked.refl a)
          fun c => analyzeExprs_checked arguments c hPlain
      · exact Checked.stop a
  | .index array index, a, hPlain, hClass => by
      rw [isPlain, and_eq_true] at hPlain
      rw [analyzeExpr, reads]
      have hArray := analyzeExpr_checked array a hPlain.1 hClass
      exact hArray.trans (analyzeExpr_checked index _ hPlain.2 (hArray.isClass hClass))
  | .lambda .., a, hPlain, _ => nomatch hPlain
  | .await expression, a, hPlain, hClass => by
      rw [analyzeExpr, reads]
      split
      · exact analyzeExpr_checked expression a hPlain hClass
      · exact Checked.stop a
  | .arrayLiteral elements, a, hPlain, hClass => by
      rw [analyzeExpr, reads]
      exact analyzeExprs_checked elements a hPlain hClass

theorem analyzeExprs_checked : ∀ (exprs : List Expr) (a : SemanticAnalyzer),
    arePlain exprs = true → a.IsClass isClass →
      Checked (readsAll isClass exprs) a (analyzeExprs typing exprs a)
  | [], a, _, _ => Checked.refl a
  | expr :: rest, a, hPlain, hClass => by
      rw [arePlain, and_eq_true] at hPlain
      have hFirst := analyzeExpr_checked expr a hPlain.1 hClass
      exact hFirst.trans (analyzeExprs_checked rest _ hPlain.2 (hFirst.isClass hClass))

theorem analyzeArguments_checked : ∀ (exprs : List Expr) (a : SemanticAnalyzer),
    arePlain exprs = true → a.IsClass isClass →
      Checked (readsAll isClass exprs) a (analyzeArguments typing exprs a)
  | [], a, _, _ => Checked.refl a
  | expr :: rest, a, hPlain, hClass => by
      rw [arePlain, and_eq_true] at hPlain
      exact Checked.ifTyped typing hClass (analyzeExpr_checked expr a hPlain.1 hClass)
        fun c => analyzeArguments_checked rest c hPlain.2

end

end

/-- An accepted part of a body adds variables named `declared` to the innermost
scope, forgets no move of an older symbol and moves the variables `moved`. -/
structure Tracks (declared moved : List String) (a b : SemanticAnalyzer) : Prop where
  clean : a.Clean
  suppress : b.suppressDiagnostics = a.suppressDiagnostics
  depth : b.scopeDepth = a.scopeDepth
  symbols : ∃ new, b.symbols = new ++ a.symbols ∧ new.map Symbol.name = declared ∧
    ∀ symbol ∈ new, symbol.scopeDepth = a.scopeDepth ∧ symbol.kind ≠ .class
  keeps : ∀ symbol ∈ a.symbols, a.moveState.isMoved symbol = true →
    b.moveState.isMoved symbol = true
  moves : ∀ name ∈ moved, ∀ symbol, a.symbols.lookupSymbol name = some symbol →
    b.moveState.isMoved symbol = true

variable {name : String}

theorem SymbolTable.mem_of_lookupSymbol {table : SymbolTable} {symbol : Symbol}
    (h : table.lookupSymbol name = some symbol) : symbol ∈ table :=
  mem_of_find?_eq_some h

variable (value : Expr) {kind : SymbolKind} {expr : Expr}

namespace Tracks

variable {declared declared' moved moved' : List String} {a b c : SemanticAnalyzer}

theorem of_checked {accesses : List (String × Bool)}
    (h : Checked accesses a b) (hClean : b.Clean) :
    Tracks [] [] a b where
  clean := h.clean hClean
  suppress := h.suppress
  depth := congrArg View.scopeDepth h.view
  symbols := ⟨[], h.symbols, rfl, nofun⟩
  keeps _ _ hMoved := by rwa [h.moveState]
  moves _ hName := nomatch hName

theorem symbols_eq (h : Tracks [] moved a b) : b.symbols = a.symbols := by
  obtain ⟨new, hSymbols, hNew, -⟩ := h.symbols
  rw [hSymbols, map_eq_nil_iff.mp hNew, nil_append]

theorem bounded (h : Tracks declared moved a b) (hBounded : a.Bounded) : b.Bounded := by
  obtain ⟨new, hSymbols, -, hNew⟩ := h.symbols
  intro symbol hSymbol
  rw [hSymbols, mem_append] at hSymbol
  rw [h.depth]
  rcases hSymbol with hSymbol | hSymbol
  · exact Nat.le_of_eq (hNew symbol hSymbol).1
  · exact hBounded symbol hSymbol

theorem isClass {isClass : String → Bool} (h : Tracks declared moved a b)
    (hClass : a.IsClass isClass) : b.IsClass isClass := by
  obtain ⟨new, hSymbols, -, hNew⟩ := h.symbols
  intro name
  have hNone : new.find? (fun symbol => symbol.kind == .class && symbol.name == name) = none :=
    List.find?_eq_none.mpr fun symbol hSymbol => by simp [(hNew symbol hSymbol).2]
  rw [hSymbols, SymbolTable.lookupClass, find?_append, hNone, none_or]
  exact hClass name

section

variable (h : Tracks declared moved a b)
include h

theorem lookupSymbol (hName : name ∉ declared) :
    b.symbols.lookupSymbol name = a.symbols.lookupSymbol name := by
  obtain ⟨new, hSymbols, hNames, -⟩ := h.symbols
  have hNone : new.find? (fun symbol => symbol.name == name) = none :=
    List.find?_eq_none.mpr fun symbol hSymbol hSame =>
      hName (hNames ▸ mem_map.mpr ⟨symbol, hSymbol, eq_of_beq hSame⟩)
  rw [hSymbols, SymbolTable.lookupSymbol, find?_append, hNone, none_or,
    SymbolTable.lookupSymbol]

theorem mem_symbols {symbol : Symbol} (hMem : symbol ∈ a.symbols) :
    symbol ∈ b.symbols := by
  obtain ⟨new, hSymbols, -⟩ := h.symbols
  rw [hSymbols]
  exact mem_append_right new hMem

theorem mono (hMoved : ∀ name ∈ moved', name ∈ moved) :
    Tracks declared moved' a b :=
  { h with moves := fun name hName => h.moves name (hMoved name hName) }

/-- One part after another. A variable that the first part declares hides the one
of its name that the second part moves. -/
theorem trans (h' : Tracks declared' moved' b c) :
    Tracks (declared' ++ declared) (moved ++ moved'.filter fun name => name ∉ declared) a c where
  clean := h.clean
  suppress := h'.suppress.trans h.suppress
  depth := h'.depth.trans h.depth
  symbols := by
    obtain ⟨new, hSymbols, hNames, hNew⟩ := h.symbols
    obtain ⟨new', hSymbols', hNames', hNew'⟩ := h'.symbols
    refine ⟨new' ++ new, ?_, ?_, fun symbol hSymbol => ?_⟩
    · rw [hSymbols', hSymbols, append_assoc]
    · rw [map_append, hNames, hNames']
    · rcases mem_append.mp hSymbol with hSymbol | hSymbol
      · exact h.depth ▸ hNew' symbol hSymbol
      · exact hNew symbol hSymbol
  keeps symbol hMem hMoved := h'.keeps symbol (h.mem_symbols hMem) (h.keeps symbol hMem hMoved)
  moves name hName symbol hLookup := by
    rcases mem_append.mp hName with hName | hName
    · have hMem := SymbolTable.mem_of_lookupSymbol hLookup
      exact h'.keeps symbol (h.mem_symbols hMem) (h.moves name hName symbol hLookup)
    · obtain ⟨hName, hOther⟩ := mem_filter.mp hName
      rw [← h.lookupSymbol (of_decide_eq_true hOther)] at hLookup
      exact h'.moves name hName symbol hLookup

end

theorem trans_nil (h : Tracks [] moved a b) (h' : Tracks declared moved' b c) :
    Tracks declared (moved ++ moved') a c := by
  have hBoth := h.trans h'
  rw [append_nil] at hBoth
  refine hBoth.mono fun name hName => ?_
  simpa using hName

/-- A state may be put back that has the older moves and those of the part. -/
theorem restore (h : Tracks declared moved a b) {state : OwnMoveState}
    (hKeeps : ∀ symbol ∈ a.symbols, a.moveState.isMoved symbol = true →
      state.isMoved symbol = true)
    (hMoves : ∀ name ∈ moved', ∀ symbol, a.symbols.lookupSymbol name =
      some symbol → state.isMoved
      symbol = true) : Tracks declared moved' a (b.restore state) :=
  ⟨h.clean, h.suppress, h.depth, h.symbols, hKeeps, hMoves⟩

theorem markMovedValue (hClean : (a.markMovedValue value).Clean) :
    Tracks [] (movedName value).toList a (a.markMovedValue value) := by
  rw [SemanticAnalyzer.markMovedValue] at hClean ⊢
  generalize movedName value = point at hClean ⊢
  cases point with
  | none =>
    exact of_checked (Checked.refl a) hClean
  | some name =>
    simp only [SemanticAnalyzer.markMoved] at hClean ⊢
    cases hLookup : a.symbols.lookupSymbol name with
    | none =>
      rw [hLookup] at hClean
      have hSame := of_checked (Checked.refl a) hClean
      refine { hSame with moves := fun other hOther symbol hFound => ?_ }
      rw [toList_some, mem_singleton] at hOther
      rw [hOther, hLookup] at hFound
      cases hFound
    | some symbol =>
      rw [hLookup] at hClean
      have hSame : Tracks [] [] a a := of_checked (Checked.refl a) hClean
      refine hSame.restore (fun other _ hMoved => ?_) fun other hOther found hFound => ?_
      · rw [OwnMoveState.isMoved_moveSet, hMoved, Bool.or_true]
      · rw [toList_some, mem_singleton] at hOther
        rw [hOther, hLookup] at hFound
        rw [OwnMoveState.isMoved_moveSet, Option.some.inj hFound, decide_eq_true rfl, Bool.true_or]

theorem restore_self (h : Tracks [] moved a b) : Tracks [] [] a (b.restore a.moveState) :=
  h.restore (fun _ _ hMoved => hMoved) nofun

theorem declare (name : String) (hKind : kind ≠ .class) (hClean : (a.declare name kind).Clean) :
    Tracks [name] [] a (a.declare name kind) := by
  obtain ⟨hStopped, hReports⟩ := hClean
  simp only [SemanticAnalyzer.declare, SemanticAnalyzer.declareAt, or_eq_false_iff,
    isNone_eq_false_iff, isSome_iff_exists] at hStopped
  obtain ⟨hBefore, table, hTable⟩ := hStopped
  have hAdded : table = ⟨a.nextSymbol, name, kind, a.scopeDepth⟩ :: a.symbols := by
    rw [SymbolTable.addSymbol] at hTable
    split at hTable
    · cases hTable
    · exact (Option.some.inj hTable).symm
  refine ⟨⟨hBefore, hReports⟩, rfl, rfl,
    ⟨[⟨a.nextSymbol, name, kind, a.scopeDepth⟩], ?_, rfl, ?_⟩,
    fun _ _ hMoved => hMoved, fun _ hName => absurd hName not_mem_nil⟩
  · simp only [SemanticAnalyzer.declare, SemanticAnalyzer.declareAt, SemanticAnalyzer.attempt,
      SemanticAnalyzer.step, hTable, getD_some, hAdded, singleton_append]
  · intro symbol hSymbol
    rw [mem_singleton.mp hSymbol]
    exact ⟨rfl, hKind⟩

theorem enterScope_bounded (h : a.Bounded) : a.enterScope.Bounded :=
  fun symbol hSymbol => Nat.le_succ_of_le (h symbol hSymbol)

theorem validateScopeEnd (hBounded : a.Bounded) (h : Tracks declared moved a.enterScope b) :
    Tracks declared moved a.enterScope b.validateScopeEnd := by
  have hOuter : ∀ symbol ∈ a.symbols, symbol.scopeDepth ≠ b.scopeDepth := by
    intro symbol hSymbol hSame
    have hDepth : b.scopeDepth = a.scopeDepth + 1 := h.depth
    have hBound := hBounded symbol hSymbol
    omega
  refine { h with keeps := fun symbol hMem hMoved => ?_, moves :=
    fun name hName symbol hFound => ?_ }
  · rw [SemanticAnalyzer.validateScopeEnd, OwnMoveState.isMoved_forgetScope _ (hOuter symbol hMem)]
    exact h.keeps symbol hMem hMoved
  · rw [SemanticAnalyzer.validateScopeEnd,
      OwnMoveState.isMoved_forgetScope _ (hOuter symbol (SymbolTable.mem_of_lookupSymbol hFound))]
    exact h.moves name hName symbol hFound

/-- After the end of its scope a part declares nothing, and its moves of older variables stay. -/
theorem exitScope (hBounded : a.Bounded) (h : Tracks declared moved a.enterScope b) :
    Tracks [] moved a b.exitScope := by
  have hDepth : b.scopeDepth = a.scopeDepth + 1 := h.depth
  obtain ⟨new, hSymbols, -, hNew⟩ := h.symbols
  refine ⟨h.clean, h.suppress, ?_, ⟨[], ?_, rfl, nofun⟩,
    h.keeps, h.moves⟩
  · show b.scopeDepth - 1 = a.scopeDepth
    rw [hDepth, Nat.add_sub_cancel]
  · show b.symbols.exitScope b.scopeDepth = a.symbols
    rw [hSymbols, hDepth]
    refine View.dropWhile_declared (fun symbol hSymbol => (hNew symbol hSymbol).1) ?_
    intro symbol hSymbol hSame
    have hBound := hBounded symbol (mem_of_mem_head? hSymbol)
    omega

end Tracks

namespace SemanticAnalyzer

variable {a : SemanticAnalyzer}

theorem clean_of_declare (h : (a.declare name kind).Clean) : a.Clean := by
  refine ⟨?_, h.2⟩
  have hStopped := h.1
  rw [declare, declareAt] at hStopped
  exact (or_eq_false_iff.mp hStopped).1

theorem clean_markMovedValue : (a.markMovedValue value).Clean ↔ a.Clean := by
  rw [markMovedValue]
  split
  · exact Iff.rfl
  · rw [markMoved]
    split
    · exact Iff.rfl
    · exact Iff.rfl

/-- Neither pass over the body of a loop takes a report back. -/
theorem clean_of_loopBodyFixpoint {hasMove : Bool} {body : SemanticAnalyzer → SemanticAnalyzer}
    (hBody : ∀ c, (body c).Clean → c.Clean) (h : (a.loopBodyFixpoint hasMove body).Clean) :
    a.Clean := by
  cases hasMove with
  | true =>
    have hPrimed := hBody _ h
    exact hBody { a with suppressDiagnostics := true } hPrimed
  | false => exact hBody a h

end SemanticAnalyzer

theorem clean_of_analyzeExpr (typing : Nat → Bool) {a : SemanticAnalyzer}
    (hPlain : isPlain expr = true) (h : (analyzeExpr typing expr a).Clean) : a.Clean :=
  (@analyzeExpr_checked typing (fun name => (a.symbols.lookupClass name).isSome) expr a hPlain
    fun _ => rfl).clean h

/-- What a part does when the walk over it ends clean. -/
structure Tracked (isClass : String → Bool) (declared moved : List String)
    (a b : SemanticAnalyzer) : Prop where
  clean : b.Clean → a.Clean
  tracks : a.Bounded → a.IsClass isClass → b.Clean → Tracks declared moved a b

namespace Tracked

variable {isClass : String → Bool} {declared declared' moved moved' : List String}
  {a b c : SemanticAnalyzer}

theorem of_tracks (h : b.Clean → Tracks declared moved a b) :
    Tracked isClass declared moved a b :=
  ⟨fun hClean => (h hClean).clean, fun _ _ => h⟩

theorem refl (a : SemanticAnalyzer) : Tracked isClass [] [] a a :=
  of_tracks (Tracks.of_checked (Checked.refl a))

theorem stop : Tracked isClass declared moved a b.stop :=
  of_tracks fun hClean => absurd hClean b.not_clean_stop

theorem mono (h : Tracked isClass declared moved a b)
    (hMoved : ∀ name ∈ moved', name ∈ moved) :
    Tracked isClass declared moved' a b :=
  ⟨h.clean, fun hBounded hClass hClean => (h.tracks hBounded hClass hClean).mono hMoved⟩

theorem trans (h : Tracked isClass declared moved a b) (h' : Tracked isClass declared' moved' b c) :
    Tracked isClass (declared' ++ declared) (moved ++ moved'.filter fun name => name ∉ declared)
      a c where
  clean hClean := h.clean (h'.clean hClean)
  tracks hBounded hClass hClean := by
    have hFirst := h.tracks hBounded hClass (h'.clean hClean)
    exact hFirst.trans (h'.tracks (hFirst.bounded hBounded) (hFirst.isClass hClass) hClean)

theorem trans_nil (h : Tracked isClass [] moved a b) (h' : Tracked isClass declared moved' b c) :
    Tracked isClass declared (moved ++ moved') a c := by
  have hBoth := h.trans h'
  rw [append_nil] at hBoth
  refine hBoth.mono fun name hName => ?_
  simpa using hName

/-- A part in a scope of its own. -/
theorem inScope (h : Tracked isClass declared moved a.enterScope b) :
    Tracked isClass [] moved a b.exitScope where
  clean := h.clean
  tracks hBounded hClass hClean :=
    (h.tracks (Tracks.enterScope_bounded hBounded) hClass hClean).exitScope hBounded

theorem declare (name : String) (hKind : kind ≠ .class) :
    Tracked isClass [name] [] a (a.declare name kind) :=
  of_tracks (Tracks.declare name hKind)

theorem markMovedValue : Tracked isClass [] (movedName value).toList a (a.markMovedValue value) :=
  of_tracks (Tracks.markMovedValue value)

end Tracked

/-- After both branches a symbol is moved if it is moved on each branch that goes on. -/
theorem isMoved_joinBranches {pre afterThen afterElse : OwnMoveState}
    {thenDiverges elseDiverges : Bool} {symbol : Symbol}
    (hPre : thenDiverges = true → elseDiverges = true → pre.isMoved symbol = true)
    (hThen : thenDiverges = false → afterThen.isMoved symbol = true)
    (hElse : elseDiverges = false → afterElse.isMoved symbol = true) :
    (SemanticAnalyzer.joinBranches pre afterThen afterElse thenDiverges elseDiverges).isMoved
      symbol = true := by
  cases thenDiverges with
  | true =>
    cases elseDiverges with
    | true => exact hPre rfl rfl
    | false => exact hElse rfl
  | false =>
    cases elseDiverges with
    | true => exact hThen rfl
    | false =>
      rw [SemanticAnalyzer.joinBranches, OwnMoveState.isMoved_mergeIntersect, hThen rfl,
        hElse rfl, Bool.and_true]

/-- A statement with two branches moves what each branch that goes on moves. -/
theorem movesOf_ifStmt {condition : Expr} {thenBranch elseBranch : Stmt}
    (h : name ∈ movesOf (.ifStmt condition thenBranch elseBranch)) :
    ¬ (branchDiverges thenBranch = true ∧ branchDiverges elseBranch = true) ∧
      (branchDiverges thenBranch = false → name ∈ movesOf thenBranch) ∧
      (branchDiverges elseBranch = false → name ∈ movesOf elseBranch) := by
  rw [movesOf] at h
  cases hThen : branchDiverges thenBranch with
  | true =>
    cases hElse : branchDiverges elseBranch with
    | true => simp [hThen, hElse] at h
    | false => simpa [hThen, hElse] using h
  | false =>
    cases hElse : branchDiverges elseBranch with
    | true => simpa [hThen, hElse] using h
    | false => simpa [hThen, hElse] using h

/-- The state in which the reporting pass over the body of a loop starts. -/
def loopHead (body : SemanticAnalyzer → SemanticAnalyzer) (analyzer : SemanticAnalyzer) :
    SemanticAnalyzer :=
  let primed := body { analyzer with suppressDiagnostics := true }
  { primed with
    suppressDiagnostics := analyzer.suppressDiagnostics
    moveState := analyzer.moveState.mergeUnion primed.moveState }

section

variable {isClass : String → Bool} {moved : List String}
  {body : SemanticAnalyzer → SemanticAnalyzer} {a : SemanticAnalyzer}

/-- The reporting pass starts from a state in which the moves of the priming pass are known. -/
theorem Tracks.loopHead (hBounded : a.Bounded) (hClass : a.IsClass isClass)
    (hBody : ∀ c, Tracked isClass [] moved c (body c))
    (hClean : (body (loopHead body a)).Clean) : Tracks [] moved a (loopHead body a) := by
  have hHead : (Sema.loopHead body a).Clean := (hBody _).clean hClean
  have hTracks := (hBody { a with suppressDiagnostics := true }).tracks hBounded hClass hHead
  exact { hTracks with
    suppress := rfl
    keeps := fun symbol _ hMoved => OwnMoveState.isMoved_mergeUnion_left _ hMoved
    moves := fun name hName symbol hFound =>
      OwnMoveState.isMoved_mergeUnion_right (hTracks.moves name hName symbol hFound) }

/-- A loop without a move in its body is gone over once. -/
theorem exists_loopHead {hasMove : Bool} (hBounded : a.Bounded) (hClass : a.IsClass isClass)
    (hBody : ∀ c, Tracked isClass [] moved c (body c))
    (hClean : (a.loopBodyFixpoint hasMove body).Clean) (hMoved : hasMove = false → moved = []) :
    ∃ head, (body head).Clean ∧ Tracks [] moved a head := by
  cases hasMove with
  | false =>
    rw [hMoved rfl]
    exact ⟨a, hClean, Tracks.of_checked (Checked.refl a) ((hBody a).clean hClean)⟩
  | true => exact ⟨loopHead body a, hClean, Tracks.loopHead hBounded hClass hBody hClean⟩

/-- A loop whose body is accepted has moved what the body moves. -/
theorem Tracked.loopBodyFixpoint (hasMove : Bool)
    (hBody : ∀ c, Tracked isClass [] moved c (body c)) :
    Tracked isClass [] moved a (a.loopBodyFixpoint hasMove body) := by
  cases hasMove with
  | false => exact hBody a
  | true =>
    refine ⟨SemanticAnalyzer.clean_of_loopBodyFixpoint fun c => (hBody c).clean,
      fun hBounded hClass hClean => ?_⟩
    have hHead := Tracks.loopHead hBounded hClass hBody hClean
    have hFinal := (hBody _).tracks (hHead.bounded hBounded) (hHead.isClass hClass) hClean
    refine (hHead.trans_nil hFinal).restore
      (fun symbol _ hMoved => OwnMoveState.isMoved_mergeUnion_left _ hMoved)
      fun name hName symbol hFound => OwnMoveState.isMoved_mergeUnion_right ?_
    rw [← hHead.lookupSymbol not_mem_nil] at hFound
    exact hFinal.moves name hName symbol hFound

end

section

variable (typing : Nat → Bool) {isClass : String → Bool}

theorem tracks_analyzeExpr {a : SemanticAnalyzer} (hPlain : isPlain expr = true)
    (hClass : a.IsClass isClass) (hClean : (analyzeExpr typing expr a).Clean) :
    Tracks [] [] a (analyzeExpr typing expr a) :=
  Tracks.of_checked (analyzeExpr_checked typing expr a hPlain hClass) hClean

theorem follows_analyzeExpr {a : SemanticAnalyzer} (hPlain : isPlain expr = true) :
    Tracked isClass [] [] a (analyzeExpr typing expr a) :=
  ⟨clean_of_analyzeExpr typing hPlain, fun _ => tracks_analyzeExpr typing hPlain⟩

mutual

/-- By induction on the statement, one case for each form: what the analyzer accepts it
has followed. -/
theorem analyzeStmt_follows : ∀ (stmt : Stmt) (a : SemanticAnalyzer), isCore stmt = true →
    Tracked isClass (declaredName stmt).toList (movesOf stmt) a (analyzeStmt typing stmt a)
  | .null, a, _ | .breakStmt, a, _ | .continueStmt, a, _ => Tracked.refl a
  | .declaration name type initializer, a, hCore => by
      rw [analyzeStmt]
      split
      · exact Tracked.stop
      · exact (((follows_analyzeExpr typing hCore).trans_nil
          (.markMovedValue initializer)).trans_nil
          (.declare name (by decide))).mono fun other hOther => mem_append_left [] hOther
  | .assignment target value, a, hCore => by
      rw [isCore, and_eq_true] at hCore
      rw [analyzeStmt]
      split
      · exact Tracked.stop
      · exact ((follows_analyzeExpr typing hCore.1).trans_nil
          (follows_analyzeExpr typing hCore.2)).trans_nil
          (.markMovedValue value)
  | .print expression, a, hCore | .exprStmt expression, a, hCore => by
      rw [analyzeStmt]
      exact follows_analyzeExpr typing hCore
  | .returnStmt value, a, hCore => by
      rw [analyzeStmt]
      split
      · exact follows_analyzeExpr typing hCore
      · exact Tracked.stop
  | .ifStmt condition thenBranch elseBranch, a, hCore => by
      simp only [isCore, and_eq_true, isNone_iff_eq_none] at hCore
      rw [analyzeStmt]
      split
      · exact Tracked.stop
      have hThenFollows := analyzeStmt_follows thenBranch (analyzeExpr typing condition a)
        hCore.1.1.1.2
      have hElseFollows := analyzeStmt_follows elseBranch
        ((analyzeStmt typing thenBranch (analyzeExpr typing condition a)).restore
          (analyzeExpr typing condition a).moveState) hCore.1.1.2
      rw [hCore.1.2, toList_none] at hThenFollows
      rw [hCore.2, toList_none] at hElseFollows
      refine (follows_analyzeExpr typing hCore.1.1.1.1).trans_nil
        ⟨fun hClean => hThenFollows.clean (hElseFollows.clean hClean),
          fun hBounded hClass hClean => ?_⟩
      have hThen := hThenFollows.tracks hBounded hClass (hElseFollows.clean hClean)
      have hStart := hThen.restore_self
      have hElse := hElseFollows.tracks (hStart.bounded hBounded) (hStart.isClass hClass) hClean
      refine (hStart.trans_nil hElse).restore (fun symbol hMem hMoved => ?_)
        fun name hName symbol hFound => ?_
      · exact isMoved_joinBranches (fun _ _ => hMoved) (fun _ => hThen.keeps symbol hMem hMoved)
          fun _ => hElse.keeps symbol (hStart.mem_symbols hMem) hMoved
      · obtain ⟨hReached, hMovesThen, hMovesElse⟩ :=
          @movesOf_ifStmt name condition thenBranch elseBranch hName
        refine isMoved_joinBranches (fun hT hE => absurd ⟨hT, hE⟩ hReached)
          (fun hReaches => hThen.moves name (hMovesThen hReaches) symbol hFound) fun hReaches => ?_
        rw [← hStart.lookupSymbol not_mem_nil] at hFound
        exact hElse.moves name (hMovesElse hReaches) symbol hFound
  | .whileStmt condition body, a, hCore => by
      simp only [isCore, and_eq_true, isNone_iff_eq_none] at hCore
      rw [analyzeStmt]
      split
      · exact Tracked.stop
      · refine (follows_analyzeExpr typing hCore.1.1).trans_nil
          (Tracked.loopBodyFixpoint _ fun c => ?_)
        have hBody := analyzeStmt_follows body c hCore.1.2
        rwa [hCore.2] at hBody
  | .forStmt none type initializer condition increment body, a, _ => by
      rw [analyzeStmt]
      exact Tracked.of_tracks fun hClean => absurd hClean (SemanticAnalyzer.not_clean_stop _)
  | .forStmt (some name) type initializer condition increment body, a, hCore => by
      simp only [isCore, and_eq_true, isNone_iff_eq_none] at hCore
      rw [analyzeStmt]
      have hDeclared : Tracked isClass [name] [] a.enterScope
          (a.enterScope.declare name .variable) := .declare name (by decide)
      have hTested := (hDeclared.trans (follows_analyzeExpr typing hCore.1.1.1.1.1.2)).trans
        (follows_analyzeExpr typing hCore.1.1.1.1.2)
      have hIncrement := hTested.trans (analyzeStmt_follows increment _ hCore.1.1.1.2)
      rw [hCore.1.2, toList_none] at hIncrement
      have hBody := fun c => analyzeStmt_follows body c hCore.1.1.2
      simp only [hCore.2, toList_none] at hBody
      refine (hIncrement.trans (Tracked.loopBodyFixpoint _ hBody)).inScope.mono
        fun other hOther => ?_
      rw [movesOf] at hOther
      simpa [or_and_right, @eq_comm _ name] using hOther
  | .block statements, a, hCore => by
      rw [analyzeStmt]
      have hInner := analyzeStmts_follows statements a.enterScope hCore
      exact ⟨hInner.clean, fun hBounded hClass hClean =>
        ((hInner.tracks (Tracks.enterScope_bounded hBounded) hClass hClean).validateScopeEnd
          hBounded).exitScope hBounded⟩
  | .matchStmt subject arms, a, hCore => by
      rw [isCore, and_eq_true] at hCore
      rw [analyzeStmt]
      split
      · exact Tracked.stop
      · have hArms := analyzeArms_follows (analyzeExpr typing subject a).moveState arms
          (analyzeExpr typing subject a).moveState (analyzeExpr typing subject a) hCore.2
        exact (follows_analyzeExpr typing hCore.1).trans_nil
          ⟨hArms.1, fun hBounded hClass hClean =>
          hArms.2 hBounded hClass (fun _ _ hMoved => hMoved) hClean⟩

theorem analyzeStmts_follows :
    ∀ (stmts : List Stmt) (a : SemanticAnalyzer), areCore stmts = true →
    Tracked isClass (stmts.filterMap declaredName).reverse (movesOfAll stmts) a
      (analyzeStmts typing stmts a)
  | [], a, _ => Tracked.refl a
  | statement :: rest, a, hCore => by
      rw [areCore, and_eq_true] at hCore
      rw [analyzeStmts]
      have hNames : ((statement :: rest).filterMap declaredName).reverse =
          (rest.filterMap declaredName).reverse ++ (declaredName statement).toList := by
        rw [filterMap_cons]
        cases declaredName statement with
        | none => exact (append_nil _).symm
        | some name => exact reverse_cons
      rw [hNames]
      refine ((analyzeStmt_follows statement a hCore.1).trans
        (analyzeStmts_follows rest _ hCore.2)).mono fun name hName => ?_
      rw [movesOfAll] at hName
      simpa using hName

/-- The arms of a match are joined one after another into `acc`. -/
theorem analyzeArms_follows (pre : OwnMoveState) :
    ∀ (arms : List MatchArm) (acc : OwnMoveState) (a : SemanticAnalyzer),
      armsAreCore arms = true →
      ((analyzeArms typing pre arms acc a).Clean → a.Clean) ∧
        (a.Bounded → a.IsClass isClass →
        (∀ symbol ∈ a.symbols, pre.isMoved symbol = true → acc.isMoved symbol = true) →
        (analyzeArms typing pre arms acc a).Clean →
          Tracks [] [] (a.restore pre) (analyzeArms typing pre arms acc a))
  | [], acc, a, _ => by
      rw [analyzeArms]
      refine ⟨id, fun _ _ hAcc hClean => ?_⟩
      have hSame : Tracks [] [] (a.restore pre) (a.restore pre) :=
        Tracks.of_checked (Checked.refl _) hClean
      exact hSame.restore hAcc nofun
  | .mk pattern body :: rest, acc, a, hCore => by
      simp only [armsAreCore, and_eq_true, isNone_iff_eq_none] at hCore
      rw [analyzeArms]
      have hRest := analyzeArms_follows pre rest (if branchDiverges body then acc else
        acc.mergeIntersect (analyzeStmt typing body ((analyzeExpr typing pattern a).restore
          pre)).moveState) (analyzeStmt typing body ((analyzeExpr typing pattern a).restore pre))
        hCore.2
      have hFollows := analyzeStmt_follows body ((analyzeExpr typing pattern a).restore pre)
        hCore.1.1.2
      rw [hCore.1.2, toList_none] at hFollows
      refine ⟨fun hClean => clean_of_analyzeExpr typing hCore.1.1.1
        (hFollows.clean (hRest.1 hClean)), fun hBounded hClass hAcc hClean => ?_⟩
      have hMatchedClean := hRest.1 hClean
      have hPattern := tracks_analyzeExpr typing hCore.1.1.1 hClass (hFollows.clean hMatchedClean)
      have hStart : Tracks [] [] (a.restore pre) ((analyzeExpr typing pattern a).restore pre) :=
        { hPattern with
          keeps := fun _ _ hMoved => hMoved
          moves := nofun }
      have hBody := hFollows.tracks (hStart.bounded hBounded) (hStart.isClass hClass) hMatchedClean
      have hMatched := hStart.trans_nil hBody.restore_self
      refine hMatched.trans_nil (hRest.2 (hMatched.bounded hBounded) (hMatched.isClass hClass)
        (fun symbol hMem hMoved => ?_) hClean)
      have hMemStart : symbol ∈ ((analyzeExpr typing pattern a).restore pre).symbols := by
        rwa [hBody.symbols_eq] at hMem
      have hMemBefore : symbol ∈ a.symbols := by
        rwa [hStart.symbols_eq] at hMemStart
      split
      · exact hAcc symbol hMemBefore hMoved
      · rw [OwnMoveState.isMoved_mergeIntersect, hAcc symbol hMemBefore hMoved,
          hBody.keeps symbol hMemStart hMoved, Bool.and_true]

end

end

end Casprix.Sema
