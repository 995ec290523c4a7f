import Casprix.Sema.Analyzer

/-! What the symbol table is for: the scopes of the constructs that are open,
flattened. The analyzer keeps it so while every construct with a depth counter
of its own is entered at a table that holds no local symbol. -/
namespace Casprix.Sema

open List Frontend

/-- The declaration of a name in the innermost open construct that has one. -/
def lexicalLookup (scopes : List Scope) (name : String) : Option Symbol :=
  scopes.findSome? fun scope => scope.declared.find? fun symbol => symbol.name == name

namespace View

def Nondecreasing (view : View) : Prop :=
  view.symbols.Pairwise fun newer older => older.scopeDepth ≤ newer.scopeDepth

def LooksUpLexically (view : View) : Prop :=
  ∀ name, view.symbols.lookupSymbol name = lexicalLookup view.scopes name

/-- The innermost open construct has a declaration of the name. -/
def DeclaresHere (view : View) (name : String) : Prop :=
  ∃ scope ∈ view.scopes.head?, ∃ symbol ∈ scope.declared, symbol.name = name

end View

namespace Step

/-- A declaration is entered exactly when its scope has no other of its name. One that is
skipped, which is no error, is not entered either: its scope has the name. -/
def RejectsRedeclarations (step : Step) : Prop :=
  match step.event with
  | .declare symbol accepted | .addClass symbol _ accepted =>
    accepted = true ↔ ¬ step.before.DeclaresHere symbol.name
  | .skip symbol _ => step.before.DeclaresHere symbol.name
  | _ => True

/-- The table after a construct is the one that was there before it. -/
def RestoresTable (step : Step) : Prop :=
  match step.event with
  | .leave => ∃ scope ∈ step.before.scopes.head?, step.after.symbols = scope.entry
  | _ => True

structure Lexical (step : Step) : Prop where
  nondecreasing : step.after.Nondecreasing
  lookup : step.after.LooksUpLexically
  rejects : step.RejectsRedeclarations
  restores : step.RestoresTable

/-- What the analyzer relies on: a `for-in` loop or a `catch` clause, which
counts its depth from zero, starts at a table without local symbols and inside
a scope; a declaration that is passed over names a symbol of its own scope;
and the parent of a class is known where the class is entered. -/
def Meets (step : Step) : Prop :=
  match step.event with
  | .enterOwn binds bodyIsBlock =>
    bodyIsBlock = true ∧
      (binds = true → 0 < step.before.scopeDepth ∧
        ∀ symbol ∈ step.before.symbols, symbol.scopeDepth = 0) ∧
      (binds = false → ∀ symbol ∈ step.before.symbols.head?, symbol.scopeDepth ≠ 1)
  | .addClass symbol (some parent) _ =>
    parent ≠ symbol.name ∧ (step.before.symbols.lookupClass parent).isSome
  | .skip _ found => found.scopeDepth = step.before.scopeDepth
  | _ => True

instance decidableMeets (step : Step) : Decidable step.Meets :=
  match step with
  | ⟨.enterOwn _ _, _, _⟩ =>
    inferInstanceAs (Decidable (_ ∧ (_ → _ ∧ ∀ _ ∈ _, _) ∧ (_ → _)))
  | ⟨.addClass _ (some _) _, _, _⟩ => inferInstanceAs (Decidable (_ ∧ _))
  | ⟨.addClass _ none _, _, _⟩ | ⟨.enter, _, _⟩ | ⟨.declare _ _, _, _⟩
  | ⟨.leave, _, _⟩ =>
    .isTrue trivial
  | ⟨.skip _ other, before, _⟩ =>
    inferInstanceAs (Decidable (other.scopeDepth = before.scopeDepth))

end Step

variable {view : View}

namespace View

/-- The table is the open scopes one after the other, each at one depth and
deeper than those around it. -/
structure Flat (view : View) : Prop where
  symbols : view.symbols = view.scopes.flatMap Scope.declared
  depth : ∀ scope ∈ view.scopes, ∀ symbol ∈ scope.declared, symbol.scopeDepth = scope.depth
  sorted : view.scopes.Pairwise fun inner outer =>
    ∀ symbol ∈ inner.declared, ∀ around ∈ outer.declared,
      around.scopeDepth < symbol.scopeDepth
  bounded : ∀ symbol ∈ view.symbols, symbol.scopeDepth ≤ view.scopeDepth

/-- The innermost scope is the one the counter stands for. -/
structure Ready (view : View) : Prop extends view.Flat where
  innermost : ∃ scope outer, view.scopes = scope :: outer ∧ scope.depth = view.scopeDepth ∧
    ∀ symbol ∈ outer.flatMap Scope.declared, symbol.scopeDepth < view.scopeDepth

/-- Only the declarations of the innermost scope may differ. -/
def SameAround (view later : View) : Prop :=
  later.scopeDepth = view.scopeDepth ∧ ∃ scope outer declared,
    view.scopes = scope :: outer ∧ later.scopes = { scope with declared := declared } :: outer

theorem SameAround.trans {u v w : View} (h : SameAround u v) (h' : SameAround v w) :
    SameAround u w := by
  obtain ⟨hDepth, scope, outer, declared, hScopes, hLater⟩ := h
  obtain ⟨hDepth', scope', outer', declared', hScopes', hLater'⟩ := h'
  rw [hLater, List.cons.injEq] at hScopes'
  obtain ⟨rfl, rfl⟩ := hScopes'
  exact ⟨hDepth'.trans hDepth, scope, outer, declared', hScopes, hLater'⟩

theorem Ready.sameAround (h : view.Ready) : SameAround view view := by
  obtain ⟨scope, outer, hScopes, -, -⟩ := h.innermost
  exact ⟨rfl, scope, outer, scope.declared, hScopes, hScopes⟩

theorem Flat.nondecreasing (h : view.Flat) : view.Nondecreasing := by
  rw [Nondecreasing, h.symbols, pairwise_flatMap]
  constructor
  · intro scope hScope
    refine pairwise_of_forall_mem_list fun newer hNewer older hOlder => ?_
    exact Nat.le_of_eq
      ((h.depth scope hScope older hOlder).trans (h.depth scope hScope newer hNewer).symm)
  · exact h.sorted.imp fun hBelow newer hNewer older hOlder =>
      Nat.le_of_lt (hBelow newer hNewer older hOlder)

theorem Flat.looksUpLexically (h : view.Flat) : view.LooksUpLexically := by
  intro name
  rw [SymbolTable.lookupSymbol, h.symbols, find?_flatMap, lexicalLookup]

/-- The scan for a redeclaration ends where the innermost scope does. -/
theorem Ready.redeclares_iff (h : view.Ready) (name : String) :
    view.symbols.redeclares name view.scopeDepth = true ↔ view.DeclaresHere name := by
  obtain ⟨scope, outer, hScopes, hDepth, hOuter⟩ := h.innermost
  have hInner : ∀ symbol ∈ scope.declared,
      decide (view.scopeDepth ≤ symbol.scopeDepth) = true := by
    intro symbol hSymbol
    have hSame := h.depth scope (by rw [hScopes]; exact mem_cons_self) symbol hSymbol
    exact decide_eq_true (by omega)
  have hStop : (outer.flatMap Scope.declared).takeWhile
      (fun symbol => decide (view.scopeDepth ≤ symbol.scopeDepth)) = [] := by
    cases hFlat : outer.flatMap Scope.declared with
    | nil => rfl
    | cons symbol rest =>
      have hBelow := hOuter symbol (by rw [hFlat]; exact mem_cons_self)
      exact takeWhile_cons_of_neg (by simpa using hBelow)
  rw [SymbolTable.redeclares, h.symbols, hScopes, flatMap_cons,
    takeWhile_append_of_pos hInner, hStop, append_nil]
  simp [DeclaresHere, hScopes]

end View

/-- From a view with `Pre`, a stretch of the analysis whose steps meet their
condition adds lexical steps and ends in a view that `Post` relates to it. -/
structure Follows (Pre : View → Prop) (Post : View → View → Prop)
    (start finish : SemanticAnalyzer) : Prop where
  steps : start.steps <:+ finish.steps
  holds : (∀ step ∈ finish.steps, step.Meets) → (∀ step ∈ start.steps, step.Lexical) →
    Pre start.toView → (∀ step ∈ finish.steps, step.Lexical) ∧
      Post start.toView finish.toView

/-- The invariant is kept, and only the innermost scope may have more declarations. -/
abbrev Stays := Follows View.Ready fun view later => later.Ready ∧ view.SameAround later

/-- The table, the counter and the open scopes come back as they were. -/
abbrev Restores := Follows View.Flat fun view later => later = view

namespace Follows

variable {Pre Mid : View → Prop} {Post Post' : View → View → Prop} {a b c : SemanticAnalyzer}

theorem trans (h : Follows Pre Post a b) (h' : Follows Mid Post' b c)
    (hMid : ∀ v w, Pre v → Post v w → Mid w) :
    Follows Pre (fun u w => ∃ v, Post u v ∧ Post' v w) a c := by
  refine ⟨h.steps.trans h'.steps, fun hMeets hLexical hPre => ?_⟩
  obtain ⟨hLexical', hPost⟩ :=
    h.holds (fun step hStep => hMeets step (h'.steps.subset hStep)) hLexical hPre
  obtain ⟨hLexical'', hPost'⟩ := h'.holds hMeets hLexical' (hMid _ _ hPre hPost)
  exact ⟨hLexical'', b.toView, hPost, hPost'⟩

theorem weaken (h : Follows Pre Post a b) (hPre : ∀ v, Mid v → Pre v)
    (hPost : ∀ v w, Mid v → Post v w → Post' v w) : Follows Mid Post' a b :=
  ⟨h.steps, fun hMeets hLexical hMid =>
    ⟨(h.holds hMeets hLexical (hPre _ hMid)).1,
      hPost _ _ hMid (h.holds hMeets hLexical (hPre _ hMid)).2⟩⟩

theorem of_step {event : Event}
    (h : (Step.mk event a.toView view).Meets → Pre a.toView →
      (Step.mk event a.toView view).Lexical ∧ Post a.toView view) :
    Follows Pre Post a (a.step event view) := by
  refine ⟨suffix_cons _ _, fun hMeets hLexical hPre => ?_⟩
  obtain ⟨hNew, hPost⟩ := h (hMeets _ mem_cons_self) hPre
  refine ⟨fun step hStep => ?_, hPost⟩
  rcases mem_cons.mp hStep with rfl | hOld
  · exact hNew
  · exact hLexical step hOld

end Follows

variable (a : SemanticAnalyzer)

theorem Stays.refl : Stays a a :=
  ⟨suffix_rfl, fun _ hLexical hReady => ⟨hLexical, hReady, hReady.sameAround⟩⟩

theorem Stays.trans {a b c : SemanticAnalyzer} (h : Stays a b) (h' : Stays b c) : Stays a c :=
  (Follows.trans h h' fun _ _ _ hPost => hPost.1).weaken (fun _ hReady => hReady)
    fun _ _ _ ⟨_, hFirst, hSecond⟩ => ⟨hSecond.1, hFirst.2.trans hSecond.2⟩

/-- The invariant is about the view and the steps, and not about the rest of the state. -/
theorem Stays.of_same {a a' b : SemanticAnalyzer} (h : Stays a b)
    (hView : a.toView = a'.toView := by rfl) (hSteps : a.steps = a'.steps := by rfl) :
    Stays a' b := by
  obtain ⟨hSuffix, hHolds⟩ := h
  rw [hView] at hHolds
  rw [hSteps] at hSuffix hHolds
  exact ⟨hSuffix, hHolds⟩

theorem Stays.to_same {a b b' : SemanticAnalyzer} (h : Stays a b)
    (hView : b.toView = b'.toView := by rfl) (hSteps : b.steps = b'.steps := by rfl) :
    Stays a b' := by
  obtain ⟨hSuffix, hHolds⟩ := h
  rw [hView] at hHolds
  rw [hSteps] at hSuffix hHolds
  exact ⟨hSuffix, hHolds⟩

theorem Restores.refl : Restores a a :=
  ⟨suffix_rfl, fun _ hLexical _ => ⟨hLexical, rfl⟩⟩

theorem Restores.trans {a b c : SemanticAnalyzer} (h : Restores a b) (h' : Restores b c) :
    Restores a c :=
  (Follows.trans h h' fun _ _ hFlat hSame => hSame ▸ hFlat).weaken (fun _ hFlat => hFlat)
    fun _ _ _ ⟨_, hFirst, hSecond⟩ => hSecond.trans hFirst

theorem Restores.stays {a b : SemanticAnalyzer} (h : Restores a b) : Stays a b :=
  Follows.weaken h (fun _ hReady => hReady.toFlat) fun _ _ hReady hSame => by
    subst hSame
    exact ⟨hReady, hReady.sameAround⟩

namespace View

theorem Flat.opened (h : view.Flat) (depth : Nat) {scopeDepth : Nat}
    (hDepth : view.scopeDepth ≤ scopeDepth) :
    Flat ⟨view.symbols, scopeDepth, ⟨depth, view.symbols, []⟩ :: view.scopes⟩ where
  symbols := h.symbols
  depth scope hScope symbol hSymbol := by
    rcases mem_cons.mp hScope with rfl | hOld
    · cases hSymbol
    · exact h.depth scope hOld symbol hSymbol
  sorted := pairwise_cons.mpr ⟨nofun, h.sorted⟩
  bounded symbol hSymbol := Nat.le_trans (h.bounded symbol hSymbol) hDepth

/-- A declaration at the depth of the innermost scope, deeper than all around it. -/
theorem Flat.declared {view : View} (h : view.Flat) {scope : Scope} {outer : List Scope}
    (hScopes : view.scopes = scope :: outer) {symbol : Symbol}
    (hDepth : symbol.scopeDepth = scope.depth) (hBound : symbol.scopeDepth ≤ view.scopeDepth)
    (hOuter : ∀ around ∈ outer.flatMap Scope.declared, around.scopeDepth < symbol.scopeDepth) :
    Flat ⟨symbol :: view.symbols, view.scopeDepth,
      { scope with declared := symbol :: scope.declared } :: outer⟩ where
  symbols := by rw [h.symbols, hScopes, flatMap_cons, flatMap_cons, cons_append]
  depth := by
    intro within hWithin declared hDeclared
    rcases mem_cons.mp hWithin with rfl | hOld
    · rcases mem_cons.mp hDeclared with rfl | hBefore
      · exact hDepth
      · exact h.depth scope (hScopes ▸ mem_cons_self) declared hBefore
    · exact h.depth within (hScopes ▸ mem_cons_of_mem _ hOld) declared hDeclared
  sorted := by
    have hSorted := h.sorted
    rw [hScopes, pairwise_cons] at hSorted
    refine pairwise_cons.mpr ⟨fun around hAround declared hDeclared other hOther => ?_,
      hSorted.2⟩
    rcases mem_cons.mp hDeclared with rfl | hBefore
    · exact hOuter other (mem_flatMap.mpr ⟨around, hAround, hOther⟩)
    · exact hSorted.1 around hAround declared hBefore other hOther
  bounded := by
    intro declared hDeclared
    rcases mem_cons.mp hDeclared with rfl | hBefore
    · exact hBound
    · exact h.bounded declared hBefore

/-- The declaration of a scope that has its name stands, and any other is added. -/
theorem declareInnermost_of_declares {symbol : Symbol} (h : view.DeclaresHere symbol.name) :
    declareInnermost view.scopes symbol = view.scopes := by
  obtain ⟨scope, hScope, declared, hDeclared, hName⟩ := h
  cases hScopes : view.scopes with
  | nil => rfl
  | cons head outer =>
    rw [hScopes, head?_cons, Option.mem_some_iff] at hScope
    subst hScope
    rw [declareInnermost, Scope.declare,
      if_pos (any_eq_true.mpr ⟨declared, hDeclared, by simpa using hName⟩)]

theorem declareInnermost_of_not_declares {symbol : Symbol} {scope : Scope} {outer : List Scope}
    (hScopes : view.scopes = scope :: outer) (h : ¬ view.DeclaresHere symbol.name) :
    declareInnermost view.scopes symbol =
      { scope with declared := symbol :: scope.declared } :: outer := by
  rw [hScopes, declareInnermost, Scope.declare, if_neg]
  intro hAny
  obtain ⟨declared, hDeclared, hName⟩ := any_eq_true.mp hAny
  exact h ⟨scope, by rw [hScopes, head?_cons]; rfl, declared, hDeclared, by simpa using hName⟩

theorem Ready.addSymbol_isSome_iff (h : view.Ready) {symbol : Symbol}
    (hDepth : symbol.scopeDepth = view.scopeDepth) :
    (view.symbols.addSymbol symbol).isSome = true ↔ ¬ view.DeclaresHere symbol.name := by
  rw [← h.redeclares_iff, SymbolTable.addSymbol, hDepth]
  by_cases hRedeclares : view.symbols.redeclares symbol.name view.scopeDepth = true
  · simp [hRedeclares]
  · simp [hRedeclares]

/-- A symbol at the depth of the counter belongs to the innermost scope. -/
theorem Ready.declaresHere (h : view.Ready) {symbol : Symbol} (hMem : symbol ∈ view.symbols)
    (hDepth : symbol.scopeDepth = view.scopeDepth) : view.DeclaresHere symbol.name := by
  obtain ⟨scope, outer, hScopes, -, hOuter⟩ := h.innermost
  rw [h.symbols, hScopes, flatMap_cons, mem_append] at hMem
  rcases hMem with hHere | hAround
  · exact ⟨scope, by rw [hScopes, head?_cons]; rfl, symbol, hHere, rfl⟩
  · exact absurd (hOuter symbol hAround) (by omega)

/-- The later view is within the scope that was opened at the view. -/
def Inside (view later : View) : Prop :=
  later.Ready ∧ later.scopeDepth = view.scopeDepth + 1 ∧
    ∃ declared, later.scopes = ⟨view.scopeDepth + 1, view.symbols, declared⟩ :: view.scopes

theorem Inside.sameAround {u v w : View} (h : Inside u v) (hReady : w.Ready)
    (hSame : SameAround v w) : Inside u w := by
  obtain ⟨-, hDepth, declared, hScopes⟩ := h
  obtain ⟨hDepth', scope, outer, declared', hScopes', hLater⟩ := hSame
  rw [hScopes, List.cons.injEq] at hScopes'
  obtain ⟨rfl, rfl⟩ := hScopes'
  exact ⟨hReady, hDepth'.trans hDepth, declared', hLater⟩

/-- Popping what has the depth of the scope leaves the table found on entry. -/
theorem dropWhile_declared {depth : Nat} {declared symbols : List Symbol}
    (hDeclared : ∀ symbol ∈ declared, symbol.scopeDepth = depth)
    (hSymbols : ∀ symbol ∈ symbols.head?, symbol.scopeDepth ≠ depth) :
    SymbolTable.exitScope (declared ++ symbols) depth = symbols := by
  have hPopped : ∀ symbol ∈ declared, (symbol.scopeDepth == depth) = true :=
    fun symbol hSymbol =>
    beq_iff_eq.mpr (hDeclared symbol hSymbol)
  rw [SymbolTable.exitScope, dropWhile_append_of_pos hPopped]
  cases symbols with
  | nil => rfl
  | cons symbol rest =>
    exact dropWhile_cons_of_neg (by simpa using hSymbols symbol rfl)

theorem Inside.left {later : View} (hFlat : view.Flat) (h : Inside view later) :
    later.symbols.exitScope later.scopeDepth = view.symbols := by
  obtain ⟨hReady, hDepth, declared, hScopes⟩ := h
  rw [hReady.symbols, hScopes, flatMap_cons, ← hFlat.symbols]
  apply dropWhile_declared
  · intro symbol hSymbol
    rw [hDepth]
    exact hReady.depth _ (hScopes ▸ mem_cons_self) symbol hSymbol
  · intro symbol hSymbol
    have hBound := hFlat.bounded symbol (mem_of_mem_head? hSymbol)
    omega

end View

namespace SemanticAnalyzer

theorem enterScope_follows : Follows View.Flat View.Inside a a.enterScope := by
  refine Follows.of_step fun _ hFlat => ?_
  have hOpened := hFlat.opened (a.scopeDepth + 1) (Nat.le_succ a.scopeDepth)
  have hOuter : ∀ symbol ∈ a.scopes.flatMap Scope.declared,
      symbol.scopeDepth < a.scopeDepth + 1 := by
    intro symbol hSymbol
    exact Nat.lt_succ_of_le (hFlat.bounded symbol (hFlat.symbols ▸ hSymbol))
  exact ⟨⟨hOpened.nondecreasing, hOpened.looksUpLexically, trivial, trivial⟩,
    ⟨hOpened, _, _, rfl, rfl, hOuter⟩, rfl, [], rfl⟩

/-- A construct is closed at a view of which it is known what opening it has left inside. -/
theorem close_follows {Within : View → View → Prop}
    {depth scopeDepth : Nat} (a : SemanticAnalyzer)
    (hWithin : ∀ view : View, view.Flat → Within view a.toView →
      a.symbols.exitScope depth = view.symbols ∧
      scopeDepth = view.scopeDepth ∧ ∃ scope, a.scopes = scope :: view.scopes ∧
        scope.entry = view.symbols) :
    Follows (fun later => ∃ view : View, view.Flat ∧ Within view later)
      (fun later left => ∀ view : View, view.Flat → Within view later → left = view)
      a (a.step .leave ⟨a.symbols.exitScope depth, scopeDepth, a.scopes.tail⟩) := by
  refine Follows.of_step fun _ ⟨view, hFlat, hInside⟩ => ?_
  have hView : ∀ view : View, view.Flat → Within view a.toView →
      (⟨a.symbols.exitScope depth, scopeDepth, a.scopes.tail⟩ : View) = view := by
    intro view hFlat hInside
    obtain ⟨hSymbols, hDepth, scope, hScopes, -⟩ := hWithin view hFlat hInside
    rw [hSymbols, hDepth, hScopes, tail_cons]
  obtain ⟨hSymbols, -, scope, hScopes, hEntry⟩ := hWithin view hFlat hInside
  refine ⟨⟨?_, ?_, trivial, scope, ?_, hSymbols.trans hEntry.symm⟩, hView⟩
  · exact (hView view hFlat hInside) ▸ hFlat.nondecreasing
  · exact (hView view hFlat hInside) ▸ hFlat.looksUpLexically
  · exact Option.mem_def.mpr (by rw [hScopes]; rfl)

theorem exitScope_follows :
    Follows (fun later => ∃ view : View, view.Flat ∧ view.Inside later)
      (fun later left => ∀ view : View, view.Flat → view.Inside later → left = view)
      a a.exitScope := by
  apply a.close_follows
  intro view hFlat hInside
  have hSymbols := hInside.left hFlat
  obtain ⟨-, hDepth, declared, hScopes⟩ := hInside
  exact ⟨hSymbols, by rw [hDepth, Nat.add_sub_cancel], _, hScopes, rfl⟩

/-- What a scope is opened for leaves no trace once it is closed. -/
theorem scoped_restores {a b : SemanticAnalyzer} (h : Stays a.enterScope b) :
    Restores a b.exitScope := by
  have hBody : Follows View.Flat View.Inside a b :=
    (a.enterScope_follows.trans h fun _ _ _ hInside => hInside.1).weaken (fun _ hFlat => hFlat)
      fun _ _ _ ⟨_, hInside, hReady, hSame⟩ => hInside.sameAround hReady hSame
  exact (hBody.trans b.exitScope_follows fun view _ hFlat hInside =>
    ⟨view, hFlat, hInside⟩).weaken (fun _ hFlat => hFlat)
      fun view _ hFlat ⟨_, hInside, hLeft⟩ => hLeft view hFlat hInside

/-- An attempt that enters a symbol exactly where its scope lacks the name. -/
theorem attempt_stays {event : Event} {symbol : Symbol}
    {table : Option SymbolTable} (hDepth : symbol.scopeDepth = a.scopeDepth)
    (hEvent : ∀ view, (Step.mk event a.toView view).Meets →
      a.toView.Ready → (Step.mk event a.toView
      view).RejectsRedeclarations ∧ (Step.mk event a.toView view).RestoresTable ∧ table = if
      a.symbols.redeclares symbol.name a.scopeDepth then none else some (symbol :: a.symbols)) :
    Stays a (a.attempt event symbol table) := by
  suffices h : Stays a (a.step event ⟨table.getD a.symbols, a.scopeDepth,
      declareInnermost a.scopes symbol⟩) from ⟨h.steps, h.holds⟩
  refine Follows.of_step fun hMeets hReady => ?_
  obtain ⟨hRejects, hRestores, hTable⟩ := hEvent _ hMeets hReady
  obtain ⟨scope, outer, hScopes, hScope, hOuter⟩ := hReady.innermost
  by_cases hHere : a.toView.DeclaresHere symbol.name
  · rw [if_pos ((hReady.redeclares_iff symbol.name).mpr hHere)] at hTable
    subst hTable
    have hSame : (⟨a.symbols, a.scopeDepth, declareInnermost a.scopes symbol⟩ : View) =
        a.toView := by
      rw [View.declareInnermost_of_declares hHere]
    refine ⟨⟨?_, ?_, hRejects, hRestores⟩, ?_⟩
    · exact hSame.symm ▸ hReady.nondecreasing
    · exact hSame.symm ▸ hReady.looksUpLexically
    · exact hSame.symm ▸ ⟨hReady, hReady.sameAround⟩
  · rw [if_neg fun hPos => hHere ((hReady.redeclares_iff symbol.name).mp hPos)] at hTable
    subst hTable
    have hAdded : (⟨symbol :: a.symbols, a.scopeDepth,
      declareInnermost a.scopes symbol⟩ : View) =
        ⟨symbol :: a.symbols, a.scopeDepth,
          { scope with declared := symbol :: scope.declared } :: outer⟩ := by
      rw [View.declareInnermost_of_not_declares hScopes hHere]
    have hFlat := hReady.toFlat.declared hScopes (hDepth.trans hScope.symm) (Nat.le_of_eq hDepth)
      fun around hAround => hDepth ▸ hOuter around hAround
    refine ⟨⟨?_, ?_, hRejects, hRestores⟩, ?_⟩
    · exact hAdded.symm ▸ hFlat.nondecreasing
    · exact hAdded.symm ▸ hFlat.looksUpLexically
    · exact hAdded.symm ▸ ⟨⟨hFlat, _, _, rfl, hScope, hOuter⟩, rfl,
        scope, outer, _, hScopes, rfl⟩

theorem declare_stays (name : String) (kind : SymbolKind) : Stays a (a.declare name kind) := by
  let symbol : Symbol := ⟨a.nextSymbol, name, kind, a.scopeDepth⟩
  let table := a.symbols.addSymbol symbol
  have hAttempt : Stays a (a.attempt (.declare symbol table.isSome) symbol table) :=
    a.attempt_stays rfl fun _ _ hReady => ⟨hReady.addSymbol_isSome_iff rfl, trivial, rfl⟩
  exact ⟨hAttempt.steps, hAttempt.holds⟩

theorem addParameters_stays (parameters : List Parameter) (a : SemanticAnalyzer) :
    Stays a (a.addParameters parameters) := by
  induction parameters generalizing a with
  | nil => exact Stays.refl a
  | cons parameter rest ih => exact (a.declare_stays parameter.name .parameter).trans (ih _)

theorem addClass_stays (name : String) (parentName : Option String) :
    Stays a (a.addClass name parentName) := by
  have hTable : ∀ view symbol accepted,
      (Step.mk (.addClass symbol parentName accepted) a.toView view).Meets →
        a.symbols.addClass symbol parentName = a.symbols.addSymbol symbol := by
    intro view symbol accepted hMeets
    cases parentName with
    | none => rfl
    | some parent => exact if_pos hMeets
  refine a.attempt_stays rfl fun view hMeets hReady => ⟨?_, trivial, hTable view _ _ hMeets⟩
  rw [hTable view _ _ hMeets]
  exact hReady.addSymbol_isSome_iff rfl

theorem skip_stays {name : String} (kind : SymbolKind) {found : Symbol}
    (hFound : found ∈ a.symbols) (hName : found.name = name) :
    Stays a (a.skip name kind found) := by
  refine a.attempt_stays rfl fun view hMeets hReady => ?_
  have hHere : a.toView.DeclaresHere name := hName ▸ hReady.declaresHere hFound hMeets
  exact ⟨hHere, trivial, by rw [if_pos ((hReady.redeclares_iff name).mpr hHere)]⟩

section

variable (a : SemanticAnalyzer) (name : String)

/-- The name of a symbol that is found by its kind and its name. -/
theorem skip_found {found : Symbol} {kind : SymbolKind} (hFound : a.symbols.find?
    (fun symbol => symbol.kind == kind && symbol.name == name) = some found) :
    Stays a (a.skip name kind found) :=
  a.skip_stays _ (mem_of_find?_eq_some hFound)
    (beq_iff_eq.mp (Bool.and_eq_true_iff.mp (find?_some hFound :)).2)

theorem skip_symbol {found : Symbol} (kind : SymbolKind)
    (hFound : a.symbols.lookupSymbol name = some found) : Stays a (a.skip name kind found) :=
  a.skip_stays _ (mem_of_find?_eq_some hFound) (by simpa using find?_some hFound)

theorem registerFunction_stays :
    Stays a (a.registerFunction name).1 := by
  rw [registerFunction]
  cases hFound : existingFunction a.symbols name with
  | none => exact a.declare_stays name .function
  | some found =>
    exact a.skip_symbol name _ (Option.filter_eq_some_iff.mp hFound).1

theorem registerClass_stays (parentName : Option String) :
    Stays a (a.registerClass name parentName).1 := by
  rw [registerClass]
  cases hFound : a.symbols.lookupClass name with
  | none => exact a.addClass_stays name parentName
  | some found => exact a.skip_found name hFound

theorem registerType_stays :
    Stays a (a.registerType name) := by
  rw [registerType]
  cases hClass : a.symbols.lookupClass name with
  | some found => exact a.skip_found name hClass
  | none =>
    cases hSymbol : a.symbols.lookupSymbol name with
    | none => exact a.addClass_stays name none
    | some found => exact a.skip_symbol name _ hSymbol

theorem registerTrait_stays :
    Stays a (a.registerTrait name).1 := by
  rw [registerTrait]
  cases hTrait : a.symbols.lookupTrait name with
  | some found => exact a.skip_found name hTrait
  | none =>
    cases hSymbol : a.symbols.lookupSymbol name with
    | none => exact a.declare_stays name .trait
    | some found => exact a.skip_symbol name _ hSymbol

end

end SemanticAnalyzer

namespace View

/-- The later view is within a construct that counts from zero, opened at the view. -/
def InsideOwn (view later : View) : Prop :=
  later.Flat ∧ later.scopeDepth = view.scopeDepth ∧
    (∃ declared, later.scopes = ⟨1, view.symbols, declared⟩ :: view.scopes) ∧
    ∀ symbol ∈ view.symbols.head?, symbol.scopeDepth ≠ 1

/-- The construct is about to bind its variable. -/
def OpenedOwn (view later : View) : Prop :=
  later = ⟨view.symbols, view.scopeDepth, ⟨1, view.symbols, []⟩ :: view.scopes⟩ ∧
    0 < view.scopeDepth ∧ ∀ symbol ∈ view.symbols, symbol.scopeDepth = 0

theorem InsideOwn.left {later : View} (hFlat : view.Flat) (h : InsideOwn view later) :
    later.symbols.exitScope 1 = view.symbols := by
  obtain ⟨hLater, -, ⟨declared, hScopes⟩, hHead⟩ := h
  rw [hLater.symbols, hScopes, flatMap_cons, ← hFlat.symbols]
  exact dropWhile_declared
    (fun symbol hSymbol => hLater.depth _ (hScopes ▸ mem_cons_self) symbol hSymbol) hHead

end View

namespace SemanticAnalyzer

section

variable (a : SemanticAnalyzer)

theorem enterOwnScope_follows (bodyIsBlock : Bool) :
    Follows View.Flat View.InsideOwn a (a.enterOwnScope false bodyIsBlock) := by
  refine Follows.of_step fun hMeets hFlat => ?_
  have hOpened := hFlat.opened 1 (Nat.le_refl a.scopeDepth)
  exact ⟨⟨hOpened.nondecreasing, hOpened.looksUpLexically, trivial, trivial⟩,
    hOpened, rfl, ⟨[], rfl⟩, hMeets.2.2 rfl⟩

theorem enterOwnScope_opens (bodyIsBlock : Bool) :
    Follows View.Flat View.OpenedOwn a (a.enterOwnScope true bodyIsBlock) := by
  refine Follows.of_step fun hMeets hFlat => ?_
  have hOpened := hFlat.opened 1 (Nat.le_refl a.scopeDepth)
  exact ⟨⟨hOpened.nondecreasing, hOpened.looksUpLexically, trivial, trivial⟩,
    rfl, hMeets.2.1 rfl⟩

theorem declareAt_follows (name : String) (kind : SymbolKind) :
    Follows (fun later => ∃ view : View, view.Flat ∧ view.OpenedOwn later)
      (fun later bound => ∀ view : View, view.OpenedOwn later → view.InsideOwn bound)
      a (a.declareAt name kind 1) := by
  suffices h : Follows (fun later => ∃ view : View, view.Flat ∧ view.OpenedOwn later)
      (fun later bound => ∀ view : View, view.OpenedOwn later → view.InsideOwn bound) a
      (a.step _ _) from ⟨h.steps, h.holds⟩
  refine Follows.of_step fun _ ⟨view, hFlat, hView, hDepth, hSymbols⟩ => ?_
  let symbol : Symbol := ⟨a.nextSymbol, name, kind, 1⟩
  let bound : View :=
    ⟨symbol :: view.symbols, view.scopeDepth, ⟨1, view.symbols, [symbol]⟩ :: view.scopes⟩
  have hTable : a.symbols.addSymbol symbol = some (symbol :: view.symbols) := by
    have hSame : a.toView.symbols = view.symbols := by rw [hView]
    have hStop : view.symbols.takeWhile (fun symbol => decide (1 ≤ symbol.scopeDepth)) = [] := by
      cases hList : view.symbols with
      | nil => rfl
      | cons first rest =>
        have hZero := hSymbols first (hList ▸ mem_cons_self)
        exact takeWhile_cons_of_neg (by simp [hZero])
    rw [hSame, SymbolTable.addSymbol, if_neg]
    rw [SymbolTable.redeclares, hStop]
    exact Bool.false_ne_true
  have hBound : (⟨(a.symbols.addSymbol symbol).getD a.symbols, a.scopeDepth,
      declareInnermost a.scopes symbol⟩ : View) = bound := by
    have hDepth : a.toView.scopeDepth = view.scopeDepth := by rw [hView]
    have hScopes : a.toView.scopes = ⟨1, view.symbols, []⟩ :: view.scopes := by rw [hView]
    rw [hTable, hDepth, hScopes]
    rfl
  have hFlat' : bound.Flat := by
    refine (hFlat.opened 1 (Nat.le_refl view.scopeDepth)).declared rfl rfl hDepth
      fun around hAround => ?_
    have hZero := hSymbols around (hFlat.symbols ▸ hAround)
    show around.scopeDepth < 1
    omega
  have hHere : ¬ a.toView.DeclaresHere name := by
    rw [hView]
    rintro ⟨scope, hScope, declared, hDeclared, -⟩
    rw [head?_cons, Option.mem_some_iff] at hScope
    subst hScope
    exact not_mem_nil hDeclared
  refine ⟨⟨?_, ?_, ?_, trivial⟩, ?_⟩
  · exact hBound.symm ▸ hFlat'.nondecreasing
  · exact hBound.symm ▸ hFlat'.looksUpLexically
  · show (a.symbols.addSymbol symbol).isSome = true ↔ _
    rw [hTable]
    exact ⟨fun _ => hHere, fun _ => rfl⟩
  · rintro other ⟨hOther, -, hZero⟩
    have hSame : view = other := by
      have hBoth := hView.symm.trans hOther
      rw [View.mk.injEq, List.cons.injEq] at hBoth
      exact View.ext hBoth.1 hBoth.2.1 hBoth.2.2.2
    subst hSame
    refine hBound.symm ▸ ⟨hFlat', rfl, ⟨[symbol], rfl⟩, fun first hFirst => ?_⟩
    rw [hSymbols first (mem_of_mem_head? hFirst)]
    decide

theorem exitOwnScope_follows :
    Follows (fun later => ∃ view : View, view.Flat ∧ view.InsideOwn later)
      (fun later left => ∀ view : View, view.Flat → view.InsideOwn later → left = view)
      a a.exitOwnScope := by
  apply a.close_follows
  intro view hFlat hInside
  have hSymbols := hInside.left hFlat
  obtain ⟨-, hDepth, ⟨declared, hScopes⟩, -⟩ := hInside
  exact ⟨hSymbols, hDepth, _, hScopes, rfl⟩

end

theorem ownScoped_restores {a entered b : SemanticAnalyzer}
    (hEntered : Follows View.Flat View.InsideOwn a entered) (hBody : Restores entered b) :
    Restores a b.exitOwnScope := by
  have hInside : Follows View.Flat View.InsideOwn a b :=
    (hEntered.trans hBody fun _ _ _ hInside => hInside.1).weaken (fun _ hFlat => hFlat)
      fun _ _ _ ⟨_, hInside, hSame⟩ => hSame ▸ hInside
  exact (hInside.trans b.exitOwnScope_follows fun view _ hFlat hInside =>
    ⟨view, hFlat, hInside⟩).weaken (fun _ hFlat => hFlat)
      fun view _ hFlat ⟨_, hInside, hLeft⟩ => hLeft view hFlat hInside

theorem bindsOwn_follows (name : String) (bodyIsBlock : Bool) :
    Follows View.Flat View.InsideOwn a
      ((a.enterOwnScope true bodyIsBlock).declareAt name .variable 1) :=
  ((a.enterOwnScope_opens bodyIsBlock).trans (declareAt_follows _ name .variable)
    fun view _ hFlat hOpened => ⟨view, hFlat, hOpened⟩).weaken (fun _ hFlat => hFlat)
      fun view _ _ ⟨_, hOpened, hBound⟩ => hBound view hOpened

end SemanticAnalyzer

section

variable (typing : Nat → Bool)

theorem ifTyped_stays {next : SemanticAnalyzer → SemanticAnalyzer} {a b : SemanticAnalyzer}
    (hNext : ∀ c, Stays c (next c)) (h : Stays a b) : Stays a (ifTyped typing next b) := by
  rw [ifTyped]
  split
  · have hRest := hNext b.judge
    exact h.trans ⟨hRest.steps, hRest.holds⟩
  · exact ⟨h.steps, h.holds⟩

theorem ifCalled_stays {next : SemanticAnalyzer → SemanticAnalyzer}
    (hNext : ∀ b, Stays b (next b)) (isMethodCall : Bool) (b : SemanticAnalyzer) :
    Stays b (if isMethodCall then next b else b) := by
  cases isMethodCall with
  | true => exact hNext b
  | false => exact Stays.refl b

theorem callable_stays {a entered b : SemanticAnalyzer} (parameters : List Parameter)
    (hBody : Stays entered b)
    (hView : entered.toView = (a.enterScope.addParameters parameters).toView := by rfl)
    (hSteps : entered.steps = (a.enterScope.addParameters parameters).steps := by rfl) :
    Stays a b.exitScope :=
  (SemanticAnalyzer.scoped_restores ((a.enterScope.addParameters_stays parameters).trans
    (hBody.of_same hView hSteps))).stays

theorem loopBodyFixpoint_follows {Pre : View → Prop} {Post : View → View → Prop}
    (hTrans : ∀ {a b c}, Follows Pre Post a b → Follows Pre Post b c → Follows Pre Post a c)
    {body : SemanticAnalyzer → SemanticAnalyzer} (hBody : ∀ a, Follows Pre Post a (body a))
    (hasMove : Bool) (a : SemanticAnalyzer) :
    Follows Pre Post a (a.loopBodyFixpoint hasMove body) := by
  cases hasMove with
  | false => exact hBody a
  | true =>
    have hPrimed := hBody { a with suppressDiagnostics := true }
    have hFinal := hBody
      { body { a with suppressDiagnostics := true } with
        suppressDiagnostics := a.suppressDiagnostics
        moveState :=
          a.moveState.mergeUnion (body { a with suppressDiagnostics := true }).moveState }
    have hBoth : Follows Pre Post a _ :=
      hTrans ⟨hPrimed.steps, hPrimed.holds⟩ ⟨hFinal.steps, hFinal.holds⟩
    exact ⟨hBoth.steps, hBoth.holds⟩

theorem markMovedValue_stays (value : Expr) {a b : SemanticAnalyzer} (h : Stays a b) :
    Stays a (b.markMovedValue value) := by
  rw [SemanticAnalyzer.markMovedValue]
  split
  · exact h
  · rw [SemanticAnalyzer.markMoved]
    split
    · exact h
    · exact ⟨h.steps, h.holds⟩

/-- A body that is not a block is ruled out by the step that entered its construct. -/
theorem ownBody_restores (binds : Bool) (body : Stmt) {a entered b : SemanticAnalyzer}
    (hEntered : Follows View.Flat View.InsideOwn a entered)
    (hStep : ∃ step ∈ entered.steps, step.event = .enterOwn binds body.isBody)
    (hStays : Stays entered b) (hBody : body.isBody = true → Restores entered b) :
    Restores a b.exitOwnScope := by
  cases hBlock : body.isBody with
  | true => exact SemanticAnalyzer.ownScoped_restores hEntered (hBody hBlock)
  | false =>
    obtain ⟨step, hMem, hEvent⟩ := hStep
    have hSteps := hStays.steps.trans (suffix_cons
      (Step.mk .leave b.toView b.exitOwnScope.toView) b.steps)
    refine ⟨hEntered.steps.trans hSteps, fun hMeets => ?_⟩
    have hMet := hMeets step (hSteps.subset hMem)
    rw [Step.Meets, hEvent, hBlock] at hMet
    cases hMet.1

mutual

theorem analyzeExpr_stays : ∀ (expr : Expr) (a : SemanticAnalyzer),
    Stays a (analyzeExpr typing expr a)
  | .null, a | .literal .., a | .this, a | .genericInst _, a => Stays.refl a
  | .binary _ left right, a => by
      rw [analyzeExpr]
      split
      · exact ⟨suffix_rfl, (Stays.refl a).holds⟩
      · exact (analyzeExpr_stays left a).trans (analyzeExpr_stays right _)
  | .unary _ operand, a => analyzeExpr_stays operand a
  | .variable name _, a => by
      rw [analyzeExpr, SemanticAnalyzer.analyzeVariableExpr]
      split
      · exact ⟨suffix_rfl, (Stays.refl a).holds⟩
      · split
        · split
          · exact Stays.refl a
          · exact ⟨suffix_rfl, (Stays.refl a).holds⟩
        · split
          · exact ⟨suffix_rfl, (Stays.refl a).holds⟩
          · exact Stays.refl a
  | .call callee arguments, a => by
      rw [analyzeExpr]
      split
      · exact ⟨suffix_rfl, (Stays.refl a).holds⟩
      · split
        · split
          · exact analyzeExprs_stays arguments a
          · exact ⟨suffix_rfl, (Stays.refl a).holds⟩
        · exact ifTyped_stays typing (analyzeExprs_stays arguments) (analyzeExpr_stays callee a)
  | .memberAccess object _ isMethodCall arguments, a => by
      have hArguments := ifCalled_stays (analyzeArguments_stays arguments) isMethodCall
      have hStatic := ifCalled_stays (analyzeExprs_stays arguments) isMethodCall
      rw [analyzeExpr]
      split
      · exact ⟨suffix_rfl, (Stays.refl a).holds⟩
      · split
        · exact ifTyped_stays typing hStatic (Stays.refl a)
        · exact ifTyped_stays typing
            (fun b => ifTyped_stays typing hArguments (analyzeExpr_stays object b)) (Stays.refl a)
  | .staticAccess className _ isMethodCall arguments, a => by
      rw [analyzeExpr]
      split
      · exact ifTyped_stays typing (ifCalled_stays (analyzeExprs_stays arguments) isMethodCall)
          (Stays.refl a)
      · exact ⟨suffix_rfl, (Stays.refl a).holds⟩
  | .super _ isMethodCall arguments, a => by
      rw [analyzeExpr]
      exact ifTyped_stays typing (ifCalled_stays (analyzeExprs_stays arguments) isMethodCall)
        (Stays.refl a)
  | .new className arguments, a => by
      rw [analyzeExpr]
      split
      · exact ifTyped_stays typing (analyzeExprs_stays arguments) (Stays.refl a)
      · exact ⟨suffix_rfl, (Stays.refl a).holds⟩
  | .index array index, a => (analyzeExpr_stays array a).trans (analyzeExpr_stays index _)
  | .lambda parameters _ isExpression exprBody blockBody, a => by
      rw [analyzeExpr]
      cases isExpression with
      | true =>
        exact (callable_stays parameters (analyzeExpr_stays exprBody
          { a.enterScope.addParameters parameters with inFunction := true })).to_same
      | false =>
        exact (callable_stays parameters (analyzeStmt_stays blockBody
          { a.enterScope.addParameters parameters with inFunction := true }).1).to_same
  | .await expression, a => by
      rw [analyzeExpr]
      split
      · exact analyzeExpr_stays expression a
      · exact ⟨suffix_rfl, (Stays.refl a).holds⟩
  | .arrayLiteral elements, a => analyzeExprs_stays elements a

theorem analyzeExprs_stays : ∀ (exprs : List Expr) (a : SemanticAnalyzer),
    Stays a (analyzeExprs typing exprs a)
  | [], a => Stays.refl a
  | expr :: rest, a => (analyzeExpr_stays expr a).trans (analyzeExprs_stays rest _)

theorem analyzeArguments_stays : ∀ (exprs : List Expr) (a : SemanticAnalyzer),
    Stays a (analyzeArguments typing exprs a)
  | [], a => Stays.refl a
  | expr :: rest, a =>
    ifTyped_stays typing (analyzeArguments_stays rest) (analyzeExpr_stays expr a)

/-- A body keeps the invariant, and as a block it leaves everything as it was,
also where the counter of its construct is not the one of the analyzer. -/
theorem analyzeStmt_stays : ∀ (stmt : Stmt) (a : SemanticAnalyzer),
    Stays a (analyzeStmt typing stmt a) ∧
      (stmt.isBody = true → Restores a (analyzeStmt typing stmt a))
  | .null, a => ⟨Stays.refl a, fun _ => Restores.refl a⟩
  | .include, a | .breakStmt, a | .continueStmt, a =>
    ⟨Stays.refl a, nofun⟩
  | .declaration name type initializer, a => by
      refine ⟨?_, nofun⟩
      have hValued := markMovedValue_stays initializer (analyzeExpr_stays initializer a)
      rw [analyzeStmt]
      split
      · exact ⟨hValued.steps, hValued.holds⟩
      · exact hValued.trans (SemanticAnalyzer.declare_stays _ name .variable)
  | .assignment target value, a => by
      refine ⟨?_, nofun⟩
      rw [analyzeStmt]
      split
      · exact ⟨suffix_rfl, (Stays.refl a).holds⟩
      · exact markMovedValue_stays value
          ((analyzeExpr_stays target a).trans (analyzeExpr_stays value _))
  | .print expression, a | .exprStmt expression, a | .throwStmt expression, a =>
    ⟨analyzeExpr_stays expression a, nofun⟩
  | .ifStmt condition thenBranch elseBranch, a => by
      refine ⟨?_, nofun⟩
      rw [analyzeStmt]
      split
      · exact ⟨suffix_rfl, (Stays.refl a).holds⟩
      · have hThen := (analyzeExpr_stays condition a).trans (analyzeStmt_stays thenBranch _).1
        have hElse := (analyzeStmt_stays elseBranch
          ((analyzeStmt typing thenBranch (analyzeExpr typing condition a)).restore
            (analyzeExpr typing condition a).moveState)).1
        have hBoth := hThen.trans (Stays.of_same hElse)
        exact ⟨hBoth.steps, hBoth.holds⟩
  | .forStmt varName _ initializer condition increment body, a => by
      refine ⟨?_, nofun⟩
      cases varName with
      | none =>
        have hScoped := SemanticAnalyzer.scoped_restores (Stays.refl a.enterScope)
        exact Restores.stays ⟨hScoped.steps, hScoped.holds⟩
      | some name =>
        refine Restores.stays (SemanticAnalyzer.scoped_restores ?_)
        exact ((((a.enterScope.declare_stays name .variable).trans
          (analyzeExpr_stays initializer _)).trans (analyzeExpr_stays condition _)).trans
            (analyzeStmt_stays increment _).1).trans
              (loopBodyFixpoint_follows Stays.trans (fun b => (analyzeStmt_stays body b).1) _ _)
  | .forIn varName iterable body, a => by
      refine ⟨?_, nofun⟩
      rw [analyzeStmt]
      split
      · exact ⟨suffix_rfl, (Stays.refl a).holds⟩
      · refine (analyzeExpr_stays iterable a).trans (Restores.stays ?_)
        refine ownBody_restores true body
          (SemanticAnalyzer.bindsOwn_follows _ varName body.isBody)
          ⟨_, mem_cons_of_mem _ mem_cons_self, rfl⟩ ?_ fun hBlock => ?_
        · exact loopBodyFixpoint_follows Stays.trans (fun b => (analyzeStmt_stays body b).1) _ _
        · exact loopBodyFixpoint_follows Restores.trans
            (fun b => (analyzeStmt_stays body b).2 hBlock) _ _
  | .whileStmt condition body, a => by
      refine ⟨?_, nofun⟩
      rw [analyzeStmt]
      split
      · exact ⟨suffix_rfl, (Stays.refl a).holds⟩
      · exact (analyzeExpr_stays condition a).trans
          (loopBodyFixpoint_follows Stays.trans (fun b => (analyzeStmt_stays body b).1) _ _)
  | .function name parameters _ isAsync body, a => by
      refine ⟨?_, nofun⟩
      have hRegistered := a.registerFunction_stays name
      rw [analyzeStmt]
      cases hPair : a.registerFunction name with
      | mk registered goesOn =>
        rw [hPair] at hRegistered
        cases goesOn with
        | false => exact ⟨hRegistered.steps, hRegistered.holds⟩
        | true =>
          exact hRegistered.trans (callable_stays parameters (analyzeStmt_stays body
            { (registered.enterScope.addParameters parameters).ownershipResetFunction
                with inFunction := true, inAsyncFunction := isAsync }).1).to_same
  | .returnStmt value, a => by
      refine ⟨?_, nofun⟩
      rw [analyzeStmt]
      split
      · exact analyzeExpr_stays value a
      · exact ⟨suffix_rfl, (Stays.refl a).holds⟩
  | .block statements, a => by
      have hBody := analyzeStmts_stays statements a.enterScope
      have hScoped : Restores a (analyzeStmt typing (.block statements) a) :=
        SemanticAnalyzer.scoped_restores ⟨hBody.steps, hBody.holds⟩
      exact ⟨hScoped.stays, fun _ => hScoped⟩
  | .classStmt name parentName defaultValues methods, a => by
      refine ⟨?_, nofun⟩
      have hRegistered := a.registerClass_stays name parentName
      rw [analyzeStmt]
      cases hPair : a.registerClass name parentName with
      | mk registered goesOn =>
        rw [hPair] at hRegistered
        cases goesOn with
        | false => exact ⟨hRegistered.steps, hRegistered.holds⟩
        | true =>
          exact (hRegistered.trans (analyzeExprs_stays defaultValues _)).trans
            (analyzeMethods_stays methods _)
  | .externFunc name, a =>
    ⟨a.declare_stays name .function, nofun⟩
  | .struct name, a | .enum name, a | .union name, a =>
    ⟨a.registerType_stays name, nofun⟩
  | .tryStmt tryBody catches finallyBody, a =>
    ⟨((analyzeStmt_stays tryBody a).1.trans (analyzeCatches_stays catches _)).trans
      (analyzeStmt_stays finallyBody _).1, nofun⟩
  | .matchStmt subject arms, a => by
      refine ⟨?_, nofun⟩
      rw [analyzeStmt]
      split
      · exact ⟨suffix_rfl, (Stays.refl a).holds⟩
      · exact (analyzeExpr_stays subject a).trans (analyzeArms_stays _ arms _ _)
  | .trait name methods, a => by
      refine ⟨?_, nofun⟩
      have hRegistered := a.registerTrait_stays name
      rw [analyzeStmt]
      cases hPair : a.registerTrait name with
      | mk registered goesOn =>
        rw [hPair] at hRegistered
        cases goesOn with
        | false => exact ⟨hRegistered.steps, hRegistered.holds⟩
        | true => exact hRegistered.trans (analyzeDefaultBodies_stays methods _)
  | .impl methods, a =>
    ⟨analyzeStmts_stays methods a, nofun⟩

theorem analyzeStmts_stays : ∀ (stmts : List Stmt) (a : SemanticAnalyzer),
    Stays a (analyzeStmts typing stmts a)
  | [], a => Stays.refl a
  | stmt :: rest, a => (analyzeStmt_stays stmt a).1.trans (analyzeStmts_stays rest _)

theorem analyzeArms_stays (pre : OwnMoveState) :
    ∀ (arms : List MatchArm) (acc : OwnMoveState) (a : SemanticAnalyzer),
      Stays a (analyzeArms typing pre arms acc a)
  | [], _, a => ⟨suffix_rfl, (Stays.refl a).holds⟩
  | .mk pattern body :: rest, acc, a => by
      have hPattern := analyzeExpr_stays pattern a
      have hBody := (analyzeStmt_stays body ((analyzeExpr typing pattern a).restore pre)).1
      exact (hPattern.trans (Stays.of_same hBody)).trans (analyzeArms_stays pre rest _ _)

theorem analyzeCatches_stays : ∀ (catches : List CatchClause) (a : SemanticAnalyzer),
    Stays a (analyzeCatches typing catches a)
  | [], a => Stays.refl a
  | .mk exceptionVar body :: rest, a => by
      refine Stays.trans ?_ (analyzeCatches_stays rest _)
      cases exceptionVar with
      | none =>
        exact Restores.stays (ownBody_restores false body
          (a.enterOwnScope_follows body.isBody) ⟨_, mem_cons_self, rfl⟩
          (analyzeStmt_stays body _).1 (analyzeStmt_stays body _).2)
      | some name =>
        exact Restores.stays (ownBody_restores true body
          (a.bindsOwn_follows name body.isBody)
          ⟨_, mem_cons_of_mem _ mem_cons_self, rfl⟩
          (analyzeStmt_stays body _).1 (analyzeStmt_stays body _).2)

theorem analyzeMethods_stays : ∀ (methods : List Method) (a : SemanticAnalyzer),
    Stays a (analyzeMethods typing methods a)
  | [], a => Stays.refl a
  | .mk _ parameters body :: rest, a => by
      exact (callable_stays parameters (analyzeStmt_stays body
        { a.enterScope.addParameters parameters with inFunction := true }).1).to_same.trans
          (analyzeMethods_stays rest _)

theorem analyzeDefaultBodies_stays : ∀ (methods : List Method) (a : SemanticAnalyzer),
    Stays a (analyzeDefaultBodies typing methods a)
  | [], a => Stays.refl a
  | .mk _ parameters body :: rest, a => by
      rw [analyzeDefaultBodies]
      split
      · exact analyzeDefaultBodies_stays rest a
      · exact (callable_stays parameters (analyzeStmt_stays body
          { a.enterScope.addParameters parameters with inFunction := true }).1).to_same.trans
            (analyzeDefaultBodies_stays rest _)

end

theorem preregister_stays (statement : Stmt) (a : SemanticAnalyzer) :
    Stays a (preregister statement a) := by
  cases statement with
  | externFunc name | function name => exact a.declare_stays name .function
  | classStmt name parentName => exact a.addClass_stays name parentName
  | struct name | enum name | union name => exact a.addClass_stays name none
  | trait name => exact a.declare_stays name .trait
  | _ => exact Stays.refl a

theorem foldl_stays {walk : SemanticAnalyzer → Stmt → SemanticAnalyzer}
    (hWalk : ∀ a statement, Stays a (walk a statement)) (statements : List Stmt)
    (a : SemanticAnalyzer) : Stays a (statements.foldl walk a) := by
  induction statements generalizing a with
  | nil => exact Stays.refl a
  | cons statement rest ih => exact (hWalk a statement).trans (ih _)

end

/-- In a run of the analyzer whose steps meet their conditions the table is a
lexical stack of scopes at every point. -/
theorem analyzeProgram_lexical (typing : Nat → Bool) (statements : List Stmt)
    (hMeets : ∀ step ∈ (analyzeProgram typing statements).steps, step.Meets) :
    ∀ step ∈ (analyzeProgram typing statements).steps, step.Lexical := by
  have hRegistered := foldl_stays (fun a statement => preregister_stays statement a) statements {}
  have hAnalyzed := foldl_stays (fun a statement => (analyzeStmt_stays typing statement a).1)
    (statements.filter fun statement => !statement.isExtern)
    (statements.foldl (fun a statement => preregister statement a) {})
  have hStart : ({} : SemanticAnalyzer).Ready :=
    { symbols := rfl
      depth := fun scope hScope symbol hSymbol => by
        rw [mem_singleton.mp hScope] at hSymbol
        cases hSymbol
      sorted := pairwise_singleton _ _
      bounded := nofun
      innermost := ⟨_, _, rfl, rfl, nofun⟩ }
  exact ((hRegistered.trans hAnalyzed).holds hMeets nofun
    hStart).1

/-- `func f() { for x in 1 { y := x } }` -/
def forInAlone : Stmt :=
  .function "f" [] .void false (.block [.forIn "x" (.literal .i32 (.int 1))
    (.block [.declaration "y" .error (.variable "x" false)])])

theorem analyzeProgram_lexical_forInAlone :
    (∀ step ∈ (analyzeProgram (fun _ => true) [forInAlone]).steps, step.Meets) ∧
      ∀ step ∈ (analyzeProgram (fun _ => true) [forInAlone]).steps, step.Lexical :=
  have hMeets : ∀ step ∈ (analyzeProgram (fun _ => true) [forInAlone]).steps, step.Meets := by
    decide
  ⟨hMeets, analyzeProgram_lexical _ _ hMeets⟩

/-- `func g(p: array) { for x in p { } }` -/
def forInParameter : Stmt :=
  .function "g" [⟨"p", .array⟩] .void false
    (.block [.forIn "x" (.variable "p" false) (.block [])])

/-- The loop takes the parameter out of the table along with its own variable. -/
theorem forInParameter_not_lexical :
    ¬ ∀ typing statements, ∀ step ∈ (analyzeProgram typing statements).steps,
      step.Lexical := by
  intro hAll
  have hLost : ∃ step ∈ (analyzeProgram (fun _ => true) [forInParameter]).steps,
      step.event = .leave ∧ ∀ scope ∈ step.before.scopes.head?,
        step.after.symbols ≠ scope.entry := by
    decide
  obtain ⟨step, hStep, hLeave, hOther⟩ := hLost
  have hRestores := (hAll _ _ step hStep).restores
  rw [Step.RestoresTable, hLeave] at hRestores
  obtain ⟨scope, hScope, hSame⟩ := hRestores
  exact hOther scope hScope hSame

end Casprix.Sema
