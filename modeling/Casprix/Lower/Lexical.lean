import Casprix.Lower.Shadowing
import Casprix.Sema.Analyzer

/-! The lowering resolves the names of a program lexically exactly when the walk
over its text finds nothing astray. -/
namespace Casprix.Lower

open List Frontend Library

/-- What the walk keeps of a storage. A name without storage is like one of code. -/
def Storage.place : Storage → Place
  | .slot _ => .slot
  | .global _ => .global
  | .code | .missing => .code

/-- The walk knows of the state of the lowering what its tests need. -/
structure Tracks (ctx : MirLowerCtx) (walk : Walk) : Prop where
  mapped : walk.mapped = ctx.varMap.keys
  nodup : ctx.varMap.keys.Nodup
  env : walk.env = ctx.env.map fun declared => (declared.1, declared.2.place)
  stale : ∀ name number, ctx.env.lookup name = some (.slot number) →
    (name ∈ walk.stale ↔ ctx.varMap.get name ≠ some number)
  old : ∀ name number, ctx.env.lookup name = some (.slot number) → number < ctx.slotCount
  globals : ∀ name global, ctx.env.lookup name = some (.global global) → global = name
  loops : walk.loops = ctx.loopStack.map (· == ctx.func)
  loopDepth : walk.loopDepth = ctx.loopDepth
  depth_le : ctx.loopDepth ≤ ctx.loopStack.length
  func_le : ctx.func ≤ ctx.funcCount
  loops_le : ∀ func ∈ ctx.loopStack, func ≤ ctx.funcCount
  terminated : walk.terminated = ctx.terminated
  toplevel : walk.loweringToplevel = ctx.loweringToplevel
  nested : walk.nested = ctx.nested
  lambdas : walk.lambdas = ctx.lambdas
  answered : walk.answered = ctx.answered
  ok : walk.ok = true ↔ ctx.Lexical

/-- From `ctx` to `ctx'` the walk has marked what was written. -/
structure Marks (ctx ctx' : MirLowerCtx) (walk walk' : Walk) : Prop where
  func : ctx'.func = ctx.func
  toplevel : ctx'.loweringToplevel = ctx.loweringToplevel
  nested : ctx'.nested = ctx.nested
  slotCount : ctx.slotCount ≤ ctx'.slotCount
  funcCount : ctx.funcCount ≤ ctx'.funcCount
  keys : ctx.varMap.keys <+: ctx'.varMap.keys
  levels : ctx.loopStack.length ≤ ctx'.loopStack.length
  names : Writes (ctx.slotCount ≤ ·) ctx.varMap.get ctx'.varMap.get walk.touched walk'.touched
  loops : Writes (fun func => func = ctx.func ∨ ctx.funcCount < func)
    (fun level => ctx.loopStack[level]?) (fun level =>
      ctx'.loopStack[level]?) walk.pushed walk'.pushed

/-- A stretch of the lowering is followed by the walk, and ends at the depth it began at. -/
structure Followed (ctx ctx' : MirLowerCtx) (walk walk' : Walk) : Prop where
  tracks : Tracks ctx' walk'
  marks : Marks ctx ctx' walk walk'
  depth : ctx'.loopDepth = ctx.loopDepth

section

variable {findings : Findings} {ctx ctx' ctx'' : MirLowerCtx} {walk walk' walk'' : Walk}

theorem Marks.refl : Marks ctx ctx walk walk :=
  ⟨rfl, rfl, rfl, Nat.le_refl _, Nat.le_refl _, prefix_rfl, Nat.le_refl _,
    Writes.refl, Writes.refl⟩

/-- What two stretches write, they have marked together. -/
theorem Marks.trans (h : Marks ctx ctx' walk walk') (h' : Marks ctx' ctx'' walk' walk'') :
    Marks ctx ctx'' walk walk'' where
  func := h'.func.trans h.func
  toplevel := h'.toplevel.trans h.toplevel
  nested := h'.nested.trans h.nested
  slotCount := Nat.le_trans h.slotCount h'.slotCount
  funcCount := Nat.le_trans h.funcCount h'.funcCount
  keys := h.keys.trans h'.keys
  levels := Nat.le_trans h.levels h'.levels
  names := h.names.trans h'.names fun _ hNew => Nat.le_trans h.slotCount hNew
  loops := by
    refine h.loops.trans h'.loops fun func hNew => ?_
    rcases hNew with hSame | hNew
    · exact .inl (hSame.trans h.func)
    · exact .inr (Nat.lt_of_le_of_lt h.funcCount hNew)

theorem Marks.append (h : Marks ctx ctx' walk.unmarked walk') :
    Marks ctx ctx' walk { walk' with touched := walk'.touched ++ walk.touched } :=
  { h with names := h.names.append }

theorem Followed.refl (h : Tracks ctx walk) : Followed ctx ctx walk walk := ⟨h, Marks.refl, rfl⟩

/-- One stretch after another. -/
theorem Followed.trans (h : Followed ctx ctx' walk walk') (h' : Followed ctx' ctx'' walk' walk'') :
    Followed ctx ctx'' walk walk'' :=
  ⟨h'.tracks, h.marks.trans h'.marks, h'.depth.trans h.depth⟩

theorem lookup_map_place (env : List (String × Storage)) (name : String) :
    (env.map fun declared => (declared.1, declared.2.place)).lookup name =
      (env.lookup name).map Storage.place := by
  induction env with
  | nil => rfl
  | cons declared rest ih =>
    rw [map_cons, lookup_cons, ih]
    obtain ⟨other, storage⟩ := declared
    rw [lookup_cons]
    cases name == other with
    | true => rfl
    | false => rfl

section

variable (kind : UseKind) (name : String)

/-- A name is lowered to a slot exactly if it has an entry. -/
theorem isSlot_resolve :
    (ctx.resolve findings kind name).isSlot = false ↔ name ∉ ctx.varMap.keys := by
  rw [← OverwriteMap.get_eq_none_iff]
  unfold MirLowerCtx.resolve
  cases ctx.varMap.get name with
  | some number => simp [Storage.isSlot]
  | none => cases kind <;> simp only <;> (repeat' split) <;> simp [Storage.isSlot]

theorem resolve_eq_slot_iff (number : Nat) :
    ctx.resolve findings kind name = .slot number ↔ ctx.varMap.get name = some number := by
  unfold MirLowerCtx.resolve
  cases ctx.varMap.get name with
  | some other => simp
  | none => cases kind <;> simp only <;> (repeat' split) <;> simp

/-- A name is lowered to its global variable if it has no entry, and a read does not
find a function of the name first. -/
theorem resolve_eq_global_iff :
    ctx.resolve findings kind name = .global name ↔ name ∉ ctx.varMap.keys ∧
      findings.isGlobalVariable name = true ∧
      (kind = .read ∧ findings.isFunction name = false ∨ kind = .assign) := by
  rw [← OverwriteMap.get_eq_none_iff]
  unfold MirLowerCtx.resolve
  cases ctx.varMap.get name with
  | some other => simp
  | none =>
    cases kind with
    | read =>
      cases findings.isFunction name <;> cases findings.isGlobalVariable name <;> simp
    | assign => cases findings.isGlobalVariable name <;> simp
    | capture => simp

end

/-- The walk tells the uses that miss their declaration. -/
theorem misses_iff (h : Tracks ctx walk) (kind : UseKind) (name : String) :
    walk.misses findings kind name = false ↔
      Use.Lexical ⟨kind, name, ctx.resolve findings kind name, ctx.env.lookup name⟩ := by
  have hLookup : walk.env.lookup name = (ctx.env.lookup name).map Storage.place := by
    rw [h.env, lookup_map_place]
  have hMapped : decide (name ∈ walk.mapped) = false ↔
      (ctx.resolve findings kind name).isSlot = false := by
    rw [isSlot_resolve, h.mapped, decide_eq_false_iff_not]
  unfold Walk.misses
  rw [hLookup]
  cases hDeclared : ctx.env.lookup name with
  | none => exact hMapped
  | some storage =>
    cases storage with
    | slot number =>
      show decide (name ∈ walk.stale) = false ↔ ctx.resolve findings kind name = .slot number
      rw [resolve_eq_slot_iff, decide_eq_false_iff_not, h.stale name number hDeclared]
      exact Decidable.not_not
    | global global =>
      have hSame := h.globals name global hDeclared
      subst hSame
      show _ ↔ ctx.resolve findings kind global = .global global
      rw [resolve_eq_global_iff, ← h.mapped]
      cases kind <;> simp [Storage.place, and_comm]
    | code => exact hMapped
    | missing => exact hMapped

variable (findings) in
/-- A use changes nothing but the list of uses, and the walk judges it. -/
theorem followed_use (h : Tracks ctx walk) (kind : UseKind) (name : String) :
    Followed ctx (ctx.use findings kind name) walk (walk.use findings kind name) where
  tracks :=
    { h with
      ok := by
        show (walk.ok && !walk.misses findings kind name) = true ↔ _
        rw [Bool.and_eq_true, Bool.not_eq_true', h.ok, misses_iff h]
        constructor
        · rintro ⟨⟨hUses, hRest⟩, hUse⟩
          exact ⟨forall_mem_cons.mpr ⟨hUse, hUses⟩, hRest⟩
        · rintro ⟨hUses, hRest⟩
          have hAll := forall_mem_cons.mp hUses
          exact ⟨⟨hAll.2, hRest⟩, hAll.1⟩ }
  marks := { (Marks.refl : Marks ctx ctx walk walk) with }
  depth := rfl

variable (findings) in
/-- The captured variables of a lambda, one after another. -/
theorem followed_useAll (kind : UseKind) (names : List String) (h : Tracks ctx walk) :
    Followed ctx (ctx.useAll findings kind names) walk (walk.useAll findings kind names) := by
  induction names generalizing ctx walk with
  | nil => exact Followed.refl h
  | cons name rest ih =>
    have hUse := followed_use findings h kind name
    exact hUse.trans (ih hUse.tracks)

theorem followed_setTerminated (h : Followed ctx ctx' walk walk') (terminated : Bool) :
    Followed ctx (ctx'.setTerminated terminated) walk (walk'.setTerminated terminated) where
  tracks := { h.tracks with terminated := rfl }
  marks := { h.marks with }
  depth := h.depth

theorem followed_startBlock (h : Followed ctx ctx' walk walk') :
    Followed ctx ctx'.startBlock walk walk'.startBlock := followed_setTerminated h false

theorem followed_ask (h : Tracks ctx walk) : Followed ctx ctx.ask walk walk.ask where
  tracks := { h with answered := congrArg (· + 1) h.answered }
  marks := { (Marks.refl : Marks ctx ctx walk walk) with }
  depth := rfl

theorem followed_addLambda (h : Followed ctx ctx' walk walk') (closureId : Nat) :
    Followed ctx (ctx'.addLambda closureId) walk (walk'.addLambda closureId) where
  tracks := { h.tracks with lambdas := congrArg (closureId :: ·) h.tracks.lambdas }
  marks := { h.marks with }
  depth := h.depth

theorem followed_addError (h : Followed ctx ctx' walk walk') :
    Followed ctx ctx'.addError walk walk' where
  tracks := { h.tracks with }
  marks := { h.marks with }
  depth := h.depth

theorem map_pushLoop {α β : Type} (f : α → β) (stack : List α) (depth : Nat) (frame : α) :
    (pushLoop stack depth frame).map f = pushLoop (stack.map f) depth (f frame) := by
  simp [pushLoop, map_take, map_drop]

section

variable {α : Type} {stack : List α} {depth : Nat} (h : depth ≤ stack.length) (frame : α)
include h

/-- Pushing writes one level and no other. -/
theorem getElem?_pushLoop (level : Nat) :
    (pushLoop stack depth frame)[level]? = if level = depth then some frame else stack[level]? := by
  have hLength : (stack.take depth).length = depth := length_take_of_le h
  unfold pushLoop
  rcases Nat.lt_trichotomy level depth with hLt | hEq | hGt
  · rw [getElem?_append_left (by rwa [hLength]), getElem?_take_of_lt hLt,
      if_neg (Nat.ne_of_lt hLt)]
  · rw [getElem?_append_right (Nat.le_of_eq (hLength.trans hEq.symm)), hLength, hEq,
      Nat.sub_self, if_pos rfl]
    rfl
  · have hPos : level - depth = (level - depth - 1) + 1 := by omega
    rw [getElem?_append_right (by rw [hLength]; exact Nat.le_of_lt hGt), hLength, hPos,
      getElem?_cons_succ, getElem?_drop, if_neg (Nat.ne_of_gt hGt)]
    congr 1
    omega

theorem length_pushLoop : depth + 1 ≤ (pushLoop stack depth frame).length := by
  have hSome : (pushLoop stack depth frame)[depth]? = some frame := by
    rw [getElem?_pushLoop h, if_pos rfl]
  exact (List.getElem?_eq_some_iff.mp hSome).1

end

theorem le_length_pushLoop {α : Type} {stack : List α} (depth : Nat) (frame : α) :
    stack.length ≤ (pushLoop stack depth frame).length := by
  simp only [pushLoop, length_append, length_take, length_cons, length_drop]
  omega

theorem mem_pushLoop {α : Type} {stack : List α} {depth : Nat} {frame func : α}
    (h : func ∈ pushLoop stack depth frame) : func = frame ∨ func ∈ stack := by
  rcases mem_append.mp h with hTake | hRest
  · exact .inr (mem_of_mem_take hTake)
  · rcases mem_cons.mp hRest with hFrame | hDrop
    · exact .inl hFrame
    · exact .inr (mem_of_mem_drop hDrop)

section

variable (h : Tracks ctx walk)
include h

/-- The new level is one of the function being lowered. -/
theorem tracks_enterLoop : Tracks ctx.enterLoop walk.enterLoop :=
  { h with
    loops := by
      show pushLoop walk.loops walk.loopDepth true = _
      rw [h.loops, h.loopDepth]
      exact (by rw [MirLowerCtx.enterLoop, map_pushLoop, beq_self_eq_true])
    loopDepth := congrArg (· + 1) h.loopDepth
    depth_le := length_pushLoop h.depth_le _
    loops_le := by
      intro func hMem
      rcases mem_pushLoop hMem with rfl | hOld
      · exact h.func_le
      · exact h.loops_le func hOld
    ok := by
      show (walk.ok && decide (walk.loopDepth < maxLoopDepth)) = true ↔ _
      rw [Bool.and_eq_true, h.ok, h.loopDepth, decide_eq_true_iff]
      simp [MirLowerCtx.Lexical, MirLowerCtx.enterLoop, and_assoc] }

theorem marks_enterLoop : Marks ctx ctx.enterLoop walk walk.enterLoop where
  func := rfl
  toplevel := rfl
  nested := rfl
  slotCount := Nat.le_refl _
  funcCount := Nat.le_refl _
  keys := prefix_rfl
  levels := le_length_pushLoop _ _
  names := Writes.refl
  loops := by
    have hSelf : (pushLoop ctx.loopStack ctx.loopDepth ctx.func)[ctx.loopDepth]? =
        some ctx.func := by
      rw [getElem?_pushLoop h.depth_le, if_pos rfl]
    refine ⟨fun level => ?_, fun level hMem => ?_, fun level hMem => mem_cons_of_mem _ hMem⟩
    · show (pushLoop ctx.loopStack ctx.loopDepth ctx.func)[level]? = _ ∨ _
      by_cases hLevel : level = ctx.loopDepth
      · subst hLevel
        refine .inr ⟨?_, ctx.func, hSelf, .inl rfl⟩
        show ctx.loopDepth ∈ walk.loopDepth :: walk.pushed
        rw [h.loopDepth]
        exact mem_cons_self
      · rw [getElem?_pushLoop h.depth_le, if_neg hLevel]
        exact .inl rfl
    · rcases mem_cons.mp hMem with hLevel | hOld
      · rw [h.loopDepth] at hLevel
        subst hLevel
        exact .inr ⟨ctx.func, hSelf, .inl rfl⟩
      · exact .inl hOld

/-- A loop pushes its level, and leaves it on the stack behind its depth. -/
theorem followed_loop (hBody : Followed ctx.enterLoop ctx' walk.enterLoop walk') :
    Followed ctx ctx'.leaveLoop walk walk'.leaveLoop where
  tracks :=
    { hBody.tracks with
      loopDepth := congrArg (· - 1) hBody.tracks.loopDepth
      depth_le := Nat.le_trans (Nat.sub_le _ _) hBody.tracks.depth_le }
  marks := { (marks_enterLoop h).trans hBody.marks with }
  depth := by
    show ctx'.loopDepth - 1 = ctx.loopDepth
    rw [hBody.depth]
    rfl

/-- A jump goes to the level on top, which is the function's own exactly if the walk says so. -/
theorem followed_jump : Followed ctx ctx.jump walk walk.jump := by
  unfold MirLowerCtx.jump Walk.jump
  by_cases hDepth : ctx.loopDepth = 0
  · rw [if_pos hDepth, if_pos (h.loopDepth.trans hDepth)]
    exact Followed.refl h
  · have hWalk : ¬walk.loopDepth = 0 := by rwa [h.loopDepth]
    rw [if_neg hDepth, if_neg hWalk]
    refine ⟨{ h with terminated := rfl, ok := ?_ },
      { (Marks.refl : Marks ctx ctx walk walk) with }, rfl⟩
    have hLevel : ctx.loopDepth - 1 < ctx.loopStack.length := by
      have hLe := h.depth_le
      omega
    show (walk.ok && (walk.loops[walk.loopDepth - 1]?).getD false) = true ↔ _
    rw [Bool.and_eq_true, h.ok, h.loops, h.loopDepth, getElem?_map, getElem?_eq_getElem hLevel]
    show _ ∧ (ctx.loopStack[ctx.loopDepth - 1] == ctx.func) = true ↔ _
    rw [beq_iff_eq]
    constructor
    · rintro ⟨⟨hUses, hJumps, hRest⟩, hFunc⟩
      exact ⟨hUses, forall_mem_cons.mpr ⟨hFunc.symm, hJumps⟩, hRest⟩
    · rintro ⟨hUses, hJumps, hRest⟩
      have hAll := forall_mem_cons.mp hJumps
      exact ⟨⟨hUses, hAll.2, hRest⟩, hAll.1.symm⟩

/-- An entry that is written over makes its name stale. -/
theorem tracks_varMapSet (name : String) :
    Tracks (ctx.varMapSet name) (walk.enter name) :=
  { h with
    mapped := by
      show (if name ∈ walk.mapped then walk.mapped else walk.mapped ++ [name]) = _
      rw [MirLowerCtx.varMapSet, OverwriteMap.keys_put, h.mapped]
    nodup := OverwriteMap.nodup_put h.nodup
    stale := by
      intro other number hDeclared
      have hOld := h.old other number hDeclared
      show other ∈ name :: walk.stale ↔
        (ctx.varMap.put name ctx.slotCount).get other ≠ some number
      by_cases hName : other = name
      · subst hName
        rw [OverwriteMap.get_put_self h.nodup]
        simp [Nat.ne_of_gt hOld]
      · rw [OverwriteMap.get_put_of_ne hName, mem_cons, h.stale other number hDeclared]
        simp [hName]
    old := fun other number hDeclared => Nat.lt_succ_of_lt (h.old other number hDeclared) }

theorem marks_varMapSet (name : String) :
    Marks ctx (ctx.varMapSet name) walk (walk.enter name) where
  func := rfl
  toplevel := rfl
  nested := rfl
  slotCount := Nat.le_succ _
  funcCount := Nat.le_refl _
  keys := by
    rw [MirLowerCtx.varMapSet, OverwriteMap.keys_put]
    split
    · exact prefix_rfl
    · exact prefix_append _ _
  levels := Nat.le_refl _
  names := by
    have hSelf : (ctx.varMap.put name ctx.slotCount).get name = some ctx.slotCount :=
      OverwriteMap.get_put_self h.nodup
    refine ⟨fun other => ?_, fun other hMem => ?_, fun other hMem => mem_cons_of_mem _ hMem⟩
    · by_cases hName : other = name
      · subst hName
        exact .inr ⟨mem_cons_self, ctx.slotCount, hSelf, Nat.le_refl _⟩
      · exact .inl (OverwriteMap.get_put_of_ne hName)
    · rcases mem_cons.mp hMem with rfl | hOld
      · exact .inr ⟨ctx.slotCount, hSelf, Nat.le_refl _⟩
      · exact .inl hOld
  loops := Writes.refl

end

theorem lookup_cons_self (env : List (String × Storage)) (name : String) (storage : Storage) :
    ((name, storage) :: env).lookup name = some storage := by
  simp

theorem lookup_cons_of_ne (env : List (String × Storage)) {name other : String} (storage : Storage)
    (h : other ≠ name) : ((name, storage) :: env).lookup other = env.lookup other := by
  have hBeq : (other == name) = false := beq_eq_false_iff_ne.mpr h
  simp [lookup_cons, hBeq]

theorem lookup_declare {name other : String} {storage found : Storage}
    (h : (ctx.declare name storage).env.lookup other = some found) :
    other = name ∧ storage = found ∨ other ≠ name ∧ ctx.env.lookup other = some found := by
  rw [MirLowerCtx.declare] at h
  by_cases hName : other = name
  · rw [hName, lookup_cons_self] at h
    exact .inl ⟨hName, Option.some.inj h⟩
  · rw [lookup_cons_of_ne _ _ hName] at h
    exact .inr ⟨hName, h⟩

/-- A name is declared with a slot, and the stale names are told from then on. -/
theorem tracks_declareSlot (h : Tracks ctx walk) {name : String} {number : Nat}
    (hOld : number < ctx.slotCount) {stale : List String}
    (hSelf : name ∈ stale ↔ ctx.varMap.get name ≠ some number)
    (hOther : ∀ other, other ≠ name → (other ∈ stale ↔ other ∈ walk.stale)) :
    Tracks (ctx.declare name (.slot number)) { walk.declare name .slot with stale := stale } :=
  { h with
    env := congrArg ((name, Place.slot) :: ·) h.env
    stale := by
      intro other found hDeclared
      rcases lookup_declare hDeclared with ⟨rfl, ⟨⟩⟩ | ⟨hName, hBefore⟩
      · exact hSelf
      · exact (hOther other hName).trans (h.stale other found hBefore)
    old := by
      intro other found hDeclared
      rcases lookup_declare hDeclared with ⟨rfl, ⟨⟩⟩ | ⟨-, hBefore⟩
      · exact hOld
      · exact h.old other found hBefore
    globals := by
      intro other found hDeclared
      rcases lookup_declare hDeclared with ⟨_, ⟨⟩⟩ | ⟨-, hBefore⟩
      exact h.globals other found hBefore }

theorem tracks_settle (h : Tracks ctx walk) {name : String} {number : Nat}
    (hOld : number < ctx.slotCount) (hSelf : ctx.varMap.get name = some number) :
    Tracks (ctx.declare name (.slot number)) (walk.settle name) := by
  refine tracks_declareSlot h hOld ?_ fun other hName => ?_
  · simp [hSelf]
  · simp [hName]

/-- A name that is declared without a slot hides the declarations around it. -/
theorem tracks_declare (h : Tracks ctx walk) (name : String) {storage : Storage}
    (hSlot : storage.isSlot = false)
    (hGlobal : ∀ global, storage = .global global → global = name) :
    Tracks (ctx.declare name storage) (walk.declare name storage.place) :=
  { h with
    env := congrArg ((name, storage.place) :: ·) h.env
    stale := by
      intro other found hDeclared
      rcases lookup_declare hDeclared with ⟨rfl, ⟨⟩⟩ | ⟨-, hBefore⟩
      · exact absurd hSlot Bool.noConfusion
      · exact h.stale other found hBefore
    old := by
      intro other found hDeclared
      rcases lookup_declare hDeclared with ⟨rfl, ⟨⟩⟩ | ⟨-, hBefore⟩
      · exact absurd hSlot Bool.noConfusion
      · exact h.old other found hBefore
    globals := by
      intro other found hDeclared
      rcases lookup_declare hDeclared with ⟨hName, hSame⟩ | ⟨-, hBefore⟩
      · exact (hGlobal found hSame).trans hName.symm
      · exact h.globals other found hBefore }

theorem followed_declare (h : Followed ctx ctx' walk walk') (name : String) {storage : Storage}
    (hSlot : storage.isSlot = false)
    (hGlobal : ∀ global, storage = .global global → global = name) :
    Followed ctx (ctx'.declare name storage) walk (walk'.declare name storage.place) where
  tracks := tracks_declare h.tracks name hSlot hGlobal
  marks := { h.marks with }
  depth := h.depth

variable (findings) in
/-- An inner declaration must not be given a global variable. -/
theorem followed_declareGlobal (h : Followed ctx ctx' walk walk') (name : String) :
    Followed ctx (ctx'.declareGlobal findings name) walk (walk'.declareGlobal findings name) where
  tracks := by
    have hDeclared : Tracks (ctx'.declare name (.global name)) (walk'.declare name .global) :=
      tracks_declare h.tracks name rfl fun _ hSame => (Storage.global.inj hSame).symm
    refine { hDeclared with ok := ?_ }
    show (walk'.ok && !(walk'.nested && findings.isGlobalVariable name)) = true ↔ _
    rw [Bool.and_eq_true, h.tracks.ok, h.tracks.nested]
    simp only [MirLowerCtx.Lexical, MirLowerCtx.declareGlobal, MirLowerCtx.declare]
    cases ctx'.nested <;> cases findings.isGlobalVariable name <;> simp
  marks := { h.marks with }
  depth := h.depth

/-- A parameter is entered and declared at once. -/
theorem followed_bind (h : Tracks ctx walk) (name : String) :
    Followed ctx (ctx.bind name) walk (walk.bind name) where
  tracks := tracks_settle (tracks_varMapSet h name) (Nat.lt_add_one _)
    (OverwriteMap.get_put_self h.nodup)
  marks := { marks_varMapSet h name with }
  depth := rfl

theorem followed_bindAll (names : List String) (h : Tracks ctx walk) :
    Followed ctx (ctx.bindAll names) walk (walk.bindAll names) := by
  induction names generalizing ctx walk with
  | nil => exact Followed.refl h
  | cons name rest ih =>
    have hBind := followed_bind h name
    exact hBind.trans (ih hBind.tracks)

section

variable (h : Tracks ctx walk)
include h

/-- The initializer of a declaration is lowered between its entry and its declaration. -/
theorem followed_initializer {name : String}
    (hInner : Followed (ctx.varMapSet name) ctx' (walk.enter name).unmarked walk') :
    Followed ctx (ctx'.declare name (.slot ctx.slotCount)) walk
      (walk.leaveInitializer walk' name) where
  tracks := by
    have hOld : ctx.slotCount < ctx'.slotCount := hInner.marks.slotCount
    have hSelf : ctx'.varMap.get name ≠ some ctx.slotCount ↔ name ∈ walk'.touched := by
      rw [hInner.marks.names.ne_some_iff (Nat.not_succ_le_self _)]
      simp [MirLowerCtx.varMapSet, OverwriteMap.get_put_self h.nodup]
    have hAll : Tracks (ctx'.declare name (.slot ctx.slotCount))
        (if name ∈ walk'.touched then
          { walk'.declare name .slot with stale := name :: walk'.stale }
        else walk'.settle name) := by
      split
      · next hMem =>
          refine tracks_declareSlot hInner.tracks hOld ?_ fun other hName => ?_
          · simp [hSelf, hMem]
          · simp [hName]
      · next hNot =>
          exact tracks_settle hInner.tracks hOld
            (Decidable.not_not.mp fun hNe => hNot (hSelf.mp hNe))
    exact { hAll with }
  marks := by
    have hPushed : (walk.leaveInitializer walk' name).pushed = walk'.pushed := by
      unfold Walk.leaveInitializer
      split <;> rfl
    have hAll := (marks_varMapSet h name).trans hInner.marks.append
    refine { hAll with loops := ?_ }
    rw [hPushed]
    exact hAll.loops
  depth := hInner.depth

/-- Leaving a scope, a name is stale for the declarations around it when it was
entered in the scope or was stale before. -/
theorem followed_leaveScope (hInner : Followed ctx.enterScope ctx' walk.enterScope walk') :
    Followed ctx (ctx.leaveScope ctx') walk (walk.leaveScope walk') where
  tracks :=
    { hInner.tracks with
      env := h.env
      stale := by
        intro name number hDeclared
        have hOld := Nat.not_le_of_lt (h.old name number hDeclared)
        show name ∈ walk'.touched ++ walk.stale ↔ ctx'.varMap.get name ≠ some number
        rw [hInner.marks.names.ne_some_iff hOld, mem_append, h.stale name number hDeclared]
        exact Iff.rfl
      old := fun name number hDeclared =>
        Nat.lt_of_lt_of_le (h.old name number hDeclared) hInner.marks.slotCount
      globals := h.globals
      nested := h.nested }
  marks := { hInner.marks with nested := rfl, names := hInner.marks.names.append }
  depth := hInner.depth

/-- A function starts without declarations in sight, and no level of the stack is its own. -/
theorem tracks_enterFunction {loopDepth : Nat} (hDepth : loopDepth ≤ ctx.loopStack.length) :
    Tracks (ctx.enterFunction loopDepth) (walk.enterFunction loopDepth) :=
  { h with
    env := rfl
    stale := fun _ _ hDeclared => absurd hDeclared (by simp [MirLowerCtx.enterFunction])
    old := fun _ _ hDeclared => absurd hDeclared (by simp [MirLowerCtx.enterFunction])
    globals := fun _ _ hDeclared => absurd hDeclared (by simp [MirLowerCtx.enterFunction])
    loops := by
      show walk.loops.map (fun _ => false) = ctx.loopStack.map (· == ctx.funcCount + 1)
      rw [h.loops, map_map]
      refine map_congr_left fun func hMem => ?_
      have hNe : func ≠ ctx.funcCount + 1 :=
        Nat.ne_of_lt (Nat.lt_succ_of_le (h.loops_le func hMem))
      exact (beq_eq_false_iff_ne.mpr hNe).symm
    loopDepth := rfl
    depth_le := hDepth
    func_le := Nat.le_refl _
    loops_le := fun func hMem => Nat.le_succ_of_le (h.loops_le func hMem)
    terminated := rfl
    nested := rfl }

section

variable {loopDepth : Nat}
  (hInner : Followed (ctx.enterFunction loopDepth) ctx' (walk.enterFunction loopDepth) walk')
include hInner

/-- The levels that the inner function pushed are no longer the outer one's. -/
theorem loops_leaveFunction :
    (walk'.loops.mapIdx fun i _ => (walk.loops[i]?).getD false && i ∉ walk'.pushed) =
      ctx'.loopStack.map (· == ctx.func) := by
  have hNew : ∀ {func}, func = ctx.funcCount + 1 ∨ ctx.funcCount + 1 < func →
      (func == ctx.func) = false := by
    intro func hFunc
    have hLe := h.func_le
    rw [beq_eq_false_iff_ne]
    omega
  refine ext_getElem? fun level => ?_
  rw [getElem?_mapIdx, getElem?_map, hInner.tracks.loops, getElem?_map]
  cases hLevel : ctx'.loopStack[level]? with
  | none => rfl
  | some func =>
    simp only [Option.map_some, Option.some.injEq]
    by_cases hMem : level ∈ walk'.pushed
    · rcases hInner.marks.loops.marked level hMem with hNil | ⟨found, hFound, hFunc⟩
      · cases hNil
      · rw [hLevel, Option.some.injEq] at hFound
        rw [hFound, hNew hFunc]
        simp [hMem]
    · rcases hInner.marks.loops.changed level with hSame | ⟨hPushed, _⟩
      · have hOuter : ctx.loopStack[level]? = some func := hSame.symm.trans hLevel
        rw [h.loops, getElem?_map, hOuter]
        simp [hMem]
      · exact absurd hPushed hMem

/-- The entries of the inner function are cut off. Where it wrote over an entry of the
outer one, that name is stale. -/
theorem followed_leaveFunction :
    Followed ctx (ctx.leaveFunction ctx' ctx.loopDepth) walk
      (walk.leaveFunction walk' walk.loopDepth) := by
  have hKeys : ctx.varMap.keys <+: ctx'.varMap.keys := hInner.marks.keys
  have hLength : ctx.varMap.length = ctx.varMap.keys.length := (length_map _).symm
  have hTake : OverwriteMap.keys (ctx'.varMap.take ctx.varMap.length) = ctx.varMap.keys := by
    rw [hLength]
    exact OverwriteMap.keys_take hKeys
  have hGet : ∀ name, OverwriteMap.get (ctx'.varMap.take ctx.varMap.length) name =
      if name ∈ ctx.varMap.keys then ctx'.varMap.get name else none := by
    intro name
    rw [hLength]
    exact OverwriteMap.get_take hInner.tracks.nodup hKeys
  have hNames : Writes (ctx.slotCount ≤ ·) ctx.varMap.get
      (OverwriteMap.get (ctx'.varMap.take ctx.varMap.length)) []
      (walk'.touched.filter (· ∈ walk.mapped)) := by
    refine ⟨fun name => ?_, fun name hMem => ?_, nofun⟩
    · rw [hGet]
      by_cases hMapped : name ∈ ctx.varMap.keys
      · rw [if_pos hMapped]
        rcases hInner.marks.names.changed name with hSame | ⟨hTouched, hNew⟩
        · exact .inl hSame
        · refine .inr ⟨?_, hNew⟩
          rw [mem_filter, h.mapped]
          exact ⟨hTouched, decide_eq_true hMapped⟩
      · rw [if_neg hMapped, OverwriteMap.get_eq_none_iff.mpr hMapped]
        exact .inl rfl
    · rw [mem_filter, h.mapped] at hMem
      rw [hGet, if_pos (of_decide_eq_true hMem.2)]
      rcases hInner.marks.names.marked name hMem.1 with hNil | hNew
      · cases hNil
      · exact .inr hNew
  have hLoops := loops_leaveFunction h hInner
  refine ⟨{ hInner.tracks with
      mapped := h.mapped.trans hTake.symm
      nodup := ?nodup
      env := h.env
      stale := ?stale
      old := fun name number hDeclared =>
        Nat.lt_of_lt_of_le (h.old name number hDeclared) hInner.marks.slotCount
      globals := h.globals
      loops := hLoops
      loopDepth := h.loopDepth
      depth_le := ?depth
      func_le := Nat.le_trans h.func_le (Nat.le_trans (Nat.le_succ _) hInner.marks.funcCount)
      terminated := h.terminated
      nested := h.nested },
    { hInner.marks with
      func := rfl
      nested := rfl
      funcCount := Nat.le_trans (Nat.le_succ _) hInner.marks.funcCount
      keys := by
        show ctx.varMap.keys <+: OverwriteMap.keys (ctx'.varMap.take ctx.varMap.length)
        exact hTake.symm ▸ prefix_rfl
      names := hNames.append
      loops := ?loops }, rfl⟩
  case nodup =>
    show (OverwriteMap.keys (ctx'.varMap.take ctx.varMap.length)).Nodup
    rw [hTake]
    exact h.nodup
  case stale =>
    intro name number hDeclared
    have hOld := Nat.not_le_of_lt (h.old name number hDeclared)
    show name ∈ walk'.touched.filter (· ∈ walk.mapped) ++ walk.stale ↔
      OverwriteMap.get (ctx'.varMap.take ctx.varMap.length) name ≠ some number
    rw [hNames.ne_some_iff hOld, mem_append, h.stale name number hDeclared]
  case depth => exact Nat.le_trans h.depth_le hInner.marks.levels
  case loops =>
    refine hInner.marks.loops.append.mono fun func hFunc => .inr ?_
    rcases hFunc with rfl | hLt
    · exact Nat.lt_add_one _
    · exact Nat.lt_of_succ_lt hLt

end

/-- A function within another: its names are bound, its body lowered, and the outer one
gone back to. -/
theorem followed_function (names : List String) {loopDepth loopDepth' : Nat}
    (hSame : loopDepth' = loopDepth) (hDepth : loopDepth ≤ ctx.loopStack.length)
    {lower : MirLowerCtx → MirLowerCtx} {follow : Walk → Walk}
    (hBody : ∀ {inner : MirLowerCtx} {walked : Walk}, Tracks inner walked →
      Followed inner (lower inner) walked (follow walked)) :
    Followed ctx
      (ctx.leaveFunction (lower ((ctx.enterFunction loopDepth).bindAll names)) ctx.loopDepth) walk
      (walk.leaveFunction (follow
        ((walk.enterFunction loopDepth').bindAll names)) walk.loopDepth) := by
  subst hSame
  have hBound := followed_bindAll names (tracks_enterFunction h hDepth)
  exact followed_leaveFunction h (hBound.trans (hBody hBound.tracks))

end

end

section

variable (findings : Findings)

mutual

/-- By induction on the expression, one case for each form. -/
theorem followed_expr : ∀ (expr : Expr) {ctx : MirLowerCtx} {walk : Walk}, Tracks ctx walk →
    Followed ctx (lowerExpr findings expr ctx) walk (walkExpr findings expr walk)
  | .null, _, _, h | .literal .., _, _, h | .this, _, _, h | .super .., _, _, h
  | .genericInst _, _, _, h | .arrayLiteral _, _, _, h => Followed.refl h
  | .variable name _, _, _, h => followed_use findings h .read name
  | .binary _ left right, _, _, h => by
      have hLeft := followed_expr left h
      exact hLeft.trans (followed_expr right hLeft.tracks)
  | .unary _ operand, _, _, h => followed_expr operand h
  | .call callee arguments, ctx, walk, h => by
      have hAsked := followed_ask h
      rw [lowerExpr, walkExpr, h.answered]
      split
      · split
        · exact hAsked.trans (followed_exprs arguments hAsked.tracks)
        · exact hAsked
      · split
        · have hCallee := followed_expr callee h
          have hCaptured := hCallee.trans (followed_useAll findings .capture
            (findings.closures ctx.answered).capturedVars hCallee.tracks)
          exact hCaptured.trans (followed_exprs arguments hCaptured.tracks)
        · have hArguments := followed_exprs arguments h
          split
          · exact hArguments
          · have hCallee := hArguments.trans (followed_expr callee hArguments.tracks)
            split
            · exact hCallee.trans (followed_exprs arguments hCallee.tracks)
            · exact hCallee
  | .memberAccess object _ isMethodCall arguments, _, _, h => by
      have hObject := followed_expr object h
      cases isMethodCall with
      | true => exact hObject.trans (followed_exprs arguments hObject.tracks)
      | false => exact hObject
  | .staticAccess _ _ isMethodCall arguments, _, _, h => by
      cases isMethodCall with
      | true => exact followed_exprs arguments h
      | false => exact Followed.refl h
  | .new className arguments, _, _, h => by
      rw [lowerExpr, walkExpr]
      split
      · exact followed_exprs arguments h
      · exact Followed.refl h
  | .index array index, _, _, h => by
      have hArray := followed_expr array h
      exact hArray.trans (followed_expr index hArray.tracks)
  | .lambda parameters _ isExpression exprBody blockBody, ctx, walk, h => by
      have hAsked := followed_ask h
      rw [lowerExpr, walkExpr, h.answered, h.lambdas]
      split
      · exact followed_addError hAsked
      · split
        · exact hAsked.trans (followed_useAll findings .capture _ hAsked.tracks)
        · have hMade := followed_addLambda hAsked (findings.closures ctx.answered).closureId
          have hBody : ∀ {inner : MirLowerCtx}
            {walked : Walk}, Tracks inner walked → Followed inner
              (if isExpression ∧ exprBody.isNull = false then lowerExpr findings exprBody inner
                else lowerStmt findings blockBody inner) walked
              (if isExpression ∧ exprBody.isNull = false then walkExpr findings exprBody walked
                else walkStmt findings blockBody walked) := by
            intro inner walked hInner
            split
            · exact followed_expr exprBody hInner
            · exact followed_stmt blockBody hInner
          have hFunction := followed_function hMade.tracks
            ((findings.closures ctx.answered).capturedVars ++ parameters.map Parameter.name)
            hMade.tracks.loopDepth hMade.tracks.depth_le hBody
          have hLeft := hMade.trans hFunction
          exact hLeft.trans (followed_useAll findings .capture _ hLeft.tracks)
  | .await expression, _, _, h => followed_startBlock (followed_expr expression h)

theorem followed_exprs : ∀ (exprs : List Expr) {ctx : MirLowerCtx}
    {walk : Walk}, Tracks ctx walk →
    Followed ctx (lowerExprs findings exprs ctx) walk (walkExprs findings exprs walk)
  | [], _, _, h => Followed.refl h
  | expr :: rest, _, _, h => by
      have hExpr := followed_expr expr h
      exact hExpr.trans (followed_exprs rest hExpr.tracks)

/-- By induction on the statement, one case for each form. -/
theorem followed_stmt : ∀ (stmt : Stmt) {ctx : MirLowerCtx} {walk : Walk}, Tracks ctx walk →
    Followed ctx (lowerStmt findings stmt ctx) walk (walkStmt findings stmt walk)
  | .declaration name _ initializer, ctx, walk, h => by
      rw [lowerStmt, walkStmt, h.toplevel]
      split
      · exact followed_declareGlobal findings (followed_expr initializer h) name
      · have hEntered : Tracks (ctx.varMapSet name) (walk.enter name).unmarked :=
          { tracks_varMapSet h name with }
        exact followed_initializer h (followed_expr initializer hEntered)
  | .assignment (.variable name _) value, _, _, h => by
      have hUse := followed_use findings h .assign name
      exact hUse.trans (followed_expr value hUse.tracks)
  | .assignment (.memberAccess object _ _ _) value, _, _, h => by
      have hObject := followed_expr object h
      exact hObject.trans (followed_expr value hObject.tracks)
  | .assignment (.index array index) value, _, _, h => by
      have hArray := followed_expr array h
      have hIndex := hArray.trans (followed_expr index hArray.tracks)
      exact hIndex.trans (followed_expr value hIndex.tracks)
  | .ifStmt condition thenBranch elseBranch, _, _, h => by
      have hCondition := followed_startBlock (followed_expr condition h)
      have hThen := followed_startBlock
        (hCondition.trans (followed_stmt thenBranch hCondition.tracks))
      exact followed_startBlock (hThen.trans (followed_stmt elseBranch hThen.tracks))
  | .whileStmt condition body, _, _, h => by
      have hEntered := followed_startBlock (Followed.refl (tracks_enterLoop h))
      have hCondition := followed_startBlock
        (hEntered.trans (followed_expr condition hEntered.tracks))
      have hBody := hCondition.trans (followed_stmt body hCondition.tracks)
      exact followed_startBlock (followed_loop h hBody)
  | .forStmt varName _ initializer condition increment body, ctx, walk, h => by
      have hInside : Tracks ctx.enterScope walk.enterScope := { h with nested := rfl }
      have hStarted : Followed ctx.enterScope
          (match varName with
            | none => ctx.enterScope
            | some name => lowerExpr findings initializer (ctx.enterScope.bind name))
          walk.enterScope
          (match varName with
            | none => walk.enterScope
            | some name => walkExpr findings initializer (walk.enterScope.bind name)) := by
        cases varName with
        | none => exact Followed.refl hInside
        | some name =>
          have hBound := followed_bind hInside name
          exact hBound.trans (followed_expr initializer hBound.tracks)
      have hEntered := followed_startBlock (Followed.refl (tracks_enterLoop hStarted.tracks))
      have hCondition := followed_startBlock
        (hEntered.trans (followed_expr condition hEntered.tracks))
      have hBody := followed_startBlock (hCondition.trans (followed_stmt body hCondition.tracks))
      have hIncrement := hBody.trans (followed_stmt increment hBody.tracks)
      exact followed_leaveScope h
        (hStarted.trans (followed_startBlock (followed_loop hStarted.tracks hIncrement)))
  | .matchStmt subject arms, _, _, h => by
      have hSubject := followed_expr subject h
      exact followed_startBlock (hSubject.trans (followed_arms arms hSubject.tracks))
  | .returnStmt value, _, _, h => followed_setTerminated (followed_expr value h) true
  | .breakStmt, _, _, h | .continueStmt, _, _, h => followed_jump h
  | .print expression, _, _, h | .exprStmt expression, _, _, h => followed_expr expression h
  | .block statements, ctx, walk, h => by
      have hInside : Tracks ctx.enterScope walk.enterScope := { h with nested := rfl }
      exact followed_leaveScope h (followed_stmts statements hInside)
  | .function name parameters _ _ body, _, _, h => by
      have hFunction := followed_function h (parameters.map Parameter.name) rfl (Nat.zero_le _)
        (followed_stmt body)
      exact followed_declare hFunction name rfl fun _ hGlobal => Storage.noConfusion hGlobal
  | .null, _, _, h => Followed.refl h
  | .forIn .., _, _, h | .include, _, _, h | .classStmt .., _, _, h | .externFunc _, _, _, h
  | .struct _, _, _, h | .enum _, _, _, h | .union _, _, _, h | .tryStmt .., _, _, h
  | .throwStmt _, _, _, h | .trait .., _, _, h | .impl _, _, _, h => Followed.refl h
  | .assignment (.null) _, _, _, h
  | .assignment (.binary ..) _, _, _, h
  | .assignment (.unary ..) _, _, _, h
  | .assignment (.literal ..) _, _, _, h
  | .assignment (.call ..) _, _, _, h
  | .assignment (.staticAccess ..) _, _, _, h
  | .assignment (.this) _, _, _, h
  | .assignment (.super ..) _, _, _, h
  | .assignment (.new ..) _, _, _, h
  | .assignment (.lambda ..) _, _, _, h
  | .assignment (.genericInst _) _, _, _, h
  | .assignment (.await _) _, _, _, h
  | .assignment (.arrayLiteral _) _, _, _, h => Followed.refl h

/-- Both stop behind a statement that ends the block. -/
theorem followed_stmts : ∀ (stmts : List Stmt) {ctx : MirLowerCtx}
    {walk : Walk}, Tracks ctx walk →
    Followed ctx (lowerStmts findings stmts ctx) walk (walkStmts findings stmts walk)
  | [], _, _, h => Followed.refl h
  | stmt :: rest, _, _, h => by
      have hStmt := followed_stmt stmt h
      rw [lowerStmts, walkStmts]
      simp only [hStmt.tracks.terminated]
      split
      · exact hStmt
      · exact hStmt.trans (followed_stmts rest hStmt.tracks)

theorem followed_arms : ∀ (arms : List MatchArm) {ctx : MirLowerCtx}
    {walk : Walk}, Tracks ctx walk →
    Followed ctx (lowerArms findings arms ctx) walk (walkArms findings arms walk)
  | [], _, _, h => Followed.refl h
  | .mk pattern body :: rest, _, _, h => by
      have hPattern := followed_startBlock (followed_expr pattern h)
      have hBody := followed_setTerminated
        (hPattern.trans (followed_stmt body hPattern.tracks)) pattern.isNull
      exact hBody.trans (followed_arms rest hBody.tracks)

end

/-- Between two definitions no declaration of a function is in sight. -/
structure TracksTop (ctx : MirLowerCtx) (walk : Walk) : Prop extends Tracks ctx walk where
  env_eq : ctx.env = []
  depth_eq : ctx.loopDepth = 0

variable {findings} {ctx : MirLowerCtx} {walk : Walk}

theorem TracksTop.reset (h : TracksTop ctx walk) : TracksTop (varMapReset ctx) walk.reset :=
  { h with
    mapped := rfl
    nodup := nodup_nil
    stale := by
      intro name number hDeclared
      have hNone : ctx.env.lookup name = none := by rw [h.env_eq]; rfl
      exact absurd (hNone.symm.trans hDeclared) (Option.some_ne_none _).symm }

theorem tracksTop_function (parameters : List Parameter) (body : Stmt) (h : TracksTop ctx walk) :
    TracksTop (mirLowerFunction findings parameters body ctx)
      (walkFunction findings parameters body walk) where
  toTracks := (followed_function h.toTracks (parameters.map Parameter.name) rfl (Nat.zero_le _)
    (followed_stmt findings body)).tracks
  env_eq := h.env_eq
  depth_eq := h.depth_eq

theorem tracksTop_method (method : Method) (h : TracksTop ctx walk) :
    TracksTop (lowerMethod findings ctx method) (walkMethod findings walk method) := by
  cases method with
  | mk name parameters body =>
    rw [lowerMethod, walkMethod]
    split
    · exact h
    · have hBound := followed_bindAll ("this" :: parameters.map Parameter.name)
        (tracks_enterFunction h.toTracks (Nat.zero_le _))
      have hBody := hBound.trans (followed_stmt findings body hBound.tracks)
      have hDepth := hBody.depth.trans h.depth_eq.symm
      have hWalk := hBody.tracks.loopDepth.trans (hDepth.trans h.loopDepth.symm)
      have hLeft := followed_leaveFunction h.toTracks hBody
      simp only [hDepth, hWalk]
      exact ⟨hLeft.tracks, h.env_eq, h.depth_eq⟩

theorem tracksTop_implMethod (method : Stmt) (h : TracksTop ctx walk) :
    TracksTop (lowerImplMethod findings ctx method) (walkImplMethod findings walk method) := by
  cases method with
  | function name parameters returnType isAsync body => exact tracksTop_function parameters body h
  | _ => exact h

theorem tracksTop_foldl {α : Type} {lower : MirLowerCtx → α → MirLowerCtx}
    {follow : Walk → α → Walk}
    (hStep : ∀ a {ctx walk}, TracksTop ctx walk → TracksTop (lower ctx a) (follow walk a))
    (items : List α) (h : TracksTop ctx walk) :
    TracksTop (items.foldl lower ctx) (items.foldl follow walk) := by
  induction items generalizing ctx walk with
  | nil => exact h
  | cons item rest ih => exact ih (hStep item h)

/-- Each definition of the program starts and ends between definitions. -/
theorem tracksTop_definition (statement : Stmt) (h : TracksTop ctx walk) :
    TracksTop (lowerDefinition findings ctx statement)
      (walkDefinition findings walk statement) := by
  cases statement with
  | function name parameters returnType isAsync body =>
    exact tracksTop_function parameters body h.reset
  | classStmt name parentName defaultValues methods =>
    exact tracksTop_foldl (fun method _ _ => tracksTop_method method) methods h
  | impl methods => exact tracksTop_foldl (fun method _ _ => tracksTop_implMethod method) methods h
  | _ => exact h

/-- The statements of the top level are lowered as one function. -/
theorem tracks_entry (statements : List Stmt) (h : TracksTop ctx walk) :
    Tracks (lowerEntry findings statements ctx) (walkEntry findings statements walk) := by
  rw [lowerEntry, walkEntry]
  split
  · exact h.toTracks
  · have hEntered : Tracks
        { (varMapReset ctx).enterFunction ctx.loopDepth with
          loweringToplevel := true, nested := false }
        { walk.reset.enterFunction walk.loopDepth with
          loweringToplevel := true, nested := false } := by
      have hNew := tracks_enterFunction h.reset.toTracks h.reset.depth_le
      rw [h.loopDepth]
      exact { hNew with toplevel := rfl, nested := rfl }
    generalize statements.filter isToplevelCode = toplevel
    revert hEntered
    generalize { (varMapReset ctx).enterFunction ctx.loopDepth with
      loweringToplevel := true, nested := false } = inner
    generalize { walk.reset.enterFunction walk.loopDepth with
      loweringToplevel := true, nested := false } = walked
    intro hEntered
    induction toplevel generalizing inner walked with
    | nil => exact hEntered
    | cons statement rest ih => exact ih _ _ (followed_stmt findings statement hEntered).tracks

/-- Every use of a variable reaches the storage of its innermost declaration in
its function, which no declaration within its scope is given too, and every
`break` and `continue` stays in its function, exactly when the walk over the
text finds no name and no loop level astray. -/
theorem mirLowerProgram_lexical_iff (findings : Findings) (statements : List Stmt) :
    (mirLowerProgram findings statements).Lexical ↔ keepsNames findings statements = true := by
  have hStart : TracksTop {} {} := by
    refine ⟨⟨rfl, nodup_nil, rfl, ?_, ?_, ?_, rfl, rfl, Nat.le_refl _, Nat.le_refl _, ?_, rfl,
      rfl, rfl, rfl, rfl, ?_⟩, rfl, rfl⟩
    all_goals simp [MirLowerCtx.Lexical]
  exact (tracks_entry statements
    (tracksTop_foldl (fun statement _ _ => tracksTop_definition statement) statements
      hStart)).ok.symm

end

/-- The inner `x` of `f` takes over the entry of the outer one, which is read after the block. -/
theorem shadowedInBlock_not_lexical :
    let statements : List Stmt := [.function "f" [] .i32 false (.block
      [.declaration "x" .i32 (.literal .i32 (.int 1)),
        .block [.declaration "x" .i32 (.literal .i32 (.int 2))],
        .returnStmt (.variable "x" false)])]
    let findings : Findings := ⟨(· == "f"), fun _ => false, fun _ => false, fun _ => false,
      fun _ => ⟨0, [], false⟩, fun _ => false⟩
    let accepted := Sema.analyzeProgram (fun _ => true) statements
    accepted.stopped = false ∧ accepted.reports = [] ∧
      (mirLowerProgram findings statements).errorCount = 0 ∧
      ¬(mirLowerProgram findings statements).Lexical := by
  decide

end Casprix.Lower
