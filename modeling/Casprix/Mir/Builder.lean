import Casprix.Mir.Path

/-! The construction of functions: blocks, values, instructions and the edges
that the terminators wire. -/
namespace Casprix.Mir

open List

variable (func : MirFunction)

namespace MirFunction

/-- `mir_function_new_value`: the type table doubles when the id is past it. -/
def newValue (type : Option MirType) : MirValueId × MirFunction :=
  let id := func.nextValueId
  let table := if func.valueTypes.length ≤ id then
      func.valueTypes ++ List.replicate func.valueTypes.length none
    else func.valueTypes
  (id, { func with nextValueId := id + 1, valueTypes := table.set id type })

/-- `mir_function_add_block`: the new block is listed last. -/
def addBlock (label : String) : MirBlockId × MirFunction :=
  (func.blocks.length, { func with blocks := func.blocks ++ [{ label := label }] })

def modifyBlock (b : MirBlockId) (f : MirBlock → MirBlock) : MirFunction :=
  { func with blocks := func.blocks.modify b f }

end MirFunction

namespace MirBlock

/-- `mir_block_append`. -/
def append (block : MirBlock) (inst : MirInst) : MirBlock :=
  { block with insts := block.insts ++ [inst] }

/-- `mir_block_add_predecessor`, which avoids duplicates. -/
def addPredecessor (block : MirBlock) (pred : MirBlockId) : MirBlock :=
  if pred ∈ block.predecessors then block
  else { block with predecessors := block.predecessors ++ [pred] }

/-- `mir_block_add_successor`, which avoids duplicates. -/
def addSuccessor (block : MirBlock) (succ : MirBlockId) : MirBlock :=
  if succ ∈ block.successors then block
  else { block with successors := block.successors ++ [succ] }

end MirBlock

/-- `link_cfg`. -/
def MirFunction.link (source target : MirBlockId) : MirFunction :=
  let linked := func.modifyBlock source (·.addSuccessor target)
  linked.modifyBlock target (·.addPredecessor source)

/-- A parameter as the caller of `mir_module_add_function` describes it. -/
abbrev ParamSpec := String × Option MirType

def MirFunction.addParam (param : ParamSpec) : MirFunction :=
  let (id, func) := func.newValue param.2
  { func with params := func.params ++ [{ name := param.1, type := param.2, valueId := id }] }

/-- The function `mir_module_add_function` installs, before it has blocks. -/
def newFunction (name : String) (returnType : Option MirType) (params : List ParamSpec) :
    MirFunction :=
  params.foldl MirFunction.addParam { name := name, returnType := returnType }

structure MirBuilder where
  func : MirFunction
  currentBlock : MirBlockId
  deriving DecidableEq, Repr

abbrev Build := StateM MirBuilder

namespace Build

def setBlock (block : MirBlockId) : Build Unit :=
  modify fun b => { b with currentBlock := block }

/-- Appends an instruction to the current block. -/
def appendInst (inst : MirInst) : Build Unit :=
  modify fun b => { b with func := b.func.modifyBlock b.currentBlock (·.append inst) }

/-- `emit`: an instruction whose type is not void gets a new value. -/
def emit (inst : MirInst) : Build MirValueId := do
  let b ← get
  match inst.type with
  | none | some .void => do
      appendInst inst
      return inst.result
  | some type =>
    let (id, func) := b.func.newValue (some type)
    set { b with func := func }
    appendInst { inst with result := id }
    return id

/-- `emit_void`. -/
def emitVoid (op : MirOp) : Build Unit := appendInst { op := op, type := some .void }

/-- Wires the edge out of the current block. -/
def linkCfg (target : MirBlockRef) : Build Unit :=
  modify fun b =>
    match target with
    | none => b
    | some target => { b with func := b.func.link b.currentBlock target }

/-- The type of a value built earlier. -/
def typeOf (v : MirValueId) : Build (Option MirType) := do
  return (← get).func.valueType v

def constInt (val : Word) (type : MirType) : Build MirValueId :=
  emit { op := .constInt val, type := some type }

def binary (op : BinaryOp) (lhs rhs : MirValueId) : Build MirValueId := do
  emit { op := .binary op lhs rhs, type := ← typeOf lhs }

def add (lhs rhs : MirValueId) : Build MirValueId := binary .add lhs rhs

def cmp (op : BinaryOp) (lhs rhs : MirValueId) : Build MirValueId :=
  emit { op := .binary op lhs rhs, type := some .bool }

def cmpGe (lhs rhs : MirValueId) : Build MirValueId := cmp .cmpGe lhs rhs

def alloca (type : MirType) : Build MirValueId :=
  emit { op := .alloca (some type) 1, type := some (.ptr type) }

def load (ptr : MirValueId) (type : MirType) : Build MirValueId :=
  emit { op := .load ptr, type := some type }

def store (ptr value : MirValueId) : Build Unit := emitVoid (.store ptr value)

def getElemPtr (base index : MirValueId) : Build MirValueId := do
  emit { op := .getElemPtr base index, type := ← typeOf base }

def convert (op : UnaryOp) (val : MirValueId) (target : MirType) : Build MirValueId :=
  emit { op := .unary op val (some target), type := some target }

def zext (val : MirValueId) (target : MirType) : Build MirValueId := convert .zext val target

def br (target : MirBlockRef) : Build Unit := do
  emitVoid (.br target)
  linkCfg target

def condbr (cond : MirValueId) (trueBb falseBb : MirBlockRef) : Build Unit := do
  emitVoid (.condbr cond trueBb falseBb)
  linkCfg trueBb
  linkCfg falseBb

def ret (value : MirValueId) : Build Unit := emitVoid (.ret value)

end Build

/-- The type table covers every value numbered so far. -/
structure MirFunction.Ready (func : MirFunction) : Prop where
  next_pos : 0 < func.nextValueId
  table : func.nextValueId ≤ func.valueTypes.length

/-- Instructions for one block. -/
def only (b : MirBlockId) (insts : List MirInst) : MirBlockId → List MirInst :=
  fun c => if c = b then insts else []

/-- `f'` is `f` with instructions added at the end of its blocks and values of
the given types numbered. No edge into the entry block is added. -/
structure Extends (f f' : MirFunction) (added : MirBlockId → List MirInst)
    (types : List MirType) : Prop where
  insts_eq : ∀ c, f'.insts c = f.insts c ++ added c
  length_eq : f'.blocks.length = f.blocks.length
  next_eq : f'.nextValueId = f.nextValueId + types.length
  old_type : ∀ v, v < f.nextValueId → f'.valueType v = f.valueType v
  new_type : ∀ i t, types[i]? = some t → f'.valueType (f.nextValueId + i) = some t
  ready : f'.Ready
  entry_eq : f'.predecessors 0 = f.predecessors 0
  extern_eq : f'.isExtern = f.isExtern
  params_eq : f'.params = f.params

/-- Running `act` in block `b` of `f` returns `a` and ends in block `b'` of `f'`. -/
structure Builds {α : Type} (act : Build α) (f : MirFunction) (b : MirBlockId) (a : α)
    (f' : MirFunction) (b' : MirBlockId) (added : MirBlockId → List MirInst)
    (types : List MirType) : Prop where
  run_eq : act.run ⟨f, b⟩ = (a, ⟨f', b'⟩)
  result : Extends f f' added types

variable (block : MirBlock) {target : MirBlockId}

section

variable {f f₁ f₂ : MirFunction} {b b₁ b₂ c : MirBlockId}
  {added₁ added₂ : MirBlockId → List MirInst}
    {types₁ types₂ : List MirType} {α β : Type}

theorem Extends.refl (h : f.Ready) : Extends f f (fun _ => []) [] where
  insts_eq := by simp
  length_eq := rfl
  next_eq := rfl
  old_type := fun _ _ => rfl
  new_type := by simp
  ready := h
  entry_eq := rfl
  extern_eq := rfl
  params_eq := rfl

theorem Extends.trans (h₁ : Extends f f₁ added₁ types₁)
    (h₂ : Extends f₁ f₂ added₂ types₂) :
    Extends f f₂ (fun c => added₁ c ++ added₂ c) (types₁ ++ types₂) where
  insts_eq := by
    intro c
    rw [h₂.insts_eq, h₁.insts_eq, append_assoc]
  length_eq := h₂.length_eq.trans h₁.length_eq
  next_eq := by rw [h₂.next_eq, h₁.next_eq, length_append, Nat.add_assoc]
  old_type := by
    intro v hv
    rw [h₂.old_type v (by rw [h₁.next_eq]; exact Nat.lt_add_right _ hv), h₁.old_type v hv]
  new_type := by
    intro i t ht
    by_cases hi : i < types₁.length
    · rw [getElem?_append_left hi] at ht
      rw [h₂.old_type _ (by rw [h₁.next_eq]; exact Nat.add_lt_add_left hi _),
        h₁.new_type i t ht]
    · rw [getElem?_append_right (Nat.le_of_not_lt hi)] at ht
      have hNew := h₂.new_type _ t ht
      rwa [h₁.next_eq, Nat.add_assoc, Nat.add_sub_cancel' (Nat.le_of_not_lt hi)] at hNew
  ready := h₂.ready
  entry_eq := h₂.entry_eq.trans h₁.entry_eq
  extern_eq := h₂.extern_eq.trans h₁.extern_eq
  params_eq := h₂.params_eq.trans h₁.params_eq

theorem Builds.bind {act : Build α} {next : α → Build β} {a : α} {r : β}
    (h₁ : Builds act f b a f₁ b₁ added₁ types₁)
    (h₂ : Builds (next a) f₁ b₁ r f₂ b₂ added₂ types₂) :
    Builds (act >>= next) f b r f₂ b₂ (fun c => added₁ c ++ added₂ c)
      (types₁ ++ types₂) where
  run_eq := by
    show (next (act.run ⟨f, b⟩).1).run (act.run ⟨f, b⟩).2 = _
    rw [h₁.run_eq]
    exact h₂.run_eq
  result := h₁.result.trans h₂.result

theorem Builds.congr {act : Build α} {a : α} (h : Builds act f b a f₁ b₁ added₁ types₁)
    (hAdded : ∀ c, added₁ c = added₂ c) (hTypes : types₁ = types₂) :
    Builds act f b a f₁ b₁ added₂ types₂ := by
  have hSame : added₁ = added₂ := by
    funext c
    exact hAdded c
  rwa [← hSame, ← hTypes]

theorem insts_modifyBlock (g : MirBlock → MirBlock) :
    (f.modifyBlock b g).insts c =
      if c = b then ((f.block? c).map fun block => (g block).insts).getD [] else f.insts c := by
  simp only [MirFunction.insts, MirFunction.block?, MirFunction.modifyBlock, getElem?_modify]
  cases f.blocks[c]? with
  | none => simp
  | some block =>
    by_cases hc : b = c
    · simp [hc]
    · have hNe : ¬c = b := fun h => hc h.symm
      simp [hc, hNe]

theorem insts_modifyBlock_of_insts_eq {g : MirBlock → MirBlock}
    (hg : ∀ block, (g block).insts = block.insts) : (f.modifyBlock b g).insts c = f.insts c := by
  rw [insts_modifyBlock]
  split
  · simp [hg, MirFunction.insts]
  · rfl

theorem predecessors_modifyBlock (g : MirBlock → MirBlock)
    (hg : b = c → ∀ block, (g block).predecessors = block.predecessors) :
    (f.modifyBlock b g).predecessors c = f.predecessors c := by
  simp only [MirFunction.predecessors, MirFunction.block?, MirFunction.modifyBlock, getElem?_modify]
  cases f.blocks[c]? with
  | none => rfl
  | some block =>
    by_cases hc : b = c
    · simp [hc, hg hc]
    · simp [hc]

@[simp] theorem insts_addSuccessor (target : MirBlockId) :
    (block.addSuccessor target).insts = block.insts := by
  unfold MirBlock.addSuccessor
  split <;> rfl

@[simp] theorem insts_addPredecessor (pred : MirBlockId) :
    (block.addPredecessor pred).insts = block.insts := by
  unfold MirBlock.addPredecessor
  split <;> rfl

@[simp] theorem predecessors_addSuccessor (target : MirBlockId) :
    (block.addSuccessor target).predecessors = block.predecessors := by
  unfold MirBlock.addSuccessor
  split <;> rfl

theorem extends_append (hReady : f.Ready) (hb : b < f.blocks.length) (inst : MirInst) :
    Extends f (f.modifyBlock b (·.append inst)) (only b [inst]) [] where
  insts_eq := by
    intro c
    rw [insts_modifyBlock, only]
    by_cases hc : c = b
    · obtain ⟨block, hBlock⟩ := MirFunction.exists_block? (hc ▸ hb)
      simp [hc ▸ hBlock, MirFunction.insts, MirBlock.append, hc]
    · simp only [hc, if_false, append_nil]
  length_eq := length_modify _ _ _
  next_eq := rfl
  old_type := fun _ _ => rfl
  new_type := by simp
  ready := ⟨hReady.next_pos, hReady.table⟩
  entry_eq := predecessors_modifyBlock _ fun _ _ => rfl
  extern_eq := rfl
  params_eq := rfl

theorem extends_link (hReady : f.Ready) (hTarget : target ≠ 0) :
    Extends f (f.link b target) (fun _ => []) [] where
  insts_eq := by
    intro c
    rw [append_nil, MirFunction.link,
      insts_modifyBlock_of_insts_eq fun block => insts_addPredecessor block b,
      insts_modifyBlock_of_insts_eq fun block => insts_addSuccessor block target]
  length_eq := by simp [MirFunction.link, MirFunction.modifyBlock]
  next_eq := rfl
  old_type := fun _ _ => rfl
  new_type := by simp
  ready := ⟨hReady.next_pos, hReady.table⟩
  entry_eq := by
    rw [MirFunction.link, predecessors_modifyBlock _ fun h => absurd h hTarget,
      predecessors_modifyBlock _ fun _ block => predecessors_addSuccessor block target]
  extern_eq := rfl
  params_eq := rfl

theorem lt_length_grown (hReady : f.Ready) :
    f.nextValueId < (if f.valueTypes.length ≤ f.nextValueId then
      f.valueTypes ++ List.replicate f.valueTypes.length none else f.valueTypes).length := by
  have hPos := hReady.next_pos
  have hLe := hReady.table
  split
  · rw [length_append, length_replicate]
    omega
  · omega

theorem extends_newValue (hReady : f.Ready) (t : MirType) :
    Extends f (f.newValue (some t)).2 (fun _ => []) [t] where
  insts_eq := by
    intro c
    rw [append_nil]
    rfl
  length_eq := rfl
  next_eq := rfl
  old_type := by
    intro v hv
    have hNe : f.nextValueId ≠ v := hv.ne'
    have hLt : v < f.valueTypes.length := hv.trans_le hReady.table
    simp only [MirFunction.valueType, MirFunction.newValue]
    rw [getElem?_set_ne hNe]
    split
    · rfl
    · split
      · rw [getElem?_append_left hLt]
      · rfl
  new_type := by
    intro i u hu
    rw [getElem?_singleton] at hu
    split at hu
    · next hZero =>
        subst hZero
        cases hu
        simp only [MirFunction.valueType, MirFunction.newValue, Nat.add_zero]
        rw [if_neg hReady.next_pos.ne', getElem?_set_self (lt_length_grown hReady)]
        rfl
    · cases hu
  ready := by
    refine ⟨Nat.succ_pos _, ?_⟩
    simp only [MirFunction.newValue, length_set]
    exact lt_length_grown hReady
  entry_eq := rfl
  extern_eq := rfl
  params_eq := rfl

/-- A function with `n` blocks whose next value is `k`. -/
structure Site (f : MirFunction) (n k : Nat) : Prop where
  ready : f.Ready
  length : f.blocks.length = n
  next : f.nextValueId = k

variable {n k : Nat}

theorem Site.step (h : Site f n k) (hExtends : Extends f f₁ added₁ types₁) :
    Site f₁ n (k + types₁.length) where
  ready := hExtends.ready
  length := hExtends.length_eq.trans h.length
  next := by rw [hExtends.next_eq, h.next]

section

variable (h : Site f n k)
include h

theorem builds_setBlock (b b' : MirBlockId) :
    Builds (Build.setBlock b') f b () f b' (fun _ => []) [] :=
  ⟨rfl, Extends.refl h.ready⟩

theorem builds_emitVoid (hb : b < n) (op : MirOp) :
    ∃ f', Builds (Build.emitVoid op) f b () f' b (only b [{ op := op, type := some .void }]) [] :=
  ⟨_, rfl, extends_append h.ready (h.length.symm ▸ hb) _⟩

theorem builds_emit (hb : b < n) (op : MirOp) (t : MirType) (ht : t ≠ .void) :
    ∃ f', Builds (Build.emit { op := op, type := some t }) f b k f' b
      (only b [{ op := op, result := k, type := some t }]) [t] := by
  rw [← h.next]
  have hNew := extends_newValue h.ready t
  have hAppend := hNew.trans (extends_append hNew.ready (by rwa [hNew.length_eq, h.length])
    { op := op, result := f.nextValueId, type := some t })
  refine ⟨_, ?_, hAppend⟩
  cases t with
  | void => exact absurd rfl ht
  | _ => rfl

theorem builds_emit_typeOf (hb : b < n) (op : MirOp) {v : MirValueId}
    {t : MirType} (hType : f.valueType v = some t) (ht : t ≠ .void) :
    ∃ f', Builds (do Build.emit { op := op, type := ← Build.typeOf v }) f b k f' b
      (only b [{ op := op, result := k, type := some t }]) [t] := by
  obtain ⟨f', hBuilds⟩ := builds_emit h hb op t ht
  refine ⟨f', ?_, hBuilds.result⟩
  show (Build.emit { op := op, type := f.valueType v }).run ⟨f, b⟩ = _
  rw [hType]
  exact hBuilds.run_eq

theorem builds_linkCfg (b : MirBlockId) (hTarget : target ≠ 0) :
    ∃ f', Builds (Build.linkCfg (some target)) f b () f' b (fun _ => []) [] :=
  ⟨_, rfl, extends_link h.ready hTarget⟩

theorem builds_br (hb : b < n) (hTarget : target ≠ 0) :
    ∃ f', Builds (Build.br (some target)) f b () f' b
      (only b [{ op := .br (some target), type := some .void }]) [] := by
  obtain ⟨f₁, h₁⟩ := builds_emitVoid h hb (.br (some target))
  obtain ⟨f₂, h₂⟩ := builds_linkCfg (h.step h₁.result) b hTarget
  exact ⟨f₂, (h₁.bind h₂).congr (fun c => append_nil _) rfl⟩

theorem builds_condbr (hb : b < n) (cond : MirValueId) {t e : MirBlockId}
    (ht : t ≠ 0) (he : e ≠ 0) :
    ∃ f', Builds (Build.condbr cond (some t) (some e)) f b () f' b
      (only b [{ op := .condbr cond (some t) (some e), type := some .void }]) [] := by
  obtain ⟨f₁, h₁⟩ := builds_emitVoid h hb (.condbr cond (some t) (some e))
  obtain ⟨f₂, h₂⟩ := builds_linkCfg (h.step h₁.result) b ht
  obtain ⟨f₃, h₃⟩ := builds_linkCfg ((h.step h₁.result).step h₂.result) b he
  exact ⟨f₃, (h₁.bind (h₂.bind h₃)).congr (fun c => append_nil _) rfl⟩

end

end

end Casprix.Mir
