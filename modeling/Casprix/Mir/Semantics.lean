import Casprix.Mir.Path

/-! A small-step semantics of the representation itself, with memory as a list
of typed objects. Operations outside its reach have no step. -/
namespace Casprix.Mir

open Function

/-- A register holds a word or the address of an element of an object. -/
inductive MirValue where
  | word (w : Word)
  | ptr (object : Nat) (index : Int)
  deriving DecidableEq, Repr

/-- Elements of one type, each possibly not yet stored. -/
structure MirObject where
  elem : MirType
  cells : List (Option MirValue)
  deriving DecidableEq, Repr

/-- Assigned registers, memory and the elements loaded so far. -/
structure MirState where
  values : MirValueId → Option MirValue
  memory : List MirObject := []
  loads : List (Nat × Int) := []

namespace MirType

/-- The width of an integer type. -/
def bits : MirType → Option Nat
  | bool => some 1
  | i8 | u8 => some 8
  | i16 | u16 => some 16
  | i32 | u32 => some 32
  | i64 | u64 => some 64
  | _ => none

end MirType

namespace MirState

variable (st : MirState)

def assign (id : MirValueId) (v : MirValue) : MirState :=
  { st with values := update st.values id (some v) }

/-- Notes that the element at an address was loaded. -/
def record (address : Nat × Int) : MirState :=
  { st with loads := st.loads ++ [address] }

def word? (id : MirValueId) : Option Word :=
  match st.values id with
  | some (.word w) => some w
  | _ => none

def ptr? (id : MirValueId) : Option (Nat × Int) :=
  match st.values id with
  | some (.ptr object index) => some (object, index)
  | _ => none

/-- The element at an address, when it is in bounds, stored and of the type
asked for. -/
def load (type : MirType) (address : Nat × Int) : Option MirValue :=
  match st.memory[address.1]? with
  | some object =>
    if object.elem = type ∧ 0 ≤ address.2 then (object.cells[address.2.toNat]?).join else none
  | none => none

/-- Stores an element, when it is in bounds and of the object's type. -/
def store (type : MirType) (address : Nat × Int) (v : MirValue) : Option MirState :=
  match st.memory[address.1]? with
  | some object =>
    if object.elem = type ∧ 0 ≤ address.2 ∧ address.2.toNat < object.cells.length then
      let cells := object.cells.set address.2.toNat (some v)
      some { st with memory := st.memory.set address.1 { object with cells := cells } }
    else none
  | none => none

section

variable {st : MirState} {id other : MirValueId} {v : MirValue} {w : Word} {place : Nat × Int}

@[simp] theorem assign_self : (st.assign id v).values id = some v := update_self ..

@[simp] theorem assign_of_ne (h : other ≠ id) : (st.assign id v).values other = st.values other :=
  update_of_ne h ..

@[simp] theorem assign_memory : (st.assign id v).memory = st.memory := rfl

@[simp] theorem assign_loads : (st.assign id v).loads = st.loads := rfl

@[simp] theorem record_values : (st.record place).values = st.values := rfl

@[simp] theorem record_memory : (st.record place).memory = st.memory := rfl

@[simp] theorem record_loads : (st.record place).loads = st.loads ++ [place] := rfl

theorem word?_of_values (h : st.values id = some (.word w)) : st.word? id = some w := by
  rw [word?, h]

theorem ptr?_of_values {object : Nat} {index : Int} (h : st.values id = some (.ptr object index)) :
    st.ptr? id = some (object, index) := by
  rw [ptr?, h]

end

end MirState

def boolWord (b : Bool) : Word := if b then 1 else 0

/-- Integer arithmetic on 64-bit words; the undefined cases have no result. -/
def evalBinary (op : BinaryOp) (l r : Word) : Option Word :=
  match op with
  | .add => some (l + r)
  | .sub => some (l - r)
  | .mul => some (l * r)
  | .div => if r = 0 then none else some (l.sdiv r)
  | .mod => if r = 0 then none else some (l.srem r)
  | .band => some (l &&& r)
  | .bor => some (l ||| r)
  | .bxor => some (l ^^^ r)
  | .shl => if r.toNat < 64 then some (l <<< r.toNat) else none
  | .shr => if r.toNat < 64 then some (l.sshiftRight r.toNat) else none
  | .ushr => if r.toNat < 64 then some (l >>> r.toNat) else none
  | .cmpEq => some (boolWord (l == r))
  | .cmpNe => some (boolWord (l != r))
  | .cmpLt => some (boolWord (l.slt r))
  | .cmpLe => some (boolWord (l.sle r))
  | .cmpGt => some (boolWord (r.slt l))
  | .cmpGe => some (boolWord (r.sle l))
  | .logicAnd => some (boolWord (l != 0 && r != 0))
  | .logicOr => some (boolWord (l != 0 || r != 0))
  | .fadd | .fsub | .fmul | .fdiv => none

/-- Conversions read the width of their operand's type. -/
def evalUnary (op : UnaryOp) (source target : Option MirType) (w : Word) : Option Word :=
  match op with
  | .neg => some (-w)
  | .bnot => some (~~~w)
  | .logicNot => some (boolWord (w == 0))
  | .bitcast => some w
  | .zext => (source.bind MirType.bits).map fun n => (w.setWidth n).setWidth 64
  | .sext => (source.bind MirType.bits).map fun n => (w.setWidth n).signExtend 64
  | .trunc => (target.bind MirType.bits).map fun n => (w.setWidth n).setWidth 64
  | .fneg | .cast | .sitofp | .fptosi => none

section

variable (func : MirFunction)

/-- The effect of an instruction that is neither a terminator nor a PHI. -/
def evalInst (inst : MirInst) (st : MirState) : Option MirState :=
  match inst.op with
  | .constInt imm => some (st.assign inst.result (.word imm))
  | .constBool imm => some (st.assign inst.result (.word (boolWord imm)))
  | .binary op lhs rhs => do
      let w ← evalBinary op (← st.word? lhs) (← st.word? rhs)
      return st.assign inst.result (.word w)
  | .unary op operand target => do
      let w ← evalUnary op (func.valueType operand) target (← st.word? operand)
      return st.assign inst.result (.word w)
  | .alloca (some type) count =>
    let object : MirObject := { elem := type, cells := List.replicate count.toNat none }
    some ({ st with memory := st.memory ++ [object] }.assign inst.result (.ptr st.memory.length 0))
  | .load ptr => do
      let address ← st.ptr? ptr
      let v ← st.load (← inst.type) address
      return (st.record address).assign inst.result v
  | .store ptr value => do
      st.store (← func.valueType value) (← st.ptr? ptr) (← st.values value)
  | .getElemPtr base index => do
      let (object, place) ← st.ptr? base
      return st.assign inst.result (.ptr object (place + (← st.word? index).toInt))
  | .transfer .copy source => do return st.assign inst.result (← st.values source)
  | .nop | .debugLoc => some st
  | _ => none

/-- Where a terminator leads. -/
inductive Control where
  | goto (target : MirBlockId)
  | done (value : Option MirValue)
  deriving DecidableEq, Repr

def evalTerminator (op : MirOp) (st : MirState) : Option Control :=
  match op with
  | .br target => target.map .goto
  | .condbr cond trueBb falseBb => do
      let w ← st.word? cond
      (if w ≠ 0 then trueBb else falseBb).map .goto
  | .switch discriminant cases defaultBb => do
      let w ← st.word? discriminant
      match cases.find? (·.value == w) with
      | some c => c.target.map .goto
      | none => defaultBb.map .goto
  | .ret value => (st.values value).map fun v => .done (some v)
  | .retVoid => some (.done none)
  | _ => none

/-- The value a PHI takes on entry from `pred`. -/
def phiValue (pred : MirBlockId) (st : MirState) (inst : MirInst) : Option MirValue :=
  match inst.op with
  | .phi edges => (edges.find? (·.block == some pred)).bind fun e => st.values e.value
  | _ => none

/-- All PHIs at the head of a block read their operands before any is assigned. -/
def enterBlock (pred target : MirBlockId) (st : MirState) : Option MirState := do
  let phis := (func.insts target).takeWhile (·.op.isPhi)
  let values ← phis.mapM (phiValue pred st)
  return (phis.zip values).foldl (fun st p => st.assign p.1.result p.2) st

/-- A run is inside a block, before the instructions that are left, or over. -/
inductive Config where
  | running (block : MirBlockId) (rest : List MirInst) (st : MirState)
  | returned (value : Option MirValue) (st : MirState)

/-- One step; `none` is a run that is stuck. -/
def step : Config → Option Config
  | .running block (inst :: rest) st =>
    if inst.op.isTerminator then
      match evalTerminator inst.op st with
      | some (.goto target) => do
          let st ← enterBlock func block target st
          return .running target ((func.insts target).dropWhile (·.op.isPhi)) st
      | some (.done value) => some (.returned value st)
      | none => none
    else (evalInst func inst st).map (.running block rest)
  | _ => none

/-- Finitely many steps lead from one configuration to the other. -/
inductive Steps : Config → Config → Prop where
  | refl (c : Config) : Steps c c
  | head {c d e : Config} (first : step func c = some d) (rest : Steps d e) : Steps c e

/-- The start of a call; the entry block has no PHIs. -/
def startConfig (args : List MirValue) (memory : List MirObject) : Config :=
  let st := (func.params.zip args).foldl (fun st p => st.assign p.1.valueId p.2)
    ({ values := fun _ => none, memory := memory } : MirState)
  .running 0 (func.insts 0) st

end

variable {type : Option MirType} {p : MirValueId}

section

variable {func : MirFunction} {c d e : Config} {block target : MirBlockId} {inst : MirInst}
  {rest : List MirInst} {st st' : MirState}

@[simp] theorem evalInst_constInt {imm : Word} {id : MirValueId} :
    evalInst func { op := .constInt imm, result := id, type := type } st =
      some (st.assign id (.word imm)) := rfl

theorem evalInst_load {id : MirValueId} {type : MirType} {place : Nat × Int} {v : MirValue}
    (hPtr : st.ptr? p = some place) (hLoad : st.load type place = some v) :
    evalInst func { op := .load p, result := id, type := some type } st =
      some ((st.record place).assign id v) := by
  simp [evalInst, hPtr, hLoad]

theorem evalInst_store {q : MirValueId} {type : MirType} {place : Nat × Int} {v : MirValue}
    {t : Option MirType} (hType : func.valueType q = some type) (hPtr : st.ptr? p = some place)
    (hValue : st.values q = some v) :
    evalInst func { op := .store p q, type := t } st = st.store type place v := by
  simp [evalInst, hType, hPtr, hValue]

theorem evalInst_binary {op : BinaryOp} {q id : MirValueId} {l r w : Word}
    (hLhs : st.word? p = some l) (hRhs : st.word? q = some r) (hEval : evalBinary op l r = some w) :
    evalInst func { op := .binary op p q, result := id, type := type } st =
      some (st.assign id (.word w)) := by
  simp [evalInst, hLhs, hRhs, hEval]

theorem evalInst_unary {op : UnaryOp} {id : MirValueId} {l w : Word} {target : Option MirType}
    (hOperand : st.word? p = some l) (hEval : evalUnary op (func.valueType p) target l = some w) :
    evalInst func { op := .unary op p target, result := id, type := type } st =
      some (st.assign id (.word w)) := by
  simp [evalInst, hOperand, hEval]

theorem evalInst_getElemPtr {q id : MirValueId} {object : Nat} {place : Int} {w : Word}
    (hBase : st.ptr? p = some (object, place)) (hIndex : st.word? q = some w) :
    evalInst func { op := .getElemPtr p q, result := id, type := type } st =
      some (st.assign id (.ptr object (place + w.toInt))) := by
  simp [evalInst, hBase, hIndex]

theorem Steps.trans (h : Steps func c d) (h' : Steps func d e) : Steps func c e := by
  induction h with
  | refl c => exact h'
  | head first _ ih => exact .head first (ih h')

theorem Steps.execute (hOp : inst.op.isTerminator = false)
    (hEval : evalInst func inst st = some st') (h : Steps func (.running block rest st') c) :
    Steps func (.running block (inst :: rest) st) c := by
  apply Steps.head _ h
  simp [step, hOp, hEval]

theorem Steps.goto (hOp : inst.op.isTerminator = true)
    (hEval : evalTerminator inst.op st = some (.goto target))
    (hPhis : ∀ inst ∈ (func.insts target).head?, inst.op.isPhi = false)
    (h : Steps func (.running target (func.insts target) st) c) :
    Steps func (.running block (inst :: rest) st) c := by
  apply Steps.head _ h
  cases hInsts : func.insts target with
  | nil => simp [step, hOp, hEval, enterBlock, hInsts]
  | cons first insts =>
    have hFirst : first.op.isPhi = false := hPhis first (by rw [hInsts]; rfl)
    simp [step, hOp, hEval, enterBlock, hInsts, hFirst]

theorem Steps.done (hOp : inst.op.isTerminator = true) {value : Option MirValue}
    (hEval : evalTerminator inst.op st = some (.done value)) :
    Steps func (.running block (inst :: rest) st) (.returned value st) := by
  apply Steps.head _ (.refl _)
  simp [step, hOp, hEval]

end

end Casprix.Mir
