import Casprix.Cvm.Machine

/-! The compile-time evaluator: it follows a function from block to block and
keeps every value in one array of slots, which the calls it makes share. -/
namespace Casprix.Consteval

open Mir Cvm

/-- Integers are 64-bit words, and a double is stored as its bits. -/
inductive MirConstValue where
  | int (i64 : Word)
  | float (f64 : Word)
  | bool (b : Bool)
  | string (str : String)
  | null
  | void
  deriving DecidableEq, Repr

/-- A slot that was never set is all zero, which reads as the integer zero. -/
structure MirConstEval where
  module : MirModule
  slots : MirValueId → MirConstValue := fun _ => .int 0
  steps : Nat := 0
  maxSteps : Nat := 100000
  errorMsg : Option String := none
  callDepth : Nat := 0
  maxCallDepth : Nat := 32

def mirConstevalInit (module : MirModule) : MirConstEval where
  module := module

namespace MirConstEval

def setSlot (ce : MirConstEval) (id : MirValueId) (value : MirConstValue) : MirConstEval :=
  { ce with slots := Function.update ce.slots id value }

def error (ce : MirConstEval) (message : String) : MirConstEval :=
  { ce with errorMsg := some message }

def leave (ce : MirConstEval) : MirConstEval := { ce with callDepth := ce.callDepth - 1 }

end MirConstEval

/-- What an instruction says about its function: `none` when that is left to the callee. -/
def eligibleInst (module : MirModule) (inst : MirInst) : Except MirFunction Bool :=
  match inst.op with
  | .objAlloc .. | .refop .arcRetain _ | .refop .arcRelease _ | .callIndirect ..
  | .callVirtual .. => .ok false
  | .call name _ _ =>
    match name.bind module.findFunction with
    | none => .ok false
    | some callee => if callee.isConstexpr then .ok true else .error callee
  | _ => .ok true

def eligibleInsts (module : MirModule) (eligible : MirFunction → Option Bool) :
    List MirInst → Option Bool
  | [] => some true
  | inst :: rest =>
    match eligibleInst module inst with
    | .ok true => eligibleInsts module eligible rest
    | .ok false => some false
    | .error callee =>
      match eligible callee with
      | some true => eligibleInsts module eligible rest
      | answer => answer

/-- The depth bounds the nesting of the calls; a recursive function that is not
marked constexpr is followed without end. -/
def mirConstevalEligible (module : MirModule) : Nat → MirFunction → Option Bool
  | 0, _ => none
  | depth + 1, func =>
    if func.isExtern then some false
    else eligibleInsts module (mirConstevalEligible module depth) (func.blocks.flatMap (·.insts))

section

variable {Heap : Type} (host : CvmHost Heap) (castI64 : Word → Word)

/-- Integer arithmetic wraps, and a shift count is taken modulo 64. The
quotient of the least integer by minus one has no result: the division stops
the process. -/
def intArithmetic (op : BinaryOp) (l r : Word) : Except String (Option Word) :=
  match op with
  | .add => .ok (some (l + r))
  | .sub => .ok (some (l - r))
  | .mul => .ok (some (l * r))
  | .div =>
    if r = 0 then .error "consteval: division by zero"
    else if l = intMin ∧ r = -1 then .ok none
    else .ok (some (l.sdiv r))
  | .mod =>
    if r = 0 then .error "consteval: modulo by zero"
    else if l = intMin ∧ r = -1 then .ok none
    else .ok (some (l.srem r))
  | .band => .ok (some (l &&& r))
  | .bor => .ok (some (l ||| r))
  | .bxor => .ok (some (l ^^^ r))
  | .shl => .ok (some (l <<< (r &&& 63).toNat))
  | .shr => .ok (some (l.sshiftRight (r &&& 63).toNat))
  | _ => .ok (some 0)

/-- The value of a binary instruction, or the error it stops with. -/
def binaryValue (op : BinaryOp) (l r : MirConstValue) : Except String (Option MirConstValue) :=
  match op with
  | .add | .sub | .mul | .div | .mod =>
    match l, r with
    | .int l, .int r => (intArithmetic op l r).map fun word => word.map .int
    | _, _ => .error "consteval: integer arithmetic on non-integer"
  | .fadd | .fsub | .fmul | .fdiv =>
    match l, r with
    | .float l, .float r => .ok (some (.float (cvmBinary host op l r)))
    | _, _ => .error "consteval: float arithmetic on non-float"
  | .cmpEq | .cmpNe | .cmpLt | .cmpLe | .cmpGt | .cmpGe =>
    match l, r with
    | .int l, .int r => .ok (some (.bool (match op with
        | .cmpEq => l == r
        | .cmpNe => l != r
        | .cmpLt => l.slt r
        | .cmpLe => l.sle r
        | .cmpGt => r.slt l
        | _ => r.sle l)))
    | _, _ => .error "consteval: comparison on non-integer"
  | .band | .bor | .bxor | .shl | .shr =>
    match l, r with
    | .int l, .int r => (intArithmetic op l r).map fun word => word.map .int
    | _, _ => .error "consteval: bitwise on non-integer"
  | .ushr | .logicAnd | .logicOr => .error "consteval: unsupported instruction"

/-- The value of a unary instruction; the conversions between integers keep it. -/
def unaryValue (op : UnaryOp) (x : MirConstValue) : Except String MirConstValue :=
  match op with
  | .neg =>
    match x with
    | .int x => .ok (.int (-x))
    | _ => .error "consteval: neg on non-integer"
  | .fneg =>
    match x with
    | .float x => .ok (.float (host.fneg x))
    | _ => .error "consteval: fneg on non-float"
  | .logicNot =>
    match x with
    | .bool x => .ok (.bool !x)
    | _ => .error "consteval: not on non-bool"
  | .sitofp =>
    match x with
    | .int x => .ok (.float (host.sitofp x))
    | _ => .error "consteval: sitofp on non-integer"
  | .fptosi =>
    match x with
    | .float x => .ok (.int (castI64 x))
    | _ => .error "consteval: fptosi on non-float"
  | .zext | .sext | .trunc | .cast => .ok x
  | .bnot | .bitcast => .error "consteval: unsupported instruction"

/-- The evaluator after one instruction and whether it succeeded. There is
nothing after a division that stops the process. -/
def mirConstevalStep (ce : MirConstEval) (inst : MirInst) : Option (MirConstEval × Bool) :=
  let ce := { ce with steps := ce.steps + 1 }
  let set (value : MirConstValue) := some (ce.setSlot inst.result value, true)
  if ce.maxSteps < ce.steps then
    some (ce.error "consteval: step limit exceeded (possible infinite loop)", false)
  else
    match inst.op with
    | .constInt imm => set (.int imm)
    | .constFloat imm => set (.float imm)
    | .constBool imm => set (.bool imm)
    | .constString imm => set (.string imm)
    | .constFunc _ =>
      some (ce.error
        "consteval: function addresses are not supported as compile-time values", false)
    | .constNull => set .null
    | .binary op lhs rhs =>
      match binaryValue host op (ce.slots lhs) (ce.slots rhs) with
      | .ok (some value) => set value
      | .ok none => none
      | .error message => some (ce.error message, false)
    | .unary op operand _ =>
      match unaryValue host castI64 op (ce.slots operand) with
      | .ok value => set value
      | .error message => some (ce.error message, false)
    | .alloca .. => set (.int 0)
    | .load ptr => set (ce.slots ptr)
    | .store ptr value => some (ce.setSlot ptr (ce.slots value), true)
    | .transfer .copy source | .transfer .move source => set (ce.slots source)
    | .nop | .debugLoc => some (ce, true)
    | _ => some (ce.error "consteval: unsupported instruction", false)

end

/-- The parameters take the arguments there are. -/
def setParams (ce : MirConstEval) (func : MirFunction) (args : List MirConstValue) : MirConstEval :=
  (func.params.zip args).foldl (fun ce p => ce.setSlot p.1.valueId p.2) ce

/-- The checks at the start of a call and its parameters, or the error. -/
def enterCall (ce : MirConstEval) (func : MirFunction) (args : List MirConstValue) :
    Except MirConstEval MirConstEval :=
  if func.isExtern then .error (ce.error "consteval: cannot evaluate extern function")
  else if ce.maxCallDepth ≤ ce.callDepth then
    .error (ce.error "consteval: maximum call depth exceeded")
  else .ok (setParams { ce with callDepth := ce.callDepth + 1 } func args)

def entryBlock (func : MirFunction) : MirBlockRef := if func.blocks = [] then none else some 0

section

variable {Heap : Type} (host : CvmHost Heap) (castI64 : Word → Word)

/-- What the evaluator reads of a call: sixteen arguments at most. -/
def maxCallArgs : Nat := 16

/-- The instructions `insts` of a block of `func` and what follows them. There
is no answer without enough fuel; the value is there on success. -/
def evalInsts : Nat → MirConstEval → MirFunction → List MirInst →
    Option (MirConstEval × Option MirConstValue)
  | 0, _, _, _ => none
  | fuel + 1, ce, func, insts =>
    let fail (ce : MirConstEval) := some (ce.leave, none)
    let goto (func : MirFunction) (ce : MirConstEval) (target : MirBlockRef) :=
      match target with
      | some b => evalInsts fuel ce func (func.insts b)
      | none => fail (ce.error "consteval: reached null block")
    match insts with
    | [] => fail (ce.error "consteval: block without terminator")
    | inst :: rest =>
      match inst.op with
      | .br target => goto func ce target
      | .condbr cond trueBb falseBb =>
        match ce.slots cond with
        | .bool b => goto func ce (if b then trueBb else falseBb)
        | _ => fail (ce.error "consteval: condbr on non-bool")
      | .ret value => some (ce.leave, some (ce.slots value))
      | .retVoid => some (ce.leave, some .void)
      | .call name args _ =>
        match name.bind ce.module.findFunction with
        | none => fail (ce.error "consteval: unknown function in call")
        | some callee =>
          match enterCall ce callee ((args.take maxCallArgs).map ce.slots) with
          | .error ce => fail ce
          | .ok entered =>
            match goto callee entered (entryBlock callee) with
            | none => none
            | some (ce, none) => fail ce
            | some (ce, some value) =>
              evalInsts fuel (if inst.result = 0 then ce else ce.setSlot inst.result value)
                func rest
      | _ =>
        match mirConstevalStep host castI64 ce inst with
        | none => none
        | some (ce, false) => fail ce
        | some (ce, true) => evalInsts fuel ce func rest

def mirConstevalCall (fuel : Nat) (ce : MirConstEval) (func : MirFunction)
    (args : List MirConstValue) : Option (MirConstEval × Option MirConstValue) :=
  match enterCall ce func args with
  | .error ce => some (ce, none)
  | .ok ce =>
    match entryBlock func with
    | some b => evalInsts host castI64 fuel ce func (func.insts b)
    | none => some ((ce.error "consteval: reached null block").leave, none)

end

section

variable {Heap : Type} {host : CvmHost Heap} {castI64 : Word → Word} {ce ce' : MirConstEval}
  {inst : MirInst}

/-- What no part of an evaluation changes. -/
structure SameLimits (ce ce' : MirConstEval) : Prop where
  module : ce'.module = ce.module
  maxSteps : ce'.maxSteps = ce.maxSteps
  maxCallDepth : ce'.maxCallDepth = ce.maxCallDepth

theorem SameLimits.trans {ce'' : MirConstEval} (h : SameLimits ce ce') (h' : SameLimits ce' ce'') :
    SameLimits ce ce'' where
  module := h'.module.trans h.module
  maxSteps := h'.maxSteps.trans h.maxSteps
  maxCallDepth := h'.maxCallDepth.trans h.maxCallDepth

/-- An instruction is charged one step. It succeeds within the limit only, and
fails with an error. -/
structure Charged (ce ce' : MirConstEval) (ok : Bool) : Prop where
  limits : SameLimits ce ce'
  depth : ce'.callDepth = ce.callDepth
  steps : ce'.steps = ce.steps + 1
  within : ok = true → ce'.steps ≤ ce'.maxSteps
  error : ok = false → ce'.errorMsg ≠ none

theorem mirConstevalStep_charged {ok : Bool}
    (hStep : mirConstevalStep host castI64 ce inst = some (ce', ok)) :
    Charged ce ce' ok := by
  have hSet : ∀ (id : MirValueId) (value : MirConstValue), ¬ce.maxSteps < ce.steps + 1 →
      some (({ ce with steps := ce.steps + 1 } : MirConstEval).setSlot id value, true) =
        some (ce', ok) →
      Charged ce ce' ok := by
    intro id value hRoom h
    obtain ⟨rfl, rfl⟩ := Prod.mk.inj (Option.some.inj h)
    exact ⟨⟨rfl, rfl, rfl⟩, rfl, rfl, fun _ => Nat.le_of_not_lt hRoom, (nomatch ·)⟩
  have hFail : ∀ message : String,
      some (({ ce with steps := ce.steps + 1 } : MirConstEval).error message, false) =
        some (ce', ok) →
      Charged ce ce' ok := by
    intro message h
    obtain ⟨rfl, rfl⟩ := Prod.mk.inj (Option.some.inj h)
    exact ⟨⟨rfl, rfl, rfl⟩, rfl, rfl, (nomatch ·), fun _ => Option.some_ne_none _⟩
  unfold mirConstevalStep at hStep
  dsimp only at hStep
  split at hStep
  · exact hFail _ hStep
  · next hRoom =>
      cases hOp : inst.op with
      | binary op lhs rhs =>
        simp only [hOp] at hStep
        split at hStep
        · exact hSet _ _ hRoom hStep
        · cases hStep
        · exact hFail _ hStep
      | unary op operand target =>
        simp only [hOp] at hStep
        split at hStep
        · exact hSet _ _ hRoom hStep
        · exact hFail _ hStep
      | transfer op source =>
        rw [hOp] at hStep
        cases op with
        | copy | move => exact hSet _ _ hRoom hStep
        | borrow | borrowMut => exact hFail _ hStep
      | nop | debugLoc =>
        rw [hOp] at hStep
        obtain ⟨rfl, rfl⟩ := Prod.mk.inj (Option.some.inj hStep)
        exact ⟨⟨rfl, rfl, rfl⟩, rfl, rfl, fun _ => Nat.le_of_not_lt hRoom, (nomatch ·)⟩
      | constInt | constFloat | constBool | constString | constNull | alloca | load | store =>
        rw [hOp] at hStep
        exact hSet _ _ hRoom hStep
      | _ =>
        rw [hOp] at hStep
        exact hFail _ hStep

end

end Casprix.Consteval
