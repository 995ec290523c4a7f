import Casprix.Consteval.Evaluator

/-! The evaluator under watch: which call wrote each slot last, and what an
instruction has to find there for the machine to find the same. -/
namespace Casprix.Consteval

open Mir Cvm

/-- What a slot is to the call that wrote it last: a value, the contents of a
cell that the call allocated, or something its register does not hold. -/
inductive Role where
  | value | cell | lost
  deriving DecidableEq, Repr

/-- For each slot the number of the call that wrote it last, if any did. -/
abbrev Owners := MirValueId → Option (Nat × Role)

/-- The machine keeps no register for `MIR_VALUE_NONE`. -/
def Owners.mark (owner : Owners) (serial : Nat) (id : MirValueId) (role : Role) : Owners :=
  Function.update owner id (some (serial, if id = 0 then .lost else role))

/-- The owners after an instruction. The register of a moved value is cleared. -/
def Owners.after (owner : Owners) (serial : Nat) (inst : MirInst) : Owners :=
  match inst.op with
  | .nop | .debugLoc | .store .. => owner
  | .alloca .. => owner.mark serial inst.result .cell
  | .transfer .move source =>
    let owner := owner.mark serial inst.result .value
    if source = 0 then owner else owner.mark serial source .lost
  | _ => owner.mark serial inst.result .value

/-- The parameters that get an argument belong to the new call. -/
def Owners.params {α : Type} (owner : Owners) (serial : Nat)
    (func : MirFunction) (args : List α) :
    Owners :=
  (func.params.zip args).foldl (fun owner p =>
    owner.mark serial p.1.valueId (if p.1.valueId < cvmRegCount func then .value else .lost)) owner

/-- What the evaluator stands before when it comes to an instruction. -/
structure Visit where
  module : MirModule
  func : MirFunction
  serial : Nat
  owner : Owners
  slots : MirValueId → MirConstValue
  inst : MirInst

section

variable {Heap : Type} (host : CvmHost Heap) (castI64 : Word → Word)

/-- The register that stands for a slot. -/
def constReg : MirConstValue → CvmReg
  | .int i64 => i64
  | .float f64 => f64
  | .bool b => flag b
  | .string str => host.literal str
  | .null | .void => 0

/-- The conversion is one that the machine makes in the same way. -/
def SameConversion (op : UnaryOp) (target : Option MirType) (x : CvmReg) : Prop :=
  match op with
  | .sext => (x.setWidth 32).signExtend 64 = x
  | .trunc => x &&& 0xFFFFFFFF = x
  | .cast => target = some .f64 ∨ target = some .f32 → host.sitofp x = x
  | .fptosi => castI64 x = host.fptosi x
  | _ => True

instance (op : UnaryOp) (target : Option MirType) (x : CvmReg) :
    Decidable (SameConversion host castI64 op target x) := by
  unfold SameConversion
  cases op <;> infer_instance

namespace Visit

/-- The slot was written last by this call, or by none, and has a register. -/
def Reads (visit : Visit) (id : MirValueId) : Prop :=
  id < cvmRegCount visit.func ∧
    (visit.owner id = none ∨ visit.owner id = some (visit.serial, .value))

/-- The slot stands for a cell that this call has allocated. -/
def ReadsCell (visit : Visit) (id : MirValueId) : Prop :=
  id < cvmRegCount visit.func ∧ visit.owner id = some (visit.serial, .cell)

def Writes (visit : Visit) (id : MirValueId) : Prop := id < cvmRegCount visit.func

instance (visit : Visit) (id : MirValueId) : Decidable (visit.Reads id) :=
  inferInstanceAs (Decidable (_ ∧ _))

instance (visit : Visit) (id : MirValueId) : Decidable (visit.ReadsCell id) :=
  inferInstanceAs (Decidable (_ ∧ _))

instance (visit : Visit) (id : MirValueId) : Decidable (visit.Writes id) :=
  inferInstanceAs (Decidable (_ < _))

/-- A call that both resolve alike, with arguments that reach the parameters. -/
def CallOk (visit : Visit) (name : Option String) (args : List MirValueId) : Prop :=
  match name with
  | none => False
  | some name =>
    match visit.module.findFunction name with
    | none => False
    | some callee =>
      name ∉ cvmIntrinsics ∧ (args.length ≤ maxCallArgs ∨
        callee.params.length ≤ maxCallArgs) ∧
        (∀ id ∈ args.take 64, id < cvmRegCount visit.func) ∧
        ∀ id ∈ args.take callee.params.length, visit.Reads id

instance (visit : Visit) (name : Option String) (args : List MirValueId) :
    Decidable (visit.CallOk name args) := by
  unfold CallOk
  split
  · infer_instance
  · split <;> infer_instance

/-- What the instruction reads is what the machine reads, it writes a register,
and a conversion is one that both make. -/
def Ok (visit : Visit) : Prop :=
  match visit.inst.op with
  | .binary _ lhs rhs => visit.Reads lhs ∧ visit.Reads rhs ∧ visit.Writes visit.inst.result
  | .unary op operand target =>
    visit.Reads operand ∧ visit.Writes visit.inst.result ∧
      SameConversion host castI64 op target (constReg host (visit.slots operand))
  | .load ptr => visit.ReadsCell ptr ∧ visit.Writes visit.inst.result
  | .store ptr value => visit.ReadsCell ptr ∧ visit.Reads value
  | .transfer _ source => visit.Reads source ∧ visit.Writes visit.inst.result
  | .condbr cond _ _ => visit.Reads cond
  | .ret value => visit.Reads value
  | .call name args _ => visit.CallOk name args ∧ visit.Writes visit.inst.result
  | .nop | .debugLoc | .br _ | .retVoid => True
  | _ => visit.Writes visit.inst.result

instance (visit : Visit) : Decidable (visit.Ok host castI64) := by
  unfold Ok
  split <;> infer_instance

end Visit

end

/-- A run that succeeded, with the instructions it came to. -/
structure Watched where
  ce : MirConstEval
  owner : Owners
  next : Nat
  value : MirConstValue
  visits : List Visit

def Watched.log (w : Watched) (visits : List Visit) :
    Watched := { w with visits := visits ++ w.visits }

section

variable {Heap : Type} (host : CvmHost Heap) (castI64 : Word → Word)

/-- A successful `evalInsts` in the call with the number `serial`, where `next`
is the number of the next call. -/
def watchInsts : Nat → MirConstEval → Owners → Nat → Nat →
    MirFunction → List MirInst →
    Option Watched
  | 0, _, _, _, _, _, _ => none
  | _ + 1, _, _, _, _, _, [] => none
  | fuel + 1, ce, owner, serial, next, func, inst :: rest =>
    let visit : Visit := ⟨ce.module, func, serial, owner, ce.slots, inst⟩
    let goto (target : MirBlockRef) :=
      target.bind fun b =>
        (watchInsts fuel ce owner serial next func (func.insts b)).map (·.log [visit])
    match inst.op with
    | .br target => goto target
    | .condbr cond trueBb falseBb =>
      match ce.slots cond with
      | .bool b => goto (if b then trueBb else falseBb)
      | _ => none
    | .ret value => some ⟨ce.leave, owner, next, ce.slots value, [visit]⟩
    | .retVoid => some ⟨ce.leave, owner, next, .void, [visit]⟩
    | .call name args _ =>
      (name.bind ce.module.findFunction).bind fun callee =>
        match enterCall ce callee ((args.take maxCallArgs).map ce.slots) with
        | .error _ => none
        | .ok entered =>
          (entryBlock callee).bind fun b =>
            (watchInsts fuel entered (owner.params next callee (args.take maxCallArgs)) next
              (next + 1) callee (callee.insts b)).bind fun inner =>
                (watchInsts fuel
                  (if inst.result = 0 then inner.ce else inner.ce.setSlot inst.result inner.value)
                  (if inst.result = 0 then inner.owner
                    else inner.owner.mark serial inst.result .value)
                  serial inner.next func rest).map (·.log (visit :: inner.visits))
    | _ =>
      match mirConstevalStep host castI64 ce inst with
      | some (ce, true) =>
        (watchInsts fuel ce (owner.after serial inst) serial next func rest).map (·.log [visit])
      | _ => none

/-- The instructions a successful call by a new evaluator comes to. -/
def constevalVisits (fuel : Nat) (module : MirModule) (func : MirFunction)
    (args : List MirConstValue) : List Visit :=
  match enterCall (mirConstevalInit module) func args with
  | .error _ => []
  | .ok ce =>
    (((entryBlock func).bind fun b => watchInsts host castI64 fuel ce
      (Owners.params (fun _ => none) 0 func args) 0 1 func (func.insts b)).map (·.visits)).getD []

variable {host castI64}

theorem exists_watchInsts {fuel : Nat} {ce ce' : MirConstEval} {func : MirFunction}
    {insts : List MirInst} {value : MirConstValue}
    (h : evalInsts host castI64 fuel ce func insts = some (ce', some value))
    (owner : Owners) (serial next : Nat) :
    ∃ w, watchInsts host castI64 fuel ce owner serial next func insts = some w ∧
      w.ce = ce' ∧ w.value = value := by
  induction fuel generalizing ce ce' func insts value owner serial next with
  | zero => cases h
  | succ fuel ih =>
    have hGoto : ∀ (visit : Visit) {func : MirFunction} {ce ce' : MirConstEval} {b : MirBlockId}
        {value : MirConstValue},
        evalInsts host castI64 fuel ce func (func.insts b) = some (ce', some value) →
        ∃ w, ((some b).bind fun b => (watchInsts host castI64 fuel ce owner serial next func
          (func.insts b)).map (·.log [visit])) = some w ∧ w.ce = ce' ∧ w.value = value := by
      intro visit func ce ce' b value hRun
      obtain ⟨w, hWatch, hCe, hValue⟩ := ih hRun owner serial next
      exact ⟨w.log [visit], by simp [hWatch], hCe, hValue⟩
    cases insts with
    | nil => cases h
    | cons inst rest =>
      cases hOp : inst.op with
      | br target =>
        simp only [evalInsts, hOp] at h
        simp only [watchInsts, hOp]
        cases target with
        | none => cases h
        | some b => exact hGoto _ h
      | condbr cond trueBb falseBb =>
        simp only [evalInsts, hOp] at h
        simp only [watchInsts, hOp]
        cases hCond : ce.slots cond with
        | bool b =>
          simp only [hCond] at h ⊢
          cases hTarget : (if b then trueBb else falseBb) with
          | none =>
            rw [hTarget] at h
            cases h
          | some target =>
            rw [hTarget] at h
            exact hGoto _ h
        | _ =>
          rw [hCond] at h
          cases h
      | ret _ | retVoid =>
        simp only [evalInsts, hOp] at h
        simp only [watchInsts, hOp]
        cases h
        exact ⟨_, rfl, rfl, rfl⟩
      | call name args callee =>
        simp only [evalInsts, hOp] at h
        simp only [watchInsts, hOp]
        cases hFind : name.bind ce.module.findFunction with
        | none =>
          rw [hFind] at h
          cases h
        | some callee =>
          simp only [hFind, Option.bind_some] at h ⊢
          cases hEnter : enterCall ce callee ((args.take maxCallArgs).map ce.slots) with
          | error ce =>
            rw [hEnter] at h
            cases h
          | ok entered =>
            cases hEntry : entryBlock callee with
            | none =>
              rw [hEnter, hEntry] at h
              cases h
            | some b =>
              simp only [hEnter, hEntry, Option.bind_some] at h ⊢
              cases hInner : evalInsts host castI64 fuel entered callee (callee.insts b) with
              | none =>
                rw [hInner] at h
                cases h
              | some result =>
                obtain ⟨innerCe, _ | innerValue⟩ := result
                · rw [hInner] at h
                  cases h
                · rw [hInner] at h
                  obtain ⟨inner, hWatched, rfl, rfl⟩ := ih hInner
                    (owner.params next callee (args.take maxCallArgs)) next (next + 1)
                  obtain ⟨w, hRest, hCe, hValue⟩ := ih h
                    (if inst.result = 0 then inner.owner
                      else inner.owner.mark serial inst.result .value) serial inner.next
                  rw [hWatched, Option.bind_some, hRest]
                  exact ⟨_, rfl, hCe, hValue⟩
      | _ =>
        simp only [evalInsts, hOp] at h
        simp only [watchInsts, hOp]
        cases hStep : mirConstevalStep host castI64 ce inst with
        | none =>
          rw [hStep] at h
          cases h
        | some result =>
          obtain ⟨stepped, _ | _⟩ := result
          · rw [hStep] at h
            cases h
          · rw [hStep] at h
            obtain ⟨w, hWatched, hCe, hValue⟩ := ih h (owner.after serial inst) serial next
            simp only [hWatched, Option.map_some]
            exact ⟨_, rfl, hCe, hValue⟩
end

end Casprix.Consteval
