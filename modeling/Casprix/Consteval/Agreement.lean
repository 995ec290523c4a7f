import Casprix.Consteval.Watch

/-! The machine beside the evaluator: as long as every instruction finds in
the slots what its own call has put there, both compute the same. -/
namespace Casprix.Consteval

open Function Mir Cvm Library

variable {Heap : Type} {host : CvmHost Heap} {castI64 : Word → Word}

/-- What is known of the allocator. `Live` holds of the addresses that were
allocated and not freed. -/
structure HostMemory (host : CvmHost Heap) where
  Live : Heap → CvmReg → Prop
  calloc : ∀ {heap heap' : Heap} {bytes : Nat} {a : CvmReg}, 8 ≤ bytes →
    host.calloc heap bytes = some (a, heap') →
      (a ≠ 0 ∧ ¬Live heap a ∧ Live heap' a ∧ host.read heap' a = some 0) ∧
        ∀ b, Live heap b → Live heap' b ∧ host.read heap' b = host.read heap b
  write : ∀ {heap : Heap} {a : CvmReg} (w : Word), Live heap a →
    ∃ heap', host.write heap a w = some heap' ∧ Live heap' a ∧ host.read heap' a = some w ∧
      ∀ b, Live heap b → b ≠ a → Live heap' b ∧ host.read heap' b = host.read heap b
  free : ∀ {heap : Heap} {mems : List CvmReg} {b : CvmReg}, Live heap b → b ∉ mems →
    Live (host.free heap mems) b ∧ host.read (host.free heap mems) b = host.read heap b

/-- The cells at these addresses are left as they are. -/
def Kept (memory : HostMemory host) (outer : CvmReg → Prop) (heap heap' : Heap) : Prop :=
  ∀ a, outer a → memory.Live heap' a ∧ host.read heap' a = host.read heap a

/-- The slots of a call agree with its frame. The addresses `outer` belong to
the calls that wait for it. -/
structure Agrees (memory : HostMemory host) (outer : CvmReg → Prop)
    (slots : MirValueId → MirConstValue) (owner : Owners) (serial : Nat) (frame : CvmFrame)
    (heap : Heap) : Prop where
  untouched : ∀ id, owner id = none → slots id = .int 0 ∧ frame.reg id = 0
  value : ∀ id, owner id = some (serial, .value) → frame.reg id = constReg host (slots id)
  cell : ∀ id, owner id = some (serial, .cell) →
    (frame.reg id ≠ 0 ∧ ¬outer (frame.reg id) ∧ memory.Live heap (frame.reg id)) ∧
      host.read heap (frame.reg id) = some (constReg host (slots id))
  distinct : ∀ id id', owner id = some (serial, .cell) → owner id' = some (serial, .cell) →
    frame.reg id = frame.reg id' → id = id'
  allocas : ∀ a ∈ frame.allocas, ¬outer a
  outer : ∀ a, outer a → memory.Live heap a

namespace Owners

variable {owner : Owners} {serial : Nat} {id other : MirValueId} {role : Role}

theorem mark_self (h : id ≠ 0) : owner.mark serial id role id = some (serial, role) := by
  rw [mark, update_self, if_neg h]

theorem mark_zero : owner.mark serial 0 role 0 = some (serial, .lost) := by
  rw [mark, update_self, if_pos rfl]

theorem mark_of_ne (h : other ≠ id) : owner.mark serial id role other = owner other :=
  update_of_ne h ..

theorem mark_eq_some {k : Nat} {r : Role} (h : owner.mark serial id role other = some (k, r)) :
    (other = id ∧ k = serial ∧ (r = .lost ∨ (id ≠ 0 ∧ r = role))) ∨
      (other ≠ id ∧ owner other = some (k, r)) := by
  by_cases hEq : other = id
  · subst hEq
    refine .inl ⟨rfl, ?_⟩
    by_cases hZero : other = 0
    · subst hZero
      rw [mark_zero] at h
      cases h
      exact ⟨rfl, .inl rfl⟩
    · rw [mark_self hZero] at h
      cases h
      exact ⟨rfl, .inr ⟨hZero, rfl⟩⟩
  · rw [mark_of_ne hEq] at h
    exact .inr ⟨hEq, h⟩

theorem mark_eq_none (h : owner.mark serial id role other = none) :
    other ≠ id ∧ owner other = none := by
  by_cases hEq : other = id
  · subst hEq
    rw [mark, update_self] at h
    cases h
  · rw [mark_of_ne hEq] at h
    exact ⟨hEq, h⟩

end Owners

variable {value v : MirConstValue} {op : BinaryOp}

namespace Agrees

variable {memory : HostMemory host} {outer : CvmReg → Prop} {slots : MirValueId → MirConstValue}
  {owner : Owners} {serial : Nat} {frame frame' : CvmFrame} {heap : Heap} {id : MirValueId}

section

variable (h : Agrees memory outer slots owner serial frame heap)
include h

theorem reg_eq (hOwner : owner id = none ∨ owner id = some (serial, .value)) :
    frame.reg id = constReg host (slots id) := by
  rcases hOwner with hNone | hValue
  · obtain ⟨hSlot, hReg⟩ := h.untouched id hNone
    rw [hSlot, hReg]
    rfl
  · exact h.value id hValue

theorem update {role : Role} (hReg : ∀ other, other ≠ id → frame'.reg other = frame.reg other)
    (hAllocas : frame'.allocas = frame.allocas) (hRole : role ≠ .cell)
    (hValue : id ≠ 0 → role = .value → frame'.reg id = constReg host value) :
    Agrees memory outer (update slots id value) (owner.mark serial id role) serial frame'
      heap := by
  have hCell : ∀ other, owner.mark serial id role other = some (serial, .cell) →
      other ≠ id ∧ owner other = some (serial, .cell) := by
    intro other hOther
    rcases Owners.mark_eq_some hOther with ⟨_, _, hLost | ⟨_, hIs⟩⟩ | hOld
    · cases hLost
    · exact absurd hIs.symm hRole
    · exact hOld
  constructor
  · intro other hOther
    obtain ⟨hNe, hNone⟩ := Owners.mark_eq_none hOther
    rw [update_of_ne hNe, hReg other hNe]
    exact h.untouched other hNone
  · intro other hOther
    rcases Owners.mark_eq_some hOther with ⟨rfl, _, hLost | ⟨hNe, hIs⟩⟩ | ⟨hNe, hOld⟩
    · cases hLost
    · rw [update_self]
      exact hValue hNe hIs.symm
    · rw [update_of_ne hNe, hReg other hNe]
      exact h.value other hOld
  · intro other hOther
    obtain ⟨hNe, hOld⟩ := hCell other hOther
    rw [update_of_ne hNe, hReg other hNe]
    exact h.cell other hOld
  · intro a b ha hb hEq
    obtain ⟨hNeA, hOldA⟩ := hCell a ha
    obtain ⟨hNeB, hOldB⟩ := hCell b hb
    rw [hReg a hNeA, hReg b hNeB] at hEq
    exact h.distinct a b hOldA hOldB hEq
  · rw [hAllocas]
    exact h.allocas
  · exact h.outer

theorem lose (hReg : ∀ other, other ≠ id → frame'.reg other = frame.reg other)
    (hAllocas : frame'.allocas = frame.allocas) :
    Agrees memory outer slots (owner.mark serial id .lost) serial frame' heap := by
  have hUpdate : Agrees memory outer (Function.update slots id (slots id))
      (owner.mark serial id .lost) serial frame' heap :=
    h.update hReg hAllocas nofun fun _ hNot => nomatch hNot
  rwa [update_eq_self] at hUpdate

theorem alloc {heap' : Heap} {a : CvmReg}
    {bytes : Nat} (hBytes : 8 ≤ bytes) (hCalloc : host.calloc heap bytes = some (a, heap'))
    (hReg : ∀ other, other ≠ id → frame'.reg other = frame.reg other)
    (hSelf : id ≠ 0 → frame'.reg id = a) (hAllocas : frame'.allocas = frame.allocas ++ [a]) :
    Agrees memory outer (Function.update slots id (.int 0)) (owner.mark serial id .cell) serial
      frame' heap' := by
  obtain ⟨⟨hNe, hFresh, hLive, hRead⟩, hOld⟩ := memory.calloc hBytes hCalloc
  have hOuter : ¬outer a := fun hMem => hFresh (h.outer a hMem)
  have hCell : ∀ other, owner.mark serial id .cell other = some (serial, .cell) →
      (other = id ∧ id ≠ 0 ∧ frame'.reg other = a) ∨
        (other ≠ id ∧ owner other = some (serial, .cell) ∧
          frame'.reg other = frame.reg other ∧
          frame.reg other ≠ a) := by
    intro other hOther
    rcases Owners.mark_eq_some hOther with ⟨rfl, _, hLost | ⟨hNe, _⟩⟩ | ⟨hNe, hOwner⟩
    · cases hLost
    · exact .inl ⟨rfl, hNe, hSelf hNe⟩
    · refine .inr ⟨hNe, hOwner, hReg other hNe, fun hEq => hFresh ?_⟩
      rw [← hEq]
      exact (h.cell other hOwner).1.2.2
  constructor
  · intro other hOther
    obtain ⟨hNe, hNone⟩ := Owners.mark_eq_none hOther
    rw [update_of_ne hNe, hReg other hNe]
    exact h.untouched other hNone
  · intro other hOther
    rcases Owners.mark_eq_some hOther with ⟨_, _, hLost | ⟨_, hIs⟩⟩ | ⟨hNe, hValue⟩
    · cases hLost
    · cases hIs
    · rw [update_of_ne hNe, hReg other hNe]
      exact h.value other hValue
  · intro other hOther
    rcases hCell other hOther with ⟨rfl, _, hEq⟩ | ⟨hNe, hOwner, hSame, _⟩
    · rw [hEq, update_self]
      exact ⟨⟨hNe, hOuter, hLive⟩, hRead⟩
    · obtain ⟨⟨hNonzero, hNotOuter, hWasLive⟩, hWas⟩ := h.cell other hOwner
      obtain ⟨hStillLive, hSameRead⟩ := hOld _ hWasLive
      rw [hSame, update_of_ne hNe]
      exact ⟨⟨hNonzero, hNotOuter, hStillLive⟩, hSameRead.trans hWas⟩
  · intro x y hx hy hEq
    rcases hCell x hx with ⟨rfl, _, hIsX⟩ | ⟨_, hOwnX, hSameX, hNeX⟩
    · rcases hCell y hy with ⟨rfl, _, _⟩ | ⟨_, _, hSameY, hNeY⟩
      · rfl
      · exact absurd (hSameY.symm.trans (hEq.symm.trans hIsX)) hNeY
    · rcases hCell y hy with ⟨rfl, _, hIsY⟩ | ⟨_, hOwnY, hSameY, _⟩
      · exact absurd (hSameX.symm.trans (hEq.trans hIsY)) hNeX
      · exact h.distinct x y hOwnX hOwnY (hSameX.symm.trans (hEq.trans hSameY))
  · intro b hb
    rw [hAllocas, List.mem_append, List.mem_singleton] at hb
    rcases hb with hb | rfl
    · exact h.allocas b hb
    · exact hOuter
  · exact fun b hb => (hOld b (h.outer b hb)).1

theorem store {heap' : Heap} (hOwner : owner id = some (serial, .cell))
    (hWrite : host.write heap (frame.reg id) (constReg host value) = some heap') :
    Agrees memory outer (Function.update slots id value) owner serial frame heap' ∧
      Kept memory outer heap heap' := by
  obtain ⟨⟨hNonzero, hNotOuter, hLive⟩, _⟩ := h.cell id hOwner
  obtain ⟨written, hEq, hStill, hRead, hOthers⟩ := memory.write (constReg host value) hLive
  rw [hWrite] at hEq
  cases hEq
  refine ⟨⟨?_, ?_, ?_, h.distinct, h.allocas, ?_⟩, ?_⟩
  · intro other hNone
    have hNe : other ≠ id := by
      rintro rfl
      rw [hOwner] at hNone
      cases hNone
    rw [update_of_ne hNe]
    exact h.untouched other hNone
  · intro other hValue
    have hNe : other ≠ id := by
      rintro rfl
      rw [hOwner] at hValue
      cases hValue
    rw [update_of_ne hNe]
    exact h.value other hValue
  · intro other hCell
    by_cases hEq : other = id
    · subst hEq
      rw [update_self]
      exact ⟨⟨hNonzero, hNotOuter, hStill⟩, hRead⟩
    · obtain ⟨⟨hNe, hFar, hWasLive⟩, hWas⟩ := h.cell other hCell
      have hApart : frame.reg other ≠ frame.reg id := fun hSame =>
        hEq (h.distinct other id hCell hOwner hSame)
      obtain ⟨hStillLive, hSameRead⟩ := hOthers _ hWasLive hApart
      rw [update_of_ne hEq]
      exact ⟨⟨hNe, hFar, hStillLive⟩, hSameRead.trans hWas⟩
  · exact fun a ha => (hOthers a (h.outer a ha) fun hSame => hNotOuter (hSame ▸ ha)).1
  · exact fun a ha => hOthers a (h.outer a ha) fun hSame => hNotOuter (hSame ▸ ha)

end

end Agrees

/-- The integer operations of the evaluator. -/
def integerOps : List BinaryOp := [.add, .sub, .mul, .div, .mod, .band, .bor, .bxor, .shl, .shr]

/-- A quotient or a remainder that the evaluator has is the guarded one. -/
theorem cvmBinary_intArithmetic {l r w : Word} (hOp : op ∈ integerOps)
    (h : intArithmetic op l r = .ok (some w)) : cvmBinary host op l r = w := by
  cases op with
  | div | mod =>
    simp only [intArithmetic] at h
    split at h
    · cases h
    · next hZero =>
        split at h
        · cases h
        · next hOver =>
            cases h
            simp only [cvmBinary, cvmSafeDivI64, cvmSafeModI64, if_neg hZero, if_neg hOver]
  | add | sub | mul | band | bor | bxor | shl | shr =>
    cases h
    rfl
  | _ => simp [integerOps] at hOp

private theorem int_of_map {result : Except String (Option Word)}
    (h : result.map (fun word => word.map MirConstValue.int) = .ok (some v)) :
    ∃ w, result = .ok (some w) ∧ v = .int w := by
  cases result with
  | error message => cases h
  | ok word =>
    cases word with
    | none => cases h
    | some w =>
      cases h
      exact ⟨w, rfl, rfl⟩

/-- Where the evaluator has a value for a binary operation the machine computes it. -/
theorem cvmBinary_constReg {l r : MirConstValue} (h : binaryValue host op l r = .ok (some v)) :
    cvmBinary host op (constReg host l) (constReg host r) = constReg host v := by
  cases op with
  | add | sub | mul | div | mod | band | bor | bxor | shl | shr =>
    cases l with
    | int x =>
      cases r with
      | int y =>
        simp only [binaryValue] at h
        obtain ⟨w, hWord, rfl⟩ := int_of_map h
        exact cvmBinary_intArithmetic (by simp [integerOps]) hWord
      | _ => cases h
    | _ => cases h
  | fadd | fsub | fmul | fdiv | cmpEq | cmpNe | cmpLt | cmpLe | cmpGt | cmpGe =>
    cases l <;> cases r <;> cases h
    rfl
  | ushr | logicAnd | logicOr => cases h

/-- Where the evaluator has a value for a unary operation and the conversion is
the same, the machine computes it. -/
theorem gotoUnary_constReg {op : UnaryOp} {target : Option MirType} {x : MirConstValue}
    (h : unaryValue host castI64 op x = .ok v)
    (hSame : SameConversion host castI64 op target (constReg host x)) :
    gotoUnary host op target (constReg host x) = constReg host v := by
  cases op with
  | neg =>
    cases x <;> cases h
    rfl
  | fneg =>
    cases x <;> cases h
    rfl
  | logicNot =>
    cases x <;> cases h
    next b => cases b <;> rfl
  | sitofp =>
    cases x <;> cases h
    rfl
  | fptosi =>
    cases x <;> cases h
    exact hSame.symm
  | zext =>
    cases h
    rfl
  | sext =>
    cases h
    exact hSame
  | trunc =>
    cases h
    exact hSame
  | cast =>
    cases h
    unfold gotoUnary
    dsimp only
    split
    · exact hSame (.inl rfl)
    · exact hSame (.inr rfl)
    · rfl
  | bnot => cases h
  | bitcast => cases h

/-- What an instruction leaves as it was, and how slots and registers agree after it. -/
structure Goes (memory : HostMemory host) (outer : CvmReg → Prop)
    (slots : MirValueId → MirConstValue) (owner : Owners) (serial : Nat)
    (frame : CvmFrame) (vm : CvmState Heap) (frame' : CvmFrame) (vm' : CvmState Heap) : Prop where
  func : frame'.func = frame.func
  block : frame'.block = frame.block
  rest : frame'.rest = frame.rest
  trapCode : vm'.trapCode = 0
  module : vm'.module = vm.module
  agrees : Agrees memory outer slots owner serial frame' vm'.heap
  kept : Kept memory outer vm.heap vm'.heap

/-- The instruction allocates a cell and there is no memory for it. -/
def AllocFails (host : CvmHost Heap) (inst : MirInst) (vm : CvmState Heap) : Prop :=
  ∃ allocType count, inst.op = .alloca allocType count ∧
    host.calloc vm.heap ((if 0 < count then count.toNat else 1) * 8) = none

section

variable {memory : HostMemory host} {outer : CvmReg → Prop} {ce ce' : MirConstEval}
  {slots : MirValueId → MirConstValue} {owner : Owners} {serial : Nat} {func : MirFunction}
  {frame : CvmFrame} {vm : CvmState Heap} {inst : MirInst} {id : MirValueId} {v : CvmReg}

theorem touch_eq_self {ids : List MirValueId} (h : ∀ id ∈ ids, id < cvmRegCount frame.func) :
    touch frame ids vm = vm := by
  have hNone : ids.any frame.outside = false := by
    rw [List.any_eq_false]
    intro id hMem hOut
    have hIn := h id hMem
    simp only [CvmFrame.outside, Bool.and_eq_true, decide_eq_true_eq] at hOut
    exact absurd hIn (Nat.not_lt.mpr hOut.2)
  rw [touch, hNone, if_neg Bool.false_ne_true]

variable (frame v vm) in
theorem cvmRegSet_of_lt (hId : id < cvmRegCount frame.func) :
    ∃ regs, cvmRegSet frame id v vm = ({ frame with regs := regs }, vm) ∧
      ({ frame with regs := regs } : CvmFrame).reg =
        if id = 0 then frame.reg else update frame.reg id v := by
  rcases cvmRegSet_cases frame id v vm with ⟨hOut, _⟩ | hSet
  · simp only [CvmFrame.outside, Bool.and_eq_true, decide_eq_true_eq] at hOut
    exact absurd hId (Nat.not_lt.mpr hOut.2)
  · exact hSet

theorem Kept.refl (h : Agrees memory outer slots owner serial frame vm.heap) :
    Kept memory outer vm.heap vm.heap :=
  fun a ha => ⟨h.outer a ha, rfl⟩

section

variable (h : Agrees memory outer slots owner serial frame vm.heap) (hTrap : vm.trapCode = 0)
  (hId : id < cvmRegCount frame.func)
include h hTrap hId

theorem setNext_goes (hValue : v = constReg host value) :
    ∃ frame' vm', setNext frame id v vm = .next frame' vm' ∧
      Goes memory outer (update slots id value) (owner.mark serial id .value) serial
        frame vm frame' vm' := by
  obtain ⟨regs, hSet, hReg⟩ := cvmRegSet_of_lt frame vm v hId
  refine ⟨{ frame with regs := regs }, vm, by rw [setNext, hSet], rfl, rfl, rfl, hTrap, rfl, ?_,
    Kept.refl h⟩
  refine h.update ?_ rfl nofun ?_
  · intro other hNe
    rw [hReg]
    split
    · rfl
    · exact update_of_ne hNe ..
  · intro hNe _
    rw [hReg, if_neg hNe, update_self, hValue]

theorem allocNext_goes {bytes : Nat}
    (hBytes : 8 ≤ bytes) (hMemory : host.calloc vm.heap bytes ≠ none) :
    ∃ frame' vm', allocNext host frame id bytes true vm = .next frame' vm' ∧
      Goes memory outer (Function.update slots id (.int 0)) (owner.mark serial id .cell) serial
        frame vm frame' vm' := by
  obtain ⟨⟨mem, heap⟩, hCalloc⟩ := Option.ne_none_iff_exists'.mp hMemory
  let tracked : CvmFrame := { frame with allocas := frame.allocas ++ [mem] }
  obtain ⟨regs, hSet, hReg⟩ :=
    cvmRegSet_of_lt tracked { vm with heap := heap } mem hId
  refine ⟨{ tracked with regs := regs }, { vm with heap := heap }, ?_, rfl, rfl, rfl, hTrap, rfl,
    ?_, ?_⟩
  · rw [allocNext, hCalloc]
    simp only [if_true, setNext]
    rw [hSet]
  · refine h.alloc hBytes hCalloc ?_ ?_ rfl
    · intro other hNe
      rw [hReg]
      split
      · rfl
      · exact update_of_ne hNe ..
    · intro hNe
      rw [hReg, if_neg hNe, update_self]
  · intro a ha
    exact (memory.calloc hBytes hCalloc).2 a (h.outer a ha)

theorem move_goes {source : MirValueId}
    (hSource : source < cvmRegCount frame.func) (hValue : v = constReg host value) :
    Goes memory outer (update slots id value)
      (if source = 0 then owner.mark serial id .value
        else (owner.mark serial id .value).mark serial source .lost) serial frame vm
      (clearMoved (cvmRegSet frame id v vm).1 source) (cvmRegSet frame id v vm).2 := by
  obtain ⟨frame', vm', hNext, hGoes⟩ := setNext_goes h hTrap hId hValue
  cases hNext
  by_cases hZero : source = 0
  · rw [if_pos hZero, clearMoved, if_pos (.inl hZero)]
    exact hGoes
  · have hIn : ¬(source = 0 ∨ cvmRegCount (cvmRegSet frame id v vm).1.func ≤ source) := by
      rw [hGoes.func, not_or]
      exact ⟨hZero, Nat.not_le_of_lt hSource⟩
    rw [if_neg hZero, clearMoved, if_neg hIn]
    refine ⟨hGoes.func, hGoes.block, hGoes.rest, hGoes.trapCode, hGoes.module, ?_, hGoes.kept⟩
    refine hGoes.agrees.lose ?_ rfl
    intro other hNe
    rw [reg_update, if_neg fun hAnd => hNe hAnd.1]

theorem load_goes {ptr : MirValueId} (hCell : owner ptr = some (serial, .cell)) :
    frame.reg ptr ≠ 0 ∧ ∃ frame' vm',
      loadNext host frame id (frame.reg ptr) vm = .next frame' vm' ∧
      Goes memory outer (update slots id (slots ptr)) (owner.mark serial id .value) serial
        frame vm frame' vm' := by
  obtain ⟨⟨hNonzero, _, _⟩, hRead⟩ := h.cell ptr hCell
  refine ⟨hNonzero, ?_⟩
  rw [loadNext, hRead]
  exact setNext_goes h hTrap hId rfl

end

/-- A cell of the call is written. -/
theorem store_goes (h : Agrees memory outer slots owner serial frame vm.heap)
    (hTrap : vm.trapCode = 0) {ptr value : MirValueId} (hCell : owner ptr = some (serial, .cell))
    (hValue : frame.reg value = constReg host (slots value)) :
    ∃ frame' vm', storeNext host frame ptr value vm = .next frame' vm' ∧
      Goes memory outer (update slots ptr (slots value)) owner serial frame vm frame' vm' := by
  obtain ⟨⟨hNonzero, _, hLive⟩, _⟩ := h.cell ptr hCell
  obtain ⟨heap, hWrite, _⟩ := memory.write (constReg host (slots value)) hLive
  obtain ⟨hAgrees, hKept⟩ := h.store hCell hWrite
  rw [storeNext, if_neg hNonzero, hValue, hWrite]
  exact ⟨_, _, rfl, rfl, rfl, rfl, hTrap, rfl, hAgrees, hKept⟩

theorem mem_readIds_binary {lhs rhs : MirValueId} {trapCode : Nat}
    (h : id ∈ frame.readIds trapCode (.binary op lhs rhs)) : id = lhs ∨ id = rhs := by
  cases op with
  | logicAnd | logicOr =>
    simp only [CvmFrame.readIds] at h
    split at h <;> simp at h <;> tauto
  | _ => simpa [CvmFrame.readIds] using h

/-- What a successful instruction of the evaluator does, the machine does. -/
theorem execGoto_goes (h : Agrees memory outer ce.slots owner serial frame vm.heap)
    (hTrap : vm.trapCode = 0) (hFunc : frame.func = func)
    (hOk : Visit.Ok host castI64 ⟨ce.module, func, serial, owner, ce.slots, inst⟩)
    (hStep : mirConstevalStep host castI64 ce inst = some (ce', true))
    (hMemory : ¬AllocFails host inst vm) :
    ∃ frame' vm', execGoto host frame inst vm = .next frame' vm' ∧
      Goes memory outer ce'.slots (owner.after serial inst) serial frame vm frame' vm' := by
  subst hFunc
  unfold mirConstevalStep at hStep
  dsimp only at hStep
  split at hStep
  · cases hStep
  · cases hOp : inst.op with
    | constInt imm | constFloat imm | constBool imm | constString imm | constNull =>
      simp only [Visit.Ok, hOp, Visit.Writes] at hOk
      rw [hOp] at hStep
      cases hStep
      simp only [execGoto, hOp, CvmFrame.readIds, Owners.after]
      rw [touch_eq_self (by simp)]
      exact setNext_goes h hTrap hOk rfl
    | binary op lhs rhs =>
      simp only [Visit.Ok, hOp, Visit.Reads, Visit.Writes] at hOk
      obtain ⟨⟨hLhs, hOwnL⟩, ⟨hRhs, hOwnR⟩, hId⟩ := hOk
      simp only [hOp] at hStep
      split at hStep
      · next value hValue =>
          cases hStep
          have hIds : ∀ id ∈ frame.readIds vm.trapCode (.binary op lhs rhs),
              id < cvmRegCount frame.func := by
            intro id hMem
            rcases mem_readIds_binary hMem with rfl | rfl
            · exact hLhs
            · exact hRhs
          simp only [execGoto, hOp, Owners.after]
          rw [touch_eq_self hIds, h.reg_eq hOwnL, h.reg_eq hOwnR]
          exact setNext_goes h hTrap hId (cvmBinary_constReg hValue)
      · cases hStep
      · cases hStep
    | unary op operand target =>
      simp only [Visit.Ok, hOp, Visit.Reads, Visit.Writes] at hOk
      obtain ⟨⟨hOperand, hOwn⟩, hId, hSame⟩ := hOk
      simp only [hOp] at hStep
      split at hStep
      · next value hValue =>
          cases hStep
          simp only [execGoto, hOp, CvmFrame.readIds, Owners.after]
          rw [touch_eq_self (by simpa using hOperand), h.reg_eq hOwn]
          exact setNext_goes h hTrap hId (gotoUnary_constReg hValue hSame)
      · cases hStep
    | alloca allocType count =>
      simp only [Visit.Ok, hOp, Visit.Writes] at hOk
      rw [hOp] at hStep
      cases hStep
      have hBytes : 8 ≤ (if 0 < count then count.toNat else 1) * 8 := by
        split <;> omega
      simp only [execGoto, hOp, CvmFrame.readIds, Owners.after]
      rw [touch_eq_self (by simp)]
      exact allocNext_goes h hTrap hOk hBytes fun hNone =>
        hMemory ⟨allocType, count, hOp, hNone⟩
    | load ptr =>
      simp only [Visit.Ok, hOp, Visit.ReadsCell, Visit.Writes] at hOk
      obtain ⟨⟨hPtr, hCell⟩, hId⟩ := hOk
      rw [hOp] at hStep
      cases hStep
      obtain ⟨hNonzero, hLoad⟩ := load_goes h hTrap hId hCell
      simp only [execGoto, hOp, CvmFrame.readIds, Owners.after]
      rw [touch_eq_self (by simpa using hPtr), if_neg hNonzero]
      exact hLoad
    | store ptr value =>
      simp only [Visit.Ok, hOp, Visit.ReadsCell, Visit.Reads] at hOk
      obtain ⟨⟨hPtr, hCell⟩, hId, hOwn⟩ := hOk
      rw [hOp] at hStep
      cases hStep
      have hIds : ∀ id ∈ frame.readIds vm.trapCode (.store ptr value),
          id < cvmRegCount frame.func := by
        intro id hMem
        have hBoth : id = ptr ∨ id = value := by
          simp only [CvmFrame.readIds] at hMem
          split at hMem <;> simp at hMem <;> tauto
        rcases hBoth with rfl | rfl
        · exact hPtr
        · exact hId
      simp only [execGoto, hOp, Owners.after]
      rw [touch_eq_self hIds]
      exact store_goes h hTrap hCell (h.reg_eq hOwn)
    | transfer op source =>
      simp only [Visit.Ok, hOp, Visit.Reads, Visit.Writes] at hOk
      obtain ⟨⟨hSource, hOwn⟩, hId⟩ := hOk
      rw [hOp] at hStep
      cases op with
      | copy =>
        cases hStep
        simp only [execGoto, hOp, CvmFrame.readIds, Owners.after]
        rw [touch_eq_self (by simpa using hSource)]
        exact setNext_goes h hTrap hId (h.reg_eq hOwn)
      | move =>
        cases hStep
        simp only [execGoto, hOp, CvmFrame.readIds, Owners.after]
        rw [touch_eq_self (by simpa using hSource)]
        exact ⟨_, _, rfl, move_goes h hTrap hId hSource (h.reg_eq hOwn)⟩
      | borrow | borrowMut => cases hStep
    | nop | debugLoc =>
      rw [hOp] at hStep
      cases hStep
      simp only [execGoto, hOp, CvmFrame.readIds, Owners.after]
      rw [touch_eq_self (by simp)]
      exact ⟨frame, vm, rfl, rfl, rfl, rfl, hTrap, rfl, h, Kept.refl h⟩
    | _ =>
      rw [hOp] at hStep
      cases hStep

end

end Casprix.Consteval
