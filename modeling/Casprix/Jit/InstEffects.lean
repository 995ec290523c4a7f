import Casprix.Jit.Effects
import Casprix.Jit.LastByte

/-! What the code of each instruction leaves as it was. Besides the scratch registers it writes the
home of its result only, but a division may use `r10`, and a call what the callee need not save. -/
namespace Casprix.Jit

open List Mir

variable {a : JitRegAlloc} {arith : Arithmetic}
  {callee : Machine → Machine} {written : Reg → Prop}
  {code : List Insn} {id lhs rhs r : MirValueId} {x dst src scratch : Reg}

/-- The register is not one of the stack. -/
def Plain (x : Reg) : Prop := x ≠ .rsp ∧ x ≠ .rbp

instance (x : Reg) : Decidable (Plain x) := inferInstanceAs (Decidable (_ ∧ _))

theorem homeReg_mem_pool (hHoused : Housed a) (h : jraHomeReg a id = some x) : x ∈ allocPool := by
  unfold jraHomeReg at h
  split at h
  · exact hHoused.pool id x h
  · cases h

theorem plain_of_mem_pool (h : x ∈ allocPool) : Plain x := by
  have hAll : ∀ x ∈ allocPool, Plain x := by decide
  exact hAll x h

theorem resultReg_cases (a : JitRegAlloc) (id : MirValueId) (scratch : Reg) :
    jraHomeReg a id = some (jraResultReg a id scratch) ∨
      jraHomeReg a id = none ∧ jraResultReg a id scratch = scratch := by
  rw [resultReg_eq]
  cases jraHomeReg a id with
  | none => exact .inr ⟨rfl, rfl⟩
  | some x => exact .inl rfl

theorem plain_resultReg (hHoused : Housed a) (hScratch : Plain scratch) :
    Plain (jraResultReg a id scratch) := by
  rcases resultReg_cases a id scratch with hHome | ⟨_, hSame⟩
  · exact plain_of_mem_pool (homeReg_mem_pool hHoused hHome)
  · rw [hSame]
    exact hScratch

section

section

variable {insn : Insn}
  (hKind : insn.quiet = decide (Reg.rsp ∉ insn.dests ∧ Reg.rbp ∉ insn.dests))
include hKind

theorem effect_insn
    (hPlain : ∀ x ∈ insn.dests, Plain x) (hWritten : ∀ x ∈ insn.dests, written x) :
    Effect arith callee written 0 [insn] := by
  refine effect_quiet ?_ fun i hi => ?_
  · rw [all_cons, all_nil, Bool.and_true, hKind]
    exact decide_eq_true ⟨fun hMem => (hPlain _ hMem).1 rfl, fun hMem => (hPlain _ hMem).2 rfl⟩
  · rw [mem_singleton.mp hi]
    exact hWritten

theorem effect_dst (hDests : insn.dests = [dst]) (hPlain : Plain dst) (hWritten : written dst) :
    Effect arith callee written 0 [insn] := by
  refine effect_insn hKind ?_ ?_ <;> rw [hDests, forall_mem_singleton]
  · exact hPlain
  · exact hWritten

end

theorem effect_moveInto (hPlain : Plain dst) (hWritten : written dst) :
    Effect arith callee written 0 (moveInto dst src) := by
  unfold moveInto
  split
  · exact effect_dst rfl rfl hPlain hWritten
  · exact effect_nil

/-- Loading an operand writes the scratch register, if the operand is not in a register. -/
theorem effect_load (hPlain : Plain scratch)
    (hWritten : jraHomeReg a id = none → written scratch) :
    Effect arith callee written 0 (jraLoadOperand a id scratch).1 := by
  unfold jraHomeReg at hWritten
  unfold jraLoadOperand
  split
  · next hValue =>
      rw [if_pos hValue] at hWritten
      cases hReg : (a.v id).reg with
      | some hr => exact effect_nil
      | none => exact effect_dst rfl rfl hPlain (hWritten hReg)
  · next hValue =>
      rw [if_neg hValue] at hWritten
      exact effect_dst rfl rfl hPlain (hWritten rfl)

end

section

theorem written_resultReg (hScratch : written scratch)
    (hHome : ∀ x, jraHomeReg a r = some x → written x) :
    written (jraResultReg a r scratch) := by
  rcases resultReg_cases a r scratch with hReg | ⟨_, hSame⟩
  · exact hHome _ hReg
  · rw [hSame]
    exact hScratch

variable (hHoused : Housed a) (hRax : written .rax) (hR11 : written .r11)
  (hHome : ∀ x, jraHomeReg a r = some x → written x)

include hHoused hRax hHome in
theorem effect_const (imm : Word) :
    Effect arith callee written 0 [.movRImm64 (jraResultReg a r .rax) imm] :=
  effect_dst rfl rfl (plain_resultReg hHoused (by decide)) (written_resultReg hRax hHome)

include hHoused hRax hHome in
theorem effect_result (hCode : Effect arith callee written 0 code) :
    Effect arith callee written 0 (code ++ moveInto (jraResultReg a r .rax) src) :=
  hCode.then (effect_moveInto (plain_resultReg hHoused (by decide)) (written_resultReg hRax hHome))

include hRax hR11 in
theorem effect_loads : Effect arith callee written 0
    ((jraLoadOperand a lhs .rax).1 ++ (jraLoadOperand a rhs .r11).1) :=
  (effect_load (by decide) fun _ => hRax).then (effect_load (by decide) fun _ => hR11)

include hHoused hRax hR11 hHome in
theorem effect_compute (op : AluOp) (ls rs : Reg) : Effect arith callee written 0
    (if jraResultReg a r .rax = rs ∧ jraResultReg a r .rax ≠ ls then
      [Insn.movRR (if Reg.rax = rs then Reg.r11 else .rax) ls,
        .alu op (if Reg.rax = rs then Reg.r11 else .rax) rs] ++
          moveInto (jraResultReg a r .rax) (if Reg.rax = rs then Reg.r11 else .rax)
    else moveInto (jraResultReg a r .rax) ls ++ [.alu op (jraResultReg a r .rax) rs]) := by
  have hDst : Plain (jraResultReg a r .rax) := plain_resultReg hHoused (by decide)
  have hWritten := written_resultReg hRax hHome
  have hTmp : Plain (if Reg.rax = rs then Reg.r11 else .rax) ∧
      written (if Reg.rax = rs then Reg.r11 else .rax) := by
    split
    · exact ⟨by decide, hR11⟩
    · exact ⟨by decide, hRax⟩
  split
  · have hMove : Effect arith callee written 0
        [.movRR (if Reg.rax = rs then Reg.r11 else .rax) ls] :=
      effect_dst rfl rfl hTmp.1 hTmp.2
    have hAlu : Effect arith callee written 0
        [.alu op (if Reg.rax = rs then Reg.r11 else .rax) rs] :=
      effect_dst rfl rfl hTmp.1 hTmp.2
    exact (hMove.then hAlu).then (effect_moveInto hDst hWritten)
  · exact (effect_moveInto hDst hWritten).then (effect_dst rfl rfl hDst hWritten)

/-- The division uses `r10`: for the dividend, or for the result. -/
def divScratch (a : JitRegAlloc) (lhs r : MirValueId) : Bool :=
  jraHomeReg a lhs = none ∨ jraHomeReg a r = none ∨ jraHomeReg a r = some .rdx

/-- Everything of a division before `rdx` is popped. -/
def divisionBody (a : JitRegAlloc) (result : Reg) (lhs rhs r : MirValueId) : List Insn :=
  let (loadLhs, ls) := jraLoadOperand a lhs .r10
  let (loadRhs, rs) := jraLoadOperand a rhs .r11
  let (saveDivisor, divisor) :=
    if rs = .rax ∨ rs = .rdx then ([Insn.movRR .r11 rs], Reg.r11) else ([], rs)
  loadLhs ++ loadRhs ++ saveDivisor ++ [.movRR .rax ls, .cqo, .idiv divisor] ++
    moveInto (jraResultReg a r .r10) result

theorem emitDivision_eq (a : JitRegAlloc) (result : Reg) (lhs rhs r : MirValueId) :
    emitDivision a result lhs rhs r =
      (if jraResultReg a r .r10 = .rdx then
        ([.push .rdx] ++ (divisionBody a result lhs rhs r ++ [.movRR .r10 .rdx]) ++ [.pop .rdx]) ++
          [.movRR .rdx .r10]
      else [.push .rdx] ++ divisionBody a result lhs rhs r ++ [.pop .rdx]) ++
        jraStoreResult a r (jraResultReg a r .r10) := by
  unfold emitDivision divisionBody
  dsimp only
  by_cases hDst : jraResultReg a r .r10 = .rdx
  · rw [if_pos hDst, if_pos hDst]
    simp only [append_assoc, cons_append, nil_append]
  · rw [if_neg hDst, if_neg hDst]
    simp only [append_assoc, cons_append, nil_append]

include hHoused hRax hR11 hHome in
theorem effect_division (hScratch : divScratch a lhs r = true → written .r10) (result : Reg) :
    ∃ core, emitDivision a result lhs rhs r =
      core ++ jraStoreResult a r (jraResultReg a r .r10) ∧
      Effect arith callee written 0 core := by
  have hLhs : jraHomeReg a lhs = none → written .r10 := fun hNone =>
    hScratch (decide_eq_true (.inl hNone))
  have hBody : Effect arith callee (fun x => written x ∨ x = .rdx) 0
      (divisionBody a result lhs rhs r) := by
    have hLoads : Effect arith callee (fun x => written x ∨ x = .rdx) 0
        ((jraLoadOperand a lhs .r10).1 ++ (jraLoadOperand a rhs .r11).1) :=
      (effect_load (by decide) fun hNone => .inl (hLhs hNone)).then
        (effect_load (by decide) fun _ => .inl hR11)
    have hDivide : ∀ (ls divisor : Reg), Effect arith callee (fun x => written x ∨ x = .rdx) 0
        [.movRR .rax ls, .cqo, .idiv divisor] := by
      intro ls divisor
      refine effect_quiet rfl fun insn hInsn x hx => ?_
      have hDests : x = .rax ∨ x = .rdx := by
        rcases mem_cons.mp hInsn with rfl | hInsn
        · exact .inl (mem_singleton.mp hx)
        · rcases mem_cons.mp hInsn with rfl | hInsn
          · exact .inr (mem_singleton.mp hx)
          · rw [mem_singleton.mp hInsn] at hx
            simpa [Insn.dests, Insn.computed] using hx
      rcases hDests with rfl | rfl
      · exact .inl hRax
      · exact .inr rfl
    have hDst : written (jraResultReg a r .r10) := by
      rcases resultReg_cases a r .r10 with hReg | ⟨hNone, hSame⟩
      · exact hHome _ hReg
      · rw [hSame]
        exact hScratch (decide_eq_true (.inr (.inl hNone)))
    have hMove : Effect arith callee (fun x => written x ∨ x = .rdx) 0
        (moveInto (jraResultReg a r .r10) result) :=
      effect_moveInto (plain_resultReg hHoused (by decide)) (.inl hDst)
    unfold divisionBody
    dsimp only
    split
    · exact ((hLoads.then (effect_dst rfl rfl (by decide) (.inl hR11))).then
        (hDivide _ _)).then hMove
    · exact ((hLoads.then effect_nil).then (hDivide _ _)).then hMove
  rw [emitDivision_eq]
  split
  · next hDst =>
      have hReg : jraHomeReg a r = some .rdx := (resultReg_eq_iff (by decide)).mp hDst
      have hR10 : written .r10 := hScratch (decide_eq_true (.inr (.inr hReg)))
      have hStash : Effect arith callee (fun x => written x ∨ x = .rdx) 0
          (divisionBody a result lhs rhs r ++ [.movRR .r10 .rdx]) :=
        hBody.then (effect_dst rfl rfl (by decide) (.inl hR10))
      have hKept : Effect arith callee written 0
          ([.push .rdx] ++ (divisionBody a result lhs rhs r ++
            [.movRR .r10 .rdx]) ++ [.pop .rdx]) :=
        (hStash.bracket (by decide) (by decide)).mono fun x hx => hx.1.resolve_right hx.2
      exact ⟨_, rfl, hKept.then (effect_dst rfl rfl (by decide) (hHome _ hReg))⟩
  · exact ⟨_, rfl, (hBody.bracket (by decide) (by decide)).mono fun x hx =>
      hx.1.resolve_right hx.2⟩

end

section

theorem effect_pushArgs (hWritten : written .rax) (args : List MirValueId) :
    Effect arith callee written (-8 * args.length) (args.flatMap (pushArg a)) := by
  induction args with
  | nil => exact effect_nil
  | cons arg rest ih =>
    have hArg : Effect arith callee written (-8) (pushArg a arg) :=
      (effect_load (by decide) fun _ => hWritten).then (effect_push _)
    have hBoth := hArg.append ih (by decide)
    have hDepth : -8 + -8 * (rest.length : Int) = -8 * ((arg :: rest).length : Int) := by
      rw [length_cons]
      omega
    rw [hDepth] at hBoth
    exact hBoth

/-- Marshalling the arguments writes registers only that a callee need not save. -/
theorem effect_marshalArgs (a : JitRegAlloc) (args : List MirValueId) :
    Effect arith callee (· ∉ calleeSaved) 0 (marshalArgs a args) := by
  have hRegs : ∀ r ∈ argRegs.take args.length ++ List.replicate (args.length - maxArg) .r10,
      Plain r ∧ r ∉ calleeSaved := by
    have hArgRegs : ∀ r ∈ argRegs, Plain r ∧ r ∉ calleeSaved := by decide
    intro r hr
    rcases mem_append.mp hr with hTake | hRest
    · exact hArgRegs r (mem_of_mem_take hTake)
    · rw [eq_of_mem_replicate hRest]
      decide
  have hPushes : Effect arith callee (· ∉ calleeSaved) (-8 * args.reverse.length)
      (args.reverse.flatMap (pushArg a)) := effect_pushArgs (by decide) args.reverse
  have hPops : Effect arith callee (· ∉ calleeSaved)
      (8 * (argRegs.take args.length ++ List.replicate (args.length - maxArg) Reg.r10).length)
      ((argRegs.take args.length ++ List.replicate (args.length - maxArg) Reg.r10).map .pop) :=
    effect_pops _ (fun r hr => (hRegs r hr).1) fun r hr => (hRegs r hr).2
  have hBalanced := hPushes.append hPops (by omega)
  have hDepth : -8 * (args.reverse.length : Int) +
      8 * (argRegs.take args.length ++ List.replicate (args.length - maxArg) Reg.r10).length =
        0 := by
    have hSix : argRegs.length = 6 := rfl
    have hMax : maxArg = 6 := rfl
    rw [length_reverse, length_append, length_take, length_replicate, hSix, hMax]
    omega
  rw [hDepth] at hBalanced
  have hPadded := hBalanced.padded args.length
  unfold marshalArgs
  split
  · rw [map_append, map_replicate] at hPadded
    simp only [append_assoc] at hPadded ⊢
    exact hPadded
  · exact effect_nil

theorem plain_of_mem_saved {linIdx : Int} (h : x ∈ savedRegs a linIdx) : Plain x := by
  have hAll : ∀ x ∈ callerSavedPool, Plain x := by decide
  exact hAll x (mem_filter.mp h).1

/-- A call keeps the registers that it saves and those that the callee saves, apart from the home of
the result. -/
theorem effect_call_code (hHoused : Housed a) (hCallee : ∀ m, Returns m (callee m)) {linIdx : Int}
    (hRax : written .rax) (hHome : ∀ x, jraHomeReg a r = some x → written x)
    (hLost : ∀ x, x ∉ calleeSaved → x ∉ savedRegs a linIdx → written x) (pos : Nat)
    (args : List MirValueId) :
    ∃ core rest, emitCall a linIdx pos args r = core ++ rest ∧
      Effect arith callee written 0 core ∧
      (rest = [] ∨ rest = jraStoreResult a r (jraResultReg a r .rax)) := by
  have hInner : Effect arith callee (· ∉ calleeSaved) 0 (marshalArgs a args ++
      [.call (0 - ((pos + (codeBytes (beforeCall a linIdx args)).length + 5 : Nat) : Int))]) :=
    (effect_marshalArgs a args).then (effect_call hCallee _)
  have hSaved := hInner.saved (savedRegs a linIdx) fun x hx => plain_of_mem_saved hx
  have hKept : Effect arith callee written 0 _ :=
    (hSaved.padded (savedRegs a linIdx).length).mono fun x hx => hLost x hx.1 hx.2
  unfold emitCall afterCall callResult
  by_cases hResult : r ≠ 0
  · rw [if_pos hResult]
    have hMoved : Effect arith callee written 0 (_ ++ moveInto (jraResultReg a r .rax) .rax) :=
      effect_result hHoused hRax hHome hKept
    refine ⟨_, _, ?_, hMoved, .inr rfl⟩
    unfold beforeCall
    simp only [append_assoc]
  · rw [if_neg hResult]
    refine ⟨_, [], ?_, hKept, .inl rfl⟩
    unfold beforeCall
    simp only [append_assoc, append_nil]

end

section

/-- The machine instructions of an instruction, the jumps of its branches left out. -/
def straightCode (a : JitRegAlloc) (linIdx : Int) (pos : Nat) (inst : MirInst) : List Insn :=
  (emitInst a linIdx pos inst).filterMap fun item =>
    match item with
    | .insn i => some i
    | _ => none

/-- The registers that an instruction may change: the scratch registers, the home of its result,
`r10` for some divisions, and for a call what neither it nor the callee saves. -/
def MayWrite (a : JitRegAlloc) (linIdx : Int) (inst : MirInst) (x : Reg) : Prop :=
  x = .rax ∨ x = .r11 ∨ jraHomeReg a inst.result = some x ∨
    match inst.op with
    | .binary .div lhs _ | .binary .mod lhs _ => x = .r10 ∧ divScratch a lhs inst.result = true
    | .call .. => x ∉ calleeSaved ∧ x ∉ savedRegs a linIdx
    | _ => False

theorem filterMap_insns (code : List Insn) : ((code.map Item.insn).filterMap fun item =>
    match item with
    | .insn i => some i
    | _ => none) = code := by
  induction code with
  | nil => rfl
  | cons insn rest ih => exact congrArg (insn :: ·) ih

/-- The code ends by storing the result, where it has one. -/
def Stores (a : JitRegAlloc) (arith : Arithmetic)
    (callee : Machine → Machine) (written : Reg → Prop)
    (r : MirValueId) (code : List Insn) : Prop :=
  ∃ core rest, code = core ++ rest ∧ Effect arith callee written 0 core ∧
    (rest = [] ∨ ∃ x, rest = jraStoreResult a r x)

theorem stores_of_effect (h : Effect arith callee written 0 code) :
    Stores a arith callee written r code :=
  ⟨code, [], (append_nil _).symm, h, .inl rfl⟩

theorem stores_result (h : Effect arith callee written 0 code) (x : Reg) :
    Stores a arith callee written r (code ++ jraStoreResult a r x) :=
  ⟨code, _, rfl, h, .inr ⟨x, rfl⟩⟩

theorem stores_nop : Stores a arith callee written r [.nop] :=
  stores_of_effect (effect_quiet rfl fun insn hInsn x hx => by
    rw [mem_singleton.mp hInsn] at hx
    cases hx)

/-- The code of an instruction that does not return writes these registers only, and perhaps the
slot of its result. -/
theorem emitPlain_stores (hHoused : Housed a)
    (hCallee : ∀ m, Returns m (callee m)) {inst : MirInst}
    (hStay : isReturn inst.op = false) (linIdx : Int) (pos : Nat) :
    Stores a arith callee (MayWrite a linIdx inst) inst.result (emitPlain a linIdx pos inst) := by
  have hRax : MayWrite a linIdx inst .rax := .inl rfl
  have hR11 : MayWrite a linIdx inst .r11 := .inr (.inl rfl)
  have hHome : ∀ x, jraHomeReg a inst.result = some x → MayWrite a linIdx inst x :=
    fun x hx => .inr (.inr (.inl hx))
  have hAlu : ∀ op lhs rhs, Stores a arith callee (MayWrite a linIdx inst) inst.result
      (emitAlu a op lhs rhs inst.result) := fun op lhs rhs =>
    stores_result ((effect_loads hRax hR11).then (effect_compute hHoused hRax hR11 hHome op _ _)) _
  have hCompare : ∀ cond lhs rhs, Stores a arith callee (MayWrite a linIdx inst) inst.result
      (emitCompare a cond lhs rhs inst.result) := by
    intro cond lhs rhs
    have hSet : ∀ ls rs, Effect arith callee (MayWrite a linIdx inst) 0
        [.cmp ls rs, .setccAl cond, .movzxRaxAl] := by
      intro ls rs
      refine effect_quiet rfl fun insn hInsn x hx => ?_
      rcases mem_cons.mp hInsn with rfl | hInsn
      · cases hx
      · rcases mem_cons.mp hInsn with rfl | hInsn
        · rw [mem_singleton.mp hx]
          exact hRax
        · rw [mem_singleton.mp hInsn] at hx
          rw [mem_singleton.mp hx]
          exact hRax
    exact stores_result (effect_result hHoused hRax hHome
      ((effect_loads hRax hR11).then (hSet _ _))) _
  unfold emitPlain
  cases hOp : inst.op with
  | constInt imm => exact stores_result (effect_const hHoused hRax hHome imm) _
  | constBool imm => exact stores_result (effect_const hHoused hRax hHome _) _
  | binary op lhs rhs =>
    have hDivision : op = .div ∨ op = .mod → divScratch a lhs inst.result = true →
        MayWrite a linIdx inst .r10 := by
      intro hKind hScratch
      unfold MayWrite
      rw [hOp]
      rcases hKind with rfl | rfl
      · exact .inr (.inr (.inr ⟨rfl, hScratch⟩))
      · exact .inr (.inr (.inr ⟨rfl, hScratch⟩))
    cases op with
    | add | sub | mul => exact hAlu ..
    | div =>
      obtain ⟨core, hCode, hEffect⟩ :=
        @effect_division a arith callee _ lhs rhs inst.result hHoused hRax hR11
        hHome (hDivision (.inl rfl)) .rax
      exact ⟨core, _, hCode, hEffect, .inr ⟨_, rfl⟩⟩
    | mod =>
      obtain ⟨core, hCode, hEffect⟩ :=
        @effect_division a arith callee _ lhs rhs inst.result hHoused hRax hR11
        hHome (hDivision (.inr rfl)) .rdx
      exact ⟨core, _, hCode, hEffect, .inr ⟨_, rfl⟩⟩
    | cmpLt | cmpLe | cmpEq | cmpNe | cmpGt | cmpGe => exact hCompare ..
    | _ => exact stores_nop
  | unary op operand targetType =>
    cases op with
    | neg =>
      have hLoad : Effect arith callee (MayWrite a linIdx inst) 0
          (jraLoadOperand a operand .rax).1 :=
        effect_load (by decide) fun _ => hRax
      have hNeg : Effect arith callee
          (MayWrite a linIdx inst) 0 [.neg (jraResultReg a inst.result .rax)] :=
        effect_dst rfl rfl (plain_resultReg hHoused (by decide)) (written_resultReg hRax hHome)
      exact stores_result ((effect_result hHoused hRax hHome hLoad).then hNeg) _
    | _ => exact stores_nop
  | transfer op source =>
    exact stores_result (effect_result hHoused hRax hHome (effect_load (by decide) fun _ => hRax)) _
  | ret _ | retVoid =>
    rw [hOp] at hStay
    cases hStay
  | call funcName args callee' =>
    have hLost : ∀ x, x ∉ calleeSaved → x ∉ savedRegs a linIdx →
        MayWrite a linIdx inst x := by
      intro x hx hNot
      unfold MayWrite
      rw [hOp]
      exact .inr (.inr (.inr ⟨hx, hNot⟩))
    obtain ⟨core, rest, hCode, hEffect, hRest⟩ :=
      @effect_call_code a arith callee _ inst.result hHoused hCallee linIdx
        hRax hHome hLost pos args
    exact ⟨core, rest, hCode, hEffect, hRest.imp_right fun h => ⟨_, h⟩⟩
  | debugLoc | nop => exact stores_of_effect effect_nil
  | _ => exact stores_nop

theorem straightCode_stores (hHoused : Housed a)
    (hCallee : ∀ m, Returns m (callee m)) {inst : MirInst}
    (hStay : isReturn inst.op = false) (linIdx : Int) (pos : Nat) :
    Stores a arith callee (MayWrite a linIdx inst) inst.result
      (straightCode a linIdx pos inst) := by
  have hPlain : Stores a arith callee (MayWrite a linIdx inst) inst.result
      (emitPlain a linIdx pos inst) :=
    emitPlain_stores hHoused hCallee hStay linIdx pos
  unfold straightCode emitInst
  cases hOp : inst.op with
  | condbr cond trueBb falseBb =>
    rw [filterMap_append, filterMap_insns]
    have hLoad : Effect arith callee (MayWrite a linIdx inst) 0 (jraLoadOperand a cond .rax).1 :=
      effect_load (by decide) fun _ => .inl rfl
    have hTest : Effect arith callee
        (MayWrite a linIdx inst) 0 [.test (jraLoadOperand a cond .rax).2] :=
      effect_quiet rfl fun insn hInsn x hx => by
        rw [mem_singleton.mp hInsn] at hx
        cases hx
    exact stores_of_effect ((hLoad.then hTest).then effect_nil)
  | br target => exact stores_of_effect effect_nil
  | _ =>
    rw [filterMap_insns]
    exact hPlain

end

end Casprix.Jit
