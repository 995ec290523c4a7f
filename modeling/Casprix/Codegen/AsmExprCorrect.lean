import Casprix.Codegen.AsmExpr

/-! The code of a scalar expression leaves its value in the target register when
the expression is placed there. -/
namespace Casprix.Codegen

open List Frontend Function

variable {World : Type} {platform : Platform World} {symbols : Symbols} {locals : String → Word}
  (m : Machine World)

namespace Machine

/-- Everything but the registers in `written` and the stack below is as before. -/
structure Frame (m m' : Machine World) (written : List Reg) : Prop where
  rsp : m'.rsp = m.rsp
  rbp : m'.rbp = m.rbp
  stack : ∀ a, m.rsp ≤ a → m'.stack a = m.stack a
  reg : ∀ r, r ∉ written → m'.reg r = m.reg r

namespace Frame

variable {m m' m'' : Machine World} {written written' : List Reg}

theorem trans (h : Frame m m' written) (h' : Frame m' m'' written) : Frame m m'' written where
  rsp := h'.rsp.trans h.rsp
  rbp := h'.rbp.trans h.rbp
  stack a ha := (h'.stack a (by rw [h.rsp]; exact ha)).trans (h.stack a ha)
  reg r hr := (h'.reg r hr).trans (h.reg r hr)

theorem mono (h : Frame m m' written) (hSub : written ⊆ written') : Frame m m' written' :=
  ⟨h.rsp, h.rbp, h.stack, fun r hr => h.reg r fun hMem => hr (hSub hMem)⟩

end Frame

theorem setReg_frame (r : Reg) (value : Word) (written : List Reg)
    (hr : r ∈ written) : Frame m (m.setReg r value) written where
  rsp := rfl
  rbp := rfl
  stack _ _ := rfl
  reg other hOther := setReg_of_ne (fun h => hOther (by rw [h]; exact hr)) value

end Machine

open Machine

/-- Every local is in its cell, at `top` or above. -/
def Holds (symbols : Symbols) (locals : String → Word) (top : Int) (m : Machine World) : Prop :=
  ∀ name, symbols.findLocal name ≠ 0 →
    top ≤ m.rbp - symbols.findLocal name ∧
      m.stack (m.rbp - symbols.findLocal name) = locals name

variable {top : Int} (reg : Reg)

theorem Holds.mono {m : Machine World} {top' : Int} (h : Holds symbols locals top m)
    (hTop : top' ≤ top) : Holds symbols locals top' m := fun name hName =>
  ⟨hTop.trans (h name hName).1, (h name hName).2⟩

theorem Holds.of_cells {m m' : Machine World} (h : Holds symbols locals top m)
    (hRbp : m'.rbp = m.rbp) (hStack : ∀ a, top ≤ a → m'.stack a = m.stack a) :
    Holds symbols locals top m' := by
  intro name hName
  obtain ⟨hTop, hCell⟩ := h name hName
  rw [hRbp]
  exact ⟨hTop, (hStack _ hTop).trans hCell⟩

theorem Holds.frame {m m' : Machine World} {written : List Reg} (h : Holds symbols locals top m)
    (hRsp : m.rsp ≤ top) (hFrame : Frame m m' written) : Holds symbols locals top m' :=
  h.of_cells hFrame.rbp fun a ha => hFrame.stack a (hRsp.trans ha)

/-- What the code of an expression does to the machine. -/
structure Computes (m m' : Machine World) (reg : Reg) (written : List Reg)
    (result : Word × Outside World) : Prop where
  frame : Frame m m' (reg :: written)
  value : m'.reg reg = result.1
  outside : m'.outside = result.2

theorem setReg_computes (reg : Reg) (value : Word) (written : List Reg) :
    Computes m (m.setReg reg value) reg written (value, m.outside) :=
  ⟨m.setReg_frame reg value _ mem_cons_self, setReg_self reg value, rfl⟩

/-- The flag of a comparison goes through `al`. -/
theorem flag_computes (platform : Platform World) (condition : Condition) (m : Machine World)
    (compared : Word × Word) (reg : Reg) :
    ∃ m', run platform [.setAl condition, .movzxAl reg]
      { m with compared := compared } = some m' ∧
      Computes m m' reg [.rax] (ofBool (condition.holds compared.1 compared.2), m.outside) := by
  let flagged := { m with compared := compared }.setReg .rax (lowByte
    (if condition.holds compared.1 compared.2 then 1 else 0) (m.reg .rax))
  have hFlagged : Frame m flagged [reg, .rax] := by
    refine ⟨rfl, rfl, fun _ _ => rfl, fun r hr => ?_⟩
    apply setReg_of_ne
    rintro rfl
    exact hr (mem_cons_of_mem _ mem_cons_self)
  refine ⟨flagged.setReg reg (flagged.reg .rax &&& 255#64), rfl, ?_, ?_, rfl⟩
  · exact hFlagged.trans (setReg_frame flagged reg _ _ mem_cons_self)
  · rw [setReg_self, setReg_self]
    exact lowByte_and _ _

theorem comparison_computes (condition : Condition) (m : Machine World) (reg : Reg) :
    ∃ m', m.run platform (comparison condition reg) = some m' ∧
      Computes m m' reg [.rax] (ofBool (condition.holds (m.reg reg) (m.reg .rbx)), m.outside) :=
  flag_computes platform condition m (m.reg reg, m.reg .rbx) reg

theorem append_toInt_of_nonneg (a : Word) (h : 0 ≤ a.toInt) :
    ((0 : Word) ++ a).toInt = a.toInt := by
  have hNat : ((0 : Word) ++ a).toNat = a.toNat := by
    rw [BitVec.toNat_append]
    exact Nat.zero_or _
  have hMsb : a.msb = false := by
    rw [BitVec.msb_eq_toInt]
    exact decide_eq_false (not_lt.mpr h)
  have hSmall : 2 * a.toNat < 18446744073709551616 := BitVec.msb_eq_false_iff_two_mul_lt.mp hMsb
  rw [BitVec.toInt_eq_toNat_of_lt hSmall, BitVec.toInt_eq_toNat_of_lt, hNat]
  rw [hNat]
  exact hSmall.trans (by decide)

theorem idiv_of_nonneg (divisor : Word) (hRdx : m.reg .rdx = 0)
    (hNonneg : 0 ≤ (m.reg .rax).toInt) (hDivisor : divisor ≠ 0) :
    m.idiv divisor = some ((m.setReg .rax ((m.reg .rax).sdiv divisor)).setReg .rdx
      ((m.reg .rax).srem divisor)) := by
  have hDividend := append_toInt_of_nonneg (m.reg .rax) hNonneg
  have hSize : (m.reg .rax).toInt < 9223372036854775808 := BitVec.toInt_lt
  have hQuotient := Int.natAbs_tdiv_le_natAbs (m.reg .rax).toInt divisor.toInt
  have hSdiv : BitVec.ofInt 64 ((m.reg .rax).toInt.tdiv divisor.toInt) =
      (m.reg .rax).sdiv divisor := by
    apply BitVec.eq_of_toInt_eq
    rw [BitVec.toInt_ofInt, BitVec.toInt_sdiv]
  have hSrem : BitVec.ofInt 64 ((m.reg .rax).toInt.tmod divisor.toInt) =
      (m.reg .rax).srem divisor := by
    rw [← BitVec.toInt_srem, BitVec.ofInt_toInt]
  unfold Machine.idiv
  simp only [hRdx, hDividend, hSdiv, hSrem]
  exact if_neg (by simp only [hDivisor, false_or]; omega)

/-- The machine after a division: `rax` holds the quotient, `rdx` the remainder. -/
def divided : Machine World :=
  ((m.setReg .rdx 0).setReg .rax ((m.reg .rax).sdiv (m.reg .rbx))).setReg .rdx
    ((m.reg .rax).srem (m.reg .rbx))

theorem divided_frame : Frame m (divided m) [.rax, .rdx] :=
  ((m.setReg_frame .rdx 0 [.rax, .rdx] (by decide)).trans
    (setReg_frame _ .rax _ _ (by decide))).trans (setReg_frame _ .rdx _ _ (by decide))

theorem run_division (last : Instr) (hNonneg : 0 ≤ (m.reg .rax).toInt)
    (hDivisor : m.reg .rbx ≠ 0) :
    m.run platform [.movImm .rdx 0, .idiv .rbx, last] = (divided m).step platform last := by
  have hRax : (m.setReg .rdx 0).reg .rax = m.reg .rax := setReg_of_ne (by decide) 0
  have hRbx : (m.setReg .rdx 0).reg .rbx = m.reg .rbx := setReg_of_ne (by decide) 0
  have hDivided : (m.setReg .rdx 0).step platform (.idiv .rbx) = some (divided m) := by
    have h := idiv_of_nonneg (m.setReg .rdx 0) (m.reg .rbx) (setReg_self _ _)
      (by rw [hRax]; exact hNonneg) hDivisor
    rw [hRax] at h
    rw [step, hRbx]
    exact h
  calc m.run platform [.movImm .rdx 0, .idiv .rbx, last]
      = ((m.setReg .rdx 0).step platform (.idiv .rbx)).bind (run platform [last]) := rfl
    _ = run platform [last] (divided m) := by rw [hDivided]; rfl
    _ = (divided m).step platform last := run_singleton _

/-- The operators as the code computes them, with both operands. -/
def combine (operator : Operator) (a b : Word) : Word :=
  match operator with
  | .and => a &&& b
  | .or => a ||| b
  | _ => Operator.value false operator a b

section

variable (platform : Platform World) (operator : Operator) (m : Machine World) (reg : Reg)

theorem binaryOperation_computes (hOperator : operator ≠ .not ∧ operator ≠ .bitNot)
    (hRbx : reg ≠ .rbx) (hFits : OperatorFits operator reg (m.reg reg) (m.reg .rbx)) :
    ∃ m', m.run platform (binaryOperation operator reg) = some m' ∧
      Computes m m' reg (operatorClobbers operator)
        (combine operator (m.reg reg) (m.reg .rbx), m.outside) := by
  cases operator with
  | plus | minus | star | and | bitAnd | or | pipe | bitXor =>
    exact ⟨_, rfl, setReg_computes m reg _ _⟩
  | equal => exact comparison_computes .e m reg
  | notEqual => exact comparison_computes .ne m reg
  | less => exact comparison_computes .l m reg
  | lessEqual => exact comparison_computes .le m reg
  | greater => exact comparison_computes .g m reg
  | greaterEqual => exact comparison_computes .ge m reg
  | not => exact absurd rfl hOperator.1
  | bitNot => exact absurd rfl hOperator.2
  | slash | percent =>
    obtain ⟨rfl, hNonneg, hDivisor⟩ := hFits
    refine ⟨_, run_division m _ hNonneg hDivisor, ?_, setReg_self _ _, rfl⟩
    exact ((divided_frame m).mono (subset_cons_self _ _)).trans
      (setReg_frame _ .rax _ _ mem_cons_self)
  | lshift | rshift =>
    -- the count is moved to `rcx` before the target is read
    have hReg : (m.setReg .rcx (m.reg .rbx)).reg reg = m.reg reg := setReg_of_ne hFits _
    refine ⟨_, rfl, ?_, ?_, rfl⟩
    · exact (m.setReg_frame .rcx _ [reg, .rcx] (by simp)).trans
        (setReg_frame _ reg _ _ mem_cons_self)
    · refine (setReg_self reg _).trans ?_
      rw [hReg, setReg_self]
      rfl

theorem unaryOperation_computes
    (hOperator : operator = .minus ∨ operator = .not ∨ operator = .bitNot) :
    ∃ m', m.run platform (unaryOperation operator reg) = some m' ∧
      Computes m m' reg (operatorClobbers operator)
        (Operator.unaryValue operator (m.reg reg), m.outside) := by
  obtain rfl | rfl | rfl := hOperator
  · exact ⟨_, rfl, setReg_computes m reg _ _⟩
  · exact flag_computes platform .e m (m.reg reg, 0) reg
  · exact ⟨_, rfl, setReg_computes m reg _ _⟩

end

/-- Where the operands have no sign bit to differ in, the signed instruction is right. -/
theorem value_of_signFits (operator : Operator) {a b : Word} (h : SignFits operator a b) :
    Operator.value true operator a b = Operator.value false operator a b := by
  cases operator with
  | slash =>
    obtain ⟨hA, hB⟩ := h
    simp [Operator.value, BitVec.sdiv_eq, hA, hB]
  | percent =>
    obtain ⟨hA, hB⟩ := h
    simp [Operator.value, BitVec.srem_eq, hA, hB]
  | less => exact congrArg ofBool (BitVec.slt_eq_ult_of_msb_eq h).symm
  | lessEqual => exact congrArg ofBool (BitVec.sle_eq_ule_of_msb_eq h).symm
  | greater => exact congrArg ofBool (BitVec.slt_eq_ult_of_msb_eq h.symm).symm
  | greaterEqual => exact congrArg ofBool (BitVec.sle_eq_ule_of_msb_eq h.symm).symm
  | rshift => exact (BitVec.sshiftRight_eq_of_msb_false h).symm
  | _ => rfl

theorem combine_of_fits (unsigned : Bool) (operator : Operator) (reg : Reg) (a b : Word)
    (hFits : OperatorFits operator reg a b) (hSign : unsigned = true → SignFits operator a b) :
    (if decides operator a then ofBool (a != 0)
      else match operator with
        | .and | .or => b
        | _ => Operator.value unsigned operator a b) = combine operator a b := by
  have hValue : Operator.value unsigned operator a b = Operator.value false operator a b := by
    cases unsigned with
    | true => exact value_of_signFits operator (hSign rfl)
    | false => rfl
  rw [hValue]
  cases operator with
  | and | or => obtain ⟨rfl | rfl, rfl | rfl⟩ := hFits <;> rfl
  | _ => rfl

theorem evalExpr_binary_of_fits (operator : Operator) (left right : Expr) (reg : Reg)
    (outside : Outside World) (first second : Word × Outside World)
    (hFirst : evalExpr platform symbols locals left outside = first)
    (hSecond : evalExpr platform symbols locals right first.2 = second)
    (hFits : OperatorFits operator reg first.1 second.1)
    (hSign : symbols.onUnsigned operator left right = true → SignFits operator first.1 second.1)
    (hDecides : decides operator first.1 = true → second.2 = first.2) :
    evalExpr platform symbols locals (.binary operator left right) outside =
      (combine operator first.1 second.1, second.2) := by
  rw [evalExpr, hFirst]
  dsimp only
  rw [hSecond, ← combine_of_fits _ operator reg first.1 second.1 hFits hSign]
  by_cases hDecided : decides operator first.1 = true
  · rw [if_pos hDecided, if_pos hDecided, hDecides hDecided]
  · rw [if_neg hDecided, if_neg hDecided]
    cases operator <;> rfl

namespace Machine

def pushed (m : Machine World) (value : Word) : Machine World :=
  { m with rsp := m.rsp - 8, stack := update m.stack (m.rsp - 8) value }

def popped (reg : Reg) : Machine World :=
  { m.setReg reg (m.stack m.rsp) with rsp := m.rsp + 8 }

theorem pushed_top (value : Word) : (m.pushed value).stack (m.pushed value).rsp = value :=
  update_self _ _ _

theorem pushed_stack (value : Word) {a : Int} (ha : m.rsp ≤ a) :
    (m.pushed value).stack a = m.stack a := by
  apply update_of_ne
  omega

theorem popped_reg {m m' : Machine World} {value : Word} {written : List Reg}
    (h : Frame (m.pushed value) m' written) : (m'.popped reg).reg reg = value := by
  refine (setReg_self reg _).trans ?_
  rw [h.rsp, h.stack _ le_rfl, pushed_top]

theorem popped_reg_of_ne {reg other : Reg} (h : other ≠ reg) :
    (m.popped reg).reg other = m.reg other :=
  setReg_of_ne h _

theorem pushed_popped_frame {m m' : Machine World} {value : Word} {written : List Reg}
    (h : Frame (m.pushed value) m' written) (hReg : reg ∈ written) :
    Frame m (m'.popped reg) written where
  rsp := by
    have hRsp : m'.rsp = m.rsp - 8 := h.rsp
    change m'.rsp + 8 = m.rsp
    omega
  rbp := h.rbp
  stack a ha := by
    have hBelow : (m.pushed value).rsp ≤ a := by
      change m.rsp - 8 ≤ a
      omega
    exact (h.stack a hBelow).trans (m.pushed_stack value ha)
  reg r hr := by
    have hNe : r ≠ reg := fun hEq => hr (by rw [hEq]; exact hReg)
    exact (popped_reg_of_ne m' hNe).trans (h.reg r hr)

theorem Frame.setReg {m m' : Machine World} {written : List Reg} (h : Frame m m' written)
    {reg : Reg} (value : Word) (hReg : reg ∈ written) : Frame m (m'.setReg reg value) written :=
  h.trans (m'.setReg_frame reg value written hReg)

end Machine

theorem Holds.pushed {m : Machine World} (h : Holds symbols locals m.rsp m) (value : Word) :
    Holds symbols locals (m.pushed value).rsp (m.pushed value) :=
  have hCells : Holds symbols locals m.rsp (m.pushed value) :=
    h.of_cells rfl fun _ ha => m.pushed_stack value ha
  hCells.mono (sub_le_self _ (by decide))

theorem binary_computes {m afterLeft afterRight : Machine World} {operator : Operator} {reg : Reg}
    {left right : List Instr} {writtenLeft writtenRight : List Reg} {a b : Word}
    {outsideLeft outsideRight : Outside World}
    (hOperator : operator ≠ .not ∧ operator ≠ .bitNot)
    (hRbx : reg ≠ .rbx) (hLeft : m.run platform left = some afterLeft)
    (hComputesLeft : Computes m afterLeft reg writtenLeft (a, outsideLeft))
    (hRight : (afterLeft.pushed (afterLeft.reg reg)).run platform right = some afterRight)
    (hComputesRight : Computes (afterLeft.pushed (afterLeft.reg reg)) afterRight reg writtenRight
      (b, outsideRight)) (hFits : OperatorFits operator reg a b) :
    ∃ m', m.run platform (left ++ .push reg :: right ++
        .mov .rbx reg :: .pop reg :: binaryOperation operator reg) = some m' ∧
      Computes m m' reg (.rbx :: operatorClobbers operator ++ writtenLeft ++ writtenRight)
        (combine operator a b, outsideRight) := by
  let written := reg :: (.rbx :: operatorClobbers operator ++ writtenLeft ++ writtenRight)
  have hLeftFrame : Frame m afterLeft written := hComputesLeft.frame.mono (by grind)
  have hRightFrame : Frame (afterLeft.pushed (afterLeft.reg reg))
      (afterRight.setReg .rbx (afterRight.reg reg)) written :=
    (hComputesRight.frame.mono (by grind)).setReg _ (by simp [written])
  let ready := (afterRight.setReg .rbx (afterRight.reg reg)).popped reg
  have hReady : Frame m ready written :=
    hLeftFrame.trans (pushed_popped_frame reg hRightFrame mem_cons_self)
  have hA : ready.reg reg = a := (popped_reg reg hRightFrame).trans hComputesLeft.value
  have hB : ready.reg .rbx = b := by
    rw [popped_reg_of_ne _ hRbx.symm, setReg_self]
    exact hComputesRight.value
  have hOutside : ready.outside = outsideRight := hComputesRight.outside
  obtain ⟨m', hRun, hComputes⟩ := binaryOperation_computes platform operator ready reg
    hOperator hRbx (by rw [hA, hB]; exact hFits)
  refine ⟨m', ?_, ?_⟩
  · rw [append_assoc]
    exact run_trans hLeft (run_trans hRight hRun)
  · refine ⟨hReady.trans (hComputes.frame.mono ?_), ?_, ?_⟩
    · grind
    · rw [hComputes.value, hA, hB]
    · rw [hComputes.outside, hOutside]

/-- What placing the arguments on the stack leaves there, from slot `i - 6` on. -/
structure OnStack (m m' : Machine World) (i : Nat) (arguments : List Expr)
    (result : List Word × Outside World) : Prop where
  rsp : m'.rsp = m.rsp
  rbp : m'.rbp = m.rbp
  stack : ∀ a, m.rsp + 8 * (i + arguments.length - abiRegs.length : Nat) ≤ a →
    m'.stack a = m.stack a
  slots : ∀ k value, result.1[k]? = some value →
    m'.stack (m.rsp + 8 * (i - abiRegs.length + k : Nat)) = value
  outside : m'.outside = result.2

/-- What placing arguments in registers leaves there, from the `i`-th on. -/
structure InRegs (m m' : Machine World) (i : Nat) (result : List Word × Outside World) : Prop where
  rsp : m'.rsp = m.rsp
  rbp : m'.rbp = m.rbp
  stack : ∀ a, m.rsp ≤ a → m'.stack a = m.stack a
  earlier : ∀ r ∈ abiRegs.take i, m'.reg r = m.reg r
  placed : ∀ k value, result.1[k]? = some value →
    ∀ r, abiRegs[i + k]? = some r → m'.reg r = value
  outside : m'.outside = result.2

theorem generateRegArguments_of_le (symbols : Symbols) (arguments : List Expr) {i : Nat}
    (hi : abiRegs.length ≤ i) : generateRegArguments symbols arguments i = [] := by
  induction arguments generalizing i with
  | nil => rw [generateRegArguments]
  | cons argument rest ih =>
    rw [generateRegArguments, getElem?_eq_none hi, ih (Nat.le_succ_of_le hi)]
    rfl

section

variable (platform : Platform World) (symbols : Symbols) (locals : String → Word)
  (argument : Expr) (rest : List Expr) {i : Nat} (outside : Outside World)

theorem evalStackArguments_cons_of_le (hi : abiRegs.length ≤ i) :
    let afterRest := evalStackArguments platform symbols locals rest (i + 1) outside
    evalStackArguments platform symbols locals (argument :: rest) i outside =
      ((evalExpr platform symbols locals argument afterRest.2).1 :: afterRest.1,
        (evalExpr platform symbols locals argument afterRest.2).2) :=
  if_pos hi

theorem evalStackArguments_cons_of_lt (hi : i < abiRegs.length) :
    evalStackArguments platform symbols locals (argument :: rest) i outside =
      evalStackArguments platform symbols locals rest (i + 1) outside :=
  if_neg (not_le.mpr hi)

theorem evalRegArguments_cons_of_lt (hi : i < abiRegs.length) :
    let first := evalExpr platform symbols locals argument outside
    evalRegArguments platform symbols locals (argument :: rest) i outside =
      (first.1 :: (evalRegArguments platform symbols locals rest (i + 1) first.2).1,
        (evalRegArguments platform symbols locals rest (i + 1) first.2).2) :=
  if_pos hi

end

theorem evalRegArguments_of_le (platform : Platform World) (symbols : Symbols)
    (locals : String → Word) (arguments : List Expr) {i : Nat} (outside : Outside World)
    (hi : abiRegs.length ≤ i) :
    evalRegArguments platform symbols locals arguments i outside = ([], outside) := by
  cases arguments with
  | nil => rfl
  | cons argument rest => exact if_neg (not_lt.mpr hi)

theorem onStack_cons {m afterRest m' : Machine World} {i : Nat} {argument : Expr} {rest : List Expr}
    {values : List Word} {outsideRest : Outside World} {result : Word × Outside World}
    {code : List Instr} {written : List Reg} (hi : abiRegs.length ≤ i)
    (hRest : OnStack m afterRest (i + 1) rest (values, outsideRest))
    (hRun : afterRest.run platform code = some m')
    (hComputes : Computes afterRest m' .rax written result) :
    ∃ stored, afterRest.run platform (code ++
        [.storeArgument ((i - abiRegs.length) * 8) .rax]) = some stored ∧
      OnStack m stored i (argument :: rest) (result.1 :: values, result.2) := by
  have hFrame := hComputes.frame
  have hRsp : m'.rsp = m.rsp := hFrame.rsp.trans hRest.rsp
  let cell : Int := m'.rsp + ((i - abiRegs.length) * 8 : Nat)
  let stored := { m' with stack := update m'.stack cell (m'.reg .rax) }
  -- below the slots of the arguments before
  have hCell : cell = m.rsp + 8 * (i - abiRegs.length : Nat) := by
    change m'.rsp + ((i - abiRegs.length) * 8 : Nat) = _
    omega
  have hOther : ∀ a, m.rsp ≤ a → a ≠ cell → stored.stack a = afterRest.stack a := by
    intro a ha hNe
    exact (update_of_ne hNe _ _).trans (hFrame.stack a (by rw [hRest.rsp]; exact ha))
  refine ⟨stored, run_trans hRun rfl, hRsp, hFrame.rbp.trans hRest.rbp,
    ?_, ?_, hComputes.outside⟩
  · intro a ha
    rw [length_cons] at ha
    refine (hOther a (by omega) (by rw [hCell]; omega)).trans (hRest.stack a ?_)
    rw [add_right_comm]
    exact ha
  · intro k value hValue
    cases k with
    | zero =>
      have hEq : result.1 = value := Option.some.inj hValue
      rw [add_zero, ← hCell, ← hEq]
      exact (update_self _ _ _).trans hComputes.value
    | succ k =>
      have hSlot := hRest.slots k value hValue
      rw [show i + 1 - abiRegs.length + k = i - abiRegs.length + (k + 1) by omega] at hSlot
      exact (hOther _ (by omega) (by rw [hCell]; omega)).trans hSlot

theorem inRegs_cons {m afterFirst m' : Machine World} {i : Nat} {reg : Reg} {values : List Word}
    {outside : Outside World} {result : Word × Outside World} {written : List Reg}
    (hReg : abiRegs[i]? = some reg) (hComputes : Computes m afterFirst reg written result)
    (hKept : ∀ earlier ∈ abiRegs.take i, earlier ∉ written)
    (hRest : InRegs afterFirst m' (i + 1) (values, outside)) :
    InRegs m m' i (result.1 :: values, outside) := by
  have hFrame := hComputes.frame
  have hTake : abiRegs.take (i + 1) = abiRegs.take i ++ [reg] := by
    rw [take_add_one, hReg]
    rfl
  have hNodup : (abiRegs.take i ++ [reg]).Nodup := by
    rw [← hTake]
    exact List.Nodup.sublist (take_sublist _ _) (by decide)
  have hNotMem : reg ∉ abiRegs.take i := fun hMem =>
    (nodup_append.mp hNodup).2.2 reg hMem reg (mem_singleton.mpr rfl) rfl
  refine ⟨hRest.rsp.trans hFrame.rsp, hRest.rbp.trans hFrame.rbp, ?_, ?_, ?_, hRest.outside⟩
  · intro a ha
    exact (hRest.stack a (by rw [hFrame.rsp]; exact ha)).trans (hFrame.stack a ha)
  · intro r hr
    have hWritten : r ∉ reg :: written := by
      rw [mem_cons]
      rintro (rfl | hMem)
      · exact hNotMem hr
      · exact hKept r hr hMem
    have hLater : r ∈ abiRegs.take (i + 1) := by
      rw [hTake]
      exact mem_append_left _ hr
    exact (hRest.earlier r hLater).trans (hFrame.reg r hWritten)
  · intro k value hValue r hr
    cases k with
    | zero =>
      rw [add_zero, hReg] at hr
      obtain rfl := Option.some.inj hr
      have hLater : reg ∈ abiRegs.take (i + 1) := by
        rw [hTake]
        exact mem_append_right _ (mem_singleton.mpr rfl)
      rw [hRest.earlier reg hLater, hComputes.value]
      exact Option.some.inj hValue
    | succ k =>
      apply hRest.placed k value hValue r
      rw [add_right_comm]
      exact hr

/-- The machine at a call finds the arguments that were placed. -/
theorem arguments_of_placed {m onStack inRegs : Machine World} {arguments : List Expr}
    {stackValues regValues : List Word} {outsideStack outside : Outside World}
    (hStack : OnStack m onStack 0 arguments (stackValues, outsideStack))
    (hRegs : InRegs onStack inRegs 0 (regValues, outside))
    (hStackCount : stackValues.length = arguments.length - abiRegs.length)
    (hRegCount : regValues.length = min abiRegs.length arguments.length) :
    inRegs.arguments arguments.length = regValues ++ stackValues := by
  have hInRegs : (abiRegs.take arguments.length).map inRegs.reg = regValues := by
    apply ext_getElem
    · rw [length_map, length_take, hRegCount, min_comm]
    · intro k hLeft hRight
      rw [getElem_map, getElem_take]
      apply hRegs.placed k regValues[k] (getElem?_eq_getElem hRight)
      rw [zero_add]
      exact getElem?_eq_getElem _
  have hOnStack : (List.range (arguments.length - abiRegs.length)).map
      (fun i : Nat => inRegs.stack (inRegs.rsp + 8 * (i : Int))) = stackValues := by
    apply ext_getElem
    · rw [length_map, length_range, hStackCount]
    · intro k hLeft hRight
      have hSlot := hStack.slots k stackValues[k] (getElem?_eq_getElem hRight)
      rw [Nat.zero_sub, Nat.zero_add] at hSlot
      rw [getElem_map, getElem_range, ← hSlot, hRegs.rsp, hStack.rsp]
      apply hRegs.stack
      rw [hStack.rsp]
      omega
  rw [Machine.arguments, hInRegs, hOnStack]

section

variable (platform : Platform World) (symbols : Symbols) (locals : String → Word)
  (arguments : List Expr) (i : Nat) (outside : Outside World)

theorem evalStackArguments_length :
    (evalStackArguments platform symbols locals arguments i outside).1.length =
      i + arguments.length - max i abiRegs.length := by
  induction arguments generalizing i with
  | nil => exact (Nat.sub_eq_zero_of_le (Nat.le_max_left _ _)).symm
  | cons argument rest ih =>
    have hRest := ih (i + 1)
    rw [length_cons]
    by_cases hi : abiRegs.length ≤ i
    · rw [evalStackArguments_cons_of_le _ _ _ _ _ _ hi, length_cons, hRest]
      omega
    · rw [evalStackArguments_cons_of_lt _ _ _ _ _ _ (not_le.mp hi), hRest]
      omega

theorem evalRegArguments_length :
    (evalRegArguments platform symbols locals arguments i outside).1.length =
      min (abiRegs.length - i) arguments.length := by
  induction arguments generalizing i outside with
  | nil => exact (Nat.min_zero _).symm
  | cons argument rest ih =>
    rw [length_cons]
    by_cases hi : i < abiRegs.length
    · rw [evalRegArguments_cons_of_lt _ _ _ _ _ _ hi, length_cons, ih]
      omega
    · rw [evalRegArguments_of_le _ _ _ _ _ (not_lt.mp hi), length_nil]
      omega

end

variable (platform symbols locals)

/-- What running the code of a placed expression does. -/
def RunsTo (expr : Expr) (reg : Reg) (m : Machine World) : Prop :=
  ∃ m', m.run platform (generateAsmExpr symbols expr reg) = some m' ∧
    Computes m m' reg (clobbers expr reg) (evalExpr platform symbols locals expr m.outside)

variable {platform symbols locals}

theorem runsTo_variable {name : String} {isMove : Bool} {m : Machine World}
    (hScalar : isScalar symbols (.variable name isMove) = true)
    (hHolds : Holds symbols locals m.rsp m) (hName : symbols.isFunction name = false) :
    RunsTo platform symbols locals (.variable name isMove) reg m := by
  have hLocal : symbols.findLocal name ≠ 0 := by
    rw [isScalar, Bool.and_eq_true, bne_iff_ne] at hScalar
    exact hScalar.2
  have hCode : generateAsmExpr symbols (.variable name isMove) reg =
      [.loadLocal reg (symbols.findLocal name)] := by
    rw [generateAsmExpr, generateAsmVariable, if_neg (by rw [hName]; exact Bool.false_ne_true),
      if_neg hLocal]
  refine ⟨_, by rw [hCode]; rfl, ?_⟩
  have hComputes := setReg_computes m reg (m.stack (m.rbp - symbols.findLocal name)) []
  rw [(hHolds name hLocal).2] at hComputes ⊢
  exact hComputes

theorem runsTo_literal {type : DataType} {value : LiteralValue} (m : Machine World)
    (hScalar : isScalar symbols (.literal type value) = true)
    (hPlaced : Placed platform symbols locals (.literal type value) reg m.rsp m.outside) :
    RunsTo platform symbols locals (.literal type value) reg m := by
  cases value with
  | int value =>
    obtain rfl : type = .i32 := hPlaced
    exact ⟨_, rfl, setReg_computes m reg _ _⟩
  | bool value =>
    cases type with
    | bool => exact ⟨_, rfl, setReg_computes m reg _ _⟩
    | _ => cases hScalar
  | _ => cases hScalar

theorem le_stackSize (argCount : Nat) : 8 * (argCount - abiRegs.length) ≤ stackSize argCount := by
  unfold stackSize
  grind

theorem stackSize_mod (argCount : Nat) : stackSize argCount % 16 = 0 := by
  unfold stackSize
  grind

theorem run_call {m : Machine World} (hAligned : m.rsp % 16 = 0) (label : String)
    (argCount size : Nat) (reg : Reg) :
    m.run platform [.call label argCount, .addRsp size, .mov reg .rax] =
      some ({ m.call platform label argCount with rsp := m.rsp + size }.setReg reg
        ((m.call platform label argCount).reg .rax)) := by
  rw [run, step, if_pos hAligned]
  rfl

theorem mem_clobbers_call (callee : Expr) (arguments : List Expr) (reg r : Reg) :
    r ∈ clobbers (.call callee arguments) reg := by
  cases r <;> exact of_decide_eq_true rfl

theorem runsTo_call {callee : Expr} {arguments : List Expr} {name : String}
    {m onStack inRegs : Machine World} (hCallee : calleeName symbols callee = some name)
    (hRunStack : run platform (.subRsp (stackSize arguments.length) ::
      generateStackArguments symbols arguments 0) m = some onStack)
    (hStack : OnStack { m with rsp := m.rsp - stackSize arguments.length } onStack 0 arguments
      (evalStackArguments platform symbols locals arguments 0 m.outside))
    (hRunRegs : onStack.run platform (generateRegArguments symbols arguments 0) = some inRegs)
    (hRegs : InRegs onStack inRegs 0
      (evalRegArguments platform symbols locals arguments 0 onStack.outside))
    (hOrder : evalCodeOrder platform symbols locals arguments m.outside =
      evalArguments platform symbols locals arguments m.outside)
    (hAligned : m.rsp % 16 = 0) :
    RunsTo platform symbols locals (.call callee arguments) reg m := by
  let size := stackSize arguments.length
  let label := functionLabel symbols name
  let values := evalArguments platform symbols locals arguments m.outside
  let called := inRegs.call platform label arguments.length
  obtain ⟨hOutside, hValues⟩ :
      inRegs.outside = values.2 ∧ inRegs.arguments arguments.length = values.1 := by
    have hStackOutside := hStack.outside
    rw [hStackOutside] at hRegs
    have hPlaced := arguments_of_placed hStack hRegs
      ((evalStackArguments_length platform symbols locals arguments 0 m.outside).trans (by simp))
      ((evalRegArguments_length platform symbols locals arguments 0 _).trans (by simp))
    change inRegs.outside = (evalArguments platform symbols locals arguments m.outside).2 ∧
      _ = (evalArguments platform symbols locals arguments m.outside).1
    rw [← hOrder]
    exact ⟨hRegs.outside, hPlaced⟩
  have hRsp : inRegs.rsp + (stackSize arguments.length : Nat) = m.rsp := by
    rw [hRegs.rsp, hStack.rsp]
    exact sub_add_cancel _ _
  have hValue : (called.reg .rax, called.outside) =
      evalExpr platform symbols locals (.call callee arguments) m.outside := by
    rw [evalExpr, hCallee]
    change _ = values.2.call platform label values.1
    rw [← hOutside, ← hValues]
    have hRax : called.reg .rax =
        (inRegs.outside.call platform label (inRegs.arguments arguments.length)).1 :=
      call_rax label arguments.length
    exact Prod.ext hRax rfl
  refine ⟨{ called with rsp := called.rsp + size }.setReg reg (called.reg .rax), ?_, ?_, ?_, ?_⟩
  · rw [generateAsmExpr, hCallee]
    have hSize := stackSize_mod arguments.length
    exact run_trans (run_trans hRunStack hRunRegs) (run_call (by omega) _ _ _ _)
  · refine ⟨hRsp, hRegs.rbp.trans hStack.rbp, ?_, ?_⟩
    · intro a ha
      have hSize := le_stackSize arguments.length
      have hAbove : ¬a < inRegs.rsp + 8 * (arguments.length - abiRegs.length : Nat) := by
        omega
      refine (if_neg hAbove).trans ((hRegs.stack a ?_).trans (hStack.stack a ?_))
      · have hBelow := hRegs.rsp
        omega
      · change m.rsp - (stackSize arguments.length : Nat) + _ ≤ a
        omega
    · exact fun r hr => absurd (mem_cons_of_mem _ (mem_clobbers_call _ _ _ r)) hr
  · rw [setReg_self, ← hValue]
  · rw [← hValue]
    rfl

theorem element_computes {m afterArray afterIndex : Machine World} {reg : Reg}
    {array index : List Instr} {writtenArray writtenIndex : List Reg} {a i : Word}
    {outsideArray outsideIndex : Outside World} (hArray : m.run platform array = some afterArray)
    (hComputesArray : Computes m afterArray .rax writtenArray (a, outsideArray))
    (hIndex : (afterArray.pushed (afterArray.reg .rax)).run platform index = some afterIndex)
    (hComputesIndex : Computes (afterArray.pushed (afterArray.reg .rax)) afterIndex .rbx
      writtenIndex (i, outsideIndex)) :
    ∃ m', m.run platform (array ++ .push .rax :: index ++
        [.pop .rax, .loadField .rax .rax 8, .leaElement reg .rax .rbx, .loadField reg reg 0]) =
          some m' ∧
      Computes m m' reg (.rax :: .rbx :: writtenArray ++ writtenIndex)
        (element platform outsideIndex a i, outsideIndex) := by
  let written := reg :: (.rax :: .rbx :: writtenArray ++ writtenIndex)
  have hArrayFrame : Frame m afterArray written := hComputesArray.frame.mono (by grind)
  have hIndexFrame : Frame (afterArray.pushed (afterArray.reg .rax)) afterIndex written :=
    hComputesIndex.frame.mono (by grind)
  let popped := afterIndex.popped .rax
  have hPopped : Frame m popped written :=
    hArrayFrame.trans (pushed_popped_frame .rax hIndexFrame (by simp [written]))
  have hA : popped.reg .rax = a := (popped_reg .rax hIndexFrame).trans hComputesArray.value
  have hI : popped.reg .rbx = i :=
    (popped_reg_of_ne _ (by decide)).trans hComputesIndex.value
  have hOutside : popped.outside = outsideIndex := hComputesIndex.outside
  let data := popped.setReg .rax (platform.heap popped.outside.world (popped.reg .rax + 8))
  let lea := data.setReg reg (data.reg .rax + data.reg .rbx * 8)
  let loaded := lea.setReg reg (platform.heap lea.outside.world (lea.reg reg + 0))
  refine ⟨loaded, ?_, ?_, ?_, hOutside⟩
  · rw [append_assoc]
    exact run_trans hArray (run_trans hIndex rfl)
  · exact ((hPopped.setReg _ (by simp [written])).setReg _ mem_cons_self).setReg _ mem_cons_self
  · have hBase : data.reg .rax = platform.heap popped.outside.world (popped.reg .rax + 8) :=
      setReg_self _ _
    have hRbx : data.reg .rbx = i := (setReg_of_ne (by decide) _).trans hI
    have hLea : lea.reg reg = data.reg .rax + data.reg .rbx * 8 := setReg_self _ _
    refine (setReg_self _ _).trans ?_
    change platform.heap popped.outside.world _ = _
    rw [hLea, hBase, hRbx, hA, hOutside]
    exact congrArg _ (BitVec.add_zero _)

mutual

theorem generateAsmExpr_computes (expr : Expr) (reg : Reg) (m : Machine World)
    (hScalar : isScalar symbols expr = true) (hHolds : Holds symbols locals m.rsp m)
    (hPlaced : Placed platform symbols locals expr reg m.rsp m.outside) :
    RunsTo platform symbols locals expr reg m := by
  cases expr with
  | literal type value => exact runsTo_literal reg m hScalar hPlaced
  | «variable» name isMove => exact runsTo_variable reg hScalar hHolds hPlaced
  | unary operator operand =>
    obtain ⟨hOperator, hOperand⟩ := (Bool.and_eq_true _ _).mp hScalar
    obtain ⟨m₁, hRun, hComputes⟩ :=
      generateAsmExpr_computes operand reg m hOperand hHolds hPlaced
    have hUnary : operator = .minus ∨ operator = .not ∨ operator = .bitNot := by
      cases operator <;> simp at hOperator ⊢
    obtain ⟨m', hRun', hComputes'⟩ := unaryOperation_computes platform operator m₁ reg hUnary
    refine ⟨m', run_trans hRun hRun', ?_, ?_, ?_⟩
    · exact (hComputes.frame.mono (by rw [clobbers]; grind)).trans
        (hComputes'.frame.mono (by rw [clobbers]; grind))
    · rw [hComputes'.value, hComputes.value]
      rfl
    · exact hComputes'.outside.trans hComputes.outside
  | binary operator left right =>
    obtain ⟨hBoth, hRight⟩ := (Bool.and_eq_true _ _).mp hScalar
    obtain ⟨hOperator, hLeft⟩ := (Bool.and_eq_true _ _).mp hBoth
    obtain ⟨hRbx, hPlacedLeft, hPlacedRight, hFits, hSign, hDecides⟩ := hPlaced
    obtain ⟨m₁, hRun₁, hComputes₁⟩ :=
      generateAsmExpr_computes left reg m hLeft hHolds hPlacedLeft
    have hHolds₁ : Holds symbols locals m₁.rsp m₁ := by
      rw [hComputes₁.frame.rsp]
      exact hHolds.frame le_rfl hComputes₁.frame
    have hOutside : (m₁.pushed (m₁.reg reg)).outside =
        (evalExpr platform symbols locals left m.outside).2 := hComputes₁.outside
    have hRsp : (m₁.pushed (m₁.reg reg)).rsp = m.rsp - 8 :=
      congrArg (· - 8) hComputes₁.frame.rsp
    obtain ⟨m₂, hRun₂, hComputes₂⟩ := generateAsmExpr_computes right reg
      (m₁.pushed (m₁.reg reg)) hRight (hHolds₁.pushed _) (by
        rw [hRsp, hOutside]; exact hPlacedRight)
    rw [hOutside] at hComputes₂
    have hValid : operator ≠ .not ∧ operator ≠ .bitNot := by
      constructor
      · rintro rfl
        exact Bool.false_ne_true hOperator
      · rintro rfl
        exact Bool.false_ne_true hOperator
    obtain ⟨m', hRun', hComputes'⟩ :=
      binary_computes hValid hRbx hRun₁ hComputes₁ hRun₂ hComputes₂ hFits
    refine ⟨m', hRun', ?_⟩
    rw [evalExpr_binary_of_fits operator left right reg m.outside _ _ rfl rfl hFits hSign hDecides]
    exact hComputes'
  | index array index =>
    obtain ⟨hArray, hIndex⟩ := (Bool.and_eq_true _ _).mp hScalar
    obtain ⟨hPlacedArray, hPlacedIndex⟩ := hPlaced
    obtain ⟨m₁, hRun₁, hComputes₁⟩ :=
      generateAsmExpr_computes array .rax m hArray hHolds hPlacedArray
    have hHolds₁ : Holds symbols locals m₁.rsp m₁ := by
      rw [hComputes₁.frame.rsp]
      exact hHolds.frame le_rfl hComputes₁.frame
    have hOutside : (m₁.pushed (m₁.reg .rax)).outside =
        (evalExpr platform symbols locals array m.outside).2 := hComputes₁.outside
    have hRsp : (m₁.pushed (m₁.reg .rax)).rsp = m.rsp - 8 :=
      congrArg (· - 8) hComputes₁.frame.rsp
    obtain ⟨m₂, hRun₂, hComputes₂⟩ := generateAsmExpr_computes index .rbx
      (m₁.pushed (m₁.reg .rax)) hIndex (hHolds₁.pushed _) (by
        rw [hRsp, hOutside]; exact hPlacedIndex)
    rw [hOutside] at hComputes₂
    exact element_computes hRun₁ hComputes₁ hRun₂ hComputes₂
  | call callee arguments =>
    obtain ⟨hCallee, hArguments⟩ := (Bool.and_eq_true _ _).mp hScalar
    obtain ⟨name, hName⟩ := Option.isSome_iff_exists.mp hCallee
    obtain ⟨hAligned, hPlacedStack, hPlacedRegs, hOrder⟩ := hPlaced
    let room := { m with rsp := m.rsp - (stackSize arguments.length : Nat) }
    have hRoom : Holds symbols locals
        (room.rsp + 8 * (0 + arguments.length - abiRegs.length : Nat)) room := by
      have hCells : Holds symbols locals m.rsp room := hHolds.of_cells rfl fun _ _ => rfl
      apply hCells.mono
      have hSize := le_stackSize arguments.length
      change m.rsp - (stackSize arguments.length : Nat) + _ ≤ m.rsp
      omega
    obtain ⟨m₁, hRun₁, hStack⟩ :=
      generateStackArguments_onStack arguments 0 room hArguments hRoom hPlacedStack
    have hHolds₁ : Holds symbols locals m₁.rsp m₁ := by
      rw [hStack.rsp]
      exact (hRoom.of_cells hStack.rbp hStack.stack).mono (by omega)
    obtain ⟨m₂, hRun₂, hRegs⟩ :=
      generateRegArguments_inRegs arguments 0 m₁ hArguments hHolds₁
      (by rw [hStack.rsp, hStack.outside]; exact hPlacedRegs)
    exact runsTo_call reg hName hRun₁ hStack hRun₂ hRegs hOrder hAligned
  | _ => cases hScalar

theorem generateStackArguments_onStack (arguments : List Expr) (i : Nat) (m : Machine World)
    (hScalar : areScalar symbols arguments = true)
    (hHolds : Holds symbols locals (m.rsp + 8 * (i + arguments.length - abiRegs.length : Nat)) m)
    (hPlaced : PlacedOnStack platform symbols locals arguments i m.rsp m.outside) :
    ∃ m', m.run platform (generateStackArguments symbols arguments i) = some m' ∧
      OnStack m m' i arguments
        (evalStackArguments platform symbols locals arguments i m.outside) := by
  cases arguments with
  | nil =>
    exact ⟨m, rfl, rfl, rfl, fun _ _ => rfl, fun _ _ h => absurd h (by simp [evalStackArguments]),
      rfl⟩
  | cons argument rest =>
    obtain ⟨hArgument, hRest⟩ := (Bool.and_eq_true _ _).mp hScalar
    obtain ⟨hPlacedRest, hPlacedArgument⟩ := hPlaced
    have hLength : i + (argument :: rest).length = i + 1 + rest.length := by
      rw [length_cons]
      omega
    rw [hLength] at hHolds
    obtain ⟨m₁, hRun₁, hStack₁⟩ :=
      generateStackArguments_onStack rest (i + 1) m hRest hHolds hPlacedRest
    by_cases hi : abiRegs.length ≤ i
    · have hHolds₁ : Holds symbols locals m₁.rsp m₁ := by
        rw [hStack₁.rsp]
        exact (hHolds.of_cells hStack₁.rbp hStack₁.stack).mono (by omega)
      obtain ⟨m₂, hRun₂, hComputes₂⟩ :=
        generateAsmExpr_computes argument .rax m₁ hArgument
        hHolds₁ (by rw [hStack₁.rsp, hStack₁.outside]; exact hPlacedArgument hi)
      rw [hStack₁.outside] at hComputes₂
      obtain ⟨m', hRun', hStack'⟩ := onStack_cons hi hStack₁ hRun₂ hComputes₂
      refine ⟨m', ?_, ?_⟩
      · rw [generateStackArguments, if_pos hi]
        exact run_trans hRun₁ hRun'
      · rw [evalStackArguments_cons_of_le _ _ _ _ _ _ hi]
        exact hStack'
    · have hLt : i < abiRegs.length := not_le.mp hi
      refine ⟨m₁, ?_, hStack₁.rsp, hStack₁.rbp, ?_, ?_, ?_⟩
      · rw [generateStackArguments, if_neg hi, append_nil]
        exact hRun₁
      · rw [hLength]
        exact hStack₁.stack
      · rw [evalStackArguments_cons_of_lt _ _ _ _ _ _ hLt]
        intro k value hValue
        rw [← hStack₁.slots k value hValue, Nat.sub_eq_zero_of_le hLt.le,
          Nat.sub_eq_zero_of_le hLt]
      · rw [evalStackArguments_cons_of_lt _ _ _ _ _ _ hLt]
        exact hStack₁.outside

theorem generateRegArguments_inRegs (arguments : List Expr) (i : Nat) (m : Machine World)
    (hScalar : areScalar symbols arguments = true) (hHolds : Holds symbols locals m.rsp m)
    (hPlaced : PlacedInRegs platform symbols locals arguments i m.rsp m.outside) :
    ∃ m', m.run platform (generateRegArguments symbols arguments i) = some m' ∧
      InRegs m m' i (evalRegArguments platform symbols locals arguments i m.outside) := by
  by_cases hi : i < abiRegs.length
  · cases arguments with
    | nil =>
      exact ⟨m, rfl, rfl, rfl, fun _ _ => rfl, fun _ _ => rfl,
        fun _ _ h => absurd h (by simp [evalRegArguments]), rfl⟩
    | cons argument rest =>
      obtain ⟨hArgument, hRest⟩ := (Bool.and_eq_true _ _).mp hScalar
      obtain ⟨hPlacedArgument, hPlacedRest⟩ := hPlaced
      have hReg : abiRegs[i]? = some abiRegs[i] := getElem?_eq_getElem hi
      obtain ⟨hPlacedFirst, hKept⟩ := hPlacedArgument _ hReg
      obtain ⟨m₁, hRun₁, hComputes₁⟩ :=
        generateAsmExpr_computes argument abiRegs[i] m hArgument hHolds hPlacedFirst
      have hHolds₁ : Holds symbols locals m₁.rsp m₁ := by
        rw [hComputes₁.frame.rsp]
        exact hHolds.frame le_rfl hComputes₁.frame
      obtain ⟨m', hRun', hRegs'⟩ :=
        generateRegArguments_inRegs rest (i + 1) m₁ hRest hHolds₁
        (by rw [hComputes₁.frame.rsp, hComputes₁.outside]; exact hPlacedRest)
      rw [hComputes₁.outside] at hRegs'
      refine ⟨m', ?_, ?_⟩
      · rw [generateRegArguments, hReg]
        exact run_trans hRun₁ hRun'
      · rw [evalRegArguments_cons_of_lt _ _ _ _ _ _ hi]
        exact inRegs_cons hReg hComputes₁ hKept hRegs'
  · have hLe : abiRegs.length ≤ i := not_lt.mp hi
    refine ⟨m, ?_, ?_⟩
    · rw [generateRegArguments_of_le symbols arguments hLe]
      rfl
    · rw [evalRegArguments_of_le platform symbols locals arguments m.outside hLe]
      exact ⟨rfl, rfl, fun _ _ => rfl, fun _ _ => rfl, fun _ _ h => absurd h (by simp), rfl⟩

end

/-- The code of an expression that is placed in its target register leaves the
source's value there, has made the source's calls with the source's arguments,
and keeps the stack pointer, the frame pointer and the frame. -/
theorem generateAsmExpr_correct (expr : Expr) (reg : Reg) (m : Machine World)
    (hScalar : isScalar symbols expr = true) (hHolds : Holds symbols locals m.rsp m)
    (hPlaced : Placed platform symbols locals expr reg m.rsp m.outside) :
    ∃ m', m.run platform (generateAsmExpr symbols expr reg) = some m' ∧
      m'.reg reg = (evalExpr platform symbols locals expr m.outside).1 ∧
      m'.outside = (evalExpr platform symbols locals expr m.outside).2 ∧
      m'.rsp = m.rsp ∧ m'.rbp = m.rbp ∧ ∀ a, m.rsp ≤ a → m'.stack a = m.stack a := by
  obtain ⟨m', hRun, hComputes⟩ := generateAsmExpr_computes expr reg m hScalar hHolds hPlaced
  exact ⟨m', hRun, hComputes.value, hComputes.outside, hComputes.frame.rsp, hComputes.frame.rbp,
    hComputes.frame.stack⟩

/-- Every cell of the heap holds its own address, and functions return their
first argument. -/
def smallPlatform : Platform Unit where
  heap _ address := address
  address _ _ := 0
  callee _ arguments world := (arguments.headD 0, world)
  scratchRegs _ _ := 0
  scratchStack _ _ := 0

/-- The function `f` and the local `x`. -/
def smallSymbols : Symbols where
  isFunction name := name == "f"
  isExtern _ := false
  findLocal name := if name = "x" then 8 else 0
  dataType _ := .i32

def smallLocals (_ : String) : Word := 7

def smallMachine : Machine Unit where
  reg _ := 0
  rsp := -16
  rbp := 0
  stack _ := 7
  compared := (0, 0)
  outside := ⟨(), []⟩

theorem smallMachine_holds : Holds smallSymbols smallLocals smallMachine.rsp smallMachine := by
  intro name hName
  have hOffset : smallSymbols.findLocal name = 8 := by
    by_cases h : name = "x"
    · exact if_pos h
    · exact absurd (if_neg h) hName
  rw [hOffset]
  exact ⟨by decide, rfl⟩

/-- `f(x, x - 2)`. -/
theorem generateAsmExpr_correct_call :
    ∃ m', smallMachine.run smallPlatform (generateAsmExpr smallSymbols
        (.call (.variable "f" false) [.variable "x" false,
          .binary .minus (.variable "x" false) (.literal .i32 (.int 2))]) .rax) = some m' ∧
      m'.reg .rax = 7 ∧ m'.outside.calls = [("__casprix_f", [7, 5])] := by
  have hPlaced : Placed smallPlatform smallSymbols smallLocals
      (.call (.variable "f" false) [.variable "x" false,
        .binary .minus (.variable "x" false) (.literal .i32 (.int 2))]) .rax smallMachine.rsp
      smallMachine.outside := by
    refine ⟨rfl, ?_, ?_, rfl⟩
    · exact ⟨⟨trivial, fun h => absurd h (by decide)⟩, fun h => absurd h (by decide)⟩
    · refine ⟨fun reg hReg => ?_, fun reg hReg => ?_, trivial⟩
      · exact ⟨rfl, by simp [clobbers]⟩
      · obtain rfl : Reg.rsi = reg := Option.some.inj hReg
        exact ⟨⟨by decide, rfl, rfl, trivial, fun h => absurd h (by decide),
          fun h => absurd h (by decide)⟩, by decide⟩
  obtain ⟨m', hRun, hValue, hOutside, -⟩ :=
    generateAsmExpr_correct _ .rax smallMachine rfl smallMachine_holds hPlaced
  exact ⟨m', hRun, hValue, by rw [hOutside]; rfl⟩

/-- In `x[7 - 2]` the index is taken to `rbx`, where the right operand writes
over the left one and the difference is zero. -/
theorem generateAsmExpr_index_wrong :
    let expr : Expr := .index (.variable "x" false)
      (.binary .minus (.literal .i32 (.int 7)) (.literal .i32 (.int 2)))
    isScalar smallSymbols expr = true ∧
      Holds smallSymbols smallLocals smallMachine.rsp smallMachine ∧
      (∃ m', smallMachine.run smallPlatform (generateAsmExpr smallSymbols expr .rax) = some m' ∧
        m'.reg .rax = 15) ∧
      (evalExpr smallPlatform smallSymbols smallLocals expr smallMachine.outside).1 = 55 :=
  ⟨rfl, smallMachine_holds, ⟨_, rfl, rfl⟩, rfl⟩

end Casprix.Codegen
