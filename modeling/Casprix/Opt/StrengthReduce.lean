import Mathlib
import Casprix.Cvm.Machine
import Casprix.Mir.Builder
import Casprix.Opt.Uses

/-! `mir_pass_strength_reduce`, and when the cheaper operation computes the same. -/
namespace Casprix.Opt

open Mir BitVec

def isPowerOfTwo (v : Word) : Bool := decide (0 < v.toInt) && (v &&& (v - 1)) == 0

/-- The loop of `log2_int`. A signed word is halved 62 times at most before it is one. -/
def log2Loop : Nat → Word → Nat
  | 0, _ => 0
  | fuel + 1, v => if 1 < v.toInt then log2Loop fuel (v.sshiftRight 1) + 1 else 0

def log2Int (v : Word) : Nat := log2Loop 63 v

/-- The function as it is during the walk, with a fresh constant before the instruction. -/
structure Reduced where
  func : MirFunction
  insts : List MirInst
  changes : Nat

/-- The fresh constant that both rewritings put before the instruction. -/
def insertConst (func : MirFunction) (type : Option MirType) (imm : Word)
    (replacement : MirValueId → MirInst) : Reduced :=
  let fresh := func.newValue type
  { func := fresh.2
    insts := [{ op := .constInt imm, result := fresh.1, type := type }, replacement fresh.1]
    changes := 1 }

/-- The body of the loop. The opcode is looked at twice, but `MIR_SHL` is not `MIR_MOD`. -/
def reduceInst (func : MirFunction) (inst : MirInst) : Reduced :=
  let unchanged : Reduced := { func := func, insts := [inst], changes := 0 }
  match inst.op with
  | .binary .mul lhs rhs =>
    match findDef func rhs with
    | some rhsDef =>
      match rhsDef.op with
      | .constInt imm =>
        if isPowerOfTwo imm then
          insertConst func rhsDef.type (BitVec.ofNat 64 (log2Int imm)) fun shift =>
            { inst with op := .binary .shl lhs shift }
        else unchanged
      | _ => unchanged
    | none => unchanged
  | .binary .mod lhs rhs =>
    match findDef func rhs with
    | some rhsDef =>
      match rhsDef.op with
      | .constInt imm =>
        if isPowerOfTwo imm then
          insertConst func rhsDef.type (imm - 1) fun mask =>
            { inst with op := .binary .band lhs mask }
        else unchanged
      | _ => unchanged
    | none => unchanged
  | _ => unchanged

/-- The walk over a block: `done` is what it has passed, and the instructions of the block
are `done` and the rest. The blocks before and after are part of what `find_def` searches. -/
def reduceInsts (before : List MirBlock) (block : MirBlock) (after : List MirBlock) :
    List MirInst → List MirInst → MirFunction → Reduced
  | done, [], func => { func := func, insts := done, changes := 0 }
  | done, inst :: rest, func =>
    let current : MirFunction :=
      { func with blocks := before ++ { block with insts := done ++ inst :: rest } :: after }
    let step := reduceInst current inst
    let tail := reduceInsts before block after (done ++ step.insts) rest step.func
    { tail with changes := step.changes + tail.changes }

/-- The walk over the block list. -/
def reduceBlocks : List MirBlock → List MirBlock → MirFunction → MirFunction × Nat
  | before, [], func => ({ func with blocks := before }, 0)
  | before, block :: after, func =>
    let step := reduceInsts before block after [] block.insts func
    let tail := reduceBlocks (before ++ [{ block with insts := step.insts }]) after step.func
    (tail.1, step.changes + tail.2)

/-- The function after the pass, and the number of changes it returns. -/
def mirPassStrengthReduce (func : MirFunction) : MirFunction × Nat :=
  reduceBlocks [] func.blocks func

section

variable {c l : Word} {k : Nat}

theorem toInt_of_toNat_eq_two_pow (h : c.toNat = 2 ^ k) (hk : k < 63) : c.toInt = 2 ^ k := by
  have hSmall : (2 : Nat) ^ k < 2 ^ 63 := Nat.pow_lt_pow_right (by omega) hk
  rw [toInt_eq_toNat_of_lt (by omega), h]
  norm_cast

theorem isPowerOfTwo_iff : isPowerOfTwo c = true ↔ ∃ k < 63, c.toNat = 2 ^ k := by
  unfold isPowerOfTwo
  rw [Bool.and_eq_true, decide_eq_true_iff, beq_iff_eq]
  constructor
  · rintro ⟨hPos, hAnd⟩
    have hBound : c.toNat < 2 ^ 63 := by
      rw [toInt_eq_toNat_cond] at hPos
      split at hPos
      · omega
      · have := c.isLt
        omega
    have hNonzero : c.toNat ≠ 0 := by
      intro hZero
      rw [toInt_eq_toNat_of_lt (by omega), hZero] at hPos
      exact absurd hPos (by decide)
    have hNat : c.toNat &&& (c.toNat - 1) = 0 := by
      have hBits := congrArg BitVec.toNat hAnd
      rw [toNat_and, toNat_sub_of_le (by rw [le_def]; exact pos_of_ne_zero hNonzero)] at hBits
      exact hBits
    obtain ⟨k, hk⟩ := (Nat.and_sub_one_eq_zero_iff_isPowerOfTwo hNonzero).mp hNat
    refine ⟨k, ?_, hk⟩
    by_contra hLarge
    have := Nat.pow_le_pow_right (n := 2) (by omega) (Nat.le_of_not_lt hLarge)
    omega
  · rintro ⟨k, hk, hPow⟩
    constructor
    · rw [toInt_of_toNat_eq_two_pow hPow hk]
      positivity
    · apply eq_of_toNat_eq
      have hOne : (1 : Word) ≤ c := by
        rw [le_def, hPow]
        exact Nat.one_le_two_pow
      rw [toNat_and, toNat_sub_of_le hOne]
      exact (Nat.and_sub_one_eq_zero_iff_isPowerOfTwo (by rw [hPow]; positivity)).mpr ⟨k, hPow⟩

theorem log2Loop_eq {fuel : Nat} (hFuel : k ≤ fuel) (hk : k < 63) (h : c.toNat = 2 ^ k) :
    log2Loop fuel c = k := by
  induction fuel generalizing c k with
  | zero =>
    rw [log2Loop]
    omega
  | succ fuel ih =>
    rw [log2Loop, toInt_of_toNat_eq_two_pow h hk]
    cases k with
    | zero => rfl
    | succ k =>
      have hLarge : (1 : Int) < 2 ^ (k + 1) := one_lt_pow₀ (by decide) (Nat.succ_ne_zero k)
      have hHalf : (c.sshiftRight 1).toNat = 2 ^ k := by
        have hSign : c.msb = false := by
          rw [msb_eq_false_iff_two_mul_lt, h]
          have := Nat.pow_lt_pow_right (a := 2) (by omega) hk
          omega
        rw [sshiftRight_eq_of_msb_false hSign, toNat_ushiftRight, h,
          Nat.shiftRight_eq_div_pow, pow_succ]
        omega
      rw [if_pos hLarge, ih (by omega) (by omega) hHalf]

theorem mul_eq_shl (h : isPowerOfTwo c = true) :
    l * c = l <<< ((BitVec.ofNat 64 (log2Int c) : Word) &&& 63).toNat := by
  obtain ⟨k, hk, hPow⟩ := isPowerOfTwo_iff.mp h
  have hLog : log2Int c = k := log2Loop_eq (by omega) hk hPow
  have hAmount : ((BitVec.ofNat 64 k : Word) &&& 63).toNat = k := by
    rw [toNat_and, toNat_ofNat, Nat.mod_eq_of_lt (by omega)]
    exact Nat.and_two_pow_sub_one_of_lt_two_pow (n := 6) (by omega)
  have hFactor : c = BitVec.twoPow 64 k := by
    apply eq_of_toNat_eq
    rw [hPow, toNat_twoPow_of_lt (by omega)]
  rw [hLog, hAmount, hFactor, mul_twoPow_eq_shiftLeft]

/-- A remainder by a power of two is a mask exactly if the left operand is not negative or
is a multiple. -/
theorem mod_eq_band_iff (h : isPowerOfTwo c = true) :
    Cvm.cvmSafeModI64 l c = l &&& (c - 1) ↔ 0 ≤ l.toInt ∨ c.toInt ∣ l.toInt := by
  obtain ⟨k, hk, hPow⟩ := isPowerOfTwo_iff.mp h
  have hInt := toInt_of_toNat_eq_two_pow hPow hk
  have hBelow : (2 : Nat) ^ k < 2 ^ 63 := Nat.pow_lt_pow_right (by omega) hk
  have hOne : (1 : Word) ≤ c := by
    rw [le_def, hPow]
    exact Nat.one_le_two_pow
  have hZero : c ≠ 0 := by
    intro hZero
    rw [hZero] at hOne
    exact absurd hOne (by decide)
  have hMinus : c ≠ -1 := by
    intro hMinus
    rw [hMinus] at hInt
    have hPositive : (0 : Int) < 2 ^ k := by positivity
    exact absurd (hInt ▸ hPositive) (by decide)
  have hRem : (Cvm.cvmSafeModI64 l c).toInt = l.toInt.tmod (2 ^ k) := by
    unfold Cvm.cvmSafeModI64
    rw [if_neg hZero, if_neg fun hBoth => hMinus hBoth.2, toInt_srem, hInt]
  have hMask : (l &&& (c - 1)).toNat = l.toNat % 2 ^ k := by
    have hSub : (c - 1).toNat = 2 ^ k - 1 := by
      rw [toNat_sub_of_le hOne, hPow]
      rfl
    rw [toNat_and, hSub, Nat.and_two_pow_sub_one_eq_mod]
  have hBand : (l &&& (c - 1)).toInt = l.toInt % 2 ^ k := by
    have hWord : l.toInt % 2 ^ 64 = (l.toNat : Int) := by
      rw [toInt_eq_toNat_cond]
      split <;> omega
    have hDvd : (2 ^ k : Int) ∣ 2 ^ 64 := pow_dvd_pow 2 (by omega)
    rw [toInt_eq_toNat_of_lt (by omega), hMask, ← Int.emod_emod_of_dvd l.toInt hDvd, hWord]
    norm_cast
  rw [← toInt_inj, hRem, hBand, hInt, Int.tmod_eq_emod]
  constructor
  · intro hSame
    by_contra hNot
    rw [if_neg hNot] at hSame
    omega
  · intro hEither
    rw [if_pos hEither, Nat.cast_zero, sub_zero]

end

end Casprix.Opt
