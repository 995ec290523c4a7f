import Casprix.Cvm.Machine
import Casprix.Mir.Verify
import Mathlib.Data.List.TakeWhile

/-! PHIs on the machine: they are executed one after another on the shared
register file, which is the parallel assignment only when none disturbs a later one. -/
namespace Casprix.Cvm

open List Mir Library Function

variable {inst : MirInst}

section

variable {r r₀ : MirValueId → CvmReg} {prev : MirBlockRef} {phis : List MirInst}

/-- The register a PHI reads when the machine came from `prev`. -/
def phiSource (prev : MirBlockRef) (inst : MirInst) : MirValueId :=
  match inst.op with
  | .phi edges => phiOperand edges prev
  | _ => 0

/-- The registers after one PHI. -/
def phiWrite (prev : MirBlockRef) (r : MirValueId → CvmReg) (inst : MirInst) :
    MirValueId → CvmReg :=
  if inst.result = 0 then r else update r inst.result (r (phiSource prev inst))

/-- No PHI writes what a later one reads or writes, unless both are to hold
the same value. -/
def Independent (r : MirValueId → CvmReg) (prev : MirBlockRef) (phis : List MirInst) : Prop :=
  phis.Pairwise fun a b => a.result ≠ 0 →
    a.result = phiSource prev b ∨ a.result = b.result →
      r (phiSource prev a) = r (phiSource prev b)

theorem phiWrite_of_ne {x : MirValueId} (h : inst.result ≠ x) : phiWrite prev r inst x = r x := by
  unfold phiWrite
  split
  · rfl
  · exact update_of_ne h.symm ..

theorem phiWrite_self (h : inst.result ≠ 0) :
    phiWrite prev r inst inst.result = r (phiSource prev inst) := by
  rw [phiWrite, if_neg h, update_self]

theorem foldl_phiWrite_of_not_mem {x : MirValueId} (h : ∀ inst ∈ phis, inst.result ≠ x) :
    phis.foldl (phiWrite prev) r x = r x := by
  induction phis generalizing r with
  | nil => rfl
  | cons a phis ih =>
    rw [foldl_cons, ih fun inst hInst => h inst (mem_cons_of_mem a hInst),
      phiWrite_of_ne (h a mem_cons_self)]

/-- In sequence, independent PHIs assign what their operands held at first. -/
theorem foldl_phiWrite (hReads : ∀ inst ∈ phis, r (phiSource prev inst) =
    r₀ (phiSource prev inst))
    (hIndependent : Independent r₀ prev phis) :
    ∀ inst ∈ phis, inst.result ≠ 0 →
      phis.foldl (phiWrite prev) r inst.result = r₀ (phiSource prev inst) := by
  induction phis generalizing r with
  | nil => exact nofun
  | cons a phis ih =>
    obtain ⟨hHead, hTail⟩ := pairwise_cons.mp hIndependent
    have hValue := hReads a mem_cons_self
    have hNext : ∀ inst ∈ phis,
        phiWrite prev r a (phiSource prev inst) = r₀ (phiSource prev inst) := by
      intro inst hInst
      have hOld := hReads inst (mem_cons_of_mem a hInst)
      by_cases hClash : a.result ≠ 0 ∧ a.result = phiSource prev inst
      · obtain ⟨hWrites, hSame⟩ := hClash
        rw [← hSame, phiWrite_self hWrites, hValue, hSame]
        exact hHead inst hInst hWrites (.inl hSame)
      · rw [← hOld]
        by_cases hWrites : a.result = 0
        · rw [phiWrite, if_pos hWrites]
        · exact phiWrite_of_ne fun hSame => hClash ⟨hWrites, hSame⟩
    have hRest := ih hNext hTail
    intro inst hInst hWrites
    cases hInst with
    | tail _ hInst => exact hRest inst hInst hWrites
    | head =>
      rw [foldl_cons]
      by_cases hLater : ∃ b ∈ phis, b.result = a.result
      · obtain ⟨b, hb, hSame⟩ := hLater
        rw [← hSame, hRest b hb (hSame ▸ hWrites)]
        exact (hHead b hb hWrites (.inr hSame.symm)).symm
      · have hLast : ∀ b ∈ phis, b.result ≠ a.result := fun b hb hSame =>
          hLater ⟨b, hb, hSame⟩
        rw [foldl_phiWrite_of_not_mem hLast, phiWrite_self hWrites, hValue]

end

section

variable {Heap : Type} {host : CvmHost Heap} {loop : CvmLoop Heap} {frame : CvmFrame}
  {callers : List CvmFrame} {vm : CvmState Heap} {inst : MirInst} {rest : List MirInst}
  {b : MirBlockId}

/-- The leading PHIs of a block. -/
def leadingPhis (func : MirFunction) (b : MirBlockId) : List MirInst :=
  (func.insts b).takeWhile (·.op.isPhi)

/-- How a PHI is executed. -/
def phiOutcome (frame : CvmFrame) (inst : MirInst) (vm : CvmState Heap) : CvmOutcome Heap :=
  setNext frame inst.result (frame.reg (phiSource frame.prev inst))
    (touch frame [phiSource frame.prev inst] vm)

section

variable (hLoop : loop = gotoLoop host ∨ loop = switchLoop host)
include hLoop

theorem exec_phi
    (hPhi : inst.op.isPhi = true) : loop.exec frame inst vm = phiOutcome frame inst vm := by
  cases hOp : inst.op with
  | phi edges =>
    cases hLoop with
    | inl hGoto => simp [hGoto, gotoLoop, execGoto, phiOutcome, phiSource, CvmFrame.readIds, hOp]
    | inr hSwitch =>
      simp [hSwitch, switchLoop, execSwitch, phiOutcome, phiSource, CvmFrame.readIds, hOp]
  | _ => simp [hOp, MirOp.isPhi] at hPhi

/-- A PHI assigns its result and the block goes on, or the call is over with a trap. -/
theorem step_phi (hPhi : inst.op.isPhi = true) (hBlock : frame.block = some b)
    (hRest : frame.rest = inst :: rest) :
    (∃ frame' vm', step host loop (.running frame callers vm) =
      some (.running frame' callers vm') ∧
      frame'.func = frame.func ∧ frame'.block = some b ∧ frame'.prev = frame.prev ∧
      frame'.rest = rest ∧ frame'.reg = phiWrite frame.prev frame.reg inst) ∨
    ∃ value vm', step host loop (.running frame callers vm) = some (.returned value vm') ∧
      vm'.trapCode ≠ 0 := by
  have hStep : step host loop (.running frame callers vm) = some (settle host loop
      (frame.fetch inst rest) callers (phiOutcome (frame.fetch inst rest) inst vm.tick)) := by
    rw [← exec_phi hLoop hPhi]
    simp only [step, hBlock, hRest]
  rw [hStep, phiOutcome, setNext]
  have hLeave : ∀ (frame' : CvmFrame) (vm : CvmState Heap), vm.trapCode ≠ 0 →
      ∃ value vm', some (settle host loop (frame.fetch inst rest) callers (.next frame' vm)) =
        some (.returned value vm') ∧ vm'.trapCode ≠ 0 := by
    intro frame' vm hTrap
    rw [settle, if_pos hTrap]
    obtain ⟨value, vm', hLeft, hTrap'⟩ := leave_of_trap host hTrap
    exact ⟨value, vm', congrArg some hLeft, hTrap'⟩
  generalize touch (frame.fetch inst rest) _ vm.tick = vm₁
  rcases cvmRegSet_cases (frame.fetch inst rest) inst.result
    ((frame.fetch inst rest).reg (phiSource (frame.fetch inst rest).prev inst)) vm₁ with
    ⟨_, hSet⟩ | ⟨regs, hSet, hReg⟩
  · rw [hSet]
    exact .inr (hLeave _ _ (Nat.succ_ne_zero 4))
  · rw [hSet]
    by_cases hTrap : vm₁.trapCode = 0
    · refine .inl ⟨{ frame.fetch inst rest with regs := regs }, vm₁, ?_,
        rfl, hBlock, rfl, rfl, ?_⟩
      · rw [settle, if_neg (not_not_intro hTrap)]
      · exact hReg
    · exact .inr (hLeave _ _ hTrap)

/-- The leading PHIs are executed in sequence, or the call is over with a trap. -/
theorem runFor_phis {phis : List MirInst} (hPhis : ∀ inst ∈ phis, inst.op.isPhi = true)
    (hBlock : frame.block = some b) (hRest : frame.rest = phis ++ rest) :
    (∃ frame' vm', runFor (step host loop) phis.length (.running frame callers vm) =
        .running frame' callers vm' ∧
      frame'.func = frame.func ∧ frame'.block = some b ∧ frame'.rest = rest ∧
      frame'.reg = phis.foldl (phiWrite frame.prev) frame.reg) ∨
    ∃ value vm', runFor (step host loop) phis.length (.running frame callers vm) =
      .returned value vm' ∧ vm'.trapCode ≠ 0 := by
  induction phis generalizing frame vm with
  | nil => exact .inl ⟨frame, vm, rfl, rfl, hBlock, hRest, rfl⟩
  | cons inst phis ih =>
    have hTail : ∀ inst ∈ phis, inst.op.isPhi = true := fun a ha =>
      hPhis a (mem_cons_of_mem inst ha)
    rcases step_phi hLoop (hPhis inst mem_cons_self) hBlock hRest with
      ⟨frame₁, vm₁, hStep, hFunc, hBlock₁, hPrev, hRest₁, hReg⟩ |
        ⟨value, vm', hStep, hTrap⟩
    · rw [length_cons, runFor_succ_of_some hStep, foldl_cons, ← hReg, ← hPrev, ← hFunc]
      exact ih hTail hBlock₁ hRest₁
    · rw [length_cons, runFor_succ_of_some hStep, runFor_of_none rfl]
      exact .inr ⟨value, vm', rfl, hTrap⟩

end

end

/-- After the leading PHIs of a block entered from `p`, each holds what its
operand for `p` held before. -/
def HoldsIncoming (func : MirFunction) (b p : MirBlockId) (before after : MirValueId → CvmReg) :
    Prop :=
  ∀ inst ∈ leadingPhis func b, inst.result ≠ 0 → ∀ edges edge, inst.op = .phi edges →
    edges.find? (·.block == some p) = some edge → after inst.result = before edge.value

theorem isPhi_of_mem_leadingPhis {func : MirFunction} {b : MirBlockId}
    (h : inst ∈ leadingPhis func b) : inst.op.isPhi = true :=
  mem_takeWhile_imp (p := fun inst : MirInst => inst.op.isPhi) h

section

variable {Heap : Type} {host : CvmHost Heap} {loop : CvmLoop Heap} {frame frame' : CvmFrame}
  {callers : List CvmFrame} {vm vm' : CvmState Heap} {p b : MirBlockId}

theorem runFor_leadingPhis (hLoop : loop = gotoLoop host ∨ loop = switchLoop host)
    (hFrom : frame.block = some p) :
    (∃ frame' vm', runFor (step host loop) (leadingPhis frame.func b).length
        (.running (frame.enter (some b)) callers vm) = .running frame' callers vm' ∧
      frame'.rest = (frame.func.insts b).dropWhile (·.op.isPhi) ∧
      frame'.reg = (leadingPhis frame.func b).foldl (phiWrite (some p)) frame.reg) ∨
    ∃ value vm', runFor (step host loop) (leadingPhis frame.func b).length
      (.running (frame.enter (some b)) callers vm) =
        .returned value vm' ∧ vm'.trapCode ≠ 0 := by
  have hRest : (frame.enter (some b)).rest =
      leadingPhis frame.func b ++ (frame.func.insts b).dropWhile (·.op.isPhi) :=
    takeWhile_append_dropWhile.symm
  have hPrev : (frame.enter (some b)).prev = some p := hFrom
  rcases runFor_phis hLoop (fun inst => isPhi_of_mem_leadingPhis)
    rfl hRest with ⟨frame', vm', hRun, _, _, hLeft, hRegs⟩ | hTrapped
  · rw [hPrev] at hRegs
    exact .inl ⟨frame', vm', hRun, hLeft, hRegs⟩
  · exact .inr hTrapped

theorem phiSource_of_find {edges : List MirPhiEdge} {edge : MirPhiEdge} (hOp : inst.op = .phi edges)
    (hEdge : edges.find? (·.block == some p) = some edge) :
    phiSource (some p) inst = edge.value := by
  simp only [phiSource, hOp, phiOperand, hEdge]

end

/-- Whenever any run of either loop comes from block `p` to block `b` with
independent PHIs, the PHIs are executed as one parallel assignment, unless
the call ends with a trap among them. -/
theorem cvm_phis_hold {Heap : Type} (host : CvmHost Heap) (loop : CvmLoop Heap)
    (hLoop : loop = gotoLoop host ∨ loop = switchLoop host) (vm₀ : CvmState Heap)
    (func : MirFunction) (args : List CvmReg) (m : Nat) (frame : CvmFrame) (callers : List CvmFrame)
    (vm : CvmState Heap) (p b : MirBlockId)
    (hAt : runFor (step host loop) m (cvmExecFunction host loop [] vm₀ func args) = .running
      (frame.enter (some b)) callers vm) (hFrom : frame.block = some p)
    (hIndependent : Independent frame.reg (some p) (leadingPhis frame.func b)) :
    (∃ frame' vm', runFor (step host loop) (m + (leadingPhis frame.func b).length)
        (cvmExecFunction host loop [] vm₀ func args) = .running frame' callers vm' ∧
      frame'.rest = (frame.func.insts b).dropWhile (·.op.isPhi) ∧
      HoldsIncoming frame.func b p frame.reg frame'.reg) ∨
    ∃ value vm', runFor (step host loop) (m + (leadingPhis frame.func b).length)
      (cvmExecFunction host loop [] vm₀ func args) =
        .returned value vm' ∧ vm'.trapCode ≠ 0 := by
  rw [runFor_add, hAt]
  rcases runFor_leadingPhis hLoop hFrom with
    ⟨frame', vm', hRun, hLeft, hRegs⟩ | hTrapped
  · refine .inl ⟨frame', vm', hRun, hLeft, ?_⟩
    intro inst hInst hWrites edges edge hOp hEdge
    rw [hRegs, ← phiSource_of_find hOp hEdge]
    exact foldl_phiWrite (fun _ _ => rfl) hIndependent inst hInst hWrites
  · exact .inr hTrapped

/-- Two variables that are swapped while the first is 1. -/
def swapLoop : MirFunction where
  name := "swap_loop"
  returnType := some .i64
  blocks := [
    { label := "entry", successors := [1]
      insts := [{ op := .constInt 1, result := 1, type := some .i64 },
        { op := .constInt 2, result := 2, type := some .i64 }, { op := .br (some 1) }] },
    { label := "loop", predecessors := [0, 1], successors := [1, 2]
      insts := [{ op := .phi [⟨some 0, 1⟩, ⟨some 1, 4⟩], result := 3, type := some .i64 },
        { op := .phi [⟨some 0, 2⟩, ⟨some 1, 3⟩], result := 4, type := some .i64 },
        { op := .binary .cmpEq 3 1, result := 5, type := some .bool },
        { op := .condbr 5 (some 1) (some 2) }] },
    { label := "done", predecessors := [1], insts := [{ op := .ret 4 }] }]
  nextValueId := 6
  valueTypes := [none, some .i64, some .i64, some .i64, some .i64, some .bool]

/-- The run of the loop on computed gotos. -/
def swapRun (n : Nat) : CvmConfig (List Word) :=
  runFor (step wordHost (gotoLoop wordHost)) n
    (cvmExecFunction wordHost (gotoLoop wordHost) [] (wordVm {}) swapLoop [])

def swapFrame (n : Nat) : CvmFrame :=
  match swapRun n with
  | .running frame _ _ => frame
  | _ => startFrame swapLoop []

/-- The frame while it executes the branch into the loop. -/
def swapEntry : CvmFrame := (swapFrame 2).fetch { op := .br (some 1) } []

def swapVm (n : Nat) : CvmState (List Word) :=
  match swapRun n with
  | .running _ _ vm => vm
  | _ => wordVm {}

/-- On the way into the loop the PHIs read the two constants. -/
theorem cvm_phis_hold_swapLoop :
    (∃ frame' vm', swapRun 5 = .running frame' [] vm' ∧
      frame'.rest = (swapEntry.func.insts 1).dropWhile (·.op.isPhi) ∧
      HoldsIncoming swapEntry.func 1 0 swapEntry.reg frame'.reg) ∨
    ∃ value vm', swapRun 5 = .returned value vm' ∧ vm'.trapCode ≠ 0 :=
  cvm_phis_hold wordHost (gotoLoop wordHost) (.inl rfl) (wordVm {}) swapLoop [] 3 swapEntry []
    (swapVm 3) 0 1 rfl rfl (by unfold Independent; decide)

/-- The function is accepted, but on the way round the loop the second PHI
reads what the first has just assigned, and the call returns 2 for 1. -/
theorem swapLoop_disturbed :
    mirVerifyFunction swapLoop = [] ∧ (swapRun 12).result = some (2, 0) ∧
    swapRun 7 = .running ((swapFrame 7).enter (some 1)) [] (swapVm 7) ∧
    (swapFrame 7).block = some 1 ∧ swapRun 9 = .running (swapFrame 9) [] (swapVm 9) ∧
    (swapFrame 9).rest = (swapLoop.insts 1).dropWhile (·.op.isPhi) ∧
    ¬HoldsIncoming swapLoop 1 1 (swapFrame 7).reg (swapFrame 9).reg := by
  refine ⟨by decide, by decide, rfl, rfl, rfl, rfl, fun hHolds => ?_⟩
  have hSecond := hHolds
    { op := .phi [⟨some 0, 2⟩, ⟨some 1, 3⟩], result := 4, type := some .i64 }
    (by decide) (by decide) _ _ rfl rfl
  exact absurd hSecond (by decide)

end Casprix.Cvm
