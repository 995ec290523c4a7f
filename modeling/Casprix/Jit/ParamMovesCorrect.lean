import Casprix.Jit.ParamMoves
import Casprix.Jit.RegAllocApart
import Casprix.Library.Counting

/-! The moves of the prologue are a parallel copy: each parameter's home ends with what the
caller has passed, in whatever way sources and homes overlap. -/
namespace Casprix.Jit

open Function List Library Mir

variable {arith : Arithmetic} {homes : Homes} {m m0 : Machine} {i j : Nat} {value : Nat → Int}

/-- What the home of a parameter holds. -/
def Homes.content (homes : Homes) (m : Machine) (i : Nat) : Int :=
  match homes.dst i with
  | some dst => m.regs dst
  | none => m.stack (m.regs .rbp + homes.slotDisp i)

/-- The parameters of `live` have homes of their own, in the pool or below the frame base. -/
structure Homes.Distinct (homes : Homes) (live : Nat → Prop) : Prop where
  pool : ∀ i dst, live i → homes.dst i = some dst → dst ∈ allocPool
  below : ∀ i, live i → homes.dst i = none → homes.slotDisp i < 0
  regs : ∀ i j dst, live i → live j → i ≠ j →
    homes.dst i = some dst → homes.dst j ≠ some dst
  slots : ∀ i j, live i → live j → i ≠ j → homes.dst i = none → homes.dst j = none →
    homes.slotDisp i ≠ homes.slotDisp j

theorem ne_rax_of_mem_allocPool {r : Reg} (h : r ∈ allocPool) : r ≠ .rax := by
  rintro rfl
  exact absurd h (by decide)

theorem ne_rbp_of_mem_allocPool {r : Reg} (h : r ∈ allocPool) : r ≠ .rbp := by
  rintro rfl
  exact absurd h (by decide)

/-- What else a machine has in common with the one before it: the frame base, and the stack from
there on. -/
structure SameFrame (m m' : Machine) : Prop where
  base : m'.regs .rbp = m.regs .rbp
  above : ∀ address, m.regs .rbp ≤ address → m'.stack address = m.stack address

theorem SameFrame.trans {m' m'' : Machine} (h : SameFrame m m') (h' : SameFrame m' m'') :
    SameFrame m m'' where
  base := h'.base.trans h.base
  above address hAddress := (h'.above address (h.base ▸ hAddress)).trans
    (h.above address hAddress)

section

variable {live : Nat → Prop} (hDistinct : homes.Distinct live)

include hDistinct

theorem Homes.Distinct.content_setReg {dst : Reg} (hi : live i) (hj : live j) (hNe : j ≠ i)
    (hDst : homes.dst i = some dst) (v : Int) :
    homes.content (m.setReg dst v) j = homes.content m j := by
  have hPool := hDistinct.pool i dst hi hDst
  unfold Homes.content
  cases hHome : homes.dst j with
  | some other =>
    refine m.setReg_of_ne (fun hSame => ?_) v
    exact hDistinct.regs i j dst hi hj hNe.symm hDst (hSame ▸ hHome)
  | none =>
    rw [Machine.setReg_stack, m.setReg_of_ne (ne_rbp_of_mem_allocPool hPool).symm]

theorem Homes.Distinct.content_setRax (hj : live j) (v : Int) :
    homes.content (m.setReg .rax v) j = homes.content m j := by
  unfold Homes.content
  cases hHome : homes.dst j with
  | some other => exact m.setReg_of_ne (ne_rax_of_mem_allocPool (hDistinct.pool j other hj hHome)) v
  | none => rfl

theorem Homes.Distinct.content_setCell (hi : live i) (hj : live j) (hNe : j ≠ i)
    (hSpilled : homes.dst i = none) (v : Int) :
    homes.content (m.setCell (m.regs .rbp + homes.slotDisp i) v) j = homes.content m j := by
  unfold Homes.content
  cases hHome : homes.dst j with
  | some other => rfl
  | none =>
    refine m.setCell_of_ne (fun hSame => ?_) v
    exact hDistinct.slots j i hj hi hNe hHome hSpilled (Int.add_left_cancel hSame)

theorem Homes.Distinct.sameFrame_setCell (hi : live i) (hSpilled : homes.dst i = none) (v : Int) :
    SameFrame m (m.setCell (m.regs .rbp + homes.slotDisp i) v) where
  base := rfl
  above address hAddress := by
    have hBelow := hDistinct.below i hi hSpilled
    exact m.setCell_of_ne (by omega) v

end

theorem sameFrame_setReg {r : Reg} (hr : r ≠ .rbp) (v : Int) : SameFrame m (m.setReg r v) where
  base := m.setReg_of_ne hr.symm v
  above _ _ := rfl

theorem content_setReg_self {dst : Reg} (hDst : homes.dst i = some dst) (v : Int) :
    homes.content (m.setReg dst v) i = v := by
  unfold Homes.content
  rw [hDst]
  exact m.setReg_self dst v

theorem content_setCell_self (hSpilled : homes.dst i = none) (v : Int) :
    homes.content (m.setCell (m.regs .rbp + homes.slotDisp i) v) i = v := by
  unfold Homes.content
  rw [hSpilled]
  exact m.setCell_self _ v

namespace Shuffle

variable {s : Shuffle} {live : Nat → Prop}

/-- The machine after the moves so far. -/
def after (arith : Arithmetic) (s : Shuffle) (m0 : Machine) : Machine := execAll arith s.code m0

/-- Sources of pending moves, and homes of the others, hold what was passed. -/
structure Sound (arith : Arithmetic) (homes : Homes) (live : Nat → Prop) (value : Nat → Int)
    (m0 : Machine) (s : Shuffle) : Prop where
  pending : ∀ i, s.pending i = true → live i ∧ i < homes.np
  held : ∀ i, s.pending i = true → (s.after arith m0).regs (s.src i) = value i
  done : ∀ i < homes.np, live i → s.pending i = false →
    homes.content (s.after arith m0) i = value i
  apart : ∀ i j, s.pending i = true → s.pending j = true → s.src i = s.src j → i = j
  frame : SameFrame m0 (s.after arith m0)

theorem after_emit (s : Shuffle) (i : Nat) (code : List Insn) (m0 : Machine) :
    (s.emit i code).after arith m0 = execAll arith code (s.after arith m0) :=
  execAll_append ..

theorem pending_emit_self (s : Shuffle) (i : Nat) (code : List Insn) :
    (s.emit i code).pending i = false := update_self ..

theorem pending_emit_of_ne (hNe : j ≠ i) (code : List Insn) :
    (s.emit i code).pending j = s.pending j := update_of_ne hNe ..

theorem pending_emit {code : List Insn} (h : (s.emit i code).pending j = true) :
    j ≠ i ∧ s.pending j = true := by
  by_cases hSame : j = i
  · rw [hSame, pending_emit_self] at h
    cases h
  · rw [pending_emit_of_ne hSame] at h
    exact ⟨hSame, h⟩

/-- A move keeps the invariant if it fills the home, and leaves alone the other homes and what
other pending moves read. -/
theorem Sound.emit (h : Sound arith homes live value m0 s) {code : List Insn}
    (hHome : homes.content (execAll arith code (s.after arith m0)) i = value i)
    (hOthers : ∀ j, live j → j ≠ i →
      homes.content (execAll arith code (s.after arith m0)) j =
      homes.content (s.after arith m0) j)
    (hSources : ∀ j, s.pending j = true → j ≠ i →
      (execAll arith code (s.after arith m0)).regs (s.src j) = (s.after arith m0).regs (s.src j))
    (hFrame : SameFrame (s.after arith m0) (execAll arith code (s.after arith m0))) :
    Sound arith homes live value m0 (s.emit i code) where
  pending j hj := h.pending j (pending_emit hj).2
  held j hj := by
    obtain ⟨hNe, hOld⟩ := pending_emit hj
    rw [after_emit]
    exact (hSources j hOld hNe).trans (h.held j hOld)
  done j hj hLive hDone := by
    rw [after_emit]
    by_cases hSame : j = i
    · rwa [hSame]
    · rw [pending_emit_of_ne hSame] at hDone
      exact (hOthers j hLive hSame).trans (h.done j hj hLive hDone)
  apart j k hj hk := h.apart j k (pending_emit hj).2 (pending_emit hk).2
  frame := by
    rw [after_emit]
    exact h.frame.trans hFrame

section

variable (hDistinct : homes.Distinct live)

include hDistinct

section

variable (h : Sound arith homes live value m0 s)
include h

theorem Sound.storeSpilled (i : Nat) :
    Sound arith homes live value m0 (s.storeSpilled homes i) := by
  unfold Shuffle.storeSpilled
  by_cases hStore : s.pending i = true ∧ homes.dst i = none
  · obtain ⟨hi, hSpilled⟩ := hStore
    have hLive := (h.pending i hi).1
    rw [if_pos ⟨hi, hSpilled⟩]
    refine h.emit ?_ (fun j hj hNe => hDistinct.content_setCell hLive hj hNe hSpilled _)
      (fun j hj hNe => rfl) (hDistinct.sameFrame_setCell hLive hSpilled _)
    exact (content_setCell_self hSpilled _).trans (h.held i hi)
  · rwa [if_neg hStore]

theorem Sound.schedule (i : Nat) :
    Sound arith homes live value m0 (s.schedule homes i) := by
  unfold Shuffle.schedule
  cases hDst : homes.dst i with
  | none => exact h
  | some dst =>
    dsimp only
    by_cases hi : s.pending i = true
    · have hLive := (h.pending i hi).1
      rw [if_pos hi]
      by_cases hSame : dst = s.src i
      · rw [if_pos hSame]
        refine h.emit ?_ (fun j hj hNe => rfl) (fun j hj hNe => rfl) ⟨rfl, fun _ _ => rfl⟩
        unfold Homes.content
        rw [hDst, hSame]
        exact h.held i hi
      · rw [if_neg hSame]
        by_cases hBlocked : s.blocked homes i = true
        · rwa [if_pos hBlocked]
        · rw [if_neg hBlocked]
          refine h.emit ?_ (fun j hj hNe => hDistinct.content_setReg hLive hj hNe hDst _)
            (fun j hj hNe => ?_)
            (sameFrame_setReg (ne_rbp_of_mem_allocPool (hDistinct.pool i dst hLive hDst)) _)
          · exact (content_setReg_self hDst _).trans (h.held i hi)
          · refine Machine.setReg_of_ne _ (fun hRead => hBlocked ?_) _
            refine any_eq_true.mpr ⟨j, mem_range.mpr (h.pending j hj).2, ?_⟩
            rw [hDst, hRead]
            exact decide_eq_true ⟨hNe, hj, rfl⟩
    · rwa [if_neg hi]

theorem Sound.stage (hFree : ∀ j, s.pending j = true → s.src j ≠ .rax) :
    Sound arith homes live value m0 (s.stage homes) := by
  unfold Shuffle.stage
  cases hFind : (List.range homes.np).find? s.pending with
  | none => exact h
  | some i =>
    have hi : s.pending i = true := find?_some hFind
    have hOther : ∀ {j}, j ≠ i → update s.src i .rax j = s.src j := fun hNe =>
      update_of_ne hNe ..
    have hAfter : execAll arith (s.code ++ [.movRR .rax (s.src i)]) m0 =
        (s.after arith m0).setReg .rax ((s.after arith m0).regs (s.src i)) := execAll_append ..
    constructor
    · exact h.pending
    · intro j hj
      unfold Shuffle.after
      dsimp only
      rw [hAfter]
      by_cases hSame : j = i
      · rw [hSame, update_self, Machine.setReg_self]
        exact h.held i hi
      · rw [hOther hSame, Machine.setReg_of_ne _ (hFree j hj)]
        exact h.held j hj
    · intro j hj hLive hDone
      unfold Shuffle.after
      rw [hAfter, hDistinct.content_setRax hLive]
      exact h.done j hj hLive hDone
    · intro j k hj hk hEq
      dsimp only at hEq
      by_cases hjSame : j = i
      · by_cases hkSame : k = i
        · exact hjSame.trans hkSame.symm
        · rw [hjSame, update_self, hOther hkSame] at hEq
          exact absurd hEq.symm (hFree k hk)
      · by_cases hkSame : k = i
        · rw [hkSame, update_self, hOther hjSame] at hEq
          exact absurd hEq (hFree j hj)
        · rw [hOther hjSame, hOther hkSame] at hEq
          exact h.apart j k hj hk hEq
    · unfold Shuffle.after
      rw [hAfter]
      exact h.frame.trans (sameFrame_setReg (by decide) _)

end

end

/-- All pending moves have registers as homes. -/
def InRegisters (homes : Homes) (s : Shuffle) : Prop :=
  ∀ i, s.pending i = true → ∃ dst, homes.dst i = some dst

/-- Another pending move reads the home of this one. -/
def Waits (homes : Homes) (s : Shuffle) (i : Nat) : Prop :=
  ∃ j, j ≠ i ∧ s.pending j = true ∧ homes.dst i = some (s.src j)

theorem npend_emit (hi : s.pending i = true) (hBound : i < homes.np) (code : List Insn) :
    (s.emit i code).npend homes < s.npend homes :=
  countP_lt_of_imp (mem_range.mpr hBound) hi (pending_emit_self s i code) fun _ h =>
    (pending_emit h).2

theorem schedule_cases (h : Sound arith homes live value m0 s)
    (hRegs : InRegisters homes s) (i : Nat) :
    s.schedule homes i = s ∧ (s.pending i = true → Waits homes s i) ∨
      (s.schedule homes i).progress = true ∧ (s.schedule homes i).npend homes < s.npend homes ∧
        InRegisters homes (s.schedule homes i) := by
  have hEmit : ∀ {code}, s.pending i = true → (s.emit i code).progress = true ∧
      (s.emit i code).npend homes < s.npend homes ∧ InRegisters homes (s.emit i code) := fun hi =>
    ⟨rfl, npend_emit hi (h.pending i hi).2 _, fun j hj => hRegs j (pending_emit hj).2⟩
  unfold Shuffle.schedule
  cases hDst : homes.dst i with
  | none =>
    refine .inl ⟨rfl, fun hi => ?_⟩
    obtain ⟨dst, hSome⟩ := hRegs i hi
    rw [hDst] at hSome
    cases hSome
  | some dst =>
    dsimp only
    by_cases hi : s.pending i = true
    · rw [if_pos hi]
      by_cases hSame : dst = s.src i
      · rw [if_pos hSame]
        exact .inr (hEmit hi)
      · rw [if_neg hSame]
        by_cases hBlocked : s.blocked homes i = true
        · rw [if_pos hBlocked]
          refine .inl ⟨rfl, fun _ => ?_⟩
          obtain ⟨j, _, hj⟩ := any_eq_true.mp hBlocked
          obtain ⟨hNe, hPending, hRead⟩ := of_decide_eq_true hj
          exact ⟨j, hNe, hPending, hRead.symm⟩
        · rw [if_neg hBlocked]
          exact .inr (hEmit hi)
    · rw [if_neg hi]
      exact .inl ⟨rfl, fun hPending => absurd hPending hi⟩

section

variable (hDistinct : homes.Distinct live) (h : Sound arith homes live value m0 s)
include hDistinct h

theorem Sound.foldl_schedule (order : List Nat) :
    Sound arith homes live value m0 (order.foldl (Shuffle.schedule homes) s) := by
  induction order generalizing s with
  | nil => exact h
  | cons i rest ih => exact ih (h.schedule hDistinct i)

theorem foldl_schedule_cases (hRegs : InRegisters homes s) (order : List Nat) :
    order.foldl (schedule homes) s = s ∧
      (∀ i ∈ order, s.pending i = true → Waits homes s i) ∨
      (order.foldl (schedule homes) s).progress = true ∧
        (order.foldl (schedule homes) s).npend homes < s.npend homes ∧
        InRegisters homes (order.foldl (schedule homes) s) := by
  induction order generalizing s with
  | nil => exact .inl ⟨rfl, nofun⟩
  | cons i rest ih =>
    rw [foldl_cons]
    rcases schedule_cases h hRegs i with ⟨hSame, hWaits⟩ | ⟨hProgress, hLess, hKept⟩
    · rw [hSame]
      refine (ih h hRegs).imp_left fun hRest => ⟨hRest.1, fun j hj => ?_⟩
      rcases mem_cons.mp hj with rfl | hTail
      · exact hWaits
      · exact hRest.2 j hTail
    · refine .inr ?_
      rcases ih (h.schedule hDistinct i) hKept with ⟨hSame, _⟩ |
        ⟨hProgress', hLess', hKept'⟩
      · rw [hSame]
        exact ⟨hProgress, hLess, hKept⟩
      · exact ⟨hProgress', hLess'.trans hLess, hKept'⟩

/-- Where all pending moves wait for each other, none reads the scratch register. -/
theorem src_ne_rax_of_waits
    (hRegs : InRegisters homes s) (hAll : ∀ i, s.pending i = true → Waits homes s i) :
    ∀ j, s.pending j = true → s.src j ≠ .rax := by
  have hFirst : ∀ i j, s.pending i = true → s.pending j = true →
      homes.dst i = homes.dst j → i = j := by
    intro i j hi hj hEq
    by_contra hNe
    obtain ⟨dst, hDst⟩ := hRegs i hi
    exact hDistinct.regs i j dst (h.pending i hi).1 (h.pending j hj).1 hNe hDst (hEq ▸ hDst)
  have hFound : ∀ i, s.pending i = true → ∃ j, s.pending j = true ∧
      some (s.src j) = homes.dst i := by
    intro i hi
    obtain ⟨j, _, hj, hRead⟩ := hAll i hi
    exact ⟨j, hj, hRead.symm⟩
  intro j hj hRax
  obtain ⟨i, hi, hRead⟩ := exists_first_of_second homes.dst (fun j => some (s.src j))
    (fun i hi => (h.pending i hi).2) hFirst hFound j hj
  rw [hRax] at hRead
  exact absurd rfl (ne_rax_of_mem_allocPool (hDistinct.pool i .rax (h.pending i hi).1 hRead.symm))

end

open Classical in
/-- The rounds that are left: two for each pending move, but a cycle that is broken already. -/
noncomputable def roundsLeft (homes : Homes) (s : Shuffle) : Nat :=
  2 * s.npend homes + if ∃ i, s.pending i = true ∧ s.src i = .rax then 0 else 1

section

variable (hDistinct : homes.Distinct live) (h : Sound arith homes live value m0 s)
  (hRegs : InRegisters homes s)
include hDistinct h hRegs

theorem Sound.round (hSome : s.npend homes > 0) :
    Sound arith homes live value m0 (s.round homes) ∧ InRegisters homes (s.round homes) ∧
      roundsLeft homes (s.round homes) < roundsLeft homes s := by
  have hStart : Sound arith homes live value m0 { s with progress := false } :=
    ⟨h.pending, h.held, h.done, h.apart, h.frame⟩
  have hSound := hStart.foldl_schedule hDistinct (List.range homes.np)
  unfold Shuffle.round
  rcases foldl_schedule_cases hDistinct hStart hRegs (List.range homes.np) with
    ⟨hSame, hWaits⟩ | ⟨hProgress, hLess, hKept⟩
  · rw [hSame]
    rw [if_neg Bool.false_ne_true]
    have hAll : ∀ i, s.pending i = true → Waits homes s i := fun i hi =>
      hWaits i (mem_range.mpr (h.pending i hi).2) hi
    have hFree := src_ne_rax_of_waits hDistinct h hRegs hAll
    refine ⟨hStart.stage hDistinct hFree, ?_, ?_⟩
    · unfold Shuffle.stage
      split
      · exact hRegs
      · exact hRegs
    · obtain ⟨i, hMem, hi⟩ := countP_pos_iff.mp hSome
      have hFind : ∃ k, (List.range homes.np).find? s.pending = some k :=
        Option.isSome_iff_exists.mp (List.find?_isSome.mpr ⟨i, hMem, hi⟩)
      obtain ⟨k, hk⟩ := hFind
      have hPending : s.pending k = true := find?_some hk
      have hBefore : ¬∃ i, s.pending i = true ∧ s.src i = .rax := fun ⟨i, hi, hRax⟩ =>
        hFree i hi hRax
      have hStage : Shuffle.stage homes { s with progress := false } =
          { s with progress := false
                   src := update s.src k .rax
                   code := s.code ++ [.movRR .rax (s.src k)] } := by
        unfold Shuffle.stage
        rw [hk]
      unfold roundsLeft
      rw [hStage, if_neg hBefore, if_pos ⟨k, hPending, update_self ..⟩]
      exact Nat.lt_add_one _
  · rw [if_pos hProgress]
    refine ⟨hSound, hKept, ?_⟩
    unfold roundsLeft
    have hLess : Shuffle.npend homes _ < s.npend homes := hLess
    split <;> split <;> omega

theorem Sound.run {guard : Nat} (hGuard : roundsLeft homes s ≤ guard) :
    Sound arith homes live value m0 (s.run homes guard) ∧
      (s.run homes guard).npend homes = 0 := by
  induction guard generalizing s with
  | zero =>
    unfold roundsLeft at hGuard
    exact ⟨h, by rw [Shuffle.run]; omega⟩
  | succ guard ih =>
    rw [Shuffle.run]
    by_cases hSome : s.npend homes > 0
    · rw [if_pos hSome]
      obtain ⟨hSound, hKept, hLess⟩ := h.round hDistinct hRegs hSome
      exact ih hSound hKept (by omega)
    · rw [if_neg hSome]
      exact ⟨h, Nat.eq_zero_of_not_pos hSome⟩

end

end Shuffle

section

/-- The stack pointer of a function that has just been called points to the return address. -/
theorem exec_push (arith : Arithmetic) (r : Reg) (m : Machine) :
    ((Insn.push r).exec arith m).regs .rsp = m.regs .rsp - 8 ∧
      (∀ r', r' ≠ .rsp → ((Insn.push r).exec arith m).regs r' = m.regs r') ∧
      ∀ address, m.regs .rsp ≤ address →
        ((Insn.push r).exec arith m).stack address = m.stack address := by
  refine ⟨Machine.setReg_self .., fun r' hr' => Machine.setReg_of_ne _ hr' _,
    fun address hAddress => ?_⟩
  exact Machine.setCell_of_ne m (by omega) _

theorem execAll_pushes (arith : Arithmetic) (saved : List Reg) (m : Machine) :
    (execAll arith (saved.map .push) m).regs .rsp = m.regs .rsp - 8 * saved.length ∧
      (∀ r, r ≠ .rsp → (execAll arith (saved.map .push) m).regs r = m.regs r) ∧
      ∀ address, m.regs .rsp ≤ address →
        (execAll arith (saved.map .push) m).stack address = m.stack address := by
  induction saved generalizing m with
  | nil => exact ⟨by simp [execAll], fun _ _ => rfl, fun _ _ => rfl⟩
  | cons r rest ih =>
    obtain ⟨hPointer, hRegs, hStack⟩ := exec_push arith r m
    obtain ⟨hPointer', hRegs', hStack'⟩ := ih ((Insn.push r).exec arith m)
    have hRun : execAll arith ((r :: rest).map .push) m =
        execAll arith (rest.map .push) ((Insn.push r).exec arith m) := rfl
    rw [hRun, length_cons]
    refine ⟨?_, fun r' hr' => (hRegs' r' hr').trans (hRegs r' hr'), fun address hAddress => ?_⟩
    · rw [hPointer', hPointer]
      omega
    · rw [hStack' address (by omega), hStack address hAddress]

/-- The frame of a function that was called with this machine. -/
structure Framed (m m' : Machine) : Prop where
  base : m'.regs .rbp = m.regs .rsp - 48
  regs : ∀ r, r ≠ .rsp → r ≠ .rbp → m'.regs r = m.regs r
  stack : ∀ address, m.regs .rsp ≤ address → m'.stack address = m.stack address

theorem framed_pushes (arith : Arithmetic) (frame : Int) (m : Machine) :
    Framed m (execAll arith (framePushes ++ [.movRR .rbp .rsp, .subRspImm32 frame]) m) := by
  obtain ⟨hPointer, hRegs, hStack⟩ :=
    execAll_pushes arith [.rbx, .rbp, .r12, .r13, .r14, .r15] m
  rw [execAll_append]
  have hPushes : framePushes = [.rbx, .rbp, .r12, .r13, .r14, .r15].map Insn.push := rfl
  rw [hPushes]
  refine ⟨?_, fun r hPtr hBase => ?_, hStack⟩
  · refine (Machine.setReg_of_ne _ (by decide) _).trans ((Machine.setReg_self _ _ _).trans ?_)
    rw [hPointer]
    rfl
  · exact (Machine.setReg_of_ne _ hPtr _).trans
      ((Machine.setReg_of_ne _ hBase _).trans (hRegs r hPtr))

end

section

variable {a : JitRegAlloc} {params : List MirValueId}

/-- The value is kept in this home. -/
def KeptIn (a : JitRegAlloc) (id : MirValueId) : Home → Prop
  | .reg r => IsValue a.n id ∧ (a.v id).reg = some r ∧ r ∈ allocPool
  | .slot k => IsValue a.n id ∧ (a.v id).reg = none ∧ (a.v id).spillSlot = some k

instance : ∀ (a : JitRegAlloc) (id : MirValueId) (home : Home), Decidable (KeptIn a id home)
  | _, _, .reg _ => inferInstanceAs (Decidable (_ ∧ _ ∧ _))
  | _, _, .slot _ => inferInstanceAs (Decidable (_ ∧ _ ∧ _))

/-- What a home holds while the function runs. -/
def Home.read (home : Home) (m : Machine) : Int :=
  match home with
  | .reg r => m.regs r
  | .slot k => m.stack (m.regs .rbp - 8 * (k + 1))

/-- What the caller passes as a parameter: in a register, or behind the return address. -/
def passed (m : Machine) (i : Nat) : Int :=
  if i < maxArg then m.regs (argRegs.getD i .rax)
  else m.stack (m.regs .rsp + 8 + 8 * (i - maxArg : Nat))

theorem content_eq_read {home : Home} (h : KeptIn a (paramId params i) home) (m : Machine) :
    (paramHomes a params).content m i = home.read m := by
  unfold Homes.content paramHomes jraHomeReg Home.read
  cases home with
  | reg r =>
    obtain ⟨hValue, hReg, _⟩ := h
    dsimp only
    rw [if_pos hValue, hReg]
  | slot k =>
    obtain ⟨hValue, hReg, hSlot⟩ := h
    dsimp only
    rw [if_pos hValue, hReg]
    unfold jraSlotDisp
    rw [hSlot]
    dsimp only
    exact congrArg m.stack (by omega)

theorem dst_eq_of_keptIn {home : Home} (h : KeptIn a (paramId params i) home) :
    (∀ r, (paramHomes a params).dst i = some r ↔ home = .reg r) ∧
      ((paramHomes a params).dst i = none → ∃ k, home = .slot k ∧
        (paramHomes a params).slotDisp i = -8 * (k + 1)) := by
  unfold paramHomes jraHomeReg
  cases home with
  | reg r =>
    obtain ⟨hValue, hReg, _⟩ := h
    dsimp only
    rw [if_pos hValue, hReg]
    refine ⟨fun r' => ?_, fun hNone => by cases hNone⟩
    rw [Option.some.injEq, Home.reg.injEq]
  | slot k =>
    obtain ⟨hValue, hReg, hSlot⟩ := h
    dsimp only
    rw [if_pos hValue, hReg]
    refine ⟨fun r => iff_of_false (by simp) (by simp), fun _ => ⟨k, rfl, ?_⟩⟩
    unfold jraSlotDisp
    rw [hSlot]

theorem lt_of_paramId_ne (h : paramId params i ≠ 0) : i < params.length := by
  by_contra hNot
  refine h ?_
  unfold paramId
  rw [getD_eq_getElem?_getD, getElem?_eq_none (Nat.le_of_not_lt hNot)]
  rfl

/-- Parameters with homes that are pairwise different. -/
structure Assigned (a : JitRegAlloc) (params : List MirValueId) (home : Nat → Home) : Prop where
  kept : ∀ i, paramId params i ≠ 0 → KeptIn a (paramId params i) (home i)
  apart : ∀ i j, paramId params i ≠ 0 →
    paramId params j ≠ 0 → i ≠ j → home i ≠ home j

variable {home : Nat → Home}

theorem Assigned.distinct (h : Assigned a params home) :
    (paramHomes a params).Distinct fun i => paramId params i ≠ 0 where
  pool i dst hi hDst := by
    have hKept := h.kept i hi
    rw [((dst_eq_of_keptIn hKept).1 dst).mp hDst] at hKept
    exact hKept.2.2
  below i hi hNone := by
    obtain ⟨k, _, hDisp⟩ := (dst_eq_of_keptIn (h.kept i hi)).2 hNone
    rw [hDisp]
    omega
  regs i j dst hi hj hNe hDst hSame := by
    have hFirst := ((dst_eq_of_keptIn (h.kept i hi)).1 dst).mp hDst
    have hSecond := ((dst_eq_of_keptIn (h.kept j hj)).1 dst).mp hSame
    exact h.apart i j hi hj hNe (hFirst.trans hSecond.symm)
  slots i j hi hj hNe hNone hNone' hSame := by
    obtain ⟨k, hk, hDisp⟩ := (dst_eq_of_keptIn (h.kept i hi)).2 hNone
    obtain ⟨k', hk', hDisp'⟩ := (dst_eq_of_keptIn (h.kept j hj)).2 hNone'
    rw [hDisp, hDisp'] at hSame
    have hEq : k = k' := by omega
    exact h.apart i j hi hj hNe (hk.trans (hEq ▸ hk'.symm))

open Shuffle

theorem argRegs_injective :
    ∀ i < maxArg, ∀ j < maxArg, argRegs.getD i .rax = argRegs.getD j .rax →
    i = j := by decide

theorem argRegs_ne : ∀ i < maxArg, argRegs.getD i .rax ≠ .rsp ∧
    argRegs.getD i .rax ≠ .rbp := by decide

theorem sound_foldl_storeSpilled {homes : Homes} {live : Nat → Prop}
    (hDistinct : homes.Distinct live)
    {s : Shuffle} (h : Sound arith homes live value m0 s) (order : List Nat) :
    Sound arith homes live value m0 (order.foldl (storeSpilled homes) s) ∧
      ∀ i, (order.foldl (storeSpilled homes) s).pending i = true →
        s.pending i = true ∧ (i ∈ order → ∃ dst, homes.dst i = some dst) := by
  induction order generalizing s with
  | nil => exact ⟨h, fun i hi => ⟨hi, nofun⟩⟩
  | cons k rest ih =>
    obtain ⟨hSound, hPending⟩ := ih (h.storeSpilled hDistinct k)
    refine ⟨hSound, fun i hi => ?_⟩
    obtain ⟨hOld, hRest⟩ := hPending i hi
    unfold storeSpilled at hOld
    by_cases hStore : s.pending k = true ∧ homes.dst k = none
    · rw [if_pos hStore] at hOld
      obtain ⟨hNe, hBefore⟩ := pending_emit hOld
      exact ⟨hBefore, fun hMem => hRest ((mem_cons.mp hMem).resolve_left hNe)⟩
    · rw [if_neg hStore] at hOld
      refine ⟨hOld, fun hMem => ?_⟩
      rcases mem_cons.mp hMem with rfl | hTail
      · exact Option.ne_none_iff_exists'.mp fun hNone => hStore ⟨hOld, hNone⟩
      · exact hRest hTail

theorem roundsLeft_le (homes : Homes) (s : Shuffle) : roundsLeft homes s ≤ 2 * homes.np + 1 := by
  have hCount : s.npend homes ≤ homes.np := by
    have hLe := countP_le_length (p := s.pending) (l := List.range homes.np)
    rwa [length_range] at hLe
  unfold roundsLeft
  split <;> omega

theorem shuffleParams_sound (arith : Arithmetic) (h : Assigned a params home)
    (hFramed : Framed m m0) :
    (shuffleParams a params).npend (paramHomes a params) = 0 ∧
      SameFrame m0 (execAll arith (shuffleParams a params).code m0) ∧
      ∀ i < (paramHomes a params).np, paramId params i ≠ 0 →
        (paramHomes a params).content (execAll arith (shuffleParams a params).code m0) i =
          passed m i := by
  have hDistinct := h.distinct
  have hNp : (paramHomes a params).np ≤ maxArg := min_le_right ..
  have hStart : Sound arith (paramHomes a params) (fun i => paramId params i ≠ 0) (passed m) m0
      { src := fun i => argRegs.getD i .rax
        pending := fun i => i < (paramHomes a params).np ∧ paramId params i ≠ 0 } := by
    constructor
    · intro i hi
      exact (of_decide_eq_true hi).symm
    · intro i hi
      have hLt := lt_of_lt_of_le (of_decide_eq_true hi).1 hNp
      unfold passed
      rw [if_pos hLt]
      exact hFramed.regs _ (argRegs_ne i hLt).1 (argRegs_ne i hLt).2
    · intro i hi hLive hDone
      exact absurd ⟨hi, hLive⟩ (of_decide_eq_false hDone)
    · intro i j hi hj hSame
      exact argRegs_injective i (lt_of_lt_of_le (of_decide_eq_true hi).1 hNp) j
        (lt_of_lt_of_le (of_decide_eq_true hj).1 hNp) hSame
    · exact ⟨rfl, fun _ _ => rfl⟩
  obtain ⟨hStored, hPending⟩ := sound_foldl_storeSpilled hDistinct hStart
    (List.range (paramHomes a params).np)
  have hRegs : InRegisters (paramHomes a params)
      ((List.range (paramHomes a params).np).foldl (storeSpilled (paramHomes a params))
        { src := fun i => argRegs.getD i .rax
          pending := fun i => i < (paramHomes a params).np ∧ paramId params i ≠ 0 }) :=
    fun i hi => (hPending i hi).2 (mem_range.mpr (hStored.pending i hi).2)
  have hGuard : ∀ s, roundsLeft (paramHomes a params) s ≤ 64 := fun s =>
    (roundsLeft_le _ s).trans
      ((Nat.add_le_add_right (Nat.mul_le_mul_left 2 hNp) 1).trans (by decide))
  obtain ⟨hSound, hEnd⟩ := hStored.run hDistinct hRegs (hGuard _)
  refine ⟨hEnd, hSound.frame, fun i hi hLive => hSound.done i hi hLive ?_⟩
  exact Bool.eq_false_iff.mpr fun hPending =>
    countP_eq_zero.mp hEnd i (mem_range.mpr hi) hPending

/-- A parameter from the caller's stack fills its home, and leaves the other homes alone. -/
theorem execAll_stackParam (arith : Arithmetic) (h : Assigned a params home)
    (hi : paramId params i ≠ 0) (m : Machine) :
    (paramHomes a params).content (execAll arith (stackParam a params i) m) i =
        m.stack (m.regs .rbp + callerDisp i) ∧
      (∀ j, paramId params j ≠ 0 → j ≠ i →
        (paramHomes a params).content (execAll arith (stackParam a params i) m) j =
          (paramHomes a params).content m j) ∧
      SameFrame m (execAll arith (stackParam a params i) m) := by
  have hDistinct := h.distinct
  unfold stackParam
  rw [if_neg hi]
  cases hDst : (paramHomes a params).dst i with
  | some hr =>
    have hHome : jraHomeReg a (paramId params i) = some hr := hDst
    rw [hHome]
    refine ⟨content_setReg_self hDst _, fun j hj hNe => ?_, ?_⟩
    · exact hDistinct.content_setReg hi hj hNe hDst _
    · exact sameFrame_setReg (ne_rbp_of_mem_allocPool (hDistinct.pool i hr hi hDst)) _
  | none =>
    have hHome : jraHomeReg a (paramId params i) = none := hDst
    rw [hHome]
    refine ⟨(content_setCell_self hDst _).trans (Machine.setReg_self ..),
      fun j hj hNe => ?_, ?_⟩
    · exact (hDistinct.content_setCell hi hj hNe hDst _).trans (hDistinct.content_setRax hj _)
    · exact (sameFrame_setReg (by decide) _).trans (hDistinct.sameFrame_setCell hi hDst _)

theorem execAll_stackParams (h : Assigned a params home) (hFramed : Framed m m0) {order : List Nat}
    (hOrder : ∀ i ∈ order, maxArg ≤ i) (done : Nat → Prop) {m' : Machine}
    (hFrame : SameFrame m0 m')
    (hDone : ∀ i, done i → paramId params i ≠ 0 →
      (paramHomes a params).content m' i = passed m i) :
    ∀ i, done i ∨ i ∈ order → paramId params i ≠ 0 →
      (paramHomes a params).content (execAll arith (order.flatMap (stackParam a params)) m') i =
        passed m i := by
  induction order generalizing done m' with
  | nil => exact fun i hi => hDone i (hi.resolve_right not_mem_nil)
  | cons k rest ih =>
    rw [flatMap_cons, execAll_append]
    have hRest : ∀ i ∈ rest, maxArg ≤ i := fun i hi => hOrder i (mem_cons_of_mem k hi)
    have hSplit : ∀ i, done i ∨ i ∈ k :: rest → (done i ∨ i = k) ∨ i ∈ rest := by
      intro i hi
      rw [mem_cons, ← or_assoc] at hi
      exact hi
    intro i hi hLive
    by_cases hNone : paramId params k = 0
    · have hSkip : stackParam a params k = [] := if_pos hNone
      rw [hSkip]
      refine ih hRest (fun i => done i ∨ i = k) hFrame (fun j hj hjLive => ?_) i
        (hSplit i hi) hLive
      rcases hj with hOld | rfl
      · exact hDone j hOld hjLive
      · exact absurd hNone hjLive
    · obtain ⟨hFilled, hOthers, hSame⟩ := execAll_stackParam arith h hNone m'
      refine ih hRest (fun i => done i ∨ i = k) (hFrame.trans hSame) (fun j hj hjLive => ?_) i
        (hSplit i hi) hLive
      by_cases hHere : j = k
      · have hLater := hOrder k mem_cons_self
        have hAddress : m'.regs .rbp + callerDisp k = m.regs .rsp + 8 + 8 * (k - maxArg : Nat) := by
          rw [hFrame.base, hFramed.base]
          unfold callerDisp
          omega
        rw [hHere, hFilled, hAddress, hFrame.above _ (by rw [hFramed.base]; omega),
          hFramed.stack _ (by omega), passed, if_neg (not_lt.mpr hLater)]
      · rw [hOthers j hjLive hHere]
        exact hDone j (hj.resolve_right hHere) hjLive

/-- After the prologue each parameter's home holds what the caller has passed, and the loop that
schedules the moves has ended with none pending. -/
theorem jit_compile_function_param_moves (arith : Arithmetic)
    (h : Assigned a params home) (m : Machine) :
    (shuffleParams a params).npend (paramHomes a params) = 0 ∧
      ∀ i, paramId params i ≠ 0 →
        (home i).read (execAll arith (prologue a params) m) = passed m i := by
  have hFramed := framed_pushes arith (frameBytes a) m
  obtain ⟨hEnd, hFrame, hShuffled⟩ := shuffleParams_sound arith h hFramed
  refine ⟨hEnd, fun i hi => ?_⟩
  rw [← content_eq_read (h.kept i hi)]
  unfold prologue paramMoves
  rw [execAll_append, execAll_append]
  refine execAll_stackParams h hFramed (fun j hj => (mem_range'_1.mp hj).1)
    (fun i => i < (paramHomes a params).np) hFrame hShuffled i ?_ hi
  have hListed := lt_of_paramId_ne hi
  have hNp : (paramHomes a params).np = min params.length maxArg := rfl
  rw [hNp, mem_range'_1]
  omega

/-- The first two parameters are passed in each other's homes, the next three in a cycle, the sixth
is spilled, and the seventh comes from the caller's stack. -/
def cycles : JitRegAlloc where
  v id := { ([{}, { reg := some .rsi }, { reg := some .rdi }, { reg := some .rcx },
    { reg := some .r8 }, { reg := some .rdx }, { spillSlot := some 0 },
    { reg := some .r9 }] : List JitVReg).getD id {} with used := true }
  n := 8
  nSpillSlots := 1

def cyclesHome (i : Nat) : Home :=
  ([.reg .rsi, .reg .rdi, .reg .rcx, .reg .r8, .reg .rdx, .slot 0] : List Home).getD i (.reg .r9)

theorem cycles_param_moves :
    (shuffleParams cycles [1, 2, 3, 4, 5, 6, 7]).npend
      (paramHomes cycles [1, 2, 3, 4, 5, 6, 7]) = 0 ∧
      ∀ i, paramId [1, 2, 3, 4, 5, 6, 7] i ≠ 0 →
        (cyclesHome i).read (execAll (fun _ _ _ => 0) (prologue cycles [1, 2, 3, 4, 5, 6, 7])
          { regs := fun r => r.num, stack := fun address => address, compared := (0, 0) }) =
          passed
            { regs := fun r => r.num, stack := fun address => address, compared := (0, 0) } i := by
  refine jit_compile_function_param_moves _ ⟨fun i hi => ?_, fun i j hi hj hNe => ?_⟩ _
  · have hAll : ∀ i < 7, KeptIn cycles (paramId [1, 2, 3, 4, 5, 6, 7] i) (cyclesHome i) := by
      decide
    exact hAll i (lt_of_paramId_ne hi)
  · have hAll : ∀ i < 7, ∀ j < 7, i ≠ j → cyclesHome i ≠ cyclesHome j := by decide
    exact hAll i (lt_of_paramId_ne hi) j (lt_of_paramId_ne hj) hNe

end

end Casprix.Jit
