import Casprix.Jit.Linking

/-! What the code generator emits: branches only for the branches of the function, and the labels
of the first blocks. -/
namespace Casprix.Jit

open List Mir

variable {func : MirFunction} {a : JitRegAlloc} {id : MirValueId} {items : List Item}

/-- Control goes on behind the instruction, or comes back there. -/
def Insn.straight : Insn → Bool
  | .jnz _ | .jmp _ | .ret => false
  | .call rel => rel ≤ 0
  | _ => true

def Straight (code : List Insn) : Prop := code.all Insn.straight = true

theorem straight_append {code code' : List Insn} :
    Straight (code ++ code') ↔ Straight code ∧ Straight code' := by
  unfold Straight
  rw [all_append, Bool.and_eq_true]

theorem straight_nil : Straight [] := rfl

theorem straight_cons {insn : Insn} {code : List Insn} :
    Straight (insn :: code) ↔ insn.straight = true ∧ Straight code := by
  unfold Straight
  rw [all_cons, Bool.and_eq_true]

theorem straight_flatMap {β : Type} {f : β → List Insn} {l : List β}
    (h : ∀ b ∈ l, Straight (f b)) :
    Straight (l.flatMap f) := by
  induction l with
  | nil => rfl
  | cons b rest ih =>
    rw [flatMap_cons, straight_append]
    exact ⟨h b mem_cons_self, ih fun c hc => h c (mem_cons_of_mem b hc)⟩

theorem straight_map {f : Reg → Insn} (h : ∀ r, (f r).straight = true) (regs : List Reg) :
    Straight (regs.map f) := by
  unfold Straight
  rw [all_eq_true]
  intro insn hMem
  obtain ⟨r, _, rfl⟩ := mem_map.mp hMem
  exact h r

def isReturn : MirOp → Bool
  | .ret _ | .retVoid => true
  | _ => false

section

theorem straight_load (a : JitRegAlloc) (id : MirValueId) (scratch : Reg) :
    Straight (jraLoadOperand a id scratch).1 := by
  unfold jraLoadOperand
  split
  · split <;> rfl
  · rfl

theorem straight_store (a : JitRegAlloc) (id : MirValueId) (r : Reg) :
    Straight (jraStoreResult a id r) := by
  unfold jraStoreResult
  split <;> rfl

theorem straight_moveInto (dst src : Reg) : Straight (moveInto dst src) := by
  unfold moveInto
  split <;> rfl

theorem straight_padding {insn : Insn} (h : insn.straight = true) (count : Nat) :
    Straight (padding count insn) := by
  unfold padding
  split
  · exact straight_cons.mpr ⟨h, straight_nil⟩
  · exact straight_nil

theorem straight_alu (a : JitRegAlloc) (op : AluOp) (lhs rhs r : MirValueId) :
    Straight (emitAlu a op lhs rhs r) := by
  unfold emitAlu
  simp only [straight_append]
  refine ⟨⟨⟨straight_load .., straight_load ..⟩, ?_⟩, straight_store ..⟩
  split
  · exact straight_append.mpr ⟨rfl, straight_moveInto ..⟩
  · exact straight_append.mpr ⟨straight_moveInto .., rfl⟩

theorem straight_division (a : JitRegAlloc) (result : Reg) (lhs rhs r : MirValueId) :
    Straight (emitDivision a result lhs rhs r) := by
  unfold emitDivision
  simp only [straight_append]
  refine ⟨⟨⟨⟨⟨⟨⟨rfl, straight_load ..⟩, straight_load ..⟩, ?_⟩, rfl⟩,
    straight_moveInto ..⟩, ?_⟩,
    straight_store ..⟩
  · split <;> rfl
  · split <;> rfl

theorem straight_marshalArgs (a : JitRegAlloc) (args : List MirValueId) :
    Straight (marshalArgs a args) := by
  unfold marshalArgs
  split
  · simp only [straight_append]
    refine ⟨⟨⟨⟨straight_padding rfl _, straight_flatMap fun arg _ => ?_⟩,
      straight_map (fun _ => rfl) _⟩, ?_⟩, straight_padding rfl _⟩
    · unfold pushArg
      exact straight_append.mpr ⟨straight_load .., rfl⟩
    · unfold Straight
      simp [Insn.straight]
  · rfl

theorem straight_call (a : JitRegAlloc) (linIdx : Int) (pos : Nat) (args : List MirValueId)
    (r : MirValueId) : Straight (emitCall a linIdx pos args r) := by
  unfold emitCall beforeCall afterCall callResult
  simp only [straight_append, straight_cons]
  refine ⟨⟨⟨⟨straight_padding rfl _, straight_map (fun _ => rfl) _⟩,
    straight_marshalArgs a args⟩, ?_,
    straight_nil⟩, ⟨straight_map (fun _ => rfl) _, straight_padding rfl _⟩, ?_⟩
  · unfold Insn.straight
    exact decide_eq_true (by omega)
  · split
    · exact straight_append.mpr ⟨straight_moveInto .., straight_store ..⟩
    · exact straight_nil

theorem straight_emitPlain {inst : MirInst} (h : isReturn inst.op = false)
    (linIdx : Int) (pos : Nat) :
    Straight (emitPlain a linIdx pos inst) := by
  unfold emitPlain
  generalize inst.op = found at h
  cases found with
  | constInt imm => exact straight_append.mpr ⟨rfl, straight_store ..⟩
  | constBool imm => exact straight_append.mpr ⟨rfl, straight_store ..⟩
  | binary op lhs rhs =>
    cases op with
    | add | sub | mul => exact straight_alu ..
    | div | mod => exact straight_division ..
    | cmpLt | cmpLe | cmpEq | cmpNe | cmpGt | cmpGe =>
      unfold emitCompare
      simp only [straight_append]
      exact ⟨⟨⟨⟨straight_load .., straight_load ..⟩, rfl⟩, straight_moveInto ..⟩,
        straight_store ..⟩
    | _ => rfl
  | unary op operand targetType =>
    cases op with
    | neg =>
      unfold emitNeg
      simp only [straight_append]
      exact ⟨⟨⟨straight_load .., straight_moveInto ..⟩, rfl⟩, straight_store ..⟩
    | _ => rfl
  | transfer op source =>
    unfold emitTransfer
    simp only [straight_append]
    exact ⟨⟨straight_load .., straight_moveInto ..⟩, straight_store ..⟩
  | ret value =>
    cases h
  | retVoid =>
    cases h
  | call funcName args callee => exact straight_call ..
  | _ => rfl

theorem emitPlain_return {inst : MirInst} (h : isReturn inst.op = true) (linIdx : Int) (pos : Nat) :
    ∃ front, Straight front ∧ emitPlain a linIdx pos inst = front ++ [.ret] := by
  have hEpilogue : epilogue = epilogue.dropLast ++ [.ret] := rfl
  unfold emitPlain
  cases hOp : inst.op with
  | ret value =>
    unfold emitRet
    dsimp only
    rw [hEpilogue, ← append_assoc]
    refine ⟨_, ?_, rfl⟩
    simp only [straight_append]
    exact ⟨⟨straight_load .., straight_moveInto ..⟩, rfl⟩
  | retVoid =>
    have hFront : Straight ([Insn.movRImm64 .rax 0] ++ epilogue.dropLast) := rfl
    exact ⟨_, hFront, rfl⟩
  | _ =>
    rw [hOp] at h
    cases h

end

section

theorem straight_emit {s : Shuffle} (h : Straight s.code) (i : Nat) {code : List Insn}
    (hCode : Straight code) : Straight (s.emit i code).code := straight_append.mpr ⟨h, hCode⟩

theorem straight_schedule {s : Shuffle} (homes : Homes) (h : Straight s.code) (i : Nat) :
    Straight (s.schedule homes i).code := by
  unfold Shuffle.schedule
  cases homes.dst i with
  | none => exact h
  | some dst =>
    dsimp only
    split
    · split
      · exact straight_emit h i rfl
      · split
        · exact h
        · exact straight_emit h i rfl
    · exact h

theorem straight_foldl {step : Shuffle → Nat → Shuffle}
    (hStep : ∀ (s : Shuffle) (i : Nat), Straight s.code → Straight (step s i).code)
    (order : List Nat) {s : Shuffle} (h : Straight s.code) :
    Straight (order.foldl step s).code := by
  induction order generalizing s with
  | nil => exact h
  | cons i rest ih => exact ih (hStep s i h)

theorem straight_round {s : Shuffle} (homes : Homes) (h : Straight s.code) :
    Straight (s.round homes).code := by
  have hFold : Straight ((List.range homes.np).foldl (Shuffle.schedule homes)
      { s with progress := false }).code :=
    straight_foldl (fun s i hs => straight_schedule homes hs i) _ h
  unfold Shuffle.round
  dsimp only
  split
  · exact hFold
  · unfold Shuffle.stage
    split
    · exact straight_append.mpr ⟨hFold, rfl⟩
    · exact hFold

theorem straight_run {s : Shuffle} (homes : Homes) (h : Straight s.code) (guard : Nat) :
    Straight (s.run homes guard).code := by
  induction guard generalizing s with
  | zero => exact h
  | succ guard ih =>
    rw [Shuffle.run]
    split
    · exact ih (straight_round homes h)
    · exact h

theorem straight_prologue (a : JitRegAlloc) (params : List MirValueId) :
    Straight (prologue a params) := by
  unfold prologue paramMoves shuffleParams
  simp only [straight_append]
  refine ⟨⟨rfl, rfl⟩, ?_, straight_flatMap fun i _ => ?_⟩
  · refine straight_run _ (straight_foldl (fun s i hs => ?_) _ ?_) _
    · unfold Shuffle.storeSpilled
      split
      · exact straight_emit hs i rfl
      · exact hs
    · exact straight_nil
  · unfold stackParam
    split
    · rfl
    · split <;> rfl

end

/-- The blocks that an instruction branches to. -/
def branchTargets : MirOp → List MirBlockRef
  | .condbr _ trueBb falseBb => [trueBb, falseBb]
  | .br target => [target]
  | _ => []

def Item.target? : Item → Option MirBlockRef
  | .insn _ => none
  | .jnzTo target | .jmpTo target => some target

/-- Instructions that are not branches to blocks go straight on, or return. -/
def Item.Plain : Item → Prop
  | .insn i => i.straight = true ∨ i = .ret
  | _ => True

theorem plain_insns {code : List Insn} (h : Straight code) :
    ∀ item ∈ code.map Item.insn, item.Plain := by
  intro item hMem
  obtain ⟨i, hi, rfl⟩ := mem_map.mp hMem
  exact Or.inl (all_eq_true.mp h i hi)

theorem plain_return {front : List Insn} (h : Straight front) :
    ∀ item ∈ (front ++ [Insn.ret]).map Item.insn, item.Plain := by
  intro item hMem
  rw [map_append, mem_append] at hMem
  rcases hMem with hFront | hRet
  · exact plain_insns h item hFront
  · rw [mem_singleton.mp hRet]
    exact Or.inr rfl

theorem plain_emitPlain (a : JitRegAlloc) (linIdx : Int) (pos : Nat) (inst : MirInst) :
    ∀ item ∈ (emitPlain a linIdx pos inst).map Item.insn, item.Plain := by
  cases hReturn : isReturn inst.op with
  | false => exact plain_insns (straight_emitPlain hReturn linIdx pos)
  | true =>
    obtain ⟨front, hFront, hCode⟩ := emitPlain_return (a := a) hReturn linIdx pos
    rw [hCode]
    exact plain_return hFront

theorem targets_insns (code : List Insn) : (code.map Item.insn).filterMap Item.target? = [] := by
  induction code with
  | nil => rfl
  | cons i rest ih => exact ih

theorem emitInst_spec (a : JitRegAlloc) (linIdx : Int) (pos : Nat) (inst : MirInst) :
    (∀ item ∈ emitInst a linIdx pos inst, item.Plain) ∧
      (emitInst a linIdx pos inst).filterMap Item.target? = branchTargets inst.op := by
  have hPlain := plain_emitPlain a linIdx pos inst
  have hNone := targets_insns (emitPlain a linIdx pos inst)
  unfold emitInst
  cases hOp : inst.op with
  | condbr cond trueBb falseBb =>
    have hLoad : Straight ((jraLoadOperand a cond .rax).1 ++
        [.test (jraLoadOperand a cond .rax).2]) :=
      straight_append.mpr ⟨straight_load .., rfl⟩
    refine ⟨fun item hMem => ?_, ?_⟩
    · rcases mem_append.mp hMem with hFront | hBranch
      · exact plain_insns hLoad item hFront
      · rcases mem_cons.mp hBranch with rfl | hLast
        · trivial
        · rw [mem_singleton.mp hLast]
          trivial
    · dsimp only
      rw [filterMap_append, targets_insns]
      rfl
  | br target =>
    refine ⟨fun item hMem => ?_, rfl⟩
    rw [mem_singleton.mp hMem]
    trivial
  | _ => exact ⟨hPlain, hNone⟩

/-- The emitter after the first `k` blocks. -/
def emitted (func : MirFunction) (a : JitRegAlloc) (k : Nat) : Emitter :=
  (func.blocks.zipIdx.take k).foldl (Emitter.block a) (emitStart func a)

/-- Where the code of a block starts. -/
def blockStart (func : MirFunction) (a : JitRegAlloc) (b : MirBlockId) :
    Nat := (emitted func a b).pos

theorem emitted_all : emitted func a func.blocks.length = emitBlocks func a := by
  unfold emitted emitBlocks
  rw [take_of_length_le (by rw [length_zipIdx])]

theorem emitted_succ {k : Nat} {block : MirBlock} (h : func.blocks[k]? = some block) :
    emitted func a (k + 1) = (emitted func a k).block a (block, k) := by
  have hEntry : func.blocks.zipIdx[k]? = some (block, k) := by
    rw [getElem?_zipIdx, h, Option.map_some, Nat.zero_add]
  unfold emitted
  rw [take_add_one, hEntry, foldl_append]
  rfl

section

theorem labels_foldl_inst (insts : List MirInst) (e : Emitter) :
    (insts.foldl (Emitter.inst a) e).labels = e.labels := by
  induction insts generalizing e with
  | nil => rfl
  | cons inst rest ih => exact ih (e.inst a inst)

theorem code_label (e : Emitter) (b : MirBlockId) : (e.label b).code = e.code := by
  unfold Emitter.label
  split <;> rfl

/-- What the instructions of a block add to the code. -/
theorem code_foldl_inst (insts : List MirInst) (e : Emitter) :
    ∃ more, (insts.foldl (Emitter.inst a) e).code = e.code ++ more ∧
      (∀ item ∈ more, item.Plain) ∧
      more.filterMap Item.target? = insts.flatMap fun inst => branchTargets inst.op := by
  induction insts generalizing e with
  | nil => exact ⟨[], (append_nil _).symm, nofun, rfl⟩
  | cons inst rest ih =>
    obtain ⟨more, hCode, hPlain, hTargets⟩ := ih (e.inst a inst)
    obtain ⟨hHere, hBranch⟩ := emitInst_spec a e.linIdx e.pos inst
    refine ⟨emitInst a e.linIdx e.pos inst ++ more, ?_, fun item hMem => ?_, ?_⟩
    · rw [← append_assoc]
      exact hCode
    · rcases mem_append.mp hMem with hFront | hRest
      · exact hHere item hFront
      · exact hPlain item hRest
    · rw [filterMap_append, hBranch, hTargets, flatMap_cons]

theorem code_block (e : Emitter) (entry : MirBlock × Nat) :
    ∃ more, (e.block a entry).code = e.code ++ more ∧ (∀ item ∈ more, item.Plain) ∧
      more.filterMap Item.target? = entry.1.insts.flatMap fun inst => branchTargets inst.op := by
  obtain ⟨more, hCode, hMore⟩ := code_foldl_inst (a := a) entry.1.insts (e.label entry.2)
  rw [code_label] at hCode
  exact ⟨more, hCode, hMore⟩

/-- What the first blocks add to the code, and what the others add behind. -/
theorem code_blocks (entries : List (MirBlock × Nat)) (e : Emitter) :
    ∃ more, (entries.foldl (Emitter.block a) e).code = e.code ++ more ∧
      (∀ item ∈ more, item.Plain) ∧
      more.filterMap Item.target? =
        (entries.flatMap fun entry => entry.1.insts).flatMap fun inst => branchTargets inst.op := by
  induction entries generalizing e with
  | nil => exact ⟨[], (append_nil _).symm, nofun, rfl⟩
  | cons entry rest ih =>
    obtain ⟨first, hFirst, hFirstPlain, hFirstTargets⟩ := code_block (a := a) e entry
    obtain ⟨more, hCode, hPlain, hTargets⟩ := ih (e.block a entry)
    refine ⟨first ++ more, ?_, fun item hMem => ?_, ?_⟩
    · rw [← append_assoc, ← hFirst]
      exact hCode
    · rcases mem_append.mp hMem with hFront | hRest
      · exact hFirstPlain item hFront
      · exact hPlain item hRest
    · rw [filterMap_append, hFirstTargets, hTargets, flatMap_cons, flatMap_append]

theorem flatMap_zipIdx (blocks : List MirBlock) (k : Nat) :
    ((blocks.zipIdx k).flatMap fun entry => entry.1.insts) = blocks.flatMap (·.insts) := by
  conv_rhs => rw [← zipIdx_map_fst k blocks, flatMap_map]

theorem emitBlocks_code (func : MirFunction) (a : JitRegAlloc) :
    (∀ item ∈ (emitBlocks func a).code, item.Plain) ∧
      (emitBlocks func a).code.filterMap Item.target? =
        (jitInsts func).flatMap fun inst => branchTargets inst.op := by
  obtain ⟨more, hCode, hPlain, hTargets⟩ :=
    code_blocks (a := a) func.blocks.zipIdx (emitStart func a)
  have hInsts : (func.blocks.zipIdx.flatMap fun entry => entry.1.insts) = jitInsts func :=
    flatMap_zipIdx func.blocks 0
  unfold emitBlocks
  rw [hCode]
  refine ⟨fun item hMem => ?_, ?_⟩
  · rcases mem_append.mp hMem with hStart | hMore
    · exact plain_insns (straight_prologue _ _) item hStart
    · exact hPlain item hMore
  · rw [filterMap_append, hTargets, hInsts]
    exact congrArg (· ++ _) (targets_insns _)

theorem blockStart_le (func : MirFunction) (a : JitRegAlloc) (b : MirBlockId) :
    blockStart func a b ≤ (itemBytes (emitBlocks func a).code).length := by
  obtain ⟨more, hCode, _⟩ := code_blocks (a := a) (func.blocks.zipIdx.drop b) (emitted func a b)
  have hSplit : emitBlocks func a = (func.blocks.zipIdx.drop b).foldl (Emitter.block a)
      (emitted func a b) := by
    unfold emitBlocks emitted
    rw [← foldl_append, take_append_drop]
  rw [hSplit, hCode, itemBytes_append, length_append]
  exact Nat.le_add_right _ _

/-- The first blocks have labels, with the places where their code starts. -/
theorem labels_emitted {k : Nat} (hk : k ≤ func.blocks.length) : (emitted func a k).labels =
    (List.range (min k maxLabels)).map fun b =>
    { blockId := b, codeOffset := blockStart func a b } := by
  induction k with
  | zero => rfl
  | succ k ih =>
    have hLabels := ih (Nat.le_of_succ_le hk)
    have hLength : (emitted func a k).labels.length = min k maxLabels := by
      rw [hLabels, length_map, length_range]
    rw [emitted_succ (getElem?_eq_getElem hk)]
    unfold Emitter.block
    rw [labels_foldl_inst]
    unfold Emitter.label
    by_cases hRoom : k < maxLabels
    · have hHere : min k maxLabels = k := min_eq_left hRoom.le
      have hNext : min (k + 1) maxLabels = k + 1 := min_eq_left hRoom
      rw [if_pos (by rw [hLength, hHere]; exact hRoom)]
      rw [hLabels, hHere, hNext, range_succ, map_append]
      rfl
    · have hFull := Nat.le_of_not_lt hRoom
      rw [if_neg (by rw [hLength, min_eq_right hFull]; exact lt_irrefl _), hLabels,
        min_eq_right hFull, min_eq_right (Nat.le_succ_of_le hFull)]

/-- A branch to a block with a label leads to its start, and one to another block to the end. -/
theorem targetOffset_eq (func : MirFunction) (a : JitRegAlloc) (endPos : Nat) (patch : JitPatch) :
    targetOffset (emitBlocks func a).labels endPos patch =
      if patch.blockId < min func.blocks.length maxLabels then blockStart func a patch.blockId
      else endPos := by
  have hLabels := labels_emitted (a := a) (le_refl func.blocks.length)
  rw [emitted_all] at hLabels
  unfold targetOffset
  rw [hLabels, find?_map]
  by_cases hb : patch.blockId < min func.blocks.length maxLabels
  · have hFind : (List.range (min func.blocks.length maxLabels)).find?
        ((fun label : JitBlockLabel => label.blockId == patch.blockId) ∘
          fun b => { blockId := b, codeOffset := blockStart func a b }) = some patch.blockId := by
      rw [find?_range_eq_some]
      refine ⟨beq_self_eq_true _, mem_range.mpr hb, fun j hj => ?_⟩
      exact (bne_iff_ne.mpr hj.ne)
    rw [hFind, if_pos hb]
    rfl
  · have hFind : (List.range (min func.blocks.length maxLabels)).find?
        ((fun label : JitBlockLabel => label.blockId == patch.blockId) ∘
          fun b => { blockId := b, codeOffset := blockStart func a b }) = none := by
      rw [find?_eq_none]
      intro j hj hEq
      exact hb (eq_of_beq hEq ▸ mem_range.mp hj)
    rw [hFind, if_neg hb]
    rfl

end

end Casprix.Jit
