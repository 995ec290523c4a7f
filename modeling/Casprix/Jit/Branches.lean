import Casprix.Jit.LastByte

/-! Where the branches of the compiled code lead, and where control can leave it. -/
namespace Casprix.Jit

open List Mir

variable {func : MirFunction} {a : JitRegAlloc} {code : List Byte} {labels : List JitBlockLabel}
  {endPos pos : Nat} {items : List Item}

/-- The places that an instruction can pass control to. A call comes back. -/
def Insn.nexts (insn : Insn) (pos : Nat) : List Int :=
  let behind : Int := pos + insn.encode.length
  match insn with
  | .ret => []
  | .jmp rel => [behind + rel]
  | .jnz rel | .call rel => [behind, behind + rel]
  | _ => [behind]

/-- The instructions of the compiled function. -/
def linked (func : MirFunction) (a : JitRegAlloc) : List Insn :=
  linkFrom (emitBlocks func a).labels (itemBytes (jitItems func a)).length 0 (jitItems func a)

/-- Each displacement leads to the start of the block that the branch names. -/
def BranchesLand (func : MirFunction) (a : JitRegAlloc) (code : List Byte) : Prop :=
  ∀ patch ∈ patches 0 (jitItems func a), ∀ b, patch.target = some b →
    b < func.blocks.length ∧
      patch.patchPos + 4 + readRel code patch.patchPos = (blockStart func a b : Int)

/-- The bytes are those of the instructions, and no instruction passes control to their end. -/
structure StaysInside (func : MirFunction) (a : JitRegAlloc) (code : List Byte) : Prop where
  bytes : codeBytes (linked func a) = code
  inside : ∀ before insn after, linked func a = before ++ insn :: after →
    ∀ next ∈ insn.nexts (codeBytes before).length, next < (code.length : Int)

/-- Branches name blocks that have labels. A last instruction with code that looks like a return is
one, and each block that is branched to has code from it on. Where no instruction has code, the
moves of the parameters do not look like a return. -/
structure BranchesFit (func : MirFunction) (a : JitRegAlloc) : Prop where
  labelled : ∀ inst ∈ jitInsts func, ∀ target ∈ branchTargets inst.op,
    target.getD 0 < min func.blocks.length maxLabels
  returns : ∀ inst, lastCoded func a = some inst → looksLikeRet a inst = true →
    isReturn inst.op = true ∧
    ∀ branch ∈ jitInsts func, ∀ target ∈ branchTargets branch.op,
      HasCodeFrom func a (target.getD 0)
  parameters : lastCoded func a = none →
    endsLikeRet (prologue a (func.params.map (·.valueId))) = false

section

theorem length_codeBytes_linkFrom (pos : Nat) (items : List Item) :
    (codeBytes (linkFrom labels endPos pos items)).length = (itemBytes items).length := by
  induction items generalizing pos with
  | nil => rfl
  | cons item rest ih =>
    rw [linkFrom, codeBytes_cons, itemBytes_cons, length_append, length_append, ih,
      length_encode_link]

theorem linkFrom_append (pos : Nat) (items items' : List Item) :
    linkFrom labels endPos pos (items ++ items') = linkFrom labels endPos pos items ++
      linkFrom labels endPos (pos + (itemBytes items).length) items' := by
  induction items generalizing pos with
  | nil => rfl
  | cons item rest ih =>
    rw [cons_append, linkFrom, linkFrom, ih, itemBytes_cons, length_append, Nat.add_assoc,
      cons_append]

/-- Each linked instruction comes from an item. -/
theorem exists_item_of_split {before after : List Insn} {insn : Insn}
    (h : linkFrom labels endPos pos items = before ++ insn :: after) :
    ∃ front item rest, items = front ++ item :: rest ∧
      insn = item.link labels endPos (pos + (itemBytes front).length) ∧
      (codeBytes before).length = (itemBytes front).length := by
  induction items generalizing pos before with
  | nil =>
    rw [linkFrom] at h
    exact absurd h.symm (by simp)
  | cons item rest ih =>
    rw [linkFrom] at h
    cases before with
    | nil =>
      obtain ⟨hHead, _⟩ := List.cons.inj h
      exact ⟨[], item, rest, rfl, hHead.symm, rfl⟩
    | cons first before =>
      obtain ⟨hHead, hTail⟩ := List.cons.inj h
      obtain ⟨front, item', rest', hItems, hInsn, hLength⟩ := ih hTail
      refine ⟨item :: front, item', rest', by rw [hItems]; rfl, ?_, ?_⟩
      · rw [hInsn, itemBytes_cons, length_append, Nat.add_assoc]
      · rw [codeBytes_cons, itemBytes_cons, length_append, length_append, hLength, ← hHead,
          length_encode_link]

/-- The patch of an item at `pos`. -/
def Item.patch? (pos : Nat) : Item → Option JitPatch
  | .insn _ => none
  | .jnzTo target => some { patchPos := pos + 2, target }
  | .jmpTo target => some { patchPos := pos + 1, target }

theorem mem_patches {patch : JitPatch} : patch ∈ patches pos items ↔
    ∃ front item rest, items = front ++ item :: rest ∧
      item.patch? (pos + (itemBytes front).length) = some patch := by
  have hCons : ∀ (pos : Nat) (item : Item) (rest : List Item), patches pos (item :: rest) =
      (item.patch? pos).toList ++ patches (pos + item.emitted.encode.length) rest := by
    intro pos item rest
    cases item <;> rfl
  induction items generalizing pos with
  | nil => exact iff_of_false not_mem_nil fun ⟨front, item, rest, h, _⟩ => by simp at h
  | cons first items ih =>
    rw [hCons, mem_append, Option.mem_toList]
    constructor
    · rintro (hHere | hLater)
      · exact ⟨[], first, items, rfl, hHere⟩
      · obtain ⟨front, item, rest, rfl, hPatch⟩ := ih.mp hLater
        refine ⟨first :: front, item, rest, rfl, ?_⟩
        rw [itemBytes_cons, length_append, ← Nat.add_assoc]
        exact hPatch
    · rintro ⟨front, item, rest, hItems, hPatch⟩
      cases front with
      | nil =>
        obtain ⟨hHead, _⟩ := List.cons.inj hItems
        exact .inl (hHead ▸ hPatch)
      | cons other front =>
        obtain ⟨hHead, hTail⟩ := List.cons.inj hItems
        refine .inr (ih.mpr ⟨front, item, rest, hTail, ?_⟩)
        rw [itemBytes_cons, length_append, ← Nat.add_assoc, ← hHead] at hPatch
        exact hPatch

end

section

section

variable (func : MirFunction) (a : JitRegAlloc)

theorem jitItems_eq :
    (jitItems func a = (emitBlocks func a).code ∧
      (itemBytes (emitBlocks func a).code).getLast? = some 0xC3) ∨
    jitItems func a = (emitBlocks func a).code ++
      ([Insn.movRImm64 .rax 0] ++ epilogue).map .insn := by
  by_cases hLast : (itemBytes (emitBlocks func a).code).getLast? = some 0xC3
  · exact .inl ⟨if_pos hLast, hLast⟩
  · exact .inr (if_neg hLast)

theorem plain_jitItems : ∀ item ∈ jitItems func a, item.Plain := by
  have hBlocks := (emitBlocks_code func a).1
  rcases jitItems_eq func a with ⟨hSame, _⟩ | hAdded
  · rwa [hSame]
  · have hFront : Straight ([Insn.movRImm64 .rax 0] ++ epilogue.dropLast) := rfl
    have hAlways := plain_return hFront
    rw [hAdded]
    intro item hMem
    rcases mem_append.mp hMem with hCode | hReturn
    · exact hBlocks item hCode
    · exact hAlways item hReturn

theorem exists_branch_iff (target : MirBlockRef) :
    (∃ item ∈ jitItems func a, item.target? = some target) ↔
      ∃ inst ∈ jitInsts func, target ∈ branchTargets inst.op := by
  have hBlocks := (emitBlocks_code func a).2
  have hItems : (jitItems func a).filterMap Item.target? =
      (jitInsts func).flatMap fun inst => branchTargets inst.op := by
    rcases jitItems_eq func a with ⟨hSame, _⟩ | hAdded
    · rwa [hSame]
    · rw [hAdded, filterMap_append, targets_insns, append_nil, hBlocks]
  rw [← mem_filterMap, hItems, mem_flatMap]

end

theorem codeBytes_linked (hAlloc : jitRegalloc func = some a)
    (hCode : jitCompileFunction func = some code) :
    codeBytes (linked func a) = code ∧ code.length = (itemBytes (jitItems func a)).length ∧
      code.length ≤ codeCap ∧ func.blocks ≠ [] := by
  unfold jitCompileFunction at hCode
  split at hCode
  · cases hCode
  · next hSupported =>
      rw [hAlloc, Option.bind_some] at hCode
      dsimp only at hCode
      split at hCode
      · cases hCode
      · next hRoom =>
          rw [Option.some.injEq] at hCode
          have hBytes : codeBytes (linked func a) = code :=
            (foldl_applyPatch [] (jitItems func a)).symm.trans hCode
          have hLength : code.length = (itemBytes (jitItems func a)).length := by
            rw [← hBytes]
            exact length_codeBytes_linkFrom 0 _
          refine ⟨hBytes, hLength, ?_, fun hNone => hSupported (.inl hNone)⟩
          rw [hLength]
          exact not_lt.mp fun hLong => hRoom (.inr hLong)

/-- What fitting branches mean for the code of the blocks. -/
structure CodeFits (func : MirFunction) (a : JitRegAlloc) : Prop where
  labelled : ∀ inst ∈ jitInsts func, ∀ target ∈ branchTargets inst.op,
    target.getD 0 < min func.blocks.length maxLabels
  returns : (itemBytes (emitBlocks func a).code).getLast? = some 0xC3 →
    (emitBlocks func a).code.getLast? = some (.insn .ret) ∧
      ∀ inst ∈ jitInsts func, ∀ target ∈ branchTargets inst.op,
        blockStart func a (target.getD 0) < (itemBytes (emitBlocks func a).code).length

theorem codeFits_iff (hAlloc : jitRegalloc func = some a)
    (hCode : jitCompileFunction func = some code) :
    CodeFits func a ↔ BranchesFit func a := by
  have hHoused := housed_of_jitRegalloc hAlloc
  obtain ⟨_, hLength, hCap, _⟩ := codeBytes_linked hAlloc hCode
  have hRoom : (itemBytes (emitBlocks func a).code).length ≤ codeCap := by
    refine le_trans ?_ (hLength ▸ hCap)
    rcases jitItems_eq func a with ⟨hSame, _⟩ | hAdded
    · rw [hSame]
    · rw [hAdded, itemBytes_append, length_append]
      exact Nat.le_add_right _ _
  have hLooks := getLast?_emitBlocks hHoused hRoom
  have hRet : (emitBlocks func a).code.getLast? = some (.insn .ret) ↔
      ∃ inst, lastCoded func a = some inst ∧ isReturn inst.op = true :=
        getLast?_emitBlocks_ret hHoused
  have hStart : ∀ b, blockStart func a b < (itemBytes (emitBlocks func a).code).length ↔
      HasCodeFrom func a b := blockStart_lt_iff hHoused
  constructor
  · intro hFit
    refine ⟨hFit.labelled, fun inst hLast hLike => ?_, fun hNone => ?_⟩
    · obtain ⟨hEnds, hBefore⟩ := hFit.returns (hLooks.mpr (.inl ⟨inst, hLast, hLike⟩))
      obtain ⟨inst', hLast', hReturn⟩ := hRet.mp hEnds
      rw [hLast, Option.some.injEq] at hLast'
      exact ⟨hLast' ▸ hReturn, fun branch hBranch target hTarget =>
        (hStart _).mp (hBefore branch hBranch target hTarget)⟩
    · by_contra hLike
      rw [Bool.not_eq_false] at hLike
      obtain ⟨inst, hLast, _⟩ := hRet.mp (hFit.returns (hLooks.mpr (.inr ⟨hNone, hLike⟩))).1
      rw [hNone] at hLast
      cases hLast
  · intro hFit
    refine ⟨hFit.labelled, fun hByte => ?_⟩
    rcases hLooks.mp hByte with ⟨inst, hLast, hLike⟩ | ⟨hNone, hLike⟩
    · obtain ⟨hReturn, hFrom⟩ := hFit.returns inst hLast hLike
      exact ⟨hRet.mpr ⟨inst, hLast, hReturn⟩, fun branch hBranch target hTarget =>
        (hStart _).mpr (hFrom branch hBranch target hTarget)⟩
    · rw [hFit.parameters hNone] at hLike
      cases hLike

theorem ends_with_return (hFit : CodeFits func a) :
    (jitItems func a).getLast? = some (.insn .ret) := by
  rcases jitItems_eq func a with ⟨hSame, hLast⟩ | hAdded
  · rw [hSame]
    exact (hFit.returns hLast).1
  · rw [hAdded, getLast?_append]
    rfl

theorem blockStart_lt (hFit : CodeFits func a) {inst : MirInst} {target : MirBlockRef}
    (hInst : inst ∈ jitInsts func) (hTarget : target ∈ branchTargets inst.op) :
    blockStart func a (target.getD 0) < (itemBytes (jitItems func a)).length := by
  have hBlocks := blockStart_le func a (target.getD 0)
  rcases jitItems_eq func a with ⟨hSame, hLast⟩ | hAdded
  · rw [hSame]
    exact (hFit.returns hLast).2 inst hInst target hTarget
  · rw [hAdded, itemBytes_append, length_append]
    exact lt_of_le_of_lt hBlocks (Nat.lt_add_of_pos_right (by decide))

end

section

variable {item : Item} {front rest : List Item} {target : MirBlockRef} {patch : JitPatch}

theorem linked_split (hItems : jitItems func a = front ++ item :: rest) :
    linked func a =
      linkFrom (emitBlocks func a).labels (itemBytes (jitItems func a)).length 0 front ++
        item.link (emitBlocks func a).labels (itemBytes (jitItems func a)).length
          (itemBytes front).length ::
          linkFrom (emitBlocks func a).labels (itemBytes (jitItems func a)).length
            ((itemBytes front).length + item.emitted.encode.length) rest := by
  unfold linked
  rw [hItems, linkFrom_append, Nat.zero_add]
  rfl

theorem patch_of_target (hTarget : item.target? = some target) (pos : Nat) :
    ∃ patch, item.patch? pos = some patch ∧ patch.target = target ∧
      patch.patchPos + 4 = pos + item.emitted.encode.length := by
  cases item with
  | insn i => cases hTarget
  | jnzTo t => exact ⟨_, rfl, Option.some.inj hTarget, rfl⟩
  | jmpTo t => exact ⟨_, rfl, Option.some.inj hTarget, rfl⟩

section

variable (hPatch : item.patch? pos = some patch)
include hPatch

theorem target_of_patch : item.target? = some patch.target := by
  cases item with
  | insn i => cases hPatch
  | jnzTo t => rw [← Option.some.inj hPatch]; rfl
  | jmpTo t => rw [← Option.some.inj hPatch]; rfl

theorem encode_branch :
    ∃ opcode : List Byte, patch.patchPos = pos + opcode.length ∧
      (item.link labels endPos pos).encode =
        opcode ++ u32 (targetOffset labels endPos patch - ((patch.patchPos + 4 : Nat) : Int)) := by
  cases item with
  | insn i => cases hPatch
  | jnzTo t =>
    rw [← Option.some.inj hPatch]
    exact ⟨[byte 0x0F, byte 0x85], rfl, rfl⟩
  | jmpTo t =>
    rw [← Option.some.inj hPatch]
    exact ⟨[byte 0xE9], rfl, rfl⟩

/-- A linked branch passes control to its target, or goes on behind. -/
theorem nexts_branch :
    (targetOffset labels endPos patch : Int) ∈ (item.link labels endPos pos).nexts pos ∧
      ∀ next ∈ (item.link labels endPos pos).nexts pos,
        next = targetOffset labels endPos patch ∨
          next = ((pos + item.emitted.encode.length : Nat) : Int) := by
  have hTarget : ∀ n : Nat, ((pos + n : Nat) : Int) +
      ((targetOffset labels endPos patch : Int) - ((pos + n : Nat) : Int)) =
        targetOffset labels endPos patch := fun n => by omega
  cases item with
  | insn i => cases hPatch
  | jnzTo t =>
    have hNexts : (Item.link labels endPos pos (.jnzTo t)).nexts pos =
        [((pos + 6 : Nat) : Int), targetOffset labels endPos patch] := by
      rw [← hTarget 6, ← Option.some.inj hPatch]
      rfl
    rw [hNexts]
    refine ⟨mem_cons_of_mem _ mem_cons_self, fun next hNext => ?_⟩
    rcases mem_cons.mp hNext with hBehind | hThere
    · exact .inr hBehind
    · exact .inl (mem_singleton.mp hThere)
  | jmpTo t =>
    have hNexts : (Item.link labels endPos pos (.jmpTo t)).nexts pos =
        [(targetOffset labels endPos patch : Int)] := by
      rw [← hTarget 5, ← Option.some.inj hPatch]
      rfl
    rw [hNexts]
    exact ⟨mem_cons_self, fun next hNext => .inl (mem_singleton.mp hNext)⟩

end

theorem nexts_straight {insn : Insn} (h : insn.straight = true) {next : Int}
    (hNext : next ∈ insn.nexts pos) : next ≤ ((pos + insn.encode.length : Nat) : Int) := by
  cases insn with
  | jnz rel | jmp rel | ret => cases h
  | call rel =>
    have hBack : rel ≤ 0 := of_decide_eq_true h
    rcases mem_cons.mp hNext with hBehind | hThere
    · rw [hBehind]
      exact le_rfl
    · rw [mem_singleton.mp hThere]
      exact (Int.add_le_add_left hBack _).trans (le_of_eq (Int.add_zero _))
  | _ =>
    rw [mem_singleton.mp hNext]
    exact le_rfl

theorem behind_mem_nexts {insn : Insn} (h : insn.straight = true) (pos : Nat) :
    ((pos + insn.encode.length : Nat) : Int) ∈ insn.nexts pos := by
  cases insn with
  | jnz rel | jmp rel | ret => cases h
  | _ => exact mem_cons_self

end

section

variable {item : Item} {front rest : List Item} {patch : JitPatch}

/-- The offset that a patch of the function leads to. -/
def leadsTo (func : MirFunction) (a : JitRegAlloc) (patch : JitPatch) : Nat :=
  targetOffset (emitBlocks func a).labels (itemBytes (jitItems func a)).length patch

theorem leadsTo_eq (func : MirFunction) (a : JitRegAlloc) (patch : JitPatch) :
    leadsTo func a patch =
      if patch.blockId < min func.blocks.length maxLabels then blockStart func a patch.blockId
      else (itemBytes (jitItems func a)).length := targetOffset_eq ..

theorem leadsTo_le (func : MirFunction) (a : JitRegAlloc) (patch : JitPatch) :
    leadsTo func a patch ≤ (itemBytes (jitItems func a)).length := by
  have hStart := blockStart_le func a patch.blockId
  have hBlocks : (itemBytes (emitBlocks func a).code).length ≤
      (itemBytes (jitItems func a)).length := by
    rcases jitItems_eq func a with ⟨hSame, _⟩ | hAdded
    · rw [hSame]
    · rw [hAdded, itemBytes_append, length_append]
      exact Nat.le_add_right _ _
  rw [leadsTo_eq]
  split
  · exact hStart.trans hBlocks
  · exact le_rfl

/-- The displacement in the bytes is the one of the linked branch. -/
theorem readRel_code (hAlloc : jitRegalloc func = some a)
    (hCode : jitCompileFunction func = some code) (hItems : jitItems func a = front ++ item :: rest)
    (hPatch : item.patch? (itemBytes front).length = some patch) :
    patch.patchPos + 4 + readRel code patch.patchPos = (leadsTo func a patch : Int) := by
  obtain ⟨hBytes, hLength, hCap, _⟩ := codeBytes_linked hAlloc hCode
  obtain ⟨opcode, hPos, hEncode⟩ := encode_branch hPatch
  have hLead := leadsTo_le func a patch
  rw [linked_split hItems, codeBytes_append, codeBytes_cons, hEncode] at hBytes
  generalize hFirst : codeBytes (linkFrom _ _ 0 front) = first at hBytes
  have hFirstLength : first.length = (itemBytes front).length := by
    rw [← hFirst, length_codeBytes_linkFrom]
  have hPlace : patch.patchPos = (first ++ opcode).length := by
    rw [hPos, length_append, hFirstLength]
  have hSplit : code = (first ++ opcode) ++ u32
    (leadsTo func a patch - ((patch.patchPos + 4 : Nat) : Int)) ++
      codeBytes (linkFrom (emitBlocks func a).labels (itemBytes (jitItems func a)).length
        ((itemBytes front).length + item.emitted.encode.length) rest) := by
    rw [← hBytes]
    simp only [append_assoc]
    rfl
  have hRoom : patch.patchPos + 4 ≤ code.length := by
    rw [hSplit, length_append, length_append, length_u32, ← hPlace]
    exact Nat.le_add_right _ _
  have hSmall : codeCap = 8192 := rfl
  have hRead : readRel code patch.patchPos =
      leadsTo func a patch - ((patch.patchPos + 4 : Nat) : Int) := by
    conv_lhs => rw [hSplit]
    rw [hPlace]
    exact readRel_u32 _ _ (by omega) (by omega)
  rw [hRead]
  omega

end

section

variable {front rest : List Item} {item : Item} {target : MirBlockRef}

theorem leadsTo_start (hFit : CodeFits func a) (hItems : jitItems func a = front ++ item :: rest)
    {patch : JitPatch} (hPatch : item.patch? (itemBytes front).length = some patch) :
    leadsTo func a patch = blockStart func a patch.blockId ∧
      patch.blockId < func.blocks.length ∧
      leadsTo func a patch < (itemBytes (jitItems func a)).length := by
  have hMem : item ∈ jitItems func a := by
    rw [hItems]
    exact mem_append_right _ mem_cons_self
  obtain ⟨inst, hInst, hTarget⟩ :=
    (exists_branch_iff func a _).mp ⟨item, hMem, target_of_patch hPatch⟩
  have hLabelled := hFit.labelled inst hInst _ hTarget
  have hStart : leadsTo func a patch = blockStart func a patch.blockId :=
    (leadsTo_eq func a patch).trans (if_pos hLabelled)
  refine ⟨hStart, hLabelled.trans_le (min_le_left _ _), ?_⟩
  rw [hStart]
  exact blockStart_lt hFit hInst hTarget

theorem branches_land (hAlloc : jitRegalloc func = some a)
    (hCode : jitCompileFunction func = some code)
    (hFit : CodeFits func a) : BranchesLand func a code := by
  intro patch hMem b hb
  obtain ⟨front, item, rest, hItems, hPatch⟩ := mem_patches.mp hMem
  rw [Nat.zero_add] at hPatch
  have hBlock : patch.blockId = b := by
    unfold JitPatch.blockId
    rw [hb]
    rfl
  obtain ⟨hStart, hLt, _⟩ := leadsTo_start hFit hItems hPatch
  rw [hBlock] at hStart hLt
  exact ⟨hLt, by rw [readRel_code hAlloc hCode hItems hPatch, hStart]⟩

theorem behind_lt (hFit : CodeFits func a) (hItems : jitItems func a = front ++ item :: rest)
    (hItem : item ≠ .insn .ret) :
    (itemBytes front).length + item.emitted.encode.length <
      (itemBytes (jitItems func a)).length := by
  have hLast := ends_with_return hFit
  rw [hItems] at hLast ⊢
  cases rest with
  | nil =>
    rw [getLast?_append] at hLast
    exact absurd (Option.some.inj hLast) hItem
  | cons next rest =>
    have hNext : 0 < next.emitted.encode.length := length_pos_of_ne_nil (encode_ne_nil _)
    rw [itemBytes_append, itemBytes_cons, itemBytes_cons, length_append, length_append,
      length_append]
    omega

theorem stays_inside (hAlloc : jitRegalloc func = some a)
    (hCode : jitCompileFunction func = some code)
    (hFit : CodeFits func a) : StaysInside func a code := by
  obtain ⟨hBytes, hLength, _, _⟩ := codeBytes_linked hAlloc hCode
  refine ⟨hBytes, fun before insn after hSplit next hNext => ?_⟩
  obtain ⟨front, item, rest, hItems, hInsn, hBefore⟩ := exists_item_of_split hSplit
  have hPlain := plain_jitItems func a item (hItems ▸ mem_append_right _ mem_cons_self)
  have hBehind := behind_lt hFit hItems
  rw [Nat.zero_add] at hInsn
  rw [hBefore, hInsn] at hNext
  rw [hLength]
  cases hPatch : item.patch? (itemBytes front).length with
  | some patch =>
    obtain ⟨_, _, hStart⟩ := leadsTo_start hFit hItems hPatch
    have hBranch : item ≠ .insn .ret := fun hEq => by
      rw [hEq] at hPatch
      cases hPatch
    rcases (nexts_branch hPatch).2 next hNext with hThere | hHere
    · rw [hThere]
      exact Int.ofNat_lt.mpr hStart
    · rw [hHere]
      exact Int.ofNat_lt.mpr (hBehind hBranch)
  | none =>
    cases item with
    | insn i =>
      have hStraight : i.straight = true := hPlain.resolve_right fun hRet => by
        rw [hRet] at hNext
        cases hNext
      have hEnd := hBehind fun hEq => by
        rw [Item.insn.inj hEq] at hStraight
        cases hStraight
      exact lt_of_le_of_lt (nexts_straight hStraight hNext) (Int.ofNat_lt.mpr hEnd)
    | jnzTo t => cases hPatch
    | jmpTo t => cases hPatch

end

section

variable {front rest : List Item} {item : Item} {target : MirBlockRef}

theorem nexts_inside (hStays : StaysInside func a code)
    (hItems : jitItems func a = front ++ item :: rest)
    {next : Int} (hNext : next ∈
      (item.link (emitBlocks func a).labels (itemBytes (jitItems func a)).length
      (itemBytes front).length).nexts (itemBytes front).length) : next < (code.length : Int) := by
  have hInside := hStays.inside _ _ _ (linked_split hItems) next
  rw [length_codeBytes_linkFrom] at hInside
  exact hInside hNext

/-- A branch that stays inside is labelled, and its block starts inside. -/
theorem labelled_of_inside (hAlloc : jitRegalloc func = some a)
    (hCode : jitCompileFunction func = some code)
    (hStays : StaysInside func a code) {inst : MirInst}
    (hInst : inst ∈ jitInsts func) (hTarget : target ∈ branchTargets inst.op) :
    target.getD 0 < min func.blocks.length maxLabels ∧
      blockStart func a (target.getD 0) < code.length := by
  obtain ⟨_, hLength, _, hBlocks⟩ := codeBytes_linked hAlloc hCode
  obtain ⟨item, hMem, hItem⟩ := (exists_branch_iff func a target).mpr ⟨inst, hInst, hTarget⟩
  obtain ⟨front, rest, hItems⟩ := append_of_mem hMem
  obtain ⟨patch, hPatch, hSame, _⟩ := patch_of_target hItem (itemBytes front).length
  have hThere : leadsTo func a patch < code.length :=
    Int.ofNat_lt.mp (nexts_inside hStays hItems (nexts_branch hPatch).1)
  have hBlock : patch.blockId = target.getD 0 := by
    unfold JitPatch.blockId
    rw [hSame]
  rw [leadsTo_eq, hBlock] at hThere
  by_cases hLabelled : target.getD 0 < min func.blocks.length maxLabels
  · rw [if_pos hLabelled] at hThere
    exact ⟨hLabelled, hThere⟩
  · rw [if_neg hLabelled, hLength] at hThere
    exact absurd hThere (lt_irrefl _)

theorem getLast?_encode_jump (target : MirBlockRef) :
    (Item.jnzTo target).emitted.encode.getLast? = some 0 ∧
      (Item.jmpTo target).emitted.encode.getLast? = some 0 := ⟨rfl, rfl⟩

section

variable (hAlloc : jitRegalloc func = some a) (hCode : jitCompileFunction func = some code)
  (hStays : StaysInside func a code)
include hAlloc hCode hStays

/-- Code that ends like a return and stays inside ends with one. -/
theorem ends_with_ret (hLast : (itemBytes (jitItems func a)).getLast? = some 0xC3) :
    (jitItems func a).getLast? = some (.insn .ret) := by
  obtain ⟨_, hLength, _, _⟩ := codeBytes_linked hAlloc hCode
  rcases eq_nil_or_concat (jitItems func a) with hNone | ⟨front, item, hItems⟩
  · rw [hNone] at hLast
    cases hLast
  · rw [concat_eq_append] at hItems
    have hPlain := plain_jitItems func a item (hItems ▸ mem_append_right _ mem_cons_self)
    have hEnd : (itemBytes front).length + item.emitted.encode.length = code.length := by
      rw [hLength, hItems, itemBytes_append, itemBytes_cons, length_append, length_append]
      rfl
    have hByte : item.emitted.encode.getLast? = some 0xC3 := by
      rw [hItems, itemBytes_append, itemBytes_cons] at hLast
      have hNil : itemBytes [] = [] := rfl
      rw [hNil, append_nil, getLast?_append_of_ne_nil _ (encode_ne_nil _)] at hLast
      exact hLast
    rw [hItems, getLast?_append]
    cases item with
    | jnzTo t => cases (getLast?_encode_jump t).1.symm.trans hByte
    | jmpTo t => cases (getLast?_encode_jump t).2.symm.trans hByte
    | insn i =>
      by_cases hRet : i = .ret
      · rw [hRet]
        rfl
      · have hBehind := nexts_inside hStays hItems (behind_mem_nexts (hPlain.resolve_right hRet) _)
        exact absurd (Int.ofNat_lt.mp hBehind) (not_lt.mpr hEnd.symm.le)

theorem code_fits : CodeFits func a := by
  obtain ⟨_, hLength, _, _⟩ := codeBytes_linked hAlloc hCode
  have hBranch : ∀ inst ∈ jitInsts func, ∀ target ∈ branchTargets inst.op, _ :=
    fun inst hInst target hTarget => labelled_of_inside hAlloc hCode hStays hInst hTarget
  refine ⟨fun inst hInst target hTarget =>
    (hBranch inst hInst target hTarget).1, fun hLast => ?_⟩
  have hSame : jitItems func a = (emitBlocks func a).code := if_pos hLast
  rw [← hSame] at hLast ⊢
  refine ⟨ends_with_ret hAlloc hCode hStays hLast, fun inst hInst target hTarget => ?_⟩
  rw [← hLength]
  exact (hBranch inst hInst target hTarget).2

end

end

/-- Every branch leads to the block that it names and control never runs past the end of the code,
exactly for the functions whose branches fit. -/
theorem jit_compile_function_branches_exact (hAlloc : jitRegalloc func = some a)
    (hCode : jitCompileFunction func = some code) :
    BranchesLand func a code ∧ StaysInside func a code ↔ BranchesFit func a := by
  rw [← codeFits_iff hAlloc hCode]
  constructor
  · rintro ⟨_, hStays⟩
    exact code_fits hAlloc hCode hStays
  · intro hFit
    exact ⟨branches_land hAlloc hCode hFit, stays_inside hAlloc hCode hFit⟩

/-- One block more than there are labels. Each passes control to the next, and the last returns. -/
def chain : MirFunction where
  name := "chain"
  blocks := (List.range maxLabels).map (fun b => { insts := [{ op := .br (some (b + 1)) }] }) ++
    [{ insts := [{ op := .retVoid }] }]

/-- A loop that counts down, with the return in the middle of the block list. -/
def countdown : MirFunction where
  name := "countdown"
  nextValueId := 5
  params := [{ name := "n", type := none, valueId := 1 }]
  blocks := [
    { insts := [{ op := .br (some 2) }] },
    { insts := [{ op := .ret 1 }] },
    { insts := [
        { op := .constInt 0, result := 2 },
        { op := .binary .cmpGt 1 2, result := 3 },
        { op := .condbr 3 (some 2) (some 1) }] }]

/-- The last block of the chain has no label, and the jump to it leads behind the code. -/
theorem chain_runs_past_the_end : ∃ a code, jitRegalloc chain = some a ∧
    jitCompileFunction chain = some code ∧
      ¬(BranchesLand chain a code ∧ StaysInside chain a code) := by
  have hAllocated : (jitRegalloc chain).isSome = true := by decide +kernel
  have hCompiled : (jitCompileFunction chain).isSome = true := by decide +kernel
  obtain ⟨a, hAlloc⟩ := Option.isSome_iff_exists.mp hAllocated
  obtain ⟨code, hCode⟩ := Option.isSome_iff_exists.mp hCompiled
  refine ⟨a, code, hAlloc, hCode, fun hBoth => ?_⟩
  have hBranch : { op := .br (some 64) } ∈ jitInsts chain := by decide +kernel
  have hLabelled := (code_fits hAlloc hCode hBoth.2).labelled _ hBranch (some 64) mem_cons_self
  have hNot : ¬(64 < min chain.blocks.length maxLabels) := by decide +kernel
  exact hNot hLabelled

theorem countdown_branches : ∃ a code, jitRegalloc countdown = some a ∧
    jitCompileFunction countdown = some code ∧
    (BranchesLand countdown a code ∧ StaysInside countdown a code ↔
      BranchesFit countdown a) := by
  have hAllocated : (jitRegalloc countdown).isSome = true := by decide +kernel
  have hCompiled : (jitCompileFunction countdown).isSome = true := by decide +kernel
  obtain ⟨a, hAlloc⟩ := Option.isSome_iff_exists.mp hAllocated
  obtain ⟨code, hCode⟩ := Option.isSome_iff_exists.mp hCompiled
  exact ⟨a, code, hAlloc, hCode, jit_compile_function_branches_exact hAlloc hCode⟩

end Casprix.Jit
