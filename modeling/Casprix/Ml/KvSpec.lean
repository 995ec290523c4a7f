import Casprix.Library.Refinement
import Casprix.Ml.KvCache
import Mathlib.Data.List.Find
import Mathlib.Data.List.Range

/-! What the cache is for: every sequence is the list of its tokens. A layout is
correct when its calls on one layer and head store and keep these. -/
namespace Casprix.Ml

open List

variable {F : Type*}

/-- The two vectors of a token for every layer and head. -/
structure KvToken (F : Type*) where
  k : Nat → Nat → Nat → F
  v : Nat → Nat → Nat → F

/-- The tokens of each slot in use. -/
abbrev KvSpec (F : Type*) := Nat → Option (List (KvToken F))

/-- The tokens of a chunk that is given as one array for each layer and head. -/
def chunkTokens (cfg : KvCacheConfig) (tokens : Nat) (k v : Nat → Nat → Nat → F) :
    List (KvToken F) :=
  (List.range tokens).map fun t =>
    { k := fun layer head d => k layer head (t * cfg.headDim + d)
      v := fun layer head d => v layer head (t * cfg.headDim + d) }

def setSlot {α : Type*} (a : Nat → α) (i : Nat) (x : α) :
    Nat → α := fun j => if j = i then x else a j

/-- Tokens are appended when there is a layer and a head to give them for. -/
def appendTokens (cfg : KvCacheConfig) (a : KvSpec F) (i : Nat)
    (new : List (KvToken F)) : KvSpec F :=
  if cfg.lhCount = 0 then a else setSlot a i ((a i).map fun tokens => tokens ++ new)

variable (cfg : KvCacheConfig)

/-- The vectors of one layer and head, one after the other. -/
def vectors (tokens : List (KvToken F)) (vector : KvToken F → Nat → F) : List F :=
  tokens.flatMap fun token => (List.range cfg.headDim).map (vector token)

def specStep (op : KvOp F) (a : KvSpec F) : KvReply F × KvSpec F :=
  match op with
  | .allocSeq =>
    match (List.range cfg.maxBatch).find? fun i => (a i).isNone with
    | none => (.seqId (-1), a)
    | some i => (.seqId i, setSlot a i (some []))
  | .writeToken seq k v => (.done, appendTokens cfg a seq [⟨k, v⟩])
  | .prefillChunk seq tokens k v => (.done, appendTokens cfg a seq (chunkTokens cfg tokens k v))
  | .rollback seq newLen => (.done, setSlot a seq ((a seq).map fun tokens => tokens.take newLen))
  | .freeSeq seq => (.done, setSlot a seq none)
  | .readRange seq layer head start stop _ _ =>
    let tokens := (((a seq).getD []).drop start).take (stop - start)
    (.range (vectors cfg tokens fun token => token.k layer head)
      (vectors cfg tokens fun token => token.v layer head), a)
  | .seqLen seq => (.length ((a seq).getD []).length, a)

/-- The slot is in use and `ok` holds of its length. -/
def inUse (a : KvSpec F) (i : Nat) (ok : Nat → Prop) : Prop :=
  i < cfg.maxBatch ∧ ∃ tokens, a i = some tokens ∧ ok tokens.length

/-- Calls name slots in use, write below the maximal length, roll back to a
shorter length and read what was written. -/
def kvAllowed (op : KvOp F) (a : KvSpec F) : Prop :=
  match op with
  | .allocSeq => True
  | .writeToken seq _ _ => inUse cfg a seq fun len => len < cfg.maxSeqLen
  | .prefillChunk seq tokens _ _ => inUse cfg a seq fun len => len + tokens ≤ cfg.maxSeqLen
  | .rollback seq newLen => inUse cfg a seq fun len => newLen ≤ len
  | .freeSeq seq => inUse cfg a seq fun _ => True
  | .readRange seq layer head start stop _ _ =>
    layer < cfg.numLayers ∧ head < cfg.numKvHeads ∧ start ≤ stop ∧
      inUse cfg a seq fun len => stop ≤ len
  | .seqLen seq => inUse cfg a seq fun _ => True

/-- The pages for this many positions. -/
def pagesFor (len : Nat) : Nat := (len + cfg.kvPageSize - 1) / cfg.kvPageSize

namespace KvCacheConfig

/-- The size of the two blocks of a slot does not wrap around. -/
def BlocksFit : Prop :=
  cfg.lhCount * (cfg.maxSeqLen * cfg.headDim) * 4 < 2 ^ 64

/-- What the paged layout computes for its table and its pages stays below the end of `int`. -/
structure PagesFit (cfg : KvCacheConfig) : Prop where
  maxPages : cfg.maxSeqLen + cfg.kvPageSize - 1 < 2 ^ 31
  pool : cfg.maxBatch * (cfg.lhCount * pagesFor cfg cfg.maxSeqLen) + 128 < 2 ^ 31
  offset : (min cfg.kvPageSize cfg.maxSeqLen - 1) * cfg.headDim < 2 ^ 31

def SizesFit : Prop :=
  match cfg.layout with
  | .contiguous => cfg.BlocksFit
  | .paged => cfg.PagesFit

/-- So does the offset of the last of this many vectors in an array of the caller. -/
def RangeFits (cfg : KvCacheConfig) (n : Nat) : Prop := (n - 1) * cfg.headDim < 2 ^ 31

end KvCacheConfig

/-- The vectors that a call is given, or asks for, can be reached by an `int`. -/
def KvOp.RangeFits (cfg : KvCacheConfig) : KvOp F → Prop
  | .prefillChunk _ tokens _ _ => cfg.RangeFits tokens
  | .readRange _ _ _ start stop _ _ => cfg.RangeFits (stop - start)
  | _ => True

/-- A sequence while a chunk is written: some layers and heads have it already. -/
structure PartialSeq (F : Type*) where
  len : Nat
  stored : Nat → Nat → List (KvToken F)

namespace PartialSeq

def whole (tokens : List (KvToken F)) : PartialSeq F := ⟨tokens.length, fun _ _ => tokens⟩

/-- The chunk is written for one more layer and head; after the last the length grows. -/
def extend (s : PartialSeq F) (layer head : Nat) (new : List (KvToken F)) :
    PartialSeq F where
  len := if layer + 1 = cfg.numLayers ∧
    head + 1 = cfg.numKvHeads then s.len + new.length else s.len
  stored := fun layer' head' =>
    if layer' = layer ∧ head' = head then s.stored layer head ++ new else s.stored layer' head'

end PartialSeq

/-- What each layer and head of each slot holds. -/
abbrev KvPartial (F : Type*) := Nat → Option (PartialSeq F)

def KvSpec.whole (a : KvSpec F) : KvPartial F := fun i => (a i).map PartialSeq.whole

/-- Two descriptions agree on the layers, heads and slots there are. -/
def SameSlots (cfg : KvCacheConfig) (a b : KvPartial F) : Prop :=
  ∀ i < cfg.maxBatch, (a i).isSome = (b i).isSome ∧ ∀ s t, a i = some s → b i = some t →
    s.len = t.len ∧ ∀ layer < cfg.numLayers, ∀ head < cfg.numKvHeads,
      s.stored layer head = t.stored layer head

theorem intVal_of_lt {n : Nat} (h : n < 2 ^ 31) : intVal n = n := by
  rw [intVal]
  exact Int.bmod_eq_of_le (by omega) (by omega)

theorem intIndex_of_lt {n : Nat} (h : n < 2 ^ 31) : intIndex n = some n := by
  rw [intIndex, intVal_of_lt h]
  rfl

theorem lhPairs_eq (numLayers numKvHeads : Nat) :
    lhPairs numLayers numKvHeads = (List.range (numLayers * numKvHeads)).map fun n =>
      (n / numKvHeads, n % numKvHeads) := by
  induction numLayers with
  | zero => simp [lhPairs]
  | succ n ih =>
    rw [lhPairs, range_succ, flatMap_append, ← lhPairs, ih, Nat.succ_mul, range_add, map_append]
    refine congrArg _ ?_
    rw [flatMap_cons, flatMap_nil, append_nil, map_map]
    refine map_congr_left fun head hHead => ?_
    have hLt := mem_range.mp hHead
    have hPos : 0 < numKvHeads := by omega
    simp only [Function.comp_apply, Prod.mk.injEq]
    constructor
    · rw [Nat.mul_comm, Nat.mul_add_div hPos, Nat.div_eq_of_lt hLt, Nat.add_zero]
    · rw [Nat.mul_comm, Nat.mul_add_mod, Nat.mod_eq_of_lt hLt]

/-- A loop over all layers and heads, by what holds after the first `n` of them. -/
theorem forPairs_induction (call : KvCache F → Nat → Nat → Option (KvCache F))
    (numLayers numKvHeads : Nat) (inv : Nat → KvCache F → Prop)
    {c : KvCache F} (hStart : inv 0 c)
    (hCall : ∀ n < numLayers * numKvHeads, ∀ c, inv n c →
      ∃ d, call c (n / numKvHeads) (n % numKvHeads) = some d ∧ inv (n + 1) d) :
    ∃ d, forPairs call c (lhPairs numLayers numKvHeads) = some d ∧
      inv (numLayers * numKvHeads) d := by
  rw [lhPairs_eq]
  have hUpTo : ∀ n ≤ numLayers * numKvHeads, ∃ d,
      forPairs call c ((List.range n).map fun n => (n / numKvHeads, n % numKvHeads)) = some d ∧
        inv n d := by
    intro n
    induction n with
    | zero => exact fun _ => ⟨c, rfl, hStart⟩
    | succ n ih =>
      intro hLe
      obtain ⟨d, hRun, hInv⟩ := ih (by omega)
      obtain ⟨e, hNext, hInv'⟩ := hCall n (by omega) d hInv
      refine ⟨e, ?_, hInv'⟩
      rw [forPairs] at hRun ⊢
      rw [range_succ, map_append, foldlM_append, hRun]
      simp [hNext]
  exact hUpTo _ le_rfl

theorem last_pair_iff {numLayers numKvHeads n : Nat} (h : n < numLayers * numKvHeads) :
    n / numKvHeads + 1 = numLayers ∧ n % numKvHeads + 1 = numKvHeads ↔
      n + 1 = numLayers * numKvHeads := by
  have hPos : 0 < numKvHeads := Nat.pos_of_mul_pos_left (Nat.zero_lt_of_lt h)
  have hSplit := Nat.div_add_mod n numKvHeads
  constructor
  · rintro ⟨hLayer, hHead⟩
    calc n + 1
      _ = numKvHeads * (n / numKvHeads) + (n % numKvHeads + 1) := by omega
      _ = (n / numKvHeads + 1) * numKvHeads := by rw [hHead, Nat.succ_mul, Nat.mul_comm]
      _ = numLayers * numKvHeads := by rw [hLayer]
  · intro hLast
    have hMod : (n + 1) % numKvHeads = 0 := hLast ▸ Nat.mul_mod_left _ _
    have hLe : n % numKvHeads + 1 ≤ numKvHeads := Nat.mod_lt n hPos
    have hHead : n % numKvHeads + 1 = numKvHeads := by
      by_contra hOther
      have hLt : n % numKvHeads + 1 < numKvHeads := by omega
      rw [← hSplit, Nat.add_assoc, Nat.mul_add_mod, Nat.mod_eq_of_lt hLt] at hMod
      exact Nat.succ_ne_zero _ hMod
    refine ⟨Nat.eq_of_mul_eq_mul_right hPos ?_, hHead⟩
    rw [← hLast, Nat.succ_mul, Nat.mul_comm]
    omega

/-- A slot after the chunk was written for the first `n` pairs. -/
def afterPairs (cfg : KvCacheConfig) (tokens new : List (KvToken F)) (n : Nat) : PartialSeq F where
  len := if n = cfg.lhCount ∧ 0 < n then tokens.length + new.length else tokens.length
  stored := fun layer head => if cfg.lhIndex layer head < n then tokens ++ new else tokens

variable {cfg : KvCacheConfig} {head : Nat} {α : Type*}

theorem lhIndex_lt {layer : Nat} (hLayer : layer < cfg.numLayers) (hHead : head < cfg.numKvHeads) :
    cfg.lhIndex layer head < cfg.lhCount := by
  calc layer * cfg.numKvHeads + head
    _ < layer * cfg.numKvHeads + cfg.numKvHeads := Nat.add_lt_add_left hHead _
    _ = (layer + 1) * cfg.numKvHeads := (Nat.succ_mul _ _).symm
    _ ≤ cfg.numLayers * cfg.numKvHeads := Nat.mul_le_mul_right _ hLayer

theorem lhIndex_div {layer : Nat} (hHead : head < cfg.numKvHeads) :
    cfg.lhIndex layer head / cfg.numKvHeads = layer := by
  rw [KvCacheConfig.lhIndex, Nat.mul_comm, Nat.mul_add_div (Nat.zero_lt_of_lt hHead),
    Nat.div_eq_of_lt hHead, Nat.add_zero]

theorem lhIndex_mod {layer : Nat} (hHead : head < cfg.numKvHeads) :
    cfg.lhIndex layer head % cfg.numKvHeads = head := by
  rw [KvCacheConfig.lhIndex, Nat.mul_comm, Nat.mul_add_mod, Nat.mod_eq_of_lt hHead]

theorem lhIndex_divMod (cfg : KvCacheConfig) (n : Nat) :
    cfg.lhIndex (n / cfg.numKvHeads) (n % cfg.numKvHeads) = n := by
  rw [KvCacheConfig.lhIndex, Nat.mul_comm, Nat.div_add_mod]

theorem lhIndex_inj (layer layer' : Nat) {head' : Nat} (hHead : head < cfg.numKvHeads)
    (hHead' : head' < cfg.numKvHeads) :
    cfg.lhIndex layer head = cfg.lhIndex layer' head' ↔ layer = layer' ∧ head = head' := by
  constructor
  · intro hSame
    have hDiv := congrArg (fun n => n / cfg.numKvHeads) hSame
    have hMod := congrArg (fun n => n % cfg.numKvHeads) hSame
    simp only [lhIndex_div hHead, lhIndex_div hHead', lhIndex_mod hHead,
      lhIndex_mod hHead'] at hDiv hMod
    exact ⟨hDiv, hMod⟩
  · rintro ⟨rfl, rfl⟩
    rfl

theorem extend_afterPairs (tokens new : List (KvToken F)) {n : Nat} (hn : n < cfg.lhCount) :
    let s := (afterPairs cfg tokens new n).extend cfg (n / cfg.numKvHeads) (n % cfg.numKvHeads) new
    s.len = (afterPairs cfg tokens new (n + 1)).len ∧
      ∀ layer < cfg.numLayers, ∀ head < cfg.numKvHeads,
        s.stored layer head = (afterPairs cfg tokens new (n + 1)).stored layer head := by
  have hPos : 0 < cfg.numKvHeads := Nat.pos_of_mul_pos_left (Nat.zero_lt_of_lt hn)
  refine ⟨?_, fun layer _ head hHead => ?_⟩
  · have hLast := last_pair_iff hn
    simp only [PartialSeq.extend, afterPairs, hLast, hn.ne, false_and, if_false]
    simp only [KvCacheConfig.lhCount, Nat.succ_pos, and_true]
  · have hSame := lhIndex_inj layer (n / cfg.numKvHeads) hHead (Nat.mod_lt n hPos)
    rw [lhIndex_divMod] at hSame
    simp only [PartialSeq.extend, afterPairs, ← hSame, lhIndex_divMod, Nat.lt_irrefl, if_false]
    by_cases hHere : cfg.lhIndex layer head = n
    · rw [if_pos hHere, if_pos (by omega)]
    · rw [if_neg hHere]
      exact if_congr (by omega) rfl rfl

/-- What holds of the slots is kept by the writes on single layers and heads. -/
structure LayoutWrites (cfg : KvCacheConfig) (R : KvCache F → KvPartial F → Prop) : Prop where
  config : ∀ {c a}, R c a → c.config = cfg
  congr : ∀ {c a b}, R c a → SameSlots cfg a b → R c b
  prefill : ∀ {c a i s layer head k v tokens}, R c a → i < cfg.maxBatch → a i = some s →
    layer < cfg.numLayers → head < cfg.numKvHeads → (s.stored layer head).length = s.len →
    s.len + tokens ≤ cfg.maxSeqLen → (cfg.layout = .paged → cfg.RangeFits tokens) →
    ∃ d, cpxKvcachePrefill c i layer head (k layer head) (v layer head) tokens = some d ∧
      R d (setSlot a i (some (s.extend cfg layer head (chunkTokens cfg tokens k v))))

/-- The calls of a layout on single slots, layers and heads, described by what the
slots hold. -/
structure LayoutCorrect (cfg : KvCacheConfig) (R : KvCache F → KvPartial F → Prop) : Prop
    extends LayoutWrites cfg R where
  seqLen : ∀ {c a i s}, R c a → i < cfg.maxBatch → a i = some s → (c.seqs i).seqLen = s.len
  free_iff : ∀ {c a i}, R c a → i < cfg.maxBatch → ((c.seqs i).seqId < 0 ↔ a i = none)
  allocSeq : ∀ {c a i}, R c a → i < cfg.maxBatch → a i = none →
    ((List.range c.config.maxBatch).find? fun i => decide ((c.seqs i).seqId < 0)) = some i →
    R (cpxKvcacheAllocSeq c 0).2 (setSlot a i (some (.whole [])))
  rollback : ∀ {c a i tokens newLen}, R c a → i < cfg.maxBatch →
    a i = some (.whole tokens) →
    newLen ≤ tokens.length →
    ∃ d, cpxKvcacheRollback c i newLen = some d ∧
      R d (setSlot a i (some (.whole (tokens.take newLen))))
  freeSeq : ∀ {c a i s}, R c a → i < cfg.maxBatch → a i = some s →
    ∃ d, cpxKvcacheFreeSeq c i = some d ∧ R d (setSlot a i none)
  readRange : ∀ {c a i tokens layer head start stop} kOut vOut, R c a → i < cfg.maxBatch →
    a i = some (.whole tokens) → layer < cfg.numLayers → head < cfg.numKvHeads →
    start ≤ stop → stop ≤ tokens.length →
      (cfg.layout = .paged → cfg.RangeFits (stop - start)) →
    ∃ out, cpxKvcacheReadRange c i layer head start stop kOut vOut = some out ∧
      (List.range ((stop - start) * cfg.headDim)).map out.1 =
        vectors cfg ((tokens.drop start).take (stop - start)) (fun token => token.k layer head) ∧
      (List.range ((stop - start) * cfg.headDim)).map out.2 =
        vectors cfg ((tokens.drop start).take (stop - start)) fun token => token.v layer head

theorem storeTokens_one (c : KvCache F) (i lh base : Nat) (k v : Nat → F) :
    storeTokens c i lh base k v 1 = storeToken c i lh base k v := by
  have hFirst : intIndex ((0 : Nat) * c.config.headDim) = some 0 := by
    rw [Int.natCast_zero, Int.zero_mul]
    exact intIndex_of_lt (Nat.two_pow_pos 31)
  rw [storeTokens, storeTokens, Option.bind_some, hFirst, Option.bind_some]
  simp only [Nat.zero_add, Nat.add_zero]

theorem cpxKvcacheWrite_eq_prefill (c : KvCache F) (i layer head : Nat) (k v : Nat → F) :
    cpxKvcacheWrite c i layer head k v = cpxKvcachePrefill c i layer head k v 1 := by
  rw [cpxKvcacheWrite, cpxKvcachePrefill]
  cases c.config.layout with
  | contiguous => rfl
  | paged =>
    rw [storeTokens_one]
    cases hPaged : (c.seqs i).isPaged with
    | false => simp [storeToken, hPaged]
    | true =>
      cases hPages : (c.seqs i).pages with
      | none => simp [storeToken, hPages]
      | some table => simp

theorem chunkTokens_one (cfg : KvCacheConfig) (k v : Nat → Nat → Nat → F) :
    chunkTokens cfg 1 k v = [⟨k, v⟩] := by
  simp [chunkTokens]

theorem chunkTokens_length (cfg : KvCacheConfig) (tokens : Nat) (k v : Nat → Nat → Nat → F) :
    (chunkTokens cfg tokens k v).length = tokens := by
  rw [chunkTokens, length_map, length_range]

theorem setSlot_self (a : Nat → α) (i : Nat) (x : α) : setSlot a i x i = x := if_pos rfl

theorem setSlot_setSlot (a : Nat → α) (i : Nat) (x y : α) :
    setSlot (setSlot a i x) i y = setSlot a i y := by
  funext j
  by_cases hj : j = i <;> simp [setSlot, hj]

theorem setSlot_of_eq {a : Nat → α} {i : Nat} {x : α} (h : a i = x) : setSlot a i x = a := by
  funext j
  by_cases hj : j = i <;> simp [setSlot, hj, h]

theorem whole_setSlot (a : KvSpec F) (i : Nat) (tokens : Option (List (KvToken F))) :
    (KvSpec.whole (setSlot a i tokens)) = setSlot a.whole i (tokens.map .whole) := by
  funext j
  by_cases hj : j = i <;> simp [KvSpec.whole, setSlot, hj]

theorem sameSlots_setSlot (cfg : KvCacheConfig) (a : KvPartial F) (i : Nat) {s t : PartialSeq F}
    (hLen : s.len = t.len) (hStored : ∀ layer < cfg.numLayers, ∀ head < cfg.numKvHeads,
      s.stored layer head = t.stored layer head) :
    SameSlots cfg (setSlot a i (some s)) (setSlot a i (some t)) := by
  intro j _
  by_cases hj : j = i
  · simp only [setSlot, hj, if_true, Option.isSome_some, true_and]
    rintro _ _ ⟨⟩ ⟨⟩
    exact ⟨hLen, hStored⟩
  · simp only [setSlot, hj, if_false, true_and]
    intro u w hu hw
    cases hu.symm.trans hw
    exact ⟨rfl, fun _ _ _ _ => rfl⟩

theorem SameSlots.eq_none {cfg : KvCacheConfig} {a b : KvPartial F}
    (h : SameSlots cfg a b) {i : Nat}
    (hi : i < cfg.maxBatch) (hNone : b i = none) : a i = none := by
  have hSome := (h i hi).1
  rw [hNone] at hSome
  exact Option.not_isSome_iff_eq_none.mp (by simp [hSome])

theorem SameSlots.exists_left {cfg : KvCacheConfig} {a b : KvPartial F} (h : SameSlots cfg a b)
    {i : Nat} (hi : i < cfg.maxBatch) {t : PartialSeq F} (ht : b i = some t) :
    ∃ s, a i = some s ∧ s.len = t.len ∧ ∀ layer < cfg.numLayers, ∀ head < cfg.numKvHeads,
      s.stored layer head = t.stored layer head := by
  have hSome := (h i hi).1
  rw [ht, Option.isSome_some, Option.isSome_iff_exists] at hSome
  obtain ⟨s, hs⟩ := hSome
  exact ⟨s, hs, (h i hi).2 s t hs ht⟩

theorem cpxKvcacheAllocSeq_fst {c : KvCache F} {i : Nat}
    (h : ((List.range c.config.maxBatch).find? fun i => decide ((c.seqs i).seqId < 0)) = some i)
    (initialLen : Nat) : (cpxKvcacheAllocSeq c initialLen).1 = i := by
  rw [cpxKvcacheAllocSeq, h]
  cases c.config.layout <;> rfl

section

variable {cfg : KvCacheConfig} {R : KvCache F → KvPartial F → Prop}
  {c : KvCache F} {a : KvSpec F}

/-- A chunk that is written for all layers and heads is appended to the sequence. -/
theorem LayoutWrites.prefillChunk (h : LayoutWrites cfg R) (hRel : R c a.whole) {i tokens : Nat}
    {old : List (KvToken F)} {k v : Nat → Nat → Nat → F}
    (hi : i < cfg.maxBatch) (hOld : a i = some old) (hFits : old.length + tokens ≤ cfg.maxSeqLen)
    (hRange : cfg.layout = .paged → cfg.RangeFits tokens) :
    ∃ d, kvStep (.prefillChunk i tokens k v) c = some (.done, d) ∧
      R d (appendTokens cfg a i (chunkTokens cfg tokens k v)).whole := by
  set new := chunkTokens cfg tokens k v with hNew
  have hWhole : a.whole i = some (.whole old) := by rw [KvSpec.whole, hOld]; rfl
  have hSelf : setSlot a.whole i (some (.whole old)) = a.whole := setSlot_of_eq hWhole
  have hStart : R c (setSlot a.whole i (some (afterPairs cfg old new 0))) := by
    refine h.congr hRel ?_
    have hSame := sameSlots_setSlot cfg a.whole i (s := .whole old)
      (t := afterPairs cfg old new 0) (by simp [afterPairs, PartialSeq.whole]) fun _ _ _ _ => rfl
    rwa [hSelf] at hSame
  obtain ⟨d, hRun, hEnd⟩ := forPairs_induction
    (fun c layer head => cpxKvcachePrefill c i layer head (k layer head) (v layer head) tokens)
    cfg.numLayers cfg.numKvHeads
    (fun n c => R c (setSlot a.whole i (some (afterPairs cfg old new n)))) hStart
    fun n hn c hInv => by
      have hPos : 0 < cfg.numKvHeads := Nat.pos_of_mul_pos_left (Nat.zero_lt_of_lt hn)
      have hBefore : n ≠ cfg.lhCount := hn.ne
      obtain ⟨d, hCall, hNext⟩ := h.prefill (k := k) (v := v) hInv hi (setSlot_self _ _ _)
        (Nat.div_lt_of_lt_mul (Nat.mul_comm _ _ ▸ hn)) (Nat.mod_lt n hPos) (by
          simp [afterPairs, lhIndex_divMod, hBefore]) (by
          simpa [afterPairs, hBefore] using hFits) hRange
      rw [setSlot_setSlot] at hNext
      have hExtend := extend_afterPairs old new hn
      exact ⟨d, hCall, h.congr hNext (sameSlots_setSlot cfg _ _ hExtend.1 hExtend.2)⟩
  refine ⟨d, ?_, h.congr hEnd ?_⟩
  · rw [kvStep, h.config hRel, hRun]
    rfl
  · rw [appendTokens]
    by_cases hEmpty : cfg.lhCount = 0
    · rw [if_pos hEmpty]
      suffices h : SameSlots cfg (setSlot a.whole i (some (afterPairs cfg old new cfg.lhCount)))
          (setSlot a.whole i (some (.whole old))) by rwa [hSelf] at h
      refine sameSlots_setSlot cfg _ _ ?_ fun layer hLayer head hHead => ?_
      · show (afterPairs cfg old new cfg.lhCount).len = _
        rw [hEmpty]
        simp [afterPairs, PartialSeq.whole]
      · have hLt := lhIndex_lt hLayer hHead
        omega
    · rw [if_neg hEmpty, hOld, whole_setSlot]
      refine sameSlots_setSlot cfg _ _ ?_ fun layer hLayer head hHead => ?_
      · show (afterPairs cfg old new cfg.lhCount).len = _
        simp [afterPairs, PartialSeq.whole, Nat.pos_of_ne_zero hEmpty]
      · exact if_pos (lhIndex_lt hLayer hHead)

theorem LayoutWrites.writeToken (h : LayoutWrites cfg R) (hRel : R c a.whole) {i : Nat}
    {old : List (KvToken F)} (k v : Nat → Nat → Nat → F) (hi : i < cfg.maxBatch)
    (hOld : a i = some old) (hFits : old.length < cfg.maxSeqLen) :
    ∃ d, kvStep (.writeToken i k v) c = some (.done, d) ∧
      R d (appendTokens cfg a i [⟨k, v⟩]).whole := by
  have hOne : old.length + 1 ≤ cfg.maxSeqLen := hFits
  obtain ⟨d, hRun, hNext⟩ := h.prefillChunk (k := k) (v := v) hRel hi hOld hOne fun _ => by
    simp [KvCacheConfig.RangeFits]
  rw [chunkTokens_one] at hNext
  refine ⟨d, ?_, hNext⟩
  simp only [kvStep, cpxKvcacheWrite_eq_prefill]
  exact hRun

namespace LayoutCorrect

section

variable (h : LayoutCorrect cfg R) (hRel : R c a.whole)
include h hRel

theorem find_free :
    ((List.range c.config.maxBatch).find? fun i => decide ((c.seqs i).seqId < 0)) =
      (List.range cfg.maxBatch).find? fun i => (a i).isNone := by
  rw [h.config hRel]
  refine find?_congr fun i hi => ?_
  have hFree := h.free_iff hRel (mem_range.mp hi)
  rw [KvSpec.whole, Option.map_eq_none_iff] at hFree
  rw [Bool.eq_iff_iff, decide_eq_true_iff, hFree, Option.isNone_iff_eq_none]

theorem allocSeq_refines :
    ∃ d, kvStep .allocSeq c = some ((specStep cfg .allocSeq a).1, d) ∧
      R d (specStep cfg .allocSeq a).2.whole := by
  have hFind := h.find_free hRel
  rw [kvStep, specStep]
  cases hFirst : (List.range cfg.maxBatch).find? fun i => (a i).isNone with
  | none =>
    rw [hFirst] at hFind
    rw [cpxKvcacheAllocSeq, hFind]
    exact ⟨c, rfl, hRel⟩
  | some i =>
    rw [hFirst] at hFind
    have hi := mem_range.mp (mem_of_find?_eq_some hFirst)
    have hUnused : a i = none := Option.isNone_iff_eq_none.mp (find?_some hFirst :)
    have hNext := h.allocSeq hRel hi (by rw [KvSpec.whole, hUnused]; rfl) hFind
    refine ⟨(cpxKvcacheAllocSeq c 0).2, ?_, ?_⟩
    · rw [cpxKvcacheAllocSeq_fst hFind]
    · rw [whole_setSlot]
      exact hNext

theorem reads {i layer head start stop : Nat} {old : List (KvToken F)} (kOut vOut : Nat → F)
    (hi : i < cfg.maxBatch) (hOld : a i = some old) (hLayer : layer < cfg.numLayers)
    (hHead : head < cfg.numKvHeads) (hOrder : start ≤ stop) (hWritten : stop ≤ old.length)
    (hRange : cfg.layout = .paged → cfg.RangeFits (stop - start)) :
    kvStep (.readRange i layer head start stop kOut vOut) c =
      some ((specStep cfg (.readRange i layer head start stop kOut vOut) a).1, c) := by
  obtain ⟨out, hRun, hK, hV⟩ := h.readRange kOut vOut hRel hi
    (by rw [KvSpec.whole, hOld]; rfl) hLayer hHead hOrder hWritten hRange
  rw [kvStep, hRun, specStep, hOld, h.config hRel, Option.map_some, hK, hV]
  rfl

end

/-- A correct layout answers as the specification does. -/
theorem refines (h : LayoutCorrect cfg R) :
    Library.Refines (kvStep (F := F)) (specStep cfg)
      (fun op _ a => kvAllowed cfg op a ∧ (cfg.layout = .paged → op.RangeFits cfg))
      fun c a => R c (KvSpec.whole a) := by
  rintro op c a hRel ⟨hAllowed, hRange⟩
  cases op with
  | allocSeq => exact h.allocSeq_refines hRel
  | writeToken seq k v =>
    obtain ⟨hi, old, hOld, hFits⟩ := hAllowed
    exact h.writeToken hRel k v hi hOld hFits
  | prefillChunk seq tokens k v =>
    obtain ⟨hi, old, hOld, hFits⟩ := hAllowed
    exact h.prefillChunk hRel hi hOld hFits hRange
  | rollback seq newLen =>
    obtain ⟨hi, old, hOld, hShorter⟩ := hAllowed
    obtain ⟨d, hRun, hNext⟩ := h.rollback hRel hi (by rw [KvSpec.whole, hOld]; rfl) hShorter
    refine ⟨d, by rw [kvStep, hRun]; rfl, ?_⟩
    show R d (KvSpec.whole (setSlot a seq ((a seq).map fun tokens => tokens.take newLen)))
    rw [whole_setSlot, hOld]
    exact hNext
  | freeSeq seq =>
    obtain ⟨hi, old, hOld, -⟩ := hAllowed
    obtain ⟨d, hRun, hNext⟩ := h.freeSeq hRel hi (by rw [KvSpec.whole, hOld]; rfl)
    refine ⟨d, by rw [kvStep, hRun]; rfl, ?_⟩
    show R d (KvSpec.whole (setSlot a seq none))
    rw [whole_setSlot]
    exact hNext
  | readRange seq layer head start stop kOut vOut =>
    obtain ⟨hLayer, hHead, hOrder, hi, old, hOld, hWritten⟩ := hAllowed
    exact ⟨c, h.reads hRel kOut vOut hi hOld hLayer hHead hOrder hWritten hRange, hRel⟩
  | seqLen seq =>
    obtain ⟨hi, old, hOld, -⟩ := hAllowed
    refine ⟨c, ?_, hRel⟩
    rw [kvStep, h.seqLen hRel hi (by rw [KvSpec.whole, hOld]; rfl), specStep, hOld]
    rfl

end LayoutCorrect

end

end Casprix.Ml
