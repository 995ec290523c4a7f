import Casprix.Ml.KvSpec

/-! The contiguous layout: one block for each slot, with the vectors of a layer and
head side by side. -/
namespace Casprix.Ml

open List

variable {F : Type*}

/-- Elements of a row, after a copy inside one row of an array. -/
theorem memcpy_row {dst src : Nat → F} {row row' width start n x : Nat}
    (hFits : start + n ≤ width) (hx : x < width) :
    memcpy dst (row * width + start) src n (row' * width + x) =
      if row' = row ∧ start ≤ x ∧ x < start + n then src (x - start)
        else dst (row' * width + x) := by
  rw [memcpy]
  by_cases hRow : row' = row
  · subst hRow
    have hIn : row' * width + start ≤ row' * width + x ∧
        row' * width + x < row' * width + start + n ↔ row' = row' ∧
          start ≤ x ∧ x < start + n := by
      omega
    have hAt : row' * width + x - (row' * width + start) = x - start := by omega
    rw [hAt]
    exact if_congr hIn rfl rfl
  · rw [if_neg (fun hBoth : row' = row ∧ _ => hRow hBoth.1), if_neg]
    rintro ⟨hLow, hHigh⟩
    rcases lt_or_gt_of_ne hRow with hLess | hMore
    · have hStep : row' * width + width ≤ row * width := by
        rw [← Nat.succ_mul]
        exact Nat.mul_le_mul_right _ hLess
      omega
    · have hStep : row * width + width ≤ row' * width := by
        rw [← Nat.succ_mul]
        exact Nat.mul_le_mul_right _ hMore
      omega

variable (cfg : KvCacheConfig)

theorem map_range_eq_vectors (out : Nat → F) (tokens : List (KvToken F))
    (vector : KvToken F → Nat → F)
    (h : ∀ t token, tokens[t]? = some token → ∀ d < cfg.headDim,
      out (t * cfg.headDim + d) = vector token d) :
    (List.range (tokens.length * cfg.headDim)).map out = vectors cfg tokens vector := by
  induction tokens generalizing out with
  | nil => simp [vectors]
  | cons token tokens ih =>
    have hRest := ih (fun i => out (cfg.headDim + i)) fun t token' hGet d hd => by
      have hOne := h (t + 1) token' (by rw [getElem?_cons_succ, hGet]) d hd
      rw [← hOne]
      exact congrArg out (by rw [Nat.succ_mul]; omega)
    rw [vectors, flatMap_cons, ← vectors, ← hRest, length_cons, Nat.succ_mul,
      Nat.add_comm (tokens.length * cfg.headDim), range_add, map_append, map_map]
    refine congrArg₂ _ (map_congr_left fun d hd => ?_) rfl
    have hFirst := h 0 token rfl d (mem_range.mp hd)
    rwa [Nat.zero_mul, Nat.zero_add] at hFirst

namespace KvCacheConfig

/-- The offset without the size of a `size_t`. -/
def blockOffset (layer head pos : Nat) : Nat :=
  cfg.lhIndex layer head * cfg.maxSeqLen * cfg.headDim + pos * cfg.headDim

theorem kvOffset_eq {cfg : KvCacheConfig} {layer head pos : Nat} (hFits : cfg.BlocksFit)
    (hLayer : layer < cfg.numLayers) (hHead : head < cfg.numKvHeads)
    (hPos : pos ≤ cfg.maxSeqLen) :
    cfg.kvOffset layer head pos = cfg.blockOffset layer head pos := by
  have hRow : (cfg.lhIndex layer head + 1) * (cfg.maxSeqLen * cfg.headDim) ≤
      cfg.lhCount * (cfg.maxSeqLen * cfg.headDim) :=
        Nat.mul_le_mul_right _ (lhIndex_lt hLayer hHead)
  have hIn : pos * cfg.headDim ≤ cfg.maxSeqLen * cfg.headDim := Nat.mul_le_mul_right _ hPos
  rw [BlocksFit] at hFits
  rw [Nat.succ_mul] at hRow
  rw [kvOffset, Nat.mod_eq_of_lt, blockOffset]
  rw [Nat.mul_assoc]
  omega

end KvCacheConfig

/-- A block holds these vectors for one layer and head, from the first position on. -/
def BlockHolds (base : Nat → F) (layer head : Nat) (stored : List (Nat → F)) : Prop :=
  ∀ pos vector, stored[pos]? = some vector → ∀ d < cfg.headDim,
    base (cfg.blockOffset layer head pos + d) = vector d

variable {base : Nat → F} {layer head : Nat} {tokens : List (KvToken F)}

theorem BlockHolds.of_eq {cfg : KvCacheConfig} {stored stored' : List (Nat → F)}
    (h : BlockHolds cfg base layer head stored) (hSame : stored = stored') :
    BlockHolds cfg base layer head stored' := hSame ▸ h

theorem blockOffset_add (layer head pos d : Nat) :
    cfg.blockOffset layer head pos + d =
      cfg.lhIndex layer head * (cfg.maxSeqLen * cfg.headDim) + (pos * cfg.headDim + d) := by
  rw [KvCacheConfig.blockOffset, Nat.mul_assoc, Nat.add_assoc]

theorem pos_mul_add_lt {cfg : KvCacheConfig} {pos d n : Nat} (hPos : pos < n)
    (hd : d < cfg.headDim) :
    pos * cfg.headDim + d < n * cfg.headDim := by
  calc pos * cfg.headDim + d
    _ < pos * cfg.headDim + cfg.headDim := Nat.add_lt_add_left hd _
    _ = (pos + 1) * cfg.headDim := (Nat.succ_mul _ _).symm
    _ ≤ n * cfg.headDim := Nat.mul_le_mul_right _ hPos

/-- The vectors of a chunk, one after the other in an array. -/
def chunkVectors (tokens : Nat) (src : Nat → F) : List (Nat → F) :=
  (List.range tokens).map fun t d => src (t * cfg.headDim + d)

/-- One element of a block after a chunk was copied behind the first `n` positions. -/
theorem memcpy_block {cfg : KvCacheConfig} {src : Nat → F} {layer' head' n tokens pos d : Nat}
    (hHead : head < cfg.numKvHeads) (hHead' : head' < cfg.numKvHeads)
    (hFits : n + tokens ≤ cfg.maxSeqLen) (hPos : pos < cfg.maxSeqLen) (hd : d < cfg.headDim) :
    memcpy base (cfg.blockOffset layer head n) src (tokens * cfg.headDim)
        (cfg.blockOffset layer' head' pos + d) =
      if (layer' = layer ∧ head' = head) ∧ n ≤ pos ∧ pos < n + tokens then
        src ((pos - n) * cfg.headDim + d)
      else base (cfg.blockOffset layer' head' pos + d) := by
  have hOffset : cfg.blockOffset layer head n =
      cfg.lhIndex layer head * (cfg.maxSeqLen * cfg.headDim) + n * cfg.headDim :=
        blockOffset_add _ _ _ _ 0
  have hWidth : n * cfg.headDim + tokens * cfg.headDim ≤ cfg.maxSeqLen * cfg.headDim := by
    rw [← Nat.add_mul]
    exact Nat.mul_le_mul_right _ hFits
  have hRow := lhIndex_inj layer' layer hHead' hHead
  have hIn : n * cfg.headDim ≤ pos * cfg.headDim + d ∧
      pos * cfg.headDim + d < n * cfg.headDim + tokens * cfg.headDim ↔
        n ≤ pos ∧ pos < n + tokens := by
    rw [← Nat.add_mul]
    constructor
    · rintro ⟨hLow, hHigh⟩
      constructor
      · by_contra hLess
        have hBelow := pos_mul_add_lt (Nat.lt_of_not_le hLess) hd
        omega
      · exact Nat.lt_of_mul_lt_mul_right ((Nat.le_add_right _ _).trans_lt hHigh)
    · rintro ⟨hLow, hHigh⟩
      exact ⟨Nat.le_add_right_of_le (Nat.mul_le_mul_right _ hLow), pos_mul_add_lt hHigh hd⟩
  rw [blockOffset_add, hOffset, memcpy_row hWidth (pos_mul_add_lt hPos hd)]
  by_cases hHere : (layer' = layer ∧ head' = head) ∧ n ≤ pos ∧ pos < n + tokens
  · have hMul := Nat.mul_le_mul_right cfg.headDim hHere.2.1
    have hSub : pos * cfg.headDim + d - n * cfg.headDim = (pos - n) * cfg.headDim + d := by
      rw [Nat.sub_mul]
      omega
    rw [if_pos ⟨hRow.mpr hHere.1, hIn.mpr hHere.2⟩, if_pos hHere, hSub]
  · rw [if_neg hHere, if_neg fun hBoth => hHere ⟨hRow.mp hBoth.1, hIn.mp hBoth.2⟩]

/-- What a block holds after a chunk was copied behind the first `n` positions. -/
theorem BlockHolds.memcpy {cfg : KvCacheConfig} {base : Nat → F} {layer' head' : Nat}
    {stored : List (Nat → F)} (h : BlockHolds cfg base layer' head' stored) (src : Nat → F)
    (layer : Nat) {head n tokens : Nat} (hHead : head < cfg.numKvHeads)
    (hHead' : head' < cfg.numKvHeads)
    (hShort : stored.length ≤ cfg.maxSeqLen) (hFits : n + tokens ≤ cfg.maxSeqLen)
    (hEnd : layer' = layer ∧ head' = head → stored.length = n) :
    BlockHolds cfg
      (memcpy base (cfg.blockOffset layer head n) src (tokens * cfg.headDim)) layer' head'
      (if layer' = layer ∧ head' =
        head then stored ++ chunkVectors cfg tokens src else stored) := by
  intro pos vector hGet d hd
  by_cases hHere : layer' = layer ∧ head' = head
  · have hLength := hEnd hHere
    rw [if_pos hHere] at hGet
    by_cases hOld : pos < n
    · rw [getElem?_append_left (by omega)] at hGet
      rw [memcpy_block hHead hHead' hFits (by omega) hd, if_neg fun hBoth => by omega]
      exact h pos vector hGet d hd
    · rw [getElem?_append_right (by omega), hLength, chunkVectors, getElem?_map,
        Option.map_eq_some_iff] at hGet
      obtain ⟨t, hRange, rfl⟩ := hGet
      obtain ⟨hLt, rfl⟩ := List.getElem?_eq_some_iff.mp hRange
      rw [length_range] at hLt
      rw [memcpy_block hHead hHead' hFits (by omega) hd, if_pos ⟨hHere, by omega, by omega⟩,
        getElem_range]
  · rw [if_neg hHere] at hGet
    have hLt := (List.getElem?_eq_some_iff.mp hGet).1
    rw [memcpy_block hHead hHead' hFits (by omega) hd, if_neg fun hBoth => hHere hBoth.1]
    exact h pos vector hGet d hd

/-- A chunk that is copied for one layer and head is stored behind what was there. -/
theorem BlockHolds.extend {cfg : KvCacheConfig} {s : PartialSeq F} {layer' head' tokens : Nat}
    {new : List (KvToken F)} (vector : Nat → Nat → KvToken F → Nat → F)
    (src : Nat → Nat → Nat → F)
    (h : BlockHolds cfg base layer' head' ((s.stored layer' head').map (vector layer' head')))
    (hNew : new.map (vector layer head) = chunkVectors cfg tokens (src layer head))
    (hHead : head < cfg.numKvHeads) (hHead' : head' < cfg.numKvHeads)
    (hShort : (s.stored layer' head').length ≤ cfg.maxSeqLen)
    (hEnd : (s.stored layer head).length = s.len) (hFits : s.len + tokens ≤ cfg.maxSeqLen) :
    BlockHolds cfg
      (Ml.memcpy base (cfg.blockOffset layer head s.len) (src layer head) (tokens * cfg.headDim))
      layer' head' (((s.extend cfg layer head new).stored layer' head').map
        (vector layer' head')) := by
  have hMemcpy := h.memcpy (src layer head) layer hHead hHead' (by rwa [length_map]) hFits
    fun hHere => by rw [length_map, hHere.1, hHere.2, hEnd]
  refine hMemcpy.of_eq ?_
  by_cases hHere : layer' = layer ∧ head' = head
  · obtain ⟨rfl, rfl⟩ := hHere
    simp [PartialSeq.extend, hNew]
  · simp [PartialSeq.extend, hHere]

theorem map_range_eq_slice {cfg : KvCacheConfig} {out : Nat → F}
    {vector : KvToken F → Nat → F}
    {start stop : Nat} (hOrder : start ≤ stop) (hStop : stop ≤ tokens.length)
    (h : ∀ t < stop - start, ∀ token, tokens[start + t]? = some token →
      ∀ d < cfg.headDim, out (t * cfg.headDim + d) = vector token d) :
    (List.range ((stop - start) * cfg.headDim)).map out =
      vectors cfg ((tokens.drop start).take (stop - start)) vector := by
  have hLength : ((tokens.drop start).take (stop - start)).length = stop - start := by
    rw [length_take, length_drop]
    omega
  have hSlice := map_range_eq_vectors cfg out ((tokens.drop start).take (stop - start)) vector
    fun t token hGet d hd => by
      have ht : t < stop - start := hLength ▸ (List.getElem?_eq_some_iff.mp hGet).1
      rw [getElem?_take, if_pos ht, getElem?_drop] at hGet
      exact h t ht token hGet d hd
  rwa [hLength] at hSlice

theorem BlockHolds.readRange {cfg : KvCacheConfig} {out : Nat → F} {start stop : Nat}
    {vector : KvToken F → Nat → F} (h : BlockHolds cfg base layer head (tokens.map vector))
    (hOrder : start ≤ stop) (hStop : stop ≤ tokens.length) :
    (List.range ((stop - start) * cfg.headDim)).map
        (Ml.memcpy out 0 (fun d => base (cfg.blockOffset layer head start + d))
          ((stop - start) * cfg.headDim)) =
      vectors cfg ((tokens.drop start).take (stop - start)) vector := by
  refine map_range_eq_slice hOrder hStop fun t ht token hGet d hd => ?_
  have hIn : 0 ≤ t * cfg.headDim + d ∧ t * cfg.headDim + d < 0 + (stop - start) * cfg.headDim :=
    ⟨Nat.zero_le _, by rw [Nat.zero_add]; exact pos_mul_add_lt ht hd⟩
  have hAt : cfg.blockOffset layer head start + (t * cfg.headDim + d - 0) =
      cfg.blockOffset layer head (start + t) + d := by
    rw [KvCacheConfig.blockOffset, KvCacheConfig.blockOffset, Nat.add_mul]
    omega
  rw [Ml.memcpy, if_pos hIn, hAt]
  exact h (start + t) (vector token) (by rw [getElem?_map, hGet]; rfl) d hd

theorem getElem?_of_take {α : Type*} {f : KvToken F → α} {n pos : Nat} {x : α}
    (h : ((tokens.take n).map f)[pos]? = some x) : (tokens.map f)[pos]? = some x := by
  rw [map_take, getElem?_take] at h
  split at h
  · exact h
  · exact absurd h (Option.some_ne_none _).symm

@[simp] theorem setSeq_self (c : KvCache F) (i : Nat) (seq : KvSeq F) :
    (c.setSeq i seq).seqs i = seq :=
  if_pos rfl

theorem setSeq_setSeq (c : KvCache F) (i : Nat) (seq seq' : KvSeq F) :
    (c.setSeq i seq).setSeq i seq' = c.setSeq i seq' := by
  rw [KvCache.setSeq, KvCache.setSeq, KvCache.setSeq]
  congr 1
  funext j
  by_cases hj : j = i <;> simp [hj]

theorem advance_setSeq (c : KvCache F) (i layer head tokens : Nat) (seq : KvSeq F) :
    advance (c.setSeq i seq) i layer head tokens = c.setSeq i { seq with
      seqLen := if layer + 1 = c.config.numLayers ∧ head + 1 = c.config.numKvHeads then
          seq.seqLen + tokens
        else seq.seqLen } := by
  rw [advance]
  have hConfig : (c.setSeq i seq).config = c.config := rfl
  rw [hConfig]
  by_cases hLast : layer + 1 = c.config.numLayers ∧ head + 1 = c.config.numKvHeads
  · rw [if_pos hLast, if_pos hLast, setSeq_self, setSeq_setSeq]
  · rw [if_neg hLast, if_neg hLast]

structure ContSlot (cfg : KvCacheConfig) (i : Nat) (seq : KvSeq F) (s : PartialSeq F) : Prop where
  seqId : seq.seqId = i
  seqLen : seq.seqLen = s.len
  short : ∀ layer < cfg.numLayers, ∀ head < cfg.numKvHeads,
    (s.stored layer head).length ≤ cfg.maxSeqLen
  k : ∀ layer < cfg.numLayers, ∀ head < cfg.numKvHeads,
    BlockHolds cfg seq.kBase layer head ((s.stored layer head).map fun token => token.k layer head)
  v : ∀ layer < cfg.numLayers, ∀ head < cfg.numKvHeads,
    BlockHolds cfg seq.vBase layer head ((s.stored layer head).map fun token => token.v layer head)

/-- The blocks of the slots in use hold what is described. -/
structure ContRel (cfg : KvCacheConfig) (c : KvCache F) (a : KvPartial F) : Prop where
  fits : cfg.BlocksFit
  config : c.config = cfg
  unpaged : ∀ i, (c.seqs i).isPaged = false
  free : ∀ i < cfg.maxBatch, a i = none → (c.seqs i).seqId < 0
  slot : ∀ i < cfg.maxBatch, ∀ s, a i = some s → ContSlot cfg i (c.seqs i) s

theorem ContSlot.congr {cfg : KvCacheConfig} {i : Nat} {seq : KvSeq F} {s t : PartialSeq F}
    (h : ContSlot cfg i seq s) (hLen : s.len = t.len)
    (hStored : ∀ layer < cfg.numLayers, ∀ head < cfg.numKvHeads,
      s.stored layer head = t.stored layer head) : ContSlot cfg i seq t where
  seqId := h.seqId
  seqLen := h.seqLen.trans hLen
  short := fun layer hLayer head hHead =>
    hStored layer hLayer head hHead ▸ h.short layer hLayer head hHead
  k := fun layer hLayer head hHead =>
    hStored layer hLayer head hHead ▸ h.k layer hLayer head hHead
  v := fun layer hLayer head hHead =>
    hStored layer hLayer head hHead ▸ h.v layer hLayer head hHead

attribute [local simp] KvCache.setSeq

namespace ContRel

variable {cfg : KvCacheConfig} {c : KvCache F} {a b : KvPartial F} {i : Nat} {s : PartialSeq F}

section

variable (h : ContRel cfg c a)
include h

theorem congr (hSame : SameSlots cfg a b) : ContRel cfg c b where
  fits := h.fits
  config := h.config
  unpaged := h.unpaged
  free := fun i hi hNone => h.free i hi (hSame.eq_none hi hNone)
  slot := fun i hi t ht => by
    obtain ⟨s, hs, hLen, hStored⟩ := hSame.exists_left hi ht
    exact (h.slot i hi s hs).congr hLen hStored

theorem setSeq {seq : KvSeq F} {o : Option (PartialSeq F)} (hPaged : seq.isPaged = false)
    (hFree : o = none → seq.seqId < 0) (hSlot : ∀ s, o = some s → ContSlot cfg i seq s) :
    ContRel cfg (c.setSeq i seq) (setSlot a i o) where
  fits := h.fits
  config := h.config
  unpaged := fun j => by
    by_cases hj : j = i
    · simpa [hj] using hPaged
    · simpa [hj] using h.unpaged j
  free := fun j hlt hNone => by
    by_cases hj : j = i
    · simp only [setSlot, hj, if_true] at hNone
      simpa [hj] using hFree hNone
    · simp only [setSlot, hj, if_false] at hNone
      simpa [hj] using h.free j hlt hNone
  slot := fun j hlt s hs => by
    by_cases hj : j = i
    · simp only [setSlot, hj, if_true] at hs
      simpa [hj] using hSlot s hs
    · simp only [setSlot, hj, if_false] at hs
      simpa [hj] using h.slot j hlt s hs

theorem free_iff (hi : i < cfg.maxBatch) : (c.seqs i).seqId < 0 ↔ a i = none := by
  constructor
  · intro hFree
    cases hs : a i with
    | none => rfl
    | some s =>
      have hId := (h.slot i hi s hs).seqId
      omega
  · exact h.free i hi

theorem allocSeq (hLayout : cfg.layout = .contiguous)
    (hFind : ((List.range c.config.maxBatch).find? fun i =>
      decide ((c.seqs i).seqId < 0)) = some i) :
    ContRel cfg (cpxKvcacheAllocSeq c 0).2 (setSlot a i (some (.whole []))) := by
  rw [cpxKvcacheAllocSeq, hFind, h.config, hLayout]
  refine h.setSeq rfl (by simp) fun s hs => ?_
  cases hs
  exact {
    seqId := rfl
    seqLen := rfl
    short := fun _ _ _ _ => Nat.zero_le _
    k := fun _ _ _ _ pos vector hGet => by simp [PartialSeq.whole] at hGet
    v := fun _ _ _ _ pos vector hGet => by simp [PartialSeq.whole] at hGet }

theorem prefill (hLayout : cfg.layout = .contiguous) {tokens : Nat}
    {k v : Nat → Nat → Nat → F}
    (hi : i < cfg.maxBatch) (hs : a i = some s) (hLayer : layer < cfg.numLayers)
    (hHead : head < cfg.numKvHeads) (hEnd : (s.stored layer head).length = s.len)
    (hFits : s.len + tokens ≤ cfg.maxSeqLen) :
    ∃ d, cpxKvcachePrefill c i layer head (k layer head) (v layer head) tokens = some d ∧
      ContRel cfg d (setSlot a i
        (some (s.extend cfg layer head (chunkTokens cfg tokens k v)))) := by
  have hSlot := h.slot i hi s hs
  refine ⟨_, by rw [cpxKvcachePrefill, h.config, hLayout]; rfl, ?_⟩
  refine (congrArg (fun d => ContRel cfg d _) (advance_setSeq c i layer head tokens _)).mpr ?_
  rw [h.config, hSlot.seqLen, KvCacheConfig.kvOffset_eq h.fits hLayer hHead (by omega)]
  refine h.setSeq (h.unpaged i) (by simp) fun t ht => ?_
  cases ht
  exact {
    seqId := hSlot.seqId
    seqLen := by simp only [PartialSeq.extend, chunkTokens_length]
    short := fun layer' hLayer' head' hHead' => by
      by_cases hHere : layer' = layer ∧ head' = head
      · simp only [PartialSeq.extend, hHere, and_self, if_true, length_append,
          chunkTokens_length, hEnd]
        exact hFits
      · simp only [PartialSeq.extend, hHere, if_false]
        exact hSlot.short layer' hLayer' head' hHead'
    k := fun layer' hLayer' head' hHead' =>
      BlockHolds.extend (fun l n t => t.k l n) k (hSlot.k layer' hLayer' head' hHead')
        (by simp [chunkTokens, chunkVectors]) hHead hHead'
          (hSlot.short layer' hLayer' head' hHead') hEnd hFits
    v := fun layer' hLayer' head' hHead' =>
      BlockHolds.extend (fun l n t => t.v l n) v (hSlot.v layer' hLayer' head' hHead')
        (by simp [chunkTokens, chunkVectors]) hHead hHead'
          (hSlot.short layer' hLayer' head' hHead') hEnd hFits }

theorem rollback {newLen : Nat} (hi : i < cfg.maxBatch)
    (hs : a i = some (.whole tokens)) (hShorter : newLen ≤ tokens.length) :
    ∃ d, cpxKvcacheRollback c i newLen = some d ∧
      ContRel cfg d (setSlot a i (some (.whole (tokens.take newLen)))) := by
  have hSlot := h.slot i hi _ hs
  have hLe : newLen ≤ (c.seqs i).seqLen := hSlot.seqLen ▸ hShorter
  have hPaged : ¬ (c.config.layout = .paged ∧ (c.seqs i).isPaged = true ∧
      (c.seqs i).pages.isSome = true) := fun hAll => by
    rw [h.unpaged i] at hAll
    exact Bool.false_ne_true hAll.2.1
  refine ⟨c.setSeq i { c.seqs i with seqLen := newLen }, ?_, ?_⟩
  · rw [cpxKvcacheRollback, if_pos hLe, if_neg hPaged]
    rfl
  · refine h.setSeq (h.unpaged i) (by simp) fun t ht => ?_
    cases ht
    exact {
      seqId := hSlot.seqId
      seqLen := by simp [PartialSeq.whole, hShorter]
      short := fun layer hLayer head hHead =>
        (length_take_le' _ _).trans (hSlot.short layer hLayer head hHead)
      k := fun layer hLayer head hHead pos vector hGet =>
        hSlot.k layer hLayer head hHead pos vector (getElem?_of_take hGet)
      v := fun layer hLayer head hHead pos vector hGet =>
        hSlot.v layer hLayer head hHead pos vector (getElem?_of_take hGet) }

theorem freeSeq (hi : i < cfg.maxBatch) :
    ∃ d, cpxKvcacheFreeSeq c i = some d ∧ ContRel cfg d (setSlot a i none) := by
  refine ⟨c.setSeq i { c.seqs i with seqId := -1, seqLen := 0 }, ?_, ?_⟩
  · rw [cpxKvcacheFreeSeq, if_pos (by rw [h.config]; exact hi), h.unpaged i]
    rfl
  · exact h.setSeq (h.unpaged i) (fun _ => Int.negSucc_lt_zero 0) (by simp)

end

end ContRel

/-- The contiguous layout is correct. -/
theorem contiguous_correct (hLayout : cfg.layout = .contiguous) :
    LayoutCorrect cfg (ContRel (F := F) cfg) where
  config := fun h => h.config
  congr := fun h hSame => h.congr hSame
  seqLen := fun h hi hs => (h.slot _ hi _ hs).seqLen
  free_iff := fun h hi => h.free_iff hi
  allocSeq := fun h _ _ hFind => h.allocSeq hLayout hFind
  prefill := fun h hi hs hLayer hHead hEnd hFits _ =>
    h.prefill hLayout hi hs hLayer hHead hEnd hFits
  rollback := fun h hi hs hShorter => h.rollback hi hs hShorter
  freeSeq := fun h hi _ => h.freeSeq hi
  readRange := by
    intro c a i tokens layer head start stop kOut vOut h hi hs hLayer hHead hOrder hStop _
    have hSlot := h.slot i hi _ hs
    have hShort : tokens.length ≤ cfg.maxSeqLen := hSlot.short layer hLayer head hHead
    refine ⟨_, by rw [cpxKvcacheReadRange, h.config, hLayout,
      KvCacheConfig.kvOffset_eq h.fits hLayer hHead (by omega)], ?_, ?_⟩
    · exact BlockHolds.readRange (hSlot.k layer hLayer head hHead) hOrder hStop
    · exact BlockHolds.readRange (hSlot.v layer hLayer head hHead) hOrder hStop

theorem contRel_create {cfg : KvCacheConfig} (hFits : cfg.BlocksFit)
    (blocks pool : Nat → KvPage F) :
    ContRel cfg (cpxKvcacheCreate cfg blocks pool) (KvSpec.whole fun _ => none) where
  fits := hFits
  config := rfl
  unpaged := fun _ => rfl
  free := fun _ _ _ => Int.negSucc_lt_zero 0
  slot := fun _ _ _ hs => by cases hs

end Casprix.Ml
