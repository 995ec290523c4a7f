import Casprix.Library.FreeStack
import Casprix.Ml.KvContiguous
import Mathlib.Data.Finset.Prod

/-! The paged layout: the tables of all slots share one pool of pages. -/
namespace Casprix.Ml

open Function List

variable {F : Type*}

/-- The page in an entry of the table of a slot. -/
def entry (c : KvCache F) (x : Nat × Nat) : Option Nat :=
  (c.seqs x.1).pages.bind fun table => table x.2

variable {table : Nat → Option Nat} {pos layer head : Nat} {tokens : List (KvToken F)}

theorem entry_setEntry {c : KvCache F} {i idx : Nat} {o : Option Nat}
    (hPages : (c.seqs i).pages = some table) :
    entry (c.setEntry i idx table o) = update (entry c) (i, idx) o := by
  funext x
  obtain ⟨j, jdx⟩ := x
  by_cases hj : j = i
  · subst hj
    by_cases hIdx : jdx = idx
    · subst hIdx
      simp [entry, KvCache.setEntry, KvCache.setSeq]
    · have hOther : (j, jdx) ≠ (j, idx) := fun hSame => hIdx (Prod.mk.inj hSame).2
      simp [entry, KvCache.setEntry, KvCache.setSeq, hIdx, hPages, hOther]
  · have hOther : (j, jdx) ≠ (i, idx) := fun hSame => hj (Prod.mk.inj hSame).1
    simp [entry, KvCache.setEntry, KvCache.setSeq, hj, hOther]

variable {cfg : KvCacheConfig}

namespace KvCacheConfig

theorem kvPageSize_pos (cfg : KvCacheConfig) : 0 < cfg.kvPageSize := by
  rw [kvPageSize]
  split <;> omega

/-- The pages of one layer and head, without the size of an `int`. -/
def maxPages (cfg : KvCacheConfig) : Nat := pagesFor cfg cfg.maxSeqLen

theorem div_lt_maxPages (h : pos < cfg.maxSeqLen) : pos / cfg.kvPageSize < cfg.maxPages := by
  have hPos := cfg.kvPageSize_pos
  rw [maxPages, pagesFor, Nat.div_lt_iff_lt_mul hPos]
  have hCeil := Nat.lt_div_mul_add (a := cfg.maxSeqLen + cfg.kvPageSize - 1) hPos
  omega

def tableSize (cfg : KvCacheConfig) : Nat := cfg.lhCount * cfg.maxPages

/-- The entry of a layer, a head and a position. -/
def tableIndex (cfg : KvCacheConfig) (layer head pos : Nat) : Nat :=
  cfg.lhIndex layer head * cfg.maxPages + pos / cfg.kvPageSize

theorem tableIndex_lt (hLayer : layer < cfg.numLayers)
    (hHead : head < cfg.numKvHeads) (hPos : pos < cfg.maxSeqLen) :
    cfg.tableIndex layer head pos < cfg.tableSize := by
  calc cfg.lhIndex layer head * cfg.maxPages + pos / cfg.kvPageSize
    _ < cfg.lhIndex layer head * cfg.maxPages + cfg.maxPages :=
        Nat.add_lt_add_left (div_lt_maxPages hPos) _
    _ = (cfg.lhIndex layer head + 1) * cfg.maxPages := (Nat.succ_mul _ _).symm
    _ ≤ cfg.lhCount * cfg.maxPages := Nat.mul_le_mul_right _ (lhIndex_lt hLayer hHead)

theorem tableIndex_mod (hPos : pos < cfg.maxSeqLen) :
    cfg.tableIndex layer head pos % cfg.maxPages = pos / cfg.kvPageSize := by
  rw [tableIndex, mul_comm, Nat.mul_add_mod, Nat.mod_eq_of_lt (div_lt_maxPages hPos)]

theorem tableIndex_div (hPos : pos < cfg.maxSeqLen) :
    cfg.tableIndex layer head pos / cfg.maxPages = cfg.lhIndex layer head := by
  have hLt := div_lt_maxPages hPos
  rw [tableIndex, Nat.mul_comm, Nat.mul_add_div (Nat.zero_lt_of_lt hLt), Nat.div_eq_of_lt hLt,
    Nat.add_zero]

/-- Two positions in one page of one slot belong to one layer and head. -/
theorem tableIndex_inj {layer' head' pos' : Nat}
    (hHead : head < cfg.numKvHeads) (hHead' : head' < cfg.numKvHeads) (hPos : pos < cfg.maxSeqLen)
    (hPos' : pos' < cfg.maxSeqLen)
    (hSame : cfg.tableIndex layer head pos = cfg.tableIndex layer' head' pos') :
    (layer = layer' ∧ head = head') ∧ pos / cfg.kvPageSize = pos' / cfg.kvPageSize := by
  have hDiv := congrArg (fun n => n / cfg.maxPages) hSame
  have hMod := congrArg (fun n => n % cfg.maxPages) hSame
  simp only [tableIndex_div hPos, tableIndex_div hPos', tableIndex_mod hPos, tableIndex_mod hPos']
    at hDiv hMod
  exact ⟨(lhIndex_inj layer layer' hHead hHead').mp hDiv, hMod⟩

theorem kvPages_eq {len : Nat} (hFits : cfg.PagesFit)
    (hLen : len ≤ cfg.maxSeqLen) : cfg.kvPages len = pagesFor cfg len := by
  have hPos := cfg.kvPageSize_pos
  have hBound := hFits.maxPages
  have hSum : (len + cfg.kvPageSize - 1 : Int) = (len + cfg.kvPageSize - 1 : Nat) := by omega
  rw [kvPages, hSum, intVal_of_lt (by omega), Int.natCast_tdiv_eq_ediv, pagesFor, Int.natCast_ediv]

section

variable {cfg : KvCacheConfig} (hFits : cfg.PagesFit)
include hFits

theorem kvMaxPages_eq :
    cfg.kvMaxPages = cfg.maxPages := kvPages_eq hFits le_rfl

theorem totalPages_eq : cfg.totalPages = cfg.maxBatch * cfg.tableSize + 128 := by
  have hPool := hFits.pool
  have hSum : (cfg.maxBatch * cfg.numLayers * cfg.numKvHeads * cfg.kvMaxPages + 128 : Int) =
      (cfg.maxBatch * cfg.tableSize + 128 : Nat) := by
    rw [kvMaxPages_eq hFits, tableSize, lhCount]
    simp only [Int.natCast_add, Int.natCast_mul, mul_assoc]
    rfl
  rw [totalPages, hSum]
  rw [← maxPages, ← tableSize] at hPool
  omega

theorem totalPages_lt : cfg.totalPages < 2 ^ 31 := by
  rw [totalPages_eq hFits]
  exact hFits.pool

theorem tableSize_mul_lt : cfg.maxBatch * cfg.tableSize < cfg.totalPages := by
  rw [totalPages_eq hFits]
  omega

theorem offset_lt (hPos : pos < cfg.maxSeqLen) : pos % cfg.kvPageSize * cfg.headDim < 2 ^ 31 := by
  have hMod := Nat.mod_lt pos cfg.kvPageSize_pos
  have hLe := Nat.mod_le pos cfg.kvPageSize
  have hRow : pos % cfg.kvPageSize ≤ min cfg.kvPageSize cfg.maxSeqLen - 1 := by omega
  exact (Nat.mul_le_mul_right _ hRow).trans_lt hFits.offset

theorem tableSize_lt {i : Nat} (hi : i < cfg.maxBatch) : cfg.tableSize < 2 ^ 31 := by
  have hPool := hFits.pool
  have hLe : cfg.tableSize ≤ cfg.maxBatch * cfg.tableSize :=
    Nat.le_mul_of_pos_left _ (Nat.zero_lt_of_lt hi)
  rw [← maxPages, ← tableSize] at hPool
  omega

end

end KvCacheConfig

/-- The pages of a slot hold the tokens of one layer and head. -/
def TokensHold (cfg : KvCacheConfig) (c : KvCache F) (i layer head : Nat)
    (stored : List (KvToken F)) :
    Prop :=
  ∀ pos token, stored[pos]? = some token →
    ∃ p, entry c (i, cfg.tableIndex layer head pos) = some p ∧
    ∀ d < cfg.headDim,
      (c.pagePool p).kPage (pos % cfg.kvPageSize * cfg.headDim + d) = token.k layer head d ∧
      (c.pagePool p).vPage (pos % cfg.kvPageSize * cfg.headDim + d) = token.v layer head d

structure PagedSlot (cfg : KvCacheConfig) (c : KvCache F) (i : Nat) (s : PartialSeq F) : Prop where
  seqId : (c.seqs i).seqId = i
  seqLen : (c.seqs i).seqLen = s.len
  isPaged : (c.seqs i).isPaged = true
  pages : (c.seqs i).pages.isSome = true
  numPages : (c.seqs i).numPages = cfg.maxPages
  len_le : s.len ≤ cfg.maxSeqLen
  short : ∀ layer < cfg.numLayers, ∀ head < cfg.numKvHeads,
    (s.stored layer head).length ≤ cfg.maxSeqLen
  holds : ∀ layer < cfg.numLayers, ∀ head < cfg.numKvHeads,
    TokensHold cfg c i layer head (s.stored layer head)

/-- The pages of the slots in use hold what is described, and no page is lost or
in two places. -/
structure PagedRel (cfg : KvCacheConfig) (c : KvCache F) (a : KvPartial F) : Prop where
  fits : cfg.PagesFit
  config : c.config = cfg
  capacity : c.pagePoolCap = cfg.totalPages
  accounted : Library.Accounted (entry c) c.freePages cfg.totalPages
  entry_in : ∀ x p, entry c x = some p → x.1 < cfg.maxBatch ∧ x.2 < cfg.tableSize
  free : ∀ i < cfg.maxBatch, a i = none → (c.seqs i).seqId < 0 ∧ (c.seqs i).pages = none
  slot : ∀ i < cfg.maxBatch, ∀ s, a i = some s → PagedSlot cfg c i s

/-- Tokens are added for one layer and head; the length stays. -/
def PartialSeq.store (s : PartialSeq F) (layer head : Nat) (new : List (KvToken F)) :
    PartialSeq F where
  len := s.len
  stored := fun layer' head' =>
    if layer' = layer ∧ head' = head then s.stored layer head ++ new else s.stored layer' head'

namespace PagedRel

variable {cfg : KvCacheConfig} {c : KvCache F} {a b : KvPartial F} {i : Nat} {s : PartialSeq F}

theorem congr (h : PagedRel cfg c a) (hSame : SameSlots cfg a b) : PagedRel cfg c b where
  fits := h.fits
  config := h.config
  capacity := h.capacity
  accounted := h.accounted
  entry_in := h.entry_in
  free := fun i hi hNone => h.free i hi (hSame.eq_none hi hNone)
  slot := fun i hi t ht => by
    obtain ⟨s, hs, hLen, hStored⟩ := hSame.exists_left hi ht
    have hSlot := h.slot i hi s hs
    exact { hSlot with
      seqLen := hSlot.seqLen.trans hLen
      len_le := hLen ▸ hSlot.len_le
      short := fun layer hLayer head hHead =>
        hStored layer hLayer head hHead ▸ hSlot.short layer hLayer head hHead
      holds := fun layer hLayer head hHead =>
        hStored layer hLayer head hHead ▸ hSlot.holds layer hLayer head hHead }

theorem freePages_ne_nil (h : PagedRel cfg c a) : c.freePages ≠ [] := by
  refine h.accounted.free_ne_nil (Finset.range cfg.maxBatch ×ˢ Finset.range cfg.tableSize)
    (fun x p hx => ?_) ?_
  · rw [Finset.mem_product, Finset.mem_range, Finset.mem_range]
    exact h.entry_in x p hx
  · rw [Finset.card_product, Finset.card_range, Finset.card_range]
    exact KvCacheConfig.tableSize_mul_lt h.fits

theorem TokensHold_mono {c c' : KvCache F} {i : Nat} {stored : List (KvToken F)}
    (h : TokensHold cfg c i layer head stored)
    (hEntry : ∀ x p, entry c x = some p → entry c' x = some p)
    (hPool : c'.pagePool = c.pagePool) :
    TokensHold cfg c' i layer head stored := by
  intro pos token hGet
  obtain ⟨p, hp, hVectors⟩ := h pos token hGet
  exact ⟨p, hEntry _ p hp, hPool ▸ hVectors⟩

/-- Entries change only where a page is taken for positions of one layer and head. -/
def TakesFor (cfg : KvCacheConfig) (c d : KvCache F) (i layer head start stop : Nat) : Prop :=
  ∀ x, entry d x = entry c x ∨ entry c x = none ∧
    ∃ pos, start ≤ pos ∧ pos < stop ∧ x = (i, cfg.tableIndex layer head pos)

theorem TakesFor.trans {c d e : KvCache F} {start middle stop : Nat}
    (h : TakesFor cfg c d i layer head start middle)
    (h' : TakesFor cfg d e i layer head middle stop)
    (hStart : start ≤ middle) (hStop : middle ≤ stop) :
    TakesFor cfg c e i layer head start stop := by
  intro x
  rcases h x with hSame | ⟨hNone, pos, hLow, hHigh, hAt⟩
  · rcases h' x with hSame' | ⟨hNone, pos, hLow, hHigh, hAt⟩
    · exact .inl (hSame'.trans hSame)
    · exact .inr ⟨hSame ▸ hNone, pos, by omega, hHigh, hAt⟩
  · exact .inr ⟨hNone, pos, hLow, by omega, hAt⟩

theorem findOrAllocPage (h : PagedRel cfg c a) {table : Nat → Option Nat} {idx : Nat}
    (hi : i < cfg.maxBatch) (hs : a i = some s) (hPages : (c.seqs i).pages = some table)
    (hIdx : idx < cfg.tableSize) :
    ∃ p d, findOrAllocPage c i idx table = some (p, d) ∧ PagedRel cfg d a ∧
      entry d (i, idx) = some p ∧ d.config = c.config ∧
      ∀ x, entry d x = entry c x ∨ entry c x = none ∧ x = (i, idx) := by
  have hEntry : entry c (i, idx) = table idx := by rw [entry, hPages]; rfl
  rw [Ml.findOrAllocPage]
  cases hFound : table idx with
  | some p => exact ⟨p, c, rfl, h, hEntry.trans hFound, rfl, fun _ => .inl rfl⟩
  | none =>
    rw [kvAllocPage]
    cases hFree : c.freePages with
    | nil => exact absurd hFree h.freePages_ne_nil
    | cons p rest =>
      set taken : KvCache F := { c with freePages := rest } with hTaken
      have hNewEntry : entry (taken.setEntry i idx table (some p)) =
          update (entry c) (i, idx) (some p) := entry_setEntry hPages
      have hTakes : ∀ x, entry (taken.setEntry i idx table (some p)) x = entry c x ∨
          entry c x = none ∧ x = (i, idx) := by
        intro x
        by_cases hSame : x = (i, idx)
        · exact .inr ⟨by rw [hSame, hEntry, hFound], hSame⟩
        · exact .inl (by rw [hNewEntry, update_of_ne hSame])
      have hKept : ∀ x q, entry c x = some q →
          entry (taken.setEntry i idx table (some p)) x = some q := by
        intro x q hx
        rcases hTakes x with hSame | ⟨hNone, -⟩
        · rw [hSame, hx]
        · exact absurd (hx.symm.trans hNone) (Option.some_ne_none _)
      have hAccounted := h.accounted
      rw [hFree] at hAccounted
      refine ⟨p, taken.setEntry i idx table (some p), rfl, ?_, ?_, rfl, hTakes⟩
      · exact {
          fits := h.fits
          config := h.config
          capacity := h.capacity
          accounted := by
            rw [hNewEntry]
            exact hAccounted.take (hEntry.trans hFound)
          entry_in := fun x q hx => by
            by_cases hSame : x = (i, idx)
            · rw [hSame]
              exact ⟨hi, hIdx⟩
            · rw [hNewEntry, update_of_ne hSame] at hx
              exact h.entry_in x q hx
          free := fun j hj hNone => by
            have hOther : j ≠ i := fun hSame => by
              rw [hSame, hs] at hNone
              cases hNone
            have hSeq : (taken.setEntry i idx table (some p)).seqs j = c.seqs j := if_neg hOther
            rw [hSeq]
            exact h.free j hj hNone
          slot := fun j hj t ht => by
            have hSlot := h.slot j hj t ht
            have hSeq : ((taken.setEntry i idx table (some p)).seqs j).seqId = (c.seqs j).seqId ∧
                ((taken.setEntry i idx table (some p)).seqs j).seqLen = (c.seqs j).seqLen ∧
                ((taken.setEntry i idx table (some p)).seqs j).isPaged = (c.seqs j).isPaged ∧
                ((taken.setEntry i idx table (some p)).seqs j).pages.isSome =
                  (c.seqs j).pages.isSome ∧
                ((taken.setEntry i idx table (some p)).seqs j).numPages = (c.seqs j).numPages := by
              by_cases hSame : j = i
              · subst hSame
                simp [KvCache.setEntry, KvCache.setSeq, hTaken, hPages]
              · simp [KvCache.setEntry, KvCache.setSeq, hTaken, hSame]
            exact {
              seqId := hSeq.1.trans hSlot.seqId
              seqLen := hSeq.2.1.trans hSlot.seqLen
              isPaged := hSeq.2.2.1.trans hSlot.isPaged
              pages := hSeq.2.2.2.1.trans hSlot.pages
              numPages := hSeq.2.2.2.2.trans hSlot.numPages
              len_le := hSlot.len_le
              short := hSlot.short
              holds := fun layer hLayer head hHead =>
                TokensHold_mono (hSlot.holds layer hLayer head hHead) hKept rfl } }
      · rw [hNewEntry, update_self]

theorem memcpy_page {dst src : Nat → F} {D at' slot d : Nat} (hd : d < D) :
    memcpy dst (at' * D) src D (slot * D + d) = if slot = at' then src d
      else dst (slot * D + d) := by
  have hRow := @memcpy_row F dst src at' slot D 0 D d (zero_add D).le hd
  rw [add_zero] at hRow
  rw [hRow]
  by_cases hSlot : slot = at'
  · rw [if_pos hSlot, if_pos ⟨hSlot, Nat.zero_le d, by omega⟩, Nat.sub_zero]
  · rw [if_neg hSlot, if_neg fun hBoth => hSlot hBoth.1]

/-- The page behind a copy to it. -/
def withToken (cfg : KvCacheConfig) (c : KvCache F) (p pos layer head : Nat) (token : KvToken F) :
    KvCache F :=
  c.setPage p {
    kPage := memcpy (c.pagePool p).kPage (pos % cfg.kvPageSize * cfg.headDim) (token.k layer head)
      cfg.headDim
    vPage := memcpy (c.pagePool p).vPage (pos % cfg.kvPageSize * cfg.headDim) (token.v layer head)
      cfg.headDim }

theorem copyToPage_eq (h : PagedRel cfg c a) (p : Nat) {layer head pos : Nat} (token : KvToken F)
    (hPos : pos < cfg.maxSeqLen) :
    Ml.copyToPage c p (pos % cfg.kvPageSize) (token.k layer head) (token.v layer head) =
      some (withToken cfg c p pos layer head token) := by
  rw [Ml.copyToPage, h.config, ← Int.natCast_mul,
    intIndex_of_lt (KvCacheConfig.offset_lt h.fits hPos)]
  rfl

theorem withToken_rel (h : PagedRel cfg c a) {layer head p : Nat} (token : KvToken F)
    (hi : i < cfg.maxBatch) (hs : a i = some s) (hHead : head < cfg.numKvHeads)
    (hFits : (s.stored layer head).length < cfg.maxSeqLen)
    (hEntry : entry c (i, cfg.tableIndex layer head (s.stored layer head).length) = some p) :
    PagedRel cfg (withToken cfg c p (s.stored layer head).length layer head token)
      (setSlot a i (some (s.store layer head [token]))) := by
  set pos := (s.stored layer head).length with hPos
  set d := withToken cfg c p pos layer head token with hd
  have hPool : ∀ q ≠ p, d.pagePool q = c.pagePool q := fun q hq => if_neg hq
  have hSelfK : (d.pagePool p).kPage =
      memcpy (c.pagePool p).kPage (pos % cfg.kvPageSize * cfg.headDim)
        (token.k layer head) cfg.headDim := by
    simp [hd, withToken, KvCache.setPage]
  have hSelfV : (d.pagePool p).vPage =
      memcpy (c.pagePool p).vPage (pos % cfg.kvPageSize * cfg.headDim)
        (token.v layer head) cfg.headDim := by
    simp [hd, withToken, KvCache.setPage]
  -- A stored token keeps its elements: it lies in another page or elsewhere in this one.
  have hKeep : ∀ j layer' head' pos' q, head' < cfg.numKvHeads → pos' < cfg.maxSeqLen →
      entry c (j, cfg.tableIndex layer' head' pos') = some q →
      (j = i → layer' = layer → head' = head → pos' ≠ pos) → ∀ e < cfg.headDim,
      (d.pagePool q).kPage (pos' % cfg.kvPageSize * cfg.headDim + e) =
          (c.pagePool q).kPage (pos' % cfg.kvPageSize * cfg.headDim + e) ∧
        (d.pagePool q).vPage (pos' % cfg.kvPageSize * cfg.headDim + e) =
          (c.pagePool q).vPage (pos' % cfg.kvPageSize * cfg.headDim + e) := by
    intro j layer' head' pos' q hHead' hPos' hq hElse e he
    by_cases hPage : q = p
    · subst hPage
      have hSame := h.accounted.injective _ _ q hq hEntry
      obtain ⟨rfl, hIndex⟩ := Prod.mk.inj hSame
      obtain ⟨⟨rfl, rfl⟩, hDiv⟩ :=
        KvCacheConfig.tableIndex_inj hHead' hHead hPos' hFits hIndex
      have hSlot : pos' % cfg.kvPageSize ≠ pos % cfg.kvPageSize := fun hMod => by
        refine hElse rfl rfl rfl ?_
        rw [← Nat.div_add_mod pos' cfg.kvPageSize, hDiv, hMod, Nat.div_add_mod]
      exact ⟨by rw [hSelfK, memcpy_page he, if_neg hSlot], by
        rw [hSelfV, memcpy_page he, if_neg hSlot]⟩
    · rw [hPool q hPage]
      exact ⟨rfl, rfl⟩
  exact {
    fits := h.fits
    config := h.config
    capacity := h.capacity
    accounted := h.accounted
    entry_in := h.entry_in
    free := fun j hj hNone => by
      by_cases hSame : j = i
      · simp only [setSlot, hSame, if_true] at hNone
        cases hNone
      · simp only [setSlot, hSame, if_false] at hNone
        exact h.free j hj hNone
    slot := fun j hj t ht => by
      by_cases hSame : j = i
      · subst hSame
        simp only [setSlot, if_true, Option.some.injEq] at ht
        subst ht
        have hSlot := h.slot j hj s hs
        exact { hSlot with
          short := fun layer' hLayer' head' hHead' => by
            by_cases hHere : layer' = layer ∧ head' = head
            · simp only [PartialSeq.store, hHere, and_self, if_true, length_append,
                length_singleton]
              omega
            · simp only [PartialSeq.store, hHere, if_false]
              exact hSlot.short layer' hLayer' head' hHead'
          holds := fun layer' hLayer' head' hHead' pos' token' hGet => by
            have hShort := hSlot.short layer' hLayer' head' hHead'
            by_cases hNew : (layer' = layer ∧ head' = head) ∧ pos' = pos
            · obtain ⟨⟨rfl, rfl⟩, rfl⟩ := hNew
              have hToken : token = token' := by
                simpa [PartialSeq.store, hPos] using hGet
              refine ⟨p, hEntry, fun e he => ?_⟩
              rw [← hToken]
              exact ⟨by rw [hSelfK, memcpy_page he, if_pos rfl], by
                rw [hSelfV, memcpy_page he, if_pos rfl]⟩
            · have hOld : (s.stored layer' head')[pos']? = some token' := by
                by_cases hHere : layer' = layer ∧ head' = head
                · obtain ⟨rfl, rfl⟩ := hHere
                  simp only [PartialSeq.store, and_self, if_true] at hGet
                  have hLt := (List.getElem?_eq_some_iff.mp hGet).1
                  rw [length_append, length_singleton] at hLt
                  rwa [getElem?_append_left (by omega)] at hGet
                · simpa only [PartialSeq.store, hHere, if_false] using hGet
              obtain ⟨q, hq, hVectors⟩ :=
                hSlot.holds layer' hLayer' head' hHead' pos' token' hOld
              refine ⟨q, hq, fun e he => ?_⟩
              have hLt := (List.getElem?_eq_some_iff.mp hOld).1
              have hSameElements := hKeep j layer' head' pos' q hHead' (by omega) hq
                (fun _ hl hh hAt => hNew ⟨⟨hl, hh⟩, hAt⟩) e he
              rw [hSameElements.1, hSameElements.2]
              exact hVectors e he }
      · simp only [setSlot, hSame, if_false] at ht
        have hSlot := h.slot j hj t ht
        exact { hSlot with
          holds := fun layer' hLayer' head' hHead' pos' token' hGet => by
            obtain ⟨q, hq, hVectors⟩ := hSlot.holds layer' hLayer' head' hHead' pos' token' hGet
            refine ⟨q, hq, fun e he => ?_⟩
            have hLt := (List.getElem?_eq_some_iff.mp hGet).1
            have hShort := hSlot.short layer' hLayer' head' hHead'
            have hSameElements := hKeep j layer' head' pos' q hHead' (by omega) hq
              (fun hj' => absurd hj' hSame) e he
            rw [hSameElements.1, hSameElements.2]
            exact hVectors e he } }

theorem entryIndex_eq (h : PagedRel cfg c a) (hi : i < cfg.maxBatch)
    (hNum : (c.seqs i).numPages = cfg.maxPages) (hLayer : layer < cfg.numLayers)
    (hHead : head < cfg.numKvHeads) (hPos : pos < cfg.maxSeqLen) :
    entryIndex c i (cfg.lhIndex layer head) pos = some (cfg.tableIndex layer head pos) := by
  have hIndex : (cfg.lhIndex layer head * cfg.maxPages + (pos / cfg.kvPageSize : Nat) : Int) =
      cfg.tableIndex layer head pos := rfl
  rw [entryIndex, h.config, hNum, if_pos (Int.ofNat_lt.mpr (KvCacheConfig.div_lt_maxPages hPos)),
    hIndex, intIndex_of_lt]
  exact (KvCacheConfig.tableIndex_lt hLayer hHead hPos).trans (KvCacheConfig.tableSize_lt h.fits hi)

theorem storeToken (h : PagedRel cfg c a) (layer head : Nat)
    (token : KvToken F) (hi : i < cfg.maxBatch)
    (hs : a i = some s) (hLayer : layer < cfg.numLayers) (hHead : head < cfg.numKvHeads)
    (hFits : (s.stored layer head).length < cfg.maxSeqLen) :
    ∃ d, storeToken c i (cfg.lhIndex layer head) (s.stored layer head).length (token.k layer head)
        (token.v layer head) = some d ∧
      PagedRel cfg d (setSlot a i (some (s.store layer head [token]))) ∧
      TakesFor cfg c d i layer head (s.stored layer head).length
        ((s.stored layer head).length + 1) := by
  have hSlot := h.slot i hi s hs
  obtain ⟨table, hPages⟩ := Option.isSome_iff_exists.mp hSlot.pages
  obtain ⟨p, found, hFound, hRel, hEntry, -, hTakes⟩ := h.findOrAllocPage hi hs hPages
    (KvCacheConfig.tableIndex_lt hLayer hHead hFits)
  have hCopied := hRel.withToken_rel token hi hs hHead hFits hEntry
  refine ⟨_, ?_, hCopied, fun x => (hTakes x).imp id fun hNew =>
    ⟨hNew.1, _, le_rfl, Nat.lt_add_one _, hNew.2⟩⟩
  rw [Ml.storeToken, hSlot.isPaged, hPages, h.config]
  simp only
  rw [h.entryIndex_eq hi hSlot.numPages hLayer hHead hFits, Option.bind_some, hFound,
    Option.bind_some, hRel.copyToPage_eq p token hFits]

theorem chunkTokens_succ (tokens : Nat) (k v : Nat → Nat → Nat → F) :
    chunkTokens cfg (tokens + 1) k v = chunkTokens cfg tokens k v ++
      [{ k := fun layer head d => k layer head (tokens * cfg.headDim + d)
         v := fun layer head d => v layer head (tokens * cfg.headDim + d) }] := by
  rw [chunkTokens, range_succ, map_append, ← chunkTokens]
  rfl

theorem store_store (s : PartialSeq F) (layer head : Nat) (new new' : List (KvToken F)) :
    (s.store layer head new).store layer head new' = s.store layer head (new ++ new') := by
  rw [PartialSeq.store, PartialSeq.store, PartialSeq.store]
  simp only [and_self, if_true, PartialSeq.mk.injEq, true_and]
  funext layer' head'
  by_cases hHere : layer' = layer ∧ head' = head
  · rw [if_pos hHere, if_pos hHere, append_assoc]
  · rw [if_neg hHere, if_neg hHere, if_neg hHere]

theorem storeTokens (h : PagedRel cfg c a) {layer head : Nat} (k v : Nat → Nat → Nat → F)
    (hi : i < cfg.maxBatch) (hs : a i = some s) (hLayer : layer < cfg.numLayers)
    (hHead : head < cfg.numKvHeads) (tokens : Nat)
    (hFits : (s.stored layer head).length + tokens ≤ cfg.maxSeqLen)
    (hRange : cfg.RangeFits tokens) :
    ∃ d, storeTokens c i (cfg.lhIndex layer head) (s.stored layer head).length (k layer head)
        (v layer head) tokens = some d ∧
      PagedRel cfg d (setSlot a i (some (s.store layer head (chunkTokens cfg tokens k v)))) ∧
      TakesFor cfg c d i layer head (s.stored layer head).length
        ((s.stored layer head).length + tokens) := by
  induction tokens with
  | zero =>
    refine ⟨c, rfl, h.congr ?_, fun _ => .inl rfl⟩
    have hSame := sameSlots_setSlot cfg a i (s := s)
        (t := s.store layer head (chunkTokens cfg 0 k v))
      rfl fun layer' _ head' _ => by
        by_cases hHere : layer' = layer ∧ head' = head
        · simp [PartialSeq.store, chunkTokens, hHere]
        · simp [PartialSeq.store, hHere]
    rwa [setSlot_of_eq hs] at hSame
  | succ n ih =>
    have hOffset : n * cfg.headDim < 2 ^ 31 := hRange
    obtain ⟨d, hRun, hRel, hTakes⟩ := ih (by omega)
      ((Nat.mul_le_mul_right _ (Nat.sub_le n 1)).trans_lt hOffset)
    have hLength : ((s.store layer head (chunkTokens cfg n k v)).stored layer head).length =
        (s.stored layer head).length + n := by
      simp [PartialSeq.store, chunkTokens_length]
    obtain ⟨e, hNext, hRel', hTakes'⟩ := hRel.storeToken layer head
      { k := fun layer head d => k layer head (n * cfg.headDim + d)
        v := fun layer head d => v layer head (n * cfg.headDim + d) } hi
          (setSlot_self _ _ _) hLayer hHead
      (by omega)
    rw [hLength] at hNext hTakes'
    refine ⟨e, ?_, ?_, hTakes.trans hTakes' (Nat.le_add_right _ _) (Nat.le_succ _)⟩
    · rw [Ml.storeTokens, hRun, Option.bind_some, hRel.config, ← Int.natCast_mul,
        intIndex_of_lt hOffset, Option.bind_some]
      exact hNext
    · rw [setSlot_setSlot, store_store, ← chunkTokens_succ] at hRel'
      exact hRel'

theorem replaceSlot (h : PagedRel cfg c a) {c' : KvCache F} (o : Option (PartialSeq F))
    (hConfig : c'.config = c.config) (hCapacity : c'.pagePoolCap = c.pagePoolCap)
    (hPool : c'.pagePool = c.pagePool) (hOther : ∀ j, j ≠ i → c'.seqs j = c.seqs j)
    (hAccounted : Library.Accounted (entry c') c'.freePages cfg.totalPages)
    (hEntry : ∀ x p, entry c' x = some p → entry c x = some p)
    (hFree : o = none → (c'.seqs i).seqId < 0 ∧ (c'.seqs i).pages = none)
    (hSlot : ∀ s, o = some s → PagedSlot cfg c' i s) : PagedRel cfg c' (setSlot a i o) where
  fits := h.fits
  config := hConfig.trans h.config
  capacity := hCapacity.trans h.capacity
  accounted := hAccounted
  entry_in := fun x p hx => h.entry_in x p (hEntry x p hx)
  free := fun j hj hNone => by
    by_cases hSame : j = i
    · simp only [setSlot, hSame, if_true] at hNone
      exact hSame ▸ hFree hNone
    · simp only [setSlot, hSame, if_false] at hNone
      rw [hOther j hSame]
      exact h.free j hj hNone
  slot := fun j hj t ht => by
    by_cases hSame : j = i
    · simp only [setSlot, hSame, if_true] at ht
      exact hSame ▸ hSlot t ht
    · simp only [setSlot, hSame, if_false] at ht
      have hOld := h.slot j hj t ht
      have hSeq := hOther j hSame
      exact {
        seqId := hSeq ▸ hOld.seqId
        seqLen := hSeq ▸ hOld.seqLen
        isPaged := hSeq ▸ hOld.isPaged
        pages := hSeq ▸ hOld.pages
        numPages := hSeq ▸ hOld.numPages
        len_le := hOld.len_le
        short := hOld.short
        holds := fun layer hLayer head hHead pos token hGet => by
          obtain ⟨p, hp, hVectors⟩ := hOld.holds layer hLayer head hHead pos token hGet
          refine ⟨p, ?_, hPool ▸ hVectors⟩
          rw [entry, hSeq]
          exact hp }

theorem entry_setSeq {seq : KvSeq F} (hPages : ∀ idx, seq.pages.bind (fun table => table idx) =
    entry c (i, idx)) : entry (c.setSeq i seq) = entry c := by
  funext x
  obtain ⟨j, idx⟩ := x
  by_cases hj : j = i
  · subst hj
    rw [entry, setSeq_self, hPages]
  · simp [entry, KvCache.setSeq, hj]

section

variable (h : PagedRel cfg c a)
include h

theorem setLen {n : Nat} (hn : n ≤ cfg.maxSeqLen) (hi : i < cfg.maxBatch) (hs : a i = some s) :
    PagedRel cfg (c.setSeq i { c.seqs i with seqLen := n })
      (setSlot a i (some { s with len := n })) := by
  have hSlot := h.slot i hi s hs
  have hEntry : entry (c.setSeq i { c.seqs i with seqLen := n }) = entry c := entry_setSeq fun _ =>
    rfl
  refine h.replaceSlot _ rfl rfl rfl (fun j hj => if_neg hj) (hEntry ▸ h.accounted)
    (fun x p hx => hEntry ▸ hx) (by simp) fun t ht => ?_
  cases ht
  exact {
    seqId := by rw [setSeq_self]; exact hSlot.seqId
    seqLen := by rw [setSeq_self]
    isPaged := by rw [setSeq_self]; exact hSlot.isPaged
    pages := by rw [setSeq_self]; exact hSlot.pages
    numPages := by rw [setSeq_self]; exact hSlot.numPages
    len_le := hn
    short := hSlot.short
    holds := fun layer hLayer head hHead =>
      TokensHold_mono (hSlot.holds layer hLayer head hHead) (fun x p hx => by rw [hEntry, hx]) rfl }

theorem prefill (hLayout : cfg.layout = .paged) {tokens : Nat}
    {k v : Nat → Nat → Nat → F} (hi : i < cfg.maxBatch) (hs : a i = some s)
    (hLayer : layer < cfg.numLayers) (hHead : head < cfg.numKvHeads)
    (hEnd : (s.stored layer head).length = s.len) (hFits : s.len + tokens ≤ cfg.maxSeqLen)
    (hRange : cfg.RangeFits tokens) :
    ∃ d, cpxKvcachePrefill c i layer head (k layer head) (v layer head) tokens = some d ∧
      PagedRel cfg d (setSlot a i (some (s.extend cfg layer head (chunkTokens cfg tokens k v)))) ∧
      TakesFor cfg c d i layer head s.len (s.len + tokens) := by
  have hSlot := h.slot i hi s hs
  obtain ⟨d, hRun, hRel, hTakes⟩ := h.storeTokens k v hi hs hLayer hHead tokens (hEnd ▸ hFits)
    hRange
  rw [hEnd] at hTakes
  have hSlot' := hRel.slot i hi _ (setSlot_self _ _ _)
  have hEntry : entry (advance d i layer head tokens) = entry d := by
    rw [advance]
    split
    · exact entry_setSeq fun _ => rfl
    · rfl
  refine ⟨advance d i layer head tokens, ?_, ?_, fun x => hEntry ▸ hTakes x⟩
  · rw [cpxKvcachePrefill, h.config, hLayout]
    rw [hSlot.isPaged, hSlot.pages, hSlot.seqLen, ← hEnd, Bool.and_true, if_pos rfl, hRun]
    rfl
  · rw [advance, hRel.config]
    by_cases hLast : layer + 1 = cfg.numLayers ∧ head + 1 = cfg.numKvHeads
    · rw [if_pos hLast]
      have hLonger := hRel.setLen (n := (d.seqs i).seqLen + tokens) (by
        rw [hSlot'.seqLen]
        exact hFits) hi (setSlot_self _ _ _)
      rw [setSlot_setSlot] at hLonger
      refine hLonger.congr (sameSlots_setSlot cfg _ _ ?_ fun _ _ _ _ => rfl)
      simp only [PartialSeq.extend, hLast, and_self, if_true, chunkTokens_length, hSlot'.seqLen,
        PartialSeq.store]
    · rw [if_neg hLast]
      refine hRel.congr (sameSlots_setSlot cfg _ _ ?_ fun _ _ _ _ => rfl)
      simp only [PartialSeq.extend, hLast, if_false, PartialSeq.store]

theorem allocSeq (hLayout : cfg.layout = .paged) (hi : i < cfg.maxBatch) (hs : a i = none)
    (hFind : ((List.range c.config.maxBatch).find? fun i =>
      decide ((c.seqs i).seqId < 0)) = some i) :
    PagedRel cfg (cpxKvcacheAllocSeq c 0).2 (setSlot a i (some (.whole []))) := by
  have hPages := (h.free i hi hs).2
  have hTable : intIndex (cfg.lhCount * cfg.maxPages) = some cfg.tableSize :=
    intIndex_of_lt (KvCacheConfig.tableSize_lt h.fits hi)
  rw [cpxKvcacheAllocSeq, hFind, h.config, hLayout, KvCacheConfig.kvMaxPages_eq h.fits, hTable]
  set seq : KvSeq F := { c.seqs i with
    seqId := i, seqLen := 0, isPaged := true, pages := some fun _ => none
    numPages := cfg.maxPages } with hSeq
  have hEntry : entry (c.setSeq i seq) = entry c := entry_setSeq fun idx => by
    rw [entry, hPages]
    rfl
  refine h.replaceSlot _ rfl rfl rfl (fun j hj => if_neg hj) (hEntry ▸ h.accounted)
    (fun x p hx => hEntry ▸ hx) (by simp) fun t ht => ?_
  cases ht
  exact {
    seqId := by rw [setSeq_self]
    seqLen := by rw [setSeq_self]; rfl
    isPaged := by rw [setSeq_self]
    pages := by rw [setSeq_self]; rfl
    numPages := by rw [setSeq_self]
    len_le := Nat.zero_le _
    short := fun _ _ _ _ => Nat.zero_le _
    holds := fun _ _ _ _ pos token hGet => by simp [PartialSeq.whole] at hGet }

theorem free_iff (hi : i < cfg.maxBatch) : (c.seqs i).seqId < 0 ↔ a i = none := by
  constructor
  · intro hFree
    cases hs : a i with
    | none => rfl
    | some s =>
      have hId := (h.slot i hi s hs).seqId
      omega
  · exact fun hNone => (h.free i hi hNone).1

end

/-- The table without some entries of one slot. -/
def emptied (entries : Nat × Nat → Option Nat) (i : Nat) (done : List Nat) :
    Nat × Nat → Option Nat :=
  fun x => if x.1 = i ∧ x.2 ∈ done then none else entries x

theorem emptied_cons (entries : Nat × Nat → Option Nat) (i idx : Nat) (done : List Nat) :
    emptied entries i (idx :: done) = update (emptied entries i done) (i, idx) none := by
  funext x
  obtain ⟨j, jdx⟩ := x
  by_cases hSame : (j, jdx) = (i, idx)
  · obtain ⟨rfl, rfl⟩ := Prod.mk.inj hSame
    simp [emptied]
  · rw [update_of_ne hSame, emptied, emptied]
    refine if_congr (and_congr_right fun hj => ?_) rfl rfl
    rw [mem_cons, or_iff_right]
    exact fun hIdx => hSame (Prod.ext hj hIdx)

theorem kvFreePage_eq {ι : Type*} {entries : ι → Option Nat} {x : ι} {p n : Nat}
    (hCap : c.pagePoolCap = n) (h : Library.Accounted entries c.freePages n)
    (hx : entries x = some p) :
    kvFreePage c p = { c with freePages := p :: c.freePages } := by
  rw [kvFreePage, hCap, if_neg (not_le.mpr (Int.ofNat_lt.mpr (h.free_length_lt hx)))]

theorem foldl_freeEntry {entries : Nat × Nat → Option Nat}
    (hTable : ∀ idx, entries (i, idx) = table idx) {idxs : List Nat} (hNodup : idxs.Nodup)
    {done : List Nat} (hNew : ∀ idx ∈ idxs, idx ∉ done) {n : Nat} (hCap : c.pagePoolCap = n)
    (h : Library.Accounted (emptied entries i done) c.freePages n) :
    ∃ free, idxs.foldl (freeEntry table) c = { c with freePages := free } ∧
      Library.Accounted (emptied entries i (idxs.reverse ++ done)) free n := by
  induction idxs generalizing c done with
  | nil => exact ⟨c.freePages, rfl, h⟩
  | cons idx idxs ih =>
    have hSplit := nodup_cons.mp hNodup
    have hEntry : emptied entries i done (i, idx) = table idx := by
      rw [emptied, if_neg fun hBoth => hNew idx mem_cons_self hBoth.2, hTable]
    have hRest : ∀ jdx ∈ idxs, jdx ∉ idx :: done := fun jdx hj hMem => by
      rcases mem_cons.mp hMem with rfl | hDone
      · exact hSplit.1 hj
      · exact hNew jdx (mem_cons_of_mem _ hj) hDone
    rw [foldl_cons, freeEntry, reverse_cons, append_assoc, singleton_append]
    cases hPage : table idx with
    | none =>
      refine ih hSplit.2 hRest hCap ?_
      have hSame : emptied entries i (idx :: done) = emptied entries i done := by
        rw [emptied_cons, update_eq_self_iff, hEntry, hPage]
      rwa [hSame]
    | some p =>
      have hIn := hEntry.trans hPage
      have hGiven := h.give hIn
      rw [← emptied_cons] at hGiven
      simp only
      rw [kvFreePage_eq hCap h hIn]
      obtain ⟨free, hRun, hEnd⟩ :=
        ih (c := { c with freePages := p :: c.freePages }) hSplit.2 hRest hCap
        hGiven
      exact ⟨free, hRun, hEnd⟩

/-- What a loop that also clears the entries leaves as it was. -/
structure Cleared (c d : KvCache F) (i : Nat)
    (table table' : Nat → Option Nat) (idxs : List Nat) :
    Prop where
  config : d.config = c.config
  capacity : d.pagePoolCap = c.pagePoolCap
  pool : d.pagePool = c.pagePool
  other : ∀ j, j ≠ i → d.seqs j = c.seqs j
  self : d.seqs i = { c.seqs i with pages := some table' }
  table_eq : ∀ idx, table' idx = if idx ∈ idxs then none else table idx

theorem foldl_clearEntry (hPages : (c.seqs i).pages = some table) (idxs : List Nat) {n : Nat}
    (hCap : c.pagePoolCap = n) (h : Library.Accounted (entry c) c.freePages n) :
    ∃ table', Cleared c (idxs.foldl (clearEntry i) c) i table table' idxs ∧
      Library.Accounted (entry (idxs.foldl (clearEntry i) c))
        (idxs.foldl (clearEntry i) c).freePages n := by
  induction idxs generalizing c table with
  | nil =>
    refine ⟨table, ⟨rfl, rfl, rfl, fun _ _ => rfl, ?_, fun idx => by simp⟩, h⟩
    rw [← hPages]
    rfl
  | cons idx idxs ih =>
    rw [foldl_cons, clearEntry, hPages]
    simp only
    cases hPage : table idx with
    | none =>
      obtain ⟨table', hEnd, hAccounted⟩ := ih hPages hCap h
      refine ⟨table', { hEnd with table_eq := fun jdx => ?_ }, hAccounted⟩
      rw [hEnd.table_eq]
      by_cases hj : jdx = idx
      · rw [hj, hPage]
        simp
      · simp [hj]
    | some p =>
      have hIn : entry c (i, idx) = some p := by
        rw [entry, hPages]
        exact hPage
      have hGiven := h.give hIn
      simp only
      rw [kvFreePage_eq hCap h hIn]
      set d : KvCache F :=
        KvCache.setEntry { c with freePages := p :: c.freePages } i idx table none with hd
      have hSeq : d.seqs i = { c.seqs i with
          pages := some fun jdx => if jdx = idx then none else table jdx } := if_pos rfl
      have hEntry : entry d = update (entry c) (i, idx) none := entry_setEntry hPages
      obtain ⟨table', hEnd, hAccounted⟩ :=
        ih (c := d) (by rw [hSeq]) hCap (by rw [hEntry]; exact hGiven)
      refine ⟨table', {
        config := hEnd.config
        capacity := hEnd.capacity
        pool := hEnd.pool
        other := fun j hj => (hEnd.other j hj).trans (if_neg hj)
        self := by rw [hEnd.self, hSeq]
        table_eq := fun jdx => ?_ }, hAccounted⟩
      rw [hEnd.table_eq]
      by_cases hj : jdx = idx <;> simp [hj]

/-- The entries of all layers and heads from one page on, without the size of an `int`. -/
def entriesFrom (lhCount maxPages first : Nat) : List Nat :=
  (List.range lhCount).flatMap fun lh =>
    (List.range' first (maxPages - first)).map fun p => lh * maxPages + p

theorem mem_entriesFrom {lhCount maxPages first idx : Nat}
    (h : idx ∈ entriesFrom lhCount maxPages first) :
    first ≤ idx % maxPages ∧ idx < lhCount * maxPages := by
  obtain ⟨lh, hLh, hIdx⟩ := mem_flatMap.mp h
  obtain ⟨p, hp, rfl⟩ := mem_map.mp hIdx
  rw [mem_range'_1] at hp
  constructor
  · rw [mul_comm, Nat.mul_add_mod, Nat.mod_eq_of_lt (by omega)]
    exact hp.1
  · calc lh * maxPages + p
      _ < lh * maxPages + maxPages := by omega
      _ = (lh + 1) * maxPages := (Nat.succ_mul _ _).symm
      _ ≤ lhCount * maxPages := Nat.mul_le_mul_right _ (mem_range.mp hLh)

theorem entriesFrom_zero (lhCount maxPages : Nat) :
    entriesFrom lhCount maxPages 0 = List.range (lhCount * maxPages) := by
  induction lhCount with
  | zero => simp [entriesFrom]
  | succ n ih =>
    rw [entriesFrom, range_succ, flatMap_append, ← entriesFrom, ih, Nat.succ_mul,
      range_add, flatMap_cons, flatMap_nil, append_nil, Nat.sub_zero,
      ← range_eq_range']

theorem mapM_intIndex {idxs : List Nat} (h : ∀ idx ∈ idxs, idx < 2 ^ 31) :
    (idxs.map fun idx : Nat => (idx : Int)).mapM intIndex = some idxs := by
  induction idxs with
  | nil => rfl
  | cons idx idxs ih =>
    rw [map_cons, mapM_cons, intIndex_of_lt (h idx mem_cons_self),
      ih fun jdx hj => h jdx (mem_cons_of_mem idx hj)]
    rfl

theorem tableEntries_eq {lhCount maxPages : Nat} (hSize : lhCount * maxPages < 2 ^ 31)
    (first : Nat) :
    tableEntries lhCount maxPages first = some (entriesFrom lhCount maxPages first) := by
  rcases Nat.eq_zero_or_pos maxPages with rfl | hPos
  · have hNone : ∀ {α : Type} (lhs : List Nat), (lhs.flatMap fun _ => ([] : List α)) = [] :=
      fun _ => flatMap_eq_nil_iff.mpr fun _ _ => rfl
    simp [tableEntries, entriesFrom, hNone]
  · have hCount : lhCount < 2 ^ 31 := (Nat.le_mul_of_pos_right _ hPos).trans_lt hSize
    rw [← mapM_intIndex fun idx hIdx => (mem_entriesFrom hIdx).2.trans hSize, tableEntries,
      intVal_of_lt hCount, Int.toNat_natCast, entriesFrom, map_flatMap]
    simp only [range'_eq_map_range, map_map]
    rw [Int.toNat_sub]
    rfl

theorem tableIndex_not_mem {newLen : Nat} (hPos : pos < newLen)
    (hShort : newLen ≤ cfg.maxSeqLen) :
    cfg.tableIndex layer head pos ∉ entriesFrom cfg.lhCount cfg.maxPages
      (pagesFor cfg newLen) := by
  intro hMem
  have hFirst := (mem_entriesFrom hMem).1
  rw [KvCacheConfig.tableIndex_mod (by omega), pagesFor] at hFirst
  have hPs := cfg.kvPageSize_pos
  have hCeil := Nat.lt_div_mul_add (a := newLen + cfg.kvPageSize - 1) hPs
  have hMul := Nat.mul_le_mul_right cfg.kvPageSize hFirst
  have hDiv := Nat.div_mul_le_self pos cfg.kvPageSize
  omega

theorem rollback (h : PagedRel cfg c a) (hLayout : cfg.layout = .paged) {newLen : Nat}
    (hi : i < cfg.maxBatch) (hs : a i = some (.whole tokens))
    (hShorter : newLen ≤ tokens.length) :
    ∃ d, cpxKvcacheRollback c i newLen = some d ∧
      PagedRel cfg d (setSlot a i (some (.whole (tokens.take newLen)))) := by
  have hSlot := h.slot i hi _ hs
  obtain ⟨table, hPages⟩ := Option.isSome_iff_exists.mp hSlot.pages
  obtain ⟨table', hCleared, hAccounted⟩ := foldl_clearEntry hPages
    (entriesFrom cfg.lhCount cfg.maxPages (pagesFor cfg newLen)) h.capacity h.accounted
  set d := (entriesFrom cfg.lhCount cfg.maxPages (pagesFor cfg newLen)).foldl
    (clearEntry i) c with hd
  have hLe : newLen ≤ (c.seqs i).seqLen := hSlot.seqLen ▸ hShorter
  have hEntries : tableEntries cfg.lhCount cfg.maxPages (pagesFor cfg newLen) =
      some (entriesFrom cfg.lhCount cfg.maxPages (pagesFor cfg newLen)) :=
    tableEntries_eq (KvCacheConfig.tableSize_lt h.fits hi) _
  refine ⟨d.setSeq i { d.seqs i with seqLen := newLen }, ?_, ?_⟩
  · rw [cpxKvcacheRollback, if_pos hLe, h.config, if_pos ⟨hLayout, hSlot.isPaged, hSlot.pages⟩,
      hSlot.numPages, KvCacheConfig.kvPages_eq h.fits (hShorter.trans hSlot.len_le), hEntries]
    rfl
  · have hEntry : entry (d.setSeq i { d.seqs i with seqLen := newLen }) = entry d :=
      entry_setSeq fun _ => rfl
    have hKept : ∀ idx p, entry d (i, idx) = some p ↔
        idx ∉ entriesFrom cfg.lhCount cfg.maxPages (pagesFor cfg newLen) ∧
          entry c (i, idx) = some p := by
      intro idx p
      have hOld : entry c (i, idx) = table idx := by rw [entry, hPages]; rfl
      have hNew : entry d (i, idx) = table' idx := by rw [entry, hCleared.self]; rfl
      rw [hOld, hNew, hCleared.table_eq]
      by_cases hMem : idx ∈ entriesFrom cfg.lhCount cfg.maxPages (pagesFor cfg newLen)
      · simp [hMem]
      · simp [hMem]
    refine h.replaceSlot _ hCleared.config hCleared.capacity hCleared.pool
      (fun j hj => (if_neg hj).trans (hCleared.other j hj)) ?_ (fun x p hx => ?_)
      (by simp) fun t ht => ?_
    · rw [hEntry]
      exact hAccounted
    · rw [hEntry] at hx
      obtain ⟨j, idx⟩ := x
      by_cases hj : j = i
      · subst hj
        exact ((hKept idx p).mp hx).2
      · rw [entry, hCleared.other j hj] at hx
        exact hx
    · cases ht
      have hShort : ∀ layer < cfg.numLayers, ∀ head < cfg.numKvHeads,
          tokens.length ≤ cfg.maxSeqLen :=
        hSlot.short
      exact {
        seqId := by rw [setSeq_self, hCleared.self]; exact hSlot.seqId
        seqLen := by rw [setSeq_self]; simp [PartialSeq.whole, hShorter]
        isPaged := by rw [setSeq_self, hCleared.self]; exact hSlot.isPaged
        pages := by rw [setSeq_self, hCleared.self]; rfl
        numPages := by rw [setSeq_self, hCleared.self]; exact hSlot.numPages
        len_le := (length_take_le' _ _).trans hSlot.len_le
        short := fun layer hLayer head hHead =>
          (length_take_le' _ _).trans (hSlot.short layer hLayer head hHead)
        holds := fun layer hLayer head hHead pos token hGet => by
          have hTake : (tokens.take newLen)[pos]? = some token := hGet
          have hPos : pos < newLen := by
            have hLength := (List.getElem?_eq_some_iff.mp hTake).1
            rw [length_take] at hLength
            omega
          rw [getElem?_take, if_pos hPos] at hTake
          obtain ⟨p, hp, hVectors⟩ := hSlot.holds layer hLayer head hHead pos token hTake
          refine ⟨p, ?_, hCleared.pool ▸ hVectors⟩
          rw [hEntry, hKept]
          exact ⟨tableIndex_not_mem hPos
            (hShorter.trans (hShort layer hLayer head hHead)), hp⟩ }

theorem freeSeq (h : PagedRel cfg c a) (hi : i < cfg.maxBatch) (hs : a i = some s) :
    ∃ d, cpxKvcacheFreeSeq c i = some d ∧ PagedRel cfg d (setSlot a i none) := by
  have hSlot := h.slot i hi _ hs
  obtain ⟨table, hPages⟩ := Option.isSome_iff_exists.mp hSlot.pages
  have hTable : ∀ idx, entry c (i, idx) = table idx := fun idx => by rw [entry, hPages]; rfl
  have hAccounted : Library.Accounted (emptied (entry c) i []) c.freePages cfg.totalPages :=
    h.accounted.congr fun x => by simp [emptied]
  have hEntries : tableEntries cfg.lhCount cfg.maxPages 0 =
      some (entriesFrom cfg.lhCount cfg.maxPages 0) :=
    tableEntries_eq (KvCacheConfig.tableSize_lt h.fits hi) 0
  obtain ⟨free, hRun, hEnd⟩ := foldl_freeEntry hTable
    (entriesFrom_zero cfg.lhCount cfg.maxPages ▸ nodup_range) (fun _ _ => not_mem_nil) h.capacity
    hAccounted
  set d : KvCache F := KvCache.setSeq { c with freePages := free } i { c.seqs i with
    pages := none, numPages := 0, seqId := -1, seqLen := 0 } with hd
  refine ⟨d, ?_, ?_⟩
  · rw [cpxKvcacheFreeSeq, if_pos (by rw [h.config]; exact hi), hSlot.isPaged, hPages, h.config,
      KvCacheConfig.kvMaxPages_eq h.fits, hEntries]
    simp only [Option.map_some]
    rw [hRun, setSeq_self, setSeq_setSeq]
  · have hEntry : entry d = emptied (entry c) i
        ((entriesFrom cfg.lhCount cfg.maxPages 0).reverse ++ []) := by
      funext x
      obtain ⟨j, idx⟩ := x
      by_cases hj : j = i
      · subst hj
        have hGone : entry d (j, idx) = none := by rw [entry, hd, setSeq_self]; rfl
        rw [hGone, emptied, entriesFrom_zero]
        by_cases hIdx : idx < cfg.tableSize
        · have hMem : idx ∈ (List.range (cfg.lhCount * cfg.maxPages)).reverse ++ [] :=
            mem_append_left _ (mem_reverse.mpr (mem_range.mpr hIdx))
          rw [if_pos ⟨rfl, hMem⟩]
        · cases hOld : entry c (j, idx) with
          | none => simp
          | some p => exact absurd (h.entry_in _ p hOld).2 hIdx
      · simp [entry, hd, KvCache.setSeq, emptied, hj]
    refine h.replaceSlot none rfl rfl rfl (fun j hj => if_neg hj) ?_ (fun x p hx => ?_)
      (fun _ => ?_) (by simp)
    · rw [hEntry]
      exact hEnd
    · rw [hEntry, emptied] at hx
      split at hx
      · cases hx.symm
      · exact hx
    · rw [hd, setSeq_self]
      exact ⟨Int.negSucc_lt_zero 0, rfl⟩

theorem findPage_eq {token : KvToken F} (h : PagedRel cfg c a) (hi : i < cfg.maxBatch)
    (hs : a i = some (.whole tokens)) (hLayer : layer < cfg.numLayers)
    (hHead : head < cfg.numKvHeads) (hGet : tokens[pos]? = some token) :
    ∃ page, findPage c i (cfg.lhIndex layer head) pos = some page ∧ ∀ d < cfg.headDim,
      page.kPage (pos % cfg.kvPageSize * cfg.headDim + d) = token.k layer head d ∧
      page.vPage (pos % cfg.kvPageSize * cfg.headDim + d) = token.v layer head d := by
  have hSlot := h.slot i hi _ hs
  obtain ⟨table, hPages⟩ := Option.isSome_iff_exists.mp hSlot.pages
  obtain ⟨p, hp, hVectors⟩ := hSlot.holds layer hLayer head hHead pos token hGet
  have hShort : tokens.length ≤ cfg.maxSeqLen := hSlot.short layer hLayer head hHead
  have hLt := (List.getElem?_eq_some_iff.mp hGet).1
  refine ⟨c.pagePool p, ?_, hVectors⟩
  have hTable : table (cfg.tableIndex layer head pos) = some p := by
    rw [entry, hPages] at hp
    exact hp
  rw [findPage, hSlot.isPaged, hPages]
  simp only
  rw [h.entryIndex_eq hi hSlot.numPages hLayer hHead (by omega), Option.bind_some, hTable]
  rfl

theorem readTokens {tokens : List (KvToken F)} {layer head : Nat} (start : Nat)
    (kOut vOut : Nat → F) (h : PagedRel cfg c a) (hi : i < cfg.maxBatch)
    (hs : a i = some (.whole tokens))
    (hLayer : layer < cfg.numLayers) (hHead : head < cfg.numKvHeads) (n : Nat)
    (hStop : start + n ≤ tokens.length) (hRange : cfg.RangeFits n) :
    ∃ out, readTokens c i (cfg.lhIndex layer head) start kOut vOut n = some out ∧
      ∀ t < n, ∀ token, tokens[start + t]? = some token → ∀ d < cfg.headDim,
        out.1 (t * cfg.headDim + d) = token.k layer head d ∧
        out.2 (t * cfg.headDim + d) = token.v layer head d := by
  induction n with
  | zero => exact ⟨(kOut, vOut), rfl, nofun⟩
  | succ n ih =>
    have hOffset : n * cfg.headDim < 2 ^ 31 := hRange
    obtain ⟨out, hRun, hBefore⟩ := ih (by omega)
      ((Nat.mul_le_mul_right _ (Nat.sub_le n 1)).trans_lt hOffset)
    have hLt : start + n < tokens.length := by omega
    have hShort : tokens.length ≤ cfg.maxSeqLen :=
      (h.slot i hi _ hs).short layer hLayer head hHead
    obtain ⟨page, hPage, hVectors⟩ := h.findPage_eq hi hs hLayer hHead (getElem?_eq_getElem hLt)
    refine ⟨(memcpy out.1 (n * cfg.headDim)
        (fun d => page.kPage ((start + n) % cfg.kvPageSize * cfg.headDim + d)) cfg.headDim,
      memcpy out.2 (n * cfg.headDim)
        (fun d => page.vPage ((start + n) % cfg.kvPageSize * cfg.headDim + d)) cfg.headDim), ?_,
      fun t ht token hGet d hd => ?_⟩
    · rw [Ml.readTokens, hRun, Option.bind_some, hPage, h.config, Option.bind_some,
        ← Int.natCast_mul, intIndex_of_lt hOffset, Option.bind_some, ← Int.natCast_mul,
        intIndex_of_lt (KvCacheConfig.offset_lt h.fits (by omega))]
      rfl
    by_cases hLast : t = n
    · subst hLast
      rw [getElem?_eq_getElem hLt] at hGet
      cases hGet
      simp only [memcpy_page hd, if_true]
      exact hVectors d hd
    · simp only [memcpy_page hd, hLast, if_false]
      exact hBefore t (by omega) token hGet d hd

end PagedRel

/-- The paged layout is correct. -/
theorem paged_correct (cfg : KvCacheConfig) (hLayout : cfg.layout = .paged) :
    LayoutCorrect cfg (PagedRel (F := F) cfg) where
  config := fun h => h.config
  congr := fun h hSame => h.congr hSame
  seqLen := fun h hi hs => (h.slot _ hi _ hs).seqLen
  free_iff := fun h hi => h.free_iff hi
  allocSeq := fun h hi hNone hFind => h.allocSeq hLayout hi hNone hFind
  prefill := fun h hi hs hLayer hHead hEnd hFits hRange =>
    (h.prefill hLayout hi hs hLayer hHead hEnd hFits (hRange hLayout)).imp fun _ hDone =>
      ⟨hDone.1, hDone.2.1⟩
  rollback := fun h hi hs hShorter => h.rollback hLayout hi hs hShorter
  freeSeq := fun h hi hs => h.freeSeq hi hs
  readRange := by
    intro c a i tokens layer head start stop kOut vOut h hi hs hLayer hHead hOrder hStop hRange
    have hSlot := h.slot i hi _ hs
    obtain ⟨out, hRun, hVectors⟩ := PagedRel.readTokens start kOut vOut h hi hs hLayer hHead
      (stop - start) (by omega) (hRange hLayout)
    refine ⟨out, ?_, ?_, ?_⟩
    · rw [cpxKvcacheReadRange, h.config, hLayout]
      rw [hSlot.isPaged, hSlot.pages, Bool.and_true, if_pos rfl, hRun]
    · exact map_range_eq_slice hOrder hStop fun t ht token hGet d hd =>
        (hVectors t ht token hGet d hd).1
    · exact map_range_eq_slice hOrder hStop fun t ht token hGet d hd =>
        (hVectors t ht token hGet d hd).2

theorem pagedRel_create (hFits : cfg.PagesFit) (hLayout : cfg.layout = .paged)
    (blocks pool : Nat → KvPage F) :
    PagedRel cfg (cpxKvcacheCreate cfg blocks pool) (KvSpec.whole fun _ => none) where
  fits := hFits
  config := rfl
  capacity := by
    rw [cpxKvcacheCreate, hLayout]
    simp only
    rw [intVal_of_lt (KvCacheConfig.totalPages_lt hFits)]
  accounted := by
    have hFree : (cpxKvcacheCreate cfg blocks pool).freePages =
        (List.range cfg.totalPages).reverse := by
      rw [cpxKvcacheCreate, hLayout]
      simp only
      rw [intVal_of_lt (KvCacheConfig.totalPages_lt hFits), Int.toNat_natCast, take_of_length_le]
      rw [length_range]
    rw [hFree]
    exact Library.Accounted.all_free cfg.totalPages
  entry_in := nofun
  free := fun _ _ _ => ⟨Int.negSucc_lt_zero 0, rfl⟩
  slot := fun _ _ _ hs => by cases hs

theorem answers_of_layout {R : KvCache F → KvPartial F → Prop}
    (h : LayoutCorrect cfg R) {c : KvCache F} (hStart : R c (KvSpec.whole fun _ => none))
    {ops : List (KvOp F)} (hOps : Library.Allowed (specStep cfg) (kvAllowed cfg) ops fun _ => none)
    (hRanges : ∀ op ∈ ops, op.RangeFits cfg) :
    ∃ d, Library.answers kvStep ops c =
      some ((Library.specAnswers (specStep cfg) ops fun _ => none).1, d) := by
  obtain ⟨d, hRun, -⟩ := h.refines.answers hStart
    (hOps.and_forall fun op hOp (_ : cfg.layout = .paged) => hRanges op hOp).run
  exact ⟨d, hRun⟩

/-- Where the sizes and the offsets keep to their types, both layouts complete
every sequence of allowed calls, whatever was in memory before, and answer it as
the list of the tokens written. -/
theorem kvcache_layouts_agree (cfg : KvCacheConfig) (hBlocks : cfg.BlocksFit)
    (hPages : cfg.PagesFit) (blocks pool blocks' pool' : Nat → KvPage F) {ops : List (KvOp F)}
    (hOps : Library.Allowed (specStep cfg) (kvAllowed cfg) ops fun _ => none)
    (hRanges : ∀ op ∈ ops, op.RangeFits cfg) :
    ∃ replies c d,
      Library.answers kvStep ops (cpxKvcacheCreate { cfg with layout := .contiguous } blocks pool) =
        some (replies, c) ∧
      Library.answers kvStep ops (cpxKvcacheCreate { cfg with layout := .paged } blocks' pool') =
        some (replies, d) ∧
      replies = (Library.specAnswers (specStep cfg) ops fun _ => none).1 := by
  have hBlocks' : ({ cfg with layout := .contiguous } : KvCacheConfig).BlocksFit := hBlocks
  have hPages' : ({ cfg with layout := .paged } : KvCacheConfig).PagesFit :=
    ⟨hPages.maxPages, hPages.pool, hPages.offset⟩
  obtain ⟨c, hContiguous⟩ := answers_of_layout (contiguous_correct _ rfl)
    (contRel_create hBlocks' blocks pool) hOps hRanges
  obtain ⟨d, hPaged⟩ := answers_of_layout (paged_correct _ rfl)
    (pagedRel_create hPages' rfl blocks' pool') hOps hRanges
  exact ⟨_, c, d, hContiguous, hPaged, rfl⟩

/-- A chunk over two pages, a roll back into the second page and the reuse of the
slot, with elements that name their token. -/
def reuseSlot : List (KvOp Nat) :=
  [.allocSeq, .prefillChunk 0 3 (fun _ _ i => i) (fun _ _ i => 10 + i), .rollback 0 2,
    .writeToken 0 (fun _ head _ => 50 + head) (fun _ head _ => 60 + head),
    .readRange 0 0 1 1 3 (fun _ => 0) (fun _ => 0), .freeSeq 0, .allocSeq,
    .writeToken 0 (fun _ _ _ => 7) (fun _ _ _ => 8), .readRange 0 0 0 0 1 (fun _ => 0) (fun _ => 0),
    .seqLen 0]

def reuseConfig : KvCacheConfig where
  numLayers := 1
  numKvHeads := 2
  headDim := 1
  maxSeqLen := 4
  maxBatch := 1
  layout := .paged
  pageSize := 2

theorem kvcache_layouts_agree_reuseSlot : ∃ replies c d,
    Library.answers kvStep reuseSlot
      (cpxKvcacheCreate { reuseConfig with layout := .contiguous }
        (fun _ => ⟨id, id⟩) fun _ => ⟨id, id⟩) =
      some (replies, c) ∧
    Library.answers kvStep reuseSlot
      (cpxKvcacheCreate { reuseConfig with layout := .paged }
        (fun _ => ⟨id, id⟩) fun _ => ⟨id, id⟩) =
      some (replies, d) ∧
    replies = [.seqId 0, .done, .done, .done, .range [1, 51] [11, 61], .done, .seqId 0, .done,
      .range [7] [8], .length 1] :=
  kvcache_layouts_agree reuseConfig (show 2 * (4 * 1) * 4 < 2 ^ 64 by decide)
    ⟨by decide, by decide, by decide⟩ _ _ _ _
    ⟨trivial, ⟨by decide, _, rfl, by decide⟩, ⟨by decide, _, rfl, by decide⟩,
      ⟨by decide, _, rfl, by decide⟩,
        ⟨by decide, by decide, by decide, by decide, _, rfl, by decide⟩,
      ⟨by decide, _, rfl, trivial⟩, trivial, ⟨by decide, _, rfl, by decide⟩,
      ⟨by decide, by decide, by decide, by decide, _, rfl, by decide⟩,
        ⟨by decide, _, rfl, trivial⟩, trivial⟩
    (by simp [reuseSlot, KvOp.RangeFits, KvCacheConfig.RangeFits, reuseConfig])

/-- The sum behind the number of pages wraps around, which leaves none. -/
def hugePages : KvCacheConfig where
  numLayers := 1
  numKvHeads := 1
  headDim := 1
  maxSeqLen := 4096
  maxBatch := 1
  layout := .paged
  pageSize := 0x7FFFFFFF - 10

def oneWrite : List (KvOp Nat) := [.allocSeq, .writeToken 0 (fun _ _ _ => 7) fun _ _ _ => 8]

/-- The paged layout fails its assertion on the first token. -/
theorem oneWrite_layouts_differ :
    Library.Allowed (specStep hugePages) (kvAllowed hugePages) oneWrite (fun _ => none) ∧
    (∃ c, Library.answers kvStep oneWrite
      (cpxKvcacheCreate { hugePages with layout := .contiguous } (fun _ =>
        ⟨id, id⟩) fun _ => ⟨id, id⟩) =
      some ([.seqId 0, .done], c)) ∧
    Library.answers kvStep oneWrite
      (cpxKvcacheCreate hugePages (fun _ => ⟨id, id⟩) fun _ => ⟨id, id⟩) = none :=
  ⟨⟨trivial, ⟨by decide, _, rfl, by decide⟩, trivial⟩, ⟨_, rfl⟩, rfl⟩

end Casprix.Ml
