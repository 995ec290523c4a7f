import Casprix.Ml.KvPaged

/-! Speculative decoding: tokens are drafted behind a sequence, and a commit keeps the
accepted ones. -/
namespace Casprix.Ml

open List

variable {F : Type*}

/-- What a slot remembers of its draft. -/
structure KvDraft where
  specStart : Int
  specLen : Int
  deriving DecidableEq, Repr

structure KvDraftCache (F : Type*) where
  cache : KvCache F
  drafts : Nat → KvDraft

def cpxKvcacheSpecBegin (c : KvDraftCache F) (i : Nat) : KvDraftCache F :=
  { c with drafts := setSlot c.drafts i ⟨(c.cache.seqs i).seqLen, 0⟩ }

/-- A failed assertion has no result. Without a draft the length could be negative,
which the slots here have no room for. -/
def cpxKvcacheSpecCommit (c : KvDraftCache F) (i : Nat) (accepted : Int) :
    Option (KvDraftCache F) :=
  if accepted ≤ (c.drafts i).specLen then
    some {
      cache := c.cache.setSeq i { c.cache.seqs i with
        seqLen := ((c.drafts i).specStart + accepted).toNat }
      drafts := setSlot c.drafts i ⟨-1, 0⟩ }
  else none

/-- Of the other calls only a roll back touches the draft. -/
def draftsAfter (op : KvOp F) (drafts : Nat → KvDraft) : Nat → KvDraft :=
  match op with
  | .rollback i _ => setSlot drafts i ⟨-1, 0⟩
  | _ => drafts

/-- Complete tokens, one after the other. -/
def writeTokens (i : Nat) (c : KvCache F) : List (KvToken F) → Option (KvCache F)
  | [] => some c
  | token :: rest => (kvStep (.writeToken i token.k token.v) c).bind fun done =>
    writeTokens i done.2 rest

/-- A draft is begun and written, and some of its tokens are accepted. -/
def specRound (c : KvDraftCache F) (i : Nat) (drafted : List (KvToken F)) (accepted : Nat) :
    Option (KvDraftCache F) :=
  let begun := cpxKvcacheSpecBegin c i
  (writeTokens i begun.cache drafted).bind fun cache =>
    cpxKvcacheSpecCommit { begun with cache } i accepted

/-- The caches that calls lead to, with the tokens of their slots. Drafts are
committed while their start is still in the sequence; the calls of the paged
layout keep to its integers. -/
inductive KvReached (cfg : KvCacheConfig) : KvDraftCache F → KvSpec F → Prop
  | create (blocks pool : Nat → KvPage F) :
      KvReached cfg ⟨cpxKvcacheCreate cfg blocks pool, fun _ => ⟨-1, 0⟩⟩ fun _ => none
  | call {c : KvDraftCache F} {a : KvSpec F} {op : KvOp F} {reply : KvReply F} {cache : KvCache F}
      (prior : KvReached cfg c a) (hAllowed : kvAllowed cfg op a)
      (hRange : cfg.layout = .paged → op.RangeFits cfg)
      (hCall : kvStep op c.cache = some (reply, cache)) :
      KvReached cfg ⟨cache, draftsAfter op c.drafts⟩ (specStep cfg op a).2
  | specBegin {c : KvDraftCache F} {a : KvSpec F} (i : Nat) (prior : KvReached cfg c a) :
      KvReached cfg (cpxKvcacheSpecBegin c i) a
  | specCommit {c d : KvDraftCache F} {a : KvSpec F} {i start accepted : Nat}
      {tokens : List (KvToken F)} (prior : KvReached cfg c a) (hi : i < cfg.maxBatch)
      (hTokens : a i = some tokens) (hStart : (c.drafts i).specStart = start)
      (hFits : start + accepted ≤ tokens.length)
      (hCommit : cpxKvcacheSpecCommit c i accepted = some d) :
      KvReached cfg d (setSlot a i (some (tokens.take (start + accepted))))

variable {cfg : KvCacheConfig} {c d : KvCache F} {a : KvSpec F} {i : Nat}
  {old new : List (KvToken F)}

/-- What holds between a cache and its slots, in the layout of the cache. -/
def KvRel (cfg : KvCacheConfig) : KvCache F → KvPartial F → Prop :=
  match cfg.layout with
  | .contiguous => ContRel cfg
  | .paged => PagedRel cfg

theorem kvRel_correct (cfg : KvCacheConfig) : LayoutCorrect cfg (KvRel (F := F) cfg) := by
  rw [KvRel]
  cases hLayout : cfg.layout with
  | contiguous => exact contiguous_correct cfg hLayout
  | paged => exact paged_correct cfg hLayout

theorem kvRel_create (hSizes : cfg.SizesFit) (blocks pool : Nat → KvPage F) :
    KvRel cfg (cpxKvcacheCreate cfg blocks pool) (KvSpec.whole fun _ => none) := by
  rw [KvRel]
  rw [KvCacheConfig.SizesFit] at hSizes
  generalize hLayout : cfg.layout = layout at hSizes ⊢
  cases layout with
  | contiguous =>
    exact contRel_create hSizes blocks pool
  | paged =>
    exact pagedRel_create hSizes hLayout blocks pool

theorem PagedRel.take {a : KvPartial F} (h : PagedRel cfg c a) (hi : i < cfg.maxBatch)
    (hs : a i = some (.whole old)) {n : Nat} (hn : n ≤ old.length) :
    PagedRel cfg (c.setSeq i { c.seqs i with seqLen := n })
      (setSlot a i (some (.whole (old.take n)))) := by
  have hShort := h.setLen (hn.trans (h.slot i hi _ hs).len_le) hi hs
  have hSlot := hShort.slot i hi _ (setSlot_self _ _ _)
  have hTaken := hShort.replaceSlot (some (.whole (old.take n))) rfl rfl rfl (fun _ _ => rfl)
    hShort.accounted (fun _ _ => id) nofun
    fun t ht => by
      cases ht
      exact { hSlot with
        seqLen := hSlot.seqLen.trans (length_take_of_le hn).symm
        len_le := (length_take_le _ _).trans hSlot.len_le
        short := fun layer hLayer head hHead =>
          (length_take_le' n old).trans (hSlot.short layer hLayer head hHead)
        holds := fun layer hLayer head hHead pos token hGet => by
          rw [PartialSeq.whole, getElem?_take] at hGet
          split at hGet
          · exact hSlot.holds layer hLayer head hHead pos token hGet
          · cases hGet }
  rwa [setSlot_setSlot] at hTaken

theorem KvRel.take {a : KvPartial F} (h : KvRel cfg c a) (hi : i < cfg.maxBatch)
    (hs : a i = some (.whole old)) {n : Nat} (hn : n ≤ old.length) :
    KvRel cfg (c.setSeq i { c.seqs i with seqLen := n })
      (setSlot a i (some (.whole (old.take n)))) := by
  have hCorrect := kvRel_correct (F := F) cfg
  cases hLayout : cfg.layout with
  | contiguous =>
    obtain ⟨d, hRun, hRel⟩ := hCorrect.rollback h hi hs hn
    have hNotPaged : c.config.layout ≠ .paged := by rw [hCorrect.config h, hLayout]; decide
    have hLe : n ≤ (PartialSeq.whole old).len := hn
    rw [cpxKvcacheRollback, hCorrect.seqLen h hi hs, if_pos hLe] at hRun
    rw [if_neg fun hBoth => hNotPaged hBoth.1] at hRun
    cases hRun
    exact hRel
  | paged =>
    simp only [KvRel, hLayout] at h ⊢
    exact h.take hi hs hn

theorem KvReached.kvRel {c : KvDraftCache F} (hSizes : cfg.SizesFit) (h : KvReached cfg c a) :
    KvRel cfg c.cache a.whole := by
  induction h with
  | create blocks pool => exact kvRel_create hSizes blocks pool
  | @call c a op reply cache prior hAllowed hRange hCall ih =>
    obtain ⟨d, hRun, hRel⟩ := (kvRel_correct cfg).refines op c.cache a ih ⟨hAllowed, hRange⟩
    rw [hCall] at hRun
    cases hRun
    exact hRel
  | specBegin i prior ih => exact ih
  | @specCommit c d a i start accepted tokens prior hi hTokens hStart hFits hCommit ih =>
    rw [cpxKvcacheSpecCommit] at hCommit
    split at hCommit
    · cases hCommit
      rw [hStart, whole_setSlot]
      exact ih.take hi (by rw [KvSpec.whole, hTokens]; rfl) hFits
    · cases hCommit

/-- The entries that were empty before hold pages of tokens in the slots. -/
structure TookFrom (cfg : KvCacheConfig) (before c : KvCache F) (a : KvPartial F) : Prop
    extends PagedRel cfg c a where
  took : ∀ x, entry c x = entry before x ∨ entry before x = none ∧ x.1 < cfg.maxBatch ∧
    ∃ s layer head pos, a x.1 = some s ∧ layer < cfg.numLayers ∧ head < cfg.numKvHeads ∧
      pos < (s.stored layer head).length ∧ x.2 = cfg.tableIndex layer head pos

theorem length_extend (s : PartialSeq F) (layer head : Nat) (new : List (KvToken F))
    (layer' head' : Nat) : ((s.extend cfg layer head new).stored layer' head').length =
      (s.stored layer' head').length + if layer' = layer ∧
        head' = head then new.length else 0 := by
  by_cases hHere : layer' = layer ∧ head' = head
  · simp [PartialSeq.extend, hHere]
  · simp [PartialSeq.extend, hHere]

theorem tookFrom_writes (hLayout : cfg.layout = .paged) (before : KvCache F) :
    LayoutWrites cfg (TookFrom cfg before) where
  config h := h.config
  congr h hSame := by
    refine ⟨h.toPagedRel.congr hSame, fun x => (h.took x).imp id ?_⟩
    rintro ⟨hNone, hSlot, s, layer, head, pos, hs, hLayer, hHead, hPos, hAt⟩
    obtain ⟨hSome, hStored⟩ := hSame x.1 hSlot
    rw [hs, Option.isSome_some, eq_comm, Option.isSome_iff_exists] at hSome
    obtain ⟨t, ht⟩ := hSome
    refine ⟨hNone, hSlot, t, layer, head, pos, ht, hLayer, hHead, ?_, hAt⟩
    rwa [← (hStored s t hs ht).2 layer hLayer head hHead]
  prefill {c a i s layer head k v tokens} h hi hs hLayer hHead hEnd hFits hRange := by
    obtain ⟨d, hRun, hRel, hTakes⟩ :=
      h.toPagedRel.prefill hLayout hi hs hLayer hHead hEnd hFits (hRange hLayout)
    refine ⟨d, hRun, hRel, fun x => ?_⟩
    rcases hTakes x with hSame | ⟨hEmpty, pos, -, hPos, rfl⟩
    · rw [hSame]
      refine (h.took x).imp id ?_
      rintro ⟨hNone, hSlot, s', layer', head', pos, hs', hLayer', hHead', hPos, hAt⟩
      by_cases hSelf : x.1 = i
      · rw [hSelf, hs] at hs'
        cases hs'
        refine ⟨hNone, hSlot, _, layer', head', pos, if_pos hSelf, hLayer', hHead', ?_, hAt⟩
        rw [length_extend]
        exact Nat.lt_add_right _ hPos
      · exact ⟨hNone, hSlot, s', layer', head', pos, (if_neg hSelf).trans hs',
          hLayer', hHead', hPos, hAt⟩
    · have hNone : entry before (i, cfg.tableIndex layer head pos) = none := by
        rcases h.took (i, cfg.tableIndex layer head pos) with hSame | ⟨hNone, -⟩
        · rw [← hSame, hEmpty]
        · exact hNone
      refine .inr ⟨hNone, hi, _, layer, head, pos, setSlot_self _ _ _, hLayer, hHead, ?_, rfl⟩
      rwa [length_extend, if_pos ⟨rfl, rfl⟩, hEnd, chunkTokens_length]

theorem appendTokens_cons (token : KvToken F) (rest : List (KvToken F)) :
    appendTokens cfg (appendTokens cfg a i [token]) i rest =
      appendTokens cfg a i (token :: rest) := by
  rw [appendTokens, appendTokens, appendTokens]
  by_cases hEmpty : cfg.lhCount = 0
  · rw [if_pos hEmpty, if_pos hEmpty, if_pos hEmpty]
  · rw [if_neg hEmpty, if_neg hEmpty, if_neg hEmpty, setSlot_setSlot, setSlot_self, Option.map_map]
    refine congrArg (setSlot a i) (congrArg (fun f => Option.map f (a i)) (funext fun tokens => ?_))
    exact append_assoc tokens [token] rest

/-- What a slot holds after more tokens, which are none where there is no layer or head. -/
theorem appendTokens_self (hOld : a i = some old) (new : List (KvToken F)) :
    appendTokens cfg a i new i = some (if cfg.lhCount = 0 then old else old ++ new) := by
  rw [appendTokens]
  by_cases hEmpty : cfg.lhCount = 0
  · rw [if_pos hEmpty, if_pos hEmpty, hOld]
  · rw [if_neg hEmpty, if_neg hEmpty, setSlot_self, hOld, Option.map_some]

theorem LayoutWrites.writeTokens {R : KvCache F → KvPartial F → Prop} (h : LayoutWrites cfg R)
    (hRel : R c a.whole) (hi : i < cfg.maxBatch) (hOld : a i = some old) (new : List (KvToken F))
    (hFits : old.length + new.length ≤ cfg.maxSeqLen) :
    ∃ d, writeTokens i c new = some d ∧ R d (appendTokens cfg a i new).whole := by
  induction new generalizing c a old with
  | nil =>
    refine ⟨c, rfl, ?_⟩
    rw [appendTokens]
    split
    · exact hRel
    · rwa [setSlot_of_eq (by rw [hOld, Option.map_some, append_nil])]
  | cons token rest ih =>
    rw [length_cons] at hFits
    obtain ⟨d, hRun, hNext⟩ := h.writeToken hRel token.k token.v hi hOld (by omega)
    obtain ⟨e, hRest, hEnd⟩ := ih hNext (appendTokens_self hOld [token]) (by
      split
      · omega
      · rw [length_append, length_singleton]
        omega)
    rw [appendTokens_cons] at hEnd
    exact ⟨e, by rw [Ml.writeTokens, hRun, Option.bind_some, hRest], hEnd⟩

/-- The reads of all layers and heads from the start give these tokens. -/
def ReadsAs (cfg : KvCacheConfig) (c : KvCache F) (i : Nat) (tokens : List (KvToken F)) : Prop :=
  ∀ layer < cfg.numLayers, ∀ head < cfg.numKvHeads, ∀ kOut vOut,
    kvStep (.readRange i layer head 0 tokens.length kOut vOut) c =
      some (.range (vectors cfg tokens fun token => token.k layer head)
        (vectors cfg tokens fun token => token.v layer head), c)

/-- The table has no page behind those of the first positions. -/
def NoPageBeyond (cfg : KvCacheConfig) (c : KvCache F) (i len : Nat) : Prop :=
  ∀ idx < cfg.tableSize, pagesFor cfg len ≤ idx % cfg.maxPages → entry c (i, idx) = none

/-- What a round is for: the sequence goes on behind the accepted tokens, and the
pages of the others are free again. -/
structure CommitsAccepted (cfg : KvCacheConfig) (i : Nat) (tokens : List (KvToken F))
    (d : KvCache F) : Prop where
  seqLen : (d.seqs i).seqLen = tokens.length
  reads : ReadsAs cfg d i tokens
  continues : ∀ more : List (KvToken F), tokens.length + more.length ≤ cfg.maxSeqLen →
    ∃ e, writeTokens i d more = some e ∧ ReadsAs cfg e i (tokens ++ more)
  pages : cfg.layout = .paged → NoPageBeyond cfg d i tokens.length

theorem rangeFits_mono {m n : Nat} (h : cfg.RangeFits n) (hLe : m ≤ n) : cfg.RangeFits m :=
  (Nat.mul_le_mul_right _ (Nat.sub_le_sub_right hLe 1)).trans_lt h

theorem KvRel.readsAs (h : KvRel cfg c a.whole) (hi : i < cfg.maxBatch)
    {tokens : List (KvToken F)} (hOld : cfg.lhCount ≠ 0 → a i = some tokens)
    (hRange : cfg.layout = .paged → cfg.RangeFits tokens.length) :
    ReadsAs cfg c i tokens := by
  intro layer hLayer head hHead kOut vOut
  have hSome : cfg.lhCount ≠ 0 := fun hEmpty => by
    have hLt := lhIndex_lt hLayer hHead
    omega
  rw [(kvRel_correct cfg).reads h kOut vOut hi (hOld hSome) hLayer hHead (Nat.zero_le _) (le_rfl)
    hRange,
    specStep, hOld hSome]
  simp

/-- Written tokens leave no page behind those of the first ones where these have room for them. -/
theorem noPageBeyond_writeTokens_iff (hLayout : cfg.layout = .paged) (h : PagedRel cfg c a.whole)
    (hi : i < cfg.maxBatch) (hOld : a i = some old) {new : List (KvToken F)}
    (hFits : old.length + new.length ≤ cfg.maxSeqLen) (hRun : writeTokens i c new = some d) :
    NoPageBeyond cfg (d.setSeq i { d.seqs i with seqLen := old.length }) i old.length ↔
      NoPageBeyond cfg c i old.length ∧
        (cfg.lhCount = 0 ∨ old.length + new.length ≤
          pagesFor cfg old.length * cfg.kvPageSize) := by
  have hEntry : entry (d.setSeq i { d.seqs i with seqLen := old.length }) = entry d :=
    PagedRel.entry_setSeq fun _ => rfl
  rw [NoPageBeyond, hEntry]
  obtain ⟨e, hRun', hTook⟩ :=
    (tookFrom_writes hLayout c).writeTokens ⟨h, fun _ => .inl rfl⟩ hi hOld new hFits
  cases hRun.symm.trans hRun'
  have hHolds : (appendTokens cfg a i new).whole i =
      some (.whole (if cfg.lhCount = 0 then old else old ++ new)) := by
    rw [KvSpec.whole, appendTokens_self hOld]
    rfl
  constructor
  · refine fun hNone => ⟨fun idx hIdx hBehind => ?_, ?_⟩
    · rcases hTook.took (i, idx) with hSame | ⟨hBefore, -⟩
      · rw [← hSame, hNone idx hIdx hBehind]
      · exact hBefore
    · by_contra hMore
      obtain ⟨hSome, hMore⟩ := not_or.mp hMore
      rw [if_neg hSome] at hHolds
      have hPos : pagesFor cfg old.length * cfg.kvPageSize < (old ++ new).length := by
        rw [length_append]
        omega
      have hShort : pagesFor cfg old.length * cfg.kvPageSize < cfg.maxSeqLen := by omega
      have hLayer : 0 < cfg.numLayers := Nat.pos_of_ne_zero (Nat.ne_zero_of_mul_ne_zero_left hSome)
      have hHead : 0 < cfg.numKvHeads := Nat.pos_of_ne_zero (Nat.ne_zero_of_mul_ne_zero_right hSome)
      obtain ⟨p, hPage, -⟩ := (hTook.slot i hi _ hHolds).holds 0 hLayer 0 hHead _ _
        (getElem?_eq_getElem hPos)
      rw [hNone _ (KvCacheConfig.tableIndex_lt hLayer hHead hShort) (by
        rw [KvCacheConfig.tableIndex_mod hShort, Nat.mul_div_cancel _ cfg.kvPageSize_pos])] at hPage
      cases hPage
  · rintro ⟨hNone, hEnough⟩ idx hIdx hBehind
    rcases hTook.took (i, idx) with
      hSame | ⟨-, -, s, layer, head, pos, hs, hLayer, hHead, hPos, hAt⟩
    · rw [hSame, hNone idx hIdx hBehind]
    · have hSome : cfg.lhCount ≠ 0 := Nat.ne_zero_of_lt (lhIndex_lt hLayer hHead)
      rw [hHolds, if_neg hSome] at hs
      cases hs
      have hBefore : pos < old.length + new.length := by rwa [← length_append]
      have hPage := (Nat.div_lt_iff_lt_mul cfg.kvPageSize_pos).mpr
        (hBefore.trans_le (hEnough.resolve_left hSome))
      rw [show idx = _ from hAt, KvCacheConfig.tableIndex_mod (by omega)] at hBehind
      omega

theorem KvRel.forget (h : KvRel cfg c (appendTokens cfg a i new).whole) (hi : i < cfg.maxBatch)
    (hOld : a i = some old) :
    KvRel cfg (c.setSeq i { c.seqs i with seqLen := old.length }) a.whole := by
  have hHolds : (appendTokens cfg a i new).whole i =
      some (.whole (if cfg.lhCount = 0 then old else old ++ new)) := by
    rw [KvSpec.whole, appendTokens_self hOld]
    rfl
  have hTake : (if cfg.lhCount = 0 then old else old ++ new).take old.length = old := by
    split
    · exact take_length
    · exact take_left
  have hTaken := h.take hi hHolds (n := old.length) (by split <;> simp)
  have hBack : setSlot (appendTokens cfg a i new).whole i (some (.whole old)) = a.whole := by
    have hSelf : setSlot a.whole i (some (.whole old)) = a.whole :=
      setSlot_of_eq (by rw [KvSpec.whole, hOld]; rfl)
    rw [appendTokens]
    split
    · exact hSelf
    · rw [whole_setSlot, setSlot_setSlot, hSelf]
  rwa [hTake, hBack] at hTaken

/-- Only a round that accepts nothing is completed, and in the paged layout it
must not have needed another page. -/
theorem specRound_commitsAccepted_iff {c : KvDraftCache F} (hSizes : cfg.SizesFit)
    (hRange : cfg.layout = .paged → cfg.RangeFits cfg.maxSeqLen) (h : KvReached cfg c a)
    (hi : i < cfg.maxBatch) (hOld : a i = some old) {drafted : List (KvToken F)} {accepted : Nat}
    (hAccepted : accepted ≤ drafted.length)
    (hFits : old.length + drafted.length ≤ cfg.maxSeqLen) :
    (∃ d, specRound c i drafted accepted = some d ∧
      CommitsAccepted cfg i (old ++ drafted.take accepted) d.cache) ↔
      accepted = 0 ∧ (cfg.layout = .paged → NoPageBeyond cfg c.cache i old.length ∧
        (cfg.lhCount = 0 ∨
          old.length + drafted.length ≤ pagesFor cfg old.length * cfg.kvPageSize)) := by
  have hRel := h.kvRel hSizes
  obtain ⟨e, hRun, hNext⟩ := (kvRel_correct cfg).writeTokens hRel hi hOld drafted hFits
  have hStart : (c.cache.seqs i).seqLen = old.length :=
    (kvRel_correct cfg).seqLen hRel hi (by rw [KvSpec.whole, hOld]; rfl)
  have hPages := fun hLayout : cfg.layout = .paged =>
    noPageBeyond_writeTokens_iff hLayout (by
      simpa only [KvRel, hLayout] using hRel) hi hOld hFits hRun
  simp only [specRound, cpxKvcacheSpecBegin, hRun, Option.bind_some, cpxKvcacheSpecCommit,
    setSlot_self, hStart]
  constructor
  · rintro ⟨d, hSome, hDone⟩
    split at hSome
    · have hZero : accepted = 0 := by omega
      subst hZero
      cases hSome
      refine ⟨rfl, fun hLayout => (hPages hLayout).mp ?_⟩
      simpa using hDone.pages hLayout
    · cases hSome
  · rintro ⟨rfl, hEnough⟩
    have hBack := hNext.forget hi hOld
    rw [if_pos (by decide), take_zero, append_nil]
    refine ⟨_, rfl, ?_⟩
    simp only [Int.natCast_zero, Int.add_zero, Int.toNat_natCast]
    exact {
      seqLen := (kvRel_correct cfg).seqLen hBack hi (by rw [KvSpec.whole, hOld]; rfl)
      reads := hBack.readsAs hi (fun _ => hOld) fun hLayout =>
        rangeFits_mono (hRange hLayout) (by omega)
      continues := fun more hMore => by
        obtain ⟨f, hRun', hRel'⟩ := (kvRel_correct cfg).writeTokens hBack hi hOld more hMore
        refine ⟨f, hRun', hRel'.readsAs hi (fun hSome => ?_) fun hLayout => ?_⟩
        · rw [appendTokens_self hOld, if_neg hSome]
        · refine rangeFits_mono (hRange hLayout) ?_
          rwa [length_append]
      pages := fun hLayout => (hPages hLayout).mpr (hEnough hLayout) }

def draftedToken : KvToken Nat := ⟨fun _ _ _ => 7, fun _ _ _ => 8⟩

/-- A cache with one slot, that has just been allocated. -/
def allocated (layout : KvLayout) : KvDraftCache Nat where
  cache := (cpxKvcacheAllocSeq
    (cpxKvcacheCreate { reuseConfig with layout } (fun _ =>
      ⟨id, id⟩) fun _ => ⟨id, id⟩) 0).2
  drafts := fun _ => ⟨-1, 0⟩

theorem allocated_reached (layout : KvLayout) :
    KvReached { reuseConfig with layout } (allocated layout)
      (specStep { reuseConfig with layout } .allocSeq fun _ => none).2 :=
  .call (.create _ _) (show kvAllowed _ .allocSeq _ from trivial) (fun _ => trivial) rfl

/-- The token takes the first place in a page for each of its two heads. -/
def oneToken : KvDraftCache Nat where
  cache := ((kvStep (.writeToken 0 draftedToken.k draftedToken.v) (allocated .paged).cache).map
    Prod.snd).getD (allocated .paged).cache
  drafts := fun _ => ⟨-1, 0⟩

theorem oneToken_reached : KvReached reuseConfig oneToken
    (specStep reuseConfig (.writeToken 0 draftedToken.k draftedToken.v)
      (specStep reuseConfig .allocSeq fun _ => none).2).2 :=
  .call (allocated_reached .paged)
    (show kvAllowed _ (.writeToken 0 _ _) _ from ⟨by decide, _, rfl, by decide⟩)
    (fun _ => trivial) rfl

theorem reuseConfig_sizesFit : reuseConfig.SizesFit :=
  show reuseConfig.PagesFit from ⟨by decide, by decide, by decide⟩

/-- The drafted token goes to the same pages, and is dropped. -/
theorem specRound_commitsAccepted_iff_rejected :
    ∃ d, specRound oneToken 0 [draftedToken] 0 = some d ∧
      CommitsAccepted reuseConfig 0 ([draftedToken] ++ [draftedToken].take 0) d.cache :=
  (specRound_commitsAccepted_iff reuseConfig_sizesFit
    (fun _ => show (4 - 1) * 1 < 2 ^ 31 by decide) oneToken_reached (by decide) rfl (by decide)
    (by decide)).mpr ⟨rfl, fun _ => ⟨show ∀ idx < 4, _ → _ by decide, .inr (by decide)⟩⟩

/-- The one drafted token cannot be accepted. -/
theorem draftedToken_not_committed :
    KvReached { reuseConfig with layout := .contiguous } (allocated .contiguous)
      (specStep { reuseConfig with layout := .contiguous } .allocSeq fun _ => none).2 ∧
    ¬ ∃ d, specRound (allocated .contiguous) 0 [draftedToken] 1 = some d ∧
      CommitsAccepted { reuseConfig with layout := .contiguous } 0 ([] ++ [draftedToken].take 1)
        d.cache := by
  refine ⟨allocated_reached .contiguous, ?_⟩
  rintro ⟨d, hSome, -⟩
  have hNone : specRound (allocated .contiguous) 0 [draftedToken] 1 = none := rfl
  rw [hNone] at hSome
  cases hSome

end Casprix.Ml
