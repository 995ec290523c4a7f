import Casprix.Mem2reg.ReversePostOrder
import Mathlib.Algebra.Order.BigOperators.Group.List
import Mathlib.Tactic.Ring

/-! Rounds of the iteration: each block is moved below the lowest block above its predecessors,
and a round that changes nothing has found the dominators. -/
namespace Casprix.Mem2reg

open Function List Library Mir

variable {func : MirFunction} {rpo : List MirBlockId} {idom : MirBlockId → Option MirBlockId}
  {a b c n p z bb : MirBlockId} {i j bound : Int} {fuel : Nat}

/-- The field `idom` of the blocks of the list. -/
def listedIdom (func : MirFunction) (idom : MirBlockId → Option MirBlockId) (b : MirBlockId) :
    Option MirBlockId :=
  if b < func.blocks.length then idom b else none

theorem listedIdom_of_lt (hb : b < func.blocks.length) :
    listedIdom func idom b = idom b := if_pos hb

theorem listedIdom_update (ha : a < func.blocks.length) (m : Option MirBlockId) :
    listedIdom func (update idom a m) = update (listedIdom func idom) a m := by
  funext b
  by_cases hSame : b = a
  · rw [hSame, listedIdom_of_lt ha, update_self, update_self]
  · unfold listedIdom
    rw [update_of_ne hSame, update_of_ne hSame]

theorem isSome_iff_processed (hb : b < func.blocks.length) :
    (idom b).isSome = true ↔ Processed (listedIdom func idom) b := by
  unfold Processed
  rw [listedIdom_of_lt hb, Option.isSome_iff_exists]

/-- A connected function with the order in which its blocks are visited. -/
structure Ordered (func : MirFunction) (rpo : List MirBlockId) : Prop where
  connected : Connected func
  rpo : IsRpo func rpo

section

variable (h : Ordered func rpo)
include h

theorem Ordered.entry_lt : 0 < func.blocks.length := by
  obtain ⟨rest, hFirst⟩ := h.rpo.first
  exact (h.rpo.mem_iff 0).mp (hFirst ▸ mem_cons_self)

theorem Ordered.ne_nil : func.blocks ≠ [] :=
  length_pos_iff.mp h.entry_lt

theorem Ordered.ranked : Ranked (Leads func) 0 (rpoIndexMap rpo) :=
  h.rpo.ranked h.connected h.ne_nil

theorem Ordered.lt (hb : Reachable (Leads func) 0 b) : b < func.blocks.length :=
  h.connected.lt_of_reachable h.ne_nil hb

theorem Ordered.nonneg (hb : b < func.blocks.length) : 0 ≤ rpoIndexMap rpo b := by
  obtain ⟨i, _, hPlace⟩ := h.rpo.exists_place hb
  rw [hPlace]
  exact Int.natCast_nonneg i

theorem Ordered.index_lt (hb : b < func.blocks.length) :
    rpoIndexMap rpo b < func.blocks.length := by
  obtain ⟨i, hi, hPlace⟩ := h.rpo.exists_place hb
  rw [hPlace, ← h.rpo.length_eq]
  exact Int.ofNat_lt.mpr (List.getElem?_eq_some_iff.mp hi).1

theorem Ordered.index_entry : rpoIndexMap rpo 0 = 0 := by
  obtain ⟨rest, hFirst⟩ := h.rpo.first
  exact rpoIndexMap_of_getElem? (i := 0) h.rpo.nodup (by rw [hFirst]; rfl)

end

/-- What holds of the fields `idom` when a round has come to place `i`. -/
def Holds (func : MirFunction) (rpo : List MirBlockId) (i : Int)
    (idom : MirBlockId → Option MirBlockId) : Prop :=
  Progress (Leads func) 0 (rpoIndexMap rpo) i (listedIdom func idom)

theorem Holds.lt (h : Holds func rpo i idom) (hOrdered : Ordered func rpo)
    (hb : Processed (listedIdom func idom) b) : b < func.blocks.length :=
  hOrdered.lt (h.reachable b hb)

section

variable (hOrdered : Ordered func rpo) (h : Holds func rpo i idom)

include hOrdered h

/-- Climbing comes to the first block on the way up that is no later than the bound. -/
theorem climb_eq (hBound : 0 ≤ bound) (hb : Processed (listedIdom func idom) b)
    (hFuel : rpoIndexMap rpo b < fuel) :
    ∃ c, climb (rpoIndexMap rpo) idom bound fuel b = some c ∧
      Above (listedIdom func idom) c b ∧
      rpoIndexMap rpo c ≤ bound ∧
      ∀ z, Above (listedIdom func idom) z b → rpoIndexMap rpo z ≤ bound →
        Above (listedIdom func idom) z c := by
  induction fuel generalizing b with
  | zero => exact absurd (hOrdered.nonneg (h.lt hOrdered hb)) (not_le_of_gt hFuel)
  | succ fuel ih =>
    rw [climb]
    by_cases hLater : rpoIndexMap rpo b > bound
    · have hOther : b ≠ 0 := by
        intro hEntry
        rw [hEntry, hOrdered.index_entry] at hLater
        exact absurd hBound (not_le_of_gt hLater)
      have hUp := hb
      obtain ⟨c, hUp⟩ := hUp
      have hField : idom b = some c := (listedIdom_of_lt (h.lt hOrdered hb)).symm.trans hUp
      have hLower := h.rank_lt b c hOther hUp
      obtain ⟨d, hClimb, hAbove, hLe, hLowest⟩ := ih (h.processed b c hUp) (by omega)
      refine ⟨d, ?_, .up hUp hAbove, hLe, fun z hz hLe => hLowest z (hz.of_ne ?_ hUp) hLe⟩
      · rw [if_pos hLater, hField, Option.bind_some, hClimb]
      · rintro rfl
        exact absurd hLe (not_le_of_gt hLater)
    · exact ⟨b, if_neg hLater, .refl, not_lt.mp hLater, fun z hz _ => hz⟩

/-- The intersection of two blocks is the lowest block above both. -/
theorem intersect_eq {b1 b2 : MirBlockId} (h1 : Processed (listedIdom func idom) b1)
    (h2 : Processed (listedIdom func idom) b2)
    (hFuel : rpoIndexMap rpo b1 + rpoIndexMap rpo b2 + 1 < fuel) :
    ∃ c, intersect (rpoIndexMap rpo) idom fuel b1 b2 = some c ∧
      Above (listedIdom func idom) c b1 ∧
      Above (listedIdom func idom) c b2 ∧
      ∀ z, Above (listedIdom func idom) z b1 → Above (listedIdom func idom) z b2 →
        Above (listedIdom func idom) z c := by
  induction fuel generalizing b1 b2 with
  | zero =>
    have hNonneg := hOrdered.nonneg (h.lt hOrdered h1)
    have hNonneg' := hOrdered.nonneg (h.lt hOrdered h2)
    omega
  | succ fuel ih =>
    rw [intersect]
    by_cases hSame : b1 = b2
    · subst hSame
      exact ⟨b1, if_pos rfl, .refl, .refl, fun z hz _ => hz⟩
    · have hNonneg := hOrdered.nonneg (h.lt hOrdered h1)
      have hNonneg' := hOrdered.nonneg (h.lt hOrdered h2)
      have hFuel1 : rpoIndexMap rpo b1 < fuel := by omega
      have hFuel2 : rpoIndexMap rpo b2 < fuel := by omega
      obtain ⟨c1, hClimb1, hAbove1, hLe1, hLowest1⟩ := climb_eq hOrdered h hNonneg' h1 hFuel1
      have hc1 := h.processed_above hAbove1 h1
      obtain ⟨c2, hClimb2, hAbove2, hLe2, hLowest2⟩ :=
        climb_eq hOrdered h (hOrdered.nonneg (h.lt hOrdered hc1)) h2 hFuel2
      have hc2 := h.processed_above hAbove2 h2
      have hLower : rpoIndexMap rpo c1 + rpoIndexMap rpo c2 <
          rpoIndexMap rpo b1 + rpoIndexMap rpo b2 := by
        have hUpper1 := h.rank_le hAbove1
        by_contra hNot
        refine hSame (hOrdered.ranked.injective b1 b2 (h.reachable b1 h1) (h.reachable b2 h2) ?_)
        omega
      obtain ⟨c, hRest, hBelow1, hBelow2, hLowest⟩ := ih hc1 hc2 (by omega)
      refine ⟨c, ?_, hBelow1.trans hAbove1, hBelow2.trans hAbove2, fun z hz1 hz2 => ?_⟩
      · rw [if_neg hSame, hClimb1, Option.bind_some, hClimb2, Option.bind_some, hRest]
      · have hz := hLowest1 z hz1 (h.rank_le hz2)
        exact hLowest z hz (hLowest2 z hz2 (h.rank_le hz))

theorem foldlM_intersectPred (hFuel : 2 * func.blocks.length + 1 < fuel) {preds : List MirBlockId}
    (hPreds : ∀ p ∈ preds, p < func.blocks.length) (hn : Processed (listedIdom func idom) n) :
    ∃ m, preds.foldlM (intersectPred (rpoIndexMap rpo) idom fuel) n = some m ∧
      Above (listedIdom func idom) m n ∧
      (∀ p ∈ preds, Processed (listedIdom func idom) p → Above (listedIdom func idom) m p) ∧
      ∀ z, Above (listedIdom func idom) z n →
        (∀ p ∈ preds, Processed (listedIdom func idom) p →
          Above (listedIdom func idom) z p) →
        Above (listedIdom func idom) z m := by
  induction preds generalizing n with
  | nil => exact ⟨n, rfl, .refl, nofun, fun z hz _ => hz⟩
  | cons pred rest ih =>
    have hPred := hPreds pred mem_cons_self
    have hStep : ∃ m, intersectPred (rpoIndexMap rpo) idom fuel n pred = some m ∧
        Above (listedIdom func idom) m n ∧
        (Processed (listedIdom func idom) pred → Above (listedIdom func idom) m pred) ∧
        ∀ z, Above (listedIdom func idom) z n →
          (Processed (listedIdom func idom) pred → Above (listedIdom func idom) z pred) →
          Above (listedIdom func idom) z m := by
      unfold intersectPred
      by_cases hSame : pred = n
      · subst hSame
        exact ⟨pred, if_pos rfl, .refl, fun _ => .refl, fun z hz _ => hz⟩
      · rw [if_neg hSame]
        by_cases hProcessed : Processed (listedIdom func idom) pred
        · rw [if_pos ((isSome_iff_processed hPred).mpr hProcessed)]
          have hFirst := hOrdered.index_lt hPred
          have hSecond := hOrdered.index_lt (h.lt hOrdered hn)
          have hEnough : rpoIndexMap rpo pred + rpoIndexMap rpo n + 1 < fuel := by omega
          obtain ⟨m, hMeet, hAbovePred, hAbove, hLowest⟩ :=
            intersect_eq hOrdered h hProcessed hn hEnough
          exact ⟨m, hMeet, hAbove, fun _ => hAbovePred, fun z hz hAll =>
            hLowest z (hAll hProcessed) hz⟩
        · rw [if_neg fun hSome => hProcessed ((isSome_iff_processed hPred).mp hSome)]
          exact ⟨n, rfl, .refl, fun hSome => absurd hSome hProcessed, fun z hz _ => hz⟩
    obtain ⟨m, hFirst, hAbove, hPredAbove, hLowest⟩ := hStep
    obtain ⟨m', hRest, hAbove', hAll, hLowest'⟩ :=
      ih (fun p hp => hPreds p (mem_cons_of_mem pred hp)) (h.processed_above hAbove hn)
    refine ⟨m', ?_, hAbove'.trans hAbove, ?_, fun z hz hEach => ?_⟩
    · rw [foldlM_cons, hFirst]
      exact hRest
    · intro p hp hProcessed
      rcases mem_cons.mp hp with rfl | hRestMem
      · exact hAbove'.trans (hPredAbove hProcessed)
      · exact hAll p hRestMem hProcessed
    · exact hLowest' z (hLowest z hz (hEach pred mem_cons_self)) fun p hp =>
        hEach p (mem_cons_of_mem pred hp)

/-- A block with a processed predecessor gets the lowest block above its processed predecessors. -/
theorem newIdom_eq (hFuel : 2 * func.blocks.length + 1 < fuel)
    (hPred : ∃ p, Leads func p bb ∧ Processed (listedIdom func idom) p) :
    ∃ n, newIdom (rpoIndexMap rpo) idom func fuel bb = some (some n) ∧
      Meets (Leads func) (listedIdom func idom) bb n := by
  have hListed : ∀ p ∈ func.predecessors bb, p < func.blocks.length := fun p hp =>
    lt_of_mem_successors ((hOrdered.connected.predecessors_iff p bb).mp hp)
  obtain ⟨p, hNext, hProcessed⟩ := hPred
  have hp := (hOrdered.connected.predecessors_iff p bb).mpr hNext
  unfold newIdom
  cases hFirst : (func.predecessors bb).find? fun pred => (idom pred).isSome with
  | none =>
    have hMissed := List.find?_eq_none.mp hFirst p hp
    exact absurd ((isSome_iff_processed (hListed p hp)).mpr hProcessed) hMissed
  | some first =>
    have hMem := mem_of_find?_eq_some hFirst
    have hSome := (isSome_iff_processed (hListed first hMem)).mp
      (find?_some (p := fun pred => (idom pred).isSome) hFirst)
    obtain ⟨m, hFold, _, hAll, hLowest⟩ := foldlM_intersectPred hOrdered h hFuel hListed hSome
    refine ⟨m, ?_, ?_, ?_⟩
    · dsimp only
      rw [hFold]
      rfl
    · intro q hq hPlaced
      exact hAll q ((hOrdered.connected.predecessors_iff q bb).mpr hq) hPlaced
    · intro z hz
      have hEach : ∀ q ∈ func.predecessors bb, Processed (listedIdom func idom) q →
          Above (listedIdom func idom) z q := fun q hq =>
        hz q ((hOrdered.connected.predecessors_iff q bb).mp hq)
      exact hLowest z (hEach first hMem hSome) hEach

end

section

/-- How far a block can still move up. -/
def weight (func : MirFunction) (rpo : List MirBlockId) (idom : MirBlockId → Option MirBlockId)
    (b : MirBlockId) : Nat :=
  match idom b with
  | none => func.blocks.length
  | some c => (rpoIndexMap rpo c).toNat

def potential (func : MirFunction) (rpo : List MirBlockId)
    (idom : MirBlockId → Option MirBlockId) : Nat :=
  (rpo.map (weight func rpo idom)).sum

/-- A block was moved up. -/
def Lifted (func : MirFunction) (rpo : List MirBlockId) (round round' : Round) : Prop :=
  round'.changed = true ∧ potential func rpo round'.idom < potential func rpo round.idom

/-- The block is below the lowest block above its predecessors. -/
def SettledAt (func : MirFunction) (idom : MirBlockId → Option MirBlockId)
    (b : MirBlockId) : Prop :=
  ∃ n, idom b = some n ∧ Meets (Leads func) (listedIdom func idom) b n

variable {round : Round}

theorem potential_update (ha : a ∈ rpo)
    (hLt : (rpoIndexMap rpo n).toNat < weight func rpo idom a) :
    potential func rpo (update idom a (some n)) < potential func rpo idom := by
  have hHere : weight func rpo (update idom a (some n)) a = (rpoIndexMap rpo n).toNat := by
    unfold weight
    rw [update_self]
  refine sum_lt_sum _ _ (fun b _ => ?_) ⟨a, ha, hHere ▸ hLt⟩
  by_cases hSame : b = a
  · subst hSame
    exact (hHere ▸ hLt).le
  · unfold weight
    rw [update_of_ne hSame]

theorem visit_eq (hOrdered : Ordered func rpo) (h : Holds func rpo (rpoIndexMap rpo bb) round.idom)
    (hbb : bb < func.blocks.length) (hOther : bb ≠ 0) (hFuel : 2 * func.blocks.length + 1 < fuel)
    (hEarlier : ∀ x < func.blocks.length, rpoIndexMap rpo x < rpoIndexMap rpo bb → Processed
      (listedIdom func round.idom) x) :
    ∃ round', round.visit func (rpoIndexMap rpo) fuel bb = some round' ∧
      Holds func rpo (rpoIndexMap rpo bb + 1) round'.idom ∧
      (∀ x, x = bb ∨ Processed (listedIdom func round.idom) x →
        Processed (listedIdom func round'.idom) x) ∧
      (round' = round ∧ SettledAt func round.idom bb ∨ Lifted func rpo round round') := by
  have hReachable := hOrdered.connected.reachable bb hbb
  obtain ⟨p, hNext, hp, hLt⟩ := hOrdered.ranked.forward bb hReachable hOther
  have hPred := hEarlier p (hOrdered.lt hp) hLt
  obtain ⟨n, hNew, hMeets⟩ := newIdom_eq hOrdered h hFuel ⟨p, hNext, hPred⟩
  have hMoves : Moves (Leads func) 0 (rpoIndexMap rpo) (listedIdom func round.idom) bb n :=
    { ranked := hOrdered.ranked
      progress := h
      reachable := hReachable
      other := hOther
      earlier := fun x hx => hEarlier x (hOrdered.lt hx)
      meets := hMeets }
  have hMoved : Holds func rpo (rpoIndexMap rpo bb + 1) (update round.idom bb (some n)) := by
    unfold Holds
    rw [listedIdom_update hbb]
    exact hMoves.progress_update fun x _ => Int.lt_iff_add_one_le
  have hKept : ∀ x, x = bb ∨ Processed (listedIdom func round.idom) x →
      Processed (listedIdom func (update round.idom bb (some n))) x := by
    intro x hx
    rw [listedIdom_update hbb]
    exact processed_update_iff.mpr hx
  unfold Round.visit
  rw [hNew, Option.map_some]
  by_cases hSame : round.idom bb = some n
  · have hStays : update round.idom bb (some n) = round.idom := by
      rw [← hSame, update_eq_self]
    rw [hStays] at hMoved hKept
    refine ⟨round, ?_, hMoved, hKept, .inl ⟨rfl, n, hSame, hMeets⟩⟩
    dsimp only
    rw [if_neg (not_not_intro hSame)]
  · refine ⟨{ idom := update round.idom bb (some n), changed := true }, ?_, hMoved, hKept,
      .inr ⟨rfl, potential_update ((hOrdered.rpo.mem_iff bb).mpr hbb) ?_⟩⟩
    · dsimp only
      rw [if_pos hSame]
    · have hn := h.lt hOrdered hMoves.processed_target
      have hIndex := hOrdered.index_lt hn
      have hNonneg := hOrdered.nonneg hn
      unfold weight
      cases hOld : round.idom bb with
      | none =>
        dsimp only
        omega
      | some c =>
        dsimp only
        have hUp : listedIdom func round.idom bb = some c := (listedIdom_of_lt hbb).trans hOld
        have hAbove := hMoves.above_of_processed ⟨c, hUp⟩
        have hNe : n ≠ bb := by
          rintro rfl
          exact lt_irrefl _ hMoves.rank_lt
        have hHigher := h.rank_lt_of_ne (hAbove.of_ne hNe hUp) fun hEq => hSame (hEq ▸ hOld)
        omega

section

variable (hOrdered : Ordered func rpo) (hFuel : 2 * func.blocks.length + 1 < fuel)
include hOrdered hFuel

/-- A round comes to all blocks. It ends as it began, or has moved a block up. -/
theorem round_eq {done rest : List MirBlockId} (hSplit : rpo = done ++ rest) (hDone : done ≠ [])
    (h : Holds func rpo done.length round.idom)
    (hProcessed : ∀ x ∈ done, Processed (listedIdom func round.idom) x) :
    ∃ round', rest.foldlM (Round.visit func (rpoIndexMap rpo) fuel) round = some round' ∧
      Holds func rpo func.blocks.length round'.idom ∧
      (round' = round ∧ (∀ b ∈ rest, SettledAt func round.idom b) ∨
        Lifted func rpo round round') := by
  induction rest generalizing done round with
  | nil =>
    have hLength : done.length = func.blocks.length := by
      rw [← hOrdered.rpo.length_eq, hSplit, append_nil]
    exact ⟨round, rfl, hLength ▸ h, .inl ⟨rfl, nofun⟩⟩
  | cons bb rest ih =>
    have hPlace : rpo[done.length]? = some bb := by
      rw [hSplit, getElem?_append_right (le_rfl), Nat.sub_self, getElem?_cons_zero]
    have hIndex := rpoIndexMap_of_getElem? hOrdered.rpo.nodup hPlace
    have hMem : bb ∈ rpo := mem_of_getElem? hPlace
    have hOther : bb ≠ 0 := by
      intro hEntry
      rw [hEntry, hOrdered.index_entry] at hIndex
      exact hDone (length_eq_zero_iff.mp (Int.ofNat_inj.mp hIndex.symm))
    have hEarlier : ∀ x < func.blocks.length, rpoIndexMap rpo x < rpoIndexMap rpo bb →
        Processed (listedIdom func round.idom) x := by
      intro x hx hLt
      obtain ⟨i, hi, hPlace'⟩ := hOrdered.rpo.exists_place hx
      rw [hPlace', hIndex] at hLt
      rw [hSplit, getElem?_append_left (Int.ofNat_lt.mp hLt)] at hi
      exact hProcessed x (mem_of_getElem? hi)
    obtain ⟨middle, hVisit, hHolds, hKept, hStep⟩ := visit_eq hOrdered (hIndex ▸ h)
      ((hOrdered.rpo.mem_iff bb).mp hMem) hOther hFuel hEarlier
    have hNext : Holds func rpo ((done ++ [bb]).length : Nat) middle.idom := by
      rw [hIndex] at hHolds
      rw [length_append]
      exact hHolds
    have hAll : ∀ x ∈ done ++ [bb], Processed (listedIdom func middle.idom) x := by
      intro x hx
      rcases mem_append.mp hx with hOld | hNew
      · exact hKept x (.inr (hProcessed x hOld))
      · exact hKept x (.inl (mem_singleton.mp hNew))
    obtain ⟨round', hRest, hEnd, hRound⟩ := ih (by rw [hSplit, append_assoc]; rfl)
      (by simp) hNext hAll
    refine ⟨round', by rw [foldlM_cons, hVisit]; exact hRest, hEnd, ?_⟩
    rcases hStep with ⟨rfl, hSettled⟩ | ⟨hChanged, hLess⟩
    · rcases hRound with ⟨rfl, hOthers⟩ | hMoved
      · refine .inl ⟨rfl, fun b hb => ?_⟩
        rcases mem_cons.mp hb with rfl | hTail
        · exact hSettled
        · exact hOthers b hTail
      · exact .inr hMoved
    · rcases hRound with ⟨rfl, _⟩ | ⟨hChanged', hLess'⟩
      · exact .inr ⟨hChanged, hLess⟩
      · exact .inr ⟨hChanged', hLess'.trans hLess⟩

/-- The rounds end, with each block below the lowest block above its predecessors. -/
theorem iterate_eq {rest : List MirBlockId} (hRpo : rpo = 0 :: rest) {rounds : Nat}
    (h : Holds func rpo 1 idom) (hRounds : potential func rpo idom < rounds) :
    ∃ idom', iterate func (rpoIndexMap rpo) fuel rest rounds idom = some idom' ∧
      Holds func rpo func.blocks.length idom' ∧
      Settled (Leads func) 0 (listedIdom func idom') := by
  induction rounds generalizing idom with
  | zero => cases hRounds
  | succ rounds ih =>
    have hSplit : rpo = [0] ++ rest := hRpo
    have hStart : Holds func rpo ([0].length : Nat) (Round.mk idom false).idom := h
    have hEntry : ∀ x ∈ [0], Processed (listedIdom func (Round.mk idom false).idom) x := by
      intro x hx
      rw [mem_singleton.mp hx]
      exact ⟨0, h.entry_self⟩
    obtain ⟨round', hRound, hEnd, hWhich⟩ :=
      round_eq hOrdered hFuel hSplit (cons_ne_nil 0 []) hStart hEntry
    rw [iterate, hRound, Option.bind_some]
    rcases hWhich with ⟨rfl, hSettled⟩ | ⟨hChanged, hLess⟩
    · refine ⟨idom, rfl, hEnd, fun b hb hOther => ?_⟩
      have hListed := hOrdered.lt hb
      have hMem := (hOrdered.rpo.mem_iff b).mpr hListed
      rw [hRpo] at hMem
      obtain ⟨n, hUp, hMeets⟩ := hSettled b ((mem_cons.mp hMem).resolve_left hOther)
      exact ⟨n, (listedIdom_of_lt hListed).trans hUp, hMeets⟩
    · rw [if_pos hChanged]
      have hAll : ∀ x, Reachable (Leads func) 0 x → rpoIndexMap rpo x < func.blocks.length :=
        fun x hx => hOrdered.index_lt (hOrdered.lt hx)
      exact ih (hEnd.restart hAll) (by dsimp only at hLess; omega)

end

end

end Casprix.Mem2reg
