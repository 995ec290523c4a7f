import Casprix.Collections.SwissRefine

/-! The load accounting of the Swiss map: the counters against the control
bytes over every run of calls, and what a put at the end of the load does. -/
namespace Casprix.Collections

open List Bool Option
open Mir (Word)
open Library

/-- A control byte of an entry. -/
def swissIsFull (byte : CtrlByte) : Bool := !byte.msb

/-- The counters are those of the control bytes. -/
structure SwissBooks {κ : Type*} (m : NuwanSwissMap κ) : Prop where
  positive : 0 < m.cap
  length : m.ctrl.length = m.cap
  bytes : ∀ byte ∈ m.ctrl, byte.msb = true → byte = swissCtrlEmpty ∨ byte = swissCtrlDeleted
  size : m.size = m.ctrl.countP swissIsFull
  tombstones : m.tombstones = m.ctrl.count swissCtrlDeleted
  growth : m.growthLeft + m.size + m.tombstones = swissMaxLoad m.cap

/-- The maps that calls on a new map lead to. -/
inductive SwissReached {κ : Type*} [DecidableEq κ] (hash : κ → Word) :
    NuwanSwissMap κ → Prop where
  | made {start : SwissStart} {m : NuwanSwissMap κ} (hStart : swissStart start = some m) :
      SwissReached hash m
  | call {op : SwissOp κ} {reply : SwissReply} {m d : NuwanSwissMap κ}
    (before : SwissReached hash m)
      (hStep : swissStep hash op m = some (reply, d)) : SwissReached hash d

section

variable {α : Type*} {list : List α} {i : Nat} {a b : α}

theorem countP_set_add (p : α → Bool) (h : list[i]? = some a) :
    (list.set i b).countP p + (p a).toNat = list.countP p + (p b).toNat := by
  induction list generalizing i with
  | nil => cases h
  | cons x list ih =>
    cases i with
    | zero =>
      cases h
      rw [set_cons_zero, countP_cons, countP_cons]
      cases p a <;> cases p b <;> simp
    | succ i =>
      have hRest := ih h
      rw [set_cons_succ, countP_cons, countP_cons]
      omega

end

section

variable {κ : Type*} {hash : κ → Word} {m d : NuwanSwissMap κ} {key : κ}
  {val : Word} {i g : Nat}
  {byte : CtrlByte}

@[simp]
theorem swissIsFull_empty : swissIsFull swissCtrlEmpty = false := rfl

@[simp]
theorem swissIsFull_deleted : swissIsFull swissCtrlDeleted = false := rfl

@[simp]
theorem swissIsFull_h2 (w : Word) : swissIsFull (swissH2 w) = true := by
  rw [swissIsFull, msb_swissH2]
  rfl

theorem swissCtrlEmpty_ne_deleted : swissCtrlEmpty ≠ swissCtrlDeleted := by decide

theorem ne_of_isFull (h : swissIsFull byte = true) :
    byte ≠ swissCtrlEmpty ∧ byte ≠ swissCtrlDeleted := by
  constructor
  · rintro rfl
    cases h
  · rintro rfl
    cases h

theorem SwissBooks.partition (h : SwissBooks m) :
    m.ctrl.countP swissIsFull + m.ctrl.count swissCtrlEmpty +
      m.ctrl.count swissCtrlDeleted = m.cap := by
  rw [← h.length]
  have hBytes := h.bytes
  generalize m.ctrl = ctrl at hBytes ⊢
  induction ctrl with
  | nil => rfl
  | cons byte ctrl ih =>
    obtain ⟨hHere, hRest⟩ := forall_mem_cons.mp hBytes
    have hTail := ih hRest
    rw [countP_cons, count_cons, count_cons, length_cons]
    cases hMsb : byte.msb with
    | true =>
      rcases hHere hMsb with rfl | rfl
      · rw [swissIsFull_empty, beq_self_eq_true, beq_false_of_ne swissCtrlEmpty_ne_deleted]
        simp only [false_eq_true, if_false, if_true]
        omega
      · rw [swissIsFull_deleted, beq_self_eq_true, beq_false_of_ne swissCtrlEmpty_ne_deleted.symm]
        simp only [false_eq_true, if_false, if_true]
        omega
    | false =>
      have hFull : swissIsFull byte = true := by
        rw [swissIsFull, hMsb]
        rfl
      obtain ⟨hEmpty, hDeleted⟩ := ne_of_isFull hFull
      rw [hFull, beq_false_of_ne hEmpty, beq_false_of_ne hDeleted]
      simp only [false_eq_true, if_false, if_true]
      omega

/-- An eighth of the slots stays empty. -/
theorem SwissBooks.empties (h : SwissBooks m) : m.cap / 8 ≤ m.ctrl.count swissCtrlEmpty := by
  have hAll := h.partition
  have hSize := h.size
  have hTombstones := h.tombstones
  have hGrowth := h.growth
  rw [swissMaxLoad] at hGrowth
  omega

theorem SwissBooks.probed (h : SwissBooks m) (n : Nat) : SwissBooks { m with lastProbeLen := n } :=
  ⟨h.positive, h.length, h.bytes, h.size, h.tombstones, h.growth⟩

theorem swissBooks_fresh (hPositive : 0 < m.cap)
    (hCtrl : m.ctrl = List.replicate m.cap swissCtrlEmpty)
    (hSize : m.size = 0) (hTombstones : m.tombstones = 0)
    (hGrowth : m.growthLeft = swissMaxLoad m.cap) :
    SwissBooks m := by
  refine ⟨hPositive, by rw [hCtrl, length_replicate], ?_, ?_, ?_, ?_⟩
  · intro byte hByte _
    rw [hCtrl] at hByte
    exact .inl (eq_of_mem_replicate hByte)
  · rw [hSize, hCtrl, countP_replicate]
    rfl
  · rw [hTombstones, hCtrl, count_replicate]
    rfl
  · rw [hGrowth, hSize, hTombstones]
    rfl

theorem SwissBooks.clear (h : SwissBooks m) : SwissBooks (nuwanSwissClear m) :=
  swissBooks_fresh h.positive rfl rfl rfl rfl

theorem SwissBooks.setByte {old : CtrlByte} (h : SwissBooks m) (hOld : m.ctrl[i]? = some old)
    (hByte : byte.msb = true → byte = swissCtrlEmpty ∨ byte = swissCtrlDeleted)
    (hCtrl : d.ctrl = m.ctrl.set i byte) (hCap : d.cap = m.cap)
    (hSize : d.size + (swissIsFull old).toNat = m.size + (swissIsFull byte).toNat)
    (hTombstones : d.tombstones + (old == swissCtrlDeleted).toNat =
      m.tombstones + (byte == swissCtrlDeleted).toNat)
    (hGrowth : d.growthLeft + d.size + d.tombstones = m.growthLeft + m.size + m.tombstones) :
    SwissBooks d := by
  have hFullCount := countP_set_add (b := byte) swissIsFull hOld
  have hDeletedCount := countP_set_add (b := byte) (· == swissCtrlDeleted) hOld
  have hMSize := h.size
  have hMTombstones := h.tombstones
  refine ⟨by rw [hCap]; exact h.positive, ?_, ?_, ?_, ?_, ?_⟩
  · rw [hCtrl, length_set, h.length, hCap]
  · intro other hOther hMsb
    rw [hCtrl] at hOther
    rcases mem_or_eq_of_mem_set hOther with hBefore | rfl
    · exact h.bytes other hBefore hMsb
    · exact hByte hMsb
  · rw [hCtrl]
    omega
  · rw [hCtrl, List.count]
    rw [List.count] at hMTombstones
    omega
  · rw [hGrowth, hCap]
    exact h.growth

theorem ctrl_of_lane (hLane : (m.group g)[i]? = some byte) :
    m.ctrl[g * swissGroupSize + i]? = some byte := by
  rw [NuwanSwissMap.group, getElem?_take] at hLane
  split at hLane
  · rwa [getElem?_drop] at hLane
  · cases hLane

theorem ctrl_of_match {test : CtrlByte → Bool} (hMatch : i ∈ swissMatch (m.group g) test) :
    ∃ byte, m.ctrl[g * swissGroupSize + i]? = some byte ∧ test byte = true := by
  obtain ⟨_, byte, hByte, hTest⟩ := mem_swissMatch.mp hMatch
  exact ⟨byte, ctrl_of_lane hByte, hTest⟩

/-- The slot is empty or deleted. -/
def FreeSlot (m : NuwanSwissMap κ) (i : Nat) : Prop :=
  ∃ byte, m.ctrl[i]? = some byte ∧ byte.msb = true

theorem freeSlot_of_head {test : CtrlByte → Bool}
    (hTest : ∀ byte, test byte = true → byte.msb = true)
    (hHead : (swissMatch (m.group g) test).head? = some i) :
    FreeSlot m (g * swissGroupSize + i) := by
  obtain ⟨byte, hByte, hPass⟩ := ctrl_of_match (mem_of_mem_head? hHead)
  exact ⟨byte, hByte, hTest byte hPass⟩

theorem SwissBooks.insertAt (h : SwissBooks m) (hFree : FreeSlot m i) (hLoad : m.growthLeft ≠ 0) :
    SwissBooks (swissInsertAt hash m i key val) := by
  obtain ⟨old, hOld, hMsb⟩ := hFree
  obtain ⟨_, hNew⟩ := ne_of_isFull (swissIsFull_h2 (hash key))
  have hNotFree : (swissH2 (hash key)).msb = true →
      swissH2 (hash key) = swissCtrlEmpty ∨ swissH2 (hash key) = swissCtrlDeleted := by
    rw [msb_swissH2]
    exact nofun
  rcases h.bytes old (mem_of_getElem? hOld) hMsb with rfl | rfl
  · have hWas : (m.ctrl[i]? == some swissCtrlEmpty) = true := by rw [hOld, beq_self_eq_true]
    apply h.setByte hOld hNotFree
    · rfl
    · rfl
    · simp [swissInsertAt]
    · rw [beq_false_of_ne swissCtrlEmpty_ne_deleted, beq_false_of_ne hNew]
      simp [swissInsertAt, hWas]
    · simp only [swissInsertAt, hWas, if_true]
      omega
  · have hWas : (m.ctrl[i]? == some swissCtrlEmpty) = false := by
      rw [hOld]
      decide
    have hSome : 0 < m.tombstones := by
      rw [h.tombstones]
      exact count_pos_iff.mpr (mem_of_getElem? hOld)
    apply h.setByte hOld hNotFree
    · rfl
    · rfl
    · simp [swissInsertAt]
    · simp only [swissInsertAt, hWas, beq_self_eq_true, beq_false_of_ne hNew,
        false_eq_true, if_false,
        toNat_true, toNat_false]
      omega
    · simp only [swissInsertAt, hWas, false_eq_true, if_false]
      omega

theorem SwissBooks.removeAt (h : SwissBooks m) (hOld : m.ctrl[i]? = some byte)
    (hFull : swissIsFull byte = true) :
    SwissBooks (swissRemoveAt m i) := by
  obtain ⟨_, hNotDeleted⟩ := ne_of_isFull hFull
  have hSome : 0 < m.size := by
    rw [h.size]
    exact countP_pos_iff.mpr ⟨byte, mem_of_getElem? hOld, hFull⟩
  unfold swissRemoveAt
  dsimp only
  split
  · apply h.setByte hOld (fun _ => .inl rfl)
    · rfl
    · rfl
    · show m.size - 1 + (swissIsFull byte).toNat = m.size + (swissIsFull swissCtrlEmpty).toNat
      rw [hFull, swissIsFull_empty]
      exact Nat.sub_add_cancel hSome
    · rw [beq_false_of_ne hNotDeleted, beq_false_of_ne swissCtrlEmpty_ne_deleted]
    · show m.growthLeft + 1 + (m.size - 1) + m.tombstones = m.growthLeft + m.size + m.tombstones
      omega
  · apply h.setByte hOld (fun _ => .inr rfl)
    · rfl
    · rfl
    · show m.size - 1 + (swissIsFull byte).toNat = m.size + (swissIsFull swissCtrlDeleted).toNat
      rw [hFull, swissIsFull_deleted]
      exact Nat.sub_add_cancel hSome
    · rw [beq_false_of_ne hNotDeleted, beq_self_eq_true]
      rfl
    · show m.growthLeft + (m.size - 1) + (m.tombstones + 1) = m.growthLeft + m.size + m.tombstones
      omega

variable [DecidableEq κ] {w : Word} {fuel stride probeLen : Nat} {candidate : Option Nat}

theorem ctrl_of_matchKey (hMatch : swissMatchKey m key w g = some i) :
    m.ctrl[i]? = some (swissH2 w) := by
  obtain ⟨b, hb, rfl⟩ := mem_map.mp (mem_of_find?_eq_some hMatch)
  obtain ⟨byte, hByte, hSame⟩ := ctrl_of_match hb
  rw [hByte, beq_iff_eq.mp hSame]

/-- A probe for an insertion that does not find the key reports a free slot, if any. -/
theorem findForInsertLoop_free (hCandidate : ∀ i, candidate = some i → FreeSlot m i)
    (hNot : (swissFindForInsertLoop m key w fuel g stride probeLen candidate).found = false)
    (hIndex : (swissFindForInsertLoop m key w fuel g stride probeLen candidate).index = some i) :
    FreeSlot m i := by
  induction fuel generalizing g stride probeLen candidate with
  | zero => exact hCandidate i hIndex
  | succ fuel ih =>
    rw [swissFindForInsertLoop] at hNot hIndex
    cases hMatch : swissMatchKey m key w g with
    | some idx =>
      rw [hMatch] at hNot
      cases hNot
    | none =>
      simp only [hMatch] at hNot hIndex
      have hNext : ∀ i, candidate.or ((swissMatchEmptyOrDeleted (m.group g)).head?.map
          (g * swissGroupSize + ·)) = some i → FreeSlot m i := by
        intro i hSome
        rcases or_eq_some_iff.mp hSome with hOld | ⟨_, hFree⟩
        · exact hCandidate i hOld
        · obtain ⟨b, hb, rfl⟩ := map_eq_some_iff.mp hFree
          exact freeSlot_of_head (fun _ hPass => hPass) hb
      cases hEmpty : (swissMatchEmpty (m.group g)).head? with
      | some b =>
        simp only [hEmpty] at hIndex
        rcases or_eq_some_iff.mp hIndex with hOld | ⟨_, hLast⟩
        · exact hNext i hOld
        · obtain rfl := Option.some.inj hLast
          refine freeSlot_of_head (fun byte hPass => ?_) hEmpty
          rw [beq_iff_eq.mp hPass]
          decide
      | none =>
        simp only [hEmpty] at hNot hIndex
        exact ih hNext hNot hIndex

theorem findForInsert_free (h : SwissBooks m) (hNot : (swissFindForInsert m key w).found = false)
    (hIndex : (swissFindForInsert m key w).index = some i) : FreeSlot m i := by
  rw [swissFindForInsert, if_neg (pos_iff_ne_zero.mp h.positive)] at hNot hIndex
  exact findForInsertLoop_free (fun i hNone => by cases hNone) hNot hIndex

/-- A lookup that finds the key reports a slot with its byte. -/
theorem findLoop_full (hFound : (swissFindLoop m key w fuel g stride probeLen).found = true)
    (hIndex : (swissFindLoop m key w fuel g stride probeLen).index = some i) :
    m.ctrl[i]? = some (swissH2 w) := by
  induction fuel generalizing g stride probeLen with
  | zero => cases hFound
  | succ fuel ih =>
    rw [swissFindLoop] at hFound hIndex
    cases hMatch : swissMatchKey m key w g with
    | some idx =>
      rw [hMatch] at hIndex
      obtain rfl := Option.some.inj hIndex
      exact ctrl_of_matchKey hMatch
    | none =>
      simp only [hMatch] at hFound hIndex
      split at hFound
      · cases hFound
      · next hEmpty =>
          rw [if_neg hEmpty] at hIndex
          exact ih hFound hIndex

theorem find_full (h : SwissBooks m) (hFound : (swissFind m key w).found = true)
    (hIndex : (swissFind m key w).index = some i) : m.ctrl[i]? = some (swissH2 w) := by
  rw [swissFind, if_neg (pos_iff_ne_zero.mp h.positive)] at hFound hIndex
  exact findLoop_full hFound hIndex

theorem SwissBooks.put {stored : Bool} (h : SwissBooks m)
    (hPut : nuwanSwissPut hash m key val = some (stored, d)) : SwissBooks d := by
  rw [nuwanSwissPut, swissRehashOrGrow_eq_none] at hPut
  split at hPut
  · cases hPut
  · next hLoad =>
      rw [swissPutProbe] at hPut
      cases hFound : (swissFindForInsert m key (hash key)).found with
      | true =>
        cases hIndex : (swissFindForInsert m key (hash key)).index with
        | none => simp [hFound, hIndex] at hPut
        | some i =>
          simp only [hFound, hIndex, if_true, Option.some.injEq, Prod.mk.injEq] at hPut
          obtain ⟨_, rfl⟩ := hPut
          exact ⟨h.positive, h.length, h.bytes, h.size, h.tombstones, h.growth⟩
      | false =>
        cases hIndex : (swissFindForInsert m key (hash key)).index with
        | none => simp [hFound, hIndex, swissRehashOrGrow_eq_none] at hPut
        | some i =>
          simp only [hFound, hIndex, false_eq_true, if_false, Option.some.injEq,
            Prod.mk.injEq] at hPut
          obtain ⟨_, rfl⟩ := hPut
          have hFree : FreeSlot m i := findForInsert_free h hFound hIndex
          exact (h.probed _).insertAt hFree hLoad

theorem SwissBooks.remove (h : SwissBooks m) : SwissBooks (nuwanSwissRemove hash m key).2 := by
  rw [nuwanSwissRemove]
  cases hFound : (swissFind m key (hash key)).found with
  | false => exact h.probed _
  | true =>
    cases hIndex : (swissFind m key (hash key)).index with
    | none => exact h.probed _
    | some i =>
      have hFull : m.ctrl[i]? = some (swissH2 (hash key)) := find_full h hFound hIndex
      exact (h.probed _).removeAt hFull (swissIsFull_h2 _)

theorem SwissBooks.getOpt (h : SwissBooks m) : SwissBooks (nuwanSwissGetOpt hash m key).2 := by
  rw [nuwanSwissGetOpt]
  split
  · exact h.probed _
  · exact h.probed _

theorem SwissBooks.step {op : SwissOp κ} {reply : SwissReply} (h : SwissBooks m)
    (hStep : swissStep hash op m = some (reply, d)) : SwissBooks d := by
  cases op with
  | put key val =>
    obtain ⟨⟨stored, after⟩, hPut, hEq⟩ := map_eq_some_iff.mp hStep
    cases hEq
    exact h.put hPut
  | getOpt key =>
    cases hStep
    exact h.getOpt
  | has key =>
    cases hStep
    exact h.getOpt
  | remove key =>
    cases hStep
    exact h.remove
  | reserve expectedSize =>
    obtain ⟨after, hReserve, hEq⟩ := map_eq_some_iff.mp hStep
    cases hEq
    rw [nuwanSwissReserve] at hReserve
    split at hReserve
    · cases hReserve
    · cases hReserve
      exact h
  | clear =>
    cases hStep
    exact h.clear
  | size =>
    cases hStep
    exact h

/-- Every map reached keeps its books and holds some partial function in its one group. -/
theorem SwissReached.invariant (h : SwissReached hash m) :
    SwissBooks m ∧ ∃ f, SwissHolds hash m f := by
  induction h with
  | @made start m hStart =>
    cases start with
    | fresh =>
      obtain ⟨fresh, hNew, hHolds⟩ := swissHolds_new hash
      obtain rfl : fresh = m := Option.some.inj (hNew.symm.trans hStart)
      cases hNew
      exact ⟨swissBooks_fresh (Nat.succ_pos 15) rfl rfl rfl rfl, _, hHolds⟩
    | reserved expectedSize =>
      obtain ⟨fresh, hNew, hHolds⟩ := swissHolds_new hash
      rw [swissStart, nuwanSwissNewReserved, hNew] at hStart
      have hReserve : nuwanSwissReserve fresh expectedSize = some m := hStart
      rw [hHolds.reserve] at hReserve
      split at hReserve
      · cases hReserve
        cases hNew
        exact ⟨swissBooks_fresh (Nat.succ_pos 15) rfl rfl rfl rfl, _, hHolds⟩
      · cases hReserve
  | @call op reply m d _ hStep ih =>
    obtain ⟨hBooks, f, hHolds⟩ := ih
    refine ⟨hBooks.step hStep, ?_⟩
    by_cases hFits : SwissFits op f
    · obtain ⟨after, hAfter, hNext⟩ := swissStep_refines op m f hHolds hFits
      rw [hStep, Option.some.injEq, Prod.mk.injEq] at hAfter
      exact ⟨_, hAfter.2 ▸ hNext⟩
    · rw [swissStep_eq_none op m f hHolds hFits] at hStep
      cases hStep

/-- The counters are those of the control bytes, an eighth of the slots is
empty, and the capacity is that of a new map. -/
structure SwissAccounts (m : NuwanSwissMap κ) : Prop where
  size : m.size = m.ctrl.countP swissIsFull
  tombstones : m.tombstones = m.ctrl.count swissCtrlDeleted
  growth : m.growthLeft + m.size + m.tombstones = swissMaxLoad m.cap
  empties : m.cap / 8 ≤ m.ctrl.count swissCtrlEmpty
  length : m.ctrl.length = m.cap
  cap : m.cap = swissInitCap

/-- The capacity after a put, as the comment on the design has it: at the end of
the load deletions are reclaimed at the same size when the tombstones outnumber
the entries, and otherwise the capacity is doubled. -/
def promisedCap (m : NuwanSwissMap κ) : Nat :=
  if m.growthLeft = 0 ∧ m.tombstones ≤ m.size then m.cap * 2 else m.cap

/-- Every put stores its value, in a table of the capacity promised. -/
def PutsAsPromised (hash : κ → Word) (m : NuwanSwissMap κ) : Prop :=
  ∀ key val, ∃ d, nuwanSwissPut hash m key val = some (true, d) ∧
    (nuwanSwissGetOpt hash d key).1 = some val ∧ d.cap = promisedCap m

omit [DecidableEq κ] in
/-- The test for a rehash at the same size never passes in a table whose books are
in order: at the end of the load the entries and tombstones are as many as the
load allows, and the test asks for more. -/
theorem SwissBooks.rehashCap_eq (h : SwissBooks m) : swissRehashCap m = m.cap * 2 := by
  have hPositive := h.positive
  have hGrowth := h.growth
  unfold swissRehashCap
  dsimp only
  rw [if_neg (by omega), if_pos (by omega)]

theorem SwissReached.accounts (hReached : SwissReached hash m) : SwissAccounts m := by
  obtain ⟨hBooks, f, lanes, hLanes, _⟩ := hReached.invariant
  exact ⟨hBooks.size, hBooks.tombstones, hBooks.growth, hBooks.empties,
    hBooks.length, hLanes.cap⟩

theorem SwissReached.puts (hReached : SwissReached hash m) (hLoad : m.growthLeft ≠ 0) :
    PutsAsPromised hash m := by
  obtain ⟨_, f, hHolds⟩ := hReached.invariant
  intro key val
  obtain ⟨d, hPut, hNext⟩ : ∃ d, nuwanSwissPut hash m key val = some (true, d) ∧
      SwissHolds hash d (Function.update f key (some val)) := hHolds.put hLoad
  have hStored := (hNext.getOpt key).1
  rw [Function.update_self] at hStored
  have hPromised : promisedCap m = m.cap := if_neg fun h => hLoad h.1
  obtain ⟨lanes, hLanes, _⟩ := hHolds
  obtain ⟨lanesAfter, hLanesAfter, _⟩ := hNext
  exact ⟨d, hPut, hStored, by rw [hPromised, hLanes.cap, hLanesAfter.cap]⟩

theorem SwissReached.exists_key (hReached : SwissReached hash m) (hZero : m.growthLeft = 0) :
    Nonempty κ := by
  obtain ⟨_, f, lanes, hLanes, _⟩ := hReached.invariant
  have hSize := hLanes.size
  have hGrowth := hLanes.growth
  cases hEntries : lanes.reduceOption with
  | nil =>
    rw [hEntries, length_nil] at hSize
    omega
  | cons entry _ => exact ⟨entry.1⟩

/-- A map reached has its books in order and stores what is put as promised until
the load is at its end. There no put comes to a result, and in no table with its
books in order does the code ask for a rehash at the same size. -/
theorem swiss_promise_iff (hash : κ → Word) (m : NuwanSwissMap κ)
    (hReached : SwissReached hash m) :
    (SwissAccounts m ∧ PutsAsPromised hash m ↔ m.growthLeft ≠ 0) ∧
      ∀ table : NuwanSwissMap κ, SwissBooks table → swissRehashCap table = table.cap * 2 := by
  refine ⟨⟨fun ⟨_, hPuts⟩ hZero => ?_, fun hLoad =>
    ⟨hReached.accounts, hReached.puts hLoad⟩⟩,
    fun table hBooks => hBooks.rehashCap_eq⟩
  obtain ⟨key⟩ := hReached.exists_key hZero
  obtain ⟨d, hPut, _⟩ := hPuts key 0
  rw [nuwanSwissPut, if_pos hZero, swissRehashOrGrow_eq_none] at hPut
  cases hPut

theorem SwissReached.answers {ops : List (SwissOp κ)} {log : List SwissReply}
    (h : SwissReached hash m) (hRun : answers (swissStep hash) ops m = some (log, d)) :
    SwissReached hash d := by
  induction ops generalizing m log with
  | nil =>
    cases hRun
    exact h
  | cons op ops ih =>
    rw [Library.answers] at hRun
    split at hRun
    · next reply next hStep =>
        obtain ⟨rest, hRest, hEq⟩ := map_eq_some_iff.mp hRun
        cases hEq
        exact ih (h.call hStep) hRest
    · cases hRun

end

/-- A map that fourteen puts fill, and one of them is removed again. -/
theorem swiss_promise_removed : ∃ m : NuwanSwissMap Nat,
    SwissReached (BitVec.ofNat 64) m ∧ m.size = 13 ∧
      SwissAccounts m ∧ PutsAsPromised (BitVec.ofNat 64) m := by
  obtain ⟨m, hNew, _⟩ := swissHolds_new (BitVec.ofNat 64 : Nat → Word)
  have hFresh : SwissReached (BitVec.ofNat 64) m :=
    .made (show swissStart .fresh = some m from hNew)
  have hRun : ((nuwanSwissNew (κ := Nat)).bind (answers (swissStep (BitVec.ofNat 64))
      (((List.range 14).map fun k => .put k 1) ++ [.remove 3]))).map
        (fun result => (result.2.size, result.2.growthLeft)) = some (13, 1) := by decide +kernel
  rw [hNew, bind_some] at hRun
  obtain ⟨⟨log, d⟩, hAnswers, hSize⟩ := map_eq_some_iff.mp hRun
  have hReached := hFresh.answers hAnswers
  obtain ⟨hThirteen, hOne⟩ : d.size = 13 ∧ d.growthLeft = 1 := Prod.mk.inj hSize
  have hLoad : d.growthLeft ≠ 0 := by rw [hOne]; exact one_ne_zero
  exact ⟨d, hReached, hThirteen, (swiss_promise_iff _ d hReached).1.mpr hLoad⟩

/-- A map that fourteen puts fill does not store a fifteenth key. -/
theorem swiss_promise_fails : ¬∀ m : NuwanSwissMap Nat, SwissReached (BitVec.ofNat 64) m →
    SwissAccounts m ∧ PutsAsPromised (BitVec.ofNat 64) m := by
  intro hPromise
  obtain ⟨m, hNew, _⟩ := swissHolds_new (BitVec.ofNat 64 : Nat → Word)
  have hFresh : SwissReached (BitVec.ofNat 64) m :=
    .made (show swissStart .fresh = some m from hNew)
  have hRun : ((nuwanSwissNew (κ := Nat)).bind (answers (swissStep (BitVec.ofNat 64))
      ((List.range 14).map fun k => .put k 1))).map
        (fun result => (nuwanSwissPut (BitVec.ofNat 64) result.2 14 1).isNone) = some true := by
    decide +kernel
  rw [hNew, bind_some] at hRun
  obtain ⟨⟨log, d⟩, hAnswers, hNone⟩ := map_eq_some_iff.mp hRun
  obtain ⟨_, hPut, _⟩ := (hPromise d (hFresh.answers hAnswers)).2 14 1
  dsimp only at hNone
  rw [hPut] at hNone
  cases hNone

end Casprix.Collections
