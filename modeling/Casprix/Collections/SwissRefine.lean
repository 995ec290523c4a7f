import Casprix.Collections.Swiss
import Casprix.Library.FiniteMap
import Casprix.Library.Refinement

/-! The Swiss map against a partial function. Rehashing never gets its arrays,
so a map that works has one group. -/
namespace Casprix.Collections

open List Function
open Mir (Word)
open Library

inductive SwissOp (κ : Type*) where
  | put (key : κ) (val : Word)
  | getOpt (key : κ)
  | has (key : κ)
  | remove (key : κ)
  | reserve (expectedSize : Word)
  | clear
  | size

inductive SwissReply where
  | flag (b : Bool)
  | value (val : Option Word)
  | count (n : Nat)
  | done
  deriving DecidableEq

section

variable {κ : Type*} [DecidableEq κ]

/-- What a partial function answers, and how it is updated. -/
noncomputable def mapAnswer :
    SwissOp κ → (κ → Option Word) → SwissReply × (κ → Option Word)
  | .put key val, f => (.flag true, update f key (some val))
  | .getOpt key, f => (.value (f key), f)
  | .has key, f => (.flag (f key).isSome, f)
  | .remove key, f => (.flag (f key).isSome, update f key none)
  | .reserve _, f => (.done, f)
  | .clear, _ => (.done, fun _ => none)
  | .size, f => (.count (keyCount f), f)

/-- One call on the map. -/
def swissStep (hash : κ → Word) (op : SwissOp κ) (m : NuwanSwissMap κ) :
    Option (SwissReply × NuwanSwissMap κ) :=
  match op with
  | .put key val => (nuwanSwissPut hash m key val).map fun r => (.flag r.1, r.2)
  | .getOpt key => let r := nuwanSwissGetOpt hash m key; some (.value r.1, r.2)
  | .has key => let r := nuwanSwissHas hash m key; some (.flag r.1, r.2)
  | .remove key => let r := nuwanSwissRemove hash m key; some (.flag r.1, r.2)
  | .reserve expectedSize => (nuwanSwissReserve m expectedSize).map fun m => (.done, m)
  | .clear => some (.done, nuwanSwissClear m)
  | .size => some (.count m.size, m)

/-- The calls that need no rehashing. -/
def SwissFits (op : SwissOp κ) (f : κ → Option Word) : Prop :=
  match op with
  | .put _ _ => keyCount f < 14
  | .reserve expectedSize => swissReserveNeed expectedSize ≤ swissInitCap
  | _ => True

/-- The control byte of a lane. -/
def laneByte (hash : κ → Word) : Option (κ × Word) → CtrlByte
  | some entry => swissH2 (hash entry.1)
  | none => swissCtrlEmpty

/-- The map is a table of one group with these lanes and no tombstones. -/
structure Lanes (hash : κ → Word) (m : NuwanSwissMap κ)
    (lanes : List (Option (κ × Word))) : Prop where
  length : lanes.length = swissGroupSize
  cap : m.cap = swissInitCap
  ctrl : m.ctrl = lanes.map (laneByte hash)
  slots : m.slots.length = swissGroupSize
  slot : ∀ (i : Nat) k v, lanes[i]? = some (some (k, v)) →
    m.slots[i]? = some ⟨hash k, some k, v⟩
  size : m.size = lanes.reduceOption.length
  tombstones : m.tombstones = 0
  growth : m.growthLeft + m.size = 14

/-- The map holds the partial function. -/
def SwissHolds (hash : κ → Word) (m : NuwanSwissMap κ) (f : κ → Option Word) : Prop :=
  ∃ lanes, Lanes hash m lanes ∧ Holds lanes.reduceOption f

end

theorem msb_swissH2 (hash : Word) : (swissH2 hash).msb = false := by
  simp [swissH2, BitVec.msb_eq_getLsbD_last]

theorem mem_swissMatch {group : List CtrlByte} {test : CtrlByte → Bool} {b : Nat} :
    b ∈ swissMatch group test ↔ b < swissGroupSize ∧
      ∃ byte, group[b]? = some byte ∧ test byte = true := by
  simp [swissMatch, mem_filter, Option.any_eq_true]

variable {v : Word}

section

variable {κ : Type*} {hash : κ → Word} {m : NuwanSwissMap κ}
  {lanes : List (Option (κ × Word))} {f : κ → Option Word} {key : κ} {val : Word} {i : Nat}

namespace Lanes

section

variable (h : Lanes hash m lanes)
include h

theorem group_zero : m.group 0 = lanes.map (laneByte hash) := by
  rw [NuwanSwissMap.group, h.ctrl, zero_mul, drop_zero, take_of_length_le]
  rw [length_map, h.length]

theorem numGroups_eq : m.numGroups = 1 := by
  rw [NuwanSwissMap.numGroups, h.cap]
  rfl

theorem homeGroup_eq (w : Word) : m.homeGroup w = 0 := by
  rw [NuwanSwissMap.homeGroup, h.numGroups_eq]
  exact Nat.and_zero _

theorem lt_of_lane {x : Option (κ × Word)} (hLane : lanes[i]? = some x) :
    i < swissGroupSize := by
  rw [← h.length]
  exact (List.getElem?_eq_some_iff.mp hLane).1

end

theorem lane_of_byte {byte : CtrlByte} (hByte : (lanes.map (laneByte hash))[i]? = some byte)
    (hFull : byte.msb = false) : ∃ k v, lanes[i]? = some (some (k, v)) := by
  rw [getElem?_map, Option.map_eq_some_iff] at hByte
  obtain ⟨lane, hLane, rfl⟩ := hByte
  cases lane with
  | none =>
    have hEmpty : swissCtrlEmpty.msb = true := by decide
    exact absurd (hFull.symm.trans hEmpty) Bool.false_ne_true
  | some entry => exact ⟨entry.1, entry.2, hLane⟩

theorem free_of_byte {byte : CtrlByte} (hByte : (lanes.map (laneByte hash))[i]? = some byte)
    (hFree : byte.msb = true) : lanes[i]? = some none := by
  rw [getElem?_map, Option.map_eq_some_iff] at hByte
  obtain ⟨lane, hLane, rfl⟩ := hByte
  cases lane with
  | none => exact hLane
  | some entry =>
    rw [laneByte, msb_swissH2] at hFree
    cases hFree

section

variable (h : Lanes hash m lanes)
include h

theorem exists_free : ∃ b : Nat, lanes[b]? = some none := by
  by_contra hNone
  have hAll : ∀ lane ∈ lanes, lane.isSome = true := by
    intro lane hLane
    obtain ⟨b, hb⟩ := mem_iff_getElem?.mp hLane
    cases lane with
    | none => exact absurd ⟨b, hb⟩ hNone
    | some entry => rfl
  have hLength := reduceOption_length_eq_iff.mpr hAll
  have hGrowth := h.growth
  rw [h.size, hLength, h.length, swissGroupSize] at hGrowth
  omega

/-- The lowest lane that passes a test true of free bytes alone is free. -/
theorem head_match {test : CtrlByte → Bool}
    (hEmpty : test swissCtrlEmpty = true) (hTest : ∀ byte, test byte = true → byte.msb = true) :
    ∃ b : Nat, (swissMatch (m.group 0) test).head? = some b ∧ lanes[b]? = some none := by
  obtain ⟨b, hFree⟩ := h.exists_free
  have hMem : b ∈ swissMatch (m.group 0) test := by
    rw [mem_swissMatch, h.group_zero]
    refine ⟨h.lt_of_lane hFree, swissCtrlEmpty, ?_, hEmpty⟩
    rw [getElem?_map, hFree]
    rfl
  cases hHead : (swissMatch (m.group 0) test).head? with
  | none => simp [List.head?_eq_none_iff.mp hHead] at hMem
  | some c =>
    obtain ⟨_, byte, hByte, hPass⟩ := mem_swissMatch.mp (mem_of_mem_head? hHead)
    rw [h.group_zero] at hByte
    exact ⟨c, rfl, free_of_byte hByte (hTest byte hPass)⟩

theorem head_matchEmpty :
    ∃ b : Nat, (swissMatchEmpty (m.group 0)).head? = some b ∧ lanes[b]? = some none :=
  h.head_match (beq_self_eq_true _) fun byte hByte => by
    rw [beq_iff_eq.mp hByte]
    decide

theorem probed (n : Nat) : Lanes hash { m with lastProbeLen := n } lanes :=
  ⟨h.length, h.cap, h.ctrl, h.slots, h.slot, h.size, h.tombstones, h.growth⟩

end

variable [DecidableEq κ]

section

variable (h : Lanes hash m lanes)
include h

/-- The slot reported for a key is the lane that holds it. -/
theorem lane_of_matchKey (hMatch : swissMatchKey m key (hash key) 0 = some i) :
    ∃ v, lanes[i]? = some (some (key, v)) := by
  have hSlot := find?_some hMatch
  have hMem := mem_of_find?_eq_some hMatch
  rw [h.group_zero, mem_map] at hMem
  obtain ⟨b, hb, hIdx⟩ := hMem
  rw [zero_mul, zero_add] at hIdx
  subst hIdx
  obtain ⟨_, byte, hByte, hSame⟩ := mem_swissMatch.mp hb
  rw [beq_iff_eq] at hSame
  obtain ⟨k, v, hLane⟩ := lane_of_byte hByte (hSame ▸ msb_swissH2 _)
  rw [h.slot b k v hLane, Option.any_some, Bool.and_eq_true, beq_iff_eq, beq_iff_eq] at hSlot
  obtain rfl := Option.some.inj hSlot.2
  exact ⟨v, hLane⟩

theorem matchKey_isSome (hLane : lanes[i]? = some (some (key, v))) :
    (swissMatchKey m key (hash key) 0).isSome = true := by
  unfold swissMatchKey
  rw [find?_isSome]
  refine ⟨i, mem_map.mpr ⟨i, ?_, by rw [zero_mul, zero_add]⟩, ?_⟩
  · rw [swissMatchByte, mem_swissMatch, h.group_zero]
    refine ⟨h.lt_of_lane hLane, swissH2 (hash key), ?_, beq_self_eq_true _⟩
    rw [getElem?_map, hLane]
    rfl
  · rw [h.slot i key v hLane]
    simp

theorem swissFind_eq :
    swissFind m key (hash key) = match swissMatchKey m key (hash key) 0 with
      | some idx => { index := some idx, found := true, probeLen := 1 }
      | none => { index := some 0, probeLen := 1 } := by
  obtain ⟨b, hEmpty, _⟩ := h.head_matchEmpty
  have hSome : swissMatchEmpty (m.group 0) ≠ [] := fun hNil => by simp [hNil] at hEmpty
  have hCap : m.cap ≠ 0 := by rw [h.cap]; decide
  rw [swissFind, if_neg hCap, h.numGroups_eq, h.homeGroup_eq, swissFindLoop]
  cases swissMatchKey m key (hash key) 0 with
  | some idx => rfl
  | none => exact if_pos hSome

theorem swissFindForInsert_eq (key : κ) : ∃ b : Nat, lanes[b]? = some none ∧
    swissFindForInsert m key (hash key) = match swissMatchKey m key (hash key) 0 with
      | some idx => { index := some idx, found := true, probeLen := 1 }
      | none => { index := some b, probeLen := 1 } := by
  obtain ⟨c, hEmpty, _⟩ := h.head_matchEmpty
  obtain ⟨b, hFree, hLane⟩ :
      ∃ b : Nat, (swissMatchEmptyOrDeleted (m.group 0)).head? = some b ∧
        lanes[b]? = some none :=
    h.head_match (by decide) fun _ hByte => hByte
  have hCap : m.cap ≠ 0 := by rw [h.cap]; decide
  refine ⟨b, hLane, ?_⟩
  rw [swissFindForInsert, if_neg hCap, h.numGroups_eq, h.homeGroup_eq, swissFindForInsertLoop]
  cases swissMatchKey m key (hash key) 0 with
  | some idx => rfl
  | none => simp [hEmpty, hFree]

end

end Lanes

theorem holds_lane (hHolds : Holds lanes.reduceOption f)
    (hLane : lanes[i]? = some (some (key, v))) : f key = some v :=
  (hHolds.mem_iff key v).mp (reduceOption_mem_iff.mpr (mem_of_getElem? hLane))

section

variable (h : Lanes hash m lanes)
include h

theorem Lanes.matchKey_cases [DecidableEq κ] (hHolds : Holds lanes.reduceOption f) (key : κ) :
    (∃ i v, swissMatchKey m key (hash key) 0 = some i ∧ lanes[i]? = some (some (key, v)) ∧
      f key = some v) ∨ (swissMatchKey m key (hash key) 0 = none ∧ f key = none) := by
  cases hMatch : swissMatchKey m key (hash key) 0 with
  | some i =>
    obtain ⟨v, hLane⟩ := h.lane_of_matchKey hMatch
    exact Or.inl ⟨i, v, rfl, hLane, holds_lane hHolds hLane⟩
  | none =>
    refine Or.inr ⟨rfl, hHolds.eq_none_iff.mpr fun v hMem => ?_⟩
    obtain ⟨i, hLane⟩ := mem_iff_getElem?.mp (reduceOption_mem_iff.mp hMem)
    have hFound := h.matchKey_isSome hLane
    rw [hMatch] at hFound
    cases hFound

theorem Lanes.overwrite (hLane : lanes[i]? = some (some (key, v))) :
    Lanes hash { m with slots := m.slots.modify i fun e => { e with val := val } }
      (lanes.set i (some (key, val))) := by
  have hBytes : (lanes.set i (some (key, val))).map (laneByte hash) =
      lanes.map (laneByte hash) := by
    have hByte : (lanes.map (laneByte hash))[i]? = some (laneByte hash (some (key, val))) := by
      rw [getElem?_map, hLane]
      rfl
    obtain ⟨hi, hSame⟩ := List.getElem?_eq_some_iff.mp hByte
    rw [map_set, ← hSame, set_getElem_self]
  refine ⟨by rw [length_set, h.length], h.cap, h.ctrl.trans hBytes.symm, ?_, ?_, ?_,
    h.tombstones, h.growth⟩
  · rw [length_modify]
    exact h.slots
  · intro j k w hj
    rw [getElem?_modify]
    by_cases hSame : i = j
    · subst hSame
      rw [getElem?_set_self (h.length ▸ h.lt_of_lane hLane), Option.some.injEq,
        Option.some.injEq, Prod.mk.injEq] at hj
      obtain ⟨rfl, rfl⟩ := hj
      simp [h.slot i key v hLane]
    · rw [getElem?_set_ne hSame] at hj
      simp [hSame, h.slot j k w hj]
  · rw [reduceOption_set hLane]
    show m.size = _
    rw [h.size, reduceOption_split hLane]
    simp [List.reduceOption]

theorem Lanes.insertAt (hFree : lanes[i]? = some none) (hLoad : m.growthLeft ≠ 0) :
    Lanes hash (swissInsertAt hash m i key val) (lanes.set i (some (key, val))) := by
  have hEmpty : m.ctrl[i]? = some swissCtrlEmpty := by
    rw [h.ctrl, getElem?_map, hFree]
    rfl
  have hWas : (m.ctrl[i]? == some swissCtrlEmpty) = true := by rw [hEmpty, beq_self_eq_true]
  have hLength : (lanes.set i (some (key, val))).reduceOption.length =
      lanes.reduceOption.length + 1 := by
    rw [reduceOption_set hFree, reduceOption_split hFree]
    simp [List.reduceOption]
    omega
  have hGrowth := h.growth
  unfold swissInsertAt
  simp only [hWas, if_true]
  refine ⟨by rw [length_set, h.length], h.cap, ?_, ?_, ?_, ?_, h.tombstones, ?_⟩
  · show m.ctrl.set i (swissH2 (hash key)) = _
    rw [h.ctrl, map_set]
    rfl
  · show (m.slots.set i _).length = _
    rw [length_set, h.slots]
  · intro j k w hj
    show (m.slots.set i _)[j]? = _
    by_cases hSame : i = j
    · subst hSame
      rw [getElem?_set_self (h.length ▸ h.lt_of_lane hFree), Option.some.injEq,
        Option.some.injEq, Prod.mk.injEq] at hj
      obtain ⟨rfl, rfl⟩ := hj
      exact getElem?_set_self (h.slots ▸ h.lt_of_lane hFree)
    · rw [getElem?_set_ne hSame] at hj ⊢
      exact h.slot j k w hj
  · rw [hLength, ← h.size]
  · show m.growthLeft - 1 + (m.size + 1) = 14
    omega

theorem Lanes.removeAt (hLane : lanes[i]? = some (some (key, v))) :
    Lanes hash (swissRemoveAt m i) (lanes.set i none) := by
  have hGroup : i / swissGroupSize = 0 := Nat.div_eq_of_lt (h.lt_of_lane hLane)
  obtain ⟨b, hEmpty, _⟩ := h.head_matchEmpty
  have hSome : swissMatchEmpty (m.group 0) ≠ [] := fun hNil => by simp [hNil] at hEmpty
  have hLength : (lanes.set i none).reduceOption.length + 1 = lanes.reduceOption.length := by
    rw [reduceOption_set hLane, reduceOption_split hLane]
    simp [List.reduceOption]
    omega
  have hGrowth := h.growth
  have hSize := h.size
  unfold swissRemoveAt
  simp only [hGroup]
  rw [if_pos (show swissMatchEmpty (NuwanSwissMap.group { m with
    slots := m.slots.set i {}, size := m.size - 1 } 0) ≠ [] from hSome)]
  refine ⟨by rw [length_set, h.length], h.cap, ?_, ?_, ?_, ?_, h.tombstones, ?_⟩
  · show m.ctrl.set i swissCtrlEmpty = _
    rw [h.ctrl, map_set]
    rfl
  · show (m.slots.set i _).length = _
    rw [length_set, h.slots]
  · intro j k w hj
    have hOther : i ≠ j := by
      rintro rfl
      rw [getElem?_set_self (h.length ▸ h.lt_of_lane hLane)] at hj
      cases hj
    show (m.slots.set i _)[j]? = _
    rw [getElem?_set_ne hOther] at hj ⊢
    exact h.slot j k w hj
  · show m.size - 1 = _
    omega
  · show m.growthLeft + 1 + (m.size - 1) = 14
    omega

end

theorem le_swissNormaliseLoop (hint fuel cap : Nat) : cap ≤ swissNormaliseLoop hint fuel cap := by
  induction fuel generalizing cap with
  | zero => exact le_refl cap
  | succ fuel ih =>
    rw [swissNormaliseLoop]
    split
    · exact (Nat.le_mul_of_pos_right cap two_pos).trans (ih (cap * 2))
    · exact le_refl cap

theorem swissNormaliseCap_le_iff (need : Nat) :
    swissNormaliseCap (max need swissInitCap) ≤ swissInitCap ↔ need ≤ swissInitCap := by
  rw [swissNormaliseCap, swissNormaliseLoop]
  split
  · next hMore =>
      have hGrown := le_swissNormaliseLoop (max need swissInitCap) 63 (swissInitCap * 2)
      simp only [swissInitCap] at hMore hGrown ⊢
      omega
  · next hEnough =>
      omega

theorem swissRehash_eq_none (m : NuwanSwissMap κ) (newCap : Nat) :
    swissRehash m newCap = none := rfl

theorem swissRehashOrGrow_eq_none (m : NuwanSwissMap κ) : swissRehashOrGrow m = none := by
  simp [swissRehashOrGrow, swissRehash_eq_none]

/-- Fresh arrays of one group hold nothing. -/
theorem swissHolds_fresh (hCap : m.cap = swissInitCap)
    (hCtrl : m.ctrl = List.replicate swissInitCap swissCtrlEmpty)
    (hSlots : m.slots = List.replicate swissInitCap {}) (hSize : m.size = 0)
    (hTombstones : m.tombstones = 0) (hGrowth : m.growthLeft = 14) :
    SwissHolds hash m fun _ => none := by
  have hNone : (List.replicate swissInitCap (none : Option (κ × Word))).reduceOption = [] :=
    reduceOption_replicate_none
  refine ⟨List.replicate swissInitCap none, ?_, hNone ▸ Holds.empty⟩
  refine ⟨length_replicate, hCap, ?_, ?_, ?_, ?_, hTombstones, ?_⟩
  · rw [hCtrl, map_replicate]
    rfl
  · rw [hSlots]
    exact length_replicate
  · intro i k v hLane
    have hMem := eq_of_mem_replicate (mem_of_getElem? hLane)
    cases hMem
  · rw [hSize, hNone]
    rfl
  · rw [hGrowth, hSize]

section

variable (h : SwissHolds hash m f)
include h

theorem SwissHolds.probed (n : Nat) :
    SwissHolds hash { m with lastProbeLen := n } f := by
  obtain ⟨lanes, hLanes, hHolds⟩ := h
  exact ⟨lanes, hLanes.probed n, hHolds⟩

theorem SwissHolds.size_eq : m.size = keyCount f := by
  obtain ⟨lanes, hLanes, hHolds⟩ := h
  rw [hLanes.size, hHolds.keyCount_eq]

theorem SwissHolds.growthLeft_eq_zero_iff :
    m.growthLeft = 0 ↔ ¬keyCount f < 14 := by
  have hSize := h.size_eq
  obtain ⟨lanes, hLanes, hHolds⟩ := h
  have hGrowth := hLanes.growth
  omega

theorem SwissHolds.reserve (expectedSize : Word) :
    nuwanSwissReserve m expectedSize =
      if swissReserveNeed expectedSize ≤ swissInitCap then some m else none := by
  obtain ⟨lanes, hLanes, _⟩ := h
  have hFits := swissNormaliseCap_le_iff (swissReserveNeed expectedSize)
  simp only [nuwanSwissReserve, hLanes.cap, swissRehash_eq_none]
  by_cases hNeed : swissReserveNeed expectedSize ≤ swissInitCap
  · rw [if_pos hNeed, if_neg ((hFits.mpr hNeed).not_gt)]
  · rw [if_neg hNeed, if_pos (Nat.lt_of_not_le fun hLe => hNeed (hFits.mp hLe))]

theorem SwissHolds.clear :
    SwissHolds hash (nuwanSwissClear m) fun _ => none := by
  obtain ⟨lanes, hLanes, _⟩ := h
  have hCap := hLanes.cap
  apply swissHolds_fresh
  · exact hCap
  · exact congrArg (List.replicate · swissCtrlEmpty) hCap
  · exact congrArg (List.replicate · ({} : SwissEntry κ)) hCap
  · rfl
  · rfl
  · exact congrArg swissMaxLoad hCap

end

variable [DecidableEq κ]

theorem SwissHolds.put (h : SwissHolds hash m f) (hLoad : m.growthLeft ≠ 0) :
    ∃ d, nuwanSwissPut hash m key val = some (true, d) ∧
      SwissHolds hash d (update f key (some val)) := by
  obtain ⟨lanes, hLanes, hHolds⟩ := h
  obtain ⟨b, hFree, hProbe⟩ := hLanes.swissFindForInsert_eq key
  rw [nuwanSwissPut, if_neg hLoad, swissPutProbe]
  rcases hLanes.matchKey_cases hHolds key with ⟨i, v, hMatch, hLane, _⟩ | ⟨hMatch, hNew⟩
  · rw [hProbe, hMatch]
    refine ⟨_, rfl, lanes.set i (some (key, val)), (hLanes.probed 1).overwrite hLane, ?_⟩
    rw [reduceOption_split hLane] at hHolds
    rw [reduceOption_set hLane]
    exact hHolds.replace
  · rw [hProbe, hMatch]
    refine ⟨_, rfl, lanes.set b (some (key, val)), (hLanes.probed 1).insertAt hFree hLoad, ?_⟩
    rw [reduceOption_split hFree] at hHolds
    rw [reduceOption_set hFree]
    exact (hHolds.insert hNew).perm perm_middle.symm

theorem SwissHolds.getOpt (h : SwissHolds hash m f) (key : κ) :
    (nuwanSwissGetOpt hash m key).1 = f key ∧
      SwissHolds hash (nuwanSwissGetOpt hash m key).2 f := by
  have hProbed := h.probed 1
  obtain ⟨lanes, hLanes, hHolds⟩ := h
  rw [nuwanSwissGetOpt, hLanes.swissFind_eq]
  rcases hLanes.matchKey_cases hHolds key with ⟨i, v, hMatch, hLane,
    hValue⟩ | ⟨hMatch, hNone⟩
  · rw [hMatch, hValue]
    refine ⟨?_, hProbed⟩
    show (m.slots[i]?).map SwissEntry.val = some v
    rw [hLanes.slot i key v hLane]
    rfl
  · rw [hMatch, hNone]
    exact ⟨rfl, hProbed⟩

theorem SwissHolds.remove (h : SwissHolds hash m f) :
    (nuwanSwissRemove hash m key).1 = (f key).isSome ∧
      SwissHolds hash (nuwanSwissRemove hash m key).2 (update f key none) := by
  have hProbed := h.probed 1
  obtain ⟨lanes, hLanes, hHolds⟩ := h
  rw [nuwanSwissRemove, hLanes.swissFind_eq]
  rcases hLanes.matchKey_cases hHolds key with ⟨i, v, hMatch, hLane,
    hValue⟩ | ⟨hMatch, hNone⟩
  · rw [hMatch, hValue]
    refine ⟨rfl, lanes.set i none, (hLanes.probed 1).removeAt hLane, ?_⟩
    rw [reduceOption_split hLane] at hHolds
    rw [reduceOption_set hLane]
    exact hHolds.erase
  · rw [hMatch, hNone]
    refine ⟨rfl, ?_⟩
    rwa [← hNone, update_eq_self]

/-- Calls that need no rehashing answer as the partial function does. -/
theorem swissStep_refines :
    Refines (swissStep hash) mapAnswer (fun op _ f => SwissFits op f)
      (SwissHolds hash (κ := κ)) := by
  intro op m f h hFits
  cases op with
  | put key val =>
    have hLoad : m.growthLeft ≠ 0 := fun hZero => h.growthLeft_eq_zero_iff.mp hZero hFits
    obtain ⟨d, hPut, hHolds⟩ := h.put hLoad
    exact ⟨d, by rw [swissStep, hPut]; rfl, hHolds⟩
  | getOpt key => exact ⟨_, by rw [swissStep, (h.getOpt key).1]; rfl, (h.getOpt key).2⟩
  | has key =>
    refine ⟨(nuwanSwissGetOpt hash m key).2, ?_, (h.getOpt key).2⟩
    rw [mapAnswer, ← (h.getOpt key).1]
    rfl
  | remove key => exact ⟨_, by rw [swissStep, h.remove.1]; rfl, h.remove.2⟩
  | reserve expectedSize =>
    have hNeed : swissReserveNeed expectedSize ≤ swissInitCap := hFits
    exact ⟨m, by rw [swissStep, h.reserve, if_pos hNeed]; rfl, h⟩
  | clear => exact ⟨_, rfl, h.clear⟩
  | size => exact ⟨m, by rw [swissStep, h.size_eq]; rfl, h⟩

theorem swissStep_eq_none (op : SwissOp κ) (m : NuwanSwissMap κ) (f : κ → Option Word)
    (h : SwissHolds hash m f) (hFits : ¬SwissFits op f) : swissStep hash op m = none := by
  cases op with
  | put key val =>
    rw [swissStep, nuwanSwissPut, if_pos (h.growthLeft_eq_zero_iff.mpr hFits),
      swissRehashOrGrow_eq_none]
    rfl
  | reserve expectedSize =>
    have hNeed : ¬swissReserveNeed expectedSize ≤ swissInitCap := hFits
    rw [swissStep, h.reserve, if_neg hNeed]
    rfl
  | getOpt | has | remove | clear | size => exact absurd trivial hFits

end

/-- How a map is made. -/
inductive SwissStart where
  | fresh
  | reserved (expectedSize : Word)

def swissStart {κ : Type*} : SwissStart → Option (NuwanSwissMap κ)
  | .fresh => nuwanSwissNew
  | .reserved expectedSize => nuwanSwissNewReserved expectedSize

def StartFits : SwissStart → Prop
  | .fresh => True
  | .reserved expectedSize => swissReserveNeed expectedSize ≤ swissInitCap

theorem swissHolds_new {κ : Type*} (hash : κ → Word) :
    ∃ m, nuwanSwissNew = some m ∧ SwissHolds hash m fun _ => none :=
  ⟨_, rfl, swissHolds_fresh rfl rfl rfl rfl rfl rfl⟩

/-- A map answers a sequence of calls as a partial function does, whatever
the hash function, exactly when it is never asked for more than its one group:
no put finds fourteen keys, and no reservation needs more than sixteen slots. -/
theorem nuwanSwiss_answers_iff {κ : Type*} [DecidableEq κ]
    (hash : κ → Word) (start : SwissStart) (ops : List (SwissOp κ)) :
    (∃ d, (swissStart start).bind (answers (swissStep hash) ops) =
      some ((specAnswers mapAnswer ops fun _ => none).1, d)) ↔
    StartFits start ∧ Allowed mapAnswer SwissFits ops fun _ => none := by
  obtain ⟨m, hNew, hHolds⟩ := swissHolds_new hash
  have hRuns := swissStep_refines.answers_iff swissStep_eq_none hHolds ops
  cases start with
  | fresh =>
    rw [swissStart, hNew, Option.bind_some, hRuns]
    simp [StartFits]
  | reserved expectedSize =>
    have hStart : swissStart (.reserved expectedSize) = nuwanSwissReserve m expectedSize := by
      rw [swissStart, nuwanSwissNewReserved, hNew]
      rfl
    rw [hStart, hHolds.reserve]
    by_cases hNeed : swissReserveNeed expectedSize ≤ swissInitCap
    · rw [if_pos hNeed, Option.bind_some, hRuns]
      exact ⟨fun h => ⟨hNeed, h⟩, fun h => h.2⟩
    · rw [if_neg hNeed]
      constructor
      · rintro ⟨d, hRun⟩
        cases hRun
      · exact fun h => absurd h.1 hNeed

/-- The fifteenth key is never stored: the put that must grow the table
does not complete. -/
theorem swiss_growth_fails : ¬∃ d : NuwanSwissMap Nat,
    (swissStart .fresh).bind (answers (swissStep (BitVec.ofNat 64))
      ((List.range 15).map fun k => .put k 1)) =
    some ((specAnswers mapAnswer ((List.range 15).map fun k => .put k 1) fun _ => none).1, d) := by
  rintro ⟨d, hRun⟩
  have hNone : ((swissStart .fresh).bind (answers (swissStep (BitVec.ofNat 64))
      ((List.range 15).map fun k => .put k 1))).isNone = true := by decide +kernel
  rw [hRun] at hNone
  cases hNone

end Casprix.Collections
