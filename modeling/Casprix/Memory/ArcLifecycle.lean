import Casprix.Memory.ArcCounts

/-! Every sequence of calls in which references are released only by their
holders keeps the counters right, so that each object is destroyed and freed
once, and at the right moment. -/
namespace Casprix.Memory

open List

/-- A call that goes on leaves the counters right. The only errors are those of
a full counter and of a call on a dead object. -/
def Sound : Except Fault ArcState → Prop
  | .ok s => Counted s
  | .error fault => fault = .countOverflow ∨ fault = .deadObject

namespace ArcState

/-- The objects whose destruction has not begun. -/
def unbegun (s : ArcState) : Finset Obj :=
  (Finset.range s.next).filter fun o => (s.heap o).deallocating = false

/-- The steps the destruction of an object takes, without those of others. -/
def toDestroy (s : ArcState) (o : Obj) : Nat := ((s.heap o).destructor.getD []).length + 1

/-- The steps until nothing is under destruction, were every object to die. -/
def work (s : ArcState) : Nat :=
  (s.stack.map fun frame => frame.todo.length + 1).sum + ∑ o ∈ s.unbegun, s.toDestroy o

end ArcState

theorem SameLives.work_eq {s t : ArcState} (h : SameLives s t) (hStack : t.stack = s.stack) :
    t.work = s.work := by
  have hObjs : t.unbegun = s.unbegun := by
    simp only [ArcState.unbegun, h.next, h.deallocating]
  rw [ArcState.work, ArcState.work, hStack, hObjs]
  refine congrArg _ (Finset.sum_congr rfl fun q _ => ?_)
  rw [ArcState.toDestroy, ArcState.toDestroy, h.destructor]

theorem Finishes.work_eq {s t : ArcState} {o : Obj} (h : Finishes s t o) : t.work + 1 = s.work := by
  have hHeap : ∀ q, (t.heap q).deallocating = (s.heap q).deallocating ∧
      (t.heap q).destructor = (s.heap q).destructor := fun q => by
    by_cases hq : q = o
    · rw [hq, h.self]
      exact ⟨rfl, rfl⟩
    · rw [h.other q hq]
      exact ⟨rfl, rfl⟩
  have hObjs : t.unbegun = s.unbegun := by
    simp only [ArcState.unbegun, h.next, fun q => (hHeap q).1]
  have hSum : ∑ q ∈ t.unbegun, t.toDestroy q = ∑ q ∈ s.unbegun, s.toDestroy q := by
    rw [hObjs]
    refine Finset.sum_congr rfl fun q _ => ?_
    rw [ArcState.toDestroy, ArcState.toDestroy, (hHeap q).2]
  rw [ArcState.work, ArcState.work, h.stack, hSum, map_cons, sum_cons, length_nil]
  omega

variable {stats : ArcStats} {source target : Holder} {call : ArcCall}

namespace Counted

variable {s t : ArcState} {o : Obj} {ref : Ref}

section

variable (h : Counted s)
include h

theorem work_startsDeath (hRef : ref ∈ s.strongRefs) (hDeath : StartsDeath s t ref) :
    t.work = s.work := by
  have hAlive := h.not_deallocating (holds_pos hRef)
  have hMem : ref.target ∈ s.unbegun := by
    rw [ArcState.unbegun, Finset.mem_filter, Finset.mem_range]
    exact ⟨h.strongFresh ref hRef, hAlive⟩
  have hObjs : t.unbegun = s.unbegun.erase ref.target := by
    ext q
    rw [Finset.mem_erase, ArcState.unbegun, ArcState.unbegun, Finset.mem_filter, Finset.mem_filter,
      hDeath.next]
    by_cases hq : q = ref.target
    · rw [hq, hDeath.self]
      simp
    · rw [hDeath.other q hq]
      simp [hq]
  have hDestructor : ∀ q, t.toDestroy q = s.toDestroy q := fun q => by
    rw [ArcState.toDestroy, ArcState.toDestroy]
    by_cases hq : q = ref.target
    · rw [hq, hDeath.self]
    · rw [hDeath.other q hq]
  have hSum := Finset.add_sum_erase s.unbegun s.toDestroy hMem
  rw [ArcState.work, ArcState.work, hDeath.stack, map_cons, sum_cons, hObjs,
    Finset.sum_congr rfl fun q _ => hDestructor q, ← hSum, ArcState.toDestroy,
      add_left_comm, add_assoc]

theorem inHand_lt_next (hHand : s.inHand o) : o < s.next := by
  rcases hHand with ⟨ref, hRef, rfl⟩ | ⟨ref, hRef, rfl⟩
  · exact h.strongFresh ref hRef
  · exact h.weakFresh ref hRef

theorem not_isFreed_of_inHand (hHand : s.inHand o) : s.isFreed o = false := by
  rcases hHand with ⟨ref, hRef, rfl⟩ | ⟨ref, hRef, rfl⟩
  · exact h.not_isFreed_of_live (h.live_of_strong (holds_pos hRef))
  · exact h.not_isFreed_of_weak (holds_pos hRef)

section

variable (ref : Ref) (hHeld : 0 < holds s.strongRefs ref.target)
  (hObjects : stats.currentObjects = s.stats.currentObjects)
  (hBytes : stats.currentBytes = s.stats.currentBytes)
include hHeld hObjects hBytes

theorem retained :
    Counted { s.setHeader ref.target { s.heap ref.target with
        strongCount := (s.heap ref.target).strongCount + 1 } with
      strongRefs := ref :: s.strongRefs, stats := stats } := by
  refine h.of_sameLives (sameLives_setHeader rfl rfl rfl rfl hObjects hBytes)
    (fun q => ?_) (fun q => ?_)
    (fun r hr => ?_) h.weakFresh (fun q => ?_) h.frees
  · have hOld := h.strong q
    have hNew := holds_cons s.strongRefs ref q
    by_cases hq : q = ref.target
    · subst hq
      simp only [ArcState.setHeader_heap, if_true] at hNew ⊢
      omega
    · simp only [ArcState.setHeader_heap, hq, if_false] at hNew ⊢
      omega
  · refine Eq.trans ?_ (h.weak q)
    by_cases hq : q = ref.target <;> simp [hq]
  · rcases mem_cons.mp hr with rfl | hOld
    · exact h.lt_next_of_strong hHeld
    · exact h.strongFresh r hOld
  · have hNew := holds_cons s.strongRefs ref q
    show holds (ref :: s.strongRefs) q = 0 ↔ _
    by_cases hq : q = ref.target
    · subst hq
      rw [if_pos rfl] at hNew
      omega
    · rw [if_neg hq] at hNew
      omega

theorem weakCreated :
    Counted { s.setHeader ref.target { s.heap ref.target with
        weakCount := (s.heap ref.target).weakCount + 1 } with
      weakRefs := ref :: s.weakRefs, stats := stats } := by
  refine h.of_sameLives (sameLives_setHeader rfl rfl rfl rfl hObjects hBytes)
    (fun q => ?_) (fun q => ?_)
    h.strongFresh (fun r hr => ?_) (fun q => Iff.rfl) (fun q => ?_)
  · refine Eq.trans ?_ (h.strong q)
    by_cases hq : q = ref.target <;> simp [hq]
  · have hOld := h.weak q
    have hNew := holds_cons s.weakRefs ref q
    by_cases hq : q = ref.target
    · subst hq
      simp only [ArcState.setHeader_heap, if_true] at hNew ⊢
      omega
    · simp only [ArcState.setHeader_heap, hq, if_false] at hNew ⊢
      omega
  · rcases mem_cons.mp hr with rfl | hOld
    · exact h.lt_next_of_strong hHeld
    · exact h.weakFresh r hOld
  · show s.frees q = if q < s.next ∧ ¬ s.live q ∧ holds
      (ref :: s.weakRefs) q = 0 then 1 else 0
    rw [h.frees q, holds_cons]
    by_cases hq : q = ref.target
    · subst hq
      have hLive := h.live_of_strong hHeld
      rw [if_neg (fun hGone => hGone.2.1 hLive), if_neg (fun hGone => hGone.2.1 hLive)]
    · rw [if_neg hq, add_zero]

end

end

theorem arcTryIncCount_of_nonneg {count : Int} (h : 0 ≤ count) :
    arcTryIncCount count = if count = int32Max then .error .countOverflow else .ok (count + 1) := by
  rw [arcTryIncCount, if_neg (by omega)]

section

variable (h : Counted s)
include h

theorem retain_sound (hHand : s.inHand o) :
    Sound ((arcRetain s o).map fun t => t.holdStrong ⟨.caller, o⟩) := by
  rw [arcRetain, if_neg (by simp [h.not_isFreed_of_inHand hHand])]
  by_cases hDead : arcHeaderIsFinalized (s.heap o) = true
  · rw [if_pos hDead]
    exact .inr rfl
  · have hHeld : 0 < holds s.strongRefs o :=
      Nat.pos_of_ne_zero fun hNone => hDead ((h.isFinalized_iff (h.inHand_lt_next hHand)).mpr hNone)
    rw [if_neg hDead, if_neg (by simp [h.unmoved]), arcTryIncCount_of_nonneg (h.strong_nonneg o)]
    by_cases hFull : (s.heap o).strongCount = int32Max
    · rw [if_pos hFull]
      exact .inl rfl
    · rw [if_neg hFull]
      exact h.retained ⟨.caller, o⟩ hHeld rfl rfl

theorem weakCreate_sound (hHand : s.inHand o) :
    Sound ((arcWeakCreate s o).map fun t => t.holdWeak ⟨.caller, o⟩) := by
  rw [arcWeakCreate, if_neg (by simp [h.not_isFreed_of_inHand hHand])]
  by_cases hDead : (arcHeaderIsFinalized (s.heap o) || decide ((s.heap o).strongCount ≤ 0)) = true
  · rw [if_pos hDead]
    exact .inr rfl
  · have hHeld : 0 < holds s.strongRefs o := by
      refine Nat.pos_of_ne_zero fun hNone => hDead ?_
      rw [(h.isFinalized_iff (h.inHand_lt_next hHand)).mpr hNone, Bool.true_or]
    have hWeak : 0 ≤ (s.heap o).weakCount := by
      rw [h.weak]
      split <;> omega
    rw [if_neg hDead, arcTryIncCount_of_nonneg hWeak]
    by_cases hFull : (s.heap o).weakCount = int32Max
    · rw [if_pos hFull]
      exact .inl rfl
    · rw [if_neg hFull]
      exact h.weakCreated ⟨.caller, o⟩ hHeld rfl rfl

theorem of_stats (hObjects : stats.currentObjects = s.stats.currentObjects)
    (hBytes : stats.currentBytes = s.stats.currentBytes) : Counted { s with stats := stats } where
  __ := h
  objects := hObjects.trans h.objects
  bytes := hBytes.trans h.bytes

theorem arcWeakUpgrade_eq (hHandle : 0 < holds s.weakRefs o) :
    (holds s.strongRefs o = 0 ∧ ∃ t, arcWeakUpgrade s o = .ok (none, t) ∧ Counted t) ∨
    ((s.heap o).strongCount = int32Max ∧ arcWeakUpgrade s o = .error .countOverflow) ∨
    (0 < holds s.strongRefs o ∧ ∃ t, arcWeakUpgrade s o = .ok (some o, t) ∧
      Counted (t.holdStrong ⟨.caller, o⟩)) := by
  have hCount := h.strong o
  have hFinal := h.isFinalized_iff (h.lt_next_of_weak hHandle)
  rw [arcWeakUpgrade, if_neg (by simp [h.not_isFreed_of_weak hHandle])]
  by_cases hNone : holds s.strongRefs o = 0
  · rw [if_pos (.inl (by omega))]
    exact .inl ⟨hNone, _, rfl, h.of_stats rfl rfl⟩
  · rw [if_neg (fun hOr => hNone (hOr.elim (fun hLow => by omega) hFinal.mp))]
    by_cases hFull : (s.heap o).strongCount = int32Max
    · rw [if_pos hFull]
      exact .inr (.inl ⟨hFull, rfl⟩)
    · rw [if_neg hFull]
      exact .inr (.inr ⟨Nat.pos_of_ne_zero hNone, _, rfl,
        h.retained ⟨.caller, o⟩ (Nat.pos_of_ne_zero hNone) rfl rfl⟩)

theorem weakUpgrade_sound (hHandle : 0 < holds s.weakRefs o) :
    Sound ((arcWeakUpgrade s o).map fun result =>
      if result.1.isSome then result.2.holdStrong ⟨.caller, o⟩ else result.2) := by
  rcases h.arcWeakUpgrade_eq hHandle with ⟨-, t, hEq, hCounted⟩ |
    ⟨-, hEq⟩ | ⟨-, t, hEq, hCounted⟩
  · rw [hEq]
    exact hCounted
  · rw [hEq]
    exact .inl rfl
  · rw [hEq]
    exact hCounted

theorem holds_next :
    holds s.strongRefs s.next = 0 ∧ holds s.weakRefs s.next = 0 := by
  constructor
  · by_contra hHeld
    exact Nat.lt_irrefl _ (h.lt_next_of_strong (Nat.pos_of_ne_zero hHeld))
  · by_contra hHeld
    exact Nat.lt_irrefl _ (h.lt_next_of_weak (Nat.pos_of_ne_zero hHeld))

theorem allocated {size : Nat} {destructor : Option (List DestructorOp)}
    {scanner malloced : Bool} (hAlloc : arcAllocFull s size destructor scanner
      malloced = some (o, t)) :
    Counted (t.holdStrong ⟨.caller, o⟩) := by
  rw [arcAllocFull] at hAlloc
  split at hAlloc
  · exact absurd hAlloc (Option.some_ne_none _).symm
  cases hAlloc
  set t : ArcState := ArcState.holdStrong _ ⟨.caller, s.next⟩ with ht
  obtain ⟨hNoStrong, hNoWeak⟩ := h.holds_next
  have hFlag : (s.heap s.next).deallocating = false := by
    rw [← Bool.not_eq_true, h.deallocating]
    exact fun hBoth => lt_irrefl _ hBoth.1
  have hOther : ∀ q, q ≠ s.next → t.heap q = s.heap q := fun q hq => by
    rw [ht]
    simp [ArcState.holdStrong, hq]
  have hSelf : (t.heap s.next).deallocating = false ∧ (t.heap s.next).strongCount = 1 ∧
      (t.heap s.next).weakCount = 1 ∧ (t.heap s.next).moved = false ∧
        (t.heap s.next).size = size := by
    rw [ht]
    simp [ArcState.holdStrong]
  have hPending : ∀ q, t.pending q ↔ s.pending q := fun q => Iff.rfl
  have hNew : t.live s.next := ⟨Nat.lt_add_one _, fun hDead => by simp [hSelf.1] at hDead⟩
  have hSame : ∀ q, q ≠ s.next → (t.live q ↔ s.live q) := fun q hq => by
    rw [ArcState.live, ArcState.live, hOther q hq, hPending]
    refine and_congr_left fun _ => ?_
    exact Nat.lt_succ_iff_lt_or_eq.trans (or_iff_left hq)
  have hHolds : ∀ q, holds t.strongRefs q = holds s.strongRefs q + if q = s.next then 1 else 0 :=
    fun q => holds_cons _ _ q
  have hOld : ¬ s.live s.next := fun hLive => lt_irrefl _ hLive.1
  have hObjs : t.liveObjects = insert s.next s.liveObjects := by
    ext q
    rw [Finset.mem_insert, ArcState.mem_liveObjects, ArcState.mem_liveObjects]
    by_cases hq : q = s.next
    · subst hq
      simp [hNew]
    · rw [hSame q hq, or_iff_right hq]
  have hFresh : s.next ∉ s.liveObjects := fun hMem => hOld (ArcState.mem_liveObjects.mp hMem)
  exact {
    strong := fun q => by
      rw [hHolds]
      by_cases hq : q = s.next
      · rw [hq, hSelf.2.1, hNoStrong, if_pos rfl]
        rfl
      · rw [hOther q hq, if_neg hq, add_zero, h.strong]
    weak := fun q => by
      by_cases hq : q = s.next
      · subst hq
        rw [hSelf.2.2.1, if_pos hNew]
        show (1 : Int) = (holds s.weakRefs s.next : Nat) + 1
        omega
      · rw [hOther q hq]
        simp only [hSame q hq]
        exact h.weak q
    strongFresh := fun r hr => by
      rcases mem_cons.mp hr with rfl | hIn
      · exact Nat.lt_add_one _
      · exact Nat.lt_succ_of_lt (h.strongFresh r hIn)
    weakFresh := fun r hr => Nat.lt_succ_of_lt (h.weakFresh r hr)
    deallocating := fun q => by
      rw [hHolds]
      show _ ↔ q < s.next + 1 ∧ _
      by_cases hq : q = s.next
      · rw [hq, hSelf.1, if_pos rfl]
        exact iff_of_false Bool.false_ne_true fun hBoth => Nat.succ_ne_zero _ hBoth.2
      · rw [hOther q hq, h.deallocating, if_neg hq, Nat.add_zero]
        exact and_congr_left fun _ => (Nat.lt_succ_iff_lt_or_eq.trans (or_iff_left hq)).symm
    pending := fun q hq => by
      have hAllocated := (h.live_of_pending hq).1
      rw [hOther q hAllocated.ne]
      exact h.pending q hq
    nodup := h.nodup
    unmoved := fun q => by
      by_cases hq : q = s.next
      · rw [hq, hSelf.2.2.2.1]
      · rw [hOther q hq, h.unmoved]
    runs := fun q => by
      refine (h.runs q).trans ?_
      by_cases hq : q = s.next
      · rw [hq, hFlag, hSelf.1, if_neg (fun hBoth => Bool.false_ne_true hBoth.1),
          if_neg (fun hBoth => Bool.false_ne_true hBoth.1)]
      · rw [hOther q hq]
    frees := fun q => by
      refine (h.frees q).trans (if_congr ?_ rfl rfl)
      show _ ↔ q < s.next + 1 ∧ ¬ t.live q ∧ holds s.weakRefs q = 0
      by_cases hq : q = s.next
      · subst hq
        exact iff_of_false (fun hBoth => lt_irrefl _ hBoth.1) fun hBoth => hBoth.2.1 hNew
      · rw [hSame q hq]
        exact and_congr_left fun _ => (Nat.lt_succ_iff_lt_or_eq.trans (or_iff_left hq)).symm
    objects := by
      rw [hObjs, Finset.card_insert_of_notMem hFresh, ← h.objects]
      rfl
    bytes := by
      rw [hObjs, Finset.sum_insert hFresh, hSelf.2.2.2.2, add_comm,
        Finset.sum_congr rfl fun q hq => congrArg ArcHeader.size
          (hOther q fun hSelf => hFresh (hSelf ▸ hq)), ← h.bytes]
      rfl }

end

theorem holds_move {refs : List Ref} (h : ⟨source, o⟩ ∈ refs) (q : Obj) :
    holds (⟨target, o⟩ :: refs.erase ⟨source, o⟩) q = holds refs q := by
  rw [holds_cons, holds_erase h]

theorem strongMoved (h : Counted s) (hRef : ⟨source, o⟩ ∈ s.strongRefs) :
    Counted ((s.dropStrong ⟨source, o⟩).holdStrong ⟨target, o⟩) := by
  have hHolds : ∀ q, holds (⟨target, o⟩ :: s.strongRefs.erase ⟨source, o⟩) q =
      holds s.strongRefs q :=
    holds_move hRef
  refine h.of_sameLives
    ⟨rfl, rfl, fun _ => rfl, fun _ => rfl, fun _ => rfl, fun _ => rfl, rfl, rfl, rfl⟩
    (fun q => ?_) h.weak (fun r hr => ?_) h.weakFresh (fun q => ?_) h.frees
  · exact (h.strong q).trans (congrArg _ (hHolds q).symm)
  · rcases mem_cons.mp hr with rfl | hIn
    · exact h.strongFresh ⟨source, o⟩ hRef
    · exact h.strongFresh r (mem_of_mem_erase hIn)
  · exact Eq.congr_left (hHolds q)

theorem weakMoved (h : Counted s) (hRef : ⟨source, o⟩ ∈ s.weakRefs) :
    Counted ((s.dropWeak ⟨source, o⟩).holdWeak ⟨target, o⟩) := by
  have hHolds : ∀ q, holds (⟨target, o⟩ :: s.weakRefs.erase ⟨source, o⟩) q =
      holds s.weakRefs q :=
    holds_move hRef
  refine h.of_sameLives
    ⟨rfl, rfl, fun _ => rfl, fun _ => rfl, fun _ => rfl, fun _ => rfl, rfl, rfl, rfl⟩
    h.strong (fun q => ?_) h.strongFresh (fun r hr => ?_) (fun q => Iff.rfl) (fun q => ?_)
  · exact (h.weak q).trans (congrArg (fun n : Nat => (n : Int) + _) (hHolds q).symm)
  · rcases mem_cons.mp hr with rfl | hIn
    · exact h.weakFresh ⟨source, o⟩ hRef
    · exact h.weakFresh r (mem_of_mem_erase hIn)
  · refine (h.frees q).trans (if_congr ?_ rfl rfl)
    exact and_congr_right fun _ => and_congr_right fun _ => Eq.congr_left (hHolds q).symm

theorem of_todo (h : Counted s) {todo : List DestructorOp} (todo' : List DestructorOp)
    {rest : List Finalization} (hStack : s.stack = ⟨o, todo⟩ :: rest) :
    Counted { s with stack := ⟨o, todo'⟩ :: rest } := by
  have hMap : (⟨o, todo'⟩ :: rest).map Finalization.obj = s.stack.map Finalization.obj := by
    rw [hStack, map_cons, map_cons]
  have hSame : SameLives s { s with stack := ⟨o, todo'⟩ :: rest } :=
    ⟨rfl, hMap, fun _ => rfl, fun _ => rfl, fun _ => rfl, fun _ => rfl, rfl, rfl, rfl⟩
  exact h.of_sameLives hSame h.strong h.weak h.strongFresh h.weakFresh (fun q => Iff.rfl) h.frees

theorem releaseSelf (h : Counted s) (hPending : s.pending o) :
    ∃ t, Memory.arcRelease s o = .ok t ∧ Counted t ∧ t.work = s.work := by
  have hDead := h.pending o hPending
  have hNone := ((h.deallocating o).mp hDead).2
  have hCount := h.strong o
  have hFreed : ArcState.isFreed { s with
      stats := { s.stats with totalReleases := s.stats.totalReleases + 1 } } o = false :=
    h.not_isFreed_of_live (h.live_of_pending hPending)
  have hFinal := (h.isFinalized_iff (h.live_of_pending hPending).1).mpr hNone
  rw [Memory.arcRelease, arcReleaseImpl, if_neg (by simp [hFreed]), if_pos (by
    show (s.heap o).strongCount ≤ 0
    omega), if_pos hFinal]
  exact ⟨_, rfl, h.of_stats rfl rfl, rfl⟩

theorem runDestructorOp (h : Counted s) (hPending : s.pending o) (op : DestructorOp) :
    ∃ t, runDestructorOp s o op = .ok t ∧ Counted t ∧ t.work = s.work := by
  cases op with
  | releaseField index =>
    rw [Memory.runDestructorOp]
    cases hField : s.strongRefs.find? fun ref => ref.holder == .field o index with
    | none => exact ⟨s, rfl, h, rfl⟩
    | some ref =>
      have hRef := mem_of_find?_eq_some hField
      obtain ⟨t, hRun, hCounted, hDeath | ⟨hSame, hStack⟩⟩ := h.arcRelease hRef
      · exact ⟨t, hRun, hCounted, h.work_startsDeath hRef hDeath⟩
      · exact ⟨t, hRun, hCounted, hSame.work_eq hStack⟩
  | releaseWeakField index =>
    rw [Memory.runDestructorOp]
    cases hField : s.weakRefs.find? fun ref => ref.holder == .field o index with
    | none => exact ⟨s, rfl, h, rfl⟩
    | some ref =>
      obtain ⟨t, hRun, hCounted, hSame, hStack⟩ :=
        h.arcWeakRelease (mem_of_find?_eq_some hField)
      exact ⟨t, hRun, hCounted, hSame.work_eq hStack⟩
  | releaseSelf => exact h.releaseSelf hPending

theorem proceed (h : Counted s) (hBusy : s.stack ≠ []) :
    ∃ t, proceed s = .ok t ∧ Counted t ∧ t.work + 1 = s.work := by
  rw [Memory.proceed]
  cases hStack : s.stack with
  | nil => exact absurd hStack hBusy
  | cons top rest =>
    obtain ⟨o, todo⟩ := top
    have hPending : s.pending o := by
      rw [ArcState.pending, hStack]
      exact mem_cons_self
    cases todo with
    | nil =>
      have hWeak := h.weak o
      rw [if_pos (h.live_of_pending hPending)] at hWeak
      obtain ⟨t, hRun, hEnd⟩ := arcFinishFinalization_finishes hStack
        (h.not_isFreed_of_live (h.live_of_pending hPending)) (by omega)
      exact ⟨t, hRun, h.finishes hEnd, hEnd.work_eq⟩
    | cons op todo =>
      obtain ⟨t, hRun, hCounted, hWork⟩ := (h.of_todo todo hStack).runDestructorOp
        (o := o) mem_cons_self op
      refine ⟨t, hRun, hCounted, ?_⟩
      rw [hWork, ArcState.work, ArcState.work, hStack]
      simp only [map_cons, sum_cons, length_cons]
      show _ + ∑ q ∈ s.unbegun, s.toDestroy q + 1 = _
      omega

end Counted

theorem perform_sound {s : ArcState} (h : Counted s) (hAllowed : call.allowed s) :
    Sound (call.perform s) := by
  cases call with
  | allocFull size destructor scanner malloced =>
    rw [ArcCall.perform]
    cases hAlloc : arcAllocFull s size destructor scanner malloced with
    | none => exact h
    | some result => exact h.allocated hAlloc
  | retain o => exact h.retain_sound hAllowed.2
  | release o =>
    obtain ⟨t, hRun, hCounted, -⟩ := h.arcRelease hAllowed.2
    rw [ArcCall.perform, hRun]
    exact hCounted
  | weakCreate o => exact h.weakCreate_sound hAllowed.2
  | weakUpgrade o => exact h.weakUpgrade_sound (exists_ref_iff.mp hAllowed.2)
  | weakRelease o =>
    obtain ⟨t, hRun, hCounted, -⟩ := h.arcWeakRelease hAllowed.2
    rw [ArcCall.perform, hRun]
    exact hCounted
  | moveStrong source target o => exact h.strongMoved hAllowed.2.2.2.1
  | moveWeak source target o => exact h.weakMoved hAllowed.2.2.2.1
  | proceed =>
    obtain ⟨t, hRun, hCounted, -⟩ := h.proceed hAllowed
    rw [ArcCall.perform, hRun]
    exact hCounted

theorem arcStep_eq_some {result result' : Except Fault ArcState} :
    arcStep call result = some result' ↔
      ∃ s, result = .ok s ∧ call.allowed s ∧ result' = call.perform s := by
  cases result with
  | error fault => simp [arcStep]
  | ok s =>
    by_cases hAllowed : call.allowed s
    · simp [arcStep, hAllowed, eq_comm]
    · simp [arcStep, hAllowed]

theorem sound_of_run {calls : List ArcCall} {result result' : Except Fault ArcState}
    (hStart : Sound result) (hRun : Library.runCalls arcStep calls result = some result') :
    Sound result' := by
  refine Library.runCalls_invariant (fun call c d hSound _ hStep => ?_) hStart
    (Library.callsMeet_of_forall (fun _ _ => trivial) calls result) hRun
  obtain ⟨s, rfl, hAllowed, rfl⟩ := arcStep_eq_some.mp hStep
  exact perform_sound hSound hAllowed

theorem exists_settled {s : ArcState} (h : Counted s) : ∃ n t,
    Library.runCalls arcStep (List.replicate n .proceed) (.ok s) =
      some (.ok t) ∧ t.stack = [] := by
  induction hWork : s.work generalizing s with
  | zero =>
    refine ⟨0, s, rfl, ?_⟩
    by_contra hBusy
    obtain ⟨t, -, -, hLess⟩ := h.proceed hBusy
    omega
  | succ n ih =>
    by_cases hIdle : s.stack = []
    · exact ⟨0, s, rfl, hIdle⟩
    · obtain ⟨t, hRun, hCounted, hLess⟩ := h.proceed hIdle
      obtain ⟨m, u, hRest, hEnd⟩ := ih hCounted (by omega)
      refine ⟨m + 1, u, ?_, hEnd⟩
      have hStep : arcStep .proceed (.ok s) = some (.ok t) :=
        arcStep_eq_some.mpr ⟨s, rfl, hIdle, hRun.symm⟩
      rw [replicate_succ, Library.runCalls, hStep]
      exact hRest

/-- What the calls of the interface leave to the code around them. -/
structure Keeps (s t : ArcState) : Prop where
  next : t.next = s.next
  strongRefs : t.strongRefs = s.strongRefs
  destructor : ∀ o, (t.heap o).destructor = (s.heap o).destructor
  deallocating : ∀ o, (s.heap o).deallocating = true → (t.heap o).deallocating = true

namespace Keeps

variable {s t u : ArcState} {o : Obj}

theorem refl (s : ArcState) : Keeps s s := ⟨rfl, rfl, fun _ => rfl, fun _ => id⟩

theorem trans (h : Keeps s t) (h' : Keeps t u) : Keeps s u :=
  ⟨h'.next.trans h.next, h'.strongRefs.trans h.strongRefs, fun o =>
    (h'.destructor o).trans (h.destructor o),
    fun o hDead => h'.deallocating o (h.deallocating o hDead)⟩

theorem setHeader {header : ArcHeader} {weakRefs : List Ref} {frees : Obj → Nat}
    (h : header.destructor = (s.heap o).destructor)
    (hDead : (s.heap o).deallocating = true → header.deallocating = true) :
    Keeps s { s.setHeader o header with weakRefs := weakRefs, stats := stats, frees := frees } where
  next := rfl
  strongRefs := rfl
  destructor := fun q => by by_cases hq : q = o <;> simp [hq, h]
  deallocating := fun q => by
    by_cases hq : q = o
    · simpa [hq] using hDead
    · simp [hq]

theorem arcStartDeallocation (s : ArcState) (o : Obj) : Keeps s (arcStartDeallocation s o) := by
  rw [Memory.arcStartDeallocation]
  split
  · exact refl s
  · have hFlag : Keeps s (s.setHeader o { s.heap o with deallocating := true }) :=
      setHeader rfl fun _ => rfl
    refine hFlag.trans ?_
    rw [arcStartFinalization]
    split <;> exact ⟨rfl, rfl, fun _ => rfl, fun _ => id⟩

theorem arcRelease (h : arcRelease s o = .ok t) : Keeps s t := by
  rw [Memory.arcRelease, arcReleaseImpl] at h
  split at h
  · cases h
  split at h
  · split at h <;> cases h
    exact ⟨rfl, rfl, fun _ => rfl, fun _ => id⟩
  · cases h
    set counted : ArcState := { s with
      stats := { s.stats with totalReleases := s.stats.totalReleases + 1 } }
    have hCounted : Keeps s counted := ⟨rfl, rfl, fun _ => rfl, fun _ => id⟩
    have hReleased : Keeps counted (counted.setHeader o { counted.heap o with
      strongCount := (counted.heap o).strongCount - 1 }) := setHeader rfl id
    split
    · exact (hCounted.trans hReleased).trans (arcStartDeallocation _ o)
    · exact hCounted.trans hReleased

theorem arcWeakRelease (h : arcWeakRelease s o = .ok t) : Keeps s t := by
  rw [Memory.arcWeakRelease] at h
  split at h
  · cases h
  split at h
  · cases h
  · cases h
    split <;> exact setHeader rfl id

theorem arcFinishFinalization (h : arcFinishFinalization s o = .ok t) : Keeps s t := by
  rw [Memory.arcFinishFinalization] at h
  split at h
  · cases h
  split at h
  · cases h
  · cases h
    split <;> exact setHeader rfl id

theorem arcRetain (h : arcRetain s o = .ok t) : Keeps s t := by
  rw [Memory.arcRetain] at h
  split at h
  · cases h
  split at h
  · cases h
  split at h
  · cases h
  split at h
  · cases h
  · cases h
    exact setHeader rfl id

theorem arcWeakCreate (h : arcWeakCreate s o = .ok t) : Keeps s t := by
  rw [Memory.arcWeakCreate] at h
  split at h
  · cases h
  split at h
  · cases h
  split at h
  · cases h
  · cases h
    exact setHeader rfl id

theorem arcWeakUpgrade {answer : Option Obj} (h : arcWeakUpgrade s o = .ok (answer, t)) :
    Keeps s t := by
  rw [Memory.arcWeakUpgrade] at h
  split at h
  · cases h
  split at h
  · cases h
    exact ⟨rfl, rfl, fun _ => rfl, fun _ => id⟩
  split at h
  · cases h
  · cases h
    exact setHeader rfl id

end Keeps

theorem holds_le_erase (refs : List Ref) (ref : Ref) (q : Obj) :
    holds refs q ≤ holds (refs.erase ref) q + 1 := by
  by_cases hRef : ref ∈ refs
  · have hErase := holds_erase hRef q
    split at hErase <;> omega
  · rw [erase_of_not_mem hRef]
    exact Nat.le_succ _

theorem holds_le_cons (refs : List Ref) (ref : Ref) (q : Obj) :
    holds refs q ≤ holds (ref :: refs) q := by
  rw [holds_cons]
  exact Nat.le_add_right _ _

/-- One step gives up one reference at most and changes no destructor. -/
structure DropsOne (s t : ArcState) : Prop where
  next : s.next ≤ t.next
  holds : ∀ o, holds s.strongRefs o ≤ holds t.strongRefs o + 1
  destructor : ∀ o < s.next, (t.heap o).destructor = (s.heap o).destructor
  deallocating : ∀ o < s.next, (s.heap o).deallocating = true → (t.heap o).deallocating = true

namespace DropsOne

variable {s t u : ArcState} {ref : Ref}

theorem of_keeps (h : Keeps s t) : DropsOne s t where
  next := h.next.ge
  holds := fun o => by rw [h.strongRefs]; exact Nat.le_succ _
  destructor := fun o _ => h.destructor o
  deallocating := fun o _ => h.deallocating o

theorem drop (h : Keeps (s.dropStrong ref) t) : DropsOne s t where
  next := h.next.ge
  holds := fun o => by rw [h.strongRefs]; exact holds_le_erase _ _ _
  destructor := fun o _ => h.destructor o
  deallocating := fun o _ => h.deallocating o

theorem holdStrong (h : DropsOne s t) : DropsOne s (t.holdStrong ref) where
  next := h.next
  holds := fun o => (h.holds o).trans (Nat.succ_le_succ (holds_le_cons _ _ _))
  destructor := h.destructor
  deallocating := h.deallocating

theorem runDestructorOp {o : Obj} {op : DestructorOp} (h : runDestructorOp s o op = .ok t) :
    DropsOne s t := by
  cases op with
  | releaseField index =>
    rw [Memory.runDestructorOp] at h
    split at h
    · cases h
      exact of_keeps (Keeps.refl s)
    · exact drop (Keeps.arcRelease h)
  | releaseWeakField index =>
    rw [Memory.runDestructorOp] at h
    split at h
    · cases h
      exact of_keeps (Keeps.refl s)
    · have hKeeps := Keeps.arcWeakRelease h
      exact of_keeps ⟨hKeeps.next, hKeeps.strongRefs, hKeeps.destructor, hKeeps.deallocating⟩
  | releaseSelf => exact of_keeps (Keeps.arcRelease h)

theorem proceed (h : proceed s = .ok t) : DropsOne s t := by
  rw [Memory.proceed] at h
  split at h
  · cases h
    exact of_keeps (Keeps.refl s)
  · have hKeeps := Keeps.arcFinishFinalization h
    exact of_keeps ⟨hKeeps.next, hKeeps.strongRefs, hKeeps.destructor, hKeeps.deallocating⟩
  · have hOp := runDestructorOp h
    exact ⟨hOp.next, hOp.holds, hOp.destructor, hOp.deallocating⟩

theorem arcAllocFull {size : Nat} {destructor : Option (List DestructorOp)}
    {scanner malloced : Bool} {o : Obj}
    (h : arcAllocFull s size destructor scanner malloced = some (o, t)) : DropsOne s t := by
  rw [Memory.arcAllocFull] at h
  split at h
  · exact absurd h (Option.some_ne_none _).symm
  · cases h
    exact ⟨Nat.le_succ _, fun _ => Nat.le_succ _, fun q hq => by
      simp [hq.ne], fun q hq => by simp [hq.ne]⟩

theorem perform (h : call.perform s = .ok t) : DropsOne s t := by
  cases call with
  | allocFull size destructor scanner malloced =>
    rw [ArcCall.perform] at h
    split at h
    · cases h
      exact of_keeps (Keeps.refl s)
    · next hAlloc =>
        cases h
        exact (arcAllocFull hAlloc).holdStrong
  | retain o =>
    rw [ArcCall.perform] at h
    cases hCall : arcRetain s o with
    | error fault => rw [hCall] at h; cases h
    | ok u =>
      rw [hCall] at h
      cases h
      exact (of_keeps (Keeps.arcRetain hCall)).holdStrong
  | release o => exact drop (Keeps.arcRelease h)
  | weakCreate o =>
    rw [ArcCall.perform] at h
    cases hCall : arcWeakCreate s o with
    | error fault => rw [hCall] at h; cases h
    | ok u =>
      rw [hCall] at h
      cases h
      have hKeeps := of_keeps (Keeps.arcWeakCreate hCall)
      exact ⟨hKeeps.next, hKeeps.holds, hKeeps.destructor, hKeeps.deallocating⟩
  | weakUpgrade o =>
    rw [ArcCall.perform] at h
    cases hCall : arcWeakUpgrade s o with
    | error fault => rw [hCall] at h; cases h
    | ok result =>
      obtain ⟨answer, u⟩ := result
      rw [hCall] at h
      cases h
      have hKeeps := of_keeps (Keeps.arcWeakUpgrade hCall)
      cases answer with
      | none => exact hKeeps
      | some _ => exact hKeeps.holdStrong
  | weakRelease o =>
    have hKeeps := Keeps.arcWeakRelease h
    exact of_keeps ⟨hKeeps.next, hKeeps.strongRefs, hKeeps.destructor, hKeeps.deallocating⟩
  | moveStrong source target o =>
    cases h
    exact (drop (Keeps.refl _)).holdStrong
  | moveWeak source target o =>
    cases h
    exact of_keeps ⟨rfl, rfl, fun _ => rfl, fun _ => id⟩
  | proceed => exact proceed h

end DropsOne

/-- What holds of the objects whenever a program is between two steps. -/
structure Lifecycle (s : ArcState) : Prop where
  /-- The strong count is the number of references that are held. -/
  strongCount : ∀ o, (s.heap o).strongCount = holds s.strongRefs o
  /-- A destructor has been called once when the count is zero, and not before. -/
  destructorRuns : ∀ o < s.next, (s.heap o).destructor.isSome = true →
    s.destructorRuns o = if (s.heap o).strongCount = 0 then 1 else 0
  /-- The step that calls it is the release of the last reference. -/
  destructorCall : ∀ call t, arcStep call (.ok s) = some (.ok t) → ∀ o < s.next,
    (t.destructorRuns o = s.destructorRuns o ∨ t.destructorRuns o = s.destructorRuns o + 1) ∧
    (t.destructorRuns o = s.destructorRuns o + 1 ↔ (s.heap o).destructor.isSome = true ∧
      (s.heap o).strongCount = 1 ∧ (t.heap o).strongCount = 0)
  /-- A handle is upgraded when the count is positive, and only then. -/
  upgrade : ∀ ref ∈ s.weakRefs,
    (∃ t, arcWeakUpgrade s ref.target = .ok (none, t) ∧
      (s.heap ref.target).strongCount ≤ 0) ∨
    (∃ t, arcWeakUpgrade s ref.target = .ok (some ref.target, t) ∧
      0 < (s.heap ref.target).strongCount) ∨
    (arcWeakUpgrade s ref.target = .error .countOverflow ∧
      (s.heap ref.target).strongCount = int32Max)
  /-- An allocation is freed once, and never while something refers to it. -/
  freed : ∀ o, s.frees o = 0 ∨ s.frees o = 1 ∧
    (∀ ref ∈ s.strongRefs, ref.target ≠ o) ∧ ∀ ref ∈ s.weakRefs, ref.target ≠ o
  /-- It has been freed when no destructor runs and nothing refers to it. -/
  unreferenced : s.stack = [] → ∀ o < s.next,
    (∀ ref ∈ s.strongRefs, ref.target ≠ o) →
      (∀ ref ∈ s.weakRefs, ref.target ≠ o) → s.frees o = 1
  currentObjects : s.stats.currentObjects = s.liveObjects.card
  currentBytes : s.stats.currentBytes = ∑ o ∈ s.liveObjects, (s.heap o).size
  /-- The destructors under way end. -/
  settles : ∃ n t,
    Library.runCalls arcStep (List.replicate n .proceed) (.ok s) = some (.ok t) ∧ t.stack = []

/-- A program that goes on has this lifecycle. It is ended only by a full counter
or by a call that takes a reference to a dead object. -/
def LifecycleKept : Except Fault ArcState → Prop
  | .ok s => Lifecycle s
  | .error fault => fault = .countOverflow ∨ fault = .deadObject

theorem holds_eq_zero_iff {refs : List Ref} {o : Obj} :
    holds refs o = 0 ↔ ∀ ref ∈ refs, ref.target ≠ o := by
  rw [holds, countP_eq_zero]
  exact forall₂_congr fun ref _ => not_congr beq_iff_eq

namespace Counted

variable {s t : ArcState} {o : Obj}

section

variable (h : Counted s)
include h

theorem strongCount_eq_zero_iff :
    (s.heap o).strongCount = 0 ↔ holds s.strongRefs o = 0 := by
  rw [h.strong, Int.natCast_eq_zero]

theorem destructorRuns_eq (hAllocated : o < s.next)
    (hDestructor : (s.heap o).destructor.isSome = true) :
    s.destructorRuns o = if (s.heap o).strongCount = 0 then 1 else 0 := by
  rw [h.runs]
  refine if_congr ?_ rfl rfl
  rw [and_iff_left hDestructor, h.deallocating, and_iff_right hAllocated, h.strongCount_eq_zero_iff]

theorem destructorRuns_of_none (hDestructor : ¬ (s.heap o).destructor.isSome = true) :
    s.destructorRuns o = 0 := by
  rw [h.runs, if_neg fun hBoth => hDestructor hBoth.2]

/-- The destructor of an object is called by the step that takes its last
reference away. -/
theorem destructorCall (h' : Counted t) (hDrops : DropsOne s t) (hAllocated : o < s.next) :
    (t.destructorRuns o = s.destructorRuns o ∨ t.destructorRuns o = s.destructorRuns o + 1) ∧
    (t.destructorRuns o = s.destructorRuns o + 1 ↔ (s.heap o).destructor.isSome = true ∧
      (s.heap o).strongCount = 1 ∧ (t.heap o).strongCount = 0) := by
  have hSame := hDrops.destructor o hAllocated
  by_cases hDestructor : (s.heap o).destructor.isSome = true
  · have hBefore := h.destructorRuns_eq hAllocated hDestructor
    have hAfter := h'.destructorRuns_eq (hAllocated.trans_le hDrops.next) (hSame ▸ hDestructor)
    have hStays : (s.heap o).strongCount = 0 → (t.heap o).strongCount = 0 := fun hZero => by
      have hDead := hDrops.deallocating o hAllocated
        ((h.deallocating o).mpr ⟨hAllocated, h.strongCount_eq_zero_iff.mp hZero⟩)
      exact h'.strongCount_eq_zero_iff.mpr ((h'.deallocating o).mp hDead).2
    have hCount := h.strong o
    have hCount' := h'.strong o
    have hOne := hDrops.holds o
    rw [hBefore, hAfter]
    by_cases hZero : (s.heap o).strongCount = 0
    · have hZero' := hStays hZero
      simp [hZero, hZero']
    · by_cases hZero' : (t.heap o).strongCount = 0
      · have hLast : (s.heap o).strongCount = 1 := by omega
        simp [hZero', hLast, hDestructor]
      · simp [hZero, hZero']
  · have hBefore := h.destructorRuns_of_none hDestructor
    have hAfter := h'.destructorRuns_of_none (hSame ▸ hDestructor)
    rw [hBefore, hAfter]
    exact ⟨.inl rfl, iff_of_false (Nat.succ_ne_self 0).symm fun hBoth => hDestructor hBoth.1⟩

theorem lifecycle : Lifecycle s where
  strongCount := h.strong
  destructorRuns := fun o hAllocated hDestructor => h.destructorRuns_eq hAllocated hDestructor
  destructorCall := fun call t hStep o hAllocated => by
    obtain ⟨u, hSame, hAllowed, hRun⟩ := arcStep_eq_some.mp hStep
    cases hSame
    have hCounted := perform_sound h hAllowed
    rw [← hRun] at hCounted
    exact h.destructorCall hCounted (DropsOne.perform hRun.symm) hAllocated
  upgrade := fun ref hRef => by
    have hCount := h.strong ref.target
    rcases h.arcWeakUpgrade_eq (holds_pos hRef) with ⟨hNone, t, hEq, -⟩ |
      ⟨hFull, hEq⟩ | ⟨hHeld, t, hEq, -⟩
    · exact .inl ⟨t, hEq, by omega⟩
    · exact .inr (.inr ⟨hEq, hFull⟩)
    · exact .inr (.inl ⟨t, hEq, by omega⟩)
  freed := fun o => by
    rw [h.frees]
    split
    · next hGone =>
        refine .inr ⟨rfl, holds_eq_zero_iff.mp ?_, holds_eq_zero_iff.mp hGone.2.2⟩
        by_contra hHeld
        exact hGone.2.1 (h.live_of_strong (Nat.pos_of_ne_zero hHeld))
    · exact .inl rfl
  unreferenced := fun hIdle o hAllocated hStrong hWeak => by
    have hDead := (h.deallocating o).mpr ⟨hAllocated, holds_eq_zero_iff.mpr hStrong⟩
    have hEnded : ¬ s.live o := fun hLive => by
      have hPending := hLive.2 hDead
      rw [ArcState.pending, hIdle] at hPending
      exact not_mem_nil hPending
    rw [h.frees, if_pos ⟨hAllocated, hEnded, holds_eq_zero_iff.mpr hWeak⟩]
  currentObjects := h.objects
  currentBytes := h.bytes
  settles := exists_settled h

end

end Counted

/-- Whatever is called, by holders of references only, every object is destroyed
and freed once and at its time, and the books count the others. -/
theorem arc_lifecycle (calls : List ArcCall) {result : Except Fault ArcState}
    (hRun : Library.runCalls arcStep calls (.ok .initial) = some result) :
    LifecycleKept result := by
  have hStart : Sound (.ok .initial) := Counted.initial
  have hSound := sound_of_run hStart hRun
  cases result with
  | error fault => exact hSound
  | ok s => exact Counted.lifecycle hSound

/-- A parent whose destructor releases its child, drops its handle on the child and releases
itself once more. The child is retained and upgraded before; a second object is not made
for want of memory, and the handle on the dead parent gives nothing. -/
def releaseParent : List ArcCall :=
  [.allocFull 24 (some [.releaseField 0, .releaseWeakField 1, .releaseSelf]) true true,
    .allocFull 24 (some [.releaseSelf]) true true, .allocFull 8 none false false,
    .weakCreate 0, .weakCreate 1, .retain 1, .weakUpgrade 1, .release 1, .release 1,
    .moveWeak .caller (.field 0 1) 1, .moveStrong .caller (.field 0 0) 1, .release 0,
    .proceed, .proceed, .proceed, .proceed, .proceed, .proceed, .weakUpgrade 0, .weakRelease 0]

theorem arc_lifecycle_releaseParent : ∃ s : ArcState,
    Library.runCalls arcStep releaseParent (.ok .initial) = some (.ok s) ∧
      s.stats.totalRetains = 2 ∧ s.stats.weakUpgrades = 1 ∧ s.stats.weakUpgradeFails = 1 ∧
      s.frees 0 = 1 ∧ s.frees 1 = 1 ∧ s.stack = [] ∧ LifecycleKept (.ok s) :=
  ⟨_, rfl, rfl, rfl, rfl, rfl, rfl, rfl, arc_lifecycle releaseParent rfl⟩

end Casprix.Memory
