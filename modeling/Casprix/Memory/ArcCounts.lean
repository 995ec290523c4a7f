import Casprix.Memory.Arc
import Mathlib.Algebra.BigOperators.Group.Finset.Basic
import Mathlib.Algebra.GroupWithZero.Nat

/-! The counters of an allocation agree with the references and handles that are
held, whatever is called and in whatever order. -/
namespace Casprix.Memory

open List

/-- How many of the references are to the object. -/
def holds (refs : List Ref) (o : Obj) : Nat := refs.countP fun ref => ref.target == o

namespace ArcState

/-- The finalization of the object has not ended. -/
def pending (s : ArcState) (o : Obj) : Prop := o ∈ s.stack.map Finalization.obj

instance (s : ArcState) (o : Obj) : Decidable (s.pending o) :=
  inferInstanceAs (Decidable (_ ∈ _))

/-- Allocated, and its destruction has not ended. -/
def live (s : ArcState) (o : Obj) : Prop :=
  o < s.next ∧ ((s.heap o).deallocating = true → s.pending o)

instance (s : ArcState) (o : Obj) : Decidable (s.live o) :=
  inferInstanceAs (Decidable (_ ∧ _))

def liveObjects (s : ArcState) : Finset Obj := (Finset.range s.next).filter s.live

theorem mem_liveObjects {s : ArcState} {o : Obj} : o ∈ s.liveObjects ↔ s.live o := by
  simp only [liveObjects, Finset.mem_filter, Finset.mem_range, and_iff_right_iff_imp]
  exact fun h => h.1

@[simp] theorem setHeader_heap (s : ArcState) (o q : Obj) (header : ArcHeader) :
    (s.setHeader o header).heap q = if q = o then header else s.heap q := rfl

end ArcState

theorem holds_cons (refs : List Ref) (ref : Ref) (q : Obj) :
    holds (ref :: refs) q = holds refs q + if q = ref.target then 1 else 0 := by
  rw [holds, countP_cons, holds]
  by_cases hTarget : q = ref.target
  · simp [hTarget]
  · simp [hTarget, Ne.symm hTarget]

variable {refs : List Ref}

theorem holds_erase {ref : Ref} (h : ref ∈ refs) (q : Obj) :
    holds (refs.erase ref) q + (if q = ref.target then 1 else 0) = holds refs q := by
  rw [← holds_cons, holds, holds, (perm_cons_erase h).countP_eq]

theorem holds_pos {ref : Ref} (h : ref ∈ refs) : 0 < holds refs ref.target :=
  countP_pos_iff.mpr ⟨ref, h, beq_self_eq_true _⟩

theorem exists_ref_iff {o : Obj} : (∃ ref ∈ refs, ref.target = o) ↔ 0 < holds refs o := by
  rw [holds, countP_pos_iff]
  exact exists_congr fun ref => and_congr_right fun _ => beq_iff_eq.symm

/-- The counters, flags and books of a state against what is held in it. The
finalizations under way are of different objects. -/
structure Counted (s : ArcState) : Prop where
  strong : ∀ o, (s.heap o).strongCount = holds s.strongRefs o
  weak : ∀ o, (s.heap o).weakCount = holds s.weakRefs o + if s.live o then 1 else 0
  strongFresh : ∀ ref ∈ s.strongRefs, ref.target < s.next
  weakFresh : ∀ ref ∈ s.weakRefs, ref.target < s.next
  deallocating : ∀ o, (s.heap o).deallocating = true ↔ o < s.next ∧ holds s.strongRefs o = 0
  pending : ∀ o, s.pending o → (s.heap o).deallocating = true
  nodup : (s.stack.map Finalization.obj).Nodup
  unmoved : ∀ o, (s.heap o).moved = false
  runs : ∀ o, s.destructorRuns o =
    if (s.heap o).deallocating = true ∧ (s.heap o).destructor.isSome = true then 1 else 0
  frees : ∀ o, s.frees o = if o < s.next ∧ ¬ s.live o ∧ holds s.weakRefs o = 0 then 1 else 0
  objects : s.stats.currentObjects = s.liveObjects.card
  bytes : s.stats.currentBytes = ∑ o ∈ s.liveObjects, (s.heap o).size

namespace Counted

variable {s : ArcState} {o : Obj} {ref : Ref}

theorem initial : Counted .initial where
  strong := fun _ => rfl
  weak := fun _ => rfl
  strongFresh := nofun
  weakFresh := nofun
  deallocating := fun o => by simp [ArcState.initial, ArcHeader.unallocated]
  pending := nofun
  nodup := nodup_nil
  unmoved := fun _ => rfl
  runs := fun _ => rfl
  frees := fun o => by simp [ArcState.initial]
  objects := rfl
  bytes := rfl

section

variable (h : Counted s)
include h

theorem strong_nonneg (o : Obj) : 0 ≤ (s.heap o).strongCount := by
  rw [h.strong]
  exact Int.natCast_nonneg _

theorem not_deallocating (hHeld : 0 < holds s.strongRefs o) :
    (s.heap o).deallocating = false := by
  cases hFlag : (s.heap o).deallocating with
  | false => rfl
  | true => exact absurd ((h.deallocating o).mp hFlag).2 hHeld.ne'

theorem lt_next_of_strong (hHeld : 0 < holds s.strongRefs o) : o < s.next := by
  obtain ⟨ref, hRef, rfl⟩ := exists_ref_iff.mpr hHeld
  exact h.strongFresh ref hRef

theorem lt_next_of_weak (hHeld : 0 < holds s.weakRefs o) : o < s.next := by
  obtain ⟨ref, hRef, rfl⟩ := exists_ref_iff.mpr hHeld
  exact h.weakFresh ref hRef

theorem live_of_strong (hHeld : 0 < holds s.strongRefs o) : s.live o := by
  refine ⟨h.lt_next_of_strong hHeld, fun hFlag => ?_⟩
  rw [h.not_deallocating hHeld] at hFlag
  cases hFlag

theorem live_of_pending (hPending : s.pending o) : s.live o :=
  ⟨((h.deallocating o).mp (h.pending o hPending)).1, fun _ => hPending⟩

theorem isFreed_iff :
    s.isFreed o = true ↔ o < s.next ∧ ¬ s.live o ∧ holds s.weakRefs o = 0 := by
  rw [ArcState.isFreed, decide_eq_true_iff, h.frees]
  by_cases hGone : o < s.next ∧ ¬ s.live o ∧ holds s.weakRefs o = 0
  · simp [hGone]
  · simp [hGone]

theorem not_isFreed_of_live (hLive : s.live o) : s.isFreed o = false := by
  rw [← Bool.not_eq_true, h.isFreed_iff]
  exact fun hGone => hGone.2.1 hLive

theorem not_isFreed_of_weak (hHeld : 0 < holds s.weakRefs o) : s.isFreed o = false := by
  rw [← Bool.not_eq_true, h.isFreed_iff]
  exact fun hGone => hHeld.ne' hGone.2.2

theorem isFinalized_iff (hAllocated : o < s.next) :
    arcHeaderIsFinalized (s.heap o) = true ↔ holds s.strongRefs o = 0 := by
  constructor
  · intro hFinal
    by_contra hHeld
    have hCount := h.strong o
    rw [arcHeaderIsFinalized, h.not_deallocating (Nat.pos_of_ne_zero hHeld), Bool.false_or,
      Bool.and_eq_true, decide_eq_true_iff] at hFinal
    omega
  · intro hHeld
    rw [arcHeaderIsFinalized, (h.deallocating o).mpr ⟨hAllocated, hHeld⟩, Bool.true_or]

end

end Counted

theorem live_congr {s t : ArcState} {o : Obj} (hNext : t.next = s.next)
    (hFlag : (t.heap o).deallocating = (s.heap o).deallocating)
    (hStack : t.pending o ↔ s.pending o) :
    t.live o ↔ s.live o := by
  rw [ArcState.live, ArcState.live, hNext, hFlag, hStack]

/-- What a step leaves as it is when no object dies or ends in it. -/
structure SameLives (s t : ArcState) : Prop where
  next : t.next = s.next
  pending : t.stack.map Finalization.obj = s.stack.map Finalization.obj
  deallocating : ∀ o, (t.heap o).deallocating = (s.heap o).deallocating
  moved : ∀ o, (t.heap o).moved = (s.heap o).moved
  destructor : ∀ o, (t.heap o).destructor = (s.heap o).destructor
  size : ∀ o, (t.heap o).size = (s.heap o).size
  runs : t.destructorRuns = s.destructorRuns
  objects : t.stats.currentObjects = s.stats.currentObjects
  bytes : t.stats.currentBytes = s.stats.currentBytes

namespace SameLives

variable {s t : ArcState}

theorem pending_iff (h : SameLives s t) (o : Obj) : t.pending o ↔ s.pending o := by
  rw [ArcState.pending, ArcState.pending, h.pending]

theorem live_iff (h : SameLives s t) (o : Obj) : t.live o ↔ s.live o :=
  live_congr h.next (h.deallocating o) (h.pending_iff o)

theorem liveObjects_eq (h : SameLives s t) : t.liveObjects = s.liveObjects := by
  ext o
  rw [ArcState.mem_liveObjects, ArcState.mem_liveObjects, h.live_iff]

end SameLives

namespace Counted

variable {s : ArcState} {o : Obj} {ref : Ref}

/-- A step in which no object dies or ends has only to keep the two counters
with the references, and to record what it frees. -/
theorem of_sameLives {t : ArcState} (h : Counted s) (hSame : SameLives s t)
    (hStrong : ∀ q, (t.heap q).strongCount = holds t.strongRefs q)
    (hWeak : ∀ q, (t.heap q).weakCount = holds t.weakRefs q + if s.live q then 1 else 0)
    (hStrongFresh : ∀ r ∈ t.strongRefs, r.target < s.next)
    (hWeakFresh : ∀ r ∈ t.weakRefs, r.target < s.next)
    (hDead : ∀ q, holds t.strongRefs q = 0 ↔ holds s.strongRefs q = 0)
    (hFrees : ∀ q, t.frees q = if q < s.next ∧ ¬ s.live q ∧
      holds t.weakRefs q = 0 then 1 else 0) :
    Counted t where
  strong := hStrong
  weak := fun q => by
    simp only [hWeak q, hSame.live_iff]
  strongFresh := hSame.next ▸ hStrongFresh
  weakFresh := hSame.next ▸ hWeakFresh
  deallocating := fun q => by rw [hSame.deallocating, h.deallocating, hSame.next, hDead]
  pending := fun q hq => by
    rw [hSame.deallocating]
    exact h.pending q ((hSame.pending_iff q).mp hq)
  nodup := hSame.pending ▸ h.nodup
  unmoved := fun q => by rw [hSame.moved, h.unmoved]
  runs := fun q => by rw [hSame.runs, hSame.deallocating, hSame.destructor, h.runs]
  frees := fun q => by
    simp only [hFrees q, hSame.next, hSame.live_iff]
  objects := by rw [hSame.objects, h.objects, hSame.liveObjects_eq]
  bytes := by
    rw [hSame.bytes, h.bytes, hSame.liveObjects_eq]
    exact Finset.sum_congr rfl fun q _ => (hSame.size q).symm

/-- A new header that differs only in its counters, color and buffer flag. -/
theorem sameLives_setHeader {header : ArcHeader} {weakRefs : List Ref} {stats : ArcStats}
    {frees : Obj → Nat} (hDeallocating : header.deallocating = (s.heap o).deallocating)
    (hMoved : header.moved = (s.heap o).moved)
    (hDestructor : header.destructor = (s.heap o).destructor)
    (hSize : header.size = (s.heap o).size)
    (hObjects : stats.currentObjects = s.stats.currentObjects)
    (hBytes : stats.currentBytes = s.stats.currentBytes) :
    SameLives s { s.setHeader o header with
      strongRefs := refs, weakRefs := weakRefs, stats := stats, frees := frees } where
  next := rfl
  pending := rfl
  deallocating := fun q => by by_cases hq : q = o <;> simp [hq, hDeallocating]
  moved := fun q => by by_cases hq : q = o <;> simp [hq, hMoved]
  destructor := fun q => by by_cases hq : q = o <;> simp [hq, hDestructor]
  size := fun q => by by_cases hq : q = o <;> simp [hq, hSize]
  runs := rfl
  objects := hObjects
  bytes := hBytes

theorem release_shared (h : Counted s) (hRef : ref ∈ s.strongRefs)
    (hShared : holds s.strongRefs ref.target ≠ 1) (stats : ArcStats)
    (hObjects : stats.currentObjects = s.stats.currentObjects)
    (hBytes : stats.currentBytes = s.stats.currentBytes) :
    Counted { s.setHeader ref.target { s.heap ref.target with
        strongCount := (s.heap ref.target).strongCount - 1 } with
      strongRefs := s.strongRefs.erase ref, stats := stats } := by
  refine h.of_sameLives (sameLives_setHeader rfl rfl rfl rfl hObjects hBytes)
    (fun q => ?_) (fun q => ?_)
    (fun r hr => h.strongFresh r (mem_of_mem_erase hr)) h.weakFresh (fun q => ?_) h.frees
  · have hOld := h.strong q
    have hNew := holds_erase hRef q
    by_cases hq : q = ref.target
    · subst hq
      simp only [ArcState.setHeader_heap, if_true] at hNew ⊢
      omega
    · simp only [ArcState.setHeader_heap, hq, if_false] at hNew ⊢
      omega
  · refine Eq.trans ?_ (h.weak q)
    by_cases hq : q = ref.target <;> simp [hq]
  · have hPos := holds_pos hRef
    have hNew := holds_erase hRef q
    show holds (s.strongRefs.erase ref) q = 0 ↔ _
    by_cases hq : q = ref.target
    · subst hq
      rw [if_pos rfl] at hNew
      omega
    · rw [if_neg hq] at hNew
      omega

end Counted

/-- What the release of the last reference does. -/
structure StartsDeath (s t : ArcState) (ref : Ref) : Prop where
  next : t.next = s.next
  self : t.heap ref.target = { s.heap ref.target with
    strongCount := (s.heap ref.target).strongCount - 1, deallocating := true }
  other : ∀ q, q ≠ ref.target → t.heap q = s.heap q
  strongRefs : t.strongRefs = s.strongRefs.erase ref
  weakRefs : t.weakRefs = s.weakRefs
  stack : t.stack = ⟨ref.target, (s.heap ref.target).destructor.getD []⟩ :: s.stack
  runs : ∀ q, t.destructorRuns q = s.destructorRuns q +
    if q = ref.target ∧ (s.heap q).destructor.isSome = true then 1 else 0
  frees : t.frees = s.frees
  objects : t.stats.currentObjects = s.stats.currentObjects
  bytes : t.stats.currentBytes = s.stats.currentBytes

attribute [local simp] ArcState.setHeader

theorem arcStartDeallocation_startsDeath {s : ArcState} {ref : Ref}
    (hAlive : (s.heap ref.target).deallocating = false) (stats : ArcStats)
    (hObjects : stats.currentObjects = s.stats.currentObjects)
    (hBytes : stats.currentBytes = s.stats.currentBytes) :
    StartsDeath s (arcStartDeallocation { s.setHeader ref.target { s.heap ref.target with
        strongCount := (s.heap ref.target).strongCount - 1 } with
      strongRefs := s.strongRefs.erase ref, stats := stats } ref.target) ref := by
  rw [arcStartDeallocation, if_neg (by simp [hAlive]), arcStartFinalization]
  cases hDestructor : (s.heap ref.target).destructor with
  | _ =>
    simp only [ArcState.setHeader_heap, if_true, hDestructor]
    exact {
      next := rfl
      self := by simp [hDestructor]
      other := fun q hq => by simp [hq]
      strongRefs := rfl
      weakRefs := rfl
      stack := by simp [hDestructor]
      runs := fun q => by
        by_cases hq : q = ref.target
        · simp [hq, hDestructor]
        · simp [hq]
      frees := rfl
      objects := hObjects
      bytes := hBytes }

theorem arcReleaseImpl_of_pos {s : ArcState} {o : Obj} (hFreed : s.isFreed o = false)
    (hPos : 0 < (s.heap o).strongCount) :
    arcReleaseImpl s o =
      .ok (if (s.heap o).strongCount = 1 then
          arcStartDeallocation
            (s.setHeader o { s.heap o with strongCount := (s.heap o).strongCount - 1 }) o
        else s.setHeader o { s.heap o with strongCount := (s.heap o).strongCount - 1 }) := by
  rw [arcReleaseImpl, if_neg (by simp [hFreed]), if_neg (by omega)]

theorem arcWeakRelease_of_pos {s : ArcState} {o : Obj} (hFreed : s.isFreed o = false)
    (hPos : 0 < (s.heap o).weakCount) :
    arcWeakRelease s o =
      .ok (if (s.heap o).weakCount = 1 ∧ (s.heap o).strongCount ≤ 0 then
          arcFreeAllocation
            (s.setHeader o { s.heap o with weakCount := (s.heap o).weakCount - 1 }) o
        else s.setHeader o { s.heap o with weakCount := (s.heap o).weakCount - 1 }) := by
  rw [arcWeakRelease, if_neg (by simp [hFreed]), if_neg (by omega)]

namespace Counted

variable {s t : ArcState} {o : Obj} {ref : Ref}

theorem startsDeath (h : Counted s) (hRef : ref ∈ s.strongRefs)
    (hLast : holds s.strongRefs ref.target = 1) (hDeath : StartsDeath s t ref) : Counted t := by
  have hAlive : (s.heap ref.target).deallocating = false := h.not_deallocating (by omega)
  have hLive : s.live ref.target := h.live_of_strong (by omega)
  have hStacked : ¬ s.pending ref.target := fun hPending => by
    rw [h.pending _ hPending] at hAlive
    exact Bool.false_ne_true hAlive.symm
  have hPending : ∀ q, t.pending q ↔ q = ref.target ∨ s.pending q := fun q => by
    rw [ArcState.pending, hDeath.stack, map_cons, mem_cons]
    rfl
  have hSameLive : ∀ q, t.live q ↔ s.live q := by
    intro q
    by_cases hq : q = ref.target
    · subst hq
      exact iff_of_true ⟨hDeath.next ▸ hLive.1, fun _ => (hPending _).mpr (.inl rfl)⟩ hLive
    · rw [ArcState.live, ArcState.live, hDeath.next, hDeath.other q hq, hPending, or_iff_right hq]
  have hObjs : t.liveObjects = s.liveObjects := by
    ext q
    rw [ArcState.mem_liveObjects, ArcState.mem_liveObjects, hSameLive]
  have hHolds : ∀ q, holds t.strongRefs q + (if q = ref.target then 1 else 0) =
      holds s.strongRefs q := fun q => hDeath.strongRefs ▸ holds_erase hRef q
  exact {
    strong := fun q => by
      have hOld := h.strong q
      have hNew := hHolds q
      by_cases hq : q = ref.target
      · subst hq
        rw [if_pos rfl] at hNew
        rw [hDeath.self]
        simp only
        omega
      · rw [if_neg hq] at hNew
        rw [hDeath.other q hq]
        omega
    weak := fun q => by
      simp only [hSameLive, hDeath.weakRefs, ← h.weak q]
      by_cases hq : q = ref.target
      · rw [hq, hDeath.self]
      · rw [hDeath.other q hq]
    strongFresh := fun r hr => by
      rw [hDeath.strongRefs] at hr
      rw [hDeath.next]
      exact h.strongFresh r (mem_of_mem_erase hr)
    weakFresh := by
      rw [hDeath.weakRefs, hDeath.next]
      exact h.weakFresh
    deallocating := fun q => by
      have hNew := hHolds q
      by_cases hq : q = ref.target
      · subst hq
        rw [if_pos rfl] at hNew
        rw [hDeath.self, hDeath.next]
        exact iff_of_true rfl ⟨hLive.1, by omega⟩
      · rw [if_neg hq] at hNew
        rw [hDeath.other q hq, h.deallocating, hDeath.next, ← hNew]
        rfl
    pending := fun q hq => by
      by_cases hSame : q = ref.target
      · rw [hSame, hDeath.self]
      · rw [hDeath.other q hSame]
        exact h.pending q (((hPending q).mp hq).resolve_left hSame)
    nodup := by
      rw [hDeath.stack]
      exact nodup_cons.mpr ⟨hStacked, h.nodup⟩
    unmoved := fun q => by
      by_cases hq : q = ref.target
      · rw [hq, hDeath.self]
        exact h.unmoved _
      · rw [hDeath.other q hq, h.unmoved]
    runs := fun q => by
      rw [hDeath.runs, h.runs]
      by_cases hq : q = ref.target
      · subst hq
        rw [hAlive, hDeath.self]
        simp
      · rw [hDeath.other q hq, if_neg (fun hBoth : q = ref.target ∧ _ => hq hBoth.1), add_zero]
    frees := fun q => by
      simp only [hSameLive, hDeath.weakRefs, hDeath.next, hDeath.frees]
      exact h.frees q
    objects := by rw [hObjs, ← h.objects, hDeath.objects]
    bytes := by
      rw [hObjs, hDeath.bytes, h.bytes]
      refine Finset.sum_congr rfl fun q _ => ?_
      by_cases hq : q = ref.target
      · rw [hq, hDeath.self]
      · rw [hDeath.other q hq] }

/-- The release of a reference that is held starts a destruction or changes no
more than a counter. -/
theorem arcRelease (h : Counted s) (hRef : ref ∈ s.strongRefs) :
    ∃ t, arcRelease (s.dropStrong ref) ref.target = .ok t ∧ Counted t ∧
      (StartsDeath s t ref ∨ SameLives s t ∧ t.stack = s.stack) := by
  have hPos := holds_pos hRef
  have hCount := h.strong ref.target
  refine ⟨_, arcReleaseImpl_of_pos (h.not_isFreed_of_live (h.live_of_strong hPos)) (by
    show 0 < (s.heap ref.target).strongCount
    omega), ?_⟩
  by_cases hLast : (s.heap ref.target).strongCount = 1
  · have hDeath := arcStartDeallocation_startsDeath (h.not_deallocating hPos)
      { s.stats with totalReleases := s.stats.totalReleases + 1 } rfl rfl
    refine (congrArg (fun t => Counted t ∧ (StartsDeath s t ref ∨ _)) (if_pos hLast)).mpr ?_
    exact ⟨h.startsDeath hRef (by omega) hDeath, .inl hDeath⟩
  · refine (congrArg (fun t => Counted t ∧ (_ ∨ SameLives s t ∧ t.stack = s.stack))
      (if_neg hLast)).mpr ?_
    exact ⟨h.release_shared hRef (by omega) _ rfl rfl,
      .inr ⟨sameLives_setHeader rfl rfl rfl rfl rfl rfl, rfl⟩⟩

theorem weakReleased (h : Counted s) (hRef : ref ∈ s.weakRefs) {frees : Obj → Nat}
    (hFrees : ∀ q, frees q = if q < s.next ∧ ¬ s.live q ∧
      holds (s.weakRefs.erase ref) q = 0 then 1 else 0) :
    Counted { s.setHeader ref.target { s.heap ref.target with
        weakCount := (s.heap ref.target).weakCount - 1 } with
      weakRefs := s.weakRefs.erase ref, frees := frees } := by
  refine h.of_sameLives (sameLives_setHeader rfl rfl rfl rfl rfl rfl) (fun q => ?_) (fun q => ?_)
    h.strongFresh (fun r hr => h.weakFresh r (mem_of_mem_erase hr)) (fun q => Iff.rfl) hFrees
  · refine Eq.trans ?_ (h.strong q)
    by_cases hq : q = ref.target <;> simp [hq]
  · have hOld := h.weak q
    have hNew := holds_erase hRef q
    by_cases hq : q = ref.target
    · subst hq
      simp only [ArcState.setHeader_heap, if_true] at hNew ⊢
      omega
    · simp only [ArcState.setHeader_heap, hq, if_false] at hNew ⊢
      omega

theorem arcWeakRelease (h : Counted s) (hRef : ref ∈ s.weakRefs) :
    ∃ t, arcWeakRelease (s.dropWeak ref) ref.target = .ok t ∧ Counted t ∧
      SameLives s t ∧ t.stack = s.stack := by
  have hPos := holds_pos hRef
  have hAllocated := h.weakFresh ref hRef
  have hWeak := h.weak ref.target
  have hErase := fun q => holds_erase hRef q
  have hSelf := hErase ref.target
  rw [if_pos rfl] at hSelf
  have hSplit : (s.heap ref.target).weakCount = 1 ∧ (s.heap ref.target).strongCount ≤ 0 ↔
      ¬ s.live ref.target ∧ holds (s.weakRefs.erase ref) ref.target = 0 := by
    constructor
    · intro hLast
      by_cases hLive : s.live ref.target
      · rw [if_pos hLive] at hWeak
        omega
      · rw [if_neg hLive] at hWeak
        exact ⟨hLive, by omega⟩
    · intro hLast
      have hDead : (s.heap ref.target).deallocating = true := by
        cases hFlag : (s.heap ref.target).deallocating with
        | true => rfl
        | false => exact absurd ⟨hAllocated, fun hOther => by simp [hFlag] at hOther⟩ hLast.1
      have hStrong := h.strong ref.target
      rw [((h.deallocating _).mp hDead).2] at hStrong
      rw [if_neg hLast.1] at hWeak
      omega
  refine ⟨_, arcWeakRelease_of_pos (h.not_isFreed_of_weak hPos) (by
    show 0 < (s.heap ref.target).weakCount
    omega), ?_⟩
  by_cases hLast : (s.heap ref.target).weakCount = 1 ∧ (s.heap ref.target).strongCount ≤ 0
  · refine (congrArg (fun t => Counted t ∧ SameLives s t ∧
      t.stack = s.stack) (if_pos hLast)).mpr
      ⟨h.weakReleased hRef fun q => ?_, sameLives_setHeader rfl rfl rfl rfl rfl rfl, rfl⟩
    have hNew := hErase q
    show (if q = ref.target then s.frees q + 1 else s.frees q) = _
    rw [h.frees]
    by_cases hq : q = ref.target
    · subst hq
      rw [if_pos rfl, if_neg (by omega), if_pos ⟨hAllocated, hSplit.mp hLast⟩]
    · rw [if_neg hq] at hNew
      rw [if_neg hq, ← hNew, add_zero]
  · refine (congrArg (fun t => Counted t ∧ SameLives s t ∧
      t.stack = s.stack) (if_neg hLast)).mpr
      ⟨h.weakReleased hRef fun q => ?_, sameLives_setHeader rfl rfl rfl rfl rfl rfl, rfl⟩
    have hNew := hErase q
    show s.frees q = _
    rw [h.frees]
    by_cases hq : q = ref.target
    · subst hq
      rw [if_neg (by omega), if_neg (fun hGone => hLast (hSplit.mpr hGone.2))]
    · rw [if_neg hq] at hNew
      rw [← hNew, add_zero]

end Counted

/-- What `arc_finalize_zero_strong` does when the destructor has returned. -/
structure Finishes (s t : ArcState) (o : Obj) : Prop where
  next : t.next = s.next
  self : t.heap o = { s.heap o with
    scanner := false, color := .black, buffered := false, weakCount := (s.heap o).weakCount - 1 }
  other : ∀ q, q ≠ o → t.heap q = s.heap q
  strongRefs : t.strongRefs = s.strongRefs
  weakRefs : t.weakRefs = s.weakRefs
  stack : s.stack = ⟨o, []⟩ :: t.stack
  runs : t.destructorRuns = s.destructorRuns
  frees : ∀ q, t.frees q = s.frees q + if q = o ∧ (s.heap o).weakCount = 1 then 1 else 0
  objects : t.stats.currentObjects = s.stats.currentObjects - 1
  bytes : t.stats.currentBytes =
    if (s.heap o).size ≤ s.stats.currentBytes then s.stats.currentBytes - (s.heap o).size else 0

theorem arcFinishFinalization_finishes {s : ArcState} {o : Obj} {rest : List Finalization}
    (hStack : s.stack = ⟨o, []⟩ :: rest) (hFreed : s.isFreed o = false)
    (hPos : 0 < (s.heap o).weakCount) :
    ∃ t, arcFinishFinalization { s with stack := rest } o = .ok t ∧ Finishes s t o := by
  have hFreed' : ArcState.isFreed { s with stack := rest } o = false := hFreed
  rw [arcFinishFinalization, if_neg (by simp [hFreed']), if_neg (by simpa using hPos)]
  refine ⟨_, rfl, ?_⟩
  by_cases hLast : (s.heap o).weakCount = 1
  · simp only [hLast, if_true]
    exact {
      next := rfl
      self := by simp [arcFreeAllocation, hLast]
      other := fun q hq => by simp [arcFreeAllocation, hq]
      strongRefs := rfl
      weakRefs := rfl
      stack := hStack
      runs := rfl
      frees := fun q => by by_cases hq : q = o <;> simp [arcFreeAllocation, hq, hLast]
      objects := rfl
      bytes := rfl }
  · simp only [hLast, if_false]
    exact {
      next := rfl
      self := by simp
      other := fun q hq => by simp [hq]
      strongRefs := rfl
      weakRefs := rfl
      stack := hStack
      runs := rfl
      frees := fun q => by simp [hLast]
      objects := rfl
      bytes := rfl }

namespace Counted

variable {s t : ArcState} {o : Obj} {ref : Ref}

theorem finishes (h : Counted s) (hEnd : Finishes s t o) : Counted t := by
  have hMap : s.stack.map Finalization.obj = o :: t.stack.map Finalization.obj := by
    rw [hEnd.stack, map_cons]
  have hNodup := h.nodup
  rw [hMap, nodup_cons] at hNodup
  have hPending : ∀ q, s.pending q ↔ q = o ∨ t.pending q := fun q => by
    rw [ArcState.pending, hMap, mem_cons]
    rfl
  have hDead : (s.heap o).deallocating = true := h.pending o ((hPending o).mpr (.inl rfl))
  have hWasLive : s.live o := h.live_of_pending ((hPending o).mpr (.inl rfl))
  have hEnded : ¬ t.live o := fun hLive => hNodup.1 (hLive.2 (by rw [hEnd.self]; exact hDead))
  have hOtherLive : ∀ q, q ≠ o → (t.live q ↔ s.live q) := fun q hq => by
    rw [ArcState.live, ArcState.live, hEnd.next, hEnd.other q hq, hPending, or_iff_right hq]
  have hObjs : t.liveObjects = s.liveObjects.erase o := by
    ext q
    rw [Finset.mem_erase, ArcState.mem_liveObjects, ArcState.mem_liveObjects]
    by_cases hq : q = o
    · subst hq
      simp [hEnded]
    · simp [hq, hOtherLive q hq]
  have hMem : o ∈ s.liveObjects := ArcState.mem_liveObjects.mpr hWasLive
  have hSize : ∀ q, (t.heap q).size = (s.heap q).size := fun q => by
    by_cases hq : q = o
    · rw [hq, hEnd.self]
    · rw [hEnd.other q hq]
  have hFlag : ∀ q, (t.heap q).deallocating = (s.heap q).deallocating := fun q => by
    by_cases hq : q = o
    · rw [hq, hEnd.self]
    · rw [hEnd.other q hq]
  exact {
    strong := fun q => by
      rw [hEnd.strongRefs, ← h.strong q]
      by_cases hq : q = o
      · rw [hq, hEnd.self]
      · rw [hEnd.other q hq]
    weak := fun q => by
      have hOld := h.weak q
      rw [hEnd.weakRefs]
      by_cases hq : q = o
      · subst hq
        rw [if_pos hWasLive] at hOld
        rw [if_neg hEnded, hEnd.self]
        simp only
        omega
      · rw [hEnd.other q hq]
        simp only [hOtherLive q hq]
        exact hOld
    strongFresh := by
      rw [hEnd.strongRefs, hEnd.next]
      exact h.strongFresh
    weakFresh := by
      rw [hEnd.weakRefs, hEnd.next]
      exact h.weakFresh
    deallocating := fun q => by rw [hFlag, h.deallocating, hEnd.next, hEnd.strongRefs]
    pending := fun q hq => by
      rw [hFlag]
      exact h.pending q ((hPending q).mpr (.inr hq))
    nodup := hNodup.2
    unmoved := fun q => by
      by_cases hq : q = o
      · rw [hq, hEnd.self]
        exact h.unmoved o
      · rw [hEnd.other q hq, h.unmoved]
    runs := fun q => by
      rw [hEnd.runs, h.runs, hFlag]
      by_cases hq : q = o
      · rw [hq, hEnd.self]
      · rw [hEnd.other q hq]
    frees := fun q => by
      have hWeak := h.weak o
      rw [if_pos hWasLive] at hWeak
      rw [hEnd.frees, h.frees, hEnd.next, hEnd.weakRefs]
      by_cases hq : q = o
      · subst hq
        rw [if_neg (fun hGone => hGone.2.1 hWasLive), zero_add]
        refine if_congr ?_ rfl rfl
        simp only [true_and, hWasLive.1, hEnded, not_false_iff]
        omega
      · rw [if_neg (fun hBoth : q = o ∧ _ => hq hBoth.1), add_zero]
        simp only [hOtherLive q hq]
    objects := by rw [hEnd.objects, hObjs, Finset.card_erase_of_mem hMem, h.objects]
    bytes := by
      have hSum := Finset.add_sum_erase s.liveObjects (fun q => (s.heap q).size) hMem
      rw [hEnd.bytes, hObjs, h.bytes, if_pos (by omega)]
      simp only [hSize]
      omega }

end Counted

end Casprix.Memory
