import Casprix.Logging.Invariant

/-! The steps of the producers keep what the sequence numbers say. -/
namespace Casprix.Logging

open Function List

variable {point : PushPoint} {m : LogMessage}

namespace LogState

variable {s s' : LogState} {released : Nat} {k : Nat}

theorem PushGood.of_frame (h : s.PushGood released point) (hMask : s'.mask = s.mask)
    (hEnqueue : s.enqueuePos ≤ s'.enqueuePos) (hDequeue : s'.dequeuePos = s.dequeuePos)
    (hEntries : ∀ (p : Nat) (m : LogMessage), s.entries[p]? = some m → s'.entries[p]? = some m)
    (hSlot : ∀ p, point.owns = some p → s'.slot p = s.slot p) : s'.PushGood released point := by
  cases point with
  | loadSeq m pos => exact h.trans hEnqueue
  | exchange m pos =>
    rw [PushGood, hMask]
    exact h
  | fill m pos =>
    obtain ⟨hLe, hLt, hSeq, hEntry⟩ := h
    rw [PushGood, hSlot pos rfl, hDequeue]
    exact ⟨hLe, hLt.trans_le hEnqueue, hSeq, hEntries pos m hEntry⟩
  | publish m pos =>
    obtain ⟨hLe, hLt, hSeq, hEntry, hStores⟩ := h
    rw [PushGood, hSlot pos rfl, hDequeue]
    exact ⟨hLe, hLt.trans_le hEnqueue, hSeq, hEntries pos m hEntry,
      stores_of_slot_eq hStores (hSlot pos rfl)⟩
  | idle | loadPos m | drop => trivial

theorem PushGood.owns_spec {p : Nat} (h : s.PushGood released point) (hOwns : point.owns = some p) :
    s.dequeuePos ≤ p ∧ p < s.enqueuePos ∧ (s.slot p).seq = p := by
  cases point with
  | fill m pos | publish m pos =>
    cases hOwns
    exact ⟨h.1, h.2.1, h.2.2.1⟩
  | _ => cases hOwns

/-- What a producer may change: its own claimed slot, and the history at its end. -/
structure PushFrame (s s' : LogState) (released k : Nat) : Prop where
  mask : s'.mask = s.mask
  enqueue_le : s.enqueuePos ≤ s'.enqueuePos
  dequeuePos : s'.dequeuePos = s.dequeuePos
  drain : s'.drain = s.drain
  running : s'.running = s.running
  shutdown : s'.shutdown = s.shutdown
  promised : s'.promised = s.promised
  written : s'.written = s.written
  entries : ∀ (p : Nat) (m : LogMessage), s.entries[p]? = some m → s'.entries[p]? = some m
  accepted : ∀ e ∈ s.accepted, e ∈ s'.accepted
  producer : ∀ j, j ≠ k → s'.producer j = s.producer j
  slot : ∀ p, released ≤ p → p < released + (s.mask + 1) →
    (s.producer k).owns ≠ some p →
    s'.slot p = s.slot p

theorem pushFrame (s : LogState) (k : Nat) (point : PushPoint) {slots : Nat → CpxLogSlot}
    {enqueuePos : Nat} {entries : List LogMessage} {accepted : List (Nat × LogMessage)}
    (dropped refused : Nat) (hEnqueue : s.enqueuePos ≤ enqueuePos)
    (hEntries : ∀ (p : Nat) (m : LogMessage), s.entries[p]? = some m → entries[p]? = some m)
    (hAccepted : ∀ e ∈ s.accepted, e ∈ accepted)
    (hSlot : ∀ p, released ≤ p → p < released + (s.mask + 1) →
      (s.producer k).owns ≠ some p →
      slots (p &&& s.mask) = s.slot p) :
    PushFrame s { s.setProducer k point with
      slots, enqueuePos, entries, accepted, dropped, refused } released k where
  mask := rfl
  enqueue_le := hEnqueue
  dequeuePos := rfl
  drain := rfl
  running := rfl
  shutdown := rfl
  promised := rfl
  written := rfl
  entries := hEntries
  accepted := hAccepted
  producer := fun _ hj => update_of_ne hj _ _
  slot := hSlot

theorem DrainGood.of_frame {point : DrainPoint} (h : s.DrainGood released point)
    (hFrame : PushFrame s s' released k)
    (hSlot : (s.slot s.dequeuePos).seq = s.dequeuePos + 1 →
      s'.slot s.dequeuePos = s.slot s.dequeuePos) : s'.DrainGood released point := by
  have hDequeue := hFrame.dequeuePos
  have hWritten := hFrame.written
  cases point with
  | loadRunning | exited =>
    rw [DrainGood, hDequeue, hWritten]
    exact h
  | pick last picked | loadSeq last picked pos | format last picked pos | write last picked
  | release last picked =>
    rw [DrainGood, hDequeue, hWritten]
    exact ⟨picks_of_entries h.1 hFrame.entries, h.2⟩
  | exchange last picked pos =>
    obtain ⟨hPicks, hLength, hDone, rfl, hLt, hSeq⟩ := h
    rw [DrainGood, hDequeue, hWritten, hSlot hSeq]
    exact ⟨picks_of_entries hPicks hFrame.entries, hLength, hDone, rfl,
      hLt.trans_le hFrame.enqueue_le, hSeq⟩

theorem LastGood.of_eq {point : DrainPoint} (h : s.LastGood released point)
    (hRunning : s'.running = s.running) (hPromised : s'.promised = s.promised)
    (hDequeue : s'.dequeuePos = s.dequeuePos) : s'.LastGood released point := by
  have hOwed : s'.owed = s.owed := by rw [owed, owed, hPromised]
  cases point with
  | pick last _ | loadSeq last _ _ | exchange last _ _ | format last _ _ =>
    cases last with
    | false => trivial
    | true =>
      rw [LastGood, hRunning, hOwed]
      exact h
  | write last _ | release last _ =>
    cases last with
    | false => trivial
    | true =>
      rw [LastGood, hRunning, hOwed, hDequeue]
      exact h
  | exited =>
    rw [LastGood, hRunning, hOwed, hDequeue]
    exact h
  | loadRunning => trivial

namespace Good

section

variable (h : s.Good released)
include h

/-- A producer's step within its frame keeps the invariant of everything else. -/
theorem of_frame (hFrame : PushFrame s s' released k) (hPoint : s'.producer k = point)
    (hQueue : s'.QueueGood released) (hPush : s'.PushGood released point)
    (hOwns : ∀ j p, j ≠ k → (s.producer j).owns = some p → point.owns ≠ some p) :
    s'.Good released := by
  have hEnqueue := h.queue.enqueue_le
  have hReleased := h.queue.released_le
  have hOther : ∀ j p, j ≠ k → (s.producer j).owns = some p → s'.slot p = s.slot p := by
    intro j p hj hp
    obtain ⟨hLe, hLt, _⟩ := (h.producer j).owns_spec hp
    apply hFrame.slot p (by omega) (by omega)
    exact fun hk => hj (h.apart j k p hp hk)
  exact {
    queue := hQueue
    producer := by
      intro j
      by_cases hj : j = k
      · rw [hj, hPoint]
        exact hPush
      · rw [hFrame.producer j hj]
        exact (h.producer j).of_frame hFrame.mask hFrame.enqueue_le hFrame.dequeuePos hFrame.entries
          fun p hp => hOther j p hj hp
    apart := by
      intro i j p hi hj
      by_cases hik : i = k
      · by_cases hjk : j = k
        · rw [hik, hjk]
        · rw [hik, hPoint] at hi
          rw [hFrame.producer j hjk] at hj
          exact absurd hi (hOwns j p hjk hj)
      · rw [hFrame.producer i hik] at hi
        by_cases hjk : j = k
        · rw [hjk, hPoint] at hj
          exact absurd hj (hOwns i p hik hi)
        · rw [hFrame.producer j hjk] at hj
          exact h.apart i j p hi hj
    drain := by
      rw [hFrame.drain]
      apply h.drain.of_frame hFrame
      intro hSeq
      have hLt := h.queue.lt_of_seq_succ hSeq
      apply hFrame.slot _ hReleased (by omega)
      intro hk
      have hUnpublished := ((h.producer k).owns_spec hk).2.2
      omega
    last := by
      rw [hFrame.drain]
      exact h.last.of_eq hFrame.running hFrame.promised hFrame.dequeuePos
    running := by
      rw [hFrame.shutdown, hFrame.running]
      exact h.running
    promised := by
      rw [hFrame.promised]
      exact fun e he => hFrame.accepted e (h.promised e he)
    exited := by
      rw [hFrame.shutdown, hFrame.drain]
      exact h.exited }

/-- A producer changes only its local variables, and owns nothing after it. -/
theorem setProducer (hPush : s.PushGood released point)
    (hOwns : point.owns = none) : (s.setProducer k point).Good released := by
  refine h.of_frame (pushFrame s k point s.dropped s.refused (le_rfl) (fun _ _ hm => hm)
    (fun _ he => he) fun _ _ _ _ => rfl) (update_self _ _ _) { h.queue with } ?_ ?_
  · exact hPush.of_frame rfl (le_rfl) rfl (fun _ _ hm => hm) fun _ _ => rfl
  · intro j p _ _
    rw [hOwns]
    exact (Option.some_ne_none p).symm

theorem drop :
    ({ s.setProducer k .idle with
      dropped := s.dropped + 1, refused := s.refused + 1 } : LogState).Good released :=
  h.of_frame (pushFrame s k .idle _ _ (le_rfl) (fun _ _ hm => hm) (fun _ he => he)
    fun _ _ _ _ => rfl) (update_self _ _ _)
    { h.queue with dropped_eq := congrArg (· + 1) h.queue.dropped_eq } trivial
    fun _ p _ _ => (Option.some_ne_none p).symm

theorem claim (hPoint : s.producer k = .exchange m s.enqueuePos) :
    ({ s.setProducer k (.fill m s.enqueuePos) with
      enqueuePos := s.enqueuePos + 1, entries := s.entries ++ [m] } : LogState).Good released := by
  have hQueue := h.queue
  have hLength := hQueue.entries_length
  have hRoom : s.enqueuePos < released + (s.mask + 1) := by
    have hPush := h.producer k
    rw [hPoint] at hPush
    exact hPush
  have hEntries : ∀ (p : Nat) (m' : LogMessage), s.entries[p]? = some m' →
      (s.entries ++ [m])[p]? = some m' := by
    intro p m' hEntry
    have hLt := (List.getElem?_eq_some_iff.mp hEntry).1
    rw [getElem?_append_left hLt]
    exact hEntry
  have hSeq : (s.slot s.enqueuePos).seq = s.enqueuePos := hQueue.free _ (le_rfl) hRoom
  refine h.of_frame (pushFrame s k _ s.dropped s.refused (Nat.le_succ _) hEntries (fun _ he => he)
    fun _ _ _ _ => rfl) (update_self _ _ _) ?_ ?_ ?_
  · exact { hQueue with
      dequeue_le := Nat.le_succ_of_le hQueue.dequeue_le
      enqueue_le := hRoom
      entries_length := by
        rw [length_append, hLength]
        rfl
      free := fun p hLe hLt => hQueue.free p (Nat.le_of_succ_le hLe) hLt
      claimed := by
        intro p hLe hLt
        by_cases hNew : p = s.enqueuePos
        · rw [hNew]
          exact .inl hSeq
        · apply (hQueue.claimed p hLe (lt_of_le_of_ne (Nat.lt_succ_iff.mp hLt) hNew)).imp_right
          exact fun hp => published_of_slot_eq hp rfl (hEntries p)
      taken := fun p hLe hLt => published_of_slot_eq (hQueue.taken p hLe hLt) rfl (hEntries p)
      accepted := fun e he =>
        ⟨hEntries _ _ (hQueue.accepted e he).1, (hQueue.accepted e he).2⟩
      written := by
        intro i line hLine
        obtain ⟨m', hEntry, hShows⟩ := hQueue.written i line hLine
        exact ⟨m', hEntries i m' hEntry, hShows⟩ }
  · refine ⟨hQueue.dequeue_le, Nat.lt_add_one _, hSeq, ?_⟩
    rw [← hLength]
    exact getElem?_concat_length
  · rintro j p _ hOwns hSame
    cases hSame
    exact absurd ((h.producer j).owns_spec hOwns).2.1 (lt_irrefl _)

end

end Good

namespace QueueGood

variable {pos p : Nat} {slot : CpxLogSlot}

section

variable (h : s.QueueGood released) (hLe : s.dequeuePos ≤ pos)
include h hLe

theorem setSlot_of_ne
    (hLt : pos < s.enqueuePos) (hp : released ≤ p) (hpLt : p < released + (s.mask + 1))
    (hNe : p ≠ pos) : (s.setSlot pos slot).slot p = s.slot p := by
  have hEnqueue := h.enqueue_le
  have hReleased := h.released_le
  exact slot_setSlot_of_ne (h.slot_ne hp hpLt (by omega) (by omega) hNe)

theorem ne_of_accepted
    (hUnpublished : (s.slot pos).seq = pos) {e : Nat × LogMessage} (he : e ∈ s.accepted) :
    e.1 ≠ pos := by
  intro hSame
  have hReleased := h.released_le
  have hSeq := (h.accepted e he).2 (by omega)
  rw [hSame] at hSeq
  omega

theorem setSlot (hLt : pos < s.enqueuePos) (hUnpublished : (s.slot pos).seq = pos)
    (hSlot : slot.seq = pos ∨ (s.setSlot pos slot).Published pos) :
    (s.setSlot pos slot).QueueGood released := by
  have hEnqueue := h.enqueue_le
  have hReleased := h.released_le
  have hSeqs : ∀ p, released ≤ p → p < released + (s.mask + 1) → p ≠ pos →
      ((s.setSlot pos slot).slot p).seq = (s.slot p).seq :=
    fun p hp hpLt hNe => congrArg CpxLogSlot.seq (h.setSlot_of_ne hLe hLt hp hpLt hNe)
  have hPublished : ∀ p, released ≤ p → p < released + (s.mask + 1) → s.Published p →
      (s.setSlot pos slot).Published p := by
    intro p hp hpLt hDone
    have hNe : p ≠ pos := by
      rintro rfl
      have hSeqDone := hDone.1
      omega
    exact published_of_slot_eq hDone (h.setSlot_of_ne hLe hLt hp hpLt hNe) fun _ hm => hm
  exact { h with
    free := by
      intro p hpLe hpLt
      have hpLe : s.enqueuePos ≤ p := hpLe
      exact (hSeqs p (by omega) hpLt (by omega)).trans (h.free p hpLe hpLt)
    claimed := by
      intro p hpLe hpLt
      have hpLe : s.dequeuePos ≤ p := hpLe
      have hpLt : p < s.enqueuePos := hpLt
      by_cases hNe : p = pos
      · rw [hNe, slot_setSlot_self]
        exact hSlot
      · rcases h.claimed p hpLe hpLt with hFree | hDone
        · exact .inl ((hSeqs p (by omega) (by omega) hNe).trans hFree)
        · exact .inr (hPublished p (by omega) (by omega) hDone)
    taken := by
      intro p hpLe hpLt
      have hpLt : p < s.dequeuePos := hpLt
      exact hPublished p hpLe (by omega) (h.taken p hpLe hpLt)
    accepted := by
      intro e he
      obtain ⟨hEntry, hSeq⟩ := h.accepted e he
      refine ⟨hEntry, fun hRel => ?_⟩
      have hBelow := (List.getElem?_eq_some_iff.mp hEntry).1
      rw [h.entries_length] at hBelow
      exact (hSeqs e.1 hRel (by omega) (h.ne_of_accepted hLe hUnpublished he)).trans (hSeq hRel) }

end

end QueueGood

namespace Good

section

variable (h : s.Good released)
include h

theorem setSlot {pos : Nat} (hOwned : (s.producer k).owns = some pos) (slot : CpxLogSlot)
    {accepted : List (Nat × LogMessage)} (hAccepted : ∀ e ∈ s.accepted, e ∈ accepted)
    (hQueue : ({ (s.setSlot pos slot).setProducer k point with accepted } : LogState).QueueGood
      released)
    (hPush : ({ (s.setSlot pos slot).setProducer k point with accepted } : LogState).PushGood
      released point) (hOwns : ∀ j p, j ≠ k →
        (s.producer j).owns = some p → point.owns ≠ some p) :
    ({ (s.setSlot pos slot).setProducer k point with accepted } : LogState).Good released := by
  obtain ⟨hLe, hLt, -⟩ := (h.producer k).owns_spec hOwned
  refine h.of_frame (pushFrame s k point s.dropped s.refused (le_rfl) (fun _ _ hm => hm)
    hAccepted fun p hp hpLt hOther => ?_) (update_self _ _ _) hQueue hPush hOwns
  exact h.queue.setSlot_of_ne hLe hLt hp hpLt fun hSame => hOther (hSame ▸ hOwned)

theorem fill {pos : Nat} (hPoint : s.producer k = .fill m pos)
    (slot : CpxLogSlot) (hSeq : slot.seq = (s.slot pos).seq) (hLen : slot.len = m.cut.length)
    (hLevel : slot.level = m.level) (hMsg : slot.msg.take m.cut.length = m.cut) :
    ((s.setSlot pos slot).setProducer k (.publish m pos)).Good released := by
  have hOwned : (s.producer k).owns = some pos := by
    rw [hPoint]
    rfl
  have hPush := h.producer k
  rw [hPoint] at hPush
  obtain ⟨hLe, hLt, hUnpublished, hEntry⟩ := hPush
  have hSelf : (s.setSlot pos slot).slot pos = slot := slot_setSlot_self
  have hFilled : slot.seq = pos := hSeq.trans hUnpublished
  refine h.setSlot hOwned slot (fun _ he => he)
    { h.queue.setSlot hLe hLt hUnpublished (.inl hFilled) with } ?_ ?_
  · refine ⟨hLe, hLt, (congrArg CpxLogSlot.seq hSelf).trans hFilled, hEntry, ?_⟩
    show (s.setSlot pos slot).Stores pos m
    rw [Stores, hSelf]
    exact ⟨hLen, hLevel, hMsg⟩
  · intro j p hj hOwns hSame
    cases hSame
    exact hj (h.apart j k pos hOwns hOwned)

theorem publish {pos : Nat} (hPoint : s.producer k = .publish m pos) :
    ({ (s.setSlot pos { s.slot pos with seq := pos + 1 }).setProducer k .idle with
      accepted := s.accepted ++ [(pos, m)] } : LogState).Good released := by
  have hPush := h.producer k
  rw [hPoint] at hPush
  obtain ⟨hLe, hLt, hUnpublished, hEntry, hStores⟩ := hPush
  have hSelf : (s.setSlot pos { s.slot pos with seq := pos + 1 }).slot pos =
      { s.slot pos with seq := pos + 1 } :=
    slot_setSlot_self
  have hNew : (s.setSlot pos { s.slot pos with seq := pos + 1 }).Published pos := by
    refine ⟨congrArg CpxLogSlot.seq hSelf, m, hEntry, ?_⟩
    rw [Stores, hSelf]
    exact hStores
  have hQueue := h.queue.setSlot hLe hLt hUnpublished (.inr hNew)
  refine h.setSlot (by rw [hPoint]; rfl) _ (fun _ he => mem_append_left _ he) ?_ trivial
    fun _ p _ _ => (Option.some_ne_none p).symm
  exact { hQueue with
    accepted := by
      intro e he
      rcases mem_append.mp he with hOld | hLast
      · exact hQueue.accepted e hOld
      · cases mem_singleton.mp hLast
        exact ⟨hEntry, fun _ => hNew.1⟩
    accepted_nodup := by
      show ((s.accepted ++ [(pos, m)]).map Prod.fst).Nodup
      rw [map_append, map_singleton, nodup_append]
      refine ⟨h.queue.accepted_nodup, pairwise_singleton _ _, ?_⟩
      intro p hp q hq
      obtain ⟨e, he, rfl⟩ := mem_map.mp hp
      rw [mem_singleton.mp hq]
      exact h.queue.ne_of_accepted hLe hUnpublished he }

theorem pushStep {spurious : Bool}
    (hStep : s.pushStep k spurious = some s') : s'.Good released := by
  have hPush := h.producer k
  rw [LogState.pushStep] at hStep
  generalize hPoint : s.producer k = producer at hStep hPush ⊢
  cases producer with
  | idle =>
    cases hStep
  | loadPos m =>
    cases hStep
    exact h.setProducer (le_rfl) rfl
  | loadSeq m pos =>
    by_cases hFree : (s.slot pos).seq = pos
    · cases (if_pos hFree).symm.trans hStep
      exact h.setProducer (h.queue.lt_of_seq_eq hPush hFree) rfl
    · replace hStep := (if_neg hFree).symm.trans hStep
      by_cases hFull : (s.slot pos).seq < pos
      · cases (if_pos hFull).symm.trans hStep
        exact h.setProducer trivial rfl
      · cases (if_neg hFull).symm.trans hStep
        exact h.setProducer trivial rfl
  | exchange m pos =>
    by_cases hWon : s.enqueuePos = pos ∧ spurious = false
    · cases (if_pos hWon).symm.trans hStep
      obtain ⟨rfl, _⟩ := hWon
      exact h.claim hPoint
    · cases (if_neg hWon).symm.trans hStep
      exact h.setProducer trivial rfl
  | fill m pos =>
    cases hStep
    exact h.fill hPoint _ rfl rfl rfl take_left
  | publish m pos =>
    cases hStep
    exact h.publish hPoint
  | drop =>
    cases hStep
    exact h.drop

end

end Good

end LogState

end Casprix.Logging
