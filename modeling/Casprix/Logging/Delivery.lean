import Casprix.Logging.Producers

/-! The steps of the drain thread and of the shutdown, and what a whole run of the
queue delivers. -/
namespace Casprix.Logging

open List

namespace LogState

variable {s s' : LogState} {released : Nat}

/-- The last batch is large enough for what is owed, and does not stop at a position
that a producer has claimed and not yet published. -/
def LastBatchFits (s : LogState) : Prop :=
  match s.drain with
  | .loadRunning => s.running = false → s.owed ≤ s.dequeuePos + 32
  | .loadSeq true _ pos => pos < s.owed → (s.slot pos).seq = pos + 1
  | _ => True

instance (s : LogState) : Decidable s.LastBatchFits :=
  match h : s.drain with
  | .loadRunning =>
    decidable_of_iff (s.running = false → s.owed ≤ s.dequeuePos + 32) (by rw [LastBatchFits, h])
  | .loadSeq true _ pos =>
    decidable_of_iff (pos < s.owed → (s.slot pos).seq = pos + 1) (by rw [LastBatchFits, h])
  | .loadSeq false _ _ => isTrue (by rw [LastBatchFits, h]; trivial)
  | .pick _ _ => isTrue (by rw [LastBatchFits, h]; trivial)
  | .exchange _ _ _ => isTrue (by rw [LastBatchFits, h]; trivial)
  | .format _ _ _ => isTrue (by rw [LastBatchFits, h]; trivial)
  | .write _ _ => isTrue (by rw [LastBatchFits, h]; trivial)
  | .release _ _ => isTrue (by rw [LastBatchFits, h]; trivial)
  | .exited => isTrue (by rw [LastBatchFits, h]; trivial)

theorem picks_nil {start : Nat} : s.Picks start [] := by
  intro i pick hPick
  cases hPick

theorem Picks.snoc {start : Nat} {picked : List LogPick} {pick : LogPick} {m : LogMessage}
    (h : s.Picks start picked) (hPos : pick.pos = start + picked.length)
    (hEntry : s.entries[pick.pos]? = some m) (hLevel : pick.levelStr = Logging.levelStr m.level)
    (hLen : pick.len = m.cut.length) : s.Picks start (picked ++ [pick]) := by
  intro i other hOther
  by_cases hOld : i < picked.length
  · rw [getElem?_append_left hOld] at hOther
    exact h i other hOther
  · have hLt := (List.getElem?_eq_some_iff.mp hOther).1
    rw [length_append, length_singleton] at hLt
    have hi : i = picked.length := by omega
    rw [hi, getElem?_concat_length] at hOther
    cases hOther
    rw [hi, ← hPos]
    exact ⟨rfl, m, hEntry, hLevel, hLen⟩

theorem Picks.tail {start : Nat} {todo : List LogPick} {pick : LogPick}
    (h : s.Picks start (pick :: todo)) : pick.pos = start ∧ s.Picks (start + 1) todo := by
  refine ⟨(h 0 pick rfl).1, fun i other hOther => ?_⟩
  have hPick := h (i + 1) other hOther
  rw [add_assoc, add_comm 1 i]
  exact hPick

namespace Good

section

variable (h : s.Good released) (hOpen : s.shutdown ≠ .returned)
include h hOpen

theorem setDrain {point : DrainPoint}
    (hDrain : s.DrainGood released point) (hLast : s.LastGood released point) :
    (s.setDrain point).Good released where
  queue := { h.queue with }
  producer := fun k => (h.producer k).of_frame rfl (le_rfl) rfl (fun _ _ hm => hm)
    fun _ _ => rfl
  apart := h.apart
  drain := by
    show (s.setDrain point).DrainGood released point
    cases point with
    | _ => exact hDrain
  last := hLast.of_eq rfl rfl rfl
  running := h.running
  promised := h.promised
  exited := fun hReturned => absurd hReturned hOpen

theorem take {last : Bool} {picked : List LogPick}
    (hPoint : s.drain = .exchange last picked s.dequeuePos) :
    ({ s with dequeuePos := s.dequeuePos + 1
              drain := .format last picked s.dequeuePos } : LogState).Good released := by
  have hQueue := h.queue
  have hDrain := h.drain
  have hLast := h.last
  rw [hPoint] at hDrain hLast
  obtain ⟨hPicks, hLength, hDone, _, hLt, hSeq⟩ := hDrain
  have hPublished : s.Published s.dequeuePos := by
    rcases hQueue.claimed s.dequeuePos (le_rfl) hLt with hFree | hDone
    · omega
    · exact hDone
  exact {
    queue := { hQueue with
      released_le := Nat.le_succ_of_le hQueue.released_le
      dequeue_le := hLt
      claimed := fun p hLe hpLt => hQueue.claimed p (Nat.le_of_succ_le hLe) hpLt
      taken := by
        intro p hLe hpLt
        by_cases hNew : p = s.dequeuePos
        · rw [hNew]
          exact hPublished
        · exact hQueue.taken p hLe (lt_of_le_of_ne (Nat.lt_succ_iff.mp hpLt) hNew) }
    producer := by
      intro k
      have hPush := h.producer k
      -- What a producer still owns is not published, so it lies further on.
      have hAhead : ∀ p, s.dequeuePos ≤ p → (s.slot p).seq = p →
          s.dequeuePos + 1 ≤ p := by
        intro p hLe hFree
        apply lt_of_le_of_ne hLe
        rintro rfl
        omega
      show ({ s with dequeuePos := s.dequeuePos + 1
                     drain := .format last picked s.dequeuePos } : LogState).PushGood released
        (s.producer k)
      generalize s.producer k = found at hPush ⊢
      cases found with
      | fill m pos | publish m pos =>
        exact ⟨hAhead pos hPush.1 hPush.2.2.1, hPush.2⟩
      | _ =>
        exact hPush
    apart := h.apart
    drain := ⟨hPicks, hLength, hDone, rfl⟩
    last := by
      cases last with
      | false => trivial
      | true => exact hLast
    running := h.running
    promised := h.promised
    exited := fun hReturned => absurd hReturned hOpen }

theorem write {last : Bool} {picked : List LogPick} (hPoint : s.drain = .write last picked) :
    ({ s with written := s.written ++ picked.map s.line
              drain := .release last picked } : LogState).Good released := by
  have hQueue := h.queue
  have hDrain := h.drain
  have hLast := h.last
  rw [hPoint] at hDrain hLast
  obtain ⟨hPicks, hLength, hDone⟩ := hDrain
  have hShown : ∀ i line, (picked.map s.line)[i]? = some line →
      ∃ m, s.entries[released + i]? = some m ∧ line.Shows m := by
    intro i line hLine
    rw [getElem?_map, Option.map_eq_some_iff] at hLine
    obtain ⟨pick, hPick, rfl⟩ := hLine
    obtain ⟨hPos, m, hEntry, hLevel, hLen⟩ := hPicks i pick hPick
    have hLt := (List.getElem?_eq_some_iff.mp hPick).1
    obtain ⟨_, m', hEntry', _, _, hMsg⟩ := hQueue.taken (released + i) (by omega) (by omega)
    cases hEntry.symm.trans hEntry'
    refine ⟨m, hEntry, hLevel, ?_⟩
    show (s.slot pick.pos).msg.take pick.len = m.cut
    rw [hPos, hLen]
    exact hMsg
  exact {
    queue := { hQueue with
      written := by
        intro i line hLine
        by_cases hOld : i < s.written.length
        · rw [getElem?_append_left hOld] at hLine
          exact hQueue.written i line hLine
        · rw [getElem?_append_right (Nat.le_of_not_lt hOld)] at hLine
          have hAt : released + (i - s.written.length) = i := by omega
          rw [← hAt]
          exact hShown _ line hLine }
    producer := fun k => (h.producer k).of_frame rfl (le_rfl) rfl (fun _ _ hm => hm)
      fun _ _ => rfl
    apart := h.apart
    drain := by
      refine ⟨hPicks, hLength, ?_⟩
      show (s.written ++ picked.map s.line).length = s.dequeuePos
      rw [length_append, length_map, hDone]
      exact hLength
    last := by
      cases last with
      | false => trivial
      | true => exact hLast
    running := h.running
    promised := h.promised
    exited := fun hReturned => absurd hReturned hOpen }

theorem release {last : Bool} {pick : LogPick} {todo : List LogPick}
    (hPoint : s.drain = .release last (pick :: todo)) :
    ((s.setSlot pick.pos { s.slot pick.pos with seq := pick.pos + s.mask + 1 }).setDrain
      (.release last todo)).Good (released + 1) := by
  have hQueue := h.queue
  have hEnqueue := hQueue.enqueue_le
  have hDequeue := hQueue.dequeue_le
  have hDrain := h.drain
  have hLast := h.last
  rw [hPoint] at hDrain hLast
  obtain ⟨hPicks, hLength, hDone⟩ := hDrain
  obtain ⟨hPos, hRest⟩ := hPicks.tail
  rw [length_cons] at hLength
  rw [hPos]
  have hOther : ∀ p, released < p → p < released + (s.mask + 1) →
      (s.setSlot released { s.slot released with seq := released + s.mask + 1 }).slot p =
        s.slot p := by
    intro p hp hpLt
    exact slot_setSlot_of_ne (hQueue.slot_ne (by omega) hpLt (le_rfl) (by omega) (by omega))
  have hPublished : ∀ p, released < p → p < released + (s.mask + 1) → s.Published p →
      ((s.setSlot released { s.slot released with seq := released + s.mask + 1 }).setDrain
        (.release last todo)).Published p :=
    fun p hp hpLt hSome => published_of_slot_eq hSome (hOther p hp hpLt) fun _ hm => hm
  exact {
    queue := { hQueue with
      released_le := by
        show released + 1 ≤ s.dequeuePos
        omega
      enqueue_le := by
        show s.enqueuePos ≤ released + 1 + (s.mask + 1)
        omega
      free := by
        intro p hLe hLt
        have hLe : s.enqueuePos ≤ p := hLe
        have hLt : p < released + 1 + (s.mask + 1) := hLt
        by_cases hTurn : p < released + (s.mask + 1)
        · have hSlot := hOther p (by omega) hTurn
          exact (congrArg CpxLogSlot.seq hSlot).trans (hQueue.free p hLe hTurn)
        · have hp : p = released + (s.mask + 1) := by omega
          have hSlot : (s.setSlot released
              { s.slot released with seq := released + s.mask + 1 }).slot p =
              { s.slot released with seq := released + s.mask + 1 } := by
            have hMask : p &&& s.mask = released &&& s.mask := by
              rw [hp]
              exact Library.masked_add hQueue.isPowerOfTwo released
            show Function.update s.slots (released &&& s.mask) _ (p &&& s.mask) = _
            rw [hMask, Function.update_self]
          exact (congrArg CpxLogSlot.seq hSlot).trans hp.symm
      claimed := by
        intro p hLe hLt
        have hLe : s.dequeuePos ≤ p := hLe
        have hLt : p < s.enqueuePos := hLt
        have hSlot := hOther p (by omega) (by omega)
        rcases hQueue.claimed p hLe hLt with hFree | hSome
        · exact Or.inl ((congrArg CpxLogSlot.seq hSlot).trans hFree)
        · exact Or.inr (hPublished p (by omega) (by omega) hSome)
      taken := by
        intro p hLe hLt
        have hLt : p < s.dequeuePos := hLt
        exact hPublished p hLe (by omega) (hQueue.taken p (by omega) hLt)
      accepted := by
        intro e he
        obtain ⟨hEntry, hSeq⟩ := hQueue.accepted e he
        refine ⟨hEntry, fun hRel => ?_⟩
        have hBelow := (List.getElem?_eq_some_iff.mp hEntry).1
        rw [hQueue.entries_length] at hBelow
        have hSlot := hOther e.1 hRel (by omega)
        exact (congrArg CpxLogSlot.seq hSlot).trans (hSeq (by omega)) }
    producer := by
      intro k
      have hPush := h.producer k
      have hMore : s.PushGood (released + 1) (s.producer k) := by
        generalize s.producer k = found at hPush ⊢
        cases found with
        | exchange m pos =>
          have hPush : pos < released + (s.mask + 1) := hPush
          show pos < released + 1 + (s.mask + 1)
          omega
        | _ =>
          exact hPush
      refine hMore.of_frame rfl (le_rfl) rfl (fun _ _ hm => hm) fun p hOwns => ?_
      obtain ⟨hLe, hLt, _⟩ := hPush.owns_spec hOwns
      exact hOther p (by omega) (by omega)
    apart := h.apart
    drain := by
      refine ⟨hRest, ?_, hDone⟩
      show released + 1 + todo.length = s.dequeuePos
      omega
    last := by
      cases last with
      | false => trivial
      | true => exact hLast
    running := h.running
    promised := h.promised
    exited := fun hReturned => absurd hReturned hOpen }

theorem finish {last : Bool}
    (hReleased : released = s.dequeuePos) (hWritten : s.written.length = s.dequeuePos)
    (hOwed : last = true → s.running = false ∧ s.owed ≤ s.dequeuePos) :
    (s.setDrain (afterBatch last)).Good released := by
  cases last with
  | false => exact h.setDrain hOpen ⟨hReleased, hWritten⟩ trivial
  | true => exact h.setDrain hOpen ⟨hReleased, hWritten⟩ (hOwed rfl)

/-- Every step of the drain thread keeps the invariant, if the last batch fits. -/
theorem drainStep {spurious : Bool} {ts : List UInt8} (hFits : s.LastBatchFits)
    (hStep : s.drainStep spurious ts = some s') : ∃ released', s'.Good released' := by
  have hDrain := h.drain
  have hLast := h.last
  rw [LogState.drainStep] at hStep
  cases hPoint : s.drain with
  | loadRunning =>
    rw [hPoint] at hStep hDrain
    cases hStep
    obtain ⟨hReleased, hWritten⟩ := hDrain
    refine ⟨released, h.setDrain hOpen
      ⟨picks_nil, hReleased, hWritten.trans hReleased.symm⟩ ?_⟩
    cases hRunning : s.running with
    | true => trivial
    | false =>
      rw [LastBatchFits, hPoint] at hFits
      refine ⟨hRunning, ?_⟩
      rw [hReleased]
      exact hFits hRunning
  | pick last picked =>
    rw [hPoint] at hStep hDrain hLast
    obtain ⟨hPicks, hLength, hWritten⟩ := hDrain
    by_cases hRoom : picked.length < 32
    · cases (if_pos hRoom).symm.trans hStep
      refine ⟨released, h.setDrain hOpen ⟨hPicks, hLength, hWritten, rfl⟩ ?_⟩
      cases last with
      | false => trivial
      | true => exact hLast
    · cases (if_neg hRoom).symm.trans hStep
      refine ⟨released, h.setDrain hOpen ⟨hPicks, hLength, hWritten⟩ ?_⟩
      cases last with
      | false => trivial
      | true =>
        obtain ⟨hRunning, hOwed⟩ := hLast
        exact ⟨hRunning, by omega⟩
  | loadSeq last picked pos =>
    rw [hPoint] at hStep hDrain hLast
    obtain ⟨hPicks, hLength, hWritten, rfl⟩ := hDrain
    by_cases hReady : (s.slot s.dequeuePos).seq = s.dequeuePos + 1
    · cases (if_pos hReady).symm.trans hStep
      have hLt := h.queue.lt_of_seq_succ hReady
      refine ⟨released, h.setDrain hOpen ⟨hPicks, hLength, hWritten, rfl, hLt, hReady⟩ ?_⟩
      cases last with
      | false => trivial
      | true => exact hLast
    · replace hStep := (if_neg hReady).symm.trans hStep
      by_cases hEmpty : (s.slot s.dequeuePos).seq < s.dequeuePos + 1
      · cases (if_pos hEmpty).symm.trans hStep
        refine ⟨released, h.setDrain hOpen ⟨hPicks, hLength, hWritten⟩ ?_⟩
        cases last with
        | false => trivial
        | true =>
          -- Nothing that is owed stands at the position where the batch ends.
          rw [LastBatchFits, hPoint] at hFits
          exact ⟨hLast.1, Nat.le_of_not_lt fun hOwed => hReady (hFits hOwed)⟩
      · cases (if_neg hEmpty).symm.trans hStep
        refine ⟨released, h.setDrain hOpen ⟨hPicks, hLength, hWritten⟩ ?_⟩
        cases last with
        | false => trivial
        | true => exact hLast
  | exchange last picked pos =>
    rw [hPoint] at hStep hDrain hLast
    by_cases hWon : s.dequeuePos = pos ∧ spurious = false
    · cases (if_pos hWon).symm.trans hStep
      obtain ⟨rfl, _⟩ := hWon
      exact ⟨released, h.take hOpen hPoint⟩
    · cases (if_neg hWon).symm.trans hStep
      refine ⟨released, h.setDrain hOpen ⟨hDrain.1, hDrain.2.1, hDrain.2.2.1⟩ ?_⟩
      cases last with
      | false => trivial
      | true => exact hLast
  | format last picked pos =>
    rw [hPoint] at hStep hDrain hLast
    cases hStep
    obtain ⟨hPicks, hLength, hWritten, hDequeue⟩ := hDrain
    obtain ⟨_, m, hEntry, hLen, hLevel, _⟩ := h.queue.taken pos (by omega) (by omega)
    have hNew : s.Picks released (picked ++
        [{ pos := pos, levelStr := levelStr (s.slot pos).level, ts := ts,
           len := (s.slot pos).len }]) :=
      hPicks.snoc hLength.symm hEntry (congrArg levelStr hLevel) hLen
    refine ⟨released, h.setDrain hOpen ⟨hNew, ?_, hWritten⟩ ?_⟩
    · rw [length_append, length_singleton]
      omega
    · cases last with
      | false => trivial
      | true => exact hLast
  | write last picked =>
    rw [hPoint] at hStep hDrain hLast
    by_cases hNone : picked = []
    · cases (if_pos hNone).symm.trans hStep
      obtain ⟨_, hLength, hWritten⟩ := hDrain
      rw [hNone] at hLength
      refine ⟨released, h.finish hOpen hLength (hWritten.trans hLength) ?_⟩
      rintro rfl
      exact hLast
    · cases (if_neg hNone).symm.trans hStep
      exact ⟨released, h.write hOpen hPoint⟩
  | release last todo =>
    cases todo with
    | nil =>
      rw [hPoint] at hStep hDrain hLast
      cases hStep
      obtain ⟨_, hLength, hWritten⟩ := hDrain
      refine ⟨released, h.finish hOpen hLength hWritten ?_⟩
      rintro rfl
      exact hLast
    | cons pick todo =>
      rw [hPoint] at hStep
      cases hStep
      exact ⟨released + 1, h.release hOpen hPoint⟩
  | exited =>
    rw [hPoint] at hStep
    cases hStep

end

end Good

theorem good_cpxLogqInit {capacity : Nat} (hInit : cpxLogqInit capacity = some s)
    (hCapacity : capacity ≠ 1) : s.Good 0 := by
  rw [cpxLogqInit] at hInit
  by_cases hPow : cpxIsPow2 capacity = true
  · cases (if_pos hPow).symm.trans hInit
    rw [cpxIsPow2, Bool.and_eq_true, bne_iff_ne, beq_iff_eq] at hPow
    have hPowerOfTwo := Nat.ne_zero_and_sub_one_eq_zero_iff_isPowerOfTwo.mp hPow
    have hPos := Nat.pos_of_isPowerOfTwo hPowerOfTwo
    have hMask : capacity - 1 + 1 = capacity := Nat.sub_add_cancel hPos
    exact {
      queue := {
        isPowerOfTwo := by
          show (capacity - 1 + 1).isPowerOfTwo
          rw [hMask]
          exact hPowerOfTwo
        two_le := by
          show 2 ≤ capacity - 1 + 1
          omega
        released_le := le_refl 0
        dequeue_le := le_refl 0
        enqueue_le := Nat.zero_le _
        entries_length := rfl
        free := by
          intro p _ hLt
          have hLt : p < 0 + (capacity - 1 + 1) := hLt
          show p &&& (capacity - 1) = p
          rw [Library.masked_eq_mod hPowerOfTwo]
          exact Nat.mod_eq_of_lt (by omega)
        claimed := nofun
        taken := nofun
        accepted := nofun
        accepted_nodup := List.Pairwise.nil
        written := nofun
        dropped_eq := rfl }
      producer := fun _ => trivial
      apart := fun _ _ p hj _ => nomatch hj.symm
      drain := ⟨rfl, rfl⟩
      last := trivial
      running := fun _ => rfl
      promised := nofun
      exited := fun hReturned => ShutdownPoint.noConfusion hReturned }
  · cases (if_neg hPow).symm.trans hInit

theorem LastGood.of_running {point : DrainPoint} (h : s.LastGood released point)
    (hRunning : s.running = true) : s'.LastGood released point := by
  have hNot : ∀ {P : Prop}, ¬ (s.running = false ∧ P) := by
    rintro P ⟨hStopped, -⟩
    rw [hRunning] at hStopped
    cases hStopped
  cases point with
  | loadRunning => trivial
  | exited => exact absurd h hNot
  | pick last _ | loadSeq last _ _ | exchange last _ _ | format last _ _ | write last _
  | release last _ =>
    cases last with
    | false => trivial
    | true => exact absurd h hNot

theorem Good.callShutdown (h : s.Good released) (hIdle : s.shutdown = .idle) :
    ({ s with running := false, shutdown := .joining, promised := s.accepted } : LogState).Good
      released where
  queue := { h.queue with }
  producer := fun k => (h.producer k).of_frame rfl (le_rfl) rfl (fun _ _ hm => hm)
    fun _ _ => rfl
  apart := h.apart
  drain := by
    have hDrain := h.drain
    show ({ s with running := false, shutdown := .joining, promised := s.accepted } :
      LogState).DrainGood released s.drain
    cases hPoint : s.drain with
    | _ =>
      rw [hPoint] at hDrain
      exact hDrain
  last := by
    show ({ s with running := false, shutdown := .joining, promised := s.accepted } :
      LogState).LastGood released s.drain
    exact h.last.of_running (h.running hIdle)
  running := fun hStill => ShutdownPoint.noConfusion hStill
  promised := fun _ he => he
  exited := fun hReturned => ShutdownPoint.noConfusion hReturned

/-- The shutdown returns after the drain thread. -/
theorem Good.returned (h : s.Good released) (hExited : s.drain = .exited) :
    ({ s with shutdown := .returned } : LogState).Good released where
  queue := { h.queue with }
  producer := fun k => (h.producer k).of_frame rfl (le_rfl) rfl (fun _ _ hm => hm)
    fun _ _ => rfl
  apart := h.apart
  drain := by
    have hDrain := h.drain
    show ({ s with shutdown := .returned } : LogState).DrainGood released s.drain
    rw [hExited] at hDrain ⊢
    exact hDrain
  last := h.last.of_eq rfl rfl rfl
  running := fun hIdle => ShutdownPoint.noConfusion hIdle
  promised := h.promised
  exited := fun _ => hExited

/-- The condition on a step: a push has a message and comes before the slots are freed, and the last
batch of the drain thread fits. -/
def StepFits (act : LogAct) (s : LogState) : Prop :=
  match act with
  | .cpxLogqTryPush _ m => m.isSome = true ∧ s.shutdown ≠ .returned
  | .drain _ _ => s.LastBatchFits
  | _ => True

instance (act : LogAct) (s : LogState) : Decidable (StepFits act s) :=
  match act with
  | .cpxLogqTryPush _ m => inferInstanceAs
    (Decidable (m.isSome = true ∧ s.shutdown ≠ .returned))
  | .drain _ _ => inferInstanceAs (Decidable s.LastBatchFits)
  | .producer _ _ => isTrue trivial
  | .cpxLogqShutdown => isTrue trivial
  | .shutdown => isTrue trivial

theorem unlessFreed_eq_some {next : Option LogState} (h : s.unlessFreed next = some s') :
    s.shutdown ≠ .returned ∧ next = some s' := by
  rw [unlessFreed] at h
  split at h
  · cases h
  · next hOpen => exact ⟨hOpen, h⟩

/-- Every step of every thread keeps the invariant, if it meets its condition. -/
theorem Good.logStep {act : LogAct} (h : s.Good released) (hFits : StepFits act s)
    (hStep : logStep act s = some s') : ∃ released', s'.Good released' := by
  cases act with
  | cpxLogqTryPush k m =>
    obtain ⟨hMessage, hOpen⟩ := hFits
    obtain ⟨message, rfl⟩ := Option.isSome_iff_exists.mp hMessage
    by_cases hIdle : s.producer k = .idle
    · have hCall : (if s.shutdown = .returned then some { s with refused := s.refused + 1 }
          else some (s.setProducer k (.loadPos message))) = some s' :=
            (if_pos hIdle).symm.trans hStep
      cases (if_neg hOpen).symm.trans hCall
      exact ⟨released, h.setProducer trivial rfl⟩
    · cases (if_neg hIdle).symm.trans hStep
  | producer k spurious => exact ⟨released, h.pushStep (unlessFreed_eq_some hStep).2⟩
  | drain spurious ts =>
    obtain ⟨hOpen, hDrain⟩ := unlessFreed_eq_some hStep
    exact h.drainStep hOpen hFits hDrain
  | cpxLogqShutdown =>
    by_cases hIdle : s.shutdown = .idle
    · cases (if_pos hIdle).symm.trans hStep
      exact ⟨released, h.callShutdown hIdle⟩
    · cases (if_neg hIdle).symm.trans hStep
  | shutdown =>
    have hReturn : s.shutdownStep = some s' := hStep
    rw [shutdownStep] at hReturn
    generalize s.shutdown = found at hReturn ⊢
    cases found with
    | joining =>
      by_cases hExited : s.drain = .exited
      · cases (if_pos hExited).symm.trans hReturn
        exact ⟨released, h.returned hExited⟩
      · cases (if_neg hExited).symm.trans hReturn
    | _ =>
      cases hReturn

/-- What the queue is for. Accepted messages have a position each. The lines written
are the messages of the positions from the first on, in order, and when the shutdown
has returned they reach every message that was accepted before it was called. -/
structure Delivers (s : LogState) : Prop where
  positions : (s.accepted.map Prod.fst).Nodup
  accepted : ∀ e ∈ s.accepted, s.entries[e.1]? = some e.2
  written : ∀ (i : Nat) (line : LogLine), s.written[i]? = some line →
    ∃ m, s.entries[i]? = some m ∧ line.Shows m
  promised : s.shutdown = .returned → ∀ e ∈ s.promised,
    ∃ line, s.written[e.1]? = some line ∧ line.Shows e.2
  dropped : s.dropped = s.refused

theorem Good.delivers (h : s.Good released) : s.Delivers where
  positions := h.queue.accepted_nodup
  accepted := fun e he => (h.queue.accepted e he).1
  written := h.queue.written
  promised := by
    intro hReturned e he
    have hDrain := h.drain
    have hLast := h.last
    rw [h.exited hReturned] at hDrain hLast
    have hLt : e.1 < s.written.length := by
      rw [hDrain.2]
      exact (lt_owed he).trans_le hLast.2
    have hLine : s.written[e.1]? = some s.written[e.1] := getElem?_eq_getElem hLt
    obtain ⟨m, hEntry, hShows⟩ := h.queue.written e.1 _ hLine
    cases hEntry.symm.trans (h.queue.accepted e (h.promised e he)).1
    exact ⟨_, hLine, hShows⟩
  dropped := h.queue.dropped_eq

end LogState

open LogState

/-- A queue with more than one slot delivers what it accepts, and counts what it refuses, in every
interleaving of pushes of messages in which the last batch reaches what was accepted before the
shutdown. -/
theorem logq_delivers {capacity : Nat} {start s : LogState} {schedule : List LogAct}
    (hInit : cpxLogqInit capacity = some start) (hCapacity : capacity ≠ 1)
    (hMeet : Library.CallsMeet logStep StepFits schedule start)
    (hRun : Library.runCalls logStep schedule start = some s) : s.Delivers := by
  have hStart : ∃ released, start.Good released := ⟨0, good_cpxLogqInit hInit hCapacity⟩
  have hKeep : ∀ act c d, (∃ released, c.Good released) → StepFits act c →
      logStep act c = some d → ∃ released, d.Good released := by
    rintro act c d ⟨released, hGood⟩ hFits hStep
    exact hGood.logStep hFits hStep
  obtain ⟨released, hGood⟩ := Library.runCalls_invariant hKeep hStart hMeet hRun
  exact hGood.delivers

def helloMessage : LogMessage where
  level := .warn
  msg := [104, 105]

/-- A push that is accepted, and a shutdown whose only batch takes its message. -/
def helloSchedule : List LogAct :=
  .cpxLogqTryPush 0 (some helloMessage) :: List.replicate 5 (.producer 0 false) ++
    .cpxLogqShutdown :: List.replicate 10 (.drain false []) ++ [.shutdown]

theorem logq_delivers_hello : ∃ start s, cpxLogqInit 2 = some start ∧
    Library.runCalls logStep helloSchedule start = some s ∧
      s.written = [{ levelStr := "[WARN]  ", ts := [], msg := [104, 105] }] ∧ s.Delivers :=
  ⟨_, _, rfl, rfl, rfl, @logq_delivers 2 _ _ helloSchedule rfl (by decide) (by decide) rfl⟩

/-- A producer has claimed the first position when another one's push is accepted
and the shutdown is called. -/
def gapSchedule : List LogAct :=
  .cpxLogqTryPush 0 (some helloMessage) :: List.replicate 3 (.producer 0 false) ++
    .cpxLogqTryPush 1 (some helloMessage) :: List.replicate 5 (.producer 1 false) ++
    .cpxLogqShutdown :: List.replicate 4 (.drain false []) ++ [.shutdown]

/-- The last batch stops at the claimed position, and the accepted message is lost. -/
theorem logq_loses_message_behind_gap : ∃ start s, cpxLogqInit 2 = some start ∧
    Library.runCalls logStep gapSchedule start = some s ∧ s.shutdown = .returned ∧
      s.promised = [(1, helloMessage)] ∧ s.written = [] ∧ ¬ s.Delivers := by
  refine ⟨_, _, rfl, rfl, rfl, rfl, rfl, fun hDelivers => ?_⟩
  obtain ⟨line, hLine, _⟩ := hDelivers.promised rfl (1, helloMessage) (mem_singleton.mpr rfl)
  cases hLine

end Casprix.Logging
