import Casprix.Ml.ParallelForRuns

/-! While no worker pops from a deque that thread 0 pushes onto, and no worker is about
to count its task off `active_tasks` when `cpx_parallel_for` returns, each index is
executed once. -/
namespace Casprix.Ml

open List Option

/-- What the next step of thread 0 finds of the workers. A push begins where no pop is
in progress, and the wait ends after every task is counted off. -/
def ForPoint.StepsApart (numWorkers : Nat) (s : ParallelFor) : ForPoint → Prop
  | .submit i _ => s.worker (i % numWorkers) ≠ .pop
  | .wait => s.counter ≤ 0 →
    ∀ w < numWorkers, (s.worker w).hand.map Prod.fst ≠ some .deactivate
  | _ => True

instance (numWorkers : Nat) (s : ParallelFor) (main : ForPoint) :
    Decidable (main.StepsApart numWorkers s) :=
  match main with
  | .alloc _ => isTrue trivial
  | .submit i _ => inferInstanceAs (Decidable (s.worker (i % numWorkers) ≠ .pop))
  | .push _ _ => isTrue trivial
  | .activate _ => isTrue trivial
  | .wait => inferInstanceAs (Decidable (s.counter ≤ 0 →
      ∀ w < numWorkers, (s.worker w).hand.map Prod.fst ≠ some .deactivate))
  | .help => isTrue trivial
  | .returned => isTrue trivial

/-- The condition on a step. A pop does not begin while thread 0 is in a push. -/
def ForAct.Apart (numWorkers : Nat) (act : ForAct) (s : ParallelFor) : Prop :=
  match act with
  | .main => s.main.StepsApart numWorkers s
  | .popCall w => (s.main.pushing numWorkers).map Prod.fst ≠ some w
  | _ => True

instance (numWorkers : Nat) (act : ForAct) (s : ParallelFor) : Decidable (act.Apart numWorkers s) :=
  match act with
  | .main => inferInstanceAs (Decidable (s.main.StepsApart numWorkers s))
  | .popCall w => inferInstanceAs (Decidable ((s.main.pushing numWorkers).map Prod.fst ≠ some w))
  | .popStep _ => isTrue trivial
  | .stealCall _ _ => isTrue trivial
  | .stealStep _ => isTrue trivial
  | .run _ => isTrue trivial

namespace ParallelFor

/-- Each index is executed once, by a task that is not free. -/
structure Once (n : Nat) (activeBefore : Int) (s : ParallelFor) : Prop where
  called_nodup : s.called.Nodup
  called_lt : ∀ i ∈ s.called, i < n
  returned : s.main = .returned → s.called.Perm (List.range n) ∧ s.finished ⊆ s.called ∧
    s.called ⊆ s.finished ∧ s.activeTasks = activeBefore
  executed : ∀ w stage t, (s.worker w).hand = some (stage, t) → t ∉ s.free
  assertion : ∀ i, s.main = .alloc i → i < n → s.free ≠ []

variable {numWorkers n poolSize : Nat} {memory : Nat → Nat → Nat → Nat} {activeBefore : Int}
  {s s' : ParallelFor} {bag : Nat → List Nat} {place : Nat → ItemPlace}

theorem Good.mainStep (h : s.Good numWorkers n poolSize activeBefore bag place)
    (hApart : s.main.StepsApart numWorkers s) (hStep : s.mainStep numWorkers n memory = some s') :
    ∃ bag' place', s'.Good numWorkers n poolSize activeBefore bag' place' := by
  rw [ParallelFor.mainStep] at hStep
  have hDeques := h.deques
  have hNext := h.next_le
  generalize hMain : s.main = main at hStep hDeques hNext hApart ⊢
  cases main with
  | alloc i =>
    by_cases hMore : i < n
    · replace hStep := (if_pos hMore).symm.trans hStep
      generalize hFree : s.free = found at hStep ⊢
      cases found with
      | nil =>
        cases hStep
      | cons t free =>
        cases hStep
        exact ⟨bag, _, h.alloc hMain hMore hFree⟩
    · cases (if_neg hMore).symm.trans hStep
      have hLast : i = n := le_antisymm hNext (Nat.le_of_not_lt hMore)
      refine ⟨bag, place, h.moveMain hDeques ?_ ?_ ?_ ForPoint.noConfusion⟩
      · rw [hMain]
        rfl
      · rw [hMain]
        exact hLast.symm
      · rw [hMain, hLast]
        rfl
  | submit i t =>
    have hIdle : (s.deque (i % numWorkers)).owner = .idle := hDeques.resting _ hApart
    obtain ⟨d, hPush, rfl⟩ := map_eq_some_iff.mp hStep
    obtain ⟨_, rfl⟩ := dequeStep_call.1 t hPush
    have hBegun : Deques (some (i % numWorkers, t))
      (.pushLoadTop t (s.deque (i % numWorkers)).bottom)
        (Function.update s.deque (i % numWorkers) (s.deque (i % numWorkers))) s.worker bag := by
      rw [Function.update_eq_self]
      exact hDeques.beginPush hIdle
    refine ⟨bag, place, h.moveMain hBegun ?_ ?_ ?_ ForPoint.noConfusion⟩
    · rw [hMain]
      rfl
    · rw [hMain]
      rfl
    · rw [hMain]
      rfl
  | push i t =>
    obtain ⟨d, hPush, rfl⟩ := map_eq_some_iff.mp hStep
    rcases hDeques.stepPush hPush with ⟨hMore, hNew⟩ | ⟨hDone, hNew⟩
    · have hPoint : pushGoesOn i t d.owner = .push i t := by
        cases hOwner : d.owner with
        | idle =>
          rw [hOwner] at hMore
          cases hMore
        | _ => rfl
      refine ⟨bag, place, ?_⟩
      rw [hPoint]
      apply h.moveMain
      · exact hNew
      · rw [hMain]
      · rw [hMain]
      · rw [hMain]
        rfl
      · exact ForPoint.noConfusion
    · have hPoint : pushGoesOn i t d.owner = .activate i := by
        rw [hDone]
        rfl
      have hPushed := h.pushed hMain hNew
      rw [← hPoint] at hPushed
      exact ⟨_, _, hPushed⟩
  | activate i =>
    cases hStep
    refine ⟨bag, place, h.moveMain hDeques ?_ ?_ ?_ ForPoint.noConfusion⟩
    · rw [hMain]
      rfl
    · rw [hMain]
      rfl
    · rw [hMain]
      show s.activeTasks + 1 + (i : Int) = s.activeTasks + ((i + 1 : Nat) : Int)
      omega
  | wait =>
    by_cases hMore : s.counter > 0
    · cases (if_pos hMore).symm.trans hStep
      refine ⟨bag, place, h.moveMain hDeques ?_ ?_ ?_ ForPoint.noConfusion⟩
      · rw [hMain]
        rfl
      · rw [hMain]
        rfl
      · rw [hMain]
        rfl
    · cases (if_neg hMore).symm.trans hStep
      have hAll : n ≤ Library.tally n place (ItemPlace.past .countDown) := by
        have hCounter := h.progress.counter
        omega
      refine ⟨bag, place, h.moveMain hDeques ?_ ?_ ?_ fun _ i hi => ?_⟩
      · rw [hMain]
        rfl
      · rw [hMain]
        rfl
      · rw [hMain]
        rfl
      · -- The index is counted down, and no thread is left between the two counters.
        have hPast := Library.of_tally_eq hAll hi
        cases hPlace : place i with
        | held stage w t =>
          rw [hPlace, past_held_iff] at hPast
          have hHand := (h.items.held w stage t).mpr ⟨i, hPlace⟩
          rw [past_held_iff]
          cases stage with
          | deactivate =>
            have hIn : w < numWorkers := by
              apply h.working
              intro hIdle
              rw [hIdle] at hHand
              cases hHand
            exact absurd (congrArg (Option.map Prod.fst) hHand) (hApart (not_lt.mp hMore) w hIn)
          | release => exact lt_add_one _
          | call => exact absurd hPast (by decide)
          | body => exact absurd hPast (by decide)
          | countDown => exact absurd hPast (by decide)
        | done => rfl
        | _ =>
          rw [hPlace] at hPast
          cases hPast
  | help =>
    cases hStep
  | returned =>
    cases hStep

theorem Good.forStep {act : ForAct} (h : s.Good numWorkers n poolSize activeBefore bag place)
    (hApart : act.Apart numWorkers s) (hStep : forStep numWorkers n memory act s = some s') :
    ∃ bag' place', s'.Good numWorkers n poolSize activeBefore bag' place' := by
  cases act with
  | main =>
    rw [Ml.forStep] at hStep
    by_cases hIdle : s.worker 0 = .idle
    · exact h.mainStep hApart ((if_pos hIdle).symm.trans hStep)
    · cases (if_neg hIdle).symm.trans hStep
  | popCall w =>
    rw [Ml.forStep] at hStep
    by_cases hReady : w < numWorkers ∧ s.worker w = .idle ∧ (w = 0 → s.main = .help)
    · replace hStep := (if_pos hReady).symm.trans hStep
      obtain ⟨d, hPop, rfl⟩ := map_eq_some_iff.mp hStep
      obtain ⟨hIn, hIdle, hHelp⟩ := hReady
      have hNone : (s.worker w).hand = none := by
        rw [hIdle]
        rfl
      have hDeques := h.deques.beginPop hApart hPop
      refine ⟨bag, place, h.wander hNone rfl hIn ?_ ?_⟩
      · by_cases hZero : w = 0
        · rw [if_pos hZero]
          exact .inr ⟨hHelp hZero, rfl⟩
        · rw [if_neg hZero]
          exact .inl rfl
      · by_cases hZero : w = 0
        · rw [hHelp hZero] at hDeques
          rw [if_pos hZero]
          exact hDeques
        · rw [if_neg hZero]
          exact hDeques
    · cases (if_neg hReady).symm.trans hStep
  | popStep w =>
    rw [Ml.forStep] at hStep
    by_cases hPop : s.worker w = .pop
    · replace hStep := (if_pos hPop).symm.trans hStep
      obtain ⟨d, hNext, rfl⟩ := map_eq_some_iff.mp hStep
      obtain ⟨bag', hFetches, hDeques⟩ := h.deques.stepPop hPop hNext
      exact ⟨bag', h.fetch hFetches hPop rfl WorkerPoint.noConfusion hDeques⟩
    · cases (if_neg hPop).symm.trans hStep
  | stealCall w victim =>
    rw [Ml.forStep] at hStep
    by_cases hReady : w ≠ 0 ∧ w < numWorkers ∧ victim < numWorkers ∧
      victim ≠ w ∧ s.worker w = .idle
    · replace hStep := (if_pos hReady).symm.trans hStep
      obtain ⟨d, hSteal, rfl⟩ := map_eq_some_iff.mp hStep
      obtain ⟨_, hIn, _, _, hIdle⟩ := hReady
      have hNone : (s.worker w).hand = none := by
        rw [hIdle]
        rfl
      exact ⟨bag, place, h.wander hNone rfl hIn (.inl rfl) (h.deques.beginSteal hIdle hSteal)⟩
    · cases (if_neg hReady).symm.trans hStep
  | stealStep w =>
    rw [Ml.forStep] at hStep
    generalize hPoint : s.worker w = worker at hStep ⊢
    cases worker with
    | steal victim =>
      obtain ⟨d, hNext, rfl⟩ := map_eq_some_iff.mp hStep
      obtain ⟨bag', hFetches, hDeques⟩ :=
        h.deques.stepSteal hPoint hNext (ThiefPoint.isIdle (d.thief w))
      exact ⟨bag', h.fetch hFetches hPoint rfl WorkerPoint.noConfusion hDeques⟩
    | _ =>
      cases hStep
  | run w =>
    obtain ⟨place', hGood⟩ := h.runStep hStep
    exact ⟨bag, place', hGood⟩

/-- At the call all deques are empty and no index has a task. -/
theorem good_cpxParallelFor {free : List Nat} (hPool : free.Nodup) :
    (cpxParallelFor memory free activeBefore n).Good numWorkers n free.length activeBefore
      (fun _ => []) (fun _ => .unsubmitted) where
  deques :=
    { good := by
        intro w
        show (seenBy none _ w _).Good
        rw [seenBy_none]
        exact DequeState.good_cpxDequeInit
      pusher := by
        rintro v t ⟨⟩
      popping := by
        intro w hw
        cases hw
      resting := fun _ _ => rfl
      bag := fun _ => List.Perm.refl [] }
  items :=
    { submitting := by
        intro i t
        constructor
        · rintro ⟨⟩
        · rintro ⟨⟩
      queued := by
        intro w t
        constructor
        · exact nofun
        · rintro ⟨i, ⟨⟩⟩
      bag_nodup := fun _ => nodup_nil
      held := by
        intro w stage t
        constructor
        · rintro ⟨⟩
        · rintro ⟨i, ⟨⟩⟩
      single := by
        rintro i j t ⟨⟩
      arg := by
        rintro i t ⟨⟩
      free := by
        rintro t _ i ⟨⟩
      free_nodup := hPool }
  working := fun _ hNo => absurd rfl hNo
  body := by
    rintro w t i ⟨⟩
  submitted := fun i => ⟨fun _ => Nat.zero_le i, fun _ => rfl⟩
  next_le := Nat.zero_le n
  progress :=
    { called_nodup := nodup_nil
      called := fun _ => ⟨nofun, nofun⟩
      finished := fun _ => ⟨nofun, nofun⟩
      counter := by
        rw [Library.tally_eq_zero fun _ => rfl]
        exact (sub_zero _).symm
      activeTasks := by
        rw [Library.tally_eq_zero fun _ => rfl]
        show activeBefore = activeBefore + 0 - 0
        omega }
  pool := by
    rw [Library.tally_eq_zero fun _ => rfl]
    rfl
  stopped := fun hEnd => ForPoint.noConfusion hEnd

theorem Good.once (h : s.Good numWorkers n poolSize activeBefore bag place)
    (hFits : n ≤ poolSize) :
    s.Once n activeBefore where
  called_nodup := h.progress.called_nodup
  called_lt := by
    intro i hi
    rw [h.progress.called] at hi
    apply h.lt_of_task
    intro hPlace
    rw [hPlace] at hi
    cases hi
  returned := by
    intro hEnd
    have hStopped := h.stopped hEnd
    have hPast : ∀ i < n, ∀ stage : TaskStage, stage.rank < 4 →
        (place i).past stage = true := by
      intro i hi stage hRank
      have hDone := hStopped i hi
      cases hPlace : place i with
      | held current w t =>
        rw [hPlace, past_held_iff] at hDone
        rw [past_held_iff]
        exact (Nat.le_of_lt_succ hRank).trans_lt hDone
      | done => rfl
      | _ =>
        rw [hPlace] at hDone
        cases hDone
    have hLt : ∀ i stage, (place i).past stage = true → i < n := by
      intro i stage hi
      apply h.lt_of_task
      intro hPlace
      rw [hPlace] at hi
      cases hi
    have hCalled : ∀ i, i ∈ s.called ↔ i < n := by
      intro i
      rw [h.progress.called]
      exact ⟨hLt i _, fun hi => hPast i hi .call (by decide)⟩
    have hFinished : ∀ i, i ∈ s.finished ↔ i < n := by
      intro i
      rw [h.progress.finished]
      exact ⟨hLt i _, fun hi => hPast i hi .body (by decide)⟩
    refine ⟨?_, fun i hi => ?_, fun i hi => ?_, ?_⟩
    · apply (perm_ext_iff_of_nodup h.progress.called_nodup nodup_range).mpr
      intro i
      rw [hCalled, mem_range]
    · exact (hCalled i).mpr ((hFinished i).mp hi)
    · exact (hFinished i).mpr ((hCalled i).mp hi)
    · have hAll : Library.tally n place (ItemPlace.past .deactivate) = n := by
        apply le_antisymm Library.tally_le
        rw [Library.tally, Finset.filter_true_of_mem fun i hi =>
          hStopped i (Finset.mem_range.mp hi),
          Finset.card_range]
      have hActive := h.progress.activeTasks
      rw [hAll, hEnd] at hActive
      rw [hActive]
      exact Int.add_sub_cancel _ _
  executed := by
    intro w stage t hHand hFree
    obtain ⟨i, hPlace⟩ := (h.items.held w stage t).mp hHand
    apply h.items.free t hFree i
    rw [hPlace]
    rfl
  assertion := by
    intro i hMain hi hEmpty
    have hCount : Library.tally n place (fun p => p.task.isSome) ≤ i := by
      apply Library.tally_le_of_lt
      intro j hj
      by_contra hLe
      have hPlace : place j = .unsubmitted := by
        apply (h.submitted j).mpr
        rw [hMain]
        exact Nat.le_of_not_lt hLe
      rw [hPlace] at hj
      cases hj
    have hPool := h.pool
    rw [hEmpty, length_nil] at hPool
    omega

end ParallelFor

/-- In every interleaving whose steps all meet the condition, each index is executed
once before `cpx_parallel_for` returns. -/
theorem parallel_for_once {numWorkers n : Nat}
    {memory : Nat → Nat → Nat → Nat} {free : List Nat}
    {activeTasks : Int} {schedule : List ForAct} {s : ParallelFor} (hPool : free.Nodup)
    (hFits : n ≤ free.length)
    (hMeet : Library.CallsMeet (forStep numWorkers n memory) (ForAct.Apart numWorkers) schedule
      (cpxParallelFor memory free activeTasks n))
    (hRun : Library.runCalls (forStep numWorkers n memory) schedule
      (cpxParallelFor memory free activeTasks n) = some s) :
    s.Once n activeTasks := by
  have hKeeps : ∀ act c d,
      (∃ bag place, c.Good numWorkers n free.length activeTasks bag place) →
      act.Apart numWorkers c → forStep numWorkers n memory act c = some d →
      ∃ bag place, d.Good numWorkers n free.length activeTasks bag place := by
    rintro act c d ⟨bag, place, hGood⟩ hApart hStep
    exact hGood.forStep hApart hStep
  obtain ⟨bag, place, hGood⟩ := Library.runCalls_invariant hKeeps
    ⟨_, _, ParallelFor.good_cpxParallelFor hPool⟩ hMeet hRun
  exact hGood.once hFits

/-- The steps of one submission. -/
def submission : List ForAct := List.replicate 7 .main

/-- The steps of a pop that is sure of its task, and of the task. -/
def popAndRun (w : Nat) : List ForAct :=
  .popCall w :: List.replicate 4 (.popStep w) ++ List.replicate 5 (.run w)

/-- An index for thread 0 and one for a worker, which steals the other one as well. -/
def stealingSchedule : List ForAct :=
  submission ++ submission ++ [.main] ++
    [.stealCall 1 0, .stealStep 1, .stealStep 1, .stealStep 1, .stealStep 1] ++
    List.replicate 5 (.run 1) ++
    [.popCall 1] ++ List.replicate 6 (.popStep 1) ++ List.replicate 5 (.run 1) ++ [.main]

theorem parallel_for_once_stealing : ∃ s,
    Library.runCalls (forStep 2 2 fun _ _ _ => 0) stealingSchedule
        (cpxParallelFor (fun _ _ _ => 0) [0, 1] 0 2) = some s ∧
      s.main = .returned ∧ s.called = [0, 1] ∧ s.Once 2 0 := by
  have hEnd : (Library.runCalls (forStep 2 2 fun _ _ _ => 0) stealingSchedule
      (cpxParallelFor (fun _ _ _ => 0) [0, 1] 0 2)).map (fun s => (s.main, s.called)) =
        some (.returned, [0, 1]) := by
    decide +kernel
  obtain ⟨s, hRun, hSeen⟩ := map_eq_some_iff.mp hEnd
  refine ⟨s, hRun, congrArg Prod.fst hSeen, congrArg Prod.snd hSeen, ?_⟩
  exact parallel_for_once (by decide) (by decide) (by decide +kernel) hRun

/-- A worker pops between the loads and the stores of a push onto its deque, so that
the push puts `bottom` back above the task that the worker took. -/
def overlappingSchedule : List ForAct :=
  submission ++ submission ++ submission ++ submission ++ submission ++ [.main, .main] ++
    popAndRun 1 ++ List.replicate 5 .main ++ popAndRun 1 ++
    .popCall 1 :: List.replicate 4 (.popStep 1) ++ [.run 1]

theorem parallel_for_calls_index_twice : ∃ s,
    Library.runCalls (forStep 2 6 fun _ _ _ => 0) overlappingSchedule
        (cpxParallelFor (fun _ _ _ => 0) [0, 1, 2, 3, 4, 5] 0 6) = some s ∧
      s.called = [3, 5, 3] ∧ ¬s.Once 6 0 := by
  have hEnd : (Library.runCalls (forStep 2 6 fun _ _ _ => 0) overlappingSchedule
      (cpxParallelFor (fun _ _ _ => 0) [0, 1, 2, 3, 4, 5] 0 6)).map (fun s => s.called) =
        some [3, 5, 3] := by
    decide +kernel
  obtain ⟨s, hRun, hCalled⟩ := map_eq_some_iff.mp hEnd
  refine ⟨s, hRun, hCalled, fun hOnce => ?_⟩
  have hNodup := hOnce.called_nodup
  rw [hCalled] at hNodup
  exact absurd hNodup (by decide)

end Casprix.Ml
