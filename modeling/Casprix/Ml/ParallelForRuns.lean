import Casprix.Ml.ParallelForDeques
import Casprix.Ml.ParallelForItems

/-! Each step of a parallel for moves at most one index, and the counters count how
many indices have got how far. -/
namespace Casprix.Ml

open Function List

namespace ForPoint

/-- The first index that no task carries yet. -/
def next (n : Nat) : ForPoint → Nat
  | .alloc i => i
  | .submit i _ => i + 1
  | .push i _ => i + 1
  | .activate i => i + 1
  | _ => n

/-- How many submissions are counted in `active_tasks`. -/
def activated (n : Nat) : ForPoint → Nat
  | .alloc i => i
  | .submit i _ => i
  | .push i _ => i
  | .activate i => i
  | _ => n

/-- The index that is being submitted, and its task. -/
def submits : ForPoint → Option (Nat × Nat)
  | .submit i t => some (i, t)
  | .push i t => some (i, t)
  | _ => none

end ForPoint

/-- The task in the hands of a thread, and the step that comes next for it. -/
def WorkerPoint.hand : WorkerPoint → Option (TaskStage × Nat)
  | .call t => some (.call, t)
  | .body t _ => some (.body, t)
  | .countDown t => some (.countDown, t)
  | .deactivate t => some (.deactivate, t)
  | .release t => some (.release, t)
  | _ => none

/-- What was done for the indices, as it is counted. -/
structure Progress (n activated : Nat) (activeBefore : Int) (called finished : List Nat)
    (counter activeTasks : Int) (place : Nat → ItemPlace) : Prop where
  called_nodup : called.Nodup
  called : ∀ i, i ∈ called ↔ (place i).past .call = true
  finished : ∀ i, i ∈ finished ↔ (place i).past .body = true
  counter : counter = n - Library.tally n place (ItemPlace.past .countDown)
  activeTasks : activeTasks = activeBefore + activated -
    Library.tally n place (ItemPlace.past .deactivate)

/-- Where every index and every task is in a state of a parallel for. -/
structure ParallelFor.Good (numWorkers n poolSize : Nat) (activeBefore : Int) (s : ParallelFor)
    (bag : Nat → List Nat) (place : Nat → ItemPlace) : Prop where
  deques : Deques (s.main.pushing numWorkers) s.pusher s.deque s.worker bag
  items : Items s.main.submits bag (fun w => (s.worker w).hand) s.free s.arg place
  working : ∀ w, s.worker w ≠ .idle → w < numWorkers
  body : ∀ w t i, s.worker w = .body t i → place i = .held .body w t
  submitted : ∀ i, place i = .unsubmitted ↔ s.main.next n ≤ i
  next_le : s.main.next n ≤ n
  progress : Progress n (s.main.activated n) activeBefore s.called s.finished s.counter
    s.activeTasks place
  pool : s.free.length + Library.tally n place (fun p => p.task.isSome) = poolSize
  stopped : s.main = .returned → ∀ i < n, (place i).past .deactivate = true

section

variable {place : Nat → ItemPlace} {value : ItemPlace} {i n : Nat} {stage stage' : TaskStage}

theorem past_update (hPast : value.past stage = (place i).past stage) (j : Nat) :
    (update place i value j).past stage = (place j).past stage := by
  by_cases hSame : j = i
  · rw [hSame, update_self, hPast]
  · rw [update_of_ne hSame]

theorem tally_update_same {kind : ItemPlace → Bool} (hSame : kind value = kind (place i)) :
    Library.tally n (update place i value) kind = Library.tally n place kind := by
  rw [Library.tally, Library.tally]
  congr 1
  apply Finset.filter_congr
  intro j _
  by_cases hj : j = i
  · rw [hj, update_self, hSame]
  · rw [update_of_ne hj]

theorem tally_update_more {kind : ItemPlace → Bool} (hi : i < n) (hOld : kind (place i) = false)
    (hNew : kind value = true) :
    Library.tally n (update place i value) kind = Library.tally n place kind + 1 := by
  have hCount : Library.tally n (update place i value) kind + (kind (place i)).toNat =
      Library.tally n place kind + (kind value).toNat := Library.tally_update hi
  rw [hOld, hNew] at hCount
  exact hCount

end

namespace Progress

variable {place : Nat → ItemPlace} {value : ItemPlace} {i n activated : Nat} {stage : TaskStage}
  {activeBefore counter activeTasks : Int} {called finished : List Nat}

section

variable (h : Progress n activated activeBefore called finished counter activeTasks place)
include h

theorem relocate (hPast : ∀ other, other ≠ .release →
    value.past other = (place i).past other) :
    Progress n activated activeBefore called finished counter activeTasks
      (update place i value) where
  called_nodup := h.called_nodup
  called := by
    intro j
    rw [past_update (hPast _ TaskStage.noConfusion)]
    exact h.called j
  finished := by
    intro j
    rw [past_update (hPast _ TaskStage.noConfusion)]
    exact h.finished j
  counter := by
    rw [tally_update_same (hPast _ TaskStage.noConfusion)]
    exact h.counter
  activeTasks := by
    rw [tally_update_same (hPast _ TaskStage.noConfusion)]
    exact h.activeTasks

/-- The task of an index comes past a stage, and what is done there is counted. -/
theorem advance {next : TaskStage} {w t : Nat}
    (hi : i < n) (hPlace : place i = .held stage w t) (hRank : next.rank = stage.rank + 1) :
    Progress n activated activeBefore (if .call = stage then called ++ [i] else called)
      (if .body = stage then finished ++ [i] else finished)
      (if .countDown = stage then counter - 1 else counter)
      (if .deactivate = stage then activeTasks - 1 else activeTasks)
      (update place i (.held next w t)) := by
  have hOld : (place i).past stage = false := by
    rw [hPlace]
    exact decide_eq_false (lt_irrefl _)
  have hPast (other : TaskStage) :
      (ItemPlace.held next w t).past other = ((place i).past other || decide (other = stage)) := by
    rw [hPlace, ItemPlace.past, ItemPlace.past, hRank]
    cases other <;> cases stage <;> rfl
  have hListed {listed : List Nat} {s : TaskStage}
    (hOld : ∀ j, j ∈ listed ↔ (place j).past s = true)
      (j : Nat) : j ∈ (if s = stage then listed ++ [i] else listed) ↔
        (update place i (.held next w t) j).past s = true := by
    by_cases hj : j = i
    · rw [hj, update_self, hPast]
      split <;> simp [*]
    · rw [update_of_ne hj, ← hOld]
      split <;> simp [hj]
  have hTally (s : TaskStage) :
      (Library.tally n (update place i (.held next w t)) (ItemPlace.past s) : Int) =
        Library.tally n place (ItemPlace.past s) + if s = stage then 1 else 0 := by
    by_cases hs : s = stage
    · subst hs
      rw [tally_update_more hi hOld (by rw [hPast, hOld]; simp), if_pos rfl]
      rfl
    · rw [tally_update_same (by rw [hPast]; simp [hs]), if_neg hs, add_zero]
  exact {
    called_nodup := by
      split
      next hCall =>
        refine nodup_append.mpr ⟨h.called_nodup, nodup_singleton i, ?_⟩
        intro j hj k hk hSame
        rw [hSame, mem_singleton.mp hk, h.called, hCall, hOld] at hj
        exact Bool.false_ne_true hj
      next => exact h.called_nodup
    called := hListed h.called
    finished := hListed h.finished
    counter := by
      rw [hTally, h.counter]
      split <;> omega
    activeTasks := by
      rw [hTally, h.activeTasks]
      split <;> omega }

end

end Progress

variable {deque : Nat → DequeState Nat}

namespace ParallelFor

variable {numWorkers n poolSize : Nat} {activeBefore : Int} {s s' : ParallelFor}
  {bag : Nat → List Nat} {place : Nat → ItemPlace} {i t w : Nat} {stage stage' : TaskStage}
  {point : WorkerPoint}

/-- Some thread, the deques or the submission has the index, so it is one of the first. -/
theorem Good.lt_of_task (h : s.Good numWorkers n poolSize activeBefore bag place)
    (hTask : place i ≠ .unsubmitted) : i < n := by
  by_contra hLe
  exact hTask ((h.submitted i).mpr (h.next_le.trans (Nat.le_of_not_lt hLe)))

theorem hand_update (worker : Nat → WorkerPoint) (w : Nat) (point : WorkerPoint) :
    (fun v => (update worker w point v).hand) = update (fun v => (worker v).hand) w point.hand := by
  funext v
  by_cases hv : v = w
  · rw [hv, update_self, update_self]
  · rw [update_of_ne hv, update_of_ne hv]

theorem past_held_iff {other : TaskStage} :
    (ItemPlace.held stage w t).past other = true ↔ other.rank < stage.rank := by
  rw [ItemPlace.past, decide_eq_true_iff]

section

variable (h : s.Good numWorkers n poolSize activeBefore bag place)
include h

theorem Good.working_setWorker
    (hw : point ≠ .idle → w < numWorkers) (v : Nat) (hv : update s.worker w point v ≠ .idle) :
    v < numWorkers := by
  by_cases hSame : v = w
  · rw [hSame, update_self] at hv
    exact hSame ▸ hw hv
  · rw [update_of_ne hSame] at hv
    exact h.working v hv

theorem Good.body_setWorker {value : ItemPlace}
    (hOther : ∀ v u, v ≠ w → place i ≠ .held .body v u)
    (hOwn : ∀ u j, point = .body u j → update place i value j = .held .body w u) (v u j : Nat)
    (hv : update s.worker w point v = .body u j) : update place i value j = .held .body v u := by
  by_cases hSame : v = w
  · rw [hSame, update_self] at hv
    rw [hSame]
    exact hOwn u j hv
  · rw [update_of_ne hSame] at hv
    have hBody := h.body v u j hv
    have hNe : j ≠ i := by
      rintro rfl
      exact hOther v u hSame hBody
    rw [update_of_ne hNe]
    exact hBody

theorem Good.submitted_update {value : ItemPlace} (hOld : place i ≠ .unsubmitted)
    (hNew : value ≠ .unsubmitted) (j : Nat) :
    update place i value j = .unsubmitted ↔ s.main.next n ≤ j :=
  (update_eq_iff hOld hNew).trans (h.submitted j)

theorem Good.goOn {called finished : List Nat} {counter activeTasks : Int}
    (hHand : (s.worker w).hand = some (stage, t)) (hPoint : point.hand = some (stage', t))
    (hPlace : place i = .held stage w t) (hRank : stage.rank ≤ stage'.rank)
    (hBody : ∀ u j, point = .body u j → stage' = .body ∧ t = u ∧ i = j)
    (hProgress : Progress n (s.main.activated n) activeBefore called finished counter activeTasks
      (update place i (.held stage' w t))) :
    ({ s.setWorker w point with
      called := called, finished := finished, counter := counter, activeTasks := activeTasks } :
        ParallelFor).Good numWorkers n poolSize activeBefore bag
      (update place i (.held stage' w t)) where
  deques := by
    apply h.deques.setWorker
    intro v
    show update s.worker w point v = .pop ↔ s.worker v = .pop
    by_cases hv : v = w
    · rw [hv, update_self]
      constructor
      · rintro rfl
        cases hPoint
      · intro hPop
        rw [hPop] at hHand
        cases hHand
    · rw [update_of_ne hv]
  items := by
    show Items s.main.submits bag (fun v => (update s.worker w point v).hand) s.free s.arg _
    rw [hand_update, hPoint]
    exact h.items.advance hHand hPlace
  working := by
    refine h.working_setWorker fun _ => h.working w fun hIdle => ?_
    rw [hIdle] at hHand
    cases hHand
  body := by
    apply h.body_setWorker
    · intro v u hv
      rw [hPlace]
      rintro ⟨⟩
      exact hv rfl
    · intro u j hPoint
      obtain ⟨rfl, rfl, rfl⟩ := hBody u j hPoint
      exact update_self _ _ _
  submitted := h.submitted_update
    (ne_of_eq_of_ne hPlace ItemPlace.noConfusion) ItemPlace.noConfusion
  next_le := h.next_le
  progress := hProgress
  pool := by
    rw [tally_update_same]
    · exact h.pool
    · rw [hPlace]
      rfl
  stopped := by
    intro hEnd j hj
    have hOld := h.stopped hEnd j hj
    by_cases hSame : j = i
    · rw [hSame, hPlace, past_held_iff] at hOld
      rw [hSame, update_self, past_held_iff]
      exact hOld.trans_le hRank
    · rw [update_of_ne hSame]
      exact hOld

end

theorem Good.release (h : s.Good numWorkers n poolSize activeBefore bag place)
    (hPoint : s.worker w = .release t) :
    ∃ place', ({ s.setWorker w .idle with free := t :: s.free } : ParallelFor).Good numWorkers n
      poolSize activeBefore bag place' := by
  have hHand : (s.worker w).hand = some (.release, t) := by
    rw [hPoint]
    rfl
  obtain ⟨i, hPlace⟩ := (h.items.held w .release t).mp hHand
  have hLt : i < n := h.lt_of_task (by rw [hPlace]; exact ItemPlace.noConfusion)
  refine ⟨update place i .done, ?_⟩
  exact {
    deques := by
      apply h.deques.setWorker
      intro v
      show update s.worker w .idle v = .pop ↔ s.worker v = .pop
      by_cases hv : v = w
      · rw [hv, update_self, hPoint]
        exact ⟨fun hNo => WorkerPoint.noConfusion hNo, fun hNo => WorkerPoint.noConfusion hNo⟩
      · rw [update_of_ne hv]
    items := by
      have hItems := h.items.release hHand hPlace
      rw [show (none : Option (TaskStage × Nat)) = WorkerPoint.idle.hand from rfl,
        ← hand_update] at hItems
      exact hItems
    working := h.working_setWorker fun hNo => absurd rfl hNo
    body := h.body_setWorker (fun v u _ => ne_of_eq_of_ne hPlace (by simp))
      fun u j hNo => WorkerPoint.noConfusion hNo
    submitted := h.submitted_update (ne_of_eq_of_ne hPlace ItemPlace.noConfusion)
      ItemPlace.noConfusion
    next_le := h.next_le
    progress := by
      apply h.progress.relocate
      intro other hOther
      rw [hPlace]
      cases other with
      | release => exact absurd rfl hOther
      | _ => rfl
    pool := by
      have hCount : Library.tally n (update place i .done) (fun p => p.task.isSome) + 1 =
          Library.tally n place (fun p => p.task.isSome) := by
        have hMoved : Library.tally n (update place i .done) (fun p => p.task.isSome) +
            (place i).task.isSome.toNat = Library.tally n place (fun p => p.task.isSome) + 0 :=
          Library.tally_update hLt
        rw [hPlace] at hMoved
        exact hMoved
      have hPool := h.pool
      show s.free.length + 1 + _ = _
      omega
    stopped := by
      intro hEnd j hj
      by_cases hSame : j = i
      · rw [hSame, update_self]
        rfl
      · rw [update_of_ne hSame]
        exact h.stopped hEnd j hj }

section

variable (h : s.Good numWorkers n poolSize activeBefore bag place)
include h

theorem Good.runStep (hStep : s.runStep w = some s') :
    ∃ place', s'.Good numWorkers n poolSize activeBefore bag place' := by
  rw [ParallelFor.runStep] at hStep
  -- The index that the thread's task carries.
  have hCarried : ∀ {stage t}, (s.worker w).hand = some (stage, t) →
      ∃ i, place i = .held stage w t ∧ s.arg t = i ∧ i < n := by
    intro stage t hHand
    obtain ⟨i, hPlace⟩ := (h.items.held w stage t).mp hHand
    refine ⟨i, hPlace, h.items.arg i t (by rw [hPlace]; rfl), h.lt_of_task ?_⟩
    rw [hPlace]
    exact ItemPlace.noConfusion
  generalize hPoint : s.worker w = worker at hStep ⊢
  cases worker with
  | call t =>
    cases hStep
    have hHand : (s.worker w).hand = some (.call, t) := congrArg WorkerPoint.hand hPoint
    obtain ⟨i, hPlace, rfl, hLt⟩ := hCarried hHand
    refine ⟨_, h.goOn hHand rfl hPlace (Nat.zero_le _) ?_ ?_⟩
    · rintro u j ⟨⟩
      exact ⟨rfl, rfl, rfl⟩
    · exact h.progress.advance hLt hPlace rfl
  | body t i =>
    cases hStep
    have hPlace := h.body w t i hPoint
    refine ⟨_, h.goOn (congrArg WorkerPoint.hand hPoint) rfl hPlace (Nat.le_succ _) ?_ ?_⟩
    · exact fun u j hNo => WorkerPoint.noConfusion hNo
    · exact h.progress.advance
        (h.lt_of_task (ne_of_eq_of_ne hPlace ItemPlace.noConfusion)) hPlace rfl
  | countDown t | deactivate t =>
    cases hStep
    have hHand : (s.worker w).hand = some (_, t) := congrArg WorkerPoint.hand hPoint
    obtain ⟨i, hPlace, _, hLt⟩ := hCarried hHand
    refine ⟨_, h.goOn hHand rfl hPlace (Nat.le_succ _) ?_ ?_⟩
    · exact fun u j hNo => WorkerPoint.noConfusion hNo
    · exact h.progress.advance hLt hPlace rfl
  | release t =>
    cases hStep
    exact h.release hPoint
  | _ =>
    cases hStep

theorem Good.wander {main : ForPoint} (hOld : (s.worker w).hand = none) (hNew : point.hand = none)
    (hIn : w < numWorkers) (hMain : main = s.main ∨ s.main = .help ∧ main = .wait)
    (hDeques : Deques (main.pushing numWorkers) s.pusher deque (update s.worker w point) bag) :
    ({ s with deque := deque, worker := update s.worker w point, main := main } :
      ParallelFor).Good numWorkers n poolSize activeBefore bag place := by
  have hSame : main.submits = s.main.submits ∧ main.next n = s.main.next n ∧
      main.activated n = s.main.activated n := by
    rcases hMain with rfl | ⟨hHelp, rfl⟩
    · exact ⟨rfl, rfl, rfl⟩
    · rw [hHelp]
      exact ⟨rfl, rfl, rfl⟩
  obtain ⟨hSubmits, hNext, hActivated⟩ := hSame
  exact {
    deques := hDeques
    items := by
      show Items main.submits bag (fun v => (update s.worker w point v).hand) s.free s.arg place
      rw [hand_update, hNew, ← hOld, update_eq_self w fun v => (s.worker v).hand, hSubmits]
      exact h.items
    working := h.working_setWorker fun _ => hIn
    body := by
      intro v u j hv
      have hv : update s.worker w point v = .body u j := hv
      by_cases hSame : v = w
      · rw [hSame, update_self] at hv
        rw [hv] at hNew
        cases hNew
      · rw [update_of_ne hSame] at hv
        exact h.body v u j hv
    submitted := by
      intro j
      show _ ↔ main.next n ≤ j
      rw [hNext]
      exact h.submitted j
    next_le := by
      show main.next n ≤ n
      rw [hNext]
      exact h.next_le
    progress := by
      show Progress n (main.activated n) activeBefore s.called s.finished
        s.counter s.activeTasks place
      rw [hActivated]
      exact h.progress
    pool := h.pool
    stopped := by
      intro hEnd
      rcases hMain with rfl | ⟨_, rfl⟩
      · exact h.stopped hEnd
      · cases hEnd }

theorem Good.fetch {bag' : Nat → List Nat} {v : Nat} {goesOn : WorkerPoint}
    (hFetches : Deques.Fetches bag bag' v goesOn point) (hOld : s.worker w = goesOn)
    (hGoesOn : goesOn.hand = none) (hActive : goesOn ≠ .idle)
    (hDeques : Deques (s.main.pushing numWorkers) s.pusher deque (update s.worker w point) bag') :
    ∃ place', ({ s with deque := deque, worker := update s.worker w point } :
      ParallelFor).Good numWorkers n poolSize activeBefore bag' place' := by
  have hNone : (s.worker w).hand = none := by
    rw [hOld]
    exact hGoesOn
  have hIn : w < numWorkers := h.working w (by rw [hOld]; exact hActive)
  rcases hFetches with ⟨rfl, hPoint⟩ | ⟨t, rest, hBag, rfl, rfl⟩
  · refine ⟨place, h.wander hNone ?_ hIn (.inl rfl) hDeques⟩
    rcases hPoint with rfl | rfl
    · exact hGoesOn
    · rfl
  · obtain ⟨i, hPlace, hItems⟩ := h.items.take hBag hNone
    refine ⟨update place i (.held .call w t), ?_⟩
    exact {
      deques := hDeques
      items := by
        rw [show some (TaskStage.call, t) = (WorkerPoint.call t).hand from rfl,
          ← hand_update] at hItems
        exact hItems
      working := h.working_setWorker fun _ => hIn
      body := h.body_setWorker (fun u t' _ => ne_of_eq_of_ne hPlace ItemPlace.noConfusion)
        fun t' j hNo => WorkerPoint.noConfusion hNo
      submitted := h.submitted_update (ne_of_eq_of_ne hPlace ItemPlace.noConfusion)
        ItemPlace.noConfusion
      next_le := h.next_le
      progress := by
        apply h.progress.relocate
        intro other _
        rw [hPlace]
        cases other with
        | _ => rfl
      pool := by
        show s.free.length + _ = _
        rw [tally_update_same]
        · exact h.pool
        · rw [hPlace]
          rfl
      stopped := by
        intro hEnd j hj
        have hPast := h.stopped hEnd j hj
        have hNe : j ≠ i := by
          rintro rfl
          rw [hPlace] at hPast
          cases hPast
        rw [update_of_ne hNe]
        exact hPast }

theorem Good.moveMain {pusher : OwnerPoint Nat} {main : ForPoint} {activeTasks : Int}
    (hDeques : Deques (main.pushing numWorkers) pusher deque s.worker bag)
    (hSubmits : main.submits = s.main.submits) (hNext : main.next n = s.main.next n)
    (hActive : activeTasks + s.main.activated n = s.activeTasks + main.activated n)
    (hStopped : main = .returned → ∀ i < n, (place i).past .deactivate = true) :
    ({ s with deque := deque, pusher := pusher, main := main, activeTasks := activeTasks } :
      ParallelFor).Good numWorkers n poolSize activeBefore bag place :=
  { h with
    deques := hDeques
    items := by
      show Items main.submits bag (fun v => (s.worker v).hand) s.free s.arg place
      rw [hSubmits]
      exact h.items
    submitted := by
      intro j
      show _ ↔ main.next n ≤ j
      rw [hNext]
      exact h.submitted j
    next_le := by
      show main.next n ≤ n
      rw [hNext]
      exact h.next_le
    progress :=
      { h.progress with
        activeTasks := by
          have hBefore := h.progress.activeTasks
          show activeTasks = activeBefore + main.activated n - _
          omega }
    stopped := hStopped }

theorem Good.alloc {free : List Nat}
    (hMain : s.main = .alloc i) (hi : i < n) (hFree : s.free = t :: free) :
    ({ s with free := free, arg := update s.arg t i, main := .submit i t } :
      ParallelFor).Good numWorkers n poolSize activeBefore bag
      (update place i (.submitting t)) := by
  have hPlace : place i = .unsubmitted := by
    apply (h.submitted i).mpr
    rw [hMain]
    exact le_refl i
  have hDeques := h.deques
  have hItems := h.items
  have hProgress := h.progress
  have hPool := h.pool
  rw [hMain] at hDeques hItems hProgress
  rw [hFree] at hItems hPool
  exact {
    deques := hDeques
    items := hItems.alloc hPlace
    working := h.working
    body := fun w u j hw =>
      (update_eq_iff (ne_of_eq_of_ne hPlace ItemPlace.noConfusion) ItemPlace.noConfusion).mpr
        (h.body w u j hw)
    submitted := by
      intro j
      show _ ↔ i + 1 ≤ j
      by_cases hj : j = i
      · rw [hj, update_self]
        exact ⟨fun hNo => ItemPlace.noConfusion hNo, fun hNo =>
          absurd hNo (Nat.not_succ_le_self i)⟩
      · rw [update_of_ne hj, h.submitted j, hMain]
        show i ≤ j ↔ _
        omega
    next_le := hi
    progress := by
      apply hProgress.relocate
      intro other _
      rw [hPlace]
      rfl
    pool := by
      have hCount : Library.tally n (update place i (.submitting t)) (fun p => p.task.isSome) =
          Library.tally n place (fun p => p.task.isSome) + 1 := by
        apply tally_update_more hi
        · rw [hPlace]
          rfl
        · rfl
      show free.length + _ = _
      rw [hCount]
      rw [length_cons] at hPool
      omega
    stopped := fun hEnd => ForPoint.noConfusion hEnd }

theorem Good.pushed {pusher : OwnerPoint Nat} {v : Nat} (hMain : s.main = .push i t)
    (hDeques : Deques none pusher deque s.worker (update bag v (bag v ++ [t]))) :
    ({ s with deque := deque, pusher := pusher, main :=
      .activate i } : ParallelFor).Good numWorkers n
      poolSize activeBefore (update bag v (bag v ++ [t]))
      (update place i (.queued v t)) := by
  have hPlace : place i = .submitting t := by
    apply (h.items.submitting i t).mp
    rw [hMain]
    rfl
  have hItems := h.items
  have hProgress := h.progress
  have hNext := h.next_le
  rw [hMain] at hItems hProgress hNext
  exact {
    deques := hDeques
    items := hItems.push
    working := h.working
    body := fun w u j hw =>
      (update_eq_iff (ne_of_eq_of_ne hPlace ItemPlace.noConfusion) ItemPlace.noConfusion).mpr
        (h.body w u j hw)
    submitted := by
      intro j
      show _ ↔ i + 1 ≤ j
      by_cases hj : j = i
      · rw [hj, update_self]
        exact ⟨fun hNo => ItemPlace.noConfusion hNo, fun hNo =>
          absurd hNo (Nat.not_succ_le_self i)⟩
      · rw [update_of_ne hj, h.submitted j, hMain]
        rfl
    next_le := hNext
    progress := by
      apply hProgress.relocate
      intro other _
      rw [hPlace]
      rfl
    pool := by
      rw [tally_update_same]
      · exact h.pool
      · rw [hPlace]
        rfl
    stopped := fun hEnd => ForPoint.noConfusion hEnd }

end

end ParallelFor

end Casprix.Ml
