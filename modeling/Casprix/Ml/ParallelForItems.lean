import Casprix.Library.Counting
import Casprix.Ml.ParallelFor

/-! Where each index of a parallel for is, and by which task it is carried. A task of
the pool is free or carries one index, so the two move together. -/
namespace Casprix.Ml

open Function List

/-- The step that comes next for the task in a thread's hands. -/
inductive TaskStage
  | call
  | body
  | countDown
  | deactivate
  | release
  deriving DecidableEq, Repr

inductive ItemPlace
  | unsubmitted
  | submitting (t : Nat)
  | queued (w t : Nat)
  | held (stage : TaskStage) (w t : Nat)
  | done
  deriving DecidableEq, Repr

def TaskStage.rank : TaskStage → Nat
  | .call => 0
  | .body => 1
  | .countDown => 2
  | .deactivate => 3
  | .release => 4

/-- Whether the step of a stage is done for an index. -/
def ItemPlace.past (stage : TaskStage) : ItemPlace → Bool
  | .held current _ _ => stage.rank < current.rank
  | .done => true
  | _ => false

/-- The task that carries an index. -/
def ItemPlace.task : ItemPlace → Option Nat
  | .submitting t => some t
  | .queued _ t => some t
  | .held _ _ t => some t
  | _ => none

/-- Who has which task: the submission, the bags of the deques, the threads, the pool. -/
structure Items (main : Option (Nat × Nat)) (bag : Nat → List Nat)
    (hand : Nat → Option (TaskStage × Nat)) (pool : List Nat) (argOf : Nat → Nat)
    (place : Nat → ItemPlace) : Prop where
  submitting : ∀ i t, main = some (i, t) ↔ place i = .submitting t
  queued : ∀ w t, t ∈ bag w ↔ ∃ i, place i = .queued w t
  bag_nodup : ∀ w, (bag w).Nodup
  held : ∀ w stage t, hand w = some (stage, t) ↔ ∃ i, place i = .held stage w t
  single : ∀ i j t, (place i).task = some t → (place j).task = some t → i = j
  arg : ∀ i t, (place i).task = some t → argOf t = i
  free : ∀ t ∈ pool, ∀ i, (place i).task ≠ some t
  free_nodup : pool.Nodup

section

variable {place : Nat → ItemPlace} {value : ItemPlace} {i : Nat}

theorem update_eq_iff {other : ItemPlace} {j : Nat} (hOld : place i ≠ other)
    (hNew : value ≠ other) :
    update place i value j = other ↔ place j = other := by
  by_cases hSame : j = i
  · rw [hSame, update_self]
    exact ⟨fun h => absurd h hNew, fun h => absurd h hOld⟩
  · rw [update_of_ne hSame]

theorem exists_update_iff {other : ItemPlace} (hOld : place i ≠ other) (hNew : value ≠ other) :
    (∃ j, place j = other) ↔ ∃ j, update place i value j = other :=
  exists_congr fun _ => (update_eq_iff hOld hNew).symm

theorem task_update (value : ItemPlace) (hTask : value.task = (place i).task) (j : Nat) :
    (update place i value j).task = (place j).task := by
  by_cases hSame : j = i
  · rw [hSame, update_self, hTask]
  · rw [update_of_ne hSame]

end

namespace Items

variable {main : Option (Nat × Nat)} {bag : Nat → List Nat}
  {hand : Nat → Option (TaskStage × Nat)} {pool : List Nat} {argOf : Nat → Nat}
  {place : Nat → ItemPlace} {i t w : Nat} {stage stage' : TaskStage}

theorem alloc (h : Items none bag hand (t :: pool) argOf place) (hPlace : place i = .unsubmitted) :
    Items (some (i, t)) bag hand pool (update argOf t i) (update place i (.submitting t)) where
  submitting := by
    intro j u
    by_cases hj : j = i
    · rw [hj, update_self]
      constructor
      · rintro ⟨⟩
        rfl
      · rintro ⟨⟩
        rfl
    · rw [update_of_ne hj, ← h.submitting j u]
      constructor
      · rintro ⟨⟩
        exact absurd rfl hj
      · exact nofun
  queued := fun v u => (h.queued v u).trans
    (exists_update_iff (ne_of_eq_of_ne hPlace ItemPlace.noConfusion) ItemPlace.noConfusion)
  bag_nodup := h.bag_nodup
  held := fun v s u => (h.held v s u).trans
    (exists_update_iff (ne_of_eq_of_ne hPlace ItemPlace.noConfusion) ItemPlace.noConfusion)
  single := by
    intro j k u hj hk
    have hFree : ∀ l, (place l).task ≠ some t := h.free t mem_cons_self
    by_cases hji : j = i
    · by_cases hki : k = i
      · rw [hji, hki]
      · rw [hji, update_self] at hj
        rw [update_of_ne hki] at hk
        cases hj
        exact absurd hk (hFree k)
    · rw [update_of_ne hji] at hj
      by_cases hki : k = i
      · rw [hki, update_self] at hk
        cases hk
        exact absurd hj (hFree j)
      · rw [update_of_ne hki] at hk
        exact h.single j k u hj hk
  arg := by
    intro j u hj
    by_cases hji : j = i
    · rw [hji, update_self] at hj
      cases hj
      rw [hji, update_self]
    · rw [update_of_ne hji] at hj
      have hNe : u ≠ t := by
        rintro rfl
        exact h.free u mem_cons_self j hj
      rw [update_of_ne hNe]
      exact h.arg j u hj
  free := by
    intro u hu j
    by_cases hji : j = i
    · rw [hji, update_self]
      rintro ⟨⟩
      exact (nodup_cons.mp h.free_nodup).1 hu
    · rw [update_of_ne hji]
      exact h.free u (mem_cons_of_mem _ hu) j
  free_nodup := (nodup_cons.mp h.free_nodup).2

theorem push (h : Items (some (i, t)) bag hand pool argOf place) :
    Items none (update bag w (bag w ++ [t])) hand pool argOf (update place i (.queued w t)) := by
  have hPlace : place i = .submitting t := (h.submitting i t).mp rfl
  have hTask := task_update (.queued w t) (hPlace ▸ rfl : _ = (place i).task)
  have hFresh : ∀ v, t ∉ bag v := by
    intro v hv
    obtain ⟨j, hj⟩ := (h.queued v t).mp hv
    have hSame := h.single i j t (by rw [hPlace]; rfl) (by rw [hj]; rfl)
    rw [← hSame, hPlace] at hj
    cases hj
  exact {
    submitting := by
      intro j u
      constructor
      · exact nofun
      · intro hj
        by_cases hji : j = i
        · rw [hji, update_self] at hj
          cases hj
        · rw [update_of_ne hji] at hj
          cases (h.submitting j u).mpr hj
          exact absurd rfl hji
    queued := by
      intro v u
      by_cases hNew : v = w ∧ u = t
      · obtain ⟨rfl, rfl⟩ := hNew
        rw [update_self]
        exact ⟨fun _ => ⟨i, update_self _ _ _⟩, fun _ => mem_append_right _ mem_cons_self⟩
      · have hSame : u ∈ update bag w (bag w ++ [t]) v ↔ u ∈ bag v := by
          by_cases hv : v = w
          · rw [hv, update_self, mem_append, mem_singleton]
            exact ⟨fun hu => hu.resolve_right fun hut => hNew ⟨hv, hut⟩, Or.inl⟩
          · rw [update_of_ne hv]
        rw [hSame, h.queued]
        refine exists_update_iff (ne_of_eq_of_ne hPlace ItemPlace.noConfusion) ?_
        rintro ⟨⟩
        exact hNew ⟨rfl, rfl⟩
    bag_nodup := by
      intro v
      by_cases hv : v = w
      · rw [hv, update_self, nodup_append]
        refine ⟨h.bag_nodup w, nodup_singleton t, ?_⟩
        intro a ha b hb hab
        rw [hab, mem_singleton.mp hb] at ha
        exact hFresh w ha
      · rw [update_of_ne hv]
        exact h.bag_nodup v
    held := fun v s u => (h.held v s u).trans
      (exists_update_iff (ne_of_eq_of_ne hPlace ItemPlace.noConfusion) ItemPlace.noConfusion)
    single := by simpa only [hTask] using h.single
    arg := by simpa only [hTask] using h.arg
    free := by simpa only [hTask] using h.free
    free_nodup := h.free_nodup }

theorem take {v : Nat} {rest : List Nat} (h : Items main bag hand pool argOf place)
    (hBag : (bag v).Perm (t :: rest)) (hIdle : hand w = none) :
    ∃ i, place i = .queued v t ∧
      Items main (update bag v rest) (update hand w (some (.call, t))) pool
        argOf (update place i (.held .call w t)) := by
  obtain ⟨i, hPlace⟩ := (h.queued v t).mp (hBag.mem_iff.mpr mem_cons_self)
  have hTask := task_update (.held .call w t) (hPlace ▸ rfl : _ = (place i).task)
  have hNodup := nodup_cons.mp (hBag.nodup_iff.mp (h.bag_nodup v))
  refine ⟨i, hPlace, ?_⟩
  exact {
    submitting := fun j u => (h.submitting j u).trans
      (update_eq_iff (ne_of_eq_of_ne hPlace ItemPlace.noConfusion) ItemPlace.noConfusion).symm
    queued := by
      intro x u
      by_cases hTaken : x = v ∧ u = t
      · obtain ⟨rfl, rfl⟩ := hTaken
        rw [update_self]
        constructor
        · exact fun hu => absurd hu hNodup.1
        · rintro ⟨j, hj⟩
          by_cases hji : j = i
          · rw [hji, update_self] at hj
            cases hj
          · rw [update_of_ne hji] at hj
            exact absurd (h.single j i u (by rw [hj]; rfl) (by rw [hPlace]; rfl)) hji
      · have hSame : u ∈ update bag v rest x ↔ u ∈ bag x := by
          by_cases hx : x = v
          · rw [hx, update_self, hBag.mem_iff, mem_cons]
            exact ⟨Or.inr, fun hu => hu.resolve_left fun hut => hTaken ⟨hx, hut⟩⟩
          · rw [update_of_ne hx]
        rw [hSame, h.queued]
        refine exists_update_iff ?_ ItemPlace.noConfusion
        rw [hPlace]
        rintro ⟨⟩
        exact hTaken ⟨rfl, rfl⟩
    bag_nodup := by
      intro x
      by_cases hx : x = v
      · rw [hx, update_self]
        exact hNodup.2
      · rw [update_of_ne hx]
        exact h.bag_nodup x
    held := by
      intro x s u
      by_cases hx : x = w
      · rw [hx, update_self]
        constructor
        · rintro ⟨⟩
          exact ⟨i, update_self _ _ _⟩
        · rintro ⟨j, hj⟩
          by_cases hji : j = i
          · rw [hji, update_self] at hj
            cases hj
            rfl
          · rw [update_of_ne hji] at hj
            have hHeld := (h.held w s u).mpr ⟨j, hj⟩
            rw [hIdle] at hHeld
            cases hHeld
      · rw [update_of_ne hx, h.held]
        refine exists_update_iff (ne_of_eq_of_ne hPlace ItemPlace.noConfusion) ?_
        rintro ⟨⟩
        exact hx rfl
    single := by simpa only [hTask] using h.single
    arg := by simpa only [hTask] using h.arg
    free := by simpa only [hTask] using h.free
    free_nodup := h.free_nodup }

section

variable (h : Items main bag hand pool argOf place) (hHand : hand w = some (stage, t))
  (hPlace : place i = .held stage w t)
include h hHand hPlace

theorem eq_of_held {j u : Nat} {s : TaskStage} (hj : place j = .held s w u) :
    j = i := by
  have hHeld := (h.held w s u).mpr ⟨j, hj⟩
  rw [hHand] at hHeld
  cases hHeld
  exact h.single j i t (by rw [hj]; rfl) (by rw [hPlace]; rfl)

theorem advance :
    Items main bag (update hand w (some (stage', t))) pool argOf
      (update place i (.held stage' w t)) := by
  have hTask := task_update (.held stage' w t) (hPlace ▸ rfl : _ = (place i).task)
  exact {
    submitting := fun j u => (h.submitting j u).trans
      (update_eq_iff (ne_of_eq_of_ne hPlace ItemPlace.noConfusion) ItemPlace.noConfusion).symm
    queued := fun x u => (h.queued x u).trans
      (exists_update_iff (ne_of_eq_of_ne hPlace ItemPlace.noConfusion) ItemPlace.noConfusion)
    bag_nodup := h.bag_nodup
    held := by
      intro x s u
      by_cases hx : x = w
      · rw [hx, update_self]
        constructor
        · rintro ⟨⟩
          exact ⟨i, update_self _ _ _⟩
        · rintro ⟨j, hj⟩
          by_cases hji : j = i
          · rw [hji, update_self] at hj
            cases hj
            rfl
          · rw [update_of_ne hji] at hj
            exact absurd (h.eq_of_held hHand hPlace hj) hji
      · rw [update_of_ne hx, h.held]
        apply exists_update_iff
        · rw [hPlace]
          rintro ⟨⟩
          exact hx rfl
        · rintro ⟨⟩
          exact hx rfl
    single := by simpa only [hTask] using h.single
    arg := by simpa only [hTask] using h.arg
    free := by simpa only [hTask] using h.free
    free_nodup := h.free_nodup }

theorem release :
    Items main bag (update hand w none) (t :: pool) argOf (update place i .done) := by
  have hOther : ∀ j u, (update place i .done j).task = some u →
      j ≠ i ∧ (place j).task = some u := by
    intro j u hj
    by_cases hji : j = i
    · rw [hji, update_self] at hj
      cases hj
    · rw [update_of_ne hji] at hj
      exact ⟨hji, hj⟩
  exact {
    submitting := fun j u => (h.submitting j u).trans
      (update_eq_iff (ne_of_eq_of_ne hPlace ItemPlace.noConfusion) ItemPlace.noConfusion).symm
    queued := fun x u => (h.queued x u).trans
      (exists_update_iff (ne_of_eq_of_ne hPlace ItemPlace.noConfusion) ItemPlace.noConfusion)
    bag_nodup := h.bag_nodup
    held := by
      intro x s u
      by_cases hx : x = w
      · rw [hx, update_self]
        constructor
        · exact nofun
        · rintro ⟨j, hj⟩
          by_cases hji : j = i
          · rw [hji, update_self] at hj
            cases hj
          · rw [update_of_ne hji] at hj
            exact absurd (h.eq_of_held hHand hPlace hj) hji
      · rw [update_of_ne hx, h.held]
        refine exists_update_iff ?_ ItemPlace.noConfusion
        rw [hPlace]
        rintro ⟨⟩
        exact hx rfl
    single := by
      intro j k u hj hk
      exact h.single j k u (hOther j u hj).2 (hOther k u hk).2
    arg := fun j u hj => h.arg j u (hOther j u hj).2
    free := by
      intro u hu j hj
      obtain ⟨hji, hTask⟩ := hOther j u hj
      rcases mem_cons.mp hu with rfl | hOld
      · exact hji (h.single j i u hTask (by rw [hPlace]; rfl))
      · exact h.free u hOld j hTask
    free_nodup := by
      refine nodup_cons.mpr ⟨fun hFree => ?_, h.free_nodup⟩
      exact h.free t hFree i (by rw [hPlace]; rfl) }

end

end Items

end Casprix.Ml
