import Casprix.Ml.TaskGraphRuns

/-! Every step of a run of the task graph keeps the books of launches, counters and
calls, so that each node is executed once and after its predecessors. -/
namespace Casprix.Ml

open Function List

variable {g : CpxTaskGraph} {x w : Nat} {value : NodePlace} {point : RunPoint}

variable {q i : Nat}

namespace Counts

variable {depCount : Nat → Int} {remaining remaining' : Nat → List Nat}
  {main main' : GraphRunPoint} {place : Nat → NodePlace}

section

variable (h : Counts g depCount remaining main place)
include h

theorem launch (hZero : depCount x = 0) (hx : x < g.numNodes) (hValue : value ≠ .waiting)
    (hScanned : main'.Scanned x) (hNew : ∀ j, main'.Scanned j → main.Scanned j ∨ j = x)
    (hMono : ∀ j, main.Scanned j → main'.Scanned j) :
    Counts g depCount remaining main' (update place x value) where
  counted := h.counted
  ready := by
    intro j hj
    by_cases hSame : j = x
    · rw [hSame]
      exact ⟨hZero, hx⟩
    · rw [update_of_ne hSame] at hj
      exact h.ready j hj
  blocked := by
    intro j hLt hScan hWaiting
    have hNe : j ≠ x := by
      rintro rfl
      rw [update_self] at hWaiting
      exact hValue hWaiting
    rw [update_of_ne hNe] at hWaiting
    exact h.blocked j hLt ((hNew j hScan).resolve_right hNe) hWaiting
  unscanned := by
    intro j hScan
    have hNe : j ≠ x := by
      rintro rfl
      exact hScan hScanned
    rw [update_of_ne hNe]
    exact h.unscanned j fun hBefore => hScan (hMono j hBefore)

theorem relocate (hPlace : place x ≠ .waiting)
    (hValue : value ≠ .waiting) (hScan : ∀ j, main'.Scanned j ↔ main.Scanned j) :
    Counts g depCount remaining main' (update place x value) := by
  have hScanned : main.Scanned x := by
    by_contra hNot
    exact hPlace (h.unscanned x hNot)
  exact h.launch (h.ready x hPlace).1 (h.ready x hPlace).2 hValue ((hScan x).mpr hScanned)
    (fun j hj => .inl ((hScan j).mp hj)) fun j hj => (hScan j).mpr hj

theorem advance (hNew : ∀ j < g.numNodes, main'.Scanned j → main.Scanned j ∨ depCount j ≠ 0)
    (hMono : ∀ j, main.Scanned j → main'.Scanned j) :
    Counts g depCount remaining main' place :=
  { h with
    blocked := by
      intro j hLt hScan hWaiting
      rcases hNew j hLt hScan with hBefore | hPositive
      · exact h.blocked j hLt hBefore hWaiting
      · exact hPositive
    unscanned := fun j hScan => h.unscanned j fun hBefore => hScan (hMono j hBefore) }

theorem counted_countDown (hq : q < g.numNodes) (hEdge : remaining q = x :: remaining' q)
    (hSame : ∀ p, p ≠ q → remaining p = remaining' p) (j : Nat) :
    update depCount x (depCount x - 1) j = edgesInto g.numNodes remaining' j := by
  have hSum : edgesInto g.numNodes remaining j =
      edgesInto g.numNodes remaining' j + if j = x then 1 else 0 := by
    apply edgesInto_of_count hq _ hSame
    rw [hEdge, count_cons]
    simp only [beq_iff_eq, @eq_comm _ j x]
  have hCounted := h.counted j
  rw [hSum] at hCounted
  by_cases hj : j = x
  · rw [hj, if_pos rfl] at hCounted
    rw [hj, update_self]
    omega
  · rw [if_neg hj, add_zero] at hCounted
    rw [update_of_ne hj]
    exact hCounted

theorem waiting_of_edge (hq : q < g.numNodes) (hEdge : x ∈ remaining q) : place x = .waiting := by
  by_contra hPlace
  have hZero := (h.ready x hPlace).1
  rw [h.counted, Int.natCast_eq_zero] at hZero
  exact notMem_of_edgesInto_eq_zero hZero hq hEdge

section

variable (hq : q < g.numNodes) (hEdge : remaining q = x :: remaining' q)
  (hSame : ∀ p, p ≠ q → remaining p = remaining' p)
include hq hEdge hSame

theorem countDown (hMore : depCount x - 1 ≠ 0) :
    Counts g (update depCount x (depCount x - 1)) remaining' main place where
  counted := h.counted_countDown hq hEdge hSame
  ready := by
    intro j hj
    have hNe : j ≠ x := by
      rintro rfl
      exact hj (h.waiting_of_edge hq (by rw [hEdge]; exact mem_cons_self))
    rw [update_of_ne hNe]
    exact h.ready j hj
  blocked := by
    intro j hLt hScan hWaiting
    by_cases hj : j = x
    · rw [hj, update_self]
      exact hMore
    · rw [update_of_ne hj]
      exact h.blocked j hLt hScan hWaiting
  unscanned := h.unscanned

theorem countDown_last (hLast : depCount x - 1 = 0) (hx : x < g.numNodes)
    (hScanned : main.Scanned x) (hValue : value ≠ .waiting) :
    Counts g (update depCount x (depCount x - 1)) remaining' main (update place x value) where
  counted := h.counted_countDown hq hEdge hSame
  ready := by
    intro j hj
    by_cases hSameNode : j = x
    · rw [hSameNode, update_self]
      exact ⟨hLast, hx⟩
    · rw [update_of_ne hSameNode] at hj ⊢
      exact h.ready j hj
  blocked := by
    intro j hLt hScan hWaiting
    have hNe : j ≠ x := by
      rintro rfl
      rw [update_self] at hWaiting
      exact hValue hWaiting
    rw [update_of_ne hNe] at hWaiting ⊢
    exact h.blocked j hLt hScan hWaiting
  unscanned := by
    intro j hScan
    have hNe : j ≠ x := by
      rintro rfl
      exact hScan hScanned
    rw [update_of_ne hNe]
    exact h.unscanned j hScan

end

end

end Counts

namespace History

variable {thread : Nat → RunPoint} {started finished : List Nat} {place : Nat → NodePlace}

section

variable (h : History g thread started finished place)
include h

theorem relocate (hOld : (place x).Unstarted)
    (hNew : value.Unstarted) : History g thread started finished (update place x value) := by
  have hRunning : ∀ p v, update place x value p = .running v ↔ place p = .running v := by
    intro p v
    apply NodePlace.update_eq_iff
    · rintro rfl
      exact hNew
    · intro hPlace
      rw [hPlace] at hOld
      exact hOld
  have hDone : ∀ p, update place x value p = .done ↔ place p = .done := by
    intro p
    apply NodePlace.update_eq_iff
    · rintro rfl
      exact hNew
    · intro hPlace
      rw [hPlace] at hOld
      exact hOld
  exact { h with
    called := by
      intro p hp
      rw [hDone]
      apply (h.called p hp).imp_right
      rintro ⟨v, hPlace, hPast⟩
      exact ⟨v, (hRunning p v).mpr hPlace, hPast⟩
    done := fun p hp => h.done p ((hDone p).mp hp)
    returned := fun p v hp => h.returned p v ((hRunning p v).mp hp) }

theorem called_setThread (hPoint : ∀ p, point ≠ .call p) {p : Nat} (hp : p ∈ started) :
    place p = .done ∨ ∃ v, place p = .running v ∧ update thread w point v ≠ .call p := by
  apply (h.called p hp).imp_right
  rintro ⟨v, hPlace, hCalled⟩
  refine ⟨v, hPlace, ?_⟩
  by_cases hv : v = w
  · rw [hv, update_self]
    exact hPoint p
  · rw [update_of_ne hv]
    exact hCalled

theorem setThread (hPast : ∀ p, thread w ≠ .call p ∧ thread w ≠ .body p)
    (hPoint : ∀ p, point ≠ .call p) :
    History g (update thread w point) started finished place :=
  { h with
    called := fun _ hp => h.called_setThread hPoint hp
    returned := by
      intro p v hp hCall hBody
      by_cases hv : v = w
      · rw [hv] at hp
        exact h.returned p w hp (hPast p).1 (hPast p).2
      · rw [update_of_ne hv] at hCall hBody
        exact h.returned p v hp hCall hBody }

theorem take (hUnstarted : (place x).Unstarted) (hIdle : ∀ p, place p ≠ .running w) :
    History g (update thread w (.call x)) started finished (update place x (.running w)) := by
  have hNotDone : place x ≠ .done := by
    intro hPlace
    rw [hPlace] at hUnstarted
    exact hUnstarted
  exact { h with
    called := by
      intro p hp
      have hNe : p ≠ x := by
        rintro rfl
        rcases h.called p hp with hDone | ⟨v, hRunning, _⟩
        · exact hNotDone hDone
        · rw [hRunning] at hUnstarted
          exact hUnstarted
      rw [update_of_ne hNe]
      apply (h.called p hp).imp_right
      rintro ⟨v, hPlace, hCalled⟩
      have hv : v ≠ w := by
        rintro rfl
        exact hIdle p hPlace
      refine ⟨v, hPlace, ?_⟩
      rw [update_of_ne hv]
      exact hCalled
    done := fun p hp => h.done p ((NodePlace.update_eq_iff NodePlace.noConfusion hNotDone).mp hp)
    returned := by
      intro p v hp hCall hBody
      by_cases hNe : p = x
      · rw [hNe, update_self] at hp
        cases hp
        rw [update_self, hNe] at hCall
        exact absurd rfl hCall
      · rw [update_of_ne hNe] at hp
        have hv : v ≠ w := by
          rintro rfl
          exact hIdle p hp
        rw [update_of_ne hv] at hCall hBody
        exact h.returned p v hp hCall hBody }

end

section

variable (h : History g thread started finished place)
include h

/-- The function of a node is called after those of its predecessors have returned. -/
theorem call (hPoint : thread w = .call x)
    (hPlace : place x = .running w) (hReady : ∀ p, x ∈ g.successors p → p ∈ finished) :
    History g (update thread w (.body x)) (started ++ [x]) finished place := by
  have hFresh : x ∉ started := by
    intro hx
    rcases h.called x hx with hDone | ⟨v, hRunning, hCalled⟩
    · rw [hPlace] at hDone
      cases hDone
    · rw [hPlace] at hRunning
      cases hRunning
      exact hCalled hPoint
  exact {
    called := by
      intro p hp
      rcases mem_append.mp hp with hOld | hNew
      · exact h.called_setThread (fun _ => RunPoint.noConfusion) hOld
      · rw [mem_singleton.mp hNew]
        refine .inr ⟨w, hPlace, ?_⟩
        rw [update_self]
        exact RunPoint.noConfusion
    nodup := by
      rw [nodup_append]
      refine ⟨h.nodup, nodup_singleton _, ?_⟩
      intro p hp q hq hSame
      rw [hSame, mem_singleton.mp hq] at hp
      exact hFresh hp
    done := h.done
    returned := by
      intro p v hp hCall hBody
      by_cases hv : v = w
      · rw [hv, update_self] at hBody
        rw [hv] at hp
        have hNe : p ≠ x := by
          rintro rfl
          exact hBody rfl
        apply h.returned p w hp
        · rw [hPoint]
          rintro ⟨⟩
          exact hNe rfl
        · rw [hPoint]
          exact RunPoint.noConfusion
      · rw [update_of_ne hv] at hCall hBody
        exact h.returned p v hp hCall hBody
    ordered := by
      intro j hj p hp
      rcases mem_append.mp hj with hOld | hNew
      · exact h.ordered j hOld p hp
      · rw [mem_singleton.mp hNew] at hp
        exact hReady p hp }

theorem bodyReturns (hOnly : ∀ p, place p = .running w → p = x) :
    History g (update thread w (.successor x 0)) started (finished ++ [x]) place where
  called := fun _ hp => h.called_setThread (fun _ => RunPoint.noConfusion) hp
  nodup := h.nodup
  done := fun p hp => mem_append_left _ (h.done p hp)
  returned := by
    intro p v hp hCall hBody
    by_cases hv : v = w
    · rw [hv] at hp
      exact mem_append_right _ (mem_singleton.mpr (hOnly p hp))
    · rw [update_of_ne hv] at hCall hBody
      exact mem_append_left _ (h.returned p v hp hCall hBody)
  ordered := fun j hj p hp => mem_append_left _ (h.ordered j hj p hp)

theorem finish (hPoint : thread w = .countDown x)
    (hPlace : place x = .running w) (hOnly : ∀ p, place p = .running w → p = x) :
    History g (update thread w .release) started finished (update place x .done) where
  called := by
    intro p hp
    by_cases hNe : p = x
    · rw [hNe, update_self]
      exact .inl rfl
    · rw [update_of_ne hNe]
      apply (h.called p hp).imp_right
      rintro ⟨v, hRunning, hCalled⟩
      have hv : v ≠ w := by
        rintro rfl
        exact hNe (hOnly p hRunning)
      refine ⟨v, hRunning, ?_⟩
      rw [update_of_ne hv]
      exact hCalled
  nodup := h.nodup
  done := by
    intro p hp
    by_cases hNe : p = x
    · rw [hNe]
      apply h.returned x w hPlace
      · rw [hPoint]
        exact RunPoint.noConfusion
      · rw [hPoint]
        exact RunPoint.noConfusion
    · rw [update_of_ne hNe] at hp
      exact h.done p hp
  returned := by
    intro p v hp hCall hBody
    have hNe : p ≠ x := by
      rintro rfl
      rw [update_self] at hp
      cases hp
    rw [update_of_ne hNe] at hp
    have hv : v ≠ w := by
      rintro rfl
      exact hNe (hOnly p hp)
    rw [update_of_ne hv] at hCall hBody
    exact h.returned p v hp hCall hBody
  ordered := h.ordered

end

end History

namespace GraphRun

/-- A step that counts an edge down to zero finds its node already looked at by the
submission loop. -/
def CountsDownScanned (g : CpxTaskGraph) (act : GraphAct) (s : GraphRun) : Prop :=
  match act with
  | .run w =>
    match s.thread w with
    | .successor node i =>
      match (g.successors node)[i]? with
      | some succ => s.depCount succ - 1 = 0 → s.main.Scanned succ
      | none => True
    | _ => True
  | _ => True

/-- Whether the condition holds of a thread at a point. -/
def decideCountsDownScanned (g : CpxTaskGraph) (act : GraphAct) (s : GraphRun) :
    Decidable (CountsDownScanned g act s) :=
  match act with
  | .main => isTrue trivial
  | .take _ _ _ => isTrue trivial
  | .run w =>
    match hPoint : s.thread w with
    | .successor node i =>
      match hEdge : (g.successors node)[i]? with
      | some succ =>
        decidable_of_iff (s.depCount succ - 1 = 0 → s.main.Scanned succ)
          (by simp only [CountsDownScanned, hPoint, hEdge])
      | none => isTrue (by simp only [CountsDownScanned, hPoint, hEdge])
    | .idle => isTrue (by simp only [CountsDownScanned, hPoint])
    | .call _ => isTrue (by simp only [CountsDownScanned, hPoint])
    | .body _ => isTrue (by simp only [CountsDownScanned, hPoint])
    | .alloc _ _ _ => isTrue (by simp only [CountsDownScanned, hPoint])
    | .push _ _ _ => isTrue (by simp only [CountsDownScanned, hPoint])
    | .countDown _ => isTrue (by simp only [CountsDownScanned, hPoint])
    | .release => isTrue (by simp only [CountsDownScanned, hPoint])

instance (g : CpxTaskGraph) (act : GraphAct) (s : GraphRun) :
    Decidable (CountsDownScanned g act s) := decideCountsDownScanned g act s

variable {s s' : GraphRun} {place : Nat → NodePlace}

section

variable (h : s.Good g place)
include h

theorem Good.only (hNode : (s.thread w).node = some x) :
    place x = .running w ∧ ∀ p, place p = .running w → p = x := by
  refine ⟨(h.tokens.running x w).mpr hNode, fun p hp => ?_⟩
  have hOther := (h.tokens.running p w).mp hp
  rw [hNode] at hOther
  cases hOther
  rfl

theorem Good.relocate (hOld : (place x).Unstarted) (hNew : value.Unstarted)
    (hTokens : Tokens s'.main.submits s'.thread s'.queued (update place x value))
    (hCounts : Counts g s'.depCount (remainingEdges g s'.thread place) s'.main (update place x
      value)) (hHistory : History g s'.thread s'.started s'.finished place)
    (hDone : s'.graphDone = s.graphDone) (hStopped : s'.main = .returned → s'.graphDone ≤ 0) :
    s'.Good g (update place x value) where
  tokens := hTokens
  counts := by
    rw [remainingEdges_relocate hOld hNew]
    exact hCounts
  history := hHistory.relocate hOld hNew
  graphDone := by
    rw [doneCount_relocate hOld.ne_done hNew.ne_done, hDone]
    exact h.graphDone
  stopped := hStopped

theorem Good.moveMain {main : GraphRunPoint}
    (hBefore : s.main.submits = none) (hAfter : main.submits = none)
    (hNew : ∀ j < g.numNodes, main.Scanned j → s.main.Scanned j ∨ s.depCount j ≠ 0)
    (hMono : ∀ j, s.main.Scanned j → main.Scanned j)
    (hStopped : main = .returned → s.graphDone ≤ 0) :
    ({ s with main := main } : GraphRun).Good g place :=
  { h with
    tokens := by
      show Tokens main.submits s.thread s.queued place
      rw [hAfter, ← hBefore]
      exact h.tokens
    counts := h.counts.advance hNew hMono
    stopped := hStopped }

theorem Good.launchMain (hMain : s.main = .scan i) (hi : i < g.numNodes)
    (hZero : s.depCount i = 0) :
    ({ s with main := .alloc i } : GraphRun).Good g (update place i .submitting) := by
  have hTokens := h.tokens
  have hWaiting : place i = .waiting := by
    apply h.counts.unscanned
    rw [hMain]
    exact lt_irrefl i
  have hOld : (place i).Unstarted := by
    rw [hWaiting]
    trivial
  rw [hMain] at hTokens
  apply h.relocate hOld
  · trivial
  · exact hTokens.putMain (.inl hWaiting)
  · apply h.counts.launch hZero hi NodePlace.noConfusion
    · exact le_refl i
    · intro j hj
      rw [hMain]
      exact lt_or_eq_of_le hj
    · intro j hj
      rw [hMain] at hj
      exact hj.le
  · exact h.history
  · rfl
  · exact fun hEnd => GraphRunPoint.noConfusion hEnd

end

theorem Good.leaveMain {queued : List (Nat × Nat)} (value : NodePlace) (h : s.Good g place)
    (hSubmits : s.main.submits = some i) (hScan : ∀ j, j ≤ i ↔ s.main.Scanned j)
    (hNew : value.Unstarted) (hValue : value ≠ .waiting)
    (hTokens : Tokens none s.thread queued (update place i value)) :
    ({ s with queued := queued, main := .scan (i + 1) } : GraphRun).Good g
      (update place i value) := by
  have hPlace : place i = .submitting := h.tokens.submitting i hSubmits
  have hOld : (place i).Unstarted := by
    rw [hPlace]
    trivial
  apply h.relocate hOld hNew
  · exact hTokens
  · apply h.counts.relocate _ hValue
    · intro j
      rw [← hScan]
      exact Nat.lt_succ_iff
    · rw [hPlace]
      exact NodePlace.noConfusion
  · exact h.history
  · rfl
  · exact fun hEnd => GraphRunPoint.noConfusion hEnd

theorem Good.mainStep (h : s.Good g place) (hStep : s.mainStep g = some s') :
    ∃ place', s'.Good g place' := by
  rw [GraphRun.mainStep] at hStep
  have hTokens := h.tokens
  generalize hMain : s.main = main at hStep hTokens ⊢
  cases main with
  | scan i =>
    by_cases hMore : i < g.numNodes
    · replace hStep := (if_pos hMore).symm.trans hStep
      by_cases hZero : s.depCount i = 0
      · cases (if_pos hZero).symm.trans hStep
        exact ⟨_, h.launchMain hMain hMore hZero⟩
      · cases (if_neg hZero).symm.trans hStep
        refine ⟨place, h.moveMain (by rw [hMain]; rfl) rfl ?_ ?_ GraphRunPoint.noConfusion⟩
        · intro j _ hj
          rw [hMain]
          rcases Nat.lt_succ_iff_lt_or_eq.mp hj with hLt | hEq
          · exact .inl hLt
          · rw [hEq]
            exact .inr hZero
        · intro j hj
          rw [hMain] at hj
          exact Nat.lt_succ_of_lt hj
    · cases (if_neg hMore).symm.trans hStep
      refine ⟨place, h.moveMain (by rw [hMain]; rfl) rfl ?_ (fun _ _ => trivial)
        GraphRunPoint.noConfusion⟩
      intro j hj _
      rw [hMain]
      exact .inl (hj.trans_le (Nat.le_of_not_lt hMore))
  | alloc i =>
    by_cases hFull : s.freeTasks = 0
    · cases (if_pos hFull).symm.trans hStep
      exact ⟨_, h.leaveMain .dropped (by rw [hMain]; rfl) (fun j => by rw [hMain]; rfl) trivial
        NodePlace.noConfusion hTokens.dropMain⟩
    · cases (if_neg hFull).symm.trans hStep
      refine ⟨place, hTokens, ?_, h.history, h.graphDone, fun hEnd =>
        GraphRunPoint.noConfusion hEnd⟩
      apply h.counts.advance
      · intro j _ hj
        rw [hMain]
        exact .inl hj
      · intro j hj
        rw [hMain] at hj
        exact hj
  | push i =>
    cases hStep
    have hDropped : (update place i .dropped i).Loose := by
      rw [update_self]
      exact .inr (.inl rfl)
    have hQueued := hTokens.dropMain.putQueue (w := 0) hDropped
    rw [update_idem] at hQueued
    exact ⟨_, h.leaveMain .queued (by rw [hMain]; rfl) (fun j => by rw [hMain]; rfl) trivial
      NodePlace.noConfusion hQueued⟩
  | wait =>
    have hScanned : ∀ j, s.main.Scanned j := by
      intro j
      rw [hMain]
      trivial
    by_cases hMore : s.graphDone > 0
    · cases (if_pos hMore).symm.trans hStep
      exact ⟨place, h.moveMain (by rw [hMain]; rfl) rfl (fun j _ _ => .inl (hScanned j))
        (fun _ _ => trivial) GraphRunPoint.noConfusion⟩
    · cases (if_neg hMore).symm.trans hStep
      exact ⟨place, h.moveMain (by rw [hMain]; rfl) rfl (fun j _ _ => .inl (hScanned j))
        (fun _ _ => trivial) fun _ => not_lt.mp hMore⟩
  | help =>
    cases hStep
    have hScanned : ∀ j, s.main.Scanned j := by
      intro j
      rw [hMain]
      trivial
    exact ⟨place, h.moveMain (by rw [hMain]; rfl) rfl (fun j _ _ => .inl (hScanned j))
      (fun _ _ => trivial) GraphRunPoint.noConfusion⟩
  | returned =>
    cases hStep

theorem Good.setThread (h : s.Good g place) (freeTasks : Nat) {started finished : List Nat}
    (hNode : point.node = (s.thread w).node)
    (hSubmits : ∀ p, point.submits = some p → (s.thread w).submits = some p)
    (hRemaining : point.remaining g = (s.thread w).remaining g)
    (hHistory : History g (update s.thread w point) started finished place) :
    ({ s.setThread w point with freeTasks, started, finished } : GraphRun).Good g place :=
  { h with
    tokens := h.tokens.setThread hNode fun p hp => h.tokens.pushing p w (hSubmits p hp)
    counts := by
      show Counts g s.depCount (remainingEdges g (update s.thread w point) place) s.main place
      rw [remainingEdges_setThread hRemaining]
      exact h.counts
    history := hHistory }

theorem RunPoint.past_of_submits (hSubmits : point.submits = some x) (p : Nat) :
    point ≠ .call p ∧ point ≠ .body p := by
  constructor
  · rintro rfl
    cases hSubmits
  · rintro rfl
    cases hSubmits

theorem Good.leaveThread {queued : List (Nat × Nat)} {node : Nat} (value : NodePlace)
    (h : s.Good g place) (hSubmits : (s.thread w).submits = some x)
    (hRemaining : (g.successors node).drop (i + 1) = (s.thread w).remaining g)
    (hNew : value.Unstarted) (hValue : value ≠ .waiting)
    (hTokens : Tokens s.main.submits (update s.thread w (.successor node (i + 1))) queued
      (update place x value)) :
    ({ s.setThread w (.successor node (i + 1)) with queued := queued } : GraphRun).Good g
      (update place x value) := by
  have hPlace : place x = .pushing w := h.tokens.pushing x w hSubmits
  have hOld : (place x).Unstarted := by
    rw [hPlace]
    trivial
  apply h.relocate hOld hNew
  · exact hTokens
  · show Counts g s.depCount
      (remainingEdges g (update s.thread w (.successor node (i + 1))) place) s.main _
    have hSame : remainingEdges g (update s.thread w (.successor node (i + 1))) place =
        remainingEdges g s.thread place := remainingEdges_setThread hRemaining
    rw [hSame]
    exact h.counts.relocate (by rw [hPlace]; exact NodePlace.noConfusion) hValue fun _ => Iff.rfl
  · exact h.history.setThread (RunPoint.past_of_submits hSubmits) fun _ => RunPoint.noConfusion
  · rfl
  · exact h.stopped

/-- The predecessors of a node that runs have returned. -/
theorem Good.predecessors (hBuilt : g.WellBuilt) (h : s.Good g place)
    (hPlace : place x = .running w)
    {p : Nat} (hp : x ∈ g.successors p) : p ∈ s.finished := by
  have hZero := (h.counts.ready x (by rw [hPlace]; exact NodePlace.noConfusion)).1
  rw [h.counts.counted, Int.natCast_eq_zero] at hZero
  have hNone : x ∉ remainingEdges g s.thread place p :=
    notMem_of_edgesInto_eq_zero hZero (hBuilt.edge p x hp).1
  cases hp' : place p with
  | done => exact h.history.done p hp'
  | running v =>
    rw [remainingEdges_running hp'] at hNone
    apply h.history.returned p v hp'
    all_goals
      intro hPoint
      rw [hPoint] at hNone
      exact hNone hp
  | _ =>
    rw [remainingEdges_unstarted (by rw [hp']; trivial)] at hNone
    exact absurd hp hNone

/-- An edge is counted down, which launches its end if it was the last one. -/
theorem Good.countEdge {node succ : Nat} (hBuilt : g.WellBuilt) (h : s.Good g place)
    (hPoint : s.thread w = .successor node i) (hEdge : (g.successors node)[i]? = some succ)
    (hScanned : s.depCount succ - 1 = 0 → s.main.Scanned succ) :
    ∃ place', ({ s.setThread w (if s.depCount succ - 1 = 0 then .alloc node i succ
        else .successor node (i + 1)) with
      depCount := update s.depCount succ (s.depCount succ - 1) } : GraphRun).Good g
        place' := by
  have hNode : (s.thread w).node = some node := by
    rw [hPoint]
    rfl
  obtain ⟨hPlace, hOnly⟩ := h.only hNode
  have hPast : ∀ p, s.thread w ≠ .call p ∧ s.thread w ≠ .body p := by
    intro p
    rw [hPoint]
    exact ⟨RunPoint.noConfusion, RunPoint.noConfusion⟩
  obtain ⟨hi, hSucc⟩ := List.getElem?_eq_some_iff.mp hEdge
  have hMem : succ ∈ g.successors node := mem_of_getElem? hEdge
  have hLt := hBuilt.edge node succ hMem
  have hBefore : remainingEdges g s.thread place node =
      succ :: (g.successors node).drop (i + 1) := by
    rw [remainingEdges_running hPlace, hPoint, RunPoint.remaining, drop_eq_getElem_cons hi, hSucc]
  have hWaiting : place succ = .waiting :=
    h.counts.waiting_of_edge hLt.1 (by rw [hBefore]; exact mem_cons_self)
  -- Both outcomes leave the same edges of the node.
  have hAfter : ∀ point : RunPoint, point.remaining g = (g.successors node).drop (i + 1) →
      remainingEdges g s.thread place node =
        succ :: remainingEdges g (update s.thread w point) place node := by
    intro point hRemaining
    rw [hBefore, remainingEdges_running hPlace, update_self, hRemaining]
  have hOthers : ∀ (point : RunPoint) (p : Nat), p ≠ node →
      remainingEdges g s.thread place p = remainingEdges g (update s.thread w point) place p := by
    intro point p hp
    exact (remainingEdges_setThread_of_ne point fun hRunning => hp (hOnly p hRunning)).symm
  by_cases hLast : s.depCount succ - 1 = 0
  · rw [if_pos hLast]
    have hOld : (place succ).Unstarted := by
      rw [hWaiting]
      trivial
    refine ⟨update place succ (.pushing w), ?_⟩
    apply h.relocate hOld
    · trivial
    · exact h.tokens.putThread (.inl hWaiting) (by rw [hNode]; rfl) rfl
    · exact h.counts.countDown_last hLt.1 (hAfter _ rfl) (hOthers _) hLast hLt.2 (hScanned hLast)
        NodePlace.noConfusion
    · exact h.history.setThread hPast fun _ => RunPoint.noConfusion
    · rfl
    · exact h.stopped
  · rw [if_neg hLast]
    refine ⟨place, ?_⟩
    exact { h with
      tokens := h.tokens.setThread (by rw [hNode]; rfl) nofun
      counts := h.counts.countDown hLt.1 (hAfter _ rfl) (hOthers _) hLast
      history := h.history.setThread hPast fun _ => RunPoint.noConfusion }

theorem Good.countNode {node : Nat} (h : s.Good g place) (hPoint : s.thread w = .countDown node) :
    ({ s.setThread w .release with graphDone := s.graphDone - 1 } : GraphRun).Good g
      (update place node .done) := by
  have hNode : (s.thread w).node = some node := by
    rw [hPoint]
    rfl
  obtain ⟨hPlace, hOnly⟩ := h.only hNode
  have hNotWaiting : place node ≠ .waiting := by
    rw [hPlace]
    exact NodePlace.noConfusion
  have hSame : remainingEdges g (update s.thread w .release)
      (update place node .done) = remainingEdges g s.thread place := by
    funext p
    by_cases hp : p = node
    · rw [hp, remainingEdges_running hPlace, hPoint, remainingEdges, update_self]
      rfl
    · rw [← remainingEdges_setThread_of_ne .release fun hRunning => hp (hOnly p hRunning)]
      rw [remainingEdges, remainingEdges, update_of_ne hp]
  exact {
    tokens := h.tokens.finish hNode rfl rfl
    counts := by
      show Counts g s.depCount (remainingEdges g (update s.thread w .release)
        (update place node .done)) s.main _
      rw [hSame]
      exact h.counts.relocate hNotWaiting NodePlace.noConfusion fun _ => Iff.rfl
    history := h.history.finish hPoint hPlace hOnly
    graphDone := by
      have hDone := h.graphDone
      have hNotDone : place node ≠ .done := by
        rw [hPlace]
        exact NodePlace.noConfusion
      have hCount := doneCount_done hNotDone (h.counts.ready node hNotWaiting).2
      show s.graphDone - 1 = _
      rw [hCount]
      omega
    stopped := by
      intro hEnd
      have hStopped := h.stopped hEnd
      show s.graphDone - 1 ≤ 0
      omega }

theorem Good.runStep (hBuilt : g.WellBuilt) (h : s.Good g place)
    (hScanned : CountsDownScanned g (.run w) s) (hStep : s.runStep g w = some s') :
    ∃ place', s'.Good g place' := by
  rw [GraphRun.runStep] at hStep
  generalize hPoint : s.thread w = thread at hStep ⊢
  cases thread with
  | idle =>
    cases hStep
  | call node =>
    cases hStep
    have hNode : (s.thread w).node = some node := by
      rw [hPoint]
      rfl
    obtain ⟨hPlace, hOnly⟩ := h.only hNode
    exact ⟨place, h.setThread s.freeTasks (by rw [hNode]; rfl)
      nofun (by rw [hPoint]; rfl)
      (h.history.call hPoint hPlace fun p hp => h.predecessors hBuilt hPlace hp)⟩
  | body node =>
    cases hStep
    have hNode : (s.thread w).node = some node := by
      rw [hPoint]
      rfl
    obtain ⟨hPlace, hOnly⟩ := h.only hNode
    exact ⟨place, h.setThread s.freeTasks (by rw [hNode]; rfl)
      nofun (by rw [hPoint]; rfl)
      (h.history.bodyReturns hOnly)⟩
  | successor node i =>
    cases hEdge : (g.successors node)[i]? with
    | none =>
      simp only [hEdge] at hStep
      cases hStep
      refine ⟨place, h.setThread s.freeTasks (by rw [hPoint]; rfl)
        nofun ?_
        (h.history.setThread ?_ fun _ => RunPoint.noConfusion)⟩
      · rw [hPoint]
        exact (drop_eq_nil_of_le (List.getElem?_eq_none_iff.mp hEdge)).symm
      · rw [hPoint]
        exact fun _ => ⟨RunPoint.noConfusion, RunPoint.noConfusion⟩
    | some succ =>
      simp only [hEdge] at hStep
      cases hStep
      simp only [CountsDownScanned, hPoint, hEdge] at hScanned
      exact h.countEdge hBuilt hPoint hEdge hScanned
  | alloc node i succ =>
    have hSubmits : (s.thread w).submits = some succ := by
      rw [hPoint]
      rfl
    by_cases hFull : s.freeTasks = 0
    · cases (if_pos hFull).symm.trans hStep
      exact ⟨_, h.leaveThread .dropped hSubmits (by rw [hPoint]; rfl) trivial
        NodePlace.noConfusion (h.tokens.dropThread hSubmits (by rw [hPoint]; rfl) rfl)⟩
    · cases (if_neg hFull).symm.trans hStep
      refine ⟨place, h.setThread (s.freeTasks - 1) (by rw [hPoint]; rfl) ?_ (by rw [hPoint]; rfl)
        (h.history.setThread (RunPoint.past_of_submits hSubmits) fun _ => RunPoint.noConfusion)⟩
      rw [hPoint]
      exact fun p hp => hp
  | push node i succ =>
    cases hStep
    have hSubmits : (s.thread w).submits = some succ := by
      rw [hPoint]
      rfl
    have hLeft : Tokens s.main.submits (update s.thread w (.successor node (i + 1)))
        s.queued (update place succ .dropped) :=
      h.tokens.dropThread hSubmits (by rw [hPoint]; rfl) rfl
    have hDropped : (update place succ .dropped succ).Loose := by
      rw [update_self]
      exact .inr (.inl rfl)
    have hQueued := hLeft.putQueue (w := w) hDropped
    rw [update_idem] at hQueued
    exact ⟨_, h.leaveThread .queued hSubmits (by rw [hPoint]; rfl) trivial
      NodePlace.noConfusion hQueued⟩
  | countDown node =>
    cases hStep
    exact ⟨_, h.countNode hPoint⟩
  | release =>
    cases hStep
    refine ⟨place, h.setThread (s.freeTasks + 1) (by rw [hPoint]; rfl)
      nofun (by rw [hPoint]; rfl)
      (h.history.setThread ?_ fun _ => RunPoint.noConfusion)⟩
    rw [hPoint]
    exact fun _ => ⟨RunPoint.noConfusion, RunPoint.noConfusion⟩

theorem Good.take {v : Nat} {main : GraphRunPoint} (h : s.Good g place) (hIdle : s.thread w = .idle)
    (hQueued : (v, x) ∈ s.queued) (hMain : main = s.main ∨ (s.main = .help ∧ main = .wait)) :
    ({ s.setThread w (.call x) with
      queued := s.queued.erase (v, x), main := main } : GraphRun).Good g
        (update place x (.running w)) := by
  have hPlace : place x = .queued := h.tokens.stored _ hQueued
  have hNode : (s.thread w).node = none := by
    rw [hIdle]
    rfl
  have hIdlePlace : ∀ p, place p ≠ .running w := by
    intro p hp
    rw [(h.tokens.running p w).mp hp] at hNode
    cases hNode
  have hUnstarted : (place x).Unstarted := by
    rw [hPlace]
    trivial
  have hSubmits : main.submits = s.main.submits := by
    rcases hMain with rfl | ⟨hHelp, rfl⟩
    · rfl
    · rw [hHelp]
      rfl
  have hScan : ∀ j, main.Scanned j ↔ s.main.Scanned j := by
    intro j
    rcases hMain with rfl | ⟨hHelp, rfl⟩
    · exact Iff.rfl
    · rw [hHelp]
      exact Iff.rfl
  have hSame : remainingEdges g (update s.thread w (.call x))
      (update place x (.running w)) = remainingEdges g s.thread place := by
    funext p
    by_cases hp : p = x
    · rw [hp, remainingEdges_unstarted hUnstarted, remainingEdges_running (update_self _ _ _),
        update_self]
      rfl
    · rw [← remainingEdges_setThread_of_ne (.call x) (hIdlePlace p)]
      rw [remainingEdges, remainingEdges, update_of_ne hp]
  exact {
    tokens := by
      show Tokens main.submits _ _ _
      rw [hSubmits]
      exact h.tokens.take hQueued hNode rfl rfl
    counts := by
      show Counts g s.depCount (remainingEdges g (update s.thread w (.call x))
        (update place x (.running w))) main _
      rw [hSame]
      exact h.counts.relocate (by
        rw [hPlace]; exact NodePlace.noConfusion) NodePlace.noConfusion hScan
    history := h.history.take hUnstarted hIdlePlace
    graphDone := by
      rw [doneCount_relocate hUnstarted.ne_done NodePlace.noConfusion]
      exact h.graphDone
    stopped := by
      intro hEnd
      rcases hMain with rfl | ⟨_, rfl⟩
      · exact h.stopped hEnd
      · cases hEnd }

/-- Every step keeps the books, if it counts down only what was looked at. -/
theorem Good.graphStep {act : GraphAct} (hBuilt : g.WellBuilt) (h : s.Good g place)
    (hScanned : CountsDownScanned g act s) (hStep : graphStep g act s = some s') :
    ∃ place', s'.Good g place' := by
  cases act with
  | main =>
    by_cases hIdle : s.thread 0 = .idle
    · exact h.mainStep ((if_pos hIdle).symm.trans hStep)
    · cases (if_neg hIdle).symm.trans hStep
  | take w v node =>
    rw [Ml.graphStep] at hStep
    by_cases hTake : s.thread w = .idle ∧ (v, node) ∈ s.queued ∧ (w = 0 → s.main = .help)
    · cases (if_pos hTake).symm.trans hStep
      obtain ⟨hIdle, hQueued, hHelp⟩ := hTake
      refine ⟨_, h.take hIdle hQueued ?_⟩
      by_cases hw : w = 0
      · rw [if_pos hw]
        exact .inr ⟨hHelp hw, rfl⟩
      · rw [if_neg hw]
        exact .inl rfl
    · cases (if_neg hTake).symm.trans hStep
  | run w => exact h.runStep hBuilt hScanned hStep

theorem good_cpxTaskgraphRun (hBuilt : g.WellBuilt) (freeTasks : Nat) :
    (cpxTaskgraphRun g freeTasks).Good g fun _ => .waiting where
  tokens := {
    running := fun p w => ⟨fun h => NodePlace.noConfusion h, nofun⟩
    pushing := nofun
    submitting := nofun
    stored := nofun
    nodup := nodup_nil }
  counts := {
    counted := hBuilt.depCount_eq
    ready := fun j h => absurd rfl h
    blocked := nofun
    unscanned := fun _ _ => rfl }
  history := {
    called := nofun
    nodup := nodup_nil
    done := fun p h => NodePlace.noConfusion h
    returned := fun p w h => NodePlace.noConfusion h
    ordered := nofun }
  graphDone := by
    have hNone : doneCount g.numNodes (fun _ => .waiting) = 0 := by
      rw [doneCount, Finset.card_eq_zero]
      exact Finset.filter_eq_empty_iff.mpr fun p _ h => NodePlace.noConfusion h
    rw [hNone]
    exact (sub_zero _).symm
  stopped := fun h => GraphRunPoint.noConfusion h

/-- The run executes each node at most once, after its predecessors, and has executed
all of them when it returns. -/
structure OnceInOrder (g : CpxTaskGraph) (s : GraphRun) : Prop where
  once : s.started.Nodup
  ordered : ∀ j ∈ s.started, ∀ p, j ∈ g.successors p → p ∈ s.finished
  all : s.main = .returned → ∀ j < g.numNodes, j ∈ s.finished

theorem Good.onceInOrder (h : s.Good g place) : s.OnceInOrder g where
  once := h.history.nodup
  ordered := h.history.ordered
  all := by
    intro hEnd j hj
    have hStopped := h.stopped hEnd
    have hDone := h.graphDone
    exact h.history.done j (done_of_doneCount (by omega) hj)

end GraphRun

/-- Every graph that is built runs each node once and in order, in every interleaving
in which no node is counted down to zero before the submission loop has looked at it. -/
theorem taskgraph_once_in_order {maxNodes freeTasks : Nat} {calls : List GraphCall}
    {g : CpxTaskGraph} {schedule : List GraphAct} {s : GraphRun}
    (hBuild : Library.runCalls (graphCall maxNodes) calls cpxTaskgraphInit = some g)
    (hMeet : Library.CallsMeet (graphStep g) (GraphRun.CountsDownScanned g) schedule
      (cpxTaskgraphRun g freeTasks))
    (hRun : Library.runCalls (graphStep g) schedule (cpxTaskgraphRun g freeTasks) = some s) :
    s.OnceInOrder g := by
  have hBuilt := CpxTaskGraph.wellBuilt_of_runCalls hBuild
  have hStart : ∃ place, (cpxTaskgraphRun g freeTasks).Good g place :=
    ⟨_, GraphRun.good_cpxTaskgraphRun hBuilt freeTasks⟩
  have hKeep : ∀ act c d, (∃ place, c.Good g place) → GraphRun.CountsDownScanned g act c →
      graphStep g act c = some d → ∃ place, d.Good g place := by
    rintro act c d ⟨place, hGood⟩ hScanned hStep
    exact hGood.graphStep hBuilt hScanned hStep
  obtain ⟨place, hGood⟩ := Library.runCalls_invariant hKeep hStart hMeet hRun
  exact hGood.onceInOrder

/-- A chain of two nodes. -/
def chainCalls : List GraphCall := [.add, .add, .depend 0 1]

/-- The submission loop comes first, and a worker executes both nodes. -/
def chainSchedule : List GraphAct :=
  List.replicate 5 .main ++ .take 1 0 0 :: List.replicate 8 (.run 1) ++
    .take 1 1 1 :: List.replicate 5 (.run 1) ++ [.main]

theorem taskgraph_once_in_order_chain : ∃ g s,
    Library.runCalls (graphCall 4096) chainCalls cpxTaskgraphInit = some g ∧
      Library.runCalls (graphStep g) chainSchedule (cpxTaskgraphRun g 8) = some s ∧
      s.main = .returned ∧ s.started = [0, 1] ∧ s.OnceInOrder g :=
  ⟨_, _, rfl, rfl, rfl, rfl,
    @taskgraph_once_in_order 4096 8 chainCalls _ chainSchedule _ rfl (by decide) rfl⟩

/-- A worker executes the first node before the submission loop looks at the second. -/
def eagerSchedule : List GraphAct :=
  List.replicate 3 .main ++ .take 1 0 0 :: List.replicate 8 (.run 1) ++
    List.replicate 3 .main ++ [.take 1 1 1, .run 1, .take 2 0 1, .run 2]

/-- The second node is submitted by both and called twice. -/
theorem taskgraph_calls_node_twice : ∃ g s,
    Library.runCalls (graphCall 4096) chainCalls cpxTaskgraphInit = some g ∧
      Library.runCalls (graphStep g) eagerSchedule (cpxTaskgraphRun g 8) = some s ∧
      s.started = [0, 1, 1] ∧ ¬s.OnceInOrder g := by
  refine ⟨_, _, rfl, rfl, rfl, fun hOnce => ?_⟩
  have hNodup := hOnce.once
  revert hNodup
  decide

end Casprix.Ml
