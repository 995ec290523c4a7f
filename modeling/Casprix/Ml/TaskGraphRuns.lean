import Casprix.Ml.TaskGraphTokens

/-! A dependency counter is the number of edges into its node that are still to be
counted down. While nobody counts a node down to zero before the submission loop has
looked at it, each node is launched once, after its predecessors. -/
namespace Casprix.Ml

open Function List

/-- The edges into a node among those that remain of each of the first nodes. -/
def edgesInto (count : Nat) (remaining : Nat → List Nat) (node : Nat) : Nat :=
  ∑ p ∈ Finset.range count, (remaining p).count node

variable {count : Nat}

theorem edgesInto_of_count {q j d : Nat} {f f' : Nat → List Nat} (hq : q < count)
    (hStep : (f q).count j = (f' q).count j + d) (hSame : ∀ p, p ≠ q → f p = f' p) :
    edgesInto count f j = edgesInto count f' j + d := by
  have hMem : q ∈ Finset.range count := Finset.mem_range.mpr hq
  have hRest : ∑ p ∈ (Finset.range count).erase q, (f p).count j =
      ∑ p ∈ (Finset.range count).erase q, (f' p).count j := by
    apply Finset.sum_congr rfl
    intro p hp
    rw [hSame p (Finset.ne_of_mem_erase hp)]
  calc edgesInto count f j
    _ = (f q).count j + ∑ p ∈ (Finset.range count).erase q, (f p).count j :=
        (Finset.add_sum_erase _ _ hMem).symm
    _ = (f' q).count j + ∑ p ∈ (Finset.range count).erase q, (f' p).count j + d := by
        rw [hStep, hRest]
        omega
    _ = edgesInto count f' j + d :=
        congrArg (· + d) (Finset.add_sum_erase _ (fun p => (f' p).count j) hMem)

theorem notMem_of_edgesInto_eq_zero {p j : Nat} {f : Nat → List Nat} (h : edgesInto count f j = 0)
    (hp : p < count) : j ∉ f p := by
  have hCount := Finset.sum_eq_zero_iff.mp h p (Finset.mem_range.mpr hp)
  exact count_eq_zero.mp hCount

namespace CpxTaskGraph

/-- Edges are between nodes, and the counters count them. -/
structure WellBuilt (g : CpxTaskGraph) : Prop where
  edge : ∀ p j, j ∈ g.successors p → p < g.numNodes ∧ j < g.numNodes
  depCount_eq : ∀ j, g.depCount j = edgesInto g.numNodes g.successors j

variable {g g' : CpxTaskGraph} {maxNodes : Nat}

theorem wellBuilt_init : cpxTaskgraphInit.WellBuilt where
  edge := nofun
  depCount_eq := fun _ => rfl

theorem WellBuilt.add (h : g.WellBuilt) (hAdd : cpxTaskgraphAdd maxNodes g = some g') :
    g'.WellBuilt := by
  rw [cpxTaskgraphAdd] at hAdd
  by_cases hRoom : g.numNodes < maxNodes
  · cases (if_pos hRoom).symm.trans hAdd
    have hNone : g.successors g.numNodes = [] := by
      apply eq_nil_iff_forall_not_mem.mpr
      exact fun j hj => lt_irrefl _ (h.edge _ j hj).1
    have hSuccessors : update g.successors g.numNodes [] = g.successors := by
      rw [← hNone, update_eq_self]
    have hZero : g.depCount g.numNodes = 0 := by
      rw [h.depCount_eq, edgesInto, Finset.sum_eq_zero]
      · rfl
      · intro p _
        exact count_eq_zero.mpr fun hj => lt_irrefl _ (h.edge p _ hj).2
    have hCounts : update g.depCount g.numNodes 0 = g.depCount := by
      rw [← hZero, update_eq_self]
    constructor
    · intro p j hj
      rw [hSuccessors] at hj
      exact ⟨Nat.lt_succ_of_lt (h.edge p j hj).1, Nat.lt_succ_of_lt (h.edge p j hj).2⟩
    · intro j
      show update g.depCount g.numNodes 0 j =
        edgesInto (g.numNodes + 1) (update g.successors g.numNodes []) j
      rw [hCounts, hSuccessors, h.depCount_eq, edgesInto, edgesInto, Finset.sum_range_succ, hNone,
        count_nil, add_zero]
  · cases (if_neg hRoom).symm.trans hAdd

theorem WellBuilt.depend {pred succ : Nat} (h : g.WellBuilt)
    (hDepend : cpxTaskgraphDepend pred succ g = some g') : g'.WellBuilt := by
  rw [cpxTaskgraphDepend] at hDepend
  by_cases hNodes : pred < g.numNodes ∧ succ < g.numNodes ∧
      (g.successors pred).length < schedMaxDeps
  · cases (if_pos hNodes).symm.trans hDepend
    obtain ⟨hPred, hSucc, _⟩ := hNodes
    constructor
    · intro p j hj
      have hj : j ∈ update g.successors pred (g.successors pred ++ [succ]) p := hj
      by_cases hp : p = pred
      · rw [hp, update_self] at hj
        rw [hp]
        rcases mem_append.mp hj with hOld | hNew
        · exact h.edge pred j hOld
        · rw [mem_singleton.mp hNew]
          exact ⟨hPred, hSucc⟩
      · rw [update_of_ne hp] at hj
        exact h.edge p j hj
    · intro j
      show update g.depCount succ (g.depCount succ + 1) j =
        edgesInto g.numNodes (update g.successors pred (g.successors pred ++ [succ])) j
      have hSum : edgesInto g.numNodes
          (update g.successors pred (g.successors pred ++ [succ])) j =
          edgesInto g.numNodes g.successors j + if j = succ then 1 else 0 := by
        apply edgesInto_of_count hPred
        · rw [update_self, count_append, count_singleton]
          simp only [beq_iff_eq, @eq_comm _ j succ]
        · exact fun p hp => update_of_ne hp _ _
      rw [hSum]
      by_cases hj : j = succ
      · rw [hj, update_self, if_pos rfl, h.depCount_eq, Nat.cast_add, Nat.cast_one]
      · rw [update_of_ne hj, if_neg hj, add_zero, h.depCount_eq]
  · cases (if_neg hNodes).symm.trans hDepend

theorem wellBuilt_of_runCalls {calls : List GraphCall}
    (hBuild : Library.runCalls (graphCall maxNodes) calls cpxTaskgraphInit = some g) :
    g.WellBuilt := by
  have hMeet : Library.CallsMeet (graphCall maxNodes) (fun _ _ => True) calls cpxTaskgraphInit :=
    Library.callsMeet_of_forall (fun _ _ => trivial) _ _
  apply Library.runCalls_invariant _ wellBuilt_init hMeet hBuild
  intro call c d hBuilt _ hCall
  cases call with
  | add => exact hBuilt.add hCall
  | depend pred succ => exact hBuilt.depend hCall

end CpxTaskGraph

/-- The edges that a thread has not counted down of the node whose task it executes. -/
def RunPoint.remaining (g : CpxTaskGraph) : RunPoint → List Nat
  | .call node => g.successors node
  | .body node => g.successors node
  | .successor node i => (g.successors node).drop i
  | .alloc node i _ => (g.successors node).drop (i + 1)
  | .push node i _ => (g.successors node).drop (i + 1)
  | _ => []

/-- The edges of a node that are still to be counted down. -/
def remainingEdges (g : CpxTaskGraph) (thread : Nat → RunPoint) (place : Nat → NodePlace)
    (node : Nat) : List Nat :=
  match place node with
  | .done => []
  | .running w => (thread w).remaining g
  | _ => g.successors node

/-- The submission loop has looked at the node's counter. -/
def GraphRunPoint.Scanned (main : GraphRunPoint) (node : Nat) : Prop :=
  match main with
  | .scan i => node < i
  | .alloc i => node ≤ i
  | .push i => node ≤ i
  | _ => True

instance (main : GraphRunPoint) (node : Nat) : Decidable (main.Scanned node) :=
  match main with
  | .scan i => inferInstanceAs (Decidable (node < i))
  | .alloc i => inferInstanceAs (Decidable (node ≤ i))
  | .push i => inferInstanceAs (Decidable (node ≤ i))
  | .wait => isTrue trivial
  | .help => isTrue trivial
  | .returned => isTrue trivial

/-- The counters, and what they say about the nodes that are launched. -/
structure Counts (g : CpxTaskGraph) (depCount : Nat → Int) (remaining : Nat → List Nat)
    (main : GraphRunPoint) (place : Nat → NodePlace) : Prop where
  counted : ∀ j, depCount j = edgesInto g.numNodes remaining j
  ready : ∀ j, place j ≠ .waiting → depCount j = 0 ∧ j < g.numNodes
  blocked : ∀ j < g.numNodes, main.Scanned j → place j = .waiting → depCount j ≠ 0
  unscanned : ∀ j, ¬main.Scanned j → place j = .waiting

/-- Which functions were called and have returned. -/
structure History (g : CpxTaskGraph) (thread : Nat → RunPoint) (started finished : List Nat)
    (place : Nat → NodePlace) : Prop where
  called : ∀ p ∈ started, place p = .done ∨
    ∃ w, place p = .running w ∧ thread w ≠ .call p
  nodup : started.Nodup
  done : ∀ p, place p = .done → p ∈ finished
  returned : ∀ p w, place p = .running w → thread w ≠ .call p →
    thread w ≠ .body p → p ∈ finished
  ordered : ∀ j ∈ started, ∀ p, j ∈ g.successors p → p ∈ finished

def doneCount (count : Nat) (place : Nat → NodePlace) : Nat :=
  ((Finset.range count).filter fun p => place p = .done).card

namespace GraphRun

structure Good (g : CpxTaskGraph) (s : GraphRun) (place : Nat → NodePlace) : Prop where
  tokens : Tokens s.main.submits s.thread s.queued place
  counts : Counts g s.depCount (remainingEdges g s.thread place) s.main place
  history : History g s.thread s.started s.finished place
  graphDone : s.graphDone = g.numNodes - doneCount g.numNodes place
  stopped : s.main = .returned → s.graphDone ≤ 0

end GraphRun

section

variable {g : CpxTaskGraph} {thread : Nat → RunPoint} {place : Nat → NodePlace} {x w : Nat}
  {value : NodePlace} {point : RunPoint}

/-- A node that is neither running nor done, before and after. -/
def NodePlace.Unstarted : NodePlace → Prop
  | .done => False
  | .running _ => False
  | _ => True

theorem NodePlace.Unstarted.ne_done {place : NodePlace} (h : place.Unstarted) :
    place ≠ .done := by
  rintro rfl
  exact h

theorem remainingEdges_unstarted (h : (place x).Unstarted) :
    remainingEdges g thread place x = g.successors x := by
  rw [remainingEdges]
  generalize place x = found at h ⊢
  cases found with
  | done =>
    exact h.elim
  | running w =>
    exact h.elim
  | _ => rfl

theorem remainingEdges_relocate (hOld : (place x).Unstarted) (hNew : value.Unstarted) :
    remainingEdges g thread (update place x value) = remainingEdges g thread place := by
  funext p
  by_cases hp : p = x
  · rw [hp, remainingEdges_unstarted hOld, remainingEdges_unstarted]
    rw [update_self]
    exact hNew
  · rw [remainingEdges, remainingEdges, update_of_ne hp]

theorem remainingEdges_setThread_of_ne (point : RunPoint) {p : Nat} (hNe : place p ≠ .running w) :
    remainingEdges g (update thread w point) place p = remainingEdges g thread place p := by
  rw [remainingEdges, remainingEdges]
  cases hPlace : place p with
  | running v =>
    have hv : v ≠ w := by
      rintro rfl
      exact hNe hPlace
    show (update thread w point v).remaining g = (thread v).remaining g
    rw [update_of_ne hv]
  | _ => rfl

theorem remainingEdges_running (hPlace : place x = .running w) :
    remainingEdges g thread place x = (thread w).remaining g := by
  rw [remainingEdges, hPlace]

theorem remainingEdges_setThread (hSame : point.remaining g = (thread w).remaining g) :
    remainingEdges g (update thread w point) place = remainingEdges g thread place := by
  funext p
  by_cases hPlace : place p = .running w
  · rw [remainingEdges_running hPlace, remainingEdges_running hPlace, update_self, hSame]
  · exact remainingEdges_setThread_of_ne point hPlace

theorem doneCount_relocate (hOld : place x ≠ .done) (hNew : value ≠ .done) :
    doneCount count (update place x value) = doneCount count place := by
  apply congrArg Finset.card
  apply Finset.filter_congr
  intro p _
  by_cases hp : p = x
  · rw [hp, update_self]
    exact ⟨fun h => absurd h hNew, fun h => absurd h hOld⟩
  · rw [update_of_ne hp]

theorem doneCount_done (hOld : place x ≠ .done) (hx : x < count) :
    doneCount count (update place x .done) = doneCount count place + 1 := by
  have hInsert : (Finset.range count).filter (fun p => update place x .done p = .done) =
      insert x ((Finset.range count).filter fun p => place p = .done) := by
    ext p
    rw [Finset.mem_insert, Finset.mem_filter, Finset.mem_filter]
    by_cases hp : p = x
    · rw [hp, update_self]
      exact ⟨fun _ => Or.inl rfl, fun _ => ⟨Finset.mem_range.mpr hx, rfl⟩⟩
    · rw [update_of_ne hp]
      exact ⟨Or.inr, fun h => h.resolve_left hp⟩
  have hNotMem : x ∉ (Finset.range count).filter fun p => place p = .done :=
    fun h => hOld (Finset.mem_filter.mp h).2
  rw [doneCount, hInsert, Finset.card_insert_of_notMem hNotMem, doneCount]

theorem done_of_doneCount (h : count ≤ doneCount count place) (hx : x < count) :
    place x = .done := by
  have hSubset : (Finset.range count).filter (fun p => place p = .done) ⊆ Finset.range count :=
    Finset.filter_subset _ _
  have hAll := Finset.eq_of_subset_of_card_le hSubset (by rwa [Finset.card_range])
  have hMem : x ∈ (Finset.range count).filter fun p => place p = .done := by
    rw [hAll]
    exact Finset.mem_range.mpr hx
  exact (Finset.mem_filter.mp hMem).2

end

end Casprix.Ml
