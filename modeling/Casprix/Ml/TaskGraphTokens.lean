import Mathlib
import Casprix.Ml.TaskGraph

/-! Where each node of a running graph is. A node is launched by whoever finds its
dependency counter at zero, and its launch is in one place at a time from then on. -/
namespace Casprix.Ml

open Function List

inductive NodePlace
  | waiting
  | submitting
  | pushing (w : Nat)
  | queued
  | running (w : Nat)
  | done
  | dropped
  deriving DecidableEq, Repr

namespace RunPoint

/-- The node whose task the thread executes. -/
def node : RunPoint → Option Nat
  | .call node => some node
  | .body node => some node
  | .successor node _ => some node
  | .alloc node _ _ => some node
  | .push node _ _ => some node
  | .countDown node => some node
  | _ => none

/-- The node that the thread is about to submit. -/
def submits : RunPoint → Option Nat
  | .alloc _ _ succ => some succ
  | .push _ _ succ => some succ
  | _ => none

end RunPoint

def GraphRunPoint.submits : GraphRunPoint → Option Nat
  | .alloc i => some i
  | .push i => some i
  | _ => none

/-- Nobody holds the launch of the node. -/
def NodePlace.Loose (place : NodePlace) : Prop :=
  place = .waiting ∨ place = .dropped ∨ place = .done

/-- The launches that are held, by whom, and the place of each of their nodes. -/
structure Tokens (main : Option Nat) (thread : Nat → RunPoint) (queued : List (Nat × Nat))
    (place : Nat → NodePlace) : Prop where
  running : ∀ p w, place p = .running w ↔ (thread w).node = some p
  pushing : ∀ p w, (thread w).submits = some p → place p = .pushing w
  submitting : ∀ p, main = some p → place p = .submitting
  stored : ∀ e ∈ queued, place e.2 = .queued
  nodup : (queued.map Prod.snd).Nodup

namespace NodePlace

variable {place : Nat → NodePlace} {x p w : Nat} {value value' : NodePlace}

theorem update_eq_iff (hNew : value ≠ value') (hOld : place x ≠ value') :
    update place x value p = value' ↔ place p = value' := by
  by_cases hSame : p = x
  · rw [hSame, update_self]
    exact ⟨fun h => absurd h hNew, fun h => absurd h hOld⟩
  · rw [update_of_ne hSame]

theorem update_eq_of_eq (hOld : place x ≠ value') (h : place p = value') :
    update place x value p = value' := by
  by_cases hSame : p = x
  · rw [hSame] at h
    exact absurd h hOld
  · rw [update_of_ne hSame]
    exact h

section

variable {place : NodePlace} (h : place.Loose)
include h

theorem Loose.ne_running : place ≠ .running w := by
  rintro rfl
  rcases h with h | h | h <;> cases h

theorem Loose.ne_pushing : place ≠ .pushing w := by
  rintro rfl
  rcases h with h | h | h <;> cases h

theorem Loose.ne_submitting : place ≠ .submitting := by
  rintro rfl
  rcases h with h | h | h <;> cases h

theorem Loose.ne_queued : place ≠ .queued := by
  rintro rfl
  rcases h with h | h | h <;> cases h

end

end NodePlace

namespace Tokens

open NodePlace

variable {main : Option Nat} {thread : Nat → RunPoint} {queued : List (Nat × Nat)}
  {place : Nat → NodePlace} {w x : Nat} {point : RunPoint} {value : NodePlace}

section

variable (h : Tokens main thread queued place)
include h

theorem relocate (hOld : ∀ v, place x ≠ .running v)
    (hNew : ∀ v, value ≠ .running v) (hThread : ∀ v, (thread v).submits ≠ some x)
    (hMain : main ≠ some x) (hQueued : ∀ e ∈ queued, e.2 ≠ x) :
    Tokens main thread queued (update place x value) where
  running := fun p v => (NodePlace.update_eq_iff (hNew v) (hOld v)).trans (h.running p v)
  pushing := by
    intro p v hp
    have hNe : p ≠ x := fun hSame => hThread v (hSame ▸ hp)
    rw [update_of_ne hNe]
    exact h.pushing p v hp
  submitting := by
    intro p hp
    have hNe : p ≠ x := fun hSame => hMain (hSame ▸ hp)
    rw [update_of_ne hNe]
    exact h.submitting p hp
  stored := by
    intro e he
    rw [update_of_ne (hQueued e he)]
    exact h.stored e he
  nodup := h.nodup

theorem relocate_loose (hLoose : (place x).Loose)
    (hNew : ∀ v, value ≠ .running v) : Tokens main thread queued (update place x value) :=
  h.relocate (fun _ => hLoose.ne_running) hNew
    (fun v hp => hLoose.ne_pushing (h.pushing x v hp))
    (fun hp => hLoose.ne_submitting (h.submitting x hp))
    fun e he hSame => hLoose.ne_queued (hSame ▸ h.stored e he)

theorem setThread (hNode : point.node = (thread w).node)
    (hSubmits : ∀ p, point.submits = some p → place p = .pushing w) :
    Tokens main (update thread w point) queued place :=
  { h with
    running := by
      intro p v
      by_cases hv : v = w
      · rw [hv, update_self, hNode]
        exact h.running p w
      · rw [update_of_ne hv]
        exact h.running p v
    pushing := by
      intro p v hp
      by_cases hv : v = w
      · rw [hv, update_self] at hp
        rw [hv]
        exact hSubmits p hp
      · rw [update_of_ne hv] at hp
        exact h.pushing p v hp }

end

theorem putMain (h : Tokens none thread queued place) (hLoose : (place x).Loose) :
    Tokens (some x) thread queued (update place x .submitting) :=
  { h.relocate_loose hLoose fun _ => NodePlace.noConfusion with
    submitting := by
      rintro p ⟨⟩
      exact update_self _ _ _ }

theorem dropMain (h : Tokens (some x) thread queued place) :
    Tokens none thread queued (update place x .dropped) := by
  have hPlace : place x = .submitting := h.submitting x rfl
  have hLeft : Tokens none thread queued place :=
    { h with submitting := nofun }
  refine hLeft.relocate (fun v hOther => ?_) (fun _ => NodePlace.noConfusion)
    (fun v hp => ?_) (Option.some_ne_none x).symm fun e he hSame => ?_
  · cases hPlace.symm.trans hOther
  · cases hPlace.symm.trans (h.pushing x v hp)
  · cases hPlace.symm.trans (hSame ▸ h.stored e he)

section

variable (h : Tokens main thread queued place)
include h

theorem putThread (hLoose : (place x).Loose)
    (hNode : point.node = (thread w).node) (hSubmits : point.submits = some x) :
    Tokens main (update thread w point) queued (update place x (.pushing w)) := by
  refine (h.relocate_loose hLoose fun _ => NodePlace.noConfusion).setThread hNode fun p hp => ?_
  cases hSubmits.symm.trans hp
  exact update_self _ _ _

theorem dropThread (hHeld : (thread w).submits = some x)
    (hNode : point.node = (thread w).node) (hSubmits : point.submits = none) :
    Tokens main (update thread w point) queued (update place x .dropped) := by
  have hPlace : place x = .pushing w := h.pushing x w hHeld
  have hLeft : Tokens main (update thread w point) queued place :=
    h.setThread hNode fun p hp => by cases hSubmits.symm.trans hp
  refine hLeft.relocate (fun v hOther => ?_) (fun _ => NodePlace.noConfusion) (fun v hp => ?_)
    (fun hp => ?_) fun e he hSame => ?_
  · cases hPlace.symm.trans hOther
  · cases hPlace.symm.trans (hLeft.pushing x v hp)
    rw [update_self] at hp
    cases hSubmits.symm.trans hp
  · cases hPlace.symm.trans (h.submitting x hp)
  · cases hPlace.symm.trans (hSame ▸ h.stored e he)

theorem putQueue (hLoose : (place x).Loose) :
    Tokens main thread (queued ++ [(w, x)]) (update place x .queued) :=
  { h.relocate_loose hLoose fun _ => NodePlace.noConfusion with
    stored := by
      intro e he
      rcases mem_append.mp he with hOld | hNew
      · exact (h.relocate_loose hLoose fun _ => NodePlace.noConfusion).stored e hOld
      · rw [mem_singleton.mp hNew]
        exact update_self _ _ _
    nodup := by
      rw [map_append, map_singleton, nodup_append]
      refine ⟨h.nodup, nodup_singleton _, ?_⟩
      intro p hp q hq hSame
      obtain ⟨e, he, rfl⟩ := mem_map.mp hp
      rw [mem_singleton.mp hq] at hSame
      have hPlace := h.stored e he
      rw [hSame] at hPlace
      exact hLoose.ne_queued hPlace }

theorem take {v : Nat} (hQueued : (v, x) ∈ queued)
    (hIdle : (thread w).node = none) (hNode : point.node = some x)
    (hSubmits : point.submits = none) :
    Tokens main (update thread w point) (queued.erase (v, x)) (update place x (.running w)) := by
  have hPlace : place x = .queued := h.stored _ hQueued
  exact {
    running := by
      intro p u
      by_cases hp : p = x
      · rw [hp, update_self]
        by_cases hu : u = w
        · rw [hu, update_self, hNode]
          exact ⟨fun _ => rfl, fun _ => rfl⟩
        · rw [update_of_ne hu]
          constructor
          · rintro ⟨⟩
            exact absurd rfl hu
          · intro hOther
            cases hPlace.symm.trans ((h.running x u).mpr hOther)
      · rw [update_of_ne hp]
        by_cases hu : u = w
        · rw [hu, update_self, hNode]
          constructor
          · intro hRunning
            cases hIdle.symm.trans ((h.running p w).mp hRunning)
          · rintro ⟨⟩
            exact absurd rfl hp
        · rw [update_of_ne hu]
          exact h.running p u
    pushing := by
      intro p u hp
      by_cases hu : u = w
      · rw [hu, update_self, hSubmits] at hp
        cases hp
      · rw [update_of_ne hu] at hp
        exact update_eq_of_eq (ne_of_eq_of_ne hPlace NodePlace.noConfusion) (h.pushing p u hp)
    submitting := fun p hp =>
      update_eq_of_eq (ne_of_eq_of_ne hPlace NodePlace.noConfusion) (h.submitting p hp)
    stored := by
      intro e he
      have hOld := mem_of_mem_erase he
      have hNe : e.2 ≠ x := by
        intro hSame
        -- Two entries for one node would be the same entry.
        have hEntry : e = (v, x) := inj_on_of_nodup_map h.nodup hOld hQueued hSame
        rw [hEntry] at he
        exact ((List.Nodup.of_map _ h.nodup).mem_erase_iff.mp he).1 rfl
      rw [update_of_ne hNe]
      exact h.stored e hOld
    nodup := h.nodup.sublist ((erase_sublist).map Prod.snd) }

theorem finish (hNode : (thread w).node = some x)
    (hEnd : point.node = none) (hSubmits : point.submits = none) :
    Tokens main (update thread w point) queued (update place x .done) := by
  have hPlace : place x = .running w := (h.running x w).mpr hNode
  exact {
    running := by
      intro p u
      by_cases hu : u = w
      · rw [hu, update_self, hEnd]
        constructor
        · intro hRunning
          by_cases hp : p = x
          · rw [hp, update_self] at hRunning
            cases hRunning
          · rw [update_of_ne hp] at hRunning
            cases hNode.symm.trans ((h.running p w).mp hRunning)
            exact absurd rfl hp
        · exact nofun
      · rw [update_of_ne hu]
        refine (NodePlace.update_eq_iff NodePlace.noConfusion fun hOther =>
          hu ?_).trans (h.running p u)
        cases hPlace.symm.trans hOther
        rfl
    pushing := by
      intro p u hp
      by_cases hu : u = w
      · rw [hu, update_self, hSubmits] at hp
        cases hp
      · rw [update_of_ne hu] at hp
        exact update_eq_of_eq (ne_of_eq_of_ne hPlace NodePlace.noConfusion) (h.pushing p u hp)
    submitting := fun p hp =>
      update_eq_of_eq (ne_of_eq_of_ne hPlace NodePlace.noConfusion) (h.submitting p hp)
    stored := fun e he =>
      update_eq_of_eq (ne_of_eq_of_ne hPlace NodePlace.noConfusion) (h.stored e he)
    nodup := h.nodup }

end

end Tokens

end Casprix.Ml
