import Casprix.Library.Machine
import Mathlib.Data.List.Nodup
import Mathlib.Data.List.ReduceOption

/-! The queue of many producers and one consumer. Each atomic operation is one step. What a
producer does to its node before the exchange is part of the step that begins the call: no
other thread knows the node. -/
namespace Casprix.Net

open Function Library List

variable {α : Type*}

/-- Where a producer stands: before its exchange, or before it links its node. -/
inductive MpscProducer
  | idle
  | exchange (node : Nat)
  | link (prev node : Nat)

/-- Where the consumer stands: before it loads the next pointer, which it has found null
`backoff` times, or before it takes a node. -/
inductive MpscConsumer
  | idle
  | load (backoff : Nat)
  | take (next : Nat)

/-- Nodes are numbered in the order in which the arena gives them, the stub is the first. A
value is a pointer. The exchanges and the returns of completed calls are listed. -/
structure MpscState (α : Type*) where
  next : Nat → Option Nat
  value : Nat → Option α
  head : Nat
  tail : Nat
  nodeCount : Nat
  producer : Nat → MpscProducer
  consumer : MpscConsumer
  exchanged : List (Option α)
  dequeued : List (Option α)

def cxMpscQueueCreate : MpscState α where
  next := fun _ => none
  value := fun _ => none
  head := 0
  tail := 0
  nodeCount := 1
  producer := fun _ => .idle
  consumer := .idle
  exchanged := []
  dequeued := []

namespace MpscState

def producerStep (p : Nat) (s : MpscState α) : Option (MpscState α) :=
  match s.producer p with
  | .idle => none
  | .exchange node =>
    some { s with head := node
                  producer := update s.producer p (.link s.head node)
                  exchanged := s.exchanged ++ [s.value node] }
  | .link prev node =>
    some { s with next := update s.next prev (some node)
                  producer := update s.producer p .idle }

/-- What follows a load of the next pointer: the ninth null ends the call. -/
def loaded (s : MpscState α) (backoff : Nat) : MpscState α :=
  match s.next s.tail with
  | some next => { s with consumer := .take next }
  | none =>
    if backoff < 8 then { s with consumer := .load (backoff + 1) }
    else { s with consumer := .idle, dequeued := s.dequeued ++ [none] }

/-- The consumer calls again when a call has returned. -/
def consumerStep (s : MpscState α) : MpscState α :=
  match s.consumer with
  | .idle => s.loaded 0
  | .load backoff => s.loaded backoff
  | .take next =>
    { s with tail := next, consumer := .idle, dequeued := s.dequeued ++ [s.value next] }

end MpscState

inductive MpscAct (α : Type*)
  | cxMpscEnqueue (p : Nat) (value : Option α)
  | producer (p : Nat)
  | consumer

def mpscStep : MpscAct α → MpscState α → Option (MpscState α)
  | .cxMpscEnqueue p value, s =>
    match s.producer p with
    | .idle =>
      some { s with next := update s.next s.nodeCount none
                    value := update s.value s.nodeCount value
                    nodeCount := s.nodeCount + 1
                    producer := update s.producer p (.exchange s.nodeCount) }
    | _ => none
  | .producer p, s => s.producerStep p
  | .consumer, s => some s.consumerStep

/-- No call of a producer is under way. -/
def MpscState.Quiet (s : MpscState α) : Prop := ∀ p, s.producer p = .idle

/-- What was dequeued is what was exchanged first, null pointers apart; and when the producers
are quiet, a consumer that keeps calling gets all of it. -/
def IsFifo (s : MpscState α) : Prop :=
  (∃ taken, s.dequeued.reduceOption = (s.exchanged.take taken).reduceOption) ∧
    (s.Quiet → ∀ steps, 2 * s.exchanged.length ≤ steps → ∀ s',
      runCalls mpscStep (List.replicate steps .consumer) s = some s' →
        s'.dequeued.reduceOption = s.exchanged.reduceOption)

/-- `a` and `b` are exchanged one after the other. -/
def Follows (order : List Nat) (a b : Nat) : Prop :=
  ∃ i, order[i]? = some a ∧ order[i + 1]? = some b

/-- The nodes in the order of the exchanges, of which the consumer has taken some. A link
between two of them is stored, or a producer is about to store it. -/
structure MpscState.Good (s : MpscState α) (order : List Nat) (taken : Nat) : Prop where
  nodup : order.Nodup
  known : ∀ a ∈ order, a < s.nodeCount
  head : order[s.exchanged.length]? = some s.head
  length : order.length = s.exchanged.length + 1
  values : s.exchanged = order.tail.map s.value
  tail : order[taken]? = some s.tail
  linked : ∀ a b, Follows order a b → s.next a = some b ∨ ∃ p, s.producer p = .link a b
  next : ∀ a b, s.next a = some b → Follows order a b
  linking : ∀ p a b, s.producer p = .link a b → Follows order a b
  unlinked : ∀ p a, s.producer p = .exchange a → a < s.nodeCount ∧ a ∉ order
  apart : ∀ p q a, s.producer p = .exchange a → s.producer q = .exchange a → p = q
  taking : ∀ n, s.consumer = .take n → order[taken + 1]? = some n
  dequeued : s.dequeued.reduceOption = (s.exchanged.take taken).reduceOption

section

variable {order : List Nat} {a a' b c : Nat}

theorem Follows.mem (h : Follows order a b) : a ∈ order ∧ b ∈ order := by
  obtain ⟨i, ha, hb⟩ := h
  exact ⟨mem_of_getElem? ha, mem_of_getElem? hb⟩

theorem Follows.append (h : Follows order a b) (c : Nat) : Follows (order ++ [c]) a b := by
  obtain ⟨i, ha, hb⟩ := h
  have hi := (List.getElem?_eq_some_iff.mp hb).1
  exact ⟨i, by rwa [List.getElem?_append_left (by omega)],
    by rwa [List.getElem?_append_left hi]⟩

theorem follows_append_iff {n : Nat} (hLength : order.length = n + 1) (hLast : order[n]? = some c) :
    Follows (order ++ [b]) a a' ↔ Follows order a a' ∨ a = c ∧ a' = b := by
  constructor
  · rintro ⟨i, ha, hb⟩
    have hi := (List.getElem?_eq_some_iff.mp hb).1
    rw [length_append, length_singleton] at hi
    rw [List.getElem?_append_left (by omega)] at ha
    by_cases hEnd : i + 1 < order.length
    · rw [List.getElem?_append_left hEnd] at hb
      exact .inl ⟨i, ha, hb⟩
    · have hLastPlace : i = n := by omega
      subst hLastPlace
      rw [← hLength, List.getElem?_concat_length] at hb
      exact .inr ⟨Option.some.inj (ha.symm.trans hLast), (Option.some.inj hb).symm⟩
  · rintro (h | ⟨rfl, rfl⟩)
    · exact h.append b
    · refine ⟨n, ?_, ?_⟩
      · rwa [List.getElem?_append_left (by omega)]
      · rw [← hLength, List.getElem?_concat_length]

/-- In a list without repetition only one node follows another. -/
theorem Follows.eq (hNodup : order.Nodup) (h : Follows order a b) {i : Nat}
    (hi : order[i]? = some a) : order[i + 1]? = some b := by
  obtain ⟨j, hj, hb⟩ := h
  have hSame : j = i := (List.getElem?_inj (List.getElem?_eq_some_iff.mp hj).1 hNodup).mp
    (hj.trans hi.symm)
  exact hSame ▸ hb

end

namespace MpscState

variable {s : MpscState α} {order : List Nat} {taken p : Nat}

theorem producer_of_update {q : Nat} {point new : MpscProducer} (hNot : point ≠ new)
    (hq : update s.producer p new q = point) : q ≠ p ∧ s.producer q = point := by
  by_cases hSame : q = p
  · subst hSame
    rw [update_self] at hq
    exact absurd hq.symm hNot
  · rw [update_of_ne hSame] at hq
    exact ⟨hSame, hq⟩

section

variable (h : s.Good order taken)
include h

/-- A link is still stored or about to be when another producer has moved. -/
theorem Good.stillLinked {a b : Nat} (hFollows : Follows order a b)
    (hPoint : s.producer p ≠ .link a b) (new : MpscProducer) :
    s.next a = some b ∨ ∃ q, update s.producer p new q = .link a b := by
  rcases h.linked a b hFollows with hNext | ⟨q, hq⟩
  · exact .inl hNext
  · refine .inr ⟨q, ?_⟩
    rwa [update_of_ne]
    rintro rfl
    exact hPoint hq

theorem Good.begin (hIdle : s.producer p = .idle) (value : Option α) :
    ({ s with next := update s.next s.nodeCount none
              value := update s.value s.nodeCount value
              nodeCount := s.nodeCount + 1
              producer := update s.producer p (.exchange s.nodeCount) } : MpscState α).Good
      order taken := by
  have hNew : s.nodeCount ∉ order := fun hMem => Nat.lt_irrefl _ (h.known _ hMem)
  exact { h with
    known := fun a ha => Nat.lt_succ_of_lt (h.known a ha)
    values := by
      rw [h.values]
      refine map_congr_left fun a ha => (update_of_ne ?_ _ _).symm
      rintro rfl
      exact hNew (mem_of_mem_tail ha)
    linked := by
      intro a b hFollows
      have hOld : a ≠ s.nodeCount := fun hSame => hNew (hSame ▸ hFollows.mem.1)
      show update s.next s.nodeCount none a = some b ∨ _
      rw [update_of_ne hOld]
      exact h.stillLinked hFollows (by simp [hIdle]) _
    next := by
      intro a b hNext
      have hNext : update s.next s.nodeCount none a = some b := hNext
      by_cases hSame : a = s.nodeCount
      · rw [hSame, update_self] at hNext
        cases hNext
      · rw [update_of_ne hSame] at hNext
        exact h.next a b hNext
    linking := fun q a b hq => h.linking q a b (producer_of_update MpscProducer.noConfusion hq).2
    unlinked := by
      intro q a hq
      by_cases hSame : a = s.nodeCount
      · exact ⟨hSame ▸ Nat.lt_add_one _, hSame ▸ hNew⟩
      · obtain ⟨hLt, hNot⟩ := h.unlinked q a
          (producer_of_update (fun hNo => hSame (MpscProducer.exchange.inj hNo)) hq).2
        exact ⟨Nat.lt_succ_of_lt hLt, hNot⟩
    apart := by
      intro q r a hq hr
      by_cases hSame : a = s.nodeCount
      · subst hSame
        have hOnly : ∀ q, update s.producer p (.exchange s.nodeCount) q =
          .exchange s.nodeCount →
            q = p := by
          intro q hq
          by_contra hqp
          rw [update_of_ne hqp] at hq
          exact Nat.lt_irrefl _ (h.unlinked q _ hq).1
        rw [hOnly q hq, hOnly r hr]
      · have hNot : MpscProducer.exchange a ≠ .exchange s.nodeCount :=
          fun hNo => hSame (MpscProducer.exchange.inj hNo)
        exact h.apart q r a (producer_of_update hNot hq).2 (producer_of_update hNot hr).2 }

theorem Good.exchange {node : Nat} (hPoint : s.producer p = .exchange node) :
    ({ s with head := node
              producer := update s.producer p (.link s.head node)
              exchanged := s.exchanged ++ [s.value node] } : MpscState α).Good
      (order ++ [node]) taken := by
  obtain ⟨hKnown, hNew⟩ := h.unlinked p node hPoint
  have hFollows {a b : Nat} : Follows (order ++ [node]) a b ↔ Follows order a b ∨
      a = s.head ∧ b = node :=
    follows_append_iff h.length h.head
  have hTaken : taken < order.length := (List.getElem?_eq_some_iff.mp h.tail).1
  exact {
    nodup := by
      rw [← concat_eq_append]
      exact h.nodup.concat hNew
    known := by
      intro a ha
      rcases mem_append.mp ha with ha | ha
      · exact h.known a ha
      · exact mem_singleton.mp ha ▸ hKnown
    head := by
      show (order ++ [node])[(s.exchanged ++ [s.value node]).length]? = some node
      rw [length_append, length_singleton, ← h.length, List.getElem?_concat_length]
    length := by simp [h.length]
    values := by
      show s.exchanged ++ _ = _
      rw [tail_append_of_ne_nil (by rintro rfl; cases h.length), map_append, ← h.values]
      rfl
    tail := by rw [List.getElem?_append_left hTaken]; exact h.tail
    linked := by
      intro a b hab
      rcases hFollows.mp hab with hab | ⟨rfl, rfl⟩
      · exact h.stillLinked hab (by simp [hPoint]) _
      · exact .inr ⟨p, update_self _ _ _⟩
    next := fun a b hNext => (h.next a b hNext).append node
    linking := by
      intro q a b hq
      by_cases hSame : MpscProducer.link a b = .link s.head node
      · obtain ⟨rfl, rfl⟩ := MpscProducer.link.inj hSame
        exact hFollows.mpr (.inr ⟨rfl, rfl⟩)
      · exact (h.linking q a b (producer_of_update hSame hq).2).append node
    unlinked := by
      intro q a hq
      obtain ⟨hqp, hq⟩ := producer_of_update MpscProducer.noConfusion hq
      obtain ⟨hLt, hNot⟩ := h.unlinked q a hq
      refine ⟨hLt, fun hMem => ?_⟩
      rcases mem_append.mp hMem with hMem | hMem
      · exact hNot hMem
      · rw [mem_singleton.mp hMem] at hq
        exact hqp (h.apart q p node hq hPoint)
    apart := fun q r a hq hr =>
      h.apart q r a (producer_of_update MpscProducer.noConfusion hq).2
        (producer_of_update MpscProducer.noConfusion hr).2
    taking := by
      intro n hn
      have hn := h.taking n hn
      rw [List.getElem?_append_left (List.getElem?_eq_some_iff.mp hn).1]
      exact hn
    dequeued := by
      show s.dequeued.reduceOption = ((s.exchanged ++ _).take taken).reduceOption
      rw [take_append_of_le_length (by have := h.length; omega)]
      exact h.dequeued }

theorem Good.link {prev node : Nat} (hPoint : s.producer p = .link prev node) :
    ({ s with next := update s.next prev (some node)
              producer := update s.producer p .idle } : MpscState α).Good order taken := by
  have hHere := h.linking p prev node hPoint
  exact { h with
    linked := by
      intro a b hab
      show update s.next prev (some node) a = some b ∨ _
      by_cases hSame : a = prev
      · subst hSame
        obtain ⟨i, hi, hNode⟩ := hHere
        rw [update_self, ← hNode, hab.eq h.nodup hi]
        exact .inl rfl
      · rw [update_of_ne hSame]
        refine h.stillLinked hab (fun hq => ?_) _
        rw [hPoint] at hq
        exact hSame (MpscProducer.link.inj hq).1.symm
    next := by
      intro a b hNext
      have hNext : update s.next prev (some node) a = some b := hNext
      by_cases hSame : a = prev
      · rw [hSame, update_self] at hNext
        exact hSame ▸ Option.some.inj hNext ▸ hHere
      · rw [update_of_ne hSame] at hNext
        exact h.next a b hNext
    linking := fun q a b hq => h.linking q a b (producer_of_update MpscProducer.noConfusion hq).2
    unlinked := fun q a hq => h.unlinked q a (producer_of_update MpscProducer.noConfusion hq).2
    apart := fun q r a hq hr =>
      h.apart q r a (producer_of_update MpscProducer.noConfusion hq).2
        (producer_of_update MpscProducer.noConfusion hr).2 }

theorem Good.loaded (backoff : Nat) :
    (s.loaded backoff).Good order taken := by
  unfold MpscState.loaded
  split
  next next hNext =>
    exact { h with
      taking := by
        intro n hn
        cases hn
        exact (h.next _ _ hNext).eq h.nodup h.tail }
  next =>
    split
    · exact { h with taking := fun n hn => by cases hn }
    · exact { h with
        taking := fun n hn => by cases hn
        dequeued := by
          show (s.dequeued ++ [none]).reduceOption = _
          rw [reduceOption_append, h.dequeued]
          exact append_nil _ }

theorem Good.take {n : Nat} (hPoint : s.consumer = .take n) :
    ({ s with tail := n, consumer := .idle, dequeued := s.dequeued ++ [s.value n] } :
      MpscState α).Good order (taken + 1) := by
  have hNode := h.taking n hPoint
  have hValue : s.exchanged[taken]? = some (s.value n) := by
    rw [h.values, List.getElem?_map, List.getElem?_tail, hNode]
    rfl
  exact { h with
    tail := hNode
    taking := fun m hm => by cases hm
    dequeued := by
      show (s.dequeued ++ [s.value n]).reduceOption = _
      rw [take_add_one, hValue, reduceOption_append, reduceOption_append, h.dequeued]
      rfl }

theorem Good.consumerStep :
    ∃ taken', s.consumerStep.Good order taken' := by
  unfold MpscState.consumerStep
  cases hPoint : s.consumer with
  | idle => exact ⟨taken, h.loaded 0⟩
  | load backoff => exact ⟨taken, h.loaded backoff⟩
  | take n => exact ⟨taken + 1, h.take hPoint⟩

end

end MpscState

theorem mpscStep_good {act : MpscAct α} {s s' : MpscState α}
    (hGood : ∃ order taken, s.Good order taken) (hStep : mpscStep act s = some s') :
    ∃ order taken, s'.Good order taken := by
  obtain ⟨order, taken, h⟩ := hGood
  cases act with
  | consumer =>
    cases hStep
    exact ⟨order, h.consumerStep⟩
  | cxMpscEnqueue p value =>
    cases hPoint : s.producer p with
    | exchange | link => simp [mpscStep, hPoint] at hStep
    | idle =>
      simp only [mpscStep, hPoint, Option.some.injEq] at hStep
      exact hStep ▸ ⟨order, taken, h.begin hPoint value⟩
  | producer p =>
    cases hPoint : s.producer p with
    | idle => simp [mpscStep, MpscState.producerStep, hPoint] at hStep
    | exchange node =>
      simp only [mpscStep, MpscState.producerStep, hPoint, Option.some.injEq] at hStep
      exact hStep ▸ ⟨_, taken, h.exchange hPoint⟩
    | link prev node =>
      simp only [mpscStep, MpscState.producerStep, hPoint, Option.some.injEq] at hStep
      exact hStep ▸ ⟨order, taken, h.link hPoint⟩

namespace MpscState

variable {s s' : MpscState α} {order : List Nat} {taken : Nat}

/-- The steps until everything exchanged is taken. -/
def stepsLeft (s : MpscState α) (taken : Nat) : Nat :=
  2 * (s.exchanged.length - taken) -
    match s.consumer with
    | .take _ => 1
    | _ => 0

/-- With every link stored, each step of the consumer is one towards the end. -/
theorem Good.approaches (h : s.Good order taken) (hQuiet : s.Quiet) :
    ∃ taken', s.consumerStep.Good order taken' ∧
      s.consumerStep.stepsLeft taken' ≤ s.stepsLeft taken - 1 := by
  have hLoaded (backoff : Nat) (hNot : ∀ n, s.consumer ≠ .take n) :
      (s.loaded backoff).stepsLeft taken ≤ s.stepsLeft taken - 1 := by
    have hLeft : s.stepsLeft taken = 2 * (s.exchanged.length - taken) := by
      unfold stepsLeft
      split
      next n hn => exact absurd hn (hNot n)
      next => rfl
    rw [hLeft]
    by_cases hMore : taken < s.exchanged.length
    · have hNode : order[taken + 1]? = some (order.get ⟨taken + 1, by rw [h.length]; omega⟩) :=
        List.getElem?_eq_getElem _
      rcases h.linked _ _ ⟨taken, h.tail, hNode⟩ with hNext | ⟨p, hp⟩
      · unfold MpscState.loaded
        rw [hNext]
        exact Nat.le_refl _
      · rw [hQuiet p] at hp
        cases hp
    · have hSame : (s.loaded backoff).exchanged = s.exchanged := by
        unfold MpscState.loaded
        split
        · rfl
        · split <;> rfl
      unfold stepsLeft
      rw [hSame]
      omega
  unfold MpscState.consumerStep
  cases hPoint : s.consumer with
  | idle => exact ⟨taken, h.loaded 0, hLoaded 0 (by simp [hPoint])⟩
  | load backoff => exact ⟨taken, h.loaded backoff, hLoaded backoff (by simp [hPoint])⟩
  | take n =>
    refine ⟨taken + 1, h.take hPoint, ?_⟩
    simp only [stepsLeft, hPoint]
    omega

theorem consumerStep_kept (s : MpscState α) :
    s.consumerStep.producer = s.producer ∧ s.consumerStep.exchanged = s.exchanged := by
  unfold MpscState.consumerStep MpscState.loaded
  repeat' split
  all_goals exact ⟨rfl, rfl⟩

theorem Good.drained (h : s.Good order taken) (hQuiet : s.Quiet) {steps : Nat}
    (hSteps : s.stepsLeft taken ≤ steps)
    (hRun : runCalls mpscStep (List.replicate steps .consumer) s = some s') :
    s'.dequeued.reduceOption = s.exchanged.reduceOption := by
  induction steps generalizing s taken with
  | zero =>
    cases hRun
    rw [h.dequeued, take_of_length_le]
    unfold stepsLeft at hSteps
    split at hSteps
    next n hn =>
      omega
    next => omega
  | succ steps ih =>
    obtain ⟨taken', hNext, hLess⟩ := h.approaches hQuiet
    obtain ⟨hSame, hExchanged⟩ := s.consumerStep_kept
    rw [← hExchanged]
    exact ih hNext (fun p => by rw [hSame]; exact hQuiet p) (by omega) hRun

theorem Good.isFifo (h : s.Good order taken) : IsFifo s := by
  refine ⟨⟨taken, h.dequeued⟩, fun hQuiet steps hSteps s' hRun => h.drained hQuiet ?_ hRun⟩
  unfold stepsLeft
  omega

end MpscState

/-- In every run of any number of producers and one consumer the queue is first in, first
out: the values dequeued are those of the first exchanges, and all of them arrive. -/
theorem mpsc_isFifo {acts : List (MpscAct α)} {s : MpscState α}
    (hRun : runCalls mpscStep acts cxMpscQueueCreate = some s) : IsFifo s := by
  have hStart : (cxMpscQueueCreate : MpscState α).Good [0] 0 :=
    { nodup := nodup_singleton 0
      known := fun a ha => mem_singleton.mp ha ▸ Nat.zero_lt_one
      head := rfl
      length := rfl
      values := rfl
      tail := rfl
      linked := by
        rintro a b ⟨i, -, hb⟩
        simp at hb
      next := fun a b hNext => by cases hNext
      linking := fun p a b hp => by cases hp
      unlinked := fun p a hp => by cases hp
      apart := fun p q a hp => by cases hp
      taking := fun n hn => by cases hn
      dequeued := rfl }
  have hKeep (act : MpscAct α) (s s' : MpscState α)
      (hInv : ∃ order taken, s.Good order taken) (_ : True) (hStep : mpscStep act s = some s') :
      ∃ order taken, s'.Good order taken := mpscStep_good hInv hStep
  obtain ⟨order, taken, hGood⟩ := runCalls_invariant hKeep ⟨[0], 0, hStart⟩
    (callsMeet_of_forall (fun _ _ => trivial) acts _) hRun
  exact hGood.isFifo

/-- Producer 0 stops between its exchange and its link. Producer 1 completes an enqueue
behind it, and the consumer finds the queue empty until the link is stored. -/
def suspendedProducer : List (MpscAct Nat) :=
  [.cxMpscEnqueue 0 (some 5), .producer 0, .cxMpscEnqueue 1 (some 7), .producer 1, .producer 1] ++
    List.replicate 9 .consumer ++ [.producer 0] ++ List.replicate 4 .consumer

theorem mpsc_isFifo_suspended :
    ∃ s, runCalls mpscStep suspendedProducer cxMpscQueueCreate = some s ∧
      s.exchanged = [some 5, some 7] ∧ s.dequeued = [none, some 5, some 7] ∧ IsFifo s :=
  ⟨_, rfl, rfl, rfl, @mpsc_isFifo Nat suspendedProducer _ rfl⟩

/-- Behind a null pointer the values dequeued are not the first ones exchanged. -/
theorem nullEnqueued_not_prefix :
    ∃ s, runCalls mpscStep
      [.cxMpscEnqueue 0 none, .producer 0, .producer 0, .cxMpscEnqueue 0 (some 5), .producer 0,
        .producer 0, .consumer, .consumer, .consumer, .consumer]
        (cxMpscQueueCreate : MpscState Nat) = some s ∧
      ¬ s.dequeued.filter Option.isSome <+: s.exchanged :=
  ⟨_, rfl, by decide⟩

end Casprix.Net
