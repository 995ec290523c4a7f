import Casprix.Library.Machine
import Casprix.Library.RingSlots

/-! Channels between threads. A critical section is one step, and a thread that waits tests
its condition again whenever it is woken. -/
namespace Casprix.Concurrent

open Function Library List

variable {α : Type*}

/-- A message is a pointer, which may be null. -/
structure Channel (α : Type*) where
  capacity : Int
  buffer : Nat → Option α
  size : Nat
  readPos : Nat
  writePos : Nat
  closed : Bool

def channelCreate (capacity : Int) : Channel α where
  capacity := capacity
  buffer := fun _ => none
  size := 0
  readPos := 0
  writePos := 0
  closed := false

namespace Channel

def isFull (ch : Channel α) : Prop := ch.capacity ≤ ch.size

instance (ch : Channel α) : Decidable ch.isFull := inferInstanceAs (Decidable (_ ≤ _))

/-- A channel without a buffer stores nothing. -/
def store (ch : Channel α) (message : Option α) : Channel α :=
  if 0 < ch.capacity then
    { ch with buffer := update ch.buffer ch.writePos message
              writePos := (ch.writePos + 1) % ch.capacity.toNat
              size := ch.size + 1 }
  else ch

def fetch (ch : Channel α) : Option α × Channel α :=
  if 0 < ch.capacity ∧ 0 < ch.size then
    (ch.buffer ch.readPos,
      { ch with readPos := (ch.readPos + 1) % ch.capacity.toNat, size := ch.size - 1 })
  else (none, ch)

end Channel

inductive ChannelPoint (α : Type*)
  | idle
  | waitNotFull (message : Option α)
  | waitNotEmpty

/-- What the calls returned, and the close. -/
inductive ChannelEvent (α : Type*)
  | sent (message : Option α) (accepted : Bool)
  | received (pointer : Option α)
  | triedRecv (message : Option (Option α))
  | closed

structure ChannelState (α : Type*) where
  ch : Channel α
  thread : Nat → ChannelPoint α
  log : List (ChannelEvent α)

def channelStart (capacity : Int) : ChannelState α where
  ch := channelCreate capacity
  thread := fun _ => .idle
  log := []

namespace ChannelState

/-- A thread leaves its call. -/
def reply (s : ChannelState α) (t : Nat) (ch : Channel α) (event : ChannelEvent α) :
    ChannelState α :=
  { ch := ch, thread := update s.thread t .idle, log := s.log ++ [event] }

/-- The loop of `channel_send` and what follows it. -/
def sendLoop (s : ChannelState α) (t : Nat) (message : Option α) : ChannelState α :=
  if s.ch.isFull ∧ s.ch.closed = false then
    { s with thread := update s.thread t (.waitNotFull message) }
  else if s.ch.closed then s.reply t s.ch (.sent message false)
  else s.reply t (s.ch.store message) (.sent message true)

/-- The loop of `channel_recv` and what follows it. -/
def recvLoop (s : ChannelState α) (t : Nat) : ChannelState α :=
  if s.ch.size = 0 ∧ s.ch.closed = false then
    { s with thread := update s.thread t .waitNotEmpty }
  else if s.ch.size = 0 ∧ s.ch.closed then s.reply t s.ch (.received none)
  else s.reply t s.ch.fetch.2 (.received s.ch.fetch.1)

end ChannelState

inductive ChannelAct (α : Type*)
  | channelSend (t : Nat) (message : Option α)
  | channelTrySend (t : Nat) (message : Option α)
  | channelRecv (t : Nat)
  | channelTryRecv (t : Nat)
  | channelClose (t : Nat)
  | wake (t : Nat)

/-- One step of a thread. A call begins where no other call of the thread is waiting. -/
def channelStep : ChannelAct α → ChannelState α → Option (ChannelState α)
  | .wake t, s =>
    match s.thread t with
    | .idle => none
    | .waitNotFull message => some (s.sendLoop t message)
    | .waitNotEmpty => some (s.recvLoop t)
  | .channelSend t message, s =>
    match s.thread t with
    | .idle =>
      if s.ch.closed then some (s.reply t s.ch (.sent message false))
      else some (s.sendLoop t message)
    | _ => none
  | .channelTrySend t message, s =>
    match s.thread t with
    | .idle =>
      if s.ch.closed ∨ 0 < s.ch.capacity ∧ s.ch.isFull then
        some (s.reply t s.ch (.sent message false))
      else some (s.reply t (s.ch.store message) (.sent message true))
    | _ => none
  | .channelRecv t, s =>
    match s.thread t with
    | .idle => some (s.recvLoop t)
    | _ => none
  | .channelTryRecv t, s =>
    match s.thread t with
    | .idle =>
      if s.ch.size = 0 then some (s.reply t s.ch (.triedRecv none))
      else some (s.reply t s.ch.fetch.2 (.triedRecv (some s.ch.fetch.1)))
    | _ => none
  | .channelClose t, s =>
    match s.thread t with
    | .idle => some (s.reply t { s.ch with closed := true } .closed)
    | _ => none

/-- The messages whose `send` or `try_send` returned true. -/
def ChannelEvent.accepted : ChannelEvent α → List (Option α)
  | .sent message true => [message]
  | _ => []

/-- The messages the receivers got. A null pointer from `channel_recv` reports the end. -/
def ChannelEvent.delivered : ChannelEvent α → List (Option α)
  | .received (some message) => [some message]
  | .triedRecv (some message) => [message]
  | _ => []

def acceptedOf (log : List (ChannelEvent α)) : List (Option α) :=
  log.flatMap ChannelEvent.accepted

def deliveredOf (log : List (ChannelEvent α)) : List (Option α) :=
  log.flatMap ChannelEvent.delivered

/-- What a channel promises, of all that happened so far. -/
structure IsBoundedFifo (s : ChannelState α) : Prop where
  inOrder : deliveredOf s.log <+: acceptedOf s.log
  bounded : (s.ch.size : Int) ≤ s.ch.capacity
  refusedAfterClose : s.log.Pairwise fun before after => before = .closed → after.accepted = []
  endReported : ∀ i, s.log[i]? = some (.received none) →
    .closed ∈ s.log.take i ∧ deliveredOf (s.log.take i) = acceptedOf (s.log.take i)

/-- A message is not null, and `channel_try_send` is not called on an open channel that has no
buffer. -/
def ChannelAct.fits : ChannelAct α → ChannelState α → Prop
  | .channelSend _ message, _ => message ≠ none
  | .channelTrySend _ message, s => message ≠ none ∧ (0 < s.ch.capacity ∨ s.ch.closed)
  | _, _ => True

/-- The buffer holds the queue. -/
structure Channel.Holds (ch : Channel α) (queue : List (Option α)) : Prop where
  size : ch.size = queue.length
  bounded : (ch.size : Int) ≤ ch.capacity
  slots : RingHolds ch.buffer ch.capacity.toNat ch.readPos queue
  write : ch.writePos % ch.capacity.toNat = (ch.readPos + ch.size) % ch.capacity.toNat
  inBuffer : 0 < ch.capacity → ch.writePos < ch.capacity.toNat ∧ ch.readPos < ch.capacity.toNat

theorem channelCreate_holds {capacity : Int} (h : 0 ≤ capacity) :
    (channelCreate capacity : Channel α).Holds [] where
  size := rfl
  bounded := h
  slots := .nil _ _ _
  write := rfl
  inBuffer := fun hPos => by
    have hPos : 0 < capacity := hPos
    show 0 < capacity.toNat ∧ 0 < capacity.toNat
    omega

variable {ch : Channel α} {queue : List (Option α)} {message : Option α}

theorem Channel.Holds.store (h : ch.Holds queue) (hRoom : ¬ ch.isFull) :
    (ch.store message).Holds (queue ++ [message]) := by
  unfold Channel.isFull at hRoom
  have hCapacity : 0 < ch.capacity := by omega
  obtain ⟨hWrite, hRead⟩ := h.inBuffer hCapacity
  have hPlace : ch.writePos = (ch.readPos + queue.length) % ch.capacity.toNat := by
    rw [← h.size, ← h.write, Nat.mod_eq_of_lt hWrite]
  have hLength : queue.length < ch.capacity.toNat := by have := h.size; omega
  rw [Channel.store, if_pos hCapacity]
  exact {
    size := by simp [h.size]
    bounded := by push_cast; omega
    slots := by
      rw [hPlace]
      exact (h.slots.update (le_rfl) hLength message).push (update_self _ _ _)
    write := by
      show (ch.writePos + 1) % _ % _ = _
      rw [Nat.mod_mod, Nat.add_mod, h.write, ← Nat.add_mod]
      rfl
    inBuffer := fun _ => ⟨Nat.mod_lt _ (by omega), hRead⟩ }

theorem Channel.Holds.fetch (h : ch.Holds (message :: queue)) :
    ch.fetch.1 = message ∧ ch.fetch.2.Holds queue := by
  have hSize : ch.size = queue.length + 1 := h.size
  have hBounded := h.bounded
  have hCapacity : 0 < ch.capacity := by omega
  obtain ⟨hWrite, hRead⟩ := h.inBuffer hCapacity
  rw [Channel.fetch, if_pos ⟨hCapacity, by omega⟩]
  refine ⟨?_, ?_⟩
  · rw [← h.slots.head, Nat.mod_eq_of_lt hRead]
  · exact {
      size := by show ch.size - 1 = _; omega
      bounded := by show ((ch.size - 1 : Nat) : Int) ≤ ch.capacity; omega
      slots := (h.slots.drop 1).mod
      write := by
        show ch.writePos % _ = ((ch.readPos + 1) % _ + (ch.size - 1)) % _
        rw [Nat.mod_add_mod, h.write]
        congr 1
        omega
      inBuffer := fun _ => ⟨hWrite, Nat.mod_lt _ (by omega)⟩ }

/-- The log agrees with what is in the channel. -/
structure LogFits (log : List (ChannelEvent α)) (queue : List (Option α)) (closed : Bool) :
    Prop where
  split : acceptedOf log = deliveredOf log ++ queue
  closed_iff : closed = true ↔ .closed ∈ log
  refusedAfterClose : log.Pairwise fun before after => before = .closed → after.accepted = []
  endReported : ∀ i, log[i]? = some (.received none) →
    .closed ∈ log.take i ∧ deliveredOf (log.take i) = acceptedOf (log.take i)

variable {log : List (ChannelEvent α)} {closed : Bool} {event : ChannelEvent α}

theorem acceptedOf_append : acceptedOf (log ++ [event]) = acceptedOf log ++ event.accepted := by
  simp [acceptedOf]

theorem deliveredOf_append :
    deliveredOf (log ++ [event]) = deliveredOf log ++ event.delivered := by
  simp [deliveredOf]

theorem LogFits.append (h : LogFits log queue closed) {queue' : List (Option α)} {closed' : Bool}
    (hSplit : queue ++ event.accepted = event.delivered ++ queue')
    (hClosed : closed' = true ↔ closed = true ∨ event = .closed)
    (hRefused : closed = true → event.accepted = [])
    (hEnd : event = .received none → closed = true ∧ queue = []) :
    LogFits (log ++ [event]) queue' closed' where
  split := by
    rw [acceptedOf_append, deliveredOf_append, h.split, append_assoc, hSplit,
      append_assoc]
  closed_iff := by
    rw [hClosed, h.closed_iff, mem_append, mem_singleton, eq_comm (a := event)]
  refusedAfterClose := by
    refine pairwise_append.mpr ⟨h.refusedAfterClose, pairwise_singleton _ _, ?_⟩
    intro before hBefore after hAfter hIsClose
    rw [mem_singleton.mp hAfter]
    exact hRefused (h.closed_iff.mpr (hIsClose ▸ hBefore))
  endReported := by
    intro i hi
    rcases lt_or_ge i log.length with hOld | hNew
    · rw [List.getElem?_append_left hOld] at hi
      rw [take_append_of_le_length (by omega)]
      exact h.endReported i hi
    · have hLast : i = log.length := by
        have := (List.getElem?_eq_some_iff.mp hi).1
        rw [length_append, length_singleton] at this
        omega
      subst hLast
      rw [List.getElem?_concat_length] at hi
      obtain ⟨hIsClosed, rfl⟩ := hEnd (Option.some.inj hi)
      rw [take_left]
      exact ⟨h.closed_iff.mp hIsClosed, by rw [h.split, append_nil]⟩

/-- The invariant, with the messages on their way. None of them is null, and a waiting sender
holds none either. -/
structure ChannelState.Good (s : ChannelState α) (queue : List (Option α)) : Prop where
  holds : s.ch.Holds queue
  log : LogFits s.log queue s.ch.closed
  nonNull : none ∉ queue
  waiting : ∀ t, s.thread t ≠ .waitNotFull none

namespace ChannelState

variable {s s' : ChannelState α} {t : Nat}

section

variable (h : s.Good queue)
include h

theorem Good.isBoundedFifo : IsBoundedFifo s where
  inOrder := ⟨queue, h.log.split.symm⟩
  bounded := h.holds.bounded
  refusedAfterClose := h.log.refusedAfterClose
  endReported := h.log.endReported

theorem Good.setThread {point : ChannelPoint α} (hPoint : point ≠ .waitNotFull none) :
    ({ s with thread := update s.thread t point } : ChannelState α).Good queue :=
  { h with
    waiting := fun u => by
      show update s.thread t point u ≠ _
      by_cases hu : u = t
      · rw [hu, update_self]
        exact hPoint
      · rw [update_of_ne hu]
        exact h.waiting u }

theorem Good.reply {queue' : List (Option α)} {ch : Channel α}
    (hHolds : ch.Holds queue') (hLog : LogFits (s.log ++ [event]) queue' ch.closed)
    (hNonNull : none ∉ queue') : (s.reply t ch event).Good queue' where
  holds := hHolds
  log := hLog
  nonNull := hNonNull
  waiting := (h.setThread (by simp : ChannelPoint.idle ≠ .waitNotFull none)).waiting

theorem Good.replySame (hAccepted : event.accepted = []) (hDelivered : event.delivered = [])
    (hClose : event ≠ .closed)
    (hEnd : event = .received none → s.ch.closed = true ∧ queue = []) :
    (s.reply t s.ch event).Good queue :=
  h.reply h.holds (h.log.append (by rw [hAccepted, hDelivered, append_nil, nil_append])
    (by simp [hClose]) (fun _ => hAccepted) hEnd) h.nonNull

theorem Good.accept (hOpen : s.ch.closed = false) (hRoom : ¬ s.ch.isFull)
    (hMessage : message ≠ none) :
    (s.reply t (s.ch.store message) (.sent message true)).Good (queue ++ [message]) := by
  have hClosed : (s.ch.store message).closed = s.ch.closed := by
    unfold Channel.store
    split <;> rfl
  refine h.reply (h.holds.store hRoom) ?_ ?_
  · rw [hClosed]
    exact h.log.append rfl (by simp) (fun hNo => absurd (hOpen.symm.trans hNo) Bool.false_ne_true)
      (fun hNo => by cases hNo)
  · rw [mem_append, mem_singleton, not_or]
    exact ⟨h.nonNull, hMessage.symm⟩

theorem Good.sendLoop (hMessage : message ≠ none) :
    ∃ queue', (s.sendLoop t message).Good queue' := by
  unfold ChannelState.sendLoop
  split
  · exact ⟨queue, h.setThread fun hNo => hMessage (ChannelPoint.waitNotFull.inj hNo)⟩
  next hGoOn =>
    split
    · exact ⟨queue, h.replySame rfl rfl (by simp) (by simp)⟩
    next hOpen =>
      rw [Bool.not_eq_true] at hOpen
      exact ⟨_, h.accept hOpen (fun hFull => hGoOn ⟨hFull, hOpen⟩) hMessage⟩

theorem Good.deliver (hSize : s.ch.size ≠ 0) (event : Option α → ChannelEvent α)
    (hEvent : ∀ pointer, pointer ≠ none → (event pointer).accepted = [] ∧
      (event pointer).delivered
      = [pointer] ∧ event pointer ≠ .closed ∧ event pointer ≠ .received none) :
    ∃ queue', (s.reply t s.ch.fetch.2 (event s.ch.fetch.1)).Good queue' := by
  cases queue with
  | nil => exact absurd h.holds.size hSize
  | cons message queue =>
    obtain ⟨hFirst, hRest⟩ := h.holds.fetch
    have hNonNull := h.nonNull
    rw [mem_cons, not_or] at hNonNull
    obtain ⟨hAccepted, hDelivered, hClose, hEnd⟩ := hEvent message (Ne.symm hNonNull.1)
    have hClosed : s.ch.fetch.2.closed = s.ch.closed := by
      unfold Channel.fetch
      split <;> rfl
    refine ⟨queue, h.reply hRest ?_ hNonNull.2⟩
    rw [hFirst, hClosed]
    exact h.log.append (by rw [hAccepted, hDelivered, append_nil]; rfl) (by simp [hClose])
      (fun _ => hAccepted) (fun hNo => absurd hNo hEnd)

theorem Good.recvLoop : ∃ queue', (s.recvLoop t).Good queue' := by
  unfold ChannelState.recvLoop
  split
  · exact ⟨queue, h.setThread (by simp)⟩
  next hGoOn =>
    split
    next hEnd =>
      have hEmpty : queue = [] := length_eq_zero_iff.mp (h.holds.size.symm.trans hEnd.1)
      exact ⟨queue, h.replySame rfl rfl (by simp) fun _ => ⟨hEnd.2, hEmpty⟩⟩
    next hNotEnd =>
      refine h.deliver (fun hZero => ?_) .received fun pointer hPointer => ?_
      · cases hClosed : s.ch.closed with
        | false => exact hGoOn ⟨hZero, hClosed⟩
        | true => exact hNotEnd ⟨hZero, hClosed⟩
      · obtain ⟨message, rfl⟩ := Option.ne_none_iff_exists'.mp hPointer
        exact ⟨rfl, rfl, by simp, by simp⟩

end

end ChannelState

theorem channelStep_good {act : ChannelAct α} {s s' : ChannelState α}
    (hGood : ∃ queue, s.Good queue) (hFits : act.fits s) (hStep : channelStep act s = some s') :
    ∃ queue, s'.Good queue := by
  obtain ⟨queue, h⟩ := hGood
  cases act with
  | wake t =>
    rw [channelStep] at hStep
    split at hStep
    · cases hStep
    next message hWaits =>
      cases hStep
      exact h.sendLoop fun hNull => h.waiting t (hNull ▸ hWaits)
    · cases hStep
      exact h.recvLoop
  | channelSend t message =>
    rw [channelStep] at hStep
    split at hStep
    · split at hStep
      · cases hStep
        exact ⟨queue, h.replySame rfl rfl (by simp) (by simp)⟩
      · cases hStep
        exact h.sendLoop hFits
    · cases hStep
  | channelTrySend t message =>
    rw [channelStep] at hStep
    split at hStep
    · split at hStep
      · cases hStep
        exact ⟨queue, h.replySame rfl rfl (by simp) (by simp)⟩
      next hGoOn =>
        cases hStep
        rw [not_or, Bool.not_eq_true] at hGoOn
        have hBuffered : 0 < s.ch.capacity :=
          hFits.2.resolve_right fun hNo => Bool.false_ne_true (hGoOn.1.symm.trans hNo)
        exact ⟨_, h.accept hGoOn.1 (fun hFull => hGoOn.2 ⟨hBuffered, hFull⟩) hFits.1⟩
    · cases hStep
  | channelRecv t =>
    rw [channelStep] at hStep
    split at hStep
    · cases hStep
      exact h.recvLoop
    · cases hStep
  | channelTryRecv t =>
    rw [channelStep] at hStep
    split at hStep
    · split at hStep
      · cases hStep
        exact ⟨queue, h.replySame rfl rfl (by simp) (by simp)⟩
      next hSize =>
        cases hStep
        exact h.deliver hSize (fun pointer => .triedRecv (some pointer)) fun _ _ =>
          ⟨rfl, rfl, by simp, by simp⟩
    · cases hStep
  | channelClose t =>
    rw [channelStep] at hStep
    split at hStep
    · cases hStep
      exact ⟨queue, h.reply { h.holds with } (h.log.append (append_nil queue) (by simp)
        (fun _ => rfl) (fun hNo => by cases hNo)) h.nonNull⟩
    · cases hStep

/-- Every channel is a bounded queue with close, in every run without null messages in which
nothing is tried on an open channel without a buffer. -/
theorem channel_isBoundedFifo {capacity : Int} (hCapacity : 0 ≤ capacity)
    {acts : List (ChannelAct α)} {s : ChannelState α}
    (hFits : CallsMeet channelStep ChannelAct.fits acts (channelStart capacity))
    (hRun : runCalls channelStep acts (channelStart capacity) = some s) : IsBoundedFifo s := by
  have hStart : (channelStart capacity : ChannelState α).Good [] :=
    { holds := channelCreate_holds hCapacity
      log :=
        { split := rfl
          closed_iff := by simp [channelStart, channelCreate]
          refusedAfterClose := .nil
          endReported := fun i hi => by cases hi }
      nonNull := not_mem_nil
      waiting := fun _ => by simp [channelStart] }
  have hKeep (act : ChannelAct α) (s s' : ChannelState α) (hInv : ∃ queue, s.Good queue)
      (hOk : act.fits s) (hStep : channelStep act s = some s') : ∃ queue, s'.Good queue :=
    channelStep_good hInv hOk hStep
  obtain ⟨queue, hGood⟩ := runCalls_invariant hKeep ⟨[], hStart⟩ hFits hRun
  exact hGood.isBoundedFifo

/-- Thread 1 waits for the first message. Thread 0 waits with its fourth until the channel
is closed, and what the buffer holds is received after the close. -/
def handedOver : List (ChannelAct Nat) :=
  [.channelRecv 1, .channelSend 0 (some 7), .wake 1, .channelSend 0 (some 8),
    .channelTrySend 0 (some 9), .channelSend 0 (some 10), .channelClose 1, .wake 0,
    .channelRecv 1, .channelTryRecv 1, .channelRecv 1]

theorem handedOver_fits :
    CallsMeet channelStep ChannelAct.fits handedOver (channelStart 2) :=
  ⟨trivial, Option.some_ne_none 7, trivial, Option.some_ne_none 8,
    ⟨Option.some_ne_none 9, .inl (by decide)⟩, Option.some_ne_none 10, trivial, trivial,
      trivial, trivial, trivial, trivial⟩

/-- Three messages pass the channel in their order, the fourth is refused after the close. -/
theorem channel_isBoundedFifo_handover :
    ∃ s : ChannelState Nat, runCalls channelStep handedOver (channelStart 2) = some s ∧
      s.log = [.sent (some 7) true, .received (some 7), .sent (some 8) true, .sent (some 9) true,
        .closed, .sent (some 10) false, .received (some 8), .triedRecv (some (some 9)),
        .received none] ∧ IsBoundedFifo s :=
  ⟨_, rfl, rfl, @channel_isBoundedFifo Nat 2 (by decide) handedOver _ handedOver_fits rfl⟩

/-- An unbuffered channel accepts a message and loses it. -/
theorem unbuffered_not_isBoundedFifo :
    ∃ s : ChannelState Nat, runCalls channelStep
      [.channelTrySend 0 (some 7), .channelClose 0, .channelRecv 1] (channelStart 0) = some s ∧
        ¬ IsBoundedFifo s :=
  ⟨_, rfl, fun h => absurd (h.endReported 2 rfl).2 (by decide)⟩

end Casprix.Concurrent
