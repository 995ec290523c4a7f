import Casprix.Library.RingSlots
import Casprix.Logging.Queue

/-! What the sequence numbers of the slots say at every point of every thread. The
positions from the first that is not released, as many as there are slots, are all
in different slots, and each is free, claimed, published or picked. -/
namespace Casprix.Logging

/-- A line is the message, with some timestamp. -/
def LogLine.Shows (line : LogLine) (m : LogMessage) : Prop :=
  line.levelStr = Logging.levelStr m.level ∧ line.msg = m.cut

/-- The position that a producer has claimed and not yet published. -/
def PushPoint.owns : PushPoint → Option Nat
  | .fill _ pos => some pos
  | .publish _ pos => some pos
  | _ => none

variable {s' : LogState}

namespace LogState

variable (s : LogState)

/-- The slot of a position stores the message of the position. -/
def Stores (pos : Nat) (m : LogMessage) : Prop :=
  (s.slot pos).len = m.cut.length ∧ (s.slot pos).level = m.level ∧
    (s.slot pos).msg.take m.cut.length = m.cut

/-- The slot of a position is published with its message. -/
def Published (pos : Nat) : Prop :=
  (s.slot pos).seq = pos + 1 ∧ ∃ m, s.entries[pos]? = some m ∧ s.Stores pos m

/-- The positions from `released` on have not been made free for their next turn. -/
structure QueueGood (s : LogState) (released : Nat) : Prop where
  isPowerOfTwo : (s.mask + 1).isPowerOfTwo
  two_le : 2 ≤ s.mask + 1
  released_le : released ≤ s.dequeuePos
  dequeue_le : s.dequeuePos ≤ s.enqueuePos
  enqueue_le : s.enqueuePos ≤ released + (s.mask + 1)
  entries_length : s.entries.length = s.enqueuePos
  free : ∀ p, s.enqueuePos ≤ p → p < released + (s.mask + 1) → (s.slot p).seq = p
  claimed : ∀ p, s.dequeuePos ≤ p → p < s.enqueuePos → (s.slot p).seq = p ∨ s.Published p
  taken : ∀ p, released ≤ p → p < s.dequeuePos → s.Published p
  accepted : ∀ e ∈ s.accepted,
    s.entries[e.1]? = some e.2 ∧ (released ≤ e.1 → (s.slot e.1).seq = e.1 + 1)
  accepted_nodup : (s.accepted.map Prod.fst).Nodup
  written : ∀ (i : Nat) (line : LogLine), s.written[i]? = some line →
    ∃ m, s.entries[i]? = some m ∧ line.Shows m
  dropped_eq : s.dropped = s.refused

/-- What a producer knows of the position it works on. -/
def PushGood (released : Nat) : PushPoint → Prop
  | .loadSeq _ pos => pos ≤ s.enqueuePos
  | .exchange _ pos => pos < released + (s.mask + 1)
  | .fill m pos => s.dequeuePos ≤ pos ∧ pos < s.enqueuePos ∧ (s.slot pos).seq = pos ∧
      s.entries[pos]? = some m
  | .publish m pos => s.dequeuePos ≤ pos ∧ pos < s.enqueuePos ∧ (s.slot pos).seq = pos ∧
      s.entries[pos]? = some m ∧ s.Stores pos m
  | _ => True

/-- Picked slots are those of consecutive positions. -/
def Picks (start : Nat) (picked : List LogPick) : Prop :=
  ∀ i pick, picked[i]? = some pick → pick.pos = start + i ∧
    ∃ m, s.entries[start + i]? = some m ∧
      pick.levelStr = levelStr m.level ∧ pick.len = m.cut.length

/-- What the drain thread knows, and how far it has written. -/
def DrainGood (released : Nat) : DrainPoint → Prop
  | .loadRunning => released = s.dequeuePos ∧ s.written.length = s.dequeuePos
  | .pick _ picked => s.Picks released picked ∧ released + picked.length = s.dequeuePos ∧
      s.written.length = released
  | .loadSeq _ picked pos => s.Picks released picked ∧ released + picked.length = s.dequeuePos ∧
      s.written.length = released ∧ pos = s.dequeuePos
  | .exchange _ picked pos =>
    s.Picks released picked ∧ released + picked.length = s.dequeuePos ∧
      s.written.length = released ∧ pos = s.dequeuePos ∧ pos < s.enqueuePos ∧
      (s.slot pos).seq = pos + 1
  | .format _ picked pos => s.Picks released picked ∧ released + picked.length = pos ∧
      s.written.length = released ∧ pos + 1 = s.dequeuePos
  | .write _ picked => s.Picks released picked ∧ released + picked.length = s.dequeuePos ∧
      s.written.length = released
  | .release _ todo => s.Picks released todo ∧ released + todo.length = s.dequeuePos ∧
      s.written.length = s.dequeuePos
  | .exited => released = s.dequeuePos ∧ s.written.length = s.dequeuePos

/-- The positions below this one may be owed to a producer at shutdown. -/
def owed : Nat := (s.promised.map fun e => e.1 + 1).foldr max 0

/-- The last batch reaches the positions that are owed. -/
def LastGood (released : Nat) : DrainPoint → Prop
  | .pick true _ => s.running = false ∧ s.owed ≤ released + 32
  | .loadSeq true _ _ => s.running = false ∧ s.owed ≤ released + 32
  | .exchange true _ _ => s.running = false ∧ s.owed ≤ released + 32
  | .format true _ _ => s.running = false ∧ s.owed ≤ released + 32
  | .write true _ => s.running = false ∧ s.owed ≤ s.dequeuePos
  | .release true _ => s.running = false ∧ s.owed ≤ s.dequeuePos
  | .exited => s.running = false ∧ s.owed ≤ s.dequeuePos
  | _ => True

structure Good (s : LogState) (released : Nat) : Prop where
  queue : s.QueueGood released
  producer : ∀ k, s.PushGood released (s.producer k)
  apart : ∀ j k p, (s.producer j).owns = some p → (s.producer k).owns = some p → j = k
  drain : s.DrainGood released s.drain
  last : s.LastGood released s.drain
  running : s.shutdown = .idle → s.running = true
  promised : ∀ e ∈ s.promised, e ∈ s.accepted
  exited : s.shutdown = .returned → s.drain = .exited

variable {s : LogState} {released p q : Nat} {slot : CpxLogSlot}

theorem slot_setSlot_self : (s.setSlot p slot).slot p = slot := Function.update_self _ _ _

theorem slot_setSlot_of_ne (h : p &&& s.mask ≠ q &&& s.mask) :
    (s.setSlot q slot).slot p = s.slot p :=
  Function.update_of_ne h _ _

namespace QueueGood

theorem slot_ne (h : s.QueueGood released) (hp : released ≤ p)
    (hpLt : p < released + (s.mask + 1))
    (hq : released ≤ q) (hqLt : q < released + (s.mask + 1)) (hNe : p ≠ q) :
    p &&& s.mask ≠ q &&& s.mask := by
  rcases lt_or_gt_of_ne hNe with hLt | hLt
  · exact Library.masked_ne h.isPowerOfTwo hLt (by omega)
  · exact (Library.masked_ne h.isPowerOfTwo hLt (by omega)).symm

/-- A position that can be claimed next is free only if it is less than a whole turn ahead. -/
theorem lt_of_seq_eq (h : s.QueueGood released) (hLe : p ≤ s.enqueuePos)
    (hSeq : (s.slot p).seq = p) : p < released + (s.mask + 1) := by
  have hEnqueue := h.enqueue_le
  by_contra hFull
  have hp : p = released + (s.mask + 1) := by omega
  have hTwo := h.two_le
  -- The slot still has the sequence number of the position one turn before.
  have hSlot : s.slot p = s.slot released := by
    rw [hp]
    exact congrArg s.slots (Library.masked_add h.isPowerOfTwo released)
  have hBefore : (s.slot released).seq = released ∨ (s.slot released).seq = released + 1 := by
    by_cases hTaken : released < s.dequeuePos
    · exact .inr (h.taken released (le_rfl) hTaken).1
    · rcases h.claimed released (by omega) (by omega) with hSeq | hPublished
      · exact .inl hSeq
      · exact .inr hPublished.1
  rw [hSlot] at hSeq
  omega

theorem lt_of_seq_succ (h : s.QueueGood released)
    (hSeq : (s.slot s.dequeuePos).seq = s.dequeuePos + 1) :
    s.dequeuePos < s.enqueuePos := by
  have hDequeue := h.dequeue_le
  have hEnqueue := h.enqueue_le
  by_contra hEmpty
  by_cases hFree : s.dequeuePos < released + (s.mask + 1)
  · have hSeqFree := h.free s.dequeuePos (by omega) hFree
    omega
  · -- Everything is picked and nothing released.
    have hp : s.dequeuePos = released + (s.mask + 1) := by omega
    have hSlot : s.slot s.dequeuePos = s.slot released := by
      rw [hp]
      exact congrArg s.slots (Library.masked_add h.isPowerOfTwo released)
    have hTaken := (h.taken released (le_rfl) (by omega)).1
    rw [hSlot] at hSeq
    omega

end QueueGood

theorem stores_of_slot_eq {m : LogMessage} (h : s.Stores p m) (hSlot : s'.slot p = s.slot p) :
    s'.Stores p m := by
  rw [Stores, hSlot]
  exact h

theorem published_of_slot_eq (h : s.Published p) (hSlot : s'.slot p = s.slot p)
    (hEntries : ∀ m, s.entries[p]? = some m → s'.entries[p]? = some m) : s'.Published p := by
  obtain ⟨hSeq, m, hEntry, hStores⟩ := h
  refine ⟨?_, m, hEntries m hEntry, stores_of_slot_eq hStores hSlot⟩
  rw [hSlot]
  exact hSeq

theorem picks_of_entries {start : Nat} {picked : List LogPick} (h : s.Picks start picked)
    (hEntries : ∀ (p : Nat) (m : LogMessage), s.entries[p]? = some m →
      s'.entries[p]? = some m) :
    s'.Picks start picked := by
  intro i pick hPick
  obtain ⟨hPos, m, hEntry, hRest⟩ := h i pick hPick
  exact ⟨hPos, m, hEntries _ m hEntry, hRest⟩

theorem lt_owed {e : Nat × LogMessage} (h : e ∈ s.promised) : e.1 < s.owed := by
  rw [owed]
  revert h
  generalize s.promised = promised
  intro h
  induction promised with
  | nil => cases h
  | cons first rest ih =>
    rw [List.map_cons, List.foldr_cons]
    rcases List.mem_cons.mp h with rfl | hRest
    · exact (Nat.lt_succ_self _).trans_le (le_max_left _ _)
    · exact (ih hRest).trans_le (le_max_right _ _)

end LogState

end Casprix.Logging
