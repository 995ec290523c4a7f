import Casprix.Library.Bytes
import Casprix.Library.Machine
import Casprix.Library.RingSlots

/-! The ring buffer of bytes between one writer and one reader. Each load, each byte that is
copied and each store of an index is one step. -/
namespace Casprix.Net

open Function Library List

abbrev Index := BitVec 64

structure CxRingBuffer where
  buf : Nat → Byte
  capacity : Index
  writeIdx : Index
  readIdx : Index

/-- Where the writer stands, with its local variables. `i` bytes are copied. -/
inductive RingWriter
  | idle
  | loadWrite (data : Nat → Byte) (len r : Index)
  | copy (data : Nat → Byte) (w n : Index) (i : Nat)

/-- Where the reader stands, with the bytes it has copied. -/
inductive RingReader
  | idle
  | loadRead (len w : Index)
  | copy (r n : Index) (out : List Byte)

/-- The buffer, its two threads, and the bytes that completed calls took and gave. -/
structure RingState where
  rb : CxRingBuffer
  writer : RingWriter
  reader : RingReader
  accepted : List Byte
  returned : List Byte

def cxIsPow2 (v : Index) : Bool := v != 0 && v &&& (v - 1) == 0

/-- The memory holds anything at first. -/
def cxRingbufCreate (memory : Nat → Byte) (capacityPow2 : Index) : Option RingState :=
  if cxIsPow2 capacityPow2 then
    some {
      rb := { buf := memory, capacity := capacityPow2, writeIdx := 0, readIdx := 0 }
      writer := .idle
      reader := .idle
      accepted := []
      returned := [] }
  else none

/-- Where byte `i` of `n` lies, when the first one is at `idx & mask` and the copy goes on at
the start of the buffer. -/
def CxRingBuffer.place (rb : CxRingBuffer) (idx n : Index) (i : Nat) : Nat :=
  let pos := idx &&& (rb.capacity - 1)
  let toEnd := rb.capacity - pos
  let first := if n > toEnd then toEnd else n
  if i < first.toNat then pos.toNat + i else i - first.toNat

namespace RingState

def writerStep (s : RingState) : Option RingState :=
  match s.writer with
  | .idle => none
  | .loadWrite data len r =>
    let used := s.rb.writeIdx - r
    -- The assertion that the buffer does not overflow.
    if used ≤ s.rb.capacity then
      let freeSpace := s.rb.capacity - used
      let n := if len < freeSpace then len else freeSpace
      some { s with writer := .copy data s.rb.writeIdx n 0 }
    else none
  | .copy data w n i =>
    if i < n.toNat then
      some { s with rb := { s.rb with buf := update s.rb.buf (s.rb.place w n i) (data i) }
                    writer := .copy data w n (i + 1) }
    else
      some { s with rb := { s.rb with writeIdx := w + n }
                    writer := .idle
                    accepted := s.accepted ++ (List.range n.toNat).map data }

def readerStep (s : RingState) : Option RingState :=
  match s.reader with
  | .idle => none
  | .loadRead len w =>
    let used := w - s.rb.readIdx
    if used = 0 then some { s with reader := .idle }
    else some { s with reader := .copy s.rb.readIdx (if len < used then len else used) [] }
  | .copy r n out =>
    if out.length < n.toNat then
      some { s with reader := .copy r n (out ++ [s.rb.buf (s.rb.place r n out.length)]) }
    else
      some { s with rb := { s.rb with readIdx := r + n }
                    reader := .idle
                    returned := s.returned ++ out }

end RingState

inductive RingAct
  | cxRingbufWrite (data : Nat → Byte) (len : Index)
  | writer
  | cxRingbufRead (len : Index)
  | reader

/-- The first load of a call, or the next step of one that has begun. -/
def ringStep : RingAct → RingState → Option RingState
  | .cxRingbufWrite data len, s =>
    match s.writer with
    | .idle => some (if len = 0 then s else { s with writer := .loadWrite data len s.rb.readIdx })
    | _ => none
  | .writer, s => s.writerStep
  | .cxRingbufRead len, s =>
    match s.reader with
    | .idle => some (if len = 0 then s else { s with reader := .loadRead len s.rb.writeIdx })
    | _ => none
  | .reader, s => s.readerStep

/-- What the buffer promises. The writer's assertion holds, and no byte is read where one is
being replaced. -/
structure IsByteStream (s : RingState) : Prop where
  inOrder : s.returned <+: s.accepted
  bounded : s.rb.writeIdx - s.rb.readIdx ≤ s.rb.capacity
  asserted : ∀ data len r, s.writer = .loadWrite data len r →
    s.rb.writeIdx - r ≤ s.rb.capacity
  apart : ∀ data w n i r n' out, s.writer = .copy data w n i → s.reader = .copy r n' out →
    ∀ j < n.toNat, ∀ k < n'.toNat, s.rb.place w n j ≠ s.rb.place r n' k

section

variable {rb : CxRingBuffer} {e : Nat}

theorem place_eq (hCap : rb.capacity.toNat = 2 ^ e) {count i : Nat} {n : Index}
    (hn : n ≤ rb.capacity) (hi : i < n.toNat) :
    rb.place (BitVec.ofNat 64 count) n i = (count + i) % 2 ^ e := by
  have hExp : e < 64 := (Nat.pow_lt_pow_iff_right (by decide)).mp (hCap ▸ rb.capacity.isLt)
  have hPos : 0 < 2 ^ e := Nat.two_pow_pos e
  have hMask : (rb.capacity - 1).toNat = 2 ^ e - 1 := by
    rw [BitVec.toNat_sub_of_le (BitVec.le_def.mpr (by simp [hCap]; omega)), hCap]
    rfl
  have hStart : (BitVec.ofNat 64 count &&& (rb.capacity - 1)).toNat = count % 2 ^ e := by
    rw [BitVec.toNat_and, hMask, Nat.and_two_pow_sub_one_eq_mod, BitVec.toNat_ofNat,
      Nat.mod_mod_of_dvd _ (pow_dvd_pow 2 hExp.le)]
  have hEnd : (rb.capacity - (BitVec.ofNat 64 count &&& (rb.capacity - 1))).toNat =
      2 ^ e - count % 2 ^ e := by
    rw [BitVec.toNat_sub_of_le (BitVec.le_def.mpr (by rw [hStart, hCap]; omega)), hStart, hCap]
  rw [BitVec.le_def, hCap] at hn
  have hSum : (count + i) % 2 ^ e =
      if count % 2 ^ e + i < 2 ^ e then count % 2 ^ e + i else count % 2 ^ e + i - 2 ^ e := by
    rw [← Nat.mod_add_mod]
    split
    next h => exact Nat.mod_eq_of_lt h
    next h => rw [Nat.mod_eq_sub_mod (by omega), Nat.mod_eq_of_lt (by omega)]
  unfold CxRingBuffer.place
  dsimp only
  rw [hSum, hStart]
  by_cases hLong : n > rb.capacity - (BitVec.ofNat 64 count &&& (rb.capacity - 1))
  · rw [if_pos hLong, hEnd]
    split <;> split <;> omega
  · rw [if_neg hLong]
    have hShort := BitVec.le_def.mp (BitVec.not_lt.mp hLong)
    rw [hEnd] at hShort
    rw [if_pos hi, if_pos (by omega)]

theorem ofNat_add_sub {a b : Nat} (hb : b < 2 ^ 64) :
    (BitVec.ofNat 64 (a + b) - BitVec.ofNat 64 a).toNat = b := by
  rw [← BitVec.ofNat_add_ofNat, BitVec.add_comm, BitVec.add_sub_cancel, BitVec.toNat_ofNat,
    Nat.mod_eq_of_lt hb]

theorem ofNat_add (a : Nat) (n : Index) :
    BitVec.ofNat 64 a + n = BitVec.ofNat 64 (a + n.toNat) := by
  rw [← BitVec.ofNat_add_ofNat, BitVec.ofNat_toNat, BitVec.setWidth_eq]

end

def RingWriter.copied : RingWriter → List Byte
  | .copy data _ _ i => (List.range i).map data
  | _ => []

/-- What the writer found is still so: the reader only makes room. -/
def RingWriter.Fits (s : RingState) (pending : List Byte) : RingWriter → Prop
  | .idle => True
  | .loadWrite _ _ r => ∃ stale ≤ s.returned.length, r = BitVec.ofNat 64 stale ∧
      s.accepted.length ≤ stale + s.rb.capacity.toNat
  | .copy _ w n i => w = BitVec.ofNat 64 s.accepted.length ∧ i ≤ n.toNat ∧
      pending.length + n.toNat ≤ s.rb.capacity.toNat

/-- What the reader found is still so: the writer only adds bytes. -/
def RingReader.Fits (s : RingState) (pending : List Byte) : RingReader → Prop
  | .idle => True
  | .loadRead _ w => ∃ seen ≤ pending.length, w = BitVec.ofNat 64 (s.returned.length + seen)
  | .copy r n out => r = BitVec.ofNat 64 s.returned.length ∧ n.toNat ≤ pending.length ∧
      out.length ≤ n.toNat ∧ out = pending.take out.length

/-- The bytes on their way lie in the buffer, and behind them those that the writer has copied
so far. -/
structure RingState.Good (s : RingState) (pending : List Byte) : Prop where
  capacity : ∃ e, s.rb.capacity.toNat = 2 ^ e
  split : s.accepted = s.returned ++ pending
  writeIdx : s.rb.writeIdx = BitVec.ofNat 64 s.accepted.length
  readIdx : s.rb.readIdx = BitVec.ofNat 64 s.returned.length
  bounded : pending.length ≤ s.rb.capacity.toNat
  slots : RingHolds s.rb.buf s.rb.capacity.toNat s.returned.length (pending ++ s.writer.copied)
  writerFits : s.writer.Fits s pending
  readerFits : s.reader.Fits s pending

namespace RingState

variable {s s' : RingState} {pending : List Byte}

section

variable (h : s.Good pending)
include h

theorem Good.length :
    s.accepted.length = s.returned.length + pending.length := by
  rw [h.split, length_append]

theorem Good.isByteStream : IsByteStream s where
  inOrder := ⟨pending, h.split.symm⟩
  bounded := by
    have hBounded := h.bounded
    rw [h.writeIdx, h.readIdx, h.length, BitVec.le_def, ofNat_add_sub (by omega)]
    exact hBounded
  asserted := by
    intro data len r hWriter
    have hFits := h.writerFits
    rw [hWriter] at hFits
    obtain ⟨stale, hStale, rfl, hRoom⟩ := hFits
    have hLength := h.length
    rw [h.writeIdx, show s.accepted.length = stale + (s.accepted.length - stale) by omega,
      BitVec.le_def, ofNat_add_sub (by omega)]
    omega
  apart := by
    intro data w n i r n' out hWriter hReader j hj k hk
    have hWrites := h.writerFits
    have hReads := h.readerFits
    rw [hWriter] at hWrites
    rw [hReader] at hReads
    obtain ⟨rfl, -, hRoom⟩ := hWrites
    obtain ⟨rfl, hPending, -⟩ := hReads
    obtain ⟨e, hCap⟩ := h.capacity
    rw [place_eq hCap (BitVec.le_def.mpr (by omega)) hj,
      place_eq hCap (BitVec.le_def.mpr (by omega)) hk, h.length, add_assoc]
    intro hSame
    have := eq_of_mod_eq (by omega) (by omega) hSame
    omega

theorem Good.reserve {data : Nat → Byte} {len r : Index}
    (hWriter : s.writer = .loadWrite data len r) (hStep : s.writerStep = some s') :
    s'.Good pending := by
  have hFits := h.writerFits
  have hUsed := h.isByteStream.asserted data len r hWriter
  rw [hWriter] at hFits
  obtain ⟨stale, hStale, rfl, hRoom⟩ := hFits
  have hLength := h.length
  have hCount : (s.rb.writeIdx - BitVec.ofNat 64 stale).toNat = s.accepted.length - stale := by
    rw [h.writeIdx, show s.accepted.length = stale + (s.accepted.length - stale) by omega,
      ofNat_add_sub (by omega)]
    omega
  rw [writerStep, hWriter] at hStep
  dsimp only at hStep
  rw [if_pos hUsed] at hStep
  cases hStep
  have hFree : (s.rb.capacity - (s.rb.writeIdx - BitVec.ofNat 64 stale)).toNat =
      s.rb.capacity.toNat - (s.accepted.length - stale) := by
    rw [BitVec.toNat_sub_of_le hUsed, hCount]
  exact { h with
    slots := by
      have hSlots := h.slots
      rw [hWriter] at hSlots
      exact hSlots
    writerFits := by
      refine ⟨h.writeIdx, Nat.zero_le _, ?_⟩
      show _ ≤ s.rb.capacity.toNat
      split
      next hShort =>
        have := BitVec.lt_def.mp hShort
        omega
      next => omega }

theorem Good.copyByte {data : Nat → Byte} {w n : Index} {i : Nat}
    (hWriter : s.writer = .copy data w n i) (hi : i < n.toNat) :
    ({ s with rb := { s.rb with buf := update s.rb.buf (s.rb.place w n i) (data i) }
              writer := .copy data w n (i + 1) } : RingState).Good pending := by
  have hFits := h.writerFits
  have hSlots := h.slots
  rw [hWriter] at hFits hSlots
  obtain ⟨rfl, -, hRoom⟩ := hFits
  obtain ⟨e, hCap⟩ := h.capacity
  change RingHolds _ _ _ (pending ++ (List.range i).map data) at hSlots
  have hLength : (pending ++ (List.range i).map data).length = pending.length + i := by simp
  have hPlace : s.rb.place (BitVec.ofNat 64 s.accepted.length) n i =
      (s.returned.length + (pending ++ (List.range i).map data).length) % s.rb.capacity.toNat := by
    rw [place_eq hCap (BitVec.le_def.mpr (by omega)) hi, h.length, hLength, hCap, add_assoc]
  exact { h with
    slots := by
      show RingHolds _ _ _ (pending ++ (List.range (i + 1)).map data)
      rw [range_succ, map_append, ← append_assoc, hPlace]
      exact (hSlots.update (le_rfl) (by omega) (data i)).push (update_self _ _ _)
    writerFits := ⟨rfl, hi, hRoom⟩
    readerFits := h.readerFits }

theorem Good.publishWrite {data : Nat → Byte} {w n : Index} {i : Nat}
    (hWriter : s.writer = .copy data w n i) (hi : ¬ i < n.toNat) :
    ({ s with rb := { s.rb with writeIdx := w + n }
              writer := .idle
              accepted := s.accepted ++ (List.range n.toNat).map data } : RingState).Good
      (pending ++ (List.range n.toNat).map data) := by
  have hFits := h.writerFits
  have hSlots := h.slots
  rw [hWriter] at hFits hSlots
  obtain ⟨rfl, hCopied, hRoom⟩ := hFits
  have hAll : i = n.toNat := by omega
  subst hAll
  exact {
    capacity := h.capacity
    split := by
      show s.accepted ++ _ = s.returned ++ _
      rw [h.split, append_assoc]
    writeIdx := by
      show _ = BitVec.ofNat 64 (s.accepted ++ _).length
      rw [ofNat_add, length_append, length_map, length_range]
    readIdx := h.readIdx
    bounded := by simpa using hRoom
    slots := by
      rw [show RingWriter.copied .idle = [] from rfl, append_nil]
      exact hSlots
    writerFits := trivial
    readerFits := by
      have hReads := h.readerFits
      show s.reader.Fits _ _
      generalize s.reader = reader at hReads ⊢
      cases reader with
      | idle => trivial
      | loadRead len w =>
        obtain ⟨seen, hSeen, hw⟩ := hReads
        exact ⟨seen, by rw [length_append]; omega, hw⟩
      | copy r n' out =>
        obtain ⟨hr, hCount, hOut, hTake⟩ := hReads
        refine ⟨hr, by rw [length_append]; omega, hOut, ?_⟩
        rw [take_append_of_le_length (by omega)]
        exact hTake }

theorem Good.writerStep (hStep : s.writerStep = some s') :
    ∃ pending', s'.Good pending' := by
  cases hWriter : s.writer with
  | idle =>
    rw [RingState.writerStep, hWriter] at hStep
    cases hStep
  | loadWrite data len r => exact ⟨pending, h.reserve hWriter hStep⟩
  | copy data w n i =>
    rw [RingState.writerStep, hWriter] at hStep
    dsimp only at hStep
    split at hStep
    next hi =>
      cases hStep
      exact ⟨pending, h.copyByte hWriter hi⟩
    next hi =>
      cases hStep
      exact ⟨_, h.publishWrite hWriter hi⟩

theorem Good.publishRead {r n : Index} {out : List Byte}
    (hReader : s.reader = .copy r n out) (hAll : ¬ out.length < n.toNat) :
    ({ s with rb := { s.rb with readIdx := r + n }
              reader := .idle
              returned := s.returned ++ out } : RingState).Good (pending.drop n.toNat) := by
  have hReads := h.readerFits
  rw [hReader] at hReads
  obtain ⟨rfl, hCount, hOut, hTake⟩ := hReads
  have hLength : out.length = n.toNat := by omega
  rw [hLength] at hTake
  have hDrop : (pending.drop n.toNat).length = pending.length - n.toNat := length_drop
  have hReturned : (s.returned ++ out).length = s.returned.length + n.toNat := by
    rw [length_append, hLength]
  exact {
    capacity := h.capacity
    split := by
      show s.accepted = s.returned ++ out ++ _
      rw [h.split, append_assoc, hTake, take_append_drop]
    writeIdx := h.writeIdx
    readIdx := by
      show _ = BitVec.ofNat 64 (s.returned ++ out).length
      rw [ofNat_add, hReturned]
    bounded := by
      have hBounded := h.bounded
      show (pending.drop n.toNat).length ≤ s.rb.capacity.toNat
      omega
    slots := by
      have hSlots := h.slots.drop n.toNat
      rw [drop_append_of_le_length hCount, ← hReturned] at hSlots
      exact hSlots
    writerFits := by
      have hWrites := h.writerFits
      show s.writer.Fits _ _
      generalize s.writer = writer at hWrites ⊢
      cases writer with
      | idle => trivial
      | loadWrite data len r =>
        obtain ⟨stale, hStale, hr, hRoom⟩ := hWrites
        exact ⟨stale, by rw [hReturned]; omega, hr, hRoom⟩
      | copy data w n' i =>
        obtain ⟨hw, hCopied, hRoom⟩ := hWrites
        exact ⟨hw, hCopied, (Nat.add_le_add_right (hDrop ▸ Nat.sub_le _ _) _).trans hRoom⟩
    readerFits := trivial }

theorem Good.readerStep (hStep : s.readerStep = some s') :
    ∃ pending', s'.Good pending' := by
  have hReads := h.readerFits
  rw [RingState.readerStep] at hStep
  generalize hReader : s.reader = reader at hStep hReads ⊢
  cases reader with
  | idle =>
    cases hStep
  | loadRead len w =>
    obtain ⟨seen, hSeen, rfl⟩ := hReads
    have hBounded := h.bounded
    have hUsed : (BitVec.ofNat 64 (s.returned.length + seen) - s.rb.readIdx).toNat = seen := by
      rw [h.readIdx, ofNat_add_sub (by omega)]
    dsimp only at hStep
    split at hStep
    · cases hStep
      exact ⟨pending, { h with readerFits := trivial }⟩
    · cases hStep
      refine ⟨pending, { h with readerFits := ⟨h.readIdx, ?_, Nat.zero_le _, rfl⟩ }⟩
      split
      next hShort =>
        have := BitVec.lt_def.mp hShort
        omega
      next => omega
  | copy r n out =>
    dsimp only at hStep
    split at hStep
    next hMore =>
      cases hStep
      obtain ⟨rfl, hCount, hOut, hTake⟩ := hReads
      obtain ⟨e, hCap⟩ := h.capacity
      have hBounded := h.bounded
      have hHere : pending[out.length]? = some pending[out.length] :=
        List.getElem?_eq_getElem _
      have hByte := h.slots out.length _ (by
        rw [List.getElem?_append_left (by omega)]
        exact hHere)
      refine ⟨pending, { h with readerFits := ⟨rfl, hCount, by simp; omega, ?_⟩ }⟩
      rw [place_eq hCap (BitVec.le_def.mpr (by omega)) hMore, ← hCap, hByte,
        length_append, length_singleton, take_succ_eq_append_getElem (by omega),
        ← hTake]
    next hAll =>
      cases hStep
      exact ⟨_, h.publishRead hReader hAll⟩

end

end RingState

theorem ringStep_good {act : RingAct} {s s' : RingState} (hGood : ∃ pending, s.Good pending)
    (hStep : ringStep act s = some s') : ∃ pending, s'.Good pending := by
  obtain ⟨pending, h⟩ := hGood
  cases act with
  | writer => exact h.writerStep hStep
  | reader => exact h.readerStep hStep
  | cxRingbufWrite data len =>
    cases hWriter : s.writer with
    | loadWrite | copy => simp [ringStep, hWriter] at hStep
    | idle =>
      have hSlots := h.slots
      rw [hWriter] at hSlots
      simp only [ringStep, hWriter, Option.some.injEq] at hStep
      subst hStep
      split
      · exact ⟨pending, h⟩
      · have hBounded := h.bounded
        have hLength := h.length
        exact ⟨pending, { h with
          slots := hSlots
          writerFits := ⟨_, le_rfl, h.readIdx, by
            rw [hLength]; exact Nat.add_le_add_left hBounded _⟩ }⟩
  | cxRingbufRead len =>
    cases hReader : s.reader with
    | loadRead | copy => simp [ringStep, hReader] at hStep
    | idle =>
      simp only [ringStep, hReader, Option.some.injEq] at hStep
      subst hStep
      split
      · exact ⟨pending, h⟩
      · exact ⟨pending, { h with
          readerFits := ⟨pending.length, le_rfl, by rw [← h.length]; exact h.writeIdx⟩ }⟩

/-- In every interleaving of one writer and one reader the bytes come out in the order in which they
were taken, none is read where one is being replaced, and the writer's assertion holds. -/
theorem ringbuf_isByteStream {memory : Nat → Byte} {capacityPow2 : Index} {start s : RingState}
    {acts : List RingAct} (hCreate : cxRingbufCreate memory capacityPow2 = some start)
    (hRun : runCalls ringStep acts start = some s) : IsByteStream s := by
  have hStart : start.Good [] := by
    unfold cxRingbufCreate at hCreate
    split at hCreate
    next hPow =>
      cases hCreate
      simp only [cxIsPow2, Bool.and_eq_true, bne_iff_ne, beq_iff_eq] at hPow
      have hNonzero : capacityPow2.toNat ≠ 0 := fun hZero =>
        hPow.1 (BitVec.eq_of_toNat_eq hZero)
      have hAnd := congrArg BitVec.toNat hPow.2
      rw [BitVec.toNat_and, BitVec.toNat_sub_of_le (BitVec.le_def.mpr (by simp; omega))] at hAnd
      obtain ⟨e, he⟩ := (Nat.and_sub_one_eq_zero_iff_isPowerOfTwo hNonzero).mp hAnd
      exact ⟨⟨e, he⟩, rfl, rfl, rfl, Nat.zero_le _, .nil _ _ _, trivial, trivial⟩
    next => cases hCreate
  have hKeep (act : RingAct) (s s' : RingState) (hInv : ∃ pending, s.Good pending) (_ : True)
      (hStep : ringStep act s = some s') : ∃ pending, s'.Good pending := ringStep_good hInv hStep
  obtain ⟨pending, hGood⟩ := runCalls_invariant hKeep ⟨[], hStart⟩
    (callsMeet_of_forall (fun _ _ => trivial) acts start) hRun
  exact hGood.isByteStream

/-- Two bytes fill a buffer of two. While the second of them is read, a third is written to the
place of the first, and read last. -/
def wrappingActs : List RingAct :=
  [.cxRingbufWrite (fun i => 65 + BitVec.ofNat 8 i) 2, .writer, .writer, .writer, .writer,
    .cxRingbufRead 1, .reader, .reader, .reader, .cxRingbufWrite (fun _ => 67) 1, .writer,
    .cxRingbufRead 2, .reader, .writer, .reader, .writer, .reader,
      .cxRingbufRead 2, .reader, .reader,
    .reader]

theorem ringbuf_isByteStream_wrapping : ∃ start s, cxRingbufCreate (fun _ => 0) 2 = some start ∧
    runCalls ringStep wrappingActs start = some s ∧ s.accepted = [65, 66, 67] ∧
      s.returned = [65, 66, 67] ∧ IsByteStream s :=
  ⟨_, _, rfl, rfl, by decide, by decide,
    @ringbuf_isByteStream (fun _ => 0) 2 _ _ wrappingActs rfl rfl⟩

end Casprix.Net
