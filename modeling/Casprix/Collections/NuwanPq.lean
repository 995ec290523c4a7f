import Casprix.Library.MinHeap
import Casprix.Library.Refinement
import Mathlib.Algebra.Group.Nat.Defs
import Mathlib.Data.Multiset.Basic

/-! The priority queue: a binary heap of priorities, with the values in a second array. -/
namespace Casprix.Collections

open Function List Library

/-- `PQ_INIT_CAP`. -/
def pqInitCap : Nat := 16

/-- The numbers in a block of memory. -/
abbrev Numbers := Nat → Int

/-- How many numbers a block has room for that is asked for as `cap * sizeof(int64_t)` bytes. The
product is a `size_t`. -/
def pqRoom (cap : Nat) : Nat := cap * 8 % 2 ^ 64 / 8

/-- `room` is what the blocks behind `prios` and `vals` have room for; the source only has `cap`. -/
structure NuwanPq where
  prios : Numbers
  vals : Numbers
  room : Nat
  size : Nat
  cap : Nat

/-- `np` and `nv` are what the arena's blocks hold. -/
def nuwanPqNew (np nv : Numbers) : NuwanPq :=
  { prios := np, vals := nv, room := pqRoom pqInitCap, size := 0, cap := pqInitCap }

/-- What `memcpy` leaves of a new block behind the first `size` numbers. -/
def copied (old : Numbers) (size : Nat) (new : Numbers) :
    Numbers := fun i => if i < size then old i else new i

/-- `np` and `nv` are the blocks that the arena gives, if it gives any. There is no result where
`memcpy` writes behind them. -/
def nuwanPqReserve (pq : NuwanPq) (cap : Nat) (np nv : Option Numbers) : Option (Bool × NuwanPq) :=
  if cap ≤ pq.cap then some (true, pq)
  else
    match np, nv with
    | some np, some nv =>
      if pq.size ≤ pqRoom cap then
        some (true, { pq with prios := copied pq.prios pq.size np
                              vals := copied pq.vals pq.size nv
                              room := pqRoom cap
                              cap := cap })
      else none
    | _, _ => some (false, pq)

def exchange (mem : Numbers) (a b : Nat) : Numbers := update (update mem a (mem b)) b (mem a)

def pqSwap (pq : NuwanPq) (a b : Nat) : NuwanPq :=
  { pq with prios := exchange pq.prios a b, vals := exchange pq.vals a b }

/-- The loop of `nuwan_pq_push`. -/
def siftUp (pq : NuwanPq) (i : Nat) : NuwanPq :=
  if h : i > 0 then
    let parent := (i - 1) / 2
    if pq.prios parent ≤ pq.prios i then pq
    else
      have : (i - 1) / 2 < i := heapParent_lt h
      siftUp (pqSwap pq parent i) parent
  else pq
termination_by i

/-- One child is compared with the least node so far. -/
def lesser (pq : NuwanPq) (best child : Nat) : Nat :=
  if child < pq.size ∧ pq.prios child < pq.prios best then child else best

/-- `smallest`. -/
def smallest (pq : NuwanPq) (i : Nat) : Nat := lesser pq (lesser pq i (2 * i + 1)) (2 * i + 2)

section

variable {pq : NuwanPq} {i best child : Nat}

theorem lesser_cases (pq : NuwanPq) (best child : Nat) : lesser pq best child = best ∨
    lesser pq best child = child ∧ child < pq.size ∧ pq.prios child < pq.prios best := by
  unfold lesser
  split
  · next hLess => exact .inr ⟨rfl, hLess⟩
  · exact .inl rfl

theorem prios_lesser_le_best : pq.prios (lesser pq best child) ≤ pq.prios best := by
  rcases lesser_cases pq best child with hBest | ⟨hChild, _, hLess⟩
  · rw [hBest]
  · rw [hChild]
    exact hLess.le

theorem prios_lesser_le_child (hChild : child < pq.size) :
    pq.prios (lesser pq best child) ≤ pq.prios child := by
  unfold lesser
  split
  · exact le_refl _
  · next hNot => exact not_lt.mp fun hLess => hNot ⟨hChild, hLess⟩

theorem smallest_cases (pq : NuwanPq) (i : Nat) : smallest pq i = i ∨
    0 < smallest pq i ∧ smallest pq i < pq.size ∧ heapParent (smallest pq i) = i ∧
      pq.prios (smallest pq i) < pq.prios i := by
  unfold smallest heapParent
  rcases lesser_cases pq i (2 * i + 1) with hLeft | ⟨hLeft, hInLeft, hLessLeft⟩
  · rw [hLeft]
    rcases lesser_cases pq i (2 * i + 2) with hRight | ⟨hRight, hIn, hLess⟩
    · exact .inl hRight
    · rw [hRight]
      exact .inr ⟨by omega, hIn, by omega, hLess⟩
  · rw [hLeft]
    rcases lesser_cases pq (2 * i + 1) (2 * i + 2) with hRight | ⟨hRight, hIn, hLess⟩
    · rw [hRight]
      exact .inr ⟨by omega, hInLeft, by omega, hLessLeft⟩
    · rw [hRight]
      exact .inr ⟨by omega, hIn, by omega, hLess.trans hLessLeft⟩

theorem prios_smallest_le {c : Nat} (hPos : 0 < c) (hLt : c < pq.size)
    (hParent : heapParent c = i) :
    pq.prios (smallest pq i) ≤ pq.prios c := by
  rw [heapParent_eq_iff hPos] at hParent
  rcases hParent with rfl | rfl
  · exact prios_lesser_le_best.trans (prios_lesser_le_child hLt)
  · exact prios_lesser_le_child hLt

end

/-- The loop of `nuwan_pq_pop`. -/
def siftDown (pq : NuwanPq) (i : Nat) : NuwanPq :=
  if h : smallest pq i = i then pq
  else
    have : pq.size - smallest pq i < pq.size - i := by
      obtain ⟨hPos, hLt, hParent, _⟩ := (smallest_cases pq i).resolve_left h
      have hDown := heapParent_lt hPos
      omega
    siftDown (pqSwap pq i (smallest pq i)) (smallest pq i)
termination_by pq.size - i

/-- A full queue doubles its capacity, in `size_t` arithmetic. -/
def pqGrowIfFull (pq : NuwanPq) (np nv : Option Numbers) : Option (Bool × NuwanPq) :=
  if pq.size = pq.cap then nuwanPqReserve pq (pq.cap * 2 % 2 ^ 64) np nv else some (true, pq)

/-- The pair at the end, before it rises. -/
def pqAdded (pq : NuwanPq) (priority value : Int) : NuwanPq :=
  { pq with prios := update pq.prios pq.size priority
            vals := update pq.vals pq.size value
            size := pq.size + 1 }

/-- There is no result where the pair is written behind the blocks. -/
def nuwanPqPush (pq : NuwanPq) (np nv : Option Numbers) (priority value : Int) :
    Option (Bool × NuwanPq) :=
  match pqGrowIfFull pq np nv with
  | some (true, pq) =>
    if pq.size < pq.room then some (true, siftUp (pqAdded pq priority value) pq.size) else none
  | some (false, pq) => some (false, pq)
  | none => none

def nuwanPqPop (pq : NuwanPq) : Int × NuwanPq :=
  if pq.size = 0 then (0, pq)
  else
    let moved : NuwanPq :=
      { pq with prios := update pq.prios 0 (pq.prios (pq.size - 1))
                vals := update pq.vals 0 (pq.vals (pq.size - 1))
                size := pq.size - 1 }
    (pq.vals 0, siftDown moved 0)

def nuwanPqPeekPriority (pq : NuwanPq) : Int := if pq.size = 0 then 0 else pq.prios 0

/-- What a loop takes out of the queue that looks at each priority first. -/
def drain : Nat → NuwanPq → List (Int × Int)
  | 0, _ => []
  | n + 1, pq => (nuwanPqPeekPriority pq, (nuwanPqPop pq).1) :: drain n (nuwanPqPop pq).2

inductive PqOp where
  | push (np nv : Option Numbers) (priority value : Int)
  | pop
  | reserve (np nv : Option Numbers) (cap : BitVec 64)

inductive PqReply where
  | done (ok : Bool)
  | value (v : Int)
  deriving DecidableEq

def pqStep (op : PqOp) (pq : NuwanPq) : Option (PqReply × NuwanPq) :=
  match op with
  | .push np nv priority value =>
    (nuwanPqPush pq np nv priority value).map fun result => (.done result.1, result.2)
  | .pop => some (.value (nuwanPqPop pq).1, (nuwanPqPop pq).2)
  | .reserve np nv cap =>
    (nuwanPqReserve pq cap.toNat np nv).map fun result => (.done result.1, result.2)

/-- The size of the new blocks, rounded up to a multiple of 64 as the arena does, is
not cut to `size_t`. -/
def PqFits : PqOp → NuwanPq → Prop
  | .push .., pq => pq.size = pq.cap → pq.cap * 2 * 8 + 63 < 2 ^ 64
  | .pop, _ => True
  | .reserve _ _ cap, pq => pq.cap < cap.toNat → cap.toNat * 8 + 63 < 2 ^ 64

/-- What a priority queue is for: of the pairs that it holds, one with a least priority leaves it
first. Without memory a pair may be refused. -/
inductive LeastFirst : PqOp → PqReply → Multiset (Int × Int) →
    Multiset (Int × Int) → Prop where
  | push (np nv : Option Numbers) (priority value : Int) (pairs : Multiset (Int × Int)) :
      LeastFirst (.push np nv priority value) (.done true) pairs ((priority, value) ::ₘ pairs)
  | refuse {np nv : Option Numbers} (hNone : np = none ∨ nv = none) (priority value : Int)
      (pairs : Multiset (Int × Int)) :
        LeastFirst (.push np nv priority value) (.done false) pairs pairs
  | pop {priority value : Int} {pairs : Multiset (Int × Int)}
      (hLeast : ∀ pair ∈ (priority, value) ::ₘ pairs, priority ≤ pair.1) :
      LeastFirst .pop (.value value) ((priority, value) ::ₘ pairs) pairs
  | popEmpty : LeastFirst .pop (.value 0) 0 0
  | reserve (np nv : Option Numbers) (cap : BitVec 64) (ok : Bool) (pairs : Multiset (Int × Int)) :
      LeastFirst (.reserve np nv cap) (.done ok) pairs pairs

namespace NuwanPq

variable {pq : NuwanPq} {i : Nat} {np nv : Option Numbers}

/-- The pair at an index. -/
def pair (pq : NuwanPq) (i : Nat) : Int × Int := (pq.prios i, pq.vals i)

/-- The stored pairs. -/
def pairs (pq : NuwanPq) :
    Multiset (Int × Int) := ((List.range pq.size).map pq.pair : List (Int × Int))

structure Valid (pq : NuwanPq) : Prop where
  size_le : pq.size ≤ pq.cap
  cap_pos : 0 < pq.cap
  room_eq : pq.room = pq.cap
  ordered : HeapOrdered pq.prios pq.size

theorem exchange_eq (mem : Numbers) (a b : Nat) : exchange mem a b = mem ∘ Equiv.swap a b := by
  funext i
  unfold exchange
  simp only [comp_apply, update_apply, Equiv.swap_apply_def]
  by_cases hb : i = b
  · subst hb
    by_cases ha : i = a
    · simp [ha]
    · simp [ha]
  · simp only [hb, if_false]
    split <;> rfl

theorem pair_pqSwap (pq : NuwanPq) (a b : Nat) :
    (pqSwap pq a b).pair = pq.pair ∘ Equiv.swap a b := by
  funext i
  unfold pair pqSwap
  rw [exchange_eq, exchange_eq]
  rfl

theorem pairs_pqSwap {a b : Nat} (ha : a < pq.size) (hb : b < pq.size) :
    (pqSwap pq a b).pairs = pq.pairs := by
  unfold pairs
  rw [pair_pqSwap]
  exact Multiset.coe_eq_coe.mpr (map_swap_perm pq.pair ha hb)

theorem siftUp_shape (pq : NuwanPq) (i : Nat) :
    (siftUp pq i).size = pq.size ∧ (siftUp pq i).cap = pq.cap ∧
      (siftUp pq i).room = pq.room := by
  induction pq, i using siftUp.induct with
  | case1 pq i hPos parent hLe =>
    rw [siftUp, dif_pos hPos, if_pos hLe]
    exact ⟨rfl, rfl, rfl⟩
  | case2 pq i hPos parent hLess hDown ih =>
    rw [siftUp, dif_pos hPos, if_neg hLess]
    exact ih
  | case3 pq i hZero =>
    rw [siftUp, dif_neg hZero]
    exact ⟨rfl, rfl, rfl⟩

@[simp] theorem siftUp_size : (siftUp pq i).size = pq.size := (siftUp_shape pq i).1

@[simp] theorem siftUp_cap : (siftUp pq i).cap = pq.cap := (siftUp_shape pq i).2.1

@[simp] theorem siftUp_room : (siftUp pq i).room = pq.room := (siftUp_shape pq i).2.2

theorem siftUp_spec (hRising : RisingAt pq.prios pq.size i) (hi : i < pq.size) :
    HeapOrdered (siftUp pq i).prios pq.size ∧ (siftUp pq i).pairs = pq.pairs := by
  induction pq, i using siftUp.induct with
  | case1 pq i hPos parent hLe =>
    rw [siftUp, dif_pos hPos, if_pos hLe]
    exact ⟨hRising.finish fun _ => hLe, rfl⟩
  | case2 pq i hPos parent hLess hDown ih =>
    have hParent : parent < pq.size := hDown.trans hi
    have hNext : RisingAt (pqSwap pq parent i).prios (pqSwap pq parent i).size parent := by
      unfold pqSwap
      rw [exchange_eq]
      exact hRising.swap hPos hi (not_le.mp hLess)
    obtain ⟨hOrdered, hPairs⟩ := ih hNext hParent
    rw [siftUp, dif_pos hPos, if_neg hLess]
    exact ⟨hOrdered, hPairs.trans (pairs_pqSwap hParent hi)⟩
  | case3 pq i hZero =>
    rw [siftUp, dif_neg hZero]
    exact ⟨hRising.finish fun hPos => absurd hPos hZero, rfl⟩

theorem siftDown_spec (hSinking : SinkingAt pq.prios pq.size i) (hi : i < pq.size ∨ pq.size = 0) :
    HeapOrdered (siftDown pq i).prios (siftDown pq i).size ∧ (siftDown pq i).pairs = pq.pairs ∧
      (siftDown pq i).size = pq.size ∧ (siftDown pq i).cap = pq.cap ∧
      (siftDown pq i).room = pq.room := by
  induction pq, i using siftDown.induct with
  | case1 pq i hSame =>
    rw [siftDown, dif_pos hSame]
    refine ⟨hSinking.finish fun c hPos hLt hParent => ?_, rfl, rfl, rfl, rfl⟩
    have hLe := prios_smallest_le hPos hLt hParent
    rwa [hSame] at hLe
  | case2 pq i hOther _ ih =>
    obtain ⟨hPos, hLt, hParent, hLess⟩ := (smallest_cases pq i).resolve_left hOther
    have hHere : i < pq.size := hi.resolve_right ((Nat.zero_lt_of_lt hLt).ne')
    have hNext : SinkingAt (pqSwap pq i (smallest pq i)).prios (pqSwap pq i (smallest pq i)).size
        (smallest pq i) := by
      unfold pqSwap
      rw [exchange_eq]
      exact hSinking.swap hPos hLt hParent hLess fun c => prios_smallest_le
    obtain ⟨hOrdered, hPairs, hShape⟩ := ih hNext (.inl hLt)
    rw [siftDown, dif_neg hOther]
    exact ⟨hOrdered, hPairs.trans (pairs_pqSwap hHere hLt), hShape⟩

theorem pairs_congr {pq' : NuwanPq} (hSize : pq'.size = pq.size)
    (hSame : ∀ i < pq.size, pq'.prios i = pq.prios i ∧ pq'.vals i = pq.vals i) :
    pq'.pairs = pq.pairs := by
  unfold pairs
  rw [hSize]
  congr 1
  apply map_congr_left
  intro i hi
  obtain ⟨hPrio, hVal⟩ := hSame i (mem_range.mp hi)
  exact Prod.ext hPrio hVal

theorem ordered_congr {key key' : Numbers} {n : Nat} (h : HeapOrdered key n)
    (hSame : ∀ i < n, key' i = key i) : HeapOrdered key' n := by
  intro i hPos hLt
  rw [hSame i hLt, hSame _ ((heapParent_lt hPos).trans hLt)]
  exact h i hPos hLt

theorem pqRoom_of_fits {cap : Nat} (hFits : cap * 8 + 63 < 2 ^ 64) : pqRoom cap = cap := by
  unfold pqRoom
  omega

theorem Valid.reserve (h : pq.Valid) {cap : Nat} (hFits : pq.cap < cap → cap * 8 + 63 < 2 ^ 64)
    (np nv : Option Numbers) :
    ∃ ok pq', nuwanPqReserve pq cap np nv = some (ok, pq') ∧
      pq'.pairs = pq.pairs ∧ pq'.Valid ∧
      pq'.size = pq.size ∧ (ok = true → cap ≤ pq'.cap) ∧
        (ok = false → np = none ∨ nv = none) := by
  unfold nuwanPqReserve
  split
  · next hEnough => exact ⟨true, pq, rfl, rfl, h, rfl, fun _ => hEnough, (nomatch ·)⟩
  · next hMore =>
      have hUp := Nat.lt_of_not_le hMore
      split
      · have hRoom := pqRoom_of_fits (hFits hUp)
        have hCopied : ∀ (old new : Numbers), ∀ i < pq.size, copied old pq.size new i = old i :=
          fun old new i hi => if_pos hi
        have hFit : pq.size ≤ pqRoom cap := by
          rw [hRoom]
          exact h.size_le.trans hUp.le
        rw [if_pos hFit]
        refine ⟨true, _, rfl, pairs_congr rfl fun i hi =>
          ⟨hCopied _ _ i hi, hCopied _ _ i hi⟩,
          ⟨?_, ?_, hRoom, ?_⟩, rfl, fun _ => le_rfl, (nomatch ·)⟩
        · exact h.size_le.trans hUp.le
        · exact h.cap_pos.trans hUp
        · exact ordered_congr h.ordered (hCopied _ _)
      · next hNone =>
          refine ⟨false, pq, rfl, rfl, h, rfl, (nomatch ·), fun _ => ?_⟩
          cases np with
          | none => exact .inl rfl
          | some np =>
            cases nv with
            | none => exact .inr rfl
            | some nv => exact absurd rfl (hNone np nv rfl)

theorem Valid.add (h : pq.Valid) (hRoom : pq.size < pq.cap) (priority value : Int) :
    (siftUp (pqAdded pq priority value) pq.size).pairs = (priority, value) ::ₘ pq.pairs ∧
      (siftUp (pqAdded pq priority value) pq.size).Valid := by
  generalize hAdded : pqAdded pq priority value = added
  have hSize : added.size = pq.size + 1 := by rw [← hAdded, pqAdded]
  have hCap : added.cap = pq.cap := by rw [← hAdded, pqAdded]
  have hOld : ∀ i < pq.size, added.prios i = pq.prios i ∧ added.pair i = pq.pair i := by
    intro i hi
    rw [← hAdded]
    exact ⟨update_of_ne hi.ne .., Prod.ext (update_of_ne hi.ne ..) (update_of_ne hi.ne ..)⟩
  have hRising : RisingAt added.prios added.size pq.size := by
    rw [hSize]
    constructor
    · intro i hPos hLt hNot
      have hBefore : i < pq.size := lt_of_le_of_ne (Nat.le_of_lt_succ hLt) hNot
      exact ordered_congr h.ordered (fun j hj => (hOld j hj).1) i hPos hBefore
    · intro _ i hPos hLt hParent
      have hUp := heapParent_lt hPos
      omega
  obtain ⟨hOrdered, hPairs⟩ := siftUp_spec hRising (by omega)
  refine ⟨hPairs.trans ?_, ?_, ?_, ?_, ?_⟩
  · have hLast : added.pair pq.size = (priority, value) := by
      rw [← hAdded]
      exact Prod.ext (update_self ..) (update_self ..)
    have hRest : (List.range pq.size).map added.pair = (List.range pq.size).map pq.pair :=
      map_congr_left fun i hi => (hOld i (mem_range.mp hi)).2
    rw [pairs, hSize, range_succ, map_append, map_singleton, hLast, hRest]
    exact Multiset.coe_eq_coe.mpr (perm_append_singleton _ _)
  · rw [siftUp_size, siftUp_cap, hSize, hCap]
    exact hRoom
  · rw [siftUp_cap, hCap]
    exact h.cap_pos
  · rw [siftUp_room, siftUp_cap, ← hAdded]
    exact h.room_eq
  · rw [siftUp_size]
    exact hOrdered

section

variable (h : pq.Valid) (hFits : pq.size = pq.cap → pq.cap * 2 * 8 + 63 < 2 ^ 64)
  (np nv : Option Numbers)
include h hFits

theorem Valid.growIfFull :
    ∃ ok pq', pqGrowIfFull pq np nv = some (ok, pq') ∧ pq'.pairs = pq.pairs ∧ pq'.Valid ∧
      (ok = true → pq'.size < pq'.cap) ∧ (ok = false → np = none ∨ nv = none) := by
  unfold pqGrowIfFull
  have hPos := h.cap_pos
  by_cases hFull : pq.size = pq.cap
  · have hBytes := hFits hFull
    rw [if_pos hFull, Nat.mod_eq_of_lt (by omega)]
    obtain ⟨ok, pq', hRun, hPairs, hValid, hSize, hMore, hNone⟩ :=
      h.reserve (fun _ => hBytes) np nv
    refine ⟨ok, pq', hRun, hPairs, hValid, fun hOk => ?_, hNone⟩
    have hCap := hMore hOk
    omega
  · rw [if_neg hFull]
    exact ⟨true, pq, rfl, rfl, h, fun _ => lt_of_le_of_ne h.size_le hFull, (nomatch ·)⟩

theorem Valid.push (priority value : Int) :
    ∃ ok pq', nuwanPqPush pq np nv priority value = some (ok, pq') ∧
      LeastFirst (.push np nv priority value) (.done ok) pq.pairs pq'.pairs ∧ pq'.Valid := by
  obtain ⟨ok, grown, hGrow, hPairs, hValid, hRoom, hNone⟩ := h.growIfFull hFits np nv
  rw [nuwanPqPush, hGrow]
  cases ok with
  | true =>
    obtain ⟨hAdded, hStays⟩ := hValid.add (hRoom rfl) priority value
    have hFit : grown.size < grown.room := by
      rw [hValid.room_eq]
      exact hRoom rfl
    refine ⟨true, _, if_pos hFit, ?_, hStays⟩
    rw [hAdded, hPairs]
    exact .push ..
  | false =>
    refine ⟨false, grown, rfl, ?_, hValid⟩
    rw [hPairs]
    exact .refuse (hNone rfl) ..

end

theorem Valid.pop (h : pq.Valid) :
    LeastFirst .pop (.value (nuwanPqPop pq).1) pq.pairs (nuwanPqPop pq).2.pairs ∧
      (nuwanPqPop pq).2.Valid := by
  unfold nuwanPqPop
  split
  · next hNone =>
      have hEmpty : pq.pairs = 0 := by
        rw [pairs, hNone]
        rfl
      rw [hEmpty]
      exact ⟨.popEmpty, h⟩
  · next hSome =>
      obtain ⟨n, hn⟩ := Nat.exists_eq_succ_of_ne_zero hSome
      generalize hMoved : ({ pq with prios := update pq.prios 0 (pq.prios (pq.size - 1))
                                     vals := update pq.vals 0 (pq.vals (pq.size - 1))
                                     size := pq.size - 1 } : NuwanPq) = moved
      have hSizeMoved : moved.size = n := by
        rw [← hMoved]
        show pq.size - 1 = n
        omega
      have hOld : ∀ i, 0 < i → moved.pair i = pq.pair i := by
        intro i hPos
        rw [← hMoved]
        exact Prod.ext (update_of_ne hPos.ne' ..) (update_of_ne hPos.ne' ..)
      have hRoot : moved.pair 0 = pq.pair n := by
        rw [← hMoved]
        unfold pair
        dsimp only
        rw [update_self, update_self, hn]
        rfl
      have hSinking : SinkingAt moved.prios moved.size 0 := by
        constructor
        · intro i hPos hLt hNot
          have hAbove := Nat.pos_of_ne_zero hNot
          have hKey : ∀ j, 0 < j → moved.prios j = pq.prios j := fun j hj =>
            congrArg Prod.fst (hOld j hj)
          rw [hKey i hPos, hKey _ hAbove]
          exact h.ordered i hPos (by omega)
        · exact fun hPos => absurd hPos (lt_irrefl 0)
      obtain ⟨hOrdered, hPairs, hSize, hCap, hRoom⟩ := siftDown_spec hSinking (by omega)
      have hAll : pq.pairs = (pq.prios 0, pq.vals 0) ::ₘ moved.pairs := by
        have hBefore : pq.pairs = (pq.pair 0 :: (List.range n).map fun i =>
            pq.pair (i + 1) : List (Int × Int)) := by
          rw [pairs, hn, range_succ_eq_map, map_cons, map_map]
          rfl
        rw [hBefore, ← Multiset.cons_coe, pairs, hSizeMoved]
        congr 1
        rw [Multiset.coe_eq_coe]
        cases n with
        | zero => exact .nil
        | succ n =>
          have hMoves : (List.range (n + 1)).map moved.pair =
              pq.pair (n + 1) :: (List.range n).map fun i => pq.pair (i + 1) := by
            rw [range_succ_eq_map, map_cons, map_map, hRoot]
            congr 1
            exact map_congr_left fun i _ => hOld (i + 1) (Nat.succ_pos i)
          rw [hMoves, range_succ, map_append, map_singleton]
          exact perm_append_singleton _ _
      have hCapMoved : moved.cap = pq.cap := by rw [← hMoved]
      refine ⟨?_, ?_, ?_, ?_, hOrdered⟩
      · dsimp only
        rw [hAll, hPairs]
        refine .pop fun pair hMem => ?_
        rw [← hAll] at hMem
        obtain ⟨i, hi, rfl⟩ := mem_map.mp (Multiset.mem_coe.mp hMem)
        exact h.ordered.root_le (mem_range.mp hi)
      · have hLe := h.size_le
        rw [hSize, hCap, hCapMoved]
        omega
      · rw [hCap, hCapMoved]
        exact h.cap_pos
      · rw [hRoom, hCap, ← hMoved]
        exact h.room_eq

theorem Valid.step (h : pq.Valid) (op : PqOp) (hFits : PqFits op pq) :
    ∃ reply pq', pqStep op pq = some (reply, pq') ∧ LeastFirst op reply pq.pairs pq'.pairs ∧
      pq'.Valid := by
  cases op with
  | push np nv priority value =>
    obtain ⟨ok, pq', hRun, hAnswer, hValid⟩ := h.push hFits np nv priority value
    exact ⟨.done ok, pq', by rw [pqStep, hRun, Option.map_some], hAnswer, hValid⟩
  | pop => exact ⟨_, _, rfl, h.pop⟩
  | reserve np nv cap =>
    obtain ⟨ok, pq', hRun, hPairs, hValid, _⟩ := h.reserve hFits np nv
    refine ⟨.done ok, pq', by rw [pqStep, hRun, Option.map_some], ?_, hValid⟩
    rw [hPairs]
    exact .reserve ..

theorem Valid.new (np nv : Numbers) : (nuwanPqNew np nv).Valid :=
  ⟨Nat.zero_le _, Nat.succ_pos 15, rfl, fun _ _ h => absurd h (Nat.not_lt_zero _)⟩

theorem card_pairs (pq : NuwanPq) : pq.pairs.card = pq.size := (length_map _).trans length_range

theorem Valid.pop_pair (h : pq.Valid) (hSome : pq.size ≠ 0) :
    pq.pairs = (nuwanPqPeekPriority pq, (nuwanPqPop pq).1) ::ₘ (nuwanPqPop pq).2.pairs ∧
      ∀ pair ∈ pq.pairs, nuwanPqPeekPriority pq ≤ pair.1 := by
  rw [nuwanPqPeekPriority, if_neg hSome]
  have hLeast : ∀ pair ∈ pq.pairs, pq.prios 0 ≤ pair.1 := by
    intro pair hMem
    obtain ⟨i, hi, rfl⟩ := mem_map.mp (Multiset.mem_coe.mp hMem)
    exact h.ordered.root_le (mem_range.mp hi)
  have hRoot : pq.pair 0 ∈ pq.pairs :=
    Multiset.mem_coe.mpr (mem_map_of_mem (mem_range.mpr (Nat.pos_of_ne_zero hSome)))
  have hPop := h.pop.1
  have hCard := card_pairs pq
  generalize pq.pairs = pairs, (nuwanPqPop pq).2.pairs = left, (nuwanPqPop pq).1 = value at *
  cases hPop with
  | popEmpty => exact absurd hCard.symm hSome
  | @pop priority _ _ hFirst =>
    have hSame : pq.prios 0 = priority :=
      (hLeast _ (Multiset.mem_cons_self ..)).antisymm (hFirst _ hRoot)
    exact ⟨by rw [hSame], hLeast⟩

theorem Valid.drain (h : pq.Valid) {n : Nat} (hSize : pq.size = n) :
    (drain n pq).Pairwise (fun a b => a.1 ≤ b.1) ∧
    (drain n pq : Multiset (Int × Int)) = pq.pairs := by
  induction n generalizing pq with
  | zero => exact ⟨.nil, (Multiset.card_eq_zero.mp ((card_pairs pq).trans hSize)).symm⟩
  | succ n ih =>
    obtain ⟨hPairs, hLeast⟩ := h.pop_pair (by omega)
    have hCard := congrArg Multiset.card hPairs
    rw [Multiset.card_cons, card_pairs, card_pairs, hSize] at hCard
    obtain ⟨hSorted, hAll⟩ := ih h.pop.2 (Nat.succ_inj.mp hCard).symm
    refine ⟨.cons (fun pair hMem => hLeast pair ?_) hSorted, ?_⟩
    · rw [hPairs, ← hAll]
      exact Multiset.mem_cons_of_mem (Multiset.mem_coe.mpr hMem)
    · rw [hPairs, ← hAll]
      rfl

end NuwanPq

/-- The queue after each operation, if it completes. -/
abbrev pqCalls (op : PqOp) (pq : NuwanPq) : Option NuwanPq := (pqStep op pq).map Prod.snd

/-- A queue that grows twice; the second time it is refused one of the blocks. -/
def growingOps (mem : Numbers) : List PqOp :=
  [.push none none 3 30, .push none none 1 10,
    .reserve (some mem) (some mem) 20, .push none none 2 20,
    .reserve none (some mem) 40, .pop, .pop]

theorem growingOps_fit (mem : Numbers) :
    CallsMeet pqCalls PqFits (growingOps mem) (nuwanPqNew mem mem) := by
  simp [growingOps, CallsMeet, PqFits, pqStep, nuwanPqPush, pqGrowIfFull,
    pqAdded, nuwanPqNew, pqInitCap,
    pqRoom, nuwanPqReserve]

/-- Taken out of the queue after such operations, the pairs come in the order of
their priorities. -/
theorem nuwan_pq_drain_sorted (np nv : Numbers) (ops : List PqOp)
    (hFits : CallsMeet pqCalls PqFits ops (nuwanPqNew np nv)) :
    ∃ log pq, replied pqStep ops (nuwanPqNew np nv) = some (log, pq) ∧
      (drain pq.size pq).Pairwise (fun a b => a.1 ≤ b.1) ∧
      (drain pq.size pq : Multiset (Int × Int)) = pq.pairs := by
  obtain ⟨log, pq, hRun, -, hValid⟩ := @answered_replied _ _ _ _ pqStep LeastFirst PqFits
    NuwanPq.pairs NuwanPq.Valid (fun op _ h hOp => h.step op hOp) ops _ (NuwanPq.Valid.new np nv)
    hFits
  exact ⟨log, pq, hRun, hValid.drain rfl⟩

theorem nuwan_pq_drain_sorted_growing : ∃ log pq,
    replied pqStep (growingOps fun _ => 0) (nuwanPqNew (fun _ => 0) fun _ => 0) = some (log, pq) ∧
      (drain pq.size pq).Pairwise (fun a b => a.1 ≤ b.1) ∧
      (drain pq.size pq : Multiset (Int × Int)) = pq.pairs :=
  nuwan_pq_drain_sorted _ _ _ (growingOps_fit _)

end Casprix.Collections
