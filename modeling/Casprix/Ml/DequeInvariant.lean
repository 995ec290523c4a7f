import Casprix.Library.Ledger
import Casprix.Library.RingSlots
import Casprix.Ml.Deque

/-! What holds at every point of the deque's threads. The owner may have claimed the
last task by lowering `bottom`, and a thief may hold a ring that was replaced.
In both cases it is `top` that decides who gets the task. -/
namespace Casprix.Ml

open List

variable {α : Type*}

namespace DequeRing

variable {r r' : DequeRing α} {i j t b : Int} {task : α}

theorem cap_pos (r : DequeRing α) : 0 < r.cap := Nat.pos_of_isPowerOfTwo r.isPowerOfTwo

theorem slot_ne (hi : 0 ≤ i) (hLt : i < j) (hFits : j - i < r.cap) : r.slot i ≠ r.slot j :=
  Library.masked_ne r.isPowerOfTwo (by omega) (by omega)

theorem cell_write_self : (r.write i task).cell i = task := Function.update_self _ _ _

theorem cell_write_of_ne (h : r.slot i ≠ r.slot j) : (r.write j task).cell i = r.cell i :=
  Function.update_of_ne h _ _

/-- The tasks at indices from `t` to before `b`. -/
def between (r : DequeRing α) (t b : Int) : List α :=
  (List.range (b - t).toNat).map fun k : Nat => r.cell (t + k)

theorem between_of_le (h : b ≤ t) : r.between t b = [] := by
  rw [between, Int.toNat_eq_zero.mpr (by omega), range_zero, map_nil]

theorem between_back (h : t ≤ b) : r.between t (b + 1) = r.between t b ++ [r.cell b] := by
  have hCount : (b + 1 - t).toNat = (b - t).toNat + 1 := by omega
  have hLast : t + ((b - t).toNat : Int) = b := by omega
  rw [between, hCount, range_succ, map_append, map_singleton, hLast, between]

theorem between_front (h : t < b) : r.between t b = r.cell t :: r.between (t + 1) b := by
  have hCount : (b - t).toNat = (b - (t + 1)).toNat + 1 := by omega
  rw [between, hCount, range_succ_eq_map, map_cons, map_map, between]
  congr 1
  · rw [Int.natCast_zero, add_zero]
  · apply map_congr_left
    intro k _
    apply congrArg r.cell
    rw [Nat.succ_eq_add_one, Int.natCast_add]
    omega

theorem between_congr (h : ∀ i, t ≤ i → i < b → r'.cell i = r.cell i) :
    r'.between t b = r.between t b := by
  apply map_congr_left
  intro k hk
  have hLt := mem_range.mp hk
  exact h (t + k) (by omega) (by omega)

theorem cell_write_past (ht : 0 ≤ t) (hFits : b - t < r.cap) (hi : t ≤ i) (hLt : i < b) :
    (r.write b task).cell i = r.cell i :=
  cell_write_of_ne (slot_ne (by omega) hLt (by omega))

end DequeRing

namespace OwnerPoint

/-- Whether `bottom` is lowered below the last task by a pop that has not yet
raised it again or returned. -/
def claimed : OwnerPoint α → Int
  | .popLoadTop _ _ => 1
  | .popRead _ _ _ => 1
  | .popExchange _ _ _ => 1
  | .popRestore _ _ => 1
  | _ => 0

/-- Whether thieves may still take the task that a pop has claimed. -/
def offered : OwnerPoint α → Int
  | .popLoadTop _ _ => 1
  | .popRead b t _ => if t < b then 0 else 1
  | .popExchange _ _ _ => 1
  | .popRestore _ _ => 1
  | _ => 0

/-- The task that a pop has won and not yet returned. -/
def held : OwnerPoint α → List α
  | .popRestore _ task => task.toList
  | _ => []

end OwnerPoint

namespace DequeState

variable (s : DequeState α)

/-- The index after the last task that is stored. -/
def finish : Int := s.bottom + s.owner.claimed

/-- The index after the last task that a thief may take. -/
def limit : Int := s.bottom + s.owner.offered

/-- The tasks that are stored, oldest first. -/
def stored : List α := s.current.between s.top s.bottom

/-- What the local variables of the owner are at a point. -/
def OwnerGood : OwnerPoint α → Prop
  | .idle => True
  | .pushLoadTop _ b => b = s.bottom
  | .pushLoadArray _ b t => b = s.bottom ∧ t ≤ s.top
  | .pushCopy _ b i r nr => b = s.bottom ∧ r = s.array ∧ nr.cap = s.current.cap * 2 ∧
      ∀ j, s.top ≤ j → j < i → nr.cell j = s.current.cell j
  | .pushCopied _ b i r nr entry => b = s.bottom ∧ r = s.array ∧ nr.cap = s.current.cap * 2 ∧
      (∀ j, s.top ≤ j → j < i → nr.cell j = s.current.cell j) ∧ i < b ∧
        entry = s.current.cell i
  | .pushWrite _ b r => b = s.bottom ∧ r = s.array ∧ b - s.top < s.current.cap
  | .pushStoreBottom task b =>
    b = s.bottom ∧ b - s.top < s.current.cap ∧ s.current.cell b = task
  | .popLoadArray b => b = s.bottom - 1
  | .popStoreBottom b r => b = s.bottom - 1 ∧ r = s.array
  | .popLoadTop b r => b = s.bottom ∧ r = s.array
  | .popRead b t r => b = s.bottom ∧ r = s.array ∧ t ≤ s.top ∧ t ≤ b
  | .popExchange b t task => b = s.bottom ∧ t = b ∧ t ≤ s.top ∧ task = s.current.cell b
  | .popRestore b _ => b = s.bottom ∧ s.top = b + 1

/-- What a thief knows. Once it has seen that `bottom` is above the index it read
from `top`, an unchanged `top` says that the task at the index is still there. -/
def ThiefGood : ThiefPoint α → Prop
  | .idle => True
  | .loadBottom t => t ≤ s.top
  | .loadArray t => t ≤ s.top ∧ (t = s.top → t < s.limit)
  | .read t r => t ≤ s.top ∧ r < s.ringCount ∧
      (t = s.top → t < s.limit ∧ (s.ring r).cell t = s.current.cell t)
  | .exchange t task => t ≤ s.top ∧ (t = s.top → t < s.limit ∧ task = s.current.cell t)

structure Good (s : DequeState α) : Prop where
  top_nonneg : 0 ≤ s.top
  top_le : s.top ≤ s.limit
  fits : s.finish - s.top ≤ s.current.cap
  array_lt : s.array < s.ringCount
  owner : s.OwnerGood s.owner
  thief : ∀ k, s.ThiefGood (s.thief k)
  ledger : Library.Ledger s.pushed (s.returned ++ s.owner.held) (s.current.between s.top s.finish)

theorem offered_le_claimed (point : OwnerPoint α) : point.offered ≤ point.claimed := by
  cases point with
  | popRead b t r =>
    rw [OwnerPoint.offered, OwnerPoint.claimed]
    split <;> omega
  | _ => exact le_rfl

theorem offered_nonneg (point : OwnerPoint α) : 0 ≤ point.offered := by
  cases point with
  | popRead b t r =>
    rw [OwnerPoint.offered]
    split <;> omega
  | _ => simp only [OwnerPoint.offered, Int.le_refl, Int.zero_le_ofNat]

theorem limit_le_finish : s.limit ≤ s.finish :=
  Int.add_le_add_left (offered_le_claimed s.owner) s.bottom

theorem bottom_le_limit : s.bottom ≤ s.limit :=
  le_add_of_nonneg_right (offered_nonneg s.owner)

end DequeState

end Casprix.Ml
