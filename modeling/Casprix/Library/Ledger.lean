import Mathlib.Data.List.Perm.Basic

/-! The books of a container with two ends: what was put in is what was taken out
together with what is held, and what is held lies in the order of entry. -/
namespace Library

variable {α : Type*}

structure Ledger (entered taken held : List α) : Prop where
  perm : entered.Perm (taken ++ held)
  inOrder : held.Sublist entered

namespace Ledger

variable {entered taken held : List α} {x : α}

theorem empty : Ledger ([] : List α) [] [] where
  perm := List.Perm.refl []
  inOrder := List.Sublist.refl []

theorem congr {taken' : List α} (h : Ledger entered taken held) (hPerm : taken.Perm taken') :
    Ledger entered taken' held where
  perm := h.perm.trans (hPerm.append_right held)
  inOrder := h.inOrder

theorem enter (h : Ledger entered taken held) : Ledger (entered ++ [x]) taken (held ++ [x]) where
  perm := by
    rw [← List.append_assoc]
    exact h.perm.append_right [x]
  inOrder := h.inOrder.append (List.Sublist.refl [x])

theorem takeFront (h : Ledger entered taken (x :: held)) : Ledger entered (taken ++ [x]) held where
  perm := by
    rw [List.append_assoc]
    exact h.perm
  inOrder := (List.sublist_cons_self x held).trans h.inOrder

theorem takeBack (h : Ledger entered taken (held ++ [x])) : Ledger entered (taken ++ [x]) held where
  perm := by
    have hSwap : (held ++ [x]).Perm ([x] ++ held) := List.perm_append_comm
    rw [List.append_assoc]
    exact h.perm.trans (hSwap.append_left taken)
  inOrder := (List.sublist_append_left held [x]).trans h.inOrder

/-- Nothing is taken more often than it was put in. -/
theorem taken_subperm (h : Ledger entered taken held) : taken.Subperm entered :=
  (List.sublist_append_left taken held).subperm.trans h.perm.symm.subperm

end Ledger

end Library
