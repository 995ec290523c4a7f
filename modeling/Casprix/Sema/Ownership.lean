import Casprix.Sema.Symtable

/-! The move state of the ownership checker: which symbols are moved on the
path under analysis. The line of a move only fills its message. -/
namespace Casprix.Sema

/-- An entry of the state: whether a symbol is moved here. -/
structure OwnMoveEntry where
  symbol : Symbol
  moved : Bool
  deriving DecidableEq, Repr

/-- The path-sensitive move state. The first entry of a symbol counts. -/
abbrev OwnMoveState := List OwnMoveEntry

namespace OwnMoveState

/-- `move_is_set`: a symbol without an entry is not moved. -/
def isMoved (state : OwnMoveState) (symbol : Symbol) : Bool :=
  match state.find? fun entry => entry.symbol == symbol with
  | some entry => entry.moved
  | none => false

/-- `move_set`, which only ever sets: the entry is written over, or a new one is put last. -/
def moveSet : OwnMoveState → Symbol → OwnMoveState
  | [], symbol => [⟨symbol, true⟩]
  | entry :: rest, symbol =>
    if entry.symbol = symbol then ⟨symbol, true⟩ :: rest else entry :: moveSet rest symbol

/-- `own_state_merge_intersect`: moved on both paths. -/
def mergeIntersect (dst src : OwnMoveState) : OwnMoveState :=
  dst.map fun entry => { entry with moved := entry.moved && src.isMoved entry.symbol }

/-- `own_state_merge_union`: moved on either path. -/
def mergeUnion (dst src : OwnMoveState) : OwnMoveState :=
  src.foldl (fun dst entry => if entry.moved then dst.moveSet entry.symbol else dst) dst

/-- The entries of the symbols that are about to be freed. -/
def forgetScope (state : OwnMoveState) (scopeLevel : Nat) : OwnMoveState :=
  state.filter fun entry => entry.symbol.scopeDepth != scopeLevel

theorem isMoved_cons (entry : OwnMoveEntry) (rest : OwnMoveState) (symbol : Symbol) :
    isMoved (entry :: rest) symbol =
      if entry.symbol = symbol then entry.moved else isMoved rest symbol := by
  by_cases h : entry.symbol = symbol
  · simp [isMoved, h]
  · have hBeq : (entry.symbol == symbol) = false := by simpa using h
    rw [isMoved, List.find?_cons, hBeq, if_neg h, isMoved]

/-- A move marks its symbol and no other. -/
theorem isMoved_moveSet (state : OwnMoveState) (symbol other : Symbol) :
    (state.moveSet symbol).isMoved other = (decide (symbol = other) || state.isMoved other) := by
  induction state with
  | nil =>
    rw [moveSet, isMoved_cons]
    by_cases h : symbol = other <;> simp [h, isMoved]
  | cons entry rest ih =>
    rw [moveSet]
    by_cases hEntry : entry.symbol = symbol
    · rw [if_pos hEntry, isMoved_cons, isMoved_cons, hEntry]
      by_cases h : symbol = other <;> simp [h]
    · rw [if_neg hEntry, isMoved_cons, isMoved_cons, ih]
      by_cases h : entry.symbol = other
      · have hOther : ¬ symbol = other := fun hSame => hEntry (h.trans hSame.symm)
        simp [h, hOther]
      · simp [h]

/-- The intersection is the conjunction, symbol by symbol. -/
theorem isMoved_mergeIntersect (dst src : OwnMoveState) (symbol : Symbol) :
    (dst.mergeIntersect src).isMoved symbol = (dst.isMoved symbol && src.isMoved symbol) := by
  induction dst with
  | nil => rfl
  | cons entry rest ih =>
    have hRest : mergeIntersect (entry :: rest) src =
        { entry with moved := entry.moved && src.isMoved entry.symbol } ::
          mergeIntersect rest src := rfl
    rw [hRest, isMoved_cons, isMoved_cons, ih]
    by_cases h : entry.symbol = symbol
    · simp [h]
    · simp [h]

theorem isMoved_mergeUnion_left {dst : OwnMoveState} (src : OwnMoveState) {symbol : Symbol}
    (h : dst.isMoved symbol = true) : (dst.mergeUnion src).isMoved symbol = true := by
  induction src generalizing dst with
  | nil => exact h
  | cons entry rest ih =>
    rw [mergeUnion, List.foldl_cons]
    refine ih ?_
    cases entry.moved with
    | true => simp [isMoved_moveSet, h]
    | false => exact h

theorem isMoved_mergeUnion_right {dst src : OwnMoveState} {symbol : Symbol}
    (h : src.isMoved symbol = true) : (dst.mergeUnion src).isMoved symbol = true := by
  induction src generalizing dst with
  | nil => cases h
  | cons entry rest ih =>
    rw [mergeUnion, List.foldl_cons]
    rw [isMoved_cons] at h
    by_cases hEntry : entry.symbol = symbol
    · rw [if_pos hEntry] at h
      refine isMoved_mergeUnion_left rest ?_
      rw [h, if_pos rfl, isMoved_moveSet, decide_eq_true hEntry, Bool.true_or]
    · rw [if_neg hEntry] at h
      exact ih h

/-- Leaving a scope changes nothing for the symbols of the other scopes. -/
theorem isMoved_forgetScope (state : OwnMoveState) {scopeLevel : Nat} {symbol : Symbol}
    (h : symbol.scopeDepth ≠ scopeLevel) :
    (state.forgetScope scopeLevel).isMoved symbol = state.isMoved symbol := by
  induction state with
  | nil => rfl
  | cons entry rest ih =>
    rw [forgetScope, List.filter_cons]
    by_cases hEntry : entry.symbol = symbol
    · rw [if_pos (by simpa [hEntry] using h), isMoved_cons, isMoved_cons, if_pos hEntry,
        if_pos hEntry]
    · split
      · rw [isMoved_cons, isMoved_cons, if_neg hEntry, if_neg hEntry]
        exact ih
      · rw [isMoved_cons, if_neg hEntry]
        exact ih

end OwnMoveState

end Casprix.Sema
