import Casprix.Regex.Syntax
import Mathlib.Computability.EpsilonNFA

/-! Thompson's construction with lists of unpatched edges. -/
namespace Casprix.Regex

open List

inductive NfaKind where
  | byte | split
  deriving DecidableEq, Repr

/-- A `byte` state consumes a member of `cls` on its way to `out1`; a `split`
state has up to two epsilon edges. -/
structure NfaState where
  kind : NfaKind
  cls : ByteSet := .clear
  out1 : Option Nat := none
  out2 : Option Nat := none
  deriving DecidableEq, Repr

abbrev NfaStates := List NfaState

structure Nfa where
  states : NfaStates
  matchState : Nat
  deriving DecidableEq, Repr

inductive Slot where
  | out1 | out2
  deriving DecidableEq, Repr

/-- An edge that still has to be pointed at the next fragment. -/
abbrev Patch := Nat × Slot

structure Frag where
  entry : Nat
  patches : List Patch
  deriving DecidableEq, Repr

def NfaState.setOut (st : NfaState) (slot : Slot) (target : Nat) : NfaState :=
  match slot with
  | .out1 => { st with out1 := some target }
  | .out2 => { st with out2 := some target }

/-- The new state is the last of the returned list. -/
def nfaNew (n : NfaStates) (state : NfaState) : Nat × NfaStates :=
  (n.length, n ++ [state])

def setOut (n : NfaStates) (patch : Patch) (target : Nat) : NfaStates :=
  n.modify patch.1 (·.setOut patch.2 target)

def fragPatchTo (n : NfaStates) (patches : List Patch) (target : Nat) : NfaStates :=
  patches.foldl (fun n patch => setOut n patch target) n

def buildFrag (n : NfaStates) : RegexNode → Frag × NfaStates
  | .empty =>
    let (s, n) := nfaNew n { kind := .split }
    (⟨s, [(s, .out1)]⟩, n)
  | .byteClass cls =>
    let (s, n) := nfaNew n { kind := .byte, cls := cls }
    (⟨s, [(s, .out1)]⟩, n)
  | .concat a b =>
    let (l, n) := buildFrag n a
    let (r, n) := buildFrag n b
    (⟨l.entry, r.patches⟩, fragPatchTo n l.patches r.entry)
  | .alt a b =>
    let (s, n) := nfaNew n { kind := .split }
    let (l, n) := buildFrag n a
    let (r, n) := buildFrag n b
    (⟨s, l.patches ++ r.patches⟩, setOut (setOut n (s, .out1) l.entry) (s, .out2) r.entry)
  | .star a =>
    let (s, n) := nfaNew n { kind := .split }
    let (inner, n) := buildFrag n a
    (⟨s, [(s, .out2)]⟩, fragPatchTo (setOut n (s, .out1) inner.entry) inner.patches s)
  | .plus a =>
    let (inner, n) := buildFrag n a
    let (s, n) := nfaNew n { kind := .split }
    (⟨inner.entry, [(s, .out2)]⟩, fragPatchTo (setOut n (s, .out1) inner.entry) inner.patches s)
  | .opt a =>
    let (s, n) := nfaNew n { kind := .split }
    let (inner, n) := buildFrag n a
    (⟨s, (s, .out2) :: inner.patches⟩, setOut n (s, .out1) inner.entry)

/-- The match state is a split without edges. -/
def buildNfa (root : RegexNode) : Nfa :=
  let (top, n) := buildFrag [] root
  let (matchState, n) := nfaNew n { kind := .split }
  { states := fragPatchTo n top.patches matchState, matchState := matchState }

example : buildNfa (.star (.byteClass .fill)) =
    { states := [{ kind := .split, out1 := some 1, out2 := some 2 },
        { kind := .byte, cls := .fill, out1 := some 0 }, { kind := .split }],
      matchState := 2 } := by
  decide

/-- `st` with the edges of state `i` named in `patches` pointed at `target`. -/
def NfaState.patched (patches : List Patch) (target i : Nat) (st : NfaState) : NfaState :=
  { st with
    out1 := if (i, Slot.out1) ∈ patches then some target else st.out1
    out2 := if (i, Slot.out2) ∈ patches then some target else st.out2 }

variable (patch : Patch) {st : NfaState} {a : RegexNode} {f : Frag}

attribute [local simp] NfaState.patched

section

variable {n : NfaStates} {patches : List Patch} {target i : Nat}

@[simp] theorem length_setOut : (setOut n patch target).length = n.length := by
  simp [setOut]

@[simp] theorem length_fragPatchTo : (fragPatchTo n patches target).length = n.length := by
  induction patches generalizing n with
  | nil => rfl
  | cons patch patches ih => exact ih.trans (length_setOut patch)

theorem getElem?_setOut :
    (setOut n patch target)[i]? = n[i]?.map (NfaState.patched [patch] target i) := by
  obtain ⟨s, slot⟩ := patch
  rw [setOut, getElem?_modify]
  cases n[i]? with
  | none => rfl
  | some st =>
    by_cases hState : s = i
    · subst hState
      cases slot <;> simp [NfaState.setOut]
    · have hNe : ¬i = s := fun h => hState h.symm
      simp [hState, hNe]

@[simp] theorem patched_nil (st : NfaState) : NfaState.patched [] target i st = st := rfl

private theorem ite_mem_cons {a b : Patch} {x y : Option Nat} :
    (if a ∈ patches then x else if a ∈ [b] then x else y) =
      if a ∈ b :: patches then x else y := by
  by_cases hRest : a ∈ patches <;> by_cases hHead : a = b <;> simp [hRest, hHead]

theorem patched_patched (st : NfaState) :
    (st.patched [patch] target i).patched patches target i =
      st.patched (patch :: patches) target i := by
  simp only [NfaState.patched, ite_mem_cons]

theorem getElem?_fragPatchTo :
    (fragPatchTo n patches target)[i]? = n[i]?.map (NfaState.patched patches target i) := by
  induction patches generalizing n with
  | nil =>
    cases h : n[i]? <;> simp [fragPatchTo, h]
  | cons patch patches ih =>
    show (fragPatchTo (setOut n patch target) patches target)[i]? = _
    rw [ih, getElem?_setOut, Option.map_map]
    congr 1
    funext st
    exact patched_patched patch st

end

/-- In `m`, state `s` is the entry of a fragment for the tree whose exits all
lead to `t`. -/
def Realizes (m : NfaStates) : RegexNode → Nat → Nat → Prop
  | .empty, s, t => m[s]? = some { kind := .split, out1 := some t }
  | .byteClass cls, s, t => m[s]? = some { kind := .byte, cls := cls, out1 := some t }
  | .concat a b, s, t => ∃ u, Realizes m a s u ∧ Realizes m b u t
  | .alt a b, s, t => ∃ l r, m[s]? = some { kind := .split, out1 := some l, out2 := some r } ∧
      Realizes m a l t ∧ Realizes m b r t
  | .star a, s, t => ∃ u, m[s]? = some { kind := .split, out1 := some u, out2 := some t } ∧
      Realizes m a u s
  | .plus a, s, t => ∃ u, Realizes m a s u ∧
      m[u]? = some { kind := .split, out1 := some s, out2 := some t }
  | .opt a, s, t => ∃ u, m[s]? = some { kind := .split, out1 := some u, out2 := some t } ∧
      Realizes m a u t

/-- From `lo` to `hi`, `m` is `n` with its patches pointed at `target`. -/
def Filled (m n : NfaStates) (lo hi : Nat) (patches : List Patch) (target : Nat) : Prop :=
  ∀ i, lo ≤ i → i < hi → m[i]? = n[i]?.map (NfaState.patched patches target i)

/-- All edges of the states from `lo` on lead to existing states. -/
def Closed (n : NfaStates) (lo : Nat) : Prop :=
  ∀ i st t, lo ≤ i → n[i]? = some st → st.out1 = some t ∨
    st.out2 = some t → t < n.length

/-- What `build_frag` does: the states of `n` stay, the new ones realize the
tree wherever the patches are pointed. -/
structure Built (n : NfaStates) (r : RegexNode) (f : Frag) (n' : NfaStates) : Prop where
  kept : ∀ i, i < n.length → n'[i]? = n[i]?
  entry : f.entry = n.length
  grows : n.length < n'.length
  patches : ∀ p ∈ f.patches, n.length ≤ p.1 ∧ p.1 < n'.length
  closed : Closed n' n.length
  realizes : ∀ m t, Filled m n' n.length n'.length f.patches t → Realizes m r f.entry t

section

variable {n n₁ n₂ m : NfaStates} {patches : List Patch} {target i lo hi t : Nat}

theorem patched_of_forall_ne (h : ∀ p ∈ patches, p.1 ≠ i) (st : NfaState) :
    st.patched patches target i = st := by
  have hNot : ∀ slot, (i, slot) ∉ patches := fun slot hMem => h _ hMem rfl
  simp [hNot]

theorem map_patched_of_forall_ne (h : ∀ p ∈ patches, p.1 ≠ i) (st : Option NfaState) :
    st.map (NfaState.patched patches target i) = st := by
  cases st with
  | none => rfl
  | some st => exact congrArg some (patched_of_forall_ne h st)

theorem map_patched_congr {patches' : List Patch}
    (h : ∀ slot, (i, slot) ∈ patches ↔ (i, slot) ∈ patches') (st : Option NfaState) :
    st.map (NfaState.patched patches target i) = st.map (NfaState.patched patches' target i) := by
  have hEq : NfaState.patched patches target i = NfaState.patched patches' target i := by
    funext st
    simp only [NfaState.patched, h]
  rw [hEq]

theorem getElem?_fragPatchTo_of_forall_ne (h : ∀ p ∈ patches, p.1 ≠ i) :
    (fragPatchTo n patches target)[i]? = n[i]? := by
  rw [getElem?_fragPatchTo, map_patched_of_forall_ne h]

theorem getElem?_setOut_of_ne {s : Nat} {slot : Slot} (h : i ≠ s) :
    (setOut n (s, slot) target)[i]? = n[i]? := by
  rw [getElem?_setOut, map_patched_of_forall_ne]
  intro p hp
  cases mem_singleton.mp hp
  exact h.symm

theorem patched_out
    (h : (st.patched patches target i).out1 = some t ∨
      (st.patched patches target i).out2 = some t) :
    t = target ∨ st.out1 = some t ∨ st.out2 = some t := by
  simp only [NfaState.patched] at h
  rcases h with h | h
  · split at h
    · exact .inl (Option.some.inj h).symm
    · exact .inr (.inl h)
  · split at h
    · exact .inl (Option.some.inj h).symm
    · exact .inr (.inr h)

theorem Closed.fragPatchTo (h : Closed n lo) (hTarget : target < n.length) :
    Closed (fragPatchTo n patches target) lo := by
  intro i st t hLo hState hOut
  rw [getElem?_fragPatchTo, Option.map_eq_some_iff] at hState
  obtain ⟨st, hState, rfl⟩ := hState
  rw [length_fragPatchTo]
  rcases patched_out hOut with rfl | hOut
  · exact hTarget
  · exact h i st t hLo hState hOut

theorem Closed.setOut {patch : Patch} (h : Closed n lo) (hTarget : target < n.length) :
    Closed (setOut n patch target) lo :=
  show Closed (Regex.fragPatchTo n [patch] target) lo from h.fragPatchTo hTarget

theorem Closed.extend (hOld : Closed n₁ lo) (hNew : Closed n₂ n₁.length)
    (hKept : ∀ i, i < n₁.length → n₂[i]? = n₁[i]?)
    (hGrows : n₁.length ≤ n₂.length) :
    Closed n₂ lo := by
  intro i st t hLo hState hOut
  by_cases hi : i < n₁.length
  · rw [hKept i hi] at hState
    exact (hOld i st t hLo hState hOut).trans_le hGrows
  · exact hNew i st t (Nat.le_of_not_lt hi) hState hOut

theorem closed_nfaNew (h : Closed n lo) (hOut1 : st.out1 = none) (hOut2 : st.out2 = none) :
    Closed (nfaNew n st).2 lo := by
  intro i st' t hLo hState hOut
  simp only [nfaNew, getElem?_append, length_append, length_singleton] at hState ⊢
  split at hState
  · exact Nat.lt_succ_of_lt (h i st' t hLo hState hOut)
  · rw [getElem?_singleton] at hState
    split at hState
    · cases hState
      simp [hOut1, hOut2] at hOut
    · cases hState

theorem closed_length (n : NfaStates) : Closed n n.length := by
  intro i st t hLo hState _
  rw [getElem?_eq_none hLo] at hState
  cases hState

theorem built_single {r : RegexNode} (hOut1 : st.out1 = none) (hOut2 : st.out2 = none)
    (hRealizes : ∀ m s t, m[s]? = some { st with out1 := some t } → Realizes m r s t) :
    Built n r ⟨n.length, [(n.length, .out1)]⟩ (n ++ [st]) where
  kept i hi := getElem?_append_left hi
  entry := rfl
  grows := by simp
  patches := by simp
  closed := closed_nfaNew (closed_length n) hOut1 hOut2
  realizes := by
    intro m t hFilled
    refine hRealizes m n.length t ?_
    rw [hFilled n.length (le_rfl) (by simp)]
    simp [hOut2]

theorem built_concat {b : RegexNode} {l r : Frag} (hA : Built n a l n₁)
    (hB : Built n₁ b r n₂) :
    Built n (.concat a b) ⟨l.entry, r.patches⟩ (fragPatchTo n₂ l.patches r.entry) := by
  have hLeft : ∀ i, n₁.length ≤ i → ∀ p ∈ l.patches, p.1 ≠ i := fun i hi p hp =>
    (lt_of_lt_of_le (hA.patches p hp).2 hi).ne
  have hRight : ∀ i, i < n₁.length → ∀ p ∈ r.patches, p.1 ≠ i := fun i hi p hp =>
    (lt_of_lt_of_le hi (hB.patches p hp).1).ne'
  have hGrows := hA.grows.trans hB.grows
  constructor
  · intro i hi
    rw [getElem?_fragPatchTo_of_forall_ne, hB.kept i (hi.trans hA.grows), hA.kept i hi]
    exact fun p hp => (lt_of_lt_of_le hi (hA.patches p hp).1).ne'
  · exact hA.entry
  · simpa using hGrows
  · intro p hp
    rw [length_fragPatchTo]
    exact ⟨hA.grows.le.trans (hB.patches p hp).1, (hB.patches p hp).2⟩
  · exact (hA.closed.extend hB.closed hB.kept hB.grows.le).fragPatchTo (hB.entry ▸ hB.grows)
  · intro m t hFilled
    rw [length_fragPatchTo] at hFilled
    refine ⟨r.entry, hA.realizes m r.entry fun i hLo hHi =>
      ?_, hB.realizes m t fun i hLo hHi => ?_⟩
    · rw [hFilled i hLo (hHi.trans hB.grows), map_patched_of_forall_ne (hRight i hHi),
        getElem?_fragPatchTo, hB.kept i hHi]
    · rw [hFilled i (hA.grows.le.trans hLo) hHi, getElem?_fragPatchTo_of_forall_ne (hLeft i hLo)]

theorem Built.after_new {r : RegexNode} (h : Built (n ++ [st]) r f n₁) :
    (∀ i, i < n.length → n₁[i]? = n[i]?) ∧ n₁[n.length]? = some st ∧
      f.entry = n.length + 1 ∧ n.length + 1 < n₁.length ∧
      (∀ p ∈ f.patches, n.length + 1 ≤ p.1 ∧ p.1 < n₁.length) ∧
        Closed n₁ (n.length + 1) ∧
      ∀ m t, Filled m n₁ (n.length + 1) n₁.length f.patches t → Realizes m r f.entry t := by
  obtain ⟨hKept, hEntry, hGrows, hPatches, hClosed, hRealizes⟩ := h
  rw [length_append, length_singleton] at hKept hEntry hGrows hPatches hClosed hRealizes
  refine ⟨fun i hi => ?_, ?_, hEntry, hGrows, hPatches, hClosed, hRealizes⟩
  · rw [hKept i (Nat.lt_succ_of_lt hi), getElem?_append_left hi]
  · rw [hKept _ (lt_add_one _)]
    simp

theorem Closed.of_succ {s : Nat} (h : Closed n (s + 1))
    (hState : ∀ st t, n[s]? = some st → st.out1 = some t ∨
      st.out2 = some t → t < n.length) :
    Closed n s := by
  intro i st t hLo hi hOut
  rcases eq_or_lt_of_le hLo with rfl | hLt
  · exact hState st t hi hOut
  · exact h i st t hLt hi hOut

theorem built_alt {b : RegexNode} {l r : Frag} (hA : Built (n ++ [{ kind := .split }]) a l n₁)
    (hB : Built n₁ b r n₂) :
    Built n (.alt a b) ⟨n.length, l.patches ++ r.patches⟩
      (setOut (setOut n₂ (n.length, .out1) l.entry) (n.length, .out2) r.entry) := by
  obtain ⟨hKept, hHead, hEntry, hGrows, hPatches, hClosed, hRealizes⟩ := hA.after_new
  have hOther : ∀ i, i ≠ n.length →
      (setOut (setOut n₂ (n.length, .out1) l.entry) (n.length, .out2) r.entry)[i]? = n₂[i]? :=
    fun i hi => by rw [getElem?_setOut_of_ne hi, getElem?_setOut_of_ne hi]
  have hState : (setOut (setOut n₂ (n.length, .out1) l.entry)
    (n.length, .out2) r.entry)[n.length]? =
      some { kind := .split, out1 := some l.entry, out2 := some r.entry } := by
    rw [getElem?_setOut, getElem?_setOut, hB.kept _ (by omega), hHead]
    simp
  have hLeft : ∀ i, n₁.length ≤ i → ∀ slot, (i, slot) ∉ l.patches :=
    fun i hi slot hp => by
    have := (hPatches _ hp).2
    omega
  have hRight : ∀ i, i < n₁.length → ∀ slot, (i, slot) ∉ r.patches :=
    fun i hi slot hp => by
    have := (hB.patches _ hp).1
    omega
  have hBoth : ∀ i, i ≤ n.length → ∀ p ∈ l.patches ++ r.patches, p.1 ≠ i := by
    intro i hi p hp
    rcases mem_append.mp hp with hp | hp
    · have := (hPatches _ hp).1
      omega
    · have := (hB.patches _ hp).1
      omega
  have hGrowsB := hB.grows
  constructor
  · intro i hi
    rw [hOther i hi.ne, hB.kept i (by omega), hKept i hi]
  · rfl
  · simp only [length_setOut]
    omega
  · intro p hp
    simp only [length_setOut]
    rcases mem_append.mp hp with hp | hp
    · have := hPatches p hp
      omega
    · have := hB.patches p hp
      omega
  · refine Closed.of_succ ?_ fun st t hSt hOut => ?_
    · have hClosed₂ := hClosed.extend hB.closed hB.kept hGrowsB.le
      exact (hClosed₂.setOut (by omega)).setOut (by rw [length_setOut, hB.entry]; exact hGrowsB)
    · rw [hState] at hSt
      cases hSt
      simp only [length_setOut, Option.some.injEq] at hOut ⊢
      have hEntryB := hB.entry
      omega
  · intro m t hFilled
    simp only [length_setOut] at hFilled
    refine ⟨l.entry, r.entry, ?_, hRealizes m t fun i hLo hHi => ?_,
      hB.realizes m t fun i hLo hHi => ?_⟩
    · rw [hFilled _ (le_rfl) (by omega), hState,
        map_patched_of_forall_ne (hBoth _ (le_rfl))]
    · rw [hFilled i (by omega) (by omega), hOther i (by omega), hB.kept i hHi]
      exact map_patched_congr (fun slot => by simp [hRight i hHi]) _
    · rw [hFilled i (by omega) hHi, hOther i (by omega)]
      exact map_patched_congr (fun slot => by simp [hLeft i hLo]) _

theorem built_star (hA : Built (n ++ [{ kind := .split }]) a f n₁) :
    Built n (.star a) ⟨n.length, [(n.length, .out2)]⟩
      (fragPatchTo (setOut n₁ (n.length, .out1) f.entry) f.patches n.length) := by
  obtain ⟨hKept, hHead, hEntry, hGrows, hPatches, hClosed, hRealizes⟩ := hA.after_new
  have hInner : ∀ i, i ≤ n.length → ∀ p ∈ f.patches, p.1 ≠ i := fun i hi p hp => by
    have := (hPatches p hp).1
    omega
  have hState : (fragPatchTo
    (setOut n₁ (n.length, .out1) f.entry) f.patches n.length)[n.length]? =
      some { kind := .split, out1 := some f.entry } := by
    rw [getElem?_fragPatchTo_of_forall_ne (hInner _ (le_rfl)), getElem?_setOut, hHead]
    simp
  constructor
  · intro i hi
    rw [getElem?_fragPatchTo_of_forall_ne (hInner i hi.le), getElem?_setOut_of_ne hi.ne,
      hKept i hi]
  · rfl
  · simp only [length_fragPatchTo, length_setOut]
    omega
  · simp only [length_fragPatchTo, length_setOut, mem_singleton, forall_eq]
    omega
  · refine Closed.of_succ ((hClosed.setOut (by omega)).fragPatchTo (by rw [length_setOut]; omega))
      fun st t hSt hOut => ?_
    rw [hState] at hSt
    cases hSt
    simp only [length_fragPatchTo, length_setOut, Option.some.injEq,
      reduceCtorEq, or_false] at hOut ⊢
    omega
  · intro m t hFilled
    simp only [length_fragPatchTo, length_setOut] at hFilled
    refine ⟨f.entry, ?_, hRealizes m n.length fun i hLo hHi => ?_⟩
    · rw [hFilled _ (le_rfl) (by omega), hState]
      simp
    · have hNe : i ≠ n.length := by omega
      rw [hFilled i (by omega) hHi, getElem?_fragPatchTo, getElem?_setOut_of_ne hNe,
        map_patched_of_forall_ne]
      intro p hp
      cases mem_singleton.mp hp
      exact hNe.symm

theorem built_opt (hA : Built (n ++ [{ kind := .split }]) a f n₁) :
    Built n (.opt a) ⟨n.length, (n.length, .out2) :: f.patches⟩
      (setOut n₁ (n.length, .out1) f.entry) := by
  obtain ⟨hKept, hHead, hEntry, hGrows, hPatches, hClosed, hRealizes⟩ := hA.after_new
  have hState : (setOut n₁ (n.length, .out1) f.entry)[n.length]? =
      some { kind := .split, out1 := some f.entry } := by
    rw [getElem?_setOut, hHead]
    simp
  have hInner : ∀ slot, (n.length, slot) ∉ f.patches := fun slot hp => by
    have := (hPatches _ hp).1
    omega
  constructor
  · intro i hi
    rw [getElem?_setOut_of_ne hi.ne, hKept i hi]
  · rfl
  · rw [length_setOut]
    omega
  · intro p hp
    rw [length_setOut]
    rcases mem_cons.mp hp with rfl | hp
    · exact ⟨le_rfl, by omega⟩
    · have := hPatches p hp
      omega
  · refine Closed.of_succ (hClosed.setOut (by omega)) fun st t hSt hOut => ?_
    rw [hState] at hSt
    cases hSt
    simp only [length_setOut, Option.some.injEq, reduceCtorEq, or_false] at hOut ⊢
    omega
  · intro m t hFilled
    rw [length_setOut] at hFilled
    refine ⟨f.entry, ?_, hRealizes m t fun i hLo hHi => ?_⟩
    · rw [hFilled _ (le_rfl) (by omega), hState]
      simp [hInner]
    · have hNe : i ≠ n.length := by omega
      rw [hFilled i (by omega) hHi, getElem?_setOut_of_ne hNe]
      exact map_patched_congr (fun slot => by simp [hNe]) _

theorem built_plus (hA : Built n a f n₁) :
    Built n (.plus a) ⟨f.entry, [(n₁.length, .out2)]⟩
      (fragPatchTo (setOut (n₁ ++ [{ kind := .split }]) (n₁.length, .out1) f.entry) f.patches
        n₁.length) := by
  have hGrows := hA.grows
  have hEntry := hA.entry
  have hInner : ∀ i, n₁.length ≤ i → ∀ p ∈ f.patches, p.1 ≠ i := fun i hi p hp => by
    have := (hA.patches p hp).2
    omega
  have hLength : (fragPatchTo (setOut (n₁ ++ [{ kind := .split }]) (n₁.length, .out1) f.entry)
      f.patches n₁.length).length = n₁.length + 1 := by simp
  have hState : (fragPatchTo (setOut (n₁ ++ [{ kind := .split }]) (n₁.length, .out1) f.entry)
      f.patches n₁.length)[n₁.length]? = some { kind := .split, out1 := some f.entry } := by
    rw [getElem?_fragPatchTo_of_forall_ne (hInner _ (le_rfl)), getElem?_setOut]
    simp
  have hOther : ∀ i, i < n₁.length →
      (fragPatchTo (setOut (n₁ ++ [{ kind := .split }]) (n₁.length, .out1) f.entry) f.patches
        n₁.length)[i]? = n₁[i]?.map (NfaState.patched f.patches n₁.length i) := fun i hi => by
    rw [getElem?_fragPatchTo, getElem?_setOut_of_ne hi.ne, getElem?_append_left hi]
  constructor
  · intro i hi
    rw [hOther i (hi.trans hGrows), hA.kept i hi, map_patched_of_forall_ne]
    exact fun p hp => (lt_of_lt_of_le hi (hA.patches p hp).1).ne'
  · exact hEntry
  · omega
  · rw [hLength]
    simp only [mem_singleton, forall_eq]
    omega
  · exact ((closed_nfaNew hA.closed rfl rfl).setOut (by simp [nfaNew]; omega)).fragPatchTo
      (by simp [nfaNew])
  · intro m t hFilled
    rw [hLength] at hFilled
    refine ⟨n₁.length, hA.realizes m n₁.length fun i hLo hHi => ?_, ?_⟩
    · rw [hFilled i hLo (by omega), hOther i hHi, map_patched_of_forall_ne]
      intro p hp
      cases mem_singleton.mp hp
      exact hHi.ne'
    · rw [hFilled _ hGrows.le (by omega), hState]
      simp

theorem built_buildFrag (n : NfaStates) (r : RegexNode) :
    Built n r (buildFrag n r).1 (buildFrag n r).2 := by
  induction r generalizing n with
  | byteClass | empty => exact built_single rfl rfl fun _ _ _ h => h
  | concat a b iha ihb => exact built_concat (iha n) (ihb _)
  | alt a b iha ihb => exact built_alt (iha _) (ihb _)
  | star a ih => exact built_star (ih _)
  | plus a ih => exact built_plus (ih n)
  | opt a ih => exact built_opt (ih _)

end

end Casprix.Regex
