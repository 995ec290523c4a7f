import Casprix.Regex.Subset

/-! The subset construction terminates with a state for each reachable set and
recognizes the language of the epsilon automaton. -/
namespace Casprix.Regex

open List Library

namespace Dfa

/-- The home slot of the state at place `i`. -/
def homeOf (d : Dfa) (i : Nat) : Nat := d.home ((d.states.map DfaState.hash).getD i 0)

/-- The hash table finds every state by its subset. -/
structure Table (d : Dfa) : Prop where
  represents : Represents d.bucket d.bucketMask d.homeOf d.states.length
  used : d.bucketUsed = d.states.length
  hash : ∀ st ∈ d.states, st.hash = fnv64Ids st.set

section

variable {d : Dfa} {set : List Nat} {accepting : Bool}

theorem home_lt (d : Dfa) (hash : BitVec 64) : d.home hash < d.bucketMask + 1 :=
  Nat.lt_succ_of_le Nat.and_le_right

theorem Table.rehash (h : d.Table) {mask : Nat} (hPow : ∃ m, mask + 1 = 2 ^ m)
    (hRoom : d.states.length ≤ mask + 1) : (d.rehash mask).Table where
  represents := by
    have hHomes : ∀ k ∈ d.states.map (fun st => st.hash.toNat &&& mask), k < mask + 1 := by
      intro k hk
      obtain ⟨st, _, rfl⟩ := mem_map.mp hk
      exact Nat.lt_succ_of_le Nat.and_le_right
    have hAll := Represents.storeAll hPow hHomes (by rwa [length_map])
    rw [length_map] at hAll
    apply hAll.congr
    intro i hi
    simp [homeOf, home, Dfa.rehash, hi]
  used := h.used
  hash := h.hash

theorem Table.grow (h : d.Table) :
    let d' := if d.bucketMask + 1 ≤ d.bucketUsed * 2 then d.rehash (2 * d.bucketMask + 1) else d
    d'.Table ∧ d'.states = d.states ∧ d'.states.length < d'.bucketMask + 1 := by
  have hCount := h.represents.free
  have hUsed := h.used
  intro d'
  by_cases hFull : d.bucketMask + 1 ≤ d.bucketUsed * 2
  · have hEq : d' = d.rehash (2 * d.bucketMask + 1) := if_pos hFull
    obtain ⟨m, hm⟩ := h.represents.pow
    have hPow : 2 * d.bucketMask + 1 + 1 = 2 ^ (m + 1) := by
      rw [pow_succ]
      omega
    rw [hEq]
    refine ⟨h.rehash ⟨m + 1, hPow⟩ (by omega), rfl, ?_⟩
    simp only [Dfa.rehash]
    omega
  · have hEq : d' = d := if_neg hFull
    rw [hEq]
    exact ⟨h, rfl, by omega⟩

/-- What looking a subset up does: the state is there, or it is added last. -/
theorem Table.findOrAdd (h : d.Table) (set : List Nat) (accepting : Bool) :
    (d.findOrAdd set accepting).2.2.Table ∧
      ((∃ st, d.states[(d.findOrAdd set accepting).1]? = some st ∧ st.set = set ∧
          (d.findOrAdd set accepting).2.2.states = d.states) ∨
        ((∀ st ∈ d.states, st.set ≠ set) ∧
          (d.findOrAdd set accepting).1 = d.states.length ∧
          (d.findOrAdd set accepting).2.2.states =
            d.states ++ [{ accepting := accepting, set := set, hash := fnv64Ids set }])) := by
  obtain ⟨hTable, hStates, hRoom⟩ := h.grow
  revert hTable hStates hRoom
  unfold Dfa.findOrAdd
  generalize (if d.bucketMask + 1 ≤
    d.bucketUsed * 2 then d.rehash (2 * d.bucketMask + 1) else d) = e
  intro hTable hStates hRoom
  dsimp only
  split
  · next idx hFound =>
      obtain ⟨hLt, hHit⟩ := hTable.represents.found hRoom (home_lt e _) hFound
      obtain ⟨st, hState⟩ : ∃ st, e.states[idx]? = some st := ⟨_, getElem?_eq_getElem hLt⟩
      simp only [hState, Bool.and_eq_true, beq_iff_eq] at hHit
      exact ⟨hTable, .inl ⟨st, hStates ▸ hState, hHit.2, hStates⟩⟩
  · next slot hFree =>
      have hHomes : ∀ i, i < e.states.length → e.homeOf i =
          e.home (((e.states.map DfaState.hash) ++ [fnv64Ids set]).getD i 0) := by
        intro i hi
        rw [homeOf, getD_append _ _ _ _ (by rwa [length_map])]
      have hLast : e.home (((e.states.map DfaState.hash) ++ [fnv64Ids set]).getD
          e.states.length 0) = e.home (fnv64Ids set) := by
        simp
      refine ⟨⟨?_, ?_, ?_⟩, .inr ⟨?_, by rw [hStates], by rw [hStates]⟩⟩
      · have hSet := (hTable.represents.congr hHomes).set hRoom (by rw [hLast]; exact home_lt e _)
          (hLast ▸ hFree)
        rw [length_append, length_singleton]
        apply hSet.congr
        intro i _
        show _ = e.home ((List.map DfaState.hash (e.states ++ [_])).getD i 0)
        rw [map_append]
        rfl
      · show e.bucketUsed + 1 = (e.states ++ [_]).length
        rw [length_append, hTable.used]
        rfl
      · intro st hst
        rcases mem_append.mp hst with hst | hst
        · exact hTable.hash st hst
        · cases mem_singleton.mp hst
          rfl
      · intro st hst hEq
        rw [← hStates] at hst
        obtain ⟨i, hi⟩ := mem_iff_getElem?.mp hst
        have hLt := (List.getElem?_eq_some_iff.mp hi).1
        have hHash := hTable.hash st hst
        have hHome : e.homeOf i = e.home (fnv64Ids set) := by
          simp [homeOf, hi, hHash, hEq]
        have hMiss := hTable.represents.miss hRoom (home_lt e _) hFree hLt hHome
        simp [hi, hHash, hEq] at hMiss

end

end Dfa

/-- The transition of `st` on byte `b` is the one its subset calls for. -/
def Leads (nfa : Nfa) (d : Dfa) (st : DfaState) (b : Byte) : Prop :=
  (moveSet nfa st.set b = [] ∧ st.trans[b.toNat]? = some none) ∨
    ∃ (j : Nat) (st' : DfaState), st.trans[b.toNat]? = some (some j) ∧
      d.states[j]? = some st' ∧
      st'.set = moveSet nfa st.set b

/-- A subset that some word leads to. -/
def Reached (nfa : Nfa) (set : List Nat) : Prop :=
  set ≠ [] ∧ ∃ w : List Byte, nfa.automaton.eval w = {s | s ∈ set}

/-- What holds of one state whatever is still to be expanded. -/
structure StateOk (nfa : Nfa) (st : DfaState) : Prop where
  subset : Subset nfa st.set
  reached : Reached nfa st.set
  accepting : st.accepting = true ↔ nfa.matchState ∈ st.set
  width : st.trans.length = 256
  live : st.ntrans = st.trans.countP Option.isSome

/-- The construction under way: the transitions `done` are filled in, the
others are still dead. -/
structure Partial (nfa : Nfa) (done : Nat → Byte → Prop) (d : Dfa) : Prop where
  table : d.Table
  start : ∃ st, d.states[0]? = some st ∧ ∀ s, s ∈ st.set ↔
    s ∈ nfa.automaton.εClosure {0}
  distinct : (d.states.map DfaState.set).Nodup
  state : ∀ (i : Nat) st, d.states[i]? = some st → StateOk nfa st
  done_lt : ∀ i b, done i b → i < d.states.length
  todo : ∀ (i : Nat) st b, d.states[i]? = some st → ¬done i b →
    st.trans[b.toNat]? = some none
  made : ∀ (i : Nat) st b, d.states[i]? = some st → done i b → Leads nfa d st b

variable {st st₀ : DfaState} {id : Nat}

section

private theorem countP_isSome_replicate (n : Nat) :
    (List.replicate n (none : Option Nat)).countP Option.isSome = 0 := by
  simp [countP_replicate]

variable {nfa : Nfa} {done : Nat → Byte → Prop} {d : Dfa} {cur : Nat} {b : Byte}

theorem Partial.length_le (h : Partial nfa done d) : d.states.length ≤ 2 ^ nfa.states.length := by
  rw [← length_map (f := DfaState.set)]
  apply length_le_two_pow h.distinct
  intro set hSet
  obtain ⟨st, hst, rfl⟩ := mem_map.mp hSet
  obtain ⟨i, hi⟩ := mem_iff_getElem?.mp hst
  exact ⟨(h.state i st hi).subset.increasing, (h.state i st hi).subset.bounded⟩

theorem Leads.mono {d' : Dfa} (h : Leads nfa d st b)
    (hKept : ∀ (i : Nat) st, d.states[i]? = some st →
      ∃ st', d'.states[i]? = some st' ∧ st'.set = st.set) :
    Leads nfa d' st b := by
  rcases h with hDead | ⟨j, st', hTrans, hState, hSet⟩
  · exact .inl hDead
  · obtain ⟨st'', hState', hSet'⟩ := hKept j st' hState
    exact .inr ⟨j, st'', hTrans, hState', hSet'.trans hSet⟩

theorem Partial.findOrAdd (h : Partial nfa done d) {set : List Nat} {accepting : Bool}
    (hSet : Subset nfa set) (hReached : Reached nfa set)
    (hAccepting : accepting = true ↔ nfa.matchState ∈ set) :
    Partial nfa done (d.findOrAdd set accepting).2.2 ∧
      (∃ st, (d.findOrAdd set accepting).2.2.states[(d.findOrAdd set accepting).1]? = some st ∧
        st.set = set) ∧
      ∀ (i : Nat) st, d.states[i]? = some st →
        (d.findOrAdd set accepting).2.2.states[i]? = some st := by
  obtain ⟨hTable, hCases⟩ := h.table.findOrAdd set accepting
  generalize d.findOrAdd set accepting = result at hTable hCases ⊢
  obtain ⟨id, added, d'⟩ := result
  dsimp only at hTable hCases ⊢
  rcases hCases with ⟨st, hState, hEq, hSame⟩ | ⟨hFresh, rfl, hStates⟩
  · refine ⟨⟨hTable, ?_, ?_, ?_, ?_, ?_, ?_⟩,
      ⟨st, by rwa [hSame], hEq⟩, by simp [hSame]⟩
    · rw [hSame]
      exact h.start
    · rw [hSame]
      exact h.distinct
    · rw [hSame]
      exact h.state
    · rw [hSame]
      exact h.done_lt
    · rw [hSame]
      exact h.todo
    · rw [hSame]
      intro i st b hState hDone
      exact (h.made i st b hState hDone).mono fun i st hi => ⟨st, by rwa [hSame], rfl⟩
  · have hKept : ∀ (i : Nat) st, d.states[i]? = some st → d'.states[i]? = some st := by
      intro i st hi
      rw [hStates, getElem?_append_left (List.getElem?_eq_some_iff.mp hi).1, hi]
    have hSplit : ∀ (i : Nat) st, d'.states[i]? = some st → d.states[i]? = some st ∨
        (i = d.states.length ∧ st =
          { accepting := accepting, set := set, hash := fnv64Ids set }) := by
      intro i st hi
      rw [hStates] at hi
      rcases lt_trichotomy i d.states.length with hLt | rfl | hGt
      · rw [getElem?_append_left hLt] at hi
        exact .inl hi
      · simp only [getElem?_concat_length, Option.some.injEq] at hi
        exact .inr ⟨rfl, hi.symm⟩
      · rw [getElem?_eq_none (by rw [length_append]; exact hGt)] at hi
        cases hi
    refine ⟨⟨hTable, ?_, ?_, ?_, ?_, ?_, ?_⟩,
      ⟨_, by rw [hStates]; exact getElem?_concat_length,
      rfl⟩, hKept⟩
    · obtain ⟨st, hState, hStart⟩ := h.start
      exact ⟨st, hKept 0 st hState, hStart⟩
    · rw [hStates, map_append]
      apply h.distinct.append (nodup_singleton _)
      intro s hs hNew
      obtain ⟨st, hst, rfl⟩ := mem_map.mp hs
      exact hFresh st hst (by simpa using hNew)
    · intro i st hi
      rcases hSplit i st hi with hi | ⟨_, rfl⟩
      · exact h.state i st hi
      · exact ⟨hSet, hReached, hAccepting, length_replicate,
          (countP_isSome_replicate 256).symm⟩
    · intro i b hDone
      rw [hStates, length_append]
      exact Nat.lt_add_right _ (h.done_lt i b hDone)
    · intro i st b hi hTodo
      rcases hSplit i st hi with hi | ⟨_, rfl⟩
      · exact h.todo i st b hi hTodo
      · exact (getElem?_replicate ..).trans (if_pos b.toNat_lt)
    · intro i st b hi hDone
      rcases hSplit i st hi with hi | ⟨rfl, _⟩
      · exact (h.made i st b hi hDone).mono fun i st hi => ⟨st, hKept i st hi, rfl⟩
      · exact absurd (h.done_lt _ b hDone) (lt_irrefl _)

theorem map_setTrans {β : Type} {f : DfaState → β} (hf : ∀ st, f (st.setTrans b id) = f st) :
    (d.setTrans cur b id).states.map f = d.states.map f := by
  apply ext_getElem?
  intro i
  simp only [Dfa.setTrans, getElem?_map, getElem?_modify]
  cases d.states[i]? with
  | none => rfl
  | some st =>
    by_cases hEq : cur = i
    · simp [hEq, hf]
    · simp [hEq]

theorem getElem?_setTrans {i : Nat} (hCur : d.states[cur]? = some st₀)
    (hi : (d.setTrans cur b id).states[i]? = some st) :
    (i ≠ cur ∧ d.states[i]? = some st) ∨ (i = cur ∧ st = st₀.setTrans b id) := by
  simp only [Dfa.setTrans, getElem?_modify, Option.map_eq_map, Option.map_eq_some_iff] at hi
  obtain ⟨st', hState, rfl⟩ := hi
  by_cases hEq : cur = i
  · subst hEq
    cases hCur.symm.trans hState
    simp
  · have hNe : i ≠ cur := fun hi => hEq hi.symm
    simp [hEq, hNe, hState]

theorem exists_getElem?_setTrans {i : Nat} (hi : d.states[i]? = some st) :
    ∃ st', (d.setTrans cur b id).states[i]? = some st' ∧ st'.set = st.set := by
  simp only [Dfa.setTrans, getElem?_modify, hi]
  refine ⟨_, rfl, ?_⟩
  split <;> rfl

theorem Dfa.Table.setTrans (h : d.Table) : (d.setTrans cur b id).Table where
  represents := by
    have hLength : (d.setTrans cur b id).states.length = d.states.length := length_modify _ _ _
    rw [hLength]
    apply h.represents.congr
    intro i _
    simp only [Dfa.homeOf, Dfa.home]
    rw [map_setTrans fun st => rfl]
    rfl
  used := h.used.trans (length_modify _ _ _).symm
  hash := by
    have hPairs : (d.setTrans cur b id).states.map (fun st => (st.hash, st.set)) =
        d.states.map fun st => (st.hash, st.set) := map_setTrans fun st => rfl
    intro st hst
    have hMem := mem_map_of_mem (f := fun st : DfaState => (st.hash, st.set)) hst
    rw [hPairs] at hMem
    obtain ⟨st', hst', hEq⟩ := mem_map.mp hMem
    obtain ⟨hHash, hSet⟩ := Prod.mk.inj hEq
    rw [← hHash, ← hSet]
    exact h.hash st' hst'

theorem Partial.setTrans (h : Partial nfa done d) (hCur : d.states[cur]? = some st₀)
    (hTodo : ¬done cur b)
    (hTarget : ∃ st, d.states[id]? = some st ∧ st.set = moveSet nfa st₀.set b) :
    Partial nfa (fun i c => done i c ∨ (i = cur ∧ c = b)) (d.setTrans cur b id) := by
  have hOpen := h.todo cur st₀ b hCur hTodo
  have hByte : b.toNat < st₀.trans.length := (h.state cur st₀ hCur).width ▸ b.toNat_lt
  refine ⟨h.table.setTrans, ?_, ?_, ?_, ?_, ?_, ?_⟩
  · obtain ⟨st, hState, hStart⟩ := h.start
    obtain ⟨st', hState', hSet⟩ : ∃ st', (d.setTrans cur b id).states[0]? = some st' ∧
        st'.set = st.set := exists_getElem?_setTrans hState
    exact ⟨st', hState', by rwa [hSet]⟩
  · rw [map_setTrans fun st => rfl]
    exact h.distinct
  · intro i st hi
    rcases getElem?_setTrans hCur hi with ⟨_, hState⟩ | ⟨_, rfl⟩
    · exact h.state i st hState
    · have hOk := h.state cur st₀ hCur
      have hEntry : st₀.trans[b.toNat] = none := (List.getElem?_eq_some_iff.mp hOpen).2
      refine ⟨hOk.subset, hOk.reached, hOk.accepting, (length_set ..).trans hOk.width, ?_⟩
      show st₀.ntrans + 1 = (st₀.trans.set b.toNat (some id)).countP Option.isSome
      rw [countP_set hByte, hEntry, ← hOk.live]
      simp
  · intro i c hDone
    have hLength : (d.setTrans cur b id).states.length = d.states.length := length_modify _ _ _
    rw [hLength]
    rcases hDone with hDone | ⟨rfl, _⟩
    · exact h.done_lt i c hDone
    · exact (List.getElem?_eq_some_iff.mp hCur).1
  · intro i st c hi hNot
    rw [not_or] at hNot
    rcases getElem?_setTrans hCur hi with ⟨_, hState⟩ | ⟨rfl, rfl⟩
    · exact h.todo i st c hState hNot.1
    · have hNe : b.toNat ≠ c.toNat := fun hEq => hNot.2 ⟨rfl, (UInt8.toNat_inj.mp hEq).symm⟩
      show (st₀.trans.set b.toNat (some id))[c.toNat]? = _
      rw [getElem?_set_ne hNe]
      exact h.todo i st₀ c hCur hNot.1
  · intro i st c hi hDone
    have hKept : ∀ (i : Nat) st, d.states[i]? = some st →
        ∃ st', (d.setTrans cur b id).states[i]? = some st' ∧ st'.set = st.set :=
      fun i st => exists_getElem?_setTrans
    rcases getElem?_setTrans hCur hi with ⟨hNe, hState⟩ | ⟨rfl, rfl⟩
    · rcases hDone with hDone | ⟨hEq, _⟩
      · exact (h.made i st c hState hDone).mono hKept
      · exact absurd hEq hNe
    · by_cases hEq : c = b
      · subst hEq
        obtain ⟨st, hId, hSet⟩ := hTarget
        obtain ⟨st', hState', hSet'⟩ := hKept id st hId
        exact .inr ⟨id, st', getElem?_set_self hByte, hState', hSet'.trans hSet⟩
      · have hNe : b.toNat ≠ c.toNat := fun hNat => hEq (UInt8.toNat_inj.mp hNat).symm
        have hDone' : done i c := by
          rcases hDone with hDone | ⟨_, hEq'⟩
          · exact hDone
          · exact absurd hEq' hEq
        have hLeads : Leads nfa (d.setTrans i b id) st₀ c :=
          (h.made i st₀ c hCur hDone').mono hKept
        have hEntry : (st₀.setTrans b id).trans[c.toNat]? = st₀.trans[c.toNat]? :=
          getElem?_set_ne hNe
        simp only [Leads, hEntry]
        exact hLeads

theorem Partial.congr {done' : Nat → Byte → Prop} (h : Partial nfa done d)
    (hEq : ∀ i b, done i b ↔ done' i b) : Partial nfa done' d := by
  have hSame : done = done' := by
    funext i b
    exact propext (hEq i b)
  rwa [← hSame]

theorem Partial.leaveDead (h : Partial nfa done d) (hCur : d.states[cur]? = some st₀)
    (hTodo : ¬done cur b) (hDead : moveSet nfa st₀.set b = []) :
    Partial nfa (fun i c => done i c ∨ (i = cur ∧ c = b)) d where
  table := h.table
  start := h.start
  distinct := h.distinct
  state := h.state
  done_lt := by
    rintro i c (hDone | ⟨rfl, _⟩)
    · exact h.done_lt i c hDone
    · exact (List.getElem?_eq_some_iff.mp hCur).1
  todo := fun i st c hi hNot => h.todo i st c hi fun hDone => hNot (.inl hDone)
  made := by
    rintro i st c hi (hDone | ⟨rfl, rfl⟩)
    · exact h.made i st c hi hDone
    · cases hCur.symm.trans hi
      exact .inl ⟨hDead, h.todo i st₀ c hCur hTodo⟩

theorem Reached.moveSet (hClosed : Closed nfa.states 0) {set : List Nat} (hSubset : Subset nfa set)
    (h : Reached nfa set) (hLive : moveSet nfa set b ≠ []) : Reached nfa (moveSet nfa set b) := by
  obtain ⟨_, w, hEval⟩ := h
  refine ⟨hLive, w ++ [b], ?_⟩
  rw [εNFA.eval_append_singleton, hEval]
  ext t
  exact ((hSubset.moveSet hClosed b).2 t).symm

theorem Partial.expandByte (h : Partial nfa done d) (hClosed : Closed nfa.states 0)
    {st₀ : DfaState} (hCur : d.states[cur]? = some st₀) (hTodo : ¬done cur b) :
    Partial nfa (fun i c => done i c ∨ (i = cur ∧ c = b)) (expandByte nfa cur st₀.set d b) ∧
      ∃ st, (expandByte nfa cur st₀.set d b).states[cur]? = some st ∧ st.set = st₀.set := by
  have hNext := (h.state cur st₀ hCur).subset.moveSet hClosed b
  simp only [Regex.expandByte]
  split
  · next hDead => exact ⟨h.leaveDead hCur hTodo hDead, st₀, hCur, rfl⟩
  · next hLive =>
    have hReached := (h.state cur st₀ hCur).reached.moveSet hClosed
      (h.state cur st₀ hCur).subset hLive
    obtain ⟨hPartial, hTarget, hKept⟩ :=
      h.findOrAdd hNext.1 hReached (sortedContains_iff (x := nfa.matchState) hNext.1.increasing)
    have hCur' := hKept cur st₀ hCur
    exact ⟨hPartial.setTrans hCur' hTodo hTarget, exists_getElem?_setTrans hCur'⟩

/-- Running over a list of bytes fills in the transitions on each of them. -/
theorem Partial.foldl_expandByte (hClosed : Closed nfa.states 0) {bytes : List Byte}
    {done : Nat → Byte → Prop} {d : Dfa} (h : Partial nfa done d) {set : List Nat}
    (hCur : d.states[cur]? = some st₀) (hSet : st₀.set = set)
    (hTodo : ∀ b ∈ bytes, ¬done cur b) (hNodup : bytes.Nodup) :
    Partial nfa (fun i c => done i c ∨ (i = cur ∧ c ∈ bytes))
      (bytes.foldl (Regex.expandByte nfa cur set) d) := by
  induction bytes generalizing done d st₀ with
  | nil => exact h.congr fun i c => by simp
  | cons b bytes ih =>
    subst hSet
    obtain ⟨hNotMem, hNodup⟩ := nodup_cons.mp hNodup
    obtain ⟨hStep, st, hState, hSet⟩ := h.expandByte hClosed hCur (hTodo b mem_cons_self)
    have hRest := ih hStep hState hSet (fun c hc => by
      rintro (hDone | ⟨_, rfl⟩)
      · exact hTodo c (mem_cons_of_mem b hc) hDone
      · exact hNotMem hc) hNodup
    apply hRest.congr
    intro i c
    rw [mem_cons, or_assoc, ← and_or_left]

theorem mem_allBytes (b : Byte) : b ∈ allBytes := by
  refine mem_map.mpr ⟨b.toNat, mem_range.mpr b.toNat_lt, ?_⟩
  exact UInt8.ofNat_toNat

theorem nodup_allBytes : allBytes.Nodup := by
  refine List.Nodup.map_on (fun a ha b hb hEq => ?_) nodup_range
  rw [mem_range] at ha hb
  have hNat := congrArg UInt8.toNat hEq
  rwa [UInt8.toNat_ofNat_of_lt' ha, UInt8.toNat_ofNat_of_lt' hb] at hNat

/-- The states before `n` are expanded. -/
def ExpandedTo (nfa : Nfa) (n : Nat) (d : Dfa) : Prop := Partial nfa (fun i _ => i < n) d

theorem ExpandedTo.expandState (hClosed : Closed nfa.states 0) {n : Nat} (h : ExpandedTo nfa n d)
    (hn : n < d.states.length) : ExpandedTo nfa (n + 1) (expandState nfa n d) := by
  obtain ⟨st, hState⟩ : ∃ st, d.states[n]? = some st := ⟨_, getElem?_eq_getElem hn⟩
  simp only [Regex.expandState, hState]
  have hAll := Partial.foldl_expandByte hClosed h hState rfl
    (fun b _ => lt_irrefl n) nodup_allBytes
  apply hAll.congr
  intro i c
  simp only [mem_allBytes, and_true]
  omega

/-- The loop stops by itself with every state expanded. -/
theorem ExpandedTo.expandLoop (hClosed : Closed nfa.states 0) {fuel n : Nat}
    (h : ExpandedTo nfa n d) (hn : n ≤ d.states.length)
    (hFuel : 2 ^ nfa.states.length ≤ n + fuel) :
    ExpandedTo nfa (expandLoop nfa fuel n d).states.length (expandLoop nfa fuel n d) := by
  induction fuel generalizing n d with
  | zero =>
    have hLength := h.length_le
    have hEq : n = d.states.length := by omega
    subst hEq
    exact h
  | succ fuel ih =>
    unfold Regex.expandLoop
    split
    · next hLt =>
        have hNext := h.expandState hClosed hLt
        exact ih hNext (Nat.succ_le_of_lt (hNext.done_lt n 0 (Nat.lt_succ_self n))) (by omega)
    · next hNot =>
        have hEq : n = d.states.length := by omega
        subst hEq
        exact h

end

section

variable {nfa : Nfa}

theorem table_empty : (Dfa.rehash {} 31).Table where
  represents := Represents.replicate ⟨5, rfl⟩ _
  used := rfl
  hash := nofun

theorem expandedTo_startDfa (hClosed : Closed nfa.states 0) (hStates : 0 < nfa.states.length) :
    ExpandedTo nfa 0 (startDfa nfa) := by
  obtain ⟨hSubset, hStart⟩ := (subset_nil nfa).eclose hClosed hStates
  have hAccepting := sortedContains_iff (x := nfa.matchState) hSubset.increasing
  have hReached : Reached nfa (eclose nfa [] 0) := by
    have hEval : nfa.automaton.eval [] = {s | s ∈ eclose nfa [] 0} := by
      ext s
      rw [Set.mem_ofPred_eq, hStart]
      simp [Nfa.automaton]
    have hZero : 0 ∈ eclose nfa [] 0 := by
      rw [hStart]
      exact .inr (εNFA.subset_εClosure _ _ rfl)
    exact ⟨ne_nil_of_mem hZero, [], hEval⟩
  obtain ⟨hTable, hCases⟩ := table_empty.findOrAdd (eclose nfa [] 0)
    (sortedContains (eclose nfa [] 0) nfa.matchState)
  have hStates : (startDfa nfa).states =
      [{ accepting := sortedContains (eclose nfa [] 0) nfa.matchState, set := eclose nfa [] 0,
         hash := fnv64Ids (eclose nfa [] 0) }] := by
    rcases hCases with ⟨st, hState, _⟩ | ⟨_, _, hStates⟩
    · exact absurd (mem_of_getElem? hState) not_mem_nil
    · exact hStates
  have hGet : ∀ (i : Nat) st, (startDfa nfa).states[i]? = some st → i = 0 ∧ st =
      { accepting := sortedContains (eclose nfa [] 0) nfa.matchState, set := eclose nfa [] 0,
        hash := fnv64Ids (eclose nfa [] 0) } := by
    intro i st hi
    rw [hStates, getElem?_singleton] at hi
    split at hi
    · next hZero => exact ⟨hZero, (Option.some.inj hi).symm⟩
    · cases hi
  constructor
  · exact hTable
  · refine ⟨_, by rw [hStates]; rfl, fun s => ?_⟩
    rw [hStart]
    simp
  · rw [hStates]
    exact nodup_singleton _
  · intro i st hi
    obtain ⟨_, rfl⟩ := hGet i st hi
    exact ⟨hSubset, hReached, hAccepting, length_replicate, (countP_isSome_replicate 256).symm⟩
  · exact nofun
  · intro i st b hi _
    obtain ⟨_, rfl⟩ := hGet i st hi
    exact (getElem?_replicate ..).trans (if_pos b.toNat_lt)
  · exact nofun

theorem expandedTo_nfaToDfa (hClosed : Closed nfa.states 0) (hStates : 0 < nfa.states.length) :
    ExpandedTo nfa (nfaToDfa nfa).states.length (nfaToDfa nfa) :=
  (expandedTo_startDfa hClosed hStates).expandLoop hClosed (Nat.zero_le _) (by omega)

/-- The automaton runs on the state sets of the epsilon automaton. -/
theorem run_iff {d : Dfa} (h : ExpandedTo nfa d.states.length d) (hClosed : Closed nfa.states 0)
    {i : Nat} (hState : d.states[i]? = some st) (w : List Byte) :
    d.run i w = true ↔ nfa.matchState ∈ w.foldl nfa.automaton.stepSet {s | s ∈ st.set} := by
  induction w generalizing i st with
  | nil => simp [Dfa.run, Dfa.accepting, hState, (h.state i st hState).accepting]
  | cons b w ih =>
    have hMove := (h.state i st hState).subset.moveSet hClosed b
    have hLt := (List.getElem?_eq_some_iff.mp hState).1
    rcases h.made i st b hState hLt with ⟨hDead, hTrans⟩ | ⟨j, st', hTrans, hState', hSet⟩
    · have hEmpty : nfa.automaton.stepSet {s | s ∈ st.set} b = ∅ := by
        ext t
        rw [Set.mem_empty_iff_false, ← hMove.2, hDead]
        simp
      have hStay : ∀ w : List Byte, w.foldl nfa.automaton.stepSet ∅ = ∅ := by
        intro w
        induction w with
        | nil => rfl
        | cons c w ih => rw [foldl_cons, εNFA.stepSet_empty, ih]
      simp [Dfa.run, Dfa.trans, hState, hTrans, hEmpty, hStay]
    · have hEq : nfa.automaton.stepSet {s | s ∈ st.set} b = {s | s ∈ st'.set} := by
        ext t
        rw [← hMove.2, hSet]
        rfl
      simp [Dfa.run, Dfa.trans, hState, hTrans, ih hState', hEq]

theorem run_nfaToDfa_iff (hClosed : Closed nfa.states 0) (hStates : 0 < nfa.states.length)
    (w : List Byte) : (nfaToDfa nfa).run 0 w = true ↔ w ∈ nfa.automaton.accepts := by
  have hExpanded := expandedTo_nfaToDfa hClosed hStates
  obtain ⟨st, hState, hStart⟩ := hExpanded.start
  have hSet : ({s | s ∈ st.set} : Set Nat) = nfa.automaton.εClosure {0} := by
    ext s
    exact hStart s
  rw [run_iff hExpanded hClosed hState, hSet]
  constructor
  · exact fun hMatch => ⟨nfa.matchState, rfl, hMatch⟩
  · rintro ⟨s, hAccept, hEval⟩
    cases hAccept
    exact hEval

end

/-- The reference matcher accepts exactly the language of the parsed tree. -/
theorem mirRegexMatchReference_iff (pattern input : List Byte) (tree : RegexNode)
    (hTree : parsePattern pattern = .ok tree) :
    (mirRegexMatchReference pattern input).1 = true ↔ input ∈ tree.language := by
  have hStates : 0 < (buildNfa tree).states.length := by
    rw [length_buildNfa_states]
    exact Nat.succ_pos _
  simp only [mirRegexMatchReference, hTree]
  rw [run_nfaToDfa_iff (closed_buildNfa tree) hStates, accepts_automaton_buildNfa]

/-- The pattern `(a|b)*`. -/
theorem mirRegexMatchReference_star_iff :
    (mirRegexMatchReference [40, 97, 124, 98, 41, 42] [97, 98, 97]).1 = true ↔
      [97, 98, 97] ∈ (RegexNode.star (.alt (.byteClass (ByteSet.clear.add 97))
        (.byteClass (ByteSet.clear.add 98)))).language :=
  mirRegexMatchReference_iff [40, 97, 124, 98, 41, 42] [97, 98, 97] _ (by decide)

end Casprix.Regex
