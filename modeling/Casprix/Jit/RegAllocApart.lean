import Casprix.Jit.LiveRanges

/-! Values that live at the same time have different homes. -/
namespace Casprix.Jit

open Function List Mir

variable {func : MirFunction} {id vid x y : MirValueId}
  {v : MirValueId → JitVReg} {r : Reg} {k : Nat}

/-- The intervals from `first` to `last` have a point in common. -/
def Intersects (a b : JitVReg) : Prop := a.first ≤ b.last ∧ b.first ≤ a.last

instance (a b : JitVReg) : Decidable (Intersects a b) := inferInstanceAs (Decidable (_ ∧ _))

theorem Intersects.symm {a b : JitVReg} (h : Intersects a b) : Intersects b a := ⟨h.2, h.1⟩

/-- Where a value is kept. -/
inductive Home where
  | reg (r : Reg)
  | slot (k : Nat)
  deriving DecidableEq, Repr

/-- A register of the pool, or a spill slot. -/
def HasHome (a : JitVReg) : Home → Prop
  | .reg r => a.reg = some r ∧ r ∈ allocPool
  | .slot k => a.spillSlot = some k

namespace LinearScan

variable {s : LinearScan} {ranges : MirValueId → JitVReg} {now start : Int}
  {done : List MirValueId}

section

theorem setReg_self (v : MirValueId → JitVReg) (id : MirValueId) (reg : Option Reg) :
    setReg v id reg id = { v id with reg } := update_self ..

theorem setReg_of_ne (hNe : x ≠ id) (reg : Option Reg) : setReg v id reg x = v x :=
  update_of_ne hNe ..

theorem setSlot_self (v : MirValueId → JitVReg) (id : MirValueId) (slot : Nat) :
    setSlot v id slot id = { v id with spillSlot := some slot } := update_self ..

theorem setSlot_of_ne (hNe : x ≠ id) (slot : Nat) : setSlot v id slot x = v x :=
  update_of_ne hNe ..

/-- The scan changes homes only. -/
def SameRange (a b : JitVReg) : Prop := a.first = b.first ∧ a.last = b.last ∧ a.used = b.used

theorem sameRange_setReg (v : MirValueId → JitVReg) (id x : MirValueId) (reg : Option Reg) :
    SameRange (setReg v id reg x) (v x) := by
  by_cases hSame : x = id
  · rw [hSame, setReg_self]
    exact ⟨rfl, rfl, rfl⟩
  · rw [setReg_of_ne hSame]
    exact ⟨rfl, rfl, rfl⟩

theorem sameRange_setSlot (v : MirValueId → JitVReg) (id x : MirValueId) (slot : Nat) :
    SameRange (setSlot v id slot x) (v x) := by
  by_cases hSame : x = id
  · rw [hSame, setSlot_self]
    exact ⟨rfl, rfl, rfl⟩
  · rw [setSlot_of_ne hSame]
    exact ⟨rfl, rfl, rfl⟩

theorem SameRange.trans {a b c : JitVReg} (h : SameRange a b) (h' : SameRange b c) :
    SameRange a c :=
  ⟨h.1.trans h'.1, h.2.1.trans h'.2.1, h.2.2.trans h'.2.2⟩

theorem SameRange.intersects {a a' b b' : JitVReg} (h : SameRange a a') (h' : SameRange b b') :
    Intersects a b ↔ Intersects a' b' := by
  unfold Intersects
  rw [h.1, h.2.1, h'.1, h'.2.1]

end

/-- What holds when the values of `done` have their homes, and the last one starts at `now`. -/
structure Scanned (ranges : MirValueId → JitVReg) (now : Int) (done : List MirValueId)
    (s : LinearScan) : Prop where
  range : ∀ id, SameRange (s.v id) (ranges id)
  fresh : ∀ id, id ∉ done → (s.v id).reg = none ∧ (s.v id).spillSlot = none
  home : ∀ id ∈ done, (∃ r ∈ allocPool, (s.v id).reg = some r ∧
    (s.v id).spillSlot = none) ∨
    ∃ k < s.nSpillSlots, (s.v id).reg = none ∧ (s.v id).spillSlot = some k
  active : ∀ id ∈ s.active, id ∈ done ∧ ∃ r ∈ allocPool, (s.v id).reg = some r
  nodup : s.active.Nodup
  /-- A register that is given to nobody else has expired. -/
  expired : ∀ id r, (s.v id).reg = some r → id ∉ s.active → (s.v id).last < now
  holder : ∀ x ∈ s.active, ∀ y ∈ s.active, (s.v x).reg = (s.v y).reg → x = y
  free_iff : ∀ r ∈ allocPool, s.poolFree r = false ↔
    ∃ id ∈ s.active, (s.v id).reg = some r
  slots : ∀ x y k, (s.v x).spillSlot = some k → (s.v y).spillSlot = some k → x = y
  apart : ∀ x y r, x ≠ y → Intersects (s.v x) (s.v y) →
    (s.v x).reg = some r → (s.v y).reg ≠ some r

theorem Scanned.slot_lt (h : Scanned ranges now done s) (hSlot : (s.v x).spillSlot = some k) :
    x ∈ done ∧ k < s.nSpillSlots := by
  by_cases hDone : x ∈ done
  · refine ⟨hDone, ?_⟩
    rcases h.home x hDone with ⟨_, _, _, hNone⟩ | ⟨k', hLt, _, hSome⟩
    · rw [hNone] at hSlot
      cases hSlot
    · rw [hSome, Option.some.injEq] at hSlot
      exact hSlot ▸ hLt
  · rw [(h.fresh x hDone).2] at hSlot
    cases hSlot

theorem Scanned.mem_of_reg (h : Scanned ranges now done s) (hReg : (s.v x).reg = some r) :
    x ∈ done := by
  by_contra hNew
  rw [(h.fresh x hNew).1] at hReg
  cases hReg

theorem foldl_freeReg (ids : List MirValueId) (poolFree : Reg → Bool) (r : Reg) :
    ids.foldl (freeReg v) poolFree r = false ↔ poolFree r = false ∧
      ∀ id ∈ ids, (v id).reg ≠ some r := by
  induction ids generalizing poolFree with
  | nil => simp
  | cons id rest ih =>
    rw [foldl_cons, ih, forall_mem_cons, ← and_assoc]
    refine and_congr_left fun _ => ?_
    unfold freeReg
    cases hReg : (v id).reg with
    | none => simp
    | some r' =>
      dsimp only
      by_cases hSame : r = r'
      · rw [hSame, update_self]
        simp
      · rw [update_of_ne hSame]
        exact (and_iff_left fun hEq => hSame (Option.some.inj hEq).symm).symm

theorem Scanned.expire (h : Scanned ranges now done s) (hStart : now ≤ start) :
    Scanned ranges start done (s.expire start) where
  range := h.range
  fresh := h.fresh
  home := h.home
  active id hMem := h.active id (mem_of_mem_filter hMem)
  nodup := h.nodup.filter _
  expired id r hReg hNot := by
    by_cases hActive : id ∈ s.active
    · by_contra hLater
      exact hNot (mem_filter.mpr ⟨hActive, decide_eq_true hLater⟩)
    · exact lt_of_lt_of_le (h.expired id r hReg hActive) hStart
  holder x hx y hy := h.holder x (mem_of_mem_filter hx) y (mem_of_mem_filter hy)
  free_iff r hr := by
    refine (foldl_freeReg _ _ r).trans ?_
    rw [h.free_iff r hr]
    constructor
    · rintro ⟨⟨id, hActive, hReg⟩, hOthers⟩
      refine ⟨id, mem_filter.mpr ⟨hActive, decide_eq_true fun hEnded => ?_⟩, hReg⟩
      exact hOthers id (mem_filter.mpr ⟨hActive, decide_eq_true hEnded⟩) hReg
    · rintro ⟨id, hMem, hReg⟩
      obtain ⟨hActive, hLater⟩ := mem_filter.mp hMem
      refine ⟨⟨id, hActive, hReg⟩, fun other hOther hSame => ?_⟩
      obtain ⟨hOtherActive, hEnded⟩ := mem_filter.mp hOther
      have hEq := h.holder other hOtherActive id hActive (hSame.trans hReg.symm)
      rw [hEq] at hEnded
      exact of_decide_eq_true hLater (of_decide_eq_true hEnded)
  slots := h.slots
  apart := h.apart

theorem expire_last (hMem : id ∈ (s.expire start).active) : start ≤ (s.v id).last :=
  not_lt.mp (of_decide_eq_true (mem_filter.mp hMem).2)

/-- The value starts where the expired intervals are gone, and has no home so far. -/
structure Starts (ranges : MirValueId → JitVReg) (done : List MirValueId) (s : LinearScan)
    (vid : MirValueId) : Prop where
  scanned : Scanned ranges (s.v vid).first done s
  later : ∀ id ∈ s.active, (s.v vid).first ≤ (s.v id).last
  new : vid ∉ done

theorem Starts.not_active (h : Starts ranges done s vid) : vid ∉ s.active := fun hMem =>
  h.new (h.scanned.active vid hMem).1

theorem Starts.active_of_intersects (h : Starts ranges done s vid)
    (hBoth : Intersects (s.v x) (s.v vid)) (hReg : (s.v x).reg = some r) : x ∈ s.active := by
  by_contra hNot
  exact absurd hBoth.2 (not_le_of_gt (h.scanned.expired x r hReg hNot))

theorem spillSlot_setReg (v : MirValueId → JitVReg) (id x : MirValueId) (reg : Option Reg) :
    (setReg v id reg x).spillSlot = (v x).spillSlot := by
  by_cases hSame : x = id
  · rw [hSame, setReg_self]
  · rw [setReg_of_ne hSame]

theorem reg_setSlot (v : MirValueId → JitVReg) (id x : MirValueId) (slot : Nat) :
    (setSlot v id slot x).reg = (v x).reg := by
  by_cases hSame : x = id
  · rw [hSame, setSlot_self]
  · rw [setSlot_of_ne hSame]

theorem Starts.chosen (h : Starts ranges done s vid) (hPool : r ∈ allocPool)
    (hFree : s.poolFree r = true) :
    Scanned ranges (s.v vid).first (vid :: done)
      { s with v := setReg s.v vid (some r)
               poolFree := Function.update s.poolFree r false
               active := s.active.orderedInsert (endsNoEarlier s.v) vid } := by
  have hUnheld : ∀ y ∈ s.active, (s.v y).reg ≠ some r := by
    intro y hy hReg
    have hHeld := (h.scanned.free_iff r hPool).mpr ⟨y, hy, hReg⟩
    exact absurd (hFree.symm.trans hHeld) Bool.true_eq_false_eq_False
  have hHere : (setReg s.v vid (some r) vid).reg = some r := by rw [setReg_self]
  have hOther : ∀ {x}, x ≠ vid → (setReg s.v vid (some r) x).reg = (s.v x).reg :=
    fun hNe => by
    rw [setReg_of_ne hNe]
  have hActiveNe : ∀ {x}, x ∈ s.active → x ≠ vid := fun hx hSame =>
    h.not_active (hSame ▸ hx)
  have hMem : ∀ {x}, x ∈ s.active.orderedInsert (endsNoEarlier s.v) vid ↔
      x = vid ∨ x ∈ s.active :=
    mem_orderedInsert _
  have hBoth : ∀ {x y}, Intersects (setReg s.v vid (some r) x) (setReg s.v vid (some r) y) ↔
      Intersects (s.v x) (s.v y) :=
    (sameRange_setReg ..).intersects (sameRange_setReg ..)
  constructor
  · exact fun x => (sameRange_setReg ..).trans (h.scanned.range x)
  · intro x hx
    rw [mem_cons, not_or] at hx
    rw [hOther hx.1, spillSlot_setReg]
    exact h.scanned.fresh x hx.2
  · intro x hx
    rw [spillSlot_setReg]
    by_cases hSame : x = vid
    · subst hSame
      exact .inl ⟨r, hPool, hHere, (h.scanned.fresh x h.new).2⟩
    · rw [hOther hSame]
      exact h.scanned.home x ((mem_cons.mp hx).resolve_left hSame)
  · intro x hx
    rcases hMem.mp hx with rfl | hOld
    · exact ⟨mem_cons_self, r, hPool, hHere⟩
    · obtain ⟨hDone, hHeld⟩ := h.scanned.active x hOld
      rw [hOther (hActiveNe hOld)]
      exact ⟨mem_cons_of_mem vid hDone, hHeld⟩
  · rw [(perm_orderedInsert _ _ _).nodup_iff]
    exact nodup_cons.mpr ⟨h.not_active, h.scanned.nodup⟩
  · intro x r' hReg hNot
    rw [hMem, not_or] at hNot
    dsimp only at hReg ⊢
    rw [hOther hNot.1] at hReg
    rw [setReg_of_ne hNot.1]
    exact h.scanned.expired x r' hReg hNot.2
  · intro x hx y hy hSame
    rcases hMem.mp hx with rfl | hxOld
    · rcases hMem.mp hy with rfl | hyOld
      · rfl
      · rw [hHere, hOther (hActiveNe hyOld)] at hSame
        exact absurd hSame.symm (hUnheld y hyOld)
    · rcases hMem.mp hy with rfl | hyOld
      · rw [hHere, hOther (hActiveNe hxOld)] at hSame
        exact absurd hSame (hUnheld x hxOld)
      · rw [hOther (hActiveNe hxOld), hOther (hActiveNe hyOld)] at hSame
        exact h.scanned.holder x hxOld y hyOld hSame
  · intro r' hr'
    dsimp only
    by_cases hSame : r' = r
    · subst hSame
      rw [update_self]
      exact iff_of_true rfl ⟨vid, hMem.mpr (.inl rfl), hHere⟩
    · rw [update_of_ne hSame, h.scanned.free_iff r' hr']
      constructor
      · rintro ⟨x, hx, hReg⟩
        exact ⟨x, hMem.mpr (.inr hx), (hOther (hActiveNe hx)).trans hReg⟩
      · rintro ⟨x, hx, hReg⟩
        rcases hMem.mp hx with rfl | hOld
        · rw [hHere, Option.some.injEq] at hReg
          exact absurd hReg.symm hSame
        · exact ⟨x, hOld, (hOther (hActiveNe hOld)).symm.trans hReg⟩
  · intro x y k
    rw [spillSlot_setReg, spillSlot_setReg]
    exact h.scanned.slots x y k
  · intro x y r' hNe hTogether hx hy
    rw [hBoth] at hTogether
    by_cases hxNew : x = vid
    · subst hxNew
      rw [hHere] at hx
      rw [hOther hNe.symm, ← hx] at hy
      exact hUnheld y (h.active_of_intersects hTogether.symm hy) hy
    · rw [hOther hxNew] at hx
      by_cases hyNew : y = vid
      · subst hyNew
        rw [hHere] at hy
        rw [← hy] at hx
        exact hUnheld x (h.active_of_intersects hTogether hx) hx
      · rw [hOther hyNew] at hy
        exact h.scanned.apart x y r' hNe hTogether hx hy

theorem Starts.spilled (h : Starts ranges done s vid) :
    Scanned ranges (s.v vid).first (vid :: done)
      { s with v := setSlot s.v vid s.nSpillSlots, nSpillSlots := s.nSpillSlots + 1 } := by
  have hFresh := h.scanned.fresh vid h.new
  have hSlot : ∀ {x}, x ≠ vid →
      (setSlot s.v vid s.nSpillSlots x).spillSlot = (s.v x).spillSlot := fun hNe => by
    rw [setSlot_of_ne hNe]
  have hHere : (setSlot s.v vid s.nSpillSlots vid).spillSlot = some s.nSpillSlots := by
    rw [setSlot_self]
  constructor
  · exact fun x => (sameRange_setSlot ..).trans (h.scanned.range x)
  · intro x hx
    rw [mem_cons, not_or] at hx
    rw [reg_setSlot, hSlot hx.1]
    exact h.scanned.fresh x hx.2
  · intro x hx
    rw [reg_setSlot]
    by_cases hSame : x = vid
    · subst hSame
      exact .inr ⟨s.nSpillSlots, Nat.lt_add_one _, hFresh.1, hHere⟩
    · rw [hSlot hSame]
      refine (h.scanned.home x ((mem_cons.mp hx).resolve_left hSame)).imp_right ?_
      rintro ⟨k, hLt, hHome⟩
      exact ⟨k, Nat.lt_succ_of_lt hLt, hHome⟩
  · intro x hx
    rw [reg_setSlot]
    exact ⟨mem_cons_of_mem vid (h.scanned.active x hx).1, (h.scanned.active x hx).2⟩
  · exact h.scanned.nodup
  · intro x r hReg hNot
    rw [reg_setSlot] at hReg
    rw [(sameRange_setSlot ..).2.1]
    exact h.scanned.expired x r hReg hNot
  · intro x hx y hy
    rw [reg_setSlot, reg_setSlot]
    exact h.scanned.holder x hx y hy
  · intro r hr
    simp only [reg_setSlot]
    exact h.scanned.free_iff r hr
  · intro x y k hx hy
    by_cases hxNew : x = vid
    · by_cases hyNew : y = vid
      · exact hxNew.trans hyNew.symm
      · rw [hxNew, hHere, Option.some.injEq] at hx
        rw [hSlot hyNew, ← hx] at hy
        exact absurd (h.scanned.slot_lt hy).2 (lt_irrefl _)
    · rw [hSlot hxNew] at hx
      by_cases hyNew : y = vid
      · rw [hyNew, hHere, Option.some.injEq] at hy
        rw [← hy] at hx
        exact absurd (h.scanned.slot_lt hx).2 (lt_irrefl _)
      · rw [hSlot hyNew] at hy
        exact h.scanned.slots x y k hx hy
  · intro x y r hNe hTogether
    rw [reg_setSlot, reg_setSlot]
    rw [(sameRange_setSlot ..).intersects (sameRange_setSlot ..)] at hTogether
    exact h.scanned.apart x y r hNe hTogether

/-- The entries after a value has taken the register of another one. -/
def steal (s : LinearScan) (vid spillVid : MirValueId) : MirValueId → JitVReg :=
  setSlot (setReg (setReg s.v vid (s.v spillVid).reg) spillVid none) spillVid s.nSpillSlots

theorem sameRange_steal (s : LinearScan) (vid spillVid x : MirValueId) :
    SameRange (steal s vid spillVid x) (s.v x) :=
  (sameRange_setSlot ..).trans ((sameRange_setReg ..).trans (sameRange_setReg ..))

theorem reg_steal (s : LinearScan) (vid spillVid x : MirValueId) :
    (steal s vid spillVid x).reg =
      if x = spillVid then none else if x = vid then (s.v spillVid).reg else (s.v x).reg := by
  unfold steal
  rw [reg_setSlot]
  by_cases hSpilled : x = spillVid
  · rw [hSpilled, setReg_self, if_pos rfl]
  · rw [setReg_of_ne hSpilled, if_neg hSpilled]
    by_cases hHere : x = vid
    · rw [hHere, setReg_self, if_pos rfl]
    · rw [setReg_of_ne hHere, if_neg hHere]

theorem spillSlot_steal (s : LinearScan) (vid spillVid x : MirValueId) :
    (steal s vid spillVid x).spillSlot =
      if x = spillVid then some s.nSpillSlots else (s.v x).spillSlot := by
  unfold steal
  by_cases hSpilled : x = spillVid
  · rw [hSpilled, setSlot_self, if_pos rfl]
  · rw [setSlot_of_ne hSpilled, if_neg hSpilled, spillSlot_setReg, spillSlot_setReg]

theorem Starts.stolen (h : Starts ranges done s vid) {spillVid : MirValueId}
    {rest : List MirValueId}
    (hActive : s.active = spillVid :: rest) (hNone : ∀ r ∈ allocPool, s.poolFree r = false) :
    Scanned ranges (s.v vid).first (vid :: done)
      { s with v := steal s vid spillVid
               nSpillSlots := s.nSpillSlots + 1
               active := rest.orderedInsert (endsNoEarlier s.v) vid } := by
  have hSpill : spillVid ∈ s.active := hActive ▸ mem_cons_self
  have hRest : ∀ {x}, x ∈ rest → x ∈ s.active := fun hx =>
    hActive ▸ mem_cons_of_mem spillVid hx
  have hSplit := h.scanned.nodup
  rw [hActive, nodup_cons] at hSplit
  have hRestNe : ∀ {x}, x ∈ rest → x ≠ spillVid := fun hx hSame => hSplit.1 (hSame ▸ hx)
  have hActiveNe : ∀ {x}, x ∈ s.active → x ≠ vid := fun hx hSame =>
    h.not_active (hSame ▸ hx)
  obtain ⟨hSpillDone, r, hPool, hTaken⟩ := h.scanned.active spillVid hSpill
  have hHere : (steal s vid spillVid vid).reg = some r := by
    rw [reg_steal, if_neg (hActiveNe hSpill).symm, if_pos rfl, hTaken]
  have hOther : ∀ {x}, x ≠ spillVid → x ≠ vid →
      (steal s vid spillVid x).reg = (s.v x).reg :=
    fun hSpilled hNe => by rw [reg_steal, if_neg hSpilled, if_neg hNe]
  have hGone : (steal s vid spillVid spillVid).reg = none := by rw [reg_steal, if_pos rfl]
  have hSlot : ∀ {x}, x ≠ spillVid → (steal s vid spillVid x).spillSlot = (s.v x).spillSlot :=
    fun hSpilled => by rw [spillSlot_steal, if_neg hSpilled]
  have hNewSlot : (steal s vid spillVid spillVid).spillSlot = some s.nSpillSlots := by
    rw [spillSlot_steal, if_pos rfl]
  have hKept : ∀ {x}, x ∈ rest → (steal s vid spillVid x).reg = (s.v x).reg := fun hx =>
    hOther (hRestNe hx) (hActiveNe (hRest hx))
  -- the register has no holder beside the spilled value
  have hSole : ∀ {x}, x ∈ s.active → (s.v x).reg = some r → x = spillVid := fun hx hReg =>
    h.scanned.holder _ hx spillVid hSpill (hReg.trans hTaken.symm)
  have hMem : ∀ {x}, x ∈ rest.orderedInsert (endsNoEarlier s.v) vid ↔
      x = vid ∨ x ∈ rest :=
    mem_orderedInsert _
  constructor
  · exact fun x => (sameRange_steal ..).trans (h.scanned.range x)
  · intro x hx
    rw [mem_cons, not_or] at hx
    have hNe : x ≠ spillVid := fun hSame => hx.2 (hSame ▸ hSpillDone)
    rw [hOther hNe hx.1, hSlot hNe]
    exact h.scanned.fresh x hx.2
  · intro x hx
    by_cases hSpilled : x = spillVid
    · subst hSpilled
      exact .inr ⟨s.nSpillSlots, Nat.lt_add_one _, hGone, hNewSlot⟩
    · rw [hSlot hSpilled]
      by_cases hSame : x = vid
      · subst hSame
        exact .inl ⟨r, hPool, hHere, (h.scanned.fresh x h.new).2⟩
      · rw [hOther hSpilled hSame]
        refine (h.scanned.home x ((mem_cons.mp hx).resolve_left hSame)).imp_right ?_
        rintro ⟨k, hLt, hHome⟩
        exact ⟨k, Nat.lt_succ_of_lt hLt, hHome⟩
  · intro x hx
    rcases hMem.mp hx with rfl | hOld
    · exact ⟨mem_cons_self, r, hPool, hHere⟩
    · obtain ⟨hDone, hHeld⟩ := h.scanned.active x (hRest hOld)
      rw [hKept hOld]
      exact ⟨mem_cons_of_mem vid hDone, hHeld⟩
  · rw [(perm_orderedInsert _ _ _).nodup_iff]
    exact nodup_cons.mpr ⟨fun hMem => h.not_active (hRest hMem), hSplit.2⟩
  · intro x r' hReg hNot
    rw [hMem, not_or] at hNot
    by_cases hSpilled : x = spillVid
    · rw [hSpilled, hGone] at hReg
      cases hReg
    · rw [hOther hSpilled hNot.1] at hReg
      rw [(sameRange_steal ..).2.1]
      refine h.scanned.expired x r' hReg fun hx => ?_
      rw [hActive] at hx
      exact hNot.2 ((mem_cons.mp hx).resolve_left hSpilled)
  · intro x hx y hy hSame
    rcases hMem.mp hx with rfl | hxOld
    · rcases hMem.mp hy with rfl | hyOld
      · rfl
      · rw [hHere, hKept hyOld] at hSame
        exact absurd (hSole (hRest hyOld) hSame.symm) (hRestNe hyOld)
    · rcases hMem.mp hy with rfl | hyOld
      · rw [hHere, hKept hxOld] at hSame
        exact absurd (hSole (hRest hxOld) hSame) (hRestNe hxOld)
      · rw [hKept hxOld, hKept hyOld] at hSame
        exact h.scanned.holder x (hRest hxOld) y (hRest hyOld) hSame
  · intro r' hr'
    refine iff_of_true (hNone r' hr') ?_
    obtain ⟨x, hx, hReg⟩ := (h.scanned.free_iff r' hr').mp (hNone r' hr')
    rw [hActive] at hx
    rcases mem_cons.mp hx with rfl | hOld
    · exact ⟨vid, hMem.mpr (.inl rfl), hHere.trans (hTaken.symm.trans hReg)⟩
    · exact ⟨x, hMem.mpr (.inr hOld), (hKept hOld).trans hReg⟩
  · intro x y k hx hy
    by_cases hxSpilled : x = spillVid
    · by_cases hySpilled : y = spillVid
      · exact hxSpilled.trans hySpilled.symm
      · rw [hxSpilled, hNewSlot, Option.some.injEq] at hx
        rw [hSlot hySpilled, ← hx] at hy
        exact absurd (h.scanned.slot_lt hy).2 (lt_irrefl _)
    · rw [hSlot hxSpilled] at hx
      by_cases hySpilled : y = spillVid
      · rw [hySpilled, hNewSlot, Option.some.injEq] at hy
        rw [← hy] at hx
        exact absurd (h.scanned.slot_lt hx).2 (lt_irrefl _)
      · rw [hSlot hySpilled] at hy
        exact h.scanned.slots x y k hx hy
  · have hTaker : ∀ {y}, y ≠ vid → Intersects (s.v y) (s.v vid) →
        (steal s vid spillVid y).reg ≠ some r := by
      intro y hNe hTogether hReg
      by_cases hSpilled : y = spillVid
      · rw [hSpilled, hGone] at hReg
        cases hReg
      · rw [hOther hSpilled hNe] at hReg
        exact hSpilled (hSole (h.active_of_intersects hTogether hReg) hReg)
    intro x y r' hNe hTogether hx hy
    rw [(sameRange_steal ..).intersects (sameRange_steal ..)] at hTogether
    by_cases hxNew : x = vid
    · subst hxNew
      rw [hHere] at hx
      exact hTaker hNe.symm hTogether.symm (hy.trans hx.symm)
    · by_cases hyNew : y = vid
      · subst hyNew
        rw [hHere] at hy
        exact hTaker hNe hTogether (hx.trans hy.symm)
      · have hxKept : x ≠ spillVid := by
          rintro rfl
          rw [hGone] at hx
          cases hx
        have hyKept : y ≠ spillVid := by
          rintro rfl
          rw [hGone] at hy
          cases hy
        rw [hOther hxKept hxNew] at hx
        rw [hOther hyKept hyNew] at hy
        exact h.scanned.apart x y r' hNe hTogether hx hy

/-- A value always finds a home. -/
theorem Starts.place_eq (h : Starts ranges done s vid) :
    ∃ s', s.place vid = some s' ∧ Scanned ranges (s.v vid).first (vid :: done) s' := by
  unfold place
  cases hFind : allocPool.find? s.poolFree with
  | some chosen =>
    exact ⟨_, rfl, h.chosen (mem_of_find?_eq_some hFind) (find?_some hFind)⟩
  | none =>
    have hNone : ∀ r ∈ allocPool, s.poolFree r = false := fun r hr =>
      Bool.eq_false_iff.mpr (List.find?_eq_none.mp hFind r hr)
    cases hActive : s.active with
    | nil =>
      obtain ⟨x, hx, _⟩ := (h.scanned.free_iff .rcx (by decide)).mp (hNone .rcx (by decide))
      rw [hActive] at hx
      cases hx
    | cons spillVid rest =>
      dsimp only
      by_cases hLater : (s.v spillVid).last > (s.v vid).last
      · rw [if_pos hLater]
        exact ⟨_, rfl, h.stolen hActive hNone⟩
      · rw [if_neg hLater]
        refine ⟨_, rfl, ?_⟩
        rw [← hActive]
        exact h.spilled

theorem Scanned.step_eq (h : Scanned ranges now done s) (hStart : now ≤ (ranges vid).first)
    (hNew : vid ∉ done) :
    ∃ s', s.step vid = some s' ∧ Scanned ranges (ranges vid).first (vid :: done) s' := by
  have hFirst := (h.range vid).1
  have hLater : ∀ x ∈ (s.expire (s.v vid).first).active, (s.v vid).first ≤ (s.v x).last :=
    fun _ hMem => expire_last hMem
  have hStarts : Starts ranges done (s.expire (s.v vid).first) vid :=
    { scanned := h.expire (hFirst ▸ hStart)
      later := hLater
      new := hNew }
  obtain ⟨s', hPlace, hScanned⟩ := hStarts.place_eq
  exact ⟨s', hPlace, hFirst ▸ hScanned⟩

theorem Scanned.run_eq {order : List MirValueId} (h : Scanned ranges now done s)
    (hOrder : order.Pairwise fun x y => (ranges x).first ≤ (ranges y).first)
    (hStart : ∀ x ∈ order, now ≤ (ranges x).first) (hNodup : order.Nodup)
    (hNew : ∀ x ∈ order, x ∉ done) :
    ∃ s' now', order.foldlM step s = some s' ∧
      Scanned ranges now' (order.reverse ++ done) s' := by
  induction order generalizing now done s with
  | nil => exact ⟨s, now, rfl, h⟩
  | cons vid rest ih =>
    obtain ⟨middle, hStep, hScanned⟩ := h.step_eq (hStart vid mem_cons_self)
      (hNew vid mem_cons_self)
    rw [pairwise_cons] at hOrder
    rw [nodup_cons] at hNodup
    have hRestNew : ∀ x ∈ rest, x ∉ vid :: done := by
      intro x hx hMem
      rcases mem_cons.mp hMem with rfl | hOld
      · exact hNodup.1 hx
      · exact hNew x (mem_cons_of_mem vid hx) hOld
    obtain ⟨s', now', hRest, hEnd⟩ := ih hScanned hOrder.2 hOrder.1 hNodup.2 hRestNew
    refine ⟨s', now', ?_, ?_⟩
    · rw [foldlM_cons, hStep]
      exact hRest
    · rw [reverse_cons, append_assoc]
      exact hEnd

theorem scanned_start {ranges : MirValueId → JitVReg}
    (hHomeless : ∀ id, Homeless (ranges id)) (now : Int) :
    Scanned ranges now [] { v := ranges } where
  range id := ⟨rfl, rfl, rfl⟩
  fresh id _ := hHomeless id
  home id h := nomatch h
  active id h := nomatch h
  nodup := nodup_nil
  expired id r hReg _ := by
    rw [(hHomeless id).1] at hReg
    cases hReg
  holder x h := nomatch h
  free_iff r _ := iff_of_false Bool.noConfusion fun ⟨_, hMem, _⟩ => nomatch hMem
  slots x y k hx _ := by
    rw [(hHomeless x).2] at hx
    cases hx
  apart x y r _ _ hx _ := by
    rw [(hHomeless x).1] at hx
    cases hx

end LinearScan

/-- The scan never reads an empty list, and gives each used value its home. -/
theorem linearScan_eq (func : MirFunction) : ∃ s done now, linearScan func = some s ∧
    LinearScan.Scanned (liveRanges func) now done s ∧
    ∀ id, id ∈ done ↔ (liveRanges func id).used = true := by
  have hOrder := pairwise_scanOrder (liveRanges func) (jitValueCount func)
  have hStart : ∃ now, ∀ x ∈ scanOrder (liveRanges func) (jitValueCount func),
      now ≤ (liveRanges func x).first := by
    cases hList : scanOrder (liveRanges func) (jitValueCount func) with
    | nil => exact ⟨0, nofun⟩
    | cons x rest =>
      rw [hList, pairwise_cons] at hOrder
      exact ⟨(liveRanges func x).first, forall_mem_cons.mpr ⟨le_refl _, hOrder.1⟩⟩
  obtain ⟨now, hStart⟩ := hStart
  obtain ⟨s, now', hRun, hScanned⟩ :=
    (LinearScan.scanned_start (homeless_liveRanges func) now).run_eq
    hOrder hStart (nodup_scanOrder _ _) fun _ _ => not_mem_nil
  refine ⟨s, _, now', hRun, hScanned, fun id => ?_⟩
  rw [append_nil, mem_reverse, mem_scanOrder]
  exact and_iff_right_of_imp fun hUsed => (used_liveRanges.mp hUsed).1.2

/-- An allocation that is `ok` comes from the scan. -/
theorem jitRegalloc_scanned {a : JitRegAlloc} (h : jitRegalloc func = some a) :
    ∃ s done now, a = { v := s.v, n := jitValueCount func, nSpillSlots := s.nSpillSlots } ∧
      s.nSpillSlots ≤ jitMaxSpillSlots ∧ LinearScan.Scanned (liveRanges func) now done s ∧
      ∀ id, id ∈ done ↔ (liveRanges func id).used = true := by
  obtain ⟨s, done, now, hScan, hScanned, hDone⟩ := linearScan_eq func
  unfold jitRegalloc at h
  rw [hScan, Option.bind_some] at h
  by_cases hSlots : s.nSpillSlots > jitMaxSpillSlots
  · rw [if_pos hSlots] at h
    cases h
  · rw [if_neg hSlots, Option.some.injEq] at h
    exact ⟨s, done, now, h.symm, not_lt.mp hSlots, hScanned, hDone⟩

/-- What an allocation promises about its homes. -/
structure HomesApart (func : MirFunction) (a : JitRegAlloc) : Prop where
  used_iff : ∀ id, (a.v id).used = true ↔ IsValue (jitValueCount func) id ∧ Appears func id
  home : ∀ id, (a.v id).used = true → ∃! home, HasHome (a.v id) home
  apart : ∀ x y, x ≠ y → (a.v x).used = true → (a.v y).used = true →
    Intersects (a.v x) (a.v y) →
    ∀ home, HasHome (a.v x) home → ¬HasHome (a.v y) home
  slots : ∀ x y k, (a.v x).spillSlot = some k → (a.v y).spillSlot = some k → x = y
  slot_lt : ∀ x k, (a.v x).spillSlot = some k → k < a.nSpillSlots
  room : a.nSpillSlots ≤ jitMaxSpillSlots
  params : ∀ x ∈ func.params.map (·.valueId), ∀ y ∈ func.params.map (·.valueId),
    IsValue (jitValueCount func) x → IsValue (jitValueCount func) y → x ≠ y →
    ∃ home home', HasHome (a.v x) home ∧ HasHome (a.v y) home' ∧ home ≠ home'

/-- Values whose ranges intersect have different homes. -/
theorem jit_regalloc_homes_apart {a : JitRegAlloc} (h : jitRegalloc func = some a) :
    HomesApart func a := by
  obtain ⟨s, done, now, rfl, hRoom, hScanned, hDone⟩ := jitRegalloc_scanned h
  have hUsed : ∀ id, (s.v id).used = true ↔ id ∈ done := fun id => by
    rw [hDone id, (hScanned.range id).2.2]
  have hHome : ∀ id, (s.v id).used = true → ∃! home, HasHome (s.v id) home := by
    intro id hId
    rcases hScanned.home id ((hUsed id).mp hId) with ⟨r, hPool, hReg, hSlot⟩ |
      ⟨k, _, hReg, hSlot⟩
    · refine ⟨.reg r, ⟨hReg, hPool⟩, fun home hHome => ?_⟩
      cases home with
      | reg r' =>
        rw [HasHome, hReg, Option.some.injEq] at hHome
        rw [hHome.1]
      | slot k =>
        rw [HasHome, hSlot] at hHome
        cases hHome
    · refine ⟨.slot k, hSlot, fun home hHome => ?_⟩
      cases home with
      | reg r =>
        rw [HasHome, hReg] at hHome
        cases hHome.1
      | slot k' =>
        rw [HasHome, hSlot, Option.some.injEq] at hHome
        rw [hHome]
  have hApart : ∀ x y, x ≠ y → Intersects (s.v x) (s.v y) →
      ∀ home, HasHome (s.v x) home → ¬HasHome (s.v y) home := by
    intro x y hNe hTogether home hx hy
    cases home with
    | reg r => exact hScanned.apart x y r hNe hTogether hx.1 hy.1
    | slot k => exact hNe (hScanned.slots x y k hx hy)
  constructor
  · intro id
    rw [(hScanned.range id).2.2]
    exact used_liveRanges
  · exact hHome
  · exact fun x y hNe _ _ => hApart x y hNe
  · exact hScanned.slots
  · exact fun x k hSlot => (hScanned.slot_lt hSlot).2
  · exact hRoom
  · intro x hx y hy hxValue hyValue hNe
    have hLive : ∀ p ∈ func.params.map (·.valueId), IsValue (jitValueCount func) p →
        LiveIn (s.v p) ∧ (s.v p).used = true := by
      intro p hp hValue
      have hRange := hScanned.range p
      have hLive := liveIn_of_mem_params hp hValue
      refine ⟨⟨hRange.1.trans hLive.1, hRange.2.1 ▸ hLive.2⟩, ?_⟩
      rw [hRange.2.2]
      exact used_liveRanges.mpr ⟨hValue, .inl hp⟩
    obtain ⟨hxLive, hxUsed⟩ := hLive x hx hxValue
    obtain ⟨hyLive, hyUsed⟩ := hLive y hy hyValue
    have hTogether : Intersects (s.v x) (s.v y) := by
      unfold Intersects
      have hxLast := hxLive.2
      have hyLast := hyLive.2
      rw [hxLive.1, hyLive.1]
      omega
    obtain ⟨home, hxHome, _⟩ := hHome x hxUsed
    obtain ⟨home', hyHome, _⟩ := hHome y hyUsed
    refine ⟨home, home', hxHome, hyHome, fun hSame => ?_⟩
    exact hApart x y hNe hTogether home hxHome (hSame ▸ hyHome)

/-- More constants than registers, added up in pairs, and a parameter that is read at the end. -/
def crowded : MirFunction where
  name := "crowded"
  nextValueId := 31
  params := [{ name := "x", type := none, valueId := 1 },
    { name := "y", type := none, valueId := 2 }]
  blocks := [
    { insts := (List.range 14).map (fun k => { op := .constInt 0, result := k + 3 }) ++
        (List.range 7).map (fun k =>
          { op := .binary .add (2 * k + 3) (2 * k + 4), result := k + 17 }) ++
        [{ op := .ret 1 }] }]

theorem crowded_homes_apart : ∃ a, jitRegalloc crowded = some a ∧ HomesApart crowded a := by
  have hOk : (jitRegalloc crowded).isSome = true := by decide +kernel
  obtain ⟨a, ha⟩ := Option.isSome_iff_exists.mp hOk
  exact ⟨a, ha, jit_regalloc_homes_apart ha⟩

end Casprix.Jit
