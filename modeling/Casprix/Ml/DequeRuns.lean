import Casprix.Ml.DequeInvariant

/-! Each step of each thread keeps the invariant of the deque, so that a run never
loses a task and never returns one twice. -/
namespace Casprix.Ml

open Function List

variable {α : Type*} {memory : Nat → Nat → α}

variable {task : α} {b : Int} {r k : Nat} {s s' : DequeState α}

namespace DequeState

variable {s s' : DequeState α}

/-- What a step must leave alone for the sake of the thieves. As long as `top` does
not move, the task at `top` stays where it is, in the old rings as well. -/
structure Undisturbed (s s' : DequeState α) : Prop where
  top_le : s.top ≤ s'.top
  rings : s.ringCount ≤ s'.ringCount
  limit : s'.top = s.top → s.top < s.limit → s.top < s'.limit
  current : s'.top = s.top → s.top < s.limit → s'.current.cell s.top = s.current.cell s.top
  ring : s'.top = s.top → s.top < s.limit →
    ∀ r < s.ringCount, (s'.ring r).cell s.top = (s.ring r).cell s.top

theorem ThiefGood.undisturbed {point : ThiefPoint α} (h : s.ThiefGood point)
    (hKeep : Undisturbed s s') : s'.ThiefGood point := by
  have hTop := hKeep.top_le
  -- A thief whose index is still at the top read it when `top` was the same.
  have hStill : ∀ {t : Int}, t ≤ s.top → t = s'.top → t = s.top ∧ s'.top = s.top := by
    intro t hLe hSame
    omega
  cases point with
  | idle => trivial
  | loadBottom t => exact h.trans hTop
  | loadArray t =>
    obtain ⟨hLe, hLimit⟩ := h
    refine ⟨hLe.trans hTop, fun hSame => ?_⟩
    obtain ⟨rfl, hUnmoved⟩ := hStill hLe hSame
    exact hKeep.limit hUnmoved (hLimit rfl)
  | read t r =>
    obtain ⟨hLe, hRing, hCell⟩ := h
    refine ⟨hLe.trans hTop, hRing.trans_le hKeep.rings, fun hSame => ?_⟩
    obtain ⟨rfl, hUnmoved⟩ := hStill hLe hSame
    obtain ⟨hLimit, hEntry⟩ := hCell rfl
    refine ⟨hKeep.limit hUnmoved hLimit, ?_⟩
    rw [hKeep.ring hUnmoved hLimit r hRing, hEntry, hKeep.current hUnmoved hLimit]
  | exchange t task =>
    obtain ⟨hLe, hCell⟩ := h
    refine ⟨hLe.trans hTop, fun hSame => ?_⟩
    obtain ⟨rfl, hUnmoved⟩ := hStill hLe hSame
    obtain ⟨hLimit, hEntry⟩ := hCell rfl
    exact ⟨hKeep.limit hUnmoved hLimit, hEntry.trans (hKeep.current hUnmoved hLimit).symm⟩

namespace Good

section

variable (h : Good s)
include h

/-- The owner changes `bottom` and its local variables, and may end its call. -/
theorem settle {bottom : Int} {point : OwnerPoint α} {pushed returned : List α}
    (hOffered : s.top < s.limit → s.top < bottom + point.offered)
    (hTop : s.top ≤ bottom + point.offered)
    (hFits : bottom + point.claimed - s.top ≤ s.current.cap)
    (hOwner : ({ s with bottom, owner := point, pushed, returned } : DequeState α).OwnerGood point)
    (hLedger : Library.Ledger pushed (returned ++ point.held) (s.current.between s.top (bottom +
      point.claimed))) :
    Good { s with bottom, owner := point, pushed, returned } := by
  have hKeep : Undisturbed s { s with bottom, owner := point, pushed, returned } :=
    { top_le := le_rfl
      rings := le_rfl
      limit := fun _ => hOffered
      current := fun _ _ => rfl
      ring := fun _ _ _ _ => rfl }
  exact { h with
    top_le := hTop
    fits := hFits
    owner := hOwner
    thief := fun k => (h.thief k).undisturbed hKeep
    ledger := hLedger }

section

variable {old point : OwnerPoint α} (hPoint : s.owner = old)
  (hClaimed : point.claimed = old.claimed) (hHeld : point.held = old.held)
include hPoint hClaimed hHeld

theorem walk (hOffered : s.top < s.bottom + old.offered → s.top < s.bottom + point.offered)
    (hTop : s.top ≤ s.bottom + point.offered) (hOwner : s.OwnerGood point) :
    Good { s with owner := point } := by
  subst hPoint
  refine h.settle hOffered hTop ?_ (by cases point with | _ => exact hOwner) ?_
  · rw [hClaimed]
    exact h.fits
  · rw [hClaimed, hHeld]
    exact h.ledger

/-- The owner changes only its local variables and offers as much as before. -/
theorem move (hOffered : point.offered = old.offered) (hOwner : s.OwnerGood point) :
    Good { s with owner := point } := by
  apply h.walk hPoint hClaimed hHeld _ _ hOwner
  · rw [hOffered]
    exact id
  · rw [hOffered, ← hPoint]
    exact h.top_le

end

theorem atPoint {point : OwnerPoint α} (hPoint : s.owner = point) :
    s.OwnerGood point ∧ s.top ≤ s.bottom + point.offered ∧
      s.bottom + point.claimed - s.top ≤ s.current.cap ∧
      Library.Ledger s.pushed (s.returned ++ point.held)
        (s.current.between s.top (s.bottom + point.claimed)) := by
  subst hPoint
  exact ⟨h.owner, h.top_le, h.fits, h.ledger⟩

/-- A push changes a ring and leaves the tasks that are stored where they are. -/
theorem changeRing {old point : OwnerPoint α} {array ringCount : Nat} {ring : Nat → DequeRing α}
    (hPoint : s.owner = old) (hOld : old.offered = 0 ∧ old.claimed = 0 ∧ old.held = [])
    (hNew : point.offered = 0 ∧ point.claimed = 0 ∧ point.held = [])
    (hRings : s.ringCount ≤ ringCount) (hArray : array < ringCount)
    (hFits : s.bottom - s.top ≤ (ring array).cap)
    (hSame : ∀ i, s.top ≤ i → i < s.bottom → (ring array).cell i = s.current.cell i)
    (hRing : s.top < s.bottom → ∀ n < s.ringCount, (ring n).cell s.top = (s.ring n).cell s.top)
    (hOwner : ({ s with array, ringCount, ring, owner := point } : DequeState α).OwnerGood point) :
    Good { s with array, ringCount, ring, owner := point } := by
  obtain ⟨hOffered, hClaimed, hHeld⟩ := hOld
  obtain ⟨hOffered', hClaimed', hHeld'⟩ := hNew
  obtain ⟨-, hTop, -, hLedger⟩ := h.atPoint hPoint
  rw [hClaimed, hHeld, add_zero] at hLedger
  rw [hOffered] at hTop
  have hLimit : s.limit = s.bottom := by rw [limit, hPoint, hOffered, add_zero]
  have hKeep : Undisturbed s { s with array, ringCount, ring, owner := point } :=
    { top_le := le_rfl
      rings := hRings
      limit := fun _ hLt => by
        rw [hLimit] at hLt
        show s.top < s.bottom + point.offered
        omega
      current := fun _ hLt => hSame s.top (le_rfl) (hLimit ▸ hLt)
      ring := fun _ hLt => hRing (hLimit ▸ hLt) }
  exact { h with
    top_le := by
      show s.top ≤ s.bottom + point.offered
      omega
    fits := by
      show s.bottom + point.claimed - s.top ≤ (ring array).cap
      omega
    array_lt := hArray
    owner := hOwner
    thief := fun k => (h.thief k).undisturbed hKeep
    ledger := by
      show Library.Ledger _ (_ ++ point.held)
        ((ring array).between s.top (s.bottom + point.claimed))
      rw [hHeld', hClaimed', add_zero, DequeRing.between_congr hSame]
      exact hLedger }

theorem storeArray {i : Int} {nr : DequeRing α}
    (hPoint : s.owner = .pushCopy task b i r nr) (hDone : b ≤ i) :
    Good { s.storeArray nr with owner := .pushWrite task b s.ringCount } := by
  obtain ⟨⟨rfl, rfl, hCap, hCopied⟩, hTop, hFits, -⟩ := h.atPoint hPoint
  simp only [OwnerPoint.offered, OwnerPoint.claimed, add_zero] at hTop hFits
  have hPos := s.current.cap_pos
  have hNew : (s.storeArray nr).ring (s.storeArray nr).array = nr := update_self _ _ _
  refine h.changeRing hPoint ⟨rfl, rfl, rfl⟩ ⟨rfl, rfl, rfl⟩
    (Nat.le_succ _) (Nat.lt_add_one _)
    ?_ ?_ ?_ ⟨rfl, rfl, ?_⟩
  · rw [hNew, hCap]
    omega
  · intro j hj hLt
    rw [hNew]
    exact hCopied j hj (by omega)
  · exact fun _ n hn => congrArg (DequeRing.cell · s.top) (update_of_ne hn.ne _ _)
  · show s.bottom - s.top < ((s.storeArray nr).ring (s.storeArray nr).array).cap
    rw [hNew, hCap]
    omega

theorem writeCell (hPoint : s.owner = .pushWrite task b r) :
    Good { s.writeCell r b task with owner := .pushStoreBottom task b } := by
  obtain ⟨⟨rfl, rfl, hRoom⟩, -, hFits, -⟩ := h.atPoint hPoint
  simp only [OwnerPoint.claimed, add_zero] at hFits
  have hWritten : (s.writeCell s.array s.bottom task).ring s.array =
      s.current.write s.bottom task :=
    update_self _ _ _
  have hPast : ∀ i, s.top ≤ i → i < s.bottom →
      (s.current.write s.bottom task).cell i = s.current.cell i :=
    fun i hi hLt => DequeRing.cell_write_past h.top_nonneg hRoom hi hLt
  refine h.changeRing hPoint ⟨rfl, rfl, rfl⟩ ⟨rfl, rfl, rfl⟩ (le_rfl) h.array_lt ?_ ?_ ?_
    ⟨rfl, ?_, ?_⟩
  · exact hWritten ▸ hFits
  · exact hWritten ▸ hPast
  · intro hSome n _
    by_cases hArray : n = s.array
    · subst hArray
      exact hWritten ▸ hPast s.top (le_rfl) hSome
    · exact congrArg (DequeRing.cell · s.top) (update_of_ne hArray _ _)
  · show s.bottom - s.top < ((s.writeCell s.array s.bottom task).ring s.array).cap
    exact hWritten ▸ hRoom
  · show ((s.writeCell s.array s.bottom task).ring s.array).cell s.bottom = task
    exact hWritten ▸ DequeRing.cell_write_self

theorem storeBottom (hPoint : s.owner = .pushStoreBottom task b) :
    Good { s with bottom := b + 1, owner := .idle, pushed := s.pushed ++ [task] } := by
  obtain ⟨⟨rfl, hRoom, hCell⟩, hTop, -, hLedger⟩ := h.atPoint hPoint
  simp only [OwnerPoint.offered, OwnerPoint.claimed, OwnerPoint.held, append_nil,
    add_zero] at hTop hLedger
  refine h.settle (fun _ => ?_) ?_ ?_ trivial ?_
  · show s.top < s.bottom + 1 + 0
    omega
  · show s.top ≤ s.bottom + 1 + 0
    omega
  · show s.bottom + 1 + 0 - s.top ≤ s.current.cap
    omega
  · show Library.Ledger _ (s.returned ++ []) (s.current.between s.top (s.bottom + 1 + 0))
    rw [append_nil, add_zero, DequeRing.between_back (by omega), hCell]
    exact hLedger.enter

theorem claim (hPoint : s.owner = .popStoreBottom b r) :
    Good { s with bottom := b, owner := .popLoadTop b r } := by
  obtain ⟨⟨rfl, rfl⟩, hTop, hFits, hLedger⟩ := h.atPoint hPoint
  simp only [OwnerPoint.offered, OwnerPoint.claimed, add_zero] at hTop hFits hLedger
  refine h.settle (fun hLt => ?_) ?_ ?_ ⟨rfl, rfl⟩ ?_
  · simp only [limit, hPoint, OwnerPoint.offered] at hLt ⊢
    omega
  · rw [OwnerPoint.offered]
    omega
  · rw [OwnerPoint.claimed]
    omega
  · rw [OwnerPoint.claimed, sub_add_cancel]
    exact hLedger

theorem returnLast {t : Int} (hPoint : s.owner = .popRead b t r) (hMore : t ≠ b) :
    Good { s with owner := .idle, returned := s.returned ++ [(s.ring r).cell b] } := by
  obtain ⟨⟨rfl, rfl, hBefore, hLe⟩, hTop, hFits, hLedger⟩ := h.atPoint hPoint
  have hLt : t < s.bottom := by omega
  simp only [OwnerPoint.offered, OwnerPoint.claimed, OwnerPoint.held, if_pos hLt,
    append_nil] at hTop hFits hLedger
  rw [DequeRing.between_back (by omega)] at hLedger
  refine h.settle (fun hLimit => ?_) hTop ?_ trivial ?_
  · simp only [limit, hPoint, OwnerPoint.offered, if_pos hLt] at hLimit
    exact hLimit
  · show s.bottom + 0 - s.top ≤ s.current.cap
    omega
  · show Library.Ledger _ (s.returned ++ [s.current.cell s.bottom] ++ [])
      (s.current.between s.top (s.bottom + 0))
    rw [append_nil, add_zero]
    exact hLedger.takeBack

theorem win {t : Int} (hPoint : s.owner = .popExchange b t task) (hWon : s.top = t) :
    Good { s with top := t + 1, owner := .popRestore b (some task) } := by
  obtain ⟨⟨rfl, rfl, _, rfl⟩, -, hFits, hLedger⟩ := h.atPoint hPoint
  have hNonneg := h.top_nonneg
  have hEmpty : s.current.between (s.top + 1) (s.bottom + 1) = [] :=
    DequeRing.between_of_le (by omega)
  simp only [OwnerPoint.claimed, OwnerPoint.held, append_nil] at hFits hLedger
  rw [DequeRing.between_front (by omega), hEmpty, hWon] at hLedger
  have hKeep : Undisturbed s { s with
      top := s.bottom + 1, owner := .popRestore s.bottom (some (s.current.cell s.bottom)) } :=
    { top_le := by
        show s.top ≤ s.bottom + 1
        omega
      rings := le_rfl
      limit := fun hSame => by
        have hSame : s.bottom + 1 = s.top := hSame
        omega
      current := fun _ _ => rfl
      ring := fun _ _ _ _ => rfl }
  exact { h with
    top_nonneg := by
      show 0 ≤ s.bottom + 1
      omega
    top_le := le_rfl
    fits := by
      show s.bottom + 1 - (s.bottom + 1) ≤ (s.current.cap : Int)
      omega
    owner := ⟨rfl, rfl⟩
    thief := fun k => (h.thief k).undisturbed hKeep
    ledger := by
      show Library.Ledger _ (s.returned ++ [s.current.cell s.bottom])
        (s.current.between (s.bottom + 1) (s.bottom + 1))
      rw [DequeRing.between_of_le (le_rfl)]
      exact hLedger.takeFront }

theorem restore {task : Option α} (hPoint : s.owner = .popRestore b task) :
    Good { s with bottom := b + 1, owner := .idle, returned := s.returned ++ task.toList } := by
  obtain ⟨⟨rfl, hTop⟩, -, hFits, hLedger⟩ := h.atPoint hPoint
  refine h.settle (fun hLt => ?_) ?_ ?_ trivial ?_
  · simp only [limit, hPoint, OwnerPoint.offered] at hLt
    omega
  · show s.top ≤ s.bottom + 1 + 0
    omega
  · show s.bottom + 1 + 0 - s.top ≤ s.current.cap
    omega
  · show Library.Ledger _ (s.returned ++ task.toList ++ [])
      (s.current.between s.top (s.bottom + 1 + 0))
    rw [append_nil, add_zero]
    exact hLedger

theorem setThief {point : ThiefPoint α} (hPoint : s.ThiefGood point) :
    Good (s.setThief k point) :=
  { h with
    thief := by
      intro j
      show s.ThiefGood (update s.thief k point j)
      by_cases hSame : j = k
      · rw [hSame, update_self]
        exact hPoint
      · rw [update_of_ne hSame]
        exact h.thief j }

/-- Moving `top` past a task that is offered leaves the owner's view right. -/
theorem ownerGood_advance (hLt : s.top < s.limit) :
    ({ s with top := s.top + 1 } : DequeState α).OwnerGood s.owner := by
  have hOwner := h.owner
  generalize hPoint : s.owner = owner at hOwner ⊢
  cases owner with
  | idle => trivial
  | pushLoadTop _ _ | popLoadArray _ | popStoreBottom _ _ | popLoadTop _ _ =>
    exact hOwner
  | pushLoadArray task b t =>
    exact ⟨hOwner.1, hOwner.2.trans (Int.le_add_one (le_rfl))⟩
  | pushCopy task b i r nr =>
    obtain ⟨hb, hr, hCap, hCopied⟩ := hOwner
    exact ⟨hb, hr, hCap, fun j hj => hCopied j (le_of_lt hj)⟩
  | pushCopied task b i r nr entry =>
    obtain ⟨hb, hr, hCap, hCopied, hEntry⟩ := hOwner
    exact ⟨hb, hr, hCap, fun j hj => hCopied j (le_of_lt hj), hEntry⟩
  | pushWrite task b r =>
    obtain ⟨hb, hr, hRoom⟩ := hOwner
    refine ⟨hb, hr, ?_⟩
    show b - (s.top + 1) < s.current.cap
    omega
  | pushStoreBottom task b =>
    obtain ⟨hb, hRoom, hCell⟩ := hOwner
    refine ⟨hb, ?_, hCell⟩
    show b - (s.top + 1) < s.current.cap
    omega
  | popRead b t _ | popExchange b t _ =>
    obtain ⟨hb, ht, hBefore, hRest⟩ := hOwner
    exact ⟨hb, ht, hBefore.trans (Int.le_add_one (le_rfl)), hRest⟩
  | popRestore b task =>
    -- There is nothing left to steal.
    obtain ⟨rfl, hTop⟩ := hOwner
    simp only [limit, hPoint, OwnerPoint.offered] at hLt
    omega

theorem steal {t : Int} (hPoint : s.thief k = .exchange t task) (hWon : s.top = t) :
    Good { s.setThief k .idle with top := t + 1, returned := s.returned ++ [task] } := by
  have hThief := h.thief k
  rw [hPoint] at hThief
  obtain ⟨_, hCell⟩ := hThief
  obtain ⟨hLt, rfl⟩ := hCell hWon.symm
  subst hWon
  have hNonneg := h.top_nonneg
  have hFits := h.fits
  have hFinish := limit_le_finish s
  have hKeep : Undisturbed s { s.setThief k .idle with
      top := s.top + 1, returned := s.returned ++ [s.current.cell s.top] } :=
    { top_le := Int.le_add_one (le_rfl)
      rings := le_rfl
      limit := fun hSame => by
        have hSame : s.top + 1 = s.top := hSame
        omega
      current := fun _ _ => rfl
      ring := fun _ _ _ _ => rfl }
  have hLedger := h.ledger
  rw [DequeRing.between_front (by omega)] at hLedger
  exact { h with
    top_nonneg := by
      show 0 ≤ s.top + 1
      omega
    top_le := by
      show s.top + 1 ≤ s.limit
      omega
    fits := by
      show s.finish - (s.top + 1) ≤ s.current.cap
      omega
    owner := h.ownerGood_advance hLt
    thief := fun j => by
      apply ThiefGood.undisturbed _ hKeep
      show s.ThiefGood (update s.thief k .idle j)
      by_cases hSame : j = k
      · rw [hSame, update_self]
        trivial
      · rw [update_of_ne hSame]
        exact h.thief j
    ledger := by
      show Library.Ledger _ (s.returned ++ [s.current.cell s.top] ++ s.owner.held)
        (s.current.between (s.top + 1) s.finish)
      have hSwap : (s.returned ++ s.owner.held ++ [s.current.cell s.top]).Perm
          (s.returned ++ [s.current.cell s.top] ++ s.owner.held) := by
        rw [append_assoc, append_assoc]
        exact perm_append_comm.append_left s.returned
      exact hLedger.takeFront.congr hSwap }

theorem thiefStep (hStep : s.thiefStep k = some s') : Good s' := by
  have hThief := h.thief k
  rw [DequeState.thiefStep] at hStep
  generalize hPoint : s.thief k = thief at hStep hThief ⊢
  cases thief with
  | idle =>
    cases hStep
  | loadBottom t =>
    by_cases hEmpty : t ≥ s.bottom
    · cases (if_pos hEmpty).symm.trans hStep
      exact h.setThief trivial
    · cases (if_neg hEmpty).symm.trans hStep
      have hLimit := bottom_le_limit s
      exact h.setThief ⟨hThief, fun _ => by omega⟩
  | loadArray t =>
    cases hStep
    exact h.setThief ⟨hThief.1, h.array_lt, fun hSame => ⟨hThief.2 hSame, rfl⟩⟩
  | read t r =>
    cases hStep
    exact h.setThief ⟨hThief.1, hThief.2.2⟩
  | exchange t task =>
    by_cases hWon : s.top = t
    · cases (if_pos hWon).symm.trans hStep
      exact h.steal hPoint hWon
    · cases (if_neg hWon).symm.trans hStep
      exact h.setThief trivial

theorem ownerStep (hStep : s.ownerStep memory = some s') : Good s' := by
  have hOwner := h.owner
  have hTop := h.top_le
  rw [DequeState.ownerStep] at hStep
  generalize hPoint : s.owner = owner at hStep hOwner ⊢
  cases owner with
  | idle =>
    cases hStep
  | pushLoadTop task b =>
    cases hStep
    exact h.move hPoint rfl rfl rfl ⟨hOwner, le_rfl⟩
  | pushLoadArray task b t =>
    obtain ⟨rfl, hBefore⟩ := hOwner
    by_cases hFull : s.bottom - t > s.current.cap - 1
    · cases (if_pos hFull).symm.trans hStep
      exact h.move hPoint rfl rfl rfl ⟨rfl, rfl, rfl, fun j hj hLt => by omega⟩
    · cases (if_neg hFull).symm.trans hStep
      exact h.move hPoint rfl rfl rfl ⟨rfl, rfl, by omega⟩
  | pushCopy task b i r nr =>
    by_cases hMore : i < b
    · cases (if_pos hMore).symm.trans hStep
      obtain ⟨rfl, rfl, hCap, hCopied⟩ := hOwner
      exact h.move hPoint rfl rfl rfl ⟨rfl, rfl, hCap, hCopied, hMore, rfl⟩
    · cases (if_neg hMore).symm.trans hStep
      exact h.storeArray hPoint (by omega)
  | pushCopied task b i r nr entry =>
    cases hStep
    obtain ⟨rfl, rfl, hCap, hCopied, hMore, rfl⟩ := hOwner
    have hFits := h.fits
    have hNonneg := h.top_nonneg
    simp only [finish, hPoint, OwnerPoint.claimed] at hFits
    refine h.move hPoint rfl rfl rfl ⟨rfl, rfl, hCap, fun j hj hLt => ?_⟩
    -- The entry just written, or one that was copied before it.
    by_cases hLast : j = i
    · rw [hLast]
      exact DequeRing.cell_write_self
    · have hBefore : j < i := by omega
      rw [← hCopied j hj hBefore]
      exact DequeRing.cell_write_of_ne (DequeRing.slot_ne (by omega) hBefore (by omega))
  | pushWrite task b r =>
    cases hStep
    exact h.writeCell hPoint
  | pushStoreBottom task b =>
    cases hStep
    exact h.storeBottom hPoint
  | popLoadArray b =>
    cases hStep
    exact h.move hPoint rfl rfl rfl ⟨hOwner, rfl⟩
  | popStoreBottom b r =>
    cases hStep
    exact h.claim hPoint
  | popLoadTop b r =>
    obtain ⟨rfl, rfl⟩ := hOwner
    simp only [limit, hPoint, OwnerPoint.offered] at hTop
    by_cases hSome : s.top ≤ s.bottom
    · cases (if_pos hSome).symm.trans hStep
      refine h.walk hPoint rfl rfl ?_ ?_ ⟨rfl, rfl, le_rfl, hSome⟩
      · intro _
        rw [OwnerPoint.offered]
        split <;> omega
      · rw [OwnerPoint.offered]
        split <;> omega
    · cases (if_neg hSome).symm.trans hStep
      exact h.move hPoint rfl rfl rfl ⟨rfl, by omega⟩
  | popRead b t r =>
    by_cases hLast : t = b
    · cases (if_pos hLast).symm.trans hStep
      obtain ⟨rfl, rfl, hBefore, hLe⟩ := hOwner
      have hOffered : 1 = (OwnerPoint.popRead s.bottom t s.array : OwnerPoint α).offered :=
        (if_neg (by omega)).symm
      exact h.move hPoint rfl rfl hOffered ⟨rfl, hLast, hBefore, rfl⟩
    · cases (if_neg hLast).symm.trans hStep
      exact h.returnLast hPoint hLast
  | popExchange b t task =>
    by_cases hWon : s.top = t
    · cases (if_pos hWon).symm.trans hStep
      exact h.win hPoint hWon
    · cases (if_neg hWon).symm.trans hStep
      obtain ⟨rfl, rfl, hBefore, _⟩ := hOwner
      simp only [limit, hPoint, OwnerPoint.offered] at hTop
      exact h.move hPoint rfl rfl rfl ⟨rfl, by omega⟩
  | popRestore b task =>
    cases hStep
    exact h.restore hPoint

end

end Good

theorem good_cpxDequeInit : (cpxDequeInit memory).Good where
  top_nonneg := le_refl 0
  top_le := le_refl 0
  fits := by
    show (0 : Int) - 0 ≤ (dequeInitCap : Int)
    omega
  array_lt := one_pos
  owner := trivial
  thief := fun _ => trivial
  ledger := Library.Ledger.empty

end DequeState

theorem dequeStep_call :
    (∀ task, dequeStep memory (.cpxDequePush task) s = some s' →
      s.owner = .idle ∧ s' = { s with owner := .pushLoadTop task s.bottom }) ∧
    (dequeStep memory .cpxDequePop s = some s' →
      s.owner = .idle ∧ s' = { s with owner := .popLoadArray (s.bottom - 1) }) ∧
    ∀ k, dequeStep memory (.cpxDequeSteal k) s = some s' →
      s.thief k = .idle ∧ s' = s.setThief k (.loadBottom s.top) := by
  refine ⟨fun task hStep => ?_, fun hStep => ?_, fun k hStep => ?_⟩
  all_goals
    rw [dequeStep] at hStep
    split at hStep
    · next hPoint =>
      cases hStep
      exact ⟨hPoint, rfl⟩
    · cases hStep

namespace DequeState

theorem Good.dequeStep {act : DequeAct α} (h : Good s)
    (hStep : dequeStep memory act s = some s') : Good s' := by
  obtain ⟨hPush, hPop, hSteal⟩ := dequeStep_call
  cases act with
  | cpxDequePush task =>
    obtain ⟨hPoint, rfl⟩ := hPush task hStep
    exact h.move hPoint rfl rfl rfl rfl
  | cpxDequePop =>
    obtain ⟨hPoint, rfl⟩ := hPop hStep
    exact h.move hPoint rfl rfl rfl rfl
  | owner => exact h.ownerStep hStep
  | cpxDequeSteal k =>
    obtain ⟨hPoint, rfl⟩ := hSteal k hStep
    exact h.setThief (le_rfl)
  | thief k => exact h.thiefStep hStep

/-- No call is in progress. -/
def Quiescent (s : DequeState α) : Prop := s.owner = .idle ∧ ∀ k, s.thief k = .idle

end DequeState

open DequeState

theorem good_of_runCalls {schedule : List (DequeAct α)}
    (hRun : Library.runCalls (dequeStep memory) schedule (cpxDequeInit memory) = some s) :
    s.Good := by
  have hMeet : Library.CallsMeet (dequeStep memory) (fun _ _ => True) schedule
      (cpxDequeInit memory) := Library.callsMeet_of_forall (fun _ _ => trivial) _ _
  exact Library.runCalls_invariant (fun _ _ _ hGood _ hStep => hGood.dequeStep hStep)
    good_cpxDequeInit hMeet hRun

/-- In every interleaving of the owner with any number of thieves, no task is
returned more often than it was pushed, and where no call is in progress those not
yet returned are the ones stored from `top` to `bottom`, in the order of the pushes. -/
theorem deque_exactly_once {schedule : List (DequeAct α)} {s : DequeState α}
    (hRun : Library.runCalls (dequeStep memory) schedule (cpxDequeInit memory) = some s) :
    s.returned.Subperm s.pushed ∧ (∀ task ∈ s.returned, task ∈ s.pushed) ∧
      (s.Quiescent → s.pushed.Perm (s.returned ++ s.stored) ∧ s.stored.Sublist s.pushed) := by
  have hGood := good_of_runCalls hRun
  have hSubperm : s.returned.Subperm s.pushed :=
    (sublist_append_left _ _).subperm.trans hGood.ledger.taken_subperm
  refine ⟨hSubperm, fun task hTask => hSubperm.subset hTask, fun hQuiescent => ?_⟩
  have hLedger := hGood.ledger
  simp only [finish, hQuiescent.1, OwnerPoint.held, OwnerPoint.claimed, append_nil,
    add_zero] at hLedger
  exact ⟨hLedger.perm, hLedger.inOrder⟩

/-- The task of the push that the owner is in. -/
def OwnerPoint.pushes : OwnerPoint α → Option α
  | .pushLoadTop task _ => some task
  | .pushLoadArray task _ _ => some task
  | .pushCopy task _ _ _ _ => some task
  | .pushCopied task _ _ _ _ _ => some task
  | .pushWrite task _ _ => some task
  | .pushStoreBottom task _ => some task
  | _ => none

/-- The owner is in a pop. -/
def OwnerPoint.Pops : OwnerPoint α → Prop
  | .popLoadArray _ => True
  | .popStoreBottom _ _ => True
  | .popLoadTop _ _ => True
  | .popRead _ _ _ => True
  | .popExchange _ _ _ => True
  | .popRestore _ _ => True
  | _ => False

theorem ownerStep_push (hPush : s.owner.pushes = some task) (hStep : s.ownerStep memory = some s') :
    (s'.owner.pushes = some task ∧ s'.pushed = s.pushed ∧ s'.returned = s.returned) ∨
      (s'.owner = .idle ∧ s'.pushed = s.pushed ++ [task] ∧ s'.returned = s.returned) := by
  rw [ownerStep] at hStep
  generalize s.owner = owner at hStep hPush ⊢
  cases owner with
  | pushLoadTop _ _ | pushCopied _ _ _ _ _ _ | pushWrite _ _ _ =>
    cases hStep
    exact .inl ⟨hPush, rfl, rfl⟩
  | pushLoadArray _ _ _ | pushCopy _ _ _ _ _ =>
    dsimp only at hStep
    split at hStep
    all_goals
      cases hStep
      exact .inl ⟨hPush, rfl, rfl⟩
  | pushStoreBottom task b =>
    cases hStep
    cases hPush
    exact .inr ⟨rfl, rfl, rfl⟩
  | _ =>
    cases hPush

/-- A step of a pop either goes on with it or returns, with or without a task. -/
theorem ownerStep_pop (hPop : s.owner.Pops) (hStep : s.ownerStep memory = some s') :
    s'.pushed = s.pushed ∧
      ((s'.owner.Pops ∧ s'.returned = s.returned) ∨
        (s'.owner = .idle ∧ (s'.returned = s.returned ∨
          ∃ task, s'.returned = s.returned ++ [task]))) := by
  rw [ownerStep] at hStep
  generalize s.owner = owner at hStep hPop ⊢
  cases owner with
  | popLoadArray _ | popStoreBottom _ _ =>
    cases hStep
    exact ⟨rfl, .inl ⟨trivial, rfl⟩⟩
  | popLoadTop _ _ | popExchange _ _ _ =>
    dsimp only at hStep
    split at hStep
    all_goals
      cases hStep
      exact ⟨rfl, .inl ⟨trivial, rfl⟩⟩
  | popRead b t r =>
    by_cases hLast : t = b
    · cases (if_pos hLast).symm.trans hStep
      exact ⟨rfl, .inl ⟨trivial, rfl⟩⟩
    · cases (if_neg hLast).symm.trans hStep
      exact ⟨rfl, .inr ⟨rfl, .inr ⟨_, rfl⟩⟩⟩
  | popRestore b task =>
    cases hStep
    cases task with
    | none => exact ⟨rfl, .inr ⟨rfl, .inl (append_nil _)⟩⟩
    | some task => exact ⟨rfl, .inr ⟨rfl, .inr ⟨task, rfl⟩⟩⟩
  | _ =>
    exact hPop.elim

theorem thiefStep_spec (hStep : s.thiefStep k = some s') :
    s'.owner = s.owner ∧ s'.pushed = s.pushed ∧
      (s'.returned = s.returned ∨ ∃ task, s'.returned = s.returned ++ [task]) := by
  rw [thiefStep] at hStep
  generalize s.thief k = thief at hStep ⊢
  cases thief with
  | idle =>
    cases hStep
  | exchange t task =>
    by_cases hWon : s.top = t
    · cases (if_pos hWon).symm.trans hStep
      exact ⟨rfl, rfl, .inr ⟨task, rfl⟩⟩
    · cases (if_neg hWon).symm.trans hStep
      exact ⟨rfl, rfl, .inl rfl⟩
  | loadBottom t =>
    dsimp only at hStep
    split at hStep
    all_goals
      cases hStep
      exact ⟨rfl, rfl, .inl rfl⟩
  | _ =>
    cases hStep
    exact ⟨rfl, rfl, .inl rfl⟩

theorem DequeState.Good.bag_take {bag : List α} (h : s'.Good) (hPushed : s'.pushed = s.pushed)
    (hReturned : s'.returned = s.returned ++ [task]) (hBag : s.pushed.Perm (s.returned ++ bag)) :
    ∃ bag', bag.Perm (task :: bag') ∧ s'.pushed.Perm (s'.returned ++ bag') := by
  have hNext := h.ledger
  rw [hPushed, hReturned] at hNext
  have hSame := hBag.symm.trans hNext.perm
  rw [append_assoc, append_assoc, perm_append_left_iff] at hSame
  refine ⟨s'.owner.held ++ s'.current.between s'.top s'.finish, hSame, ?_⟩
  rw [hPushed, hReturned, ← append_assoc]
  exact hNext.perm

/-- One of three steps of a bag of tasks: a push adds one, a pop or a steal that returns
a task takes it, and every other step of the deque leaves the bag as it is. -/
def BagStep (bag bag' : List α) : Prop :=
  bag' = bag ∨ (∃ task, bag' = bag ++ [task]) ∨ ∃ task, bag.Perm (task :: bag')

/-- The deque refines the bag of the tasks that were pushed and not yet returned. -/
theorem DequeState.Good.bag_step {act : DequeAct α} {bag : List α} (h : s.Good)
    (hStep : Ml.dequeStep memory act s = some s') (hBag : s.pushed.Perm (s.returned ++ bag)) :
    ∃ bag', s'.pushed.Perm (s'.returned ++ bag') ∧ BagStep bag bag' := by
  have hNext : s'.Good := DequeState.Good.dequeStep h hStep
  have hSame (hPushed : s'.pushed = s.pushed) (hReturned : s'.returned = s.returned) :
      ∃ bag', s'.pushed.Perm (s'.returned ++ bag') ∧ BagStep bag bag' := by
    refine ⟨bag, ?_, .inl rfl⟩
    rw [hPushed, hReturned]
    exact hBag
  have hTake (task : α) (hPushed : s'.pushed = s.pushed)
      (hReturned : s'.returned = s.returned ++ [task]) :
      ∃ bag', s'.pushed.Perm (s'.returned ++ bag') ∧ BagStep bag bag' := by
    obtain ⟨bag', hTaken, hRest⟩ := hNext.bag_take hPushed hReturned hBag
    exact ⟨bag', hRest, .inr (.inr ⟨task, hTaken⟩)⟩
  obtain ⟨hPush, hPop, hSteal⟩ := @dequeStep_call α memory s s'
  cases act with
  | cpxDequePush task =>
    obtain ⟨-, rfl⟩ := hPush task hStep
    exact hSame rfl rfl
  | cpxDequePop =>
    obtain ⟨-, rfl⟩ := hPop hStep
    exact hSame rfl rfl
  | cpxDequeSteal k =>
    obtain ⟨-, rfl⟩ := hSteal k hStep
    exact hSame rfl rfl
  | thief k =>
    obtain ⟨-, hPushed, hReturned | ⟨task, hReturned⟩⟩ := thiefStep_spec hStep
    · exact hSame hPushed hReturned
    · exact hTake task hPushed hReturned
  | owner =>
    cases hPushing : s.owner.pushes with
    | some task =>
      obtain ⟨-, hPushed, hReturned⟩ | ⟨-, hPushed, hReturned⟩ :=
        ownerStep_push hPushing hStep
      · exact hSame hPushed hReturned
      · refine ⟨bag ++ [task], ?_, .inr (.inl ⟨task, rfl⟩)⟩
        rw [hPushed, hReturned, ← append_assoc]
        exact hBag.append_right [task]
    | none =>
      have hPops : s.owner.Pops := by
        rw [Ml.dequeStep, DequeState.ownerStep] at hStep
        generalize s.owner = found at hStep hPushing ⊢
        cases found with
        | idle =>
          cases hStep
        | popLoadArray | popStoreBottom | popLoadTop | popRead | popExchange | popRestore =>
          exact trivial
        | _ =>
          cases hPushing
      obtain ⟨hPushed, ⟨-, hReturned⟩ | ⟨-, hReturned | ⟨task, hReturned⟩⟩⟩ :=
        ownerStep_pop hPops hStep
      · exact hSame hPushed hReturned
      · exact hSame hPushed hReturned
      · exact hTake task hPushed hReturned

/-- A push and two steals that begin, a pop that loses the task to one of the two
thieves, and a second push once both steals have ended. -/
def dequeRace : List (DequeAct Nat) :=
  [.cpxDequePush 7, .owner, .owner, .owner, .owner,
    .cpxDequeSteal 0, .thief 0, .cpxDequeSteal 1, .thief 1,
    .cpxDequePop, .owner, .owner, .thief 0, .owner, .owner, .thief 0, .thief 0, .owner, .owner,
    .thief 1, .thief 1, .thief 1,
    .cpxDequePush 8, .owner, .owner, .owner, .owner]

theorem deque_exactly_once_race : ∃ s,
    Library.runCalls (dequeStep fun _ _ => 0) dequeRace (cpxDequeInit fun _ _ => 0) = some s ∧
      s.returned = [7] ∧ s.stored = [8] ∧
      s.returned.Subperm s.pushed ∧ (∀ task ∈ s.returned, task ∈ s.pushed) ∧
      (s.Quiescent → s.pushed.Perm (s.returned ++ s.stored) ∧ s.stored.Sublist s.pushed) :=
  ⟨_, rfl, rfl, rfl, @deque_exactly_once Nat (fun _ _ => 0) dequeRace _ rfl⟩

end Casprix.Ml
