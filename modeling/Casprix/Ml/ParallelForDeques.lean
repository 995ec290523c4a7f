import Casprix.Ml.DequeRuns
import Casprix.Ml.ParallelFor

/-! The deques of a parallel for. While thread 0 pushes onto a deque, and its worker
leaves it alone, the push is that of an owner, so the deque keeps its invariant. -/
namespace Casprix.Ml

open Function List

/-- The deque and the task of the push that thread 0 is in. -/
def ForPoint.pushing (numWorkers : Nat) : ForPoint → Option (Nat × Nat)
  | .push i t => some (i % numWorkers, t)
  | _ => none

/-- A deque with the owner's point of the thread that is in a call on it. -/
def seenBy (pushing : Option (Nat × Nat)) (pusher : OwnerPoint Nat) (w : Nat)
    (d : DequeState Nat) : DequeState Nat :=
  if pushing.map Prod.fst = some w then { d with owner := pusher } else d

/-- Each deque keeps its invariant with one owner at a time, and a bag has its tasks. -/
structure Deques (pushing : Option (Nat × Nat)) (pusher : OwnerPoint Nat)
    (deque : Nat → DequeState Nat) (worker : Nat → WorkerPoint)
    (bag : Nat → List Nat) : Prop where
  good : ∀ w, (seenBy pushing pusher w (deque w)).Good
  pusher : ∀ v t, pushing = some (v, t) → pusher.pushes = some t ∧ (deque v).owner = .idle
  popping : ∀ w, worker w = .pop → (deque w).owner.Pops
  resting : ∀ w, worker w ≠ .pop → (deque w).owner = .idle
  bag : ∀ w, (deque w).pushed.Perm ((deque w).returned ++ bag w)

variable {pushing : Option (Nat × Nat)} {pusher point : OwnerPoint Nat} {d d' : DequeState Nat}
  {deque : Nat → DequeState Nat} {worker worker' : Nat → WorkerPoint} {bag : Nat → List Nat}
  {memory : Nat → Nat → Nat} {rest : List Nat} {t u v w : Nat}

theorem seenBy_of_ne (h : pushing.map Prod.fst ≠ some w) :
    seenBy pushing pusher w d = d := if_neg h

theorem seenBy_none : seenBy none pusher w d = d := if_neg (Option.some_ne_none w).symm

theorem seenBy_self : seenBy (some (v, t)) pusher v d = { d with owner := pusher } := if_pos rfl

theorem seenBy_pushed : (seenBy pushing pusher w d).pushed = d.pushed := by
  rw [seenBy]
  split <;> rfl

theorem seenBy_returned : (seenBy pushing pusher w d).returned = d.returned := by
  rw [seenBy]
  split <;> rfl

theorem thiefStep_owner (h : d.thiefStep u = some d') :
    ({ d with owner := point } : DequeState Nat).thiefStep u = some { d' with owner := point } := by
  rw [DequeState.thiefStep] at h ⊢
  generalize d.thief u = thief at h ⊢
  cases thief with
  | idle =>
    cases h
  | loadBottom t =>
    by_cases hEmpty : t ≥ d.bottom
    · cases (if_pos hEmpty).symm.trans h
      exact if_pos hEmpty
    · cases (if_neg hEmpty).symm.trans h
      exact if_neg hEmpty
  | exchange t task =>
    by_cases hWon : d.top = t
    · cases (if_pos hWon).symm.trans h
      exact if_pos hWon
    · cases (if_neg hWon).symm.trans h
      exact if_neg hWon
  | _ =>
    cases h
    rfl

theorem seenBy_thiefStep (h : d.thiefStep u = some d') :
    (seenBy pushing pusher w d).thiefStep u = some (seenBy pushing pusher w d') := by
  rw [seenBy, seenBy]
  by_cases hPushing : pushing.map Prod.fst = some w
  · rw [if_pos hPushing, if_pos hPushing]
    exact thiefStep_owner h
  · rw [if_neg hPushing, if_neg hPushing]
    exact h

namespace Deques

theorem replace (h : Deques pushing pusher deque worker bag)
    (hGood : (seenBy pushing pusher w d).Good)
    (hPusher : pushing.map Prod.fst = some w → d.owner = .idle)
    (hPop : worker' w = .pop → d.owner.Pops) (hRest : worker' w ≠ .pop → d.owner = .idle)
    (hOthers : ∀ v, v ≠ w → (worker' v = .pop ↔ worker v = .pop))
    (hBag : d.pushed.Perm (d.returned ++ rest)) :
    Deques pushing pusher (update deque w d) worker' (update bag w rest) where
  good := by
    intro v
    by_cases hv : v = w
    · rw [hv, update_self]
      exact hGood
    · rw [update_of_ne hv]
      exact h.good v
  pusher := by
    rintro v t rfl
    refine ⟨(h.pusher v t rfl).1, ?_⟩
    by_cases hv : v = w
    · rw [hv] at hPusher
      rw [hv, update_self]
      exact hPusher rfl
    · rw [update_of_ne hv]
      exact (h.pusher v t rfl).2
  popping := by
    intro v hv
    by_cases hSame : v = w
    · rw [hSame, update_self]
      rw [hSame] at hv
      exact hPop hv
    · rw [update_of_ne hSame]
      exact h.popping v ((hOthers v hSame).mp hv)
  resting := by
    intro v hv
    by_cases hSame : v = w
    · rw [hSame, update_self]
      rw [hSame] at hv
      exact hRest hv
    · rw [update_of_ne hSame]
      exact h.resting v fun hPop => hv ((hOthers v hSame).mpr hPop)
  bag := by
    intro v
    by_cases hv : v = w
    · rw [hv, update_self, update_self]
      exact hBag
    · rw [update_of_ne hv, update_of_ne hv]
      exact h.bag v

theorem setWorker (h : Deques pushing pusher deque worker bag)
    (hSame : ∀ v, worker' v = .pop ↔ worker v = .pop) :
    Deques pushing pusher deque worker' bag where
  good := h.good
  pusher := h.pusher
  popping := fun v hv => h.popping v ((hSame v).mp hv)
  resting := fun v hv => h.resting v fun hPop => hv ((hSame v).mpr hPop)
  bag := h.bag

theorem beginPush (h : Deques none pusher deque worker bag) (hIdle : (deque v).owner = .idle) :
    Deques (some (v, t)) (.pushLoadTop t (deque v).bottom) deque worker bag where
  good := by
    intro w
    have hOld := h.good w
    rw [seenBy_none] at hOld
    by_cases hw : v = w
    · rw [← hw, seenBy_self]
      rw [← hw] at hOld
      exact hOld.move hIdle rfl rfl rfl rfl
    · rw [seenBy_of_ne]
      · exact hOld
      · rintro ⟨⟩
        exact hw rfl
  pusher := by
    rintro w u ⟨⟩
    exact ⟨rfl, hIdle⟩
  popping := h.popping
  resting := h.resting
  bag := h.bag

/-- What a step of thread 0 in a push does to the deque besides its own point. -/
private theorem goodPush (h : Deques (some (v, t)) pusher deque worker bag)
    (hGood : (seenBy pushing d.owner v { d with owner := (deque v).owner }).Good)
    (hBag : d.pushed.Perm (d.returned ++ rest))
    (hNext : pushing = none ∨ pushing = some (v, t) ∧ d.owner.pushes = some t) :
    Deques pushing d.owner (update deque v { d with owner := (deque v).owner }) worker
      (update bag v rest) where
  good := by
    intro w
    by_cases hw : w = v
    · rw [hw, update_self]
      exact hGood
    · have hOld := h.good w
      rw [seenBy_of_ne] at hOld
      · rw [update_of_ne hw]
        rcases hNext with rfl | ⟨rfl, _⟩
        · rw [seenBy_none]
          exact hOld
        · rw [seenBy_of_ne]
          · exact hOld
          · rintro ⟨⟩
            exact hw rfl
      · rintro ⟨⟩
        exact hw rfl
  pusher := by
    rintro w u hPushing
    rcases hNext with rfl | ⟨rfl, hTask⟩
    · cases hPushing
    · cases hPushing
      refine ⟨hTask, ?_⟩
      rw [update_self]
      exact (h.pusher v t rfl).2
  popping := by
    intro w hw
    by_cases hSame : w = v
    · rw [hSame, update_self, ← hSame]
      exact h.popping w hw
    · rw [update_of_ne hSame]
      exact h.popping w hw
  resting := by
    intro w hw
    by_cases hSame : w = v
    · rw [hSame, update_self, ← hSame]
      exact h.resting w hw
    · rw [update_of_ne hSame]
      exact h.resting w hw
  bag := by
    intro w
    by_cases hw : w = v
    · rw [hw, update_self, update_self]
      exact hBag
    · rw [update_of_ne hw, update_of_ne hw]
      exact h.bag w

theorem stepPush (h : Deques (some (v, t)) pusher deque worker bag)
    (hStep : ({ deque v with owner := pusher } : DequeState Nat).ownerStep memory = some d) :
    (d.owner.pushes = some t ∧ Deques (some (v, t)) d.owner
        (update deque v { d with owner := (deque v).owner }) worker bag) ∨
      (d.owner = .idle ∧ Deques none d.owner
        (update deque v { d with owner := (deque v).owner }) worker
        (update bag v (bag v ++ [t]))) := by
  obtain ⟨hTask, hIdle⟩ := h.pusher v t rfl
  have hOld := h.good v
  rw [seenBy_self] at hOld
  have hGood := hOld.ownerStep hStep
  have hBag := h.bag v
  rcases ownerStep_push hTask hStep with ⟨hNext, hPushed, hReturned⟩ |
    ⟨hDone, hPushed, hReturned⟩
  · refine .inl ⟨hNext, ?_⟩
    rw [← update_eq_self v bag]
    apply h.goodPush _ _ (.inr ⟨rfl, hNext⟩)
    · rw [seenBy_self]
      exact hGood
    · rw [hPushed, hReturned]
      exact hBag
  · refine .inr ⟨hDone, ?_⟩
    apply h.goodPush _ _ (.inl rfl)
    · rw [seenBy_none, hIdle, ← hDone]
      exact hGood
    · rw [hPushed, hReturned, ← append_assoc]
      exact hBag.append_right [t]

/-- What is left of the bags when a call on the deque `v` got no task, or one of them. -/
def Fetches (bag bag' : Nat → List Nat) (v : Nat) (goesOn next : WorkerPoint) : Prop :=
  (bag' = bag ∧ (next = goesOn ∨ next = .idle)) ∨
    ∃ t rest, (bag v).Perm (t :: rest) ∧ bag' = update bag v rest ∧ next = .call t

open ParallelFor in
theorem afterFetch_same (goesOn : WorkerPoint) (ended : Bool) (h : d'.returned = d.returned) :
    afterFetch d d' goesOn ended = goesOn ∨ afterFetch d d' goesOn ended = .idle := by
  rw [afterFetch, fetched, h, drop_length]
  cases ended with
  | true => exact .inr rfl
  | false => exact .inl rfl

open ParallelFor in
theorem afterFetch_task (goesOn : WorkerPoint) (ended : Bool)
    (h : d'.returned = d.returned ++ [t]) : afterFetch d d' goesOn ended = .call t := by
  rw [afterFetch, fetched, h, drop_left]
  rfl

theorem beginPop (h : Deques pushing pusher deque worker bag)
    (hTarget : pushing.map Prod.fst ≠ some w)
    (hStep : dequeStep memory .cpxDequePop (deque w) = some d) :
    Deques pushing pusher (update deque w d) (update worker w .pop) bag := by
  have hOld := h.good w
  rw [seenBy_of_ne hTarget] at hOld
  have hGood := hOld.dequeStep hStep
  obtain ⟨_, rfl⟩ := dequeStep_call.2.1 hStep
  rw [← update_eq_self w bag]
  apply h.replace
  · rw [seenBy_of_ne hTarget]
    exact hGood
  · exact fun hPushing => absurd hPushing hTarget
  · exact fun _ => trivial
  · exact fun hOther => absurd (update_self _ _ _) hOther
  · intro v hv
    rw [update_of_ne hv]
  · exact h.bag w

open ParallelFor in
section

variable (h : Deques pushing pusher deque worker bag)
include h

theorem stepPop (hPop : worker w = .pop) (hStep : (deque w).ownerStep memory = some d) :
    ∃ bag', Fetches bag bag' w .pop (afterFetch (deque w) d .pop (OwnerPoint.isIdle d.owner)) ∧
      Deques pushing pusher (update deque w d)
        (update worker w (afterFetch (deque w) d .pop (OwnerPoint.isIdle d.owner))) bag' := by
  have hPops := h.popping w hPop
  have hTarget : pushing.map Prod.fst ≠ some w := by
    intro hPushing
    obtain ⟨⟨v, t⟩, rfl, rfl⟩ := Option.map_eq_some_iff.mp hPushing
    rw [(h.pusher v t rfl).2] at hPops
    exact hPops
  have hOld := h.good w
  rw [seenBy_of_ne hTarget] at hOld
  have hGood := hOld.ownerStep hStep
  obtain ⟨hPushed, hNext⟩ := ownerStep_pop hPops hStep
  have hReplace : ∀ {next : WorkerPoint} {rest : List Nat}, d.pushed.Perm (d.returned ++ rest) →
      (next = .pop → d.owner.Pops) → (next ≠ .pop → d.owner = .idle) →
      Deques pushing pusher (update deque w d) (update worker w next)
        (update bag w rest) := by
    intro next rest hBag hMore hEnd
    apply h.replace
    · rw [seenBy_of_ne hTarget]
      exact hGood
    · exact fun hPushing => absurd hPushing hTarget
    · rw [update_self]
      exact hMore
    · rw [update_self]
      exact hEnd
    · intro v hv
      rw [update_of_ne hv]
    · exact hBag
  have hSame : d.returned = (deque w).returned → d.pushed.Perm (d.returned ++ bag w) := by
    intro hReturned
    rw [hPushed, hReturned]
    exact h.bag w
  rcases hNext with ⟨hMore, hReturned⟩ | ⟨hEnd, hReturned | ⟨t, hReturned⟩⟩
  · have hIdle : OwnerPoint.isIdle d.owner = false := by
      cases hPoint : d.owner with
      | idle =>
        rw [hPoint] at hMore
        exact hMore.elim
      | _ => rfl
    have hPoint : afterFetch (deque w) d .pop (OwnerPoint.isIdle d.owner) = .pop := by
      rw [afterFetch, fetched, hReturned, drop_length, hIdle]
      rfl
    refine ⟨bag, .inl ⟨rfl, afterFetch_same _ _ hReturned⟩, ?_⟩
    rw [← update_eq_self w bag, hPoint]
    exact hReplace (hSame hReturned) (fun _ => hMore) fun hOther => absurd rfl hOther
  · have hPoint : afterFetch (deque w) d .pop (OwnerPoint.isIdle d.owner) = .idle := by
      rw [afterFetch, fetched, hReturned, drop_length, hEnd]
      rfl
    refine ⟨bag, .inl ⟨rfl, afterFetch_same _ _ hReturned⟩, ?_⟩
    rw [← update_eq_self w bag, hPoint]
    exact hReplace (hSame hReturned) WorkerPoint.noConfusion fun _ => hEnd
  · obtain ⟨rest, hTask, hBag⟩ := hGood.bag_take hPushed hReturned (h.bag w)
    have hPoint := afterFetch_task .pop (OwnerPoint.isIdle d.owner) hReturned
    refine ⟨_, .inr ⟨t, rest, hTask, rfl, hPoint⟩, ?_⟩
    rw [hPoint]
    exact hReplace hBag WorkerPoint.noConfusion fun _ => hEnd

/-- A step of a thief on a deque leaves the points of its owners. -/
private theorem stepThief (hOwner : d.owner = (deque v).owner)
    (hGood : (seenBy pushing pusher v d).Good) (hBag : d.pushed.Perm (d.returned ++ rest))
    {next : WorkerPoint} (hThief : worker u ≠ .pop) (hNext : next ≠ .pop) :
    Deques pushing pusher (update deque v d) (update worker u next)
      (update bag v rest) := by
  have hSame : ∀ w, update worker u next w = .pop ↔ worker w = .pop := by
    intro w
    by_cases hw : w = u
    · rw [hw, update_self]
      exact ⟨fun hPop => absurd hPop hNext, fun hPop => absurd hPop hThief⟩
    · rw [update_of_ne hw]
  apply h.replace hGood
  · intro hPushing
    obtain ⟨⟨v, t⟩, rfl, rfl⟩ := Option.map_eq_some_iff.mp hPushing
    rw [hOwner]
    exact (h.pusher v t rfl).2
  · intro hPop
    rw [hOwner]
    exact h.popping v ((hSame v).mp hPop)
  · intro hOther
    rw [hOwner]
    exact h.resting v fun hPop => hOther ((hSame v).mpr hPop)
  · exact fun w _ => hSame w
  · exact hBag

theorem beginSteal (hIdle : worker u = .idle)
    (hStep : dequeStep memory (.cpxDequeSteal u) (deque v) = some d) :
    Deques pushing pusher (update deque v d) (update worker u (.steal v)) bag := by
  have hOld := h.good v
  obtain ⟨hFree, rfl⟩ := dequeStep_call.2.2 u hStep
  rw [← update_eq_self v bag]
  apply h.stepThief (d := (deque v).setThief u (.loadBottom (deque v).top)) rfl
  · rw [seenBy] at hOld ⊢
    by_cases hPushing : pushing.map Prod.fst = some v
    · rw [if_pos hPushing] at hOld ⊢
      exact hOld.setThief (le_rfl)
    · rw [if_neg hPushing] at hOld ⊢
      exact hOld.setThief (le_rfl)
  · exact h.bag v
  · rw [hIdle]
    exact WorkerPoint.noConfusion
  · exact WorkerPoint.noConfusion

end

open ParallelFor in
theorem stepSteal (h : Deques pushing pusher deque worker bag) (hSteal : worker u = .steal v)
    (hStep : (deque v).thiefStep u = some d) (ended : Bool) :
    ∃ bag', Fetches bag bag' v (.steal v) (afterFetch (deque v) d (.steal v) ended) ∧
      Deques pushing pusher (update deque v d)
        (update worker u (afterFetch (deque v) d (.steal v) ended)) bag' := by
  have hOld := h.good v
  have hGood := hOld.thiefStep (seenBy_thiefStep hStep)
  have hThief : worker u ≠ .pop := by
    rw [hSteal]
    exact WorkerPoint.noConfusion
  obtain ⟨hOwner, hPushed, hReturned | ⟨t, hReturned⟩⟩ := thiefStep_spec hStep
  · refine ⟨bag, .inl ⟨rfl, afterFetch_same _ _ hReturned⟩, ?_⟩
    rw [← update_eq_self v bag]
    apply h.stepThief hOwner hGood _ hThief
    · rcases afterFetch_same (.steal v) ended hReturned with hPoint | hPoint
      · rw [hPoint]
        exact WorkerPoint.noConfusion
      · rw [hPoint]
        exact WorkerPoint.noConfusion
    · rw [hPushed, hReturned]
      exact h.bag v
  · have hSeenPushed : (seenBy pushing pusher v d).pushed = (deque v).pushed :=
      seenBy_pushed.trans hPushed
    have hSeenReturned : (seenBy pushing pusher v d).returned = (deque v).returned ++ [t] :=
      seenBy_returned.trans hReturned
    obtain ⟨rest, hTask, hBag⟩ := hGood.bag_take hSeenPushed hSeenReturned (h.bag v)
    rw [seenBy_pushed, seenBy_returned] at hBag
    have hPoint := afterFetch_task (.steal v) ended hReturned
    refine ⟨_, .inr ⟨t, rest, hTask, rfl, hPoint⟩, ?_⟩
    rw [hPoint]
    exact h.stepThief hOwner hGood hBag hThief WorkerPoint.noConfusion

end Deques

end Casprix.Ml
