import Mathlib.Logic.Function.Basic

/-! Runs of a deterministic machine that stops where it has no step, and
of one whose steps are chosen from outside. -/
namespace Library

section

variable {σ : Type*}

/-- The configuration after `n` steps, or where the machine stopped before. -/
def runFor (step : σ → Option σ) : Nat → σ → σ
  | 0, c => c
  | n + 1, c =>
    match step c with
    | some d => runFor step n d
    | none => c

variable {step step' : σ → Option σ} {c d : σ} {m n : Nat}

theorem runFor_succ_of_some (h : step c = some d) : runFor step (n + 1) c = runFor step n d := by
  rw [runFor, h]

theorem runFor_of_none (h : step c = none) : runFor step n c = c := by
  cases n with
  | zero => rfl
  | succ n => rw [runFor, h]

theorem runFor_add : runFor step (m + n) c = runFor step n (runFor step m c) := by
  induction m generalizing c with
  | zero => rw [Nat.zero_add, runFor]
  | succ m ih =>
    rw [Nat.succ_add]
    cases h : step c with
    | none => rw [runFor_of_none h, runFor_of_none h, runFor_of_none h]
    | some d => rw [runFor_succ_of_some h, runFor_succ_of_some h, ih]

theorem runFor_succ : runFor step (n + 1) c = runFor step 1 (runFor step n c) := runFor_add

/-- What holds at the start and is kept by every step holds throughout a run. -/
theorem runFor_induction {P : σ → Prop} (hStart : P c)
    (hStep : ∀ c d, P c → step c = some d → P d) (n : Nat) : P (runFor step n c) := by
  induction n generalizing c with
  | zero => exact hStart
  | succ n ih =>
    cases h : step c with
    | none => rwa [runFor_of_none h]
    | some d =>
      rw [runFor_succ_of_some h]
      exact ih (hStep c d hStart h)

private theorem map_runFor_one {τ : Type*} {f : σ → τ} (hSame : f c = f d)
    (hStep : (step c).map f = (step' d).map f) : f (runFor step 1 c) = f (runFor step' 1 d) := by
  cases hLeft : step c with
  | none =>
    rw [hLeft, Option.map_none, eq_comm, Option.map_eq_none_iff] at hStep
    rw [runFor_of_none hLeft, runFor_of_none hStep, hSame]
  | some a =>
    rw [hLeft, Option.map_some, eq_comm, Option.map_eq_some_iff] at hStep
    obtain ⟨b, hRight, hNext⟩ := hStep
    rw [runFor_succ_of_some hLeft, runFor_succ_of_some hRight]
    exact hNext.symm

/-- Two machines that agree on what is seen of every configuration of a run
of the first show the same run, when the second goes by what is seen. -/
theorem map_runFor_eq {τ : Type*} {f : σ → τ} (hStart : f c = f d)
    (hCongr : ∀ a b, f a = f b → (step' a).map f = (step' b).map f)
    (hAgree : ∀ k, k < n → (step (runFor step k c)).map f = (step' (runFor step k c)).map f) :
    f (runFor step n c) = f (runFor step' n d) := by
  induction n with
  | zero => exact hStart
  | succ n ih =>
    have hBefore := ih fun k hk => hAgree k (Nat.lt_succ_of_lt hk)
    have hNext := (hAgree n (Nat.lt_succ_self n)).trans (hCongr _ _ hBefore)
    calc f (runFor step (n + 1) c)
      _ = f (runFor step 1 (runFor step n c)) := congrArg f runFor_succ
      _ = f (runFor step' 1 (runFor step' n d)) := map_runFor_one hBefore hNext
      _ = f (runFor step' (n + 1) d) := congrArg f runFor_succ.symm

end

section

variable {Op σ : Type*}

/-- The state after a sequence of calls, if each of them completes. -/
def runCalls (step : Op → σ → Option σ) : List Op → σ → Option σ
  | [], c => some c
  | op :: ops, c => (step op c).bind (runCalls step ops)

/-- Every call meets its condition in the state in which it is made. -/
def CallsMeet (step : Op → σ → Option σ) (ok : Op → σ → Prop) : List Op → σ → Prop
  | [], _ => True
  | op :: ops, c => ok op c ∧ (step op c).elim True (CallsMeet step ok ops)

/-- Whether the calls meet their conditions is decided by making them. -/
def decideCallsMeet (step : Op → σ → Option σ)
    (ok : Op → σ → Prop) [∀ op c, Decidable (ok op c)] :
    ∀ ops c, Decidable (CallsMeet step ok ops c)
  | [], _ => isTrue trivial
  | op :: ops, c =>
    have : Decidable ((step op c).elim True (CallsMeet step ok ops)) :=
      match step op c with
      | none => isTrue trivial
      | some d => decideCallsMeet step ok ops d
    inferInstanceAs (Decidable (ok op c ∧ (step op c).elim True (CallsMeet step ok ops)))

instance {step : Op → σ → Option σ} {ok : Op → σ → Prop} [∀ op c, Decidable (ok op c)]
    (ops : List Op) (c : σ) : Decidable (CallsMeet step ok ops c) := decideCallsMeet step ok ops c

/-- Calls that complete and keep an invariant when they meet their condition. -/
theorem exists_runCalls {step : Op → σ → Option σ}
    {ok : Op → σ → Prop} {inv : σ → Prop}
    (hStep : ∀ op c, inv c → ok op c → ∃ d, step op c = some d ∧ inv d)
    {ops : List Op} {c : σ} (hStart : inv c) (hMeet : CallsMeet step ok ops c) :
    ∃ d, runCalls step ops c = some d ∧ inv d := by
  induction ops generalizing c with
  | nil => exact ⟨c, rfl, hStart⟩
  | cons op ops ih =>
    obtain ⟨hOk, hRest⟩ := hMeet
    obtain ⟨d, hNext, hInv⟩ := hStep op c hStart hOk
    rw [hNext] at hRest
    rw [runCalls, hNext]
    exact ih hInv hRest

/-- What every call keeps, when it meets its condition, holds after all of them. -/
theorem runCalls_invariant {step : Op → σ → Option σ}
    {ok : Op → σ → Prop} {inv : σ → Prop}
    (hStep : ∀ op c d, inv c → ok op c → step op c = some d → inv d)
    {ops : List Op} {c d : σ}
    (hStart : inv c) (hMeet : CallsMeet step ok ops c) (hRun : runCalls step ops c = some d) :
    inv d := by
  induction ops generalizing c with
  | nil =>
    cases hRun
    exact hStart
  | cons op ops ih =>
    obtain ⟨next, hNext, hRest⟩ := Option.bind_eq_some_iff.mp hRun
    have hMeetRest := hMeet.2
    rw [hNext] at hMeetRest
    exact ih (hStep op c next hStart hMeet.1 hNext) hMeetRest hRest

theorem callsMeet_of_forall {step : Op → σ → Option σ} {ok : Op → σ → Prop}
    (h : ∀ op c, ok op c) (ops : List Op) (c : σ) : CallsMeet step ok ops c := by
  induction ops generalizing c with
  | nil => trivial
  | cons op ops ih =>
    refine ⟨h op c, ?_⟩
    cases hNext : step op c with
    | none => trivial
    | some d => exact ih d

end

end Library
