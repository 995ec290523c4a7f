import Casprix.Consteval.Evaluator

/-! The eligibility check: what its answer means, and when it has one. -/
namespace Casprix.Consteval

open Mir List

variable {module : MirModule} {func callee : MirFunction} {insts : List MirInst}
  {eligible eligible' : MirFunction → Option Bool}

/-- The function can be evaluated: none of its instructions is excluded, and each function that it
calls is marked or can be evaluated as well. -/
inductive Eligible (module : MirModule) : MirFunction → Prop where
  | intro {func : MirFunction} (hExtern : func.isExtern = false)
      (hInsts : ∀ inst ∈ func.blocks.flatMap (·.insts), eligibleInst module inst ≠ .ok false)
      (hCallees : ∀ inst ∈ func.blocks.flatMap (·.insts), ∀ callee,
        eligibleInst module inst = .error callee → Eligible module callee) : Eligible module func

/-- The check goes on behind the instruction. -/
def Passes (module : MirModule) (inst : MirInst) : Prop :=
  eligibleInst module inst ≠ .ok false ∧
    ∀ callee, eligibleInst module inst = .error callee → Eligible module callee

/-- The check of a function comes to a call, and checks the callee. -/
def Asks (module : MirModule) (callee func : MirFunction) : Prop :=
  func.isExtern = false ∧ ∃ before inst after, func.blocks.flatMap (·.insts) =
    before ++ inst :: after ∧
    eligibleInst module inst = .error callee ∧ ∀ earlier ∈ before, Passes module earlier

theorem eligible_iff : Eligible module func ↔
    func.isExtern = false ∧ ∀ inst ∈ func.blocks.flatMap (·.insts), Passes module inst := by
  constructor
  · rintro ⟨hExtern, hInsts, hCallees⟩
    exact ⟨hExtern, fun inst hInst => ⟨hInsts inst hInst, hCallees inst hInst⟩⟩
  · rintro ⟨hExtern, hPasses⟩
    exact ⟨hExtern, fun inst hInst =>
      (hPasses inst hInst).1, fun inst hInst => (hPasses inst hInst).2⟩

variable {answer : Bool}

theorem eligibleInsts_sound
    (hEligible : ∀ f b, eligible f = some b → (b = true ↔ Eligible module f))
    (h : eligibleInsts module eligible insts = some answer) :
    answer = true ↔ ∀ inst ∈ insts, Passes module inst := by
  induction insts with
  | nil =>
    obtain rfl := Option.some.inj h
    exact iff_of_true rfl nofun
  | cons inst rest ih =>
    unfold eligibleInsts at h
    rw [forall_mem_cons]
    unfold Passes
    generalize eligibleInst module inst = found at h ⊢
    cases found with
    | ok fine =>
      cases fine with
      | false =>
        obtain rfl := Option.some.inj h
        exact iff_of_false Bool.false_ne_true fun hAll => hAll.1.1 rfl
      | true =>
        rw [ih h]
        exact (and_iff_right ⟨by simp, fun callee hCall => nomatch hCall⟩).symm
    | error callee =>
      dsimp only at h
      cases hCallee : eligible callee with
      | none =>
        rw [hCallee] at h
        cases h
      | some fine =>
        have hMeans := hEligible callee fine hCallee
        rw [hCallee] at h
        cases fine with
        | false =>
          obtain rfl := Option.some.inj h
          refine iff_of_false Bool.false_ne_true fun hAll => ?_
          exact Bool.false_ne_true (hMeans.mpr (hAll.1.2 callee rfl))
        | true =>
          rw [ih h]
          refine (and_iff_right ⟨(nomatch ·), fun callee' hSame => ?_⟩).symm
          exact Except.error.inj hSame ▸ hMeans.mp rfl

theorem mirConstevalEligible_sound {depth : Nat}
    (h : mirConstevalEligible module depth func = some answer) :
    answer = true ↔ Eligible module func := by
  induction depth generalizing func answer with
  | zero => cases h
  | succ depth ih =>
    unfold mirConstevalEligible at h
    rw [eligible_iff]
    generalize func.isExtern = isExtern at h ⊢
    cases isExtern with
    | true =>
      obtain rfl := Option.some.inj h
      exact iff_of_false Bool.false_ne_true fun hBoth => nomatch hBoth.1
    | false =>
      rw [eligibleInsts_sound (fun f b => ih) h]
      exact (and_iff_right rfl).symm

theorem eligibleInsts_mono (hMore : ∀ f b, eligible f = some b → eligible' f = some b)
    (h : eligibleInsts module eligible insts = some answer) :
    eligibleInsts module eligible' insts = some answer := by
  induction insts with
  | nil => exact h
  | cons inst rest ih =>
    unfold eligibleInsts at h ⊢
    generalize eligibleInst module inst = found at h ⊢
    cases found with
    | ok fine =>
      cases fine with
      | false => exact h
      | true => exact ih h
    | error callee =>
      dsimp only at h ⊢
      generalize hCallee : eligible callee = value at h ⊢
      cases value with
      | none =>
        cases h
      | some fine =>
        rw [hMore callee fine hCallee]
        cases fine with
        | false => exact h
        | true => exact ih h

theorem mirConstevalEligible_mono {depth depth' : Nat}
    (h : mirConstevalEligible module depth func = some answer) (hLe : depth ≤ depth') :
    mirConstevalEligible module depth' func = some answer := by
  induction depth generalizing func answer depth' with
  | zero => cases h
  | succ depth ih =>
    obtain ⟨more, rfl⟩ := Nat.exists_eq_add_of_le' hLe
    rw [← Nat.add_assoc]
    unfold mirConstevalEligible at h ⊢
    generalize func.isExtern = isExtern at h ⊢
    cases isExtern with
    | true =>
      exact h
    | false =>
      exact eligibleInsts_mono (fun f b hf => ih hf (Nat.le_add_left depth more)) h

/-- The check of a list that has an answer has one for each callee it comes to. -/
theorem eligible_of_split {before after : List MirInst} {inst : MirInst}
    (hEligible : ∀ f b, eligible f = some b → (b = true ↔ Eligible module f))
    (h : eligibleInsts module eligible (before ++ inst :: after) = some answer)
    (hCall : eligibleInst module inst = .error callee)
    (hBefore : ∀ earlier ∈ before, Passes module earlier) :
    ∃ answer, eligible callee = some answer := by
  induction before with
  | nil =>
    rw [nil_append] at h
    unfold eligibleInsts at h
    rw [hCall] at h
    dsimp only at h
    cases hCallee : eligible callee with
    | none =>
      rw [hCallee] at h
      cases h
    | some fine => exact ⟨fine, rfl⟩
  | cons first rest ih =>
    rw [forall_mem_cons] at hBefore
    rw [cons_append] at h
    unfold eligibleInsts at h
    generalize hFirst : eligibleInst module first = found at h
    cases found with
    | ok fine =>
      cases fine with
      | false => exact absurd hFirst hBefore.1.1
      | true => exact ih h hBefore.2
    | error earlier =>
      dsimp only at h
      generalize hEarlier : eligible earlier = value at h ⊢
      cases value with
      | none =>
        cases h
      | some fine =>
        have hFine := (hEligible earlier fine hEarlier).mpr (hBefore.1.2 earlier hFirst)
        rw [hFine] at h
        exact ih h hBefore.2

/-- The check of a list has an answer if it has one for each callee it comes to. -/
theorem exists_eligibleInsts
    (hAsked : ∀ before inst after callee, insts = before ++ inst :: after →
      eligibleInst module inst = .error callee →
        (∀ earlier ∈ before, Passes module earlier) →
      ∃ depth answer, mirConstevalEligible module depth callee = some answer) :
    ∃ depth answer, eligibleInsts module (mirConstevalEligible module depth) insts =
      some answer := by
  induction insts with
  | nil => exact ⟨0, true, rfl⟩
  | cons inst rest ih =>
    have hRest : Passes module inst → ∃ depth answer,
        eligibleInsts module (mirConstevalEligible module depth) rest = some answer := by
      intro hPasses
      refine ih fun before next after callee hSplit hCall hBefore => ?_
      exact hAsked (inst :: before) next after callee (by rw [hSplit]; rfl) hCall
        (forall_mem_cons.mpr ⟨hPasses, hBefore⟩)
    cases hInst : eligibleInst module inst with
    | ok fine =>
      cases fine with
      | false =>
        refine ⟨0, false, ?_⟩
        unfold eligibleInsts
        rw [hInst]
      | true =>
        obtain ⟨depth, answer, hAnswer⟩ := hRest ⟨by rw [hInst]; simp, fun callee hCall => by
          rw [hInst] at hCall
          cases hCall⟩
        refine ⟨depth, answer, ?_⟩
        unfold eligibleInsts
        rw [hInst]
        exact hAnswer
    | error callee =>
      obtain ⟨depth, fine, hCallee⟩ := hAsked [] inst rest callee rfl hInst
        nofun
      cases fine with
      | false =>
        refine ⟨depth, false, ?_⟩
        unfold eligibleInsts
        rw [hInst]
        dsimp only
        rw [hCallee]
      | true =>
        have hPasses : Passes module inst := by
          refine ⟨by rw [hInst]; exact (nomatch ·), fun callee' hCall => ?_⟩
          rw [hInst] at hCall
          exact Except.error.inj hCall ▸ (mirConstevalEligible_sound hCallee).mp rfl
        obtain ⟨depth', answer, hAnswer⟩ := hRest hPasses
        refine ⟨max depth depth', answer, ?_⟩
        unfold eligibleInsts
        rw [hInst]
        dsimp only
        rw [mirConstevalEligible_mono hCallee (Nat.le_max_left depth depth')]
        exact eligibleInsts_mono
          (fun f b hf => mirConstevalEligible_mono hf (Nat.le_max_right depth depth')) hAnswer

/-- The check comes to an answer exactly if no chain of functions that it checks
goes on for ever. -/
theorem eligible_answers_iff :
    (∃ depth answer, mirConstevalEligible module depth func = some answer) ↔
      Acc (Asks module) func := by
  constructor
  · rintro ⟨depth, answer, h⟩
    induction depth generalizing func answer with
    | zero => cases h
    | succ depth ih =>
      refine Acc.intro func fun callee hAsks => ?_
      obtain ⟨hExtern, before, inst, after, hSplit, hCall, hBefore⟩ := hAsks
      unfold mirConstevalEligible at h
      rw [hExtern, hSplit] at h
      obtain ⟨answer', hCallee⟩ :=
        eligible_of_split (fun f b => mirConstevalEligible_sound) h hCall hBefore
      exact ih answer' hCallee
  · intro hAcc
    induction hAcc with
    | intro func _ ih =>
      cases hExtern : func.isExtern with
      | true =>
        refine ⟨1, false, ?_⟩
        unfold mirConstevalEligible
        rw [hExtern]
        rfl
      | false =>
        obtain ⟨depth, answer, h⟩ : ∃ depth answer, eligibleInsts module
            (mirConstevalEligible module depth) (func.blocks.flatMap (·.insts)) = some answer :=
          exists_eligibleInsts fun before inst after callee hSplit hCall hBefore =>
            ih callee ⟨hExtern, before, inst, after, hSplit, hCall, hBefore⟩
        refine ⟨depth + 1, answer, ?_⟩
        unfold mirConstevalEligible
        rw [hExtern]
        exact h

end Casprix.Consteval
