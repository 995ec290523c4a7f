import Casprix.Library.Machine

/-! An object with state that answers operations, and what it means for an
implementation that may fail to answer as its specification does. -/
namespace Library

section

variable {Op Reply σ α : Type*}

/-- The answers of an implementation to a sequence of operations. A step that
does not complete ends the run without a result. -/
def answers (step : Op → σ → Option (Reply × σ)) :
    List Op → σ → Option (List Reply × σ)
  | [], c => some ([], c)
  | op :: ops, c =>
    match step op c with
    | some (reply, c) => (answers step ops c).map fun result => (reply :: result.1, result.2)
    | none => none

/-- The answers of a specification. -/
def specAnswers (spec : Op → α → Reply × α) : List Op → α → List Reply × α
  | [], a => ([], a)
  | op :: ops, a =>
    let result := specAnswers spec ops (spec op a).2
    ((spec op a).1 :: result.1, result.2)

/-- Every operation of the sequence is allowed where it is reached. -/
def Allowed (spec : Op → α → Reply × α) (ok : Op → α → Prop) : List Op → α → Prop
  | [], _ => True
  | op :: ops, a => ok op a ∧ Allowed spec ok ops (spec op a).2

/-- Every operation of the sequence is allowed in the two states in which it is reached. -/
def AllowedRun (step : Op → σ → Option (Reply × σ)) (spec : Op → α → Reply × α)
    (ok : Op → σ → α → Prop) : List Op → σ → α → Prop
  | [], _, _ => True
  | op :: ops, c, a => ok op c a ∧
      ∀ reply d, step op c = some (reply, d) → AllowedRun step spec ok ops d (spec op a).2

/-- Whether a run is allowed is decided by making it. -/
def decideAllowedRun (step : Op → σ → Option (Reply × σ)) (spec : Op → α → Reply × α)
    (ok : Op → σ → α → Prop) [∀ op c a, Decidable (ok op c a)] :
    ∀ ops c a, Decidable (AllowedRun step spec ok ops c a)
  | [], _, _ => isTrue trivial
  | op :: ops, c, a =>
    match hStep : step op c with
    | none => decidable_of_iff (ok op c a)
        ⟨fun h => ⟨h, fun reply d hNext =>
          absurd (hStep.symm.trans hNext) (Option.some_ne_none _).symm⟩,
          fun h => h.1⟩
    | some (reply, d) =>
      have := decideAllowedRun step spec ok ops d (spec op a).2
      decidable_of_iff (ok op c a ∧ AllowedRun step spec ok ops d (spec op a).2)
        ⟨fun h => ⟨h.1, fun _ _ hNext => by
            cases hStep.symm.trans hNext
            exact h.2⟩,
          fun h => ⟨h.1, h.2 reply d hStep⟩⟩

instance {step : Op → σ → Option (Reply × σ)} {spec : Op → α → Reply × α}
    {ok : Op → σ → α → Prop}
    [∀ op c a, Decidable (ok op c a)] (ops : List Op) (c : σ) (a : α) :
    Decidable (AllowedRun step spec ok ops c a) := decideAllowedRun step spec ok ops c a

/-- Steps that are allowed answer as the specification does and keep the
relation between the two states. -/
def Refines (step : Op → σ → Option (Reply × σ)) (spec : Op → α → Reply × α)
    (ok : Op → σ → α → Prop) (rel : σ → α → Prop) : Prop :=
  ∀ op c a, rel c a → ok op c a →
    ∃ d, step op c = some ((spec op a).1, d) ∧ rel d (spec op a).2

variable {step : Op → σ → Option (Reply × σ)} {spec : Op → α → Reply × α}
  {ok : Op → σ → α → Prop} {okSpec : Op → α → Prop} {rel : σ → α → Prop}
    {ops : List Op} {c : σ} {a : α}

/-- A condition on the states of the specification alone. -/
theorem Allowed.run (h : Allowed spec okSpec ops a) :
    AllowedRun step spec (fun op _ a => okSpec op a) ops c a := by
  induction ops generalizing c a with
  | nil => trivial
  | cons op ops ih => exact ⟨h.1, fun _ _ _ => ih h.2⟩

/-- Operations that also meet a condition of their own. -/
theorem Allowed.and_forall {extra : Op → Prop} (h : Allowed spec okSpec ops a)
    (hExtra : ∀ op ∈ ops, extra op) :
    Allowed spec (fun op a => okSpec op a ∧ extra op) ops a := by
  induction ops generalizing a with
  | nil => trivial
  | cons op ops ih =>
    exact ⟨⟨h.1, hExtra op List.mem_cons_self⟩,
      ih h.2 fun other hOther => hExtra other (List.mem_cons_of_mem op hOther)⟩

/-- A run of allowed operations answers as the specification does. -/
theorem Refines.answers (h : Refines step spec ok rel) (hRel : rel c a)
    (hOps : AllowedRun step spec ok ops c a) : ∃ d,
      answers step ops c = some ((specAnswers spec ops a).1, d) ∧
        rel d (specAnswers spec ops a).2 := by
  induction ops generalizing c a with
  | nil => exact ⟨c, rfl, hRel⟩
  | cons op ops ih =>
    obtain ⟨hOp, hRest⟩ := hOps
    obtain ⟨d, hStep, hNext⟩ := h op c a hRel hOp
    obtain ⟨e, hRun, hEnd⟩ := ih hNext (hRest _ d hStep)
    refine ⟨e, ?_, hEnd⟩
    simp only [Library.answers, hStep, hRun, specAnswers, Option.map_some]

/-- When every other operation fails, the runs that answer as the
specification does are those of allowed operations. -/
theorem Refines.answers_iff (h : Refines step spec (fun op _ a => okSpec op a) rel)
    (hFails : ∀ op c a, rel c a → ¬okSpec op a → step op c = none) (hRel : rel c a)
    (ops : List Op) :
    (∃ d, Library.answers step ops c = some ((specAnswers spec ops a).1, d)) ↔
      Allowed spec okSpec ops a := by
  constructor
  · induction ops generalizing c a with
    | nil => exact fun _ => trivial
    | cons op ops ih =>
      rintro ⟨d, hRun⟩
      by_cases hOp : okSpec op a
      · obtain ⟨e, hStep, hNext⟩ := h op c a hRel hOp
        refine ⟨hOp, ih hNext ?_⟩
        simp only [Library.answers, hStep, specAnswers, Option.map_eq_some_iff] at hRun
        obtain ⟨result, hRest, hSame⟩ := hRun
        rw [Prod.mk.injEq, List.cons.injEq] at hSame
        exact ⟨result.2, by rw [hRest, ← hSame.1.2]⟩
      · simp [Library.answers, hFails op c a hRel hOp] at hRun
  · intro hOps
    obtain ⟨d, hRun, _⟩ := h.answers hRel hOps.run
    exact ⟨d, hRun⟩

end

section

variable {Op Reply σ α : Type*}

/-- The operations with the replies of an implementation that always completes. -/
def replies (step : Op → σ → Reply × σ) : List Op → σ → List (Op × Reply) × σ
  | [], c => ([], c)
  | op :: ops, c =>
    let rest := replies step ops (step op c).2
    ((op, (step op c).1) :: rest.1, rest.2)

/-- Replies that a specification allows, which may leave a choice. -/
inductive Answered (spec : Op → Reply → α → α → Prop) :
    List (Op × Reply) → α → α → Prop where
  | nil (a : α) : Answered spec [] a a
  | cons {op : Op} {reply : Reply} {rest : List (Op × Reply)} {a b c : α}
    (hStep : spec op reply a b)
      (hRest : Answered spec rest b c) : Answered spec ((op, reply) :: rest) a c

theorem answered_replies {step : Op → σ → Reply × σ}
    {spec : Op → Reply → α → α → Prop} {view : σ → α}
    {inv : σ → Prop} (hStep : ∀ op c, inv c →
      spec op (step op c).1 (view c) (view (step op c).2) ∧ inv (step op c).2)
    {ops : List Op} {c : σ} (hInv : inv c) :
    Answered spec (replies step ops c).1 (view c) (view (replies step ops c).2) ∧
      inv (replies step ops c).2 := by
  induction ops generalizing c with
  | nil => exact ⟨.nil _, hInv⟩
  | cons op ops ih =>
    obtain ⟨hHere, hNext⟩ := hStep op c hInv
    obtain ⟨hRest, hEnd⟩ := ih hNext
    exact ⟨.cons hHere hRest, hEnd⟩

/-- The operations with the replies of an implementation, if it completes them all. -/
def replied (step : Op → σ → Option (Reply × σ)) :
    List Op → σ → Option (List (Op × Reply) × σ)
  | [], c => some ([], c)
  | op :: ops, c =>
    match step op c with
    | some (reply, d) => (replied step ops d).map fun rest => ((op, reply) :: rest.1, rest.2)
    | none => none

/-- Operations that meet their condition are completed, with replies that the
specification allows. -/
theorem answered_replied {step : Op → σ → Option (Reply × σ)}
    {spec : Op → Reply → α → α → Prop}
    {ok : Op → σ → Prop} {view : σ → α} {inv : σ → Prop}
    (hStep : ∀ op c, inv c → ok op c → ∃ reply d, step op c = some (reply, d) ∧
      spec op reply (view c) (view d) ∧ inv d)
    {ops : List Op} {c : σ} (hInv : inv c)
    (hMeet : CallsMeet (fun op c => (step op c).map Prod.snd) ok ops c) :
    ∃ log d, replied step ops c = some (log, d) ∧
      Answered spec log (view c) (view d) ∧ inv d := by
  induction ops generalizing c with
  | nil => exact ⟨[], c, rfl, .nil _, hInv⟩
  | cons op ops ih =>
    obtain ⟨hOk, hRest⟩ := hMeet
    obtain ⟨reply, d, hNext, hHere, hKept⟩ := hStep op c hInv hOk
    dsimp only at hRest
    rw [hNext] at hRest
    obtain ⟨log, e, hRun, hAnswered, hEnd⟩ := ih hKept hRest
    exact ⟨(op, reply) :: log, e, by simp only [replied, hNext, hRun, Option.map_some],
      .cons hHere hAnswered, hEnd⟩

end

end Library
