import Casprix.Regex.EmitCorrect
import Casprix.Regex.ParserGrammar

/-! What the parser accepts: the patterns of the grammar, but for the ranges that
start at a shorthand. -/
namespace Casprix.Regex

open List Mir

/-- The parser accepts the derivations of the grammar with such ranges let in,
each with its tree. -/
theorem parsePattern_eq_ok_iff (pattern : List Byte) (t : RegexNode) :
    parsePattern pattern = .ok t ↔ Accepts true pattern t := by
  rw [parsePattern, Accepts]
  constructor
  · intro h
    obtain ⟨⟨tree, c⟩, hAlt, hEnd⟩ := bind_eq_ok.mp h
    obtain ⟨w, hReads, hDerives⟩ := (soundAt _).alt hAlt
    dsimp only at hEnd
    split at hEnd
    · cases hEnd
    · next hAll =>
        cases hEnd
        have hLength := congrArg List.length hReads.rest
        have hPos := hReads.pos
        rw [length_append] at hLength
        rw [not_not, hPos, zero_add] at hAll
        have hNone : c.rest = [] := length_eq_zero_iff.mp (by simp only at hLength; omega)
        have hText : cString pattern = w := by
          have hRest := hReads.rest
          rwa [hNone, append_nil] at hRest
        rw [hText]
        exact hDerives
  · intro h
    obtain ⟨fuel', hFuel', hLoop⟩ :=
      h.parses 0 [] (4 * (cString pattern).length + 4) rfl (by simp)
    obtain ⟨k, rfl, _⟩ := exists_fuel hFuel'
    rw [append_nil] at hLoop
    rw [hLoop, parseAltLoop]
    simp [RxCtx.at?, RxCtx.peek, bind, Except.bind]

section

variable {shorthands : Bool} {w rest : List Byte} {single : Option Byte} {S R : Set Byte}
  {n : Nonterminal} {t : RegexNode} {b e : Byte}

theorem isShorthand_eq (e : Byte) : isShorthand e = (shorthand e).isSome := by
  rw [isShorthand, shorthand]
  generalize e.char = char
  split <;> simp_all

-- The equations of the scan, at a byte of each kind.

theorem scan_byte_alone (hClose : b.char ≠ ']') (hBackslash : b.char ≠ '\\')
    (hAlone : ¬RangeAhead rest) :
    hasShorthandRange true (b :: rest) = hasShorthandRange true rest := by
  rw [hasShorthandRange.eq_def]
  simp only [if_neg hClose, if_neg hBackslash]
  rcases rest with _ | ⟨dash, _ | ⟨hi, tail⟩⟩
  · rfl
  · rfl
  · exact if_neg fun hAhead => hAlone ⟨dash, hi, tail, rfl, hAhead⟩

theorem scan_byte_range {dash hi : Byte} (hClose : b.char ≠ ']') (hBackslash : b.char ≠ '\\')
    (hDash : dash.char = '-') (hHi : hi.char ≠ ']') (rest : List Byte) :
    hasShorthandRange true (b :: dash :: hi :: rest) = hasShorthandRange true rest := by
  rw [hasShorthandRange.eq_def]
  simp only [if_neg hClose, if_neg hBackslash]
  exact if_pos ⟨hDash, hHi⟩

theorem ne_close_of_backslash (hBackslash : b.char = '\\') : b.char ≠ ']' := by
  rw [hBackslash]
  decide

theorem scan_escape_alone (hBackslash : b.char = '\\') (hAlone : ¬RangeAhead rest) :
    hasShorthandRange true (b :: e :: rest) = hasShorthandRange true rest := by
  rw [hasShorthandRange.eq_def]
  simp only [if_neg (ne_close_of_backslash hBackslash), if_pos hBackslash]
  rcases rest with _ | ⟨dash, _ | ⟨hi, tail⟩⟩
  · rfl
  · rfl
  · exact if_neg fun hAhead => hAlone ⟨dash, hi, tail, rfl, hAhead⟩

theorem scan_escape_range {dash hi : Byte} (hBackslash : b.char = '\\') (hDash : dash.char = '-')
    (hHi : hi.char ≠ ']') (rest : List Byte) :
    hasShorthandRange true (b :: e :: dash :: hi :: rest) =
      (isShorthand e || hasShorthandRange true rest) := by
  rw [hasShorthandRange.eq_def]
  simp only [if_neg (ne_close_of_backslash hBackslash), if_pos hBackslash]
  exact if_pos ⟨hDash, hHi⟩

theorem scan_open (hLeft : b.char = '[') (rest : List Byte) :
    hasShorthandRange false (b :: e :: rest) =
      if e.char = '^' then hasShorthandRange true rest else hasShorthandRange true (e :: rest) := by
  have hBackslash : b.char ≠ '\\' := by
    rw [hLeft]
    decide
  rw [hasShorthandRange.eq_def]
  simp only [if_neg hBackslash, if_pos hLeft]

theorem scan_skip (hBackslash : b.char ≠ '\\') (hLeft : b.char ≠ '[') (rest : List Byte) :
    hasShorthandRange false (b :: rest) = hasShorthandRange false rest := by
  rw [hasShorthandRange.eq_def]
  simp only [if_neg hBackslash, if_neg hLeft]

theorem scan_escaped (hBackslash : b.char = '\\') (rest : List Byte) :
    hasShorthandRange false (b :: e :: rest) = hasShorthandRange false rest := by
  rw [hasShorthandRange.eq_def]
  simp only [if_pos hBackslash]

theorem Escape.bytes (h : Escape w single S) :
    ∃ backslash e, w = [backslash, e] ∧ backslash.char = '\\' ∧
      single.isNone = isShorthand e := by
  cases h with
  | @shorthand backslash e _ hBackslash hSet | @single backslash e _ hBackslash hSet _ =>
    refine ⟨backslash, e, rfl, hBackslash, ?_⟩
    rw [isShorthand_eq, hSet]
    rfl

theorem Member.scan_alone (h : Member w single S) (hAlone : ¬RangeAhead rest) :
    hasShorthandRange true (w ++ rest) = hasShorthandRange true rest := by
  cases h with
  | byte hBackslash hClose => exact scan_byte_alone hClose hBackslash hAlone
  | escape h =>
    obtain ⟨backslash, e, rfl, hBackslash, _⟩ := h.bytes
    exact scan_escape_alone hBackslash hAlone

theorem Member.scan_range {dash hi : Byte} (h : Member w single S) (hDash : dash.char = '-')
    (hClose : hi.char ≠ ']') (rest : List Byte) :
    hasShorthandRange true (w ++ dash :: hi :: rest) =
      (single.isNone || hasShorthandRange true rest) := by
  cases h with
  | byte hBackslash hOpen => exact scan_byte_range hOpen hBackslash hDash hClose rest
  | escape h =>
    obtain ⟨backslash, e, rfl, hBackslash, hNone⟩ := h.bytes
    rw [hNone]
    exact scan_escape_range hBackslash hDash hClose rest

/-- How the ranges of a text at a shorthand are found, and that the text is
derived without them when there is none. -/
theorem ClassBody.scan {right : Byte} (h : ClassBody shorthands w R) (hRight : right.char = ']') :
    ∃ u, (∀ rest, hasShorthandRange true (w ++ right :: rest) =
      (u || hasShorthandRange false rest)) ∧
      (u = false → ClassBody false w R) ∧ (shorthands = false → u = false) := by
  induction h with
  | nil =>
    refine ⟨false, fun rest => ?_, fun _ => .nil, fun _ => rfl⟩
    rw [nil_append, scan_close hRight, Bool.false_or]
  | member hMember hAlone _ ih =>
    obtain ⟨u, hScan, hStrict, hFlag⟩ := ih
    refine ⟨u, fun rest => ?_, fun hNone => .member hMember hAlone (hStrict hNone), hFlag⟩
    rw [append_assoc, hMember.scan_alone (not_rangeAhead_append hRight hAlone), hScan]
  | @range w tail single S R lo dash hi hMember hStart hDash hClose hBackslash hLe _ ih =>
    obtain ⟨u, hScan, hStrict, hFlag⟩ := ih
    refine ⟨single.isNone || u, fun rest => ?_, fun hNone => ?_, fun hShorthands => ?_⟩
    · rw [append_assoc, cons_append, cons_append, hMember.scan_range hDash hClose, hScan,
        Bool.or_assoc]
    · rw [Bool.or_eq_false_iff] at hNone
      refine .range hMember (Or.inl ?_) hDash hClose hBackslash hLe (hStrict hNone.2)
      cases single with
      | none => cases hNone.1
      | some b =>
        have hLo := (hStart.least hMember).1
        rw [hMember.single_eq] at hLo
        exact congrArg some (Set.mem_singleton_iff.mp hLo).symm
    · rcases hStart with hSingle | hLeast
      · rw [hSingle, hFlag hShorthands]
        rfl
      · rw [hShorthands] at hLeast
        cases hLeast.1

theorem ClassText.scan {left right : Byte} (h : ClassText shorthands w S) (hLeft : left.char = '[')
    (hRight : right.char = ']') :
    ∃ u, (∀ rest, hasShorthandRange false
      (left :: (w ++ right :: rest)) = (u || hasShorthandRange false rest)) ∧
      (u = false → ClassText false w S) ∧ (shorthands = false → u = false) := by
  cases h with
  | plain hFirst body =>
    obtain ⟨u, hScan, hStrict, hFlag⟩ := body.scan hRight
    refine ⟨u, fun rest => ?_, fun hNone => .plain hFirst (hStrict hNone), hFlag⟩
    rw [← hScan]
    cases w with
    | nil =>
      have hCaret : right.char ≠ '^' := by
        rw [hRight]
        decide
      rw [nil_append, scan_open hLeft, if_neg hCaret]
    | cons c w =>
      rw [cons_append, scan_open hLeft, if_neg fun hCaret => hFirst (congrArg some hCaret)]
  | @negated caret w S hCaret body =>
    obtain ⟨u, hScan, hStrict, hFlag⟩ := body.scan hRight
    refine ⟨u, fun rest => ?_, fun hNone => .negated hCaret (hStrict hNone), hFlag⟩
    rw [← hScan, cons_append, scan_open hLeft, if_pos hCaret]

/-- What a derivation adds to the scan, and that it goes without ranges at a
shorthand when the scan finds none. -/
def ScansAs (shorthands : Bool) (n : Nonterminal) (w : List Byte) (t : RegexNode) : Prop :=
  ∃ u, (∀ rest, hasShorthandRange false (w ++ rest) = (u || hasShorthandRange false rest)) ∧
    (u = false → Derives false n w t) ∧ (shorthands = false → u = false)

theorem scansAs_plain (hScan : ∀ rest, hasShorthandRange false (w ++ rest) =
    hasShorthandRange false rest)
    (h : Derives false n w t) : ScansAs shorthands n w t :=
  ⟨false, hScan, fun _ => h, fun _ => rfl⟩

theorem ScansAs.imp {n' : Nonterminal} {t' : RegexNode} (h : ScansAs shorthands n w t)
    (hDerives : Derives false n w t → Derives false n' w t') : ScansAs shorthands n' w t' := by
  obtain ⟨u, hScan, hStrict, hFlag⟩ := h
  exact ⟨u, hScan, fun hNone => hDerives (hStrict hNone), hFlag⟩

theorem ScansAs.quantified {t' : RegexNode} {q : Byte} (h : ScansAs shorthands .atom w t)
    (hQuant : q.char ∈ ['*', '+', '?'])
    (hDerives : Derives false .atom w t → Derives false .atomQuant (w ++ [q]) t') :
    ScansAs shorthands .atomQuant (w ++ [q]) t' := by
  obtain ⟨u, hScan, hStrict, hFlag⟩ := h
  refine ⟨u, fun rest => ?_, fun hNone => hDerives (hStrict hNone), hFlag⟩
  have hSkip : hasShorthandRange false (q :: rest) = hasShorthandRange false rest := by
    apply scan_skip
    · intro hSame
      rw [hSame] at hQuant
      exact absurd hQuant (by decide)
    · intro hSame
      rw [hSame] at hQuant
      exact absurd hQuant (by decide)
  rw [append_assoc, singleton_append, hScan, hSkip]

theorem Derives.scans (h : Derives shorthands n w t) : ScansAs shorthands n w t := by
  induction h with
  | altOne _ ih => exact ih.imp .altOne
  | @altMore w w' t t' bar hBar _ _ ih ih' =>
    obtain ⟨u, hScan, hStrict, hFlag⟩ := ih
    obtain ⟨u', hScan', hStrict', hFlag'⟩ := ih'
    refine ⟨u || u', fun rest => ?_, fun hNone => ?_, fun hShorthands => ?_⟩
    · rw [append_assoc, cons_append, hScan,
        scan_skip (by rw [hBar]; decide) (by rw [hBar]; decide),
        hScan', Bool.or_assoc]
    · rw [Bool.or_eq_false_iff] at hNone
      exact .altMore hBar (hStrict hNone.1) (hStrict' hNone.2)
    · rw [hFlag hShorthands, hFlag' hShorthands]
      rfl
  | concatNone => exact scansAs_plain (fun _ => rfl) .concatNone
  | concatOne _ ih => exact ih.imp .concatOne
  | @concatMore w w' t t' hSome _ _ ih ih' =>
    obtain ⟨u, hScan, hStrict, hFlag⟩ := ih
    obtain ⟨u', hScan', hStrict', hFlag'⟩ := ih'
    refine ⟨u || u', fun rest => ?_, fun hNone => ?_, fun hShorthands => ?_⟩
    · rw [append_assoc, hScan, hScan', Bool.or_assoc]
    · rw [Bool.or_eq_false_iff] at hNone
      exact .concatMore hSome (hStrict hNone.1) (hStrict' hNone.2)
    · rw [hFlag hShorthands, hFlag' hShorthands]
      rfl
  | once _ ih => exact ih.imp .once
  | star hQuant _ ih => exact ih.quantified (by rw [hQuant]; decide) (.star hQuant)
  | plus hQuant _ ih => exact ih.quantified (by rw [hQuant]; decide) (.plus hQuant)
  | opt hQuant _ ih => exact ih.quantified (by rw [hQuant]; decide) (.opt hQuant)
  | @group w t left right hLeft hRight _ ih =>
    obtain ⟨u, hScan, hStrict, hFlag⟩ := ih
    refine ⟨u, fun rest => ?_, fun hNone => .group hLeft hRight (hStrict hNone), hFlag⟩
    rw [cons_append, append_assoc, singleton_append,
      scan_skip (by rw [hLeft]; decide) (by rw [hLeft]; decide), hScan,
      scan_skip (by rw [hRight]; decide) (by rw [hRight]; decide)]
  | @byteClass w S cls left right hLeft hRight text hSet =>
    obtain ⟨u, hScan, hStrict, hFlag⟩ := text.scan hLeft hRight
    refine ⟨u, fun rest => ?_, fun hNone => .byteClass hLeft hRight (hStrict hNone) hSet, hFlag⟩
    rw [cons_append, append_assoc, singleton_append, hScan]
  | @dot b cls hDot hSet =>
    exact scansAs_plain (scan_skip (by rw [hDot]; decide) (by rw [hDot]; decide)) (.dot hDot hSet)
  | escape h hSet =>
    obtain ⟨backslash, e, rfl, hBackslash, _⟩ := h.bytes
    exact scansAs_plain (scan_escaped hBackslash) (.escape h hSet)
  | @literal b cls hPlain hSet =>
    rw [isMeta, decide_eq_false_iff_not] at hPlain
    simp only [mem_cons, not_or] at hPlain
    refine scansAs_plain (scan_skip hPlain.2.2.2.1 hPlain.2.1) (.literal ?_ hSet)
    simp [isMeta, hPlain]

theorem ClassBody.mono (h : ClassBody false w R) : ClassBody true w R := by
  induction h with
  | nil => exact .nil
  | member hMember hAlone _ ih => exact .member hMember hAlone ih
  | range hMember hStart hDash hClose hBackslash hLe _ ih =>
    exact .range hMember ((rangeStart_true_iff hMember).mpr (hStart.least hMember)) hDash
      hClose hBackslash hLe ih

theorem ClassText.mono (h : ClassText false w S) : ClassText true w S := by
  cases h with
  | plain hFirst body => exact .plain hFirst body.mono
  | negated hCaret body => exact .negated hCaret body.mono

theorem Derives.mono (h : Derives false n w t) : Derives true n w t := by
  induction h with
  | altOne _ ih => exact .altOne ih
  | altMore hBar _ _ ih ih' => exact .altMore hBar ih ih'
  | concatNone => exact .concatNone
  | concatOne _ ih => exact .concatOne ih
  | concatMore hSome _ _ ih ih' => exact .concatMore hSome ih ih'
  | once _ ih => exact .once ih
  | star hQuant _ ih => exact .star hQuant ih
  | plus hQuant _ ih => exact .plus hQuant ih
  | opt hQuant _ ih => exact .opt hQuant ih
  | group hLeft hRight _ ih => exact .group hLeft hRight ih
  | byteClass hLeft hRight text hSet => exact .byteClass hLeft hRight text.mono hSet
  | dot hDot hSet => exact .dot hDot hSet
  | escape h hSet => exact .escape h hSet
  | literal hPlain hSet => exact .literal hPlain hSet

/-- A derivation goes without such ranges exactly when the scan of its text finds none. -/
theorem derives_false_iff :
    Derives false n w t ↔ Derives true n w t ∧ hasShorthandRange false w = false := by
  constructor
  · intro h
    obtain ⟨u, hScan, _, hFlag⟩ := h.scans
    have hText := hScan []
    rw [append_nil, hFlag rfl] at hText
    exact ⟨h.mono, hText⟩
  · rintro ⟨h, hNone⟩
    obtain ⟨u, hScan, hStrict, _⟩ := h.scans
    have hText := hScan []
    rw [append_nil, hNone] at hText
    exact hStrict (Bool.or_eq_false_iff.mp hText.symm).1

end

/-- The parser accepts exactly the patterns of the grammar, whole and each with
its tree, and explains every rejection: exactly for the patterns that do not
have, in a class that is otherwise well formed, a range that starts at a shorthand. -/
theorem parsePattern_grammar_iff (pattern : List Byte) :
    ((∀ t, parsePattern pattern = .ok t ↔ Accepts false pattern t) ∧
      parsePattern pattern ≠ .error none) ↔
    ¬(hasShorthandRange false (cString pattern) = true ∧ ∃ t, Accepts true pattern t) := by
  constructor
  · rintro ⟨hGrammar, _⟩ ⟨hShorthand, t, hAccepts⟩
    have hStrict := (hGrammar t).mp ((parsePattern_eq_ok_iff pattern t).mpr hAccepts)
    rw [(derives_false_iff.mp hStrict).2] at hShorthand
    cases hShorthand
  · intro h
    refine ⟨fun t => ?_, parsePattern_error_ne_none pattern⟩
    rw [parsePattern_eq_ok_iff, Accepts, Accepts, derives_false_iff]
    refine ⟨fun hAccepts => ⟨hAccepts, ?_⟩, fun hAccepts => hAccepts.1⟩
    rw [Bool.eq_false_iff]
    exact fun hShorthand => h ⟨hShorthand, t, hAccepts⟩

/-- The class from the digits to `x` is accepted. -/
theorem parsePattern_accepts_shorthand_range :
    ¬∀ pattern : List Byte, (∀ t, parsePattern pattern = .ok t ↔ Accepts false pattern t) ∧
      parsePattern pattern ≠ .error none := by
  intro h
  have hOk : (parsePattern [91, 92, 100, 45, 120, 93]).isOk = true := by decide +kernel
  cases hParse : parsePattern [91, 92, 100, 45, 120, 93] with
  | error err =>
    rw [hParse] at hOk
    cases hOk
  | ok t =>
    have hStrict := ((h [91, 92, 100, 45, 120, 93]).1 t).mp hParse
    have hNone := (derives_false_iff.mp hStrict).2
    exact absurd hNone (by decide +kernel)

/-- From the grammar to the machine: the matcher of a pattern returns whether the input is in the
language that the pattern stands for. -/
theorem mirRegexCompile_decides (module : MirModule) (funcName : String) {pattern : List Byte}
    {tree : RegexNode} (hAccepts : Accepts false pattern tree) {input : List Byte}
    (beyond : List (Option MirValue)) (hLen : input.length < 2 ^ 63) :
    ∃ func st answer, (mirRegexCompile module funcName pattern).1.func = some func ∧
      Steps func (startConfig func [.ptr 0 0,
        .word (BitVec.ofNat 64 input.length)] [inputObject input beyond])
        (.returned (some (.word (if answer then 1 else 0))) st) ∧
      (answer = true ↔ input ∈ tree.language) := by
  have hParse := (parsePattern_eq_ok_iff pattern tree).mpr (derives_false_iff.mp hAccepts).1
  have hWell := wellFormed_nfaToDfa tree
  have hStates : 0 < (buildNfa tree).states.length := by
    rw [length_buildNfa_states]
    exact Nat.succ_pos _
  obtain ⟨q, st, _, hSteps⟩ := steps_call beyond hWell (layout_emitMir funcName hWell) hLen
  refine ⟨_, st, _, by simp only [mirRegexCompile, hParse], hSteps, ?_⟩
  rw [run_nfaToDfa_iff (closed_buildNfa tree) hStates, accepts_automaton_buildNfa]

/-- The pattern `a*`. -/
theorem mirRegexCompile_decides_star : ∃ func st answer,
    (mirRegexCompile {} "m" [97, 42]).1.func = some func ∧
      Steps func (startConfig func [.ptr 0 0, .word 2] [inputObject [97, 98] []])
        (.returned (some (.word (if answer then 1 else 0))) st) ∧
      (answer = true ↔ [97, 98] ∈
        (RegexNode.star (.byteClass (ByteSet.clear.add 97))).language) :=
  mirRegexCompile_decides {} "m" (derives_false_iff.mpr
    ⟨(parsePattern_eq_ok_iff [97, 42] _).mp (by decide), by decide⟩) [] (by decide)

end Casprix.Regex
