import Casprix.Regex.Grammar

/-! The parser against the grammar: what it accepts is derived, with the tree
it builds, and what is derived it accepts. -/
namespace Casprix.Regex

open List Option

/-- From `c` the text `w` is read, up to `d`. -/
structure Reads (c d : RxCtx) (w : List Byte) : Prop where
  rest : c.rest = w ++ d.rest
  pos : d.pos = c.pos + w.length

section

variable {c d e : RxCtx} {w w' : List Byte} {b : Byte} {ch : Char}

theorem Reads.refl (c : RxCtx) : Reads c c [] := ⟨rfl, rfl⟩

theorem Reads.trans (h : Reads c d w) (h' : Reads d e w') : Reads c e (w ++ w') := by
  refine ⟨by rw [h.rest, h'.rest, append_assoc], ?_⟩
  rw [h'.pos, h.pos, length_append, add_assoc]

theorem reads_skip (h : c.peek = some b) : Reads c c.skip [b] := by
  obtain ⟨pos, rest⟩ := c
  cases rest with
  | nil => cases h
  | cons first rest =>
    obtain rfl := Option.some.inj h
    exact ⟨rfl, rfl⟩

theorem at?_iff : c.at? ch = true ↔ ∃ b, c.peek = some b ∧ b.char = ch := by
  rw [RxCtx.at?, beq_iff_eq, map_eq_some_iff]

end

section

variable {c d : RxCtx} {w rest : List Byte} {single : Option Byte}
  {S T R : Set Byte} {e b backslash : Byte}
  {out out' elem elem' cls cls' : ByteSet} {pos escPos here start fuel : Nat} {shorthands : Bool}

theorem parseEscapeInto_cons (e : Byte) (rest : List Byte) (pos escPos : Nat)
    (hOut : Denotes out T) :
    (∃ S out', shorthand e = some S ∧
      parseEscapeInto ⟨pos, e :: rest⟩ escPos out = .ok (out', ⟨pos + 1, rest⟩) ∧
        Denotes out' (T ∪ S)) ∨
    (∃ b, shorthand e = none ∧ escaped e = some b ∧
      parseEscapeInto ⟨pos, e :: rest⟩ escPos out = .ok (out.add b, ⟨pos + 1, rest⟩)) ∨
    (shorthand e = none ∧ escaped e = none ∧
      ∃ err, parseEscapeInto ⟨pos, e :: rest⟩ escPos out = .error err) := by
  simp only [parseEscapeInto, RxCtx.peek, head?_cons, RxCtx.skip, shorthand, escaped]
  generalize e.char = char
  split
  · exact .inl ⟨_, _, rfl, rfl, hOut.addSet denotes_digitClass⟩
  · exact .inl ⟨_, _, rfl, rfl, hOut.addSet denotes_digitClass.invert⟩
  · exact .inl ⟨_, _, rfl, rfl, hOut.addSet denotes_wordClass⟩
  · exact .inl ⟨_, _, rfl, rfl, hOut.addSet denotes_wordClass.invert⟩
  · exact .inl ⟨_, _, rfl, rfl, hOut.addSet denotes_spaceClass⟩
  · exact .inl ⟨_, _, rfl, rfl, hOut.addSet denotes_spaceClass.invert⟩
  · refine .inr ?_
    split
    · exact .inl ⟨_, rfl, rfl, rfl⟩
    · exact .inl ⟨_, rfl, rfl, rfl⟩
    · exact .inl ⟨_, rfl, rfl, rfl⟩
    · exact .inl ⟨_, rfl, rfl, rfl⟩
    · exact .inl ⟨_, rfl, rfl, rfl⟩
    · exact .inl ⟨_, rfl, rfl, rfl⟩
    · by_cases hPrintable : (0x20 ≤ e ∧ e < 0x7f) ∨ char = '\t'
      · refine .inl ⟨e, rfl, if_pos hPrintable, ?_⟩
        split <;> first | contradiction | exact if_pos hPrintable
      · refine .inr ⟨rfl, if_neg hPrintable, ?_⟩
        split <;> first | contradiction | exact ⟨_, if_neg hPrintable⟩

theorem escape_of_parseEscapeInto (hOut : Denotes out T) (hBackslash : backslash.char = '\\')
    (h : parseEscapeInto c escPos out = .ok (out', d)) :
    ∃ e single S, Reads c d [e] ∧ Escape [backslash, e] single S ∧
      Denotes out' (T ∪ S) := by
  obtain ⟨pos, rest⟩ := c
  cases rest with
  | nil => cases h
  | cons e rest =>
    rcases parseEscapeInto_cons e rest pos escPos hOut with
      ⟨S, out'', hSet, hParse, hDenotes⟩ |
        ⟨b, hNone, hByte, hParse⟩ | ⟨_, _, err, hParse⟩
    · rw [hParse] at h
      cases h
      exact ⟨e, none, S, ⟨rfl, rfl⟩, .shorthand hBackslash hSet, hDenotes⟩
    · rw [hParse] at h
      cases h
      exact ⟨e, some b, {b}, ⟨rfl, rfl⟩, .single hBackslash hNone hByte, hOut.add b⟩
    · rw [hParse] at h
      cases h

theorem Escape.parses (h : Escape (backslash :: w) single S)
    (hOut : Denotes out T) (rest : List Byte) (pos escPos : Nat) :
    backslash.char = '\\' ∧ ∃ out', parseEscapeInto ⟨pos, w ++ rest⟩ escPos out =
      .ok (out', ⟨pos + 1, rest⟩) ∧
      w.length = 1 ∧ Denotes out' (T ∪ S) := by
  cases h with
  | @shorthand _ e _ hBackslash hSet =>
    refine ⟨hBackslash, ?_⟩
    rcases parseEscapeInto_cons e rest pos escPos hOut with
      ⟨S', out', hSet', hParse, hDenotes⟩ | ⟨_, hNone, _⟩ | ⟨hNone, _⟩
    · obtain rfl := Option.some.inj (hSet.symm.trans hSet')
      exact ⟨out', hParse, rfl, hDenotes⟩
    · cases hSet.symm.trans hNone
    · cases hSet.symm.trans hNone
  | @single _ e b hBackslash hNone hByte =>
    refine ⟨hBackslash, ?_⟩
    rcases parseEscapeInto_cons e rest pos escPos hOut with
      ⟨_, _, hSet, _⟩ | ⟨b', _, hByte', hParse⟩ | ⟨_, hNoByte, _⟩
    · cases hNone.symm.trans hSet
    · obtain rfl := Option.some.inj (hByte.symm.trans hByte')
      exact ⟨_, hParse, rfl, hOut.add b⟩
    · cases hByte.symm.trans hNoByte

theorem Member.first (h : Member w single S) : ∃ b tail, w = b :: tail ∧ b.char ≠ ']' := by
  cases h with
  | byte _ hClose => exact ⟨_, [], rfl, hClose⟩
  | escape h =>
    have hNot : ∀ {b : Byte}, b.char = '\\' → b.char ≠ ']' := fun hSlash => by
      rw [hSlash]
      decide
    cases h with
    | shorthand hBackslash _ => exact ⟨_, _, rfl, hNot hBackslash⟩
    | single hBackslash _ _ => exact ⟨_, _, rfl, hNot hBackslash⟩

theorem member_of_parseElement (hPeek : c.peek = some b) (hClose : b.char ≠ ']')
    (h : parseElement c b = .ok (elem, d)) :
    ∃ w single S, Reads c d w ∧ Member w single S ∧ Denotes elem S := by
  have hSkip := reads_skip hPeek
  rw [parseElement] at h
  split at h
  · next hBackslash =>
      obtain ⟨e, single, S, hReads, hEscape, hDenotes⟩ :=
  escape_of_parseEscapeInto denotes_clear hBackslash h
      rw [Set.empty_union] at hDenotes
      exact ⟨_, single, S, hSkip.trans hReads, .escape hEscape, hDenotes⟩
  · next hBackslash =>
      cases h
      exact ⟨[b], some b, {b}, hSkip, .byte hBackslash hClose, denotes_singleton b⟩

theorem Member.parses (h : Member (b :: w) single S) (rest : List Byte) (pos : Nat) :
    ∃ elem, parseElement ⟨pos, b :: w ++ rest⟩ b =
      .ok (elem, ⟨pos + (b :: w).length, rest⟩) ∧ Denotes elem S := by
  cases h with
  | byte hBackslash hClose =>
    rw [parseElement, if_neg hBackslash]
    exact ⟨_, rfl, denotes_singleton b⟩
  | escape h =>
    obtain ⟨hBackslash, out', hParse, hLength, hDenotes⟩ :=
      h.parses denotes_clear rest (pos + 1) pos
    rw [Set.empty_union] at hDenotes
    rw [parseElement, if_pos hBackslash, length_cons, hLength]
    exact ⟨out', hParse, hDenotes⟩

theorem Member.single_eq (h : Member w (some b) S) : S = {b} := by
  cases h with
  | byte _ _ => rfl
  | escape h =>
    cases h
    rfl

/-- With shorthands let in, a range starts at the least byte of what stands before the dash. -/
theorem rangeStart_true_iff (h : Member w single S) :
    RangeStart true single S b ↔ b ∈ S ∧ ∀ b' ∈ S, b ≤ b' := by
  constructor
  · rintro (rfl | ⟨_, hLeast⟩)
    · rw [h.single_eq]
      refine ⟨rfl, fun b' hMem => ?_⟩
      rw [Set.mem_singleton_iff.mp hMem]
      exact UInt8.le_refl b
    · exact hLeast
  · exact fun hLeast => .inr ⟨rfl, hLeast⟩

theorem RangeStart.least (h : RangeStart shorthands single S b) (hMember : Member w single S) :
    b ∈ S ∧ ∀ b' ∈ S, b ≤ b' := by
  rw [← rangeStart_true_iff hMember]
  exact h.imp_right fun hLeast => ⟨rfl, hLeast.2⟩

/-- What the parser makes of a member and of what follows it. -/
theorem parseRange_cases (hMember : Member w single S) (hElem : Denotes elem S)
    (h : parseRange c here elem = .ok (elem', d)) :
    (¬RangeAhead c.rest ∧ d = c ∧ elem' = elem) ∨
    ∃ dash hi lo, Reads c d [dash, hi] ∧ RangeStart true single S lo ∧ dash.char =
      '-' ∧ hi.char ≠ ']' ∧
      hi.char ≠ '\\' ∧ lo ≤ hi ∧ Denotes elem' (byteRange lo hi) := by
  obtain ⟨pos, text⟩ := c
  rw [parseRange] at h
  split at h
  · next dash hi rest hRest =>
      obtain rfl : text = dash :: hi :: rest := hRest
      split at h
      · next hAhead =>
          split at h
          · cases hEscape : parseEscapeInto (RxCtx.skip
            (RxCtx.skip ⟨pos, dash :: hi :: rest⟩)) (pos + 1) .clear with
            | error err => simp [hEscape, bind, Except.bind] at h
            | ok result => simp [hEscape, bind, Except.bind, setErr] at h
          · next hBackslash =>
              cases hLeast : elem.least? with
              | none => simp [hLeast, setErr] at h
              | some lo =>
                simp only [hLeast] at h
                split at h
                · cases h
                · next hLe =>
                    cases h
                    refine .inr ⟨dash, hi, lo, ⟨rfl, rfl⟩, ?_, hAhead.1, hAhead.2, hBackslash,
                      UInt8.not_lt.mp hLe, ?_⟩
                    · exact (rangeStart_true_iff hMember).mpr
                        ((least?_eq_some_iff hElem).mp hLeast)
                    · have hRange := denotes_clear.addRange lo hi
                      rwa [Set.empty_union] at hRange
      · next hNotAhead =>
          cases h
          refine .inl ⟨?_, rfl, rfl⟩
          rintro ⟨dash', hi', rest', hSame, hDash, hClose⟩
          cases hSame
          exact hNotAhead ⟨hDash, hClose⟩
  · next hShort =>
      cases h
      refine .inl ⟨?_, rfl, rfl⟩
      rintro ⟨dash, hi, rest, hSame, _⟩
      exact hShort _ _ _ hSame

theorem parseRange_alone (hAlone : ¬RangeAhead c.rest) :
    parseRange c here elem = .ok (elem, c) := by
  obtain ⟨pos, text⟩ := c
  rw [parseRange]
  split
  · next dash hi rest hRest =>
      rw [if_neg]
      exact fun hAhead => hAlone ⟨dash, hi, rest, hRest, hAhead⟩
  · rfl

theorem parseRange_range {dash lo hi : Byte} (hElem : Denotes elem S)
    (hLeast : lo ∈ S ∧ ∀ b ∈ S, lo ≤ b)
    (hDash : dash.char = '-') (hClose : hi.char ≠ ']')
    (hBackslash : hi.char ≠ '\\') (hLe : lo ≤ hi) (rest : List Byte) (pos here : Nat) :
    ∃ elem', parseRange ⟨pos, dash :: hi :: rest⟩ here elem =
      .ok (elem', ⟨pos + 2, rest⟩) ∧
      Denotes elem' (byteRange lo hi) := by
  have hRange := denotes_clear.addRange lo hi
  rw [Set.empty_union] at hRange
  refine ⟨_, ?_, hRange⟩
  rw [parseRange]
  simp only [hDash, hClose, hBackslash, ne_eq, not_false_eq_true, and_self, if_true, if_false,
    (least?_eq_some_iff hElem).mpr hLeast, if_neg (UInt8.not_lt.mpr hLe)]
  rfl

/-- The text between the brackets, without the caret. -/
theorem classBody_of_parseClassLoop (hCls : Denotes cls T)
    (h : parseClassLoop start fuel cls c = .ok (cls', d)) :
    ∃ w R, Reads c d w ∧ ClassBody true w R ∧
      Denotes cls' (T ∪ R) ∧ d.at? ']' = true := by
  induction fuel generalizing cls T c with
  | zero => cases h
  | succ fuel ih =>
    rw [parseClassLoop] at h
    split at h
    · next hClose =>
        cases h
        refine ⟨[], ∅, .refl _, .nil, ?_, hClose⟩
        rwa [Set.union_empty]
    · next hOpen =>
        cases hPeek : c.peek with
        | none => simp [hPeek, setErr] at h
        | some b =>
          have hByte : b.char ≠ ']' := fun hSame => hOpen (at?_iff.mpr ⟨b, hPeek, hSame⟩)
          simp only [hPeek] at h
          cases hElement : parseElement c b with
          | error err => simp [hElement, bind, Except.bind] at h
          | ok first =>
            obtain ⟨elem, mid⟩ := first
            simp only [hElement, bind, Except.bind] at h
            cases hRange : parseRange mid c.pos elem with
            | error err => simp [hRange] at h
            | ok second =>
              obtain ⟨elem', next⟩ := second
              simp only [hRange] at h
              obtain ⟨w, single, S, hReads, hMember, hElem⟩ :=
                member_of_parseElement hPeek hByte hElement
              rcases parseRange_cases hMember hElem hRange with
                ⟨hAlone, rfl, rfl⟩ | ⟨dash, hi, lo, hDashes, hStart, hDash,
                  hClose, hBackslash, hLe, hSet⟩
              · obtain ⟨rest, R, hRest, hBody, hDenotes, hEnd⟩ := ih (hCls.addSet hElem) h
                refine ⟨w ++ rest, S ∪ R, hReads.trans hRest,
                  .member hMember ?_ hBody, ?_, hEnd⟩
                · rintro ⟨dash, hi, tail, rfl, hAhead⟩
                  exact hAlone ⟨dash, hi, tail ++ d.rest, hRest.rest, hAhead⟩
                · rwa [← Set.union_assoc]
              · obtain ⟨rest, R, hRest, hBody, hDenotes, hEnd⟩ := ih (hCls.addSet hSet) h
                refine ⟨w ++ dash :: hi :: rest, byteRange lo hi ∪ R,
                  hReads.trans (hDashes.trans hRest),
                  .range hMember hStart hDash hClose hBackslash hLe hBody, ?_, hEnd⟩
                rwa [← Set.union_assoc]

theorem parseClassLoop_step {mid : RxCtx} (hPeek : c.peek = some b) (hClose : b.char ≠ ']')
    (hElement : parseElement c b = .ok (elem, mid))
    (hRange : parseRange mid c.pos elem = .ok (elem', d)) :
    parseClassLoop start (fuel + 1) cls c = parseClassLoop start fuel (cls.addSet elem') d := by
  have hOpen : ¬c.at? ']' = true := by
    rw [at?_iff]
    rintro ⟨b', hPeek', hSame⟩
    rw [hPeek, Option.some.injEq] at hPeek'
    exact hClose (hPeek' ▸ hSame)
  rw [parseClassLoop, if_neg hOpen]
  simp only [hPeek, hElement, hRange, bind, Except.bind]

theorem not_rangeAhead_append {right : Byte} (hRight : right.char = ']') (h : ¬RangeAhead w) :
    ¬RangeAhead (w ++ right :: rest) := by
  rintro ⟨dash, hi, tail, hSame, hDash, hClose⟩
  rcases w with _ | ⟨first, _ | ⟨second, more⟩⟩
  · cases hSame
    rw [hRight] at hDash
    cases hDash
  · cases hSame
    exact hClose hRight
  · cases hSame
    exact h ⟨_, _, _, rfl, hDash, hClose⟩

/-- The loop reads what stands between the brackets, and stops at the closing one. -/
theorem ClassBody.parses {right : Byte} (h : ClassBody shorthands w R) (hRight : right.char = ']')
    (hCls : Denotes cls T) (hFuel : w.length < fuel) :
    ∃ cls', parseClassLoop start fuel cls ⟨pos, w ++ right :: rest⟩ =
        .ok (cls', ⟨pos + w.length, right :: rest⟩) ∧ Denotes cls' (T ∪ R) := by
  induction h generalizing cls T pos fuel with
  | nil =>
    obtain ⟨fuel, rfl⟩ := Nat.exists_eq_succ_of_ne_zero hFuel.ne'
    refine ⟨cls, ?_, by rwa [Set.union_empty]⟩
    rw [parseClassLoop, if_pos (at?_iff.mpr ⟨right, rfl, hRight⟩)]
    rfl
  | @member w tail single S R hMember hAlone body ih =>
    obtain ⟨b, more, rfl, hClose⟩ := hMember.first
    obtain ⟨fuel, rfl⟩ := Nat.exists_eq_succ_of_ne_zero ((Nat.zero_lt_of_lt hFuel).ne')
    rw [length_append, length_cons] at hFuel
    obtain ⟨elem, hElement, hElem⟩ := hMember.parses (tail ++ right :: rest) pos
    have hRange : parseRange ⟨pos + (b :: more).length, tail ++ right :: rest⟩ pos elem =
        .ok (elem, _) :=
      parseRange_alone (not_rangeAhead_append hRight hAlone)
    have hRest : tail.length < fuel := by omega
    obtain ⟨cls', hLoop, hDenotes⟩ := ih (hCls.addSet hElem) hRest
    refine ⟨cls', ?_, by rwa [← Set.union_assoc]⟩
    rw [append_assoc, length_append, ← add_assoc, ← hLoop]
    exact parseClassLoop_step rfl hClose hElement hRange
  | @range w tail single S R lo dash hi hMember hStart hDash hClose' hBackslash hLe body ih =>
    obtain ⟨b, more, rfl, hClose⟩ := hMember.first
    obtain ⟨fuel, rfl⟩ := Nat.exists_eq_succ_of_ne_zero ((Nat.zero_lt_of_lt hFuel).ne')
    rw [length_append, length_cons, length_cons, length_cons] at hFuel
    obtain ⟨elem, hElement, hElem⟩ := hMember.parses (dash :: hi :: (tail ++ right :: rest)) pos
    obtain ⟨elem', hRange, hElem'⟩ :=
      parseRange_range hElem (hStart.least hMember) hDash hClose' hBackslash
      hLe (tail ++ right :: rest) (pos + (b :: more).length) pos
    have hRest : tail.length < fuel := by omega
    obtain ⟨cls', hLoop, hDenotes⟩ := ih (hCls.addSet hElem') hRest
    refine ⟨cls', ?_, by rwa [← Set.union_assoc]⟩
    have hPos : pos + (b :: more ++ dash :: hi :: tail).length =
        pos + (b :: more).length + 2 + tail.length := by
      simp
      omega
    rw [append_assoc, hPos, ← hLoop]
    exact parseClassLoop_step rfl hClose hElement hRange

/-- A class that is accepted is one of the grammar. -/
theorem classText_of_parseClass {t : RegexNode} (h : parseClass c = .ok (t, d)) :
    ∃ w S cls right, Reads c d (w ++ [right]) ∧ right.char = ']' ∧
      ClassText true w S ∧ Denotes cls S ∧
      t = .byteClass cls := by
  rw [parseClass] at h
  by_cases hNegate : c.at? '^' = true
  · obtain ⟨caret, hPeek, hCaret⟩ := at?_iff.mp hNegate
    simp only [hNegate, if_true] at h
    cases hLoop : parseClassLoop (c.pos - 1) (c.skip.rest.length + 1) .clear c.skip with
    | error err => simp [hLoop, bind, Except.bind] at h
    | ok result =>
      obtain ⟨cls, e⟩ := result
      simp only [hLoop, bind, Except.bind, Except.ok.injEq, Prod.mk.injEq] at h
      obtain ⟨rfl, rfl⟩ := h
      obtain ⟨w, R, hReads, hBody, hDenotes, hEnd⟩ :=
        classBody_of_parseClassLoop denotes_clear hLoop
      obtain ⟨right, hLast, hRight⟩ := at?_iff.mp hEnd
      rw [Set.empty_union] at hDenotes
      refine ⟨caret :: w, Rᶜ, cls.invert, right, ?_, hRight,
        .negated hCaret hBody, hDenotes.invert, rfl⟩
      exact (reads_skip hPeek).trans (hReads.trans (reads_skip hLast))
  · simp only [Bool.eq_false_iff.mpr hNegate, Bool.false_eq_true, if_false] at h
    cases hLoop : parseClassLoop (c.pos - 1) (c.rest.length + 1) .clear c with
    | error err => simp [hLoop, bind, Except.bind] at h
    | ok result =>
      obtain ⟨cls, e⟩ := result
      simp only [hLoop, bind, Except.bind, Except.ok.injEq, Prod.mk.injEq] at h
      obtain ⟨rfl, rfl⟩ := h
      obtain ⟨w, R, hReads, hBody, hDenotes, hEnd⟩ :=
        classBody_of_parseClassLoop denotes_clear hLoop
      obtain ⟨right, hLast, hRight⟩ := at?_iff.mp hEnd
      rw [Set.empty_union] at hDenotes
      refine ⟨w, R, cls, right, hReads.trans (reads_skip hLast), hRight,
        .plain ?_ hBody, hDenotes, rfl⟩
      intro hCaret
      obtain ⟨b, hb, hSame⟩ := map_eq_some_iff.mp hCaret
      refine hNegate (at?_iff.mpr ⟨b, ?_, hSame⟩)
      rw [RxCtx.peek, hReads.rest, head?_append, hb]
      rfl

theorem ClassText.parses {right : Byte} (h : ClassText shorthands w S) (hRight : right.char = ']')
    (rest : List Byte) (pos : Nat) :
    ∃ cls, parseClass ⟨pos, w ++ right :: rest⟩ =
      .ok (.byteClass cls, ⟨pos + w.length + 1, rest⟩) ∧
      Denotes cls S := by
  cases h with
  | plain hFirst body =>
    have hNegate : RxCtx.at? ⟨pos, w ++ right :: rest⟩ '^' = false := by
      rw [Bool.eq_false_iff, ne_eq, at?_iff]
      rintro ⟨b, hPeek, hCaret⟩
      cases w with
      | nil =>
        obtain rfl := Option.some.inj hPeek
        rw [hRight] at hCaret
        cases hCaret
      | cons first w =>
        obtain rfl := Option.some.inj hPeek
        exact hFirst (congrArg some hCaret)
    obtain ⟨cls, hLoop, hDenotes⟩ := body.parses hRight denotes_clear
      (Nat.lt_succ_of_le (show w.length ≤ (w ++ right :: rest).length by simp))
    rw [Set.empty_union] at hDenotes
    refine ⟨cls, ?_, hDenotes⟩
    rw [parseClass]
    simp only [hNegate, Bool.false_eq_true, if_false]
    rw [hLoop]
    rfl
  | @negated caret w S hCaret body =>
    have hNegate : RxCtx.at? ⟨pos, caret :: w ++ right :: rest⟩ '^' = true :=
      at?_iff.mpr ⟨caret, rfl, hCaret⟩
    obtain ⟨cls, hLoop, hDenotes⟩ := body.parses hRight denotes_clear
      (Nat.lt_succ_of_le (show w.length ≤ (w ++ right :: rest).length by simp))
    rw [Set.empty_union] at hDenotes
    refine ⟨cls.invert, ?_, hDenotes.invert⟩
    have hPos : pos + (caret :: w).length + 1 = pos + 1 + w.length + 1 := by
      rw [length_cons]
      omega
    rw [parseClass, hPos]
    simp only [hNegate, if_true]
    rw [show (RxCtx.mk pos (caret :: w ++ right :: rest)).skip =
      ⟨pos + 1, w ++ right :: rest⟩ from rfl, hLoop]
    rfl

end

section

variable {c d : RxCtx} {t lhs : RegexNode} {b : Byte} {here : Nat} {w : List Byte}

/-- An atom other than a group is one of the grammar. -/
theorem derives_of_parseSimpleAtom (hGroup : b.char ≠ '(')
    (h : parseSimpleAtom b here c = .ok (t, d)) :
    ∃ w, Reads c d w ∧ Derives true .atom (b :: w) t := by
  unfold parseSimpleAtom at h
  split at h
  · next hLeft =>
      obtain ⟨w, S, cls, right, hReads, hRight, hText, hDenotes, rfl⟩ :=
  classText_of_parseClass h
      exact ⟨w ++ [right], hReads, .byteClass hLeft hRight hText hDenotes⟩
  · next hDot =>
      cases h
      exact ⟨[], .refl _, .dot hDot denotes_fill⟩
  · next hBackslash =>
      cases hEscape : parseEscapeInto c here .clear with
      | error err => simp [hEscape, bind, Except.bind] at h
      | ok result =>
        obtain ⟨cls, e⟩ := result
        simp only [hEscape, bind, Except.bind, Except.ok.injEq, Prod.mk.injEq] at h
        obtain ⟨rfl, rfl⟩ := h
        obtain ⟨letter, single, S, hReads, hEsc, hDenotes⟩ :=
          escape_of_parseEscapeInto denotes_clear hBackslash hEscape
        rw [Set.empty_union] at hDenotes
        exact ⟨[letter], hReads, .escape hEsc hDenotes⟩
  all_goals first
    | cases h; done
    | skip
  cases h
  refine ⟨[], .refl _, .literal ?_ (denotes_singleton b)⟩
  simp_all [isMeta]

/-- An atom with the quantifier behind it, if there is one. -/
theorem derives_of_quantify (hAtom : Derives true .atom w t) :
    ∃ w', Reads c (quantify t c).2 w' ∧ Derives true .atomQuant (w ++ w') (quantify t c).1 := by
  unfold quantify
  split
  · next hQuant =>
      obtain ⟨q, hPeek, hChar⟩ := map_eq_some_iff.mp hQuant
      exact ⟨[q], reads_skip hPeek, .star hChar hAtom⟩
  · next hQuant =>
      obtain ⟨q, hPeek, hChar⟩ := map_eq_some_iff.mp hQuant
      exact ⟨[q], reads_skip hPeek, .plus hChar hAtom⟩
  · next hQuant =>
      obtain ⟨q, hPeek, hChar⟩ := map_eq_some_iff.mp hQuant
      exact ⟨[q], reads_skip hPeek, .opt hChar hAtom⟩
  · refine ⟨[], .refl c, ?_⟩
    rw [append_nil]
    exact .once hAtom

/-- With this fuel the functions of the grammar read derivations only. -/
structure SoundAt (fuel : Nat) : Prop where
  alt : ∀ {c d t}, parseAlt fuel c = .ok (t, d) → ∃ w, Reads c d w ∧ Derives true .alt w t
  altLoop : ∀ {c d lhs t front}, Derives true .alt front lhs →
    parseAltLoop fuel lhs c = .ok (t, d) →
    ∃ w, Reads c d w ∧ Derives true .alt (front ++ w) t
  concat : ∀ {c d t}, parseConcat fuel c = .ok (t, d) → ∃ w, Reads c d w ∧
    Derives true .concat w t
  concatLoop : ∀ {c d lhs t front}, front ≠ [] → Derives true .concat front lhs →
    parseConcatLoop fuel lhs c = .ok (t, d) → ∃ w, Reads c d w ∧
      Derives true .concat (front ++ w) t
  atomQuant : ∀ {c d t}, parseAtomQuant fuel c = .ok (t, d) →
    ∃ w, w ≠ [] ∧ Reads c d w ∧ Derives true .atomQuant w t
  atom : ∀ {c d t}, parseAtom fuel c = .ok (t, d) → ∃ w, w ≠ [] ∧
    Reads c d w ∧ Derives true .atom w t

theorem bind_eq_ok {α β : Type} {r : Parse α} {next : α → Parse β} {out : β} :
    r >>= next = .ok out ↔ ∃ a, r = .ok a ∧ next a = .ok out := by
  cases r with
  | ok a => exact ⟨fun h => ⟨a, rfl, h⟩, fun ⟨a', hSame, h⟩ => by cases hSame; exact h⟩
  | error err => exact ⟨fun h => (nomatch h), fun ⟨_, hSame, _⟩ => (nomatch hSame)⟩

theorem soundAt (fuel : Nat) : SoundAt fuel := by
  induction fuel with
  | zero =>
    constructor <;> intros <;>
      simp_all [parseAlt, parseAltLoop, parseConcat, parseConcatLoop, parseAtomQuant, parseAtom]
  | succ fuel ih =>
    constructor
    · intro c d t h
      rw [parseAlt, bind_eq_ok] at h
      obtain ⟨⟨lhs, mid⟩, hFirst, hLoop⟩ := h
      obtain ⟨w, hReads, hConcat⟩ := ih.concat hFirst
      obtain ⟨w', hReads', hAlt⟩ := ih.altLoop (.altOne hConcat) hLoop
      exact ⟨w ++ w', hReads.trans hReads', hAlt⟩
    · intro c d lhs t front hFront h
      rw [parseAltLoop] at h
      split at h
      · next hBar =>
          obtain ⟨bar, hPeek, hChar⟩ := at?_iff.mp hBar
          obtain ⟨⟨rhs, mid⟩, hNext, hLoop⟩ := bind_eq_ok.mp h
          obtain ⟨w, hReads, hConcat⟩ := ih.concat hNext
          obtain ⟨w', hReads', hAlt⟩ := ih.altLoop (.altMore hChar hFront hConcat) hLoop
          refine ⟨bar :: w ++ w', ((reads_skip hPeek).trans hReads).trans hReads', ?_⟩
          rwa [← append_assoc]
      · cases h
        refine ⟨[], .refl _, ?_⟩
        rwa [append_nil]
    · intro c d t h
      rw [parseConcat] at h
      split at h
      · obtain ⟨⟨lhs, mid⟩, hFirst, hLoop⟩ := bind_eq_ok.mp h
        obtain ⟨w, hSome, hReads, hAtom⟩ := ih.atomQuant hFirst
        obtain ⟨w', hReads', hConcat⟩ := ih.concatLoop hSome (.concatOne hAtom) hLoop
        exact ⟨w ++ w', hReads.trans hReads', hConcat⟩
      · cases h
        exact ⟨[], .refl _, .concatNone⟩
    · intro c d lhs t front hSome hFront h
      rw [parseConcatLoop] at h
      split at h
      · obtain ⟨⟨rhs, mid⟩, hNext, hLoop⟩ := bind_eq_ok.mp h
        obtain ⟨w, _, hReads, hAtom⟩ := ih.atomQuant hNext
        obtain ⟨w', hReads', hConcat⟩ := ih.concatLoop (append_ne_nil_of_left_ne_nil hSome w)
          (.concatMore hSome hFront hAtom) hLoop
        refine ⟨w ++ w', hReads.trans hReads', ?_⟩
        rwa [← append_assoc]
      · cases h
        refine ⟨[], .refl _, ?_⟩
        rwa [append_nil]
    · intro c d t h
      rw [parseAtomQuant, bind_eq_ok] at h
      obtain ⟨⟨atom, mid⟩, hAtom, hQuant⟩ := h
      obtain ⟨w, hSome, hReads, hDerives⟩ := ih.atom hAtom
      obtain ⟨w', hReads', hBoth⟩ := derives_of_quantify (c := mid) hDerives
      have hSame : quantify atom mid = (t, d) := Except.ok.inj hQuant
      rw [hSame] at hReads' hBoth
      exact ⟨w ++ w', append_ne_nil_of_left_ne_nil hSome w', hReads.trans hReads', hBoth⟩
    · intro c d t h
      rw [parseAtom] at h
      cases hPeek : c.peek with
      | none => simp [hPeek] at h
      | some b =>
        simp only [hPeek] at h
        split at h
        · next hLeft =>
            obtain ⟨⟨inner, mid⟩, hInner, hGroup⟩ := bind_eq_ok.mp h
            obtain ⟨w, hReads, hAlt⟩ := ih.alt hInner
            split at hGroup
            · next hClose =>
                obtain ⟨right, hLast, hRight⟩ := at?_iff.mp hClose
                cases hGroup
                refine ⟨b :: (w ++ [right]), cons_ne_nil _ _, ?_, .group hLeft hRight hAlt⟩
                exact (reads_skip hPeek).trans (hReads.trans (reads_skip hLast))
            · cases hGroup
        · next hLeft =>
            obtain ⟨w, hReads, hAtom⟩ := derives_of_parseSimpleAtom hLeft h
            exact ⟨b :: w, cons_ne_nil _ _, (reads_skip hPeek).trans hReads, hAtom⟩

end

section

variable {shorthands : Bool} {c : RxCtx} {w rest : List Byte} {t : RegexNode}
  {b : Byte} {pos fuel here : Nat}

/-- A quantifier starts the text. -/
def quantStarts (w : List Byte) :
    Bool := (w.head?.map Byte.char).any fun ch => ch ∈ ['*', '+', '?']

/-- An atom can start the text, and no quantifier does. -/
def AtomFirst (w : List Byte) : Prop :=
  ∃ b tail, w = b :: tail ∧ b.char ∉ ['|', ')', '*', '+', '?']

/-- What the parser does with a derivation in front of some text. The loops go
on with the tree of what they have read. -/
def ParsesAs (n : Nonterminal) (w : List Byte) (t : RegexNode) : Prop :=
  match n with
  | .alt => ∀ pos rest fuel, atomStartsHere ⟨pos, rest⟩ = false →
    4 * (w ++ rest).length + 4 ≤ fuel →
      ∃ fuel', 4 * rest.length + 3 ≤ fuel' ∧
        parseAlt fuel ⟨pos, w ++ rest⟩ = parseAltLoop fuel' t ⟨pos + w.length, rest⟩
  | .concat => (w = [] ∧ t = .empty) ∨
      w ≠ [] ∧ ∀ pos rest fuel, quantStarts rest = false →
        4 * (w ++ rest).length + 3 ≤ fuel →
        ∃ fuel', 4 * rest.length + 3 ≤ fuel' ∧
          parseConcat fuel ⟨pos, w ++ rest⟩ = parseConcatLoop fuel' t ⟨pos + w.length, rest⟩
  | .atomQuant => AtomFirst w ∧
      ∀ pos rest fuel, quantStarts rest = false → 4 * (w ++ rest).length + 2 ≤ fuel →
        parseAtomQuant fuel ⟨pos, w ++ rest⟩ = .ok (t, ⟨pos + w.length, rest⟩)
  | .atom => AtomFirst w ∧
      ∀ pos rest fuel, 4 * (w ++ rest).length + 1 ≤ fuel →
        parseAtom fuel ⟨pos, w ++ rest⟩ = .ok (t, ⟨pos + w.length, rest⟩)

theorem atomStartsHere_cons (b : Byte) (rest : List Byte) (pos : Nat) :
    atomStartsHere ⟨pos, b :: rest⟩ = (b.char ≠ '|' && b.char ≠ ')') := rfl

theorem AtomFirst.starts (h : AtomFirst w) (rest : List Byte) (pos : Nat) :
    atomStartsHere ⟨pos, w ++ rest⟩ = true ∧ quantStarts (w ++ rest) = false := by
  obtain ⟨b, tail, rfl, hByte⟩ := h
  simp only [mem_cons, not_or, not_mem_nil, not_false_eq_true, and_true] at hByte
  rw [cons_append, atomStartsHere_cons, quantStarts]
  simp [hByte]

theorem AtomFirst.length_pos (h : AtomFirst w) : 0 < w.length := by
  obtain ⟨b, tail, rfl, _⟩ := h
  exact Nat.succ_pos _

theorem quantStarts_of_not_atomStarts (h : atomStartsHere ⟨pos, rest⟩ = false) :
    quantStarts rest = false := by
  cases rest with
  | nil => rfl
  | cons b rest =>
    rw [atomStartsHere_cons, Bool.and_eq_false_iff, decide_eq_false_iff_not,
      decide_eq_false_iff_not,
      not_not, not_not] at h
    rcases h with hBar | hRight
    · simp [quantStarts, hBar]
    · simp [quantStarts, hRight]

theorem exists_fuel {n : Nat} (h : n + 1 ≤ fuel) : ∃ k, fuel = k + 1 ∧ n ≤ k :=
  ⟨fuel - 1, by omega, by omega⟩

/-- A concatenation in front of a text where no atom starts. -/
theorem ParsesAs.concat_end (h : ParsesAs .concat w t) (pos fuel : Nat)
    (hEnd : atomStartsHere ⟨pos + w.length, rest⟩ = false)
    (hFuel : 4 * (w ++ rest).length + 3 ≤ fuel) :
    parseConcat fuel ⟨pos, w ++ rest⟩ = .ok (t, ⟨pos + w.length, rest⟩) := by
  rcases h with ⟨rfl, rfl⟩ | ⟨_, hParse⟩
  · obtain ⟨k, rfl, _⟩ := exists_fuel hFuel
    rw [parseConcat, nil_append, if_neg]
    · rfl
    · rw [length_nil, add_zero] at hEnd
      rw [hEnd]
      exact Bool.false_ne_true
  · obtain ⟨fuel', hFuel', hLoop⟩ :=
      hParse pos rest fuel (quantStarts_of_not_atomStarts hEnd) hFuel
    obtain ⟨k, rfl, _⟩ := exists_fuel hFuel'
    rw [hLoop, parseConcatLoop, if_neg]
    rw [hEnd]
    exact Bool.false_ne_true

theorem quantify_none (h : quantStarts rest = false) :
    quantify t ⟨pos, rest⟩ = (t, ⟨pos, rest⟩) := by
  cases rest with
  | nil => rfl
  | cons b rest =>
    simp only [quantStarts, head?_cons, map_some, any_some, decide_eq_false_iff_not,
      mem_cons, not_or, not_mem_nil, not_false_eq_true, and_true] at h
    simp only [quantify, RxCtx.peek, head?_cons, map_some]
    split <;> simp_all

theorem AtomFirst.append (h : AtomFirst w) (tail : List Byte) : AtomFirst (w ++ tail) := by
  obtain ⟨b, more, rfl, hByte⟩ := h
  exact ⟨b, more ++ tail, rfl, hByte⟩

theorem ParsesAs.quantified {t' : RegexNode} {q : Byte} (h : ParsesAs .atom w t)
    (hQuant : ∀ pos rest, quantify t ⟨pos, q :: rest⟩ = (t', ⟨pos + 1, rest⟩)) :
    ParsesAs .atomQuant (w ++ [q]) t' := by
  obtain ⟨hFirst, hParse⟩ := h
  refine ⟨hFirst.append [q], fun pos rest fuel _ hFuel => ?_⟩
  obtain ⟨k, rfl, hk⟩ := exists_fuel hFuel
  rw [append_assoc, singleton_append] at hk ⊢
  rw [parseAtomQuant, hParse pos (q :: rest) k hk, length_append]
  exact congrArg Except.ok (hQuant _ rest)

theorem parseAtom_simple (hGroup : b.char ≠ '(') (rest : List Byte) (pos fuel : Nat) :
    parseAtom (fuel + 1) ⟨pos, b :: rest⟩ = parseSimpleAtom b pos ⟨pos + 1, rest⟩ := by
  rw [parseAtom]
  simp only [RxCtx.peek, head?_cons, if_neg hGroup]
  rfl

theorem Derives.parses {n : Nonterminal} (h : Derives shorthands n w t) : ParsesAs n w t := by
  induction h with
  | altOne _ ih =>
    intro pos rest fuel hEnd hFuel
    obtain ⟨k, rfl, hk⟩ := exists_fuel hFuel
    refine ⟨k, ?_, ?_⟩
    · rw [length_append] at hk
      omega
    · have hConcat := ih.concat_end pos k hEnd hk
      rw [parseAlt, hConcat]
      rfl
  | @altMore w w' t t' bar hBar _ _ ih ih' =>
    intro pos rest fuel hEnd hFuel
    have hBarEnds : atomStartsHere ⟨pos, bar :: (w' ++ rest)⟩ = false := by
      rw [atomStartsHere_cons, hBar]
      rfl
    rw [append_assoc, cons_append] at hFuel ⊢
    obtain ⟨fuel', hFuel', hLoop⟩ := ih pos (bar :: (w' ++ rest)) fuel hBarEnds hFuel
    obtain ⟨k, rfl, hk⟩ := exists_fuel hFuel'
    rw [length_cons, length_append] at hk
    refine ⟨k, by omega, ?_⟩
    have hConcat := ih'.concat_end (pos + w.length + 1) k hEnd (by rw [length_append]; omega)
    have hPos : pos + (w ++ bar :: w').length = pos + w.length + 1 + w'.length := by
      rw [length_append, length_cons]
      omega
    rw [hLoop, parseAltLoop, if_pos (at?_iff.mpr ⟨bar, rfl, hBar⟩), hPos]
    show parseConcat k ⟨pos + w.length + 1, w' ++ rest⟩ >>= _ = _
    rw [hConcat]
    rfl
  | concatNone => exact .inl ⟨rfl, rfl⟩
  | @concatOne w t _ ih =>
    obtain ⟨hFirst, hParse⟩ := ih
    refine .inr ⟨ne_nil_of_length_pos hFirst.length_pos, fun pos rest fuel hQuant hFuel => ?_⟩
    obtain ⟨k, rfl, hk⟩ := exists_fuel hFuel
    have hAtom := hParse pos rest k hQuant hk
    refine ⟨k, ?_, ?_⟩
    · have hLength := hFirst.length_pos
      rw [length_append] at hk
      omega
    · rw [parseConcat, if_pos (hFirst.starts rest pos).1, hAtom]
      rfl
  | @concatMore w w' t t' hSome _ _ ih ih' =>
    obtain ⟨hFirst, hParse'⟩ := ih'
    rcases ih with ⟨hNone, _⟩ | ⟨_, hParse⟩
    · exact absurd hNone hSome
    refine .inr ⟨append_ne_nil_of_left_ne_nil hSome w', fun pos rest fuel hQuant hFuel => ?_⟩
    rw [append_assoc] at hFuel ⊢
    obtain ⟨fuel', hFuel', hLoop⟩ :=
      hParse pos (w' ++ rest) fuel (hFirst.starts rest pos).2 hFuel
    obtain ⟨k, rfl, hk⟩ := exists_fuel hFuel'
    have hAtom := hParse' (pos + w.length) rest k hQuant hk
    refine ⟨k, ?_, ?_⟩
    · have hLength := hFirst.length_pos
      rw [length_append] at hk
      omega
    · rw [hLoop, parseConcatLoop, if_pos (hFirst.starts rest _).1, hAtom, length_append, add_assoc]
      rfl
  | once _ ih =>
    obtain ⟨hFirst, hParse⟩ := ih
    refine ⟨hFirst, fun pos rest fuel hQuant hFuel => ?_⟩
    obtain ⟨k, rfl, hk⟩ := exists_fuel hFuel
    have hAtom := hParse pos rest k hk
    rw [parseAtomQuant, hAtom]
    exact congrArg Except.ok (quantify_none hQuant)
  | star hQuant _ ih | plus hQuant _ ih | opt hQuant _ ih =>
    exact ParsesAs.quantified ih fun pos rest => by simp [quantify, RxCtx.peek, RxCtx.skip, hQuant]
  | @group w t left right hLeft hRight _ ih =>
    refine ⟨⟨left, _, rfl, by rw [hLeft]; decide⟩, fun pos rest fuel hFuel => ?_⟩
    obtain ⟨k, rfl, hk⟩ := exists_fuel hFuel
    have hEnds : atomStartsHere ⟨pos, right :: rest⟩ = false := by
      rw [atomStartsHere_cons, hRight]
      rfl
    have hInner : 4 * (w ++ right :: rest).length + 4 ≤ k := by
      simp only [length_append, length_cons] at hk ⊢
      omega
    obtain ⟨fuel', hFuel', hLoop⟩ := ih (pos + 1) (right :: rest) k hEnds hInner
    obtain ⟨k', rfl, _⟩ := exists_fuel hFuel'
    have hNoBar : ¬RxCtx.at? ⟨pos + 1 + w.length, right :: rest⟩ '|' = true := by
      rw [at?_iff]
      rintro ⟨b, hPeek, hBar⟩
      obtain rfl := Option.some.inj hPeek
      rw [hRight] at hBar
      cases hBar
    have hClose : RxCtx.at? ⟨pos + 1 + w.length, right :: rest⟩ ')' = true :=
      at?_iff.mpr ⟨right, rfl, hRight⟩
    rw [parseAltLoop, if_neg hNoBar] at hLoop
    rw [cons_append, append_assoc, singleton_append, parseAtom]
    simp only [RxCtx.peek, head?_cons, hLeft, if_true]
    show parseAlt k ⟨pos + 1, w ++ right :: rest⟩ >>= _ = _
    rw [hLoop]
    show (if RxCtx.at? ⟨pos + 1 + w.length, right :: rest⟩ ')' = true then _ else _) = _
    rw [if_pos hClose]
    simp [RxCtx.skip]
    omega
  | @byteClass w S cls left right hLeft hRight text hSet =>
    refine ⟨⟨left, _, rfl, by rw [hLeft]; decide⟩, fun pos rest fuel hFuel => ?_⟩
    obtain ⟨k, rfl, hk⟩ := exists_fuel hFuel
    obtain ⟨cls', hParse, hSet'⟩ := text.parses hRight rest (pos + 1)
    obtain rfl := eq_of_denotes hSet hSet'
    rw [cons_append, append_assoc, singleton_append,
      parseAtom_simple (by rw [hLeft]; decide), parseSimpleAtom]
    simp only [hLeft]
    rw [hParse]
    simp
    omega
  | @dot b cls hDot hSet =>
    refine ⟨⟨b, _, rfl, by rw [hDot]; decide⟩, fun pos rest fuel hFuel => ?_⟩
    obtain ⟨k, rfl, hk⟩ := exists_fuel hFuel
    obtain rfl := eq_of_denotes hSet denotes_fill
    rw [singleton_append, parseAtom_simple (by rw [hDot]; decide), parseSimpleAtom]
    simp only [hDot]
    rfl
  | @escape w single S cls h hSet =>
    obtain ⟨backslash, tail, rfl⟩ : ∃ backslash tail, w = backslash :: tail := by
      cases h with
      | shorthand _ _ => exact ⟨_, _, rfl⟩
      | single _ _ _ => exact ⟨_, _, rfl⟩
    have hBackslash := (h.parses denotes_clear [] 0 0).1
    refine ⟨⟨backslash, _, rfl, by rw [hBackslash]; decide⟩, fun pos rest fuel hFuel => ?_⟩
    obtain ⟨k, rfl, hk⟩ := exists_fuel hFuel
    obtain ⟨_, cls', hParse, hLength, hSet'⟩ := h.parses denotes_clear rest (pos + 1) pos
    rw [Set.empty_union] at hSet'
    obtain rfl := eq_of_denotes hSet hSet'
    rw [cons_append, parseAtom_simple (by rw [hBackslash]; decide), parseSimpleAtom]
    simp only [hBackslash]
    rw [hParse, length_cons, hLength]
    rfl
  | @literal b cls hPlain hSet =>
    have hNot : b.char ∉ ['(', '[', '.', '\\', '^', '$', '\x7b', ')', '|', '*', '+', '?'] := by
      rwa [isMeta, decide_eq_false_iff_not] at hPlain
    simp only [mem_cons, not_or, not_mem_nil, not_false_eq_true, and_true] at hNot
    refine ⟨⟨b, _, rfl, by simp [hNot]⟩, fun pos rest fuel hFuel => ?_⟩
    obtain ⟨k, rfl, hk⟩ := exists_fuel hFuel
    obtain rfl := eq_of_denotes hSet (denotes_singleton b)
    rw [singleton_append, parseAtom_simple hNot.1, parseSimpleAtom]
    split <;> simp_all

end

end Casprix.Regex
