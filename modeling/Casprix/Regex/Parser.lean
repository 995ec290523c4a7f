import Casprix.Regex.Syntax

/-! The recursive-descent parser from a pattern to its syntax tree. -/
namespace Casprix.Regex

structure RxError where
  message : String
  pos : Nat
  deriving DecidableEq, Repr

/-- The unread part of the pattern and its offset. -/
structure RxCtx where
  pos : Nat
  rest : List Byte
  deriving DecidableEq, Repr

variable (c : RxCtx)

namespace RxCtx

def peek : Option Byte := c.rest.head?

def skip (c : RxCtx) : RxCtx :=
  match c.rest with
  | [] => c
  | _ :: rest => ⟨c.pos + 1, rest⟩

/-- The next byte is the character `ch`. -/
def at? (ch : Char) : Bool := c.peek.map Byte.char == some ch

end RxCtx

/-- A failed parse returns the null pointer. The first error recorded is the
one reported; `none` is a null result for which nothing was recorded. -/
abbrev Parse := Except (Option RxError)

def setErr {α : Type} (pos : Nat) (message : String) : Parse α :=
  .error (some ⟨message, pos⟩)

def digitClass : ByteSet := ByteSet.clear.addRange (.ofChar '0') (.ofChar '9')

def wordClass : ByteSet :=
  (((digitClass.addRange (.ofChar 'A') (.ofChar 'Z')).addRange (.ofChar 'a') (.ofChar 'z'))).add
    (.ofChar '_')

def spaceClass : ByteSet := ByteSet.clear.addChars [' ', '\t', '\n', '\r', '\x0c', '\x0b']

/-- Parses what follows a backslash at `escPos`. -/
def parseEscapeInto (escPos : Nat) (out : ByteSet) : Parse (ByteSet × RxCtx) :=
  match c.peek with
  | none => setErr escPos "trailing backslash in pattern"
  | some ch =>
    match ch.char with
    | 'd' => .ok (out.addSet digitClass, c.skip)
    | 'D' => .ok (out.addSet digitClass.invert, c.skip)
    | 'w' => .ok (out.addSet wordClass, c.skip)
    | 'W' => .ok (out.addSet wordClass.invert, c.skip)
    | 's' => .ok (out.addSet spaceClass, c.skip)
    | 'S' => .ok (out.addSet spaceClass.invert, c.skip)
    | 'n' => .ok (out.add (.ofChar '\n'), c.skip)
    | 'r' => .ok (out.add (.ofChar '\r'), c.skip)
    | 't' => .ok (out.add (.ofChar '\t'), c.skip)
    | 'f' => .ok (out.add (.ofChar '\x0c'), c.skip)
    | 'v' => .ok (out.add (.ofChar '\x0b'), c.skip)
    | '0' => .ok (out.add 0, c.skip)
    | char =>
      if (0x20 ≤ ch ∧ ch < 0x7f) ∨ char = '\t' then .ok (out.add ch, c.skip)
      else setErr escPos ("unsupported escape '\\" ++ char.toString ++ "'")

/-- The optional range after a class element: a minus sign that is not the
last byte before the closing bracket. -/
def parseRange (here : Nat) (elem : ByteSet) : Parse (ByteSet × RxCtx) :=
  match c.rest with
  | minus :: rhs :: _ =>
    if minus.char = '-' ∧ rhs.char ≠ ']' then
      let rhsPos := c.pos + 1
      let after := c.skip.skip
      if rhs.char = '\\' then do
        let _ ← parseEscapeInto after rhsPos .clear
        setErr rhsPos "escape shorthand cannot be end of range"
      else
        match elem.least? with
        | none => setErr here "malformed character range"
        | some lhs =>
          if rhs < lhs then
            setErr here ("character range " ++ toString lhs.toNat ++ "-" ++
              toString rhs.toNat ++ " is empty")
          else .ok (ByteSet.clear.addRange lhs rhs, after)
    else .ok (elem, c)
  | _ => .ok (elem, c)

/-- One element of a class: an escape or a single byte. -/
def parseElement (ch : Byte) : Parse (ByteSet × RxCtx) :=
  if ch.char = '\\' then parseEscapeInto c.skip c.pos .clear
  else .ok (ByteSet.clear.add ch, c.skip)

/-- The loop of `parse_class`; `start` is the offset of the opening bracket. -/
def parseClassLoop (start : Nat) : Nat → ByteSet → RxCtx → Parse (ByteSet × RxCtx)
  | 0, _, _ => .error none
  | fuel + 1, cls, c =>
    if c.at? ']' then .ok (cls, c)
    else
      match c.peek with
      | none => setErr start "unterminated character class"
      | some ch => do
          let (elem, c') ← parseElement c ch
          let (elem, c') ← parseRange c' c.pos elem
          parseClassLoop start fuel (cls.addSet elem) c'

/-- The contents of a character class whose bracket is consumed. -/
def parseClass : Parse (RegexNode × RxCtx) := do
  let start := c.pos - 1
  let negate := c.at? '^'
  let c := if negate then c.skip else c
  let (cls, c) ← parseClassLoop start (c.rest.length + 1) .clear c
  .ok (.byteClass (if negate then cls.invert else cls), c.skip)

/-- What an atom does with the byte it starts with. -/
def atomStartsHere : Bool :=
  match c.peek with
  | none => false
  | some ch => ch.char ≠ '|' && ch.char ≠ ')'

def quantify (atom : RegexNode) (c : RxCtx) : RegexNode × RxCtx :=
  match c.peek.map Byte.char with
  | some '*' => (.star atom, c.skip)
  | some '+' => (.plus atom, c.skip)
  | some '?' => (.opt atom, c.skip)
  | _ => (atom, c)

/-- The cases of `parse_atom` other than a group. -/
def parseSimpleAtom (ch : Byte) (here : Nat) (c : RxCtx) : Parse (RegexNode × RxCtx) :=
  match ch.char with
  | '[' => parseClass c
  | '.' => .ok (.byteClass .fill, c)
  | '\\' => do
      let (cls, c) ← parseEscapeInto c here .clear
      .ok (.byteClass cls, c)
  | '^' | '$' =>
    setErr here "anchors (^/$) are not supported (regex is implicitly full-match)"
  | '\x7b' =>
    setErr here "bounded quantifier \x7b..\x7d not supported — use explicit concatenation"
  | ')' => setErr here "unexpected ')'"
  | '|' | '*' | '+' | '?' =>
    setErr here ("unexpected metacharacter '" ++ ch.char.toString ++ "'")
  | _ => .ok (.byteClass (ByteSet.clear.add ch), c)

/- The functions of the grammar call each other; the first argument bounds the
depth of the calls and the number of rounds of the loops. -/
mutual

def parseAlt : Nat → RxCtx → Parse (RegexNode × RxCtx)
  | 0, _ => .error none
  | fuel + 1, c => do
      let (lhs, c) ← parseConcat fuel c
      parseAltLoop fuel lhs c

/-- The loop of `parse_alt`. -/
def parseAltLoop : Nat → RegexNode → RxCtx → Parse (RegexNode × RxCtx)
  | 0, _, _ => .error none
  | fuel + 1, lhs, c =>
    if c.at? '|' then do
      let (rhs, c) ← parseConcat fuel c.skip
      parseAltLoop fuel (.alt lhs rhs) c
    else .ok (lhs, c)

def parseConcat : Nat → RxCtx → Parse (RegexNode × RxCtx)
  | 0, _ => .error none
  | fuel + 1, c =>
    if atomStartsHere c then do
      let (lhs, c) ← parseAtomQuant fuel c
      parseConcatLoop fuel lhs c
    else .ok (.empty, c)

/-- The loop of `parse_concat`. -/
def parseConcatLoop : Nat → RegexNode → RxCtx → Parse (RegexNode × RxCtx)
  | 0, _, _ => .error none
  | fuel + 1, lhs, c =>
    if atomStartsHere c then do
      let (rhs, c) ← parseAtomQuant fuel c
      parseConcatLoop fuel (.concat lhs rhs) c
    else .ok (lhs, c)

def parseAtomQuant : Nat → RxCtx → Parse (RegexNode × RxCtx)
  | 0, _ => .error none
  | fuel + 1, c => do
      let (atom, c) ← parseAtom fuel c
      .ok (quantify atom c)

def parseAtom : Nat → RxCtx → Parse (RegexNode × RxCtx)
  | 0, _ => .error none
  | fuel + 1, c =>
    match c.peek with
    | none => .error none
    | some ch =>
      if ch.char = '(' then do
        let (inner, c') ← parseAlt fuel c.skip
        if c'.at? ')' then .ok (inner, c'.skip)
        else setErr c.pos "missing ')' in group"
      else parseSimpleAtom ch c.pos c.skip

end

/-- The bytes of a C string: those before the first NUL. -/
def cString (pattern : List Byte) : List Byte := pattern.takeWhile (· ≠ 0)

/-- The syntax tree of a pattern, or the first error. -/
def parsePattern (pattern : List Byte) : Parse RegexNode := do
  let src := cString pattern
  let (tree, c) ← parseAlt (4 * src.length + 4) ⟨0, src⟩
  if c.pos ≠ src.length then
    setErr c.pos ("trailing garbage in pattern at offset " ++ toString c.pos)
  else .ok tree

/-- A result that leaves at most `bound` bytes unread, or records an error. -/
def Settled {α : Type} (bound : Nat) : Parse (α × RxCtx) → Prop
  | .ok (_, c) => c.rest.length ≤ bound
  | .error e => e ≠ none

section

variable {α β : Type} {c : RxCtx} {bound bound' : Nat}

theorem settled_setErr {pos : Nat} {message : String} :
    Settled bound (setErr pos message : Parse (α × RxCtx)) := by
  simp [Settled, setErr]

theorem settled_ok {a : α} (h : c.rest.length ≤ bound) :
    Settled bound (.ok (a, c) : Parse (α × RxCtx)) := h

theorem Settled.mono {r : Parse (α × RxCtx)} (h : Settled bound r) (hLe : bound ≤ bound') :
    Settled bound' r := by
  cases r with
  | ok a => exact h.trans hLe
  | error e => exact h

theorem Settled.bind {r : Parse (α × RxCtx)} {next : α × RxCtx → Parse (β × RxCtx)}
    (h : Settled bound r) (hNext : ∀ a d, d.rest.length ≤ bound →
      Settled bound' (next (a, d))) :
    Settled bound' (r >>= next) := by
  cases r with
  | ok a => exact hNext a.1 a.2 h
  | error e => exact h

theorem length_skip_le (c : RxCtx) : c.skip.rest.length ≤ c.rest.length := by
  unfold RxCtx.skip
  split <;> simp_all

theorem length_skip {ch : Byte} (h : c.peek = some ch) :
    c.skip.rest.length + 1 = c.rest.length := by
  unfold RxCtx.peek RxCtx.skip at *
  split <;> simp_all

theorem peek_of_at? {ch : Char} (h : c.at? ch = true) : ∃ b, c.peek = some b := by
  unfold RxCtx.at? at h
  cases hPeek : c.peek with
  | none => simp [hPeek] at h
  | some b => exact ⟨b, rfl⟩

theorem peek_of_atomStartsHere (h : atomStartsHere c = true) : ∃ b, c.peek = some b := by
  unfold atomStartsHere at h
  split at h
  · cases h
  · next b hPeek => exact ⟨b, hPeek⟩

end

theorem settled_parseEscapeInto (c : RxCtx) (escPos : Nat) (out : ByteSet) :
    Settled c.rest.length (parseEscapeInto c escPos out) := by
  unfold parseEscapeInto
  split
  · exact settled_setErr
  · split
    all_goals first
      | exact settled_ok (length_skip_le c)
      | split
        · exact settled_ok (length_skip_le c)
        · exact settled_setErr

theorem settled_parseRange (c : RxCtx) (here : Nat) (elem : ByteSet) :
    Settled c.rest.length (parseRange c here elem) := by
  have hSkip := (length_skip_le c.skip).trans (length_skip_le c)
  unfold parseRange
  split
  · split
    · dsimp only
      split
      · exact (settled_parseEscapeInto _ _ _).bind fun _ _ _ => settled_setErr
      · split
        · exact settled_setErr
        · split
          · exact settled_setErr
          · exact settled_ok hSkip
    · exact settled_ok (le_rfl)
  · exact settled_ok (le_rfl)

theorem settled_parseElement (ch : Byte) : Settled c.skip.rest.length (parseElement c ch) := by
  unfold parseElement
  split
  · exact settled_parseEscapeInto _ _ _
  · exact settled_ok (le_rfl)

theorem settled_parseClassLoop (start : Nat) {fuel : Nat} {cls : ByteSet} {c : RxCtx}
    (hFuel : c.rest.length < fuel) :
    Settled c.rest.length (parseClassLoop start fuel cls c) := by
  induction fuel generalizing cls c with
  | zero => cases hFuel
  | succ fuel ih =>
    unfold parseClassLoop
    split
    · exact settled_ok (le_rfl)
    · split
      · exact settled_setErr
      · next ch hPeek =>
          have hLength := length_skip hPeek
          refine (settled_parseElement c ch).bind fun elem d hd => ?_
          refine (settled_parseRange d c.pos elem).bind fun elem e he => ?_
          exact (ih (by omega)).mono (by omega)

theorem settled_parseClass (c : RxCtx) : Settled c.rest.length (parseClass c) := by
  have hSkip : (if c.at? '^' then c.skip else c).rest.length ≤ c.rest.length := by
    split
    · exact length_skip_le c
    · exact le_rfl
  refine ((settled_parseClassLoop _ (Nat.lt_add_one _)).mono hSkip).bind fun cls d hd => ?_
  exact settled_ok ((length_skip_le d).trans hd)

theorem settled_parseSimpleAtom (ch : Byte) (here : Nat) (c : RxCtx) :
    Settled c.rest.length (parseSimpleAtom ch here c) := by
  unfold parseSimpleAtom
  split
  · exact settled_parseClass c
  · exact settled_ok (le_rfl)
  · exact (settled_parseEscapeInto c here _).bind fun _ _ hd => settled_ok hd
  all_goals first
    | exact settled_setErr
    | exact settled_ok (le_rfl)

theorem length_quantify_le (atom : RegexNode) (c : RxCtx) :
    (quantify atom c).2.rest.length ≤ c.rest.length := by
  unfold quantify
  split
  all_goals first
    | exact length_skip_le c
    | exact le_rfl

/-- With this much fuel the functions of the grammar end by themselves, and an
atom reads at least one byte. -/
structure FuelSuffices (fuel : Nat) : Prop where
  alt : ∀ c, 4 * c.rest.length + 4 ≤ fuel → Settled c.rest.length (parseAlt fuel c)
  altLoop : ∀ lhs c, 4 * c.rest.length + 3 ≤ fuel →
    Settled c.rest.length (parseAltLoop fuel lhs c)
  concat : ∀ c, 4 * c.rest.length + 3 ≤ fuel → Settled c.rest.length (parseConcat fuel c)
  concatLoop : ∀ lhs c, 4 * c.rest.length + 3 ≤ fuel →
    Settled c.rest.length (parseConcatLoop fuel lhs c)
  atomQuant : ∀ c, 4 * c.rest.length + 2 ≤ fuel → atomStartsHere c = true →
    Settled (c.rest.length - 1) (parseAtomQuant fuel c)
  atom : ∀ c, 4 * c.rest.length + 1 ≤ fuel → atomStartsHere c = true →
    Settled (c.rest.length - 1) (parseAtom fuel c)

theorem fuelSuffices (fuel : Nat) : FuelSuffices fuel := by
  induction fuel with
  | zero => constructor <;> intros <;> omega
  | succ fuel ih =>
    constructor
    · intro c hFuel
      refine (ih.concat c (by omega)).bind fun lhs d hd => ?_
      exact (ih.altLoop lhs d (by omega)).mono hd
    · intro lhs c hFuel
      unfold parseAltLoop
      split
      · next hBar =>
          obtain ⟨b, hPeek⟩ := peek_of_at? hBar
          have hLength := length_skip hPeek
          refine (ih.concat c.skip (by omega)).bind fun rhs d hd => ?_
          exact (ih.altLoop _ d (by omega)).mono (by omega)
      · exact settled_ok (le_rfl)
    · intro c hFuel
      unfold parseConcat
      split
      · next hAtom =>
          obtain ⟨b, hPeek⟩ := peek_of_atomStartsHere hAtom
          have hLength := length_skip hPeek
          refine (ih.atomQuant c (by omega) hAtom).bind fun lhs d hd => ?_
          exact (ih.concatLoop lhs d (by omega)).mono (by omega)
      · exact settled_ok (le_rfl)
    · intro lhs c hFuel
      unfold parseConcatLoop
      split
      · next hAtom =>
          obtain ⟨b, hPeek⟩ := peek_of_atomStartsHere hAtom
          have hLength := length_skip hPeek
          refine (ih.atomQuant c (by omega) hAtom).bind fun rhs d hd => ?_
          exact (ih.concatLoop _ d (by omega)).mono (by omega)
      · exact settled_ok (le_rfl)
    · intro c hFuel hAtom
      refine (ih.atom c (by omega) hAtom).bind fun atom d hd => ?_
      exact (length_quantify_le atom d).trans hd
    · intro c hFuel hAtom
      obtain ⟨b, hPeek⟩ := peek_of_atomStartsHere hAtom
      have hLength := length_skip hPeek
      unfold parseAtom
      simp only [hPeek]
      split
      · refine (ih.alt c.skip (by omega)).bind fun inner d hd => ?_
        split
        · exact settled_ok ((length_skip_le d).trans (by omega))
        · exact settled_setErr
      · exact (settled_parseSimpleAtom b c.pos c.skip).mono (by omega)

theorem parsePattern_error_ne_none (pattern : List Byte) :
    parsePattern pattern ≠ .error none := by
  have hParse := (fuelSuffices (4 * (cString pattern).length + 4)).alt ⟨0, cString pattern⟩
    (le_rfl)
  intro h
  cases hTree : parseAlt (4 * (cString pattern).length + 4) ⟨0, cString pattern⟩ with
  | error e =>
    rw [hTree] at hParse
    simp only [parsePattern, hTree, bind, Except.bind] at h
    exact hParse (Except.error.inj h)
  | ok result =>
    simp only [parsePattern, hTree, bind, Except.bind] at h
    split at h
    · cases h
    · cases h

end Casprix.Regex
