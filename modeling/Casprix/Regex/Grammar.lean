import Casprix.Regex.Parser

/-! The grammar of the patterns, apart from the parser: which texts are
expressions, with which tree, and which bytes a character class has. -/
namespace Casprix.Regex

open List Function

def byteRange (lo hi : Byte) : Set Byte := {b | lo ≤ b ∧ b ≤ hi}

def digitBytes : Set Byte := byteRange (.ofChar '0') (.ofChar '9')

def wordBytes : Set Byte :=
  digitBytes ∪ byteRange (.ofChar 'A') (.ofChar 'Z') ∪ byteRange (.ofChar 'a') (.ofChar 'z') ∪
    {Byte.ofChar '_'}

def spaceBytes : Set Byte :=
  {b | ∃ c ∈ [' ', '\t', '\n', '\r', '\x0c', '\x0b'], b = Byte.ofChar c}

/-- The byte set has the members of the set. -/
def Denotes (cls : ByteSet) (S : Set Byte) : Prop := ∀ b, cls.has b = true ↔ b ∈ S

/-- The set that a letter behind a backslash is the shorthand of. -/
def shorthand (e : Byte) : Option (Set Byte) :=
  match e.char with
  | 'd' => some digitBytes
  | 'D' => some digitBytesᶜ
  | 'w' => some wordBytes
  | 'W' => some wordBytesᶜ
  | 's' => some spaceBytes
  | 'S' => some spaceBytesᶜ
  | _ => none

/-- The one byte that any other letter behind a backslash stands for. -/
def escaped (e : Byte) : Option Byte :=
  match e.char with
  | 'n' => some (.ofChar '\n')
  | 'r' => some (.ofChar '\r')
  | 't' => some (.ofChar '\t')
  | 'f' => some (.ofChar '\x0c')
  | 'v' => some (.ofChar '\x0b')
  | '0' => some 0
  | char => if (0x20 ≤ e ∧ e < 0x7f) ∨ char = '\t' then some e else none

/-- An escape, with the byte it stands for unless it is a shorthand. -/
inductive Escape : List Byte → Option Byte → Set Byte → Prop where
  | shorthand {backslash e : Byte} {S : Set Byte} (hBackslash : backslash.char = '\\')
      (hSet : shorthand e = some S) : Escape [backslash, e] none S
  | single {backslash e b : Byte} (hBackslash : backslash.char = '\\')
      (hSet : Regex.shorthand e = none) (hByte : escaped e = some b) :
        Escape [backslash, e] (some b) {b}

/-- What can be listed in a class. -/
inductive Member : List Byte → Option Byte → Set Byte → Prop where
  | byte {b : Byte} (hBackslash : b.char ≠ '\\')
    (hClose : b.char ≠ ']') : Member [b] (some b) {b}
  | escape {w : List Byte} {single : Option Byte} {S : Set Byte}
    (h : Escape w single S) : Member w single S

/-- Where a range may start: at a single byte, or, when shorthands are let in,
at the least byte of a set. -/
def RangeStart (shorthands : Bool) (single : Option Byte) (S : Set Byte) (lo : Byte) : Prop :=
  single = some lo ∨ shorthands = true ∧ lo ∈ S ∧ ∀ b ∈ S, lo ≤ b

/-- A dash with a byte behind it that does not close the class. -/
def RangeAhead (w : List Byte) : Prop :=
  ∃ dash hi rest, w = dash :: hi :: rest ∧ dash.char = '-' ∧ hi.char ≠ ']'

/-- What stands in a class, and the union of what it lists. -/
inductive ClassBody (shorthands : Bool) : List Byte → Set Byte → Prop where
  | nil : ClassBody shorthands [] ∅
  | member {w rest : List Byte} {single : Option Byte} {S R : Set Byte}
    (hMember : Member w single S)
      (hAlone : ¬RangeAhead rest) (body : ClassBody shorthands rest R) :
      ClassBody shorthands (w ++ rest) (S ∪ R)
  | range {w rest : List Byte} {single : Option Byte} {S R : Set Byte} {lo dash hi : Byte}
      (hMember : Member w single S) (hStart : RangeStart shorthands single S lo)
      (hDash : dash.char = '-') (hClose : hi.char ≠ ']')
        (hBackslash : hi.char ≠ '\\') (hLe : lo ≤ hi)
      (body : ClassBody shorthands rest R) :
      ClassBody shorthands (w ++ dash :: hi :: rest) (byteRange lo hi ∪ R)

/-- What stands between the brackets of a class. -/
inductive ClassText (shorthands : Bool) : List Byte → Set Byte → Prop where
  | plain {w : List Byte} {S : Set Byte} (hFirst : w.head?.map Byte.char ≠ some '^')
      (body : ClassBody shorthands w S) : ClassText shorthands w S
  | negated {caret : Byte} {w : List Byte} {S : Set Byte} (hCaret : caret.char = '^')
      (body : ClassBody shorthands w S) : ClassText shorthands (caret :: w) Sᶜ

/-- The bytes with a meaning of their own outside a class. -/
def isMeta (b : Byte) : Bool :=
  b.char ∈ ['(', '[', '.', '\\', '^', '$', '\x7b', ')', '|', '*', '+', '?']

inductive Nonterminal where
  | alt
  | concat
  | atomQuant
  | atom
  deriving DecidableEq

/-- The derivations of the grammar, with the tree of each. -/
inductive Derives (shorthands : Bool) : Nonterminal → List Byte → RegexNode → Prop where
  | altOne {w : List Byte} {t : RegexNode} (first : Derives shorthands .concat w t) :
      Derives shorthands .alt w t
  | altMore {w w' : List Byte} {t t' : RegexNode} {bar : Byte} (hBar : bar.char = '|')
      (front : Derives shorthands .alt w t) (last : Derives shorthands .concat w' t') :
      Derives shorthands .alt (w ++ bar :: w') (.alt t t')
  | concatNone : Derives shorthands .concat [] .empty
  | concatOne {w : List Byte} {t : RegexNode} (first : Derives shorthands .atomQuant w t) :
      Derives shorthands .concat w t
  | concatMore {w w' : List Byte} {t t' : RegexNode} (hSome : w ≠ [])
      (front : Derives shorthands .concat w t) (last : Derives shorthands .atomQuant w' t') :
      Derives shorthands .concat (w ++ w') (.concat t t')
  | once {w : List Byte} {t : RegexNode} (atom : Derives shorthands .atom w t) :
      Derives shorthands .atomQuant w t
  | star {w : List Byte} {t : RegexNode} {q : Byte} (hQuant : q.char = '*')
      (atom : Derives shorthands .atom w t) : Derives shorthands .atomQuant (w ++ [q]) (.star t)
  | plus {w : List Byte} {t : RegexNode} {q : Byte} (hQuant : q.char = '+')
      (atom : Derives shorthands .atom w t) : Derives shorthands .atomQuant (w ++ [q]) (.plus t)
  | opt {w : List Byte} {t : RegexNode} {q : Byte} (hQuant : q.char = '?')
      (atom : Derives shorthands .atom w t) : Derives shorthands .atomQuant (w ++ [q]) (.opt t)
  | group {w : List Byte} {t : RegexNode} {left right : Byte} (hLeft : left.char = '(')
      (hRight : right.char = ')') (inner : Derives shorthands .alt w t) :
      Derives shorthands .atom (left :: (w ++ [right])) t
  | byteClass {w : List Byte} {S : Set Byte} {cls : ByteSet} {left right : Byte}
    (hLeft : left.char = '[')
      (hRight : right.char = ']') (text : ClassText shorthands w S) (hSet : Denotes cls S) :
      Derives shorthands .atom (left :: (w ++ [right])) (.byteClass cls)
  | dot {b : Byte} {cls : ByteSet} (hDot : b.char = '.') (hSet : Denotes cls Set.univ) :
      Derives shorthands .atom [b] (.byteClass cls)
  | escape {w : List Byte} {single : Option Byte} {S : Set Byte}
    {cls : ByteSet} (h : Escape w single S)
      (hSet : Denotes cls S) : Derives shorthands .atom w (.byteClass cls)
  | literal {b : Byte} {cls : ByteSet} (hPlain : isMeta b = false) (hSet : Denotes cls {b}) :
      Derives shorthands .atom [b] (.byteClass cls)

/-- The pattern is an expression of the grammar with that tree. -/
def Accepts (shorthands : Bool) (pattern : List Byte) (t : RegexNode) : Prop :=
  Derives shorthands .alt (cString pattern) t

def isShorthand (e : Byte) : Bool := e.char ∈ ['d', 'D', 'w', 'W', 's', 'S']

/-- Some class of the text has a range that starts at a shorthand. The flag
tells whether the text starts inside a class. -/
def hasShorthandRange : Bool → List Byte → Bool
  | _, [] => false
  | false, b :: rest =>
    if b.char = '\\' then
      match rest with
      | [] => false
      | _ :: rest => hasShorthandRange false rest
    else if b.char = '[' then
      match rest with
      | [] => false
      | c :: rest => if c.char = '^' then hasShorthandRange true rest
        else hasShorthandRange true (c :: rest)
    else hasShorthandRange false rest
  | true, b :: rest =>
    if b.char = ']' then hasShorthandRange false rest
    else if b.char = '\\' then
      match rest with
      | [] => false
      | e :: dash :: hi :: rest =>
        if dash.char = '-' ∧ hi.char ≠ ']' then isShorthand e || hasShorthandRange true rest
        else hasShorthandRange true (dash :: hi :: rest)
      | _ :: rest => hasShorthandRange true rest
    else
      match rest with
      | dash :: hi :: rest =>
        if dash.char = '-' ∧ hi.char ≠ ']' then hasShorthandRange true rest
        else hasShorthandRange true (dash :: hi :: rest)
      | rest => hasShorthandRange true rest

theorem scan_close {b : Byte} (hClose : b.char = ']') (rest : List Byte) :
    hasShorthandRange true (b :: rest) = hasShorthandRange false rest := by
  rw [hasShorthandRange.eq_def]
  simp only [if_pos hClose]

section

variable {cls t : ByteSet} {S T : Set Byte} {b b' lo hi : Byte}

theorem ofNat_toNat (b : Byte) : UInt8.ofNat b.toNat = b := UInt8.ofNat_toNat

theorem eq_of_denotes (h : Denotes cls S) (h' : Denotes t S) : cls = t := by
  apply BitVec.eq_of_getLsbD_eq
  intro i hi
  have hSame := Bool.eq_iff_iff.mpr ((h (UInt8.ofNat i)).trans (h' (UInt8.ofNat i)).symm)
  have hByte : (UInt8.ofNat i).toNat = i := UInt8.toNat_ofNat_of_lt' hi
  rwa [ByteSet.has, ByteSet.has, hByte] at hSame

theorem denotes_clear : Denotes .clear ∅ := by
  intro b
  simp [ByteSet.has, ByteSet.clear]

theorem denotes_fill : Denotes .fill Set.univ := by
  intro b
  have hByte := b.toNat_lt
  simp only [ByteSet.has, ByteSet.fill, BitVec.getLsbD_allOnes, Set.mem_univ, iff_true,
    decide_eq_true_eq]
  exact hByte

theorem Denotes.add (h : Denotes cls S) (b : Byte) : Denotes (cls.add b) (S ∪ {b}) := by
  intro b'
  have hByte := b.toNat_lt
  have hOld := h b'
  rw [ByteSet.has] at hOld
  rw [ByteSet.has, ByteSet.add, BitVec.getLsbD_or, BitVec.getLsbD_twoPow, Bool.or_eq_true, hOld]
  simp only [Set.mem_union, Set.mem_singleton_iff, Bool.and_eq_true, decide_eq_true_eq]
  refine or_congr_right ⟨fun hSame => ?_, fun hSame => ?_⟩
  · exact (UInt8.toNat_inj.mp hSame.2).symm
  · exact ⟨hByte, congrArg UInt8.toNat hSame.symm⟩

theorem Denotes.addSet (h : Denotes cls S) (h' : Denotes t T) :
    Denotes (cls.addSet t) (S ∪ T) := by
  intro b
  have hLeft := h b
  have hRight := h' b
  rw [ByteSet.has] at hLeft hRight
  rw [ByteSet.has, ByteSet.addSet, BitVec.getLsbD_or, Bool.or_eq_true, hLeft, hRight]
  rfl

theorem Denotes.invert (h : Denotes cls S) : Denotes cls.invert Sᶜ := by
  intro b
  have hByte := b.toNat_lt
  have hOld := h b
  rw [ByteSet.has] at hOld
  rw [ByteSet.has, ByteSet.invert, BitVec.getLsbD_not, Set.mem_compl_iff, ← hOld]
  simp only [Bool.and_eq_true, decide_eq_true_eq, Bool.not_eq_true', Bool.not_eq_true]
  exact and_iff_right hByte

theorem denotes_singleton (b : Byte) : Denotes (ByteSet.clear.add b) {b} := by
  have hAdd := denotes_clear.add b
  rwa [Set.empty_union] at hAdd

section

variable (h : Denotes cls S)
include h

theorem Denotes.addCodes (codes : List Nat) :
    Denotes (codes.foldl (fun s n => s.add (UInt8.ofNat n)) cls)
      (S ∪ {b | ∃ n ∈ codes, b = UInt8.ofNat n}) := by
  induction codes generalizing cls S with
  | nil => simpa using h
  | cons n codes ih =>
    have hRest := ih (h.add (UInt8.ofNat n))
    intro b
    rw [foldl_cons, hRest b]
    simp [or_assoc, or_left_comm]

theorem Denotes.addRange (lo hi : Byte) :
    Denotes (cls.addRange lo hi) (S ∪ byteRange lo hi) := by
  have hCodes := h.addCodes (List.range' lo.toNat (hi.toNat + 1 - lo.toNat))
  intro b
  rw [ByteSet.addRange, hCodes b]
  refine or_congr_right ⟨?_, fun hIn => ?_⟩
  · rintro ⟨n, hn, rfl⟩
    have hHi := hi.toNat_lt
    rw [mem_range'_1] at hn
    have hCode : n < 256 := by omega
    have hByte : (UInt8.ofNat n).toNat = n := UInt8.toNat_ofNat_of_lt' hCode
    constructor
    · rw [UInt8.le_iff_toNat_le, hByte]
      exact hn.1
    · rw [UInt8.le_iff_toNat_le, hByte]
      omega
  · obtain ⟨hLo, hHi⟩ := hIn
    rw [UInt8.le_iff_toNat_le] at hLo hHi
    refine ⟨b.toNat, mem_range'_1.mpr ⟨hLo, by omega⟩, (ofNat_toNat b).symm⟩

theorem Denotes.addChars (chars : List Char) :
    Denotes (cls.addChars chars) (S ∪ {b | ∃ c ∈ chars, b = Byte.ofChar c}) := by
  induction chars generalizing cls S with
  | nil =>
    intro b
    simpa [ByteSet.addChars] using h b
  | cons c chars ih =>
    have hRest := ih (h.add (Byte.ofChar c))
    intro b
    rw [ByteSet.addChars, foldl_cons]
    rw [ByteSet.addChars] at hRest
    rw [hRest b]
    simp [or_assoc, or_left_comm]

theorem least?_eq_some_iff : cls.least? = some lo ↔ lo ∈ S ∧ ∀ b ∈ S, lo ≤ b := by
  rw [ByteSet.least?, List.find?_map, Option.map_eq_some_iff]
  constructor
  · rintro ⟨n, hFound, rfl⟩
    obtain ⟨hHas, hCode, hBefore⟩ := List.find?_range_eq_some.mp hFound
    rw [mem_range] at hCode
    refine ⟨(h _).mp hHas, fun b hb => ?_⟩
    have hByte : (UInt8.ofNat n).toNat = n := UInt8.toNat_ofNat_of_lt' hCode
    rw [UInt8.le_iff_toNat_le, hByte]
    by_contra hLess
    have hNot := hBefore b.toNat (Nat.lt_of_not_le hLess)
    rw [comp_apply, ofNat_toNat, (h b).mpr hb] at hNot
    cases hNot
  · rintro ⟨hMem, hLeast⟩
    refine ⟨lo.toNat, List.find?_range_eq_some.mpr
      ⟨?_, mem_range.mpr lo.toNat_lt, ?_⟩, ofNat_toNat lo⟩
    · rw [comp_apply, ofNat_toNat]
      exact (h lo).mpr hMem
    · intro n hn
      have hCode : n < 256 := hn.trans lo.toNat_lt
      have hByte : (UInt8.ofNat n).toNat = n := UInt8.toNat_ofNat_of_lt' hCode
      rw [comp_apply, Bool.not_eq_true', Bool.eq_false_iff]
      intro hHas
      have hLe := hLeast _ ((h _).mp hHas)
      rw [UInt8.le_iff_toNat_le, hByte] at hLe
      omega

end

theorem denotes_digitClass : Denotes digitClass digitBytes := by
  have hRange := denotes_clear.addRange (.ofChar '0') (.ofChar '9')
  rwa [Set.empty_union] at hRange

theorem denotes_wordClass : Denotes wordClass wordBytes :=
  ((denotes_digitClass.addRange _ _).addRange _ _).add _

theorem denotes_spaceClass : Denotes spaceClass spaceBytes := by
  have hChars := denotes_clear.addChars [' ', '\t', '\n', '\r', '\x0c', '\x0b']
  rwa [Set.empty_union] at hChars

end

end Casprix.Regex
