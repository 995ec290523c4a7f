import Mathlib.Computability.Language

/-! Byte sets, the regex syntax tree and the language a tree denotes. -/
namespace Casprix.Regex

abbrev Byte := UInt8

namespace Byte

/-- The character with the same code, for matching against source literals. -/
def char (b : Byte) : Char := Char.ofNat b.toNat

def ofChar (c : Char) : Byte := UInt8.ofNat c.toNat

end Byte

/-- Bit `i` is set when byte `i` is a member. -/
abbrev ByteSet := BitVec 256

namespace ByteSet

def clear : ByteSet := 0#256

def fill : ByteSet := BitVec.allOnes 256

variable (s : ByteSet)

def add (b : Byte) : ByteSet := s ||| BitVec.twoPow 256 b.toNat

def has (b : Byte) : Bool := s.getLsbD b.toNat

def invert : ByteSet := ~~~s

/-- The loop that adds every member of `t` to `s`. -/
def addSet (s t : ByteSet) : ByteSet := s ||| t

/-- Both ends are bytes, so the clamping of `bs_add_range` changes nothing. -/
def addRange (lo hi : Byte) : ByteSet :=
  (List.range' lo.toNat (hi.toNat + 1 - lo.toNat)).foldl (fun s b => s.add (UInt8.ofNat b)) s

def addChars (chars : List Char) : ByteSet :=
  chars.foldl (fun s c => s.add (Byte.ofChar c)) s

/-- The smallest member. -/
def least? : Option Byte :=
  ((List.range 256).map UInt8.ofNat).find? s.has

end ByteSet

/-- The syntax tree. -/
inductive RegexNode where
  | byteClass (cls : ByteSet)
  | concat (a b : RegexNode)
  | alt (a b : RegexNode)
  | star (a : RegexNode)
  | plus (a : RegexNode)
  | opt (a : RegexNode)
  | empty
  deriving DecidableEq, Repr

namespace RegexNode

/-- The language a tree denotes. -/
def language : RegexNode → Language Byte
  | byteClass cls => {w | ∃ b, cls.has b = true ∧ w = [b]}
  | concat a b => a.language * b.language
  | alt a b => a.language + b.language
  | star a => KStar.kstar a.language
  | plus a => a.language * KStar.kstar a.language
  | opt a => 1 + a.language
  | empty => 1

theorem mem_language_byteClass {cls : ByteSet} {w : List Byte} :
    w ∈ (byteClass cls).language ↔ ∃ b, cls.has b = true ∧ w = [b] := Iff.rfl

end RegexNode

end Casprix.Regex
