import Casprix.Library.Bytes

/-! Readers of byte strings, and the byte strings that they read to the end. -/
namespace Library

open List

/-- The first `count` base-256 digits of a number, the lowest one first. -/
def littleEndian : Nat → Nat → List Byte
  | 0, _ => []
  | count + 1, n => BitVec.ofNat 8 n :: littleEndian count (n / 256)

def fromLittleEndian (bytes : List Byte) : Nat := bytes.foldr (fun b n => b.toNat + 256 * n) 0

theorem length_littleEndian (count n : Nat) : (littleEndian count n).length = count := by
  induction count generalizing n with
  | zero => rfl
  | succ count ih => rw [littleEndian, length_cons, ih]

theorem fromLittleEndian_littleEndian (count n : Nat) :
    fromLittleEndian (littleEndian count n) = n % 256 ^ count := by
  induction count generalizing n with
  | zero => rw [pow_zero, Nat.mod_one, littleEndian, fromLittleEndian, foldr_nil]
  | succ count ih =>
    have hHigh := ih (n / 256)
    rw [fromLittleEndian] at hHigh
    have hLow : (BitVec.ofNat 8 n).toNat = n % 256 := BitVec.toNat_ofNat n 8
    rw [littleEndian, fromLittleEndian, foldr_cons, hHigh, hLow, pow_succ', Nat.mod_mul]

/-- A reader takes a value off the front of a byte string. -/
abbrev Reader (α : Type) := StateT (List Byte) Option α

variable {α β : Type} {r : Reader α} {f : α → Reader β}
  {bytes more : List Byte} {a : α} {b : β}

/-- The reader finds the value in these bytes, whatever follows. -/
def Reads (r : Reader α) (bytes : List Byte) (a : α) : Prop :=
  ∀ rest, r.run (bytes ++ rest) = some (a, rest)

theorem Reads.pure (a : α) : Reads (pure a) [] a := fun _ => rfl

theorem Reads.bind (h : Reads r bytes a) (hNext : Reads (f a) more b) :
    Reads (r >>= f) (bytes ++ more) b := by
  intro rest
  rw [StateT.run_bind, append_assoc, h (more ++ rest)]
  exact hNext rest

theorem Reads.bind_last (h : Reads r bytes a) (hNext : Reads (f a) [] b) :
    Reads (r >>= f) bytes b := by
  have hBoth := h.bind hNext
  rw [append_nil] at hBoth
  exact hBoth

theorem Reads.run_nil (h : Reads r bytes a) : r.run bytes = some (a, []) := by
  have hRun := h []
  rw [append_nil] at hRun
  exact hRun

def readByte : Reader Byte
  | [] => none
  | b :: rest => some (b, rest)

theorem reads_readByte (b : Byte) : Reads readByte [b] b := fun _ => rfl

/-- So many values of one kind. -/
def readMany (r : Reader α) : Nat → Reader (List α)
  | 0 => pure []
  | n + 1 => do
      let a ← r
      let rest ← readMany r n
      return a :: rest

theorem reads_readMany {write : α → List Byte} {values : List α}
    (h : ∀ a ∈ values, Reads r (write a) a) :
    Reads (readMany r values.length) (values.flatMap write) values := by
  induction values with
  | nil => exact Reads.pure []
  | cons a values ih =>
    have hRest := ih fun b hb => h b (mem_cons_of_mem a hb)
    exact (h a mem_cons_self).bind (hRest.bind_last (Reads.pure (a :: values)))

theorem reads_readBytes (bytes : List Byte) :
    Reads (readMany readByte bytes.length) bytes bytes := by
  have hRead : Reads (readMany readByte bytes.length) (bytes.flatMap fun b => [b]) bytes :=
    reads_readMany fun b _ => reads_readByte b
  rw [flatMap_singleton'] at hRead
  exact hRead

/-- A word, the lowest byte first. -/
def writeWord (count : Nat) {w : Nat} (word : BitVec w) : List Byte := littleEndian count word.toNat

def readWord (count w : Nat) : Reader (BitVec w) := do
  let bytes ← readMany readByte count
  return BitVec.ofNat w (fromLittleEndian bytes)

theorem reads_readWord {count w : Nat} (hWidth : 256 ^ count = 2 ^ w) (word : BitVec w) :
    Reads (readWord count w) (writeWord count word) word := by
  have hBytes := reads_readBytes (writeWord count word)
  rw [writeWord, length_littleEndian] at hBytes
  apply hBytes.bind_last
  have hValue : BitVec.ofNat w (fromLittleEndian (littleEndian count word.toNat)) = word := by
    rw [fromLittleEndian_littleEndian, hWidth, Nat.mod_eq_of_lt word.isLt, BitVec.ofNat_toNat,
      BitVec.setWidth_eq]
  rw [hValue]
  exact Reads.pure word

end Library
