import Casprix.Mir.Basic
import Mathlib.Algebra.Group.Nat.Defs

/-! The string map: Robin Hood hashing with linear probing. A lookup stops at
the first empty slot, and removing a key empties its slot. -/
namespace Casprix.Collections

open Mir (Word)

def mapInitCap : Nat := 16

def mapLoadNum : Nat := 7

def mapLoadDen : Nat := 8

/-- The hash of an empty slot, which is also a value of the hash function. -/
def mapEmpty : Word := BitVec.allOnes 64

/-- `dib` is the distance from the slot the hash names. -/
structure MapEntry (κ : Type*) where
  key : Option κ := none
  val : Word := 0
  hash : Word := mapEmpty
  dib : BitVec 32 := 0
  deriving DecidableEq, Repr

def mapEntrySize : Nat := 32

structure NuwanMap (κ : Type*) where
  slots : List (MapEntry κ)
  size : Nat
  cap : Nat
  deriving DecidableEq, Repr

section

variable {κ : Type*} [DecidableEq κ]

def nuwanMapNew : NuwanMap κ := ⟨List.replicate mapInitCap {}, 0, mapInitCap⟩

/-- The loop of `map_insert_raw`: `carry` is the entry still to be placed. It
trades places with an entry nearer to its own home. -/
def mapInsertLoop (cap : Nat) :
    Nat → Nat → MapEntry κ → List (MapEntry κ) → Option (Bool × List (MapEntry κ))
  | 0, _, _, _ => none
  | fuel + 1, idx, carry, slots =>
    match slots[idx]? with
    | none => none
    | some e =>
      if e.hash = mapEmpty then some (true, slots.set idx carry)
      else if e.hash = carry.hash ∧ e.key = carry.key then
        some (false, slots.set idx { e with val := carry.val })
      else if e.dib < carry.dib then
        mapInsertLoop cap fuel ((idx + 1) % cap) { e with dib := e.dib + 1 } (slots.set idx carry)
      else mapInsertLoop cap fuel ((idx + 1) % cap) { carry with dib := carry.dib + 1 } slots

/-- Tells whether the key was new. A table without an empty slot is walked for ever. -/
def mapInsertRaw (slots : List (MapEntry κ)) (cap : Nat) (key : Option κ) (val h : Word) :
    Option (Bool × List (MapEntry κ)) :=
  mapInsertLoop cap cap (h.toNat % cap) ⟨key, val, h, 0⟩ slots

/-- Inserts the entries of the occupied slots one after the other. -/
def mapReinsert (cap : Nat) (slots : List (MapEntry κ)) (ns : List (MapEntry κ)) :
    Option (List (MapEntry κ)) :=
  slots.foldlM (fun ns e =>
    if e.hash = mapEmpty then some ns
    else (mapInsertRaw ns cap e.key e.val e.hash).map Prod.snd) ns

variable (m : NuwanMap κ)

/-- Moves the entries to a table of `nc` slots, whose size in bytes must not wrap. -/
def mapRehash (nc : Nat) : Option (NuwanMap κ) :=
  if nc * mapEntrySize < 2 ^ 64 then do
    let ns ← mapReinsert nc m.slots (List.replicate nc {})
    some { m with slots := ns, cap := nc }
  else none

def mapGrow : Option (NuwanMap κ) := mapRehash m (m.cap * 2)

/-- The first line of `nuwan_map_put`: a table seven eighths full is doubled. -/
def mapGrowIfLoaded : Option (NuwanMap κ) :=
  if m.cap * mapLoadNum ≤ m.size * mapLoadDen then mapGrow m else some m

/-- The loop that doubles `target` until `need` fits, in `size_t` arithmetic.
Once `target` has wrapped to zero the loop does not end. -/
def mapTargetLoop (need : Nat) : Nat → Nat → Option Nat
  | 0, _ => none
  | fuel + 1, target =>
    if target * mapLoadNum % 2 ^ 64 ≤ need then mapTargetLoop need fuel (target * 2 % 2 ^ 64)
    else some target

/-- What the loop compares with, in `size_t` arithmetic. -/
def mapReserveNeed (expectedSize : Word) : Nat := expectedSize.toNat * mapLoadDen % 2 ^ 64

def nuwanMapReserve (expectedSize : Word) : Option (NuwanMap κ) :=
  match mapTargetLoop (mapReserveNeed expectedSize) 64 mapInitCap with
  | none => none
  | some targetCap => if m.cap < targetCap then mapRehash m targetCap else some m

variable (hash : κ → Word)

def nuwanMapPut (m : NuwanMap κ) (key : κ) (val : Word) : Option (NuwanMap κ) := do
  let m ← mapGrowIfLoaded m
  let (new, slots) ← mapInsertRaw m.slots m.cap (some key) val (hash key)
  some { m with slots := slots, size := if new then m.size + 1 else m.size }

/-- The loop of the lookups: `none` when it does not end, else the slot of the key if any. -/
def mapFindLoop (m : NuwanMap κ) (key : κ) (h : Word) : Nat → Nat → Option (Option Nat)
  | 0, _ => none
  | fuel + 1, idx =>
    match m.slots[idx]? with
    | none => none
    | some e =>
      if e.hash = mapEmpty then some none
      else if e.hash = h ∧ e.key = some key then some (some idx)
      else mapFindLoop m key h fuel ((idx + 1) % m.cap)

def mapFind (m : NuwanMap κ) (key : κ) : Option (Option Nat) :=
  mapFindLoop m key (hash key) m.cap ((hash key).toNat % m.cap)

/-- A key that is absent reads as zero. -/
def nuwanMapGet (m : NuwanMap κ) (key : κ) : Option Word :=
  match mapFind hash m key with
  | none => none
  | some none => some 0
  | some (some idx) => (m.slots[idx]?).map MapEntry.val

def nuwanMapHas (m : NuwanMap κ) (key : κ) : Option Bool := (mapFind hash m key).map Option.isSome

def nuwanMapRemove (m : NuwanMap κ) (key : κ) : Option (Bool × NuwanMap κ) :=
  match mapFind hash m key with
  | none => none
  | some none => some (false, m)
  | some (some idx) => some (true, { m with
      slots := m.slots.modify idx fun e => { e with hash := mapEmpty, key := none }
      size := m.size - 1 })

def nuwanMapClear : NuwanMap κ :=
  { m with
    slots := m.slots.map fun e => { e with hash := mapEmpty, key := none }
    size := 0 }

end

end Casprix.Collections
