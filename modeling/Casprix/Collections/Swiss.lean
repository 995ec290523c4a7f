import Casprix.Mir.Basic

/-! The Swiss map: control bytes in groups of sixteen, triangular probing over
the groups, tombstones, and rehashing into a fresh table. -/
namespace Casprix.Collections

open Mir (Word)

/-- `EMPTY`, `DELETED`, or the low seven bits of a hash. -/
abbrev CtrlByte := BitVec 8

def swissGroupSize : Nat := 16

def swissInitCap : Nat := 16

def swissCtrlEmpty : CtrlByte := 0x80

def swissCtrlDeleted : CtrlByte := 0xFE

structure SwissEntry (κ : Type*) where
  hash : Word := 0
  key : Option κ := none
  val : Word := 0
  deriving DecidableEq, Repr

/-- `hasArena` tells whether the arena pointer is set. An allocation from a
live arena succeeds, one from the null arena dereferences it. -/
structure NuwanSwissMap (κ : Type*) where
  hasArena : Bool := false
  ctrl : List CtrlByte := []
  slots : List (SwissEntry κ) := []
  cap : Nat := 0
  size : Nat := 0
  tombstones : Nat := 0
  growthLeft : Nat := 0
  lastProbeLen : Nat := 0
  deriving DecidableEq, Repr

/-- The lanes of a group whose byte passes a test, lowest first. -/
def swissMatch (group : List CtrlByte) (test : CtrlByte → Bool) : List Nat :=
  (List.range swissGroupSize).filter fun b => (group[b]?).any test

def swissMatchByte (group : List CtrlByte) (needle : CtrlByte) : List Nat :=
  swissMatch group (· == needle)

def swissMatchEmpty (group : List CtrlByte) : List Nat := swissMatchByte group swissCtrlEmpty

/-- The high bit is set in both kinds of free byte and in no other. -/
def swissMatchEmptyOrDeleted (group : List CtrlByte) : List Nat := swissMatch group (·.msb)

def swissH2 (hash : Word) : CtrlByte := (hash &&& 0x7F).setWidth 8

def swissH1 (hash : Word) : Nat := (hash >>> 7).toNat

def swissMaxLoad (cap : Nat) : Nat := cap - cap / 8

/-- Doubles `cap` until it is no less than `hint`. -/
def swissNormaliseLoop (hint : Nat) : Nat → Nat → Nat
  | 0, cap => cap
  | fuel + 1, cap => if cap < hint then swissNormaliseLoop hint fuel (cap * 2) else cap

def swissNormaliseCap (hint : Nat) : Nat := swissNormaliseLoop hint 64 swissInitCap

section

variable {κ : Type*} [DecidableEq κ] (m : NuwanSwissMap κ)

namespace NuwanSwissMap

def group (g : Nat) : List CtrlByte :=
  (m.ctrl.drop (g * swissGroupSize)).take swissGroupSize

def numGroups : Nat := m.cap / swissGroupSize

/-- The next group of a probe: the step grows by one each time. -/
def nextGroup (g step : Nat) : Nat := (g + step) &&& (m.numGroups - 1)

def homeGroup (hash : Word) : Nat := swissH1 hash &&& (m.numGroups - 1)

end NuwanSwissMap

/-- The slot of the key among those of a group whose byte matches. -/
def swissMatchKey (key : κ) (hash : Word) (g : Nat) : Option Nat :=
  ((swissMatchByte (m.group g) (swissH2 hash)).map (g * swissGroupSize + ·)).find? fun idx =>
    (m.slots[idx]?).any fun e => e.hash == hash && e.key == some key

/-- What a probe reports: the slot found, or the slot to insert at if any. -/
structure SwissProbe where
  index : Option Nat := none
  found : Bool := false
  probeLen : Nat := 0
  deriving DecidableEq, Repr

/-- The loop of `swiss_find_for_insert`. It keeps the first free slot it saw. -/
def swissFindForInsertLoop (m : NuwanSwissMap κ) (key : κ) (hash : Word) :
    Nat → Nat → Nat → Nat → Option Nat → SwissProbe
  | 0, _, _, probeLen, candidate => { index := candidate, probeLen := probeLen }
  | fuel + 1, g, step, probeLen, candidate =>
    match swissMatchKey m key hash g with
    | some idx => { index := some idx, found := true, probeLen := probeLen + 1 }
    | none =>
      let free := (swissMatchEmptyOrDeleted (m.group g)).head?
      let candidate := candidate.or (free.map (g * swissGroupSize + ·))
      match (swissMatchEmpty (m.group g)).head? with
      | some b =>
        { index := candidate.or (some (g * swissGroupSize + b)), probeLen := probeLen + 1 }
      | none =>
        swissFindForInsertLoop m key hash fuel (m.nextGroup g (step + 1)) (step + 1)
          (probeLen + 1) candidate

def swissFindForInsert (m : NuwanSwissMap κ) (key : κ) (hash : Word) : SwissProbe :=
  if m.cap = 0 then { index := some 0 }
  else swissFindForInsertLoop m key hash m.numGroups (m.homeGroup hash) 0 0 none

/-- The loop of `swiss_find`. A group with an empty lane ends the probe. -/
def swissFindLoop (m : NuwanSwissMap κ) (key : κ) (hash : Word) :
    Nat → Nat → Nat → Nat → SwissProbe
  | 0, _, _, probeLen => { index := some 0, probeLen := probeLen }
  | fuel + 1, g, step, probeLen =>
    match swissMatchKey m key hash g with
    | some idx => { index := some idx, found := true, probeLen := probeLen + 1 }
    | none =>
      if swissMatchEmpty (m.group g) ≠ [] then { index := some 0, probeLen := probeLen + 1 }
      else swissFindLoop m key hash fuel (m.nextGroup g (step + 1)) (step + 1) (probeLen + 1)

def swissFind (key : κ) (hash : Word) : SwissProbe :=
  if m.cap = 0 then { index := some 0 }
  else swissFindLoop m key hash m.numGroups (m.homeGroup hash) 0 0

/-- Fresh arrays of `cap` empty slots, from the map's own arena. -/
def swissAllocArrays (cap : Nat) : Option (NuwanSwissMap κ) :=
  if m.hasArena then
    some { m with
      ctrl := List.replicate cap swissCtrlEmpty
      slots := List.replicate cap {}
      cap := cap
      size := 0
      tombstones := 0
      growthLeft := swissMaxLoad cap }
  else none

/-- Moves an entry to the first free slot of its probe sequence. -/
def swissMoveEntry (src : SwissEntry κ) :
    Nat → Nat → Nat → NuwanSwissMap κ → Option (NuwanSwissMap κ)
  | 0, _, _, _ => none
  | fuel + 1, g, step, tmp =>
    match (swissMatchEmptyOrDeleted (tmp.group g)).head? with
    | some b =>
      let idx := g * swissGroupSize + b
      some { tmp with
        ctrl := tmp.ctrl.set idx (swissH2 src.hash)
        slots := tmp.slots.set idx src
        size := tmp.size + 1
        growthLeft := tmp.growthLeft - 1 }
    | none => swissMoveEntry src fuel (tmp.nextGroup g (step + 1)) (step + 1) tmp

/-- Rehashes into a table of its own. That table is zeroed, so its arena
pointer is null when its arrays are allocated. -/
def swissRehash (newCap : Nat) : Option (NuwanSwissMap κ) := do
  let tmp ← swissAllocArrays {} newCap
  let tmp ← (m.ctrl.zip m.slots).foldlM
    (fun tmp (byte, src) =>
      if byte.msb then some tmp
      else swissMoveEntry src tmp.numGroups (tmp.homeGroup src.hash) 0 tmp) tmp
  some { m with
    ctrl := tmp.ctrl
    slots := tmp.slots
    cap := tmp.cap
    size := tmp.size
    tombstones := 0
    growthLeft := swissMaxLoad tmp.cap - tmp.size }

/-- The capacity that `swiss_rehash_or_grow` asks for: the same when tombstones
take more than the slack, else twice as much. -/
def swissRehashCap : Nat :=
  let maxLoad := swissMaxLoad m.cap
  if maxLoad < m.size + m.tombstones ∧ maxLoad - m.size < m.tombstones then m.cap
  else if m.cap ≠ 0 then m.cap * 2 else swissInitCap

def swissRehashOrGrow (m : NuwanSwissMap κ) : Option (NuwanSwissMap κ) :=
  swissRehash m (swissRehashCap m)

/-- The map itself is allocated zeroed in the arena it is given. -/
def nuwanSwissNew : Option (NuwanSwissMap κ) := swissAllocArrays { hasArena := true } swissInitCap

/-- The slots to ask for so that `expectedSize` entries fit, in `size_t` arithmetic. -/
def swissReserveNeed (expectedSize : Word) : Nat := ((expectedSize * 8 + 6) / 7).toNat

def nuwanSwissReserve (expectedSize : Word) : Option (NuwanSwissMap κ) :=
  let newCap := swissNormaliseCap (max (swissReserveNeed expectedSize) swissInitCap)
  if m.cap < newCap then swissRehash m newCap else some m

def nuwanSwissNewReserved (expectedSize : Word) : Option (NuwanSwissMap κ) := do
  let m ← nuwanSwissNew
  nuwanSwissReserve m expectedSize

variable (hash : κ → Word)

/-- Writes a new entry at a free slot. -/
def swissInsertAt (m : NuwanSwissMap κ) (idx : Nat) (key : κ) (val : Word) : NuwanSwissMap κ :=
  let wasEmpty := m.ctrl[idx]? == some swissCtrlEmpty
  { m with
    ctrl := m.ctrl.set idx (swissH2 (hash key))
    slots := m.slots.set idx { hash := hash key, key := some key, val := val }
    size := m.size + 1
    growthLeft := if wasEmpty then m.growthLeft - 1 else m.growthLeft
    tombstones := if wasEmpty then m.tombstones else m.tombstones - 1 }

/-- The part of `nuwan_swiss_put` after the first look at the load. -/
def swissPutProbe (m : NuwanSwissMap κ) (key : κ) (val : Word) :
    Option (Bool × NuwanSwissMap κ) := do
  let p := swissFindForInsert m key (hash key)
  let m := { m with lastProbeLen := p.probeLen }
  if p.found then
    match p.index with
    | some idx => some (true, { m with
        slots := m.slots.modify idx fun e => { e with val := val } })
    | none => none
  else
    match p.index with
    | some idx => some (true, swissInsertAt hash m idx key val)
    | none =>
      let m ← swissRehashOrGrow m
      let p := swissFindForInsert m key (hash key)
      let m := { m with lastProbeLen := p.probeLen }
      match p.index with
      | some idx => some (true, swissInsertAt hash m idx key val)
      | none => some (false, m)

def nuwanSwissPut (m : NuwanSwissMap κ) (key : κ) (val : Word) :
    Option (Bool × NuwanSwissMap κ) :=
  if m.growthLeft = 0 then do
    let m ← swissRehashOrGrow m
    swissPutProbe hash m key val
  else swissPutProbe hash m key val

def nuwanSwissGetOpt (m : NuwanSwissMap κ) (key : κ) : Option Word × NuwanSwissMap κ :=
  let p := swissFind m key (hash key)
  let m := { m with lastProbeLen := p.probeLen }
  if p.found then ((p.index.bind (m.slots[·]?)).map SwissEntry.val, m) else (none, m)

def nuwanSwissHas (m : NuwanSwissMap κ) (key : κ) : Bool × NuwanSwissMap κ :=
  let (val, m) := nuwanSwissGetOpt hash m key
  (val.isSome, m)

/-- A slot goes back to `EMPTY` when its group has an empty lane already. -/
def swissRemoveAt (idx : Nat) : NuwanSwissMap κ :=
  let m := { m with slots := m.slots.set idx {}, size := m.size - 1 }
  if swissMatchEmpty (m.group (idx / swissGroupSize)) ≠ [] then
    { m with ctrl := m.ctrl.set idx swissCtrlEmpty, growthLeft := m.growthLeft + 1 }
  else { m with ctrl := m.ctrl.set idx swissCtrlDeleted, tombstones := m.tombstones + 1 }

def nuwanSwissRemove (m : NuwanSwissMap κ) (key : κ) : Bool × NuwanSwissMap κ :=
  let p := swissFind m key (hash key)
  let m := { m with lastProbeLen := p.probeLen }
  match p.found, p.index with
  | true, some idx => (true, swissRemoveAt m idx)
  | _, _ => (false, m)

def nuwanSwissClear : NuwanSwissMap κ :=
  { m with
    ctrl := List.replicate m.cap swissCtrlEmpty
    slots := List.replicate m.cap {}
    size := 0
    tombstones := 0
    growthLeft := swissMaxLoad m.cap }

end

end Casprix.Collections
