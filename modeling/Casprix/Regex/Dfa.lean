import Casprix.Library.ProbeTable
import Casprix.Library.SortedList
import Casprix.Regex.Nfa
import Casprix.Regex.Parser

/-! Subset construction, with the subsets found through a hash table, and the
reference matcher that runs the result. -/
namespace Casprix.Regex

open Library

structure DfaState where
  accepting : Bool
  /-- The number of live transitions. -/
  ntrans : Nat := 0
  /-- One entry for each byte; `none` rejects. -/
  trans : List (Option Nat) := List.replicate 256 none
  /-- The sorted ids of the subset. -/
  set : List Nat
  hash : BitVec 64
  deriving DecidableEq, Repr

def DfaState.setTrans (st : DfaState) (b : Byte) (id : Nat) : DfaState :=
  { st with trans := st.trans.set b.toNat (some id), ntrans := st.ntrans + 1 }

structure Dfa where
  states : List DfaState := []
  bucket : Slots := []
  bucketMask : Nat := 0
  bucketUsed : Nat := 0
  deriving DecidableEq, Repr

/-- FNV-1a over the four bytes of each id, least significant first. -/
def fnv64Ids (ids : List Nat) : BitVec 64 :=
  ids.foldl (fun h id =>
    (List.range 4).foldl (fun h b =>
      (h ^^^ ((BitVec.ofNat 32 id >>> (8 * b)) &&& 0xff#32).setWidth 64) * 1099511628211#64) h)
    1469598103934665603#64

namespace Dfa

def home (d : Dfa) (hash : BitVec 64) : Nat := hash.toNat &&& d.bucketMask

/-- `dfa_rehash` with `new_cap = mask + 1`. -/
def rehash (d : Dfa) (mask : Nat) : Dfa :=
  { d with
    bucket := storeAll mask (d.states.map fun st => st.hash.toNat &&& mask)
    bucketMask := mask }

/-- The state of a subset, whether it is new, and the table with it. -/
def findOrAdd (d : Dfa) (set : List Nat) (accepting : Bool) : Nat × Bool × Dfa :=
  let d := if d.bucketMask + 1 ≤ d.bucketUsed * 2 then d.rehash (2 * d.bucketMask + 1) else d
  let h := fnv64Ids set
  let hit (idx : Nat) : Bool :=
    match d.states[idx]? with
    | some st => st.hash == h && st.set == set
    | none => false
  match probe d.bucket d.bucketMask hit (d.bucketMask + 1) (d.home h) with
  | .found idx => (idx, false, d)
  | .free slot =>
    let idx := d.states.length
    (idx, true,
      { d with
        states := d.states ++ [{ accepting := accepting, set := set, hash := h }]
        bucket := d.bucket.set slot (some idx)
        bucketUsed := d.bucketUsed + 1 })

/-- Records a live transition of state `cur`. -/
def setTrans (d : Dfa) (cur : Nat) (b : Byte) (id : Nat) : Dfa :=
  { d with states := d.states.modify cur (·.setTrans b id) }

end Dfa

/-- Adds an epsilon target that is not yet in the set, and stacks it. -/
def ecloseVisit (target : Option Nat) (work : List Nat × List Nat) : List Nat × List Nat :=
  match target with
  | none => work
  | some t => if t ∈ work.2 then work else (t :: work.1, sortedAdd work.2 t)

/-- The loop of `eclose` over the stack and the set. -/
def ecloseLoop (nfa : Nfa) : Nat → List Nat × List Nat → List Nat
  | 0, work => work.2
  | _ + 1, ([], set) => set
  | fuel + 1, (cur :: stk, set) =>
    match nfa.states[cur]? with
    | some s =>
      if s.kind = .split then
        ecloseLoop nfa fuel (ecloseVisit s.out2 (ecloseVisit s.out1 (stk, set)))
      else ecloseLoop nfa fuel (stk, set)
    | none => ecloseLoop nfa fuel (stk, set)

/-- Adds to a set every state reached from `start` by epsilon edges. -/
def eclose (nfa : Nfa) (set : List Nat) (start : Nat) : List Nat :=
  if start ∈ set then set
  else ecloseLoop nfa nfa.states.length ([start], sortedAdd set start)

/-- Adds the closure of where state `id` goes on one byte. -/
def moveVisit (nfa : Nfa) (b : Byte) (next : List Nat) (id : Nat) : List Nat :=
  match nfa.states[id]? with
  | some s =>
    if s.kind = .byte ∧ s.cls.has b = true then
      match s.out1 with
      | some t => eclose nfa next t
      | none => next
    else next
  | none => next

/-- The states reached from a subset on one byte. -/
def moveSet (nfa : Nfa) (set : List Nat) (b : Byte) : List Nat :=
  set.foldl (moveVisit nfa b) []

def allBytes : List Byte := (List.range 256).map UInt8.ofNat

/-- The transition of state `cur`, whose subset is `curSet`, on one byte. -/
def expandByte (nfa : Nfa) (cur : Nat) (curSet : List Nat) (dfa : Dfa) (b : Byte) : Dfa :=
  let next := moveSet nfa curSet b
  if next = [] then dfa
  else
    let (id, _, dfa) := dfa.findOrAdd next (sortedContains next nfa.matchState)
    dfa.setTrans cur b id

/-- All transitions of state `cur`. -/
def expandState (nfa : Nfa) (cur : Nat) (dfa : Dfa) : Dfa :=
  match dfa.states[cur]? with
  | some st => allBytes.foldl (expandByte nfa cur st.set) dfa
  | none => dfa

/-- Expands states in the order they were added until none is left. -/
def expandLoop (nfa : Nfa) : Nat → Nat → Dfa → Dfa
  | 0, _, dfa => dfa
  | fuel + 1, processed, dfa =>
    if processed < dfa.states.length then
      expandLoop nfa fuel (processed + 1) (expandState nfa processed dfa)
    else dfa

/-- The table with the start state alone. -/
def startDfa (nfa : Nfa) : Dfa :=
  let start := eclose nfa [] 0
  ((Dfa.rehash {} 31).findOrAdd start (sortedContains start nfa.matchState)).2.2

/-- There are at most as many states as subsets, so the bound is never reached. -/
def nfaToDfa (nfa : Nfa) : Dfa :=
  expandLoop nfa (2 ^ nfa.states.length) 0 (startDfa nfa)

namespace Dfa

/-- `trans[b]` of state `s`. -/
def trans (d : Dfa) (s : Nat) (b : Byte) : Option Nat :=
  match d.states[s]? with
  | some st => (st.trans[b.toNat]?).getD none
  | none => none

def accepting (d : Dfa) (s : Nat) : Bool := (d.states[s]?.map DfaState.accepting).getD false

/-- Runs the automaton from state `s`. -/
def run (d : Dfa) : Nat → List Byte → Bool
  | s, [] => d.accepting s
  | s, b :: input =>
    match d.trans s b with
    | none => false
    | some t => run d t input

end Dfa

/-- Whether the pattern matches all of the input, and the text of the error
when the pattern is not accepted. -/
def mirRegexMatchReference (pattern input : List Byte) : Bool × Option String :=
  match parsePattern pattern with
  | .error e => (false, e.map RxError.message)
  | .ok tree => ((nfaToDfa (buildNfa tree)).run 0 input, none)

end Casprix.Regex
