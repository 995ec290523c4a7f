import Casprix.Mir.Builder
import Casprix.Regex.Dfa

/-! The matcher function emitted for an automaton, and the entry point of the
regex compiler. -/
namespace Casprix.Regex

open Mir

/-- The three blocks of one state. -/
structure StateBlocks where
  head : MirBlockId
  body : MirBlockId
  finish : MirBlockId
  deriving DecidableEq, Repr

/-- Adds the blocks of state `s`. -/
def addStateBlocks (acc : List StateBlocks × MirFunction) (s : Nat) :
    List StateBlocks × MirFunction :=
  let (head, func) := acc.2.addBlock ("state_" ++ toString s)
  let (body, func) := func.addBlock ("body_" ++ toString s)
  let (finish, func) := func.addBlock ("end_" ++ toString s)
  (acc.1 ++ [⟨head, body, finish⟩], func)

/-- `emit_switch`, which the public builder does not offer. -/
def emitSwitch (discriminant : MirValueId) (cases : List MirSwitchCase) (defaultBb : MirBlockRef) :
    Build Unit := do
  Build.emitVoid (.switch discriminant cases defaultBb)
  cases.forM fun c => Build.linkCfg c.target
  Build.linkCfg defaultBb

section

variable (bbs : List StateBlocks)

def headBb (s : Nat) : MirBlockRef := bbs[s]?.map StateBlocks.head

/-- The loop over the byte values that collects the live transitions. -/
def liveCases (st : DfaState) : List MirSwitchCase :=
  allBytes.filterMap fun bv =>
    match (st.trans[bv.toNat]?).getD none with
    | some t => some { value := bv.toNat, target := headBb bbs t }
    | none => none

/-- The block that checks for the end of the input. -/
def emitHead (lenId posSlot : MirValueId) (blocks : StateBlocks) : Build Unit := do
  Build.setBlock blocks.head
  let pos ← Build.load posSlot .i64
  let atEnd ← Build.cmpGe pos lenId
  Build.condbr atEnd (some blocks.finish) (some blocks.body)

/-- The block that reads a byte, advances and dispatches. -/
def emitBody (inputId posSlot : MirValueId) (reject : MirBlockId) (blocks : StateBlocks)
    (st : DfaState) : Build Unit := do
  Build.setBlock blocks.body
  let pos2 ← Build.load posSlot .i64
  let bp ← Build.getElemPtr inputId pos2
  let chU8 ← Build.load bp .u8
  let chI64 ← Build.zext chU8 .i64
  let one ← Build.constInt 1 .i64
  let pos3 ← Build.add pos2 one
  Build.store posSlot pos3
  if st.ntrans = 0 then Build.br (some reject)
  else emitSwitch chI64 ((liveCases bbs st).take st.ntrans) (some reject)

/-- The block that returns whether the state accepts. -/
def emitEnd (blocks : StateBlocks) (st : DfaState) : Build Unit := do
  Build.setBlock blocks.finish
  let v ← Build.constInt (if st.accepting then 1 else 0) .i32
  Build.ret v

def emitState (inputId lenId posSlot : MirValueId) (reject : MirBlockId) (blocks : StateBlocks)
    (st : DfaState) : Build Unit := do
  emitHead lenId posSlot blocks
  emitBody bbs inputId posSlot reject blocks st
  emitEnd blocks st

/-- The entry and reject blocks, then every state. -/
def emitBlocks (inputId lenId : MirValueId) (entry reject : MirBlockId) (states : List DfaState) :
    Build Unit := do
  Build.setBlock entry
  let posSlot ← Build.alloca .i64
  let zeroI64 ← Build.constInt 0 .i64
  Build.store posSlot zeroI64
  Build.br (headBb bbs 0)
  Build.setBlock reject
  let zeroI32 ← Build.constInt 0 .i32
  Build.ret zeroI32
  (bbs.zip states).forM fun (blocks, st) => emitState bbs inputId lenId posSlot reject blocks st

end

/-- The id `mir_module_add_function` gave the parameter at place `i`. -/
def paramId (func : MirFunction) (i : Nat) : MirValueId :=
  (func.params[i]?.map MirParam.valueId).getD 0

/-- The ids of the entry and reject blocks, and the function with these two. -/
def startFunction (funcName : String) : MirBlockId × MirBlockId × MirFunction :=
  let func := newFunction funcName (some .i32) [("input", some (.ptr .u8)), ("len", some .i64)]
  let (entry, func) := func.addBlock "entry"
  let (reject, func) := func.addBlock "reject"
  (entry, reject, func)

def emitMir (funcName : String) (dfa : Dfa) : MirFunction :=
  let start := startFunction funcName
  let added := (List.range dfa.states.length).foldl addStateBlocks ([], start.2.2)
  let emission := emitBlocks added.1 (paramId added.2 0) (paramId added.2 1) start.1 start.2.1
    dfa.states
  (emission.run ⟨added.2, start.1⟩).2.func

structure MirRegexResult where
  ok : Bool := false
  error : Option String := none
  errorPos : Int := -1
  func : Option MirFunction := none
  dfaStates : Nat := 0
  nfaStates : Nat := 0
  acceptingStates : Nat := 0
  deriving DecidableEq, Repr

/-- Compiles a pattern into a function at the head of the module's list. -/
def mirRegexCompile (module : MirModule) (funcName : String) (pattern : List Byte) :
    MirRegexResult × MirModule :=
  match parsePattern pattern with
  | .error none => ({}, module)
  | .error (some e) => ({ error := some e.message, errorPos := e.pos }, module)
  | .ok tree =>
    let nfa := buildNfa tree
    let dfa := nfaToDfa nfa
    let func := emitMir funcName dfa
    ({ ok := true
       func := some func
       dfaStates := dfa.states.length
       nfaStates := nfa.states.length
       acceptingStates := dfa.states.countP DfaState.accepting },
      { module with funcList := func :: module.funcList })

end Casprix.Regex
