import Casprix.Library.Machine

/-! The lock-free queue between the threads that log and the thread that writes.
Each step is one atomic access; the plain writes to a slot that a producer has
claimed are one step, and so is the write of a batch. Positions do not overflow. -/
namespace Casprix.Logging

inductive CpxLogLevel
  | debug
  | info
  | warn
  | error
  deriving DecidableEq, Repr

def cpxLogMsgMax : Nat := 240

/-- What a slot stores: the first `len` bytes of `msg` are the message. -/
structure CpxLogSlot where
  seq : Nat
  len : Nat
  level : CpxLogLevel
  msg : List UInt8
  deriving DecidableEq, Repr

/-- A message as it is passed to `cpx_logq_try_push`. -/
structure LogMessage where
  level : CpxLogLevel
  msg : List UInt8
  deriving DecidableEq, Repr

/-- The message up to the length that is kept. -/
def LogMessage.cut (m : LogMessage) : List UInt8 := m.msg.take cpxLogMsgMax

/-- The four vectors of a message, of which the last is the newline. -/
structure LogLine where
  levelStr : String
  ts : List UInt8
  msg : List UInt8
  deriving DecidableEq, Repr

def levelStr : CpxLogLevel → String
  | .warn => "[WARN]  "
  | .error => "[ERROR] "
  | .debug => "[DEBUG] "
  | .info => "[INFO]  "

/-- A slot that was picked for the next write. Its message is read by the write. -/
structure LogPick where
  pos : Nat
  levelStr : String
  ts : List UInt8
  len : Nat
  deriving DecidableEq, Repr

/-- Where a producer stands in `cpx_logq_try_push`. -/
inductive PushPoint
  | idle
  | loadPos (m : LogMessage)
  | loadSeq (m : LogMessage) (pos : Nat)
  | exchange (m : LogMessage) (pos : Nat)
  | fill (m : LogMessage) (pos : Nat)
  | publish (m : LogMessage) (pos : Nat)
  | drop
  deriving DecidableEq, Repr

/-- Where the drain thread stands. The flag says that `running` was found to be
false, so that this is the last `cpx_log_drain_once`. -/
inductive DrainPoint
  | loadRunning
  | pick (last : Bool) (picked : List LogPick)
  | loadSeq (last : Bool) (picked : List LogPick) (pos : Nat)
  | exchange (last : Bool) (picked : List LogPick) (pos : Nat)
  | format (last : Bool) (picked : List LogPick) (pos : Nat)
  | write (last : Bool) (picked : List LogPick)
  | release (last : Bool) (todo : List LogPick)
  | exited
  deriving DecidableEq, Repr

inductive ShutdownPoint
  | idle
  | joining
  | returned
  deriving DecidableEq, Repr

/-- The queue and its threads. Beside them stand the messages in the order of the
enqueue positions, the accepted ones with their positions, those that were accepted
before the shutdown was called, the number of refused pushes, and what was written. -/
structure LogState where
  slots : Nat → CpxLogSlot
  mask : Nat
  enqueuePos : Nat
  dequeuePos : Nat
  dropped : Nat
  running : Bool
  producer : Nat → PushPoint
  drain : DrainPoint
  shutdown : ShutdownPoint
  entries : List LogMessage
  accepted : List (Nat × LogMessage)
  promised : List (Nat × LogMessage)
  refused : Nat
  written : List LogLine

def cpxIsPow2 (v : Nat) : Bool := v != 0 && (v &&& (v - 1)) == 0

/-- `cpx_logq_init`, with the drain thread about to start. -/
def cpxLogqInit (capacityPow2 : Nat) : Option LogState :=
  if cpxIsPow2 capacityPow2 then
    some { slots := fun i => { seq := i, len := 0, level := .debug, msg := [] }
           mask := capacityPow2 - 1
           enqueuePos := 0
           dequeuePos := 0
           dropped := 0
           running := true
           producer := fun _ => .idle
           drain := .loadRunning
           shutdown := .idle
           entries := []
           accepted := []
           promised := []
           refused := 0
           written := [] }
  else none

namespace LogState

variable (s : LogState)

def slot (pos : Nat) : CpxLogSlot := s.slots (pos &&& s.mask)

def setSlot (pos : Nat) (slot : CpxLogSlot) : LogState :=
  { s with slots := Function.update s.slots (pos &&& s.mask) slot }

def setProducer (k : Nat) (point : PushPoint) : LogState :=
  { s with producer := Function.update s.producer k point }

def setDrain (point : DrainPoint) : LogState := { s with drain := point }

/-- The next step of a producer. The weak exchange may fail without a reason. -/
def pushStep (k : Nat) (spurious : Bool) (s : LogState) : Option LogState :=
  match s.producer k with
  | .idle => none
  | .loadPos m => some (s.setProducer k (.loadSeq m s.enqueuePos))
  | .loadSeq m pos =>
    if (s.slot pos).seq = pos then some (s.setProducer k (.exchange m pos))
    else if (s.slot pos).seq < pos then some (s.setProducer k .drop)
    else some (s.setProducer k (.loadPos m))
  | .exchange m pos =>
    if s.enqueuePos = pos ∧ spurious = false then
      some { s.setProducer k (.fill m pos) with
        enqueuePos := pos + 1, entries := s.entries ++ [m] }
    else some (s.setProducer k (.loadPos m))
  | .fill m pos =>
    some ((s.setSlot pos
      { seq := (s.slot pos).seq, len := m.cut.length, level := m.level
        msg := m.cut ++ (s.slot pos).msg.drop m.cut.length }).setProducer k (.publish m pos))
  | .publish m pos =>
    some { (s.setSlot pos { s.slot pos with seq := pos + 1 }).setProducer k .idle with
      accepted := s.accepted ++ [(pos, m)] }
  | .drop =>
    some { s.setProducer k .idle with dropped := s.dropped + 1, refused := s.refused + 1 }

/-- What the vectors of a picked slot point to when they are written. -/
def line (pick : LogPick) : LogLine where
  levelStr := pick.levelStr
  ts := pick.ts
  msg := (s.slot pick.pos).msg.take pick.len

/-- After a batch the thread looks at `running` again, unless it was the last. -/
def afterBatch (last : Bool) : DrainPoint := if last then .exited else .loadRunning

/-- The next step of the drain thread, where `ts` is what the clock says. -/
def drainStep (spurious : Bool) (ts : List UInt8) (s : LogState) : Option LogState :=
  match s.drain with
  | .loadRunning => some (s.setDrain (.pick (!s.running) []))
  | .pick last picked =>
    if picked.length < 32 then some (s.setDrain (.loadSeq last picked s.dequeuePos))
    else some (s.setDrain (.write last picked))
  | .loadSeq last picked pos =>
    if (s.slot pos).seq = pos + 1 then some (s.setDrain (.exchange last picked pos))
    else if (s.slot pos).seq < pos + 1 then some (s.setDrain (.write last picked))
    else some (s.setDrain (.pick last picked))
  | .exchange last picked pos =>
    if s.dequeuePos = pos ∧ spurious = false then
      some { s with dequeuePos := pos + 1, drain := .format last picked pos }
    else some (s.setDrain (.pick last picked))
  | .format last picked pos =>
    let pick : LogPick :=
      { pos := pos, levelStr := levelStr (s.slot pos).level, ts := ts, len := (s.slot pos).len }
    some (s.setDrain (.pick last (picked ++ [pick])))
  | .write last picked =>
    if picked = [] then some (s.setDrain (afterBatch last))
    else some { s with written := s.written ++ picked.map s.line, drain := .release last picked }
  | .release last [] => some (s.setDrain (afterBatch last))
  | .release last (pick :: todo) =>
    some ((s.setSlot pick.pos { s.slot pick.pos with seq := pick.pos + s.mask + 1 }).setDrain
      (.release last todo))
  | .exited => none

/-- The next step of `cpx_logq_shutdown`: it joins the drain thread and frees the slots. -/
def shutdownStep : Option LogState :=
  match s.shutdown with
  | .joining => if s.drain = .exited then some { s with shutdown := .returned } else none
  | _ => none

/-- The call of `cpx_logq_try_push`. Without a message or without slots it returns false at once,
and does not count that in `dropped`. -/
def cpxLogqTryPush (k : Nat) (m : Option LogMessage) (s : LogState) : Option LogState :=
  if s.producer k = .idle then
    match m with
    | some m =>
      if s.shutdown = .returned then some { s with refused := s.refused + 1 }
      else some (s.setProducer k (.loadPos m))
    | none => some { s with refused := s.refused + 1 }
  else none

/-- The call of `cpx_logq_shutdown`. -/
def cpxLogqShutdown : Option LogState :=
  if s.shutdown = .idle then
    some { s with running := false, shutdown := .joining, promised := s.accepted }
  else none

/-- When the shutdown has returned the slots are freed, and no thread takes a step on them. -/
def unlessFreed (next : Option LogState) : Option LogState :=
  if s.shutdown = .returned then none else next

end LogState

/-- What a schedule can choose. The message of a push may be a null pointer. -/
inductive LogAct
  | cpxLogqTryPush (k : Nat) (m : Option LogMessage)
  | producer (k : Nat) (spurious : Bool)
  | drain (spurious : Bool) (ts : List UInt8)
  | cpxLogqShutdown
  | shutdown

/-- One step of the threads. -/
def logStep (act : LogAct) (s : LogState) : Option LogState :=
  match act with
  | .cpxLogqTryPush k m => s.cpxLogqTryPush k m
  | .producer k spurious => s.unlessFreed (s.pushStep k spurious)
  | .drain spurious ts => s.unlessFreed (s.drainStep spurious ts)
  | .cpxLogqShutdown => s.cpxLogqShutdown
  | .shutdown => s.shutdownStep

end Casprix.Logging
