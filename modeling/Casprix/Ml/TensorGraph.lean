import Mathlib

/-! The tensor graph, its passes and its value. The nodes of a graph are a list in the order of
`next`, a value is its number, and the definition of a value is the node with this output. -/
namespace Casprix.Ml

inductive IROpCode
  | gemm | gemmBias | transpose
  | add | mul | scale | gelu | relu | silu
  | layernorm | rmsnorm | softmax
  | load | store | const
  | fusedGemmBiasGelu | fusedGemmBiasRelu | fusedAddScale | fusedBiasResidual
  | embedding | crossEntropy | attention
  deriving DecidableEq, Repr

/-- The scalars of a graph, with the test `fabsf(scalar - 1.0f) < 1e-7f`. -/
class IRScalar (F : Type) where
  nearOne : F → Bool

instance : IRScalar ℚ where
  nearOne scalar := decide (|scalar - 1| < 1 / 10000000)

/-- The attributes of a node. Each operator reads its own. -/
structure IRAttrs (F : Type) where
  scalar : F
  eps : F
  M : Int := 0
  K : Int := 0
  N : Int := 0
  batch : Int := 0
  dim : Int := 0
  seqLen : Int := 0
  numHeads : Int := 0
  headDim : Int := 0
  vocabSize : Int := 0
  tokenIds : List Int := []
  targets : List Int := []

structure IRShape where
  shape : List Int
  ndim : Int
  size : Nat
  deriving DecidableEq

/-- A node, with the shape of its output. -/
structure IRNode (F : Type) where
  op : IROpCode
  inputs : List Nat
  output : Nat
  outputShape : IRShape
  attrs : IRAttrs F
  eliminated : Bool := false

variable {F V : Type}

def IRNode.eliminate (node : IRNode F) : IRNode F := { node with eliminated := true }

variable (nodes : List (IRNode F))

/-- `use_count` of a value, as both passes compute it before they walk over the graph. -/
def useCount (v : Nat) : Nat :=
  ((nodes.filter (!·.eliminated)).flatMap (·.inputs)).count v

def irGraphLiveCount (nodes : List (IRNode F)) : Nat := nodes.countP (!·.eliminated)

/-- The node is no output of the graph and nothing uses it. -/
def deadAt (i : Nat) (node : IRNode F) : Bool :=
  !node.eliminated && i + 1 != nodes.length && useCount nodes node.output == 0

/-- One turn of the `while` loop of `ir_dce`. -/
def dceOnce : List (IRNode F) :=
  nodes.mapIdx fun i node => if deadAt nodes i node then node.eliminate else node

/-- The loop goes on as long as a turn eliminates a node. -/
def irDce (nodes : List (IRNode F)) : List (IRNode F) :=
  if irGraphLiveCount (dceOnce nodes) < irGraphLiveCount nodes then irDce (dceOnce nodes)
  else dceOnce nodes
termination_by irGraphLiveCount nodes

def IRNode.replaceInput (user : IRNode F) (output replacement : Nat) : IRNode F :=
  if user.eliminated then user
  else { user with inputs := user.inputs.map fun v => if v = output then replacement else v }

/-- `ir_constant_fold` at the `i`-th node: a scale by one passes its input on to the later nodes. -/
def foldAt [IRScalar F] (nodes : List (IRNode F)) (i : Nat) : List (IRNode F) :=
  match nodes[i]? with
  | some node =>
    if !node.eliminated && node.op == .scale && IRScalar.nearOne node.attrs.scalar then
      match node.inputs.head? with
      | some replacement =>
        nodes.mapIdx fun k user =>
          if k = i then user.eliminate
          else if i < k then user.replaceInput node.output replacement else user
      | none => nodes
    else nodes
  | none => nodes

def irConstantFold [IRScalar F] (nodes : List (IRNode F)) : List (IRNode F) :=
  (List.range nodes.length).foldl foldAt nodes

def isSingleUseBy (counts : Nat → Nat) (producer consumer : IRNode F) : Bool :=
  counts producer.output == 1 && consumer.inputs.contains producer.output

/-- The node that takes the place of a consumer and its producer, in one of the three patterns. -/
def fusedNode (node producer : IRNode F) : Option (IRNode F) :=
  match node.op, producer.op with
  | .gelu, .gemmBias =>
    some { node with
      op := .fusedGemmBiasGelu
      inputs := producer.inputs.take 3
      attrs := { node.attrs with M := producer.attrs.M, K := producer.attrs.K, N :=
        producer.attrs.N }
      outputShape := producer.outputShape }
  | .relu, .gemmBias =>
    some { node with
      op := .fusedGemmBiasRelu
      inputs := producer.inputs.take 3
      attrs := { node.attrs with M := producer.attrs.M, K := producer.attrs.K, N :=
        producer.attrs.N }
      outputShape := producer.outputShape }
  | .scale, .add => some { node with op := .fusedAddScale, inputs := producer.inputs.take 2 }
  | _, _ => none

/-- The `def` of a value. -/
def defOf (v : Nat) : Option Nat := nodes.findIdx? (·.output == v)

/-- `ir_fuse_ops` at the `i`-th node. The use counts are those of the beginning of the pass. -/
def fuseAt (counts : Nat → Nat) (nodes : List (IRNode F)) (i : Nat) : List (IRNode F) :=
  match nodes[i]? with
  | some node =>
    match node.inputs.head?.bind (defOf nodes) with
    | some p =>
      match nodes[p]? with
      | some producer =>
        if !node.eliminated && !producer.eliminated && isSingleUseBy counts producer node then
          match fusedNode node producer with
          | some fused => (nodes.set i fused).set p producer.eliminate
          | none => nodes
        else nodes
      | none => nodes
    | none => nodes
  | none => nodes

def irFuseOps : List (IRNode F) :=
  (List.range nodes.length).foldl (fuseAt (useCount nodes)) nodes

/-- The memory planner, which comes last, assigns slots only. -/
def irOptimize [IRScalar F] (nodes : List (IRNode F)) : List (IRNode F) :=
  irDce (irFuseOps (irConstantFold (irDce nodes)))

/-- A meaning of the operators, in which a fused one is the composition of its parts. -/
structure IRInterp (F V : Type) [IRScalar F] where
  den : IROpCode → IRAttrs F → List V → V
  fusedGelu (attrs p : IRAttrs F) (a b c : V) :
    den .fusedGemmBiasGelu { attrs with M := p.M, K := p.K, N := p.N } [a, b, c] =
      den .gelu attrs [den .gemmBias p [a, b, c]]
  fusedRelu (attrs p : IRAttrs F) (a b c : V) :
    den .fusedGemmBiasRelu { attrs with M := p.M, K := p.K, N := p.N } [a, b, c] =
      den .relu attrs [den .gemmBias p [a, b, c]]
  fusedAddScale (attrs p : IRAttrs F) (a b : V) :
    den .fusedAddScale attrs [a, b] = den .scale attrs [den .add p [a, b]]
  scaleOne (attrs : IRAttrs F) (a : V) : IRScalar.nearOne attrs.scalar = true →
    den .scale attrs [a] = a

section

variable [IRScalar F] [Ring V] (factor : F → V) (gelu relu : V → V)
  (others : IROpCode → IRAttrs F → List V → V)

/-- The operators over a ring. -/
def ringDen : IROpCode → IRAttrs F → List V → V
  | .gemm, _, [a, b] => a * b
  | .gemmBias, _, [a, b, bias] => a * b + bias
  | .add, _, [a, b] => a + b
  | .mul, _, [a, b] => a * b
  | .scale, attrs, [a] => a * factor attrs.scalar
  | .gelu, _, [a] => gelu a
  | .relu, _, [a] => relu a
  | .fusedGemmBiasGelu, _, [a, b, bias] => gelu (a * b + bias)
  | .fusedGemmBiasRelu, _, [a, b, bias] => relu (a * b + bias)
  | .fusedAddScale, attrs, [a, b] => (a + b) * factor attrs.scalar
  | op, attrs, values => others op attrs values

def ringInterp (hOne : ∀ s, IRScalar.nearOne s = true → factor s = 1) : IRInterp F V where
  den := ringDen factor gelu relu others
  fusedGelu _ _ _ _ _ := rfl
  fusedRelu _ _ _ _ _ := rfl
  fusedAddScale _ _ _ _ := rfl
  scaleOne attrs a h := by
    show a * factor attrs.scalar = a
    rw [hOne attrs.scalar h, mul_one]

end

variable [IRScalar F] (interp : IRInterp F V)

/-- The values when the remaining nodes are computed in order, from those of the graph's inputs. -/
def irEval (env : Nat → V) : List (IRNode F) → Nat → V
  | [] => env
  | node :: rest =>
    if node.eliminated then irEval env rest
    else irEval (Function.update env node.output
      (interp.den node.op node.attrs (node.inputs.map env))) rest

/-- The last node that is not eliminated. -/
def lastLive : Option (IRNode F) := (nodes.filter (!·.eliminated)).getLast?

def outputs : List Nat := nodes.map (·.output)

/-- The number of inputs of the operators that the passes rewrite. -/
def IROpCode.arity : IROpCode → Option Nat
  | .gemmBias => some 3
  | .add => some 2
  | .scale | .gelu | .relu => some 1
  | _ => none

/-- A value is defined once, and each input of a remaining node is an input of the graph or the
output of a remaining node before it. -/
structure SsaOrder (nodes : List (IRNode F)) : Prop where
  once : (outputs nodes).Nodup
  arity : ∀ node ∈ nodes, node.eliminated = false →
    ∀ n ∈ node.op.arity, node.inputs.length = n
  before : ∀ (i : Nat) (node : IRNode F), nodes[i]? = some node →
    node.eliminated = false → ∀ v ∈ node.inputs,
    v ∈ outputs nodes → ∃ j < i, ∃ m : IRNode F, nodes[j]? = some m ∧
      m.eliminated = false ∧ m.output = v

/-- Each input of a remaining node is an input of the graph or the output of a remaining node. -/
def InputsRemain : Prop :=
  ∀ node ∈ nodes, node.eliminated = false → ∀ v ∈ node.inputs, v ∈ outputs nodes →
    ∃ m ∈ nodes, m.eliminated = false ∧ m.output = v

end Casprix.Ml
