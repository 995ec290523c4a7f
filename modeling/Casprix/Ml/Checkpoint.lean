import Casprix.Library.Reader

/-! Saving and loading a transformer model. A file is its bytes, words lie in it with the lowest
byte first, and an `f32` is its bits. -/
namespace Casprix.Ml

open Library

def sha256K : List (BitVec 32) := [
  0x428a2f98, 0x71374491, 0xb5c0fbcf, 0xe9b5dba5, 0x3956c25b, 0x59f111f1,
  0x923f82a4, 0xab1c5ed5, 0xd807aa98, 0x12835b01, 0x243185be, 0x550c7dc3,
  0x72be5d74, 0x80deb1fe, 0x9bdc06a7, 0xc19bf174, 0xe49b69c1, 0xefbe4786,
  0x0fc19dc6, 0x240ca1cc, 0x2de92c6f, 0x4a7484aa, 0x5cb0a9dc, 0x76f988da,
  0x983e5152, 0xa831c66d, 0xb00327c8, 0xbf597fc7, 0xc6e00bf3, 0xd5a79147,
  0x06ca6351, 0x14292967, 0x27b70a85, 0x2e1b2138, 0x4d2c6dfc, 0x53380d13,
  0x650a7354, 0x766a0abb, 0x81c2c92e, 0x92722c85, 0xa2bfe8a1, 0xa81a664b,
  0xc24b8b70, 0xc76c51a3, 0xd192e819, 0xd6990624, 0xf40e3585, 0x106aa070,
  0x19a4c116, 0x1e376c08, 0x2748774c, 0x34b0bcb5, 0x391c0cb3, 0x4ed8aa4a,
  0x5b9cca4f, 0x682e6ff3, 0x748f82ee, 0x78a5636f, 0x84c87814, 0x8cc70208,
  0x90befffa, 0xa4506ceb, 0xbef9a3f7, 0xc67178f2]

section

variable (x y z : BitVec 32)

def sha256Ch : BitVec 32 := (x &&& y) ^^^ (~~~x &&& z)
def sha256Maj : BitVec 32 := (x &&& y) ^^^ (x &&& z) ^^^ (y &&& z)
def sha256Ep0 : BitVec 32 := x.rotateRight 2 ^^^ x.rotateRight 13 ^^^ x.rotateRight 22
def sha256Ep1 : BitVec 32 := x.rotateRight 6 ^^^ x.rotateRight 11 ^^^ x.rotateRight 25
def sha256Sg0 : BitVec 32 := x.rotateRight 7 ^^^ x.rotateRight 18 ^^^ x >>> 3
def sha256Sg1 : BitVec 32 := x.rotateRight 17 ^^^ x.rotateRight 19 ^^^ x >>> 10

end

structure Sha256State where
  a : BitVec 32
  b : BitVec 32
  c : BitVec 32
  d : BitVec 32
  e : BitVec 32
  f : BitVec 32
  g : BitVec 32
  h : BitVec 32

namespace Sha256State

def start : Sha256State :=
  ⟨0x6a09e667, 0xbb67ae85, 0x3c6ef372, 0xa54ff53a, 0x510e527f,
    0x9b05688c, 0x1f83d9ab, 0x5be0cd19⟩

def round (s : Sha256State) (kw : BitVec 32 × BitVec 32) : Sha256State :=
  let t1 := s.h + sha256Ep1 s.e + sha256Ch s.e s.f s.g + kw.1 + kw.2
  let t2 := sha256Ep0 s.a + sha256Maj s.a s.b s.c
  ⟨t1 + t2, s.a, s.b, s.c, s.d + t1, s.e, s.f, s.g⟩

def add (s t : Sha256State) : Sha256State :=
  ⟨s.a + t.a, s.b + t.b, s.c + t.c, s.d + t.d, s.e + t.e, s.f + t.f, s.g + t.g, s.h + t.h⟩

def words (s : Sha256State) : List (BitVec 32) := [s.a, s.b, s.c, s.d, s.e, s.f, s.g, s.h]

end Sha256State

/-- The next word of the schedule. -/
def sha256Extend (w : List (BitVec 32)) : List (BitVec 32) :=
  let i := w.length
  w ++ [sha256Sg1 (w.getD (i - 2) 0) + w.getD (i - 7) 0 + sha256Sg0
    (w.getD (i - 15) 0) + w.getD (i - 16) 0]

def sha256Block (st : Sha256State) (blk : List Byte) : Sha256State :=
  let first := (List.range 16).map fun i =>
    BitVec.ofNat 32 (fromBigEndian ((blk.drop (4 * i)).take 4))
  let w := (sha256Extend^[48]) first
  st.add ((sha256K.zip w).foldl Sha256State.round st)

/-- The blocks of a byte string after padding. -/
def sha256Blocks (data : List Byte) : List (List Byte) :=
  let whole := (List.range (data.length / 64)).map fun i => (data.drop (64 * i)).take 64
  let tail := data.drop (64 * (data.length / 64)) ++ [0x80]
  let bits := bigEndian 8 (data.length * 8)
  if data.length % 64 < 56 then
    whole ++ [tail ++ List.replicate (55 - data.length % 64) 0 ++ bits]
  else
    whole ++ [tail ++ List.replicate (63 - data.length % 64) 0, List.replicate 56 0 ++ bits]

def checkpointSha256 (data : List Byte) : List Byte :=
  ((sha256Blocks data).foldl sha256Block Sha256State.start).words.flatMap fun word =>
    bigEndian 4 word.toNat

def checkpointSha256Size : Nat := 32

theorem length_checkpointSha256 (data : List Byte) :
    (checkpointSha256 data).length = checkpointSha256Size := by
  rw [checkpointSha256, List.length_flatMap]
  rfl

def maxTensorDim : Nat := 4

/-- The elements of a shape, counted in `size_t`. -/
def tensorSize (shape : List (BitVec 32)) : BitVec 64 :=
  shape.foldl (fun total dim => total * dim.signExtend 64) 1

/-- A tensor that owns its data. -/
structure Tensor where
  shape : List (BitVec 32)
  data : List (BitVec 32)
  dims : 0 < shape.length ∧ shape.length ≤ maxTensorDim
  sized : data.length = (tensorSize shape).toNat

/-- `tensor_create`, with the data that is read into it. -/
def tensorCreate (shape data : List (BitVec 32)) : Reader Tensor :=
  if h : (0 < shape.length ∧ shape.length ≤ maxTensorDim) ∧
    data.length = (tensorSize shape).toNat then
    pure ⟨shape, data, h.1, h.2⟩
  else failure

def saveTensor (tensor : Tensor) : List Byte :=
  writeWord 4 (BitVec.ofNat 32 tensor.shape.length) ++
    (tensor.shape.flatMap (writeWord 4) ++
      (writeWord 8 (tensorSize tensor.shape) ++ tensor.data.flatMap (writeWord 4)))

/-- Nothing is said about a file that ends in a tensor or declares another number of elements. -/
def loadTensor : Reader Tensor := do
  let ndim ← readWord 4 32
  let shape ← readMany (readWord 4 32) ndim.toNat
  let size ← readWord 8 64
  let data ← readMany (readWord 4 32) size.toNat
  tensorCreate shape data

/-- `tensor_copy`, after its assertion. -/
def tensorCopy (src dst : Tensor) : Option Tensor :=
  if h : src.data.length = dst.data.length then
    some { dst with data := src.data, sized := h.trans dst.sized }
  else none

structure Attention where
  Wq : Tensor
  Wk : Tensor
  Wv : Tensor
  Wo : Tensor
  numHeads : BitVec 32
  headDim : BitVec 32

structure FFN where
  W1 : Tensor
  b1 : Tensor
  W2 : Tensor
  b2 : Tensor

structure TransformerBlock where
  attn : Attention
  ffn : FFN
  ln1Gamma : Tensor
  ln1Beta : Tensor
  ln2Gamma : Tensor
  ln2Beta : Tensor

structure Embeddings where
  tokenEmbedding : Tensor
  posEmbedding : Tensor
  vocabSize : BitVec 32
  hiddenDim : BitVec 32
  maxSeqLen : BitVec 32

/-- The number of layers is that of the blocks. -/
structure TransformerModel where
  embeddings : Embeddings
  blocks : List TransformerBlock
  lnFinalGamma : Tensor
  lnFinalBeta : Tensor
  lmHead : Tensor
  hiddenDim : BitVec 32
  vocabSize : BitVec 32

structure CheckpointHeader where
  magic : BitVec 32
  version : BitVec 32
  vocabSize : BitVec 32
  hiddenDim : BitVec 32
  numLayers : BitVec 32
  numHeads : BitVec 32
  ffnDim : BitVec 32
  maxSeqLen : BitVec 32
  trainingStep : BitVec 32
  learningRate : BitVec 32
  lastLoss : BitVec 32
  sha256 : List Byte
  reserved : List (BitVec 32)
  digestSize : sha256.length = checkpointSha256Size
  reservedSize : reserved.length = 8

def checkpointMagic : BitVec 32 := 0x4D4F4445

def checkpointCurrentVersion : BitVec 32 := 2

/-- The bytes of a header, which has no padding. -/
def writeHeader (header : CheckpointHeader) : List Byte :=
  [header.magic, header.version, header.vocabSize, header.hiddenDim,
    header.numLayers, header.numHeads,
    header.ffnDim, header.maxSeqLen, header.trainingStep, header.learningRate,
    header.lastLoss].flatMap (writeWord 4) ++
      (header.sha256 ++ header.reserved.flatMap (writeWord 4))

def headerOfWords (words : List (BitVec 32)) (sha256 : List Byte) (reserved : List (BitVec 32)) :
    Reader CheckpointHeader :=
  match words with
  | [magic, version, vocabSize, hiddenDim, numLayers, numHeads, ffnDim, maxSeqLen, trainingStep,
      learningRate, lastLoss] =>
      if h : sha256.length = checkpointSha256Size ∧ reserved.length = 8 then
        pure { magic, version, vocabSize, hiddenDim, numLayers, numHeads, ffnDim, maxSeqLen,
               trainingStep, learningRate, lastLoss, sha256, reserved, digestSize := h.1,
               reservedSize := h.2 }
      else failure
  | _ => failure

def readHeader : Reader CheckpointHeader := do
  let words ← readMany (readWord 4 32) 11
  let sha256 ← readMany readByte checkpointSha256Size
  let reserved ← readMany (readWord 4 32) 8
  headerOfWords words sha256 reserved

def saveBlock (block : TransformerBlock) : List Byte :=
  saveTensor block.attn.Wq ++ (saveTensor block.attn.Wk ++ (saveTensor block.attn.Wv ++
    (saveTensor block.attn.Wo ++ (saveTensor block.ln1Gamma ++ (saveTensor block.ln1Beta ++
      (saveTensor block.ffn.W1 ++ (saveTensor block.ffn.b1 ++ (saveTensor block.ffn.W2 ++
        (saveTensor block.ffn.b2 ++ (saveTensor block.ln2Gamma ++ saveTensor block.ln2Beta))))))))))

def savePayload (model : TransformerModel) : List Byte :=
  saveTensor model.embeddings.tokenEmbedding ++ (saveTensor model.embeddings.posEmbedding ++
    (model.blocks.flatMap saveBlock ++ (saveTensor model.lnFinalGamma ++
      (saveTensor model.lnFinalBeta ++ saveTensor model.lmHead))))

/-- The header of the file. -/
def savedHeader (model : TransformerModel) (header : CheckpointHeader) : CheckpointHeader :=
  { header with
    magic := checkpointMagic
    version := checkpointCurrentVersion
    sha256 := checkpointSha256 (savePayload model)
    digestSize := length_checkpointSha256 (savePayload model) }

/-- The file that `checkpoint_save` leaves. -/
def checkpointSave (model : TransformerModel) (header : CheckpointHeader) : List Byte :=
  writeHeader (savedHeader model header) ++ savePayload model

/-- The division of the dimension into heads. -/
def headDimOf (header : CheckpointHeader) : Reader (BitVec 32) :=
  if header.numHeads = 0 ∨ (header.hiddenDim = BitVec.intMin 32 ∧
    header.numHeads = -1) then failure
  else pure (header.hiddenDim.sdiv header.numHeads)

def loadBlock (header : CheckpointHeader) : Reader TransformerBlock := do
  let headDim ← headDimOf header
  let Wq ← loadTensor
  let Wk ← loadTensor
  let Wv ← loadTensor
  let Wo ← loadTensor
  let ln1Gamma ← loadTensor
  let ln1Beta ← loadTensor
  let W1 ← loadTensor
  let b1 ← loadTensor
  let W2 ← loadTensor
  let b2 ← loadTensor
  let ln2Gamma ← loadTensor
  let ln2Beta ← loadTensor
  return { attn := { Wq, Wk, Wv, Wo, numHeads := header.numHeads, headDim }
           ffn := { W1, b1, W2, b2 }
           ln1Gamma, ln1Beta, ln2Gamma, ln2Beta }

def loadModel (header : CheckpointHeader) : Reader TransformerModel := do
  let tokenEmbedding ← loadTensor
  let posEmbedding ← loadTensor
  let blocks ← readMany (loadBlock header) header.numLayers.toInt.toNat
  let lnFinalGamma ← loadTensor
  let lnFinalBeta ← loadTensor
  let lmHead ← loadTensor
  return { embeddings := { tokenEmbedding, posEmbedding, vocabSize := header.vocabSize,
                           hiddenDim := header.hiddenDim, maxSeqLen := header.maxSeqLen }
           blocks, lnFinalGamma, lnFinalBeta, lmHead
           hiddenDim := header.hiddenDim
           vocabSize := header.vocabSize }

/-- A call that refuses the file, one whose outcome is not defined, or one that succeeds. -/
inductive LoadResult (α : Type)
  | null
  | stray
  | loaded (a : α)

def checkpointLoad (file : List Byte) : LoadResult (TransformerModel × CheckpointHeader) :=
  match readHeader file with
  | none => .null
  | some (header, payload) =>
    if header.magic ≠ checkpointMagic then .null
    else if header.version.toNat < 1 ∨
      checkpointCurrentVersion.toNat < header.version.toNat then .null
    else if 2 ≤ header.version.toNat ∧ checkpointSha256 payload ≠ header.sha256 then .null
    else
      match loadModel header payload with
      | none => .stray
      | some (model, _) => .loaded (model, header)

/-- The copies of one block. -/
def copyBlock (src dst : TransformerBlock) : Option TransformerBlock := do
  let Wq ← tensorCopy src.attn.Wq dst.attn.Wq
  let Wk ← tensorCopy src.attn.Wk dst.attn.Wk
  let Wv ← tensorCopy src.attn.Wv dst.attn.Wv
  let Wo ← tensorCopy src.attn.Wo dst.attn.Wo
  let W1 ← tensorCopy src.ffn.W1 dst.ffn.W1
  let W2 ← tensorCopy src.ffn.W2 dst.ffn.W2
  let ln1Gamma ← tensorCopy src.ln1Gamma dst.ln1Gamma
  let ln1Beta ← tensorCopy src.ln1Beta dst.ln1Beta
  let ln2Gamma ← tensorCopy src.ln2Gamma dst.ln2Gamma
  let ln2Beta ← tensorCopy src.ln2Beta dst.ln2Beta
  return { attn := { dst.attn with Wq, Wk, Wv, Wo }
           ffn := { dst.ffn with W1, W2 }
           ln1Gamma, ln1Beta, ln2Gamma, ln2Beta }

/-- The loop runs over the blocks of the target. -/
def copyBlocks : List TransformerBlock → List TransformerBlock → Option (List TransformerBlock)
  | _, [] => some []
  | [], _ :: _ => none
  | src :: srcs, dst :: dsts => do
      let block ← copyBlock src dst
      let rest ← copyBlocks srcs dsts
      return block :: rest

def copyModel (src dst : TransformerModel) : Option TransformerModel := do
  let tokenEmbedding ← tensorCopy src.embeddings.tokenEmbedding dst.embeddings.tokenEmbedding
  let posEmbedding ← tensorCopy src.embeddings.posEmbedding dst.embeddings.posEmbedding
  let blocks ← copyBlocks src.blocks dst.blocks
  let lnFinalGamma ← tensorCopy src.lnFinalGamma dst.lnFinalGamma
  let lnFinalBeta ← tensorCopy src.lnFinalBeta dst.lnFinalBeta
  let lmHead ← tensorCopy src.lmHead dst.lmHead
  return { dst with
    embeddings := { dst.embeddings with tokenEmbedding, posEmbedding }
    blocks, lnFinalGamma, lnFinalBeta, lmHead }

/-- The target after `checkpoint_load_weights`. -/
def checkpointLoadWeights (target : TransformerModel) (file : List Byte) :
    LoadResult TransformerModel :=
  match checkpointLoad file with
  | .null => .null
  | .stray => .stray
  | .loaded (model, _) =>
    match copyModel model target with
    | none => .stray
    | some copied => .loaded copied

end Casprix.Ml
