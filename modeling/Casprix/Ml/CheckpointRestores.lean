import Casprix.Ml.Checkpoint

/-! What a checkpoint restores: the loader reads back the whole model, and the copy into an
existing model does so when the biases of its feed-forward networks already agree. -/
namespace Casprix.Ml

open List Library

theorem reads_word32 (word : BitVec 32) : Reads (readWord 4 32) (writeWord 4 word) word :=
  reads_readWord (by norm_num) word

theorem reads_words32 (words : List (BitVec 32)) :
    Reads (readMany (readWord 4 32) words.length) (words.flatMap (writeWord 4)) words :=
  reads_readMany fun word _ => reads_word32 word

theorem reads_tensorCreate (tensor : Tensor) :
    Reads (tensorCreate tensor.shape tensor.data) [] tensor := by
  rw [tensorCreate, dif_pos ⟨tensor.dims, tensor.sized⟩]
  exact Reads.pure tensor

theorem reads_loadTensor (tensor : Tensor) : Reads loadTensor (saveTensor tensor) tensor := by
  have hNdim : (BitVec.ofNat 32 tensor.shape.length).toNat = tensor.shape.length := by
    have hDims : tensor.shape.length ≤ 4 := tensor.dims.2
    rw [BitVec.toNat_ofNat]
    omega
  have hShape := reads_words32 tensor.shape
  rw [← hNdim] at hShape
  have hData := reads_words32 tensor.data
  rw [tensor.sized] at hData
  have hSize : Reads (readWord 8 64) (writeWord 8 (tensorSize tensor.shape))
      (tensorSize tensor.shape) :=
    reads_readWord (by norm_num) _
  exact (reads_word32 _).bind
    (hShape.bind (hSize.bind (hData.bind_last (reads_tensorCreate tensor))))

theorem reads_readHeader (header : CheckpointHeader) :
    Reads readHeader (writeHeader header) header := by
  have hWords := reads_words32 [header.magic, header.version, header.vocabSize, header.hiddenDim,
    header.numLayers, header.numHeads, header.ffnDim, header.maxSeqLen, header.trainingStep,
    header.learningRate, header.lastLoss]
  have hDigest := reads_readBytes header.sha256
  rw [header.digestSize] at hDigest
  have hReserved := reads_words32 header.reserved
  rw [header.reservedSize] at hReserved
  refine hWords.bind (hDigest.bind (hReserved.bind_last ?_))
  rw [headerOfWords, dif_pos ⟨header.digestSize, header.reservedSize⟩]
  exact Reads.pure header

section

variable {header : CheckpointHeader} {model target : TransformerModel}

/-- The header has the layers of the model, and heads that its dimension can be divided by. -/
structure CheckpointHeader.Fits (header : CheckpointHeader) (model : TransformerModel) : Prop where
  layers : header.numLayers.toInt = model.blocks.length
  heads : model.blocks ≠ [] →
    ¬(header.numHeads = 0 ∨ (header.hiddenDim = BitVec.intMin 32 ∧ header.numHeads = -1))

/-- The block as it is loaded, with its heads from the header. -/
def rebuiltBlock (header : CheckpointHeader) (block : TransformerBlock) : TransformerBlock :=
  { block with
    attn := { block.attn with
      numHeads := header.numHeads
      headDim := header.hiddenDim.sdiv header.numHeads } }

/-- The model as it is loaded, with its dimensions from the header. -/
def rebuiltModel (header : CheckpointHeader) (model : TransformerModel) : TransformerModel :=
  { model with
    embeddings := { model.embeddings with
      vocabSize := header.vocabSize
      hiddenDim := header.hiddenDim
      maxSeqLen := header.maxSeqLen }
    blocks := model.blocks.map (rebuiltBlock header)
    hiddenDim := header.hiddenDim
    vocabSize := header.vocabSize }

theorem reads_loadBlock (block : TransformerBlock)
    (hHeads : ¬(header.numHeads = 0 ∨
      (header.hiddenDim = BitVec.intMin 32 ∧ header.numHeads = -1))) :
    Reads (loadBlock header) (saveBlock block) (rebuiltBlock header block) := by
  have hHeadDim : Reads (headDimOf header) [] (header.hiddenDim.sdiv header.numHeads) := by
    rw [headDimOf, if_neg hHeads]
    exact Reads.pure _
  show Reads (loadBlock header) ([] ++ saveBlock block) (rebuiltBlock header block)
  refine hHeadDim.bind ?_
  -- The attention, the first norm, the network and the second norm, in the order of the file.
  refine (reads_loadTensor block.attn.Wq).bind ?_
  refine (reads_loadTensor block.attn.Wk).bind ?_
  refine (reads_loadTensor block.attn.Wv).bind ?_
  refine (reads_loadTensor block.attn.Wo).bind ?_
  refine (reads_loadTensor block.ln1Gamma).bind ?_
  refine (reads_loadTensor block.ln1Beta).bind ?_
  refine (reads_loadTensor block.ffn.W1).bind ?_
  refine (reads_loadTensor block.ffn.b1).bind ?_
  refine (reads_loadTensor block.ffn.W2).bind ?_
  refine (reads_loadTensor block.ffn.b2).bind ?_
  refine (reads_loadTensor block.ln2Gamma).bind ?_
  exact (reads_loadTensor block.ln2Beta).bind_last (Reads.pure _)

theorem reads_loadModel (h : header.Fits model) :
    Reads (loadModel header) (savePayload model) (rebuiltModel header model) := by
  have hBlocks : Reads (readMany (loadBlock header) header.numLayers.toInt.toNat)
      (model.blocks.flatMap saveBlock) (model.blocks.map (rebuiltBlock header)) := by
    -- A rebuilt block is saved as the block itself is.
    have hRead : ∀ block ∈ model.blocks.map (rebuiltBlock header),
        Reads (loadBlock header) (saveBlock block) block := by
      intro block hBlock
      obtain ⟨saved, hSaved, rfl⟩ := mem_map.mp hBlock
      exact reads_loadBlock saved (h.heads (ne_nil_of_mem hSaved))
    have hMany := reads_readMany hRead
    rw [length_map, flatMap_map] at hMany
    rw [h.layers]
    exact hMany
  refine (reads_loadTensor model.embeddings.tokenEmbedding).bind ?_
  refine (reads_loadTensor model.embeddings.posEmbedding).bind ?_
  refine hBlocks.bind ?_
  refine (reads_loadTensor model.lnFinalGamma).bind ?_
  refine (reads_loadTensor model.lnFinalBeta).bind ?_
  exact (reads_loadTensor model.lmHead).bind_last (Reads.pure _)

theorem CheckpointHeader.Fits.saved (h : header.Fits model) :
    (savedHeader model header).Fits model :=
  ⟨h.layers, h.heads⟩

/-- The loader reads back what was saved. -/
theorem checkpointLoad_save (h : header.Fits model) : checkpointLoad (checkpointSave model header) =
    .loaded (rebuiltModel (savedHeader model header) model, savedHeader model header) := by
  have hHeader : readHeader (checkpointSave model header) =
      some (savedHeader model header, savePayload model) :=
    reads_readHeader (savedHeader model header) (savePayload model)
  have hModel : loadModel (savedHeader model header) (savePayload model) =
      some (rebuiltModel (savedHeader model header) model, []) := (reads_loadModel h.saved).run_nil
  have hVersion : ¬((savedHeader model header).version.toNat < 1 ∨
      checkpointCurrentVersion.toNat < (savedHeader model header).version.toNat) := by
    show ¬((2 : BitVec 32).toNat < 1 ∨ (2 : BitVec 32).toNat < (2 : BitVec 32).toNat)
    decide
  have hDigest : ¬(2 ≤ (savedHeader model header).version.toNat ∧
      checkpointSha256 (savePayload model) ≠ (savedHeader model header).sha256) := fun hBad =>
        hBad.2 rfl
  rw [checkpointLoad, hHeader]
  simp only [ne_eq, hVersion, hDigest, hModel, if_false]
  exact if_neg fun hBad => hBad rfl

theorem checkpointLoad_of_digest (hVersion : header.version = 2) {payload : List Byte}
    (hDigest : checkpointSha256 payload ≠ header.sha256) :
    checkpointLoad (writeHeader header ++ payload) = .null := by
  have hHeader : readHeader (writeHeader header ++ payload) = some (header, payload) :=
    reads_readHeader header payload
  have hTwo : 2 ≤ header.version.toNat := by
    rw [hVersion]
    decide
  rw [checkpointLoad, hHeader]
  simp only [hTwo, hDigest, ne_eq, not_false_eq_true, and_self, if_true]
  split
  · rfl
  · split <;> rfl

end

def TransformerBlock.weights (block : TransformerBlock) : List Tensor :=
  [block.attn.Wq, block.attn.Wk, block.attn.Wv, block.attn.Wo, block.ln1Gamma,
    block.ln1Beta, block.ffn.W1,
    block.ffn.b1, block.ffn.W2, block.ffn.b2, block.ln2Gamma, block.ln2Beta]

/-- The tensors of a model outside its blocks. -/
def TransformerModel.outerWeights (model : TransformerModel) : List Tensor :=
  [model.embeddings.tokenEmbedding, model.embeddings.posEmbedding,
    model.lnFinalGamma, model.lnFinalBeta,
    model.lmHead]

/-- A relation between the weight tensors of two models, one by one. -/
structure AllWeights (R : Tensor → Tensor → Prop) (m m' : TransformerModel) : Prop where
  outer : List.Forall₂ R m.outerWeights m'.outerWeights
  blocks : List.Forall₂ (fun block block' =>
    List.Forall₂ R block.weights block'.weights) m.blocks m'.blocks

def SameShape (t t' : Tensor) : Prop := t.shape = t'.shape

/-- The feed-forward networks of two models have the same biases. -/
def BiasesAgree (m m' : TransformerModel) : Prop :=
  List.Forall₂ (fun block block' : TransformerBlock =>
    block.ffn.b1.data = block'.ffn.b1.data ∧
      block.ffn.b2.data = block'.ffn.b2.data) m.blocks m'.blocks

section

variable {src dst : TransformerBlock} {srcs dsts : List TransformerBlock} {t t' : Tensor}
  {header : CheckpointHeader} {model target : TransformerModel}

theorem SameShape.eq_iff (h : SameShape t t') : t = t' ↔ t.data = t'.data := by
  constructor
  · exact fun hEq => congrArg Tensor.data hEq
  · intro hData
    cases t
    cases t'
    cases h
    cases hData
    rfl

theorem tensorCopy_eq (h : SameShape t' t) : tensorCopy t t' = some t := by
  have hLength : t.data.length = t'.data.length := by
    rw [t.sized, t'.sized, h]
  rw [tensorCopy, dif_pos hLength]
  congr 1
  cases t
  cases t'
  cases h
  rfl

/-- A copied block keeps its own biases and heads. -/
def copiedBlock (src dst : TransformerBlock) : TransformerBlock :=
  { src with
    attn := { src.attn with numHeads := dst.attn.numHeads, headDim := dst.attn.headDim }
    ffn := { src.ffn with b1 := dst.ffn.b1, b2 := dst.ffn.b2 } }

theorem copyBlock_eq (h : List.Forall₂ SameShape dst.weights src.weights) :
    copyBlock src dst = some (copiedBlock src dst) := by
  simp only [TransformerBlock.weights, forall₂_cons, List.Forall₂.nil, and_true] at h
  obtain ⟨hWq, hWk, hWv, hWo, hGamma1, hBeta1, hW1, _, hW2, _, hGamma2, hBeta2⟩ := h
  rw [copyBlock, tensorCopy_eq hWq, tensorCopy_eq hWk, tensorCopy_eq hWv, tensorCopy_eq hWo,
    tensorCopy_eq hW1, tensorCopy_eq hW2, tensorCopy_eq hGamma1, tensorCopy_eq hBeta1,
    tensorCopy_eq hGamma2, tensorCopy_eq hBeta2]
  rfl

theorem copiedBlock_weights_iff (h : List.Forall₂ SameShape dst.weights src.weights) :
    List.Forall₂ Eq (copiedBlock src dst).weights src.weights ↔
      dst.ffn.b1.data = src.ffn.b1.data ∧ dst.ffn.b2.data = src.ffn.b2.data := by
  simp only [TransformerBlock.weights, forall₂_cons, List.Forall₂.nil, and_true] at h
  rw [← h.2.2.2.2.2.2.2.1.eq_iff, ← h.2.2.2.2.2.2.2.2.2.1.eq_iff]
  simp [TransformerBlock.weights, copiedBlock]

section

variable
  (h : List.Forall₂ (fun block block' =>
    List.Forall₂ SameShape block.weights block'.weights) dsts
    srcs)
include h

theorem copyBlocks_eq :
    copyBlocks srcs dsts = some (List.zipWith copiedBlock srcs dsts) := by
  induction h with
  | nil => rfl
  | cons hBlock _ ih =>
    rw [copyBlocks, copyBlock_eq hBlock, ih]
    rfl

theorem zipWith_copiedBlock_iff :
    List.Forall₂ (fun block block' => List.Forall₂ Eq block.weights block'.weights)
        (List.zipWith copiedBlock srcs dsts) srcs ↔
      List.Forall₂ (fun block block' : TransformerBlock =>
        block.ffn.b1.data = block'.ffn.b1.data ∧
          block.ffn.b2.data = block'.ffn.b2.data) dsts srcs := by
  induction h with
  | nil => exact iff_of_true List.Forall₂.nil List.Forall₂.nil
  | cons hBlock _ ih =>
    rw [zipWith_cons_cons, forall₂_cons, forall₂_cons, copiedBlock_weights_iff hBlock, ih]

end

/-- A copied model keeps its own dimensions, heads and biases. -/
def copiedModel (src dst : TransformerModel) : TransformerModel :=
  { src with
    embeddings := { dst.embeddings with
      tokenEmbedding := src.embeddings.tokenEmbedding
      posEmbedding := src.embeddings.posEmbedding }
    blocks := List.zipWith copiedBlock src.blocks dst.blocks
    hiddenDim := dst.hiddenDim
    vocabSize := dst.vocabSize }

theorem copyModel_eq (h : AllWeights SameShape target model) :
    copyModel model target = some (copiedModel model target) := by
  have hOuter := h.outer
  simp only [TransformerModel.outerWeights, forall₂_cons, List.Forall₂.nil, and_true] at hOuter
  obtain ⟨hToken, hPos, hGamma, hBeta, hHead⟩ := hOuter
  rw [copyModel, tensorCopy_eq hToken, tensorCopy_eq hPos,
    copyBlocks_eq h.blocks, tensorCopy_eq hGamma,
    tensorCopy_eq hBeta, tensorCopy_eq hHead]
  rfl

theorem copiedModel_weights_iff (h : AllWeights SameShape target model) :
    AllWeights Eq (copiedModel model target) model ↔ BiasesAgree target model := by
  rw [BiasesAgree, ← zipWith_copiedBlock_iff h.blocks]
  constructor
  · exact fun hAll => hAll.blocks
  · exact fun hBlocks => ⟨forall₂_refl _, hBlocks⟩

theorem allWeights_rebuiltModel_iff {R : Tensor → Tensor → Prop} {m : TransformerModel} :
    AllWeights R m (rebuiltModel header model) ↔ AllWeights R m model := by
  constructor
  · intro h
    have hBlocks := h.blocks
    rw [rebuiltModel, forall₂_map_right_iff] at hBlocks
    exact ⟨h.outer, hBlocks⟩
  · intro h
    refine ⟨h.outer, ?_⟩
    rw [rebuiltModel, forall₂_map_right_iff]
    exact h.blocks

theorem biasesAgree_rebuiltModel_iff :
    BiasesAgree target (rebuiltModel header model) ↔ BiasesAgree target model := by
  rw [BiasesAgree, BiasesAgree, rebuiltModel, forall₂_map_right_iff]
  rfl

theorem allWeights_refl {R : Tensor → Tensor → Prop} (hRefl : ∀ t, R t t)
    (m : TransformerModel) :
    AllWeights R m m :=
  have : Std.Refl R := ⟨hRefl⟩
  ⟨forall₂_refl _, forall₂_same.mpr fun _ _ => forall₂_refl _⟩

theorem checkpointLoadWeights_save (h : header.Fits model)
    (hSame : AllWeights SameShape target model) :
    checkpointLoadWeights target (checkpointSave model header) =
      .loaded (copiedModel (rebuiltModel (savedHeader model header) model) target) := by
  rw [checkpointLoadWeights, checkpointLoad_save h]
  simp only [copyModel_eq (allWeights_rebuiltModel_iff.mpr hSame)]

theorem restored_iff (hSame : AllWeights SameShape target model) :
    AllWeights Eq (copiedModel (rebuiltModel header model) target) model ↔
      BiasesAgree target model := by
  rw [← allWeights_rebuiltModel_iff,
    copiedModel_weights_iff (allWeights_rebuiltModel_iff.mpr hSame)]
  exact biasesAgree_rebuiltModel_iff

end

/-- The loaded model is the saved one, and a payload with another digest is refused; the copy into
an existing model restores every weight exactly when the biases of the two agree. -/
theorem checkpoint_restores_iff (header : CheckpointHeader) (model target : TransformerModel)
    (hFits : header.Fits model) (hSame : AllWeights SameShape target model) :
    ((∃ loaded, checkpointLoad (checkpointSave model header) =
      .loaded (loaded, savedHeader model header) ∧
        (loaded.vocabSize = header.vocabSize ∧ loaded.hiddenDim = header.hiddenDim ∧
          loaded.embeddings.maxSeqLen = header.maxSeqLen ∧
            (loaded.blocks.length : Int) = header.numLayers.toInt ∧
          ∀ block ∈ loaded.blocks, block.attn.numHeads = header.numHeads) ∧
        AllWeights Eq loaded model) ∧
      (∃ copied, checkpointLoadWeights target (checkpointSave model header) = .loaded copied ∧
        AllWeights Eq copied model) ∧
      ∀ (other : CheckpointHeader) (payload : List Byte), other.version = 2 →
        checkpointSha256 payload ≠ other.sha256 →
          checkpointLoad (writeHeader other ++ payload) = .null) ↔
    BiasesAgree target model := by
  have hCopy := checkpointLoadWeights_save hFits hSame
  constructor
  · rintro ⟨_, ⟨copied, hCopied, hWeights⟩, _⟩
    rw [hCopy] at hCopied
    cases hCopied
    exact (restored_iff hSame).mp hWeights
  · intro hBiases
    refine ⟨⟨_, checkpointLoad_save hFits, ⟨rfl, rfl, rfl, ?_, ?_⟩, ?_⟩,
      ⟨_, hCopy, (restored_iff hSame).mpr hBiases⟩, fun _ _ hVersion hDigest =>
        checkpointLoad_of_digest hVersion hDigest⟩
    · rw [hFits.layers, rebuiltModel, length_map]
    · intro block hBlock
      obtain ⟨_, _, rfl⟩ := mem_map.mp hBlock
      rfl
    · have hRefl : AllWeights Eq (rebuiltModel (savedHeader model header) model)
          (rebuiltModel (savedHeader model header) model) := allWeights_refl (fun _ => rfl) _
      exact allWeights_rebuiltModel_iff.mp hRefl

/-- A tensor whose elements count up from the first. -/
def countingTensor (shape : List (BitVec 32)) (first : BitVec 32)
    (dims : 0 < shape.length ∧ shape.length ≤ maxTensorDim) : Tensor where
  shape := shape
  data := (List.range (tensorSize shape).toNat).map fun i => first + BitVec.ofNat 32 i
  dims := dims
  sized := by rw [length_map, length_range]

def matrix (rows cols first : BitVec 32) :
    Tensor := countingTensor [rows, cols] first (by simp [maxTensorDim])

def vector (length first : BitVec 32) :
    Tensor := countingTensor [length] first (by simp [maxTensorDim])

/-- A block of two heads of one dimension each. -/
def smallBlock (first bias : BitVec 32) : TransformerBlock where
  attn := { Wq := matrix 2 2 first, Wk := matrix 2 2 (first + 4), Wv := matrix 2 2 (first + 8),
            Wo := matrix 2 2 (first + 12), numHeads := 2, headDim := 1 }
  ffn := { W1 := matrix 2 3 (first + 16), b1 := vector 3 bias, W2 := matrix 3 2 (first + 22),
           b2 := vector 2 (bias + 3) }
  ln1Gamma := vector 2 (first + 28)
  ln1Beta := vector 2 (first + 30)
  ln2Gamma := vector 2 (first + 32)
  ln2Beta := vector 2 (first + 34)

/-- A model of two blocks. -/
def smallModel (first bias : BitVec 32) : TransformerModel where
  embeddings := { tokenEmbedding := matrix 5 2 first, posEmbedding := matrix 4 2 (first + 10),
                  vocabSize := 5, hiddenDim := 2, maxSeqLen := 4 }
  blocks := [smallBlock (first + 18) bias, smallBlock (first + 54) (bias + 5)]
  lnFinalGamma := vector 2 (first + 90)
  lnFinalBeta := vector 2 (first + 92)
  lmHead := matrix 2 5 (first + 94)
  hiddenDim := 2
  vocabSize := 5

def smallHeader : CheckpointHeader where
  magic := checkpointMagic
  version := checkpointCurrentVersion
  vocabSize := 5
  hiddenDim := 2
  numLayers := 2
  numHeads := 2
  ffnDim := 3
  maxSeqLen := 4
  trainingStep := 17
  learningRate := 0x3A83126F
  lastLoss := 0x3F800000
  sha256 := List.replicate checkpointSha256Size 0
  reserved := List.replicate 8 0
  digestSize := rfl
  reservedSize := rfl

theorem smallHeader_fits (first bias : BitVec 32) : smallHeader.Fits (smallModel first bias) :=
  ⟨(by decide : (2 : BitVec 32).toInt = 2), fun _ => by decide⟩

theorem smallModel_sameShape (first bias first' bias' : BitVec 32) :
    AllWeights SameShape (smallModel first bias) (smallModel first' bias') := by
  constructor
  · simp [TransformerModel.outerWeights, smallModel, SameShape, matrix, vector, countingTensor]
  · simp [TransformerBlock.weights, smallModel, smallBlock, SameShape, matrix, vector,
      countingTensor]

/-- A target whose biases are those of the saved model. -/
theorem checkpoint_restores_small :
    (∃ loaded, checkpointLoad (checkpointSave (smallModel 600 70) smallHeader) =
        .loaded (loaded, savedHeader (smallModel 600 70) smallHeader) ∧
      AllWeights Eq loaded (smallModel 600 70)) ∧
    ∃ copied, checkpointLoadWeights (smallModel 500 70)
        (checkpointSave (smallModel 600 70) smallHeader) =
      .loaded copied ∧ AllWeights Eq copied (smallModel 600 70) := by
  have hBiases : BiasesAgree (smallModel 500 70) (smallModel 600 70) := by
    simp [BiasesAgree, smallModel, smallBlock]
  obtain ⟨⟨loaded, hLoad, -, hLoaded⟩, hCopied, -⟩ :=
    (checkpoint_restores_iff smallHeader (smallModel 600 70) (smallModel 500 70)
      (smallHeader_fits 600 70) (smallModel_sameShape 500 70 600 70)).mpr hBiases
  exact ⟨⟨loaded, hLoad, hLoaded⟩, hCopied⟩

/-- The biases of the target stay as they were. -/
theorem checkpoint_leaves_biases :
    ¬∃ copied, checkpointLoadWeights (smallModel 500 80)
        (checkpointSave (smallModel 600 70) smallHeader) =
      .loaded copied ∧ AllWeights Eq copied (smallModel 600 70) := by
  rintro ⟨copied, hCopied, hWeights⟩
  have hShapes := smallModel_sameShape 500 80 600 70
  rw [checkpointLoadWeights_save (smallHeader_fits 600 70) hShapes] at hCopied
  cases hCopied
  have hBiases := (restored_iff hShapes).mp hWeights
  have hFirst : (vector 3 80).data = (vector 3 70).data := (forall₂_cons.mp hBiases).1.1
  exact absurd hFirst (by decide)

end Casprix.Ml
