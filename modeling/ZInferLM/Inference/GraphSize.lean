import ZInferLM.KvCache.Init

/-! # The size of a compute graph

Every operation of ggml creates a tensor in the context of the graph, whose size `predict` estimates
from the number of layers. The operations that `new_graph` and `build_graph` use are listed in their
order; those of the cache depend on the number of tokens. -/

namespace ZInferLM
open Library KvCache

namespace Inference

inductive GgmlOp where
  | newTensor1d | newTensor2d | getRows | rmsNorm | mul | mulMat | add | silu | reshape2d | reshape3d
  | ropeExt | permute | cont | view2d | cpy | flashAttnExt
  deriving DecidableEq

def createInputTensors : List GgmlOp := [.newTensor1d, .newTensor1d, .newTensor2d]

/-- A turn of the loop of `write_kv`: the views of the keys and values and of their slots. -/
def turnOps : List GgmlOp := [.view2d, .view2d, .view2d, .view2d, .cpy, .cpy]

def writeLoopOps (g : Geometry) (l seqLen : ℕ) : ℕ → Writing → Outcome (Writing × List GgmlOp)
  | 0, _ => .error .outOfFuel
  | turns + 1, w =>
    if w.tokensStored < seqLen then do
      let w ← writeTurn g l seqLen w
      let rest ← writeLoopOps g l seqLen turns w
      .ok (rest.1, turnOps ++ rest.2)
    else .ok (w, [])

def writeKvOps (g : Geometry) (c : KVCache) (l seqLen : ℕ) : Outcome (KVCache × List GgmlOp) :=
  match c.blockTables[l]? with
  | none => .error (.undefined "block_tables_[l]")
  | some table => do
    let w ← writeLoopOps g l seqLen (seqLen + 1) ⟨table, c.usage, 0, []⟩
    .ok (⟨c.blockTables.set l w.1.table,
      { w.1.usage with seqLen := w.1.usage.seqLen + w.1.tokensStored }⟩, w.2)

/-- `Layer::operator()`: a norm in front if there is a tensor for it, and the input added behind. -/
def layerOps (norm residual : Bool) (forward : List GgmlOp) : List GgmlOp :=
  (if norm then [.rmsNorm, .mul] else []) ++ forward ++ if residual then [.add] else []

/-- A projection, with its bias if there is one. -/
def projection (has : String → Bool) (name : String) : List GgmlOp :=
  .mulMat :: if has (name ++ ".bias") then [.add] else []

/-- `GroupedAttentionHead::forward`; `get_slice` adds nothing. -/
def groupedAttention (g : Geometry) (has : String → Bool) (name : String) (blockId len : ℕ)
    (c : KVCache) : Outcome (KVCache × List GgmlOp) := do
  let written ← writeKvOps g c blockId len
  .ok (written.1, projection has (name ++ "_q") ++ projection has (name ++ "_k") ++
    projection has (name ++ "_v") ++ ([.reshape3d, .reshape3d, .reshape3d, .ropeExt, .ropeExt,
      .permute, .cont] : List GgmlOp) ++ written.2 ++ [.flashAttnExt, .reshape2d, .mulMat])

def swigLU : List GgmlOp := [.mulMat, .mulMat, .silu, .mul, .mulMat]

/-- The loop of `build_graph` over the blocks from `i` on; `has` says which tensors the model has. -/
def buildBlocks (g : Geometry) (has : String → Bool) (len : ℕ) :
    ℕ → ℕ → KVCache → Outcome (KVCache × List GgmlOp)
  | _, 0, c => .ok (c, [])
  | i, count + 1, c => do
    let blk := "blk." ++ toString i
    let attn ← groupedAttention g has (blk ++ ".attn") i len c
    let rest ← buildBlocks g has len (i + 1) count attn.1
    .ok (rest.1, layerOps (has (blk ++ ".attn_norm.weight")) true attn.2 ++
      layerOps (has (blk ++ ".ffn_norm.weight")) true swigLU ++ rest.2)

def buildGraph (g : Geometry) (has : String → Bool) (nblocks len : ℕ) (c : KVCache) :
    Outcome (KVCache × List GgmlOp) := do
  let blocks ← buildBlocks g has len 0 nblocks c
  .ok (blocks.1, layerOps false false [.getRows] ++ blocks.2 ++
    layerOps (has "output_norm.weight") false [.mulMat])

/-- The `n_op_estimate` of `predict`, a `uint32_t`. -/
def nOpEstimate (nblocks : ℕ) : ℕ := (nblocks * 64 + 256) % 2 ^ 32

def chunks (g : Geometry) (len : ℕ) : ℕ := (len + g.blockSize - 1) / g.blockSize

variable {g : Geometry} {l seqLen k turns : ℕ} {w : Writing} {c : KVCache}

theorem chunks_eq {k : ℕ} (h : k * g.blockSize < seqLen) (h' : seqLen ≤ (k + 1) * g.blockSize) :
    chunks g seqLen = k + 1 := by
  have hpos := g.blockSize_pos
  rw [Nat.add_mul, Nat.one_mul] at h'
  apply Nat.div_eq_of_lt_le
  · rw [Nat.add_mul, Nat.one_mul]
    omega
  · rw [Nat.add_mul, Nat.add_mul, Nat.one_mul]
    omega

/-- The loop behind `k` turns that filled a block each: no more blocks are in use, and the next turn
does not go on in a block that has entries. -/
structure Chunked (g : Geometry) (k : ℕ) (w : Writing) : Prop where
  blocks_length : w.table.blocks.length = g.blocksCount
  usage_length : w.table.usage.length = g.blocksCount
  stored : w.tokensStored = k * g.blockSize
  used : w.table.usage.countP id ≤ k
  last : ∀ i, w.usage.blockList.getLast? = some i → ∃ b, w.table.blocks[i]? = some b ∧
    (b.numEntries = g.blockSize ∨ b.numEntries = 0)

theorem allocBlock_free {t : KvCacheTable} (hblocks : t.blocks.length = g.blocksCount)
    (husage : t.usage.length = g.blocksCount) (hfree : t.usage.countP id < g.blocksCount) :
    ∃ i t', t.allocBlock = some (i, t') ∧ t'.blocks.length = g.blocksCount ∧
      t'.usage.length = g.blocksCount ∧ t'.usage.countP id ≤ t.usage.countP id + 1 ∧
      ∃ b, t'.blocks[i]? = some b ∧ b.numEntries = 0 := by
  cases hfind : t.usage.findIdx? fun used => !used with
  | none =>
    have hall : ∀ used ∈ t.usage, id used = true := by
      simpa [List.findIdx?_eq_none_iff] using hfind
    rw [List.countP_eq_length.mpr hall, husage] at hfree
    exact absurd hfree (Nat.lt_irrefl _)
  | some i =>
    obtain ⟨hi, -⟩ := List.findIdx?_eq_some_iff_getElem.mp hfind
    refine ⟨i, _, by rw [KvCacheTable.allocBlock, hfind]; rfl, ?_, ?_, ?_, ⟨-1, 0, 0⟩, ?_, rfl⟩
    · rw [List.length_set, hblocks]
    · rw [List.length_set, husage]
    · rw [List.countP_set hi]
      simp only [id_eq, if_true]
      omega
    · rw [List.getElem?_set_self (by omega)]

theorem Chunked.choose (h : Chunked g k w) (hk : k < g.blocksCount) :
    ∃ i t', chooseBlock g w.table w.usage = .ok (i, t') ∧ t'.blocks.length = g.blocksCount ∧
      t'.usage.length = g.blocksCount ∧ t'.usage.countP id ≤ k + 1 ∧
      ∃ b, t'.blocks[i]? = some b ∧ b.numEntries = 0 := by
  have hused := h.used
  obtain ⟨j, t', halloc, hblocks, husage, hcount, hfree⟩ :=
    allocBlock_free h.blocks_length h.usage_length (h.used.trans_lt hk)
  have hallocated (hnone : reusableBlock g w.table w.usage = .ok none) :
      chooseBlock g w.table w.usage = .ok (j, t') := by
    rw [chooseBlock, hnone, Outcome.ok_bind]
    simp only [halloc]
  cases hlast : w.usage.blockList.getLast? with
  | none =>
    have hnone : reusableBlock g w.table w.usage = .ok none := by rw [reusableBlock, hlast]
    exact ⟨j, t', hallocated hnone, hblocks, husage, by omega, hfree⟩
  | some i =>
    obtain ⟨b, hb, hentries⟩ := h.last i hlast
    have hreusable : reusableBlock g w.table w.usage =
        .ok (if b.numEntries < g.blockSize then some i else none) := by
      rw [reusableBlock, hlast]
      simp only [hb]
    rcases hentries with hfull | hzero
    · rw [hfull, if_neg (Nat.lt_irrefl _)] at hreusable
      exact ⟨j, t', hallocated hreusable, hblocks, husage, by omega, hfree⟩
    · rw [hzero, if_pos g.blockSize_pos] at hreusable
      refine ⟨i, w.table, ?_, h.blocks_length, h.usage_length, by omega, b, hb, hzero⟩
      rw [chooseBlock, hreusable, Outcome.ok_bind]

/-- A turn fills a block, or it stores what is left. -/
theorem Chunked.turn (h : Chunked g k w) (hk : k < g.blocksCount) (hlt : k * g.blockSize < seqLen) :
    ∃ w' i, writeTurn g l seqLen w = .ok w' ∧ w'.usage.blockList.getLast? = some i ∧
      i < g.blocksCount ∧ w'.tokensStored = min ((k + 1) * g.blockSize) seqLen ∧
      ((k + 1) * g.blockSize ≤ seqLen → Chunked g (k + 1) w') := by
  obtain ⟨i, t', hchoose, hblocks, husage, hcount, b, hb, hzero⟩ := h.choose hk
  have hi : i < t'.blocks.length := (List.getElem?_eq_some_iff.mp hb).1
  have hstored := h.stored
  have hnext : (k + 1) * g.blockSize = k * g.blockSize + g.blockSize := by
    rw [Nat.add_mul, Nat.one_mul]
  refine ⟨_, i, by rw [writeTurn, hchoose, Outcome.ok_bind]; simp only [hb]; rfl,
    List.getLast?_concat .., by omega, ?_, fun hfull => ?_⟩
  · simp only [hzero]
    omega
  · have hlen : min (g.blockSize - 0) (seqLen - w.tokensStored) = g.blockSize := by omega
    simp only [hzero, hlen]
    refine ⟨?_, husage, ?_, hcount, ?_⟩
    · rw [List.length_set, hblocks]
    · simp only [hstored, hnext]
    · intro j hj
      rw [List.getLast?_concat] at hj
      cases hj
      exact ⟨_, List.getElem?_set_self hi, .inl (Nat.zero_add _)⟩

theorem Chunked.loop (h : Chunked g k w) (hle : k * g.blockSize ≤ seqLen)
    (hcap : seqLen ≤ g.blockSize * g.blocksCount) (hlast : ∀ i, w.usage.blockList.getLast? = some i →
      i < g.blocksCount) (hturns : seqLen - k * g.blockSize < turns) :
    ∃ w' ops, writeLoopOps g l seqLen turns w = .ok (w', ops) ∧
      (∀ i, w'.usage.blockList.getLast? = some i → i < g.blocksCount) ∧
      ops.length + 6 * k = 6 * chunks g seqLen := by
  have hpos := g.blockSize_pos
  induction turns generalizing k w with
  | zero => exact absurd hturns (Nat.not_lt_zero _)
  | succ turns ih =>
    rw [writeLoopOps, h.stored]
    rcases Nat.lt_or_eq_of_le hle with hlt | heq
    · have hnext : (k + 1) * g.blockSize = k * g.blockSize + g.blockSize := by
        rw [Nat.add_mul, Nat.one_mul]
      have hk : k < g.blocksCount := by
        apply Nat.lt_of_mul_lt_mul_left (a := g.blockSize)
        rw [Nat.mul_comm g.blockSize k]
        omega
      obtain ⟨w1, i, hturn, hi, hilt, hstored, hfull⟩ := h.turn (l := l) hk hlt
      have hlast1 : ∀ j, w1.usage.blockList.getLast? = some j → j < g.blocksCount := by
        intro j hj
        cases hi.symm.trans hj
        exact hilt
      rw [if_pos hlt, hturn, Outcome.ok_bind]
      by_cases hmore : (k + 1) * g.blockSize ≤ seqLen
      · obtain ⟨w2, ops, hloop, hlast2, hops⟩ := ih (hfull hmore) hmore hlast1 (by omega)
        refine ⟨w2, turnOps ++ ops, by rw [hloop, Outcome.ok_bind], hlast2, ?_⟩
        rw [List.length_append, turnOps]
        simp only [List.length_cons, List.length_nil]
        omega
      · obtain ⟨m, rfl⟩ := Nat.exists_eq_add_of_lt (show 0 < turns by omega)
        refine ⟨w1, turnOps ++ [], ?_, hlast1, ?_⟩
        · rw [writeLoopOps, if_neg (by omega), Outcome.ok_bind]
        · rw [chunks_eq hlt (by omega), List.append_nil, turnOps]
          simp only [List.length_cons, List.length_nil]
          omega
    · rw [if_neg (by omega)]
      refine ⟨w, [], rfl, hlast, ?_⟩
      have hchunks : chunks g seqLen = k := by
        apply Nat.div_eq_of_lt_le
        · omega
        · rw [Nat.add_mul, Nat.one_mul]
          omega
      rw [hchunks, List.length_nil, Nat.zero_add]

/-- The tables of the layers from `l` on are as they were made, and the list of blocks names blocks
that every table has. -/
structure Ahead (g : Geometry) (layers l : ℕ) (c : KVCache) : Prop where
  tables : ∀ j, l ≤ j → j < layers → c.blockTables[j]? = some g.freeTable
  last : ∀ i, c.usage.blockList.getLast? = some i → i < g.blocksCount

theorem freeCache_ahead (g : Geometry) (layers : ℕ) : Ahead g layers 0 (g.freeCache layers) := by
  refine ⟨fun j _ hj => ?_, fun i hi => ?_⟩
  · rw [Geometry.freeCache, List.getElem?_replicate, if_pos hj]
  · cases hi

/-- Before the first turn no block of the layer has entries. -/
theorem freeTable_chunked (usage : KvCacheUsage)
    (hlast : ∀ i, usage.blockList.getLast? = some i → i < g.blocksCount) :
    Chunked g 0 ⟨g.freeTable, usage, 0, []⟩ := by
  refine ⟨List.length_replicate .., List.length_replicate .., (Nat.zero_mul _).symm, ?_, ?_⟩
  · simp [Geometry.freeTable]
  · intro i hi
    refine ⟨.zero, ?_, .inr rfl⟩
    simp only [Geometry.freeTable]
    rw [List.getElem?_replicate, if_pos (hlast i hi)]

variable {layers len : ℕ}

/-- A layer takes six operations for every block of tokens, and the tables behind it stay. -/
theorem Ahead.writeKvOps (h : Ahead g layers l c) (hl : l < layers)
    (hcap : len ≤ g.blockSize * g.blocksCount) :
    ∃ c' ops, writeKvOps g c l len = .ok (c', ops) ∧ Ahead g layers (l + 1) c' ∧
      ops.length = 6 * chunks g len := by
  have htable := h.tables l (Nat.le_refl l) hl
  obtain ⟨w, ops, hloop, hlast, hops⟩ := (freeTable_chunked c.usage h.last).loop (l := l)
    (by rw [Nat.zero_mul]; exact Nat.zero_le len) hcap h.last (show _ < len + 1 by omega)
  refine ⟨⟨c.blockTables.set l w.table,
    { w.usage with seqLen := w.usage.seqLen + w.tokensStored }⟩, ops, ?_, ?_, by omega⟩
  · rw [Inference.writeKvOps, htable]
    simp only [hloop, Outcome.ok_bind]
  · refine ⟨fun j hj hjl => ?_, hlast⟩
    rw [List.getElem?_set_ne (by omega)]
    exact h.tables j (by omega) hjl

def optional (has : String → Bool) (name : String) (ops : ℕ) : ℕ := if has name then ops else 0

def optionalInBlock (has : String → Bool) (i : ℕ) : ℕ :=
  optional has ("blk." ++ toString i ++ ".attn_norm.weight") 2 +
    optional has ("blk." ++ toString i ++ ".attn" ++ "_q" ++ ".bias") 1 +
    optional has ("blk." ++ toString i ++ ".attn" ++ "_k" ++ ".bias") 1 +
    optional has ("blk." ++ toString i ++ ".attn" ++ "_v" ++ ".bias") 1 +
    optional has ("blk." ++ toString i ++ ".ffn_norm.weight") 2

def optionalOps (has : String → Bool) (nblocks : ℕ) : ℕ :=
  ((List.range nblocks).map (optionalInBlock has)).sum + optional has "output_norm.weight" 2

theorem length_layerOps (norm residual : Bool) (forward : List GgmlOp) :
    (layerOps norm residual forward).length =
      (if norm then 2 else 0) + forward.length + if residual then 1 else 0 := by
  rw [layerOps, List.length_append, List.length_append]
  cases norm <;> cases residual <;> rfl

theorem length_projection (has : String → Bool) (name : String) :
    (projection has name).length = 1 + optional has (name ++ ".bias") 1 := by
  rw [projection, optional, List.length_cons]
  split_ifs <;> rfl

theorem Ahead.groupedAttention (h : Ahead g layers l c) (hl : l < layers)
    (hcap : len ≤ g.blockSize * g.blocksCount) (has : String → Bool) (name : String) :
    ∃ c' ops, groupedAttention g has name l len c = .ok (c', ops) ∧ Ahead g layers (l + 1) c' ∧
      ops.length = 13 + 6 * chunks g len + optional has (name ++ "_q" ++ ".bias") 1 +
        optional has (name ++ "_k" ++ ".bias") 1 + optional has (name ++ "_v" ++ ".bias") 1 := by
  obtain ⟨c', ops, hwrite, hc', hops⟩ := h.writeKvOps hl hcap
  refine ⟨c', _, by rw [Inference.groupedAttention, hwrite, Outcome.ok_bind], hc', ?_⟩
  simp only [List.length_append, length_projection, hops, List.length_cons, List.length_nil]
  omega

theorem Ahead.buildBlocks {count : ℕ} (h : Ahead g layers l c) (hl : l + count ≤ layers)
    (hcap : len ≤ g.blockSize * g.blocksCount) (has : String → Bool) :
    ∃ c' ops, buildBlocks g has len l count c = .ok (c', ops) ∧
      ops.length = count * (20 + 6 * chunks g len) +
        ((List.range' l count).map (optionalInBlock has)).sum := by
  induction count generalizing l c with
  | zero => exact ⟨c, [], rfl, by simp⟩
  | succ count ih =>
    obtain ⟨c1, attn, hattn, hc1, hlen⟩ :=
      h.groupedAttention (by omega) hcap has ("blk." ++ toString l ++ ".attn")
    obtain ⟨c2, ops, hrest, hops⟩ := ih hc1 (by omega)
    refine ⟨c2, _, by rw [Inference.buildBlocks, hattn, Outcome.ok_bind, hrest, Outcome.ok_bind], ?_⟩
    rw [List.range'_succ, List.map_cons, List.sum_cons, optionalInBlock, Nat.add_mul, Nat.one_mul]
    simp only [List.length_append, length_layerOps, hlen, hops, swigLU, List.length_cons,
      List.length_nil, if_true, optional]
    omega

theorem length_buildGraph (g : Geometry) (has : String → Bool) (nblocks : ℕ) {len : ℕ}
    (hcap : len ≤ g.blockSize * g.blocksCount) :
    ∃ c ops, buildGraph g has nblocks len (g.freeCache nblocks) = .ok (c, ops) ∧
      (createInputTensors ++ ops).length =
        5 + nblocks * (20 + 6 * chunks g len) + optionalOps has nblocks := by
  obtain ⟨c, ops, hblocks, hlen⟩ := (freeCache_ahead g nblocks).buildBlocks
    (Nat.zero_add nblocks).le hcap has
  refine ⟨c, _, by rw [buildGraph, hblocks, Outcome.ok_bind], ?_⟩
  rw [optionalOps, List.range_eq_range']
  simp only [List.length_append, length_layerOps, hlen, createInputTensors, List.length_cons,
    List.length_nil, Bool.false_eq_true, if_false, optional]
  omega

/-- A graph fits the estimate if and only if the blocks of tokens, each with six operations in every
layer, and the tensors that may be missing leave room, also where the estimate wraps around. -/
theorem graph_fits_iff (g : Geometry) (has : String → Bool) (nblocks : ℕ)
    (hcap : len ≤ g.blockSize * g.blocksCount) :
    ∃ c ops, buildGraph g has nblocks len (g.freeCache nblocks) = .ok (c, ops) ∧
      ((createInputTensors ++ ops).length ≤ nOpEstimate nblocks ↔
        optionalOps has nblocks + 6 * chunks g len * nblocks +
          2 ^ 32 * ((nblocks * 64 + 256) / 2 ^ 32) ≤ 44 * nblocks + 251) := by
  obtain ⟨c, ops, hbuild, hlen⟩ := length_buildGraph g has nblocks hcap
  refine ⟨c, ops, hbuild, ?_⟩
  rw [hlen, nOpEstimate, Nat.mul_add, Nat.mul_comm nblocks (6 * _)]
  omega

theorem graph_fits_iff_fourBlocks : ∃ c ops,
    buildGraph fourBlocks (fun _ => true) 24 20 (fourBlocks.freeCache 24) = .ok (c, ops) ∧
      ((createInputTensors ++ ops).length ≤ nOpEstimate 24 ↔
        optionalOps (fun _ => true) 24 + 6 * chunks fourBlocks 20 * 24 +
          2 ^ 32 * ((24 * 64 + 256) / 2 ^ 32) ≤ 44 * 24 + 251) :=
  graph_fits_iff fourBlocks (fun _ => true) 24 (by decide)

/-- With `24` layers and all tensors a prompt of `113` tokens does not fit. -/
theorem longPrompt_exceeds : ∃ c ops,
    buildGraph (.forMaxLen 128) (fun _ => true) 24 113 (Geometry.freeCache (.forMaxLen 128) 24) =
      .ok (c, ops) ∧ nOpEstimate 24 < (createInputTensors ++ ops).length := by
  have hcap : 113 ≤ (Geometry.forMaxLen 128).blockSize * (Geometry.forMaxLen 128).blocksCount := by
    decide
  obtain ⟨c, ops, hbuild, hlen⟩ := length_buildGraph (.forMaxLen 128) (fun _ => true) 24 hcap
  refine ⟨c, ops, hbuild, ?_⟩
  rw [hlen]
  decide

end Inference

end ZInferLM
