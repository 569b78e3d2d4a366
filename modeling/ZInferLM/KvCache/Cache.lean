import ZInferLM.Library.Outcome

/-! # The paged cache of keys and values

Every layer has its own table of blocks, but the list of blocks in use and the length of the
sequence belong to the sequence and are shared by the layers. `write_kv` adds copy operations to the
graph that is being built; their destinations are fixed then. -/

namespace ZInferLM.KvCache
open Library

/-- The sizes of a cache; `block_size_` is `16` in every cache the constructor makes. -/
structure Geometry where
  blockSize : ℕ
  blocksCount : ℕ
  blockSize_pos : 0 < blockSize

def fourBlocks : Geometry := ⟨16, 4, by decide⟩

structure KvCacheBlock where
  seqId : ℤ
  startPos : ℕ
  numEntries : ℕ
  deriving DecidableEq

def KvCacheBlock.zero : KvCacheBlock := ⟨0, 0, 0⟩

structure KvCacheTable where
  blocks : List KvCacheBlock
  usage : List Bool
  deriving DecidableEq

structure KvCacheUsage where
  blockList : List ℕ
  seqLen : ℕ
  deriving DecidableEq

/-- The tables of the layers and the usage of sequence `0`, the only one that is used. -/
structure KVCache where
  blockTables : List KvCacheTable
  usage : KvCacheUsage
  deriving DecidableEq

/-- One copied row: its slot in the cache, and the row of the keys (and values) copied there. -/
structure Copy where
  layer : ℕ
  block : ℕ
  row : ℕ
  src : ℕ
  deriving DecidableEq

def Geometry.freeTable (g : Geometry) : KvCacheTable :=
  ⟨List.replicate g.blocksCount .zero, List.replicate g.blocksCount false⟩

def Geometry.freeCache (g : Geometry) (layers : ℕ) : KVCache :=
  ⟨List.replicate layers g.freeTable, ⟨[], 0⟩⟩

/-- `alloc_block` on the table of the layer: the first free block, or `-1`. -/
def KvCacheTable.allocBlock (t : KvCacheTable) : Option (ℕ × KvCacheTable) :=
  (t.usage.findIdx? fun used => !used).map fun i =>
    (i, ⟨t.blocks.set i ⟨-1, 0, 0⟩, t.usage.set i true⟩)

/-- The last block of the sequence, when it has room in this table. -/
def reusableBlock (g : Geometry) (t : KvCacheTable) (usage : KvCacheUsage) :
    Outcome (Option ℕ) :=
  match usage.blockList.getLast? with
  | none => .ok none
  | some i =>
    match t.blocks[i]? with
    | none => .error (.undefined "blocks_[block_list.back()]")
    | some lastBlock => .ok (if lastBlock.numEntries < g.blockSize then some i else none)

/-- The block for the next entries, and the table after a possible allocation. -/
def chooseBlock (g : Geometry) (t : KvCacheTable) (usage : KvCacheUsage) :
    Outcome (ℕ × KvCacheTable) := do
  match ← reusableBlock g t usage with
  | some i => .ok (i, t)
  | none =>
    match t.allocBlock with
    | none => .error (.undefined "blocks_[-1]")
    | some r => .ok r

/-- The variables of the loop of `write_kv`, with the copies it has added. -/
structure Writing where
  table : KvCacheTable
  usage : KvCacheUsage
  tokensStored : ℕ
  copies : List Copy

def writeTurn (g : Geometry) (l seqLen : ℕ) (w : Writing) : Outcome Writing := do
  let chosen ← chooseBlock g w.table w.usage
  match chosen.2.blocks[chosen.1]? with
  | none => .error (.undefined "blocks_[block_id]")
  | some block =>
    let remaining := seqLen - w.tokensStored
    let len := min (g.blockSize - block.numEntries) remaining
    .ok {
      table := { chosen.2 with
        blocks := chosen.2.blocks.set chosen.1 ⟨0, w.usage.seqLen, block.numEntries + len⟩ }
      usage := { w.usage with blockList := w.usage.blockList ++ [chosen.1] }
      tokensStored := w.tokensStored + len
      copies := w.copies ++ (List.range len).map fun k =>
        ⟨l, chosen.1, block.numEntries + k, w.tokensStored + k⟩ }

/-- The loop of `write_kv`; a turn stores a token, so the tokens bound the turns. -/
def writeLoop (g : Geometry) (l seqLen : ℕ) : ℕ → Writing → Outcome Writing
  | 0, _ => .error .outOfFuel
  | turns + 1, w =>
    if w.tokensStored < seqLen then do
      let w ← writeTurn g l seqLen w
      writeLoop g l seqLen turns w
    else .ok w

/-- The cache after `write_kv` of `seqLen` tokens in layer `l`, and the copies added. -/
def KVCache.writeKv (g : Geometry) (c : KVCache) (l seqLen : ℕ) : Outcome (KVCache × List Copy) :=
  match c.blockTables[l]? with
  | none => .error (.undefined "block_tables_[l]")
  | some table => do
    let w ← writeLoop g l seqLen (seqLen + 1) ⟨table, c.usage, 0, []⟩
    .ok (⟨c.blockTables.set l w.table, { w.usage with seqLen := w.usage.seqLen + w.tokensStored }⟩,
      w.copies)

/-- The calls of the graph builder: the layers from `l` on, with the same tokens. -/
def KVCache.writeLayers (g : Geometry) (seqLen : ℕ) : ℕ → ℕ → KVCache → Outcome (KVCache × List Copy)
  | _, 0, c => .ok (c, [])
  | l, count + 1, c => do
    let r ← c.writeKv g l seqLen
    let rest ← KVCache.writeLayers g seqLen (l + 1) count r.1
    .ok (rest.1, r.2 ++ rest.2)

/-- A slot of the cache and the position of the token copied there. -/
structure Placement where
  layer : ℕ
  block : ℕ
  row : ℕ
  token : ℕ
  deriving DecidableEq

def Copy.placement (offset : ℕ) (c : Copy) : Placement := ⟨c.layer, c.block, c.row, offset + c.src⟩

/-- The state of a run: the cache, the tokens so far and where they were copied. -/
structure Run where
  cache : KVCache
  tokens : ℕ
  log : List Placement
  deriving DecidableEq

/-- One step: a graph over `n` tokens is built. -/
def Run.step (g : Geometry) (layers : ℕ) (r : Run) (n : ℕ) : Outcome Run := do
  let written ← r.cache.writeLayers g n 0 layers
  .ok ⟨written.1, r.tokens + n, r.log ++ written.2.map (Copy.placement r.tokens)⟩

def Run.steps (g : Geometry) (layers : ℕ) : List ℕ → Run → Outcome Run
  | [], r => .ok r
  | n :: ns, r => do
    let r ← r.step g layers n
    Run.steps g layers ns r

def Geometry.start (g : Geometry) (layers : ℕ) : Run := ⟨g.freeCache layers, 0, []⟩

end ZInferLM.KvCache
