import ZInferLM.KvCache.SingleLayer

/-! # Setting a cache up

`init` reserves the tables of the layers and of their blocks and goes on as if they had that many
elements. A reserved vector is as long as before, so the first table that is set up is none of the
vector. -/

namespace ZInferLM.KvCache
open Library

/-- `vector::reserve`: the capacity grows, the elements stay the same. -/
def reserve {α : Type} (_capacity : ℕ) (xs : List α) : List α := xs

/-- The geometry of a cache for a length: blocks of sixteen, and `blocks_count()` of them. -/
def Geometry.forMaxLen (maxLen : ℕ) : Geometry := ⟨16, maxLen / 16, Nat.zero_lt_succ 15⟩

def initLoop (g : Geometry) : ℕ → ℕ → KVCache → Outcome KVCache
  | _, 0, c => .ok c
  | i, count + 1, c =>
    match c.blockTables[i]? with
    | none => .error (.undefined "block_tables_[i]")
    | some table => initLoop g (i + 1) count { c with
        blockTables := c.blockTables.set i
          ⟨reserve g.blocksCount table.blocks, reserve g.blocksCount table.usage⟩ }

/-- The cache that the first call of `init` makes; a later call returns at once. -/
def KVCache.init (maxLen layers : ℕ) : Outcome KVCache :=
  initLoop (.forMaxLen maxLen) 0 layers ⟨reserve layers [], ⟨[], 0⟩⟩

def KVCache.writes (g : Geometry) (l : ℕ) : List ℕ → KVCache → Outcome KVCache
  | [], c => .ok c
  | n :: ns, c => do
    let r ← c.writeKv g l n
    KVCache.writes g l ns r.1

/-- A cache that is set up for a length takes the writes, with every access in its container, and
has stored all their tokens. -/
def KeepsCapacity (maxLen layers l : ℕ) (ns : List ℕ) : Prop :=
  ∃ c c', KVCache.init maxLen layers = .ok c ∧
    c.writes (.forMaxLen maxLen) l ns = .ok c' ∧ c'.usage.seqLen = ns.sum

/-- Setting a layer up accesses a table that is not there. -/
theorem init_undefined (maxLen layers : ℕ) :
    KVCache.init maxLen (layers + 1) = .error (.undefined "block_tables_[i]") := rfl

/-- No cache with a layer keeps the capacity it is set up for. -/
theorem capacity_not_kept (maxLen : ℕ) {layers l : ℕ} (hl : l < layers) (ns : List ℕ) :
    ¬ KeepsCapacity maxLen layers l ns := by
  rintro ⟨c, _, hinit, _⟩
  cases layers with
  | zero => exact absurd hl (Nat.not_lt_zero l)
  | succ layers =>
    rw [init_undefined] at hinit
    cases hinit

theorem capacity_not_kept_block : ¬ KeepsCapacity 16 1 0 [1] :=
  capacity_not_kept 16 (by decide) [1]

theorem oneLayer_notSetUp : ∃ maxLen layers l ns, 1 ≤ maxLen ∧ l < layers ∧
    List.sum ns ≤ maxLen ∧ ¬ KeepsCapacity maxLen layers l ns := by
  refine ⟨16, 1, 0, [16], by decide, by decide, by decide, ?_⟩
  rintro ⟨c, _, hinit, _⟩
  cases hinit

theorem reserved_takes_none (g : Geometry) (l seqLen : ℕ) (usage : KvCacheUsage)
    (husage : usage.blockList = []) :
    writeTurn g l seqLen ⟨⟨reserve g.blocksCount [], reserve g.blocksCount []⟩, usage, 0, []⟩ =
      .error (.undefined "blocks_[-1]") := by
  rw [writeTurn, chooseBlock, reusableBlock, husage]
  rfl

section Full
variable {g : Geometry} {n base l seqLen : ℕ} {t : KvCacheTable} {usage : KvCacheUsage}
  {w : Writing}

theorem Filled.chooseBlock_full (h : Filled g n t usage.blockList)
    (hn : n = g.blockSize * g.blocksCount) :
    chooseBlock g t usage = .error (.undefined "blocks_[-1]") := by
  have hnone : t.usage.findIdx? (fun used => !used) = none := by
    rw [List.findIdx?_eq_none_iff]
    intro u hu
    obtain ⟨i, hi, hu⟩ := List.mem_iff_getElem.mp hu
    rw [h.usage_length] at hi
    have hlt : i * g.blockSize < n := by
      rw [hn, Nat.mul_comm]
      exact Nat.mul_lt_mul_of_pos_left hi g.blockSize_pos
    rw [h.used i u (List.getElem?_eq_some_iff.mpr ⟨_, hu⟩), decide_eq_true hlt]
    rfl
  have hrow : n % g.blockSize = 0 := by rw [hn, Nat.mul_mod_right]
  rw [chooseBlock, h.reusableBlock_end hrow hn.le, Outcome.ok_bind, KvCacheTable.allocBlock, hnone]
  rfl

/-- A call with more tokens than there are rows left fails. -/
theorem Wrote.loop_full (h : Wrote g l base w)
    (hle : base + w.tokensStored ≤ g.blockSize * g.blocksCount)
    (hfull : g.blockSize * g.blocksCount < base + seqLen) {turns : ℕ}
    (hturns : seqLen - w.tokensStored < turns) :
    writeLoop g l seqLen turns w = .error (.undefined "blocks_[-1]") := by
  induction turns generalizing w with
  | zero => exact absurd hturns (Nat.not_lt_zero _)
  | succ turns ih =>
    have hlt : w.tokensStored < seqLen := by omega
    rw [writeLoop, if_pos hlt]
    by_cases hroom : base + w.tokensStored < g.blockSize * g.blocksCount
    · obtain ⟨w1, hturn, hw1, hstored⟩ := h.turn hlt hroom
      have hrow := g.row_lt (base + w.tokensStored)
      have hsum := g.block_row (base + w.tokensStored)
      -- a turn stays in its block
      have hblock := Nat.mul_le_mul_left g.blockSize (Nat.succ_le_of_lt (g.block_lt hroom))
      rw [Nat.succ_eq_add_one, Nat.mul_add, Nat.mul_one, Nat.mul_comm g.blockSize (_ / _)] at hblock
      rw [hturn, Outcome.ok_bind]
      exact ih hw1 (by omega) (by omega)
    · rw [writeTurn, h.filled.chooseBlock_full (by omega)]
      rfl

theorem CacheHolds.writeKv {c : KVCache} (h : CacheHolds g n c) {m : ℕ}
    (hcap : n + m ≤ g.blockSize * g.blocksCount) :
    ∃ r, c.writeKv g 0 m = .ok r ∧ CacheHolds g (n + m) r.1 := by
  obtain ⟨c1, hlayers, h1⟩ := h.writeLayers hcap
  rw [KVCache.writeLayers] at hlayers
  obtain ⟨r, hwrite, hrest⟩ := Outcome.bind_eq_ok.mp hlayers
  have hfst : r.1 = c1 := congrArg Prod.fst (Except.ok.inj hrest)
  exact ⟨r, hwrite, hfst ▸ h1⟩

/-- Writes that fill the blocks of a table at most leave all tokens in it. -/
theorem CacheHolds.writes {c : KVCache} (h : CacheHolds g n c) {ns : List ℕ}
    (hcap : n + ns.sum ≤ g.blockSize * g.blocksCount) :
    ∃ c', c.writes g 0 ns = .ok c' ∧ CacheHolds g (n + ns.sum) c' := by
  induction ns generalizing c n with
  | nil => exact ⟨c, rfl, h⟩
  | cons m ns ih =>
    rw [List.sum_cons] at hcap ⊢
    obtain ⟨r, hwrite, h1⟩ := h.writeKv (show n + m ≤ _ by omega)
    obtain ⟨c2, hwrites, h2⟩ := ih h1 (by omega)
    refine ⟨c2, ?_, Nat.add_assoc n m _ ▸ h2⟩
    rw [KVCache.writes, hwrite, Outcome.ok_bind, hwrites]

/-- More tokens than rows do not fit, however they are split into writes. -/
theorem CacheHolds.writes_full {c : KVCache} (h : CacheHolds g n c)
    (hn : n ≤ g.blockSize * g.blocksCount) {ns : List ℕ}
    (hfull : g.blockSize * g.blocksCount < n + ns.sum) :
    c.writes g 0 ns = .error (.undefined "blocks_[-1]") := by
  induction ns generalizing c n with
  | nil =>
    rw [List.sum_nil] at hfull
    omega
  | cons m ns ih =>
    rw [List.sum_cons] at hfull
    by_cases hm : n + m ≤ g.blockSize * g.blocksCount
    · obtain ⟨r, hwrite, h1⟩ := h.writeKv hm
      rw [KVCache.writes, hwrite, Outcome.ok_bind]
      exact ih h1 hm (by omega)
    · obtain ⟨t, htable, hfilled⟩ := h.table
      have hstart : Wrote g 0 n ⟨t, c.usage, 0, []⟩ := ⟨hfilled, h.seqLen, rfl⟩
      have hloop := hstart.loop_full hn (not_le.mp hm) (Nat.lt_succ_self m)
      rw [KVCache.writes, KVCache.writeKv, htable]
      simp only [List.getElem?_cons_zero]
      rw [hloop]
      rfl

end Full

/-- Tables of the promised number of blocks take as many tokens as these have rows, which is
`max_len` only for multiples of the block size. -/
theorem sized_takes_iff (maxLen : ℕ) (ns : List ℕ) :
    (∃ c, ((Geometry.forMaxLen maxLen).freeCache 1).writes (.forMaxLen maxLen) 0 ns = .ok c ∧
      c.usage.seqLen = ns.sum) ↔ ns.sum ≤ maxLen / 16 * 16 := by
  have hholds := freeCache_holds (Geometry.forMaxLen maxLen)
  have hrows : (Geometry.forMaxLen maxLen).blockSize * (Geometry.forMaxLen maxLen).blocksCount =
      maxLen / 16 * 16 := Nat.mul_comm 16 (maxLen / 16)
  constructor
  · rintro ⟨c, hwrites, -⟩
    by_contra hfull
    rw [hholds.writes_full (Nat.zero_le _) (by omega)] at hwrites
    cases hwrites
  · intro hcap
    obtain ⟨c, hwrites, hc⟩ := hholds.writes (show 0 + ns.sum ≤ _ by omega)
    refine ⟨c, hwrites, ?_⟩
    rw [hc.seqLen, Nat.zero_add]

end ZInferLM.KvCache
