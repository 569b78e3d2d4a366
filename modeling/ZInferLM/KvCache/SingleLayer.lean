import ZInferLM.KvCache.Cache

/-! # A cache with one layer

Tokens fill the blocks one after the other: token `p` goes to row `p % block_size` of block
`p / block_size`. `Filled` describes the table after the first tokens, a turn of the write loop moves
it forward, and a run copies every token to its slot. -/

namespace ZInferLM.KvCache
open Library

def slotOf (g : Geometry) (l p : ℕ) : Placement := ⟨l, p / g.blockSize, p % g.blockSize, p⟩

/-- The table and the block list of a sequence of `n` tokens. -/
structure Filled (g : Geometry) (n : ℕ) (t : KvCacheTable) (blockList : List ℕ) : Prop where
  blocks_length : t.blocks.length = g.blocksCount
  usage_length : t.usage.length = g.blocksCount
  entries : ∀ i b, t.blocks[i]? = some b → b.numEntries = min g.blockSize (n - i * g.blockSize)
  used : ∀ i u, t.usage[i]? = some u → u = decide (i * g.blockSize < n)
  last : blockList.getLast? = if n = 0 then none else some ((n - 1) / g.blockSize)

/-- The table after a block was chosen for token `n`: only that block may be newly used. -/
structure Chosen (g : Geometry) (n : ℕ) (t : KvCacheTable) : Prop where
  blocks_length : t.blocks.length = g.blocksCount
  usage_length : t.usage.length = g.blocksCount
  entries : ∀ i b, t.blocks[i]? = some b → b.numEntries = min g.blockSize (n - i * g.blockSize)
  used : ∀ i u, t.usage[i]? = some u → u = decide (i ≤ n / g.blockSize)

variable {g : Geometry} {n : ℕ} {t : KvCacheTable} {usage : KvCacheUsage}

theorem freeTable_filled (g : Geometry) : Filled g 0 g.freeTable [] := by
  constructor
  · simp [Geometry.freeTable]
  · simp [Geometry.freeTable]
  · intro i b hb
    have hb := List.eq_of_mem_replicate (List.mem_of_getElem? hb)
    simp [hb, KvCacheBlock.zero]
  · intro i u hu
    have hu := List.eq_of_mem_replicate (List.mem_of_getElem? hu)
    simp [hu]
  · rfl

theorem Geometry.block_le (g : Geometry) {i n : ℕ} : i ≤ n / g.blockSize ↔ i * g.blockSize ≤ n :=
  Nat.le_div_iff_mul_le g.blockSize_pos

theorem Geometry.row_lt (g : Geometry) (n : ℕ) : n % g.blockSize < g.blockSize :=
  Nat.mod_lt n g.blockSize_pos

theorem Geometry.block_row (g : Geometry) (n : ℕ) :
    n / g.blockSize * g.blockSize + n % g.blockSize = n := Nat.div_add_mod' n g.blockSize

theorem Geometry.block_lt (g : Geometry) {n : ℕ} (h : n < g.blockSize * g.blocksCount) :
    n / g.blockSize < g.blocksCount := Nat.div_lt_of_lt_mul h

/-- Tokens that fit the rest of a block have its rows. -/
theorem slotOf_add (g : Geometry) (l n : ℕ) {k : ℕ} (hk : n % g.blockSize + k < g.blockSize) :
    slotOf g l (n + k) = ⟨l, n / g.blockSize, n % g.blockSize + k, n + k⟩ := by
  have hpos := g.blockSize_pos
  have hsum := g.block_row n
  have hadd : n + k = n % g.blockSize + k + g.blockSize * (n / g.blockSize) := by
    rw [Nat.mul_comm]
    omega
  have hdiv : (n + k) / g.blockSize = n / g.blockSize := by
    rw [hadd, Nat.add_mul_div_left _ _ hpos, Nat.div_eq_of_lt hk, Nat.zero_add]
  have hmod : (n + k) % g.blockSize = n % g.blockSize + k := by
    rw [hadd, Nat.add_mul_mod_self_left, Nat.mod_eq_of_lt hk]
  rw [slotOf, hdiv, hmod]

/-- The block of the next token has the entries before its row. -/
theorem Chosen.entries_next (h : Chosen g n t) {b : KvCacheBlock}
    (hb : t.blocks[n / g.blockSize]? = some b) : b.numEntries = n % g.blockSize := by
  have hrow := g.row_lt n
  have hsum := g.block_row n
  rw [h.entries _ b hb]
  omega

theorem Filled.chosen_of_row (h : Filled g n t usage.blockList) (hrow : n % g.blockSize ≠ 0) :
    Chosen g n t := by
  refine ⟨h.blocks_length, h.usage_length, h.entries, fun i u hu => ?_⟩
  rw [h.used i u hu, decide_eq_decide, g.block_le]
  constructor
  · exact le_of_lt
  · intro hle
    apply lt_of_le_of_ne hle
    rintro rfl
    exact hrow (Nat.mul_mod_left i g.blockSize)

theorem Filled.reusableBlock_row (h : Filled g n t usage.blockList) (hrow : n % g.blockSize ≠ 0)
    (hn : n < g.blockSize * g.blocksCount) :
    reusableBlock g t usage = .ok (some (n / g.blockSize)) := by
  have hn0 : n ≠ 0 := fun h0 => hrow (by rw [h0, Nat.zero_mod])
  have hsum := g.block_row n
  have hlast : (n - 1) / g.blockSize = n / g.blockSize := by
    apply Nat.div_eq_of_lt_le
    · omega
    · have := g.row_lt n
      rw [Nat.add_mul, Nat.one_mul]
      omega
  have hlt : n / g.blockSize < t.blocks.length := h.blocks_length ▸ g.block_lt hn
  have hb := List.getElem?_eq_getElem hlt
  have hentries := (h.chosen_of_row hrow).entries_next hb
  rw [reusableBlock, h.last, if_neg hn0, hlast]
  simp only [hb]
  rw [hentries, if_pos (g.row_lt n)]

theorem Filled.reusableBlock_end (h : Filled g n t usage.blockList) (hrow : n % g.blockSize = 0)
    (hn : n ≤ g.blockSize * g.blocksCount) : reusableBlock g t usage = .ok none := by
  rw [reusableBlock, h.last]
  by_cases hn0 : n = 0
  · rw [if_pos hn0]
  · rw [if_neg hn0]
    have hpos := g.blockSize_pos
    have hsum := g.block_row n
    -- the last block is the one before the next, and it is full
    have hblock : 0 < n / g.blockSize := by
      apply Nat.pos_of_ne_zero
      intro hq
      rw [hq, Nat.zero_mul] at hsum
      omega
    obtain ⟨q, hq⟩ := Nat.exists_eq_add_of_lt hblock
    rw [Nat.zero_add] at hq
    have hqn : q * g.blockSize + g.blockSize = n := by
      rw [hq, Nat.add_mul, Nat.one_mul] at hsum
      omega
    have hlast : (n - 1) / g.blockSize = q := by
      apply Nat.div_eq_of_lt_le
      · omega
      · rw [Nat.add_mul, Nat.one_mul]
        omega
    have hlt : q < t.blocks.length := by
      rw [h.blocks_length]
      apply Nat.lt_of_mul_lt_mul_left (a := g.blockSize)
      rw [Nat.mul_comm g.blockSize q]
      omega
    have hb := List.getElem?_eq_getElem hlt
    rw [hlast]
    simp only [hb]
    rw [h.entries q _ hb, if_neg (by omega)]

theorem Filled.allocBlock_end (h : Filled g n t usage.blockList) (hrow : n % g.blockSize = 0)
    (hn : n < g.blockSize * g.blocksCount) :
    ∃ t', t.allocBlock = some (n / g.blockSize, t') ∧ Chosen g n t' := by
  have hsum := g.block_row n
  rw [hrow, Nat.add_zero] at hsum
  have hlt : n / g.blockSize < t.usage.length := h.usage_length ▸ g.block_lt hn
  have hused : ∀ i u, t.usage[i]? = some u → u = decide (i < n / g.blockSize) := by
    intro i u hu
    rw [h.used i u hu, decide_eq_decide, ← hsum, Nat.mul_lt_mul_right g.blockSize_pos, hsum]
  have hfind : t.usage.findIdx? (fun used => !used) = some (n / g.blockSize) := by
    rw [List.findIdx?_eq_some_iff_getElem]
    refine ⟨hlt, ?_, fun j hj => ?_⟩
    · rw [hused _ _ (List.getElem?_eq_getElem hlt)]
      simp
    · rw [hused _ _ (List.getElem?_eq_getElem (hj.trans hlt))]
      simp [hj]
  refine ⟨_, by rw [KvCacheTable.allocBlock, hfind]; rfl, ?_⟩
  constructor
  · rw [List.length_set, h.blocks_length]
  · rw [List.length_set, h.usage_length]
  · intro i b hb
    rw [List.getElem?_set] at hb
    split_ifs at hb with hi
    · rw [← Option.some.inj hb, ← hi, hsum, Nat.sub_self]
      simp
    · exact h.entries i b hb
  · intro i u hu
    rw [List.getElem?_set] at hu
    split_ifs at hu with hi
    · rw [← Option.some.inj hu, ← hi]
      simp
    · rw [hused i u hu, decide_eq_decide]
      omega

theorem Filled.chooseBlock_eq (h : Filled g n t usage.blockList)
    (hn : n < g.blockSize * g.blocksCount) :
    ∃ t', chooseBlock g t usage = .ok (n / g.blockSize, t') ∧ Chosen g n t' := by
  by_cases hrow : n % g.blockSize = 0
  · obtain ⟨t', halloc, hchosen⟩ := h.allocBlock_end hrow hn
    refine ⟨t', ?_, hchosen⟩
    rw [chooseBlock, h.reusableBlock_end hrow hn.le, Outcome.ok_bind]
    simp only [halloc]
  · refine ⟨t, ?_, h.chosen_of_row hrow⟩
    rw [chooseBlock, h.reusableBlock_row hrow hn, Outcome.ok_bind]

theorem Chosen.filled (h : Chosen g n t) {len : ℕ} (hlen : 0 < len)
    (hfit : n % g.blockSize + len ≤ g.blockSize) (blockList : List ℕ) (b : KvCacheBlock)
    (hb : b.numEntries = n % g.blockSize + len) :
    Filled g (n + len) { t with blocks := t.blocks.set (n / g.blockSize) b }
      (blockList ++ [n / g.blockSize]) := by
  have hsum := g.block_row n
  have hnext : (n / g.blockSize + 1) * g.blockSize = n / g.blockSize * g.blockSize + g.blockSize := by
    rw [Nat.add_mul, Nat.one_mul]
  constructor
  · rw [List.length_set, h.blocks_length]
  · exact h.usage_length
  · intro i c hc
    rw [List.getElem?_set] at hc
    split_ifs at hc with hi
    · rw [← Option.some.inj hc, hb, ← hi]
      omega
    · rw [h.entries i c hc]
      rcases Nat.lt_or_gt_of_ne hi with hi | hi
      · have := Nat.mul_le_mul_right g.blockSize (show n / g.blockSize + 1 ≤ i from hi)
        omega
      · have := Nat.mul_le_mul_right g.blockSize (show i + 1 ≤ n / g.blockSize from hi)
        rw [Nat.add_mul, Nat.one_mul] at this
        omega
  · intro i u hu
    rw [h.used i u hu, decide_eq_decide]
    constructor
    · intro hi
      have := Nat.mul_le_mul_right g.blockSize hi
      omega
    · intro hi
      by_contra hlt
      have := Nat.mul_le_mul_right g.blockSize (show n / g.blockSize + 1 ≤ i from not_le.mp hlt)
      omega
  · rw [List.getLast?_concat, if_neg (by omega)]
    congr 1
    symm
    apply Nat.div_eq_of_lt_le
    · omega
    · omega

/-- The loop of `write_kv` for the tokens from `base` on: what is stored is in its slots. -/
structure Wrote (g : Geometry) (l base : ℕ) (w : Writing) : Prop where
  filled : Filled g (base + w.tokensStored) w.table w.usage.blockList
  seqLen : w.usage.seqLen = base
  copies : w.copies.map (Copy.placement base) =
    (List.range w.tokensStored).map fun k => slotOf g l (base + k)

variable {l base seqLen : ℕ} {w : Writing}

/-- A turn stores the tokens that fit the block of the next one. -/
theorem Wrote.turn (h : Wrote g l base w) (hw : w.tokensStored < seqLen)
    (hcap : base + w.tokensStored < g.blockSize * g.blocksCount) :
    ∃ w', writeTurn g l seqLen w = .ok w' ∧ Wrote g l base w' ∧
      w'.tokensStored = w.tokensStored +
        min (g.blockSize - (base + w.tokensStored) % g.blockSize) (seqLen - w.tokensStored) := by
  obtain ⟨t', hchoose, hchosen⟩ := h.filled.chooseBlock_eq hcap
  have hlt : (base + w.tokensStored) / g.blockSize < t'.blocks.length := by
    rw [hchosen.blocks_length]
    exact g.block_lt hcap
  have hb := List.getElem?_eq_getElem hlt
  have hentries := hchosen.entries_next hb
  have hrow := g.row_lt (base + w.tokensStored)
  generalize hlen : min (g.blockSize - (base + w.tokensStored) % g.blockSize)
    (seqLen - w.tokensStored) = len
  have hpos : 0 < len := by omega
  have hfit : (base + w.tokensStored) % g.blockSize + len ≤ g.blockSize := by omega
  refine ⟨_, by rw [writeTurn, hchoose, Outcome.ok_bind]; simp only [hb]; rfl, ?_, ?_⟩
  · constructor
    · simp only [hentries, hlen]
      rw [← Nat.add_assoc]
      exact hchosen.filled hpos hfit _ _ rfl
    · exact h.seqLen
    · simp only [hentries, hlen]
      rw [List.map_append, h.copies, List.range_add, List.map_append, List.map_map, List.map_map]
      congr 1
      apply List.map_congr_left
      intro k hk
      have hslot := slotOf_add g l (base + w.tokensStored)
        (show (base + w.tokensStored) % g.blockSize + k < g.blockSize by
          have := List.mem_range.mp hk
          omega)
      rw [Function.comp_apply, Function.comp_apply, ← Nat.add_assoc, hslot, Nat.add_assoc]
      rfl
  · simp only [hentries, hlen]

theorem Wrote.loop (h : Wrote g l base w) (hw : w.tokensStored ≤ seqLen)
    (hcap : base + seqLen ≤ g.blockSize * g.blocksCount) {turns : ℕ}
    (hturns : seqLen - w.tokensStored < turns) :
    ∃ w', writeLoop g l seqLen turns w = .ok w' ∧ Wrote g l base w' ∧ w'.tokensStored = seqLen := by
  induction turns generalizing w with
  | zero => exact absurd hturns (Nat.not_lt_zero _)
  | succ turns ih =>
    by_cases hlt : w.tokensStored < seqLen
    · obtain ⟨w1, hturn, hw1, hstored⟩ := h.turn hlt (by omega)
      have hrow := g.row_lt (base + w.tokensStored)
      obtain ⟨w2, hloop, hw2, hall⟩ := ih hw1 (by omega) (by omega)
      refine ⟨w2, ?_, hw2, hall⟩
      rw [writeLoop, if_pos hlt, hturn, Outcome.ok_bind, hloop]
    · refine ⟨w, ?_, h, by omega⟩
      rw [writeLoop, if_neg hlt]

/-- A cache with one layer that holds the first `n` tokens. -/
structure CacheHolds (g : Geometry) (n : ℕ) (c : KVCache) : Prop where
  table : ∃ t, c.blockTables = [t] ∧ Filled g n t c.usage.blockList
  seqLen : c.usage.seqLen = n

theorem freeCache_holds (g : Geometry) : CacheHolds g 0 (g.freeCache 1) :=
  ⟨⟨g.freeTable, rfl, freeTable_filled g⟩, rfl⟩

def copiesFrom (g : Geometry) (base m : ℕ) : List Copy :=
  (List.range m).map fun k => ⟨0, (base + k) / g.blockSize, (base + k) % g.blockSize, k⟩

theorem copiesFrom_placement (g : Geometry) (base m : ℕ) :
    (copiesFrom g base m).map (Copy.placement base) =
      (List.range m).map fun k => slotOf g 0 (base + k) := by
  rw [copiesFrom, List.map_map]
  rfl

theorem placement_injective (base : ℕ) : Function.Injective (Copy.placement base) := by
  intro c d h
  simp only [Copy.placement, Placement.mk.injEq] at h
  obtain ⟨hl, hb, hr, hs⟩ := h
  cases c
  cases d
  simp only at hl hb hr hs
  simp [hl, hb, hr, Nat.add_left_cancel hs]

/-- Building a graph within the capacity copies the tokens to their slots. -/
theorem CacheHolds.writeLayers {c : KVCache} (h : CacheHolds g n c) {m : ℕ}
    (hcap : n + m ≤ g.blockSize * g.blocksCount) :
    ∃ c', c.writeLayers g m 0 1 = .ok (c', copiesFrom g n m) ∧ CacheHolds g (n + m) c' := by
  obtain ⟨t, htable, hfilled⟩ := h.table
  have hstart : Wrote g 0 n ⟨t, c.usage, 0, []⟩ := ⟨hfilled, h.seqLen, rfl⟩
  obtain ⟨w, hloop, hw, hall⟩ := hstart.loop (Nat.zero_le m) hcap (Nat.lt_succ_self m)
  have hcopies : w.copies = copiesFrom g n m := by
    apply List.map_injective_iff.mpr (placement_injective n)
    rw [hw.copies, hall, copiesFrom_placement]
  have hwrite : c.writeKv g 0 m = .ok
      (⟨[w.table], { w.usage with seqLen := w.usage.seqLen + w.tokensStored }⟩, w.copies) := by
    rw [KVCache.writeKv, htable]
    simp only [List.getElem?_cons_zero]
    rw [hloop, Outcome.ok_bind]
    rfl
  refine ⟨⟨[w.table], { w.usage with seqLen := w.usage.seqLen + w.tokensStored }⟩, ?_, ?_⟩
  · rw [KVCache.writeLayers, hwrite, Outcome.ok_bind, KVCache.writeLayers, Outcome.ok_bind,
      List.append_nil, hcopies]
  · constructor
    · exact ⟨w.table, rfl, hall ▸ hw.filled⟩
    · change w.usage.seqLen + w.tokensStored = n + m
      rw [hw.seqLen, hall]

/-- The state of a run over one layer: every token so far is in its slot. -/
structure Stored (g : Geometry) (r : Run) : Prop where
  cache : CacheHolds g r.tokens r.cache
  log : r.log = (List.range r.tokens).map (slotOf g 0)

theorem start_stored (g : Geometry) : Stored g (g.start 1) := ⟨freeCache_holds g, rfl⟩

theorem Stored.step {r : Run} (h : Stored g r) {m : ℕ}
    (hcap : r.tokens + m ≤ g.blockSize * g.blocksCount) :
    ∃ r', r.step g 1 m = .ok r' ∧ Stored g r' ∧ r'.tokens = r.tokens + m := by
  obtain ⟨c', hlayers, hc'⟩ := h.cache.writeLayers hcap
  refine ⟨_, by rw [Run.step, hlayers, Outcome.ok_bind], ⟨hc', ?_⟩, rfl⟩
  change r.log ++ (copiesFrom g r.tokens m).map (Copy.placement r.tokens) = _
  rw [copiesFrom_placement, h.log, List.range_add, List.map_append, List.map_map]
  rfl

/-- A run within the capacity ends and has stored all its tokens. -/
theorem Stored.steps {r : Run} (h : Stored g r) {ns : List ℕ}
    (hcap : r.tokens + ns.sum ≤ g.blockSize * g.blocksCount) :
    ∃ r', Run.steps g 1 ns r = .ok r' ∧ Stored g r' ∧ r'.tokens = r.tokens + ns.sum := by
  induction ns generalizing r with
  | nil => exact ⟨r, rfl, h, rfl⟩
  | cons m ns ih =>
    rw [List.sum_cons] at hcap
    obtain ⟨r1, hstep, h1, htokens⟩ := h.step (show r.tokens + m ≤ _ by omega)
    obtain ⟨r2, hsteps, h2, htokens'⟩ := ih h1 (by omega)
    refine ⟨r2, ?_, h2, ?_⟩
    · rw [Run.steps, hstep, Outcome.ok_bind, hsteps]
    · rw [htokens', htokens, List.sum_cons, Nat.add_assoc]

end ZInferLM.KvCache
