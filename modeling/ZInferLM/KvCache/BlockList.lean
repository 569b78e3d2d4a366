import ZInferLM.KvCache.SingleLayer

/-! # The list of blocks of a sequence

The list should name the blocks of a sequence in order, once each, with the position of their first
token. A turn appends its block although a block that is used again is in the list already, and
gives it the length before the whole call. So the list is right as long as every call starts a block
and ends in it, and it is spoiled for good by the first call that does not. -/

namespace ZInferLM.KvCache
open Library

def Geometry.blocksFor (g : Geometry) (n : ℕ) : ℕ := (n + g.blockSize - 1) / g.blockSize

/-- The block list and the table of a sequence of `n` tokens that were copied as the log says. -/
structure DescribesSequence (g : Geometry) (n : ℕ) (t : KvCacheTable) (usage : KvCacheUsage)
    (log : List Placement) : Prop where
  nodup : usage.blockList.Nodup
  length : usage.blockList.length = g.blocksFor n
  block : ∀ k i, usage.blockList[k]? = some i → ∃ b, t.blocks[i]? = some b ∧
    b.startPos = k * g.blockSize ∧ b.seqId = 0 ∧
    (k + 1 < usage.blockList.length → b.numEntries = g.blockSize)
  entries : (usage.blockList.map fun i => (t.blocks.getD i .zero).numEntries).sum = n
  seqLen : usage.seqLen = n
  found : ∀ p < n, ∃ i, usage.blockList[p / g.blockSize]? = some i ∧
    ⟨0, i, p % g.blockSize, p⟩ ∈ log

/-- Every call that stores a token starts a block and ends in it. -/
def WholeBlocks (g : Geometry) : ℕ → List ℕ → Prop
  | _, [] => True
  | base, n :: ns =>
    (n ≠ 0 → g.blockSize ∣ base ∧ n ≤ g.blockSize) ∧ WholeBlocks g (base + n) ns

instance (g : Geometry) : (base : ℕ) → (ns : List ℕ) → Decidable (WholeBlocks g base ns)
  | _, [] => isTrue trivial
  | base, n :: ns =>
    have := instDecidableWholeBlocks g (base + n) ns
    inferInstanceAs (Decidable ((n ≠ 0 → g.blockSize ∣ base ∧ n ≤ g.blockSize) ∧ _))

/-- The list has the blocks of `n` tokens in order, with their first positions. -/
structure Listed (g : Geometry) (n : ℕ) (t : KvCacheTable) (blockList : List ℕ) : Prop where
  list : blockList = List.range (g.blocksFor n)
  marks : ∀ k < g.blocksFor n,
    ∃ b, t.blocks[k]? = some b ∧ b.startPos = k * g.blockSize ∧ b.seqId = 0

/-- The list has a block twice, or one with a wrong first position. -/
def Spoiled (g : Geometry) (t : KvCacheTable) (blockList : List ℕ) : Prop :=
  blockList.Nodup → ∃ k i b, blockList[k]? = some i ∧ t.blocks[i]? = some b ∧
    b.startPos ≠ k * g.blockSize

/-- Block `i` got this first position, the other blocks are as before. -/
structure Marked (i base : ℕ) (t t' : KvCacheTable) : Prop where
  here : ∃ b, t'.blocks[i]? = some b ∧ b.startPos = base ∧ b.seqId = 0
  elsewhere : ∀ j, j ≠ i → t'.blocks[j]? = t.blocks[j]?

variable {g : Geometry} {n base l seqLen : ℕ} {t t' : KvCacheTable} {usage : KvCacheUsage}
  {blockList : List ℕ} {w w' : Writing}

theorem Geometry.lt_blocksFor (g : Geometry) {k n : ℕ} :
    k < g.blocksFor n ↔ k * g.blockSize < n := by
  have hpos := g.blockSize_pos
  rw [Geometry.blocksFor, ← Nat.succ_le_iff, Nat.le_div_iff_mul_le hpos, Nat.succ_mul]
  omega

theorem Geometry.blocksFor_mul (g : Geometry) (q : ℕ) : g.blocksFor (q * g.blockSize) = q := by
  apply eq_of_forall_lt_iff
  intro k
  rw [g.lt_blocksFor, Nat.mul_lt_mul_right g.blockSize_pos]

theorem Geometry.blocksFor_add (g : Geometry) (q : ℕ) {m : ℕ} (hm : 0 < m) (hle : m ≤ g.blockSize) :
    g.blocksFor (q * g.blockSize + m) = q + 1 := by
  apply eq_of_forall_lt_iff
  intro k
  rw [g.lt_blocksFor, Nat.lt_succ_iff]
  constructor
  · intro hk
    by_contra hlt
    have := Nat.mul_le_mul_right g.blockSize (show q + 1 ≤ k from not_le.mp hlt)
    rw [Nat.succ_mul] at this
    omega
  · intro hk
    have := Nat.mul_le_mul_right g.blockSize hk
    omega

theorem Geometry.block_lt_blocksFor (g : Geometry) {p n : ℕ} (hp : p < n) :
    p / g.blockSize < g.blocksFor n := by
  have hrow := g.block_row p
  rw [g.lt_blocksFor]
  omega

theorem Geometry.entries_sum (g : Geometry) (n q : ℕ) :
    ((List.range q).map fun i => min g.blockSize (n - i * g.blockSize)).sum =
      min (q * g.blockSize) n := by
  induction q with
  | zero => simp
  | succ q ih =>
    rw [List.range_succ, List.map_append, List.sum_append, ih, List.map_singleton,
      List.sum_singleton, Nat.succ_mul]
    omega

theorem chooseBlock_elsewhere {i : ℕ} (h : chooseBlock g t usage = .ok (i, t')) {j : ℕ}
    (hj : j ≠ i) : t'.blocks[j]? = t.blocks[j]? := by
  obtain ⟨reusable, -, h⟩ := Outcome.bind_eq_ok.mp h
  cases reusable with
  | some i => cases h; rfl
  | none =>
    cases halloc : t.allocBlock with
    | none => simp [halloc] at h
    | some r =>
      simp only [halloc, Except.ok.injEq] at h
      subst h
      obtain ⟨i', -, hi'⟩ := Option.map_eq_some_iff.mp halloc
      cases hi'
      exact List.getElem?_set_ne hj.symm

theorem writeTurn_marked (h : writeTurn g l seqLen w = .ok w') :
    ∃ i t', chooseBlock g w.table w.usage = .ok (i, t') ∧
      w'.usage = ⟨w.usage.blockList ++ [i], w.usage.seqLen⟩ ∧
      Marked i w.usage.seqLen w.table w'.table := by
  obtain ⟨⟨i, t'⟩, hchoose, h⟩ := Outcome.bind_eq_ok.mp h
  cases hb : t'.blocks[i]? with
  | none => simp [hb] at h
  | some b =>
    simp only [hb] at h
    have hi : i < t'.blocks.length := (List.getElem?_eq_some_iff.mp hb).1
    cases h
    refine ⟨i, t', hchoose, rfl, ⟨⟨_, List.getElem?_set_self hi, rfl, rfl⟩, fun j hj => ?_⟩⟩
    rw [List.getElem?_set_ne hj.symm, chooseBlock_elsewhere hchoose hj]

/-- A list stays spoiled: a block that gets a new position is in the list twice. -/
theorem Spoiled.append {i : ℕ} (h : Spoiled g t blockList) (hmarked : Marked i base t t') :
    Spoiled g t' (blockList ++ [i]) := by
  intro hnodup
  obtain ⟨hold, -, hnew⟩ := List.nodup_append.mp hnodup
  obtain ⟨k, j, b, hk, hb, hne⟩ := h hold
  have hj : j ≠ i := hnew j (List.mem_of_getElem? hk) i (List.mem_singleton_self i)
  refine ⟨k, j, b, ?_, ?_, hne⟩
  · rw [List.getElem?_append_left (List.getElem?_eq_some_iff.mp hk).1, hk]
  · rw [hmarked.elsewhere j hj, hb]

theorem Spoiled.turn (h : Spoiled g w.table w.usage.blockList)
    (hturn : writeTurn g l seqLen w = .ok w') : Spoiled g w'.table w'.usage.blockList := by
  obtain ⟨i, t', -, husage, hmarked⟩ := writeTurn_marked hturn
  rw [husage]
  exact h.append hmarked

theorem writeLoop_done (hall : seqLen ≤ w.tokensStored) {turns : ℕ}
    (hloop : writeLoop g l seqLen turns w = .ok w') : w' = w := by
  cases turns with
  | zero => cases hloop
  | succ turns =>
    rw [writeLoop, if_neg (by omega)] at hloop
    exact (Except.ok.inj hloop).symm

theorem Spoiled.loop {turns : ℕ} (h : Spoiled g w.table w.usage.blockList)
    (hloop : writeLoop g l seqLen turns w = .ok w') : Spoiled g w'.table w'.usage.blockList := by
  induction turns generalizing w with
  | zero => cases hloop
  | succ turns ih =>
    rw [writeLoop] at hloop
    split_ifs at hloop with hlt
    · obtain ⟨w1, hturn, hrest⟩ := Outcome.bind_eq_ok.mp hloop
      exact ih (h.turn hturn) hrest
    · cases hloop
      exact h

/-- Whole blocks and up to a block more: the next block is listed with its first position. -/
theorem Listed.append {q m : ℕ} (h : Listed g (q * g.blockSize) t blockList) (hm : 0 < m)
    (hle : m ≤ g.blockSize) (hmarked : Marked q (q * g.blockSize) t t') :
    Listed g (q * g.blockSize + m) t' (blockList ++ [q]) := by
  constructor
  · rw [h.list, g.blocksFor_mul, g.blocksFor_add q hm hle, List.range_succ]
  · intro k hk
    rw [g.blocksFor_add q hm hle] at hk
    by_cases hkq : k = q
    · rw [hkq]
      exact hmarked.here
    · rw [hmarked.elsewhere k hkq]
      exact h.marks k (by rw [g.blocksFor_mul]; omega)

/-- A call that goes on in a block lists it a second time. -/
theorem Listed.spoiled_of_row (h : Listed g n t blockList) (hrow : ¬ g.blockSize ∣ n) :
    Spoiled g t' (blockList ++ [n / g.blockSize]) := by
  intro hnodup
  obtain ⟨-, -, hnew⟩ := List.nodup_append.mp hnodup
  have hmem : n / g.blockSize ∈ blockList := by
    rw [h.list, List.mem_range, g.lt_blocksFor]
    apply lt_of_le_of_ne (Nat.div_mul_le_self n g.blockSize)
    intro heq
    exact hrow ⟨n / g.blockSize, by rw [Nat.mul_comm, heq]⟩
  exact absurd rfl (hnew _ hmem _ (List.mem_singleton_self _))

/-- The second block of a call gets the first position of the call. -/
theorem Listed.spoiled_of_base {q : ℕ} (h : Listed g (q * g.blockSize) t blockList)
    (hmarked : Marked q base t t') (hbase : base ≠ q * g.blockSize) :
    Spoiled g t' (blockList ++ [q]) := by
  intro _
  obtain ⟨b, hb, hstart, -⟩ := hmarked.here
  refine ⟨q, q, b, ?_, hb, by rw [hstart]; exact hbase⟩
  rw [h.list, g.blocksFor_mul, ← List.range_succ, List.getElem?_range (Nat.lt_succ_self q)]

/-- A turn that starts a block at the beginning of a call keeps the list right, any other spoils
it. -/
theorem Listed.turn (hw : Wrote g l base w)
    (hcap : base + w.tokensStored < g.blockSize * g.blocksCount)
    (h : Listed g (base + w.tokensStored) w.table w.usage.blockList)
    (hturn : writeTurn g l seqLen w = .ok w') :
    (w.tokensStored = 0 → g.blockSize ∣ base → w'.tokensStored ≤ g.blockSize → 0 < w'.tokensStored →
      Listed g (base + w'.tokensStored) w'.table w'.usage.blockList) ∧
    (¬ (w.tokensStored = 0 ∧ g.blockSize ∣ base) → Spoiled g w'.table w'.usage.blockList) := by
  obtain ⟨i, t', hchoose, husage, hmarked⟩ := writeTurn_marked hturn
  obtain ⟨t1, hchoose', -⟩ := hw.filled.chooseBlock_eq hcap
  rw [hchoose] at hchoose'
  obtain ⟨rfl, -⟩ := Prod.mk.inj (Except.ok.inj hchoose')
  rw [husage]
  rw [hw.seqLen] at hmarked
  constructor
  · intro hzero hdvd hle hpos
    obtain ⟨q, hq⟩ := hdvd
    rw [hzero, Nat.add_zero] at h hmarked ⊢
    rw [Nat.mul_comm] at hq
    rw [hq, Nat.mul_div_cancel q g.blockSize_pos] at hmarked ⊢
    exact (hq ▸ h).append hpos hle hmarked
  · intro hnot
    by_cases hdvd : g.blockSize ∣ base + w.tokensStored
    · obtain ⟨q, hq⟩ := hdvd
      rw [Nat.mul_comm] at hq
      rw [hq, Nat.mul_div_cancel q g.blockSize_pos] at hmarked ⊢
      refine (hq ▸ h).spoiled_of_base hmarked ?_
      intro hbase
      have hzero : w.tokensStored = 0 := by omega
      exact hnot ⟨hzero, ⟨q, by rw [hbase, Nat.mul_comm]⟩⟩
    · exact h.spoiled_of_row hdvd

theorem Wrote.loop_turn (hw : Wrote g l base w) (hcap : base + seqLen ≤ g.blockSize * g.blocksCount)
    (hlt : w.tokensStored < seqLen) {turns : ℕ} (hloop : writeLoop g l seqLen turns w = .ok w') :
    ∃ w1 turns', writeTurn g l seqLen w = .ok w1 ∧ Wrote g l base w1 ∧
      w1.tokensStored = w.tokensStored +
        min (g.blockSize - (base + w.tokensStored) % g.blockSize) (seqLen - w.tokensStored) ∧
      writeLoop g l seqLen turns' w1 = .ok w' := by
  cases turns with
  | zero => cases hloop
  | succ turns =>
    rw [writeLoop, if_pos hlt] at hloop
    obtain ⟨w1, hturn, hrest⟩ := Outcome.bind_eq_ok.mp hloop
    obtain ⟨w2, hturn', hw1, hstored⟩ := hw.turn hlt (show base + w.tokensStored < _ by omega)
    cases hturn.symm.trans hturn'
    exact ⟨w1, turns, hturn, hw1, hstored, hrest⟩

/-- A call that starts a block and ends in it keeps the list right. -/
theorem Listed.loop (hw : Wrote g l base w) (hcap : base + seqLen ≤ g.blockSize * g.blocksCount)
    (h : Listed g base w.table w.usage.blockList) (hzero : w.tokensStored = 0)
    (hwhole : seqLen ≠ 0 → g.blockSize ∣ base ∧ seqLen ≤ g.blockSize) {turns : ℕ}
    (hloop : writeLoop g l seqLen turns w = .ok w') :
    Listed g (base + seqLen) w'.table w'.usage.blockList := by
  by_cases hempty : seqLen = 0
  · have hsame := writeLoop_done (by omega) hloop
    rw [hsame, hempty]
    exact h
  · obtain ⟨hdvd, hle⟩ := hwhole hempty
    obtain ⟨w1, turns', hturn, hw1, hstored, hrest⟩ := hw.loop_turn hcap (by omega) hloop
    rw [hzero, Nat.add_zero, Nat.mod_eq_zero_of_dvd hdvd] at hstored
    have hall : w1.tokensStored = seqLen := by omega
    rw [writeLoop_done (by omega) hrest, ← hall]
    apply (Listed.turn hw (by omega) (by rwa [hzero]) hturn).1 hzero hdvd
    · omega
    · omega

theorem Listed.loop_spoiled (hw : Wrote g l base w)
    (hcap : base + seqLen ≤ g.blockSize * g.blocksCount)
    (h : Listed g base w.table w.usage.blockList) (hzero : w.tokensStored = 0)
    (hwhole : ¬ (seqLen ≠ 0 → g.blockSize ∣ base ∧ seqLen ≤ g.blockSize)) {turns : ℕ}
    (hloop : writeLoop g l seqLen turns w = .ok w') : Spoiled g w'.table w'.usage.blockList := by
  obtain ⟨hempty, hnot⟩ := Classical.not_imp.mp hwhole
  obtain ⟨w1, turns', hturn, hw1, hstored, hrest⟩ := hw.loop_turn hcap (by omega) hloop
  obtain ⟨hgood, hbad⟩ := Listed.turn hw (by omega) (by rwa [hzero]) hturn
  by_cases hdvd : g.blockSize ∣ base
  · -- the call fills its first block and goes on in a second one
    have hlong : g.blockSize < seqLen := by
      by_contra hle
      exact hnot ⟨hdvd, not_lt.mp hle⟩
    have hpos := g.blockSize_pos
    rw [hzero, Nat.add_zero, Nat.mod_eq_zero_of_dvd hdvd] at hstored
    have hlisted := hgood hzero hdvd (by omega) (by omega)
    obtain ⟨w2, turns2, hturn2, -, -, hrest2⟩ := hw1.loop_turn hcap (by omega) hrest
    apply Spoiled.loop _ hrest2
    apply (Listed.turn hw1 (by omega) hlisted hturn2).2
    omega
  · apply Spoiled.loop _ hrest
    apply hbad
    rintro ⟨-, hdvd'⟩
    exact hdvd hdvd'

theorem CacheHolds.step_loop {r r' : Run} (h : CacheHolds g r.tokens r.cache)
    (hstep : r.step g 1 n = .ok r') :
    ∃ w w', Wrote g 0 r.tokens w ∧ w.tokensStored = 0 ∧ r.cache.blockTables = [w.table] ∧
      w.usage = r.cache.usage ∧ writeLoop g 0 n (n + 1) w = .ok w' ∧
      r'.cache.blockTables = [w'.table] ∧ r'.cache.usage.blockList = w'.usage.blockList := by
  obtain ⟨t, htable, hfilled⟩ := h.table
  refine ⟨⟨t, r.cache.usage, 0, []⟩, ?_⟩
  obtain ⟨written, hlayers, hdone⟩ := Outcome.bind_eq_ok.mp hstep
  obtain ⟨first, hwrite, hrest⟩ := Outcome.bind_eq_ok.mp hlayers
  rw [KVCache.writeKv, htable] at hwrite
  obtain ⟨w', hloop, hcache⟩ := Outcome.bind_eq_ok.mp hwrite
  cases hcache
  cases hrest
  cases hdone
  exact ⟨w', ⟨hfilled, h.seqLen, rfl⟩, rfl, htable, rfl, hloop, rfl, rfl⟩

theorem Run.step_tokens {layers : ℕ} {r r' : Run} (hstep : r.step g layers n = .ok r') :
    r'.tokens = r.tokens + n := by
  obtain ⟨written, -, hdone⟩ := Outcome.bind_eq_ok.mp hstep
  cases hdone
  rfl

def Run.InOrder (g : Geometry) (r : Run) : Prop :=
  ∃ t, r.cache.blockTables = [t] ∧ Listed g r.tokens t r.cache.usage.blockList

def Run.OutOfOrder (g : Geometry) (r : Run) : Prop :=
  ∃ t, r.cache.blockTables = [t] ∧ Spoiled g t r.cache.usage.blockList

theorem start_inOrder (g : Geometry) : (g.start 1).InOrder g := by
  refine ⟨g.freeTable, rfl, ?_, fun k hk => ?_⟩
  · change [] = List.range (g.blocksFor 0)
    rw [← Nat.zero_mul g.blockSize, g.blocksFor_mul, List.range_zero]
  · change k < g.blocksFor 0 at hk
    rw [g.lt_blocksFor] at hk
    exact absurd hk (Nat.not_lt_zero _)

theorem Run.InOrder.step {r r' : Run} (h : r.InOrder g) (hstored : Stored g r)
    (hcap : r.tokens + n ≤ g.blockSize * g.blocksCount) (hstep : r.step g 1 n = .ok r') :
    ((n ≠ 0 → g.blockSize ∣ r.tokens ∧ n ≤ g.blockSize) → r'.InOrder g) ∧
    (¬ (n ≠ 0 → g.blockSize ∣ r.tokens ∧ n ≤ g.blockSize) → r'.OutOfOrder g) := by
  obtain ⟨t, htable, hlisted⟩ := h
  obtain ⟨w, w', hw, hzero, hw_table, husage, hloop, htable', hlist⟩ :=
    hstored.cache.step_loop hstep
  obtain ⟨rfl, -⟩ := List.cons.inj (htable.symm.trans hw_table)
  rw [← husage] at hlisted
  constructor
  · intro hwhole
    refine ⟨w'.table, htable', ?_⟩
    rw [hlist, Run.step_tokens hstep]
    exact hlisted.loop hw hcap hzero hwhole hloop
  · intro hwhole
    refine ⟨w'.table, htable', ?_⟩
    rw [hlist]
    exact hlisted.loop_spoiled hw hcap hzero hwhole hloop

theorem Run.OutOfOrder.step {r r' : Run} (h : r.OutOfOrder g) (hstored : Stored g r)
    (hstep : r.step g 1 n = .ok r') : r'.OutOfOrder g := by
  obtain ⟨t, htable, hspoiled⟩ := h
  obtain ⟨w, w', -, -, hw_table, husage, hloop, htable', hlist⟩ := hstored.cache.step_loop hstep
  obtain ⟨rfl, -⟩ := List.cons.inj (htable.symm.trans hw_table)
  rw [← husage] at hspoiled
  refine ⟨w'.table, htable', ?_⟩
  rw [hlist]
  exact hspoiled.loop hloop

/-- A run with a spoiled list never has a right one again. -/
theorem Run.OutOfOrder.steps {r r' : Run} (h : r.OutOfOrder g) (hstored : Stored g r) {ns : List ℕ}
    (hcap : r.tokens + ns.sum ≤ g.blockSize * g.blocksCount)
    (hsteps : Run.steps g 1 ns r = .ok r') : r'.OutOfOrder g := by
  induction ns generalizing r with
  | nil =>
    cases hsteps
    exact h
  | cons n ns ih =>
    obtain ⟨r1, hstep, hrest⟩ := Outcome.bind_eq_ok.mp hsteps
    rw [List.sum_cons] at hcap
    obtain ⟨r2, hstep', hstored', htokens⟩ := hstored.step (show r.tokens + n ≤ _ by omega)
    cases hstep.symm.trans hstep'
    exact ih (h.step hstored hstep) hstored' (by omega) hrest

/-- Whole calls keep the list right, and any other call has spoiled it at the end. -/
theorem Run.InOrder.steps {r r' : Run} (h : r.InOrder g) (hstored : Stored g r) {ns : List ℕ}
    (hcap : r.tokens + ns.sum ≤ g.blockSize * g.blocksCount)
    (hsteps : Run.steps g 1 ns r = .ok r') :
    (WholeBlocks g r.tokens ns → r'.InOrder g) ∧
      (¬ WholeBlocks g r.tokens ns → r'.OutOfOrder g) := by
  induction ns generalizing r with
  | nil =>
    cases hsteps
    exact ⟨fun _ => h, fun hnot => absurd trivial hnot⟩
  | cons n ns ih =>
    obtain ⟨r1, hstep, hrest⟩ := Outcome.bind_eq_ok.mp hsteps
    rw [List.sum_cons] at hcap
    obtain ⟨r2, hstep', hstored', htokens⟩ := hstored.step (show r.tokens + n ≤ _ by omega)
    cases hstep.symm.trans hstep'
    obtain ⟨hgood, hbad⟩ := h.step hstored (by omega) hstep
    constructor
    · intro hwhole
      apply (ih (hgood hwhole.1) hstored' (by omega) hrest).1
      rw [htokens]
      exact hwhole.2
    · intro hwhole
      by_cases hfirst : n ≠ 0 → g.blockSize ∣ r.tokens ∧ n ≤ g.blockSize
      · apply (ih (hgood hfirst) hstored' (by omega) hrest).2
        intro hlater
        rw [htokens] at hlater
        exact hwhole ⟨hfirst, hlater⟩
      · exact (hbad hfirst).steps hstored' (by omega) hrest

theorem Listed.describes {r : Run} (hstored : Stored g r) (htable : r.cache.blockTables = [t])
    (h : Listed g r.tokens t r.cache.usage.blockList) :
    DescribesSequence g r.tokens t r.cache.usage r.log := by
  obtain ⟨t', htable', hfilled⟩ := hstored.cache.table
  obtain ⟨rfl, -⟩ := List.cons.inj (htable.symm.trans htable')
  have hget : ∀ k i, r.cache.usage.blockList[k]? = some i → k = i ∧ k < g.blocksFor r.tokens := by
    intro k i hk
    rw [h.list, List.getElem?_eq_some_iff] at hk
    obtain ⟨hlt, hk⟩ := hk
    rw [List.getElem_range] at hk
    rw [List.length_range] at hlt
    exact ⟨hk, hlt⟩
  constructor
  · rw [h.list]
    exact List.nodup_range
  · rw [h.list, List.length_range]
  · intro k i hk
    obtain ⟨rfl, hlt⟩ := hget k i hk
    obtain ⟨b, hb, hstart, hseq⟩ := h.marks k hlt
    refine ⟨b, hb, hstart, hseq, fun hnext => ?_⟩
    rw [h.list, List.length_range, g.lt_blocksFor, Nat.succ_mul] at hnext
    rw [hfilled.entries k b hb]
    omega
  · have hentries : ∀ i ∈ List.range (g.blocksFor r.tokens),
        (t.blocks.getD i .zero).numEntries = min g.blockSize (r.tokens - i * g.blockSize) := by
      intro i hi
      obtain ⟨b, hb, -⟩ := h.marks i (List.mem_range.mp hi)
      rw [List.getD_eq_getElem?_getD, hb, Option.getD_some, hfilled.entries i b hb]
    rw [h.list, List.map_congr_left hentries, g.entries_sum]
    have hall : ¬ g.blocksFor r.tokens * g.blockSize < r.tokens := by
      rw [← g.lt_blocksFor]
      exact lt_irrefl _
    omega
  · exact hstored.cache.seqLen
  · intro p hp
    refine ⟨p / g.blockSize, ?_, ?_⟩
    · rw [h.list, List.getElem?_range (g.block_lt_blocksFor hp)]
    · rw [hstored.log, List.mem_map]
      exact ⟨p, List.mem_range.mpr hp, rfl⟩

theorem Spoiled.not_describes {log : List Placement} (h : Spoiled g t usage.blockList) :
    ¬ DescribesSequence g n t usage log := by
  intro hd
  obtain ⟨k, i, b, hk, hb, hne⟩ := h hd.nodup
  obtain ⟨b', hb', hstart, -⟩ := hd.block k i hk
  rw [hb] at hb'
  rw [Option.some.inj hb'] at hne
  exact hne hstart

/-- After calls that fit the cache the list describes the sequence exactly if every call was
whole. -/
theorem describesSequence_iff {ns : List ℕ} (hcap : ns.sum ≤ g.blockSize * g.blocksCount) :
    ∃ r t, Run.steps g 1 ns (g.start 1) = .ok r ∧ r.cache.blockTables = [t] ∧
      (DescribesSequence g ns.sum t r.cache.usage r.log ↔ WholeBlocks g 0 ns) := by
  have hstart : (g.start 1).tokens = 0 := rfl
  have hcap' : (g.start 1).tokens + ns.sum ≤ g.blockSize * g.blocksCount := by omega
  obtain ⟨r, hsteps, hstored, htokens⟩ := (start_stored g).steps hcap'
  obtain ⟨t, htable, -⟩ := hstored.cache.table
  obtain ⟨hgood, hbad⟩ := (start_inOrder g).steps (start_stored g) hcap' hsteps
  rw [hstart, Nat.zero_add] at htokens
  refine ⟨r, t, hsteps, htable, ?_, ?_⟩
  · intro hd
    by_contra hwhole
    obtain ⟨t', htable', hspoiled⟩ := hbad hwhole
    obtain ⟨rfl, -⟩ := List.cons.inj (htable.symm.trans htable')
    exact hspoiled.not_describes hd
  · intro hwhole
    obtain ⟨t', htable', hlisted⟩ := hgood hwhole
    obtain ⟨rfl, -⟩ := List.cons.inj (htable.symm.trans htable')
    rw [← htokens]
    exact hlisted.describes hstored htable

/-- A whole block and a part of the next one. -/
theorem describesSequence_iff_blocks :
    ∃ r t, Run.steps fourBlocks 1 [16, 4] (fourBlocks.start 1) = .ok r ∧
      r.cache.blockTables = [t] ∧
      (DescribesSequence fourBlocks 20 t r.cache.usage r.log ↔ WholeBlocks fourBlocks 0 [16, 4]) :=
  describesSequence_iff (by decide)

/-- Two tokens, one after the other: their block is listed twice. -/
theorem twoTokens_listedTwice : ∃ r t, Run.steps fourBlocks 1 [1, 1] (fourBlocks.start 1) = .ok r ∧
    r.cache.blockTables = [t] ∧ r.cache.usage.blockList = [0, 0] ∧
    ¬ DescribesSequence fourBlocks 2 t r.cache.usage r.log := by
  refine ⟨_, _, rfl, rfl, rfl, ?_⟩
  intro h
  exact absurd h.length (by decide)

end ZInferLM.KvCache
