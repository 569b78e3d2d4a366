import ZInferLM.KvCache.SingleLayer

/-! # Live data in the cache

A run over one layer keeps all its tokens. With more layers every layer adds the tokens of the step
to the shared length, and the last block of one layer steers where the next one writes. -/

namespace ZInferLM.KvCache
open Library

/-- No slot receives two different tokens. -/
def Run.NoOverwrite (r : Run) : Prop :=
  ∀ p ∈ r.log, ∀ q ∈ r.log, p.layer = q.layer → p.block = q.block → p.row = q.row →
    p.token = q.token

instance (r : Run) : Decidable r.NoOverwrite :=
  inferInstanceAs (Decidable (∀ p ∈ r.log, ∀ q ∈ r.log, p.layer = q.layer → p.block = q.block →
    p.row = q.row → p.token = q.token))

/-- Every block written in a layer is marked used in that layer. -/
def Run.WrittenUsed (r : Run) : Prop :=
  ∀ p ∈ r.log, ∃ t, r.cache.blockTables[p.layer]? = some t ∧ t.usage[p.block]? = some true

/-- After every step no token was overwritten, written blocks are in use and the length is that of
the sequence. -/
def KeepsLiveData (g : Geometry) (layers : ℕ) (ns : List ℕ) : Prop :=
  ∀ i ≤ ns.length, ∃ r, Run.steps g layers (ns.take i) (g.start layers) = .ok r ∧
    r.NoOverwrite ∧ r.WrittenUsed ∧ r.cache.usage.seqLen = (ns.take i).sum

variable {g : Geometry}

theorem Stored.noOverwrite {r : Run} (h : Stored g r) : r.NoOverwrite := by
  intro p hp q hq _ hblock hrow
  rw [h.log, List.mem_map] at hp hq
  obtain ⟨m, -, rfl⟩ := hp
  obtain ⟨n, -, rfl⟩ := hq
  change m / g.blockSize = n / g.blockSize at hblock
  change m % g.blockSize = n % g.blockSize at hrow
  change m = n
  rw [← g.block_row m, ← g.block_row n, hblock, hrow]

theorem Stored.writtenUsed {r : Run} (h : Stored g r)
    (hcap : r.tokens ≤ g.blockSize * g.blocksCount) : r.WrittenUsed := by
  intro p hp
  obtain ⟨t, htable, hfilled⟩ := h.cache.table
  rw [h.log, List.mem_map] at hp
  obtain ⟨n, hn, rfl⟩ := hp
  have hn := List.mem_range.mp hn
  refine ⟨t, by rw [htable]; rfl, ?_⟩
  have hlt : n / g.blockSize < t.usage.length := by
    rw [hfilled.usage_length]
    exact g.block_lt (by omega)
  have husage := List.getElem?_eq_getElem hlt
  have hle : n / g.blockSize * g.blockSize ≤ n := g.block_le.mp le_rfl
  change t.usage[n / g.blockSize]? = some true
  rw [husage, hfilled.used _ _ husage, decide_eq_true (by omega)]

theorem keepsLiveData_one {ns : List ℕ} (hcap : ns.sum ≤ g.blockSize * g.blocksCount) :
    KeepsLiveData g 1 ns := by
  intro i _
  have htake : (ns.take i).sum ≤ ns.sum := by
    conv_rhs => rw [← List.take_append_drop i ns, List.sum_append]
    exact Nat.le_add_right _ _
  have hstart : (g.start 1).tokens = 0 := rfl
  obtain ⟨r, hrun, hstored, htokens⟩ := (start_stored g).steps
    (show (g.start 1).tokens + (ns.take i).sum ≤ g.blockSize * g.blocksCount by omega)
  rw [hstart, Nat.zero_add] at htokens
  refine ⟨r, hrun, hstored.noOverwrite, hstored.writtenUsed (by omega), ?_⟩
  rw [hstored.cache.seqLen, htokens]

section Length
variable {l seqLen : ℕ}

/-- A turn leaves the length alone and stores no more than what remains. -/
theorem writeTurn_length {w w' : Writing} (h : writeTurn g l seqLen w = .ok w')
    (hw : w.tokensStored ≤ seqLen) :
    w'.usage.seqLen = w.usage.seqLen ∧ w'.tokensStored ≤ seqLen := by
  obtain ⟨chosen, -, h⟩ := Outcome.bind_eq_ok.mp h
  cases hb : chosen.2.blocks[chosen.1]? with
  | none =>
    rw [hb] at h
    cases h
  | some b =>
    simp only [hb] at h
    cases h
    constructor
    · rfl
    · simp only
      omega

theorem writeLoop_length {turns : ℕ} {w w' : Writing} (h : writeLoop g l seqLen turns w = .ok w')
    (hw : w.tokensStored ≤ seqLen) :
    w'.usage.seqLen = w.usage.seqLen ∧ w'.tokensStored = seqLen := by
  induction turns generalizing w with
  | zero => cases h
  | succ turns ih =>
    rw [writeLoop] at h
    split_ifs at h with hlt
    · obtain ⟨w1, hturn, h⟩ := Outcome.bind_eq_ok.mp h
      obtain ⟨hsame, hle⟩ := writeTurn_length hturn hw
      obtain ⟨hsame', hall⟩ := ih h hle
      exact ⟨hsame'.trans hsame, hall⟩
    · cases h
      exact ⟨rfl, by omega⟩

theorem writeKv_length {c : KVCache} {r : KVCache × List Copy} (h : c.writeKv g l seqLen = .ok r) :
    r.1.usage.seqLen = c.usage.seqLen + seqLen := by
  rw [KVCache.writeKv] at h
  cases ht : c.blockTables[l]? with
  | none =>
    rw [ht] at h
    cases h
  | some t =>
    rw [ht] at h
    obtain ⟨w, hloop, h⟩ := Outcome.bind_eq_ok.mp h
    cases h
    obtain ⟨hsame, hall⟩ := writeLoop_length hloop (Nat.zero_le seqLen)
    change w.usage.seqLen + w.tokensStored = _
    rw [hsame, hall]

theorem writeLayers_length {count : ℕ} {c : KVCache} {r : KVCache × List Copy}
    (h : c.writeLayers g seqLen l count = .ok r) :
    r.1.usage.seqLen = c.usage.seqLen + count * seqLen := by
  induction count generalizing l c r with
  | zero =>
    cases h
    simp
  | succ count ih =>
    obtain ⟨r1, hwrite, h⟩ := Outcome.bind_eq_ok.mp h
    obtain ⟨r2, hrest, h⟩ := Outcome.bind_eq_ok.mp h
    cases h
    rw [ih hrest, writeKv_length hwrite, Nat.add_mul]
    omega

theorem step_length {layers n : ℕ} {r r' : Run} (h : r.step g layers n = .ok r') :
    r'.cache.usage.seqLen = r.cache.usage.seqLen + layers * n := by
  obtain ⟨written, hlayers, h⟩ := Outcome.bind_eq_ok.mp h
  cases h
  exact writeLayers_length hlayers

end Length

/-- Live data is kept in every run over one layer, and in no other run that takes a step. -/
theorem keepsLiveData_iff {layers : ℕ} (hlayers : 1 ≤ layers) {ns : List ℕ}
    (hpos : ∀ n ∈ ns, 1 ≤ n) (hcap : ns.sum ≤ g.blockSize * g.blocksCount) :
    KeepsLiveData g layers ns ↔ layers = 1 ∨ ns = [] := by
  constructor
  · intro h
    cases ns with
    | nil => exact .inr rfl
    | cons n ns =>
      obtain ⟨r, hrun, -, -, hlen⟩ := h 1 (by simp)
      obtain ⟨r1, hstep, hdone⟩ := Outcome.bind_eq_ok.mp hrun
      cases hdone
      have hadd := step_length hstep
      have hn := hpos n (by simp)
      change r.cache.usage.seqLen = 0 + layers * n at hadd
      simp only [List.take_succ_cons, List.take_zero, List.sum_cons, List.sum_nil] at hlen
      rw [hlen, Nat.zero_add, Nat.add_zero] at hadd
      have hone := Nat.eq_of_mul_eq_mul_right hn ((Nat.one_mul n).trans hadd)
      exact .inl hone.symm
  · rintro (rfl | rfl)
    · exact keepsLiveData_one hcap
    · intro i _
      refine ⟨g.start layers, by rw [List.take_nil]; rfl, ?_, ?_, by rw [List.take_nil]; rfl⟩
      · intro p hp
        cases hp
      · intro p hp
        cases hp

theorem keepsLiveData_iff_fourBlocks :
    KeepsLiveData fourBlocks 1 [20, 20] ↔ 1 = 1 ∨ [20, 20] = ([] : List ℕ) :=
  keepsLiveData_iff le_rfl (by decide) (by decide)

/-- Two layers and twice twenty tokens: the second step overwrites rows of block `1` in layer `1`. -/
theorem twoLayers_overwrite : ¬KeepsLiveData fourBlocks 2 [20, 20] := by
  intro h
  obtain ⟨r, hrun, hno, -⟩ := h 2 le_rfl
  have hall : (Run.steps fourBlocks 2 [20, 20] (fourBlocks.start 2)).toOption.all
      (fun r => !decide r.NoOverwrite) = true := by decide +kernel
  change Run.steps fourBlocks 2 [20, 20] (fourBlocks.start 2) = .ok r at hrun
  rw [hrun] at hall
  simp [Except.toOption, hno] at hall

end ZInferLM.KvCache
