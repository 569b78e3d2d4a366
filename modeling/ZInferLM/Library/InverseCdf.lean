import Mathlib.Tactic

/-! # Drawing an index by its probability

The probabilities are added up in the order of their indices, and a draw from `[0, 1)` belongs to
the first index whose sum reaches it. The draws of an index form an interval of the length of its
probability, and the intervals lie behind one another. -/

namespace ZInferLM.Library

variable {K : Type*} [Field K] [LinearOrder K]

/-- The scan from an index on: the first positive entry at which the sum reaches the draw. -/
def scan (rand : K) : ℕ → K → List K → Option (ℕ × K)
  | _, _, [] => none
  | i, cum, p :: ps =>
    if p ≤ 0 then scan rand (i + 1) cum ps
    else if rand ≤ cum + p then some (i, p)
    else scan rand (i + 1) (cum + p) ps

/-- Every draw has an index of the set, and the draws of an index are an interval of the length of
its probability behind those of the smaller indices. -/
structure InverseCdf (S : Finset ℕ) (prob : ℕ → K) (drawn : ℕ → Set K) : Prop where
  covers : ∀ r ∈ Set.Ico (0 : K) 1, ∃ i ∈ S, r ∈ drawn i
  ordConnected : ∀ i ∈ S, (drawn i).OrdConnected
  inside : ∀ i ∈ S, Set.Ioo (∑ j ∈ S with j < i, prob j) ((∑ j ∈ S with j < i, prob j) + prob i) ⊆
    drawn i
  within : ∀ i ∈ S, drawn i ⊆
    Set.Icc (∑ j ∈ S with j < i, prob j) ((∑ j ∈ S with j < i, prob j) + prob i)

/-- Only the probabilities of the indices in the set count. -/
theorem InverseCdf.congr {S : Finset ℕ} {prob prob' : ℕ → K} {drawn : ℕ → Set K}
    (h : InverseCdf S prob drawn) (hprob : ∀ i ∈ S, prob' i = prob i) : InverseCdf S prob' drawn := by
  have hsum (i : ℕ) : ∑ j ∈ S with j < i, prob' j = ∑ j ∈ S with j < i, prob j :=
    Finset.sum_congr rfl fun j hj => hprob j (Finset.mem_filter.mp hj).1
  refine ⟨h.covers, h.ordConnected, ?_, ?_⟩
  · intro i hi
    rw [hsum, hprob i hi]
    exact h.inside i hi
  · intro i hi
    rw [hsum, hprob i hi]
    exact h.within i hi

variable {rand cum p : K} {i : ℕ} {ps : List K}

omit [LinearOrder K] in
theorem sum_take_eq (ps : List K) (k : ℕ) :
    (ps.take k).sum = ∑ j ∈ Finset.range k, ps.getD j 0 := by
  induction k with
  | zero => simp
  | succ k ih =>
    rw [List.take_add_one, List.sum_append, ih, Finset.sum_range_succ, List.getD_eq_getElem?_getD]
    cases ps[k]? <;> simp

def positives (ps : List K) : Finset ℕ := {i ∈ Finset.range ps.length | 0 < ps.getD i 0}

theorem mem_positives : i ∈ positives ps ↔ ∃ p, ps[i]? = some p ∧ 0 < p := by
  rw [positives, Finset.mem_filter, Finset.mem_range, List.getD_eq_getElem?_getD]
  constructor
  · rintro ⟨hlt, hpos⟩
    rw [List.getElem?_eq_getElem hlt] at hpos ⊢
    exact ⟨_, rfl, hpos⟩
  · rintro ⟨p, hget, hpos⟩
    rw [hget]
    exact ⟨(List.getElem?_eq_some_iff.mp hget).1, hpos⟩

theorem sum_positives (hps : ∀ p ∈ ps, 0 ≤ p) (k : ℕ) :
    ∑ j ∈ positives ps with j < k, ps.getD j 0 = (ps.take k).sum := by
  rw [sum_take_eq]
  apply Finset.sum_subset
  · intro j hj
    exact Finset.mem_range.mpr (Finset.mem_filter.mp hj).2
  · intro j hj hnot
    rw [List.getD_eq_getElem?_getD]
    cases hget : ps[j]? with
    | none => rfl
    | some p =>
      have hp := hps p (List.mem_of_getElem? hget)
      by_contra hne
      have hmem : j ∈ positives ps := mem_positives.mpr ⟨p, hget, lt_of_le_of_ne hp (Ne.symm hne)⟩
      exact hnot (Finset.mem_filter.mpr ⟨hmem, Finset.mem_range.mp hj⟩)

variable [IsStrictOrderedRing K]

theorem sum_take_nonneg (hps : ∀ p ∈ ps, 0 ≤ p) (k : ℕ) : 0 ≤ (ps.take k).sum :=
  List.sum_nonneg fun p hp => hps p (List.mem_of_mem_take hp)

theorem sum_take_mono (hps : ∀ p ∈ ps, 0 ≤ p) {k l : ℕ} (h : k ≤ l) :
    (ps.take k).sum ≤ (ps.take l).sum := by
  obtain ⟨d, rfl⟩ := Nat.exists_eq_add_of_le h
  have hrest : 0 ≤ ((ps.drop k).take d).sum :=
    sum_take_nonneg (fun p hp => hps p (List.mem_of_mem_drop hp)) d
  rw [List.take_add, List.sum_append]
  exact le_add_of_nonneg_right hrest

theorem sum_take_le (hps : ∀ p ∈ ps, 0 ≤ p) (k : ℕ) : (ps.take k).sum ≤ ps.sum := by
  have hrest : 0 ≤ (ps.drop k).sum := List.sum_nonneg fun p hp => hps p (List.mem_of_mem_drop hp)
  rw [← List.sum_take_add_sum_drop ps k]
  exact le_add_of_nonneg_right hrest

/-- What a scan reports: a positive entry, the sum reaches the draw with it and not before it. -/
theorem scan_eq_some (hps : ∀ p ∈ ps, 0 ≤ p) {j : ℕ} :
    scan rand j cum ps = some (i, p) ↔ ∃ k, i = j + k ∧ ps[k]? = some p ∧ 0 < p ∧
      rand ≤ cum + (ps.take k).sum + p ∧
      ((ps.take k).sum = 0 ∨ cum + (ps.take k).sum < rand) := by
  induction ps generalizing j cum with
  | nil => simp [scan]
  | cons q ps ih =>
    obtain ⟨hq, hrest⟩ := List.forall_mem_cons.mp hps
    rw [← Nat.or_exists_add_one, scan]
    simp only [List.getElem?_cons_zero, List.getElem?_cons_succ, List.take_zero,
      List.sum_nil, add_zero, true_or, and_true, Option.some.injEq, List.take_succ_cons,
      List.sum_cons]
    by_cases hzero : q ≤ 0
    · have hq0 : q = 0 := le_antisymm hzero hq
      rw [if_pos hzero, ih hrest]
      constructor
      · rintro ⟨k, hi, hk⟩
        exact .inr ⟨k, by omega, by simpa [hq0] using hk⟩
      · rintro (⟨-, rfl, hpos, -⟩ | ⟨k, hi, hk⟩)
        · exact absurd hpos (not_lt.mpr hzero)
        · exact ⟨k, by omega, by simpa [hq0] using hk⟩
    · have hpos : 0 < q := not_le.mp hzero
      rw [if_neg hzero]
      by_cases hreach : rand ≤ cum + q
      · rw [if_pos hreach]
        constructor
        · intro h
          obtain ⟨rfl, rfl⟩ := Prod.mk.inj (Option.some.inj h)
          exact .inl ⟨rfl, rfl, hpos, hreach⟩
        · rintro (⟨rfl, rfl, -, -⟩ | ⟨k, -, -, -, -, hbefore⟩)
          · rfl
          · have hnonneg := sum_take_nonneg hrest k
            rcases hbefore with h | h <;> linarith
      · rw [if_neg hreach, ih hrest]
        have hlt := not_le.mp hreach
        constructor
        · rintro ⟨k, hi, hget, hp, hle, hbefore⟩
          refine .inr ⟨k, by omega, hget, hp, by linarith, .inr ?_⟩
          rcases hbefore with h | h <;> linarith
        · rintro (⟨-, rfl, -, hle⟩ | ⟨k, hi, hget, hp, hle, hbefore⟩)
          · exact absurd hle hreach
          · refine ⟨k, by omega, hget, hp, by linarith, ?_⟩
            rcases hbefore with h | h
            · have hnonneg := sum_take_nonneg hrest k
              linarith
            · exact .inr (by linarith)

theorem scan_isSome (hps : ∀ p ∈ ps, 0 ≤ p) {j : ℕ} (h : rand < cum + ps.sum) (hcum : cum ≤ rand) :
    (scan rand j cum ps).isSome = true := by
  induction ps generalizing j cum with
  | nil =>
    rw [List.sum_nil, add_zero] at h
    exact absurd hcum (not_le.mpr h)
  | cons q ps ih =>
    obtain ⟨hq, hrest⟩ := List.forall_mem_cons.mp hps
    rw [List.sum_cons] at h
    rw [scan]
    split_ifs with hzero hreach
    · exact ih hrest (by linarith) hcum
    · rfl
    · exact ih hrest (by linarith) (not_le.mp hreach).le

/-- The scan over probabilities draws the indices with a positive one. -/
theorem scan_inverseCdf (hps : ∀ p ∈ ps, 0 ≤ p) (hsum : ps.sum = 1) :
    InverseCdf (positives ps) (ps.getD · 0)
      fun i => {r | r ∈ Set.Ico (0 : K) 1 ∧ ∃ p, scan r 0 0 ps = some (i, p)} := by
  have hdrawn {i : ℕ} {p r : K} (hget : ps[i]? = some p) (hpos : 0 < p) :
      (∃ p, scan r 0 0 ps = some (i, p)) ↔ r ≤ (ps.take i).sum + p ∧
        ((ps.take i).sum = 0 ∨ (ps.take i).sum < r) := by
    constructor
    · rintro ⟨q, hscan⟩
      obtain ⟨k, hk, hgetk, -, hle, hbefore⟩ := (scan_eq_some hps).mp hscan
      rw [Nat.zero_add] at hk
      rw [← hk, hget] at hgetk
      cases hgetk
      rw [zero_add, ← hk] at hle hbefore
      exact ⟨hle, hbefore⟩
    · rintro ⟨hle, hbefore⟩
      refine ⟨p, (scan_eq_some hps).mpr ⟨i, (Nat.zero_add i).symm, hget, hpos, ?_, ?_⟩⟩
      · rwa [zero_add]
      · rwa [zero_add]
  have hend {i : ℕ} {p : K} (hget : ps[i]? = some p) : (ps.take i).sum + p ≤ 1 := by
    rw [← hsum]
    have hle := sum_take_le hps (i + 1)
    rwa [List.take_add_one, hget, List.sum_append, Option.toList_some, List.sum_singleton] at hle
  constructor
  · intro r hr
    have hlt : r < 0 + ps.sum := by rw [hsum, zero_add]; exact hr.2
    obtain ⟨⟨i, p⟩, hscan⟩ := Option.isSome_iff_exists.mp (scan_isSome hps hlt hr.1)
    obtain ⟨k, hk, hget, hpos, -⟩ := (scan_eq_some hps).mp hscan
    rw [Nat.zero_add] at hk
    exact ⟨i, mem_positives.mpr ⟨p, hk ▸ hget, hpos⟩, hr, p, hscan⟩
  · intro i hi
    obtain ⟨p, hget, hpos⟩ := mem_positives.mp hi
    refine ⟨fun x hx y hy z hz => ?_⟩
    obtain ⟨hx0, hx⟩ := hx
    obtain ⟨hy1, hy⟩ := hy
    rw [hdrawn hget hpos] at hx hy
    refine ⟨⟨hx0.1.trans hz.1, hz.2.trans_lt hy1.2⟩, (hdrawn hget hpos).mpr ?_⟩
    exact ⟨hz.2.trans hy.1, hx.2.imp_right fun h => h.trans_le hz.1⟩
  · intro i hi r hr
    obtain ⟨p, hget, hpos⟩ := mem_positives.mp hi
    rw [sum_positives hps, List.getD_eq_getElem?_getD, hget, Option.getD_some] at hr
    have hnonneg := sum_take_nonneg hps i
    refine ⟨⟨hnonneg.trans hr.1.le, hr.2.trans_le (hend hget)⟩, (hdrawn hget hpos).mpr ?_⟩
    exact ⟨hr.2.le, .inr hr.1⟩
  · rintro i hi r ⟨hr0, hr⟩
    obtain ⟨p, hget, hpos⟩ := mem_positives.mp hi
    rw [hdrawn hget hpos] at hr
    rw [sum_positives hps, List.getD_eq_getElem?_getD, hget, Option.getD_some]
    refine ⟨?_, hr.1⟩
    rcases hr.2 with h | h
    · rw [h]
      exact hr0.1
    · exact h.le

end ZInferLM.Library
