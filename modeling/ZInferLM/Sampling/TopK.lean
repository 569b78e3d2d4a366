import ZInferLM.Sampling.Samplers

/-! # Sampling among the largest logits

`top_k_sample_` masks what is below the threshold, so that the softmax is renormalised over the
logits that fewer than `top_k` others exceed, and scans the probabilities for the draw. -/

namespace ZInferLM.Sampling
open Library

section Order
variable {α : Type*} [LinearOrder α] {xs : List α}

theorem maxElementLoop_spec (xs : List α) (i : ℕ) (best : ℕ × α) :
    best.2 ≤ (maxElementLoop i best xs).2 ∧ (∀ y ∈ xs, y ≤ (maxElementLoop i best xs).2) ∧
      (maxElementLoop i best xs = best ∨ ∃ j, (maxElementLoop i best xs).1 = i + j ∧
        xs[j]? = some (maxElementLoop i best xs).2) := by
  induction xs generalizing i best with
  | nil => exact ⟨le_refl _, fun y hy => absurd hy List.not_mem_nil, .inl rfl⟩
  | cons x xs ih =>
    rw [maxElementLoop, List.forall_mem_cons]
    by_cases hx : best.2 < x
    · rw [if_pos hx]
      obtain ⟨hbest, hall, hwhere⟩ := ih (i + 1) (i, x)
      refine ⟨hx.le.trans hbest, ⟨hbest, hall⟩, .inr ?_⟩
      rcases hwhere with heq | ⟨j, hj, hget⟩
      · exact ⟨0, by rw [heq, Nat.add_zero], by rw [heq]; rfl⟩
      · exact ⟨j + 1, by omega, hget⟩
    · rw [if_neg hx]
      obtain ⟨hbest, hall, hwhere⟩ := ih (i + 1) best
      refine ⟨hbest, ⟨(not_lt.mp hx).trans hbest, hall⟩, ?_⟩
      rcases hwhere with heq | ⟨j, hj, hget⟩
      · exact .inl heq
      · exact .inr ⟨j + 1, by omega, hget⟩

/-- The element that is found is an upper bound and stands at its index. -/
theorem maxElement_spec (hne : xs ≠ []) : ∃ i x, maxElement xs = some (i, x) ∧
    xs[i]? = some x ∧ ∀ y ∈ xs, y ≤ x := by
  cases xs with
  | nil => exact absurd rfl hne
  | cons x xs =>
    obtain ⟨hbest, hall, hwhere⟩ := maxElementLoop_spec xs 1 (0, x)
    refine ⟨_, _, rfl, ?_, List.forall_mem_cons.mpr ⟨hbest, hall⟩⟩
    rcases hwhere with heq | ⟨j, hj, hget⟩
    · rw [heq]
      rfl
    · rw [hj, Nat.add_comm, List.getElem?_cons_succ, hget]

end Order

variable {K : Type*} [Field K] [LinearOrder K] {w : Weight K} {logits : List K} {topK : ℕ}

theorem softmax_eq {ls : List (WithBot K)} {m : K} (hm : (m : WithBot K) ∈ ls)
    (hle : ∀ l ∈ ls, l ≤ m) : softmax w ls = .ok ((ls.map fun l => w.expLogit (l.map (· - m))).map
      (· / (ls.map fun l => w.expLogit (l.map (· - m))).sum)) := by
  obtain ⟨i, x, hmax, hget, hall⟩ := maxElement_spec (List.ne_nil_of_mem hm)
  have hx : x = m := le_antisymm (hle x (List.mem_of_getElem? hget)) (hall m hm)
  rw [softmax, hmax, hx]

/-- The indices that fewer than `top_k` larger logits compete with. -/
def survivors (topK : ℕ) (logits : List K) : Finset ℕ :=
  {i ∈ Finset.range logits.length | rank (logits.getD i 0) logits < topK}

/-- The probability of an index among the indices of a set. -/
def renormalised (S : Finset ℕ) (probs : List K) (i : ℕ) : K :=
  probs.getD i 0 / ∑ j ∈ S, probs.getD j 0

theorem mem_survivors {i : ℕ} : i ∈ survivors topK logits ↔
    ∃ l, logits[i]? = some l ∧ rank l logits < topK := by
  rw [survivors, Finset.mem_filter, Finset.mem_range, List.getD_eq_getElem?_getD]
  constructor
  · rintro ⟨hlt, hrank⟩
    rw [List.getElem?_eq_getElem hlt] at hrank ⊢
    exact ⟨_, rfl, hrank⟩
  · rintro ⟨l, hget, hrank⟩
    rw [hget]
    exact ⟨(List.getElem?_eq_some_iff.mp hget).1, hrank⟩

/-- The weight of a logit that is not masked, `m` being the largest one. -/
def kept (w : Weight K) (m : K) (topK : ℕ) (logits : List K) (l : K) : K :=
  if rank l logits < topK then w.exp (l - m) else 0

def keptSum (w : Weight K) (m : K) (topK : ℕ) (logits : List K) : K :=
  (logits.map (kept w m topK logits)).sum

def keptProbs (w : Weight K) (m : K) (topK : ℕ) (logits : List K) : List K :=
  logits.map fun l => kept w m topK logits l / keptSum w m topK logits

theorem getElem?_keptProbs {m : K} {i : ℕ} {l : K} (hl : logits[i]? = some l) :
    (keptProbs w m topK logits)[i]? =
      some (kept w m topK logits l / keptSum w m topK logits) := by
  rw [keptProbs, List.getElem?_map, hl, Option.map_some]

theorem kept_nonneg (w : Weight K) (m : K) (topK : ℕ) (logits : List K) (l : K) :
    0 ≤ kept w m topK logits l := by
  rw [kept]
  split_ifs
  · exact (w.exp_pos _).le
  · exact le_refl 0

/-- The threshold masks the logits that `top_k` others exceed. -/
theorem topKProbs_eq (hk : 1 ≤ topK) {m : K} (hm : m ∈ logits) (hle : ∀ l ∈ logits, l ≤ m) :
    topKProbs w topK logits = .ok (keptProbs w m topK logits) := by
  have hpos : 0 < logits.length := List.length_pos_of_mem hm
  obtain ⟨k, hmin⟩ := Nat.exists_eq_add_one_of_ne_zero
    (show min topK logits.length ≠ 0 by omega)
  have hlt : k < (sortDesc logits).length := by
    rw [length_sortDesc]
    omega
  have hget := List.getElem?_eq_getElem hlt
  generalize (sortDesc logits)[k] = threshold at hget
  have hmask : ∀ l ∈ logits, (l < threshold ↔ ¬ rank l logits < topK) := by
    intro l hl
    have hrank := rank_lt_length hl
    rw [lt_sortDesc_iff hget]
    omega
  have hmax : ¬ m < threshold :=
    not_lt.mpr (hle threshold ((sortDesc_perm logits).mem_iff.mp (List.mem_of_getElem? hget)))
  have hfinite : (m : WithBot K) ∈ logits.map fun l => if l < threshold then ⊥ else (l : WithBot K) := by
    rw [List.mem_map]
    exact ⟨m, hm, if_neg hmax⟩
  have hbelow : ∀ l ∈ logits.map fun l => if l < threshold then ⊥ else (l : WithBot K), l ≤ m := by
    rw [List.forall_mem_map]
    intro l hl
    split_ifs
    · exact bot_le
    · exact WithBot.coe_le_coe.mpr (hle l hl)
  have hweights : (logits.map fun l => if l < threshold then ⊥ else (l : WithBot K)).map
      (fun l => w.expLogit (l.map (· - m))) = logits.map (kept w m topK logits) := by
    rw [List.map_map]
    apply List.map_congr_left
    intro l hl
    rw [Function.comp_apply, kept]
    by_cases hrank : rank l logits < topK
    · rw [if_pos hrank, if_neg fun hlt => (hmask l hl).mp hlt hrank]
      rfl
    · rw [if_neg hrank, if_pos ((hmask l hl).mpr hrank)]
      rfl
  rw [topKProbs, hmin]
  simp only [partialSort, hget]
  rw [softmax_eq hfinite hbelow, hweights, List.map_map]
  rfl

theorem softmax_coe {m : K} (hm : m ∈ logits) (hle : ∀ l ∈ logits, l ≤ m) :
    softmax w (logits.map WithBot.some) = .ok (logits.map fun l =>
      w.exp (l - m) / (logits.map fun l => w.exp (l - m)).sum) := by
  have hfinite : (m : WithBot K) ∈ logits.map WithBot.some := List.mem_map_of_mem hm
  have hbelow : ∀ l ∈ logits.map WithBot.some, l ≤ m := by
    rw [List.forall_mem_map]
    exact fun l hl => WithBot.coe_le_coe.mpr (hle l hl)
  have hweights : (logits.map WithBot.some).map (fun l => w.expLogit (l.map (· - m))) =
      logits.map fun l => w.exp (l - m) := by
    rw [List.map_map]
    rfl
  rw [softmax_eq hfinite hbelow, hweights, List.map_map]
  rfl

/-- Among the survivors the probability of one is its share of the weights that are kept. -/
theorem renormalised_eq {m : K} {i : ℕ} {l : K} (hget : logits[i]? = some l)
    {Z : K} (hZ : Z ≠ 0) (hi : i ∈ survivors topK logits) :
    renormalised (survivors topK logits) (logits.map fun l => w.exp (l - m) / Z) i =
      kept w m topK logits l / keptSum w m topK logits := by
  have hsum : ∑ j ∈ survivors topK logits, (logits.map fun l => w.exp (l - m) / Z).getD j 0 =
      keptSum w m topK logits / Z := by
    have hlist := sum_take_eq (logits.map fun l => kept w m topK logits l / Z) logits.length
    rw [List.take_of_length_le (by rw [List.length_map])] at hlist
    have hquot : (logits.map fun l => kept w m topK logits l / Z).sum =
        keptSum w m topK logits / Z := by
      simp only [div_eq_mul_inv, List.sum_map_mul_right, keptSum]
    rw [← hquot, hlist, survivors, Finset.sum_filter]
    apply Finset.sum_congr rfl
    intro j hj
    have hlt := Finset.mem_range.mp hj
    have hget {f : K → K} : (logits.map f).getD j 0 = f logits[j] := by
      rw [List.getD_eq_getElem?_getD, List.getElem?_map, List.getElem?_eq_getElem hlt]
      rfl
    rw [hget, hget, List.getD_eq_getElem?_getD, List.getElem?_eq_getElem hlt, Option.getD_some, kept]
    split_ifs
    · rfl
    · rw [zero_div]
  obtain ⟨l', hget', hrank⟩ := mem_survivors.mp hi
  cases hget.symm.trans hget'
  rw [renormalised, hsum, List.getD_eq_getElem?_getD, List.getElem?_map, hget, Option.map_some,
    Option.getD_some, div_div_div_cancel_right₀ hZ, kept, if_pos hrank]

variable [IsStrictOrderedRing K]

theorem keptSum_pos (hk : 1 ≤ topK) {m : K} (hm : m ∈ logits) (hle : ∀ l ∈ logits, l ≤ m) :
    0 < keptSum w m topK logits := by
  have hkept : 0 < kept w m topK logits m := by
    rw [kept, rank_eq_zero hle, if_pos (show 0 < topK from hk)]
    exact w.exp_pos _
  refine hkept.trans_le (List.single_le_sum ?_ _ (List.mem_map_of_mem hm))
  rw [List.forall_mem_map]
  exact fun l _ => kept_nonneg w m topK logits l

theorem keptProbs_nonneg (hk : 1 ≤ topK) {m : K} (hm : m ∈ logits) (hle : ∀ l ∈ logits, l ≤ m) :
    ∀ p ∈ keptProbs w m topK logits, 0 ≤ p := by
  rw [keptProbs, List.forall_mem_map]
  exact fun l _ => div_nonneg (kept_nonneg w m topK logits l) (keptSum_pos hk hm hle).le

theorem sum_keptProbs (hk : 1 ≤ topK) {m : K} (hm : m ∈ logits) (hle : ∀ l ∈ logits, l ≤ m) :
    (keptProbs w m topK logits).sum = 1 := by
  simp only [keptProbs, div_eq_mul_inv, List.sum_map_mul_right]
  exact mul_inv_cancel₀ (keptSum_pos hk hm hle).ne'

theorem positives_keptProbs (hk : 1 ≤ topK) {m : K} (hm : m ∈ logits)
    (hle : ∀ l ∈ logits, l ≤ m) :
    positives (keptProbs w m topK logits) = survivors topK logits := by
  ext i
  rw [mem_positives, mem_survivors]
  cases hl : logits[i]? with
  | none => simp [keptProbs, hl]
  | some l =>
    simp only [getElem?_keptProbs hl, Option.some.injEq, exists_eq_left',
      div_pos_iff_of_pos_right (keptSum_pos hk hm hle), kept]
    split_ifs with hrank
    · exact iff_of_true (w.exp_pos _) hrank
    · exact iff_of_false (lt_irrefl 0) hrank

/-- The draws from `[0, 1)` for which an index is returned. -/
def draws (sample : K → Outcome (ℕ × K)) (i : ℕ) : Set K :=
  {r | r ∈ Set.Ico 0 1 ∧ ∃ p, sample r = .ok (i, p)}

theorem scan_keptProbs (hk : 1 ≤ topK) {m : K} (hm : m ∈ logits) (hle : ∀ l ∈ logits, l ≤ m)
    {r : K} (hr : r ∈ Set.Ico 0 1) : (scan r 0 0 (keptProbs w m topK logits)).isSome = true := by
  apply scan_isSome (keptProbs_nonneg hk hm hle) _ hr.1
  rw [sum_keptProbs hk hm hle, zero_add]
  exact hr.2

theorem topKSample_draws (hk : 1 ≤ topK) {m : K} (hm : m ∈ logits) (hle : ∀ l ∈ logits, l ≤ m) :
    InverseCdf (survivors topK logits) ((keptProbs w m topK logits).getD · 0)
      (draws fun r => topKSample w topK r logits) := by
  have hcdf := scan_inverseCdf (keptProbs_nonneg (w := w) hk hm hle) (sum_keptProbs hk hm hle)
  rw [positives_keptProbs hk hm hle] at hcdf
  have hsame : draws (fun r => topKSample w topK r logits) =
      fun i => {r | r ∈ Set.Ico (0 : K) 1 ∧
        ∃ p, scan r 0 0 (keptProbs w m topK logits) = some (i, p)} := by
    funext i
    ext r
    apply and_congr_right
    intro hr
    obtain ⟨found, hfound⟩ := Option.isSome_iff_exists.mp (scan_keptProbs (w := w) hk hm hle hr)
    have hdraw : topKSample w topK r logits = .ok found := by
      rw [topKSample, topKProbs_eq hk hm hle, Outcome.ok_bind, hfound]
    simp only [hdraw, hfound, Except.ok.injEq, Option.some.injEq]
  rwa [hsame]

/-- The draws of `top_k_sample_` are those of the inverse distribution function of the logits that
survive, and the return behind its loop is not reached. -/
theorem topKSample_inverseCdf (w : Weight K) (hne : logits ≠ []) (hk : 1 ≤ topK) :
    ∃ probs, softmax w (logits.map WithBot.some) = .ok probs ∧
      InverseCdf (survivors topK logits) (renormalised (survivors topK logits) probs)
        (draws fun r => topKSample w topK r logits) ∧
      ∃ scanned, topKProbs w topK logits = .ok scanned ∧
        ∀ r ∈ Set.Ico 0 1, (scan r 0 0 scanned).isSome = true := by
  obtain ⟨_, m, -, hget, hle⟩ := maxElement_spec hne
  have hm := List.mem_of_getElem? hget
  have hZ : (logits.map fun l => w.exp (l - m)).sum ≠ 0 := by
    apply ne_of_gt
    apply List.sum_pos
    · rw [List.forall_mem_map]
      exact fun l _ => w.exp_pos _
    · exact mt List.map_eq_nil_iff.mp hne
  refine ⟨_, softmax_coe hm hle, ?_, _, topKProbs_eq hk hm hle,
    fun r hr => scan_keptProbs hk hm hle hr⟩
  apply (topKSample_draws hk hm hle).congr
  intro i hi
  obtain ⟨l, hl, -⟩ := mem_survivors.mp hi
  rw [renormalised_eq hl hZ hi, List.getD_eq_getElem?_getD, getElem?_keptProbs hl,
    Option.getD_some]

theorem topKSample_inverseCdf_pair : ∃ probs,
    softmax expWeight (([1, 0] : List ℝ).map WithBot.some) = .ok probs ∧
      InverseCdf (survivors 1 ([1, 0] : List ℝ)) (renormalised (survivors 1 ([1, 0] : List ℝ)) probs)
        (draws fun r => topKSample expWeight 1 r [1, 0]) ∧
      ∃ scanned, topKProbs expWeight 1 [1, 0] = .ok scanned ∧
        ∀ r ∈ Set.Ico (0 : ℝ) 1, (scan r 0 0 scanned).isSome = true :=
  topKSample_inverseCdf expWeight (List.cons_ne_nil _ _) (Nat.le_refl 1)

end ZInferLM.Sampling
