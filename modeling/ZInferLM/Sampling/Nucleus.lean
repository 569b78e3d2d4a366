import ZInferLM.Sampling.TopK

/-! # All parameters of a sampler

A sampler keeps the temperature and `top_k` of its parameters, but not `top_p`, and it samples only
if `top_k` is set. What it can return is compared with the indices that both limits leave over. -/

namespace ZInferLM.Sampling
open Library

variable {K : Type*} [Field K] [LinearOrder K]

/-- The shortest prefix by decreasing probability whose probabilities sum to `p`. -/
def nucleus (p : K) (probs : List K) : Set ℕ :=
  {i | ∃ q N, probs[i]? = some q ∧ IsLeast {N | p ≤ ((sortDesc probs).take N).sum} N ∧
    rank q probs < N}

/-- The indices that the parameters leave over, the probabilities being those of the logits divided
by the temperature. -/
def admitted (params : SamplerParams K) (logits probs : List K) : Set ℕ :=
  {i | (params.topK = 0 ∨ i ∈ survivors params.topK logits) ∧ i ∈ nucleus params.topP probs}

def Sampler.support (s : Sampler K) (w : Weight K) (logits : List K) : Set ℕ :=
  {i | (draws (fun r => s.sample w r logits) i).Nonempty}

/-- The limits that are not applied would not change anything: without `top_k` one probability
reaches `top_p`, and with it the ones before the last that is kept do not. -/
def Harmless (params : SamplerParams K) (probs : List K) : Prop :=
  params.topK = 0 ∧ (∃ q ∈ probs, params.topP ≤ q) ∨
    0 < params.topK ∧
      ((sortDesc probs).take (min params.topK probs.length - 1)).sum < params.topP

variable {w : Weight K} {logits : List K} {p : K} {k i : ℕ} {g : K → K}

theorem survivors_map (hg : StrictMono g) (k : ℕ) (logits : List K) :
    survivors k (logits.map g) = survivors k logits := by
  ext i
  rw [mem_survivors, mem_survivors, List.getElem?_map]
  cases logits[i]? with
  | none => simp
  | some l => simp [rank_map hg]

omit [Field K] in
theorem greedy_eq (hne : logits ≠ []) : ∃ i x, greedy logits = .ok (i, x) ∧
    logits[i]? = some x ∧ ∀ y ∈ logits, y ≤ x := by
  obtain ⟨i, x, hmax, hget, hle⟩ := maxElement_spec hne
  exact ⟨i, x, by rw [greedy, hmax], hget, hle⟩

variable [IsStrictOrderedRing K]

/-- An index is in the nucleus if and only if the larger probabilities do not reach `p`. -/
theorem mem_nucleus {probs : List K} (hnonneg : ∀ q ∈ probs, 0 ≤ q) (hp : p ≤ probs.sum) :
    i ∈ nucleus p probs ↔
      ∃ q, probs[i]? = some q ∧ ((sortDesc probs).take (rank q probs)).sum < p := by
  have hsorted : ∀ q ∈ sortDesc probs, 0 ≤ q := fun q hq =>
    hnonneg q ((sortDesc_perm probs).mem_iff.mp hq)
  constructor
  · rintro ⟨q, N, hget, hleast, hrank⟩
    refine ⟨q, hget, not_le.mp fun hreach => ?_⟩
    exact absurd (hleast.2 hreach) (not_le.mpr hrank)
  · rintro ⟨q, hget, hlt⟩
    have hreached : ∃ N, p ≤ ((sortDesc probs).take N).sum := by
      refine ⟨(sortDesc probs).length, ?_⟩
      rwa [List.take_length, (sortDesc_perm probs).sum_eq]
    classical
    refine ⟨q, Nat.find hreached, hget, ⟨Nat.find_spec hreached, fun N hN => Nat.find_min' _ hN⟩, ?_⟩
    by_contra hge
    have hmono := sum_take_mono hsorted (not_lt.mp hge)
    exact absurd (Nat.find_spec hreached) (not_le.mpr (hmono.trans_lt hlt))

theorem mem_nucleus_map (hg : StrictMono g) (hpos : ∀ l, 0 ≤ g l) (hp : p ≤ (logits.map g).sum) :
    i ∈ nucleus p (logits.map g) ↔ ∃ l, logits[i]? = some l ∧
      ((sortDesc (logits.map g)).take (rank l logits)).sum < p := by
  have hnonneg : ∀ q ∈ logits.map g, 0 ≤ q := by
    rw [List.forall_mem_map]
    exact fun l _ => hpos l
  rw [mem_nucleus hnonneg hp, List.getElem?_map]
  cases logits[i]? with
  | none => simp
  | some l => simp [rank_map hg]

theorem sum_take_sortDesc_mono (logits : List K) (hpos : ∀ l, 0 ≤ g l) {N N' : ℕ} (h : N ≤ N') :
    ((sortDesc (logits.map g)).take N).sum ≤ ((sortDesc (logits.map g)).take N').sum := by
  apply sum_take_mono _ h
  intro q hq
  obtain ⟨l, -, rfl⟩ := List.mem_map.mp ((sortDesc_perm _).mem_iff.mp hq)
  exact hpos l

/-- All survivors lie in the nucleus if and only if the last one does. -/
theorem survivors_subset_nucleus (hg : StrictMono g) (hpos : ∀ l, 0 ≤ g l)
    (hp : p ≤ (logits.map g).sum) (hd : logits.Nodup) (hne : logits ≠ []) (hk : 1 ≤ k) :
    (∀ i ∈ survivors k logits, i ∈ nucleus p (logits.map g)) ↔
      ((sortDesc (logits.map g)).take (min k logits.length - 1)).sum < p := by
  have hlen : 0 < logits.length := List.length_pos_iff.mpr hne
  constructor
  · intro hall
    obtain ⟨i, l, hget, hrank⟩ := exists_rank hd (show min k logits.length - 1 < logits.length by omega)
    have hi : i ∈ survivors k logits := mem_survivors.mpr ⟨l, hget, by omega⟩
    obtain ⟨l', hget', hsum⟩ := (mem_nucleus_map hg hpos hp).mp (hall i hi)
    cases hget.symm.trans hget'
    rwa [hrank] at hsum
  · intro hlast i hi
    obtain ⟨l, hget, hrank⟩ := mem_survivors.mp hi
    have hlt := rank_lt_length (List.mem_of_getElem? hget)
    refine (mem_nucleus_map hg hpos hp).mpr ⟨l, hget, ?_⟩
    exact (sum_take_sortDesc_mono logits hpos (by omega)).trans_lt hlast

/-- The nucleus is a single index if and only if one probability reaches `p`. -/
theorem nucleus_subset_survivors (hg : StrictMono g) (hpos : ∀ l, 0 ≤ g l) (hp : p < 1)
    (hsum : (logits.map g).sum = 1) (hd : logits.Nodup) :
    (∀ i ∈ nucleus p (logits.map g), i ∈ survivors 1 logits) ↔ ∃ q ∈ logits.map g, p ≤ q := by
  have hfirst {q : K} (hq : q ∈ logits.map g) : q ≤ ((sortDesc (logits.map g)).take 1).sum := by
    obtain ⟨j, hj⟩ := List.mem_iff_getElem?.mp ((sortDesc_perm _).mem_iff.mpr hq)
    have hpair := pairwise_sortDesc (logits.map g)
    cases hs : sortDesc (logits.map g) with
    | nil => rw [hs] at hj; cases hj
    | cons q₀ rest =>
      rw [hs] at hj hpair
      rw [List.take_succ_cons, List.take_zero, List.sum_singleton]
      cases j with
      | zero => exact (Option.some.inj hj).ge
      | succ j => exact (List.pairwise_cons.mp hpair).1 q (List.mem_of_getElem? hj)
  constructor
  · intro hall
    by_contra hnone
    push Not at hnone
    have hone : ((sortDesc (logits.map g)).take 1).sum < p := by
      cases hs : sortDesc (logits.map g) with
      | nil =>
        rw [← (sortDesc_perm _).sum_eq, hs, List.sum_nil] at hsum
        exact absurd hsum zero_ne_one
      | cons q₀ rest =>
        rw [List.take_succ_cons, List.take_zero, List.sum_singleton]
        exact hnone q₀ ((sortDesc_perm _).mem_iff.mp (hs ▸ List.mem_cons_self))
    have hlen : 1 < logits.length := by
      by_contra hshort
      have htake : (sortDesc (logits.map g)).take 1 = sortDesc (logits.map g) := by
        apply List.take_of_length_le
        rw [length_sortDesc, List.length_map]
        omega
      rw [htake, (sortDesc_perm _).sum_eq, hsum] at hone
      exact absurd hone hp.not_gt
    obtain ⟨i, l, hget, hrank⟩ := exists_rank hd hlen
    have hi : i ∈ nucleus p (logits.map g) := by
      refine (mem_nucleus_map hg hpos (hsum ▸ hp.le)).mpr ⟨l, hget, ?_⟩
      rwa [hrank]
    obtain ⟨l', hget', hrank'⟩ := mem_survivors.mp (hall i hi)
    cases hget.symm.trans hget'
    omega
  · rintro ⟨q, hq, hpq⟩ i hi
    obtain ⟨l, hget, hlt⟩ := (mem_nucleus_map hg hpos (hsum ▸ hp.le)).mp hi
    refine mem_survivors.mpr ⟨l, hget, ?_⟩
    by_contra hrank
    have hmono := sum_take_sortDesc_mono logits hpos (not_lt.mp hrank)
    exact absurd hlt (not_lt.mpr ((hpq.trans (hfirst hq)).trans hmono))

/-- Every index that survives is drawn, and no other. -/
theorem topKSample_support (w : Weight K) (hne : logits ≠ []) (hk : 1 ≤ k) (i : ℕ) :
    (draws (fun r => topKSample w k r logits) i).Nonempty ↔ i ∈ survivors k logits := by
  obtain ⟨_, m, -, hget, hle⟩ := maxElement_spec hne
  have hm := List.mem_of_getElem? hget
  have hcdf := topKSample_draws (w := w) hk hm hle
  constructor
  · rintro ⟨r, hr, x, hdraw⟩
    obtain ⟨j, hj, -, y, hdraw'⟩ := hcdf.covers r hr
    cases hdraw.symm.trans hdraw'
    exact hj
  · intro hi
    have hpos : 0 < (keptProbs w m k logits).getD i 0 := by
      rw [← positives_keptProbs (w := w) hk hm hle] at hi
      exact (Finset.mem_filter.mp hi).2
    exact (Set.nonempty_Ioo.mpr (lt_add_of_pos_right _ hpos)).mono (hcdf.inside i hi)

/-- Among distinct logits the greedy choice is the survivor of `top_k = 1`. -/
theorem greedy_support (hne : logits ≠ []) (hd : logits.Nodup) (i : ℕ) :
    (draws (fun _ => greedy logits) i).Nonempty ↔ i ∈ survivors 1 logits := by
  obtain ⟨j, m, hgreedy, hget, hle⟩ := greedy_eq hne
  rw [mem_survivors]
  constructor
  · rintro ⟨r, -, x, hdraw⟩
    cases hgreedy.symm.trans hdraw
    exact ⟨m, hget, by rw [rank_eq_zero hle]; exact Nat.one_pos⟩
  · rintro ⟨l, hl, hrank⟩
    have hmem := List.mem_of_getElem? hget
    have hlm : l = m := by
      rcases (hle l (List.mem_of_getElem? hl)).lt_or_eq with hlt | heq
      · have hrank' := rank_lt_rank hmem hlt
        omega
      · exact heq
    have hij : i = j := by
      apply (List.getElem?_inj (List.getElem?_eq_some_iff.mp hl).1 hd).mp
      rw [hl, hget, hlm]
    exact ⟨0, Set.left_mem_Ico.mpr one_pos, m, hij ▸ hgreedy⟩

theorem Sampler.support_eq {params : SamplerParams K} (w : Weight K)
    (htemp : 0 < params.temperature) (hne : logits ≠ []) (hd : logits.Nodup) :
    (Sampler.ofParams params).support w logits = survivors (max params.topK 1) logits := by
  have hscale : StrictMono (· / params.temperature) := fun x y h => div_lt_div_of_pos_right h htemp
  have hne' : logits.map (· / params.temperature) ≠ [] := mt List.map_eq_nil_iff.mp hne
  have hscaled : (Sampler.ofParams params).scaled logits = logits.map (· / params.temperature) :=
    if_pos htemp
  ext i
  rw [Finset.mem_coe, ← survivors_map hscale]
  by_cases hk : 0 < params.topK
  · have hsample : (fun r => (Sampler.ofParams params).sample w r logits) =
        fun r => topKSample w params.topK r (logits.map (· / params.temperature)) := by
      funext r
      rw [Sampler.sample, if_neg hne, hscaled]
      exact if_pos hk
    rw [max_eq_left hk, ← topKSample_support w hne' hk, ← hsample]
    rfl
  · have hsample : (fun r => (Sampler.ofParams params).sample w r logits) =
        fun _ => greedy (logits.map (· / params.temperature)) := by
      funext r
      rw [Sampler.sample, if_neg hne, hscaled]
      exact if_neg hk
    rw [max_eq_right (by omega), ← greedy_support hne' (hd.map hscale.injective), ← hsample]
    rfl

def scaledWeight (w : Weight K) (temperature m l : K) : K := w.exp (l / temperature - m / temperature)

def scaledProb (w : Weight K) (temperature m : K) (logits : List K) (l : K) : K :=
  scaledWeight w temperature m l / (logits.map (scaledWeight w temperature m)).sum

variable {temperature m : K}

theorem sum_scaledWeight_pos (hne : logits ≠ []) :
    0 < (logits.map (scaledWeight w temperature m)).sum := by
  apply List.sum_pos
  · rw [List.forall_mem_map]
    exact fun l _ => w.exp_pos _
  · exact mt List.map_eq_nil_iff.mp hne

theorem scaledProb_nonneg (hne : logits ≠ []) (l : K) : 0 ≤ scaledProb w temperature m logits l :=
  div_nonneg (w.exp_pos _).le (sum_scaledWeight_pos hne).le

theorem scaledProb_strictMono (hw : StrictMono w.exp) (htemp : 0 < temperature) (hne : logits ≠ []) :
    StrictMono (scaledProb w temperature m logits) := by
  intro x y h
  apply div_lt_div_of_pos_right _ (sum_scaledWeight_pos hne)
  exact hw (sub_lt_sub_right (div_lt_div_of_pos_right h htemp) _)

theorem sum_scaledProb (hne : logits ≠ []) :
    (logits.map (scaledProb w temperature m logits)).sum = 1 := by
  have hdiv (Z : K) : (logits.map fun l => scaledWeight w temperature m l / Z).sum =
      (logits.map (scaledWeight w temperature m)).sum / Z := by
    simp only [div_eq_mul_inv _ Z, List.sum_map_mul_right]
  unfold scaledProb
  rw [hdiv, div_self (sum_scaledWeight_pos hne).ne']

theorem softmax_scaled (htemp : 0 < temperature) (hm : m ∈ logits) (hle : ∀ l ∈ logits, l ≤ m) :
    softmax w ((logits.map (· / temperature)).map WithBot.some) =
      .ok (logits.map (scaledProb w temperature m logits)) := by
  have hm' : m / temperature ∈ logits.map (· / temperature) := List.mem_map_of_mem hm
  have hle' : ∀ l ∈ logits.map (· / temperature), l ≤ m / temperature := by
    rw [List.forall_mem_map]
    exact fun l hl => div_le_div_of_nonneg_right (hle l hl) htemp.le
  rw [softmax_coe hm' hle']
  simp only [List.map_map]
  rfl

theorem Sampler.support_eq_admitted_map {params : SamplerParams K} (w : Weight K)
    (hg : StrictMono g) (hpos : ∀ l, 0 ≤ g l) (hsum : (logits.map g).sum = 1)
    (htemp : 0 < params.temperature) (hp : 0 < params.topP) (hp' : params.topP < 1)
    (hne : logits ≠ []) (hd : logits.Nodup) :
    (Sampler.ofParams params).support w logits = admitted params logits (logits.map g) ↔
      Harmless params (logits.map g) := by
  have hreach : params.topP ≤ (logits.map g).sum := hsum ▸ hp'.le
  rw [Sampler.support_eq w htemp hne hd, Harmless, List.length_map]
  by_cases hk : params.topK = 0
  · -- one index is returned, and it lies in the nucleus
    have hinside := (survivors_subset_nucleus (k := 1) hg hpos hreach hd hne le_rfl).mpr (by
      rw [Nat.sub_eq_zero_of_le (min_le_left _ _), List.take_zero, List.sum_nil]
      exact hp)
    rw [max_eq_right (by omega)]
    simp only [hk, true_and, lt_irrefl, false_and, or_false]
    rw [← nucleus_subset_survivors hg hpos hp' hsum hd, Set.ext_iff]
    simp only [admitted, hk, true_or, true_and, Set.ofPred_mem_eq, Finset.mem_coe]
    exact ⟨fun h i hi => (h i).mpr hi, fun h i => ⟨hinside i, h i⟩⟩
  · have hk' : 1 ≤ params.topK := by omega
    rw [max_eq_left hk']
    simp only [hk, false_and, false_or, show 0 < params.topK from hk', true_and]
    rw [← survivors_subset_nucleus hg hpos hreach hd hne hk', Set.ext_iff]
    simp only [admitted, hk, false_or, Set.mem_ofPred_eq, Finset.mem_coe]
    exact ⟨fun h i hi => ((h i).mp hi).2, fun h i => ⟨fun hi => ⟨hi, h i hi⟩, fun hi => hi.1⟩⟩

/-- The limits are honoured together exactly when the ones that are not applied do no harm. -/
theorem Sampler.support_eq_admitted_iff (params : SamplerParams K) (logits : List K)
    (hw : StrictMono w.exp) (htemp : 0 < params.temperature) (hp : 0 < params.topP)
    (hp' : params.topP < 1) (hne : logits ≠ []) (hd : logits.Nodup) : ∃ probs,
      softmax w ((logits.map (· / params.temperature)).map WithBot.some) = .ok probs ∧
        ((Sampler.ofParams params).support w logits = admitted params logits probs ↔
          Harmless params probs) := by
  obtain ⟨_, m, -, hget, hle⟩ := maxElement_spec hne
  refine ⟨_, softmax_scaled htemp (List.mem_of_getElem? hget) hle, ?_⟩
  exact Sampler.support_eq_admitted_map w (scaledProb_strictMono hw htemp hne)
    (scaledProb_nonneg hne) (sum_scaledProb hne) htemp hp hp' hne hd

theorem Sampler.support_eq_admitted_iff_pair : ∃ probs,
    softmax expWeight ((([1, 0] : List ℝ).map (· / 2)).map WithBot.some) = .ok probs ∧
      ((Sampler.ofParams ⟨2, 1, 1 / 2⟩).support expWeight [1, 0] =
        admitted ⟨2, 1, 1 / 2⟩ [1, 0] probs ↔ Harmless ⟨2, 1, 1 / 2⟩ probs) :=
  Sampler.support_eq_admitted_iff ⟨2, 1, 1 / 2⟩ [1, 0] Real.exp_strictMono (by norm_num)
    (by norm_num) (by norm_num) (List.cons_ne_nil _ _) (by norm_num)

/-- Without `top_k` the second logit has more than three tenths and is never returned. -/
theorem Sampler.support_ne_admitted : ∃ probs,
    softmax expWeight ((([9 / 20, 0] : List ℝ).map (· / (9 / 10))).map WithBot.some) = .ok probs ∧
      (Sampler.ofParams ⟨9 / 10, 0, 7 / 10⟩).support expWeight [9 / 20, 0] ≠
        admitted ⟨9 / 10, 0, 7 / 10⟩ [9 / 20, 0] probs := by
  have hne : ([9 / 20, 0] : List ℝ) ≠ [] := List.cons_ne_nil _ _
  have hmono : StrictMono (scaledProb expWeight (9 / 10 : ℝ) (9 / 20) [9 / 20, 0]) :=
    scaledProb_strictMono Real.exp_strictMono (by norm_num) hne
  refine ⟨_, softmax_scaled (m := 9 / 20) (by norm_num) List.mem_cons_self (by norm_num), ?_⟩
  rw [Ne, Sampler.support_eq_admitted_map expWeight hmono (scaledProb_nonneg hne)
    (sum_scaledProb hne) (by norm_num) (by norm_num) (by norm_num) hne (by norm_num)]
  -- the larger probability is `1 / (1 + exp (-1/2))`, which is less than two thirds
  have hfirst : scaledProb expWeight (9 / 10 : ℝ) (9 / 20) [9 / 20, 0] (9 / 20) < 7 / 10 := by
    have hexp : (-1 / 2 : ℝ) + 1 ≤ Real.exp (-1 / 2) := Real.add_one_le_exp _
    have hzero : (0 : ℝ) / (9 / 10) - 9 / 20 / (9 / 10) = -1 / 2 := by norm_num
    simp only [scaledProb, scaledWeight, expWeight, List.map_cons, List.map_nil, List.sum_cons,
      List.sum_nil, sub_self, Real.exp_zero, hzero]
    rw [div_lt_iff₀ (by linarith)]
    linarith
  have hsecond := hmono (show (0 : ℝ) < 9 / 20 by norm_num)
  rintro (⟨-, q, hq, hreach⟩ | ⟨hpos, -⟩)
  · simp only [List.map_cons, List.map_nil, List.mem_cons, List.not_mem_nil, or_false] at hq
    rcases hq with rfl | rfl
    · exact absurd hreach (not_le.mpr hfirst)
    · exact absurd hreach (not_le.mpr (hsecond.trans hfirst))
  · exact absurd hpos (lt_irrefl 0)

end ZInferLM.Sampling
