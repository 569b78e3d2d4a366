import ZInferLM.Inference.Forward
import ZInferLM.Sampling.TopK
import ZInferLM.Tokenizer.History

/-! # The range of the tokens

The embedding has a row for every token, and nobody checks that a token has a row. The tokens of a
prompt come from the vocabulary, those that are sampled are indices of logits, and where something is
missing both are `0`. Tokens are numbers here; `int32_t` keeps those below `2 ^ 31`. -/

namespace ZInferLM
open Library Library.Machine Library.Utf8 KvCache Sampling Tokenizer

namespace Sampling

variable {K : Type*} [Field K] [LinearOrder K] {w : Weight K} {logits : List K} {i : ℕ} {p : K}

theorem scan_lt {rand cum : K} {j : ℕ} {ps : List K} (h : scan rand j cum ps = some (i, p)) :
    i < j + ps.length := by
  induction ps generalizing j cum with
  | nil => cases h
  | cons q ps ih =>
    rw [scan] at h
    rw [List.length_cons]
    split_ifs at h
    · have hlt := ih h
      omega
    · cases h
      omega
    · have hlt := ih h
      omega

theorem length_softmax {ls : List (WithBot K)} {probs : List K} (h : softmax w ls = .ok probs) :
    probs.length = ls.length := by
  rw [softmax] at h
  split at h
  · cases h
  · cases h
  · cases h
    simp

theorem length_topKProbs {topK : ℕ} {probs : List K} (h : topKProbs w topK logits = .ok probs) :
    probs.length = logits.length := by
  rw [topKProbs] at h
  split at h
  · cases h
  · split at h
    · cases h
    · rw [length_softmax h, List.length_map]

theorem topKSample_lt {topK : ℕ} {rand : K} (hne : logits ≠ [])
    (h : topKSample w topK rand logits = .ok (i, p)) : i < logits.length := by
  obtain ⟨probs, hprobs, hscan⟩ := Outcome.bind_eq_ok.mp h
  split at hscan
  · rename_i found hfound
    cases hscan
    have hlt := scan_lt hfound
    rwa [Nat.zero_add, length_topKProbs hprobs] at hlt
  · cases hscan
    have hpos := List.length_pos_of_ne_nil hne
    omega

omit [Field K] in
theorem greedy_lt (h : greedy logits = .ok (i, p)) : i < logits.length := by
  by_cases hne : logits = []
  · rw [hne] at h
    cases h
  · obtain ⟨j, x, hmax, hget, -⟩ := maxElement_spec hne
    rw [greedy, hmax] at h
    cases h
    exact (List.getElem?_eq_some_iff.mp hget).1

theorem Sampler.length_scaled (s : Sampler K) (logits : List K) :
    (s.scaled logits).length = logits.length := by
  rw [Sampler.scaled]
  split_ifs
  · exact List.length_map _
  · rfl

/-- A sampler picks the index of a logit, or `0` when there is none. -/
theorem Sampler.sample_lt {s : Sampler K} {rand : K} {n : ℕ} (hpos : 0 < n)
    (hlogits : logits.length ≤ n) (h : s.sample w rand logits = .ok (i, p)) : i < n := by
  rw [Sampler.sample] at h
  split_ifs at h with hnil htop
  · cases h
    exact hpos
  · have hne : s.scaled logits ≠ [] := by
      rw [← List.length_pos_iff, s.length_scaled, List.length_pos_iff]
      exact hnil
    have hlt := topKSample_lt hne h
    rw [s.length_scaled] at hlt
    omega
  · have hlt := greedy_lt h
    rw [s.length_scaled] at hlt
    omega

end Sampling

namespace Tokenizer

variable {info : TokenizerInfo} {t t' : TokenizerImpl} {m : Pcre2} {fuel n : ℕ} {text : Bytes}
  {ids : List ℕ}

/-- The id of a text is the index of a token, or `0` for a text that the vocabulary does not have. -/
theorem idOf_lt (ht : TokenizerImpl.forModel info = .ok t) (hpos : 0 < n)
    (hn : info.tokens.length ≤ n) (s : Bytes) : t.idOf s < n := by
  obtain ⟨-, -, -, hids, -⟩ := forModel_maps ht
  rw [TokenizerImpl.idOf, hids]
  cases hid : buildTokenToIdMap info.tokens s with
  | none => exact hpos
  | some id =>
    have hget := List.mk_mem_zipIdx_iff_getElem?.mp (mem_of_store hid)
    exact (List.getElem?_eq_some_iff.mp hget).1.trans_le hn

theorem tokenize_lt (ht : TokenizerImpl.forModel info = .ok t) (hpos : 0 < n)
    (hn : info.tokens.length ≤ n) (h : t.tokenize m fuel text = .ok (ids, t')) :
    ∀ id ∈ ids, id < n := by
  rcases (TokenizerImpl.Alike.refl t).tokenize (m := m) fuel text with
    ⟨e, -, herror⟩ | ⟨tokens, u, -, hok, -⟩
  · rw [h] at herror
    cases herror
  · rw [h] at hok
    cases hok
    rw [List.forall_mem_map]
    exact fun s _ => idOf_lt ht hpos hn s

end Tokenizer

namespace Inference

def Effect.tokens : Effect → List ℕ
  | .predict tokens _ => tokens
  | .setInputs x => x.input
  | .sample token => [token]
  | _ => []

def TokensBelow (n : ℕ) (run : List Effect) : Prop := ∀ e ∈ run, ∀ token ∈ e.tokens, token < n

variable {n : ℕ} {run rest : List Effect} {tokens : List ℕ}

theorem tokensBelow_append :
    TokensBelow n (run ++ rest) ↔ TokensBelow n run ∧ TokensBelow n rest :=
  List.forall_mem_append

theorem tokensBelow_cons {e : Effect} :
    TokensBelow n (e :: rest) ↔ (∀ token ∈ e.tokens, token < n) ∧ TokensBelow n rest :=
  List.forall_mem_cons

theorem tokensBelow_nil : TokensBelow n [] := List.forall_mem_nil _

theorem tokensBelow_cons_of_nil {e : Effect} (he : e.tokens = []) :
    TokensBelow n (e :: rest) ↔ TokensBelow n rest := by
  rw [tokensBelow_cons, he]
  exact and_iff_right (List.forall_mem_nil _)

theorem tokensBelow_singleton {e : Effect} (he : e.tokens = []) : TokensBelow n [e] :=
  (tokensBelow_cons_of_nil he).mpr tokensBelow_nil

theorem tokensBelow_whilePrefill (pastTokens : ℤ) (e : InferenceEvent) :
    TokensBelow n (whilePrefill pastTokens e) := by
  rw [whilePrefill]
  split_ifs
  · exact tokensBelow_singleton rfl
  · exact tokensBelow_nil

theorem setInputs_input {maxContextLen : ℕ} {pastTokens : ℤ} {x : Inputs}
    (h : setInputs maxContextLen tokens pastTokens = .ok x) : x.input = tokens := by
  obtain ⟨pos, -, hmask⟩ := Outcome.bind_eq_ok.mp h
  obtain ⟨mask, -, hok⟩ := Outcome.bind_eq_ok.mp hmask
  cases hok
  rfl

variable {K : Type} [Field K] [LinearOrder K]

namespace Backend

variable {b : Backend K}

/-- A pass feeds the tokens it is given, and its logits are those of the backend, if there are
any. -/
theorem predict_tokens (htokens : ∀ token ∈ tokens, token < n)
    (hlogits : ∀ i logits, (b.turns i).logits = some logits → logits.length ≤ n) (i : ℕ)
    (s : Inference) (pastTokens : ℤ) : TokensBelow n (b.predict i s tokens pastTokens).1 ∧
      ∀ s' logits, (b.predict i s tokens pastTokens).2 = .ok (s', logits) → logits.length ≤ n := by
  have hreserves (c : Bool) : TokensBelow n (if c then [Effect.reserve true] else []) := by
    split_ifs
    · exact tokensBelow_singleton rfl
    · exact tokensBelow_nil
  rw [predict]
  split
  · refine ⟨tokensBelow_nil, ?_⟩
    intro s' logits h
    cases h
  · refine ⟨tokensBelow_singleton rfl, ?_⟩
    intro s' logits h
    cases h
    exact Nat.zero_le n
  · dsimp only
    cases hx : Inference.setInputs b.maxContextLen tokens pastTokens with
    | error f =>
      refine ⟨hreserves _, ?_⟩
      intro s' logits h
      cases h
    | ok x =>
      have hfed : ∀ ok, TokensBelow n [Effect.setInputs x, .compute ok] := by
        intro ok
        rw [tokensBelow_cons]
        refine ⟨?_, tokensBelow_singleton rfl⟩
        change ∀ token ∈ x.input, token < n
        rw [setInputs_input hx]
        exact htokens
      dsimp only
      cases hturn : (b.turns i).logits with
      | none =>
        refine ⟨tokensBelow_append.mpr ⟨hreserves _, hfed false⟩, ?_⟩
        intro s' logits h
        cases h
      | some logits =>
        refine ⟨tokensBelow_append.mpr ⟨hreserves _, hfed true⟩, ?_⟩
        intro s' logits' h
        dsimp only at h
        split_ifs at h
        cases h
        exact hlogits i logits hturn

theorem turn_tokens (hpos : 0 < n) (htokens : ∀ token ∈ tokens, token < n)
    (hlogits : ∀ i logits, (b.turns i).logits = some logits → logits.length ≤ n) (i : ℕ)
    (s : Inference) (pastTokens : ℤ) : TokensBelow n (b.turn i s tokens pastTokens).1 ∧
      ∀ s' token, (b.turn i s tokens pastTokens).2 = .ok (s', token) → token < n := by
  obtain ⟨hrun, hfound⟩ := predict_tokens htokens hlogits i s pastTokens
  rw [turn]
  generalize b.predict i s tokens pastTokens = p at hrun hfound ⊢
  obtain ⟨run, result⟩ := p
  have hfront : TokensBelow n (whilePrefill pastTokens (.prefillStarted tokens.length) ++
      .predict tokens pastTokens :: run) :=
    tokensBelow_append.mpr ⟨tokensBelow_whilePrefill _ _, tokensBelow_cons.mpr ⟨htokens, hrun⟩⟩
  cases result with
  | error f =>
    refine ⟨hfront, ?_⟩
    intro s' token h
    cases h
  | ok found =>
    obtain ⟨s', logits⟩ := found
    have hback := tokensBelow_append.mpr ⟨hfront, tokensBelow_whilePrefill pastTokens
      (.prefillCompleted tokens.length)⟩
    dsimp only
    cases hsample : b.sampler.sample b.weight (b.turns i).draw logits with
    | error f =>
      refine ⟨hback, ?_⟩
      intro s' token h
      cases h
    | ok r =>
      obtain ⟨token, p⟩ := r
      have hlt := Sampler.sample_lt hpos (hfound s' logits rfl) hsample
      constructor
      · exact tokensBelow_append.mpr ⟨hback, List.forall_mem_singleton.mpr
          (List.forall_mem_singleton.mpr hlt)⟩
      · intro s'' token' h
        cases h
        exact hlt

theorem loop_tokens (hpos : 0 < n) (htokens : ∀ token ∈ tokens, token < n)
    (hlogits : ∀ i logits, (b.turns i).logits = some logits → logits.length ≤ n) (r : Request)
    (left i : ℕ) (s : Inference) (pastTokens : ℤ) :
    TokensBelow n (b.loop r left i s tokens pastTokens).1 := by
  induction left generalizing i s tokens pastTokens with
  | zero => exact tokensBelow_singleton rfl
  | succ left ih =>
    obtain ⟨hrun, hresult⟩ := turn_tokens hpos htokens hlogits i s pastTokens
    rw [loop]
    generalize b.turn i s tokens pastTokens = t at hrun hresult ⊢
    obtain ⟨run, result⟩ := t
    cases result with
    | error f => exact hrun
    | ok found =>
      obtain ⟨s', token⟩ := found
      have hlt := hresult s' token rfl
      dsimp only
      split_ifs
      · exact tokensBelow_append.mpr ⟨hrun, tokensBelow_singleton rfl⟩
      · have hnext : ∀ next ∈ [token], next < n := List.forall_mem_singleton.mpr hlt
        have hrest := ih hnext (i + 1) s' (toInt (pastTokens + tokens.length))
        exact tokensBelow_append.mpr ⟨hrun, (tokensBelow_cons_of_nil rfl).mpr hrest⟩

/-- In every run, however it ends, the tokens that are fed and sampled have a row in every table that
is as long as the vocabulary and the logits. -/
theorem invoke_tokens {info : TokenizerInfo} {t t' : TokenizerImpl} {m : Pcre2} {fuel : ℕ}
    {input : Bytes} {r : Request} (ht : TokenizerImpl.forModel info = .ok t)
    (htokenize : t.tokenize m fuel input = .ok (r.prompt, t')) (hpos : 0 < n)
    (hvocab : info.tokens.length ≤ n)
    (hlogits : ∀ i logits, (b.turns i).logits = some logits → logits.length ≤ n) (s : Inference) :
    TokensBelow n (b.invoke r s).1 := by
  have hloop := loop_tokens hpos (tokenize_lt ht hpos hvocab htokenize) hlogits r r.maxTokens 0 s 0
  rw [invoke]
  exact (tokensBelow_cons_of_nil rfl).mpr ((tokensBelow_cons_of_nil rfl).mpr hloop)

noncomputable def twoLogits : Backend ℝ :=
  ⟨fourBlocks, 1, 64, expWeight, .ofParams ⟨1, 0, 1⟩, fun _ => ⟨true, some [0, 1], 0⟩⟩

theorem invoke_tokens_hi : ∃ r : Request, r.maxTokens = 3 ∧
    TokensBelow (greetingInfo.tokens.length + 2) (twoLogits.invoke r (new fourBlocks 1)).1 := by
  obtain ⟨t, ht⟩ := forModel_ok greetingInfo_complete.types
  have hbuilt := forModel_builtFrom greetingInfo_complete.types ht
  obtain ⟨ids, t', htok, -⟩ :=
    hbuilt.exists_ids (Pcre2.reference_leftmostOrdered asciiTable) greetingInfo_complete (.inl rfl)
      (valid_encode "hi".toList) (Nat.lt_succ_self 2)
  have hlogits : ∀ i logits, (twoLogits.turns i).logits = some logits →
      logits.length ≤ greetingInfo.tokens.length + 2 := by
    intro i logits h
    cases h
    exact Nat.le_add_left 2 _
  refine ⟨⟨2, ids, 3, t'.decode, t'.isStopToken⟩, rfl, ?_⟩
  exact invoke_tokens ht htok (Nat.add_pos_right _ Nat.two_pos) (Nat.le_add_right _ 2) hlogits _

end Backend

end Inference

end ZInferLM
