import ZInferLM.Inference.Invoke
import ZInferLM.Tokenizer.RoundTrip

/-! # The context window

The position of a token, the mask and the cache are made for `max_context_len` tokens, and the
status that ends a generation is named after it. The loop counts the turns only. -/

namespace ZInferLM
open Library Library.Utf8 Tokenizer

namespace Inference

/-- Every forward pass of a run has tokens and stays in the window, and the run ends with the pass
that fills it. -/
structure StaysInContext (maxContextLen : ℕ) (isStop : ℕ → Bool) (run : List Action) : Prop where
  calls : ∀ tokens q, Action.predict tokens q ∈ run →
    tokens ≠ [] ∧ q + tokens.length ≤ maxContextLen
  full : ∀ before tokens q after, run = before ++ .predict tokens q :: after →
    q + tokens.length = maxContextLen →
    (∀ toks q', Action.predict toks q' ∉ after) ∧ ∃ status n,
      run.getLast? = some (.dispatch (.generationCompleted status n)) ∧
      (status = .maxCtxReached ∨
        status = .eos ∧ ∃ token, Action.sample token ∈ after ∧ isStop token = true)

namespace Generation

variable {gen : Generation} {maxContextLen : ℕ}

def isStopId (gen : Generation) (token : ℕ) : Bool := gen.isStop (gen.decode token)

theorem predict_mem_trace {tokens : List ℕ} {q : ℕ} : Action.predict tokens q ∈ gen.trace ↔
    ∃ j < gen.maxTokens, gen.GoesOn 0 j ∧ gen.call 0 gen.prompt 0 j = (tokens, q) := by
  rw [← mem_predict, trace]
  simp

theorem pairwise_trace (gen : Generation) : gen.trace.Pairwise Later := by
  have hdispatch (e : InferenceEvent) (as : List Action) : ∀ b ∈ as, Later (.dispatch e) b := by
    intro b _
    apply later_of_not_predict
    rintro _ _ ⟨⟩
  apply List.Pairwise.cons (hdispatch _ _)
  apply List.Pairwise.cons (hdispatch _ _)
  exact gen.pairwise_loop _ _ _ _

theorem call_length (gen : Generation) (j : ℕ) :
    (gen.call 0 gen.prompt 0 j).2 + (gen.call 0 gen.prompt 0 j).1.length =
      gen.prompt.length + j := by
  cases j with
  | zero => exact Nat.add_comm 0 _
  | succ j =>
    simp only [call, List.length_singleton]
    omega

theorem call_ne_nil (gen : Generation) (h : gen.prompt ≠ []) (j : ℕ) :
    (gen.call 0 gen.prompt 0 j).1 ≠ [] := by
  cases j with
  | zero => exact h
  | succ j => exact List.cons_ne_nil _ _

/-- The calls are in the window if and only if the prompt is not empty and the turns that are
reached have room behind it. -/
theorem calls_iff (gen : Generation) (maxContextLen : ℕ) :
    (∀ tokens q, Action.predict tokens q ∈ gen.trace →
      tokens ≠ [] ∧ q + tokens.length ≤ maxContextLen) ↔
    gen.maxTokens = 0 ∨ gen.prompt ≠ [] ∧
      ∀ j < gen.maxTokens, gen.GoesOn 0 j → gen.prompt.length + j ≤ maxContextLen := by
  constructor
  · intro h
    rcases Nat.eq_zero_or_pos gen.maxTokens with h0 | hpos
    · exact .inl h0
    · have hcall (j : ℕ) (hj : j < gen.maxTokens) (hgo : gen.GoesOn 0 j) :=
        h _ _ (predict_mem_trace.mpr ⟨j, hj, hgo, rfl⟩)
      refine .inr ⟨(hcall 0 hpos fun k hk => absurd hk (Nat.not_lt_zero k)).1, ?_⟩
      intro j hj hgo
      rw [← call_length]
      exact (hcall j hj hgo).2
  · intro h tokens q hmem
    obtain ⟨j, hj, hgo, hcall⟩ := predict_mem_trace.mp hmem
    rcases h with h0 | ⟨hne, hroom⟩
    · omega
    · have hlen := gen.call_length j
      have hnil := gen.call_ne_nil hne j
      rw [hcall] at hlen hnil
      exact ⟨hnil, hlen ▸ hroom j hj hgo⟩

/-- What is left of a run behind a call contains the stop token that ends it. -/
theorem sample_mem_of_suffix {before after front : List Action} {tokens : List ℕ} {q token : ℕ}
    {last : Action} (hlast : last.completes = true)
    (h : before ++ Action.predict tokens q :: after = front ++ [.sample token, last]) :
    Action.sample token ∈ after := by
  have hcall : Action.predict tokens q :: after <:+ before ++ .predict tokens q :: after :=
    List.suffix_append _ _
  have hend : [Action.sample token, last] <:+ before ++ .predict tokens q :: after :=
    ⟨front, h.symm⟩
  rcases List.suffix_or_suffix_of_suffix hend hcall with hs | hs
  · rcases List.suffix_cons_iff.mp hs with heq | hs
    · cases heq
    · exact hs.subset (List.mem_cons_self ..)
  · rcases List.suffix_cons_iff.mp hs with heq | hs
    · cases heq
    · rcases List.suffix_cons_iff.mp hs with heq | hs
      · cases heq
        cases hlast
      · cases List.suffix_nil.mp hs

/-- A run whose calls stay in the window stops when it is full. -/
theorem staysInContext_of_calls (h : ∀ tokens q, Action.predict tokens q ∈ gen.trace →
    tokens ≠ [] ∧ q + tokens.length ≤ maxContextLen) :
    StaysInContext maxContextLen gen.isStopId gen.trace := by
  refine ⟨h, ?_⟩
  intro before tokens q after hrun hfull
  constructor
  · intro toks q' hmem
    have hlater := gen.pairwise_trace
    rw [hrun, List.pairwise_append] at hlater
    have hle := (List.pairwise_cons.mp hlater.2.1).1 _ hmem _ _ _ _ rfl rfl
    have hin : Action.predict toks q' ∈ gen.trace := by
      rw [hrun]
      exact List.mem_append_right _ (List.mem_cons_of_mem _ hmem)
    obtain ⟨hne, hroom⟩ := h toks q' hin
    have := List.length_pos_of_ne_nil hne
    omega
  · have hending := gen.ending_trace
    rw [hrun] at hending ⊢
    generalize hsplit : before ++ Action.predict tokens q :: after = run at hending ⊢
    cases hending with
    | @eos front token n _ hstop =>
      refine ⟨.eos, n, by simp, .inr ⟨rfl, token, ?_, hstop⟩⟩
      exact sample_mem_of_suffix rfl hsplit
    | @maxCtxReached front n _ => exact ⟨.maxCtxReached, n, by simp, .inl rfl⟩

end Generation

variable {t t' : TokenizerImpl} {m : Pcre2} {fuel : ℕ} {input : Bytes} {ids : List ℕ}

theorem invoke_eq (h : t.tokenize m fuel input = .ok (ids, t')) (samples : ℕ → ℕ)
    (maxTokens : ℕ) : ∃ gen : Generation,
      gen = ⟨input.length, ids, maxTokens, samples, t'.decode, t'.isStopToken⟩ ∧
      invoke t m fuel samples input maxTokens = .ok (gen.trace, gen.output) := by
  refine ⟨_, rfl, ?_⟩
  rw [invoke, generation, h]
  rfl

/-- A generation stays in the context window if and only if it makes no call, or the prompt has a
token and every turn it reaches finds room behind the prompt. -/
theorem staysInContext_iff (h : t.tokenize m fuel input = .ok (ids, t')) (samples : ℕ → ℕ)
    (maxTokens maxContextLen : ℕ) :
    ∃ run output, invoke t m fuel samples input maxTokens = .ok (run, output) ∧
      (StaysInContext maxContextLen (fun token => t'.isStopToken (t'.decode token)) run ↔
        maxTokens = 0 ∨ ids ≠ [] ∧ ∀ j < maxTokens,
          (∀ k < j, t'.isStopToken (t'.decode (samples k)) = false) →
            ids.length + j ≤ maxContextLen) := by
  obtain ⟨gen, rfl, hinvoke⟩ := invoke_eq h samples maxTokens
  refine ⟨_, _, hinvoke, ?_⟩
  have hcalls := Generation.calls_iff
    ⟨input.length, ids, maxTokens, samples, t'.decode, t'.isStopToken⟩ maxContextLen
  simp only [Generation.GoesOn, Generation.stops, Nat.zero_add] at hcalls
  rw [← hcalls]
  constructor
  · intro hstays
    exact hstays.calls
  · intro hin
    exact Generation.staysInContext_of_calls hin

theorem staysInContext_iff_hi : ∃ t, TokenizerImpl.forModel greetingInfo = .ok t ∧
    ∃ (ids : List ℕ) (t' : TokenizerImpl) (run : List Action) (output : Bytes), ids ≠ [] ∧
      invoke t (.reference asciiTable) 3 (fun _ => 104) (literal "hi") 2 = .ok (run, output) ∧
        StaysInContext (ids.length + 1) (fun token => t'.isStopToken (t'.decode token)) run := by
  obtain ⟨t, ht⟩ := forModel_ok greetingInfo_complete.types
  have hbuilt := forModel_builtFrom greetingInfo_complete.types ht
  obtain ⟨ids, t', htok, hdecode⟩ :=
    hbuilt.exists_ids (Pcre2.reference_leftmostOrdered asciiTable) greetingInfo_complete (.inl rfl)
      (valid_encode "hi".toList) (Nat.lt_succ_self 2)
  have hids : ids ≠ [] := by
    rintro rfl
    cases hdecode
  obtain ⟨run, output, hrun, hstays⟩ := staysInContext_iff htok (fun _ => 104) 2 (ids.length + 1)
  refine ⟨t, ht, ids, t', run, output, hids, hrun, hstays.mpr (.inr ⟨hids, ?_⟩)⟩
  intro j hj _
  omega

theorem tokenize_nil (t : TokenizerImpl) (m : Pcre2) (fuel : ℕ) :
    t.tokenize m (fuel + 1) [] = .ok ([], t) := rfl

theorem emptyPrompt_predict : ∃ t, TokenizerImpl.forModel greetingInfo = .ok t ∧
    ∃ run output, invoke t (.reference asciiTable) 1 (fun _ => 104) [] 1 = .ok (run, output) ∧
      ¬ StaysInContext 32768 (fun token => t.isStopToken (t.decode token)) run := by
  obtain ⟨t, ht⟩ := forModel_ok greetingInfo_complete.types
  have hnil := tokenize_nil t (.reference asciiTable) 0
  obtain ⟨gen, hgen, hinvoke⟩ := invoke_eq hnil (fun _ => 104) 1
  refine ⟨t, ht, _, _, hinvoke, ?_⟩
  intro hstays
  have hmem : Action.predict [] 0 ∈ gen.trace := by
    rw [hgen, Generation.predict_mem_trace]
    exact ⟨0, Nat.one_pos, fun k hk => absurd hk (Nat.not_lt_zero k), rfl⟩
  exact (hstays.calls _ _ hmem).1 rfl

end Inference

end ZInferLM
