import ZInferLM.Inference.Failures

/-! # Feeding a prompt step by step

The prompt is fed in the first turn and every sampled token in the turn behind it. When a token is
sampled, the graph should have been fed what one call of `set_inputs` would feed for the prompt and
the tokens sampled before it. -/

namespace ZInferLM
open Library Library.Machine Library.Utf8 KvCache Sampling Tokenizer

namespace Inference

def Effect.token? : Effect → Option ℕ
  | .sample token => some token
  | _ => none

def generated (run : List Effect) : List ℕ := run.filterMap Effect.token?

def Effect.feeds (maxContextLen : ℕ) : Effect → List Fed
  | .setInputs x => x.fed maxContextLen
  | _ => []

/-- The tokens that a run feeds, with their positions and rows. -/
def feeds (maxContextLen : ℕ) (run : List Effect) : List Fed :=
  run.flatMap (Effect.feeds maxContextLen)

/-- Whenever a token is sampled, the run has fed the prompt and the tokens sampled before it as one
call would: at the positions from `0` on, each with the row that opens the columns up to its own. -/
def CausalInputs (maxContextLen : ℕ) (prompt : List ℕ) (run : List Effect) : Prop :=
  ∀ before token, before ++ [.sample token] <+: run →
    ∃ x, setInputs maxContextLen (prompt ++ generated before) 0 = .ok x ∧
      feeds maxContextLen before = x.fed maxContextLen ∧
      x.fed maxContextLen = (prompt ++ generated before).zipIdx.map (causal maxContextLen)

/-- The tokens that wait and those sampled before a token were fed from a position on. -/
def FedFrom (maxContextLen past : ℕ) (tokens : List ℕ) (run : List Effect) : Prop :=
  ∀ before token, before ++ [.sample token] <+: run →
    feeds maxContextLen before = ((tokens ++ generated before).zipIdx past).map (fedAt maxContextLen)

def Effect.isSample : Effect → Bool
  | .sample _ => true
  | _ => false

variable {maxContextLen past token : ℕ} {tokens : List ℕ} {front rest run : List Effect} {x : Inputs}

theorem generated_append (as bs : List Effect) : generated (as ++ bs) = generated as ++ generated bs :=
  List.filterMap_append

theorem feeds_append (as bs : List Effect) :
    feeds maxContextLen (as ++ bs) = feeds maxContextLen as ++ feeds maxContextLen bs :=
  List.flatMap_append

theorem generated_dispatch (e : InferenceEvent) (as : List Effect) :
    generated (.dispatch e :: as) = generated as := rfl

theorem generated_sample (token : ℕ) (as : List Effect) :
    generated (.sample token :: as) = token :: generated as := rfl

theorem generated_of_not_sample (h : ∀ e ∈ run, ¬ e.isSample = true) : generated run = [] := by
  rw [generated, List.filterMap_eq_nil_iff]
  intro e he
  cases e with
  | sample token => exact absurd rfl (h _ he)
  | _ => rfl

theorem feeds_of_quiet (maxContextLen : ℕ) (h : ∀ e ∈ run, e.isQuiet = true) :
    feeds maxContextLen run = [] := by
  rw [feeds, List.flatMap_eq_nil_iff]
  intro e he
  cases e with
  | setInputs x => exact absurd (h _ he) Bool.false_ne_true
  | _ => rfl

theorem not_sample_of_quiet (h : ∀ e ∈ run, e.isQuiet = true) : ∀ e ∈ run, ¬ e.isSample = true := by
  rintro e he hsample
  cases e with
  | sample token => exact absurd (h _ he) Bool.false_ne_true
  | _ => cases hsample

theorem fedFrom_of_not_sample (h : ∀ e ∈ run, ¬ e.isSample = true) :
    FedFrom maxContextLen past tokens run := by
  intro before token hahead
  exact absurd rfl (h (.sample token) (hahead.subset (by simp)))

theorem fedFrom_dispatch (e : InferenceEvent) :
    FedFrom maxContextLen past tokens (.dispatch e :: rest) ↔
      FedFrom maxContextLen past tokens rest := by
  constructor
  · intro h before token hahead
    exact h (.dispatch e :: before) token (List.cons_prefix_cons.mpr ⟨rfl, hahead⟩)
  · intro h before token hahead
    cases before with
    | nil => cases (List.cons_prefix_cons.mp hahead).1
    | cons a before =>
      obtain ⟨rfl, hrest⟩ := List.cons_prefix_cons.mp hahead
      exact h before token hrest

theorem FedFrom.here (h : FedFrom maxContextLen past tokens (front ++ Effect.sample token :: rest))
    (hfront : ∀ e ∈ front, ¬ e.isSample = true) :
    feeds maxContextLen front = (tokens.zipIdx past).map (fedAt maxContextLen) := by
  have hahead : front ++ [Effect.sample token] <+: front ++ Effect.sample token :: rest := by simp
  have hfed := h front token hahead
  rwa [generated_of_not_sample hfront, List.append_nil] at hfed

theorem fedFrom_sample (hfront : ∀ e ∈ front, ¬ e.isSample = true)
    (hfed : feeds maxContextLen front = (tokens.zipIdx past).map (fedAt maxContextLen)) :
    FedFrom maxContextLen past tokens (front ++ Effect.sample token :: rest) ↔
      FedFrom maxContextLen (past + tokens.length) [token] rest := by
  have hgen := generated_of_not_sample hfront
  have hcut (before : List Effect) (next : ℕ) :
      before ++ [Effect.sample next] <+: front ++ Effect.sample token :: rest ↔
        ∃ before', before = front ++ before' ∧
          before' ++ [Effect.sample next] <+: Effect.sample token :: rest :=
    concat_prefix_append_iff hfront rfl
  have hlater (before : List Effect) :
      feeds maxContextLen (front ++ Effect.sample token :: before) =
        ((tokens ++ generated (front ++ Effect.sample token :: before)).zipIdx past).map
          (fedAt maxContextLen) ↔
      feeds maxContextLen before =
        (([token] ++ generated before).zipIdx (past + tokens.length)).map (fedAt maxContextLen) := by
    rw [feeds_append, hfed, generated_append, hgen, List.nil_append, List.zipIdx_append,
      List.map_append, List.append_cancel_left_eq]
    rfl
  constructor
  · intro h before next hahead
    exact (hlater before).mp (h _ next
      ((hcut _ _).mpr ⟨.sample token :: before, rfl, List.cons_prefix_cons.mpr ⟨rfl, hahead⟩⟩))
  · intro h before next hahead
    obtain ⟨before', rfl, hbefore⟩ := (hcut _ _).mp hahead
    cases before' with
    | nil => rw [List.append_nil, hgen, List.append_nil, hfed]
    | cons e before' =>
      obtain ⟨rfl, hrest⟩ := List.cons_prefix_cons.mp hbefore
      exact (hlater before').mpr (h before' next hrest)

variable {K : Type} [Field K] [LinearOrder K]

theorem reserve_not_mem (h : ∀ e ∈ run, e.isQuiet = true) : Effect.reserve false ∉ run := by
  intro hmem
  exact absurd (h _ hmem) Bool.false_ne_true

theorem feeds_passed {back : List Effect} (hlen : past + tokens.length ≤ 2 ^ 31)
    (hx : setInputs maxContextLen tokens past = .ok x)
    (hfront : ∀ e ∈ front, e.isQuiet = true) (hback : ∀ e ∈ back, e.isQuiet = true) :
    feeds maxContextLen (front ++ Effect.setInputs x :: back) =
      (tokens.zipIdx past).map (fedAt maxContextLen) := by
  obtain ⟨x', hx', hfed⟩ := setInputs_fed maxContextLen hlen
  cases hx.symm.trans hx'
  have hsplit : front ++ Effect.setInputs x :: back = front ++ [Effect.setInputs x] ++ back := by
    simp
  rw [hsplit, feeds_append, feeds_append, feeds_of_quiet _ hfront, feeds_of_quiet _ hback,
    List.nil_append, List.append_nil, ← hfed, feeds, List.flatMap_singleton]
  rfl

/-- The loop feeds what waits in every turn if and only if it can reserve its graphs. -/
theorem Backend.loop_fedFrom_iff (b : Backend K) (r : Request) (left i : ℕ) (s : Inference)
    {tokens : List ℕ} (past : ℕ) (hne : tokens ≠ [])
    (hlen : past + tokens.length + (generated (b.loop r left i s tokens past).1).length ≤ 2 ^ 31) :
    FedFrom b.maxContextLen past tokens (b.loop r left i s tokens past).1 ↔
      Effect.reserve false ∉ (b.loop r left i s tokens past).1 := by
  induction left generalizing i s tokens past with
  | zero =>
    have hnone : ∀ e ∈ (b.loop r 0 i s tokens past).1, ¬ e.isSample = true :=
      List.forall_mem_singleton.mpr Bool.false_ne_true
    refine iff_of_true (fedFrom_of_not_sample hnone) ?_
    simp [Backend.loop]
  | succ left ih =>
    have hturn := b.turn_run i s tokens past
    rw [Backend.loop] at hlen ⊢
    generalize b.turn i s tokens past = t at hturn hlen ⊢
    obtain ⟨as, result⟩ := t
    cases hturn with
    | @passed front back x s' token hrun hresult hx hfront hback =>
      subst hrun hresult
      have hfeeds := feeds_passed (by omega) hx hfront hback
      have hnone : ∀ e ∈ front ++ Effect.setInputs x :: back, ¬ e.isSample = true := by
        rw [List.forall_mem_append, List.forall_mem_cons]
        exact ⟨not_sample_of_quiet hfront, Bool.false_ne_true, not_sample_of_quiet hback⟩
      have hreserve : Effect.reserve false ∉ front ++ Effect.setInputs x :: back := by
        simp [reserve_not_mem hfront, reserve_not_mem hback]
      have hcut (e : InferenceEvent) (rest : List Effect) :
          front ++ Effect.setInputs x :: (back ++ [Effect.sample token]) ++
              Effect.dispatch e :: rest =
            front ++ Effect.setInputs x :: back ++
              Effect.sample token :: Effect.dispatch e :: rest := by simp
      dsimp only at hlen ⊢
      split_ifs at hlen ⊢
      · rw [hcut, fedFrom_sample hnone hfeeds, fedFrom_dispatch]
        refine iff_of_true (fedFrom_of_not_sample (by simp)) ?_
        rw [List.mem_append, or_iff_right hreserve]
        simp
      · rw [hcut, generated_append, generated_of_not_sample hnone, List.nil_append,
          generated_sample, generated_dispatch, List.length_cons] at hlen
        rw [← Nat.cast_add, toInt_of_lt (by omega)] at hlen ⊢
        rw [hcut, fedFrom_sample hnone hfeeds, fedFrom_dispatch,
          ih _ _ _ (List.cons_ne_nil _ _) (by rw [List.length_singleton]; omega), List.mem_append,
          or_iff_right hreserve]
        simp
    | @unreserved front back s' hrun hresult hfront hback =>
      -- the token `0` is sampled and nothing was fed
      subst hrun hresult
      have hnone : ∀ e ∈ front ++ Effect.reserve false :: back, ¬ e.isSample = true := by
        rw [List.forall_mem_append, List.forall_mem_cons]
        exact ⟨not_sample_of_quiet hfront, Bool.false_ne_true, not_sample_of_quiet hback⟩
      have hfeeds : feeds b.maxContextLen (front ++ Effect.reserve false :: back) = [] := by
        have hback' := feeds_of_quiet b.maxContextLen hback
        rw [feeds_append, feeds_of_quiet _ hfront, List.nil_append]
        exact hback'
      have hcut (rest : List Effect) :
          front ++ Effect.reserve false :: (back ++ [Effect.sample 0]) ++ rest =
            front ++ Effect.reserve false :: back ++ Effect.sample 0 :: rest := by simp
      have hnot (rest : List Effect) : ¬ FedFrom b.maxContextLen past tokens
          (front ++ Effect.reserve false :: (back ++ [Effect.sample 0]) ++ rest) := by
        rw [hcut]
        intro hfed
        have hhere := hfeeds.symm.trans (hfed.here hnone)
        exact hne (List.zipIdx_eq_nil_iff.mp (List.map_eq_nil_iff.mp hhere.symm))
      dsimp only
      split_ifs
      · exact iff_of_false (hnot _) fun h => h (by simp)
      · exact iff_of_false (hnot _) fun h => h (by simp)
    | @uncomputed front x hrun hresult hfront =>
      subst hrun hresult
      have hnone : ∀ e ∈ front ++ [Effect.setInputs x, Effect.compute false],
          ¬ e.isSample = true := by
        rw [List.forall_mem_append]
        exact ⟨not_sample_of_quiet hfront, by simp [Effect.isSample]⟩
      refine iff_of_true (fedFrom_of_not_sample hnone) ?_
      simp [reserve_not_mem hfront]
    | faulted f hresult hrun =>
      subst hresult
      have hnone : ∀ e ∈ as, ¬ e.isSample = true := by
        rintro e he hsample
        rcases hrun e he with hquiet | ⟨x, rfl⟩
        · exact not_sample_of_quiet (List.forall_mem_singleton.mpr hquiet) e
            List.mem_cons_self hsample
        · cases hsample
      refine iff_of_true (fedFrom_of_not_sample hnone) fun hmem => ?_
      rcases hrun _ hmem with hquiet | ⟨x, hx⟩
      · cases hquiet
      · cases hx

/-- What is fed from position `0` on is what one call feeds, and the rows open the columns up to
the position as long as the columns are in the range of `int`. -/
theorem causalInputs_iff (hne : tokens ≠ []) (hlen : tokens.length + (generated run).length < 2 ^ 31) :
    CausalInputs maxContextLen tokens run ↔ FedFrom maxContextLen 0 tokens run ∧
      (maxContextLen ≤ 2 ^ 31 ∨ generated run = []) := by
  have hshort {before : List Effect} {token : ℕ}
      (hahead : before ++ [Effect.sample token] <+: run) :
      (tokens ++ generated before).length < 2 ^ 31 := by
    have hle := (((List.prefix_append before [.sample token]).trans hahead).sublist.filterMap
      Effect.token?).length_le
    rw [List.length_append]
    rw [generated] at hlen ⊢
    omega
  have hcall {before : List Effect} {token : ℕ} (hahead : before ++ [Effect.sample token] <+: run) :
      ∃ x, setInputs maxContextLen (tokens ++ generated before) 0 = .ok x ∧ x.fed maxContextLen =
        (tokens ++ generated before).zipIdx.map (fedAt maxContextLen) :=
    setInputs_fed maxContextLen (by rw [Nat.zero_add]; exact (hshort hahead).le)
  have hcausal {before : List Effect} {token : ℕ}
      (hahead : before ++ [Effect.sample token] <+: run) :
      (tokens ++ generated before).zipIdx.map (fedAt maxContextLen) =
        (tokens ++ generated before).zipIdx.map (causal maxContextLen) ↔
      maxContextLen ≤ 2 ^ 31 := by
    have hrow : ∀ r ∈ (tokens ++ generated before).zipIdx,
        fedAt maxContextLen r = causal maxContextLen r ↔ maxContextLen ≤ 2 ^ 31 := by
      intro r hr
      have hlt := List.snd_lt_of_mem_zipIdx hr
      exact fedAt_causal_iff ((Nat.add_zero _ ▸ hlt).trans (hshort hahead))
    rw [List.map_inj_left]
    constructor
    · intro hall
      have hsome : (tokens ++ generated before).zipIdx ≠ [] := by
        rw [Ne, List.zipIdx_eq_nil_iff, List.append_eq_nil_iff]
        exact fun h => hne h.1
      obtain ⟨r, hr⟩ := List.exists_mem_of_ne_nil _ hsome
      exact (hrow r hr).mp (hall r hr)
    · intro h r hr
      exact (hrow r hr).mpr h
  constructor
  · intro h
    constructor
    · intro before token hahead
      obtain ⟨x, hx, hfed, -⟩ := h before token hahead
      obtain ⟨x', hx', hfed'⟩ := hcall hahead
      cases hx.symm.trans hx'
      rw [hfed, hfed']
    · rw [or_iff_not_imp_right]
      intro hsome
      obtain ⟨token, htoken⟩ := List.exists_mem_of_ne_nil _ hsome
      obtain ⟨e, he, hetoken⟩ := List.mem_filterMap.mp htoken
      obtain ⟨before, after, rfl⟩ := List.append_of_mem he
      cases e with
      | sample sampled =>
        have hahead : before ++ [Effect.sample sampled] <+:
            before ++ Effect.sample sampled :: after := by simp
        obtain ⟨x, hx, -, hrows⟩ := h before sampled hahead
        obtain ⟨x', hx', hfed'⟩ := hcall hahead
        cases hx.symm.trans hx'
        exact (hcausal hahead).mp (hfed'.symm.trans hrows)
      | _ => cases hetoken
  · rintro ⟨h, hcolumns⟩ before token hahead
    obtain ⟨x, hx, hfed⟩ := hcall hahead
    refine ⟨x, hx, by rw [h before token hahead, hfed], ?_⟩
    rcases hcolumns with hcolumns | hnone
    · rw [hfed, (hcausal hahead).mpr hcolumns]
    · have hmem : token ∈ generated run :=
        List.mem_filterMap.mpr ⟨.sample token, hahead.subset (by simp), rfl⟩
      rw [hnone] at hmem
      cases hmem

/-- A run feeds its tokens as one call would if and only if it can reserve its graphs, and the
columns are in the range of `int` unless it samples nothing. -/
theorem Backend.invoke_causalInputs_iff (b : Backend K) (r : Request) (s : Inference)
    (hprompt : r.prompt ≠ [])
    (hlen : r.prompt.length + (generated (b.invoke r s).1).length < 2 ^ 31) :
    CausalInputs b.maxContextLen r.prompt (b.invoke r s).1 ↔
      Effect.reserve false ∉ (b.invoke r s).1 ∧
        (b.maxContextLen ≤ 2 ^ 31 ∨ generated (b.invoke r s).1 = []) := by
  have hloop : FedFrom b.maxContextLen 0 r.prompt (b.invoke r s).1 ↔
      Effect.reserve false ∉ (b.invoke r s).1 := by
    have hiff := b.loop_fedFrom_iff r r.maxTokens 0 s 0 hprompt
      (by rw [Nat.zero_add]; exact hlen.le)
    rw [Backend.invoke, fedFrom_dispatch, fedFrom_dispatch, List.mem_cons, List.mem_cons]
    simpa using hiff
  rw [causalInputs_iff hprompt hlen, hloop]

/-- A backend that reserves and computes every graph. The sampler takes the largest logit, which needs
no exponential. -/
def Backend.steady : Backend ℚ :=
  ⟨fourBlocks, 1, 64, ⟨fun _ => 1, fun _ => one_pos, monotone_const⟩, .ofParams ⟨1, 0, 1⟩,
    fun _ => ⟨true, some [0, 1], 0⟩⟩

def Request.twoTokens : Request := ⟨2, [5, 6], 3, fun _ => literal "!", fun _ => false⟩

theorem Backend.invoke_causalInputs_iff_twoTokens :
    generated (Backend.steady.invoke .twoTokens (new fourBlocks 1)).1 = [1, 1, 1] ∧
      CausalInputs 64 [5, 6] (Backend.steady.invoke .twoTokens (new fourBlocks 1)).1 := by
  have hgenerated : generated (Backend.steady.invoke .twoTokens (new fourBlocks 1)).1 =
      [1, 1, 1] := by decide +kernel
  have hreserved : Effect.reserve false ∉
      (Backend.steady.invoke .twoTokens (new fourBlocks 1)).1 := by decide +kernel
  refine ⟨hgenerated, ?_⟩
  apply (Backend.invoke_causalInputs_iff .steady .twoTokens (new fourBlocks 1)
    (List.cons_ne_nil _ _) ?_).mpr ⟨hreserved, .inl ?_⟩
  · rw [hgenerated]
    decide
  · decide

/-- Without a graph a token is sampled before the prompt was fed. -/
theorem Backend.unreserved_feedsNothing :
    ¬ CausalInputs 64 [5] (Backend.unreserved.invoke .oneToken (new fourBlocks 1)).1 := by
  rw [Backend.unreserved_run]
  intro hcausal
  let front : List Effect := [.dispatch (.tokenizerStarted 2), .dispatch (.tokenizerCompleted 1),
    .dispatch (.prefillStarted 1), .predict [5] 0, .reserve false, .dispatch (.prefillCompleted 1)]
  have hcut : _ <+: _ := List.prefix_append (front ++ [Effect.sample 0])
    [.dispatch (.tokenGenerated 0 (literal "!")), .dispatch (.generationCompleted .maxCtxReached 0)]
  obtain ⟨x, -, hfed, hrows⟩ := hcausal _ _ hcut
  have hnone := congrArg List.length (hfed.trans hrows)
  simp [front, feeds, Effect.feeds] at hnone

end Inference

end ZInferLM
