import ZInferLM.Tokenizer.TokenizerImpl

/-! # The generation loop

`invoke` tokenizes the input and alternates forward passes and samples. A run is the list of what
it does in order: events it dispatches, calls of `predict` and sampled tokens. The tokens that are
sampled come from outside. Counts are numbers here and `int`s in the source, which are the same as
long as they stay in the range of `int` (`Backend.invoke_actions`). -/

namespace ZInferLM
open Library Library.Utf8 Tokenizer

namespace Inference

inductive StreamStatus where
  | continue | eos | maxCtxReached
  deriving DecidableEq

/-- The events with their payloads, but for the time stamps. -/
inductive InferenceEvent where
  | tokenizerStarted (strLen : ℕ)
  | tokenizerCompleted (numTokens : ℕ)
  | prefillStarted (tokensCount : ℕ)
  | prefillCompleted (tokensCount : ℕ)
  | tokenGenerated (seqId : ℕ) (token : Bytes)
  | generationCompleted (status : StreamStatus) (numTokens : ℕ)
  deriving DecidableEq

inductive Action where
  | dispatch (e : InferenceEvent)
  | predict (tokens : List ℕ) (pastTokens : ℕ)
  | sample (token : ℕ)
  deriving DecidableEq

def InferenceEvent.isTerminal : InferenceEvent → Bool
  | .generationCompleted _ _ => true
  | _ => false

def Action.completes : Action → Bool
  | .dispatch e => e.isTerminal
  | _ => false

/-- What the loop works with: the tokens of the prompt, the token sampled in every turn, and the
tokenizer's view of a token. -/
structure Generation where
  strLen : ℕ
  prompt : List ℕ
  maxTokens : ℕ
  samples : ℕ → ℕ
  decode : ℕ → Bytes
  isStop : Bytes → Bool

namespace Generation

def stops (gen : Generation) (i : ℕ) : Bool := gen.isStop (gen.decode (gen.samples i))

/-- An event that is dispatched only while `past_tokens` is `0`. -/
def prefill (pastTokens : ℕ) (e : InferenceEvent) : List Action :=
  if pastTokens = 0 then [.dispatch e] else []

def pass (gen : Generation) (i : ℕ) (tokens : List ℕ) (pastTokens : ℕ) : List Action :=
  prefill pastTokens (.prefillStarted tokens.length) ++ .predict tokens pastTokens ::
    (prefill pastTokens (.prefillCompleted tokens.length) ++ [.sample (gen.samples i)])

/-- The loop from turn `i` on with `left` turns to go, and the text it appends to the output. -/
def loop (gen : Generation) : ℕ → ℕ → List ℕ → ℕ → List Action × Bytes
  | 0, _, _, _ => ([.dispatch (.generationCompleted .maxCtxReached 0)], [])
  | left + 1, i, tokens, pastTokens =>
    if gen.stops i then
      (gen.pass i tokens pastTokens ++ [.dispatch (.generationCompleted .eos i)], [])
    else
      let outToken := gen.decode (gen.samples i)
      let rest := loop gen left (i + 1) [gen.samples i] (pastTokens + tokens.length)
      (gen.pass i tokens pastTokens ++ .dispatch (.tokenGenerated i outToken) :: rest.1,
        outToken ++ rest.2)

def trace (gen : Generation) : List Action :=
  .dispatch (.tokenizerStarted gen.strLen) :: .dispatch (.tokenizerCompleted gen.prompt.length) ::
    (gen.loop gen.maxTokens 0 gen.prompt 0).1

def output (gen : Generation) : Bytes := (gen.loop gen.maxTokens 0 gen.prompt 0).2

end Generation

def generation (t : TokenizerImpl) (m : Pcre2) (fuel : ℕ) (samples : ℕ → ℕ) (input : Bytes)
    (maxTokens : ℕ) : Outcome Generation := do
  let r ← t.tokenize m fuel input
  .ok ⟨input.length, r.1, maxTokens, samples, r.2.decode, r.2.isStopToken⟩

def invoke (t : TokenizerImpl) (m : Pcre2) (fuel : ℕ) (samples : ℕ → ℕ) (input : Bytes)
    (maxTokens : ℕ) : Outcome (List Action × Bytes) := do
  let gen ← generation t m fuel samples input maxTokens
  .ok (gen.trace, gen.output)

namespace Generation

/-- No stop token is sampled in the `j` turns from `i` on. -/
def GoesOn (gen : Generation) (i j : ℕ) : Prop := ∀ k < j, gen.stops (i + k) = false

theorem goesOn_succ (gen : Generation) (i j : ℕ) :
    gen.GoesOn i (j + 1) ↔ gen.stops i = false ∧ gen.GoesOn (i + 1) j := by
  constructor
  · intro h
    refine ⟨h 0 (Nat.succ_pos j), fun k hk => ?_⟩
    rw [Nat.add_assoc, Nat.add_comm 1 k]
    exact h (k + 1) (Nat.succ_lt_succ hk)
  · rintro ⟨h0, h⟩ k hk
    cases k with
    | zero => exact h0
    | succ k =>
      have := h k (Nat.lt_of_succ_lt_succ hk)
      rwa [Nat.add_assoc, Nat.add_comm 1 k] at this

/-- The arguments of the `j`-th call of `predict` from turn `i` on. -/
def call (gen : Generation) (i : ℕ) (tokens : List ℕ) (pastTokens : ℕ) : ℕ → List ℕ × ℕ
  | 0 => (tokens, pastTokens)
  | j + 1 => ([gen.samples (i + j)], pastTokens + tokens.length + j)

theorem call_succ (gen : Generation) (i : ℕ) (tokens : List ℕ) (pastTokens j : ℕ) :
    gen.call (i + 1) [gen.samples i] (pastTokens + tokens.length) j =
      gen.call i tokens pastTokens (j + 1) := by
  cases j with
  | zero => rfl
  | succ j =>
    rw [call, call, List.length_singleton, Nat.add_assoc i 1 j, Nat.add_comm 1 j,
      Nat.add_assoc (pastTokens + tokens.length) 1 j, Nat.add_comm 1 j]

theorem mem_prefill {pastTokens : ℕ} {e : InferenceEvent} {a : Action}
    (h : a ∈ prefill pastTokens e) : a = .dispatch e := by
  rw [prefill] at h
  split_ifs at h
  · exact List.mem_singleton.mp h
  · cases h

theorem predict_mem_pass {gen : Generation} {i : ℕ} {tokens toks : List ℕ} {pastTokens q : ℕ} :
    Action.predict toks q ∈ gen.pass i tokens pastTokens ↔ toks = tokens ∧ q = pastTokens := by
  have hpre (e : InferenceEvent) : Action.predict toks q ∉ prefill pastTokens e := by
    intro h
    cases mem_prefill h
  simp [pass, hpre]

theorem mem_predict {gen : Generation} {left i : ℕ} {tokens toks : List ℕ} {pastTokens q : ℕ} :
    Action.predict toks q ∈ (gen.loop left i tokens pastTokens).1 ↔
      ∃ j < left, gen.GoesOn i j ∧ gen.call i tokens pastTokens j = (toks, q) := by
  induction left generalizing i tokens pastTokens with
  | zero => simp [loop]
  | succ left ih =>
    have hrest : (∃ j < left + 1, gen.GoesOn i j ∧ gen.call i tokens pastTokens j = (toks, q)) ↔
        (toks = tokens ∧ q = pastTokens) ∨ gen.stops i = false ∧
          Action.predict toks q ∈
            (gen.loop left (i + 1) [gen.samples i] (pastTokens + tokens.length)).1 := by
      rw [ih]
      constructor
      · rintro ⟨j, hj, hgo, hcall⟩
        cases j with
        | zero =>
          obtain ⟨rfl, rfl⟩ := Prod.mk.inj hcall
          exact .inl ⟨rfl, rfl⟩
        | succ j =>
          obtain ⟨h0, hgo⟩ := (gen.goesOn_succ i j).mp hgo
          exact .inr ⟨h0, j, by omega, hgo, by rw [call_succ, hcall]⟩
      · rintro (⟨rfl, rfl⟩ | ⟨h0, j, hj, hgo, hcall⟩)
        · exact ⟨0, Nat.succ_pos left, fun k hk => absurd hk (Nat.not_lt_zero k), rfl⟩
        · exact ⟨j + 1, by omega, (gen.goesOn_succ i j).mpr ⟨h0, hgo⟩, by rw [← call_succ, hcall]⟩
    rw [hrest, loop]
    cases hstop : gen.stops i with
    | true => simp [predict_mem_pass]
    | false => simp [predict_mem_pass]

theorem le_call (gen : Generation) (i : ℕ) (tokens : List ℕ) (pastTokens j : ℕ) :
    pastTokens ≤ (gen.call i tokens pastTokens j).2 := by
  cases j with
  | zero => exact Nat.le_refl _
  | succ j =>
    rw [call, Nat.add_assoc]
    exact Nat.le_add_right _ _

def Later (a b : Action) : Prop :=
  ∀ tokens q tokens' q', a = .predict tokens q → b = .predict tokens' q' → q + tokens.length ≤ q'

theorem later_of_not_predict {a b : Action} (h : ∀ tokens q, a ≠ .predict tokens q) : Later a b :=
  fun tokens q _ _ ha _ => absurd ha (h tokens q)

theorem pairwise_prefill (pastTokens : ℕ) (e : InferenceEvent) {as : List Action}
    (h : as.Pairwise Later) : (prefill pastTokens e ++ as).Pairwise Later := by
  rw [List.pairwise_append]
  refine ⟨?_, h, ?_⟩
  · rw [prefill]
    split_ifs
    · exact List.pairwise_singleton _ _
    · exact List.Pairwise.nil
  · intro a ha b _
    rw [mem_prefill ha]
    apply later_of_not_predict
    rintro _ _ ⟨⟩

theorem pairwise_pass (gen : Generation) (i : ℕ) (tokens : List ℕ) (pastTokens : ℕ)
    {as : List Action} (h : as.Pairwise Later)
    (hlater : ∀ toks q, Action.predict toks q ∈ as → pastTokens + tokens.length ≤ q) :
    (gen.pass i tokens pastTokens ++ as).Pairwise Later := by
  have hsample : (Action.sample (gen.samples i) :: as).Pairwise Later := by
    apply List.Pairwise.cons _ h
    intro b _
    apply later_of_not_predict
    rintro _ _ ⟨⟩
  rw [pass, List.append_assoc, List.cons_append, List.append_assoc, List.singleton_append]
  apply pairwise_prefill
  apply List.Pairwise.cons _ (pairwise_prefill _ _ hsample)
  rintro b hb _ _ toks q ⟨⟩ rfl
  rcases List.mem_append.mp hb with hb | hb
  · cases mem_prefill hb
  · cases hb with
    | tail _ hb => exact hlater toks q hb

theorem pairwise_loop (gen : Generation) (left i : ℕ) (tokens : List ℕ) (pastTokens : ℕ) :
    (gen.loop left i tokens pastTokens).1.Pairwise Later := by
  induction left generalizing i tokens pastTokens with
  | zero => exact List.pairwise_singleton _ _
  | succ left ih =>
    rw [loop]
    split_ifs
    · apply pairwise_pass _ _ _ _ (List.pairwise_singleton _ _)
      intro toks q h
      cases List.mem_singleton.mp h
    · apply pairwise_pass
      · apply List.Pairwise.cons _ (ih _ _ _)
        intro b _
        apply later_of_not_predict
        rintro _ _ ⟨⟩
      · intro toks q h
        cases h with
        | tail _ h =>
          obtain ⟨j, _, _, hcall⟩ := mem_predict.mp h
          have hle := gen.le_call (i + 1) [gen.samples i] (pastTokens + tokens.length) j
          rwa [hcall] at hle

/-- A run ends behind a stop token or with every turn taken, and completes only there. -/
inductive Ending (gen : Generation) : List Action → Prop where
  | eos {front : List Action} {token n : ℕ} : (∀ a ∈ front, a.completes = false) →
      gen.isStop (gen.decode token) = true →
      Ending gen (front ++ [.sample token, .dispatch (.generationCompleted .eos n)])
  | maxCtxReached {front : List Action} {n : ℕ} : (∀ a ∈ front, a.completes = false) →
      Ending gen (front ++ [.dispatch (.generationCompleted .maxCtxReached n)])

theorem Ending.append {gen : Generation} {as : List Action} (h : Ending gen as)
    (before : List Action) (hbefore : ∀ a ∈ before, a.completes = false) :
    Ending gen (before ++ as) := by
  cases h with
  | eos hfront hstop =>
    rw [← List.append_assoc]
    apply Ending.eos _ hstop
    rw [List.forall_mem_append]
    exact ⟨hbefore, hfront⟩
  | maxCtxReached hfront =>
    rw [← List.append_assoc]
    apply Ending.maxCtxReached
    rw [List.forall_mem_append]
    exact ⟨hbefore, hfront⟩

def forward (tokens : List ℕ) (pastTokens : ℕ) : List Action :=
  prefill pastTokens (.prefillStarted tokens.length) ++
    .predict tokens pastTokens :: prefill pastTokens (.prefillCompleted tokens.length)

theorem pass_eq (gen : Generation) (i : ℕ) (tokens : List ℕ) (pastTokens : ℕ) :
    gen.pass i tokens pastTokens = forward tokens pastTokens ++ [.sample (gen.samples i)] := by
  rw [pass, forward, List.append_assoc, List.cons_append]

theorem completes_forward {tokens : List ℕ} {pastTokens : ℕ} :
    ∀ a ∈ forward tokens pastTokens, a.completes = false := by
  have hpre {e : InferenceEvent} (he : (Action.dispatch e).completes = false) :
      ∀ a ∈ prefill pastTokens e, a.completes = false := by
    intro a ha
    rwa [mem_prefill ha]
  rw [forward, List.forall_mem_append, List.forall_mem_cons]
  exact ⟨hpre rfl, rfl, hpre rfl⟩

theorem ending_loop (gen : Generation) (left i : ℕ) (tokens : List ℕ) (pastTokens : ℕ) :
    Ending gen (gen.loop left i tokens pastTokens).1 := by
  induction left generalizing i tokens pastTokens with
  | zero =>
    apply @Ending.maxCtxReached gen []
    simp
  | succ left ih =>
    rw [loop]
    split_ifs with hstop
    · rw [pass_eq, List.append_assoc]
      exact Ending.eos completes_forward hstop
    · dsimp only
      rw [pass_eq, List.append_assoc]
      apply Ending.append _ _ completes_forward
      apply (ih _ _ _).append [.sample (gen.samples i), .dispatch (.tokenGenerated i _)]
      simp [Action.completes, InferenceEvent.isTerminal]

theorem ending_trace (gen : Generation) : Ending gen gen.trace := by
  apply (gen.ending_loop gen.maxTokens 0 gen.prompt 0).append [_, _]
  simp [Action.completes, InferenceEvent.isTerminal]

/-- A run completes once, with its last action. -/
theorem trace_completes (gen : Generation) : ∃ front last, gen.trace = front ++ [last] ∧
    last.completes = true ∧ ∀ a ∈ front, a.completes = false := by
  have hending := gen.ending_trace
  generalize gen.trace = as at hending
  cases hending with
  | @eos front token n hfront _ =>
    refine ⟨front ++ [.sample token], _, by rw [List.append_assoc]; rfl, rfl, ?_⟩
    rw [List.forall_mem_append, List.forall_mem_singleton]
    exact ⟨hfront, rfl⟩
  | @maxCtxReached front n hfront => exact ⟨front, _, rfl, rfl, hfront⟩

theorem countP_completes {as : List Action} (h : ∀ a ∈ as, a.completes = false) :
    as.countP Action.completes = 0 := by
  rw [List.countP_eq_zero]
  intro a ha
  rw [h a ha]
  exact Bool.false_ne_true

theorem countP_trace (gen : Generation) : gen.trace.countP Action.completes = 1 := by
  obtain ⟨front, last, htrace, hlast, hfront⟩ := gen.trace_completes
  rw [htrace, List.countP_append, countP_completes hfront, List.countP_singleton, if_pos hlast]

end Generation

end Inference

end ZInferLM
