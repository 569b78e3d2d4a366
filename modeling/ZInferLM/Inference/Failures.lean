import ZInferLM.Inference.Forward

/-! # Where a forward pass fails

A graph that cannot be reserved leaves no logits, for which the sampler has a default, so that the
turn goes on with the token `0`. A graph that is not computed ends the run at the null pointer. -/

namespace ZInferLM
open Library Library.Utf8 KvCache Sampling Tokenizer

namespace Inference

/-- A run that ends with an error where a forward pass fails: no token is generated behind it and
none is fed back. Which faults count as ending with an error is a parameter. -/
def FailsSafely (isError : Fault → Prop) (run : List Effect) (result : Outcome Bytes) : Prop :=
  ∀ e after, e :: after <:+ run → e.fails = true →
    (∃ f, result = .error f ∧ isError f) ∧ ∀ e' ∈ after, e'.produces = false

variable {isError : Fault → Prop} {front run : List Effect} {result : Outcome Bytes}

theorem failsSafely_append (hfront : ∀ e ∈ front, e.fails = false) :
    FailsSafely isError (front ++ run) result ↔ FailsSafely isError run result := by
  have hnot : ∀ e ∈ front, ¬ e.fails = true := by
    intro e he
    rw [hfront e he]
    exact Bool.false_ne_true
  constructor
  · intro h e after hsuffix he
    exact h e after ((cons_suffix_append_iff hnot he).mpr hsuffix) he
  · intro h e after hsuffix he
    exact h e after ((cons_suffix_append_iff hnot he).mp hsuffix) he

theorem failsSafely_of_forall (hrun : ∀ e ∈ run, e.fails = false) :
    FailsSafely isError run result := by
  intro e after hsuffix he
  rw [hrun e (hsuffix.subset List.mem_cons_self)] at he
  cases he

theorem failsSafely_map (g : Bytes → Bytes) :
    FailsSafely isError run (result.map g) ↔ FailsSafely isError run result := by
  cases result with
  | error f => rfl
  | ok out =>
    have hnone (out : Bytes) : ¬ ∃ f, Except.ok out = Except.error f ∧ isError f := by
      rintro ⟨f, hf, -⟩
      cases hf
    simp only [FailsSafely, Except.map, hnone, false_and]

theorem not_mem_of_fails {e : Effect} (he : e.fails = true) (hrun : ∀ e ∈ run, e.fails = false) :
    e ∉ run := by
  intro hmem
  rw [hrun e hmem] at he
  cases he

/-- The condition of a run: the graphs it builds can be reserved, and if reading through the null
pointer is no error, the graphs are computed too. -/
def PassesSucceed (isError : Fault → Prop) (run : List Effect) : Prop :=
  Effect.reserve false ∉ run ∧ (Effect.compute false ∈ run → isError (.undefined "out->ne[1]"))

theorem passesSucceed_append (hfront : ∀ e ∈ front, e.fails = false) :
    PassesSucceed isError (front ++ run) ↔ PassesSucceed isError run := by
  rw [PassesSucceed, PassesSucceed, List.mem_append, List.mem_append,
    or_iff_right (not_mem_of_fails rfl hfront), or_iff_right (not_mem_of_fails rfl hfront)]

theorem passesSucceed_of_forall (hrun : ∀ e ∈ run, e.fails = false) :
    PassesSucceed isError run :=
  ⟨not_mem_of_fails rfl hrun, fun h => absurd h (not_mem_of_fails rfl hrun)⟩

theorem fails_of_quiet (h : ∀ e ∈ run, e.isQuiet = true) : ∀ e ∈ run, e.fails = false :=
  fun e he => Effect.fails_of_isQuiet (h e he)

variable {K : Type} [Field K] [LinearOrder K]

theorem Backend.loop_failsSafely_iff (isError : Fault → Prop) (b : Backend K) (r : Request) (left i : ℕ) (s : Inference)
    (tokens : List ℕ) (pastTokens : ℤ) :
    FailsSafely isError (b.loop r left i s tokens pastTokens).1
      (b.loop r left i s tokens pastTokens).2 ↔
        PassesSucceed isError (b.loop r left i s tokens pastTokens).1 := by
  induction left generalizing i s tokens pastTokens with
  | zero =>
    have hquiet : ∀ e ∈ (b.loop r 0 i s tokens pastTokens).1, e.fails = false :=
      List.forall_mem_singleton.mpr rfl
    exact iff_of_true (failsSafely_of_forall hquiet) (passesSucceed_of_forall hquiet)
  | succ left ih =>
    have hturn := b.turn_run i s tokens pastTokens
    rw [loop]
    generalize b.turn i s tokens pastTokens = t at hturn
    obtain ⟨as, result⟩ := t
    cases hturn with
    | @passed front back x s' token hrun hresult _ hfront hback =>
      subst hrun hresult
      have hpass : ∀ e ∈ front ++ Effect.setInputs x :: (back ++ [Effect.sample token]),
          e.fails = false := by
        rw [List.forall_mem_append, List.forall_mem_cons, List.forall_mem_append,
          List.forall_mem_singleton]
        exact ⟨fails_of_quiet hfront, rfl, fails_of_quiet hback, rfl⟩
      dsimp only
      split_ifs
      · have hend : (Effect.dispatch (.generationCompleted .eos i)).fails = false := rfl
        have hall := List.forall_mem_append.mpr ⟨hpass, List.forall_mem_singleton.mpr hend⟩
        exact iff_of_true (failsSafely_of_forall hall) (passesSucceed_of_forall hall)
      · have hevent : ∀ e ∈ [Effect.dispatch (.tokenGenerated i (r.decode token))],
            e.fails = false := List.forall_mem_singleton.mpr rfl
        have hrest := ih (i + 1) s' [token] (Machine.toInt (pastTokens + tokens.length))
        rw [← failsSafely_append hevent, ← passesSucceed_append hevent] at hrest
        rwa [failsSafely_append hpass, passesSucceed_append hpass, failsSafely_map]
    | @unreserved front back s' hrun hresult =>
      -- the turn goes on with the token `0`: it ends the run or is generated
      subst hrun hresult
      dsimp only
      have hcut (rest : List Effect) :
          Effect.reserve false :: (back ++ [Effect.sample 0] ++ rest) <:+
            front ++ Effect.reserve false :: (back ++ [Effect.sample 0]) ++ rest :=
        ⟨front, by simp only [List.append_assoc, List.cons_append]⟩
      split_ifs
      · refine iff_of_false (fun hsafe => ?_) (fun h => h.1 (by simp))
        obtain ⟨⟨f, hf, -⟩, -⟩ := hsafe _ _ (hcut _) rfl
        cases hf
      · refine iff_of_false (fun hsafe => ?_) (fun h => h.1 (by simp))
        have hevent := (hsafe _ _ (hcut _) rfl).2 (.dispatch (.tokenGenerated i (r.decode 0)))
          (by simp)
        cases hevent
    | @uncomputed front x hrun hresult hfront =>
      subst hrun hresult
      have hfed : ∀ e ∈ front ++ [Effect.setInputs x], e.fails = false := by
        rw [List.forall_mem_append, List.forall_mem_singleton]
        exact ⟨fails_of_quiet hfront, rfl⟩
      have hsplit : front ++ [Effect.setInputs x, Effect.compute false] =
          front ++ [Effect.setInputs x] ++ [Effect.compute false] := by simp
      dsimp only
      rw [hsplit, failsSafely_append hfed, passesSucceed_append hfed]
      constructor
      · intro hsafe
        obtain ⟨⟨f, hf, herror⟩, -⟩ := hsafe (.compute false) [] (List.suffix_refl _) rfl
        cases hf
        exact ⟨by simp, fun _ => herror⟩
      · rintro ⟨-, herror⟩ e after hsuffix he
        rcases List.suffix_cons_iff.mp hsuffix with heq | hnil
        · obtain ⟨rfl, rfl⟩ := List.cons.inj heq
          exact ⟨⟨_, rfl, herror List.mem_cons_self⟩, by simp⟩
        · cases List.suffix_nil.mp hnil
    | faulted f hresult hrun =>
      subst hresult
      have hall : ∀ e ∈ as, e.fails = false := by
        intro e he
        rcases hrun e he with hquiet | ⟨x, rfl⟩
        · exact Effect.fails_of_isQuiet hquiet
        · rfl
      exact iff_of_true (failsSafely_of_forall hall) (passesSucceed_of_forall hall)

/-- A run fails safely if and only if the graphs it builds can be reserved, and are computed if the
null pointer is no error. -/
theorem Backend.invoke_failsSafely_iff (isError : Fault → Prop) (b : Backend K) (r : Request)
    (s : Inference) :
    FailsSafely isError (b.invoke r s).1 (b.invoke r s).2 ↔
      Effect.reserve false ∉ (b.invoke r s).1 ∧
        (Effect.compute false ∈ (b.invoke r s).1 → isError (.undefined "out->ne[1]")) := by
  have hevents : ∀ e ∈ [Effect.dispatch (.tokenizerStarted r.strLen),
      .dispatch (.tokenizerCompleted r.prompt.length)], e.fails = false := by
    rw [List.forall_mem_cons, List.forall_mem_singleton]
    exact ⟨rfl, rfl⟩
  have hloop := b.loop_failsSafely_iff isError r r.maxTokens 0 s r.prompt 0
  rw [← failsSafely_append hevents, ← passesSucceed_append hevents] at hloop
  exact hloop

noncomputable def Backend.unreserved : Backend ℝ :=
  ⟨fourBlocks, 1, 64, expWeight, .ofParams ⟨9 / 10, 0, 7 / 10⟩, fun _ => ⟨false, none, 0⟩⟩

def Request.oneToken : Request := ⟨2, [5], 1, fun _ => literal "!", fun _ => false⟩

theorem Backend.unreserved_run :
    Backend.unreserved.invoke .oneToken (new fourBlocks 1) =
      ([.dispatch (.tokenizerStarted 2), .dispatch (.tokenizerCompleted 1),
        .dispatch (.prefillStarted 1), .predict [5] 0, .reserve false,
        .dispatch (.prefillCompleted 1), .sample 0,
        .dispatch (.tokenGenerated 0 (literal "!")),
        .dispatch (.generationCompleted .maxCtxReached 0)], .ok (literal "!")) := rfl

theorem Backend.unreserved_generates :
    ¬ FailsSafely (fun _ => True) (Backend.unreserved.invoke .oneToken (new fourBlocks 1)).1
      (Backend.unreserved.invoke .oneToken (new fourBlocks 1)).2 := by
  rw [Backend.unreserved_run]
  intro hsafe
  have hcut : _ <:+ _ := List.suffix_append [.dispatch (.tokenizerStarted 2),
    .dispatch (.tokenizerCompleted 1), .dispatch (.prefillStarted 1), .predict [5] 0]
    [Effect.reserve false, .dispatch (.prefillCompleted 1), .sample 0,
      .dispatch (.tokenGenerated 0 (literal "!")), .dispatch (.generationCompleted .maxCtxReached 0)]
  obtain ⟨⟨f, hf, -⟩, -⟩ := hsafe _ _ hcut rfl
  cases hf

end Inference

end ZInferLM
