import ZInferLM.Inference.Events
import ZInferLM.Inference.GraphReuse
import ZInferLM.Inference.Inputs
import ZInferLM.Inference.Invoke
import ZInferLM.Library.Trace
import ZInferLM.Sampling.Samplers

/-! # Forward passes that fail

The generation loop again, with the graph that `predict` keeps, the calls that can fail and the
sampler that turns their result into a token. What the backend answers comes from outside. -/

namespace ZInferLM
open Library Library.Machine Library.Utf8 KvCache Sampling

namespace Inference

/-- What the backend and the random numbers give in a turn: whether the graph can be reserved if it
is built, the logits of the last token unless computing the graph fails, and the draw. -/
structure Turn (K : Type) where
  reserved : Bool
  logits : Option (List K)
  draw : K

/-- What a run works on: the cache and the graph, the sampler, and the answers of the turns. -/
structure Backend (K : Type) [Field K] [LinearOrder K] where
  geometry : Geometry
  layers : ℕ
  maxContextLen : ℕ
  weight : Weight K
  sampler : Sampler K
  turns : ℕ → Turn K

/-- What is asked for: the tokens of the prompt, the number of turns, and the tokenizer's view of a
token. -/
structure Request where
  strLen : ℕ
  prompt : List ℕ
  maxTokens : ℕ
  decode : ℕ → Bytes
  isStop : Bytes → Bool

/-- What a run does, with the answers of the calls that can fail. -/
inductive Effect where
  | dispatch (e : InferenceEvent)
  | predict (tokens : List ℕ) (pastTokens : ℤ)
  | reserve (ok : Bool)
  | setInputs (x : Inputs)
  | compute (ok : Bool)
  | sample (token : ℕ)
  deriving DecidableEq

/-- The graph is built unless one for as many tokens is ready. -/
def builds (s : Inference) (nTokens : ℕ) : Bool := !s.graphReady || nTokens != s.cachedNTokens

/-- An event that is dispatched only while `past_tokens` is `0`. -/
def whilePrefill (pastTokens : ℤ) (e : InferenceEvent) : List Effect :=
  if pastTokens = 0 then [.dispatch e] else []

namespace Backend

variable {K : Type} [Field K] [LinearOrder K]

/-- `predict`: without a reserved graph there are no logits; without a computed one the null pointer
is read, and without tokens the logits in front of the first row. -/
def predict (b : Backend K) (i : ℕ) (s : Inference) (tokens : List ℕ) (pastTokens : ℤ) :
    List Effect × Outcome (Inference × List K) :=
  match s.predict b.geometry b.layers ⟨tokens.length, (b.turns i).reserved⟩ with
  | .error f => ([], .error f)
  | .ok (s', none) => ([.reserve false], .ok (s', []))
  | .ok (s', some _) =>
    let reserves := if s.builds tokens.length then [.reserve true] else []
    match Inference.setInputs b.maxContextLen tokens pastTokens with
    | .error f => (reserves, .error f)
    | .ok x =>
      match (b.turns i).logits with
      | none => (reserves ++ [.setInputs x, .compute false], .error (.undefined "out->ne[1]"))
      | some logits => (reserves ++ [.setInputs x, .compute true],
          if tokens = [] then .error (.undefined "tokens.size() - 1") else .ok (s', logits))

def turn (b : Backend K) (i : ℕ) (s : Inference) (tokens : List ℕ) (pastTokens : ℤ) :
    List Effect × Outcome (Inference × ℕ) :=
  let p := b.predict i s tokens pastTokens
  let front := whilePrefill pastTokens (.prefillStarted tokens.length) ++
    .predict tokens pastTokens :: p.1
  match p.2 with
  | .error f => (front, .error f)
  | .ok (s', logits) =>
    let front := front ++ whilePrefill pastTokens (.prefillCompleted tokens.length)
    match b.sampler.sample b.weight (b.turns i).draw logits with
    | .error f => (front, .error f)
    | .ok (token, _) => (front ++ [.sample token], .ok (s', token))

/-- The loop from turn `i` on with `left` turns to go, and the text it appends to the output. -/
def loop (b : Backend K) (r : Request) : ℕ → ℕ → Inference → List ℕ → ℤ →
    List Effect × Outcome Bytes
  | 0, _, _, _, _ => ([.dispatch (.generationCompleted .maxCtxReached 0)], .ok [])
  | left + 1, i, s, tokens, pastTokens =>
    let t := b.turn i s tokens pastTokens
    match t.2 with
    | .error f => (t.1, .error f)
    | .ok (s', token) =>
      let outToken := r.decode token
      if r.isStop outToken then (t.1 ++ [.dispatch (.generationCompleted .eos i)], .ok [])
      else
        let rest := loop b r left (i + 1) s' [token] (toInt (pastTokens + tokens.length))
        (t.1 ++ .dispatch (.tokenGenerated i outToken) :: rest.1, rest.2.map (outToken ++ ·))

/-- A run of `invoke` behind the tokenizer, and the text it returns. -/
def invoke (b : Backend K) (r : Request) (s : Inference) : List Effect × Outcome Bytes :=
  let rest := b.loop r r.maxTokens 0 s r.prompt 0
  (.dispatch (.tokenizerStarted r.strLen) :: .dispatch (.tokenizerCompleted r.prompt.length) ::
    rest.1, rest.2)

end Backend

namespace Effect

def fails : Effect → Bool
  | .reserve ok => !ok
  | .compute ok => !ok
  | _ => false

/-- What a turn does besides failing, feeding the graph and sampling. -/
def isQuiet : Effect → Bool
  | .setInputs _ => false
  | .sample _ => false
  | e => !e.fails

/-- What has a token as its reason: its event, or a call that it is fed to. -/
def produces : Effect → Bool
  | .dispatch (.tokenGenerated _ _) => true
  | .predict _ _ => true
  | .setInputs _ => true
  | _ => false

theorem fails_of_isQuiet {e : Effect} (h : e.isQuiet = true) : e.fails = false := by
  cases e with
  | setInputs x => cases h
  | sample token => cases h
  | _ => simpa [isQuiet] using h

end Effect

inductive TurnRun (maxContextLen : ℕ) (tokens : List ℕ) (pastTokens : ℤ) (run : List Effect)
    (result : Outcome (Inference × ℕ)) : Prop
  | passed {front back : List Effect} {x : Inputs} (s' : Inference) (token : ℕ)
      (hrun : run = front ++ .setInputs x :: (back ++ [.sample token]))
      (hresult : result = .ok (s', token))
      (hx : Inference.setInputs maxContextLen tokens pastTokens = .ok x)
      (hfront : ∀ e ∈ front, e.isQuiet = true) (hback : ∀ e ∈ back, e.isQuiet = true)
  | unreserved {front back : List Effect} (s' : Inference)
      (hrun : run = front ++ .reserve false :: (back ++ [.sample 0]))
      (hresult : result = .ok (s', 0))
      (hfront : ∀ e ∈ front, e.isQuiet = true) (hback : ∀ e ∈ back, e.isQuiet = true)
  | uncomputed {front : List Effect} {x : Inputs}
      (hrun : run = front ++ [.setInputs x, .compute false])
      (hresult : result = .error (.undefined "out->ne[1]"))
      (hfront : ∀ e ∈ front, e.isQuiet = true)
  | faulted (f : Fault) (hresult : result = .error f)
      (hrun : ∀ e ∈ run, e.isQuiet = true ∨ ∃ x, e = .setInputs x)

theorem isQuiet_whilePrefill {pastTokens : ℤ} {e : InferenceEvent} :
    ∀ a ∈ whilePrefill pastTokens e, a.isQuiet = true := by
  intro a ha
  rw [whilePrefill] at ha
  split_ifs at ha
  · rw [List.mem_singleton.mp ha]
    rfl
  · cases ha

section
variable {K : Type} [Field K] [LinearOrder K]

theorem sample_nil (sampler : Sampler K) (w : Weight K) (draw : K) :
    sampler.sample w draw [] = .ok (0, 0) := rfl

/-- `predict` up to the logits, and why it gives none. -/
theorem Backend.predict_cases (b : Backend K) (i : ℕ) (s : Inference) (tokens : List ℕ)
    (pastTokens : ℤ) :
    (∃ front x s' logits, (∀ e ∈ front, e.isQuiet = true) ∧
      Inference.setInputs b.maxContextLen tokens pastTokens = .ok x ∧
      b.predict i s tokens pastTokens =
        (front ++ [Effect.setInputs x, Effect.compute true], .ok (s', logits))) ∨
    (∃ s', b.predict i s tokens pastTokens = ([.reserve false], .ok (s', []))) ∨
    (∃ front x, (∀ e ∈ front, e.isQuiet = true) ∧ b.predict i s tokens pastTokens =
        (front ++ [Effect.setInputs x, Effect.compute false],
          .error (.undefined "out->ne[1]"))) ∨
    ∃ run f, (∀ e ∈ run, e.isQuiet = true ∨ ∃ x, e = .setInputs x) ∧
      b.predict i s tokens pastTokens = (run, .error f) := by
  have hreserves (c : Bool) : ∀ e ∈ (if c then [Effect.reserve true] else []),
      e.isQuiet = true := by
    intro e he
    split_ifs at he
    · rw [List.mem_singleton.mp he]
      rfl
    · cases he
  rw [Backend.predict]
  cases Inference.predict b.geometry b.layers s ⟨tokens.length, (b.turns i).reserved⟩ with
  | error f => exact .inr (.inr (.inr ⟨[], f, by simp, rfl⟩))
  | ok r =>
    obtain ⟨s', copies⟩ := r
    cases copies with
    | none => exact .inr (.inl ⟨s', rfl⟩)
    | some copies =>
      dsimp only
      cases hx : Inference.setInputs b.maxContextLen tokens pastTokens with
      | error f => exact .inr (.inr (.inr ⟨_, f, fun e he => .inl (hreserves _ e he), rfl⟩))
      | ok x =>
        dsimp only
        cases (b.turns i).logits with
        | none => exact .inr (.inr (.inl ⟨_, x, hreserves _, rfl⟩))
        | some logits =>
          dsimp only
          by_cases hne : tokens = []
          · rw [if_pos hne]
            refine .inr (.inr (.inr ⟨_, _, ?_, rfl⟩))
            rw [List.forall_mem_append]
            refine ⟨fun e he => .inl (hreserves _ e he), ?_⟩
            simp [Effect.isQuiet, Effect.fails]
          · rw [if_neg hne]
            exact .inl ⟨_, x, s', logits, hreserves _, rfl, rfl⟩

/-- Every turn goes one of the ways: without logits the sampler gives the token `0`. -/
theorem Backend.turn_run (b : Backend K) (i : ℕ) (s : Inference) (tokens : List ℕ)
    (pastTokens : ℤ) : TurnRun b.maxContextLen tokens pastTokens
      (b.turn i s tokens pastTokens).1 (b.turn i s tokens pastTokens).2 := by
  have hpre : ∀ e ∈ whilePrefill pastTokens (.prefillStarted tokens.length) ++
      [.predict tokens pastTokens], e.isQuiet = true := by
    rw [List.forall_mem_append, List.forall_mem_singleton]
    exact ⟨isQuiet_whilePrefill, rfl⟩
  have hpost : ∀ e ∈ whilePrefill pastTokens (.prefillCompleted tokens.length),
      e.isQuiet = true := isQuiet_whilePrefill
  have hfront {front : List Effect} (h : ∀ e ∈ front, e.isQuiet = true) :
      ∀ e ∈ whilePrefill pastTokens (.prefillStarted tokens.length) ++
        [.predict tokens pastTokens] ++ front, e.isQuiet = true := by
    rw [List.forall_mem_append]
    exact ⟨hpre, h⟩
  rw [Backend.turn]
  obtain ⟨front, x, s', logits, hq, hx, hpredict⟩ | ⟨s', hpredict⟩ | ⟨front, x, hq, hpredict⟩ |
    ⟨run, f, hq, hpredict⟩ := b.predict_cases i s tokens pastTokens
  · rw [hpredict]
    dsimp only
    cases hsample : b.sampler.sample b.weight (b.turns i).draw logits with
    | error f =>
      apply TurnRun.faulted f rfl
      intro e he
      simp only [List.mem_append, List.mem_cons, List.not_mem_nil, or_false] at he
      rcases he with (he | rfl | he | rfl | rfl) | he
      · exact .inl (isQuiet_whilePrefill e he)
      · exact .inl rfl
      · exact .inl (hq e he)
      · exact .inr ⟨x, rfl⟩
      · exact .inl rfl
      · exact .inl (hpost e he)
    | ok r =>
      have hback : ∀ e ∈ Effect.compute true ::
          whilePrefill pastTokens (.prefillCompleted tokens.length), e.isQuiet = true :=
        List.forall_mem_cons.mpr ⟨rfl, hpost⟩
      refine .passed s' r.1 ?_ rfl hx (hfront hq) hback
      simp only [List.append_assoc, List.cons_append, List.nil_append]
  · rw [hpredict]
    dsimp only
    rw [sample_nil]
    refine .unreserved s' ?_ rfl hpre hpost
    simp only [List.append_assoc, List.cons_append, List.nil_append]
  · rw [hpredict]
    refine .uncomputed (x := x) ?_ rfl (hfront hq)
    simp only [List.append_assoc, List.cons_append, List.nil_append]
  · rw [hpredict]
    apply TurnRun.faulted f rfl
    rw [List.forall_mem_append, List.forall_mem_cons]
    exact ⟨fun e he => .inl (isQuiet_whilePrefill e he), .inl rfl, hq⟩

/-- What a run does as far as the loop over sampled tokens says it. -/
def Effect.action? : Effect → Option Action
  | .dispatch e => some (.dispatch e)
  | .predict tokens pastTokens => some (.predict tokens pastTokens.toNat)
  | .sample token => some (.sample token)
  | _ => none

def Request.generation (r : Request) (samples : ℕ → ℕ) : Generation :=
  ⟨r.strLen, r.prompt, r.maxTokens, samples, r.decode, r.isStop⟩

theorem Request.loop_congr (r : Request) {f g : ℕ → ℕ} {i : ℕ} (h : ∀ j, i ≤ j → f j = g j)
    (left : ℕ) (tokens : List ℕ) (pastTokens : ℕ) :
    (r.generation f).loop left i tokens pastTokens =
      (r.generation g).loop left i tokens pastTokens := by
  induction left generalizing i tokens pastTokens with
  | zero => rfl
  | succ left ih =>
    have hi : (r.generation f).samples i = (r.generation g).samples i := h i (Nat.le_refl i)
    have hstop : (r.generation f).stops i = (r.generation g).stops i := by
      rw [Generation.stops, hi]
      rfl
    have hpass : (r.generation f).pass i tokens pastTokens =
        (r.generation g).pass i tokens pastTokens := by
      rw [Generation.pass, Generation.pass, hi]
    rw [Generation.loop, Generation.loop, hstop, hpass, hi,
      ih (fun j hj => h j (Nat.le_of_succ_le hj))]
    rfl

theorem actions_whilePrefill (q : ℕ) (e : InferenceEvent) :
    (whilePrefill q e).filterMap Effect.action? = Generation.prefill q e := by
  rw [whilePrefill, Generation.prefill]
  simp only [Nat.cast_eq_zero]
  split_ifs <;> rfl

theorem Backend.predict_actions (b : Backend K) (i : ℕ) (s : Inference) (tokens : List ℕ)
    (pastTokens : ℤ) : (b.predict i s tokens pastTokens).1.filterMap Effect.action? = [] := by
  have hreserves (c : Bool) : ([] ++ if c then [Effect.reserve true] else []).filterMap
      Effect.action? = [] := by
    cases c <;> rfl
  rw [Backend.predict]
  split
  · rfl
  · rfl
  · dsimp only
    split
    · exact hreserves _
    · split
      · rw [List.filterMap_append]
        exact congrArg (· ++ []) (hreserves _)
      · rw [List.filterMap_append]
        exact congrArg (· ++ []) (hreserves _)

/-- A turn that samples a token is a turn of the loop over sampled tokens. -/
theorem Backend.turn_actions {b : Backend K} {i : ℕ} {s s' : Inference} {tokens : List ℕ}
    {q token : ℕ} (h : (b.turn i s tokens q).2 = .ok (s', token)) :
    (b.turn i s tokens q).1.filterMap Effect.action? =
      Generation.prefill q (.prefillStarted tokens.length) ++ Action.predict tokens q ::
        (Generation.prefill q (.prefillCompleted tokens.length) ++ [Action.sample token]) := by
  have hpredict := b.predict_actions i s tokens q
  rw [Backend.turn] at h ⊢
  generalize b.predict i s tokens q = p at h hpredict ⊢
  obtain ⟨as, result⟩ := p
  cases result with
  | error f => cases h
  | ok found =>
    dsimp only at h hpredict ⊢
    cases hsample : b.sampler.sample b.weight (b.turns i).draw found.2 with
    | error f =>
      rw [hsample] at h
      cases h
    | ok r =>
      rw [hsample] at h
      obtain ⟨-, rfl⟩ := Prod.mk.inj (Except.ok.inj h)
      simp only [List.filterMap_append, actions_whilePrefill, List.filterMap_cons, Effect.action?,
        hpredict, List.filterMap_nil, Int.toNat_natCast, List.append_assoc, List.cons_append,
        List.nil_append]

theorem Backend.loop_actions (b : Backend K) (r : Request) {left i : ℕ} {s : Inference}
    {tokens : List ℕ} {q : ℕ} {out : Bytes} (hout : (b.loop r left i s tokens q).2 = .ok out)
    (hlen : q + tokens.length + left ≤ 2 ^ 31) :
    ∃ samples, ((b.loop r left i s tokens q).1.filterMap Effect.action?, out) =
      (r.generation samples).loop left i tokens q := by
  induction left generalizing i s tokens q out with
  | zero =>
    cases hout
    exact ⟨fun _ => 0, rfl⟩
  | succ left ih =>
    have hturn (s' : Inference) (token : ℕ)
        (h : (b.turn i s tokens q).2 = .ok (s', token)) := Backend.turn_actions h
    rw [Backend.loop] at hout ⊢
    generalize b.turn i s tokens q = t at hturn hout ⊢
    obtain ⟨as, result⟩ := t
    cases result with
    | error f => cases hout
    | ok found =>
      obtain ⟨s', token⟩ := found
      have has := hturn s' token rfl
      dsimp only at hout has ⊢
      split_ifs at hout ⊢ with hstop
      · cases hout
        refine ⟨fun _ => token, ?_⟩
        have hstops : (r.generation fun _ => token).stops i = true := hstop
        rw [Generation.loop, if_pos hstops, List.filterMap_append, has]
        rfl
      · rw [← Nat.cast_add, toInt_of_lt (by omega)] at hout ⊢
        cases hrest : (b.loop r left (i + 1) s' [token] ((q + tokens.length : ℕ) : ℤ)).2 with
        | error f =>
          rw [hrest] at hout
          cases hout
        | ok out' =>
          rw [hrest] at hout
          cases hout
          obtain ⟨samples, hsamples⟩ := ih hrest (by rw [List.length_singleton]; omega)
          have hupdate : ∀ j, i + 1 ≤ j → Function.update samples i token j = samples j :=
            fun j hj => Function.update_of_ne (by omega) _ _
          have hi : (r.generation (Function.update samples i token)).samples i = token := by
            simp only [Request.generation, Function.update_self]
          have hstops : ¬ (r.generation (Function.update samples i token)).stops i = true := by
            rw [Generation.stops, hi]
            exact hstop
          refine ⟨Function.update samples i token, ?_⟩
          rw [Generation.loop, if_neg hstops]
          dsimp only
          rw [hi, r.loop_congr hupdate, ← hsamples, List.filterMap_append, has, Generation.pass, hi]
          rfl

/-- A run that returns is a run of the loop over sampled tokens, and it returns the same text. -/
theorem Backend.invoke_actions (b : Backend K) (r : Request) {s : Inference} {out : Bytes}
    (hout : (b.invoke r s).2 = .ok out) (hlen : r.prompt.length + r.maxTokens ≤ 2 ^ 31) :
    ∃ samples, (b.invoke r s).1.filterMap Effect.action? = (r.generation samples).trace ∧
      out = (r.generation samples).output := by
  obtain ⟨samples, hloop⟩ := b.loop_actions r hout (by rwa [Nat.zero_add])
  refine ⟨samples, ?_, congrArg Prod.snd hloop⟩
  exact congrArg (fun run : List Action × Bytes => Action.dispatch (.tokenizerStarted r.strLen) ::
    .dispatch (.tokenizerCompleted r.prompt.length) :: run.1) hloop

/-- So its events are those of a generation, whatever the backend answered. -/
theorem Backend.returned_protocol (b : Backend K) (r : Request) {s : Inference} {out : Bytes}
    (hout : (b.invoke r s).2 = .ok out) (hprompt : r.prompt ≠ [])
    (hlen : r.prompt.length + r.maxTokens ≤ 2 ^ 31) :
    ∃ payloads status num, Protocol r.strLen r.prompt.length r.maxTokens r.decode r.isStop
      ((b.invoke r s).1.filterMap Effect.action?) out payloads status num := by
  obtain ⟨samples, hrun, rfl⟩ := b.invoke_actions r hout hlen
  obtain ⟨status, num, hprotocol⟩ := (r.generation samples).trace_protocol hprompt
  refine ⟨(r.generation samples).payloads, status, num, ?_⟩
  rw [hrun]
  exact hprotocol

end

end Inference

end ZInferLM
