import ZInferLM.Inference.Context
import ZInferLM.Tokenizer.RoundTrip

/-! # The events of a generation

The listeners see the events of a run only. Each turn that is not stopped dispatches its token
under the number of the turn, the first one also the events of the prefill, and the run ends with
one event that says why. -/

namespace ZInferLM
open Library Library.Utf8 Tokenizer

namespace Inference

def Action.event? : Action → Option InferenceEvent
  | .dispatch e => some e
  | _ => none

def Action.sampled? : Action → Option ℕ
  | .sample token => some token
  | _ => none

def events (run : List Action) : List InferenceEvent := run.filterMap Action.event?

def sampled (run : List Action) : List ℕ := run.filterMap Action.sampled?

/-- The order of the events of a run that generates the payloads, why it ends, and its output. -/
structure Protocol (strLen numTokens maxTokens : ℕ) (decode : ℕ → Bytes) (isStop : Bytes → Bool)
    (run : List Action) (output : Bytes) (payloads : List Bytes) (status : StreamStatus)
    (num : ℕ) : Prop where
  order : events run = [.tokenizerStarted strLen, .tokenizerCompleted numTokens] ++
    (if maxTokens = 0 then [] else [.prefillStarted numTokens, .prefillCompleted numTokens]) ++
    payloads.mapIdx .tokenGenerated ++ [.generationCompleted status num]
  count : payloads.length ≤ maxTokens
  eos : status = .eos ↔ ∃ token, (sampled run)[payloads.length]? = some token ∧
    isStop (decode token) = true
  maxCtxReached : status = .maxCtxReached ↔ payloads.length = maxTokens
  decoded : payloads <+: (sampled run).map decode
  output : output = payloads.flatten
  noStop : ∀ payload ∈ payloads, isStop payload = false

namespace Generation

/-- The turns from turn `i` on that generate a token. -/
def turns (gen : Generation) : ℕ → ℕ → ℕ
  | 0, _ => 0
  | left + 1, i => if gen.stops i then 0 else turns gen left (i + 1) + 1

theorem turns_le (gen : Generation) (left i : ℕ) : gen.turns left i ≤ left := by
  induction left generalizing i with
  | zero => exact Nat.le_refl 0
  | succ left ih =>
    rw [turns]
    split_ifs
    · exact Nat.zero_le _
    · exact Nat.succ_le_succ (ih (i + 1))

theorem goesOn_turns (gen : Generation) (left i : ℕ) : gen.GoesOn i (gen.turns left i) := by
  induction left generalizing i with
  | zero => exact fun k hk => absurd hk (Nat.not_lt_zero k)
  | succ left ih =>
    rw [turns]
    split_ifs with hstop
    · exact fun k hk => absurd hk (Nat.not_lt_zero k)
    · exact (gen.goesOn_succ i _).mpr ⟨Bool.eq_false_of_not_eq_true hstop, ih (i + 1)⟩

theorem stops_turns (gen : Generation) {left i : ℕ} (h : gen.turns left i < left) :
    gen.stops (i + gen.turns left i) = true := by
  induction left generalizing i with
  | zero => exact absurd h (Nat.not_lt_zero _)
  | succ left ih =>
    by_cases hstop : gen.stops i = true
    · rwa [turns, if_pos hstop]
    · rw [turns, if_neg hstop] at h ⊢
      have hrest := ih (Nat.lt_of_succ_lt_succ h)
      rwa [Nat.add_assoc, Nat.add_comm 1] at hrest

theorem lt_turns_iff (gen : Generation) (left i j : ℕ) :
    j < gen.turns left i ↔ j < left ∧ ∀ k ≤ j, gen.stops (i + k) = false := by
  constructor
  · intro h
    exact ⟨h.trans_le (gen.turns_le left i),
      fun k hk => gen.goesOn_turns left i k (hk.trans_lt h)⟩
  · rintro ⟨hj, hgo⟩
    by_contra hge
    have hle := not_lt.mp hge
    have hstop := gen.stops_turns (hle.trans_lt hj)
    rw [hgo _ hle] at hstop
    cases hstop

theorem turns_of_goesOn (gen : Generation) {left i : ℕ} (h : gen.GoesOn i left) :
    gen.turns left i = left := by
  apply Nat.le_antisymm (gen.turns_le left i)
  by_contra hlt
  have hstop := gen.stops_turns (not_le.mp hlt)
  rw [h _ (not_le.mp hlt)] at hstop
  cases hstop

def completion (gen : Generation) (left i : ℕ) : InferenceEvent :=
  if gen.turns left i = left then .generationCompleted .maxCtxReached 0
  else .generationCompleted .eos (i + gen.turns left i)

theorem completion_stop {gen : Generation} {i : ℕ} (h : gen.stops i = true) (left : ℕ) :
    gen.completion (left + 1) i = .generationCompleted .eos i := by
  rw [completion, turns, if_pos h, if_neg (Nat.succ_ne_zero left).symm, Nat.add_zero]

theorem completion_goOn {gen : Generation} {i : ℕ} (h : gen.stops i = false) (left : ℕ) :
    gen.completion (left + 1) i = gen.completion left (i + 1) := by
  have hturns : gen.turns (left + 1) i = gen.turns left (i + 1) + 1 := by
    rw [turns, h, if_neg Bool.false_ne_true]
  have hindex : i + (gen.turns left (i + 1) + 1) = i + 1 + gen.turns left (i + 1) := by omega
  simp only [completion, hturns, hindex, Nat.add_right_cancel_iff]

def prefillEvents (pastTokens numTokens : ℕ) : List InferenceEvent :=
  if pastTokens = 0 then [.prefillStarted numTokens, .prefillCompleted numTokens] else []

@[simp] theorem events_dispatch (e : InferenceEvent) (as : List Action) :
    events (.dispatch e :: as) = e :: events as := rfl

@[simp] theorem sampled_dispatch (e : InferenceEvent) (as : List Action) :
    sampled (.dispatch e :: as) = sampled as := rfl

@[simp] theorem events_nil : events [] = [] := rfl

@[simp] theorem sampled_nil : sampled [] = [] := rfl

theorem events_append (as bs : List Action) : events (as ++ bs) = events as ++ events bs :=
  List.filterMap_append

theorem sampled_append (as bs : List Action) : sampled (as ++ bs) = sampled as ++ sampled bs :=
  List.filterMap_append

theorem events_pass (gen : Generation) (i : ℕ) (tokens : List ℕ) (pastTokens : ℕ) :
    events (gen.pass i tokens pastTokens) = prefillEvents pastTokens tokens.length := by
  rw [pass, prefill, prefill, prefillEvents]
  split_ifs <;> rfl

theorem sampled_pass (gen : Generation) (i : ℕ) (tokens : List ℕ) (pastTokens : ℕ) :
    sampled (gen.pass i tokens pastTokens) = [gen.samples i] := by
  rw [pass, prefill, prefill]
  split_ifs <;> rfl

def tokenEvent (gen : Generation) (i : ℕ) : InferenceEvent :=
  .tokenGenerated i (gen.decode (gen.samples i))

/-- The events of a loop: those of the prefill, a token for every turn, and the completion. -/
theorem events_loop (gen : Generation) (left i : ℕ) (tokens : List ℕ) (pastTokens : ℕ)
    (h : 0 < pastTokens + tokens.length) :
    events (gen.loop left i tokens pastTokens).1 =
      (if left = 0 then [] else prefillEvents pastTokens tokens.length) ++
        (List.range' i (gen.turns left i)).map gen.tokenEvent ++ [gen.completion left i] := by
  induction left generalizing i tokens pastTokens with
  | zero => rfl
  | succ left ih =>
    rw [loop, if_neg (Nat.succ_ne_zero left)]
    cases hstop : gen.stops i with
    | true =>
      rw [if_pos rfl, completion_stop hstop, turns, if_pos hstop]
      simp [events_append, events_pass]
    | false =>
      have hlater : prefillEvents (pastTokens + tokens.length) 1 = [] := if_neg (Nat.ne_of_gt h)
      have hrest := ih (i + 1) [gen.samples i] (pastTokens + tokens.length) (by omega)
      rw [List.length_singleton, hlater, ite_self, List.nil_append] at hrest
      rw [if_neg Bool.false_ne_true, completion_goOn hstop, turns, hstop,
        if_neg Bool.false_ne_true, List.range'_succ]
      simp [events_append, events_pass, hrest, tokenEvent]

theorem sampled_loop (gen : Generation) (left i : ℕ) (tokens : List ℕ) (pastTokens : ℕ) :
    sampled (gen.loop left i tokens pastTokens).1 =
      (List.range' i (min left (gen.turns left i + 1))).map gen.samples := by
  induction left generalizing i tokens pastTokens with
  | zero => simp [loop]
  | succ left ih =>
    rw [loop, turns]
    cases hstop : gen.stops i with
    | true =>
      simp [sampled_append, sampled_pass]
    | false =>
      rw [if_neg Bool.false_ne_true, if_neg Bool.false_ne_true, Nat.add_min_add_right,
        List.range'_succ]
      simp [sampled_append, sampled_pass, ih]

theorem output_loop (gen : Generation) (left i : ℕ) (tokens : List ℕ) (pastTokens : ℕ) :
    (gen.loop left i tokens pastTokens).2 =
      ((List.range' i (gen.turns left i)).map fun j => gen.decode (gen.samples j)).flatten := by
  induction left generalizing i tokens pastTokens with
  | zero => rfl
  | succ left ih =>
    rw [loop, turns]
    cases hstop : gen.stops i with
    | true => rfl
    | false =>
      rw [if_neg Bool.false_ne_true, if_neg Bool.false_ne_true, List.range'_succ]
      change _ ++ _ = _
      rw [ih]
      rfl

def payloads (gen : Generation) : List Bytes :=
  (List.range (gen.turns gen.maxTokens 0)).map fun j => gen.decode (gen.samples j)

theorem length_payloads (gen : Generation) :
    gen.payloads.length = gen.turns gen.maxTokens 0 := by
  rw [payloads, List.length_map, List.length_range]

theorem output_eq (gen : Generation) : gen.output = gen.payloads.flatten := by
  rw [output, output_loop, payloads, List.range_eq_range']

theorem sampled_trace (gen : Generation) : sampled gen.trace =
    (List.range (min gen.maxTokens (gen.turns gen.maxTokens 0 + 1))).map gen.samples := by
  rw [List.range_eq_range', ← gen.sampled_loop gen.maxTokens 0 gen.prompt 0]
  rfl

theorem noStop_payloads (gen : Generation) : ∀ payload ∈ gen.payloads,
    gen.isStop payload = false := by
  intro payload hmem
  rcases List.mem_map.mp hmem with ⟨j, hj, rfl⟩
  have hgo := gen.goesOn_turns gen.maxTokens 0 j (List.mem_range.mp hj)
  rwa [Nat.zero_add] at hgo

theorem tokenEvents_eq (gen : Generation) :
    (List.range' 0 (gen.turns gen.maxTokens 0)).map gen.tokenEvent =
      gen.payloads.mapIdx .tokenGenerated := by
  apply List.ext_getElem
  · rw [List.length_map, List.length_range', List.length_mapIdx, length_payloads]
  · intro j _ _
    simp [payloads, tokenEvent]

theorem events_trace (gen : Generation) (h : gen.prompt ≠ []) :
    events gen.trace =
      ([.tokenizerStarted gen.strLen, .tokenizerCompleted gen.prompt.length] : List InferenceEvent) ++
        (if gen.maxTokens = 0 then []
          else [.prefillStarted gen.prompt.length, .prefillCompleted gen.prompt.length]) ++
        gen.payloads.mapIdx .tokenGenerated ++ [gen.completion gen.maxTokens 0] := by
  have hpos : 0 < 0 + gen.prompt.length := by
    rw [Nat.zero_add]
    exact List.length_pos_of_ne_nil h
  change _ :: _ :: events (gen.loop gen.maxTokens 0 gen.prompt 0).1 = _
  rw [gen.events_loop _ _ _ _ hpos, tokenEvents_eq, prefillEvents, if_pos rfl, List.append_assoc,
    List.append_assoc, List.append_assoc]
  rfl

/-- A stop token is sampled behind the generated ones if and only if turns are left. -/
theorem sampled_stop_iff (gen : Generation) :
    (∃ token, (sampled gen.trace)[gen.payloads.length]? = some token ∧
      gen.isStop (gen.decode token) = true) ↔ gen.turns gen.maxTokens 0 < gen.maxTokens := by
  rw [sampled_trace, length_payloads, List.getElem?_map]
  constructor
  · rintro ⟨token, hget, _⟩
    by_contra hge
    rw [List.getElem?_eq_none (by rw [List.length_range]; omega)] at hget
    cases hget
  · intro hlt
    refine ⟨gen.samples (gen.turns gen.maxTokens 0), ?_, ?_⟩
    · rw [List.getElem?_range (by omega), Option.map_some]
    · have hstop := gen.stops_turns hlt
      rwa [Nat.zero_add] at hstop

theorem payloads_prefix (gen : Generation) :
    gen.payloads <+: (sampled gen.trace).map gen.decode := by
  have hle := gen.turns_le gen.maxTokens 0
  rw [sampled_trace, List.map_map]
  apply List.IsPrefix.map
  refine ⟨List.range' (gen.turns gen.maxTokens 0)
    (min gen.maxTokens (gen.turns gen.maxTokens 0 + 1) - gen.turns gen.maxTokens 0), ?_⟩
  have happend := @List.range'_append_1 0 (gen.turns gen.maxTokens 0)
    (min gen.maxTokens (gen.turns gen.maxTokens 0 + 1) - gen.turns gen.maxTokens 0)
  rw [Nat.zero_add] at happend
  rw [List.range_eq_range', List.range_eq_range', happend]
  congr 1
  omega

theorem trace_protocol (gen : Generation) (h : gen.prompt ≠ []) :
    ∃ status num, Protocol gen.strLen gen.prompt.length gen.maxTokens gen.decode gen.isStop
      gen.trace gen.output gen.payloads status num := by
  have hle := gen.turns_le gen.maxTokens 0
  have horder := gen.events_trace h
  by_cases hall : gen.turns gen.maxTokens 0 = gen.maxTokens
  · rw [completion, if_pos hall] at horder
    refine ⟨.maxCtxReached, 0, horder, ?_, ?_, ?_, gen.payloads_prefix, gen.output_eq,
      gen.noStop_payloads⟩
    · rwa [length_payloads]
    · rw [sampled_stop_iff]
      exact iff_of_false (fun he => by cases he) (fun hlt => Nat.ne_of_lt hlt hall)
    · rw [length_payloads]
      exact iff_of_true rfl hall
  · rw [completion, if_neg hall] at horder
    refine ⟨.eos, _, horder, ?_, ?_, ?_, gen.payloads_prefix, gen.output_eq, gen.noStop_payloads⟩
    · rwa [length_payloads]
    · rw [sampled_stop_iff]
      exact iff_of_true rfl (Nat.lt_of_le_of_ne hle hall)
    · rw [length_payloads]
      exact iff_of_false (fun he => by cases he) hall

end Generation

variable {t t' : TokenizerImpl} {m : Pcre2} {fuel : ℕ} {input : Bytes} {ids : List ℕ}

/-- Every run of a prompt that has tokens follows the protocol of the events. -/
theorem invoke_protocol (h : t.tokenize m fuel input = .ok (ids, t')) (hids : ids ≠ [])
    (samples : ℕ → ℕ) (maxTokens : ℕ) :
    ∃ run output, invoke t m fuel samples input maxTokens = .ok (run, output) ∧
      ∃ payloads status num, Protocol input.length ids.length maxTokens t'.decode t'.isStopToken
        run output payloads status num := by
  obtain ⟨gen, hgen, hinvoke⟩ := invoke_eq h samples maxTokens
  refine ⟨gen.trace, gen.output, hinvoke, gen.payloads, ?_⟩
  have hprompt : gen.prompt ≠ [] := by rwa [hgen]
  have hprotocol := gen.trace_protocol hprompt
  subst hgen
  exact hprotocol

theorem invoke_protocol_greeting :
    ∃ t, TokenizerImpl.forModel greetingInfo = .ok t ∧ ∃ ids : List ℕ, ∃ t' : TokenizerImpl,
      ∃ run output,
        invoke t (.reference asciiTable) 3 (fun _ => 104) (literal "hi") 2 = .ok (run, output) ∧
          ∃ payloads status num, Protocol 2 ids.length 2 t'.decode t'.isStopToken run output
            payloads status num := by
  obtain ⟨t, ht⟩ := forModel_ok greetingInfo_complete.types
  have hbuilt := forModel_builtFrom greetingInfo_complete.types ht
  obtain ⟨ids, t', htok, hdecode⟩ :=
    hbuilt.exists_ids (Pcre2.reference_leftmostOrdered asciiTable) greetingInfo_complete (.inl rfl)
      (valid_encode "hi".toList) (Nat.lt_succ_self 2)
  have hids : ids ≠ [] := by
    rintro rfl
    cases hdecode
  obtain ⟨run, output, hrun, hprotocol⟩ := invoke_protocol htok hids (fun _ => 104) 2
  exact ⟨t, ht, ids, t', run, output, hrun, hprotocol⟩

end Inference

end ZInferLM
