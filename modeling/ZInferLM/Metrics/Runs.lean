import ZInferLM.Metrics.Collector

/-! # The metrics of a complete run

A run dispatches the two events of the tokenizer, one event for each token and the completion, and
in between the events of the prefill. -/

namespace ZInferLM
open Library

def Events.InferenceEvent.isPrefill : Events.InferenceEvent → Bool
  | prefillStarted | prefillCompleted => true
  | _ => false

namespace Inference

namespace Generation

theorem filter_prefillEvents (pastTokens numTokens : ℕ) :
    (prefillEvents pastTokens numTokens).filter (!·.name.isPrefill) = [] := by
  rw [prefillEvents]
  split_ifs <;> rfl

/-- The events of a loop but for those of the prefill, which an empty prompt repeats. -/
theorem filter_events_loop (gen : Generation) (left i : ℕ) (tokens : List ℕ) (pastTokens : ℕ) :
    (events (gen.loop left i tokens pastTokens).1).filter (!·.name.isPrefill) =
      (List.range' i (gen.turns left i)).map gen.tokenEvent ++ [gen.completion left i] := by
  induction left generalizing i tokens pastTokens with
  | zero => rfl
  | succ left ih =>
    rw [loop]
    cases hstop : gen.stops i with
    | true =>
      rw [if_pos rfl, completion_stop hstop, turns, if_pos hstop, events_append, events_pass,
        List.filter_append, filter_prefillEvents]
      rfl
    | false =>
      rw [if_neg Bool.false_ne_true, completion_goOn hstop, turns, hstop,
        if_neg Bool.false_ne_true, List.range'_succ]
      dsimp only
      rw [events_append, events_pass, List.filter_append, filter_prefillEvents, events_dispatch,
        List.filter_cons_of_pos rfl, ih]
      rfl

theorem filter_events_trace (gen : Generation) :
    (events gen.trace).filter (!·.name.isPrefill) =
      .tokenizerStarted gen.strLen :: .tokenizerCompleted gen.prompt.length ::
        ((List.range' 0 (gen.turns gen.maxTokens 0)).map gen.tokenEvent ++
          [gen.completion gen.maxTokens 0]) := by
  rw [← gen.filter_events_loop gen.maxTokens 0 gen.prompt 0]
  rfl

/-- A completion without a stop token does not count the tokens. -/
theorem completion_eq (gen : Generation) (left i : ℕ) :
    ∃ status, gen.completion left i = .generationCompleted status
      (if gen.turns left i = left then 0 else i + gen.turns left i) := by
  rw [completion]
  split_ifs <;> exact ⟨_, rfl⟩

theorem turns_lt_iff (gen : Generation) (left i : ℕ) :
    gen.turns left i < left ↔ ∃ k < left, gen.stops (i + k) = true := by
  constructor
  · intro h
    exact ⟨_, h, gen.stops_turns h⟩
  · rintro ⟨k, hk, hstop⟩
    by_contra hge
    have hgo := gen.goesOn_turns left i k (by omega)
    rw [hstop] at hgo
    cases hgo

end Generation

end Inference

namespace Metrics
open Inference LLMMetricsCollector

/-- The events of one run of `invoke`, with any time stamps. -/
structure CompleteRun where
  generation : Generation
  events : List TimedEvent
  complete : events.map TimedEvent.event = Inference.events generation.trace

namespace CompleteRun

def time (run : CompleteRun) (name : Events.InferenceEvent) : TimePoint :=
  ((run.events.find? fun e => e.event.name = name).map TimedEvent.timestamp).getD 0

/-- The events of a run, but for those of the prefill. -/
structure Shape (run : CompleteRun) (started tokenized : TimedEvent) (tokens : List TimedEvent)
    (completed : TimedEvent) : Prop where
  events : run.events.filter (fun e => !e.event.name.isPrefill) =
    started :: tokenized :: (tokens ++ [completed])
  started : started.event = .tokenizerStarted run.generation.strLen
  tokenized : tokenized.event = .tokenizerCompleted run.generation.prompt.length
  tokens : tokens.map TimedEvent.event =
    (List.range' 0 (run.generation.turns run.generation.maxTokens 0)).map
      run.generation.tokenEvent
  completed : completed.event = run.generation.completion run.generation.maxTokens 0

theorem exists_shape (run : CompleteRun) :
    ∃ started tokenized tokens completed, Shape run started tokenized tokens completed := by
  have hfilter := run.generation.filter_events_trace
  rw [← run.complete, List.filter_map] at hfilter
  obtain ⟨started, rest, hevents, hstarted, hrest⟩ := List.map_eq_cons_iff.mp hfilter
  obtain ⟨tokenized, rest, rfl, htokenized, hrest⟩ := List.map_eq_cons_iff.mp hrest
  obtain ⟨tokens, last, rfl, htokens, hlast⟩ := List.map_eq_append_iff.mp hrest
  obtain ⟨completed, rfl, hcompleted⟩ := List.map_eq_singleton_iff.mp hlast
  exact ⟨started, tokenized, tokens, completed, hevents, hstarted, htokenized, htokens, hcompleted⟩

variable {run : CompleteRun} {started tokenized completed : TimedEvent} {tokens : List TimedEvent}

namespace Shape

theorem length_tokens (h : Shape run started tokenized tokens completed) :
    tokens.length = run.generation.payloads.length := by
  have hlength := congrArg List.length h.tokens
  rwa [List.length_map, List.length_map, List.length_range', ← Generation.length_payloads]
    at hlength

theorem token_event (h : Shape run started tokenized tokens completed) (j : ℕ)
    (hj : j < tokens.length) : tokens[j].event = run.generation.tokenEvent j := by
  have hget := List.getElem_of_eq h.tokens (i := j) (by rwa [List.length_map])
  rw [List.getElem_map, List.getElem_map, List.getElem_range', Nat.zero_add, Nat.one_mul] at hget
  exact hget

theorem exists_token (h : Shape run started tokenized tokens completed) {e : TimedEvent}
    (he : e ∈ tokens) : ∃ j, e.event = run.generation.tokenEvent j := by
  obtain ⟨j, hj, rfl⟩ := List.getElem_of_mem he
  exact ⟨j, h.token_event j hj⟩

/-- The first token is the one with the number `0`, and no later one has it. -/
theorem tokens_cons {first : TimedEvent} {rest : List TimedEvent}
    (h : Shape run started tokenized (first :: rest) completed) :
    first.event = run.generation.tokenEvent 0 ∧
      ∀ e ∈ rest, ∃ j, e.event = run.generation.tokenEvent (j + 1) := by
  refine ⟨h.token_event 0 (Nat.succ_pos _), ?_⟩
  intro e he
  obtain ⟨j, hj, rfl⟩ := List.getElem_of_mem he
  exact ⟨j, h.token_event (j + 1) (Nat.succ_lt_succ hj)⟩

theorem time_eq (h : Shape run started tokenized tokens completed) (before : List TimedEvent)
    {after : List TimedEvent} {e : TimedEvent}
    (hsplit : started :: tokenized :: (tokens ++ [completed]) = before ++ e :: after)
    (hprefill : e.event.name.isPrefill = false)
    (hbefore : ∀ x ∈ before, x.event.name ≠ e.event.name) :
    run.time e.event.name = e.timestamp := by
  have hkept (x : TimedEvent) : decide ((!x.event.name.isPrefill) = true ∧
      decide (x.event.name = e.event.name) = true) = decide (x.event.name = e.event.name) := by
    by_cases hx : x.event.name = e.event.name
    · simp [hx, hprefill]
    · simp [hx]
  have hnone : before.find? (fun x => x.event.name = e.event.name) = none := by
    simpa only [List.find?_eq_none, decide_eq_true_eq] using hbefore
  have hfind := @List.find?_filter _ run.events (fun x => !x.event.name.isPrefill)
    (fun x => x.event.name = e.event.name)
  simp only [hkept] at hfind
  rw [time, ← hfind, h.events, hsplit, List.find?_append, hnone]
  simp

theorem name_completed (h : Shape run started tokenized tokens completed) :
    completed.event.name = .generationCompleted := by
  obtain ⟨status, hcompletion⟩ :=
    run.generation.completion_eq run.generation.maxTokens 0
  rw [h.completed, hcompletion]
  rfl

theorem time_tokenizerStarted (h : Shape run started tokenized tokens completed) :
    run.time .tokenizerStarted = started.timestamp := by
  have hname : started.event.name = .tokenizerStarted := by rw [h.started]; rfl
  rw [← hname]
  exact h.time_eq [] rfl (by rw [hname]; rfl) nofun

theorem time_tokenizerCompleted (h : Shape run started tokenized tokens completed) :
    run.time .tokenizerCompleted = tokenized.timestamp := by
  have hname : tokenized.event.name = .tokenizerCompleted := by rw [h.tokenized]; rfl
  rw [← hname]
  apply h.time_eq [started] rfl (by rw [hname]; rfl)
  rw [List.forall_mem_singleton, h.started, hname]
  nofun

theorem time_tokenGenerated {first : TimedEvent} {rest : List TimedEvent}
    (h : Shape run started tokenized (first :: rest) completed) :
    run.time .tokenGenerated = first.timestamp := by
  have hname : first.event.name = .tokenGenerated := by rw [h.tokens_cons.1]; rfl
  rw [← hname]
  apply h.time_eq [started, tokenized] rfl (by rw [hname]; rfl)
  rw [List.forall_mem_cons, List.forall_mem_singleton, h.started, h.tokenized, hname]
  exact ⟨nofun, nofun⟩

theorem time_generationCompleted (h : Shape run started tokenized tokens completed) :
    run.time .generationCompleted = completed.timestamp := by
  rw [← h.name_completed]
  apply h.time_eq (started :: tokenized :: tokens) rfl (by rw [h.name_completed]; rfl)
  rw [List.forall_mem_cons, List.forall_mem_cons, h.started, h.tokenized, h.name_completed]
  refine ⟨nofun, nofun, ?_⟩
  intro e he
  obtain ⟨j, hj⟩ := h.exists_token he
  rw [hj]
  nofun

theorem countP_tokenGenerated (h : Shape run started tokenized tokens completed) :
    run.events.countP (fun e => e.event.name = .tokenGenerated) =
      run.generation.payloads.length := by
  have hkept (e : TimedEvent) : (decide (e.event.name = .tokenGenerated) &&
      !e.event.name.isPrefill) = decide (e.event.name = .tokenGenerated) := by
    cases e.event.name <;> rfl
  have htokens : tokens.countP (fun e => e.event.name = .tokenGenerated) = tokens.length := by
    rw [List.countP_eq_length]
    intro e he
    obtain ⟨j, hj⟩ := h.exists_token he
    rw [hj]
    rfl
  have hcount := List.countP_filter (p := fun e : TimedEvent => e.event.name = .tokenGenerated)
    (q := fun e => !e.event.name.isPrefill) (l := run.events)
  simp only [hkept] at hcount
  rw [← hcount, h.events, List.countP_cons_of_neg (by rw [h.started]; nofun),
    List.countP_cons_of_neg (by rw [h.tokenized]; nofun), List.countP_append, htokens,
    List.countP_cons_of_neg (by rw [h.name_completed]; nofun), h.length_tokens]
  rfl

theorem latest_events {β : Type} (h : Shape run started tokenized tokens completed)
    {write : TimedEvent → Option β} (hwrite : ∀ e, e.event.name.isPrefill = true → write e = none)
    (old : β) : latest write old run.events =
      latest write old (started :: tokenized :: (tokens ++ [completed])) := by
  rw [← h.events, latest_filter]
  intro e he
  exact hwrite e (by simpa using he)

theorem latest_tokenized {β : Type} (h : Shape run started tokenized tokens completed)
    {write : TimedEvent → Option β} {b : β} (hwrite : write tokenized = some b)
    (hrest : ∀ e, e.event.name ≠ .tokenizerStarted → e.event.name ≠ .tokenizerCompleted →
      write e = none) (old : β) : latest write old run.events = b := by
  rw [h.latest_events fun e he => hrest e (by intro hn; rw [hn] at he; cases he)
    (by intro hn; rw [hn] at he; cases he)]
  apply latest_append_cons [started] hwrite
  intro e he
  rcases List.mem_append.mp he with he | he
  · obtain ⟨j, hj⟩ := h.exists_token he
    apply hrest <;> rw [hj] <;> nofun
  · rw [List.mem_singleton.mp he]
    apply hrest <;> rw [h.name_completed] <;> nofun

theorem latest_completed {β : Type} (h : Shape run started tokenized tokens completed)
    {write : TimedEvent → Option β} {b : β} (hwrite : write completed = some b)
    (hprefill : ∀ e, e.event.name.isPrefill = true → write e = none) (old : β) :
    latest write old run.events = b := by
  rw [h.latest_events hprefill]
  exact latest_append_cons (started :: tokenized :: tokens) hwrite nofun

theorem tokenizerStart (h : Shape run started tokenized tokens completed) (old : TimePoint) :
    latest tokenizerStart? old run.events = tokenized.timestamp := by
  apply h.latest_tokenized
  · rw [tokenizerStart?, h.tokenized]
  · rintro ⟨t, e⟩ hstarted htokenized
    cases e <;> first | rfl | contradiction

theorem inpTokens (h : Shape run started tokenized tokens completed) (old : ℕ) :
    latest inpTokens? old run.events = run.generation.prompt.length % 2 ^ 32 := by
  apply h.latest_tokenized
  · rw [inpTokens?, h.tokenized]
  · rintro ⟨t, e⟩ hstarted htokenized
    cases e <;> first | rfl | contradiction

theorem generationCompleted (h : Shape run started tokenized tokens completed) (old : TimePoint) :
    latest generationCompleted? old run.events = completed.timestamp := by
  obtain ⟨status, hcompletion⟩ := run.generation.completion_eq run.generation.maxTokens 0
  apply h.latest_completed
  · rw [generationCompleted?, h.completed, hcompletion]
  · rintro ⟨t, e⟩ hprefill
    cases e <;> first | rfl | contradiction

theorem outTokens (h : Shape run started tokenized tokens completed) (old : ℕ) :
    latest outTokens? old run.events =
      if ∃ k < run.generation.maxTokens, run.generation.stops k = true then
        run.generation.payloads.length
      else 0 := by
  obtain ⟨status, hcompletion⟩ := run.generation.completion_eq run.generation.maxTokens 0
  have hstop := run.generation.turns_lt_iff run.generation.maxTokens 0
  have hle := run.generation.turns_le run.generation.maxTokens 0
  simp only [Nat.zero_add] at hcompletion hstop
  apply h.latest_completed
  · rw [outTokens?, h.completed, hcompletion, Generation.length_payloads]
    simp only [← hstop]
    split_ifs <;> first | rfl | omega
  · rintro ⟨t, e⟩ hprefill
    cases e <;> first | rfl | contradiction

theorem firstToken?_eq_none {e : TimedEvent} (h : e.event.name ≠ .tokenGenerated) :
    firstToken? e = none := by
  obtain ⟨t, event⟩ := e
  cases event <;> first | rfl | contradiction

theorem latest_firstToken (h : Shape run started tokenized tokens completed) (old : TimePoint) :
    latest firstToken? old run.events = latest firstToken? old tokens := by
  have hstarted : firstToken? started = none := by rw [firstToken?, h.started]
  have htokenized : firstToken? tokenized = none := by rw [firstToken?, h.tokenized]
  have hcompleted : firstToken? completed = none :=
    firstToken?_eq_none (by simp [h.name_completed])
  have hprefill (e : TimedEvent) (he : e.event.name.isPrefill = true) : firstToken? e = none := by
    apply firstToken?_eq_none
    intro hname
    rw [hname] at he
    cases he
  rw [h.latest_events hprefill, latest_cons, latest_cons, latest_append, latest_cons, hstarted,
    htokenized, hcompleted]
  rfl

/-- Without a token the old time is left over. -/
theorem firstToken (h : Shape run started tokenized tokens completed) (old : TimePoint) :
    latest firstToken? old run.events =
      if 0 < run.generation.payloads.length then run.time .tokenGenerated else old := by
  rw [h.latest_firstToken, ← h.length_tokens]
  cases tokens with
  | nil => rfl
  | cons first rest =>
    rw [List.length_cons, if_pos (Nat.succ_pos _), h.time_tokenGenerated]
    obtain ⟨hfirst, hrest⟩ := h.tokens_cons
    apply latest_append_cons []
    · rw [firstToken?, hfirst]
      rfl
    · intro e he
      obtain ⟨j, hj⟩ := hrest e he
      rw [firstToken?, hj]
      rfl

end Shape

/-- What a complete run leaves in the fields that the metrics are computed from, apart from the
times of the prefill. -/
structure Recorded (run : CompleteRun) (c c' : LLMMetricsCollector) : Prop where
  tokenizerStartTime : c'.tokenizerStartTime = run.time .tokenizerCompleted
  firstTokenGeneratedTime : c'.firstTokenGeneratedTime =
    if 0 < run.generation.payloads.length then run.time .tokenGenerated
    else c.firstTokenGeneratedTime
  generationCompletedTimeT : c'.generationCompletedTimeT = run.time .generationCompleted
  outTokens : c'.outTokens =
    if ∃ k < run.generation.maxTokens, run.generation.stops k = true then
      run.generation.payloads.length
    else 0
  inpTokens : c'.inpTokens = run.generation.prompt.length % 2 ^ 32

theorem recorded (run : CompleteRun) (c : LLMMetricsCollector) :
    run.Recorded c (c.observeAll run.events) := by
  obtain ⟨started, tokenized, tokens, completed, h⟩ := run.exists_shape
  rw [observeAll_eq]
  constructor
  · exact (h.tokenizerStart _).trans h.time_tokenizerCompleted.symm
  · exact h.firstToken _
  · exact (h.generationCompleted _).trans h.time_generationCompleted.symm
  · exact h.outTokens _
  · exact h.inpTokens _

/-- The tokenizer is done behind its start and in front of the first token and the completion. -/
theorem elapsed_nonneg (run : CompleteRun)
    (h : (run.events.map TimedEvent.timestamp).Pairwise (· ≤ ·))
    (htoken : 0 < run.generation.payloads.length) :
    0 ≤ elapsed (run.time .tokenizerStarted) (run.time .tokenizerCompleted) ∧
      0 ≤ elapsed (run.time .tokenizerCompleted) (run.time .tokenGenerated) ∧
      0 ≤ elapsed (run.time .tokenizerCompleted) (run.time .generationCompleted) := by
  obtain ⟨started, tokenized, tokens, completed, hshape⟩ := run.exists_shape
  have hordered := (h.sublist (List.filter_sublist.map _) : List.Pairwise (· ≤ ·)
    ((run.events.filter fun e => !e.event.name.isPrefill).map TimedEvent.timestamp))
  rw [hshape.events] at hordered
  rw [← hshape.length_tokens] at htoken
  obtain ⟨first, rest, rfl⟩ := List.exists_cons_of_length_pos htoken
  rw [hshape.time_tokenizerStarted, hshape.time_tokenizerCompleted, hshape.time_tokenGenerated,
    hshape.time_generationCompleted, elapsed_nonneg_iff, elapsed_nonneg_iff, elapsed_nonneg_iff]
  simp only [List.map_cons, List.map_append, List.pairwise_cons] at hordered
  exact ⟨hordered.1 _ (by simp), hordered.2.1 _ (by simp), hordered.2.1 _ (by simp)⟩

/-- The metrics are those of the run: the times count from its first event on. -/
structure Measured (run : CompleteRun) (m : ModelMetrics) : Prop where
  timeToFirstToken : m.timeToFirstToken =
    longToFloat (milliseconds (elapsed (run.time .tokenizerStarted) (run.time .tokenGenerated)))
  totalTime : m.totalTime =
    milliseconds (elapsed (run.time .tokenizerStarted) (run.time .generationCompleted))
  inpTokens : m.inpTokens = run.generation.prompt.length
  outTokens : m.outTokens = run.events.countP fun e => e.event.name = .tokenGenerated

/-- The run ends with a stop token and its prompt can be counted. The time that its tokenizer takes
fits into the last millisecond up to the first token and up to the completion; where a `float` does
not keep every bit of the first of these times, it may also be rounded away. -/
structure Unaffected (run : CompleteRun) : Prop where
  stopped : ∃ k < run.generation.maxTokens, run.generation.stops k = true
  counted : run.generation.prompt.length < 2 ^ 32
  firstToken :
    let rest := elapsed (run.time .tokenizerCompleted) (run.time .tokenGenerated)
    let whole := elapsed (run.time .tokenizerStarted) (run.time .tokenGenerated)
    rest % 1000000 + elapsed (run.time .tokenizerStarted) (run.time .tokenizerCompleted) < 1000000 ∨
      2 ^ 24 ≤ milliseconds rest ∧ roundInt 24 (milliseconds rest) = roundInt 24 (milliseconds whole)
  total : elapsed (run.time .tokenizerCompleted) (run.time .generationCompleted) % 1000000 +
    elapsed (run.time .tokenizerStarted) (run.time .tokenizerCompleted) < 1000000

variable {run : CompleteRun}

/-- The times are taken from the end of the tokenizer on, and only a stop token has the tokens
counted. -/
theorem measured_iff (hordered : (run.events.map TimedEvent.timestamp).Pairwise (· ≤ ·))
    (htoken : 0 < run.generation.payloads.length) (c : LLMMetricsCollector) :
    run.Measured (c.observeAll run.events).getMetrics ↔ run.Unaffected := by
  have hrecorded := run.recorded c
  have hcount : run.events.countP (fun e => e.event.name = .tokenGenerated) =
      run.generation.payloads.length := by
    obtain ⟨_, _, _, _, hshape⟩ := run.exists_shape
    exact hshape.countP_tokenGenerated
  have hfirst := hrecorded.firstTokenGeneratedTime
  rw [if_pos htoken] at hfirst
  obtain ⟨hstart, hgenerated, hend⟩ := run.elapsed_nonneg hordered htoken
  have htotal := milliseconds_add_eq_iff hend hstart
  have hfloat := sameFloat_add_iff hgenerated hstart
  rw [elapsed_add] at htotal hfloat
  rw [← longToFloat_milliseconds_eq_iff] at hfloat
  constructor
  · rintro ⟨hfirstToken, htotalTime, hinp, hout⟩
    simp only [getMetrics, hrecorded.tokenizerStartTime, hfirst,
      hrecorded.generationCompletedTimeT, hrecorded.inpTokens, hrecorded.outTokens, hcount]
      at hfirstToken htotalTime hinp hout
    refine ⟨?_, ?_, hfloat.mp hfirstToken, htotal.mp htotalTime⟩
    · by_contra hstop
      rw [if_neg hstop] at hout
      omega
    · omega
  · rintro ⟨hstop, hcounted, hfirstToken, htotalTime⟩
    constructor
    · simp only [getMetrics, hrecorded.tokenizerStartTime, hfirst]
      exact hfloat.mpr hfirstToken
    · simp only [getMetrics, hrecorded.tokenizerStartTime, hrecorded.generationCompletedTimeT]
      exact htotal.mpr htotalTime
    · exact hrecorded.inpTokens.trans (Nat.mod_eq_of_lt hcounted)
    · rw [hcount]
      exact hrecorded.outTokens.trans (if_pos hstop)

/-- A generation that samples the tokens `0`, `1` and so on; `2` is the stop token. -/
def counting (maxTokens : ℕ) : Generation where
  strLen := 1
  prompt := [7]
  maxTokens
  samples j := j
  decode token := [.ofNat token]
  isStop text := text = [2]

/-- Two tokens and the stop token. Tokenizing takes 5 microseconds. -/
def stoppedRun : CompleteRun where
  generation := counting 8
  events := [⟨0, .tokenizerStarted 1⟩, ⟨5000, .tokenizerCompleted 1⟩,
    ⟨6000, .prefillStarted 1⟩, ⟨9000000, .prefillCompleted 1⟩, ⟨9100000, .tokenGenerated 0 [0]⟩,
    ⟨12100000, .tokenGenerated 1 [1]⟩, ⟨15100000, .generationCompleted .eos 2⟩]
  complete := rfl

theorem measured_iff_stopped :
    stoppedRun.Measured ((LLMMetricsCollector.new [] ⟨0, 0, 0, 0⟩).observeAll
      stoppedRun.events).getMetrics :=
  (measured_iff (by decide) (by decide) _).mpr
    ⟨⟨2, by decide, by decide⟩, by decide, by decide, by decide⟩

/-- One token, and no turn is left. Tokenizing takes 5 milliseconds. -/
def exhaustedRun : CompleteRun where
  generation := counting 1
  events := [⟨0, .tokenizerStarted 1⟩, ⟨5000000, .tokenizerCompleted 1⟩,
    ⟨6000000, .prefillStarted 1⟩, ⟨19000000, .prefillCompleted 1⟩,
    ⟨20000000, .tokenGenerated 0 [0]⟩, ⟨30000000, .generationCompleted .maxCtxReached 0⟩]
  complete := rfl

/-- The first token comes after 20 milliseconds and the run takes 30, but the metrics say 15 and 25.
They do not count the token. -/
theorem exhaustedRun_not_measured :
    (exhaustedRun.events.map TimedEvent.timestamp).Pairwise (· ≤ ·) ∧
      exhaustedRun.generation.payloads.length = 1 ∧
      (let m := ((LLMMetricsCollector.new [] ⟨0, 0, 0, 0⟩).observeAll exhaustedRun.events).getMetrics
      m.timeToFirstToken = longToFloat 15 ∧ m.totalTime = 25 ∧ m.outTokens = 0 ∧
        ¬ exhaustedRun.Measured m) := by
  refine ⟨by decide, by decide, by decide, by decide, by decide, ?_⟩
  intro h
  exact absurd h.totalTime (by decide)

end CompleteRun

end Metrics

end ZInferLM
