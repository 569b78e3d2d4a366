import ZInferLM.Serve.SseRoundTrip
import ZInferLM.Serve.StreamOrder
import ZInferLM.Serve.StreamedText

/-! # From the generation to the page

The worker streams what the callback of a chat makes of the events of a run. Behind a run of the
session that streams in order and has become quiet, every response has been sent, and the client
that reads it shows the tokens of its generation. -/

namespace ZInferLM.Serve
open Library Library.Utf8 Tokenizer Inference

/-- The messages of the tasks behind a step: a task starts with none, and every message is one of
the last task. -/
def messagesAfter (tasks : List (List (Json × Bool))) :
    Session.Label → List (List (Json × Bool))
  | .take => tasks ++ [[]]
  | .enqueue payload isEnd => tasks.modify (tasks.length - 1) (· ++ [(payload, isEnd)])
  | .receive | .run | .complete | .completeLate _ | .post => tasks

/-- The messages that the worker puts into the queue, task by task. -/
def messages (labels : List Session.Label) : List (List (Json × Bool)) :=
  labels.foldl messagesAfter []

theorem messages_concat (labels : List Session.Label) (label : Session.Label) :
    messages (labels ++ [label]) = messagesAfter (messages labels) label := by
  rw [messages, List.foldl_append]
  rfl

def chunksOf (serialize : Json → Bytes) (ms : List (Json × Bool)) : List Bytes :=
  ms.map fun m => streamJsonMessage serialize m.1 m.2

namespace Session

variable {s s' : Session} {serialize : Json → Bytes} {labels : List Label}

/-- The part of a session that only requests and the worker change. -/
structure SameTasks (s s' : Session) : Prop where
  worker : s'.worker = s.worker
  tasks : s'.tasks = s.tasks
  taken : s'.taken = s.taken
  responses : s'.responses = s.responses

theorem flush_sameTasks (s : Session) : s.SameTasks s.flushStreamingQueue := by
  rw [flushStreamingQueue]
  split_ifs
  · exact ⟨rfl, rfl, rfl, rfl⟩
  · exact ⟨rfl, rfl, rfl, rfl⟩
  · cases s.streamingQueue with
    | nil => exact ⟨rfl, rfl, rfl, rfl⟩
    | cons c queue => exact ⟨rfl, rfl, rfl, rfl⟩

theorem handle_sameTasks {h : Handler} (hh : h ≠ .handleRequest) (s : Session) :
    s.SameTasks (s.handle h) := by
  cases h with
  | doRead => exact ⟨rfl, rfl, rfl, rfl⟩
  | handleRequest => exact absurd rfl hh
  | initiateStreaming =>
    obtain ⟨hworker, htasks, htaken, hresponses⟩ := flush_sameTasks { s with headerSent := false }
    exact ⟨hworker, htasks, htaken, hresponses⟩
  | flush => exact flush_sameTasks s
  | written w =>
    cases w with
    | header =>
      obtain ⟨hworker, htasks, htaken, hresponses⟩ :=
        flush_sameTasks { s with headerSent := true, isWriting := false }
      exact ⟨hworker, htasks, htaken, hresponses⟩
    | chunk c =>
      rw [handle]
      split_ifs
      · exact ⟨rfl, rfl, rfl, rfl⟩
      · obtain ⟨hworker, htasks, htaken, hresponses⟩ := flush_sameTasks { s with isWriting := false }
        exact ⟨hworker, htasks, htaken, hresponses⟩

/-- Every response has the chunks of the messages of its task. -/
structure Recorded (serialize : Json → Bytes) (tasks : List (List (Json × Bool))) (s : Session) :
    Prop where
  taken : s.taken = tasks.length
  busy : s.worker ≠ .idle → tasks ≠ []
  responses : s.responses = tasks.map (chunksOf serialize) ++ List.replicate s.tasks []

variable {tasks : List (List (Json × Bool))}

theorem Recorded.same (h : s.Recorded serialize tasks) (hsame : s.SameTasks s') :
    s'.Recorded serialize tasks := by
  constructor
  · rw [hsame.taken, h.taken]
  · rw [hsame.worker]
    exact h.busy
  · rw [hsame.responses, hsame.tasks, h.responses]

theorem Recorded.handle (h : s.Recorded serialize tasks) (handler : Handler) :
    (s.handle handler).Recorded serialize tasks := by
  by_cases hh : handler = .handleRequest
  · rw [hh]
    refine ⟨h.taken, h.busy, ?_⟩
    change s.responses ++ [[]] = _ ++ List.replicate (s.tasks + 1) []
    rw [h.responses, List.replicate_succ', List.append_assoc]
  · exact h.same (handle_sameTasks hh s)

theorem modify_middle {α : Type} (xs ys : List α) (x : α) (f : α → α) :
    (xs ++ x :: ys).modify xs.length f = xs ++ f x :: ys := by
  simp [List.modify_eq_set_getElem?]

theorem chunksOf_concat (ms : List (Json × Bool)) (m : Json × Bool) :
    chunksOf serialize (ms ++ [m]) = chunksOf serialize ms ++ [streamJsonMessage serialize m.1 m.2] :=
  List.map_append

theorem Recorded.take (h : s.Recorded serialize tasks) (hstep : s.take = some s') :
    s'.Recorded serialize (tasks ++ [[]]) := by
  rw [Session.take] at hstep
  split_ifs at hstep with hcond
  cases hstep
  obtain ⟨left, hleft⟩ := Nat.exists_eq_succ_of_ne_zero hcond.2
  refine ⟨?_, fun _ => List.concat_ne_nil _ _, ?_⟩
  · change s.taken + 1 = _
    rw [h.taken, List.length_append, List.length_singleton]
  · change s.responses = _ ++ List.replicate (s.tasks - 1) []
    rw [h.responses, hleft, List.replicate_succ, List.map_append, List.append_assoc]
    rfl

theorem Recorded.enqueue (h : s.Recorded serialize tasks) {payload : Json} {isEnd : Bool}
    (hstep : s.enqueue serialize payload isEnd = some s') :
    s'.Recorded serialize (messagesAfter tasks (.enqueue payload isEnd)) := by
  rw [Session.enqueue] at hstep
  split_ifs at hstep with hworker
  cases hstep
  have hbusy : tasks ≠ [] := h.busy (by simp [hworker])
  obtain ⟨before, ms, rfl⟩ := (List.eq_nil_or_concat' tasks).resolve_left hbusy
  have htaken := h.taken
  rw [List.length_append, List.length_singleton] at htaken
  have hafter : messagesAfter (before ++ [ms]) (.enqueue payload isEnd) =
      before ++ [ms ++ [(payload, isEnd)]] := by
    rw [messagesAfter, List.length_append, List.length_singleton, Nat.add_sub_cancel, modify_last]
  rw [hafter]
  refine ⟨?_, fun _ => List.concat_ne_nil _ _, ?_⟩
  · change s.taken = _
    rw [htaken, List.length_append, List.length_singleton]
  · change s.responses.modify (s.taken - 1) _ = _
    have hmiddle := modify_middle (before.map (chunksOf serialize)) (List.replicate s.tasks [])
      (chunksOf serialize ms) (· ++ [streamJsonMessage serialize payload isEnd])
    rw [List.length_map] at hmiddle
    rw [h.responses, htaken, Nat.add_sub_cancel, List.map_append, List.append_assoc,
      List.map_append, List.append_assoc, List.map_singleton, List.map_singleton, chunksOf_concat]
    exact hmiddle

theorem Recorded.step (h : s.Recorded serialize tasks) {label : Label}
    (hstep : s.step serialize label = some s') :
    s'.Recorded serialize (messagesAfter tasks label) := by
  cases label with
  | receive =>
    rw [Session.step, receive] at hstep
    split_ifs at hstep
    cases hstep
    exact h.same ⟨rfl, rfl, rfl, rfl⟩
  | run =>
    cases hstrand : s.strand with
    | nil => simp [Session.step, runStrand, hstrand] at hstep
    | cons handler strand =>
      simp only [Session.step, runStrand, hstrand, Option.some.injEq] at hstep
      cases hstep
      have hpopped : Recorded serialize tasks { s with strand := strand } :=
        h.same ⟨rfl, rfl, rfl, rfl⟩
      exact hpopped.handle handler
  | complete =>
    cases hwrites : s.writes with
    | nil => simp [Session.step, complete, hwrites] at hstep
    | cons w writes =>
      simp only [Session.step, complete, hwrites, Option.some.injEq] at hstep
      cases hstep
      exact h.same ⟨rfl, rfl, rfl, rfl⟩
  | completeLate bytes =>
    obtain ⟨currentChunk, writes, -, -, rfl⟩ := completeLate_cases hstep
    exact h.same ⟨rfl, rfl, rfl, rfl⟩
  | take => exact h.take hstep
  | enqueue payload isEnd => exact h.enqueue hstep
  | post =>
    cases hworker : s.worker with
    | idle => simp [Session.step, post, hworker] at hstep
    | streaming => simp [Session.step, post, hworker] at hstep
    | posting isEnd =>
      simp only [Session.step, post, hworker, Option.some.injEq] at hstep
      cases hstep
      exact ⟨h.taken, fun _ => h.busy (by simp [hworker]), h.responses⟩

theorem recorded_of_run (hrun : (system serialize).run labels = some s) :
    s.Recorded serialize (messages labels) := by
  apply Transitions.run_invariant _ _ hrun
  · exact ⟨rfl, fun h => absurd rfl h, rfl⟩
  · intro labels s label s' _ hstep h
    rw [messages_concat]
    exact h.step hstep

theorem consistent_of_meets (hline : ∀ payload, (13 : UInt8) ∉ serialize payload)
    (hmeets : (system serialize).Meets Orderly start labels)
    (hrun : (system serialize).run labels = some s) : s.Consistent :=
  Transitions.invariant_of_meets (fun _ _ _ _ horderly hstep h => h.step hline horderly hstep)
    (system serialize).reachable_start (.starting rfl) hmeets hrun

theorem writes_response (chunks : List Bytes) :
    (response chunks).filterMap Io.write? = .header :: chunks.map Write.chunk := by
  have hchunks : (chunks.map fun c => Io.write (.chunk c)).filterMap Io.write? =
      chunks.map Write.chunk := by
    rw [List.filterMap_map]
    exact congrFun (@List.filterMap_eq_map Bytes Write Write.chunk) chunks
  have hwrites : (writesOf chunks).filterMap Io.write? = .header :: chunks.map Write.chunk := by
    change _ :: (chunks.map fun c => Io.write (.chunk c)).filterMap Io.write? = _
    rw [hchunks]
  rw [response, List.filterMap_append, hwrites]
  split_ifs
  · exact List.append_nil _
  · exact List.append_nil _

/-- Everything has been written, and no write is outstanding. -/
structure Drained (s : Session) : Prop where
  io : s.io = s.expectedIo
  writes : s.writes = []

theorem Consistent.drained (h : s.Consistent) (hquiet : s.Quiet) : s.Drained :=
  ⟨h.settled hquiet, hquiet.2.1⟩

theorem Drained.sent_eq (h : s.Drained) (haccounted : s.Accounted) :
    s.sent = s.responses.flatMap fun chunks => .header :: chunks.map Write.chunk := by
  have hsent : s.io.filterMap Io.write? = s.sent ++ s.writes := haccounted
  rw [h.writes, List.append_nil, h.io, expectedIo, List.filterMap_cons_none rfl,
    List.filterMap_flatMap] at hsent
  rw [← hsent]
  exact congrArg s.responses.flatMap (funext writes_response)

/-- What holds behind an orderly run whose tasks have streamed these messages. -/
structure Sound (serialize : Json → Bytes) (tasks : List (List (Json × Bool))) (s : Session) :
    Prop where
  consistent : s.Consistent
  accounted : s.Accounted
  recorded : s.Recorded serialize tasks

theorem sound_start : start.Sound serialize [] :=
  ⟨.starting rfl, rfl, rfl, fun h => absurd rfl h, rfl⟩

theorem Sound.step (hline : ∀ payload, (13 : UInt8) ∉ serialize payload)
    (h : s.Sound serialize tasks) {label : Label} (horderly : s.Orderly label)
    (hstep : s.step serialize label = some s') : s'.Sound serialize (messagesAfter tasks label) :=
  ⟨h.consistent.step hline horderly hstep, h.accounted.step horderly hstep,
    h.recorded.step hstep⟩

end Session

def bodiesAfter (bodies : List Bytes) : Write → List Bytes
  | .header => bodies ++ [[]]
  | .chunk c => bodies.modify (bodies.length - 1) (· ++ c)

/-- The bodies of the responses that have been sent, each behind its header. -/
def bodies (sent : List Write) : List Bytes := sent.foldl bodiesAfter []

theorem bodiesAfter_chunks (before : List Bytes) (body : Bytes) (chunks : List Bytes) :
    (chunks.map Write.chunk).foldl bodiesAfter (before ++ [body]) =
      before ++ [body ++ chunks.flatten] := by
  induction chunks generalizing body with
  | nil => simp
  | cons c chunks ih =>
    have hafter : bodiesAfter (before ++ [body]) (.chunk c) = before ++ [body ++ c] := by
      rw [bodiesAfter, List.length_append, List.length_singleton, Nat.add_sub_cancel,
        Session.modify_last]
    rw [List.map_cons, List.foldl_cons, hafter, ih, List.flatten_cons, List.append_assoc]

theorem bodies_responses (responses : List (List Bytes)) :
    bodies (responses.flatMap fun chunks => .header :: chunks.map Write.chunk) =
      responses.map List.flatten := by
  induction responses using List.reverseRecOn with
  | nil => rfl
  | append_singleton responses chunks ih =>
    rw [bodies] at ih ⊢
    rw [List.flatMap_append, List.flatMap_singleton, List.foldl_append, ih, List.foldl_cons,
      bodiesAfter, bodiesAfter_chunks, List.nil_append, List.map_append, List.map_singleton]

def tokenMessage (token : Bytes) : Json :=
  .object [(literal "role", .text "assistant"), (literal "content", .string token)]

def finishMessage (reason : String) : Json := .single "finish_reason" (.text reason)

theorem streamedMessages_append (as bs : List Action) :
    streamedMessages (as ++ bs) = streamedMessages as ++ streamedMessages bs := by
  rw [streamedMessages, Generation.events_append, List.filterMap_append]
  rfl

theorem streamedMessages_pass (gen : Generation) (i : ℕ) (tokens : List ℕ) (pastTokens : ℕ) :
    streamedMessages (gen.pass i tokens pastTokens) = [] := by
  rw [streamedMessages, Generation.events_pass, Generation.prefillEvents]
  split_ifs <;> rfl

/-- A loop streams a message for every token and one that says why it ends. -/
theorem streamedMessages_loop (gen : Generation) (left i : ℕ) (tokens : List ℕ) (pastTokens : ℕ) :
    ∃ reason, streamedMessages (gen.loop left i tokens pastTokens).1 =
      ((List.range' i (gen.turns left i)).map fun j =>
        (tokenMessage (gen.decode (gen.samples j)), false)) ++ [(finishMessage reason, true)] := by
  induction left generalizing i tokens pastTokens with
  | zero => exact ⟨"Maximum Tokens reached", rfl⟩
  | succ left ih =>
    rw [Generation.loop, Generation.turns]
    cases hstop : gen.stops i with
    | true =>
      refine ⟨"Stop", ?_⟩
      rw [if_pos rfl, if_pos rfl, streamedMessages_append, streamedMessages_pass]
      rfl
    | false =>
      obtain ⟨reason, hrest⟩ := ih (i + 1) [gen.samples i] (pastTokens + tokens.length)
      refine ⟨reason, ?_⟩
      rw [if_neg Bool.false_ne_true, if_neg Bool.false_ne_true, List.range'_succ, List.map_cons,
        streamedMessages_append, streamedMessages_pass, List.nil_append, List.cons_append, ← hrest]
      rfl

theorem streamedMessages_trace (gen : Generation) :
    ∃ reason, streamedMessages gen.trace =
      (gen.payloads.map fun token => (tokenMessage token, false)) ++
        [(finishMessage reason, true)] := by
  obtain ⟨reason, hloop⟩ := streamedMessages_loop gen gen.maxTokens 0 gen.prompt 0
  refine ⟨reason, ?_⟩
  rw [Generation.payloads, List.map_map, List.range_eq_range']
  exact hloop

/-- The chunks of a generation are those of a response on the wire. -/
theorem chunks_wire (serialize : Json → Bytes) (tokens : List Bytes) (last : Json) :
    (chunksOf serialize ((tokens.map fun token => (tokenMessage token, false)) ++
      [(last, true)])).flatten = wire serialize (tokens.map tokenMessage) last := by
  rw [chunksOf, List.map_append, List.map_map, List.flatten_append, wire, List.flatMap_map,
    List.flatMap_def]
  exact congrArg _ (List.append_nil _)

/-- The message that shows tokens, if there are any. -/
def shownTokens (tokens : List Bytes) : Option StreamingMessage :=
  if tokens = [] then none else some ⟨.text "assistant", tokens.map Json.string⟩

def Page.ofTokens (tokens : List Bytes) : Page :=
  ⟨shownTokens tokens, .text "assistant", false, tokens.map tokenMessage⟩

theorem Page.show_token (tokens : List Bytes) (token : Bytes) :
    (Page.ofTokens tokens).show (tokenMessage token) = .ok (.ofTokens (tokens ++ [token])) := by
  by_cases htokens : tokens = []
  · rw [htokens]
    rfl
  · have hconcat : tokens ++ [token] ≠ [] := List.concat_ne_nil _ _
    rw [Page.ofTokens, Page.ofTokens, shownTokens, shownTokens, if_neg htokens, if_neg hconcat,
      List.map_append, List.map_append]
    rfl

theorem Page.showAll_tokens (before tokens : List Bytes) :
    (Page.ofTokens before).showAll (tokens.map tokenMessage) =
      .ok (.ofTokens (before ++ tokens)) := by
  induction tokens generalizing before with
  | nil =>
    rw [List.append_nil]
    rfl
  | cons token tokens ih =>
    rw [List.map_cons, Page.showAll, Page.show_token, Outcome.ok_bind, ih, List.append_assoc,
      List.singleton_append]

theorem Page.showAll_append (ps qs : List Json) (page : Page) :
    page.showAll (ps ++ qs) = page.showAll ps >>= fun page => page.showAll qs := by
  induction ps generalizing page with
  | nil => rfl
  | cons p ps ih =>
    rw [List.cons_append, Page.showAll, Page.showAll]
    cases page.show p with
    | error e => rfl
    | ok page => exact ih page

/-- The last message of a response changes nothing that is shown. -/
theorem Page.showAll_response (tokens : List Bytes) (reason : String) :
    ∃ page, Page.new.showAll (tokens.map tokenMessage ++ [finishMessage reason]) = .ok page ∧
      page.streamMsg = shownTokens tokens ∧ page.role = .text "assistant" := by
  refine ⟨{ Page.ofTokens tokens with
    payloads := tokens.map tokenMessage ++ [finishMessage reason] }, ?_, rfl, rfl⟩
  rw [Page.showAll_append]
  have htokens := Page.showAll_tokens [] tokens
  rw [List.nil_append] at htokens
  have hnew : Page.ofTokens [] = Page.new := rfl
  rw [hnew] at htokens
  rw [htokens]
  rfl

/-- However the text of a response arrives, the client reads it to its end and shows the tokens of
the generation in one message. -/
def Shows (parse : List Char → Option Json) (body : Bytes) (gen : Generation) : Prop :=
  ∃ text, Chunked.decode body = some (text, []) ∧
    ∀ fragments : List Bytes, fragments.flatten = text →
      ∃ r, Reader.new.read parse fragments = .ok r ∧ r.page.finished = true ∧
        r.page.streamMsg = shownTokens gen.payloads

section
variable {serialize : Json → Bytes} {parse : List Char → Option Json} {s : Session}
  {labels : List Session.Label}

theorem shows_wire (hparse : ReadsJson parse) {gen : Generation} {reason : String}
    (hcodec : ∀ p ∈ gen.payloads.map tokenMessage ++ [finishMessage reason],
      Faithful serialize parse p) :
    Shows parse (wire serialize (gen.payloads.map tokenMessage) (finishMessage reason)) gen := by
  have hdecode := @decode_wire serialize (gen.payloads.map tokenMessage) (finishMessage reason) []
  rw [List.append_nil] at hdecode
  refine ⟨_, hdecode, ?_⟩
  intro fragments hfragments
  obtain ⟨page, hpage, hshown, -⟩ := Page.showAll_response gen.payloads reason
  have hresponse := Reader.read_response hcodec hparse hfragments
  rw [hpage, Outcome.ok_bind] at hresponse
  cases hread : Reader.new.read parse fragments with
  | error e =>
    rw [hread] at hresponse
    cases hresponse
  | ok r =>
    rw [hread] at hresponse
    have hr : r.page = { page with finished := true } := Except.ok.inj hresponse
    exact ⟨r, rfl, by rw [hr], by rw [hr]; exact hshown⟩

/-- In a drained session the response whose task has streamed the messages of a generation shows the
tokens of this generation. -/
theorem Session.Sound.shows {tasks : List (List (Json × Bool))} (h : s.Sound serialize tasks)
    (hparse : ReadsJson parse) (hdrained : s.Drained) {k : ℕ} {gen : Generation}
    (hmessages : tasks[k]? = some (streamedMessages gen.trace))
    (hcodec : ∀ m ∈ streamedMessages gen.trace, Faithful serialize parse m.1) :
    ∃ body, (bodies s.sent)[k]? = some body ∧ Shows parse body gen := by
  have hsent := hdrained.sent_eq h.accounted
  obtain ⟨reason, htrace⟩ := streamedMessages_trace gen
  refine ⟨_, ?_, @shows_wire serialize parse hparse gen reason ?_⟩
  · have hlt : k < (tasks.map (chunksOf serialize)).length := by
      rw [List.length_map]
      exact (List.getElem?_eq_some_iff.mp hmessages).1
    rw [hsent, bodies_responses, h.recorded.responses, List.getElem?_map,
      List.getElem?_append_left hlt, List.getElem?_map, hmessages, htrace, Option.map_some,
      Option.map_some, chunks_wire]
  · intro p hp
    rw [htrace] at hcodec
    rcases List.mem_append.mp hp with hp | hp
    · obtain ⟨token, htoken, rfl⟩ := List.mem_map.mp hp
      exact hcodec (tokenMessage token, false)
        (List.mem_append_left _ (List.mem_map.mpr ⟨token, htoken, rfl⟩))
    · rw [List.mem_singleton.mp hp]
      exact hcodec (finishMessage reason, true) (List.mem_append_right _ (List.mem_singleton_self _))

/-- Behind an orderly run that has become quiet, the response to every request whose task has
streamed the messages of a generation shows the tokens of this generation. -/
theorem generation_shown (hline : ∀ payload, (13 : UInt8) ∉ serialize payload)
    (hparse : ReadsJson parse) (hrun : (Session.system serialize).run labels = some s)
    (horderly : (Session.system serialize).Meets Session.Orderly Session.start labels)
    (hquiet : s.Quiet) {k : ℕ} {gen : Generation}
    (hmessages : (messages labels)[k]? = some (streamedMessages gen.trace))
    (hcodec : ∀ m ∈ streamedMessages gen.trace, Faithful serialize parse m.1) :
    ∃ body, (bodies s.sent)[k]? = some body ∧ Shows parse body gen := by
  have hsound : s.Sound serialize (messages labels) := {
    consistent := Session.consistent_of_meets hline horderly hrun
    accounted := Session.accounted_of_meets horderly hrun
    recorded := Session.recorded_of_run hrun }
  exact hsound.shows hparse (hsound.consistent.drained hquiet) hmessages hcodec

end

def greetingGeneration : Generation where
  strLen := 2
  prompt := [0]
  maxTokens := 4
  samples i := i
  decode token := if token = 0 then literal "Hi" else literal "</s>"
  isStop text := text = literal "</s>"

def greetingRun : List Session.Label :=
  [.run, .receive, .run, .take, .run, .enqueue greetingMessage false, .post, .run, .complete, .run,
    .complete, .run, .enqueue stopMessage true, .post, .run, .complete, .run]

theorem writeSample_line (payload : Json) : (13 : UInt8) ∉ writeSample payload := by
  have hlines : ∀ line ∈ [greetingLine, stopLine, "null"], (13 : UInt8) ∉ literal line := by
    decide +kernel
  unfold writeSample
  split
  · exact hlines _ (by simp)
  · exact hlines _ (by simp)
  · exact hlines _ (by simp)

theorem greeting_messages : streamedMessages greetingGeneration.trace =
    [(greetingMessage, false), (stopMessage, true)] := rfl

theorem greeting_faithful : ∀ m ∈ streamedMessages greetingGeneration.trace,
    Faithful writeSample readSample m.1 := by
  rw [greeting_messages]
  intro m hm
  simp only [List.mem_cons, List.not_mem_nil, or_false] at hm
  rcases hm with rfl | rfl
  · exact sample_faithful _ (by simp)
  · exact sample_faithful _ (by simp)

theorem generation_shown_greeting : ∃ s body,
    (Session.system writeSample).run greetingRun = some s ∧ (bodies s.sent)[0]? = some body ∧
      Shows readSample body greetingGeneration := by
  have hrun : ((Session.system writeSample).run greetingRun).isSome = true := by decide +kernel
  have hquiet : ∀ s ∈ (Session.system writeSample).run greetingRun,
      s.strand = [] ∧ s.writes = [] ∧ ∀ isEnd, s.worker ≠ .posting isEnd := by decide +kernel
  obtain ⟨s, hs⟩ := Option.isSome_iff_exists.mp hrun
  obtain ⟨body, hbody, hshows⟩ := @generation_shown writeSample readSample s greetingRun
    writeSample_line readSample_reads hs (by decide +kernel) (hquiet s hs) 0 greetingGeneration
    (by rw [greeting_messages]; rfl) greeting_faithful
  exact ⟨s, body, hs, hbody, hshows⟩

end ZInferLM.Serve
