import ZInferLM.Serve.Clients

/-! # Every task is completed

A server whose steps complete the tasks: every generation reaches its terminal event, no task is
cancelled, and a callback unlistens to its own chat. By the time a promise is fulfilled the terminal
event of its chat has been dispatched once, the stream of the chat has its one terminal chunk, and
nobody listens under its identifier any more, whatever becomes of the connections. -/

namespace ZInferLM.Serve
open Library Library.Utf8 Tokenizer Inference Worker
open Library.Multimap (values)

namespace Connection

variable {c c' : Connection} {serialize : Json → Bytes}

def Label.IsNetwork : Label → Prop
  | .receive _ | .readFails _ | .complete | .completeLate _ | .writeFails _ => True
  | .run | .take | .enqueue _ _ | .post => False

theorem step_sameTasks {label : Label} (hlabel : label.IsNetwork)
    (hstep : c.step serialize label = some c') : c.session.SameTasks c'.session := by
  cases label with
  | receive keepAlive =>
    obtain ⟨session, hsession, rfl⟩ := Option.map_eq_some_iff.mp hstep
    rw [Session.receive] at hsession
    split_ifs at hsession
    cases hsession
    exact ⟨rfl, rfl, rfl, rfl⟩
  | readFails endOfStream =>
    rw [Connection.step, readFails] at hstep
    split_ifs at hstep
    all_goals
      cases hstep
      exact ⟨rfl, rfl, rfl, rfl⟩
  | complete =>
    rw [Connection.step, complete] at hstep
    split_ifs at hstep
    obtain ⟨session, hsession, rfl⟩ := Option.map_eq_some_iff.mp hstep
    rw [Session.complete] at hsession
    split at hsession
    · cases hsession
    · cases hsession
      exact ⟨rfl, rfl, rfl, rfl⟩
  | completeLate bytes =>
    rw [Connection.step, completeLate] at hstep
    split_ifs at hstep
    obtain ⟨session, hsession, rfl⟩ := Option.map_eq_some_iff.mp hstep
    obtain ⟨currentChunk, writes, -, -, rfl⟩ := Session.completeLate_cases hsession
    exact ⟨rfl, rfl, rfl, rfl⟩
  | writeFails bytes =>
    simp only [Connection.step, writeFails] at hstep
    split at hstep
    · cases hstep
    · cases hstep
      exact ⟨rfl, rfl, rfl, rfl⟩
    · split_ifs at hstep
      cases hstep
      exact ⟨rfl, rfl, rfl, rfl⟩
  | _ => cases hlabel

theorem handle_sameTasks {handler : Handler} (hhandler : handler ≠ .handleRequest)
    (c : Connection) : c.session.SameTasks (c.handle handler).session := by
  by_cases hends : c.keepAlive = false ∧ isLast handler = true
  · cases handler with
    | written w =>
      cases w with
      | header => cases hends.2
      | chunk currentChunk =>
        have hlast : isTerminal currentChunk = true := hends.2
        rw [handle, hends.1]
        simp only [hlast, if_true, Bool.false_eq_true, if_false]
        exact ⟨rfl, rfl, rfl, rfl⟩
    | _ => cases hends.2
  · rw [handle_eq hends]
    exact Session.handle_sameTasks hhandler c.session

theorem run_sameTasks (hhead : c.session.strand.head? ≠ some .handleRequest)
    (hstep : c.runStrand = some c') : c.session.SameTasks c'.session := by
  rw [runStrand] at hstep
  split at hstep
  · cases hstep
  · rename_i handler strand hstrand
    cases hstep
    rw [hstrand] at hhead
    obtain ⟨hworker, htasks, htaken, hresponses⟩ := handle_sameTasks
      (fun heq => hhead (congrArg some heq)) (c.withSession { c.session with strand := strand })
    exact ⟨hworker, htasks, htaken, hresponses⟩

end Connection

namespace ChatServer

variable {ι : Type} [DecidableEq ι]

omit [DecidableEq ι] in
/-- The terminal events dispatched under the identifier of a chat. -/
def completions (s : ChatServer ι) (chatId : Bytes) : ℕ :=
  s.events.countP fun e => e.1 == chatId && e.2.isTerminal

omit [DecidableEq ι] in
/-- The steps that complete the tasks. -/
def Completing (s : ChatServer ι) : Label ι → Prop
  | .request _ chatId _ => ∀ entry ∈ s.worker.accepted, entry.task.chatId ≠ chatId
  | .check => s.worker.running = true ∨ s.worker.tasks = []
  | .throw => ∀ a ∈ s.todo, a.completes = false
  | .unlisten groupId => ∀ entry ∈ s.worker.phase.current, entry.task.chatId = groupId
  | _ => True

/-- A task with its terminal event, the terminal chunk of its stream, and no listener. -/
structure Completed (s : ChatServer ι) (entry : Entry (ChatTask ι)) : Prop where
  terminal : s.completions entry.task.chatId = 1
  chunks : ∃ (k : ℕ) (chunks : List Bytes),
    (tasksOf entry.task.client s.worker.accepted)[k]? = some entry ∧
      (s.connections entry.task.client).session.responses[k]? = some chunks ∧ Session.Closed chunks
  unlistened : values s.dispatcher.listeners entry.task.chatId = []

/-- The steps that leave the tasks, the events and the responses alone. -/
structure SameWork (s s' : ChatServer ι) : Prop where
  sessions : ∀ client, (s.connections client).session.SameTasks (s'.connections client).session
  current : s'.worker.phase.current = s.worker.phase.current
  tasks : s'.worker.tasks = s.worker.tasks
  started : s'.worker.started = s.worker.started
  fulfilled : s'.worker.fulfilled = s.worker.fulfilled
  dispatcher : s'.dispatcher = s.dispatcher
  todo : s'.todo = s.todo
  events : s'.events = s.events
  calls : s'.calls = s.calls
  callback : s'.callback = s.callback

/-- The terminal event of the task that is executed has been dispatched or is still to come. -/
structure Counts (s : ChatServer ι) : Prop where
  origin : ∀ e ∈ s.events, ∃ entry ∈ s.worker.started, entry.task.chatId = e.1
  current : ∀ entry ∈ s.worker.phase.current,
    s.completions entry.task.chatId + s.todo.countP Action.completes = 1
  done : ∀ f ∈ s.worker.fulfilled, s.completions f.1.task.chatId = 1

/-- Where the generation of a task is, and whether its callback listens. -/
structure Stage (s : ChatServer ι) (entry : Entry (ChatTask ι)) : Prop where
  streaming : ∃ before, before ++ s.pending = streamedMessages entry.task.generation.trace
  own : ∀ client, s.Calls client → client = entry.task.client
  posting : ∀ client isEnd, s.callback = .posting client isEnd → (isEnd = true ↔ s.pending = [])
  unlistening : s.callback = .unlistening → s.pending = []
  listens : ¬ (s.pending = [] ∧ s.callback = .outside) →
    values s.dispatcher.listeners entry.task.chatId = [⟨entry.task.client, chatEvents⟩]
  unheard : s.pending = [] → s.callback = .outside →
    values s.dispatcher.listeners entry.task.chatId = []

/-- A chat is listened to from its request to its last message. -/
structure Heard (s : ChatServer ι) : Prop where
  queued : ∀ entry ∈ s.worker.tasks,
    values s.dispatcher.listeners entry.task.chatId = [⟨entry.task.client, chatEvents⟩]
  current : ∀ entry ∈ s.worker.phase.current, s.Stage entry
  done : ∀ f ∈ s.worker.fulfilled, values s.dispatcher.listeners f.1.task.chatId = []

/-- The messages of a task that have been streamed. -/
def Partly (s : ChatServer ι) (entry : Entry (ChatTask ι)) (m : List (Json × Bool)) : Prop :=
  (entry ∈ s.worker.phase.current →
    m ++ s.pending = streamedMessages entry.task.generation.trace) ∧
  ∀ f, (entry, f) ∈ s.worker.fulfilled → m = streamedMessages entry.task.generation.trace

/-- The responses of a client have the chunks of what was streamed for its tasks. -/
structure Streams (serialize : Json → Bytes) (client : ι) (s : ChatServer ι)
    (ms : List (List (Json × Bool))) : Prop where
  taken : (s.connections client).session.taken = ms.length
  responses : (s.connections client).session.responses = ms.map (chunksOf serialize) ++
    List.replicate (tasksOf client s.worker.tasks).length []
  partly : List.Forall₂ s.Partly (tasksOf client s.worker.started) ms

variable {s s' : ChatServer ι} {client : ι} {serialize : Json → Bytes}
  {ms : List (List (Json × Bool))} {entry : Entry (ChatTask ι)}

omit [DecidableEq ι] in
theorem Completing.regular {label : Label ι} (h : s.Completing label) : s.Regular label := by
  cases label with
  | request c chatId generation => exact h
  | check => exact h
  | _ => exact trivial

omit [DecidableEq ι] in
theorem mem_current (hphase : s.worker.phase = .executing entry) :
    entry ∈ s.worker.phase.current := by
  rw [hphase]
  exact List.mem_cons_self

omit [DecidableEq ι] in
theorem eq_of_current (hphase : s.worker.phase = .executing entry) {current : Entry (ChatTask ι)}
    (hcurrent : current ∈ s.worker.phase.current) : current = entry := by
  rw [hphase] at hcurrent
  exact List.mem_singleton.mp hcurrent

theorem sameWork_withConnection {connection : Connection}
    (hsame : (s.connections client).session.SameTasks connection.session) :
    SameWork s (s.withConnection client connection) := by
  refine ⟨?_, rfl, rfl, rfl, rfl, rfl, rfl, rfl, rfl, rfl⟩
  intro c
  by_cases hc : c = client
  · subst hc
    rw [connections_withConnection]
    exact hsame
  · rw [connections_withConnection_ne s hc]
    exact ⟨rfl, rfl, rfl, rfl⟩

omit [DecidableEq ι] in
theorem SameWork.pending (h : SameWork s s') : s'.pending = s.pending := by
  rw [ChatServer.pending, ChatServer.pending, h.calls, h.todo]

omit [DecidableEq ι] in
theorem SameWork.completions (h : SameWork s s') (chatId : Bytes) :
    s'.completions chatId = s.completions chatId := by
  rw [ChatServer.completions, ChatServer.completions, h.events]

omit [DecidableEq ι] in
/-- A stage depends on the calls, what is left to do, and the listeners of the chat. -/
theorem Stage.congr (h : s.Stage entry) (hpending : s'.pending = s.pending)
    (hcalls : ∀ client, s'.Calls client → client = entry.task.client)
    (hcallback : s'.callback = s.callback)
    (hvalues : values s'.dispatcher.listeners entry.task.chatId =
      values s.dispatcher.listeners entry.task.chatId) : s'.Stage entry := by
  refine ⟨?_, hcalls, ?_, ?_, ?_, ?_⟩
  · rw [hpending]
    exact h.streaming
  · rw [hpending, hcallback]
    exact h.posting
  · rw [hpending, hcallback]
    exact h.unlistening
  · rw [hpending, hcallback, hvalues]
    exact h.listens
  · rw [hpending, hcallback, hvalues]
    exact h.unheard

omit [DecidableEq ι] in
theorem SameWork.stage (h : SameWork s s') (hstage : s.Stage entry) : s'.Stage entry := by
  refine hstage.congr h.pending ?_ h.callback (by rw [h.dispatcher])
  intro client hcalls
  rw [Calls, h.calls, h.callback] at hcalls
  exact hstage.own client hcalls

omit [DecidableEq ι] in
theorem Counts.same (h : Counts s) (hsame : SameWork s s') : Counts s' := by
  refine ⟨?_, ?_, ?_⟩
  · rw [hsame.events, hsame.started]
    exact h.origin
  · rw [hsame.current, hsame.todo]
    intro entry hentry
    rw [hsame.completions]
    exact h.current entry hentry
  · rw [hsame.fulfilled]
    intro f hf
    rw [hsame.completions]
    exact h.done f hf

omit [DecidableEq ι] in
theorem Heard.same (h : Heard s) (hsame : SameWork s s') : Heard s' := by
  refine ⟨?_, ?_, ?_⟩
  · rw [hsame.tasks, hsame.dispatcher]
    exact h.queued
  · rw [hsame.current]
    exact fun entry hentry => hsame.stage (h.current entry hentry)
  · rw [hsame.fulfilled, hsame.dispatcher]
    exact h.done

theorem Streams.same (h : Streams serialize client s ms) (hsame : SameWork s s') :
    Streams serialize client s' ms := by
  obtain ⟨-, -, htaken, hresponses⟩ := hsame.sessions client
  refine ⟨htaken.trans h.taken, ?_, ?_⟩
  · rw [hresponses, hsame.tasks]
    exact h.responses
  · rw [hsame.started]
    apply h.partly.imp
    intro entry m hm
    rw [Partly, hsame.current, hsame.pending, hsame.fulfilled]
    exact hm

omit [DecidableEq ι] in
theorem sameWork_worker {worker : Worker (ChatTask ι) Reply}
    (hcurrent : worker.phase.current = s.worker.phase.current)
    (htasks : worker.tasks = s.worker.tasks) (hstarted : worker.started = s.worker.started)
    (hfulfilled : worker.fulfilled = s.worker.fulfilled) : SameWork s { s with worker } :=
  ⟨fun _ => ⟨rfl, rfl, rfl, rfl⟩, hcurrent, htasks, hstarted, hfulfilled, rfl, rfl, rfl, rfl, rfl⟩

theorem sameWork_step (serialize : Json → Bytes) (label : Connection.Label) (hlabel : label.IsNetwork)
    (hstep : ((s.connections client).step serialize label).map (s.withConnection client) = some s') :
    SameWork s s' := by
  obtain ⟨connection, hconnection, rfl⟩ := Option.map_eq_some_iff.mp hstep
  exact sameWork_withConnection (Connection.step_sameTasks hlabel hconnection)

theorem sameWork_run (hstep : s.run client = some s') : SameWork s s' := by
  rw [run] at hstep
  split_ifs at hstep with hhead
  obtain ⟨connection, hconnection, rfl⟩ := Option.map_eq_some_iff.mp hstep
  exact sameWork_withConnection (Connection.run_sameTasks hhead hconnection)

omit [DecidableEq ι] in
theorem completions_concat {chatId : Bytes} {e : InferenceEvent}
    (hevents : s'.events = s.events ++ [(chatId, e)]) (chatId' : Bytes) :
    s'.completions chatId' =
      s.completions chatId' + if chatId = chatId' ∧ e.isTerminal = true then 1 else 0 := by
  rw [completions, completions, hevents, List.countP_append, List.countP_singleton]
  simp

omit [DecidableEq ι] in
theorem Steady.current_started (h : Steady s) (hcurrent : entry ∈ s.worker.phase.current) :
    entry ∈ s.worker.started := by
  obtain ⟨done, -, hstarted, -⟩ := h.split
  rw [hstarted]
  exact List.mem_append_right _ hcurrent

omit [DecidableEq ι] in
theorem Steady.started_ne (h : Steady s) {started : Entry (ChatTask ι)}
    (hstarted : started ∈ s.worker.started) (hentry : entry ∈ s.worker.tasks) :
    started.task.chatId ≠ entry.task.chatId := by
  intro heq
  obtain ⟨done, -, -, haccepted⟩ := h.split
  have hnodup := h.accepted_nodup
  rw [haccepted] at hnodup
  have hsame := h.injective (haccepted ▸ List.mem_append_left _ hstarted)
    (h.mem_accepted (List.mem_append_right _ hentry)) heq
  exact List.disjoint_of_nodup_append hnodup hstarted (hsame ▸ hentry)

omit [DecidableEq ι] in
theorem Steady.fulfilled_ne (h : Steady s) (hentry : entry ∈ s.worker.phase.current)
    {f : Entry (ChatTask ι) × Fulfilment Reply} (hf : f ∈ s.worker.fulfilled) :
    entry.task.chatId ≠ f.1.task.chatId := by
  intro heq
  have hsame := h.injective (h.mem_accepted (List.mem_append_left _ hentry))
    (h.accepted_of_fulfilled hf) heq
  exact h.unfulfilled (List.mem_append_left _ hentry) f.2 (hsame ▸ hf)

omit [DecidableEq ι] in
theorem Counts.begin (hsteady : Steady s) (h : Counts s) {tasks : List (Entry (ChatTask ι))}
    (htasks : s.worker.tasks = entry :: tasks) (hevents : s'.events = s.events)
    (hworker : s'.worker = { s.worker with
      tasks, phase := .executing entry, started := s.worker.started ++ [entry] })
    (htodo : s'.todo = entry.task.generation.trace) : Counts s' := by
  have hsame : ∀ chatId, s'.completions chatId = s.completions chatId := by
    intro chatId
    rw [completions, completions, hevents]
  refine ⟨?_, ?_, ?_⟩
  · rw [hevents, hworker]
    intro e he
    obtain ⟨started, hstarted, heq⟩ := h.origin e he
    exact ⟨started, List.mem_append_left _ hstarted, heq⟩
  · intro current hcurrent
    rw [hworker] at hcurrent
    obtain rfl : current = entry := List.mem_singleton.mp hcurrent
    have hzero : s.completions current.task.chatId = 0 := by
      rw [completions, List.countP_eq_zero]
      intro e he hcount
      obtain ⟨started, hstarted, heq⟩ := h.origin e he
      rw [Bool.and_eq_true, beq_iff_eq] at hcount
      exact hsteady.started_ne hstarted (by rw [htasks]; exact List.mem_cons_self)
        (heq.trans hcount.1)
    rw [hsame, hzero, htodo, Generation.countP_trace]
  · rw [hworker]
    intro f hf
    rw [hsame]
    exact h.done f hf

omit [DecidableEq ι] in
theorem Counts.act (hsteady : Steady s) (h : Counts s) (hstep : s.act = some s') : Counts s' := by
  obtain ⟨entry, hphase, -, -, ⟨e, todo, htodo, rfl⟩ | ⟨a, todo, htodo, ha, -, rfl⟩⟩ :=
    act_cases hstep
  · have hentry := mem_current hphase
    have hone := h.current entry hentry
    refine ⟨?_, ?_, ?_⟩
    · intro e' he'
      rcases List.mem_append.mp he' with hold | hnew
      · exact h.origin e' hold
      · rw [List.mem_singleton.mp hnew]
        exact ⟨entry, hsteady.current_started hentry, rfl⟩
    · intro current hcurrent
      rw [eq_of_current hphase hcurrent, completions_concat rfl]
      rw [htodo, List.countP_cons, Action.completes] at hone
      simp only [true_and]
      omega
    · intro f hf
      rw [completions_concat rfl, if_neg fun heq => hsteady.fulfilled_ne hentry hf heq.1]
      exact h.done f hf
  · refine ⟨h.origin, ?_, h.done⟩
    intro current hcurrent
    have hone := h.current current hcurrent
    rw [htodo, List.countP_cons_of_neg (by simp [ha])] at hone
    exact hone

omit [DecidableEq ι] in
theorem Counts.reply (h : Counts s) (hphase : s.worker.phase = .executing entry)
    (htodo : ∀ a ∈ s.todo, a.completes = false) (reply : Reply) :
    Counts { s with
      worker := { s.worker with
        phase := .checking
        fulfilled := s.worker.fulfilled ++ [(entry, .executed reply)] }
      todo := [] } := by
  refine ⟨h.origin, List.forall_mem_nil _, ?_⟩
  intro f hf
  rcases List.mem_append.mp hf with hold | hnew
  · exact h.done f hold
  · have hone := h.current entry (mem_current hphase)
    rw [Generation.countP_completes htodo] at hone
    rw [List.mem_singleton.mp hnew]
    exact hone

/-- A generation streams its end, and streams nothing behind it. -/
theorem messages_end (gen : Generation) : ∃ front last, streamedMessages gen.trace = front ++ [last] ∧
    last.2 = true ∧ ∀ m ∈ front, m.2 = false := by
  obtain ⟨reason, htrace⟩ := streamedMessages_trace gen
  refine ⟨_, _, htrace, rfl, ?_⟩
  intro m hm
  obtain ⟨token, -, rfl⟩ := List.mem_map.mp hm
  rfl

omit [DecidableEq ι] in
theorem streamedMessages_ne_nil (gen : Generation) : streamedMessages gen.trace ≠ [] := by
  obtain ⟨front, last, hmessages, -, -⟩ := messages_end gen
  rw [hmessages]
  exact List.concat_ne_nil _ _

omit [DecidableEq ι] in
theorem isEnd_iff {gen : Generation} {before after : List (Json × Bool)} {m : Json × Bool}
    (h : before ++ m :: after = streamedMessages gen.trace) : m.2 = true ↔ after = [] := by
  constructor
  · intro hend
    by_contra hafter
    rw [isEnd_of_pending h hafter] at hend
    cases hend
  · rintro rfl
    obtain ⟨front, last, hmessages, hlast, -⟩ := messages_end gen
    rw [hmessages] at h
    obtain ⟨-, hm⟩ := List.append_inj' h rfl
    rw [List.cons.inj hm |>.1]
    exact hlast

omit [DecidableEq ι] in
/-- The end is streamed for the terminal event. -/
theorem exists_completes {todo : List Action} {m : Json × Bool} (hm : m ∈ streamedMessages todo)
    (hend : m.2 = true) : ∃ a ∈ todo, a.completes = true := by
  obtain ⟨e, he, hstreamed⟩ := List.mem_filterMap.mp hm
  obtain ⟨a, ha, hevent⟩ := List.mem_filterMap.mp he
  refine ⟨a, ha, ?_⟩
  cases a with
  | dispatch e' =>
    cases hevent
    cases e with
    | generationCompleted status numTokens => rfl
    | tokenGenerated seqId token =>
      cases hstreamed
      cases hend
    | _ => cases hstreamed
  | _ => cases hevent

omit [DecidableEq ι] in
/-- Nothing is pending when the terminal event has been dispatched and its callback is back. -/
theorem Stage.pending_eq_nil (h : s.Stage entry) (hcalls : s.calls = [])
    (htodo : ∀ a ∈ s.todo, a.completes = false) : s.pending = [] := by
  by_contra hne
  obtain ⟨before, hbefore⟩ := h.streaming
  obtain ⟨rest, last, hlast⟩ := (List.eq_nil_or_concat' s.pending).resolve_left hne
  rw [hlast, ← List.append_assoc] at hbefore
  have hend : last.2 = true := (isEnd_iff hbefore).mpr rfl
  have hmem : last ∈ streamedMessages s.todo := by
    have hpending : s.pending = streamedMessages s.todo := by
      rw [pending, hcalls]
      rfl
    rw [← hpending, hlast]
    exact List.mem_append_right _ List.mem_cons_self
  obtain ⟨a, ha, hcompletes⟩ := exists_completes hmem hend
  rw [htodo a ha] at hcompletes
  cases hcompletes

omit [DecidableEq ι] in
theorem act_pending (hstage : s.Stage entry) (hphase : s.worker.phase = .executing entry)
    (hstep : s.act = some s') : s'.pending = s.pending ∧
      (∀ client, s'.Calls client → client = entry.task.client) ∧ s'.callback = s.callback ∧
        (∀ g, values s'.dispatcher.listeners g = values s.dispatcher.listeners g) := by
  obtain ⟨entry', hphase', hcalls, hcallback,
    ⟨e, todo, htodo, rfl⟩ | ⟨a, todo, -, -, hmessages, rfl⟩⟩ := act_cases hstep
  · cases hphase.symm.trans hphase'
    have hpending : s.pending = (streamedMessage e).toList ++ streamedMessages todo := by
      rw [pending, hcalls, htodo, streamedMessages_dispatch]
      rfl
    have hnew : ((streamedMessage e).elim [] fun message =>
        (s.dispatcher.dispatch entry.task.chatId e.name).1.map fun c => (c, message)) =
          (streamedMessage e).toList.map fun message => (entry.task.client, message) := by
      cases hmessage : streamedMessage e with
      | none => rfl
      | some m =>
        -- the callback of the chat is the only one
        rw [hmessage] at hpending
        have hlistens := hstage.listens fun hboth => by simp [hpending] at hboth
        rw [Option.elim_some, Events.EventDispatcher.dispatch_fst, hlistens]
        simp [name_mem_chatEvents hmessage]
    refine ⟨?_, ?_, rfl, fun g => values_dispatch _ _ g e.name⟩
    · rw [hpending]
      change List.map Prod.snd (Option.elim _ _ _) ++ _ = _
      rw [hnew, List.map_map]
      exact congrArg (· ++ _) (List.map_id _)
    · rintro client (hmem | ⟨isEnd, hposting⟩)
      · change client ∈ List.map Prod.fst (Option.elim _ _ _) at hmem
        rw [hnew, List.map_map] at hmem
        obtain ⟨m, -, rfl⟩ := List.mem_map.mp hmem
        rfl
      · change s.callback = _ at hposting
        rw [hcallback] at hposting
        cases hposting
  · refine ⟨?_, hstage.own, rfl, fun g => rfl⟩
    rw [pending, pending, hmessages]

theorem Heard.request {c : ι} {chatId : Bytes} {generation : Generation} (hsteady : Steady s)
    (h : Heard s) (hnew : ∀ entry ∈ s.worker.accepted, entry.task.chatId ≠ chatId)
    (hstep : s.request c chatId generation = some s') : Heard s' := by
  obtain ⟨hrunning, strand, dispatcher, -, hlisten, rfl⟩ := request_cases hstep
  have hvalues : ∀ entry ∈ s.worker.accepted, values dispatcher.listeners entry.task.chatId =
      values s.dispatcher.listeners entry.task.chatId := by
    intro entry hentry
    rw [hsteady.values_listen hnew hlisten, if_neg (hnew entry hentry)]
  rw [addTask_running hrunning]
  refine ⟨?_, ?_, ?_⟩
  · intro entry hentry
    rcases List.mem_append.mp hentry with hold | hself
    · rw [hvalues entry (hsteady.mem_accepted (List.mem_append_right _ hold))]
      exact h.queued entry hold
    · rw [List.mem_singleton.mp hself, hsteady.values_listen hnew hlisten, if_pos rfl]
  · intro entry hentry
    have haccepted := hsteady.mem_accepted (List.mem_append_left _ hentry)
    have hstage := h.current entry hentry
    exact hstage.congr rfl hstage.own rfl (hvalues entry haccepted)
  · intro f hf
    rw [hvalues f.1 (hsteady.accepted_of_fulfilled hf)]
    exact h.done f hf

theorem Heard.begin (hsteady : Steady s) (h : Heard s) {tasks : List (Entry (ChatTask ι))}
    (hphase : s.worker.phase = .checking) (htasks : s.worker.tasks = entry :: tasks)
    (session : Session) :
    Heard { s.withSession entry.task.client session with
      worker := { s.worker with
        tasks, phase := .executing entry, started := s.worker.started ++ [entry] }
      todo := entry.task.generation.trace } := by
  obtain ⟨hcalls, hcallback, -⟩ := hsteady.resting (by rw [hphase]; rfl)
  refine ⟨?_, ?_, h.done⟩
  · intro queued hqueued
    exact h.queued queued (by rw [htasks]; exact List.mem_cons_of_mem _ hqueued)
  · intro current hcurrent
    obtain rfl : current = entry := List.mem_singleton.mp hcurrent
    have hpending : s.calls.map Prod.snd ++ streamedMessages current.task.generation.trace =
        streamedMessages current.task.generation.trace := by
      rw [hcalls]
      rfl
    refine ⟨⟨[], hpending⟩, ?_, ?_, ?_, ?_, ?_⟩
    · rintro c (hmem | ⟨isEnd, hposting⟩)
      · change c ∈ s.calls.map Prod.fst at hmem
        rw [hcalls] at hmem
        cases hmem
      · change s.callback = _ at hposting
        rw [hcallback] at hposting
        cases hposting
    · intro c isEnd hposting
      change s.callback = _ at hposting
      rw [hcallback] at hposting
      cases hposting
    · intro hunlistening
      change s.callback = _ at hunlistening
      rw [hcallback] at hunlistening
      cases hunlistening
    · intro _
      exact h.queued current (by rw [htasks]; exact List.mem_cons_self)
    · intro hnil
      change s.calls.map Prod.snd ++ _ = _ at hnil
      rw [hpending] at hnil
      exact absurd hnil (streamedMessages_ne_nil _)

omit [DecidableEq ι] in
theorem Heard.act (h : Heard s) (hstep : s.act = some s') : Heard s' := by
  obtain ⟨entry, hphase, -, -, hcases⟩ := act_cases hstep
  obtain ⟨hpending, hcalls, hcallback, hvalues⟩ :=
    act_pending (h.current entry (mem_current hphase)) hphase hstep
  have hworker : s'.worker = s.worker := by
    rcases hcases with ⟨e, todo, -, rfl⟩ | ⟨a, todo, -, -, -, rfl⟩ <;> rfl
  refine ⟨?_, ?_, ?_⟩
  · rw [hworker]
    intro queued hqueued
    rw [hvalues]
    exact h.queued queued hqueued
  · rw [hworker]
    intro current hcurrent
    have hstage := h.current current hcurrent
    rw [eq_of_current hphase hcurrent] at hstage ⊢
    exact hstage.congr hpending hcalls hcallback (hvalues _)
  · rw [hworker]
    intro f hf
    rw [hvalues]
    exact h.done f hf

theorem Heard.call (h : Heard s) (hstep : s.call serialize = some s') :
    Heard s' := by
  obtain ⟨c, payload, isEnd, calls, hcallback, hcalls, rfl⟩ := call_cases hstep
  have hpending : s.pending =
      (payload, isEnd) :: (calls.map Prod.snd ++ streamedMessages s.todo) := by
    rw [pending, hcalls]
    rfl
  refine ⟨h.queued, ?_, h.done⟩
  intro entry hentry
  have hstage := h.current entry hentry
  obtain ⟨before, hbefore⟩ := hstage.streaming
  rw [hpending] at hbefore
  refine ⟨⟨before ++ [(payload, isEnd)], ?_⟩, ?_, ?_, ?_, ?_, ?_⟩
  · rw [List.append_assoc]
    exact hbefore
  · rintro client (hmem | ⟨b, hposting⟩)
    · exact hstage.own client (.inl (by rw [hcalls]; exact List.mem_cons_of_mem _ hmem))
    · cases hposting
      exact hstage.own c (.inl (by rw [hcalls]; exact List.mem_cons_self))
  · intro client b hposting
    cases hposting
    exact isEnd_iff hbefore
  · intro hunlistening
    cases hunlistening
  · intro _
    exact hstage.listens fun hboth => by simp [hpending] at hboth
  · intro _ houtside
    cases houtside

theorem Heard.post (h : Heard s) (hstep : s.post = some s') : Heard s' := by
  obtain ⟨c, isEnd, hcallback, rfl⟩ := post_cases hstep
  refine ⟨h.queued, ?_, h.done⟩
  intro entry hentry
  have hstage := h.current entry hentry
  have hend := hstage.posting c isEnd hcallback
  refine ⟨hstage.streaming, ?_, ?_, ?_, ?_, ?_⟩
  · rintro client (hmem | ⟨b, hposting⟩)
    · exact hstage.own client (.inl hmem)
    · change (if isEnd then CallbackPhase.unlistening else .outside) = _ at hposting
      cases isEnd <;> cases hposting
  · intro client b hposting
    change (if isEnd then CallbackPhase.unlistening else .outside) = _ at hposting
    cases isEnd <;> cases hposting
  · intro hunlistening
    apply hend.mp
    cases isEnd with
    | true => rfl
    | false => cases hunlistening
  · intro _
    exact hstage.listens fun hboth => by simp [hcallback] at hboth
  · intro hnil houtside
    have htrue : isEnd = true := hend.mpr hnil
    rw [htrue] at houtside
    cases houtside

omit [DecidableEq ι] in
theorem Heard.unlisten {groupId : Bytes} (hsteady : Steady s) (h : Heard s)
    (hown : ∀ entry ∈ s.worker.phase.current, entry.task.chatId = groupId)
    (hstep : s.unlisten groupId = some s') : Heard s' := by
  obtain ⟨hcallback, dispatcher, hunlisten, rfl⟩ := unlisten_cases hstep
  obtain ⟨d, hd, -, hvalues⟩ := hsteady.counted.unlisten groupId
  cases hunlisten.symm.trans hd
  obtain ⟨current, hphase⟩ := hsteady.executing (.inr (by rw [hcallback]; nofun))
  have hcurrent := mem_current hphase
  refine ⟨?_, ?_, ?_⟩
  · intro entry hentry
    have hne := hsteady.started_ne (hsteady.current_started hcurrent) hentry
    rw [hvalues, if_neg fun heq => hne ((hown current hcurrent).trans heq.symm)]
    exact h.queued entry hentry
  · intro entry hentry
    have hstage := h.current entry hentry
    refine ⟨hstage.streaming, ?_, nofun, nofun, ?_, ?_⟩
    · rintro c (hmem | ⟨b, hposting⟩)
      · exact hstage.own c (.inl hmem)
      · cases hposting
    · exact fun hnot => absurd ⟨hstage.unlistening hcallback, rfl⟩ hnot
    · intro _ _
      rw [hvalues, if_pos (hown entry hentry)]
  · intro f hf
    rw [hvalues]
    split_ifs
    · rfl
    · exact h.done f hf

omit [DecidableEq ι] in
theorem Heard.reply (h : Heard s) (hphase : s.worker.phase = .executing entry)
    (hcalls : s.calls = []) (hcallback : s.callback = .outside)
    (htodo : ∀ a ∈ s.todo, a.completes = false) (reply : Reply) :
    Heard { s with
      worker := { s.worker with
        phase := .checking
        fulfilled := s.worker.fulfilled ++ [(entry, .executed reply)] }
      todo := [] } := by
  refine ⟨h.queued, List.forall_mem_nil _, ?_⟩
  intro f hf
  rcases List.mem_append.mp hf with hold | hnew
  · exact h.done f hold
  · have hstage := h.current entry (mem_current hphase)
    rw [List.mem_singleton.mp hnew]
    exact hstage.unheard (hstage.pending_eq_nil hcalls htodo) hcallback

theorem Streams.of_session {session : Session} (hsession : (s.connections client).session = session)
    (htaken : session.taken = ms.length)
    (hresponses : session.responses = ms.map (chunksOf serialize) ++
      List.replicate (tasksOf client s.worker.tasks).length [])
    (hpartly : List.Forall₂ s.Partly (tasksOf client s.worker.started) ms) :
    Streams serialize client s ms := by
  subst hsession
  exact ⟨htaken, hresponses, hpartly⟩

/-- A step that starts and ends no generation, and streams nothing. -/
theorem Streams.unstreamed (h : Streams serialize client s ms)
    (hconnections : s'.connections = s.connections) (hworker : s'.worker = s.worker)
    (hpending : s'.pending = s.pending) : Streams serialize client s' ms := by
  refine .of_session (congrArg (fun c => (c client).session) hconnections) h.taken ?_ ?_
  · rw [hworker]
    exact h.responses
  · rw [hworker]
    apply h.partly.imp
    intro entry m hm
    rw [Partly, hworker, hpending]
    exact hm

theorem Streams.request {c : ι} {chatId : Bytes} {generation : Generation}
    (h : Streams serialize client s ms) (hstep : s.request c chatId generation = some s') :
    Streams serialize client s' ms := by
  obtain ⟨hrunning, strand, dispatcher, -, -, rfl⟩ := request_cases hstep
  rw [addTask_running hrunning]
  by_cases hc : client = c
  · subst hc
    have hconnection := connections_withSession s client
      (Session.handleRequest { (s.connections client).session with strand := strand })
    refine .of_session (congrArg Connection.session hconnection) h.taken ?_ h.partly
    change (s.connections client).session.responses ++ [[]] =
      _ ++ List.replicate (tasksOf client (_ ++ [_])).length []
    have hown : tasksOf client [⟨⟨client, chatId, generation⟩, s.worker.calls⟩] =
        [⟨⟨client, chatId, generation⟩, s.worker.calls⟩] := tasksOf_own rfl
    rw [tasksOf_append, hown, List.length_append, List.length_singleton, List.replicate_succ',
      h.responses, List.append_assoc]
  · have hconnection := s.connections_withSession_ne hc
      (Session.handleRequest { (s.connections c).session with strand := strand })
    refine .of_session (congrArg Connection.session hconnection) h.taken ?_ h.partly
    change _ = _ ++ List.replicate (tasksOf client (_ ++ [_])).length []
    rw [tasksOf_append, tasksOf_other fun heq => hc heq.symm, List.append_nil]
    exact h.responses

theorem Streams.begin_old (hsteady : Steady s) (h : Streams serialize client s ms)
    {tasks : List (Entry (ChatTask ι))} (htasks : s.worker.tasks = entry :: tasks)
    (hworker : s'.worker = { s.worker with
      tasks, phase := .executing entry, started := s.worker.started ++ [entry] }) :
    List.Forall₂ s'.Partly (tasksOf client s.worker.started) ms := by
  apply forall₂_tasksOf h.partly
  intro old hold _ m hm
  rw [Partly, hworker]
  refine ⟨?_, hm.2⟩
  intro hcurrent
  obtain rfl : old = entry := List.mem_singleton.mp hcurrent
  exact absurd rfl (hsteady.started_ne hold (by rw [htasks]; exact List.mem_cons_self))

theorem Streams.begin (hsteady : Steady s) (h : Streams serialize client s ms)
    {tasks : List (Entry (ChatTask ι))} (hphase : s.worker.phase = .checking)
    (htasks : s.worker.tasks = entry :: tasks) :
    ∃ ms', Streams serialize client { s.withSession entry.task.client
        (s.connections entry.task.client).session.taking with
      worker := { s.worker with
        tasks, phase := .executing entry, started := s.worker.started ++ [entry] }
      todo := entry.task.generation.trace } ms' := by
  obtain ⟨hcalls, -, -⟩ := hsteady.resting (by rw [hphase]; rfl)
  have hqueue : entry ∈ s.worker.phase.current ++ s.worker.tasks := by
    rw [htasks]
    exact List.mem_append_right _ List.mem_cons_self
  have htail : tasksOf client s.worker.tasks = tasksOf client [entry] ++ tasksOf client tasks := by
    rw [htasks, ← tasksOf_append, List.singleton_append]
  have hresponses := h.responses
  rw [htail] at hresponses
  by_cases hc : entry.task.client = client
  · rw [tasksOf_own hc, List.length_append, List.length_singleton, Nat.add_comm,
      List.replicate_succ] at hresponses
    have hconnection := connections_withSession s client (s.connections client).session.taking
    rw [hc]
    refine ⟨ms ++ [[]], .of_session (congrArg Connection.session hconnection) ?_ ?_ ?_⟩
    · rw [List.length_append, List.length_singleton]
      exact congrArg (· + 1) h.taken
    · rw [List.map_append, List.append_assoc]
      exact hresponses
    · change List.Forall₂ _ (tasksOf client (s.worker.started ++ [entry])) _
      rw [tasksOf_append, tasksOf_own hc]
      apply List.rel_append (h.begin_old hsteady htasks rfl)
      refine .cons ⟨?_, ?_⟩ .nil
      · intro _
        change [] ++ (s.calls.map Prod.snd ++ streamedMessages entry.task.generation.trace) = _
        rw [hcalls]
        rfl
      · exact fun f hf => absurd hf (hsteady.unfulfilled hqueue f)
  · rw [tasksOf_other hc, List.nil_append] at hresponses
    have hconnection := s.connections_withSession_ne (Ne.symm hc)
      (s.connections entry.task.client).session.taking
    refine ⟨ms, .of_session (congrArg Connection.session hconnection) h.taken hresponses ?_⟩
    change List.Forall₂ _ (tasksOf client (s.worker.started ++ [entry])) _
    rw [tasksOf_append, tasksOf_other hc, List.append_nil]
    exact h.begin_old hsteady htasks rfl

theorem Streams.call_own (hsteady : Steady s) (h : Streams serialize client s ms)
    (hphase : s.worker.phase = .executing entry) (hclient : entry.task.client = client)
    {payload : Json} {isEnd : Bool} {calls : List (ι × Json × Bool)}
    (hcalls : s.calls = (client, payload, isEnd) :: calls) :
    ∃ ms', Streams serialize client { s.withSession client
        ((s.connections client).session.enqueued (streamJsonMessage serialize payload isEnd) isEnd) with
      calls, callback := .posting client isEnd } ms' := by
  have hcurrent := mem_current hphase
  have hunfulfilled : ∀ f, (entry, f) ∉ s.worker.fulfilled :=
    hsteady.unfulfilled (List.mem_append_left _ hcurrent)
  -- the messages so far are those of the task that is executed
  obtain ⟨done, hfulfilled, hstarted, -⟩ := hsteady.split
  have hsplit : tasksOf client s.worker.started =
      tasksOf client (done.map Prod.fst) ++ [entry] := by
    rw [hstarted, hphase, tasksOf_append]
    exact congrArg _ (tasksOf_own hclient)
  have hpartly := h.partly
  rw [hsplit] at hpartly
  obtain ⟨before, m, rfl, hbefore, hm⟩ := forall₂_concat hpartly
  have hconnection := connections_withSession s client
    ((s.connections client).session.enqueued (streamJsonMessage serialize payload isEnd) isEnd)
  refine ⟨before ++ [m ++ [(payload, isEnd)]],
    .of_session (congrArg Connection.session hconnection) ?_ ?_ ?_⟩
  · rw [List.length_append]
    exact h.taken.trans List.length_append
  · have htaken : (s.connections client).session.taken - 1 =
        (before.map (chunksOf serialize)).length := by
      rw [h.taken, List.length_append, List.length_singleton, Nat.add_sub_cancel, List.length_map]
    have hmiddle := Session.modify_middle (before.map (chunksOf serialize))
      (List.replicate (tasksOf client s.worker.tasks).length []) (chunksOf serialize m)
      (· ++ [streamJsonMessage serialize payload isEnd])
    change (s.connections client).session.responses.modify _ _ = _
    rw [htaken, h.responses, List.map_append, List.append_assoc, List.map_append,
      List.append_assoc, List.map_singleton, List.map_singleton, Session.chunksOf_concat]
    exact hmiddle
  · change List.Forall₂ _ (tasksOf client s.worker.started) _
    rw [hsplit]
    apply List.rel_append
    · apply forall₂_tasksOf hbefore
      intro old hold _ m hm
      refine ⟨?_, hm.2⟩
      intro hexecuting
      obtain ⟨d, hd, rfl⟩ := List.mem_map.mp hold
      have hdone : (d.1, Fulfilment.executed d.2) ∈ s.worker.fulfilled := by
        rw [hfulfilled]
        exact List.mem_map_of_mem hd
      rw [eq_of_current hphase hexecuting] at hdone
      exact absurd hdone (hunfulfilled _)
    · refine .cons ⟨?_, fun f hf => absurd hf (hunfulfilled f)⟩ .nil
      intro _
      have hmessages := hm.1 hcurrent
      rw [pending, hcalls] at hmessages
      rw [List.append_assoc]
      exact hmessages

theorem Streams.call_other (h : Streams serialize client s ms)
    (hphase : s.worker.phase = .executing entry) (hclient : entry.task.client ≠ client) {c : ι}
    (hc : client ≠ c) (session : Session) (calls : List (ι × Json × Bool))
    (callback : CallbackPhase ι) :
    Streams serialize client { s.withSession c session with calls, callback } ms := by
  have hconnection := s.connections_withSession_ne hc session
  refine .of_session (congrArg Connection.session hconnection) h.taken h.responses ?_
  apply forall₂_tasksOf h.partly
  intro old _ hold m hm
  refine ⟨?_, hm.2⟩
  intro hexecuting
  rw [eq_of_current hphase hexecuting] at hold
  exact absurd hold hclient

theorem Streams.call (hsteady : Steady s) (hheard : Heard s) (h : Streams serialize client s ms)
    (hstep : s.call serialize = some s') : ∃ ms', Streams serialize client s' ms' := by
  obtain ⟨c, payload, isEnd, calls, -, hcalls, rfl⟩ := call_cases hstep
  obtain ⟨entry, hphase⟩ := hsteady.executing (.inl (by simp [hcalls]))
  have howner : c = entry.task.client := (hheard.current entry (mem_current hphase)).own c
    (.inl (by rw [hcalls]; exact List.mem_cons_self))
  by_cases hc : client = c
  · subst hc
    exact h.call_own hsteady hphase howner.symm hcalls
  · exact ⟨ms, h.call_other hphase (fun heq => hc (heq.symm.trans howner.symm)) hc _ _ _⟩

theorem Streams.post (h : Streams serialize client s ms) (hstep : s.post = some s') :
    Streams serialize client s' ms := by
  obtain ⟨c, isEnd, -, rfl⟩ := post_cases hstep
  by_cases hc : client = c
  · subst hc
    have hconnection := connections_withSession s client ((s.connections client).session.posted isEnd)
    exact .of_session (congrArg Connection.session hconnection) h.taken h.responses h.partly
  · have hconnection := s.connections_withSession_ne hc ((s.connections c).session.posted isEnd)
    exact .of_session (congrArg Connection.session hconnection) h.taken h.responses h.partly

theorem Streams.reply (h : Streams serialize client s ms)
    (hphase : s.worker.phase = .executing entry) (hpending : s.pending = []) (reply : Reply) :
    Streams serialize client { s with
      worker := { s.worker with
        phase := .checking
        fulfilled := s.worker.fulfilled ++ [(entry, .executed reply)] }
      todo := [] } ms := by
  refine ⟨h.taken, h.responses, h.partly.imp ?_⟩
  intro entry' m hm
  refine ⟨fun hcurrent => absurd hcurrent List.not_mem_nil, ?_⟩
  intro f hf
  rcases List.mem_append.mp hf with hold | hnew
  · exact hm.2 f hold
  · cases List.mem_singleton.mp hnew
    rw [← hm.1 (mem_current hphase), hpending, List.append_nil]

/-- The books of a server whose steps complete the tasks. -/
structure Accounts (serialize : Json → Bytes) (s : ChatServer ι) : Prop where
  steady : Steady s
  counts : Counts s
  heard : Heard s
  streams : ∀ client, ∃ ms, Streams serialize client s ms

theorem accounts_start (serialize : Json → Bytes) : Accounts serialize (start : ChatServer ι) :=
  ⟨steady_start, ⟨List.forall_mem_nil _, List.forall_mem_nil _, List.forall_mem_nil _⟩,
    ⟨List.forall_mem_nil _, List.forall_mem_nil _, List.forall_mem_nil _⟩,
    fun _ => ⟨[], rfl, rfl, .nil⟩⟩

theorem Accounts.same (h : Accounts serialize s) (hsame : SameWork s s') (hsteady : Steady s') :
    Accounts serialize s' := by
  refine ⟨hsteady, h.counts.same hsame, h.heard.same hsame, fun client => ?_⟩
  obtain ⟨ms, hstreams⟩ := h.streams client
  exact ⟨ms, hstreams.same hsame⟩

theorem Accounts.check (h : Accounts serialize s) (hsteady : Steady s') (hregular : s.Regular .check)
    (hstep : s.worker.check.map s.begin = some s') : Accounts serialize s' := by
  obtain ⟨hphase, ⟨-, rfl⟩ | ⟨entry, tasks, htasks, rfl⟩ | ⟨hstopped, rfl⟩⟩ := check_cases hstep
  · exact h.same (sameWork_worker (by rw [hphase]; rfl) rfl rfl rfl) hsteady
  · refine ⟨hsteady, h.counts.begin h.steady htasks rfl rfl rfl,
      h.heard.begin h.steady hphase htasks _, fun client => ?_⟩
    obtain ⟨ms, hstreams⟩ := h.streams client
    exact hstreams.begin h.steady hphase htasks
  · have htasks : s.worker.tasks = [] := hregular.resolve_left (by simp [hstopped])
    rw [drain_nil htasks] at hsteady ⊢
    exact h.same (sameWork_worker (by rw [hphase]; rfl) rfl rfl rfl) hsteady

/-- A generation that has dispatched its terminal event returns or throws. -/
theorem Accounts.reply (h : Accounts serialize s) (hphase : s.worker.phase = .executing entry)
    (hcalls : s.calls = []) (hcallback : s.callback = .outside)
    (htodo : ∀ a ∈ s.todo, a.completes = false) (reply : Reply) :
    Accounts serialize { s with
      worker := { s.worker with
        phase := .checking
        fulfilled := s.worker.fulfilled ++ [(entry, .executed reply)] }
      todo := [] } := by
  have hpending := (h.heard.current entry (mem_current hphase)).pending_eq_nil hcalls htodo
  refine ⟨h.steady.reply hphase hcalls hcallback reply, h.counts.reply hphase htodo reply,
    h.heard.reply hphase hcalls hcallback htodo reply, fun client => ?_⟩
  obtain ⟨ms, hstreams⟩ := h.streams client
  exact ⟨ms, hstreams.reply hphase hpending reply⟩

theorem Accounts.step (h : Accounts serialize s) {label : Label ι} (hlabel : s.Completing label)
    (hstep : s.step serialize label = some s') : Accounts serialize s' := by
  have hsteady := h.steady.step hlabel.regular hstep
  cases label with
  | receive c keepAlive =>
    exact h.same (sameWork_step serialize (.receive keepAlive) trivial hstep) hsteady
  | readFails c endOfStream =>
    exact h.same (sameWork_step serialize (.readFails endOfStream) trivial hstep) hsteady
  | complete c =>
    exact h.same (sameWork_step serialize .complete trivial hstep) hsteady
  | completeLate c bytes =>
    exact h.same (sameWork_step serialize (.completeLate bytes) trivial hstep) hsteady
  | writeFails c bytes =>
    exact h.same (sameWork_step serialize (.writeFails bytes) trivial hstep) hsteady
  | run c => exact h.same (sameWork_run hstep) hsteady
  | request c chatId generation =>
    obtain ⟨hrunning, strand, dispatcher, -, -, hs'⟩ := request_cases hstep
    have hcounts : Counts s' := by
      rw [hs', addTask_running hrunning]
      exact ⟨h.counts.origin, h.counts.current, h.counts.done⟩
    refine ⟨hsteady, hcounts, h.heard.request h.steady hlabel hstep, fun client => ?_⟩
    obtain ⟨ms, hstreams⟩ := h.streams client
    exact ⟨ms, hstreams.request hstep⟩
  | stop =>
    cases hstep
    refine h.same ?_ hsteady
    rw [Worker.stop]
    split_ifs
    · exact sameWork_worker rfl rfl rfl rfl
    · exact sameWork_worker rfl rfl rfl rfl
  | notify =>
    obtain ⟨worker, hworker, rfl⟩ := Option.map_eq_some_iff.mp hstep
    refine h.same ?_ hsteady
    rw [notify_cases hworker]
    exact sameWork_worker (Phase.awake_current _) rfl rfl rfl
  | wake =>
    cases hstep
    exact h.same (sameWork_worker (Phase.awake_current _) rfl rfl rfl) hsteady
  | check => exact h.check hsteady hlabel hstep
  | act =>
    obtain ⟨entry, hphase, -, -, hcases⟩ := act_cases hstep
    have hpending := (act_pending (h.heard.current entry (mem_current hphase)) hphase hstep).1
    refine ⟨hsteady, h.counts.act h.steady hstep, h.heard.act hstep, fun client => ?_⟩
    obtain ⟨ms, hstreams⟩ := h.streams client
    refine ⟨ms, ?_⟩
    rcases hcases with ⟨e, todo, -, rfl⟩ | ⟨a, todo, -, -, -, rfl⟩
    · exact hstreams.unstreamed rfl rfl hpending
    · exact hstreams.unstreamed rfl rfl hpending
  | call =>
    refine ⟨hsteady, ?_, h.heard.call hstep, fun client => ?_⟩
    · obtain ⟨c, payload, isEnd, calls, -, -, rfl⟩ := call_cases hstep
      exact ⟨h.counts.origin, h.counts.current, h.counts.done⟩
    · obtain ⟨ms, hstreams⟩ := h.streams client
      exact hstreams.call h.steady h.heard hstep
  | post =>
    refine ⟨hsteady, ?_, h.heard.post hstep, fun client => ?_⟩
    · obtain ⟨c, isEnd, -, rfl⟩ := post_cases hstep
      exact ⟨h.counts.origin, h.counts.current, h.counts.done⟩
    · obtain ⟨ms, hstreams⟩ := h.streams client
      exact ⟨ms, hstreams.post hstep⟩
  | unlisten groupId =>
    refine ⟨hsteady, ?_, h.heard.unlisten h.steady hlabel hstep, fun client => ?_⟩
    · obtain ⟨-, dispatcher, -, rfl⟩ := unlisten_cases hstep
      exact ⟨h.counts.origin, h.counts.current, h.counts.done⟩
    · obtain ⟨ms, hstreams⟩ := h.streams client
      obtain ⟨-, dispatcher, -, rfl⟩ := unlisten_cases hstep
      exact ⟨ms, hstreams.unstreamed rfl rfl rfl⟩
  | throw =>
    obtain ⟨hcalls, hcallback, entry, hphase, rfl⟩ := throw_cases hstep
    exact h.reply hphase hcalls hcallback hlabel .exception
  | finish =>
    obtain ⟨hcalls, hcallback, htodo, entry, hphase, rfl⟩ := finish_cases hstep
    have haccounts := h.reply hphase hcalls hcallback (by rw [htodo]; exact List.forall_mem_nil _)
      (.value entry.task.generation.output)
    rw [← htodo] at haccounts
    exact haccounts

/-- The chunks of a generation that has ended have the terminal chunk behind the others. -/
theorem closed_chunks (hline : ∀ payload, (13 : UInt8) ∉ serialize payload) (gen : Generation) :
    Session.Closed (chunksOf serialize (streamedMessages gen.trace)) := by
  have hterminal : ∀ m : Json × Bool, isTerminal (streamJsonMessage serialize m.1 m.2) = m.2 :=
    fun m => Bool.eq_iff_iff.mpr (isTerminal_iff (hline m.1) m.2)
  obtain ⟨front, last, hmessages, hlast, hfront⟩ := messages_end gen
  refine ⟨chunksOf serialize front, _, by rw [hmessages, Session.chunksOf_concat], ?_, ?_⟩
  · intro chunk hchunk
    obtain ⟨m, hm, rfl⟩ := List.mem_map.mp hchunk
    rw [hterminal, hfront m hm]
  · rw [hterminal, hlast]

theorem Accounts.completed (hline : ∀ payload, (13 : UInt8) ∉ serialize payload)
    (h : Accounts serialize s) {f : Fulfilment Reply} (hf : (entry, f) ∈ s.worker.fulfilled) :
    s.Completed entry := by
  refine ⟨h.counts.done _ hf, ?_, h.heard.done _ hf⟩
  obtain ⟨ms, hstreams⟩ := h.streams entry.task.client
  obtain ⟨done, hfulfilled, hstarted, haccepted⟩ := h.steady.split
  have hentry : entry ∈ tasksOf entry.task.client s.worker.started := by
    apply List.mem_filter.mpr ⟨?_, by simp⟩
    rw [hfulfilled] at hf
    obtain ⟨d, hd, heq⟩ := List.mem_map.mp hf
    cases heq
    rw [hstarted]
    exact List.mem_append_left _ (List.mem_map_of_mem hd)
  obtain ⟨k, hk, hget⟩ := List.mem_iff_getElem.mp hentry
  have hk' : k < ms.length := hstreams.partly.length_eq ▸ hk
  have hm : ms[k] = streamedMessages entry.task.generation.trace := by
    have hpartly := hstreams.partly.get hk hk'
    rw [List.get_eq_getElem, List.get_eq_getElem, hget] at hpartly
    exact hpartly.2 f hf
  refine ⟨k, chunksOf serialize ms[k], ?_, ?_, ?_⟩
  · rw [haccepted, tasksOf_append, List.getElem?_append_left hk, List.getElem?_eq_getElem hk, hget]
  · rw [hstreams.responses, List.getElem?_append_left (by rwa [List.length_map]),
      List.getElem?_map, List.getElem?_eq_getElem hk']
    rfl
  · rw [hm]
    exact closed_chunks hline _

theorem accounts_of_meets {labels : List (Label ι)}
    (hmeets : (system serialize).Meets Completing start labels)
    (hrun : (system serialize).run labels = some s) : Accounts serialize s := by
  apply Transitions.invariant_of_meets _ (system serialize).reachable_start
    (accounts_start serialize) hmeets hrun
  intro s label s' _ hlabel hstep h
  exact h.step hlabel hstep

/-- In a run of the worker whose steps are orderly a promise is fulfilled with exactly one terminal
event. In a run of the server whose steps complete the tasks the stream of the chat then has its
terminal chunk, behind all others, and the listener is unregistered. -/
theorem completed_of_fulfilled (hline : ∀ payload, (13 : UInt8) ∉ serialize payload) :
    (∀ run s, InferenceWorker.system.Meets InferenceWorker.Orderly .new run →
      InferenceWorker.system.run run = some s → InferenceWorker.ExactlyOne s) ∧
    ∀ labels (s : ChatServer ι), (system serialize).Meets Completing start labels →
      (system serialize).run labels = some s → ∀ f ∈ s.worker.fulfilled, s.Completed f.1 := by
  refine ⟨fun run s => InferenceWorker.exactlyOne_of_orderly, ?_⟩
  intro labels s hmeets hrun f hf
  exact (accounts_of_meets hmeets hrun).completed hline hf

instance (s : ChatServer ι) : (label : Label ι) → Decidable (s.Completing label)
  | .request _ chatId _ => inferInstanceAs (Decidable (∀ entry ∈ s.worker.accepted, _ ≠ chatId))
  | .check => inferInstanceAs (Decidable (s.worker.running = true ∨ s.worker.tasks = []))
  | .throw => inferInstanceAs (Decidable (∀ a ∈ s.todo, a.completes = false))
  | .unlisten groupId =>
    inferInstanceAs (Decidable (∀ entry ∈ s.worker.phase.current, _ = groupId))
  | .receive _ _ => isTrue trivial
  | .readFails _ _ => isTrue trivial
  | .complete _ => isTrue trivial
  | .completeLate _ _ => isTrue trivial
  | .writeFails _ _ => isTrue trivial
  | .run _ => isTrue trivial
  | .stop => isTrue trivial
  | .notify => isTrue trivial
  | .wake => isTrue trivial
  | .act => isTrue trivial
  | .call => isTrue trivial
  | .post => isTrue trivial
  | .finish => isTrue trivial

/-- Two clients send a request each, and one of them goes away. The other one's generation throws
behind its terminal event. -/
def twoTasks : List (Label Bool) :=
  [.run false, .run true, .receive true true, .receive false true,
    .request true [1] greetingGeneration, .request false [2] greetingGeneration, .run true,
    .writeFails true [], .run false, .complete false, .run false, .check, .act, .act, .act, .act,
    .act, .act, .act, .call, .post, .act, .act, .act, .call, .post, .unlisten [1], .finish, .check,
    .act, .act, .act, .act, .act, .act, .act, .call, .post, .run false, .complete false,
    .act, .act, .act, .call, .post, .unlisten [2], .throw, .stop, .check]

/-- The same generations for a worker that is used without the server. -/
def twoInferences : List InferenceWorker.Label :=
  [.addTask ⟨"chatcmpl-1", greetingGeneration⟩, .addTask ⟨"chatcmpl-2", greetingGeneration⟩, .check,
    .act, .act, .act, .act, .act, .act, .act, .act, .act, .act, .finish, .check, .act, .act, .act,
    .act, .act, .act, .act, .act, .act, .act, .throw, .stop, .check]

theorem completed_of_fulfilled_twoTasks :
    (∃ s, InferenceWorker.system.run twoInferences = some s ∧ s.worker.fulfilled.length = 2 ∧
      InferenceWorker.ExactlyOne s) ∧
    ∃ s, (system writeSample).run twoTasks = some s ∧ s.worker.fulfilled.length = 2 ∧
      ∀ f ∈ s.worker.fulfilled, s.Completed f.1 := by
  obtain ⟨hone, hcompleted⟩ := @completed_of_fulfilled Bool _ writeSample writeSample_line
  constructor
  · have hrun : (InferenceWorker.system.run twoInferences).isSome = true := by decide +kernel
    have hlength : ∀ s ∈ InferenceWorker.system.run twoInferences,
        s.worker.fulfilled.length = 2 := by decide +kernel
    obtain ⟨s, hs⟩ := Option.isSome_iff_exists.mp hrun
    exact ⟨s, hs, hlength s hs, hone _ s (by decide +kernel) hs⟩
  · have hrun : ((system writeSample).run twoTasks).isSome = true := by decide +kernel
    have hlength : ∀ s ∈ (system writeSample).run twoTasks,
        s.worker.fulfilled.length = 2 := by decide +kernel
    obtain ⟨s, hs⟩ := Option.isSome_iff_exists.mp hrun
    exact ⟨s, hs, hlength s hs, hcompleted _ s (by decide +kernel) hs⟩

end ChatServer

end ZInferLM.Serve
