import ZInferLM.Serve.ChatServer

/-! # The clients of a server

A client is served as if it were alone, whatever the others do. What holds of its session while the
server runs has one lemma for each step that concerns it and one for the steps that do not. -/

namespace ZInferLM.Serve
open Library Library.Utf8 Tokenizer Inference Worker
open Library.Multimap (values)

namespace ChatServer

variable {ι : Type} [DecidableEq ι] {s s' : ChatServer ι} {client : ι} {serialize : Json → Bytes}
  {ms : List (List (Json × Bool))} {entry : Entry (ChatTask ι)}

/-- A generation that is executed has its messages in the response or pending, and one that has
returned has them in the response. -/
def Streamed (client : ι) (s : ChatServer ι) (entry : Entry (ChatTask ι))
    (ms : List (Json × Bool)) : Prop :=
  (s.worker.phase = .executing entry → entry.task.client = client →
    ms ++ s.pending = streamedMessages entry.task.generation.trace) ∧
  ∀ out, (entry, .executed (.value out)) ∈ s.worker.fulfilled →
    ms = streamedMessages entry.task.generation.trace

/-- The callback of a chat listens, and its session is ready for the next message. -/
structure Engaged (client : ι) (s : ChatServer ι) (chatId : Bytes) : Prop where
  listens : values s.dispatcher.listeners chatId = [⟨client, chatEvents⟩]
  callback : s.callback ≠ .unlistening
  worker : (s.connections client).session.worker = .streaming ∨ s.callback = .posting client false

/-- The session of a client and what the server has to do for it. -/
structure Serves (serialize : Json → Bytes) (client : ι) (s : ChatServer ι)
    (ms : List (List (Json × Bool))) : Prop where
  isOpen : (s.connections client).closed = false
  sound : (s.connections client).session.Sound serialize ms
  tasks : (s.connections client).session.tasks = (tasksOf client s.worker.tasks).length
  posting : ∀ isEnd, (s.connections client).session.worker = .posting isEnd ↔
    s.callback = .posting client isEnd
  queued : ∀ entry ∈ s.worker.tasks, entry.task.client = client →
    values s.dispatcher.listeners entry.task.chatId = [⟨client, chatEvents⟩]
  calls : ∀ entry, s.worker.phase = .executing entry → ∀ c, s.Calls c →
    (c = client ↔ entry.task.client = client)
  current : ∀ entry, s.worker.phase = .executing entry → entry.task.client = client →
    s.pending ≠ [] → s.Engaged client entry.task.chatId
  streamed : List.Forall₂ (Streamed client s) (tasksOf client s.worker.started) ms

theorem tasksOf_append (client : ι) (es es' : List (Entry (ChatTask ι))) :
    tasksOf client (es ++ es') = tasksOf client es ++ tasksOf client es' :=
  List.filter_append _ _

theorem tasksOf_own (hclient : entry.task.client = client) : tasksOf client [entry] = [entry] :=
  List.filter_cons_of_pos (by simpa using hclient)

theorem tasksOf_other (hclient : entry.task.client ≠ client) : tasksOf client [entry] = [] :=
  List.filter_cons_of_neg (by simpa using hclient)

theorem serves_start (serialize : Json → Bytes) (client : ι) :
    Serves serialize client start [] := by
  refine ⟨rfl, Session.sound_start, rfl, ?_, List.forall_mem_nil _, ?_, ?_, .nil⟩
  · intro isEnd
    constructor
    · intro h
      cases h
    · intro h
      cases h
  · intro entry h
    cases h
  · intro entry h
    cases h

theorem Serves.withConnection_ne (h : Serves serialize client s ms) {c : ι} (hc : client ≠ c)
    (connection : Connection) : Serves serialize client (s.withConnection c connection) ms := by
  have hconnection := s.connections_withConnection_ne hc connection
  refine ⟨?_, ?_, ?_, ?_, h.queued, h.calls, ?_, h.streamed⟩
  · rw [hconnection]
    exact h.isOpen
  · rw [hconnection]
    exact h.sound
  · rw [hconnection]
    exact h.tasks
  · rw [hconnection]
    exact h.posting
  · intro entry hphase hclient hpending
    have hengaged := h.current entry hphase hclient hpending
    refine ⟨hengaged.listens, hengaged.callback, ?_⟩
    rw [hconnection]
    exact hengaged.worker

/-- The steps of the network and of the strand leave the worker and its tasks alone. -/
theorem Serves.withConnection_self (h : Serves serialize client s ms) {connection : Connection}
    (hopen : connection.closed = false) (hsound : connection.session.Sound serialize ms)
    (hworker : connection.session.worker = (s.connections client).session.worker)
    (htasks : connection.session.tasks = (s.connections client).session.tasks) :
    Serves serialize client (s.withConnection client connection) ms := by
  have hconnection := s.connections_withConnection client connection
  refine ⟨?_, ?_, ?_, ?_, h.queued, h.calls, ?_, h.streamed⟩
  · rw [hconnection]
    exact hopen
  · rw [hconnection]
    exact hsound
  · rw [hconnection, htasks]
    exact h.tasks
  · rw [hconnection, hworker]
    exact h.posting
  · intro entry hphase hclient hpending
    have hengaged := h.current entry hphase hclient hpending
    refine ⟨hengaged.listens, hengaged.callback, ?_⟩
    rw [hconnection, hworker]
    exact hengaged.worker

section
variable (hline : ∀ payload, (13 : UInt8) ∉ serialize payload)
include hline

theorem Serves.receive (h : Serves serialize client s ms) {keepAlive : Bool}
    {connection : Connection}
    (hstep : (s.connections client).receive keepAlive = some connection) :
    Serves serialize client (s.withConnection client connection) ms := by
  obtain ⟨session, hsession, rfl⟩ := Option.map_eq_some_iff.mp hstep
  have hsound := h.sound.step hline (show Session.Orderly _ .receive from trivial) hsession
  rw [Session.receive] at hsession
  split_ifs at hsession
  cases hsession
  exact h.withConnection_self h.isOpen hsound rfl rfl

theorem Serves.complete (h : Serves serialize client s ms) {connection : Connection}
    (hstep : (s.connections client).complete = some connection) :
    Serves serialize client (s.withConnection client connection) ms := by
  rw [Connection.complete, h.isOpen, if_neg Bool.false_ne_true] at hstep
  obtain ⟨session, hsession, rfl⟩ := Option.map_eq_some_iff.mp hstep
  have hsound := h.sound.step hline (show Session.Orderly _ .complete from trivial) hsession
  rw [Session.complete] at hsession
  split at hsession
  · cases hsession
  · cases hsession
    exact h.withConnection_self h.isOpen hsound rfl rfl

theorem Serves.completeLate (h : Serves serialize client s ms) {bytes : Bytes}
    (horderly : (s.connections client).Orderly (.completeLate bytes)) {connection : Connection}
    (hstep : (s.connections client).completeLate bytes = some connection) :
    Serves serialize client (s.withConnection client connection) ms :=
  h.complete hline (Connection.complete_of_late horderly hstep)

theorem Serves.runStrand (h : Serves serialize client s ms)
    (horderly : (s.connections client).session.Orderly .run)
    (hends : ¬ (s.connections client).Ends .run)
    (hhead : (s.connections client).session.strand.head? ≠ some .handleRequest)
    {connection : Connection} (hstep : (s.connections client).runStrand = some connection) :
    Serves serialize client (s.withConnection client connection) ms := by
  cases hstrand : (s.connections client).session.strand with
  | nil => simp [Connection.runStrand, hstrand] at hstep
  | cons handler strand =>
    simp only [Connection.runStrand, hstrand, Option.some.injEq] at hstep
    rw [hstrand] at hhead
    have hhandler : handler ≠ .handleRequest := fun heq => hhead (congrArg some heq)
    have hcontinues :
        ¬ ((s.connections client).keepAlive = false ∧ Connection.isLast handler = true) := by
      rw [Connection.Ends, hstrand] at hends
      exact hends
    rw [@Connection.handle_eq ((s.connections client).withSession
      { (s.connections client).session with strand := strand }) handler hcontinues] at hstep
    subst hstep
    have hsound := h.sound.step hline horderly
      (show Session.step serialize _ .run = some _ by rw [Session.step, Session.runStrand, hstrand])
    have hsame := Session.handle_sameTasks hhandler
      { (s.connections client).session with strand := strand }
    exact h.withConnection_self h.isOpen hsound hsame.worker hsame.tasks

end

theorem Serves.request (hline : ∀ payload, (13 : UInt8) ∉ serialize payload) {c : ι}
    {chatId : Bytes} {generation : Generation} (hsteady : Steady s)
    (h : Serves serialize client s ms)
    (hnew : ∀ entry ∈ s.worker.accepted, entry.task.chatId ≠ chatId)
    (hstep : s.request c chatId generation = some s') : Serves serialize client s' ms := by
  obtain ⟨hrunning, strand, dispatcher, hstrand, hlisten, rfl⟩ := request_cases hstep
  have hvalues : ∀ entry ∈ s.worker.phase.current ++ s.worker.tasks,
      values dispatcher.listeners entry.task.chatId =
        values s.dispatcher.listeners entry.task.chatId := by
    intro entry hentry
    rw [hsteady.values_listen hnew hlisten, if_neg (hnew entry (hsteady.mem_accepted hentry))]
  have hcurrent : ∀ entry, s.worker.phase = .executing entry →
      values dispatcher.listeners entry.task.chatId =
        values s.dispatcher.listeners entry.task.chatId := by
    intro entry hphase
    apply hvalues
    rw [hphase]
    exact List.mem_cons_self
  have hself : values dispatcher.listeners chatId = [⟨c, chatEvents⟩] := by
    rw [hsteady.values_listen hnew hlisten, if_pos rfl]
  rw [addTask_running hrunning]
  have hqueued : ∀ entry ∈ s.worker.tasks ++ [⟨⟨c, chatId, generation⟩, s.worker.calls⟩],
      entry.task.client = client →
        values dispatcher.listeners entry.task.chatId = [⟨client, chatEvents⟩] := by
    intro entry hentry hclient
    rcases List.mem_append.mp hentry with hold | hself'
    · rw [hvalues entry (List.mem_append_right _ hold)]
      exact h.queued entry hold hclient
    · rw [List.mem_singleton.mp hself'] at hclient ⊢
      rw [hself]
      exact congrArg (fun c => [Events.Listener.mk c chatEvents]) hclient
  by_cases hc : client = c
  · subst hc
    have hsound := h.sound.step hline (show Session.Orderly _ .run from fun hflush => by
      rw [hstrand] at hflush
      cases hflush) (show Session.step serialize _ .run = some _ by
      rw [Session.step, Session.runStrand, hstrand])
    have hown : tasksOf client [⟨⟨client, chatId, generation⟩, s.worker.calls⟩] =
        [⟨⟨client, chatId, generation⟩, s.worker.calls⟩] := tasksOf_own rfl
    have hconnection := connections_withSession s client
      (Session.handleRequest { (s.connections client).session with strand := strand })
    refine ⟨?_, ?_, ?_, ?_, hqueued, h.calls, ?_, h.streamed⟩
    · rw [show ChatServer.connections _ client = _ from hconnection]
      exact h.isOpen
    · rw [show ChatServer.connections _ client = _ from hconnection]
      exact hsound
    · rw [show ChatServer.connections _ client = _ from hconnection]
      change (s.connections client).session.tasks + 1 = (tasksOf client (_ ++ [_])).length
      rw [tasksOf_append, hown, List.length_append, h.tasks, List.length_singleton]
    · rw [show ChatServer.connections _ client = _ from hconnection]
      exact h.posting
    · intro entry hphase hclient hpending
      have hengaged := h.current entry hphase hclient hpending
      refine ⟨(hcurrent entry hphase).trans hengaged.listens, hengaged.callback, ?_⟩
      rw [show ChatServer.connections _ client = _ from hconnection]
      exact hengaged.worker
  · have hother := h.withConnection_ne hc ((s.connections c).withSession
      (Session.handleRequest { (s.connections c).session with strand := strand }))
    refine ⟨hother.isOpen, hother.sound, ?_, hother.posting, hqueued, h.calls, ?_, h.streamed⟩
    · change _ = (tasksOf client (_ ++ [_])).length
      rw [tasksOf_append, tasksOf_other (fun heq => hc heq.symm), List.append_nil]
      exact hother.tasks
    · intro entry hphase hclient hpending
      have hengaged := hother.current entry hphase hclient hpending
      exact ⟨(hcurrent entry hphase).trans hengaged.listens, hengaged.callback, hengaged.worker⟩

/-- What holds of the messages of the tasks of a client is shown task by task. -/
theorem forall₂_tasksOf {R R' : Entry (ChatTask ι) → List (Json × Bool) → Prop}
    {es : List (Entry (ChatTask ι))} (h : List.Forall₂ R (tasksOf client es) ms)
    (himp : ∀ entry ∈ es, entry.task.client = client → ∀ m, R entry m → R' entry m) :
    List.Forall₂ R' (tasksOf client es) ms := by
  have hmem : ∀ entry ∈ tasksOf client es, entry ∈ es ∧ entry.task.client = client := by
    intro entry hentry
    simpa [tasksOf] using hentry
  apply (List.forall₂_and_left _ _ |>.mpr ⟨hmem, h⟩).imp
  rintro entry m ⟨⟨hentry, hclient⟩, hR⟩
  exact himp entry hentry hclient m hR

theorem forall₂_concat {α β : Type} {R : α → β → Prop} {xs : List α} {x : α} {ys : List β}
    (h : List.Forall₂ R (xs ++ [x]) ys) :
    ∃ ys' y, ys = ys' ++ [y] ∧ List.Forall₂ R xs ys' ∧ R x y := by
  induction xs generalizing ys with
  | nil =>
    cases h with
    | cons hxy hrest =>
      cases hrest
      exact ⟨[], _, rfl, .nil, hxy⟩
  | cons a xs ih =>
    cases h with
    | cons hab hrest =>
      obtain ⟨ys', y, rfl, hys, hxy⟩ := ih hrest
      exact ⟨_ :: ys', y, rfl, .cons hab hys, hxy⟩

theorem isEnd_of_pending {gen : Generation} {before after : List (Json × Bool)} {m : Json × Bool}
    (h : before ++ m :: after = streamedMessages gen.trace) (hafter : after ≠ []) :
    m.2 = false := by
  obtain ⟨reason, htrace⟩ := streamedMessages_trace gen
  obtain ⟨rest, last, rfl⟩ := (List.eq_nil_or_concat' after).resolve_left hafter
  rw [htrace, ← List.cons_append, ← List.append_assoc] at h
  have hbefore := (List.append_inj' h rfl).1
  have hm : m ∈ gen.payloads.map fun token => (tokenMessage token, false) := by
    rw [← hbefore]
    exact List.mem_append_right _ List.mem_cons_self
  obtain ⟨token, -, rfl⟩ := List.mem_map.mp hm
  rfl

omit [DecidableEq ι] in
theorem awake_eq_executing {phase : Phase (ChatTask ι)} :
    phase.awake = .executing entry ↔ phase = .executing entry := by
  cases phase <;> simp [Phase.awake]

theorem Serves.awake (h : Serves serialize client s ms) (notifications : ℕ) :
    Serves serialize client { s with worker :=
      { s.worker with phase := s.worker.phase.awake, notifications } } ms := by
  refine ⟨h.isOpen, h.sound, h.tasks, h.posting, h.queued, ?_, ?_, ?_⟩
  · exact fun entry hphase => h.calls entry (awake_eq_executing.mp hphase)
  · intro entry hphase hclient hpending
    have hengaged := h.current entry (awake_eq_executing.mp hphase) hclient hpending
    exact ⟨hengaged.listens, hengaged.callback, hengaged.worker⟩
  · apply h.streamed.imp
    intro entry m hm
    exact ⟨fun hphase => hm.1 (awake_eq_executing.mp hphase), hm.2⟩

/-- A session with a task in the queue is not being streamed to. -/
theorem worker_of_tasks {t : Session} (h : t.Consistent) (htasks : t.tasks ≠ 0) :
    t.worker = .idle ∨ t.worker = .posting true := by
  have hserving : ∀ {n : ℕ} {chunks : List Bytes},
      Session.Serving t.worker t.tasks t.taken n chunks →
        t.worker = .idle ∨ t.worker = .posting true := by
    intro n chunks hserving
    cases hserving with
    | submitted _ _ _ hworker => exact hworker
    | streaming hzero _ _ _ => exact absurd hzero htasks
    | finished hzero _ _ _ => exact absurd hzero htasks
  cases h with
  | starting h => exact absurd (by rw [h]; rfl) htasks
  | between h => exact h.worker
  | initiating done h => exact hserving h.serving
  | waiting done gone h woken => exact hserving h.serving
  | writing done gone w h => exact hserving h.serving

theorem Serves.begin_own (hline : ∀ payload, (13 : UInt8) ∉ serialize payload)
    (hsteady : Steady s) (h : Serves serialize client s ms) {tasks : List (Entry (ChatTask ι))}
    (hphase : s.worker.phase = .checking) (htasks : s.worker.tasks = entry :: tasks)
    (hclient : entry.task.client = client) :
    Serves serialize client
      { s.withSession client (s.connections client).session.taking with
        worker := { s.worker with
          tasks, phase := .executing entry, started := s.worker.started ++ [entry] }
        todo := entry.task.generation.trace } (ms ++ [[]]) := by
  obtain ⟨hcalls, hcallback, -⟩ := hsteady.resting (by rw [hphase]; rfl)
  obtain ⟨done, -, -, haccepted⟩ := hsteady.split
  have hqueue : entry ∈ s.worker.phase.current ++ s.worker.tasks := by
    rw [htasks]
    exact List.mem_append_right _ List.mem_cons_self
  have hcount : (s.connections client).session.tasks = (tasksOf client tasks).length + 1 := by
    rw [h.tasks, htasks, ← List.singleton_append, tasksOf_append, tasksOf_own hclient]
    rfl
  have hidle : (s.connections client).session.worker = .idle := by
    rcases worker_of_tasks h.sound.consistent (by rw [hcount]; exact Nat.succ_ne_zero _) with
      hidle | hposting
    · exact hidle
    · have hcalled := (h.posting true).mp hposting
      rw [hcallback] at hcalled
      cases hcalled
  have htake : (s.connections client).session.take = some (s.connections client).session.taking := by
    rw [Session.take, if_pos ⟨hidle, by rw [hcount]; exact Nat.succ_ne_zero _⟩]
    rfl
  have hsound := h.sound.step hline (show Session.Orderly _ .take from trivial) htake
  have hconnection := connections_withSession s client (s.connections client).session.taking
  refine ⟨?_, ?_, ?_, ?_, ?_, ?_, ?_, ?_⟩
  · rw [show ChatServer.connections _ client = _ from hconnection]
    exact h.isOpen
  · rw [show ChatServer.connections _ client = _ from hconnection]
    exact hsound
  · rw [show ChatServer.connections _ client = _ from hconnection]
    change (s.connections client).session.tasks - 1 = _
    rw [hcount]
    rfl
  · intro isEnd
    rw [show ChatServer.connections _ client = _ from hconnection]
    change WorkerPhase.streaming = _ ↔ s.callback = _
    rw [hcallback]
    constructor
    · intro heq
      cases heq
    · intro heq
      cases heq
  · intro queued hqueued
    exact h.queued queued (by rw [htasks]; exact List.mem_cons_of_mem _ hqueued)
  · rintro current hcurrent c (hmem | ⟨isEnd, hposting⟩)
    · change c ∈ s.calls.map Prod.fst at hmem
      rw [hcalls] at hmem
      cases hmem
    · change s.callback = _ at hposting
      rw [hcallback] at hposting
      cases hposting
  · intro current hcurrent _ _
    cases hcurrent
    refine ⟨?_, ?_, ?_⟩
    · exact h.queued entry (by rw [htasks]; exact List.mem_cons_self) hclient
    · change s.callback ≠ _
      rw [hcallback]
      exact fun heq => by cases heq
    · rw [show ChatServer.connections _ client = _ from hconnection]
      exact .inl rfl
  · change List.Forall₂ _ (tasksOf client (s.worker.started ++ [entry])) _
    rw [tasksOf_append, tasksOf_own hclient]
    apply List.rel_append
    · apply forall₂_tasksOf h.streamed
      intro old hold _ m hm
      refine ⟨?_, hm.2⟩
      intro hexecuting
      cases hexecuting
      have hnodup := hsteady.accepted_nodup
      rw [haccepted] at hnodup
      rw [htasks] at hnodup
      exact absurd List.mem_cons_self (List.disjoint_of_nodup_append hnodup hold)
    · refine .cons ⟨?_, ?_⟩ .nil
      · intro _ _
        change [] ++ (s.calls.map Prod.snd ++ streamedMessages entry.task.generation.trace) = _
        rw [hcalls]
        rfl
      · intro out hout
        exact absurd hout (hsteady.unfulfilled hqueue _)

theorem Serves.begin_other (hsteady : Steady s) (h : Serves serialize client s ms)
    {tasks : List (Entry (ChatTask ι))} (hphase : s.worker.phase = .checking)
    (htasks : s.worker.tasks = entry :: tasks) (hclient : entry.task.client ≠ client)
    (session : Session) :
    Serves serialize client
      { s.withSession entry.task.client session with
        worker := { s.worker with
          tasks, phase := .executing entry, started := s.worker.started ++ [entry] }
        todo := entry.task.generation.trace } ms := by
  obtain ⟨hcalls, hcallback, -⟩ := hsteady.resting (by rw [hphase]; rfl)
  have hother := h.withConnection_ne (fun heq => hclient heq.symm)
    ((s.connections entry.task.client).withSession session)
  refine ⟨hother.isOpen, hother.sound, ?_, hother.posting, ?_, ?_, ?_, ?_⟩
  · have htail : tasksOf client s.worker.tasks = tasksOf client tasks := by
      rw [htasks, ← List.singleton_append, tasksOf_append, tasksOf_other hclient, List.nil_append]
    change _ = (tasksOf client tasks).length
    rw [← htail]
    exact hother.tasks
  · intro queued hqueued
    exact h.queued queued (by rw [htasks]; exact List.mem_cons_of_mem _ hqueued)
  · rintro current hcurrent c (hmem | ⟨isEnd, hposting⟩)
    · change c ∈ s.calls.map Prod.fst at hmem
      rw [hcalls] at hmem
      cases hmem
    · change s.callback = _ at hposting
      rw [hcallback] at hposting
      cases hposting
  · intro current hcurrent hown _
    cases hcurrent
    exact absurd hown hclient
  · change List.Forall₂ _ (tasksOf client (s.worker.started ++ [entry])) _
    rw [tasksOf_append, tasksOf_other hclient, List.append_nil]
    apply h.streamed.imp
    intro old m hm
    refine ⟨?_, hm.2⟩
    intro hexecuting hown
    cases hexecuting
    exact absurd hown hclient

theorem Serves.rephase (h : Serves serialize client s ms) {phase : Phase (ChatTask ι)}
    (hphase : phase.current = []) :
    Serves serialize client { s with worker := { s.worker with phase } } ms := by
  have hnot : ∀ entry, phase ≠ .executing entry := by
    intro entry heq
    rw [heq] at hphase
    cases hphase
  refine ⟨h.isOpen, h.sound, h.tasks, h.posting, h.queued, ?_, ?_, ?_⟩
  · exact fun entry hentry => absurd hentry (hnot entry)
  · exact fun entry hentry => absurd hentry (hnot entry)
  · apply h.streamed.imp
    intro entry m hm
    exact ⟨fun hentry => absurd hentry (hnot entry), hm.2⟩

theorem Serves.check (hline : ∀ payload, (13 : UInt8) ∉ serialize payload) (hsteady : Steady s)
    (h : Serves serialize client s ms) (hregular : s.Regular .check)
    (hstep : s.worker.check.map s.begin = some s') : ∃ ms', Serves serialize client s' ms' := by
  obtain ⟨hphase, ⟨-, rfl⟩ | ⟨entry, tasks, htasks, rfl⟩ | ⟨hstopped, rfl⟩⟩ := check_cases hstep
  · exact ⟨ms, h.rephase rfl⟩
  · by_cases hclient : entry.task.client = client
    · rw [hclient]
      exact ⟨ms ++ [[]], h.begin_own hline hsteady hphase htasks hclient⟩
    · exact ⟨ms, h.begin_other hsteady hphase htasks hclient _⟩
  · have htasks : s.worker.tasks = [] := hregular.resolve_left (by simp [hstopped])
    rw [drain_nil htasks]
    exact ⟨ms, h.rephase rfl⟩

/-- The generation goes on, and what was to be streamed is still pending. -/
theorem Serves.advance (h : Serves serialize client s ms) (hcallback : s.callback = .outside)
    {dispatcher : Events.EventDispatcher ι} {todo : List Action} {calls : List (ι × Json × Bool)}
    (events : List (Bytes × InferenceEvent))
    (hvalues : ∀ g, values dispatcher.listeners g = values s.dispatcher.listeners g)
    (hcalls : ∀ entry, s.worker.phase = .executing entry → ∀ c ∈ calls.map Prod.fst,
      (c = client ↔ entry.task.client = client))
    (hpending : ∀ entry, s.worker.phase = .executing entry → entry.task.client = client →
      calls.map Prod.snd ++ streamedMessages todo = s.pending) :
    Serves serialize client { s with dispatcher, todo, events, calls } ms := by
  refine ⟨h.isOpen, h.sound, h.tasks, h.posting, ?_, ?_, ?_, ?_⟩
  · intro entry hentry hclient
    rw [hvalues]
    exact h.queued entry hentry hclient
  · rintro entry hphase c (hmem | ⟨isEnd, hposting⟩)
    · exact hcalls entry hphase c hmem
    · rw [hcallback] at hposting
      cases hposting
  · intro entry hphase hclient hne
    have hengaged := h.current entry hphase hclient (by
      rw [← hpending entry hphase hclient]
      exact hne)
    exact ⟨(hvalues _).trans hengaged.listens, hengaged.callback, hengaged.worker⟩
  · apply h.streamed.imp
    intro entry m hm
    refine ⟨?_, hm.2⟩
    intro hphase hclient
    rw [← hm.1 hphase hclient, ← hpending entry hphase hclient]
    rfl

theorem name_mem_chatEvents {e : InferenceEvent} {m : Json × Bool}
    (h : streamedMessage e = some m) : e.name ∈ chatEvents := by
  cases e with
  | tokenGenerated seqId token => exact show Events.InferenceEvent.tokenGenerated ∈ _ by decide
  | generationCompleted status numTokens =>
    exact show Events.InferenceEvent.generationCompleted ∈ _ by decide
  | _ => cases h

theorem Serves.act (hsteady : Steady s) (h : Serves serialize client s ms)
    (hstep : s.act = some s') : Serves serialize client s' ms := by
  obtain ⟨entry, hphase, hcalls, hcallback,
    ⟨e, todo, htodo, rfl⟩ | ⟨a, todo, -, -, hmessages, rfl⟩⟩ := act_cases hstep
  · have hpending : s.pending = (streamedMessage e).toList ++ streamedMessages todo := by
      rw [pending, hcalls, htodo, streamedMessages_dispatch]
      rfl
    cases hmessage : streamedMessage e with
    | none =>
      rw [hmessage] at hpending
      exact h.advance hcallback _ (values_dispatch _ _ · _) (fun _ _ => List.forall_mem_nil _)
        fun _ _ _ => hpending.symm
    | some m =>
      rw [hmessage] at hpending
      have hfound := Events.EventDispatcher.dispatch_fst s.dispatcher entry.task.chatId e.name
      by_cases hclient : entry.task.client = client
      · -- the callback of the client is the only one
        have hengaged := h.current entry hphase hclient (by rw [hpending]; simp)
        have hone : (s.dispatcher.dispatch entry.task.chatId e.name).1 = [client] := by
          rw [hfound, hengaged.listens]
          simp [name_mem_chatEvents hmessage]
        rw [hone]
        apply h.advance hcallback _ (values_dispatch _ _ · _)
        · intro entry' hphase' c hc
          cases hphase.symm.trans hphase'
          rw [List.mem_singleton.mp hc]
          exact iff_of_true rfl hclient
        · exact fun _ _ _ => hpending.symm
      · -- a callback of the client listens to its own chats only
        apply h.advance hcallback _ (values_dispatch _ _ · _)
        · intro entry' hphase' c hc
          cases hphase.symm.trans hphase'
          refine iff_of_false ?_ hclient
          rintro rfl
          have hmem : c ∈ (s.dispatcher.dispatch entry.task.chatId e.name).1 := by simpa using hc
          rw [hfound] at hmem
          obtain ⟨listener, hlistener, hc⟩ := List.mem_map.mp hmem
          obtain ⟨own, hown, howner, hid⟩ :=
            hsteady.listens _ listener (List.mem_of_mem_filter hlistener)
          have hentry : entry ∈ s.worker.accepted := hsteady.mem_accepted (by
            rw [hphase]
            exact List.mem_cons_self)
          cases hsteady.injective hown hentry hid
          exact hclient (howner.trans hc)
        · intro entry' hphase' hclient'
          cases hphase.symm.trans hphase'
          exact absurd hclient' hclient
  · have hpending : s.calls.map Prod.snd ++ streamedMessages todo = s.pending := by
      rw [pending, hmessages]
    exact h.advance hcallback s.events (fun _ => rfl)
      (fun entry hphase c hc => h.calls entry hphase c (.inl hc)) fun _ _ _ => hpending

/-- The callback of the client streams the next message of its generation. -/
theorem Serves.call_own (hline : ∀ payload, (13 : UInt8) ∉ serialize payload)
    (hsteady : Steady s) (h : Serves serialize client s ms) (hphase : s.worker.phase = .executing entry)
    (hcallback : s.callback = .outside) {payload : Json} {isEnd : Bool}
    {calls : List (ι × Json × Bool)} (hcalls : s.calls = (client, payload, isEnd) :: calls) :
    ∃ ms', Serves serialize client { s.withSession client
        ((s.connections client).session.enqueued (streamJsonMessage serialize payload isEnd) isEnd) with
      calls, callback := .posting client isEnd } ms' := by
  have hclient : entry.task.client = client :=
    (h.calls entry hphase client (.inl (by simp [hcalls]))).mp rfl
  have hpending : s.pending =
      (payload, isEnd) :: (calls.map Prod.snd ++ streamedMessages s.todo) := by
    rw [pending, hcalls]
    rfl
  have hengaged := h.current entry hphase hclient (by simp [hpending])
  have hworker : (s.connections client).session.worker = .streaming := by
    rcases hengaged.worker with hworker | hposting
    · exact hworker
    · rw [hcallback] at hposting
      cases hposting
  have henqueue : (s.connections client).session.enqueue serialize payload isEnd = some
      ((s.connections client).session.enqueued (streamJsonMessage serialize payload isEnd) isEnd) := by
    rw [Session.enqueue, if_pos hworker]
    rfl
  have hsound := h.sound.step hline
    (show Session.Orderly _ (.enqueue payload isEnd) from trivial) henqueue
  -- the messages so far are those of the task that is executed
  obtain ⟨done, hfulfilled, hstarted, -⟩ := hsteady.split
  have hunfulfilled : ∀ f, (entry, f) ∉ s.worker.fulfilled :=
    hsteady.unfulfilled (by rw [hphase]; exact List.mem_cons_self)
  have hsplit : tasksOf client s.worker.started = tasksOf client (done.map Prod.fst) ++ [entry] := by
    rw [hstarted, hphase, tasksOf_append]
    exact congrArg _ (tasksOf_own hclient)
  have hstreamed := h.streamed
  rw [hsplit] at hstreamed
  obtain ⟨before, m, rfl, hbefore, hm⟩ := forall₂_concat hstreamed
  have hmessages := hm.1 hphase hclient
  rw [hpending] at hmessages
  have hafter : messagesAfter (before ++ [m]) (.enqueue payload isEnd) =
      before ++ [m ++ [(payload, isEnd)]] := by
    rw [messagesAfter, List.length_append, List.length_singleton, Nat.add_sub_cancel,
      Session.modify_last]
  rw [hafter] at hsound
  have hconnection := connections_withSession s client
    ((s.connections client).session.enqueued (streamJsonMessage serialize payload isEnd) isEnd)
  refine ⟨before ++ [m ++ [(payload, isEnd)]], ?_, ?_, ?_, ?_, h.queued, ?_, ?_, ?_⟩
  · rw [show ChatServer.connections _ client = _ from hconnection]
    exact h.isOpen
  · rw [show ChatServer.connections _ client = _ from hconnection]
    exact hsound
  · rw [show ChatServer.connections _ client = _ from hconnection]
    exact h.tasks
  · intro b
    rw [show ChatServer.connections _ client = _ from hconnection]
    change WorkerPhase.posting isEnd = _ ↔ CallbackPhase.posting client isEnd = _
    simp
  · rintro entry' hphase' c (hmem | ⟨b, hposting⟩)
    · apply h.calls entry' hphase' c (.inl _)
      rw [hcalls]
      exact List.mem_cons_of_mem _ hmem
    · cases hposting
      exact h.calls entry' hphase' client (.inl (by simp [hcalls]))
  · intro entry' hphase' hclient' hne
    cases hphase.symm.trans hphase'
    have hopen : isEnd = false := isEnd_of_pending hmessages hne
    rw [hopen]
    exact ⟨hengaged.listens, by simp, .inr rfl⟩
  · change List.Forall₂ _ (tasksOf client s.worker.started) _
    rw [hsplit]
    apply List.rel_append
    · apply forall₂_tasksOf hbefore
      intro old hold _ m hm
      refine ⟨?_, hm.2⟩
      intro hexecuting
      cases hphase.symm.trans hexecuting
      obtain ⟨d, hd, rfl⟩ := List.mem_map.mp hold
      refine absurd ?_ (hunfulfilled (.executed d.2))
      rw [hfulfilled]
      exact List.mem_map_of_mem hd
    · refine .cons ⟨?_, ?_⟩ .nil
      · intro _ _
        rw [List.append_assoc]
        exact hmessages
      · exact fun out hout => absurd hout (hunfulfilled _)

theorem Serves.call_other (h : Serves serialize client s ms)
    (hcallback : s.callback = .outside) {c : ι} (hc : client ≠ c) {message : Json × Bool}
    {calls : List (ι × Json × Bool)} (hcalls : s.calls = (c, message) :: calls) (session : Session)
    (isEnd : Bool) :
    Serves serialize client
      { s.withSession c session with calls, callback := .posting c isEnd } ms := by
  have hother := h.withConnection_ne hc ((s.connections c).withSession session)
  have hnot : ∀ entry, s.worker.phase = .executing entry → entry.task.client ≠ client := by
    intro entry hphase hclient
    exact hc ((h.calls entry hphase c (.inl (by simp [hcalls]))).mpr hclient).symm
  refine ⟨hother.isOpen, hother.sound, hother.tasks, ?_, h.queued, ?_, ?_, ?_⟩
  · intro b
    refine (hother.posting b).trans ?_
    change s.callback = _ ↔ CallbackPhase.posting c isEnd = _
    rw [hcallback]
    simp [hc.symm]
  · rintro entry hphase c' (hmem | ⟨b, hposting⟩)
    · apply h.calls entry hphase c' (.inl _)
      rw [hcalls]
      exact List.mem_cons_of_mem _ hmem
    · cases hposting
      exact h.calls entry hphase c (.inl (by simp [hcalls]))
  · exact fun entry hphase hclient => absurd hclient (hnot entry hphase)
  · apply h.streamed.imp
    intro entry m hm
    exact ⟨fun hphase hclient => absurd hclient (hnot entry hphase), hm.2⟩

theorem Serves.post_own (hline : ∀ payload, (13 : UInt8) ∉ serialize payload)
    (h : Serves serialize client s ms) {isEnd : Bool}
    (hcallback : s.callback = .posting client isEnd) :
    Serves serialize client { s.withSession client ((s.connections client).session.posted isEnd) with
      callback := if isEnd then .unlistening else .outside } ms := by
  have hworker := (h.posting isEnd).mpr hcallback
  have hpost : (s.connections client).session.post = some ((s.connections client).session.posted isEnd) := by
    rw [Session.post, hworker]
    rfl
  have hsound := h.sound.step hline (show Session.Orderly _ .post from trivial) hpost
  have hconnection := connections_withSession s client ((s.connections client).session.posted isEnd)
  refine ⟨?_, ?_, ?_, ?_, h.queued, ?_, ?_, h.streamed⟩
  · rw [show ChatServer.connections _ client = _ from hconnection]
    exact h.isOpen
  · rw [show ChatServer.connections _ client = _ from hconnection]
    exact hsound
  · rw [show ChatServer.connections _ client = _ from hconnection]
    exact h.tasks
  · intro b
    rw [show ChatServer.connections _ client = _ from hconnection]
    cases isEnd <;> simp [Session.posted]
  · rintro entry hphase c (hmem | ⟨b, hposting⟩)
    · exact h.calls entry hphase c (.inl hmem)
    · change (if isEnd then CallbackPhase.unlistening else .outside) = _ at hposting
      cases isEnd <;> cases hposting
  · intro entry hphase hclient hpending
    have hengaged := h.current entry hphase hclient hpending
    -- only a callback that is not the last one can be here
    have hopen : isEnd = false := by
      rcases hengaged.worker with hstreaming | hposting
      · rw [hworker] at hstreaming
        cases hstreaming
      · rw [hcallback] at hposting
        cases hposting
        rfl
    rw [hopen]
    refine ⟨hengaged.listens, by simp, .inl ?_⟩
    rw [hopen] at hconnection
    rw [show ChatServer.connections _ client = _ from hconnection]
    rfl

theorem Serves.post_other (h : Serves serialize client s ms) {c : ι} (hc : client ≠ c)
    {isEnd : Bool} (hcallback : s.callback = .posting c isEnd) (session : Session) :
    Serves serialize client { s.withSession c session with
      callback := if isEnd then .unlistening else .outside } ms := by
  have hother := h.withConnection_ne hc ((s.connections c).withSession session)
  refine ⟨hother.isOpen, hother.sound, hother.tasks, ?_, h.queued, ?_, ?_, h.streamed⟩
  · intro b
    refine (hother.posting b).trans ?_
    change s.callback = _ ↔ _
    rw [hcallback]
    cases isEnd <;> simp [hc.symm]
  · rintro entry hphase c' (hmem | ⟨b, hposting⟩)
    · exact h.calls entry hphase c' (.inl hmem)
    · change (if isEnd then CallbackPhase.unlistening else .outside) = _ at hposting
      cases isEnd <;> cases hposting
  · intro entry hphase hclient
    exact absurd ((h.calls entry hphase c (.inr ⟨isEnd, hcallback⟩)).mpr hclient).symm hc

theorem Serves.unlisten {groupId : Bytes} (hsteady : Steady s) (h : Serves serialize client s ms)
    (hkept : ∀ entry ∈ s.worker.tasks, entry.task.chatId ≠ groupId)
    (hstep : s.unlisten groupId = some s') : Serves serialize client s' ms := by
  obtain ⟨hcallback, dispatcher, hunlisten, rfl⟩ := unlisten_cases hstep
  obtain ⟨d, hd, -, hvalues⟩ := hsteady.counted.unlisten groupId
  cases hunlisten.symm.trans hd
  refine ⟨h.isOpen, h.sound, h.tasks, ?_, ?_, ?_, ?_, h.streamed⟩
  · intro b
    rw [h.posting b, hcallback]
    simp
  · intro entry hentry hclient
    rw [hvalues, if_neg (hkept entry hentry)]
    exact h.queued entry hentry hclient
  · rintro entry hphase c (hmem | ⟨b, hposting⟩)
    · exact h.calls entry hphase c (.inl hmem)
    · cases hposting
  · intro entry hphase hclient hpending
    exact absurd hcallback (h.current entry hphase hclient hpending).callback

/-- A task that has returned has streamed all its messages. -/
theorem Serves.reply (h : Serves serialize client s ms) (hphase : s.worker.phase = .executing entry)
    (hcalls : s.calls = []) {reply : Reply}
    (hreply : ∀ out, reply = .value out → s.todo = []) :
    Serves serialize client { s with
      worker := { s.worker with
        phase := .checking
        fulfilled := s.worker.fulfilled ++ [(entry, .executed reply)] }
      todo := [] } ms := by
  refine ⟨h.isOpen, h.sound, h.tasks, h.posting, h.queued, ?_, ?_, ?_⟩
  · intro entry hentry
    cases hentry
  · intro entry hentry
    cases hentry
  · apply forall₂_tasksOf h.streamed
    intro entry' _ hclient m hm
    refine ⟨?_, ?_⟩
    · intro hchecking
      cases hchecking
    · intro out hout
      rcases List.mem_append.mp hout with hold | hnew
      · exact hm.2 out hold
      · cases List.mem_singleton.mp hnew
        rw [← hm.1 hphase hclient, pending, hcalls, hreply out rfl]
        exact (List.append_nil m).symm

theorem Serves.stop (h : Serves serialize client s ms) :
    Serves serialize client { s with worker := s.worker.stop } ms := by
  rw [Worker.stop]
  split_ifs
  · exact ⟨h.isOpen, h.sound, h.tasks, h.posting, h.queued, h.calls,
      fun entry hphase hclient hpending => ⟨(h.current entry hphase hclient hpending).listens,
        (h.current entry hphase hclient hpending).callback,
        (h.current entry hphase hclient hpending).worker⟩, h.streamed⟩
  · exact h

theorem Serves.step (hline : ∀ payload, (13 : UInt8) ∉ serialize payload) (hsteady : Steady s)
    (h : Serves serialize client s ms) {label : Label ι} (hcareful : s.Careful client label)
    (hstep : s.step serialize label = some s') : ∃ ms', Serves serialize client s' ms' := by
  cases label with
  | receive c keepAlive =>
    obtain ⟨connection, hconnection, rfl⟩ := Option.map_eq_some_iff.mp hstep
    by_cases hc : client = c
    · subst hc
      exact ⟨ms, h.receive hline hconnection⟩
    · exact ⟨ms, h.withConnection_ne hc connection⟩
  | readFails c endOfStream =>
    obtain ⟨connection, -, rfl⟩ := Option.map_eq_some_iff.mp hstep
    exact ⟨ms, h.withConnection_ne (Ne.symm hcareful) connection⟩
  | complete c =>
    obtain ⟨connection, hconnection, rfl⟩ := Option.map_eq_some_iff.mp hstep
    by_cases hc : client = c
    · subst hc
      exact ⟨ms, h.complete hline hconnection⟩
    · exact ⟨ms, h.withConnection_ne hc connection⟩
  | completeLate c bytes =>
    obtain ⟨connection, hconnection, rfl⟩ := Option.map_eq_some_iff.mp hstep
    by_cases hc : client = c
    · subst hc
      exact ⟨ms, h.completeLate hline (hcareful rfl) hconnection⟩
    · exact ⟨ms, h.withConnection_ne hc connection⟩
  | writeFails c bytes =>
    obtain ⟨connection, -, rfl⟩ := Option.map_eq_some_iff.mp hstep
    exact ⟨ms, h.withConnection_ne (Ne.symm hcareful) connection⟩
  | run c =>
    simp only [ChatServer.step, ChatServer.run] at hstep
    split_ifs at hstep with hhead
    obtain ⟨connection, hconnection, rfl⟩ := Option.map_eq_some_iff.mp hstep
    by_cases hc : client = c
    · subst hc
      obtain ⟨horderly, hends⟩ := hcareful rfl
      exact ⟨ms, h.runStrand hline horderly hends hhead hconnection⟩
    · exact ⟨ms, h.withConnection_ne hc connection⟩
  | request c chatId generation => exact ⟨ms, h.request hline hsteady hcareful hstep⟩
  | stop =>
    cases hstep
    exact ⟨ms, h.stop⟩
  | notify =>
    obtain ⟨worker, hworker, rfl⟩ := Option.map_eq_some_iff.mp hstep
    rw [notify_cases hworker]
    exact ⟨ms, h.awake _⟩
  | wake =>
    cases hstep
    exact ⟨ms, h.awake _⟩
  | check => exact h.check hline hsteady hcareful hstep
  | act => exact ⟨ms, h.act hsteady hstep⟩
  | call =>
    obtain ⟨c, payload, isEnd, calls, hcallback, hcalls, rfl⟩ := call_cases hstep
    obtain ⟨entry, hphase⟩ := hsteady.executing (.inl (by simp [hcalls]))
    by_cases hc : client = c
    · subst hc
      exact h.call_own hline hsteady hphase hcallback hcalls
    · exact ⟨ms, h.call_other hcallback hc hcalls _ isEnd⟩
  | post =>
    obtain ⟨c, isEnd, hcallback, rfl⟩ := post_cases hstep
    by_cases hc : client = c
    · subst hc
      exact ⟨ms, h.post_own hline hcallback⟩
    · exact ⟨ms, h.post_other hc hcallback _⟩
  | unlisten groupId => exact ⟨ms, h.unlisten hsteady hcareful hstep⟩
  | throw =>
    obtain ⟨hcalls, -, entry, hphase, rfl⟩ := throw_cases hstep
    exact ⟨ms, h.reply hphase hcalls (fun out hout => by cases hout)⟩
  | finish =>
    obtain ⟨hcalls, -, htodo, entry, hphase, rfl⟩ := finish_cases hstep
    have hserves := @Serves.reply _ _ _ _ _ _ _ h hphase hcalls
      (.value entry.task.generation.output) fun _ _ => htodo
    rw [← htodo] at hserves
    exact ⟨ms, hserves⟩

theorem serves_of_meets (hline : ∀ payload, (13 : UInt8) ∉ serialize payload)
    {labels : List (Label ι)} (hcareful : (system serialize).Meets (Careful client) start labels)
    (hrun : (system serialize).run labels = some s) :
    Steady s ∧ ∃ ms, Serves serialize client s ms := by
  apply Transitions.invariant_of_meets _ (system serialize).reachable_start
    ⟨steady_start, [], serves_start serialize client⟩ hcareful hrun
  rintro s label s' _ hlabel hstep ⟨hsteady, ms, h⟩
  exact ⟨hsteady.step hlabel.regular hstep, h.step hline hsteady hlabel hstep⟩

/-- The tasks of a client are, in the order of its requests, those that have been started and those
in the queue. -/
theorem Serves.messages_of_value (hsteady : Steady s) (h : Serves serialize client s ms) {k : ℕ}
    (hentry : (tasksOf client s.worker.accepted)[k]? = some entry) {out : Bytes}
    (hvalue : (entry, .executed (.value out)) ∈ s.worker.fulfilled) :
    ms[k]? = some (streamedMessages entry.task.generation.trace) := by
  obtain ⟨done, -, -, haccepted⟩ := hsteady.split
  rw [haccepted, tasksOf_append] at hentry
  have hlt : k < (tasksOf client s.worker.started).length := by
    by_contra hge
    rw [List.getElem?_append_right (Nat.le_of_not_lt hge)] at hentry
    have hqueued : entry ∈ tasksOf client s.worker.tasks := List.mem_of_getElem? hentry
    exact hsteady.unfulfilled
      (List.mem_append_right _ (List.mem_of_mem_filter hqueued)) _ hvalue
  rw [List.getElem?_append_left hlt] at hentry
  have hlt' : k < ms.length := h.streamed.length_eq ▸ hlt
  have hstreamed := h.streamed.get hlt hlt'
  rw [List.getElem?_eq_getElem hlt] at hentry
  rw [List.get_eq_getElem, Option.some.inj hentry] at hstreamed
  rw [List.getElem?_eq_getElem hlt']
  exact congrArg some (hstreamed.2 out hvalue)

def Label.task? : Label ι → Option (ChatTask ι)
  | .request client chatId generation => some ⟨client, chatId, generation⟩
  | _ => none

def requestsOf (client : ι) (labels : List (Label ι)) : List (ChatTask ι) :=
  (labels.filterMap Label.task?).filter fun task => task.client = client

def Returned (s : ChatServer ι) (task : ChatTask ι) : Prop :=
  ∃ promise out, (⟨task, promise⟩, .executed (.value out)) ∈ s.worker.fulfilled

/-- The worker accepts the tasks of the requests, in their order. -/
theorem accepted_step {label : Label ι} (hstep : s.step serialize label = some s') :
    s'.worker.accepted.map Entry.task = s.worker.accepted.map Entry.task ++ label.task?.toList := by
  have hsame : s'.worker.accepted = s.worker.accepted → label.task? = none →
      s'.worker.accepted.map Entry.task =
        s.worker.accepted.map Entry.task ++ label.task?.toList := by
    intro haccepted hlabel
    rw [haccepted, hlabel]
    exact (List.append_nil _).symm
  cases label with
  | run c =>
    simp only [ChatServer.step, ChatServer.run] at hstep
    split_ifs at hstep
    obtain ⟨session, -, rfl⟩ := Option.map_eq_some_iff.mp hstep
    exact hsame rfl rfl
  | request c chatId generation =>
    obtain ⟨hrunning, strand, dispatcher, -, -, rfl⟩ := request_cases hstep
    change (s.worker.addTask _).accepted.map Entry.task = _
    rw [addTask_running hrunning]
    exact List.map_append
  | stop =>
    cases hstep
    apply hsame _ rfl
    change s.worker.stop.accepted = _
    rw [stop]
    split_ifs <;> rfl
  | notify =>
    obtain ⟨worker, hworker, rfl⟩ := Option.map_eq_some_iff.mp hstep
    rw [notify_cases hworker] at hsame ⊢
    exact hsame rfl rfl
  | wake =>
    cases hstep
    exact hsame rfl rfl
  | check =>
    obtain ⟨-, ⟨-, rfl⟩ | ⟨entry, tasks, -, rfl⟩ | ⟨-, rfl⟩⟩ := check_cases hstep
    · exact hsame rfl rfl
    · exact hsame rfl rfl
    · exact hsame rfl rfl
  | act =>
    obtain ⟨entry, -, -, -, ⟨e, todo, -, rfl⟩ | ⟨a, todo, -, -, -, rfl⟩⟩ := act_cases hstep
    · exact hsame rfl rfl
    · exact hsame rfl rfl
  | call =>
    obtain ⟨c, payload, isEnd, calls, -, -, rfl⟩ := call_cases hstep
    exact hsame rfl rfl
  | post =>
    obtain ⟨c, isEnd, -, rfl⟩ := post_cases hstep
    exact hsame rfl rfl
  | unlisten groupId =>
    obtain ⟨-, dispatcher, -, rfl⟩ := unlisten_cases hstep
    exact hsame rfl rfl
  | throw =>
    obtain ⟨-, -, entry, -, rfl⟩ := throw_cases hstep
    exact hsame rfl rfl
  | finish =>
    obtain ⟨-, -, -, entry, -, rfl⟩ := finish_cases hstep
    exact hsame rfl rfl
  | _ =>
    obtain ⟨connection, -, rfl⟩ := Option.map_eq_some_iff.mp hstep
    exact hsame rfl rfl

theorem accepted_of_run {labels : List (Label ι)} (hrun : (system serialize).run labels = some s) :
    s.worker.accepted.map Entry.task = labels.filterMap Label.task? := by
  apply Transitions.run_invariant _ _ hrun
  · rfl
  · intro labels s label s' _ hstep haccepted
    rw [accepted_step hstep, haccepted, List.filterMap_append]
    cases htask : label.task? <;> simp [htask]

theorem tasksOf_requests {labels : List (Label ι)}
    (hrun : (system serialize).run labels = some s) (client : ι) :
    (tasksOf client s.worker.accepted).map Entry.task = requestsOf client labels := by
  rw [requestsOf, ← accepted_of_run hrun, List.filter_map]
  rfl

omit [DecidableEq ι] in
theorem Steady.accepted_of_fulfilled (h : Steady s) {f : Fulfilment Reply}
    (hmem : (entry, f) ∈ s.worker.fulfilled) : entry ∈ s.worker.accepted := by
  obtain ⟨done, hfulfilled, hstarted, haccepted⟩ := h.split
  rw [hfulfilled] at hmem
  obtain ⟨d, hd, heq⟩ := List.mem_map.mp hmem
  cases heq
  rw [haccepted, hstarted]
  exact List.mem_append_left _ (List.mem_append_left _ (List.mem_map_of_mem hd))

section
variable {labels : List (Label ι)} (hsteady : Steady s) (h : Serves serialize client s ms)
  (hrun : (system serialize).run labels = some s)
  (hdrained : (s.connections client).session.Drained)
include hsteady h hrun hdrained

theorem Serves.bodies_length : (bodies (s.connections client).session.sent).length =
    (requestsOf client labels).length := by
  obtain ⟨done, -, -, haccepted⟩ := hsteady.split
  rw [hdrained.sent_eq h.sound.accounted, bodies_responses, List.length_map,
    h.sound.recorded.responses, List.length_append, List.length_map, List.length_replicate,
    h.tasks, ← tasksOf_requests hrun, List.length_map, haccepted, tasksOf_append,
    List.length_append, h.streamed.length_eq]

theorem Serves.shows {parse : List Char → Option Json} (hparse : ReadsJson parse) {k : ℕ}
    {task : ChatTask ι} (htask : (requestsOf client labels)[k]? = some task)
    (hreturned : s.Returned task)
    (hcodec : ∀ m ∈ streamedMessages task.generation.trace, Faithful serialize parse m.1) :
    ∃ body, (bodies (s.connections client).session.sent)[k]? = some body ∧
      Shows parse body task.generation := by
  obtain ⟨promise, out, hvalue⟩ := hreturned
  rw [← tasksOf_requests hrun, List.getElem?_map] at htask
  obtain ⟨entry, hentry, rfl⟩ := Option.map_eq_some_iff.mp htask
  have haccepted : entry ∈ s.worker.accepted :=
    List.mem_of_mem_filter (List.mem_of_getElem? hentry)
  have hsame := hsteady.injective (hsteady.accepted_of_fulfilled hvalue) haccepted rfl
  rw [hsame] at hvalue
  exact h.sound.shows hparse hdrained (h.messages_of_value hsteady hentry hvalue) hcodec

end

/-- A client whose own strand is orderly gets a response for every request, and the response for one
whose generation has returned shows its tokens, whatever the other clients do. -/
theorem every_client_shown {parse : List Char → Option Json}
    (hline : ∀ payload, (13 : UInt8) ∉ serialize payload) (hparse : ReadsJson parse)
    {labels : List (Label ι)} (hrun : (system serialize).run labels = some s)
    (hcareful : (system serialize).Meets (Careful client) start labels)
    (hquiet : (s.connections client).session.Quiet)
    (hcodec : ∀ task ∈ requestsOf client labels, ∀ m ∈ streamedMessages task.generation.trace,
      Faithful serialize parse m.1) :
    (bodies (s.connections client).session.sent).length = (requestsOf client labels).length ∧
      ∀ (k : ℕ) task, (requestsOf client labels)[k]? = some task → s.Returned task →
        ∃ body, (bodies (s.connections client).session.sent)[k]? = some body ∧
          Shows parse body task.generation := by
  obtain ⟨hsteady, ms, h⟩ := serves_of_meets hline hcareful hrun
  have hdrained := h.sound.consistent.drained hquiet
  refine ⟨h.bodies_length hsteady hrun hdrained, ?_⟩
  intro k task htask hreturned
  exact h.shows hsteady hrun hdrained hparse htask hreturned
    (hcodec task (List.mem_of_getElem? htask))

instance (client : ι) (s : ChatServer ι) : (label : Label ι) → Decidable (s.Careful client label)
  | .run c => inferInstanceAs (Decidable (c = client →
      (s.connections client).session.Orderly .run ∧ ¬ ((s.connections client).keepAlive = false ∧
        (s.connections client).session.strand.head?.any Connection.isLast = true)))
  | .readFails c _ => inferInstanceAs (Decidable (c ≠ client))
  | .completeLate c bytes => inferInstanceAs (Decidable (c = client →
      (s.connections client).Orderly (.completeLate bytes)))
  | .writeFails c _ => inferInstanceAs (Decidable (c ≠ client))
  | .check => inferInstanceAs (Decidable (s.worker.running = true ∨ s.worker.tasks = []))
  | .request _ chatId _ => inferInstanceAs (Decidable (∀ entry ∈ s.worker.accepted, _ ≠ chatId))
  | .unlisten groupId => inferInstanceAs (Decidable (∀ entry ∈ s.worker.tasks, _ ≠ groupId))
  | .receive _ _ => isTrue trivial
  | .complete _ => isTrue trivial
  | .stop => isTrue trivial
  | .notify => isTrue trivial
  | .wake => isTrue trivial
  | .act => isTrue trivial
  | .call => isTrue trivial
  | .post => isTrue trivial
  | .throw => isTrue trivial
  | .finish => isTrue trivial

/-- Two clients send a request each. One of them goes away, and its generation throws. -/
def twoClients : List (Label Bool) :=
  [.run false, .run true, .receive true true, .receive false true,
    .request true [1] greetingGeneration, .request false [2] greetingGeneration, .run true,
    .run false, .writeFails true [], .complete false, .run false, .check, .act, .throw, .check, .act,
    .act, .act, .act, .act, .act, .act, .call, .post, .run false, .complete false, .run false,
    .act, .act, .act, .call, .post, .unlisten [2], .finish, .run false, .complete false,
    .run false]

theorem twoClients_faithful : ∀ task ∈ requestsOf false twoClients,
    ∀ m ∈ streamedMessages task.generation.trace, Faithful writeSample readSample m.1 := by
  intro task htask
  rw [List.mem_singleton.mp (show task ∈ [⟨false, [2], greetingGeneration⟩] from htask)]
  exact greeting_faithful

theorem every_client_shown_twoClients : ∃ s body,
    (system writeSample).run twoClients = some s ∧
      (bodies (s.connections false).session.sent)[0]? = some body ∧ Shows readSample body greetingGeneration := by
  have hrun : ((system writeSample).run twoClients).isSome = true := by decide +kernel
  have hcareful : (system writeSample).Meets (Careful false) start twoClients := by decide +kernel
  have hquiet : ∀ s ∈ (system writeSample).run twoClients, (s.connections false).session.strand = [] ∧
      (s.connections false).session.writes = [] ∧ ∀ isEnd, (s.connections false).session.worker ≠ .posting isEnd := by
    decide +kernel
  have hvalue : ∀ s ∈ (system writeSample).run twoClients, ∃ f ∈ s.worker.fulfilled,
      f.1.task.chatId = [2] ∧ f.2 = .executed (.value (literal "Hi")) := by decide +kernel
  obtain ⟨s, hs⟩ := Option.isSome_iff_exists.mp hrun
  have hsteady := (serves_of_meets writeSample_line hcareful hs).1
  have hreturned : s.Returned ⟨false, [2], greetingGeneration⟩ := by
    obtain ⟨⟨⟨task, promise⟩, f⟩, hmem, hid, hf⟩ := hvalue s hs
    change task.chatId = [2] at hid
    change f = _ at hf
    have htask : task ∈ s.worker.accepted.map Entry.task :=
      List.mem_map.mpr ⟨_, hsteady.accepted_of_fulfilled hmem, rfl⟩
    rw [accepted_of_run hs] at htask
    rcases List.mem_cons.mp htask with rfl | htask
    · cases hid
    · rw [List.mem_singleton.mp htask, hf] at hmem
      exact ⟨promise, _, hmem⟩
  obtain ⟨-, hshown⟩ := every_client_shown writeSample_line readSample_reads hs hcareful
    (hquiet s hs) twoClients_faithful
  obtain ⟨body, hbody, hshows⟩ := hshown 0 _ rfl hreturned
  exact ⟨s, body, hs, hbody, hshows⟩

end ChatServer

end ZInferLM.Serve
