import ZInferLM.Metrics.Collector
import ZInferLM.Serve.Connection
import ZInferLM.Worker.Completion

/-! # A server with its clients

All sessions share one worker and one dispatcher. A request listens under the identifier of its chat
and hands a task to the worker. The worker dispatches the events of the generation under this
identifier, and the callbacks that it finds there stream into their sessions. -/

namespace ZInferLM.Serve
open Library Library.Utf8 Tokenizer Inference Worker
open Library.Multimap (values)

namespace Session

/-- The worker has begun with a task of the session. -/
def taking (s : Session) : Session :=
  { s with worker := .streaming, tasks := s.tasks - 1, taken := s.taken + 1 }

/-- A flush is posted for a message that was put into the queue. -/
def posted (s : Session) (isEnd : Bool) : Session :=
  { s with strand := s.strand ++ [.flush], worker := if isEnd then .idle else .streaming }

end Session

variable {ι : Type}

/-- A task of the worker, and the session whose request it is for. -/
structure ChatTask (ι : Type) where
  client : ι
  chatId : Bytes
  generation : Generation

/-- Where the callback is that the worker has called. -/
inductive CallbackPhase (ι : Type) where
  | outside
  | posting (client : ι) (isEnd : Bool)
  | unlistening
  deriving DecidableEq

/-- The connections, the dispatcher, the worker, what the generation has left to do, the events that
were dispatched, and the calls of the dispatch under way, with the messages that the callbacks
stream. -/
structure ChatServer (ι : Type) where
  connections : ι → Connection
  dispatcher : Events.EventDispatcher ι
  worker : Worker (ChatTask ι) Reply
  todo : List Action
  events : List (Bytes × InferenceEvent)
  calls : List (ι × Json × Bool)
  callback : CallbackPhase ι

namespace ChatServer

def start : ChatServer ι := ⟨fun _ => .start, .new, .new, [], [], [], .outside⟩

def chatEvents : Finset Events.InferenceEvent := {.generationCompleted, .tokenGenerated}

/-- The next thing that a generation does. The dispatcher copies the callbacks of an event; those of
an event that is not streamed do nothing. -/
def act (s : ChatServer ι) : Option (ChatServer ι) :=
  match s.worker.phase, s.calls, s.callback, s.todo with
  | .executing entry, [], .outside, .dispatch e :: todo =>
    let found := s.dispatcher.dispatch entry.task.chatId e.name
    some { s with
      dispatcher := found.2
      todo
      events := s.events ++ [(entry.task.chatId, e)]
      calls := (streamedMessage e).elim [] fun message => found.1.map fun c => (c, message) }
  | .executing _, [], .outside, _ :: todo => some { s with todo }
  | _, _, _, _ => none

/-- An exception ends the generation. -/
def throw (s : ChatServer ι) : Option (ChatServer ι) :=
  match s.calls, s.callback with
  | [], .outside => (s.worker.executed .exception).map fun worker => { s with worker, todo := [] }
  | _, _ => none

def finish (s : ChatServer ι) : Option (ChatServer ι) :=
  match s.worker.phase, s.calls, s.callback, s.todo with
  | .executing entry, [], .outside, [] =>
    (s.worker.executed (.value entry.task.generation.output)).map fun worker => { s with worker }
  | _, _, _, _ => none

/-- The callback of a chat unlistens behind its last message. It reads the identifier through a
reference to a variable that is gone, so it may read another one. -/
def unlisten (s : ChatServer ι) (groupId : Bytes) : Option (ChatServer ι) :=
  match s.callback, s.dispatcher.unlisten groupId with
  | .unlistening, .ok dispatcher => some { s with dispatcher, callback := .outside }
  | _, _ => none

variable [DecidableEq ι]

def withConnection (s : ChatServer ι) (client : ι) (connection : Connection) : ChatServer ι :=
  { s with connections := Function.update s.connections client connection }

def withSession (s : ChatServer ι) (client : ι) (session : Session) : ChatServer ι :=
  s.withConnection client ((s.connections client).withSession session)

@[simp] theorem connections_withConnection (s : ChatServer ι) (c : ι) (connection : Connection) :
    (s.withConnection c connection).connections c = connection :=
  Function.update_self _ _ _

theorem connections_withConnection_ne (s : ChatServer ι) {client c : ι} (hc : client ≠ c)
    (connection : Connection) :
    (s.withConnection c connection).connections client = s.connections client :=
  Function.update_of_ne hc _ _

@[simp] theorem connections_withSession (s : ChatServer ι) (c : ι) (session : Session) :
    (s.withSession c session).connections c = (s.connections c).withSession session :=
  s.connections_withConnection c _

theorem connections_withSession_ne (s : ChatServer ι) {client c : ι} (hc : client ≠ c)
    (session : Session) : (s.withSession c session).connections client = s.connections client :=
  s.connections_withConnection_ne hc _

/-- A strand runs its first handler, when it is not that of a request. -/
def run (s : ChatServer ι) (client : ι) : Option (ChatServer ι) :=
  if (s.connections client).session.strand.head? = some .handleRequest then none
  else (s.connections client).runStrand.map (s.withConnection client)

/-- The handler of a request: the start of the response is posted, the callback of the chat listens,
and the worker gets the task. If the worker is stopped the handler throws, which ends the server. -/
def request (s : ChatServer ι) (client : ι) (chatId : Bytes) (generation : Generation) :
    Option (ChatServer ι) :=
  if s.worker.running = true ∧
      (s.connections client).session.strand.head? = some .handleRequest then
    match (s.connections client).runStrand, s.dispatcher.listen chatId client chatEvents with
    | some connection, .ok dispatcher =>
      some { s.withConnection client connection with
        dispatcher, worker := s.worker.addTask ⟨client, chatId, generation⟩ }
    | _, _ => none
  else none

def begin (s : ChatServer ι) (worker : Worker (ChatTask ι) Reply) : ChatServer ι :=
  match worker.phase with
  | .executing entry =>
    { s.withSession entry.task.client (s.connections entry.task.client).session.taking with
      worker, todo := entry.task.generation.trace }
  | _ => { s with worker }

/-- The next callback puts its message into the queue of its session. -/
def call (serialize : Json → Bytes) (s : ChatServer ι) : Option (ChatServer ι) :=
  match s.callback, s.calls with
  | .outside, (client, payload, isEnd) :: calls =>
    let session := (s.connections client).session.enqueued (streamJsonMessage serialize payload isEnd) isEnd
    some { s.withSession client session with calls, callback := .posting client isEnd }
  | _, _ => none

/-- The callback posts the flush, and unlistens behind the last message. -/
def post (s : ChatServer ι) : Option (ChatServer ι) :=
  match s.callback with
  | .posting client isEnd =>
    some { s.withSession client ((s.connections client).session.posted isEnd) with
      callback := if isEnd then .unlistening else .outside }
  | _ => none

inductive Label (ι : Type) where
  | receive (client : ι) (keepAlive : Bool)
  | readFails (client : ι) (endOfStream : Bool)
  | complete (client : ι)
  | completeLate (client : ι) (bytes : Bytes)
  | writeFails (client : ι) (bytes : Bytes)
  | run (client : ι)
  | request (client : ι) (chatId : Bytes) (generation : Generation)
  | stop | notify | wake | check | act | call | post
  | unlisten (groupId : Bytes)
  | throw | finish

def step (serialize : Json → Bytes) (s : ChatServer ι) : Label ι → Option (ChatServer ι)
  | .receive client keepAlive =>
    ((s.connections client).receive keepAlive).map (s.withConnection client)
  | .readFails client endOfStream =>
    ((s.connections client).readFails endOfStream).map (s.withConnection client)
  | .complete client => (s.connections client).complete.map (s.withConnection client)
  | .completeLate client bytes =>
    ((s.connections client).completeLate bytes).map (s.withConnection client)
  | .writeFails client bytes =>
    ((s.connections client).writeFails bytes).map (s.withConnection client)
  | .run client => s.run client
  | .request client chatId generation => s.request client chatId generation
  | .stop => some { s with worker := s.worker.stop }
  | .notify => s.worker.notify.map fun worker => { s with worker }
  | .wake => some { s with worker := s.worker.wake }
  | .check => s.worker.check.map s.begin
  | .act => s.act
  | .call => s.call serialize
  | .post => s.post
  | .unlisten groupId => s.unlisten groupId
  | .throw => s.throw
  | .finish => s.finish

def system (serialize : Json → Bytes) : Transitions (ChatServer ι) (Label ι) :=
  ⟨start, step serialize⟩

/-- The steps that cancel no task and give every chat an identifier of its own. -/
def Regular (s : ChatServer ι) : Label ι → Prop
  | .request _ chatId _ => ∀ entry ∈ s.worker.accepted, entry.task.chatId ≠ chatId
  | .check => s.worker.running = true ∨ s.worker.tasks = []
  | _ => True

/-- The steps that a client relies on: its own connection does not end and is orderly, the identifiers
of chats are new, the worker leaves its loop with an empty queue, and no callback unlistens to a chat
whose task is still in the queue. -/
def Careful (client : ι) (s : ChatServer ι) : Label ι → Prop
  | .run c => c = client → (s.connections client).session.Orderly .run ∧
    ¬ (s.connections client).Ends .run
  | .completeLate c bytes => c = client → (s.connections client).Orderly (.completeLate bytes)
  | .readFails c _ | .writeFails c _ => c ≠ client
  | .request _ chatId _ => ∀ entry ∈ s.worker.accepted, entry.task.chatId ≠ chatId
  | .check => s.worker.running = true ∨ s.worker.tasks = []
  | .unlisten groupId => ∀ entry ∈ s.worker.tasks, entry.task.chatId ≠ groupId
  | _ => True

omit [DecidableEq ι] in
theorem Careful.regular {s : ChatServer ι} {client : ι} {label : Label ι}
    (h : s.Careful client label) : s.Regular label := by
  cases label with
  | request c chatId generation => exact h
  | check => exact h
  | _ => exact trivial

def tasksOf (client : ι) (entries : List (Entry (ChatTask ι))) : List (Entry (ChatTask ι)) :=
  entries.filter fun entry => entry.task.client = client

def pending (s : ChatServer ι) : List (Json × Bool) :=
  s.calls.map Prod.snd ++ streamedMessages s.todo

def Calls (s : ChatServer ι) (client : ι) : Prop :=
  client ∈ s.calls.map Prod.fst ∨ ∃ isEnd, s.callback = .posting client isEnd

/-- What holds of the worker and the dispatcher, whoever the clients are, as long as no task is
cancelled. -/
structure Steady (s : ChatServer ι) : Prop where
  reachable : (Worker.system (ChatTask ι) Reply).Reachable s.worker
  uncancelled : ∀ f ∈ s.worker.fulfilled, f.2 ≠ .workerStopped
  counted : s.dispatcher.Counted
  fresh : (s.worker.accepted.map fun entry => entry.task.chatId).Nodup
  listens : ∀ chatId, ∀ listener ∈ values s.dispatcher.listeners chatId,
    ∃ entry ∈ s.worker.accepted, entry.task.client = listener.callback ∧ entry.task.chatId = chatId
  single : ∀ chatId, (values s.dispatcher.listeners chatId).length ≤ 1
  resting : s.worker.phase.current = [] → s.calls = [] ∧ s.callback = .outside ∧ s.todo = []

variable {s s' : ChatServer ι} {client : ι} {serialize : Json → Bytes} {entry : Entry (ChatTask ι)}

omit [DecidableEq ι] in
theorem Steady.split (h : Steady s) : ∃ done : List (Entry (ChatTask ι) × Reply),
    s.worker.fulfilled = done.map (fun d => (d.1, .executed d.2)) ∧
      s.worker.started = done.map Prod.fst ++ s.worker.phase.current ∧
      s.worker.accepted = s.worker.started ++ s.worker.tasks := by
  obtain ⟨done, cancelled, hconsistent⟩ := consistent_of_reachable h.reachable
  obtain rfl : cancelled = [] := by
    rw [List.eq_nil_iff_forall_not_mem]
    intro entry hentry
    refine h.uncancelled (entry, .workerStopped) ?_ rfl
    rw [hconsistent.fulfilled]
    exact List.mem_append_right _ (List.mem_map_of_mem hentry)
  have hfulfilled := hconsistent.fulfilled
  rw [List.map_nil, List.append_nil] at hfulfilled
  exact ⟨done, hfulfilled, hconsistent.started, hconsistent.accepted⟩

omit [DecidableEq ι] in
theorem Steady.injective (h : Steady s) {entry' : Entry (ChatTask ι)}
    (hentry : entry ∈ s.worker.accepted) (hentry' : entry' ∈ s.worker.accepted)
    (heq : entry.task.chatId = entry'.task.chatId) : entry = entry' :=
  List.inj_on_of_nodup_map h.fresh hentry hentry' heq

omit [DecidableEq ι] in
theorem Steady.accepted_nodup (h : Steady s) : s.worker.accepted.Nodup :=
  List.Nodup.of_map _ h.fresh

omit [DecidableEq ι] in
theorem Steady.unfulfilled (h : Steady s)
    (hentry : entry ∈ s.worker.phase.current ++ s.worker.tasks) (f : Fulfilment Reply) :
    (entry, f) ∉ s.worker.fulfilled := by
  obtain ⟨done, hfulfilled, hstarted, haccepted⟩ := h.split
  have hnodup := h.accepted_nodup
  rw [haccepted, hstarted, List.append_assoc] at hnodup
  intro hmem
  rw [hfulfilled] at hmem
  obtain ⟨d, hd, heq⟩ := List.mem_map.mp hmem
  cases heq
  exact List.disjoint_of_nodup_append hnodup (List.mem_map_of_mem hd) hentry

omit [DecidableEq ι] in
theorem Steady.mem_accepted (h : Steady s)
    (hentry : entry ∈ s.worker.phase.current ++ s.worker.tasks) : entry ∈ s.worker.accepted := by
  obtain ⟨done, -, hstarted, haccepted⟩ := h.split
  rw [haccepted, hstarted, List.append_assoc]
  exact List.mem_append_right _ hentry

omit [DecidableEq ι] in
theorem Steady.executing (h : Steady s) (hcalls : s.calls ≠ [] ∨ s.callback ≠ .outside) :
    ∃ entry, s.worker.phase = .executing entry := by
  cases hphase : s.worker.phase with
  | executing entry => exact ⟨entry, rfl⟩
  | _ =>
    obtain ⟨hnil, houtside, -⟩ := h.resting (by rw [hphase]; rfl)
    rcases hcalls with hcalls | hcallback
    · exact absurd hnil hcalls
    · exact absurd houtside hcallback

omit [DecidableEq ι] in
theorem streamedMessages_dispatch (e : InferenceEvent) (todo : List Action) :
    streamedMessages (.dispatch e :: todo) =
      (streamedMessage e).toList ++ streamedMessages todo := by
  change List.filterMap streamedMessage (e :: Inference.events todo) = _
  rw [List.filterMap_cons]
  cases streamedMessage e with
  | none => rfl
  | some m => rfl

omit [DecidableEq ι] in
theorem act_cases (h : s.act = some s') : ∃ entry, s.worker.phase = .executing entry ∧
    s.calls = [] ∧ s.callback = .outside ∧
      ((∃ e todo, s.todo = .dispatch e :: todo ∧ s' = { s with
        dispatcher := (s.dispatcher.dispatch entry.task.chatId e.name).2
        todo
        events := s.events ++ [(entry.task.chatId, e)]
        calls := (streamedMessage e).elim [] fun message =>
          (s.dispatcher.dispatch entry.task.chatId e.name).1.map fun c => (c, message) }) ∨
      ∃ a todo, s.todo = a :: todo ∧ a.completes = false ∧
        streamedMessages s.todo = streamedMessages todo ∧ s' = { s with todo }) := by
  rw [act] at h
  split at h
  · rename_i entry e todo hphase hcalls hcallback htodo
    cases h
    exact ⟨entry, hphase, hcalls, hcallback, .inl ⟨e, todo, htodo, rfl⟩⟩
  · rename_i entry a todo hnot hphase hcalls hcallback htodo
    cases h
    cases a with
    | dispatch e => exact absurd rfl (hnot e)
    | predict tokens pastTokens =>
      exact ⟨entry, hphase, hcalls, hcallback, .inr ⟨_, todo, htodo, rfl, by rw [htodo]; rfl, rfl⟩⟩
    | sample token =>
      exact ⟨entry, hphase, hcalls, hcallback, .inr ⟨_, todo, htodo, rfl, by rw [htodo]; rfl, rfl⟩⟩
  · cases h

theorem call_cases (h : s.call serialize = some s') : ∃ c payload isEnd calls,
    s.callback = .outside ∧ s.calls = (c, payload, isEnd) :: calls ∧
      s' = { s.withSession c
          ((s.connections c).session.enqueued (streamJsonMessage serialize payload isEnd) isEnd) with
        calls, callback := .posting c isEnd } := by
  rw [call] at h
  split at h
  · rename_i c payload isEnd calls hcallback hcalls
    cases h
    exact ⟨c, payload, isEnd, calls, hcallback, hcalls, rfl⟩
  · cases h

theorem post_cases (h : s.post = some s') : ∃ c isEnd, s.callback = .posting c isEnd ∧
    s' = { s.withSession c ((s.connections c).session.posted isEnd) with
      callback := if isEnd then .unlistening else .outside } := by
  rw [post] at h
  split at h
  · rename_i c isEnd hcallback
    cases h
    exact ⟨c, isEnd, hcallback, rfl⟩
  · cases h

omit [DecidableEq ι] in
theorem unlisten_cases {groupId : Bytes} (h : s.unlisten groupId = some s') :
    s.callback = .unlistening ∧ ∃ dispatcher, s.dispatcher.unlisten groupId = .ok dispatcher ∧
      s' = { s with dispatcher, callback := .outside } := by
  rw [unlisten] at h
  split at h
  · rename_i dispatcher hcallback hdispatcher
    cases h
    exact ⟨hcallback, dispatcher, hdispatcher, rfl⟩
  · cases h

omit [DecidableEq ι] in
theorem throw_cases (h : s.throw = some s') : s.calls = [] ∧ s.callback = .outside ∧
    ∃ entry, s.worker.phase = .executing entry ∧ s' = { s with
      worker := { s.worker with
        phase := .checking
        fulfilled := s.worker.fulfilled ++ [(entry, .executed .exception)] }
      todo := [] } := by
  rw [throw] at h
  split at h
  · rename_i hcalls hcallback
    obtain ⟨worker, hworker, rfl⟩ := Option.map_eq_some_iff.mp h
    obtain ⟨entry, hphase, rfl⟩ := executed_cases hworker
    exact ⟨hcalls, hcallback, entry, hphase, rfl⟩
  · cases h

omit [DecidableEq ι] in
theorem finish_cases (h : s.finish = some s') : s.calls = [] ∧ s.callback = .outside ∧
    s.todo = [] ∧ ∃ entry, s.worker.phase = .executing entry ∧ s' = { s with
      worker := { s.worker with
        phase := .checking
        fulfilled := s.worker.fulfilled ++
          [(entry, .executed (.value entry.task.generation.output))] } } := by
  rw [finish] at h
  split at h
  · rename_i entry hphase hcalls hcallback htodo
    obtain ⟨worker, hworker, rfl⟩ := Option.map_eq_some_iff.mp h
    obtain ⟨entry', hphase', rfl⟩ := executed_cases hworker
    cases hphase.symm.trans hphase'
    exact ⟨hcalls, hcallback, htodo, entry, hphase, rfl⟩
  · cases h

theorem request_cases {c : ι} {chatId : Bytes} {generation : Generation}
    (h : s.request c chatId generation = some s') : s.worker.running = true ∧ ∃ strand dispatcher,
      (s.connections c).session.strand = .handleRequest :: strand ∧
        s.dispatcher.listen chatId c chatEvents = .ok dispatcher ∧
          s' = { s.withSession c
              (Session.handleRequest { (s.connections c).session with strand := strand }) with
            dispatcher, worker := s.worker.addTask ⟨c, chatId, generation⟩ } := by
  rw [request] at h
  split_ifs at h with hcond
  obtain ⟨hrunning, hhead⟩ := hcond
  obtain ⟨strand, hstrand⟩ := List.head?_eq_some_iff.mp hhead
  split at h
  · rename_i connection dispatcher hconnection hdispatcher
    simp only [Connection.runStrand, hstrand, Option.some.injEq] at hconnection
    cases h
    subst hconnection
    exact ⟨hrunning, strand, dispatcher, hstrand, hdispatcher, rfl⟩
  · cases h

theorem check_cases (h : s.worker.check.map s.begin = some s') : s.worker.phase = .checking ∧
    (s.worker.tasks = [] ∧ s' = { s with worker := { s.worker with phase := .asleep } } ∨
      (∃ entry tasks, s.worker.tasks = entry :: tasks ∧ s' =
        { s.withSession entry.task.client (s.connections entry.task.client).session.taking with
          worker := { s.worker with
            tasks, phase := .executing entry, started := s.worker.started ++ [entry] }
          todo := entry.task.generation.trace }) ∨
      s.worker.running = false ∧ s' = { s with worker := s.worker.drain }) := by
  obtain ⟨worker, hworker, rfl⟩ := Option.map_eq_some_iff.mp h
  rcases Worker.check_cases hworker with
    ⟨hphase, ⟨-, htasks, rfl⟩ | ⟨entry, tasks, -, htasks, rfl⟩ | ⟨hstopped, rfl⟩⟩
  · exact ⟨hphase, .inl ⟨htasks, rfl⟩⟩
  · exact ⟨hphase, .inr (.inl ⟨entry, tasks, htasks, rfl⟩)⟩
  · exact ⟨hphase, .inr (.inr ⟨hstopped, rfl⟩)⟩

omit [DecidableEq ι] in
theorem drain_nil {w : Worker (ChatTask ι) Reply} (htasks : w.tasks = []) :
    w.drain = { w with phase := .exited } := by
  rw [drain, htasks, List.map_nil, List.append_nil]

omit [DecidableEq ι] in
theorem values_dispatch (d : Events.EventDispatcher ι) (groupId g : Bytes)
    (eventName : Events.InferenceEvent) :
    values (d.dispatch groupId eventName).2.listeners g = values d.listeners g :=
  Multimap.values_subscript _ _ _

omit [DecidableEq ι] in
theorem steady_start : Steady (start : ChatServer ι) :=
  ⟨Transitions.reachable_start _, List.forall_mem_nil _, Events.EventDispatcher.new_counted, List.nodup_nil,
    fun _ => List.forall_mem_nil _, fun _ => Nat.zero_le 1, fun _ => ⟨rfl, rfl, rfl⟩⟩

theorem Steady.withConnection (h : Steady s) (c : ι) (connection : Connection) :
    Steady (s.withConnection c connection) :=
  ⟨h.reachable, h.uncancelled, h.counted, h.fresh, h.listens, h.single, h.resting⟩

omit [DecidableEq ι] in
theorem Steady.values_new (h : Steady s) {chatId : Bytes}
    (hnew : ∀ entry ∈ s.worker.accepted, entry.task.chatId ≠ chatId) :
    values s.dispatcher.listeners chatId = [] := by
  apply List.eq_nil_iff_forall_not_mem.mpr
  intro listener hlistener
  obtain ⟨entry, hentry, -, heq⟩ := h.listens chatId listener hlistener
  exact hnew entry hentry heq

omit [DecidableEq ι] in
theorem Steady.values_listen (h : Steady s) {c : ι} {chatId : Bytes}
    {dispatcher : Events.EventDispatcher ι}
    (hnew : ∀ entry ∈ s.worker.accepted, entry.task.chatId ≠ chatId)
    (hlisten : s.dispatcher.listen chatId c chatEvents = .ok dispatcher) (g : Bytes) :
    values dispatcher.listeners g =
      if g = chatId then [⟨c, chatEvents⟩] else values s.dispatcher.listeners g := by
  rw [(h.counted.listen hlisten).2]
  split_ifs with hg
  · rw [hg, Multimap.values_insert_self, h.values_new hnew, List.nil_append]
  · exact Multimap.values_insert_of_ne hg _

omit [DecidableEq ι] in
theorem addTask_running (h : s.worker.running = true) (task : ChatTask ι) :
    s.worker.addTask task = { s.worker with
      tasks := s.worker.tasks ++ [⟨task, s.worker.calls⟩]
      notifications := s.worker.notifications + 1
      calls := s.worker.calls + 1
      accepted := s.worker.accepted ++ [⟨task, s.worker.calls⟩] } := by
  rw [addTask, if_pos h]

theorem Steady.request {c : ι} {chatId : Bytes} {generation : Generation} (h : Steady s)
    (hnew : ∀ entry ∈ s.worker.accepted, entry.task.chatId ≠ chatId)
    (hstep : s.request c chatId generation = some s') : Steady s' := by
  obtain ⟨hrunning, strand, dispatcher, -, hlisten, rfl⟩ := request_cases hstep
  have haddTask := addTask_running hrunning ⟨c, chatId, generation⟩
  have hvalues := h.values_listen hnew hlisten
  refine ⟨@Transitions.Reachable.step _ _ _ _ _ h.reachable (.addTask _) rfl, ?_,
    (h.counted.listen hlisten).1, ?_, ?_, ?_, ?_⟩
  · rw [haddTask]
    exact h.uncancelled
  · rw [haddTask, List.map_append, List.map_singleton]
    apply List.nodup_append.mpr ⟨h.fresh, List.nodup_singleton _, ?_⟩
    intro a ha b hb hab
    obtain ⟨entry, hentry, rfl⟩ := List.mem_map.mp ha
    rw [List.mem_singleton] at hb
    exact hnew entry hentry (hab.trans hb)
  · intro g listener hlistener
    rw [haddTask]
    change listener ∈ values dispatcher.listeners g at hlistener
    rw [hvalues] at hlistener
    split_ifs at hlistener with hg
    · rw [List.mem_singleton.mp hlistener]
      exact ⟨_, List.mem_append_right _ (List.mem_singleton_self _), rfl, hg.symm⟩
    · obtain ⟨entry, hentry, hclient⟩ := h.listens g listener hlistener
      exact ⟨entry, List.mem_append_left _ hentry, hclient⟩
  · intro g
    change (values dispatcher.listeners g).length ≤ 1
    rw [hvalues]
    split_ifs
    · exact le_rfl
    · exact h.single g
  · rw [haddTask]
    exact h.resting

omit [DecidableEq ι] in
/-- A loop that is notified or wakes up tests its condition again. -/
theorem Steady.awake (h : Steady s) (notifications : ℕ)
    (hreachable : (Worker.system (ChatTask ι) Reply).Reachable
      { s.worker with phase := s.worker.phase.awake, notifications }) :
    Steady { s with worker :=
      { s.worker with phase := s.worker.phase.awake, notifications } } := by
  refine ⟨hreachable, h.uncancelled, h.counted, h.fresh, h.listens, h.single, fun hrest => h.resting ?_⟩
  rw [← Phase.awake_current]
  exact hrest

theorem Steady.check (h : Steady s) (hregular : s.Regular .check)
    (hstep : s.worker.check.map s.begin = some s') : Steady s' := by
  obtain ⟨worker, hworker, -⟩ := Option.map_eq_some_iff.mp hstep
  have hreach := @Transitions.Reachable.step _ _ _ _ _ h.reachable .check hworker
  rcases Worker.check_cases hworker with
    ⟨hphase, ⟨hrunning, htasks, rfl⟩ | ⟨entry, tasks, hrunning, htasks, rfl⟩ | ⟨hstopped, rfl⟩⟩
  · rw [hworker] at hstep
    cases hstep
    exact ⟨hreach, h.uncancelled, h.counted, h.fresh, h.listens, h.single,
      fun _ => h.resting (by rw [hphase]; rfl)⟩
  · rw [hworker] at hstep
    cases hstep
    exact ⟨hreach, h.uncancelled, h.counted, h.fresh, h.listens, h.single,
      fun hrest => by cases hrest⟩
  · have htasks : s.worker.tasks = [] := by
      rcases hregular with hrunning | htasks
      · rw [hstopped] at hrunning
        cases hrunning
      · exact htasks
    rw [hworker] at hstep
    rw [drain_nil htasks] at hreach hstep
    cases hstep
    exact ⟨hreach, h.uncancelled, h.counted, h.fresh, h.listens, h.single,
      fun _ => h.resting (by rw [hphase]; rfl)⟩

omit [DecidableEq ι] in
theorem Steady.act (h : Steady s) (hstep : s.act = some s') : Steady s' := by
  obtain ⟨entry, hphase, -, -, ⟨e, todo, -, rfl⟩ | ⟨a, todo, -, -, -, rfl⟩⟩ :=
    act_cases hstep
  · refine ⟨h.reachable, h.uncancelled, h.counted.dispatch _ e.name, h.fresh, ?_, ?_, fun hrest => ?_⟩
    · intro g listener hlistener
      rw [values_dispatch] at hlistener
      exact h.listens g listener hlistener
    · intro g
      rw [values_dispatch]
      exact h.single g
    change s.worker.phase.current = [] at hrest
    rw [hphase] at hrest
    cases hrest
  · refine ⟨h.reachable, h.uncancelled, h.counted, h.fresh, h.listens, h.single, fun hrest => ?_⟩
    change s.worker.phase.current = [] at hrest
    rw [hphase] at hrest
    cases hrest

theorem Steady.call (h : Steady s) (hstep : s.call serialize = some s') : Steady s' := by
  obtain ⟨c, payload, isEnd, calls, -, hcalls, rfl⟩ := call_cases hstep
  refine ⟨h.reachable, h.uncancelled, h.counted, h.fresh, h.listens, h.single, fun hrest => ?_⟩
  have hnil := (h.resting hrest).1
  rw [hcalls] at hnil
  cases hnil

theorem Steady.post (h : Steady s) (hstep : s.post = some s') : Steady s' := by
  obtain ⟨c, isEnd, hcallback, rfl⟩ := post_cases hstep
  refine ⟨h.reachable, h.uncancelled, h.counted, h.fresh, h.listens, h.single, fun hrest => ?_⟩
  have houtside := (h.resting hrest).2.1
  rw [hcallback] at houtside
  cases houtside

omit [DecidableEq ι] in
theorem Steady.unlisten {groupId : Bytes} (h : Steady s) (hstep : s.unlisten groupId = some s') :
    Steady s' := by
  obtain ⟨hcallback, dispatcher, hunlisten, rfl⟩ := unlisten_cases hstep
  obtain ⟨d, hd, hcounted, hvalues⟩ := h.counted.unlisten groupId
  cases hunlisten.symm.trans hd
  refine ⟨h.reachable, h.uncancelled, hcounted, h.fresh, ?_, ?_, fun hrest => ?_⟩
  · intro g listener hlistener
    rw [hvalues] at hlistener
    split_ifs at hlistener
    · cases hlistener
    · exact h.listens g listener hlistener
  · intro g
    rw [hvalues]
    split_ifs
    · exact Nat.zero_le 1
    · exact h.single g
  have houtside := (h.resting hrest).2.1
  rw [hcallback] at houtside
  cases houtside

omit [DecidableEq ι] in
theorem Steady.reply (h : Steady s) (hphase : s.worker.phase = .executing entry)
    (hcalls : s.calls = []) (hcallback : s.callback = .outside) (reply : Reply) :
    Steady { s with
      worker := { s.worker with
        phase := .checking
        fulfilled := s.worker.fulfilled ++ [(entry, .executed reply)] }
      todo := [] } := by
  refine ⟨?_, ?_, h.counted, h.fresh, h.listens, h.single, fun _ => ⟨hcalls, hcallback, rfl⟩⟩
  · apply @Transitions.Reachable.step _ _ _ _ _ h.reachable (.executed reply)
    change s.worker.executed reply = _
    rw [executed, hphase]
  · intro f hf
    rcases List.mem_append.mp hf with hold | hnew
    · exact h.uncancelled f hold
    · rw [List.mem_singleton.mp hnew]
      exact fun heq => by cases heq

omit [DecidableEq ι] in
theorem Steady.stop (h : Steady s) : Steady { s with worker := s.worker.stop } := by
  have hreach : (Worker.system (ChatTask ι) Reply).Reachable s.worker.stop :=
    @Transitions.Reachable.step _ _ _ _ _ h.reachable .stop rfl
  rw [Worker.stop] at hreach ⊢
  split_ifs at hreach ⊢
  · exact ⟨hreach, h.uncancelled, h.counted, h.fresh, h.listens, h.single, h.resting⟩
  · exact h

theorem Steady.step (h : Steady s) {label : Label ι} (hregular : s.Regular label)
    (hstep : s.step serialize label = some s') : Steady s' := by
  cases label with
  | receive c keepAlive =>
    obtain ⟨connection, -, rfl⟩ := Option.map_eq_some_iff.mp hstep
    exact h.withConnection c connection
  | readFails c endOfStream =>
    obtain ⟨connection, -, rfl⟩ := Option.map_eq_some_iff.mp hstep
    exact h.withConnection c connection
  | complete c =>
    obtain ⟨connection, -, rfl⟩ := Option.map_eq_some_iff.mp hstep
    exact h.withConnection c connection
  | completeLate c bytes =>
    obtain ⟨connection, -, rfl⟩ := Option.map_eq_some_iff.mp hstep
    exact h.withConnection c connection
  | writeFails c bytes =>
    obtain ⟨connection, -, rfl⟩ := Option.map_eq_some_iff.mp hstep
    exact h.withConnection c connection
  | run c =>
    simp only [ChatServer.step, ChatServer.run] at hstep
    split_ifs at hstep
    obtain ⟨connection, -, rfl⟩ := Option.map_eq_some_iff.mp hstep
    exact h.withConnection c connection
  | request c chatId generation => exact h.request hregular hstep
  | stop =>
    cases hstep
    exact h.stop
  | notify =>
    obtain ⟨worker, hworker, rfl⟩ := Option.map_eq_some_iff.mp hstep
    have hreachable := @Transitions.Reachable.step _ _ _ _ _ h.reachable .notify hworker
    rw [notify_cases hworker] at hreachable ⊢
    exact h.awake _ hreachable
  | wake =>
    cases hstep
    exact h.awake _ (@Transitions.Reachable.step _ _ _ _ _ h.reachable .wake rfl)
  | check => exact h.check hregular hstep
  | act => exact h.act hstep
  | call => exact h.call hstep
  | post => exact h.post hstep
  | unlisten groupId => exact h.unlisten hstep
  | throw =>
    obtain ⟨hcalls, hcallback, entry, hphase, rfl⟩ := throw_cases hstep
    exact h.reply hphase hcalls hcallback .exception
  | finish =>
    obtain ⟨hcalls, hcallback, htodo, entry, hphase, rfl⟩ := finish_cases hstep
    have hsteady := h.reply hphase hcalls hcallback (.value entry.task.generation.output)
    rw [← htodo] at hsteady
    exact hsteady

end ChatServer

end ZInferLM.Serve
