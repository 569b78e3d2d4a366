import ZInferLM.Library.Settling
import ZInferLM.Serve.Clients

/-! # Every request is answered

The steps of the worker, and those of the strand and the writes of one session, make a number
smaller, so that they come to an end unless new requests arrive. When they can do no more, every
request of the client has its response, which shows the tokens of its generation unless this has
thrown. -/

namespace ZInferLM.Serve
open Library Library.Utf8 Tokenizer Inference Worker
open Library.Multimap (values)

namespace Session

/-- How much a handler may start. -/
def cost : Handler → ℕ
  | .doRead | .handleRequest | .flush => 1
  | .initiateStreaming => 5
  | .written _ => 2

/-- What a session has to do at most, without new messages. -/
def weight (s : Session) : ℕ :=
  (s.strand.map cost).sum + 3 * s.writes.length + 4 * s.streamingQueue.length

variable {s s' : Session} {strand : List Handler}

/-- A flush starts a chunk that was in the queue, when the header has been sent. -/
theorem weight_flush (h : s.isWriting = true ∨ s.headerSent = true) :
    s.flushStreamingQueue.weight ≤ s.weight := by
  by_cases hwriting : s.isWriting = true
  · rw [flush_writing hwriting]
  · have hheader := h.resolve_left hwriting
    cases hqueue : s.streamingQueue with
    | nil => rw [flush_empty hheader hqueue]
    | cons c queue =>
      rw [flush_chunk (Bool.eq_false_iff.mpr hwriting) hheader hqueue]
      simp only [weight, asyncWrite, hqueue, List.length_append, List.length_cons, List.length_nil]
      omega

theorem weight_initiate (s : Session) :
    (flushStreamingQueue { s with headerSent := false }).weight ≤ s.weight + 3 := by
  by_cases hwriting : s.isWriting = true
  · rw [@flush_writing { s with headerSent := false } hwriting]
    exact Nat.le_add_right _ 3
  · rw [@flush_header { s with headerSent := false } (Bool.eq_false_iff.mpr hwriting) rfl]
    simp only [weight, asyncWrite, List.length_append, List.length_cons, List.length_nil]
    omega

theorem Consistent.header_of_flush (h : s.Consistent) (hstrand : s.strand = .flush :: strand) :
    s.isWriting = true ∨ s.headerSent = true := by
  cases h with
  | starting h => simp [h, start] at hstrand
  | between h =>
    by_contra hnot
    rw [not_or, Bool.not_eq_true, Bool.not_eq_true] at hnot
    exact (h.first hnot.2).1 (hstrand ▸ List.mem_cons_self)
  | initiating done h => exact .inr (h.headerSent hstrand)
  | waiting done gone h woken => exact .inr h.headerSent
  | writing done gone w h => exact .inl h.isWriting

theorem Consistent.weight_handle (h : s.Consistent) {handler : Handler}
    (hstrand : s.strand = handler :: strand) (hhandler : handler ≠ .handleRequest) :
    (handle { s with strand := strand } handler).weight < s.weight := by
  have hpopped : s.weight = cost handler + weight { s with strand := strand } := by
    simp only [weight, hstrand, List.map_cons, List.sum_cons]
    omega
  cases handler with
  | doRead =>
    rw [hpopped]
    exact Nat.lt_add_of_pos_left Nat.one_pos
  | handleRequest => exact absurd rfl hhandler
  | initiateStreaming =>
    have hle := weight_initiate { s with strand := strand }
    rw [hpopped]
    simp only [handle, cost] at hle ⊢
    omega
  | flush =>
    have hle := @weight_flush { s with strand := strand } (h.header_of_flush hstrand)
    rw [hpopped]
    simp only [handle, cost]
    omega
  | written w =>
    obtain ⟨done, gone, hwriting, -, -⟩ := Connection.writing_of_strand h hstrand
    have hsame : ∀ headerSent, weight { s with
        strand := strand, headerSent := headerSent, isWriting := false } =
          weight { s with strand := strand } := fun _ => rfl
    cases w with
    | header =>
      have hle := @weight_flush { s with
        strand := strand, headerSent := true, isWriting := false } (.inr rfl)
      rw [hsame] at hle
      rw [hpopped]
      simp only [handle, cost]
      omega
    | chunk c =>
      obtain ⟨before, d, -, -, -, hheader⟩ :=
        hwriting.stage.resolve_left fun hcase => by simp at hcase
      have hle := @weight_flush { s with strand := strand, isWriting := false } (.inr hheader)
      have hread : weight (doRead { s with strand := strand, isWriting := false }) =
          weight { s with strand := strand } := rfl
      have hidle : weight { s with strand := strand, isWriting := false } =
          weight { s with strand := strand } := rfl
      rw [hidle] at hle
      rw [hpopped]
      simp only [handle, cost]
      split_ifs
      · rw [hread]
        omega
      · omega

theorem weight_complete (hstep : s.complete = some s') : s'.weight < s.weight := by
  rw [complete] at hstep
  split at hstep
  · cases hstep
  · rename_i w writes hwrites
    cases hstep
    simp only [weight, hwrites, List.map_append, List.sum_append, List.map_cons, List.map_nil,
      List.sum_cons, List.sum_nil, cost, List.length_cons]
    omega

/-- The strand waits for a request only when everything has been written. -/
theorem Consistent.drained_of_request (h : s.Consistent)
    (hstrand : s.strand = .handleRequest :: strand) : s.Drained := by
  have hother : otherHandlers s.strand = .handleRequest :: otherHandlers strand := by
    rw [hstrand, otherHandlers_cons (by decide)]
  cases h with
  | starting h => simp [h, start] at hstrand
  | between h => exact ⟨h.io, h.writes⟩
  | initiating done h => simp [h.pending] at hother
  | waiting done gone h woken => simp [h.pending] at hother
  | writing done gone w h =>
    rcases h.write with ⟨-, hpending⟩ | ⟨-, hpending⟩
    · simp [hpending] at hother
    · simp [hpending] at hother

end Session

namespace ChatServer

variable {ι : Type}

/-- The steps of the worker and those of the session of a client. -/
def Label.IsOwn (client : ι) : Label ι → Prop
  | .run c | .complete c | .completeLate c _ => c = client
  | .notify | .check | .act | .call | .post | .unlisten _ | .throw | .finish => True
  | .receive _ _ | .readFails _ _ | .writeFails _ _ | .request _ _ _ | .stop | .wake => False

/-- What a callback has left to do, with the flush that it posts. -/
def CallbackPhase.weight : CallbackPhase ι → ℕ
  | .outside => 0
  | .posting _ _ => 4
  | .unlistening => 1

/-- How far the loop of the worker is from sleeping. -/
def phaseWeight : Phase (ChatTask ι) → ℕ
  | .asleep | .exited => 0
  | .checking => 1
  | .executing _ => 2

/-- What the worker has to do at most, with what it gives to the sessions. An action calls at most one
callback, which puts at most one message into the queue of its session. -/
def workerWork (s : ChatServer ι) : ℕ :=
  9 * s.calls.length + CallbackPhase.weight s.callback + 10 * s.todo.length +
    (s.worker.tasks.map fun entry => 10 * entry.task.generation.trace.length + 2).sum +
      2 * s.worker.notifications + phaseWeight s.worker.phase

/-- What there is to do at most until all requests of a client are answered. -/
def work (client : ι) (s : ChatServer ι) : ℕ :=
  (s.connections client).session.weight + s.workerWork

variable {s s' : ChatServer ι} {client : ι} {serialize : Json → Bytes}
  {ms : List (List (Json × Bool))} {entry : Entry (ChatTask ι)}

theorem phaseWeight_awake (phase : Phase (ChatTask ι)) :
    phaseWeight phase.awake ≤ phaseWeight phase + 1 := by
  cases phase <;> simp [Phase.awake, phaseWeight]

theorem notify_work {worker : Worker (ChatTask ι) Reply} (h : s.worker.notify = some worker) :
    work client { s with worker } < work client s := by
  have hpositive : s.worker.notifications ≠ 0 := by
    intro hzero
    rw [notify, if_pos hzero] at h
    cases h
  rw [notify_cases h]
  have hweight := phaseWeight_awake s.worker.phase
  simp only [work, workerWork]
  omega

theorem act_work (hsteady : Steady s) (h : s.act = some s') : work client s' < work client s := by
  obtain ⟨entry, -, hcalls, -, ⟨e, todo, htodo, rfl⟩ | ⟨a, todo, htodo, -, -, rfl⟩⟩ :=
    act_cases h
  · have hfound : (s.dispatcher.dispatch entry.task.chatId e.name).1.length ≤ 1 := by
      rw [Events.EventDispatcher.dispatch_fst, List.length_map]
      exact (List.length_filter_le _ _).trans (hsteady.single _)
    have hlength : ((streamedMessage e).elim [] fun message =>
        (s.dispatcher.dispatch entry.task.chatId e.name).1.map fun c => (c, message)).length ≤ 1 := by
      cases streamedMessage e with
      | none => exact Nat.zero_le 1
      | some m =>
        rw [Option.elim_some, List.length_map]
        exact hfound
    simp only [work, workerWork, hcalls, htodo, List.length_nil, List.length_cons]
    omega
  · simp only [work, workerWork, htodo, List.length_cons]
    omega

theorem unlisten_work {groupId : Bytes} (h : s.unlisten groupId = some s') :
    work client s' < work client s := by
  obtain ⟨hcallback, dispatcher, -, rfl⟩ := unlisten_cases h
  simp only [work, workerWork, hcallback, CallbackPhase.weight]
  omega

theorem throw_work (h : s.throw = some s') : work client s' < work client s := by
  obtain ⟨-, -, entry, hphase, rfl⟩ := throw_cases h
  simp only [work, workerWork, hphase, phaseWeight, List.length_nil]
  omega

theorem finish_work (h : s.finish = some s') : work client s' < work client s := by
  obtain ⟨-, -, -, entry, hphase, rfl⟩ := finish_cases h
  simp only [work, workerWork, hphase, phaseWeight]
  omega

variable [DecidableEq ι]

theorem work_withSession_lt (c : ι) (session : Session) (k : ℕ)
    (hconnections : s'.connections = (s.withSession c session).connections)
    (hweight : session.weight ≤ (s.connections c).session.weight + k)
    (hworker : s'.workerWork + k < s.workerWork) : work client s' < work client s := by
  have hsession : (s'.connections client).session.weight ≤
      (s.connections client).session.weight + k := by
    rw [hconnections]
    by_cases hc : client = c
    · rw [hc, connections_withSession]
      exact hweight
    · rw [connections_withSession_ne s hc]
      exact Nat.le_add_right _ k
  simp only [work]
  omega

theorem check_work (hsteady : Steady s) (h : s.worker.check.map s.begin = some s') :
    work client s' < work client s := by
  obtain ⟨hphase, ⟨-, rfl⟩ | ⟨entry, tasks, htasks, rfl⟩ | ⟨-, rfl⟩⟩ := check_cases h
  · simp only [work, workerWork, hphase, phaseWeight]
    omega
  · obtain ⟨-, -, htodo⟩ := hsteady.resting (by rw [hphase]; rfl)
    refine work_withSession_lt entry.task.client _ 0 rfl (Nat.le_refl _) ?_
    simp only [workerWork, htasks, htodo, hphase, phaseWeight, List.map_cons, List.sum_cons,
      List.length_nil, withSession, withConnection]
    omega
  · simp only [work, workerWork, drain, hphase, phaseWeight, List.map_nil, List.sum_nil]
    omega

theorem call_work (h : s.call serialize = some s') : work client s' < work client s := by
  obtain ⟨c, payload, isEnd, calls, hcallback, hcalls, rfl⟩ := call_cases h
  refine work_withSession_lt c _ 4 rfl ?_ ?_
  · simp only [Session.weight, Session.enqueued, List.length_append, List.length_cons,
      List.length_nil]
    omega
  · simp only [workerWork, hcalls, hcallback, CallbackPhase.weight, List.length_cons, withSession,
      withConnection]
    omega

theorem post_work (h : s.post = some s') : work client s' < work client s := by
  obtain ⟨c, isEnd, hcallback, rfl⟩ := post_cases h
  refine work_withSession_lt c _ 1 rfl ?_ ?_
  · simp only [Session.weight, Session.posted, List.map_append, List.sum_append, List.map_cons,
      List.map_nil, List.sum_cons, List.sum_nil, Session.cost]
    omega
  · simp only [workerWork, hcallback, withSession, withConnection]
    cases isEnd with
    | true =>
      simp only [CallbackPhase.weight, if_true]
      omega
    | false =>
      simp only [CallbackPhase.weight, Bool.false_eq_true, if_false]
      omega

theorem work_withConnection (s : ChatServer ι) (client : ι) (connection : Connection) :
    work client (s.withConnection client connection) =
      connection.session.weight + s.workerWork := by
  rw [work, connections_withConnection]
  rfl

theorem Serves.complete_work (h : Serves serialize client s ms)
    (hstep : (s.connections client).complete.map (s.withConnection client) = some s') :
    work client s' < work client s := by
  obtain ⟨connection, hconnection, rfl⟩ := Option.map_eq_some_iff.mp hstep
  rw [Connection.complete, h.isOpen, if_neg Bool.false_ne_true] at hconnection
  obtain ⟨session, hsession, rfl⟩ := Option.map_eq_some_iff.mp hconnection
  rw [work_withConnection]
  exact Nat.add_lt_add_right (Session.weight_complete hsession) _

theorem Serves.run_work (h : Serves serialize client s ms)
    (hends : ¬ (s.connections client).Ends .run) (hstep : s.run client = some s') :
    work client s' < work client s := by
  rw [run] at hstep
  split_ifs at hstep with hhead
  obtain ⟨connection, hconnection, rfl⟩ := Option.map_eq_some_iff.mp hstep
  rw [work_withConnection]
  cases hstrand : (s.connections client).session.strand with
  | nil => simp [Connection.runStrand, hstrand] at hconnection
  | cons handler strand =>
    simp only [Connection.runStrand, hstrand, Option.some.injEq] at hconnection
    rw [hstrand] at hhead
    have hhandler : handler ≠ .handleRequest := fun heq => hhead (congrArg some heq)
    have hcontinues :
        ¬ ((s.connections client).keepAlive = false ∧ Connection.isLast handler = true) := by
      rw [Connection.Ends, hstrand] at hends
      exact hends
    rw [@Connection.handle_eq ((s.connections client).withSession
      { (s.connections client).session with strand := strand }) handler hcontinues] at hconnection
    subst hconnection
    exact Nat.add_lt_add_right (h.sound.consistent.weight_handle hstrand hhandler) _

/-- Every step of the worker and of the session of the client leaves less to do. -/
theorem Serves.step_work (hsteady : Steady s) (h : Serves serialize client s ms) {label : Label ι}
    (hcareful : s.Careful client label) (hown : label.IsOwn client)
    (hstep : s.step serialize label = some s') : work client s' < work client s := by
  cases label with
  | receive c keepAlive => cases hown
  | readFails c endOfStream => cases hown
  | writeFails c bytes => cases hown
  | request c chatId generation => cases hown
  | stop => cases hown
  | wake => cases hown
  | complete c =>
    obtain rfl : c = client := hown
    exact h.complete_work hstep
  | completeLate c bytes =>
    obtain rfl : c = client := hown
    obtain ⟨connection, hconnection, rfl⟩ := Option.map_eq_some_iff.mp hstep
    apply h.complete_work
    rw [Connection.complete_of_late (hcareful rfl) hconnection]
    rfl
  | run c =>
    obtain rfl : c = client := hown
    exact h.run_work (hcareful rfl).2 hstep
  | notify =>
    obtain ⟨worker, hworker, rfl⟩ := Option.map_eq_some_iff.mp hstep
    exact notify_work hworker
  | check => exact check_work hsteady hstep
  | act => exact act_work hsteady hstep
  | call => exact call_work hstep
  | post => exact post_work hstep
  | unlisten groupId => exact unlisten_work hstep
  | throw => exact throw_work hstep
  | finish => exact finish_work hstep

/-- What a client is served with is bounded, as long as nobody sends a new request. -/
theorem Serves.length_le (hline : ∀ payload, (13 : UInt8) ∉ serialize payload)
    (hsteady : Steady s) (h : Serves serialize client s ms) {labels : List (Label ι)}
    (hcareful : (system serialize).Meets (Careful client) s labels)
    (hown : ∀ label ∈ labels, label.IsOwn client)
    (hrun : (system serialize).runFrom s labels = some s') :
    labels.length + work client s' ≤ work client s := by
  have hserved : Steady s ∧ ∃ ms, Serves serialize client s ms := ⟨hsteady, ms, h⟩
  refine @Transitions.length_add_le_of_meets _ _ (system serialize) (Label.IsOwn client)
    (work client) s s' labels (fun s => Steady s ∧ ∃ ms, Serves serialize client s ms)
    (Careful client) ?_ ?_ hserved hcareful hown hrun
  · rintro s label s' ⟨hsteady, ms, h⟩ hlabel hstep
    exact ⟨hsteady.step hlabel.regular hstep, h.step hline hsteady hlabel hstep⟩
  · rintro s label s' ⟨hsteady, ms, h⟩ hlabel hown hstep
    exact h.step_work hsteady hlabel hown hstep

variable (hsteady : Steady s) (hsettled : (system serialize).Settled (Label.IsOwn client) s)
include hsteady hsettled

/-- The worker sleeps or has left its loop, and has executed all its tasks. -/
theorem Steady.resting_of_settled : s.worker.phase.current = [] ∧ s.worker.tasks = [] := by
  cases hphase : s.worker.phase with
  | checking =>
    have hcheck : s.worker.check.map s.begin = none := hsettled .check trivial
    rw [Option.map_eq_none_iff, Worker.check, hphase] at hcheck
    dsimp only at hcheck
    split_ifs at hcheck
    cases htasks : s.worker.tasks <;> rw [htasks] at hcheck <;> cases hcheck
  | asleep =>
    have hnotify : (s.worker.notify).map _ = none := hsettled .notify trivial
    rw [Option.map_eq_none_iff, Worker.notify] at hnotify
    split_ifs at hnotify with hzero
    exact ⟨rfl, (notified_of_reachable hsteady.reachable hphase hzero).1⟩
  | executing entry =>
    cases hcallback : s.callback with
    | posting c isEnd =>
      have hpost : s.post = none := hsettled .post trivial
      rw [ChatServer.post, hcallback] at hpost
      cases hpost
    | unlistening =>
      obtain ⟨dispatcher, hunlisten, -⟩ := hsteady.counted.unlisten entry.task.chatId
      have hnone : s.unlisten entry.task.chatId = none := hsettled (.unlisten _) trivial
      rw [ChatServer.unlisten, hcallback, hunlisten] at hnone
      cases hnone
    | outside =>
      cases hcalls : s.calls with
      | cons call calls =>
        have hcall : s.call serialize = none := hsettled .call trivial
        rw [ChatServer.call, hcallback, hcalls] at hcall
        cases hcall
      | nil =>
        cases htodo : s.todo with
        | nil =>
          have hfinish : s.finish = none := hsettled .finish trivial
          rw [ChatServer.finish, hphase, hcalls, hcallback, htodo, Option.map_eq_none_iff,
            executed, hphase] at hfinish
          cases hfinish
        | cons a todo =>
          have hact : s.act = none := hsettled .act trivial
          rw [ChatServer.act, hphase, hcalls, hcallback, htodo] at hact
          cases a <;> cases hact
  | exited =>
    obtain ⟨done, cancelled, hconsistent⟩ := consistent_of_reachable hsteady.reachable
    exact ⟨rfl, (hconsistent.exited hphase).1⟩

theorem Serves.drained_of_settled (h : Serves serialize client s ms) :
    (s.connections client).session.Drained := by
  obtain ⟨hcurrent, -⟩ := hsteady.resting_of_settled hsettled
  obtain ⟨-, houtside, -⟩ := hsteady.resting hcurrent
  have hwrites : (s.connections client).session.writes = [] := by
    have hcomplete : (s.connections client).complete.map (s.withConnection client) = none :=
      hsettled (.complete client) rfl
    rw [Option.map_eq_none_iff, Connection.complete, h.isOpen, if_neg Bool.false_ne_true,
      Option.map_eq_none_iff, Session.complete] at hcomplete
    cases hwrites : (s.connections client).session.writes with
    | nil => rfl
    | cons w writes =>
      rw [hwrites] at hcomplete
      cases hcomplete
  cases hstrand : (s.connections client).session.strand with
  | nil =>
    apply h.sound.consistent.drained ⟨hstrand, hwrites, ?_⟩
    intro isEnd hposting
    have hcalled := (h.posting isEnd).mp hposting
    rw [houtside] at hcalled
    cases hcalled
  | cons handler strand =>
    have hrun : s.run client = none := hsettled (.run client) rfl
    rw [run] at hrun
    split_ifs at hrun with hhead
    · obtain ⟨rest, hrest⟩ := List.head?_eq_some_iff.mp hhead
      exact h.sound.consistent.drained_of_request hrest
    · rw [Option.map_eq_none_iff, Connection.runStrand, hstrand] at hrun
      cases hrun

theorem Steady.executed_of_settled {entry : Entry (ChatTask ι)}
    (hentry : entry ∈ s.worker.accepted) :
    ∃ reply, (entry, .executed reply) ∈ s.worker.fulfilled := by
  obtain ⟨hcurrent, htasks⟩ := hsteady.resting_of_settled hsettled
  obtain ⟨done, hfulfilled, hstarted, haccepted⟩ := hsteady.split
  rw [haccepted, hstarted, hcurrent, htasks, List.append_nil, List.append_nil] at hentry
  obtain ⟨d, hd, rfl⟩ := List.mem_map.mp hentry
  refine ⟨d.2, ?_⟩
  rw [hfulfilled]
  exact List.mem_map_of_mem hd

omit hsteady hsettled

omit [DecidableEq ι] in
def Threw (s : ChatServer ι) (task : ChatTask ι) : Prop :=
  ∃ promise, (⟨task, promise⟩, .executed .exception) ∈ s.worker.fulfilled

theorem requestsOf_own {labels : List (Label ι)} (hown : ∀ label ∈ labels, label.IsOwn client) :
    requestsOf client labels = [] := by
  have htasks : labels.filterMap Label.task? = [] := by
    rw [List.filterMap_eq_nil_iff]
    intro label hlabel
    have howned := hown label hlabel
    cases label with
    | request c chatId generation => cases howned
    | _ => rfl
  rw [requestsOf, htasks, List.filter_nil]

/-- Wherever a server is in its work, at most `work` steps of its own remain for a client, in whatever
order they are taken. When none is left, every request of the client has a response, which shows the
tokens of its generation unless this has thrown. -/
theorem every_request_answered {parse : List Char → Option Json}
    (hline : ∀ payload, (13 : UInt8) ∉ serialize payload) (hparse : ReadsJson parse)
    {labels own : List (Label ι)} (hrun : (system serialize).run labels = some s)
    (hown : ∀ label ∈ own, label.IsOwn client)
    (hrest : (system serialize).runFrom s own = some s')
    (hcareful : (system serialize).Meets (Careful client) start (labels ++ own))
    (hcodec : ∀ task ∈ requestsOf client labels, ∀ m ∈ streamedMessages task.generation.trace,
      Faithful serialize parse m.1) :
    own.length ≤ work client s ∧ ((system serialize).Settled (Label.IsOwn client) s' →
      (bodies (s'.connections client).session.sent).length = (requestsOf client labels).length ∧
        ∀ (k : ℕ) task, (requestsOf client labels)[k]? = some task → s'.Threw task ∨
          ∃ body, (bodies (s'.connections client).session.sent)[k]? = some body ∧
            Shows parse body task.generation) := by
  obtain ⟨hsteady, ms, h⟩ := serves_of_meets hline hcareful.left hrun
  have hrun' : (system serialize).run (labels ++ own) = some s' := by
    rw [Transitions.run] at hrun ⊢
    rw [Transitions.runFrom_append, hrun]
    exact hrest
  have hrequests : requestsOf client (labels ++ own) = requestsOf client labels := by
    have hnone := requestsOf_own hown
    rw [requestsOf] at hnone ⊢
    rw [List.filterMap_append, List.filter_append, hnone, List.append_nil]
    rfl
  constructor
  · have hbound := h.length_le hline hsteady (hcareful.right hrun) hown hrest
    omega
  · intro hsettled
    obtain ⟨hsteady', ms', h'⟩ := serves_of_meets hline hcareful hrun'
    have hdrained := h'.drained_of_settled hsteady' hsettled
    have hlength := h'.bodies_length hsteady' hrun' hdrained
    rw [hrequests] at hlength
    refine ⟨hlength, ?_⟩
    intro k task htask
    have htask' : task ∈ s'.worker.accepted.map Entry.task := by
      rw [accepted_of_run hrun']
      rw [← hrequests] at htask
      exact List.mem_of_mem_filter (List.mem_of_getElem? htask)
    obtain ⟨entry, hentry, rfl⟩ := List.mem_map.mp htask'
    obtain ⟨reply, hreply⟩ := hsteady'.executed_of_settled hsettled hentry
    cases reply with
    | exception => exact .inl ⟨entry.promise, hreply⟩
    | value out =>
      have hcodec' := hcodec entry.task (List.mem_of_getElem? htask)
      rw [← hrequests] at htask
      exact .inr (h'.shows hsteady' hrun' hdrained hparse htask ⟨entry.promise, out, hreply⟩ hcodec')

def twoClientsRest : List (Label Bool) := [.notify, .notify, .check]

theorem every_request_answered_twoClients : ∃ s s',
    (system writeSample).run twoClients = some s ∧
      (system writeSample).runFrom s twoClientsRest = some s' ∧
        (bodies (s'.connections false).session.sent).length = 1 ∧
          ∀ (k : ℕ) task, (requestsOf false twoClients)[k]? = some task → s'.Threw task ∨
            ∃ body, (bodies (s'.connections false).session.sent)[k]? = some body ∧
              Shows readSample body task.generation := by
  have hrun : ((system writeSample).run (twoClients ++ twoClientsRest)).isSome = true := by
    decide +kernel
  have hcareful : (system writeSample).Meets (Careful false) start (twoClients ++ twoClientsRest) := by
    decide +kernel
  have hnone : ∀ s' ∈ (system writeSample).run (twoClients ++ twoClientsRest),
      s'.callback = .outside ∧ (s'.run false).isNone ∧
        (s'.connections false).session.writes = [] ∧ s'.worker.notify.isNone ∧
          s'.worker.check.isNone ∧ s'.act.isNone ∧ (s'.call writeSample).isNone ∧
            s'.post.isNone ∧ s'.throw.isNone ∧ s'.finish.isNone := by
    decide +kernel
  obtain ⟨s', hs'⟩ := Option.isSome_iff_exists.mp hrun
  simp only [Option.isNone_iff_eq_none] at hnone
  obtain ⟨houtside, hstrand, hwrites, hnotify, hcheck, hact, hcall, hpost, hthrow, hfinish⟩ :=
    hnone s' hs'
  have hsettled : (system writeSample).Settled (Label.IsOwn false) s' := by
    intro label hown
    cases label with
    | run c =>
      obtain rfl : c = false := hown
      exact hstrand
    | complete c =>
      obtain rfl : c = false := hown
      change ((s'.connections false).complete).map _ = none
      rw [Connection.complete, Session.complete, hwrites, Option.map_none, ite_self, Option.map_none]
    | completeLate c bytes =>
      obtain rfl : c = false := hown
      change ((s'.connections false).completeLate bytes).map _ = none
      rw [Connection.completeLate, Session.completeLate, hwrites, Option.map_none, ite_self,
        Option.map_none]
    | notify => exact Option.map_eq_none_iff.mpr hnotify
    | check => exact Option.map_eq_none_iff.mpr hcheck
    | act => exact hact
    | call => exact hcall
    | post => exact hpost
    | unlisten groupId =>
      change s'.unlisten groupId = none
      rw [unlisten, houtside]
    | throw => exact hthrow
    | finish => exact hfinish
    | receive c keepAlive => cases hown
    | readFails c endOfStream => cases hown
    | writeFails c bytes => cases hown
    | request c chatId generation => cases hown
    | stop => cases hown
    | wake => cases hown
  have hboth := hs'
  rw [Transitions.run, Transitions.runFrom_append, Option.bind_eq_some_iff] at hboth
  obtain ⟨s, hs, hrest⟩ := hboth
  have hown : ∀ label ∈ twoClientsRest, label.IsOwn false := by
    intro label hlabel
    simp only [twoClientsRest, List.mem_cons, List.not_mem_nil, or_false] at hlabel
    rcases hlabel with rfl | rfl | rfl <;> exact trivial
  have hanswered := every_request_answered writeSample_line readSample_reads hs hown hrest hcareful
    twoClients_faithful
  exact ⟨s, s', hs, hrest, hanswered.2 hsettled⟩

end ChatServer

end ZInferLM.Serve
