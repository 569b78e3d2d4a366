import ZInferLM.Inference.Invoke
import ZInferLM.Worker.Queue

/-! # Terminal events and promises

`execute_task_` generates for a task and fulfils its promise with the text, or with the exception
that was thrown. Apart from the promise a task has the events of its `run_id`, and the streaming
server looks only at these. -/

namespace ZInferLM
open Library Library.Utf8 Inference Worker

/-- `inference_task_t`, with what its generation does if nothing throws. -/
structure InferenceTask where
  runId : String
  generation : Generation

/-- What `execute_task_` fulfils a promise with. -/
inductive Reply where
  | value (out : Bytes)
  | exception
  deriving DecidableEq

/-- The worker, what `execute_task_` has left to do, the events dispatched with their `run_id`, and
for every fulfilled promise the number of terminal events its `run_id` had by then. -/
structure InferenceWorker where
  worker : Worker InferenceTask Reply
  todo : List Action
  events : List (String × InferenceEvent)
  terminals : List ℕ

namespace InferenceWorker

def new : InferenceWorker := ⟨.new, [], [], []⟩

/-- The terminal events dispatched for a `run_id`. -/
def completions (s : InferenceWorker) (runId : String) : ℕ :=
  s.events.countP fun e => e.1 == runId && e.2.isTerminal

/-- A step of the worker; the promises it fulfils are looked at. -/
def advance (s : InferenceWorker) (w : Worker InferenceTask Reply) (todo : List Action) :
    InferenceWorker :=
  { s with
    worker := w
    todo
    terminals := s.terminals ++ (w.fulfilled.drop s.worker.fulfilled.length).map fun f =>
      s.completions f.1.task.runId }

/-- The critical section of the loop; a task that is taken is executed from its start. -/
def check (s : InferenceWorker) : Option InferenceWorker :=
  s.worker.check.map fun w =>
    s.advance w (w.phase.current.flatMap fun entry => entry.task.generation.trace)

def act (s : InferenceWorker) : Option InferenceWorker :=
  match s.worker.phase, s.todo with
  | .executing entry, .dispatch e :: todo =>
    some { s with todo, events := s.events ++ [(entry.task.runId, e)] }
  | .executing _, _ :: todo => some { s with todo }
  | _, _ => none

/-- The exception handler of `execute_task_`; an exception can come at any point. -/
def throw (s : InferenceWorker) : Option InferenceWorker :=
  (s.worker.executed .exception).map fun w => s.advance w []

def finish (s : InferenceWorker) : Option InferenceWorker :=
  match s.worker.phase, s.todo with
  | .executing entry, [] =>
    (s.worker.executed (.value entry.task.generation.output)).map fun w => s.advance w []
  | _, _ => none

inductive Label where
  | addTask (task : InferenceTask)
  | stop
  | notify
  | wake
  | check
  | act
  | throw
  | finish

def step (s : InferenceWorker) : Label → Option InferenceWorker
  | .addTask task => some (s.advance (s.worker.addTask task) s.todo)
  | .stop => some (s.advance s.worker.stop s.todo)
  | .notify => s.worker.notify.map fun w => s.advance w s.todo
  | .wake => some (s.advance s.worker.wake s.todo)
  | .check => s.check
  | .act => s.act
  | .throw => s.throw
  | .finish => s.finish

def system : Transitions InferenceWorker Label := ⟨new, step⟩

/-- Every promise that is fulfilled has exactly one terminal event by then. -/
structure ExactlyOne (s : InferenceWorker) : Prop where
  counted : s.terminals.length = s.worker.fulfilled.length
  one : ∀ n ∈ s.terminals, n = 1

/-- A step keeps the two ways of completion together: an accepted task has a `run_id` of its own,
a stopped worker has no task left to cancel, and an exception comes behind the terminal event. -/
def Orderly (s : InferenceWorker) : Label → Prop
  | .addTask task => s.worker.running = true →
      ∀ entry ∈ s.worker.accepted, entry.task.runId ≠ task.runId
  | .check => s.worker.running = true ∨ s.worker.tasks = []
  | .throw => ∀ a ∈ s.todo, a.completes = false
  | _ => True

instance (s : InferenceWorker) : (label : Label) → Decidable (s.Orderly label)
  | .addTask task => inferInstanceAs (Decidable (s.worker.running = true →
      ∀ entry ∈ s.worker.accepted, entry.task.runId ≠ task.runId))
  | .check => inferInstanceAs (Decidable (s.worker.running = true ∨ s.worker.tasks = []))
  | .throw => inferInstanceAs (Decidable (∀ a ∈ s.todo, a.completes = false))
  | .stop => isTrue trivial
  | .notify => isTrue trivial
  | .wake => isTrue trivial
  | .act => isTrue trivial
  | .finish => isTrue trivial

def labels (s : InferenceWorker) : Label → List (Worker.Label InferenceTask Reply)
  | .addTask task => [.addTask task]
  | .stop => [.stop]
  | .notify => [.notify]
  | .wake => [.wake]
  | .check => [.check]
  | .act => []
  | .throw => [.executed .exception]
  | .finish => s.worker.phase.current.map fun entry => .executed (.value entry.task.generation.output)

variable {s s' : InferenceWorker}

theorem act_cases (h : s.act = some s') : ∃ entry a todo, s.worker.phase = .executing entry ∧
    s.todo = a :: todo ∧
    ((∃ e, a = .dispatch e ∧
        s' = { s with todo, events := s.events ++ [(entry.task.runId, e)] }) ∨
      a.completes = false ∧ s' = { s with todo }) := by
  rw [act] at h
  cases hphase : s.worker.phase with
  | executing entry =>
    cases htodo : s.todo with
    | nil =>
      rw [hphase, htodo] at h
      cases h
    | cons a todo =>
      rw [hphase, htodo] at h
      refine ⟨entry, a, todo, rfl, rfl, ?_⟩
      cases a with
      | dispatch e => exact .inl ⟨e, rfl, (Option.some.inj h).symm⟩
      | _ => exact .inr ⟨rfl, (Option.some.inj h).symm⟩
  | _ =>
    rw [hphase] at h
    cases h

theorem finish_cases (h : s.finish = some s') : ∃ entry, s.worker.phase = .executing entry ∧
    s.todo = [] ∧ ∃ w, s.worker.executed (.value entry.task.generation.output) = some w ∧
      s' = s.advance w [] := by
  rw [finish] at h
  cases hphase : s.worker.phase with
  | executing entry =>
    cases htodo : s.todo with
    | nil =>
      rw [hphase, htodo] at h
      obtain ⟨w, hw, rfl⟩ := Option.map_eq_some_iff.mp h
      exact ⟨entry, rfl, rfl, w, hw, rfl⟩
    | cons a todo =>
      rw [hphase, htodo] at h
      cases h
  | _ =>
    rw [hphase] at h
    cases h

/-- The worker with its executions spelled out is a worker. -/
def simulation : Transitions.Simulation system (Worker.system InferenceTask Reply) where
  abs := InferenceWorker.worker
  labels := labels
  start := rfl
  step s label s' hstep := by
    cases label with
    | addTask task => cases hstep; rfl
    | stop => cases hstep; rfl
    | notify =>
      obtain ⟨w, hw, rfl⟩ := Option.map_eq_some_iff.mp hstep
      exact (Transitions.runFrom_singleton _ _ _).trans hw
    | wake => cases hstep; rfl
    | check =>
      obtain ⟨w, hw, rfl⟩ := Option.map_eq_some_iff.mp hstep
      exact (Transitions.runFrom_singleton _ _ _).trans hw
    | act =>
      obtain ⟨entry, a, todo, _, _, ⟨e, _, rfl⟩ | ⟨_, rfl⟩⟩ := act_cases hstep
      all_goals rfl
    | throw =>
      obtain ⟨w, hw, rfl⟩ := Option.map_eq_some_iff.mp hstep
      exact (Transitions.runFrom_singleton _ _ _).trans hw
    | finish =>
      obtain ⟨entry, hphase, _, w, hw, rfl⟩ := finish_cases hstep
      rw [labels, hphase]
      exact (Transitions.runFrom_singleton _ _ _).trans hw

/-- The accepted tasks have different `run_id`s, events belong to tasks that were started, and the
terminal event of the task that is executed is either dispatched or still to come. -/
structure Accounted (s : InferenceWorker) : Prop where
  distinct : (s.worker.accepted.map fun entry => entry.task.runId).Nodup
  origin : ∀ e ∈ s.events, ∃ entry ∈ s.worker.started, entry.task.runId = e.1
  current : ∀ entry ∈ s.worker.phase.current,
    s.completions entry.task.runId + s.todo.countP Action.completes = 1
  exactlyOne : ExactlyOne s

theorem accounted_new : Accounted new :=
  ⟨List.nodup_nil, nofun, nofun, rfl, nofun⟩

/-- A step of the worker keeps the account if what it accepts, executes and fulfils is in order. -/
theorem Accounted.advance (h : Accounted s) {w : Worker InferenceTask Reply} {todo : List Action}
    {fresh : List (Entry InferenceTask × Fulfilment Reply)}
    (hdistinct : (w.accepted.map fun entry => entry.task.runId).Nodup)
    (hstarted : s.worker.started ⊆ w.started)
    (hcurrent : ∀ entry ∈ w.phase.current,
      s.completions entry.task.runId + todo.countP Action.completes = 1)
    (hfulfilled : w.fulfilled = s.worker.fulfilled ++ fresh)
    (hfresh : ∀ f ∈ fresh, s.completions f.1.task.runId = 1) : Accounted (s.advance w todo) := by
  have hterminals : (s.advance w todo).terminals =
      s.terminals ++ fresh.map fun f => s.completions f.1.task.runId := by
    rw [InferenceWorker.advance, hfulfilled, List.drop_left]
  refine ⟨hdistinct, ?_, hcurrent, ?_, ?_⟩
  · intro e he
    obtain ⟨entry, hentry, heq⟩ := h.origin e he
    exact ⟨entry, hstarted hentry, heq⟩
  · change _ = w.fulfilled.length
    rw [hterminals, hfulfilled, List.length_append, List.length_append, List.length_map,
      h.exactlyOne.counted]
  · intro n hn
    rw [hterminals] at hn
    rcases List.mem_append.mp hn with hn | hn
    · exact h.exactlyOne.one n hn
    · obtain ⟨f, hf, rfl⟩ := List.mem_map.mp hn
      exact hfresh f hf

theorem Accounted.completions_eq_zero (h : Accounted s) {entry : Entry InferenceTask}
    (hentry : ∀ entry' ∈ s.worker.started, entry'.task.runId ≠ entry.task.runId) :
    s.completions entry.task.runId = 0 := by
  rw [completions, List.countP_eq_zero]
  intro e he hcount
  obtain ⟨entry', hstarted, heq⟩ := h.origin e he
  rw [Bool.and_eq_true, beq_iff_eq] at hcount
  exact hentry entry' hstarted (heq.trans hcount.1)

theorem Accounted.idle (h : Accounted s) {w : Worker InferenceTask Reply}
    (hdistinct : (w.accepted.map fun entry => entry.task.runId).Nodup)
    (hstarted : w.started = s.worker.started)
    (hphase : w.phase.current = s.worker.phase.current)
    (hfulfilled : w.fulfilled = s.worker.fulfilled) : Accounted (s.advance w s.todo) := by
  apply h.advance hdistinct
  · rw [hstarted]
    exact List.Subset.refl _
  · rw [hphase]
    exact h.current
  · rw [hfulfilled]
    exact (List.append_nil _).symm
  · nofun

theorem Accounted.addTask (h : Accounted s) {task : InferenceTask}
    (hfresh : s.worker.running = true →
      ∀ entry ∈ s.worker.accepted, entry.task.runId ≠ task.runId) :
    Accounted (s.advance (s.worker.addTask task) s.todo) := by
  rw [Worker.addTask]
  split_ifs with hrun
  · refine h.idle ?_ rfl rfl rfl
    rw [List.map_append, List.nodup_append]
    refine ⟨h.distinct, List.nodup_singleton _, ?_⟩
    intro r hr r' hr'
    obtain ⟨entry, hentry, rfl⟩ := List.mem_map.mp hr
    rw [List.mem_singleton.mp hr']
    exact hfresh hrun entry hentry
  · exact h.idle h.distinct rfl rfl rfl

theorem Accounted.check (h : Accounted s) (hreach : (Worker.system _ _).Reachable s.worker)
    (hidle : s.worker.running = true ∨ s.worker.tasks = []) (hstep : s.check = some s') :
    Accounted s' := by
  obtain ⟨w, hw, rfl⟩ := Option.map_eq_some_iff.mp hstep
  rcases check_cases hw with
    ⟨hphase, ⟨_, _, rfl⟩ | ⟨entry, tasks, _, htasks, rfl⟩ | ⟨hrun, rfl⟩⟩
  · exact h.advance h.distinct (List.Subset.refl _) nofun (List.append_nil _).symm nofun
  · refine h.advance h.distinct (List.subset_append_left _ _) ?_ (List.append_nil _).symm nofun
    intro entry' hentry'
    obtain rfl := List.mem_singleton.mp hentry'
    have hzero : s.completions entry'.task.runId = 0 := by
      apply h.completions_eq_zero
      intro started hstarted
      obtain ⟨done, cancelled, hcons⟩ := consistent_of_reachable hreach
      have hdistinct := h.distinct
      rw [hcons.accepted, htasks, List.map_append, List.nodup_append] at hdistinct
      exact hdistinct.2.2 _ (List.mem_map_of_mem hstarted) _
        (List.mem_map_of_mem (List.mem_append_right _ (List.mem_cons_self ..)))
    have htodo : (Phase.executing entry').current.flatMap
        (fun entry => entry.task.generation.trace) = entry'.task.generation.trace :=
      List.append_nil _
    rw [hzero, htodo, Generation.countP_trace]
  · refine h.advance h.distinct (List.Subset.refl _) nofun rfl ?_
    rcases hidle with hidle | hidle
    · rw [hrun] at hidle
      cases hidle
    · rw [hidle]
      nofun

theorem completions_dispatch (entry : Entry InferenceTask) (e : InferenceEvent)
    (todo : List Action) :
    ({ s with todo, events := s.events ++ [(entry.task.runId, e)] }).completions entry.task.runId +
        todo.countP Action.completes =
      s.completions entry.task.runId + (Action.dispatch e :: todo).countP Action.completes := by
  rw [completions, completions, List.countP_append, List.countP_singleton, List.countP_cons,
    beq_self_eq_true, Bool.true_and, Action.completes]
  dsimp only
  omega

theorem Accounted.act (h : Accounted s) (hreach : (Worker.system _ _).Reachable s.worker)
    (hstep : s.act = some s') : Accounted s' := by
  obtain ⟨entry, a, todo, hphase, htodo, hcases⟩ := act_cases hstep
  have hcurrent := h.current entry (by rw [hphase]; exact List.mem_singleton_self _)
  have honly : ∀ entry' ∈ s.worker.phase.current, entry' = entry := by
    rw [hphase]
    exact fun _ => List.mem_singleton.mp
  rw [htodo] at hcurrent
  rcases hcases with ⟨e, rfl, rfl⟩ | ⟨ha, rfl⟩
  · refine ⟨h.distinct, ?_, ?_, h.exactlyOne.counted, h.exactlyOne.one⟩
    · intro e' he'
      rcases List.mem_append.mp he' with he' | he'
      · exact h.origin e' he'
      · obtain rfl := List.mem_singleton.mp he'
        obtain ⟨done, cancelled, hcons⟩ := consistent_of_reachable hreach
        refine ⟨entry, ?_, rfl⟩
        change entry ∈ s.worker.started
        rw [hcons.started, hphase]
        exact List.mem_append_right _ (List.mem_singleton_self _)
    · intro entry' hentry'
      rw [honly entry' hentry', completions_dispatch]
      exact hcurrent
  · refine ⟨h.distinct, h.origin, ?_, h.exactlyOne.counted, h.exactlyOne.one⟩
    intro entry' hentry'
    rw [honly entry' hentry']
    rw [List.countP_cons_of_neg (by rw [ha]; exact Bool.false_ne_true)] at hcurrent
    exact hcurrent

/-- An execution ends in order when its terminal event is not still to come. -/
theorem Accounted.executed (h : Accounted s) {w : Worker InferenceTask Reply} {reply : Reply}
    (hw : s.worker.executed reply = some w) (htodo : ∀ a ∈ s.todo, a.completes = false) :
    Accounted (s.advance w []) := by
  obtain ⟨entry, hphase, rfl⟩ := executed_cases hw
  refine h.advance h.distinct (List.Subset.refl _) nofun rfl ?_
  intro f hf
  rw [List.mem_singleton.mp hf]
  have hcurrent := h.current entry (by rw [hphase]; exact List.mem_singleton_self _)
  rwa [Generation.countP_completes htodo] at hcurrent

theorem Accounted.step {label : Label} (h : Accounted s) (hreach : system.Reachable s)
    (hmeets : Orderly s label) (hstep : s.step label = some s') : Accounted s' := by
  have hworker := simulation.reachable hreach
  cases label with
  | addTask task =>
    cases hstep
    exact h.addTask hmeets
  | stop =>
    cases hstep
    rw [Worker.stop]
    split_ifs <;> exact h.idle h.distinct rfl rfl rfl
  | notify =>
    obtain ⟨w, hw, rfl⟩ := Option.map_eq_some_iff.mp hstep
    rw [notify_cases hw]
    exact h.idle h.distinct rfl (Phase.awake_current _) rfl
  | wake =>
    cases hstep
    exact h.idle h.distinct rfl (Phase.awake_current _) rfl
  | check => exact h.check hworker hmeets hstep
  | act => exact h.act hworker hstep
  | throw =>
    obtain ⟨w, hw, rfl⟩ := Option.map_eq_some_iff.mp hstep
    exact h.executed hw hmeets
  | finish =>
    obtain ⟨entry, _, htodo, w, hw, rfl⟩ := finish_cases hstep
    apply h.executed hw
    rw [htodo]
    exact fun a ha => absurd ha List.not_mem_nil

variable {run : List Label}

/-- In a run whose steps are all orderly exactly one terminal event has been dispatched for every
promise that is fulfilled. -/
theorem exactlyOne_of_orderly (hmeets : system.Meets Orderly new run)
    (hrun : system.run run = some s) : ExactlyOne s := by
  have h : Accounted s := by
    apply Transitions.invariant_of_meets _ system.reachable_start accounted_new hmeets hrun
    intro s label s' hreach hmeets hstep h
    exact h.step hreach hmeets hstep
  exact h.exactlyOne

def emptyTask : InferenceTask := ⟨"chatcmpl-1", ⟨0, [], 0, fun _ => 0, fun _ => [], fun _ => false⟩⟩

/-- An exception, or `stop` with a task in the queue, fulfils a promise without any event. -/
theorem exactlyOne_not_kept :
    (∃ s, system.run [.addTask emptyTask, .check, .act, .throw] = some s ∧ ¬ ExactlyOne s) ∧
      ∃ s, system.run [.addTask emptyTask, .stop, .check] = some s ∧ ¬ ExactlyOne s := by
  constructor
  · refine ⟨_, rfl, ?_⟩
    intro h
    cases h.one 0 (List.mem_singleton_self _)
  · refine ⟨_, rfl, ?_⟩
    intro h
    cases h.one 0 (List.mem_singleton_self _)

end InferenceWorker

end ZInferLM
