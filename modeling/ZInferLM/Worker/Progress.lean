import ZInferLM.Library.Settling
import ZInferLM.Worker.Completion

/-! # Every task is answered

The loop, its executions and the notifications on their way make a number smaller with every step.
When they can do no more, every accepted task has its promise fulfilled, with its own text unless
an exception was thrown or the worker was stopped, and the loop sleeps or has been left. -/

namespace ZInferLM
open Library Library.Utf8 Inference Worker

namespace InferenceWorker

/-- The steps that no caller has to take. A loop that wakes up without a notification gets no
further by it. -/
def Label.IsOwn : Label → Prop
  | .notify | .check | .act | .throw | .finish => True
  | .addTask _ | .stop | .wake => False

/-- How far the loop is from sleeping. -/
def weight : Phase InferenceTask → ℕ
  | .asleep | .exited => 0
  | .checking => 1
  | .executing _ => 2

/-- What there is to do at most, until all is settled. -/
def work (s : InferenceWorker) : ℕ :=
  (s.worker.tasks.map fun entry => entry.task.generation.trace.length + 2).sum + s.todo.length +
    2 * s.worker.notifications + weight s.worker.phase

theorem weight_awake (phase : Phase InferenceTask) : weight phase.awake ≤ weight phase + 1 := by
  cases phase <;> simp [Phase.awake, weight]

variable {s s' : InferenceWorker}

theorem notify_work (h : s.worker.notify.map (fun w => s.advance w s.todo) = some s') :
    s'.work < s.work := by
  obtain ⟨w, hw, rfl⟩ := Option.map_eq_some_iff.mp h
  have hpositive : s.worker.notifications ≠ 0 := by
    intro hzero
    rw [notify, if_pos hzero] at hw
    cases hw
  rw [notify_cases hw]
  have hweight := weight_awake s.worker.phase
  simp only [work, advance]
  omega

theorem check_work (h : s.check = some s') : s'.work < s.work := by
  obtain ⟨w, hw, rfl⟩ := Option.map_eq_some_iff.mp h
  rcases check_cases hw with ⟨hphase, ⟨_, htasks, rfl⟩ | ⟨entry, tasks, _, htasks, rfl⟩ | ⟨_, rfl⟩⟩
  · simp [work, advance, weight, hphase, htasks, Phase.current]
  · simp [work, advance, weight, hphase, htasks, Phase.current]
    omega
  · simp [work, advance, weight, hphase, drain, Phase.current]

theorem act_work (h : s.act = some s') : s'.work < s.work := by
  obtain ⟨entry, a, todo, _, htodo, ⟨e, _, rfl⟩ | ⟨_, rfl⟩⟩ := act_cases h
  · simp [work, htodo]
  · simp [work, htodo]

theorem executed_work {reply : Reply} {w : Worker InferenceTask Reply}
    (h : s.worker.executed reply = some w) : (s.advance w []).work < s.work := by
  obtain ⟨entry, hphase, rfl⟩ := executed_cases h
  simp only [work, advance, weight, hphase, List.length_nil]
  omega

theorem decreasing_work : system.Decreasing Label.IsOwn work := by
  intro s label s' _ hown hstep
  cases label with
  | addTask task => cases hown
  | stop => cases hown
  | wake => cases hown
  | notify => exact notify_work hstep
  | check => exact check_work hstep
  | act => exact act_work hstep
  | throw =>
    obtain ⟨w, hw, rfl⟩ := Option.map_eq_some_iff.mp hstep
    exact executed_work hw
  | finish =>
    obtain ⟨entry, _, _, w, hw, rfl⟩ := finish_cases hstep
    exact executed_work hw

/-- Where no step of its own is possible the loop sleeps, with nothing left, or has been left. -/
theorem idle_of_settled (hreach : system.Reachable s) (h : system.Settled Label.IsOwn s) :
    s.worker.phase.current = [] ∧ s.worker.tasks = [] ∧
      (s.worker.phase = .asleep ∧ s.worker.running = true ∨
        s.worker.phase = .exited ∧ s.worker.running = false) := by
  have hworker := simulation.reachable hreach
  cases hphase : s.worker.phase with
  | checking =>
    have hcheck : (s.worker.check).map _ = none := h .check trivial
    rw [Option.map_eq_none_iff, Worker.check, hphase] at hcheck
    dsimp only at hcheck
    split_ifs at hcheck
    cases htasks : s.worker.tasks <;> rw [htasks] at hcheck <;> cases hcheck
  | asleep =>
    have hnotify : (s.worker.notify).map _ = none := h .notify trivial
    rw [Option.map_eq_none_iff, Worker.notify] at hnotify
    split_ifs at hnotify with hzero
    obtain ⟨htasks, hrun⟩ := notified_of_reachable hworker hphase hzero
    exact ⟨rfl, htasks, .inl ⟨rfl, hrun⟩⟩
  | executing entry =>
    -- an execution goes on until nothing is left of it, and then it ends
    cases htodo : s.todo with
    | nil =>
      have hfinish : s.finish = none := h .finish trivial
      rw [finish, hphase, htodo, Option.map_eq_none_iff, Worker.executed, hphase] at hfinish
      cases hfinish
    | cons a todo =>
      have hact : s.act = none := h .act trivial
      rw [act, hphase, htodo] at hact
      cases a <;> cases hact
  | exited =>
    obtain ⟨done, cancelled, hcons⟩ := consistent_of_reachable hworker
    obtain ⟨htasks, hrun⟩ := hcons.exited hphase
    exact ⟨rfl, htasks, .inr ⟨rfl, hrun⟩⟩

/-- What a promise is fulfilled with: the text of its own task, or why there is none. -/
inductive Explained (labels : List Label) (entry : Entry InferenceTask) : Fulfilment Reply → Prop
  | value : Explained labels entry (.executed (.value entry.task.generation.output))
  | exception : .throw ∈ labels → Explained labels entry (.executed .exception)
  | stopped : .stop ∈ labels → Explained labels entry .workerStopped

/-- The replies so far, and why the worker is stopped if it is. -/
structure Replied (labels : List Label) (s : InferenceWorker) : Prop where
  replies : ∀ f ∈ s.worker.fulfilled, Explained labels f.1 f.2
  stopped : s.worker.running = false → .stop ∈ labels

variable {labels : List Label}

theorem Explained.append {entry : Entry InferenceTask} {f : Fulfilment Reply}
    (h : Explained labels entry f) (label : Label) : Explained (labels ++ [label]) entry f := by
  cases h with
  | value => exact .value
  | exception h => exact .exception (List.mem_append_left _ h)
  | stopped h => exact .stopped (List.mem_append_left _ h)

/-- A step keeps the replies if it explains those it adds. -/
theorem Replied.advance (h : Replied labels s) {label : Label} {w : Worker InferenceTask Reply}
    {fresh : List (Entry InferenceTask × Fulfilment Reply)} (todo : List Action)
    (hfulfilled : w.fulfilled = s.worker.fulfilled ++ fresh)
    (hfresh : ∀ f ∈ fresh, Explained (labels ++ [label]) f.1 f.2)
    (hstopped : w.running = false → .stop ∈ labels ++ [label]) :
    Replied (labels ++ [label]) (s.advance w todo) := by
  refine ⟨?_, hstopped⟩
  change ∀ f ∈ w.fulfilled, _
  rw [hfulfilled, List.forall_mem_append]
  exact ⟨fun f hf => (h.replies f hf).append label, hfresh⟩

theorem Replied.idle (h : Replied labels s) {label : Label} {w : Worker InferenceTask Reply}
    (todo : List Action) (hfulfilled : w.fulfilled = s.worker.fulfilled)
    (hrunning : w.running = s.worker.running) :
    Replied (labels ++ [label]) (s.advance w todo) := by
  apply h.advance todo (hfulfilled.trans (List.append_nil _).symm) (List.forall_mem_nil _)
  intro hstop
  exact List.mem_append_left _ (h.stopped (hrunning.symm.trans hstop))

theorem Replied.check (h : Replied labels s) (hstep : s.check = some s') :
    Replied (labels ++ [.check]) s' := by
  obtain ⟨w, hw, rfl⟩ := Option.map_eq_some_iff.mp hstep
  rcases check_cases hw with ⟨_, ⟨_, _, rfl⟩ | ⟨_, _, _, _, rfl⟩ | ⟨hrun, rfl⟩⟩
  · exact h.idle _ rfl rfl
  · exact h.idle _ rfl rfl
  · have hstop := List.mem_append_left [Label.check] (h.stopped hrun)
    apply h.advance _ rfl
    · rw [List.forall_mem_map]
      exact fun _ _ => .stopped hstop
    · exact fun _ => hstop

theorem Replied.step {label : Label} (h : Replied labels s) (hstep : s.step label = some s') :
    Replied (labels ++ [label]) s' := by
  cases label with
  | addTask task =>
    cases hstep
    rw [Worker.addTask]
    split_ifs <;> exact h.idle _ rfl rfl
  | stop =>
    cases hstep
    rw [Worker.stop]
    split_ifs
    · refine h.advance _ (List.append_nil _).symm (List.forall_mem_nil _) fun _ => ?_
      exact List.mem_append_right _ (List.mem_singleton_self _)
    · exact h.idle _ rfl rfl
  | notify =>
    obtain ⟨w, hw, rfl⟩ := Option.map_eq_some_iff.mp hstep
    rw [notify_cases hw]
    exact h.idle _ rfl rfl
  | wake =>
    cases hstep
    exact h.idle _ rfl rfl
  | check => exact h.check hstep
  | act =>
    obtain ⟨entry, a, todo, _, _, ⟨e, _, rfl⟩ | ⟨_, rfl⟩⟩ := act_cases hstep
    all_goals exact ⟨fun f hf => (h.replies f hf).append _,
      fun hstop => List.mem_append_left _ (h.stopped hstop)⟩
  | throw =>
    obtain ⟨w, hw, rfl⟩ := Option.map_eq_some_iff.mp hstep
    obtain ⟨entry, _, rfl⟩ := executed_cases hw
    apply h.advance _ rfl
    · rw [List.forall_mem_singleton]
      exact .exception (List.mem_append_right _ (List.mem_singleton_self _))
    · exact fun hstop => List.mem_append_left _ (h.stopped hstop)
  | finish =>
    obtain ⟨entry, hphase, _, w, hw, rfl⟩ := finish_cases hstep
    obtain ⟨entry', hphase', rfl⟩ := executed_cases hw
    cases hphase.symm.trans hphase'
    apply h.advance _ rfl
    · rw [List.forall_mem_singleton]
      exact .value
    · exact fun hstop => List.mem_append_left _ (h.stopped hstop)

theorem replied_of_run (h : system.run labels = some s) : Replied labels s := by
  apply Transitions.run_invariant _ _ h
  · exact ⟨List.forall_mem_nil _, fun hrun => nomatch hrun⟩
  · exact fun labels s label s' _ hstep h => h.step hstep

/-- Every accepted task has its reply, in the order of the tasks, and the loop has nothing to do. -/
structure Answered (labels : List Label) (s : InferenceWorker) : Prop where
  promises : s.worker.fulfilled.map Prod.fst = s.worker.accepted
  replies : ∀ f ∈ s.worker.fulfilled, Explained labels f.1 f.2
  idle : s.worker.phase = .asleep ∧ s.worker.running = true ∨
    s.worker.phase = .exited ∧ s.worker.running = false

theorem answered_of_settled (hrun : system.run labels = some s)
    (h : system.Settled Label.IsOwn s) : Answered labels s := by
  have hreach : system.Reachable s := ⟨labels, hrun⟩
  obtain ⟨hcurrent, htasks, hidle⟩ := idle_of_settled hreach h
  obtain ⟨done, cancelled, hcons⟩ := consistent_of_reachable (simulation.reachable hreach)
  have haccepted := hcons.accepted_eq
  change s.worker.accepted =
    s.worker.fulfilled.map Prod.fst ++ (s.worker.phase.current ++ s.worker.tasks) at haccepted
  rw [hcurrent, htasks, List.append_nil, List.append_nil] at haccepted
  exact ⟨haccepted.symm, (replied_of_run hrun).replies, hidle⟩

theorem step_accepted {label : Label} (hown : label.IsOwn) (hstep : s.step label = some s') :
    s'.worker.accepted = s.worker.accepted := by
  cases label with
  | addTask task => cases hown
  | stop => cases hown
  | wake => cases hown
  | notify =>
    obtain ⟨w, hw, rfl⟩ := Option.map_eq_some_iff.mp hstep
    rw [notify_cases hw]
    rfl
  | check =>
    obtain ⟨w, hw, rfl⟩ := Option.map_eq_some_iff.mp hstep
    rcases check_cases hw with ⟨_, ⟨_, _, rfl⟩ | ⟨_, _, _, _, rfl⟩ | ⟨_, rfl⟩⟩ <;> rfl
  | act => obtain ⟨_, _, _, _, _, ⟨_, _, rfl⟩ | ⟨_, rfl⟩⟩ := act_cases hstep <;> rfl
  | throw =>
    obtain ⟨w, hw, rfl⟩ := Option.map_eq_some_iff.mp hstep
    obtain ⟨entry, _, rfl⟩ := executed_cases hw
    rfl
  | finish =>
    obtain ⟨_, _, _, w, hw, rfl⟩ := finish_cases hstep
    obtain ⟨entry, _, rfl⟩ := executed_cases hw
    rfl

theorem runFrom_accepted {own : List Label} (hown : ∀ l ∈ own, l.IsOwn)
    (hrun : system.runFrom s own = some s') : s'.worker.accepted = s.worker.accepted := by
  induction own generalizing s with
  | nil =>
    cases hrun
    rfl
  | cons label own ih =>
    obtain ⟨r, hstep, hrest⟩ := Transitions.runFrom_cons.mp hrun
    rw [List.forall_mem_cons] at hown
    exact (ih hown.2 hrest).trans (step_accepted hown.1 hstep)

/-- No task is forgotten and no notification lost. From every state of every run the worker comes
to rest by at most `work` steps of its own, however these are scheduled, and at rest it has
answered every task it had accepted. -/
theorem answers_everything (hrun : system.run labels = some s) :
    (∀ own s', (∀ l ∈ own, l.IsOwn) → system.runFrom s own = some s' →
      own.length ≤ s.work ∧ s'.worker.accepted = s.worker.accepted ∧
        (system.Settled Label.IsOwn s' → Answered (labels ++ own) s')) ∧
      ∃ own s', (∀ l ∈ own, l.IsOwn) ∧ system.runFrom s own = some s' ∧
        system.Settled Label.IsOwn s' := by
  have hreach : system.Reachable s := ⟨labels, hrun⟩
  refine ⟨?_, decreasing_work.exists_settled hreach⟩
  intro own s' hown hfrom
  have hlength := decreasing_work.length_add_le hreach hown hfrom
  refine ⟨by omega, runFrom_accepted hown hfrom, answered_of_settled ?_⟩
  rw [Transitions.run, Transitions.runFrom_append]
  rw [Transitions.run] at hrun
  rw [hrun]
  exact hfrom

/-- A task is added while the loop sleeps and another one behind it; the worker is stopped. -/
theorem answers_everything_stopped : ∃ s, system.run [.check, .addTask emptyTask, .notify, .check,
      .addTask emptyTask, .stop] = some s ∧
    ∃ own s', (∀ l ∈ own, l.IsOwn) ∧ system.runFrom s own = some s' ∧ own.length ≤ s.work ∧
      s'.worker.fulfilled.map Prod.fst = s.worker.accepted := by
  have hrun : ∃ s, system.run [.check, .addTask emptyTask, .notify, .check, .addTask emptyTask,
      .stop] = some s := ⟨_, rfl⟩
  obtain ⟨s, hs⟩ := hrun
  obtain ⟨hbounded, own, s', hown, hfrom, hsettled⟩ := answers_everything hs
  obtain ⟨hlength, haccepted, hanswered⟩ := hbounded own s' hown hfrom
  exact ⟨s, hs, own, s', hown, hfrom, hlength, (hanswered hsettled).promises.trans haccepted⟩

end InferenceWorker

end ZInferLM
