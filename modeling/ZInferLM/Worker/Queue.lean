import Mathlib.Data.List.TakeWhile
import ZInferLM.Library.Transitions

/-! # The worker and its queue

Callers add tasks and stop the worker while its loop runs on a thread of its own. What is done
under `task_lock_` is one step. A task is executed outside the lock; the step that ends it fulfils
its promise. The number of a call of `add_task` names its promise. -/

namespace ZInferLM
open Library

universe u v
variable {T : Type u} {R : Type v}

namespace Worker

structure Entry (T : Type u) where
  task : T
  promise : ℕ
  deriving DecidableEq

/-- How a promise is fulfilled: by `execute_task_`, or with `worker_stopped`. -/
inductive Fulfilment (R : Type v) where
  | executed (result : R)
  | workerStopped
  deriving DecidableEq

/-- Where the loop of `run` is: about to test the condition, waiting for a notification, in
`execute_task_`, or behind `break`. -/
inductive Phase (T : Type u) where
  | checking
  | asleep
  | executing (entry : Entry T)
  | exited
  deriving DecidableEq

def Phase.current : Phase T → List (Entry T)
  | .executing entry => [entry]
  | _ => []

/-- A loop that waits tests the condition again. -/
def Phase.awake : Phase T → Phase T
  | .asleep => .checking
  | phase => phase

theorem Phase.awake_ne_asleep (phase : Phase T) : phase.awake ≠ .asleep := by
  cases phase <;> nofun

@[simp] theorem Phase.awake_current (phase : Phase T) : phase.awake.current = phase.current := by
  cases phase <;> rfl

@[simp] theorem Phase.awake_eq_exited {phase : Phase T} :
    phase.awake = .exited ↔ phase = .exited := by
  cases phase <;> simp [awake]

end Worker

open Worker

/-- The worker, the notifications its callers still have to send, and what happened so far. -/
structure Worker (T : Type u) (R : Type v) where
  tasks : List (Entry T)
  running : Bool
  phase : Phase T
  notifications : ℕ
  calls : ℕ
  accepted : List (Entry T)
  rejected : List (Entry T)
  started : List (Entry T)
  fulfilled : List (Entry T × Fulfilment R)
  deriving DecidableEq

namespace Worker

def new : Worker T R := ⟨[], true, .checking, 0, 0, [], [], [], []⟩

/-- `add_task` throws when the worker is stopped; the notification follows outside the lock. -/
def addTask (w : Worker T R) (task : T) : Worker T R :=
  if w.running then
    { w with
      tasks := w.tasks ++ [⟨task, w.calls⟩]
      notifications := w.notifications + 1
      calls := w.calls + 1
      accepted := w.accepted ++ [⟨task, w.calls⟩] }
  else { w with calls := w.calls + 1, rejected := w.rejected ++ [⟨task, w.calls⟩] }

/-- `stop`, up to joining the thread; only the first call has an effect. -/
def stop (w : Worker T R) : Worker T R :=
  if w.running then { w with running := false, notifications := w.notifications + 1 } else w

/-- The loop wakes up, notified or not. -/
def wake (w : Worker T R) : Worker T R := { w with phase := w.phase.awake }

def notify (w : Worker T R) : Option (Worker T R) :=
  if w.notifications = 0 then none
  else some { w with phase := w.phase.awake, notifications := w.notifications - 1 }

/-- Cancel every queued task and leave the loop. -/
def drain (w : Worker T R) : Worker T R :=
  { w with
    tasks := []
    phase := .exited
    fulfilled := w.fulfilled ++ w.tasks.map fun entry => (entry, .workerStopped) }

def check (w : Worker T R) : Option (Worker T R) :=
  match w.phase with
  | .checking =>
    if w.running then
      match w.tasks with
      | [] => some { w with phase := .asleep }
      | entry :: tasks =>
        some { w with tasks, phase := .executing entry, started := w.started ++ [entry] }
    else some w.drain
  | _ => none

def executed (w : Worker T R) (result : R) : Option (Worker T R) :=
  match w.phase with
  | .executing entry =>
    some { w with phase := .checking, fulfilled := w.fulfilled ++ [(entry, .executed result)] }
  | _ => none

inductive Label (T : Type u) (R : Type v) where
  | addTask (task : T)
  | stop
  | notify
  | wake
  | check
  | executed (result : R)
  deriving DecidableEq

def step (w : Worker T R) : Label T R → Option (Worker T R)
  | .addTask task => some (w.addTask task)
  | .stop => some w.stop
  | .notify => w.notify
  | .wake => some w.wake
  | .check => w.check
  | .executed result => w.executed result

/-- Any schedule of the callers and the loop. -/
def system (T : Type u) (R : Type v) : Transitions (Worker T R) (Label T R) := ⟨new, step⟩

variable {w w' : Worker T R}

theorem notify_cases (h : w.notify = some w') :
    w' = { w with phase := w.phase.awake, notifications := w.notifications - 1 } := by
  rw [notify] at h
  split_ifs at h
  exact (Option.some.inj h).symm

theorem check_cases (h : w.check = some w') : w.phase = .checking ∧
    (w.running = true ∧ w.tasks = [] ∧ w' = { w with phase := .asleep } ∨
      (∃ entry tasks, w.running = true ∧ w.tasks = entry :: tasks ∧
        w' = { w with tasks, phase := .executing entry, started := w.started ++ [entry] }) ∨
      w.running = false ∧ w' = w.drain) := by
  rw [check] at h
  cases hphase : w.phase with
  | checking =>
    rw [hphase] at h
    dsimp only at h
    split_ifs at h with hrun
    · cases htasks : w.tasks with
      | nil =>
        rw [htasks] at h
        cases h
        exact ⟨rfl, .inl ⟨hrun, rfl, by rw [← htasks]⟩⟩
      | cons entry tasks =>
        rw [htasks] at h
        cases h
        exact ⟨rfl, .inr (.inl ⟨entry, tasks, hrun, rfl, rfl⟩)⟩
    · cases h
      exact ⟨rfl, .inr (.inr ⟨Bool.eq_false_iff.mpr hrun, rfl⟩)⟩
  | _ => rw [hphase] at h; cases h

theorem executed_cases {result : R} (h : w.executed result = some w') :
    ∃ entry, w.phase = .executing entry ∧ w' = { w with
      phase := .checking, fulfilled := w.fulfilled ++ [(entry, .executed result)] } := by
  rw [executed] at h
  cases hphase : w.phase with
  | executing entry =>
    rw [hphase] at h
    cases h
    exact ⟨entry, rfl, rfl⟩
  | _ => rw [hphase] at h; cases h

/-- The accepted tasks are, in order, those executed and done, the one executed, those cancelled
and those in the queue. -/
structure Consistent (w : Worker T R) (done : List (Entry T × R)) (cancelled : List (Entry T)) :
    Prop where
  fulfilled : w.fulfilled = done.map (fun d => (d.1, .executed d.2)) ++
    cancelled.map fun entry => (entry, .workerStopped)
  started : w.started = done.map Prod.fst ++ w.phase.current
  accepted : w.accepted = w.started ++ (cancelled ++ w.tasks)
  cancelled : w.phase ≠ .exited → cancelled = []
  exited : w.phase = .exited → w.tasks = [] ∧ w.running = false

variable {done : List (Entry T × R)} {cancelled : List (Entry T)}

theorem consistent_new : Consistent (new : Worker T R) [] [] :=
  ⟨rfl, rfl, rfl, fun _ => rfl, fun h => nomatch h⟩

theorem Consistent.addTask (h : Consistent w done cancelled) (task : T) :
    Consistent (w.addTask task) done cancelled := by
  rw [Worker.addTask]
  split_ifs with hrun
  · have hne : w.phase ≠ .exited := by
      intro he
      rw [(h.exited he).2] at hrun
      cases hrun
    constructor
    · exact h.fulfilled
    · exact h.started
    · change w.accepted ++ _ = w.started ++ (cancelled ++ (w.tasks ++ _))
      rw [h.accepted, List.append_assoc, List.append_assoc]
    · exact h.cancelled
    · exact fun he => absurd he hne
  · exact ⟨h.fulfilled, h.started, h.accepted, h.cancelled, h.exited⟩

theorem Consistent.stop (h : Consistent w done cancelled) : Consistent w.stop done cancelled := by
  rw [Worker.stop]
  split_ifs
  · exact ⟨h.fulfilled, h.started, h.accepted, h.cancelled, fun he => ⟨(h.exited he).1, rfl⟩⟩
  · exact h

theorem Consistent.rephase (h : Consistent w done cancelled) {phase : Phase T}
    (hcurrent : phase.current = w.phase.current) (hexited : phase = .exited ↔ w.phase = .exited)
    (notifications : ℕ) : Consistent { w with phase, notifications } done cancelled := by
  constructor
  · exact h.fulfilled
  · change w.started = _ ++ phase.current
    rw [hcurrent]
    exact h.started
  · exact h.accepted
  · exact fun hne => h.cancelled fun he => hne (hexited.mpr he)
  · exact fun he => h.exited (hexited.mp he)

theorem Consistent.awake (h : Consistent w done cancelled) (notifications : ℕ) :
    Consistent { w with phase := w.phase.awake, notifications } done cancelled :=
  h.rephase (Phase.awake_current _) Phase.awake_eq_exited notifications

theorem Consistent.drain (h : Consistent w done cancelled) (hphase : w.phase = .checking)
    (hrun : w.running = false) : Consistent w.drain done w.tasks := by
  obtain rfl := h.cancelled (by rw [hphase]; nofun)
  have hstarted := h.started
  rw [hphase] at hstarted
  constructor
  · change w.fulfilled ++ _ = _
    rw [h.fulfilled, List.map_nil, List.append_nil]
  · exact hstarted
  · change w.accepted = w.started ++ (w.tasks ++ [])
    rw [h.accepted, List.nil_append, List.append_nil]
  · exact fun hne => absurd rfl hne
  · exact fun _ => ⟨rfl, hrun⟩

theorem Consistent.started_eq (h : Consistent w done cancelled) (hphase : w.phase.current = []) :
    w.started = done.map Prod.fst := by
  rw [h.started, hphase, List.append_nil]

theorem Consistent.check (h : Consistent w done cancelled) (hstep : w.check = some w') :
    ∃ cancelled', Consistent w' done cancelled' := by
  rcases check_cases hstep with
    ⟨hphase, ⟨_, _, rfl⟩ | ⟨entry, tasks, hrun, htasks, rfl⟩ | ⟨hrun, rfl⟩⟩
  · exact ⟨cancelled, h.rephase (by rw [hphase]; rfl) (by simp [hphase]) w.notifications⟩
  · obtain rfl := h.cancelled (by rw [hphase]; nofun)
    refine ⟨[], h.fulfilled, ?_, ?_, fun _ => rfl, nofun⟩
    · change w.started ++ [entry] = _
      rw [h.started_eq (by rw [hphase]; rfl)]
      rfl
    · change w.accepted = w.started ++ [entry] ++ ([] ++ tasks)
      rw [h.accepted, htasks, List.append_assoc]
      rfl
  · exact ⟨w.tasks, h.drain hphase hrun⟩

theorem Consistent.executed (h : Consistent w done cancelled) {result : R}
    (hstep : w.executed result = some w') : ∃ done', Consistent w' done' cancelled := by
  obtain ⟨entry, hphase, rfl⟩ := executed_cases hstep
  obtain rfl := h.cancelled (by rw [hphase]; nofun)
  have hstarted := h.started
  rw [hphase] at hstarted
  refine ⟨done ++ [(entry, result)], ?_, ?_, h.accepted, fun _ => rfl, nofun⟩
  · change w.fulfilled ++ _ = _
    rw [h.fulfilled, List.map_append, List.map_nil, List.append_nil, List.append_nil]
    rfl
  · change w.started = _
    rw [hstarted, List.map_append]
    exact (List.append_nil _).symm

theorem Consistent.step {label : Label T R} (h : Consistent w done cancelled)
    (hstep : w.step label = some w') : ∃ done' cancelled', Consistent w' done' cancelled' := by
  cases label with
  | addTask task =>
    cases hstep
    exact ⟨_, _, h.addTask task⟩
  | stop =>
    cases hstep
    exact ⟨_, _, h.stop⟩
  | notify =>
    rw [notify_cases hstep]
    exact ⟨_, _, h.awake _⟩
  | wake =>
    cases hstep
    exact ⟨_, _, h.awake _⟩
  | check => exact ⟨_, h.check hstep⟩
  | executed result =>
    obtain ⟨done', h'⟩ := h.executed hstep
    exact ⟨_, _, h'⟩

theorem consistent_of_reachable (h : (system T R).Reachable w) :
    ∃ done cancelled, Consistent w done cancelled := by
  apply h.invariant ⟨[], [], consistent_new⟩
  rintro _ label _ hstep ⟨done, cancelled, h⟩
  exact h.step hstep

/-- Every call of `add_task` has a promise of its own. -/
structure Numbered (w : Worker T R) : Prop where
  below : ∀ entry ∈ w.accepted ++ w.rejected, entry.promise < w.calls
  nodup : ((w.accepted ++ w.rejected).map Entry.promise).Nodup

theorem Numbered.insert (h : Numbered w) {task : T} {entries : List (Entry T)}
    (hperm : entries.Perm (⟨task, w.calls⟩ :: (w.accepted ++ w.rejected))) :
    (∀ entry ∈ entries, entry.promise < w.calls + 1) ∧ (entries.map Entry.promise).Nodup := by
  constructor
  · intro entry hmem
    rcases List.mem_cons.mp (hperm.mem_iff.mp hmem) with rfl | hmem
    · exact Nat.lt_add_one _
    · exact Nat.lt_succ_of_lt (h.below entry hmem)
  · rw [(hperm.map Entry.promise).nodup_iff, List.map_cons, List.nodup_cons]
    refine ⟨?_, h.nodup⟩
    intro hmem
    obtain ⟨entry, hentry, heq⟩ := List.mem_map.mp hmem
    exact absurd heq (Nat.ne_of_lt (h.below entry hentry))

theorem Numbered.addTask (h : Numbered w) (task : T) : Numbered (w.addTask task) := by
  rw [Worker.addTask]
  split_ifs
  · have hperm : (w.accepted ++ [Entry.mk task w.calls] ++ w.rejected).Perm
        (⟨task, w.calls⟩ :: (w.accepted ++ w.rejected)) := by
      rw [List.append_assoc]
      exact List.perm_middle
    exact ⟨(h.insert hperm).1, (h.insert hperm).2⟩
  · have hperm : (w.accepted ++ (w.rejected ++ [Entry.mk task w.calls])).Perm
        (⟨task, w.calls⟩ :: (w.accepted ++ w.rejected)) := by
      rw [← List.append_assoc]
      exact List.perm_append_singleton _ _
    exact ⟨(h.insert hperm).1, (h.insert hperm).2⟩

theorem step_calls {label : Label T R} (h : w.step label = some w') :
    (∃ task, w' = w.addTask task) ∨
      w'.accepted = w.accepted ∧ w'.rejected = w.rejected ∧ w'.calls = w.calls := by
  cases label with
  | addTask task =>
    cases h
    exact .inl ⟨task, rfl⟩
  | stop =>
    cases h
    rw [stop]
    split_ifs <;> exact .inr ⟨rfl, rfl, rfl⟩
  | notify =>
    rw [notify_cases h]
    exact .inr ⟨rfl, rfl, rfl⟩
  | wake =>
    cases h
    exact .inr ⟨rfl, rfl, rfl⟩
  | check =>
    rcases check_cases h with ⟨_, ⟨_, _, rfl⟩ | ⟨_, _, _, _, rfl⟩ | ⟨_, rfl⟩⟩
    all_goals exact .inr ⟨rfl, rfl, rfl⟩
  | executed result =>
    obtain ⟨entry, _, rfl⟩ := executed_cases h
    exact .inr ⟨rfl, rfl, rfl⟩

theorem numbered_of_reachable (h : (system T R).Reachable w) : Numbered w := by
  apply h.invariant ⟨nofun, List.nodup_nil⟩
  intro w label w' hstep h
  rcases step_calls hstep with ⟨task, rfl⟩ | ⟨haccepted, hrejected, hcalls⟩
  · exact h.addTask task
  · constructor
    · rw [haccepted, hrejected, hcalls]
      exact h.below
    · rw [haccepted, hrejected]
      exact h.nodup

/-- The loop does not sleep through a task or a stop: a notification is on its way. -/
def Notified (w : Worker T R) : Prop :=
  w.phase = .asleep → w.notifications = 0 → w.tasks = [] ∧ w.running = true

theorem notified_of_reachable (h : (system T R).Reachable w) : Notified w := by
  apply h.invariant
  · nofun
  · intro w label w' hstep h
    cases label with
    | addTask task =>
      cases hstep
      rw [addTask]
      split_ifs
      · intro _ h0
        exact absurd h0 (Nat.succ_ne_zero _)
      · exact h
    | stop =>
      cases hstep
      rw [stop]
      split_ifs
      · intro _ h0
        exact absurd h0 (Nat.succ_ne_zero _)
      · exact h
    | notify =>
      rw [notify_cases hstep]
      exact fun hphase => absurd hphase (Phase.awake_ne_asleep _)
    | wake =>
      cases hstep
      exact fun hphase => absurd hphase (Phase.awake_ne_asleep _)
    | check =>
      rcases check_cases hstep with ⟨_, ⟨hrun, htasks, rfl⟩ | ⟨_, _, _, _, rfl⟩ | ⟨_, rfl⟩⟩
      · exact fun _ _ => ⟨htasks, hrun⟩
      · nofun
      · nofun
    | executed result =>
      obtain ⟨entry, _, rfl⟩ := executed_cases hstep
      nofun

theorem step_of_exited {label : Label T R} (hphase : w.phase = .exited)
    (hstep : w.step label = some w') : w'.phase = .exited ∧ w'.started = w.started := by
  cases label with
  | addTask task =>
    cases hstep
    rw [addTask]
    split_ifs <;> exact ⟨hphase, rfl⟩
  | stop =>
    cases hstep
    rw [stop]
    split_ifs <;> exact ⟨hphase, rfl⟩
  | notify =>
    rw [notify_cases hstep]
    exact ⟨Phase.awake_eq_exited.mpr hphase, rfl⟩
  | wake =>
    cases hstep
    exact ⟨Phase.awake_eq_exited.mpr hphase, rfl⟩
  | check =>
    rw [(check_cases hstep).1] at hphase
    cases hphase
  | executed result =>
    obtain ⟨entry, hexecuting, _⟩ := executed_cases hstep
    rw [hexecuting] at hphase
    cases hphase

theorem started_of_exited {labels : List (Label T R)} (hphase : w.phase = .exited)
    (hrun : (system T R).runFrom w labels = some w') :
    w'.phase = .exited ∧ w'.started = w.started := by
  apply Transitions.invariant_runFrom _ ⟨hphase, rfl⟩ hrun
  rintro s label s' hstep ⟨hs, hstarted⟩
  obtain ⟨hs', hstarted'⟩ := step_of_exited hs hstep
  exact ⟨hs', hstarted'.trans hstarted⟩

/-- No task is lost, duplicated or reordered. -/
structure QueueContract (w : Worker T R) : Prop where
  /-- No promise is fulfilled twice, and only those of accepted tasks are. -/
  atMostOnce : (w.fulfilled.map fun f => f.1.promise).Nodup
  onlyAccepted : ∀ f ∈ w.fulfilled, f.1 ∈ w.accepted
  /-- The tasks are executed in the order in which they were accepted. -/
  inOrder : w.started <+: w.accepted
  /-- No task whose `add_task` threw is executed. -/
  notRejected : ∀ entry ∈ w.rejected, ∀ entry' ∈ w.started, entry'.promise ≠ entry.promise
  /-- Behind the loop every accepted task has its promise fulfilled, by execution or not at all
  executed and with `worker_stopped`. -/
  exited : w.phase = .exited → w.tasks = [] ∧ w.fulfilled.map Prod.fst = w.accepted ∧
    ∀ f ∈ w.fulfilled, (∃ result, f.2 = .executed result) ∧ f.1 ∈ w.started ∨
      f.2 = .workerStopped ∧ f.1 ∉ w.started

theorem Consistent.map_fulfilled (h : Consistent w done cancelled) :
    w.fulfilled.map Prod.fst = done.map Prod.fst ++ cancelled := by
  rw [h.fulfilled, List.map_append, List.map_map, List.map_map]
  exact congrArg _ (List.map_id cancelled)

/-- The promises are fulfilled in the order of their tasks. -/
theorem Consistent.accepted_eq (h : Consistent w done cancelled) :
    w.accepted = w.fulfilled.map Prod.fst ++ (w.phase.current ++ w.tasks) := by
  by_cases hphase : w.phase = .exited
  · have hcurrent : w.phase.current = [] := by rw [hphase]; rfl
    rw [h.map_fulfilled, h.accepted, h.started_eq hcurrent, hcurrent, List.append_assoc]
    rfl
  · rw [h.map_fulfilled, h.accepted, h.started, h.cancelled hphase]
    simp

theorem Numbered.disjoint (h : Numbered w) {entry entry' : Entry T} (hrej : entry ∈ w.rejected)
    (hacc : entry' ∈ w.accepted) : entry'.promise ≠ entry.promise := by
  have hnodup := h.nodup
  rw [List.map_append, List.nodup_append] at hnodup
  exact hnodup.2.2 _ (List.mem_map_of_mem hacc) _ (List.mem_map_of_mem hrej)

theorem Consistent.contract (h : Consistent w done cancelled) (hnum : Numbered w) :
    QueueContract w := by
  have hnodup : (w.accepted.map Entry.promise).Nodup := by
    have := hnum.nodup
    rw [List.map_append] at this
    exact this.of_append_left
  have hstart : w.started <+: w.accepted := ⟨_, h.accepted.symm⟩
  constructor
  · rw [h.accepted_eq, List.map_append, List.map_map] at hnodup
    exact hnodup.of_append_left
  · intro f hf
    rw [h.accepted_eq]
    exact List.mem_append_left _ (List.mem_map_of_mem hf)
  · exact hstart
  · intro entry hrej entry' hstarted
    exact hnum.disjoint hrej (hstart.subset hstarted)
  · intro hphase
    have hcurrent : w.phase.current = [] := by rw [hphase]; rfl
    have htasks := (h.exited hphase).1
    refine ⟨htasks, ?_, ?_⟩
    · rw [h.accepted_eq, hcurrent, htasks, List.append_nil, List.append_nil]
    · intro f hf
      rw [h.fulfilled] at hf
      rcases List.mem_append.mp hf with hf | hf
      · obtain ⟨d, hd, rfl⟩ := List.mem_map.mp hf
        refine .inl ⟨⟨d.2, rfl⟩, ?_⟩
        rw [h.started_eq hcurrent]
        exact List.mem_map_of_mem hd
      · obtain ⟨entry, hentry, rfl⟩ := List.mem_map.mp hf
        refine .inr ⟨rfl, ?_⟩
        intro hstarted
        have hdisjoint := hnodup.of_map
        rw [h.accepted, List.nodup_append] at hdisjoint
        exact hdisjoint.2.2 entry hstarted entry (List.mem_append_left _ hentry) rfl

def Label.isStop : Label T R → Bool
  | .stop => true
  | .addTask _ | .notify | .wake | .check | .executed _ => false

def Label.task? : Label T R → Option T
  | .addTask task => some task
  | .stop | .notify | .wake | .check | .executed _ => none

/-- The tasks added in front of the first `stop` are accepted, and those behind it are not. -/
structure Answered (labels : List (Label T R)) (w : Worker T R) : Prop where
  running : w.running = true ↔ ∀ label ∈ labels, (!label.isStop) = true
  accepted : w.accepted.map Entry.task =
    (labels.takeWhile fun label => !label.isStop).filterMap Label.task?
  rejected : w.rejected.map Entry.task =
    (labels.dropWhile fun label => !label.isStop).filterMap Label.task?

variable {labels : List (Label T R)} {label : Label T R}

/-- A step of a running worker. -/
theorem Answered.running_step (h : Answered labels w) (hrunning : w.running = true)
    (hrunning' : w'.running = !label.isStop)
    (haccepted : w'.accepted.map Entry.task = w.accepted.map Entry.task ++ label.task?.toList)
    (hrejected : w'.rejected = w.rejected) : Answered (labels ++ [label]) w' := by
  have hall := h.running.mp hrunning
  have htake := List.takeWhile_eq_self_iff.mpr hall
  have hdrop := List.dropWhile_eq_nil_iff.mpr hall
  obtain ⟨-, hbefore, hbehind⟩ := h
  rw [htake] at hbefore
  rw [hdrop] at hbehind
  refine ⟨?_, ?_, ?_⟩
  · rw [hrunning', List.forall_mem_append, List.forall_mem_singleton]
    exact (and_iff_right hall).symm
  · rw [haccepted, hbefore, List.takeWhile_append_of_pos hall, List.filterMap_append]
    cases label <;> rfl
  · rw [hrejected, hbehind, List.dropWhile_append_of_pos hall]
    cases label <;> rfl

/-- A step of a stopped worker. -/
theorem Answered.stopped_step (h : Answered labels w) (hrunning : w.running = false)
    (hrunning' : w'.running = false) (haccepted : w'.accepted = w.accepted)
    (hrejected : w'.rejected.map Entry.task = w.rejected.map Entry.task ++ label.task?.toList) :
    Answered (labels ++ [label]) w' := by
  have hsome : ¬ ∀ label ∈ labels, (!label.isStop) = true := by
    rw [← h.running, hrunning]
    exact Bool.false_ne_true
  have hlength : (labels.takeWhile fun label => !label.isStop).length ≠ labels.length := by
    intro hlength
    have hself := (List.takeWhile_prefix _).eq_of_length hlength
    exact hsome (List.takeWhile_eq_self_iff.mp hself)
  have hdrop : (labels.dropWhile fun label => !label.isStop).isEmpty = false := by
    rw [List.isEmpty_eq_false_iff, Ne, List.dropWhile_eq_nil_iff]
    exact hsome
  refine ⟨?_, ?_, ?_⟩
  · rw [hrunning', List.forall_mem_append]
    exact iff_of_false Bool.false_ne_true fun hall => hsome hall.1
  · rw [haccepted, h.accepted, List.takeWhile_append, if_neg hlength]
  · rw [hrejected, h.rejected, List.dropWhile_append, hdrop, if_neg Bool.false_ne_true,
      List.filterMap_append]
    cases label <;> rfl

theorem Answered.quiet (h : Answered labels w) (hstop : label.isStop = false)
    (htask : label.task? = none) (hrunning : w'.running = w.running)
    (haccepted : w'.accepted = w.accepted) (hrejected : w'.rejected = w.rejected) :
    Answered (labels ++ [label]) w' := by
  cases hrun : w.running with
  | true =>
    refine h.running_step hrun ?_ ?_ hrejected
    · rw [hrunning, hrun, hstop]
      rfl
    · rw [haccepted, htask]
      exact (List.append_nil _).symm
  | false =>
    refine h.stopped_step hrun (hrunning.trans hrun) haccepted ?_
    rw [hrejected, htask]
    exact (List.append_nil _).symm

theorem Answered.step (h : Answered labels w) (hstep : w.step label = some w') :
    Answered (labels ++ [label]) w' := by
  cases label with
  | addTask task =>
    cases hstep
    cases hrun : w.running with
    | true =>
      rw [addTask, if_pos hrun]
      exact h.running_step hrun hrun List.map_append rfl
    | false =>
      rw [addTask, if_neg (by simp [hrun])]
      exact h.stopped_step hrun hrun rfl List.map_append
  | stop =>
    cases hstep
    cases hrun : w.running with
    | true =>
      rw [stop, if_pos hrun]
      exact h.running_step hrun rfl (List.append_nil _).symm rfl
    | false =>
      rw [stop, if_neg (by simp [hrun])]
      exact h.stopped_step hrun hrun rfl (List.append_nil _).symm
  | notify =>
    rw [notify_cases hstep]
    exact h.quiet rfl rfl rfl rfl rfl
  | wake =>
    cases hstep
    exact h.quiet rfl rfl rfl rfl rfl
  | check =>
    rcases check_cases hstep with ⟨-, ⟨-, -, rfl⟩ | ⟨entry, tasks, -, -, rfl⟩ | ⟨-, rfl⟩⟩
    · exact h.quiet rfl rfl rfl rfl rfl
    · exact h.quiet rfl rfl rfl rfl rfl
    · exact h.quiet rfl rfl rfl rfl rfl
  | executed result =>
    obtain ⟨entry, -, rfl⟩ := executed_cases hstep
    exact h.quiet rfl rfl rfl rfl rfl

theorem answered_of_run (h : (system T R).run labels = some w) : Answered labels w := by
  apply Transitions.run_invariant _ _ h
  · exact ⟨iff_of_true rfl (List.forall_mem_nil _), rfl, rfl⟩
  · intro labels w label w' _ hstep h
    exact h.step hstep

/-- For every schedule of any number of calls of `add_task` and `stop` and the steps of the loop
the contract is kept, the accepted tasks are those added in front of the first `stop`, and once the
loop has seen that it is stopped it starts no task. -/
theorem queueContract {labels : List (Label T R)} (h : (system T R).run labels = some w) :
    QueueContract w ∧ Answered labels w ∧ ∀ labels' w', w.phase = .exited →
      (system T R).runFrom w labels' = some w' → w'.started = w.started := by
  have hreach : (system T R).Reachable w := ⟨labels, h⟩
  obtain ⟨done, cancelled, hcons⟩ := consistent_of_reachable hreach
  refine ⟨hcons.contract (numbered_of_reachable hreach), answered_of_run h, ?_⟩
  intro labels' w' hphase hrun
  exact (started_of_exited hphase hrun).2

/-- One task is executed, one cancelled and one refused. -/
def stoppedRun : List (Label ℕ String) :=
  [.addTask 7, .addTask 8, .check, .stop, .addTask 9, .executed "seven", .check]

theorem queueContract_stopped : ∃ w, (system ℕ String).run stoppedRun = some w ∧
    w.phase = .exited ∧ QueueContract w ∧ Answered stoppedRun w ∧ ∀ labels' w', w.phase = .exited →
      (system ℕ String).runFrom w labels' = some w' → w'.started = w.started := by
  have hrun : ∃ w, (system ℕ String).run stoppedRun = some w ∧ w.phase = .exited := ⟨_, rfl, rfl⟩
  obtain ⟨w, hw, hphase⟩ := hrun
  exact ⟨w, hw, hphase, queueContract hw⟩

end Worker

end ZInferLM
