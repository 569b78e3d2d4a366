import ZInferLM.Worker.Queue

/-! # Destroying a worker

A class derived from `Worker` loses its own part first, and with it its `execute_task_`. Only then
`~Worker` stops the loop and joins the thread. The virtual call for a popped task is a step of its
own here, the one that enters `execute_task_`. -/

namespace ZInferLM
open Library

universe u v
variable {T : Type u} {R : Type v}

namespace Worker

/-- How far the destruction has come: not begun, in front of `~Worker`, in its `stop` with the
thread still to be joined, or over. -/
inductive Stage where
  | alive
  | derivedDestroyed
  | joining
  | gone
  deriving DecidableEq

/-- A worker of a derived class. `inside` says that `execute_task_` has been entered for the task
that was popped; `late` are the tasks it was entered for after the destruction had begun. -/
structure Derived (T : Type u) (R : Type v) where
  worker : Worker T R
  inside : Bool
  stage : Stage
  late : List (Entry T)
  deriving DecidableEq

def Phase.isExited : Phase T → Bool
  | .exited => true
  | _ => false

@[simp] theorem Phase.isExited_iff {phase : Phase T} : phase.isExited = true ↔ phase = .exited := by
  cases phase <;> simp [isExited]

namespace Derived

def new : Derived T R := ⟨Worker.new, false, .alive, []⟩

/-- A caller uses the object only while it exists. -/
def call (s : Derived T R) (w : Worker T R) : Option (Derived T R) :=
  if s.stage = .alive then some { s with worker := w } else none

/-- The loop pops a task, and has not called `execute_task_` yet. -/
def check (s : Derived T R) : Option (Derived T R) :=
  s.worker.check.map fun w => { s with worker := w, inside := false }

/-- The virtual call. -/
def enter (s : Derived T R) : Option (Derived T R) :=
  match s.worker.phase with
  | .executing entry =>
    if s.inside then none
    else some { s with
      inside := true
      late := if s.stage = .alive then s.late else s.late ++ [entry] }
  | _ => none

def executed (s : Derived T R) (result : R) : Option (Derived T R) :=
  if s.inside then
    (s.worker.executed result).map fun w => { s with worker := w, inside := false }
  else none

/-- No call of `add_task` or `stop` is in progress: what it had to notify is notified, and `stop`
has joined the thread. -/
def Unused (s : Derived T R) : Prop :=
  s.worker.notifications = 0 ∧ (s.worker.running = true ∨ s.worker.phase.isExited = true)

instance (s : Derived T R) : Decidable s.Unused := inferInstanceAs (Decidable (_ ∧ _))

def destroyDerived (s : Derived T R) : Option (Derived T R) :=
  if s.stage = .alive ∧ s.Unused then some { s with stage := .derivedDestroyed } else none

/-- `~Worker` calls `stop`, which returns at once if the worker was stopped before. -/
def destroyBase (s : Derived T R) : Option (Derived T R) :=
  if s.stage = .derivedDestroyed then
    some { s with
      worker := s.worker.stop
      stage := if s.worker.running then .joining else .gone }
  else none

/-- The thread is joined when the loop has ended. -/
def join (s : Derived T R) : Option (Derived T R) :=
  if s.stage = .joining ∧ s.worker.notifications = 0 ∧ s.worker.phase.isExited = true then
    some { s with stage := .gone }
  else none

inductive Label (T : Type u) (R : Type v) where
  | addTask (task : T)
  | stop
  | notify
  | wake
  | check
  | enter
  | executed (result : R)
  | destroyDerived
  | destroyBase
  | join
  deriving DecidableEq

def step (s : Derived T R) : Label T R → Option (Derived T R)
  | .addTask task => s.call (s.worker.addTask task)
  | .stop => s.call s.worker.stop
  | .notify => s.worker.notify.map fun w => { s with worker := w }
  | .wake => some { s with worker := s.worker.wake }
  | .check => s.check
  | .enter => s.enter
  | .executed result => s.executed result
  | .destroyDerived => s.destroyDerived
  | .destroyBase => s.destroyBase
  | .join => s.join

/-- Any schedule of the callers, the loop and the destruction. -/
def system (T : Type u) (R : Type v) : Transitions (Derived T R) (Label T R) := ⟨new, step⟩

/-- No task is queued, and none popped for which `execute_task_` is still to be entered. -/
def Drained (s : Derived T R) : Prop :=
  s.worker.tasks = [] ∧ (s.worker.phase.current ≠ [] → s.inside = true)

/-- The destruction begins with a drained worker. -/
def DestroyedDrained (s : Derived T R) : Label T R → Prop
  | .destroyDerived => s.Drained
  | _ => True

variable {s s' : Derived T R}

theorem call_cases {w : Worker T R} (h : s.call w = some s') :
    s.stage = .alive ∧ s' = { s with worker := w } := by
  rw [call] at h
  split_ifs at h with halive
  exact ⟨halive, (Option.some.inj h).symm⟩

theorem enter_cases (h : s.enter = some s') : ∃ entry, s.worker.phase = .executing entry ∧
    s.inside = false ∧ s' = { s with
      inside := true
      late := if s.stage = .alive then s.late else s.late ++ [entry] } := by
  rw [enter] at h
  cases hphase : s.worker.phase with
  | executing entry =>
    rw [hphase] at h
    cases hinside : s.inside with
    | true =>
      rw [hinside] at h
      cases h
    | false =>
      rw [hinside] at h
      exact ⟨entry, rfl, rfl, (Option.some.inj h).symm⟩
  | _ =>
    rw [hphase] at h
    cases h

theorem executed_cases {result : R} (h : s.executed result = some s') : s.inside = true ∧
    ∃ w, s.worker.executed result = some w ∧ s' = { s with worker := w, inside := false } := by
  rw [executed] at h
  split_ifs at h with hinside
  obtain ⟨w, hw, rfl⟩ := Option.map_eq_some_iff.mp h
  exact ⟨hinside, w, hw, rfl⟩

theorem destroyDerived_cases (h : s.destroyDerived = some s') :
    s.stage = .alive ∧ s.Unused ∧ s' = { s with stage := .derivedDestroyed } := by
  rw [destroyDerived] at h
  split_ifs at h with hguard
  exact ⟨hguard.1, hguard.2, (Option.some.inj h).symm⟩

theorem destroyBase_cases (h : s.destroyBase = some s') : s.stage = .derivedDestroyed ∧
    s' = { s with
      worker := s.worker.stop
      stage := if s.worker.running then .joining else .gone } := by
  rw [destroyBase] at h
  by_cases hstage : s.stage = .derivedDestroyed
  · rw [if_pos hstage] at h
    exact ⟨hstage, (Option.some.inj h).symm⟩
  · rw [if_neg hstage] at h
    cases h

theorem join_cases (h : s.join = some s') :
    s.stage = .joining ∧ s' = { s with stage := .gone } := by
  rw [join] at h
  split_ifs at h with hguard
  exact ⟨hguard.1, (Option.some.inj h).symm⟩

def labels (_ : Derived T R) : Label T R → List (Worker.Label T R)
  | .addTask task => [.addTask task]
  | .stop | .destroyBase => [.stop]
  | .notify => [.notify]
  | .wake => [.wake]
  | .check => [.check]
  | .executed result => [.executed result]
  | .enter | .destroyDerived | .join => []

/-- A worker that is destroyed is a worker. -/
def simulation : Transitions.Simulation (system T R) (Worker.system T R) where
  abs := Derived.worker
  labels := labels
  start := rfl
  step s label s' hstep := by
    cases label with
    | addTask task =>
      obtain ⟨_, rfl⟩ := call_cases hstep
      rfl
    | stop =>
      obtain ⟨_, rfl⟩ := call_cases hstep
      rfl
    | notify =>
      obtain ⟨w, hw, rfl⟩ := Option.map_eq_some_iff.mp hstep
      exact (Transitions.runFrom_singleton _ _ _).trans hw
    | wake => cases hstep; rfl
    | check =>
      obtain ⟨w, hw, rfl⟩ := Option.map_eq_some_iff.mp hstep
      exact (Transitions.runFrom_singleton _ _ _).trans hw
    | enter =>
      obtain ⟨entry, _, _, rfl⟩ := enter_cases hstep
      rfl
    | executed result =>
      obtain ⟨_, w, hw, rfl⟩ := executed_cases hstep
      exact (Transitions.runFrom_singleton _ _ _).trans hw
    | destroyDerived =>
      obtain ⟨_, _, rfl⟩ := destroyDerived_cases hstep
      rfl
    | destroyBase =>
      obtain ⟨_, rfl⟩ := destroyBase_cases hstep
      rfl
    | join =>
      obtain ⟨_, rfl⟩ := join_cases hstep
      rfl

theorem Drained.check (h : s.Drained) (hstep : s.check = some s') : s'.Drained := by
  obtain ⟨w, hw, rfl⟩ := Option.map_eq_some_iff.mp hstep
  rcases check_cases hw with ⟨_, ⟨_, htasks, rfl⟩ | ⟨entry, tasks, _, htasks, _⟩ | ⟨_, rfl⟩⟩
  · exact ⟨htasks, fun hne => absurd rfl hne⟩
  · rw [h.1] at htasks
    cases htasks
  · exact ⟨rfl, fun hne => absurd rfl hne⟩

theorem Drained.not_enter (h : s.Drained) : s.enter = none := by
  rw [Option.eq_none_iff_forall_ne_some]
  intro s' hstep
  obtain ⟨entry, hphase, hinside, _⟩ := enter_cases hstep
  rw [h.2 (by rw [hphase]; exact List.cons_ne_nil _ _)] at hinside
  cases hinside

/-- The destruction itself, and what wakes up the loop, leaves it as it is. -/
theorem Drained.of_eq (h : s.Drained) (htasks : s'.worker.tasks = s.worker.tasks)
    (hcurrent : s'.worker.phase.current = s.worker.phase.current)
    (hinside : s'.inside = s.inside) : s'.Drained := by
  rw [Drained, htasks, hcurrent, hinside]
  exact h

theorem Drained.step {label : Label T R} (h : s.Drained) (hstage : s.stage ≠ .alive)
    (hstep : s.step label = some s') : s'.Drained := by
  cases label with
  | addTask task => exact absurd (call_cases hstep).1 hstage
  | stop => exact absurd (call_cases hstep).1 hstage
  | notify =>
    obtain ⟨w, hw, rfl⟩ := Option.map_eq_some_iff.mp hstep
    rw [notify_cases hw]
    exact h.of_eq rfl (Phase.awake_current _) rfl
  | wake =>
    cases hstep
    exact h.of_eq rfl (Phase.awake_current _) rfl
  | check => exact h.check hstep
  | enter =>
    cases h.not_enter.symm.trans hstep
  | executed result =>
    obtain ⟨_, w, hw, rfl⟩ := executed_cases hstep
    obtain ⟨entry, _, rfl⟩ := Worker.executed_cases hw
    exact ⟨h.1, fun hne => absurd rfl hne⟩
  | destroyDerived => exact absurd (destroyDerived_cases hstep).1 hstage
  | destroyBase =>
    obtain ⟨_, rfl⟩ := destroyBase_cases hstep
    have hstop : s.worker.stop.tasks = s.worker.tasks ∧ s.worker.stop.phase = s.worker.phase := by
      rw [Worker.stop]
      split_ifs <;> exact ⟨rfl, rfl⟩
    exact h.of_eq hstop.1 (congrArg Phase.current hstop.2) rfl
  | join =>
    obtain ⟨_, rfl⟩ := join_cases hstep
    exact h.of_eq rfl rfl rfl

/-- Nothing was entered late, and nothing can be once the destruction has begun. -/
structure Safe (s : Derived T R) : Prop where
  late : s.late = []
  drained : s.stage ≠ .alive → s.Drained

theorem safe_new : Safe (new : Derived T R) := ⟨rfl, fun h => absurd rfl h⟩

theorem step_late {label : Label T R} (hstep : s.step label = some s')
    (h : s.stage = .alive ∨ s.Drained) : s'.late = s.late := by
  cases label with
  | addTask task => rw [(call_cases hstep).2]
  | stop => rw [(call_cases hstep).2]
  | notify =>
    obtain ⟨w, _, rfl⟩ := Option.map_eq_some_iff.mp hstep
    rfl
  | wake => cases hstep; rfl
  | check =>
    obtain ⟨w, _, rfl⟩ := Option.map_eq_some_iff.mp hstep
    rfl
  | enter =>
    obtain ⟨entry, _, _, rfl⟩ := enter_cases hstep
    rcases h with halive | hdrained
    · exact if_pos halive
    · cases hdrained.not_enter.symm.trans hstep
  | executed result =>
    obtain ⟨_, w, _, rfl⟩ := executed_cases hstep
    rfl
  | destroyDerived => rw [(destroyDerived_cases hstep).2.2]
  | destroyBase => rw [(destroyBase_cases hstep).2]
  | join => rw [(join_cases hstep).2]

/-- Only the destruction of the derived part ends the life of the object. -/
theorem step_alive_iff {label : Label T R} (hstep : s.step label = some s') :
    s'.stage = .alive ↔ s.stage = .alive ∧ label ≠ .destroyDerived := by
  cases label with
  | addTask task =>
    obtain ⟨_, rfl⟩ := call_cases hstep
    simp
  | stop =>
    obtain ⟨_, rfl⟩ := call_cases hstep
    simp
  | notify =>
    obtain ⟨w, _, rfl⟩ := Option.map_eq_some_iff.mp hstep
    simp
  | wake =>
    cases hstep
    simp
  | check =>
    obtain ⟨w, _, rfl⟩ := Option.map_eq_some_iff.mp hstep
    simp
  | enter =>
    obtain ⟨entry, _, _, rfl⟩ := enter_cases hstep
    simp
  | executed result =>
    obtain ⟨_, w, _, rfl⟩ := executed_cases hstep
    simp
  | destroyDerived =>
    obtain ⟨_, _, rfl⟩ := destroyDerived_cases hstep
    simp
  | destroyBase =>
    obtain ⟨hstage, rfl⟩ := destroyBase_cases hstep
    rw [hstage]
    cases s.worker.running <;> simp
  | join =>
    obtain ⟨hstage, rfl⟩ := join_cases hstep
    rw [hstage]
    simp

theorem Safe.step {label : Label T R} (h : s.Safe) (hmeets : s.DestroyedDrained label)
    (hstep : s.step label = some s') : s'.Safe := by
  by_cases halive : s.stage = .alive
  · refine ⟨(step_late hstep (.inl halive)).trans h.late, ?_⟩
    intro hstage
    cases label with
    | destroyDerived =>
      rw [(destroyDerived_cases hstep).2.2]
      exact hmeets
    | _ => exact absurd ((step_alive_iff hstep).mpr ⟨halive, nofun⟩) hstage
  · have hdrained := h.drained halive
    exact ⟨(step_late hstep (.inr hdrained)).trans h.late, fun _ => hdrained.step halive hstep⟩

theorem Safe.step_destroyed {label : Label T R} (h : s.Safe) (hstage : s.stage ≠ .alive)
    (hstep : s.step label = some s') : s'.Safe ∧ s'.stage ≠ .alive := by
  refine ⟨h.step ?_ hstep, fun halive => hstage ((step_alive_iff hstep).mp halive).1⟩
  cases label with
  | destroyDerived => exact absurd (destroyDerived_cases hstep).1 hstage
  | _ => trivial

/-- While the object lives nothing is late. -/
theorem late_of_alive (h : (system T R).Reachable s) : s.stage = .alive → s.late = [] := by
  apply h.invariant (fun _ => rfl)
  intro s label s' hstep hlate halive'
  have halive := ((step_alive_iff hstep).mp halive').1
  exact (step_late hstep (.inl halive)).trans (hlate halive)

/-- The loop of a stopped object still runs: it pops the next task and enters it. -/
theorem exists_late_checking (hstage : s.stage ≠ .alive) (hphase : s.worker.phase = .checking)
    (hrun : s.worker.running = true) (hqueued : s.worker.tasks ≠ []) :
    ∃ s', (system T R).runFrom s [.check, .enter] = some s' ∧ s'.late ≠ [] := by
  obtain ⟨entry, tasks, htasks⟩ := List.exists_cons_of_ne_nil hqueued
  have hcheck : s.worker.check = some { s.worker with
      tasks, phase := .executing entry, started := s.worker.started ++ [entry] } := by
    rw [Worker.check, hphase]
    dsimp only
    rw [if_pos hrun, htasks]
  refine ⟨_, Transitions.runFrom_cons.mpr ⟨_, congrArg (Option.map _) hcheck, rfl⟩, ?_⟩
  dsimp only
  rw [if_neg hstage]
  exact List.append_ne_nil_of_right_ne_nil _ (List.cons_ne_nil _ _)

/-- A destruction that begins too early lets the loop enter a destroyed object. -/
theorem exists_late (hreach : (system T R).Reachable s) (hbegin : s.destroyDerived = some s')
    (result : R) (h : ¬ s.Drained) :
    ∃ labels s'', (system T R).runFrom s' labels = some s'' ∧ s''.late ≠ [] := by
  have hworker := simulation.reachable hreach
  have hdestroyed : Stage.derivedDestroyed ≠ .alive := by decide
  obtain ⟨done, cancelled, hconsistent⟩ := consistent_of_reachable hworker
  obtain ⟨halive, ⟨hnotified, hrun⟩, rfl⟩ := destroyDerived_cases hbegin
  by_cases hpopped : s.worker.phase.current ≠ [] → s.inside = true
  · have hqueued : s.worker.tasks ≠ [] := fun htasks => h ⟨htasks, hpopped⟩
    cases hphase : s.worker.phase with
    | exited => exact absurd (hconsistent.exited hphase).1 hqueued
    | asleep => exact absurd (notified_of_reachable hworker hphase hnotified).1 hqueued
    | checking =>
      rw [hphase] at hrun
      obtain ⟨s'', hlate⟩ := exists_late_checking (s := { s with stage := .derivedDestroyed })
        hdestroyed hphase (hrun.resolve_right Bool.false_ne_true) hqueued
      exact ⟨_, s'', hlate⟩
    | executing entry =>
      rw [hphase] at hrun hpopped
      obtain ⟨w, hw, htasks, hrunning, hchecking⟩ : ∃ w, s.worker.executed result = some w ∧
          w.tasks = s.worker.tasks ∧ w.running = s.worker.running ∧ w.phase = .checking := by
        rw [Worker.executed, hphase]
        exact ⟨_, rfl, rfl, rfl, rfl⟩
      have hstep : step { s with stage := .derivedDestroyed } (.executed result) =
          some ⟨w, false, .derivedDestroyed, s.late⟩ :=
        (if_pos (hpopped (List.cons_ne_nil _ _))).trans (congrArg (Option.map _) hw)
      rw [← htasks] at hqueued
      rw [← hrunning] at hrun
      obtain ⟨s'', hlabels, hlate⟩ := exists_late_checking
        (s := ⟨w, false, .derivedDestroyed, s.late⟩) hdestroyed hchecking
        (hrun.resolve_right Bool.false_ne_true) hqueued
      exact ⟨[.executed result, .check, .enter], s'',
        Transitions.runFrom_cons.mpr ⟨_, hstep, hlabels⟩, hlate⟩
  · obtain ⟨hcurrent, hinside⟩ := Classical.not_imp.mp hpopped
    cases hphase : s.worker.phase with
    | executing entry =>
      have hstep : step { s with stage := .derivedDestroyed } .enter =
          some ⟨s.worker, true, .derivedDestroyed, s.late ++ [entry]⟩ := by
        rw [step, enter]
        dsimp only
        rw [hphase, Bool.eq_false_of_not_eq_true hinside]
        rfl
      exact ⟨[.enter], _, (Transitions.runFrom_singleton _ _ _).trans hstep,
        List.append_ne_nil_of_right_ne_nil _ (List.cons_ne_nil _ _)⟩
    | _ =>
      rw [hphase] at hcurrent
      exact absurd rfl hcurrent

/-- In a run in which the destruction begins with a drained worker `execute_task_` is never entered
for a destroyed object. Where it begins with a worker that is not, it still can be. -/
theorem late_iff_drained (result : R) :
    (∀ labels (s : Derived T R), (system T R).Meets DestroyedDrained new labels →
        (system T R).run labels = some s → s.late = []) ∧
      ∀ s s' : Derived T R, (system T R).Reachable s → s.destroyDerived = some s' →
        ((∀ labels s'', (system T R).runFrom s' labels = some s'' → s''.late = []) ↔
          s.Drained) := by
  constructor
  · intro labels s hmeets hrun
    have hsafe : s.Safe := by
      apply Transitions.invariant_of_meets _ (Transitions.reachable_start _) safe_new hmeets hrun
      intro s label s' _ hmeets hstep h
      exact h.step hmeets hstep
    exact hsafe.late
  · intro s s' hreach hbegin
    constructor
    · intro hnever
      by_contra hdrained
      obtain ⟨labels, s'', hrun, hlate⟩ := exists_late hreach hbegin result hdrained
      exact hlate (hnever labels s'' hrun)
    · intro hdrained labels s'' hrun
      obtain ⟨halive, _, rfl⟩ := destroyDerived_cases hbegin
      have hlate := late_of_alive hreach halive
      have hsafe : s''.Safe ∧ s''.stage ≠ .alive := by
        apply Transitions.invariant_runFrom _ _ hrun
        · intro s label s' hstep h
          exact h.1.step_destroyed h.2 hstep
        · exact ⟨⟨hlate, fun _ => hdrained⟩, nofun⟩
      exact hsafe.1.late

/-- A task is queued when the destruction begins: the loop pops it and calls `execute_task_` before
`~Worker` can stop it. -/
theorem late_queued : ∃ s, (system ℕ String).run
    [.addTask 7, .notify, .destroyDerived, .check, .enter] = some s ∧ s.late = [⟨7, 0⟩] :=
  ⟨_, rfl, rfl⟩

/-- The loop has executed its task before the destruction begins. -/
example : ∃ s, (system ℕ String).run [.addTask 7, .notify, .check, .enter, .executed "seven",
      .destroyDerived, .destroyBase, .notify, .check, .join] = some s ∧ s.stage = .gone ∧
    s.worker.phase = .exited ∧ s.late = [] :=
  ⟨_, rfl, rfl, rfl, rfl⟩

end Derived

end Worker

end ZInferLM
