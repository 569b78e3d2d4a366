import ZInferLM.Library.Machine
import ZInferLM.Library.Multimap
import ZInferLM.Library.Transitions
import ZInferLM.Library.Utf8

/-! # The event dispatcher

Threads listen, unlisten and dispatch. What is done under `mutex_` is one step. `dispatch` copies
the callbacks it needs and calls them outside the lock, one step for the call of a callback and one
for its return; in between the callback may use the dispatcher itself, and so may other threads. -/

namespace ZInferLM.Events
open Library Library.Machine Library.Multimap
open Library.Utf8 (Bytes)

inductive InferenceEvent where
  | tokenizerStarted
  | tokenizerCompleted
  | tokenGenerated
  | generationCompleted
  | prefillStarted
  | prefillCompleted
  deriving DecidableEq

variable {C V ι : Type}

structure Listener (C : Type) where
  callback : C
  events : Finset InferenceEvent
  deriving DecidableEq

structure EventDispatcher (C : Type) where
  listeners : Multimap Bytes (Listener C)
  callbacksCount : ℤ

namespace EventDispatcher

def new : EventDispatcher C := ⟨∅, 0⟩

def listen (d : EventDispatcher C) (groupId : Bytes) (listener : C)
    (events : Finset InferenceEvent) : Outcome (EventDispatcher C) := do
  let listeners := match d.listeners.lookup groupId with
    | some group => d.listeners.insert groupId (group ++ [⟨listener, events⟩])
    | none => d.listeners.insert groupId [⟨listener, events⟩]
  let count ← addInt d.callbacksCount 1
  .ok ⟨listeners, count⟩

/-- The subscript puts in an entry for an unknown group, which is erased again. -/
def unlisten (d : EventDispatcher C) (groupId : Bytes) : Outcome (EventDispatcher C) := do
  let found := subscript d.listeners groupId
  let callbacks := toInt found.1.length
  let count ← addInt d.callbacksCount (-callbacks)
  .ok ⟨found.2.erase groupId, count⟩

/-- The callbacks that are copied; the entry for an unknown group stays. -/
def dispatch (d : EventDispatcher C) (groupId : Bytes) (eventName : InferenceEvent) :
    List C × EventDispatcher C :=
  let found := subscript d.listeners groupId
  ((found.1.filter fun it => eventName ∈ it.events).map Listener.callback,
    { d with listeners := found.2 })

variable {d d' : EventDispatcher C}

theorem listen_eq (d : EventDispatcher C) (groupId : Bytes) (listener : C)
    (events : Finset InferenceEvent) : d.listen groupId listener events = (do
      let count ← addInt d.callbacksCount 1
      .ok ⟨d.listeners.insert groupId (values d.listeners groupId ++ [⟨listener, events⟩]),
        count⟩) := by
  rw [listen, values]
  cases d.listeners.lookup groupId <;> rfl

/-- The counter of a dispatcher is right, and so it fits an `int`. -/
structure Counted (d : EventDispatcher C) : Prop where
  count : d.callbacksCount = size d.listeners
  fits : size d.listeners < 2 ^ 31

theorem new_counted : (new : EventDispatcher C).Counted := ⟨rfl, Nat.two_pow_pos 31⟩

theorem Counted.listen (h : d.Counted) {groupId : Bytes} {listener : C}
    {events : Finset InferenceEvent} (hlisten : d.listen groupId listener events = .ok d') :
    d'.Counted ∧ d'.listeners =
      d.listeners.insert groupId (values d.listeners groupId ++ [⟨listener, events⟩]) := by
  rw [listen_eq] at hlisten
  obtain ⟨count, hcount, hok⟩ := Outcome.bind_eq_ok.mp hlisten
  cases hok
  rw [addInt, h.count] at hcount
  split_ifs at hcount with hfits
  cases hcount
  have hsize := size_insert_concat d.listeners groupId ⟨listener, events⟩
  refine ⟨⟨?_, ?_⟩, rfl⟩
  · rw [hsize, Nat.cast_add, Nat.cast_one]
  · rw [hsize]
    omega

/-- Only the `int` can keep a call of `listen` from succeeding. -/
theorem Counted.exists_listen (h : d.Counted) (groupId : Bytes) (listener : C)
    (events : Finset InferenceEvent) (hroom : size d.listeners + 1 < 2 ^ 31) :
    ∃ d', d.listen groupId listener events = .ok d' := by
  rw [listen_eq, h.count, ← Nat.cast_one, addInt_of_lt hroom]
  exact ⟨_, rfl⟩

theorem Counted.unlisten (h : d.Counted) (groupId : Bytes) :
    ∃ d', d.unlisten groupId = .ok d' ∧ d'.Counted ∧
      ∀ g, values d'.listeners g = if g = groupId then [] else values d.listeners g := by
  have hsize := size_erase_subscript d.listeners groupId
  have hfits := h.fits
  have hcallbacks : toInt ((values d.listeners groupId).length : ℤ) =
      (values d.listeners groupId).length := toInt_of_lt (by omega)
  have hsum : (size d.listeners : ℤ) + -((values d.listeners groupId).length : ℤ) =
      (size ((subscript d.listeners groupId).2.erase groupId) : ℤ) := by
    omega
  refine ⟨⟨(subscript d.listeners groupId).2.erase groupId,
    (size ((subscript d.listeners groupId).2.erase groupId) : ℤ)⟩, ?_, ⟨rfl, ?_⟩, fun g => ?_⟩
  · rw [EventDispatcher.unlisten]
    simp only [subscript_fst]
    rw [hcallbacks, h.count, addInt, hsum, if_pos (by omega), Outcome.ok_bind]
  · change size ((subscript d.listeners groupId).2.erase groupId) < 2 ^ 31
    omega
  · split_ifs with hg
    · rw [hg]
      exact values_erase_self _ _
    · exact (values_erase_of_ne hg).trans (values_subscript _ _ _)

theorem Counted.dispatch (h : d.Counted) (groupId : Bytes) (eventName : InferenceEvent) :
    (d.dispatch groupId eventName).2.Counted := by
  have hsize := size_subscript d.listeners groupId
  exact ⟨h.count.trans (congrArg _ hsize.symm), hsize ▸ h.fits⟩

theorem dispatch_fst (d : EventDispatcher C) (groupId : Bytes) (eventName : InferenceEvent) :
    (d.dispatch groupId eventName).1 =
      ((values d.listeners groupId).filter fun it => eventName ∈ it.events).map
        Listener.callback := by
  rw [EventDispatcher.dispatch, subscript_fst]

end EventDispatcher

/-- The locals of a call of `dispatch` in its loop: the event, the callbacks the loop has not come
to, and whether it is inside a callback. -/
structure Delivery (C V : Type) where
  event : V
  callbacks : List C
  inside : Bool

/-- What has happened. The calls of `dispatch` are numbered. -/
inductive Action (C V : Type) where
  | listen (groupId : Bytes) (listener : Listener C)
  | unlisten (groupId : Bytes)
  | dispatch (call : ℕ) (groupId : Bytes) (eventName : InferenceEvent) (event : V)
  | invoke (call : ℕ) (callback : C) (event : V)
  | finish (call : ℕ)

inductive Call (C V : Type) where
  | listen (groupId : Bytes) (listener : C) (events : Finset InferenceEvent)
  | unlisten (groupId : Bytes)
  | dispatch (groupId : Bytes) (eventName : InferenceEvent) (event : V)

/-- The next step of a thread: a call, or what a `dispatch` it is in does next. -/
inductive Label (ι C V : Type) where
  | call (thread : ι) (c : Call C V)
  | invoke (thread : ι)
  | returned (thread : ι)
  | finish (thread : ι)

structure State (ι C V : Type) where
  dispatcher : EventDispatcher C
  deliveries : ℕ → Option (Delivery C V)
  /-- The calls of `dispatch` a thread is in, the innermost first. -/
  running : ι → List ℕ
  calls : ℕ
  trace : List (Action C V)

namespace State

def initial : State ι C V := ⟨.new, fun _ => none, fun _ => [], 0, []⟩

def top (s : State ι C V) (thread : ι) : Option (ℕ × Delivery C V) := do
  let call ← (s.running thread).head?
  let delivery ← s.deliveries call
  some (call, delivery)

/-- A thread runs code of its own, in a callback where it is in a `dispatch`. -/
def free (s : State ι C V) (thread : ι) : Bool :=
  match s.running thread with
  | [] => true
  | call :: _ => (s.deliveries call).any Delivery.inside

variable [DecidableEq ι]

/-- What a call does under the lock. When the counter overflows there is no next state. -/
def perform (s : State ι C V) (thread : ι) : Call C V → Option (State ι C V)
  | .listen groupId listener events => do
    let dispatcher ← (s.dispatcher.listen groupId listener events).toOption
    some { s with dispatcher, trace := s.trace ++ [.listen groupId ⟨listener, events⟩] }
  | .unlisten groupId => do
    let dispatcher ← (s.dispatcher.unlisten groupId).toOption
    some { s with dispatcher, trace := s.trace ++ [.unlisten groupId] }
  | .dispatch groupId eventName event =>
    let copied := s.dispatcher.dispatch groupId eventName
    some {
      dispatcher := copied.2
      deliveries := Function.update s.deliveries s.calls (some ⟨event, copied.1, false⟩)
      running := Function.update s.running thread (s.calls :: s.running thread)
      calls := s.calls + 1
      trace := s.trace ++ [.dispatch s.calls groupId eventName event] }

def invoke (s : State ι C V) (thread : ι) : Option (State ι C V) :=
  match s.top thread with
  | some (call, ⟨event, callback :: callbacks, false⟩) =>
    some { s with
      deliveries := Function.update s.deliveries call (some ⟨event, callbacks, true⟩)
      trace := s.trace ++ [.invoke call callback event] }
  | _ => none

def returned (s : State ι C V) (thread : ι) : Option (State ι C V) :=
  match s.top thread with
  | some (call, ⟨event, callbacks, true⟩) =>
    some { s with deliveries := Function.update s.deliveries call (some ⟨event, callbacks, false⟩) }
  | _ => none

def finish (s : State ι C V) (thread : ι) : Option (State ι C V) :=
  match s.top thread with
  | some (call, ⟨_, [], false⟩) =>
    some { s with
      deliveries := Function.update s.deliveries call none
      running := Function.update s.running thread (s.running thread).tail
      trace := s.trace ++ [.finish call] }
  | _ => none

def step (s : State ι C V) : Label ι C V → Option (State ι C V)
  | .call thread c => if s.free thread then s.perform thread c else none
  | .invoke thread => s.invoke thread
  | .returned thread => s.returned thread
  | .finish thread => s.finish thread

end State

/-- Any number of threads at one dispatcher. -/
def system (ι C V : Type) [DecidableEq ι] : Transitions (State ι C V) (Label ι C V) where
  start := .initial
  step := State.step

variable [DecidableEq ι] {s s' : State ι C V}

inductive Moved (s : State ι C V) : State ι C V → Prop where
  | listen (groupId : Bytes) (listener : Listener C) (dispatcher : EventDispatcher C) :
      s.dispatcher.listen groupId listener.callback listener.events = .ok dispatcher →
      Moved s { s with dispatcher, trace := s.trace ++ [.listen groupId listener] }
  | unlisten (groupId : Bytes) (dispatcher : EventDispatcher C) :
      s.dispatcher.unlisten groupId = .ok dispatcher →
      Moved s { s with dispatcher, trace := s.trace ++ [.unlisten groupId] }
  | dispatch (thread : ι) (groupId : Bytes) (eventName : InferenceEvent) (event : V) :
      Moved s {
        dispatcher := (s.dispatcher.dispatch groupId eventName).2
        deliveries := Function.update s.deliveries s.calls
          (some ⟨event, (s.dispatcher.dispatch groupId eventName).1, false⟩)
        running := Function.update s.running thread (s.calls :: s.running thread)
        calls := s.calls + 1
        trace := s.trace ++ [.dispatch s.calls groupId eventName event] }
  | invoke (call : ℕ) (event : V) (callback : C) (callbacks : List C) :
      s.deliveries call = some ⟨event, callback :: callbacks, false⟩ →
      Moved s { s with
        deliveries := Function.update s.deliveries call (some ⟨event, callbacks, true⟩)
        trace := s.trace ++ [.invoke call callback event] }
  | returned (call : ℕ) (event : V) (callbacks : List C) :
      s.deliveries call = some ⟨event, callbacks, true⟩ →
      Moved s { s with
        deliveries := Function.update s.deliveries call (some ⟨event, callbacks, false⟩) }
  | finish (thread : ι) (call : ℕ) (event : V) :
      s.deliveries call = some ⟨event, [], false⟩ →
      Moved s { s with
        deliveries := Function.update s.deliveries call none
        running := Function.update s.running thread (s.running thread).tail
        trace := s.trace ++ [.finish call] }

namespace State

omit [DecidableEq ι] in
theorem top_eq_some {thread : ι} {call : ℕ} {delivery : Delivery C V} :
    s.top thread = some (call, delivery) ↔
      (s.running thread).head? = some call ∧ s.deliveries call = some delivery := by
  simp [top, Option.bind_eq_some_iff]

theorem moved_of_step {l : Label ι C V} (h : s.step l = some s') : Moved s s' := by
  cases l with
  | call thread c =>
    rw [step] at h
    split_ifs at h with hfree
    cases c with
    | listen groupId listener events =>
      obtain ⟨dispatcher, hok, h⟩ := Option.bind_eq_some_iff.mp h
      cases h
      exact .listen groupId ⟨listener, events⟩ dispatcher (Outcome.toOption_eq_some.mp hok)
    | unlisten groupId =>
      obtain ⟨dispatcher, hok, h⟩ := Option.bind_eq_some_iff.mp h
      cases h
      exact .unlisten groupId dispatcher (Outcome.toOption_eq_some.mp hok)
    | dispatch groupId eventName event =>
      cases h
      exact .dispatch thread groupId eventName event
  | invoke thread =>
    rw [step, invoke] at h
    split at h
    · rename_i call event callback callbacks htop
      cases h
      exact .invoke call event callback callbacks (top_eq_some.mp htop).2
    · cases h
  | returned thread =>
    rw [step, returned] at h
    split at h
    · rename_i call event callbacks htop
      cases h
      exact .returned call event callbacks (top_eq_some.mp htop).2
    · cases h
  | finish thread =>
    rw [step, finish] at h
    split at h
    · rename_i call event htop
      cases h
      exact .finish thread call event (top_eq_some.mp htop).2
    · cases h

end State

end ZInferLM.Events
