import ZInferLM.Events.Dispatcher
import ZInferLM.Library.Trace

/-! # What is delivered

The listeners of a group are those that were registered since the group was last taken out. A call
of `dispatch` delivers its event to the listeners that its group had in the critical section, in
their order, whatever is registered or taken out while it does so. -/

namespace ZInferLM.Events
open Library Library.Multimap
open Library.Utf8 (Bytes)

variable {C V ι : Type}

/-- The listeners of a group behind an action. -/
def register (groupId : Bytes) (group : List (Listener C)) : Action C V → List (Listener C)
  | .listen g listener => if g = groupId then group ++ [listener] else group
  | .unlisten g => if g = groupId then [] else group
  | .dispatch _ _ _ _ | .invoke _ _ _ | .finish _ => group

def registered (trace : List (Action C V)) (groupId : Bytes) : List (Listener C) :=
  trace.foldl (register groupId) []

/-- What a `dispatch` has to deliver behind a trace. -/
def due (trace : List (Action C V)) (groupId : Bytes) (eventName : InferenceEvent) (event : V) :
    List (C × V) :=
  ((registered trace groupId).filter fun it => eventName ∈ it.events).map
    fun it => (it.callback, event)

/-- The callback that a call invokes, with the event it gets. -/
def Action.invocation (call : ℕ) : Action C V → Option (C × V)
  | .invoke c callback event => if c = call then some (callback, event) else none
  | .listen _ _ | .unlisten _ | .dispatch _ _ _ _ | .finish _ => none

def delivered (call : ℕ) (trace : List (Action C V)) : List (C × V) :=
  trace.filterMap (Action.invocation call)

/-- What a call has still to deliver. -/
def outstanding : Option (Delivery C V) → List (C × V)
  | none => []
  | some d => d.callbacks.map fun callback => (callback, d.event)

theorem registered_concat (trace : List (Action C V)) (a : Action C V) (groupId : Bytes) :
    registered (trace ++ [a]) groupId = register groupId (registered trace groupId) a := by
  rw [registered, List.foldl_append]
  rfl

theorem delivered_concat (call : ℕ) (trace : List (Action C V)) (a : Action C V) :
    delivered call (trace ++ [a]) = delivered call trace ++ (a.invocation call).toList := by
  rw [delivered, List.filterMap_append]
  cases h : a.invocation call <;> simp [delivered, h]

def Action.number : Action C V → Option ℕ
  | .dispatch call _ _ _ | .invoke call _ _ | .finish call => some call
  | .listen _ _ | .unlisten _ => none

theorem delivered_eq_nil {call : ℕ} {trace : List (Action C V)}
    (h : ∀ a ∈ trace, a.number ≠ some call) : delivered call trace = [] := by
  rw [delivered, List.filterMap_eq_nil_iff]
  intro a ha
  cases a with
  | invoke c callback event => exact if_neg fun hc => h _ ha (by rw [hc]; rfl)
  | _ => rfl

/-- The dispatcher and the calls in progress are what the trace says. -/
structure Consistent (s : State ι C V) : Prop where
  counted : s.dispatcher.Counted
  registry : ∀ groupId, values s.dispatcher.listeners groupId = registered s.trace groupId
  numbered : ∀ a ∈ s.trace, ∀ call, a.number = some call → call < s.calls
  fresh : ∀ call, s.calls ≤ call → s.deliveries call = none
  opened : ∀ call < s.calls, ∃ groupId eventName event,
    .dispatch call groupId eventName event ∈ s.trace
  finished : ∀ call, .finish call ∈ s.trace → s.deliveries call = none
  delivered : ∀ before call groupId eventName event after,
    s.trace = before ++ .dispatch call groupId eventName event :: after →
      delivered call before = [] ∧
        delivered call after ++ outstanding (s.deliveries call) =
          due before groupId eventName event

theorem initial_consistent : Consistent (State.initial : State ι C V) where
  counted := EventDispatcher.new_counted
  registry _ := rfl
  numbered a ha := absurd ha List.not_mem_nil
  fresh _ _ := rfl
  opened call hcall := absurd hcall (Nat.not_lt_zero call)
  finished call hcall := absurd hcall List.not_mem_nil
  delivered before call groupId eventName event after h := by
    cases before <;> cases h

section Steps
variable {s : State ι C V}

/-- A step keeps the invariant when its action opens no call, does to the listeners what the
dispatcher does, and delivers what is no longer outstanding. -/
theorem Consistent.append (h : Consistent s) {a : Action C V} {dispatcher : EventDispatcher C}
    {deliveries : ℕ → Option (Delivery C V)} (running : ι → List ℕ)
    (hopens : ∀ call groupId eventName event, a ≠ .dispatch call groupId eventName event)
    (hnumber : ∀ call, a.number = some call → call < s.calls)
    (hcounted : dispatcher.Counted)
    (hregistry : ∀ groupId, values dispatcher.listeners groupId =
      register groupId (registered s.trace groupId) a)
    (hnone : ∀ call, s.deliveries call = none → deliveries call = none)
    (hfinish : ∀ call, a = .finish call → deliveries call = none)
    (hdelivers : ∀ call, (a.invocation call).toList ++ outstanding (deliveries call) =
      outstanding (s.deliveries call)) :
    Consistent { s with dispatcher, deliveries, running, trace := s.trace ++ [a] } where
  counted := hcounted
  registry groupId := by
    rw [registered_concat]
    exact hregistry groupId
  numbered b hb call hcall := by
    rcases List.mem_append.mp hb with hb | hb
    · exact h.numbered b hb call hcall
    · rw [List.mem_singleton.mp hb] at hcall
      exact hnumber call hcall
  fresh call hcall := hnone call (h.fresh call hcall)
  opened call hcall := by
    obtain ⟨groupId, eventName, event, hmem⟩ := h.opened call hcall
    exact ⟨groupId, eventName, event, List.mem_append_left _ hmem⟩
  finished call hcall := by
    rcases List.mem_append.mp hcall with hcall | hcall
    · exact hnone call (h.finished call hcall)
    · exact hfinish call (List.mem_singleton.mp hcall).symm
  delivered before call groupId eventName event after hcut := by
    rcases concat_eq_append_cons_iff.mp hcut with ⟨-, ha, -⟩ | ⟨after', rfl, htrace⟩
    · exact absurd ha.symm (hopens call groupId eventName event)
    · obtain ⟨hbefore, hdue⟩ := h.delivered before call groupId eventName event after' htrace
      refine ⟨hbefore, ?_⟩
      rw [delivered_concat, List.append_assoc]
      simp only [hdelivers, hdue]

theorem Consistent.listen (h : Consistent s) {groupId : Bytes} {listener : Listener C}
    {dispatcher : EventDispatcher C}
    (hlisten : s.dispatcher.listen groupId listener.callback listener.events = .ok dispatcher) :
    Consistent { s with dispatcher, trace := s.trace ++ [.listen groupId listener] } := by
  obtain ⟨hcounted, hlisteners⟩ := h.counted.listen hlisten
  refine h.append (a := .listen groupId listener) s.running nofun nofun hcounted (fun g => ?_)
    (fun _ => id) nofun fun _ => rfl
  rw [hlisteners, register]
  split_ifs with hg
  · rw [hg, values_insert_self, h.registry]
  · rw [values_insert_of_ne (Ne.symm hg), h.registry]

theorem Consistent.unlisten (h : Consistent s) {groupId : Bytes} {dispatcher : EventDispatcher C}
    (hunlisten : s.dispatcher.unlisten groupId = .ok dispatcher) :
    Consistent { s with dispatcher, trace := s.trace ++ [.unlisten groupId] } := by
  obtain ⟨dispatcher', hok, hcounted, hvalues⟩ := h.counted.unlisten groupId
  cases hunlisten.symm.trans hok
  refine h.append (a := .unlisten groupId) s.running nofun nofun hcounted (fun g => ?_)
    (fun _ => id) nofun fun _ => rfl
  rw [hvalues, h.registry]
  exact if_congr eq_comm rfl rfl

theorem update_eq_none {deliveries : ℕ → Option (Delivery C V)} {call c : ℕ} {d : Delivery C V}
    (hcall : deliveries call = some d) (d' : Option (Delivery C V)) (hc : deliveries c = none) :
    Function.update deliveries call d' c = none := by
  have hne : c ≠ call := by
    rintro rfl
    cases hcall.symm.trans hc
  rw [Function.update_of_ne hne, hc]

theorem Consistent.lt_calls (h : Consistent s) {call : ℕ} {d : Delivery C V}
    (hcall : s.deliveries call = some d) : call < s.calls := by
  by_contra hge
  rw [h.fresh call (not_lt.mp hge)] at hcall
  cases hcall

theorem Consistent.invoke (h : Consistent s) {call : ℕ} {event : V} {callback : C}
    {callbacks : List C} (hcall : s.deliveries call = some ⟨event, callback :: callbacks, false⟩) :
    Consistent { s with
      deliveries := Function.update s.deliveries call (some ⟨event, callbacks, true⟩)
      trace := s.trace ++ [.invoke call callback event] } := by
  refine h.append (a := .invoke call callback event) s.running nofun ?_ h.counted h.registry
    (fun c => update_eq_none hcall _) nofun ?_
  · rintro _ ⟨⟩
    exact h.lt_calls hcall
  · intro c
    by_cases hc : c = call
    · rw [hc, Function.update_self, hcall, Action.invocation, if_pos rfl]
      rfl
    · rw [Function.update_of_ne hc, Action.invocation, if_neg (Ne.symm hc)]
      rfl

theorem Consistent.finish (h : Consistent s) {call : ℕ} {event : V} (running : ι → List ℕ)
    (hcall : s.deliveries call = some ⟨event, [], false⟩) :
    Consistent { s with
      deliveries := Function.update s.deliveries call none
      running, trace := s.trace ++ [.finish call] } := by
  refine h.append (a := .finish call) running nofun ?_ h.counted h.registry
    (fun c => update_eq_none hcall _) ?_ ?_
  · rintro _ ⟨⟩
    exact h.lt_calls hcall
  · rintro _ ⟨⟩
    exact Function.update_self _ _ _
  · intro c
    by_cases hc : c = call
    · rw [hc, Function.update_self, hcall]
      rfl
    · rw [Function.update_of_ne hc]
      rfl

/-- What is outstanding does not depend on where the loop is. -/
theorem Consistent.returned (h : Consistent s) {call : ℕ} {event : V} {callbacks : List C}
    (hcall : s.deliveries call = some ⟨event, callbacks, true⟩) :
    Consistent { s with
      deliveries := Function.update s.deliveries call (some ⟨event, callbacks, false⟩) } := by
  have hsame : ∀ c, outstanding (Function.update s.deliveries call
      (some ⟨event, callbacks, false⟩) c) = outstanding (s.deliveries c) := by
    intro c
    by_cases hc : c = call
    · rw [hc, Function.update_self, hcall]
      rfl
    · rw [Function.update_of_ne hc]
  exact { h with
    fresh := fun c hc => update_eq_none hcall _ (h.fresh c hc)
    finished := fun c hc => update_eq_none hcall _ (h.finished c hc)
    delivered := fun before c groupId eventName event' after hcut => by
      rw [hsame]
      exact h.delivered before c groupId eventName event' after hcut }

theorem Consistent.dispatch (h : Consistent s) (groupId : Bytes) (eventName : InferenceEvent)
    (event : V) (running : ι → List ℕ) :
    Consistent {
      dispatcher := (s.dispatcher.dispatch groupId eventName).2
      deliveries := Function.update s.deliveries s.calls
        (some ⟨event, (s.dispatcher.dispatch groupId eventName).1, false⟩)
      running
      calls := s.calls + 1
      trace := s.trace ++ [.dispatch s.calls groupId eventName event] } where
  counted := h.counted.dispatch groupId eventName
  registry g := by
    rw [registered_concat]
    exact (values_subscript _ _ _).trans (h.registry g)
  numbered a ha call hcall := by
    rcases List.mem_append.mp ha with ha | ha
    · exact (h.numbered a ha call hcall).trans (Nat.lt_succ_self _)
    · rw [List.mem_singleton.mp ha] at hcall
      cases hcall
      exact Nat.lt_succ_self _
  fresh call hcall := by
    have hne : call ≠ s.calls := by
      rintro rfl
      exact Nat.not_succ_le_self _ hcall
    exact (Function.update_of_ne hne _ _).trans (h.fresh call (Nat.le_of_succ_le hcall))
  opened call hcall := by
    rcases Nat.lt_succ_iff_lt_or_eq.mp hcall with hcall | rfl
    · obtain ⟨g, e, ev, hmem⟩ := h.opened call hcall
      exact ⟨g, e, ev, List.mem_append_left _ hmem⟩
    · exact ⟨groupId, eventName, event, List.mem_append_right _ List.mem_cons_self⟩
  finished call hcall := by
    rcases List.mem_append.mp hcall with hcall | hcall
    · have hne := (h.numbered _ hcall call rfl).ne
      exact (Function.update_of_ne hne _ _).trans (h.finished call hcall)
    · cases List.mem_singleton.mp hcall
  delivered before call g e ev after hcut := by
    rcases concat_eq_append_cons_iff.mp hcut with ⟨rfl, ha, rfl⟩ | ⟨after', rfl, htrace⟩
    · -- the new call has delivered nothing, and its group is the one of the critical section
      cases ha
      refine ⟨delivered_eq_nil fun a ha hnumber =>
        (h.numbered a ha s.calls hnumber).ne rfl, ?_⟩
      dsimp only
      rw [Function.update_self, EventDispatcher.dispatch_fst, h.registry]
      exact List.map_map
    · have hmem : Action.dispatch call g e ev ∈ s.trace := by
        rw [htrace]
        exact List.mem_append_right _ List.mem_cons_self
      have hne := (h.numbered _ hmem call rfl).ne
      obtain ⟨hbefore, hdue⟩ := h.delivered before call g e ev after' htrace
      refine ⟨hbefore, ?_⟩
      dsimp only
      rw [delivered_concat, Function.update_of_ne hne]
      exact (congrArg (· ++ _) (List.append_nil _)).trans hdue

end Steps

variable [DecidableEq ι] {s s' : State ι C V}

theorem Consistent.step (h : Consistent s) {l : Label ι C V} (hstep : s.step l = some s') :
    Consistent s' := by
  cases State.moved_of_step hstep with
  | listen groupId listener dispatcher hok => exact h.listen hok
  | unlisten groupId dispatcher hok => exact h.unlisten hok
  | dispatch thread groupId eventName event => exact h.dispatch groupId eventName event _
  | invoke call event callback callbacks hcall => exact h.invoke hcall
  | returned call event callbacks hcall => exact h.returned hcall
  | finish thread call event hcall => exact h.finish _ hcall

theorem consistent_of_reachable (h : (system ι C V).Reachable s) : Consistent s :=
  h.invariant initial_consistent fun _ _ _ hstep hs => hs.step hstep

/-- A free thread can make any call while the counter has room for one more. -/
theorem Consistent.exists_call (h : Consistent s) {thread : ι} (hfree : s.free thread = true)
    (hroom : size s.dispatcher.listeners + 1 < 2 ^ 31) (c : Call C V) :
    ∃ s', s.step (.call thread c) = some s' := by
  rw [State.step, if_pos hfree]
  cases c with
  | listen groupId listener events =>
    obtain ⟨dispatcher, hok⟩ := h.counted.exists_listen groupId listener events hroom
    rw [State.perform, hok]
    exact ⟨_, rfl⟩
  | unlisten groupId =>
    obtain ⟨dispatcher, hok, -⟩ := h.counted.unlisten groupId
    rw [State.perform, hok]
    exact ⟨_, rfl⟩
  | dispatch groupId eventName event => exact ⟨_, rfl⟩

/-- The steps of a `dispatch` whose callbacks do nothing but return. -/
def loopSteps (thread : ι) (callbacks : List C) : List (Label ι C V) :=
  callbacks.flatMap (fun _ => [.invoke thread, .returned thread]) ++ [.finish thread]

/-- The loop of `dispatch` ends, callback by callback. -/
theorem exists_finish {thread : ι} {call : ℕ} {event : V} {callbacks : List C}
    (htop : s.top thread = some (call, ⟨event, callbacks, false⟩)) :
    ∃ s', (system ι C V).runFrom s (loopSteps thread callbacks) = some s' ∧
      .finish call ∈ s'.trace := by
  induction callbacks generalizing s with
  | nil =>
    have hfinish : s.step (.finish thread) = some { s with
        deliveries := Function.update s.deliveries call none
        running := Function.update s.running thread (s.running thread).tail
        trace := s.trace ++ [.finish call] } := by
      rw [State.step, State.finish, htop]
    exact ⟨_, Transitions.runFrom_cons.mpr ⟨_, hfinish, rfl⟩,
      List.mem_append_right _ List.mem_cons_self⟩
  | cons callback callbacks ih =>
    have hhead := (State.top_eq_some.mp htop).1
    have hinvoke : s.step (.invoke thread) = some { s with
        deliveries := Function.update s.deliveries call (some ⟨event, callbacks, true⟩)
        trace := s.trace ++ [.invoke call callback event] } := by
      rw [State.step, State.invoke, htop]
    generalize hs₁ : ({ s with
        deliveries := Function.update s.deliveries call (some ⟨event, callbacks, true⟩)
        trace := s.trace ++ [.invoke call callback event] } : State ι C V) = s₁ at hinvoke
    have htop₁ : s₁.top thread = some (call, ⟨event, callbacks, true⟩) := by
      rw [← hs₁, State.top_eq_some]
      exact ⟨hhead, Function.update_self _ _ _⟩
    have hreturned : s₁.step (.returned thread) = some { s₁ with
        deliveries := Function.update s₁.deliveries call (some ⟨event, callbacks, false⟩) } := by
      rw [State.step, State.returned, htop₁]
    have htop₂ : State.top { s₁ with
        deliveries := Function.update s₁.deliveries call (some ⟨event, callbacks, false⟩) } thread =
          some (call, ⟨event, callbacks, false⟩) := by
      rw [State.top_eq_some]
      exact ⟨(State.top_eq_some.mp htop₁).1, Function.update_self _ _ _⟩
    obtain ⟨s', hrun, hmem⟩ := ih htop₂
    exact ⟨s', Transitions.runFrom_cons.mpr ⟨s₁, hinvoke,
      Transitions.runFrom_cons.mpr ⟨_, hreturned, hrun⟩⟩, hmem⟩

/-- What listeners and threads may rely on. -/
structure DeliveryContract (s : State ι C V) : Prop where
  /-- A call of `dispatch` delivers, in order, what is due in its critical section: a front of it
  while it runs, and all of it when it has returned. -/
  exact : ∀ before call groupId eventName event after,
    s.trace = before ++ .dispatch call groupId eventName event :: after →
      delivered call before = [] ∧
        delivered call after <+: due before groupId eventName event ∧
        (.finish call ∈ s.trace → delivered call after = due before groupId eventName event)
  /-- Nothing else is delivered. -/
  origin : ∀ call callback event, .invoke call callback event ∈ s.trace →
    ∃ groupId eventName event', .dispatch call groupId eventName event' ∈ s.trace
  count : s.dispatcher.callbacksCount = size s.dispatcher.listeners
  /-- A thread outside the loop of `dispatch` can make any call, up to the largest `int`. -/
  accepts : ∀ thread, s.free thread = true → size s.dispatcher.listeners + 1 < 2 ^ 31 →
    ∀ c, ∃ s', s.step (.call thread c) = some s'
  /-- A call of `dispatch` returns when its callbacks do. -/
  returns : ∀ thread call event callbacks,
    s.top thread = some (call, ⟨event, callbacks, false⟩) →
      ∃ s', (system ι C V).runFrom s (loopSteps thread callbacks) = some s' ∧
        .finish call ∈ s'.trace

/-- Whatever the threads and the callbacks do, the contract is kept. -/
theorem deliveryContract {labels : List (Label ι C V)}
    (h : (system ι C V).run labels = some s) : DeliveryContract s := by
  have hs : Consistent s := consistent_of_reachable ⟨labels, h⟩
  constructor
  · intro before call groupId eventName event after hcut
    obtain ⟨hbefore, hdue⟩ := hs.delivered before call groupId eventName event after hcut
    refine ⟨hbefore, ⟨_, hdue⟩, fun hfinish => ?_⟩
    rw [hs.finished call hfinish] at hdue
    exact (List.append_nil _).symm.trans hdue
  · intro call callback event hmem
    exact hs.opened call (hs.numbered _ hmem call rfl)
  · exact hs.counted.count
  · intro thread hfree hroom c
    exact hs.exists_call hfree hroom c
  · intro thread call event callbacks htop
    exact exists_finish htop

/-- While the second thread delivers an event, its first callback takes the group out and the first
thread puts a listener in. -/
theorem deliveryContract_unlisten : ∃ s, (system ℕ ℕ String).run
      [.call 0 (.listen [103] 7 {.tokenGenerated}),
        .call 0 (.listen [103] 8 {.tokenGenerated, .generationCompleted}),
        .call 0 (.listen [104] 9 {.tokenGenerated}),
        .call 1 (.dispatch [103] .tokenGenerated "token"), .invoke 1, .call 1 (.unlisten [103]),
        .call 0 (.listen [103] 10 {.tokenGenerated}), .returned 1, .invoke 1, .returned 1,
        .finish 1] = some s ∧
    DeliveryContract s ∧ delivered 0 s.trace = [(7, "token"), (8, "token")] ∧
    s.dispatcher.callbacksCount = 2 := by
  have hrun : ∃ s, (system ℕ ℕ String).run
      [.call 0 (.listen [103] 7 {.tokenGenerated}),
        .call 0 (.listen [103] 8 {.tokenGenerated, .generationCompleted}),
        .call 0 (.listen [104] 9 {.tokenGenerated}),
        .call 1 (.dispatch [103] .tokenGenerated "token"), .invoke 1, .call 1 (.unlisten [103]),
        .call 0 (.listen [103] 10 {.tokenGenerated}), .returned 1, .invoke 1, .returned 1,
        .finish 1] = some s ∧
      delivered 0 s.trace = [(7, "token"), (8, "token")] ∧ s.dispatcher.callbacksCount = 2 :=
    ⟨_, rfl, rfl, rfl⟩
  obtain ⟨s, hs, hdelivered, hcount⟩ := hrun
  exact ⟨s, hs, deliveryContract hs, hdelivered, hcount⟩

end ZInferLM.Events
