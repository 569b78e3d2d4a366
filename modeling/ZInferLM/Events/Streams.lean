import ZInferLM.Events.Delivery

/-! # What one listener hears

All events come from one thread, which dispatches outside the callbacks. Then one call of `dispatch`
follows the other, and a listener hears the events of its own group in their order, whatever other
threads and groups do in between. -/

namespace ZInferLM.Events
open Library Library.Multimap
open Library.Utf8 (Bytes)

variable {C V ι : Type} [DecidableEq C]

/-- The event that an invocation brings to a callback. -/
def broughtTo (callback : C) (p : C × V) : Option V := if p.1 = callback then some p.2 else none

def Action.bringsTo (callback : C) : Action C V → Option V
  | .invoke _ c event => broughtTo callback (c, event)
  | .listen _ _ | .unlisten _ | .dispatch _ _ _ _ | .finish _ => none

def heard (callback : C) (trace : List (Action C V)) : List V :=
  trace.filterMap (Action.bringsTo callback)

/-- What a callback is to hear of an action while its group has these listeners. -/
def owes (groupId : Bytes) (callback : C) (group : List (Listener C)) : Action C V → List V
  | .dispatch _ g eventName event =>
    if g = groupId then
      (group.filter fun it => eventName ∈ it.events ∧ it.callback = callback).map fun _ => event
    else []
  | .listen _ _ | .unlisten _ | .invoke _ _ _ | .finish _ => []

/-- What a callback is to hear of a trace. -/
def stream (groupId : Bytes) (callback : C) : List (Listener C) → List (Action C V) → List V
  | _, [] => []
  | group, a :: rest =>
    owes groupId callback group a ++ stream groupId callback (register groupId group a) rest

/-- The events of a group of the given kinds, up to where the group is taken out. -/
def hearable (groupId : Bytes) (events : Finset InferenceEvent) : List (Action C V) → List V
  | [] => []
  | .unlisten g :: rest => if g = groupId then [] else hearable groupId events rest
  | .dispatch _ g eventName event :: rest =>
    if g = groupId ∧ eventName ∈ events then event :: hearable groupId events rest
    else hearable groupId events rest
  | .listen _ _ :: rest | .invoke _ _ _ :: rest | .finish _ :: rest => hearable groupId events rest

theorem heard_concat (callback : C) (trace : List (Action C V)) (a : Action C V) :
    heard callback (trace ++ [a]) = heard callback trace ++ (a.bringsTo callback).toList := by
  rw [heard, List.filterMap_append]
  cases h : a.bringsTo callback <;> simp [heard, h]

theorem stream_append (groupId : Bytes) (callback : C) (group : List (Listener C))
    (before after : List (Action C V)) :
    stream groupId callback group (before ++ after) = stream groupId callback group before ++
      stream groupId callback (before.foldl (register groupId) group) after := by
  induction before generalizing group with
  | nil => rfl
  | cons a before ih =>
    rw [List.cons_append, stream, stream, ih, List.append_assoc, List.foldl_cons]

theorem stream_concat (groupId : Bytes) (callback : C) (trace : List (Action C V))
    (a : Action C V) : stream groupId callback [] (trace ++ [a]) =
      stream groupId callback [] trace ++ owes groupId callback (registered trace groupId) a := by
  rw [stream_append, stream, stream, List.append_nil]
  rfl

/-- The callback is not put in by a trace. -/
def Absent (callback : C) (trace : List (Action C V)) : Prop :=
  ∀ groupId listener, .listen groupId listener ∈ trace → listener.callback ≠ callback

omit [DecidableEq C] in
theorem Absent.of_cons {callback : C} {a : Action C V} {trace : List (Action C V)}
    (h : Absent callback (a :: trace)) : Absent callback trace :=
  fun groupId listener hmem => h groupId listener (List.mem_cons_of_mem a hmem)

def Action.takesOut (groupId : Bytes) : Action C V → Bool
  | .unlisten g => g = groupId
  | .listen _ _ | .dispatch _ _ _ _ | .invoke _ _ _ | .finish _ => false

/-- Apart from taking the group out, an action leaves the listeners with the callback alone. -/
theorem filter_register (groupId : Bytes) {callback : C} (group : List (Listener C))
    {a : Action C V} {trace : List (Action C V)} (h : Absent callback (a :: trace)) :
    (register groupId group a).filter (fun it => it.callback = callback) =
      if a.takesOut groupId then [] else group.filter fun it => it.callback = callback := by
  cases a with
  | listen g listener =>
    have hne := h g listener List.mem_cons_self
    by_cases hg : g = groupId
    · simp [register, Action.takesOut, hg, hne]
    · simp [register, Action.takesOut, hg]
  | unlisten g =>
    by_cases hg : g = groupId
    · simp [register, Action.takesOut, hg]
    · simp [register, Action.takesOut, hg]
  | _ => rfl

theorem owes_of_filter {groupId : Bytes} {callback : C} {group listeners : List (Listener C)}
    (h : group.filter (fun it => it.callback = callback) = listeners) (call : ℕ) (g : Bytes)
    (eventName : InferenceEvent) (event : V) :
    owes groupId callback group (.dispatch call g eventName event) =
      if g = groupId then (listeners.filter fun it => eventName ∈ it.events).map fun _ => event
      else [] := by
  rw [owes, ← h, List.filter_filter]
  simp only [Bool.decide_and]

theorem stream_of_absent {groupId : Bytes} {callback : C} {group : List (Listener C)}
    {trace : List (Action C V)} (h : Absent callback trace)
    (hgroup : group.filter (fun it => it.callback = callback) = []) :
    stream groupId callback group trace = [] := by
  induction trace generalizing group with
  | nil => rfl
  | cons a trace ih =>
    have hnext := filter_register groupId group h
    rw [hgroup, ite_self] at hnext
    rw [stream, ih h.of_cons hnext, List.append_nil]
    cases a with
    | dispatch call g eventName event => simp [owes_of_filter hgroup]
    | _ => rfl

/-- With one registration the events of its kinds are, until the group is taken out. -/
theorem stream_of_listener {groupId : Bytes} {listener : Listener C} {group : List (Listener C)}
    {trace : List (Action C V)} (h : Absent listener.callback trace)
    (hgroup : group.filter (fun it => it.callback = listener.callback) = [listener]) :
    stream groupId listener.callback group trace = hearable groupId listener.events trace := by
  induction trace generalizing group with
  | nil => rfl
  | cons a trace ih =>
    have hnext := filter_register groupId group h
    rw [hgroup] at hnext
    rw [stream]
    cases a with
    | unlisten g =>
      by_cases hg : g = groupId
      · simp only [Action.takesOut, hg, decide_true, if_true] at hnext
        rw [hg, stream_of_absent h.of_cons hnext, hearable, if_pos rfl]
        rfl
      · simp only [Action.takesOut, hg, decide_false, Bool.false_eq_true, if_false] at hnext
        rw [ih h.of_cons hnext, hearable, if_neg hg]
        rfl
    | dispatch call g eventName event =>
      rw [ih h.of_cons hnext, owes_of_filter hgroup, hearable]
      by_cases hg : g = groupId
      · by_cases hevent : eventName ∈ listener.events
        · simp [hg, hevent]
        · simp [hg, hevent]
      · simp [hg]
    | _ => exact ih h.of_cons hnext

variable [DecidableEq ι] {worker : ι} {s s' : State ι C V}

/-- Only the worker dispatches, and not from a callback. -/
def Sequential (worker : ι) (s : State ι C V) : Label ι C V → Prop
  | .call thread (.dispatch _ _ _) => thread = worker ∧ s.running thread = []
  | _ => True

instance (worker : ι) (s : State ι C V) : (l : Label ι C V) → Decidable (Sequential worker s l)
  | .call _ (.dispatch _ _ _) => inferInstanceAs (Decidable (_ ∧ _))
  | .call _ (.listen _ _ _) => isTrue trivial
  | .call _ (.unlisten _) => isTrue trivial
  | .invoke _ => isTrue trivial
  | .returned _ => isTrue trivial
  | .finish _ => isTrue trivial

/-- No thread but the worker is in a call of `dispatch`, and the worker in one at most. -/
inductive Alone (worker : ι) (s : State ι C V) : Option (Delivery C V) → Prop where
  | idle : s.running = (fun _ => []) → s.deliveries = (fun _ => none) → Alone worker s none
  | busy (call : ℕ) (delivery : Delivery C V) :
      s.running = Function.update (fun _ => []) worker [call] →
      s.deliveries = Function.update (fun _ => none) call (some delivery) →
      Alone worker s (some delivery)

omit [DecidableEq C] in
theorem Alone.of_top {current : Option (Delivery C V)} (h : Alone worker s current) {thread : ι}
    {call : ℕ} {delivery : Delivery C V} (htop : s.top thread = some (call, delivery)) :
    thread = worker ∧ current = some delivery ∧
      s.running = Function.update (fun _ => []) worker [call] ∧
      s.deliveries = Function.update (fun _ => none) call (some delivery) := by
  rw [State.top_eq_some] at htop
  cases h with
  | idle hrunning hdeliveries => simp [hrunning] at htop
  | busy call' delivery' hrunning hdeliveries =>
    rw [hrunning, hdeliveries] at htop
    by_cases hthread : thread = worker
    · rw [hthread, Function.update_self, List.head?_cons, Option.some.injEq] at htop
      obtain ⟨rfl, hdelivery⟩ := htop
      rw [Function.update_self] at hdelivery
      exact ⟨hthread, hdelivery, hrunning, hdelivery ▸ hdeliveries⟩
    · rw [Function.update_of_ne hthread] at htop
      cases htop.1

omit [DecidableEq C] in
theorem Alone.of_running {current : Option (Delivery C V)} (h : Alone worker s current)
    (hrunning : s.running worker = []) :
    current = none ∧ s.running = (fun _ => []) ∧ s.deliveries = fun _ => none := by
  cases h with
  | idle hidle hdeliveries => exact ⟨rfl, hidle, hdeliveries⟩
  | busy call delivery hbusy _ =>
    rw [hbusy, Function.update_self] at hrunning
    cases hrunning

omit [DecidableEq C] in
theorem Alone.of_eq {current : Option (Delivery C V)} (h : Alone worker s current)
    (hrunning : s'.running = s.running) (hdeliveries : s'.deliveries = s.deliveries) :
    Alone worker s' current := by
  cases h with
  | idle hidle hnone => exact .idle (hrunning.trans hidle) (hdeliveries.trans hnone)
  | busy call delivery hbusy hsome =>
    exact .busy call delivery (hrunning.trans hbusy) (hdeliveries.trans hsome)

def OnlyIn (groupId : Bytes) (callback : C) (trace : List (Action C V)) : Prop :=
  ∀ g listener, .listen g listener ∈ trace → listener.callback = callback → g = groupId

omit [DecidableEq C] in
theorem mem_registered {trace : List (Action C V)} {groupId : Bytes} {listener : Listener C}
    (h : listener ∈ registered trace groupId) : .listen groupId listener ∈ trace := by
  induction trace using List.reverseRecOn with
  | nil => cases h
  | append_singleton trace a ih =>
    rw [registered_concat] at h
    rw [List.mem_append, List.mem_singleton]
    cases a with
    | listen g listener' =>
      rw [register] at h
      split_ifs at h with hg
      · rw [List.mem_append, List.mem_singleton] at h
        rcases h with h | rfl
        · exact .inl (ih h)
        · exact .inr (by rw [hg])
      · exact .inl (ih h)
    | unlisten g =>
      rw [register] at h
      split_ifs at h
      · cases h
      · exact .inl (ih h)
    | _ => exact .inl (ih h)

theorem stream_of_registered {groupId : Bytes} {listener : Listener C}
    {before after : List (Action C V)} (hbefore : Absent listener.callback before)
    (hafter : Absent listener.callback after) :
    stream groupId listener.callback [] (before ++ .listen groupId listener :: after) =
      hearable groupId listener.events after := by
  have hnone : (registered before groupId).filter (fun it => it.callback = listener.callback) =
      [] := by
    rw [List.filter_eq_nil_iff]
    intro it hit
    simpa using hbefore groupId it (mem_registered hit)
  rw [stream_append, stream_of_absent hbefore rfl, stream, owes, register, if_pos rfl,
    stream_of_listener hafter]
  · rfl
  · rw [List.filter_append]
    exact (congrArg (· ++ _) hnone).trans (by simp)

/-- What a call delivers to the callback is what it owes. -/
theorem brought_eq_owes {groupId : Bytes} {callback : C} {trace : List (Action C V)}
    (h : OnlyIn groupId callback trace) (call : ℕ) (g : Bytes) (eventName : InferenceEvent)
    (event : V) : (due trace g eventName event).filterMap (broughtTo callback) =
      owes groupId callback (registered trace groupId) (.dispatch call g eventName event) := by
  rw [due, List.filterMap_map, owes]
  split_ifs with hg
  · rw [hg]
    generalize registered trace groupId = group
    induction group with
    | nil => rfl
    | cons it group ih =>
      by_cases hevent : eventName ∈ it.events
      · by_cases hcallback : it.callback = callback
        · simpa [hevent, hcallback, broughtTo] using ih
        · simpa [hevent, hcallback, broughtTo] using ih
      · simpa [hevent] using ih
  · rw [List.filterMap_eq_nil_iff]
    intro it hit
    rw [Function.comp_apply, broughtTo, if_neg]
    intro hcallback
    exact hg (h g it (mem_registered (List.mem_of_mem_filter hit)) hcallback)

def Action.putsIn (callback : C) : Action C V → Bool
  | .listen _ listener => listener.callback = callback
  | .unlisten _ | .dispatch _ _ _ _ | .invoke _ _ _ | .finish _ => false

theorem countP_registered (callback : C) (trace : List (Action C V)) (groupId : Bytes) :
    (registered trace groupId).countP (fun it => it.callback = callback) ≤
      trace.countP (Action.putsIn callback) := by
  induction trace using List.reverseRecOn with
  | nil => exact Nat.le_refl 0
  | append_singleton trace a ih =>
    rw [registered_concat, List.countP_append, List.countP_singleton]
    cases a with
    | listen g listener =>
      by_cases hg : g = groupId
      · rw [register, if_pos hg, List.countP_append, List.countP_singleton]
        exact Nat.add_le_add_right ih _
      · rw [register, if_neg hg]
        exact ih.trans (Nat.le_add_right _ _)
    | unlisten g =>
      by_cases hg : g = groupId
      · rw [register, if_pos hg]
        exact Nat.zero_le _
      · rw [register, if_neg hg]
        exact ih.trans (Nat.le_add_right _ _)
    | _ => exact ih.trans (Nat.le_add_right _ _)

theorem length_brought (callback : C) (ps : List (C × V)) :
    (ps.filterMap (broughtTo callback)).length = ps.countP fun p => p.1 = callback := by
  rw [List.length_filterMap_eq_countP]
  apply List.countP_congr
  intro p _
  by_cases hp : p.1 = callback <;> simp [broughtTo, hp]

/-- What the callback has heard and is about to hear is what it is to hear; a callback that was put in
once is about to hear one event at most. -/
structure InStream (worker : ι) (groupId : Bytes) (callback : C) (s : State ι C V)
    (current : Option (Delivery C V)) : Prop where
  alone : Alone worker s current
  balance : OnlyIn groupId callback s.trace →
    heard callback s.trace ++ (outstanding current).filterMap (broughtTo callback) =
      stream groupId callback [] s.trace
  single : s.trace.countP (Action.putsIn callback) ≤ 1 →
    ((outstanding current).filterMap (broughtTo callback)).length ≤ 1

variable {groupId : Bytes} {callback : C} {current : Option (Delivery C V)}

omit [DecidableEq ι] [DecidableEq C] in
theorem OnlyIn.of_concat {trace : List (Action C V)} {a : Action C V}
    (h : OnlyIn groupId callback (trace ++ [a])) : OnlyIn groupId callback trace :=
  fun g listener hmem => h g listener (List.mem_append_left _ hmem)

omit [DecidableEq ι] in
theorem countP_of_concat {trace : List (Action C V)} {a : Action C V} {n : ℕ}
    (h : (trace ++ [a]).countP (Action.putsIn callback) ≤ n) :
    trace.countP (Action.putsIn callback) ≤ n := by
  rw [List.countP_append] at h
  exact (Nat.le_add_right _ _).trans h

theorem InStream.quiet (h : InStream worker groupId callback s current) {a : Action C V}
    (hrunning : s'.running = s.running) (hdeliveries : s'.deliveries = s.deliveries)
    (htrace : s'.trace = s.trace ++ [a]) (hbrings : a.bringsTo callback = none)
    (howes : ∀ group, owes groupId callback group a = []) :
    InStream worker groupId callback s' current := by
  refine ⟨h.alone.of_eq hrunning hdeliveries, ?_, ?_⟩
  · intro honly
    rw [htrace] at honly ⊢
    rw [heard_concat, hbrings, stream_concat, howes, Option.toList_none, List.append_nil,
      List.append_nil]
    exact h.balance honly.of_concat
  · rw [htrace]
    exact fun honce => h.single (countP_of_concat honce)

theorem InStream.dispatch (h : InStream worker groupId callback s none) (hs : Consistent s)
    (hidle : s.running = fun _ => []) (hnone : s.deliveries = fun _ => none) (g : Bytes)
    (eventName : InferenceEvent) (event : V)
    (hrunning : s'.running = Function.update s.running worker (s.calls :: s.running worker))
    (hdeliveries : s'.deliveries = Function.update s.deliveries s.calls
      (some ⟨event, (s.dispatcher.dispatch g eventName).1, false⟩))
    (htrace : s'.trace = s.trace ++ [.dispatch s.calls g eventName event]) :
    InStream worker groupId callback s'
      (some ⟨event, (s.dispatcher.dispatch g eventName).1, false⟩) := by
  have hdue : outstanding (some ⟨event, (s.dispatcher.dispatch g eventName).1, false⟩) =
      due s.trace g eventName event := by
    rw [outstanding, EventDispatcher.dispatch_fst, hs.registry, List.map_map]
    rfl
  refine ⟨.busy s.calls _ (by rw [hrunning, hidle]) (by rw [hdeliveries, hnone]), ?_, ?_⟩
  · intro honly
    rw [htrace] at honly ⊢
    have hbalance := h.balance honly.of_concat
    rw [outstanding, List.filterMap_nil, List.append_nil] at hbalance
    rw [heard_concat, stream_concat, hdue, brought_eq_owes honly.of_concat s.calls, hbalance]
    exact congrArg (· ++ _) (List.append_nil _)
  · rw [htrace, hdue]
    intro honce
    have hregistered := countP_registered callback s.trace g
    have hfiltered : (due s.trace g eventName event).countP (fun p => p.1 = callback) ≤
        (registered s.trace g).countP fun it => it.callback = callback := by
      rw [due, List.countP_map]
      exact List.filter_sublist.countP_le
    rw [length_brought]
    exact hfiltered.trans (hregistered.trans (countP_of_concat honce))

theorem InStream.step (h : InStream worker groupId callback s current) (hs : Consistent s)
    {l : Label ι C V} (hseq : Sequential worker s l) (hstep : s.step l = some s') :
    ∃ current', InStream worker groupId callback s' current' := by
  cases l with
  | call thread c =>
    rw [State.step] at hstep
    split_ifs at hstep
    cases c with
    | listen g c events =>
      obtain ⟨dispatcher, -, hstep⟩ := Option.bind_eq_some_iff.mp hstep
      cases hstep
      exact ⟨current, h.quiet rfl rfl rfl rfl fun _ => rfl⟩
    | unlisten g =>
      obtain ⟨dispatcher, -, hstep⟩ := Option.bind_eq_some_iff.mp hstep
      cases hstep
      exact ⟨current, h.quiet rfl rfl rfl rfl fun _ => rfl⟩
    | dispatch g eventName event =>
      obtain ⟨rfl, hrunning⟩ := hseq
      obtain ⟨rfl, hidle, hnone⟩ := h.alone.of_running hrunning
      cases hstep
      exact ⟨_, h.dispatch hs hidle hnone g eventName event rfl rfl rfl⟩
  | invoke thread =>
    rw [State.step, State.invoke] at hstep
    split at hstep
    · rename_i call event c callbacks htop
      obtain ⟨-, rfl, hrunning, hdeliveries⟩ := h.alone.of_top htop
      cases hstep
      refine ⟨some ⟨event, callbacks, true⟩, .busy call _ hrunning ?_, ?_, ?_⟩
      · rw [hdeliveries]
        exact Function.update_idem _ _ _
      · intro honly
        have hbalance := h.balance honly.of_concat
        rw [outstanding, List.map_cons, List.filterMap_cons] at hbalance
        rw [heard_concat, stream_concat, owes, List.append_nil, ← hbalance, Action.bringsTo,
          List.append_assoc]
        cases broughtTo callback (c, event) <;> rfl
      · intro honce
        have hsingle := h.single (countP_of_concat honce)
        rw [outstanding, List.map_cons] at hsingle
        exact ((List.sublist_cons_self _ _).filterMap _).length_le.trans hsingle
    · cases hstep
  | returned thread =>
    rw [State.step, State.returned] at hstep
    split at hstep
    · rename_i call event callbacks htop
      obtain ⟨-, rfl, hrunning, hdeliveries⟩ := h.alone.of_top htop
      cases hstep
      refine ⟨some ⟨event, callbacks, false⟩, .busy call _ hrunning ?_, h.balance, h.single⟩
      rw [hdeliveries]
      exact Function.update_idem _ _ _
    · cases hstep
  | finish thread =>
    rw [State.step, State.finish] at hstep
    split at hstep
    · rename_i call event htop
      obtain ⟨rfl, rfl, hrunning, hdeliveries⟩ := h.alone.of_top htop
      cases hstep
      refine ⟨none, .idle ?_ ?_, ?_, fun _ => Nat.zero_le 1⟩
      · change Function.update s.running thread (s.running thread).tail = _
        rw [hrunning, Function.update_self, Function.update_idem]
        exact Function.update_eq_self _ _
      · change Function.update s.deliveries call none = _
        rw [hdeliveries, Function.update_idem]
        exact Function.update_eq_self _ _
      · intro honly
        rw [heard_concat, stream_concat, owes, List.append_nil]
        exact (congrArg (· ++ []) (List.append_nil _)).trans (h.balance honly.of_concat)
    · cases hstep

variable {labels : List (Label ι C V)}

theorem inStream_of_sequential (groupId : Bytes) (callback : C)
    (hseq : (system ι C V).Meets (Sequential worker) .initial labels)
    (hrun : (system ι C V).run labels = some s) :
    ∃ current, InStream worker groupId callback s current := by
  apply Transitions.invariant_of_meets _ (system ι C V).reachable_start _ hseq hrun
  · rintro s l s' hreach hseq hstep ⟨current, h⟩
    exact h.step (consistent_of_reachable hreach) hseq hstep
  · exact ⟨none, .idle rfl rfl, fun _ => rfl, fun _ => Nat.zero_le 1⟩

omit [DecidableEq C] [DecidableEq ι] in
/-- The thread is delivering the event, and has not come to the callback. -/
def State.Awaits (s : State ι C V) (thread : ι) (callback : C) (event : V) : Prop :=
  ∃ call delivery, s.top thread = some (call, delivery) ∧ delivery.event = event ∧
    callback ∈ delivery.callbacks

/-- What the callback is about to hear is the event that is being delivered. -/
theorem Alone.awaits (h : Alone worker s current) {event : V}
    (hevent : event ∈ (outstanding current).filterMap (broughtTo callback)) :
    s.Awaits worker callback event := by
  cases h with
  | idle hrunning hdeliveries => cases hevent
  | busy call delivery hrunning hdeliveries =>
    obtain ⟨p, hp, hbrought⟩ := List.mem_filterMap.mp hevent
    obtain ⟨c, hc, rfl⟩ := List.mem_map.mp hp
    rw [broughtTo] at hbrought
    split_ifs at hbrought with heq
    cases hbrought
    refine ⟨call, delivery, ?_, rfl, heq ▸ hc⟩
    rw [State.top_eq_some, hrunning, hdeliveries, Function.update_self, Function.update_self]
    exact ⟨rfl, rfl⟩

omit [DecidableEq ι] in
theorem Absent.countP_eq_zero {trace : List (Action C V)} (h : Absent callback trace) :
    trace.countP (Action.putsIn callback) = 0 := by
  rw [List.countP_eq_zero]
  intro a ha hputs
  cases a with
  | listen g listener => exact h g listener ha (of_decide_eq_true hputs)
  | _ => cases hputs

/-- A listener that is registered once hears the events of its kinds that its group gets from then
on until it is taken out, each of them once and in order. One event at most can be missing, and that
is the one that is being delivered. -/
theorem heard_eq_hearable {listener : Listener C} {before after : List (Action C V)}
    (hseq : (system ι C V).Meets (Sequential worker) .initial labels)
    (hrun : (system ι C V).run labels = some s)
    (htrace : s.trace = before ++ .listen groupId listener :: after)
    (hbefore : Absent listener.callback before) (hafter : Absent listener.callback after) :
    (∃ missing, heard listener.callback s.trace ++ missing =
        hearable groupId listener.events after ∧ missing.length ≤ 1 ∧
          ∀ event ∈ missing, s.Awaits worker listener.callback event) ∧
      (s.running worker = [] →
        heard listener.callback s.trace = hearable groupId listener.events after) := by
  obtain ⟨current, h⟩ := inStream_of_sequential groupId listener.callback hseq hrun
  have honly : OnlyIn groupId listener.callback s.trace := by
    intro g it hmem hcallback
    rw [htrace, List.mem_append, List.mem_cons] at hmem
    rcases hmem with hmem | hmem | hmem
    · exact absurd hcallback (hbefore g it hmem)
    · cases hmem
      rfl
    · exact absurd hcallback (hafter g it hmem)
  have hbalance := h.balance honly
  rw [htrace, stream_of_registered hbefore hafter, ← htrace] at hbalance
  have honce : s.trace.countP (Action.putsIn listener.callback) ≤ 1 := by
    rw [htrace, List.countP_append, List.countP_cons, hbefore.countP_eq_zero,
      hafter.countP_eq_zero]
    split_ifs <;> decide
  refine ⟨⟨_, hbalance, h.single honce, fun event => h.alone.awaits⟩, fun hrunning => ?_⟩
  obtain ⟨rfl, -, -⟩ := h.alone.of_running hrunning
  exact (List.append_nil _).symm.trans hbalance

/-- Two groups get events in turn, and the last callback takes its group out. -/
def twoRuns : List (Label ℕ ℕ String) :=
  [.call 0 (.listen [103] 7 {.tokenGenerated, .generationCompleted}),
    .call 0 (.listen [104] 9 {.tokenGenerated}),
    .call 1 (.dispatch [104] .tokenGenerated "other"), .invoke 1, .returned 1, .finish 1,
    .call 1 (.dispatch [103] .tokenizerStarted "start"), .finish 1,
    .call 1 (.dispatch [103] .tokenGenerated "token"), .invoke 1, .returned 1, .finish 1,
    .call 1 (.dispatch [103] .generationCompleted "end"), .invoke 1, .call 1 (.unlisten [103]),
    .returned 1, .finish 1, .call 1 (.dispatch [103] .tokenGenerated "late"), .finish 1]

theorem heard_eq_hearable_twoRuns : ∃ s, (system ℕ ℕ String).run twoRuns = some s ∧
    heard 7 s.trace = ["token", "end"] ∧ ∃ after,
      s.trace = .listen [103] ⟨7, {.tokenGenerated, .generationCompleted}⟩ :: after ∧
      heard 7 s.trace = hearable [103] {.tokenGenerated, .generationCompleted} after := by
  have hrun : ∃ s, (system ℕ ℕ String).run twoRuns = some s ∧ s.running 1 = [] ∧
      heard 7 s.trace = ["token", "end"] ∧ ∃ after,
        s.trace = .listen [103] ⟨7, {.tokenGenerated, .generationCompleted}⟩ ::
          .listen [104] ⟨9, {.tokenGenerated}⟩ :: after ∧
        ∀ a ∈ after, a.number.isSome ∨ a.takesOut [103] :=
    ⟨_, rfl, rfl, rfl, _, rfl, by decide⟩
  obtain ⟨s, hs, hidle, hheard, after, htrace, hafter⟩ := hrun
  have habsent : Absent 7 (.listen [104] ⟨9, {.tokenGenerated}⟩ :: after) := by
    intro groupId listener hmem
    rcases List.mem_cons.mp hmem with hmem | hmem
    · cases hmem
      decide
    · rcases hafter _ hmem with h | h
      · cases h
      · cases h
  have hseq : (system ℕ ℕ String).Meets (Sequential 1) .initial twoRuns := by decide +kernel
  have hnone : Absent 7 ([] : List (Action ℕ String)) := fun _ _ h => absurd h List.not_mem_nil
  have hlisten : s.trace =
      [] ++ .listen [103] ⟨7, {.tokenGenerated, .generationCompleted}⟩ :: _ := htrace
  exact ⟨s, hs, hheard, _, htrace, (heard_eq_hearable hseq hs hlisten hnone habsent).2 hidle⟩

end ZInferLM.Events
