import ZInferLM.Serve.Streaming

/-! # Runs of a session

A run streams in order as long as no stale flush gets in front of the start of a response that has a
chunk already, and no chunk that is written from a destroyed string turns into other bytes. The first
such step breaks the order at once. -/

namespace ZInferLM.Serve
open Library Library.Utf8

namespace Session

variable {s s' : Session} {serialize : Json → Bytes}

/-- The writes that were started are those that have completed and those that are outstanding. -/
def Accounted (s : Session) : Prop := s.io.filterMap Io.write? = s.sent ++ s.writes

theorem Accounted.doRead (h : s.Accounted) : s.doRead.Accounted := by
  rw [Accounted, Session.doRead, List.filterMap_append]
  exact (List.append_nil _).trans h

theorem Accounted.asyncWrite (h : s.Accounted) (w : Write) : (s.asyncWrite w).Accounted := by
  rw [Accounted, Session.asyncWrite, List.filterMap_append, ← List.append_assoc, ← h]
  rfl

theorem Accounted.flush (h : s.Accounted) : s.flushStreamingQueue.Accounted := by
  rw [flushStreamingQueue]
  split_ifs
  · exact h
  · exact h.asyncWrite .header
  · cases s.streamingQueue with
    | nil => exact h
    | cons c queue => exact Accounted.asyncWrite h (.chunk c)

theorem Accounted.handle (h : s.Accounted) (handler : Handler) : (s.handle handler).Accounted := by
  cases handler with
  | doRead => exact h.doRead
  | handleRequest => exact h
  | initiateStreaming => exact Accounted.flush h
  | flush => exact h.flush
  | written w =>
    cases w with
    | header => exact Accounted.flush h
    | chunk c =>
      simp only [Session.handle]
      split_ifs
      · exact Accounted.doRead h
      · exact Accounted.flush h

theorem Accounted.complete (h : s.Accounted) (hstep : s.complete = some s') : s'.Accounted := by
  rw [Session.complete] at hstep
  split at hstep
  · cases hstep
  · rename_i w writes hwrites
    cases hstep
    rw [Accounted, hwrites] at h
    rw [Accounted, h, List.append_assoc]
    rfl

theorem Accounted.step {label : Label} (h : s.Accounted) (horderly : s.Orderly label)
    (hstep : s.step serialize label = some s') : s'.Accounted := by
  cases label with
  | receive =>
    simp only [Session.step, receive] at hstep
    split_ifs at hstep
    cases hstep
    exact h
  | run =>
    cases hstrand : s.strand with
    | nil => simp [Session.step, runStrand, hstrand] at hstep
    | cons handler strand =>
      simp only [Session.step, runStrand, hstrand, Option.some.injEq] at hstep
      cases hstep
      exact @Accounted.handle { s with strand := strand } h handler
  | complete => exact h.complete hstep
  | completeLate bytes => exact h.complete (complete_of_late horderly hstep)
  | take =>
    simp only [Session.step, take] at hstep
    split_ifs at hstep
    cases hstep
    exact h
  | enqueue payload isEnd =>
    simp only [Session.step, enqueue] at hstep
    split_ifs at hstep
    cases hstep
    exact h
  | post =>
    cases hworker : s.worker with
    | idle => simp [Session.step, post, hworker] at hstep
    | streaming => simp [Session.step, post, hworker] at hstep
    | posting isEnd =>
      simp only [Session.step, post, hworker, Option.some.injEq] at hstep
      cases hstep
      exact h

theorem accounted_of_meets {labels : List Label}
    (hmeets : (system serialize).Meets Orderly start labels)
    (hrun : (system serialize).run labels = some s) : s.Accounted :=
  Transitions.invariant_of_meets (fun _ _ _ _ horderly hstep h => h.step horderly hstep)
    (system serialize).reachable_start rfl hmeets hrun

theorem Consistent.inOrder (h : s.Consistent) (haccounted : s.Accounted) : s.InOrder :=
  ⟨h.exclusive, h.ordered, haccounted, h.settled⟩

/-- A stale flush writes the first chunk of a response in front of its header. -/
theorem Initiating.disorder {done : List (List Bytes)} {strand : List Handler}
    (h : s.Initiating done) (hstrand : s.strand = .flush :: strand) (hqueue : s.streamingQueue ≠ []) :
    ¬ (flushStreamingQueue { s with strand := strand }).InOrder := by
  intro hinOrder
  have hheader := h.headerSent hstrand
  obtain ⟨c, queue, hc⟩ := List.exists_cons_of_ne_nil hqueue
  have hordered := hinOrder.ordered
  rw [@flush_chunk { s with strand := strand } h.isWriting hheader c queue hc] at hordered
  change s.io ++ [.write (.chunk c)] <+: .read :: s.responses.flatMap response at hordered
  rw [h.io, h.responses, List.flatMap_append, List.flatMap_singleton] at hordered
  have hrest : [Io.write (.chunk c)] <+: response s.streamingQueue :=
    (List.prefix_append_right_inj (.read :: done.flatMap response)).mp hordered
  cases (List.cons_prefix_cons.mp hrest).1

/-- Other bytes are sent than those of the chunk that was started. -/
theorem Accounted.disorder {bytes : Bytes} (h : s.Accounted)
    (hnot : ¬ s.Orderly (.completeLate bytes)) :
    ∃ s', s.completeLate bytes = some s' ∧ ¬ s'.InOrder := by
  simp only [Orderly, not_forall] at hnot
  obtain ⟨currentChunk, hchunk, hlength, hne⟩ := hnot
  obtain ⟨w, hhead, hw⟩ := Option.bind_eq_some_iff.mp hchunk
  obtain ⟨writes, hwrites⟩ := List.head?_eq_some_iff.mp hhead
  cases w with
  | header => cases hw
  | chunk bytes' =>
    cases hw
    refine ⟨_, by rw [completeLate, hwrites]; exact if_pos hlength, ?_⟩
    intro hinOrder
    have hsent := hinOrder.sent
    change s.io.filterMap Io.write? = s.sent ++ [.chunk bytes] ++ writes at hsent
    rw [Accounted, hwrites] at h
    rw [h, List.append_assoc] at hsent
    cases List.append_cancel_left hsent
    exact hne rfl

theorem Consistent.disorder {label : Label} (h : s.Consistent) (haccounted : s.Accounted)
    (hnot : ¬ s.Orderly label) : ∃ s', s.step serialize label = some s' ∧ ¬ s'.InOrder := by
  cases label with
  | completeLate bytes => exact haccounted.disorder hnot
  | run =>
    simp only [Orderly, Classical.not_imp] at hnot
    obtain ⟨hhead, hmem, hqueue⟩ := hnot
    obtain ⟨strand, hstrand⟩ := List.head?_eq_some_iff.mp hhead
    have hother : Handler.initiateStreaming ∈ otherHandlers s.strand :=
      List.mem_filter.mpr ⟨hmem, by decide⟩
    refine ⟨_, by rw [Session.step, runStrand, hstrand], ?_⟩
    cases h with
    | starting h => simp [h, start] at hhead
    | between h =>
      rcases h.pending with ⟨-, hpending⟩ | ⟨-, hpending⟩
      · simp [hpending] at hother
      · simp [hpending] at hother
    | initiating done h => exact h.disorder hstrand hqueue
    | waiting done gone h woken => simp [h.pending] at hother
    | writing done gone w h =>
      rcases h.write with ⟨-, hpending⟩ | ⟨-, hpending⟩
      · simp [hpending] at hother
      · simp [hpending] at hother
  | _ => exact absurd trivial hnot

/-- Every state of the run is in order. -/
def StreamsInOrder (serialize : Json → Bytes) (labels : List Label) : Prop :=
  ∀ before after s, labels = before ++ after → (system serialize).run before = some s → s.InOrder

/-- A run of states in order has only orderly steps. -/
theorem Consistent.meets (hline : ∀ payload, (13 : UInt8) ∉ serialize payload) (h : s.Consistent)
    (haccounted : s.Accounted) {labels : List Label} (hinOrder : ∀ before after s', labels = before ++ after →
      (system serialize).runFrom s before = some s' → s'.InOrder) :
    (system serialize).Meets Orderly s labels := by
  induction labels generalizing s with
  | nil => exact trivial
  | cons label labels ih =>
    have horderly : s.Orderly label := by
      by_contra hnot
      obtain ⟨s', hstep, hbad⟩ := h.disorder haccounted hnot
      have hrun := ((system serialize).runFrom_singleton s label).trans hstep
      exact hbad (hinOrder [label] labels s' rfl hrun)
    refine ⟨horderly, fun r hstep =>
      ih (h.step hline horderly hstep) (haccounted.step horderly hstep) ?_⟩
    intro before after s' hlabels hrun
    exact hinOrder (label :: before) after s' (by rw [hlabels]; rfl)
      (Transitions.runFrom_cons.mpr ⟨r, hstep, hrun⟩)

/-- A run streams in order exactly if all its steps are orderly. -/
theorem streamsInOrder_iff (hline : ∀ payload, (13 : UInt8) ∉ serialize payload)
    (labels : List Label) :
    StreamsInOrder serialize labels ↔ (system serialize).Meets Orderly start labels := by
  constructor
  · exact fun h => Consistent.meets hline (.starting rfl) rfl h
  · intro hmeets before after s hlabels hrun
    rw [hlabels] at hmeets
    have hconsistent : s.Consistent := Transitions.invariant_of_meets
      (fun _ _ _ _ horderly hstep h => h.step hline horderly hstep)
      (system serialize).reachable_start (.starting rfl) hmeets.left hrun
    exact hconsistent.inOrder (accounted_of_meets hmeets.left hrun)

def writeNull (_ : Json) : Bytes := Tokenizer.literal "null"

theorem writeNull_line (payload : Json) : (13 : UInt8) ∉ writeNull payload := by
  change (13 : UInt8) ∉ Tokenizer.literal "null"
  decide

def oneResponse : List Label :=
  [.run, .receive, .run, .take, .run, .enqueue .null false, .post, .run, .complete, .run, .complete,
    .run, .enqueue .null true, .post, .run, .complete, .run]

theorem streamsInOrder_iff_oneResponse : StreamsInOrder writeNull oneResponse :=
  (streamsInOrder_iff writeNull_line oneResponse).mpr (by decide +kernel)

/-- Two requests with a message each. The flush of the first message is posted only when the second
request is on the strand. -/
def staleFlush : List Label :=
  [.run, .receive, .run, .take, .run, .enqueue .null true, .complete, .run, .complete, .run,
    .receive, .post, .run, .take, .enqueue .null true, .run]

/-- A request whose only chunk the socket has not taken whole when the flush returns. -/
def lateChunk : List Label :=
  [.run, .receive, .run, .take, .run, .enqueue .null true, .post, .complete, .run, .run,
    .completeLate ((streamJsonMessage writeNull .null true).map fun _ => 0)]

/-- The second message is written in front of its header, and other bytes go out in place of the
chunk whose string is destroyed. -/
theorem staleFlush_lateChunk_outOfOrder :
    ¬ StreamsInOrder writeNull staleFlush ∧ ¬ StreamsInOrder writeNull lateChunk := by
  constructor
  · intro h
    have hrun : ((system writeNull).run staleFlush).isSome = true := by decide +kernel
    have hbad : ∀ s ∈ (system writeNull).run staleFlush, ¬ s.io <+: s.expectedIo := by
      decide +kernel
    obtain ⟨s, hs⟩ := Option.isSome_iff_exists.mp hrun
    exact hbad s hs (h staleFlush [] s (List.append_nil _).symm hs).ordered
  · intro h
    have hrun : ((system writeNull).run lateChunk).isSome = true := by decide +kernel
    have hbad : ∀ s ∈ (system writeNull).run lateChunk,
        s.io.filterMap Io.write? ≠ s.sent ++ s.writes := by decide +kernel
    obtain ⟨s, hs⟩ := Option.isSome_iff_exists.mp hrun
    exact hbad s hs (h lateChunk [] s (List.append_nil _).symm hs).sent

end Session

end ZInferLM.Serve
