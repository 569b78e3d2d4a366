import ZInferLM.Serve.Session

/-! # The order of a stream

Between two requests only flushes are left on the strand, which find nothing to do. A request is
served in three stages: its start is posted, its header is written, and then its chunks are written
one at a time until the last one starts the next read. A flush that is left over from the request
before must not run in the first stage once there is a chunk, since the header of the request before
is still marked as sent then. -/

namespace ZInferLM.Serve
open Library Library.Utf8

namespace Session

/-- The handlers on the strand other than flushes. -/
def otherHandlers (strand : List Handler) : List Handler := strand.filter (· ≠ .flush)

@[simp] theorem otherHandlers_nil : otherHandlers [] = [] := rfl

@[simp] theorem otherHandlers_flush (strand : List Handler) :
    otherHandlers (.flush :: strand) = otherHandlers strand := rfl

@[simp] theorem otherHandlers_concat_flush (strand : List Handler) :
    otherHandlers (strand ++ [.flush]) = otherHandlers strand := by
  rw [otherHandlers, List.filter_append, List.filter_cons_of_neg (by simp), List.filter_nil,
    List.append_nil, otherHandlers]

theorem otherHandlers_cons {h : Handler} (hh : h ≠ .flush) (strand : List Handler) :
    otherHandlers (h :: strand) = h :: otherHandlers strand :=
  List.filter_cons_of_pos (by simpa using hh)

theorem eq_nil_of_otherHandlers {strand : List Handler} (h : otherHandlers strand = [])
    (hflush : .flush ∉ strand) : strand = [] := by
  cases strand with
  | nil => rfl
  | cons handler strand =>
    by_cases hh : handler = .flush
    · exact absurd (hh ▸ List.mem_cons_self) hflush
    · rw [otherHandlers_cons hh] at h
      cases h

theorem otherHandlers_concat {h : Handler} (hh : h ≠ .flush) (strand : List Handler) :
    otherHandlers (strand ++ [h]) = otherHandlers strand ++ [h] := by
  rw [otherHandlers, List.filter_append, List.filter_cons_of_pos (by simpa using hh),
    List.filter_nil, otherHandlers]

/-- No chunk so far is the last one. -/
def Open (chunks : List Bytes) : Prop := ∀ c ∈ chunks, isTerminal c = false

/-- Just the last chunk is the last one. -/
def Closed (chunks : List Bytes) : Prop := ∃ before c, chunks = before ++ [c] ∧ Open before ∧
  isTerminal c = true

/-- The worker and its tasks, when request `n` is being served and has these chunks. -/
inductive Serving (worker : WorkerPhase) (tasks taken n : ℕ) (chunks : List Bytes) : Prop where
  | submitted (htasks : tasks = 1) (htaken : taken = n) (hchunks : chunks = [])
      (hworker : worker = .idle ∨ worker = .posting true)
  | streaming (htasks : tasks = 0) (htaken : taken = n + 1) (hchunks : Open chunks)
      (hworker : worker = .streaming ∨ worker = .posting false)
  | finished (htasks : tasks = 0) (htaken : taken = n + 1) (hchunks : Closed chunks)
      (hworker : worker = .idle ∨ worker = .posting true)

structure Between (s : Session) : Prop where
  pending : s.reads = 1 ∧ otherHandlers s.strand = [] ∨
    s.reads = 0 ∧ otherHandlers s.strand = [.handleRequest]
  isWriting : s.isWriting = false
  writes : s.writes = []
  queue : s.streamingQueue = []
  worker : s.worker = .idle ∨ s.worker = .posting true
  tasks : s.tasks = 0
  taken : s.taken = s.responses.length
  closed : ∀ chunks ∈ s.responses, Closed chunks
  io : s.io = s.expectedIo
  first : s.headerSent = false → .flush ∉ s.strand ∧ s.worker = .idle

/-- The start of a response is posted. -/
structure Initiating (s : Session) (done : List (List Bytes)) : Prop where
  reads : s.reads = 0
  pending : otherHandlers s.strand = [.initiateStreaming]
  isWriting : s.isWriting = false
  writes : s.writes = []
  responses : s.responses = done ++ [s.streamingQueue]
  closed : ∀ chunks ∈ done, Closed chunks
  serving : Serving s.worker s.tasks s.taken done.length s.streamingQueue
  io : s.io = .read :: done.flatMap response
  first : s.headerSent = false → s.strand.head? = some .initiateStreaming

/-- A response whose header and first chunks have been started. -/
structure Responding (s : Session) (done : List (List Bytes)) (gone : List Bytes) : Prop where
  reads : s.reads = 0
  responses : s.responses = done ++ [gone ++ s.streamingQueue]
  closed : ∀ chunks ∈ done, Closed chunks
  serving : Serving s.worker s.tasks s.taken done.length (gone ++ s.streamingQueue)
  io : s.io = .read :: done.flatMap response ++ writesOf gone

/-- Nothing is written, and the last chunk has not been. -/
structure Ready (s : Session) (done : List (List Bytes)) (gone : List Bytes) : Prop
    extends Responding s done gone where
  pending : otherHandlers s.strand = []
  isWriting : s.isWriting = false
  headerSent : s.headerSent = true
  writes : s.writes = []
  isOpen : Open gone

/-- A write of the response is outstanding, or its handler is on the strand. -/
structure Writing (s : Session) (done : List (List Bytes)) (gone : List Bytes) (w : Write) : Prop
    extends Responding s done gone where
  isWriting : s.isWriting = true
  write : s.writes = [w] ∧ otherHandlers s.strand = [] ∨
    s.writes = [] ∧ otherHandlers s.strand = [.written w]
  stage : w = .header ∧ gone = [] ∨
    ∃ before c, w = .chunk c ∧ gone = before ++ [c] ∧ Open before ∧ s.headerSent = true

/-- A chunk in the queue is waiting for a flush. -/
def Woken (s : Session) : Prop :=
  s.streamingQueue = [] ∨ .flush ∈ s.strand ∨ ∃ isEnd, s.worker = .posting isEnd

/-- The states of the runs in which every step is orderly. -/
inductive Consistent (s : Session) : Prop where
  | starting (h : s = start)
  | between (h : s.Between)
  | initiating (done : List (List Bytes)) (h : s.Initiating done)
  | waiting (done : List (List Bytes)) (gone : List Bytes) (h : s.Ready done gone) (woken : s.Woken)
  | writing (done : List (List Bytes)) (gone : List Bytes) (w : Write) (h : s.Writing done gone w)

variable {s s' : Session} {done : List (List Bytes)} {gone chunks : List Bytes}
  {serialize : Json → Bytes}

theorem Open.append (h : Open chunks) {c : Bytes} (hc : isTerminal c = false) :
    Open (chunks ++ [c]) := by
  intro d hd
  rcases List.mem_append.mp hd with hd | hd
  · exact h d hd
  · rw [List.mem_singleton.mp hd, hc]

theorem Open.ended (h : Open chunks) : ended chunks = false := by
  rw [Session.ended]
  cases hlast : chunks.getLast? with
  | none => rfl
  | some c => exact h c (List.mem_of_getLast? hlast)

theorem Closed.ended (h : Closed chunks) : ended chunks = true := by
  obtain ⟨before, c, rfl, -, hc⟩ := h
  rw [Session.ended, List.getLast?_concat]
  exact hc

theorem Closed.rest {before rest : List Bytes} {c : Bytes} (h : Closed (before ++ [c] ++ rest))
    (hc : isTerminal c = true) : rest = [] := by
  obtain ⟨before', c', heq, hopen, -⟩ := h
  rcases List.eq_nil_or_concat rest with rfl | ⟨rest', d, rfl⟩
  · rfl
  · have heq' : before ++ [c] ++ rest' ++ [d] = before' ++ [c'] := by simpa using heq
    have hbefore := (List.append_inj' heq' rfl).1
    have hfalse := hopen c (by rw [← hbefore]; simp)
    rw [hc] at hfalse
    cases hfalse

theorem writesOf_concat (chunks : List Bytes) (c : Bytes) :
    writesOf (chunks ++ [c]) = writesOf chunks ++ [Io.write (.chunk c)] := by
  rw [writesOf, List.map_append]
  rfl

theorem response_open (h : Open chunks) : response chunks = writesOf chunks := by
  rw [response, h.ended, if_neg Bool.false_ne_true, List.append_nil]

theorem response_closed (h : Closed chunks) : response chunks = writesOf chunks ++ [Io.read] := by
  rw [response, h.ended, if_pos rfl]

/-- The writes up to a part of the chunks are the first operations of the response. -/
theorem response_prefix (gone rest : List Bytes) : writesOf gone <+: response (gone ++ rest) := by
  have hwrites : writesOf gone <+: writesOf (gone ++ rest) := by
    rw [writesOf, writesOf, List.map_append]
    exact List.cons_prefix_cons.mpr ⟨rfl, List.prefix_append _ _⟩
  exact hwrites.trans (List.prefix_append _ _)

theorem Responding.ordered (h : s.Responding done gone) : s.io <+: s.expectedIo := by
  obtain ⟨rest, hrest⟩ := response_prefix gone s.streamingQueue
  refine ⟨rest, ?_⟩
  rw [h.io, expectedIo, h.responses, List.flatMap_append, List.flatMap_singleton, ← hrest]
  simp

theorem Responding.settled (h : s.Responding done gone) (hqueue : s.streamingQueue = [])
    (hopen : Open gone) : s.io = s.expectedIo := by
  rw [h.io, expectedIo, h.responses, hqueue, List.append_nil, List.flatMap_append,
    List.flatMap_singleton, response_open hopen, List.cons_append]

theorem Consistent.exclusive (h : s.Consistent) : s.writes.length ≤ 1 := by
  cases h with
  | starting h => simp [h, start]
  | between h => simp [h.writes]
  | initiating done h => simp [h.writes]
  | waiting done gone h woken => simp [h.writes]
  | writing done gone w h =>
    rcases h.write with ⟨hwrites, -⟩ | ⟨hwrites, -⟩
    · simp [hwrites]
    · simp [hwrites]

theorem Consistent.ordered (h : s.Consistent) : s.io <+: s.expectedIo := by
  cases h with
  | starting h => simp [h, start]
  | between h => rw [h.io]
  | initiating done h =>
    rw [h.io, expectedIo, h.responses, List.flatMap_append]
    exact List.prefix_append (.read :: done.flatMap response) _
  | waiting done gone h woken => exact h.ordered
  | writing done gone w h => exact h.ordered

theorem Consistent.settled (h : s.Consistent) (hquiet : s.Quiet) : s.io = s.expectedIo := by
  obtain ⟨hstrand, hwrites, hposting⟩ := hquiet
  have hpending : otherHandlers s.strand = [] := by rw [hstrand, otherHandlers_nil]
  cases h with
  | starting h => simp [h, start] at hstrand
  | between h => exact h.io
  | initiating done h => simp [h.pending] at hpending
  | waiting done gone h woken =>
    rcases woken with hqueue | hflush | ⟨isEnd, hworker⟩
    · exact h.settled hqueue h.isOpen
    · simp [hstrand] at hflush
    · exact absurd hworker (hposting isEnd)
  | writing done gone w h =>
    rcases h.write with ⟨hw, -⟩ | ⟨-, hw⟩
    · simp [hw] at hwrites
    · simp [hw] at hpending

theorem Serving.take {n : ℕ} (h : Serving .idle s.tasks s.taken n chunks) (htasks : s.tasks ≠ 0) :
    Serving .streaming (s.tasks - 1) (s.taken + 1) n chunks := by
  cases h with
  | submitted ht htaken hchunks _ =>
    have hopen : Open chunks := by
      rw [hchunks]
      exact fun c hc => absurd hc List.not_mem_nil
    exact .streaming (by omega) (by omega) hopen (.inl rfl)
  | streaming _ _ _ hworker => simp at hworker
  | finished ht _ _ _ => exact absurd ht htasks

theorem Serving.enqueue {n tasks taken : ℕ} (h : Serving .streaming tasks taken n chunks)
    {c : Bytes} {isEnd : Bool} (hc : isTerminal c = isEnd) :
    taken = n + 1 ∧ Serving (.posting isEnd) tasks taken n (chunks ++ [c]) := by
  cases h with
  | submitted _ _ _ hworker => simp at hworker
  | streaming htasks htaken hchunks _ =>
    refine ⟨htaken, ?_⟩
    cases isEnd with
    | true => exact .finished htasks htaken ⟨chunks, c, rfl, hchunks, hc⟩ (.inr rfl)
    | false => exact .streaming htasks htaken (hchunks.append hc) (.inr rfl)
  | finished _ _ _ hworker => simp at hworker

theorem Serving.post {n tasks taken : ℕ} {isEnd : Bool}
    (h : Serving (.posting isEnd) tasks taken n chunks) :
    Serving (if isEnd then .idle else .streaming) tasks taken n chunks := by
  cases h with
  | submitted htasks htaken hchunks hworker =>
    have hend : isEnd = true := by simpa using hworker
    rw [if_pos hend]
    exact .submitted htasks htaken hchunks (.inl rfl)
  | streaming htasks htaken hchunks hworker =>
    have hend : isEnd = false := by simpa using hworker
    rw [hend]
    exact .streaming htasks htaken hchunks (.inl rfl)
  | finished htasks htaken hchunks hworker =>
    have hend : isEnd = true := by simpa using hworker
    rw [if_pos hend]
    exact .finished htasks htaken hchunks (.inl rfl)

theorem Responding.take (h : s.Responding done gone) (hidle : s.worker = .idle)
    (htasks : s.tasks ≠ 0) : Responding { s with
      worker := .streaming, tasks := s.tasks - 1, taken := s.taken + 1 } done gone := by
  have hserving := h.serving
  rw [hidle] at hserving
  exact { h with serving := hserving.take htasks }

theorem Consistent.take (h : s.Consistent) (hstep : s.take = some s') : s'.Consistent := by
  rw [Session.take] at hstep
  split_ifs at hstep with hcond
  obtain ⟨hidle, htasks⟩ := hcond
  cases hstep
  cases h with
  | starting h => simp [h, start] at htasks
  | between h => exact absurd h.tasks htasks
  | initiating done h =>
    have hserving := h.serving
    rw [hidle] at hserving
    exact .initiating done { h with serving := hserving.take htasks }
  | waiting done gone h woken =>
    refine .waiting done gone { h with toResponding := h.take hidle htasks } ?_
    rcases woken with hqueue | hflush | ⟨isEnd, hworker⟩
    · exact .inl hqueue
    · exact .inr (.inl hflush)
    · rw [hidle] at hworker
      cases hworker
  | writing done gone w h =>
    exact .writing done gone w { h with toResponding := h.take hidle htasks }

theorem modify_last {α : Type} (xs : List α) (x : α) (f : α → α) :
    (xs ++ [x]).modify xs.length f = xs ++ [f x] := by
  simp [List.modify_eq_set_getElem?]

def enqueued (s : Session) (c : Bytes) (isEnd : Bool) : Session :=
  { s with
    streamingQueue := s.streamingQueue ++ [c]
    responses := s.responses.modify (s.taken - 1) (· ++ [c])
    worker := .posting isEnd }

theorem Responding.enqueued (h : s.Responding done gone) (hworker : s.worker = .streaming)
    {c : Bytes} {isEnd : Bool} (hc : isTerminal c = isEnd) : (s.enqueued c isEnd).Responding done gone := by
  have hserving := h.serving
  rw [hworker] at hserving
  obtain ⟨htaken, hserving⟩ := hserving.enqueue hc
  rw [List.append_assoc] at hserving
  have hresponses : s.responses.modify (s.taken - 1) (· ++ [c]) =
      done ++ [gone ++ (s.streamingQueue ++ [c])] := by
    rw [htaken, Nat.add_sub_cancel, h.responses, modify_last, List.append_assoc]
  exact { h with serving := hserving, responses := hresponses }

theorem Consistent.enqueue (hline : ∀ payload, (13 : UInt8) ∉ serialize payload)
    {payload : Json} {isEnd : Bool} (h : s.Consistent)
    (hstep : s.enqueue serialize payload isEnd = some s') : s'.Consistent := by
  rw [Session.enqueue] at hstep
  split_ifs at hstep with hworker
  have hc : isTerminal (streamJsonMessage serialize payload isEnd) = isEnd :=
    Bool.eq_iff_iff.mpr (isTerminal_iff (hline payload) isEnd)
  generalize streamJsonMessage serialize payload isEnd = c at hc hstep
  cases hstep
  cases h with
  | starting h => simp [h, start] at hworker
  | between h => exact absurd h.worker (by simp [hworker])
  | initiating done h =>
    have hserving := h.serving
    rw [hworker] at hserving
    obtain ⟨htaken, hserving⟩ := hserving.enqueue hc
    have hresponses : s.responses.modify (s.taken - 1) (· ++ [c]) =
        done ++ [s.streamingQueue ++ [c]] := by
      rw [htaken, Nat.add_sub_cancel, h.responses, modify_last]
    exact .initiating done { h with serving := hserving, responses := hresponses }
  | waiting done gone h woken =>
    exact .waiting done gone { h with toResponding := h.enqueued hworker hc }
      (.inr (.inr ⟨isEnd, rfl⟩))
  | writing done gone w h =>
    exact .writing done gone w { h with toResponding := h.enqueued hworker hc }

theorem Responding.post {isEnd : Bool} (h : s.Responding done gone)
    (hworker : s.worker = .posting isEnd) :
    Responding { s with
      strand := s.strand ++ [.flush]
      worker := if isEnd then .idle else .streaming } done gone := by
  have hserving := h.serving
  rw [hworker] at hserving
  exact { h with serving := hserving.post }

theorem Consistent.post (h : s.Consistent) (hstep : s.post = some s') : s'.Consistent := by
  cases hworker : s.worker with
  | idle => simp [Session.post, hworker] at hstep
  | streaming => simp [Session.post, hworker] at hstep
  | posting isEnd =>
    simp only [Session.post, hworker, Option.some.injEq] at hstep
    cases hstep
    cases h with
    | starting h => simp [h, start] at hworker
    | between h =>
      have hend : isEnd = true := by simpa [hworker] using h.worker
      refine .between { h with pending := ?_, worker := ?_, first := ?_ }
      · rw [otherHandlers_concat_flush]
        exact h.pending
      · exact .inl (by rw [hend]; rfl)
      · intro hheader
        have hidle := (h.first hheader).2
        rw [hworker] at hidle
        cases hidle
    | initiating done h =>
      have hserving := h.serving
      rw [hworker] at hserving
      refine .initiating done { h with serving := hserving.post, pending := ?_, first := ?_ }
      · rw [otherHandlers_concat_flush]
        exact h.pending
      · intro hheader
        have hfirst := h.first hheader
        change (s.strand ++ [Handler.flush]).head? = _
        rw [List.head?_append, hfirst]
        rfl
    | waiting done gone h woken =>
      refine .waiting done gone { h with toResponding := h.post hworker, pending := ?_ }
        (.inr (.inl ?_))
      · rw [otherHandlers_concat_flush]
        exact h.pending
      · exact List.mem_append_right _ List.mem_cons_self
    | writing done gone w h =>
      refine .writing done gone w { h with toResponding := h.post hworker, write := ?_ }
      rw [otherHandlers_concat_flush]
      exact h.write

theorem Consistent.receive (h : s.Consistent) (hstep : s.receive = some s') : s'.Consistent := by
  rw [Session.receive] at hstep
  split_ifs at hstep with hreads
  cases hstep
  cases h with
  | starting h => exact absurd (by rw [h]; rfl) hreads
  | between h =>
    obtain ⟨hone, hpending⟩ := h.pending.resolve_right fun hcase => hreads hcase.1
    refine .between { h with pending := .inr ⟨?_, ?_⟩, first := ?_ }
    · change s.reads - 1 = 0
      rw [hone]
    · change otherHandlers (s.strand ++ [Handler.handleRequest]) = _
      rw [otherHandlers_concat (by decide), hpending]
      rfl
    · intro hheader
      obtain ⟨hflush, hidle⟩ := h.first hheader
      exact ⟨by simpa using hflush, hidle⟩
  | initiating done h => exact absurd h.reads hreads
  | waiting done gone h woken => exact absurd h.reads hreads
  | writing done gone w h => exact absurd h.reads hreads

theorem Consistent.complete (h : s.Consistent) (hstep : s.complete = some s') : s'.Consistent := by
  cases hwrites : s.writes with
  | nil => simp [Session.complete, hwrites] at hstep
  | cons w writes =>
    simp only [Session.complete, hwrites, Option.some.injEq] at hstep
    cases hstep
    cases h with
    | starting h => simp [h, start] at hwrites
    | between h => simp [h.writes] at hwrites
    | initiating done h => simp [h.writes] at hwrites
    | waiting done gone h woken => simp [h.writes] at hwrites
    | writing done gone v h =>
      rcases h.write with ⟨hone, hpending⟩ | ⟨hnone, -⟩
      · obtain ⟨rfl, rfl⟩ := List.cons.inj (hwrites.symm.trans hone)
        refine .writing done gone w { h with write := .inr ⟨rfl, ?_⟩ }
        change otherHandlers (s.strand ++ [Handler.written w]) = _
        rw [otherHandlers_concat (by simp), hpending]
        rfl
      · simp [hnone] at hwrites

/-- A flush of a response that is not being written starts its next chunk. -/
theorem Ready.flush (h : s.Ready done gone) : s.flushStreamingQueue.Consistent := by
  cases hqueue : s.streamingQueue with
  | nil =>
    rw [flush_empty h.headerSent hqueue]
    exact .waiting done gone h (.inl hqueue)
  | cons c queue =>
    have hresponses := h.responses
    have hserving := h.serving
    rw [hqueue, List.append_cons gone c queue] at hresponses hserving
    have hio : s.io ++ [Io.write (.chunk c)] =
        Io.read :: done.flatMap response ++ writesOf (gone ++ [c]) := by
      rw [h.io, writesOf_concat, List.append_assoc]
    have hwrites : s.writes ++ [Write.chunk c] = [Write.chunk c] := by rw [h.writes, List.nil_append]
    rw [flush_chunk h.isWriting h.headerSent hqueue]
    exact .writing done (gone ++ [c]) (.chunk c) {
      reads := h.reads
      responses := hresponses
      closed := h.closed
      serving := hserving
      io := hio
      isWriting := rfl
      write := .inl ⟨hwrites, h.pending⟩
      stage := .inr ⟨gone, c, rfl, rfl, h.isOpen, h.headerSent⟩ }

section Run
variable {strand : List Handler}

theorem Between.flush (h : s.Between) (hstrand : s.strand = .flush :: strand) :
    (flushStreamingQueue { s with strand := strand }).Consistent := by
  have hheader : s.headerSent = true := by
    by_contra hnot
    exact (h.first (Bool.eq_false_iff.mpr hnot)).1 (hstrand ▸ List.mem_cons_self)
  have hpending := h.pending
  rw [hstrand, otherHandlers_flush] at hpending
  rw [@flush_empty { s with strand := strand } hheader h.queue]
  refine .between { h with pending := hpending, first := fun hnot => ?_ }
  rw [hheader] at hnot
  cases hnot

theorem Between.handleRequest (h : s.Between) (hstrand : s.strand = .handleRequest :: strand) :
    (Session.handleRequest { s with strand := strand }).Consistent := by
  have hpending := h.pending
  rw [hstrand, otherHandlers_cons (by decide)] at hpending
  obtain ⟨hreads, hrest⟩ := hpending.resolve_left fun hcase => by simp at hcase
  have hnil : otherHandlers strand = [] := (List.cons.inj hrest).2
  refine .initiating s.responses {
    reads := hreads
    pending := ?_
    isWriting := h.isWriting
    writes := h.writes
    responses := ?_
    closed := h.closed
    serving := ?_
    io := h.io
    first := fun hheader => ?_ }
  · change otherHandlers (strand ++ [Handler.initiateStreaming]) = _
    rw [otherHandlers_concat (by decide), hnil, List.nil_append]
  · change s.responses ++ [[]] = s.responses ++ [s.streamingQueue]
    rw [h.queue]
  · exact .submitted (by rw [← Nat.zero_add 1, ← h.tasks]; rfl) h.taken h.queue h.worker
  · -- before the first request there are no flushes
    have hflush := (h.first hheader).1
    rw [hstrand, List.mem_cons, not_or] at hflush
    change (strand ++ [Handler.initiateStreaming]).head? = _
    rw [eq_nil_of_otherHandlers hnil hflush.2]
    rfl

/-- A flush in front of the start of a response is left over from the request before. -/
theorem Initiating.headerSent (h : s.Initiating done) (hstrand : s.strand = .flush :: strand) :
    s.headerSent = true := by
  by_contra hnot
  have hfirst := h.first (Bool.eq_false_iff.mpr hnot)
  rw [hstrand] at hfirst
  cases hfirst

/-- Before its start a response has no chunk that a flush could find. -/
theorem Initiating.flush (h : s.Initiating done) (hstrand : s.strand = .flush :: strand)
    (hqueue : s.streamingQueue = []) :
    (flushStreamingQueue { s with strand := strand }).Consistent := by
  have hheader := h.headerSent hstrand
  have hpending := h.pending
  rw [hstrand, otherHandlers_flush] at hpending
  rw [@flush_empty { s with strand := strand } hheader hqueue]
  refine .initiating done { h with pending := hpending, first := fun hnot => ?_ }
  rw [hheader] at hnot
  cases hnot

theorem Initiating.initiate (h : s.Initiating done)
    (hstrand : s.strand = .initiateStreaming :: strand) :
    (flushStreamingQueue { s with strand := strand, headerSent := false }).Consistent := by
  have hpending := h.pending
  rw [hstrand, otherHandlers_cons (by decide)] at hpending
  have hnil : otherHandlers strand = [] := (List.cons.inj hpending).2
  have hwrites : s.writes ++ [Write.header] = [Write.header] := by rw [h.writes, List.nil_append]
  have hio : s.io ++ [Io.write .header] = Io.read :: done.flatMap response ++ writesOf [] := by
    rw [h.io]
    rfl
  rw [@flush_header { s with strand := strand, headerSent := false } h.isWriting rfl]
  exact .writing done [] .header {
    reads := h.reads
    responses := h.responses
    closed := h.closed
    serving := h.serving
    io := hio
    isWriting := rfl
    write := .inl ⟨hwrites, hnil⟩
    stage := .inl ⟨rfl, rfl⟩ }

/-- Behind its last chunk a response is complete, and the session reads again. -/
theorem Writing.finish {before : List Bytes} {c : Bytes} {w : Write}
    (h : s.Writing done (before ++ [c]) w) (hc : isTerminal c = true)
    (hheader : s.headerSent = true) (hwrites : s.writes = []) (hpending : otherHandlers strand = []) :
    (Session.doRead { s with strand := strand, isWriting := false }).Consistent := by
  have hserving := h.serving
  cases hserving with
  | submitted _ _ hchunks _ => simp at hchunks
  | streaming _ _ hchunks _ =>
    have hfalse := hchunks c (by simp)
    rw [hc] at hfalse
    cases hfalse
  | finished htasks htaken hchunks hworker =>
    have hqueue := hchunks.rest hc
    have hresponses := h.responses
    rw [hqueue, List.append_nil] at hresponses hchunks
    refine .between {
      pending := .inl ⟨?_, hpending⟩
      isWriting := rfl
      writes := hwrites
      queue := hqueue
      worker := hworker
      tasks := htasks
      taken := ?_
      closed := ?_
      io := ?_
      first := fun hnot => ?_ }
    · change s.reads + 1 = 1
      rw [h.reads]
    · change s.taken = s.responses.length
      rw [htaken, hresponses, List.length_append, List.length_singleton]
    · change ∀ chunks ∈ s.responses, Closed chunks
      intro chunks hmem
      rw [hresponses] at hmem
      rcases List.mem_append.mp hmem with hmem | hmem
      · exact h.closed chunks hmem
      · rw [List.mem_singleton.mp hmem]
        exact hchunks
    · change s.io ++ [Io.read] = Io.read :: s.responses.flatMap response
      rw [h.io, hresponses, List.flatMap_append, List.flatMap_singleton, response_closed hchunks]
      simp
    · change s.headerSent = false at hnot
      rw [hheader] at hnot
      cases hnot

/-- A write that has completed goes on with the response. -/
theorem Writing.written {w : Write} (h : s.Writing done gone w)
    (hstrand : s.strand = .written w :: strand) :
    (handle { s with strand := strand } (.written w)).Consistent := by
  have hwrite := h.write
  rw [hstrand, otherHandlers_cons (by simp)] at hwrite
  obtain ⟨hwrites, hrest⟩ := hwrite.resolve_left fun hcase => by simp at hcase
  have hpending : otherHandlers strand = [] := (List.cons.inj hrest).2
  rcases h.stage with ⟨rfl, rfl⟩ | ⟨before, c, rfl, rfl, hopen, hheader⟩
  · have hready : Ready { s with
        strand := strand, headerSent := true, isWriting := false } done [] :=
      { toResponding := { h.toResponding with }
        pending := hpending
        isWriting := rfl
        headerSent := rfl
        writes := hwrites
        isOpen := fun c hc => absurd hc List.not_mem_nil }
    exact hready.flush
  · by_cases hc : isTerminal c = true
    · simp only [handle, if_pos hc]
      exact h.finish hc hheader hwrites hpending
    · have hready : Ready { s with strand := strand, isWriting := false } done (before ++ [c]) :=
        { toResponding := { h.toResponding with }
          pending := hpending
          isWriting := rfl
          headerSent := hheader
          writes := hwrites
          isOpen := hopen.append (Bool.eq_false_iff.mpr hc) }
      simp only [handle, if_neg hc]
      exact hready.flush

theorem Consistent.run (h : s.Consistent) (horderly : s.Orderly .run)
    (hstep : s.runStrand = some s') : s'.Consistent := by
  cases hstrand : s.strand with
  | nil => simp [runStrand, hstrand] at hstep
  | cons handler strand =>
    simp only [runStrand, hstrand, Option.some.injEq] at hstep
    cases hstep
    -- a handler that is no flush is the one the state says
    have hother : ∀ other, otherHandlers s.strand = [other] → handler ≠ .flush →
        handler = other := by
      intro other hpending hflush
      rw [hstrand, otherHandlers_cons hflush] at hpending
      exact (List.cons.inj hpending).1
    have hnone : otherHandlers s.strand = [] → handler = .flush := by
      intro hpending
      by_contra hflush
      rw [hstrand, otherHandlers_cons hflush] at hpending
      cases hpending
    cases h with
    | starting h =>
      rw [h] at hstrand ⊢
      cases hstrand
      refine .between ⟨.inl ⟨rfl, rfl⟩, rfl, rfl, rfl, .inl rfl, rfl, rfl, ?_, rfl, ?_⟩
      · intro chunks hchunks
        cases hchunks
      · intro _
        exact ⟨List.not_mem_nil, rfl⟩
    | between h =>
      by_cases hflush : handler = .flush
      · rw [hflush] at hstrand ⊢
        exact h.flush hstrand
      · rcases h.pending with ⟨-, hpending⟩ | ⟨-, hpending⟩
        · exact absurd (hnone hpending) hflush
        · have hhandler := hother _ hpending hflush
          rw [hhandler] at hstrand ⊢
          exact h.handleRequest hstrand
    | initiating done h =>
      by_cases hflush : handler = .flush
      · have hmem : Handler.initiateStreaming ∈ s.strand := by
          apply List.mem_of_mem_filter
          change _ ∈ otherHandlers s.strand
          rw [h.pending]
          exact List.mem_singleton_self _
        have hqueue := horderly (by rw [hstrand, hflush]; rfl) hmem
        rw [hflush] at hstrand ⊢
        exact h.flush hstrand hqueue
      · have hhandler := hother _ h.pending hflush
        rw [hhandler] at hstrand ⊢
        exact h.initiate hstrand
    | waiting done gone h woken =>
      have hflush := hnone h.pending
      rw [hflush] at hstrand ⊢
      have hpending := h.pending
      rw [hstrand, otherHandlers_flush] at hpending
      have hready : Ready { s with strand := strand } done gone := { h with pending := hpending }
      exact hready.flush
    | writing done gone w h =>
      by_cases hflush : handler = .flush
      · have hwrite := h.write
        rw [hstrand, hflush, otherHandlers_flush] at hwrite
        rw [hflush]
        simp only [handle]
        rw [@flush_writing { s with strand := strand } h.isWriting]
        exact .writing done gone w { h with write := hwrite }
      · rcases h.write with ⟨-, hpending⟩ | ⟨-, hpending⟩
        · exact absurd (hnone hpending) hflush
        · have hhandler := hother _ hpending hflush
          rw [hhandler] at hstrand ⊢
          exact h.written hstrand

end Run

theorem Consistent.step (hline : ∀ payload, (13 : UInt8) ∉ serialize payload) {label : Label}
    (h : s.Consistent) (horderly : s.Orderly label) (hstep : s.step serialize label = some s') :
    s'.Consistent := by
  cases label with
  | receive => exact h.receive hstep
  | run => exact h.run horderly hstep
  | complete => exact h.complete hstep
  | completeLate bytes => exact h.complete (complete_of_late horderly hstep)
  | take => exact h.take hstep
  | enqueue payload isEnd => exact h.enqueue hline hstep
  | post => exact h.post hstep

end Session

end ZInferLM.Serve
