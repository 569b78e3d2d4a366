import ZInferLM.Serve.EndToEnd

/-! # A connection that fails

The reads and the writes of a session may fail, and a request may ask that the connection is not
kept alive. Behind a read that fails nothing is read again. Behind a write that fails the sending
side is shut down, and no later write completes: a header that fails leaves `is_writing_` set, and of
a chunk that fails a part has been sent, while the worker goes on with its task. -/

namespace ZInferLM.Serve
open Library Library.Utf8

/-- A session with its connection, and what has been sent of a chunk whose write failed. -/
structure Connection where
  session : Session
  keepAlive : Bool
  closed : Bool
  cut : Bytes

namespace Connection
open Session (otherHandlers)

def start : Connection := ⟨.start, true, false, []⟩

def withSession (c : Connection) (s : Session) : Connection := { c with session := s }

def doClose (c : Connection) : Connection := { c with closed := true }

/-- The last chunk of a response ends the connection that is not kept alive. -/
def handle (c : Connection) : Handler → Connection
  | .written (.chunk currentChunk) =>
    let s := { c.session with isWriting := false }
    if isTerminal currentChunk then
      if c.keepAlive then c.withSession s.doRead else (c.withSession s).doClose
    else c.withSession s.flushStreamingQueue
  | h => c.withSession (c.session.handle h)

def runStrand (c : Connection) : Option Connection :=
  match c.session.strand with
  | [] => none
  | h :: strand => some (handle (c.withSession { c.session with strand := strand }) h)

def receive (c : Connection) (keepAlive : Bool) : Option Connection :=
  c.session.receive.map fun s => { c with session := s, keepAlive := keepAlive }

def readFails (c : Connection) (endOfStream : Bool) : Option Connection :=
  if c.session.reads = 0 then none
  else
    let c := c.withSession { c.session with reads := c.session.reads - 1 }
    some (if endOfStream then c.doClose else c)

/-- The outstanding write completes, unless the sending side is shut down. -/
def complete (c : Connection) : Option Connection :=
  if c.closed then none else c.session.complete.map c.withSession

def completeLate (c : Connection) (bytes : Bytes) : Option Connection :=
  if c.closed then none else (c.session.completeLate bytes).map c.withSession

/-- The outstanding write fails, and its handler runs. Until then the handlers in front of it find
`is_writing_` set. A write is made in several parts, of which the first ones may have been sent; with
a part of a header no body begins. -/
def writeFails (c : Connection) (bytes : Bytes) : Option Connection :=
  match c.session.writes with
  | [] => none
  | .header :: writes => some (doClose (c.withSession { c.session with writes := writes }))
  | .chunk currentChunk :: writes =>
    if bytes.length < currentChunk.length ∧ (c.closed = true → bytes = []) then
      some (doClose { c.withSession { c.session with writes := writes, isWriting := false } with
        cut := c.cut ++ bytes })
    else none

inductive Label where
  | receive (keepAlive : Bool)
  | readFails (endOfStream : Bool)
  | run | complete
  | completeLate (bytes : Bytes)
  | writeFails (bytes : Bytes)
  | take
  | enqueue (payload : Json) (isEnd : Bool)
  | post

def step (serialize : Json → Bytes) (c : Connection) : Label → Option Connection
  | .receive keepAlive => c.receive keepAlive
  | .readFails endOfStream => c.readFails endOfStream
  | .run => c.runStrand
  | .complete => c.complete
  | .completeLate bytes => c.completeLate bytes
  | .writeFails bytes => c.writeFails bytes
  | .take => c.session.take.map c.withSession
  | .enqueue payload isEnd => (c.session.enqueue serialize payload isEnd).map c.withSession
  | .post => c.session.post.map c.withSession

def system (serialize : Json → Bytes) : Transitions Connection Label := ⟨start, step serialize⟩

/-- Orderly steps, as of a session whose operations succeed. What has been sent of a chunk whose write
fails is the first part of it. -/
def Orderly (c : Connection) : Label → Prop
  | .run => c.session.Orderly .run
  | .completeLate bytes => c.session.Orderly (.completeLate bytes)
  | .writeFails bytes => ∀ currentChunk ∈ c.session.writes.head?.bind Write.chunk?,
      bytes <+: currentChunk
  | _ => True

def isLast : Handler → Bool
  | .written (.chunk currentChunk) => isTerminal currentChunk
  | _ => false

/-- The steps that end a connection: an operation fails, or the last chunk has been written and the
connection is not kept alive. -/
def Ends (c : Connection) : Label → Prop
  | .readFails _ | .writeFails _ => True
  | .run => c.keepAlive = false ∧ c.session.strand.head?.any isLast = true
  | _ => False

structure Unread (s : Session) : Prop where
  reads : s.reads = 0
  pending : otherHandlers s.strand = []
  writes : s.writes = []
  queue : s.streamingQueue = []
  worker : s.worker = .idle ∨ s.worker = .posting true
  tasks : s.tasks = 0
  io : s.io = s.expectedIo
  first : s.headerSent = false → .flush ∉ s.strand ∧ s.worker = .idle

/-- A session whose writes fail. When its header has failed, it writes nothing any more. -/
structure Broken (s : Session) (done : List (List Bytes)) (gone : List Bytes) : Prop
    extends s.Responding done gone where
  pending : otherHandlers s.strand = []
  writes : s.writes = [] ∨ s.headerSent = true ∧ ∃ b, s.writes = [.chunk b]
  ready : s.isWriting = false → s.headerSent = true ∧ s.writes = []

/-- What has been sent is the first part of these writes, of which the last one may be cut. -/
structure FirstPart (c : Connection) (writes : List Write) : Prop where
  sent : c.session.sent <+: writes
  cut : c.cut ≠ [] → ∃ currentChunk, c.cut <+: currentChunk ∧
    c.session.sent ++ [.chunk currentChunk] <+: writes

/-- What has been sent is the first part of what was written. -/
def Delivered (c : Connection) : Prop := c.FirstPart (c.session.io.filterMap Io.write?)

inductive Over (c : Connection) : Prop where
  | unread (h : Unread c.session)
  | broken (done : List (List Bytes)) (gone : List Bytes) (closed : c.closed = true)
    (h : Broken c.session done gone)

/-- The states of a connection none of whose operations has failed. -/
structure Alive (c : Connection) : Prop where
  consistent : c.session.Consistent
  accounted : c.session.Accounted
  isOpen : c.closed = false
  uncut : c.cut = []

/-- Between two states no write has completed and no request was read, nor will one be. -/
structure Stopped (c c' : Connection) : Prop where
  sent : c'.session.sent = c.session.sent
  requests : c'.session.responses.length = c.session.responses.length
  reads : c'.session.reads = 0
  io : c.session.io <+: c'.session.io

/-- One write at a time, all in order and once, and what has been sent is the first part of the
headers and chunks of the responses. -/
structure InOrder (c : Connection) : Prop where
  exclusive : c.session.writes.length ≤ 1
  ordered : c.session.io <+: c.session.expectedIo
  sent : c.FirstPart (c.session.responses.flatMap fun chunks => .header :: chunks.map Write.chunk)

variable {c c' c'' : Connection} {s : Session} {serialize : Json → Bytes}
  {done : List (List Bytes)} {gone : List Bytes} {strand : List Handler}

@[simp] theorem withSession_session (c : Connection) (s : Session) :
    (c.withSession s).session = s := rfl

@[simp] theorem withSession_closed (c : Connection) (s : Session) :
    (c.withSession s).closed = c.closed := rfl

@[simp] theorem doClose_session (c : Connection) : c.doClose.session = c.session := rfl

@[simp] theorem doClose_closed (c : Connection) : c.doClose.closed = true := rfl

theorem complete_of_late {bytes : Bytes} (horderly : c.Orderly (.completeLate bytes))
    (h : c.completeLate bytes = some c') : c.complete = some c' := by
  rw [completeLate] at h
  split_ifs at h with hclosed
  obtain ⟨s, hs, rfl⟩ := Option.map_eq_some_iff.mp h
  rw [complete, if_neg hclosed, Session.complete_of_late horderly hs]
  rfl

/-- A handler does what it does in a session that is kept alive, unless it closes the connection. -/
theorem handle_eq {h : Handler} (hends : ¬ (c.keepAlive = false ∧ isLast h = true)) :
    c.handle h = c.withSession (c.session.handle h) := by
  cases h with
  | written w =>
    cases w with
    | header => rfl
    | chunk b =>
      by_cases hb : isTerminal b = true
      · have hkeep : c.keepAlive = true := by
          by_contra hnot
          exact hends ⟨Bool.eq_false_iff.mpr hnot, hb⟩
        simp [handle, Session.handle, hb, hkeep]
      · simp [handle, Session.handle, hb]
  | _ => rfl

theorem eq_flush_of_pending {h : Handler} (hpending : otherHandlers (h :: strand) = []) :
    h = .flush ∧ otherHandlers strand = [] := by
  by_cases hh : h = .flush
  · rw [hh, Session.otherHandlers_flush] at hpending
    exact ⟨hh, hpending⟩
  · rw [Session.otherHandlers_cons hh] at hpending
    cases hpending

theorem Unread.flush (h : Unread s) (hstrand : s.strand = .flush :: strand) :
    Session.flushStreamingQueue { s with strand := strand } = { s with strand := strand } ∧
      Unread { s with strand := strand } := by
  have hheader : s.headerSent = true := by
    by_contra hnot
    exact (h.first (Bool.eq_false_iff.mpr hnot)).1 (hstrand ▸ List.mem_cons_self)
  have hpending := h.pending
  rw [hstrand, Session.otherHandlers_flush] at hpending
  refine ⟨@Session.flush_empty { s with strand := strand } hheader h.queue, ?_⟩
  exact { h with pending := hpending, first := fun hnot => by simp [hheader] at hnot }

theorem Unread.post {isEnd : Bool} (h : Unread s) (hworker : s.worker = .posting isEnd) :
    Unread { s with
      strand := s.strand ++ [.flush], worker := if isEnd then .idle else .streaming } := by
  have hend : isEnd = true := by simpa [hworker] using h.worker
  refine { h with pending := ?_, worker := ?_, first := ?_ }
  · rw [Session.otherHandlers_concat_flush]
    exact h.pending
  · simp [hend]
  · intro hheader
    have hidle := (h.first hheader).2
    rw [hworker] at hidle
    cases hidle

/-- A flush starts the next chunk, when the handler of the write before has run. -/
theorem Broken.flush (h : Broken s done gone) : ∃ gone', Broken s.flushStreamingQueue done gone' := by
  by_cases hwriting : s.isWriting = true
  · rw [Session.flush_writing hwriting]
    exact ⟨gone, h⟩
  · obtain ⟨hheader, hwrites⟩ := h.ready (Bool.eq_false_iff.mpr hwriting)
    cases hqueue : s.streamingQueue with
    | nil =>
      rw [Session.flush_empty hheader hqueue]
      exact ⟨gone, h⟩
    | cons c queue =>
      have hresponses := h.responses
      have hserving := h.serving
      rw [hqueue, List.append_cons gone c queue] at hresponses hserving
      rw [Session.flush_chunk (Bool.eq_false_iff.mpr hwriting) hheader hqueue]
      refine ⟨gone ++ [c], {
        reads := h.reads
        responses := hresponses
        closed := h.closed
        serving := hserving
        io := ?_
        pending := h.pending
        writes := .inr ⟨hheader, c, ?_⟩
        ready := fun hnot => by simp [Session.asyncWrite] at hnot }⟩
      · change s.io ++ [Io.write (.chunk c)] = _
        rw [h.io, Session.writesOf_concat, List.append_assoc]
      · change s.writes ++ [Write.chunk c] = _
        rw [hwrites, List.nil_append]

theorem Broken.take (h : Broken s done gone) (hidle : s.worker = .idle) (htasks : s.tasks ≠ 0) :
    Broken { s with worker := .streaming, tasks := s.tasks - 1, taken := s.taken + 1 } done gone :=
  { h with toResponding := h.toResponding.take hidle htasks }

theorem Broken.enqueued (h : Broken s done gone) (hworker : s.worker = .streaming) {b : Bytes}
    {isEnd : Bool} (hb : isTerminal b = isEnd) : Broken (s.enqueued b isEnd) done gone :=
  { h with toResponding := h.toResponding.enqueued hworker hb }

theorem Broken.post {isEnd : Bool} (h : Broken s done gone) (hworker : s.worker = .posting isEnd) :
    Broken { s with
      strand := s.strand ++ [.flush]
      worker := if isEnd then .idle else .streaming } done gone := by
  refine { h with toResponding := h.toResponding.post hworker, pending := ?_ }
  rw [Session.otherHandlers_concat_flush]
  exact h.pending

theorem Over.reads (h : Over c) : c.session.reads = 0 := by
  cases h with
  | unread h => exact h.reads
  | broken done gone closed h => exact h.reads

theorem Over.pending (h : Over c) : otherHandlers c.session.strand = [] := by
  cases h with
  | unread h => exact h.pending
  | broken done gone closed h => exact h.pending

theorem flush_stopped (hreads : s.reads = 0) :
    Stopped (c.withSession s) (c.withSession s.flushStreamingQueue) := by
  rw [Session.flushStreamingQueue]
  split_ifs
  · exact ⟨rfl, rfl, hreads, List.prefix_rfl⟩
  · exact ⟨rfl, rfl, hreads, List.prefix_append _ _⟩
  · cases s.streamingQueue with
    | nil => exact ⟨rfl, rfl, hreads, List.prefix_rfl⟩
    | cons b queue => exact ⟨rfl, rfl, hreads, List.prefix_append _ _⟩

theorem Over.run (h : Over c) (hstep : c.runStrand = some c') : Over c' ∧ Stopped c c' := by
  cases hstrand : c.session.strand with
  | nil => simp [runStrand, hstrand] at hstep
  | cons handler strand =>
    simp only [runStrand, hstrand, Option.some.injEq] at hstep
    have hpending := h.pending
    rw [hstrand] at hpending
    obtain ⟨rfl, hrest⟩ := eq_flush_of_pending hpending
    subst hstep
    obtain ⟨hsent, hrequests, hreads, hio⟩ :=
      @flush_stopped c { c.session with strand := strand } h.reads
    refine ⟨?_, ⟨hsent, hrequests, hreads, hio⟩⟩
    cases h with
    | unread h =>
      obtain ⟨hflush, hunread⟩ := h.flush hstrand
      refine .unread ?_
      change Unread (Session.flushStreamingQueue { c.session with strand := strand })
      rw [hflush]
      exact hunread
    | broken done gone closed h =>
      have hpopped : Broken { c.session with strand := strand } done gone :=
        { h with pending := hrest }
      obtain ⟨gone', hbroken⟩ := hpopped.flush
      exact .broken done gone' closed hbroken

theorem Over.writeFails {bytes : Bytes} (h : Over c) (hstep : c.writeFails bytes = some c') :
    Over c' ∧ Stopped c c' := by
  cases h with
  | unread h => simp [Connection.writeFails, h.writes] at hstep
  | broken done gone closed h =>
    rcases h.writes with hwrites | ⟨hheader, b, hwrites⟩
    · simp [Connection.writeFails, hwrites] at hstep
    · simp only [Connection.writeFails, hwrites] at hstep
      split_ifs at hstep
      cases hstep
      refine ⟨.broken done gone rfl ?_, ⟨rfl, rfl, h.reads, List.prefix_rfl⟩⟩
      exact { h with writes := .inl rfl, ready := fun _ => ⟨hheader, rfl⟩ }

theorem Over.take (h : Over c) (hstep : c.session.take = some s) :
    Over (c.withSession s) ∧ Stopped c (c.withSession s) := by
  rw [Session.take] at hstep
  split_ifs at hstep with hcond
  cases hstep
  refine ⟨?_, ⟨rfl, rfl, h.reads, List.prefix_rfl⟩⟩
  cases h with
  | unread h => exact absurd h.tasks hcond.2
  | broken done gone closed h => exact .broken done gone closed (h.take hcond.1 hcond.2)

theorem Over.enqueue (hline : ∀ payload, (13 : UInt8) ∉ serialize payload) {payload : Json}
    {isEnd : Bool} (h : Over c) (hstep : c.session.enqueue serialize payload isEnd = some s) :
    Over (c.withSession s) ∧ Stopped c (c.withSession s) := by
  rw [Session.enqueue] at hstep
  split_ifs at hstep with hworker
  have hb : isTerminal (streamJsonMessage serialize payload isEnd) = isEnd :=
    Bool.eq_iff_iff.mpr (isTerminal_iff (hline payload) isEnd)
  generalize streamJsonMessage serialize payload isEnd = b at hb hstep
  cases hstep
  refine ⟨?_, ⟨rfl, List.length_modify _ _ _, h.reads, List.prefix_rfl⟩⟩
  cases h with
  | unread h => exact absurd h.worker (by simp [hworker])
  | broken done gone closed h => exact .broken done gone closed (h.enqueued hworker hb)

theorem Over.post (h : Over c) (hstep : c.session.post = some s) :
    Over (c.withSession s) ∧ Stopped c (c.withSession s) := by
  cases hworker : c.session.worker with
  | idle => simp [Session.post, hworker] at hstep
  | streaming => simp [Session.post, hworker] at hstep
  | posting isEnd =>
    simp only [Session.post, hworker, Option.some.injEq] at hstep
    subst hstep
    refine ⟨?_, ⟨rfl, rfl, h.reads, List.prefix_rfl⟩⟩
    cases h with
    | unread h => exact .unread (h.post hworker)
    | broken done gone closed h => exact .broken done gone closed (h.post hworker)

theorem Over.step (hline : ∀ payload, (13 : UInt8) ∉ serialize payload) (h : Over c)
    {label : Label} (hstep : c.step serialize label = some c') : Over c' ∧ Stopped c c' := by
  cases label with
  | receive keepAlive => simp [Connection.step, receive, Session.receive, h.reads] at hstep
  | readFails endOfStream => simp [Connection.step, readFails, h.reads] at hstep
  | run => exact h.run hstep
  | complete =>
    cases h with
    | unread h => simp [Connection.step, complete, Session.complete, h.writes] at hstep
    | broken done gone closed h => simp [Connection.step, complete, closed] at hstep
  | completeLate bytes =>
    cases h with
    | unread h => simp [Connection.step, completeLate, Session.completeLate, h.writes] at hstep
    | broken done gone closed h => simp [Connection.step, completeLate, closed] at hstep
  | writeFails bytes => exact h.writeFails hstep
  | take =>
    obtain ⟨s, hs, rfl⟩ := Option.map_eq_some_iff.mp hstep
    exact h.take hs
  | enqueue payload isEnd =>
    obtain ⟨s, hs, rfl⟩ := Option.map_eq_some_iff.mp hstep
    exact h.enqueue hline hs
  | post =>
    obtain ⟨s, hs, rfl⟩ := Option.map_eq_some_iff.mp hstep
    exact h.post hs

theorem Stopped.trans (h : Stopped c c') (h' : Stopped c' c'') : Stopped c c'' :=
  ⟨h'.sent.trans h.sent, h'.requests.trans h.requests, h'.reads, h.io.trans h'.io⟩

theorem FirstPart.mono {writes writes' : List Write} (h : c.FirstPart writes)
    (hwrites : writes <+: writes') : c.FirstPart writes' := by
  refine ⟨h.sent.trans hwrites, fun hcut => ?_⟩
  obtain ⟨currentChunk, hprefix, hsent⟩ := h.cut hcut
  exact ⟨currentChunk, hprefix, hsent.trans hwrites⟩

theorem Stopped.delivered (h : Stopped c c') (hcut : c'.cut = c.cut) (hdelivered : Delivered c) :
    Delivered c' := by
  have hmono := hdelivered.mono (h.io.filterMap Io.write?)
  refine ⟨?_, ?_⟩
  · rw [h.sent]
    exact hmono.sent
  · rw [h.sent, hcut]
    exact hmono.cut

theorem handle_cut (c : Connection) (h : Handler) : (c.handle h).cut = c.cut := by
  cases h with
  | written w =>
    cases w with
    | header => rfl
    | chunk bytes =>
      rw [handle]
      dsimp only
      split_ifs <;> rfl
  | _ => rfl

/-- Only a chunk whose write fails is cut. -/
theorem step_cut {label : Label} (hstep : c.step serialize label = some c') : c'.cut = c.cut ∨
    ∃ bytes currentChunk writes, label = .writeFails bytes ∧
      c.session.writes = .chunk currentChunk :: writes ∧ (c.closed = true → bytes = []) ∧
        c'.cut = c.cut ++ bytes := by
  cases label with
  | readFails endOfStream =>
    simp only [Connection.step, readFails] at hstep
    split_ifs at hstep
    all_goals
      cases hstep
      exact .inl rfl
  | run =>
    simp only [Connection.step, runStrand] at hstep
    split at hstep
    · cases hstep
    · cases hstep
      exact .inl (handle_cut _ _)
  | complete =>
    simp only [Connection.step, complete] at hstep
    split_ifs at hstep
    obtain ⟨s, -, rfl⟩ := Option.map_eq_some_iff.mp hstep
    exact .inl rfl
  | completeLate bytes =>
    simp only [Connection.step, completeLate] at hstep
    split_ifs at hstep
    obtain ⟨s, -, rfl⟩ := Option.map_eq_some_iff.mp hstep
    exact .inl rfl
  | writeFails bytes =>
    simp only [Connection.step, writeFails] at hstep
    split at hstep
    · cases hstep
    · cases hstep
      exact .inl rfl
    · rename_i currentChunk writes hwrites
      split_ifs at hstep with hpart
      cases hstep
      exact .inr ⟨bytes, currentChunk, writes, rfl, hwrites, hpart.2, rfl⟩
  | _ =>
    obtain ⟨s, -, rfl⟩ := Option.map_eq_some_iff.mp hstep
    exact .inl rfl

/-- Behind the end of a connection nothing of a chunk is sent. -/
theorem Over.cut_eq (h : Over c) {label : Label} (hstep : c.step serialize label = some c') :
    c'.cut = c.cut := by
  rcases step_cut hstep with hcut | ⟨bytes, currentChunk, writes, -, hwrites, hbytes, hcut⟩
  · exact hcut
  · cases h with
    | unread h => simp [h.writes] at hwrites
    | broken done gone closed h => rw [hcut, hbytes closed, List.append_nil]

theorem between_of_reads (h : s.Consistent) (hreads : s.reads ≠ 0) :
    s.Between ∧ s.reads = 1 ∧ otherHandlers s.strand = [] := by
  cases h with
  | starting h => exact absurd (by rw [h]; rfl) hreads
  | between h => exact ⟨h, h.pending.resolve_right fun hcase => hreads hcase.1⟩
  | initiating done h => exact absurd h.reads hreads
  | waiting done gone h woken => exact absurd h.reads hreads
  | writing done gone w h => exact absurd h.reads hreads

theorem writing_of_writes (h : s.Consistent) {w : Write} {writes : List Write}
    (hwrites : s.writes = w :: writes) :
    ∃ done gone, s.Writing done gone w ∧ writes = [] ∧ otherHandlers s.strand = [] := by
  cases h with
  | starting h => simp [h, Session.start] at hwrites
  | between h => simp [h.writes] at hwrites
  | initiating done h => simp [h.writes] at hwrites
  | waiting done gone h woken => simp [h.writes] at hwrites
  | writing done gone v h =>
    rcases h.write with ⟨hone, hpending⟩ | ⟨hnone, -⟩
    · obtain ⟨rfl, hnil⟩ := List.cons.inj (hwrites.symm.trans hone)
      exact ⟨done, gone, h, hnil, hpending⟩
    · simp [hnone] at hwrites

theorem writing_of_strand (h : s.Consistent) {w : Write} (hstrand : s.strand = .written w :: strand) :
    ∃ done gone, s.Writing done gone w ∧ s.writes = [] ∧ otherHandlers strand = [] := by
  have hother : otherHandlers s.strand = .written w :: otherHandlers strand := by
    rw [hstrand, Session.otherHandlers_cons (by simp)]
  cases h with
  | starting h => simp [h, Session.start] at hstrand
  | between h =>
    rcases h.pending with ⟨-, hpending⟩ | ⟨-, hpending⟩
    · simp [hpending] at hother
    · simp [hpending] at hother
  | initiating done h => simp [h.pending] at hother
  | waiting done gone h woken => simp [h.pending] at hother
  | writing done gone v h =>
    rcases h.write with ⟨-, hpending⟩ | ⟨hnone, hpending⟩
    · simp [hpending] at hother
    · obtain ⟨hv, hnil⟩ := List.cons.inj (hpending.symm.trans hother)
      cases hv
      exact ⟨done, gone, h, hnone, hnil.symm⟩

/-- A step that ends the connection cuts the chunk at most that is being written. -/
theorem Alive.delivered (h : Alive c) {label : Label} (horderly : c.Orderly label)
    (hstep : c.step serialize label = some c') (hstopped : Stopped c c') : Delivered c' := by
  have haccounted : c.session.io.filterMap Io.write? = c.session.sent ++ c.session.writes := h.accounted
  have hwritten := hstopped.io.filterMap Io.write?
  rw [haccounted] at hwritten
  refine ⟨?_, fun hcut => ?_⟩
  · rw [hstopped.sent]
    exact (List.prefix_append _ _).trans hwritten
  · rcases step_cut hstep with hsame | ⟨bytes, currentChunk, writes, rfl, hwrites, -, hbytes⟩
    · rw [h.uncut] at hsame
      exact absurd hsame hcut
    · rw [h.uncut, List.nil_append] at hbytes
      refine ⟨currentChunk, ?_, ?_⟩
      · rw [hbytes]
        exact horderly currentChunk (by rw [hwrites]; rfl)
      · rw [hstopped.sent]
        rw [hwrites] at hwritten
        exact ((List.prefix_append_right_inj _).mpr (List.prefix_append [_] writes)).trans hwritten

theorem Alive.readFails (h : Alive c) {endOfStream : Bool}
    (hstep : c.readFails endOfStream = some c') : Over c' ∧ Stopped c c' := by
  rw [Connection.readFails] at hstep
  split_ifs at hstep with hreads hend
  all_goals
    cases hstep
    obtain ⟨hbetween, hone, hpending⟩ := between_of_reads h.consistent hreads
    have hnone : c.session.reads - 1 = 0 := by rw [hone]
    exact ⟨.unread { hbetween with reads := hnone, pending := hpending },
      ⟨rfl, rfl, hnone, List.prefix_rfl⟩⟩

theorem Alive.writeFails {bytes : Bytes} (h : Alive c) (hstep : c.writeFails bytes = some c') :
    Over c' ∧ Stopped c c' := by
  cases hwrites : c.session.writes with
  | nil => simp [Connection.writeFails, hwrites] at hstep
  | cons w writes =>
    obtain ⟨done, gone, hwriting, rfl, hpending⟩ := writing_of_writes h.consistent hwrites
    cases w with
    | header =>
      simp only [Connection.writeFails, hwrites, Option.some.injEq] at hstep
      subst hstep
      refine ⟨.broken done gone rfl ?_, ⟨rfl, rfl, hwriting.reads, List.prefix_rfl⟩⟩
      exact {
        toResponding := { hwriting.toResponding with }
        pending := hpending
        writes := .inl rfl
        ready := fun hnot => by simp [hwriting.isWriting] at hnot }
    | chunk b =>
      simp only [Connection.writeFails, hwrites] at hstep
      split_ifs at hstep
      cases hstep
      obtain ⟨before, c, -, -, -, hheader⟩ := hwriting.stage.resolve_left fun hcase => by simp at hcase
      refine ⟨.broken done gone rfl ?_, ⟨rfl, rfl, hwriting.reads, List.prefix_rfl⟩⟩
      exact {
        toResponding := { hwriting.toResponding with }
        pending := hpending
        writes := .inl rfl
        ready := fun _ => ⟨hheader, rfl⟩ }

theorem Alive.closes (h : Alive c) (hends : c.Ends .run) (hstep : c.runStrand = some c') :
    Over c' ∧ Stopped c c' := by
  obtain ⟨hkeep, hlast⟩ := hends
  cases hstrand : c.session.strand with
  | nil => simp [hstrand] at hlast
  | cons handler strand =>
    rw [hstrand] at hlast
    change isLast handler = true at hlast
    cases handler with
    | written w =>
      cases w with
      | header => cases hlast
      | chunk b =>
        have hb : isTerminal b = true := hlast
        obtain ⟨done, gone, hwriting, hwrites, hpending⟩ := writing_of_strand h.consistent hstrand
        obtain ⟨before, c, -, -, -, hheader⟩ :=
          hwriting.stage.resolve_left fun hcase => by simp at hcase
        simp only [runStrand, hstrand, Option.some.injEq, handle, if_pos hb, withSession, hkeep,
          if_neg Bool.false_ne_true] at hstep
        subst hstep
        refine ⟨.broken done gone rfl ?_, ⟨rfl, rfl, hwriting.reads, List.prefix_rfl⟩⟩
        exact {
          toResponding := { hwriting.toResponding with }
          pending := hpending
          writes := .inl hwrites
          ready := fun _ => ⟨hheader, hwrites⟩ }
    | _ => cases hlast

/-- The steps that do not end a connection are those of its session. -/
theorem Alive.step (hline : ∀ payload, (13 : UInt8) ∉ serialize payload) (h : Alive c)
    {label : Label} (horderly : c.Orderly label) (hnot : ¬ c.Ends label)
    (hstep : c.step serialize label = some c') : Alive c' := by
  have hsession : ∀ (l : Session.Label) (s : Session), c.session.Orderly l →
      c.session.step serialize l = some s → s.Consistent ∧ s.Accounted := by
    intro l s hl hs
    exact ⟨h.consistent.step hline hl hs, h.accounted.step hl hs⟩
  cases label with
  | receive keepAlive =>
    obtain ⟨s, hs, rfl⟩ := Option.map_eq_some_iff.mp hstep
    obtain ⟨hconsistent, haccounted⟩ := hsession .receive s trivial hs
    exact ⟨hconsistent, haccounted, h.isOpen, h.uncut⟩
  | readFails endOfStream => exact absurd trivial hnot
  | run =>
    cases hstrand : c.session.strand with
    | nil => simp [Connection.step, runStrand, hstrand] at hstep
    | cons handler strand =>
      simp only [Connection.step, runStrand, hstrand, Option.some.injEq] at hstep
      have hcontinues : ¬ (c.keepAlive = false ∧ isLast handler = true) := by
        intro hlast
        rw [Ends, hstrand] at hnot
        exact hnot hlast
      rw [@handle_eq (c.withSession { c.session with strand := strand }) handler hcontinues] at hstep
      subst hstep
      obtain ⟨hconsistent, haccounted⟩ := hsession .run _ horderly
        (by rw [Session.step, Session.runStrand, hstrand])
      exact ⟨hconsistent, haccounted, h.isOpen, h.uncut⟩
  | complete =>
    simp only [Connection.step, complete, h.isOpen, if_neg Bool.false_ne_true] at hstep
    obtain ⟨s, hs, rfl⟩ := Option.map_eq_some_iff.mp hstep
    obtain ⟨hconsistent, haccounted⟩ := hsession .complete s trivial hs
    exact ⟨hconsistent, haccounted, h.isOpen, h.uncut⟩
  | completeLate bytes =>
    simp only [Connection.step, completeLate, h.isOpen, if_neg Bool.false_ne_true] at hstep
    obtain ⟨s, hs, rfl⟩ := Option.map_eq_some_iff.mp hstep
    obtain ⟨hconsistent, haccounted⟩ := hsession (.completeLate bytes) s horderly hs
    exact ⟨hconsistent, haccounted, h.isOpen, h.uncut⟩
  | writeFails bytes => exact absurd trivial hnot
  | take =>
    obtain ⟨s, hs, rfl⟩ := Option.map_eq_some_iff.mp hstep
    obtain ⟨hconsistent, haccounted⟩ := hsession .take s trivial hs
    exact ⟨hconsistent, haccounted, h.isOpen, h.uncut⟩
  | enqueue payload isEnd =>
    obtain ⟨s, hs, rfl⟩ := Option.map_eq_some_iff.mp hstep
    obtain ⟨hconsistent, haccounted⟩ := hsession (.enqueue payload isEnd) s trivial hs
    exact ⟨hconsistent, haccounted, h.isOpen, h.uncut⟩
  | post =>
    obtain ⟨s, hs, rfl⟩ := Option.map_eq_some_iff.mp hstep
    obtain ⟨hconsistent, haccounted⟩ := hsession .post s trivial hs
    exact ⟨hconsistent, haccounted, h.isOpen, h.uncut⟩

theorem Alive.ends (h : Alive c) {label : Label} (hends : c.Ends label)
    (hstep : c.step serialize label = some c') : Over c' ∧ Stopped c c' := by
  cases label with
  | readFails endOfStream => exact h.readFails hstep
  | writeFails bytes => exact h.writeFails hstep
  | run => exact h.closes hends hstep
  | _ => cases hends

def Sound (c : Connection) : Prop := Alive c ∨ Over c ∧ Delivered c

theorem Sound.ends (hline : ∀ payload, (13 : UInt8) ∉ serialize payload) (h : Sound c)
    {label : Label} (hends : c.Ends label) (hstep : c.step serialize label = some c') :
    Over c' ∧ Stopped c c' := by
  rcases h with halive | ⟨hover, -⟩
  · exact halive.ends hends hstep
  · exact hover.step hline hstep

theorem Sound.step (hline : ∀ payload, (13 : UInt8) ∉ serialize payload) (h : Sound c)
    {label : Label} (horderly : c.Orderly label) (hstep : c.step serialize label = some c') :
    Sound c' := by
  rcases h with halive | ⟨hover, hdelivered⟩
  · by_cases hends : c.Ends label
    · obtain ⟨hover, hstopped⟩ := halive.ends hends hstep
      exact .inr ⟨hover, halive.delivered horderly hstep hstopped⟩
    · exact .inl (halive.step hline horderly hends hstep)
  · obtain ⟨hover', hstopped⟩ := hover.step hline hstep
    exact .inr ⟨hover', hstopped.delivered (hover.cut_eq hstep) hdelivered⟩

theorem Sound.exclusive (h : Sound c) : c.session.writes.length ≤ 1 := by
  rcases h with halive | ⟨hover, -⟩
  · exact halive.consistent.exclusive
  · cases hover with
    | unread h => simp [h.writes]
    | broken done gone closed h =>
      rcases h.writes with hwrites | ⟨-, b, hwrites⟩
      · simp [hwrites]
      · simp [hwrites]

theorem Sound.ordered (h : Sound c) : c.session.io <+: c.session.expectedIo := by
  rcases h with halive | ⟨hover, -⟩
  · exact halive.consistent.ordered
  · cases hover with
    | unread h => rw [h.io]
    | broken done gone closed h => exact h.ordered

theorem Sound.delivered (h : Sound c) : Delivered c := by
  rcases h with halive | ⟨-, hdelivered⟩
  · refine ⟨?_, fun hcut => absurd halive.uncut hcut⟩
    have haccounted : c.session.io.filterMap Io.write? = c.session.sent ++ c.session.writes :=
      halive.accounted
    rw [haccounted]
    exact List.prefix_append _ _
  · exact hdelivered

theorem Sound.inOrder (h : Sound c) : InOrder c := by
  refine ⟨h.exclusive, h.ordered, ?_⟩
  have hwrites : c.session.expectedIo.filterMap Io.write? =
      c.session.responses.flatMap fun chunks => .header :: chunks.map Write.chunk := by
    rw [Session.expectedIo, List.filterMap_cons_none rfl, List.filterMap_flatMap]
    exact congrArg c.session.responses.flatMap (funext Session.writes_response)
  rw [← hwrites]
  exact h.delivered.mono (h.ordered.filterMap _)

theorem sound_of_meets (hline : ∀ payload, (13 : UInt8) ∉ serialize payload) {labels : List Label}
    (horderly : (system serialize).Meets Orderly start labels)
    (hrun : (system serialize).run labels = some c) : Sound c :=
  Transitions.invariant_of_meets (fun _ _ _ _ hlabel hstep h => h.step hline hlabel hstep)
    (system serialize).reachable_start (.inl ⟨.starting rfl, rfl, rfl, rfl⟩) horderly hrun

/-- What a list begins with that is mapped to lists is whole ones and the first part of the next. -/
theorem prefix_flatMap {α β : Type} (f : α → List β) {xs : List α} {ys : List β} {y : β}
    (h : ys ++ [y] <+: xs.flatMap f) : ∃ whole x part, ys = whole.flatMap f ++ part ∧
      part ++ [y] <+: f x ∧ whole ++ [x] <+: xs := by
  induction xs generalizing ys with
  | nil => exact absurd (List.prefix_nil.mp h) (List.concat_ne_nil _ _)
  | cons x xs ih =>
    rw [List.flatMap_cons] at h
    by_cases hpart : ys ++ [y] <+: f x
    · exact ⟨[], x, ys, rfl, hpart, List.prefix_append [x] xs⟩
    · obtain ⟨zs, hzs⟩ :=
        (List.prefix_or_prefix_of_prefix h (List.prefix_append (f x) _)).resolve_left hpart
      rcases List.eq_nil_or_concat' zs with rfl | ⟨zs, z, rfl⟩
      · rw [List.append_nil] at hzs
        rw [hzs] at hpart
        exact absurd List.prefix_rfl hpart
      · rw [← List.append_assoc] at hzs
        obtain ⟨rfl, hz⟩ := List.append_inj' hzs rfl
        cases hz
        rw [List.append_assoc] at h
        obtain ⟨whole, x', part, rfl, hpart', hwhole⟩ := ih ((List.prefix_append_right_inj (f x)).mp h)
        refine ⟨x :: whole, x', part, by rw [List.flatMap_cons, List.append_assoc], hpart', ?_⟩
        exact List.cons_prefix_cons.mpr ⟨rfl, hwhole⟩

/-- What has been sent of a response, and a part of its next chunk, is the first part of its body. -/
theorem bodies_cut {responses : List (List Bytes)} {sent : List Write} {chunk cut : Bytes}
    (h : sent ++ [.chunk chunk] <+:
      responses.flatMap fun chunks => .header :: chunks.map Write.chunk) (hcut : cut <+: chunk) :
    ∃ whole chunks part, bodies (sent ++ [.chunk cut]) = whole.map List.flatten ++ [part] ∧
      part <+: chunks.flatten ∧ whole ++ [chunks] <+: responses := by
  obtain ⟨whole, chunks, part, rfl, hpart, hwhole⟩ := prefix_flatMap _ h
  cases part with
  | nil => cases (List.cons_prefix_cons.mp hpart).1
  | cons w part =>
    obtain ⟨rfl, hrest⟩ := List.cons_prefix_cons.mp hpart
    obtain ⟨gone, hgone, heq⟩ := List.prefix_map_iff.mp hrest
    obtain ⟨before, last, rfl, rfl, hlast⟩ := List.append_eq_map_iff.mp heq
    obtain ⟨c, rfl, hc⟩ := List.map_eq_singleton_iff.mp hlast
    cases hc
    refine ⟨whole, chunks, before.flatten ++ cut, ?_, ?_, hwhole⟩
    · have hchunks : before.map Write.chunk ++ [.chunk cut] = (before ++ [cut]).map Write.chunk := by
        rw [List.map_append, List.map_singleton]
      rw [List.append_assoc, List.cons_append, hchunks, bodies, List.foldl_append, ← bodies,
        bodies_responses, List.foldl_cons, bodiesAfter, bodiesAfter_chunks, List.nil_append,
        List.flatten_append, List.flatten_singleton]
    · obtain ⟨rest, rfl⟩ := hgone
      obtain ⟨last, rfl⟩ := hcut
      rw [List.flatten_append, List.flatten_append, List.flatten_singleton, ← List.append_assoc,
        List.append_assoc (before.flatten ++ cut)]
      exact List.prefix_append _ _

def arrived (c : Connection) : List Write := c.session.sent ++ [.chunk c.cut]

/-- The bodies that arrive are those of the responses, in order, and only the last one may be cut. -/
def Received (responses : List (List Bytes)) (bodies : List Bytes) : Prop :=
  ∃ whole cut, bodies = whole.map List.flatten ++ cut ∧
    (cut = [] ∧ whole <+: responses ∨
      ∃ chunks part, cut = [part] ∧ part <+: chunks.flatten ∧ whole ++ [chunks] <+: responses)

theorem bodies_nil_chunk (sent : List Write) : bodies (sent ++ [.chunk []]) = bodies sent := by
  rw [bodies, List.foldl_append, ← bodies, List.foldl_cons, List.foldl_nil, bodiesAfter]
  simp only [List.append_nil]
  exact List.modify_id _ _

theorem InOrder.received (h : InOrder c) :
    Received c.session.responses (bodies c.arrived) := by
  by_cases hcut : c.cut = []
  · rw [arrived, hcut, bodies_nil_chunk]
    have hsent := h.sent.sent
    rcases List.eq_nil_or_concat' c.session.sent with hnil | ⟨sent, w, hconcat⟩
    · rw [hnil]
      exact ⟨[], [], rfl, .inl ⟨rfl, List.nil_prefix⟩⟩
    · rw [hconcat] at hsent ⊢
      cases w with
      | header =>
        obtain ⟨whole, chunks, part, rfl, hpart, hwhole⟩ := prefix_flatMap _ hsent
        cases part with
        | nil =>
          refine ⟨whole, [[]], ?_, .inr ⟨chunks, [], rfl, List.nil_prefix, hwhole⟩⟩
          rw [List.append_nil, bodies, List.foldl_append, ← bodies, bodies_responses]
          rfl
        | cons w part =>
          have hmem := (List.cons_prefix_cons.mp hpart).2.subset (List.mem_concat_self ..)
          obtain ⟨c, -, hc⟩ := List.mem_map.mp hmem
          cases hc
      | chunk bytes =>
        obtain ⟨whole, chunks, part, hbodies, hpart, hwhole⟩ := bodies_cut hsent List.prefix_rfl
        exact ⟨whole, [part], hbodies, .inr ⟨chunks, part, rfl, hpart, hwhole⟩⟩
  · obtain ⟨chunk, hprefix, hsent⟩ := h.sent.cut hcut
    obtain ⟨whole, chunks, part, hbodies, hpart, hwhole⟩ := bodies_cut hsent hprefix
    exact ⟨whole, [part], hbodies, .inr ⟨chunks, part, rfl, hpart, hwhole⟩⟩

/-- In an orderly run everything is written one at a time and in order, and what arrives is the first
part of it. Behind a step that ends the connection nothing more arrives and no request is read. -/
theorem fails_safely (hline : ∀ payload, (13 : UInt8) ∉ serialize payload) {labels : List Label}
    (horderly : (system serialize).Meets Orderly start labels)
    (hrun : (system serialize).run labels = some c) :
    InOrder c ∧ Received c.session.responses (bodies c.arrived) ∧
      ∀ before label after c₀ c₁, labels = before ++ label :: after →
        (system serialize).run before = some c₀ → c₀.Ends label →
          c₀.step serialize label = some c₁ → Stopped c₀ c ∧ c.cut = c₁.cut := by
  have hinOrder := (sound_of_meets hline horderly hrun).inOrder
  refine ⟨hinOrder, hinOrder.received, ?_⟩
  intro before label after c₀ c₁ hlabels hbefore hends hstep
  rw [hlabels] at horderly hrun
  have hsound := sound_of_meets hline horderly.left hbefore
  rw [Transitions.run, Transitions.runFrom_append] at hrun
  rw [Transitions.run] at hbefore
  rw [hbefore] at hrun
  obtain ⟨c₂, hstep', hrest⟩ := Transitions.runFrom_cons.mp hrun
  cases hstep.symm.trans hstep'
  obtain ⟨hover, hstopped⟩ := hsound.ends hline hends hstep
  have hinv : Over c ∧ Stopped c₀ c ∧ c.cut = c₁.cut := by
    apply Transitions.invariant_runFrom _ ⟨hover, hstopped, rfl⟩ hrest
    rintro c₂ label c₃ hstep ⟨hover, hstopped, hcut⟩
    obtain ⟨hover', hstopped'⟩ := hover.step hline hstep
    exact ⟨hover', hstopped.trans hstopped', (hover.cut_eq hstep).trans hcut⟩
  exact hinv.2

instance (c : Connection) : (label : Label) → Decidable (c.Orderly label)
  | .run => inferInstanceAs (Decidable (c.session.Orderly .run))
  | .completeLate bytes => inferInstanceAs (Decidable (c.session.Orderly (.completeLate bytes)))
  | .writeFails bytes => inferInstanceAs (Decidable (∀ currentChunk ∈ c.session.writes.head?.bind
      Write.chunk?, bytes <+: currentChunk))
  | .receive _ => isTrue trivial
  | .readFails _ => isTrue trivial
  | .complete => isTrue trivial
  | .take => isTrue trivial
  | .enqueue _ _ => isTrue trivial
  | .post => isTrue trivial

def firstChunk : List Label :=
  [.run, .receive true, .run, .take, .run, .enqueue .null false, .post, .run, .complete, .run]

def firstBytes : Bytes := Tokenizer.literal "c\r\ndata"

/-- The worker goes on with its task, and its last message fails, too. -/
def goneClient : List Label :=
  firstChunk ++ .writeFails firstBytes :: [.enqueue .null true, .post, .run, .writeFails []]

theorem fails_safely_goneClient : ∃ c, (system Session.writeNull).run goneClient = some c ∧
    InOrder c ∧ Received c.session.responses (bodies c.arrived) ∧ c.session.sent = [.header] ∧
      c.cut = firstBytes ∧ c.session.reads = 0 := by
  have hbefore : ((system Session.writeNull).run firstChunk).isSome = true := by decide +kernel
  have hrun : ((system Session.writeNull).run goneClient).isSome = true := by decide +kernel
  have hsent : ∀ c ∈ (system Session.writeNull).run firstChunk, c.session.sent = [.header] ∧
      ((c.writeFails firstBytes).map Connection.cut) = some firstBytes := by decide +kernel
  obtain ⟨c₀, hc₀⟩ := Option.isSome_iff_exists.mp hbefore
  obtain ⟨c, hc⟩ := Option.isSome_iff_exists.mp hrun
  obtain ⟨hheader, hcut⟩ := hsent c₀ hc₀
  obtain ⟨c₁, hc₁, hfirst⟩ := Option.map_eq_some_iff.mp hcut
  obtain ⟨hinOrder, hreceived, hends⟩ :=
    fails_safely Session.writeNull_line (by decide +kernel) hc
  obtain ⟨hstopped, hsame⟩ := hends firstChunk (.writeFails firstBytes) _ c₀ c₁ rfl hc₀ trivial hc₁
  exact ⟨c, hc, hinOrder, hreceived, hstopped.sent.trans hheader, hsame.trans hfirst, hstopped.reads⟩

end Connection

end ZInferLM.Serve
