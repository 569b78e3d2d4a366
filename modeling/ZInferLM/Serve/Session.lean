import ZInferLM.Library.Transitions
import ZInferLM.Serve.Wire

/-! # A session that streams

The handlers of a session run one after the other on its strand, in the order they were posted. The
worker puts a message into the queue and posts a flush as two steps, and a write that has completed
posts its handler. The connection is kept alive, its requests stream, and its writes succeed.
A chunk is written from a local variable of the flush, while the handler of the write has a copy. -/

namespace ZInferLM.Serve
open Library Library.Utf8

/-- What is written: the header of a response or a chunk of it. -/
inductive Write where
  | header
  | chunk (bytes : Bytes)
  deriving DecidableEq

def Write.chunk? : Write → Option Bytes
  | .header => none
  | .chunk bytes => some bytes

/-- The operations that a session starts on its connection. -/
inductive Io where
  | read
  | write (w : Write)
  deriving DecidableEq

def Io.write? : Io → Option Write
  | .read => none
  | .write w => some w

inductive Handler where
  | doRead | handleRequest | initiateStreaming | flush
  | written (w : Write)
  deriving DecidableEq

/-- The worker streams a message in two steps, of which the second posts the flush. -/
inductive WorkerPhase where
  | idle | streaming
  | posting (isEnd : Bool)
  deriving DecidableEq

/-- A session, with the operations that have not completed, the worker and its tasks, and the
history: the chunks of every request, the operations that were started, and the writes that have
completed. -/
structure Session where
  isWriting : Bool
  headerSent : Bool
  streamingQueue : List Bytes
  strand : List Handler
  reads : ℕ
  writes : List Write
  worker : WorkerPhase
  tasks : ℕ
  taken : ℕ
  responses : List (List Bytes)
  io : List Io
  sent : List Write

namespace Session

def start : Session :=
  ⟨false, false, [], [.doRead], 0, [], .idle, 0, 0, [], [], []⟩

def doRead (s : Session) : Session := { s with reads := s.reads + 1, io := s.io ++ [.read] }

def asyncWrite (s : Session) (w : Write) : Session :=
  { s with isWriting := true, writes := s.writes ++ [w], io := s.io ++ [.write w] }

def flushStreamingQueue (s : Session) : Session :=
  if s.isWriting then s
  else if !s.headerSent then s.asyncWrite .header
  else match s.streamingQueue with
    | [] => s
    | currentChunk :: queue => asyncWrite { s with streamingQueue := queue } (.chunk currentChunk)

/-- A request posts the start of its response and hands its task to the worker. -/
def handleRequest (s : Session) : Session :=
  { s with
    strand := s.strand ++ [.initiateStreaming]
    tasks := s.tasks + 1
    responses := s.responses ++ [[]] }

def handle (s : Session) : Handler → Session
  | .doRead => s.doRead
  | .handleRequest => s.handleRequest
  | .initiateStreaming => flushStreamingQueue { s with headerSent := false }
  | .flush => s.flushStreamingQueue
  | .written .header => flushStreamingQueue { s with headerSent := true, isWriting := false }
  | .written (.chunk currentChunk) =>
    if isTerminal currentChunk then doRead { s with isWriting := false }
    else flushStreamingQueue { s with isWriting := false }

/-- A request arrives, when the session reads. -/
def receive (s : Session) : Option Session :=
  if s.reads = 0 then none
  else some { s with reads := s.reads - 1, strand := s.strand ++ [.handleRequest] }

def runStrand (s : Session) : Option Session :=
  match s.strand with
  | [] => none
  | h :: strand => some (handle { s with strand := strand } h)

/-- The outstanding write completes: a header, or a chunk that the socket took whole while the flush
ran that wrote it. -/
def complete (s : Session) : Option Session :=
  match s.writes with
  | [] => none
  | w :: writes => some { s with
      writes := writes, sent := s.sent ++ [w], strand := s.strand ++ [.written w] }

/-- The outstanding write of a chunk completes that the socket had not taken whole by then. The string
that it is written from is destroyed, so that any bytes may be sent in its place. -/
def completeLate (s : Session) (bytes : Bytes) : Option Session :=
  match s.writes with
  | .chunk currentChunk :: writes =>
    if bytes.length = currentChunk.length then some { s with
      writes := writes
      sent := s.sent ++ [.chunk bytes]
      strand := s.strand ++ [.written (.chunk currentChunk)] }
    else none
  | _ => none

/-- The worker goes on with the next task, when it has finished the one before. -/
def take (s : Session) : Option Session :=
  if s.worker = .idle ∧ s.tasks ≠ 0 then
    some { s with worker := .streaming, tasks := s.tasks - 1, taken := s.taken + 1 }
  else none

/-- The first step of `stream_json_message`: the chunk is put into the queue. -/
def enqueue (serialize : Json → Bytes) (s : Session) (payload : Json) (isEnd : Bool) :
    Option Session :=
  if s.worker = .streaming then
    let chunkedBytes := streamJsonMessage serialize payload isEnd
    some { s with
      streamingQueue := s.streamingQueue ++ [chunkedBytes]
      responses := s.responses.modify (s.taken - 1) (· ++ [chunkedBytes])
      worker := .posting isEnd }
  else none

/-- The second step: a flush is posted. A task ends with its last message. -/
def post (s : Session) : Option Session :=
  match s.worker with
  | .posting isEnd => some { s with
      strand := s.strand ++ [.flush], worker := if isEnd then .idle else .streaming }
  | _ => none

inductive Label where
  | receive | run | complete
  | completeLate (bytes : Bytes)
  | take
  | enqueue (payload : Json) (isEnd : Bool)
  | post

def step (serialize : Json → Bytes) (s : Session) : Label → Option Session
  | .receive => s.receive
  | .run => s.runStrand
  | .complete => s.complete
  | .completeLate bytes => s.completeLate bytes
  | .take => s.take
  | .enqueue payload isEnd => s.enqueue serialize payload isEnd
  | .post => s.post

def system (serialize : Json → Bytes) : Transitions Session Label := ⟨start, step serialize⟩

section Flush
variable {s : Session}

theorem flush_writing (h : s.isWriting = true) : s.flushStreamingQueue = s := by
  rw [flushStreamingQueue, if_pos h]

theorem flush_header (h : s.isWriting = false) (hheader : s.headerSent = false) :
    s.flushStreamingQueue = s.asyncWrite .header := by
  rw [flushStreamingQueue, h, hheader]
  rfl

theorem flush_empty (hheader : s.headerSent = true) (hqueue : s.streamingQueue = []) :
    s.flushStreamingQueue = s := by
  rw [flushStreamingQueue, hheader, hqueue]
  exact ite_self s

theorem flush_chunk (h : s.isWriting = false) (hheader : s.headerSent = true) {c : Bytes}
    {queue : List Bytes} (hqueue : s.streamingQueue = c :: queue) :
    s.flushStreamingQueue = asyncWrite { s with streamingQueue := queue } (.chunk c) := by
  rw [flushStreamingQueue, h, hheader, hqueue]
  rfl

end Flush

def ended (chunks : List Bytes) : Bool := chunks.getLast?.any isTerminal

/-- The writes of a response: the header and the chunks. -/
def writesOf (chunks : List Bytes) : List Io := .write .header :: chunks.map fun c => .write (.chunk c)

/-- The operations of a response: its writes, and another read behind the last chunk. -/
def response (chunks : List Bytes) : List Io :=
  writesOf chunks ++ if ended chunks then [.read] else []

/-- The operations for the requests so far, of which the first is the read of `run`. -/
def expectedIo (s : Session) : List Io := .read :: s.responses.flatMap response

/-- Nothing happens before a message or a request comes. -/
def Quiet (s : Session) : Prop :=
  s.strand = [] ∧ s.writes = [] ∧ ∀ isEnd, s.worker ≠ .posting isEnd

/-- One write at a time, everything in order and once, and nothing left behind. -/
structure InOrder (s : Session) : Prop where
  exclusive : s.writes.length ≤ 1
  ordered : s.io <+: s.expectedIo
  sent : s.io.filterMap Io.write? = s.sent ++ s.writes
  settled : s.Quiet → s.io = s.expectedIo

/-- No flush runs in front of the handler of `initiate_streaming` when a chunk is in the queue, and a
chunk that was not taken whole at once is still what is sent in its place. -/
def Orderly (s : Session) : Label → Prop
  | .run => s.strand.head? = some .flush → .initiateStreaming ∈ s.strand → s.streamingQueue = []
  | .completeLate bytes => ∀ currentChunk ∈ s.writes.head?.bind Write.chunk?,
      bytes.length = currentChunk.length → bytes = currentChunk
  | _ => True

instance (s : Session) : (label : Label) → Decidable (s.Orderly label)
  | .run => inferInstanceAs (Decidable (_ → _ → _))
  | .receive => isTrue trivial
  | .complete => isTrue trivial
  | .completeLate bytes => inferInstanceAs (Decidable (∀ currentChunk ∈ s.writes.head?.bind Write.chunk?,
      bytes.length = currentChunk.length → bytes = currentChunk))
  | .take => isTrue trivial
  | .enqueue _ _ => isTrue trivial
  | .post => isTrue trivial

variable {s s' : Session} {bytes : Bytes}

theorem completeLate_cases (h : s.completeLate bytes = some s') : ∃ currentChunk writes,
    s.writes = .chunk currentChunk :: writes ∧ bytes.length = currentChunk.length ∧ s' = { s with
      writes := writes
      sent := s.sent ++ [.chunk bytes]
      strand := s.strand ++ [.written (.chunk currentChunk)] } := by
  rw [completeLate] at h
  split at h
  · rename_i currentChunk writes hwrites
    split_ifs at h with hlength
    exact ⟨currentChunk, writes, hwrites, hlength, (Option.some.inj h).symm⟩
  · cases h

/-- A late write of the bytes of the chunk is as good as one in time. -/
theorem complete_of_late (horderly : s.Orderly (.completeLate bytes))
    (h : s.completeLate bytes = some s') : s.complete = some s' := by
  obtain ⟨currentChunk, writes, hwrites, hlength, rfl⟩ := completeLate_cases h
  have hbytes : bytes = currentChunk := horderly currentChunk (by rw [hwrites]; rfl) hlength
  rw [complete, hwrites, hbytes]

end Session

end ZInferLM.Serve
