import ZInferLM.Library.Chunked
import ZInferLM.Tokenizer.Pretokenizer

/-! # Messages on the wire

A message is an event of the stream and is sent as a chunk of the response; the last one has the end
of the events in its chunk and the empty chunk behind it. The session finds the end of a response by
looking for the empty chunk in what it has written. A payload is a value of JSON, whose strings are
the bytes they are built from and whose objects are looked up by key. -/

namespace ZInferLM.Serve
open Library Library.Utf8 Tokenizer

inductive Json where
  | null
  | bool (b : Bool)
  | number (q : ℚ)
  | string (s : Bytes)
  | array (elements : List Json)
  | object (members : List (Bytes × Json))

inductive JsonError where
  | notObject | notString
  deriving DecidableEq

namespace Json

def asObject : Json → Except JsonError (List (Bytes × Json))
  | .object members => .ok members
  | _ => .error .notObject

def asString : Json → Except JsonError Bytes
  | .string s => .ok s
  | _ => .error .notString

def single (key : String) (value : Json) : Json := .object [(literal key, value)]

def text (s : String) : Json := .string (literal s)

end Json

variable (serialize : Json → Bytes)

def makeChunk (rawString : Bytes) : Bytes :=
  Chunked.hex rawString.length ++ literal "\r\n" ++ rawString ++ literal "\r\n"

/-- The text of a message, which is its event and maybe the end of the events. -/
def rawString (payload : Json) (isEnd : Bool) : Bytes :=
  literal "data: " ++ serialize payload ++ literal "\n\n" ++
    if isEnd then literal "data: [DONE]\n\n" else []

/-- The bytes that `stream_json_message` puts into the queue. -/
def streamJsonMessage (payload : Json) (isEnd : Bool) : Bytes :=
  makeChunk (rawString serialize payload isEnd) ++ if isEnd then literal "0\r\n\r\n" else []

/-- The test for the last chunk of a response. -/
def isTerminal (currentChunk : Bytes) : Bool := decide (literal "0\r\n\r\n" <:+: currentChunk)

/-- The bytes of a response: messages and a last one. -/
def wire (messages : List Json) (last : Json) : Bytes :=
  (messages.flatMap fun p => streamJsonMessage serialize p false) ++
    streamJsonMessage serialize last true

def sseText (messages : List Json) (last : Json) : Bytes :=
  (messages.flatMap fun p => rawString serialize p false) ++ rawString serialize last true

variable {serialize}

theorem streamJsonMessage_more (payload : Json) :
    streamJsonMessage serialize payload false = Chunked.chunk (rawString serialize payload false) :=
  List.append_nil _

theorem streamJsonMessage_last (payload : Json) : streamJsonMessage serialize payload true =
    Chunked.chunk (rawString serialize payload true) ++ Chunked.lastChunk := rfl

theorem rawString_ne_nil (payload : Json) (isEnd : Bool) : rawString serialize payload isEnd ≠ [] :=
  List.cons_ne_nil _ _

/-- The chunks of a response are decoded to its text, and the decoder stops at their end. -/
theorem decode_wire (messages : List Json) (last : Json) (rest : Bytes) :
    Chunked.decode (wire serialize messages last ++ rest) =
      some (sseText serialize messages last, rest) := by
  have hwire : wire serialize messages last =
      (messages.map (rawString serialize · false) ++ [rawString serialize last true]).flatMap
        Chunked.chunk ++ Chunked.lastChunk := by
    simp [wire, streamJsonMessage_more, streamJsonMessage_last, List.flatMap_append,
      List.flatMap_map]
  have htext : sseText serialize messages last =
      (messages.map (rawString serialize · false) ++ [rawString serialize last true]).flatten := by
    simp [sseText, List.flatMap_def]
  rw [hwire, htext]
  apply Chunked.decode_chunks
  intro text htext
  rcases List.mem_append.mp htext with h | h
  · obtain ⟨p, -, rfl⟩ := List.mem_map.mp h
    exact rawString_ne_nil p false
  · rw [List.mem_singleton.mp h]
    exact rawString_ne_nil last true

/-- A payload without carriage returns is sent with the empty chunk exactly if it is the last. -/
theorem isTerminal_iff {payload : Json} (h : (13 : UInt8) ∉ serialize payload) (isEnd : Bool) :
    isTerminal (streamJsonMessage serialize payload isEnd) = true ↔ isEnd = true := by
  rw [isTerminal, decide_eq_true_iff]
  cases isEnd with
  | true => exact ⟨fun _ => rfl, fun _ => (List.suffix_append _ _).isInfix⟩
  | false =>
    have hcr : (13 : UInt8) ∉ rawString serialize payload false := by
      have hstart : (13 : UInt8) ∉ literal "data: " := by decide
      have hstop : (13 : UInt8) ∉ literal "\n\n" := by decide
      simp [rawString, hstart, hstop, h]
    have hnot := Chunked.lastChunk_not_infix (rawString_ne_nil payload false) hcr
    rw [streamJsonMessage_more]
    exact ⟨fun hfound => absurd hfound hnot, fun h => absurd h Bool.false_ne_true⟩

end ZInferLM.Serve
