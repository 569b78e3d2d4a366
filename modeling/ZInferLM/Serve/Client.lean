import Mathlib.Data.List.DropRight
import ZInferLM.Library.Outcome
import ZInferLM.Library.TextDecoder
import ZInferLM.Serve.Wire

/-! # The web client

The client reads the stream fragment by fragment and takes the events off that are complete. Every
payload is parsed and shown; showing a value can throw, and then the client stops reading. -/

namespace ZInferLM.Serve
open Library Library.Utf8 Tokenizer

/-- The members of a value that the page asks for; no value that JSON has inherits them. -/
def Json.property (key : String) : Json → Option Json
  | .object members => members.lookup (literal key)
  | _ => none

def Json.truthy : Json → Bool
  | .null => false
  | .bool b => b
  | .number q => decide (q ≠ 0)
  | .string s => decide (s ≠ [])
  | .array _ => true
  | .object _ => true

mutual

/-- Turning a value into text calls its `toString`. A member of that name is no function, so the
conversion falls back on `valueOf`, which gives the object again, and throws. -/
def Json.convertible : Json → Bool
  | .array elements => Json.allConvertible elements
  | .object members => (members.lookup (literal "toString")).isNone
  | _ => true

def Json.allConvertible : List Json → Bool
  | [] => true
  | e :: elements => e.convertible && Json.allConvertible elements

end

/-- The white space and the line ends of the language. -/
def isSpace (c : Char) : Bool :=
  decide (c.toNat ∈ [0x9, 0xA, 0xB, 0xC, 0xD, 0x20, 0xA0, 0x1680, 0x2028, 0x2029, 0x202F, 0x205F,
    0x3000, 0xFEFF] ∨ 0x2000 ≤ c.toNat ∧ c.toNat ≤ 0x200A)

def trim (s : List Char) : List Char := (s.dropWhile isSpace).rdropWhile isSpace

/-- A message that is being shown: the role above it and the contents in it. -/
structure StreamingMessage where
  role : Json
  contents : List Json

def createStreamingMessage (role : Json) : Outcome StreamingMessage :=
  let label := if role.truthy then role else .text "assistant"
  if label.convertible then .ok ⟨label, []⟩ else .error (.thrown "TypeError")

def StreamingMessage.append (msg : StreamingMessage) (chunk : Json) : Outcome StreamingMessage :=
  if chunk.convertible then .ok { msg with contents := msg.contents ++ [chunk] }
  else .error (.thrown "TypeError")

/-- The variables of `send` that the events change, with the payloads that were extracted. -/
structure Page where
  streamMsg : Option StreamingMessage
  role : Json
  finished : Bool
  payloads : List Json

def Page.new : Page := ⟨none, .text "assistant", false, []⟩

def roleAfter (role obj : Json) : Json :=
  match obj.property "role" with
  | some r => if r.truthy then r else role
  | none => role

/-- The content of a payload, if it has one to show. -/
def shownContent (obj : Json) : Option Json :=
  match obj.property "content" with
  | some .null => none
  | content => content

/-- The message that a content is appended to, made when there is none. -/
def Page.message (page : Page) (role : Json) : Outcome StreamingMessage :=
  match page.streamMsg with
  | some msg => .ok msg
  | none => createStreamingMessage role

/-- What is done with a payload; asking `null` for a member throws. -/
def Page.show (page : Page) : Json → Outcome Page
  | .null => .error (.thrown "TypeError")
  | obj =>
    let role := roleAfter page.role obj
    match shownContent obj with
    | none => .ok { page with role := role, payloads := page.payloads ++ [obj] }
    | some content => do
      let msg ← page.message role
      let msg ← msg.append content
      .ok { page with streamMsg := some msg, role := role, payloads := page.payloads ++ [obj] }

section Reading
variable (parse : List Char → Option Json)

def Page.lines : List (List Char) → Page → Outcome Page
  | [], page => .ok page
  | line :: dataLines, page =>
    let payload := trim (line.drop "data:".length)
    if payload = [] then Page.lines dataLines page
    else if payload = "[DONE]".toList then .ok { page with finished := true }
    else match parse payload with
      | none => Page.lines dataLines page
      | some obj => do
        let page ← page.show obj
        Page.lines dataLines page

def Page.event (page : Page) (rawEvent : List Char) : Outcome Page :=
  Page.lines parse ((rawEvent.splitOn '\n').filter ("data:".toList.isPrefixOf ·)) page

structure Reader where
  decoder : TextDecoder
  buffer : List Char
  page : Page

def Reader.new : Reader := ⟨.new, [], .new⟩

/-- The loop over the complete events of the buffer; every turn shortens it. -/
def Reader.drain : ℕ → Reader → Outcome Reader
  | 0, _ => .error .outOfFuel
  | turns + 1, r =>
    match cutFirst ['\n', '\n'] r.buffer with
    | none => .ok r
    | some (rawEvent, buffer) => do
      let page ← r.page.event parse rawEvent
      Reader.drain turns ⟨r.decoder, buffer, page⟩

/-- The loop over the fragments, which ends with them or when the page is finished. -/
def Reader.read : List Bytes → Reader → Outcome Reader
  | [], r => .ok r
  | value :: values, r =>
    if r.page.finished then .ok r
    else do
      let decoded := r.decoder.decode value
      let buffer := r.buffer ++ decoded.2
      let r ← Reader.drain parse (buffer.length + 1) ⟨decoded.1, buffer, r.page⟩
      Reader.read values r

end Reading

end ZInferLM.Serve
