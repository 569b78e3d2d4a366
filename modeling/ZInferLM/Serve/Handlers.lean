import ZInferLM.Inference.Invoke
import ZInferLM.Serve.Wire

/-! # The request handlers

A handler runs to its end or to an exception. What it does to the session, the dispatcher and the
worker is the list of its effects; the clock, the files, the parser of bodies and the chat template
come from outside. -/

namespace ZInferLM.Serve
open Library Library.Utf8 Tokenizer Inference

inductive Status where
  | ok | badRequest | notFound | unsupportedMediaType
  deriving DecidableEq

def Status.code : Status → ℕ
  | .ok => 200
  | .badRequest => 400
  | .notFound => 404
  | .unsupportedMediaType => 415

inductive Verb where
  | get | post
  | other (name : Bytes)
  deriving DecidableEq

structure Request where
  method : Verb
  target : Bytes
  contentType : Option Bytes
  body : Bytes
  version : ℕ
  keepAlive : Bool

inductive Body where
  | html (text : Bytes)
  | json (payload : Json)

structure Response where
  status : Status
  version : ℕ
  server : Bytes
  contentType : Bytes
  keepAlive : Bool
  body : Body

structure ChatMessage where
  role : Bytes
  message : Bytes
  deriving DecidableEq

structure ChatParams where
  maxTokens : ℕ
  temperature : ℚ
  topK : ℕ
  topP : ℚ

inductive EventKind where
  | tokenGenerated | generationCompleted
  deriving DecidableEq

inductive Thrown where
  | json (e : JsonError)
  | chat (what : Bytes)
  deriving DecidableEq

inductive Effect where
  | sendResponse (res : Response)
  | initiateStreaming
  | listen (groupId : Bytes) (events : List EventKind)
  | chatInvoke (chatId : Bytes) (messages : List ChatMessage) (params : ChatParams)
  | addTask (runId : Bytes) (input : Bytes) (maxTokens : ℕ)

/-- The effects of a handler in order and the exception that escapes from it, if any. -/
structure Handled where
  effects : List Effect
  thrown : Option Thrown

/-- Go on with a handler, unless an exception has been thrown. -/
def Handled.andThen (a b : Handled) : Handled :=
  match a.thrown with
  | none => ⟨a.effects ++ b.effects, b.thrown⟩
  | some e => ⟨a.effects, some e⟩

/-- What the server gets from outside: the page, the parser of bodies, the random identifier, and
the chat template, which may fail to be built or to be rendered. -/
structure Server where
  indexHtml : Bytes
  parse : Bytes → Except Bytes Json
  chatId : Bytes
  chatTemplate : Except Bytes (List ChatMessage → Except Bytes Bytes)

def sendHtmlResponse (req : Request) (status : Status) (body : Bytes) : Handled :=
  ⟨[.sendResponse ⟨status, req.version, literal "Boost.Beast Server", literal "text/html",
    req.keepAlive, .html body⟩], none⟩

/-- The status that is asked for is not used. -/
def sendJsonResponse (req : Request) (_status : Status) (payload : Json) : Handled :=
  ⟨[.sendResponse ⟨.ok, req.version, literal "Boost.Beast Server", literal "application/json",
    req.keepAlive, .json payload⟩], none⟩

def healthCheck (req : Request) : Handled :=
  sendJsonResponse req .ok (.single "status" (.text "healthy"))

/-- Why the message loop does not reach its end. -/
inductive Refusal where
  | missing (field : String)
  | thrown (e : JsonError)
  deriving DecidableEq

/-- `value_to<std::string>` and `as_string` throw on any other value. -/
def stringOf (value : Json) : Except Refusal Bytes := value.asString.mapError .thrown

/-- The message that the loop appends for an element, if any. -/
def readMessage : Json → Except Refusal (Option ChatMessage)
  | .object obj =>
    match obj.lookup (literal "role"), obj.lookup (literal "content") with
    | none, _ => .error (.missing "role")
    | some _, none => .error (.missing "content")
    | some role, some content => do
      let name ← stringOf role
      if name = literal "user" then
        .ok (some ⟨literal "user", ← stringOf content⟩)
      else if name = literal "assistant" then
        .ok (some ⟨literal "assistant", ← stringOf content⟩)
      else if name = literal "system" then
        .ok (some ⟨literal "system", ← stringOf content⟩)
      else .ok none
  | _ => .ok none

def readMessages : List Json → List ChatMessage → Except Refusal (List ChatMessage)
  | [], chatMessages => .ok chatMessages
  | msg :: elements, chatMessages => do
    let message ← readMessage msg
    readMessages elements (chatMessages ++ message.toList)

def fieldRequired (field : String) : Json :=
  .single "error" (.text ("\"Field: \"" ++ field ++ "\" is required"))

/-- The callback of a chat: the payload that is streamed for an event, and whether it is the
last. -/
def streamedMessage : InferenceEvent → Option (Json × Bool)
  | .tokenGenerated _ token =>
    some (.object [(literal "role", .text "assistant"), (literal "content", .string token)], false)
  | .generationCompleted status _ =>
    match status with
    | .maxCtxReached => some (.single "finish_reason" (.text "Maximum Tokens reached"), true)
    | .eos => some (.single "finish_reason" (.text "Stop"), true)
    | .continue => some (.null, true)
  | _ => none

namespace Server

/-- The rendered conversation; a template that throws gives the empty text. -/
def render (tmpl : List ChatMessage → Except Bytes Bytes) (messages : List ChatMessage) : Bytes :=
  match tmpl messages with
  | .ok text => text
  | .error _ => []

/-- `Chat::invoke` up to the hand-over of the task. -/
def chatInvoke (server : Server) (messages : List ChatMessage) (params : ChatParams) : Handled :=
  match server.chatTemplate with
  | .error what => ⟨[.chatInvoke server.chatId messages params], some (.chat what)⟩
  | .ok tmpl =>
    ⟨[.chatInvoke server.chatId messages params,
      .addTask server.chatId (render tmpl messages) params.maxTokens], none⟩

def chatParams : ChatParams := ⟨8192, 9 / 10, 0, 7 / 10⟩

/-- `chat_completion`; the branch without streaming is never taken. -/
def chatCompletion (server : Server) (req : Request) (payload : List (Bytes × Json)) : Handled :=
  match payload.lookup (literal "messages") with
  | some (.array elements) =>
    match readMessages elements [] with
    | .error (.missing field) => sendJsonResponse req .badRequest (fieldRequired field)
    | .error (.thrown e) => ⟨[], some (.json e)⟩
    | .ok chatMessages =>
      Handled.andThen ⟨[.initiateStreaming,
          .listen server.chatId [.generationCompleted, .tokenGenerated]], none⟩
        (server.chatInvoke chatMessages chatParams)
  | _ => sendJsonResponse req .badRequest (fieldRequired "messages")

/-- The content type of a request names JSON; a missing field is empty. -/
def IsJson (req : Request) : Prop :=
  literal "application/json" <:+: req.contentType.getD []

instance (req : Request) : Decidable (IsJson req) := inferInstanceAs (Decidable (_ <:+: _))

def errorPayload (text : Bytes) : Json := .array [.text "error", .string text]

/-- The branch of `handle_request_` for a `POST` request. -/
def handlePost (server : Server) (req : Request) : Handled :=
  if IsJson req then
    match server.parse req.body with
    | .error message =>
      sendJsonResponse req .badRequest (errorPayload (literal "Parse error: " ++ message))
    | .ok body =>
      if req.target = literal "/v1/chat/completions" then
        match body.asObject with
        | .error e => ⟨[], some (.json e)⟩
        | .ok payload => server.chatCompletion req payload
      else ⟨[], none⟩
  else
    sendJsonResponse req .unsupportedMediaType
      (errorPayload (literal "Expected content type: application/json"))

def handleRequest (server : Server) (req : Request) : Handled :=
  if req.method = .get ∧ (req.target = literal "/" ∨ req.target = literal "/index.html") then
    if server.indexHtml = [] then
      sendHtmlResponse req .notFound (literal "<html><body><h1>404 Not Found</h1></body></html>")
    else sendHtmlResponse req .ok server.indexHtml
  else
    Handled.andThen
      (if req.method = .get ∧ req.target = literal "/health" then healthCheck req else ⟨[], none⟩)
      (if req.method = .post then server.handlePost req else ⟨[], none⟩)

end Server

end ZInferLM.Serve
