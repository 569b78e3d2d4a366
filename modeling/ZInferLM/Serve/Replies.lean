import ZInferLM.Serve.Messages

/-! # The reply of a request

A request may end without a reply or in an exception; the branches that reject one send a JSON
response, always with the same status. -/

namespace ZInferLM.Serve
open Library Library.Utf8 Tokenizer Inference

/-- A complete response or the start of a stream. -/
def Effect.isReply : Effect → Bool
  | .sendResponse _ => true
  | .initiateStreaming => true
  | _ => false

/-- The handler comes back, and with one reply. -/
def Answered (handled : Handled) : Prop :=
  handled.thrown = none ∧ handled.effects.countP Effect.isReply = 1

/-- A conversation gets one reply if it is refused, or if it is read to its end and there is a
template for it. -/
def AnswersChat (server : Server) (elements : List Json) : Prop :=
  Refused elements ∨ (∀ msg ∈ elements, ¬ LacksField msg ∧ ¬ Throws msg) ∧
    ∃ tmpl, server.chatTemplate = .ok tmpl

variable {server : Server} {req : Request}

theorem answered_sendJsonResponse (req : Request) (status : Status) (payload : Json) :
    Answered (sendJsonResponse req status payload) := ⟨rfl, rfl⟩

theorem not_answered_nothing : ¬ Answered ⟨[], none⟩ := fun h => absurd h.2 Nat.zero_ne_one

theorem not_answered_thrown (effects : List Effect) (e : Thrown) :
    ¬ Answered ⟨effects, some e⟩ := by
  rintro ⟨⟨⟩, _⟩

namespace Server

theorem answered_chat_iff {payload : List (Bytes × Json)} {elements : List Json}
    (h : payload.lookup (literal "messages") = some (.array elements)) :
    Answered (server.chatCompletion req payload) ↔ AnswersChat server elements := by
  have hmissing := readMessages_missing_iff elements []
  have hok := readMessages_ok_iff elements []
  rw [chatCompletion_array h, AnswersChat, ← hmissing, ← hok]
  cases hread : readMessages elements [] with
  | error refusal =>
    cases refusal with
    | missing field => exact iff_of_true (answered_sendJsonResponse _ _ _) (.inl ⟨field, rfl⟩)
    | thrown e =>
      apply iff_of_false (not_answered_thrown _ _)
      rintro (⟨_, ⟨⟩⟩ | ⟨⟨_, ⟨⟩⟩, _⟩)
  | ok chatMessages =>
    simp only [reduceCtorEq, exists_false, false_or, Except.ok.injEq, exists_eq', true_and]
    rw [chatInvoke]
    cases server.chatTemplate with
    | error what =>
      apply iff_of_false (not_answered_thrown _ _)
      rintro ⟨_, ⟨⟩⟩
    | ok tmpl => exact iff_of_true ⟨rfl, rfl⟩ ⟨tmpl, rfl⟩

theorem answered_chatCompletion_iff (payload : List (Bytes × Json)) :
    Answered (server.chatCompletion req payload) ↔
      ∀ elements, payload.lookup (literal "messages") = some (.array elements) →
        AnswersChat server elements := by
  by_cases h : ∃ elements, payload.lookup (literal "messages") = some (.array elements)
  · obtain ⟨elements, h⟩ := h
    rw [answered_chat_iff h, h]
    simp
  · rw [not_exists] at h
    rw [chatCompletion_notArray h]
    exact iff_of_true (answered_sendJsonResponse _ _ _) fun elements heq => absurd heq (h elements)

/-- The `POST` requests that get one reply. -/
def AnswersPost (server : Server) (req : Request) : Prop :=
  ¬ IsJson req ∨ (∃ message, server.parse req.body = .error message) ∨
    req.target = literal "/v1/chat/completions" ∧
      ∃ payload, server.parse req.body = .ok (.object payload) ∧
        ∀ elements, payload.lookup (literal "messages") = some (.array elements) →
          AnswersChat server elements

theorem answered_handlePost_iff (server : Server) (req : Request) :
    Answered (server.handlePost req) ↔ AnswersPost server req := by
  rw [handlePost, AnswersPost]
  by_cases hjson : IsJson req
  · rw [if_pos hjson]
    cases hparse : server.parse req.body with
    | error message =>
      exact iff_of_true (answered_sendJsonResponse _ _ _) (.inr (.inl ⟨message, rfl⟩))
    | ok body =>
      by_cases htarget : req.target = literal "/v1/chat/completions"
      · cases body with
        | object payload =>
          simp only [htarget, if_true, Json.asObject, answered_chatCompletion_iff, hjson,
            not_true_eq_false, reduceCtorEq, exists_false, false_or, true_and, Except.ok.injEq,
            Json.object.injEq, exists_eq_left']
        | _ => simp [htarget, Json.asObject, hjson, not_answered_thrown]
      · simp [htarget, hjson, not_answered_nothing]
  · rw [if_neg hjson]
    exact iff_of_true (answered_sendJsonResponse _ _ _) (.inl hjson)

theorem nothing_andThen (b : Handled) : Handled.andThen ⟨[], none⟩ b = b := rfl

/-- A request gets exactly one reply, with no exception, if and only if it asks for the page or for
the health of the server, or is a `POST` request of the kinds above. -/
theorem handleRequest_answered_iff (server : Server) (req : Request) :
    Answered (server.handleRequest req) ↔
      (req.method = .get ∧ (req.target = literal "/" ∨ req.target = literal "/index.html" ∨
        req.target = literal "/health")) ∨ (req.method = .post ∧ AnswersPost server req) := by
  rw [handleRequest]
  cases hmethod : req.method with
  | get =>
    have hpost : ¬ Verb.get = Verb.post := fun h => by cases h
    by_cases hpage : req.target = literal "/" ∨ req.target = literal "/index.html"
    · rw [if_pos ⟨rfl, hpage⟩]
      apply iff_of_true
      · split_ifs
        · exact ⟨rfl, rfl⟩
        · exact ⟨rfl, rfl⟩
      · exact .inl ⟨rfl, hpage.imp_right .inl⟩
    · rw [if_neg fun h => hpage h.2, if_neg hpost]
      by_cases hhealth : req.target = literal "/health"
      · rw [if_pos ⟨rfl, hhealth⟩]
        exact iff_of_true ⟨rfl, rfl⟩ (.inl ⟨rfl, .inr (.inr hhealth)⟩)
      · rw [if_neg fun h => hhealth h.2]
        apply iff_of_false not_answered_nothing
        rintro (⟨_, h | h | h⟩ | ⟨h, _⟩)
        · exact hpage (.inl h)
        · exact hpage (.inr h)
        · exact hhealth h
        · exact hpost h
  | post =>
    simp [nothing_andThen, answered_handlePost_iff]
  | other name =>
    simp [nothing_andThen, not_answered_nothing]

/-- An unknown page gets no reply, and a body that is an array ends in an exception. -/
theorem favicon_and_array_unanswered :
    ¬ Answered ((knowing (literal "[]") (.array [])).handleRequest
      ⟨.get, literal "/favicon.ico", none, [], 11, true⟩) ∧
    ¬ Answered ((knowing (literal "[]") (.array [])).handleRequest
      (chatRequest (literal "[]"))) := by
  constructor
  · rintro ⟨_, h⟩
    revert h
    decide +kernel
  · rintro ⟨h, _⟩
    revert h
    decide +kernel

/-- A request fails a check that chooses the status. -/
inductive FailsValidation (server : Server) (req : Request) : Status → Prop where
  | contentType : ¬ IsJson req → FailsValidation server req .unsupportedMediaType
  | body {message : Bytes} : IsJson req → server.parse req.body = .error message →
      FailsValidation server req .badRequest
  | messages {payload : List (Bytes × Json)} : IsJson req →
      req.target = literal "/v1/chat/completions" → server.parse req.body = .ok (.object payload) →
      (∀ elements, payload.lookup (literal "messages") ≠ some (.array elements)) →
      FailsValidation server req .badRequest
  | element {payload : List (Bytes × Json)} {elements : List Json} {msg : Json} : IsJson req →
      req.target = literal "/v1/chat/completions" → server.parse req.body = .ok (.object payload) →
      payload.lookup (literal "messages") = some (.array elements) → msg ∈ elements →
      LacksField msg → FailsValidation server req .badRequest

def OneJsonResponse (handled : Handled) (status : Status) : Prop :=
  ∃ res payload, handled = ⟨[.sendResponse res], none⟩ ∧ res.body = .json payload ∧
    res.status = status

def JsonIsOk (handled : Handled) : Prop :=
  ∀ res payload, Effect.sendResponse res ∈ handled.effects → res.body = .json payload →
    res.status = .ok

theorem jsonIsOk_nothing (thrown : Option Thrown) : JsonIsOk ⟨[], thrown⟩ :=
  fun _ _ h => absurd h List.not_mem_nil

theorem jsonIsOk_json (req : Request) (status : Status) (payload : Json) :
    JsonIsOk (sendJsonResponse req status payload) := by
  intro res _ h _
  cases List.mem_singleton.mp h
  rfl

theorem JsonIsOk.andThen {a b : Handled} (ha : JsonIsOk a) (hb : JsonIsOk b) :
    JsonIsOk (a.andThen b) := by
  intro res payload h hbody
  rw [Handled.andThen] at h
  split at h
  · rcases List.mem_append.mp h with h | h
    · exact ha res payload h hbody
    · exact hb res payload h hbody
  · exact ha res payload h hbody

theorem jsonIsOk_chatInvoke (server : Server) (messages : List ChatMessage)
    (params : ChatParams) : JsonIsOk (server.chatInvoke messages params) := by
  intro res payload h _
  rcases mem_chatInvoke h with h | ⟨_, h⟩
  · cases h
  · cases h

theorem jsonIsOk_chatCompletion (server : Server) (req : Request)
    (payload : List (Bytes × Json)) : JsonIsOk (server.chatCompletion req payload) := by
  rw [chatCompletion]
  split
  · split
    · exact jsonIsOk_json _ _ _
    · exact jsonIsOk_nothing _
    · apply JsonIsOk.andThen _ (jsonIsOk_chatInvoke _ _ _)
      intro res _ h _
      simp at h
  · exact jsonIsOk_json _ _ _

theorem jsonIsOk_handlePost (server : Server) (req : Request) :
    JsonIsOk (server.handlePost req) := by
  rw [handlePost]
  split
  · split
    · exact jsonIsOk_json _ _ _
    · split
      · split
        · exact jsonIsOk_nothing _
        · exact jsonIsOk_chatCompletion _ _ _
      · exact jsonIsOk_nothing _
  · exact jsonIsOk_json _ _ _

theorem handleRequest_post (server : Server) {req : Request} (h : req.method = .post) :
    server.handleRequest req = server.handlePost req := by
  have hget : ¬ Verb.post = Verb.get := fun h => by cases h
  rw [handleRequest, h, if_neg fun h => hget h.1, if_neg fun h => hget h.1, if_pos rfl]
  rfl

theorem failsValidation_ne_ok {status : Status} (h : FailsValidation server req status) :
    status ≠ .ok := by
  cases h <;> decide

/-- A request that fails a check is never answered with the status of the check. -/
theorem rejected_status_lost (server : Server) {req : Request} {status : Status}
    (hpost : req.method = .post) (h : FailsValidation server req status) :
    ¬ OneJsonResponse (server.handleRequest req) status := by
  rintro ⟨res, payload, heq, hbody, rfl⟩
  have hok := jsonIsOk_handlePost server req res payload
  rw [← handleRequest_post server hpost, heq] at hok
  exact failsValidation_ne_ok h (hok (List.mem_singleton_self _) hbody)

theorem rejected_status_lost_plain :
    ¬ OneJsonResponse ((knowing [] .null).handleRequest
      ⟨.post, literal "/v1/chat/completions", some (literal "text/plain"), [], 11, true⟩)
        .unsupportedMediaType :=
  rejected_status_lost _ rfl (.contentType (by decide +kernel))

/-- A request that fails a check, with no element that throws before the one it fails at, gets one
JSON response and has no other effect. -/
theorem rejected_response (hpost : req.method = .post)
    (h : ¬ IsJson req ∨ (∃ message, server.parse req.body = .error message) ∨
      req.target = literal "/v1/chat/completions" ∧
        ∃ payload, server.parse req.body = .ok (.object payload) ∧
          ∀ elements, payload.lookup (literal "messages") = some (.array elements) →
            Refused elements) :
    OneJsonResponse (server.handleRequest req) .ok := by
  have hone (status : Status) (payload : Json) :
      OneJsonResponse (sendJsonResponse req status payload) .ok := ⟨_, payload, rfl, rfl, rfl⟩
  rw [handleRequest_post server hpost, handlePost]
  by_cases hjson : IsJson req
  · rw [if_pos hjson]
    rcases h with h | ⟨message, h⟩ | ⟨htarget, payload, h, hrefused⟩
    · exact absurd hjson h
    · rw [h]
      exact hone _ _
    · simp only [h, htarget, if_true, Json.asObject]
      by_cases harray : ∃ elements, payload.lookup (literal "messages") = some (.array elements)
      · obtain ⟨elements, harray⟩ := harray
        obtain ⟨field, hread⟩ := (readMessages_missing_iff elements []).mpr
          (hrefused elements harray)
        rw [chatCompletion_array harray, hread]
        exact hone _ _
      · rw [not_exists] at harray
        rw [chatCompletion_notArray harray]
        exact hone _ _
  · rw [if_neg hjson]
    exact hone _ _

/-- A body that is not JSON is answered with `200`. -/
theorem plainText_accepted : ∃ server req status, req.method = .post ∧
    FailsValidation server req status ∧ ¬ OneJsonResponse (server.handleRequest req) status := by
  let req : Request :=
    ⟨.post, literal "/v1/chat/completions", some (literal "text/plain"), [], 11, true⟩
  have hjson : ¬ IsJson req := by decide +kernel
  refine ⟨knowing [] .null, req, .unsupportedMediaType, rfl, .contentType hjson, ?_⟩
  obtain ⟨res, payload, heq, _, hok⟩ := @rejected_response (knowing [] .null) req rfl (.inl hjson)
  rw [heq]
  rintro ⟨_, _, ⟨⟩, _, hstatus⟩
  cases hok.symm.trans hstatus

end Server

end ZInferLM.Serve
