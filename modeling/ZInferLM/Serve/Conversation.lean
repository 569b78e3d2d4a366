import ZInferLM.Serve.Messages

/-! # The conversation reaches the model

A request hands over the elements of its conversation, or it is answered with an error and nothing
is queued, unless an element is passed over or throws. -/

namespace ZInferLM.Serve
open Library Library.Utf8 Tokenizer Inference

def ReportsError (e : Effect) : Prop :=
  ∃ res text, e = .sendResponse res ∧ res.body = .json (.single "error" (.string text))

/-- A request is answered with an error and queues nothing, or the messages that are handed over
are the elements. -/
def NothingLost (handled : Handled) (elements : List Json) : Prop :=
  ((∃ e ∈ handled.effects, ReportsError e) ∧
      ∀ runId input maxTokens, Effect.addTask runId input maxTokens ∉ handled.effects) ∨
    ∃ chatId messages params, Effect.chatInvoke chatId messages params ∈ handled.effects ∧
      List.Forall₂ Carries elements messages

namespace Server

variable {server : Server}

theorem isMessage_readable {msg : Json} (h : IsMessage msg) : ¬ LacksField msg ∧ ¬ Throws msg := by
  obtain ⟨m, ⟨obj, rfl, hrole, hcontent⟩, _⟩ := h
  constructor
  · rintro ⟨_, ⟨⟩, h | h⟩
    · cases h.symm.trans hrole
    · cases h.symm.trans hcontent
  · rintro ⟨_, role, content, ⟨⟩, hrole', hcontent', h⟩
    cases hrole.symm.trans hrole'
    cases hcontent.symm.trans hcontent'
    rcases h with h | ⟨_, h⟩
    · exact h _ rfl
    · exact h _ rfl

theorem nothingLost_missing (req : Request) (field : String) (elements : List Json) :
    NothingLost (sendJsonResponse req .badRequest (fieldRequired field)) elements := by
  apply Or.inl
  constructor
  · exact ⟨_, List.mem_singleton_self _, _, _, rfl, rfl⟩
  · intro runId input maxTokens h
    cases List.mem_singleton.mp h

theorem not_nothingLost_thrown (e : Thrown) (elements : List Json) :
    ¬ NothingLost ⟨[], some e⟩ elements := by
  rintro (⟨⟨e, he, _⟩, _⟩ | ⟨_, _, _, h, _⟩)
  · exact List.not_mem_nil he
  · exact List.not_mem_nil h

theorem chatInvoke_mem (server : Server) (messages : List ChatMessage) (params : ChatParams) :
    Effect.chatInvoke server.chatId messages params ∈
      (server.chatInvoke messages params).effects := by
  rw [chatInvoke]
  split
  · exact List.mem_cons_self
  · exact List.mem_cons_self

/-- The effects of a conversation that is read to its end. -/
theorem nothingLost_stream_iff {messages : List ChatMessage} {params : ChatParams}
    {events : List EventKind} {elements : List Json} :
    NothingLost (Handled.andThen ⟨[.initiateStreaming, .listen server.chatId events], none⟩
      (server.chatInvoke messages params)) elements ↔ List.Forall₂ Carries elements messages := by
  constructor
  · rintro (⟨⟨e, he, res, _, rfl, _⟩, _⟩ | ⟨chatId, other, _, h, hcarries⟩)
    · rcases List.mem_append.mp he with he | he
      · simp at he
      · rcases mem_chatInvoke he with he | ⟨_, he⟩
        · cases he
        · cases he
    · rcases List.mem_append.mp h with h | h
      · simp at h
      · rcases mem_chatInvoke h with h | ⟨_, h⟩
        · cases h
          exact hcarries
        · cases h
  · intro hcarries
    exact .inr ⟨_, messages, _, List.mem_append_right _ (chatInvoke_mem _ _ _), hcarries⟩

/-- No element is lost if and only if one is refused in time or all of them are messages. -/
theorem nothingLost_iff {payload : List (Bytes × Json)} {elements : List Json}
    (h : payload.lookup (literal "messages") = some (.array elements)) (server : Server)
    (req : Request) :
    NothingLost (server.chatCompletion req payload) elements ↔
      Refused elements ∨ ∀ msg ∈ elements, IsMessage msg := by
  have hmissing := readMessages_missing_iff elements []
  have hok := readMessages_ok_iff elements []
  rw [chatCompletion_array h, ← hmissing]
  cases hread : readMessages elements [] with
  | error refusal =>
    cases refusal with
    | missing field => exact iff_of_true (nothingLost_missing _ _ _) (.inl ⟨field, rfl⟩)
    | thrown e =>
      apply iff_of_false (not_nothingLost_thrown _ _)
      rintro (⟨_, ⟨⟩⟩ | hall)
      obtain ⟨_, hms⟩ := hok.mpr fun msg hmem => isMessage_readable (hall msg hmem)
      cases hread.symm.trans hms
  | ok chatMessages =>
    obtain ⟨_, rfl, _, hcarries⟩ := readMessages_carries hread
    change NothingLost (Handled.andThen _ (server.chatInvoke chatMessages chatParams)) elements ↔ _
    rw [nothingLost_stream_iff, hcarries]
    simp only [reduceCtorEq, exists_false, false_or]

def element (role content : String) : Json :=
  .object [(literal "role", .text role), (literal "content", .text content)]

theorem isMessage_element {role : String} (hrole : literal role ∈ knownRoles) (content : String) :
    IsMessage (element role content) :=
  ⟨⟨literal role, literal content⟩, ⟨_, rfl, rfl, rfl⟩, hrole⟩

theorem nothingLost_iff_dialogue :
    NothingLost ((knowing [] .null).chatCompletion (chatRequest [])
        [(literal "messages", .array
          [element "system" "Be brief.", element "user" "hi", element "assistant" "Hello!"])])
      [element "system" "Be brief.", element "user" "hi", element "assistant" "Hello!"] := by
  rw [nothingLost_iff rfl]
  apply Or.inr
  simp only [List.forall_mem_cons, List.not_mem_nil, false_implies, implies_true, and_true]
  exact ⟨isMessage_element (by decide) _, isMessage_element (by decide) _,
    isMessage_element (by decide) _⟩

theorem toolResult_lost :
    ¬ NothingLost ((knowing [] .null).chatCompletion (chatRequest [])
      [(literal "messages", .array [element "tool" "4"])]) [element "tool" "4"] := by
  have hread : readMessages [element "tool" "4"] [] = .ok [] := by
    rw [readMessages_cons, element, readMessage_unknown rfl rfl (by decide +kernel)]
    rfl
  rw [chatCompletion_array rfl, hread]
  change ¬ NothingLost (Handled.andThen _ (Server.chatInvoke _ [] _)) _
  rw [nothingLost_stream_iff]
  rintro ⟨⟩

end Server

end ZInferLM.Serve
