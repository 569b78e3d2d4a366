import ZInferLM.Serve.Handlers

/-! # The message loop

The loop stops at an element that lacks a field, throws at one whose fields have the wrong shape,
and goes past one that is no object or has another role. Its result follows from the first of
these, and what it appends from all of them. -/

namespace ZInferLM.Serve
open Library Library.Utf8 Tokenizer Inference

def knownRoles : List Bytes := [literal "user", literal "assistant", literal "system"]

def LacksField (msg : Json) : Prop :=
  ∃ obj, msg = .object obj ∧
    (obj.lookup (literal "role") = none ∨ obj.lookup (literal "content") = none)

/-- An object whose role is no string, or whose content is none under a role that is known. -/
def Throws (msg : Json) : Prop :=
  ∃ obj role content, msg = .object obj ∧ obj.lookup (literal "role") = some role ∧
    obj.lookup (literal "content") = some content ∧
    ((∀ s, role ≠ .string s) ∨ (∃ name ∈ knownRoles, role = .string name) ∧
      ∀ s, content ≠ .string s)

def Carries (msg : Json) (m : ChatMessage) : Prop :=
  ∃ obj, msg = .object obj ∧ obj.lookup (literal "role") = some (.string m.role) ∧
    obj.lookup (literal "content") = some (.string m.message)

def IsMessage (msg : Json) : Prop := ∃ m, Carries msg m ∧ m.role ∈ knownRoles

theorem stringOf_eq_ok {value : Json} {s : Bytes} : stringOf value = .ok s ↔ value = .string s := by
  cases value <;> simp [stringOf, Json.asString, Except.mapError]

theorem stringOf_thrown {value : Json} (h : ∀ s, value ≠ .string s) :
    stringOf value = .error (.thrown .notString) := by
  cases value with
  | string s => exact absurd rfl (h s)
  | _ => rfl

theorem readMessage_known {obj : List (Bytes × Json)} {name : Bytes} {content : Json}
    (hrole : obj.lookup (literal "role") = some (.string name))
    (hcontent : obj.lookup (literal "content") = some content) (hname : name ∈ knownRoles) :
    readMessage (.object obj) = (stringOf content).map fun s => some ⟨name, s⟩ := by
  have hcases : name = literal "user" ∨ name = literal "assistant" ∨ name = literal "system" := by
    simpa [knownRoles] using hname
  have hua : literal "assistant" ≠ literal "user" := by decide
  have hus : literal "system" ≠ literal "user" := by decide
  have has : literal "system" ≠ literal "assistant" := by decide
  rw [readMessage, hrole, hcontent]
  change (if name = _ then _ else _) = _
  rcases hcases with rfl | rfl | rfl
  · rw [if_pos rfl]
    cases stringOf content <;> rfl
  · rw [if_neg hua, if_pos rfl]
    cases stringOf content <;> rfl
  · rw [if_neg hus, if_neg has, if_pos rfl]
    cases stringOf content <;> rfl

theorem readMessage_unknown {obj : List (Bytes × Json)} {name : Bytes} {content : Json}
    (hrole : obj.lookup (literal "role") = some (.string name))
    (hcontent : obj.lookup (literal "content") = some content) (hname : name ∉ knownRoles) :
    readMessage (.object obj) = .ok none := by
  have hcases : name ≠ literal "user" ∧ name ≠ literal "assistant" ∧ name ≠ literal "system" := by
    simpa [knownRoles] using hname
  rw [readMessage, hrole, hcontent]
  change (if name = _ then _ else _) = _
  rw [if_neg hcases.1, if_neg hcases.2.1, if_neg hcases.2.2]

/-- An element is refused, makes the loop throw, is appended as it is, or is passed over. -/
inductive Reading (msg : Json) : Except Refusal (Option ChatMessage) → Prop where
  | missing {field : String} : LacksField msg → ¬ Throws msg → Reading msg (.error (.missing field))
  | thrown {e : JsonError} : ¬ LacksField msg → Throws msg → Reading msg (.error (.thrown e))
  | message {m : ChatMessage} : ¬ LacksField msg → ¬ Throws msg → Carries msg m →
      m.role ∈ knownRoles → Reading msg (.ok (some m))
  | passed : ¬ LacksField msg → ¬ Throws msg → ¬ IsMessage msg → Reading msg (.ok none)

theorem reading_of_missing {obj : List (Bytes × Json)} (field : String)
    (h : obj.lookup (literal "role") = none ∨ obj.lookup (literal "content") = none) :
    Reading (.object obj) (.error (.missing field)) := by
  apply Reading.missing ⟨obj, rfl, h⟩
  rintro ⟨_, _, _, ⟨⟩, hrole, hcontent, _⟩
  rcases h with h | h
  · cases h.symm.trans hrole
  · cases h.symm.trans hcontent

theorem reading_of_notObject {msg : Json} (h : ∀ obj, msg ≠ .object obj) :
    Reading msg (.ok none) := by
  apply Reading.passed
  · rintro ⟨obj, hobj, _⟩
    exact h obj hobj
  · rintro ⟨obj, _, _, hobj, _⟩
    exact h obj hobj
  · rintro ⟨_, ⟨obj, hobj, _⟩, _⟩
    exact h obj hobj

theorem reading_of_fields {obj : List (Bytes × Json)} {role content : Json}
    (hrole : obj.lookup (literal "role") = some role)
    (hcontent : obj.lookup (literal "content") = some content) :
    Reading (.object obj) (readMessage (.object obj)) := by
  have hlacks : ¬ LacksField (.object obj) := by
    rintro ⟨_, ⟨⟩, h | h⟩
    · cases h.symm.trans hrole
    · cases h.symm.trans hcontent
  have hthrows (h : Throws (.object obj)) : (∀ s, role ≠ .string s) ∨
      (∃ name ∈ knownRoles, role = .string name) ∧ ∀ s, content ≠ .string s := by
    rcases h with ⟨_, _, _, ⟨⟩, hrole', hcontent', h⟩
    rw [hrole] at hrole'
    rw [hcontent] at hcontent'
    cases hrole'
    cases hcontent'
    exact h
  by_cases hstring : ∃ name, role = .string name
  · obtain ⟨name, rfl⟩ := hstring
    by_cases hname : name ∈ knownRoles
    · rw [readMessage_known hrole hcontent hname]
      by_cases htext : ∃ s, content = .string s
      · obtain ⟨s, rfl⟩ := htext
        rw [stringOf_eq_ok.mpr rfl]
        apply Reading.message hlacks _ ⟨obj, rfl, hrole, hcontent⟩ hname
        intro h
        rcases hthrows h with h | ⟨_, h⟩
        · exact h name rfl
        · exact h s rfl
      · rw [not_exists] at htext
        rw [stringOf_thrown htext]
        exact Reading.thrown hlacks
          ⟨obj, _, _, rfl, hrole, hcontent, .inr ⟨⟨name, hname, rfl⟩, htext⟩⟩
    · rw [readMessage_unknown hrole hcontent hname]
      apply Reading.passed hlacks
      · intro h
        rcases hthrows h with h | ⟨⟨other, hother, heq⟩, _⟩
        · exact h name rfl
        · cases heq
          exact hname hother
      · rintro ⟨m, ⟨_, ⟨⟩, hm, _⟩, hknown⟩
        rw [hrole, Option.some.injEq, Json.string.injEq] at hm
        exact hname (hm ▸ hknown)
  · rw [not_exists] at hstring
    have herror : readMessage (.object obj) = .error (.thrown .notString) := by
      rw [readMessage, hrole, hcontent]
      change (do let name ← stringOf role; _) = _
      rw [stringOf_thrown hstring]
      rfl
    rw [herror]
    exact Reading.thrown hlacks ⟨obj, _, _, rfl, hrole, hcontent, .inl hstring⟩

theorem readMessage_reading (msg : Json) : Reading msg (readMessage msg) := by
  cases msg with
  | object obj =>
    cases hrole : obj.lookup (literal "role") with
    | none =>
      have herror : readMessage (.object obj) = .error (.missing "role") := by
        rw [readMessage, hrole]
      rw [herror]
      exact reading_of_missing _ (.inl hrole)
    | some role =>
      cases hcontent : obj.lookup (literal "content") with
      | none =>
        have herror : readMessage (.object obj) = .error (.missing "content") := by
          rw [readMessage, hrole, hcontent]
        rw [herror]
        exact reading_of_missing _ (.inr hcontent)
      | some content => exact reading_of_fields hrole hcontent
  | _ => exact reading_of_notObject fun _ h => by cases h

/-- An element lacks a field, and no element before it throws. -/
def Refused (elements : List Json) : Prop :=
  ∃ before msg after, elements = before ++ msg :: after ∧ LacksField msg ∧
    ∀ other ∈ before, ¬ Throws other

theorem not_refused_nil : ¬ Refused [] := by
  rintro ⟨before, msg, after, h, _⟩
  exact List.append_ne_nil_of_right_ne_nil before (List.cons_ne_nil msg after) h.symm

theorem refused_cons {msg : Json} {elements : List Json} :
    Refused (msg :: elements) ↔ LacksField msg ∨ ¬ Throws msg ∧ Refused elements := by
  constructor
  · rintro ⟨before, other, after, heq, hlacks, hbefore⟩
    cases before with
    | nil =>
      cases heq
      exact .inl hlacks
    | cons first before =>
      cases heq
      rw [List.forall_mem_cons] at hbefore
      exact .inr ⟨hbefore.1, before, other, after, rfl, hlacks, hbefore.2⟩
  · rintro (hlacks | ⟨hthrows, before, other, after, rfl, hlacks, hbefore⟩)
    · exact ⟨[], msg, elements, rfl, hlacks, fun other h => absurd h List.not_mem_nil⟩
    · refine ⟨msg :: before, other, after, rfl, hlacks, ?_⟩
      rw [List.forall_mem_cons]
      exact ⟨hthrows, hbefore⟩

theorem readMessages_cons (msg : Json) (elements : List Json) (ms : List ChatMessage) :
    readMessages (msg :: elements) ms = match readMessage msg with
      | .error e => .error e
      | .ok message => readMessages elements (ms ++ message.toList) := by
  rw [readMessages]
  cases readMessage msg <;> rfl

/-- The loop ends in a reply if and only if the conversation is refused. -/
theorem readMessages_missing_iff (elements : List Json) (ms : List ChatMessage) :
    (∃ field, readMessages elements ms = .error (.missing field)) ↔ Refused elements := by
  induction elements generalizing ms with
  | nil => exact iff_of_false (fun ⟨_, h⟩ => by cases h) not_refused_nil
  | cons msg elements ih =>
    rw [readMessages_cons, refused_cons]
    have hreading := readMessage_reading msg
    generalize readMessage msg = result at hreading ⊢
    cases hreading with
    | @missing field hlacks _ => exact iff_of_true ⟨field, rfl⟩ (.inl hlacks)
    | thrown hlacks hthrows =>
      apply iff_of_false
      · rintro ⟨_, ⟨⟩⟩
      · rintro (h | ⟨h, _⟩)
        · exact hlacks h
        · exact h hthrows
    | message hlacks hthrows _ _ =>
      change (∃ field, readMessages elements _ = _) ↔ _
      rw [ih, or_iff_right hlacks, and_iff_right hthrows]
    | passed hlacks hthrows _ =>
      change (∃ field, readMessages elements _ = _) ↔ _
      rw [ih, or_iff_right hlacks, and_iff_right hthrows]

/-- The loop reaches its end if and only if it can read every element. -/
theorem readMessages_ok_iff (elements : List Json) (ms : List ChatMessage) :
    (∃ ms', readMessages elements ms = .ok ms') ↔
      ∀ msg ∈ elements, ¬ LacksField msg ∧ ¬ Throws msg := by
  induction elements generalizing ms with
  | nil => exact iff_of_true ⟨ms, rfl⟩ (fun msg h => absurd h List.not_mem_nil)
  | cons msg elements ih =>
    rw [readMessages_cons, List.forall_mem_cons]
    have hreading := readMessage_reading msg
    generalize readMessage msg = result at hreading ⊢
    cases hreading with
    | missing hlacks _ => exact iff_of_false (fun ⟨_, h⟩ => by cases h) (fun h => h.1.1 hlacks)
    | thrown _ hthrows => exact iff_of_false (fun ⟨_, h⟩ => by cases h) (fun h => h.1.2 hthrows)
    | message hlacks hthrows _ _ =>
      change (∃ ms', readMessages elements _ = _) ↔ _
      rw [ih, and_iff_right ⟨hlacks, hthrows⟩]
    | passed hlacks hthrows _ =>
      change (∃ ms', readMessages elements _ = _) ↔ _
      rw [ih, and_iff_right ⟨hlacks, hthrows⟩]

/-- What the loop appends carries every element if and only if all of them are messages. -/
theorem readMessages_carries {elements : List Json} {ms ms' : List ChatMessage}
    (h : readMessages elements ms = .ok ms') : ∃ appended, ms' = ms ++ appended ∧
      appended.length ≤ elements.length ∧
      (List.Forall₂ Carries elements appended ↔ ∀ msg ∈ elements, IsMessage msg) := by
  induction elements generalizing ms with
  | nil =>
    cases h
    refine ⟨[], (List.append_nil _).symm, Nat.le_refl 0, ?_⟩
    exact iff_of_true List.Forall₂.nil (fun msg h => absurd h List.not_mem_nil)
  | cons msg elements ih =>
    rw [readMessages_cons] at h
    have hreading := readMessage_reading msg
    generalize readMessage msg = result at hreading h
    cases hreading with
    | missing _ _ => cases h
    | thrown _ _ => cases h
    | @message m _ _ hcarries hknown =>
      obtain ⟨appended, hms, hlen, hiff⟩ := ih h
      refine ⟨m :: appended, ?_, Nat.succ_le_succ hlen, ?_⟩
      · rw [hms, List.append_assoc]
        rfl
      · rw [List.forall₂_cons, hiff, List.forall_mem_cons, and_iff_right hcarries,
          and_iff_right ⟨m, hcarries, hknown⟩]
    | passed _ _ hmessage =>
      obtain ⟨appended, hms, hlen, _⟩ := ih h
      refine ⟨appended, ?_, Nat.le_succ_of_le hlen, ?_⟩
      · rw [hms, Option.toList_none, List.append_nil]
      · apply iff_of_false
        · intro hall
          have hlen' := hall.length_eq
          rw [List.length_cons] at hlen'
          omega
        · intro hall
          exact hmessage (hall msg List.mem_cons_self)

namespace Server

variable {server : Server} {req : Request}

theorem chatCompletion_array {payload : List (Bytes × Json)} {elements : List Json}
    (h : payload.lookup (literal "messages") = some (.array elements)) :
    server.chatCompletion req payload = match readMessages elements [] with
      | .error (.missing field) => sendJsonResponse req .badRequest (fieldRequired field)
      | .error (.thrown e) => ⟨[], some (.json e)⟩
      | .ok chatMessages =>
        Handled.andThen ⟨[.initiateStreaming,
            .listen server.chatId [.generationCompleted, .tokenGenerated]], none⟩
          (server.chatInvoke chatMessages chatParams) := by
  cases hread : readMessages elements [] with
  | error refusal =>
    cases refusal with
    | missing field => simp only [chatCompletion, h, hread]
    | thrown e => simp only [chatCompletion, h, hread]
  | ok chatMessages => simp only [chatCompletion, h, hread]

theorem chatCompletion_notArray {payload : List (Bytes × Json)}
    (h : ∀ elements, payload.lookup (literal "messages") ≠ some (.array elements)) :
    server.chatCompletion req payload =
      sendJsonResponse req .badRequest (fieldRequired "messages") := by
  rw [chatCompletion]
  split
  · rename_i elements heq
    exact absurd heq (h elements)
  · rfl

theorem mem_chatInvoke {messages : List ChatMessage} {params : ChatParams} {e : Effect}
    (h : e ∈ (server.chatInvoke messages params).effects) :
    e = .chatInvoke server.chatId messages params ∨
      ∃ input, e = .addTask server.chatId input params.maxTokens := by
  rw [chatInvoke] at h
  split at h
  · exact .inl (List.mem_singleton.mp h)
  · rcases List.mem_cons.mp h with h | h
    · exact .inl h
    · exact .inr ⟨_, List.mem_singleton.mp h⟩

/-- A server whose parser knows one body; the template gives the empty text. -/
def knowing (text : Bytes) (body : Json) : Server where
  indexHtml := literal "<html></html>"
  parse input := if input = text then .ok body else .error (literal "syntax error")
  chatId := literal "chatcmpl-0"
  chatTemplate := .ok fun _ => .ok []

def chatRequest (body : Bytes) : Request :=
  ⟨.post, literal "/v1/chat/completions", some (literal "application/json"), body, 11, true⟩

end Server

end ZInferLM.Serve
