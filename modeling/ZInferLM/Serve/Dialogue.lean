import ZInferLM.Serve.ChatPage
import ZInferLM.Serve.Conversation
import ZInferLM.Serve.EndToEnd
import ZInferLM.Serve.Replies

/-! # The page and the server

When the responses are those that the server streams, a reply in the history is the whole output of
the generation for its request, never a part of it. Then the messages of every request are known to
the server, which hands all of them to the model. -/

namespace ZInferLM.Serve
open Library Library.Utf8 Tokenizer Inference

section Reading
variable {serialize : Json → Bytes} {parse : List Char → Option Json}

/-- Reading the first part of a text of events handles the first of them. -/
theorem Reader.read_part {events : List (List Char)} (hline : ∀ event ∈ events, '\n' ∉ event)
    {r : Reader} {fragments : List Bytes} {rest : Bytes} {future : List Char}
    (hawaits : r.decoder.Awaits (fragments.flatten ++ rest) future)
    (hbuffer : r.buffer ++ future = eventText events) (hpending : Pending parse r.page events) :
    ∃ done left, events = done ++ left ∧
      (r.read parse fragments).map Reader.page = r.page.handle parse done := by
  induction fragments generalizing r events future with
  | nil => exact ⟨[], events, rfl, rfl⟩
  | cons fragment fragments ih =>
    rw [Reader.read]
    split_ifs with hfinished
    · exact ⟨[], events, rfl, rfl⟩
    · rw [List.flatten_cons, List.append_assoc] at hawaits
      obtain ⟨future', hpart, hawaits'⟩ := hawaits.decode
      obtain ⟨done, left, buffer, rfl, hleft, -, hdrain⟩ := @Reader.drain_eq parse events hline
        ⟨(r.decoder.decode fragment).1, r.buffer ++ (r.decoder.decode fragment).2, r.page⟩ future'
        (by rw [List.append_assoc, hpart, hbuffer]) _ (Nat.lt_succ_self _)
      simp only
      rw [hdrain]
      cases hpage : r.page.handle parse done with
      | error e => exact ⟨done, left, rfl, hpage.symm⟩
      | ok page =>
        obtain ⟨done', left', rfl, hread⟩ := @ih left
          (fun e he => hline e (List.mem_append_right done he)) ⟨_, buffer, page⟩ future' hawaits'
          hleft (hpending.handle hpage)
        refine ⟨done ++ done', left', (List.append_assoc _ _ _).symm, ?_⟩
        rw [Page.handle_append, hpage]
        exact hread

theorem Page.handle_payloads (hparse : ReadsJson parse) {payloads : List Json}
    (h : ∀ p ∈ payloads, Faithful serialize parse p) (page : Page) :
    page.handle parse (payloads.map fun p => "data: ".toList ++ decode (serialize p)) =
      page.showAll payloads := by
  induction payloads generalizing page with
  | nil => rfl
  | cons p payloads ih =>
    rw [List.map_cons, Page.handle, Page.showAll, Page.event_payload hparse
      (h p List.mem_cons_self)]
    cases page.show p with
    | error e => rfl
    | ok page => exact ih (fun q hq => h q (List.mem_cons_of_mem p hq)) page

def responseText (serialize : Json → Bytes) (gen : Generation) : Bytes :=
  (streamedMessages gen.trace).flatMap fun m => rawString serialize m.1 m.2

theorem responseText_eq (serialize : Json → Bytes) (gen : Generation) : ∃ reason,
    responseText serialize gen =
      sseText serialize (gen.payloads.map tokenMessage) (finishMessage reason) ∧
    ∀ p ∈ gen.payloads.map tokenMessage ++ [finishMessage reason],
      ∃ m ∈ streamedMessages gen.trace, p = m.1 := by
  obtain ⟨reason, htrace⟩ := streamedMessages_trace gen
  refine ⟨reason, ?_, ?_⟩
  · rw [responseText, htrace, List.flatMap_append, List.flatMap_map, sseText, List.flatMap_map,
      List.flatMap_singleton]
  · intro p hp
    rw [htrace]
    rcases List.mem_append.mp hp with hp | hp
    · obtain ⟨token, htoken, rfl⟩ := List.mem_map.mp hp
      exact ⟨_, List.mem_append_left _ (List.mem_map.mpr ⟨token, htoken, rfl⟩), rfl⟩
    · rw [List.mem_singleton.mp hp]
      exact ⟨_, List.mem_append_right _ (List.mem_singleton_self _), rfl⟩

/-- The client can read any first part of a response, and when it is finished, it shows all
tokens. -/
theorem read_generation (hparse : ReadsJson parse) {gen : Generation}
    (hcodec : ∀ m ∈ streamedMessages gen.trace, Faithful serialize parse m.1)
    {fragments : List Bytes} (hpart : fragments.flatten <+: responseText serialize gen) :
    ∃ r, Reader.new.read parse fragments = .ok r ∧ (r.page.finished = true →
      r.page.streamMsg = shownTokens gen.payloads ∧ r.page.role = .text "assistant") := by
  obtain ⟨reason, htext, hmessages⟩ := responseText_eq serialize gen
  have hfaithful : ∀ p ∈ gen.payloads.map tokenMessage ++ [finishMessage reason],
      Faithful serialize parse p := by
    intro p hp
    obtain ⟨m, hm, rfl⟩ := hmessages p hp
    exact hcodec m hm
  obtain ⟨rest, hrest⟩ := hpart
  rw [htext, sseText_eq hfaithful] at hrest
  obtain ⟨page, hpage, hshown, hrole⟩ := Page.showAll_response gen.payloads reason
  have hawaits := TextDecoder.new_awaits (@response_head serialize
    (gen.payloads.map tokenMessage ++ [finishMessage reason]))
  rw [← hrest] at hawaits
  obtain ⟨done, left, hevents, hread⟩ := @Reader.read_part parse _ (response_lines hfaithful)
    Reader.new fragments rest _ hawaits rfl (.inr ⟨rfl, response_unfinished hparse hfaithful⟩)
  have hresult : ∀ page', Reader.new.page.handle parse done = .ok page' →
      ∃ r, Reader.new.read parse fragments = .ok r ∧ r.page = page' := by
    intro page' hpage'
    rw [hpage'] at hread
    cases hr : Reader.new.read parse fragments with
    | error e =>
      rw [hr] at hread
      cases hread
    | ok r =>
      rw [hr] at hread
      exact ⟨r, rfl, Except.ok.inj hread⟩
  rcases List.eq_nil_or_concat' left with rfl | ⟨left, last, rfl⟩
  · -- all events have been handled
    rw [List.append_nil] at hevents
    have hhandle := Page.handle_response hparse hfaithful Page.new
    rw [hpage, Outcome.ok_bind, hevents] at hhandle
    obtain ⟨r, hr, hpage'⟩ := hresult _ hhandle
    exact ⟨r, hr, fun _ => by rw [hpage']; exact ⟨hshown, hrole⟩⟩
  · -- the last event, which finishes the page, is still to come
    rw [responseEvents, ← List.append_assoc] at hevents
    obtain ⟨before, after, hsplit, hdone, -⟩ :=
      List.map_eq_append_iff.mp (List.append_inj' hevents rfl).1
    have hhandle := @Page.handle_payloads serialize parse hparse before
      (fun p hp => hfaithful p (by rw [hsplit]; exact List.mem_append_left _ hp)) Page.new
    rw [hsplit, Page.showAll_append] at hpage
    obtain ⟨page', hbefore, -⟩ := Outcome.bind_eq_ok.mp hpage
    rw [hdone, hbefore] at hhandle
    obtain ⟨r, hr, hpage'⟩ := hresult _ hhandle
    refine ⟨r, hr, fun hfinished => ?_⟩
    rw [hpage', (Page.showAll_shown hbefore).1] at hfinished
    cases hfinished

variable {toText : Json → Bytes} {gens : ℕ → Generation} {c c' : Conversation}

/-- A reply is the output of the generation. -/
def Exchange.RepliedBy (gen : Generation) (e : Exchange) : Prop :=
  ∀ reply ∈ e.reply, reply = ⟨.text "assistant", gen.output⟩

namespace Conversation

def exchanges (c : Conversation) : List Exchange := c.talks.flatten ++ c.talk

/-- What arrives is a part of the text that is streamed for the generation of the last request, and
the response ends behind all of it. -/
def Served (serialize : Json → Bytes) (gens : ℕ → Generation) (c : Conversation) :
    ChatPage.Label → Prop
  | .read value => ∀ responded fragments, c.asking = some ⟨false, responded, fragments⟩ →
    (fragments ++ [value]).flatten <+: responseText serialize (gens (c.exchanges.length - 1))
  | .done => ∀ responded fragments, c.asking = some ⟨false, responded, fragments⟩ →
    fragments.flatten = responseText serialize (gens (c.exchanges.length - 1))
  | .send _ _ | .respond _ | .fail | .clear => True

def Replied (gens : ℕ → Generation) (c : Conversation) : Prop :=
  ∀ (k : ℕ) (e : Exchange), c.exchanges[k]? = some e → e.RepliedBy (gens k)

theorem Replied.of_exchanges (h : c.Replied gens) (heq : c'.exchanges = c.exchanges) :
    c'.Replied gens := by
  rw [Replied, heq]
  exact h

theorem forall_concat {α : Type} {xs : List α} {x : α} {P : ℕ → α → Prop}
    (h : ∀ k y, (xs ++ [x])[k]? = some y → P k y) : ∀ k y, xs[k]? = some y → P k y := by
  intro k y hk
  apply h k y
  rw [List.getElem?_append_left (List.getElem?_eq_some_iff.mp hk).1, hk]

theorem forall_of_concat {α : Type} {xs : List α} {x : α} {P : ℕ → α → Prop}
    (h : ∀ k y, xs[k]? = some y → P k y) (hx : P xs.length x) :
    ∀ k y, (xs ++ [x])[k]? = some y → P k y := by
  intro k y hk
  rcases Nat.lt_or_ge k xs.length with hlt | hge
  · rw [List.getElem?_append_left hlt] at hk
    exact h k y hk
  · have hlt := (List.getElem?_eq_some_iff.mp hk).1
    rw [List.length_append, List.length_singleton] at hlt
    obtain rfl : k = xs.length := by omega
    rw [List.getElem?_concat_length, Option.some.injEq] at hk
    rw [← hk]
    exact hx

theorem Replied.ask (h : c.Replied gens) (system text : List Char) :
    (c.ask system text).Replied gens := by
  rw [Conversation.ask]
  split_ifs
  · exact h
  · change ∀ k (e : Exchange), (c.talks.flatten ++ (c.talk ++ [_]))[k]? = some e → _
    rw [← List.append_assoc]
    exact forall_of_concat h fun reply hreply => by cases hreply

theorem Replied.answer (h : c.Replied gens) (hopen : c.Open) {responded : Bool}
    {fragments : List Bytes} (hasking : c.asking = some ⟨false, responded, fragments⟩)
    {reply : Option Turn}
    (hreply : ∀ turn ∈ reply,
      turn = ⟨.text "assistant", (gens (c.exchanges.length - 1)).output⟩) :
    (c.answer reply).Replied gens := by
  obtain ⟨talk, system, text, htalk⟩ := hopen responded fragments hasking
  have hmodify : c.talk.modify (c.talk.length - 1) (fun e => { e with reply := reply }) =
      talk ++ [⟨system, text, reply⟩] := by
    rw [htalk, List.length_append, List.length_singleton, Nat.add_sub_cancel, Session.modify_last]
  have hexchanges : c.exchanges = (c.talks.flatten ++ talk) ++ [⟨system, text, none⟩] := by
    rw [exchanges, htalk, List.append_assoc]
  rw [Replied, hexchanges] at h
  rw [hexchanges, List.length_append, List.length_singleton, Nat.add_sub_cancel] at hreply
  change ∀ k (e : Exchange), (c.talks.flatten ++ c.talk.modify _ _)[k]? = some e → _
  rw [hmodify, ← List.append_assoc]
  exact forall_of_concat (forall_concat h) hreply

/-- What a finished page puts into the history is the output. -/
theorem reply_generation (htext : ∀ s, toText (.string s) = s) {page : Page} {gen : Generation}
    (hshown : page.streamMsg = shownTokens gen.payloads) (hrole : page.role = .text "assistant") :
    ∀ turn ∈ ChatPage.reply toText page, turn = ⟨.text "assistant", gen.output⟩ := by
  intro turn hturn
  rw [ChatPage.reply, hshown, shownTokens] at hturn
  split_ifs at hturn
  · cases hturn
  · have hcontent : (gen.payloads.map Json.string).flatMap toText = gen.output := by
      rw [List.flatMap_map, gen.output_eq, List.flatMap_def]
      simp only [htext, List.map_id']
    rw [Option.map_some, hcontent, hrole, Option.mem_some_iff] at hturn
    exact hturn.symm

theorem Replied.step (hparse : ReadsJson parse) (htext : ∀ s, toText (.string s) = s)
    (hcodec : ∀ k, ∀ m ∈ streamedMessages (gens k).trace, Faithful serialize parse m.1)
    (h : c.Replied gens) (hopen : c.Open) {label : ChatPage.Label}
    (hserved : c.Served serialize gens label) (hstep : c.step parse toText label = some c') :
    c'.Replied gens := by
  cases label with
  | send input systemMessage =>
    cases hstep
    exact h.ask _ _
  | respond isOk =>
    rw [Conversation.step] at hstep
    split at hstep
    · rw [← Option.some.inj hstep]
      split_ifs
      · exact h
      · exact h
    · cases hstep
  | read value =>
    rw [Conversation.step] at hstep
    split at hstep
    · rename_i fragments hasking
      obtain ⟨r, hr, hfinished⟩ := read_generation hparse (hcodec _) (hserved true _ hasking)
      rw [← Option.some.inj hstep, Conversation.read, hr]
      simp only
      split_ifs with hdone
      · obtain ⟨hshown, hrole⟩ := hfinished hdone
        exact h.answer hopen hasking (reply_generation htext hshown hrole)
      · exact h
    · cases hstep
  | done =>
    rw [Conversation.step] at hstep
    split at hstep
    · rename_i fragments hasking
      have hwhole := hserved true _ hasking
      obtain ⟨reason, htrace, hmessages⟩ :=
        responseText_eq serialize (gens (c.exchanges.length - 1))
      have hresponse := @Reader.read_response serialize parse _ _ (fun p hp => by
        obtain ⟨m, hm, rfl⟩ := hmessages p hp
        exact hcodec _ m hm) hparse fragments (hwhole.trans htrace)
      obtain ⟨page, hpage, hshown, hrole⟩ :=
        Page.showAll_response (gens (c.exchanges.length - 1)).payloads reason
      rw [hpage, Outcome.ok_bind] at hresponse
      rw [← Option.some.inj hstep, conclude]
      cases hr : Reader.new.read parse fragments with
      | error e =>
        rw [hr] at hresponse
        cases hresponse
      | ok r =>
        rw [hr] at hresponse
        have hrpage : r.page = { page with finished := true } := Except.ok.inj hresponse
        exact h.answer hopen hasking (reply_generation htext (by rw [hrpage]; exact hshown)
          (by rw [hrpage]; exact hrole))
    · cases hstep
  | fail =>
    rw [Conversation.step] at hstep
    split at hstep
    · rw [← Option.some.inj hstep]
      exact h
    · cases hstep
  | clear =>
    cases hstep
    apply h.of_exchanges
    change (c.talks ++ [c.talk]).flatten ++ [] = _
    rw [List.append_nil, List.flatten_append, List.flatten_singleton]
    rfl

theorem replied_of_run (hparse : ReadsJson parse) (htext : ∀ s, toText (.string s) = s)
    (hcodec : ∀ k, ∀ m ∈ streamedMessages (gens k).trace, Faithful serialize parse m.1)
    {labels : List ChatPage.Label}
    (hserved : (system parse toText).Meets (Served serialize gens) new labels)
    (hrun : (system parse toText).run labels = some c) : c.Replied gens := by
  have hinv : c.Open ∧ c.Replied gens := by
    refine @Transitions.invariant_of_meets _ _ (system parse toText) _ c labels
      (Served serialize gens) (fun c => c.Open ∧ c.Replied gens) ?_
      (system parse toText).reachable_start ⟨open_of_asking_eq_none rfl, ?_⟩ hserved hrun
    · intro c label c' _ hlabel hstep h
      exact ⟨h.1.step hstep, h.2.step hparse htext hcodec h.1 hlabel hstep⟩
    · intro k e hk
      cases hk
  exact hinv.2

end Conversation

end Reading

def Turn.ofMessage (m : ChatMessage) : Turn := ⟨.string m.role, m.message⟩

def Turn.Known (t : Turn) : Prop := ∃ m : ChatMessage, m.role ∈ knownRoles ∧ t = .ofMessage m

theorem known_of_role {name : String} (h : literal name ∈ knownRoles) (content : Bytes) :
    Turn.Known ⟨.text name, content⟩ := ⟨⟨literal name, content⟩, h, rfl⟩

theorem known_user (text : List Char) : (userTurn text).Known :=
  known_of_role (by decide) _

theorem known_system (system : List Char) : ∀ t ∈ ChatPage.systemTurns system, t.Known := by
  intro t ht
  rw [ChatPage.systemTurns] at ht
  split_ifs at ht
  · cases ht
  · rw [List.mem_singleton.mp ht]
    exact known_of_role (by decide) _

/-- The requests of a talk have known roles if its replies have. -/
theorem requestsOf_known {before : List Turn} {talk : List Exchange}
    (hbefore : ∀ t ∈ before, t.Known) (htalk : ∀ e ∈ talk, ∀ t ∈ e.reply, t.Known) :
    ∀ request ∈ requestsOf before talk, ∀ t ∈ request, t.Known := by
  induction talk generalizing before with
  | nil =>
    intro request hrequest
    cases hrequest
  | cons e talk ih =>
    obtain ⟨he, hrest⟩ := List.forall_mem_cons.mp htalk
    rw [requestsOf, List.forall_mem_cons]
    constructor
    · intro t ht
      simp only [Exchange.request, List.mem_append, List.mem_cons, List.not_mem_nil, or_false,
        or_self] at ht
      rcases ht with (ht | ht) | rfl
      · exact known_system _ t ht
      · exact hbefore t ht
      · exact known_user _
    · apply ih _ hrest
      intro t ht
      simp only [Exchange.turns, List.mem_append, List.mem_cons, Option.mem_toList] at ht
      rcases ht with ht | rfl | ht
      · exact hbefore t ht
      · exact known_user _
      · exact he t ht

theorem Conversation.requests_known {gens : ℕ → Generation} {c : Conversation}
    (h : c.Replied gens) : ∀ request ∈ c.requests, ∀ t ∈ request, t.Known := by
  intro request hrequest
  obtain ⟨talk, htalk, hmem⟩ := List.mem_flatMap.mp hrequest
  apply requestsOf_known (List.forall_mem_nil _) _ request hmem
  intro e he t ht
  have hexchange : e ∈ c.exchanges := by
    have hflatten : e ∈ (c.talks ++ [c.talk]).flatten := List.mem_flatten.mpr ⟨talk, htalk, he⟩
    rwa [List.flatten_append, List.flatten_singleton] at hflatten
  obtain ⟨k, hk⟩ := List.mem_iff_getElem?.mp hexchange
  rw [h k e hk t ht]
  exact known_of_role (by decide) _

def Turn.toJson (t : Turn) : Json :=
  .object [(literal "role", t.role), (literal "content", .string t.content)]

def requestBody (request : List Turn) : Json :=
  .object [(literal "model", .text "zinferlm"), (literal "messages", .array (request.map Turn.toJson))]

theorem readMessages_turns {turns : List Turn} (h : ∀ t ∈ turns, t.Known)
    (ms : List ChatMessage) : ∃ messages,
      readMessages (turns.map Turn.toJson) ms = .ok (ms ++ messages) ∧
        turns = messages.map Turn.ofMessage := by
  induction turns generalizing ms with
  | nil => exact ⟨[], by rw [List.append_nil]; rfl, rfl⟩
  | cons t turns ih =>
    obtain ⟨⟨m, hrole, rfl⟩, hrest⟩ := List.forall_mem_cons.mp h
    obtain ⟨messages, hread, hturns⟩ := ih hrest (ms ++ [m])
    refine ⟨m :: messages, ?_, by rw [List.map_cons, ← hturns]⟩
    have hmessage : readMessage (Turn.toJson (.ofMessage m)) = .ok (some m) := by
      rw [Turn.toJson, readMessage_known rfl rfl hrole]
      rfl
    rw [List.map_cons, readMessages_cons, hmessage, List.append_cons]
    exact hread

def chatPost (stringify : Json → Bytes) (request : List Turn) : Request :=
  Server.chatRequest (stringify (requestBody request))

/-- The server hands all messages of a request to the model. -/
def HandsOver (server : Server) (stringify : Json → Bytes) (request : List Turn) : Prop :=
  ∃ messages, request = messages.map Turn.ofMessage ∧
    .chatInvoke server.chatId messages Server.chatParams ∈
      (server.handleRequest (chatPost stringify request)).effects

theorem handsOver_of_known {server : Server} {stringify : Json → Bytes} {request : List Turn}
    (hknown : ∀ t ∈ request, t.Known)
    (hbody : server.parse (stringify (requestBody request)) = .ok (requestBody request)) :
    HandsOver server stringify request := by
  obtain ⟨messages, hread, hrequest⟩ := readMessages_turns hknown []
  refine ⟨messages, hrequest, ?_⟩
  have hjson : Server.IsJson (chatPost stringify request) := List.infix_rfl
  have htarget : (chatPost stringify request).target = literal "/v1/chat/completions" := rfl
  have hlookup : List.lookup (literal "messages") [(literal "model", Json.text "zinferlm"),
      (literal "messages", .array (request.map Turn.toJson))] =
        some (.array (request.map Turn.toJson)) := rfl
  have hparsed : server.parse (chatPost stringify request).body = .ok (requestBody request) := hbody
  rw [Server.handleRequest_post server rfl]
  simp only [Server.handlePost, if_pos hjson, hparsed, requestBody, Json.asObject, if_pos htarget]
  rw [Server.chatCompletion_array hlookup, hread, List.nil_append]
  exact List.mem_append_right _ (Server.chatInvoke_mem _ _ _)

/-- When the page is served by this server, the messages of every request reach the model: the
system message, the turns of the talk with every reply as the model generated it, and the text
twice. -/
theorem requests_handed_over {serialize : Json → Bytes} {parse : List Char → Option Json}
    {toText : Json → Bytes} {gens : ℕ → Generation} {labels : List ChatPage.Label} {p : ChatPage}
    {server : Server} {stringify : Json → Bytes} (hparse : ReadsJson parse)
    (htext : ∀ s, toText (.string s) = s)
    (hcodec : ∀ k, ∀ m ∈ streamedMessages (gens k).trace, Faithful serialize parse m.1)
    (hrun : (ChatPage.system parse toText).run labels = some p)
    (hserved : (Conversation.system parse toText).Meets (Conversation.Served serialize gens)
      Conversation.new labels)
    (hbody : ∀ request ∈ p.requests,
      server.parse (stringify (requestBody request)) = .ok (requestBody request)) :
    ∃ c, (Conversation.system parse toText).run labels = some c ∧ p.history = turnsOf c.talk ∧
      p.requests = c.requests ∧ c.Replied gens ∧
        ∀ request ∈ p.requests, HandsOver server stringify request := by
  obtain ⟨c, hc, hhistory, hrequests, -⟩ := page_represents hrun
  have hreplied := Conversation.replied_of_run hparse htext hcodec hserved hc
  refine ⟨c, hc, hhistory, hrequests, hreplied, ?_⟩
  intro request hrequest
  apply handsOver_of_known _ (hbody request hrequest)
  exact Conversation.requests_known hreplied request (hrequests ▸ hrequest)

def greetingDialogue : List ChatPage.Label :=
  [.send "hello".toList [], .respond true,
    .read (responseText writeSample greetingGeneration)]

def greetingPage : ChatPage where
  history := [userTurn "hello".toList, ⟨.text "assistant", literal "Hi"⟩]
  sending := none
  requests := [[userTurn "hello".toList, userTurn "hello".toList]]

def greetingBody : String :=
  "\x7b\"model\":\"zinferlm\",\"messages\":[\x7b\"role\":\"user\",\"content\":\"hello\"\x7d," ++
    "\x7b\"role\":\"user\",\"content\":\"hello\"\x7d]\x7d"

theorem greetingDialogue_served : (Conversation.system readSample textOf).Meets
    (Conversation.Served writeSample fun _ => greetingGeneration) Conversation.new
      greetingDialogue := by
  refine ⟨trivial, fun c hc => ⟨trivial, fun c' hc' => ⟨?_, fun _ _ => trivial⟩⟩⟩
  cases hc
  cases hc'
  intro responded fragments hasking
  cases hasking
  rw [List.nil_append, List.flatten_singleton]

theorem requests_handed_over_greeting : ∃ c : Conversation,
    (Conversation.system readSample textOf).run greetingDialogue = some c ∧
      greetingPage.history = turnsOf c.talk ∧ greetingPage.requests = c.requests ∧
      c.Replied (fun _ => greetingGeneration) ∧ ∀ request ∈ greetingPage.requests,
        HandsOver (Server.knowing (literal greetingBody)
            (requestBody [userTurn "hello".toList, userTurn "hello".toList]))
          (fun _ => literal greetingBody) request := by
  refine requests_handed_over readSample_reads (fun _ => rfl) (fun _ => greeting_faithful) rfl
    greetingDialogue_served ?_
  intro request hrequest
  rw [List.mem_singleton.mp hrequest]
  simp only [Server.knowing, if_pos]

end ZInferLM.Serve
