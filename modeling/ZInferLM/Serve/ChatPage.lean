import ZInferLM.Library.Transitions
import ZInferLM.Serve.SseRoundTrip

/-! # The conversation of the page

The page keeps the turns of a conversation in one list and sends them with every request. Clearing
the conversation empties the list and aborts the request that is under way. One level up there are
talks, which end with a clearing, and their exchanges, each with what the whole response to it
shows; the page runs as this level does, with the same requests. -/

namespace ZInferLM.Serve
open Library Library.Utf8 Tokenizer

structure Turn where
  role : Json
  content : Bytes

def userTurn (text : List Char) : Turn := ⟨.text "user", encode text⟩

/-- A call of `send` that waits: whether its request has been aborted, whether the response has
begun, and what has been read of it. -/
structure Sending where
  aborted : Bool
  responded : Bool
  reader : Reader

/-- The page, with the messages of its requests so far. The button is disabled while `send` runs. -/
structure ChatPage where
  history : List Turn
  sending : Option Sending
  requests : List (List Turn)

namespace ChatPage

def new : ChatPage := ⟨[], none, []⟩

/-- The system message, unless it is blank. -/
def systemTurns (system : List Char) : List Turn :=
  if system = [] then [] else [⟨.text "system", encode system⟩]

def buildMessages (systemMessage : List Char) (history : List Turn) (userText : List Char) :
    List Turn :=
  systemTurns (trim systemMessage) ++ history ++ [userTurn userText]

/-- `send` up to its request; nothing happens without a text, or while a request is under way. -/
def send (p : ChatPage) (input systemMessage : List Char) : ChatPage :=
  let text := trim input
  if text = [] ∨ p.sending.isSome then p
  else
    let history := p.history ++ [userTurn text]
    ⟨history, some ⟨false, false, .new⟩,
      p.requests ++ [buildMessages systemMessage history text]⟩

section Reading
variable (parse : List Char → Option Json) (toText : Json → Bytes)

/-- What goes into the history when a response has been read. -/
def reply (page : Page) : Option Turn :=
  page.streamMsg.map fun msg => ⟨page.role, msg.contents.flatMap toText⟩

/-- The end of `send` behind its read loop. -/
def finish (p : ChatPage) (page : Page) : ChatPage :=
  { p with history := p.history ++ (reply toText page).toList, sending := none }

/-- The end of `send` behind an exception, which it catches. -/
def giveUp (p : ChatPage) : ChatPage := { p with sending := none }

def respond (p : ChatPage) (isOk : Bool) : Option ChatPage :=
  match p.sending with
  | some ⟨false, false, reader⟩ =>
    some (if isOk then { p with sending := some ⟨false, true, reader⟩ } else p.giveUp)
  | _ => none

def read (p : ChatPage) (value : Bytes) : Option ChatPage :=
  match p.sending with
  | some ⟨false, true, reader⟩ =>
    match reader.read parse [value] with
    | .error _ => some p.giveUp
    | .ok r =>
      some (if r.page.finished then p.finish toText r.page
        else { p with sending := some ⟨false, true, r⟩ })
  | _ => none

def done (p : ChatPage) : Option ChatPage :=
  match p.sending with
  | some ⟨false, true, reader⟩ => some (p.finish toText reader.page)
  | _ => none

def fail (p : ChatPage) : Option ChatPage :=
  match p.sending with
  | some _ => some p.giveUp
  | none => none

/-- The button that clears the conversation. An aborted request is rejected and does nothing
else. -/
def clear (p : ChatPage) : ChatPage :=
  { p with history := [], sending := p.sending.map fun s => { s with aborted := true } }

inductive Label where
  | send (input systemMessage : List Char)
  | respond (isOk : Bool)
  | read (value : Bytes)
  | done
  | fail
  | clear

def step (p : ChatPage) : Label → Option ChatPage
  | .send input systemMessage => some (p.send input systemMessage)
  | .respond isOk => p.respond isOk
  | .read value => p.read parse toText value
  | .done => p.done toText
  | .fail => p.fail
  | .clear => some p.clear

def system : Transitions ChatPage Label := ⟨new, step parse toText⟩

end Reading

end ChatPage

/-- A text that was sent, the system message with it, and what the response showed. -/
structure Exchange where
  system : List Char
  text : List Char
  reply : Option Turn

namespace Exchange

def turns (e : Exchange) : List Turn := userTurn e.text :: e.reply.toList

/-- The messages of the request, behind the turns before it. The text is in them twice. -/
def request (before : List Turn) (e : Exchange) : List Turn :=
  ChatPage.systemTurns e.system ++ before ++ [userTurn e.text, userTurn e.text]

end Exchange

def turnsOf (talk : List Exchange) : List Turn := talk.flatMap Exchange.turns

/-- The requests of a talk: each has all turns before it. -/
def requestsOf (before : List Turn) : List Exchange → List (List Turn)
  | [] => []
  | e :: talk => e.request before :: requestsOf (before ++ e.turns) talk

theorem requestsOf_concat (before : List Turn) (talk : List Exchange) (e : Exchange) :
    requestsOf before (talk ++ [e]) =
      requestsOf before talk ++ [e.request (before ++ turnsOf talk)] := by
  induction talk generalizing before with
  | nil => simp [requestsOf, turnsOf]
  | cons first talk ih =>
    rw [List.cons_append, requestsOf, requestsOf, ih, List.append_assoc]
    rfl

/-- A request that waits for its response, and the fragments of it so far. -/
structure Asking where
  aborted : Bool
  responded : Bool
  fragments : List Bytes

/-- The talks that have been cleared, the current one, and the request that is under way. -/
structure Conversation where
  talks : List (List Exchange)
  talk : List Exchange
  asking : Option Asking

namespace Conversation

def new : Conversation := ⟨[], [], none⟩

def requests (c : Conversation) : List (List Turn) := (c.talks ++ [c.talk]).flatMap (requestsOf [])

def ask (c : Conversation) (system text : List Char) : Conversation :=
  if text = [] ∨ c.asking.isSome then c
  else { c with talk := c.talk ++ [⟨system, text, none⟩], asking := some ⟨false, false, []⟩ }

def answer (c : Conversation) (reply : Option Turn) : Conversation :=
  { c with
    talk := c.talk.modify (c.talk.length - 1) fun e => { e with reply := reply }
    asking := none }

def giveUp (c : Conversation) : Conversation := { c with asking := none }

def forget (c : Conversation) : Conversation :=
  ⟨c.talks ++ [c.talk], [], c.asking.map fun a => { a with aborted := true }⟩

section Reading
variable (parse : List Char → Option Json) (toText : Json → Bytes)

def read (c : Conversation) (fragments : List Bytes) : Conversation :=
  match Reader.new.read parse fragments with
  | .error _ => c.giveUp
  | .ok r =>
    if r.page.finished then c.answer (ChatPage.reply toText r.page)
    else { c with asking := some ⟨false, true, fragments⟩ }

def conclude (c : Conversation) (fragments : List Bytes) : Conversation :=
  match Reader.new.read parse fragments with
  | .error _ => c.giveUp
  | .ok r => c.answer (ChatPage.reply toText r.page)

def step (c : Conversation) : ChatPage.Label → Option Conversation
  | .send input systemMessage => some (c.ask (trim systemMessage) (trim input))
  | .respond isOk =>
    match c.asking with
    | some ⟨false, false, fragments⟩ =>
      some (if isOk then { c with asking := some ⟨false, true, fragments⟩ } else c.giveUp)
    | _ => none
  | .read value =>
    match c.asking with
    | some ⟨false, true, fragments⟩ => some (c.read parse toText (fragments ++ [value]))
    | _ => none
  | .done =>
    match c.asking with
    | some ⟨false, true, fragments⟩ => some (c.conclude parse toText fragments)
    | _ => none
  | .fail =>
    match c.asking with
    | some _ => some c.giveUp
    | none => none
  | .clear => some c.forget

def system : Transitions Conversation ChatPage.Label := ⟨new, step parse toText⟩

end Reading

/-- The exchange of a request that may still be answered is the last one, and has no reply. -/
def Open (c : Conversation) : Prop := ∀ responded fragments,
  c.asking = some ⟨false, responded, fragments⟩ →
    ∃ talk system text, c.talk = talk ++ [⟨system, text, none⟩]

variable {parse : List Char → Option Json} {toText : Json → Bytes} {c c' : Conversation}

theorem open_of_asking_eq_none (h : c.asking = none) : c.Open := by
  intro responded fragments hasking
  rw [h] at hasking
  cases hasking

theorem Open.read (h : c.Open) {responded : Bool} {fragments : List Bytes}
    (hasking : c.asking = some ⟨false, responded, fragments⟩) (fragments' : List Bytes) :
    (c.read parse toText fragments').Open := by
  rw [Conversation.read]
  split
  · exact open_of_asking_eq_none rfl
  · split_ifs
    · exact open_of_asking_eq_none rfl
    · intro _ _ _
      exact h responded fragments hasking

theorem Open.step (h : c.Open) {label : ChatPage.Label}
    (hstep : c.step parse toText label = some c') : c'.Open := by
  cases label with
  | send input systemMessage =>
    cases hstep
    rw [ask]
    split_ifs
    · exact h
    · intro _ _ _
      exact ⟨c.talk, _, _, rfl⟩
  | respond isOk =>
    rw [Conversation.step] at hstep
    split at hstep
    · rename_i fragments hasking
      rw [← Option.some.inj hstep]
      split_ifs
      · intro _ _ _
        exact h false fragments hasking
      · exact open_of_asking_eq_none rfl
    · cases hstep
  | read value =>
    rw [Conversation.step] at hstep
    split at hstep
    · rename_i fragments hasking
      rw [← Option.some.inj hstep]
      exact h.read hasking _
    · cases hstep
  | done =>
    rw [Conversation.step] at hstep
    split at hstep
    · rw [← Option.some.inj hstep, conclude]
      split
      · exact open_of_asking_eq_none rfl
      · exact open_of_asking_eq_none rfl
    · cases hstep
  | fail =>
    rw [Conversation.step] at hstep
    split at hstep
    · rw [← Option.some.inj hstep]
      exact open_of_asking_eq_none rfl
    · cases hstep
  | clear =>
    cases hstep
    intro responded fragments hasking
    obtain ⟨a, -, ha⟩ := Option.map_eq_some_iff.mp hasking
    cases congrArg Asking.aborted ha

end Conversation

section Reading
variable {parse : List Char → Option Json} {toText : Json → Bytes}

theorem Reader.read_append (values values' : List Bytes) (r : Reader) :
    r.read parse (values ++ values') =
      r.read parse values >>= fun r => r.read parse values' := by
  induction values generalizing r with
  | nil => rfl
  | cons value values ih =>
    rw [List.cons_append, Reader.read, Reader.read]
    split_ifs with hfinished
    · -- a finished client reads nothing more
      cases values' with
      | nil => rfl
      | cons value' values' =>
        rw [Outcome.ok_bind, Reader.read, if_pos hfinished]
    · cases hdrain : Reader.drain parse ((r.buffer ++ (r.decoder.decode value).2).length + 1)
          ⟨(r.decoder.decode value).1, r.buffer ++ (r.decoder.decode value).2, r.page⟩ with
      | error e => simp only [hdrain]; rfl
      | ok r' =>
        simp only [hdrain]
        exact ih r'

/-- The request under way is the same, and what the page has read is all of the fragments. -/
inductive SameRequest (parse : List Char → Option Json) :
    Option Asking → Option Sending → Prop where
  | idle : SameRequest parse none none
  | busy {aborted responded : Bool} {fragments : List Bytes} {reader : Reader} :
      Reader.new.read parse fragments = .ok reader → reader.page.finished = false →
      SameRequest parse (some ⟨aborted, responded, fragments⟩) (some ⟨aborted, responded, reader⟩)

/-- The history of the page has the turns of the current talk, and its requests are those of all
talks. -/
structure Represents (parse : List Char → Option Json) (c : Conversation) (p : ChatPage) :
    Prop where
  history : p.history = turnsOf c.talk
  requests : p.requests = c.requests
  sending : SameRequest parse c.asking p.sending

variable {c c' : Conversation} {p p' : ChatPage}

theorem SameRequest.isSome {asking : Option Asking} {sending : Option Sending}
    (h : SameRequest parse asking sending) : sending.isSome = asking.isSome := by
  cases h <;> rfl

theorem turnsOf_append (talk talk' : List Exchange) :
    turnsOf (talk ++ talk') = turnsOf talk ++ turnsOf talk' := List.flatMap_append

theorem Conversation.requests_eq (c : Conversation) :
    c.requests = c.talks.flatMap (requestsOf []) ++ requestsOf [] c.talk := by
  rw [Conversation.requests, List.flatMap_append, List.flatMap_singleton]

theorem Represents.giveUp (h : Represents parse c p) : Represents parse c.giveUp p.giveUp :=
  ⟨h.history, h.requests, .idle⟩

theorem Represents.ask (h : Represents parse c p) (input systemMessage : List Char) :
    Represents parse (c.ask (trim systemMessage) (trim input)) (p.send input systemMessage) := by
  rw [Conversation.ask, ChatPage.send, h.sending.isSome]
  split_ifs with hcond
  · exact h
  · constructor
    · change p.history ++ _ = turnsOf (c.talk ++ _)
      rw [turnsOf_append, h.history]
      rfl
    · change p.requests ++ _ = _
      rw [h.requests, Conversation.requests_eq, Conversation.requests_eq, requestsOf_concat,
        ← List.append_assoc, ChatPage.buildMessages, h.history]
      simp [Exchange.request]
    · exact .busy rfl rfl

/-- The reply that the last exchange gets is what goes into the history. -/
theorem Represents.answer (h : Represents parse c p) (hopen : c.Open) {responded : Bool}
    {fragments : List Bytes}
    (hasking : c.asking = some ⟨false, responded, fragments⟩) (page : Page) :
    Represents parse (c.answer (ChatPage.reply toText page)) (p.finish toText page) := by
  obtain ⟨talk, system, text, htalk⟩ := hopen responded fragments hasking
  have hmodify : c.talk.modify (c.talk.length - 1)
      (fun e => { e with reply := ChatPage.reply toText page }) =
        talk ++ [⟨system, text, ChatPage.reply toText page⟩] := by
    rw [htalk, List.length_append, List.length_singleton, Nat.add_sub_cancel]
    simp [List.modify_eq_set_getElem?]
  constructor
  · change p.history ++ _ = turnsOf (c.talk.modify _ _)
    rw [hmodify, h.history, htalk, turnsOf_append, turnsOf_append, List.append_assoc]
    simp [turnsOf, Exchange.turns]
  · change p.requests = _
    rw [h.requests, Conversation.requests_eq, Conversation.requests_eq]
    change _ = _ ++ requestsOf [] (c.talk.modify _ _)
    rw [hmodify, htalk, requestsOf_concat, requestsOf_concat]
    rfl
  · exact .idle

theorem SameRequest.of_sending {aborted responded : Bool} {reader : Reader} {asking : Option Asking}
    (h : SameRequest parse asking (some ⟨aborted, responded, reader⟩)) :
    ∃ fragments, asking = some ⟨aborted, responded, fragments⟩ ∧
      Reader.new.read parse fragments = .ok reader := by
  cases h with
  | busy hread _ => exact ⟨_, rfl, hread⟩

theorem Represents.read (h : Represents parse c p) (hopen : c.Open) {value : Bytes}
    (hstep : p.read parse toText value = some p') :
    ∃ c', c.step parse toText (.read value) = some c' ∧ Represents parse c' p' := by
  rw [ChatPage.read] at hstep
  split at hstep
  · rename_i reader hs
    obtain ⟨fragments, hc, hread⟩ := (hs ▸ h.sending).of_sending
    have hwhole : Reader.new.read parse (fragments ++ [value]) = reader.read parse [value] := by
      rw [Reader.read_append, hread, Outcome.ok_bind]
    refine ⟨_, by rw [Conversation.step, hc], ?_⟩
    rw [Conversation.read, hwhole]
    cases hnext : reader.read parse [value] with
    | error e =>
      rw [hnext, Option.some.injEq] at hstep
      rw [← hstep]
      exact h.giveUp
    | ok r =>
      rw [hnext, Option.some.injEq] at hstep
      rw [← hstep]
      by_cases hr : r.page.finished = true
      · simp only [hr, if_true]
        exact h.answer hopen hc r.page
      · simp only [hr]
        exact ⟨h.history, h.requests, .busy (hwhole.trans hnext) (by simpa using hr)⟩
  · cases hstep

theorem Represents.done (h : Represents parse c p) (hopen : c.Open) (hstep : p.done toText = some p') :
    ∃ c', c.step parse toText .done = some c' ∧ Represents parse c' p' := by
  rw [ChatPage.done] at hstep
  split at hstep
  · rename_i reader hs
    obtain ⟨fragments, hc, hread⟩ := (hs ▸ h.sending).of_sending
    refine ⟨_, by rw [Conversation.step, hc], ?_⟩
    rw [Conversation.conclude, hread, ← Option.some.inj hstep]
    exact h.answer hopen hc reader.page
  · cases hstep

theorem Represents.respond (h : Represents parse c p) {isOk : Bool}
    (hstep : p.respond isOk = some p') :
    ∃ c', c.step parse toText (.respond isOk) = some c' ∧ Represents parse c' p' := by
  rw [ChatPage.respond] at hstep
  split at hstep
  · rename_i reader hs
    have hsending := h.sending
    rw [hs] at hsending
    cases hc : c.asking with
    | none =>
      rw [hc] at hsending
      cases hsending
    | some a =>
      rw [hc] at hsending
      cases hsending with
      | @busy _ _ fragments _ hread hfinished =>
        refine ⟨_, by rw [Conversation.step, hc], ?_⟩
        rw [← Option.some.inj hstep]
        cases isOk with
        | true => exact ⟨h.history, h.requests, .busy hread hfinished⟩
        | false => exact h.giveUp
  · cases hstep

theorem Represents.fail (h : Represents parse c p) (hstep : p.fail = some p') :
    ∃ c', c.step parse toText .fail = some c' ∧ Represents parse c' p' := by
  have hsome := h.sending.isSome
  rw [ChatPage.fail] at hstep
  split at hstep
  · rename_i s hs
    rw [hs, Option.isSome_some] at hsome
    obtain ⟨a, ha⟩ := Option.isSome_iff_exists.mp hsome.symm
    refine ⟨_, by rw [Conversation.step, ha], ?_⟩
    rw [← Option.some.inj hstep]
    exact h.giveUp
  · cases hstep

theorem Represents.clear (h : Represents parse c p) : Represents parse c.forget p.clear := by
  constructor
  · rfl
  · rw [Conversation.requests_eq]
    change p.requests = (c.talks ++ [c.talk]).flatMap (requestsOf []) ++ []
    rw [List.append_nil, h.requests]
    rfl
  · have hsending := h.sending
    rw [Conversation.forget, ChatPage.clear]
    generalize c.asking = asking at hsending ⊢
    generalize p.sending = sending at hsending ⊢
    cases hsending with
    | idle => exact .idle
    | busy hread hfinished => exact .busy hread hfinished

theorem Represents.step (h : Represents parse c p) (hopen : c.Open) {label : ChatPage.Label}
    (hstep : p.step parse toText label = some p') :
    ∃ c', c.step parse toText label = some c' ∧ Represents parse c' p' := by
  cases label with
  | send input systemMessage =>
    cases hstep
    exact ⟨_, rfl, h.ask input systemMessage⟩
  | respond isOk => exact h.respond hstep
  | read value => exact h.read hopen hstep
  | done => exact h.done hopen hstep
  | fail => exact h.fail hstep
  | clear =>
    cases hstep
    exact ⟨_, rfl, h.clear⟩

/-- The page runs as the conversation does: its history has the turns of the current talk, and its
requests are those of the talks. -/
theorem page_represents {labels : List ChatPage.Label}
    (hrun : (ChatPage.system parse toText).run labels = some p) :
    ∃ c, (Conversation.system parse toText).run labels = some c ∧ Represents parse c p := by
  obtain ⟨c, hc, -, h⟩ := Transitions.run_related
    (R := fun c p => c.Open ∧ Represents parse c p) (B := Conversation.system parse toText)
    ⟨Conversation.open_of_asking_eq_none rfl, rfl, rfl, .idle⟩
    (fun c p label p' h hstep => by
      obtain ⟨c', hc', h'⟩ := h.2.step h.1 hstep
      exact ⟨c', hc', h.1.step hc', h'⟩) hrun
  exact ⟨c, hc, h⟩

end Reading

def textOf : Json → Bytes
  | .string s => s
  | _ => []

/-- A text that is answered in two fragments, one whose request is under way when the conversation is
cleared, and one behind it. -/
def clearedDialogue : List ChatPage.Label :=
  [.send "hello".toList "brief".toList, .respond true,
    .read (rawString writeSample greetingMessage false), .read (rawString writeSample stopMessage true),
    .send "more".toList "brief".toList, .clear, .fail, .send " again ".toList []]

def clearedPage : ChatPage where
  history := [userTurn "again".toList]
  sending := some ⟨false, false, .new⟩
  requests :=
    [[⟨.text "system", literal "brief"⟩, userTurn "hello".toList, userTurn "hello".toList],
      [⟨.text "system", literal "brief"⟩, userTurn "hello".toList,
        ⟨.text "assistant", literal "Hi"⟩, userTurn "more".toList, userTurn "more".toList],
      [userTurn "again".toList, userTurn "again".toList]]

/-- The second request has the reply to the first one, and the third has nothing of both. -/
theorem page_represents_cleared : ∃ c,
    (Conversation.system readSample textOf).run clearedDialogue = some c ∧
      Represents readSample c clearedPage :=
  page_represents rfl

end ZInferLM.Serve
