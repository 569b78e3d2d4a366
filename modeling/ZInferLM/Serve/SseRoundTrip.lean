import ZInferLM.Serve.Client

/-! # From the payloads to the page and back

However the text of the events is cut into fragments, the client takes the events off in order, so
what it does depends on the events alone. On the events of a response it shows every payload and
then finishes, unless showing one of them throws. -/

namespace ZInferLM.Serve
open Library Library.Utf8 Tokenizer

section Reading
variable {parse : List Char → Option Json}

def eventText (events : List (List Char)) : List Char := events.flatMap (· ++ ['\n', '\n'])

def Page.handle (parse : List Char → Option Json) : List (List Char) → Page → Outcome Page
  | [], page => .ok page
  | event :: events, page => do
    let page ← page.event parse event
    Page.handle parse events page

theorem Page.handle_append (events events' : List (List Char)) (page : Page) :
    page.handle parse (events ++ events') =
      page.handle parse events >>= fun page => page.handle parse events' := by
  induction events generalizing page with
  | nil => rfl
  | cons event events ih =>
    rw [List.cons_append, Page.handle, Page.handle]
    cases page.event parse event with
    | error e => rfl
    | ok page => exact ih page

theorem cut_part {event part rest : List Char} (h : '\n' ∉ event) (hrest : rest ≠ [])
    (heq : event ++ ['\n', '\n'] = part ++ rest) : cutFirst ['\n', '\n'] part = none := by
  apply cutFirst_eq_none
  intro hinfix
  have hcount := hinfix.sublist.count_le '\n'
  obtain ⟨before, last, rfl⟩ := (List.eq_nil_or_concat rest).resolve_left hrest
  have hlast : event ++ ['\n'] ++ ['\n'] = part ++ before ++ [last] := by simpa using heq
  have hpart := (List.append_inj' hlast rfl).1
  have htotal := congrArg (List.count '\n') hpart
  rw [List.count_append, List.count_append, List.count_eq_zero_of_not_mem h] at htotal
  simp only [List.count_cons_self, List.count_nil] at hcount htotal
  omega

/-- The buffer has a part of the next event, or all of it. -/
theorem cut_buffer {event buffer future rest : List Char} (h : '\n' ∉ event)
    (heq : buffer ++ future = event ++ ['\n', '\n'] ++ rest) :
    cutFirst ['\n', '\n'] buffer = none ∨
      ∃ buffer', cutFirst ['\n', '\n'] buffer = some (event, buffer') ∧ buffer' ++ future = rest ∧
        buffer'.length < buffer.length := by
  have hwhole : ∀ buffer', buffer = event ++ ['\n', '\n'] ++ buffer' → buffer' ++ future = rest →
      ∃ buffer', cutFirst ['\n', '\n'] buffer = some (event, buffer') ∧ buffer' ++ future = rest ∧
        buffer'.length < buffer.length := by
    rintro buffer' rfl hfuture
    refine ⟨buffer', cutFirst_append h ['\n'] buffer', hfuture, ?_⟩
    simp only [List.length_append, List.length_cons, List.length_nil]
    omega
  rcases List.append_eq_append_iff.mp heq with ⟨t, hevent, hfuture⟩ | ⟨t, hbuffer, hrest⟩
  · by_cases ht : t = []
    · rw [ht, List.append_nil] at hevent
      rw [ht, List.nil_append] at hfuture
      exact .inr (hwhole [] (by rw [List.append_nil, hevent]) (by rw [List.nil_append, hfuture]))
    · exact .inl (cut_part h ht hevent)
  · exact .inr (hwhole t hbuffer hrest.symm)

theorem Reader.drain_eq {events : List (List Char)} (hline : ∀ event ∈ events, '\n' ∉ event)
    {r : Reader} {future : List Char} (hbuffer : r.buffer ++ future = eventText events) {turns : ℕ}
    (hturns : r.buffer.length < turns) :
    ∃ done rest buffer, events = done ++ rest ∧ buffer ++ future = eventText rest ∧
      cutFirst ['\n', '\n'] buffer = none ∧
      r.drain parse turns =
        r.page.handle parse done >>= fun page => .ok ⟨r.decoder, buffer, page⟩ := by
  induction events generalizing r turns with
  | nil =>
    obtain ⟨left, rfl⟩ := Nat.exists_eq_succ_of_ne_zero (Nat.ne_of_gt (Nat.zero_lt_of_lt hturns))
    have hempty : r.buffer = [] := (List.append_eq_nil_iff.mp hbuffer).1
    have hcut : cutFirst ['\n', '\n'] r.buffer = none := by
      rw [hempty]
      rfl
    refine ⟨[], [], r.buffer, rfl, hbuffer, hcut, ?_⟩
    rw [Reader.drain, hcut]
    rfl
  | cons event events ih =>
    obtain ⟨left, rfl⟩ := Nat.exists_eq_succ_of_ne_zero (Nat.ne_of_gt (Nat.zero_lt_of_lt hturns))
    rcases cut_buffer (hline event List.mem_cons_self) hbuffer with
      hcut | ⟨buffer', hcut, hfuture, hlen⟩
    · refine ⟨[], event :: events, r.buffer, rfl, hbuffer, hcut, ?_⟩
      rw [Reader.drain, hcut]
      rfl
    · have hih : ∀ page, _ := fun page => ih (fun e he => hline e (List.mem_cons_of_mem event he))
        (r := ⟨r.decoder, buffer', page⟩) hfuture (show buffer'.length < left by omega)
      cases hevent : r.page.event parse event with
      | error e =>
        obtain ⟨done, rest, buffer, hevents, hrest, hnone, -⟩ := hih r.page
        refine ⟨event :: done, rest, buffer, by rw [hevents]; rfl, hrest, hnone, ?_⟩
        simp only [Reader.drain, hcut, Page.handle, hevent]
        rfl
      | ok page =>
        obtain ⟨done, rest, buffer, hevents, hrest, hnone, hdrain⟩ := hih page
        refine ⟨event :: done, rest, buffer, by rw [hevents]; rfl, hrest, hnone, ?_⟩
        simp only [Reader.drain, hcut, Page.handle, hevent]
        exact hdrain

/-- Handling events leaves the page unfinished. -/
def Unfinished (parse : List Char → Option Json) (events : List (List Char)) : Prop :=
  ∀ event ∈ events, ∀ page page' : Page, page.event parse event = .ok page' →
    page'.finished = page.finished

theorem Unfinished.handle {events : List (List Char)} (h : Unfinished parse events)
    {page page' : Page} (hpage : page.handle parse events = .ok page') :
    page'.finished = page.finished := by
  induction events generalizing page with
  | nil =>
    cases hpage
    rfl
  | cons event events ih =>
    obtain ⟨page1, hevent, hrest⟩ := Outcome.bind_eq_ok.mp hpage
    rw [ih (fun e he => h e (List.mem_cons_of_mem event he)) hrest,
      h event List.mem_cons_self page page1 hevent]

/-- The events that are left: none, or the page is not finished before the last of them. -/
def Pending (parse : List Char → Option Json) (page : Page) (events : List (List Char)) : Prop :=
  events = [] ∨ page.finished = false ∧ Unfinished parse events.dropLast

theorem Pending.handle {page page' : Page} {done rest : List (List Char)}
    (h : Pending parse page (done ++ rest)) (hpage : page.handle parse done = .ok page') :
    Pending parse page' rest := by
  by_cases hrest : rest = []
  · exact .inl hrest
  · rcases h with hnil | ⟨hfinished, hbefore⟩
    · exact absurd (List.append_eq_nil_iff.mp hnil).2 hrest
    · rw [List.dropLast_append_of_ne_nil hrest] at hbefore
      refine .inr ⟨?_, fun e he => hbefore e (List.mem_append_right done he)⟩
      rw [Unfinished.handle (fun e he => hbefore e (List.mem_append_left _ he)) hpage, hfinished]

/-- Reading fragments of a text of events handles the events. -/
theorem Reader.read_eq {events : List (List Char)} (hline : ∀ event ∈ events, '\n' ∉ event)
    {r : Reader} {fragments : List Bytes} {future : List Char}
    (hawaits : r.decoder.Awaits fragments.flatten future)
    (hbuffer : r.buffer ++ future = eventText events)
    (hcut : cutFirst ['\n', '\n'] r.buffer = none) (hpending : Pending parse r.page events) :
    (r.read parse fragments).map Reader.page = r.page.handle parse events := by
  induction fragments generalizing r events future with
  | nil =>
    rw [hawaits.nil, List.append_nil] at hbuffer
    cases events with
    | nil => rfl
    | cons event events =>
      -- a whole event in the buffer would have been taken off
      have hfirst := cutFirst_append (hline event List.mem_cons_self) ['\n'] (eventText events)
      rw [hbuffer] at hcut
      rw [eventText, List.flatMap_cons] at hcut
      exact absurd (hcut.symm.trans hfirst) (by simp)
  | cons fragment fragments ih =>
    rw [Reader.read]
    by_cases hfinished : r.page.finished = true
    · rw [if_pos hfinished]
      rcases hpending with rfl | ⟨hnot, -⟩
      · rfl
      · rw [hfinished] at hnot
        cases hnot
    · rw [if_neg hfinished]
      obtain ⟨future', hpart, hawaits'⟩ := hawaits.decode
      obtain ⟨done, rest, buffer, rfl, hrest, hnone, hdrain⟩ := Reader.drain_eq hline
        (r := ⟨(r.decoder.decode fragment).1, r.buffer ++ (r.decoder.decode fragment).2, r.page⟩)
        (show (r.buffer ++ (r.decoder.decode fragment).2) ++ future' = _ by
          rw [List.append_assoc, hpart, hbuffer])
        (Nat.lt_succ_self _)
      simp only
      rw [hdrain, Page.handle_append]
      cases hpage : r.page.handle parse done with
      | error e => rfl
      | ok page =>
        exact ih (fun e he => hline e (List.mem_append_right done he)) hawaits' hrest hnone
          (hpending.handle hpage)

end Reading

/-- What the page can show: no payload is `null`, every content that is shown can be turned into
text, and so can the role in force at the first of them, unless a message is being shown already. -/
structure ShowableFrom (role : Json) (opened : Bool) (payloads : List Json) : Prop where
  notNull : ∀ p ∈ payloads, p ≠ .null
  content : ∀ p ∈ payloads, ∀ content, shownContent p = some content → content.convertible = true
  label : opened = false → ∀ before p after, payloads = before ++ p :: after →
    (∀ q ∈ before, shownContent q = none) → shownContent p ≠ none →
    ((before ++ [p]).foldl roleAfter role).convertible = true

/-- The condition on the first payload alone. -/
structure ShowableNext (role : Json) (opened : Bool) (p : Json) : Prop where
  notNull : p ≠ .null
  content : ∀ content, shownContent p = some content → content.convertible = true
  label : opened = false → shownContent p ≠ none → (roleAfter role p).convertible = true

theorem showableFrom_nil (role : Json) (opened : Bool) : ShowableFrom role opened [] :=
  ⟨fun _ hp => absurd hp List.not_mem_nil, fun _ hp => absurd hp List.not_mem_nil,
    fun _ _ _ _ h => absurd h (by simp)⟩

theorem showableFrom_cons {role : Json} {opened : Bool} {p : Json} {payloads : List Json} :
    ShowableFrom role opened (p :: payloads) ↔ ShowableNext role opened p ∧
      ShowableFrom (roleAfter role p) (opened || (shownContent p).isSome) payloads := by
  constructor
  · intro h
    refine ⟨⟨h.notNull p List.mem_cons_self, h.content p List.mem_cons_self, ?_⟩, ?_⟩
    · intro hopened hshown
      exact h.label hopened [] p payloads rfl (fun _ hq => absurd hq List.not_mem_nil) hshown
    · refine ⟨fun q hq => h.notNull q (List.mem_cons_of_mem p hq),
        fun q hq => h.content q (List.mem_cons_of_mem p hq), ?_⟩
      intro hopened before q after hpayloads hbefore hshown
      obtain ⟨hopened, hnone⟩ := Bool.or_eq_false_iff.mp hopened
      apply h.label hopened (p :: before) q after (by rw [hpayloads]; rfl) _ hshown
      intro r hr
      rcases List.mem_cons.mp hr with rfl | hr
      · simpa using hnone
      · exact hbefore r hr
  · rintro ⟨hnext, hrest⟩
    refine ⟨?_, ?_, ?_⟩
    · intro q hq
      rcases List.mem_cons.mp hq with rfl | hq
      · exact hnext.notNull
      · exact hrest.notNull q hq
    · intro q hq
      rcases List.mem_cons.mp hq with rfl | hq
      · exact hnext.content
      · exact hrest.content q hq
    · intro hopened before q after hpayloads hbefore hshown
      cases before with
      | nil =>
        obtain ⟨rfl, -⟩ := List.cons.inj hpayloads
        exact hnext.label hopened hshown
      | cons r before =>
        obtain ⟨rfl, htail⟩ := List.cons.inj hpayloads
        have hnone : shownContent p = none := hbefore p List.mem_cons_self
        exact hrest.label (by rw [hopened, hnone]; rfl) before q after htail
          (fun r hr => hbefore r (List.mem_cons_of_mem p hr)) hshown

theorem roleAfter_truthy {role : Json} (h : role.truthy = true) (p : Json) :
    (roleAfter role p).truthy = true := by
  rw [roleAfter]
  cases p.property "role" with
  | none => exact h
  | some r =>
    simp only
    split_ifs with hr
    · exact hr
    · exact h

structure Shown (page : Page) (p : Json) (page' : Page) : Prop where
  role : page'.role = roleAfter page.role p
  finished : page'.finished = page.finished
  payloads : page'.payloads = page.payloads ++ [p]
  opened : page'.streamMsg.isSome = (page.streamMsg.isSome || (shownContent p).isSome)

theorem Page.show_eq {p : Json} (h : p ≠ .null) (page : Page) : page.show p =
    match shownContent p with
    | none => .ok { page with
        role := roleAfter page.role p, payloads := page.payloads ++ [p] }
    | some content => page.message (roleAfter page.role p) >>= fun msg =>
        msg.append content >>= fun msg => .ok { page with
          streamMsg := some msg, role := roleAfter page.role p,
          payloads := page.payloads ++ [p] } := by
  cases p with
  | null => exact absurd rfl h
  | _ => rfl

theorem Page.message_iff {page : Page} {role : Json} (hrole : role.truthy = true) :
    (∃ msg, page.message role = .ok msg) ↔
      (page.streamMsg.isSome = false → role.convertible = true) := by
  rw [Page.message]
  cases page.streamMsg with
  | some msg => simp
  | none =>
    simp only [createStreamingMessage, hrole, if_true, Option.isSome_none, true_implies]
    by_cases h : role.convertible = true
    · simp [h]
    · simp [h]

theorem StreamingMessage.append_iff {msg : StreamingMessage} {content : Json} :
    (∃ msg', msg.append content = .ok msg') ↔ content.convertible = true := by
  rw [StreamingMessage.append]
  by_cases h : content.convertible = true
  · simp [h]
  · simp [h]

theorem Page.show_shown {page page' : Page} {p : Json} (h : page.show p = .ok page') :
    Shown page p page' := by
  have hnull : p ≠ .null := by
    rintro rfl
    cases h
  rw [Page.show_eq hnull] at h
  cases hcontent : shownContent p with
  | none =>
    rw [hcontent] at h
    cases h
    exact ⟨rfl, rfl, rfl, by rw [hcontent]; simp⟩
  | some content =>
    rw [hcontent] at h
    obtain ⟨msg, -, h⟩ := Outcome.bind_eq_ok.mp h
    obtain ⟨msg', -, h⟩ := Outcome.bind_eq_ok.mp h
    cases h
    exact ⟨rfl, rfl, rfl, by rw [hcontent]; simp⟩

/-- A payload is shown without an exception exactly if the page can show it. -/
theorem Page.show_iff {page : Page} (hrole : page.role.truthy = true) (p : Json) :
    (∃ page', page.show p = .ok page') ↔ ShowableNext page.role page.streamMsg.isSome p := by
  by_cases hnull : p = .null
  · constructor
    · rintro ⟨page', h⟩
      rw [hnull] at h
      cases h
    · intro h
      exact absurd hnull h.notNull
  · rw [Page.show_eq hnull]
    cases hcontent : shownContent p with
    | none =>
      refine ⟨fun _ => ⟨hnull, ?_, ?_⟩, fun _ => ⟨_, rfl⟩⟩
      · intro content h
        rw [hcontent] at h
        cases h
      · intro _ h
        exact absurd hcontent h
    | some content =>
      have hmessage := @Page.message_iff page _ (roleAfter_truthy hrole p)
      constructor
      · rintro ⟨page', h⟩
        obtain ⟨msg, hmsg, h⟩ := Outcome.bind_eq_ok.mp h
        obtain ⟨msg', happend, -⟩ := Outcome.bind_eq_ok.mp h
        refine ⟨hnull, ?_, fun hopened _ => hmessage.mp ⟨msg, hmsg⟩ hopened⟩
        intro content' hsome
        rw [hcontent] at hsome
        rw [← Option.some.inj hsome]
        exact StreamingMessage.append_iff.mp ⟨msg', happend⟩
      · intro h
        obtain ⟨msg, hmsg⟩ := hmessage.mpr fun hopened => h.label hopened (by simp [hcontent])
        obtain ⟨msg', happend⟩ :=
          (@StreamingMessage.append_iff msg content).mpr (h.content content hcontent)
        simp only [hmsg, Outcome.ok_bind, happend]
        exact ⟨_, rfl⟩

def Page.showAll : List Json → Page → Outcome Page
  | [], page => .ok page
  | p :: payloads, page => do
    let page ← page.show p
    Page.showAll payloads page

theorem Page.showAll_shown {payloads : List Json} {page page' : Page}
    (h : page.showAll payloads = .ok page') :
    page'.finished = page.finished ∧ page'.payloads = page.payloads ++ payloads := by
  induction payloads generalizing page with
  | nil =>
    cases h
    exact ⟨rfl, (List.append_nil _).symm⟩
  | cons p payloads ih =>
    obtain ⟨page1, hshow, hrest⟩ := Outcome.bind_eq_ok.mp h
    have hshown := Page.show_shown hshow
    obtain ⟨hfinished, hpayloads⟩ := ih hrest
    rw [hfinished, hshown.finished, hpayloads, hshown.payloads, List.append_assoc]
    exact ⟨rfl, rfl⟩

theorem Page.showAll_iff {payloads : List Json} {page : Page} (hrole : page.role.truthy = true) :
    (∃ page', page.showAll payloads = .ok page') ↔
      ShowableFrom page.role page.streamMsg.isSome payloads := by
  induction payloads generalizing page with
  | nil => exact ⟨fun _ => showableFrom_nil _ _, fun _ => ⟨page, rfl⟩⟩
  | cons p payloads ih =>
    rw [showableFrom_cons, ← Page.show_iff hrole]
    constructor
    · rintro ⟨page', h⟩
      obtain ⟨page1, hshow, hrest⟩ := Outcome.bind_eq_ok.mp h
      have hshown := Page.show_shown hshow
      refine ⟨⟨page1, hshow⟩, ?_⟩
      rw [← hshown.role, ← hshown.opened]
      exact (ih (hshown.role ▸ roleAfter_truthy hrole p)).mp ⟨page', hrest⟩
    · rintro ⟨⟨page1, hshow⟩, hrest⟩
      have hshown := Page.show_shown hshow
      rw [← hshown.role, ← hshown.opened] at hrest
      obtain ⟨page', h⟩ := (ih (hshown.role ▸ roleAfter_truthy hrole p)).mpr hrest
      refine ⟨page', ?_⟩
      rw [Page.showAll, hshow, Outcome.ok_bind, h]

/-- What is relied on for a payload: it is written as one line of text, from which it is read
again. -/
structure Faithful (serialize : Json → Bytes) (parse : List Char → Option Json) (p : Json) :
    Prop where
  line : (10 : UInt8) ∉ serialize p ∧ (13 : UInt8) ∉ serialize p
  valid : Valid (serialize p)
  inverse : parse (decode (serialize p)) = some p

/-- What is relied on for the reader of values: white space around a value does not matter, and two
texts are none. -/
structure ReadsJson (parse : List Char → Option Json) : Prop where
  trim : ∀ s v, parse s = some v → parse (trim s) = some v
  empty : parse [] = none
  done : parse "[DONE]".toList = none

section Response
variable {serialize : Json → Bytes} {parse : List Char → Option Json}

def responseEvents (serialize : Json → Bytes) (payloads : List Json) : List (List Char) :=
  payloads.map (fun p => "data: ".toList ++ decode (serialize p)) ++ ["data: [DONE]".toList]

theorem encode_decode {bs : Bytes} (h : Valid bs) : encode (decode bs) = bs := by
  obtain ⟨cs, rfl⟩ := h
  rw [decode_encode]

theorem Faithful.no_newline {p : Json} (h : Faithful serialize parse p) :
    '\n' ∉ decode (serialize p) := by
  intro hmem
  apply h.line.1
  rw [← encode_decode h.valid]
  exact List.mem_flatMap.mpr ⟨'\n', hmem, by decide⟩

theorem Page.event_data {text : List Char} (h : '\n' ∉ text) (page : Page) :
    page.event parse ("data: ".toList ++ text) = page.lines parse ["data: ".toList ++ text] := by
  have hline : '\n' ∉ "data: ".toList ++ text := by
    rw [List.mem_append, not_or]
    exact ⟨by decide, h⟩
  have hsplit : ("data: ".toList ++ text).splitOn '\n' = ["data: ".toList ++ text] :=
    List.splitOn_eq_singleton hline
  rw [Page.event, hsplit]
  rfl

theorem Page.lines_data (text : List Char) (page : Page) :
    page.lines parse ["data: ".toList ++ text] =
      if trim text = [] then .ok page
      else if trim text = "[DONE]".toList then .ok { page with finished := true }
      else match parse (trim text) with
        | none => .ok page
        | some obj => page.show obj >>= fun page => .ok page := rfl

theorem Page.event_payload (hparse : ReadsJson parse) {p : Json} (h : Faithful serialize parse p)
    (page : Page) : page.event parse ("data: ".toList ++ decode (serialize p)) = page.show p := by
  have htrim := hparse.trim _ _ h.inverse
  have hempty : trim (decode (serialize p)) ≠ [] := by
    intro he
    rw [he, hparse.empty] at htrim
    cases htrim
  have hdone : trim (decode (serialize p)) ≠ "[DONE]".toList := by
    intro he
    rw [he, hparse.done] at htrim
    cases htrim
  rw [Page.event_data h.no_newline, Page.lines_data, if_neg hempty, if_neg hdone, htrim]
  exact bind_pure (page.show p)

theorem Page.event_done (page : Page) :
    page.event parse "data: [DONE]".toList = .ok { page with finished := true } :=
  @Page.event_data parse "[DONE]".toList (by decide) page

/-- The events of a response show its payloads and finish the page. -/
theorem Page.handle_response (hparse : ReadsJson parse) {payloads : List Json}
    (h : ∀ p ∈ payloads, Faithful serialize parse p) (page : Page) :
    page.handle parse (responseEvents serialize payloads) =
      page.showAll payloads >>= fun page => .ok { page with finished := true } := by
  induction payloads generalizing page with
  | nil =>
    change page.event parse "data: [DONE]".toList >>= _ = _
    rw [Page.event_done]
    rfl
  | cons p payloads ih =>
    change page.event parse _ >>= (Page.handle parse (responseEvents serialize payloads) ·) = _
    rw [Page.event_payload hparse (h p List.mem_cons_self), Page.showAll]
    cases page.show p with
    | error e => rfl
    | ok page => exact ih (fun q hq => h q (List.mem_cons_of_mem p hq)) page

theorem response_unfinished (hparse : ReadsJson parse) {payloads : List Json}
    (h : ∀ p ∈ payloads, Faithful serialize parse p) :
    Unfinished parse (responseEvents serialize payloads).dropLast := by
  rw [responseEvents, List.dropLast_concat]
  intro event hevent page page' hpage
  obtain ⟨p, hp, rfl⟩ := List.mem_map.mp hevent
  rw [Page.event_payload hparse (h p hp)] at hpage
  exact (Page.show_shown hpage).finished

theorem response_lines {payloads : List Json} (h : ∀ p ∈ payloads, Faithful serialize parse p) :
    ∀ event ∈ responseEvents serialize payloads, '\n' ∉ event := by
  intro event hevent
  rcases List.mem_append.mp hevent with hevent | hevent
  · obtain ⟨p, hp, rfl⟩ := List.mem_map.mp hevent
    rw [List.mem_append, not_or]
    exact ⟨by decide, (h p hp).no_newline⟩
  · rw [List.mem_singleton.mp hevent]
    decide

theorem encode_payloads {payloads : List Json} (h : ∀ p ∈ payloads, Faithful serialize parse p) :
    encode (eventText (payloads.map fun p => "data: ".toList ++ decode (serialize p))) =
      payloads.flatMap fun p => rawString serialize p false := by
  induction payloads with
  | nil => rfl
  | cons p payloads ih =>
    have hraw : encode ("data: ".toList ++ decode (serialize p) ++ ['\n', '\n']) =
        rawString serialize p false := by
      rw [encode_append, encode_append, encode_decode (h p List.mem_cons_self).valid, rawString,
        if_neg Bool.false_ne_true, List.append_nil]
      rfl
    rw [eventText] at ih
    rw [List.map_cons, eventText, List.flatMap_cons, encode_append, hraw, List.flatMap_cons,
      ih fun q hq => h q (List.mem_cons_of_mem p hq)]

theorem sseText_eq {messages : List Json} {last : Json}
    (h : ∀ p ∈ messages ++ [last], Faithful serialize parse p) :
    sseText serialize messages last =
      encode (eventText (responseEvents serialize (messages ++ [last]))) := by
  have hlast : rawString serialize last true = rawString serialize last false ++
      encode (eventText ["data: [DONE]".toList]) := by
    rw [rawString, rawString, if_pos rfl, if_neg Bool.false_ne_true, List.append_nil]
    rfl
  have happend : ∀ events events', eventText (events ++ events') =
      eventText events ++ eventText events' := fun _ _ => List.flatMap_append
  rw [responseEvents, happend, encode_append, encode_payloads h, sseText, hlast,
    List.flatMap_append, List.append_assoc, List.flatMap_singleton]

/-- The text of a response starts with no byte order mark. -/
theorem response_head (payloads : List Json) :
    (eventText (responseEvents serialize payloads)).head? ≠ some TextDecoder.byteOrderMark := by
  cases payloads with
  | nil =>
    change some 'd' ≠ _
    decide
  | cons p payloads =>
    change some 'd' ≠ _
    decide

end Response

/-- The page can show a response from its beginning. -/
def Showable (payloads : List Json) : Prop := ShowableFrom (.text "assistant") false payloads

/-- The wire format carries payloads from the server to the client: the chunks are decoded up to
their end, however the text is cut the client gets the payloads and finishes, and the server tells
the last chunk from the others. -/
structure RoundTrip (serialize : Json → Bytes) (parse : List Char → Option Json)
    (messages : List Json) (last : Json) : Prop where
  decoded : ∀ rest, Chunked.decode (wire serialize messages last ++ rest) =
    some (sseText serialize messages last, rest)
  extracted : ∀ fragments : List Bytes, fragments.flatten = sseText serialize messages last →
    ∃ r, Reader.new.read parse fragments = .ok r ∧ r.page.payloads = messages ++ [last] ∧
      r.page.finished = true
  terminal : ∀ p ∈ messages ++ [last], ∀ isEnd,
    isTerminal (streamJsonMessage serialize p isEnd) = true ↔ isEnd = true

section
variable {serialize : Json → Bytes} {parse : List Char → Option Json} {messages : List Json}
  {last : Json}

/-- What the client does with a response, however it is cut. -/
theorem Reader.read_response (hcodec : ∀ p ∈ messages ++ [last], Faithful serialize parse p)
    (hparse : ReadsJson parse) {fragments : List Bytes}
    (hfragments : fragments.flatten = sseText serialize messages last) :
    (Reader.new.read parse fragments).map Reader.page =
      Page.new.showAll (messages ++ [last]) >>= fun page => .ok { page with finished := true } := by
  rw [← Page.handle_response hparse hcodec]
  apply Reader.read_eq (response_lines hcodec) _ rfl rfl
    (.inr ⟨rfl, response_unfinished hparse hcodec⟩)
  rw [hfragments, sseText_eq hcodec]
  exact TextDecoder.new_awaits (response_head _)

/-- The round trip works exactly for the payloads that the page can show. -/
theorem roundTrip_iff (hcodec : ∀ p ∈ messages ++ [last], Faithful serialize parse p)
    (hparse : ReadsJson parse) :
    RoundTrip serialize parse messages last ↔ Showable (messages ++ [last]) := by
  have hshow := @Page.showAll_iff (messages ++ [last]) .new rfl
  constructor
  · intro h
    have hwhole : [sseText serialize messages last].flatten = sseText serialize messages last :=
      List.append_nil _
    obtain ⟨r, hread, -, -⟩ := h.extracted _ hwhole
    have hresponse := Reader.read_response hcodec hparse hwhole
    rw [hread] at hresponse
    obtain ⟨page, hpage, -⟩ := Outcome.bind_eq_ok.mp hresponse.symm
    exact hshow.mp ⟨page, hpage⟩
  · intro h
    obtain ⟨page, hpage⟩ := hshow.mpr h
    refine ⟨decode_wire messages last, ?_, fun p hp => isTerminal_iff (hcodec p hp).line.2⟩
    intro fragments hfragments
    have hresponse := Reader.read_response hcodec hparse hfragments
    rw [hpage, Outcome.ok_bind] at hresponse
    cases hread : Reader.new.read parse fragments with
    | error e =>
      rw [hread] at hresponse
      cases hresponse
    | ok r =>
      rw [hread] at hresponse
      have hr : r.page = { page with finished := true } := Except.ok.inj hresponse
      refine ⟨r, rfl, ?_, by rw [hr]⟩
      rw [hr]
      exact (Page.showAll_shown hpage).2

end

def greetingMessage : Json :=
  .object [(literal "role", .text "assistant"), (literal "content", .text "Hi")]

def stopMessage : Json := .single "finish_reason" (.text "Stop")

def greetingLine : String := "\x7b\"role\":\"assistant\",\"content\":\"Hi\"\x7d"

def stopLine : String := "\x7b\"finish_reason\":\"Stop\"\x7d"

def writeSample : Json → Bytes
  | .object [_, _] => literal greetingLine
  | .object _ => literal stopLine
  | _ => literal "null"

def readSample (s : List Char) : Option Json :=
  if trim s = greetingLine.toList then some greetingMessage
  else if trim s = stopLine.toList then some stopMessage
  else if trim s = "null".toList then some .null
  else none

theorem readSample_reads : ReadsJson readSample := by
  refine ⟨?_, by decide, by decide⟩
  intro s v h
  have htwice : ∀ line ∈ [greetingLine, stopLine, "null"], trim line.toList = line.toList := by
    decide +kernel
  rw [readSample] at h ⊢
  split_ifs at h with h1 h2 h3
  · rw [h1, htwice _ (by simp), if_pos rfl, h]
  · rw [h2, htwice _ (by simp), if_neg (by decide), if_pos rfl, h]
  · rw [h3, htwice _ (by simp), if_neg (by decide), if_neg (by decide), if_pos rfl, h]

theorem sample_faithful : ∀ p ∈ [greetingMessage, stopMessage, .null],
    Faithful writeSample readSample p := by
  have hinverse : ∀ p line, writeSample p = literal line → readSample line.toList = some p →
      10 ∉ literal line ∧ 13 ∉ literal line → Faithful writeSample readSample p := by
    intro p line hwrite hread hline
    refine ⟨by rwa [hwrite], by rw [hwrite]; exact valid_encode _, ?_⟩
    rw [hwrite, literal, decode_encode, hread]
  intro p hp
  simp only [List.mem_cons, List.not_mem_nil, or_false] at hp
  rcases hp with rfl | rfl | rfl
  · exact hinverse _ greetingLine rfl (if_pos (by decide +kernel)) (by decide +kernel)
  · exact hinverse _ stopLine rfl ((if_neg (by decide +kernel)).trans (if_pos (by decide +kernel)))
      (by decide +kernel)
  · exact hinverse _ "null" rfl ((if_neg (by decide +kernel)).trans
      ((if_neg (by decide +kernel)).trans (if_pos (by decide +kernel)))) (by decide +kernel)

theorem greeting_showable : Showable [greetingMessage, stopMessage] := by
  have hshown : shownContent greetingMessage = some (.text "Hi") := rfl
  have hstop : shownContent stopMessage = none := rfl
  have hgreeting : ShowableNext (.text "assistant") false greetingMessage := by
    refine ⟨by simp [greetingMessage], fun content h => ?_, fun _ _ => rfl⟩
    rw [← Option.some.inj (hshown.symm.trans h)]
    rfl
  have hlast : ∀ role opened, ShowableNext role opened stopMessage := by
    intro role opened
    refine ⟨by simp [stopMessage, Json.single], fun content h => ?_, fun _ h => absurd hstop h⟩
    rw [hstop] at h
    cases h
  exact showableFrom_cons.mpr ⟨hgreeting, showableFrom_cons.mpr ⟨hlast _ _, showableFrom_nil _ _⟩⟩

theorem roundTrip_iff_greeting :
    RoundTrip writeSample readSample [greetingMessage] stopMessage := by
  refine (roundTrip_iff (fun p hp => sample_faithful p ?_) readSample_reads).mpr greeting_showable
  have hp : p ∈ [greetingMessage, stopMessage] := hp
  simp only [List.mem_cons, List.not_mem_nil, or_false] at hp ⊢
  rcases hp with rfl | rfl
  · exact .inl rfl
  · exact .inr (.inl rfl)

theorem nullMessage_lost : Faithful writeSample readSample .null ∧ ReadsJson readSample ∧
    ¬ RoundTrip writeSample readSample [] .null := by
  have hnull := sample_faithful .null (by simp)
  have hcodec : ∀ p ∈ [] ++ [Json.null], Faithful writeSample readSample p := by
    intro p hp
    rw [List.mem_singleton.mp hp]
    exact hnull
  refine ⟨hnull, readSample_reads, fun h => ?_⟩
  have hwhole : [sseText writeSample [] .null].flatten = sseText writeSample [] .null :=
    List.append_nil _
  obtain ⟨r, hread, -, -⟩ := h.extracted _ hwhole
  have hresponse := Reader.read_response hcodec readSample_reads hwhole
  rw [hread] at hresponse
  cases hresponse

end ZInferLM.Serve
