import ZInferLM.Inference.Events
import ZInferLM.Serve.Handlers
import ZInferLM.Tokenizer.History

/-! # The streamed text

Every token is streamed in a message of its own, with its bytes as the content. The contents are
the output in order, but a content is a text of its own only where no token starts inside a
character. -/

namespace ZInferLM.Serve
open Library Library.Utf8 Tokenizer Inference

def contentOf : Json → Option Bytes
  | .object members =>
    match members.lookup (literal "content") with
    | some (.string s) => some s
    | _ => none
  | _ => none

/-- The messages that a run streams, with the mark of the last one. -/
def streamedMessages (run : List Action) : List (Json × Bool) :=
  (events run).filterMap streamedMessage

def contents (run : List Action) : List Bytes :=
  (streamedMessages run).filterMap fun message => contentOf message.1

theorem contents_append (as bs : List Action) :
    contents (as ++ bs) = contents as ++ contents bs := by
  rw [contents, contents, contents, streamedMessages, streamedMessages, streamedMessages,
    Generation.events_append, List.filterMap_append, List.filterMap_append]

theorem contents_token (i : ℕ) (token : Bytes) (as : List Action) :
    contents (.dispatch (.tokenGenerated i token) :: as) = token :: contents as := rfl

theorem contents_pass (gen : Generation) (i : ℕ) (tokens : List ℕ) (pastTokens : ℕ) :
    contents (gen.pass i tokens pastTokens) = [] := by
  rw [contents, streamedMessages, Generation.events_pass, Generation.prefillEvents]
  split_ifs <;> rfl

theorem contents_loop (gen : Generation) (left i : ℕ) (tokens : List ℕ) (pastTokens : ℕ) :
    contents (gen.loop left i tokens pastTokens).1 =
      (List.range' i (gen.turns left i)).map fun j => gen.decode (gen.samples j) := by
  induction left generalizing i tokens pastTokens with
  | zero => rfl
  | succ left ih =>
    rw [Generation.loop, Generation.turns]
    cases hstop : gen.stops i with
    | true =>
      rw [if_pos rfl, if_pos rfl, contents_append, contents_pass]
      rfl
    | false =>
      rw [if_neg Bool.false_ne_true, if_neg Bool.false_ne_true, List.range'_succ, List.map_cons,
        contents_append, contents_pass, contents_token, ih, List.nil_append]

theorem contents_trace (gen : Generation) : contents gen.trace = gen.payloads := by
  rw [Generation.payloads, List.range_eq_range', ← contents_loop gen gen.maxTokens 0 gen.prompt 0]
  rfl

/-- Every content is UTF-8, and the contents decoded one by one give the text. -/
def WellFormed (contents : List Bytes) (output : Bytes) : Prop :=
  (∀ content ∈ contents, Valid content) ∧ encode (contents.flatMap decode) = output

/-- A text is streamed in messages that are UTF-8 if and only if they start outside characters. -/
theorem wellFormed_iff {parts : List Bytes} (h : Valid parts.flatten) :
    WellFormed parts parts.flatten ↔
      ∀ p ∈ parts, ∀ b, p.head? = some b → b.IsUTF8FirstByte := by
  rw [← valid_parts_iff h, WellFormed, and_iff_left_of_imp]
  exact encode_flatMap_decode

variable {t t' : TokenizerImpl} {m : Pcre2} {fuel : ℕ} {input : Bytes} {ids : List ℕ}
  {samples : ℕ → ℕ} {maxTokens : ℕ} {run : List Action} {output : Bytes}

/-- A run with a text as output streams well-formed messages if and only if no token that it
generates starts inside a character. -/
theorem streamed_wellFormed_iff (h : t.tokenize m fuel input = .ok (ids, t'))
    (hrun : invoke t m fuel samples input maxTokens = .ok (run, output)) (hvalid : Valid output) :
    WellFormed (contents run) output ↔
      ∀ j < maxTokens, (∀ k ≤ j, t'.isStopToken (t'.decode (samples k)) = false) →
        ∀ b, (t'.decode (samples j)).head? = some b → b.IsUTF8FirstByte := by
  obtain ⟨gen, hgen, hinvoke⟩ := invoke_eq h samples maxTokens
  cases hinvoke.symm.trans hrun
  rw [gen.output_eq] at hvalid ⊢
  rw [contents_trace, wellFormed_iff hvalid, Generation.payloads, List.forall_mem_map]
  simp only [List.mem_range, Generation.lt_turns_iff, Generation.stops, Nat.zero_add, and_imp]
  rw [hgen]

/-- The tokens of the small vocabulary that stand for a byte are decoded to it. -/
theorem greeting_bytes : ∃ t ids t', TokenizerImpl.forModel greetingInfo = .ok t ∧
    t.tokenize (.reference asciiTable) 3 (literal "hi") = .ok (ids, t') ∧
    (∀ b : UInt8, t'.decode b.toNat = [b]) ∧ ∀ b : UInt8, t'.isStopToken [b] = false := by
  have hm := Pcre2.reference_leftmostOrdered asciiTable
  obtain ⟨t, ht⟩ := forModel_ok greetingInfo_complete.types
  obtain ⟨-, -, hunbytes, -, hnames, -, -⟩ := forModel_maps ht
  obtain ⟨ids, t', hok, _⟩ := (forModel_builtFrom greetingInfo_complete.types ht).exists_ids hm
    greetingInfo_complete (.inl rfl) (valid_encode "hi".toList) (Nat.lt_succ_self 2)
  have hdefined : (Call.tokenize 3 (literal "hi")).Defined t := by
    apply subjects_valid ht _ _ _ _ _ (valid_encode _)
    intro i w hw
    exact (greetingInfo_complete.special i w hw).2.valid
  have halike : TokenizerImpl.Alike t t' :=
    (TokenizerImpl.Alike.refl t).of_call (c := .tokenize 3 (literal "hi"))
      (harmless_of_defined hm asciiTable_asciiClasses ht hdefined)
      (show t.call _ _ = .ok (.ids ids, t') by rw [TokenizerImpl.call, literal, hok]; rfl)
  refine ⟨t, ids, t', ht, hok, fun b => ?_, fun b => ?_⟩
  · have hname : t.idToTokenMap b.toNat = some (symbols [b]) := by
      have hlt : b.toNat < alphabetTokens.length := by
        simpa [alphabetTokens] using b.toNat_lt
      rw [hnames, buildIdToTokenMap, store_zipIdx_swap, greetingInfo,
        List.getElem?_append_left hlt]
      simp [alphabetTokens, b.toNat_lt]
    rw [halike.decode, TokenizerImpl.decode, hname, hunbytes, Option.elim_some,
      unicodeToChars_symbols]
  · have hlength : ∀ s ∈ stopTokenTexts, s.length ≠ 1 := by decide +kernel
    have hmem : [b] ∉ stopTokenTexts := fun h => hlength [b] h rfl
    rw [halike.isStopToken, TokenizerImpl.isStopToken, forModel_stopTokens ht,
      Bool.and_eq_false_iff, ← Bool.not_eq_true, List.contains_iff_mem]
    exact .inl hmem

/-- The tokens of the bytes of a text, one after another. -/
def byteSamples (bytes : Bytes) (j : ℕ) : ℕ := (bytes.getD j 0).toNat

theorem greeting_stream (bytes : Bytes) : ∃ t ids t' run,
    TokenizerImpl.forModel greetingInfo = .ok t ∧
    t.tokenize (.reference asciiTable) 3 (literal "hi") = .ok (ids, t') ∧
    invoke t (.reference asciiTable) 3 (byteSamples bytes) (literal "hi") bytes.length =
      .ok (run, bytes) ∧ contents run = bytes.map fun b => [b] := by
  obtain ⟨t, ids, t', ht, hok, hdecode, hstop⟩ := greeting_bytes
  obtain ⟨gen, hgen, hinvoke⟩ := invoke_eq hok (byteSamples bytes) bytes.length
  have hgo : gen.GoesOn 0 gen.maxTokens := by
    intro k _
    subst hgen
    change t'.isStopToken (t'.decode (bytes.getD (0 + k) 0).toNat) = false
    rw [hdecode]
    exact hstop _
  have hpayloads : gen.payloads = bytes.map fun b => [b] := by
    rw [Generation.payloads, gen.turns_of_goesOn hgo]
    subst hgen
    apply List.ext_getElem
    · rw [List.length_map, List.length_map, List.length_range]
    · intro j _ hj
      rw [List.length_map] at hj
      simp [byteSamples, hdecode, hj]
  rw [gen.output_eq, hpayloads, ← List.flatMap_def, List.flatMap_singleton'] at hinvoke
  exact ⟨t, ids, t', gen.trace, ht, hok, hinvoke, (contents_trace gen).trans hpayloads⟩

theorem streamed_wellFormed_iff_word : ∃ t t' run,
    TokenizerImpl.forModel greetingInfo = .ok t ∧
    invoke t (.reference asciiTable) 3 (byteSamples (literal "hello")) (literal "hi") 5 =
      .ok (run, literal "hello") ∧ (contents run).length = 5 ∧
    (WellFormed (contents run) (literal "hello") ↔
      ∀ j < 5, (∀ k ≤ j, TokenizerImpl.isStopToken t'
          (t'.decode (byteSamples (literal "hello") k)) = false) →
        ∀ b, (t'.decode (byteSamples (literal "hello") j)).head? = some b → b.IsUTF8FirstByte) := by
  obtain ⟨t, ids, t', run, ht, hok, hrun, hcontents⟩ := greeting_stream (literal "hello")
  refine ⟨t, t', run, ht, hrun, ?_, streamed_wellFormed_iff hok hrun (valid_encode _)⟩
  rw [hcontents, List.length_map]
  rfl

/-- The two bytes of one character are streamed in two messages. -/
theorem halfCharacter_streamed : ∃ t run output,
    TokenizerImpl.forModel greetingInfo = .ok t ∧
    invoke t (.reference asciiTable) 3 (byteSamples (literal "é")) (literal "hi") 2 =
      .ok (run, output) ∧ Valid output ∧ ¬ WellFormed (contents run) output := by
  obtain ⟨t, ids, t', run, ht, _, hrun, hcontents⟩ := greeting_stream (literal "é")
  refine ⟨t, run, literal "é", ht, hrun, valid_encode _, ?_⟩
  rintro ⟨hvalid, _⟩
  have hsecond : ([0xA9] : Bytes) ∈ contents run := by
    rw [hcontents]
    decide +kernel
  have hfirst := (hvalid _ hsecond).isUTF8FirstByte rfl
  exact absurd hfirst (by decide)

end ZInferLM.Serve
