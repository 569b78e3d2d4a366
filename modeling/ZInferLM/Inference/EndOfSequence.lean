import ZInferLM.Inference.Context
import ZInferLM.Library.Trace
import ZInferLM.Tokenizer.History

/-! # The end of the sequence

The end of the sequence has an id in the metadata, a text that the chat template gets, and it should
be a stop token for the generation loop, whose test goes by the decoded text. -/

namespace ZInferLM
open Library Library.Utf8 Tokenizer

namespace Inference

def Action.text? : Action → Option Bytes
  | .dispatch (.tokenGenerated _ text) => some text
  | _ => none

def texts (run : List Action) : List Bytes := run.filterMap Action.text?

/-- A run ends as soon as the token is sampled, and its text is not part of the output. -/
def StopsAt (token : ℕ) (run : List Action) (output : Bytes) : Prop :=
  ∀ before after, before ++ .sample token :: after = run →
    (∃ n, after = [.dispatch (.generationCompleted .eos n)]) ∧ output = (texts before).flatten

/-- The chat template gets the text of the end of the sequence, its decoded text is a stop token,
and every run stops at its id. -/
def EosAgrees (t : TokenizerImpl) (m : Pcre2) (eos : Bytes) : Prop :=
  t.getEos = eos ∧ t.isStopToken (t.decode t.info.eosTokenId) = true ∧
    ∀ fuel samples input maxTokens run output,
      invoke t m fuel samples input maxTokens = .ok (run, output) →
        StopsAt t.info.eosTokenId run output

def Action.isSample : Action → Bool
  | .sample _ => true
  | _ => false

namespace Generation

variable {gen : Generation} {left i token pastTokens : ℕ} {tokens : List ℕ}

theorem not_sample_prefill {e : InferenceEvent} :
    ∀ a ∈ prefill pastTokens e, ¬ a.isSample = true := by
  intro a ha
  rw [mem_prefill ha]
  exact Bool.false_ne_true

theorem not_sample_forward : ∀ a ∈ forward tokens pastTokens, ¬ a.isSample = true := by
  rw [forward, List.forall_mem_append, List.forall_mem_cons]
  exact ⟨not_sample_prefill, Bool.false_ne_true, not_sample_prefill⟩

theorem texts_forward : texts (forward tokens pastTokens) = [] := by
  rw [forward, prefill, prefill]
  split_ifs <;> rfl

theorem loop_stopsAt (h : gen.isStop (gen.decode token) = true) (left i : ℕ) (tokens : List ℕ)
    (pastTokens : ℕ) : StopsAt token (gen.loop left i tokens pastTokens).1
      (gen.loop left i tokens pastTokens).2 := by
  have hnone {before after : List Action} {e : InferenceEvent} :
      before ++ Action.sample token :: after ≠ [Action.dispatch e] := by
    intro heq
    have hmem : Action.sample token ∈ [Action.dispatch e] := by
      rw [← heq]
      simp
    cases List.mem_singleton.mp hmem
  induction left generalizing i tokens pastTokens with
  | zero =>
    intro before after hrun
    exact absurd hrun hnone
  | succ left ih =>
    intro before after hrun
    have hcut {rest : List Action} : before ++ Action.sample token :: after =
        forward tokens pastTokens ++ rest ↔ ∃ before', before = forward tokens pastTokens ++ before' ∧
          before' ++ Action.sample token :: after = rest :=
      append_cons_eq_append_iff not_sample_forward rfl
    rw [loop, pass_eq] at hrun ⊢
    split_ifs at hrun ⊢ with hstop
    · rw [List.append_assoc] at hrun
      obtain ⟨before', rfl, hrest⟩ := hcut.mp hrun
      cases before' with
      | nil =>
        refine ⟨⟨i, (List.cons.inj hrest).2⟩, ?_⟩
        rw [List.append_nil, texts_forward]
        rfl
      | cons a before' => exact absurd (List.cons.inj hrest).2 hnone
    · dsimp only at hrun ⊢
      rw [List.append_assoc] at hrun
      obtain ⟨before', rfl, hrest⟩ := hcut.mp hrun
      cases before' with
      | nil =>
        have htoken : Action.sample token = .sample (gen.samples i) := (List.cons.inj hrest).1
        cases htoken
        exact absurd h hstop
      | cons a before' =>
        obtain ⟨rfl, htail⟩ := List.cons.inj hrest
        cases before' with
        | nil => cases (List.cons.inj htail).1
        | cons b before' =>
          obtain ⟨rfl, htail'⟩ := List.cons.inj htail
          obtain ⟨hafter, hout⟩ := ih (i + 1) _ _ before' after htail'
          refine ⟨hafter, ?_⟩
          rw [texts, List.filterMap_append]
          change _ ++ _ = (texts _ ++ (gen.decode (gen.samples i) :: texts before')).flatten
          rw [texts_forward, hout]
          rfl

theorem trace_stopsAt (h : gen.isStop (gen.decode token) = true) :
    StopsAt token gen.trace gen.output := by
  intro before after hrun
  cases before with
  | nil => cases (List.cons.inj hrun).1
  | cons a before =>
    obtain ⟨rfl, htail⟩ := List.cons.inj hrun
    cases before with
    | nil => cases (List.cons.inj htail).1
    | cons b before =>
      obtain ⟨rfl, htail'⟩ := List.cons.inj htail
      exact gen.loop_stopsAt h _ _ _ _ before after htail'

end Generation

variable {t t' : TokenizerImpl} {m : Pcre2} {fuel : ℕ} {text : Bytes} {ids : List ℕ}

theorem tokenize_keeps (h : t.tokenize m fuel text = .ok (ids, t')) :
    (∀ id, t'.decode id = t.decode id) ∧
      ∀ s, t.isStopToken s = true → t'.isStopToken s = true := by
  obtain ⟨s, hscan, hrest⟩ := Outcome.bind_eq_ok.mp h
  obtain ⟨pieces, -, heq⟩ := Outcome.bind_eq_ok.mp hrest
  have hfollows := (TokenizerImpl.Alike.refl t).follows (m := m) fuel text fuel 0 [] []
  rw [hscan] at hfollows
  generalize t.scanText m fuel text fuel 0 [] [] = scanned at hfollows
  cases hfollows with
  | @ok u pretext finalTokens hu =>
    cases heq
    refine ⟨hu.decode, fun s hs => ?_⟩
    rw [← hu.isStopToken, TokenizerImpl.isStopToken, Bool.and_eq_true] at hs
    rw [TokenizerImpl.isStopToken, Bool.and_eq_true]
    exact ⟨hs.1, (TokenizerImpl.lookUpIds_isSome _ _ _).mpr (.inr hs.2)⟩

/-- A stop token of the model ends every run. -/
theorem invoke_stopsAt {token maxTokens : ℕ} (hstop : t.isStopToken (t.decode token) = true)
    {samples : ℕ → ℕ} {run : List Action} {output : Bytes}
    (h : invoke t m fuel samples text maxTokens = .ok (run, output)) :
    StopsAt token run output := by
  obtain ⟨gen, hgen, hrun⟩ := Outcome.bind_eq_ok.mp h
  obtain ⟨⟨ids, t'⟩, htok, heq⟩ := Outcome.bind_eq_ok.mp hgen
  obtain ⟨hdecode, hstops⟩ := tokenize_keeps htok
  cases heq
  cases hrun
  apply Generation.trace_stopsAt
  change t'.isStopToken (t'.decode token) = true
  rw [hdecode]
  exact hstops _ hstop

variable {info : TokenizerInfo}

theorem buildTokenToIdMap_isSome (tokens : List Bytes) (s : Bytes) :
    (buildTokenToIdMap tokens s).isSome = true ↔ s ∈ tokens := by
  rw [buildTokenToIdMap, Option.isSome_iff_ne_none, Ne, store_eq_none, List.mem_iff_getElem?]
  push Not
  exact exists_congr fun v => List.mk_mem_zipIdx_iff_getElem?

theorem isStopToken_forModel (ht : TokenizerImpl.forModel info = .ok t) (s : Bytes) :
    t.isStopToken s = true ↔ s ∈ stopTokenTexts ∧ s ∈ info.tokens := by
  obtain ⟨trie, -, heq⟩ := Outcome.bind_eq_ok.mp ht
  cases heq
  rw [TokenizerImpl.isStopToken, Bool.and_eq_true, List.contains_iff_mem, buildTokenToIdMap_isSome]

theorem forModel_names (ht : TokenizerImpl.forModel info = .ok t) : t.info = info ∧
    t.unicodeToByteMap = buildByteToUnicodeMap.unicodeToByte ∧
      ∀ i, t.idToTokenMap i = info.tokens[i]? := by
  obtain ⟨trie, -, heq⟩ := Outcome.bind_eq_ok.mp ht
  cases heq
  exact ⟨rfl, rfl, store_zipIdx_swap info.tokens⟩

theorem getEos_forModel (ht : TokenizerImpl.forModel info = .ok t) :
    t.getEos = (info.tokens[info.bosTokenId]?).getD [] := by
  obtain ⟨hinfo, -, hnames⟩ := forModel_names ht
  rw [TokenizerImpl.getEos, hnames, hinfo]

theorem decode_eos (ht : TokenizerImpl.forModel info = .ok t) {eos : Bytes}
    (heos : info.tokens[info.eosTokenId]? = some eos) :
    t.decode t.info.eosTokenId = unicodeToChars buildByteToUnicodeMap.unicodeToByte eos := by
  obtain ⟨hinfo, hbytes, hnames⟩ := forModel_names ht
  rw [TokenizerImpl.decode, hnames, hinfo, heos, hbytes]
  rfl

/-- The end of the sequence is agreed on if and only if its id is also that of the beginning, which
`get_eos` looks up, and its decoded text is one of the stop texts and a token. -/
theorem eosAgrees_iff (ht : TokenizerImpl.forModel info = .ok t) (hd : info.tokens.Nodup)
    {eos : Bytes} (heos : info.tokens[info.eosTokenId]? = some eos) (m : Pcre2) :
    EosAgrees t m eos ↔ info.bosTokenId = info.eosTokenId ∧
      unicodeToChars buildByteToUnicodeMap.unicodeToByte eos ∈ stopTokenTexts ∧
      unicodeToChars buildByteToUnicodeMap.unicodeToByte eos ∈ info.tokens := by
  have hstop := isStopToken_forModel ht (t.decode t.info.eosTokenId)
  rw [decode_eos ht heos] at hstop
  rw [EosAgrees, getEos_forModel ht, decode_eos ht heos, hstop]
  constructor
  · rintro ⟨hget, htexts, -⟩
    refine ⟨?_, htexts⟩
    cases hbos : info.tokens[info.bosTokenId]? with
    | none =>
      -- the empty text is no stop text
      rw [hbos] at hget
      have hempty : unicodeToChars buildByteToUnicodeMap.unicodeToByte [] ∈ stopTokenTexts := by
        rw [show ([] : Bytes) = eos from hget]
        exact htexts.1
      exact absurd hempty (by decide)
    | some bos =>
      rw [hbos] at hget
      apply (List.getElem?_inj (List.getElem?_eq_some_iff.mp hbos).1 hd).mp
      rw [hbos, heos]
      exact congrArg some hget
  · rintro ⟨hbos, htexts⟩
    refine ⟨by rw [hbos, heos]; rfl, htexts, ?_⟩
    intro fuel samples input maxTokens run output hrun
    apply invoke_stopsAt _ hrun
    rw [decode_eos ht heos]
    exact hstop.mpr htexts

/-- A vocabulary whose sequences begin and end with different tokens. -/
def twoMarkers : TokenizerInfo where
  pre := literal "qwen2"
  eosTokenId := 1
  bosTokenId := 0
  tokens := [literal "<|endoftext|>", literal "<|im_end|>"]
  merges := []
  tokenType := [TokenType.control.code, TokenType.control.code]

theorem eosAgrees_iff_twoMarkers : ∃ t, TokenizerImpl.forModel twoMarkers = .ok t ∧
    (EosAgrees t (.reference asciiTable) (literal "<|im_end|>") ↔ 0 = 1 ∧
      unicodeToChars buildByteToUnicodeMap.unicodeToByte (literal "<|im_end|>") ∈ stopTokenTexts ∧
      unicodeToChars buildByteToUnicodeMap.unicodeToByte (literal "<|im_end|>") ∈
        twoMarkers.tokens) := by
  have htypes : twoMarkers.tokenType.length = twoMarkers.tokens.length := rfl
  obtain ⟨t, ht⟩ := forModel_ok htypes
  exact ⟨t, ht, eosAgrees_iff ht (by decide) rfl _⟩

/-- The chat template is given the text of the beginning of the sequence. -/
theorem twoMarkers_disagree : ∃ t, TokenizerImpl.forModel twoMarkers = .ok t ∧
    t.getEos = literal "<|endoftext|>" ∧
      ¬ EosAgrees t (.reference asciiTable) (literal "<|im_end|>") := by
  have htypes : twoMarkers.tokenType.length = twoMarkers.tokens.length := rfl
  obtain ⟨t, ht⟩ := forModel_ok htypes
  have hget : t.getEos = literal "<|endoftext|>" := getEos_forModel ht
  refine ⟨t, ht, hget, fun hagrees => ?_⟩
  have hsame := hget.symm.trans hagrees.1
  exact absurd hsame (by decide)

end Inference

end ZInferLM
