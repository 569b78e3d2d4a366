import ZInferLM.Tokenizer.Segmentation

/-! # Decoding undoes tokenizing

A piece of a plain segment is decoded to the part of the text it spells, a special token to its own
text, so the decoded ids are the text again. -/

namespace ZInferLM.Tokenizer
open Library Library.Utf8

variable {info : TokenizerInfo} {t t' : TokenizerImpl} {m : Pcre2} {tbl : CharTable}

theorem decode_idOf (hv : CompleteVocab info) (ht : BuiltFrom info t) (ht' : BuiltFrom info t')
    {s : Bytes} (hs : s ∈ info.tokens) :
    t'.decode (t.idOf s) = unicodeToChars buildByteToUnicodeMap.unicodeToByte s := by
  rw [TokenizerImpl.decode, ht'.name, (ht.getElem_idOf hv hs).1, ht'.unbytes, Option.elim_some]

theorem decode_segment (hv : CompleteVocab info) (ht : BuiltFrom info t) (ht' : BuiltFrom info t')
    {fuel : ℕ} {seg : Segment} {l : List Bytes} (h : SegmentTokens info t m fuel seg l) :
    (l.map t.idOf).flatMap t'.decode = seg.text := by
  have hdecode : ∀ s ∈ l, t'.decode (t.idOf s) =
      unicodeToChars buildByteToUnicodeMap.unicodeToByte s :=
    fun s hs => decode_idOf hv ht ht' (h.mem hs)
  rw [List.flatMap_map, List.flatMap_congr hdecode]
  cases seg with
  | plain w =>
    obtain ⟨-, parts, rfl, rfl, -⟩ := h
    simp only [List.flatMap_map, unicodeToChars_symbols, List.flatMap_id']
    rfl
  | special i w =>
    obtain ⟨hspecial, rfl⟩ := h
    rw [List.flatMap_singleton, unicodeToChars_ascii (hv.special i w hspecial).2]
    rfl

theorem decode_segments (hv : CompleteVocab info) (ht : BuiltFrom info t)
    (ht' : BuiltFrom info t') {fuel : ℕ} {segs : List Segment} {ls : List (List Bytes)}
    (h : List.Forall₂ (SegmentTokens info t m fuel) segs ls) :
    (ls.flatten.map t.idOf).flatMap t'.decode = segs.flatMap Segment.text := by
  induction h with
  | nil => rfl
  | cons hseg _ ih =>
    rw [List.flatten_cons, List.map_append, List.flatMap_append, decode_segment hv ht ht' hseg, ih,
      List.flatMap_cons]

/-- The pieces of a text are its segments, and so their ids are decoded to the text. -/
theorem BuiltFrom.exists_ids (ht : BuiltFrom info t) (hm : m.LeftmostOrdered tbl)
    (hv : CompleteVocab info) (hpre : KnownPre info.pre) {text : Bytes} (hvalid : Valid text)
    {fuel : ℕ} (hfuel : text.length < fuel) :
    ∃ ids t', t.tokenize m fuel text = .ok (ids, t') ∧ ids.flatMap t'.decode = text := by
  obtain ⟨segs, ls, t', hok, ht', hcut, htokens⟩ := tokenize_tokens hm hv hpre ht hvalid hfuel
  refine ⟨_, t', hok, ?_⟩
  rw [decode_segments hv ht ht' htokens, hcut.flatMap_text]

/-- On valid UTF-8 `tokenize` ends, and the decoded ids are the text. -/
theorem tokenize_decode (hm : m.LeftmostOrdered tbl) (hv : CompleteVocab info)
    (hpre : KnownPre info.pre) (ht : TokenizerImpl.forModel info = .ok t) {text : Bytes}
    (hvalid : Valid text) {fuel : ℕ} (hfuel : text.length < fuel) :
    ∃ ids t', t.tokenize m fuel text = .ok (ids, t') ∧ ids.flatMap t'.decode = text :=
  (forModel_builtFrom hv.types ht).exists_ids hm hv hpre hvalid hfuel

theorem tokenize_decode_greeting :
    ∃ t, TokenizerImpl.forModel greetingInfo = .ok t ∧ ∃ ids t',
      t.tokenize (.reference asciiTable) ((literal "hi <|>").length + 1) (literal "hi <|>") =
        .ok (ids, t') ∧ ids.flatMap t'.decode = literal "hi <|>" := by
  obtain ⟨t, ht⟩ := forModel_ok greetingInfo_complete.types
  exact ⟨t, ht, tokenize_decode (Pcre2.reference_leftmostOrdered asciiTable)
    greetingInfo_complete (.inl rfl) ht (valid_encode _) (Nat.lt_succ_self _)⟩

end ZInferLM.Tokenizer
