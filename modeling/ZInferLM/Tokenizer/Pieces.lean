import ZInferLM.Tokenizer.Merging

/-! # The pieces of a plain text

Chunking and merging cut a plain text into pieces. Every piece is the symbols of a non-empty part
of the text, the parts are the text in order, and a complete vocabulary contains every piece. -/

namespace ZInferLM.Tokenizer
open Library Library.Utf8 Library.PairMerging

/-- A vocabulary that can spell every byte and contains whatever a merge can produce; its special
tokens are non-empty strings below `128`. -/
structure CompleteVocab (info : TokenizerInfo) : Prop where
  nodup : info.tokens.Nodup
  alphabet : ∀ b, symbol b ∈ info.tokens
  joined : ∀ p q, (0x20 : UInt8) ∉ p → (0x20 : UInt8) ∉ q → mergeKey p q ∈ info.merges →
    p ++ q ∈ info.tokens
  types : info.tokenType.length = info.tokens.length
  special : ∀ i w, SpecialAt info.tokens info.tokenType i w → w ≠ [] ∧ Ascii w

/-- A tokenizer with the maps built from the vocabulary, whatever matches went before. -/
structure BuiltFrom (info : TokenizerInfo) (t : TokenizerImpl) : Prop where
  merges : t.mergesMap = buildMergesMap info.merges
  bytes : t.byteToUnicodeMap = buildByteToUnicodeMap.byteToUnicode
  unbytes : t.unicodeToByteMap = buildByteToUnicodeMap.unicodeToByte
  ids : t.tokenToIdMap = buildTokenToIdMap info.tokens
  names : t.idToTokenMap = buildIdToTokenMap info.tokens
  regex : t.re = getPretokenizerRegex info.pre
  trie : Knows info.tokens info.tokenType info.tokens.length t.splTokenTrie

variable {info : TokenizerInfo} {t : TokenizerImpl}

theorem forModel_builtFrom (hlen : info.tokenType.length = info.tokens.length)
    (ht : TokenizerImpl.forModel info = .ok t) : BuiltFrom info t := by
  obtain ⟨hmerges, hbytes, hunbytes, hids, hnames, hregex, htrie⟩ := forModel_maps ht
  obtain ⟨trie, hok, hknows⟩ := buildFromTokens_knows hlen.ge
  cases htrie.symm.trans hok
  exact ⟨hmerges, hbytes, hunbytes, hids, hnames, hregex, hknows⟩

/-- With one type for each token the tokenizer can be built. -/
theorem forModel_ok (hlen : info.tokenType.length = info.tokens.length) :
    ∃ t, TokenizerImpl.forModel info = .ok t := by
  obtain ⟨trie, hok, -⟩ := buildFromTokens_knows hlen.ge
  rw [TokenizerImpl.forModel, hok]
  exact ⟨_, rfl⟩

/-- The pieces are the symbols of the parts of a text, all of them tokens. -/
def Pieces (info : TokenizerInfo) (text : Bytes) (pieces : List Bytes) : Prop :=
  ∃ parts : List Bytes, pieces = parts.map symbols ∧ parts.flatten = text ∧
    ∀ w ∈ parts, w ≠ [] ∧ symbols w ∈ info.tokens

theorem Pieces.nil : Pieces info [] [] := ⟨[], rfl, rfl, by simp⟩

theorem Pieces.append {a b : Bytes} {l m : List Bytes} (hl : Pieces info a l)
    (hm : Pieces info b m) : Pieces info (a ++ b) (l ++ m) := by
  obtain ⟨u, rfl, rfl, hu⟩ := hl
  obtain ⟨v, rfl, rfl, hv⟩ := hm
  refine ⟨u ++ v, List.map_append.symm, List.flatten_append, fun w hw => ?_⟩
  rcases List.mem_append.mp hw with hw | hw
  · exact hu w hw
  · exact hv w hw

theorem Pieces.mem {text s : Bytes} {l : List Bytes} (h : Pieces info text l) (hs : s ∈ l) :
    s ∈ info.tokens := by
  obtain ⟨parts, rfl, -, hp⟩ := h
  obtain ⟨w, hw, rfl⟩ := List.mem_map.mp hs
  exact (hp w hw).2

def IsPiece (info : TokenizerInfo) (s : Bytes) : Prop :=
  s ∈ info.tokens ∧ ∃ w, w ≠ [] ∧ symbols w = s

theorem flatten_map_symbols (parts : List Bytes) :
    (parts.map symbols).flatten = symbols parts.flatten := by
  induction parts with
  | nil => rfl
  | cons w parts ih => rw [List.map_cons, List.flatten_cons, ih, List.flatten_cons, symbols_append]

/-- Tokens that spell byte strings and together spell a text are its pieces. -/
theorem pieces_of_flatten {text : Bytes} {l : List Bytes} (h : ∀ s ∈ l, IsPiece info s)
    (hflat : l.flatten = symbols text) : Pieces info text l := by
  have hparts : ∃ parts : List Bytes, l = parts.map symbols ∧
      ∀ w ∈ parts, w ≠ [] ∧ symbols w ∈ info.tokens := by
    clear hflat
    induction l with
    | nil => exact ⟨[], rfl, by simp⟩
    | cons s l ih =>
      obtain ⟨hs, w, hw, rfl⟩ := h s (by simp)
      obtain ⟨parts, rfl, hp⟩ := ih fun x hx => h x (List.mem_cons_of_mem _ hx)
      refine ⟨w :: parts, rfl, fun x hx => ?_⟩
      rcases List.mem_cons.mp hx with rfl | hx
      · exact ⟨hw, hs⟩
      · exact hp x hx
  obtain ⟨parts, rfl, hp⟩ := hparts
  rw [flatten_map_symbols] at hflat
  exact ⟨parts, rfl, symbols_injective hflat, hp⟩

theorem flatten_mergeFirst (p q : Bytes) (l : List Bytes) :
    (mergeFirst (· ++ ·) p q l).flatten = l.flatten := by
  fun_induction mergeFirst (· ++ ·) p q l with
  | case1 a b l hab =>
    rw [hab.1, hab.2, List.flatten_cons, List.flatten_cons, List.flatten_cons, List.append_assoc]
  | case2 a b l hab ih => rw [List.flatten_cons, ih, ← List.flatten_cons]
  | case3 l => rfl

theorem isPiece_join (hv : CompleteVocab info) {p q : Bytes} {r : ℕ} (hp : IsPiece info p)
    (hq : IsPiece info q)
    (hr : TokenizerImpl.pairRank (buildMergesMap info.merges) p q = some r) :
    IsPiece info (p ++ q) := by
  obtain ⟨-, v, hv0, rfl⟩ := hp
  obtain ⟨-, w, -, rfl⟩ := hq
  have hkey := List.mk_mem_zipIdx_iff_getElem?.mp (mem_of_store hr)
  constructor
  · exact hv.joined _ _ (blank_not_mem_symbols v) (blank_not_mem_symbols w)
      (List.mem_of_getElem? hkey)
  · exact ⟨v ++ w, by simp [hv0], symbols_append v w⟩

theorem leftmost_pieces (hv : CompleteVocab info) {l n : List Bytes}
    (h : Leftmost (· ++ ·) (TokenizerImpl.pairRank (buildMergesMap info.merges)) l n)
    (hl : ∀ s ∈ l, IsPiece info s) : (∀ s ∈ n, IsPiece info s) ∧ n.flatten = l.flatten := by
  induction h with
  | done => exact ⟨hl, rfl⟩
  | @step l n p q r hlow _ ih =>
    have hstep : ∀ s ∈ mergeFirst (· ++ ·) p q l, IsPiece info s := by
      intro s hs
      rcases mem_mergeFirst hs with hs | rfl
      · exact hl s hs
      · exact isPiece_join hv (hl _ hlow.adjacent.mem_left) (hl _ hlow.adjacent.mem_right)
          hlow.ranked
    obtain ⟨hn, hflat⟩ := ih hstep
    exact ⟨hn, hflat.trans (flatten_mergeFirst p q l)⟩

/-- Merging a chunk ends, and in pieces of the chunk. -/
theorem splitAndMerge_pieces (hv : CompleteVocab info) (ht : BuiltFrom info t) {chunk : Bytes}
    (hc : chunk ≠ []) {fuel : ℕ} (hfuel : chunk.length < fuel) :
    ∃ pieces, t.splitAndMerge fuel chunk = .ok pieces ∧ Pieces info chunk pieces := by
  have hlen : (chunk.map symbol).length < fuel := by rwa [List.length_map]
  obtain ⟨n, hok, hleft⟩ := TokenizerImpl.mergeLoop_leftmost (buildMergesMap info.merges) hlen
  have hstart : ∀ s ∈ chunk.map symbol, IsPiece info s := by
    intro s hs
    obtain ⟨b, -, rfl⟩ := List.mem_map.mp hs
    exact ⟨hv.alphabet b, [b], by simp, by simp⟩
  obtain ⟨hn, hflat⟩ := leftmost_pieces hv hleft hstart
  refine ⟨n, ?_, pieces_of_flatten hn (hflat.trans ?_)⟩
  · rw [splitAndMerge_eq_mergeLoop ht.bytes fuel hc, ht.merges, hok]
  · rw [symbols, List.flatMap_def]

theorem collect_pieces (hv : CompleteVocab info) (ht : BuiltFrom info t) {fuel : ℕ}
    {chunks : List Bytes} (hc : ∀ c ∈ chunks, c ≠ [] ∧ c.length < fuel) :
    ∃ ls, Outcome.collect (t.splitAndMerge fuel) chunks = .ok ls ∧
      Pieces info chunks.flatten ls.flatten := by
  induction chunks with
  | nil => exact ⟨[], rfl, Pieces.nil⟩
  | cons c chunks ih =>
    obtain ⟨hne, hlen⟩ := hc c (by simp)
    obtain ⟨l, hl, hpl⟩ := splitAndMerge_pieces hv ht hne hlen
    obtain ⟨ls, hls, hpls⟩ := ih fun d hd => hc d (List.mem_cons_of_mem _ hd)
    refine ⟨l :: ls, ?_, ?_⟩
    · rw [Outcome.collect, hl, Outcome.ok_bind, hls, Outcome.ok_bind]
    · rw [List.flatten_cons, List.flatten_cons]
      exact hpl.append hpls

/-- On valid UTF-8 `bpe_` ends, and in pieces of the text. -/
theorem bpe_pieces {m : Pcre2} {tbl : CharTable} (hm : m.LeftmostOrdered tbl)
    (hv : CompleteVocab info) (hpre : KnownPre info.pre) (ht : BuiltFrom info t) {text : Bytes}
    (hvalid : Valid text) {fuel : ℕ} (hfuel : text.length < fuel) :
    ∃ pieces, t.bpe m fuel text = .ok pieces ∧ Pieces info text pieces := by
  obtain ⟨chunks, hok, hflat, hne⟩ :=
    pretokenize_chunks hm (knownPre_covers tbl hpre) hvalid hfuel
  have hchunk : ∀ c ∈ chunks, c ≠ [] ∧ c.length < fuel := by
    intro c hc
    have hle := (List.sublist_flatten_of_mem hc).length_le
    rw [hflat] at hle
    exact ⟨hne c hc, lt_of_le_of_lt hle hfuel⟩
  obtain ⟨ls, hls, hpieces⟩ := collect_pieces hv ht hchunk
  refine ⟨ls.flatten, ?_, hflat ▸ hpieces⟩
  rw [TokenizerImpl.bpe, ht.regex, hok, Outcome.ok_bind, hls, Outcome.ok_bind]

theorem symbol_ne_ascii {s : Bytes} (hs : Ascii s) (hlen : s.length ≠ 1) (b : UInt8) :
    symbol b ≠ s := by
  rintro rfl
  obtain ⟨x, xs, hx⟩ := List.exists_cons_of_ne_nil (symbol_ne_nil b)
  have hmem : x ∈ symbol b := by simp [hx]
  rw [(mem_symbol_low hmem (hs x hmem)).1] at hlen
  exact hlen rfl

def alphabetTokens : List Bytes := (List.range 256).map fun n => symbol (UInt8.ofNat n)

theorem mem_alphabetTokens (b : UInt8) : symbol b ∈ alphabetTokens :=
  List.mem_map.mpr ⟨b.toNat, List.mem_range.mpr b.toNat_lt, by rw [UInt8.ofNat_toNat]⟩

theorem alphabetTokens_nodup : alphabetTokens.Nodup := by
  apply List.Nodup.map_on _ List.nodup_range
  intro a ha b hb hab
  have h := congrArg UInt8.toNat (symbol_injective hab)
  rw [List.mem_range] at ha hb
  simp only [UInt8.toNat_ofNat'] at h
  omega

/-- All bytes, one merge `h i` with its token, and one control token. -/
def greetingInfo : TokenizerInfo where
  pre := literal "qwen2"
  eosTokenId := 257
  bosTokenId := 257
  tokens := alphabetTokens ++ [[104, 105], [60, 124, 62]]
  merges := [pairEntry ([104], [105])]
  tokenType := List.replicate 257 TokenType.normal.code ++ [TokenType.control.code]

theorem greetingInfo_complete : CompleteVocab greetingInfo := by
  have hlen : alphabetTokens.length = 256 := by simp [alphabetTokens]
  constructor
  · rw [greetingInfo, List.nodup_append']
    refine ⟨alphabetTokens_nodup, by decide, ?_⟩
    intro s hs hs'
    obtain ⟨n, -, rfl⟩ := List.mem_map.mp hs
    have hne := fun w hw hl => symbol_ne_ascii (s := w) hw hl (UInt8.ofNat n)
    rcases List.mem_cons.mp hs' with h | h
    · exact hne _ (by decide +kernel) (by decide) h
    · exact hne _ (by decide +kernel) (by decide) (List.mem_singleton.mp h)
  · intro b
    exact List.mem_append_left _ (mem_alphabetTokens b)
  · intro p q _ _ h
    obtain ⟨rfl, rfl⟩ := pairEntry_eq_mergeKey (List.mem_singleton.mp h).symm
    apply List.mem_append_right
    have hsym : symbols [104] ++ symbols [105] = [104, 105] := by decide
    exact List.mem_cons.mpr (.inl hsym)
  · simp only [greetingInfo, List.length_append, List.length_replicate, hlen, List.length_cons,
      List.length_nil]
  · rintro i w ⟨hw, type, htype, hne⟩
    have hi : 257 ≤ i := by
      by_contra hlt
      have hlt := not_le.mp hlt
      rw [greetingInfo, List.getElem?_append_left (by rwa [List.length_replicate]),
        List.getElem?_replicate_of_lt hlt] at htype
      exact hne (Option.some.inj htype).symm
    rw [greetingInfo, List.getElem?_append_right (by omega), hlen] at hw
    have hlast : i = 257 := by
      have := (List.getElem?_eq_some_iff.mp hw).1
      simp only [List.length_cons, List.length_nil] at this
      omega
    subst hlast
    cases hw
    exact ⟨by decide, by decide +kernel⟩

end ZInferLM.Tokenizer
