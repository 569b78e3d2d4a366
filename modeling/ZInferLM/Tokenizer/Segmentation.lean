import ZInferLM.Tokenizer.Pieces

/-! # Cutting a text at its special tokens

Scanned from left to right a text has one cut into plain segments and special tokens: at the first
offset where special tokens stand the longest of them is taken, and the scan goes on behind it.
`tokenize` makes this cut, merges every plain segment on its own, and looks the pieces up. -/

namespace ZInferLM.Tokenizer
open Library Library.Machine Library.Utf8

inductive Segment where
  | plain (text : Bytes)
  | special (id : ℕ) (text : Bytes)

def Segment.text : Segment → Bytes
  | .plain w => w
  | .special _ w => w

def Segment.specialId : Segment → Option ℕ
  | .plain _ => none
  | .special i _ => some i

/-- No special token stands at one of the first `n` offsets. -/
def ClearBelow (tokens : List Bytes) (tokenTypes : List ℤ) (n : ℕ) (text : Bytes) : Prop :=
  ∀ k < n, NoSpecial tokens tokenTypes (text.drop k)

/-- The cut of a text by the leftmost and there longest special tokens. -/
inductive LeftmostLongest (tokens : List Bytes) (tokenTypes : List ℤ) :
    Bytes → List Segment → Prop where
  | plain {text : Bytes} : ClearBelow tokens tokenTypes text.length text →
      LeftmostLongest tokens tokenTypes text [.plain text]
  | special {before w rest : Bytes} {i : ℕ} {segs : List Segment} :
      ClearBelow tokens tokenTypes before.length (before ++ (w ++ rest)) →
      LongestSpecial tokens tokenTypes (w ++ rest) i w →
      LeftmostLongest tokens tokenTypes rest segs →
      LeftmostLongest tokens tokenTypes (before ++ (w ++ rest)) (.plain before :: .special i w :: segs)

variable {tokens : List Bytes} {tokenTypes : List ℤ} {text : Bytes} {segs : List Segment}

theorem LeftmostLongest.flatMap_text (h : LeftmostLongest tokens tokenTypes text segs) :
    segs.flatMap Segment.text = text := by
  induction h with
  | plain => simp [Segment.text]
  | special _ _ _ ih => simp [Segment.text, ih]

theorem LongestSpecial.unique {i j : ℕ} {v w : Bytes}
    (hw : LongestSpecial tokens tokenTypes text i w)
    (hv : LongestSpecial tokens tokenTypes text j v) : i = j ∧ w = v := by
  have hlen := le_antisymm (hv.longest _ _ hw.special hw.isPrefix)
    (hw.longest _ _ hv.special hv.isPrefix)
  have heq : w = v := List.IsPrefix.eq_of_length
    (List.prefix_of_prefix_length_le hw.isPrefix hv.isPrefix hlen.le) hlen
  subst heq
  exact ⟨le_antisymm (hv.last _ hw.special) (hw.last _ hv.special), rfl⟩

/-- A clear stretch does not reach beyond a special token. -/
theorem ClearBelow.le_of_special {n : ℕ} {before rest w : Bytes} {i : ℕ}
    (hclear : ClearBelow tokens tokenTypes n (before ++ rest))
    (hw : LongestSpecial tokens tokenTypes rest i w) : n ≤ before.length := by
  by_contra hlt
  have hnone := hclear before.length (not_le.mp hlt)
  rw [List.drop_left] at hnone
  exact hnone i w hw.special hw.nonempty hw.isPrefix

/-- A text has one cut. -/
theorem LeftmostLongest.unique {segs' : List Segment}
    (h : LeftmostLongest tokens tokenTypes text segs)
    (h' : LeftmostLongest tokens tokenTypes text segs') : segs = segs' := by
  induction h generalizing segs' with
  | plain hclear =>
    cases h' with
    | plain => rfl
    | @special before w rest i segs _ hlong _ =>
      have hle := hclear.le_of_special hlong
      have hpos := List.length_pos_iff.mpr hlong.nonempty
      simp only [List.length_append] at hle
      omega
  | @special before w rest i segs hclear hlong _ ih =>
    generalize htext : before ++ (w ++ rest) = text at h' hclear
    cases h' with
    | plain hclear' =>
      rw [← htext] at hclear'
      have hle := hclear'.le_of_special hlong
      have hpos := List.length_pos_iff.mpr hlong.nonempty
      simp only [List.length_append] at hle
      omega
    | @special before' w' rest' i' segs' hclear' hlong' hrest' =>
      -- neither stretch before a special token is the longer one
      have hle := hclear.le_of_special hlong'
      rw [← htext] at hclear'
      have hge := hclear'.le_of_special hlong
      obtain ⟨rfl, htail⟩ := List.append_inj htext (le_antisymm hle hge)
      rw [← htail] at hlong'
      obtain ⟨rfl, rfl⟩ := hlong.unique hlong'
      have hrest := List.append_cancel_left htail
      subst hrest
      rw [ih hrest']

/-- Inside a plain segment no special token stands at any offset. -/
theorem LeftmostLongest.plain_clear (h : LeftmostLongest tokens tokenTypes text segs) {w : Bytes}
    (hw : Segment.plain w ∈ segs) : ClearBelow tokens tokenTypes w.length w := by
  induction h with
  | plain hclear =>
    cases List.mem_singleton.mp hw
    exact hclear
  | @special before v rest i segs hclear _ _ ih =>
    rcases List.mem_cons.mp hw with hw | hw
    · cases hw
      intro k hk j u hu hne hpre
      apply hclear k hk j u hu hne
      rw [List.drop_append_of_le_length hk.le]
      exact hpre.trans (List.prefix_append _ _)
    · exact ih ((List.mem_cons.mp hw).resolve_left (by simp))

def TokenizerImpl.afterMatch (t : TokenizerImpl) (text : Bytes) (start : ℕ) : TokenizerImpl :=
  { t with splTokenTrie := (t.splTokenTrie.matchAt text start text.length).2 }

variable {info : TokenizerInfo} {t : TokenizerImpl} {m : Pcre2} {tbl : CharTable}

theorem BuiltFrom.afterMatch (h : BuiltFrom info t) (text : Bytes) (start : ℕ) :
    BuiltFrom info (t.afterMatch text start) :=
  ⟨h.merges, h.bytes, h.unbytes, h.ids, h.names, h.regex, knows_matchAt h.trie _ _ _⟩

theorem BuiltFrom.name (h : BuiltFrom info t) (i : ℕ) : t.idToTokenMap i = info.tokens[i]? := by
  rw [h.names, buildIdToTokenMap, store_zipIdx_swap]

/-- Merging does not look at what a match changes. -/
theorem BuiltFrom.bpe_eq {t' : TokenizerImpl} (h : BuiltFrom info t) (h' : BuiltFrom info t')
    (fuel : ℕ) (w : Bytes) : t'.bpe m fuel w = t.bpe m fuel w := by
  have hmerge : t'.splitAndMerge fuel = t.splitAndMerge fuel := by
    funext c
    rw [TokenizerImpl.splitAndMerge, TokenizerImpl.splitAndMerge, h.bytes, h'.bytes, h.merges,
      h'.merges]
  rw [TokenizerImpl.bpe, TokenizerImpl.bpe, hmerge, h.regex, h'.regex]

section Turns
variable {text : Bytes} {start : ℕ} (bpeFuel fuel : ℕ) (s : TokenizerImpl.Scan)

theorem scanLoop_end (h : text.length ≤ start) :
    TokenizerImpl.scanLoop m bpeFuel text (fuel + 1) start s = .ok s := by
  rw [TokenizerImpl.scanLoop, dif_neg (not_lt.mpr h)]

theorem scanLoop_miss (h : start < text.length)
    (hr : (s.tokenizer.splTokenTrie.matchAt text start text.length).1 = -1) :
    TokenizerImpl.scanLoop m bpeFuel text (fuel + 1) start s =
      TokenizerImpl.scanLoop m bpeFuel text fuel (start + 1)
        ⟨s.tokenizer.afterMatch text start, s.pretext ++ [text[start]], s.finalTokens⟩ := by
  rw [TokenizerImpl.scanLoop, dif_pos h]
  simp only [hr]
  rfl

/-- A match flushes the kept bytes and skips the special token. -/
theorem scanLoop_hit (h : start < text.length) {i : ℕ} {w : Bytes} {pieces : List Bytes}
    (hr : (s.tokenizer.splTokenTrie.matchAt text start text.length).1 = (i : ℕ))
    (hw : s.tokenizer.idToTokenMap i = some w)
    (hp : (s.tokenizer.afterMatch text start).bpe m bpeFuel s.pretext = .ok pieces) :
    TokenizerImpl.scanLoop m bpeFuel text (fuel + 1) start s =
      TokenizerImpl.scanLoop m bpeFuel text fuel (start + w.length)
        ⟨s.tokenizer.afterMatch text start, [], s.finalTokens ++ pieces ++ [w]⟩ := by
  rw [TokenizerImpl.scanLoop, dif_pos h]
  simp only [hr, Int.natCast_nonneg, if_true, Int.toNat_natCast, access_of_some hw]
  change ((s.tokenizer.afterMatch text start).bpe m bpeFuel s.pretext >>= _) = _
  rw [hp, Outcome.ok_bind]
  rfl

end Turns

/-- On a text of less than `2 ^ 31` bytes no position overflows: a special token that is skipped
stands in the text. -/
theorem BuiltFrom.scanLoopInt_eq {text : Bytes} (hsmall : text.length < 2 ^ 31) (bpeFuel fuel : ℕ)
    {start : ℕ} (hstart : start ≤ text.length) {s : TokenizerImpl.Scan}
    (hs : BuiltFrom info s.tokenizer) :
    TokenizerImpl.scanLoopInt m bpeFuel text fuel start s =
      TokenizerImpl.scanLoop m bpeFuel text fuel start s := by
  induction fuel generalizing start s with
  | zero => rfl
  | succ fuel ih =>
    rw [TokenizerImpl.scanLoopInt]
    by_cases hend : text.length ≤ start
    · rw [dif_neg (by omega), scanLoop_end bpeFuel fuel s hend]
    · have hlt := not_le.mp hend
      rw [dif_pos ⟨Int.natCast_nonneg _, hlt⟩]
      simp only [Int.toNat_natCast, toInt_of_lt hsmall]
      rcases matchAt_fst hs.trie text start with ⟨hr, -⟩ | ⟨i, w, hr, hlong⟩
      · have hnext : addInt start 1 = .ok ((start + 1 : ℕ) : ℤ) := by
          exact_mod_cast addInt_of_lt (show start + 1 < 2 ^ 31 by omega)
        rw [scanLoop_miss bpeFuel fuel s hlt hr, ← ih hlt (hs.afterMatch text start)]
        simp only [hr, hnext, Outcome.ok_bind]
        rfl
      · have hname : s.tokenizer.idToTokenMap i = some w := (hs.name i).trans hlong.special.1
        have hle := hlong.isPrefix.length_le
        rw [List.length_drop] at hle
        have hskip : toInt ((start : ℤ) + w.length) = ((start + w.length : ℕ) : ℤ) := by
          exact_mod_cast toInt_of_lt (show start + w.length < 2 ^ 31 by omega)
        rw [TokenizerImpl.scanLoop, dif_pos hlt]
        simp only [hr, Int.natCast_nonneg, if_true, Int.toNat_natCast, access_of_some hname, hskip]
        refine bind_congr fun pieces => ?_
        exact ih (by omega) (hs.afterMatch text start)

/-- So `tokenize` is what the source computes with `int`s. -/
theorem BuiltFrom.tokenizeInt_eq (ht : BuiltFrom info t) {text : Bytes}
    (hsmall : text.length < 2 ^ 31) (fuel : ℕ) :
    t.tokenizeInt m fuel text = t.tokenize m fuel text := by
  have hscan := @BuiltFrom.scanLoopInt_eq info m text hsmall fuel fuel 0 (Nat.zero_le _)
    ⟨t, [], []⟩ ht
  rw [Nat.cast_zero] at hscan
  rw [TokenizerImpl.tokenizeInt, hscan, TokenizerImpl.tokenize]

/-- The tokens of a segment: the pieces of a plain one, the text of a special one. -/
def SegmentTokens (info : TokenizerInfo) (t : TokenizerImpl) (m : Pcre2) (fuel : ℕ) :
    Segment → List Bytes → Prop
  | .plain w, l => t.bpe m fuel w = .ok l ∧ Pieces info w l
  | .special i w, l => SpecialAt info.tokens info.tokenType i w ∧ l = [w]

/-- The state after a scan: all segments but the last one have become tokens. -/
structure Scanned (info : TokenizerInfo) (t : TokenizerImpl) (m : Pcre2) (fuel : ℕ) (text : Bytes)
    (s : TokenizerImpl.Scan) (segs : List Segment) (ls : List (List Bytes)) : Prop where
  built : BuiltFrom info s.tokenizer
  pending : Valid s.pretext
  cut : LeftmostLongest info.tokens info.tokenType text (segs ++ [.plain s.pretext])
  tokens : List.Forall₂ (SegmentTokens info t m fuel) segs ls

/-- From any offset on the loop ends and has cut the kept bytes with the rest of the text. -/
theorem scanLoop_scanned (hm : m.LeftmostOrdered tbl) (hv : CompleteVocab info)
    (hpre : KnownPre info.pre) (ht : BuiltFrom info t) {text : Bytes} {bpeFuel : ℕ}
    (hbpe : text.length < bpeFuel) {fuel start : ℕ} {s : TokenizerImpl.Scan}
    (hs : BuiltFrom info s.tokenizer) (hkept : s.pretext.length ≤ start)
    (hstart : start ≤ text.length) (hfuel : text.length - start < fuel)
    (hvalid : Valid (s.pretext ++ text.drop start))
    (hclear : ClearBelow info.tokens info.tokenType s.pretext.length
      (s.pretext ++ text.drop start)) :
    ∃ s' segs ls, TokenizerImpl.scanLoop m bpeFuel text fuel start s = .ok s' ∧
      Scanned info t m bpeFuel (s.pretext ++ text.drop start) s' segs ls ∧
      s'.finalTokens = s.finalTokens ++ ls.flatten := by
  induction fuel generalizing start s with
  | zero => exact absurd hfuel (Nat.not_lt_zero _)
  | succ fuel ih =>
    by_cases hend : text.length ≤ start
    · rw [List.drop_eq_nil_of_le hend, List.append_nil] at hvalid hclear ⊢
      exact ⟨s, [], [], scanLoop_end bpeFuel fuel s hend, ⟨hs, hvalid, .plain hclear, .nil⟩,
        by simp⟩
    · have hlt := not_le.mp hend
      rcases matchAt_fst hs.trie text start with ⟨hr, hnone⟩ | ⟨i, w, hr, hlong⟩
      · -- the byte joins the kept ones
        have hdrop : text.drop start = [text[start]] ++ text.drop (start + 1) :=
          List.drop_eq_getElem_cons hlt
        have hassoc : s.pretext ++ text.drop start =
            (s.pretext ++ [text[start]]) ++ text.drop (start + 1) := by
          rw [hdrop, List.append_assoc]
        have hclear' : ClearBelow info.tokens info.tokenType (s.pretext ++ [text[start]]).length
            (s.pretext ++ text.drop start) := by
          intro k hk
          rw [List.length_append, List.length_singleton] at hk
          rcases Nat.lt_succ_iff_lt_or_eq.mp hk with hk | rfl
          · exact hclear k hk
          · rwa [List.drop_left]
        rw [scanLoop_miss bpeFuel fuel s hlt hr]
        rw [hassoc] at hvalid hclear' ⊢
        apply ih (hs.afterMatch text start) _ hlt _ hvalid hclear'
        · simp only [List.length_append, List.length_singleton]
          omega
        · omega
      · obtain ⟨rest, hrest⟩ := hlong.isPrefix
        obtain ⟨hw0, hascii⟩ := hv.special i w hlong.special
        rw [← hrest] at hvalid hclear hlong ⊢
        have hhead : ∀ x, (w ++ rest).head? = some x → x < 128 := by
          intro x hx
          rw [List.head?_append_of_ne_nil _ hw0] at hx
          exact hascii x (List.mem_of_mem_head? hx)
        obtain ⟨hpend, htail⟩ := hvalid.split fun x hx => isUTF8FirstByte_of_low (hhead x hx)
        have hskip : text.drop (start + w.length) = rest := by
          rw [← List.drop_drop, ← hrest, List.drop_left]
        have hlen := congrArg List.length hrest
        rw [List.length_append, List.length_drop] at hlen
        have hpos := List.length_pos_iff.mpr hw0
        have hshort : s.pretext.length < bpeFuel := by omega
        obtain ⟨pieces, hp, hpieces⟩ := bpe_pieces hm hv hpre ht hpend hshort
        have hname : s.tokenizer.idToTokenMap i = some w := (hs.name i).trans hlong.special.1
        rw [scanLoop_hit bpeFuel fuel s hlt hr hname
          ((ht.bpe_eq (hs.afterMatch text start) _ _).trans hp)]
        have hnext : ClearBelow info.tokens info.tokenType ([] : Bytes).length
            ([] ++ text.drop (start + w.length)) := fun k hk => absurd hk (Nat.not_lt_zero k)
        have hvalid' : Valid ([] ++ text.drop (start + w.length)) := by
          rw [hskip]
          exact htail.drop_ascii hascii
        obtain ⟨s', segs, ls, hok, hscan, hfinal⟩ :=
          @ih _ ⟨s.tokenizer.afterMatch text start, [], s.finalTokens ++ pieces ++ [w]⟩
            (hs.afterMatch text start) (Nat.zero_le _) (by omega) (by omega) hvalid' hnext
        rw [hskip, List.nil_append] at hscan
        refine ⟨s', .plain s.pretext :: .special i w :: segs, pieces :: [w] :: ls, hok, ?_, ?_⟩
        · exact ⟨hscan.built, hscan.pending, .special hclear hlong hscan.cut,
            .cons ⟨hp, hpieces⟩ (.cons ⟨hlong.special, rfl⟩ hscan.tokens)⟩
        · rw [hfinal]
          simp

def TokenizerImpl.idOf (t : TokenizerImpl) (s : Bytes) : ℕ := (t.tokenToIdMap s).getD 0

theorem BuiltFrom.getElem_idOf (h : BuiltFrom info t) (hv : CompleteVocab info) {s : Bytes}
    (hs : s ∈ info.tokens) :
    info.tokens[t.idOf s]? = some s ∧ t.tokenToIdMap s = some (t.idOf s) := by
  obtain ⟨i, hi⟩ := List.getElem?_of_mem hs
  have hmap : t.tokenToIdMap s = some i := by
    rw [h.ids, buildTokenToIdMap, store_zipIdx hv.nodup, hi]
  have hid : t.idOf s = i := by rw [TokenizerImpl.idOf, hmap, Option.getD_some]
  exact ⟨hid ▸ hi, hid ▸ hmap⟩

/-- Tokens of the vocabulary are looked up without a new entry. -/
theorem lookUpIds_eq (h : BuiltFrom info t) (hv : CompleteVocab info) {l : List Bytes}
    (hl : ∀ s ∈ l, s ∈ info.tokens) :
    TokenizerImpl.lookUpIds l t.tokenToIdMap = (l.map t.idOf, t.tokenToIdMap) := by
  induction l with
  | nil => rfl
  | cons s l ih =>
    have hs := (h.getElem_idOf hv (hl s (by simp))).2
    rw [TokenizerImpl.lookUpIds, access_of_some hs]
    simp only [ih fun x hx => hl x (List.mem_cons_of_mem _ hx), List.map_cons]

theorem SegmentTokens.mem {fuel : ℕ} {seg : Segment} {l : List Bytes}
    (h : SegmentTokens info t m fuel seg l) {s : Bytes} (hs : s ∈ l) : s ∈ info.tokens := by
  cases seg with
  | plain w => exact h.2.mem hs
  | special i w =>
    obtain ⟨hspecial, rfl⟩ := h
    rw [List.mem_singleton.mp hs]
    exact List.mem_of_getElem? hspecial.1

theorem segmentTokens_mem {fuel : ℕ} {segs : List Segment} {ls : List (List Bytes)}
    (h : List.Forall₂ (SegmentTokens info t m fuel) segs ls) {s : Bytes} (hs : s ∈ ls.flatten) :
    s ∈ info.tokens := by
  induction h with
  | nil => simp at hs
  | cons hseg _ ih =>
    rcases List.mem_append.mp hs with hs | hs
    · exact hseg.mem hs
    · exact ih hs

theorem tokenize_tokens (hm : m.LeftmostOrdered tbl) (hv : CompleteVocab info)
    (hpre : KnownPre info.pre) (ht : BuiltFrom info t) {text : Bytes} (hvalid : Valid text)
    {fuel : ℕ} (hfuel : text.length < fuel) :
    ∃ segs ls t', t.tokenize m fuel text = .ok (ls.flatten.map t.idOf, t') ∧ BuiltFrom info t' ∧
      LeftmostLongest info.tokens info.tokenType text segs ∧
      List.Forall₂ (SegmentTokens info t m fuel) segs ls := by
  have hclear : ClearBelow info.tokens info.tokenType ([] : Bytes).length ([] ++ text.drop 0) :=
    fun k hk => absurd hk (Nat.not_lt_zero k)
  obtain ⟨s, segs, ls, hok, hscan, hfinal⟩ :=
    @scanLoop_scanned _ _ _ _ hm hv hpre ht text _ hfuel fuel 0 ⟨t, [], []⟩ ht le_rfl
      (Nat.zero_le _) (by omega) hvalid hclear
  rw [List.drop_zero, List.nil_append] at hscan
  rw [List.nil_append] at hfinal
  have hpart : s.pretext.length < fuel := by
    have htext := congrArg List.length hscan.cut.flatMap_text
    rw [List.flatMap_append, List.length_append] at htext
    simp only [List.flatMap_singleton, Segment.text] at htext
    omega
  obtain ⟨pieces, hp, hpieces⟩ := bpe_pieces hm hv hpre ht hscan.pending hpart
  have hlast : TokenizerImpl.lastPieces m fuel s = .ok pieces := by
    rw [TokenizerImpl.lastPieces]
    split_ifs with hpos
    · rw [ht.bpe_eq hscan.built, hp]
    · have hnil := List.length_eq_zero_iff.mp (Nat.eq_zero_of_not_pos hpos)
      obtain ⟨parts, rfl, hflat, hne⟩ := hpieces
      rw [hnil, List.flatten_eq_nil_iff] at hflat
      cases parts with
      | nil => rfl
      | cons w parts => exact absurd (hflat w (by simp)) (hne w (by simp)).1
  have hall : List.Forall₂ (SegmentTokens info t m fuel) (segs ++ [.plain s.pretext])
      (ls ++ [pieces]) := List.rel_append hscan.tokens (.cons ⟨hp, hpieces⟩ .nil)
  have hflat : (ls ++ [pieces]).flatten = ls.flatten ++ pieces := by simp
  have hids : TokenizerImpl.lookUpIds (ls.flatten ++ pieces) s.tokenizer.tokenToIdMap =
      ((ls.flatten ++ pieces).map t.idOf, s.tokenizer.tokenToIdMap) := by
    rw [hscan.built.ids, ← ht.ids]
    apply lookUpIds_eq ht hv
    intro x hx
    exact segmentTokens_mem hall (hflat ▸ hx)
  refine ⟨_, _, s.tokenizer, ?_, hscan.built, hscan.cut, hall⟩
  rw [TokenizerImpl.tokenize, hok, Outcome.ok_bind, hlast, Outcome.ok_bind, hfinal, hids, hflat]

/-- Whether an id is that of a token of another type than `NORMAL`. -/
def isSpecialId (tokenTypes : List ℤ) (i : ℕ) : Bool :=
  tokenTypes[i]?.any fun type => type ≠ TokenType.normal.code

/-- The ids of a segment: those of the merged pieces of a plain one, none of them special, and the
one id of a special one. -/
def SegmentIds (info : TokenizerInfo) (t : TokenizerImpl) (m : Pcre2) (fuel : ℕ) :
    Segment → List ℕ → Prop
  | .plain w, ids => (∃ pieces, t.bpe m fuel w = .ok pieces ∧
      pieces.map t.tokenToIdMap = ids.map some) ∧ ∀ i ∈ ids, isSpecialId info.tokenType i = false
  | .special i _, ids => isSpecialId info.tokenType i = true ∧ ids = [i]

theorem isSpecialId_iff {i : ℕ} {w : Bytes} (hw : info.tokens[i]? = some w) :
    isSpecialId info.tokenType i = true ↔ SpecialAt info.tokens info.tokenType i w := by
  simp [isSpecialId, SpecialAt, hw, Option.any_eq_true]

/-- A piece of a plain segment is not a special token: the scan would have seen it. -/
theorem isSpecialId_piece (hv : CompleteVocab info) {w s : Bytes} {l : List Bytes} {i : ℕ}
    (hclear : ClearBelow info.tokens info.tokenType w.length w) (hl : Pieces info w l)
    (hs : s ∈ l) (hi : info.tokens[i]? = some s) : isSpecialId info.tokenType i = false := by
  by_contra hne
  have hspecial := (isSpecialId_iff hi).mp (by simpa using hne)
  obtain ⟨parts, rfl, rfl, hparts⟩ := hl
  obtain ⟨v, hv', rfl⟩ := List.mem_map.mp hs
  have hself := symbols_ascii rfl (hv.special _ _ hspecial).2
  rw [← hself] at hspecial
  -- the part stands in the segment as it is
  obtain ⟨us, vs, rfl⟩ := List.append_of_mem hv'
  have hpos := List.length_pos_iff.mpr (hparts v hv').1
  have hlt : us.flatten.length < (us ++ v :: vs).flatten.length := by
    simp only [List.flatten_append, List.flatten_cons, List.length_append]
    omega
  apply hclear us.flatten.length hlt i v hspecial (hparts v hv').1
  rw [List.flatten_append, List.drop_left, List.flatten_cons]
  exact List.prefix_append _ _

theorem segmentIds_of_tokens (hv : CompleteVocab info) (ht : BuiltFrom info t) {fuel : ℕ}
    {seg : Segment} {l : List Bytes} (h : SegmentTokens info t m fuel seg l)
    (hclear : ∀ w, seg = .plain w → ClearBelow info.tokens info.tokenType w.length w) :
    SegmentIds info t m fuel seg (l.map t.idOf) := by
  cases seg with
  | plain w =>
    obtain ⟨hbpe, hpieces⟩ := h
    refine ⟨⟨l, hbpe, ?_⟩, ?_⟩
    · rw [List.map_map]
      apply List.map_congr_left
      intro s hs
      exact (ht.getElem_idOf hv (hpieces.mem hs)).2
    · intro i hi
      obtain ⟨s, hs, rfl⟩ := List.mem_map.mp hi
      exact isSpecialId_piece hv (hclear w rfl) hpieces hs
        (ht.getElem_idOf hv (hpieces.mem hs)).1
  | special i w =>
    obtain ⟨hspecial, rfl⟩ := h
    have hid := (ht.getElem_idOf hv (List.mem_of_getElem? hspecial.1)).2
    have hat : t.tokenToIdMap w = some i := by
      rw [ht.ids, buildTokenToIdMap, store_zipIdx hv.nodup, hspecial.1]
    refine ⟨(isSpecialId_iff hspecial.1).mpr hspecial, ?_⟩
    rw [List.map_singleton, Option.some.inj (hid.symm.trans hat)]

/-- Among the ids of the segments the special ones are those of the special segments. -/
theorem filter_segmentIds {fuel : ℕ} {segs : List Segment} {parts : List (List ℕ)}
    (h : List.Forall₂ (SegmentIds info t m fuel) segs parts) :
    parts.flatten.filter (isSpecialId info.tokenType) = segs.filterMap Segment.specialId := by
  induction h with
  | nil => rfl
  | @cons seg ids segs parts hseg _ ih =>
    rw [List.flatten_cons, List.filter_append, ih]
    cases seg with
    | plain w =>
      have hnone : ids.filter (isSpecialId info.tokenType) = [] := by
        rw [List.filter_eq_nil_iff]
        intro i hi
        rw [hseg.2 i hi]
        decide
      rw [hnone]
      rfl
    | special i w =>
      obtain ⟨hspecial, rfl⟩ := hseg
      simp [Segment.specialId, hspecial]

/-- `tokenize` cuts the text at the leftmost longest special tokens, keeps their ids in order, and
returns only ids of other tokens for the plain segments between them. -/
theorem tokenize_segments (hm : m.LeftmostOrdered tbl) (hv : CompleteVocab info)
    (hpre : KnownPre info.pre) (ht : TokenizerImpl.forModel info = .ok t) {text : Bytes}
    (hvalid : Valid text) {fuel : ℕ} (hfuel : text.length < fuel) :
    ∃ segs parts t', LeftmostLongest info.tokens info.tokenType text segs ∧
      t.tokenize m fuel text = .ok (parts.flatten, t') ∧
      List.Forall₂ (SegmentIds info t m fuel) segs parts ∧
      parts.flatten.filter (isSpecialId info.tokenType) = segs.filterMap Segment.specialId := by
  have hbuilt := forModel_builtFrom hv.types ht
  obtain ⟨segs, ls, t', hok, -, hcut, htokens⟩ := tokenize_tokens hm hv hpre hbuilt hvalid hfuel
  have hids : List.Forall₂ (SegmentIds info t m fuel) segs (ls.map (List.map t.idOf)) := by
    rw [List.forall₂_map_right_iff]
    have hclear := fun w hw => hcut.plain_clear (w := w) hw
    clear hok hcut
    induction htokens with
    | nil => exact .nil
    | @cons seg l segs ls hseg _ ih =>
      apply List.Forall₂.cons
      · apply segmentIds_of_tokens hv hbuilt hseg
        rintro w rfl
        exact hclear w (by simp)
      · exact ih fun w hw => hclear w (List.mem_cons_of_mem _ hw)
  refine ⟨segs, _, t', hcut, ?_, hids, filter_segmentIds hids⟩
  rw [hok, List.map_flatten]

theorem tokenize_segments_greeting :
    ∃ t, TokenizerImpl.forModel greetingInfo = .ok t ∧ ∃ segs parts t',
      LeftmostLongest greetingInfo.tokens greetingInfo.tokenType (literal "hi <|>") segs ∧
      t.tokenize (.reference asciiTable) ((literal "hi <|>").length + 1) (literal "hi <|>") =
        .ok (parts.flatten, t') ∧
      List.Forall₂ (SegmentIds greetingInfo t (.reference asciiTable)
        ((literal "hi <|>").length + 1)) segs parts ∧
      parts.flatten.filter (isSpecialId greetingInfo.tokenType) =
        segs.filterMap Segment.specialId := by
  obtain ⟨t, ht⟩ := forModel_ok greetingInfo_complete.types
  exact ⟨t, ht, tokenize_segments (Pcre2.reference_leftmostOrdered asciiTable)
    greetingInfo_complete (.inl rfl) ht (valid_encode _) (Nat.lt_succ_self _)⟩

end ZInferLM.Tokenizer
