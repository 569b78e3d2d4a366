import ZInferLM.Library.PairMerging
import ZInferLM.Tokenizer.TokenizerImpl

/-! # Merging as in GPT-2

`split_and_merge_` joins the leftmost pair of lowest rank and ranks the tokens again. The GPT-2
algorithm joins all occurrences of that pair in one round. Both use the same ranks, and on a merge
list in training order they end in the same tokens. -/

namespace ZInferLM.Tokenizer
open Library Library.Utf8 Library.PairMerging

/-- The key under which two adjacent tokens are looked up. -/
def mergeKey (p q : Bytes) : Bytes := p ++ [0x20] ++ q

/-- The two halves of a merge entry, cut at its first blank. -/
def splitEntry (entry : Bytes) : Bytes × Bytes :=
  (entry.takeWhile (· ≠ 0x20), (entry.dropWhile (· ≠ 0x20)).drop 1)

/-- The `bpe_ranks` of GPT-2: pairs of strings with their position in the merge list. -/
def bpeRanks (merges : List Bytes) (p q : Bytes) : Option ℕ :=
  store (merges.map splitEntry).zipIdx (p, q)

/-- The reference algorithm on the symbols of a chunk. -/
def gpt2Bpe (merges : List Bytes) (fuel : ℕ) (chunk : Bytes) : Option (List Bytes) :=
  mergeRounds (· ++ ·) (bpeRanks merges) fuel (chunk.map symbol)

/-- A merge list as training leaves it: no entry twice, both halves strings of symbols, and a half
that is itself a joined pair was joined before. -/
structure TrainedMerges (merges : List Bytes) : Prop where
  nodup : merges.Nodup
  halves : ∀ e ∈ merges, ∃ v w, v ≠ [] ∧ w ≠ [] ∧ e = mergeKey (symbols v) (symbols w)
  order : ∀ (i j : ℕ) (p q v w : Bytes), merges[i]? = some (mergeKey p q) →
    merges[j]? = some (mergeKey v w) → v ++ w = p ∨ v ++ w = q → j < i

theorem splitEntry_mergeKey {p : Bytes} (q : Bytes) (hp : (0x20 : UInt8) ∉ p) :
    splitEntry (mergeKey p q) = (p, q) := by
  have hall : ∀ b ∈ p, decide (b ≠ 0x20) = true := by
    intro b hb
    apply decide_eq_true
    rintro rfl
    exact hp hb
  rw [splitEntry, mergeKey, List.append_assoc, List.takeWhile_append_of_pos hall,
    List.dropWhile_append_of_pos hall]
  simp

/-- A key with one blank comes from one pair. -/
theorem mergeKey_inj {p q v w : Bytes} (hv : (0x20 : UInt8) ∉ v) (hw : (0x20 : UInt8) ∉ w)
    (h : mergeKey p q = mergeKey v w) : p = v ∧ q = w := by
  have hp : (0x20 : UInt8) ∉ p := by
    intro hp
    have hcount := congrArg (List.count 0x20) h
    have := List.count_pos_iff.mpr hp
    simp only [mergeKey, List.count_append, List.count_singleton_self,
      List.count_eq_zero.mpr hv, List.count_eq_zero.mpr hw] at hcount
    omega
  have hsplit := congrArg splitEntry h
  rw [splitEntry_mergeKey q hp, splitEntry_mergeKey w hv] at hsplit
  exact Prod.mk.inj hsplit

variable {merges : List Bytes}

theorem TrainedMerges.splitEntry_eq (h : TrainedMerges merges) {e p q : Bytes} (he : e ∈ merges) :
    splitEntry e = (p, q) ↔ e = mergeKey p q := by
  obtain ⟨v, w, -, -, rfl⟩ := h.halves e he
  have hv := blank_not_mem_symbols v
  have hw := blank_not_mem_symbols w
  rw [splitEntry_mergeKey _ hv]
  constructor
  · intro heq
    obtain ⟨rfl, rfl⟩ := Prod.mk.inj heq
    rfl
  · intro heq
    obtain ⟨rfl, rfl⟩ := mergeKey_inj hv hw heq.symm
    rfl

theorem TrainedMerges.nodup_split (h : TrainedMerges merges) : (merges.map splitEntry).Nodup := by
  apply List.Nodup.map_on _ h.nodup
  intro a ha b hb hab
  have hkey : a = mergeKey (splitEntry b).1 (splitEntry b).2 := (h.splitEntry_eq ha).mp hab
  rw [hkey]
  exact ((h.splitEntry_eq hb).mp rfl).symm

/-- A pair has the rank at which its key stands in the list. -/
theorem TrainedMerges.bpeRanks_eq_some (h : TrainedMerges merges) {p q : Bytes} {r : ℕ} :
    bpeRanks merges p q = some r ↔ merges[r]? = some (mergeKey p q) := by
  rw [bpeRanks, store_zipIdx h.nodup_split, List.getElem?_map, Option.map_eq_some_iff]
  constructor
  · rintro ⟨e, he, hsplit⟩
    rw [he, (h.splitEntry_eq (List.mem_of_getElem? he)).mp hsplit]
  · intro hr
    exact ⟨_, hr, (h.splitEntry_eq (List.mem_of_getElem? hr)).mpr rfl⟩

/-- The code and the reference rank every pair alike. -/
theorem TrainedMerges.rank_eq (h : TrainedMerges merges) :
    (fun p q => buildMergesMap merges (mergeKey p q)) = bpeRanks merges := by
  funext p q
  ext r
  rw [h.bpeRanks_eq_some, buildMergesMap, store_zipIdx h.nodup]

/-- Training order makes the joined pair of a merge rank above the merge. -/
theorem TrainedMerges.ordered (h : TrainedMerges merges) :
    Ordered (· ++ ·) (bpeRanks merges) := by
  constructor
  · intro a b c d r hab hcd
    rw [h.bpeRanks_eq_some] at hab hcd
    have hmem := List.mem_of_getElem? hab
    have hkey := (h.splitEntry_eq hmem).mpr (Option.some.inj (hab.symm.trans hcd))
    rw [(h.splitEntry_eq hmem).mpr rfl] at hkey
    exact Prod.mk.inj hkey
  · intro p q x r s hr hs
    rw [h.bpeRanks_eq_some] at hr hs
    exact h.order s r _ _ _ _ hs hr (.inl rfl)
  · intro p q x r s hr hs
    rw [h.bpeRanks_eq_some] at hr hs
    exact h.order s r _ _ _ _ hs hr (.inr rfl)

def pairEntry (vw : Bytes × Bytes) : Bytes := mergeKey (symbols vw.1) (symbols vw.2)

theorem pairEntry_eq_mergeKey {vw : Bytes × Bytes} {p q : Bytes} (h : pairEntry vw = mergeKey p q) :
    p = symbols vw.1 ∧ q = symbols vw.2 :=
  mergeKey_inj (blank_not_mem_symbols _) (blank_not_mem_symbols _) h.symm

theorem pairEntry_injective : Function.Injective pairEntry := by
  intro vw pq h
  obtain ⟨h1, h2⟩ := pairEntry_eq_mergeKey h
  exact Prod.ext (symbols_injective h1.symm) (symbols_injective h2.symm)

/-- Pairs of byte strings in training order give a trained merge list. -/
theorem trainedMerges_pairs {pairs : List (Bytes × Bytes)} (hnodup : pairs.Nodup)
    (hhalves : ∀ vw ∈ pairs, vw.1 ≠ [] ∧ vw.2 ≠ [])
    (horder : ∀ i < pairs.length, ∀ j < pairs.length, ∀ vw ∈ pairs[i]?, ∀ xy ∈ pairs[j]?,
      xy.1 ++ xy.2 = vw.1 ∨ xy.1 ++ xy.2 = vw.2 → j < i) :
    TrainedMerges (pairs.map pairEntry) := by
  constructor
  · exact hnodup.map pairEntry_injective
  · intro e he
    obtain ⟨vw, hvw, rfl⟩ := List.mem_map.mp he
    exact ⟨vw.1, vw.2, (hhalves vw hvw).1, (hhalves vw hvw).2, rfl⟩
  · intro i j p q v w hi hj hpart
    rw [List.getElem?_map, Option.map_eq_some_iff] at hi hj
    obtain ⟨vw, hvw, hi⟩ := hi
    obtain ⟨xy, hxy, hj⟩ := hj
    obtain ⟨rfl, rfl⟩ := pairEntry_eq_mergeKey hi
    obtain ⟨rfl, rfl⟩ := pairEntry_eq_mergeKey hj
    rw [← symbols_append] at hpart
    apply horder i (List.getElem?_eq_some_iff.mp hvw).1 j (List.getElem?_eq_some_iff.mp hxy).1
      vw hvw xy hxy
    exact hpart.imp (fun h => symbols_injective h) (fun h => symbols_injective h)

namespace TokenizerImpl

/-- The fold keeps the first of the smallest: its start unless the rest has a smaller one. -/
theorem foldl_minElement (p : ℕ × ℕ) (ps : List (ℕ × ℕ)) :
    ps.foldl (fun best q => if q.2 < best.2 then q else best) p =
      (minElement ps).elim p fun q => if q.2 < p.2 then q else p := by
  induction ps generalizing p with
  | nil => rfl
  | cons q ps ih =>
    rw [List.foldl_cons, minElement, ih, ih q]
    cases minElement ps with
    | none => rfl
    | some m =>
      simp only [Option.elim_some]
      split_ifs <;> first | rfl | omega

theorem minElement_cons (p : ℕ × ℕ) (ps : List (ℕ × ℕ)) :
    minElement (p :: ps) = some ((minElement ps).elim p fun q => if q.2 < p.2 then q else p) := by
  rw [minElement, foldl_minElement]

variable (mergesMap : Bytes → Option ℕ)

def pairRank (p q : Bytes) : Option ℕ := mergesMap (mergeKey p q)

theorem rankPairs_cons (i : ℕ) (a b : Bytes) (l : List Bytes) :
    rankPairs mergesMap i (a :: b :: l) =
      (pairRank mergesMap a b).elim [] (fun rank => [(i, rank)]) ++
        rankPairs mergesMap (i + 1) (b :: l) := rfl

theorem mergeFirst_cons {a b p q : Bytes} {l : List Bytes} (h : ¬(a = p ∧ b = q)) :
    mergeFirst (· ++ ·) p q (a :: b :: l) = a :: mergeFirst (· ++ ·) p q (b :: l) := by
  rw [mergeFirst, if_neg h]

/-- The chosen index is that of the leftmost occurrence of the lowest pair. -/
theorem minElement_rankPairs (i : ℕ) (l : List Bytes) :
    (minElement (rankPairs mergesMap i l) = none ∧ Final (pairRank mergesMap) l) ∨
      ∃ k p q r, minElement (rankPairs mergesMap i l) = some (i + k, r) ∧
        IsLowest (pairRank mergesMap) l p q r ∧ mergeAt k l = mergeFirst (· ++ ·) p q l := by
  induction l generalizing i with
  | nil => exact .inl ⟨rfl, fun c d hcd => by simp at hcd⟩
  | cons a l ih =>
    cases l with
    | nil => exact .inl ⟨rfl, fun c d hcd => by simp at hcd⟩
    | cons b l =>
      rw [rankPairs_cons]
      have hfront : mergeAt 0 (a :: b :: l) = mergeFirst (· ++ ·) a b (a :: b :: l) := by
        rw [mergeFirst, if_pos ⟨rfl, rfl⟩]
        rfl
      rcases ih (i + 1) with ⟨hn, hf⟩ | ⟨k, p, q, s, he, hl, hm⟩
      · cases hr : pairRank mergesMap a b with
        | none =>
          refine .inl ⟨hn, fun c d hcd => ?_⟩
          rcases adjacent_cons.mp hcd with ⟨rfl, rfl⟩ | hcd
          · exact hr
          · exact hf c d hcd
        | some r =>
          refine .inr ⟨0, a, b, r, ?_, .front hr fun c d t hcd ht => ?_, hfront⟩
          · change minElement ((i, r) :: rankPairs mergesMap (i + 1) (b :: l)) = _
            rw [minElement_cons, hn]
            rfl
          · rw [hf c d hcd] at ht
            cases ht
      · have hlater : ¬(a = p ∧ b = q) → mergeAt (k + 1) (a :: b :: l) =
            mergeFirst (· ++ ·) p q (a :: b :: l) := by
          intro hne
          rw [mergeFirst_cons hne, ← hm]
          rfl
        have hindex : i + 1 + k = i + (k + 1) := by omega
        cases hr : pairRank mergesMap a b with
        | none =>
          refine .inr ⟨k + 1, p, q, s, hindex ▸ he, hl.later fun r h => ?_, hlater ?_⟩
          · rw [hr] at h
            cases h
          · rintro ⟨rfl, rfl⟩
            rw [hl.ranked] at hr
            cases hr
        | some r =>
          have hmin : minElement ((i, r) :: rankPairs mergesMap (i + 1) (b :: l)) =
              some (if s < r then (i + (k + 1), s) else (i, r)) := by
            rw [minElement_cons, he, hindex]
            rfl
          by_cases hlt : s < r
          · rw [if_pos hlt] at hmin
            refine .inr ⟨k + 1, p, q, s, hmin, hl.later fun t ht => ?_, hlater ?_⟩
            · rw [hr, Option.some.injEq] at ht
              omega
            · rintro ⟨rfl, rfl⟩
              rw [hl.ranked, Option.some.injEq] at hr
              omega
          · rw [if_neg hlt] at hmin
            refine .inr ⟨0, a, b, r, hmin, .front hr fun c d t hcd ht => ?_, hfront⟩
            exact (not_lt.mp hlt).trans (hl.le c d t hcd ht)

/-- One turn ends the loop or joins the leftmost occurrence of the lowest pair. -/
theorem mergeLoop_succ (fuel : ℕ) (l : List Bytes) :
    (mergeLoop mergesMap (fuel + 1) l = .ok l ∧ Final (pairRank mergesMap) l) ∨
      ∃ p q r, IsLowest (pairRank mergesMap) l p q r ∧
        mergeLoop mergesMap (fuel + 1) l = mergeLoop mergesMap fuel (mergeFirst (· ++ ·) p q l) := by
  rw [mergeLoop]
  rcases minElement_rankPairs mergesMap 0 l with ⟨hn, hf⟩ | ⟨k, p, q, r, he, hl, hm⟩
  · exact .inl ⟨by rw [hn], hf⟩
  · refine .inr ⟨p, q, r, hl, ?_⟩
    rw [he, ← hm, Nat.zero_add]

/-- Every turn shortens the tokens, so the loop ends, and where merging leftmost pairs ends. -/
theorem mergeLoop_leftmost {fuel : ℕ} {l : List Bytes} (hfuel : l.length < fuel) :
    ∃ n, mergeLoop mergesMap fuel l = .ok n ∧ Leftmost (· ++ ·) (pairRank mergesMap) l n := by
  induction fuel generalizing l with
  | zero => exact absurd hfuel (Nat.not_lt_zero _)
  | succ fuel ih =>
    rcases mergeLoop_succ mergesMap fuel l with ⟨hok, hf⟩ | ⟨p, q, r, hl, hstep⟩
    · exact ⟨l, hok, .done hf⟩
    · have hlen := @length_mergeFirst _ _ (· ++ ·) p q l hl.adjacent
      obtain ⟨n, hok, hn⟩ := ih (l := mergeFirst (· ++ ·) p q l) (by omega)
      exact ⟨n, hstep.trans hok, .step hl hn⟩

end TokenizerImpl

theorem forModel_maps {info : TokenizerInfo} {t : TokenizerImpl}
    (ht : TokenizerImpl.forModel info = .ok t) :
    t.mergesMap = buildMergesMap info.merges ∧
      t.byteToUnicodeMap = buildByteToUnicodeMap.byteToUnicode ∧
      t.unicodeToByteMap = buildByteToUnicodeMap.unicodeToByte ∧
      t.tokenToIdMap = buildTokenToIdMap info.tokens ∧
      t.idToTokenMap = buildIdToTokenMap info.tokens ∧
      t.re = getPretokenizerRegex info.pre ∧
      SpecialTokenTrie.buildFromTokens info.tokens info.tokenType = .ok t.splTokenTrie := by
  obtain ⟨trie, htrie, hok⟩ := Outcome.bind_eq_ok.mp ht
  cases hok
  exact ⟨rfl, rfl, rfl, rfl, rfl, rfl, htrie⟩

theorem splitAndMerge_eq_mergeLoop {t : TokenizerImpl}
    (hmap : t.byteToUnicodeMap = buildByteToUnicodeMap.byteToUnicode) (fuel : ℕ) {chunk : Bytes}
    (hc : chunk ≠ []) :
    t.splitAndMerge fuel chunk = TokenizerImpl.mergeLoop t.mergesMap fuel (chunk.map symbol) := by
  have hsym : buildByteToUnicodeMap.byteToUnicode = symbol := funext byteToUnicode_eq
  cases chunk with
  | nil => exact absurd rfl hc
  | cons b chunk => rw [TokenizerImpl.splitAndMerge, hmap, hsym, List.map_cons]

/-- On a trained merge list `split_and_merge_` ends with the tokens of the GPT-2 algorithm. -/
theorem splitAndMerge_eq_gpt2Bpe {info : TokenizerInfo} {t : TokenizerImpl}
    (ht : TokenizerImpl.forModel info = .ok t) (hm : TrainedMerges info.merges) {chunk : Bytes}
    (hc : chunk ≠ []) {fuel rounds : ℕ} (hfuel : chunk.length < fuel)
    (hrounds : chunk.length < rounds) :
    ∃ tokens, t.splitAndMerge fuel chunk = .ok tokens ∧
      gpt2Bpe info.merges rounds chunk = some tokens := by
  obtain ⟨hmerges, hbytes, -⟩ := forModel_maps ht
  have hlen : (chunk.map symbol).length = chunk.length := List.length_map ..
  obtain ⟨n, hok, hleft⟩ := TokenizerImpl.mergeLoop_leftmost t.mergesMap
    (hlen.symm ▸ hfuel : (chunk.map symbol).length < fuel)
  obtain ⟨n', hsome, hround⟩ := @mergeRounds_spec _ _ (· ++ ·) (bpeRanks info.merges) _ rounds
    (hlen.symm ▸ hrounds : (chunk.map symbol).length < rounds)
  have hrank : TokenizerImpl.pairRank t.mergesMap = bpeRanks info.merges := by
    rw [hmerges, ← hm.rank_eq]
    rfl
  rw [hrank] at hleft
  have hsame := hm.ordered.rounds_unique (hm.ordered.rounds_of_leftmost hleft) hround
  refine ⟨n, ?_, ?_⟩
  · rw [splitAndMerge_eq_mergeLoop hbytes fuel hc, hok]
  · rw [gpt2Bpe, hsome, hsame]

/-- Two merges that meet in overlapping runs: `a a`, then `aa aa`. -/
def doublingInfo : TokenizerInfo where
  pre := literal "qwen2"
  eosTokenId := 0
  bosTokenId := 0
  tokens := []
  merges := [([97], [97]), ([97, 97], [97, 97])].map pairEntry
  tokenType := []

theorem splitAndMerge_eq_gpt2Bpe_doubling :
    ∃ t, TokenizerImpl.forModel doublingInfo = .ok t ∧ ∃ tokens,
      t.splitAndMerge 8 [97, 97, 97, 97, 97, 97, 97] = .ok tokens ∧
        gpt2Bpe doublingInfo.merges 8 [97, 97, 97, 97, 97, 97, 97] = some tokens := by
  refine ⟨_, rfl, splitAndMerge_eq_gpt2Bpe rfl ?_ (by decide) (by decide) (by decide)⟩
  exact trainedMerges_pairs (by decide) (by decide) (by decide)

end ZInferLM.Tokenizer
