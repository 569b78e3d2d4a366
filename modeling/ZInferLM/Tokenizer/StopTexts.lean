import ZInferLM.Tokenizer.Pieces

/-! # Stop texts and plain text

A stop text has a letter in front of a character that is no letter, no number and no space. What
the two patterns match is short or has no such place, so a plain text is never split into a piece
that is a stop text. -/

namespace ZInferLM.Tokenizer
open Library Library.Utf8 Library.OrderedPattern Library.PairMerging

/-- What the character properties are below `128`. -/
structure CharTable.AsciiClasses (tbl : CharTable) : Prop where
  letter : ∀ c : Char, c.val < 128 → tbl.letter c = c.isAlpha
  number : ∀ c : Char, c.val < 128 → tbl.number c = c.isDigit
  graphic : ∀ c : Char, 0x21 ≤ c.val → c.val < 127 → tbl.space c = false

/-- A character that a letter may stand in front of. -/
def CharTable.Goes (tbl : CharTable) (d : Char) : Prop :=
  tbl.letter d = true ∨ tbl.number d = true ∨ tbl.space d = true

/-- No letter stands in front of a character that is in no class. -/
def Unbroken (tbl : CharTable) (cs : List Char) : Prop :=
  cs.Pairwise fun c d => tbl.letter c = true → tbl.Goes d

variable {tbl : CharTable} {cs ds xs : List Char} {n : ℕ}

theorem unbroken_of_goes (h : ∀ d ∈ cs, tbl.Goes d) : Unbroken tbl cs :=
  List.pairwise_of_forall_mem_list fun _ _ d hd _ => h d hd

theorem unbroken_of_not_letter (h : ∀ c ∈ cs, tbl.letter c = false) : Unbroken tbl cs := by
  apply List.pairwise_of_forall_mem_list
  intro c hc d _ hletter
  rw [h c hc] at hletter
  cases hletter

theorem Unbroken.append (hc : Unbroken tbl cs) (hd : Unbroken tbl ds)
    (h : (∀ c ∈ cs, tbl.letter c = false) ∨ ∀ d ∈ ds, tbl.Goes d) :
    Unbroken tbl (cs ++ ds) := by
  rw [Unbroken, List.pairwise_append]
  refine ⟨hc, hd, ?_⟩
  intro c hmem d hmem' hletter
  rcases h with h | h
  · rw [h c hmem] at hletter
    cases hletter
  · exact h d hmem'

namespace Regex

theorem goes_of_crLf {d : Char} (h : tbl.mem crLf d = true) : tbl.Goes d := by
  have hd : d = '\r' ∨ d = '\n' := by
    simpa [CharTable.mem, crLf, CharTable.item] using h
  rcases hd with rfl | rfl
  · exact .inr (.inr tbl.space_cr)
  · exact .inr (.inr tbl.space_lf)

theorem not_letter_of_noneOf {is : List ClassItem} (hletter : ClassItem.letter ∈ is) {c : Char}
    (h : tbl.mem (.noneOf is) c = true) : tbl.letter c = false := by
  rw [CharTable.mem, Bool.not_eq_true', List.any_eq_false] at h
  exact Bool.eq_false_of_not_eq_true (h .letter hletter)

theorem length_contraction {letters : List Char} (h : n ∈ (contraction letters).ends tbl.mem xs) :
    n ≤ letters.length + 1 := by
  have hcls {c : CharClass} {ys : List Char} {j : ℕ}
      (hj : j ∈ (Pattern.cls c).ends tbl.mem ys) : j ≤ 1 := by
    rw [Pattern.ends] at hj
    split_ifs at hj
    · rw [List.mem_singleton.mp hj]
    · cases hj
  induction letters using List.reverseRecOn generalizing n with
  | nil => exact hcls h
  | append_singleton letters c ih =>
    rw [contraction, List.foldl_append] at h
    obtain ⟨k, hk, j, hj, rfl⟩ := (Pattern.mem_seq tbl.mem).mp h
    have := ih hk
    have := hcls hj
    rw [List.length_append, List.length_singleton]
    omega

theorem length_contractions (h : n ∈ contractions.ends tbl.mem xs) : n ≤ 3 := by
  obtain ⟨p, hp, hn⟩ := Pattern.mem_choice tbl.mem (List.cons_ne_nil _ _) h
  simp only [List.mem_cons, List.not_mem_nil, or_false] at hp
  rcases hp with rfl | rfl | rfl | rfl | rfl | rfl | rfl
  all_goals
    have hle := length_contraction hn
    simp only [List.length_cons, List.length_nil] at hle
    omega

theorem unbroken_word (h : n ∈ word.ends tbl.mem xs) : Unbroken tbl (xs.take n) := by
  obtain ⟨k, hk, j, hj, rfl⟩ := (Pattern.mem_seq tbl.mem).mp h
  have hletters : ∀ d ∈ (xs.drop k).take j, tbl.Goes d := fun d hd =>
    .inl (Pattern.mem_of_rep tbl.mem hj d hd)
  rw [List.take_add]
  apply Unbroken.append _ (unbroken_of_goes hletters) (.inr hletters)
  apply unbroken_of_not_letter
  intro c hc
  exact not_letter_of_noneOf (by simp) (Pattern.mem_of_rep tbl.mem hk c hc)

theorem unbroken_digits (h : n ∈ digits.ends tbl.mem xs) : Unbroken tbl (xs.take n) :=
  unbroken_of_goes fun d hd => .inr (.inl (Pattern.mem_of_rep tbl.mem h d hd))

theorem unbroken_other (h : n ∈ other.ends tbl.mem xs) : Unbroken tbl (xs.take n) := by
  obtain ⟨k, hk, j, hj, rfl⟩ := (Pattern.mem_seq tbl.mem).mp h
  have hbreaks : ∀ d ∈ (xs.drop k).take j, tbl.Goes d := fun d hd =>
    goes_of_crLf (Pattern.mem_of_rep tbl.mem hj d hd)
  rw [List.take_add]
  apply Unbroken.append _ (unbroken_of_goes hbreaks) (.inr hbreaks)
  apply unbroken_of_not_letter
  intro c hc
  exact not_letter_of_noneOf (by simp) (Pattern.mem_of_rep tbl.mem hk c hc)

theorem unbroken_blankOther (htbl : tbl.AsciiClasses)
    (h : n ∈ (Pattern.seq (opt (.one (.char ' '))) other).ends tbl.mem xs) :
    Unbroken tbl (xs.take n) := by
  obtain ⟨k, hk, j, hj, rfl⟩ := (Pattern.mem_seq tbl.mem).mp h
  have hblank : ∀ c ∈ xs.take k, tbl.letter c = false := by
    intro c hc
    have hc' : c = ' ' := by
      simpa [CharTable.mem, CharTable.item] using Pattern.mem_of_rep tbl.mem hk c hc
    rw [hc', htbl.letter ' ' (by decide)]
    rfl
  rw [List.take_add]
  exact Unbroken.append (unbroken_of_not_letter hblank) (unbroken_other hj) (.inl hblank)

theorem goes_space {lo : ℕ} {hi : Option ℕ}
    (h : n ∈ (Pattern.rep (.one .space) lo hi).ends tbl.mem xs) :
    ∀ d ∈ xs.take n, tbl.Goes d :=
  fun d hd => .inr (.inr (Pattern.mem_of_rep tbl.mem h d hd))

theorem unbroken_lineBreaks (h : n ∈ lineBreaks.ends tbl.mem xs) : Unbroken tbl (xs.take n) := by
  obtain ⟨k, hk, j, hj, rfl⟩ := (Pattern.mem_seq tbl.mem).mp h
  have hbreaks : ∀ d ∈ (xs.drop k).take j, tbl.Goes d := fun d hd =>
    goes_of_crLf (Pattern.mem_of_rep tbl.mem hj d hd)
  rw [List.take_add]
  exact (unbroken_of_goes (goes_space hk)).append (unbroken_of_goes hbreaks) (.inr hbreaks)

theorem unbroken_trailingSpace (h : n ∈ trailingSpace.ends tbl.mem xs) :
    Unbroken tbl (xs.take n) := by
  obtain ⟨k, hk, j, hj, rfl⟩ := (Pattern.mem_seq tbl.mem).mp h
  have hj0 : j = 0 := by
    rw [Pattern.ends] at hj
    split_ifs at hj
    · cases hj
    · exact List.mem_singleton.mp hj
  rw [hj0, Nat.add_zero]
  exact unbroken_of_goes (goes_space hk)

theorem unbroken_of_alternatives {p : Pattern CharClass}
    (hp : ∀ n, n ∈ p.ends tbl.mem xs → Unbroken tbl (xs.take n))
    (h : n ∈ (Pattern.choice [contractions, word, digits, p, lineBreaks, trailingSpace,
      plus (.one .space)]).ends tbl.mem xs) : n ≤ 3 ∨ Unbroken tbl (xs.take n) := by
  obtain ⟨q, hq, hn⟩ := Pattern.mem_choice tbl.mem (List.cons_ne_nil _ _) h
  simp only [List.mem_cons, List.not_mem_nil, or_false] at hq
  rcases hq with rfl | rfl | rfl | rfl | rfl | rfl | rfl
  · exact .inl (length_contractions hn)
  · exact .inr (unbroken_word hn)
  · exact .inr (unbroken_digits hn)
  · exact .inr (hp n hn)
  · exact .inr (unbroken_lineBreaks hn)
  · exact .inr (unbroken_trailingSpace hn)
  · exact .inr (unbroken_of_goes (goes_space hn))

end Regex

open Regex in
/-- A match of one of the two patterns is short or unbroken. -/
theorem unbroken_of_match (htbl : tbl.AsciiClasses) {pre : Bytes} (hpre : KnownPre pre)
    (h : n ∈ (getPretokenizerRegex pre).ends tbl.mem xs) : n ≤ 3 ∨ Unbroken tbl (xs.take n) := by
  have hne : (literal "llama-bpe") ≠ literal "qwen2" := by decide
  rcases hpre with rfl | rfl
  · rw [getPretokenizerRegex, if_pos rfl, preTokenizerQwen2Regex] at h
    exact unbroken_of_alternatives (fun _ hn => unbroken_blankOther htbl hn) h
  · rw [getPretokenizerRegex, if_neg hne, if_pos rfl, preTokenizerLlamaRegex] at h
    exact unbroken_of_alternatives (fun _ hn => unbroken_other hn) h

variable {t : TokenizerImpl} {m : Pcre2} {fuel : ℕ}

/-- Merging puts the parts of a chunk together. -/
theorem mergeLoop_parts {mergesMap : Bytes → Option ℕ} {parts l : List Bytes}
    (h : TokenizerImpl.mergeLoop mergesMap fuel (parts.map symbols) = .ok l) :
    ∃ parts' : List Bytes, l = parts'.map symbols ∧ parts'.flatten = parts.flatten := by
  induction fuel generalizing parts with
  | zero => cases h
  | succ fuel ih =>
    rcases TokenizerImpl.mergeLoop_succ mergesMap fuel (parts.map symbols) with
      ⟨hok, _⟩ | ⟨p, q, r, hlow, hstep⟩
    · rw [hok] at h
      cases h
      exact ⟨parts, rfl, rfl⟩
    · obtain ⟨v, _, rfl⟩ := List.mem_map.mp hlow.adjacent.mem_left
      obtain ⟨w, _, rfl⟩ := List.mem_map.mp hlow.adjacent.mem_right
      have hmerge : mergeFirst (· ++ ·) (symbols v) (symbols w) (parts.map symbols) =
          (mergeFirst (· ++ ·) v w parts).map symbols :=
        mergeFirst_map symbols_injective symbols_append
      rw [hstep, hmerge] at h
      obtain ⟨parts', hl, hflat⟩ := ih h
      exact ⟨parts', hl, hflat.trans (flatten_mergeFirst v w parts)⟩

theorem splitAndMerge_parts (hbytes : t.byteToUnicodeMap = buildByteToUnicodeMap.byteToUnicode)
    {chunk : Bytes} {l : List Bytes} (h : t.splitAndMerge fuel chunk = .ok l) :
    ∃ parts : List Bytes, l = parts.map symbols ∧ parts.flatten = chunk := by
  have hne : chunk ≠ [] := by
    rintro rfl
    cases h
  have hsingle : chunk.map symbol = (chunk.map fun b => [b]).map symbols := by
    rw [List.map_map]
    apply List.map_congr_left
    intro b _
    exact (List.flatMap_singleton symbol b).symm
  rw [splitAndMerge_eq_mergeLoop hbytes fuel hne, hsingle] at h
  obtain ⟨parts, hl, hflat⟩ := mergeLoop_parts h
  refine ⟨parts, hl, hflat.trans ?_⟩
  rw [← List.flatMap_def, List.flatMap_singleton']

theorem mem_collect {α β : Type} {f : α → Outcome β} {as : List α} {bs : List β}
    (h : Outcome.collect f as = .ok bs) : ∀ b ∈ bs, ∃ a ∈ as, f a = .ok b := by
  induction as generalizing bs with
  | nil =>
    cases h
    exact fun b hb => absurd hb List.not_mem_nil
  | cons a as ih =>
    obtain ⟨b, hb, hrest⟩ := Outcome.bind_eq_ok.mp h
    obtain ⟨bs', hbs, heq⟩ := Outcome.bind_eq_ok.mp hrest
    cases heq
    rw [List.forall_mem_cons]
    refine ⟨⟨a, List.mem_cons_self, hb⟩, fun b' hb' => ?_⟩
    obtain ⟨a', ha', hfa⟩ := ih hbs b' hb'
    exact ⟨a', List.mem_cons_of_mem _ ha', hfa⟩

theorem bpe_part (hbytes : t.byteToUnicodeMap = buildByteToUnicodeMap.byteToUnicode)
    {text : Bytes} {pieces : List Bytes} (h : t.bpe m fuel text = .ok pieces) :
    ∃ chunks, pretokenize m t.re fuel text = .ok chunks ∧
      ∀ p ∈ pieces, ∃ chunk ∈ chunks, ∃ w, w <:+: chunk ∧ symbols w = p := by
  obtain ⟨chunks, hchunks, hrest⟩ := Outcome.bind_eq_ok.mp h
  obtain ⟨ls, hls, heq⟩ := Outcome.bind_eq_ok.mp hrest
  cases heq
  refine ⟨chunks, hchunks, fun p hp => ?_⟩
  obtain ⟨l, hl, hpl⟩ := List.mem_flatten.mp hp
  obtain ⟨chunk, hchunk, hok⟩ := mem_collect hls l hl
  obtain ⟨parts, rfl, rfl⟩ := splitAndMerge_parts hbytes hok
  obtain ⟨w, hw, rfl⟩ := List.mem_map.mp hpl
  exact ⟨_, hchunk, w, List.infix_of_mem_flatten hw, rfl⟩

/-- A letter stands in front of a graphic character that is neither a letter nor a digit. -/
def breaks : List Char → Bool
  | c :: d :: cs =>
    (c.isAlpha && decide (c.val < 128) && decide (0x21 ≤ d.val) && decide (d.val < 127) &&
      !d.isAlpha && !d.isDigit) || breaks (d :: cs)
  | _ => false

theorem not_unbroken_of_breaks (htbl : tbl.AsciiClasses) (h : breaks cs = true) :
    ¬ Unbroken tbl cs := by
  intro hunbroken
  fun_induction breaks cs with
  | case1 c d cs ih =>
    rw [Bool.or_eq_true] at h
    rcases h with h | h
    · simp only [Bool.and_eq_true, decide_eq_true_eq, Bool.not_eq_true'] at h
      obtain ⟨⟨⟨⟨⟨hc, hclow⟩, hdlow⟩, hdhigh⟩, halpha⟩, hdigit⟩ := h
      have hd : d.val < 128 := UInt32.lt_trans hdhigh (by decide)
      have hletter : tbl.letter c = true := by rw [htbl.letter c hclow, hc]
      rcases (List.pairwise_cons.mp hunbroken).1 d List.mem_cons_self hletter with h | h | h
      · rw [htbl.letter d hd, halpha] at h
        cases h
      · rw [htbl.number d hd, hdigit] at h
        cases h
      · rw [htbl.graphic d hdlow hdhigh] at h
        cases h
    · exact ih h (List.pairwise_cons.mp hunbroken).2
  | case2 => cases h

/-- A stop text has a blank, or it is long enough and breaks. -/
theorem stopText_breaks : ∀ s ∈ stopTokenTexts, (0x20 : UInt8) ∈ s ∨
    Ascii s ∧ ∃ cs : List Char, s = encode cs ∧ 4 ≤ cs.length ∧ breaks cs = true := by
  have hall : ∀ s ∈ ["<|im_end|>", "<|endoftext|>", "<|eot_id|>", "<|end_of_text|>", "</s>",
      "[/INST]", "<end_of_turn>", "<eos>", "<｜end of sentence｜>", "<|end|>",
      "<|END_OF_TURN_TOKEN|>"], (0x20 : UInt8) ∈ literal s ∨
        Ascii (literal s) ∧ 4 ≤ s.toList.length ∧ breaks s.toList = true := by
    decide +kernel
  intro s hs
  obtain ⟨name, hname, rfl⟩ := List.mem_map.mp hs
  rcases hall name hname with h | ⟨h, hlen, hbreaks⟩
  · exact .inl h
  · exact .inr ⟨h, name.toList, rfl, hlen, hbreaks⟩

/-- The symbols of a part of an unbroken text are no stop text. -/
theorem symbols_not_stopText (htbl : tbl.AsciiClasses) {w : Bytes} (hw : w <:+: encode cs)
    (hcs : cs.length ≤ 3 ∨ Unbroken tbl cs) : symbols w ∉ stopTokenTexts := by
  intro hstop
  rcases stopText_breaks _ hstop with h | ⟨hascii, ws, hws, hlen, hbreaks⟩
  · exact blank_not_mem_symbols w h
  · have hne : ws ≠ [] := by
      rintro rfl
      cases hbreaks
    rw [symbols_ascii hws (hws ▸ hascii)] at hw
    have hpart := encode_infix hne hw
    rcases hcs with h | h
    · have := hpart.length_le
      omega
    · exact not_unbroken_of_breaks htbl hbreaks (h.sublist hpart.sublist)

/-- The chunks of a text that is split are unbroken or short. -/
theorem pretokenize_unbroken (hm : m.LeftmostOrdered tbl) (htbl : tbl.AsciiClasses) (pre : Bytes)
    {text : Bytes} (hvalid : Valid text) {chunks : List Bytes}
    (h : pretokenize m (getPretokenizerRegex pre) fuel text = .ok chunks) :
    ∀ chunk ∈ chunks, ∃ cs, chunk = encode cs ∧ (cs.length ≤ 3 ∨ Unbroken tbl cs) := by
  obtain ⟨cs, rfl⟩ := hvalid
  by_cases hpre : KnownPre pre
  · have hmatches := @pretokenizeLoop_matches m tbl _ hm (knownPre_covers tbl hpre) fuel [] cs
      chunks h
    intro chunk hchunk
    obtain ⟨xs, n, hn, rfl⟩ := hmatches chunk hchunk
    refine ⟨xs.take n, rfl, (unbroken_of_match htbl hpre hn).imp_left fun hle => ?_⟩
    exact (List.length_take_le n xs).trans hle
  · rw [pretokenize, unknownPre_empty hpre] at h
    cases cs with
    | nil =>
      cases fuel with
      | zero => cases h
      | succ fuel =>
        cases h
        exact fun chunk hchunk => absurd hchunk List.not_mem_nil
    | cons c cs => exact absurd h (pretokenizeLoop_empty hm (List.cons_ne_nil c cs) chunks)

/-- A plain text is not split into a stop text, whatever the merges are. -/
theorem bpe_not_stopText (hm : m.LeftmostOrdered tbl) (htbl : tbl.AsciiClasses) {pre : Bytes}
    (hbytes : t.byteToUnicodeMap = buildByteToUnicodeMap.byteToUnicode)
    (hre : t.re = getPretokenizerRegex pre) {text : Bytes} (hvalid : Valid text)
    {pieces : List Bytes} (h : t.bpe m fuel text = .ok pieces) :
    ∀ p ∈ pieces, p ∉ stopTokenTexts := by
  obtain ⟨chunks, hchunks, hparts⟩ := bpe_part hbytes h
  rw [hre] at hchunks
  intro p hp
  obtain ⟨chunk, hchunk, w, hw, rfl⟩ := hparts p hp
  obtain ⟨cs, rfl, hcs⟩ := pretokenize_unbroken hm htbl pre hvalid hchunks chunk hchunk
  exact symbols_not_stopText htbl hw hcs

end ZInferLM.Tokenizer
