import ZInferLM.Library.OrderedPattern
import ZInferLM.Library.Outcome
import ZInferLM.Library.Utf8

/-! # Splitting a text into chunks

`pretokenize` asks PCRE2 for a match from the current offset on, takes the matched bytes as a
chunk and goes on behind them; without a match one byte is a chunk. PCRE2 is a parameter, and
`LeftmostOrdered` is what its documentation promises about the two patterns used here: on UTF-8 it
reports the leftmost match, and at that place the first one in the order of the alternatives. -/

namespace ZInferLM.Tokenizer
open Library Library.Utf8 Library.OrderedPattern

inductive ClassItem where
  | char (c : Char)
  | letter
  | number
  | space

inductive CharClass where
  | one (i : ClassItem)
  | noCase (c : Char)
  | oneOf (is : List ClassItem)
  | noneOf (is : List ClassItem)

/-- What the character properties of the patterns mean: `\p{L}`, `\p{N}`, `\s` and, for caseless
letters, which characters agree up to case. -/
structure CharTable where
  letter : Char → Bool
  number : Char → Bool
  space : Char → Bool
  sameCase : Char → Char → Bool
  space_cr : space '\r' = true
  space_lf : space '\n' = true

def CharTable.item (tbl : CharTable) : ClassItem → Char → Bool
  | .char d, c => c == d
  | .letter, c => tbl.letter c
  | .number, c => tbl.number c
  | .space, c => tbl.space c

def CharTable.mem (tbl : CharTable) : CharClass → Char → Bool
  | .one i, c => tbl.item i c
  | .noCase d, c => tbl.sameCase d c
  | .oneOf is, c => is.any fun i => tbl.item i c
  | .noneOf is, c => !is.any fun i => tbl.item i c

abbrev Regex := Pattern CharClass

namespace Regex

def plus (c : CharClass) : Regex := .rep c 1 none

def star (c : CharClass) : Regex := .rep c 0 none

def opt (c : CharClass) : Regex := .rep c 0 (some 1)

/-- A quote and caseless letters, as in `'re`. -/
def contraction (letters : List Char) : Regex :=
  letters.foldl (fun p c => .seq p (.cls (.noCase c))) (.cls (.noCase '\''))

def crLf : CharClass := .oneOf [.char '\r', .char '\n']

/-- `(?i:'s|'t|'re|'ve|'m|'ll|'d)` -/
def contractions : Regex := .choice
  [contraction ['s'], contraction ['t'], contraction ['r', 'e'], contraction ['v', 'e'],
    contraction ['m'], contraction ['l', 'l'], contraction ['d']]

/-- `[^\r\n\p{L}\p{N}]?\p{L}+` -/
def word : Regex :=
  .seq (opt (.noneOf [.char '\r', .char '\n', .letter, .number])) (plus (.one .letter))

/-- `\p{N}{1,3}` -/
def digits : Regex := .rep (.one .number) 1 (some 3)

/-- `[^\s\p{L}\p{N}]+[\r\n]*` -/
def other : Regex := .seq (plus (.noneOf [.space, .letter, .number])) (star crLf)

/-- `\s*[\r\n]+` -/
def lineBreaks : Regex := .seq (star (.one .space)) (plus crLf)

/-- `\s+(?!\S)` -/
def trailingSpace : Regex := .seq (plus (.one .space)) (.notAhead (.noneOf [.space]))

end Regex

open Regex in
/-- `(?i:'s|'t|'re|'ve|'m|'ll|'d)|[^\r\n\p{L}\p{N}]?\p{L}+|\p{N}{1,3}| ?[^\s\p{L}\p{N}]+[\r\n]*|`
`\s*[\r\n]+|\s+(?!\S)|\s+` -/
def preTokenizerQwen2Regex : Regex := .choice
  [contractions, word, digits, .seq (opt (.one (.char ' '))) other, lineBreaks, trailingSpace,
    plus (.one .space)]

open Regex in
/-- `(?i:'s|'t|'re|'ve|'m|'ll|'d)|[^\r\n\p{L}\p{N}]?\p{L}+|\p{N}{1,3}|[^\s\p{L}\p{N}]+[\r\n]*|`
`\s*[\r\n]+|\s+(?!\S)|\s+` -/
def preTokenizerLlamaRegex : Regex := .choice
  [contractions, word, digits, other, lineBreaks, trailingSpace, plus (.one .space)]

def literal (s : String) : Bytes := encode s.toList

def getPretokenizerRegex (model : Bytes) : Regex :=
  if model = literal "qwen2" then preTokenizerQwen2Regex
  else if model = literal "llama-bpe" then preTokenizerLlamaRegex
  else .empty

section Coverage
variable (tbl : CharTable)

theorem word_matches {c : Char} (cs : List Char) (h : tbl.letter c = true) :
    Regex.word.Matches tbl.mem (c :: cs) := by
  refine Pattern.matches_seq tbl.mem (Pattern.zero_mem_rep tbl.mem _ _ _) ?_
  exact List.ne_nil_of_mem (Pattern.one_mem_rep tbl.mem h (by simp))

theorem digits_matches {c : Char} (cs : List Char) (h : tbl.number c = true) :
    Regex.digits.Matches tbl.mem (c :: cs) :=
  List.ne_nil_of_mem (Pattern.one_mem_rep tbl.mem h (by rintro m ⟨⟩; decide))

theorem other_matches {c : Char} (cs : List Char) (hs : tbl.space c = false)
    (hl : tbl.letter c = false) (hn : tbl.number c = false) :
    Regex.other.Matches tbl.mem (c :: cs) := by
  have hc : tbl.mem (.noneOf [.space, .letter, .number]) c = true := by
    simp [CharTable.mem, CharTable.item, hs, hl, hn]
  refine Pattern.matches_seq tbl.mem (Pattern.one_mem_rep tbl.mem hc (by simp)) ?_
  exact List.ne_nil_of_mem (Pattern.zero_mem_rep tbl.mem _ _ _)

theorem space_matches {c : Char} (cs : List Char) (h : tbl.space c = true) :
    (Regex.plus (.one .space)).Matches tbl.mem (c :: cs) :=
  List.ne_nil_of_mem (Pattern.one_mem_rep tbl.mem h (by simp))

/-- A choice that offers the four alternatives matches at every character. -/
theorem matches_of_alternatives {alts : List Regex} (hword : Regex.word ∈ alts)
    (hdigits : Regex.digits ∈ alts) (hspace : Regex.plus (.one .space) ∈ alts)
    (hother : ∀ cs, Regex.other.Matches tbl.mem cs → ∃ p ∈ alts, p.Matches tbl.mem cs)
    (c : Char) (cs : List Char) : (Pattern.choice alts).Matches tbl.mem (c :: cs) := by
  cases hl : tbl.letter c with
  | true => exact Pattern.matches_choice tbl.mem hword (word_matches tbl cs hl)
  | false =>
    cases hn : tbl.number c with
    | true => exact Pattern.matches_choice tbl.mem hdigits (digits_matches tbl cs hn)
    | false =>
      cases hs : tbl.space c with
      | true => exact Pattern.matches_choice tbl.mem hspace (space_matches tbl cs hs)
      | false =>
        obtain ⟨p, hp, hm⟩ := hother _ (other_matches tbl cs hs hl hn)
        exact Pattern.matches_choice tbl.mem hp hm

/-- A pattern that matches a non-empty prefix of every non-empty text. -/
def Covers (re : Regex) : Prop := 1 ≤ re.minLength ∧ ∀ c cs, re.Matches tbl.mem (c :: cs)

theorem qwen2_covers : Covers tbl preTokenizerQwen2Regex := by
  refine ⟨by decide, matches_of_alternatives tbl (by simp) (by simp) (by simp) fun cs h => ?_⟩
  refine ⟨.seq (Regex.opt (.one (.char ' '))) Regex.other, by simp, ?_⟩
  exact Pattern.matches_seq tbl.mem (Pattern.zero_mem_rep tbl.mem _ _ _) h

theorem llama_covers : Covers tbl preTokenizerLlamaRegex :=
  ⟨by decide, matches_of_alternatives tbl (by simp) (by simp) (by simp)
    fun _ h => ⟨Regex.other, by simp, h⟩⟩

def KnownPre (pre : Bytes) : Prop := pre = literal "qwen2" ∨ pre = literal "llama-bpe"

theorem knownPre_covers {pre : Bytes} (h : KnownPre pre) : Covers tbl (getPretokenizerRegex pre) := by
  unfold getPretokenizerRegex
  rcases h with rfl | rfl
  · rw [if_pos rfl]
    exact qwen2_covers tbl
  · split
    · exact qwen2_covers tbl
    · rw [if_pos rfl]
      exact llama_covers tbl

end Coverage

/-- What `pcre2_jit_match` returns: a negative code, or the bounds of the match. -/
inductive JitResult where
  | noMatch
  | error (rc : ℤ)
  | found (start stop : ℕ)

/-- The matcher: pattern, subject and start offset. -/
structure Pcre2 where
  jitMatch : Regex → Bytes → ℕ → JitResult

/-- A match in characters behind `before`, as byte offsets of the whole text. -/
def JitResult.ofSearch (before after : List Char) : Option (ℕ × ℕ) → JitResult
  | none => .noMatch
  | some (skipped, len) =>
    .found ((encode before).length + (encode (after.take skipped)).length)
      ((encode before).length + (encode (after.take (skipped + len))).length)

/-- The matcher reports the leftmost match from the start offset on, alternatives in order. -/
def Pcre2.LeftmostOrdered (m : Pcre2) (tbl : CharTable) : Prop :=
  ∀ re before after, m.jitMatch re (encode (before ++ after)) (encode before).length =
    JitResult.ofSearch before after (re.search tbl.mem after)

/-- The loop of `pretokenize` from an offset on. -/
def pretokenizeLoop (m : Pcre2) (re : Regex) (text : Bytes) : ℕ → ℕ → Outcome (List Bytes)
  | 0, _ => .error .outOfFuel
  | fuel + 1, start =>
    if start < text.length then
      match m.jitMatch re text start with
      | .noMatch => do
        let rest ← pretokenizeLoop m re text fuel (start + 1)
        .ok ((text.drop start).take 1 :: rest)
      | .error rc => .error (.thrown s!"PCRE2 matching error code: {rc}")
      | .found matchStart matchEnd => do
        let rest ← pretokenizeLoop m re text fuel matchEnd
        .ok ((text.drop matchStart).take (matchEnd - matchStart) :: rest)
    else .ok []

def pretokenize (m : Pcre2) (re : Regex) (fuel : ℕ) (text : Bytes) : Outcome (List Bytes) :=
  pretokenizeLoop m re text fuel 0

/-- A matcher that reports the leftmost ordered match; it decodes the subject behind the offset. -/
def Pcre2.reference (tbl : CharTable) : Pcre2 where
  jitMatch re text start :=
    let before := decode (text.take start)
    let after := decode (text.drop start)
    .ofSearch before after (re.search tbl.mem after)

theorem Pcre2.reference_leftmostOrdered (tbl : CharTable) :
    (Pcre2.reference tbl).LeftmostOrdered tbl := by
  intro re before after
  simp [reference]

variable {m : Pcre2} {tbl : CharTable} {re : Regex}

/-- At every character the match starts at the offset itself and is not empty. -/
theorem jitMatch_covers (hm : m.LeftmostOrdered tbl) (hre : Covers tbl re) (before : List Char)
    (c : Char) (cs : List Char) :
    ∃ n ∈ re.ends tbl.mem (c :: cs), 1 ≤ n ∧ n ≤ (c :: cs).length ∧
      m.jitMatch re (encode (before ++ c :: cs)) (encode before).length =
        .found (encode before).length
          ((encode before).length + (encode ((c :: cs).take n)).length) := by
  obtain ⟨n, hn, hlo, hhi⟩ := Pattern.search_of_matches tbl.mem (hre.2 c cs)
  refine ⟨n, Pattern.mem_ends_of_search tbl.mem hn, hre.1.trans hlo, hhi, ?_⟩
  rw [hm, hn]
  simp [JitResult.ofSearch]

theorem pretokenizeLoop_cons (hm : m.LeftmostOrdered tbl) (hre : Covers tbl re) (fuel : ℕ)
    (before : List Char) (c : Char) (cs : List Char) :
    ∃ n ∈ re.ends tbl.mem (c :: cs), 1 ≤ n ∧ n ≤ (c :: cs).length ∧
      pretokenizeLoop m re (encode (before ++ c :: cs)) (fuel + 1) (encode before).length =
        pretokenizeLoop m re (encode ((before ++ (c :: cs).take n) ++ (c :: cs).drop n)) fuel
          (encode (before ++ (c :: cs).take n)).length >>= fun rest =>
            .ok (encode ((c :: cs).take n) :: rest) := by
  obtain ⟨n, hends, h1, hn, hmatch⟩ := jitMatch_covers hm hre before c cs
  refine ⟨n, hends, h1, hn, ?_⟩
  have hsplit : (before ++ (c :: cs).take n) ++ (c :: cs).drop n = before ++ c :: cs := by simp
  have hlen : (encode (before ++ (c :: cs).take n)).length =
      (encode before).length + (encode ((c :: cs).take n)).length := by
    rw [encode_append, List.length_append]
  have hlt : (encode before).length < (encode (before ++ c :: cs)).length := by
    rw [encode_append, List.length_append]
    have := length_le_encode (c :: cs)
    simp only [List.length_cons] at this
    omega
  have hchunk : ((encode (before ++ c :: cs)).drop (encode before).length).take
      ((encode before).length + (encode ((c :: cs).take n)).length - (encode before).length) =
        encode ((c :: cs).take n) := by
    rw [encode_append, List.drop_left, Nat.add_sub_cancel_left]
    conv_lhs => rw [← List.take_append_drop n (c :: cs), encode_append]
    rw [List.take_append_drop, List.take_left]
  rw [pretokenizeLoop, if_pos hlt, hmatch, hsplit, hlen]
  simp only
  rw [hchunk]

/-- The chunks are non-empty texts and put together they are the text behind the offset. -/
theorem pretokenizeLoop_chunks (hm : m.LeftmostOrdered tbl) (hre : Covers tbl re) (fuel : ℕ)
    (before after : List Char) (hfuel : after.length < fuel) :
    ∃ chunks : List (List Char),
      pretokenizeLoop m re (encode (before ++ after)) fuel (encode before).length =
        .ok (chunks.map encode) ∧ chunks.flatten = after ∧ ∀ c ∈ chunks, c ≠ [] := by
  induction fuel generalizing before after with
  | zero => exact absurd hfuel (Nat.not_lt_zero _)
  | succ fuel ih =>
    cases after with
    | nil => exact ⟨[], by simp [pretokenizeLoop], rfl, by simp⟩
    | cons c cs =>
      obtain ⟨n, _, h1, hn, hstep⟩ := pretokenizeLoop_cons hm hre fuel before c cs
      obtain ⟨chunks, hok, hflat, hne⟩ := ih (before ++ (c :: cs).take n) ((c :: cs).drop n)
        (by rw [List.length_drop]; omega)
      refine ⟨(c :: cs).take n :: chunks, ?_, ?_, ?_⟩
      · rw [hstep, hok]
        rfl
      · rw [List.flatten_cons, hflat, List.take_append_drop]
      · intro d hd
        rcases List.mem_cons.mp hd with rfl | hd
        · intro he
          rcases List.take_eq_nil_iff.mp he with h0 | h0
          · omega
          · simp at h0
        · exact hne d hd

/-- Every chunk of a text that is split is a match. -/
theorem pretokenizeLoop_matches (hm : m.LeftmostOrdered tbl) (hre : Covers tbl re) {fuel : ℕ}
    {before after : List Char} {chunks : List Bytes}
    (h : pretokenizeLoop m re (encode (before ++ after)) fuel (encode before).length =
      .ok chunks) :
    ∀ chunk ∈ chunks, ∃ xs n, n ∈ re.ends tbl.mem xs ∧ chunk = encode (xs.take n) := by
  induction fuel generalizing before after chunks with
  | zero => cases h
  | succ fuel ih =>
    cases after with
    | nil =>
      rw [List.append_nil, pretokenizeLoop, if_neg (Nat.lt_irrefl _)] at h
      cases h
      exact fun chunk hchunk => absurd hchunk List.not_mem_nil
    | cons c cs =>
      obtain ⟨n, hends, _, _, hstep⟩ := pretokenizeLoop_cons hm hre fuel before c cs
      rw [hstep] at h
      obtain ⟨rest, hrest, hchunks⟩ := Outcome.bind_eq_ok.mp h
      cases hchunks
      rw [List.forall_mem_cons]
      exact ⟨⟨c :: cs, n, hends, rfl⟩, ih hrest⟩

/-- On valid UTF-8 the loop ends, no chunk is empty and the chunks are the text. -/
theorem pretokenize_chunks (hm : m.LeftmostOrdered tbl) (hre : Covers tbl re) {text : Bytes}
    (hv : Valid text) {fuel : ℕ} (hfuel : text.length < fuel) :
    ∃ chunks, pretokenize m re fuel text = .ok chunks ∧ chunks.flatten = text ∧
      ∀ c ∈ chunks, c ≠ [] := by
  obtain ⟨cs, rfl⟩ := hv
  obtain ⟨chunks, hok, hflat, hne⟩ := pretokenizeLoop_chunks hm hre fuel [] cs
    (lt_of_le_of_lt (length_le_encode cs) hfuel)
  refine ⟨chunks.map encode, hok, ?_, ?_⟩
  · rw [← hflat]
    clear hok hflat hne
    induction chunks with
    | nil => rfl
    | cons c chunks ih => simp [ih]
  · intro c hc
    obtain ⟨d, hd, rfl⟩ := List.mem_map.mp hc
    exact fun h => hne d hd (encode_eq_nil.mp h)

/-- The character properties of texts below `128`. -/
def asciiTable : CharTable where
  letter c := c.isAlpha
  number c := c.isDigit
  space c := c.isWhitespace
  sameCase c d := c.toLower == d.toLower
  space_cr := rfl
  space_lf := rfl

theorem unknownPre_empty {pre : Bytes} (h : ¬ KnownPre pre) : getPretokenizerRegex pre = .empty := by
  rw [getPretokenizerRegex, if_neg fun hq => h (.inl hq), if_neg fun hl => h (.inr hl)]

/-- The empty pattern is matched at the same place again and again. -/
theorem pretokenizeLoop_empty (hm : m.LeftmostOrdered tbl) {cs : List Char} (hcs : cs ≠ [])
    {fuel : ℕ} (chunks : List Bytes) : pretokenizeLoop m .empty (encode cs) fuel 0 ≠ .ok chunks := by
  have hsearch : Pattern.search tbl.mem .empty cs = some (0, 0) := by
    cases cs <;> rfl
  have hmatch := hm .empty [] cs
  rw [hsearch] at hmatch
  change m.jitMatch .empty (encode cs) 0 = .found 0 0 at hmatch
  have hpos : 0 < (encode cs).length := List.length_pos_of_ne_nil (mt encode_eq_nil.mp hcs)
  induction fuel generalizing chunks with
  | zero =>
    rintro ⟨⟩
  | succ fuel ih =>
    rw [pretokenizeLoop, if_pos hpos, hmatch]
    intro h
    obtain ⟨rest, hrest, _⟩ := Outcome.bind_eq_ok.mp h
    exact ih rest hrest

/-- A text is split into chunks that are not empty, in no more turns than it has bytes, if and only
if the pretokenizer is a known one or there is nothing to split. -/
theorem pretokenize_progress_iff (hm : m.LeftmostOrdered tbl) (pre : Bytes) {text : Bytes}
    (hv : Valid text) :
    (∃ chunks, pretokenize m (getPretokenizerRegex pre) (text.length + 1) text = .ok chunks ∧
      chunks.length ≤ text.length ∧ (∀ c ∈ chunks, c ≠ []) ∧ chunks.flatten = text) ↔
        KnownPre pre ∨ text = [] := by
  constructor
  · rintro ⟨chunks, hok, -⟩
    by_contra hneither
    obtain ⟨hpre, htext⟩ := not_or.mp hneither
    obtain ⟨cs, rfl⟩ := hv
    rw [pretokenize, unknownPre_empty hpre] at hok
    exact pretokenizeLoop_empty hm (mt encode_eq_nil.mpr htext) chunks hok
  · rintro (hpre | rfl)
    · obtain ⟨chunks, hok, hflat, hne⟩ :=
        pretokenize_chunks hm (knownPre_covers tbl hpre) hv (Nat.lt_succ_self _)
      refine ⟨chunks, hok, ?_, hne, hflat⟩
      -- every chunk has a byte of the text
      have hlengths : ∀ n ∈ chunks.map List.length, 1 ≤ n := by
        rw [List.forall_mem_map]
        exact fun c hc => List.length_pos_of_ne_nil (hne c hc)
      have hcount := List.length_le_sum_of_one_le _ hlengths
      rwa [List.length_map, ← List.length_flatten, hflat] at hcount
    · exact ⟨[], rfl, le_rfl, fun c hc => absurd hc List.not_mem_nil, rfl⟩

theorem pretokenize_progress_iff_llama :
    (∃ chunks, pretokenize (.reference asciiTable) (getPretokenizerRegex (literal "llama-bpe"))
      ((literal "hi").length + 1) (literal "hi") = .ok chunks ∧
        chunks.length ≤ (literal "hi").length ∧ (∀ c ∈ chunks, c ≠ []) ∧
          chunks.flatten = literal "hi") ↔
      KnownPre (literal "llama-bpe") ∨ literal "hi" = [] :=
  pretokenize_progress_iff (Pcre2.reference_leftmostOrdered asciiTable) _ (valid_encode _)

/-- A model whose pretokenizer is called `default` never gets past the first byte. -/
theorem pretokenize_default_stuck : Valid (literal "a") ∧ ∀ fuel chunks,
    pretokenize (.reference asciiTable) (getPretokenizerRegex (literal "default")) fuel
      (literal "a") ≠ .ok chunks := by
  refine ⟨valid_encode _, fun fuel chunks => ?_⟩
  have hunknown : ¬ KnownPre (literal "default") :=
    not_or.mpr ⟨by decide +kernel, by decide +kernel⟩
  rw [pretokenize, unknownPre_empty hunknown]
  exact pretokenizeLoop_empty (Pcre2.reference_leftmostOrdered asciiTable)
    (List.cons_ne_nil _ _) chunks

end ZInferLM.Tokenizer
