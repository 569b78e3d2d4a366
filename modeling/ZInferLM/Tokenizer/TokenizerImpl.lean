import ZInferLM.Library.Lookup
import ZInferLM.Library.Machine
import ZInferLM.Tokenizer.ByteSymbols
import ZInferLM.Tokenizer.Pretokenizer
import ZInferLM.Tokenizer.SpecialTokens

/-! # The tokenizer

Text becomes token ids in four steps: special tokens are cut out, the plain text between them is
split into chunks, the byte symbols of a chunk are merged, and the pieces are looked up. The
maps are those of the object, so a look-up by subscript may add an entry to one. Positions are
numbers here, while the source has them as `int`s (`scanLoopInt`). -/

namespace ZInferLM.Tokenizer
open Library Library.Machine Library.Utf8

/-- The fields of `tokenizer_info_t` that the tokenizer reads. -/
structure TokenizerInfo where
  pre : Bytes
  eosTokenId : ℕ
  bosTokenId : ℕ
  tokens : List Bytes
  merges : List Bytes
  tokenType : List ℤ

structure TokenizerImpl where
  re : Regex
  mergesMap : Bytes → Option ℕ
  byteToUnicodeMap : UInt8 → Bytes
  unicodeToByteMap : Bytes → Option UInt8
  tokenToIdMap : Bytes → Option ℕ
  idToTokenMap : ℕ → Option Bytes
  stopTokens : List Bytes
  splTokenTrie : SpecialTokenTrie
  info : TokenizerInfo

def stopTokenTexts : List Bytes :=
  ["<|im_end|>", "<|endoftext|>",
    "<|eot_id|>", "<|end_of_text|>",
    "</s>", "[/INST]",
    "<end_of_turn>", "<eos>",
    "<｜end of sentence｜>",
    "<|end|>", "<|END_OF_TURN_TOKEN|>"].map literal

def buildMergesMap (merges : List Bytes) : Bytes → Option ℕ := store merges.zipIdx

def buildTokenToIdMap (tokens : List Bytes) : Bytes → Option ℕ := store tokens.zipIdx

def buildIdToTokenMap (tokens : List Bytes) : ℕ → Option Bytes :=
  store (tokens.zipIdx.map Prod.swap)

namespace TokenizerImpl

/-- The tokenizer of a model; building the trie reads one token type for each token. -/
def forModel (info : TokenizerInfo) : Outcome TokenizerImpl := do
  let trie ← SpecialTokenTrie.buildFromTokens info.tokens info.tokenType
  .ok {
    re := getPretokenizerRegex info.pre
    mergesMap := buildMergesMap info.merges
    byteToUnicodeMap := buildByteToUnicodeMap.byteToUnicode
    unicodeToByteMap := buildByteToUnicodeMap.unicodeToByte
    tokenToIdMap := buildTokenToIdMap info.tokens
    idToTokenMap := buildIdToTokenMap info.tokens
    stopTokens := stopTokenTexts
    splTokenTrie := trie
    info := info }

/-- The adjacent pairs with a rank, as index and rank. -/
def rankPairs (mergesMap : Bytes → Option ℕ) : ℕ → List Bytes → List (ℕ × ℕ)
  | i, a :: b :: tokens =>
    (mergesMap (a ++ [0x20] ++ b)).elim [] (fun rank => [(i, rank)]) ++
      rankPairs mergesMap (i + 1) (b :: tokens)
  | _, _ => []

/-- `std::min_element` by rank: the first of the smallest. -/
def minElement : List (ℕ × ℕ) → Option (ℕ × ℕ)
  | [] => none
  | p :: ps => some (ps.foldl (fun best q => if q.2 < best.2 then q else best) p)

/-- Append the token behind an index to the one at the index, and erase it. -/
def mergeAt : ℕ → List Bytes → List Bytes
  | 0, a :: b :: tokens => (a ++ b) :: tokens
  | i + 1, a :: tokens => a :: mergeAt i tokens
  | _, tokens => tokens

def mergeLoop (mergesMap : Bytes → Option ℕ) : ℕ → List Bytes → Outcome (List Bytes)
  | 0, _ => .error .outOfFuel
  | fuel + 1, tokens =>
    match minElement (rankPairs mergesMap 0 tokens) with
    | none => .ok tokens
    | some (mergeIndex, _) => mergeLoop mergesMap fuel (mergeAt mergeIndex tokens)

/-- On an empty chunk the bound `tokens.size() - 1` wraps and the loop reads past the end. -/
def splitAndMerge (t : TokenizerImpl) (fuel : ℕ) (chunk : Bytes) : Outcome (List Bytes) :=
  match chunk.map t.byteToUnicodeMap with
  | [] => .error (.undefined "tokens[0]")
  | tokens => mergeLoop t.mergesMap fuel tokens

/-- The pieces of a plain text, appended to the tokens by the caller. -/
def bpe (t : TokenizerImpl) (m : Pcre2) (fuel : ℕ) (text : Bytes) : Outcome (List Bytes) := do
  let chunks ← pretokenize m t.re fuel text
  let pieces ← Outcome.collect (t.splitAndMerge fuel) chunks
  .ok pieces.flatten

structure Scan where
  tokenizer : TokenizerImpl
  pretext : Bytes
  finalTokens : List Bytes

/-- The loop of `tokenize` from an offset on. -/
def scanLoop (m : Pcre2) (bpeFuel : ℕ) (text : Bytes) : ℕ → ℕ → Scan → Outcome Scan
  | 0, _, _ => .error .outOfFuel
  | fuel + 1, start, s =>
    if h : start < text.length then
      let found := s.tokenizer.splTokenTrie.matchAt text start text.length
      let t := { s.tokenizer with splTokenTrie := found.2 }
      if 0 ≤ found.1 then do
        let spl := access t.idToTokenMap found.1.toNat []
        let pieces ← t.bpe m bpeFuel s.pretext
        scanLoop m bpeFuel text fuel (start + spl.1.length)
          ⟨{ t with idToTokenMap := spl.2 }, [], s.finalTokens ++ pieces ++ [spl.1]⟩
      else
        scanLoop m bpeFuel text fuel (start + 1) ⟨t, s.pretext ++ [text[start]], s.finalTokens⟩
    else .ok s

/-- Look the tokens up by subscript, in order; an unknown one gets the id `0`. -/
def lookUpIds : List Bytes → (Bytes → Option ℕ) → List ℕ × (Bytes → Option ℕ)
  | [], m => ([], m)
  | t :: ts, m =>
    let id := access m t 0
    let rest := lookUpIds ts id.2
    (id.1 :: rest.1, rest.2)

/-- The pieces of the text behind the last special token, if there is any. -/
def lastPieces (m : Pcre2) (fuel : ℕ) (s : Scan) : Outcome (List Bytes) :=
  if 0 < s.pretext.length then s.tokenizer.bpe m fuel s.pretext else .ok []

def tokenize (t : TokenizerImpl) (m : Pcre2) (fuel : ℕ) (text : Bytes) :
    Outcome (List ℕ × TokenizerImpl) := do
  let s ← scanLoop m fuel text fuel 0 ⟨t, [], []⟩
  let pieces ← lastPieces m fuel s
  let ids := lookUpIds (s.finalTokens ++ pieces) s.tokenizer.tokenToIdMap
  .ok (ids.1, { s.tokenizer with tokenToIdMap := ids.2 })

/-- The loop of `tokenize` with positions of type `int`: the end of the text is narrowed for `match`,
and `start++` may overflow. -/
def scanLoopInt (m : Pcre2) (bpeFuel : ℕ) (text : Bytes) : ℕ → ℤ → Scan → Outcome Scan
  | 0, _, _ => .error .outOfFuel
  | fuel + 1, start, s =>
    -- a negative position is compared as a large `size_t`
    if h : 0 ≤ start ∧ start.toNat < text.length then
      let found := s.tokenizer.splTokenTrie.matchAt text start.toNat (toInt text.length).toNat
      let t := { s.tokenizer with splTokenTrie := found.2 }
      if 0 ≤ found.1 then do
        let spl := access t.idToTokenMap found.1.toNat []
        let pieces ← t.bpe m bpeFuel s.pretext
        scanLoopInt m bpeFuel text fuel (toInt (start + spl.1.length))
          ⟨{ t with idToTokenMap := spl.2 }, [], s.finalTokens ++ pieces ++ [spl.1]⟩
      else do
        let next ← addInt start 1
        scanLoopInt m bpeFuel text fuel next
          ⟨t, s.pretext ++ [text[start.toNat]], s.finalTokens⟩
    else .ok s

def tokenizeInt (t : TokenizerImpl) (m : Pcre2) (fuel : ℕ) (text : Bytes) :
    Outcome (List ℕ × TokenizerImpl) := do
  let s ← scanLoopInt m fuel text fuel 0 ⟨t, [], []⟩
  let pieces ← lastPieces m fuel s
  let ids := lookUpIds (s.finalTokens ++ pieces) s.tokenizer.tokenToIdMap
  .ok (ids.1, { s.tokenizer with tokenToIdMap := ids.2 })

def decode (t : TokenizerImpl) (tokenId : ℕ) : Bytes :=
  (t.idToTokenMap tokenId).elim [] (unicodeToChars t.unicodeToByteMap)

def isStopToken (t : TokenizerImpl) (token : Bytes) : Bool :=
  t.stopTokens.contains token && (t.tokenToIdMap token).isSome

def getBos (t : TokenizerImpl) : Bytes := (t.idToTokenMap t.info.bosTokenId).getD []

/-- The source looks up the id of the beginning of the sequence here too. -/
def getEos (t : TokenizerImpl) : Bytes := (t.idToTokenMap t.info.bosTokenId).getD []

end TokenizerImpl

end ZInferLM.Tokenizer
