import ZInferLM.Tokenizer.RoundTrip
import ZInferLM.Tokenizer.StopTexts

/-! # A tokenizer and its history

Tokenizing leaves entries behind in the two maps and in the trie. What a later call returns does
not depend on them: a default entry reads like a missing one, a null child ends no token, and the
pieces that are looked up are no stop texts, unless the vocabulary has them. -/

namespace ZInferLM.Tokenizer
open Library Library.Utf8

inductive Call where
  | tokenize (fuel : ℕ) (text : Bytes)
  | decode (tokenId : ℕ)
  | isStopToken (token : Bytes)

inductive Answer where
  | ids (ids : List ℕ)
  | text (text : Bytes)
  | stop (stop : Bool)
  deriving DecidableEq

namespace TokenizerImpl

/-- What a call returns, and the tokenizer behind it. -/
def call (t : TokenizerImpl) (m : Pcre2) : Call → Outcome (Answer × TokenizerImpl)
  | .tokenize fuel text => do
    let r ← t.tokenize m fuel text
    .ok (.ids r.1, r.2)
  | .decode tokenId => .ok (.text (t.decode tokenId), t)
  | .isStopToken token => .ok (.stop (t.isStopToken token), t)

def afterCalls (t : TokenizerImpl) (m : Pcre2) : List Call → Outcome TokenizerImpl
  | [] => .ok t
  | c :: cs => do
    let r ← t.call m c
    r.2.afterCalls m cs

/-- The second tokenizer reads like the first one. -/
structure Alike (t u : TokenizerImpl) : Prop where
  re : u.re = t.re
  merges : u.mergesMap = t.mergesMap
  bytes : u.byteToUnicodeMap = t.byteToUnicodeMap
  unbytes : u.unicodeToByteMap = t.unicodeToByteMap
  stops : u.stopTokens = t.stopTokens
  ids : ∀ s, (u.tokenToIdMap s).getD 0 = (t.tokenToIdMap s).getD 0
  names : ∀ i, (u.idToTokenMap i).getD [] = (t.idToTokenMap i).getD []
  known : ∀ s ∈ t.stopTokens, (u.tokenToIdMap s).isSome = true ↔ (t.tokenToIdMap s).isSome = true
  trie : ∀ w, u.splTokenTrie.root.find w = t.splTokenTrie.root.find w

variable {t u : TokenizerImpl} {m : Pcre2}

theorem Alike.refl (t : TokenizerImpl) : Alike t t :=
  ⟨rfl, rfl, rfl, rfl, rfl, fun _ => rfl, fun _ => rfl, fun _ _ => Iff.rfl, fun _ => rfl⟩

theorem Alike.matchAt_fst (h : Alike t u) (text : Bytes) (start stop : ℕ) :
    (u.splTokenTrie.matchAt text start stop).1 = (t.splTokenTrie.matchAt text start stop).1 :=
  TrieNode.walk_fst_congr h.trie _ _

/-- Looking a text up in the trie leaves no trace. -/
theorem Alike.matched (h : Alike t u) (text : Bytes) (start stop : ℕ) :
    Alike t { u with splTokenTrie := (u.splTokenTrie.matchAt text start stop).2 } := by
  refine { h with trie := ?_ }
  intro w
  rw [← h.trie w]
  exact TrieNode.find_walk _ _ _ _

theorem Alike.named (h : Alike t u) (i : ℕ) :
    Alike t { u with idToTokenMap := (access u.idToTokenMap i []).2 } := by
  refine { h with names := ?_ }
  intro j
  rw [← h.names j]
  exact access_getD _ _ _ _

theorem Alike.bpe (h : Alike t u) (fuel : ℕ) (text : Bytes) :
    u.bpe m fuel text = t.bpe m fuel text := by
  have hsplit : u.splitAndMerge fuel = t.splitAndMerge fuel := by
    funext chunk
    rw [splitAndMerge, splitAndMerge, h.bytes, h.merges]
  rw [TokenizerImpl.bpe, TokenizerImpl.bpe, h.re, hsplit]

theorem Alike.decode (h : Alike t u) (tokenId : ℕ) : u.decode tokenId = t.decode tokenId := by
  have hdecode (v : TokenizerImpl) : v.decode tokenId =
      unicodeToChars v.unicodeToByteMap ((v.idToTokenMap tokenId).getD []) := by
    rw [TokenizerImpl.decode]
    cases v.idToTokenMap tokenId <;> rfl
  rw [hdecode, hdecode, h.unbytes, h.names]

theorem Alike.isStopToken (h : Alike t u) (token : Bytes) :
    u.isStopToken token = t.isStopToken token := by
  rw [TokenizerImpl.isStopToken, TokenizerImpl.isStopToken, h.stops]
  by_cases hmem : token ∈ t.stopTokens
  · rw [Bool.eq_iff_iff.mpr (h.known token hmem)]
  · have hcontains : t.stopTokens.contains token = false := by
      rw [← Bool.not_eq_true, List.contains_iff_mem]
      exact hmem
    rw [hcontains, Bool.false_and, Bool.false_and]

/-- The scan with the maps and the trie as they are: the open plain text and the tokens. -/
def scanText (t : TokenizerImpl) (m : Pcre2) (bpeFuel : ℕ) (text : Bytes) :
    ℕ → ℕ → Bytes → List Bytes → Outcome (Bytes × List Bytes)
  | 0, _, _, _ => .error .outOfFuel
  | fuel + 1, start, pretext, finalTokens =>
    if h : start < text.length then
      let found := (t.splTokenTrie.matchAt text start text.length).1
      if 0 ≤ found then do
        let name := (t.idToTokenMap found.toNat).getD []
        let pieces ← t.bpe m bpeFuel pretext
        scanText t m bpeFuel text fuel (start + name.length) []
          (finalTokens ++ pieces ++ [name])
      else scanText t m bpeFuel text fuel (start + 1) (pretext ++ [text[start]]) finalTokens
    else .ok (pretext, finalTokens)

/-- The tokens of a text before they are looked up. -/
def splitText (t : TokenizerImpl) (m : Pcre2) (fuel : ℕ) (text : Bytes) :
    Outcome (List Bytes) := do
  let r ← t.scanText m fuel text fuel 0 [] []
  let pieces ← lastPieces m fuel ⟨t, r.1, r.2⟩
  .ok (r.2 ++ pieces)

/-- A scan that changes the tokenizer ends like one that does not. -/
inductive Follows (t : TokenizerImpl) : Outcome (Bytes × List Bytes) → Outcome Scan → Prop where
  | error {e : Fault} : Follows t (.error e) (.error e)
  | ok {u : TokenizerImpl} {pretext : Bytes} {finalTokens : List Bytes} : Alike t u →
      Follows t (.ok (pretext, finalTokens)) (.ok ⟨u, pretext, finalTokens⟩)

/-- The loop of `tokenize` is the scan, and its tokenizer reads like before. -/
theorem Alike.follows (h : Alike t u) (bpeFuel : ℕ) (text : Bytes) (fuel start : ℕ)
    (pretext : Bytes) (finalTokens : List Bytes) :
    Follows t (t.scanText m bpeFuel text fuel start pretext finalTokens)
      (scanLoop m bpeFuel text fuel start ⟨u, pretext, finalTokens⟩) := by
  induction fuel generalizing u start pretext finalTokens with
  | zero => exact Follows.error
  | succ fuel ih =>
    rw [scanText, scanLoop]
    by_cases hlt : start < text.length
    · have hmatched := h.matched text start text.length
      rw [dif_pos hlt, dif_pos hlt]
      simp only [h.matchAt_fst]
      by_cases hfound : 0 ≤ (t.splTokenTrie.matchAt text start text.length).1
      · rw [if_pos hfound, if_pos hfound, hmatched.bpe]
        cases t.bpe m bpeFuel pretext with
        | error e => exact Follows.error
        | ok pieces =>
          simp only [Outcome.ok_bind, access_fst, h.names]
          exact ih (hmatched.named _) _ _ _
      · rw [if_neg hfound, if_neg hfound]
        exact ih hmatched _ _ _
    · rw [dif_neg hlt, dif_neg hlt]
      exact Follows.ok h

theorem lookUpIds_fst (ts : List Bytes) (ids : Bytes → Option ℕ) :
    (lookUpIds ts ids).1 = ts.map fun s => (ids s).getD 0 := by
  induction ts generalizing ids with
  | nil => rfl
  | cons s ts ih =>
    rw [lookUpIds, List.map_cons]
    simp only [access_fst, ih, access_getD]

theorem lookUpIds_getD (ts : List Bytes) (ids : Bytes → Option ℕ) (s : Bytes) :
    ((lookUpIds ts ids).2 s).getD 0 = (ids s).getD 0 := by
  induction ts generalizing ids with
  | nil => rfl
  | cons s' ts ih =>
    rw [lookUpIds]
    exact (ih _).trans (access_getD _ _ _ _)

theorem lookUpIds_isSome (ts : List Bytes) (ids : Bytes → Option ℕ) (s : Bytes) :
    ((lookUpIds ts ids).2 s).isSome = true ↔ s ∈ ts ∨ (ids s).isSome = true := by
  induction ts generalizing ids with
  | nil => simp [lookUpIds]
  | cons s' ts ih =>
    rw [lookUpIds]
    refine (ih _).trans ?_
    rw [access_isSome, List.mem_cons, ← or_assoc, or_comm (a := s ∈ ts)]

/-- A text is split into no stop text that the vocabulary does not have. -/
def Harmless (t : TokenizerImpl) (m : Pcre2) : Call → Prop
  | .tokenize fuel text => ∀ tokens, t.splitText m fuel text = .ok tokens →
      ∀ s ∈ tokens, s ∈ t.stopTokens → (t.tokenToIdMap s).isSome = true
  | _ => True

/-- Looking the tokens up leaves no trace if the stop texts among them are known. -/
theorem Alike.lookedUp (h : Alike t u) {tokens : List Bytes}
    (htokens : ∀ s ∈ tokens, s ∈ t.stopTokens → (t.tokenToIdMap s).isSome = true) :
    Alike t { u with tokenToIdMap := (lookUpIds tokens u.tokenToIdMap).2 } := by
  refine { h with ids := ?_, known := ?_ }
  · intro s
    rw [← h.ids s]
    exact lookUpIds_getD _ _ _
  · intro s hstop
    refine (lookUpIds_isSome _ _ _).trans ?_
    rw [h.known s hstop, or_iff_right_of_imp]
    intro hmem
    exact htokens s hmem hstop

/-- `tokenize` returns the ids of the text that is split without a trace. -/
theorem Alike.tokenize (h : Alike t u) (fuel : ℕ) (text : Bytes) :
    (∃ e, t.splitText m fuel text = .error e ∧ u.tokenize m fuel text = .error e) ∨
      ∃ tokens u', t.splitText m fuel text = .ok tokens ∧
        u.tokenize m fuel text = .ok (tokens.map t.idOf, u') ∧
        (Harmless t m (.tokenize fuel text) → Alike t u') := by
  have hfollows : Follows t (t.scanText m fuel text fuel 0 [] [])
      (TokenizerImpl.scanLoop m fuel text fuel 0 ⟨u, [], []⟩) := h.follows fuel text fuel 0 [] []
  have hsplit : t.splitText m fuel text = t.scanText m fuel text fuel 0 [] [] >>= fun r =>
      lastPieces m fuel ⟨t, r.1, r.2⟩ >>= fun pieces => .ok (r.2 ++ pieces) := rfl
  rw [TokenizerImpl.tokenize]
  generalize t.scanText m fuel text fuel 0 [] [] = scanned at hfollows hsplit
  generalize TokenizerImpl.scanLoop m fuel text fuel 0 ⟨u, [], []⟩ = looped at hfollows ⊢
  cases hfollows with
  | error => exact .inl ⟨_, hsplit, rfl⟩
  | @ok u' pretext finalTokens hu' =>
    have hlast : lastPieces m fuel ⟨u', pretext, finalTokens⟩ =
        lastPieces m fuel ⟨t, pretext, finalTokens⟩ := by
      rw [lastPieces, lastPieces, hu'.bpe]
    rw [Outcome.ok_bind] at hsplit ⊢
    rw [hlast]
    cases hpieces : lastPieces m fuel ⟨t, pretext, finalTokens⟩ with
    | error e =>
      rw [hpieces] at hsplit
      exact .inl ⟨e, hsplit, rfl⟩
    | ok pieces =>
      rw [hpieces, Outcome.ok_bind] at hsplit
      refine .inr ⟨_, _, hsplit, ?_, fun hharmless => hu'.lookedUp (hharmless _ hsplit)⟩
      simp only [Outcome.ok_bind, lookUpIds_fst, hu'.ids]
      rfl

/-- A call returns what it returns at a tokenizer that reads alike. -/
theorem Alike.call (h : Alike t u) (c : Call) :
    (u.call m c).map Prod.fst = (t.call m c).map Prod.fst := by
  cases c with
  | tokenize fuel text =>
    rw [TokenizerImpl.call, TokenizerImpl.call]
    rcases h.tokenize (m := m) fuel text with ⟨e, hsplit, hu⟩ | ⟨tokens, u', hsplit, hu, _⟩
    · rcases (Alike.refl t).tokenize (m := m) fuel text with ⟨e', hsplit', ht⟩ | ⟨_, _, hsplit', _⟩
      · cases hsplit.symm.trans hsplit'
        rw [hu, ht]
      · cases hsplit.symm.trans hsplit'
    · rcases (Alike.refl t).tokenize (m := m) fuel text with ⟨_, hsplit', _⟩ | ⟨_, t', hsplit', ht, _⟩
      · cases hsplit.symm.trans hsplit'
      · cases hsplit.symm.trans hsplit'
        rw [hu, ht]
        rfl
  | decode tokenId =>
    rw [TokenizerImpl.call, TokenizerImpl.call, h.decode]
    rfl
  | isStopToken token =>
    rw [TokenizerImpl.call, TokenizerImpl.call, h.isStopToken]
    rfl

theorem Alike.of_call (h : Alike t u) {c : Call} (hharmless : Harmless t m c)
    {r : Answer × TokenizerImpl} (hcall : u.call m c = .ok r) : Alike t r.2 := by
  cases c with
  | tokenize fuel text =>
    rw [TokenizerImpl.call] at hcall
    rcases h.tokenize (m := m) fuel text with ⟨e, _, hu⟩ | ⟨tokens, u', _, hu, halike⟩
    · rw [hu] at hcall
      cases hcall
    · rw [hu] at hcall
      cases hcall
      exact halike hharmless
  | decode tokenId =>
    cases hcall
    exact h
  | isStopToken token =>
    cases hcall
    exact h

theorem Alike.afterCalls (h : Alike t u) {cs : List Call} (hharmless : ∀ c ∈ cs, Harmless t m c)
    {u' : TokenizerImpl} (hcalls : u.afterCalls m cs = .ok u') : Alike t u' := by
  induction cs generalizing u with
  | nil =>
    cases hcalls
    exact h
  | cons c cs ih =>
    rw [List.forall_mem_cons] at hharmless
    obtain ⟨r, hcall, hrest⟩ := Outcome.bind_eq_ok.mp hcalls
    exact ih (h.of_call hharmless.1 hcall) hharmless.2 hrest

/-- The plain texts that the scan has PCRE2 match. -/
def subjects (t : TokenizerImpl) (text : Bytes) : ℕ → ℕ → Bytes → List Bytes
  | 0, _, _ => []
  | fuel + 1, start, pretext =>
    if h : start < text.length then
      let found := (t.splTokenTrie.matchAt text start text.length).1
      if 0 ≤ found then
        pretext :: subjects t text fuel
          (start + ((t.idToTokenMap found.toNat).getD []).length) []
      else subjects t text fuel (start + 1) (pretext ++ [text[start]])
    else [pretext]

end TokenizerImpl

/-- PCRE2 says what it matches in a subject only where the subject is UTF-8. -/
def Call.Defined (t : TokenizerImpl) : Call → Prop
  | .tokenize fuel text => ∀ s ∈ t.subjects text fuel 0 [], Valid s
  | _ => True

variable {info : TokenizerInfo} {t u : TokenizerImpl} {m : Pcre2} {tbl : CharTable}

theorem forModel_knows (ht : TokenizerImpl.forModel info = .ok t) :
    Knows info.tokens info.tokenType info.tokens.length t.splTokenTrie := by
  obtain ⟨-, -, -, -, -, -, htrie⟩ := forModel_maps ht
  have hlen := length_le_of_buildLoop htrie
  rw [Nat.sub_zero] at hlen
  obtain ⟨trie, hok, hknows⟩ := buildFromTokens_knows hlen
  cases htrie.symm.trans hok
  exact hknows

theorem forModel_stopTokens (ht : TokenizerImpl.forModel info = .ok t) :
    t.stopTokens = stopTokenTexts := by
  obtain ⟨trie, _, hok⟩ := Outcome.bind_eq_ok.mp ht
  cases hok
  rfl

/-- What the trie finds is a special token, and both maps have it. -/
theorem found_special (ht : TokenizerImpl.forModel info = .ok t) {text : Bytes} {start : ℕ}
    (h : 0 ≤ (t.splTokenTrie.matchAt text start text.length).1) :
    ∃ i w, LongestSpecial info.tokens info.tokenType (text.drop start) i w ∧
      (t.idToTokenMap (t.splTokenTrie.matchAt text start text.length).1.toNat).getD [] = w ∧
      (t.tokenToIdMap w).isSome = true := by
  obtain ⟨-, -, -, hids, hnames, -, -⟩ := forModel_maps ht
  rcases matchAt_fst (forModel_knows ht) text start with ⟨hnone, _⟩ | ⟨i, w, hfound, hlong⟩
  · rw [hnone] at h
    exact absurd h (by decide)
  · refine ⟨i, w, hlong, ?_, ?_⟩
    · rw [hfound, Int.toNat_natCast, hnames, buildIdToTokenMap, store_zipIdx_swap,
        hlong.special.1, Option.getD_some]
    · rw [hids, buildTokenToIdMap, Option.isSome_iff_ne_none, Ne, store_eq_none]
      intro hnone
      exact hnone i (List.mk_mem_zipIdx_iff_getElem?.mpr hlong.special.1)

/-- A token of a defined text is no stop text, or the vocabulary has it. -/
theorem scanText_known (hm : m.LeftmostOrdered tbl) (htbl : tbl.AsciiClasses)
    (ht : TokenizerImpl.forModel info = .ok t) {bpeFuel : ℕ} {text : Bytes} {fuel start : ℕ}
    {pretext : Bytes} {finalTokens : List Bytes} {r : Bytes × List Bytes}
    (h : t.scanText m bpeFuel text fuel start pretext finalTokens = .ok r)
    (hdefined : ∀ s ∈ t.subjects text fuel start pretext, Valid s)
    (hknown : ∀ s ∈ finalTokens, s ∈ t.stopTokens → (t.tokenToIdMap s).isSome = true) :
    Valid r.1 ∧ ∀ s ∈ r.2, s ∈ t.stopTokens → (t.tokenToIdMap s).isSome = true := by
  obtain ⟨-, hbytes, -, -, -, hre, -⟩ := forModel_maps ht
  have hstops := forModel_stopTokens ht
  induction fuel generalizing start pretext finalTokens with
  | zero => cases h
  | succ fuel ih =>
    rw [TokenizerImpl.scanText] at h
    rw [TokenizerImpl.subjects] at hdefined
    by_cases hlt : start < text.length
    · rw [dif_pos hlt] at h hdefined
      by_cases hfound : 0 ≤ (t.splTokenTrie.matchAt text start text.length).1
      · simp only [if_pos hfound, List.forall_mem_cons] at h hdefined
        obtain ⟨pieces, hpieces, hrest⟩ := Outcome.bind_eq_ok.mp h
        obtain ⟨i, w, _, hname, hw⟩ := found_special ht hfound
        rw [hname] at hrest hdefined
        apply ih hrest hdefined.2
        rw [List.forall_mem_append, List.forall_mem_append, List.forall_mem_singleton]
        refine ⟨⟨hknown, fun s hs hstop => ?_⟩, fun _ => hw⟩
        rw [hstops] at hstop
        exact absurd hstop (bpe_not_stopText hm htbl hbytes hre hdefined.1 hpieces s hs)
      · simp only [if_neg hfound] at h hdefined
        exact ih h hdefined hknown
    · rw [dif_neg hlt] at h hdefined
      cases h
      exact ⟨hdefined _ (List.mem_singleton_self _), hknown⟩

theorem harmless_of_defined (hm : m.LeftmostOrdered tbl) (htbl : tbl.AsciiClasses)
    (ht : TokenizerImpl.forModel info = .ok t) {c : Call} (hdefined : c.Defined t) :
    t.Harmless m c := by
  obtain ⟨-, hbytes, -, -, -, hre, -⟩ := forModel_maps ht
  cases c with
  | tokenize fuel text =>
    intro tokens hsplit
    obtain ⟨r, hscan, hrest⟩ := Outcome.bind_eq_ok.mp hsplit
    obtain ⟨pieces, hpieces, heq⟩ := Outcome.bind_eq_ok.mp hrest
    cases heq
    obtain ⟨hvalid, hknown⟩ := scanText_known hm htbl ht hscan hdefined
      fun s hs => absurd hs List.not_mem_nil
    rw [List.forall_mem_append]
    refine ⟨hknown, fun s hs hstop => ?_⟩
    rw [forModel_stopTokens ht] at hstop
    rw [TokenizerImpl.lastPieces] at hpieces
    split_ifs at hpieces
    · exact absurd hstop (bpe_not_stopText hm htbl hbytes hre hvalid hpieces s hs)
    · cases hpieces
      cases hs
  | decode tokenId => trivial
  | isStopToken token => trivial

/-- UTF-8 is cut at special tokens that are UTF-8 into texts that are UTF-8. -/
theorem subjects_valid (ht : TokenizerImpl.forModel info = .ok t)
    (hspecial : ∀ i w, SpecialAt info.tokens info.tokenType i w → Valid w) (text : Bytes)
    (fuel start : ℕ) (pretext : Bytes) (hvalid : Valid (pretext ++ text.drop start)) :
    ∀ s ∈ t.subjects text fuel start pretext, Valid s := by
  induction fuel generalizing start pretext with
  | zero => exact fun s hs => absurd hs List.not_mem_nil
  | succ fuel ih =>
    rw [TokenizerImpl.subjects]
    by_cases hlt : start < text.length
    · rw [dif_pos hlt]
      by_cases hfound : 0 ≤ (t.splTokenTrie.matchAt text start text.length).1
      · obtain ⟨i, w, hlong, hname, _⟩ := found_special ht hfound
        have hw := hspecial i w hlong.special
        obtain ⟨rest, hrest⟩ := hlong.isPrefix
        rw [← hrest] at hvalid
        have hfirst : ∀ x, (w ++ rest).head? = some x → x.IsUTF8FirstByte := by
          intro x hx
          rw [List.head?_append_of_ne_nil _ hlong.nonempty] at hx
          exact hw.isUTF8FirstByte hx
        obtain ⟨hpretext, htail⟩ := hvalid.split hfirst
        have hskip : text.drop (start + w.length) = rest := by
          rw [← List.drop_drop, ← hrest, List.drop_left]
        simp only [if_pos hfound, hname, List.forall_mem_cons]
        refine ⟨hpretext, ih _ _ ?_⟩
        rw [List.nil_append, hskip]
        exact htail.drop hw
      · simp only [if_neg hfound]
        apply ih
        rwa [List.append_assoc, List.singleton_append, ← List.drop_eq_getElem_cons hlt]
    · rw [dif_neg hlt, List.forall_mem_singleton]
      rwa [List.drop_eq_nil_of_le (not_lt.mp hlt), List.append_nil] at hvalid

/-- Behind any calls a tokenizer returns what it returns when it is freshly built. -/
theorem call_independent (hm : m.LeftmostOrdered tbl) (htbl : tbl.AsciiClasses)
    (ht : TokenizerImpl.forModel info = .ok t) {before : List Call}
    (hdefined : ∀ c ∈ before, c.Defined t) (hcalls : t.afterCalls m before = .ok u) (c : Call) :
    (u.call m c).map Prod.fst = (t.call m c).map Prod.fst := by
  have hharmless : ∀ c ∈ before, t.Harmless m c := fun c hc =>
    harmless_of_defined hm htbl ht (hdefined c hc)
  exact ((TokenizerImpl.Alike.refl t).afterCalls hharmless hcalls).call c

theorem asciiTable_asciiClasses : asciiTable.AsciiClasses := by
  refine ⟨fun c _ => rfl, fun c _ => rfl, ?_⟩
  intro c hlow _
  change c.isWhitespace = false
  rw [← Bool.not_eq_true, Char.isWhitespace]
  simp only [Bool.or_eq_true, decide_eq_true_eq]
  rintro (((rfl | rfl) | rfl) | rfl)
  all_goals
    revert hlow
    decide

theorem call_independent_greeting : ∃ t u, TokenizerImpl.forModel greetingInfo = .ok t ∧
    t.afterCalls (.reference asciiTable) [.tokenize 3 (literal "hi")] = .ok u ∧
    (u.call (.reference asciiTable) (.isStopToken (literal "</s>"))).map Prod.fst =
      (t.call (.reference asciiTable) (.isStopToken (literal "</s>"))).map Prod.fst := by
  have hm := Pcre2.reference_leftmostOrdered asciiTable
  obtain ⟨t, ht⟩ := forModel_ok greetingInfo_complete.types
  have hhi : Valid (literal "hi") := valid_encode _
  obtain ⟨ids, u, hok, _⟩ := (forModel_builtFrom greetingInfo_complete.types ht).exists_ids hm
    greetingInfo_complete (.inl rfl) hhi (Nat.lt_succ_self 2)
  have hcalls : t.afterCalls (.reference asciiTable) [.tokenize 3 (literal "hi")] = .ok u := by
    rw [TokenizerImpl.afterCalls, TokenizerImpl.call, hok]
    rfl
  have hdefined : ∀ c ∈ [Call.tokenize 3 (literal "hi")], c.Defined t := by
    rw [List.forall_mem_singleton]
    apply subjects_valid ht _ _ _ _ _ hhi
    intro i w hw
    exact (greetingInfo_complete.special i w hw).2.valid
  exact ⟨t, u, ht, hcalls, call_independent hm asciiTable_asciiClasses ht hdefined hcalls _⟩

end ZInferLM.Tokenizer
