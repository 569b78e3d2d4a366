import ZInferLM.Library.Outcome
import ZInferLM.Library.Utf8

/-! # The trie of special tokens

Looking a text up walks down the trie and remembers the last node that ends a token. The walk
subscripts the child map, so it can leave a null child behind; `find` does not see those. The bounds
of `match` are numbers here and `int`s in the source. -/

namespace ZInferLM.Tokenizer
open Library Library.Utf8

inductive TokenType where
  | undefined | normal | unknown | control | userDefined | unused | byte
  deriving DecidableEq, Repr

def TokenType.code : TokenType → ℤ
  | .undefined => 0 | .normal => 1 | .unknown => 2 | .control => 3
  | .userDefined => 4 | .unused => 5 | .byte => 6

/-- A node: the token that ends here, or `-1`, and the child map, whose entries may be null. -/
inductive TrieNode where
  | mk (tokenId : ℤ) (next : UInt8 → Option (Option TrieNode))

namespace TrieNode

def tokenId : TrieNode → ℤ
  | mk i _ => i

def next : TrieNode → UInt8 → Option (Option TrieNode)
  | mk _ f => f

def fresh : TrieNode := mk (-1) fun _ => none

def child (n : TrieNode) (c : UInt8) : Option TrieNode := (n.next c).join

def setNext (n : TrieNode) (c : UInt8) (m : Option TrieNode) : TrieNode :=
  mk n.tokenId (Function.update n.next c (some m))

@[simp] theorem tokenId_setNext (n : TrieNode) (c : UInt8) (m : Option TrieNode) :
    (n.setNext c m).tokenId = n.tokenId := rfl

theorem child_setNext (n : TrieNode) (c d : UInt8) (m : Option TrieNode) :
    (n.setNext c m).child d = if d = c then m else n.child d := by
  by_cases h : d = c <;> simp [child, setNext, next, h]

def insert (id : ℤ) : Bytes → TrieNode → TrieNode
  | [], n => mk id n.next
  | c :: w, n => n.setNext c (some (insert id w ((n.child c).getD fresh)))

/-- Walk down along the text; `best` is the last token passed so far. Returns the last token and
the subtree as the walk leaves it. -/
def walk : Bytes → TrieNode → ℤ → ℤ × TrieNode
  | [], n, best => (best, n)
  | c :: w, n, best =>
    match n.child c with
    | none => (best, n.setNext c none)
    | some m =>
      let r := walk w m (if 0 ≤ m.tokenId then m.tokenId else best)
      (r.1, n.setNext c (some r.2))

/-- The token that ends at a path, or `-1`. -/
def find : Bytes → TrieNode → ℤ
  | [], n => n.tokenId
  | c :: w, n => (n.child c).elim (-1) (find w)

@[simp] theorem find_fresh (w : Bytes) : find w fresh = -1 := by
  cases w <;> rfl

/-- Insertion changes the one path it is about. -/
theorem find_insert (id : ℤ) (w p : Bytes) (n : TrieNode) :
    find p (insert id w n) = if p = w then id else find p n := by
  induction w generalizing p n with
  | nil => cases p <;> simp [insert, find, tokenId, child, next]
  | cons c w ih =>
    cases p with
    | nil => simp [insert, find]
    | cons d p =>
      rw [insert, find, child_setNext]
      by_cases h : d = c
      · subst h
        simp only [if_true, Option.elim_some, List.cons.injEq, true_and]
        rw [ih, find]
        cases n.child d <;> simp
      · rw [if_neg h, if_neg fun he => h (List.cons.inj he).1, find]

/-- The walk leaves every token where it was. -/
theorem find_walk (w p : Bytes) (n : TrieNode) (best : ℤ) :
    find p (walk w n best).2 = find p n := by
  induction w generalizing p n best with
  | nil => rfl
  | cons c w ih =>
    rw [walk]
    split
    · rename_i hc
      cases p with
      | nil => rfl
      | cons d p =>
        rw [find, find, child_setNext]
        split_ifs with h
        · rw [h, hc]
        · rfl
    · rename_i m hc
      cases p with
      | nil => rfl
      | cons d p =>
        rw [find, find, child_setNext]
        by_cases h : d = c
        · rw [if_pos h, h, hc, Option.elim_some, Option.elim_some, ih]
        · rw [if_neg h]

/-- No token ends along the text below the node. -/
def NoneAlong (w : Bytes) (n : TrieNode) : Prop := ∀ p, p ≠ [] → p <+: w → find p n < 0

/-- The longest prefix of the text that ends a token, with that token. -/
def LongestAlong (w : Bytes) (n : TrieNode) (p : Bytes) : Prop :=
  p ≠ [] ∧ p <+: w ∧ 0 ≤ find p n ∧ ∀ q, q <+: w → 0 ≤ find q n → q.length ≤ p.length

/-- The walk returns the token of the longest prefix, and `best` when there is none. -/
theorem walk_fst (w : Bytes) (n : TrieNode) (best : ℤ) :
    ((walk w n best).1 = best ∧ NoneAlong w n) ∨
      ∃ p, (walk w n best).1 = find p n ∧ LongestAlong w n p := by
  induction w generalizing n best with
  | nil => exact .inl ⟨rfl, fun p hp hpre => absurd (List.prefix_nil.mp hpre) hp⟩
  | cons c w ih =>
    rw [walk]
    split
    · rename_i hc
      refine .inl ⟨rfl, fun p hp hpre => ?_⟩
      obtain ⟨d, p, rfl⟩ := List.exists_cons_of_ne_nil hp
      obtain ⟨rfl, -⟩ := List.cons_prefix_cons.mp hpre
      simp [find, hc]
    · rename_i m hc
      have hfind : ∀ p, find (c :: p) n = find p m := fun p => by simp [find, hc]
      rcases ih m (if 0 ≤ m.tokenId then m.tokenId else best) with ⟨hr, hnone⟩ | ⟨p, hr, hlong⟩
      · by_cases hm : 0 ≤ m.tokenId
        · -- the child itself ends the longest token
          refine .inr ⟨[c], by rw [hr, if_pos hm, hfind]; rfl, by simp, by simp, ?_, ?_⟩
          · rw [hfind]; exact hm
          · intro q hq hge
            cases q with
            | nil => simp
            | cons d q =>
              obtain ⟨rfl, hqw⟩ := List.cons_prefix_cons.mp hq
              rw [hfind] at hge
              by_cases hq0 : q = []
              · simp [hq0]
              · exact absurd hge (not_le.mpr (hnone q hq0 hqw))
        · refine .inl ⟨by rw [hr, if_neg hm], fun p hp hpre => ?_⟩
          obtain ⟨d, p, rfl⟩ := List.exists_cons_of_ne_nil hp
          obtain ⟨rfl, hpw⟩ := List.cons_prefix_cons.mp hpre
          rw [hfind]
          by_cases hp0 : p = []
          · subst hp0; exact not_le.mp hm
          · exact hnone p hp0 hpw
      · obtain ⟨hp0, hpre, hge, hmax⟩ := hlong
        refine .inr ⟨c :: p, by rw [hr, hfind], by simp,
          List.cons_prefix_cons.mpr ⟨rfl, hpre⟩, by rwa [hfind], ?_⟩
        intro q hq hqge
        cases q with
        | nil => simp
        | cons d q =>
          obtain ⟨rfl, hqw⟩ := List.cons_prefix_cons.mp hq
          rw [hfind] at hqge
          simpa using hmax q hqw hqge

theorem walk_fst_congr {n n' : TrieNode} (h : ∀ p, find p n = find p n') (w : Bytes) (best : ℤ) :
    (walk w n best).1 = (walk w n' best).1 := by
  rcases walk_fst w n best with ⟨hr, hnone⟩ | ⟨p, hr, hp, hpre, hge, hmax⟩
  · rcases walk_fst w n' best with ⟨hr', _⟩ | ⟨q, _, hq, hqpre, hqge, _⟩
    · rw [hr, hr']
    · exact absurd (h q ▸ hqge) (not_le.mpr (hnone q hq hqpre))
  · rcases walk_fst w n' best with ⟨_, hnone'⟩ | ⟨q, hr', _, hqpre, hqge, hqmax⟩
    · exact absurd (h p ▸ hge) (not_le.mpr (hnone' p hp hpre))
    · have hlen : p.length = q.length :=
        le_antisymm (hqmax p hpre (h p ▸ hge)) (hmax q hqpre ((h q).symm ▸ hqge))
      have hpq : p = q := by
        rw [List.prefix_iff_eq_take.mp hpre, List.prefix_iff_eq_take.mp hqpre, hlen]
      rw [hr, hr', h, hpq]

end TrieNode

structure SpecialTokenTrie where
  root : TrieNode
  size : ℕ

namespace SpecialTokenTrie

def empty : SpecialTokenTrie := ⟨.fresh, 0⟩

/-- The loop of `build_from_tokens` over the tokens from an index on. -/
def buildLoop (tokenTypes : List ℤ) : ℕ → List Bytes → SpecialTokenTrie → Outcome SpecialTokenTrie
  | _, [], t => .ok t
  | i, tok :: toks, t =>
    match tokenTypes[i]? with
    | none => .error (.undefined "token_types[i]")
    | some type =>
      if type = TokenType.normal.code then buildLoop tokenTypes (i + 1) toks t
      else buildLoop tokenTypes (i + 1) toks ⟨t.root.insert i tok, t.size + 1⟩

def buildFromTokens (tokens : List Bytes) (tokenTypes : List ℤ) : Outcome SpecialTokenTrie :=
  buildLoop tokenTypes 0 tokens empty

/-- The token found in `text[start, stop)` and the trie after the match. -/
def matchAt (t : SpecialTokenTrie) (text : Bytes) (start stop : ℕ) : ℤ × SpecialTokenTrie :=
  let r := t.root.walk ((text.take stop).drop start) (-1)
  (r.1, { t with root := r.2 })

end SpecialTokenTrie

/-- Token `i` is a special token with the text `w`. -/
def SpecialAt (tokens : List Bytes) (tokenTypes : List ℤ) (i : ℕ) (w : Bytes) : Prop :=
  tokens[i]? = some w ∧ ∃ type, tokenTypes[i]? = some type ∧ type ≠ TokenType.normal.code

/-- The trie knows the special tokens below `n`, the last one where several have the same text. -/
def Knows (tokens : List Bytes) (tokenTypes : List ℤ) (n : ℕ) (t : SpecialTokenTrie) : Prop :=
  ∀ w, (t.root.find w = -1 ∧ ∀ i < n, ¬SpecialAt tokens tokenTypes i w) ∨
    ∃ i < n, t.root.find w = i ∧ SpecialAt tokens tokenTypes i w ∧
      ∀ j < n, SpecialAt tokens tokenTypes j w → j ≤ i

variable {tokens : List Bytes} {tokenTypes : List ℤ}

theorem knows_skip {n : ℕ} {t : SpecialTokenTrie} (h : Knows tokens tokenTypes n t)
    (hn : ∀ w, ¬SpecialAt tokens tokenTypes n w) : Knows tokens tokenTypes (n + 1) t := by
  intro w
  rcases h w with ⟨hf, hnone⟩ | ⟨i, hi, hf, hs, hmax⟩
  · refine .inl ⟨hf, fun i hi => ?_⟩
    rcases Nat.lt_succ_iff_lt_or_eq.mp hi with hi | rfl
    · exact hnone i hi
    · exact hn w
  · refine .inr ⟨i, by omega, hf, hs, fun j hj hsj => ?_⟩
    rcases Nat.lt_succ_iff_lt_or_eq.mp hj with hj | rfl
    · exact hmax j hj hsj
    · exact absurd hsj (hn w)

theorem knows_insert {n size : ℕ} {t : SpecialTokenTrie} {tok : Bytes}
    (h : Knows tokens tokenTypes n t) (hs : SpecialAt tokens tokenTypes n tok) :
    Knows tokens tokenTypes (n + 1) ⟨t.root.insert n tok, size⟩ := by
  intro w
  by_cases hw : w = tok
  · subst hw
    refine .inr ⟨n, by omega, by simp [TrieNode.find_insert], hs, fun j hj _ => by omega⟩
  · have hn : ¬SpecialAt tokens tokenTypes n w := fun hsw =>
      hw (Option.some.inj (hsw.1.symm.trans hs.1))
    have hfind : (t.root.insert n tok).find w = t.root.find w := by
      rw [TrieNode.find_insert, if_neg hw]
    rcases h w with ⟨hf, hnone⟩ | ⟨i, hi, hf, hsi, hmax⟩
    · refine .inl ⟨hfind.trans hf, fun i hi => ?_⟩
      rcases Nat.lt_succ_iff_lt_or_eq.mp hi with hi | rfl
      · exact hnone i hi
      · exact hn
    · refine .inr ⟨i, by omega, hfind.trans hf, hsi, fun j hj hsj => ?_⟩
      rcases Nat.lt_succ_iff_lt_or_eq.mp hj with hj | rfl
      · exact hmax j hj hsj
      · exact absurd hsj hn

theorem buildLoop_knows {n : ℕ} {toks : List Bytes} {t : SpecialTokenTrie}
    (hlen : tokens.length ≤ tokenTypes.length) (htoks : tokens.drop n = toks)
    (h : Knows tokens tokenTypes n t) :
    ∃ t', SpecialTokenTrie.buildLoop tokenTypes n toks t = .ok t' ∧
      Knows tokens tokenTypes (n + toks.length) t' := by
  induction toks generalizing n t with
  | nil => exact ⟨t, rfl, h⟩
  | cons tok toks ih =>
    have hn : n < tokens.length := by
      by_contra hge
      rw [List.drop_eq_nil_of_le (not_lt.mp hge)] at htoks
      simp at htoks
    have hcons := htoks.symm.trans (List.drop_eq_getElem_cons hn)
    obtain ⟨htok, hdrop⟩ := List.cons.inj hcons
    have htoki : tokens[n]? = some tok := by rw [List.getElem?_eq_getElem hn, ← htok]
    have hn' : n < tokenTypes.length := by omega
    have htype : tokenTypes[n]? = some tokenTypes[n] := List.getElem?_eq_getElem hn'
    rw [SpecialTokenTrie.buildLoop, htype, List.length_cons]
    simp only
    rw [show n + (toks.length + 1) = (n + 1) + toks.length by omega]
    split_ifs with hty
    · refine ih hdrop.symm (knows_skip h fun w hw => ?_)
      obtain ⟨-, type, ht, hne⟩ := hw
      exact hne (Option.some.inj (ht.symm.trans htype) ▸ hty)
    · exact ih hdrop.symm (knows_insert h ⟨htoki, _, htype, hty⟩)

/-- Building never reads past the token types when there is one for each token, and the trie then
knows all special tokens. -/
theorem buildFromTokens_knows (hlen : tokens.length ≤ tokenTypes.length) :
    ∃ t, SpecialTokenTrie.buildFromTokens tokens tokenTypes = .ok t ∧
      Knows tokens tokenTypes tokens.length t := by
  have h0 : Knows tokens tokenTypes 0 SpecialTokenTrie.empty :=
    fun w => .inl ⟨TrieNode.find_fresh w, fun i hi => absurd hi (Nat.not_lt_zero i)⟩
  obtain ⟨t, ht, hk⟩ := buildLoop_knows (n := 0) hlen rfl h0
  exact ⟨t, ht, by simpa using hk⟩

/-- Building reads a type for every token. -/
theorem length_le_of_buildLoop {i : ℕ} {toks : List Bytes} {t t' : SpecialTokenTrie}
    (h : SpecialTokenTrie.buildLoop tokenTypes i toks t = .ok t') :
    toks.length ≤ tokenTypes.length - i := by
  induction toks generalizing i t with
  | nil => exact Nat.zero_le _
  | cons tok toks ih =>
    rw [SpecialTokenTrie.buildLoop] at h
    cases htype : tokenTypes[i]? with
    | none =>
      rw [htype] at h
      cases h
    | some type =>
      have hi := (List.getElem?_eq_some_iff.mp htype).1
      rw [htype] at h
      simp only at h
      have hrest : toks.length ≤ tokenTypes.length - (i + 1) := by
        split_ifs at h
        · exact ih h
        · exact ih h
      rw [List.length_cons]
      omega

/-- A match leaves the known tokens as they are. -/
theorem knows_matchAt {n : ℕ} {t : SpecialTokenTrie} (h : Knows tokens tokenTypes n t)
    (text : Bytes) (start stop : ℕ) :
    Knows tokens tokenTypes n (t.matchAt text start stop).2 := by
  intro w
  have hfind : (t.matchAt text start stop).2.root.find w = t.root.find w :=
    TrieNode.find_walk _ _ _ _
  rw [hfind]
  exact h w

/-- Token `i` is the longest special token at the front of the text, the last of its text. -/
structure LongestSpecial (tokens : List Bytes) (tokenTypes : List ℤ) (text : Bytes) (i : ℕ)
    (w : Bytes) : Prop where
  special : SpecialAt tokens tokenTypes i w
  nonempty : w ≠ []
  isPrefix : w <+: text
  longest : ∀ j v, SpecialAt tokens tokenTypes j v → v <+: text → v.length ≤ w.length
  last : ∀ j, SpecialAt tokens tokenTypes j w → j ≤ i

/-- No special token stands at the front of the text. -/
def NoSpecial (tokens : List Bytes) (tokenTypes : List ℤ) (text : Bytes) : Prop :=
  ∀ i w, SpecialAt tokens tokenTypes i w → w ≠ [] → ¬w <+: text

theorem SpecialAt.lt {i : ℕ} {w : Bytes} (h : SpecialAt tokens tokenTypes i w) :
    i < tokens.length := (List.getElem?_eq_some_iff.mp h.1).1

theorem Knows.find_nonneg {t : SpecialTokenTrie} (h : Knows tokens tokenTypes tokens.length t)
    {i : ℕ} {w : Bytes} (hs : SpecialAt tokens tokenTypes i w) : 0 ≤ t.root.find w := by
  rcases h w with ⟨-, hnone⟩ | ⟨j, -, hf, -⟩
  · exact absurd hs (hnone i hs.lt)
  · rw [hf]; exact Int.natCast_nonneg j

/-- The match finds the longest special token at the front of `text[start, stop)`, and `-1` when
there is none. -/
theorem matchAt_range {t : SpecialTokenTrie} (h : Knows tokens tokenTypes tokens.length t)
    (text : Bytes) (start stop : ℕ) :
    ((t.matchAt text start stop).1 = -1 ∧
        NoSpecial tokens tokenTypes ((text.take stop).drop start)) ∨
      ∃ i w, (t.matchAt text start stop).1 = (i : ℕ) ∧
        LongestSpecial tokens tokenTypes ((text.take stop).drop start) i w := by
  rw [SpecialTokenTrie.matchAt]
  simp only
  rcases TrieNode.walk_fst ((text.take stop).drop start) t.root (-1) with
    ⟨hr, hnone⟩ | ⟨p, hr, hp, hpre, hge, hmax⟩
  · refine .inl ⟨hr, fun i w hs hw hpre => ?_⟩
    exact absurd (h.find_nonneg hs) (not_le.mpr (hnone w hw hpre))
  · rcases h p with ⟨hf, -⟩ | ⟨i, -, hf, hs, hlast⟩
    · rw [hf] at hge
      exact absurd hge (by decide)
    · refine .inr ⟨i, p, hr.trans hf, hs, hp, hpre, fun j v hv hvpre => ?_, fun j hj => ?_⟩
      · exact hmax v hvpre (h.find_nonneg hv)
      · exact hlast j hj.lt hj

theorem matchAt_fst {t : SpecialTokenTrie} (h : Knows tokens tokenTypes tokens.length t)
    (text : Bytes) (start : ℕ) :
    ((t.matchAt text start text.length).1 = -1 ∧ NoSpecial tokens tokenTypes (text.drop start)) ∨
      ∃ i w, (t.matchAt text start text.length).1 = (i : ℕ) ∧
        LongestSpecial tokens tokenTypes (text.drop start) i w := by
  have hmatch := matchAt_range h text start text.length
  rwa [List.take_length] at hmatch

theorem LongestSpecial.not_none {text w : Bytes} {i : ℕ}
    (h : LongestSpecial tokens tokenTypes text i w) : ¬NoSpecial tokens tokenTypes text :=
  fun hnone => hnone i w h.special h.nonempty h.isPrefix

structure MatchCall where
  text : Bytes
  start : ℕ
  stop : ℕ

def SpecialTokenTrie.afterMatches (t : SpecialTokenTrie) (calls : List MatchCall) :
    SpecialTokenTrie :=
  calls.foldl (fun t c => (t.matchAt c.text c.start c.stop).2) t

theorem knows_afterMatches {n : ℕ} {t : SpecialTokenTrie} (h : Knows tokens tokenTypes n t)
    (calls : List MatchCall) : Knows tokens tokenTypes n (t.afterMatches calls) := by
  induction calls generalizing t with
  | nil => exact h
  | cons c calls ih => exact ih (knows_matchAt h c.text c.start c.stop)

/-- Whatever was matched before, a match in the built trie finds the last of the longest special
tokens at the front of `text[start, stop)`, and `-1` exactly when there is none. -/
theorem buildFromTokens_matchAt (hlen : tokens.length = tokenTypes.length) :
    ∃ trie, SpecialTokenTrie.buildFromTokens tokens tokenTypes = .ok trie ∧
      ∀ (calls : List MatchCall) (text : Bytes) (start stop : ℕ),
        start ≤ stop → stop ≤ text.length →
        (((trie.afterMatches calls).matchAt text start stop).1 = -1 ↔
            NoSpecial tokens tokenTypes ((text.take stop).drop start)) ∧
          (((trie.afterMatches calls).matchAt text start stop).1 ≠ -1 →
            ∃ i w, ((trie.afterMatches calls).matchAt text start stop).1 = (i : ℕ) ∧
              LongestSpecial tokens tokenTypes ((text.take stop).drop start) i w) := by
  obtain ⟨trie, hbuild, hknows⟩ := buildFromTokens_knows hlen.le
  refine ⟨trie, hbuild, fun calls text start stop _ _ => ?_⟩
  rcases matchAt_range (knows_afterMatches hknows calls) text start stop with
    ⟨hr, hnone⟩ | ⟨i, w, hr, hlong⟩
  · exact ⟨iff_of_true hr hnone, fun hne => absurd hr hne⟩
  · have hne : ((trie.afterMatches calls).matchAt text start stop).1 ≠ -1 := by
      rw [hr]
      omega
    exact ⟨iff_of_false hne hlong.not_none, fun _ => ⟨i, w, hr, hlong⟩⟩

/-- The tokens are `<a>`, `<`, an empty one, `<a>` again and the ordinary `<a>b`, the text is
`x<a>b`. -/
theorem buildFromTokens_matchAt_sample :
    ∃ trie, SpecialTokenTrie.buildFromTokens
        [[60, 97, 62], [60], [], [60, 97, 62], [60, 97, 62, 98]] [3, 4, 3, 3, 1] = .ok trie ∧
      (∃ i w, ((trie.afterMatches [⟨[60, 98], 0, 2⟩]).matchAt [120, 60, 97, 62, 98] 1 5).1 =
          (i : ℕ) ∧
        LongestSpecial [[60, 97, 62], [60], [], [60, 97, 62], [60, 97, 62, 98]] [3, 4, 3, 3, 1]
          [60, 97, 62, 98] i w) ∧
      ((trie.afterMatches [⟨[60, 98], 0, 2⟩]).matchAt [120, 60, 97, 62, 98] 1 1).1 = -1 := by
  obtain ⟨trie, hbuild, hmatch⟩ := @buildFromTokens_matchAt
    [[60, 97, 62], [60], [], [60, 97, 62], [60, 97, 62, 98]] [3, 4, 3, 3, 1] rfl
  refine ⟨trie, hbuild, ?_, ?_⟩
  · obtain ⟨hiff, hfound⟩ := hmatch [⟨[60, 98], 0, 2⟩] [120, 60, 97, 62, 98] 1 5
      (by decide) (by decide)
    refine hfound fun hnone => ?_
    exact hiff.mp hnone 3 [60, 97, 62] ⟨rfl, 3, rfl, by decide⟩ (by decide) (by decide)
  · have hiff := (hmatch [⟨[60, 98], 0, 2⟩] [120, 60, 97, 62, 98] 1 1 (by decide) (by decide)).1
    exact hiff.mpr fun i w _ hw hpre => hw (List.prefix_nil.mp hpre)

end ZInferLM.Tokenizer
