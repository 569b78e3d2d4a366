import Mathlib.Tactic

/-! # Merging adjacent pairs by rank

Two ways to rewrite a list with a ranked table of pairs: replace the leftmost occurrence of the
pair of lowest rank and rank everything again, or replace all its occurrences before the next
look at the ranks. They reach the same list when ranks are distinct and a joined pair only
occurs in pairs of higher rank. -/

namespace ZInferLM.Library.PairMerging

variable {α : Type*} [DecidableEq α]

/-- `a` is followed by `b` somewhere. -/
def Adjacent (a b : α) (l : List α) : Prop := [a, b] <:+: l

omit [DecidableEq α] in
@[simp] theorem not_adjacent_nil (a b : α) : ¬Adjacent a b [] := by simp [Adjacent]

omit [DecidableEq α] in
@[simp] theorem not_adjacent_singleton (a b x : α) : ¬Adjacent a b [x] := by
  simp [Adjacent, List.infix_cons_iff, List.cons_prefix_cons]

omit [DecidableEq α] in
theorem adjacent_cons {a b x y : α} {l : List α} :
    Adjacent a b (x :: y :: l) ↔ (a = x ∧ b = y) ∨ Adjacent a b (y :: l) := by
  rw [Adjacent, List.infix_cons_iff, List.cons_prefix_cons, List.cons_prefix_cons]
  simp [Adjacent]

omit [DecidableEq α] in
theorem Adjacent.mem_left {a b : α} {l : List α} (h : Adjacent a b l) : a ∈ l :=
  h.subset (by simp)

omit [DecidableEq α] in
theorem Adjacent.mem_right {a b : α} {l : List α} (h : Adjacent a b l) : b ∈ l :=
  h.subset (by simp)

def mergeFirst (join : α → α → α) (p q : α) : List α → List α
  | a :: b :: l => if a = p ∧ b = q then join p q :: l else a :: mergeFirst join p q (b :: l)
  | l => l

def mergeAll (join : α → α → α) (p q : α) : List α → List α
  | a :: b :: l =>
    if a = p ∧ b = q then join p q :: mergeAll join p q l else a :: mergeAll join p q (b :: l)
  | l => l

variable {join : α → α → α} {rank : α → α → Option ℕ} {p q : α} {l : List α}

theorem mergeAll_of_not_adjacent (h : ¬Adjacent p q l) : mergeAll join p q l = l := by
  fun_induction mergeAll join p q l with
  | case1 a b l hab => exact absurd (adjacent_cons.mpr (.inl ⟨hab.1.symm, hab.2.symm⟩)) h
  | case2 a b l hab ih => rw [ih fun hadj => h (adjacent_cons.mpr (.inr hadj))]
  | case3 l => rfl

theorem length_mergeFirst (h : Adjacent p q l) :
    (mergeFirst join p q l).length + 1 = l.length := by
  fun_induction mergeFirst join p q l with
  | case1 a b l hab => rfl
  | case2 a b l hab ih =>
    have hadj := (adjacent_cons.mp h).resolve_left fun he => hab ⟨he.1.symm, he.2.symm⟩
    have := ih hadj
    simp only [List.length_cons] at *
    omega
  | case3 l hl =>
    cases l with
    | nil => simp at h
    | cons a l =>
      cases l with
      | nil => simp at h
      | cons b l => exact absurd rfl (hl a b l)

theorem mem_mergeFirst {x : α} (h : x ∈ mergeFirst join p q l) : x ∈ l ∨ x = join p q := by
  fun_induction mergeFirst join p q l with
  | case1 a b l hab =>
    rcases List.mem_cons.mp h with rfl | h
    · exact .inr rfl
    · exact .inl (List.mem_cons_of_mem _ (List.mem_cons_of_mem _ h))
  | case2 a b l hab ih =>
    rcases List.mem_cons.mp h with rfl | h
    · exact .inl List.mem_cons_self
    · exact (ih h).imp (List.mem_cons_of_mem _) id
  | case3 l => exact .inl h

/-- A merge commutes with an injective map that respects joining. -/
theorem mergeFirst_map {β : Type*} [DecidableEq β] {join' : β → β → β} {f : α → β}
    (hf : Function.Injective f) (hjoin : ∀ a b, f (join a b) = join' (f a) (f b)) :
    mergeFirst join' (f p) (f q) (l.map f) = (mergeFirst join p q l).map f := by
  fun_induction mergeFirst join p q l with
  | case1 a b l hab =>
    rw [List.map_cons, List.map_cons, mergeFirst, if_pos ⟨congrArg f hab.1, congrArg f hab.2⟩,
      List.map_cons, hjoin]
  | case2 a b l hab ih =>
    have hne : ¬(f a = f p ∧ f b = f q) := fun h => hab ⟨hf h.1, hf h.2⟩
    rw [List.map_cons] at ih
    rw [List.map_cons, List.map_cons, mergeFirst, if_neg hne, ih, List.map_cons]
  | case3 l hl =>
    cases l with
    | nil => rfl
    | cons a l =>
      cases l with
      | nil => rfl
      | cons b l => exact absurd rfl (hl a b l)

theorem length_mergeAll_le : (mergeAll join p q l).length ≤ l.length := by
  fun_induction mergeAll join p q l with
  | case1 a b l hab ih => simp only [List.length_cons]; omega
  | case2 a b l hab ih => simp only [List.length_cons] at *; omega
  | case3 l => rfl

/-- After a merge the list starts as before, or with the joined pair. -/
theorem head_mergeFirst {a : α} :
    (mergeFirst join p q (a :: l)).head? = some a ∨
      (mergeFirst join p q (a :: l)).head? = some (join p q) := by
  cases l with
  | nil => exact .inl rfl
  | cons b l =>
    rw [mergeFirst]
    split
    · exact .inr rfl
    · exact .inl rfl

theorem mergeAll_cons_of_head {a : α} (h : a = p → l.head? ≠ some q) :
    mergeAll join p q (a :: l) = a :: mergeAll join p q l := by
  cases l with
  | nil => rfl
  | cons b l =>
    rw [mergeAll, if_neg]
    rintro ⟨ha, rfl⟩
    exact h ha rfl

/-- A first merge does not change what merging all occurrences gives. -/
theorem mergeAll_mergeFirst (hp : join p q ≠ p) (hq : join p q ≠ q) :
    mergeAll join p q (mergeFirst join p q l) = mergeAll join p q l := by
  fun_induction mergeFirst join p q l with
  | case1 a b l hab =>
    rw [mergeAll_cons_of_head fun h => absurd h hp, mergeAll, if_pos hab]
  | case2 a b l hab ih =>
    rw [mergeAll, if_neg hab, ← ih]
    refine mergeAll_cons_of_head fun ha hhead => ?_
    rcases @head_mergeFirst α _ join p q l b with h | h
    · rw [h, Option.some.injEq] at hhead
      exact hab ⟨ha, hhead⟩
    · rw [h, Option.some.injEq] at hhead
      exact hq hhead
  | case3 l => rfl

/-- A merge only creates pairs with the joined element. -/
theorem adjacent_mergeFirst {a b : α} (h : Adjacent a b (mergeFirst join p q l)) :
    Adjacent a b l ∨ a = join p q ∨ b = join p q := by
  fun_induction mergeFirst join p q l with
  | case1 x y l hxy =>
    cases l with
    | nil => simp at h
    | cons c l =>
      rcases adjacent_cons.mp h with ⟨ha, -⟩ | h
      · exact .inr (.inl ha)
      · exact .inl (adjacent_cons.mpr (.inr (adjacent_cons.mpr (.inr h))))
  | case2 x y l hxy ih =>
    have hhead := @head_mergeFirst α _ join p q l y
    obtain ⟨z, zs, hz⟩ : ∃ z zs, mergeFirst join p q (y :: l) = z :: zs := by
      cases hm : mergeFirst join p q (y :: l) with
      | nil => simp [hm] at hhead
      | cons z zs => exact ⟨z, zs, rfl⟩
    rw [hz] at h ih hhead
    simp only [List.head?_cons, Option.some.injEq] at hhead
    rcases adjacent_cons.mp h with ⟨rfl, rfl⟩ | h
    · rcases hhead with rfl | rfl
      · exact .inl (adjacent_cons.mpr (.inl ⟨rfl, rfl⟩))
      · exact .inr (.inr rfl)
    · exact (ih h).imp (fun h => adjacent_cons.mpr (.inr h)) id
  | case3 l => exact .inl h

/-- The pair has a rank, occurs, and no pair that occurs has a lower rank. -/
structure IsLowest (rank : α → α → Option ℕ) (l : List α) (p q : α) (r : ℕ) : Prop where
  ranked : rank p q = some r
  adjacent : Adjacent p q l
  le : ∀ a b s, Adjacent a b l → rank a b = some s → r ≤ s

def Final (rank : α → α → Option ℕ) (l : List α) : Prop :=
  ∀ a b, Adjacent a b l → rank a b = none

/-- Replace the leftmost occurrence of the lowest pair until none has a rank. -/
inductive Leftmost (join : α → α → α) (rank : α → α → Option ℕ) : List α → List α → Prop where
  | done {l : List α} : Final rank l → Leftmost join rank l l
  | step {l n : List α} {p q : α} {r : ℕ} : IsLowest rank l p q r →
      Leftmost join rank (mergeFirst join p q l) n → Leftmost join rank l n

/-- Replace all occurrences of the lowest pair, round after round. -/
inductive Rounds (join : α → α → α) (rank : α → α → Option ℕ) : List α → List α → Prop where
  | done {l : List α} : Final rank l → Rounds join rank l l
  | round {l n : List α} {p q : α} {r : ℕ} : IsLowest rank l p q r →
      Rounds join rank (mergeAll join p q l) n → Rounds join rank l n

/-- Distinct ranks, and a joined pair only occurs in pairs of higher rank. -/
structure Ordered (join : α → α → α) (rank : α → α → Option ℕ) : Prop where
  injective : ∀ a b c d r, rank a b = some r → rank c d = some r → a = c ∧ b = d
  left : ∀ p q x r s, rank p q = some r → rank (join p q) x = some s → r < s
  right : ∀ p q x r s, rank p q = some r → rank x (join p q) = some s → r < s

omit [DecidableEq α] in
theorem Ordered.join_ne_left (h : Ordered join rank) {r : ℕ} (hr : rank p q = some r) :
    join p q ≠ p := fun he =>
  absurd (h.left p q q r r hr (by rw [he]; exact hr)) (lt_irrefl r)

omit [DecidableEq α] in
theorem Ordered.join_ne_right (h : Ordered join rank) {r : ℕ} (hr : rank p q = some r) :
    join p q ≠ q := fun he =>
  absurd (h.right p q p r r hr (by rw [he]; exact hr)) (lt_irrefl r)

omit [DecidableEq α] in
theorem Ordered.lowest_unique (h : Ordered join rank) {p' q' : α} {r r' : ℕ}
    (h1 : IsLowest rank l p q r) (h2 : IsLowest rank l p' q' r') : p = p' ∧ q = q' := by
  have hle := h1.le _ _ _ h2.adjacent h2.ranked
  have hge := h2.le _ _ _ h1.adjacent h1.ranked
  exact h.injective _ _ _ _ r h1.ranked (le_antisymm hle hge ▸ h2.ranked)

/-- As long as the lowest pair occurs, it stays the lowest. -/
theorem Ordered.lowest_mergeFirst (h : Ordered join rank) {r : ℕ} (hl : IsLowest rank l p q r)
    (hadj : Adjacent p q (mergeFirst join p q l)) :
    IsLowest rank (mergeFirst join p q l) p q r := by
  refine ⟨hl.ranked, hadj, fun a b s hab hs => ?_⟩
  rcases adjacent_mergeFirst hab with hab | rfl | rfl
  · exact hl.le a b s hab hs
  · exact (h.left _ _ _ _ _ hl.ranked hs).le
  · exact (h.right _ _ _ _ _ hl.ranked hs).le

omit [DecidableEq α] in
theorem Final.not_lowest {r : ℕ} (h : Final rank l) : ¬IsLowest rank l p q r := fun hl =>
  absurd ((h p q hl.adjacent).symm.trans hl.ranked) (by simp)

/-- The single steps run through the list that a whole round produces. -/
theorem Ordered.leftmost_mergeAll (h : Ordered join rank) {n : List α} {r : ℕ}
    (hl : IsLowest rank l p q r) (hn : Leftmost join rank l n) :
    Leftmost join rank (mergeAll join p q l) n := by
  induction hlen : l.length using Nat.strong_induction_on generalizing l with
  | _ k ih =>
  cases hn with
  | done hf => exact absurd hl hf.not_lowest
  | step hl' hn =>
    obtain ⟨rfl, rfl⟩ := h.lowest_unique hl hl'
    have hshort := @length_mergeFirst α _ join _ _ _ hl.adjacent
    rw [← mergeAll_mergeFirst (h.join_ne_left hl.ranked) (h.join_ne_right hl.ranked)]
    by_cases hadj : Adjacent p q (mergeFirst join p q l)
    · exact ih _ (by omega) (h.lowest_mergeFirst hl hadj) hn rfl
    · rwa [mergeAll_of_not_adjacent hadj]

theorem length_mergeAll_lt (h : Adjacent p q l) : (mergeAll join p q l).length < l.length := by
  fun_induction mergeAll join p q l with
  | case1 a b l hab =>
    have := @length_mergeAll_le α _ join p q l
    simp only [List.length_cons]
    omega
  | case2 a b l hab ih =>
    have hadj := (adjacent_cons.mp h).resolve_left fun he => hab ⟨he.1.symm, he.2.symm⟩
    simpa only [List.length_cons, Nat.add_lt_add_iff_right] using ih hadj
  | case3 l hl =>
    cases l with
    | nil => simp at h
    | cons a l =>
      cases l with
      | nil => simp at h
      | cons b l => exact absurd rfl (hl a b l)

/-- Merging the leftmost pair first ends where the rounds end. -/
theorem Ordered.rounds_of_leftmost (h : Ordered join rank) {n : List α}
    (hn : Leftmost join rank l n) : Rounds join rank l n := by
  induction hlen : l.length using Nat.strong_induction_on generalizing l with
  | _ k ih =>
  cases hn with
  | done hf => exact .done hf
  | step hl hn =>
    have hall := h.leftmost_mergeAll hl (.step hl hn)
    exact .round hl (ih _ (hlen ▸ length_mergeAll_lt hl.adjacent) hall rfl)

theorem Ordered.rounds_unique (h : Ordered join rank) {n m : List α} (hn : Rounds join rank l n)
    (hm : Rounds join rank l m) : n = m := by
  induction hn with
  | done hf =>
    cases hm with
    | done => rfl
    | round hl => exact absurd hl hf.not_lowest
  | round hl _ ih =>
    cases hm with
    | done hf => exact absurd hl hf.not_lowest
    | round hl' hm =>
      obtain ⟨rfl, rfl⟩ := h.lowest_unique hl hl'
      exact ih hm

def lowest (rank : α → α → Option ℕ) : List α → Option (α × α × ℕ)
  | a :: b :: l =>
    match rank a b, lowest rank (b :: l) with
    | some r, some (p, q, s) => if s < r then some (p, q, s) else some (a, b, r)
    | some r, none => some (a, b, r)
    | none, found => found
  | _ => none

/-- Round after round until no pair has a rank, `none` when the fuel is used up before. -/
def mergeRounds (join : α → α → α) (rank : α → α → Option ℕ) : ℕ → List α → Option (List α)
  | 0, _ => none
  | fuel + 1, l =>
    match lowest rank l with
    | none => some l
    | some (p, q, _) => mergeRounds join rank fuel (mergeAll join p q l)

omit [DecidableEq α] in
theorem IsLowest.front {a b : α} {r : ℕ} (hr : rank a b = some r)
    (hle : ∀ c d s, Adjacent c d (b :: l) → rank c d = some s → r ≤ s) :
    IsLowest rank (a :: b :: l) a b r := by
  constructor
  · exact hr
  · exact adjacent_cons.mpr (.inl ⟨rfl, rfl⟩)
  · intro c d s hcd hs
    rcases adjacent_cons.mp hcd with ⟨rfl, rfl⟩ | hcd
    · rw [hr, Option.some.injEq] at hs
      exact hs.le
    · exact hle c d s hcd hs

omit [DecidableEq α] in
theorem IsLowest.later {a b : α} {s : ℕ} (h : IsLowest rank (b :: l) p q s)
    (hle : ∀ r, rank a b = some r → s ≤ r) : IsLowest rank (a :: b :: l) p q s := by
  constructor
  · exact h.ranked
  · exact adjacent_cons.mpr (.inr h.adjacent)
  · intro c d t hcd ht
    rcases adjacent_cons.mp hcd with ⟨rfl, rfl⟩ | hcd
    · exact hle t ht
    · exact h.le c d t hcd ht

omit [DecidableEq α] in
theorem lowest_spec (rank : α → α → Option ℕ) (l : List α) :
    (lowest rank l = none ∧ Final rank l) ∨
      ∃ p q r, lowest rank l = some (p, q, r) ∧ IsLowest rank l p q r := by
  induction l with
  | nil => exact .inl ⟨rfl, fun c d hcd => by simp at hcd⟩
  | cons a l ih =>
    cases l with
    | nil => exact .inl ⟨rfl, fun c d hcd => by simp at hcd⟩
    | cons b l =>
      rw [lowest]
      rcases ih with ⟨hn, hf⟩ | ⟨p, q, s, he, hl⟩
      · rw [hn]
        cases hr : rank a b with
        | none =>
          refine .inl ⟨rfl, fun c d hcd => ?_⟩
          rcases adjacent_cons.mp hcd with ⟨rfl, rfl⟩ | hcd
          · exact hr
          · exact hf c d hcd
        | some r =>
          refine .inr ⟨a, b, r, rfl, .front hr fun c d t hcd ht => ?_⟩
          rw [hf c d hcd] at ht
          cases ht
      · rw [he]
        cases hr : rank a b with
        | none => exact .inr ⟨p, q, s, rfl, hl.later fun r h => by rw [hr] at h; cases h⟩
        | some r =>
          by_cases hlt : s < r
          · refine .inr ⟨p, q, s, if_pos hlt, hl.later fun t ht => ?_⟩
            rw [hr, Option.some.injEq] at ht
            omega
          · refine .inr ⟨a, b, r, if_neg hlt, .front hr fun c d t hcd ht => ?_⟩
            exact (not_lt.mp hlt).trans (hl.le c d t hcd ht)

/-- With one round for each element the program ends, and it ends where the rounds end. -/
theorem mergeRounds_spec {fuel : ℕ} (hfuel : l.length < fuel) :
    ∃ n, mergeRounds join rank fuel l = some n ∧ Rounds join rank l n := by
  induction fuel generalizing l with
  | zero => exact absurd hfuel (Nat.not_lt_zero _)
  | succ fuel ih =>
    rw [mergeRounds]
    rcases lowest_spec rank l with ⟨hn, hf⟩ | ⟨p, q, r, he, hl⟩
    · exact ⟨l, by rw [hn], .done hf⟩
    · have hshort := @length_mergeAll_lt α _ join p q l hl.adjacent
      obtain ⟨n, hn, hr⟩ := ih (l := mergeAll join p q l) (by omega)
      exact ⟨n, by rw [he]; exact hn, .round hl hr⟩

end ZInferLM.Library.PairMerging
