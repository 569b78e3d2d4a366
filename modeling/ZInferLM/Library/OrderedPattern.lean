import Mathlib.Tactic

/-! # Patterns with ordered choice

Backtracking semantics of the regular expressions whose repetitions are greedy and range over
one symbol class. `ends` lists the lengths of the prefixes a pattern can consume, in the order
in which a backtracking engine tries them; the engine reports the first one, at the leftmost
position where there is one. -/

namespace ZInferLM.Library.OrderedPattern

inductive Pattern (κ : Type*) where
  | empty
  | cls (c : κ)
  | rep (c : κ) (lo : ℕ) (hi : Option ℕ)
  | notAhead (c : κ)
  | seq (p q : Pattern κ)
  | alt (p q : Pattern κ)

def Pattern.choice {κ : Type*} : List (Pattern κ) → Pattern κ
  | [] => .empty
  | [p] => p
  | p :: q :: ps => .alt p (choice (q :: ps))

/-- `hi, hi - 1, ..., lo`: greedy repetition tries the longest count first. -/
def descending (lo hi : ℕ) : List ℕ := (List.range' lo (hi + 1 - lo)).reverse

variable {κ α : Type*} (mem : κ → α → Bool)

/-- How many symbols of the class stand at the front. -/
def run (c : κ) (xs : List α) : ℕ := (xs.takeWhile (mem c)).length

def Pattern.ends : Pattern κ → List α → List ℕ
  | .empty, _ => [0]
  | .cls c, xs => if xs.head?.any (mem c) then [1] else []
  | .rep c lo hi, xs => descending lo (hi.elim (run mem c xs) (min (run mem c xs)))
  | .notAhead c, xs => if xs.head?.any (mem c) then [] else [0]
  | .seq p q, xs => (p.ends xs).flatMap fun k => (q.ends (xs.drop k)).map (k + ·)
  | .alt p q, xs => p.ends xs ++ q.ends xs

/-- The leftmost match: symbols skipped before it and its length. -/
def Pattern.search (p : Pattern κ) : List α → Option (ℕ × ℕ)
  | [] => ((p.ends mem []).head?).map (0, ·)
  | x :: xs =>
    match (p.ends mem (x :: xs)).head? with
    | some n => some (0, n)
    | none => (p.search xs).map fun m => (m.1 + 1, m.2)

/-- A lower bound of the lengths a pattern can consume. -/
def Pattern.minLength : Pattern κ → ℕ
  | .empty => 0
  | .cls _ => 1
  | .rep _ lo _ => lo
  | .notAhead _ => 0
  | .seq p q => p.minLength + q.minLength
  | .alt p q => min p.minLength q.minLength

theorem mem_descending {lo hi n : ℕ} : n ∈ descending lo hi ↔ lo ≤ n ∧ n ≤ hi := by
  simp only [descending, List.mem_reverse, List.mem_range'_1]
  omega

theorem run_le (c : κ) (xs : List α) : run mem c xs ≤ xs.length :=
  (List.takeWhile_sublist _).length_le

theorem Pattern.minLength_le {p : Pattern κ} {xs : List α} {n : ℕ} (h : n ∈ p.ends mem xs) :
    p.minLength ≤ n := by
  induction p generalizing xs n with
  | empty => exact Nat.zero_le n
  | cls c =>
    simp only [ends] at h
    split_ifs at h <;> simp_all [minLength]
  | rep c lo hi => exact (mem_descending.mp h).1
  | notAhead c => exact Nat.zero_le n
  | seq p q ihp ihq =>
    simp only [ends, List.mem_flatMap, List.mem_map] at h
    obtain ⟨k, hk, m, hm, rfl⟩ := h
    exact Nat.add_le_add (ihp hk) (ihq hm)
  | alt p q ihp ihq =>
    rcases List.mem_append.mp h with h | h
    · exact (Nat.min_le_left _ _).trans (ihp h)
    · exact (Nat.min_le_right _ _).trans (ihq h)

theorem Pattern.ends_le {p : Pattern κ} {xs : List α} {n : ℕ} (h : n ∈ p.ends mem xs) :
    n ≤ xs.length := by
  induction p generalizing xs n with
  | empty => simp_all [ends]
  | cls c =>
    simp only [ends] at h
    cases xs with
    | nil => simp at h
    | cons x xs => split_ifs at h <;> simp_all
  | rep c lo hi =>
    have hn := (mem_descending.mp h).2
    have hr := run_le mem c xs
    cases hi with
    | none => exact hn.trans hr
    | some m => exact (hn.trans (Nat.min_le_left _ _)).trans hr
  | notAhead c =>
    simp only [ends] at h
    split_ifs at h <;> simp_all
  | seq p q ihp ihq =>
    simp only [ends, List.mem_flatMap, List.mem_map] at h
    obtain ⟨k, hk, m, hm, rfl⟩ := h
    have h1 := ihp hk
    have h2 := ihq hm
    rw [List.length_drop] at h2
    omega
  | alt p q ihp ihq =>
    rcases List.mem_append.mp h with h | h
    · exact ihp h
    · exact ihq h

def Pattern.Matches (p : Pattern κ) (xs : List α) : Prop := p.ends mem xs ≠ []

theorem Pattern.matches_alt {p q : Pattern κ} {xs : List α} :
    (Pattern.alt p q).Matches mem xs ↔ p.Matches mem xs ∨ q.Matches mem xs := by
  simp only [Matches, ends, ne_eq, List.append_eq_nil_iff]
  tauto

theorem Pattern.matches_choice {ps : List (Pattern κ)} {p : Pattern κ} {xs : List α}
    (hp : p ∈ ps) (h : p.Matches mem xs) : (choice ps).Matches mem xs := by
  induction ps with
  | nil => simp at hp
  | cons q ps ih =>
    cases ps with
    | nil => rwa [choice, ← List.mem_singleton.mp hp]
    | cons r ps =>
      rw [choice, matches_alt]
      rcases List.mem_cons.mp hp with rfl | hp
      · exact .inl h
      · exact .inr (ih hp)

theorem Pattern.matches_seq {p q : Pattern κ} {xs : List α} {k : ℕ} (hk : k ∈ p.ends mem xs)
    (h : q.Matches mem (xs.drop k)) : (Pattern.seq p q).Matches mem xs := by
  obtain ⟨m, hm⟩ := List.exists_mem_of_ne_nil _ h
  refine List.ne_nil_of_mem (a := k + m) ?_
  exact List.mem_flatMap.mpr ⟨k, hk, List.mem_map.mpr ⟨m, hm, rfl⟩⟩

theorem Pattern.one_mem_rep {c : κ} {x : α} {xs : List α} {hi : Option ℕ} (hx : mem c x = true)
    (hhi : ∀ m, hi = some m → 1 ≤ m) : 1 ∈ (Pattern.rep c 1 hi).ends mem (x :: xs) := by
  have hr : 1 ≤ run mem c (x :: xs) := by simp [run, hx]
  refine mem_descending.mpr ⟨le_rfl, ?_⟩
  cases hi with
  | none => exact hr
  | some m => exact Nat.le_min.mpr ⟨hr, hhi m rfl⟩

theorem Pattern.zero_mem_rep (c : κ) (xs : List α) (hi : Option ℕ) :
    0 ∈ (Pattern.rep c 0 hi).ends mem xs :=
  mem_descending.mpr ⟨le_rfl, Nat.zero_le _⟩

/-- A pattern that matches here is reported here, with the first length it tries. -/
theorem Pattern.search_of_matches {p : Pattern κ} {xs : List α} (h : p.Matches mem xs) :
    ∃ n, p.search mem xs = some (0, n) ∧ p.minLength ≤ n ∧ n ≤ xs.length := by
  obtain ⟨n, ns, hn⟩ := List.exists_cons_of_ne_nil h
  have hmem : n ∈ p.ends mem xs := by simp [hn]
  refine ⟨n, ?_, p.minLength_le mem hmem, p.ends_le mem hmem⟩
  cases xs <;> simp [search, hn]

theorem Pattern.mem_seq {p q : Pattern κ} {xs : List α} {n : ℕ} :
    n ∈ (seq p q).ends mem xs ↔ ∃ k ∈ p.ends mem xs, ∃ j ∈ q.ends mem (xs.drop k), k + j = n := by
  simp only [ends, List.mem_flatMap, List.mem_map]

theorem Pattern.mem_choice {ps : List (Pattern κ)} {xs : List α} {n : ℕ} (hne : ps ≠ [])
    (h : n ∈ (choice ps).ends mem xs) : ∃ p ∈ ps, n ∈ p.ends mem xs := by
  induction ps with
  | nil => exact absurd rfl hne
  | cons p ps ih =>
    cases ps with
    | nil => exact ⟨p, List.mem_cons_self, h⟩
    | cons q ps =>
      rcases List.mem_append.mp h with h | h
      · exact ⟨p, List.mem_cons_self, h⟩
      · obtain ⟨r, hr, hn⟩ := ih (List.cons_ne_nil q ps) h
        exact ⟨r, List.mem_cons_of_mem _ hr, hn⟩

theorem Pattern.mem_of_rep {c : κ} {lo : ℕ} {hi : Option ℕ} {xs : List α} {n : ℕ}
    (h : n ∈ (rep c lo hi).ends mem xs) : ∀ x ∈ xs.take n, mem c x = true := by
  have hle : n ≤ run mem c xs := by
    have hn := (mem_descending.mp h).2
    cases hi with
    | none => exact hn
    | some m => exact hn.trans (Nat.min_le_left _ _)
  intro x hx
  have hpre : xs.take n <+: xs.takeWhile (mem c) := by
    apply List.prefix_of_prefix_length_le (List.take_prefix n xs) (List.takeWhile_prefix _)
    exact (List.length_take_le n xs).trans hle
  exact List.all_eq_true.mp List.all_takeWhile x (hpre.mem hx)

theorem Pattern.mem_ends_of_search {p : Pattern κ} {xs : List α} {n : ℕ}
    (h : p.search mem xs = some (0, n)) : n ∈ p.ends mem xs := by
  cases xs with
  | nil =>
    rw [search, Option.map_eq_some_iff] at h
    obtain ⟨m, hm, heq⟩ := h
    cases heq
    exact List.mem_of_mem_head? hm
  | cons x xs =>
    rw [search] at h
    cases hhead : (p.ends mem (x :: xs)).head? with
    | some m =>
      rw [hhead] at h
      cases h
      exact List.mem_of_mem_head? hhead
    | none =>
      rw [hhead, Option.map_eq_some_iff] at h
      obtain ⟨m, _, heq⟩ := h
      cases heq

end ZInferLM.Library.OrderedPattern
