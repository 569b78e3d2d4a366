import Mathlib.Tactic

/-! # Ranks in a list

The rank of a value is the number of larger entries. In the sorted list the entries with a rank
below `k` are the first `k`, so a threshold taken there separates the `k` largest. -/

namespace ZInferLM.Library

section Order
variable {α : Type*} [LinearOrder α]

def sortDesc (xs : List α) : List α := xs.insertionSort (· ≥ ·)

/-- How many entries are larger than a value. -/
def rank (x : α) (xs : List α) : ℕ := xs.countP (x < ·)

variable {x y : α} {xs : List α}

theorem sortDesc_perm (xs : List α) : (sortDesc xs).Perm xs := List.perm_insertionSort _ xs

theorem length_sortDesc (xs : List α) : (sortDesc xs).length = xs.length :=
  (sortDesc_perm xs).length_eq

theorem pairwise_sortDesc (xs : List α) : (sortDesc xs).Pairwise (· ≥ ·) :=
  List.pairwise_insertionSort _ xs

theorem rank_sortDesc (x : α) (xs : List α) : rank x (sortDesc xs) = rank x xs :=
  (sortDesc_perm xs).countP_eq _

theorem rank_lt_length (h : x ∈ xs) : rank x xs < xs.length := by
  apply lt_of_le_of_ne List.countP_le_length
  intro hall
  have hx := List.countP_eq_length.mp hall x h
  simp at hx

theorem rank_le_rank (h : x ≤ y) (xs : List α) : rank y xs ≤ rank x xs := by
  apply List.countP_mono_left
  intro z _ hz
  rw [decide_eq_true_eq] at hz ⊢
  exact h.trans_lt hz

theorem rank_lt_rank (hy : y ∈ xs) (h : x < y) : rank y xs < rank x xs := by
  induction xs with
  | nil => exact absurd hy List.not_mem_nil
  | cons z xs ih =>
    have hle := rank_le_rank h.le xs
    rw [rank] at hle
    rw [rank, rank, List.countP_cons, List.countP_cons]
    rcases List.mem_cons.mp hy with rfl | hy
    · simp only [lt_self_iff_false, decide_false, Bool.false_eq_true, if_false, h, decide_true,
        if_true]
      exact Nat.lt_succ_of_le hle
    · have hlt := ih hy
      rw [rank, rank] at hlt
      by_cases hz : y < z
      · simp only [hz, h.trans hz, decide_true, if_true]
        exact Nat.succ_lt_succ hlt
      · simp only [hz, decide_false, Bool.false_eq_true, if_false, Nat.add_zero]
        exact hlt.trans_le (Nat.le_add_right _ _)

theorem rank_eq_zero (h : ∀ z ∈ xs, z ≤ x) : rank x xs = 0 := by
  rw [rank, List.countP_eq_zero]
  intro z hz hlt
  rw [decide_eq_true_eq] at hlt
  exact absurd (h z hz) (not_le.mpr hlt)

/-- The entries above a value are the first ones of a sorted list. -/
theorem lt_getElem_iff {k : ℕ} (hs : xs.Pairwise (· ≥ ·)) (hk : xs[k]? = some y) :
    x < y ↔ k < rank x xs := by
  induction xs generalizing k with
  | nil => cases hk
  | cons z xs ih =>
    obtain ⟨hhead, htail⟩ := List.pairwise_cons.mp hs
    have hcons : rank x (z :: xs) = rank x xs + if x < z then 1 else 0 := by
      simp only [rank, List.countP_cons, decide_eq_true_eq]
    by_cases hx : x < z
    · rw [hcons, if_pos hx]
      cases k with
      | zero =>
        cases hk
        exact iff_of_true hx (Nat.succ_pos _)
      | succ k => rw [ih htail hk, Nat.add_lt_add_iff_right]
    · -- nothing behind the head is larger than the head
      have hall : ∀ w ∈ z :: xs, w ≤ x := by
        rw [List.forall_mem_cons]
        exact ⟨not_lt.mp hx, fun w hw => (hhead w hw).trans (not_lt.mp hx)⟩
      rw [rank_eq_zero hall]
      exact iff_of_false (not_lt.mpr (hall y (List.mem_of_getElem? hk))) (Nat.not_lt_zero k)

/-- Being above the entry at a place of the sorted list is having a small rank. -/
theorem lt_sortDesc_iff {k : ℕ} (hk : (sortDesc xs)[k]? = some y) : x < y ↔ k < rank x xs := by
  rw [lt_getElem_iff (pairwise_sortDesc xs) hk, rank_sortDesc]

theorem sortDesc_rank (hx : x ∈ xs) : (sortDesc xs)[rank x xs]? = some x := by
  have hlt : rank x xs < (sortDesc xs).length := by
    rw [length_sortDesc]
    exact rank_lt_length hx
  have hget := List.getElem?_eq_getElem hlt
  obtain ⟨k, hk, hkx⟩ := List.getElem_of_mem ((sortDesc_perm xs).mem_iff.mpr hx)
  have hkget : (sortDesc xs)[k]? = some x := by rw [List.getElem?_eq_getElem hk, hkx]
  have hle : (sortDesc xs)[rank x xs] ≤ x := by
    rw [← not_lt, lt_sortDesc_iff hget]
    exact Nat.lt_irrefl _
  have hge : rank x xs ≤ k := by
    by_contra hkr
    exact lt_irrefl x ((lt_sortDesc_iff hkget).mpr (not_le.mp hkr))
  rcases Nat.lt_or_eq_of_le hge with hrk | hrk
  · have hpair := List.pairwise_iff_getElem.mp (pairwise_sortDesc xs) _ _ hlt hk hrk
    rw [hkx] at hpair
    rw [hget, le_antisymm hle hpair]
  · rw [hrk, hkget]

/-- Distinct entries have the ranks of their places in the sorted list. -/
theorem rank_of_sortDesc (hd : xs.Nodup) {k : ℕ} (hk : (sortDesc xs)[k]? = some x) :
    rank x xs = k := by
  have hx : x ∈ xs := (sortDesc_perm xs).mem_iff.mp (List.mem_of_getElem? hk)
  have hlt : rank x xs < (sortDesc xs).length := by
    rw [length_sortDesc]
    exact rank_lt_length hx
  apply (List.getElem?_inj hlt ((sortDesc_perm xs).nodup_iff.mpr hd)).mp
  rw [sortDesc_rank hx, hk]

theorem exists_rank (hd : xs.Nodup) {k : ℕ} (hk : k < xs.length) :
    ∃ (i : ℕ) (x : α), xs[i]? = some x ∧ rank x xs = k := by
  rw [← length_sortDesc xs] at hk
  have hget := List.getElem?_eq_getElem hk
  have hmem := (sortDesc_perm xs).mem_iff.mp (List.mem_of_getElem? hget)
  obtain ⟨i, hi⟩ := List.mem_iff_getElem?.mp hmem
  exact ⟨i, _, hi, rank_of_sortDesc hd hget⟩

/-- A map that keeps the order keeps the ranks. -/
theorem rank_map {β : Type*} [LinearOrder β] {f : α → β} (hf : StrictMono f) (x : α)
    (xs : List α) : rank (f x) (xs.map f) = rank x xs := by
  rw [rank, rank, List.countP_map]
  apply List.countP_congr
  intro y _
  simp only [Function.comp_apply, hf.lt_iff_lt]

end Order

end ZInferLM.Library
