import ZInferLM.Library.Machine

/-! # The inputs of a forward pass

`set_inputs` fills the tensors of the tokens, their positions and the mask, whose row for a token
says which columns of the cache it may see. The entry of a column is kept as whether it is open,
that is `0` and not `-INFINITY`. The rows of the mask stand one behind the other in one vector. -/

namespace ZInferLM.Library

variable {α β : Type*}

/-- Write `f 0, f 1, …, f (n - 1)` from an index on. -/
def writeRow (f : ℕ → α) (start : ℕ) : ℕ → List α → List α
  | 0, data => data
  | n + 1, data => (writeRow f start n data).set (start + n) (f n)

def rows (width : ℕ) : ℕ → List α → List (List α)
  | 0, _ => []
  | n + 1, data => data.take width :: rows width n (data.drop width)

theorem writeRow_append (f : ℕ → α) {n : ℕ} (front rest : List α) (h : n ≤ rest.length) :
    writeRow f front.length n (front ++ rest) = front ++ (List.range n).map f ++ rest.drop n := by
  induction n with
  | zero => simp [writeRow]
  | succ n ih =>
    have hlen : (front ++ (List.range n).map f).length = front.length + n := by simp
    rw [writeRow, ih (by omega), ← hlen, List.set_append_right _ _ (Nat.le_refl _), Nat.sub_self,
      List.drop_eq_getElem_cons h, List.set_cons_zero, List.range_succ, List.map_append]
    simp only [List.map_cons, List.map_nil, List.append_assoc, List.cons_append, List.nil_append]

/-- Rows that were put one behind the other are read back. -/
theorem rows_flatMap {width : ℕ} {f : β → List α} {xs : List β}
    (h : ∀ x ∈ xs, (f x).length = width) : rows width xs.length (xs.flatMap f) = xs.map f := by
  induction xs with
  | nil => rfl
  | cons x xs ih =>
    obtain ⟨hx, hxs⟩ := List.forall_mem_cons.mp h
    rw [List.flatMap_cons, List.length_cons, rows, List.take_left' hx, List.drop_left' hx, ih hxs,
      List.map_cons]

end ZInferLM.Library

namespace ZInferLM
open Library Library.Machine

namespace Inference

structure Inputs where
  input : List ℕ
  positions : List ℤ
  mask : List Bool
  deriving DecidableEq

/-- The loop over the rows of the mask, up to row `q`. -/
def maskRows (maxContextLen : ℕ) (pastTokens : ℤ) : ℕ → List Bool → Outcome (List Bool)
  | 0, data => .ok data
  | q + 1, data => do
    let data ← maskRows maxContextLen pastTokens q data
    let posQ ← addInt pastTokens (toInt q)
    .ok (writeRow (fun k => decide (toInt k ≤ posQ)) (q * maxContextLen) maxContextLen data)

def setInputs (maxContextLen : ℕ) (tokens : List ℕ) (pastTokens : ℤ) : Outcome Inputs := do
  let pos ← Outcome.collect (fun i : ℕ => addInt pastTokens (toInt i)) (List.range tokens.length)
  let maskData ← maskRows maxContextLen pastTokens tokens.length
    (List.replicate (maxContextLen * tokens.length) true)
  .ok ⟨tokens, pos, maskData⟩

/-- A token with the position and the row of the mask that belong to it. -/
structure Fed where
  token : ℕ
  position : ℤ
  row : List Bool
  deriving DecidableEq

def Inputs.fed (maxContextLen : ℕ) (x : Inputs) : List Fed :=
  (x.input.zip (x.positions.zip (rows maxContextLen x.input.length x.mask))).map
    fun r => ⟨r.1, r.2.1, r.2.2⟩

/-- A token that sees the columns up to its own position. -/
def causal (maxContextLen : ℕ) (r : ℕ × ℕ) : Fed :=
  ⟨r.1, r.2, (List.range maxContextLen).map fun k => decide (k ≤ r.2)⟩

def maskRow (maxContextLen position : ℕ) : List Bool :=
  (List.range maxContextLen).map fun k : ℕ => decide (toInt k ≤ position)

variable {maxContextLen past n : ℕ} {tokens : List ℕ}

theorem length_maskRow (maxContextLen position : ℕ) :
    (maskRow maxContextLen position).length = maxContextLen := by
  rw [maskRow, List.length_map, List.length_range]

theorem positions_eq (h : past + n ≤ 2 ^ 31) :
    Outcome.collect (fun i : ℕ => addInt past (toInt i)) (List.range n) =
      .ok ((List.range n).map fun i => ((past + i : ℕ) : ℤ)) := by
  have hall : ∀ is : List ℕ, (∀ i ∈ is, past + i < 2 ^ 31) →
      Outcome.collect (fun i : ℕ => addInt past (toInt i)) is =
        .ok (is.map fun i => ((past + i : ℕ) : ℤ)) := by
    intro is his
    induction is with
    | nil => rfl
    | cons i is ih =>
      obtain ⟨hi, his⟩ := List.forall_mem_cons.mp his
      rw [Outcome.collect, toInt_of_lt (by omega), addInt_of_lt hi, Outcome.ok_bind, ih his,
        Outcome.ok_bind, List.map_cons]
  apply hall
  intro i hi
  have hlt := List.mem_range.mp hi
  omega

/-- The rows stand one behind the other, and what is behind them has not been written. -/
theorem maskRows_eq (h : past + n ≤ 2 ^ 31) (data : List Bool) (hlen : n * maxContextLen ≤ data.length) :
    maskRows maxContextLen past n data =
      .ok ((List.range n).flatMap (fun q => maskRow maxContextLen (past + q)) ++
        data.drop (n * maxContextLen)) := by
  induction n with
  | zero => rw [maskRows, Nat.zero_mul]; rfl
  | succ n ih =>
    rw [Nat.succ_mul] at hlen
    have hfront : ((List.range n).flatMap fun q => maskRow maxContextLen (past + q)).length =
        n * maxContextLen := by
      simp [List.length_flatMap, length_maskRow]
    have hrest : maxContextLen ≤ (data.drop (n * maxContextLen)).length := by
      rw [List.length_drop]
      omega
    have hwrite := writeRow_append (fun k => decide (toInt k ≤ ((past + n : ℕ) : ℤ)))
      ((List.range n).flatMap fun q => maskRow maxContextLen (past + q))
      (data.drop (n * maxContextLen)) hrest
    rw [hfront, List.drop_drop, ← Nat.succ_mul] at hwrite
    rw [maskRows, ih (by omega) (by omega), Outcome.ok_bind, toInt_of_lt (by omega),
      addInt_of_lt (by omega), Outcome.ok_bind, hwrite, List.range_succ, List.flatMap_append]
    simp only [List.flatMap_cons, List.flatMap_nil, List.append_nil]
    rfl

theorem setInputs_eq (h : past + tokens.length ≤ 2 ^ 31) :
    setInputs maxContextLen tokens past = .ok ⟨tokens,
      (List.range tokens.length).map fun i => ((past + i : ℕ) : ℤ),
      (List.range tokens.length).flatMap fun q => maskRow maxContextLen (past + q)⟩ := by
  rw [setInputs, positions_eq h, Outcome.ok_bind,
    maskRows_eq h _ (by rw [List.length_replicate, Nat.mul_comm]), Outcome.ok_bind, Nat.mul_comm,
    List.drop_of_length_le (by rw [List.length_replicate]), List.append_nil]

/-- A token at a position is fed with it and with the row that is written for it. -/
def fedAt (maxContextLen : ℕ) (r : ℕ × ℕ) : Fed := ⟨r.1, r.2, maskRow maxContextLen r.2⟩

/-- A call feeds its tokens at the positions from the past tokens on. -/
theorem setInputs_fed (maxContextLen : ℕ) (h : past + tokens.length ≤ 2 ^ 31) :
    ∃ x, setInputs maxContextLen tokens past = .ok x ∧
      x.fed maxContextLen = (tokens.zipIdx past).map (fedAt maxContextLen) := by
  refine ⟨_, setInputs_eq h, ?_⟩
  have hrows (qs : List ℕ) : rows maxContextLen qs.length
      (qs.flatMap fun q => maskRow maxContextLen (past + q)) =
        qs.map fun q => maskRow maxContextLen (past + q) :=
    rows_flatMap fun q _ => length_maskRow _ _
  have hread := hrows (List.range tokens.length)
  rw [List.length_range] at hread
  rw [Inputs.fed, hread]
  apply List.ext_getElem
  · simp
  · intro i _ _
    simp [fedAt]

/-- A column from `2^31` on is negative as an `int`, so that it is open in every row. -/
theorem maskRow_causal_iff {position : ℕ} (h : position < 2 ^ 31) :
    maskRow maxContextLen position = (List.range maxContextLen).map (fun k => decide (k ≤ position)) ↔
      maxContextLen ≤ 2 ^ 31 := by
  rw [maskRow, List.map_inj_left]
  constructor
  · intro hall
    by_contra hlong
    have hcol := hall (2 ^ 31) (List.mem_range.mpr (not_le.mp hlong))
    rw [decide_eq_decide] at hcol
    have hopen : toInt ((2 ^ 31 : ℕ) : ℤ) ≤ position := by
      have hneg : toInt ((2 ^ 31 : ℕ) : ℤ) = -2 ^ 31 := by decide
      omega
    exact absurd (hcol.mp hopen) (not_le.mpr h)
  · intro hshort k hk
    have hlt := List.mem_range.mp hk
    rw [toInt_of_lt (by omega), decide_eq_decide, Nat.cast_le]

theorem fedAt_causal_iff {r : ℕ × ℕ} (h : r.2 < 2 ^ 31) :
    fedAt maxContextLen r = causal maxContextLen r ↔ maxContextLen ≤ 2 ^ 31 := by
  rw [← maskRow_causal_iff h, fedAt, causal, Fed.mk.injEq]
  exact ⟨fun h => h.2.2, fun h => ⟨rfl, rfl, h⟩⟩

end Inference

end ZInferLM
