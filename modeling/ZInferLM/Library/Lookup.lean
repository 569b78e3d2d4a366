import Mathlib.Tactic

/-! # Maps as lookup functions

An `unordered_map` is the function that looks a key up. `store` fills one by successive
assignments, `access` is the subscript operator, which inserts a default for a missing key. -/

namespace ZInferLM.Library

variable {K V : Type*} [DecidableEq K]

/-- Assign the pairs in order, the last assignment to a key counts. -/
def store (kvs : List (K × V)) : K → Option V :=
  kvs.foldl (fun m kv => Function.update m kv.1 (some kv.2)) fun _ => none

/-- The subscript operator: the value of a key and the map with the key present. -/
def access (m : K → Option V) (k : K) (fallback : V) : V × (K → Option V) :=
  match m k with
  | some v => (v, m)
  | none => (fallback, Function.update m k (some fallback))

theorem access_fst (m : K → Option V) (k : K) (fallback : V) :
    (access m k fallback).1 = (m k).getD fallback := by
  rw [access]
  cases m k <;> rfl

theorem access_of_none {m : K → Option V} {k : K} {fallback : V} (h : m k = none) :
    access m k fallback = (fallback, Function.update m k (some fallback)) := by
  simp [access, h]

theorem access_of_some {m : K → Option V} {k : K} {v fallback : V} (h : m k = some v) :
    access m k fallback = (v, m) := by
  simp [access, h]

/-- The subscript operator is not seen by a reader that knows the default. -/
theorem access_getD (m : K → Option V) (k j : K) (fallback : V) :
    ((access m k fallback).2 j).getD fallback = (m j).getD fallback := by
  cases hm : m k with
  | some v => rw [access_of_some hm]
  | none =>
    rw [access_of_none hm]
    change (Function.update m k (some fallback) j).getD fallback = _
    by_cases h : j = k
    · rw [h, Function.update_self, hm]
      rfl
    · rw [Function.update_of_ne h]

theorem access_isSome (m : K → Option V) (k j : K) (fallback : V) :
    ((access m k fallback).2 j).isSome = true ↔ j = k ∨ (m j).isSome = true := by
  cases hm : m k with
  | some v =>
    rw [access_of_some hm, or_iff_right_of_imp]
    rintro rfl
    rw [hm, Option.isSome_some]
  | none =>
    rw [access_of_none hm]
    by_cases h : j = k
    · simp [h]
    · simp [h]

@[simp] theorem store_nil : store ([] : List (K × V)) = fun _ => none := rfl

theorem store_concat (kvs : List (K × V)) (kv : K × V) :
    store (kvs ++ [kv]) = Function.update (store kvs) kv.1 (some kv.2) := by
  rw [store, List.foldl_append]
  rfl

theorem mem_of_store {kvs : List (K × V)} {k : K} {v : V} (h : store kvs k = some v) :
    (k, v) ∈ kvs := by
  induction kvs using List.reverseRecOn with
  | nil => simp at h
  | append_singleton kvs kv ih =>
    rw [store_concat] at h
    by_cases hk : k = kv.1
    · subst hk
      rw [Function.update_self, Option.some.injEq] at h
      simp [← h]
    · rw [Function.update_of_ne hk] at h
      exact List.mem_append_left _ (ih h)

theorem store_eq_none {kvs : List (K × V)} {k : K} :
    store kvs k = none ↔ ∀ v, (k, v) ∉ kvs := by
  induction kvs using List.reverseRecOn with
  | nil => simp
  | append_singleton kvs kv ih =>
    rw [store_concat]
    by_cases hk : k = kv.1
    · subst hk
      simp only [Function.update_self, reduceCtorEq, false_iff, not_forall, not_not]
      exact ⟨kv.2, by simp⟩
    · rw [Function.update_of_ne hk, ih]
      have hne : ∀ v, (k, v) ≠ kv := fun v hv => hk (congrArg Prod.fst hv)
      simp [hne]

theorem store_eq_some {kvs : List (K × V)} (hd : (kvs.map Prod.fst).Nodup) {k : K} {v : V} :
    store kvs k = some v ↔ (k, v) ∈ kvs := by
  refine ⟨mem_of_store, fun h => ?_⟩
  cases hs : store kvs k with
  | none => exact absurd h (store_eq_none.mp hs v)
  | some w =>
    have hw := mem_of_store hs
    have hinj := List.inj_on_of_nodup_map hd hw h rfl
    rw [(Prod.mk.inj hinj).2]

theorem store_zipIdx {xs : List K} (hd : xs.Nodup) {x : K} {i : ℕ} :
    store xs.zipIdx x = some i ↔ xs[i]? = some x := by
  rw [store_eq_some (by simpa [List.zipIdx_map_fst] using hd), List.mk_mem_zipIdx_iff_getElem?]

theorem store_zipIdx_swap (xs : List V) (i : ℕ) :
    store (xs.zipIdx.map Prod.swap) i = xs[i]? := by
  have hd : ((xs.zipIdx.map Prod.swap).map Prod.fst).Nodup := by
    have hfun : (Prod.fst ∘ Prod.swap : V × ℕ → ℕ) = Prod.snd := rfl
    rw [List.map_map, hfun, List.zipIdx_map_snd]
    exact List.nodup_range' ..
  ext v
  rw [store_eq_some hd, List.mem_map]
  constructor
  · rintro ⟨⟨w, j⟩, hm, he⟩
    obtain ⟨rfl, rfl⟩ := Prod.mk.inj he
    exact List.mk_mem_zipIdx_iff_getElem?.mp hm
  · exact fun h => ⟨(v, i), List.mk_mem_zipIdx_iff_getElem?.mpr h, rfl⟩

/-- `insert`: a key that is present keeps its value. -/
def insertNew (m : K → Option V) (k : K) (v : V) : K → Option V :=
  match m k with
  | some _ => m
  | none => Function.update m k (some v)

theorem insertNew_apply (m : K → Option V) (k : K) (v : V) (j : K) :
    insertNew m k v j = (m j).or (if j = k then some v else none) := by
  unfold insertNew
  by_cases h : j = k
  · subst h
    cases hm : m j <;> simp [hm]
  · cases hk : m k <;> simp [h]

/-- Insertions in order keep the first value of every key. -/
theorem foldl_insertNew (m : K → Option V) (kvs : List (K × V)) (j : K) :
    kvs.foldl (fun m kv => insertNew m kv.1 kv.2) m j =
      (m j).or ((kvs.find? fun kv => kv.1 = j).map Prod.snd) := by
  induction kvs generalizing m with
  | nil => simp
  | cons kv kvs ih =>
    rw [List.foldl_cons, ih, insertNew_apply, Option.or_assoc, List.find?_cons]
    by_cases h : j = kv.1
    · simp [h]
    · simp [h, Ne.symm h]

end ZInferLM.Library
