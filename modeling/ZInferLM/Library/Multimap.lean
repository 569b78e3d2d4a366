import Mathlib.Data.List.AList
import Mathlib.Tactic

/-! # Finite maps from keys to lists

A map with a list of values under each of finitely many keys. A key without an entry has no values,
as has a key with an empty one. The size counts the values under all keys. -/

namespace ZInferLM.Library

universe u v

abbrev Multimap (K : Type u) (A : Type v) := AList fun _ : K => List A

namespace Multimap

variable {K : Type u} {A : Type v} [DecidableEq K] {m : Multimap K A}

def values (m : Multimap K A) (k : K) : List A := (m.lookup k).getD []

/-- The subscript operator: the values of a key and the map with an entry for it. -/
def subscript (m : Multimap K A) (k : K) : List A × Multimap K A :=
  match m.lookup k with
  | some as => (as, m)
  | none => ([], m.insert k [])

def size (m : Multimap K A) : ℕ := (m.entries.map fun e => e.2.length).sum

theorem values_insert_self (m : Multimap K A) (k : K) (as : List A) :
    values (m.insert k as) k = as := by
  rw [values, AList.lookup_insert, Option.getD_some]

theorem values_insert_of_ne {j k : K} (h : j ≠ k) (as : List A) :
    values (m.insert k as) j = values m j := by
  rw [values, AList.lookup_insert_ne h, values]

theorem values_erase_self (m : Multimap K A) (k : K) : values (m.erase k) k = [] := by
  rw [values, AList.lookup_erase, Option.getD_none]

theorem values_erase_of_ne {j k : K} (h : j ≠ k) : values (m.erase k) j = values m j := by
  rw [values, AList.lookup_erase_ne h, values]

theorem subscript_fst (m : Multimap K A) (k : K) : (subscript m k).1 = values m k := by
  rw [subscript, values]
  cases m.lookup k <;> rfl

/-- An entry that is put in by looking at it changes no values. -/
theorem values_subscript (m : Multimap K A) (j k : K) :
    values (subscript m k).2 j = values m j := by
  rw [subscript]
  cases hk : m.lookup k with
  | some as => rfl
  | none =>
    by_cases h : j = k
    · rw [h, values_insert_self, values, hk, Option.getD_none]
    · exact values_insert_of_ne h []

theorem size_eq_add_erase (m : Multimap K A) (k : K) :
    size m = (values m k).length + size (m.erase k) := by
  by_cases hk : k ∈ m
  · obtain ⟨as, before, after, -, hentries, herase⟩ := List.exists_of_kerase hk
    have hmem : ⟨k, as⟩ ∈ m.entries := by
      rw [hentries]
      exact List.mem_append_right _ List.mem_cons_self
    have hlookup : m.lookup k = some as := AList.mem_lookup_iff.mpr hmem
    have hrest : (m.erase k).entries = before ++ after := herase
    rw [values, hlookup, Option.getD_some, size, size, hrest, hentries]
    simp only [List.map_append, List.map_cons, List.sum_append, List.sum_cons]
    omega
  · have hsame : (m.erase k).entries = m.entries := List.kerase_of_notMem_keys hk
    rw [values, AList.lookup_eq_none.mpr hk, Option.getD_none, size, size, hsame, List.length_nil,
      Nat.zero_add]

theorem size_insert (m : Multimap K A) (k : K) (as : List A) :
    size (m.insert k as) = as.length + size (m.erase k) := by
  rw [size, AList.entries_insert, List.map_cons, List.sum_cons]
  rfl

theorem size_insert_concat (m : Multimap K A) (k : K) (a : A) :
    size (m.insert k (values m k ++ [a])) = size m + 1 := by
  rw [size_insert, List.length_append, List.length_singleton, size_eq_add_erase m k]
  omega

theorem size_subscript (m : Multimap K A) (k : K) : size (subscript m k).2 = size m := by
  rw [subscript]
  cases hk : m.lookup k with
  | some as => rfl
  | none =>
    rw [size_insert, size_eq_add_erase m k, values, hk]
    rfl

theorem size_erase_subscript (m : Multimap K A) (k : K) :
    size ((subscript m k).2.erase k) + (values m k).length = size m := by
  rw [← size_subscript m k, size_eq_add_erase (subscript m k).2 k, values_subscript]
  omega

end Multimap

end ZInferLM.Library
