import Mathlib.Tactic

/-! # Marks in a trace

Where a trace is cut at a mark, a front without marks stays whole. A trace that has grown by one is
cut at the new end, or as before. -/

namespace ZInferLM.Library

variable {α : Type*} {p : α → Prop} {e : α} {front rest before after : List α}

theorem append_cons_eq_append_iff (hfront : ∀ a ∈ front, ¬ p a) (he : p e) :
    before ++ e :: after = front ++ rest ↔
      ∃ before', before = front ++ before' ∧ before' ++ e :: after = rest := by
  constructor
  · intro h
    rcases List.append_eq_append_iff.mp h with ⟨c, hc, hrest⟩ | ⟨c, hc, hrest⟩
    · -- the front goes beyond the cut
      cases c with
      | nil =>
        rw [List.append_nil] at hc
        exact ⟨[], by rw [hc, List.append_nil], hrest⟩
      | cons a c =>
        have ha : a = e := (List.cons.inj hrest).1.symm
        have hmem : a ∈ front := by
          rw [hc]
          simp
        rw [ha] at hmem
        exact absurd he (hfront e hmem)
    · exact ⟨c, hc, hrest.symm⟩
  · rintro ⟨before', rfl, h⟩
    rw [List.append_assoc, h]

theorem cons_suffix_append_iff (hfront : ∀ a ∈ front, ¬ p a) (he : p e) :
    e :: after <:+ front ++ rest ↔ e :: after <:+ rest := by
  constructor
  · rintro ⟨before, h⟩
    obtain ⟨before', -, hrest⟩ := (append_cons_eq_append_iff hfront he).mp h
    exact ⟨before', hrest⟩
  · intro h
    exact h.trans (List.suffix_append front rest)

theorem concat_prefix_append_iff (hfront : ∀ a ∈ front, ¬ p a) (he : p e) :
    before ++ [e] <+: front ++ rest ↔ ∃ before', before = front ++ before' ∧
      before' ++ [e] <+: rest := by
  constructor
  · rintro ⟨after, h⟩
    rw [List.append_assoc] at h
    obtain ⟨before', hbefore, hrest⟩ := (append_cons_eq_append_iff hfront he).mp h
    exact ⟨before', hbefore, after, by rw [List.append_assoc]; exact hrest⟩
  · rintro ⟨before', rfl, h⟩
    rw [List.append_assoc]
    exact (List.prefix_append_right_inj front).mpr h

theorem concat_eq_append_cons_iff {trace : List α} {a : α} :
    trace ++ [a] = before ++ e :: after ↔ (before = trace ∧ e = a ∧ after = []) ∨
      ∃ after', after = after' ++ [a] ∧ trace = before ++ e :: after' := by
  constructor
  · intro h
    induction after using List.reverseRecOn with
    | nil =>
      obtain ⟨hbefore, ha⟩ := List.append_inj' h rfl
      exact .inl ⟨hbefore.symm, (List.cons.inj ha).1.symm, rfl⟩
    | append_singleton after' b _ =>
      rw [← List.cons_append, ← List.append_assoc] at h
      obtain ⟨htrace, ha⟩ := List.append_inj' h rfl
      exact .inr ⟨after', by rw [(List.cons.inj ha).1], htrace⟩
  · rintro (⟨rfl, rfl, rfl⟩ | ⟨after', rfl, rfl⟩)
    · rfl
    · rw [List.append_assoc, List.cons_append]

end ZInferLM.Library
