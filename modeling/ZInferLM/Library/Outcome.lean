import Mathlib.Tactic

/-! # Outcomes of a modelled computation

A C++ function returns a value, throws, or reaches a state in which the language gives it no
meaning. A loop with no evident bound takes a fuel argument and may also run out of it. -/

namespace ZInferLM.Library

inductive Fault where
  | outOfFuel
  /-- An access or an operation without a defined result. -/
  | undefined (what : String)
  | thrown (what : String)
  deriving DecidableEq, Repr

abbrev Outcome := Except Fault

universe u
variable {α β : Type u}

theorem Outcome.bind_eq_ok {x : Outcome α} {f : α → Outcome β} {b : β} :
    x >>= f = .ok b ↔ ∃ a, x = .ok a ∧ f a = .ok b := by
  cases x with
  | error e => simp [bind, Except.bind]
  | ok a => simp [bind, Except.bind]

theorem Outcome.toOption_eq_some {x : Outcome α} {a : α} : x.toOption = some a ↔ x = .ok a := by
  cases x with
  | error e => simp [Except.toOption]
  | ok b => simp [Except.toOption]

@[simp] theorem Outcome.ok_bind (a : α) (f : α → Outcome β) : (Except.ok a >>= f) = f a := rfl

/-- Run a step on every element and collect the results in order. -/
def Outcome.collect (f : α → Outcome β) : List α → Outcome (List β)
  | [] => .ok []
  | x :: xs => do
    let y ← f x
    let ys ← Outcome.collect f xs
    .ok (y :: ys)

theorem Outcome.exists_of_collect {f : α → Outcome β} {xs : List α} {ys : List β}
    (h : Outcome.collect f xs = .ok ys) : ∀ x ∈ xs, ∃ y ∈ ys, f x = .ok y := by
  induction xs generalizing ys with
  | nil => nofun
  | cons x xs ih =>
    obtain ⟨y, hy, hrest⟩ := Outcome.bind_eq_ok.mp h
    obtain ⟨rest, hcollect, hok⟩ := Outcome.bind_eq_ok.mp hrest
    cases hok
    rw [List.forall_mem_cons]
    refine ⟨⟨y, List.mem_cons_self, hy⟩, ?_⟩
    intro x' hx'
    obtain ⟨y', hy', hfx⟩ := ih hcollect x' hx'
    exact ⟨y', List.mem_cons_of_mem _ hy', hfx⟩

theorem Outcome.exists_collect {f : α → Outcome β} {xs : List α} (h : ∀ x ∈ xs, ∃ y, f x = .ok y) :
    ∃ ys, Outcome.collect f xs = .ok ys := by
  induction xs with
  | nil => exact ⟨[], rfl⟩
  | cons x xs ih =>
    rw [List.forall_mem_cons] at h
    obtain ⟨⟨y, hy⟩, hxs⟩ := h
    obtain ⟨ys, hys⟩ := ih hxs
    exact ⟨y :: ys, by rw [Outcome.collect, hy, Outcome.ok_bind, hys, Outcome.ok_bind]⟩

theorem Outcome.length_of_collect {f : α → Outcome β} {xs : List α} {ys : List β}
    (h : Outcome.collect f xs = .ok ys) : ys.length = xs.length := by
  induction xs generalizing ys with
  | nil =>
    cases h
    rfl
  | cons x xs ih =>
    obtain ⟨y, _, hrest⟩ := Outcome.bind_eq_ok.mp h
    obtain ⟨rest, hcollect, hok⟩ := Outcome.bind_eq_ok.mp hrest
    cases hok
    rw [List.length_cons, List.length_cons, ih hcollect]

end ZInferLM.Library
