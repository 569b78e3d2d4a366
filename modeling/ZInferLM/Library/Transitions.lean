import Mathlib.Tactic

/-! # Systems that take one step after another

A step has a label, which fixes what is left open, and may be disabled. An invariant of the steps
holds in every state that is reached; a simulation carries what is reached from one system to
another, with any number of steps of the second for one of the first. -/

namespace ZInferLM.Library

universe u v u' v'

structure Transitions (S : Type u) (L : Type v) where
  start : S
  step : S → L → Option S

namespace Transitions

variable {S : Type u} {L : Type v} {S' : Type u'} {L' : Type v'}

def runFrom (M : Transitions S L) : S → List L → Option S
  | s, [] => some s
  | s, l :: ls => (M.step s l).bind fun s' => M.runFrom s' ls

def run (M : Transitions S L) (ls : List L) : Option S := M.runFrom M.start ls

def Reachable (M : Transitions S L) (s : S) : Prop := ∃ ls, M.run ls = some s

variable {M : Transitions S L} {s s' : S} {ls : List L}

theorem runFrom_cons {l : L} {s'' : S} : M.runFrom s (l :: ls) = some s'' ↔
    ∃ s', M.step s l = some s' ∧ M.runFrom s' ls = some s'' :=
  Option.bind_eq_some_iff

theorem runFrom_singleton (M : Transitions S L) (s : S) (l : L) :
    M.runFrom s [l] = M.step s l :=
  Option.bind_fun_some _

theorem runFrom_append (M : Transitions S L) (s : S) (ls ls' : List L) :
    M.runFrom s (ls ++ ls') = (M.runFrom s ls).bind fun s' => M.runFrom s' ls' := by
  induction ls generalizing s with
  | nil => rfl
  | cons l ls ih =>
    rw [List.cons_append, runFrom, runFrom]
    cases M.step s l with
    | none => rfl
    | some s' => exact ih s'

theorem reachable_start (M : Transitions S L) : M.Reachable M.start := ⟨[], rfl⟩

theorem Reachable.runFrom (h : M.Reachable s) (hrun : M.runFrom s ls = some s') :
    M.Reachable s' := by
  obtain ⟨before, hbefore⟩ := h
  refine ⟨before ++ ls, ?_⟩
  rw [run, runFrom_append]
  rw [run] at hbefore
  rw [hbefore]
  exact hrun

theorem Reachable.step (h : M.Reachable s) {l : L} (hstep : M.step s l = some s') :
    M.Reachable s' :=
  h.runFrom ((M.runFrom_singleton s l).trans hstep)

/-- Every step of a run meets a condition on the state before it. -/
def Meets (M : Transitions S L) (P : S → L → Prop) : S → List L → Prop
  | _, [] => True
  | s, l :: ls => P s l ∧ ∀ s', M.step s l = some s' → M.Meets P s' ls

theorem Meets.cons {P : S → L → Prop} {l : L} (hP : P s l) (hstep : M.step s l = some s')
    (h : M.Meets P s' ls) : M.Meets P s (l :: ls) := by
  refine ⟨hP, ?_⟩
  intro r hr
  cases hstep.symm.trans hr
  exact h

instance decidableMeets (M : Transitions S L) (P : S → L → Prop) [∀ s l, Decidable (P s l)] :
    (s : S) → (ls : List L) → Decidable (M.Meets P s ls)
  | _, [] => isTrue trivial
  | s, l :: ls =>
    match hstep : M.step s l with
    | none => decidable_of_iff (P s l)
        ⟨fun hP => ⟨hP, fun r hr => absurd (hstep.symm.trans hr) (Option.some_ne_none r).symm⟩,
          And.left⟩
    | some s' =>
      have := decidableMeets M P s' ls
      decidable_of_iff (P s l ∧ M.Meets P s' ls)
        ⟨fun h => h.2.cons h.1 hstep, fun h => ⟨h.1, h.2 s' hstep⟩⟩

theorem Meets.left {P : S → L → Prop} {ls' : List L} (h : M.Meets P s (ls ++ ls')) :
    M.Meets P s ls := by
  induction ls generalizing s with
  | nil => exact trivial
  | cons l ls ih => exact ⟨h.1, fun r hr => ih (h.2 r hr)⟩

/-- What every step that meets the condition preserves holds behind a run of such steps. -/
theorem invariant_of_meets {P : S → L → Prop} {Inv : S → Prop}
    (hinv : ∀ s l s', M.Reachable s → P s l → M.step s l = some s' → Inv s → Inv s')
    (hreach : M.Reachable s) (h : Inv s) (hmeets : M.Meets P s ls)
    (hrun : M.runFrom s ls = some s') : Inv s' := by
  induction ls generalizing s with
  | nil =>
    cases hrun
    exact h
  | cons l ls ih =>
    obtain ⟨r, hstep, hrest⟩ := runFrom_cons.mp hrun
    exact ih (hreach.step hstep) (hinv s l r hreach hmeets.1 hstep h) (hmeets.2 r hstep) hrest

theorem invariant_runFrom {Inv : S → Prop}
    (hinv : ∀ s l s', M.step s l = some s' → Inv s → Inv s') (h : Inv s)
    (hrun : M.runFrom s ls = some s') : Inv s' := by
  induction ls generalizing s with
  | nil =>
    cases hrun
    exact h
  | cons l ls ih =>
    obtain ⟨r, hstep, hrest⟩ := runFrom_cons.mp hrun
    exact ih (hinv s l r hstep h) hrest

/-- Where, in states with an invariant, a step meets one condition if and only if its label meets
another, and the first one preserves the invariant, a run meets it if and only if its labels do. -/
theorem meets_iff_forall {P : S → L → Prop} {Q : L → Prop} (Inv : S → Prop)
    (hiff : ∀ s l s', Inv s → M.step s l = some s' → (P s l ↔ Q l))
    (hinv : ∀ s l s', Inv s → P s l → M.step s l = some s' → Inv s')
    (h : Inv s) (hrun : M.runFrom s ls = some s') : M.Meets P s ls ↔ ∀ l ∈ ls, Q l := by
  induction ls generalizing s with
  | nil => exact iff_of_true trivial nofun
  | cons l ls ih =>
    obtain ⟨r, hstep, hrest⟩ := runFrom_cons.mp hrun
    rw [List.forall_mem_cons]
    constructor
    · rintro ⟨hP, hmeets⟩
      exact ⟨(hiff s l r h hstep).mp hP, (ih (hinv s l r h hP hstep) hrest).mp (hmeets r hstep)⟩
    · rintro ⟨hQ, hall⟩
      have hP := (hiff s l r h hstep).mpr hQ
      exact Meets.cons hP hstep ((ih (hinv s l r h hP hstep) hrest).mpr hall)

theorem Reachable.invariant {Inv : S → Prop} (h : M.Reachable s) (hstart : Inv M.start)
    (hinv : ∀ s l s', M.step s l = some s' → Inv s → Inv s') : Inv s := by
  obtain ⟨ls, hrun⟩ := h
  exact invariant_runFrom hinv hstart hrun

theorem run_concat {l : L} : M.run (ls ++ [l]) = some s' ↔
    ∃ s, M.run ls = some s ∧ M.step s l = some s' := by
  rw [run, runFrom_append, Option.bind_eq_some_iff]
  simp only [runFrom_singleton]
  rfl

/-- An invariant that speaks of the steps taken so far. -/
theorem run_invariant {Inv : List L → S → Prop} (hstart : Inv [] M.start)
    (hinv : ∀ ls s l s', M.run ls = some s → M.step s l = some s' → Inv ls s → Inv (ls ++ [l]) s')
    (hrun : M.run ls = some s) : Inv ls s := by
  induction ls using List.reverseRecOn generalizing s with
  | nil =>
    cases hrun
    exact hstart
  | append_singleton ls l ih =>
    obtain ⟨r, hr, hstep⟩ := run_concat.mp hrun
    exact hinv ls r l s hr hstep (ih hr)

/-- Every step of the first system is a run of the second one. -/
structure Simulation (A : Transitions S L) (B : Transitions S' L') where
  abs : S → S'
  labels : S → L → List L'
  start : abs A.start = B.start
  step : ∀ s l s', A.step s l = some s' → B.runFrom (abs s) (labels s l) = some (abs s')

theorem Simulation.reachable {A : Transitions S L} {B : Transitions S' L'} (sim : Simulation A B)
    {s : S} (h : A.Reachable s) : B.Reachable (sim.abs s) := by
  apply h.invariant (show B.Reachable (sim.abs A.start) from sim.start ▸ B.reachable_start)
  intro s l s' hstep hs
  exact hs.runFrom (sim.step s l s' hstep)

/-- Where every step is matched from related states, every run is. -/
theorem run_related {A : Transitions S L} {B : Transitions S' L} {R : S' → S → Prop}
    (hstart : R B.start A.start)
    (hstep : ∀ b a l a', R b a → A.step a l = some a' → ∃ b', B.step b l = some b' ∧ R b' a')
    {a : S} (hrun : A.run ls = some a) : ∃ b, B.run ls = some b ∧ R b a := by
  induction ls using List.reverseRecOn generalizing a with
  | nil =>
    cases hrun
    exact ⟨B.start, rfl, hstart⟩
  | append_singleton ls l ih =>
    obtain ⟨r, hr, hlast⟩ := run_concat.mp hrun
    obtain ⟨b, hb, h⟩ := ih hr
    obtain ⟨b', hb', h'⟩ := hstep b r l a h hlast
    exact ⟨b', run_concat.mpr ⟨b, hb, hb'⟩, h'⟩

end Transitions

/-- What the turn of every element establishes, and no turn destroys, holds behind the loop for all
of them. -/
theorem foldl_establishes {S : Type u} {A : Type v} {f : S → A → S} (Inv : S → Prop)
    (P : A → S → Prop) {as : List A} (hinv : ∀ s a, Inv s → Inv (f s a))
    (hturn : ∀ s, ∀ a ∈ as, Inv s → P a (f s a)) (hkeep : ∀ s a b, P b s → P b (f s a)) {s : S}
    (h : Inv s) : ∀ a ∈ as, P a (as.foldl f s) := by
  induction as generalizing s with
  | nil => nofun
  | cons a as ih =>
    have hturn' : ∀ s, ∀ b ∈ as, Inv s → P b (f s b) :=
      fun s b hb => hturn s b (List.mem_cons_of_mem a hb)
    rw [List.forall_mem_cons, List.foldl_cons]
    refine ⟨?_, ih hturn' (hinv s a h)⟩
    have hkept : ∀ s, P a s → P a (as.foldl f s) := by
      intro s hs
      exact List.foldlRecOn as f hs fun s hs b _ => hkeep s b a hs
    exact hkept _ (hturn s a List.mem_cons_self h)

end ZInferLM.Library
