import ZInferLM.Library.Transitions

/-! # Steps that come to an end

Where steps of one kind make a measure smaller, every run of them is bounded by the measure, and
one of them leads to a state in which no such step is possible. -/

namespace ZInferLM.Library.Transitions

universe u v
variable {S : Type u} {L : Type v} {M : Transitions S L} {P : L → Prop} {μ : S → ℕ}
  {s s' : S} {ls : List L}

def Settled (M : Transitions S L) (P : L → Prop) (s : S) : Prop := ∀ l, P l → M.step s l = none

/-- The steps of the kind make the measure of the reachable states smaller. -/
def Decreasing (M : Transitions S L) (P : L → Prop) (μ : S → ℕ) : Prop :=
  ∀ s l s', M.Reachable s → P l → M.step s l = some s' → μ s' < μ s

theorem Meets.right {P : S → L → Prop} {ls' : List L} (h : M.Meets P s (ls ++ ls'))
    (hrun : M.runFrom s ls = some s') : M.Meets P s' ls' := by
  induction ls generalizing s with
  | nil =>
    cases hrun
    exact h
  | cons l ls ih =>
    obtain ⟨r, hstep, hrest⟩ := runFrom_cons.mp hrun
    exact ih (h.2 r hstep) hrest

/-- Where the steps of the kind make the measure of the states with an invariant smaller, as long as a
condition is met, a run of them that meets the condition is bounded. -/
theorem length_add_le_of_meets {Inv : S → Prop} {Q : S → L → Prop}
    (hinv : ∀ s l s', Inv s → Q s l → M.step s l = some s' → Inv s')
    (hdecreasing : ∀ s l s', Inv s → Q s l → P l → M.step s l = some s' → μ s' < μ s)
    (h : Inv s) (hmeets : M.Meets Q s ls) (hls : ∀ l ∈ ls, P l)
    (hrun : M.runFrom s ls = some s') : ls.length + μ s' ≤ μ s := by
  induction ls generalizing s with
  | nil =>
    cases hrun
    simp
  | cons l ls ih =>
    obtain ⟨r, hstep, hrest⟩ := runFrom_cons.mp hrun
    rw [List.forall_mem_cons] at hls
    have hlt := hdecreasing s l r h hmeets.1 hls.1 hstep
    have hle := ih (hinv s l r h hmeets.1 hstep) (hmeets.2 r hstep) hls.2 hrest
    rw [List.length_cons]
    omega

theorem meets_true (M : Transitions S L) (s : S) (ls : List L) :
    M.Meets (fun _ _ => True) s ls := by
  induction ls generalizing s with
  | nil => exact trivial
  | cons l ls ih => exact ⟨trivial, fun s' _ => ih s'⟩

theorem Decreasing.length_add_le (h : M.Decreasing P μ) (hreach : M.Reachable s)
    (hls : ∀ l ∈ ls, P l) (hrun : M.runFrom s ls = some s') : ls.length + μ s' ≤ μ s :=
  length_add_le_of_meets (fun _ _ _ hr _ hstep => hr.step hstep)
    (fun s l s' hr _ hl hstep => h s l s' hr hl hstep) hreach (M.meets_true s ls) hls hrun

/-- Going on with steps of the kind ends in a settled state. -/
theorem Decreasing.exists_settled (h : M.Decreasing P μ) (hreach : M.Reachable s) :
    ∃ ls s', (∀ l ∈ ls, P l) ∧ M.runFrom s ls = some s' ∧ M.Settled P s' := by
  induction hn : μ s using Nat.strong_induction_on generalizing s with
  | _ n ih =>
    by_cases hsettled : M.Settled P s
    · exact ⟨[], s, List.forall_mem_nil _, rfl, hsettled⟩
    · simp only [Settled, not_forall] at hsettled
      obtain ⟨l, hl, hstep⟩ := hsettled
      obtain ⟨r, hr⟩ := Option.ne_none_iff_exists'.mp hstep
      have hlt := h s l r hreach hl hr
      obtain ⟨ls, s', hls, hrun, hs'⟩ := ih (μ r) (hn ▸ hlt) (hreach.step hr) rfl
      exact ⟨l :: ls, s', List.forall_mem_cons.mpr ⟨hl, hls⟩, runFrom_cons.mpr ⟨r, hr, hrun⟩, hs'⟩

end ZInferLM.Library.Transitions
