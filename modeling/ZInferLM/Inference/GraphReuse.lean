import ZInferLM.KvCache.SingleLayer

/-! # Reusing a compute graph

`predict` builds a graph unless one for the same number of tokens is ready. The destinations of the
copies are part of the graph, so a graph that is computed again copies to the slots of the call it
was built for. -/

namespace ZInferLM
open Library KvCache

/-- The fields of `Inference` around the graph; `graph` is the copies `write_kv` put into `gf_`. -/
structure Inference where
  cache : KVCache
  graphReady : Bool
  cachedNTokens : ℕ
  graph : List Copy

namespace Inference

/-- A call of `predict`: the number of tokens, and whether `prepare` succeeds if it is called. -/
structure PredictCall where
  nTokens : ℕ
  prepared : Bool
  deriving DecidableEq

def new (g : Geometry) (layers : ℕ) : Inference := ⟨g.freeCache layers, false, 0, []⟩

def prepare (s : Inference) (call : PredictCall) : Inference :=
  if call.prepared then { s with cachedNTokens := call.nTokens, graphReady := true } else s

/-- Build and prepare a graph; `init_context` forgets the old one. -/
def rebuild (g : Geometry) (layers : ℕ) (s : Inference) (call : PredictCall) :
    Outcome Inference := do
  let built ← s.cache.writeLayers g call.nTokens 0 layers
  .ok (prepare ⟨built.1, false, s.cachedNTokens, built.2⟩ call)

/-- `predict`, with the copies it computes; nothing is computed when `prepare` fails. -/
def predict (g : Geometry) (layers : ℕ) (s : Inference) (call : PredictCall) :
    Outcome (Inference × Option (List Copy)) :=
  if !s.graphReady || call.nTokens != s.cachedNTokens then do
    let s ← s.rebuild g layers call
    .ok (s, if call.prepared then some s.graph else none)
  else .ok (s, some s.graph)

def predictFresh (g : Geometry) (layers : ℕ) (s : Inference) (call : PredictCall) :
    Outcome (Inference × Option (List Copy)) := do
  let s ← s.rebuild g layers call
  .ok (s, if call.prepared then some s.graph else none)

def runCalls (step : Inference → PredictCall → Outcome (Inference × Option (List Copy))) :
    List PredictCall → Inference → Outcome (List (Option (List Copy)))
  | [], _ => .ok []
  | call :: calls, s => do
    let r ← step s call
    let rest ← runCalls step calls r.1
    .ok (r.2 :: rest)

/-- Two calls that are computed copy to different slots. -/
def DisjointSlots (a b : Option (List Copy)) : Prop :=
  ∀ c ∈ a.getD [], ∀ d ∈ b.getD [], (c.layer, c.block, c.row) ≠ (d.layer, d.block, d.row)

/-- The calls copy to the slots they would use with a graph of their own, all of them different. -/
def AgreesWithRebuild (g : Geometry) (layers : ℕ) (calls : List PredictCall) : Prop :=
  ∃ slots, runCalls (predict g layers) calls (new g layers) = .ok slots ∧
    runCalls (predictFresh g layers) calls (new g layers) = .ok slots ∧
    slots.Pairwise DisjointSlots

def ready (s : Inference) : Option ℕ := if s.graphReady then some s.cachedNTokens else none

/-- The token count of the graph that is ready behind a call that builds one. -/
def PredictCall.leaves (call : PredictCall) : Option ℕ :=
  if call.prepared then some call.nTokens else none

/-- The state with `n` tokens in the cache: a ready graph copies the last of them. -/
structure Built (g : Geometry) (n : ℕ) (s : Inference) : Prop where
  cache : CacheHolds g n s.cache
  graph : ∀ m, s.ready = some m → m ≤ n ∧ s.graph = copiesFrom g (n - m) m

variable {g : Geometry} {n : ℕ} {s : Inference} {call : PredictCall} {calls : List PredictCall}

theorem new_built (g : Geometry) : Built g 0 (new g 1) :=
  ⟨freeCache_holds g, fun m h => by cases h⟩

theorem Built.rebuild (h : Built g n s) (hcap : n + call.nTokens ≤ g.blockSize * g.blocksCount) :
    ∃ s', s.rebuild g 1 call = .ok s' ∧ s'.graph = copiesFrom g n call.nTokens ∧
      s'.ready = call.leaves ∧ Built g (n + call.nTokens) s' := by
  obtain ⟨c', hlayers, hc'⟩ := h.cache.writeLayers hcap
  refine ⟨_, by rw [Inference.rebuild, hlayers, Outcome.ok_bind], ?_⟩
  cases hp : call.prepared with
  | false =>
    simp only [prepare, ready, PredictCall.leaves, hp, Bool.false_eq_true, if_false]
    exact ⟨trivial, trivial, hc', fun m hm => by cases hm⟩
  | true =>
    simp only [prepare, ready, PredictCall.leaves, hp, if_true]
    refine ⟨trivial, trivial, hc', fun m hm => ?_⟩
    cases hm
    exact ⟨Nat.le_add_left _ _, by rw [Nat.add_sub_cancel]⟩

/-- A call builds a graph unless one for its number of tokens is ready. -/
theorem predict_eq_fresh (h : s.ready ≠ some call.nTokens) :
    s.predict g 1 call = s.predictFresh g 1 call := by
  rw [predict, if_pos, predictFresh]
  cases hr : s.graphReady with
  | false => rfl
  | true =>
    simp only [ready, hr, if_true, ne_eq, Option.some.injEq] at h
    simpa using Ne.symm h

theorem predict_eq_reuse (h : s.ready = some call.nTokens) :
    s.predict g 1 call = .ok (s, some s.graph) := by
  rw [ready] at h
  split_ifs at h with hr
  rw [predict, if_neg]
  simp [hr, Option.some.inj h]

/-- No call finds a ready graph for its number of tokens. -/
def NoReuse : Option ℕ → List PredictCall → Prop
  | _, [] => True
  | ready, call :: calls => ready ≠ some call.nTokens ∧ NoReuse call.leaves calls

theorem noReuse_cons (ready : Option ℕ) (call : PredictCall) (calls : List PredictCall) :
    NoReuse ready (call :: calls) ↔ ready ≠ some call.nTokens ∧
      (call :: calls).IsChain fun a b => a.prepared = true → a.nTokens ≠ b.nTokens := by
  induction calls generalizing ready call with
  | nil => simp [NoReuse]
  | cons next calls ih =>
    rw [NoReuse, ih, List.isChain_cons_cons, PredictCall.leaves]
    cases call.prepared <;> simp

theorem Built.fresh (h : Built g n s)
    (hcap : n + (calls.map PredictCall.nTokens).sum ≤ g.blockSize * g.blocksCount) :
    ∃ slots, runCalls (predictFresh g 1) calls s = .ok slots ∧
      slots.Pairwise DisjointSlots ∧
      ∀ o ∈ slots, ∀ c ∈ o.getD [], ∃ p, n ≤ p ∧ c.block = p / g.blockSize ∧
        c.row = p % g.blockSize := by
  induction calls generalizing n s with
  | nil => exact ⟨[], rfl, .nil, by simp⟩
  | cons call calls ih =>
    rw [List.map_cons, List.sum_cons] at hcap
    obtain ⟨s', hbuild, hgraph, -, hs'⟩ :=
      h.rebuild (show n + call.nTokens ≤ g.blockSize * g.blocksCount by omega)
    obtain ⟨slots, hrun, hpair, hlater⟩ := ih hs' (by omega)
    have hfirst : ∀ c ∈ (if call.prepared then some s'.graph else none).getD [],
        ∃ k < call.nTokens, c = ⟨0, (n + k) / g.blockSize, (n + k) % g.blockSize, k⟩ := by
      intro c hc
      split_ifs at hc
      · rw [hgraph] at hc
        obtain ⟨k, hk, rfl⟩ := List.mem_map.mp hc
        exact ⟨k, List.mem_range.mp hk, rfl⟩
      · cases hc
    refine ⟨(if call.prepared then some s'.graph else none) :: slots, ?_, ?_, ?_⟩
    · rw [runCalls, predictFresh, hbuild, Outcome.ok_bind, Outcome.ok_bind, hrun,
        Outcome.ok_bind]
    · refine .cons (fun o ho c hc d hd heq => ?_) hpair
      obtain ⟨k, hk, rfl⟩ := hfirst c hc
      obtain ⟨p, hp, hblock, hrow⟩ := hlater o ho d hd
      simp only [Prod.mk.injEq] at heq
      have hp' := g.block_row p
      rw [← hblock, ← hrow, ← heq.2.1, ← heq.2.2, g.block_row] at hp'
      omega
    · intro o ho c hc
      rcases List.mem_cons.mp ho with rfl | ho
      · obtain ⟨k, -, rfl⟩ := hfirst c hc
        exact ⟨n + k, by omega, rfl, rfl⟩
      · obtain ⟨p, hp, hslot⟩ := hlater o ho c hc
        exact ⟨p, by omega, hslot⟩

theorem Built.run_eq_fresh (h : Built g n s)
    (hcap : n + (calls.map PredictCall.nTokens).sum ≤ g.blockSize * g.blocksCount)
    (hno : NoReuse s.ready calls) :
    runCalls (predict g 1) calls s = runCalls (predictFresh g 1) calls s := by
  induction calls generalizing n s with
  | nil => rfl
  | cons call calls ih =>
    rw [List.map_cons, List.sum_cons] at hcap
    obtain ⟨s', hbuild, -, hready, hs'⟩ :=
      h.rebuild (show n + call.nTokens ≤ g.blockSize * g.blocksCount by omega)
    have hrest := ih hs' (by omega) (hready ▸ hno.2)
    rw [runCalls, runCalls, predict_eq_fresh hno.1, predictFresh, hbuild, Outcome.ok_bind,
      Outcome.ok_bind, Outcome.ok_bind, hrest]

/-- A reused graph copies to the slots of an earlier call, not to those behind it. -/
theorem Built.graph_ne (h : Built g n s) (hpos : 1 ≤ call.nTokens)
    (hready : s.ready = some call.nTokens) : s.graph ≠ copiesFrom g n call.nTokens := by
  obtain ⟨hle, hgraph⟩ := h.graph _ hready
  rw [hgraph]
  intro heq
  have hcopies := congrArg (fun cs : List Copy => cs.head?.map fun c => (c.block, c.row)) heq
  obtain ⟨m, hm⟩ := Nat.exists_eq_add_of_le' hpos
  simp only [copiesFrom, hm, List.range_succ_eq_map, List.map_cons, List.head?_cons,
    Option.map_some, Option.some.injEq, Prod.mk.injEq, Nat.add_zero] at hcopies
  have h1 := g.block_row (n - (m + 1))
  rw [hcopies.1, hcopies.2, g.block_row] at h1
  omega

theorem Built.noReuse_of_agree (h : Built g n s) (hpos : ∀ c ∈ calls, 1 ≤ c.nTokens)
    (hcap : n + (calls.map PredictCall.nTokens).sum ≤ g.blockSize * g.blocksCount)
    {slots : List (Option (List Copy))}
    (hrun : runCalls (predict g 1) calls s = .ok slots)
    (hfresh : runCalls (predictFresh g 1) calls s = .ok slots) :
    NoReuse s.ready calls := by
  induction calls generalizing n s slots with
  | nil => trivial
  | cons call calls ih =>
    rw [List.map_cons, List.sum_cons] at hcap
    obtain ⟨s', hbuild, hgraph, hready, hs'⟩ :=
      h.rebuild (show n + call.nTokens ≤ g.blockSize * g.blocksCount by omega)
    rw [runCalls, predictFresh, hbuild, Outcome.ok_bind, Outcome.ok_bind] at hfresh
    obtain ⟨rest, hrest, hslots⟩ := Outcome.bind_eq_ok.mp hfresh
    cases hslots
    by_cases hreuse : s.ready = some call.nTokens
    · rw [runCalls, predict_eq_reuse hreuse, Outcome.ok_bind] at hrun
      obtain ⟨rest', -, hslots⟩ := Outcome.bind_eq_ok.mp hrun
      have hhead := (List.cons.inj (Except.ok.inj hslots)).1
      split_ifs at hhead
      · rw [hgraph] at hhead
        exact absurd (Option.some.inj hhead) (h.graph_ne (hpos call (by simp)) hreuse)
    · refine ⟨hreuse, ?_⟩
      rw [runCalls, predict_eq_fresh hreuse, predictFresh, hbuild, Outcome.ok_bind,
        Outcome.ok_bind] at hrun
      obtain ⟨rest', hrest', hslots⟩ := Outcome.bind_eq_ok.mp hrun
      have htail := (List.cons.inj (Except.ok.inj hslots)).2
      rw [← hready]
      exact ih hs' (fun c hc => hpos c (List.mem_cons_of_mem _ hc)) (by omega) (htail ▸ hrest') hrest

/-- Over one layer the calls copy where fresh graphs would if and only if no call follows a
prepared one with the same number of tokens. -/
theorem agreesWithRebuild_iff (hpos : ∀ c ∈ calls, 1 ≤ c.nTokens)
    (hcap : (calls.map PredictCall.nTokens).sum ≤ g.blockSize * g.blocksCount) :
    AgreesWithRebuild g 1 calls ↔
      calls.IsChain fun a b => a.prepared = true → a.nTokens ≠ b.nTokens := by
  have hnone : NoReuse none calls ↔
      calls.IsChain fun a b => a.prepared = true → a.nTokens ≠ b.nTokens := by
    cases calls with
    | nil => simp [NoReuse]
    | cons call calls => simp [noReuse_cons]
  rw [← hnone]
  have hstart := new_built g
  have hcap' : 0 + (calls.map PredictCall.nTokens).sum ≤ g.blockSize * g.blocksCount := by omega
  constructor
  · rintro ⟨slots, hrun, hfresh, -⟩
    exact hstart.noReuse_of_agree hpos hcap' hrun hfresh
  · intro hno
    obtain ⟨slots, hfresh, hpair, -⟩ := hstart.fresh hcap'
    exact ⟨slots, (hstart.run_eq_fresh hcap' hno).trans hfresh, hfresh, hpair⟩

theorem agreesWithRebuild_iff_twoCalls :
    AgreesWithRebuild fourBlocks 1 [⟨5, true⟩, ⟨1, true⟩] ↔
      [PredictCall.mk 5 true, ⟨1, true⟩].IsChain
        fun a b => a.prepared = true → a.nTokens ≠ b.nTokens :=
  agreesWithRebuild_iff (by decide) (by decide)

/-- A prompt of five tokens and two decode steps: the second one copies to the slot of the first. -/
theorem decodeSteps_reuse : ¬AgreesWithRebuild fourBlocks 1 [⟨5, true⟩, ⟨1, true⟩, ⟨1, true⟩] := by
  rintro ⟨slots, hrun, hfresh, -⟩
  have hne : runCalls (predict fourBlocks 1) [⟨5, true⟩, ⟨1, true⟩, ⟨1, true⟩] (new fourBlocks 1) ≠
      runCalls (predictFresh fourBlocks 1) [⟨5, true⟩, ⟨1, true⟩, ⟨1, true⟩]
        (new fourBlocks 1) := by decide +kernel
  exact hne (hrun.trans hfresh.symm)

end Inference

end ZInferLM
