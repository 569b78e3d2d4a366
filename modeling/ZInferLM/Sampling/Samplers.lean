import ZInferLM.Library.InverseCdf
import ZInferLM.Library.Outcome
import ZInferLM.Library.Ranking

/-! # Samplers

A sampler picks the index of a logit. The numbers are those of an ordered field, the exponential is
any positive monotone function on them, and a masked logit stands below all numbers with the weight
`0`. The draw of the random number generator is an argument. -/

namespace ZInferLM.Sampling
open Library

variable {K : Type*} [Field K] [LinearOrder K]

/-- What the samplers need to know of `std::exp`. -/
structure Weight (K : Type*) [Field K] [LinearOrder K] where
  exp : K → K
  exp_pos : ∀ x, 0 < exp x
  exp_mono : Monotone exp

noncomputable def expWeight : Weight ℝ := ⟨Real.exp, Real.exp_pos, Real.exp_monotone⟩

/-- The exponential of a logit, which is `0` for `-INFINITY`. -/
def Weight.expLogit (w : Weight K) : WithBot K → K
  | ⊥ => 0
  | (x : K) => w.exp x

structure SamplerParams (K : Type*) where
  temperature : K
  topK : ℕ
  topP : K

/-- A sampler; `top_p_` has no value unless a constructor gives it one. -/
structure Sampler (K : Type*) where
  temp : K
  topK : ℕ
  topP : Option K

def Sampler.default : Sampler K := ⟨0, 0, none⟩

def Sampler.ofParams (params : SamplerParams K) : Sampler K :=
  ⟨params.temperature, params.topK, none⟩

section Order
variable {α : Type*} [LinearOrder α]

def maxElementLoop : ℕ → ℕ × α → List α → ℕ × α
  | _, best, [] => best
  | i, best, x :: xs => maxElementLoop (i + 1) (if best.2 < x then (i, x) else best) xs

/-- `std::max_element`: the first of the largest elements, with its index. -/
def maxElement : List α → Option (ℕ × α)
  | [] => none
  | x :: xs => some (maxElementLoop 1 (0, x) xs)

end Order

def greedy (logits : List K) : Outcome (ℕ × K) :=
  match maxElement logits with
  | none => .error (.undefined "*max_logit")
  | some r => .ok r

/-- Without a finite logit the differences to the largest one are no numbers. -/
def softmax (w : Weight K) (logits : List (WithBot K)) : Outcome (List K) :=
  match maxElement logits with
  | none => .error (.undefined "*max_element")
  | some (_, ⊥) => .error (.undefined "-INFINITY - -INFINITY")
  | some (_, (m : K)) =>
    let p := logits.map fun l => w.expLogit (l.map (· - m))
    .ok (p.map (· / p.sum))

/-- `std::partial_sort` in decreasing order; only the first elements are read. -/
def partialSort (vals : List K) : List K := sortDesc vals

/-- The probabilities that `top_k_sample_` scans: logits below the threshold are masked. -/
def topKProbs (w : Weight K) (topK : ℕ) (logits : List K) : Outcome (List K) :=
  match min topK logits.length with
  | 0 => .error (.undefined "vals[-1]")
  | k + 1 =>
    match (partialSort logits)[k]? with
    | none => .error (.undefined "vals[k - 1]")
    | some threshold => softmax w (logits.map fun l => if l < threshold then ⊥ else (l : WithBot K))

/-- The draw is the value of `dist(rng)`; behind the loop the last index is returned. -/
def topKSample (w : Weight K) (topK : ℕ) (rand : K) (logits : List K) : Outcome (ℕ × K) := do
  let probs ← topKProbs w topK logits
  match scan rand 0 0 probs with
  | some r => .ok r
  | none => .ok (logits.length - 1, probs.getLast?.getD 0)

def Sampler.scaled (s : Sampler K) (logits : List K) : List K :=
  if 0 < s.temp then logits.map (· / s.temp) else logits

def Sampler.sample (s : Sampler K) (w : Weight K) (rand : K) (logits : List K) :
    Outcome (ℕ × K) :=
  if logits = [] then .ok (0, 0)
  else if 0 < s.topK then topKSample w s.topK rand (s.scaled logits)
  else greedy (s.scaled logits)

end ZInferLM.Sampling
