import ZInferLM.Events.Dispatcher
import ZInferLM.Inference.Events
import ZInferLM.Library.FloatRounding

/-! # The metrics collector

A collector listens to the events of a `run_id` and keeps time stamps and counts of them, from
which it computes the metrics when it is asked. A time point counts nanoseconds. A member that events
overwrite ends with the last value that is written, or with the old one if none is. -/

namespace ZInferLM.Library

universe u v
variable {α : Type u} {β : Type v}

/-- The last value that a list writes over an old one. -/
def latest (write : α → Option β) (old : β) (l : List α) : β :=
  (l.filterMap write).getLast?.getD old

variable {write : α → Option β} {old : β} {a : α} {b : β} {l : List α}

theorem latest_cons : latest write old (a :: l) = latest write ((write a).getD old) l := by
  rw [latest, List.filterMap_cons]
  cases write a with
  | none => rfl
  | some b =>
    dsimp only
    rw [List.getLast?_cons]
    rfl

theorem latest_append (l l' : List α) :
    latest write old (l ++ l') = latest write (latest write old l) l' := by
  induction l generalizing old with
  | nil => rfl
  | cons a l ih => rw [List.cons_append, latest_cons, latest_cons, ih]

theorem latest_eq_old (h : ∀ a ∈ l, write a = none) : latest write old l = old := by
  rw [latest, List.filterMap_eq_nil_iff.mpr h]
  rfl

theorem latest_append_cons (before : List α) (ha : write a = some b)
    (h : ∀ a ∈ l, write a = none) : latest write old (before ++ a :: l) = b := by
  rw [latest_append, latest_cons, ha, latest_eq_old h]
  rfl

theorem latest_filter {p : α → Bool} (h : ∀ a, p a = false → write a = none) (old : β)
    (l : List α) : latest write old (l.filter p) = latest write old l := by
  rw [latest, latest, List.filterMap_filter]
  congr 3
  funext a
  cases hp : p a with
  | true => rfl
  | false => exact (h a hp).symm

end ZInferLM.Library

namespace ZInferLM
open Library

namespace Inference

def InferenceEvent.name : InferenceEvent → Events.InferenceEvent
  | tokenizerStarted _ => .tokenizerStarted
  | tokenizerCompleted _ => .tokenizerCompleted
  | prefillStarted _ => .prefillStarted
  | prefillCompleted _ => .prefillCompleted
  | tokenGenerated _ _ => .tokenGenerated
  | generationCompleted _ _ => .generationCompleted

end Inference

namespace Metrics
open Inference
open Library.Utf8 (Bytes)

abbrev TimePoint := Int64

/-- An event with its time stamp. -/
structure TimedEvent where
  timestamp : TimePoint
  event : InferenceEvent
  deriving DecidableEq

def elapsed (start stop : TimePoint) : ℤ := stop.toInt - start.toInt

/-- `duration_cast<milliseconds>` rounds towards zero. -/
def milliseconds (duration : ℤ) : ℤ := duration.tdiv 1000000

def longToFloat (n : ℤ) : Float32 := .ofModel (.ofInt n)

def longToDouble (n : ℤ) : Float := .ofModel (.ofInt n)

/-- Two counts that a `float` does not tell apart: they are equal, or both have more bits than a
`float` keeps. -/
def SameFloat (a b : ℤ) : Prop :=
  a = b ∨ 2 ^ 24 ≤ a.natAbs ∧ 2 ^ 24 ≤ b.natAbs ∧ roundInt 24 a = roundInt 24 b

theorem elapsed_nonneg_iff {start stop : TimePoint} : 0 ≤ elapsed start stop ↔ start ≤ stop := by
  rw [elapsed, Int.sub_nonneg, Int64.le_iff_toInt_le]

theorem elapsed_add (start between stop : TimePoint) :
    elapsed between stop + elapsed start between = elapsed start stop :=
  sub_add_sub_cancel _ _ _

/-- A little more time does not show in milliseconds as long as it does not fill the last one. -/
theorem milliseconds_add_eq_iff {duration more : ℤ} (hduration : 0 ≤ duration) (hmore : 0 ≤ more) :
    milliseconds duration = milliseconds (duration + more) ↔
      duration % 1000000 + more < 1000000 := by
  rw [milliseconds, milliseconds, Int.tdiv_eq_ediv_of_nonneg hduration,
    Int.tdiv_eq_ediv_of_nonneg (by omega)]
  omega

theorem sameFloat_add_iff {duration more : ℤ} (hduration : 0 ≤ duration) (hmore : 0 ≤ more) :
    SameFloat (milliseconds duration) (milliseconds (duration + more)) ↔
      duration % 1000000 + more < 1000000 ∨ 2 ^ 24 ≤ milliseconds duration ∧
        roundInt 24 (milliseconds duration) = roundInt 24 (milliseconds (duration + more)) := by
  have hlong : 2 ^ 24 ≤ (milliseconds duration).natAbs ∧
      2 ^ 24 ≤ (milliseconds (duration + more)).natAbs ↔ 2 ^ 24 ≤ milliseconds duration := by
    rw [milliseconds, milliseconds, Int.tdiv_eq_ediv_of_nonneg hduration,
      Int.tdiv_eq_ediv_of_nonneg (by omega)]
    omega
  rw [SameFloat, milliseconds_add_eq_iff hduration hmore, ← and_assoc, hlong]

theorem natAbs_milliseconds_lt (start stop : TimePoint) :
    (milliseconds (elapsed start stop)).natAbs < 2 ^ 127 := by
  have hstart := start.le_toInt
  have hstart' := start.toInt_lt
  have hstop := stop.le_toInt
  have hstop' := stop.toInt_lt
  refine (Int.natAbs_tdiv_le_natAbs _ _).trans_lt ?_
  rw [elapsed]
  omega

/-- The counts of milliseconds between time points are small enough for a `float`. -/
theorem longToFloat_milliseconds_eq_iff (start stop start' stop' : TimePoint) :
    longToFloat (milliseconds (elapsed start stop)) =
        longToFloat (milliseconds (elapsed start' stop')) ↔
      SameFloat (milliseconds (elapsed start stop)) (milliseconds (elapsed start' stop')) := by
  have hpack := @pack_ofInt_eq_iff .binary32 (by decide) _ _
    (natAbs_milliseconds_lt start stop) (natAbs_milliseconds_lt start' stop')
  rw [SameFloat, ← roundInt_eq_iff, longToFloat, longToFloat, Float32.ofModel.injEq,
    Float32.Model.ofInt, Float32.Model.ofInt, Float32.Model.pack, Float32.Model.pack,
    Float32.Model.mk.injEq, UInt32.ofBitVec.injEq]
  exact hpack

/-- `model_metrics_t`, but for `decode_latency`, which is never set. -/
structure ModelMetrics where
  timeToFirstToken : Float32
  throughputInSecs : Float32
  prefillLatency : ℤ
  outTokens : ℕ
  inpTokens : ℕ
  totalTime : ℤ
  decodeTime : ℤ
  deriving DecidableEq

structure LLMMetricsCollector where
  runId : Bytes
  prefillStartTime : TimePoint
  prefillEndTime : TimePoint
  decodeStartTime : TimePoint
  decodeEndTime : TimePoint
  tokenizerStartTime : TimePoint
  tokenizerEndTime : TimePoint
  firstTokenGeneratedTime : TimePoint
  generationCompletedTimeT : TimePoint
  prefillTokensCount : ℤ
  decodeTokensCount : ℤ
  outTokens : ℕ
  inpTokens : ℕ

/-- The values of the members that the constructor does not initialize. -/
structure Uninitialized where
  prefillTokensCount : ℤ
  decodeTokensCount : ℤ
  outTokens : ℕ
  inpTokens : ℕ

namespace LLMMetricsCollector

def new (runId : Bytes) (u : Uninitialized) : LLMMetricsCollector :=
  ⟨runId, 0, 0, 0, 0, 0, 0, 0, 0, u.prefillTokensCount, u.decodeTokensCount, u.outTokens,
    u.inpTokens⟩

/-- The callback of `collect`. -/
def observe (c : LLMMetricsCollector) (e : TimedEvent) : LLMMetricsCollector :=
  match e.event with
  | .prefillStarted tokensCount =>
    { c with prefillStartTime := e.timestamp, prefillTokensCount := tokensCount }
  | .prefillCompleted _ => { c with prefillEndTime := e.timestamp }
  | .tokenGenerated seqId _ =>
    if seqId = 0 then { c with firstTokenGeneratedTime := e.timestamp } else c
  | .tokenizerStarted _ => { c with tokenizerStartTime := e.timestamp }
  | .tokenizerCompleted numTokens =>
    { c with tokenizerStartTime := e.timestamp, inpTokens := numTokens % 2 ^ 32 }
  | .generationCompleted _ numTokens =>
    { c with generationCompletedTimeT := e.timestamp, outTokens := numTokens }

def collectedEvents : Finset Events.InferenceEvent :=
  {.tokenizerStarted, .tokenizerCompleted, .prefillStarted, .prefillCompleted,
    .generationCompleted, .tokenGenerated}

def collect {C : Type} (c : LLMMetricsCollector) (dispatcher : Events.EventDispatcher C)
    (collector : C) : Outcome (Events.EventDispatcher C) :=
  dispatcher.listen c.runId collector collectedEvents

def getMetrics (c : LLMMetricsCollector) : ModelMetrics :=
  let decodeTime := milliseconds (elapsed c.prefillEndTime c.generationCompletedTimeT)
  { timeToFirstToken :=
      longToFloat (milliseconds (elapsed c.tokenizerStartTime c.firstTokenGeneratedTime))
    throughputInSecs :=
      (((UInt32.ofNat c.outTokens).toFloat32 * 1.0).toFloat /
        (longToDouble decodeTime / 1000.0)).toFloat32
    prefillLatency := milliseconds (elapsed c.prefillStartTime c.prefillEndTime)
    outTokens := c.outTokens
    inpTokens := c.inpTokens
    totalTime := milliseconds (elapsed c.tokenizerStartTime c.generationCompletedTimeT)
    decodeTime }

def reset (c : LLMMetricsCollector) : LLMMetricsCollector :=
  { c with
    prefillStartTime := 0
    prefillEndTime := 0
    decodeStartTime := 0
    decodeEndTime := 0
    prefillTokensCount := 0
    decodeTokensCount := 0 }

/-- The callback is called with one event after the other. -/
def observeAll (c : LLMMetricsCollector) (es : List TimedEvent) : LLMMetricsCollector :=
  es.foldl observe c

variable {c : LLMMetricsCollector}

/-- The events that a callback is called with while events are dispatched one after the other. -/
def heard {C : Type} [DecidableEq C] (groupId : Bytes) (callback : C) :
    Events.EventDispatcher C → List TimedEvent → List TimedEvent
  | _, [] => []
  | d, e :: es =>
    let copied := d.dispatch groupId e.event.name
    List.replicate (copied.1.count callback) e ++ heard groupId callback copied.2 es

theorem name_mem_collectedEvents (e : InferenceEvent) : e.name ∈ collectedEvents := by
  cases e <;> simp [InferenceEvent.name, collectedEvents]

/-- A collector that has begun to listen is called once with every event of its `run_id`, so that
`observeAll` gives its members. -/
theorem heard_of_collect {C : Type} [DecidableEq C] {d d' : Events.EventDispatcher C}
    (h : d.Counted) {collector : C}
    (hnew : collector ∉ (Multimap.values d.listeners c.runId).map Events.Listener.callback)
    (hcollect : c.collect d collector = .ok d') (es : List TimedEvent) :
    heard c.runId collector d' es = es := by
  obtain ⟨-, hlisteners⟩ := h.listen hcollect
  have hvalues : Multimap.values d'.listeners c.runId =
      Multimap.values d.listeners c.runId ++ [⟨collector, collectedEvents⟩] := by
    rw [hlisteners, Multimap.values_insert_self]
  clear hcollect hlisteners h
  induction es generalizing d' with
  | nil => rfl
  | cons e es ih =>
    have hcount : (d'.dispatch c.runId e.event.name).1.count collector = 1 := by
      have hothers : collector ∉ ((Multimap.values d.listeners c.runId).filter
          fun it => e.event.name ∈ it.events).map Events.Listener.callback := fun hmem =>
        hnew (List.map_subset _ (List.filter_subset_self _) hmem)
      rw [Events.EventDispatcher.dispatch_fst, hvalues, List.filter_append, List.map_append,
        List.count_append, List.count_eq_zero_of_not_mem hothers, List.filter_singleton,
        decide_eq_true (name_mem_collectedEvents e.event), Nat.zero_add]
      exact List.count_singleton_self
    rw [heard, hcount, ih ((Multimap.values_subscript _ _ _).trans hvalues)]
    rfl

def tokenizerStart? (e : TimedEvent) : Option TimePoint :=
  match e.event with
  | .tokenizerStarted _ | .tokenizerCompleted _ => some e.timestamp
  | _ => none

def inpTokens? (e : TimedEvent) : Option ℕ :=
  match e.event with
  | .tokenizerCompleted numTokens => some (numTokens % 2 ^ 32)
  | _ => none

def firstToken? (e : TimedEvent) : Option TimePoint :=
  match e.event with
  | .tokenGenerated seqId _ => if seqId = 0 then some e.timestamp else none
  | _ => none

def generationCompleted? (e : TimedEvent) : Option TimePoint :=
  match e.event with
  | .generationCompleted _ _ => some e.timestamp
  | _ => none

def outTokens? (e : TimedEvent) : Option ℕ :=
  match e.event with
  | .generationCompleted _ numTokens => some numTokens
  | _ => none

def prefillStart? (e : TimedEvent) : Option TimePoint :=
  match e.event with
  | .prefillStarted _ => some e.timestamp
  | _ => none

def prefillEnd? (e : TimedEvent) : Option TimePoint :=
  match e.event with
  | .prefillCompleted _ => some e.timestamp
  | _ => none

def prefillTokens? (e : TimedEvent) : Option ℤ :=
  match e.event with
  | .prefillStarted tokensCount => some tokensCount
  | _ => none

theorem observe_eq (c : LLMMetricsCollector) (e : TimedEvent) : c.observe e = { c with
    prefillStartTime := (prefillStart? e).getD c.prefillStartTime
    prefillEndTime := (prefillEnd? e).getD c.prefillEndTime
    tokenizerStartTime := (tokenizerStart? e).getD c.tokenizerStartTime
    firstTokenGeneratedTime := (firstToken? e).getD c.firstTokenGeneratedTime
    generationCompletedTimeT := (generationCompleted? e).getD c.generationCompletedTimeT
    prefillTokensCount := (prefillTokens? e).getD c.prefillTokensCount
    outTokens := (outTokens? e).getD c.outTokens
    inpTokens := (inpTokens? e).getD c.inpTokens } := by
  obtain ⟨t, event⟩ := e
  cases event with
  | tokenGenerated seqId token =>
    rw [observe, firstToken?]
    dsimp only
    split_ifs <;> rfl
  | _ => rfl

/-- Behind a list of events every field has the last value that they set. -/
theorem observeAll_eq (c : LLMMetricsCollector) (es : List TimedEvent) : c.observeAll es = { c with
    prefillStartTime := latest prefillStart? c.prefillStartTime es
    prefillEndTime := latest prefillEnd? c.prefillEndTime es
    tokenizerStartTime := latest tokenizerStart? c.tokenizerStartTime es
    firstTokenGeneratedTime := latest firstToken? c.firstTokenGeneratedTime es
    generationCompletedTimeT := latest generationCompleted? c.generationCompletedTimeT es
    prefillTokensCount := latest prefillTokens? c.prefillTokensCount es
    outTokens := latest outTokens? c.outTokens es
    inpTokens := latest inpTokens? c.inpTokens es } := by
  induction es generalizing c with
  | nil => rfl
  | cons e es ih =>
    change (c.observe e).observeAll es = _
    rw [ih, observe_eq]
    simp only [latest_cons]

end LLMMetricsCollector

end Metrics

end ZInferLM
