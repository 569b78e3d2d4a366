import ZInferLM.Metrics.Runs

/-! # What a reset leaves behind

`reset` clears the times of the prefill only. The next run overwrites the other fields, but for the
time of the first token, which a run without a token leaves as it is. -/

namespace ZInferLM
open Library

namespace Metrics
open Inference LLMMetricsCollector

/-- What happens to a collector: a complete run that it listens to, or a reset. -/
inductive Use where
  | run (run : CompleteRun)
  | reset

def Use.apply (c : LLMMetricsCollector) : Use → LLMMetricsCollector
  | run r => c.observeAll r.events
  | reset => c.reset

def LLMMetricsCollector.after (c : LLMMetricsCollector) (history : List Use) :
    LLMMetricsCollector :=
  history.foldl Use.apply c

def Use.firstToken? : Use → Option TimePoint
  | run r => if 0 < r.generation.payloads.length then some (r.time .tokenGenerated) else none
  | reset => none

/-- The time of the first token of the last run that has one. -/
def leftover (history : List Use) : TimePoint := latest Use.firstToken? 0 history

/-- No reset touches the time of the first token. -/
theorem after_firstToken (c : LLMMetricsCollector) (history : List Use) :
    (c.after history).firstTokenGeneratedTime =
      latest Use.firstToken? c.firstTokenGeneratedTime history := by
  induction history generalizing c with
  | nil => rfl
  | cons use history ih =>
    change ((use.apply c).after history).firstTokenGeneratedTime = _
    rw [ih, latest_cons]
    congr 1
    cases use with
    | reset => rfl
    | run r =>
      change (c.observeAll r.events).firstTokenGeneratedTime = _
      rw [(r.recorded c).firstTokenGeneratedTime, Use.firstToken?]
      split_ifs <;> rfl

/-- The metrics of a run behind a reset, from the time that is taken for its first token. -/
def CompleteRun.metrics (run : CompleteRun) (firstToken : TimePoint) : ModelMetrics :=
  getMetrics { (new [] ⟨0, 0, 0, 0⟩).observeAll run.events with
    firstTokenGeneratedTime := firstToken }

/-- Only the time of the first token can come from earlier runs. -/
theorem getMetrics_reset (c : LLMMetricsCollector) (run : CompleteRun) :
    (c.reset.observeAll run.events).getMetrics = run.metrics
      (if 0 < run.generation.payloads.length then run.time .tokenGenerated
        else c.firstTokenGeneratedTime) := by
  have h := run.recorded c.reset
  have hnew := run.recorded (new [] ⟨0, 0, 0, 0⟩)
  have hstart : (c.reset.observeAll run.events).prefillStartTime =
      ((new [] ⟨0, 0, 0, 0⟩).observeAll run.events).prefillStartTime := by
    rw [observeAll_eq, observeAll_eq]
    rfl
  have hend : (c.reset.observeAll run.events).prefillEndTime =
      ((new [] ⟨0, 0, 0, 0⟩).observeAll run.events).prefillEndTime := by
    rw [observeAll_eq, observeAll_eq]
    rfl
  simp only [CompleteRun.metrics, getMetrics, hstart, hend, h.tokenizerStartTime,
    hnew.tokenizerStartTime, h.firstTokenGeneratedTime, h.generationCompletedTimeT,
    hnew.generationCompletedTimeT, h.outTokens, hnew.outTokens, h.inpTokens, hnew.inpTokens]
  rfl

/-- The time for the first token shows in one of the metrics. -/
theorem CompleteRun.metrics_eq_iff (run : CompleteRun) (t t' : TimePoint) :
    run.metrics t = run.metrics t' ↔
      SameFloat (milliseconds (elapsed (run.time .tokenizerCompleted) t))
        (milliseconds (elapsed (run.time .tokenizerCompleted) t')) := by
  have h := run.recorded (new [] ⟨0, 0, 0, 0⟩)
  rw [← longToFloat_milliseconds_eq_iff, ← h.tokenizerStartTime, metrics, metrics, getMetrics,
    getMetrics, ModelMetrics.mk.injEq]
  simp only [and_true]

/-- Behind a reset no history shows if and only if the next run has a token, or the leftover times
are as far from the end of its tokenizer for a `float`. -/
theorem reset_isolates_iff (runId : Library.Utf8.Bytes) (u u' : Uninitialized)
    (history history' : List Use) (run : CompleteRun) :
    (((new runId u).after history).reset.observeAll run.events).getMetrics =
        (((new runId u').after history').reset.observeAll run.events).getMetrics ↔
      0 < run.generation.payloads.length ∨
        SameFloat (milliseconds (elapsed (run.time .tokenizerCompleted) (leftover history)))
          (milliseconds (elapsed (run.time .tokenizerCompleted) (leftover history'))) := by
  have hleftover (u : Uninitialized) (history : List Use) :
      ((new runId u).after history).firstTokenGeneratedTime = leftover history :=
    after_firstToken _ history
  rw [getMetrics_reset, getMetrics_reset, hleftover, hleftover]
  split_ifs with htoken
  · exact iff_of_true rfl (.inl htoken)
  · rw [run.metrics_eq_iff, or_iff_right htoken]

def emptyRun : CompleteRun where
  generation := { CompleteRun.counting 8 with isStop := fun text => text = [0] }
  events := [⟨40000000, .tokenizerStarted 1⟩, ⟨41000000, .tokenizerCompleted 1⟩,
    ⟨42000000, .prefillStarted 1⟩, ⟨49000000, .prefillCompleted 1⟩,
    ⟨50000000, .generationCompleted .eos 0⟩]
  complete := rfl

/-- A run without a token, behind a reset, is measured with the first token of the run before. -/
theorem reset_leaves_firstToken :
    (((new [] ⟨0, 0, 0, 0⟩).after [.run CompleteRun.stoppedRun]).reset.observeAll
        emptyRun.events).getMetrics ≠
      (((new [] ⟨0, 0, 0, 0⟩).after []).reset.observeAll emptyRun.events).getMetrics := by
  intro h
  exact absurd (congrArg ModelMetrics.timeToFirstToken h) (by decide)

end Metrics

end ZInferLM
