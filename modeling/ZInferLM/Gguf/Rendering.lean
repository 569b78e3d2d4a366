import ZInferLM.Gguf.Accessors

/-! # Metadata as text

An array is meant to be shown by its first fifty elements, with a mark where there are more. The
loop that shows it takes fifty turns in any case, and so reads behind the end of a shorter one. -/

namespace ZInferLM.Gguf
open Library Library.Machine
open Library.Utf8 (Bytes)
open Tokenizer (literal)

mutual

/-- The text that a value is meant to have. -/
def Value.render (fmt : FloatFormat) : Value → Bytes
  | .primitive v => v.toString fmt
  | .string bs => bs
  | .array _ elements =>
    literal "[ " ++ List.intercalate (literal ", ") ((renderAll fmt elements).take 50) ++
      (if 50 < elements.length then literal " ... " else []) ++ literal " ]"
  | .unknown _ _ => []

def renderAll (fmt : FloatFormat) : List Value → List Bytes
  | [] => []
  | v :: vs => v.render fmt :: renderAll fmt vs

end

mutual

/-- Every array that is shown has fifty elements or more. -/
def Value.Filled : Value → Prop
  | .array _ elements => 50 ≤ elements.length ∧ firstFilled 50 elements
  | .primitive _ | .string _ | .unknown _ _ => True

def firstFilled : ℕ → List Value → Prop
  | 0, _ | _, [] => True
  | n + 1, v :: vs => v.Filled ∧ firstFilled n vs

end

def Value.elements : Value → List Value
  | .array _ elements => elements
  | .primitive _ | .string _ | .unknown _ _ => []

variable {fmt : FloatFormat} {mem : Bytes}

/-- Texts behind a separator, the first one behind a separator of its own. -/
def separated (separator : Bytes) : List Bytes → Bytes
  | [] => []
  | text :: texts => separator ++ text ++ separated (literal ", ") texts

theorem separated_eq_intercalate (texts : List Bytes) :
    separated [] texts = List.intercalate (literal ", ") texts := by
  have hcons (text : Bytes) (texts : List Bytes) : text ++ separated (literal ", ") texts =
      List.intercalate (literal ", ") (text :: texts) := by
    induction texts generalizing text with
    | nil => rw [separated, List.append_nil, List.intercalate_singleton]
    | cons next texts ih =>
      rw [separated, List.append_assoc, ih, List.intercalate_cons_cons, List.append_assoc]
  cases texts with
  | nil => rfl
  | cons text texts => exact hcons text texts

theorem length_typedAll {es : List MetadataValue} {values : List Value}
    (h : typedAll mem es = .ok values) : es.length = values.length := by
  induction es generalizing values with
  | nil =>
    cases h
    rfl
  | cons e es ih =>
    obtain ⟨v, _, h⟩ := Outcome.bind_eq_ok.mp h
    obtain ⟨vs, hvs, hok⟩ := Outcome.bind_eq_ok.mp h
    cases hok
    rw [List.length_cons, List.length_cons, ih hvs]

mutual

/-- A value has its text if every array in it is filled, and is read out of bounds if not. -/
theorem toString_cases (v : MetadataValue) (value : Value) (h : v.typed mem = .ok value) :
    value.Filled ∧ v.toString fmt mem = .ok (value.render fmt) ∨
      ¬ value.Filled ∧ v.toString fmt mem = .error (.undefined "elements_[i]") := by
  cases v with
  | primitive data size =>
    cases h
    exact .inl ⟨trivial, rfl⟩
  | string s =>
    obtain ⟨bs, hread, hok⟩ := Outcome.bind_eq_ok.mp h
    cases hok
    exact .inl ⟨trivial, hread⟩
  | array valType size elements =>
    obtain ⟨values, hvalues, hok⟩ := Outcome.bind_eq_ok.mp h
    cases hok
    have hlength := length_typedAll hvalues
    rcases elementTexts_cases 50 [] elements values hvalues with ⟨hfilled, htexts⟩ | ⟨hnot, htexts⟩
    · refine .inl ⟨hfilled, ?_⟩
      rw [MetadataValue.toString, htexts, Outcome.ok_bind, separated_eq_intercalate, Value.render,
        hlength]
    · refine .inr ⟨hnot, ?_⟩
      rw [MetadataValue.toString, htexts]
      rfl

theorem elementTexts_cases (turns : ℕ) (separator : Bytes) (es : List MetadataValue)
    (values : List Value) (h : typedAll mem es = .ok values) :
    (turns ≤ values.length ∧ firstFilled turns values) ∧
        elementTexts fmt mem turns separator es =
          .ok (separated separator ((renderAll fmt values).take turns)) ∨
      ¬ (turns ≤ values.length ∧ firstFilled turns values) ∧
        elementTexts fmt mem turns separator es = .error (.undefined "elements_[i]") := by
  cases turns with
  | zero => exact .inl ⟨⟨Nat.zero_le _, by simp [firstFilled]⟩, by simp [elementTexts, separated]⟩
  | succ n =>
    cases es with
    | nil =>
      cases h
      exact .inr ⟨fun hle => absurd hle.1 (Nat.not_succ_le_zero n), rfl⟩
    | cons e es =>
      obtain ⟨v, hv, h⟩ := Outcome.bind_eq_ok.mp h
      obtain ⟨vs, hvs, hok⟩ := Outcome.bind_eq_ok.mp h
      cases hok
      rw [elementTexts, List.length_cons, firstFilled, Nat.add_le_add_iff_right]
      rcases toString_cases e v hv with ⟨hfilled, htext⟩ | ⟨hnot, htext⟩
      · rw [htext, Outcome.ok_bind]
        rcases elementTexts_cases n (literal ", ") es vs hvs with ⟨hrest, htexts⟩ | ⟨hnot, htexts⟩
        · refine .inl ⟨⟨hrest.1, hfilled, hrest.2⟩, ?_⟩
          rw [htexts]
          rfl
        · refine .inr ⟨fun hall => hnot ⟨hall.1, hall.2.2⟩, ?_⟩
          rw [htexts]
          rfl
      · refine .inr ⟨fun hall => hnot hall.2.1, ?_⟩
        rw [htext]
        rfl

end

theorem toString_eq_render_iff {v : MetadataValue} {value : Value} (h : v.typed mem = .ok value) :
    v.toString fmt mem = .ok (value.render fmt) ↔ value.Filled := by
  rcases @toString_cases fmt mem v value h with ⟨hfilled, htext⟩ | ⟨hnot, htext⟩
  · exact iff_of_true htext hfilled
  · rw [htext]
    exact iff_of_false nofun hnot

theorem collect_eq_renderAll_iff {es : List MetadataValue} {values : List Value}
    (h : typedAll mem es = .ok values) :
    Outcome.collect (MetadataValue.toString fmt mem) es = .ok (renderAll fmt values) ↔
      ∀ value ∈ values, value.Filled := by
  induction es generalizing values with
  | nil =>
    cases h
    exact iff_of_true rfl (List.forall_mem_nil _)
  | cons e es ih =>
    obtain ⟨v, hv, h⟩ := Outcome.bind_eq_ok.mp h
    obtain ⟨vs, hvs, hok⟩ := Outcome.bind_eq_ok.mp h
    cases hok
    have hfirst : e.toString fmt mem = .ok (v.render fmt) ↔ v.Filled := toString_eq_render_iff hv
    rw [List.forall_mem_cons, ← hfirst, ← ih hvs]
    constructor
    · intro hcollect
      obtain ⟨text, htext, hrest⟩ := Outcome.bind_eq_ok.mp hcollect
      obtain ⟨texts, htexts, hok⟩ := Outcome.bind_eq_ok.mp hrest
      cases hok
      exact ⟨htext, htexts⟩
    · rintro ⟨htext, htexts⟩
      rw [Outcome.collect, htext, Outcome.ok_bind, htexts]
      rfl

/-- A value whose strings lie in the file is shown in bounds and with its text, by itself or as one
of the strings of an array, if and only if every array that is shown is filled. -/
theorem rendered_iff (fmt : FloatFormat) {m : Metadata} {value : Value}
    (h : m.val.typed mem = .ok value) :
    (m.val.toString fmt mem = .ok (value.render fmt) ↔ value.Filled) ∧
      (m.valString fmt mem = .ok (value.render fmt) ↔ value.Filled) ∧
      (m.valStrings fmt mem = .ok (renderAll fmt value.elements) ↔
        ∀ element ∈ value.elements, element.Filled) := by
  refine ⟨toString_eq_render_iff h, toString_eq_render_iff h, ?_⟩
  rw [Metadata.valStrings]
  cases hval : m.val with
  | primitive data size =>
    rw [hval] at h
    cases h
    exact iff_of_true rfl (List.forall_mem_nil _)
  | string s =>
    rw [hval] at h
    obtain ⟨bs, _, hok⟩ := Outcome.bind_eq_ok.mp h
    cases hok
    exact iff_of_true rfl (List.forall_mem_nil _)
  | array valType len elements =>
    rw [hval] at h
    obtain ⟨values, hvalues, hok⟩ := Outcome.bind_eq_ok.mp h
    cases hok
    exact collect_eq_renderAll_iff hvalues

theorem firstFilled_of_forall {vs : List Value} (h : ∀ v ∈ vs, v.Filled) (n : ℕ) :
    firstFilled n vs := by
  induction vs generalizing n with
  | nil => cases n <;> simp [firstFilled]
  | cons v vs ih =>
    cases n with
    | zero => simp [firstFilled]
    | succ n =>
      rw [List.forall_mem_cons] at h
      exact ⟨h.1, ih h.2 n⟩

/-- An array in an array, the inner one with sixty elements. -/
def nested : Metadata :=
  ⟨⟨0, 0⟩, .array, .array .array 1
    [.array .bool 60 (List.replicate 60 (.primitive (.bool true) 1))]⟩

theorem rendered_iff_nested : nested.valStrings ⟨fun _ => [], fun _ => []⟩ [] =
    .ok (renderAll ⟨fun _ => [], fun _ => []⟩
      [.array .bool (List.replicate 60 (.primitive (.bool true)))]) := by
  have htyped : nested.val.typed [] =
      .ok (.array .array [.array .bool (List.replicate 60 (.primitive (.bool true)))]) := rfl
  refine (rendered_iff _ htyped).2.2.mpr ?_
  rw [Value.elements, List.forall_mem_singleton]
  refine ⟨by decide, firstFilled_of_forall ?_ 50⟩
  intro v hv
  rw [List.eq_of_mem_replicate hv]
  trivial

/-- An array without elements is read out of its bounds, where its text should be empty brackets. -/
theorem emptyArray_outOfBounds :
    MetadataValue.toString ⟨fun _ => [], fun _ => []⟩ [] (.array .string 0 []) =
        .error (.undefined "elements_[i]") ∧
      (MetadataValue.array .string 0 []).typed [] = .ok (.array .string []) ∧
      Value.render ⟨fun _ => [], fun _ => []⟩ (.array .string []) = literal "[  ]" :=
  ⟨rfl, rfl, rfl⟩

end ZInferLM.Gguf
