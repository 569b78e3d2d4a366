import ZInferLM.Models.Tensors

/-! # The loaded model

At most one model is loaded at a time. `load` replaces it by a model without an implementation as
soon as the file is parsed, and completes this one step after another. -/

namespace ZInferLM.Models
open Library Library.Machine Gguf
open Library.Utf8 (Bytes)

/-- A model, with the number of the call that made it. -/
structure Model where
  call : ℕ
  impl : Option ModelImpl

/-- How a call ends. The last one is `QwenModel(nullptr)`, which reads through its loader. -/
inductive Result where
  | returned (success : Bool)
  | threw
  | nullLoader
  deriving DecidableEq

/-- Where an exception comes from: the parsing in `load_gguf_file`, the making of the `Model`, that
of the `QwenModel`, or a step of `load_tensors`. -/
inductive Throw where
  | parsing
  | model
  | impl
  | tensors (step : ℕ)
  deriving DecidableEq

/-- One call of `load`: what the calls of the system come to, and which step throws, if one does. -/
structure Attempt where
  opened : Bool
  statted : Bool
  /-- The buffer of `is_gguf_file` behind its `read`. -/
  buffer : Bytes
  /-- The address of the mapping, `none` when `mmap` fails. -/
  base : Option ℕ
  mem : Bytes
  fuel : ℕ
  throws : Option Throw
  /-- The names that ggml has for types. -/
  typeName : ℕ → Bytes
  order : List Bytes
  iterates : ∀ gguf, loadGgufFile base mem fuel = .ok (some gguf) → Iterates gguf.tensors order

def Throw.step? : Throw → Option ℕ
  | tensors step => some step
  | _ => none

def isGgufFile (buffer : Bytes) : Bool := buffer = magic

/-- `load_gguf_file`, which maps the file before anything throws. -/
def Attempt.parse (a : Attempt) : Outcome (Option GGUFLoader) :=
  match a.base, a.throws with
  | some _, some .parsing => .error (.thrown "std::bad_alloc")
  | _, _ => loadGgufFile a.base a.mem a.fuel

/-- `instance_`, the number of calls so far, and how the last one ended if it was a `load`. -/
structure Process where
  loaded : Option Model
  calls : ℕ
  last : Option Result

namespace Process

def new : Process := ⟨none, 0, none⟩

def finish (s : Process) (result : Result) : Process :=
  { s with calls := s.calls + 1, last := some result }

def install (s : Process) (impl : Option ModelImpl) : Process :=
  { s with loaded := some ⟨s.calls, impl⟩ }

/-- `load` from the parsed file on. Without a defined outcome of `tensor_info` it has none. -/
def complete (s : Process) (a : Attempt) (f : Option GGUFLoader) : Option Process :=
  if a.throws = some .model then some (s.finish .threw)
  else if a.throws = some .impl then some ((s.install none).finish .threw)
  else
    match f with
    | none => some ((s.install none).finish .nullLoader)
    | some gguf =>
      match gguf.tensorInfo a.typeName a.mem a.order with
      | .error _ => none
      | .ok infos =>
        let r := (ModelImpl.new gguf).loadTensors infos (a.throws.bind Throw.step?)
        some ((s.install (some r.2)).finish (if r.1 then .returned true else .threw))

/-- `load`. A file whose parsing reads out of its bounds has no defined outcome. -/
def load (s : Process) (a : Attempt) : Option Process :=
  if a.opened = false then some (s.finish (.returned false))
  else if a.statted = false then some (s.finish (.returned false))
  else if isGgufFile a.buffer then
    match a.parse with
    | .ok f => s.complete a f
    | .error (.thrown _) => some (s.finish .threw)
    | .error _ => none
  else some (s.finish (.returned false))

def unload (s : Process) : Process :=
  { s with loaded := none, calls := s.calls + 1, last := none }

inductive Call where
  | load (a : Attempt)
  | unload

def step (s : Process) : Call → Option Process
  | .load a => s.load a
  | .unload => some s.unload

def system : Transitions Process Call := ⟨new, step⟩

/-- Nothing is loaded, or a model with an implementation all of whose tensors are bound. -/
def Whole (s : Process) : Prop :=
  ∀ m, s.loaded = some m → ∃ impl, m.impl = some impl ∧ impl.Bound

/-- A call that leads from one state to another is all or nothing: a `load` that does not succeed
says so and leaves the model that was loaded in place. -/
def AllOrNothing (s s' : Process) : Call → Prop
  | .load _ => s'.Whole ∧ (s'.last = some (.returned true) ∨
      (s'.last = some (.returned false) ∨ s'.last = some .threw) ∧ s'.loaded = s.loaded)
  | .unload => s'.Whole

end Process

structure Attempt.Recognized (a : Attempt) : Prop where
  opened : a.opened = true
  statted : a.statted = true
  magic : isGgufFile a.buffer = true

/-- Unless an exception comes before the model is replaced, the file is mapped, and no exception
comes while the implementation is made or its tensors are loaded. -/
def Attempt.Kept (a : Attempt) : Prop :=
  a.Recognized → ∀ f, a.parse = .ok f → a.throws = some .model ∨
    a.base ≠ none ∧ a.throws ≠ some .impl ∧
      ∀ step, a.throws = some (.tensors step) → 2 * a.order.length + 2 ≤ step

namespace Process

/-- A call of `load` is kept whole, `unload` always is. -/
def Call.Kept : Call → Prop
  | .load a => a.Kept
  | .unload => True

variable {s s' : Process} {a : Attempt}

theorem load_cases (h : s.load a = some s') :
    ¬ a.Recognized ∧ s' = s.finish (.returned false) ∨
      (∃ what, a.parse = .error (.thrown what)) ∧ s' = s.finish .threw ∨
      a.Recognized ∧ ∃ f, a.parse = .ok f ∧ s.complete a f = some s' := by
  rw [load] at h
  split_ifs at h with hopened hstatted hmagic
  · exact .inl ⟨fun hr => (by rw [hr.opened] at hopened; cases hopened), (Option.some.inj h).symm⟩
  · exact .inl ⟨fun hr => (by rw [hr.statted] at hstatted; cases hstatted),
      (Option.some.inj h).symm⟩
  · right
    cases hparse : a.parse with
    | ok f =>
      rw [hparse] at h
      exact .inr ⟨⟨Bool.eq_true_of_not_eq_false hopened, Bool.eq_true_of_not_eq_false hstatted,
        hmagic⟩, f, rfl, h⟩
    | error fault =>
      rw [hparse] at h
      cases fault with
      | thrown what => exact .inl ⟨⟨what, rfl⟩, (Option.some.inj h).symm⟩
      | _ => cases h
  · exact .inl ⟨fun hr => hmagic hr.magic, (Option.some.inj h).symm⟩

theorem complete_cases {f : Option GGUFLoader} (h : s.complete a f = some s') :
    a.throws = some .model ∧ s' = s.finish .threw ∨
      a.throws ≠ some .model ∧
        (a.throws = some .impl ∧ s' = (s.install none).finish .threw ∨
        f = none ∧ s' = (s.install none).finish .nullLoader ∨
        a.throws ≠ some .impl ∧ ∃ gguf infos, f = some gguf ∧
          gguf.tensorInfo a.typeName a.mem a.order = .ok infos ∧
          ∃ returns impl, (ModelImpl.new gguf).loadTensors infos (a.throws.bind Throw.step?) =
              (returns, impl) ∧
            s' = (s.install (some impl)).finish (if returns then .returned true else .threw)) := by
  unfold complete at h
  split_ifs at h with hmodel himpl
  · exact .inl ⟨hmodel, (Option.some.inj h).symm⟩
  · exact .inr ⟨hmodel, .inl ⟨himpl, (Option.some.inj h).symm⟩⟩
  · refine .inr ⟨hmodel, .inr ?_⟩
    cases f with
    | none => exact .inl ⟨rfl, (Option.some.inj h).symm⟩
    | some gguf =>
      dsimp only at h
      refine .inr ⟨himpl, gguf, ?_⟩
      cases hinfos : gguf.tensorInfo a.typeName a.mem a.order with
      | error _ =>
        rw [hinfos] at h
        cases h
      | ok infos =>
        rw [hinfos] at h
        exact ⟨infos, rfl, rfl, _, _, rfl, (Option.some.inj h).symm⟩

def Older (s : Process) : Prop := ∀ m, s.loaded = some m → m.call < s.calls

theorem Older.install_ne (h : s.Older) (impl : Option ModelImpl) (result : Result) :
    ((s.install impl).finish result).loaded ≠ s.loaded := by
  intro heq
  exact Nat.lt_irrefl _ (h _ heq.symm)

theorem Older.step {call : Call} (h : s.Older) (hstep : s.step call = some s') : s'.Older := by
  have hfinish (result : Result) : (s.finish result).Older :=
    fun m hm => Nat.lt_succ_of_lt (h m hm)
  have hinstall (impl : Option ModelImpl) (result : Result) :
      ((s.install impl).finish result).Older := by
    rintro m ⟨⟩
    exact Nat.lt_succ_self _
  cases call with
  | unload =>
    cases hstep
    rintro m ⟨⟩
  | load a =>
    rcases load_cases hstep with ⟨_, rfl⟩ | ⟨_, rfl⟩ | ⟨_, f, _, hcomplete⟩
    · exact hfinish _
    · exact hfinish _
    · rcases complete_cases hcomplete with
        ⟨_, rfl⟩ | ⟨_, ⟨_, rfl⟩ | ⟨_, rfl⟩ | ⟨_, _, _, _, _, _, _, _, rfl⟩⟩
      · exact hfinish _
      · exact hinstall _ _
      · exact hinstall _ _
      · exact hinstall _ _

theorem parse_eq_ok {f : Option GGUFLoader} (h : a.parse = .ok f) :
    loadGgufFile a.base a.mem a.fuel = .ok f := by
  unfold Attempt.parse at h
  split at h
  · cases h
  · exact h

theorem parse_eq_none {f : Option GGUFLoader} (h : a.parse = .ok f) :
    f = none ↔ a.base = none := by
  have hload := parse_eq_ok h
  cases hbase : a.base with
  | none =>
    rw [hbase] at hload
    cases hload
    exact iff_of_true rfl rfl
  | some base =>
    rw [hbase] at hload
    obtain ⟨entries, _, hload⟩ := Outcome.bind_eq_ok.mp hload
    obtain ⟨address, _, hok⟩ := Outcome.bind_eq_ok.mp hload
    cases hok
    exact iff_of_false nofun nofun

theorem bind_step?_eq_some {throws : Option Throw} {step : ℕ} :
    throws.bind Throw.step? = some step ↔ throws = some (.tensors step) := by
  cases throws with
  | none => simp
  | some throw => cases throw <;> simp [Throw.step?]

/-- A call that puts in a model without an implementation is not all or nothing. -/
theorem not_allOrNothing_install (result : Result) :
    ¬ AllOrNothing s ((s.install none).finish result) (.load a) := by
  rintro ⟨hwhole, _⟩
  obtain ⟨impl, himpl, _⟩ := hwhole _ rfl
  cases himpl

/-- From a whole model on, a call of `load` is all or nothing if and only if it is kept. -/
theorem allOrNothing_load_iff (hwhole : s.Whole) (holder : s.Older)
    (hload : s.load a = some s') : AllOrNothing s s' (.load a) ↔ a.Kept := by
  rcases load_cases hload with
    ⟨hnot, rfl⟩ | ⟨⟨what, hparse⟩, rfl⟩ | ⟨hrecognized, f, hparse, hcomplete⟩
  · exact iff_of_true ⟨hwhole, .inr ⟨.inl rfl, rfl⟩⟩ (fun hr => absurd hr hnot)
  · refine iff_of_true ⟨hwhole, .inr ⟨.inr rfl, rfl⟩⟩ ?_
    intro _ f hf
    rw [hparse] at hf
    cases hf
  · have hkept : a.Kept ↔ a.throws = some .model ∨ a.base ≠ none ∧ a.throws ≠ some .impl ∧
        ∀ step, a.throws = some (.tensors step) → 2 * a.order.length + 2 ≤ step := by
      constructor
      · exact fun h => h hrecognized f hparse
      · exact fun h _ _ _ => h
    rw [hkept]
    rcases complete_cases hcomplete with
      ⟨hthrows, rfl⟩ | ⟨hmodel, ⟨himpl, rfl⟩ | ⟨rfl, rfl⟩ |
        ⟨himpl, gguf, infos, rfl, hinfos, returns, impl, hrun, rfl⟩⟩
    · exact iff_of_true ⟨hwhole, .inr ⟨.inr rfl, rfl⟩⟩ (.inl hthrows)
    · refine iff_of_false (not_allOrNothing_install _) ?_
      rintro (h | ⟨_, h, _⟩)
      · exact hmodel h
      · exact h himpl
    · refine iff_of_false (not_allOrNothing_install _) ?_
      rintro (h | ⟨h, _⟩)
      · exact hmodel h
      · exact h ((parse_eq_none hparse).mp rfl)
    · have hfile := parse_eq_ok hparse
      have hiterates := a.iterates gguf hfile
      have hreturns := ModelImpl.loadTensors_fst (.new gguf) infos (a.throws.bind Throw.step?)
      rw [hrun, GGUFLoader.length_tensorInfo hinfos hiterates] at hreturns
      simp only [bind_step?_eq_some] at hreturns
      cases returns with
      | true =>
        have hbound : impl.Bound := by
          apply ModelImpl.loadTensors_bound _ hrun
          intro key hkey
          obtain ⟨t, ht⟩ := Option.ne_none_iff_exists'.mp hkey
          exact GGUFLoader.exists_tensorInfo hinfos (loadGgufFile_named hfile) hiterates ht
        have hbase : a.base ≠ none := fun h => nomatch (parse_eq_none hparse).mpr h
        refine iff_of_true ⟨?_, .inl rfl⟩ (.inr ⟨hbase, himpl, hreturns.mp rfl⟩)
        rintro m ⟨⟩
        exact ⟨impl, rfl, hbound⟩
      | false =>
        refine iff_of_false ?_ ?_
        · rintro ⟨_, h | ⟨_, h⟩⟩
          · cases h
          · exact holder.install_ne _ _ h
        · rintro (h | ⟨_, _, h⟩)
          · exact hmodel h
          · cases hreturns.mpr h

/-- Every call of a run is all or nothing if and only if every call is kept: a file that cannot be
mapped, or an exception behind the replacement of the model, leaves part of a model behind. -/
theorem allOrNothing_iff {calls : List Call} (hrun : system.run calls = some s) :
    system.Meets (fun s call => ∀ s', s.step call = some s' → AllOrNothing s s' call) new calls ↔
      ∀ call ∈ calls, call.Kept := by
  have hcall {s s' : Process} {call : Call} (h : s.Whole ∧ s.Older)
      (hstep : s.step call = some s') : AllOrNothing s s' call ↔ call.Kept := by
    cases call with
    | load a => exact allOrNothing_load_iff h.1 h.2 hstep
    | unload =>
      cases hstep
      refine iff_of_true ?_ trivial
      rintro m ⟨⟩
  apply Transitions.meets_iff_forall (fun s => s.Whole ∧ s.Older) _ _ _ hrun
  · intro s call s' h hstep
    rw [← hcall h hstep]
    constructor
    · exact fun hall => hall s' hstep
    · intro hall r hr
      cases hstep.symm.trans hr
      exact hall
  · intro s call s' h hall hstep
    refine ⟨?_, h.2.step hstep⟩
    have hwhole := hall s' hstep
    cases call with
    | load a => exact hwhole.1
    | unload => exact hwhole
  · exact ⟨nofun, nofun⟩

def fileAttempt (f : GgufFile) (hfits : f.FitsInt) (base : ℕ) : Attempt where
  opened := true
  statted := true
  buffer := magic
  base := some base
  mem := f.bytes
  fuel := f.bytes.length + 1
  throws := none
  typeName := fun _ => []
  order := f.tensors.map TensorDesc.name
  iterates _ := GgufFile.iterates hfits (Nat.lt_add_one _)

/-- A file that does not store its alignment is loaded, whatever was loaded before. -/
theorem load_file (s : Process) {f : GgufFile} (hfits : f.FitsInt) {base : ℕ}
    (hmap : base + f.bytes.length ≤ 2 ^ 63) (habsent : ∀ e ∈ f.entries, e.key ≠ alignmentKey) :
    ∃ impl, s.load (fileAttempt f hfits base) =
      some ((s.install (some impl)).finish (.returned true)) := by
  obtain ⟨gguf, hload⟩ : ∃ gguf,
      loadGgufFile (some base) f.bytes (f.bytes.length + 1) = .ok (some gguf) := by
    obtain ⟨metadata, tensors, hload, hkeys⟩ :=
      GgufFile.loadGgufFile_bytes hfits hmap (Nat.lt_add_one _)
    rw [alignAddress_absent (GgufFile.metadata_alignmentKey hkeys habsent), Outcome.ok_bind]
      at hload
    exact ⟨_, hload⟩
  obtain ⟨infos, hinfos⟩ := GgufFile.exists_tensorInfo hfits (Nat.lt_add_one _) hload fun _ => []
  have hparse : (fileAttempt f hfits base).parse = .ok (some gguf) := hload
  have hcomplete : s.complete (fileAttempt f hfits base) (some gguf) =
      some ((s.install (some ((ModelImpl.new gguf).loadTensors infos none).2)).finish
        (.returned true)) := by
    have hlisted : gguf.tensorInfo (fileAttempt f hfits base).typeName (fileAttempt f hfits base).mem
        (fileAttempt f hfits base).order = .ok infos := hinfos
    rw [complete, if_neg nofun, if_neg nofun]
    dsimp only
    rw [hlisted]
    rfl
  have hmagic : isGgufFile (fileAttempt f hfits base).buffer = true := decide_eq_true rfl
  refine ⟨_, Eq.trans ?_ hcomplete⟩
  rw [load, if_neg nofun, if_neg nofun, if_pos hmagic, hparse]

def sampleLoad : Call := .load (fileAttempt GgufFile.sampleFile GgufFile.sampleFile_fitsInt 4096)

def unmapped : Attempt where
  opened := true
  statted := true
  buffer := magic
  base := none
  mem := []
  fuel := 0
  throws := none
  typeName := fun _ => []
  order := []
  iterates := nofun

theorem step_load (s : Process) (a : Attempt) : system.step s (.load a) = s.load a := rfl

theorem load_sample (s : Process) : ∃ impl, system.step s sampleLoad =
    some ((s.install (some impl)).finish (.returned true)) := by
  rw [sampleLoad, step_load]
  exact s.load_file GgufFile.sampleFile_fitsInt (by decide +kernel) GgufFile.sampleEntries_unaligned

def unrecognized : Attempt := { unmapped with buffer := [0, 0, 0, 0] }

theorem load_unrecognized (s : Process) :
    system.step s (.load unrecognized) = some (s.finish (.returned false)) :=
  rfl

theorem load_unmapped (s : Process) :
    system.step s (.load unmapped) = some ((s.install none).finish .nullLoader) :=
  rfl

theorem allOrNothing_iff_sample :
    ∃ s, system.run [sampleLoad, .load unrecognized, .unload] = some s ∧
      system.Meets (fun s call => ∀ s', s.step call = some s' → AllOrNothing s s' call) new
        [sampleLoad, .load unrecognized, .unload] := by
  obtain ⟨impl, hsample⟩ := load_sample new
  obtain ⟨s, hrun⟩ : ∃ s, system.run [sampleLoad, .load unrecognized, .unload] = some s :=
    ⟨_, Transitions.runFrom_cons.mpr ⟨_, hsample,
      Transitions.runFrom_cons.mpr ⟨_, load_unrecognized _,
        (Transitions.runFrom_singleton system _ .unload).trans rfl⟩⟩⟩
  refine ⟨s, hrun, (allOrNothing_iff hrun).mpr ?_⟩
  rw [List.forall_mem_cons, List.forall_mem_cons, List.forall_mem_singleton]
  refine ⟨?_, ?_, trivial⟩
  · exact fun _ f hf => .inr ⟨nofun, nofun, nofun⟩
  · exact fun hr => absurd hr.magic (by decide)

/-- The file is not mapped: the model that was loaded is gone, and the new one is made from a null
loader. -/
theorem unmapped_nullLoader : ∃ s s', system.run [sampleLoad] = some s ∧
    s.step (.load unmapped) = some s' ∧ s'.last = some .nullLoader ∧
      s'.loaded = some ⟨1, none⟩ ∧ ¬ AllOrNothing s s' (.load unmapped) := by
  obtain ⟨impl, hsample⟩ := load_sample new
  exact ⟨_, _, (Transitions.runFrom_singleton system new sampleLoad).trans hsample,
    load_unmapped _, rfl, rfl, not_allOrNothing_install _⟩

end Process

end ZInferLM.Models
