import ZInferLM.Gguf.Alignment
import ZInferLM.Library.Transitions

/-! # Loading the tensors of a model

`load_tensors` goes over the tensor infos twice: it creates a tensor without data for each, and then
points each at its place in the mapping. An exception in between leaves what is done so far. -/

namespace ZInferLM.Gguf
open Library Library.Machine
open Library.Utf8 (Bytes)

structure TensorInfoT where
  name : Bytes
  typeName : Bytes
  typeId : ℕ
  nDim : ℕ
  dataOffset : ℕ
  dimensions : List UInt64

/-- What `tensor_info` reads of one entry, with the names that ggml has for types. -/
def TensorInfo.record (typeName : ℕ → Bytes) (mem : Bytes) (t : TensorInfo) :
    Outcome TensorInfoT := do
  let name ← t.name.toString mem
  let typeId ← readNat mem t.dtype 4
  let nDim ← readNat mem t.nDimensions 4
  let dataOffset ← readNat mem t.offset 8
  .ok ⟨name, typeName typeId, typeId, nDim, dataOffset, t.dimensions⟩

/-- An order in which the hash map of the tensors is iterated has every key once. -/
structure Iterates (tensors : TensorMap) (order : List Bytes) : Prop where
  nodup : order.Nodup
  mem : ∀ key, key ∈ order ↔ tensors key ≠ none

def GGUFLoader.tensorInfo (gguf : GGUFLoader) (typeName : ℕ → Bytes) (mem : Bytes)
    (order : List Bytes) : Outcome (List TensorInfoT) :=
  Outcome.collect (TensorInfo.record typeName mem) (order.filterMap gguf.tensors)

def Named (mem : Bytes) (tensors : TensorMap) : Prop :=
  ∀ key t, tensors key = some t → t.name.toString mem = .ok key

theorem named_empty (mem : Bytes) : Named mem fun _ => none := by
  rintro key t ⟨⟩

theorem Named.insertNew {mem : Bytes} {tensors : TensorMap} (h : Named mem tensors)
    {t : TensorInfo} {name : Bytes} (hname : t.name.toString mem = .ok name) :
    Named mem (insertNew tensors name t) := by
  intro key t' hkey
  rw [insertNew_apply, Option.or_eq_some_iff] at hkey
  rcases hkey with hkey | ⟨_, hnew⟩
  · exact h key t' hkey
  · split_ifs at hnew with heq
    cases hnew
    rwa [heq]

theorem ggufTensorsLoop_named {mem : Bytes} {count : ℕ} {p : ℤ} {tensors : TensorMap}
    {r : TensorMap × ℤ} (h : Named mem tensors)
    (hloop : ggufTensorsLoop mem count p tensors = .ok r) : Named mem r.1 := by
  induction count generalizing p tensors with
  | zero =>
    cases hloop
    exact h
  | succ count ih =>
    obtain ⟨t, _, hloop⟩ := Outcome.bind_eq_ok.mp hloop
    obtain ⟨name, hname, hloop⟩ := Outcome.bind_eq_ok.mp hloop
    exact ih (h.insertNew hname) hloop

/-- The loader keeps every tensor info under its name. -/
theorem loadGgufFile_named {base : Option ℕ} {mem : Bytes} {fuel : ℕ} {gguf : GGUFLoader}
    (h : loadGgufFile base mem fuel = .ok (some gguf)) : Named mem gguf.tensors := by
  cases base with
  | none => cases h
  | some base =>
    obtain ⟨entries, hentries, h⟩ := Outcome.bind_eq_ok.mp h
    obtain ⟨address, _, hgguf⟩ := Outcome.bind_eq_ok.mp h
    cases hgguf
    obtain ⟨kvCount, _, hentries⟩ := Outcome.bind_eq_ok.mp hentries
    obtain ⟨metadata, _, hentries⟩ := Outcome.bind_eq_ok.mp hentries
    obtain ⟨tensorCount, _, hentries⟩ := Outcome.bind_eq_ok.mp hentries
    obtain ⟨tensors, htensors, hok⟩ := Outcome.bind_eq_ok.mp hentries
    cases hok
    obtain ⟨r, hloop, htensors⟩ := Outcome.bind_eq_ok.mp htensors
    obtain ⟨_, _, hok⟩ := Outcome.bind_eq_ok.mp htensors
    cases hok
    exact ggufTensorsLoop_named (named_empty mem) hloop

theorem GGUFLoader.exists_tensorInfo {gguf : GGUFLoader} {typeName : ℕ → Bytes} {mem : Bytes}
    {order : List Bytes} {infos : List TensorInfoT}
    (hinfos : gguf.tensorInfo typeName mem order = .ok infos) (hnamed : Named mem gguf.tensors)
    (horder : Iterates gguf.tensors order) {key : Bytes} {t : TensorInfo}
    (ht : gguf.tensors key = some t) : ∃ info ∈ infos, info.name = key := by
  have hmem : t ∈ order.filterMap gguf.tensors :=
    List.mem_filterMap.mpr ⟨key, (horder.mem key).mpr (by rw [ht]; nofun), ht⟩
  obtain ⟨info, hinfo, hrecord⟩ := Outcome.exists_of_collect hinfos t hmem
  refine ⟨info, hinfo, ?_⟩
  rw [TensorInfo.record, hnamed key t ht, Outcome.ok_bind] at hrecord
  obtain ⟨typeId, _, hrecord⟩ := Outcome.bind_eq_ok.mp hrecord
  obtain ⟨nDim, _, hrecord⟩ := Outcome.bind_eq_ok.mp hrecord
  obtain ⟨dataOffset, _, hok⟩ := Outcome.bind_eq_ok.mp hrecord
  cases hok
  rfl

theorem GGUFLoader.length_tensorInfo {gguf : GGUFLoader} {typeName : ℕ → Bytes} {mem : Bytes}
    {order : List Bytes} {infos : List TensorInfoT}
    (hinfos : gguf.tensorInfo typeName mem order = .ok infos)
    (horder : Iterates gguf.tensors order) : infos.length = order.length := by
  rw [Outcome.length_of_collect hinfos, List.length_filterMap_eq_countP, List.countP_eq_length]
  intro key hkey
  exact Option.isSome_iff_ne_none.mpr ((horder.mem key).mp hkey)

theorem TensorInfo.exists_record {mem : Bytes} {t : TensorInfo} {r : ℕ × TensorDesc}
    (h : t.typed mem = .ok r) (typeName : ℕ → Bytes) : ∃ info, t.record typeName mem = .ok info := by
  obtain ⟨name, hname, h⟩ := Outcome.bind_eq_ok.mp h
  obtain ⟨nDim, hnDim, h⟩ := Outcome.bind_eq_ok.mp h
  obtain ⟨dtype, hdtype, h⟩ := Outcome.bind_eq_ok.mp h
  obtain ⟨offset, hoffset, _⟩ := Outcome.bind_eq_ok.mp h
  refine ⟨⟨name, typeName dtype, dtype, nDim, offset, t.dimensions⟩, ?_⟩
  rw [record, hname, Outcome.ok_bind, hdtype, Outcome.ok_bind, hnDim, Outcome.ok_bind, hoffset,
    Outcome.ok_bind]

namespace GgufFile

variable {f : GgufFile} {base fuel : ℕ} {gguf : GGUFLoader}

/-- The map of a loaded file has the tensor infos under their names, and nothing else. -/
theorem tensors_eq (hfits : f.FitsInt) (hfuel : f.bytes.length < fuel)
    (h : loadGgufFile (some base) f.bytes fuel = .ok (some gguf)) :
    gguf.tensors = insertAll TensorDesc.name (fun _ => none) (placed TensorDesc.encode
      TensorDesc.parsedAt (headerSize + (f.entries.flatMap Entry.encode).length) f.tensors) := by
  have htagged : ∀ e ∈ f.entries, e.value.Tagged e.valType :=
    fun e he => e.tagged (f.typed e he) (hfits.entrySize e he)
  have hread : readEntries f.bytes fuel = _ := readEntries_eq hfits.entryCount hfits.tensorCount
    htagged hfits.entrySize hfits.tensorSize hfuel
  obtain ⟨entries, hentries, h⟩ := Outcome.bind_eq_ok.mp h
  obtain ⟨address, _, hok⟩ := Outcome.bind_eq_ok.mp h
  cases hok
  cases hread.symm.trans hentries
  rfl

theorem iterates (hfits : f.FitsInt) (hfuel : f.bytes.length < fuel)
    (h : loadGgufFile (some base) f.bytes fuel = .ok (some gguf)) :
    Iterates gguf.tensors (f.tensors.map TensorDesc.name) := by
  refine ⟨f.names, ?_⟩
  intro key
  rw [tensors_eq hfits hfuel h, Option.ne_none_iff_exists']
  simp only [insertAll_eq_some (nodup_placed _ _ _ f.names)]
  constructor
  · intro hkey
    rw [← placed_fst TensorDesc.encode TensorDesc.parsedAt
      (headerSize + (f.entries.flatMap Entry.encode).length) f.tensors, List.map_map] at hkey
    obtain ⟨⟨t, info⟩, hmem, rfl⟩ := List.mem_map.mp hkey
    exact ⟨info, t, rfl, hmem⟩
  · rintro ⟨info, t, rfl, hmem⟩
    obtain ⟨-, -, -, hinfos⟩ := holds_fileBytes 3 f.entries f.tensors f.rest
    exact List.mem_map_of_mem (mem_placed hinfos hmem).1

theorem exists_tensorInfo (hfits : f.FitsInt) (hfuel : f.bytes.length < fuel)
    (h : loadGgufFile (some base) f.bytes fuel = .ok (some gguf)) (typeName : ℕ → Bytes) :
    ∃ infos, gguf.tensorInfo typeName f.bytes (f.tensors.map TensorDesc.name) = .ok infos := by
  apply Outcome.exists_collect
  intro info hinfo
  obtain ⟨key, _, hkey⟩ := List.mem_filterMap.mp hinfo
  rw [tensors_eq hfits hfuel h, insertAll_eq_some (nodup_placed _ _ _ f.names)] at hkey
  obtain ⟨t, -, hmem⟩ := hkey
  obtain ⟨-, -, -, hinfos⟩ := holds_fileBytes 3 f.entries f.tensors f.rest
  obtain ⟨ht, p, hp, rfl⟩ := mem_placed hinfos hmem
  exact TensorInfo.exists_record (t.typed_parsedAt (hfits.tensorSize t ht) hp) typeName

end GgufFile

end ZInferLM.Gguf

namespace ZInferLM.Models
open Library Gguf
open Library.Utf8 (Bytes)

/-- A `ggml_tensor`; `data` is the address of its data once it has one. -/
structure Tensor where
  typeId : ℕ
  nDim : ℕ
  dimensions : List UInt64
  data : Option ℕ

/-- `ModelImpl` without its backends. -/
structure ModelImpl where
  loader : GGUFLoader
  tensorMap : Bytes → Option Tensor

/-- The context of the tensors allocates no data. -/
def createTensor (info : TensorInfoT) : Tensor :=
  ⟨info.typeId, info.nDim, info.dimensions, none⟩

namespace ModelImpl

def new (loader : GGUFLoader) : ModelImpl := ⟨loader, fun _ => none⟩

/-- A turn of the first loop of `load_tensors`. -/
def create (m : ModelImpl) (info : TensorInfoT) : ModelImpl :=
  { m with tensorMap := Function.update m.tensorMap info.name (some (createTensor info)) }

/-- A turn of the second loop, on the CPU. The first one has made a tensor for every name. -/
def bind (m : ModelImpl) (info : TensorInfoT) : ModelImpl :=
  let data := m.loader.getTensorPtr info.dataOffset
  let tensor := (m.tensorMap info.name).map fun t => { t with data := some data }
  { m with tensorMap := Function.update m.tensorMap info.name tensor }

/-- The steps of `load_tensors` behind which an exception may come: each loop starts with a call of
`tensor_info`. -/
def loadSteps (infos : List TensorInfoT) : List (ModelImpl → ModelImpl) :=
  id :: infos.map (fun info m => m.create info) ++ id :: infos.map (fun info m => m.bind info)

/-- `load_tensors`, with the step that throws, if one does, and whether it returns. -/
def loadTensors (m : ModelImpl) (infos : List TensorInfoT) (throws : Option ℕ) : Bool × ModelImpl :=
  match throws with
  | some step =>
    if step < (loadSteps infos).length then
      (false, ((loadSteps infos).take step).foldl (fun m f => f m) m)
    else (true, (loadSteps infos).foldl (fun m f => f m) m)
  | none => (true, (loadSteps infos).foldl (fun m f => f m) m)

def HasData (key : Bytes) (m : ModelImpl) : Prop :=
  ∃ tensor, m.tensorMap key = some tensor ∧ tensor.data ≠ none

def Bound (m : ModelImpl) : Prop := ∀ key, m.loader.tensors key ≠ none → HasData key m

variable {m : ModelImpl} {infos : List TensorInfoT}

theorem foldl_loadSteps (m : ModelImpl) (infos : List TensorInfoT) :
    (loadSteps infos).foldl (fun m f => f m) m = infos.foldl bind (infos.foldl create m) := by
  rw [loadSteps, List.cons_append, List.foldl_cons, List.foldl_append, List.foldl_cons,
    List.foldl_map, List.foldl_map]
  rfl

theorem create_ne_none (m : ModelImpl) (info : TensorInfoT) {key : Bytes}
    (h : key = info.name ∨ m.tensorMap key ≠ none) : (m.create info).tensorMap key ≠ none := by
  by_cases hkey : key = info.name
  · simp [create, hkey]
  · simpa [create, hkey] using h

theorem bind_ne_none (info : TensorInfoT) {key : Bytes} (h : m.tensorMap key ≠ none) :
    (m.bind info).tensorMap key ≠ none := by
  by_cases hkey : key = info.name
  · subst hkey
    simpa [bind] using h
  · simpa [bind, hkey] using h

theorem bind_hasData_self {info : TensorInfoT} (h : m.tensorMap info.name ≠ none) :
    HasData info.name (m.bind info) := by
  obtain ⟨tensor, htensor⟩ := Option.ne_none_iff_exists'.mp h
  refine ⟨{ tensor with data := some (m.loader.getTensorPtr info.dataOffset) }, ?_, nofun⟩
  simp [bind, htensor]

theorem HasData.bind {key : Bytes} (h : HasData key m) (info : TensorInfoT) :
    HasData key (m.bind info) := by
  obtain ⟨tensor, htensor, hdata⟩ := h
  by_cases hkey : key = info.name
  · subst hkey
    exact bind_hasData_self (by rw [htensor]; nofun)
  · exact ⟨tensor, by simpa [ModelImpl.bind, hkey] using htensor, hdata⟩

/-- The first loop makes a tensor for every name, the second one gives it data. -/
theorem foldl_hasData (m : ModelImpl) (infos : List TensorInfoT) :
    ∀ info ∈ infos, HasData info.name (infos.foldl bind (infos.foldl create m)) := by
  have hcreated : ∀ info ∈ infos, (infos.foldl create m).tensorMap info.name ≠ none := by
    apply foldl_establishes (fun _ => True)
      (fun (info : TensorInfoT) (m : ModelImpl) => m.tensorMap info.name ≠ none)
      (fun _ _ _ => trivial)
    · exact fun m info _ _ => m.create_ne_none info (.inl rfl)
    · exact fun m info _ h => m.create_ne_none info (.inr h)
    · trivial
  apply foldl_establishes
    (fun m : ModelImpl => ∀ info ∈ infos, m.tensorMap info.name ≠ none)
    (fun (info : TensorInfoT) m => HasData info.name m)
  · exact fun m info h info' hinfo' => bind_ne_none info (h info' hinfo')
  · exact fun m info hinfo h => bind_hasData_self (h info hinfo)
  · exact fun m info _ h => h.bind info
  · exact hcreated

theorem foldl_loader (infos : List TensorInfoT) :
    (infos.foldl bind (infos.foldl create m)).loader = m.loader := by
  have hcreate : (infos.foldl create m).loader = m.loader :=
    List.foldlRecOn infos create (motive := fun s : ModelImpl => s.loader = m.loader) rfl
      fun _ h _ _ => h
  exact List.foldlRecOn infos bind (motive := fun s : ModelImpl => s.loader = m.loader) hcreate
    fun _ h _ _ => h

/-- Loading that does not throw binds every tensor. -/
theorem loadTensors_bound {gguf : GGUFLoader} {throws : Option ℕ} {m : ModelImpl}
    (hinfos : ∀ key, gguf.tensors key ≠ none → ∃ info ∈ infos, info.name = key)
    (h : (new gguf).loadTensors infos throws = (true, m)) : m.Bound := by
  have hm : m = (loadSteps infos).foldl (fun m f => f m) (new gguf) := by
    cases throws with
    | none => exact (Prod.mk.inj h).2.symm
    | some step =>
      rw [loadTensors] at h
      split_ifs at h
      · cases (Prod.mk.inj h).1
      · exact (Prod.mk.inj h).2.symm
  rw [hm, foldl_loadSteps]
  intro key hkey
  rw [foldl_loader] at hkey
  obtain ⟨info, hinfo, rfl⟩ := hinfos key hkey
  exact foldl_hasData _ infos info hinfo

theorem loadTensors_fst (m : ModelImpl) (infos : List TensorInfoT) (throws : Option ℕ) :
    (m.loadTensors infos throws).1 = true ↔
      ∀ step, throws = some step → 2 * infos.length + 2 ≤ step := by
  have hlength : (loadSteps infos).length = 2 * infos.length + 2 := by
    simp [loadSteps]
    omega
  cases throws with
  | none => simp [loadTensors]
  | some step =>
    rw [loadTensors, hlength]
    split_ifs with hlt
    · simp [hlt]
    · simpa using hlt

end ModelImpl

end ZInferLM.Models
