import ZInferLM.Gguf.RoundTrip

/-! # Where the tensor data starts

The tensor data of a file follows its tensor infos at the next multiple of the alignment. The loader
pads the address of the cursor, which pads the offset too, since a mapping starts at a page. -/

namespace ZInferLM.Gguf
open Library Library.Machine
open Library.Utf8 (Bytes)

/-- The address of a tensor, from its offset in the tensor data. -/
def GGUFLoader.getTensorPtr (gguf : GGUFLoader) (offset : ℕ) : ℕ :=
  (gguf.tensorBasePtr + offset) % 2 ^ 64

/-- Without the key the default entry gives `0`, and the alignment is `32`. -/
theorem alignAddress_absent {metadata : MetadataMap} (h : metadata alignmentKey = none) (p : ℕ) :
    alignAddress metadata p = .ok (alignUp p 32 % 2 ^ 64) := by
  rw [alignAddress, h]
  rfl

/-- A `uint32_t` is not the alternative that is asked for. -/
theorem alignAddress_uint32 {metadata : MetadataMap} {met : Metadata} {v : UInt32} {size : ℤ}
    (h : metadata alignmentKey = some met) (hval : met.val = .primitive (.uint32 v) size) (p : ℕ) :
    alignAddress metadata p = .error (.thrown "std::bad_variant_access") := by
  rw [alignAddress, h, valueUInt8, hval]
  rfl

/-- A well-formed file of version 3. Where it stores an alignment, this is a `UINT32` and a power
of two from `8` to `4096`. -/
structure GgufFile where
  entries : List Entry
  tensors : List TensorDesc
  /-- What stands behind the tensor infos. -/
  rest : Bytes
  typed : ∀ e ∈ entries, e.value.HasType e.valType
  keys : (entries.map Entry.key).Nodup
  names : (tensors.map TensorDesc.name).Nodup
  aligned : ∀ e ∈ entries, e.key = alignmentKey →
    ∃ k, 3 ≤ k ∧ k ≤ 12 ∧ e.value = .primitive (.uint32 (.ofNat (2 ^ k)))

namespace GgufFile

def bytes (f : GgufFile) : Bytes := fileBytes 3 f.entries f.tensors f.rest

def infosEnd (f : GgufFile) : ℕ := entriesEnd f.entries f.tensors

/-- The alignment the file stores, or `32`. -/
def alignment (f : GgufFile) : ℕ :=
  match f.entries.find? fun e => e.key = alignmentKey with
  | some ⟨_, _, .primitive (.uint32 a)⟩ => a.toNat
  | _ => 32

/-- The counts and the size of every entry and tensor info fit an `int`. -/
structure FitsInt (f : GgufFile) : Prop where
  entryCount : f.entries.length < 2 ^ 31
  tensorCount : f.tensors.length < 2 ^ 31
  entrySize : ∀ e ∈ f.entries, e.encode.length < 2 ^ 31
  tensorSize : ∀ t ∈ f.tensors, t.encode.length < 2 ^ 31

/-- The file, mapped at `base`, is loaded. The tensor data starts at the first aligned offset behind
the tensor infos, and tensors are found from there. -/
def LoadsAligned (f : GgufFile) (base fuel : ℕ) : Prop :=
  ∃ gguf, loadGgufFile (some base) f.bytes fuel = .ok (some gguf) ∧
    IsLeast {p | base + f.infosEnd ≤ p ∧ f.alignment ∣ p - base} gguf.tensorBasePtr ∧
    ∀ offset, gguf.getTensorPtr offset =
      (base + (alignUp f.infosEnd f.alignment + offset)) % 2 ^ 64

variable {f : GgufFile}

theorem infosEnd_le (f : GgufFile) : f.infosEnd ≤ f.bytes.length := by
  have hle := (holds_fileBytes 3 f.entries f.tensors f.rest).2.2.2.le
  exact hle

theorem readEntries_bytes (hfits : f.FitsInt) {fuel : ℕ} (hfuel : f.bytes.length < fuel) :
    ∃ metadata tensors, readEntries f.bytes fuel = .ok (metadata, tensors, (f.infosEnd : ℤ)) ∧
      ∀ key met, metadata key = some met ↔
        ∃ e, e.key = key ∧ (e, met) ∈ placed Entry.encode Entry.parsedAt headerSize f.entries := by
  have htagged : ∀ e ∈ f.entries, e.value.Tagged e.valType :=
    fun e he => e.tagged (f.typed e he) (hfits.entrySize e he)
  exact ⟨_, _, readEntries_eq hfits.entryCount hfits.tensorCount htagged hfits.entrySize
    hfits.tensorSize hfuel, fun key met => insertAll_eq_some (nodup_placed _ _ _ f.keys)⟩

theorem loadGgufFile_bytes (hfits : f.FitsInt) {base fuel : ℕ}
    (hmap : base + f.bytes.length ≤ 2 ^ 63) (hfuel : f.bytes.length < fuel) :
    ∃ metadata tensors,
      loadGgufFile (some base) f.bytes fuel = (do
        let address ← alignAddress metadata (base + f.infosEnd)
        .ok (some ⟨metadata, tensors, (f.infosEnd : ℤ), address⟩)) ∧
      ∀ key met, metadata key = some met ↔
        ∃ e, e.key = key ∧ (e, met) ∈ placed Entry.encode Entry.parsedAt headerSize f.entries := by
  obtain ⟨metadata, tensors, hread, hkeys⟩ := f.readEntries_bytes hfits hfuel
  refine ⟨metadata, tensors, ?_, hkeys⟩
  have hend := f.infosEnd_le
  have hcursor : ((base : ℤ) + (f.infosEnd : ℤ)).toNat % 2 ^ 64 = base + f.infosEnd := by
    rw [← Nat.cast_add, Int.toNat_natCast]
    exact Nat.mod_eq_of_lt (by omega)
  rw [loadGgufFile, hread, Outcome.ok_bind]
  simp only [hcursor]

theorem exists_parsedAt {e : Entry} {met : Metadata}
    (h : (e, met) ∈ placed Entry.encode Entry.parsedAt headerSize f.entries) :
    e ∈ f.entries ∧ ∃ p, met = e.parsedAt p := by
  obtain ⟨-, -, hentries, -⟩ := holds_fileBytes 3 f.entries f.tensors f.rest
  obtain ⟨he, p, -, hmet⟩ := mem_placed hentries h
  exact ⟨he, p, hmet⟩

theorem typed_of_placed {e : Entry} {met : Metadata}
    (h : (e, met) ∈ placed Entry.encode Entry.parsedAt headerSize f.entries) :
    met.val.typed f.bytes = .ok e.value := by
  obtain ⟨-, -, hentries, -⟩ := holds_fileBytes 3 f.entries f.tensors f.rest
  obtain ⟨he, p, hp, rfl⟩ := mem_placed hentries h
  have hval := hp.right.right
  rw [length_toBytes] at hval
  exact (f.typed e he).typed_parsedAt hval

theorem exists_placed {e : Entry} (he : e ∈ f.entries) :
    ∃ met, (e, met) ∈ placed Entry.encode Entry.parsedAt headerSize f.entries := by
  rw [← placed_fst Entry.encode Entry.parsedAt headerSize f.entries, List.mem_map] at he
  obtain ⟨⟨x, met⟩, hmem, rfl⟩ := he
  exact ⟨met, hmem⟩

/-- A file that stores its alignment is not loaded. -/
theorem loadGgufFile_stored (hfits : f.FitsInt) {base fuel : ℕ}
    (hmap : base + f.bytes.length ≤ 2 ^ 63) (hfuel : f.bytes.length < fuel) {e : Entry}
    (he : e ∈ f.entries) (hkey : e.key = alignmentKey) :
    loadGgufFile (some base) f.bytes fuel = .error (.thrown "std::bad_variant_access") := by
  obtain ⟨metadata, tensors, hload, hkeys⟩ := loadGgufFile_bytes hfits hmap hfuel
  obtain ⟨met, hmet⟩ := exists_placed he
  obtain ⟨-, p, hp⟩ := exists_parsedAt hmet
  obtain ⟨k, -, -, hvalue⟩ := f.aligned e he hkey
  have hval : met.val = .primitive (.uint32 (.ofNat (2 ^ k))) 4 := by
    rw [hp, Entry.parsedAt, hvalue]
    rfl
  rw [hload, alignAddress_uint32 ((hkeys _ _).mpr ⟨e, hkey, hmet⟩) hval]
  rfl

theorem alignment_absent (h : ∀ e ∈ f.entries, e.key ≠ alignmentKey) : f.alignment = 32 := by
  have hnone : f.entries.find? (fun e => e.key = alignmentKey) = none := by
    simpa only [List.find?_eq_none, decide_eq_true_eq] using h
  rw [alignment, hnone]

theorem metadata_alignmentKey {metadata : MetadataMap}
    (hkeys : ∀ key met, metadata key = some met ↔
      ∃ e, e.key = key ∧ (e, met) ∈ placed Entry.encode Entry.parsedAt headerSize f.entries)
    (habsent : ∀ e ∈ f.entries, e.key ≠ alignmentKey) : metadata alignmentKey = none := by
  rw [Option.eq_none_iff_forall_ne_some]
  intro met hmet
  obtain ⟨e, hkey, he⟩ := (hkeys _ _).mp hmet
  exact habsent e (exists_parsedAt he).1 hkey

/-- A file is loaded, with its tensor data at the aligned place, if and only if it does not store
its alignment. -/
theorem loadsAligned_iff (f : GgufFile) (hfits : f.FitsInt) {base fuel : ℕ}
    (hpage : base % 4096 = 0) (hmap : base + f.bytes.length ≤ 2 ^ 63)
    (hfuel : f.bytes.length < fuel) :
    f.LoadsAligned base fuel ↔ ∀ e ∈ f.entries, e.key ≠ alignmentKey := by
  constructor
  · rintro ⟨gguf, hload, -⟩ e he hkey
    rw [loadGgufFile_stored hfits hmap hfuel he hkey] at hload
    cases hload
  · intro habsent
    obtain ⟨metadata, tensors, hload, hkeys⟩ := loadGgufFile_bytes hfits hmap hfuel
    have hnone := metadata_alignmentKey hkeys habsent
    have hbase : 32 ∣ base := by
      omega
    have hend := f.infosEnd_le
    have hpadded := alignUp_lt f.infosEnd (show 0 < 32 by decide)
    have haddress : alignUp (base + f.infosEnd) 32 % 2 ^ 64 = base + alignUp f.infosEnd 32 := by
      rw [alignUp_add hbase, Nat.mod_eq_of_lt (by omega)]
    rw [alignAddress_absent hnone, haddress] at hload
    refine ⟨_, hload, ?_, fun offset => ?_⟩
    · -- multiples of the address and of the offset are the same from the base on
      have hsame : {p | base + f.infosEnd ≤ p ∧ 32 ∣ p - base} =
          {p | base + f.infosEnd ≤ p ∧ 32 ∣ p} :=
        Set.ext fun p => and_congr_right fun hp => by omega
      have hleast := isLeast_alignUp (base + f.infosEnd) (show 0 < 32 by decide)
      rw [alignUp_add hbase, ← hsame] at hleast
      rw [alignment_absent habsent]
      exact hleast
    · rw [alignment_absent habsent, GGUFLoader.getTensorPtr, Nat.add_assoc]

theorem sampleEntries_keys : (sampleEntries.map Entry.key).Nodup := by
  decide

theorem sampleEntries_unaligned : ∀ e ∈ sampleEntries, e.key ≠ alignmentKey := by
  decide

def sampleFile : GgufFile where
  entries := sampleEntries
  tensors := sampleTensors
  rest := [0]
  typed := sampleEntries_hasType
  keys := sampleEntries_keys
  names := List.nodup_singleton _
  aligned e he hkey := absurd hkey (sampleEntries_unaligned e he)

theorem sampleFile_fitsInt : sampleFile.FitsInt where
  entryCount := by decide
  tensorCount := by decide
  entrySize := by decide +kernel
  tensorSize := by decide +kernel

theorem loadsAligned_iff_sample :
    sampleFile.LoadsAligned 4096 (sampleFile.bytes.length + 1) ↔
      ∀ e ∈ sampleFile.entries, e.key ≠ alignmentKey :=
  sampleFile.loadsAligned_iff sampleFile_fitsInt (by decide) (by decide +kernel)
    (Nat.lt_add_one _)

/-- A file that stores the alignment it would have without the key. -/
def storedAlignment : GgufFile where
  entries := [⟨alignmentKey, .uint32, .primitive (.uint32 32)⟩]
  tensors := []
  rest := []
  typed e he := List.mem_singleton.mp he ▸ .primitive (.uint32 32)
  keys := List.nodup_singleton _
  names := List.nodup_nil
  aligned e he _ := ⟨5, by omega, by omega, by rw [List.mem_singleton.mp he]; rfl⟩

theorem storedAlignment_fails : storedAlignment.FitsInt ∧
    ∀ fuel, storedAlignment.bytes.length < fuel →
      loadGgufFile (some 4096) storedAlignment.bytes fuel =
        .error (.thrown "std::bad_variant_access") ∧ ¬ storedAlignment.LoadsAligned 4096 fuel := by
  have hfits : storedAlignment.FitsInt :=
    ⟨by decide, by decide, by decide +kernel, by decide +kernel⟩
  refine ⟨hfits, fun fuel hfuel => ?_⟩
  have hload := loadGgufFile_stored hfits (show 4096 + _ ≤ 2 ^ 63 by decide +kernel) hfuel
    List.mem_cons_self rfl
  refine ⟨hload, fun h => ?_⟩
  obtain ⟨gguf, hok, -⟩ := h
  rw [hload] at hok
  cases hok

end GgufFile

end ZInferLM.Gguf
