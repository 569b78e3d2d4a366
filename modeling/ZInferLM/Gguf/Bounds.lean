import ZInferLM.Gguf.RoundTrip

/-! # Where loading stays inside the file

The loader checks no length against the size of the file. A read outside it is a fault of the model,
so a load without a fault has stayed inside. That is what happens when the announced entries are
there, and the cursor then stands behind the bytes of the entries read so far. -/

namespace ZInferLM.Gguf
open Library Library.Machine
open Library.Utf8 (Bytes)

/-- A header that announces one entry, and nothing behind it. -/
def truncatedFile : Bytes := magic ++ (toBytes 4 3 ++ (toBytes 8 0 ++ toBytes 8 1))

/-- The entry is looked for behind the end, whatever the fuel. -/
theorem truncatedFile_undefined :
    ¬∀ mem : Bytes, magic <+: mem → ∃ fuel loaded, loadGgufFile (some 0) mem fuel = .ok loaded := by
  intro h
  obtain ⟨fuel, loaded, hload⟩ := h truncatedFile (List.prefix_append _ _)
  have hcount : readNat truncatedFile 16 8 = .ok 1 := by decide
  have hkey : readNat truncatedFile headerSize 8 =
      .error (.undefined "read outside the region") := by decide
  have hone : toInt ((1 : ℕ) : ℤ) = ((1 : ℕ) : ℤ) := toInt_of_lt (by norm_num)
  rw [loadGgufFile, readEntries, hcount, Outcome.ok_bind, hone, ggufMetadata, Int.toNat_natCast,
    ggufMetadataLoop, Metadata.fromPtr, MetadataStringValue.fromPtr, hkey] at hload
  cases hload

def cursorAfter {α : Type} (encode : α → Bytes) (pos : ℕ) (xs : List α) (k : ℕ) : ℕ :=
  pos + ((xs.take k).flatMap encode).length

theorem holds_take {α : Type} {encode : α → Bytes} {mem : Bytes} {pos : ℕ} {xs : List α}
    (h : Holds mem pos (xs.flatMap encode)) (k : ℕ) :
    Holds mem pos ((xs.take k).flatMap encode) := by
  rw [← List.take_append_drop k xs, List.flatMap_append] at h
  exact h.left

/-- The null pointer is returned for a failed mapping only. -/
theorem loadGgufFile_eq_none {base : Option ℕ} {mem : Bytes} {fuel : ℕ} :
    loadGgufFile base mem fuel = .ok none ↔ base = none := by
  cases base with
  | none => exact ⟨fun _ => rfl, fun _ => rfl⟩
  | some base =>
    constructor
    · intro h
      obtain ⟨entries, -, h⟩ := Outcome.bind_eq_ok.mp h
      obtain ⟨address, -, h⟩ := Outcome.bind_eq_ok.mp h
      cases h
    · intro h
      cases h

/-- A file that contains what it announces is read without leaving it, and after every entry the
cursor stands behind its bytes. The null pointer is returned if and only if the mapping has failed. -/
theorem readEntries_inside (version : UInt32) {es : List Entry} {ts : List TensorDesc}
    (rest : Bytes) {fuel : ℕ} (hes : es.length < 2 ^ 31) (hts : ts.length < 2 ^ 31)
    (htagged : ∀ e ∈ es, e.value.Tagged e.valType) (hsize : ∀ e ∈ es, e.encode.length < 2 ^ 31)
    (htsize : ∀ t ∈ ts, t.encode.length < 2 ^ 31)
    (hfuel : (fileBytes version es ts rest).length < fuel) :
    (∃ metadata tensors, readEntries (fileBytes version es ts rest) fuel =
        .ok (metadata, tensors, (entriesEnd es ts : ℤ))) ∧
      entriesEnd es ts ≤ (fileBytes version es ts rest).length ∧
      (∀ k ≤ es.length, ∃ metadata,
        ggufMetadata (fileBytes version es ts rest) fuel headerSize k =
          .ok (metadata, (cursorAfter Entry.encode headerSize es k : ℤ))) ∧
      (∀ k ≤ ts.length, ∃ tensors,
        ggufTensorsInfo (fileBytes version es ts rest)
            (cursorAfter Entry.encode headerSize es es.length : ℤ) k =
          .ok (tensors, (cursorAfter TensorDesc.encode
            (cursorAfter Entry.encode headerSize es es.length) ts k : ℤ))) ∧
      ∀ base mem fuel, loadGgufFile base mem fuel = .ok none ↔ base = none := by
  obtain ⟨-, -, hentries, hinfos⟩ := holds_fileBytes version es ts rest
  refine ⟨⟨_, _, readEntries_eq hes hts htagged hsize htsize hfuel⟩, hinfos.le, ?_, ?_,
    fun _ _ _ => loadGgufFile_eq_none⟩
  · intro k hk
    have hlen : (es.take k).length = k := List.length_take_of_le hk
    have hreadable : ∀ e ∈ es.take k, e.Readable fuel := by
      intro e he
      have he := List.mem_of_mem_take he
      exact ⟨htagged e he, hsize e he, length_encode_lt version es ts rest hfuel he⟩
    have hread := ggufMetadata_eq hreadable (holds_take hentries k)
    rw [hlen] at hread
    exact ⟨_, hread⟩
  · intro k hk
    have hlen : (ts.take k).length = k := List.length_take_of_le hk
    have hend : cursorAfter Entry.encode headerSize es es.length =
        headerSize + (es.flatMap Entry.encode).length := by rw [cursorAfter, List.take_length]
    have hread := ggufTensorsInfo_eq (by omega : (ts.take k).length < 2 ^ 31)
      (fun t ht => htsize t (List.mem_of_mem_take ht)) (holds_take hinfos k)
    rw [hlen] at hread
    rw [hend]
    exact ⟨_, hread⟩

def unknownEntry : Entry := ⟨[107], .unknown 13 (by decide), .unknown 13 (by decide)⟩

theorem readEntries_inside_unknown :
    ∃ metadata tensors, readEntries (fileBytes 3 [unknownEntry] sampleTensors [])
        ((fileBytes 3 [unknownEntry] sampleTensors []).length + 1) =
      .ok (metadata, tensors, (entriesEnd [unknownEntry] sampleTensors : ℤ)) := by
  have htagged : ∀ e ∈ [unknownEntry], e.value.Tagged e.valType := by
    intro e he
    rw [List.mem_singleton.mp he]
    exact .unknown 13 (by decide)
  exact (@readEntries_inside 3 [unknownEntry] sampleTensors [] _ (by decide +kernel)
    (by decide +kernel) htagged (by decide +kernel) (by decide +kernel) (Nat.lt_add_one _)).1

end ZInferLM.Gguf
