import ZInferLM.Gguf.Layout

/-! # Loading what was written

The two entry loops keep the first entry of every key, with its views, and leave the cursor behind
the last byte they skipped. Through the views the written values are read back. -/

namespace ZInferLM.Gguf
open Library Library.Machine
open Library.Utf8 (Bytes)

mutual

/-- The typed value the accessors see. -/
def MetadataValue.typed (mem : Bytes) : MetadataValue → Outcome Value
  | .primitive data _ => .ok (.primitive data)
  | .string s => do
    let bs ← s.toString mem
    .ok (.string bs)
  | .array valType _ elements => do
    let vs ← typedAll mem elements
    .ok (.array valType vs)

def typedAll (mem : Bytes) : List MetadataValue → Outcome (List Value)
  | [] => .ok []
  | e :: es => do
    let v ← e.typed mem
    let vs ← typedAll mem es
    .ok (v :: vs)

end

def Metadata.typed (mem : Bytes) (m : Metadata) : Outcome Entry := do
  let key ← m.keyString mem
  let value ← m.val.typed mem
  .ok ⟨key, m.valType, value⟩

/-- The fields of a tensor info read through its pointers, with the stored number of dimensions. -/
def TensorInfo.typed (mem : Bytes) (t : TensorInfo) : Outcome (ℕ × TensorDesc) := do
  let name ← t.name.toString mem
  let n ← readNat mem t.nDimensions 4
  let dtype ← readNat mem t.dtype 4
  let offset ← readNat mem t.offset 8
  .ok (n, ⟨name, t.dimensions, UInt32.ofNat dtype, UInt64.ofNat offset⟩)

section Reading
variable {mem : Bytes} {pos : ℕ}

theorem typedAll_parsedAllAt {vs : List Value}
    (hvs : ∀ v ∈ vs, ∀ pos, Holds mem pos v.encode → (v.parsedAt pos).typed mem = .ok v)
    (h : Holds mem pos (encodeAll vs)) : typedAll mem (parsedAllAt pos vs) = .ok vs := by
  induction vs generalizing pos with
  | nil => rfl
  | cons v vs ih =>
    rw [encodeAll] at h
    rw [parsedAllAt, typedAll, hvs v (by simp) pos h.left, Outcome.ok_bind,
      ih (fun x hx => hvs x (List.mem_cons_of_mem _ hx)) h.right, Outcome.ok_bind]

theorem Value.HasType.typed_parsedAt {v : Value} {d : MetadataDType} (h : v.HasType d)
    (hmem : Holds mem pos v.encode) : (v.parsedAt pos).typed mem = .ok v := by
  induction h generalizing pos with
  | primitive v => rfl
  | string bs =>
    rw [encode] at hmem
    rw [parsedAt, MetadataValue.typed, toString_string hmem, Outcome.ok_bind]
  | array valType elements _ ih =>
    rw [encode] at hmem
    have helems := hmem.right.right
    rw [length_toBytes, length_toBytes] at helems
    rw [parsedAt, MetadataValue.typed,
      typedAll_parsedAllAt (fun x hx pos hpos => ih x hx hpos) helems, Outcome.ok_bind]

theorem Entry.typed_parsedAt {e : Entry} (ht : e.value.HasType e.valType)
    (h : Holds mem pos e.encode) : (e.parsedAt pos).typed mem = .ok e := by
  rw [encode] at h
  have hval := h.right.right
  rw [length_toBytes] at hval
  rw [Metadata.typed, Metadata.keyString, parsedAt, toString_string h.left, Outcome.ok_bind,
    ht.typed_parsedAt hval, Outcome.ok_bind]

theorem TensorDesc.typed_parsedAt {t : TensorDesc} (hlen : t.encode.length < 2 ^ 31)
    (h : Holds mem pos t.encode) :
    (t.parsedAt pos).typed mem = .ok (t.dimensions.length, t) := by
  have hparts : t.encode.length =
      (encodeString t.name).length + (4 + (8 * t.dimensions.length + (4 + 8))) := by
    simp only [encode, List.length_append, length_toBytes, length_encodeDimensions]
  rw [encode] at h
  have hdim := h.right
  have hdims := hdim.right
  rw [length_toBytes] at hdims
  have htype := hdims.right
  rw [length_encodeDimensions] at htype
  have hoffset := htype.right
  rw [length_toBytes] at hoffset
  have hn : t.dimensions.length < 256 ^ 4 := by norm_num; omega
  have hd : t.dtype.toNat < 256 ^ 4 := t.dtype.toNat_lt
  have ho : t.offset.toNat < 256 ^ 8 := t.offset.toNat_lt
  simp only [TensorInfo.typed, parsedAt]
  rw [toString_string h.left, Outcome.ok_bind, hdim.left.readNat_eq hn, Outcome.ok_bind,
    htype.left.readNat_eq hd, Outcome.ok_bind, hoffset.readNat_eq ho, Outcome.ok_bind,
    UInt32.ofNat_toNat, UInt64.ofNat_toNat]

end Reading

/-- The results of reading written elements that stand behind one another. -/
def placed {α β : Type} (encode : α → Bytes) (parsedAt : ℕ → α → β) : ℕ → List α → List (α × β)
  | _, [] => []
  | pos, x :: xs => (x, parsedAt pos x) :: placed encode parsedAt (pos + (encode x).length) xs

theorem mem_placed {α β : Type} {encode : α → Bytes} {parsedAt : ℕ → α → β} {mem : Bytes}
    {pos : ℕ} {xs : List α} (h : Holds mem pos (xs.flatMap encode)) {x : α} {y : β}
    (hxy : (x, y) ∈ placed encode parsedAt pos xs) :
    x ∈ xs ∧ ∃ p, Holds mem p (encode x) ∧ y = parsedAt p x := by
  induction xs generalizing pos with
  | nil => simp [placed] at hxy
  | cons z xs ih =>
    rw [List.flatMap_cons] at h
    rcases List.mem_cons.mp hxy with hxy | hxy
    · obtain ⟨rfl, rfl⟩ := Prod.mk.inj hxy
      exact ⟨List.mem_cons_self, pos, h.left, rfl⟩
    · obtain ⟨hx, hp⟩ := ih h.right hxy
      exact ⟨List.mem_cons_of_mem _ hx, hp⟩

theorem placed_fst {α β : Type} (encode : α → Bytes) (parsedAt : ℕ → α → β) (pos : ℕ)
    (xs : List α) : (placed encode parsedAt pos xs).map Prod.fst = xs := by
  induction xs generalizing pos with
  | nil => rfl
  | cons x xs ih => rw [placed, List.map_cons, ih]

theorem nodup_placed {α β : Type} (encode : α → Bytes) (parsedAt : ℕ → α → β) (pos : ℕ)
    {key : α → Bytes} {xs : List α} (h : (xs.map key).Nodup) :
    ((placed encode parsedAt pos xs).map fun xy => key xy.1).Nodup := by
  have hmap := congrArg (List.map key) (placed_fst encode parsedAt pos xs)
  rw [List.map_map] at hmap
  exact hmap ▸ h

/-- The map an entry loop builds: the first element of every key counts. -/
def insertAll {α β : Type} (key : α → Bytes) (m : Bytes → Option β) (xys : List (α × β)) :
    Bytes → Option β :=
  xys.foldl (fun m xy => insertNew m (key xy.1) xy.2) m

/-- With distinct keys the map holds exactly the results. -/
theorem insertAll_eq_some {α β : Type} {key : α → Bytes} {xys : List (α × β)}
    (hd : (xys.map fun xy => key xy.1).Nodup) {k : Bytes} {y : β} :
    insertAll key (fun _ => none) xys k = some y ↔ ∃ x, key x = k ∧ (x, y) ∈ xys := by
  have hfold : insertAll key (fun _ => none) xys =
      (xys.map fun xy => (key xy.1, xy.2)).foldl (fun m kv => insertNew m kv.1 kv.2)
        (fun _ => none) := by
    rw [insertAll, List.foldl_map]
  rw [hfold, foldl_insertNew, Option.none_or, List.find?_map, Option.map_map,
    Option.map_eq_some_iff]
  constructor
  · rintro ⟨⟨x, y'⟩, hfind, rfl⟩
    have hkey := List.find?_some hfind
    exact ⟨x, by simpa using hkey, List.mem_of_find?_eq_some hfind⟩
  · rintro ⟨x, rfl, hmem⟩
    cases hfind : xys.find? ((fun kv : Bytes × β => decide (kv.1 = key x)) ∘
        fun xy => (key xy.1, xy.2)) with
    | none =>
      have hno := List.find?_eq_none.mp hfind _ hmem
      simp at hno
    | some xy' =>
      have hkey : key xy'.1 = key x := by simpa using List.find?_some hfind
      have hsame := List.inj_on_of_nodup_map hd (List.mem_of_find?_eq_some hfind) hmem hkey
      exact ⟨xy', rfl, by rw [hsame]; rfl⟩

section Loops
variable {mem : Bytes} {fuel pos : ℕ}

/-- An entry the loader reads right: its size fits an `int`, and the fuel its nesting. -/
structure Entry.Readable (fuel : ℕ) (e : Entry) : Prop where
  tagged : e.value.Tagged e.valType
  size : e.encode.length < 2 ^ 31
  depth : e.encode.length < fuel

theorem Entry.tagged (e : Entry) (htype : e.value.HasType e.valType)
    (hlen : e.encode.length < 2 ^ 31) : e.value.Tagged e.valType := by
  simp only [encode, List.length_append] at hlen
  exact htype.tagged (by omega)

theorem ggufMetadataLoop_eq {es : List Entry} (hes : ∀ e ∈ es, e.Readable fuel)
    (h : Holds mem pos (es.flatMap Entry.encode)) (m : MetadataMap) :
    ggufMetadataLoop mem fuel es.length pos m =
      .ok (insertAll Entry.key m (placed Entry.encode Entry.parsedAt pos es),
        ((pos + (es.flatMap Entry.encode).length : ℕ) : ℤ)) := by
  induction es generalizing pos m with
  | nil => rfl
  | cons e es ih =>
    rw [List.flatMap_cons] at h ⊢
    have he := hes e (by simp)
    obtain ⟨hread, hsize, hkey⟩ := Entry.fromPtr_eq he.tagged he.size he.depth h.left
    rw [List.length_cons, ggufMetadataLoop, hread, Outcome.ok_bind, hsize, Outcome.ok_bind, hkey,
      Outcome.ok_bind, ← Nat.cast_add, ih (fun x hx => hes x (List.mem_cons_of_mem _ hx)) h.right,
      List.length_append, Nat.add_assoc]
    rfl

theorem ggufTensorsLoop_eq {ts : List TensorDesc} (hts : ∀ t ∈ ts, t.encode.length < 2 ^ 31)
    (h : Holds mem pos (ts.flatMap TensorDesc.encode)) (m : TensorMap) :
    ggufTensorsLoop mem ts.length pos m =
      .ok (insertAll TensorDesc.name m (placed TensorDesc.encode TensorDesc.parsedAt pos ts),
        ((pos + (ts.flatMap TensorDesc.encode).length : ℕ) : ℤ)) := by
  induction ts generalizing pos m with
  | nil => rfl
  | cons t ts ih =>
    rw [List.flatMap_cons] at h ⊢
    obtain ⟨hread, hsize, hname⟩ := TensorDesc.fromPtr_eq (hts t (by simp)) h.left
    rw [List.length_cons, ggufTensorsLoop, hread, Outcome.ok_bind, hname, Outcome.ok_bind, hsize,
      ← Nat.cast_add, ih (fun x hx => hts x (List.mem_cons_of_mem _ hx)) h.right,
      List.length_append, Nat.add_assoc]
    rfl

theorem ggufMetadata_eq {es : List Entry} (hes : ∀ e ∈ es, e.Readable fuel)
    (h : Holds mem pos (es.flatMap Entry.encode)) :
    ggufMetadata mem fuel pos es.length =
      .ok (insertAll Entry.key (fun _ => none) (placed Entry.encode Entry.parsedAt pos es),
        ((pos + (es.flatMap Entry.encode).length : ℕ) : ℤ)) := by
  rw [ggufMetadata, Int.toNat_natCast, ggufMetadataLoop_eq hes h]

theorem ggufTensorsInfo_eq {ts : List TensorDesc} (hcount : ts.length < 2 ^ 31)
    (hts : ∀ t ∈ ts, t.encode.length < 2 ^ 31)
    (h : Holds mem pos (ts.flatMap TensorDesc.encode)) :
    ggufTensorsInfo mem pos ts.length =
      .ok (insertAll TensorDesc.name (fun _ => none)
          (placed TensorDesc.encode TensorDesc.parsedAt pos ts),
        ((pos + (ts.flatMap TensorDesc.encode).length : ℕ) : ℤ)) := by
  have hturns : TensorInfo.turns ts.length = ts.length := min_eq_left hcount.le
  have hcheck : TensorInfo.checkTurns ts.length = .ok () := if_pos hcount
  rw [ggufTensorsInfo, hturns, ggufTensorsLoop_eq hts h, Outcome.ok_bind, hcheck, Outcome.ok_bind]

end Loops

def magic : Bytes := [0x47, 0x47, 0x55, 0x46]

/-- A GGUF file: header, entries, tensor infos and whatever follows. -/
def fileBytes (version : UInt32) (es : List Entry) (ts : List TensorDesc) (rest : Bytes) : Bytes :=
  magic ++ (toBytes 4 version.toNat ++ (toBytes 8 ts.length ++ (toBytes 8 es.length ++
    (es.flatMap Entry.encode ++ (ts.flatMap TensorDesc.encode ++ rest)))))

def entriesEnd (es : List Entry) (ts : List TensorDesc) : ℕ :=
  headerSize + (es.flatMap Entry.encode).length + (ts.flatMap TensorDesc.encode).length

section File
variable (version : UInt32) (es : List Entry) (ts : List TensorDesc) (rest : Bytes)

theorem holds_fileBytes :
    Holds (fileBytes version es ts rest) 8 (toBytes 8 ts.length) ∧
      Holds (fileBytes version es ts rest) 16 (toBytes 8 es.length) ∧
      Holds (fileBytes version es ts rest) headerSize (es.flatMap Entry.encode) ∧
      Holds (fileBytes version es ts rest) (headerSize + (es.flatMap Entry.encode).length)
        (ts.flatMap TensorDesc.encode) := by
  have hall : Holds (fileBytes version es ts rest) 0 (fileBytes version es ts rest) :=
    ⟨[], [], by simp, rfl⟩
  have h8 := (hall.right (a := magic)).right
  rw [length_toBytes] at h8
  have h16 := h8.right
  rw [length_toBytes] at h16
  have h24 := h16.right
  rw [length_toBytes] at h24
  exact ⟨h8.left, h16.left, h24.left, h24.right.left⟩

theorem length_encode_lt {fuel : ℕ} (hfuel : (fileBytes version es ts rest).length < fuel)
    {e : Entry} (he : e ∈ es) : e.encode.length < fuel := by
  have hmem : e.encode.length ≤ (es.flatMap Entry.encode).length := by
    rw [List.length_flatMap]
    exact List.le_sum_of_mem (List.mem_map_of_mem he)
  have hle := (holds_fileBytes version es ts rest).2.2.1.le
  omega

variable {version es ts rest}

/-- Loading a written file gives the views of its entries and ends behind its tensor infos. -/
theorem readEntries_eq {fuel : ℕ} (hes : es.length < 2 ^ 31) (hts : ts.length < 2 ^ 31)
    (htagged : ∀ e ∈ es, e.value.Tagged e.valType) (hsize : ∀ e ∈ es, e.encode.length < 2 ^ 31)
    (htsize : ∀ t ∈ ts, t.encode.length < 2 ^ 31)
    (hfuel : (fileBytes version es ts rest).length < fuel) :
    readEntries (fileBytes version es ts rest) fuel =
      .ok (insertAll Entry.key (fun _ => none) (placed Entry.encode Entry.parsedAt headerSize es),
        insertAll TensorDesc.name (fun _ => none) (placed TensorDesc.encode TensorDesc.parsedAt
          (headerSize + (es.flatMap Entry.encode).length) ts), (entriesEnd es ts : ℤ)) := by
  obtain ⟨htc, hkv, hentries, hinfos⟩ := holds_fileBytes version es ts rest
  have hreadable : ∀ e ∈ es, e.Readable fuel := fun e he =>
    ⟨htagged e he, hsize e he, length_encode_lt version es ts rest hfuel he⟩
  have hkv' := hkv.readNat_eq (by norm_num; omega)
  have htc' := htc.readNat_eq (by norm_num; omega)
  rw [Nat.cast_ofNat] at hkv' htc'
  rw [readEntries, hkv', Outcome.ok_bind, toInt_of_lt hes, ggufMetadata_eq hreadable hentries,
    Outcome.ok_bind, htc', Outcome.ok_bind, ggufTensorsInfo_eq hts htsize hinfos, Outcome.ok_bind]
  rfl

end File

/-- The map of the loop holds, under its key, what the element reads as, and nothing else. -/
theorem insertAll_placed {α β γ : Type} {key : α → Bytes} {encode : α → Bytes}
    {parsedAt : ℕ → α → β} {typed : β → γ} {expected : α → γ} {mem : Bytes} {pos : ℕ} {xs : List α}
    (h : Holds mem pos (xs.flatMap encode)) (hkeys : (xs.map key).Nodup)
    (hread : ∀ x ∈ xs, ∀ p, Holds mem p (encode x) → typed (parsedAt p x) = expected x) :
    (∀ x ∈ xs, ∃ y, insertAll key (fun _ => none) (placed encode parsedAt pos xs) (key x) = some y ∧
        typed y = expected x) ∧
      ∀ k y, insertAll key (fun _ => none) (placed encode parsedAt pos xs) k = some y →
        ∃ x ∈ xs, key x = k ∧ typed y = expected x := by
  have hd := nodup_placed encode parsedAt pos hkeys
  have hseen : ∀ x y, (x, y) ∈ placed encode parsedAt pos xs → x ∈ xs ∧ typed y = expected x := by
    intro x y hxy
    obtain ⟨hx, p, hp, rfl⟩ := mem_placed h hxy
    exact ⟨hx, hread x hx p hp⟩
  constructor
  · intro x hx
    rw [← placed_fst encode parsedAt pos xs, List.mem_map] at hx
    obtain ⟨⟨x', y⟩, hxy, rfl⟩ := hx
    exact ⟨y, (insertAll_eq_some hd).mpr ⟨x', rfl, hxy⟩, (hseen x' y hxy).2⟩
  · intro k y hy
    obtain ⟨x, hk, hxy⟩ := (insertAll_eq_some hd).mp hy
    exact ⟨x, (hseen x y hxy).1, hk, (hseen x y hxy).2⟩

/-- What was written is what is loaded: the keys with their typed values, the tensor infos, and the
cursor behind the last of them. -/
theorem readEntries_fileBytes (version : UInt32) {es : List Entry} {ts : List TensorDesc}
    (rest : Bytes) {fuel : ℕ} (hes : es.length < 2 ^ 31) (hts : ts.length < 2 ^ 31)
    (htype : ∀ e ∈ es, e.value.HasType e.valType) (hsize : ∀ e ∈ es, e.encode.length < 2 ^ 31)
    (htsize : ∀ t ∈ ts, t.encode.length < 2 ^ 31) (hkeys : (es.map Entry.key).Nodup)
    (hnames : (ts.map TensorDesc.name).Nodup)
    (hfuel : (fileBytes version es ts rest).length < fuel) :
    ∃ metadata tensors,
      readEntries (fileBytes version es ts rest) fuel =
        .ok (metadata, tensors, (entriesEnd es ts : ℤ)) ∧
      ((∀ e ∈ es, ∃ met, metadata e.key = some met ∧
          met.typed (fileBytes version es ts rest) = .ok e) ∧
        ∀ key met, metadata key = some met →
          ∃ e ∈ es, e.key = key ∧ met.typed (fileBytes version es ts rest) = .ok e) ∧
      (∀ t ∈ ts, ∃ info, tensors t.name = some info ∧
          info.typed (fileBytes version es ts rest) = .ok (t.dimensions.length, t)) ∧
        ∀ name info, tensors name = some info → ∃ t ∈ ts, t.name = name ∧
          info.typed (fileBytes version es ts rest) = .ok (t.dimensions.length, t) := by
  obtain ⟨-, -, hentries, hinfos⟩ := holds_fileBytes version es ts rest
  refine ⟨_, _, readEntries_eq hes hts (fun e he => e.tagged (htype e he) (hsize e he)) hsize
    htsize hfuel, ?_, ?_⟩
  · exact insertAll_placed hentries hkeys fun e he p hp => Entry.typed_parsedAt (htype e he) hp
  · exact insertAll_placed hinfos hnames
      fun t ht p hp => TensorDesc.typed_parsedAt (htsize t ht) hp

def sampleEntries : List Entry :=
  [⟨[107], .uint32, .primitive (.uint32 7)⟩,
    ⟨[97], .array, .array .array [.array .string [.string [104, 105]], .array .uint8 []]⟩]

def sampleTensors : List TensorDesc := [⟨[116], [2, 3], 0, 64⟩]

theorem sampleEntries_hasType : ∀ e ∈ sampleEntries, e.value.HasType e.valType := by
  intro e he
  rcases List.mem_cons.mp he with rfl | he
  · exact .primitive (.uint32 7)
  · rw [List.mem_singleton.mp he]
    apply Value.HasType.array
    intro x hx
    rcases List.mem_cons.mp hx with rfl | hx
    · apply Value.HasType.array
      intro y hy
      rw [List.mem_singleton.mp hy]
      exact .string _
    · rw [List.mem_singleton.mp hx]
      exact .array _ _ (by simp)

theorem readEntries_fileBytes_sample :
    ∃ metadata tensors,
      readEntries (fileBytes 3 sampleEntries sampleTensors [0])
          ((fileBytes 3 sampleEntries sampleTensors [0]).length + 1) =
        .ok (metadata, tensors, (entriesEnd sampleEntries sampleTensors : ℤ)) ∧
      (∀ e ∈ sampleEntries, ∃ met, metadata e.key = some met ∧
        met.typed (fileBytes 3 sampleEntries sampleTensors [0]) = .ok e) ∧
      ∀ t ∈ sampleTensors, ∃ info, tensors t.name = some info ∧
        info.typed (fileBytes 3 sampleEntries sampleTensors [0]) =
          .ok (t.dimensions.length, t) := by
  obtain ⟨metadata, tensors, hread, hentries, hinfos⟩ :=
    @readEntries_fileBytes 3 sampleEntries sampleTensors [0] _ (by decide +kernel)
      (by decide +kernel) sampleEntries_hasType (by decide +kernel) (by decide +kernel)
      (by decide) (by decide) (Nat.lt_add_one _)
  exact ⟨metadata, tensors, hread, hentries.1, hinfos.1⟩

end ZInferLM.Gguf
