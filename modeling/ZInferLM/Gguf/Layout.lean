import ZInferLM.Gguf.Loader

/-! # The layout of a GGUF file

Typed values and how GGUF v3 writes them. A written entry that stands in the file is read as the
tree of views that `parsedAt` describes, and this tree computes the length of what was written. -/

namespace ZInferLM.Gguf
open Library Library.Machine
open Library.Utf8 (Bytes)

namespace PrimitiveValue

def dtype : PrimitiveValue → MetadataDType
  | uint8 _ => .uint8 | int8 _ => .int8 | uint16 _ => .uint16 | int16 _ => .int16
  | uint32 _ => .uint32 | int32 _ => .int32 | float32 _ => .float32 | bool _ => .bool
  | uint64 _ => .uint64 | int64 _ => .int64 | float64 _ => .float64

def bits : PrimitiveValue → ℕ
  | uint8 v => v.toNat | int8 v => v.toUInt8.toNat | uint16 v => v.toNat
  | int16 v => v.toUInt16.toNat | uint32 v => v.toNat | int32 v => v.toUInt32.toNat
  | float32 v => v.toNat | bool b => b.toNat | uint64 v => v.toNat
  | int64 v => v.toUInt64.toNat | float64 v => v.toNat

theorem bits_lt (v : PrimitiveValue) : v.bits < 256 ^ v.dtype.width := by
  cases v with
  | uint8 v => exact v.toNat_lt
  | int8 v => exact v.toUInt8.toNat_lt
  | uint16 v => exact v.toNat_lt
  | int16 v => exact v.toUInt16.toNat_lt
  | uint32 v => exact v.toNat_lt
  | int32 v => exact v.toUInt32.toNat_lt
  | float32 v => exact v.toNat_lt
  | bool b => cases b <;> decide
  | uint64 v => exact v.toNat_lt
  | int64 v => exact v.toUInt64.toNat_lt
  | float64 v => exact v.toNat_lt

theorem ofBits_bits (v : PrimitiveValue) : ofBits v.dtype v.bits = .ok v := by
  cases v with
  | bool b => cases b <;> rfl
  | _ => simp [ofBits, dtype, bits]

end PrimitiveValue

/-- A value of the format. An unknown tag announces no bytes. -/
inductive Value where
  | primitive (v : PrimitiveValue)
  | string (bs : Bytes)
  | array (valType : MetadataDType) (elements : List Value)
  | unknown (raw : UInt32) (h : 12 < raw.toNat)

/-- A value of a type of the format: the elements of an array have the type it declares. -/
inductive Value.HasType : Value → MetadataDType → Prop where
  | primitive (v : PrimitiveValue) : HasType (.primitive v) v.dtype
  | string (bs : Bytes) : HasType (.string bs) .string
  | array (valType : MetadataDType) (elements : List Value) :
      (∀ x ∈ elements, HasType x valType) → HasType (.array valType elements) .array

/-- A value under any tag, unknown ones included, whose counts fit their fields. -/
inductive Value.Tagged : Value → MetadataDType → Prop where
  | primitive (v : PrimitiveValue) : Tagged (.primitive v) v.dtype
  | string (bs : Bytes) : bs.length < 2 ^ 64 → Tagged (.string bs) .string
  | array (valType : MetadataDType) (elements : List Value) : elements.length < 2 ^ 64 →
      (∀ x ∈ elements, Tagged x valType) → Tagged (.array valType elements) .array
  | unknown (raw : UInt32) (h : 12 < raw.toNat) : Tagged (.unknown raw h) (.unknown raw h)

def encodeString (bs : Bytes) : Bytes := toBytes 8 bs.length ++ bs

mutual

def Value.encode : Value → Bytes
  | .primitive v => toBytes v.dtype.width v.bits
  | .string bs => encodeString bs
  | .array valType elements =>
    toBytes 4 valType.code.toNat ++ (toBytes 8 elements.length ++ encodeAll elements)
  | .unknown _ _ => []

def encodeAll : List Value → Bytes
  | [] => []
  | v :: vs => v.encode ++ encodeAll vs

end

theorem length_encodeString (bs : Bytes) : (encodeString bs).length = 8 + bs.length := by
  rw [encodeString, List.length_append, length_toBytes]

mutual

/-- What `from_ptr` makes of a value that stands at a position. -/
def Value.parsedAt (pos : ℕ) : Value → MetadataValue
  | .primitive v => .primitive v v.dtype.width
  | .string bs => .string ⟨pos, bs.length⟩
  | .array valType elements => .array valType elements.length (parsedAllAt (pos + 12) elements)
  | .unknown _ _ => .primitive (.uint8 0) 0

def parsedAllAt (pos : ℕ) : List Value → List MetadataValue
  | [] => []
  | v :: vs => v.parsedAt pos :: parsedAllAt (pos + v.encode.length) vs

end

theorem encodeAll_eq (vs : List Value) : encodeAll vs = vs.flatMap Value.encode := by
  induction vs with
  | nil => rfl
  | cons v vs ih => rw [encodeAll, ih, List.flatMap_cons]

theorem Value.HasType.encode_ne_nil {v : Value} {d : MetadataDType} (h : v.HasType d) :
    1 ≤ v.encode.length := by
  cases h with
  | primitive v =>
    rw [encode, length_toBytes]
    cases v <;> simp [PrimitiveValue.dtype, MetadataDType.width]
  | string bs =>
    rw [encode, length_encodeString]
    omega
  | array valType elements =>
    simp only [encode, List.length_append, length_toBytes]
    omega

theorem length_le_encodeAll {vs : List Value} (h : ∀ v ∈ vs, 1 ≤ v.encode.length) :
    vs.length ≤ (encodeAll vs).length := by
  induction vs with
  | nil => simp
  | cons v vs ih =>
    have hv := h v (by simp)
    have hvs := ih fun x hx => h x (List.mem_cons_of_mem _ hx)
    rw [encodeAll, List.length_append, List.length_cons]
    omega

theorem length_encode_le {v : Value} {vs : List Value} (h : v ∈ vs) :
    v.encode.length ≤ (encodeAll vs).length := by
  rw [encodeAll_eq, List.length_flatMap]
  exact List.le_sum_of_mem (List.mem_map_of_mem h)

/-- In less than `2^64` bytes all counts fit their fields. -/
theorem Value.HasType.tagged {v : Value} {d : MetadataDType} (h : v.HasType d)
    (hlen : v.encode.length < 2 ^ 64) : v.Tagged d := by
  induction h with
  | primitive v => exact .primitive v
  | string bs =>
    rw [encode, length_encodeString] at hlen
    exact .string bs (by omega)
  | array valType elements hall ih =>
    simp only [encode, List.length_append, length_toBytes] at hlen
    apply Tagged.array
    · have := length_le_encodeAll fun x hx => (hall x hx).encode_ne_nil
      omega
    · intro x hx
      have := length_encode_le hx
      exact ih x hx (by omega)

/-- The tree computes the length of what was written. -/
def Measured (v : Value) : Prop := ∀ pos, (v.parsedAt pos).size = .ok (v.encode.length : ℤ)

theorem elementsSize_parsedAllAt {vs : List Value} (hvs : ∀ v ∈ vs, Measured v) (acc pos : ℕ)
    (hlen : acc + (encodeAll vs).length < 2 ^ 31) :
    elementsSize acc (parsedAllAt pos vs) = .ok ((acc + (encodeAll vs).length : ℕ) : ℤ) := by
  induction vs generalizing acc pos with
  | nil => rfl
  | cons v vs ih =>
    rw [encodeAll, List.length_append] at hlen
    rw [parsedAllAt, elementsSize, hvs v (by simp), Outcome.ok_bind, addInt_of_lt (by omega),
      Outcome.ok_bind, ih (fun x hx => hvs x (List.mem_cons_of_mem _ hx)) _ _ (by omega),
      encodeAll, List.length_append, Nat.add_assoc]

theorem Value.Tagged.measured {v : Value} {d : MetadataDType} (h : v.Tagged d)
    (hlen : v.encode.length < 2 ^ 31) : Measured v := by
  induction h with
  | primitive v =>
    intro pos
    rw [parsedAt, MetadataValue.size, encode, length_toBytes]
  | string bs =>
    intro pos
    rw [encode, length_encodeString] at hlen
    rw [parsedAt, MetadataValue.size, MetadataStringValue.size, encode, length_encodeString,
      ← toInt_of_lt hlen]
    rfl
  | array valType elements _ _ ih =>
    intro pos
    simp only [encode, List.length_append, length_toBytes] at hlen
    have hall : ∀ x ∈ elements, Measured x := fun x hx => by
      have := length_encode_le hx
      exact ih x hx (by omega)
    have hsize := elementsSize_parsedAllAt hall 0 (pos + 12) (by omega)
    rw [Nat.cast_zero, Nat.zero_add] at hsize
    rw [parsedAt, MetadataValue.size, hsize, Outcome.ok_bind]
    have hsum : (4 : ℤ) + 8 + ((encodeAll elements).length : ℤ) =
        ((Value.array valType elements).encode.length : ℤ) := by
      simp only [encode, List.length_append, length_toBytes]
      push_cast
      ring
    rw [hsum, toInt_of_lt (by simpa only [encode, List.length_append, length_toBytes] using hlen)]
  | unknown raw h => exact fun pos => rfl

section Reading
variable {mem : Bytes} {pos : ℕ}

theorem fromPtr_string {bs : Bytes} (h : Holds mem pos (encodeString bs))
    (hlen : bs.length < 2 ^ 64) : MetadataStringValue.fromPtr mem pos = .ok ⟨pos, bs.length⟩ := by
  rw [MetadataStringValue.fromPtr, h.left.readNat_eq (by norm_num; omega), Outcome.ok_bind]

theorem toString_string {bs : Bytes} (h : Holds mem pos (encodeString bs)) :
    MetadataStringValue.toString mem ⟨pos, bs.length⟩ = .ok bs := by
  have hread := h.right.read_eq
  rw [length_toBytes] at hread
  exact_mod_cast hread

theorem readDType {d : MetadataDType} (h : Holds mem pos (toBytes 4 d.code.toNat)) :
    MetadataDType.read mem pos = .ok d := by
  rw [MetadataDType.read, h.readNat_eq (by have := d.code.toNat_lt; norm_num at this ⊢; omega),
    Outcome.ok_bind, UInt32.ofNat_toNat, MetadataDType.ofCode_code]

theorem readElements_eq (readOne : ℤ → Outcome MetadataValue) {vs : List Value}
    (hvs : ∀ v ∈ vs, Measured v ∧
      ∀ pos : ℕ, Holds mem pos v.encode → readOne pos = .ok (v.parsedAt pos))
    (h : Holds mem pos (encodeAll vs)) :
    readElements readOne vs.length pos = .ok (parsedAllAt pos vs) := by
  induction vs generalizing pos with
  | nil => rfl
  | cons v vs ih =>
    rw [encodeAll] at h
    obtain ⟨hsize, hread⟩ := hvs v (by simp)
    have htail := ih (fun x hx => hvs x (List.mem_cons_of_mem _ hx)) h.right
    rw [List.length_cons, readElements, hread pos h.left, Outcome.ok_bind, hsize pos,
      Outcome.ok_bind, ← Nat.cast_add, htail, Outcome.ok_bind, parsedAllAt]

theorem fromPtr_primitive {v : PrimitiveValue} (h : Holds mem pos (toBytes v.dtype.width v.bits)) :
    MetadataPrimitiveValue.fromPtr mem pos v.dtype = .ok (.primitive v v.dtype.width) := by
  rw [MetadataPrimitiveValue.fromPtr, h.readNat_eq v.bits_lt, Outcome.ok_bind,
    PrimitiveValue.ofBits_bits, Outcome.ok_bind]

/-- A value that stands in the file is read as the tree of its views. -/
theorem Value.Tagged.fromPtr_eq {v : Value} {d : MetadataDType} (h : v.Tagged d)
    (hlen : v.encode.length < 2 ^ 31) {fuel : ℕ} (hfuel : v.encode.length < fuel)
    (hmem : Holds mem pos v.encode) :
    MetadataValue.fromPtr mem fuel pos d = .ok (v.parsedAt pos) := by
  induction h generalizing fuel pos with
  | primitive v =>
    obtain ⟨fuel, rfl⟩ : ∃ n, fuel = n + 1 := ⟨fuel - 1, by omega⟩
    rw [encode] at hmem
    have hprim := fromPtr_primitive hmem
    cases v <;> exact hprim
  | string bs hbs =>
    obtain ⟨fuel, rfl⟩ : ∃ n, fuel = n + 1 := ⟨fuel - 1, by omega⟩
    rw [encode] at hmem
    rw [MetadataValue.fromPtr, fromPtr_string hmem hbs, Outcome.ok_bind, parsedAt]
  | array valType elements hcount hall ih =>
    obtain ⟨fuel, rfl⟩ : ∃ n, fuel = n + 1 := ⟨fuel - 1, by omega⟩
    rw [encode] at hmem
    simp only [encode, List.length_append, length_toBytes] at hlen hfuel
    have htail := hmem.right
    rw [length_toBytes] at htail
    have helems := htail.right
    rw [length_toBytes] at helems
    have helement : ∀ x ∈ elements, Measured x ∧ ∀ pos : ℕ, Holds mem pos x.encode →
        MetadataValue.fromPtr mem fuel pos valType = .ok (x.parsedAt pos) := fun x hx => by
      have := length_encode_le hx
      exact ⟨(hall x hx).measured (by omega), fun pos hpos => ih x hx (by omega) (by omega) hpos⟩
    have hread := readElements_eq (fun cur => MetadataValue.fromPtr mem fuel cur valType)
      helement helems
    have hp4 : (pos : ℤ) + 4 = ((pos + 4 : ℕ) : ℤ) := by push_cast; rfl
    have hp12 : (pos : ℤ) + 12 = ((pos + 4 + 8 : ℕ) : ℤ) := by push_cast; ring
    rw [MetadataValue.fromPtr, readDType hmem.left, Outcome.ok_bind, hp4,
      htail.left.readNat_eq (by norm_num; omega), Outcome.ok_bind, hp12, hread, Outcome.ok_bind,
      parsedAt]
  | unknown raw h =>
    obtain ⟨fuel, rfl⟩ : ∃ n, fuel = n + 1 := ⟨fuel - 1, by omega⟩
    rfl

end Reading

structure Entry where
  key : Bytes
  valType : MetadataDType
  value : Value

def Entry.encode (e : Entry) : Bytes :=
  encodeString e.key ++ (toBytes 4 e.valType.code.toNat ++ e.value.encode)

def Entry.parsedAt (pos : ℕ) (e : Entry) : Metadata :=
  ⟨⟨pos, e.key.length⟩, e.valType, e.value.parsedAt (pos + (encodeString e.key).length + 4)⟩

structure TensorDesc where
  name : Bytes
  dimensions : List UInt64
  dtype : UInt32
  offset : UInt64
  deriving DecidableEq

def encodeDimensions (ds : List UInt64) : Bytes := ds.flatMap fun d => toBytes 8 d.toNat

def TensorDesc.encode (t : TensorDesc) : Bytes :=
  encodeString t.name ++ (toBytes 4 t.dimensions.length ++ (encodeDimensions t.dimensions ++
    (toBytes 4 t.dtype.toNat ++ toBytes 8 t.offset.toNat)))

def TensorDesc.parsedAt (pos : ℕ) (t : TensorDesc) : TensorInfo :=
  let nDim := pos + (encodeString t.name).length
  let type := nDim + 4 + 8 * t.dimensions.length
  ⟨⟨pos, t.name.length⟩, nDim, t.dimensions, type, (type + 4 : ℕ)⟩

section Reading
variable {mem : Bytes} {pos : ℕ}

theorem size_string (pos : ℕ) {bs : Bytes} (h : (encodeString bs).length < 2 ^ 31) :
    MetadataStringValue.size ⟨pos, bs.length⟩ = ((encodeString bs).length : ℤ) := by
  rw [length_encodeString] at h ⊢
  rw [MetadataStringValue.size, ← toInt_of_lt h]
  rfl

theorem Entry.fromPtr_eq {e : Entry} (ht : e.value.Tagged e.valType)
    (hlen : e.encode.length < 2 ^ 31) {fuel : ℕ} (hfuel : e.encode.length < fuel)
    (h : Holds mem pos e.encode) :
    Metadata.fromPtr mem fuel pos = .ok (e.parsedAt pos) ∧
      (e.parsedAt pos).size = .ok (e.encode.length : ℤ) ∧
      (e.parsedAt pos).keyString mem = .ok e.key := by
  have hparts : e.encode.length = (encodeString e.key).length + (4 + e.value.encode.length) := by
    simp only [encode, List.length_append, length_toBytes]
  have hkey := length_encodeString e.key
  rw [encode] at h
  have htype := h.right
  have hval := htype.right
  rw [length_toBytes] at hval
  have hsize := size_string pos (show (encodeString e.key).length < 2 ^ 31 by omega)
  have hp : (pos : ℤ) + (encodeString e.key).length =
      ((pos + (encodeString e.key).length : ℕ) : ℤ) := by push_cast; rfl
  have hp4 : ((pos + (encodeString e.key).length : ℕ) : ℤ) + 4 =
      ((pos + (encodeString e.key).length + 4 : ℕ) : ℤ) := by push_cast; rfl
  refine ⟨?_, ?_, toString_string h.left⟩
  · rw [Metadata.fromPtr, fromPtr_string h.left (by omega), Outcome.ok_bind, hsize, hp,
      readDType htype.left, Outcome.ok_bind, hp4, ht.fromPtr_eq (by omega) (by omega) hval,
      Outcome.ok_bind]
    rfl
  · have hsum : ((encodeString e.key).length : ℤ) + 4 + (e.value.encode.length : ℤ) =
        (e.encode.length : ℤ) := by
      rw [hparts]
      push_cast
      ring
    rw [Metadata.size, parsedAt, ht.measured (by omega), Outcome.ok_bind, hsize, hsum,
      toInt_of_lt hlen]

theorem length_encodeDimensions (ds : List UInt64) : (encodeDimensions ds).length = 8 * ds.length := by
  induction ds with
  | nil => rfl
  | cons d ds ih =>
    rw [encodeDimensions, List.flatMap_cons, List.length_append, length_toBytes, List.length_cons]
    rw [encodeDimensions] at ih
    omega

theorem readDimensions_eq {ds : List UInt64} (h : Holds mem pos (encodeDimensions ds)) :
    TensorInfo.readDimensions mem ds.length pos = .ok ds := by
  induction ds generalizing pos with
  | nil => rfl
  | cons d ds ih =>
    rw [encodeDimensions, List.flatMap_cons] at h
    have htail := h.right
    rw [length_toBytes] at htail
    have hp : (pos : ℤ) + 8 = ((pos + 8 : ℕ) : ℤ) := by push_cast; rfl
    rw [List.length_cons, TensorInfo.readDimensions,
      h.left.readNat_eq (by have := d.toNat_lt; norm_num at this ⊢; omega), Outcome.ok_bind, hp,
      ih htail, Outcome.ok_bind, UInt64.ofNat_toNat]

theorem TensorDesc.fromPtr_eq {t : TensorDesc} (hlen : t.encode.length < 2 ^ 31)
    (h : Holds mem pos t.encode) :
    TensorInfo.fromPtr mem pos = .ok (t.parsedAt pos) ∧
      (t.parsedAt pos).size = (t.encode.length : ℤ) ∧
      (t.parsedAt pos).name.toString mem = .ok t.name := by
  have hparts : t.encode.length =
      (encodeString t.name).length + (4 + (8 * t.dimensions.length + (4 + 8))) := by
    simp only [encode, List.length_append, length_toBytes, length_encodeDimensions]
  have hname := length_encodeString t.name
  rw [encode] at h
  have hdim := h.right
  have hdims := hdim.right
  rw [length_toBytes] at hdims
  have hsize := size_string pos (show (encodeString t.name).length < 2 ^ 31 by omega)
  have hp : (pos : ℤ) + (encodeString t.name).length =
      ((pos + (encodeString t.name).length : ℕ) : ℤ) := by push_cast; rfl
  have hp4 : ((pos + (encodeString t.name).length : ℕ) : ℤ) + 4 =
      ((pos + (encodeString t.name).length + 4 : ℕ) : ℤ) := by push_cast; rfl
  refine ⟨?_, ?_, toString_string h.left⟩
  · have hturns : TensorInfo.turns t.dimensions.length = t.dimensions.length :=
      min_eq_left (by omega)
    have hcheck : TensorInfo.checkTurns t.dimensions.length = .ok () := if_pos (by omega)
    rw [TensorInfo.fromPtr, fromPtr_string h.left (by omega), Outcome.ok_bind]
    simp only [hsize, hp]
    rw [hdim.left.readNat_eq (by norm_num; omega), Outcome.ok_bind, hturns, hp4,
      readDimensions_eq hdims.left, Outcome.ok_bind, hcheck, Outcome.ok_bind]
    rfl
  · have hsum : ((encodeString t.name).length : ℤ) + 4 + 8 * (t.dimensions.length : ℤ) + 4 + 8 =
        (t.encode.length : ℤ) := by
      rw [hparts]
      push_cast
      ring
    rw [TensorInfo.size, parsedAt, hsize, hsum, toInt_of_lt hlen]

end Reading

end ZInferLM.Gguf
