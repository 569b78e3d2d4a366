import ZInferLM.Gguf.Alignment
import ZInferLM.Tokenizer.TokenizerImpl

/-! # Typed access to the metadata

The rest of the program reads the metadata through typed accessors. A key that a file does not have
is looked up in one default entry, a `uint8_t`, whatever type is asked for. -/

namespace ZInferLM.Gguf
open Library Library.Machine
open Library.Utf8 (Bytes)
open Tokenizer (literal)

/-- What `std::format` makes of a `float` and of a `double`, from the bit pattern. -/
structure FloatFormat where
  float : UInt32 → Bytes
  double : UInt64 → Bytes

def decimal (n : ℤ) : Bytes := literal (toString n)

def PrimitiveValue.toString (fmt : FloatFormat) : PrimitiveValue → Bytes
  | uint8 v => decimal v.toNat
  | int8 v => decimal v.toInt
  | uint16 v => decimal v.toNat
  | int16 v => decimal v.toInt
  | uint32 v => decimal v.toNat
  | int32 v => decimal v.toInt
  | float32 bits => fmt.float bits
  | bool b => literal (if b then "true" else "false")
  | uint64 v => decimal v.toNat
  | int64 v => decimal v.toInt
  | float64 bits => fmt.double bits

mutual

/-- The text of an array subscripts its first fifty elements, however many there are. -/
def MetadataValue.toString (fmt : FloatFormat) (mem : Bytes) : MetadataValue → Outcome Bytes
  | .primitive data _ => .ok (data.toString fmt)
  | .string s => s.toString mem
  | .array _ _ elements => do
    let res ← elementTexts fmt mem 50 [] elements
    let more := if 50 < elements.length then literal " ... " else []
    .ok (literal "[ " ++ res ++ more ++ literal " ]")

def elementTexts (fmt : FloatFormat) (mem : Bytes) :
    ℕ → Bytes → List MetadataValue → Outcome Bytes
  | 0, _, _ => .ok []
  | _ + 1, _, [] => .error (.undefined "elements_[i]")
  | turns + 1, separator, e :: es => do
    let text ← e.toString fmt mem
    let rest ← elementTexts fmt mem turns (literal ", ") es
    .ok (separator ++ text ++ rest)

end

/-- An alternative of the variant: how a value of the type is held, when `std::get` finds one, and
the value `T{}`. -/
structure Alternative (T : Type) where
  hold : T → PrimitiveValue
  get? : PrimitiveValue → Option T
  get?_eq_some : ∀ v t, get? v = some t ↔ v = hold t
  zero : T

namespace Alternative

def uint8 : Alternative UInt8 where
  hold := .uint8
  get? | .uint8 v => some v | _ => none
  get?_eq_some v t := by cases v <;> simp
  zero := 0

def uint32 : Alternative UInt32 where
  hold := .uint32
  get? | .uint32 v => some v | _ => none
  get?_eq_some v t := by cases v <;> simp
  zero := 0

def int32 : Alternative Int32 where
  hold := .int32
  get? | .int32 v => some v | _ => none
  get?_eq_some v t := by cases v <;> simp
  zero := 0

def bool : Alternative Bool where
  hold := .bool
  get? | .bool b => some b | _ => none
  get?_eq_some v t := by cases v <;> simp
  zero := false

def float : Alternative UInt32 where
  hold := .float32
  get? | .float32 bits => some bits | _ => none
  get?_eq_some v t := by cases v <;> simp
  zero := 0

variable {T : Type} (a : Alternative T)

theorem hold_injective : Function.Injective a.hold := by
  intro t u h
  have ht := (a.get?_eq_some _ t).mpr rfl
  rw [h, (a.get?_eq_some _ u).mpr rfl] at ht
  exact (Option.some.inj ht).symm

def get (v : PrimitiveValue) : Outcome T :=
  match a.get? v with
  | some t => .ok t
  | none => .error (.thrown "std::bad_variant_access")

theorem get_eq_ok {v : PrimitiveValue} {t : T} : a.get v = .ok t ↔ v = a.hold t := by
  rw [← a.get?_eq_some, get]
  cases a.get? v <;> simp

end Alternative

namespace Metadata
variable {T : Type}

/-- The entry that stands for an absent key; its name is not in the file, and empty. -/
def empty : Metadata := ⟨⟨0, 0⟩, .uint8, .primitive (.uint8 0) 1⟩

def valString (fmt : FloatFormat) (mem : Bytes) (m : Metadata) : Outcome Bytes :=
  m.val.toString fmt mem

def value (a : Alternative T) (m : Metadata) : Outcome T :=
  match m.val with
  | .primitive data _ => a.get data
  | .string _ | .array _ _ _ => .ok a.zero

/-- The loop over the elements of a type other than `std::string`: only primitive ones count. -/
def collectPrimitives (a : Alternative T) : List MetadataValue → Outcome (List T)
  | [] => .ok []
  | .primitive data _ :: es => do
    let t ← a.get data
    let ts ← collectPrimitives a es
    .ok (t :: ts)
  | .string _ :: es | .array _ _ _ :: es => collectPrimitives a es

def valArray (a : Alternative T) (m : Metadata) : Outcome (List T) :=
  match m.val with
  | .array _ _ elements => collectPrimitives a elements
  | .primitive _ _ | .string _ => .ok []

def valStrings (fmt : FloatFormat) (mem : Bytes) (m : Metadata) : Outcome (List Bytes) :=
  match m.val with
  | .array _ _ elements => Outcome.collect (MetadataValue.toString fmt mem) elements
  | .primitive _ _ | .string _ => .ok []

end Metadata

def ggufFileTypeName (fileType : UInt32) : Bytes :=
  literal <| match fileType.toNat with
    | 0 => "ALL_F32" | 1 => "MOSTLY_F16" | 2 => "MOSTLY_Q4_0" | 3 => "MOSTLY_Q4_1"
    | 7 => "MOSTLY_Q8_0" | 8 => "MOSTLY_Q5_0" | 9 => "MOSTLY_Q5_1" | 10 => "MOSTLY_Q2_K"
    | 11 => "MOSTLY_Q3_K_S" | 12 => "MOSTLY_Q3_K_M" | 13 => "MOSTLY_Q3_K_L"
    | 14 => "MOSTLY_Q4_K_S" | 15 => "MOSTLY_Q4_K_M" | 16 => "MOSTLY_Q5_K_S"
    | 17 => "MOSTLY_Q5_K_M" | 18 => "MOSTLY_Q6_K" | 19 => "MOSTLY_IQ2_XXS"
    | 20 => "MOSTLY_IQ2_XS" | 21 => "MOSTLY_Q2_K_S" | 22 => "MOSTLY_IQ3_XS"
    | 23 => "MOSTLY_IQ3_XXS" | _ => "UNKNOWN"

structure ModelInfo where
  name : Bytes
  version : Bytes
  architecture : Bytes
  fileType : Bytes

/-- The numbers of `model_config_t`; a `float` is its bit pattern. -/
structure ModelConfig where
  nheads : ℕ
  nkv : ℕ
  ropeFreqBase : UInt32
  nBlocks : ℕ
  embeddingDim : ℕ
  rmsEps : UInt32
  maxContextLen : ℕ

/-- All fields of `tokenizer_info_t`. -/
structure TokenizerInfo extends Tokenizer.TokenizerInfo where
  model : Bytes
  paddingTokenId : ℕ
  addBosToken : Bool
  templateStr : Bytes

namespace GGUFLoader

def getMetadata (gguf : GGUFLoader) (key : Bytes) : Metadata :=
  (gguf.metadata key).getD Metadata.empty

variable (gguf : GGUFLoader) (fmt : FloatFormat) (mem : Bytes)

def info : Outcome ModelInfo := do
  let architecture ← (gguf.getMetadata (literal "general.architecture")).valString fmt mem
  let version ← (gguf.getMetadata (literal "general.version")).valString fmt mem
  let name ← (gguf.getMetadata (literal "general.name")).valString fmt mem
  let fileType ← (gguf.getMetadata (literal "general.file_type")).value .uint32
  .ok ⟨name, version, architecture, ggufFileTypeName fileType⟩

def modelConfig : Outcome ModelConfig := do
  let nheads ← (gguf.getMetadata (literal "qwen2.attention.head_count")).value .uint32
  let nkv ← (gguf.getMetadata (literal "qwen2.attention.head_count_kv")).value .uint32
  let ropeFreqBase ← (gguf.getMetadata (literal "qwen2.rope.freq_base")).value .float
  let embeddingDim ← (gguf.getMetadata (literal "qwen2.embedding_length")).value .uint32
  let nBlocks ← (gguf.getMetadata (literal "qwen2.block_count")).value .uint32
  let rmsEps ←
    (gguf.getMetadata (literal "qwen2.attention.layer_norm_rms_epsilon")).value .float
  let maxContextLen ← (gguf.getMetadata (literal "qwen2.context_length")).value .uint32
  .ok ⟨nheads.toNat, nkv.toNat, ropeFreqBase, nBlocks.toNat, embeddingDim.toNat, rmsEps,
    maxContextLen.toNat⟩

def tokenizerInfo : Outcome TokenizerInfo := do
  let model ← (gguf.getMetadata (literal "tokenizer.ggml.model")).valString fmt mem
  let pre ← (gguf.getMetadata (literal "tokenizer.ggml.pre")).valString fmt mem
  let tokens ← (gguf.getMetadata (literal "tokenizer.ggml.tokens")).valStrings fmt mem
  let merges ← (gguf.getMetadata (literal "tokenizer.ggml.merges")).valStrings fmt mem
  let tokenType ← (gguf.getMetadata (literal "tokenizer.ggml.token_type")).valArray .int32
  let bosTokenId ← (gguf.getMetadata (literal "tokenizer.ggml.bos_token_id")).value .uint32
  let eosTokenId ← (gguf.getMetadata (literal "tokenizer.ggml.eos_token_id")).value .uint32
  let paddingTokenId ←
    (gguf.getMetadata (literal "tokenizer.ggml.padding_token_id")).value .uint32
  let addBosToken ← (gguf.getMetadata (literal "tokenizer.ggml.add_bos_token")).value .bool
  let templateStr ← (gguf.getMetadata (literal "tokenizer.chat_template")).valString fmt mem
  .ok ⟨⟨pre, eosTokenId.toNat, bosTokenId.toNat, tokens, merges, tokenType.map Int32.toInt⟩,
    model, paddingTokenId.toNat, addBosToken, templateStr⟩

end GGUFLoader

/-- The types of keys. A number of heads, blocks or the like may be stored in 32 or in 64 bits. -/
inductive KeyType where
  | string | uint32 | count | float32 | bool | strings | int32s
  deriving DecidableEq

namespace KeyType

def Admits : KeyType → Value → Prop
  | string, v => ∃ bs, v = .string bs
  | uint32, v => ∃ n, v = .primitive (.uint32 n)
  | count, v => (∃ n, v = .primitive (.uint32 n)) ∨ ∃ n, v = .primitive (.uint64 n)
  | float32, v => ∃ bits, v = .primitive (.float32 bits)
  | bool, v => ∃ b, v = .primitive (.bool b)
  | strings, v => ∃ texts : List Bytes, v = .array .string (texts.map .string)
  | int32s, v => ∃ ns : List Int32, v = .array .int32 (ns.map fun n => .primitive (.int32 n))

/-- What the accessors can make a field of: arrays may be absent, all else is present, and a count
has 32 bits. -/
def Readable : KeyType → Option Value → Prop
  | strings, _ | int32s, _ => True
  | count, v => ∃ n, v = some (.primitive (.uint32 n))
  | string, v | uint32, v | float32, v | bool, v => v ≠ none

end KeyType

def infoKeys : List (Bytes × KeyType) :=
  [(literal "general.architecture", .string), (literal "general.version", .string),
    (literal "general.name", .string), (literal "general.file_type", .uint32)]

def configKeys : List (Bytes × KeyType) :=
  [(literal "qwen2.attention.head_count", .count),
    (literal "qwen2.attention.head_count_kv", .count),
    (literal "qwen2.rope.freq_base", .float32), (literal "qwen2.embedding_length", .count),
    (literal "qwen2.block_count", .count),
    (literal "qwen2.attention.layer_norm_rms_epsilon", .float32),
    (literal "qwen2.context_length", .count)]

def tokenizerKeys : List (Bytes × KeyType) :=
  [(literal "tokenizer.ggml.model", .string), (literal "tokenizer.ggml.pre", .string),
    (literal "tokenizer.ggml.tokens", .strings), (literal "tokenizer.ggml.merges", .strings),
    (literal "tokenizer.ggml.token_type", .int32s),
    (literal "tokenizer.ggml.bos_token_id", .uint32),
    (literal "tokenizer.ggml.eos_token_id", .uint32),
    (literal "tokenizer.ggml.padding_token_id", .uint32),
    (literal "tokenizer.ggml.add_bos_token", .bool), (literal "tokenizer.chat_template", .string)]

/-- The keys that are looked up, with their types. -/
def specification : List (Bytes × KeyType) := infoKeys ++ configKeys ++ tokenizerKeys

def SpecTyped (stored : Bytes → Option Value) : Prop :=
  ∀ kt ∈ specification, ∀ v, stored kt.1 = some v → kt.2.Admits v

def AllReadable (keys : List (Bytes × KeyType)) (stored : Bytes → Option Value) : Prop :=
  ∀ kt ∈ keys, kt.2.Readable (stored kt.1)

def stringOf : Option Value → Bytes
  | some (.string bs) => bs
  | _ => []

def countOf : Option Value → ℕ
  | some (.primitive (.uint32 n)) => n.toNat
  | some (.primitive (.uint64 n)) => n.toNat
  | _ => 0

def uint32Of : Option Value → UInt32
  | some (.primitive (.uint32 n)) => n
  | _ => 0

def floatOf : Option Value → UInt32
  | some (.primitive (.float32 bits)) => bits
  | _ => 0

def boolOf : Option Value → Bool
  | some (.primitive (.bool b)) => b
  | _ => false

def elementsOf : Option Value → List Value
  | some (.array _ elements) => elements
  | _ => []

def stringsOf (v : Option Value) : List Bytes := (elementsOf v).map fun e => stringOf (some e)

def int32Of : Value → Int32
  | .primitive (.int32 n) => n
  | _ => 0

def int32sOf (v : Option Value) : List Int32 := (elementsOf v).map int32Of

section Stored
variable (stored : Bytes → Option Value)

/-- Every field is the stored value, or what stands for nothing. -/
def storedInfo : ModelInfo where
  name := stringOf (stored (literal "general.name"))
  version := stringOf (stored (literal "general.version"))
  architecture := stringOf (stored (literal "general.architecture"))
  fileType := ggufFileTypeName (uint32Of (stored (literal "general.file_type")))

def storedConfig : ModelConfig where
  nheads := countOf (stored (literal "qwen2.attention.head_count"))
  nkv := countOf (stored (literal "qwen2.attention.head_count_kv"))
  ropeFreqBase := floatOf (stored (literal "qwen2.rope.freq_base"))
  nBlocks := countOf (stored (literal "qwen2.block_count"))
  embeddingDim := countOf (stored (literal "qwen2.embedding_length"))
  rmsEps := floatOf (stored (literal "qwen2.attention.layer_norm_rms_epsilon"))
  maxContextLen := countOf (stored (literal "qwen2.context_length"))

def storedTokenizerInfo : TokenizerInfo where
  model := stringOf (stored (literal "tokenizer.ggml.model"))
  pre := stringOf (stored (literal "tokenizer.ggml.pre"))
  eosTokenId := (uint32Of (stored (literal "tokenizer.ggml.eos_token_id"))).toNat
  paddingTokenId := (uint32Of (stored (literal "tokenizer.ggml.padding_token_id"))).toNat
  bosTokenId := (uint32Of (stored (literal "tokenizer.ggml.bos_token_id"))).toNat
  addBosToken := boolOf (stored (literal "tokenizer.ggml.add_bos_token"))
  tokens := stringsOf (stored (literal "tokenizer.ggml.tokens"))
  merges := stringsOf (stored (literal "tokenizer.ggml.merges"))
  tokenType := (int32sOf (stored (literal "tokenizer.ggml.token_type"))).map Int32.toInt
  templateStr := stringOf (stored (literal "tokenizer.chat_template"))

end Stored

namespace GGUFLoader

/-- The metadata map of the loader holds the values, as views of the file. -/
def Stores (gguf : GGUFLoader) (mem : Bytes) (stored : Bytes → Option Value) : Prop :=
  ∀ key, (gguf.metadata key).map (fun met => met.val.typed mem) = (stored key).map .ok

/-- The accessors return the stored values and nothing for absent keys, and the tokenizer can be
built from them. -/
structure Accessible (gguf : GGUFLoader) (fmt : FloatFormat) (mem : Bytes)
    (stored : Bytes → Option Value) : Prop where
  info : gguf.info fmt mem = .ok (storedInfo stored)
  config : gguf.modelConfig = .ok (storedConfig stored)
  tokenizer : gguf.tokenizerInfo fmt mem = .ok (storedTokenizerInfo stored)
  tokenTypes : ∀ t, gguf.tokenizerInfo fmt mem = .ok t →
    ∃ tokenizer, Tokenizer.TokenizerImpl.forModel t.toTokenizerInfo = .ok tokenizer

end GGUFLoader

def GgufFile.stored (f : GgufFile) (key : Bytes) : Option Value :=
  (f.entries.find? fun e => e.key = key).map Entry.value

theorem GgufFile.stores (f : GgufFile) (hfits : f.FitsInt) {base fuel : ℕ} {gguf : GGUFLoader}
    (hmap : base + f.bytes.length ≤ 2 ^ 63) (hfuel : f.bytes.length < fuel)
    (hload : loadGgufFile (some base) f.bytes fuel = .ok (some gguf)) :
    gguf.Stores f.bytes f.stored := by
  obtain ⟨metadata, tensors, hbytes, hkeys⟩ := f.loadGgufFile_bytes hfits hmap hfuel
  obtain ⟨address, -, hgguf⟩ := Outcome.bind_eq_ok.mp (hbytes.symm.trans hload)
  cases hgguf
  intro key
  rw [stored]
  dsimp only
  cases hfind : f.entries.find? fun e => e.key = key with
  | none =>
    have hnone : metadata key = none := by
      rw [Option.eq_none_iff_forall_ne_some]
      intro met hmet
      obtain ⟨e, hkey, he⟩ := (hkeys _ _).mp hmet
      have hno := List.find?_eq_none.mp hfind e (exists_parsedAt he).1
      exact hno (decide_eq_true hkey)
    rw [hnone]
    rfl
  | some e =>
    obtain ⟨met, hmet⟩ := exists_placed (List.mem_of_find?_eq_some hfind)
    have hkey : e.key = key := by
      simpa using List.find?_some hfind
    rw [(hkeys key met).mpr ⟨e, hkey, hmet⟩, Option.map_some, Option.map_some,
      Option.map_some, typed_of_placed hmet]

section Typed
variable {mem : Bytes} {m : MetadataValue}

theorem typed_primitive {v : PrimitiveValue} (h : m.typed mem = .ok (.primitive v)) :
    ∃ size, m = .primitive v size := by
  cases m with
  | primitive data size =>
    cases h
    exact ⟨size, rfl⟩
  | string s =>
    obtain ⟨bs, -, hbs⟩ := Outcome.bind_eq_ok.mp h
    cases hbs
  | array d len elements =>
    obtain ⟨vs, -, hvs⟩ := Outcome.bind_eq_ok.mp h
    cases hvs

theorem typed_string {bs : Bytes} (h : m.typed mem = .ok (.string bs)) :
    ∃ s, m = .string s ∧ s.toString mem = .ok bs := by
  cases m with
  | primitive data size => cases h
  | string s =>
    obtain ⟨bs', hread, hbs⟩ := Outcome.bind_eq_ok.mp h
    cases hbs
    exact ⟨s, rfl, hread⟩
  | array d len elements =>
    obtain ⟨vs, -, hvs⟩ := Outcome.bind_eq_ok.mp h
    cases hvs

theorem typed_array {d : MetadataDType} {vs : List Value} (h : m.typed mem = .ok (.array d vs)) :
    ∃ len elements, m = .array d len elements ∧ typedAll mem elements = .ok vs := by
  cases m with
  | primitive data size => cases h
  | string s =>
    obtain ⟨bs, -, hbs⟩ := Outcome.bind_eq_ok.mp h
    cases hbs
  | array d' len elements =>
    obtain ⟨vs', hall, hvs⟩ := Outcome.bind_eq_ok.mp h
    cases hvs
    exact ⟨len, elements, rfl, hall⟩

theorem typedAll_cons {elements : List MetadataValue} {v : Value} {vs : List Value}
    (h : typedAll mem elements = .ok (v :: vs)) :
    ∃ e es, elements = e :: es ∧ e.typed mem = .ok v ∧ typedAll mem es = .ok vs := by
  cases elements with
  | nil => cases h
  | cons e es =>
    obtain ⟨v', hv, h⟩ := Outcome.bind_eq_ok.mp h
    obtain ⟨vs', hvs, h⟩ := Outcome.bind_eq_ok.mp h
    cases h
    exact ⟨e, es, rfl, hv, hvs⟩

theorem typedAll_nil {elements : List MetadataValue} (h : typedAll mem elements = .ok []) :
    elements = [] := by
  cases elements with
  | nil => rfl
  | cons e es =>
    obtain ⟨v, -, h⟩ := Outcome.bind_eq_ok.mp h
    obtain ⟨vs, -, h⟩ := Outcome.bind_eq_ok.mp h
    cases h

theorem collect_toString (fmt : FloatFormat) {elements : List MetadataValue} {texts : List Bytes}
    (h : typedAll mem elements = .ok (texts.map .string)) :
    Outcome.collect (MetadataValue.toString fmt mem) elements = .ok texts := by
  induction texts generalizing elements with
  | nil =>
    rw [typedAll_nil h]
    rfl
  | cons bs texts ih =>
    obtain ⟨e, es, rfl, he, hes⟩ := typedAll_cons h
    obtain ⟨s, rfl, hread⟩ := typed_string he
    rw [Outcome.collect, MetadataValue.toString, hread, Outcome.ok_bind, ih hes, Outcome.ok_bind]

theorem collectPrimitives_int32 {elements : List MetadataValue} {ns : List Int32}
    (h : typedAll mem elements = .ok (ns.map fun n => .primitive (.int32 n))) :
    Metadata.collectPrimitives .int32 elements = .ok ns := by
  induction ns generalizing elements with
  | nil =>
    rw [typedAll_nil h]
    rfl
  | cons n ns ih =>
    obtain ⟨e, es, rfl, he, hes⟩ := typedAll_cons h
    obtain ⟨size, rfl⟩ := typed_primitive he
    have hget : Alternative.int32.get (.int32 n) = .ok n := rfl
    rw [Metadata.collectPrimitives, hget, Outcome.ok_bind, ih hes, Outcome.ok_bind]

end Typed

section Getters
variable {gguf : GGUFLoader} {mem : Bytes} {stored : Bytes → Option Value} {key : Bytes}

theorem GGUFLoader.Stores.getMetadata_none (h : gguf.Stores mem stored) (hkey : stored key = none) :
    gguf.getMetadata key = Metadata.empty := by
  have hmap := h key
  rw [hkey, Option.map_none, Option.map_eq_none_iff] at hmap
  rw [GGUFLoader.getMetadata, hmap, Option.getD_none]

theorem GGUFLoader.Stores.getMetadata_some (h : gguf.Stores mem stored) {v : Value}
    (hkey : stored key = some v) : (gguf.getMetadata key).val.typed mem = .ok v := by
  have hmap := h key
  rw [hkey, Option.map_some, Option.map_eq_some_iff] at hmap
  obtain ⟨met, hmet, htyped⟩ := hmap
  rw [GGUFLoader.getMetadata, hmet, Option.getD_some, htyped]

/-- A value of a scalar type is returned if and only if it is stored; the default entry does not
stand for one. -/
theorem value_eq_ok {T : Type} {a : Alternative T} (h : gguf.Stores mem stored)
    (hscalar : ∀ v, stored key = some v → ∃ p, v = .primitive p)
    (hdefault : a.get? (.uint8 0) = none) {t : T} :
    (gguf.getMetadata key).value a = .ok t ↔ stored key = some (.primitive (a.hold t)) := by
  cases hkey : stored key with
  | none =>
    have hget : (Metadata.empty).value a = .error (.thrown "std::bad_variant_access") := by
      rw [Metadata.value, Metadata.empty]
      simp only [Alternative.get, hdefault]
    rw [h.getMetadata_none hkey, hget]
    simp
  | some v =>
    obtain ⟨p, rfl⟩ := hscalar v hkey
    obtain ⟨size, hval⟩ := typed_primitive (h.getMetadata_some hkey)
    rw [Metadata.value, hval, a.get_eq_ok]
    simp

section Typed
variable (hstores : gguf.Stores mem stored) (htyped : SpecTyped stored)
include hstores htyped

/-- The text of the default entry is `0`, not the empty text. -/
theorem valString_eq_ok (fmt : FloatFormat) (hkey : (key, KeyType.string) ∈ specification) :
    (gguf.getMetadata key).valString fmt mem = .ok (stringOf (stored key)) ↔ stored key ≠ none := by
  cases hv : stored key with
  | none =>
    have htext : Metadata.empty.valString fmt mem = .ok [0x30] := rfl
    rw [hstores.getMetadata_none hv, htext]
    simp [stringOf]
  | some v =>
    obtain ⟨bs, rfl⟩ := htyped _ hkey v hv
    obtain ⟨s, hval, hread⟩ := typed_string (hstores.getMetadata_some hv)
    rw [Metadata.valString, hval, MetadataValue.toString, hread]
    simp [stringOf]

theorem value_eq_ok_of_admits {T : Type} {a : Alternative T} (hdefault : a.get? (.uint8 0) = none)
    {type : KeyType} (hkey : (key, type) ∈ specification)
    (hadmits : ∀ v, type.Admits v → ∃ t, v = .primitive (a.hold t)) {valueOf : Option Value → T}
    (hvalue : ∀ t, valueOf (some (.primitive (a.hold t))) = t) {t : T} :
    (gguf.getMetadata key).value a = .ok t ↔ stored key ≠ none ∧ t = valueOf (stored key) := by
  have hstored := fun v hv => hadmits v (htyped _ hkey v hv)
  rw [value_eq_ok hstores (fun v hv => (hstored v hv).imp' a.hold fun _ => id) hdefault]
  cases hv : stored key with
  | none => simp
  | some v =>
    obtain ⟨t', rfl⟩ := hstored v hv
    rw [hvalue]
    simp [a.hold_injective.eq_iff, eq_comm]

theorem value_uint32 (hkey : (key, KeyType.uint32) ∈ specification) {n : UInt32} :
    (gguf.getMetadata key).value .uint32 = .ok n ↔ stored key ≠ none ∧ n = uint32Of (stored key) :=
  value_eq_ok_of_admits hstores htyped rfl hkey (fun _ => id) fun _ => rfl

theorem value_float (hkey : (key, KeyType.float32) ∈ specification) {bits : UInt32} :
    (gguf.getMetadata key).value .float = .ok bits ↔
      stored key ≠ none ∧ bits = floatOf (stored key) :=
  value_eq_ok_of_admits hstores htyped rfl hkey (fun _ => id) fun _ => rfl

theorem value_bool (hkey : (key, KeyType.bool) ∈ specification) {b : Bool} :
    (gguf.getMetadata key).value .bool = .ok b ↔ stored key ≠ none ∧ b = boolOf (stored key) :=
  value_eq_ok_of_admits hstores htyped rfl hkey (fun _ => id) fun _ => rfl

theorem value_count (hkey : (key, KeyType.count) ∈ specification) {n : UInt32} :
    (gguf.getMetadata key).value .uint32 = .ok n ↔ stored key = some (.primitive (.uint32 n)) := by
  refine value_eq_ok hstores (fun v hv => ?_) rfl
  obtain ⟨n, rfl⟩ | ⟨n, rfl⟩ := htyped _ hkey v hv
  · exact ⟨_, rfl⟩
  · exact ⟨_, rfl⟩

theorem valStrings_eq (fmt : FloatFormat) (hkey : (key, KeyType.strings) ∈ specification) :
    (gguf.getMetadata key).valStrings fmt mem = .ok (stringsOf (stored key)) := by
  cases hv : stored key with
  | none =>
    rw [hstores.getMetadata_none hv]
    rfl
  | some v =>
    obtain ⟨texts, rfl⟩ := htyped _ hkey v hv
    obtain ⟨len, elements, hval, hall⟩ := typed_array (hstores.getMetadata_some hv)
    have hof : (texts.map Value.string).map (fun e => stringOf (some e)) = texts := by
      rw [List.map_map]
      exact List.map_id texts
    rw [Metadata.valStrings, hval]
    exact (collect_toString fmt hall).trans (congrArg _ hof.symm)

theorem valArray_int32 (hkey : (key, KeyType.int32s) ∈ specification) :
    (gguf.getMetadata key).valArray .int32 = .ok (int32sOf (stored key)) := by
  cases hv : stored key with
  | none =>
    rw [hstores.getMetadata_none hv]
    rfl
  | some v =>
    obtain ⟨ns, rfl⟩ := htyped _ hkey v hv
    obtain ⟨len, elements, hval, hall⟩ := typed_array (hstores.getMetadata_some hv)
    have hof : (ns.map fun n => Value.primitive (.int32 n)).map int32Of = ns := by
      rw [List.map_map]
      exact List.map_id ns
    rw [Metadata.valArray, hval]
    exact (collectPrimitives_int32 hall).trans (congrArg _ hof.symm)

end Typed

end Getters

section Accessors
variable {gguf : GGUFLoader} {mem : Bytes} {stored : Bytes → Option Value}
variable (hstores : gguf.Stores mem stored) (htyped : SpecTyped stored)
include hstores htyped

theorem info_eq_ok (fmt : FloatFormat) :
    gguf.info fmt mem = .ok (storedInfo stored) ↔ AllReadable infoKeys stored := by
  have hmem : ∀ kt ∈ infoKeys, kt ∈ specification := fun kt hkt => by
    simp only [specification, List.mem_append, hkt, true_or]
  simp only [AllReadable, infoKeys, List.forall_mem_cons] at hmem ⊢
  obtain ⟨harchitecture, hversion, hname, hfileType, -⟩ := hmem
  replace harchitecture := valString_eq_ok hstores htyped fmt harchitecture
  replace hversion := valString_eq_ok hstores htyped fmt hversion
  replace hname := valString_eq_ok hstores htyped fmt hname
  constructor
  · intro h
    obtain ⟨architecture, ha, h⟩ := Outcome.bind_eq_ok.mp h
    obtain ⟨version, hv, h⟩ := Outcome.bind_eq_ok.mp h
    obtain ⟨name, hn, h⟩ := Outcome.bind_eq_ok.mp h
    obtain ⟨fileType, hf, h⟩ := Outcome.bind_eq_ok.mp h
    have hfields := Except.ok.inj h
    simp only [storedInfo, ModelInfo.mk.injEq] at hfields
    obtain ⟨rfl, rfl, rfl, -⟩ := hfields
    exact ⟨harchitecture.mp ha, hversion.mp hv, hname.mp hn,
      ((value_uint32 hstores htyped hfileType).mp hf).1, by simp⟩
  · rintro ⟨ha, hv, hn, hf, -⟩
    rw [GGUFLoader.info, harchitecture.mpr ha, Outcome.ok_bind, hversion.mpr hv, Outcome.ok_bind,
      hname.mpr hn, Outcome.ok_bind, (value_uint32 hstores htyped hfileType).mpr ⟨hf, rfl⟩,
      Outcome.ok_bind]
    rfl

theorem modelConfig_eq_ok :
    gguf.modelConfig = .ok (storedConfig stored) ↔ AllReadable configKeys stored := by
  have hmem : ∀ kt ∈ configKeys, kt ∈ specification := fun kt hkt => by
    simp only [specification, List.mem_append, hkt, or_true, true_or]
  simp only [AllReadable, configKeys, List.forall_mem_cons] at hmem ⊢
  obtain ⟨hheads, hkv, hrope, hembedding, hblocks, heps, hcontext, -⟩ := hmem
  constructor
  · intro h
    obtain ⟨nheads, hh, h⟩ := Outcome.bind_eq_ok.mp h
    obtain ⟨nkv, hn, h⟩ := Outcome.bind_eq_ok.mp h
    obtain ⟨ropeFreqBase, hr, h⟩ := Outcome.bind_eq_ok.mp h
    obtain ⟨embeddingDim, hd, h⟩ := Outcome.bind_eq_ok.mp h
    obtain ⟨nBlocks, hb, h⟩ := Outcome.bind_eq_ok.mp h
    obtain ⟨rmsEps, he, h⟩ := Outcome.bind_eq_ok.mp h
    obtain ⟨maxContextLen, hc, -⟩ := Outcome.bind_eq_ok.mp h
    exact ⟨⟨_, (value_count hstores htyped hheads).mp hh⟩,
      ⟨_, (value_count hstores htyped hkv).mp hn⟩,
      ((value_float hstores htyped hrope).mp hr).1,
      ⟨_, (value_count hstores htyped hembedding).mp hd⟩,
      ⟨_, (value_count hstores htyped hblocks).mp hb⟩,
      ((value_float hstores htyped heps).mp he).1,
      ⟨_, (value_count hstores htyped hcontext).mp hc⟩, by simp⟩
  · rintro ⟨⟨nheads, hh⟩, ⟨nkv, hn⟩, hr, ⟨embeddingDim, hd⟩, ⟨nBlocks, hb⟩, he,
      ⟨maxContextLen, hc⟩, -⟩
    rw [GGUFLoader.modelConfig, (value_count hstores htyped hheads).mpr hh, Outcome.ok_bind,
      (value_count hstores htyped hkv).mpr hn, Outcome.ok_bind,
      (value_float hstores htyped hrope).mpr ⟨hr, rfl⟩, Outcome.ok_bind,
      (value_count hstores htyped hembedding).mpr hd, Outcome.ok_bind,
      (value_count hstores htyped hblocks).mpr hb, Outcome.ok_bind,
      (value_float hstores htyped heps).mpr ⟨he, rfl⟩, Outcome.ok_bind,
      (value_count hstores htyped hcontext).mpr hc, Outcome.ok_bind]
    rw [storedConfig, hh, hn, hd, hb, hc]
    rfl

theorem tokenizerInfo_eq_ok (fmt : FloatFormat) :
    gguf.tokenizerInfo fmt mem = .ok (storedTokenizerInfo stored) ↔
      AllReadable tokenizerKeys stored := by
  have hmem : ∀ kt ∈ tokenizerKeys, kt ∈ specification := fun kt hkt => by
    simp only [specification, List.mem_append, hkt, or_true]
  simp only [AllReadable, tokenizerKeys, List.forall_mem_cons] at hmem ⊢
  obtain ⟨hmodel, hpre, htokens, hmerges, htokenType, hbos, heos, hpadding, haddBos, htemplate, -⟩ :=
    hmem
  replace hmodel := valString_eq_ok hstores htyped fmt hmodel
  replace hpre := valString_eq_ok hstores htyped fmt hpre
  replace htemplate := valString_eq_ok hstores htyped fmt htemplate
  rw [GGUFLoader.tokenizerInfo, valStrings_eq hstores htyped fmt htokens,
    valStrings_eq hstores htyped fmt hmerges, valArray_int32 hstores htyped htokenType]
  constructor
  · intro h
    obtain ⟨model, hm, h⟩ := Outcome.bind_eq_ok.mp h
    obtain ⟨pre, hp, h⟩ := Outcome.bind_eq_ok.mp h
    simp only [Outcome.ok_bind] at h
    obtain ⟨bosTokenId, hb, h⟩ := Outcome.bind_eq_ok.mp h
    obtain ⟨eosTokenId, he, h⟩ := Outcome.bind_eq_ok.mp h
    obtain ⟨paddingTokenId, hd, h⟩ := Outcome.bind_eq_ok.mp h
    obtain ⟨addBosToken, ha, h⟩ := Outcome.bind_eq_ok.mp h
    obtain ⟨templateStr, ht, h⟩ := Outcome.bind_eq_ok.mp h
    have hfields := Except.ok.inj h
    simp only [storedTokenizerInfo, TokenizerInfo.mk.injEq, Tokenizer.TokenizerInfo.mk.injEq]
      at hfields
    obtain ⟨⟨rfl, -⟩, rfl, -, -, rfl⟩ := hfields
    exact ⟨hmodel.mp hm, hpre.mp hp, trivial, trivial, trivial,
      ((value_uint32 hstores htyped hbos).mp hb).1, ((value_uint32 hstores htyped heos).mp he).1,
      ((value_uint32 hstores htyped hpadding).mp hd).1,
      ((value_bool hstores htyped haddBos).mp ha).1, htemplate.mp ht, by simp⟩
  · rintro ⟨hm, hp, -, -, -, hb, he, hd, ha, ht, -⟩
    rw [hmodel.mpr hm, Outcome.ok_bind, hpre.mpr hp]
    simp only [Outcome.ok_bind]
    rw [(value_uint32 hstores htyped hbos).mpr ⟨hb, rfl⟩, Outcome.ok_bind,
      (value_uint32 hstores htyped heos).mpr ⟨he, rfl⟩, Outcome.ok_bind,
      (value_uint32 hstores htyped hpadding).mpr ⟨hd, rfl⟩, Outcome.ok_bind,
      (value_bool hstores htyped haddBos).mpr ⟨ha, rfl⟩, Outcome.ok_bind, htemplate.mpr ht]
    rfl

end Accessors

/-- A tokenizer is built if and only if there is a token type for every token. -/
theorem forModel_ok_iff (info : Tokenizer.TokenizerInfo) :
    (∃ tokenizer, Tokenizer.TokenizerImpl.forModel info = .ok tokenizer) ↔
      info.tokens.length ≤ info.tokenType.length := by
  constructor
  · rintro ⟨tokenizer, h⟩
    obtain ⟨trie, htrie, -⟩ := Outcome.bind_eq_ok.mp h
    exact Tokenizer.length_le_of_buildLoop htrie
  · intro h
    obtain ⟨trie, htrie, -⟩ := Tokenizer.buildFromTokens_knows h
    rw [Tokenizer.TokenizerImpl.forModel, htrie]
    exact ⟨_, rfl⟩

/-- The accessors return what is stored, and a tokenizer can be built from it, if and only if all
keys but those of the arrays are present, no count is stored in 64 bits, and every token has a
type. -/
theorem accessible_iff {gguf : GGUFLoader} {mem : Bytes} {stored : Bytes → Option Value}
    (hstores : gguf.Stores mem stored) (htyped : SpecTyped stored) (fmt : FloatFormat) :
    gguf.Accessible fmt mem stored ↔ AllReadable specification stored ∧
      (stringsOf (stored (literal "tokenizer.ggml.tokens"))).length ≤
        (int32sOf (stored (literal "tokenizer.ggml.token_type"))).length := by
  have hlengths := forModel_ok_iff (storedTokenizerInfo stored).toTokenizerInfo
  simp only [storedTokenizerInfo, List.length_map] at hlengths
  simp only [AllReadable, specification, List.forall_mem_append]
  constructor
  · rintro ⟨hinfo, hconfig, htokenizer, htypes⟩
    exact ⟨⟨⟨(info_eq_ok hstores htyped fmt).mp hinfo,
      (modelConfig_eq_ok hstores htyped).mp hconfig⟩,
      (tokenizerInfo_eq_ok hstores htyped fmt).mp htokenizer⟩,
      hlengths.mp (htypes _ htokenizer)⟩
  · rintro ⟨⟨⟨hinfo, hconfig⟩, htokenizer⟩, hle⟩
    have hok := (tokenizerInfo_eq_ok hstores htyped fmt).mpr htokenizer
    refine ⟨(info_eq_ok hstores htyped fmt).mpr hinfo,
      (modelConfig_eq_ok hstores htyped).mpr hconfig, hok, fun t ht => ?_⟩
    cases hok.symm.trans ht
    exact hlengths.mpr hle

def KeyType.sample : KeyType → MetadataDType × Value
  | string => (.string, .string (literal "qwen2"))
  | uint32 | count => (.uint32, .primitive (.uint32 1))
  | float32 => (.float32, .primitive (.float32 0))
  | bool => (.bool, .primitive (.bool true))
  | strings => (.array, .array .string [.string (literal "h"), .string (literal "hi")])
  | int32s => (.array, .array .int32 [.primitive (.int32 1), .primitive (.int32 3)])

def sampleBytes : Bytes :=
  KeyType.string.sample.2.encode ++ KeyType.strings.sample.2.encode ++ KeyType.int32s.sample.2.encode

def KeyType.samplePos : KeyType → ℕ
  | strings => 13
  | int32s => 44
  | string | uint32 | count | float32 | bool => 0

def sampleStored (key : Bytes) : Option Value :=
  (specification.find? fun kt => kt.1 = key).map fun kt => kt.2.sample.2

def sampleLoader : GGUFLoader where
  metadata key := (specification.find? fun kt => kt.1 = key).map fun kt =>
    ⟨⟨0, 0⟩, kt.2.sample.1, kt.2.sample.2.parsedAt kt.2.samplePos⟩
  tensors _ := none
  cur := 24
  tensorBasePtr := 32

theorem sampleStored_eq {kt : Bytes × KeyType} (h : kt ∈ specification) :
    sampleStored kt.1 = some kt.2.sample.2 := by
  have hdistinct : (specification.map Prod.fst).Nodup := by
    decide +kernel
  rw [sampleStored, Option.map_eq_some_iff]
  cases hfind : specification.find? fun x => x.1 = kt.1 with
  | none =>
    have hno := List.find?_eq_none.mp hfind kt h
    simp at hno
  | some x =>
    have hkey : x.1 = kt.1 := by
      simpa using List.find?_some hfind
    have hsame := List.inj_on_of_nodup_map hdistinct (List.mem_of_find?_eq_some hfind) h hkey
    exact ⟨x, rfl, by rw [hsame]⟩

theorem sampleLoader_stores : sampleLoader.Stores sampleBytes sampleStored := by
  intro key
  rw [sampleLoader, sampleStored, Option.map_map, Option.map_map]
  congr 1
  funext kt
  cases hkt : kt.2 <;> simp only [Function.comp_apply, hkt] <;> rfl

theorem sampleStored_typed : SpecTyped sampleStored := by
  intro kt hkt v hv
  rw [sampleStored_eq hkt] at hv
  cases hv
  cases kt.2 with
  | string => exact ⟨literal "qwen2", rfl⟩
  | uint32 => exact ⟨1, rfl⟩
  | count => exact .inl ⟨1, rfl⟩
  | float32 => exact ⟨0, rfl⟩
  | bool => exact ⟨true, rfl⟩
  | strings => exact ⟨[literal "h", literal "hi"], rfl⟩
  | int32s => exact ⟨[1, 3], rfl⟩

theorem accessible_iff_sample :
    sampleLoader.Accessible ⟨fun _ => [], fun _ => []⟩ sampleBytes sampleStored := by
  refine (accessible_iff sampleLoader_stores sampleStored_typed _).mpr ⟨fun kt hkt => ?_, ?_⟩
  · rw [sampleStored_eq hkt]
    cases kt.2 with
    | count => exact ⟨1, rfl⟩
    | strings | int32s => trivial
    | string | uint32 | float32 | bool => exact Option.some_ne_none _
  · decide +kernel

def emptyLoader : GGUFLoader := ⟨fun _ => none, fun _ => none, 24, 32⟩

theorem emptyLoader_throws : emptyLoader.Stores [] (fun _ => none) ∧ SpecTyped (fun _ => none) ∧
    ∀ fmt, emptyLoader.info fmt [] = .error (.thrown "std::bad_variant_access") ∧
      emptyLoader.modelConfig = .error (.thrown "std::bad_variant_access") ∧
      emptyLoader.tokenizerInfo fmt [] = .error (.thrown "std::bad_variant_access") ∧
      ¬ emptyLoader.Accessible fmt [] fun _ => none := by
  have hinfo : ∀ fmt, emptyLoader.info fmt [] = .error (.thrown "std::bad_variant_access") :=
    fun fmt => rfl
  refine ⟨fun key => rfl, fun kt _ v hv => ?_, fun fmt => ⟨hinfo fmt, rfl, rfl, fun h => ?_⟩⟩
  · cases hv
  · cases (hinfo fmt).symm.trans h.info

end ZInferLM.Gguf
