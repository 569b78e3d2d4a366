import ZInferLM.Gguf.Metadata
import ZInferLM.Library.Lookup

/-! # Loading a GGUF file

Behind the header stand the metadata entries and behind those the tensor infos. One cursor runs
over both; every entry is read and then skipped by the size it computes for itself. -/

namespace ZInferLM.Gguf
open Library Library.Machine
open Library.Utf8 (Bytes)

/-- A tensor info; all but the name and the dimensions stay pointers into the file. -/
structure TensorInfo where
  name : MetadataStringValue
  nDimensions : ℤ
  dimensions : List UInt64
  dtype : ℤ
  offset : ℤ
  deriving DecidableEq

namespace TensorInfo

def readDimensions (mem : Bytes) : ℕ → ℤ → Outcome (List UInt64)
  | 0, _ => .ok []
  | count + 1, cur => do
    let e ← readNat mem cur 8
    let rest ← readDimensions mem count (cur + 8)
    .ok (UInt64.ofNat e :: rest)

/-- How often a loop `for (int i = 0; i < n; i++)` with an unsigned `n` runs until `i` overflows. -/
def turns (n : ℕ) : ℕ := min n (2 ^ 31)

/-- The loop ends without an overflow of its counter. -/
def checkTurns (n : ℕ) : Outcome Unit :=
  if n < 2 ^ 31 then .ok () else .error (.undefined "int overflow")

def fromPtr (mem : Bytes) (p : ℤ) : Outcome TensorInfo := do
  let name ← MetadataStringValue.fromPtr mem p
  let nDim := p + name.size
  let n ← readNat mem nDim 4
  let dimensions ← readDimensions mem (turns n) (nDim + 4)
  let _ ← checkTurns n
  let type := nDim + 4 + 8 * n
  .ok ⟨name, nDim, dimensions, type, type + 4⟩

def size (t : TensorInfo) : ℤ := toInt (t.name.size + 4 + 8 * t.dimensions.length + 4 + 8)

end TensorInfo

abbrev MetadataMap := Bytes → Option Metadata
abbrev TensorMap := Bytes → Option TensorInfo

def ggufMetadataLoop (mem : Bytes) (fuel : ℕ) : ℕ → ℤ → MetadataMap → Outcome (MetadataMap × ℤ)
  | 0, p, metadata => .ok (metadata, p)
  | count + 1, p, metadata => do
    let met ← Metadata.fromPtr mem fuel p
    let size ← met.size
    let key ← met.keyString mem
    ggufMetadataLoop mem fuel count (p + size) (insertNew metadata key met)

def ggufMetadata (mem : Bytes) (fuel : ℕ) (p kvCount : ℤ) : Outcome (MetadataMap × ℤ) :=
  ggufMetadataLoop mem fuel kvCount.toNat p fun _ => none

def ggufTensorsLoop (mem : Bytes) : ℕ → ℤ → TensorMap → Outcome (TensorMap × ℤ)
  | 0, p, tensors => .ok (tensors, p)
  | count + 1, p, tensors => do
    let t ← TensorInfo.fromPtr mem p
    let name ← t.name.toString mem
    ggufTensorsLoop mem count (p + t.size) (insertNew tensors name t)

def ggufTensorsInfo (mem : Bytes) (p : ℤ) (tensorsCount : ℕ) : Outcome (TensorMap × ℤ) := do
  let r ← ggufTensorsLoop mem (TensorInfo.turns tensorsCount) p fun _ => none
  let _ ← TensorInfo.checkTurns tensorsCount
  .ok r

/-- `sizeof(gguf_header_t)`: magic, version, `tensor_count` at `8`, `metadata_kv_count` at `16`. -/
def headerSize : ℕ := 24

structure GGUFLoader where
  metadata : MetadataMap
  tensors : TensorMap
  /-- The cursor behind the tensor infos. -/
  cur : ℤ
  tensorBasePtr : ℕ

/-- The part of `load_gguf_file` that reads the header, the metadata and the tensor infos. -/
def readEntries (mem : Bytes) (fuel : ℕ) : Outcome (MetadataMap × TensorMap × ℤ) := do
  let kvCount ← readNat mem 16 8
  let metadata ← ggufMetadata mem fuel headerSize (toInt kvCount)
  let tensorCount ← readNat mem 8 8
  let tensors ← ggufTensorsInfo mem metadata.2 tensorCount
  .ok (metadata.1, tensors.1, tensors.2)

/-- `value<uint8_t>()` of an entry or of the default one: `0` unless primitive, and the wrong
alternative of the variant throws. -/
def valueUInt8 : Option Metadata → Outcome ℕ
  | none => .ok 0
  | some met =>
    match met.val with
    | .primitive (.uint8 v) _ => .ok v.toNat
    | .primitive _ _ => .error (.thrown "std::bad_variant_access")
    | .string _ | .array _ _ _ => .ok 0

def alignmentKey : Bytes := Utf8.encode "general.alignment".toList

def alignAddress (metadata : MetadataMap) (p : ℕ) : Outcome ℕ := do
  let stored ← valueUInt8 (metadata alignmentKey)
  let alignment := if stored = 0 then 32 else stored
  .ok ((p + (alignment - p % alignment) % alignment) % 2 ^ 64)

/-- `base` is the address of the mapping, `none` when `mmap` fails. -/
def loadGgufFile (base : Option ℕ) (mem : Bytes) (fuel : ℕ) : Outcome (Option GGUFLoader) :=
  match base with
  | none => .ok none
  | some base => do
    let entries ← readEntries mem fuel
    let address ← alignAddress entries.1 ((base + entries.2.2).toNat % 2 ^ 64)
    .ok (some ⟨entries.1, entries.2.1, entries.2.2, address⟩)

end ZInferLM.Gguf
