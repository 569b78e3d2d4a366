import ZInferLM.Library.Machine
import ZInferLM.Library.Utf8

/-! # Metadata values of a GGUF file

A value is read at an address of the mapped file. Strings stay views of the file, and a value
computes on its own, as an `int`, how many bytes it takes. -/

namespace ZInferLM.Gguf
open Library Library.Machine
open Library.Utf8 (Bytes)

inductive MetadataDType where
  | uint8 | int8 | uint16 | int16 | uint32 | int32 | float32 | bool | string | array
  | uint64 | int64 | float64
  /-- A tag the format does not name. -/
  | unknown (raw : UInt32) (h : 12 < raw.toNat)
  deriving DecidableEq

namespace MetadataDType

def code : MetadataDType → UInt32
  | uint8 => 0 | int8 => 1 | uint16 => 2 | int16 => 3 | uint32 => 4 | int32 => 5 | float32 => 6
  | bool => 7 | string => 8 | array => 9 | uint64 => 10 | int64 => 11 | float64 => 12
  | unknown raw _ => raw

def ofCode (raw : UInt32) : MetadataDType :=
  match h : raw.toNat with
  | 0 => uint8 | 1 => int8 | 2 => uint16 | 3 => int16 | 4 => uint32 | 5 => int32 | 6 => float32
  | 7 => bool | 8 => string | 9 => array | 10 => uint64 | 11 => int64 | 12 => float64
  | n + 13 => unknown raw (by omega)

theorem ofCode_code (d : MetadataDType) : ofCode d.code = d := by
  cases d with
  | unknown raw h =>
    rw [code, ofCode]
    split <;> first | omega | rfl
  | _ => rfl

def read (mem : Bytes) (p : ℤ) : Outcome MetadataDType := do
  let n ← readNat mem p 4
  .ok (ofCode (UInt32.ofNat n))

end MetadataDType

/-- The variant of the primitive types; floats are carried as bit patterns. -/
inductive PrimitiveValue where
  | uint8 (v : UInt8)
  | int8 (v : Int8)
  | uint16 (v : UInt16)
  | int16 (v : Int16)
  | uint32 (v : UInt32)
  | int32 (v : Int32)
  | float32 (bits : UInt32)
  | bool (b : Bool)
  | uint64 (v : UInt64)
  | int64 (v : Int64)
  | float64 (bits : UInt64)
  deriving DecidableEq

/-- How many bytes `from_ptr` reads for a type; a type without a case reads none. -/
def MetadataDType.width : MetadataDType → ℕ
  | uint8 | int8 | bool => 1
  | uint16 | int16 => 2
  | uint32 | int32 | float32 => 4
  | uint64 | int64 | float64 => 8
  | string | array | unknown _ _ => 0

/-- The value of a bit pattern. A `bool` is `0` or `1`; without a case the variant stays at its
first alternative. -/
def PrimitiveValue.ofBits (dtype : MetadataDType) (n : ℕ) : Outcome PrimitiveValue :=
  match dtype with
  | .uint8 => .ok (.uint8 (.ofNat n))
  | .int8 => .ok (.int8 (UInt8.ofNat n).toInt8)
  | .uint16 => .ok (.uint16 (.ofNat n))
  | .int16 => .ok (.int16 (UInt16.ofNat n).toInt16)
  | .uint32 => .ok (.uint32 (.ofNat n))
  | .int32 => .ok (.int32 (UInt32.ofNat n).toInt32)
  | .float32 => .ok (.float32 (.ofNat n))
  | .bool => if n ≤ 1 then .ok (.bool (n == 1)) else .error (.undefined "bool")
  | .uint64 => .ok (.uint64 (.ofNat n))
  | .int64 => .ok (.int64 (UInt64.ofNat n).toInt64)
  | .float64 => .ok (.float64 (.ofNat n))
  | .string | .array | .unknown _ _ => .ok (.uint8 0)

/-- The length field of a string and its value; the characters follow the field. -/
structure MetadataStringValue where
  lenPtr : ℤ
  len : ℕ
  deriving DecidableEq

inductive MetadataValue where
  | primitive (data : PrimitiveValue) (size : ℤ)
  | string (s : MetadataStringValue)
  | array (valType : MetadataDType) (len : ℕ) (elements : List MetadataValue)

namespace MetadataStringValue

def fromPtr (mem : Bytes) (p : ℤ) : Outcome MetadataStringValue := do
  let len ← readNat mem p 8
  .ok ⟨p, len⟩

/-- A `size_t` sum, converted to `int`. -/
def size (s : MetadataStringValue) : ℤ := toInt (8 + s.len)

def toString (mem : Bytes) (s : MetadataStringValue) : Outcome Bytes :=
  Machine.read mem (s.lenPtr + 8) s.len

end MetadataStringValue

mutual

def MetadataValue.size : MetadataValue → Outcome ℤ
  | .primitive _ size => .ok size
  | .string s => .ok s.size
  | .array _ _ elements => do
    let valSize ← elementsSize 0 elements
    .ok (toInt (4 + 8 + valSize))

def elementsSize (valSize : ℤ) : List MetadataValue → Outcome ℤ
  | [] => .ok valSize
  | e :: es => do
    let size ← e.size
    let valSize ← addInt valSize size
    elementsSize valSize es

end

def MetadataPrimitiveValue.fromPtr (mem : Bytes) (p : ℤ) (dtype : MetadataDType) :
    Outcome MetadataValue := do
  let n ← readNat mem p dtype.width
  let val ← PrimitiveValue.ofBits dtype n
  .ok (.primitive val dtype.width)

/-- The element loop of an array: `count` elements, each behind the one before. -/
def readElements (readOne : ℤ → Outcome MetadataValue) : ℕ → ℤ → Outcome (List MetadataValue)
  | 0, _ => .ok []
  | count + 1, cur => do
    let ele ← readOne cur
    let size ← ele.size
    let rest ← readElements readOne count (cur + size)
    .ok (ele :: rest)

/-- The fuel bounds how deep arrays are nested. -/
def MetadataValue.fromPtr (mem : Bytes) : ℕ → ℤ → MetadataDType → Outcome MetadataValue
  | 0, _, _ => .error .outOfFuel
  | fuel + 1, p, dtype =>
    match dtype with
    | .string => do
      let s ← MetadataStringValue.fromPtr mem p
      .ok (.string s)
    | .array => do
      let valType ← MetadataDType.read mem p
      let len ← readNat mem (p + 4) 8
      let elements ← readElements (fun cur => fromPtr mem fuel cur valType) len (p + 12)
      .ok (.array valType len elements)
    | dtype => MetadataPrimitiveValue.fromPtr mem p dtype

structure Metadata where
  key : MetadataStringValue
  valType : MetadataDType
  val : MetadataValue

namespace Metadata

def fromPtr (mem : Bytes) (fuel : ℕ) (p : ℤ) : Outcome Metadata := do
  let key ← MetadataStringValue.fromPtr mem p
  let valType ← MetadataDType.read mem (p + key.size)
  let val ← MetadataValue.fromPtr mem fuel (p + key.size + 4) valType
  .ok ⟨key, valType, val⟩

def size (m : Metadata) : Outcome ℤ := do
  let valSize ← m.val.size
  .ok (toInt (m.key.size + 4 + valSize))

def keyString (mem : Bytes) (m : Metadata) : Outcome Bytes := m.key.toString mem

end Metadata

end ZInferLM.Gguf
