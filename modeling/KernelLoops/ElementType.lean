set_option autoImplicit false

/-! # Element types

The scalar types a tensor can hold. Narrow floating-point and sub-byte types are known by name only:
they have no size in bytes. -/

namespace KernelLoops

/-- The type of the elements of a tensor. -/
inductive ElementType
  | invalid
  | bool
  | int8
  | int16
  | int32
  | int64
  | uint8
  | uint16
  | uint32
  | uint64
  | float16
  | float32
  | float64
  | bfloat16
  | complex64
  | complex128
  | f8E5M2
  | f8E4M3FN
  | f8E4M3B11FNUZ
  | f8E5M2FNUZ
  | f8E4M3FNUZ
  | s4
  | u4
  | token
  | s2
  | u2
  | f8E4M3
  | f8E3M4
  | f8E8M0FNU
  | f4E2M1FN
deriving DecidableEq, Repr, Inhabited

namespace ElementType

/-- Every element type, in the order of their codes. -/
def all : List ElementType :=
  [invalid, bool, int8, int16, int32, int64, uint8, uint16, uint32, uint64, float16, float32, float64,
    bfloat16, complex64, complex128, f8E5M2, f8E4M3FN, f8E4M3B11FNUZ, f8E5M2FNUZ, f8E4M3FNUZ, s4, u4,
    token, s2, u2, f8E4M3, f8E3M4, f8E8M0FNU, f4E2M1FN]

/-- The number of an element type. -/
def code (t : ElementType) : Nat := all.idxOf t

/-- The name of an element type. -/
def name : ElementType → String
  | invalid => "InvalidDType"
  | bool => "Bool"
  | int8 => "Int8"
  | int16 => "Int16"
  | int32 => "Int32"
  | int64 => "Int64"
  | uint8 => "Uint8"
  | uint16 => "Uint16"
  | uint32 => "Uint32"
  | uint64 => "Uint64"
  | float16 => "Float16"
  | float32 => "Float32"
  | float64 => "Float64"
  | bfloat16 => "BFloat16"
  | complex64 => "Complex64"
  | complex128 => "Complex128"
  | f8E5M2 => "F8E5M2"
  | f8E4M3FN => "F8E4M3FN"
  | f8E4M3B11FNUZ => "F8E4M3B11FNUZ"
  | f8E5M2FNUZ => "F8E5M2FNUZ"
  | f8E4M3FNUZ => "F8E4M3FNUZ"
  | s4 => "S4"
  | u4 => "U4"
  | token => "TOKEN"
  | s2 => "S2"
  | u2 => "U2"
  | f8E4M3 => "F8E4M3"
  | f8E3M4 => "F8E3M4"
  | f8E8M0FNU => "F8E8M0FNU"
  | f4E2M1FN => "F4E2M1FN"

/-- The element type of a name. -/
def ofName? (s : String) : Option ElementType := all.find? (·.name == s)

/-- The size of one element in bytes, for the types that have one. The table is taken as given: it
    is that of the library that defines the element types, and no part of this program computes
    it. -/
def size? : ElementType → Option Int64
  | bool | int8 | uint8 => some 1
  | int16 | uint16 | float16 | bfloat16 => some 2
  | int32 | uint32 | float32 => some 4
  | int64 | uint64 | float64 | complex64 => some 8
  | complex128 => some 16
  | _ => none

end ElementType

end KernelLoops
