/-!
# Tags of the wire format

Every item on the wire starts with one byte that tells what it is.
-/

namespace EcmaTree

/-- What an item on the wire is. -/
inductive Tag where
  | null
  | true
  | false
  | int32
  | int64
  | float64
  | char
  | string
  | objectStart
  | objectEnd
  | arrayStart
  | arrayEnd
  deriving DecidableEq, Repr

namespace Tag

def all : List Tag :=
  [.null, .true, .false, .int32, .int64, .float64, .char, .string, .objectStart, .objectEnd,
    .arrayStart, .arrayEnd]

/-- The byte of a tag: `Z T F l L D C S`, and the braces and brackets themselves. -/
def byte : Tag → UInt8
  | .null => 0x5A
  | .true => 0x54
  | .false => 0x46
  | .int32 => 0x6C
  | .int64 => 0x4C
  | .float64 => 0x44
  | .char => 0x43
  | .string => 0x53
  | .objectStart => 0x7B
  | .objectEnd => 0x7D
  | .arrayStart => 0x5B
  | .arrayEnd => 0x5D

def ofByte? (b : UInt8) : Option Tag :=
  all.find? (·.byte == b)

def name : Tag → String
  | .null => "Null"
  | .true => "True"
  | .false => "False"
  | .int32 => "Int32"
  | .int64 => "Int64"
  | .float64 => "Float64"
  | .char => "Char"
  | .string => "String"
  | .objectStart => "ObjectStart"
  | .objectEnd => "ObjectEnd"
  | .arrayStart => "ArrayStart"
  | .arrayEnd => "ArrayEnd"

end Tag

end EcmaTree
