import BlindToken.Bytes.Basic

namespace BlindToken

-- A tab is the only control character that may stand in a value.
def isFieldByte (byte : UInt8) : Bool := 0x20 ≤ byte && byte ≠ 0x7f || byte = 0x09

structure HeaderValue where
  bytes : Bytes
  all_field : bytes.all isFieldByte

namespace HeaderValue

def ofBytes? (bytes : Bytes) : Option HeaderValue :=
  if h : bytes.all isFieldByte then some ⟨bytes, h⟩ else none

def ofString? (text : String) : Option HeaderValue := ofBytes? (utf8 text)

-- The characters of a value that is plain ASCII.
def ascii? (value : HeaderValue) : Option (List Char) :=
  if value.bytes.all (· < 0x80) then some (value.bytes.map fun byte => Char.ofNat byte.toNat)
  else none

end HeaderValue

-- A field with its name in lower case.
structure HeaderField where
  name : String
  value : HeaderValue

end BlindToken
