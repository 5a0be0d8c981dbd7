import BlindToken.Bytes.Wire

namespace BlindToken.Wire

-- What is written for a value, how many bytes are announced for it, and which value stands at the
-- front of an input, with what follows it. A format is put together from those of its fields, one
-- after another, in the order in which a record lists them.
structure Format (α : Type) where
  size : α → Nat
  write? : α → Option Bytes
  read? : Bytes → Option (α × Bytes)

namespace Format

variable {α β : Type}

def uint16 : Format UInt16 where
  size _ := 2
  write? value := some (writeUInt16 value)
  read? := readUInt16?

def byte : Format UInt8 where
  size _ := 1
  write? value := some [value]
  read? := readByte?

def block (size : Nat) : Format (Block size) where
  size _ := size
  write? block := some block.bytes
  read? := readBlock? size

-- A byte string that is too long for its count is not written.
def counted (width : Nat) : Format (Counted width) where
  size value := width + value.bytes.length
  write? value :=
    if value.bytes.length < Bytes.count width then
      some (Bytes.ofNat width value.bytes.length ++ value.bytes)
    else none
  read? := readCounted? width

-- One field, then the other.
def pair (first : Format α) (second : Format β) : Format (α × β) where
  size fields := first.size fields.1 + second.size fields.2
  write? fields := do
    let front ← first.write? fields.1
    let back ← second.write? fields.2
    return front ++ back
  read? input := do
    let (left, input) ← first.read? input
    let (right, input) ← second.read? input
    return ((left, right), input)

-- A record stands on the wire as its fields do.
def record (format : Format β) (fields : α → β) (ofFields : β → α) : Format α where
  size value := format.size (fields value)
  write? value := format.write? (fields value)
  read? input := do
    let (read, input) ← format.read? input
    return (ofFields read, input)

end Format

end BlindToken.Wire
