import BlindToken.Bytes.Basic

namespace BlindToken.Wire

-- A byte string whose length fits in a count of `width` bytes.
abbrev Counted (width : Nat) := Bounded (Bytes.count width - 1)

-- A reader takes its piece from the front of the input and returns what is left; a writer gives the
-- bytes of one piece.
def take? (count : Nat) (input : Bytes) : Option (Bytes × Bytes) :=
  if count ≤ input.length then some (input.take count, input.drop count) else none

theorem take?_append (taken rest : Bytes) :
    take? taken.length (taken ++ rest) = some (taken, rest) := by
  simp [take?]

theorem eq_append_of_take? {count : Nat} {input taken rest : Bytes}
    (h : take? count input = some (taken, rest)) : input = taken ++ rest ∧ taken.length = count := by
  unfold take? at h
  split at h
  · cases h
    exact ⟨(List.take_append_drop count input).symm, by simp; omega⟩
  · cases h

def readByte? : Bytes → Option (UInt8 × Bytes)
  | [] => none
  | byte :: rest => some (byte, rest)

def readUInt16? (input : Bytes) : Option (UInt16 × Bytes) := do
  let (bytes, rest) ← take? 2 input
  return (UInt16.ofNat bytes.toNat, rest)

def writeUInt16 (value : UInt16) : Bytes := Bytes.ofNat 2 value.toNat

def readBlock? (size : Nat) (input : Bytes) : Option (Block size × Bytes) := do
  let (bytes, rest) ← take? size input
  return (← Block.ofBytes? size bytes, rest)

-- A big-endian count of `width` bytes, then that many bytes.
def readCounted? (width : Nat) (input : Bytes) : Option (Counted width × Bytes) := do
  let (count, rest) ← take? width input
  let (bytes, rest) ← take? count.toNat rest
  return (← Bounded.ofBytes? _ bytes, rest)

def writeCounted {width : Nat} (value : Counted width) : Bytes :=
  Bytes.ofNat width value.bytes.length ++ value.bytes

end BlindToken.Wire
