import BlindToken.Bytes.Wire

namespace BlindToken.Der

-- A tag, a length and that many bytes of content. A reader takes only the one form that a writer
-- produces: lengths in their shortest form, numbers without superfluous bytes, nothing after the
-- last element of a structure.
structure Element where
  tag : UInt8
  content : Bytes
deriving DecidableEq

-- No element and no document is longer.
def lengthLimit : Nat := 0x0fffffff

def writeLength (length : Nat) : Bytes :=
  if length < 0x80 then [UInt8.ofNat length]
  else UInt8.ofNat (0x80 + Bytes.widthOf length) :: Bytes.ofNat (Bytes.widthOf length) length

def readLength? : Bytes → Option (Nat × Bytes)
  | [] => none
  | first :: rest => do
    guard (first ≤ 0x84)
    let (octets, rest) ← Wire.take? (first.toNat - 0x80) rest
    let length := if first < 0x80 then first.toNat else octets.toNat
    guard (length ≤ lengthLimit ∧ writeLength length = first :: octets)
    return (length, rest)

-- Tags of the universal types in use.
def universalTags : List UInt8 :=
  [0x01, 0x02, 0x03, 0x04, 0x05, 0x06, 0x09, 0x0a, 0x0c, 0x12, 0x13, 0x14, 0x15, 0x16, 0x17, 0x18,
    0x1a, 0x1e, 0x30, 0x31]

-- Beside the universal types, every tag of another class whose number stands in the tag itself.
def isKnownTag (tag : UInt8) : Bool :=
  tag ∈ universalTags || 0x40 ≤ tag && tag % 0x20 ≠ 0x1f

namespace Element

def encode (element : Element) : Bytes :=
  element.tag :: writeLength element.content.length ++ element.content

-- The element at the front of the input and what follows it.
def read? : Bytes → Option (Element × Bytes)
  | [] => none
  | tag :: rest => do
    guard (isKnownTag tag)
    let (length, rest) ← readLength? rest
    let (content, rest) ← Wire.take? length rest
    return (⟨tag, content⟩, rest)

end Element

-- The content of the element at the front, which has to have the tag, and what follows it.
def expect? (tag : UInt8) (input : Bytes) : Option (Bytes × Bytes) := do
  let (element, rest) ← Element.read? input
  guard (element.tag = tag)
  return (element.content, rest)

-- The content of the one element that the input consists of.
def only? (tag : UInt8) (input : Bytes) : Option Bytes := do
  let (content, rest) ← expect? tag input
  guard (rest = [])
  return content

-- The content of a document that is one element with the tag.
def document? (tag : UInt8) (bytes : Bytes) : Option Bytes := do
  guard (bytes.length ≤ lengthLimit)
  only? tag bytes

def integerTag : UInt8 := 0x02
def bitStringTag : UInt8 := 0x03
def octetStringTag : UInt8 := 0x04
def nullTag : UInt8 := 0x05
def objectIdentifierTag : UInt8 := 0x06
def sequenceTag : UInt8 := 0x30

def sequence (parts : List Element) : Element := ⟨sequenceTag, parts.flatMap Element.encode⟩

def null : Element := ⟨nullTag, []⟩

def objectIdentifier (arcs : Bytes) : Element := ⟨objectIdentifierTag, arcs⟩

def octetString (bytes : Bytes) : Element := ⟨octetStringTag, bytes⟩

-- A bit string of whole bytes.
def bitString (bytes : Bytes) : Element := ⟨bitStringTag, 0 :: bytes⟩

def bitStringBytes? : Bytes → Option Bytes
  | 0 :: bytes => some bytes
  | _ => none

-- A constructed element of the context-specific class.
def tagged (number : UInt8) (part : Element) : Element := ⟨0xa0 + number, part.encode⟩

-- The fewest bytes, with a zero in front if the first would have its highest bit set.
def integerContent (value : Nat) : Bytes :=
  let digits := Bytes.ofNat (Bytes.widthOf value) value
  if 0x80 ≤ digits.headD 0 then 0 :: digits else digits

def integer (value : Nat) : Element := ⟨integerTag, integerContent value⟩

-- The bytes of a number, without the zero that only keeps its sign.
def unsignedBytes : Bytes → Bytes
  | 0 :: next :: rest => next :: rest
  | content => content

-- The bytes of a number that is not negative.
def readUnsigned? (input : Bytes) : Option (Bytes × Bytes) := do
  let (content, rest) ← expect? integerTag input
  guard (integerContent content.toNat = content)
  return (unsignedBytes content, rest)

def readInteger? (input : Bytes) : Option (Nat × Bytes) := do
  let (bytes, rest) ← readUnsigned? input
  return (bytes.toNat, rest)

end BlindToken.Der
