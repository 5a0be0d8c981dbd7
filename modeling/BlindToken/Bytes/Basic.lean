namespace BlindToken

abbrev Bytes := List UInt8

namespace Bytes

-- The number that the bytes write in base 256, most significant byte first.
def toNat (bytes : Bytes) : Nat :=
  bytes.foldl (fun value byte => value * 256 + byte.toNat) 0

-- The `width` lowest digits of `value` in base 256, most significant digit first.
def ofNat : (width value : Nat) → Bytes
  | 0, _ => []
  | width + 1, value => UInt8.ofNat (value >>> (8 * width)) :: ofNat width value

@[simp] theorem length_ofNat (width value : Nat) : (ofNat width value).length = width := by
  induction width with
  | zero => rfl
  | succ width ih => simp [ofNat, ih]

-- The number of byte strings of the width.
def count (width : Nat) : Nat := 1 <<< (8 * width)

-- The number of bytes that a number fills, at least one.
def widthOf (value : Nat) : Nat := value.log2 / 8 + 1

-- The bits of a string without superfluous bytes in front, from the highest one that is set.
def significantBits : Bytes → Nat
  | [] => 0
  | first :: rest => 8 * (first :: rest).length - first.toBitVec.clz.toNat

-- The two strings byte by byte, up to the end of the shorter one.
def xor (left right : Bytes) : Bytes := List.zipWith (· ^^^ ·) left right

end Bytes

-- A byte string of one fixed size.
structure Block (size : Nat) where
  bytes : Bytes
  length_eq : bytes.length = size
deriving DecidableEq

namespace Block

variable {size : Nat}

def ofBytes? (size : Nat) (bytes : Bytes) : Option (Block size) :=
  if h : bytes.length = size then some ⟨bytes, h⟩ else none

@[simp] theorem ofBytes?_bytes (block : Block size) : ofBytes? size block.bytes = some block := by
  simp [ofBytes?, block.length_eq]

theorem ofBytes?_eq_some_iff {bytes : Bytes} {block : Block size} :
    ofBytes? size bytes = some block ↔ block.bytes = bytes := by
  constructor
  · intro h
    unfold ofBytes? at h
    split at h
    · cases h
      rfl
    · cases h
  · rintro rfl
    exact ofBytes?_bytes block

-- The number in big-endian form, reduced to what the size can hold.
def ofNat (size value : Nat) : Block size := ⟨Bytes.ofNat size value, Bytes.length_ofNat size value⟩

def toNat (block : Block size) : Nat := block.bytes.toNat

-- The last byte of a string that has one.
def last (block : Block (size + 1)) : UInt8 :=
  block.bytes.getLast fun h => by simpa [h] using block.length_eq

end Block

-- A byte string of at most `limit` bytes.
structure Bounded (limit : Nat) where
  bytes : Bytes
  length_le : bytes.length ≤ limit
deriving DecidableEq

namespace Bounded

variable {limit : Nat}

def ofBytes? (limit : Nat) (bytes : Bytes) : Option (Bounded limit) :=
  if h : bytes.length ≤ limit then some ⟨bytes, h⟩ else none

end Bounded

def utf8 (text : String) : Bytes := text.toUTF8.data.toList

def ofUtf8? (bytes : Bytes) : Option String := String.fromUTF8? ⟨bytes.toArray⟩

-- A byte string reads as a text exactly when it is the UTF-8 form of that text.
theorem ofUtf8?_eq_some_iff {bytes : Bytes} {text : String} :
    ofUtf8? bytes = some text ↔ utf8 text = bytes := by
  unfold ofUtf8? utf8 String.fromUTF8?
  constructor
  · intro h
    split at h
    · cases h
      rfl
    · cases h
  · rintro rfl
    have hvalid : (⟨text.toUTF8.data.toList.toArray⟩ : ByteArray).IsValidUTF8 := by
      simpa using text.isValidUTF8
    rw [dif_pos hvalid]
    congr 1

@[simp] theorem ofUtf8?_utf8 (text : String) : ofUtf8? (utf8 text) = some text :=
  ofUtf8?_eq_some_iff.mpr rfl

theorem utf8_injective {left right : String} (h : utf8 left = utf8 right) : left = right :=
  Option.some.inj ((ofUtf8?_utf8 left).symm.trans (h ▸ ofUtf8?_utf8 right))

end BlindToken
