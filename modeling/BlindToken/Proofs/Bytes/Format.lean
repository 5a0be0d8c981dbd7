import BlindToken.Bytes.Format
import BlindToken.Proofs.Bytes.Wire

namespace BlindToken.Wire

namespace Format

variable {α β : Type}

-- The writer never fails, keeps to the length that is announced, and what it writes, and only that,
-- is read back, whatever follows.
structure IsWrittenBy (format : Format α) (encode : α → Bytes) : Prop where
  write?_eq (value : α) : format.write? value = some (encode value)
  length_eq (value : α) : (encode value).length = format.size value
  read?_iff (bytes rest : Bytes) (value : α) :
    format.read? bytes = some (value, rest) ↔ bytes = encode value ++ rest

-- Every value takes the same number of bytes, and any bytes of that number are read as one.
structure IsFixed (format : Format α) (size : Nat) : Prop where
  size_eq (value : α) : format.size value = size
  exists_read? (bytes : Bytes) (h : size ≤ bytes.length) :
    ∃ value, format.read? bytes = some (value, bytes.drop size)

section Pieces

theorem isWrittenBy_uint16 : uint16.IsWrittenBy writeUInt16 where
  write?_eq _ := rfl
  length_eq value := Bytes.length_ofNat 2 value.toNat
  read?_iff _ _ _ := readUInt16?_eq_some_iff

theorem isWrittenBy_byte : byte.IsWrittenBy fun value => [value] where
  write?_eq _ := rfl
  length_eq _ := rfl
  read?_iff bytes rest value := by cases bytes <;> simp [byte, readByte?, eq_comm]

theorem isWrittenBy_block (size : Nat) : (block size).IsWrittenBy Block.bytes where
  write?_eq _ := rfl
  length_eq value := value.length_eq
  read?_iff _ _ _ := readBlock?_eq_some_iff

-- No value of the type is too long for its count.
theorem isWrittenBy_counted (width : Nat) : (counted width).IsWrittenBy writeCounted where
  write?_eq value := by
    have hlt := length_counted_lt value
    rw [← Bytes.count_eq] at hlt
    exact if_pos hlt
  length_eq value := by rw [writeCounted, List.length_append, Bytes.length_ofNat]; rfl
  read?_iff _ _ _ := readCounted?_eq_some_iff

theorem isFixed_uint16 : uint16.IsFixed 2 where
  size_eq _ := rfl
  exists_read? bytes h := by simp [uint16, readUInt16?, take?, h]

theorem isFixed_byte : byte.IsFixed 1 where
  size_eq _ := rfl
  exists_read? bytes h := by
    obtain ⟨first, rest, rfl⟩ := List.exists_cons_of_length_pos h
    exact ⟨first, rfl⟩

theorem isFixed_block (size : Nat) : (block size).IsFixed size where
  size_eq _ := rfl
  exists_read? bytes h := by simp [block, readBlock?, take?, Block.ofBytes?, h]

end Pieces

section Pair

variable {first : Format α} {second : Format β}

theorem read?_pair_eq_some_iff {bytes rest : Bytes} {fields : α × β} :
    (first.pair second).read? bytes = some (fields, rest) ↔ ∃ between,
      first.read? bytes = some (fields.1, between) ∧
        second.read? between = some (fields.2, rest) := by
  obtain ⟨left, right⟩ := fields
  constructor
  · intro h
    obtain ⟨⟨_, between⟩, hfirst, h⟩ := Option.bind_eq_some_iff.mp h
    obtain ⟨⟨_, _⟩, hsecond, h⟩ := Option.bind_eq_some_iff.mp h
    obtain ⟨⟨rfl, rfl⟩, rfl⟩ : (_ ∧ _) ∧ _ := by simpa using h
    exact ⟨between, hfirst, hsecond⟩
  · rintro ⟨between, hfirst, hsecond⟩
    exact Option.bind_eq_some_iff.mpr
      ⟨_, hfirst, Option.bind_eq_some_iff.mpr ⟨_, hsecond, rfl⟩⟩

theorem IsWrittenBy.pair {writeFirst : α → Bytes} {writeSecond : β → Bytes}
    (hfirst : first.IsWrittenBy writeFirst) (hsecond : second.IsWrittenBy writeSecond) :
    (first.pair second).IsWrittenBy fun fields => writeFirst fields.1 ++ writeSecond fields.2 where
  write?_eq fields := by simp [Format.pair, hfirst.write?_eq, hsecond.write?_eq]
  length_eq fields := by
    rw [List.length_append, hfirst.length_eq, hsecond.length_eq]
    rfl
  read?_iff bytes rest fields := by
    simp only [read?_pair_eq_some_iff, hfirst.read?_iff, hsecond.read?_iff, exists_eq_right,
      List.append_assoc]

theorem IsFixed.pair {size more : Nat} (hfirst : first.IsFixed size)
    (hsecond : second.IsFixed more) : (first.pair second).IsFixed (size + more) where
  size_eq fields := by simp only [Format.pair, hfirst.size_eq, hsecond.size_eq]
  exists_read? bytes h := by
    obtain ⟨left, hleft⟩ := hfirst.exists_read? bytes (by omega)
    obtain ⟨right, hright⟩ := hsecond.exists_read? (bytes.drop size) (by simp; omega)
    rw [List.drop_drop] at hright
    exact ⟨(left, right), read?_pair_eq_some_iff.mpr ⟨_, hleft, hright⟩⟩

end Pair

section Record

variable {format : Format β} {fields : α → β} {ofFields : β → α}

theorem IsWrittenBy.record {write : β → Bytes} (h : format.IsWrittenBy write)
    (hof : ∀ value, ofFields (fields value) = value)
    (hfields : ∀ read, fields (ofFields read) = read) :
    (format.record fields ofFields).IsWrittenBy fun value => write (fields value) where
  write?_eq value := h.write?_eq (fields value)
  length_eq value := h.length_eq (fields value)
  read?_iff bytes rest value := by
    rw [← h.read?_iff]
    constructor
    · intro h
      obtain ⟨⟨read, _⟩, hread, hvalue⟩ := Option.bind_eq_some_iff.mp h
      obtain ⟨rfl, rfl⟩ := Prod.mk.inj (Option.some.inj hvalue)
      rw [hread, hfields]
    · intro hread
      refine Option.bind_eq_some_iff.mpr ⟨_, hread, ?_⟩
      simp only [hof]
      rfl

theorem IsFixed.record {size : Nat} (h : format.IsFixed size) :
    (format.record fields ofFields).IsFixed size where
  size_eq value := h.size_eq (fields value)
  exists_read? bytes hsize := by
    obtain ⟨read, hread⟩ := h.exists_read? bytes hsize
    exact ⟨ofFields read, Option.bind_eq_some_iff.mpr ⟨_, hread, rfl⟩⟩

end Record

end Format

-- Exactly the strings of one size are decoded, and encoding and decoding undo each other.
structure DecodesSize {ε α : Type} (size : Nat) (encode : α → Bytes)
    (decode : Bytes → Except ε α) : Prop where
  exists_ok_iff (bytes : Bytes) : (∃ value, decode bytes = .ok value) ↔ bytes.length = size
  decode_encode (value : α) : decode (encode value) = .ok value
  encode_eq (bytes : Bytes) (value : α) (h : decode bytes = .ok value) : encode value = bytes

section Decode

variable {α : Type} {format : Format α} {encode : α → Bytes}
  {decode : Bytes → Except ε α} {size : Nat}

-- The decoder reads one value with nothing behind it.
theorem Format.IsWrittenBy.decodesSize (hwritten : format.IsWrittenBy encode)
    (hfixed : format.IsFixed size)
    (hdecode : ∀ bytes value, decode bytes = .ok value ↔ format.read? bytes = some (value, [])) :
    DecodesSize size encode decode := by
  have hok (bytes : Bytes) (value : α) : decode bytes = .ok value ↔ bytes = encode value := by
    rw [hdecode, hwritten.read?_iff, List.append_nil]
  have hlength (value : α) : (encode value).length = size := by
    rw [hwritten.length_eq, hfixed.size_eq]
  refine ⟨fun bytes => ⟨?_, fun h => ?_⟩, fun value => (hok _ _).mpr rfl,
    fun bytes value h => ((hok _ _).mp h).symm⟩
  · rintro ⟨value, h⟩
    rw [(hok _ _).mp h, hlength]
  · obtain ⟨value, hread⟩ := hfixed.exists_read? bytes h.ge
    rw [List.drop_eq_nil_of_le h.le] at hread
    exact ⟨value, (hdecode _ _).mpr hread⟩

end Decode

end BlindToken.Wire
