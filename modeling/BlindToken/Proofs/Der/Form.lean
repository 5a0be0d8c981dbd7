import BlindToken.Proofs.Der

namespace BlindToken

namespace Der

-- A length below 128 is one byte. Any other is the number of its bytes, with the highest bit set,
-- and these bytes, the first of which is not zero.
inductive LengthForm : Nat → Bytes → Prop where
  | short {length : Nat} (small : length < 0x80) : LengthForm length [UInt8.ofNat length]
  | long {first : UInt8} {rest : Bytes} (minimal : first ≠ 0)
      (large : 0x80 ≤ Bytes.toNat (first :: rest)) (countable : rest.length < 0x7e) :
      LengthForm (Bytes.toNat (first :: rest)) (UInt8.ofNat (0x81 + rest.length) :: first :: rest)

-- The tag, the length of the content, and the content.
inductive ElementForm (tag : UInt8) (content : Bytes) : Bytes → Prop where
  | intro {octets : Bytes} (length : LengthForm content.length octets) :
      ElementForm tag content (tag :: octets ++ content)

-- The bytes of a number, the first of which is not zero unless the number is. The highest bit is
-- the sign, so a zero stands in front of a first byte that has it set.
inductive IntegerForm : Nat → Bytes → Prop where
  | zero : IntegerForm 0 [0]
  | bare {first : UInt8} {rest : Bytes} (minimal : first ≠ 0) (clear : first < 0x80) :
      IntegerForm (Bytes.toNat (first :: rest)) (first :: rest)
  | padded {first : UInt8} {rest : Bytes} (set : 0x80 ≤ first) :
      IntegerForm (Bytes.toNat (first :: rest)) (0 :: first :: rest)

variable {tag : UInt8} {content bytes octets : Bytes} {length value : Nat}

theorem LengthForm.eq_writeLength (h : LengthForm length octets) :
    octets = writeLength length := by
  cases h with
  | short hsmall => exact (if_pos hsmall).symm
  | @long first rest hminimal hlarge =>
    rw [writeLength, if_neg (Nat.not_lt.mpr hlarge), Bytes.ofNat_widthOf_toNat hminimal,
      Bytes.widthOf_toNat hminimal, Nat.add_comm rest.length, ← Nat.add_assoc]

theorem lengthForm_writeLength (h : length ≤ lengthLimit) :
    LengthForm length (writeLength length) := by
  unfold writeLength
  split
  · rename_i hsmall
    exact .short hsmall
  · rename_i hlarge
    have hwidth := widthOf_le_of_le_lengthLimit h
    have hne : length ≠ 0 := by omega
    obtain ⟨first, rest, hdigits, hfirst, rfl⟩ := Bytes.exists_cons_of_widthOf hne
    have hlength := Bytes.widthOf_toNat hfirst rest
    rw [hdigits, hlength, Nat.add_comm rest.length, ← Nat.add_assoc]
    exact .long hfirst (Nat.le_of_not_lt hlarge) (by omega)

theorem ElementForm.eq_encode (h : ElementForm tag content bytes) :
    bytes = Element.encode ⟨tag, content⟩ := by
  obtain ⟨hlength⟩ := h
  rw [hlength.eq_writeLength]
  rfl

theorem elementForm_iff (h : content.length ≤ lengthLimit) :
    ElementForm tag content bytes ↔ bytes = Element.encode ⟨tag, content⟩ := by
  refine ⟨ElementForm.eq_encode, ?_⟩
  rintro rfl
  exact .intro (lengthForm_writeLength h)

theorem integerForm_iff : IntegerForm value content ↔ content = integerContent value := by
  constructor
  · intro h
    cases h with
    | zero => rfl
    | bare hminimal hclear =>
      rw [integerContent, Bytes.ofNat_widthOf_toNat hminimal]
      exact (if_neg (UInt8.not_le.mpr hclear)).symm
    | @padded first rest hset =>
      have hminimal : first ≠ 0 := by
        rintro rfl
        exact absurd hset (by decide)
      rw [integerContent, Bytes.ofNat_widthOf_toNat hminimal]
      exact (if_pos hset).symm
  · rintro rfl
    by_cases hvalue : value = 0
    · subst hvalue
      exact .zero
    · obtain ⟨first, rest, hdigits, hfirst, rfl⟩ := Bytes.exists_cons_of_widthOf hvalue
      rw [integerContent, hdigits]
      by_cases hset : 0x80 ≤ first
      · simpa [hset] using IntegerForm.padded hset
      · simpa [hset] using IntegerForm.bare hfirst (UInt8.not_le.mp hset)

end Der

end BlindToken
