import BlindToken.Der
import BlindToken.Proofs.Bytes.Wire

namespace BlindToken

namespace Der

variable {input rest : Bytes}

section Length

variable {length : Nat}

theorem widthOf_le_of_le_lengthLimit (h : length ≤ lengthLimit) : Bytes.widthOf length ≤ 4 :=
  Bytes.widthOf_le (by decide) (Nat.lt_of_le_of_lt h (by decide))

theorem length_writeLength_le {width : Nat} (hwidth : 0 < width) (h : length < 256 ^ width) :
    (writeLength length).length ≤ width + 1 := by
  unfold writeLength
  split
  · simp
  · simpa using Bytes.widthOf_le hwidth h

private theorem readLength?_of_written {first : UInt8} {octets : Bytes} (hfirst : first ≤ 0x84)
    (hoctets : octets.length = first.toNat - 0x80)
    (hlength : (if first < 0x80 then first.toNat else Bytes.toNat octets) = length)
    (hle : length ≤ lengthLimit) (hwritten : writeLength length = first :: octets) :
    readLength? (first :: octets ++ rest) = some (length, rest) := by
  have htake : Wire.take? (first.toNat - 0x80) (octets ++ rest) = some (octets, rest) :=
    Wire.take?_eq_some_iff.mpr ⟨rfl, hoctets⟩
  simp [readLength?, hfirst, htake, hlength, hle, hwritten]

theorem readLength?_eq_some_iff : readLength? input = some (length, rest) ↔
    length ≤ lengthLimit ∧ input = writeLength length ++ rest := by
  constructor
  · intro h
    cases input with
    | nil => cases h
    | cons first tail =>
      obtain ⟨⟨⟩, -, h⟩ := Option.bind_eq_some_iff.mp h
      obtain ⟨⟨octets, left⟩, htake, h⟩ := Option.bind_eq_some_iff.mp h
      obtain ⟨⟨⟩, hguard, h⟩ := Option.bind_eq_some_iff.mp h
      obtain ⟨hle, hwritten⟩ := (Option.guard_eq_some' _).mp hguard
      obtain ⟨rfl, rfl⟩ := Prod.mk.inj (Option.some.inj h)
      obtain ⟨rfl, -⟩ := Wire.take?_eq_some_iff.mp htake
      rw [hwritten]
      exact ⟨hle, rfl⟩
  · rintro ⟨hle, rfl⟩
    by_cases hshort : length < 0x80
    · have hwritten : writeLength length = [UInt8.ofNat length] := if_pos hshort
      have hnat : (UInt8.ofNat length).toNat = length :=
        UInt8.toNat_ofNat_of_lt' (Nat.lt_trans hshort (by decide))
      rw [hwritten]
      refine readLength?_of_written ?_ ?_ ?_ hle hwritten
      · rw [UInt8.le_iff_toNat_le, hnat]
        exact Nat.le_trans (Nat.le_of_lt hshort) (by decide)
      · rw [hnat, Nat.sub_eq_zero_of_le (Nat.le_of_lt hshort)]
        rfl
      · rw [if_pos, hnat]
        rwa [UInt8.lt_iff_toNat_lt, hnat]
    · have hwidth := widthOf_le_of_le_lengthLimit hle
      have hwritten : writeLength length = UInt8.ofNat (0x80 + Bytes.widthOf length) ::
          Bytes.ofNat (Bytes.widthOf length) length := if_neg hshort
      have hnat : (UInt8.ofNat (0x80 + Bytes.widthOf length)).toNat =
          0x80 + Bytes.widthOf length :=
        UInt8.toNat_ofNat_of_lt' (Nat.lt_of_le_of_lt (Nat.add_le_add_left hwidth 0x80) (by decide))
      rw [hwritten]
      refine readLength?_of_written ?_ ?_ ?_ hle hwritten
      · rw [UInt8.le_iff_toNat_le, hnat]
        exact Nat.add_le_add_left hwidth 0x80
      · rw [hnat, Bytes.length_ofNat, Nat.add_sub_cancel_left]
      · rw [if_neg, Bytes.toNat_ofNat_of_lt (Bytes.lt_pow_widthOf length)]
        rw [UInt8.lt_iff_toNat_lt, hnat]
        exact Nat.not_lt.mpr (Nat.le_add_right _ _)

end Length

namespace Element

variable {element : Element}

-- A reader knows the tag and takes the length.
structure IsReadable (element : Element) : Prop where
  tag : isKnownTag element.tag
  length_le : element.content.length ≤ lengthLimit

theorem length_encode (element : Element) : element.encode.length =
    1 + (writeLength element.content.length).length + element.content.length := by
  simp only [encode, List.length_append, List.length_cons]
  omega

theorem length_encode_le {width : Nat} (hwidth : 0 < width)
    (h : element.content.length < 256 ^ width) :
    element.encode.length ≤ element.content.length + width + 2 := by
  have hlength := length_writeLength_le hwidth h
  rw [length_encode]
  omega

theorem length_encode_le_of_limit (h : element.content.length ≤ lengthLimit) :
    element.encode.length ≤ element.content.length + 6 :=
  length_encode_le (show 0 < 4 by decide) (Nat.lt_of_le_of_lt h (by decide))

theorem length_content_le (element : Element) : element.content.length ≤ element.encode.length := by
  rw [length_encode]
  exact Nat.le_add_left _ _

theorem length_content_add_two_le (element : Element) :
    element.content.length + 2 ≤ element.encode.length := by
  have hlength : 0 < (writeLength element.content.length).length := by
    unfold writeLength
    split <;> exact Nat.succ_pos _
  rw [length_encode]
  omega

theorem encode_ne_nil (element : Element) : element.encode ≠ [] := List.cons_ne_nil _ _

theorem read?_eq_some_iff : read? input = some (element, rest) ↔
    element.IsReadable ∧ input = element.encode ++ rest := by
  constructor
  · intro h
    cases input with
    | nil => cases h
    | cons tag tail =>
      obtain ⟨⟨⟩, htag, h⟩ := Option.bind_eq_some_iff.mp h
      obtain ⟨⟨length, left⟩, hlength, h⟩ := Option.bind_eq_some_iff.mp h
      obtain ⟨⟨content, after⟩, hcontent, h⟩ := Option.bind_eq_some_iff.mp h
      obtain ⟨rfl, rfl⟩ := Prod.mk.inj (Option.some.inj h)
      obtain ⟨hle, rfl⟩ := readLength?_eq_some_iff.mp hlength
      obtain ⟨rfl, rfl⟩ := Wire.take?_eq_some_iff.mp hcontent
      exact ⟨⟨(Option.guard_eq_some' _).mp htag, hle⟩, by simp [encode]⟩
  · rintro ⟨⟨htag, hle⟩, rfl⟩
    have hlength : readLength? (writeLength element.content.length ++ (element.content ++ rest)) =
        some (element.content.length, element.content ++ rest) :=
      readLength?_eq_some_iff.mpr ⟨hle, rfl⟩
    simp [read?, encode, htag, hlength, Wire.take?_append]

end Element

theorem content_sequence_pair (first second : Element) :
    (sequence [first, second]).content = first.encode ++ second.encode := by
  simp [sequence]

theorem length_content_sequence (parts : List Element) :
    (sequence parts).content.length = (parts.map fun part => part.encode.length).sum :=
  List.length_flatMap

-- A limit on the whole holds for the contents of its parts.
theorem length_content_le_of_mem {parts : List Element} {part : Element} (h : part ∈ parts) :
    part.content.length ≤ (sequence parts).encode.length := by
  have hmem := List.mem_map_of_mem (f := Element.encode) h
  have hpart := (List.sublist_flatten_of_mem hmem).length_le
  have hwhole := (sequence parts).length_content_le
  rw [sequence, List.flatMap_def] at hwhole
  exact (part.length_content_le.trans hpart).trans hwhole

theorem length_parts_le (first second : Element) :
    first.content.length ≤ (sequence [first, second]).encode.length ∧
      second.content.length ≤ (sequence [first, second]).encode.length :=
  ⟨length_content_le_of_mem (by simp), length_content_le_of_mem (by simp)⟩

section Pieces

variable {tag : UInt8} {content : Bytes}

theorem expect?_eq_some_iff : expect? tag input = some (content, rest) ↔
    Element.IsReadable ⟨tag, content⟩ ∧ input = Element.encode ⟨tag, content⟩ ++ rest := by
  rw [← Element.read?_eq_some_iff]
  constructor
  · intro h
    obtain ⟨⟨element, left⟩, hread, h⟩ := Option.bind_eq_some_iff.mp h
    obtain ⟨⟨⟩, htag, h⟩ := Option.bind_eq_some_iff.mp h
    obtain ⟨rfl, rfl⟩ := Prod.mk.inj (Option.some.inj h)
    obtain rfl := (Option.guard_eq_some' _).mp htag
    exact hread
  · intro h
    simp [expect?, h]

theorem only?_eq_some_iff : only? tag input = some content ↔
    Element.IsReadable ⟨tag, content⟩ ∧ input = Element.encode ⟨tag, content⟩ := by
  have hall : expect? tag input = some (content, []) ↔
      Element.IsReadable ⟨tag, content⟩ ∧ input = Element.encode ⟨tag, content⟩ := by
    rw [expect?_eq_some_iff, List.append_nil]
  rw [← hall]
  constructor
  · intro h
    obtain ⟨⟨found, left⟩, hexpect, h⟩ := Option.bind_eq_some_iff.mp h
    obtain ⟨⟨⟩, hend, h⟩ := Option.bind_eq_some_iff.mp h
    obtain rfl := (Option.guard_eq_some' _).mp hend
    obtain rfl := Option.some.inj h
    exact hexpect
  · intro h
    simp [only?, h]

theorem document?_eq_some_iff : document? tag input = some content ↔
    isKnownTag tag ∧ input.length ≤ lengthLimit ∧ input = Element.encode ⟨tag, content⟩ := by
  constructor
  · intro h
    obtain ⟨⟨⟩, hlength, h⟩ := Option.bind_eq_some_iff.mp h
    obtain ⟨hreadable, hinput⟩ := only?_eq_some_iff.mp h
    exact ⟨hreadable.tag, (Option.guard_eq_some' _).mp hlength, hinput⟩
  · rintro ⟨htag, hlength, rfl⟩
    have hcontent := Nat.le_trans (Element.length_content_le ⟨tag, content⟩) hlength
    have honly : only? tag (Element.encode ⟨tag, content⟩) = some content :=
      only?_eq_some_iff.mpr ⟨⟨htag, hcontent⟩, rfl⟩
    simp [document?, hlength, honly]

theorem bitStringBytes?_eq_some_iff {bytes : Bytes} :
    bitStringBytes? content = some bytes ↔ content = 0 :: bytes := by
  unfold bitStringBytes?
  split
  · simp
  · rename_i hnot
    constructor
    · nofun
    · intro h
      exact absurd h (hnot bytes)

end Pieces

section Integer

variable {value : Nat}

theorem toNat_integerContent (value : Nat) : Bytes.toNat (integerContent value) = value := by
  have hdigits := Bytes.toNat_ofNat_of_lt (Bytes.lt_pow_widthOf value)
  simp only [integerContent]
  split
  · rw [Bytes.toNat_cons, hdigits]
    simp
  · exact hdigits

theorem length_integerContent_le {width : Nat} (hwidth : 0 < width) (h : value < 256 ^ width) :
    (integerContent value).length ≤ width + 1 := by
  have hle := Bytes.widthOf_le hwidth h
  simp only [integerContent]
  split
  · simpa using hle
  · rw [Bytes.length_ofNat]
    exact Nat.le_succ_of_le hle

theorem widthOf_le_length_integerContent (value : Nat) :
    Bytes.widthOf value ≤ (integerContent value).length := by
  simp only [integerContent]
  split <;> simp

theorem unsignedBytes_of_ne_zero {first : UInt8} (h : first ≠ 0) (rest : Bytes) :
    unsignedBytes (first :: rest) = first :: rest := by
  unfold unsignedBytes
  split
  · rename_i heq
    exact absurd (List.cons.inj heq).1 h
  · rfl

-- Without the sign, the fewest bytes that hold the number are left.
theorem unsignedBytes_integerContent (value : Nat) :
    unsignedBytes (integerContent value) = Bytes.ofNat (Bytes.widthOf value) value := by
  by_cases hvalue : value = 0
  · subst hvalue
    decide
  · obtain ⟨first, rest, hdigits, hfirst, -⟩ := Bytes.exists_cons_of_widthOf hvalue
    simp only [integerContent, hdigits, List.headD_cons]
    split
    · rfl
    · exact unsignedBytes_of_ne_zero hfirst rest

theorem readUnsigned?_eq_some_iff {bytes : Bytes} : readUnsigned? input = some (bytes, rest) ↔
    ∃ value, bytes = Bytes.ofNat (Bytes.widthOf value) value ∧
      (integerContent value).length ≤ lengthLimit ∧ input = (integer value).encode ++ rest := by
  constructor
  · intro h
    obtain ⟨⟨content, left⟩, hexpect, h⟩ := Option.bind_eq_some_iff.mp h
    obtain ⟨⟨⟩, hcontent, h⟩ := Option.bind_eq_some_iff.mp h
    obtain ⟨rfl, rfl⟩ := Prod.mk.inj (Option.some.inj h)
    obtain ⟨hreadable, rfl⟩ := expect?_eq_some_iff.mp hexpect
    replace hcontent := (Option.guard_eq_some' _).mp hcontent
    refine ⟨content.toNat, ?_, ?_, ?_⟩
    · rw [← unsignedBytes_integerContent, hcontent]
    · rw [hcontent]
      exact hreadable.length_le
    · rw [integer, hcontent]
  · rintro ⟨value, rfl, hlength, rfl⟩
    have hexpect : expect? integerTag ((integer value).encode ++ rest) =
        some (integerContent value, rest) :=
      expect?_eq_some_iff.mpr ⟨⟨show isKnownTag integerTag by decide, hlength⟩, rfl⟩
    simp [readUnsigned?, hexpect, toNat_integerContent, unsignedBytes_integerContent]

theorem readInteger?_eq_some_iff : readInteger? input = some (value, rest) ↔
    (integerContent value).length ≤ lengthLimit ∧ input = (integer value).encode ++ rest := by
  have htoNat (value : Nat) := Bytes.toNat_ofNat_of_lt (Bytes.lt_pow_widthOf value)
  constructor
  · intro h
    obtain ⟨⟨bytes, left⟩, hread, h⟩ := Option.bind_eq_some_iff.mp h
    obtain ⟨rfl, rfl⟩ := Prod.mk.inj (Option.some.inj h)
    obtain ⟨value, rfl, hinteger⟩ := readUnsigned?_eq_some_iff.mp hread
    rwa [htoNat]
  · intro h
    have hread := readUnsigned?_eq_some_iff.mpr ⟨value, rfl, h⟩
    simp [readInteger?, hread, htoNat]

theorem readInteger?_integer (h : (integerContent value).length ≤ lengthLimit) (rest : Bytes) :
    readInteger? ((integer value).encode ++ rest) = some (value, rest) :=
  readInteger?_eq_some_iff.mpr ⟨h, rfl⟩

end Integer

end Der

end BlindToken
