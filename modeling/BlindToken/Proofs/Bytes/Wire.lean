import BlindToken.Bytes.Wire
import BlindToken.Proofs.Bytes

namespace BlindToken

theorem Bytes.count_eq (width : Nat) : count width = 256 ^ width := by
  rw [count, Nat.one_shiftLeft, Nat.pow_mul]

namespace Wire

variable {input rest : Bytes}

theorem take?_eq_some_iff {count : Nat} {taken : Bytes} :
    take? count input = some (taken, rest) ↔ input = taken ++ rest ∧ taken.length = count := by
  constructor
  · exact eq_append_of_take?
  · rintro ⟨rfl, rfl⟩
    exact take?_append taken rest

theorem readUInt16?_eq_some_iff {value : UInt16} :
    readUInt16? input = some (value, rest) ↔ input = writeUInt16 value ++ rest := by
  constructor
  · intro h
    obtain ⟨⟨bytes, left⟩, htake, h⟩ := Option.bind_eq_some_iff.mp h
    obtain ⟨rfl, rfl⟩ := Prod.mk.inj (Option.some.inj h)
    obtain ⟨rfl, hlength⟩ := take?_eq_some_iff.mp htake
    have hlt := Bytes.toNat_lt bytes
    rw [hlength] at hlt
    rw [writeUInt16, UInt16.toNat_ofNat_of_lt' hlt, Bytes.ofNat_toNat bytes hlength]
  · rintro rfl
    have htake : take? 2 (Bytes.ofNat 2 value.toNat ++ rest) = some (_, rest) :=
      take?_eq_some_iff.mpr ⟨rfl, Bytes.length_ofNat 2 value.toNat⟩
    have hvalue : UInt16.ofNat (Bytes.toNat (Bytes.ofNat 2 value.toNat)) = value := by
      rw [Bytes.toNat_ofNat_of_lt value.toNat_lt, UInt16.ofNat_toNat]
    simp [readUInt16?, writeUInt16, htake, hvalue]

section Block

variable {size : Nat} {block : Block size}

theorem readBlock?_eq_some_iff :
    readBlock? size input = some (block, rest) ↔ input = block.bytes ++ rest := by
  constructor
  · intro h
    obtain ⟨⟨bytes, left⟩, htake, h⟩ := Option.bind_eq_some_iff.mp h
    obtain ⟨found, hfound, h⟩ := Option.bind_eq_some_iff.mp h
    obtain ⟨rfl, rfl⟩ := Prod.mk.inj (Option.some.inj h)
    rw [Block.ofBytes?_eq_some_iff.mp hfound]
    exact (take?_eq_some_iff.mp htake).1
  · rintro rfl
    have htake : take? size (block.bytes ++ rest) = some (block.bytes, rest) :=
      take?_eq_some_iff.mpr ⟨rfl, block.length_eq⟩
    simp [readBlock?, htake]

end Block

section Counted

variable {width : Nat}

theorem length_counted_lt (value : Counted width) : value.bytes.length < 256 ^ width := by
  have hpos : 0 < 256 ^ width := Nat.pow_pos (by decide)
  calc
    value.bytes.length ≤ Bytes.count width - 1 := value.length_le
    _ = 256 ^ width - 1 := by rw [Bytes.count_eq]
    _ < 256 ^ width := Nat.sub_one_lt (Nat.ne_of_gt hpos)

theorem exists_counted (width : Nat) {bytes : Bytes} (h : bytes.length < 256 ^ width) :
    ∃ value : Counted width, value.bytes = bytes := by
  refine ⟨⟨bytes, ?_⟩, rfl⟩
  rw [Bytes.count_eq]
  exact Nat.le_sub_one_of_lt h

theorem readCounted?_eq_some_iff {value : Counted width} :
    readCounted? width input = some (value, rest) ↔ input = writeCounted value ++ rest := by
  constructor
  · intro h
    obtain ⟨⟨count, counted⟩, hcount, h⟩ := Option.bind_eq_some_iff.mp h
    obtain ⟨⟨bytes, left⟩, hbytes, h⟩ := Option.bind_eq_some_iff.mp h
    obtain ⟨found, hfound, h⟩ := Option.bind_eq_some_iff.mp h
    obtain ⟨rfl, rfl⟩ := Prod.mk.inj (Option.some.inj h)
    obtain ⟨rfl, hwidth⟩ := take?_eq_some_iff.mp hcount
    obtain ⟨rfl, hlength⟩ := take?_eq_some_iff.mp hbytes
    obtain rfl := Bounded.ofBytes?_eq_some_iff.mp hfound
    rw [writeCounted, hlength, Bytes.ofNat_toNat count hwidth, List.append_assoc]
  · rintro rfl
    have hcount : take? width (Bytes.ofNat width value.bytes.length ++ (value.bytes ++ rest)) =
        some (_, value.bytes ++ rest) :=
      take?_eq_some_iff.mpr ⟨rfl, Bytes.length_ofNat width value.bytes.length⟩
    have hlength := Bytes.toNat_ofNat_of_lt (length_counted_lt value)
    have hfound := Bounded.ofBytes?_eq_some_iff.mpr (Eq.refl value.bytes)
    simp [readCounted?, writeCounted, hcount, hlength, take?_append, hfound]

end Counted

end Wire

end BlindToken
