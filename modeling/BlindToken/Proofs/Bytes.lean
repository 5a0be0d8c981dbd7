import Mathlib.Data.List.Induction
import Mathlib.Tactic.Ring
import BlindToken.Bytes.Basic

namespace BlindToken

namespace Bytes

theorem toNat_append (left right : Bytes) :
    toNat (left ++ right) = toNat left * 256 ^ right.length + toNat right := by
  induction right using List.reverseRecOn generalizing left with
  | nil => simp [toNat]
  | append_singleton right last ih =>
    have hlast (bytes : Bytes) : toNat (bytes ++ [last]) = toNat bytes * 256 + last.toNat := by
      simp [toNat]
    rw [← List.append_assoc, hlast, hlast, ih, List.length_append, List.length_singleton]
    ring

theorem toNat_cons (first : UInt8) (rest : Bytes) :
    toNat (first :: rest) = first.toNat * 256 ^ rest.length + toNat rest := by
  simpa [toNat] using toNat_append [first] rest

theorem toNat_lt (bytes : Bytes) : toNat bytes < 256 ^ bytes.length := by
  induction bytes with
  | nil => exact Nat.one_pos
  | cons first rest ih =>
    have hfirst : first.toNat + 1 ≤ 256 := first.toNat_lt
    calc
      toNat (first :: rest) < (first.toNat + 1) * 256 ^ rest.length := by
        rw [toNat_cons, Nat.succ_mul]
        omega
      _ ≤ 256 * 256 ^ rest.length := Nat.mul_le_mul_right _ hfirst
      _ = 256 ^ (first :: rest).length := by rw [List.length_cons, Nat.pow_succ']

theorem toNat_ofNat (width value : Nat) : toNat (ofNat width value) = value % 256 ^ width := by
  induction width with
  | zero => simp [ofNat, toNat, Nat.mod_one]
  | succ width ih =>
    have hdigit : (UInt8.ofNat (value >>> (8 * width))).toNat = value / 256 ^ width % 256 := by
      rw [UInt8.toNat_ofNat', Nat.shiftRight_eq_div_pow, Nat.pow_mul]
    rw [ofNat, toNat_cons, length_ofNat, ih, hdigit, Nat.mod_pow_succ, Nat.mul_comm, Nat.add_comm]

theorem toNat_ofNat_of_lt {width value : Nat} (h : value < 256 ^ width) :
    toNat (ofNat width value) = value := by
  rw [toNat_ofNat, Nat.mod_eq_of_lt h]

theorem toNat_inj {left right : Bytes} (hlength : left.length = right.length)
    (h : toNat left = toNat right) : left = right := by
  induction left generalizing right with
  | nil => exact (List.length_eq_zero_iff.mp hlength.symm).symm
  | cons first rest ih =>
    obtain ⟨other, others, rfl⟩ := List.exists_cons_of_length_eq_add_one hlength.symm
    have hrest : rest.length = others.length := by simpa using hlength
    rw [toNat_cons, toNat_cons, hrest, Nat.mul_comm, Nat.mul_comm other.toNat] at h
    have hlt := toNat_lt rest
    rw [hrest] at hlt
    -- the first byte is the quotient of the number, and the others are the remainder
    have hquotient := congrArg (· / 256 ^ others.length) h
    have hremainder := congrArg (· % 256 ^ others.length) h
    simp only [Nat.mul_add_mod, Nat.mod_eq_of_lt hlt, Nat.mod_eq_of_lt (toNat_lt others),
      Nat.mul_add_div (Nat.pow_pos (n := others.length) (show 0 < 256 by decide)),
      Nat.div_eq_of_lt hlt, Nat.div_eq_of_lt (toNat_lt others), Nat.add_zero]
      at hquotient hremainder
    rw [UInt8.toNat_inj.mp hquotient, ih hrest hremainder]

theorem ofNat_toNat {width : Nat} (bytes : Bytes) (h : bytes.length = width) :
    ofNat width (toNat bytes) = bytes := by
  subst h
  exact toNat_inj (length_ofNat _ _) (toNat_ofNat_of_lt (toNat_lt bytes))

theorem lt_pow_widthOf (value : Nat) : value < 256 ^ widthOf value := by
  calc
    value < 2 ^ (value.log2 + 1) := Nat.lt_log2_self
    _ ≤ 2 ^ (8 * widthOf value) := Nat.pow_le_pow_right (by decide) (by unfold widthOf; omega)
    _ = 256 ^ widthOf value := Nat.pow_mul 2 8 _

theorem widthOf_le {value width : Nat} (hwidth : 0 < width) (h : value < 256 ^ width) :
    widthOf value ≤ width := by
  by_cases hvalue : value = 0
  · subst hvalue
    exact hwidth
  · rw [show 256 = 2 ^ 8 from rfl, ← Nat.pow_mul, ← Nat.log2_lt hvalue] at h
    unfold widthOf
    omega

theorem lt_widthOf {value width : Nat} (h : 256 ^ width ≤ value) : width < widthOf value :=
  (Nat.pow_lt_pow_iff_right (show 1 < 256 by decide)).mp (Nat.lt_of_le_of_lt h (lt_pow_widthOf _))

-- A number fills all of its bytes if the first is not zero.
theorem widthOf_toNat {first : UInt8} (hfirst : first ≠ 0) (rest : Bytes) :
    widthOf (toNat (first :: rest)) = rest.length + 1 := by
  have hpos : 1 ≤ first.toNat := Nat.one_le_iff_ne_zero.mpr fun h => hfirst (UInt8.toNat_inj.mp h)
  have hlower : 256 ^ rest.length ≤ toNat (first :: rest) := by
    rw [toNat_cons]
    exact Nat.le_add_right_of_le (Nat.le_mul_of_pos_left _ hpos)
  have hupper : widthOf (toNat (first :: rest)) ≤ rest.length + 1 :=
    widthOf_le (Nat.succ_pos _) (toNat_lt (first :: rest))
  exact Nat.le_antisymm hupper (lt_widthOf hlower)

theorem ofNat_widthOf_toNat {first : UInt8} (hfirst : first ≠ 0) (rest : Bytes) :
    ofNat (widthOf (toNat (first :: rest))) (toNat (first :: rest)) = first :: rest := by
  rw [widthOf_toNat hfirst]
  exact ofNat_toNat _ (List.length_cons ..)

theorem exists_cons_of_widthOf {value : Nat} (hvalue : value ≠ 0) :
    ∃ first rest, ofNat (widthOf value) value = first :: rest ∧ first ≠ 0 ∧
      toNat (first :: rest) = value := by
  obtain ⟨first, rest, hdigits⟩ : ∃ first rest, ofNat (widthOf value) value = first :: rest :=
    List.exists_cons_of_length_eq_add_one (length_ofNat (widthOf value) value)
  have htoNat : toNat (first :: rest) = value := by
    rw [← hdigits]
    exact toNat_ofNat_of_lt (lt_pow_widthOf value)
  refine ⟨first, rest, hdigits, ?_, htoNat⟩
  -- without a first byte of zero the others would hold the number
  rintro rfl
  have hlength : rest.length + 1 = widthOf value := by
    rw [← List.length_cons, ← hdigits, length_ofNat]
  have hlt : value < 256 ^ rest.length := by
    rw [← htoNat, toNat_cons]
    simpa using toNat_lt rest
  rcases Nat.eq_zero_or_pos rest.length with hzero | hpos
  · rw [hzero] at hlt
    omega
  · have hle := widthOf_le hpos hlt
    omega

end Bytes

namespace Block

variable {size : Nat}

theorem toNat_ofNat_of_lt {value : Nat} (h : value < 256 ^ size) :
    (ofNat size value).toNat = value := Bytes.toNat_ofNat_of_lt h

theorem ofBytes?_ofNat (size value : Nat) :
    ofBytes? size (Bytes.ofNat size value) = some (ofNat size value) :=
  ofBytes?_bytes (ofNat size value)

theorem toNat_inj {left right : Block size} (h : left.toNat = right.toNat) : left = right := by
  obtain ⟨bytes, hbytes⟩ := left
  obtain ⟨others, hothers⟩ := right
  obtain rfl : bytes = others := Bytes.toNat_inj (hbytes.trans hothers.symm) h
  rfl

end Block

theorem Bounded.ofBytes?_eq_some_iff {limit : Nat} {bytes : Bytes} {value : Bounded limit} :
    ofBytes? limit bytes = some value ↔ value.bytes = bytes := by
  constructor
  · intro h
    obtain ⟨hle, h⟩ := Option.dite_none_right_eq_some.mp h
    rw [← Option.some.inj h]
  · rintro rfl
    exact dif_pos value.length_le

section Text

theorem utf8_eq_flatMap (text : String) :
    utf8 text = text.toList.flatMap String.utf8EncodeChar := by
  rw [utf8, String.toUTF8_eq_toByteArray, ← String.utf8Encode_toList, List.utf8Encode,
    List.toList_data_toByteArray]

theorem length_utf8 (text : String) : (utf8 text).length = text.utf8ByteSize := by
  simp [utf8]

@[simp] theorem utf8_eq_nil_iff {text : String} : utf8 text = [] ↔ text = "" := by
  constructor
  · intro h
    exact utf8_injective h
  · rintro rfl
    rfl

theorem utf8EncodeChar_of_ascii {char : Char} (h : char.toNat < 0x80) :
    String.utf8EncodeChar char = [UInt8.ofNat char.toNat] := by
  have hle : char.toNat ≤ 127 := Nat.le_of_lt_succ h
  simp [String.utf8EncodeChar, hle]

theorem utf8_of_ascii {text : String} (h : ∀ char ∈ text.toList, char.toNat < 0x80) :
    utf8 text = text.toList.map fun char => UInt8.ofNat char.toNat := by
  rw [utf8_eq_flatMap, List.map_eq_flatMap, List.flatMap_def, List.flatMap_def]
  congr 1
  exact List.map_congr_left fun char hchar => utf8EncodeChar_of_ascii (h char hchar)

theorem utf8_append (left right : String) : utf8 (left ++ right) = utf8 left ++ utf8 right := by
  simp [utf8_eq_flatMap]

theorem utf8_intercalate (separator : String) (texts : List String) :
    utf8 (separator.intercalate texts) = (utf8 separator).intercalate (texts.map utf8) := by
  induction texts with
  | nil => rfl
  | cons first rest ih =>
    cases rest with
    | nil => simp
    | cons second rest =>
      rw [String.intercalate_cons_cons, utf8_append, utf8_append, ih]
      exact (List.intercalate_cons_cons ..).symm

end Text

end BlindToken
