import Mathlib.Data.List.Forall2
import BlindToken.Header.Value
import BlindToken.Proofs.Base64
import BlindToken.Proofs.Bytes

namespace BlindToken

namespace HeaderValue

@[simp] theorem ofBytes?_bytes (value : HeaderValue) : ofBytes? value.bytes = some value :=
  dif_pos value.all_field

-- One character for each byte.
def chars (value : HeaderValue) : List Char := value.bytes.map fun byte => Char.ofNat byte.toNat

-- All bytes are visible characters, spaces and tabs.
def IsVisible (value : HeaderValue) : Prop :=
  ∀ byte ∈ value.bytes, 0x20 ≤ byte ∧ byte ≤ 0x7e ∨ byte = 0x09

private theorem lt_iff_of_isFieldByte {byte : UInt8} (h : isFieldByte byte) :
    byte < 0x80 ↔ 0x20 ≤ byte ∧ byte ≤ 0x7e ∨ byte = 0x09 := by
  simp only [isFieldByte, Bool.or_eq_true, Bool.and_eq_true, decide_eq_true_eq, ← UInt8.toNat_inj,
    UInt8.le_iff_toNat_le, UInt8.lt_iff_toNat_lt, ne_eq, UInt8.reduceToNat] at h ⊢
  omega

theorem ascii?_eq_some_iff {value : HeaderValue} {text : List Char} :
    value.ascii? = some text ↔ value.IsVisible ∧ value.chars = text := by
  have hfield := List.all_eq_true.mp value.all_field
  have hascii : value.bytes.all (· < 0x80) ↔ value.IsVisible := by
    rw [List.all_eq_true]
    refine forall₂_congr fun byte hbyte => ?_
    rw [decide_eq_true_eq]
    exact lt_iff_of_isFieldByte (hfield byte hbyte)
  unfold ascii?
  rw [← hascii]
  split
  · rename_i hall
    rw [Option.some_inj]
    exact ⟨fun h => ⟨hall, h⟩, fun h => h.2⟩
  · rename_i hall
    exact ⟨nofun, fun h => absurd h.1 hall⟩

def IsVisibleChar (char : Char) : Prop := 0x20 ≤ char.toNat ∧ char.toNat ≤ 0x7e

instance (char : Char) : Decidable (IsVisibleChar char) :=
  inferInstanceAs (Decidable (_ ∧ _))

theorem visible_urlEncode (bytes : Bytes) :
    ∀ char ∈ (Base64.urlEncode bytes).toList, IsVisibleChar char := by
  have hsymbol : ∀ value < 64, IsVisibleChar (Base64.url.symbol value) := by decide +kernel
  exact Base64.forall_mem_urlEncode hsymbol (by decide) bytes

theorem exists_ofString?_of_visible {text : String}
    (h : ∀ char ∈ text.toList, IsVisibleChar char) :
    ∃ value, ofString? text = some value ∧ value.bytes = utf8 text ∧ value.IsVisible ∧
      value.chars = text.toList := by
  have hbytes : utf8 text = text.toList.map fun char => UInt8.ofNat char.toNat :=
    utf8_of_ascii fun char hchar => Nat.lt_of_le_of_lt (h char hchar).2 (by decide)
  have hvisible : ∀ byte ∈ utf8 text, 0x20 ≤ byte ∧ byte ≤ 0x7e := by
    rw [hbytes, List.forall_mem_map]
    intro char hchar
    obtain ⟨hlower, hupper⟩ := h char hchar
    have hnat : (UInt8.ofNat char.toNat).toNat = char.toNat :=
      UInt8.toNat_ofNat_of_lt' (Nat.lt_of_le_of_lt hupper (by decide))
    rw [UInt8.le_iff_toNat_le, UInt8.le_iff_toNat_le, hnat]
    exact ⟨hlower, hupper⟩
  have hfield : (utf8 text).all isFieldByte := by
    refine List.all_eq_true.mpr fun byte hbyte => ?_
    obtain ⟨hlower, hupper⟩ := hvisible byte hbyte
    have hne : byte ≠ 0x7f := fun heq => absurd (heq ▸ hupper) (by decide)
    simp [isFieldByte, hlower, hne]
  have hchars : (utf8 text).map (fun byte => Char.ofNat byte.toNat) = text.toList := by
    rw [hbytes, List.map_map]
    refine (List.map_congr_left fun char hchar => ?_).trans (List.map_id _)
    have hnat : (UInt8.ofNat char.toNat).toNat = char.toNat :=
      UInt8.toNat_ofNat_of_lt' (Nat.lt_of_le_of_lt (h char hchar).2 (by decide))
    rw [Function.comp_apply, hnat, Char.ofNat_toNat]
    rfl
  exact ⟨⟨utf8 text, hfield⟩, dif_pos hfield, rfl, fun byte hbyte => .inl (hvisible byte hbyte),
    hchars⟩

section Joined

theorem visible_intercalate {separator : List Char} {texts : List (List Char)}
    (hseparator : ∀ char ∈ separator, IsVisibleChar char)
    (htexts : ∀ text ∈ texts, ∀ char ∈ text, IsVisibleChar char) :
    ∀ char ∈ separator.intercalate texts, IsVisibleChar char := by
  induction texts with
  | nil => nofun
  | cons first rest ih =>
    obtain ⟨hfirst, hrest⟩ := List.forall_mem_cons.mp htexts
    cases rest with
    | nil => simpa using hfirst
    | cons second rest =>
      simp only [List.intercalate_cons_cons, List.forall_mem_append]
      exact ⟨⟨hfirst, hseparator⟩, ih hrest⟩

-- The text of what is joined is the texts, joined.
theorem exists_joined {separator : String} {texts : List String} {fields : List HeaderField}
    (hseparator : ∀ char ∈ separator.toList, IsVisibleChar char)
    (htexts : ∀ text ∈ texts, ∀ char ∈ text.toList, IsVisibleChar char)
    (hfields : List.Forall₂ (fun text field => utf8 text = field.value.bytes) texts fields) :
    ∃ joined, ofBytes?
        ((utf8 separator).intercalate (fields.map fun field => field.value.bytes)) = some joined ∧
      joined.IsVisible ∧ joined.chars = separator.toList.intercalate (texts.map String.toList) := by
  have hbytes : texts.map utf8 = fields.map fun field => field.value.bytes := by
    rwa [← List.forall₂_eq_eq_eq, List.forall₂_map_left_iff, List.forall₂_map_right_iff]
  have hall : ∀ char ∈ (separator.intercalate texts).toList, IsVisibleChar char := by
    rw [String.toList_intercalate]
    exact visible_intercalate hseparator (List.forall_mem_map.mpr htexts)
  obtain ⟨joined, hjoined, -, hvisible, hchars⟩ := exists_ofString?_of_visible hall
  refine ⟨joined, ?_, hvisible, ?_⟩
  · rw [← hbytes, ← utf8_intercalate]
    exact hjoined
  · rw [hchars, String.toList_intercalate]

end Joined

end HeaderValue

end BlindToken
