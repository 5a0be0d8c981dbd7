import Mathlib.Data.Option.Basic
import BlindToken.Base64
import BlindToken.Proofs.Except

namespace BlindToken.Base64

section Groups

-- The values of the symbols, six bits each.
def values (bytes : Bytes) : List Nat := (chunks 3 bytes).flatMap groupValues

theorem chunks_three (first second third : UInt8) (rest : Bytes) :
    chunks 3 (first :: second :: third :: rest) = [first, second, third] :: chunks 3 rest :=
  chunks_of_ne_nil (by decide) (List.cons_ne_nil _ _)

theorem values_three (first second third : UInt8) (rest : Bytes) :
    values (first :: second :: third :: rest) =
      groupValues [first, second, third] ++ values rest := by
  rw [values, chunks_three]
  rfl

-- Groups of bytes stay apart as groups of symbols.
theorem chunks_values : (bytes : Bytes) → chunks 4 (values bytes) = (chunks 3 bytes).map groupValues
  | [] => rfl
  | [_] => rfl
  | [_, _] => rfl
  | first :: second :: third :: rest => by
    rw [values_three, chunks_three, List.map_cons, ← chunks_values rest]
    exact chunks_of_ne_nil (by decide) (List.cons_ne_nil _ _)

theorem flatten_chunks_three : (bytes : Bytes) → (chunks 3 bytes).flatten = bytes
  | [] => rfl
  | [_] => rfl
  | [_, _] => rfl
  | first :: second :: third :: rest => by
    rw [chunks_three, List.flatten_cons, flatten_chunks_three rest]
    rfl

theorem groupValues_lt (group : Bytes) : ∀ value ∈ groupValues group, value < 64 := by
  intro value hvalue
  unfold groupValues at hvalue
  split at hvalue
  · rename_i a
    have ha := a.toNat_lt
    simp only [List.mem_cons, List.not_mem_nil, or_false] at hvalue
    omega
  · rename_i a b
    have ha := a.toNat_lt
    have hb := b.toNat_lt
    simp only [List.mem_cons, List.not_mem_nil, or_false] at hvalue
    omega
  · rename_i a b c
    have ha := a.toNat_lt
    have hb := b.toNat_lt
    have hc := c.toNat_lt
    simp only [List.mem_cons, List.not_mem_nil, or_false] at hvalue
    omega
  · cases hvalue

theorem values_lt (bytes : Bytes) : ∀ value ∈ values bytes, value < 64 := by
  intro value hvalue
  obtain ⟨group, -, hgroup⟩ := List.mem_flatMap.mp hvalue
  exact groupValues_lt group value hgroup

theorem groupBytes?_one (a : UInt8) : groupBytes? (groupValues [a]) = some [a] := by
  have ha : a.toNat / 4 * 4 + a.toNat % 4 * 16 / 16 = a.toNat := by omega
  rw [groupValues, groupBytes?, if_pos (Nat.mul_mod_left _ 16), ha, UInt8.ofNat_toNat]

theorem groupBytes?_two (a b : UInt8) : groupBytes? (groupValues [a, b]) = some [a, b] := by
  have hlt := b.toNat_lt
  have ha : a.toNat / 4 * 4 + (a.toNat % 4 * 16 + b.toNat / 16) / 16 = a.toNat := by omega
  have hb : (a.toNat % 4 * 16 + b.toNat / 16) % 16 * 16 + b.toNat % 16 * 4 / 4 = b.toNat := by
    omega
  rw [groupValues, groupBytes?, if_pos (Nat.mul_mod_left _ 4), ha, hb, UInt8.ofNat_toNat,
    UInt8.ofNat_toNat]

theorem groupBytes?_three (a b c : UInt8) :
    groupBytes? (groupValues [a, b, c]) = some [a, b, c] := by
  have hlt := b.toNat_lt
  have hlast := c.toNat_lt
  have ha : a.toNat / 4 * 4 + (a.toNat % 4 * 16 + b.toNat / 16) / 16 = a.toNat := by omega
  have hb : (a.toNat % 4 * 16 + b.toNat / 16) % 16 * 16 +
      (b.toNat % 16 * 4 + c.toNat / 64) / 4 = b.toNat := by omega
  have hc : (b.toNat % 16 * 4 + c.toNat / 64) % 4 * 64 + c.toNat % 64 = c.toNat := by omega
  rw [groupValues, groupBytes?, ha, hb, hc, UInt8.ofNat_toNat, UInt8.ofNat_toNat,
    UInt8.ofNat_toNat]

theorem groupBytes?_groupValues : (bytes : Bytes) → ∀ group ∈ chunks 3 bytes,
    groupBytes? (groupValues group) = some group
  | [] => nofun
  | [a] => List.forall_mem_singleton.mpr (groupBytes?_one a)
  | [a, b] => List.forall_mem_singleton.mpr (groupBytes?_two a b)
  | a :: b :: c :: rest => by
    rw [chunks_three]
    exact List.forall_mem_cons.mpr ⟨groupBytes?_three a b c, groupBytes?_groupValues rest⟩

end Groups

-- Every value has a symbol of its own, and none is the padding.
structure Alphabet.IsFaithful (alphabet : Alphabet) : Prop where
  value?_symbol : ∀ value < 64, alphabet.value? (alphabet.symbol value) = some value
  symbol_ne : ∀ value < 64, alphabet.symbol value ≠ '='

theorem url_isFaithful : url.IsFaithful where
  value?_symbol := by decide
  symbol_ne := by decide

theorem standard_isFaithful : standard.IsFaithful where
  value?_symbol := by decide
  symbol_ne := by decide

theorem symbols_eq (alphabet : Alphabet) (bytes : Bytes) :
    symbols alphabet bytes = (values bytes).map alphabet.symbol := rfl

theorem Padding.accepts_paddingAfter (padding : Padding) (count : Nat) :
    padding.Accepts count (paddingAfter count) := by
  cases padding with
  | required => rfl
  | optional => exact Nat.le_refl _

-- Fewer padding characters than are written are enough for a reader that accepts them.
theorem decode?_symbols_append {alphabet : Alphabet} (halphabet : alphabet.IsFaithful)
    {padding : Padding} {bytes : Bytes} {count : Nat}
    (hcount : padding.Accepts (symbols alphabet bytes).length count) :
    decode? alphabet padding (symbols alphabet bytes ++ List.replicate count '=') = some bytes := by
  have hbody : ∀ char ∈ symbols alphabet bytes, decide (char ≠ '=') = true := by
    rw [symbols_eq, List.forall_mem_map]
    intro value hvalue
    exact decide_eq_true (halphabet.symbol_ne value (values_lt bytes value hvalue))
  have htake : (symbols alphabet bytes ++ List.replicate count '=').takeWhile (· ≠ '=') =
      symbols alphabet bytes := by
    rw [List.takeWhile_append_of_pos hbody]
    simp
  have hdrop : (symbols alphabet bytes ++ List.replicate count '=').dropWhile (· ≠ '=') =
      List.replicate count '=' := by
    rw [List.dropWhile_append_of_pos hbody]
    simp
  have hvalues : (symbols alphabet bytes).mapM alphabet.value? = some (values bytes) := by
    rw [symbols_eq, mapM_eq_some_iff, List.forall₂_map_left_iff, List.forall₂_same]
    exact fun value hvalue => halphabet.value?_symbol value (values_lt bytes value hvalue)
  have hgroups : (chunks 4 (values bytes)).mapM groupBytes? = some (chunks 3 bytes) := by
    rw [chunks_values, mapM_eq_some_iff, List.forall₂_map_left_iff, List.forall₂_same]
    exact groupBytes?_groupValues bytes
  have hrest : (List.replicate count '=').all (· = '=') ∧
      padding.Accepts (symbols alphabet bytes).length (List.replicate count '=').length := by
    rw [List.length_replicate]
    exact ⟨by simp, hcount⟩
  rw [decode?, htake, hdrop]
  refine Option.bind_eq_some_iff.mpr ⟨(), (Option.guard_eq_some' _).mpr hrest, ?_⟩
  refine Option.bind_eq_some_iff.mpr ⟨values bytes, hvalues, ?_⟩
  exact Option.bind_eq_some_iff.mpr ⟨chunks 3 bytes, hgroups,
    congrArg some (flatten_chunks_three bytes)⟩

-- What is written is read back, for every alphabet that tells its symbols apart.
theorem decode?_encode {alphabet : Alphabet} (halphabet : alphabet.IsFaithful) (padding : Padding)
    (bytes : Bytes) : decode? alphabet padding (encode alphabet bytes) = some bytes :=
  decode?_symbols_append halphabet (padding.accepts_paddingAfter _)

theorem encode_ne_nil {alphabet : Alphabet} (halphabet : alphabet.IsFaithful) {bytes : Bytes}
    (h : bytes ≠ []) : encode alphabet bytes ≠ [] := by
  intro hempty
  have hread := decode?_encode halphabet .required bytes
  rw [hempty] at hread
  exact h (Option.some.inj hread).symm

theorem forall_mem_encode {alphabet : Alphabet} {P : Char → Prop}
    (hsymbol : ∀ value < 64, P (alphabet.symbol value)) (hpadding : P '=') (bytes : Bytes) :
    ∀ char ∈ encode alphabet bytes, P char := by
  rw [encode, List.forall_mem_append]
  constructor
  · rw [symbols_eq, List.forall_mem_map]
    exact fun value hvalue => hsymbol value (values_lt bytes value hvalue)
  · intro char hchar
    rwa [List.eq_of_mem_replicate hchar]

theorem urlDecode?_urlEncode (bytes : Bytes) : urlDecode? (urlEncode bytes) = some bytes := by
  rw [urlDecode?, urlEncode, String.toList_ofList]
  exact decode?_encode url_isFaithful .optional bytes

theorem forall_mem_urlEncode {P : Char → Prop} (hsymbol : ∀ value < 64, P (url.symbol value))
    (hpadding : P '=') (bytes : Bytes) : ∀ char ∈ (urlEncode bytes).toList, P char := by
  rw [urlEncode, String.toList_ofList]
  exact forall_mem_encode hsymbol hpadding bytes

theorem urlEncode_ne_nil {bytes : Bytes} (h : bytes ≠ []) : (urlEncode bytes).toList ≠ [] := by
  rw [urlEncode, String.toList_ofList]
  exact encode_ne_nil url_isFaithful h

end BlindToken.Base64
