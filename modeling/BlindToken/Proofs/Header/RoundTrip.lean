import Mathlib.Data.UInt
import BlindToken.Proofs.Base64
import BlindToken.Proofs.Header.ChallengeField
import BlindToken.Proofs.Key.Public
import BlindToken.Proofs.TokenChallenge.Construction

namespace BlindToken

namespace Credentials

theorem ParameterText.of_spelled {vocabulary : Vocabulary} {lead key value written : List Char}
    {isValueChar : Char → Bool} (hlead : ∀ char ∈ lead, isBlank char)
    (hname : vocabulary (lower key) = some isValueChar)
    (hspelled : ValueText isValueChar value written) :
    ParameterText vocabulary ⟨lower key, value⟩ (lead ++ key ++ '=' :: written) := by
  have hblanks : ∀ char ∈ lead ++ [] ++ [] ++ [], isBlank char := by simpa using hlead
  simpa using ParameterText.intro hblanks hname hspelled

end Credentials

namespace ChallengeField

open Credentials

-- What a field is written for.
structure Offer where
  challenge : TokenChallenge
  key : PublicKey
  maxAge : Option UInt64

namespace Offer

variable {offer : Offer}

-- The challenge was made or read, and the key was made. There are no others.
structure IsMade (offer : Offer) : Prop where
  challenge : (∃ tokenType issuer context origins,
      TokenChallenge.make tokenType issuer context origins = .ok offer.challenge) ∨
    ∃ bytes, TokenChallenge.decode bytes = .ok offer.challenge
  key : ∃ numbers, PublicKey.ofNumbers numbers = .ok offer.key

def text (offer : Offer) : String := ChallengeField.text offer.challenge offer.key offer.maxAge

def build (offer : Offer) : Except ChallengeFieldBuildError HeaderField :=
  ChallengeField.build offer.challenge offer.key offer.maxAge

def offered (offer : Offer) : OfferedChallenge where
  challenge := offer.challenge
  tokenKey := offer.key.spki
  maxAge := offer.maxAge

-- The parameters of the field.
def raw (offer : Offer) : RawChallenge where
  challenge := offer.challenge.toBase64Url.toList
  tokenKey := (Base64.urlEncode offer.key.spki).toList
  maxAge := offer.maxAge.map fun age => Nat.toDigits 10 age.toNat

theorem IsMade.isValid_challenge (h : offer.IsMade) : offer.challenge.IsValid := by
  obtain ⟨_, _, _, _, hmake⟩ | ⟨bytes, hdecode⟩ := h.challenge
  · exact TokenChallenge.isValid_of_make hmake
  · exact (TokenChallenge.decode_eq_ok_iff.mp hdecode).2

theorem IsMade.decodes_raw (h : offer.IsMade) : Decodes offer.raw offer.offered where
  challenge := by
    rw [raw, String.ofList_toList, TokenChallenge.ofBase64Url, TokenChallenge.toBase64Url,
      Base64.urlDecode?_urlEncode]
    exact TokenChallenge.decode_encode_of_isValid h.isValid_challenge
  tokenKey := by
    rw [raw, String.ofList_toList, Base64.urlDecode?_urlEncode]
    rfl
  maxAge := by
    obtain ⟨challenge, key, maxAge⟩ := offer
    cases maxAge with
    | none => rfl
    | some age =>
      simp only [raw, offered, Option.map_some, ← ofDigitChars_eq_decimal,
        Nat.ofDigitChars_ten_toDigits]

theorem IsMade.spki_ne_nil (h : offer.IsMade) : offer.key.spki ≠ [] := by
  obtain ⟨numbers, hnumbers⟩ := h.key
  exact PublicKey.spki_ne_nil_of_ofNumbers hnumbers

theorem parameterText_base64 (name : String) (hlower : lower name.toList = name)
    (hname : vocabulary name = some isBase64Char) {lead : List Char}
    (hlead : ∀ char ∈ lead, isBlank char) {bytes : Bytes} (hbytes : bytes ≠ []) :
    ParameterText vocabulary ⟨name, (Base64.urlEncode bytes).toList⟩
      (lead ++ name.toList ++ '=' :: '"' :: ((Base64.urlEncode bytes).toList ++ ['"'])) := by
  rw [← hlower] at hname
  have hparameter := ParameterText.of_spelled hlead hname (.quoted_urlEncode hbytes)
  rwa [hlower] at hparameter

theorem parameterText_maxAge {lead : List Char} (hlead : ∀ char ∈ lead, isBlank char)
    (age : UInt64) : ParameterText vocabulary ⟨"max-age", Nat.toDigits 10 age.toNat⟩
      (lead ++ "max-age".toList ++ '=' :: Nat.toDigits 10 age.toNat) := by
  have hlower : lower "max-age".toList = "max-age" := rfl
  have hname : vocabulary (lower "max-age".toList) = some Char.isDigit := rfl
  have hdigits : ∀ char ∈ Nat.toDigits 10 age.toNat, char.isDigit :=
    fun char => Nat.isDigit_of_mem_toDigits (by decide) (by decide)
  have hparameter := ParameterText.of_spelled hlead hname (.bare Nat.toDigits_ne_nil hdigits)
  rwa [hlower] at hparameter

theorem IsMade.entryText (h : offer.IsMade) {gap : List Char}
    (hgap : ∀ char ∈ gap, isBlank char) :
    EntryText vocabulary offer.raw.parameters (gap ++ offer.text.toList) := by
  have hopening : SchemeText (gap ++ scheme.toList ++ [' ']) :=
    .intro hgap rfl (List.cons_ne_nil _ _) (by simp)
  have hblank : ∀ char ∈ [' '], isBlank char := by simp [isBlank]
  have hnone : ∀ char ∈ ([] : List Char), isBlank char := List.forall_mem_nil _
  have hchallenge := parameterText_base64 "challenge" rfl rfl hnone offer.challenge.encode_ne_nil
  have hkey := parameterText_base64 "token-key" rfl rfl hblank h.spki_ne_nil
  -- between its commas the text is the opening and the parameters
  obtain ⟨challenge, key, maxAge⟩ := offer
  cases maxAge with
  | none =>
    have hentry := EntryText.intro hopening (List.cons_ne_nil _ _)
      (.cons hchallenge (.cons hkey .nil))
    simpa [text, ChallengeField.text, TokenChallenge.toBase64Url, RawChallenge.parameters, raw]
      using hentry
  | some age =>
    have hentry := EntryText.intro hopening (List.cons_ne_nil _ _)
      (.cons hchallenge (.cons hkey (.cons (parameterText_maxAge hblank age) .nil)))
    simpa [text, ChallengeField.text, TokenChallenge.toBase64Url, RawChallenge.parameters, raw]
      using hentry

theorem visible_text (offer : Offer) :
    ∀ char ∈ offer.text.toList, HeaderValue.IsVisibleChar char := by
  simp only [text, ChallengeField.text, TokenChallenge.toBase64Url, String.toList_append,
    List.forall_mem_append]
  have hbase64 := HeaderValue.visible_urlEncode
  refine ⟨⟨⟨⟨⟨⟨?_, ?_⟩, hbase64 _⟩, ?_⟩, hbase64 _⟩, ?_⟩, ?_⟩
  iterate 4 simp [HeaderValue.IsVisibleChar, scheme]
  cases offer.maxAge with
  | none => nofun
  | some age =>
    simp only [Option.elim_some, String.toList_append, List.forall_mem_append,
      Nat.toString_eq_repr, Nat.toList_repr]
    refine ⟨by simp [HeaderValue.IsVisibleChar], fun char hchar => ?_⟩
    have hdigit := Nat.isDigit_of_mem_toDigits (by decide) (by decide) hchar
    simp only [Char.isDigit, ge_iff_le, Bool.and_eq_true, decide_eq_true_eq,
      UInt32.le_iff_toNat_le] at hdigit
    exact ⟨Nat.le_trans (by decide) hdigit.1, Nat.le_trans hdigit.2 (by decide)⟩

theorem exists_build (offer : Offer) :
    ∃ field, offer.build = .ok field ∧ field.value.bytes = utf8 offer.text := by
  obtain ⟨value, hvalue, hbytes, -⟩ := HeaderValue.exists_ofString?_of_visible offer.visible_text
  rw [text] at hvalue
  exact ⟨⟨name, value⟩, by simp [build, ChallengeField.build, hvalue], hbytes⟩

end Offer

section Joined

variable {offers : List Offer} {gap : List Char}

theorem visible_joined (offers : List Offer) (hgap : ∀ char ∈ gap, char = ' ') :
    ∀ char ∈ (',' :: gap).intercalate (offers.map fun offer => offer.text.toList),
      HeaderValue.IsVisibleChar char := by
  have hseparator : ∀ char ∈ ',' :: gap, HeaderValue.IsVisibleChar char := by
    refine List.forall_mem_cons.mpr ⟨by decide, fun char hchar => ?_⟩
    rw [hgap char hchar]
    decide
  exact HeaderValue.visible_intercalate hseparator
    (List.forall_mem_map.mpr fun offer _ => offer.visible_text)

theorem isWritten_joined (hoffers : offers ≠ []) (hgap : ∀ char ∈ gap, char = ' ')
    (hmade : ∀ offer ∈ offers, offer.IsMade) :
    IsWritten (offers.map Offer.raw)
      ((',' :: gap).intercalate (offers.map fun offer => offer.text.toList)) := by
  have hblank : ∀ char ∈ gap, isBlank char := by
    intro char hchar
    rw [hgap char hchar]
    rfl
  obtain ⟨texts, hspelled, hsame⟩ := exists_texts_of_gap
    (fun offer hoffer lead hlead => (hmade offer hoffer).entryText hlead) hblank
  rw [hsame]
  refine ⟨offers.map fun offer => offer.raw.parameters, .intro ?_ ?_, ?_⟩
  · simpa using hoffers
  · exact List.forall₂_map_left_iff.mpr hspelled
  · rw [List.forall₂_map_left_iff, List.forall₂_map_right_iff, List.forall₂_same]
    exact fun _ _ => .refl _

end Joined

-- Fields joined by commas are read back as the list of what they were written for.
theorem parse_joined (offers : List Offer) (hoffers : offers ≠ [])
    (hmade : ∀ offer ∈ offers, offer.IsMade) (separator : String)
    (hseparator : separator = "," ∨ separator = ", ") :
    ∃ fields value, offers.mapM Offer.build = .ok fields ∧
      HeaderValue.ofBytes?
        ((utf8 separator).intercalate (fields.map fun field => field.value.bytes)) = some value ∧
      parse value = .ok (offers.map Offer.offered) := by
  obtain ⟨gap, hcommas, hgap⟩ :
      ∃ gap, separator.toList = ',' :: gap ∧ ∀ char ∈ gap, char = ' ' := by
    rcases hseparator with rfl | rfl
    · exact ⟨[], rfl, nofun⟩
    · exact ⟨[' '], rfl, by simp⟩
  obtain ⟨fields, hfields⟩ := exists_forall₂ fun offer (_ : offer ∈ offers) => offer.exists_build
  have hbytes : fields.map (fun field => field.value.bytes) =
      (offers.map Offer.text).map utf8 := by
    rw [← List.forall₂_eq_eq_eq, List.map_map, List.forall₂_map_left_iff,
      List.forall₂_map_right_iff]
    exact hfields.flip.imp fun _ _ h => h.2
  have hjoined : (separator.intercalate (offers.map Offer.text)).toList =
      (',' :: gap).intercalate (offers.map fun offer => offer.text.toList) := by
    rw [String.toList_intercalate, hcommas, List.map_map]
    rfl
  have hvisible := visible_joined offers hgap
  rw [← hjoined] at hvisible
  obtain ⟨value, hvalue, -, hvalueVisible, hchars⟩ :=
    HeaderValue.exists_ofString?_of_visible hvisible
  have hwritten := isWritten_joined hoffers hgap hmade
  rw [← hjoined, ← hchars] at hwritten
  refine ⟨fields, value, mapM_eq_ok_iff.mpr (hfields.imp fun _ _ h => h.1), ?_, ?_⟩
  · rw [hbytes, ← utf8_intercalate]
    exact hvalue
  · rw [parse_eq_mapM hvalueVisible hwritten, mapM_eq_ok_iff, List.forall₂_map_left_iff,
      List.forall₂_map_right_iff, List.forall₂_same]
    exact fun offer hoffer => decode_eq_ok_iff.mpr (hmade offer hoffer).decodes_raw

-- An accented issuer with the largest age, and one behind it that is as short as can be.
theorem parse_joined_pair :
    ∃ challenge key fields value,
      TokenChallenge.make .blindRsa "é" none ["a", "b"] = .ok challenge ∧
      TokenChallenge.decode [0, 2, 0, 1, 0x61, 0, 0, 0] = .ok shortChallenge ∧
      PublicKey.ofNumbers ⟨2 ^ 2047 + 1, 65537⟩ = .ok key ∧
      [⟨challenge, key, some (2 ^ 64 - 1)⟩, ⟨shortChallenge, key, none⟩].mapM Offer.build =
        .ok fields ∧
      HeaderValue.ofBytes?
        ((utf8 ", ").intercalate (fields.map fun field => field.value.bytes)) = some value ∧
      parse value = .ok
        [⟨challenge, key.spki, some (2 ^ 64 - 1)⟩, ⟨shortChallenge, key.spki, none⟩] := by
  obtain ⟨challenge, hmake⟩ : ∃ challenge,
      TokenChallenge.make .blindRsa "é" none ["a", "b"] = .ok challenge := by
    have hsome : (TokenChallenge.make .blindRsa "é" none ["a", "b"]).toOption.isSome := by
      decide +kernel
    cases hmake : TokenChallenge.make .blindRsa "é" none ["a", "b"] with
    | ok challenge => exact ⟨challenge, rfl⟩
    | error error =>
      rw [hmake] at hsome
      cases hsome
  have hdecode : TokenChallenge.decode [0, 2, 0, 1, 0x61, 0, 0, 0] = .ok shortChallenge := by
    decide +kernel
  have hsupported : PublicKey.IsSupported ⟨2 ^ 2047 + 1, 65537⟩ := by decide +kernel
  obtain ⟨spki, key, hkey, hnumbers⟩ := hsupported.exists_ofSpki
  have hof := (PublicKey.ofSpki_eq_ok_iff.mp hkey).1
  rw [hnumbers] at hof
  let offers : List Offer :=
    [⟨challenge, key, some (2 ^ 64 - 1)⟩, ⟨shortChallenge, key, none⟩]
  have hmade : ∀ offer ∈ offers, offer.IsMade :=
    List.forall_mem_cons.mpr ⟨⟨.inl ⟨_, _, _, _, hmake⟩, _, hof⟩,
      List.forall_mem_singleton.mpr ⟨.inr ⟨_, hdecode⟩, _, hof⟩⟩
  obtain ⟨fields, value, hbuild, hvalue, hparse⟩ :=
    parse_joined offers (List.cons_ne_nil _ _) hmade ", " (.inr rfl)
  exact ⟨challenge, key, fields, value, hmake, hdecode, hof, hbuild, hvalue, hparse⟩

end ChallengeField

end BlindToken
