import Mathlib.Data.List.Induction
import Mathlib.Data.Nat.Digits.Defs
import BlindToken.Header.ChallengeField
import BlindToken.Proofs.Header.Grammar
import BlindToken.Proofs.Header.Value

namespace BlindToken

namespace ChallengeField

open Credentials

theorem vocabulary_eq_some_iff {name : String} {isValueChar : Char → Bool} :
    vocabulary name = some isValueChar ↔
      (name = "challenge" ∨ name = "token-key") ∧ isValueChar = isBase64Char ∨
        name = "max-age" ∧ isValueChar = Char.isDigit := by
  unfold vocabulary
  split <;> simp_all [eq_comm]

theorem vocabulary_plain : vocabulary.Plain where
  nonempty := rfl
  names name isValueChar hname := by
    rcases vocabulary_eq_some_iff.mp hname with ⟨rfl | rfl, -⟩ | ⟨rfl, -⟩ <;> decide
  scheme := by decide
  values name isValueChar hname char hchar := by
    rcases vocabulary_eq_some_iff.mp hname with ⟨-, rfl⟩ | ⟨-, rfl⟩
    · exact hchar
    · simp [isBase64Char, Char.isAlphanum, hchar]

-- The parameters of a challenge, in one of their orders.
def RawChallenge.parameters (raw : RawChallenge) : Entry :=
  ⟨"challenge", raw.challenge⟩ :: ⟨"token-key", raw.tokenKey⟩ ::
    raw.maxAge.toList.map (Parameter.mk "max-age")

-- A list of challenges, each with its parameters in any order.
def IsWritten (raws : List RawChallenge) (text : List Char) : Prop :=
  ∃ entries, ListText vocabulary entries text ∧
    List.Forall₂ (fun entry raw => entry.Perm raw.parameters) entries raws

section Raw

variable {entry : Entry} {raw : RawChallenge}

theorem raw?_eq_some_iff_filter : raw? entry = some raw ↔
    entry.filter (·.name = "challenge") = [⟨"challenge", raw.challenge⟩] ∧
      entry.filter (·.name = "token-key") = [⟨"token-key", raw.tokenKey⟩] ∧
      entry.filter (·.name = "max-age") = raw.maxAge.toList.map (Parameter.mk "max-age") := by
  rw [← Entry.required?_eq_some_iff, ← Entry.required?_eq_some_iff, ← Entry.optional?_eq_some_iff]
  constructor
  · intro h
    obtain ⟨challenge, hchallenge, h⟩ := Option.bind_eq_some_iff.mp h
    obtain ⟨tokenKey, htokenKey, h⟩ := Option.bind_eq_some_iff.mp h
    obtain ⟨maxAge, hmaxAge, h⟩ := Option.bind_eq_some_iff.mp h
    obtain rfl := Option.some.inj h
    exact ⟨hchallenge, htokenKey, hmaxAge⟩
  · rintro ⟨hchallenge, htokenKey, hmaxAge⟩
    simp [raw?, hchallenge, htokenKey, hmaxAge]

theorem raw?_eq_some_iff
    (hnames : ∀ parameter ∈ entry, ∃ isValueChar, vocabulary parameter.name = some isValueChar) :
    raw? entry = some raw ↔ entry.Perm raw.parameters := by
  have hknown : ∀ parameter ∈ entry, parameter.name = "challenge" ∨
      parameter.name = "token-key" ∨ parameter.name = "max-age" := by
    intro parameter hparameter
    obtain ⟨isValueChar, hname⟩ := hnames parameter hparameter
    rcases vocabulary_eq_some_iff.mp hname with ⟨hname | hname, -⟩ | ⟨hname, -⟩ <;> simp [hname]
  rw [raw?_eq_some_iff_filter]
  constructor
  · rintro ⟨hchallenge, htokenKey, hmaxAge⟩
    let others := entry.filter fun parameter => !decide (parameter.name = "challenge")
    have hkey : others.filter (·.name = "token-key") = entry.filter (·.name = "token-key") := by
      rw [List.filter_filter]
      refine List.filter_congr fun parameter _ => ?_
      by_cases hname : parameter.name = "token-key" <;> simp [hname]
    have hage : others.filter (fun parameter => !decide (parameter.name = "token-key")) =
        entry.filter (·.name = "max-age") := by
      rw [List.filter_filter]
      refine List.filter_congr fun parameter hparameter => ?_
      rcases hknown parameter hparameter with hname | hname | hname <;> simp [hname]
    have hfirst := List.filter_append_perm (fun parameter => parameter.name = "challenge") entry
    have hrest := List.filter_append_perm (fun parameter => parameter.name = "token-key") others
    rw [hchallenge] at hfirst
    rw [hkey, hage, htokenKey, hmaxAge] at hrest
    exact hfirst.symm.trans (hrest.symm.append_left _)
  · intro hperm
    have hfilter (name : String) : (entry.filter (·.name = name)).Perm
        (raw.parameters.filter (·.name = name)) := hperm.filter _
    refine ⟨?_, ?_, ?_⟩
    · refine List.perm_singleton.mp ((hfilter "challenge").trans (.of_eq ?_))
      cases hage : raw.maxAge <;> simp [RawChallenge.parameters, hage]
    · refine List.perm_singleton.mp ((hfilter "token-key").trans (.of_eq ?_))
      cases hage : raw.maxAge <;> simp [RawChallenge.parameters, hage]
    · have hlast := hfilter "max-age"
      cases hage : raw.maxAge with
      | none => simpa [RawChallenge.parameters, hage] using hlast
      | some digits => simpa [RawChallenge.parameters, hage] using hlast

theorem isWritten_iff {raws : List RawChallenge} {text : List Char} :
    (∃ entries, entries? vocabulary text = some entries ∧ entries.mapM raw? = some raws) ↔
      IsWritten raws text := by
  refine exists_congr fun entries => ?_
  rw [entries?_eq_some_iff vocabulary_plain, mapM_eq_some_iff]
  refine and_congr_right fun hlist => ?_
  have hnames : ∀ entry ∈ entries, ∀ parameter ∈ entry,
      ∃ isValueChar, vocabulary parameter.name = some isValueChar := by
    obtain ⟨-, hspelled⟩ := hlist
    exact forall_mem_of_forall₂ hspelled fun _ _ h => h.exists_class
  constructor
  · intro hraws
    refine ((List.forall₂_and_left _ _).mpr ⟨hnames, hraws⟩).imp ?_
    rintro entry raw ⟨hentry, hraw⟩
    exact (raw?_eq_some_iff hentry).mp hraw
  · intro hraws
    refine ((List.forall₂_and_left _ _).mpr ⟨hnames, hraws⟩).imp ?_
    rintro entry raw ⟨hentry, hperm⟩
    exact (raw?_eq_some_iff hentry).mpr hperm

end Raw

section Decode

variable {raw : RawChallenge} {offered : OfferedChallenge} {error : ChallengeFieldError}

-- The number that the digits write in base ten, most significant digit first.
def decimal (digits : List Char) : Nat :=
  Nat.ofDigits 10 (digits.reverse.map fun digit => digit.toNat - '0'.toNat)

theorem ofDigitChars_eq_decimal (digits : List Char) :
    Nat.ofDigitChars 10 digits 0 = decimal digits := by
  induction digits using List.reverseRecOn with
  | nil => rfl
  | append_singleton digits last ih =>
    have hlast : Nat.ofDigitChars 10 (digits ++ [last]) 0 =
        10 * Nat.ofDigitChars 10 digits 0 + (last.toNat - '0'.toNat) := by
      simp [Nat.ofDigitChars]
    rw [hlast, ih, decimal, decimal, List.reverse_append, List.reverse_singleton,
      List.singleton_append, List.map_cons, Nat.ofDigits_cons, Nat.add_comm]

structure Decodes (raw : RawChallenge) (offered : OfferedChallenge) : Prop where
  challenge : TokenChallenge.ofBase64Url (String.ofList raw.challenge) = .ok offered.challenge
  tokenKey : Base64.urlDecode? (String.ofList raw.tokenKey) = some offered.tokenKey
  maxAge : offered.maxAge.map UInt64.toNat = raw.maxAge.map decimal

-- The first parameter that does not decode, in the order of the constructors.
inductive Fails (raw : RawChallenge) : ChallengeFieldError → Prop where
  | challenge {failure : ProtocolError}
      (fails : TokenChallenge.ofBase64Url (String.ofList raw.challenge) = .error failure) :
      Fails raw .invalidChallenge
  | tokenKey {challenge : TokenChallenge}
      (decodes : TokenChallenge.ofBase64Url (String.ofList raw.challenge) = .ok challenge)
      (fails : Base64.urlDecode? (String.ofList raw.tokenKey) = none) : Fails raw .invalidTokenKey
  | maxAge {challenge : TokenChallenge} {tokenKey : Bytes} {digits : List Char}
      (decodes : TokenChallenge.ofBase64Url (String.ofList raw.challenge) = .ok challenge)
      (decodesKey : Base64.urlDecode? (String.ofList raw.tokenKey) = some tokenKey)
      (written : raw.maxAge = some digits) (fails : 2 ^ 64 ≤ decimal digits) :
      Fails raw .invalidMaxAge

theorem decode_eq_ok_iff : decode raw = .ok offered ↔ Decodes raw offered := by
  constructor
  · intro h
    unfold decode at h
    split at h
    · rename_i challenge hchallenge
      split at h
      · rename_i tokenKey htokenKey
        split at h
        · rename_i hage
          obtain rfl := Except.ok.inj h
          refine ⟨hchallenge, htokenKey, ?_⟩
          obtain hnone : raw.maxAge = none := Option.map_eq_none_iff.mp hage
          rw [hnone]
          rfl
        · rename_i age hage
          split at h
          · rename_i hlt
            obtain rfl := Except.ok.inj h
            refine ⟨hchallenge, htokenKey, ?_⟩
            simp only [ofDigitChars_eq_decimal] at hage
            rw [hage, Option.map_some, UInt64.toNat_ofNat_of_lt' hlt]
          · cases h
      · cases h
    · cases h
  · rintro ⟨hchallenge, htokenKey, hage⟩
    obtain ⟨challenge, tokenKey, maxAge⟩ := offered
    simp only [decode, hchallenge, htokenKey, ofDigitChars_eq_decimal, ← hage]
    cases maxAge with
    | none => rfl
    | some age =>
      have hlt : age.toNat < UInt64.size := age.toNat_lt_size
      simp [hlt, pure, Except.pure]

theorem decode_eq_error_iff : decode raw = .error error ↔ Fails raw error := by
  constructor
  · intro h
    unfold decode at h
    split at h
    · rename_i challenge hchallenge
      split at h
      · rename_i tokenKey htokenKey
        split at h
        · cases h
        · rename_i age hage
          split at h
          · cases h
          · rename_i hlarge
            obtain rfl := Except.error.inj h
            obtain ⟨digits, hdigits, rfl⟩ := Option.map_eq_some_iff.mp hage
            refine .maxAge hchallenge htokenKey hdigits ?_
            rw [← ofDigitChars_eq_decimal]
            exact Nat.le_of_not_lt hlarge
      · rename_i hfails
        obtain rfl := Except.error.inj h
        exact .tokenKey hchallenge (Option.eq_none_iff_forall_ne_some.mpr hfails)
    · rename_i hfails
      obtain rfl := Except.error.inj h
      cases hchallenge : TokenChallenge.ofBase64Url (String.ofList raw.challenge) with
      | ok challenge => exact absurd hchallenge (hfails challenge)
      | error failure => exact .challenge hchallenge
  · intro h
    cases h with
    | challenge hfails =>
      simp only [decode, hfails]
      rfl
    | tokenKey hchallenge hfails =>
      simp only [decode, hchallenge, hfails]
      rfl
    | maxAge hchallenge htokenKey hdigits hlarge =>
      have hnot : ¬decimal _ < UInt64.size := Nat.not_lt.mpr hlarge
      simp only [decode, hchallenge, htokenKey, hdigits, Option.map_some, ofDigitChars_eq_decimal,
        hnot, if_false]
      rfl

end Decode

section Parse

variable {value : HeaderValue} {raws : List RawChallenge}

-- A text of the grammar has one reading.
theorem parse_eq_mapM (hvisible : value.IsVisible) (hwritten : IsWritten raws value.chars) :
    parse value = raws.mapM decode := by
  obtain ⟨entries, hentries, hraws⟩ := isWritten_iff.mpr hwritten
  have hascii := HeaderValue.ascii?_eq_some_iff.mpr ⟨hvisible, rfl⟩
  simp only [parse, hascii, Option.bind_eq_bind, Option.bind_some, hentries, hraws]

theorem parse_eq_invalidInput
    (hnot : ¬(value.IsVisible ∧ ∃ raws, IsWritten raws value.chars)) :
    parse value = .error .invalidInput := by
  unfold parse
  dsimp only
  split
  · rename_i raws hraws
    obtain ⟨text, hascii, hread⟩ := Option.bind_eq_some_iff.mp hraws
    obtain ⟨hvisible, rfl⟩ := HeaderValue.ascii?_eq_some_iff.mp hascii
    obtain ⟨entries, hentries, hlist⟩ := Option.bind_eq_some_iff.mp hread
    exact absurd ⟨hvisible, raws, isWritten_iff.mp ⟨entries, hentries, hlist⟩⟩ hnot
  · rfl

-- Exactly the texts of the grammar are read, and the result is what the parameters decode to, or
-- the error of the first parameter that does not decode.
theorem parse_accepts_grammar (value : HeaderValue) :
    (parse value ≠ .error .invalidInput ↔
        value.IsVisible ∧ ∃ raws, IsWritten raws value.chars) ∧
      ∀ raws, value.IsVisible → IsWritten raws value.chars →
        (∀ offereds, parse value = .ok offereds ↔ List.Forall₂ Decodes raws offereds) ∧
        ∀ error, parse value = .error error ↔ ∃ front raw back, raws = front ++ raw :: back ∧
          (∀ other ∈ front, ∃ offered, Decodes other offered) ∧ Fails raw error := by
  have herror {raws : List RawChallenge} {error : ChallengeFieldError} :
      raws.mapM decode = .error error ↔ ∃ front raw back, raws = front ++ raw :: back ∧
        (∀ other ∈ front, ∃ offered, Decodes other offered) ∧ Fails raw error := by
    simp only [mapM_eq_error_iff, decode_eq_error_iff, decode_eq_ok_iff]
  refine ⟨⟨fun hread => ?_, ?_⟩, fun raws hvisible hwritten => ⟨?_, ?_⟩⟩
  · exact Classical.byContradiction fun hnot => hread (parse_eq_invalidInput hnot)
  · rintro ⟨hvisible, raws, hwritten⟩ hinvalid
    rw [parse_eq_mapM hvisible hwritten] at hinvalid
    obtain ⟨-, raw, -, -, -, hfails⟩ := herror.mp hinvalid
    cases hfails
  · intro offereds
    rw [parse_eq_mapM hvisible hwritten, mapM_eq_ok_iff]
    simp only [decode_eq_ok_iff]
  · intro error
    rw [parse_eq_mapM hvisible hwritten]
    exact herror

end Parse

-- A challenge with nothing in it but its type and its issuer.
def shortChallenge : TokenChallenge where
  tokenType := 2
  issuerBytes := ⟨[0x61], by decide⟩
  contextBytes := ⟨[], by decide⟩
  originBytes := ⟨[], by decide⟩

-- It is asked for twice, with names in any case, and blanks and quotes where they may stand.
def twoChallenges : HeaderValue where
  bytes := utf8 ("privateTOKEN  Token-Key=\"AA\" ,challenge = AAIAAWEAAAA" ++
    ",\tPrivateToken max-age=007,CHALLENGE=\"AAIAAWEAAAA=\",token-key=AAE=")
  all_field := by decide +kernel

theorem parse_twoChallenges :
    let raws : List RawChallenge :=
      [⟨"AAIAAWEAAAA".toList, "AA".toList, none⟩,
        ⟨"AAIAAWEAAAA=".toList, "AAE=".toList, some "007".toList⟩]
    twoChallenges.IsVisible ∧ IsWritten raws twoChallenges.chars ∧
      parse twoChallenges = .ok [⟨shortChallenge, [0], none⟩, ⟨shortChallenge, [0, 1], some 7⟩] := by
  intro raws
  have hvisible : twoChallenges.IsVisible := by
    unfold HeaderValue.IsVisible
    decide +kernel
  have hentries : entries? vocabulary twoChallenges.chars = some
      [[⟨"token-key", "AA".toList⟩, ⟨"challenge", "AAIAAWEAAAA".toList⟩],
        [⟨"max-age", "007".toList⟩, ⟨"challenge", "AAIAAWEAAAA=".toList⟩,
          ⟨"token-key", "AAE=".toList⟩]] := by
    decide +kernel
  have hwritten : IsWritten raws twoChallenges.chars := isWritten_iff.mp ⟨_, hentries, rfl⟩
  have hfirst : Decodes ⟨"AAIAAWEAAAA".toList, "AA".toList, none⟩
      ⟨shortChallenge, [0], none⟩ :=
    ⟨by decide +kernel, by decide +kernel, rfl⟩
  have hsecond : Decodes ⟨"AAIAAWEAAAA=".toList, "AAE=".toList, some "007".toList⟩
      ⟨shortChallenge, [0, 1], some 7⟩ :=
    ⟨by decide +kernel, by decide +kernel, by decide +kernel⟩
  obtain ⟨hok, -⟩ := (parse_accepts_grammar twoChallenges).2 raws hvisible hwritten
  exact ⟨hvisible, hwritten, (hok _).mpr (.cons hfirst (.cons hsecond .nil))⟩

end ChallengeField

end BlindToken
