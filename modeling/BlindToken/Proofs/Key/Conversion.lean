import BlindToken.Proofs.Der.Form
import BlindToken.Proofs.Key.Spki

namespace BlindToken

namespace Der

theorem length_writeLength_mono {length other : Nat} (h : length ≤ other) :
    (writeLength length).length ≤ (writeLength other).length := by
  have hwidth : Bytes.widthOf length ≤ Bytes.widthOf other :=
    Bytes.widthOf_le (Nat.succ_pos _) (Nat.lt_of_le_of_lt h (Bytes.lt_pow_widthOf other))
  unfold writeLength
  split <;> split <;> simp <;> omega

theorem lt_length_writeLength (width : Nat) {length : Nat} (hlarge : 0x80 ≤ length)
    (h : 256 ^ width ≤ length) : width + 1 < (writeLength length).length := by
  have hwidth := Bytes.lt_widthOf h
  rw [writeLength, if_neg (Nat.not_lt.mpr hlarge), List.length_cons, Bytes.length_ofNat]
  omega

theorem Element.length_encode_mono {element other : Element}
    (h : element.content.length ≤ other.content.length) :
    element.encode.length ≤ other.encode.length := by
  have hlength := length_writeLength_mono h
  rw [length_encode, length_encode]
  omega

end Der

namespace Spki

-- The object identifier of RSA as an element.
def rsaIdentifierForm : Bytes :=
  [0x06, 0x09, 0x2a, 0x86, 0x48, 0x86, 0xf7, 0x0d, 0x01, 0x01, 0x01]

-- RSA with null for parameters.
def plainAlgorithmForm : Bytes := [0x30, 0x0d] ++ rsaIdentifierForm ++ [0x05, 0x00]

-- The scheme, SHA-384 as its hash, the mask with the same hash, and the size of the salt.
def tokenAlgorithmForm : Bytes := [
  0x30, 0x3d, 0x06, 0x09, 0x2a, 0x86, 0x48, 0x86, 0xf7, 0x0d, 0x01, 0x01, 0x0a, 0x30, 0x30,
  0xa0, 0x0d, 0x30, 0x0b, 0x06, 0x09, 0x60, 0x86, 0x48, 0x01, 0x65, 0x03, 0x04, 0x02, 0x02,
  0xa1, 0x1a, 0x30, 0x18, 0x06, 0x09, 0x2a, 0x86, 0x48, 0x86, 0xf7, 0x0d, 0x01, 0x01, 0x08,
  0x30, 0x0b, 0x06, 0x09, 0x60, 0x86, 0x48, 0x01, 0x65, 0x03, 0x04, 0x02, 0x02,
  0xa2, 0x03, 0x02, 0x01, 0x30]

-- RSA with one value for parameters, or without parameters.
inductive RsaForm : Bytes → Prop where
  | bare {bytes : Bytes} (sequence : Der.ElementForm 0x30 rsaIdentifierForm bytes) : RsaForm bytes
  | parametrised {tag : UInt8} {content parameters bytes : Bytes} (known : Der.isKnownTag tag)
      (value : Der.ElementForm tag content parameters)
      (sequence : Der.ElementForm 0x30 (rsaIdentifierForm ++ parameters) bytes) : RsaForm bytes

-- An algorithm and a bit string of whole bytes.
inductive DocumentForm (algorithm key : Bytes) : Bytes → Prop where
  | intro {bits bytes : Bytes} (bitString : Der.ElementForm 0x03 (0 :: key) bits)
      (sequence : Der.ElementForm 0x30 (algorithm ++ bits) bytes) :
      DocumentForm algorithm key bytes

variable {bytes token plain key : Bytes} {algorithm : Algorithm}

theorem encode_rsa : Algorithm.rsa.element.encode = plainAlgorithmForm := by decide

theorem encode_rsaPss : Algorithm.rsaPss.element.encode = tokenAlgorithmForm := by decide

theorem DocumentForm.eq_encode (h : DocumentForm algorithm.element.encode key bytes) :
    bytes = (Der.sequence [algorithm.element, Der.bitString key]).encode := by
  obtain ⟨hbits, hdocument⟩ := h
  rw [hdocument.eq_encode, hbits.eq_encode]
  simp [Der.sequence, Der.bitString, Der.bitStringTag, Der.sequenceTag]

theorem encode?_eq_some_iff_form : encode? ⟨algorithm, key⟩ = some bytes ↔
    bytes.length ≤ Der.lengthLimit ∧ DocumentForm algorithm.element.encode key bytes := by
  rw [encode?_eq_some_iff]
  refine and_congr_right fun hlength => ⟨?_, DocumentForm.eq_encode⟩
  rintro rfl
  obtain ⟨-, hbits⟩ := Der.length_parts_le algorithm.element (Der.bitString key)
  have hcontent := (Der.sequence [algorithm.element, Der.bitString key]).length_content_le
  have hkey : Der.ElementForm 0x03 (0 :: key) (Der.bitString key).encode :=
    (Der.elementForm_iff (Nat.le_trans hbits hlength)).mpr rfl
  refine .intro hkey ?_
  rw [← Der.content_sequence_pair]
  exact (Der.elementForm_iff (Nat.le_trans hcontent hlength)).mpr rfl

theorem DocumentForm.length_algorithm_le {algorithm : Bytes}
    (h : DocumentForm algorithm key bytes) : algorithm.length ≤ bytes.length := by
  obtain ⟨-, hdocument⟩ := h
  rename_i bits
  have hcontent := Der.Element.length_content_le ⟨0x30, algorithm ++ bits⟩
  rw [← hdocument.eq_encode, List.length_append] at hcontent
  exact Nat.le_of_add_right_le hcontent

theorem encode_objectIdentifier_rsa :
    (Der.objectIdentifier Algorithm.rsaIdentifier).encode = rsaIdentifierForm := by decide

theorem rsaForm_iff (hlength : bytes.length ≤ Der.lengthLimit) : RsaForm bytes ↔
    ∃ algorithm : Algorithm, algorithm.identifier = Algorithm.rsaIdentifier ∧
      algorithm.HasKnownParameters ∧ algorithm.element.encode = bytes := by
  constructor
  · intro h
    cases h with
    | bare hsequence =>
      refine ⟨⟨Algorithm.rsaIdentifier, none⟩, rfl, nofun, ?_⟩
      rw [hsequence.eq_encode]
      rfl
    | @parametrised tag content _ _ hknown hparameters hsequence =>
      refine ⟨⟨Algorithm.rsaIdentifier, some ⟨tag, content⟩⟩, rfl, ?_, ?_⟩
      · rintro _ ⟨⟩
        exact hknown
      · rw [hsequence.eq_encode, hparameters.eq_encode, ← encode_objectIdentifier_rsa]
        simp [Algorithm.element, Der.sequence, Der.sequenceTag]
  · rintro ⟨algorithm, hidentifier, hknown, rfl⟩
    have hcontent := Nat.le_trans algorithm.element.length_content_le hlength
    have hsequence : Der.ElementForm 0x30 algorithm.element.content algorithm.element.encode :=
      (Der.elementForm_iff hcontent).mpr rfl
    rw [Algorithm.content_element, hidentifier, encode_objectIdentifier_rsa]
      at hsequence hcontent
    cases hparameters : algorithm.parameters with
    | none =>
      simp only [hparameters, Option.toList_none, List.flatMap_nil, List.append_nil] at hsequence
      exact .bare hsequence
    | some parameters =>
      have hvalueLength := parameters.length_content_le
      simp only [hparameters, Option.toList_some, List.flatMap_singleton, List.length_append]
        at hsequence hcontent
      have hvalue : Der.ElementForm parameters.tag parameters.content parameters.encode :=
        (Der.elementForm_iff (by omega)).mpr rfl
      exact .parametrised (hknown parameters hparameters) hvalue hsequence

-- The token form is the longer one.
theorem exists_plain (h : encode? ⟨Algorithm.rsaPss, key⟩ = some token) :
    ∃ plain, encode? ⟨Algorithm.rsa, key⟩ = some plain := by
  obtain ⟨hlength, rfl⟩ := encode?_eq_some_iff.mp h
  refine ⟨_, encode?_eq_some_iff.mpr ⟨Nat.le_trans ?_ hlength, rfl⟩⟩
  refine Der.Element.length_encode_mono ?_
  simp only [Der.content_sequence_pair, encode_rsa, encode_rsaPss, List.length_append]
  exact Nat.add_le_add_right (by decide) _

-- How long a key may be. The long ones have counts of four bytes in both places.
theorem exists_token_iff : (∃ token, encode? ⟨Algorithm.rsaPss, key⟩ = some token) ↔
    key.length + 76 ≤ Der.lengthLimit := by
  have halgorithm : tokenAlgorithmForm.length = 63 := by decide
  have hcontent : (Der.sequence [Algorithm.rsaPss.element, Der.bitString key]).content.length =
      63 + (Der.bitString key).encode.length := by
    rw [Der.content_sequence_pair, encode_rsaPss, List.length_append, halgorithm]
  constructor
  · rintro ⟨token, htoken⟩
    obtain ⟨hlength, hencode⟩ := encode?_eq_some_iff.mp htoken
    rw [hencode] at hlength
    dsimp only at hlength
    have hbits := (Der.bitString key).length_encode
    have hdocument := (Der.sequence [Algorithm.rsaPss.element, Der.bitString key]).length_encode
    have hkey : (Der.bitString key).content.length = key.length + 1 := List.length_cons
    by_contra hlong
    unfold Der.lengthLimit at *
    have hinner : 4 < (Der.writeLength (Der.bitString key).content.length).length :=
      Der.lt_length_writeLength 3 (by omega) (by omega)
    have houter : 4 < (Der.writeLength
        (Der.sequence [Algorithm.rsaPss.element, Der.bitString key]).content.length).length :=
      Der.lt_length_writeLength 3 (by omega) (by omega)
    omega
  · intro h
    refine ⟨_, encode?_eq_some_iff.mpr ⟨?_, rfl⟩⟩
    unfold Der.lengthLimit at *
    have hbits : (Der.bitString key).encode.length ≤ key.length + 1 + 4 + 2 :=
      Der.Element.length_encode_le (show 0 < 4 by decide) (show key.length + 1 < 256 ^ 4 by omega)
    have hdocument := Der.Element.length_encode_le (show 0 < 4 by decide)
      (show (Der.sequence [Algorithm.rsaPss.element, Der.bitString key]).content.length < 256 ^ 4
        by omega)
    exact Nat.le_trans hdocument (by omega)

theorem plainToToken_eq_ok_iff : plainToToken plain = .ok token ↔
    ∃ info, decode? plain = some info ∧
      info.algorithm.identifier = Algorithm.rsaIdentifier ∧
      encode? ⟨Algorithm.rsaPss, info.key⟩ = some token := by
  constructor
  · intro h
    simp only [plainToToken] at h
    split at h
    · rename_i htoken
      obtain rfl := Except.ok.inj h
      obtain ⟨info, hdecode, htoken⟩ := Option.bind_eq_some_iff.mp htoken
      obtain ⟨⟨⟩, hidentifier, htoken⟩ := Option.bind_eq_some_iff.mp htoken
      exact ⟨info, hdecode, (Option.guard_eq_some' _).mp hidentifier, htoken⟩
    · cases h
  · rintro ⟨info, hdecode, hidentifier, htoken⟩
    simp [plainToToken, hdecode, hidentifier, htoken]

theorem tokenToPlain_eq_ok_iff_form : tokenToPlain token = .ok plain ↔
    token.length ≤ Der.lengthLimit ∧ ∃ key, DocumentForm tokenAlgorithmForm key token ∧
      DocumentForm plainAlgorithmForm key plain := by
  rw [tokenToPlain_eq_ok_iff, ← encode_rsa, ← encode_rsaPss]
  constructor
  · rintro ⟨key, htoken, hplain⟩
    obtain ⟨hlength, hform⟩ := encode?_eq_some_iff_form.mp htoken
    exact ⟨hlength, key, hform, (encode?_eq_some_iff_form.mp hplain).2⟩
  · rintro ⟨hlength, key, htoken, hplain⟩
    have hencode := encode?_eq_some_iff_form.mpr ⟨hlength, htoken⟩
    obtain ⟨document, hdocument⟩ := exists_plain hencode
    obtain rfl : plain = document :=
      hplain.eq_encode.trans (encode?_eq_some_iff.mp hdocument).2.symm
    exact ⟨key, hencode, hdocument⟩

theorem plainToToken_eq_ok_iff_form : plainToToken plain = .ok token ↔
    plain.length ≤ Der.lengthLimit ∧ token.length ≤ Der.lengthLimit ∧
      ∃ algorithm key, RsaForm algorithm ∧ DocumentForm algorithm key plain ∧
        DocumentForm tokenAlgorithmForm key token := by
  rw [plainToToken_eq_ok_iff, ← encode_rsaPss]
  constructor
  · rintro ⟨⟨algorithm, key⟩, hdecode, hidentifier, htoken⟩
    obtain ⟨hknown, hplain⟩ := decode?_eq_some_iff.mp hdecode
    obtain ⟨htokenLength, htokenForm⟩ := encode?_eq_some_iff_form.mp htoken
    obtain ⟨hplainLength, hplainForm⟩ := encode?_eq_some_iff_form.mp hplain
    have hlength := hplainForm.length_algorithm_le.trans hplainLength
    exact ⟨hplainLength, htokenLength, algorithm.element.encode, key,
      (rsaForm_iff hlength).mpr ⟨algorithm, hidentifier, hknown, rfl⟩, hplainForm, htokenForm⟩
  · rintro ⟨hplainLength, htokenLength, _, key, hrsa, hplainForm, htokenForm⟩
    have hlength := hplainForm.length_algorithm_le.trans hplainLength
    obtain ⟨algorithm, hidentifier, hknown, rfl⟩ := (rsaForm_iff hlength).mp hrsa
    have hplain := encode?_eq_some_iff_form.mpr ⟨hplainLength, hplainForm⟩
    exact ⟨⟨algorithm, key⟩, decode?_eq_some_iff.mpr ⟨hknown, hplain⟩, hidentifier,
      encode?_eq_some_iff_form.mpr ⟨htokenLength, htokenForm⟩⟩

-- Both directions fail in one way only.
theorem error_eq {error : ProtocolError}
    (h : tokenToPlain bytes = .error error ∨ plainToToken bytes = .error error) :
    error = .invalidSpkiFormat := by
  simp only [tokenToPlain, plainToToken] at h
  rcases h with h | h
  · split at h
    · cases h
    · exact (Except.error.inj h).symm
  · split at h
    · cases h
    · exact (Except.error.inj h).symm

-- Exactly the documents of either form are turned, into the document of the other form with the
-- same bit string.
theorem conversion_exact :
    (∀ token plain, tokenToPlain token = .ok plain ↔ token.length ≤ Der.lengthLimit ∧
      ∃ key, DocumentForm tokenAlgorithmForm key token ∧
        DocumentForm plainAlgorithmForm key plain) ∧
    (∀ plain token, plainToToken plain = .ok token ↔ plain.length ≤ Der.lengthLimit ∧
      token.length ≤ Der.lengthLimit ∧ ∃ algorithm key, RsaForm algorithm ∧
        DocumentForm algorithm key plain ∧ DocumentForm tokenAlgorithmForm key token) ∧
    (∀ token plain, tokenToPlain token = .ok plain → plainToToken plain = .ok token) ∧
    (∀ key : Bytes, key.length + 76 ≤ Der.lengthLimit ↔ ∃ token plain,
      DocumentForm tokenAlgorithmForm key token ∧ DocumentForm plainAlgorithmForm key plain ∧
        plainToToken plain = .ok token ∧ tokenToPlain token = .ok plain) ∧
    ∀ bytes error, tokenToPlain bytes = .error error ∨ plainToToken bytes = .error error →
      error = .invalidSpkiFormat := by
  refine ⟨fun token plain => tokenToPlain_eq_ok_iff_form,
    fun plain token => plainToToken_eq_ok_iff_form, fun token plain h => ?_, fun key => ?_,
    fun bytes error => error_eq⟩
  · obtain ⟨key, htoken, hplain⟩ := tokenToPlain_eq_ok_iff.mp h
    exact (plainToToken_plain hplain).mpr htoken
  · rw [← exists_token_iff]
    constructor
    · rintro ⟨token, htoken⟩
      obtain ⟨plain, hplain⟩ := exists_plain htoken
      have htoPlain := tokenToPlain_eq_ok_iff.mpr ⟨key, htoken, hplain⟩
      have htokenForm := (encode?_eq_some_iff_form.mp htoken).2
      have hplainForm := (encode?_eq_some_iff_form.mp hplain).2
      rw [encode_rsaPss] at htokenForm
      rw [encode_rsa] at hplainForm
      exact ⟨token, plain, htokenForm, hplainForm, (plainToToken_plain hplain).mpr htoken,
        htoPlain⟩
    · rintro ⟨token, plain, htokenForm, -, -, htoPlain⟩
      have hlength := (tokenToPlain_eq_ok_iff_form.mp htoPlain).1
      rw [← encode_rsaPss] at htokenForm
      exact ⟨token, encode?_eq_some_iff_form.mpr ⟨hlength, htokenForm⟩⟩

-- The content of the token form takes a length byte more than that of the plain form.
theorem conversion_longer :
    let key : Bytes := List.replicate 200 7
    let plain := [0x30, 0x81, 0xdb] ++ plainAlgorithmForm ++ [0x03, 0x81, 0xc9, 0x00] ++ key
    let token := [0x30, 0x82, 0x01, 0x0b] ++ tokenAlgorithmForm ++ [0x03, 0x81, 0xc9, 0x00] ++ key
    key.length + 76 ≤ Der.lengthLimit ∧ plainToToken plain = .ok token ∧
      tokenToPlain token = .ok plain := by
  intro key plain token
  have hlength : key.length + 76 ≤ Der.lengthLimit := by decide +kernel
  obtain ⟨-, -, -, hforms, -⟩ := conversion_exact
  obtain ⟨written, turned, htoken, hplain, htoToken, htoPlain⟩ := (hforms key).mp hlength
  rw [← encode_rsaPss] at htoken
  rw [← encode_rsa] at hplain
  obtain rfl : written = token := htoken.eq_encode.trans (by decide +kernel)
  obtain rfl : turned = plain := hplain.eq_encode.trans (by decide +kernel)
  exact ⟨hlength, htoToken, htoPlain⟩

end Spki

end BlindToken
