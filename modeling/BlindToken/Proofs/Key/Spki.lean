import BlindToken.Key.Spki
import BlindToken.Proofs.Der
import BlindToken.Proofs.Number

namespace BlindToken

section Pkcs1

variable {bytes modulus exponent : Bytes} {numbers : Rsa.PublicNumbers}

theorem Pkcs1.content_publicKey (numbers : Rsa.PublicNumbers) : (publicKey numbers).content =
    (Der.integer numbers.modulus).encode ++ (Der.integer numbers.exponent).encode :=
  Der.content_sequence_pair _ _

theorem Pkcs1.readPublicBytes?_eq_some_iff :
    readPublicBytes? bytes = some (modulus, exponent) ↔ ∃ numbers : Rsa.PublicNumbers,
      modulus = Bytes.ofNat (Bytes.widthOf numbers.modulus) numbers.modulus ∧
        exponent = Bytes.ofNat (Bytes.widthOf numbers.exponent) numbers.exponent ∧
        bytes.length ≤ Der.lengthLimit ∧ bytes = (publicKey numbers).encode := by
  constructor
  · intro h
    obtain ⟨content, hdocument, h⟩ := Option.bind_eq_some_iff.mp h
    obtain ⟨⟨first, afterModulus⟩, hmodulus, h⟩ := Option.bind_eq_some_iff.mp h
    obtain ⟨⟨second, afterExponent⟩, hexponent, h⟩ := Option.bind_eq_some_iff.mp h
    obtain ⟨⟨⟩, hend, h⟩ := Option.bind_eq_some_iff.mp h
    obtain rfl := (Option.guard_eq_some' _).mp hend
    obtain ⟨rfl, rfl⟩ := Prod.mk.inj (Option.some.inj h)
    obtain ⟨-, hlength, rfl⟩ := Der.document?_eq_some_iff.mp hdocument
    obtain ⟨modulus, rfl, -, rfl⟩ := Der.readUnsigned?_eq_some_iff.mp hmodulus
    obtain ⟨exponent, rfl, -, rfl⟩ := Der.readUnsigned?_eq_some_iff.mp hexponent
    refine ⟨⟨modulus, exponent⟩, rfl, rfl, hlength, ?_⟩
    rw [List.append_nil, ← content_publicKey ⟨modulus, exponent⟩]
    rfl
  · rintro ⟨numbers, rfl, rfl, hlength, rfl⟩
    obtain ⟨hmodulusLength, hexponentLength⟩ :=
      Der.length_parts_le (Der.integer numbers.modulus) (Der.integer numbers.exponent)
    have hdocument : Der.document? Der.sequenceTag (publicKey numbers).encode =
        some (publicKey numbers).content :=
      Der.document?_eq_some_iff.mpr ⟨by decide, hlength, rfl⟩
    have hmodulus : Der.readUnsigned? (publicKey numbers).content =
        some (_, (Der.integer numbers.exponent).encode) :=
      Der.readUnsigned?_eq_some_iff.mpr
        ⟨_, rfl, Nat.le_trans hmodulusLength hlength, content_publicKey numbers⟩
    have hexponent : Der.readUnsigned? (Der.integer numbers.exponent).encode = some (_, []) :=
      Der.readUnsigned?_eq_some_iff.mpr
        ⟨_, rfl, Nat.le_trans hexponentLength hlength, (List.append_nil _).symm⟩
    simp [readPublicBytes?, hdocument, hmodulus, hexponent]

theorem Pkcs1.readPublic?_eq_some_iff : readPublic? bytes = some numbers ↔
    bytes.length ≤ Der.lengthLimit ∧ bytes = (publicKey numbers).encode := by
  have htoNat (value : Nat) := Bytes.toNat_ofNat_of_lt (Bytes.lt_pow_widthOf value)
  constructor
  · intro h
    obtain ⟨⟨modulus, exponent⟩, hread, h⟩ := Option.bind_eq_some_iff.mp h
    obtain ⟨numbers, rfl, rfl, hbytes⟩ := readPublicBytes?_eq_some_iff.mp hread
    obtain rfl := Option.some.inj h
    simpa only [htoNat] using hbytes
  · intro h
    have hread := readPublicBytes?_eq_some_iff.mpr ⟨numbers, rfl, rfl, h⟩
    simp [readPublic?, hread, htoNat]

end Pkcs1

namespace Algorithm

variable {algorithm : Algorithm} {input rest : Bytes}

def HasKnownParameters (algorithm : Algorithm) : Prop :=
  ∀ parameters ∈ algorithm.parameters, Der.isKnownTag parameters.tag

theorem content_element (algorithm : Algorithm) : algorithm.element.content =
    (Der.objectIdentifier algorithm.identifier).encode ++
      algorithm.parameters.toList.flatMap Der.Element.encode := rfl

theorem read?_eq_some_iff : read? input = some (algorithm, rest) ↔
    algorithm.element.IsReadable ∧ algorithm.HasKnownParameters ∧
      input = algorithm.element.encode ++ rest := by
  constructor
  · intro h
    obtain ⟨⟨content, left⟩, hsequence, hcontent⟩ := Option.bind_eq_some_iff.mp h
    obtain ⟨⟨identifier, tail⟩, hidentifier, htail⟩ := Option.bind_eq_some_iff.mp hcontent
    obtain ⟨hreadable, rfl⟩ := Der.expect?_eq_some_iff.mp hsequence
    obtain ⟨-, rfl⟩ := Der.expect?_eq_some_iff.mp hidentifier
    by_cases hend : tail = []
    · simp only [if_pos hend] at htail
      obtain ⟨rfl, rfl⟩ := Prod.mk.inj (Option.some.inj htail)
      subst hend
      exact ⟨hreadable, nofun, rfl⟩
    · simp only [if_neg hend] at htail
      obtain ⟨⟨parameters, after⟩, hparameters, htail⟩ := Option.bind_eq_some_iff.mp htail
      obtain ⟨⟨⟩, hafter, htail⟩ := Option.bind_eq_some_iff.mp htail
      obtain rfl := (Option.guard_eq_some' _).mp hafter
      obtain ⟨rfl, rfl⟩ := Prod.mk.inj (Option.some.inj htail)
      obtain ⟨hknown, rfl⟩ := Der.Element.read?_eq_some_iff.mp hparameters
      refine ⟨hreadable, ?_, rfl⟩
      rintro _ ⟨⟩
      exact hknown.tag
  · rintro ⟨hreadable, hknown, rfl⟩
    obtain ⟨identifier, parameters⟩ := algorithm
    have hsequence : Der.expect? Der.sequenceTag
        ((⟨identifier, parameters⟩ : Algorithm).element.encode ++ rest) =
          some ((Der.objectIdentifier identifier).encode ++
            parameters.toList.flatMap Der.Element.encode, rest) :=
      Der.expect?_eq_some_iff.mpr ⟨hreadable, rfl⟩
    have hlength := hreadable.length_le
    have hidentifierLength :=
      Der.Element.length_content_le (Der.objectIdentifier identifier)
    rw [content_element, List.length_append] at hlength
    simp only [Der.objectIdentifier] at hidentifierLength hlength
    have hidentifier (tail : Bytes) : Der.expect? Der.objectIdentifierTag
        ((Der.objectIdentifier identifier).encode ++ tail) = some (identifier, tail) :=
      Der.expect?_eq_some_iff.mpr
        ⟨⟨show Der.isKnownTag Der.objectIdentifierTag by decide,
          show identifier.length ≤ Der.lengthLimit by omega⟩, rfl⟩
    cases parameters with
    | none =>
      have hbare := hidentifier []
      rw [List.append_nil] at hbare
      simp [read?, hsequence, hbare]
    | some parameters =>
      have hparametersLength := Der.Element.length_content_le parameters
      simp only [Option.toList_some, List.flatMap_singleton] at hlength
      have hparameters : Der.Element.read? parameters.encode = some (parameters, []) :=
        Der.Element.read?_eq_some_iff.mpr
          ⟨⟨hknown _ rfl, by omega⟩, (List.append_nil _).symm⟩
      simp [read?, hsequence, hidentifier, hparameters, Der.Element.encode_ne_nil]

end Algorithm

namespace Spki

variable {bytes token plain : Bytes} {info : Spki}

theorem encode?_eq_some_iff : encode? info = some bytes ↔
    bytes.length ≤ Der.lengthLimit ∧
      bytes = (Der.sequence [info.algorithm.element, Der.bitString info.key]).encode := by
  simp only [encode?]
  split
  · rename_i hlength
    simp only [Option.some.injEq]
    constructor
    · rintro rfl
      exact ⟨hlength, rfl⟩
    · exact fun h => h.2.symm
  · rename_i hlength
    constructor
    · nofun
    · rintro ⟨hle, rfl⟩
      exact absurd hle hlength

theorem length_key_le (h : encode? info = some bytes) : info.key.length ≤ Der.lengthLimit := by
  obtain ⟨hlength, rfl⟩ := encode?_eq_some_iff.mp h
  obtain ⟨-, hbits⟩ := Der.length_parts_le info.algorithm.element (Der.bitString info.key)
  exact Nat.le_of_lt (Nat.le_trans hbits hlength)

-- A key of up to some ten thousands of bytes has a document.
theorem exists_encode? (algorithm : Algorithm) (key : Bytes)
    (h : algorithm.element.encode.length + key.length + 5 < 256 ^ 2) :
    ∃ bytes, encode? ⟨algorithm, key⟩ = some bytes ∧
      bytes.length ≤ algorithm.element.encode.length + key.length + 9 := by
  have hbits : (Der.bitString key).encode.length ≤ key.length + 1 + 2 + 2 :=
    Der.Element.length_encode_le (show 0 < 2 by decide) (show key.length + 1 < 256 ^ 2 by omega)
  have hcontent : (Der.sequence [algorithm.element, Der.bitString key]).content.length ≤
      algorithm.element.encode.length + key.length + 5 := by
    rw [Der.content_sequence_pair, List.length_append]
    omega
  have hlength := Der.Element.length_encode_le (show 0 < 2 by decide)
    (Nat.lt_of_le_of_lt hcontent h)
  refine ⟨_, encode?_eq_some_iff.mpr ⟨?_, rfl⟩, Nat.le_trans hlength (by omega)⟩
  exact Nat.le_trans hlength (by unfold Der.lengthLimit; omega)

theorem decode?_eq_some_iff : decode? bytes = some info ↔
    info.algorithm.HasKnownParameters ∧ encode? info = some bytes := by
  rw [encode?_eq_some_iff]
  constructor
  · intro h
    obtain ⟨content, hdocument, h⟩ := Option.bind_eq_some_iff.mp h
    obtain ⟨⟨algorithm, tail⟩, halgorithm, h⟩ := Option.bind_eq_some_iff.mp h
    obtain ⟨bits, hbits, h⟩ := Option.bind_eq_some_iff.mp h
    obtain ⟨key, hkey, h⟩ := Option.bind_eq_some_iff.mp h
    obtain rfl := Option.some.inj h
    obtain ⟨-, hlength, rfl⟩ := Der.document?_eq_some_iff.mp hdocument
    obtain ⟨-, hknown, rfl⟩ := Algorithm.read?_eq_some_iff.mp halgorithm
    obtain ⟨-, rfl⟩ := Der.only?_eq_some_iff.mp hbits
    obtain rfl := Der.bitStringBytes?_eq_some_iff.mp hkey
    refine ⟨hknown, hlength, ?_⟩
    rw [Der.sequence, List.flatMap_cons, List.flatMap_singleton]
    rfl
  · rintro ⟨hknown, hlength, rfl⟩
    obtain ⟨algorithm, key⟩ := info
    obtain ⟨halgorithmLength, hkeyLength⟩ :=
      Der.length_parts_le algorithm.element (Der.bitString key)
    have hdocument : Der.document? Der.sequenceTag
        (Der.sequence [algorithm.element, Der.bitString key]).encode =
          some (algorithm.element.encode ++ (Der.bitString key).encode) := by
      rw [← Der.content_sequence_pair]
      exact Der.document?_eq_some_iff.mpr ⟨by decide, hlength, rfl⟩
    have halgorithm : Algorithm.read? (algorithm.element.encode ++ (Der.bitString key).encode) =
        some (algorithm, (Der.bitString key).encode) :=
      Algorithm.read?_eq_some_iff.mpr
        ⟨⟨show Der.isKnownTag Der.sequenceTag by decide, Nat.le_trans halgorithmLength hlength⟩,
          hknown, rfl⟩
    have hbits : Der.only? Der.bitStringTag (Der.bitString key).encode = some (0 :: key) :=
      Der.only?_eq_some_iff.mpr
        ⟨⟨show Der.isKnownTag Der.bitStringTag by decide, Nat.le_trans hkeyLength hlength⟩, rfl⟩
    simp [decode?, hdocument, halgorithm, hbits, Der.bitStringBytes?]

theorem decode?_token {key : Bytes} (h : encode? ⟨Algorithm.rsaPss, key⟩ = some bytes) :
    decode? bytes = some ⟨Algorithm.rsaPss, key⟩ :=
  decode?_eq_some_iff.mpr ⟨by rintro _ ⟨⟩; decide, h⟩

theorem decode?_plain {key : Bytes} (h : encode? ⟨Algorithm.rsa, key⟩ = some bytes) :
    decode? bytes = some ⟨Algorithm.rsa, key⟩ :=
  decode?_eq_some_iff.mpr ⟨by rintro _ ⟨⟩; decide, h⟩

-- The two forms of a key hold the same bit string.
theorem tokenToPlain_eq_ok_iff : tokenToPlain token = .ok plain ↔
    ∃ key, encode? ⟨Algorithm.rsaPss, key⟩ = some token ∧
      encode? ⟨Algorithm.rsa, key⟩ = some plain := by
  constructor
  · intro h
    simp only [tokenToPlain] at h
    split at h
    · rename_i hplain
      obtain rfl := Except.ok.inj h
      obtain ⟨⟨algorithm, key⟩, hdecode, hplain⟩ := Option.bind_eq_some_iff.mp hplain
      obtain ⟨⟨⟩, halgorithm, hplain⟩ := Option.bind_eq_some_iff.mp hplain
      obtain rfl : algorithm = Algorithm.rsaPss := (Option.guard_eq_some' _).mp halgorithm
      exact ⟨key, (decode?_eq_some_iff.mp hdecode).2, hplain⟩
    · cases h
  · rintro ⟨key, htoken, hplain⟩
    simp [tokenToPlain, decode?_token htoken, hplain]

theorem plainToToken_plain {key : Bytes} (hplain : encode? ⟨Algorithm.rsa, key⟩ = some plain) :
    plainToToken plain = .ok token ↔ encode? ⟨Algorithm.rsaPss, key⟩ = some token := by
  have hidentifier : Algorithm.rsa.identifier = Algorithm.rsaIdentifier := rfl
  simp only [plainToToken, decode?_plain hplain, Option.bind_eq_bind, Option.bind_some,
    hidentifier, guard_true]
  cases encode? ⟨Algorithm.rsaPss, key⟩ <;> simp

theorem modulusBits_eq_ok_iff {bits : Nat} : modulusBits plain = .ok bits ↔
    ∃ info numbers, decode? plain = some info ∧ Pkcs1.readPublic? info.key = some numbers ∧
      bits = bitLength numbers.modulus := by
  simp only [modulusBits]
  constructor
  · intro h
    split at h
    · rename_i hread
      obtain rfl := Except.ok.inj h
      obtain ⟨info, hdecode, hread⟩ := Option.bind_eq_some_iff.mp hread
      obtain ⟨numbers, rfl, -, hkey⟩ := Pkcs1.readPublicBytes?_eq_some_iff.mp hread
      exact ⟨info, numbers, hdecode, Pkcs1.readPublic?_eq_some_iff.mpr hkey,
        Bytes.significantBits_ofNat_widthOf _⟩
    · cases h
  · rintro ⟨info, numbers, hdecode, hkey, rfl⟩
    have hread := Pkcs1.readPublicBytes?_eq_some_iff.mpr
      ⟨numbers, rfl, rfl, Pkcs1.readPublic?_eq_some_iff.mp hkey⟩
    simp [hdecode, hread, Bytes.significantBits_ofNat_widthOf]

theorem modulusBits_plain {key : Bytes} {numbers : Rsa.PublicNumbers}
    (hplain : encode? ⟨Algorithm.rsa, key⟩ = some plain)
    (hkey : Pkcs1.readPublic? key = some numbers) :
    modulusBits plain = .ok (bitLength numbers.modulus) :=
  modulusBits_eq_ok_iff.mpr ⟨_, numbers, decode?_plain hplain, hkey, rfl⟩

end Spki

end BlindToken
