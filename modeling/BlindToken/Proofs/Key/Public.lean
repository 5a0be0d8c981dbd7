import BlindToken.Key.Public
import BlindToken.Proofs.Except
import BlindToken.Proofs.Key.Spki
import BlindToken.Proofs.Number

namespace BlindToken.PublicKey

variable {numbers : Rsa.PublicNumbers} {key : PublicKey} {plain spki : Bytes}

-- The two forms of the key with these numbers.
structure AreForms (numbers : Rsa.PublicNumbers) (plain spki : Bytes) : Prop where
  plain : Spki.encode? ⟨Algorithm.rsa, (Pkcs1.publicKey numbers).encode⟩ = some plain
  token : Spki.encode? ⟨Algorithm.rsaPss, (Pkcs1.publicKey numbers).encode⟩ = some spki

theorem readPublic?_of_plain
    (h : Spki.encode? ⟨Algorithm.rsa, (Pkcs1.publicKey numbers).encode⟩ = some plain) :
    Pkcs1.readPublic? (Pkcs1.publicKey numbers).encode = some numbers :=
  Pkcs1.readPublic?_eq_some_iff.mpr ⟨Spki.length_key_le h, rfl⟩

theorem ofNumbers_eq_ok_iff : ofNumbers numbers = .ok key ↔
    key.numbers = numbers ∧ (∃ plain, AreForms numbers plain key.spki) ∧
      key.tokenKeyId = sha256 key.spki ∧ key.bits = bitLength numbers.modulus := by
  constructor
  · intro h
    simp only [ofNumbers] at h
    cases hplain : Spki.encode? ⟨Algorithm.rsa, (Pkcs1.publicKey numbers).encode⟩ with
    | none =>
      rw [hplain] at h
      cases h
    | some plain =>
      rw [hplain] at h
      obtain ⟨bits, hbits, h⟩ := bind_eq_ok_iff.mp h
      obtain ⟨spki, hspki, h⟩ := bind_eq_ok_iff.mp h
      obtain rfl := Except.ok.inj h
      rw [Spki.modulusBits_plain hplain (readPublic?_of_plain hplain)] at hbits
      rw [Spki.plainToToken_plain hplain] at hspki
      exact ⟨rfl, ⟨plain, hplain, hspki⟩, rfl, (Except.ok.inj hbits).symm⟩
  · obtain ⟨numbers, spki, tokenKeyId, bits⟩ := key
    dsimp only
    rintro ⟨rfl, ⟨plain, hplain, htoken⟩, rfl, rfl⟩
    simp only [ofNumbers, hplain]
    rw [Spki.modulusBits_plain hplain (readPublic?_of_plain hplain),
      (Spki.plainToToken_plain hplain).mpr htoken]
    rfl

theorem spki_ne_nil_of_ofNumbers (h : ofNumbers numbers = .ok key) : key.spki ≠ [] := by
  obtain ⟨-, ⟨plain, hforms⟩, -⟩ := ofNumbers_eq_ok_iff.mp h
  rw [(Spki.encode?_eq_some_iff.mp hforms.token).2]
  exact Der.Element.encode_ne_nil _

namespace IsSupported

variable (h : IsSupported numbers)

include h

theorem length_document_le : (Pkcs1.publicKey numbers).encode.length ≤ 528 := by
  have hbits := h.2.1
  have hbytes : byteLength numbers.modulus ≤ 512 := by
    unfold byteLength
    omega
  have hmodulus : (Der.integerContent numbers.modulus).length ≤ byteLength numbers.modulus + 1 :=
    Der.length_integerContent_le (Nat.pos_of_mul_pos_left (Nat.lt_of_lt_of_le (by decide) h.1))
      (lt_pow_byteLength _)
  have hexponent : (Der.integerContent numbers.exponent).length ≤ 3 + 1 := by
    refine Der.length_integerContent_le (by decide) ?_
    obtain hthree | hfermat := h.2.2
    · rw [hthree]
      decide
    · rw [hfermat]
      decide
  have hfirst : (Der.integer numbers.modulus).encode.length ≤
      (Der.integerContent numbers.modulus).length + 2 + 2 :=
    Der.Element.length_encode_le (show 0 < 2 by decide)
      (Nat.lt_of_le_of_lt hmodulus (by omega))
  have hsecond : (Der.integer numbers.exponent).encode.length ≤
      (Der.integerContent numbers.exponent).length + 1 + 2 :=
    Der.Element.length_encode_le (show 0 < 1 by decide)
      (Nat.lt_of_le_of_lt hexponent (by decide))
  have hcontent : (Pkcs1.publicKey numbers).content.length ≤ 524 := by
    rw [Pkcs1.publicKey, Der.content_sequence_pair, List.length_append]
    omega
  have hlength := Der.Element.length_encode_le (show 0 < 2 by decide)
    (Nat.lt_of_le_of_lt hcontent (by decide))
  omega

-- Both forms fit, the plain one within what is looked at.
theorem exists_forms :
    ∃ plain spki, AreForms numbers plain spki ∧ plain.length ≤ plainSizeLimit := by
  have hdocument := h.length_document_le
  have hplainHead : Algorithm.rsa.element.encode.length = 15 := by decide
  have htokenHead : Algorithm.rsaPss.element.encode.length = 63 := by decide
  obtain ⟨plain, hplain, hlength⟩ :=
    Spki.exists_encode? Algorithm.rsa (Pkcs1.publicKey numbers).encode (by omega)
  obtain ⟨spki, htoken, -⟩ :=
    Spki.exists_encode? Algorithm.rsaPss (Pkcs1.publicKey numbers).encode (by omega)
  refine ⟨plain, spki, ⟨hplain, htoken⟩, ?_⟩
  unfold plainSizeLimit
  omega

end IsSupported

theorem numbersOfPlain?_eq_some_iff {document : Bytes}
    (hplain : Spki.encode? ⟨Algorithm.rsa, document⟩ = some plain) :
    numbersOfPlain? plain = some numbers ↔
      document = (Pkcs1.publicKey numbers).encode ∧ IsSupported numbers := by
  constructor
  · intro h
    obtain ⟨⟨⟩, -, h⟩ := Option.bind_eq_some_iff.mp h
    rw [Spki.decode?_plain hplain] at h
    obtain ⟨_, ⟨⟩, h⟩ := Option.bind_eq_some_iff.mp h
    obtain ⟨⟨⟩, -, h⟩ := Option.bind_eq_some_iff.mp h
    obtain ⟨read, hread, h⟩ := Option.bind_eq_some_iff.mp h
    obtain ⟨⟨⟩, hsupported, h⟩ := Option.bind_eq_some_iff.mp h
    obtain rfl := Option.some.inj h
    exact ⟨(Pkcs1.readPublic?_eq_some_iff.mp hread).2, (Option.guard_eq_some' _).mp hsupported⟩
  · rintro ⟨rfl, hsupported⟩
    obtain ⟨fitting, spki, hforms, hlength⟩ := hsupported.exists_forms
    obtain rfl := Option.some.inj (hplain.symm.trans hforms.plain)
    simp [numbersOfPlain?, hlength, Spki.decode?_plain hplain, readPublic?_of_plain hplain,
      hsupported]

-- The published form of a key with other sizes or exponents is as well formed, and still refused.
theorem ofSpki_spki (h : ofNumbers key.numbers = .ok key) :
    ofSpki key.spki =
      if IsSupported key.numbers then .ok key else .error .invalidSpkiFormat := by
  obtain ⟨-, ⟨plain, hforms⟩, -⟩ := ofNumbers_eq_ok_iff.mp h
  have hplain : Spki.tokenToPlain key.spki = .ok plain :=
    Spki.tokenToPlain_eq_ok_iff.mpr ⟨_, hforms.token, hforms.plain⟩
  split
  · rename_i hsupported
    have hread : numbersOfPlain? plain = some key.numbers :=
      (numbersOfPlain?_eq_some_iff hforms.plain).mpr ⟨rfl, hsupported⟩
    refine bind_eq_ok_iff.mpr ⟨plain, hplain, ?_⟩
    rw [hread]
    exact h
  · rename_i hsupported
    have hread : numbersOfPlain? plain = none := by
      rw [Option.eq_none_iff_forall_ne_some]
      intro numbers hsome
      obtain ⟨hdocument, hother⟩ := (numbersOfPlain?_eq_some_iff hforms.plain).mp hsome
      have hnumbers := readPublic?_of_plain hforms.plain
      rw [hdocument, readPublic?_of_plain (hdocument ▸ hforms.plain)] at hnumbers
      exact hsupported (Option.some.inj hnumbers ▸ hother)
    simp only [ofSpki, hplain, bind, Except.bind, hread]
    rfl

theorem ofSpki_eq_ok_iff : ofSpki spki = .ok key ↔
    ofNumbers key.numbers = .ok key ∧ key.spki = spki ∧ IsSupported key.numbers := by
  constructor
  · intro h
    obtain ⟨plain, htoPlain, h⟩ := bind_eq_ok_iff.mp h
    obtain ⟨document, htoken, hplain⟩ := Spki.tokenToPlain_eq_ok_iff.mp htoPlain
    cases hread : numbersOfPlain? plain with
    | none =>
      rw [hread] at h
      cases h
    | some numbers =>
      rw [hread] at h
      have hnumbers : ofNumbers numbers = .ok key := h
      obtain ⟨rfl, hsupported⟩ := (numbersOfPlain?_eq_some_iff hplain).mp hread
      obtain ⟨rfl, ⟨plain', hforms⟩, -⟩ := ofNumbers_eq_ok_iff.mp hnumbers
      exact ⟨hnumbers, Option.some.inj (hforms.token.symm.trans htoken), hsupported⟩
  · rintro ⟨hnumbers, rfl, hsupported⟩
    rw [ofSpki_spki hnumbers, if_pos hsupported]

theorem IsSupported.exists_ofSpki (h : IsSupported numbers) :
    ∃ spki key, ofSpki spki = .ok key ∧ key.numbers = numbers := by
  obtain ⟨plain, spki, hforms, -⟩ := h.exists_forms
  exact ⟨spki, ⟨numbers, spki, sha256 spki, bitLength numbers.modulus⟩,
    ofSpki_eq_ok_iff.mpr ⟨ofNumbers_eq_ok_iff.mpr ⟨rfl, ⟨plain, hforms⟩, rfl, rfl⟩, rfl, h⟩, rfl⟩

-- Every supported pair of numbers has one form that is imported.
theorem ofSpki_canonical :
    (∀ spki key, ofSpki spki = .ok key → key.spki = spki ∧ key.tokenKeyId = sha256 spki) ∧
      (∀ spki key other otherKey, ofSpki spki = .ok key → ofSpki other = .ok otherKey →
        key.numbers = otherKey.numbers → spki = other) ∧
      ∀ numbers, (∃ spki key, ofSpki spki = .ok key ∧ key.numbers = numbers) ↔
        IsSupported numbers := by
  refine ⟨fun spki key h => ?_, fun spki key other otherKey h hother heq => ?_, fun numbers => ?_⟩
  · obtain ⟨hnumbers, rfl, -⟩ := ofSpki_eq_ok_iff.mp h
    exact ⟨rfl, (ofNumbers_eq_ok_iff.mp hnumbers).2.2.1⟩
  · obtain ⟨hnumbers, rfl, -⟩ := ofSpki_eq_ok_iff.mp h
    obtain ⟨hotherNumbers, rfl, -⟩ := ofSpki_eq_ok_iff.mp hother
    rw [heq, hotherNumbers] at hnumbers
    exact congrArg PublicKey.spki (Except.ok.inj hnumbers).symm
  · constructor
    · rintro ⟨spki, key, h, rfl⟩
      exact (ofSpki_eq_ok_iff.mp h).2.2
    · exact IsSupported.exists_ofSpki

-- A key of 4096 bits, whose form is the longest, and no other form of it.
theorem ofSpki_canonical_widest :
    let numbers : Rsa.PublicNumbers := ⟨2 ^ 4096 - 1, 65537⟩
    let spki := (Der.sequence [Algorithm.rsaPss.element,
      Der.bitString (Pkcs1.publicKey numbers).encode]).encode
    IsSupported numbers ∧ ∃ key, ofSpki spki = .ok key ∧ key.numbers = numbers ∧
      key.spki = spki ∧ key.tokenKeyId = sha256 spki ∧
      ∀ other otherKey, ofSpki other = .ok otherKey → otherKey.numbers = numbers →
        other = spki := by
  intro numbers spki
  have hsupported : IsSupported numbers := by decide +kernel
  obtain ⟨hown, hunique, hall⟩ := ofSpki_canonical
  obtain ⟨imported, key, hkey, hnumbers⟩ := (hall numbers).mpr hsupported
  have himported : imported = spki := by
    obtain ⟨hof, rfl, -⟩ := ofSpki_eq_ok_iff.mp hkey
    obtain ⟨-, ⟨plain, hforms⟩, -⟩ := ofNumbers_eq_ok_iff.mp hof
    rw [hnumbers] at hforms
    exact (Spki.encode?_eq_some_iff.mp hforms.token).2
  subst himported
  exact ⟨hsupported, key, hkey, hnumbers, (hown _ _ hkey).1, (hown _ _ hkey).2,
    fun other otherKey hother heq => hunique _ _ _ _ hother hkey (heq.trans hnumbers.symm)⟩

end BlindToken.PublicKey
