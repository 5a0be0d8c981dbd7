import BlindToken.Key.Private
import BlindToken.Proofs.Except
import BlindToken.Proofs.Key.Envelope
import BlindToken.Proofs.Key.Pem
import BlindToken.Proofs.Key.Private
import BlindToken.Proofs.Rsa.Key

namespace BlindToken

namespace Rsa.PrivateNumbers.Fits

variable {numbers : Rsa.PrivateNumbers} (h : numbers.Fits)

include h

-- The numbers of a document are small, apart from the private exponent.
theorem length_integerContent_le {value : Nat} (hvalue : value ≤ numbers.modulus) :
    (Der.integerContent value).length ≤ 513 := by
  have hmodulus : 0 < numbers.modulus :=
    Nat.lt_of_lt_of_le (Nat.zero_lt_of_lt h.two_lt_prime1) h.prime1_le
  have hbytes : 0 < byteLength numbers.modulus := by
    refine Nat.pos_of_ne_zero fun hzero => ?_
    have hlt := lt_pow_byteLength numbers.modulus
    rw [hzero] at hlt
    omega
  have hcontent := Der.length_integerContent_le hbytes
    (Nat.lt_of_le_of_lt hvalue (lt_pow_byteLength _))
  exact hcontent.trans (Nat.succ_le_succ h.byteLength_modulus_le)

theorem length_encode_le {value : Nat} (hvalue : value ≤ numbers.modulus) :
    (Der.integer value).encode.length ≤ 517 := by
  have hcontent : (Der.integer value).content.length ≤ 513 := h.length_integerContent_le hvalue
  have hencode := Der.Element.length_encode_le (show 0 < 2 by decide)
    (Nat.lt_of_le_of_lt hcontent (by decide))
  omega

theorem length_exponent_le : (Der.integer numbers.exponent).encode.length ≤ 12 := by
  have hcontent : (Der.integer numbers.exponent).content.length ≤ 5 + 1 :=
    Der.length_integerContent_le (by decide)
      (Nat.lt_trans h.exponent_upper (show Rsa.PrivateNumbers.exponentLimit < 256 ^ 5 by decide))
  have hencode := Der.Element.length_encode_le_of_limit (hcontent.trans (by decide))
  omega

theorem length_document_le (hprivate : numbers.privateExponent ≤ numbers.modulus) :
    (Pkcs1.privateKey numbers).encode.length ≤ 4000 := by
  have hversion : (Der.integer 0).encode.length = 3 := by decide
  have hmodulus := h.length_encode_le (Nat.le_refl _)
  have hexponent := h.length_exponent_le
  have hprivateExponent := h.length_encode_le hprivate
  have hprime1 := h.length_encode_le h.prime1_le
  have hprime2 := h.length_encode_le h.prime2_le
  have hexponent1 := h.length_encode_le h.exponent1_le
  have hexponent2 := h.length_encode_le h.exponent2_le
  have hcoefficient := h.length_encode_le h.coefficient_le
  have hcontent : (Pkcs1.privateKey numbers).content.length ≤ 3900 := by
    rw [Pkcs1.privateKey, Der.length_content_sequence]
    simp only [List.map_cons, List.map_nil, List.sum_cons, List.sum_nil]
    omega
  have hwhole := Der.Element.length_encode_le_of_limit (hcontent.trans (by decide))
  omega

end Rsa.PrivateNumbers.Fits

namespace PrivateKey

theorem ofNumbers_numbers (key : PrivateKey) : ofNumbers key.numbers = .ok key := by
  have hfactors : ¬(key.numbers.prime1 < 2 ∨ key.numbers.prime2 < 2) := by
    have hprime1 := key.numbers_fit.two_lt_prime1
    have hprime2 := key.numbers_fit.two_lt_prime2
    omega
  rw [ofNumbers, if_neg hfactors, dif_pos key.numbers_fit]
  split
  · rename_i publicKey hpublic
    obtain rfl := Except.ok.inj (key.publicKey_eq.symm.trans hpublic)
    rfl
  · rename_i error hpublic
    cases key.publicKey_eq.symm.trans hpublic

section Documents

variable (key : PrivateKey) (h : key.toDer.length ≤ Der.lengthLimit)

include h

theorem readPrivate?_toDer : (Pkcs8.readPrivate? key.toDer).bind Pkcs1.readPrivate? =
    some key.numbers := by
  have henvelope : Pkcs8.readPrivate? key.toDer = some (Pkcs1.privateKey key.numbers).encode :=
    Pkcs8.readPrivate?_privateKey h
  have hlength : (Pkcs1.privateKey key.numbers).encode.length ≤ Der.lengthLimit :=
    ((Nat.le_add_right _ 22).trans (Pkcs8.le_length_privateKey _)).trans h
  rw [henvelope, Option.bind_some]
  exact Pkcs1.readPrivate?_privateKey hlength

theorem ofDer_toDer : ofDer key.toDer = .ok key := by
  rw [ofDer, key.readPrivate?_toDer h]
  exact key.ofNumbers_numbers

theorem ofPem_toPem : ofPem key.toPem = .ok key := by
  have hdecode : Pem.decode? pemLabel key.toPem = some key.toDer :=
    Pem.decode?_encode pemLabel (Der.Element.encode_ne_nil _)
  rw [ofPem, hdecode, Option.bind_some, key.readPrivate?_toDer h]
  exact key.ofNumbers_numbers

end Documents

-- The document without envelope is not taken for one with an envelope.
theorem ofDer_bare (key : PrivateKey)
    (h : (Pkcs1.privateKey key.numbers).encode.length ≤ Der.lengthLimit) :
    ofDer (Pkcs1.privateKey key.numbers).encode = .ok key := by
  rw [ofDer, Pkcs8.readPrivate?_bare, Pkcs1.readPrivate?_privateKey h]
  exact key.ofNumbers_numbers

-- What is exported depends on the length of the document only.
theorem export_cases (key : PrivateKey) :
    (key.toDer.length ≤ Der.lengthLimit ∧ key.exportDer = .ok key.toDer ∧
      key.exportPem = .ok key.toPem) ∨
    (Der.lengthLimit < key.toDer.length ∧ key.exportDer = .error .invalidKeyEncoding ∧
      key.exportPem = .error .invalidKeyEncoding) := by
  by_cases h : key.toDer.length ≤ Der.lengthLimit
  · exact .inl ⟨h, if_pos h, if_pos h⟩
  · exact .inr ⟨Nat.lt_of_not_le h, if_neg h, if_neg h⟩

-- A private exponent below the modulus leaves much room.
theorem length_toDer_le {key : PrivateKey}
    (h : key.numbers.privateExponent ≤ key.numbers.modulus) :
    key.toDer.length ≤ Der.lengthLimit := by
  have hdocument := key.numbers_fit.length_document_le h
  have henvelope := Pkcs8.length_privateKey_le (Pkcs1.privateKey key.numbers).encode
    (Nat.le_trans (Nat.add_le_add_right hdocument 30) (by decide))
  exact henvelope.trans ((Nat.add_le_add_right hdocument 30).trans (by decide))

def IsGenerated (key : PrivateKey) : Prop :=
  ∃ (state : Type) (source : Source state) (current next : state),
    generate source current = .ok (key, next)

theorem IsGenerated.privateExponent_le {key : PrivateKey} (h : key.IsGenerated) :
    key.numbers.privateExponent ≤ key.numbers.modulus := by
  obtain ⟨state, source, current, next, hgenerate⟩ := h
  obtain ⟨prime1, prime2, hkey⟩ := exists_primes_of_generate hgenerate
  exact Rsa.KeySize.privateExponent_le_of_keyOfPrimes? hkey
    (Nat.lt_of_succ_lt key.numbers_fit.two_lt_prime1)
    (Nat.lt_of_succ_lt key.numbers_fit.two_lt_prime2)

-- The import of an export gives the very key back, so nothing tells the two apart: their forms,
-- their next exports and what an issuer signs with them are the same. A key can be exported as long
-- as its document is not too long for a reader.
theorem import_export (key : PrivateKey) :
    (∀ der, key.exportDer = .ok der → ofDer der = .ok key) ∧
    (∀ pem, key.exportPem = .ok pem → ofPem pem = .ok key) ∧
    ((∃ der, key.exportDer = .ok der) ↔ key.toDer.length ≤ Der.lengthLimit) ∧
    ((∃ pem, key.exportPem = .ok pem) ↔ key.toDer.length ≤ Der.lengthLimit) ∧
    (∀ error, key.exportDer = .error error ∨ key.exportPem = .error error →
      error = .invalidKeyEncoding) ∧
    (key.IsGenerated ∨ key.numbers.privateExponent ≤ key.numbers.modulus →
      key.toDer.length ≤ Der.lengthLimit) := by
  have hshort (h : key.IsGenerated ∨ key.numbers.privateExponent ≤ key.numbers.modulus) :
      key.toDer.length ≤ Der.lengthLimit :=
    length_toDer_le (h.elim IsGenerated.privateExponent_le id)
  obtain ⟨hlength, hder, hpem⟩ | ⟨hlength, hder, hpem⟩ := key.export_cases
  · rw [hder, hpem]
    refine ⟨fun der h => ?_, fun pem h => ?_, iff_of_true ⟨_, rfl⟩ hlength,
      iff_of_true ⟨_, rfl⟩ hlength, fun error h => ?_, hshort⟩
    · rw [← Except.ok.inj h]
      exact key.ofDer_toDer hlength
    · rw [← Except.ok.inj h]
      exact key.ofPem_toPem hlength
    · obtain h | h := h <;> cases h
  · rw [hder, hpem]
    have hlong : ¬key.toDer.length ≤ Der.lengthLimit := Nat.not_le_of_lt hlength
    refine ⟨nofun, nofun, iff_of_false nofun hlong, iff_of_false nofun hlong, fun error h => ?_,
      hshort⟩
    obtain h | h := h <;> exact (Except.error.inj h).symm

-- A small key.
def smallNumbers : Rsa.PrivateNumbers where
  modulus := 61 * 53
  exponent := 17
  privateExponent := 2753
  prime1 := 61
  prime2 := 53

theorem exists_key {numbers : Rsa.PrivateNumbers} (hfit : numbers.Fits)
    (hpublic : (PublicKey.ofNumbers numbers.toPublicNumbers).toOption.isSome) :
    ∃ key : PrivateKey, key.numbers = numbers :=
  ⟨⟨numbers, hfit, _, eq_ok_get hpublic⟩, rfl⟩

-- A document without envelope and the exports of its key are imported alike.
theorem import_export_bare :
    let bare := (Pkcs1.privateKey smallNumbers).encode
    ∃ key der pem, ofDer bare = .ok key ∧ key.exportDer = .ok der ∧ key.exportPem = .ok pem ∧
      der ≠ bare ∧ ofDer der = .ok key ∧ ofPem pem = .ok key := by
  intro bare
  have hother : (ofDer bare).toOption.bind (·.exportDer.toOption) ≠ some bare := by decide
  obtain ⟨key, hnumbers⟩ : ∃ key : PrivateKey, key.numbers = smallNumbers :=
    exists_key (by decide) (by decide)
  have hkey : ofDer bare = .ok key := by
    have hbare := key.ofDer_bare (by rw [hnumbers]; decide)
    rwa [hnumbers] at hbare
  obtain ⟨hder, hpem, hexportDer, hexportPem, -, hshort⟩ := import_export key
  have hlength : key.toDer.length ≤ Der.lengthLimit := hshort (.inr (by rw [hnumbers]; decide))
  obtain ⟨der, hwritten⟩ := hexportDer.mpr hlength
  obtain ⟨pem, htext⟩ := hexportPem.mpr hlength
  refine ⟨key, der, pem, hkey, hwritten, htext, ?_, hder der hwritten, hpem pem htext⟩
  rintro rfl
  rw [hkey, Except.toOption, Option.bind_some, hwritten] at hother
  exact hother rfl

-- The small key with a long private exponent. It fits as well, because 780 is a common multiple of
-- what the exponents are reduced by.
def longNumbers (count : Nat) : Rsa.PrivateNumbers :=
  { smallNumbers with privateExponent := 2753 + 780 * 256 ^ count }

section Long

variable (count : Nat)

theorem exponent1_longNumbers : (longNumbers count).exponent1 = 53 := by
  show (2753 + 780 * 256 ^ count) % 60 = 53
  omega

theorem exponent2_longNumbers : (longNumbers count).exponent2 = 49 := by
  show (2753 + 780 * 256 ^ count) % 52 = 49
  omega

theorem fits_longNumbers : (longNumbers count).Fits where
  modulus_size := show bitLength (61 * 53) ≤ 4096 by decide
  exponent_lower := show 2 ≤ 17 by decide
  exponent_upper := show 17 < Rsa.PrivateNumbers.exponentLimit by decide
  modulus_eq := rfl
  inverse1 := by
    show (2753 + 780 * 256 ^ count) * 17 % 60 = 1
    omega
  inverse2 := by
    show (2753 + 780 * 256 ^ count) * 17 % 52 = 1
    omega
  coefficient := show (inverse? 53 61).isSome by decide

-- All parts but one are short.
theorem length_content_longNumbers : (Pkcs1.privateKey (longNumbers count)).content.length =
    (Der.integer (longNumbers count).privateExponent).encode.length + 25 := by
  have hversion : (Der.integer 0).encode.length = 3 := by decide
  have hmodulus : (Der.integer (longNumbers count).modulus).encode.length = 4 :=
    show (Der.integer (61 * 53)).encode.length = 4 by decide
  have hexponent : (Der.integer (longNumbers count).exponent).encode.length = 3 :=
    show (Der.integer 17).encode.length = 3 by decide
  have hprime1 : (Der.integer (longNumbers count).prime1).encode.length = 3 :=
    show (Der.integer 61).encode.length = 3 by decide
  have hprime2 : (Der.integer (longNumbers count).prime2).encode.length = 3 :=
    show (Der.integer 53).encode.length = 3 by decide
  have hexponent1 : (Der.integer (longNumbers count).exponent1).encode.length = 3 := by
    rw [exponent1_longNumbers]
    decide
  have hexponent2 : (Der.integer (longNumbers count).exponent2).encode.length = 3 := by
    rw [exponent2_longNumbers]
    decide
  have hcoefficient :
      (Der.integer ((longNumbers count).coefficient?.getD 0)).encode.length = 3 :=
    show (Der.integer ((inverse? 53 61).getD 0)).encode.length = 3 by decide
  rw [Pkcs1.privateKey, Der.length_content_sequence]
  simp only [List.map_cons, List.map_nil, List.sum_cons, List.sum_nil]
  omega

theorem length_privateExponent_longNumbers (hcount : 2 ≤ count)
    (hlimit : count + 3 ≤ Der.lengthLimit) :
    count + 4 ≤ (Der.integer (longNumbers count).privateExponent).encode.length ∧
      (Der.integer (longNumbers count).privateExponent).encode.length ≤ count + 9 := by
  have hpow : 256 ^ (count + 1) = 256 * 256 ^ count := Nat.pow_succ'
  have hpow' : 256 ^ (count + 2) = 256 * (256 * 256 ^ count) := by rw [Nat.pow_succ', hpow]
  have hsmall : 256 ^ 2 ≤ 256 ^ count := Nat.pow_le_pow_right (by decide) hcount
  have hvalue : (longNumbers count).privateExponent = 2753 + 780 * 256 ^ count := rfl
  have hwidth : count + 1 < Bytes.widthOf (longNumbers count).privateExponent :=
    Bytes.lt_widthOf (by omega)
  have hlower : Bytes.widthOf (longNumbers count).privateExponent ≤
      (Der.integer (longNumbers count).privateExponent).content.length :=
    Der.widthOf_le_length_integerContent _
  have hupper : (Der.integer (longNumbers count).privateExponent).content.length ≤ count + 2 + 1 :=
    Der.length_integerContent_le (by omega) (by omega)
  have hframe := (Der.integer (longNumbers count).privateExponent).length_content_add_two_le
  have hencode := Der.Element.length_encode_le_of_limit (hupper.trans hlimit)
  exact ⟨by omega, by omega⟩

-- The room between the two documents: the one without envelope is short enough for a reader, and
-- the other one is not.
theorem ofDer_longNumbers (hcount : 2 ≤ count) (hbare : count + 40 ≤ Der.lengthLimit)
    (henvelope : Der.lengthLimit < count + 53) :
    (Pkcs1.privateKey (longNumbers count)).encode.length ≤ Der.lengthLimit ∧
      ∃ key, ofDer (Pkcs1.privateKey (longNumbers count)).encode = .ok key ∧
        Der.lengthLimit < key.toDer.length := by
  obtain ⟨key, hnumbers⟩ : ∃ key : PrivateKey, key.numbers = longNumbers count :=
    exists_key (fits_longNumbers count)
      (show (PublicKey.ofNumbers ⟨61 * 53, 17⟩).toOption.isSome by decide)
  obtain ⟨hlower, hupper⟩ := length_privateExponent_longNumbers count hcount (by omega)
  have hcontent := length_content_longNumbers count
  have hdocument : (Pkcs1.privateKey (longNumbers count)).encode.length ≤ Der.lengthLimit := by
    have hwhole := Der.Element.length_encode_le_of_limit
      (show (Pkcs1.privateKey (longNumbers count)).content.length ≤ Der.lengthLimit by omega)
    omega
  refine ⟨hdocument, key, ?_, ?_⟩
  · rw [← hnumbers] at hdocument ⊢
    exact key.ofDer_bare hdocument
  · have hframe := (Pkcs1.privateKey (longNumbers count)).length_content_add_two_le
    have hwhole := Pkcs8.le_length_privateKey (Pkcs1.privateKey key.numbers).encode
    rw [hnumbers] at hwhole
    rw [toDer, hnumbers]
    omega

end Long

-- A document without envelope is imported, and its key cannot be exported.
theorem imported_not_exported :
    let bare := (Pkcs1.privateKey (longNumbers 268435410)).encode
    bare.length ≤ Der.lengthLimit ∧ ∃ key, ofDer bare = .ok key ∧
      key.exportDer = .error .invalidKeyEncoding ∧ key.exportPem = .error .invalidKeyEncoding := by
  obtain ⟨hbare, key, himport, hlong⟩ :=
    ofDer_longNumbers 268435410 (by decide) (by decide) (by decide)
  have hnot := Nat.not_le_of_lt hlong
  exact ⟨hbare, key, himport, if_neg hnot, if_neg hnot⟩

end PrivateKey

end BlindToken
