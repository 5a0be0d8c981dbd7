import BlindToken.Issuance.Issuer
import BlindToken.Proofs.Key.Conversion
import BlindToken.Proofs.Key.Private

namespace BlindToken

namespace Pkcs1

-- Two numbers in a sequence.
inductive KeyForm (modulus exponent : Nat) : Bytes → Prop where
  | intro {modulusContent exponentContent first second bytes : Bytes}
      (modulusForm : Der.IntegerForm modulus modulusContent)
      (exponentForm : Der.IntegerForm exponent exponentContent)
      (modulusElement : Der.ElementForm 0x02 modulusContent first)
      (exponentElement : Der.ElementForm 0x02 exponentContent second)
      (sequence : Der.ElementForm 0x30 (first ++ second) bytes) : KeyForm modulus exponent bytes

variable {modulus exponent : Nat} {key : Bytes}

theorem keyForm_iff (h : key.length ≤ Der.lengthLimit) :
    KeyForm modulus exponent key ↔ key = (publicKey ⟨modulus, exponent⟩).encode := by
  have hparts := content_publicKey ⟨modulus, exponent⟩
  constructor
  · rintro ⟨hmodulus, hexponent, hfirst, hsecond, hsequence⟩
    rw [hsequence.eq_encode, hfirst.eq_encode, hsecond.eq_encode,
      Der.integerForm_iff.mp hmodulus, Der.integerForm_iff.mp hexponent]
    exact congrArg (fun content => Der.Element.encode ⟨Der.sequenceTag, content⟩) hparts.symm
  · rintro rfl
    obtain ⟨hmodulus, hexponent⟩ :=
      Der.length_parts_le (Der.integer modulus) (Der.integer exponent)
    have hcontent := (publicKey ⟨modulus, exponent⟩).length_content_le
    refine .intro (Der.integerForm_iff.mpr rfl) (Der.integerForm_iff.mpr rfl)
      ((Der.elementForm_iff (hmodulus.trans h)).mpr rfl)
      ((Der.elementForm_iff (hexponent.trans h)).mpr rfl) ?_
    rw [hparts] at hcontent
    refine (Der.elementForm_iff (hcontent.trans h)).mpr ?_
    exact congrArg (fun content => Der.Element.encode ⟨Der.sequenceTag, content⟩) hparts

theorem readPublic?_eq_some_iff_form : readPublic? key = some ⟨modulus, exponent⟩ ↔
    key.length ≤ Der.lengthLimit ∧ KeyForm modulus exponent key := by
  rw [readPublic?_eq_some_iff]
  exact and_congr_right fun hlength => (keyForm_iff hlength).symm

end Pkcs1

namespace Spki

variable {plain key algorithm : Bytes}

theorem exists_decode?_of_form (hlength : plain.length ≤ Der.lengthLimit)
    (hrsa : RsaForm algorithm) (hplain : DocumentForm algorithm key plain) :
    key.length ≤ Der.lengthLimit ∧ ∃ info, decode? plain = some info ∧ info.key = key := by
  obtain ⟨algorithm, -, hknown, rfl⟩ :=
    (rsaForm_iff (hplain.length_algorithm_le.trans hlength)).mp hrsa
  have hencode : encode? ⟨algorithm, key⟩ = some plain :=
    encode?_eq_some_iff_form.mpr ⟨hlength, hplain⟩
  exact ⟨length_key_le hencode, _, decode?_eq_some_iff.mpr ⟨hknown, hencode⟩, rfl⟩

theorem modulusBits_eq_error_iff :
    modulusBits plain = .error .invalidSpkiFormat ↔ ∀ bits, modulusBits plain ≠ .ok bits := by
  simp only [modulusBits]
  split <;> simp

theorem modulusBits_of_form {modulus exponent : Nat} (hrsa : RsaForm algorithm)
    (hkey : Pkcs1.KeyForm modulus exponent key) (hplain : DocumentForm algorithm key plain) :
    modulusBits plain = if plain.length ≤ Der.lengthLimit then .ok (bitLength modulus)
      else .error .invalidSpkiFormat := by
  split
  · rename_i hlength
    obtain ⟨hkeyLength, info, hdecode, rfl⟩ := exists_decode?_of_form hlength hrsa hplain
    have hread := Pkcs1.readPublic?_eq_some_iff_form.mpr ⟨hkeyLength, hkey⟩
    exact modulusBits_eq_ok_iff.mpr ⟨info, _, hdecode, hread, rfl⟩
  · rename_i hlong
    refine modulusBits_eq_error_iff.mpr fun bits hbits => hlong ?_
    obtain ⟨info, -, hdecode, -⟩ := modulusBits_eq_ok_iff.mp hbits
    exact (encode?_eq_some_iff.mp (decode?_eq_some_iff.mp hdecode).2).1

end Spki

theorem Issuer.ofKey_eq (key : PrivateKey) :
    ((∃ issuer, ofKey key = .ok issuer) ↔ key.bits = modulusBits) ∧
      (ofKey key = .error .invalidKeySize ↔ key.bits ≠ modulusBits) := by
  unfold ofKey
  split <;> simp [*]

-- The size depends on the modulus alone: not on the exponent, on a zero in front of either number
-- or on the parameters of the algorithm. A document too long for a reader is refused.
theorem Spki.modulusBits_exact :
    (∀ algorithm key plain modulus exponent, RsaForm algorithm →
      Pkcs1.KeyForm modulus exponent key → DocumentForm algorithm key plain →
        modulusBits plain =
          if plain.length ≤ Der.lengthLimit then .ok (Nat.digits 2 modulus).length
          else .error .invalidSpkiFormat) ∧
    (∀ plain bits, modulusBits plain = .ok bits → ∃ info modulus exponent,
      decode? plain = some info ∧ Pkcs1.KeyForm modulus exponent info.key ∧
        bits = (Nat.digits 2 modulus).length) ∧
    ∀ key : PrivateKey,
      ((∃ issuer, Issuer.ofKey key = .ok issuer) ↔
        2 ^ 2047 ≤ key.numbers.modulus ∧ key.numbers.modulus < 2 ^ 2048) ∧
      (Issuer.ofKey key = .error .invalidKeySize ↔
        ¬(2 ^ 2047 ≤ key.numbers.modulus ∧ key.numbers.modulus < 2 ^ 2048)) := by
  refine ⟨fun algorithm key plain modulus exponent hrsa hkey hplain => ?_,
    fun plain bits h => ?_, fun key => ?_⟩
  · rw [modulusBits_of_form hrsa hkey hplain, bitLength_eq_length_digits]
  · obtain ⟨info, numbers, hdecode, hread, rfl⟩ := modulusBits_eq_ok_iff.mp h
    obtain ⟨-, hkey⟩ := Pkcs1.readPublic?_eq_some_iff_form.mp hread
    exact ⟨info, numbers.modulus, numbers.exponent, hdecode, hkey, bitLength_eq_length_digits _⟩
  · have hsize : key.bits = BlindToken.modulusBits ↔
        2 ^ 2047 ≤ key.numbers.modulus ∧ key.numbers.modulus < 2 ^ 2048 := by
      rw [key.bits_eq, ← lt_bitLength_iff, ← bitLength_le_iff]
      exact Nat.eq_iff_le_and_ge.trans and_comm
    rw [← hsize]
    exact Issuer.ofKey_eq key

-- Zero has no digits, although its document holds a byte for it.
example : Spki.modulusBits ([0x30, 0x1a] ++ Spki.plainAlgorithmForm ++
    [0x03, 0x09, 0x00, 0x30, 0x06, 0x02, 0x01, 0x00, 0x02, 0x01, 0x03]) = .ok 0 := by decide

-- The least modulus of 2048 bits, which has a zero in front in its document.
theorem Spki.modulusBits_exact_least :
    let key : Bytes := [0x30, 0x82, 0x01, 0x0a, 0x02, 0x82, 0x01, 0x01, 0x00, 0x80] ++
      List.replicate 255 0 ++ [0x02, 0x03, 0x01, 0x00, 0x01]
    let plain := [0x30, 0x82, 0x01, 0x22] ++ plainAlgorithmForm ++
      [0x03, 0x82, 0x01, 0x0f, 0x00] ++ key
    RsaForm plainAlgorithmForm ∧ Pkcs1.KeyForm (2 ^ 2047) 65537 key ∧
      DocumentForm plainAlgorithmForm key plain ∧ modulusBits plain = .ok 2048 ∧
      ∃ info modulus exponent, decode? plain = some info ∧
        Pkcs1.KeyForm modulus exponent info.key ∧ 2048 = (Nat.digits 2 modulus).length := by
  intro key plain
  have hlength : plain.length ≤ Der.lengthLimit := by decide +kernel
  have hrsa : RsaForm plainAlgorithmForm :=
    (rsaForm_iff (by decide)).mpr ⟨Algorithm.rsa, rfl, by rintro _ ⟨⟩; decide, encode_rsa⟩
  have hkey : Pkcs1.KeyForm (2 ^ 2047) 65537 key :=
    (Pkcs1.keyForm_iff (by decide +kernel)).mpr (by decide +kernel)
  have hplain : DocumentForm plainAlgorithmForm key plain := by
    have hencode : encode? ⟨Algorithm.rsa, key⟩ = some plain := by decide +kernel
    exact encode_rsa ▸ (encode?_eq_some_iff_form.mp hencode).2
  obtain ⟨hsize, hform, -⟩ := modulusBits_exact
  have hbits : modulusBits plain = .ok 2048 := by
    rw [hsize _ key plain _ _ hrsa hkey hplain, if_pos hlength, ← bitLength_eq_length_digits]
    decide +kernel
  exact ⟨hrsa, hkey, hplain, hbits, hform plain 2048 hbits⟩

end BlindToken
