import BlindToken.Proofs.Rsa.Key
import BlindToken.Proofs.Rsa.Pss
import BlindToken.Rsa.Blinding

namespace BlindToken.Rsa

-- The two numbers of a blind cancel each other.
def Blind.Cancels (modulus : Nat) (blind : Blind) : Prop :=
  blind.inverse * blind.factor ≡ 1 [MOD modulus]

theorem Blind.inverse?_factor {modulus : Nat} {drawn : Bytes} {blind : Blind}
    (h : ofDraw? modulus drawn = some blind) :
    inverse? blind.factor modulus = some blind.inverse := by
  simp only [ofDraw?, Option.bind_eq_bind, Option.bind_eq_some_iff, Option.pure_def,
    Option.some.injEq] at h
  obtain ⟨-, -, inverse, hinverse, rfl⟩ := h
  exact hinverse

theorem Blind.cancels_of_ofDraw? {modulus : Nat} {drawn : Bytes} {blind : Blind}
    (hmodulus : 0 < modulus) (h : Blind.ofDraw? modulus drawn = some blind) :
    blind.Cancels modulus :=
  inverse?_modEq hmodulus (Blind.inverse?_factor h)

-- A number that may blind a message.
structure Blind.IsFactor (modulus factor : Nat) : Prop where
  pos : 0 < factor
  lt_modulus : factor < modulus
  coprime : factor.Coprime modulus

-- Moduli that use all bits of their words leave the drawn number as it is.
theorem blindFactor_eq {modulus : Nat} (hwords : bitLength modulus % 64 = 0) (drawn : Bytes) :
    blindFactor modulus drawn = Bytes.toNat drawn.reverse := by
  have hunused : 64 * ((bitLength modulus + 63) / 64) - bitLength modulus = 0 := by omega
  simp only [blindFactor, hunused, Nat.shiftRight_zero]
  generalize 64 * ((bitLength modulus + 63) / 64 - 1) = low
  rw [Nat.shiftRight_eq_div_pow, Nat.shiftLeft_eq, Nat.shiftLeft_eq, Nat.one_mul]
  exact Nat.div_add_mod' _ _

theorem Blind.ofDraw?_of_isFactor {modulus : Nat} {drawn : Bytes}
    (hwords : bitLength modulus % 64 = 0)
    (hfactor : IsFactor modulus (Bytes.toNat drawn.reverse)) :
    ∃ blind, ofDraw? modulus drawn = some blind ∧ blind.factor = Bytes.toNat drawn.reverse := by
  obtain ⟨inverse, hinverse⟩ := exists_inverse? hfactor.coprime
  refine ⟨⟨Bytes.toNat drawn.reverse, inverse⟩, ?_, rfl⟩
  simp [ofDraw?, blindFactor_eq hwords, hfactor.lt_modulus, Nat.ne_of_gt hfactor.pos, hinverse]

namespace PublicNumbers

variable {key : PublicNumbers}

-- Messages are encoded for the bytes of the modulus and verified for its bits.
def FillsBytes (key : PublicNumbers) : Prop := bitLength key.modulus = 8 * byteLength key.modulus

theorem raise_unblind {signature value : Nat} {blind : Blind} (hblind : blind.Cancels key.modulus)
    (hvalue : value < key.modulus) (hraise : key.raise signature = key.blind value blind) :
    key.raise (key.unblind signature blind) = value := by
  rw [raise_eq] at hraise
  have hsigned : signature ^ key.exponent ≡ value * blind.factor ^ key.exponent [MOD key.modulus] :=
    calc
      signature ^ key.exponent ≡ value * key.raise blind.factor [MOD key.modulus] := hraise
      _ ≡ value * blind.factor ^ key.exponent [MOD key.modulus] := by
        rw [raise_eq]
        exact (Nat.mod_modEq _ _).mul_left value
  have hroot : key.unblind signature blind ^ key.exponent ≡ value [MOD key.modulus] :=
    calc
      key.unblind signature blind ^ key.exponent
        ≡ (signature * blind.inverse) ^ key.exponent [MOD key.modulus] :=
          (Nat.mod_modEq _ _).pow _
      _ = signature ^ key.exponent * blind.inverse ^ key.exponent := Nat.mul_pow _ _ _
      _ ≡ value * blind.factor ^ key.exponent * blind.inverse ^ key.exponent [MOD key.modulus] :=
          hsigned.mul_right _
      _ = value * (blind.inverse * blind.factor) ^ key.exponent := by
          rw [Nat.mul_assoc, ← Nat.mul_pow, Nat.mul_comm blind.factor]
      _ ≡ value * 1 ^ key.exponent [MOD key.modulus] := (hblind.pow _).mul_left value
      _ = value := by rw [Nat.one_pow, Nat.mul_one]
  rw [raise_eq, hroot, Nat.mod_eq_of_lt hvalue]

theorem encodeMessage?_eq_some {message salt : Bytes} {value : Nat}
    (h : key.encodeMessage? message salt = some value) :
    ∃ encoded, Pss.encode? (8 * byteLength key.modulus - 1) message salt = some encoded ∧
      Bytes.toNat encoded = value := by
  simp only [encodeMessage?, Option.bind_eq_bind, Option.bind_eq_some_iff,
    Option.ite_none_right_eq_some, Option.some.injEq] at h
  obtain ⟨encoded, hencode, -, hvalue⟩ := h
  exact ⟨encoded, hencode, hvalue⟩

section FillsBytes

variable (hfills : key.FillsBytes) {message salt encoded : Bytes}
  (hencode : Pss.encode? (8 * byteLength key.modulus - 1) message salt = some encoded)

include hfills hencode

-- The encoding leaves out the highest bit of the modulus.
theorem toNat_encoded_lt : Bytes.toNat encoded < key.modulus := by
  have hbits : bitLength key.modulus = 8 * byteLength key.modulus - 1 + 1 := by
    have hlength := Pss.length_of_encode? hencode
    obtain ⟨zeros, hsize, -⟩ := Pss.encode?_parts hencode
    rw [hfills]
    omega
  exact Nat.lt_of_lt_of_le (Pss.toNat_lt_of_encode? hencode) (two_pow_le_of_bitLength hbits)

theorem verify_of_raise {signature : Bytes} (hlength : signature.length = byteLength key.modulus)
    (hraise : key.raise (Bytes.toNat signature) = Bytes.toNat encoded) :
    key.verify message signature = true := by
  have hsize : (8 * byteLength key.modulus - 1 + 7) / 8 = byteLength key.modulus := by omega
  have hrecovered : Bytes.ofNat (byteLength key.modulus) (Bytes.toNat encoded) = encoded :=
    Bytes.ofNat_toNat encoded (hsize ▸ Pss.length_of_encode? hencode)
  have hbits : bitLength key.modulus = 8 * byteLength key.modulus := hfills
  simp only [verify, hlength, decide_true, Bool.true_and, hraise, hrecovered]
  rw [hbits, hsize, Nat.sub_self, List.drop_zero]
  exact Pss.verify_of_encode? hencode

end FillsBytes

end PublicNumbers

-- Two messages with an inverse are hidden alike: what blinds the one to a number, there is exactly
-- one that blinds the other to it.
theorem PrivateNumbers.IsConsistent.existsUnique_isFactor {key : PrivateNumbers}
    (h : key.IsConsistent) {value other factor : Nat} (hvalue : value.Coprime key.modulus)
    (hother : other.Coprime key.modulus) (hfactor : Blind.IsFactor key.modulus factor) :
    ∃! otherFactor, Blind.IsFactor key.modulus otherFactor ∧
      other * key.raise otherFactor % key.modulus = value * key.raise factor % key.modulus := by
  obtain ⟨inverse, hinverse⟩ := exists_inverse? hother
  have hcancel := inverse?_modEq h.modulus_pos hinverse
  have hraise (number root : Nat) :
      number * key.raise root ≡ number * root ^ key.exponent [MOD key.modulus] := by
    rw [PublicNumbers.raise_eq]
    exact (Nat.mod_modEq _ _).mul_left number
  -- the root of the quotient of the messages takes the one blind to the other
  let ratio := (value * inverse) ^ key.privateExponent * factor
  have hproduct : other * key.raise (ratio % key.modulus) ≡ value * key.raise factor
      [MOD key.modulus] :=
    calc
      other * key.raise (ratio % key.modulus)
        ≡ other * (ratio % key.modulus) ^ key.exponent [MOD key.modulus] := hraise _ _
      _ ≡ other * ratio ^ key.exponent [MOD key.modulus] :=
          ((Nat.mod_modEq _ _).pow _).mul_left other
      _ = other * ((value * inverse) ^ (key.privateExponent * key.exponent) *
            factor ^ key.exponent) := by rw [Nat.mul_pow, ← Nat.pow_mul]
      _ ≡ other * (value * inverse * factor ^ key.exponent) [MOD key.modulus] :=
          ((h.pow_mul_modEq _).mul_right _).mul_left other
      _ = inverse * other * (value * factor ^ key.exponent) := by ring
      _ ≡ 1 * (value * factor ^ key.exponent) [MOD key.modulus] := hcancel.mul_right _
      _ = value * factor ^ key.exponent := Nat.one_mul _
      _ ≡ value * key.raise factor [MOD key.modulus] := (hraise _ _).symm
  have hcoprime : (ratio % key.modulus).Coprime key.modulus := by
    have hunit : (inverse * other).Coprime key.modulus :=
      (Nat.ModEq.gcd_eq hcancel).trans (Nat.gcd_one_left _)
    have hratio : ratio.Coprime key.modulus :=
      ((hvalue.mul_left hunit.coprime_mul_right).pow_left _).mul_left hfactor.coprime
    exact (Nat.ModEq.gcd_eq (Nat.mod_modEq _ _)).trans hratio
  have hpos : 0 < ratio % key.modulus := by
    refine Nat.pos_of_ne_zero fun hzero => ?_
    rw [hzero, Nat.coprime_zero_left] at hcoprime
    have hlt := Nat.lt_of_le_of_lt hfactor.pos hfactor.lt_modulus
    omega
  refine ⟨ratio % key.modulus, ⟨⟨hpos, Nat.mod_lt _ h.modulus_pos, hcoprime⟩, hproduct⟩, ?_⟩
  rintro candidate ⟨hcandidate, heq⟩
  refine h.eq_of_raise_eq hcandidate.lt_modulus (Nat.mod_lt _ h.modulus_pos) ?_
  have hroots : key.raise candidate ≡ key.raise (ratio % key.modulus) [MOD key.modulus] :=
    Nat.ModEq.cancel_left_of_coprime (Nat.coprime_comm.mp hother) (Eq.trans heq hproduct.symm)
  rwa [Nat.ModEq, PublicNumbers.raise_eq, PublicNumbers.raise_eq, Nat.mod_mod, Nat.mod_mod,
    ← PublicNumbers.raise_eq, ← PublicNumbers.raise_eq] at hroots

end BlindToken.Rsa
