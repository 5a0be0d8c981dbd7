import Mathlib.FieldTheory.Finite.Basic
import BlindToken.Proofs.Number
import BlindToken.Rsa.Key

namespace BlindToken.Rsa

-- Fermat's theorem, with the multiples of the prime included.
theorem pow_modEq_self {prime exponent : Nat} (hprime : prime.Prime)
    (h : exponent % (prime - 1) = 1) (value : Nat) : value ^ exponent ≡ value [MOD prime] := by
  have hsplit : exponent = (prime - 1) * (exponent / (prime - 1)) + 1 := by
    have := Nat.div_add_mod exponent (prime - 1)
    omega
  by_cases hdvd : prime ∣ value
  · have hpow : prime ∣ value ^ exponent := by
      rw [hsplit, Nat.pow_succ]
      exact Dvd.dvd.mul_left hdvd _
    exact (Nat.modEq_zero_iff_dvd.mpr hpow).trans (Nat.modEq_zero_iff_dvd.mpr hdvd).symm
  · have hcoprime : value.Coprime prime := ((hprime.coprime_iff_not_dvd).mpr hdvd).symm
    have hfermat := Nat.ModEq.pow_totient hcoprime
    rw [Nat.totient_prime hprime] at hfermat
    calc
      value ^ exponent = (value ^ (prime - 1)) ^ (exponent / (prime - 1)) * value := by
        rw [← Nat.pow_mul, ← Nat.pow_succ, Nat.succ_eq_add_one, ← hsplit]
      _ ≡ 1 ^ (exponent / (prime - 1)) * value [MOD prime] := (hfermat.pow _).mul_right value
      _ = value := by rw [Nat.one_pow, Nat.one_mul]

theorem mod_pred_le {value factor limit : Nat} (hfactor : 2 < factor) (hle : factor ≤ limit) :
    value % (factor - 1) ≤ limit := by
  have hlt := Nat.mod_lt value (Nat.sub_pos_of_lt (Nat.lt_of_succ_lt hfactor))
  exact (Nat.le_of_lt hlt).trans ((Nat.sub_le _ _).trans hle)

theorem PublicNumbers.raise_eq (key : PublicNumbers) (value : Nat) :
    key.raise value = value ^ key.exponent % key.modulus := powMod_eq _ _ _

namespace PrivateNumbers

theorem lower_modEq_prime2 (key : PrivateNumbers) (coefficient value : Nat) :
    key.lower coefficient value ≡ value ^ key.exponent2 [MOD key.prime2] := by
  simp only [lower, powMod_eq]
  exact Nat.add_modulus_mul_modEq_iff.mpr (Nat.mod_modEq _ _)

namespace Fits

-- Both factors are larger than two, and the other numbers are not larger than the modulus.
section Size

variable {key : PrivateNumbers} (h : key.Fits)

include h

theorem two_lt_of_inverse {factor : Nat}
    (hinverse : key.privateExponent * key.exponent % (factor - 1) = 1) : 2 < factor := by
  have hexponent := h.exponent_lower
  by_contra hle
  obtain hzero | hone : factor - 1 = 0 ∨ factor - 1 = 1 := by omega
  · rw [hzero, Nat.mod_zero] at hinverse
    have hone := Nat.eq_one_of_mul_eq_one_left hinverse
    omega
  · rw [hone, Nat.mod_one] at hinverse
    cases hinverse

theorem two_lt_prime1 : 2 < key.prime1 := h.two_lt_of_inverse h.inverse1

theorem two_lt_prime2 : 2 < key.prime2 := h.two_lt_of_inverse h.inverse2

theorem byteLength_modulus_le : byteLength key.modulus ≤ 512 := by
  have hbits := h.modulus_size
  unfold byteLength
  omega

theorem prime1_le : key.prime1 ≤ key.modulus := by
  rw [← h.modulus_eq]
  exact Nat.le_mul_of_pos_right _ (Nat.zero_lt_of_lt h.two_lt_prime2)

theorem prime2_le : key.prime2 ≤ key.modulus := by
  rw [← h.modulus_eq]
  exact Nat.le_mul_of_pos_left _ (Nat.zero_lt_of_lt h.two_lt_prime1)

theorem coefficient_le : key.coefficient?.getD 0 ≤ key.modulus := by
  obtain ⟨coefficient, hcoefficient⟩ := Option.isSome_iff_exists.mp h.coefficient
  rw [hcoefficient]
  have hlt := inverse?_lt (Nat.zero_lt_of_lt h.two_lt_prime1) hcoefficient
  exact Nat.le_trans (Nat.le_of_lt hlt) h.prime1_le

theorem exponent1_le : key.exponent1 ≤ key.modulus :=
  mod_pred_le h.two_lt_prime1 h.prime1_le

theorem exponent2_le : key.exponent2 ≤ key.modulus :=
  mod_pred_le h.two_lt_prime2 h.prime2_le

end Size

variable {key : PrivateNumbers} (h : key.Fits) (hpos : 0 < key.modulus)

include h hpos

theorem lower_lt (coefficient value : Nat) : key.lower coefficient value < key.modulus := by
  rw [← h.modulus_eq] at hpos
  have hprime1 := Nat.pos_of_mul_pos_right hpos
  have hprime2 := Nat.pos_of_mul_pos_left hpos
  simp only [lower, powMod_eq]
  have hroot2 := Nat.mod_lt (value ^ key.exponent2) hprime2
  generalize value ^ key.exponent2 % key.prime2 = root2 at *
  generalize coefficient * _ = product
  have hdigit := Nat.mod_lt product hprime1
  calc
    root2 + key.prime2 * (product % key.prime1)
      < key.prime2 * (product % key.prime1 + 1) := by rw [Nat.mul_succ]; omega
    _ ≤ key.prime2 * key.prime1 := Nat.mul_le_mul_left _ hdigit
    _ = key.modulus := by rw [Nat.mul_comm, h.modulus_eq]

-- Whatever the factors are, a signature that is given out is one.
theorem of_sign? {value signature : Nat} (hsign : key.sign? value = some signature) :
    signature < key.modulus ∧ key.raise signature = value := by
  obtain ⟨coefficient, -, hsign⟩ := Option.bind_eq_some_iff.mp hsign
  obtain ⟨hraise, hsignature⟩ := Option.ite_none_right_eq_some.mp hsign
  obtain rfl := Option.some.inj hsignature
  exact ⟨h.lower_lt hpos coefficient value, hraise⟩

end Fits

-- A key whose two factors are prime.
structure IsConsistent (key : PrivateNumbers) : Prop extends key.Fits where
  prime1 : key.prime1.Prime
  prime2 : key.prime2.Prime

namespace IsConsistent

variable {key : PrivateNumbers} (h : key.IsConsistent)

include h

theorem modulus_pos : 0 < key.modulus := by
  rw [← h.modulus_eq]
  exact Nat.mul_pos h.prime1.pos h.prime2.pos

-- A factor has an inverse modulo the other, so they are not the same.
theorem coprime : key.prime1.Coprime key.prime2 := by
  obtain ⟨coefficient, hcoefficient⟩ := Option.isSome_iff_exists.mp h.coefficient
  have hinverse := inverse?_modEq h.prime1.pos hcoefficient
  have hmul : (coefficient * key.prime2).Coprime key.prime1 :=
    (Nat.ModEq.gcd_eq hinverse).trans (Nat.gcd_one_left _)
  exact (Nat.Coprime.coprime_mul_left hmul).symm

theorem modEq_modulus_iff {left right : Nat} :
    left ≡ right [MOD key.modulus] ↔
      left ≡ right [MOD key.prime1] ∧ left ≡ right [MOD key.prime2] := by
  rw [← h.modulus_eq]
  exact (Nat.modEq_and_modEq_iff_modEq_mul h.coprime).symm

-- The public and the private exponent undo each other.
theorem pow_mul_modEq (value : Nat) :
    value ^ (key.privateExponent * key.exponent) ≡ value [MOD key.modulus] :=
  h.modEq_modulus_iff.mpr
    ⟨pow_modEq_self h.prime1 h.inverse1 value, pow_modEq_self h.prime2 h.inverse2 value⟩

theorem eq_of_raise_eq {left right : Nat} (hleft : left < key.modulus)
    (hright : right < key.modulus) (hraise : key.raise left = key.raise right) : left = right := by
  rw [PublicNumbers.raise_eq, PublicNumbers.raise_eq] at hraise
  have hroots : left ≡ right [MOD key.modulus] :=
    calc
      left ≡ (left ^ key.exponent) ^ key.privateExponent [MOD key.modulus] := by
        rw [← Nat.pow_mul, Nat.mul_comm]
        exact (h.pow_mul_modEq left).symm
      _ ≡ (right ^ key.exponent) ^ key.privateExponent [MOD key.modulus] :=
        Nat.ModEq.pow _ hraise
      _ ≡ right [MOD key.modulus] := by
        rw [← Nat.pow_mul, Nat.mul_comm]
        exact h.pow_mul_modEq right
  exact Nat.ModEq.eq_of_lt_of_lt hroots hleft hright

section Lower

variable {coefficient : Nat} (hcoefficient : key.coefficient? = some coefficient) (value : Nat)

include hcoefficient

theorem lower_modEq_prime1 :
    key.lower coefficient value ≡ value ^ key.exponent1 [MOD key.prime1] := by
  have hinverse : key.prime2 * coefficient ≡ 1 [MOD key.prime1] := by
    rw [Nat.mul_comm]
    exact inverse?_modEq h.prime1.pos hcoefficient
  simp only [lower, powMod_eq]
  generalize hroot1 : value ^ key.exponent1 % key.prime1 = root1
  generalize value ^ key.exponent2 % key.prime2 = root2
  have hle : root2 % key.prime1 ≤ key.prime1 := Nat.le_of_lt (Nat.mod_lt _ h.prime1.pos)
  calc
    root2 + key.prime2 * (coefficient * (root1 + (key.prime1 - root2 % key.prime1)) % key.prime1)
      ≡ root2 + key.prime2 * (coefficient * (root1 + (key.prime1 - root2 % key.prime1)))
          [MOD key.prime1] := ((Nat.mod_modEq _ _).mul_left _).add_left _
    _ ≡ root2 % key.prime1 + 1 * (root1 + (key.prime1 - root2 % key.prime1)) [MOD key.prime1] := by
      rw [← Nat.mul_assoc]
      exact (Nat.mod_modEq _ _).symm.add (hinverse.mul_right _)
    _ = root1 + key.prime1 := by omega
    _ ≡ root1 [MOD key.prime1] := Nat.add_modEq_right
    _ ≡ value ^ key.exponent1 [MOD key.prime1] := hroot1 ▸ Nat.mod_modEq _ _

theorem raise_lower (hvalue : value < key.modulus) :
    key.raise (key.lower coefficient value) = value := by
  have hroot {prime exponent : Nat} (hprime : prime.Prime)
      (hinverse : key.privateExponent * key.exponent % (prime - 1) = 1)
      (hlower : key.lower coefficient value ≡ value ^ exponent [MOD prime])
      (hexponent : exponent = key.privateExponent % (prime - 1)) :
      key.lower coefficient value ^ key.exponent ≡ value [MOD prime] := by
    subst hexponent
    refine (hlower.pow _).trans ?_
    rw [← Nat.pow_mul]
    exact pow_modEq_self hprime (by rw [Nat.mod_mul_mod, hinverse]) value
  have hpow : key.lower coefficient value ^ key.exponent ≡ value [MOD key.modulus] :=
    h.modEq_modulus_iff.mpr
      ⟨hroot h.prime1 h.inverse1 (h.lower_modEq_prime1 hcoefficient value) rfl,
        hroot h.prime2 h.inverse2 (key.lower_modEq_prime2 coefficient value) rfl⟩
  rw [PublicNumbers.raise_eq, hpow, Nat.mod_eq_of_lt hvalue]

end Lower

theorem exists_sign? {value : Nat} (hvalue : value < key.modulus) :
    ∃ signature, key.sign? value = some signature ∧ signature < key.modulus ∧
      key.raise signature = value := by
  obtain ⟨coefficient, hcoefficient⟩ := Option.isSome_iff_exists.mp h.coefficient
  have hraise := h.raise_lower hcoefficient value hvalue
  refine ⟨key.lower coefficient value, ?_, h.toFits.lower_lt h.modulus_pos _ _, hraise⟩
  simp [sign?, hcoefficient, hraise]

end IsConsistent

end PrivateNumbers

end BlindToken.Rsa
