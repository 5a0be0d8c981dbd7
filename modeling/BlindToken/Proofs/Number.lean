import Mathlib.Algebra.Order.Ring.Nat
import Mathlib.Data.Nat.Digits.Lemmas
import Mathlib.Data.Nat.ModEq
import Mathlib.NumberTheory.LucasPrimality
import BlindToken.Number
import BlindToken.Proofs.Bytes

namespace BlindToken

section BitLength

variable {value bits : Nat}

theorem bitLength_le_iff : bitLength value ≤ bits ↔ value < 2 ^ bits := by
  unfold bitLength
  split
  · rename_i hzero
    simp [hzero]
  · rename_i hvalue
    exact Nat.succ_le_iff.trans (Nat.log2_lt hvalue)

theorem lt_bitLength_iff : bits < bitLength value ↔ 2 ^ bits ≤ value := by
  rw [← Nat.not_le, bitLength_le_iff, Nat.not_lt]

theorem lt_two_pow_bitLength (value : Nat) : value < 2 ^ bitLength value :=
  bitLength_le_iff.mp (Nat.le_refl _)

theorem two_pow_le_of_bitLength (h : bitLength value = bits + 1) : 2 ^ bits ≤ value :=
  lt_bitLength_iff.mp (Nat.lt_of_lt_of_eq (Nat.lt_succ_self bits) h.symm)

theorem lt_pow_byteLength (value : Nat) : value < 256 ^ byteLength value := by
  rw [show 256 = 2 ^ 8 from rfl, ← Nat.pow_mul, ← bitLength_le_iff]
  unfold byteLength
  omega

theorem bitLength_eq_length_digits (value : Nat) :
    bitLength value = (Nat.digits 2 value).length :=
  eq_of_forall_ge_iff fun _ =>
    bitLength_le_iff.trans (Nat.digits_length_le_iff (by decide) value).symm

-- The highest bit of a number is the highest bit of its upper part.
theorem bitLength_mul_two_pow_add {high low rest : Nat} (hhigh : high ≠ 0)
    (hrest : rest < 2 ^ low) : bitLength (high * 2 ^ low + rest) = bitLength high + low := by
  obtain ⟨top, htop⟩ : ∃ top, bitLength high = top + 1 :=
    Nat.exists_eq_succ_of_ne_zero (Nat.pos_iff_ne_zero.mp (lt_bitLength_iff.mpr
      (Nat.one_le_iff_ne_zero.mpr hhigh)))
  have hlower : 2 ^ (top + low) ≤ high * 2 ^ low + rest := by
    rw [Nat.pow_add]
    exact Nat.le_add_right_of_le (Nat.mul_le_mul_right _ (two_pow_le_of_bitLength htop))
  have hupper : high * 2 ^ low + rest < 2 ^ (top + 1 + low) := by
    calc
      high * 2 ^ low + rest < (high + 1) * 2 ^ low := by
        rw [Nat.succ_mul]
        omega
      _ ≤ 2 ^ (top + 1) * 2 ^ low :=
        Nat.mul_le_mul_right _ (htop ▸ lt_two_pow_bitLength high)
      _ = 2 ^ (top + 1 + low) := (Nat.pow_add ..).symm
  have hleast := lt_bitLength_iff.mpr hlower
  have hmost := bitLength_le_iff.mpr hupper
  omega

theorem bitLength_toNat_bitVec {width : Nat} (word : BitVec width) :
    bitLength word.toNat = width - word.clz.toNat := by
  refine Nat.le_antisymm (bitLength_le_iff.mpr BitVec.toNat_lt_two_pow_sub_clz) ?_
  by_cases hcount : width - word.clz.toNat = 0
  · exact hcount ▸ Nat.zero_le _
  · have hword : word ≠ 0 := by
      rintro rfl
      have hzeros : (0 : BitVec width).clz = width := BitVec.clz_eq_iff_eq_zero.mpr rfl
      have hwidth : (width : BitVec width).toNat = width := Nat.mod_eq_of_lt Nat.lt_two_pow_self
      rw [hzeros, hwidth] at hcount
      omega
    have hlower := BitVec.two_pow_sub_clz_le_toNat_of_ne_zero (by omega) hword
    have hleast := lt_bitLength_iff.mpr hlower
    omega

namespace Bytes

theorem significantBits_cons (first : UInt8) (rest : Bytes) :
    significantBits (first :: rest) = bitLength first.toNat + 8 * rest.length := by
  have hzeros : first.toBitVec.clz.toNat ≤ 8 := BitVec.clz_le
  have hfirst : bitLength first.toNat = 8 - first.toBitVec.clz.toNat :=
    bitLength_toNat_bitVec first.toBitVec
  rw [significantBits, hfirst, List.length_cons]
  omega

theorem bitLength_toNat_cons {first : UInt8} (hfirst : first ≠ 0) (rest : Bytes) :
    bitLength (toNat (first :: rest)) = bitLength first.toNat + 8 * rest.length := by
  have hbyte : first.toNat ≠ 0 := fun h => hfirst (UInt8.toNat_inj.mp h)
  have hpow : 256 ^ rest.length = 2 ^ (8 * rest.length) := (Nat.pow_mul 2 8 _).symm
  rw [toNat_cons, hpow]
  exact bitLength_mul_two_pow_add hbyte (hpow ▸ toNat_lt rest)

theorem significantBits_ofNat_widthOf (value : Nat) :
    significantBits (ofNat (widthOf value) value) = bitLength value := by
  by_cases hvalue : value = 0
  · subst hvalue
    decide
  · obtain ⟨first, rest, hdigits, hfirst, rfl⟩ := exists_cons_of_widthOf hvalue
    rw [hdigits, significantBits_cons, bitLength_toNat_cons hfirst]

end Bytes

end BitLength

section Power

private theorem powModFrom_eq (modulus digits base exponent : Nat) (h : exponent < 2 ^ digits) :
    powModFrom modulus digits base exponent = base ^ exponent % modulus := by
  induction digits generalizing base exponent with
  | zero =>
    obtain rfl : exponent = 0 := by simpa using h
    rfl
  | succ digits ih =>
    have hhalf : exponent / 2 < 2 ^ digits := by
      rw [Nat.pow_succ] at h
      omega
    have hsquare : (base * base % modulus) ^ (exponent / 2) % modulus =
        base ^ (2 * (exponent / 2)) % modulus := by
      rw [← Nat.pow_mod, Nat.pow_mul, Nat.pow_two]
    simp only [powModFrom, ih _ _ hhalf, hsquare]
    have hsplit : exponent = exponent % 2 + 2 * (exponent / 2) := by omega
    split
    · rename_i hodd
      rw [Nat.mul_mod_mod, ← Nat.pow_succ']
      congr 2
      omega
    · congr 2
      omega

theorem powMod_eq (base exponent modulus : Nat) :
    powMod base exponent modulus = base ^ exponent % modulus := by
  rw [powMod, powModFrom_eq _ _ _ _ (lt_two_pow_bitLength exponent), ← Nat.pow_mod]

end Power

section Inverse

-- The factor does what it is for.
def Remainder.Of (modulus value : Nat) (current : Remainder) : Prop :=
  current.factor * value ≡ current.remainder [MOD modulus]

section Inverse

variable {modulus value : Nat} {older newer : Remainder}

-- A step of the algorithm takes a multiple of the newer remainder from the older one, and the same
-- multiple of its factor from the older factor.
private theorem Remainder.Of.next (hmodulus : 0 < modulus) (holder : older.Of modulus value)
    (hnewer : newer.Of modulus value) :
    let taken := older.remainder / newer.remainder * newer.factor % modulus
    Remainder.Of modulus value
      ⟨older.remainder % newer.remainder, (older.factor + (modulus - taken)) % modulus⟩ := by
  intro taken
  have hle : taken ≤ modulus := Nat.le_of_lt (Nat.mod_lt _ hmodulus)
  have htaken : taken * value ≡
      newer.remainder * (older.remainder / newer.remainder) [MOD modulus] := by
    have hquotient := hnewer.mul_left (older.remainder / newer.remainder)
    rw [← Nat.mul_assoc, Nat.mul_comm _ newer.remainder] at hquotient
    exact ((Nat.mod_modEq _ _).mul_right value).trans hquotient
  have hsum : (older.factor + (modulus - taken)) * value + taken * value ≡
      older.remainder % newer.remainder + taken * value [MOD modulus] :=
    calc
      (older.factor + (modulus - taken)) * value + taken * value
        = older.factor * value + modulus * value := by
          rw [← Nat.add_mul, Nat.add_assoc, Nat.sub_add_cancel hle, Nat.add_mul]
      _ ≡ older.remainder + 0 [MOD modulus] :=
          Nat.ModEq.add holder (Nat.modEq_zero_iff_dvd.mpr (Nat.dvd_mul_right _ _))
      _ = older.remainder % newer.remainder +
          newer.remainder * (older.remainder / newer.remainder) := by
          rw [Nat.mod_add_div, Nat.add_zero]
      _ ≡ older.remainder % newer.remainder + taken * value [MOD modulus] :=
          htaken.symm.add_left _
  exact ((Nat.mod_modEq _ _).mul_right value).trans (hsum.add_right_cancel' _)

private theorem inverseFrom_modEq (hmodulus : 0 < modulus) {fuel found : Nat}
    (holder : older.Of modulus value) (hnewer : newer.Of modulus value)
    (h : inverseFrom modulus fuel older newer = some found) : found * value ≡ 1 [MOD modulus] := by
  induction fuel generalizing older newer with
  | zero => cases h
  | succ fuel ih =>
    rw [inverseFrom] at h
    split at h
    · split at h
      · rename_i hone
        cases h
        exact hone ▸ holder
      · cases h
    · exact ih hnewer (holder.next hmodulus hnewer) h

theorem inverse?_modEq (hmodulus : 0 < modulus) {found : Nat}
    (h : inverse? value modulus = some found) : found * value ≡ 1 [MOD modulus] := by
  refine inverseFrom_modEq hmodulus ?_ ?_ h
  · rw [Remainder.Of, Nat.zero_mul]
    exact (Nat.modEq_zero_iff_dvd.mpr (Nat.dvd_refl modulus)).symm
  · have hone := (Nat.mod_modEq 1 modulus).mul_right value
    rw [Nat.one_mul] at hone
    exact hone.trans (Nat.mod_modEq value modulus).symm

private theorem inverseFrom_lt (hmodulus : 0 < modulus) {fuel found : Nat}
    (holder : older.factor < modulus) (hnewer : newer.factor < modulus)
    (h : inverseFrom modulus fuel older newer = some found) : found < modulus := by
  induction fuel generalizing older newer with
  | zero => cases h
  | succ fuel ih =>
    rw [inverseFrom] at h
    split at h
    · split at h
      · cases h
        exact holder
      · cases h
    · exact ih hnewer (Nat.mod_lt _ hmodulus) h

theorem inverse?_lt (hmodulus : 0 < modulus) {found : Nat}
    (h : inverse? value modulus = some found) : found < modulus :=
  inverseFrom_lt hmodulus hmodulus (Nat.mod_lt _ hmodulus) h

-- The remainders stay coprime and fall, so the algorithm ends at one.
private theorem exists_inverseFrom {fuel : Nat}
    (hcoprime : older.remainder.Coprime newer.remainder) (hfuel : newer.remainder < fuel) :
    ∃ found, inverseFrom modulus fuel older newer = some found := by
  induction fuel generalizing older newer with
  | zero => exact absurd hfuel (Nat.not_lt_zero _)
  | succ fuel ih =>
    rw [inverseFrom]
    split
    · rename_i hzero
      rw [hzero, Nat.coprime_zero_right] at hcoprime
      exact ⟨older.factor, if_pos hcoprime⟩
    · rename_i hne
      have hlt := Nat.mod_lt older.remainder (Nat.pos_of_ne_zero hne)
      refine ih ?_ (Nat.lt_of_lt_of_le hlt (Nat.le_of_lt_succ hfuel))
      rw [Nat.Coprime, Nat.gcd_comm, ← Nat.gcd_rec, Nat.gcd_comm]
      exact hcoprime

theorem exists_inverse? (h : value.Coprime modulus) :
    ∃ found, inverse? value modulus = some found := by
  refine exists_inverseFrom ?_ (Nat.lt_succ_self _)
  rw [Nat.Coprime, Nat.gcd_comm, ← Nat.gcd_rec, Nat.gcd_comm]
  exact h

end Inverse

end Inverse

section Prime

theorem cast_pow_eq_one_iff {modulus : Nat} (hmodulus : 1 < modulus) (base exponent : Nat) :
    (base : ZMod modulus) ^ exponent = 1 ↔ powMod base exponent modulus = 1 := by
  have hmod : base ^ exponent ≡ 1 [MOD modulus] ↔ powMod base exponent modulus = 1 := by
    rw [powMod_eq, Nat.ModEq, Nat.mod_eq_of_lt hmodulus]
  rw [← hmod, ← ZMod.natCast_eq_natCast_iff, Nat.cast_pow, Nat.cast_one]

-- The base has the largest order there can be, so all smaller numbers but zero are units.
theorem prime_of_powMod {value base factor twos others : Nat} (hfactor : factor.Prime)
    (hvalue : value = 2 ^ twos * factor ^ others + 1)
    (hone : powMod base (value - 1) value = 1) (htwo : powMod base ((value - 1) / 2) value ≠ 1)
    (hother : powMod base ((value - 1) / factor) value ≠ 1) : value.Prime := by
  have hlt : 1 < value := by
    have := Nat.mul_pos (Nat.two_pow_pos twos) (Nat.pow_pos (n := others) hfactor.pos)
    omega
  refine lucas_primality value (base : ZMod value) ((cast_pow_eq_one_iff hlt _ _).mpr hone) ?_
  intro prime hprime hdvd
  rw [ne_eq, cast_pow_eq_one_iff hlt]
  have hproduct : value - 1 = 2 ^ twos * factor ^ others := by omega
  rw [hproduct] at hdvd
  rcases hprime.dvd_mul.mp hdvd with hleft | hright
  · obtain rfl := (Nat.prime_dvd_prime_iff_eq hprime Nat.prime_two).mp (hprime.dvd_of_dvd_pow hleft)
    exact htwo
  · obtain rfl := (Nat.prime_dvd_prime_iff_eq hprime hfactor).mp (hprime.dvd_of_dvd_pow hright)
    exact hother

end Prime

end BlindToken
