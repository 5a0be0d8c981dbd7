import BlindToken.Key.Private
import BlindToken.Proofs.Key.Public
import BlindToken.Proofs.Number

namespace BlindToken

variable {state : Type} {source : Source state} {current next : state}

namespace Rsa.KeySize

theorem exponent_of_keyOfPrimes? {size : KeySize} {prime1 prime2 : Nat}
    {numbers : PrivateNumbers} (h : size.keyOfPrimes? prime1 prime2 = some numbers) :
    numbers.exponent = size.exponent := by
  obtain ⟨-, -, h⟩ := Option.bind_eq_some_iff.mp h
  obtain ⟨-, -, h⟩ := Option.bind_eq_some_iff.mp h
  obtain ⟨privateExponent, -, h⟩ := Option.bind_eq_some_iff.mp h
  obtain rfl := Option.some.inj h
  rfl

theorem privateExponent_le_of_keyOfPrimes? {size : KeySize} {prime1 prime2 : Nat}
    {numbers : PrivateNumbers} (h : size.keyOfPrimes? prime1 prime2 = some numbers)
    (hprime1 : 1 < numbers.prime1) (hprime2 : 1 < numbers.prime2) :
    numbers.privateExponent ≤ numbers.modulus := by
  obtain ⟨-, -, h⟩ := Option.bind_eq_some_iff.mp h
  obtain ⟨-, -, h⟩ := Option.bind_eq_some_iff.mp h
  obtain ⟨privateExponent, hinverse, h⟩ := Option.bind_eq_some_iff.mp h
  obtain rfl := Option.some.inj h
  have htotient := Nat.mul_pos (Nat.sub_pos_of_lt hprime1) (Nat.sub_pos_of_lt hprime2)
  have hlt := inverse?_lt htotient hinverse
  exact (Nat.le_of_lt hlt).trans (Nat.mul_le_mul (Nat.sub_le _ _) (Nat.sub_le _ _))

-- Pairs of primes that lead to no key leave no trace.
theorem exists_primes_of_drawKey? {size : KeySize} {attempts : Nat} {numbers : PrivateNumbers}
    (h : size.drawKey? source attempts current = some (numbers, next)) :
    ∃ prime1 prime2, size.keyOfPrimes? prime1 prime2 = some numbers := by
  induction attempts generalizing current with
  | zero => cases h
  | succ attempts ih =>
    rw [drawKey?] at h
    obtain ⟨⟨prime1, second⟩, -, h⟩ := Option.bind_eq_some_iff.mp h
    obtain ⟨⟨prime2, third⟩, -, h⟩ := Option.bind_eq_some_iff.mp h
    dsimp only at h
    split at h
    · rename_i hkey
      obtain ⟨rfl, -⟩ := Prod.mk.inj (Option.some.inj h)
      exact ⟨prime1, prime2, hkey⟩
    · exact ih h

end Rsa.KeySize

namespace PrivateKey

theorem numbers_of_ofNumbers {numbers : Rsa.PrivateNumbers} {key : PrivateKey}
    (h : ofNumbers numbers = .ok key) : key.numbers = numbers := by
  unfold ofNumbers at h
  split at h
  · cases h
  · split at h
    · split at h
      · obtain rfl := Except.ok.inj h
        rfl
      · cases h
    · cases h

theorem exists_primes_of_generate {key : PrivateKey}
    (h : generate source current = .ok (key, next)) :
    ∃ prime1 prime2, keySize.keyOfPrimes? prime1 prime2 = some key.numbers := by
  unfold generate at h
  split at h
  · rename_i numbers drawn hnumbers
    split at h
    · rename_i made hmade
      obtain ⟨rfl, -⟩ := Prod.mk.inj (Except.ok.inj h)
      rw [numbers_of_ofNumbers hmade]
      exact Rsa.KeySize.exists_primes_of_drawKey? hnumbers
    · cases h
  · cases h

theorem exponent_of_generate {key : PrivateKey}
    (h : generate source current = .ok (key, next)) : key.numbers.exponent = 65537 := by
  obtain ⟨prime1, prime2, hkey⟩ := exists_primes_of_generate h
  exact Rsa.KeySize.exponent_of_keyOfPrimes? hkey

theorem bits_eq (key : PrivateKey) : key.bits = bitLength key.numbers.modulus := by
  obtain ⟨-, -, -, hbits⟩ := PublicKey.ofNumbers_eq_ok_iff.mp key.publicKey_eq
  exact hbits

end PrivateKey

end BlindToken
