import BlindToken.Number

namespace BlindToken.Rsa

structure PublicNumbers where
  modulus : Nat
  exponent : Nat
deriving DecidableEq

def PublicNumbers.raise (key : PublicNumbers) (value : Nat) : Nat :=
  powMod value key.exponent key.modulus

structure PrivateNumbers extends PublicNumbers where
  privateExponent : Nat
  prime1 : Nat
  prime2 : Nat
deriving DecidableEq

namespace PrivateNumbers

variable (key : PrivateNumbers)

def exponent1 : Nat := key.privateExponent % (key.prime1 - 1)

def exponent2 : Nat := key.privateExponent % (key.prime2 - 1)

def coefficient? : Option Nat := inverse? key.prime2 key.prime1

def exponentLimit : Nat := 0x200000000

-- The numbers belong together, and the modulus and the exponent have supported sizes. Whether the
-- two factors are prime is not asked.
structure Fits : Prop where
  modulus_size : bitLength key.modulus ≤ 4096
  exponent_lower : 2 ≤ key.exponent
  exponent_upper : key.exponent < exponentLimit
  modulus_eq : key.prime1 * key.prime2 = key.modulus
  inverse1 : key.privateExponent * key.exponent % (key.prime1 - 1) = 1
  inverse2 : key.privateExponent * key.exponent % (key.prime2 - 1) = 1
  coefficient : key.coefficient?.isSome

instance : Decidable key.Fits :=
  decidable_of_iff
    (bitLength key.modulus ≤ 4096 ∧ 2 ≤ key.exponent ∧ key.exponent < exponentLimit ∧
      key.prime1 * key.prime2 = key.modulus ∧
      key.privateExponent * key.exponent % (key.prime1 - 1) = 1 ∧
      key.privateExponent * key.exponent % (key.prime2 - 1) = 1 ∧
      key.coefficient?.isSome)
    ⟨fun ⟨a, b, c, d, e, f, g⟩ => ⟨a, b, c, d, e, f, g⟩,
      fun ⟨a, b, c, d, e, f, g⟩ => ⟨a, b, c, d, e, f, g⟩⟩

-- The private power of a value, from its powers modulo the two factors.
def lower (coefficient value : Nat) : Nat :=
  let root1 := powMod value key.exponent1 key.prime1
  let root2 := powMod value key.exponent2 key.prime2
  root2 + key.prime2 * (coefficient * (root1 + (key.prime1 - root2 % key.prime1)) % key.prime1)

-- The signature of a value below the modulus. It is given out only if it verifies.
def sign? (value : Nat) : Option Nat := do
  let signature := key.lower (← key.coefficient?) value
  if key.raise signature = value then some signature else none

end PrivateNumbers

end BlindToken.Rsa
