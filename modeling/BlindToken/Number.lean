namespace BlindToken

-- Zero has no digits.
def bitLength (value : Nat) : Nat := if value = 0 then 0 else value.log2 + 1

def byteLength (value : Nat) : Nat := (bitLength value + 7) / 8

def powModFrom (modulus : Nat) : (digits base exponent : Nat) → Nat
  | 0, _, _ => 1 % modulus
  | digits + 1, base, exponent =>
    let rest := powModFrom modulus digits (base * base % modulus) (exponent / 2)
    if exponent % 2 = 1 then base * rest % modulus else rest

def powMod (base exponent modulus : Nat) : Nat :=
  powModFrom modulus (bitLength exponent) (base % modulus) exponent

-- A remainder of Euclid's algorithm, and a factor that takes the value to it modulo the modulus.
structure Remainder where
  remainder : Nat
  factor : Nat

def inverseFrom (modulus : Nat) : (fuel : Nat) → (older newer : Remainder) → Option Nat
  | 0, _, _ => none
  | fuel + 1, older, newer =>
    if newer.remainder = 0 then
      if older.remainder = 1 then some older.factor else none
    else
      let quotient := older.remainder / newer.remainder
      let taken := quotient * newer.factor % modulus
      inverseFrom modulus fuel newer
        ⟨older.remainder % newer.remainder, (older.factor + (modulus - taken)) % modulus⟩

-- The number below the modulus that multiplies with the value to one, if there is one. The
-- remainders fall, so the fuel suffices.
def inverse? (value modulus : Nat) : Option Nat :=
  inverseFrom modulus (value % modulus + 1) ⟨modulus, 0⟩ ⟨value % modulus, 1 % modulus⟩

-- The bases of the Miller-Rabin test.
def smallPrimes : List Nat :=
  [2, 3, 5, 7, 11, 13, 17, 19, 23, 29, 31, 37, 41, 43, 47, 53, 59, 61, 67, 71]

-- The value is the odd number returned, times two to the count returned.
def splitTwos : (fuel : Nat) → (value count : Nat) → Nat × Nat
  | 0, value, count => (value, count)
  | fuel + 1, value, count =>
    if value % 2 = 0 then splitTwos fuel (value / 2) (count + 1) else (value, count)

-- Whether one of the powers, each the square of the one before, is minus one.
def reachesMinusOne (modulus : Nat) : (squarings power : Nat) → Bool
  | 0, _ => false
  | squarings + 1, power =>
    power + 1 = modulus || reachesMinusOne modulus squarings (power * power % modulus)

def passesBase (value odd twos base : Nat) : Bool :=
  let power := powMod base odd value
  base % value = 0 || power = 1 || reachesMinusOne value twos power

def isProbablePrime (value : Nat) : Bool :=
  if value < 2 then false
  else
    let (odd, twos) := splitTwos (bitLength value) (value - 1) 0
    smallPrimes.all (passesBase value odd twos)

end BlindToken
