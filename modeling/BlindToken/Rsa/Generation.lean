import BlindToken.Number
import BlindToken.Random.Source
import BlindToken.Rsa.Key

namespace BlindToken.Rsa

-- A key has two primes of half the size each. A draw that leads to no prime, and a pair that leads
-- to no key, is followed by another.
structure KeySize where
  primeBytes : Nat
  exponent : Nat

namespace KeySize

variable {state : Type} (size : KeySize) (source : Source state)

def primeBits : Nat := 8 * size.primeBytes

-- An odd number with its two highest bits set, so that the product of two has the full size.
def candidate (drawn : Nat) : Nat := drawn ||| 3 <<< (size.primeBits - 2) ||| 1

-- The odd primes that a candidate is tried with before any other test.
def sievePrimes : List Nat := [3, 5, 7, 11, 13, 17, 19, 23, 29, 31, 37, 41, 43, 47, 53]

def isSieved (value : Nat) : Bool := sievePrimes.all fun prime => value % prime ≠ 0

-- The first number from an odd one on, in steps of two, that no sieve prime divides.
def sieve? : (steps : Nat) → Nat → Option Nat
  | 0, _ => none
  | steps + 1, value => if isSieved value then some value else sieve? steps (value + 2)

def sieveSteps : Nat := 0x80000

-- A draw is given up if the number found is too long or not prime.
def primeOfDraw? (drawn : Nat) : Option Nat := do
  let value ← sieve? sieveSteps (size.candidate drawn)
  guard (bitLength value = size.primeBits)
  guard (isProbablePrime value)
  return value

def drawPrime? : (attempts : Nat) → state → Option (Nat × state)
  | 0, _ => none
  | attempts + 1, current => do
    let (drawn, current) ← source.draw current size.primeBytes
    match size.primeOfDraw? drawn.toNat with
    | some prime => return (prime, current)
    | none => drawPrime? attempts current

def keyOfPrimes? (prime1 prime2 : Nat) : Option PrivateNumbers := do
  guard (prime1 ≠ prime2)
  let modulus := prime1 * prime2
  guard (bitLength modulus = 2 * size.primeBits)
  let privateExponent ← inverse? size.exponent ((prime1 - 1) * (prime2 - 1))
  return { modulus, exponent := size.exponent, privateExponent, prime1, prime2 }

-- More draws for a prime than it ever takes, and more pairs for a key.
def attemptLimit : Nat := 0x100000

def drawKey? : (attempts : Nat) → state → Option (PrivateNumbers × state)
  | 0, _ => none
  | attempts + 1, current => do
    let (prime1, current) ← size.drawPrime? source attemptLimit current
    let (prime2, current) ← size.drawPrime? source attemptLimit current
    match size.keyOfPrimes? prime1 prime2 with
    | some key => return (key, current)
    | none => drawKey? attempts current

def generate? (current : state) : Option (PrivateNumbers × state) :=
  size.drawKey? source attemptLimit current

end KeySize

end BlindToken.Rsa
