import BlindToken.Bytes.Basic
import BlindToken.Rsa.Key
import BlindToken.Rsa.Pss

namespace BlindToken.Rsa

-- A number that hides a message, with its inverse modulo the key's modulus. The client multiplies
-- the encoded message with a power of it, the issuer signs the product, and dividing by it gives
-- the signature of the message.
structure Blind where
  factor : Nat
  inverse : Nat
deriving DecidableEq

-- Blinds are drawn in words of 64 bits.
def blindSize (modulus : Nat) : Nat := 8 * ((bitLength modulus + 63) / 64)

-- The number that drawn bytes stand for: little-endian, with the highest word shifted down by
-- the bits that the modulus does not use of it.
def blindFactor (modulus : Nat) (drawn : Bytes) : Nat :=
  let value := Bytes.toNat drawn.reverse
  let words := (bitLength modulus + 63) / 64
  let low := 64 * (words - 1)
  let high := value >>> low >>> (64 * words - bitLength modulus)
  high <<< low + value % 1 <<< low

-- Zero stands for one; a number that is not below the modulus or has no inverse is refused.
def Blind.ofDraw? (modulus : Nat) (drawn : Bytes) : Option Blind := do
  let drawn := blindFactor modulus drawn
  guard (drawn < modulus)
  let factor := if drawn = 0 then 1 else drawn
  return ⟨factor, ← inverse? factor modulus⟩

namespace PublicNumbers

variable (key : PublicNumbers)

-- The number to be signed. It has to have an inverse modulo the key's modulus.
def encodeMessage? (message salt : Bytes) : Option Nat := do
  let encoded ← Pss.encode? (8 * byteLength key.modulus - 1) message salt
  let value := Bytes.toNat encoded
  if Nat.gcd value key.modulus = 1 then some value else none

def blind (value : Nat) (blind : Blind) : Nat := value * key.raise blind.factor % key.modulus

def unblind (signature : Nat) (blind : Blind) : Nat := signature * blind.inverse % key.modulus

-- Whether the bytes sign the message. They are as long as the modulus, but the number may be
-- larger than it. If the encoding needs a byte less than the modulus, the first byte is dropped.
def verify (message signature : Bytes) : Bool :=
  let bits := bitLength key.modulus - 1
  let size := byteLength key.modulus
  let recovered := Bytes.ofNat size (key.raise (Bytes.toNat signature))
  signature.length = size &&
    Pss.verify bits message (recovered.drop (size - (bits + 7) / 8))

end PublicNumbers

end BlindToken.Rsa
