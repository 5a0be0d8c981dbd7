import BlindToken.Der
import BlindToken.Rsa.Key

namespace BlindToken.Pkcs1

def publicKey (key : Rsa.PublicNumbers) : Der.Element :=
  Der.sequence [Der.integer key.modulus, Der.integer key.exponent]

-- The bytes of the two numbers of a public key.
def readPublicBytes? (bytes : Bytes) : Option (Bytes × Bytes) := do
  let content ← Der.document? Der.sequenceTag bytes
  let (modulus, content) ← Der.readUnsigned? content
  let (exponent, content) ← Der.readUnsigned? content
  guard (content = [])
  return (modulus, exponent)

def readPublic? (bytes : Bytes) : Option Rsa.PublicNumbers := do
  let (modulus, exponent) ← readPublicBytes? bytes
  return { modulus := modulus.toNat, exponent := exponent.toNat }

-- A version, the numbers, and three numbers that follow from them.
def privateKey (key : Rsa.PrivateNumbers) : Der.Element :=
  Der.sequence [Der.integer 0, Der.integer key.modulus, Der.integer key.exponent,
    Der.integer key.privateExponent, Der.integer key.prime1, Der.integer key.prime2,
    Der.integer key.exponent1, Der.integer key.exponent2, Der.integer (key.coefficient?.getD 0)]

-- The three numbers that follow from the others are read and dropped.
def readPrivate? (bytes : Bytes) : Option Rsa.PrivateNumbers := do
  let content ← Der.document? Der.sequenceTag bytes
  let (version, content) ← Der.readInteger? content
  guard (version = 0)
  let (modulus, content) ← Der.readInteger? content
  let (exponent, content) ← Der.readInteger? content
  let (privateExponent, content) ← Der.readInteger? content
  let (prime1, content) ← Der.readInteger? content
  let (prime2, content) ← Der.readInteger? content
  let (_, content) ← Der.readInteger? content
  let (_, content) ← Der.readInteger? content
  let (_, content) ← Der.readInteger? content
  guard (content = [])
  return { modulus, exponent, privateExponent, prime1, prime2 }

end BlindToken.Pkcs1
