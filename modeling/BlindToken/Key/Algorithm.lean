import BlindToken.Der

namespace BlindToken

-- An object identifier and, depending on the algorithm, its parameters.
structure Algorithm where
  identifier : Bytes
  parameters : Option Der.Element
deriving DecidableEq

namespace Algorithm

def element (algorithm : Algorithm) : Der.Element :=
  Der.sequence (Der.objectIdentifier algorithm.identifier :: algorithm.parameters.toList)

def read? (input : Bytes) : Option (Algorithm × Bytes) := do
  let (content, rest) ← Der.expect? Der.sequenceTag input
  let (identifier, content) ← Der.expect? Der.objectIdentifierTag content
  if content = [] then return (⟨identifier, none⟩, rest)
  else
    let (parameters, content) ← Der.Element.read? content
    guard (content = [])
    return (⟨identifier, some parameters⟩, rest)

-- 1.2.840.113549.1.1.1
def rsaIdentifier : Bytes := [0x2a, 0x86, 0x48, 0x86, 0xf7, 0x0d, 0x01, 0x01, 0x01]

-- 1.2.840.113549.1.1.10
def pssIdentifier : Bytes := [0x2a, 0x86, 0x48, 0x86, 0xf7, 0x0d, 0x01, 0x01, 0x0a]

-- 1.2.840.113549.1.1.8
def mgf1Identifier : Bytes := [0x2a, 0x86, 0x48, 0x86, 0xf7, 0x0d, 0x01, 0x01, 0x08]

-- 2.16.840.1.101.3.4.2.2
def sha384Identifier : Bytes := [0x60, 0x86, 0x48, 0x01, 0x65, 0x03, 0x04, 0x02, 0x02]

-- RSA without a scheme.
def rsa : Algorithm := ⟨rsaIdentifier, some Der.null⟩

-- RSA signatures in the PSS scheme with SHA-384, the mask of the same hash, and a salt of 48 bytes.
def rsaPss : Algorithm :=
  let hash := Der.sequence [Der.objectIdentifier sha384Identifier]
  ⟨pssIdentifier, some (Der.sequence [
    Der.tagged 0 hash,
    Der.tagged 1 (Der.sequence [Der.objectIdentifier mgf1Identifier, hash]),
    Der.tagged 2 (Der.integer 48)])⟩

end Algorithm

end BlindToken
