import BlindToken.Bytes.Basic
import BlindToken.ProtocolError

namespace BlindToken

-- Publicly verifiable tokens, signed with 2048-bit RSA.
inductive TokenType where
  | blindRsa
deriving DecidableEq

namespace TokenType

def code : TokenType → UInt16
  | blindRsa => 2

def ofCode (code : UInt16) : Except ProtocolError TokenType :=
  if code = blindRsa.code then .ok blindRsa else .error .invalidTokenType

end TokenType

-- The size of an authenticator, of a blinded message and of a blind signature in bytes.
abbrev signatureSize : Nat := 256

-- The size of an issuer key's modulus in bits.
def modulusBits : Nat := 2048

-- The size of the salt of a token's signature in bytes.
def saltSize : Nat := 48

abbrev Nonce := Block 32

abbrev ChallengeDigest := Block 32

-- The SHA-256 digest of a key's public encoding.
abbrev TokenKeyId := Block 32

-- The last byte of a token key ID, which a request names its key by.
abbrev TruncatedTokenKeyId := UInt8

def TokenKeyId.truncate (id : TokenKeyId) : TruncatedTokenKeyId := id.last

end BlindToken
