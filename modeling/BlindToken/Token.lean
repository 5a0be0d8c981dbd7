import BlindToken.Bytes.Format
import BlindToken.TokenType

namespace BlindToken

-- What an issuer signs blindly and a verifier checks.
structure TokenInput where
  tokenType : UInt16
  nonce : Nonce
  challengeDigest : ChallengeDigest
  tokenKeyId : TokenKeyId
deriving DecidableEq

def TokenInput.encode (input : TokenInput) : Bytes :=
  Wire.writeUInt16 input.tokenType ++ input.nonce.bytes ++ input.challengeDigest.bytes ++
    input.tokenKeyId.bytes

structure Token extends TokenInput where
  authenticator : Block signatureSize
deriving DecidableEq

namespace Token

def size : Nat := 2 + 32 + 32 + 32 + signatureSize

def encode (token : Token) : Bytes := token.toTokenInput.encode ++ token.authenticator.bytes

-- The token at the front of the input, whatever its type, and what follows it.
def read? (input : Bytes) : Option (Token × Bytes) := do
  let (tokenType, input) ← Wire.readUInt16? input
  let (nonce, input) ← Wire.readBlock? 32 input
  let (challengeDigest, input) ← Wire.readBlock? 32 input
  let (tokenKeyId, input) ← Wire.readBlock? 32 input
  let (authenticator, input) ← Wire.readBlock? signatureSize input
  return ({ tokenType, nonce, challengeDigest, tokenKeyId, authenticator }, input)

-- The fields in their order.
def format : Wire.Format Token :=
  .record (.pair .uint16 <| .pair (.block 32) <| .pair (.block 32) <| .pair (.block 32) <|
      .block signatureSize)
    (fun token => (token.tokenType, token.nonce, token.challengeDigest, token.tokenKeyId,
      token.authenticator))
    fun (tokenType, nonce, challengeDigest, tokenKeyId, authenticator) =>
      { tokenType, nonce, challengeDigest, tokenKeyId, authenticator }

def decode (bytes : Bytes) : Except ProtocolError Token :=
  match read? bytes with
  | some (token, []) => .ok token
  | _ => .error .invalidTokenSize

end Token

end BlindToken
