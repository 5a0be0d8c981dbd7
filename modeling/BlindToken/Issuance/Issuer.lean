import BlindToken.Issuance.Message
import BlindToken.Key.Private

namespace BlindToken

-- A private key of the one size that the token type allows.
structure Issuer where
  privateKey : PrivateKey
  bits_eq : privateKey.bits = modulusBits

namespace Issuer

def ofKey (key : PrivateKey) : Except ProtocolError Issuer :=
  if h : key.bits = modulusBits then .ok ⟨key, h⟩ else .error .invalidKeySize

def generate {state : Type} (source : Source state) (current : state) :
    Except ProtocolError (Issuer × state) := do
  let (key, current) ← PrivateKey.generate source current
  return (← ofKey key, current)

def publicKey (issuer : Issuer) : PublicKey := issuer.privateKey.publicKey

def truncatedTokenKeyId (issuer : Issuer) : TruncatedTokenKeyId :=
  issuer.publicKey.truncatedTokenKeyId

def issue (issuer : Issuer) (request : TokenRequest) : Except ProtocolError TokenResponse :=
  if request.tokenType ≠ TokenType.blindRsa.code then .error .invalidTokenType
  else if request.truncatedTokenKeyId ≠ issuer.truncatedTokenKeyId then .error .invalidTokenKeyId
  else
    match issuer.privateKey.blindSign request.blindedMessage with
    | .ok blindSignature => .ok { blindSignature }
    | .error error => .error error

end Issuer

end BlindToken
