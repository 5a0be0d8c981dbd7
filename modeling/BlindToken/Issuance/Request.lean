import BlindToken.Issuance.Message
import BlindToken.Key.Public
import BlindToken.Random.Source

namespace BlindToken

-- A request together with what the client needs to finish it.
structure PreparedRequest where
  publicKey : PublicKey
  nonce : Nonce
  challengeDigest : ChallengeDigest
  blindedMessage : Block signatureSize
  blind : Rsa.Blind

namespace PreparedRequest

def input (prepared : PreparedRequest) : TokenInput where
  tokenType := TokenType.blindRsa.code
  nonce := prepared.nonce
  challengeDigest := prepared.challengeDigest
  tokenKeyId := prepared.publicKey.tokenKeyId

def tokenRequest (prepared : PreparedRequest) : TokenRequest where
  tokenType := TokenType.blindRsa.code
  truncatedTokenKeyId := prepared.publicKey.truncatedTokenKeyId
  blindedMessage := prepared.blindedMessage

-- The token is given out only if its signature verifies.
def finalize (prepared : PreparedRequest) (response : TokenResponse) :
    Except ProtocolError Token :=
  let numbers := prepared.publicKey.numbers
  let signature := Bytes.ofNat (byteLength numbers.modulus)
    (numbers.unblind response.blindSignature.toNat prepared.blind)
  if numbers.verify prepared.input.encode signature then
    match Block.ofBytes? signatureSize signature with
    | some authenticator => .ok { prepared.input with authenticator }
    | none => .error .finalizationFailed
  else .error .finalizationFailed

def describe (prepared : PreparedRequest) : String :=
  describeFields "PreparedRequest" [
    ("public_key", prepared.publicKey.describe),
    ("challenge_digest", describeBytes prepared.challengeDigest.bytes)]

end PreparedRequest

-- A request is not prepared if the random source refuses a draw, or for a reason of the protocol.
inductive RequestFailure where
  | drawRefused
  | failed (error : ProtocolError)
deriving DecidableEq

namespace PublicKey

-- The request for given random values.
def prepare (key : PublicKey) (nonce : Nonce) (challengeDigest : ChallengeDigest)
    (message : Nat) (blind : Rsa.Blind) : Except ProtocolError PreparedRequest :=
  let blinded := key.numbers.blind message blind
  match Block.ofBytes? signatureSize (Bytes.ofNat (byteLength key.numbers.modulus) blinded) with
  | some blindedMessage => .ok { publicKey := key, nonce, challengeDigest, blindedMessage, blind }
  | none => .error .invalidKeySize

-- A blind that is refused is drawn again.
def blindDraws : Nat := 1000000

section Request

variable {state : Type} (source : Source state)

def draw (size : Nat) (current : state) : Except RequestFailure (Block size × state) :=
  match source.draw current size with
  | some drawn => .ok drawn
  | none => .error .drawRefused

def drawBlind (modulus : Nat) : (draws : Nat) → state →
    Except RequestFailure (Rsa.Blind × state)
  | 0, _ => .error (.failed .blindingFailed)
  | draws + 1, current =>
    match source.draw current (Rsa.blindSize modulus) with
    | none => .error .drawRefused
    | some (drawn, next) =>
      match Rsa.Blind.ofDraw? modulus drawn.bytes with
      | some blind => .ok (blind, next)
      | none => drawBlind modulus draws next

-- Draws the nonce, the salt of the signature and the blind, in this order.
def request (key : PublicKey) (current : state) (challenge : Bytes) :
    Except RequestFailure (PreparedRequest × state) := do
  let (nonce, current) ← draw source 32 current
  let challengeDigest := sha256 challenge
  let input : TokenInput :=
    { tokenType := TokenType.blindRsa.code, nonce, challengeDigest, tokenKeyId := key.tokenKeyId }
  let (salt, current) ← draw source saltSize current
  let some message := key.numbers.encodeMessage? input.encode salt.bytes
    | throw (.failed .blindingFailed)
  let (blind, current) ← drawBlind source key.numbers.modulus blindDraws current
  match key.prepare nonce challengeDigest message blind with
  | .ok prepared => return (prepared, current)
  | .error error => throw (.failed error)

end Request

end PublicKey

end BlindToken
