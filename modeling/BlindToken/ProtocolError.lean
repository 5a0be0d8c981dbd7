namespace BlindToken

-- Why a key, a wire structure or an issuance step is refused. A redeemed token is never refused
-- this way: verification answers yes or no.
inductive ProtocolError where
  | invalidIssuer
  | invalidKeySize
  | invalidOriginInfo
  | invalidRedemptionContext
  | invalidSpkiFormat
  | invalidTokenChallenge
  | invalidTokenChallengeSize
  | invalidTokenKeyId
  | invalidTokenRequestBlindedMessageSize
  | invalidTokenRequestBlindedMessage
  | invalidTokenRequestSize
  | invalidTokenResponseSize
  | invalidTokenSize
  | invalidTokenType
  | keyGenerationFailed
  | invalidKeyEncoding
  | blindingFailed
  | blindSigningFailed
  | finalizationFailed
  | truncatedTokenKeyIdCollision
deriving DecidableEq, Repr

namespace ProtocolError

def message : ProtocolError → String
  | invalidIssuer => "Invalid issuer"
  | invalidKeySize => "Invalid key size"
  | invalidOriginInfo => "Invalid origin info"
  | invalidRedemptionContext => "Invalid redemption context"
  | invalidSpkiFormat => "Invalid SPKI format"
  | invalidTokenChallenge => "Invalid token challenge"
  | invalidTokenChallengeSize => "Invalid token challenge size"
  | invalidTokenKeyId => "Invalid token key ID"
  | invalidTokenRequestBlindedMessageSize => "Invalid token request blinded message size"
  | invalidTokenRequestBlindedMessage => "Invalid token request blinded message"
  | invalidTokenRequestSize => "Invalid token request size"
  | invalidTokenResponseSize => "Invalid token response size"
  | invalidTokenSize => "Invalid token size"
  | invalidTokenType => "Invalid token type"
  | keyGenerationFailed => "Key generation failed"
  | invalidKeyEncoding => "Invalid key encoding"
  | blindingFailed => "Token blinding failed"
  | blindSigningFailed => "Blind signing failed"
  | finalizationFailed => "Signature finalization failed"
  | truncatedTokenKeyIdCollision => "Truncated token key ID collision"

-- The HTTP status of an issuance endpoint: 422 where the request does not fit the issuer, 500
-- where the fault is the issuer's own, and 400 otherwise.
def statusCode : ProtocolError → Nat
  | invalidTokenType | invalidTokenKeyId | invalidTokenRequestBlindedMessageSize
  | invalidTokenRequestBlindedMessage => 422
  | keyGenerationFailed | blindSigningFailed | truncatedTokenKeyIdCollision => 500
  | _ => 400

end ProtocolError

end BlindToken
