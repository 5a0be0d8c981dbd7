import BlindToken.Base64
import BlindToken.Bytes.Format
import BlindToken.Bytes.Basic
import BlindToken.Sha2.Sha256
import BlindToken.TokenType

namespace BlindToken

-- A value holds any field contents that the wire format can carry; `make` and `decode` give only
-- the valid ones.
structure TokenChallenge where
  tokenType : UInt16
  issuerBytes : Wire.Counted 2
  contextBytes : Wire.Counted 1
  originBytes : Wire.Counted 2
deriving DecidableEq

namespace TokenChallenge

-- Origin names stand in one field with a space between them.
def originSeparator : Char := ' '

def joinOrigins (origins : List String) : Bytes :=
  utf8 (String.ofList ([originSeparator].intercalate (origins.map String.toList)))

def encode (challenge : TokenChallenge) : Bytes :=
  Wire.writeUInt16 challenge.tokenType ++ Wire.writeCounted challenge.issuerBytes ++
    Wire.writeCounted challenge.contextBytes ++ Wire.writeCounted challenge.originBytes

-- The challenge at the front of the input, with its fields unchecked, and what follows it.
def read? (input : Bytes) : Option (TokenChallenge × Bytes) := do
  let (tokenType, input) ← Wire.readUInt16? input
  let (issuerBytes, input) ← Wire.readCounted? 2 input
  let (contextBytes, input) ← Wire.readCounted? 1 input
  let (originBytes, input) ← Wire.readCounted? 2 input
  return ({ tokenType, issuerBytes, contextBytes, originBytes }, input)

-- The fields in their order.
def format : Wire.Format TokenChallenge :=
  .record (.pair .uint16 <| .pair (.counted 2) <| .pair (.counted 1) <| .counted 2)
    (fun challenge => (challenge.tokenType, challenge.issuerBytes, challenge.contextBytes,
      challenge.originBytes))
    fun (tokenType, issuerBytes, contextBytes, originBytes) =>
      { tokenType, issuerBytes, contextBytes, originBytes }

-- Empty if the field is not text.
def issuerName (challenge : TokenChallenge) : String :=
  (ofUtf8? challenge.issuerBytes.bytes).getD ""

-- Absent unless the field holds 32 bytes.
def redemptionContext (challenge : TokenChallenge) : Option (Block 32) :=
  Block.ofBytes? 32 challenge.contextBytes.bytes

-- The non-empty names of the field, or none if it is not text.
def originInfo (challenge : TokenChallenge) : List String :=
  let text := (ofUtf8? challenge.originBytes.bytes).getD ""
  ((text.toList.splitOn originSeparator).filter (· ≠ [])).map String.ofList

def make (tokenType : TokenType) (issuer : String) (context : Option (Block 32))
    (origins : List String) : Except ProtocolError TokenChallenge := do
  if issuer = "" then throw .invalidIssuer
  let some issuerBytes := Bounded.ofBytes? _ (utf8 issuer) | throw .invalidIssuer
  if origins.any fun origin => origin = "" ∨ originSeparator ∈ origin.toList then
    throw .invalidOriginInfo
  let some originBytes := Bounded.ofBytes? _ (joinOrigins origins) | throw .invalidOriginInfo
  let contextBytes : Wire.Counted 1 :=
    match context with
    | some block => ⟨block.bytes, by simp [block.length_eq, Bytes.count]⟩
    | none => ⟨[], by simp⟩
  return { tokenType := tokenType.code, issuerBytes, contextBytes, originBytes }

-- The first field that is not as it should be decides the error.
def check (challenge : TokenChallenge) : Except ProtocolError Unit := do
  if challenge.issuerBytes.bytes = [] ∨ ofUtf8? challenge.issuerBytes.bytes = none then
    throw .invalidIssuer
  if challenge.contextBytes.bytes.length ≠ 0 ∧ challenge.contextBytes.bytes.length ≠ 32 then
    throw .invalidRedemptionContext
  let some text := ofUtf8? challenge.originBytes.bytes | throw .invalidOriginInfo
  if text ≠ "" ∧ [] ∈ text.toList.splitOn originSeparator then
    throw .invalidOriginInfo

def decode (bytes : Bytes) : Except ProtocolError TokenChallenge :=
  match read? bytes with
  | some (challenge, []) => do
    challenge.check
    return challenge
  | _ => .error .invalidTokenChallengeSize

def toBase64Url (challenge : TokenChallenge) : String := Base64.urlEncode challenge.encode

def ofBase64Url (text : String) : Except ProtocolError TokenChallenge :=
  match Base64.urlDecode? text with
  | some bytes => decode bytes
  | none => .error .invalidTokenChallenge

def digest (challenge : TokenChallenge) : ChallengeDigest := sha256 challenge.encode

end TokenChallenge

end BlindToken
