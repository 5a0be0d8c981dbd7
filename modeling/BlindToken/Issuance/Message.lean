import BlindToken.Bytes.Format
import BlindToken.TokenType

namespace BlindToken

namespace MediaType

def tokenRequest : String := "application/private-token-request"

def tokenResponse : String := "application/private-token-response"

def issuerDirectory : String := "application/private-token-issuer-directory"

end MediaType

structure TokenRequest where
  tokenType : UInt16
  truncatedTokenKeyId : TruncatedTokenKeyId
  blindedMessage : Block signatureSize
deriving DecidableEq

namespace TokenRequest

def size : Nat := 2 + 1 + signatureSize

def ofBlindedMessage (tokenType : UInt16) (truncatedTokenKeyId : TruncatedTokenKeyId)
    (blindedMessage : Bytes) : Except ProtocolError TokenRequest :=
  match Block.ofBytes? signatureSize blindedMessage with
  | some blindedMessage => .ok { tokenType, truncatedTokenKeyId, blindedMessage }
  | none => .error .invalidTokenRequestBlindedMessageSize

def encode (request : TokenRequest) : Bytes :=
  Wire.writeUInt16 request.tokenType ++ [request.truncatedTokenKeyId] ++
    request.blindedMessage.bytes

-- The request at the front of the input and what follows it.
def read? (input : Bytes) : Option (TokenRequest × Bytes) := do
  let (tokenType, input) ← Wire.readUInt16? input
  let (truncatedTokenKeyId, input) ← Wire.readByte? input
  let (blindedMessage, input) ← Wire.readBlock? signatureSize input
  return ({ tokenType, truncatedTokenKeyId, blindedMessage }, input)

-- The fields in their order.
def format : Wire.Format TokenRequest :=
  .record (.pair .uint16 <| .pair .byte <| .block signatureSize)
    (fun request => (request.tokenType, request.truncatedTokenKeyId, request.blindedMessage))
    fun (tokenType, truncatedTokenKeyId, blindedMessage) =>
      { tokenType, truncatedTokenKeyId, blindedMessage }

def decode (bytes : Bytes) : Except ProtocolError TokenRequest :=
  match read? bytes with
  | some (request, []) => .ok request
  | _ => .error .invalidTokenRequestSize

end TokenRequest

structure TokenResponse where
  blindSignature : Block signatureSize
deriving DecidableEq

namespace TokenResponse

def size : Nat := signatureSize

def encode (response : TokenResponse) : Bytes := response.blindSignature.bytes

-- The response at the front of the input and what follows it.
def read? (input : Bytes) : Option (TokenResponse × Bytes) := do
  let (blindSignature, input) ← Wire.readBlock? signatureSize input
  return ({ blindSignature }, input)

-- The one field.
def format : Wire.Format TokenResponse :=
  .record (.block signatureSize) (fun response => response.blindSignature)
    fun blindSignature => { blindSignature }

def decode (bytes : Bytes) : Except ProtocolError TokenResponse :=
  match read? bytes with
  | some (response, []) => .ok response
  | _ => .error .invalidTokenResponseSize

end TokenResponse

end BlindToken
