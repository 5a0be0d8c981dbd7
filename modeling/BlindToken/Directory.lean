import BlindToken.Base64
import BlindToken.Json.Value
import BlindToken.Key.Public
import BlindToken.Uri

namespace BlindToken

-- An entry is kept as it was published. Its type need not be known, nor its key be one.
structure DirectoryKey where
  tokenType : UInt16
  tokenKey : String
  -- Seconds since the start of 1970.
  notBefore : Option UInt64
deriving DecidableEq

namespace DirectoryKey

def ofPublicKey (key : PublicKey) (notBefore : Option UInt64) : DirectoryKey where
  tokenType := TokenType.blindRsa.code
  tokenKey := Base64.urlEncode key.spki
  notBefore := notBefore

def tokenKeyBytes? (key : DirectoryKey) : Option Bytes := Base64.urlDecode? key.tokenKey

def isBlindRsa (key : DirectoryKey) : Bool := key.tokenType = TokenType.blindRsa.code

def publicKey? (key : DirectoryKey) : Option PublicKey :=
  if key.isBlindRsa then key.tokenKeyBytes?.bind fun bytes => (PublicKey.ofSpki bytes).toOption
  else none

def isUsableAt (key : DirectoryKey) (now : UInt64) : Bool :=
  key.notBefore.all fun notBefore => notBefore ≤ now

def fieldNames : List String := ["token-type", "token-key", "not-before"]

def toJson (key : DirectoryKey) : List Char :=
  Json.record ([
    ("token-type", Json.natural key.tokenType.toNat),
    ("token-key", Json.quoted key.tokenKey)] ++
    key.notBefore.toList.map fun notBefore => ("not-before", Json.natural notBefore.toNat))

def notBeforeOf? : Option Json.Value → Option (Option UInt64)
  | none | some .null => some none
  | some value => (value.natural? UInt64.size).map fun seconds => some (UInt64.ofNat seconds)

def ofJson? (value : Json.Value) : Option DirectoryKey := do
  let [some tokenType, some tokenKey, notBefore] ← value.members? fieldNames | none
  return {
    tokenType := UInt16.ofNat (← tokenType.natural? UInt16.size)
    tokenKey := ← tokenKey.text?
    notBefore := ← notBeforeOf? notBefore }

end DirectoryKey

-- What a directory document holds. Its URI need not be one.
structure DirectoryDocument where
  issuerRequestUri : String
  tokenKeys : List DirectoryKey
deriving DecidableEq

namespace DirectoryDocument

def fieldNames : List String := ["issuer-request-uri", "token-keys"]

def toJson (document : DirectoryDocument) : String :=
  String.ofList (Json.record [
    ("issuer-request-uri", Json.quoted document.issuerRequestUri),
    ("token-keys", Json.listed (document.tokenKeys.map DirectoryKey.toJson))])

def ofJson? (text : String) : Option DirectoryDocument := do
  let value ← Json.Value.parse? text
  let [some issuerRequestUri, some tokenKeys] ← value.members? fieldNames | none
  return {
    issuerRequestUri := ← issuerRequestUri.text?
    tokenKeys := ← (← tokenKeys.items?).mapM DirectoryKey.ofJson? }

-- Whether the key is listed, given as its published form, and may be used at the time.
def isValid (document : DirectoryDocument) (tokenKey : Bytes) (now : UInt64) : Bool :=
  document.tokenKeys.any fun key =>
    key.isBlindRsa && key.tokenKeyBytes? = some tokenKey && key.isUsableAt now

def publicKeys (document : DirectoryDocument) (now : UInt64) : List PublicKey :=
  (document.tokenKeys.filter (·.isUsableAt now)).filterMap DirectoryKey.publicKey?

end DirectoryDocument

structure IssuerDirectory extends DirectoryDocument where
  uri_isSome : (Uri.parse? issuerRequestUri).isSome
deriving DecidableEq

inductive DirectoryError where
  | malformed
  | invalidIssuerRequestUri (uri : String)
deriving DecidableEq

def DirectoryError.message : DirectoryError → String
  | malformed => "Malformed directory"
  | invalidIssuerRequestUri uri => "Invalid issuer request URI: " ++ uri

namespace IssuerDirectory

def ofDocument (document : DirectoryDocument) : Except DirectoryError IssuerDirectory :=
  if h : (Uri.parse? document.issuerRequestUri).isSome then .ok ⟨document, h⟩
  else .error (.invalidIssuerRequestUri document.issuerRequestUri)

def make (issuerRequestUri : String) (tokenKeys : List DirectoryKey) :
    Except DirectoryError IssuerDirectory :=
  ofDocument { issuerRequestUri, tokenKeys }

def uri (directory : IssuerDirectory) : Uri :=
  (Uri.parse? directory.issuerRequestUri).get directory.uri_isSome

def ofJson (text : String) : Except DirectoryError IssuerDirectory :=
  match DirectoryDocument.ofJson? text with
  | some document => ofDocument document
  | none => .error .malformed

end IssuerDirectory

end BlindToken
