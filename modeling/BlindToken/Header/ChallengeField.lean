import BlindToken.Header.Credentials
import BlindToken.Header.Value
import BlindToken.Key.Public
import BlindToken.TokenChallenge

namespace BlindToken

-- A challenge, and the key that the token is to be made with. The key is given as its published
-- form, which is not looked at.
structure OfferedChallenge where
  challenge : TokenChallenge
  tokenKey : Bytes
  maxAge : Option UInt64
deriving DecidableEq

def OfferedChallenge.publicKey (offered : OfferedChallenge) : Except ProtocolError PublicKey :=
  PublicKey.ofSpki offered.tokenKey

inductive ChallengeFieldError where
  | invalidInput
  | invalidChallenge
  | invalidTokenKey
  | invalidMaxAge
deriving DecidableEq

def ChallengeFieldError.message : ChallengeFieldError → String
  | invalidInput => "Invalid input string"
  | invalidChallenge => "Invalid challenge"
  | invalidTokenKey => "Invalid token key"
  | invalidMaxAge => "Invalid max age"

-- The field does not fit in a header.
inductive ChallengeFieldBuildError where
  | invalidTokenChallenge
deriving DecidableEq

def ChallengeFieldBuildError.message : ChallengeFieldBuildError → String
  | invalidTokenChallenge => "Invalid TokenChallenge"

namespace ChallengeField

def name : String := "www-authenticate"

def text (challenge : TokenChallenge) (key : PublicKey) (maxAge : Option UInt64) : String :=
  let age := maxAge.elim "" fun age => ", max-age=" ++ toString age.toNat
  Credentials.scheme ++ " challenge=\"" ++ challenge.toBase64Url ++ "\", token-key=\"" ++
    Base64.urlEncode key.spki ++ "\"" ++ age

def build (challenge : TokenChallenge) (key : PublicKey) (maxAge : Option UInt64) :
    Except ChallengeFieldBuildError HeaderField :=
  match HeaderValue.ofString? (text challenge key maxAge) with
  | some value => .ok { name, value }
  | none => .error .invalidTokenChallenge

def vocabulary : Credentials.Vocabulary
  | "challenge" | "token-key" => some Credentials.isBase64Char
  | "max-age" => some Char.isDigit
  | _ => none

-- The parameters of an entry, as they are written.
structure RawChallenge where
  challenge : List Char
  tokenKey : List Char
  maxAge : Option (List Char)

def raw? (entry : Credentials.Entry) : Option RawChallenge := do
  let challenge ← entry.required? "challenge"
  let tokenKey ← entry.required? "token-key"
  let maxAge ← entry.optional? "max-age"
  return { challenge, tokenKey, maxAge }

def decode (raw : RawChallenge) : Except ChallengeFieldError OfferedChallenge := do
  let .ok challenge := TokenChallenge.ofBase64Url (String.ofList raw.challenge)
    | throw .invalidChallenge
  let some tokenKey := Base64.urlDecode? (String.ofList raw.tokenKey) | throw .invalidTokenKey
  match raw.maxAge.map (Nat.ofDigitChars 10 · 0) with
  | none => return { challenge, tokenKey, maxAge := none }
  | some age =>
    if age < UInt64.size then return { challenge, tokenKey, maxAge := some (UInt64.ofNat age) }
    else throw .invalidMaxAge

-- A value that is not in the grammar is told from one whose parameters cannot be decoded. The
-- first parameter that cannot decides the error.
def parse (value : HeaderValue) : Except ChallengeFieldError (List OfferedChallenge) :=
  let raws? := do
    let entries ← Credentials.entries? vocabulary (← value.ascii?)
    entries.mapM raw?
  match raws? with
  | some raws => raws.mapM decode
  | none => .error .invalidInput

end ChallengeField

end BlindToken
