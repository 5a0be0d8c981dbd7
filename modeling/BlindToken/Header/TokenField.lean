import BlindToken.Base64
import BlindToken.Header.Credentials
import BlindToken.Header.Value
import BlindToken.Token

namespace BlindToken

inductive TokenFieldError where
  | invalidInput
  | invalidToken
deriving DecidableEq

def TokenFieldError.message : TokenFieldError → String
  | invalidInput => "Invalid input string"
  | invalidToken => "Invalid token"

namespace TokenField

def name : String := "authorization"

def text (token : Token) : String :=
  Credentials.scheme ++ " token=\"" ++ Base64.urlEncode token.encode ++ "\""

def build (token : Token) : Except TokenFieldError HeaderField :=
  match HeaderValue.ofString? (text token) with
  | some value => .ok { name, value }
  | none => .error .invalidToken

def vocabulary : Credentials.Vocabulary
  | "token" => some Credentials.isBase64Char
  | _ => none

def decode (value : List Char) : Except TokenFieldError Token :=
  match Base64.urlDecode? (String.ofList value) with
  | some bytes =>
    match Token.decode bytes with
    | .ok token => .ok token
    | .error _ => .error .invalidToken
  | none => .error .invalidToken

-- The first token of those that the value lists. All of them have to be well-formed.
def parse (value : HeaderValue) : Except TokenFieldError Token := do
  let values? : Option (List (List Char)) := do
    let entries ← Credentials.entries? vocabulary (← value.ascii?)
    entries.mapM (Credentials.Entry.required? · "token")
  let some values := values? | throw .invalidInput
  match ← values.mapM decode with
  | token :: _ => return token
  | [] => throw .invalidInput

end TokenField

end BlindToken
