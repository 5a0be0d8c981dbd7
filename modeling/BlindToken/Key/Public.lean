import BlindToken.Key.Spki
import BlindToken.Rsa.Blinding
import BlindToken.Sha2.Sha256
import BlindToken.Token

namespace BlindToken

-- A key is known by the digest of its published form, and two keys are the same if these digests
-- are.
structure PublicKey where
  numbers : Rsa.PublicNumbers
  spki : Bytes
  tokenKeyId : TokenKeyId
  bits : Nat

def describeBytes (bytes : Bytes) : String :=
  "[" ++ String.intercalate ", " (bytes.map fun byte => toString byte.toNat) ++ "]"

-- The fields shown, and a mark for those that are not.
def describeFields (kind : String) (fields : List (String × String)) : String :=
  let shown := fields.map fun field => field.1 ++ ": " ++ field.2
  kind ++ " \x7b " ++ String.intercalate ", " (shown ++ [".."]) ++ " \x7d"

namespace PublicKey

instance : BEq PublicKey := ⟨fun left right => left.tokenKeyId = right.tokenKeyId⟩

def truncatedTokenKeyId (key : PublicKey) : TruncatedTokenKeyId := key.tokenKeyId.truncate

def ofNumbers (numbers : Rsa.PublicNumbers) : Except ProtocolError PublicKey := do
  let document := (Pkcs1.publicKey numbers).encode
  let some plain := Spki.encode? ⟨Algorithm.rsa, document⟩ | throw .invalidKeyEncoding
  let bits ← Spki.modulusBits plain
  let spki ← Spki.plainToToken plain
  return { numbers, spki, tokenKeyId := sha256 spki, bits }

-- Sizes and exponents that a client takes from others.
def IsSupported (numbers : Rsa.PublicNumbers) : Prop :=
  2048 ≤ 8 * byteLength numbers.modulus ∧ bitLength numbers.modulus ≤ 4096 ∧
    (numbers.exponent = 3 ∨ numbers.exponent = 65537)

instance (numbers : Rsa.PublicNumbers) : Decidable (IsSupported numbers) := by
  unfold IsSupported
  infer_instance

-- The longest plain form that is looked at.
def plainSizeLimit : Nat := 800

def numbersOfPlain? (plain : Bytes) : Option Rsa.PublicNumbers := do
  guard (plain.length ≤ plainSizeLimit)
  let info ← Spki.decode? plain
  guard (info.algorithm = Algorithm.rsa)
  let numbers ← Pkcs1.readPublic? info.key
  guard (IsSupported numbers)
  return numbers

def ofSpki (spki : Bytes) : Except ProtocolError PublicKey := do
  let plain ← Spki.tokenToPlain spki
  let some numbers := numbersOfPlain? plain | throw .invalidSpkiFormat
  ofNumbers numbers

-- Whether the authenticator signs the rest of the token, whatever key the token names.
def authenticates (key : PublicKey) (token : Token) : Bool :=
  key.numbers.verify token.toTokenInput.encode token.authenticator.bytes

-- Whether the token is a genuine one of this key. It may have been spent.
def verifiesSignature (key : PublicKey) (token : Token) : Bool :=
  token.tokenType = TokenType.blindRsa.code && token.tokenKeyId = key.tokenKeyId &&
    key.authenticates token

def describe (key : PublicKey) : String :=
  describeFields "PublicKey" [
    ("token_key_id", describeBytes key.tokenKeyId.bytes),
    ("key_size_in_bits", toString key.bits)]

end PublicKey

end BlindToken
