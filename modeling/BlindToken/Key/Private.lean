import BlindToken.Key.Pem
import BlindToken.Key.Pkcs8
import BlindToken.Key.Public
import BlindToken.Rsa.Generation

namespace BlindToken

structure PrivateKey where
  numbers : Rsa.PrivateNumbers
  numbers_fit : numbers.Fits
  publicKey : PublicKey
  publicKey_eq : PublicKey.ofNumbers numbers.toPublicNumbers = .ok publicKey

-- A document with a factor of zero or one is told apart from all other faulty ones.
inductive KeyImportError where
  | degenerateFactor
  | refused (error : ProtocolError)
deriving DecidableEq

namespace PrivateKey

def ofNumbers (numbers : Rsa.PrivateNumbers) : Except KeyImportError PrivateKey :=
  if numbers.prime1 < 2 ∨ numbers.prime2 < 2 then .error .degenerateFactor
  else if h : numbers.Fits then
    match hkey : PublicKey.ofNumbers numbers.toPublicNumbers with
    | .ok publicKey => .ok ⟨numbers, h, publicKey, hkey⟩
    | .error error => .error (.refused error)
  else .error (.refused .invalidKeyEncoding)

def ofNumbers? : Option Rsa.PrivateNumbers → Except KeyImportError PrivateKey
  | some numbers => ofNumbers numbers
  | none => .error (.refused .invalidKeyEncoding)

def ofDer (der : Bytes) : Except KeyImportError PrivateKey :=
  ofNumbers? <|
    ((Pkcs8.readPrivate? der).bind Pkcs1.readPrivate?).or (Pkcs1.readPrivate? der)

-- The label of the general envelope.
def pemLabel : String := "PRIVATE KEY"

-- The label of a document without envelope.
def bareLabel : String := "RSA PRIVATE KEY"

def ofPem (pem : String) : Except KeyImportError PrivateKey :=
  ofNumbers? <|
    (((Pem.decode? pemLabel pem).bind Pkcs8.readPrivate?).bind Pkcs1.readPrivate?).or
      ((Pem.decode? bareLabel pem).bind Pkcs1.readPrivate?)

-- The documents of a key in the general envelope.
def toDer (key : PrivateKey) : Bytes :=
  (Pkcs8.privateKey (Pkcs1.privateKey key.numbers).encode).encode

def toPem (key : PrivateKey) : String := Pem.encode pemLabel key.toDer

-- A document that is too long for a reader is not given out.
def exportDer (key : PrivateKey) : Except ProtocolError Bytes :=
  if key.toDer.length ≤ Der.lengthLimit then .ok key.toDer else .error .invalidKeyEncoding

def exportPem (key : PrivateKey) : Except ProtocolError String :=
  if key.toDer.length ≤ Der.lengthLimit then .ok key.toPem else .error .invalidKeyEncoding

def bits (key : PrivateKey) : Nat := key.publicKey.bits

-- The message comes from a client, so one that is not below the modulus is the client's fault.
def blindSign (key : PrivateKey) (message : Block signatureSize) :
    Except ProtocolError (Block signatureSize) :=
  if key.numbers.modulus ≤ message.toNat then .error .invalidTokenRequestBlindedMessage
  else
    match key.numbers.sign? message.toNat with
    | some signature =>
      let bytes := Bytes.ofNat (byteLength key.numbers.modulus) signature
      match Block.ofBytes? signatureSize bytes with
      | some signature => .ok signature
      | none => .error .blindSigningFailed
    | none => .error .blindSigningFailed

-- The size that the token type asks for.
def keySize : Rsa.KeySize := { primeBytes := signatureSize / 2, exponent := 65537 }

def generate {state : Type} (source : Source state) (current : state) :
    Except ProtocolError (PrivateKey × state) := do
  let some (numbers, current) := keySize.generate? source current | throw .keyGenerationFailed
  let .ok key := ofNumbers numbers | throw .keyGenerationFailed
  return (key, current)

def describe (key : PrivateKey) : String :=
  describeFields "PrivateKey" [("public_key", key.publicKey.describe)]

end PrivateKey

end BlindToken
