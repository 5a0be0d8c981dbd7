import BlindToken.Key.Algorithm
import BlindToken.Key.Pkcs1
import BlindToken.ProtocolError

namespace BlindToken

-- An algorithm and a key as a bit string. An issuer key is published in the token form, which names
-- the signature scheme; the plain form holds the same bit string under plain RSA.
structure Spki where
  algorithm : Algorithm
  key : Bytes
deriving DecidableEq

namespace Spki

-- There is no encoding if it would be too long.
def encode? (info : Spki) : Option Bytes :=
  let bytes := (Der.sequence [info.algorithm.element, Der.bitString info.key]).encode
  if bytes.length ≤ Der.lengthLimit then some bytes else none

def decode? (bytes : Bytes) : Option Spki := do
  let content ← Der.document? Der.sequenceTag bytes
  let (algorithm, content) ← Algorithm.read? content
  let bits ← Der.only? Der.bitStringTag content
  return ⟨algorithm, ← Der.bitStringBytes? bits⟩

-- Any parameters of the plain form are replaced.
def plainToToken (plain : Bytes) : Except ProtocolError Bytes :=
  let token? := do
    let info ← decode? plain
    guard (info.algorithm.identifier = Algorithm.rsaIdentifier)
    encode? ⟨Algorithm.rsaPss, info.key⟩
  match token? with
  | some token => .ok token
  | none => .error .invalidSpkiFormat

-- The token form has exactly one algorithm.
def tokenToPlain (token : Bytes) : Except ProtocolError Bytes :=
  let plain? := do
    let info ← decode? token
    guard (info.algorithm = Algorithm.rsaPss)
    encode? ⟨Algorithm.rsa, info.key⟩
  match plain? with
  | some plain => .ok plain
  | none => .error .invalidSpkiFormat

-- The size of the modulus in a plain form, counted on its bytes.
def modulusBits (plain : Bytes) : Except ProtocolError Nat :=
  let numbers? := do
    let info ← decode? plain
    Pkcs1.readPublicBytes? info.key
  match numbers? with
  | some (modulus, _) => .ok modulus.significantBits
  | none => .error .invalidSpkiFormat

end Spki

end BlindToken
