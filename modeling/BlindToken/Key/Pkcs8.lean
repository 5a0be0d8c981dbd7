import BlindToken.Key.Algorithm

namespace BlindToken.Pkcs8

-- The general envelope: a version, the algorithm and the key document of that algorithm.
def privateKey (document : Bytes) : Der.Element :=
  Der.sequence [Der.integer 0, Algorithm.rsa.element, Der.octetString document]

-- Elements with the context-specific number zero, which may stand before the public key.
def skipLeading : (fuel : Nat) → Bytes → Option Bytes
  | 0, _ => none
  | fuel + 1, input =>
    match input with
    | [] => some []
    | tag :: _ =>
      if tag = 0x80 ∨ tag = 0xa0 then do
        let (_, rest) ← Der.Element.read? input
        skipLeading fuel rest
      else some input

-- Whether the input is a row of constructed context-specific elements with one element in each.
def areAttributes : (fuel : Nat) → Bytes → Bool
  | 0, _ => false
  | fuel + 1, input =>
    input = [] ||
      match Der.Element.read? input with
      | none => false
      | some (element, rest) =>
        0xa0 ≤ element.tag && element.tag ≤ 0xbe &&
          (match Der.Element.read? element.content with
            | some (_, []) => areAttributes fuel rest
            | _ => false)

-- The key document of an RSA key. The version tells whether a public key follows it, which is a
-- bit string of whole bytes. It is not looked at, nor are the attributes.
def readPrivate? (bytes : Bytes) : Option Bytes := do
  let content ← Der.document? Der.sequenceTag bytes
  let (version, content) ← Der.readInteger? content
  guard (version ≤ 1)
  let (algorithm, content) ← Algorithm.read? content
  guard (algorithm = Algorithm.rsa)
  let (document, content) ← Der.expect? Der.octetStringTag content
  let content ← skipLeading (content.length + 1) content
  let attributes ←
    if version = 0 then
      if content.head? = some 0x81 ∨ content.head? = some 0xa1 then none else some content
    else do
      let (publicKey, rest) ← Der.expect? 0x81 content
      let _ ← Der.bitStringBytes? publicKey
      some rest
  guard (areAttributes (attributes.length + 1) attributes)
  return document

end BlindToken.Pkcs8
