import BlindToken.Issuance.Issuer
import BlindToken.Proofs.Issuance.Request
import BlindToken.Proofs.Key.Private
import BlindToken.Proofs.Number

namespace BlindToken

-- What a token of the key has to be, with this nonce and challenge and with a signature of this
-- salt. Its authenticator is the one root of the encoding below the modulus.
structure Token.IsIssued (token : Token) (key : PublicKey) (nonce : Nonce) (challenge : Bytes)
    (salt : Block saltSize) : Prop where
  tokenType : token.tokenType = 2
  nonce_eq : token.nonce = nonce
  challengeDigest : token.challengeDigest = sha256 challenge
  tokenKeyId : token.tokenKeyId = key.tokenKeyId
  signature : ∃ encoded,
    Rsa.Pss.encode? (modulusBits - 1) token.toTokenInput.encode salt.bytes = some encoded ∧
      ∀ root, (root < key.numbers.modulus ∧
        root ^ key.numbers.exponent % key.numbers.modulus = Bytes.toNat encoded) ↔
          root = token.authenticator.toNat

-- The key has the size that the token type asks for.
def PublicKey.IsWhole (key : PublicKey) : Prop := bitLength key.numbers.modulus = modulusBits

namespace PublicKey.IsWhole

variable {key : PublicKey} (h : key.IsWhole)

include h

theorem byteLength_modulus : byteLength key.numbers.modulus = signatureSize := by
  have hbits : bitLength key.numbers.modulus = modulusBits := h
  rw [byteLength, hbits]
  rfl

theorem fillsBytes : key.numbers.FillsBytes := by
  have hbits : bitLength key.numbers.modulus = modulusBits := h
  rw [Rsa.PublicNumbers.FillsBytes, h.byteLength_modulus, hbits]
  rfl

theorem encodingBits_eq : 8 * byteLength key.numbers.modulus - 1 = modulusBits - 1 := by
  rw [h.byteLength_modulus]
  rfl

theorem modulus_lt : key.numbers.modulus < 256 ^ signatureSize := by
  have hbytes := lt_pow_byteLength key.numbers.modulus
  rwa [h.byteLength_modulus] at hbytes

theorem modulus_pos : 0 < key.numbers.modulus := by
  refine Nat.pos_of_ne_zero fun hzero => ?_
  have hbits : bitLength key.numbers.modulus = modulusBits := h
  rw [hzero] at hbits
  exact absurd hbits (by decide)

theorem lt_of_lt_modulus {value : Nat} (hvalue : value < key.numbers.modulus) :
    value < 256 ^ signatureSize := Nat.lt_trans hvalue h.modulus_lt

end PublicKey.IsWhole

namespace Token.IsIssued

variable {token other : Token} {key : PublicKey} {nonce : Nonce} {challenge : Bytes}
  {salt : Block saltSize} (h : token.IsIssued key nonce challenge salt)

include h

theorem authenticates (hkey : key.IsWhole) : key.authenticates token = true := by
  obtain ⟨encoded, hencode, hroots⟩ := h.signature
  rw [← hkey.encodingBits_eq] at hencode
  obtain ⟨-, hroot⟩ := (hroots token.authenticator.toNat).mpr rfl
  refine Rsa.PublicNumbers.verify_of_raise hkey.fillsBytes hencode ?_ ?_
  · rw [token.authenticator.length_eq, hkey.byteLength_modulus]
  · rwa [Rsa.PublicNumbers.raise_eq]

theorem verifiesSignature (hkey : key.IsWhole) : key.verifiesSignature token = true := by
  simp [PublicKey.verifiesSignature, h.tokenType, h.tokenKeyId, h.authenticates hkey,
    TokenType.code]

theorem eq (hother : other.IsIssued key nonce challenge salt) : token = other := by
  have hinput : token.toTokenInput = other.toTokenInput := by
    obtain ⟨⟨tokenType, tokenNonce, digest, keyId⟩, authenticator⟩ := token
    obtain ⟨⟨otherType, otherNonce, otherDigest, otherKeyId⟩, otherAuthenticator⟩ := other
    obtain ⟨rfl, rfl, rfl, rfl, -⟩ := h
    obtain ⟨rfl, rfl, rfl, rfl, -⟩ := hother
    rfl
  obtain ⟨encoded, hencode, hroots⟩ := h.signature
  obtain ⟨encoded', hencode', hroots'⟩ := hother.signature
  rw [← hinput, hencode] at hencode'
  obtain rfl := Option.some.inj hencode'
  have hroot := (hroots' _).mp ((hroots token.authenticator.toNat).mpr rfl)
  obtain ⟨input, authenticator⟩ := token
  obtain ⟨_, otherAuthenticator⟩ := other
  obtain rfl : authenticator = otherAuthenticator := Block.toNat_inj hroot
  rw [Token.mk.injEq]
  exact ⟨hinput, rfl⟩

end Token.IsIssued

-- A token comes out of every response that holds a signature of the blinded message.
theorem PreparedRequest.exists_finalize {prepared : PreparedRequest} {salt : Block saltSize}
    {message : Nat} {response : TokenResponse} (hhides : prepared.Hides salt message)
    (hkey : prepared.publicKey.IsWhole)
    (hraise : prepared.publicKey.numbers.raise response.blindSignature.toNat =
      prepared.blindedMessage.toNat) :
    ∃ token, prepared.finalize response = .ok token ∧ token.toTokenInput = prepared.input ∧
      token.authenticator.toNat < prepared.publicKey.numbers.modulus ∧
      prepared.publicKey.numbers.raise token.authenticator.toNat = message := by
  have hsize := hkey.byteLength_modulus
  obtain ⟨encoded, hencode, hvalue⟩ := Rsa.PublicNumbers.encodeMessage?_eq_some hhides.encoding
  have hlt := Rsa.PublicNumbers.toNat_encoded_lt hkey.fillsBytes hencode
  rw [hvalue] at hlt
  have hpos : 0 < prepared.publicKey.numbers.modulus := Nat.zero_lt_of_lt hlt
  have hblinded : prepared.blindedMessage.toNat =
      prepared.publicKey.numbers.blind message prepared.blind := by
    rw [Block.toNat, hhides.blindedMessage, hsize]
    exact Bytes.toNat_ofNat_of_lt (hkey.lt_of_lt_modulus (Nat.mod_lt _ hpos))
  have hroot := Rsa.PublicNumbers.raise_unblind hhides.blind hlt (hraise.trans hblinded)
  have hrootLt : prepared.publicKey.numbers.unblind response.blindSignature.toNat prepared.blind <
      prepared.publicKey.numbers.modulus := Nat.mod_lt _ hpos
  have hnat : (prepared.candidate response).authenticator.toNat =
      prepared.publicKey.numbers.unblind response.blindSignature.toNat prepared.blind :=
    Block.toNat_ofNat_of_lt (hkey.lt_of_lt_modulus hrootLt)
  have hverify : prepared.publicKey.verifiesSignature (prepared.candidate response) = true := by
    rw [verifiesSignature_candidate]
    refine Rsa.PublicNumbers.verify_of_raise hkey.fillsBytes hencode ?_ ?_
    · rw [Block.length_eq, hsize]
    · rw [hvalue, ← hroot, ← hnat]
      rfl
  refine ⟨prepared.candidate response, ?_, rfl, ?_, ?_⟩
  · rw [finalize_eq hsize, if_pos hverify]
  · rwa [hnat]
  · rwa [hnat]

theorem PublicKey.numbers_of_ofNumbers {numbers : Rsa.PublicNumbers} {key : PublicKey}
    (h : ofNumbers numbers = .ok key) : key.numbers = numbers := (ofNumbers_eq_ok_iff.mp h).1

namespace Issuer

theorem publicKey_numbers (issuer : Issuer) :
    issuer.publicKey.numbers = issuer.privateKey.numbers.toPublicNumbers :=
  PublicKey.numbers_of_ofNumbers issuer.privateKey.publicKey_eq

-- The size of the key is the only thing that an issuer asks of it.
theorem bitLength_modulus (issuer : Issuer) :
    bitLength issuer.privateKey.numbers.modulus = modulusBits :=
  issuer.privateKey.bits_eq.symm.trans issuer.bits_eq

theorem publicKey_isWhole (issuer : Issuer) : issuer.publicKey.IsWhole := by
  rw [PublicKey.IsWhole, issuer.publicKey_numbers]
  exact issuer.bitLength_modulus

def tokenInput (issuer : Issuer) (nonce : Nonce) (challenge : Bytes) : TokenInput where
  tokenType := TokenType.blindRsa.code
  nonce := nonce
  challengeDigest := sha256 challenge
  tokenKeyId := issuer.publicKey.tokenKeyId

-- The token that the issuer would sign if it saw what it signs.
def signedToken (issuer : Issuer) (nonce : Nonce) (challenge : Bytes) (salt : Block saltSize) :
    Token :=
  let input := issuer.tokenInput nonce challenge
  let root? := (Rsa.Pss.encode? (modulusBits - 1) input.encode salt.bytes).bind fun encoded =>
    issuer.privateKey.numbers.sign? (Bytes.toNat encoded)
  { input with authenticator := Block.ofNat signatureSize (root?.getD 0) }

-- A key of the right size whose factors are prime.
structure IsConsistent (issuer : Issuer) : Prop where
  numbers : issuer.privateKey.numbers.IsConsistent
  bits : bitLength issuer.privateKey.numbers.modulus = modulusBits

namespace IsConsistent

variable {issuer : Issuer} (h : issuer.IsConsistent)

include h

theorem isWhole : issuer.publicKey.IsWhole := by
  rw [PublicKey.IsWhole, issuer.publicKey_numbers]
  exact h.bits

theorem modulus_pos : 0 < issuer.publicKey.numbers.modulus := by
  rw [issuer.publicKey_numbers]
  exact h.numbers.modulus_pos

-- Below the modulus a number has no other root than the one that signing gives.
theorem root_iff {value signature : Nat} (hlt : signature < issuer.publicKey.numbers.modulus)
    (hraise : issuer.publicKey.numbers.raise signature = value) (root : Nat) :
    (root < issuer.publicKey.numbers.modulus ∧
      root ^ issuer.publicKey.numbers.exponent % issuer.publicKey.numbers.modulus = value) ↔
        root = signature := by
  rw [← Rsa.PublicNumbers.raise_eq]
  constructor
  · rintro ⟨hrootLt, hroot⟩
    rw [← hraise] at hroot
    rw [issuer.publicKey_numbers] at hrootLt hlt hroot
    exact h.numbers.eq_of_raise_eq hrootLt hlt hroot
  · rintro rfl
    exact ⟨hlt, hraise⟩

theorem isIssued {input : TokenInput} {authenticator : Block signatureSize} {challenge : Bytes}
    {salt : Block saltSize} {encoded : Bytes} (htype : input.tokenType = 2)
    (hchallenge : input.challengeDigest = sha256 challenge)
    (hid : input.tokenKeyId = issuer.publicKey.tokenKeyId)
    (hencode : Rsa.Pss.encode? (modulusBits - 1) input.encode salt.bytes = some encoded)
    (hlt : authenticator.toNat < issuer.publicKey.numbers.modulus)
    (hraise : issuer.publicKey.numbers.raise authenticator.toNat = Bytes.toNat encoded) :
    ({ input with authenticator } : Token).IsIssued issuer.publicKey input.nonce challenge
      salt :=
  ⟨htype, rfl, hchallenge, hid, encoded, hencode, h.root_iff hlt hraise⟩

-- The issuer signs every number below the modulus.
theorem exists_issue (request : TokenRequest)
    (htype : request.tokenType = TokenType.blindRsa.code)
    (hid : request.truncatedTokenKeyId = issuer.truncatedTokenKeyId)
    (hmessage : request.blindedMessage.toNat < issuer.publicKey.numbers.modulus) :
    ∃ response, issuer.issue request = .ok response ∧
      response.blindSignature.toNat < issuer.publicKey.numbers.modulus ∧
      issuer.publicKey.numbers.raise response.blindSignature.toNat =
        request.blindedMessage.toNat := by
  have hsize := h.isWhole.byteLength_modulus
  rw [issuer.publicKey_numbers] at hmessage hsize
  obtain ⟨signature, hsign, hlt, hraise⟩ := h.numbers.exists_sign? hmessage
  rw [← issuer.publicKey_numbers] at hlt hraise
  have hnat := Block.toNat_ofNat_of_lt (h.isWhole.lt_of_lt_modulus hlt)
  refine ⟨⟨Block.ofNat signatureSize signature⟩, ?_, hnat.symm ▸ hlt, hnat.symm ▸ hraise⟩
  simp [issue, htype, hid, PrivateKey.blindSign, Nat.not_le.mpr hmessage, hsign, hsize,
    Block.ofBytes?_ofNat]

theorem isIssued_signedToken (nonce : Nonce) (challenge : Bytes) (salt : Block saltSize) :
    (issuer.signedToken nonce challenge salt).IsIssued issuer.publicKey nonce challenge salt := by
  generalize hinput : issuer.tokenInput nonce challenge = input
  have hroom : salt.bytes.length + 50 ≤ (modulusBits - 1 + 7) / 8 := by
    rw [salt.length_eq]
    decide
  obtain ⟨encoded, hencode⟩ := Rsa.Pss.exists_encode? hroom input.encode
  have hlt : Bytes.toNat encoded < issuer.privateKey.numbers.modulus := by
    rw [← h.isWhole.encodingBits_eq] at hencode
    have hlt := Rsa.PublicNumbers.toNat_encoded_lt h.isWhole.fillsBytes hencode
    rwa [issuer.publicKey_numbers] at hlt
  obtain ⟨root, hsign, hroot, hraise⟩ := h.numbers.exists_sign? hlt
  rw [← issuer.publicKey_numbers] at hroot hraise
  have hnat := Block.toNat_ofNat_of_lt (h.isWhole.lt_of_lt_modulus hroot)
  have htoken : issuer.signedToken nonce challenge salt =
      { input with authenticator := Block.ofNat signatureSize root } := by
    simp [signedToken, hinput, hencode, hsign]
  rw [htoken]
  subst hinput
  exact h.isIssued rfl rfl rfl hencode (by rwa [hnat]) (by rwa [hnat])

theorem exists_token {state : Type} {source : Source state} {current next : state}
    {challenge : Bytes} {prepared : PreparedRequest}
    (hrequest : issuer.publicKey.request source current challenge = .ok (prepared, next)) :
    ∃ salt response token, source.firstDraws? current = some (prepared.nonce, salt) ∧
      issuer.issue prepared.tokenRequest = .ok response ∧ prepared.finalize response = .ok token ∧
      token.IsIssued issuer.publicKey prepared.nonce challenge salt := by
  obtain ⟨hpublic, hchallenge, salt, message, hdraws, hhides⟩ :=
    PublicKey.request_eq_ok hrequest
  have hblinded : prepared.blindedMessage.toNat < issuer.publicKey.numbers.modulus :=
    hpublic ▸ hhides.blindedMessage_lt (hpublic ▸ h.modulus_pos)
  obtain ⟨response, hissue, -, hraise⟩ := h.exists_issue prepared.tokenRequest rfl
    (congrArg PublicKey.truncatedTokenKeyId hpublic) hblinded
  rw [← hpublic] at hraise
  obtain ⟨⟨input, authenticator⟩, hfinalize, hinput, hlt, hroot⟩ :=
    prepared.exists_finalize hhides (hpublic ▸ h.isWhole) hraise
  obtain rfl : input = prepared.input := hinput
  obtain ⟨encoded, hencode, hvalue⟩ := Rsa.PublicNumbers.encodeMessage?_eq_some hhides.encoding
  rw [hpublic, h.isWhole.encodingBits_eq] at hencode
  rw [hpublic] at hlt hroot
  exact ⟨salt, response, _, hdraws, hissue, hfinalize, h.isIssued rfl hchallenge
    (congrArg PublicKey.tokenKeyId hpublic) hencode hlt (hroot.trans hvalue.symm)⟩

end IsConsistent

end Issuer

-- An issuer whose primes are one more than products of small powers, which proves them prime.
def smoothNumbers : Rsa.PrivateNumbers where
  modulus := (2 ^ 508 * 5 ^ 222 + 1) * (2 ^ 364 * 7 ^ 235 + 1)
  exponent := 65537
  privateExponent := (61023 * (2 ^ 508 * 5 ^ 222) * (2 ^ 364 * 7 ^ 235) + 1) / 65537
  prime1 := 2 ^ 508 * 5 ^ 222 + 1
  prime2 := 2 ^ 364 * 7 ^ 235 + 1

theorem smoothNumbers_isConsistent : smoothNumbers.IsConsistent where
  toFits := by decide +kernel
  prime1 := prime_of_powMod (show Nat.Prime 5 by decide) rfl
    (show powMod 3 _ _ = 1 by decide +kernel) (by decide +kernel) (by decide +kernel)
  prime2 := prime_of_powMod (show Nat.Prime 7 by decide) rfl
    (show powMod 3 _ _ = 1 by decide +kernel) (by decide +kernel) (by decide +kernel)

@[irreducible] def smoothKey : PrivateKey :=
  (PrivateKey.ofNumbers smoothNumbers).toOption.get (by decide +kernel)

def smoothIssuer : Issuer := ⟨smoothKey, by decide +kernel⟩

theorem smoothIssuer_numbers : smoothIssuer.privateKey.numbers = smoothNumbers := by
  decide +kernel

theorem smoothIssuer_isConsistent : smoothIssuer.IsConsistent where
  numbers := smoothIssuer_numbers ▸ smoothNumbers_isConsistent
  bits := smoothIssuer.bitLength_modulus

theorem smoothIssuer_publicNumbers :
    smoothIssuer.publicKey.numbers = smoothNumbers.toPublicNumbers := by
  rw [smoothIssuer.publicKey_numbers, smoothIssuer_numbers]

-- The same byte again and again stands for the random bytes.
def constantSource : Source Unit where
  draw _ size := some (⟨List.replicate size 7, List.length_replicate⟩, ())

@[irreducible] def smoothRequest : { made : PreparedRequest × Unit //
    smoothIssuer.publicKey.request constantSource () [1, 2, 3] = .ok made } :=
  ⟨_, eq_ok_get (by decide +kernel)⟩

end BlindToken
