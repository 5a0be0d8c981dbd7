import BlindToken.Proofs.Issuance.Token
import BlindToken.Random.Replay

namespace BlindToken

-- What a request hides beside the blind.
structure Hidden where
  nonce : Nonce
  challenge : Bytes
  salt : Block saltSize

namespace Hidden

def input (hidden : Hidden) (key : PublicKey) : TokenInput where
  tokenType := TokenType.blindRsa.code
  nonce := hidden.nonce
  challengeDigest := sha256 hidden.challenge
  tokenKeyId := key.tokenKeyId

-- The encoding of the token's input is this number, which has an inverse.
structure Encodes (hidden : Hidden) (key : PublicKey) (message : Nat) : Prop where
  encoding : ∃ encoded, Rsa.Pss.encode? (modulusBits - 1) (hidden.input key).encode
    hidden.salt.bytes = some encoded ∧ Bytes.toNat encoded = message
  coprime : message.Coprime key.numbers.modulus

end Hidden

-- The source gives the nonce and the salt, and then a blind of this factor. Blinds that are refused
-- may come before it.
def Source.Gives {state : Type} (source : Source state) (current next : state) (modulus : Nat)
    (hidden : Hidden) (factor : Nat) : Prop :=
  ∃ second third blind, source.draw current 32 = some (hidden.nonce, second) ∧
    source.draw second saltSize = some (hidden.salt, third) ∧
    PublicKey.drawBlind source modulus PublicKey.blindDraws third = .ok (blind, next) ∧
    blind.factor = factor

-- The request for these values, whatever source gives them.
structure PublicKey.Prepares (key : PublicKey) (hidden : Hidden) (factor : Nat)
    (prepared : PreparedRequest) : Prop where
  exists_source : ∃ (state : Type) (source : Source state) (current next : state),
    source.Gives current next key.numbers.modulus hidden factor
  request_eq : ∀ {state : Type} (source : Source state) (current next : state),
    source.Gives current next key.numbers.modulus hidden factor →
      key.request source current hidden.challenge = .ok (prepared, next)

namespace PublicKey

variable {key : PublicKey} {hidden other : Hidden} {message factor otherFactor : Nat}
  {prepared otherPrepared : PreparedRequest}

theorem drawBlind_of_ofDraw? {state : Type} {source : Source state} {modulus draws : Nat}
    {current next : state} {blind : Rsa.Blind} {drawn : Block (Rsa.blindSize modulus)}
    (hdraw : source.draw current (Rsa.blindSize modulus) = some (drawn, next))
    (hblind : Rsa.Blind.ofDraw? modulus drawn.bytes = some blind) :
    drawBlind source modulus (draws + 1) current = .ok (blind, next) := by
  simp [drawBlind, hdraw, hblind]

-- The values may come from a source that hands them out one after another.
theorem exists_gives (hkey : key.IsWhole) (hidden : Hidden)
    (hfactor : Rsa.Blind.IsFactor key.numbers.modulus factor) :
    ∃ (state : Type) (source : Source state) (current next : state),
      source.Gives current next key.numbers.modulus hidden factor := by
  have hbits : bitLength key.numbers.modulus = modulusBits := hkey
  have hsize : Rsa.blindSize key.numbers.modulus = signatureSize := by
    rw [Rsa.blindSize, hbits]
    rfl
  let drawn : Block (Rsa.blindSize key.numbers.modulus) :=
    ⟨(Bytes.ofNat signatureSize factor).reverse, by
      rw [List.length_reverse, Bytes.length_ofNat, hsize]⟩
  -- blinds are drawn with the lowest byte first
  have hdrawn : Bytes.toNat drawn.bytes.reverse = factor := by
    rw [List.reverse_reverse]
    exact Bytes.toNat_ofNat_of_lt (hkey.lt_of_lt_modulus hfactor.lt_modulus)
  have hwords : bitLength key.numbers.modulus % 64 = 0 := by
    rw [hbits]
    rfl
  obtain ⟨blind, hblind, heq⟩ := Rsa.Blind.ofDraw?_of_isFactor hwords (hdrawn.symm ▸ hfactor)
  let start := Replay.ofValues hidden.nonce.bytes hidden.salt.bytes drawn.bytes ()
  refine ⟨Replay Unit, Replay.source ⟨fun _ _ => none⟩, start,
    { start with step := .additionalBlind }, { start with step := .salt },
    { start with step := .blind }, blind, ?_, ?_, ?_, heq.trans hdrawn⟩
  · simp [Replay.source, Replay.draw, start, Replay.ofValues]
  · simp [Replay.source, Replay.draw, start, Replay.ofValues]
  · refine drawBlind_of_ofDraw? ?_ hblind
    simp [Replay.source, Replay.draw, start, Replay.ofValues]

theorem exists_prepares (hkey : key.IsWhole) (hhidden : hidden.Encodes key message)
    (hfactor : Rsa.Blind.IsFactor key.numbers.modulus factor) :
    ∃ prepared, key.Prepares hidden factor prepared ∧ prepared.publicKey = key ∧
      prepared.blindedMessage.toNat =
        message * key.numbers.raise factor % key.numbers.modulus := by
  have hpos : 0 < key.numbers.modulus := Nat.zero_lt_of_lt hfactor.lt_modulus
  have hsize := hkey.byteLength_modulus
  obtain ⟨encoded, hencode, rfl⟩ := hhidden.encoding
  have hmessage : key.numbers.encodeMessage? (hidden.input key).encode hidden.salt.bytes =
      some (Bytes.toNat encoded) := by
    have hcoprime : Nat.gcd (Bytes.toNat encoded) key.numbers.modulus = 1 := hhidden.coprime
    simp [Rsa.PublicNumbers.encodeMessage?, hkey.encodingBits_eq, hencode, hcoprime]
  obtain ⟨inverse, hinverse⟩ := exists_inverse? hfactor.coprime
  let blind : Rsa.Blind := ⟨factor, inverse⟩
  let blinded := key.numbers.blind (Bytes.toNat encoded) blind
  refine ⟨⟨key, hidden.nonce, sha256 hidden.challenge, Block.ofNat signatureSize blinded, blind⟩,
    ⟨exists_gives hkey hidden hfactor, ?_⟩, rfl, ?_⟩
  · rintro state source current next ⟨second, third, ⟨_, given⟩, hnonce, hsalt, hblind, rfl⟩
    -- whatever was refused before, the blind comes with the inverse of its factor
    obtain ⟨drawn, hdrawn⟩ := exists_ofDraw?_of_drawBlind hblind
    obtain rfl := Option.some.inj (hinverse.symm.trans (Rsa.Blind.inverse?_factor hdrawn))
    have hprepare : key.prepare hidden.nonce (sha256 hidden.challenge) (Bytes.toNat encoded) blind =
        .ok ⟨key, hidden.nonce, sha256 hidden.challenge, Block.ofNat signatureSize blinded,
          blind⟩ := by
      simp [prepare, hsize, Block.ofBytes?_ofNat, blinded]
    refine bind_eq_ok_iff.mpr ⟨(hidden.nonce, second), by simp [draw, hnonce], ?_⟩
    refine bind_eq_ok_iff.mpr ⟨(hidden.salt, third), by simp [draw, hsalt], ?_⟩
    simp only [Hidden.input] at hmessage
    simp only [hmessage]
    refine bind_eq_ok_iff.mpr ⟨(blind, next), hblind, ?_⟩
    simp only [hprepare]
    rfl
  · exact Block.toNat_ofNat_of_lt (hkey.lt_of_lt_modulus (Nat.mod_lt _ hpos))

theorem Prepares.eq (h : key.Prepares hidden factor prepared)
    (hother : key.Prepares hidden factor otherPrepared) : prepared = otherPrepared := by
  obtain ⟨state, source, current, next, hgives⟩ := h.exists_source
  have hrequest := hother.request_eq source current next hgives
  rw [h.request_eq source current next hgives] at hrequest
  exact congrArg Prod.fst (Except.ok.inj hrequest)

end PublicKey

theorem PreparedRequest.tokenRequest_eq_of_encode_eq {prepared other : PreparedRequest}
    (h : prepared.tokenRequest.encode = other.tokenRequest.encode) :
    prepared.tokenRequest = other.tokenRequest := by
  simp only [TokenRequest.encode, tokenRequest, List.append_assoc, List.append_cancel_left_eq,
    List.singleton_append, List.cons.injEq] at h
  obtain ⟨hid, hmessage⟩ := h
  rw [tokenRequest, tokenRequest, hid, Block.toNat_inj (congrArg Bytes.toNat hmessage)]

-- Of all that the client draws and hides, only the blinded message goes into the request.
theorem PreparedRequest.encode_tokenRequest_eq_iff {prepared other : PreparedRequest}
    (hkey : prepared.publicKey = other.publicKey) :
    prepared.tokenRequest.encode = other.tokenRequest.encode ↔
      prepared.blindedMessage.toNat = other.blindedMessage.toNat := by
  constructor
  · intro h
    have hrequest := tokenRequest_eq_of_encode_eq h
    exact congrArg (fun request => request.blindedMessage.toNat) hrequest
  · intro h
    rw [tokenRequest, tokenRequest, hkey, Block.toNat_inj h]

namespace Issuer

variable {issuer : Issuer} {hidden other : Hidden} {prepared : PreparedRequest} {factor : Nat}

theorem IsConsistent.exists_token_of_prepares (h : issuer.IsConsistent)
    (hprepares : issuer.publicKey.Prepares hidden factor prepared) :
    ∃ response token, issuer.issue prepared.tokenRequest = .ok response ∧
      prepared.finalize response = .ok token ∧
      token.IsIssued issuer.publicKey hidden.nonce hidden.challenge hidden.salt := by
  obtain ⟨state, source, current, next, hgives⟩ := hprepares.exists_source
  have hrequest := hprepares.request_eq source current next hgives
  obtain ⟨second, third, blind, hnonce, hsalt, -, -⟩ := hgives
  obtain ⟨salt, response, token, hdraws, hissue, hfinalize, hissued⟩ := h.exists_token hrequest
  have hgiven : source.firstDraws? current = some (hidden.nonce, hidden.salt) := by
    simp [Source.firstDraws?, hnonce, hsalt]
  obtain ⟨hnonceEq, rfl⟩ := Prod.mk.inj (Option.some.inj (hdraws.symm.trans hgiven))
  rw [hnonceEq] at hissued
  exact ⟨response, token, hissue, hfinalize, hissued⟩

theorem IsConsistent.existsUnique_isFactor (h : issuer.IsConsistent) {value otherValue : Nat}
    (hvalue : value.Coprime issuer.publicKey.numbers.modulus)
    (hother : otherValue.Coprime issuer.publicKey.numbers.modulus)
    (hfactor : Rsa.Blind.IsFactor issuer.publicKey.numbers.modulus factor) :
    ∃! otherFactor, Rsa.Blind.IsFactor issuer.publicKey.numbers.modulus otherFactor ∧
      otherValue * issuer.publicKey.numbers.raise otherFactor %
          issuer.publicKey.numbers.modulus =
        value * issuer.publicKey.numbers.raise factor % issuer.publicKey.numbers.modulus := by
  rw [issuer.publicKey_numbers] at hvalue hother hfactor ⊢
  exact h.numbers.existsUnique_isFactor hvalue hother hfactor

-- Behind every request there may be every nonce and challenge, each with exactly one blind, and the
-- issuer's response suits all of them.
theorem request_hides (issuer : Issuer) (hissuer : issuer.IsConsistent) (hidden other : Hidden)
    (message otherMessage factor : Nat) (hhidden : hidden.Encodes issuer.publicKey message)
    (hother : other.Encodes issuer.publicKey otherMessage)
    (hfactor : Rsa.Blind.IsFactor issuer.publicKey.numbers.modulus factor) :
    (∃! otherFactor, Rsa.Blind.IsFactor issuer.publicKey.numbers.modulus otherFactor ∧
      ∃ prepared otherPrepared, issuer.publicKey.Prepares hidden factor prepared ∧
        issuer.publicKey.Prepares other otherFactor otherPrepared ∧
        prepared.tokenRequest.encode = otherPrepared.tokenRequest.encode) ∧
    ∀ otherFactor prepared otherPrepared, issuer.publicKey.Prepares hidden factor prepared →
      issuer.publicKey.Prepares other otherFactor otherPrepared →
      prepared.tokenRequest.encode = otherPrepared.tokenRequest.encode →
      ∃ response token otherToken, issuer.issue prepared.tokenRequest = .ok response ∧
        issuer.issue otherPrepared.tokenRequest = .ok response ∧
        prepared.finalize response = .ok token ∧
        otherPrepared.finalize response = .ok otherToken ∧
        token.IsIssued issuer.publicKey hidden.nonce hidden.challenge hidden.salt ∧
        otherToken.IsIssued issuer.publicKey other.nonce other.challenge other.salt ∧
        issuer.publicKey.verifiesSignature token ∧
        issuer.publicKey.verifiesSignature otherToken := by
  have hwhole := hissuer.isWhole
  constructor
  · obtain ⟨prepared, hprepared, hkey, hblinded⟩ :=
      PublicKey.exists_prepares hwhole hhidden hfactor
    -- the requests agree exactly if the blinded messages do
    refine (existsUnique_congr fun otherFactor => and_congr_right fun hotherFactor => ?_).mpr
      (hissuer.existsUnique_isFactor hhidden.coprime hother.coprime hfactor)
    obtain ⟨otherPrepared, hotherPrepared, hotherKey, hotherBlinded⟩ :=
      PublicKey.exists_prepares hwhole hother hotherFactor
    rw [← hotherBlinded, ← hblinded, eq_comm,
      ← PreparedRequest.encode_tokenRequest_eq_iff (hkey.trans hotherKey.symm)]
    constructor
    · rintro ⟨_, _, hfirst, hsecond, hequal⟩
      rwa [hfirst.eq hprepared, hsecond.eq hotherPrepared] at hequal
    · exact fun hequal => ⟨_, _, hprepared, hotherPrepared, hequal⟩
  · intro otherFactor prepared otherPrepared hprepared hotherPrepared hequal
    obtain ⟨response, token, hissue, hfinalize, hissued⟩ :=
      hissuer.exists_token_of_prepares hprepared
    obtain ⟨otherResponse, otherToken, hotherIssue, hotherFinalize, hotherIssued⟩ :=
      hissuer.exists_token_of_prepares hotherPrepared
    have hsame := hotherIssue
    rw [← PreparedRequest.tokenRequest_eq_of_encode_eq hequal, hissue] at hsame
    obtain rfl := Except.ok.inj hsame
    exact ⟨response, token, otherToken, hissue, hotherIssue, hfinalize, hotherFinalize, hissued,
      hotherIssued, hissued.verifiesSignature hwhole, hotherIssued.verifiesSignature hwhole⟩

-- Requests for two challenges that look the same, and a token from each.
theorem smooth_request_hides :
    let hidden : Hidden := ⟨Block.ofNat 32 1, [1, 2, 3], Block.ofNat saltSize 2⟩
    let other : Hidden := ⟨Block.ofNat 32 3, [], Block.ofNat saltSize 4⟩
    smoothIssuer.IsConsistent ∧
      (∃ message, hidden.Encodes smoothIssuer.publicKey message) ∧
      (∃ message, other.Encodes smoothIssuer.publicKey message) ∧
      Rsa.Blind.IsFactor smoothIssuer.publicKey.numbers.modulus (2 ^ 64) ∧
      ∃ otherFactor prepared otherPrepared response token otherToken,
        smoothIssuer.publicKey.Prepares hidden (2 ^ 64) prepared ∧
        smoothIssuer.publicKey.Prepares other otherFactor otherPrepared ∧
        prepared.tokenRequest.encode = otherPrepared.tokenRequest.encode ∧
        prepared.finalize response = .ok token ∧
        otherPrepared.finalize response = .ok otherToken ∧
        smoothIssuer.publicKey.verifiesSignature token ∧
        smoothIssuer.publicKey.verifiesSignature otherToken := by
  intro hidden other
  have hencodes (hidden : Hidden)
      (h : (Rsa.Pss.encode? (modulusBits - 1) (hidden.input smoothIssuer.publicKey).encode
        hidden.salt.bytes).map (fun encoded => Nat.gcd (Bytes.toNat encoded)
          smoothIssuer.publicKey.numbers.modulus) = some 1) :
      ∃ message, hidden.Encodes smoothIssuer.publicKey message := by
    obtain ⟨encoded, hencode, hcoprime⟩ := Option.map_eq_some_iff.mp h
    exact ⟨_, ⟨encoded, hencode, rfl⟩, hcoprime⟩
  obtain ⟨message, hhidden⟩ := hencodes hidden (by decide +kernel)
  obtain ⟨otherMessage, hother⟩ := hencodes other (by decide +kernel)
  have hfactor : Rsa.Blind.IsFactor smoothIssuer.publicKey.numbers.modulus (2 ^ 64) :=
    ⟨by decide, by decide +kernel, by decide +kernel⟩
  obtain ⟨⟨otherFactor, ⟨-, hpair⟩, -⟩, hall⟩ :=
    request_hides smoothIssuer smoothIssuer_isConsistent hidden other message otherMessage (2 ^ 64)
      hhidden hother hfactor
  obtain ⟨prepared, otherPrepared, hprepared, hotherPrepared, hequal⟩ := hpair
  obtain ⟨response, token, otherToken, -, -, hfinalize, hotherFinalize, -, -, hverify,
    hotherVerify⟩ := hall _ _ _ hprepared hotherPrepared hequal
  exact ⟨smoothIssuer_isConsistent, ⟨message, hhidden⟩, ⟨otherMessage, hother⟩, hfactor,
    otherFactor, prepared, otherPrepared, response, token, otherToken, hprepared, hotherPrepared,
    hequal, hfinalize, hotherFinalize, hverify, hotherVerify⟩

end Issuer

end BlindToken
