import BlindToken.Proofs.Issuance.Token

namespace BlindToken.Issuer

-- The answer to a request. A signature is the one number below the modulus that the public
-- exponent takes to the message, of which nothing is asked but that it is below the modulus too.
inductive Answers (issuer : Issuer) (request : TokenRequest) :
    Except ProtocolError TokenResponse → Prop where
  | otherType (unfit : request.tokenType ≠ 2) : Answers issuer request (.error .invalidTokenType)
  | otherKey (ofType : request.tokenType = 2)
      (unfit : request.truncatedTokenKeyId ≠ issuer.truncatedTokenKeyId) :
      Answers issuer request (.error .invalidTokenKeyId)
  | notBelow (ofType : request.tokenType = 2)
      (ofKey : request.truncatedTokenKeyId = issuer.truncatedTokenKeyId)
      (unfit : issuer.publicKey.numbers.modulus ≤ request.blindedMessage.toNat) :
      Answers issuer request (.error .invalidTokenRequestBlindedMessage)
  | signed {response : TokenResponse} (ofType : request.tokenType = 2)
      (ofKey : request.truncatedTokenKeyId = issuer.truncatedTokenKeyId)
      (below : request.blindedMessage.toNat < issuer.publicKey.numbers.modulus)
      (root_iff : ∀ root, (root < issuer.publicKey.numbers.modulus ∧
        root ^ issuer.publicKey.numbers.exponent % issuer.publicKey.numbers.modulus =
          request.blindedMessage.toNat) ↔ root = response.blindSignature.toNat) :
      Answers issuer request (.ok response)

variable {issuer : Issuer} {request other : TokenRequest} {response : TokenResponse}
  {answer : Except ProtocolError TokenResponse}

-- The faults are found before the private key is used, so nothing is asked of it.
theorem issue_of_otherType (h : request.tokenType ≠ TokenType.blindRsa.code) :
    issuer.issue request = .error .invalidTokenType := by
  rw [issue, if_pos h]

theorem issue_of_otherKey (htype : request.tokenType = TokenType.blindRsa.code)
    (h : request.truncatedTokenKeyId ≠ issuer.truncatedTokenKeyId) :
    issuer.issue request = .error .invalidTokenKeyId := by
  rw [issue, if_neg (not_not.mpr htype), if_pos h]

theorem issue_of_notBelow (htype : request.tokenType = TokenType.blindRsa.code)
    (hid : request.truncatedTokenKeyId = issuer.truncatedTokenKeyId)
    (h : issuer.publicKey.numbers.modulus ≤ request.blindedMessage.toNat) :
    issuer.issue request = .error .invalidTokenRequestBlindedMessage := by
  rw [issuer.publicKey_numbers] at h
  rw [issue, if_neg (not_not.mpr htype), if_neg (not_not.mpr hid)]
  simp only [PrivateKey.blindSign, if_pos h]

theorem issue_of_fitting (htype : request.tokenType = TokenType.blindRsa.code)
    (hid : request.truncatedTokenKeyId = issuer.truncatedTokenKeyId) :
    issuer.issue request =
      (issuer.privateKey.blindSign request.blindedMessage).map TokenResponse.mk := by
  rw [issue, if_neg (not_not.mpr htype), if_neg (not_not.mpr hid)]
  cases issuer.privateKey.blindSign request.blindedMessage <;> rfl

section Signing

variable {message signature : Block signatureSize} {error : ProtocolError}

-- The factors of the key need not be prime.
theorem raise_of_blindSign (h : issuer.privateKey.blindSign message = .ok signature) :
    issuer.publicKey.numbers.raise signature.toNat = message.toNat := by
  have hwhole := issuer.publicKey_isWhole
  have hpos := hwhole.modulus_pos
  have hfits {value : Nat} (hvalue : value < issuer.publicKey.numbers.modulus) :=
    Bytes.toNat_ofNat_of_lt (hwhole.lt_of_lt_modulus hvalue)
  have hsize := hwhole.byteLength_modulus
  rw [issuer.publicKey_numbers] at hpos hfits hsize ⊢
  unfold PrivateKey.blindSign at h
  split at h
  · cases h
  · split at h
    · rename_i root hsign
      obtain ⟨hlt, hraise⟩ := issuer.privateKey.numbers_fit.of_sign? hpos hsign
      dsimp only at h
      split at h
      · rename_i made hmade
        obtain rfl := Except.ok.inj h
        rw [Block.toNat, Block.ofBytes?_eq_some_iff.mp hmade, hsize, hfits hlt, hraise]
      · cases h
    · cases h

theorem eq_blindSigningFailed (hmessage : message.toNat < issuer.publicKey.numbers.modulus)
    (h : issuer.privateKey.blindSign message = .error error) : error = .blindSigningFailed := by
  rw [issuer.publicKey_numbers] at hmessage
  unfold PrivateKey.blindSign at h
  rw [if_neg (Nat.not_le.mpr hmessage)] at h
  split at h
  · dsimp only at h
    split at h
    · cases h
    · exact (Except.error.inj h).symm
  · exact (Except.error.inj h).symm

end Signing

namespace Answers

-- The public exponent takes a signature to the message, so the message is known from it.
theorem eq_of_ok (h : issuer.Answers request (.ok response))
    (hother : issuer.Answers other (.ok response)) : request = other := by
  cases h with
  | signed htype hid _ hroots =>
    cases hother with
    | signed hotherType hotherId _ hotherRoots =>
      obtain ⟨-, hmessage⟩ := (hroots _).mpr rfl
      obtain ⟨-, hotherMessage⟩ := (hotherRoots _).mpr rfl
      obtain ⟨tokenType, id, message⟩ := request
      obtain ⟨otherType, otherId, otherMessage⟩ := other
      obtain rfl : message = otherMessage := Block.toNat_inj (hmessage.symm.trans hotherMessage)
      obtain rfl : tokenType = otherType := htype.trans hotherType.symm
      obtain rfl : id = otherId := hid.trans hotherId.symm
      rfl

theorem issue_eq (hissuer : issuer.IsConsistent) (h : issuer.Answers request answer) :
    issuer.issue request = answer := by
  cases h with
  | otherType htype => exact issue_of_otherType htype
  | otherKey htype hid => exact issue_of_otherKey htype hid
  | notBelow htype hid hmessage => exact issue_of_notBelow htype hid hmessage
  | @signed response htype hid hmessage hroots =>
    obtain ⟨made, hissue, hlt, hraise⟩ := hissuer.exists_issue request htype hid hmessage
    rw [Rsa.PublicNumbers.raise_eq] at hraise
    have hsignature := (hroots _).mp ⟨hlt, hraise⟩
    obtain ⟨signature⟩ := response
    obtain ⟨madeSignature⟩ := made
    obtain rfl : madeSignature = signature := Block.toNat_inj hsignature
    exact hissue

end Answers

theorem IsConsistent.answers_issue (h : issuer.IsConsistent) (request : TokenRequest) :
    issuer.Answers request (issuer.issue request) := by
  by_cases htype : request.tokenType = 2
  · by_cases hid : request.truncatedTokenKeyId = issuer.truncatedTokenKeyId
    · by_cases hmessage : request.blindedMessage.toNat < issuer.publicKey.numbers.modulus
      · obtain ⟨response, hissue, hlt, hraise⟩ := h.exists_issue request htype hid hmessage
        rw [hissue]
        exact .signed htype hid hmessage (h.root_iff hlt hraise)
      · rw [issue_of_notBelow htype hid (Nat.le_of_not_lt hmessage)]
        exact .notBelow htype hid (Nat.le_of_not_lt hmessage)
    · rw [issue_of_otherKey htype hid]
      exact .otherKey htype hid
  · rw [issue_of_otherType htype]
    exact .otherType htype

-- The first fault of a request decides the error, and every other request is answered with the one
-- root of its message.
theorem issue_exact (issuer : Issuer) (hissuer : issuer.IsConsistent) :
    (∀ request answer, issuer.issue request = answer ↔ issuer.Answers request answer) ∧
      (∀ request, issuer.issue request ≠ .error .blindSigningFailed) ∧
      ∀ request other response, issuer.issue request = .ok response →
        issuer.issue other = .ok response → request = other := by
  have hexact (request answer) : issuer.issue request = answer ↔ issuer.Answers request answer :=
    ⟨fun h => h ▸ hissuer.answers_issue request, fun h => h.issue_eq hissuer⟩
  refine ⟨hexact, fun request hfailed => ?_, fun request other response h hother => ?_⟩
  · cases (hexact _ _).mp hfailed
  · exact ((hexact _ _).mp h).eq_of_ok ((hexact _ _).mp hother)

-- The message zero, one that shares a factor with the modulus, and the modulus itself.
theorem smooth_issue_exact :
    let request (message : Nat) : TokenRequest :=
      ⟨2, smoothIssuer.truncatedTokenKeyId, Block.ofNat signatureSize message⟩
    smoothIssuer.IsConsistent ∧
      smoothIssuer.issue (request 0) = .ok ⟨Block.ofNat signatureSize 0⟩ ∧
      (∃ response, smoothIssuer.issue (request smoothNumbers.prime1) = .ok response ∧
        response.blindSignature.toNat ^ smoothNumbers.exponent % smoothNumbers.modulus =
          smoothNumbers.prime1) ∧
      smoothIssuer.issue (request smoothNumbers.modulus) =
        .error .invalidTokenRequestBlindedMessage := by
  intro request
  have hnumbers := smoothIssuer_publicNumbers
  have hmodulus := smoothIssuer.publicKey_isWhole.modulus_lt
  rw [hnumbers] at hmodulus
  have hfits {message : Nat} (h : message ≤ smoothNumbers.modulus) :
      (request message).blindedMessage.toNat = message :=
    Block.toNat_ofNat_of_lt (Nat.lt_of_le_of_lt h hmodulus)
  obtain ⟨hexact, -, -⟩ := issue_exact smoothIssuer smoothIssuer_isConsistent
  have hsigned {message : Nat} (h : message < smoothNumbers.modulus) :
      ∃ response, smoothIssuer.issue (request message) = .ok response ∧
        ∀ root, (root < smoothNumbers.modulus ∧
          root ^ smoothNumbers.exponent % smoothNumbers.modulus = message) ↔
            root = response.blindSignature.toNat := by
    generalize hanswer : smoothIssuer.issue (request message) = answer
    cases (hexact _ _).mp hanswer with
    | otherType hunfit => exact absurd rfl hunfit
    | otherKey _ hunfit => exact absurd rfl hunfit
    | notBelow _ _ hunfit =>
      rw [hnumbers, hfits (Nat.le_of_lt h)] at hunfit
      exact absurd h (Nat.not_lt.mpr hunfit)
    | signed _ _ _ hroots =>
      rw [hnumbers, hfits (Nat.le_of_lt h)] at hroots
      exact ⟨_, rfl, hroots⟩
  have hpos := smoothNumbers_isConsistent.modulus_pos
  have hprimeLt : smoothNumbers.prime1 < smoothNumbers.modulus := by
    rw [← smoothNumbers_isConsistent.modulus_eq]
    exact (Nat.lt_mul_iff_one_lt_right smoothNumbers_isConsistent.prime1.pos).mpr
      smoothNumbers_isConsistent.prime2.one_lt
  obtain ⟨zero, hzero, hzeroRoot⟩ := hsigned hpos
  obtain ⟨prime, hprime, hprimeRoot⟩ := hsigned hprimeLt
  refine ⟨smoothIssuer_isConsistent, ?_, ⟨prime, hprime, ((hprimeRoot _).mpr rfl).2⟩,
    (hexact _ _).mpr (.notBelow rfl rfl ?_)⟩
  · have hpow : 0 ^ smoothNumbers.exponent % smoothNumbers.modulus = 0 := by
      rw [Nat.zero_pow (by decide), Nat.zero_mod]
    have hsignature := (hzeroRoot 0).mp ⟨hpos, hpow⟩
    obtain rfl : zero = ⟨Block.ofNat signatureSize 0⟩ :=
      congrArg TokenResponse.mk (Block.toNat_inj (hsignature.symm.trans
        (Block.toNat_ofNat_of_lt (show 0 < 256 ^ signatureSize by decide)).symm))
    exact hzero
  · rw [hnumbers, hfits (Nat.le_refl _)]

end BlindToken.Issuer
