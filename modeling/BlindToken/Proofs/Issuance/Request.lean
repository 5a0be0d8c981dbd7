import BlindToken.Issuance.Request
import BlindToken.Proofs.Except
import BlindToken.Proofs.Rsa.Blinding

namespace BlindToken

-- The first two draws of a request, its nonce and the salt of the signature.
def Source.firstDraws? {state : Type} (source : Source state) (current : state) :
    Option (Nonce × Block saltSize) := do
  let (nonce, current) ← source.draw current 32
  let (salt, _) ← source.draw current saltSize
  return (nonce, salt)

-- The blinded message hides an encoding of the token's input under the blind.
structure PreparedRequest.Hides (prepared : PreparedRequest) (salt : Block saltSize)
    (message : Nat) : Prop where
  encoding :
    prepared.publicKey.numbers.encodeMessage? prepared.input.encode salt.bytes = some message
  blind : prepared.blind.Cancels prepared.publicKey.numbers.modulus
  blindedMessage : prepared.blindedMessage.bytes =
    Bytes.ofNat (byteLength prepared.publicKey.numbers.modulus)
      (prepared.publicKey.numbers.blind message prepared.blind)

theorem PreparedRequest.Hides.blindedMessage_lt {prepared : PreparedRequest}
    {salt : Block saltSize} {message : Nat} (h : prepared.Hides salt message)
    (hpos : 0 < prepared.publicKey.numbers.modulus) :
    prepared.blindedMessage.toNat < prepared.publicKey.numbers.modulus := by
  rw [Block.toNat, h.blindedMessage, Bytes.toNat_ofNat]
  exact Nat.lt_of_le_of_lt (Nat.mod_le _ _) (Nat.mod_lt _ hpos)

namespace PreparedRequest

-- The token that a response is worth if its signature is genuine.
def candidate (prepared : PreparedRequest) (response : TokenResponse) : Token :=
  { prepared.input with
    authenticator := Block.ofNat signatureSize
      (prepared.publicKey.numbers.unblind response.blindSignature.toNat prepared.blind) }

theorem verifiesSignature_candidate (prepared : PreparedRequest) (response : TokenResponse) :
    prepared.publicKey.verifiesSignature (prepared.candidate response) =
      prepared.publicKey.authenticates (prepared.candidate response) := by
  have htype : (prepared.candidate response).tokenType = TokenType.blindRsa.code := rfl
  have hid : (prepared.candidate response).tokenKeyId = prepared.publicKey.tokenKeyId := rfl
  rw [PublicKey.verifiesSignature, htype, hid, decide_eq_true rfl, decide_eq_true rfl,
    Bool.true_and, Bool.true_and]

-- The client signs for the fields it has kept, and verifies what it gives out.
theorem finalize_eq {prepared : PreparedRequest}
    (hsize : byteLength prepared.publicKey.numbers.modulus = signatureSize)
    (response : TokenResponse) :
    prepared.finalize response =
      if prepared.publicKey.verifiesSignature (prepared.candidate response) then
        .ok (prepared.candidate response)
      else .error .finalizationFailed := by
  rw [verifiesSignature_candidate]
  simp only [finalize, hsize, Block.ofBytes?_ofNat]
  rfl

end PreparedRequest

namespace PublicKey

variable {state : Type} {source : Source state}

theorem draw_eq_ok {size : Nat} {current next : state} {drawn : Block size}
    (h : draw source size current = .ok (drawn, next)) :
    source.draw current size = some (drawn, next) := by
  unfold draw at h
  split at h
  · rename_i hdraw
    rw [hdraw, Except.ok.inj h]
  · cases h

-- Refused blinds leave no trace.
theorem exists_ofDraw?_of_drawBlind {modulus draws : Nat} {current next : state}
    {blind : Rsa.Blind} (h : drawBlind source modulus draws current = .ok (blind, next)) :
    ∃ drawn, Rsa.Blind.ofDraw? modulus drawn = some blind := by
  induction draws generalizing current with
  | zero => cases h
  | succ draws ih =>
    rw [drawBlind] at h
    split at h
    · cases h
    · split at h
      · rename_i hblind
        obtain ⟨rfl, -⟩ := Prod.mk.inj (Except.ok.inj h)
        exact ⟨_, hblind⟩
      · exact ih h

theorem cancels_of_drawBlind {modulus : Nat} (hmodulus : 0 < modulus) {draws : Nat}
    {current next : state} {blind : Rsa.Blind}
    (h : drawBlind source modulus draws current = .ok (blind, next)) : blind.Cancels modulus := by
  obtain ⟨drawn, hdrawn⟩ := exists_ofDraw?_of_drawBlind h
  exact Rsa.Blind.cancels_of_ofDraw? hmodulus hdrawn

theorem prepare_eq_ok {key : PublicKey} {nonce : Nonce} {challengeDigest : ChallengeDigest}
    {message : Nat} {blind : Rsa.Blind} {prepared : PreparedRequest}
    (h : key.prepare nonce challengeDigest message blind = .ok prepared) :
    ∃ blindedMessage,
      prepared = { publicKey := key, nonce, challengeDigest, blindedMessage, blind } ∧
      blindedMessage.bytes =
        Bytes.ofNat (byteLength key.numbers.modulus) (key.numbers.blind message blind) := by
  simp only [prepare] at h
  split at h
  · rename_i blindedMessage hblinded
    exact ⟨blindedMessage, (Except.ok.inj h).symm, Block.ofBytes?_eq_some_iff.mp hblinded⟩
  · cases h

-- The request of a key of another size is not prepared.
theorem byteLength_of_prepare {key : PublicKey} {nonce : Nonce}
    {challengeDigest : ChallengeDigest} {message : Nat} {blind : Rsa.Blind}
    {prepared : PreparedRequest}
    (h : key.prepare nonce challengeDigest message blind = .ok prepared) :
    byteLength key.numbers.modulus = signatureSize := by
  obtain ⟨blindedMessage, -, hbytes⟩ := prepare_eq_ok h
  have hlength := blindedMessage.length_eq
  rwa [hbytes, Bytes.length_ofNat] at hlength

section Request

variable {key : PublicKey} {current next : state} {challenge : Bytes} {prepared : PreparedRequest}
  (h : key.request source current challenge = .ok (prepared, next))

include h

theorem exists_steps_of_request : ∃ nonce salt third message blind,
    source.firstDraws? current = some (nonce, salt) ∧
      key.numbers.encodeMessage? (⟨TokenType.blindRsa.code, nonce, sha256 challenge,
        key.tokenKeyId⟩ : TokenInput).encode salt.bytes = some message ∧
      drawBlind source key.numbers.modulus blindDraws third = .ok (blind, next) ∧
      key.prepare nonce (sha256 challenge) message blind = .ok prepared := by
  obtain ⟨⟨nonce, second⟩, hnonce, h⟩ := bind_eq_ok_iff.mp h
  obtain ⟨⟨salt, third⟩, hsalt, h⟩ := bind_eq_ok_iff.mp h
  dsimp only at h
  split at h
  · rename_i message hmessage
    obtain ⟨⟨blind, last⟩, hblind, h⟩ := bind_eq_ok_iff.mp h
    dsimp only at h
    split at h
    · rename_i prepared' hprepare
      obtain ⟨rfl, rfl⟩ := Prod.mk.inj (Except.ok.inj h)
      refine ⟨nonce, salt, third, message, blind, ?_, hmessage, hblind, hprepare⟩
      simp [Source.firstDraws?, draw_eq_ok hnonce, draw_eq_ok hsalt]
    · cases h
  · cases h

theorem byteLength_of_request : byteLength key.numbers.modulus = signatureSize := by
  obtain ⟨nonce, salt, third, message, blind, -, -, -, hprepare⟩ := exists_steps_of_request h
  exact byteLength_of_prepare hprepare

theorem modulus_pos_of_request : 0 < key.numbers.modulus := by
  have hsize := byteLength_of_request h
  refine Nat.pos_of_ne_zero fun hzero => ?_
  rw [hzero] at hsize
  exact absurd hsize (by decide)

theorem request_eq_ok :
    prepared.publicKey = key ∧ prepared.challengeDigest = sha256 challenge ∧
      ∃ salt message, source.firstDraws? current = some (prepared.nonce, salt) ∧
        prepared.Hides salt message := by
  obtain ⟨nonce, salt, third, message, blind, hdraws, hmessage, hblind, hprepare⟩ :=
    exists_steps_of_request h
  obtain ⟨blindedMessage, rfl, hblinded⟩ := prepare_eq_ok hprepare
  exact ⟨rfl, rfl, salt, message, hdraws, hmessage,
    cancels_of_drawBlind (modulus_pos_of_request h) hblind, hblinded⟩

end Request

end PublicKey

end BlindToken
