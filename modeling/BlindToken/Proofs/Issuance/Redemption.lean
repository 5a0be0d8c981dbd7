import BlindToken.Proofs.Issuance.Token
import BlindToken.Proofs.Redemption.Verify

namespace BlindToken

theorem Token.IsIssued.genuine {token : Token} {key : PublicKey} {nonce : Nonce}
    {challenge : Bytes} {salt : Block saltSize} (h : token.IsIssued key nonce challenge salt)
    (hkey : key.IsWhole) {name : Type} {verifier : Verifier name}
    (hverifier : verifier.publicKey = key)
    (hpin : ∀ digest ∈ verifier.challengeDigest, digest = sha256 challenge) :
    verifier.Genuine token := by
  subst hverifier
  refine ⟨⟨h.tokenType, h.tokenKeyId, fun digest hdigest => ?_⟩, h.authenticates hkey⟩
  rw [h.challengeDigest, hpin digest hdigest]

namespace Issuer

-- Every request that a client can prepare leads to a token that no blind has any part in, and that
-- a verifier accepts once.
theorem issued_token_redeemed_once (issuer : Issuer) (hissuer : issuer.IsConsistent) {state : Type}
    (source : Source state) (current next : state) (challenge : Bytes) (prepared : PreparedRequest)
    (hrequest : issuer.publicKey.request source current challenge = .ok (prepared, next)) :
    ∃ salt response token, source.firstDraws? current = some (prepared.nonce, salt) ∧
      issuer.issue prepared.tokenRequest = .ok response ∧ prepared.finalize response = .ok token ∧
      token.IsIssued issuer.publicKey prepared.nonce challenge salt ∧
      issuer.publicKey.verifiesSignature token ∧
      (∀ {name : Type} [DecidableEq name] (verifier : Verifier name) (stores : NonceStores name),
        verifier.publicKey = issuer.publicKey →
        (∀ digest ∈ verifier.challengeDigest, digest = sha256 challenge) →
        (stores.get verifier.store).contains prepared.nonce = false →
        (verifier.verify stores token).1 = true ∧ ∀ events,
          let later := (Redemptions.ofStores (verifier.verify stores token).2).run events
          (verifier.verify later.stores token).1 = false) ∧
      ∀ {state : Type} (source : Source state) (current next : state) (other : PreparedRequest),
        source.firstDraws? current = some (prepared.nonce, salt) →
        issuer.publicKey.request source current challenge = .ok (other, next) →
        ∃ response, issuer.issue other.tokenRequest = .ok response ∧
          other.finalize response = .ok token := by
  obtain ⟨salt, response, token, hdraws, hissue, hfinalize, hissued⟩ :=
    hissuer.exists_token hrequest
  refine ⟨salt, response, token, hdraws, hissue, hfinalize, hissued, ?_, ?_, ?_⟩
  · simp [PublicKey.verifiesSignature, hissued.tokenType, hissued.tokenKeyId,
      hissued.authenticates hissuer.isWhole, TokenType.code]
  · intro name _ verifier stores hverifier hpin habsent
    rw [NonceStore.contains_eq, Option.isSome_eq_false_iff, Option.isNone_iff_eq_none] at habsent
    exact Redemptions.redeemed_once (hissued.genuine hissuer.isWhole hverifier hpin)
      (hissued.nonce_eq ▸ habsent)
  · intro state source current next other hother hrequest
    obtain ⟨salt', response', token', hdraws', hissue', hfinalize', hissued'⟩ :=
      hissuer.exists_token hrequest
    rw [hother] at hdraws'
    obtain ⟨hnonce, rfl⟩ := Prod.mk.inj (Option.some.inj hdraws')
    rw [← hnonce] at hissued'
    obtain rfl := hissued.eq hissued'
    exact ⟨response', hissue', hfinalize'⟩

end Issuer

-- A verifier that accepts tokens for one challenge, and a token for that challenge.
def smoothVerifier : Verifier Unit where
  publicKey := smoothIssuer.publicKey
  store := ()
  challengeDigest := some (sha256 [1, 2, 3])

def smoothToken : Token :=
  smoothIssuer.signedToken (Block.ofNat 32 1) [1, 2, 3] (Block.ofNat saltSize 2)

theorem smoothToken_genuine : smoothVerifier.Genuine smoothToken :=
  (smoothIssuer_isConsistent.isIssued_signedToken _ _ _).genuine smoothIssuer_isConsistent.isWhole
    (by rw [smoothVerifier]) (fun _ hdigest => (Option.some.inj hdigest).symm)

namespace Issuer

-- The same byte again and again stands for the random bytes.
theorem smooth_token_redeemed_once :
    let source : Source Unit :=
      ⟨fun _ size => some (⟨List.replicate size 7, List.length_replicate⟩, ())⟩
    smoothIssuer.IsConsistent ∧ ∃ prepared response token,
      smoothIssuer.publicKey.request source () [1, 2, 3] = .ok (prepared, ()) ∧
      smoothIssuer.issue prepared.tokenRequest = .ok response ∧
      prepared.finalize response = .ok token ∧
      (smoothVerifier.verify .empty token).1 = true ∧
      (smoothVerifier.verify (smoothVerifier.verify .empty token).2 token).1 = false := by
  intro source
  refine ⟨smoothIssuer_isConsistent, ?_⟩
  obtain ⟨⟨prepared, next⟩, hrequest⟩ := smoothRequest
  obtain ⟨salt, response, token, -, hissue, hfinalize, -, -, hredeem, -⟩ :=
    issued_token_redeemed_once smoothIssuer smoothIssuer_isConsistent source () next [1, 2, 3]
      prepared hrequest
  obtain ⟨hfirst, hlater⟩ := hredeem smoothVerifier .empty (by rw [smoothVerifier])
    (fun digest hdigest => (Option.some.inj hdigest).symm) rfl
  exact ⟨prepared, response, token, hrequest, hissue, hfinalize, hfirst, hlater []⟩

end Issuer

end BlindToken
