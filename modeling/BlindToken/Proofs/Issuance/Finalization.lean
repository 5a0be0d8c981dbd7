import BlindToken.Proofs.Issuance.Token

namespace BlindToken

section Zero

theorem Bytes.eq_zero_of_mem_ofNat_zero {width : Nat} {byte : UInt8}
    (h : byte ∈ Bytes.ofNat width 0) : byte = 0 := by
  induction width with
  | zero => cases h
  | succ width ih =>
    rw [ofNat, Nat.zero_shiftRight, List.mem_cons] at h
    exact h.elim id ih

theorem Rsa.Pss.getLast?_of_verify {bits : Nat} {message encoded : Bytes}
    (h : verify bits message encoded = true) : encoded.getLast? = some 0xbc := by
  by_contra hlast
  simp [verify, hlast] at h

-- No encoding is the number zero, which is the only root of zero that a client can come to.
theorem Rsa.PublicNumbers.verify_zero {key : PublicNumbers} (hexponent : key.exponent ≠ 0)
    (message : Bytes) (width : Nat) : key.verify message (Bytes.ofNat width 0) = false := by
  have hraise : key.raise (Bytes.toNat (Bytes.ofNat width 0)) = 0 := by
    rw [Bytes.toNat_ofNat, Nat.zero_mod, raise_eq, Nat.zero_pow (Nat.pos_of_ne_zero hexponent),
      Nat.zero_mod]
  rw [Bool.eq_false_iff]
  intro hverify
  simp only [verify, hraise, Bool.and_eq_true] at hverify
  have hlast := List.mem_of_getLast? (Pss.getLast?_of_verify hverify.2)
  exact absurd (Bytes.eq_zero_of_mem_ofNat_zero (List.mem_of_mem_drop hlast)) (by decide)

end Zero

namespace PreparedRequest

variable {prepared : PreparedRequest} {response : TokenResponse}

theorem verifiesSignature_candidate_of_dvd (hexponent : prepared.publicKey.numbers.exponent ≠ 0)
    (h : prepared.publicKey.numbers.modulus ∣ response.blindSignature.toNat) :
    prepared.publicKey.verifiesSignature (prepared.candidate response) = false := by
  have hunblind :
      prepared.publicKey.numbers.unblind response.blindSignature.toNat prepared.blind = 0 :=
    Nat.mod_eq_zero_of_dvd (h.mul_right _)
  rw [verifiesSignature_candidate, PublicKey.authenticates, candidate, hunblind]
  exact Rsa.PublicNumbers.verify_zero hexponent _ _

-- Whatever bytes come as a response, a client gets one token or none, and gets it exactly if its
-- signature is genuine.
theorem finalize_exact (key : PublicKey) {state : Type} (source : Source state)
    (current next : state) (challenge : Bytes) (prepared : PreparedRequest)
    (hrequest : key.request source current challenge = .ok (prepared, next)) :
    prepared.publicKey = key ∧ prepared.challengeDigest = sha256 challenge ∧
      (∃ salt, source.firstDraws? current = some (prepared.nonce, salt)) ∧
      prepared.blind.inverse * prepared.blind.factor ≡ 1 [MOD key.numbers.modulus] ∧
      ∀ response, (prepared.candidate response).authenticator.toNat =
          response.blindSignature.toNat * prepared.blind.inverse % key.numbers.modulus ∧
        (∀ token, prepared.finalize response = .ok token ↔
          key.verifiesSignature (prepared.candidate response) = true ∧
            token = prepared.candidate response) ∧
        ∀ error, prepared.finalize response = .error error ↔
          key.verifiesSignature (prepared.candidate response) = false ∧
            error = .finalizationFailed := by
  have hsize := PublicKey.byteLength_of_request hrequest
  have hpos := PublicKey.modulus_pos_of_request hrequest
  obtain ⟨rfl, hchallenge, salt, message, hdraws, hhides⟩ := PublicKey.request_eq_ok hrequest
  refine ⟨rfl, hchallenge, ⟨salt, hdraws⟩, hhides.blind, fun response => ?_⟩
  have hlt : prepared.publicKey.numbers.unblind response.blindSignature.toNat prepared.blind <
      256 ^ signatureSize :=
    Nat.lt_trans (Nat.mod_lt _ hpos) (hsize ▸ lt_pow_byteLength _)
  refine ⟨Block.toNat_ofNat_of_lt hlt, fun token => ?_, fun error => ?_⟩
  · rw [finalize_eq hsize]
    split
    · rename_i hverify
      simp [hverify, eq_comm]
    · rename_i hverify
      simp [hverify]
  · rw [finalize_eq hsize]
    split
    · rename_i hverify
      simp [hverify]
    · rename_i hverify
      simp [hverify, eq_comm]

-- The response of the issuer, and the numbers zero and the modulus in its place.
theorem smooth_finalize_exact :
    ∃ prepared response,
      smoothIssuer.publicKey.request constantSource () [1, 2, 3] = .ok (prepared, ()) ∧
      smoothIssuer.issue prepared.tokenRequest = .ok response ∧
      smoothIssuer.publicKey.verifiesSignature (prepared.candidate response) = true ∧
      prepared.finalize response = .ok (prepared.candidate response) ∧
      prepared.finalize ⟨Block.ofNat signatureSize 0⟩ = .error .finalizationFailed ∧
      prepared.finalize ⟨Block.ofNat signatureSize smoothNumbers.modulus⟩ =
        .error .finalizationFailed := by
  obtain ⟨⟨prepared, next⟩, hrequest⟩ := smoothRequest
  obtain ⟨hpublic, -, -, -, hexact⟩ := finalize_exact smoothIssuer.publicKey constantSource () next
    [1, 2, 3] prepared hrequest
  obtain ⟨-, response, token, -, hissue, hfinalize, -⟩ :=
    smoothIssuer_isConsistent.exists_token hrequest
  obtain ⟨hverify, rfl⟩ := ((hexact response).2.1 token).mp hfinalize
  have hnumbers : prepared.publicKey.numbers = smoothNumbers.toPublicNumbers := by
    rw [hpublic, smoothIssuer_publicNumbers]
  have hfails {number : Nat} (hfits : number < 256 ^ signatureSize)
      (hdvd : smoothNumbers.modulus ∣ number) :
      prepared.finalize ⟨Block.ofNat signatureSize number⟩ = .error .finalizationFailed := by
    refine ((hexact _).2.2 _).mpr ⟨?_, rfl⟩
    rw [← hpublic]
    refine verifiesSignature_candidate_of_dvd (by rw [hnumbers]; decide) ?_
    rwa [hnumbers, Block.toNat_ofNat_of_lt hfits]
  have hmodulus : smoothNumbers.modulus < 256 ^ signatureSize := by
    have hlt := smoothIssuer.publicKey_isWhole.modulus_lt
    rwa [smoothIssuer_publicNumbers] at hlt
  exact ⟨prepared, response, hrequest, hissue, hverify, hfinalize, hfails (by decide) (dvd_zero _),
    hfails hmodulus (dvd_refl _)⟩

end PreparedRequest

end BlindToken
