import BlindToken.Proofs.Issuance.Token
import BlindToken.Proofs.Random.Replay

namespace BlindToken

theorem byteLength_eq_signatureSize_iff {value : Nat} :
    byteLength value = signatureSize ↔ 2040 < bitLength value ∧ bitLength value ≤ 2048 := by
  unfold byteLength signatureSize
  omega

namespace PublicKey

-- A key that a client can come by: imported in its published form, or the public half of a private
-- key that was.
inductive IsImported : PublicKey → Prop where
  | spki {spki : Bytes} {key : PublicKey} (h : ofSpki spki = .ok key) : IsImported key
  | der {der : Bytes} {key : PrivateKey} (h : PrivateKey.ofDer der = .ok key) :
      IsImported key.publicKey
  | pem {pem : String} {key : PrivateKey} (h : PrivateKey.ofPem pem = .ok key) :
      IsImported key.publicKey

-- A key whose blinded messages have the size of a request's.
def FillsRequests (key : PublicKey) : Prop := 2040 < key.bits ∧ key.bits ≤ 2048

theorem IsImported.bits_eq {key : PublicKey} (h : key.IsImported) :
    key.bits = bitLength key.numbers.modulus := by
  cases h with
  | spki h =>
    obtain ⟨-, -, -, hbits⟩ := ofNumbers_eq_ok_iff.mp (ofSpki_eq_ok_iff.mp h).1
    exact hbits
  | @der _ key h | @pem _ key h =>
    obtain ⟨hnumbers, -, -, hbits⟩ := ofNumbers_eq_ok_iff.mp key.publicKey_eq
    exact hnumbers ▸ hbits

theorem IsImported.fillsRequests_iff {key : PublicKey} (h : key.IsImported) :
    key.FillsRequests ↔ byteLength key.numbers.modulus = signatureSize := by
  rw [byteLength_eq_signatureSize_iff, ← h.bits_eq]
  rfl

section Request

variable {state : Type} {source : Source state} {key : PublicKey} {current : state}
  {challenge : Bytes}

theorem prepare_eq_error {nonce : Nonce} {challengeDigest : ChallengeDigest} {message : Nat}
    {blind : Rsa.Blind} {error : ProtocolError}
    (h : key.prepare nonce challengeDigest message blind = .error error) :
    error = .invalidKeySize ∧ byteLength key.numbers.modulus ≠ signatureSize := by
  simp only [prepare] at h
  split at h
  · cases h
  · rename_i hblock
    refine ⟨(Except.error.inj h).symm, fun hsize => ?_⟩
    rw [hsize, Block.ofBytes?_ofNat] at hblock
    cases hblock

theorem draw_eq_error {size : Nat} {failure : RequestFailure}
    (h : draw source size current = .error failure) : failure = .drawRefused := by
  unfold draw at h
  split at h
  · cases h
  · exact (Except.error.inj h).symm

theorem drawBlind_eq_error {modulus draws : Nat} {error : ProtocolError}
    (h : drawBlind source modulus draws current = .error (.failed error)) :
    error = .blindingFailed := by
  induction draws generalizing current with
  | zero =>
    cases h
    rfl
  | succ draws ih =>
    rw [drawBlind] at h
    split at h
    · cases h
    · split at h
      · cases h
      · exact ih h

-- A key of the right number of bytes is not refused for its size.
theorem request_eq_error {error : ProtocolError}
    (h : key.request source current challenge = .error (.failed error)) :
    error = .blindingFailed ∨
      error = .invalidKeySize ∧ byteLength key.numbers.modulus ≠ signatureSize := by
  obtain h | ⟨⟨nonce, second⟩, -, h⟩ := bind_eq_error_iff.mp h
  · cases draw_eq_error h
  obtain h | ⟨⟨salt, third⟩, -, h⟩ := bind_eq_error_iff.mp h
  · cases draw_eq_error h
  dsimp only at h
  split at h
  · obtain h | ⟨⟨blind, last⟩, -, h⟩ := bind_eq_error_iff.mp h
    · exact .inl (drawBlind_eq_error h)
    · dsimp only at h
      split at h
      · cases h
      · rename_i hprepare
        cases h
        exact .inr (prepare_eq_error hprepare)
  · cases h
    exact .inl rfl

theorem request_eq_ok_of_steps {nonce : Nonce} {salt : Block saltSize}
    {second third next : state} {message : Nat} {blind : Rsa.Blind} {prepared : PreparedRequest}
    (hnonce : source.draw current 32 = some (nonce, second))
    (hsalt : source.draw second saltSize = some (salt, third))
    (hmessage : key.numbers.encodeMessage? (⟨TokenType.blindRsa.code, nonce, sha256 challenge,
      key.tokenKeyId⟩ : TokenInput).encode salt.bytes = some message)
    (hblind : drawBlind source key.numbers.modulus blindDraws third = .ok (blind, next))
    (hprepare : key.prepare nonce (sha256 challenge) message blind = .ok prepared) :
    key.request source current challenge = .ok (prepared, next) := by
  refine bind_eq_ok_iff.mpr ⟨(nonce, second), by rw [draw, hnonce], ?_⟩
  refine bind_eq_ok_iff.mpr ⟨(salt, third), by rw [draw, hsalt], ?_⟩
  dsimp only
  rw [hmessage]
  refine bind_eq_ok_iff.mpr ⟨(blind, next), hblind, ?_⟩
  dsimp only
  rw [hprepare]
  rfl

end Request

-- A blind of zeros is read as one.
theorem exists_drawBlind_zeros {modulus : Nat} (hmodulus : 0 < modulus) {state : Type}
    {source : Source state} {current next : state} {drawn : Block (Rsa.blindSize modulus)}
    (hdrawn : source.draw current (Rsa.blindSize modulus) = some (drawn, next))
    (hzeros : Bytes.toNat drawn.bytes.reverse = 0) :
    ∃ blind, drawBlind source modulus blindDraws current = .ok (blind, next) := by
  obtain ⟨inverse, hinverse⟩ := exists_inverse? (Nat.coprime_one_left modulus)
  have hblind : Rsa.Blind.ofDraw? modulus drawn.bytes = some ⟨1, inverse⟩ := by
    simp [Rsa.Blind.ofDraw?, Rsa.blindFactor, hzeros, hinverse, hmodulus]
  refine ⟨⟨1, inverse⟩, ?_⟩
  rw [show blindDraws = 999999 + 1 from rfl, drawBlind, hdrawn]
  simp only [hblind]

-- The values are drawn as they are given.
theorem exists_request_replayed_iff (key : PublicKey) {state : Type} (source : Source state)
    (current : state) (nonce : Nonce) (salt : Block saltSize) (challenge : Bytes) :
    let given := Replay.ofValues nonce.bytes salt.bytes
      (List.replicate (Rsa.blindSize key.numbers.modulus) 0) current
    (∃ made, key.request (Replay.source source) given challenge = .ok made) ↔
      byteLength key.numbers.modulus = signatureSize ∧
        (key.numbers.encodeMessage? (⟨TokenType.blindRsa.code, nonce, sha256 challenge,
          key.tokenKeyId⟩ : TokenInput).encode salt.bytes).isSome := by
  intro given
  have hnonce : (Replay.source source).draw given 32 =
      some (nonce, { given with step := .salt }) := by
    simp [Replay.source, Replay.draw, given, Replay.ofValues]
  have hsalt : (Replay.source source).draw { given with step := .salt } saltSize =
      some (salt, { given with step := .blind }) := by
    simp [Replay.source, Replay.draw, given, Replay.ofValues]
  constructor
  · rintro ⟨⟨prepared, next⟩, h⟩
    obtain ⟨nonce', salt', -, message, -, hdraws, hmessage, -⟩ := exists_steps_of_request h
    simp only [Source.firstDraws?, hnonce, hsalt, Option.bind_eq_bind, Option.bind_some,
      Option.pure_def, Option.some.injEq, Prod.mk.injEq] at hdraws
    obtain ⟨rfl, rfl⟩ := hdraws
    exact ⟨byteLength_of_request h, Option.isSome_iff_exists.mpr ⟨message, hmessage⟩⟩
  · rintro ⟨hsize, hmessage⟩
    obtain ⟨message, hmessage⟩ := Option.isSome_iff_exists.mp hmessage
    have hmodulus : 0 < key.numbers.modulus := by
      refine Nat.pos_of_ne_zero fun hzero => ?_
      rw [hzero] at hsize
      exact absurd hsize (by decide)
    let zeros : Block (Rsa.blindSize key.numbers.modulus) :=
      ⟨List.replicate (Rsa.blindSize key.numbers.modulus) 0, List.length_replicate⟩
    have hzeros : (Replay.source source).draw { given with step := .blind }
        (Rsa.blindSize key.numbers.modulus) =
          some (zeros, { given with step := .additionalBlind }) := by
      simp [Replay.source, Replay.draw, given, Replay.ofValues, zeros, Block.ofBytes?]
    obtain ⟨blind, hblind⟩ := exists_drawBlind_zeros hmodulus hzeros (by
      rw [Bytes.toNat_reverse, List.map_replicate]
      exact Nat.ofDigits_replicate_zero)
    cases hprepare : key.prepare nonce (sha256 challenge) message blind with
    | error error => exact absurd hsize (prepare_eq_error hprepare).2
    | ok prepared => exact ⟨_, request_eq_ok_of_steps hnonce hsalt hmessage hblind hprepare⟩

-- The size of the modulus in bytes is all that a client asks for. With it, a request is prepared
-- for every nonce and salt whose encoding can be blinded, and without it for none. An issuer asks
-- for the size in bits.
theorem request_keySize (key : PublicKey) (hkey : key.IsImported) :
    (∀ {state : Type} (source : Source state) (current : state) (challenge : Bytes),
      (∀ made, key.request source current challenge = .ok made → key.FillsRequests) ∧
      ∀ error, key.request source current challenge = .error (.failed error) →
        error = .blindingFailed ∨ error = .invalidKeySize ∧ ¬key.FillsRequests) ∧
    (∀ {state : Type} (source : Source state) (current : state) (nonce : Nonce)
        (salt : Block saltSize) (challenge : Bytes),
      (∃ made, key.request (Replay.source source) (Replay.ofValues nonce.bytes salt.bytes
          (List.replicate (Rsa.blindSize key.numbers.modulus) 0) current) challenge = .ok made) ↔
        key.FillsRequests ∧ (key.numbers.encodeMessage? (⟨TokenType.blindRsa.code, nonce,
          sha256 challenge, key.tokenKeyId⟩ : TokenInput).encode salt.bytes).isSome) ∧
    ∀ privateKey : PrivateKey, privateKey.publicKey = key →
      ((∃ issuer, Issuer.ofKey privateKey = .ok issuer) ↔ key.bits = 2048) ∧
      (Issuer.ofKey privateKey = .error .invalidKeySize ↔ key.bits ≠ 2048) := by
  rw [hkey.fillsRequests_iff]
  refine ⟨fun source current challenge => ⟨fun made h => byteLength_of_request h,
    fun error h => request_eq_error h⟩, fun source current nonce salt challenge =>
      key.exists_request_replayed_iff source current nonce salt challenge, ?_⟩
  rintro privateKey rfl
  by_cases hbits : privateKey.bits = modulusBits
  · have hissuer : Issuer.ofKey privateKey = .ok ⟨privateKey, hbits⟩ := dif_pos hbits
    exact ⟨iff_of_true ⟨_, hissuer⟩ hbits, iff_of_false (hissuer ▸ nofun) (not_not.mpr hbits)⟩
  · have hissuer : Issuer.ofKey privateKey = .error .invalidKeySize := dif_neg hbits
    exact ⟨iff_of_false (fun ⟨_, h⟩ => nomatch hissuer.symm.trans h) hbits,
      iff_of_true hissuer hbits⟩

-- A key of 2047 bits: the second prime of the smooth issuer is replaced by one of 1023 bits.
def narrowNumbers : Rsa.PrivateNumbers where
  modulus := (2 ^ 508 * 5 ^ 222 + 1) * (2 ^ 436 * 7 ^ 209 + 1)
  exponent := 65537
  privateExponent := (59050 * (2 ^ 508 * 5 ^ 222) * (2 ^ 436 * 7 ^ 209) + 1) / 65537
  prime1 := 2 ^ 508 * 5 ^ 222 + 1
  prime2 := 2 ^ 436 * 7 ^ 209 + 1

def narrowDocument : Bytes :=
  (Pkcs8.privateKey (Pkcs1.privateKey narrowNumbers).encode).encode

@[irreducible] def narrowKey :
    { key : PrivateKey // PrivateKey.ofDer narrowDocument = .ok key ∧ key.bits = 2047 } :=
  ⟨_, eq_ok_get (by decide +kernel), by decide +kernel⟩

theorem request_keySize_narrow :
    narrowKey.1.publicKey.IsImported ∧ Issuer.ofKey narrowKey.1 = .error .invalidKeySize ∧
      narrowKey.1.publicKey.request constantSource () [1, 2, 3] ≠
        .error (.failed .invalidKeySize) := by
  obtain ⟨key, hkey, hbits⟩ := narrowKey
  have himported : key.publicKey.IsImported := .der hkey
  have hpublic : key.publicKey.bits = 2047 := hbits
  obtain ⟨hsource, -, hissuer⟩ := request_keySize key.publicKey himported
  refine ⟨himported, (hissuer key rfl).2.mpr (by omega), fun hrequest => ?_⟩
  obtain hblinding | ⟨-, hsize⟩ := (hsource constantSource () [1, 2, 3]).2 _ hrequest
  · cases hblinding
  · exact hsize ⟨by omega, by omega⟩

-- A client that imports this key, in either form, gets its request, and no issuer can have the key.
theorem request_narrow : ∃ key,
    PrivateKey.ofDer narrowDocument = .ok key ∧ ofSpki key.publicKey.spki = .ok key.publicKey ∧
      key.bits = 2047 ∧ Issuer.ofKey key = .error .invalidKeySize ∧
      ∃ made, key.publicKey.request constantSource () [1, 2, 3] = .ok made := by
  have hsupported : IsSupported narrowKey.1.publicKey.numbers := by decide +kernel
  have hrequest : (narrowKey.1.publicKey.request constantSource () [1, 2, 3]).toOption.isSome := by
    decide +kernel
  obtain ⟨hkey, hbits⟩ := narrowKey.2
  generalize narrowKey.1 = key at *
  obtain ⟨hnumbers, -⟩ := ofNumbers_eq_ok_iff.mp key.publicKey_eq
  have hspki : ofSpki key.publicKey.spki = .ok key.publicKey := by
    rw [ofSpki_spki (hnumbers ▸ key.publicKey_eq), if_pos hsupported]
  have hsize : key.bits ≠ modulusBits := by
    rw [hbits]
    decide
  exact ⟨key, hkey, hspki, hbits, dif_neg hsize, _, eq_ok_get hrequest⟩

end PublicKey

end BlindToken
