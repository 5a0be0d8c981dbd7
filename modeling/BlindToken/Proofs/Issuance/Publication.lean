import BlindToken.Proofs.Issuance.Token
import BlindToken.Proofs.Key.Private

namespace BlindToken

-- The key has one of the sizes that clients take, so only its exponent is left to ask for.
theorem PublicKey.IsWhole.isSupported_iff {key : PublicKey} (h : key.IsWhole) :
    IsSupported key.numbers ↔ key.numbers.exponent = 3 ∨ key.numbers.exponent = 65537 := by
  have hbits : bitLength key.numbers.modulus = 2048 := h
  have hsize : byteLength key.numbers.modulus = 256 := h.byteLength_modulus
  rw [IsSupported, hbits, hsize]
  exact ⟨fun ⟨_, _, hexponent⟩ => hexponent, fun hexponent => ⟨by decide, by decide, hexponent⟩⟩

namespace Issuer

theorem ofNumbers_publicKey (issuer : Issuer) :
    PublicKey.ofNumbers issuer.publicKey.numbers = .ok issuer.publicKey := by
  rw [issuer.publicKey_numbers]
  exact issuer.privateKey.publicKey_eq

theorem ofSpki_spki (issuer : Issuer) : PublicKey.ofSpki issuer.publicKey.spki =
    if issuer.publicKey.numbers.exponent = 3 ∨ issuer.publicKey.numbers.exponent = 65537 then
      .ok issuer.publicKey
    else .error .invalidSpkiFormat := by
  rw [PublicKey.ofSpki_spki issuer.ofNumbers_publicKey]
  exact if_congr issuer.publicKey_isWhole.isSupported_iff rfl rfl

theorem privateKey_of_ofKey {key : PrivateKey} {issuer : Issuer}
    (h : ofKey key = .ok issuer) : issuer.privateKey = key := by
  unfold ofKey at h
  split at h
  · obtain rfl := Except.ok.inj h
    rfl
  · cases h

theorem exponent_of_generate {state : Type} {source : Source state} {current next : state}
    {issuer : Issuer} (h : generate source current = .ok (issuer, next)) :
    issuer.publicKey.numbers.exponent = 65537 := by
  obtain ⟨⟨key, drawn⟩, hkey, h⟩ := bind_eq_ok_iff.mp h
  obtain ⟨made, hmade, h⟩ := bind_eq_ok_iff.mp h
  obtain ⟨rfl, -⟩ := Prod.mk.inj (Except.ok.inj h)
  rw [made.publicKey_numbers, privateKey_of_ofKey hmade]
  exact PrivateKey.exponent_of_generate hkey

-- A client imports the key of an issuer if its public exponent is one of the two that clients take,
-- which that of a generated key always is, and gets the key that the issuer has. No other issuer
-- key is imported.
theorem ofSpki_publicKey (issuer : Issuer) :
    (PublicKey.ofSpki issuer.publicKey.spki = .ok issuer.publicKey ↔
      issuer.publicKey.numbers.exponent = 3 ∨ issuer.publicKey.numbers.exponent = 65537) ∧
    (PublicKey.ofSpki issuer.publicKey.spki = .ok issuer.publicKey ∨
      PublicKey.ofSpki issuer.publicKey.spki = .error .invalidSpkiFormat) ∧
    ∀ {state : Type} (source : Source state) (current next : state),
      generate source current = .ok (issuer, next) →
        PublicKey.ofSpki issuer.publicKey.spki = .ok issuer.publicKey := by
  rw [issuer.ofSpki_spki]
  split
  · rename_i hexponent
    exact ⟨iff_of_true rfl hexponent, .inl rfl, fun _ _ _ _ => rfl⟩
  · rename_i hexponent
    refine ⟨iff_of_false nofun hexponent, .inr rfl, fun source current next hgenerate => ?_⟩
    exact absurd (.inr (exponent_of_generate hgenerate)) hexponent

-- A source that draws two primes in turn, the largest ones of 1024 bits.
def primeSource : Source Bool where
  draw second size := some (Block.ofNat size (256 ^ size - if second then 179 else 105), !second)

@[irreducible] def primeIssuer : { made : Issuer × Bool //
    generate primeSource false = .ok made } :=
  ⟨_, eq_ok_get (by decide +kernel)⟩

theorem ofSpki_publicKey_generated : ∃ issuer next,
    generate primeSource false = .ok (issuer, next) ∧
      PublicKey.ofSpki issuer.publicKey.spki = .ok issuer.publicKey := by
  obtain ⟨⟨issuer, next⟩, hgenerate⟩ := primeIssuer
  exact ⟨issuer, next, hgenerate, (ofSpki_publicKey issuer).2.2 primeSource false next hgenerate⟩

-- The primes of the smooth issuer with another public exponent.
def seventeenNumbers : Rsa.PrivateNumbers :=
  { smoothNumbers with
    exponent := 17
    privateExponent := (14 * (2 ^ 508 * 5 ^ 222) * (2 ^ 364 * 7 ^ 235) + 1) / 17 }

-- An issuer with this key signs like any other, and no client can have its public key.
theorem seventeen_not_imported :
    let document := (Pkcs8.privateKey (Pkcs1.privateKey seventeenNumbers).encode).encode
    ∃ key issuer, PrivateKey.ofDer document = .ok key ∧ ofKey key = .ok issuer ∧
      issuer.IsConsistent ∧
      PublicKey.ofSpki issuer.publicKey.spki = .error .invalidSpkiFormat := by
  intro document
  have hread : (PrivateKey.ofDer document).toOption.map (fun key => (key.numbers, key.bits)) =
      some (seventeenNumbers, modulusBits) := by decide +kernel
  obtain ⟨key, hmade, hkey⟩ := Option.map_eq_some_iff.mp hread
  obtain ⟨hnumbers, hbits⟩ := Prod.mk.inj hkey
  let issuer : Issuer := ⟨key, hbits⟩
  have hconsistent : seventeenNumbers.IsConsistent :=
    { hnumbers ▸ key.numbers_fit with
      prime1 := smoothNumbers_isConsistent.prime1
      prime2 := smoothNumbers_isConsistent.prime2 }
  have hexponent : issuer.publicKey.numbers.exponent = 17 := by
    rw [issuer.publicKey_numbers, show issuer.privateKey.numbers = seventeenNumbers from hnumbers]
    rfl
  refine ⟨key, issuer, toOption_eq_some_iff.mp hmade, dif_pos hbits,
    ⟨hnumbers ▸ hconsistent, issuer.bitLength_modulus⟩, ?_⟩
  rw [ofSpki_spki, hexponent, if_neg (by decide)]

end Issuer

end BlindToken
