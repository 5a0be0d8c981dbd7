import BlindToken.Proofs.Issuance.Answer
import BlindToken.Proofs.Tier.Listing

namespace BlindToken

namespace Issuer

variable {issuer : Issuer} {request : TokenRequest}

theorem issue_ne_invalidTokenKeyId
    (hid : issuer.truncatedTokenKeyId = request.truncatedTokenKeyId) :
    issuer.issue request ≠ .error .invalidTokenKeyId := by
  by_cases htype : request.tokenType = TokenType.blindRsa.code
  · by_cases hmessage : issuer.publicKey.numbers.modulus ≤ request.blindedMessage.toNat
    · rw [issue_of_notBelow htype hid.symm hmessage]
      nofun
    · rw [issue_of_fitting htype hid.symm]
      cases hsign : issuer.privateKey.blindSign request.blindedMessage with
      | ok signature => nofun
      | error error =>
        rw [eq_blindSigningFailed (Nat.lt_of_not_le hmessage) hsign]
        nofun
  · rw [issue_of_otherType htype]
    nofun

section Prepared

variable {state : Type} {source : Source state} {current later : state} {challenge : Bytes}
  {prepared : PreparedRequest}
  (h : issuer.publicKey.request source current challenge = .ok (prepared, later))

include h

theorem truncatedTokenKeyId_of_request :
    issuer.truncatedTokenKeyId = prepared.tokenRequest.truncatedTokenKeyId :=
  congrArg PublicKey.truncatedTokenKeyId (PublicKey.request_eq_ok h).1.symm

theorem issue_of_request : issuer.issue prepared.tokenRequest =
    (issuer.privateKey.blindSign prepared.blindedMessage).map TokenResponse.mk :=
  issue_of_fitting rfl (truncatedTokenKeyId_of_request h).symm

-- The factors of the key need not be prime.
theorem finalizes_of_issue {response : TokenResponse}
    (hissue : issuer.issue prepared.tokenRequest = .ok response) :
    response.blindSignature.toNat ^ issuer.publicKey.numbers.exponent %
        issuer.publicKey.numbers.modulus = prepared.blindedMessage.toNat ∧
      ∃ token, prepared.finalize response = .ok token := by
  obtain ⟨hpublic, -, salt, message, -, hhides⟩ := PublicKey.request_eq_ok h
  have hraise : issuer.publicKey.numbers.raise response.blindSignature.toNat =
      prepared.blindedMessage.toNat := by
    rw [issue_of_request h] at hissue
    cases hsign : issuer.privateKey.blindSign prepared.blindedMessage with
    | error error => simp [hsign, Except.map] at hissue
    | ok signature =>
      obtain rfl : ⟨signature⟩ = response := by simpa [hsign, Except.map] using hissue
      exact raise_of_blindSign hsign
  obtain ⟨token, hfinalize, -⟩ := prepared.exists_finalize hhides
    (hpublic ▸ issuer.publicKey_isWhole) (hpublic ▸ hraise)
  rw [Rsa.PublicNumbers.raise_eq] at hraise
  exact ⟨hraise, token, hfinalize⟩

theorem failure_of_issue {error : ProtocolError}
    (hissue : issuer.issue prepared.tokenRequest = .error error) :
    error = .blindSigningFailed ∧ ¬issuer.IsConsistent := by
  obtain ⟨hpublic, -, salt, message, -, hhides⟩ := PublicKey.request_eq_ok h
  have hmessage := hhides.blindedMessage_lt (hpublic ▸ issuer.publicKey_isWhole.modulus_pos)
  rw [hpublic] at hmessage
  constructor
  · rw [issue_of_request h] at hissue
    cases hsign : issuer.privateKey.blindSign prepared.blindedMessage with
    | ok signature => simp [hsign, Except.map] at hissue
    | error failure =>
      obtain rfl : failure = error := by simpa [hsign, Except.map] using hissue
      exact eq_blindSigningFailed hmessage hsign
  · intro hconsistent
    obtain ⟨response, hresponse, -⟩ := hconsistent.exists_issue prepared.tokenRequest rfl
      (truncatedTokenKeyId_of_request h).symm hmessage
    cases hissue.symm.trans hresponse

end Prepared

end Issuer

namespace TieredIssuers

-- The issuers one after another, up to the first that does not take the request for another key's.
def askInTurn : List Issuer → TokenRequest → Except ProtocolError TokenResponse
  | [], _ => .error .invalidTokenKeyId
  | issuer :: rest, request =>
    match issuer.issue request with
    | .error .invalidTokenKeyId => askInTurn rest request
    | answer => answer

-- It does not matter where in the row the one answer comes from.
theorem askInTurn_eq {order : List Issuer} {request : TokenRequest}
    {answer : Except ProtocolError TokenResponse}
    (hothers : ∀ issuer ∈ order, issuer.issue request = .error .invalidTokenKeyId ∨
      issuer.issue request = answer)
    (hanswer : answer = .error .invalidTokenKeyId ∨ ∃ issuer ∈ order,
      issuer.issue request = answer) : askInTurn order request = answer := by
  induction order with
  | nil => simpa [askInTurn, eq_comm] using hanswer
  | cons issuer rest ih =>
    obtain ⟨hissuer, hrest⟩ := List.forall_mem_cons.mp hothers
    rw [askInTurn]
    split
    · rename_i hrefused
      refine ih hrest ?_
      rcases hanswer with hanswer | ⟨other, hother, hanswer⟩
      · exact .inl hanswer
      · rcases List.mem_cons.mp hother with rfl | hother
        · exact .inl (hanswer.symm.trans hrefused)
        · exact .inr ⟨other, hother, hanswer⟩
    · rename_i hanswered
      exact hissuer.resolve_left hanswered

variable {tier : Type} [DecidableEq tier] {registry : TieredIssuers tier} {next : tier}
  {issuer : Issuer} {request : TokenRequest}

namespace Inverse

variable (h : registry.Inverse)

include h

theorem issue_eq (hissuer : registry.issuer? next = some issuer)
    (hid : issuer.truncatedTokenKeyId = request.truncatedTokenKeyId) :
    registry.issue request = issuer.issue request := by
  rw [issue, ← hid, h.tierFor? hissuer, Option.bind_some, hissuer]

theorem issue_of_unknown (hunknown : ∀ next issuer, registry.issuer? next = some issuer →
    issuer.truncatedTokenKeyId ≠ request.truncatedTokenKeyId) :
    registry.issue request = .error .invalidTokenKeyId := by
  rw [issue, (h.tierFor?_eq_none_iff _).mpr hunknown, Option.bind_none]

theorem askInTurn_eq (htype : request.tokenType = 2) {order : List Issuer}
    (horder : ∀ issuer, issuer ∈ order ↔ ∃ next, registry.issuer? next = some issuer) :
    askInTurn order request = registry.issue request := by
  refine TieredIssuers.askInTurn_eq (fun issuer hmem => ?_) ?_
  · obtain ⟨next, hissuer⟩ := (horder issuer).mp hmem
    by_cases hid : issuer.truncatedTokenKeyId = request.truncatedTokenKeyId
    · exact .inr (h.issue_eq hissuer hid).symm
    · exact .inl (Issuer.issue_of_otherKey htype (Ne.symm hid))
  · by_cases hknown : ∃ next issuer, registry.issuer? next = some issuer ∧
        issuer.truncatedTokenKeyId = request.truncatedTokenKeyId
    · obtain ⟨next, issuer, hissuer, hid⟩ := hknown
      exact .inr ⟨issuer, (horder issuer).mpr ⟨next, hissuer⟩, (h.issue_eq hissuer hid).symm⟩
    · refine .inl (h.issue_of_unknown fun next issuer hissuer hid => ?_)
      exact hknown ⟨next, issuer, hissuer, hid⟩

end Inverse

-- A registry answers a request as asking its issuers one after another would, in any order, and a
-- request that is prepared with the key of a tier is signed with that key.
theorem issue_agrees (registry : TieredIssuers tier) (hbuilt : registry.Built) :
    (∀ request next issuer, registry.issuer? next = some issuer →
      issuer.truncatedTokenKeyId = request.truncatedTokenKeyId →
      registry.issue request = issuer.issue request ∧
        registry.issue request ≠ .error .invalidTokenKeyId) ∧
    (∀ request, (∀ next issuer, registry.issuer? next = some issuer →
      issuer.truncatedTokenKeyId ≠ request.truncatedTokenKeyId) →
      registry.issue request = .error .invalidTokenKeyId) ∧
    (∀ request order, request.tokenType = 2 →
      (∀ issuer, issuer ∈ order ↔ ∃ next, registry.issuer? next = some issuer) →
      askInTurn order request = registry.issue request) ∧
    ∀ next issuer, registry.issuer? next = some issuer →
      ∀ {state : Type} (source : Source state) (current later : state) (challenge : Bytes)
        (prepared : PreparedRequest),
        issuer.publicKey.request source current challenge = .ok (prepared, later) →
        registry.issue prepared.tokenRequest =
          (issuer.privateKey.blindSign prepared.blindedMessage).map TokenResponse.mk ∧
        (∀ response, registry.issue prepared.tokenRequest = .ok response →
          response.blindSignature.toNat ^ issuer.publicKey.numbers.exponent %
              issuer.publicKey.numbers.modulus = prepared.blindedMessage.toNat ∧
            ∃ token, prepared.finalize response = .ok token) ∧
        ∀ error, registry.issue prepared.tokenRequest = .error error →
          error = .blindSigningFailed ∧ ¬issuer.IsConsistent := by
  have hinverse := hbuilt.inverse
  refine ⟨fun request next issuer hissuer hid => ?_, fun request => hinverse.issue_of_unknown,
    fun request order htype => hinverse.askInTurn_eq htype,
    fun next issuer hissuer state source current later challenge prepared hrequest => ?_⟩
  · rw [hinverse.issue_eq hissuer hid]
    exact ⟨rfl, Issuer.issue_ne_invalidTokenKeyId hid⟩
  · rw [hinverse.issue_eq hissuer (Issuer.truncatedTokenKeyId_of_request hrequest)]
    exact ⟨Issuer.issue_of_request hrequest, fun response => Issuer.finalizes_of_issue hrequest,
      fun error => Issuer.failure_of_issue hrequest⟩

-- A request for one of two keys, with the issuer of the other key asked first.
theorem smooth_issue_agrees :
    ∃ registry prepared response token,
      ofIssuers [(true, smoothIssuer), (false, cubicIssuer), (true, smoothIssuer)] =
        .ok registry ∧
      smoothIssuer.publicKey.request constantSource () [1, 2, 3] = .ok (prepared, ()) ∧
      registry.issue prepared.tokenRequest = .ok response ∧
      askInTurn [cubicIssuer, smoothIssuer] prepared.tokenRequest = .ok response ∧
      prepared.finalize response = .ok token := by
  obtain ⟨registry, hregistry, hissuer⟩ := exists_ofIssuers_of_ne cubicIssuer_ne_smoothIssuer
  obtain ⟨⟨prepared, next⟩, hrequest⟩ := smoothRequest
  obtain ⟨-, -, horder, hprepared⟩ := issue_agrees registry (.listed hregistry)
  obtain ⟨-, hsigned, hfailed⟩ :=
    hprepared true smoothIssuer hissuer constantSource () next [1, 2, 3] prepared hrequest
  have hother : registry.issuer? false = some cubicIssuer :=
    (Follows.empty.addAll hregistry).issuer? false
  have hmembers (issuer : Issuer) : issuer ∈ [cubicIssuer, smoothIssuer] ↔
      ∃ next, registry.issuer? next = some issuer := by
    simp [hissuer, hother, eq_comm]
  have hasked := horder prepared.tokenRequest [cubicIssuer, smoothIssuer] rfl hmembers
  cases hissue : registry.issue prepared.tokenRequest with
  | error error => exact absurd smoothIssuer_isConsistent (hfailed error hissue).2
  | ok response =>
    obtain ⟨-, token, hfinalize⟩ := hsigned response hissue
    exact ⟨registry, prepared, response, token, hregistry, hrequest, hissue, hasked.trans hissue,
      hfinalize⟩

end TieredIssuers

end BlindToken
