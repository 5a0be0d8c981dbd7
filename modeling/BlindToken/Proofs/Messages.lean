import BlindToken.Issuance.Message
import BlindToken.Proofs.Token
import BlindToken.Proofs.TokenChallenge

namespace BlindToken

open Wire

namespace TokenRequest

theorem read?_eq_format : read? = format.read? := by
  funext bytes
  simp [read?, format, Format.record, Format.pair, Format.uint16, Format.byte, Format.block,
    Option.bind_assoc]

theorem isWrittenBy_format : format.IsWrittenBy encode := by
  have hencode : encode = fun request => writeUInt16 request.tokenType ++
      ([request.truncatedTokenKeyId] ++ request.blindedMessage.bytes) := by
    funext request
    simp [encode]
  rw [hencode]
  exact (Format.isWrittenBy_uint16.pair <| Format.isWrittenBy_byte.pair <|
    Format.isWrittenBy_block signatureSize).record (fun _ => rfl) fun _ => rfl

theorem decodesSize : DecodesSize 259 encode decode := by
  refine isWrittenBy_format.decodesSize ?_ fun bytes value => ?_
  · exact (Format.isFixed_uint16.pair <| Format.isFixed_byte.pair <|
      Format.isFixed_block signatureSize).record
  · rw [← read?_eq_format, decode]
    split <;> simp_all

end TokenRequest

namespace TokenResponse

theorem read?_eq_format : read? = format.read? := rfl

theorem isWrittenBy_format : format.IsWrittenBy encode :=
  (Format.isWrittenBy_block signatureSize).record (fun _ => rfl) fun _ => rfl

theorem decodesSize : DecodesSize 256 encode decode := by
  refine isWrittenBy_format.decodesSize (Format.isFixed_block signatureSize).record
    fun bytes value => ?_
  rw [← read?_eq_format, decode]
  split <;> simp_all

end TokenResponse

-- What is written for each message by hand is what the format of its fields asks for, the format is
-- read back whatever follows, and the three messages that have one size are read from exactly the
-- strings of that size.
theorem messages_keep_format :
    (Token.format.IsWrittenBy Token.encode ∧ Token.read? = Token.format.read?) ∧
    (TokenRequest.format.IsWrittenBy TokenRequest.encode ∧
      TokenRequest.read? = TokenRequest.format.read?) ∧
    (TokenResponse.format.IsWrittenBy TokenResponse.encode ∧
      TokenResponse.read? = TokenResponse.format.read?) ∧
    (TokenChallenge.format.IsWrittenBy TokenChallenge.encode ∧
      TokenChallenge.read? = TokenChallenge.format.read?) ∧
    DecodesSize 354 Token.encode Token.decode ∧
    DecodesSize 259 TokenRequest.encode TokenRequest.decode ∧
    DecodesSize 256 TokenResponse.encode TokenResponse.decode :=
  ⟨⟨Token.isWrittenBy_format, Token.read?_eq_format⟩,
    ⟨TokenRequest.isWrittenBy_format, TokenRequest.read?_eq_format⟩,
    ⟨TokenResponse.isWrittenBy_format, TokenResponse.read?_eq_format⟩,
    ⟨TokenChallenge.isWrittenBy_format, TokenChallenge.read?_eq_format⟩,
    Token.decodesSize, TokenRequest.decodesSize, TokenResponse.decodesSize⟩

end BlindToken
