import BlindToken.Proofs.Bytes.Format
import BlindToken.Token

namespace BlindToken.Token

open Wire

variable {bytes : Bytes} {token : Token}

theorem read?_eq_format : read? = format.read? := by
  funext bytes
  simp [read?, format, Format.record, Format.pair, Format.uint16, Format.block, Option.bind_assoc]

theorem isWrittenBy_format : format.IsWrittenBy encode := by
  have hencode : encode = fun token => writeUInt16 token.tokenType ++ (token.nonce.bytes ++
      (token.challengeDigest.bytes ++ (token.tokenKeyId.bytes ++ token.authenticator.bytes))) := by
    funext token
    simp [encode, TokenInput.encode]
  rw [hencode]
  exact (Format.isWrittenBy_uint16.pair <| (Format.isWrittenBy_block 32).pair <|
    (Format.isWrittenBy_block 32).pair <| (Format.isWrittenBy_block 32).pair <|
      Format.isWrittenBy_block signatureSize).record (fun _ => rfl) fun _ => rfl

theorem decodesSize : DecodesSize 354 encode decode := by
  refine isWrittenBy_format.decodesSize ?_ fun bytes value => ?_
  · exact (Format.isFixed_uint16.pair <| (Format.isFixed_block 32).pair <|
      (Format.isFixed_block 32).pair <| (Format.isFixed_block 32).pair <|
        Format.isFixed_block signatureSize).record
  · rw [← read?_eq_format, decode]
    split <;> simp_all

theorem length_encode (token : Token) : token.encode.length = size :=
  (decodesSize.exists_ok_iff token.encode).mp ⟨token, decodesSize.decode_encode token⟩

theorem encode_ne_nil (token : Token) : token.encode ≠ [] :=
  List.ne_nil_of_length_eq_add_one token.length_encode

theorem decode_eq_ok_iff : decode bytes = .ok token ↔ bytes = token.encode := by
  constructor
  · intro h
    exact (decodesSize.encode_eq bytes token h).symm
  · rintro rfl
    exact decodesSize.decode_encode token

theorem exists_encode_iff : (∃ token : Token, bytes = token.encode) ↔ bytes.length = size := by
  simp only [← decode_eq_ok_iff]
  exact decodesSize.exists_ok_iff bytes

end BlindToken.Token
