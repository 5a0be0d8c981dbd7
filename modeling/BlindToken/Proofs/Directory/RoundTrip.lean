import BlindToken.Directory
import BlindToken.Proofs.Except
import BlindToken.Proofs.Json.Value

namespace BlindToken

namespace DirectoryKey

-- The value of the text that is written for the entry.
def toValue (key : DirectoryKey) : Json.Value :=
  .object ([
    (some "token-type", .number (some key.tokenType.toNat)),
    (some "token-key", .text (some key.tokenKey))] ++
    key.notBefore.toList.map fun notBefore => (some "not-before", .number (some notBefore.toNat)))

theorem isWritten_toJson (key : DirectoryKey) : Json.IsWritten key.toJson key.toValue := by
  refine Json.isWritten_record (.cons ⟨rfl, Json.isWritten_natural _⟩
    (.cons ⟨rfl, Json.isWritten_quoted _⟩ ?_))
  cases key.notBefore with
  | none => exact .nil
  | some notBefore => exact .cons ⟨rfl, Json.isWritten_natural _⟩ .nil

theorem ofJson?_toValue (key : DirectoryKey) : ofJson? key.toValue = some key := by
  obtain ⟨tokenType, tokenKey, notBefore⟩ := key
  have htype : tokenType.toNat < UInt16.size := tokenType.toNat_lt
  cases notBefore with
  | none =>
    simp [ofJson?, toValue, fieldNames, notBeforeOf?, Json.Value.members?, Json.Value.field?,
      Json.Value.natural?, Json.Value.text?, htype]
  | some notBefore =>
    have hnotBefore : notBefore.toNat < UInt64.size := notBefore.toNat_lt
    simp [ofJson?, toValue, fieldNames, notBeforeOf?, Json.Value.members?, Json.Value.field?,
      Json.Value.natural?, Json.Value.text?, htype, hnotBefore]

end DirectoryKey

namespace DirectoryDocument

def toValue (document : DirectoryDocument) : Json.Value :=
  .object [
    (some "issuer-request-uri", .text (some document.issuerRequestUri)),
    (some "token-keys", .array (document.tokenKeys.map DirectoryKey.toValue))]

theorem parse?_toJson (document : DirectoryDocument) :
    Json.Value.parse? document.toJson = some document.toValue := by
  have hkeys : List.Forall₂ Json.IsWritten (document.tokenKeys.map DirectoryKey.toJson)
      (document.tokenKeys.map DirectoryKey.toValue) := by
    rw [List.forall₂_map_left_iff, List.forall₂_map_right_iff, List.forall₂_same]
    exact fun key _ => key.isWritten_toJson
  exact Json.IsWritten.parse?_eq (Json.isWritten_record (.cons ⟨rfl, Json.isWritten_quoted _⟩
    (.cons ⟨rfl, Json.isWritten_listed hkeys⟩ .nil)))

theorem ofJson?_toJson (document : DirectoryDocument) : ofJson? document.toJson = some document := by
  have hkeys : (document.tokenKeys.map DirectoryKey.toValue).mapM DirectoryKey.ofJson? =
      some document.tokenKeys := by
    rw [mapM_eq_some_iff, List.forall₂_map_left_iff, List.forall₂_same]
    exact fun key _ => key.ofJson?_toValue
  simp [ofJson?, document.parse?_toJson, toValue, fieldNames, Json.Value.members?,
    Json.Value.field?, Json.Value.text?, Json.Value.items?, hkeys]

end DirectoryDocument

-- Every directory is read back from the document that is written for it.
theorem IssuerDirectory.ofJson_toJson (directory : IssuerDirectory) :
    ofJson directory.toJson = .ok directory := by
  rw [ofJson, DirectoryDocument.ofJson?_toJson]
  exact dif_pos directory.uri_isSome

end BlindToken
