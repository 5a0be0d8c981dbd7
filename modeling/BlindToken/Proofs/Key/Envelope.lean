import BlindToken.Key.Pkcs8
import BlindToken.Key.Pkcs1
import BlindToken.Proofs.Key.Spki

namespace BlindToken

namespace Pkcs1

variable {numbers : Rsa.PrivateNumbers}

-- The version and the numbers in their order.
def fields (numbers : Rsa.PrivateNumbers) : List Nat :=
  [0, numbers.modulus, numbers.exponent, numbers.privateExponent, numbers.prime1, numbers.prime2,
    numbers.exponent1, numbers.exponent2, numbers.coefficient?.getD 0]

theorem readPrivate?_privateKey (h : (privateKey numbers).encode.length ≤ Der.lengthLimit) :
    readPrivate? (privateKey numbers).encode = some numbers := by
  have hdocument : Der.document? Der.sequenceTag (privateKey numbers).encode =
      some (privateKey numbers).content :=
    Der.document?_eq_some_iff.mpr ⟨by decide, h, rfl⟩
  have hread : ∀ value ∈ fields numbers, ∀ rest,
      Der.readInteger? ((Der.integer value).encode ++ rest) = some (value, rest) :=
    fun value hvalue => Der.readInteger?_integer
      ((Der.length_content_le_of_mem (List.mem_map_of_mem hvalue)).trans h)
  simp only [fields, List.forall_mem_cons] at hread
  obtain ⟨hversion, hmodulus, hexponent, hprivate, hprime1, hprime2, hexponent1, hexponent2,
    hcoefficient, -⟩ := hread
  have hcontent : (privateKey numbers).content =
      (fields numbers).flatMap fun value => (Der.integer value).encode := rfl
  -- nothing follows the last number
  specialize hcoefficient []
  rw [List.append_nil] at hcoefficient
  rw [readPrivate?, hdocument, hcontent]
  simp only [fields, List.flatMap_cons]
  simp [hversion, hmodulus, hexponent, hprivate, hprime1, hprime2, hexponent1, hexponent2,
    hcoefficient]

end Pkcs1

namespace Pkcs8

variable {document : Bytes}

theorem readPrivate?_privateKey (h : (privateKey document).encode.length ≤ Der.lengthLimit) :
    readPrivate? (privateKey document).encode = some document := by
  have hdocument : Der.document? Der.sequenceTag (privateKey document).encode =
      some (privateKey document).content :=
    Der.document?_eq_some_iff.mpr ⟨by decide, h, rfl⟩
  have hversion (rest : Bytes) : Der.readInteger? ((Der.integer 0).encode ++ rest) =
      some (0, rest) := Der.readInteger?_integer (by decide) rest
  have halgorithm (rest : Bytes) : Algorithm.read? (Algorithm.rsa.element.encode ++ rest) =
      some (Algorithm.rsa, rest) :=
    Algorithm.read?_eq_some_iff.mpr ⟨⟨by decide, by decide⟩, by rintro _ ⟨⟩; decide, rfl⟩
  have hlength : (Der.octetString document).content.length ≤ Der.lengthLimit :=
    (Der.length_content_le_of_mem (by simp)).trans h
  have hkey : Der.expect? Der.octetStringTag (Der.octetString document).encode =
      some (document, []) :=
    Der.expect?_eq_some_iff.mpr ⟨⟨show Der.isKnownTag Der.octetStringTag by decide, hlength⟩,
      (List.append_nil _).symm⟩
  have hcontent : (privateKey document).content = (Der.integer 0).encode ++
      (Algorithm.rsa.element.encode ++ (Der.octetString document).encode) := by
    simp [privateKey, Der.sequence]
  rw [readPrivate?, hdocument, hcontent]
  simp [hversion, halgorithm, hkey, skipLeading, areAttributes]

-- Where the envelope has the algorithm, a bare document has a number.
theorem readPrivate?_bare (numbers : Rsa.PrivateNumbers) :
    readPrivate? (Pkcs1.privateKey numbers).encode = none := by
  refine Option.eq_none_iff_forall_ne_some.mpr fun document h => ?_
  obtain ⟨content, hdocument, h⟩ := Option.bind_eq_some_iff.mp h
  obtain ⟨⟨version, afterVersion⟩, hversion, h⟩ := Option.bind_eq_some_iff.mp h
  obtain ⟨⟨⟩, -, h⟩ := Option.bind_eq_some_iff.mp h
  obtain ⟨⟨algorithm, afterAlgorithm⟩, halgorithm, -⟩ := Option.bind_eq_some_iff.mp h
  obtain ⟨-, hlength, -⟩ := Der.document?_eq_some_iff.mp hdocument
  have hwritten : Der.document? Der.sequenceTag (Pkcs1.privateKey numbers).encode =
      some (Pkcs1.privateKey numbers).content :=
    Der.document?_eq_some_iff.mpr ⟨by decide, hlength, rfl⟩
  obtain rfl := Option.some.inj (hwritten.symm.trans hdocument)
  obtain ⟨more, hcontent⟩ : ∃ more, (Pkcs1.privateKey numbers).content =
      (Der.integer 0).encode ++ ((Der.integer numbers.modulus).encode ++ more) :=
    ⟨_, by simp only [Pkcs1.privateKey, Der.sequence, List.flatMap_cons]; rfl⟩
  rw [hcontent, Der.readInteger?_integer (by decide)] at hversion
  obtain ⟨rfl, rfl⟩ := Prod.mk.inj (Option.some.inj hversion)
  obtain ⟨-, -, hparts⟩ := Algorithm.read?_eq_some_iff.mp halgorithm
  exact absurd (List.cons.inj hparts).1 (show Der.integerTag ≠ Der.sequenceTag by decide)

-- Bounds on the envelope, which is longer by what stands around the key document.
section Length

variable (document : Bytes)

theorem length_content_privateKey : (privateKey document).content.length =
    (Der.octetString document).encode.length + 18 := by
  have hversion : (Der.integer 0).encode.length = 3 := by decide
  have halgorithm : Algorithm.rsa.element.encode.length = 15 := by decide
  rw [privateKey, Der.length_content_sequence]
  simp only [List.map_cons, List.map_nil, List.sum_cons, List.sum_nil]
  omega

theorem length_privateKey_le (h : document.length + 30 ≤ Der.lengthLimit) :
    (privateKey document).encode.length ≤ document.length + 30 := by
  have hcontent := length_content_privateKey document
  have hstring : (Der.octetString document).encode.length ≤ document.length + 6 :=
    Der.Element.length_encode_le_of_limit (show document.length ≤ Der.lengthLimit by omega)
  have hwhole := Der.Element.length_encode_le_of_limit
    (show (privateKey document).content.length ≤ Der.lengthLimit by omega)
  omega

theorem le_length_privateKey : document.length + 22 ≤ (privateKey document).encode.length := by
  have hcontent := length_content_privateKey document
  have hstring : document.length + 2 ≤ (Der.octetString document).encode.length :=
    (Der.octetString document).length_content_add_two_le
  have hwhole := (privateKey document).length_content_add_two_le
  omega

end Length

end Pkcs8

end BlindToken
