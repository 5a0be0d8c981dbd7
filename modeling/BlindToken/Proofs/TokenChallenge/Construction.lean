import BlindToken.Proofs.TokenChallenge

namespace BlindToken.TokenChallenge

-- The name of an issuer that fits its field.
structure IsIssuerName (issuer : String) : Prop where
  pos : 1 ≤ issuer.utf8ByteSize
  le : issuer.utf8ByteSize ≤ 65535

-- The names of origins that stay apart in their field and fit it.
structure AreOriginNames (origins : List String) : Prop where
  separate : ∀ origin ∈ origins, origin ≠ "" ∧ ' ' ∉ origin.toList
  joined_le : (" ".intercalate origins).utf8ByteSize ≤ 65535

-- What the fields of the challenge hold.
structure Holds (challenge : TokenChallenge) (issuer : String) (context : Option (Block 32))
    (origins : List String) : Prop where
  tokenType : challenge.tokenType = 2
  issuer : challenge.issuerBytes.bytes = utf8 issuer
  context : challenge.contextBytes.bytes = (context.map Block.bytes).getD []
  origins : challenge.originBytes.bytes = joinOrigins origins

theorem joinOrigins_eq (origins : List String) :
    joinOrigins origins = utf8 (" ".intercalate origins) := by
  rw [joinOrigins]
  congr 1
  rw [← String.toList_inj]
  simp [String.toList_intercalate, originSeparator]

theorem exists_field_iff (text : String) :
    (∃ field, Bounded.ofBytes? (Bytes.count 2 - 1) (utf8 text) = some field) ↔
      text.utf8ByteSize ≤ 65535 := by
  rw [← length_utf8]
  constructor
  · rintro ⟨field, hfield⟩
    have hlength : field.bytes.length < 256 ^ 2 := Wire.length_counted_lt field
    rw [Bounded.ofBytes?_eq_some_iff.mp hfield] at hlength
    exact Nat.le_of_lt_succ hlength
  · intro h
    obtain ⟨field, hfield⟩ := Wire.exists_counted 2 (Nat.lt_succ_of_le h)
    exact ⟨field, Bounded.ofBytes?_eq_some_iff.mpr hfield⟩

theorem utf8ByteSize_pos_iff (text : String) : 1 ≤ text.utf8ByteSize ↔ text ≠ "" := by
  rw [← length_utf8, Nat.one_le_iff_ne_zero, ne_eq, List.length_eq_zero_iff, utf8_eq_nil_iff]

theorem utf8ByteSize_replicate (count : Nat) (char : Char) :
    (String.ofList (List.replicate count char)).utf8ByteSize = count * char.utf8Size := by
  rw [← length_utf8, utf8_eq_flatMap, String.toList_ofList, List.length_flatMap,
    List.map_replicate, List.sum_replicate_nat, String.length_utf8EncodeChar]

section Make

variable {tokenType : TokenType} {issuer : String} {context : Option (Block 32)}
  {origins : List String} {challenge other : TokenChallenge}

theorem make_of_not_isIssuerName (h : ¬IsIssuerName issuer) :
    make tokenType issuer context origins = .error .invalidIssuer := by
  by_cases hempty : issuer = ""
  · simp only [make, if_pos hempty]
    rfl
  · have hlong : Bounded.ofBytes? (Bytes.count 2 - 1) (utf8 issuer) = none := by
      refine Option.eq_none_iff_forall_ne_some.mpr fun field hfield => h ?_
      exact ⟨(utf8ByteSize_pos_iff issuer).mpr hempty, (exists_field_iff issuer).mp ⟨field, hfield⟩⟩
    simp only [make, if_neg hempty, hlong]
    rfl

theorem make_of_not_areOriginNames (hissuer : IsIssuerName issuer) (h : ¬AreOriginNames origins) :
    make tokenType issuer context origins = .error .invalidOriginInfo := by
  have hempty : issuer ≠ "" := (utf8ByteSize_pos_iff issuer).mp hissuer.pos
  obtain ⟨field, hfield⟩ := (exists_field_iff issuer).mpr hissuer.le
  by_cases hnames : origins.any fun origin => origin = "" ∨ originSeparator ∈ origin.toList
  · simp only [make, if_neg hempty, hfield, if_pos hnames]
    rfl
  · have hlong : Bounded.ofBytes? (Bytes.count 2 - 1) (joinOrigins origins) = none := by
      refine Option.eq_none_iff_forall_ne_some.mpr fun field hfield => h ?_
      have hseparate : ∀ origin ∈ origins, origin ≠ "" ∧ originSeparator ∉ origin.toList := by
        simpa [not_or] using hnames
      rw [joinOrigins_eq] at hfield
      exact ⟨hseparate, (exists_field_iff _).mp ⟨field, hfield⟩⟩
    simp only [make, if_neg hempty, hfield, if_neg hnames, hlong]
    rfl

theorem exists_make (tokenType : TokenType) (context : Option (Block 32))
    (hissuer : IsIssuerName issuer) (horigins : AreOriginNames origins) :
    ∃ challenge, make tokenType issuer context origins = .ok challenge ∧
      challenge.Holds issuer context origins := by
  have hempty : issuer ≠ "" := (utf8ByteSize_pos_iff issuer).mp hissuer.pos
  have hnames : ¬origins.any fun origin => origin = "" ∨ originSeparator ∈ origin.toList := by
    have hseparate : ∀ origin ∈ origins, origin ≠ "" ∧ originSeparator ∉ origin.toList :=
      horigins.separate
    simpa [not_or] using hseparate
  obtain ⟨issuerBytes, hissuerBytes⟩ := (exists_field_iff issuer).mpr hissuer.le
  obtain ⟨originBytes, horiginBytes⟩ := (exists_field_iff _).mpr horigins.joined_le
  rw [← joinOrigins_eq] at horiginBytes
  simp only [make, if_neg hempty, hissuerBytes, if_neg hnames, horiginBytes]
  refine ⟨_, rfl, ?_, Bounded.ofBytes?_eq_some_iff.mp hissuerBytes, ?_,
    Bounded.ofBytes?_eq_some_iff.mp horiginBytes⟩
  · cases tokenType
    rfl
  · cases context <;> rfl

theorem Holds.eq (h : challenge.Holds issuer context origins)
    (hother : other.Holds issuer context origins) : challenge = other := by
  obtain ⟨tokenType, ⟨issuerBytes, _⟩, ⟨contextBytes, _⟩, ⟨originBytes, _⟩⟩ := challenge
  obtain ⟨otherType, ⟨otherIssuer, _⟩, ⟨otherContext, _⟩, ⟨otherOrigins, _⟩⟩ := other
  obtain ⟨rfl, rfl, rfl, rfl⟩ := h
  obtain ⟨rfl, rfl, rfl, rfl⟩ := hother
  rfl

-- Of two faults in the arguments the issuer's decides the error.
theorem make_eq_error_iff {error : ProtocolError} :
    make tokenType issuer context origins = .error error ↔
      ¬IsIssuerName issuer ∧ error = .invalidIssuer ∨
        IsIssuerName issuer ∧ ¬AreOriginNames origins ∧ error = .invalidOriginInfo := by
  by_cases hissuer : IsIssuerName issuer
  · by_cases horigins : AreOriginNames origins
    · obtain ⟨challenge, hmake, -⟩ := exists_make tokenType context hissuer horigins
      simp [hmake, hissuer, horigins]
    · simp [make_of_not_areOriginNames hissuer horigins, hissuer, horigins, eq_comm]
  · simp [make_of_not_isIssuerName hissuer, hissuer, eq_comm]

theorem make_eq_ok_iff : make tokenType issuer context origins = .ok challenge ↔
    IsIssuerName issuer ∧ AreOriginNames origins ∧ challenge.Holds issuer context origins := by
  constructor
  · intro h
    by_cases hissuer : IsIssuerName issuer
    · by_cases horigins : AreOriginNames origins
      · obtain ⟨made, hmake, hholds⟩ := exists_make tokenType context hissuer horigins
        obtain rfl := Except.ok.inj (h.symm.trans hmake)
        exact ⟨hissuer, horigins, hholds⟩
      · cases h.symm.trans (make_of_not_areOriginNames hissuer horigins)
    · cases h.symm.trans (make_of_not_isIssuerName hissuer)
  · rintro ⟨hissuer, horigins, hholds⟩
    obtain ⟨made, hmake, hmade⟩ := exists_make tokenType context hissuer horigins
    rw [hmake, hmade.eq hholds]

end Make

section Accessors

variable {issuer : String} {context : Option (Block 32)} {origins : List String}
  {challenge : TokenChallenge} (h : challenge.Holds issuer context origins)

include h

theorem Holds.issuerName_eq : challenge.issuerName = issuer := by
  rw [issuerName, h.issuer, ofUtf8?_utf8, Option.getD_some]

theorem Holds.redemptionContext_eq : challenge.redemptionContext = context := by
  rw [redemptionContext, h.context]
  cases context with
  | none => rfl
  | some block => exact Block.ofBytes?_bytes block

-- Splitting undoes joining, but of no names at all it makes one that is empty.
theorem Holds.originInfo_eq
    (hnames : ∀ origin ∈ origins, origin ≠ "" ∧ originSeparator ∉ origin.toList) :
    challenge.originInfo = origins := by
  rw [originInfo, h.origins, joinOrigins, ofUtf8?_utf8, Option.getD_some, String.toList_ofList]
  by_cases hnone : origins = []
  · subst hnone
    decide
  · have hparts : ∀ part ∈ origins.map String.toList, originSeparator ∉ part :=
      List.forall_mem_map.mpr fun name hname => (hnames name hname).2
    have hfilter : (origins.map String.toList).filter (· ≠ []) = origins.map String.toList := by
      refine List.filter_eq_self.mpr (List.forall_mem_map.mpr fun name hname => ?_)
      simpa using (hnames name hname).1
    rw [List.splitOn_intercalate _ hparts (by simpa using hnone), hfilter, List.map_map]
    simp [Function.comp_def]

theorem Holds.isValid (hissuer : IsIssuerName issuer) (horigins : AreOriginNames origins) :
    challenge.IsValid where
  issuer := ⟨issuer, (utf8ByteSize_pos_iff issuer).mp hissuer.pos, h.issuer⟩
  context := by
    rw [IsContext, h.context]
    cases context with
    | none => exact .inl rfl
    | some block => exact .inr block.length_eq
  origins := ⟨origins, horigins.separate, h.origins⟩

end Accessors

theorem isValid_of_make {tokenType : TokenType} {issuer : String} {context : Option (Block 32)}
    {origins : List String} {challenge : TokenChallenge}
    (h : make tokenType issuer context origins = .ok challenge) : challenge.IsValid := by
  obtain ⟨hissuer, horigins, hholds⟩ := make_eq_ok_iff.mp h
  exact hholds.isValid hissuer horigins

-- The parts of a valid challenge are what it could have been made of.
theorem IsValid.make_eq {challenge : TokenChallenge} (h : challenge.IsValid)
    (htype : challenge.tokenType = 2) (tokenType : TokenType) :
    make tokenType challenge.issuerName challenge.redemptionContext challenge.originInfo =
      .ok challenge := by
  obtain ⟨issuer, hissuer, hissuerBytes⟩ := h.issuer
  obtain ⟨origins, hnames, horiginBytes⟩ := h.origins
  obtain ⟨context, hcontext⟩ : ∃ context : Option (Block 32),
      challenge.contextBytes.bytes = (context.map Block.bytes).getD [] := by
    obtain hnone | hsome := h.context
    · exact ⟨none, List.length_eq_zero_iff.mp hnone⟩
    · exact ⟨some ⟨_, hsome⟩, rfl⟩
  have hholds : challenge.Holds issuer context origins :=
    ⟨htype, hissuerBytes, hcontext, horiginBytes⟩
  rw [hholds.issuerName_eq, hholds.redemptionContext_eq, hholds.originInfo_eq hnames]
  refine make_eq_ok_iff.mpr ⟨⟨(utf8ByteSize_pos_iff issuer).mpr hissuer, ?_⟩, ⟨hnames, ?_⟩, hholds⟩
  · exact (exists_field_iff issuer).mp
      ⟨challenge.issuerBytes, Bounded.ofBytes?_eq_some_iff.mpr hissuerBytes⟩
  · rw [joinOrigins_eq] at horiginBytes
    exact (exists_field_iff _).mp
      ⟨challenge.originBytes, Bounded.ofBytes?_eq_some_iff.mpr horiginBytes⟩

-- Making a challenge and reading one ask the same of its fields, and each gives back what the other
-- took.
theorem make_agrees_with_decode :
    (∀ tokenType issuer context origins,
      ((∃ challenge, make tokenType issuer context origins = .ok challenge) ↔
        IsIssuerName issuer ∧ AreOriginNames origins) ∧
      (∀ error, make tokenType issuer context origins = .error error ↔
        ¬IsIssuerName issuer ∧ error = .invalidIssuer ∨
          IsIssuerName issuer ∧ ¬AreOriginNames origins ∧ error = .invalidOriginInfo) ∧
      ∀ challenge, make tokenType issuer context origins = .ok challenge →
        decode challenge.encode = .ok challenge ∧ challenge.tokenType = 2 ∧
          challenge.issuerName = issuer ∧ challenge.redemptionContext = context ∧
          challenge.originInfo = origins) ∧
    (∀ bytes challenge, decode bytes = .ok challenge → challenge.tokenType = 2 →
      ∀ tokenType, make tokenType challenge.issuerName challenge.redemptionContext
        challenge.originInfo = .ok challenge) ∧
    ∀ tokenType issuer context origins otherType otherIssuer otherContext otherOrigins challenge
        other, make tokenType issuer context origins = .ok challenge →
      make otherType otherIssuer otherContext otherOrigins = .ok other →
      challenge.encode = other.encode →
        tokenType = otherType ∧ issuer = otherIssuer ∧ context = otherContext ∧
          origins = otherOrigins := by
  have haccessors (tokenType issuer context origins challenge)
      (hmake : make tokenType issuer context origins = .ok challenge) :
      decode challenge.encode = .ok challenge ∧ challenge.tokenType = 2 ∧
        challenge.issuerName = issuer ∧ challenge.redemptionContext = context ∧
        challenge.originInfo = origins := by
    obtain ⟨hissuer, horigins, hholds⟩ := make_eq_ok_iff.mp hmake
    exact ⟨decode_encode_of_isValid (isValid_of_make hmake), hholds.tokenType,
      hholds.issuerName_eq, hholds.redemptionContext_eq, hholds.originInfo_eq horigins.separate⟩
  refine ⟨fun tokenType issuer context origins => ⟨⟨?_, ?_⟩, fun error => make_eq_error_iff,
    haccessors tokenType issuer context origins⟩, ?_, ?_⟩
  · rintro ⟨challenge, hmake⟩
    obtain ⟨hissuer, horigins, -⟩ := make_eq_ok_iff.mp hmake
    exact ⟨hissuer, horigins⟩
  · rintro ⟨hissuer, horigins⟩
    obtain ⟨challenge, hmake, -⟩ := exists_make tokenType context hissuer horigins
    exact ⟨challenge, hmake⟩
  · intro bytes challenge hdecode htype tokenType
    exact (decode_eq_ok_iff.mp hdecode).2.make_eq htype tokenType
  · intro tokenType issuer context origins otherType otherIssuer otherContext otherOrigins
      challenge other hmake hother hencode
    obtain ⟨hdecode, -, hissuer, hcontext, horigins⟩ := haccessors _ _ _ _ _ hmake
    obtain ⟨hotherDecode, -, hotherIssuer, hotherContext, hotherOrigins⟩ :=
      haccessors _ _ _ _ _ hother
    -- equal bytes are read as one challenge, so its parts are equal too
    rw [hencode, hotherDecode] at hdecode
    obtain rfl := Except.ok.inj hdecode
    refine ⟨?_, hissuer.symm.trans hotherIssuer, hcontext.symm.trans hotherContext,
      horigins.symm.trans hotherOrigins⟩
    cases tokenType
    cases otherType
    rfl

-- The longest name of an issuer has 65535 bytes, however few its characters are.
theorem make_longest :
    let issuer := String.ofList (List.replicate 21845 '€')
    let origins := ["a", "é"]
    (∃ challenge, make .blindRsa issuer none origins = .ok challenge ∧
      decode challenge.encode = .ok challenge ∧ challenge.originInfo = origins ∧
      make .blindRsa challenge.issuerName challenge.redemptionContext challenge.originInfo =
        .ok challenge ∧
      ∃ other, make .blindRsa issuer none ["é", "a"] = .ok other ∧
        other.encode ≠ challenge.encode) ∧
      make .blindRsa (issuer ++ "a") none origins = .error .invalidIssuer := by
  intro issuer origins
  have hsize : issuer.utf8ByteSize = 65535 := utf8ByteSize_replicate 21845 '€'
  have hissuer : IsIssuerName issuer := ⟨by omega, by omega⟩
  have hlonger : ¬IsIssuerName (issuer ++ "a") := by
    intro h
    have hle := h.le
    rw [String.utf8ByteSize_append, hsize] at hle
    exact absurd hle (by decide)
  obtain ⟨hmake, hdecode, hinjective⟩ := make_agrees_with_decode
  obtain ⟨hok, -, hread⟩ := hmake .blindRsa issuer none origins
  obtain ⟨challenge, hchallenge⟩ := hok.mpr ⟨hissuer, by decide, by decide⟩
  obtain ⟨other, hother⟩ := (hmake .blindRsa issuer none ["é", "a"]).1.mpr
    ⟨hissuer, by decide, by decide⟩
  obtain ⟨hdecoded, htype, -, -, horigins⟩ := hread challenge hchallenge
  refine ⟨⟨challenge, hchallenge, hdecoded, horigins,
    hdecode _ challenge hdecoded htype .blindRsa, other, hother, fun heq => ?_⟩, ?_⟩
  · obtain ⟨-, -, -, hsame⟩ := hinjective _ _ _ _ _ _ _ _ other challenge hother hchallenge heq
    exact absurd hsame (by decide)
  · exact ((hmake .blindRsa (issuer ++ "a") none origins).2.1 _).mpr (.inl ⟨hlonger, rfl⟩)

end BlindToken.TokenChallenge
