import BlindToken.Proofs.Bytes.Format
import BlindToken.Proofs.Bytes
import BlindToken.TokenChallenge

namespace BlindToken

-- What stands between two separators holds none.
theorem not_mem_of_mem_splitOn {α : Type} [DecidableEq α] {separator : α} {items part : List α}
    (h : part ∈ items.splitOn separator) : separator ∉ part := by
  induction items generalizing part with
  | nil =>
    obtain rfl : part = [] := by simpa using h
    exact List.not_mem_nil
  | cons item rest ih =>
    rw [List.splitOn_cons_eq_if_modifyHead] at h
    split at h
    · rcases List.mem_cons.mp h with rfl | hrest
      · exact List.not_mem_nil
      · exact ih hrest
    · rename_i hitem
      obtain ⟨first, others, hparts⟩ :=
        List.exists_cons_of_ne_nil (List.splitOn_ne_nil separator rest)
      rw [hparts] at ih h
      rcases List.mem_cons.mp h with rfl | hothers
      · have hne : separator ≠ item := fun heq => hitem (by simp [heq])
        exact List.not_mem_cons_of_ne_of_not_mem hne (ih List.mem_cons_self)
      · exact ih (List.mem_cons_of_mem _ hothers)

namespace TokenChallenge

-- The parts of a challenge one after another, those of no fixed size behind their length.
structure IsLaidOut (bytes : Bytes) (tokenType : UInt16) (issuer context origins : Bytes) :
    Prop where
  issuer_lt : issuer.length < 2 ^ 16
  context_lt : context.length < 2 ^ 8
  origins_lt : origins.length < 2 ^ 16
  bytes_eq : bytes = Bytes.ofNat 2 tokenType.toNat ++ Bytes.ofNat 2 issuer.length ++ issuer ++
    Bytes.ofNat 1 context.length ++ context ++ Bytes.ofNat 2 origins.length ++ origins

def IsIssuer (field : Bytes) : Prop := ∃ name, name ≠ "" ∧ field = utf8 name

def IsContext (field : Bytes) : Prop := field.length = 0 ∨ field.length = 32

-- Any number of names, each with at least one character, and one separator between two of them.
def IsOrigins (field : Bytes) : Prop :=
  ∃ names, (∀ name ∈ names, name ≠ "" ∧ originSeparator ∉ name.toList) ∧ field = joinOrigins names

structure IsValid (challenge : TokenChallenge) : Prop where
  issuer : IsIssuer challenge.issuerBytes.bytes
  context : IsContext challenge.contextBytes.bytes
  origins : IsOrigins challenge.originBytes.bytes

-- The first part that is not as it should be, in the order of the constructors.
inductive Rejects (bytes : Bytes) : ProtocolError → Prop where
  | size (unfit : ∀ tokenType issuer context origins,
      ¬IsLaidOut bytes tokenType issuer context origins) : Rejects bytes .invalidTokenChallengeSize
  | issuer {tokenType : UInt16} {issuer context origins : Bytes}
      (laidOut : IsLaidOut bytes tokenType issuer context origins) (fails : ¬IsIssuer issuer) :
      Rejects bytes .invalidIssuer
  | context {tokenType : UInt16} {issuer context origins : Bytes}
      (laidOut : IsLaidOut bytes tokenType issuer context origins) (holds : IsIssuer issuer)
      (fails : ¬IsContext context) : Rejects bytes .invalidRedemptionContext
  | origins {tokenType : UInt16} {issuer context origins : Bytes}
      (laidOut : IsLaidOut bytes tokenType issuer context origins) (holds : IsIssuer issuer)
      (holdsToo : IsContext context) (fails : ¬IsOrigins origins) :
      Rejects bytes .invalidOriginInfo

section Read

open Wire

variable {bytes rest : Bytes} {challenge : TokenChallenge}

theorem read?_eq_format : read? = format.read? := by
  funext bytes
  simp [read?, format, Format.record, Format.pair, Format.uint16, Format.counted,
    Option.bind_assoc]

-- The fields may hold anything that their counts can tell the length of.
theorem isWrittenBy_format : format.IsWrittenBy encode := by
  have hencode : encode = fun challenge => writeUInt16 challenge.tokenType ++
      (writeCounted challenge.issuerBytes ++ (writeCounted challenge.contextBytes ++
        writeCounted challenge.originBytes)) := by
    funext challenge
    simp [encode]
  rw [hencode]
  exact (Format.isWrittenBy_uint16.pair <| (Format.isWrittenBy_counted 2).pair <|
    (Format.isWrittenBy_counted 1).pair <| Format.isWrittenBy_counted 2).record
      (fun _ => rfl) fun _ => rfl

theorem read?_eq_some_iff :
    read? bytes = some (challenge, rest) ↔ bytes = challenge.encode ++ rest := by
  rw [read?_eq_format]
  exact isWrittenBy_format.read?_iff bytes rest challenge

theorem encode_ne_nil (challenge : TokenChallenge) : challenge.encode ≠ [] := by
  simp [encode, Wire.writeUInt16, Bytes.ofNat]

theorem isLaidOut_encode (challenge : TokenChallenge) :
    IsLaidOut challenge.encode challenge.tokenType challenge.issuerBytes.bytes
      challenge.contextBytes.bytes challenge.originBytes.bytes where
  issuer_lt := Wire.length_counted_lt challenge.issuerBytes
  context_lt := Wire.length_counted_lt challenge.contextBytes
  origins_lt := Wire.length_counted_lt challenge.originBytes
  bytes_eq := by simp [encode, Wire.writeUInt16, Wire.writeCounted]

theorem isLaidOut_iff : IsLaidOut bytes challenge.tokenType challenge.issuerBytes.bytes
    challenge.contextBytes.bytes challenge.originBytes.bytes ↔ bytes = challenge.encode := by
  constructor
  · intro h
    exact h.bytes_eq.trans (isLaidOut_encode challenge).bytes_eq.symm
  · rintro rfl
    exact isLaidOut_encode challenge

theorem IsLaidOut.exists_encode {tokenType : UInt16} {issuer context origins : Bytes}
    (h : IsLaidOut bytes tokenType issuer context origins) :
    ∃ challenge : TokenChallenge, bytes = challenge.encode ∧ challenge.tokenType = tokenType ∧
      challenge.issuerBytes.bytes = issuer ∧ challenge.contextBytes.bytes = context ∧
      challenge.originBytes.bytes = origins := by
  obtain ⟨hissuer, hcontext, horigins, rfl⟩ := h
  obtain ⟨issuerBytes, rfl⟩ := Wire.exists_counted 2 hissuer
  obtain ⟨contextBytes, rfl⟩ := Wire.exists_counted 1 hcontext
  obtain ⟨originBytes, rfl⟩ := Wire.exists_counted 2 horigins
  refine ⟨⟨tokenType, issuerBytes, contextBytes, originBytes⟩, ?_, rfl, rfl, rfl, rfl⟩
  simp [encode, Wire.writeUInt16, Wire.writeCounted]

end Read

section Check

variable {challenge : TokenChallenge} {field : Bytes}

theorem isIssuer_iff : IsIssuer field ↔ ¬(field = [] ∨ ofUtf8? field = none) := by
  constructor
  · rintro ⟨name, hname, rfl⟩
    simp [hname]
  · intro h
    obtain ⟨hfield, htext⟩ := not_or.mp h
    obtain ⟨name, hname⟩ := Option.ne_none_iff_exists'.mp htext
    obtain rfl := ofUtf8?_eq_some_iff.mp hname
    exact ⟨name, by simpa using hfield, rfl⟩

theorem isOrigins_iff : IsOrigins field ↔ ∃ text, ofUtf8? field = some text ∧
    ¬(text ≠ "" ∧ [] ∈ text.toList.splitOn originSeparator) := by
  constructor
  · rintro ⟨names, hnames, rfl⟩
    refine ⟨_, ofUtf8?_utf8 _, ?_⟩
    rintro ⟨htext, hempty⟩
    have hnonempty : names.map String.toList ≠ [] := by
      intro hnone
      rw [hnone] at htext
      exact htext rfl
    have hparts : ∀ part ∈ names.map String.toList, originSeparator ∉ part :=
      List.forall_mem_map.mpr fun name hname => (hnames name hname).2
    rw [String.toList_ofList, List.splitOn_intercalate _ hparts hnonempty] at hempty
    obtain ⟨name, hname, hnil⟩ := List.mem_map.mp hempty
    exact (hnames name hname).1 (String.toList_eq_nil_iff.mp hnil)
  · rintro ⟨text, htext, hparts⟩
    obtain rfl := ofUtf8?_eq_some_iff.mp htext
    by_cases hnone : text = ""
    · exact ⟨[], by simp, by rw [hnone]; rfl⟩
    · refine ⟨(text.toList.splitOn originSeparator).map String.ofList, ?_, ?_⟩
      · refine List.forall_mem_map.mpr fun part hpart => ⟨?_, ?_⟩
        · intro hempty
          obtain rfl : part = [] := String.ofList_eq_empty_iff.mp hempty
          exact hparts ⟨hnone, hpart⟩
        · rw [String.toList_ofList]
          exact not_mem_of_mem_splitOn hpart
      · simp [joinOrigins, List.map_map, Function.comp_def, List.intercalate_splitOn]

private theorem not_length_of_isContext (h : IsContext field) :
    ¬(field.length ≠ 0 ∧ field.length ≠ 32) :=
  fun hnot => not_or.mpr hnot h

theorem check_of_not_isIssuer (h : ¬IsIssuer challenge.issuerBytes.bytes) :
    challenge.check = .error .invalidIssuer := by
  rw [isIssuer_iff, not_not] at h
  simp only [check, if_pos h]
  rfl

theorem check_of_not_isContext (hissuer : IsIssuer challenge.issuerBytes.bytes)
    (h : ¬IsContext challenge.contextBytes.bytes) :
    challenge.check = .error .invalidRedemptionContext := by
  rw [isIssuer_iff] at hissuer
  simp only [check, if_neg hissuer, if_pos (not_or.mp h)]
  rfl

theorem check_of_not_isOrigins (hissuer : IsIssuer challenge.issuerBytes.bytes)
    (hcontext : IsContext challenge.contextBytes.bytes)
    (h : ¬IsOrigins challenge.originBytes.bytes) :
    challenge.check = .error .invalidOriginInfo := by
  rw [isIssuer_iff] at hissuer
  cases htext : ofUtf8? challenge.originBytes.bytes with
  | none =>
    simp only [check, if_neg hissuer, if_neg (not_length_of_isContext hcontext), htext]
    rfl
  | some text =>
    have hparts : text ≠ "" ∧ [] ∈ text.toList.splitOn originSeparator :=
      Classical.byContradiction fun hnot => h (isOrigins_iff.mpr ⟨text, htext, hnot⟩)
    simp only [check, if_neg hissuer, if_neg (not_length_of_isContext hcontext), htext,
      if_pos hparts]
    rfl

theorem check_of_isValid (h : challenge.IsValid) : challenge.check = .ok () := by
  have hissuer := isIssuer_iff.mp h.issuer
  obtain ⟨text, htext, hparts⟩ := isOrigins_iff.mp h.origins
  simp only [check, if_neg hissuer, if_neg (not_length_of_isContext h.context), htext,
    if_neg hparts]
  rfl

end Check

section Decode

variable {bytes : Bytes} {challenge : TokenChallenge}

theorem decode_encode (challenge : TokenChallenge) :
    decode challenge.encode = challenge.check.map fun _ => challenge := by
  have hread : read? challenge.encode = some (challenge, []) :=
    read?_eq_some_iff.mpr (List.append_nil _).symm
  simp only [decode, hread]
  cases challenge.check <;> rfl

theorem decode_encode_of_isValid (h : challenge.IsValid) :
    decode challenge.encode = .ok challenge := by
  rw [decode_encode, check_of_isValid h]
  rfl

theorem decode_eq_invalidTokenChallengeSize
    (h : ∀ challenge : TokenChallenge, bytes ≠ challenge.encode) :
    decode bytes = .error .invalidTokenChallengeSize := by
  unfold decode
  split
  · rename_i challenge hread
    have hencode := read?_eq_some_iff.mp hread
    rw [List.append_nil] at hencode
    exact absurd hencode (h challenge)
  · rfl

-- The parts of a byte string are determined by it.
theorem decode_of_rejects {error : ProtocolError} (h : Rejects bytes error) :
    decode bytes = .error error := by
  cases h with
  | size hunfit =>
    refine decode_eq_invalidTokenChallengeSize fun challenge hbytes => ?_
    subst hbytes
    exact hunfit _ _ _ _ (isLaidOut_encode challenge)
  | issuer hlaidOut hfails =>
    obtain ⟨challenge, rfl, rfl, rfl, rfl, rfl⟩ := hlaidOut.exists_encode
    rw [decode_encode, check_of_not_isIssuer hfails]
    rfl
  | context hlaidOut hissuer hfails =>
    obtain ⟨challenge, rfl, rfl, rfl, rfl, rfl⟩ := hlaidOut.exists_encode
    rw [decode_encode, check_of_not_isContext hissuer hfails]
    rfl
  | origins hlaidOut hissuer hcontext hfails =>
    obtain ⟨challenge, rfl, rfl, rfl, rfl, rfl⟩ := hlaidOut.exists_encode
    rw [decode_encode, check_of_not_isOrigins hissuer hcontext hfails]
    rfl

theorem rejects_or_isValid (bytes : Bytes) :
    (∃ error, Rejects bytes error) ∨
      ∃ challenge : TokenChallenge, bytes = challenge.encode ∧ challenge.IsValid := by
  by_cases hbytes : ∃ challenge : TokenChallenge, bytes = challenge.encode
  · obtain ⟨challenge, rfl⟩ := hbytes
    have hlaidOut := isLaidOut_encode challenge
    by_cases hissuer : IsIssuer challenge.issuerBytes.bytes
    · by_cases hcontext : IsContext challenge.contextBytes.bytes
      · by_cases horigins : IsOrigins challenge.originBytes.bytes
        · exact .inr ⟨challenge, rfl, hissuer, hcontext, horigins⟩
        · exact .inl ⟨_, .origins hlaidOut hissuer hcontext horigins⟩
      · exact .inl ⟨_, .context hlaidOut hissuer hcontext⟩
    · exact .inl ⟨_, .issuer hlaidOut hissuer⟩
  · refine .inl ⟨_, .size fun tokenType issuer context origins hlaidOut => hbytes ?_⟩
    obtain ⟨challenge, hencode, -⟩ := hlaidOut.exists_encode
    exact ⟨challenge, hencode⟩

theorem decode_eq_ok_iff :
    decode bytes = .ok challenge ↔ bytes = challenge.encode ∧ challenge.IsValid := by
  constructor
  · intro h
    rcases rejects_or_isValid bytes with ⟨error, hrejects⟩ | ⟨other, rfl, hvalid⟩
    · cases h.symm.trans (decode_of_rejects hrejects)
    · obtain rfl := Except.ok.inj (h.symm.trans (decode_encode_of_isValid hvalid))
      exact ⟨rfl, hvalid⟩
  · rintro ⟨rfl, hvalid⟩
    exact decode_encode_of_isValid hvalid

theorem decode_eq_error_iff {error : ProtocolError} :
    decode bytes = .error error ↔ Rejects bytes error := by
  refine ⟨fun h => ?_, decode_of_rejects⟩
  rcases rejects_or_isValid bytes with ⟨other, hrejects⟩ | ⟨challenge, rfl, hvalid⟩
  · obtain rfl := Except.error.inj (h.symm.trans (decode_of_rejects hrejects))
    exact hrejects
  · cases h.symm.trans (decode_encode_of_isValid hvalid)

end Decode

-- Exactly the byte strings of the format are read, nothing of them is lost, and of the others the
-- first part that is not as it should be decides the error.
theorem decode_accepts_format (bytes : Bytes) :
    (∀ challenge, decode bytes = .ok challenge ↔
      IsLaidOut bytes challenge.tokenType challenge.issuerBytes.bytes
        challenge.contextBytes.bytes challenge.originBytes.bytes ∧ challenge.IsValid) ∧
      (∀ challenge, decode bytes = .ok challenge → challenge.encode = bytes) ∧
      ∀ error, decode bytes = .error error ↔ Rejects bytes error := by
  refine ⟨fun challenge => ?_, fun challenge h => ?_, fun error => decode_eq_error_iff⟩
  · rw [decode_eq_ok_iff, isLaidOut_iff]
  · exact (decode_eq_ok_iff.mp h).1.symm

-- Accented letters in both text fields, and an issuer that is half of a surrogate pair.
theorem decode_accented :
    let challenge : TokenChallenge :=
      ⟨2, ⟨[0xc3, 0xa9], by decide⟩, ⟨[], by decide⟩, ⟨[0x61, 0x20, 0xc3, 0xa9], by decide⟩⟩
    let bytes := [0, 2, 0, 2, 0xc3, 0xa9, 0, 0, 4, 0x61, 0x20, 0xc3, 0xa9]
    decode bytes = .ok challenge ∧ challenge.encode = bytes ∧
      Rejects [0, 2, 0, 3, 0xed, 0xa0, 0x80, 0, 0, 0] .invalidIssuer := by
  intro challenge bytes
  have hlaidOut : IsLaidOut bytes challenge.tokenType challenge.issuerBytes.bytes
      challenge.contextBytes.bytes challenge.originBytes.bytes :=
    ⟨by decide, by decide, by decide, by decide⟩
  have hvalid : challenge.IsValid :=
    ⟨⟨"é", by decide, by decide⟩, .inl rfl, ["a", "é"], by decide, by decide⟩
  obtain ⟨hok, hencode, -⟩ := decode_accepts_format bytes
  have hdecode := (hok challenge).mpr ⟨hlaidOut, hvalid⟩
  refine ⟨hdecode, hencode challenge hdecode, ?_⟩
  exact ((decode_accepts_format _).2.2 _).mp (by decide +kernel)

end TokenChallenge

end BlindToken
