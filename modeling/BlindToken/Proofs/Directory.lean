import Mathlib.Data.List.Basic
import BlindToken.Directory
import BlindToken.Proofs.Base64
import BlindToken.Proofs.Key.Public

namespace BlindToken

namespace DirectoryKey

variable {entry : DirectoryKey} {now later : UInt64}

theorem isBlindRsa_iff : entry.isBlindRsa = true ↔ entry.tokenType = 2 := decide_eq_true_iff

theorem isUsableAt_iff :
    entry.isUsableAt now = true ↔ ∀ notBefore ∈ entry.notBefore, notBefore ≤ now := by
  simp [isUsableAt, Option.all_eq_true]

theorem isUsableAt_mono (hle : now ≤ later) (h : entry.isUsableAt now = true) :
    entry.isUsableAt later = true := by
  rw [isUsableAt_iff] at h ⊢
  exact fun notBefore hmem => UInt64.le_trans (h notBefore hmem) hle

theorem publicKey?_eq_some_iff {key : PublicKey} : entry.publicKey? = some key ↔
    entry.isBlindRsa = true ∧ ∃ bytes, entry.tokenKeyBytes? = some bytes ∧
      PublicKey.ofSpki bytes = .ok key := by
  simp only [publicKey?, Option.ite_none_right_eq_some, Option.bind_eq_some_iff,
    toOption_eq_some_iff]

end DirectoryKey

namespace DirectoryDocument

variable {document : DirectoryDocument} {now later : UInt64} {bytes : Bytes} {key : PublicKey}

theorem isValid_iff : document.isValid bytes now = true ↔ ∃ entry ∈ document.tokenKeys,
    entry.isBlindRsa = true ∧ entry.tokenKeyBytes? = some bytes ∧ entry.isUsableAt now = true := by
  simp [isValid, List.any_eq_true, and_assoc]

theorem mem_publicKeys_iff : key ∈ document.publicKeys now ↔ ∃ entry ∈ document.tokenKeys,
    entry.isUsableAt now = true ∧ entry.publicKey? = some key := by
  simp [publicKeys, List.mem_filterMap, List.mem_filter, and_assoc]

-- The published form that an entry holds is the form of its key.
theorem mem_publicKeys_iff_isValid : key ∈ document.publicKeys now ↔
    document.isValid key.spki now = true ∧ PublicKey.ofSpki key.spki = .ok key := by
  rw [mem_publicKeys_iff, isValid_iff]
  constructor
  · rintro ⟨entry, hentry, husable, hkey⟩
    obtain ⟨htype, bytes, hbytes, hof⟩ := DirectoryKey.publicKey?_eq_some_iff.mp hkey
    obtain rfl := (PublicKey.ofSpki_eq_ok_iff.mp hof).2.1
    exact ⟨⟨entry, hentry, htype, hbytes, husable⟩, hof⟩
  · rintro ⟨⟨entry, hentry, htype, hbytes, husable⟩, hof⟩
    exact ⟨entry, hentry, husable, DirectoryKey.publicKey?_eq_some_iff.mpr ⟨htype, _, hbytes, hof⟩⟩

theorem isValid_mono (hle : now ≤ later) (h : document.isValid bytes now = true) :
    document.isValid bytes later = true := by
  rw [isValid_iff] at h ⊢
  obtain ⟨entry, hentry, htype, hbytes, husable⟩ := h
  exact ⟨entry, hentry, htype, hbytes, DirectoryKey.isUsableAt_mono hle husable⟩

theorem publicKeys_sublist (hle : now ≤ later) :
    (document.publicKeys now).Sublist (document.publicKeys later) :=
  (List.monotone_filter_right document.tokenKeys fun _ =>
    DirectoryKey.isUsableAt_mono hle).filterMap _

-- A key can be used exactly if its published form is valid, and neither ends once the time has
-- come.
theorem queries_agree (document : DirectoryDocument) (now : UInt64) :
    (∀ bytes, document.isValid bytes now = true ↔ ∃ entry ∈ document.tokenKeys,
      entry.tokenType = 2 ∧ Base64.urlDecode? entry.tokenKey = some bytes ∧
        ∀ notBefore ∈ entry.notBefore, notBefore ≤ now) ∧
    (∀ key ∈ document.publicKeys now, document.isValid key.spki now = true) ∧
    (∀ bytes key, document.isValid bytes now = true → PublicKey.ofSpki bytes = .ok key →
      key ∈ document.publicKeys now) ∧
    ∀ later, now ≤ later →
      (∀ bytes, document.isValid bytes now = true → document.isValid bytes later = true) ∧
        (document.publicKeys now).Sublist (document.publicKeys later) := by
  refine ⟨fun bytes => ?_, fun key hkey => (mem_publicKeys_iff_isValid.mp hkey).1,
    fun bytes key hvalid hof => ?_,
    fun later hle => ⟨fun bytes => isValid_mono hle, publicKeys_sublist hle⟩⟩
  · simp only [isValid_iff, DirectoryKey.isBlindRsa_iff, DirectoryKey.isUsableAt_iff]
    rfl
  · obtain rfl := (PublicKey.ofSpki_eq_ok_iff.mp hof).2.1
    exact mem_publicKeys_iff_isValid.mpr ⟨hvalid, hof⟩

-- A key for another type, two entries that hold no key, and a key that is listed twice.
def mixedDocument (spki : Bytes) : DirectoryDocument where
  issuerRequestUri := "/request"
  tokenKeys := [⟨1, Base64.urlEncode spki, none⟩, ⟨2, "*", none⟩, ⟨2, "AQID", none⟩,
    ⟨2, Base64.urlEncode spki, some 5⟩, ⟨2, Base64.urlEncode spki, some 7⟩]

theorem mixedDocument_queries : ∃ spki key, PublicKey.ofSpki spki = .ok key ∧
    (mixedDocument spki).isValid spki 4 = false ∧ (mixedDocument spki).isValid spki 5 = true ∧
    (mixedDocument spki).isValid spki 7 = true ∧ key ∈ (mixedDocument spki).publicKeys 5 ∧
    ((mixedDocument spki).publicKeys 5).Sublist ((mixedDocument spki).publicKeys 7) := by
  have hsupported : PublicKey.IsSupported ⟨2 ^ 2047 + 1, 65537⟩ := by decide +kernel
  obtain ⟨spki, key, hkey, -⟩ := hsupported.exists_ofSpki
  have hread := Base64.urlDecode?_urlEncode spki
  have hshort : Base64.urlDecode? "AQID" ≠ some spki := by
    intro hread
    obtain rfl := Option.some.inj ((show Base64.urlDecode? "AQID" = some [1, 2, 3] by
      decide +kernel).symm.trans hread)
    have hnot : (PublicKey.ofSpki [1, 2, 3]).toOption.isNone := by decide +kernel
    rw [hkey] at hnot
    cases hnot
  have hstar : Base64.urlDecode? "*" ≠ some spki := by
    rw [show Base64.urlDecode? "*" = none by decide +kernel]
    nofun
  obtain ⟨hvalid, -, hlisted, hlater⟩ := (mixedDocument spki).queries_agree 5
  have hnow : (mixedDocument spki).isValid spki 5 = true :=
    (hvalid spki).mpr ⟨⟨2, Base64.urlEncode spki, some 5⟩, by simp [mixedDocument], rfl, hread,
      by simp⟩
  obtain ⟨hstays, hsublist⟩ := hlater 7 (by decide)
  refine ⟨spki, key, hkey, ?_, hnow, hstays spki hnow, hlisted spki key hnow hkey, hsublist⟩
  refine Bool.eq_false_iff.mpr fun hearly => ?_
  obtain ⟨entry, hentry, htype, hbytes, husable⟩ :=
    (((mixedDocument spki).queries_agree 4).1 spki).mp hearly
  simp only [mixedDocument, List.mem_cons, List.not_mem_nil, or_false] at hentry
  rcases hentry with rfl | rfl | rfl | rfl | rfl
  · simp at htype
  · exact hstar hbytes
  · exact hshort hbytes
  · simp at husable
  · simp at husable

end DirectoryDocument

end BlindToken
