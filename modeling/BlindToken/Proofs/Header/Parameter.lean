import Mathlib.Data.List.Basic
import BlindToken.Header.Credentials
import BlindToken.Proofs.Base64
import BlindToken.Proofs.Text

namespace BlindToken.Credentials

deriving instance DecidableEq for Parameter

section Characters

variable {char : Char}

theorem isBlank_eq_true_iff : isBlank char ↔ char = ' ' ∨ char = '\t' := by
  simp [isBlank]

theorem not_isBlank_of_isNameChar (h : isNameChar char) : isBlank char = false := by
  cases hblank : isBlank char with
  | false => rfl
  | true => rcases isBlank_eq_true_iff.mp hblank with rfl | rfl <;> simp [isNameChar] at h

-- The symbols of both alphabets of base64 and the padding.
theorem isBase64Char_iff : isBase64Char char ↔
    ('A' ≤ char ∧ char ≤ 'Z') ∨ ('a' ≤ char ∧ char ≤ 'z') ∨ ('0' ≤ char ∧ char ≤ '9') ∨
      char ∈ ['-', '_', '+', '/', '='] := by
  simp only [isBase64Char, Bool.or_eq_true, decide_eq_true_eq, isAlphanum_iff, or_assoc]

theorem not_isBlank_of_isBase64Char (h : isBase64Char char) : isBlank char = false := by
  cases hblank : isBlank char with
  | false => rfl
  | true =>
    rcases isBlank_eq_true_iff.mp hblank with rfl | rfl <;>
      exact absurd (isBase64Char_iff.mp h) (by decide)

theorem isBase64Char_ne (h : isBase64Char char) : char ≠ ',' ∧ char ≠ '"' := by
  constructor <;> rintro rfl <;> exact absurd (isBase64Char_iff.mp h) (by decide)

theorem toLower_of_upper (h : 'A' ≤ char ∧ char ≤ 'Z') :
    'a' ≤ char.toLower ∧ char.toLower ≤ 'z' := by
  have hlower : 65 ≤ char.val.toNat := UInt32.le_iff_toNat_le.mp h.1
  have hupper : char.val.toNat ≤ 90 := UInt32.le_iff_toNat_le.mp h.2
  have hval : char.toLower.val = char.val + 32 := congrArg Char.val (dif_pos h)
  have hadd : char.toLower.val.toNat = char.val.toNat + 32 := by
    rw [hval, UInt32.toNat_add]
    exact Nat.mod_eq_of_lt (Nat.lt_of_le_of_lt (Nat.add_le_add_right hupper 32) (by decide))
  constructor <;> refine UInt32.le_iff_toNat_le.mpr ?_ <;> rw [hadd]
  · exact Nat.add_le_add_right hlower 32
  · exact Nat.add_le_add_right hupper 32

-- The case of a letter does not matter to what stands in names.
theorem isNameChar_toLower (char : Char) : isNameChar char.toLower = isNameChar char := by
  by_cases hupper : 'A' ≤ char ∧ char ≤ 'Z'
  · have hletter : char.isAlphanum := isAlphanum_iff.mpr (.inl hupper)
    have hlower : char.toLower.isAlphanum :=
      isAlphanum_iff.mpr (.inr (.inl (toLower_of_upper hupper)))
    rw [isNameChar, isNameChar, hletter, hlower]
    rfl
  · have hsame : char.toLower = char := dif_neg hupper
    rw [hsame]

theorem isNameChar_of_lower {text : List Char} (h : (lower text).toList.all isNameChar) :
    ∀ char ∈ text, isNameChar char := by
  intro char hchar
  have hlower : isNameChar char.toLower := by
    simp only [lower, String.toList_ofList, List.all_map, List.all_eq_true] at h
    exact h char hchar
  rwa [isNameChar_toLower] at hlower

end Characters

-- Names can be told from other text and from the scheme, and values end where they should.
structure Vocabulary.Plain (vocabulary : Vocabulary) : Prop where
  nonempty : vocabulary "" = none
  names : ∀ name isValueChar, vocabulary name = some isValueChar → name.toList.all isNameChar
  scheme : vocabulary (lower scheme.toList) = none
  values : ∀ name isValueChar, vocabulary name = some isValueChar →
    ∀ char, isValueChar char → isBase64Char char

-- A value with at least one character, bare or in quotes.
inductive ValueText (isValueChar : Char → Bool) (value : List Char) : List Char → Prop where
  | bare (nonempty : value ≠ []) (chars : ∀ char ∈ value, isValueChar char) :
      ValueText isValueChar value value
  | quoted (nonempty : value ≠ []) (chars : ∀ char ∈ value, isValueChar char) :
      ValueText isValueChar value ('"' :: (value ++ ['"']))

-- A name in any case, an equals sign and a value, with blanks around the name and the value.
inductive ParameterText (vocabulary : Vocabulary) : Parameter → List Char → Prop where
  | intro {lead key gap ahead value written trail : List Char} {isValueChar : Char → Bool}
      (blanks : ∀ char ∈ lead ++ gap ++ ahead ++ trail, isBlank char)
      (named : vocabulary (lower key) = some isValueChar)
      (spelled : ValueText isValueChar value written) :
      ParameterText vocabulary ⟨lower key, value⟩
        (lead ++ key ++ gap ++ '=' :: (ahead ++ written ++ trail))

section Value

variable {isValueChar : Char → Bool} {value written trail text : List Char}

private theorem readValue?_of_span (hfirst : text.head? ≠ some '"') (hvalue : value ≠ [])
    (hspan : text.span isValueChar = (value, trail)) :
    readValue? isValueChar text = some (value, trail) := by
  obtain ⟨first, more, rfl⟩ := List.exists_cons_of_ne_nil hvalue
  unfold readValue?
  split
  · simp at hfirst
  · rw [hspan]

private theorem readValue?_of_span_quoted (hvalue : value ≠ [])
    (hspan : text.span isValueChar = (value, '"' :: trail)) :
    readValue? isValueChar ('"' :: text) = some (value, trail) := by
  obtain ⟨first, more, rfl⟩ := List.exists_cons_of_ne_nil hvalue
  simp only [readValue?, hspan]

theorem readValue?_append (hvalues : ∀ char, isValueChar char → isBase64Char char)
    (hwritten : ValueText isValueChar value written) (htrail : ∀ char ∈ trail, isBlank char) :
    readValue? isValueChar (written ++ trail) = some (value, trail) := by
  cases hwritten with
  | bare hvalue hchars =>
    -- the value ends at the first blank
    have hspan : (value ++ trail).span isValueChar = (value, trail) := by
      refine span_eq_iff.mpr ⟨rfl, hchars, fun next hnext => Bool.eq_false_iff.mpr fun hnot => ?_⟩
      have hblank := htrail next (List.mem_of_mem_head? hnext)
      simp [not_isBlank_of_isBase64Char (hvalues next hnot)] at hblank
    refine readValue?_of_span ?_ hvalue hspan
    obtain ⟨first, more, rfl⟩ := List.exists_cons_of_ne_nil hvalue
    have hfirst := hvalues first (hchars first List.mem_cons_self)
    simpa using (isBase64Char_ne hfirst).2
  | quoted hvalue hchars =>
    have hspan : (value ++ '"' :: trail).span isValueChar = (value, '"' :: trail) := by
      refine span_eq_iff.mpr ⟨rfl, hchars, fun next hnext => Bool.eq_false_iff.mpr fun hnot => ?_⟩
      obtain rfl : next = '"' := by simpa using hnext.symm
      exact (isBase64Char_ne (hvalues _ hnot)).2 rfl
    simpa using readValue?_of_span_quoted hvalue hspan

theorem ValueText.head_not_isBlank (hwritten : ValueText isValueChar value written)
    (hvalues : ∀ char, isValueChar char → isBase64Char char) (rest : List Char) :
    ∀ next ∈ (written ++ rest).head?, isBlank next = false := by
  intro next hnext
  cases hwritten with
  | bare hvalue hchars =>
    have hvalid := of_mem_head?_append hvalue hchars rest next hnext
    exact not_isBlank_of_isBase64Char (hvalues next hvalid)
  | quoted =>
    obtain rfl : next = '"' := by simpa using hnext.symm
    rfl

theorem isBase64Char_urlEncode (bytes : Bytes) :
    ∀ char ∈ (Base64.urlEncode bytes).toList, isBase64Char char := by
  have hsymbol : ∀ value < 64, isBase64Char (Base64.url.symbol value) := by decide
  exact Base64.forall_mem_urlEncode (P := fun char => isBase64Char char) hsymbol rfl bytes

theorem ValueText.quoted_urlEncode {bytes : Bytes} (hbytes : bytes ≠ []) :
    ValueText isBase64Char (Base64.urlEncode bytes).toList
      ('"' :: ((Base64.urlEncode bytes).toList ++ ['"'])) :=
  .quoted (Base64.urlEncode_ne_nil hbytes) (isBase64Char_urlEncode bytes)

theorem exists_of_readValue? (h : readValue? isValueChar text = some (value, trail)) :
    ∃ written, text = written ++ trail ∧ ValueText isValueChar value written := by
  unfold readValue? at h
  split at h
  · rename_i quoted
    split at h
    · rename_i first more rest hspan
      obtain ⟨rfl, rfl⟩ := Prod.mk.inj (Option.some.inj h)
      obtain ⟨rfl, hchars, -⟩ := span_eq_iff.mp hspan
      exact ⟨_, by simp, .quoted (List.cons_ne_nil _ _) hchars⟩
    · cases h
  · split at h
    · rename_i first more rest hspan
      obtain ⟨rfl, rfl⟩ := Prod.mk.inj (Option.some.inj h)
      obtain ⟨rfl, hchars, -⟩ := span_eq_iff.mp hspan
      exact ⟨_, rfl, .bare (List.cons_ne_nil _ _) hchars⟩
    · cases h

end Value

section Parameter

variable {vocabulary : Vocabulary} {text : List Char} {parameter : Parameter}

-- The steps of the reader.
theorem parameter?_eq_some_iff_steps : parameter? vocabulary text = some parameter ↔
    ∃ key gap ahead isValueChar value trail,
      (text.dropWhile isBlank).span isNameChar = (key, gap) ∧ key ≠ [] ∧
      gap.dropWhile isBlank = '=' :: ahead ∧ vocabulary (lower key) = some isValueChar ∧
      readValue? isValueChar (ahead.dropWhile isBlank) = some (value, trail) ∧
      (∀ char ∈ trail, isBlank char) ∧ parameter = ⟨lower key, value⟩ := by
  unfold parameter?
  generalize (text.dropWhile isBlank).span isNameChar = parts
  obtain ⟨key, gap⟩ := parts
  constructor
  · intro h
    obtain ⟨⟨⟩, hkey, h⟩ := Option.bind_eq_some_iff.mp h
    split at h
    · rename_i ahead hgap
      obtain ⟨isValueChar, hname, h⟩ := Option.bind_eq_some_iff.mp h
      obtain ⟨⟨value, trail⟩, hvalue, h⟩ := Option.bind_eq_some_iff.mp h
      obtain ⟨⟨⟩, htrail, h⟩ := Option.bind_eq_some_iff.mp h
      obtain rfl := Option.some.inj h
      rw [Option.guard_eq_some'] at hkey htrail
      exact ⟨key, gap, ahead, isValueChar, value, trail, rfl, hkey, hgap, hname, hvalue,
        List.all_eq_true.mp htrail, rfl⟩
    · cases h
  · rintro ⟨_, _, ahead, isValueChar, value, trail, hparts, hkey, hgap, hname, hvalue, htrail, rfl⟩
    obtain ⟨rfl, rfl⟩ := Prod.mk.inj hparts
    refine Option.bind_eq_some_iff.mpr ⟨(), (Option.guard_eq_some' _).mpr hkey, ?_⟩
    simp only [hgap]
    refine Option.bind_eq_some_iff.mpr ⟨isValueChar, hname, ?_⟩
    refine Option.bind_eq_some_iff.mpr ⟨(value, trail), hvalue, ?_⟩
    have hblank : trail.all isBlank := List.all_eq_true.mpr htrail
    exact Option.bind_eq_some_iff.mpr ⟨(), (Option.guard_eq_some' _).mpr hblank, rfl⟩

-- Blanks in front of a parameter belong to it.
theorem parameter?_append {lead : List Char} (hlead : ∀ char ∈ lead, isBlank char) :
    parameter? vocabulary (lead ++ text) = parameter? vocabulary text := by
  have hsame : (lead ++ text).dropWhile isBlank = text.dropWhile isBlank :=
    List.dropWhile_append_of_pos hlead
  unfold parameter?
  rw [hsame]

variable (hplain : vocabulary.Plain)

include hplain

-- What stands before the equals sign is the name, and no blank stands in it.
theorem Vocabulary.Plain.key_spec {key : List Char} {isValueChar : Char → Bool}
    (hname : vocabulary (lower key) = some isValueChar) :
    key ≠ [] ∧ (∀ char ∈ key, isNameChar char) ∧ ∀ rest, ∀ next ∈ (key ++ rest).head?,
      isBlank next = false := by
  have hkey : key ≠ [] := by
    rintro rfl
    exact Option.some_ne_none _ (hname.symm.trans hplain.nonempty)
  have hchars := isNameChar_of_lower (hplain.names _ _ hname)
  refine ⟨hkey, hchars, fun rest => of_mem_head?_append hkey (fun char hchar => ?_) rest⟩
  exact not_isBlank_of_isNameChar (hchars char hchar)

-- The texts that are read as a parameter are exactly those of the grammar.
theorem parameter?_eq_some_iff :
    parameter? vocabulary text = some parameter ↔ ParameterText vocabulary parameter text := by
  rw [parameter?_eq_some_iff_steps]
  constructor
  · rintro ⟨key, rest, ahead, isValueChar, value, trail, hspan, -, hgap, hname, hvalue, htrail, rfl⟩
    obtain ⟨lead, htext, hlead, -⟩ := exists_dropWhile isBlank text
    obtain ⟨hkey, -, -⟩ := span_eq_iff.mp hspan
    obtain ⟨gap, hrest, hblank, -⟩ := exists_dropWhile isBlank rest
    obtain ⟨before, hahead, hbefore, -⟩ := exists_dropWhile isBlank ahead
    obtain ⟨written, hread, hwritten⟩ := exists_of_readValue? hvalue
    have hall : text = lead ++ key ++ gap ++ '=' :: (before ++ written ++ trail) := by
      rw [htext, hkey, hrest, hgap, hahead, hread]
      simp
    rw [hall]
    refine .intro ?_ hname hwritten
    simp only [List.forall_mem_append]
    exact ⟨⟨⟨hlead, hblank⟩, hbefore⟩, htrail⟩
  · rintro ⟨hblanks, hname, hspelled⟩
    rename_i lead key gap ahead value written trail isValueChar
    simp only [List.forall_mem_append] at hblanks
    obtain ⟨⟨⟨hlead, hgap⟩, hahead⟩, htrail⟩ := hblanks
    obtain ⟨hkey, hchars, hfirst⟩ := hplain.key_spec hname
    have hvalues := hplain.values _ _ hname
    have hbody : (lead ++ key ++ gap ++ '=' :: (ahead ++ written ++ trail)).dropWhile isBlank =
        key ++ (gap ++ '=' :: (ahead ++ written ++ trail)) := by
      rw [List.append_assoc, List.append_assoc]
      exact dropWhile_append_stop hlead (hfirst _)
    have hspan : (key ++ (gap ++ '=' :: (ahead ++ written ++ trail))).span isNameChar =
        (key, gap ++ '=' :: (ahead ++ written ++ trail)) := by
      refine span_eq_iff.mpr ⟨rfl, hchars, fun next hnext => ?_⟩
      cases gap with
      | nil =>
        obtain rfl : next = '=' := by simpa using hnext.symm
        rfl
      | cons blank gap =>
        obtain rfl : blank = next := by simpa using hnext
        exact Bool.eq_false_iff.mpr fun hnot => by
          simp [not_isBlank_of_isNameChar hnot] at hgap
    have hequals : (gap ++ '=' :: (ahead ++ written ++ trail)).dropWhile isBlank =
        '=' :: (ahead ++ written ++ trail) := by
      refine dropWhile_append_stop hgap fun next hnext => ?_
      obtain rfl : next = '=' := by simpa using hnext.symm
      rfl
    have hvalue : (ahead ++ written ++ trail).dropWhile isBlank = written ++ trail := by
      rw [List.append_assoc]
      exact dropWhile_append_stop hahead (hspelled.head_not_isBlank hvalues trail)
    refine ⟨key, _, _, isValueChar, value, trail, ?_, hkey, hequals, hname, ?_, htrail, rfl⟩
    · rw [hbody, hspan]
    · rw [hvalue]
      exact readValue?_append hvalues hspelled htrail

end Parameter

end BlindToken.Credentials
