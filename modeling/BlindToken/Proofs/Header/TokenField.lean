import BlindToken.Header.TokenField
import BlindToken.Proofs.Header.Grammar
import BlindToken.Proofs.Header.Value
import BlindToken.Proofs.Token

namespace BlindToken.TokenField

open Credentials

theorem vocabulary_eq_some_iff {name : String} {isValueChar : Char → Bool} :
    vocabulary name = some isValueChar ↔ name = "token" ∧ isValueChar = isBase64Char := by
  unfold vocabulary
  split <;> simp_all [eq_comm]

theorem vocabulary_plain : vocabulary.Plain where
  nonempty := rfl
  names name isValueChar hname := by
    obtain ⟨rfl, -⟩ := vocabulary_eq_some_iff.mp hname
    decide
  scheme := by decide
  values name isValueChar hname char hchar := by
    obtain ⟨-, rfl⟩ := vocabulary_eq_some_iff.mp hname
    exact hchar

section Grammar

-- The scheme and one parameter, with blanks around its name and its value.
inductive TokenText (value : List Char) : List Char → Prop where
  | intro {opening lead key gap ahead written trail : List Char} (opens : SchemeText opening)
      (blanks : ∀ char ∈ lead ++ gap ++ ahead ++ trail, isBlank char)
      (named : lower key = "token") (spelled : ValueText isBase64Char value written) :
      TokenText value (opening ++ (lead ++ key ++ gap ++ '=' :: (ahead ++ written ++ trail)))

-- A list of at least one value.
def IsWritten (values : List (List Char)) (text : List Char) : Prop :=
  values ≠ [] ∧ ∃ texts, List.Forall₂ TokenText values texts ∧ text = [','].intercalate texts

-- What is read from one text of the list.
def entry (value : List Char) : Entry := [⟨"token", value⟩]

variable {value text : List Char} {values : List (List Char)}

theorem entryText_iff : EntryText vocabulary (entry value) text ↔ TokenText value text := by
  constructor
  · generalize hentry : entry value = parameters
    rintro ⟨hopens, -, hparameters⟩
    subst hentry
    obtain ⟨spelled, _, hspelled, hrest, rfl⟩ := List.forall₂_cons_left_iff.mp hparameters
    obtain rfl := List.forall₂_nil_left_iff.mp hrest
    rw [List.intercalate_singleton]
    generalize hparameter : Parameter.mk "token" value = parameter at hspelled
    obtain ⟨hblanks, hname, hwritten⟩ := hspelled
    obtain ⟨hkey, rfl⟩ := vocabulary_eq_some_iff.mp hname
    obtain ⟨-, rfl⟩ := Parameter.mk.inj hparameter
    exact .intro hopens hblanks hkey hwritten
  · rintro ⟨hopens, hblanks, hkey, hwritten⟩
    have hname : vocabulary (lower _) = some isBase64Char := vocabulary_eq_some_iff.mpr ⟨hkey, rfl⟩
    have hspelled := ParameterText.intro hblanks hname hwritten
    rw [hkey] at hspelled
    have hentry := EntryText.intro hopens (List.cons_ne_nil _ _) (.cons hspelled .nil)
    rwa [List.intercalate_singleton] at hentry

-- There is one name, so that it stands once exactly if nothing else does.
theorem required?_eq_some_iff {parameters : Entry} (h : EntryText vocabulary parameters text) :
    parameters.required? "token" = some value ↔ parameters = entry value := by
  have hall : parameters.filter (·.name = "token") = parameters := by
    refine List.filter_eq_self.mpr fun parameter hparameter => decide_eq_true ?_
    obtain ⟨isValueChar, hname⟩ := h.exists_class parameter hparameter
    exact (vocabulary_eq_some_iff.mp hname).1
  rw [Entry.required?_eq_some_iff, hall, entry]

theorem isWritten_iff :
    (∃ entries, entries? vocabulary text = some entries ∧
      entries.mapM (Entry.required? · "token") = some values) ↔ IsWritten values text := by
  constructor
  · rintro ⟨entries, hentries, hvalues⟩
    obtain ⟨hnonempty, hspelled⟩ := (entries?_eq_some_iff vocabulary_plain).mp hentries
    have htexts : ∀ parameters ∈ entries, ∃ text, EntryText vocabulary parameters text :=
      forall_mem_of_forall₂ hspelled fun _ text h => ⟨text, h⟩
    have hrow : List.Forall₂ (fun parameters value => parameters = entry value) entries values := by
      refine ((List.forall₂_and_left _ _).mpr ⟨htexts, mapM_eq_some_iff.mp hvalues⟩).imp ?_
      rintro parameters value ⟨⟨text, htext⟩, hrequired⟩
      exact (required?_eq_some_iff htext).mp hrequired
    obtain rfl : entries = values.map entry := by
      rwa [← List.forall₂_eq_eq_eq, List.forall₂_map_right_iff]
    rw [List.forall₂_map_left_iff] at hspelled
    exact ⟨mt List.map_eq_nil_iff.mpr hnonempty, _, hspelled.imp fun _ _ => entryText_iff.mp, rfl⟩
  · rintro ⟨hnonempty, texts, hspelled, rfl⟩
    have hentries : List.Forall₂ (EntryText vocabulary) (values.map entry) texts :=
      List.forall₂_map_left_iff.mpr (hspelled.imp fun _ _ => entryText_iff.mpr)
    refine ⟨values.map entry, ?_, ?_⟩
    · exact (entries?_eq_some_iff vocabulary_plain).mpr
        (.intro (mt List.map_eq_nil_iff.mp hnonempty) hentries)
    · rw [mapM_eq_some_iff, List.forall₂_map_left_iff, List.forall₂_same]
      exact fun value _ => rfl

end Grammar

section Decode

variable {item : List Char} {token : Token}

-- The item is the text of as many bytes as a token has.
def HasTokenSize (item : List Char) : Prop :=
  ∃ bytes, Base64.urlDecode? (String.ofList item) = some bytes ∧ bytes.length = 354

theorem decode_eq_ok_iff :
    decode item = .ok token ↔ Base64.urlDecode? (String.ofList item) = some token.encode := by
  unfold decode
  constructor
  · intro h
    split at h
    · rename_i bytes hbytes
      split at h
      · rename_i hdecode
        obtain rfl := Except.ok.inj h
        rw [hbytes, Token.decode_eq_ok_iff.mp hdecode]
      · cases h
    · cases h
  · intro h
    have hdecode : Token.decode token.encode = .ok token := Token.decode_eq_ok_iff.mpr rfl
    simp only [h, hdecode]

theorem decode_eq_error {error : TokenFieldError} (h : decode item = .error error) :
    error = .invalidToken := by
  unfold decode at h
  split at h
  · split at h
    · cases h
    · exact (Except.error.inj h).symm
  · exact (Except.error.inj h).symm

theorem exists_decode_iff : (∃ token, decode item = .ok token) ↔ HasTokenSize item := by
  simp only [decode_eq_ok_iff]
  constructor
  · rintro ⟨token, htoken⟩
    exact ⟨token.encode, htoken, token.length_encode⟩
  · rintro ⟨bytes, hbytes, hlength⟩
    obtain ⟨token, rfl⟩ := Token.exists_encode_iff.mpr hlength
    exact ⟨token, hbytes⟩

end Decode

section Parse

variable {value : HeaderValue} {items rest : List (List Char)} {first : List Char}

theorem parse_eq_invalidInput
    (hnot : ¬(value.IsVisible ∧ ∃ items, IsWritten items value.chars)) :
    parse value = .error .invalidInput := by
  unfold parse
  dsimp only
  split
  · rename_i items hitems
    obtain ⟨text, hascii, hread⟩ := Option.bind_eq_some_iff.mp hitems
    obtain ⟨hvisible, rfl⟩ := HeaderValue.ascii?_eq_some_iff.mp hascii
    obtain ⟨entries, hentries, hlist⟩ := Option.bind_eq_some_iff.mp hread
    exact absurd ⟨hvisible, items, isWritten_iff.mp ⟨entries, hentries, hlist⟩⟩ hnot
  · rfl

-- All items are decoded, and the first of the tokens is given.
theorem parse_eq_bind (hvisible : value.IsVisible) (hwritten : IsWritten items value.chars) :
    parse value = items.mapM decode >>= fun tokens =>
      match tokens with
      | token :: _ => .ok token
      | [] => .error .invalidInput := by
  obtain ⟨entries, hentries, hitems⟩ := isWritten_iff.mpr hwritten
  have hascii := HeaderValue.ascii?_eq_some_iff.mpr ⟨hvisible, rfl⟩
  simp only [parse, hascii, Option.bind_eq_bind, Option.bind_some, hentries, hitems]
  rfl

theorem exists_parse (hvisible : value.IsVisible) (hwritten : IsWritten (first :: rest) value.chars)
    (hsizes : ∀ item ∈ first :: rest, HasTokenSize item) :
    ∃ token, Base64.urlDecode? (String.ofList first) = some token.encode ∧
      parse value = .ok token := by
  obtain ⟨tokens, htokens⟩ :=
    exists_forall₂ fun item hitem => exists_decode_iff.mpr (hsizes item hitem)
  obtain ⟨token, others, hfirst, -, rfl⟩ := List.forall₂_cons_left_iff.mp htokens
  refine ⟨token, decode_eq_ok_iff.mp hfirst, ?_⟩
  rw [parse_eq_bind hvisible hwritten]
  exact bind_eq_ok_iff.mpr ⟨token :: others, mapM_eq_ok_iff.mpr htokens, rfl⟩

theorem parse_eq_invalidToken (hvisible : value.IsVisible) (hwritten : IsWritten items value.chars)
    (hsizes : ¬∀ item ∈ items, HasTokenSize item) : parse value = .error .invalidToken := by
  rw [parse_eq_bind hvisible hwritten]
  cases hmap : items.mapM decode with
  | ok tokens =>
    have hall : ∀ item ∈ items, HasTokenSize item :=
      forall_mem_of_forall₂ (mapM_eq_ok_iff.mp hmap) fun _ token htoken =>
        exists_decode_iff.mp ⟨token, htoken⟩
    exact absurd hall hsizes
  | error error =>
    obtain ⟨-, _, -, -, -, hfails⟩ := mapM_eq_error_iff.mp hmap
    rw [decode_eq_error hfails]
    rfl

theorem parse_ne_invalidInput_iff : parse value ≠ .error .invalidInput ↔
    value.IsVisible ∧ ∃ items, IsWritten items value.chars := by
  constructor
  · exact fun hread => Classical.byContradiction fun hnot => hread (parse_eq_invalidInput hnot)
  · rintro ⟨hvisible, items, hwritten⟩ hinvalid
    obtain ⟨first, rest, rfl⟩ := List.exists_cons_of_ne_nil hwritten.1
    by_cases hsizes : ∀ item ∈ first :: rest, HasTokenSize item
    · obtain ⟨token, -, htoken⟩ := exists_parse hvisible hwritten hsizes
      cases htoken.symm.trans hinvalid
    · cases (parse_eq_invalidToken hvisible hwritten hsizes).symm.trans hinvalid

end Parse

section Build

theorem visible_text (token : Token) :
    ∀ char ∈ (text token).toList, HeaderValue.IsVisibleChar char := by
  simp only [text, String.toList_append, List.forall_mem_append]
  refine ⟨⟨⟨?_, ?_⟩, HeaderValue.visible_urlEncode _⟩, ?_⟩
  iterate 3 simp [HeaderValue.IsVisibleChar, scheme]

theorem exists_build (token : Token) :
    ∃ field, build token = .ok field ∧ field.value.bytes = utf8 (text token) := by
  obtain ⟨value, hvalue, hbytes, -⟩ := HeaderValue.exists_ofString?_of_visible (visible_text token)
  exact ⟨⟨name, value⟩, by simp [build, hvalue], hbytes⟩

theorem tokenText_text (token : Token) {lead : List Char} (hlead : ∀ char ∈ lead, isBlank char) :
    TokenText (Base64.urlEncode token.encode).toList (lead ++ (text token).toList) := by
  have hopening : SchemeText (lead ++ scheme.toList ++ [' ']) :=
    .intro hlead rfl (List.cons_ne_nil _ _) (by simp)
  have hblanks : ∀ char ∈ ([] : List Char) ++ [] ++ [] ++ [], isBlank char := nofun
  have hkey : lower "token".toList = "token" := rfl
  simpa [text] using TokenText.intro hopening hblanks hkey (.quoted_urlEncode token.encode_ne_nil)

theorem decode_urlEncode (token : Token) :
    decode (Base64.urlEncode token.encode).toList = .ok token := by
  rw [decode_eq_ok_iff, String.ofList_toList, Base64.urlDecode?_urlEncode]

theorem isWritten_intercalate {tokens : List Token} (htokens : tokens ≠ []) {gap : List Char}
    (hgap : ∀ char ∈ gap, isBlank char) :
    IsWritten (tokens.map fun token => (Base64.urlEncode token.encode).toList)
      ((',' :: gap).intercalate (tokens.map fun token => (text token).toList)) := by
  obtain ⟨texts, hspelled, hsame⟩ := exists_texts_of_gap
    (fun token (_ : token ∈ tokens) lead hlead => tokenText_text token hlead) hgap
  exact ⟨mt List.map_eq_nil_iff.mp htokens, texts, List.forall₂_map_left_iff.mpr hspelled, hsame⟩

theorem exists_fields {tokens : List Token} (htokens : tokens ≠ []) {separator : String}
    (hseparator : separator = "," ∨ separator = ", ") :
    ∃ fields value, tokens.mapM build = .ok fields ∧
      HeaderValue.ofBytes?
        ((utf8 separator).intercalate (fields.map fun field => field.value.bytes)) = some value ∧
      value.IsVisible ∧
      IsWritten (tokens.map fun token => (Base64.urlEncode token.encode).toList) value.chars := by
  obtain ⟨gap, hcommas, hgap⟩ :
      ∃ gap, separator.toList = ',' :: gap ∧ ∀ char ∈ gap, isBlank char := by
    rcases hseparator with rfl | rfl
    · exact ⟨[], rfl, nofun⟩
    · exact ⟨[' '], rfl, by simp [isBlank]⟩
  have hvisible : ∀ char ∈ separator.toList, HeaderValue.IsVisibleChar char := by
    rcases hseparator with rfl | rfl <;> simp [HeaderValue.IsVisibleChar]
  obtain ⟨fields, hfields⟩ := exists_forall₂ fun token (_ : token ∈ tokens) => exists_build token
  obtain ⟨value, hvalue, hvalueVisible, hchars⟩ :=
    HeaderValue.exists_joined hvisible (List.forall_mem_map.mpr fun token _ => visible_text token)
      (List.forall₂_map_left_iff.mpr (hfields.imp fun _ _ h => h.2.symm))
  refine ⟨fields, value, mapM_eq_ok_iff.mpr (hfields.imp fun _ _ h => h.1), hvalue,
    hvalueVisible, ?_⟩
  rw [hchars, hcommas, List.map_map]
  exact isWritten_intercalate htokens hgap

theorem parse_fields (first : Token) (rest : List Token) {separator : String}
    (hseparator : separator = "," ∨ separator = ", ") :
    ∃ fields value, (first :: rest).mapM build = .ok fields ∧
      HeaderValue.ofBytes?
        ((utf8 separator).intercalate (fields.map fun field => field.value.bytes)) = some value ∧
      parse value = .ok first := by
  obtain ⟨fields, value, hfields, hvalue, hvisible, hwritten⟩ :=
    exists_fields (List.cons_ne_nil first rest) hseparator
  have hsizes := List.forall_mem_map.mpr fun token (_ : token ∈ first :: rest) =>
    exists_decode_iff.mp ⟨token, decode_urlEncode token⟩
  obtain ⟨token, htoken, hparse⟩ := exists_parse hvisible hwritten hsizes
  obtain rfl : token = first :=
    Except.ok.inj ((decode_eq_ok_iff.mpr htoken).symm.trans (decode_urlEncode first))
  exact ⟨fields, value, hfields, hvalue, hparse⟩

theorem exists_parse_build (token : Token) :
    ∃ field, build token = .ok field ∧ parse field.value = .ok token := by
  obtain ⟨fields, value, hfields, hvalue, hparse⟩ := parse_fields token [] (.inl rfl)
  obtain ⟨field, _, hfield, hnone, rfl⟩ :=
    List.forall₂_cons_left_iff.mp (mapM_eq_ok_iff.mp hfields)
  obtain rfl := List.forall₂_nil_left_iff.mp hnone
  obtain rfl : field.value = value := by simpa using hvalue
  exact ⟨field, hfield, hparse⟩

end Build

-- Exactly what is read from a value, and from the values that are written.
theorem parse_exact :
    (∀ value : HeaderValue,
      (parse value ≠ .error .invalidInput ↔
        value.IsVisible ∧ ∃ items, IsWritten items value.chars) ∧
      ∀ first rest, value.IsVisible → IsWritten (first :: rest) value.chars →
        ((∀ item ∈ first :: rest, HasTokenSize item) →
          ∃ token, Base64.urlDecode? (String.ofList first) = some token.encode ∧
            parse value = .ok token) ∧
        (¬(∀ item ∈ first :: rest, HasTokenSize item) → parse value = .error .invalidToken)) ∧
    (∀ first rest, ∀ separator ∈ [",", ", "],
      ∃ fields value, (first :: rest).mapM build = .ok fields ∧
        HeaderValue.ofBytes?
          ((utf8 separator).intercalate (fields.map fun field => field.value.bytes)) = some value ∧
        parse value = .ok first) ∧
    ∀ token, ∃ field, build token = .ok field ∧ parse field.value = .ok token := by
  refine ⟨fun value => ⟨parse_ne_invalidInput_iff, fun first rest hvisible hwritten => ?_⟩, ?_, ?_⟩
  · exact ⟨exists_parse hvisible hwritten, parse_eq_invalidToken hvisible hwritten⟩
  · exact fun first rest separator hseparator => parse_fields first rest (by simpa using hseparator)
  · exact exists_parse_build

def zeros : Token where
  tokenType := 0
  nonce := ⟨List.replicate 32 0, List.length_replicate⟩
  challengeDigest := ⟨List.replicate 32 0, List.length_replicate⟩
  tokenKeyId := ⟨List.replicate 32 0, List.length_replicate⟩
  authenticator := ⟨List.replicate signatureSize 0, List.length_replicate⟩

-- Two items, with names in any case, and blanks and quotes where they may stand.
def pairText (first second : Bytes) : String :=
  scheme ++ "  Token=\"" ++ Base64.urlEncode first ++ "\" , privateTOKEN TOKEN = " ++
    Base64.urlEncode second

theorem exists_pairText {first second : Bytes} (hfirst : first ≠ []) (hsecond : second ≠ []) :
    ∃ value, HeaderValue.ofString? (pairText first second) = some value ∧ value.IsVisible ∧
      IsWritten [(Base64.urlEncode first).toList, (Base64.urlEncode second).toList]
        value.chars := by
  have hvisible : ∀ char ∈ (pairText first second).toList, HeaderValue.IsVisibleChar char := by
    simp only [pairText, String.toList_append, List.forall_mem_append]
    refine ⟨⟨⟨⟨?_, ?_⟩, HeaderValue.visible_urlEncode _⟩, ?_⟩, HeaderValue.visible_urlEncode _⟩
    iterate 3 simp [HeaderValue.IsVisibleChar, scheme]
  obtain ⟨value, hvalue, -, hvalueVisible, hchars⟩ :=
    HeaderValue.exists_ofString?_of_visible hvisible
  have hopening : SchemeText ([] ++ scheme.toList ++ [' ', ' ']) :=
    .intro nofun rfl (List.cons_ne_nil _ _) (by simp)
  have hfollowing : SchemeText ([' '] ++ "privateTOKEN".toList ++ [' ']) :=
    .intro (by simp [isBlank]) (by decide) (List.cons_ne_nil _ _) (by simp)
  have hblank : ∀ char ∈ ([] : List Char) ++ [] ++ [] ++ [' '], isBlank char := by simp [isBlank]
  have hblanks : ∀ char ∈ [] ++ [' '] ++ [' '] ++ [], isBlank char := by simp [isBlank]
  have hquoted := TokenText.intro hopening hblank (show lower "Token".toList = "token" from rfl)
    (.quoted_urlEncode hfirst)
  have hbare := TokenText.intro hfollowing hblanks (show lower "TOKEN".toList = "token" from rfl)
    (.bare (Base64.urlEncode_ne_nil hsecond) (isBase64Char_urlEncode second))
  refine ⟨value, hvalue, hvalueVisible, List.cons_ne_nil _ _, _,
    .cons hquoted (.cons hbare .nil), ?_⟩
  simp [hchars, pairText]

theorem parse_zeros :
    ∃ pair cut fields joined,
      HeaderValue.ofString? (pairText zeros.encode zeros.encode) = some pair ∧
      parse pair = .ok zeros ∧
      HeaderValue.ofString? (pairText zeros.encode [0]) = some cut ∧
      parse cut = .error .invalidToken ∧
      [zeros, { zeros with tokenType := 1 }].mapM build = .ok fields ∧
      HeaderValue.ofBytes?
        ((utf8 ", ").intercalate (fields.map fun field => field.value.bytes)) = some joined ∧
      parse joined = .ok zeros := by
  have hnonempty := zeros.encode_ne_nil
  have hshort : ¬HasTokenSize (Base64.urlEncode [0]).toList := by
    rintro ⟨bytes, hbytes, hlength⟩
    rw [String.ofList_toList, Base64.urlDecode?_urlEncode] at hbytes
    cases hbytes
    cases hlength
  have hsize := exists_decode_iff.mp ⟨zeros, decode_urlEncode zeros⟩
  obtain ⟨pair, hpair, hpairVisible, hpairWritten⟩ := exists_pairText hnonempty hnonempty
  obtain ⟨cut, hcut, hcutVisible, hcutWritten⟩ :=
    exists_pairText hnonempty (List.cons_ne_nil 0 [])
  obtain ⟨hread, hjoin, -⟩ := parse_exact
  obtain ⟨token, htoken, hparse⟩ :=
    ((hread pair).2 _ _ hpairVisible hpairWritten).1 (by simpa using hsize)
  obtain rfl : token = zeros :=
    Except.ok.inj ((decode_eq_ok_iff.mpr htoken).symm.trans (decode_urlEncode zeros))
  have hfails := ((hread cut).2 _ _ hcutVisible hcutWritten).2 fun hall => hshort (hall _ (by simp))
  obtain ⟨fields, joined, hfields, hjoined, hfirst⟩ := hjoin zeros [_] ", " (by simp)
  exact ⟨pair, cut, fields, joined, hpair, hparse, hcut, hfails, hfields, hjoined, hfirst⟩

end BlindToken.TokenField
