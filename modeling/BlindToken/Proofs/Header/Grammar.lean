import BlindToken.Proofs.Except
import BlindToken.Proofs.Header.Parameter

namespace BlindToken.Credentials

-- The name of the scheme in any case, blanks in front of it and at least one space behind it.
inductive SchemeText : List Char → Prop where
  | intro {lead name gap : List Char} (blanks : ∀ char ∈ lead, isBlank char)
      (named : lower name = lower scheme.toList) (nonempty : gap ≠ [])
      (spaces : ∀ char ∈ gap, char = ' ') : SchemeText (lead ++ name ++ gap)

inductive EntryText (vocabulary : Vocabulary) : Entry → List Char → Prop where
  | intro {opening : List Char} {entry : Entry} {texts : List (List Char)}
      (opens : SchemeText opening) (nonempty : entry ≠ [])
      (parameters : List.Forall₂ (ParameterText vocabulary) entry texts) :
      EntryText vocabulary entry (opening ++ [','].intercalate texts)

inductive ListText (vocabulary : Vocabulary) : List Entry → List Char → Prop where
  | intro {entries : List Entry} {texts : List (List Char)} (nonempty : entries ≠ [])
      (spelled : List.Forall₂ (EntryText vocabulary) entries texts) :
      ListText vocabulary entries ([','].intercalate texts)

-- What stands between two commas.
inductive ItemText (vocabulary : Vocabulary) : Item → List Char → Prop where
  | opening {opening text : List Char} {parameter : Parameter} (opens : SchemeText opening)
      (spelled : ParameterText vocabulary parameter text) :
      ItemText vocabulary ⟨true, parameter⟩ (opening ++ text)
  | following {text : List Char} {parameter : Parameter}
      (spelled : ParameterText vocabulary parameter text) :
      ItemText vocabulary ⟨false, parameter⟩ text

section Scheme

variable {opening text rest : List Char}

private theorem name_spec {name : List Char} (hname : lower name = lower scheme.toList) :
    name.length = scheme.length ∧ (∀ char ∈ name, isNameChar char) ∧
      ∀ rest, ∀ next ∈ (name ++ rest).head?, isBlank next = false := by
  have hlength : name.length = scheme.length := by
    have hmap := congrArg List.length (String.ofList_injective hname)
    rw [List.length_map, List.length_map] at hmap
    exact hmap.trans String.length_toList
  have hchars : ∀ char ∈ name, isNameChar char := by
    refine isNameChar_of_lower ?_
    rw [hname]
    decide
  have hnonempty : name ≠ [] := by
    rintro rfl
    cases hlength
  refine ⟨hlength, hchars, of_mem_head?_append hnonempty fun char hchar => ?_⟩
  exact not_isBlank_of_isNameChar (hchars char hchar)

theorem afterScheme?_append (hopening : SchemeText opening) (text : List Char) :
    afterScheme? (opening ++ text) = some (text.dropWhile (· = ' ')) := by
  obtain ⟨hlead, hname, hgap, hspaces⟩ := hopening
  rename_i lead name gap
  obtain ⟨hlength, -, hfirst⟩ := name_spec hname
  obtain ⟨space, gap, rfl⟩ := List.exists_cons_of_ne_nil hgap
  obtain ⟨rfl, hmore⟩ := List.forall_mem_cons.mp hspaces
  have hbody : (lead ++ name ++ ' ' :: gap ++ text).dropWhile isBlank =
      name ++ ' ' :: (gap ++ text) := by
    rw [List.append_assoc, List.append_assoc]
    exact dropWhile_append_stop hlead (hfirst _)
  have hrest : (gap ++ text).dropWhile (· = ' ') = text.dropWhile (· = ' ') :=
    List.dropWhile_append_of_pos fun char hchar => by simp [hmore char hchar]
  simp only [afterScheme?, hbody, ← hlength, List.take_left, List.drop_left, hname, if_true, hrest]

theorem exists_of_afterScheme? (h : afterScheme? text = some rest) :
    ∃ opening, SchemeText opening ∧ text = opening ++ rest := by
  obtain ⟨lead, htext, hlead, -⟩ := exists_dropWhile isBlank text
  unfold afterScheme? at h
  generalize text.dropWhile isBlank = body at h htext
  simp only at h
  split at h
  · rename_i more hmore
    split at h
    · rename_i hname
      obtain rfl := Option.some.inj h
      obtain ⟨spaces, hgap, hspaces, -⟩ := exists_dropWhile (· = ' ') more
      refine ⟨lead ++ body.take scheme.length ++ ' ' :: spaces, ?_, ?_⟩
      · refine .intro hlead hname (List.cons_ne_nil _ _) (List.forall_mem_cons.mpr ⟨rfl, ?_⟩)
        exact fun char hchar => of_decide_eq_true (hspaces char hchar)
      · calc
          text = lead ++ (body.take scheme.length ++ body.drop scheme.length) := by
            rw [List.take_append_drop, htext]
          _ = lead ++ (body.take scheme.length ++ ' ' :: (spaces ++ more.dropWhile (· = ' '))) := by
            rw [hmore, ← hgap]
          _ = lead ++ body.take scheme.length ++ ' ' :: spaces ++ more.dropWhile (· = ' ') := by
            simp
    · cases h
  · cases h

-- The name ends at the space behind it.
theorem exists_span_of_schemeText (hopening : SchemeText opening) (text : List Char) :
    ∃ name rest, ((opening ++ text).dropWhile isBlank).span isNameChar = (name, rest) ∧
      lower name = lower scheme.toList := by
  obtain ⟨hlead, hname, hgap, hspaces⟩ := hopening
  rename_i lead name gap
  obtain ⟨-, hchars, hfirst⟩ := name_spec hname
  refine ⟨name, gap ++ text, ?_, hname⟩
  rw [List.append_assoc, List.append_assoc, dropWhile_append_stop hlead (hfirst _)]
  refine span_eq_iff.mpr ⟨rfl, hchars, of_mem_head?_append hgap (fun char hchar => ?_) text⟩
  rw [hspaces char hchar]
  rfl

end Scheme

private theorem comma_not_mem {p : Char → Bool} {part : List Char} (hpart : ∀ char ∈ part, p char)
    (hcomma : p ',' = false) : ',' ∉ part := by
  intro hmem
  have hp := hpart ',' hmem
  rw [hcomma] at hp
  cases hp

section Items

variable {vocabulary : Vocabulary} {text : List Char} {item : Item} (hplain : vocabulary.Plain)

include hplain

theorem ParameterText.afterScheme?_eq_none {parameter : Parameter}
    (hparameter : ParameterText vocabulary parameter text) : afterScheme? text = none := by
  cases hafter : afterScheme? text with
  | none => rfl
  | some rest =>
    -- the name of the parameter would be that of the scheme
    obtain ⟨opening, hopening, rfl⟩ := exists_of_afterScheme? hafter
    obtain ⟨name, gap, hname, hscheme⟩ := exists_span_of_schemeText hopening rest
    obtain ⟨key, _, _, _, _, _, hkey, -, -, hknown, -⟩ :=
      parameter?_eq_some_iff_steps.mp ((parameter?_eq_some_iff hplain).mpr hparameter)
    obtain ⟨rfl, -⟩ := Prod.mk.inj (hname.symm.trans hkey)
    rw [hscheme, hplain.scheme] at hknown
    cases hknown

theorem item?_eq_some_iff : item? vocabulary text = some item ↔ ItemText vocabulary item text := by
  constructor
  · intro h
    unfold item? at h
    split at h
    · rename_i rest hafter
      obtain ⟨parameter, hparameter, rfl⟩ := Option.map_eq_some_iff.mp h
      obtain ⟨opening, hopening, rfl⟩ := exists_of_afterScheme? hafter
      exact .opening hopening ((parameter?_eq_some_iff hplain).mp hparameter)
    · obtain ⟨parameter, hparameter, rfl⟩ := Option.map_eq_some_iff.mp h
      exact .following ((parameter?_eq_some_iff hplain).mp hparameter)
  · intro h
    cases h with
    | opening hopening hspelled =>
      rename_i opening text parameter
      obtain ⟨spaces, htext, hspaces, -⟩ := exists_dropWhile (· = ' ') text
      have hblanks : ∀ char ∈ spaces, isBlank char := by
        intro char hchar
        rw [of_decide_eq_true (hspaces char hchar)]
        rfl
      have hparameter : parameter? vocabulary (text.dropWhile (· = ' ')) = some parameter := by
        rw [← parameter?_append hblanks, ← htext]
        exact (parameter?_eq_some_iff hplain).mpr hspelled
      simp [item?, afterScheme?_append hopening, hparameter]
    | following hspelled =>
      rw [item?, hspelled.afterScheme?_eq_none hplain, (parameter?_eq_some_iff hplain).mpr hspelled]
      rfl

theorem ParameterText.not_mem_comma {parameter : Parameter}
    (hparameter : ParameterText vocabulary parameter text) : ',' ∉ text := by
  obtain ⟨hblanks, hname, hspelled⟩ := hparameter
  rename_i lead key gap ahead value written trail isValueChar
  have hblank {part : List Char} (hpart : ∀ char ∈ part, isBlank char) : ',' ∉ part :=
    comma_not_mem hpart rfl
  have hkey : ',' ∉ key := comma_not_mem (hplain.key_spec hname).2.1 rfl
  have hvalue (hchars : ∀ char ∈ value, isValueChar char) : ',' ∉ value :=
    comma_not_mem (fun char hchar => hplain.values _ _ hname _ (hchars char hchar)) rfl
  have hwritten : ',' ∉ written := by
    cases hspelled with
    | bare _ hchars => exact hvalue hchars
    | quoted _ hchars => simpa using hvalue hchars
  simp only [List.forall_mem_append] at hblanks
  obtain ⟨⟨⟨hlead, hgap⟩, hahead⟩, htrail⟩ := hblanks
  simp [hblank hlead, hkey, hblank hgap, hblank hahead, hwritten, hblank htrail]

omit hplain in
theorem SchemeText.not_mem_comma {opening : List Char} (hopening : SchemeText opening) :
    ',' ∉ opening := by
  obtain ⟨hlead, hname, -, hspaces⟩ := hopening
  rename_i lead name gap
  have hfirst : ',' ∉ lead := comma_not_mem hlead rfl
  have hmiddle : ',' ∉ name := comma_not_mem (name_spec hname).2.1 rfl
  have hlast : ',' ∉ gap := fun hcomma => by simpa using hspaces _ hcomma
  simp [hfirst, hmiddle, hlast]

theorem ItemText.not_mem_comma (hitem : ItemText vocabulary item text) : ',' ∉ text := by
  cases hitem with
  | opening hopening hspelled =>
    simp [hopening.not_mem_comma, hspelled.not_mem_comma hplain]
  | following hspelled => exact hspelled.not_mem_comma hplain

end Items

section Group

-- The items of an entry: the first one opens it.
def Entry.items : Entry → List Item
  | [] => []
  | first :: rest => ⟨true, first⟩ :: rest.map (Item.mk false)

theorem group_cons (item : Item) (items : List Item) :
    group (item :: items) =
      if item.opens then ([], (item.parameter :: (group items).1) :: (group items).2)
      else (item.parameter :: (group items).1, (group items).2) := rfl

theorem group_following (pending : Entry) (items : List Item) :
    group (pending.map (Item.mk false) ++ items) =
      (pending ++ (group items).1, (group items).2) := by
  induction pending with
  | nil => rfl
  | cons first rest ih =>
    rw [List.map_cons, List.cons_append, group_cons, ih]
    rfl

theorem group_items {entries : List Entry} (hentries : ∀ entry ∈ entries, entry ≠ []) :
    group (entries.flatMap Entry.items) = ([], entries) := by
  induction entries with
  | nil => rfl
  | cons entry rest ih =>
    obtain ⟨hentry, hrest⟩ := List.forall_mem_cons.mp hentries
    obtain ⟨first, more, rfl⟩ := List.exists_cons_of_ne_nil hentry
    rw [List.flatMap_cons, Entry.items, List.cons_append, group_cons, group_following, ih hrest,
      List.append_nil]
    rfl

-- Every list of items is what its groups are made of.
theorem items_group (items : List Item) :
    items = (group items).1.map (Item.mk false) ++ (group items).2.flatMap Entry.items ∧
      ∀ entry ∈ (group items).2, entry ≠ [] := by
  induction items with
  | nil => simp [group]
  | cons item items ih =>
    obtain ⟨hitems, hentries⟩ := ih
    obtain ⟨opens, parameter⟩ := item
    cases opens with
    | false =>
      refine ⟨?_, hentries⟩
      rw [group_cons]
      exact congrArg _ hitems
    | true =>
      refine ⟨?_, List.forall_mem_cons.mpr ⟨List.cons_ne_nil _ _, hentries⟩⟩
      rw [group_cons]
      exact congrArg _ hitems

end Group

section Commas

variable {vocabulary : Vocabulary} {entry : Entry} {entries : List Entry} {text : List Char}

-- Each text with a comma in front of it.
def afterCommas (texts : List (List Char)) : List Char := texts.flatMap (',' :: ·)

theorem afterCommas_append (front back : List (List Char)) :
    afterCommas (front ++ back) = afterCommas front ++ afterCommas back := List.flatMap_append

theorem intercalate_cons_eq (first : List Char) (rest : List (List Char)) :
    [','].intercalate (first :: rest) = first ++ afterCommas rest := by
  induction rest generalizing first with
  | nil => simp [afterCommas]
  | cons second rest ih =>
    rw [List.intercalate_cons_cons, ih]
    simp [afterCommas]

-- Blanks behind a comma count to what follows them.
theorem intercalate_gap (gap first : List Char) (rest : List (List Char)) :
    (',' :: gap).intercalate (first :: rest) = first ++ afterCommas (rest.map (gap ++ ·)) := by
  induction rest generalizing first with
  | nil => simp [afterCommas]
  | cons second rest ih =>
    rw [List.intercalate_cons_cons, ih]
    simp [afterCommas]

theorem exists_texts_of_gap {α : Type} {R : α → List Char → Prop} {write : α → List Char}
    {items : List α} (hitems : ∀ item ∈ items, ∀ lead : List Char, (∀ char ∈ lead, isBlank char) →
      R item (lead ++ write item)) {gap : List Char} (hgap : ∀ char ∈ gap, isBlank char) :
    ∃ texts, List.Forall₂ R items texts ∧
      (',' :: gap).intercalate (items.map write) = [','].intercalate texts := by
  cases items with
  | nil => exact ⟨[], .nil, rfl⟩
  | cons first rest =>
    obtain ⟨hfirst, hrest⟩ := List.forall_mem_cons.mp hitems
    refine ⟨write first :: rest.map ((gap ++ ·) ∘ write), .cons (hfirst [] nofun) ?_, ?_⟩
    · rw [List.forall₂_map_right_iff, List.forall₂_same]
      exact fun item hitem => hrest item hitem gap hgap
    · rw [List.map_cons, intercalate_gap, intercalate_cons_eq, List.map_map]

theorem cons_intercalate {texts : List (List Char)} (htexts : texts ≠ []) :
    ',' :: [','].intercalate texts = afterCommas texts := by
  obtain ⟨first, rest, rfl⟩ := List.exists_cons_of_ne_nil htexts
  rw [intercalate_cons_eq]
  rfl

-- An entry is a row of items, the first of which opens it.
theorem entryText_iff : EntryText vocabulary entry text ↔ entry ≠ [] ∧ ∃ texts,
    List.Forall₂ (ItemText vocabulary) entry.items texts ∧ ',' :: text = afterCommas texts := by
  constructor
  · rintro ⟨hopens, hentry, hparameters⟩
    rename_i opening texts
    obtain ⟨first, rest, rfl⟩ := List.exists_cons_of_ne_nil hentry
    obtain ⟨text, more, hfirst, hrest, rfl⟩ := List.forall₂_cons_left_iff.mp hparameters
    refine ⟨hentry, (opening ++ text) :: more, .cons (.opening hopens hfirst) ?_, ?_⟩
    · exact List.forall₂_map_left_iff.mpr (hrest.imp fun _ _ hspelled => .following hspelled)
    · rw [intercalate_cons_eq]
      simp [afterCommas]
  · rintro ⟨hentry, texts, hitems, htext⟩
    obtain ⟨first, rest, rfl⟩ := List.exists_cons_of_ne_nil hentry
    obtain ⟨_, more, hfirst, hrest, rfl⟩ := List.forall₂_cons_left_iff.mp hitems
    obtain ⟨hopens, hspelled⟩ := hfirst
    rename_i opening spelled
    have hparameters :
        List.Forall₂ (ParameterText vocabulary) (first :: rest) (spelled :: more) := by
      refine .cons hspelled ((List.forall₂_map_left_iff.mp hrest).imp ?_)
      intro parameter text hitem
      cases hitem with
      | following hfollows => exact hfollows
    have hsame : text = opening ++ [','].intercalate (spelled :: more) := by
      rw [intercalate_cons_eq]
      simpa [afterCommas] using htext
    rw [hsame]
    exact .intro hopens hentry hparameters

theorem exists_of_forall₂_append {α β : Type} {R : α → β → Prop} {front back : List α}
    {texts : List β} (h : List.Forall₂ R (front ++ back) texts) :
    ∃ first last, texts = first ++ last ∧ List.Forall₂ R front first ∧
      List.Forall₂ R back last := by
  induction front generalizing texts with
  | nil => exact ⟨[], texts, rfl, .nil, h⟩
  | cons item rest ih =>
    obtain ⟨text, more, hitem, hrest, rfl⟩ := List.forall₂_cons_left_iff.mp h
    obtain ⟨first, last, rfl, hfirst, hlast⟩ := ih hrest
    exact ⟨text :: first, last, rfl, .cons hitem hfirst, hlast⟩

theorem exists_texts_iff (hentries : ∀ entry ∈ entries, entry ≠ []) (text : List Char) :
    (∃ texts, List.Forall₂ (EntryText vocabulary) entries texts ∧ text = afterCommas texts) ↔
      ∃ texts, List.Forall₂ (ItemText vocabulary) (entries.flatMap Entry.items) texts ∧
        text = afterCommas texts := by
  induction entries generalizing text with
  | nil => simp
  | cons entry rest ih =>
    obtain ⟨hentry, hrest⟩ := List.forall_mem_cons.mp hentries
    constructor
    · rintro ⟨texts, htexts, rfl⟩
      obtain ⟨first, more, hfirst, hmore, rfl⟩ := List.forall₂_cons_left_iff.mp htexts
      obtain ⟨-, front, hfront, hsame⟩ := entryText_iff.mp hfirst
      obtain ⟨back, hback, hlater⟩ := (ih hrest _).mp ⟨more, hmore, rfl⟩
      refine ⟨front ++ back, List.rel_append hfront hback, ?_⟩
      calc
        afterCommas (first :: more) = ',' :: first ++ afterCommas more := rfl
        _ = afterCommas (front ++ back) := by
          rw [hsame, hlater, afterCommas_append]
    · rintro ⟨texts, htexts, rfl⟩
      obtain ⟨front, back, rfl, hfront, hback⟩ := exists_of_forall₂_append htexts
      obtain ⟨more, hmore, hlater⟩ := (ih hrest _).mpr ⟨back, hback, rfl⟩
      have hfirst : front ≠ [] := by
        rintro rfl
        obtain ⟨parameter, others, rfl⟩ := List.exists_cons_of_ne_nil hentry
        cases hfront
      have hjoined := cons_intercalate hfirst
      refine ⟨[','].intercalate front :: more, .cons ?_ hmore, ?_⟩
      · exact entryText_iff.mpr ⟨hentry, front, hfront, hjoined⟩
      · calc
          afterCommas (front ++ back) = afterCommas front ++ afterCommas back :=
            afterCommas_append front back
          _ = ',' :: [','].intercalate front ++ afterCommas more := by rw [hjoined, hlater]
          _ = afterCommas ([','].intercalate front :: more) := rfl

end Commas

section Entries

variable {vocabulary : Vocabulary} (hplain : vocabulary.Plain) {text : List Char}
  {entries : List Entry}

include hplain

-- The reader accepts exactly the texts of the grammar, and gives the parameters of each entry in
-- their order.
theorem entries?_eq_some_iff :
    entries? vocabulary text = some entries ↔ ListText vocabulary entries text := by
  constructor
  · intro h
    obtain ⟨items, hitems, h⟩ := Option.bind_eq_some_iff.mp h
    have hspelled := (mapM_eq_some_iff.mp hitems).imp fun _ _ => (item?_eq_some_iff hplain).mp
    have hsplit := List.splitOn_ne_nil ',' text
    split at h
    · rename_i entries hgroup
      obtain rfl := Option.some.inj h
      obtain ⟨hall, hentries⟩ := items_group items
      rw [hgroup] at hall hentries
      obtain rfl : items = entries.flatMap Entry.items := hall
      obtain ⟨texts, htexts, hsame⟩ :=
        (exists_texts_iff hentries _).mpr ⟨_, hspelled.flip, rfl⟩
      have hnonempty : entries ≠ [] := by
        rintro rfl
        exact hsplit (List.forall₂_nil_right_iff.mp hspelled)
      have htexts' : texts ≠ [] := by
        rintro rfl
        exact hnonempty (List.forall₂_nil_right_iff.mp htexts)
      have hjoined : ',' :: text = ',' :: [','].intercalate texts := by
        rw [cons_intercalate htexts', ← hsame, ← cons_intercalate hsplit, List.intercalate_splitOn]
      obtain ⟨-, rfl⟩ := List.cons.inj hjoined
      exact .intro hnonempty htexts
    · cases h
  · rintro ⟨hnonempty, hspelled⟩
    rename_i texts
    have hentries : ∀ entry ∈ entries, entry ≠ [] :=
      forall_mem_of_forall₂ hspelled fun _ _ h => (entryText_iff.mp h).1
    obtain ⟨items, hitems, hsame⟩ :=
      (exists_texts_iff hentries (afterCommas texts)).mp ⟨texts, hspelled, rfl⟩
    have hcommas : ∀ item ∈ items, ',' ∉ item :=
      forall_mem_of_forall₂ hitems.flip fun _ _ h => h.not_mem_comma hplain
    have htexts : texts ≠ [] := by
      rintro rfl
      exact hnonempty (List.forall₂_nil_right_iff.mp hspelled)
    have hnone : items ≠ [] := by
      rintro rfl
      rw [← cons_intercalate htexts] at hsame
      cases hsame
    rw [← cons_intercalate htexts, ← cons_intercalate hnone] at hsame
    have hread : items.mapM (item? vocabulary) = some (entries.flatMap Entry.items) :=
      mapM_eq_some_iff.mpr (hitems.flip.imp fun _ _ => (item?_eq_some_iff hplain).mpr)
    refine Option.bind_eq_some_iff.mpr ⟨entries.flatMap Entry.items, ?_, ?_⟩
    · rw [(List.cons.inj hsame).2, List.splitOn_intercalate ',' hcommas hnone]
      exact hread
    · rw [group_items hentries]

end Entries

section Lookup

variable {vocabulary : Vocabulary} {entry : Entry} {name : String}

private theorem name_eq_of_filter {parameter : Parameter}
    (hfilter : entry.filter (·.name = name) = [parameter]) : parameter.name = name := by
  have hmem : parameter ∈ entry.filter (·.name = name) := by simp [hfilter]
  simpa using (List.mem_filter.mp hmem).2

theorem Entry.required?_eq_some_iff {value : List Char} : entry.required? name = some value ↔
    entry.filter (·.name = name) = [⟨name, value⟩] := by
  unfold required?
  constructor
  · intro h
    split at h
    · rename_i parameter hfilter
      obtain rfl := Option.some.inj h
      rw [hfilter, ← name_eq_of_filter hfilter]
    · cases h
  · intro h
    simp only [h]

theorem Entry.optional?_eq_some_iff {value : Option (List Char)} :
    entry.optional? name = some value ↔
      entry.filter (·.name = name) = value.toList.map (Parameter.mk name) := by
  unfold optional?
  constructor
  · intro h
    split at h
    · rename_i hfilter
      obtain rfl := Option.some.inj h
      exact hfilter
    · rename_i parameter hfilter
      obtain rfl := Option.some.inj h
      rw [hfilter, ← name_eq_of_filter hfilter]
      rfl
    · cases h
  · intro h
    cases value with
    | none =>
      rw [Option.toList_none, List.map_nil] at h
      simp only [h]
    | some value =>
      rw [Option.toList_some, List.map_singleton] at h
      simp only [h]

theorem EntryText.exists_class {text : List Char} (h : EntryText vocabulary entry text) :
    ∀ parameter ∈ entry, ∃ isValueChar, vocabulary parameter.name = some isValueChar := by
  obtain ⟨-, -, hparameters⟩ := h
  refine forall_mem_of_forall₂ hparameters ?_
  rintro parameter text ⟨-, hname, -⟩
  exact ⟨_, hname⟩

end Lookup

end BlindToken.Credentials
