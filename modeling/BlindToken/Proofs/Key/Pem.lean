import BlindToken.Key.Pem
import BlindToken.Proofs.Base64.Acceptance

namespace BlindToken

namespace Text

variable {ending text : List Char}

theorem after?_append (start text : List Char) : after? start (start ++ text) = some text := by
  simp [after?]

theorem before?_append (text ending : List Char) :
    before? ending (text ++ ending) = some text := by
  simp [before?]

theorem before?_eq_none (h : ¬ending <:+ text) : before? ending text = none :=
  if_neg (mt List.isSuffixOf_iff_suffix.mp h)

theorem of_concat_suffix_concat (ending : List Char) {last char : Char}
    (h : ending ++ [last] <:+ text ++ [char]) : ending <:+ text ∧ last = char := by
  obtain hnil | ⟨front, hfront, hsuffix⟩ := List.suffix_concat_iff.mp h
  · exact absurd hnil (List.append_ne_nil_of_right_ne_nil _ (List.cons_ne_nil _ _))
  · obtain ⟨rfl, hlast⟩ := List.append_inj' hfront rfl
    exact ⟨hsuffix, List.head_eq_of_cons_eq hlast⟩

end Text

namespace Pem

-- A character that is part of no line end.
structure IsInLine (char : Char) : Prop where
  ne_newline : '\n' ≠ char
  ne_return : '\r' ≠ char

theorem dropLineEnd?_newline (text : List Char) : dropLineEnd? ('\n' :: text) = some text := rfl

section LineEnds

variable {text : List Char} {char : Char} (hchar : IsInLine char)

include hchar

theorem dropFinalLineEnd?_newline :
    dropFinalLineEnd? (text ++ [char] ++ ['\n']) = some (text ++ [char]) := by
  have hreturn : ¬['\r', '\n'] <:+ text ++ [char] ++ ['\n'] := fun h =>
    hchar.ne_return (Text.of_concat_suffix_concat []
      (Text.of_concat_suffix_concat ['\r'] h).1).2
  rw [dropFinalLineEnd?, lineEnds, List.findSome?_cons, Text.before?_eq_none hreturn]
  simp only [List.findSome?_cons, Text.before?_append]

theorem dropFinalLineEnd?_isInLine : dropFinalLineEnd? (text ++ [char]) = none := by
  have hboth : ¬['\r', '\n'] <:+ text ++ [char] := fun h =>
    hchar.ne_newline (Text.of_concat_suffix_concat ['\r'] h).2
  have hnewline : ¬['\n'] <:+ text ++ [char] := fun h =>
    hchar.ne_newline (Text.of_concat_suffix_concat [] h).2
  have hreturn : ¬['\r'] <:+ text ++ [char] := fun h =>
    hchar.ne_return (Text.of_concat_suffix_concat [] h).2
  simp only [dropFinalLineEnd?, lineEnds, List.findSome?_cons, Text.before?_eq_none hboth,
    Text.before?_eq_none hnewline, Text.before?_eq_none hreturn, List.findSome?_nil]

end LineEnds

section Lines

-- The symbols as they are written, each line with its end.
def lines (symbols : List Char) : List Char := (chunks lineWidth symbols).flatMap (· ++ ['\n'])

theorem lines_of_length_le {symbols : List Char} (hne : symbols ≠ [])
    (h : symbols.length ≤ lineWidth) : lines symbols = symbols ++ ['\n'] := by
  rw [lines, chunks_of_ne_nil (by decide) hne, List.take_of_length_le h, List.drop_of_length_le h]
  simp

theorem lines_of_lt_length {symbols : List Char} (h : lineWidth < symbols.length) :
    lines symbols = symbols.take lineWidth ++ '\n' :: lines (symbols.drop lineWidth) := by
  have hne : symbols ≠ [] := List.ne_nil_of_length_pos (Nat.zero_lt_of_lt h)
  rw [lines, chunks_of_ne_nil (by decide) hne, List.flatMap_cons, List.append_assoc]
  rfl

-- What is left of the lines without the last line end.
structure AreLines (symbols text : List Char) : Prop where
  lines_eq : lines symbols = text ++ ['\n']
  isInLine : ∃ front char, text = front ++ [char] ∧ IsInLine char
  joined : ∀ fuel, text.length < fuel → joinLines? fuel text = some symbols

namespace AreLines

variable {symbols text : List Char}

theorem ofLine (hne : symbols ≠ []) (hsymbols : ∀ char ∈ symbols, IsInLine char)
    (hlength : symbols.length ≤ lineWidth) : AreLines symbols symbols := by
  obtain ⟨front, char, rfl⟩ := (List.eq_nil_or_concat' symbols).resolve_left hne
  have hchar : IsInLine char := hsymbols char (by simp)
  refine ⟨lines_of_length_le hne hlength, ⟨front, char, rfl, hchar⟩, fun fuel hfuel => ?_⟩
  obtain ⟨fuel, rfl⟩ := Nat.exists_eq_succ_of_ne_zero (Nat.ne_zero_of_lt hfuel)
  rw [joinLines?, if_pos hlength, dropFinalLineEnd?_isInLine hchar]
  simp

-- A full line in front of others.
theorem cons (hlength : lineWidth < symbols.length) (h : AreLines (symbols.drop lineWidth) text) :
    AreLines symbols (symbols.take lineWidth ++ '\n' :: text) := by
  have hfirst : (symbols.take lineWidth).length = lineWidth :=
    List.length_take_of_le (Nat.le_of_lt hlength)
  refine ⟨?_, ?_, fun fuel hfuel => ?_⟩
  · rw [lines_of_lt_length hlength, h.lines_eq, List.append_assoc]
    rfl
  · obtain ⟨front, char, rfl, hchar⟩ := h.isInLine
    exact ⟨symbols.take lineWidth ++ '\n' :: front, char, by simp, hchar⟩
  · obtain ⟨fuel, rfl⟩ := Nat.exists_eq_succ_of_ne_zero (Nat.ne_zero_of_lt hfuel)
    rw [List.length_append, hfirst, List.length_cons] at hfuel
    have hover : ¬(symbols.take lineWidth ++ '\n' :: text).length ≤ lineWidth := by
      rw [List.length_append, hfirst, List.length_cons]
      omega
    rw [joinLines?, if_neg hover, List.drop_left' hfirst, List.take_left' hfirst,
      dropLineEnd?_newline]
    simp [h.joined fuel (by omega)]

end AreLines

theorem exists_areLines (symbols : List Char) (hne : symbols ≠ [])
    (hsymbols : ∀ char ∈ symbols, IsInLine char) : ∃ text, AreLines symbols text := by
  by_cases hlength : symbols.length ≤ lineWidth
  · exact ⟨symbols, .ofLine hne hsymbols hlength⟩
  · have hrest : symbols.drop lineWidth ≠ [] := by
      rw [Ne, List.drop_eq_nil_iff]
      exact hlength
    obtain ⟨text, htext⟩ := exists_areLines (symbols.drop lineWidth) hrest
      fun char hchar => hsymbols char (List.mem_of_mem_drop hchar)
    exact ⟨_, htext.cons (Nat.lt_of_not_le hlength)⟩
termination_by symbols.length
decreasing_by
  rw [List.length_drop]
  exact Nat.sub_lt (List.length_pos_of_ne_nil hne) (by decide)

end Lines

theorem isInLine_encode (document : Bytes) :
    ∀ char ∈ Base64.encode Base64.standard document, IsInLine char := by
  have hsymbol : ∀ value < 64, '\n' ≠ Base64.standard.symbol value ∧
      '\r' ≠ Base64.standard.symbol value := by decide
  exact Base64.forall_mem_encode (fun value hvalue => ⟨(hsymbol value hvalue).1,
    (hsymbol value hvalue).2⟩) ⟨by decide, by decide⟩ document

theorem decode?_encode (label : String) {document : Bytes} (h : document ≠ []) :
    decode? label (encode label document) = some document := by
  obtain ⟨text, htext⟩ := exists_areLines (Base64.encode Base64.standard document)
    (Base64.encode_ne_nil Base64.standard_isFaithful h) (isInLine_encode document)
  obtain ⟨front, char, rfl, hchar⟩ := htext.isInLine
  have hencode : (encode label document).toList = beginMark ++ (label.toList ++ dashes) ++ ('\n' ::
      (front ++ [char] ++ ['\n'] ++ (endMark ++ (label.toList ++ dashes)) ++ ['\n'])) := by
    rw [encode, String.toList_ofList, ← htext.lines_eq]
    simp [lines]
  obtain ⟨more, hdash⟩ : ∃ more, label.toList ++ dashes = more ++ ['-'] :=
    ⟨label.toList ++ "----".toList, by simp [dashes]⟩
  have hpreamble (rest : List Char) :
      skipPreamble? (beginMark ++ rest) = some (beginMark ++ rest) := by
    simp [skipPreamble?]
  have hlast (text : List Char) :
      dropFinalLineEnd? (text ++ (endMark ++ (more ++ ['-'])) ++ ['\n']) =
        some (text ++ (endMark ++ (more ++ ['-']))) := by
    rw [← List.append_assoc endMark, ← List.append_assoc text]
    exact dropFinalLineEnd?_newline ⟨by decide, by decide⟩
  rw [decode?, hencode, hdash, List.append_assoc beginMark, hpreamble,
    ← List.append_assoc beginMark]
  simp only [Option.bind_eq_bind, Option.bind_some, Text.after?_append, dropLineEnd?_newline,
    hlast, Option.getD_some, Text.before?_append, dropFinalLineEnd?_newline hchar,
    htext.joined _ (Nat.lt_succ_self _)]
  exact Base64.decode?_encode Base64.standard_isFaithful .required document

end Pem

end BlindToken
